import ScriptBytecode.Proofs.TreeDemands
import ScriptBytecode.Proofs.Validity

/-!
# Which error compiling reports

Compiling a script reports the first offence that a walk of its tree finds, and succeeds if there is none. The only
other errors are those of scripts that ask for more registers or more constants than there are numbers for
(`Chunk.Fits`).
-/

namespace ScriptBytecode

open Assembler Assembling

/-- There are as many registers as a script takes, and its different constants all have a place in the pool. -/
def Chunk.Fits (chunk : Chunk) : Prop :=
  chunk.registers < 2 ^ 32 ∧ chunk.constants.eraseDups.length ≤ 2 ^ 32

instance (chunk : Chunk) : Decidable chunk.Fits :=
  inferInstanceAs (Decidable (_ ∧ _))

/-- The size of the pool of a script that is lowered. -/
theorem size_addAll_empty (constants : List Constant) :
    (ConstantPool.empty.addAll constants).size = constants.eraseDups.length := by
  rw [← ConstantPool.toList_addAll_empty, Array.length_toList]
  rfl

/-- Compiling fails where lowering fails: what is lowered can be finished. -/
theorem lowerChunk_of_compile_eq_error {chunk : Chunk} {error : CompileError} (h : chunk.compile = .error error) :
    lowerChunk chunk .empty = .error error := by
  unfold Chunk.compile at h
  cases hlower : lowerChunk chunk .empty with
  | error other =>
      simp only [hlower] at h
      rw [Except.error.inj h]
  | ok result =>
      obtain ⟨⟨⟩, a⟩ := result
      obtain ⟨outline, -, lowered⟩ := lowersChunk_of_lowerChunk hlower
      obtain ⟨program, hprogram⟩ := lowered.consistent.exists_finish
      simp [hlower, hprogram] at h

/-- A script that compiles has no offence, and it fits. -/
theorem fits_of_compile_eq_ok {chunk : Chunk} {program : Program} (h : chunk.compile = .ok program) :
    chunk.offence? = none ∧ chunk.Fits := by
  unfold Chunk.compile at h
  cases hlower : lowerChunk chunk .empty with
  | error error => simp [hlower] at h
  | ok result =>
      obtain ⟨⟨⟩, a⟩ := result
      obtain ⟨hoffence, hregisters, hconstants⟩ := (demands_lowerChunk chunk).of_eq_ok hlower
      obtain ⟨outline, -, lowered⟩ := lowersChunk_of_lowerChunk hlower
      have hpool := lowered.consistent.pool.size_le
      have hlast : a.lastRegister.toNat = 0 + chunk.registers := hregisters
      have hword := UInt32.toNat_lt a.lastRegister
      refine ⟨hoffence, by omega, ?_⟩
      rw [hconstants] at hpool
      rw [← size_addAll_empty]
      exact hpool

/-- An error is the first offence, or the script does not fit. -/
theorem offence?_of_compile_eq_error {chunk : Chunk} {error : CompileError} (h : chunk.compile = .error error) :
    (chunk.offence? = some error ∧ ¬ error.IsCapacity) ∨ (error.IsCapacity ∧ ¬ chunk.Fits) := by
  have hlower := lowerChunk_of_compile_eq_error h
  have hexplains := demands_lowerChunk chunk .empty
  rw [hlower] at hexplains
  rcases hexplains with hinternal | hoffence | ⟨rfl, hregisters⟩ | ⟨rfl, hconstants⟩
  · exact absurd hinternal (not_isInternal_of_lowerChunk hlower)
  · exact Or.inl hoffence
  · refine Or.inr ⟨trivial, fun hfits => ?_⟩
    have hroom := hfits.1
    have hall : 2 ^ 32 ≤ 0 + chunk.registers := hregisters
    omega
  · refine Or.inr ⟨trivial, fun hfits => ?_⟩
    have hroom := hfits.2
    have hall : 2 ^ 32 < (ConstantPool.empty.addAll chunk.constants).size := hconstants
    rw [size_addAll_empty] at hall
    omega

/-- A script that fits does not fail for its size. Unless a script fails for its size, compiling it fails with the first
offence of its tree, and succeeds if there is none. Scripts of any size compile exactly if they fit and have no
offence. -/
theorem compile_eq_error_iff_offence? (chunk : Chunk) :
    (chunk.Fits → ∀ error, error.IsCapacity → chunk.compile ≠ .error error) ∧
      ((∀ error, error.IsCapacity → chunk.compile ≠ .error error) →
        (∀ error, chunk.compile = .error error ↔ chunk.offence? = some error) ∧
          ((∃ program, chunk.compile = .ok program) ↔ chunk.offence? = none)) ∧
        ((∃ program, chunk.compile = .ok program) ↔ chunk.offence? = none ∧ chunk.Fits) := by
  refine ⟨?_, ?_, ?_⟩
  · intro hfits error hcapacity herror
    rcases offence?_of_compile_eq_error herror with ⟨-, hkind⟩ | ⟨-, hlarge⟩
    · exact hkind hcapacity
    · exact hlarge hfits
  · intro hsize
    cases hcompile : chunk.compile with
    | ok program =>
        have hnone := (fits_of_compile_eq_ok hcompile).1
        simp [hnone]
    | error error =>
        rcases offence?_of_compile_eq_error hcompile with ⟨hoffence, -⟩ | ⟨hcapacity, -⟩
        · simp [hoffence]
        · exact absurd hcompile (hsize error hcapacity)
  · constructor
    · rintro ⟨program, hcompile⟩
      exact fits_of_compile_eq_ok hcompile
    · rintro ⟨hnone, hfits⟩
      cases hcompile : chunk.compile with
      | ok program => exact ⟨program, rfl⟩
      | error error =>
          rcases offence?_of_compile_eq_error hcompile with ⟨hoffence, -⟩ | ⟨-, hlarge⟩
          · simp [hnone] at hoffence
          · exact absurd hfits hlarge

/-- `if true then break elseif ... .. nil then end`, outside of loops. The break comes first in the source, but the
operator of the second condition is what is reported, before its left operand. -/
def crowdedConditional : Chunk :=
  ⟨[.conditional [.guarded .ifThen (.boolean true none) [.breakLoop none] none,
    .guarded .elseIf (.binary .concat (.unsupported .vararg none) (.nil none) none) [] none] none]⟩

/-- A script with several offences, and one without any. -/
theorem compile_eq_error_crowdedConditional :
    crowdedConditional.Fits ∧
      crowdedConditional.compile = .error (.unsupported (.operator .concat) none) ∧
        leavableLoop.Fits ∧ ∃ program, leavableLoop.compile = .ok program := by
  have hcrowded : crowdedConditional.Fits := by decide
  have hleavable : leavableLoop.Fits := by decide
  obtain ⟨hfits, hexact, -⟩ := compile_eq_error_iff_offence? crowdedConditional
  obtain ⟨-, -, hcompiles⟩ := compile_eq_error_iff_offence? leavableLoop
  exact ⟨hcrowded, ((hexact (hfits hcrowded)).1 _).mpr rfl, hleavable, hcompiles.mpr ⟨rfl, hleavable⟩⟩

end ScriptBytecode
