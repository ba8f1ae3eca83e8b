import ScriptBytecode.Proofs.Assembling

/-!
# Steps in parallel

Two assemblers are `Parallel` if they have used the same registers and labels, and their instructions write the same
registers and jump to the same labels one by one. What they hold of names and constants may differ, but for one thing:
the second one has no constant other than the empty string, so it never runs out of places in its pool.

A step mimics another one if both keep assemblers parallel. The first one may fail on its own, but only when its pool is
full.
-/

namespace ScriptBytecode

open Assembler Assembling

/-- What shows of an instruction in the layout of its code: the register that it writes and the place that it may jump
to. -/
def Instruction.slot {τ : Type} (instruction : Instruction τ) : Option Register × Option τ :=
  (instruction.dst?, instruction.target?)

/-- The pool holds no constant but the empty string. -/
def ConstantPool.IsBare (pool : ConstantPool) : Prop :=
  pool = .empty ∨ pool = ⟨#[.string ""]⟩

/-- Two assemblers whose code has the same layout. -/
structure Assembler.Parallel (a b : Assembler) : Prop where
  registers : b.lastRegister = a.lastRegister
  labels : b.labels = a.labels
  slots : b.code.toList.map Instruction.slot = a.code.toList.map Instruction.slot
  wellFormed : a.scopes.WellFormed ∧ b.scopes.WellFormed
  scopes : b.scopes.stack.map (·.1) = a.scopes.stack.map (·.1)
  pool : b.constants.IsBare

namespace Assembler.Parallel

variable {a b c d : Assembler}

theorem empty : Parallel .empty .empty where
  registers := rfl
  labels := rfl
  slots := rfl
  wellFormed := ⟨ScopeChain.wellFormed_empty, ScopeChain.wellFormed_empty⟩
  scopes := rfl
  pool := Or.inl rfl

theorem currentRegister?_eq (h : a.Parallel b) : b.scopes.currentRegister? = a.scopes.currentRegister? := by
  rw [ScopeChain.currentRegister?_eq h.wellFormed.1, ScopeChain.currentRegister?_eq h.wellFormed.2, ← List.head?_map,
    ← List.head?_map, h.scopes]

theorem position_eq (h : a.Parallel b) : b.position = a.position := by
  have hlength := congrArg List.length h.slots
  simp only [List.length_map, Array.length_toList] at hlength
  rw [position, position, hlength]

theorem pushed (h : a.Parallel b) {instruction other : Instruction Label} (hslot : other.slot = instruction.slot) :
    (a.pushed instruction).Parallel (b.pushed other) :=
  { h with
    slots := by
      rw [pushed_code_toList, pushed_code_toList, List.map_append, List.map_append, h.slots, List.map_singleton,
        List.map_singleton, hslot] }

theorem withLabels (h : a.Parallel b) (labels : LabelTable) : (a.withLabels labels).Parallel (b.withLabels labels) :=
  { h with labels := rfl }

theorem withScopes (h : a.Parallel b) {scopes others : ScopeChain} (hwf : scopes.WellFormed) (hwf' : others.WellFormed)
    (hscopes : others.stack.map (·.1) = scopes.stack.map (·.1)) :
    (a.withScopes scopes).Parallel (b.withScopes others) :=
  { h with wellFormed := ⟨hwf, hwf'⟩, scopes := hscopes }

end Assembler.Parallel

/-! ## Steps -/

namespace Assembling

variable {α β γ δ : Type} {step : Assembling α} {other : Assembling β} {next : α → Assembling γ}
  {following : β → Assembling δ} {related : α → β → Prop} {last : γ → δ → Prop}

/-- The outcomes of two steps: both keep the assemblers parallel, or both have failed, or the first one alone has failed
because its pool was full. -/
def Outcomes (related : α → β → Prop) : Except CompileError (α × Assembler) → Except CompileError (β × Assembler) → Prop
  | .ok (value, a), .ok (result, b) => a.Parallel b ∧ related value result
  | .ok _, .error _ => False
  | .error error, .ok _ => error = .tooManyConstants
  | .error _, .error _ => True

/-- Two steps that keep assemblers parallel, unless the pool of the first one is full. -/
def Mimics (step : Assembling α) (other : Assembling β) (related : α → β → Prop) : Prop :=
  ∀ a b, a.Parallel b → Outcomes related (step a) (other b)

theorem Mimics.bind (h : Mimics step other related)
    (hnext : ∀ value result, related value result → Mimics (next value) (following result) last) :
    Mimics (step >>= next) (other >>= following) last := by
  intro a b hparallel
  have houtcomes := h a b hparallel
  cases hstep : step a with
  | error error =>
      rw [bind_of_error hstep]
      cases hother : other b with
      | error failure =>
          rw [bind_of_error hother]
          trivial
      | ok result =>
          -- The second step goes on, but the pool of the first one was full.
          rw [hstep, hother] at houtcomes
          cases (other >>= following) b with
          | ok _ => exact houtcomes
          | error _ => trivial
  | ok value =>
      obtain ⟨value, c⟩ := value
      rw [bind_of_ok hstep]
      cases hother : other b with
      | error failure =>
          rw [hstep, hother] at houtcomes
          exact houtcomes.elim
      | ok result =>
          obtain ⟨result, d⟩ := result
          rw [hstep, hother] at houtcomes
          rw [bind_of_ok hother]
          exact hnext value result houtcomes.2 c d houtcomes.1

theorem mimics_pure {value : α} {result : β} (h : related value result) :
    Mimics (pure value) (pure result) related :=
  fun _ _ hparallel => ⟨hparallel, h⟩

theorem mimics_fail (error failure : CompileError) :
    Mimics (fail error : Assembling α) (fail failure : Assembling β) related :=
  fun _ _ _ => trivial

theorem error_of_addConstant {a : Assembler} {constant : Constant} {error : CompileError}
    (h : addConstant constant a = .error error) : error = .tooManyConstants := by
  unfold addConstant at h
  split at h
  · exact (Except.error.inj h).symm
  · exact nomatch h

/-- A constant is added on one side only. -/
theorem mimics_addConstant_bind {constant : Constant} {next : ConstantIndex → Assembling α}
    (h : ∀ index, Mimics (next index) other related) : Mimics (addConstant constant >>= next) other related := by
  intro a b hparallel
  cases hadd : addConstant constant a with
  | error error =>
      rw [bind_of_error hadd]
      cases other b with
      | ok _ => exact error_of_addConstant hadd
      | error _ => trivial
  | ok result =>
      obtain ⟨index, c⟩ := result
      rw [bind_of_ok hadd]
      obtain ⟨-, -, rfl⟩ := addConstant_eq_ok_iff.mp hadd
      exact h index _ b { hparallel with }

end Assembling

section Operations

variable {a b : Assembler}

/-- Adding the empty string to a pool that holds nothing else. -/
theorem addString_of_isBare (h : b.constants.IsBare) :
    addString "" b = .ok (⟨0⟩, { b with constants := ⟨#[.string ""]⟩ }) := by
  have hadd : b.constants.add (.string "") = (0, ⟨#[.string ""]⟩) := by
    rcases h with h | h <;> rw [h] <;> rfl
  have hroom : b.constants.isFull = false := by
    apply decide_eq_false
    rcases h with h | h <;> rw [h] <;> decide
  unfold addString addConstant
  rw [hroom, hadd]
  rfl

theorem mimics_addString (name : String) : Mimics (addString name) (addString "") fun _ _ => True := by
  intro a b hparallel
  rw [addString_of_isBare hparallel.pool]
  cases hadd : addString name a with
  | error error => exact error_of_addConstant hadd
  | ok result =>
      obtain ⟨-, hindex, hc⟩ := addConstant_eq_ok_iff.mp hadd
      refine ⟨?_, trivial⟩
      rw [hc]
      exact { hparallel with pool := Or.inr rfl }

theorem mimics_allocate : Mimics allocate allocate Eq := by
  intro a b hparallel
  unfold allocate
  rw [hparallel.registers]
  by_cases hroom : a.lastRegister.toNat + 1 < UInt32.size
  · rw [if_pos hroom, if_pos hroom]
    exact ⟨{ hparallel with registers := rfl }, rfl⟩
  · rw [if_neg hroom, if_neg hroom]
    trivial

theorem mimics_emit {instruction other : Instruction Label} (h : other.slot = instruction.slot) :
    Mimics (emit instruction) (emit other) Eq :=
  fun _ _ hparallel => ⟨hparallel.pushed h, rfl⟩

theorem mimics_newLabel : Mimics newLabel newLabel Eq := by
  intro a b hparallel
  rw [newLabel_apply, newLabel_apply, hparallel.labels]
  exact ⟨hparallel.withLabels _, rfl⟩

theorem mimics_labelHere : Mimics labelHere labelHere Eq := by
  intro a b hparallel
  rw [labelHere_apply, labelHere_apply, hparallel.labels, hparallel.position_eq]
  exact ⟨hparallel.withLabels _, rfl⟩

theorem mimics_bindLabel (label : Label) : Mimics (bindLabel label) (bindLabel label) Eq := by
  intro a b hparallel
  show Outcomes Eq (.ok ((), a.bound label)) (.ok ((), b.bound label))
  unfold bound
  rw [hparallel.labels, hparallel.position_eq]
  exact ⟨hparallel.withLabels _, rfl⟩

theorem mimics_enterScope : Mimics enterScope enterScope Eq := by
  apply mimics_allocate.bind
  rintro scope _ rfl a b hparallel
  have hwf := hparallel.wellFormed
  have hscopes : (b.scopes.enter scope).2.stack.map (·.1) = (a.scopes.enter scope).2.stack.map (·.1) := by
    rw [ScopeChain.stack_enter hwf.1, ScopeChain.stack_enter hwf.2, List.map_cons, List.map_cons, hparallel.scopes]
  have hopened := hparallel.withScopes (ScopeChain.wellFormed_enter hwf.1 scope)
    (ScopeChain.wellFormed_enter hwf.2 scope) hscopes
  exact ⟨hopened.pushed rfl, rfl⟩

theorem mimics_exitScope : Mimics exitScope exitScope Eq := by
  intro a b hparallel
  have hwf := hparallel.wellFormed
  refine ⟨hparallel.withScopes (ScopeChain.wellFormed_exit hwf.1) (ScopeChain.wellFormed_exit hwf.2) ?_, rfl⟩
  rw [ScopeChain.stack_exit hwf.1, ScopeChain.stack_exit hwf.2, List.map_tail, List.map_tail, hparallel.scopes]

/-- Results that get registers of their own. -/
theorem mimics_result {make other : Register → Instruction Label} (h : ∀ dst, (other dst).slot = (make dst).slot) :
    Mimics (do let dst ← allocate; emit (make dst); return dst) (do let dst ← allocate; emit (other dst); return dst)
      Eq := by
  apply mimics_allocate.bind
  rintro dst _ rfl
  exact (mimics_emit (h dst)).bind fun _ _ _ => mimics_pure rfl

/-! ## Variables -/

/-- A name is found in an open scope only. -/
theorem exists_scope_of_lookup {name : String} {found : ResolvedBinding} (hwf : a.scopes.WellFormed)
    (h : a.scopes.lookup name = some found) : ∃ scope, a.InScope scope := by
  have hknows : a.scopes.Knows name := (ScopeChain.lookup_isSome_iff a.scopes name).mp (by rw [h]; rfl)
  obtain ⟨shown, hshown, -⟩ := hknows
  cases hstack : a.scopes.stack with
  | nil =>
      rw [hstack] at hshown
      exact nomatch hshown
  | cons top rest => exact ⟨top.1, hwf, by rw [ScopeChain.currentRegister?_eq hwf, hstack]; rfl⟩

theorem exists_define {scope : Register} (h : a.InScope scope) (name : String) (register : Register) :
    ∃ id scopes, a.scopes.define name register = some (id, scopes) := by
  cases hcurrent : a.scopes.current with
  | none =>
      have hregister := h.current
      simp [ScopeChain.currentRegister?, ScopeChain.currentScope?, hcurrent] at hregister
  | some id => exact ⟨_, _, ScopeChain.define_eq_some_iff.mpr ⟨⟨id, hcurrent, rfl⟩, rfl⟩⟩

theorem scopeRegister_of_inScope {scope : Register} (h : a.InScope scope) : scopeRegister a = .ok (scope, a) := by
  unfold scopeRegister
  rw [h.current]

/-- A variable that has been written: an instruction that writes no register is behind the code, and the open scopes
are the same up to their names. -/
def Writes (step : Assembling Unit) (a : Assembler) : Prop :=
  ∃ scopes instruction, scopes.WellFormed ∧ scopes.stack.map (·.1) = a.scopes.stack.map (·.1) ∧
    Instruction.slot instruction = (none, none) ∧ step a = .ok ((), (a.withScopes scopes).pushed instruction)

theorem writes_scoped {scope : Register} (h : a.InScope scope) (name : String) (index : ConstantIndex) (src : Register) :
    Writes (do let scope ← scopeRegister; defineVariable name src; emit (.scopeSet scope index src)) a := by
  obtain ⟨id, scopes, hdefine⟩ := exists_define h name src
  refine ⟨scopes, .scopeSet scope index src, ScopeChain.wellFormed_define h.wellFormed hdefine,
    ScopeChain.registers_define h.wellFormed hdefine, rfl, ?_⟩
  have hdefined : defineVariable name src a = .ok ((), a.withScopes scopes) :=
    defineVariable_eq_ok_iff.mpr ⟨id, scopes, hdefine, rfl⟩
  rw [bind_of_ok (scopeRegister_of_inScope h), bind_of_ok hdefined]
  rfl

theorem outcomes_of_writes {step other : Assembling Unit} (hparallel : a.Parallel b) (h : Writes step a)
    (h' : Writes other b) : Outcomes Eq (step a) (other b) := by
  obtain ⟨scopes, instruction, hwf, hscopes, hslot, hstep⟩ := h
  obtain ⟨others, another, hwf', hscopes', hslot', hstep'⟩ := h'
  rw [hstep, hstep']
  have hsame : others.stack.map (·.1) = scopes.stack.map (·.1) := by rw [hscopes, hscopes', hparallel.scopes]
  exact ⟨(hparallel.withScopes hwf hwf' hsame).pushed (hslot'.trans hslot.symm), rfl⟩

end Operations
end ScriptBytecode
