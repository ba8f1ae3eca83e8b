import ScriptBytecode.Proofs.Assembling
import ScriptBytecode.Proofs.ScopeHistories

/-!
# Assemblers that can be reached

`AssemblerUse` lists the operations of the assembler, and an assembler is reachable if operations lead to it from the
empty one. Wherever they lead, the pool has no more constants than there are words, and every scope object has a
register that was allocated for it (`Orderly`). The chain of scopes is one that its own operations can reach.
-/

namespace ScriptBytecode

open Assembler Assembling

/-- The operations of the assembler that change something. -/
inductive AssemblerUse where
  | addConstant (constant : Constant)
  | allocate
  | emit (instruction : Instruction Label)
  | newLabel
  | labelHere
  | bindLabelAt (label : Label) (pc : UInt32)
  | bindLabel (label : Label)
  | enterScope
  | exitScope
  | defineVariable (name : String) (register : Register)

/-- Carries an operation out. What it gives is left aside. -/
def AssemblerUse.step : AssemblerUse → Assembling Unit
  | .addConstant constant => discard (Assembler.addConstant constant)
  | .allocate => discard Assembler.allocate
  | .emit instruction => Assembler.emit instruction
  | .newLabel => discard Assembler.newLabel
  | .labelHere => discard Assembler.labelHere
  | .bindLabelAt label pc => Assembler.bindLabelAt label pc
  | .bindLabel label => Assembler.bindLabel label
  | .enterScope => discard Assembler.enterScope
  | .exitScope => Assembler.exitScope
  | .defineVariable name register => Assembler.defineVariable name register

theorem Assembling.discard_eq_ok_iff {α : Type} {step : Assembling α} {a b : Assembler} :
    discard step a = .ok ((), b) ↔ ∃ value, step a = .ok (value, b) := by
  change (step a).map _ = _ ↔ _
  cases step a with
  | error error => simp [Except.map]
  | ok result => simp [Except.map, Prod.ext_iff]

namespace Assembler

variable {a b : Assembler}

/-- An assembler that operations lead to from the empty one. -/
inductive Reachable : Assembler → Prop
  | empty : Reachable .empty
  | step {a b : Assembler} (use : AssemblerUse) (before : Reachable a) (used : use.step a = .ok ((), b)) : Reachable b

/-- A register that is in use. -/
def InUse (a : Assembler) (register : Register) : Prop :=
  register.index.toNat ≤ a.lastRegister.toNat

/-- Places of constants fit into words, and scope objects have registers that are in use. -/
structure Orderly (a : Assembler) : Prop where
  pool : a.constants.size ≤ 2 ^ 32
  scopes : ∀ id scope, a.scopes.get? id = some scope → a.InUse scope.register

theorem orderly_empty : Orderly .empty where
  pool := by simp [empty, ConstantPool.empty, ConstantPool.size]
  scopes := by simp [empty, ScopeChain.empty, ScopeChain.get?]

namespace Orderly

/-- The pool and the scopes stay the same, and registers stay in use. -/
theorem of_frame (h : a.Orderly) (hpool : b.constants = a.constants) (hscopes : b.scopes.get? = a.scopes.get?)
    (hlast : a.lastRegister.toNat ≤ b.lastRegister.toNat) : b.Orderly where
  pool := hpool ▸ h.pool
  scopes := fun id scope hget => Nat.le_trans (h.scopes id scope (hscopes ▸ hget)) hlast

theorem addConstant {constant : Constant} {index : ConstantIndex} (h : a.Orderly)
    (added : Assembler.addConstant constant a = .ok (index, b)) : b.Orderly := by
  have hsize := (get?_of_addConstant h.pool added).2
  obtain ⟨-, -, rfl⟩ := addConstant_eq_ok_iff.mp added
  exact ⟨hsize, h.scopes⟩

theorem allocate {register : Register} (h : a.Orderly) (allocated : Assembler.allocate a = .ok (register, b)) :
    b.Orderly := by
  have hnext := toNat_allocate allocated
  obtain ⟨-, -, rfl⟩ := allocate_eq_ok_iff.mp allocated
  exact h.of_frame rfl rfl (by omega)

theorem enterScope {inner : Register} (h : a.Orderly) (entered : Assembler.enterScope a = .ok (inner, b)) :
    b.Orderly := by
  obtain ⟨c, allocated, rfl⟩ := enterScope_eq_ok_iff.mp entered
  have hc := h.allocate allocated
  have hnext := toNat_allocate allocated
  refine ⟨hc.pool, fun id scope (hget : (c.scopes.enter inner).2.get? id = some scope) => ?_⟩
  rcases Nat.lt_or_ge id c.scopes.scopes.size with hlt | hge
  · rw [ScopeChain.get?_enter_of_lt inner hlt] at hget
    exact hc.scopes id scope hget
  · -- The scope that was entered has the register that was allocated for it.
    have hlast := ScopeChain.lt_size_of_get? hget
    rw [ScopeChain.size_enter] at hlast
    obtain rfl : id = c.scopes.scopes.size := by omega
    rw [ScopeChain.get?_enter_self, Option.some.injEq] at hget
    subst hget
    exact Nat.le_of_eq (congrArg UInt32.toNat hnext.1)

theorem exitScope (h : a.Orderly) : a.closed.Orderly :=
  h.of_frame rfl (ScopeChain.get?_exit a.scopes) (Nat.le_refl _)

/-- A definition changes what names are bound to, and not the registers of the scope objects. -/
theorem defineVariable {name : String} {register : Register} (h : a.Orderly)
    (defined : Assembler.defineVariable name register a = .ok ((), b)) : b.Orderly := by
  obtain ⟨id, scopes, hdefine, rfl⟩ := defineVariable_eq_ok_iff.mp defined
  refine ⟨h.pool, fun other scope (hget : scopes.get? other = some scope) => ?_⟩
  rw [ScopeChain.get?_define hdefine] at hget
  split at hget
  · obtain ⟨former, hformer, rfl⟩ := Option.map_eq_some_iff.mp hget
    exact h.scopes other former hformer
  · exact h.scopes other scope hget

theorem step (h : a.Orderly) {use : AssemblerUse} (used : use.step a = .ok ((), b)) : b.Orderly := by
  cases use with
  | addConstant constant =>
      obtain ⟨index, added⟩ := discard_eq_ok_iff.mp used
      exact h.addConstant added
  | allocate =>
      obtain ⟨register, allocated⟩ := discard_eq_ok_iff.mp used
      exact h.allocate allocated
  | enterScope =>
      obtain ⟨scope, entered⟩ := discard_eq_ok_iff.mp used
      exact h.enterScope entered
  | defineVariable name register => exact h.defineVariable used
  | exitScope =>
      obtain ⟨-, rfl⟩ := Prod.mk.inj (Except.ok.inj used)
      exact h.exitScope
  | newLabel | labelHere =>
      obtain ⟨label, hstep⟩ := discard_eq_ok_iff.mp used
      obtain ⟨-, rfl⟩ := Prod.mk.inj (Except.ok.inj hstep)
      exact h.of_frame rfl rfl (Nat.le_refl _)
  | emit | bindLabelAt | bindLabel =>
      obtain ⟨-, rfl⟩ := Prod.mk.inj (Except.ok.inj used)
      exact h.of_frame rfl rfl (Nat.le_refl _)

end Orderly

theorem Reachable.orderly (h : a.Reachable) : a.Orderly := by
  induction h with
  | empty => exact orderly_empty
  | step use _ used ih => exact ih.step used

theorem scopes_reachable_step (hreach : a.scopes.Reachable) {use : AssemblerUse} (used : use.step a = .ok ((), b)) :
    b.scopes.Reachable := by
  cases use with
  | addConstant constant =>
      obtain ⟨index, added⟩ := discard_eq_ok_iff.mp used
      rwa [scopes_of_addConstant added]
  | allocate =>
      obtain ⟨register, allocated⟩ := discard_eq_ok_iff.mp used
      obtain ⟨-, -, rfl⟩ := allocate_eq_ok_iff.mp allocated
      exact hreach
  | enterScope =>
      obtain ⟨scope, entered⟩ := discard_eq_ok_iff.mp used
      obtain ⟨c, allocated, rfl⟩ := enterScope_eq_ok_iff.mp entered
      obtain ⟨-, -, rfl⟩ := allocate_eq_ok_iff.mp allocated
      exact hreach.step (.enter scope)
  | defineVariable name register =>
      obtain ⟨id, scopes, hdefine, rfl⟩ := defineVariable_eq_ok_iff.mp used
      have hdefined := hreach.step (.define name register)
      rwa [ScopeChain.apply_define hdefine] at hdefined
  | exitScope =>
      obtain ⟨-, rfl⟩ := Prod.mk.inj (Except.ok.inj used)
      exact hreach.step .exit
  | newLabel | labelHere =>
      obtain ⟨label, hstep⟩ := discard_eq_ok_iff.mp used
      obtain ⟨-, rfl⟩ := Prod.mk.inj (Except.ok.inj hstep)
      exact hreach
  | emit | bindLabelAt | bindLabel =>
      obtain ⟨-, rfl⟩ := Prod.mk.inj (Except.ok.inj used)
      exact hreach

/-- The operations of the assembler reach no chains but those that the operations on chains reach. -/
theorem Reachable.scopes_reachable (h : a.Reachable) : a.scopes.Reachable := by
  induction h with
  | empty => exact .empty
  | step use _ used ih => exact scopes_reachable_step ih used

theorem Reachable.wellFormed (h : a.Reachable) : a.scopes.WellFormed :=
  h.scopes_reachable.wellFormed

end Assembler
end ScriptBytecode
