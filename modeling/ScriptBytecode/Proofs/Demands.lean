import ScriptBytecode.Proofs.Offences
import ScriptBytecode.Proofs.PoolOrder
import ScriptBytecode.Proofs.StatementCode

/-!
# Demands of steps

A demand says what can be known of a step before it is taken: the first offence that it meets, how many registers it
takes, and which constants it adds in which order. `Assembling.Demands` ties a step of the assembler to a demand: if the
step succeeds, it has taken and added exactly that and there is no offence; if it fails, it fails with the offence, or
because there are not as many registers or constants as it asks for. Demands of steps that follow each other add up.

Nothing is said about scopes, so a step that misses a scope is left open here.
-/

namespace ScriptBytecode

open Assembler

/-- What a step asks for: its first offence, how many registers it takes and which constants it adds. -/
structure Demand where
  offence : Option CompileError
  registers : Nat
  constants : List Constant

namespace Demand

def none : Demand := ⟨.none, 0, []⟩

/-- What two steps one behind the other ask for. -/
def andThen (first second : Demand) : Demand :=
  ⟨first.offence.or second.offence, first.registers + second.registers, first.constants ++ second.constants⟩

/-- The outcome of a step from an assembler on is what the demand lets expect. -/
def Explains {α : Type} (demand : Demand) (a : Assembler) : Except CompileError (α × Assembler) → Prop
  | .ok (_, b) =>
      demand.offence = .none ∧ b.lastRegister.toNat = a.lastRegister.toNat + demand.registers ∧
        b.constants = a.constants.addAll demand.constants
  | .error error =>
      error.IsInternal ∨ (demand.offence = some error ∧ ¬ error.IsCapacity) ∨
        (error = .tooManyRegisters ∧ 2 ^ 32 ≤ a.lastRegister.toNat + demand.registers) ∨
          (error = .tooManyConstants ∧ 2 ^ 32 < (a.constants.addAll demand.constants).size)

end Demand

namespace Assembling

variable {α β : Type} {step : Assembling α} {next : α → Assembling β} {first second demand : Demand}

/-- A step asks for this much, from every assembler on. -/
def Demands (step : Assembling α) (demand : Demand) : Prop :=
  ∀ a, demand.Explains a (step a)

theorem Demands.of_eq_ok (h : step.Demands demand) {a b : Assembler} {value : α} (hstep : step a = .ok (value, b)) :
    demand.offence = none ∧ b.lastRegister.toNat = a.lastRegister.toNat + demand.registers ∧
      b.constants = a.constants.addAll demand.constants := by
  have hexplains := h a
  rw [hstep] at hexplains
  exact hexplains

theorem Demands.of_eq (h : step.Demands first) (heq : first = second) : step.Demands second :=
  heq ▸ h

/-- Two demands that amount to the same. -/
theorem Demands.congr (h : step.Demands first) (hoffence : first.offence = second.offence)
    (hregisters : first.registers = second.registers)
    (hconstants : ∀ pool : ConstantPool, pool.addAll first.constants = pool.addAll second.constants) :
    step.Demands second := by
  intro a
  have hexplains := h a
  cases hstep : step a with
  | ok outcome =>
      rw [hstep] at hexplains
      unfold Demand.Explains at hexplains ⊢
      rwa [← hoffence, ← hregisters, ← hconstants]
  | error error =>
      rw [hstep] at hexplains
      unfold Demand.Explains at hexplains ⊢
      rwa [← hoffence, ← hregisters, ← hconstants]

/-- A step and the steps behind it. What these ask for may depend on a property of the value that they are given. -/
theorem Demands.bind_of {property : α → Prop} (h : step.Demands first)
    (hvalue : ∀ a b value, step a = .ok (value, b) → property value)
    (hnext : ∀ value, property value → (next value).Demands second) :
    Demands (step >>= next) (first.andThen second) := by
  intro a
  have hfirst := h a
  cases hstep : step a with
  | error error =>
      rw [hstep] at hfirst
      rw [bind_of_error hstep]
      rcases hfirst with hinternal | ⟨hoffence, hkind⟩ | ⟨rfl, hregisters⟩ | ⟨rfl, hconstants⟩
      · exact Or.inl hinternal
      · exact Or.inr (Or.inl ⟨by simp [Demand.andThen, hoffence], hkind⟩)
      · refine Or.inr (Or.inr (Or.inl ⟨rfl, ?_⟩))
        show _ ≤ _ + (first.registers + second.registers)
        omega
      · refine Or.inr (Or.inr (Or.inr ⟨rfl, ?_⟩))
        show _ < (a.constants.addAll (first.constants ++ second.constants)).size
        rw [ConstantPool.addAll_append]
        exact Nat.lt_of_lt_of_le hconstants (ConstantPool.extends_addAll _ _).size_le
  | ok outcome =>
      obtain ⟨value, b⟩ := outcome
      rw [hstep] at hfirst
      obtain ⟨hoffence, hregisters, hconstants⟩ := hfirst
      rw [bind_of_ok hstep]
      have hsecond := hnext value (hvalue a b value hstep) b
      -- What the second step starts from is what the first one leaves.
      cases hrest : next value b with
      | ok outcome =>
          rw [hrest] at hsecond
          obtain ⟨hoffence', hregisters', hconstants'⟩ := hsecond
          refine ⟨by simp [Demand.andThen, hoffence, hoffence'], ?_, ?_⟩
          · show _ = _ + (first.registers + second.registers)
            omega
          · show _ = a.constants.addAll (first.constants ++ second.constants)
            rw [ConstantPool.addAll_append, ← hconstants, hconstants']
      | error error =>
          rw [hrest] at hsecond
          rcases hsecond with hinternal | ⟨hoffence', hkind⟩ | ⟨rfl, hregisters'⟩ | ⟨rfl, hconstants'⟩
          · exact Or.inl hinternal
          · exact Or.inr (Or.inl ⟨by simp [Demand.andThen, hoffence, hoffence'], hkind⟩)
          · refine Or.inr (Or.inr (Or.inl ⟨rfl, ?_⟩))
            show _ ≤ _ + (first.registers + second.registers)
            omega
          · refine Or.inr (Or.inr (Or.inr ⟨rfl, ?_⟩))
            show _ < (a.constants.addAll (first.constants ++ second.constants)).size
            rw [ConstantPool.addAll_append, ← hconstants]
            exact hconstants'

theorem Demands.bind (h : step.Demands first) (hnext : ∀ value, (next value).Demands second) :
    Demands (step >>= next) (first.andThen second) :=
  h.bind_of (fun _ _ _ _ => trivial) fun value _ => hnext value

/-- A step that asks for nothing in front of others. -/
theorem Demands.bind_none (h : step.Demands .none) (hnext : ∀ value, (next value).Demands demand) :
    Demands (step >>= next) demand :=
  (h.bind hnext).congr (Option.none_or) (Nat.zero_add _) fun _ => rfl

theorem demands_pure (value : α) : Demands (pure value) .none :=
  fun _ => ⟨rfl, rfl, rfl⟩

/-- A failure is an offence, whatever else would have been asked for. -/
theorem demands_fail {error : CompileError} (h : demand.offence = some error) (hkind : ¬ error.IsCapacity) :
    Demands (fail error : Assembling α) demand :=
  fun _ => Or.inr (Or.inl ⟨h, hkind⟩)

end Assembling

open Assembling

/-! ## Single steps -/

/-- A step that changes neither the registers nor the constants, and fails at most for want of a scope. -/
theorem demands_none {α : Type} {step : Assembling α}
    (h : ∀ a, (∃ value b, step a = .ok (value, b) ∧ b.lastRegister = a.lastRegister ∧ b.constants = a.constants) ∨
      ∃ error, step a = .error error ∧ error.IsInternal) : step.Demands .none := by
  intro a
  rcases h a with ⟨value, b, hstep, hregister, hconstants⟩ | ⟨error, hstep, hinternal⟩
  · rw [hstep]
    exact ⟨rfl, by rw [hregister]; rfl, hconstants⟩
  · rw [hstep]
    exact Or.inl hinternal

theorem demands_emit (instruction : Instruction Label) : (emit instruction).Demands .none :=
  demands_none fun _ => Or.inl ⟨(), _, rfl, rfl, rfl⟩

theorem demands_newLabel : newLabel.Demands .none :=
  demands_none fun _ => Or.inl ⟨_, _, rfl, rfl, rfl⟩

theorem demands_labelHere : labelHere.Demands .none :=
  demands_none fun _ => Or.inl ⟨_, _, rfl, rfl, rfl⟩

theorem demands_bindLabel (label : Label) : (bindLabel label).Demands .none :=
  demands_none fun _ => Or.inl ⟨_, _, rfl, rfl, rfl⟩

theorem demands_exitScope : exitScope.Demands .none :=
  demands_none fun _ => Or.inl ⟨_, _, rfl, rfl, rfl⟩

theorem demands_resolveVariable (name : String) : (resolveVariable name).Demands .none :=
  demands_none fun _ => Or.inl ⟨_, _, rfl, rfl, rfl⟩

theorem demands_scopeRegister : scopeRegister.Demands .none := by
  apply demands_none
  intro a
  unfold scopeRegister
  cases a.scopes.currentRegister? with
  | some register => exact Or.inl ⟨_, _, rfl, rfl, rfl⟩
  | none => exact Or.inr ⟨_, rfl, trivial⟩

theorem demands_defineVariable (name : String) (register : Register) :
    (defineVariable name register).Demands .none := by
  apply demands_none
  intro a
  unfold defineVariable
  cases a.scopes.define name register with
  | some defined => exact Or.inl ⟨_, _, rfl, rfl, rfl⟩
  | none => exact Or.inr ⟨_, rfl, trivial⟩

theorem demands_newLabels (clauses : List Clause) : (newLabels clauses).Demands .none := by
  apply demands_none
  intro a
  obtain ⟨labels, b, hlabels, -⟩ := newLabels_eq_ok clauses a
  obtain ⟨-, -, hconstants, hregister⟩ := frame_newLabels hlabels
  exact Or.inl ⟨labels, b, hlabels, hregister, hconstants⟩

theorem demands_allocate : allocate.Demands ⟨none, 1, []⟩ := by
  intro a
  cases hstep : allocate a with
  | ok outcome =>
      obtain ⟨register, b⟩ := outcome
      have hnext := toNat_allocate hstep
      obtain ⟨-, -, rfl⟩ := allocate_eq_ok_iff.mp hstep
      exact ⟨rfl, hnext.2, rfl⟩
  | error error =>
      unfold allocate at hstep
      split at hstep
      · exact nomatch hstep
      · rename_i hroom
        obtain rfl := Except.error.inj hstep
        exact Or.inr (Or.inr (Or.inl ⟨rfl, Nat.le_of_not_lt hroom⟩))

theorem demands_enterScope : enterScope.Demands ⟨none, 1, []⟩ := by
  have hopened : ∀ register : Register, Demands (fun assembler : Assembler =>
      .ok (register, assembler.opened register)) .none :=
    fun _ => demands_none fun _ => Or.inl ⟨_, _, rfl, rfl, rfl⟩
  exact demands_allocate.bind hopened

theorem demands_addConstant (constant : Constant) : (addConstant constant).Demands ⟨none, 0, [constant]⟩ := by
  intro a
  cases hstep : addConstant constant a with
  | ok outcome =>
      obtain ⟨index, b⟩ := outcome
      obtain ⟨-, -, rfl⟩ := addConstant_eq_ok_iff.mp hstep
      exact ⟨rfl, rfl, rfl⟩
  | error error =>
      unfold addConstant at hstep
      split at hstep
      · rename_i hfull
        obtain rfl := Except.error.inj hstep
        obtain ⟨hsize, hnew⟩ := Bool.and_eq_true_iff.mp hfull
        refine Or.inr (Or.inr (Or.inr ⟨rfl, ?_⟩))
        -- A full pool would have to hold one constant more.
        have hpushed := ConstantPool.add_of_find?_eq_none (Option.isNone_iff_eq_none.mp hnew)
        have hlarger : (a.constants.add constant).2.size = a.constants.size + 1 := by
          rw [hpushed]
          simp [ConstantPool.size]
        have hfullSize : 2 ^ 32 ≤ a.constants.size := of_decide_eq_true hsize
        show _ < (a.constants.add constant).2.size
        omega
      · cases hstep

end ScriptBytecode
