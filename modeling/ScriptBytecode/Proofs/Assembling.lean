import ScriptBytecode.Assembler.Basic
import ScriptBytecode.Proofs.PlainCode
import ScriptBytecode.Proofs.PoolGrowth
import ScriptBytecode.Proofs.ScopeStack

/-!
# Steps of the assembler

A step of the assembler succeeds with a value and a new assembler, or fails. This module says what the single steps
do, and how a sequence of steps succeeds. `Assembling.Meets` states both sides of a step at once: what holds when it
succeeds, and that it does not fail with one of the errors that only a misuse of the assembler can raise.
-/

namespace ScriptBytecode

/-- The errors that blame neither the script nor its size, but the use of the assembler. -/
def CompileError.IsInternal : CompileError → Prop
  | .unresolvedLabel _ | .noScope | .invalidProgram _ => True
  | .unsupported .. | .breakOutsideLoop _ | .malformedAssignment .. | .tooManyRegisters | .tooManyConstants => False

namespace Assembling

variable {α β : Type} {step : Assembling α} {next : α → Assembling β} {a b : Assembler}

theorem bind_of_ok {value : α} (h : step a = .ok (value, b)) : (step >>= next) a = next value b := by
  change Except.bind (step a) _ = _
  rw [h]
  rfl

theorem bind_of_error {error : CompileError} (h : step a = .error error) :
    (step >>= next) a = .error error := by
  change Except.bind (step a) _ = _
  rw [h]
  rfl

theorem bind_eq_ok_iff {result : β × Assembler} :
    (step >>= next) a = .ok result ↔ ∃ value b, step a = .ok (value, b) ∧ next value b = .ok result := by
  cases hstep : step a with
  | error error => simp [bind_of_error hstep]
  | ok outcome =>
      obtain ⟨value, b⟩ := outcome
      simp [bind_of_ok hstep]

theorem pure_eq_ok_iff {value : α} {result : α × Assembler} :
    (pure value : Assembling α) a = .ok result ↔ result = (value, a) := by
  change Except.ok (value, a) = .ok result ↔ _
  rw [Except.ok.injEq, eq_comm]

/-- A step that succeeds as `post` says, or fails with an error that blames the script or its size. -/
def Meets (step : Assembling α) (a : Assembler) (post : α → Assembler → Prop) : Prop :=
  match step a with
  | .ok (value, b) => post value b
  | .error error => ¬ error.IsInternal

theorem Meets.of_eq_ok {post : α → Assembler → Prop} {value : α} (h : Meets step a post)
    (hstep : step a = .ok (value, b)) : post value b := by
  unfold Meets at h
  rwa [hstep] at h

theorem Meets.not_internal {post : α → Assembler → Prop} {error : CompileError} (h : Meets step a post)
    (hstep : step a = .error error) : ¬ error.IsInternal := by
  unfold Meets at h
  rwa [hstep] at h

theorem Meets.bind {middle : α → Assembler → Prop} {post : β → Assembler → Prop} (h : Meets step a middle)
    (hnext : ∀ value b, middle value b → Meets (next value) b post) : Meets (step >>= next) a post := by
  unfold Meets at h ⊢
  cases hstep : step a with
  | error error =>
      rw [hstep] at h
      rw [bind_of_error hstep]
      exact h
  | ok outcome =>
      obtain ⟨value, b⟩ := outcome
      rw [hstep] at h
      rw [bind_of_ok hstep]
      exact hnext value b h

/-- What the first step leaves to the rest. -/
theorem meets_bind {post : β → Assembler → Prop} (h : Meets step a fun value b => Meets (next value) b post) :
    Meets (step >>= next) a post :=
  h.bind fun _ _ hnext => hnext

theorem Meets.mono {post weaker : α → Assembler → Prop} (h : Meets step a post)
    (himp : ∀ value b, post value b → weaker value b) : Meets step a weaker := by
  unfold Meets at h ⊢
  cases hstep : step a with
  | error error =>
      rw [hstep] at h
      exact h
  | ok outcome =>
      obtain ⟨value, b⟩ := outcome
      rw [hstep] at h
      exact himp value b h

theorem meets_pure {value : α} {post : α → Assembler → Prop} (h : post value a) :
    Meets (pure value) a post :=
  h

theorem meets_fail {error : CompileError} {post : α → Assembler → Prop} (h : ¬ error.IsInternal) :
    Meets (Assembler.fail error) a post :=
  h

end Assembling

namespace Assembler

open Assembling

variable {a b : Assembler}

/-! ## Registers and code -/

theorem allocate_eq_ok_iff {register : Register} :
    allocate a = .ok (register, b) ↔
      a.lastRegister.toNat + 1 < 2 ^ 32 ∧ register = ⟨a.lastRegister + 1⟩ ∧
        b = { a with lastRegister := a.lastRegister + 1 } := by
  rw [allocate, show UInt32.size = 2 ^ 32 from rfl]
  by_cases hroom : a.lastRegister.toNat + 1 < 2 ^ 32
  · rw [if_pos hroom]
    simp only [Except.ok.injEq, Prod.mk.injEq, hroom, true_and]
    constructor
    · rintro ⟨rfl, rfl⟩
      exact ⟨rfl, rfl⟩
    · rintro ⟨rfl, rfl⟩
      exact ⟨rfl, rfl⟩
  · rw [if_neg hroom]
    constructor
    · intro h
      exact nomatch h
    · rintro ⟨hless, -⟩
      exact absurd hless hroom

/-- A new register has the number behind the last one. -/
theorem toNat_allocate {register : Register} (h : allocate a = .ok (register, b)) :
    register.index = b.lastRegister ∧ b.lastRegister.toNat = a.lastRegister.toNat + 1 := by
  obtain ⟨hroom, rfl, rfl⟩ := allocate_eq_ok_iff.mp h
  refine ⟨rfl, ?_⟩
  rw [UInt32.toNat_add]
  exact Nat.mod_eq_of_lt hroom

theorem meets_allocate {post : Register → Assembler → Prop}
    (h : ∀ register b, allocate a = .ok (register, b) → post register b) : Meets allocate a post := by
  unfold Meets
  cases hstep : allocate a with
  | ok outcome => exact h outcome.1 outcome.2 hstep
  | error error =>
      unfold allocate at hstep
      split at hstep
      · exact nomatch hstep
      · obtain rfl := Except.error.inj hstep
        exact id

/-- An assembler with one more instruction. -/
def pushed (a : Assembler) (instruction : Instruction Label) : Assembler :=
  { a with code := a.code.push instruction }

@[simp] theorem emit_apply (instruction : Instruction Label) (a : Assembler) :
    emit instruction a = .ok ((), a.pushed instruction) := rfl

@[simp] theorem pushed_code_toList (a : Assembler) (instruction : Instruction Label) :
    (a.pushed instruction).code.toList = a.code.toList ++ [instruction] := by
  simp [pushed]

@[simp] theorem pushed_code_size (a : Assembler) (instruction : Instruction Label) :
    (a.pushed instruction).code.size = a.code.size + 1 := by
  simp [pushed]

@[simp] theorem pushed_constants (a : Assembler) (instruction : Instruction Label) :
    (a.pushed instruction).constants = a.constants := rfl

@[simp] theorem pushed_lastRegister (a : Assembler) (instruction : Instruction Label) :
    (a.pushed instruction).lastRegister = a.lastRegister := rfl

@[simp] theorem pushed_labels (a : Assembler) (instruction : Instruction Label) :
    (a.pushed instruction).labels = a.labels := rfl

@[simp] theorem pushed_scopes (a : Assembler) (instruction : Instruction Label) :
    (a.pushed instruction).scopes = a.scopes := rfl

theorem meets_emit {instruction : Instruction Label} {post : Unit → Assembler → Prop}
    (h : post () (a.pushed instruction)) : Meets (emit instruction) a post :=
  h

/-! ## Constants -/

theorem addConstant_eq_ok_iff {constant : Constant} {index : ConstantIndex} :
    addConstant constant a = .ok (index, b) ↔
      ¬ (a.constants.isFull && (a.constants.find? constant).isNone) ∧
        index = ⟨(a.constants.add constant).1⟩ ∧ b = { a with constants := (a.constants.add constant).2 } := by
  unfold addConstant
  by_cases hfull : (a.constants.isFull && (a.constants.find? constant).isNone) = true
  · rw [if_pos hfull]
    simp [hfull]
  · rw [if_neg hfull]
    simp only [hfull, Except.ok.injEq, Prod.mk.injEq, Bool.false_eq_true, not_false_eq_true, true_and]
    constructor
    · rintro ⟨rfl, rfl⟩
      exact ⟨rfl, rfl⟩
    · rintro ⟨rfl, rfl⟩
      exact ⟨rfl, rfl⟩

theorem meets_addConstant {constant : Constant} {post : ConstantIndex → Assembler → Prop}
    (h : ∀ index b, addConstant constant a = .ok (index, b) → post index b) :
    Meets (addConstant constant) a post := by
  unfold Meets
  cases hstep : addConstant constant a with
  | ok outcome => exact h outcome.1 outcome.2 hstep
  | error error =>
      unfold addConstant at hstep
      split at hstep
      · obtain rfl := Except.error.inj hstep
        exact id
      · exact nomatch hstep

theorem lt_size_of_addConstant {constant : Constant} {index : ConstantIndex}
    (h : addConstant constant a = .ok (index, b)) : index.index.toNat < b.constants.size := by
  obtain ⟨-, rfl, rfl⟩ := addConstant_eq_ok_iff.mp h
  exact ConstantPool.index_add_lt_size a.constants constant

theorem extends_of_addConstant {constant : Constant} {index : ConstantIndex}
    (h : addConstant constant a = .ok (index, b)) : a.constants.Extends b.constants := by
  obtain ⟨-, -, rfl⟩ := addConstant_eq_ok_iff.mp h
  exact ConstantPool.extends_add a.constants constant

theorem scopes_of_addConstant {constant : Constant} {index : ConstantIndex}
    (h : addConstant constant a = .ok (index, b)) : b.scopes = a.scopes := by
  obtain ⟨-, -, rfl⟩ := addConstant_eq_ok_iff.mp h
  rfl

theorem code_of_addConstant {constant : Constant} {index : ConstantIndex}
    (h : addConstant constant a = .ok (index, b)) : b.code = a.code := by
  obtain ⟨-, -, rfl⟩ := addConstant_eq_ok_iff.mp h
  rfl

theorem get?_of_addConstant {constant : Constant} {index : ConstantIndex} (hsize : a.constants.size ≤ 2 ^ 32)
    (h : addConstant constant a = .ok (index, b)) :
    b.constants.get? index.index.toNat = some constant ∧ b.constants.size ≤ 2 ^ 32 := by
  obtain ⟨hroom, rfl, rfl⟩ := addConstant_eq_ok_iff.mp h
  exact ConstantPool.get?_add hsize hroom

/-- What was gathered stays: constants at their places, in a sound pool if it was sound, and registers in use. -/
def Advances (a b : Assembler) : Prop :=
  a.constants.Extends b.constants ∧ (a.constants.Sound → b.constants.Sound) ∧
    a.lastRegister.toNat ≤ b.lastRegister.toNat

namespace Advances

theorem refl (a : Assembler) : a.Advances a :=
  ⟨.refl _, id, Nat.le_refl _⟩

theorem trans {c : Assembler} (h : a.Advances b) (h' : b.Advances c) : a.Advances c :=
  ⟨h.1.trans h'.1, fun hsound => h'.2.1 (h.2.1 hsound), Nat.le_trans h.2.2 h'.2.2⟩

theorem constants (h : a.Advances b) : a.constants.Extends b.constants :=
  h.1

theorem sound (h : a.Advances b) (hsound : a.constants.Sound) : b.constants.Sound :=
  h.2.1 hsound

theorem registers (h : a.Advances b) : a.lastRegister.toNat ≤ b.lastRegister.toNat :=
  h.2.2

end Advances

theorem advances_of_allocate {register : Register} (h : allocate a = .ok (register, b)) : a.Advances b := by
  have hnext := toNat_allocate h
  obtain ⟨-, -, rfl⟩ := allocate_eq_ok_iff.mp h
  exact ⟨.refl _, id, by omega⟩

theorem advances_of_addConstant {constant : Constant} {index : ConstantIndex} (encodable : constant.isEncodable)
    (h : addConstant constant a = .ok (index, b)) : a.Advances b := by
  have hextends := extends_of_addConstant h
  obtain ⟨hroom, -, rfl⟩ := addConstant_eq_ok_iff.mp h
  exact ⟨hextends, fun hsound => ConstantPool.sound_add hsound encodable hroom, Nat.le_refl _⟩

/-! ## Scopes -/

/-- The assembler is in a scope whose object has a given register. -/
structure InScope (a : Assembler) (scope : Register) : Prop where
  wellFormed : a.scopes.WellFormed
  current : a.scopes.currentRegister? = some scope

theorem InScope.of_scopes_eq {scope : Register} (h : a.InScope scope) (heq : b.scopes = a.scopes) :
    b.InScope scope := by
  constructor
  · rw [heq]
    exact h.wellFormed
  · rw [heq]
    exact h.current

theorem InScope.of_refills {scope : Register} (h : a.InScope scope) (hwf : b.scopes.WellFormed)
    (hrefills : a.scopes.Refills b.scopes) : b.InScope scope :=
  ⟨hwf, (hrefills.currentRegister?_eq h.wellFormed hwf).trans h.current⟩

theorem meets_scopeRegister {scope : Register} (h : a.InScope scope) {post : Register → Assembler → Prop}
    (hpost : post scope a) : Meets scopeRegister a post := by
  unfold Meets scopeRegister
  rw [h.current]
  exact hpost

theorem meets_resolveVariable {name : String} {post : Option ResolvedBinding → Assembler → Prop}
    (h : post (a.scopes.lookup name) a) : Meets (resolveVariable name) a post :=
  h

/-- An assembler with other scopes. -/
def withScopes (a : Assembler) (scopes : ScopeChain) : Assembler :=
  { a with scopes := scopes }

@[simp] theorem withScopes_code (a : Assembler) (scopes : ScopeChain) : (a.withScopes scopes).code = a.code := rfl

@[simp] theorem withScopes_constants (a : Assembler) (scopes : ScopeChain) :
    (a.withScopes scopes).constants = a.constants := rfl

@[simp] theorem withScopes_lastRegister (a : Assembler) (scopes : ScopeChain) :
    (a.withScopes scopes).lastRegister = a.lastRegister := rfl

@[simp] theorem withScopes_labels (a : Assembler) (scopes : ScopeChain) :
    (a.withScopes scopes).labels = a.labels := rfl

@[simp] theorem withScopes_scopes (a : Assembler) (scopes : ScopeChain) : (a.withScopes scopes).scopes = scopes := rfl

/-- In a scope there is always somewhere to bind a name. -/
theorem meets_defineVariable {scope : Register} (h : a.InScope scope) {name : String} {register : Register}
    {post : Unit → Assembler → Prop}
    (hpost : ∀ id scopes, a.scopes.define name register = some (id, scopes) → post () (a.withScopes scopes)) :
    Meets (defineVariable name register) a post := by
  unfold Meets defineVariable
  cases hdefine : a.scopes.define name register with
  | some defined => exact hpost defined.1 defined.2 hdefine
  | none =>
      have hcurrent := h.current
      cases hid : a.scopes.current with
      | none => simp [ScopeChain.currentRegister?, ScopeChain.currentScope?, hid] at hcurrent
      | some id => simp [ScopeChain.define, hid] at hdefine

theorem defineVariable_eq_ok_iff {name : String} {register : Register} :
    defineVariable name register a = .ok ((), b) ↔
      ∃ id scopes, a.scopes.define name register = some (id, scopes) ∧ b = a.withScopes scopes := by
  unfold defineVariable
  cases hdefine : a.scopes.define name register with
  | none =>
      constructor
      · exact fun h => nomatch h
      · rintro ⟨id, scopes, hsome, -⟩
        exact nomatch hsome
  | some defined =>
      constructor
      · intro h
        obtain ⟨-, rfl⟩ := Prod.mk.inj (Except.ok.inj h)
        exact ⟨defined.1, defined.2, rfl, rfl⟩
      · rintro ⟨id, scopes, hsome, rfl⟩
        rw [Option.some.inj hsome]
        rfl

/-- An assembler that has entered a scope. -/
def opened (a : Assembler) (scope : Register) : Assembler :=
  (a.withScopes (a.scopes.enter scope).2).pushed (.newScope scope a.scopes.currentRegister?)

theorem enterScope_eq_ok_iff {scope : Register} :
    enterScope a = .ok (scope, b) ↔ ∃ c, allocate a = .ok (scope, c) ∧ b = c.opened scope := by
  unfold enterScope
  rw [bind_eq_ok_iff]
  constructor
  · rintro ⟨register, c, allocated, hentered⟩
    obtain ⟨rfl, rfl⟩ := Prod.mk.inj (Except.ok.inj hentered)
    exact ⟨c, allocated, rfl⟩
  · rintro ⟨c, allocated, rfl⟩
    exact ⟨scope, c, allocated, rfl⟩

theorem meets_enterScope {post : Register → Assembler → Prop}
    (h : ∀ scope b, enterScope a = .ok (scope, b) → post scope b) : Meets enterScope a post := by
  refine meets_bind (meets_allocate fun scope c allocated => ?_)
  exact h scope (c.opened scope) (enterScope_eq_ok_iff.mpr ⟨c, allocated, rfl⟩)

/-- Entering a scope changes what shows of the scopes as `ScopeChain.enter` does, and nothing about labels. -/
theorem frame_enterScope {parent : Option Register} {inner : Register} (h : enterScope a = .ok (inner, b))
    (hparent : a.scopes.currentRegister? = parent) :
    b.labels = a.labels ∧ b.constants = a.constants ∧ b.scopes = (a.scopes.enter inner).2 ∧
      b.code.toList = a.code.toList ++ [.newScope inner parent] := by
  obtain ⟨c, allocated, rfl⟩ := enterScope_eq_ok_iff.mp h
  obtain ⟨-, -, rfl⟩ := allocate_eq_ok_iff.mp allocated
  simp [opened, hparent]

theorem inScope_of_enterScope {inner : Register} (h : enterScope a = .ok (inner, b)) (hwf : a.scopes.WellFormed) :
    b.InScope inner := by
  obtain ⟨c, allocated, rfl⟩ := enterScope_eq_ok_iff.mp h
  obtain ⟨-, -, rfl⟩ := allocate_eq_ok_iff.mp allocated
  have hinner := ScopeChain.wellFormed_enter hwf inner
  refine ⟨hinner, ?_⟩
  show (a.scopes.enter inner).2.currentRegister? = some inner
  rw [ScopeChain.currentRegister?_eq hinner, ScopeChain.stack_enter hwf]
  rfl

/-- An assembler that has left the current scope. -/
def closed (a : Assembler) : Assembler :=
  a.withScopes a.scopes.exit

@[simp] theorem closed_code (a : Assembler) : a.closed.code = a.code := rfl

@[simp] theorem closed_constants (a : Assembler) : a.closed.constants = a.constants := rfl

@[simp] theorem closed_labels (a : Assembler) : a.closed.labels = a.labels := rfl

@[simp] theorem closed_scopes (a : Assembler) : a.closed.scopes = a.scopes.exit := rfl

theorem meets_exitScope {post : Unit → Assembler → Prop} (h : post () a.closed) : Meets exitScope a post :=
  h

/-! ## Labels -/

/-- An assembler with another table of labels. -/
def withLabels (a : Assembler) (labels : LabelTable) : Assembler :=
  { a with labels := labels }

@[simp] theorem withLabels_code (a : Assembler) (labels : LabelTable) : (a.withLabels labels).code = a.code := rfl

@[simp] theorem withLabels_constants (a : Assembler) (labels : LabelTable) :
    (a.withLabels labels).constants = a.constants := rfl

@[simp] theorem withLabels_scopes (a : Assembler) (labels : LabelTable) :
    (a.withLabels labels).scopes = a.scopes := rfl

@[simp] theorem withLabels_labels (a : Assembler) (labels : LabelTable) : (a.withLabels labels).labels = labels := rfl

@[simp] theorem newLabel_apply (a : Assembler) :
    newLabel a = .ok (a.labels.create.1, a.withLabels a.labels.create.2) := rfl

@[simp] theorem labelHere_apply (a : Assembler) :
    labelHere a = .ok (a.labels.create.1, a.withLabels (a.labels.create.2.bind a.labels.create.1 a.position)) := rfl

/-- An assembler in which a label has the place of the next instruction. -/
def bound (a : Assembler) (label : Label) : Assembler :=
  a.withLabels (a.labels.bind label a.position)

@[simp] theorem bound_code (a : Assembler) (label : Label) : (a.bound label).code = a.code := rfl

@[simp] theorem bound_constants (a : Assembler) (label : Label) : (a.bound label).constants = a.constants := rfl

@[simp] theorem bound_scopes (a : Assembler) (label : Label) : (a.bound label).scopes = a.scopes := rfl

@[simp] theorem bound_labels (a : Assembler) (label : Label) :
    (a.bound label).labels = a.labels.bind label a.position := rfl

theorem meets_bindLabel {label : Label} {post : Unit → Assembler → Prop} (h : post () (a.bound label)) :
    Meets (bindLabel label) a post :=
  h

end Assembler
end ScriptBytecode
