import ScriptBytecode.Proofs.Evaluation
import ScriptBytecode.Proofs.ReachableAssemblers

/-!
# The code of an expression computes its value

Running the code that an expression is lowered to leaves the value of the expression in its register, and the store as
evaluating the expression leaves it. `Computes` relates a step of lowering to an evaluation: from a state in which some
facts are known, the code of the step can be run, the evaluation has a meaning, and more facts are known afterwards. The
rules for single steps follow it through the two `do` blocks side by side. Facts stay true because new code writes new
registers only, and new constants go behind the old ones.
-/

namespace ScriptBytecode

open Assembler Assembling Evaluating

variable {ν ω : Type}

/-- The machine computes an operator by its own operation. -/
theorem BinaryOperator.operator_of_operation? {operator : BinaryOperator} {operation : Operation}
    (h : operator.operation? = some operation) : operation.operator = operator := by
  cases operator <;> simp only [BinaryOperator.operation?, Option.some.injEq, reduceCtorEq] at h <;> subst h <;> rfl

/-- What an expression that is lowered sees of the scopes: names are bound as the assembler knows them, and the innermost
scope object is the one in the register of the current scope. -/
def Assembler.surroundings (a : Assembler) (registers : Register → ν) : Surroundings ν where
  binds name := (a.scopes.lookup name).isSome
  scope? := a.scopes.currentRegister?.map registers

theorem Assembler.Orderly.inUse_current {a : Assembler} {scope : Register} (h : a.Orderly)
    (hcurrent : a.scopes.currentRegister? = some scope) : a.InUse scope := by
  obtain ⟨held, hheld, rfl⟩ := Option.map_eq_some_iff.mp hcurrent
  obtain ⟨id, -, hget⟩ := Option.bind_eq_some_iff.mp hheld
  exact h.scopes id held hget

/-! ## What stays true -/

namespace Runtime

/-- The code that was made between two assemblers takes one state of the machine to another, with every pool that has the
constants gathered so far. It writes only registers that come into use. -/
structure Carries (runtime : Runtime ν ω) (a : Assembler) (s : MachineState ν ω) (b : Assembler)
    (t : MachineState ν ω) : Prop where
  scopes : b.scopes = a.scopes
  pool : a.constants.Extends b.constants
  size_le : b.constants.size ≤ 2 ^ 32
  ran : ∃ code, b.code.toList = a.code.toList ++ code.map (@Instruction.ofPlain Label) ∧
    WritesInOrder a.lastRegister b.lastRegister code ∧
      ∀ pool, b.constants.Extends pool → runtime.run pool code s = some t

namespace Carries

variable {runtime : Runtime ν ω} {a b c : Assembler} {s t u : MachineState ν ω}

theorem refl (ha : a.Orderly) : runtime.Carries a s a s :=
  ⟨rfl, .refl _, ha.pool, [], by simp, .nil _, fun _ _ => rfl⟩

theorem trans (h : runtime.Carries a s b t) (h' : runtime.Carries b t c u) : runtime.Carries a s c u := by
  obtain ⟨code, hcode, hwrites, hrun⟩ := h.ran
  obtain ⟨more, hmore, hwrites', hrun'⟩ := h'.ran
  refine ⟨h'.scopes.trans h.scopes, h.pool.trans h'.pool, h'.size_le, code ++ more, ?_, hwrites.append hwrites', ?_⟩
  · rw [hmore, hcode, List.map_append, List.append_assoc]
  · intro pool hpool
    rw [run_append, hrun pool (h'.pool.trans hpool), Option.bind_some, hrun' pool hpool]

/-- A constant is added, and nothing is run. -/
theorem of_addConstant {constant : Constant} {index : ConstantIndex} (ha : a.Orderly)
    (added : addConstant constant a = .ok (index, b)) : runtime.Carries a s b s := by
  have hpool := extends_of_addConstant added
  have hsize := (get?_of_addConstant ha.pool added).2
  obtain ⟨-, -, rfl⟩ := addConstant_eq_ok_iff.mp added
  exact ⟨rfl, hpool, hsize, [], by simp, .nil _, fun _ _ => rfl⟩

/-- An instruction with a register of its own for its result. -/
theorem of_compute {dst : Register} {instruction : PlainInstruction} (ha : a.Orderly)
    (allocated : allocate a = .ok (dst, b)) (hdst : instruction.dst? = some dst)
    (hrun : ∀ pool, a.constants.Extends pool → runtime.execute? pool instruction s = some t) :
    runtime.Carries a s (b.pushed (.ofPlain instruction)) t := by
  have hnext := toNat_allocate allocated
  obtain ⟨-, -, rfl⟩ := allocate_eq_ok_iff.mp allocated
  refine ⟨rfl, .refl _, ha.pool, [instruction], by simp, ?_, ?_⟩
  · exact (WritesInOrder.nil a.lastRegister).push_some hdst hnext
  · intro pool hpool
    rw [run_singleton]
    exact hrun pool hpool

/-- An instruction without a result. -/
theorem of_act {instruction : PlainInstruction} (ha : a.Orderly) (hdst : instruction.dst? = none)
    (hrun : ∀ pool, a.constants.Extends pool → runtime.execute? pool instruction s = some t) :
    runtime.Carries a s (a.pushed (.ofPlain instruction)) t := by
  refine ⟨rfl, .refl _, ha.pool, [instruction], by simp, (WritesInOrder.nil a.lastRegister).push_none hdst, ?_⟩
  intro pool hpool
  rw [run_singleton]
  exact hrun pool hpool

theorem last_le (h : runtime.Carries a s b t) : a.lastRegister.toNat ≤ b.lastRegister.toNat := by
  obtain ⟨code, -, ⟨-, hlast⟩, -⟩ := h.ran
  omega

theorem inUse (h : runtime.Carries a s b t) {register : Register} (hin : a.InUse register) : b.InUse register :=
  Nat.le_trans hin h.last_le

theorem registers_eq (h : runtime.Carries a s b t) {register : Register} (hin : a.InUse register) :
    t.registers register = s.registers register := by
  obtain ⟨code, -, hwrites, hrun⟩ := h.ran
  -- Any pool will do here, since the state that the code ends in is the same with all of them.
  apply registers_of_run (hrun b.constants (.refl _))
  intro hmem
  have hnew := (hwrites.lt_of_mem hmem).1
  exact absurd hin (Nat.not_le_of_lt hnew)

theorem orderly (h : runtime.Carries a s b t) (ha : a.Orderly) : b.Orderly where
  pool := h.size_le
  scopes := fun id scope hget => h.inUse (ha.scopes id scope (h.scopes ▸ hget))

theorem surroundings_eq (h : runtime.Carries a s b t) (ha : a.Orderly) :
    b.surroundings t.registers = a.surroundings s.registers := by
  unfold surroundings
  rw [h.scopes]
  congr 1
  cases hcurrent : a.scopes.currentRegister? with
  | none => rfl
  | some scope => rw [Option.map_some, Option.map_some, h.registers_eq (ha.inUse_current hcurrent)]

end Carries
end Runtime

/-- What is known on the way. -/
inductive Fact (ν : Type) where
  /-- Registers that are in use hold values. -/
  | holds (registers : List Register) (values : List ν)
  /-- A constant stands at a place of the pool. -/
  | stands (index : ConstantIndex) (constant : Constant)

def Fact.IsTrue (a : Assembler) (s : MachineState ν ω) : Fact ν → Prop
  | .holds registers values => (∀ register ∈ registers, a.InUse register) ∧ registers.map s.registers = values
  | .stands index constant => a.constants.get? index.index.toNat = some constant

namespace Fact

variable {a : Assembler} {s : MachineState ν ω} {register : Register} {value : ν}

theorem isTrue_holds_one : IsTrue a s (.holds [register] [value]) ↔ a.InUse register ∧ s.registers register = value := by
  simp [IsTrue]

theorem isTrue_holds_cons {registers : List Register} {values : List ν} (h : IsTrue a s (.holds [register] [value]))
    (h' : IsTrue a s (.holds registers values)) : IsTrue a s (.holds (register :: registers) (value :: values)) := by
  obtain ⟨hin, hvalue⟩ := isTrue_holds_one.mp h
  obtain ⟨hall, hvalues⟩ := h'
  constructor
  · exact List.forall_mem_cons.mpr ⟨hin, hall⟩
  · rw [List.map_cons, hvalue, hvalues]

/-- Facts stay true. -/
theorem isTrue_of_carries {runtime : Runtime ν ω} {b : Assembler} {t : MachineState ν ω} {known : List (Fact ν)}
    (carried : runtime.Carries a s b t) (h : ∀ fact ∈ known, fact.IsTrue a s) : ∀ fact ∈ known, fact.IsTrue b t := by
  intro fact hmem
  have hfact := h fact hmem
  cases fact with
  | holds registers values =>
      obtain ⟨hin, rfl⟩ := hfact
      refine ⟨fun register hregister => carried.inUse (hin register hregister), ?_⟩
      exact List.map_congr_left fun register hregister => carried.registers_eq (hin register hregister)
  | stands index constant => exact carried.pool.get? hfact

end Fact

/-! ## Rules -/

/-- In given surroundings, and from known facts on, a step makes code that computes what an evaluation gives. -/
def Computes {α β : Type} (runtime : Runtime ν ω) (around : Surroundings ν) (known : List (Fact ν))
    (step : Assembling α) (evaluation : Evaluating ν ω β) (gives : α → β → List (Fact ν)) : Prop :=
  ∀ (a : Assembler) (s : MachineState ν ω), a.Orderly → a.surroundings s.registers = around →
    (∀ fact ∈ known, fact.IsTrue a s) → ∀ result b, step a = .ok (result, b) →
      ∃ value t, evaluation s.store = some (value, t.store) ∧ runtime.Carries a s b t ∧
        ∀ fact ∈ gives result value, fact.IsTrue b t

section Rules

variable {α β γ δ : Type} {runtime : Runtime ν ω} {around : Surroundings ν} {known : List (Fact ν)}

/-- The computation goes on behind code that was run already. -/
theorem Computes.after {step : Assembling α} {evaluation : Evaluating ν ω β} {gives : α → β → List (Fact ν)}
    (h : Computes runtime around known step evaluation gives) {a b c : Assembler} {s t : MachineState ν ω} {result : α}
    (carried : runtime.Carries a s b t) (ha : a.Orderly) (haround : a.surroundings s.registers = around)
    (hknown : ∀ fact ∈ known, fact.IsTrue b t) (hstep : step b = .ok (result, c)) :
    ∃ value u, evaluation t.store = some (value, u.store) ∧ runtime.Carries a s c u ∧
      ∀ fact ∈ gives result value, fact.IsTrue c u := by
  have haround' := (carried.surroundings_eq ha).trans haround
  obtain ⟨value, u, hvalue, more, hgiven⟩ := h b t (carried.orderly ha) haround' hknown result c hstep
  exact ⟨value, u, hvalue, carried.trans more, hgiven⟩

theorem computes_fail {error : CompileError} {evaluation : Evaluating ν ω β} {gives : α → β → List (Fact ν)} :
    Computes runtime around known (fail error) evaluation gives :=
  fun _ _ _ _ _ _ _ hresult => nomatch hresult

theorem computes_pure {result : α} {value : β} {gives : α → β → List (Fact ν)}
    (h : ∀ (a : Assembler) (s : MachineState ν ω), (∀ fact ∈ known, fact.IsTrue a s) →
      ∀ fact ∈ gives result value, fact.IsTrue a s) :
    Computes runtime around known (pure result) (pure value) gives := by
  intro a s ha _ hknown _ b hresult
  obtain ⟨rfl, rfl⟩ := Prod.mk.inj (pure_eq_ok_iff.mp hresult)
  exact ⟨value, s, rfl, .refl ha, h _ s hknown⟩

theorem Computes.bind {step : Assembling α} {next : α → Assembling γ} {evaluation : Evaluating ν ω β}
    {evaluateNext : β → Evaluating ν ω δ} {gives : α → β → List (Fact ν)} {gathers : γ → δ → List (Fact ν)}
    (h : Computes runtime around known step evaluation gives)
    (hnext : ∀ result value,
      Computes runtime around (gives result value ++ known) (next result) (evaluateNext value) gathers) :
    Computes runtime around known (step >>= next) (evaluation >>= evaluateNext) gathers := by
  intro a s ha haround hknown result c hresult
  obtain ⟨first, b, hstep, hrest⟩ := bind_eq_ok_iff.mp hresult
  obtain ⟨value, t, hvalue, carried, hgiven⟩ := h a s ha haround hknown first b hstep
  have hfacts : ∀ fact ∈ gives first value ++ known, fact.IsTrue b t :=
    List.forall_mem_append.mpr ⟨hgiven, Fact.isTrue_of_carries carried hknown⟩
  rw [bind_of_some hvalue]
  exact (hnext first value).after carried ha haround hfacts hrest

/-- A constant is added that the code will need; evaluation knows nothing of this. -/
theorem computes_addConstant_bind {constant : Constant} {next : ConstantIndex → Assembling α}
    {evaluation : Evaluating ν ω β} {gives : α → β → List (Fact ν)}
    (h : ∀ index, Computes runtime around (.stands index constant :: known) (next index) evaluation gives) :
    Computes runtime around known (addConstant constant >>= next) evaluation gives := by
  intro a s ha haround hknown result c hresult
  obtain ⟨index, b, added, hrest⟩ := bind_eq_ok_iff.mp hresult
  have carried : runtime.Carries a s b s := .of_addConstant ha added
  have hstands : Fact.IsTrue b s (.stands index constant) := (get?_of_addConstant ha.pool added).1
  have hfacts : ∀ fact ∈ Fact.stands index constant :: known, fact.IsTrue b s :=
    List.forall_mem_cons.mpr ⟨hstands, Fact.isTrue_of_carries carried hknown⟩
  exact (h index).after carried ha haround hfacts hrest

/-- An instruction that does what the runtime does, and keeps the result in a register of its own. -/
theorem computes_allocate_bind (make : Register → PlainInstruction) {f : Store ν ω → ν × Store ν ω}
    {next : Register → Assembling α} {evaluateNext : ν → Evaluating ν ω β} {gives : α → β → List (Fact ν)}
    (hdst : ∀ dst, (make dst).dst? = some dst)
    (hexecute : ∀ dst (a : Assembler) (s : MachineState ν ω) pool, (∀ fact ∈ known, fact.IsTrue a s) →
      a.constants.Extends pool → runtime.execute? pool (make dst) s = some (s.put dst (f s.store)))
    (hnext : ∀ dst value,
      Computes runtime around (.holds [dst] [value] :: known) (next dst) (evaluateNext value) gives) :
    Computes runtime around known (allocate >>= fun dst => emit (.ofPlain (make dst)) >>= fun _ => next dst)
      (primitive f >>= evaluateNext) gives := by
  intro a s ha haround hknown result d hresult
  obtain ⟨dst, b, allocated, hemit⟩ := bind_eq_ok_iff.mp hresult
  rw [bind_of_ok (emit_apply _ b)] at hemit
  have carried : runtime.Carries a s (b.pushed (.ofPlain (make dst))) (s.put dst (f s.store)) :=
    .of_compute ha allocated (hdst dst) fun pool => hexecute dst a s pool hknown
  have hin : b.InUse dst := Nat.le_of_eq (congrArg UInt32.toNat (toNat_allocate allocated).1)
  have hholds : Fact.IsTrue (b.pushed (.ofPlain (make dst))) (s.put dst (f s.store))
      (.holds [dst] [(f s.store).1]) := Fact.isTrue_holds_one.mpr ⟨hin, Function.update_self ..⟩
  have hfacts := List.forall_mem_cons.mpr ⟨hholds, Fact.isTrue_of_carries carried hknown⟩
  exact (hnext dst (f s.store).1).after carried ha haround hfacts hemit

/-- The same at the end. -/
theorem computes_result (make : Register → PlainInstruction) {f : Store ν ω → ν × Store ν ω}
    (hdst : ∀ dst, (make dst).dst? = some dst)
    (hexecute : ∀ dst (a : Assembler) (s : MachineState ν ω) pool, (∀ fact ∈ known, fact.IsTrue a s) →
      a.constants.Extends pool → runtime.execute? pool (make dst) s = some (s.put dst (f s.store))) :
    Computes runtime around known
      (do
        let dst ← allocate
        emit (.ofPlain (make dst))
        return dst)
      (primitive f) fun register value => [.holds [register] [value]] := by
  rw [← bind_pure (primitive f)]
  apply computes_allocate_bind make hdst hexecute
  intro dst value
  apply computes_pure
  intro a s hknown fact hmem
  rw [List.mem_singleton.mp hmem]
  exact hknown _ List.mem_cons_self

/-- An instruction that does what the runtime does, without a result. -/
theorem computes_emit_bind (instruction : PlainInstruction) {f : Store ν ω → Store ν ω} {next : Assembling α}
    {evaluateNext : Evaluating ν ω β} {gives : α → β → List (Fact ν)} (hdst : instruction.dst? = none)
    (hexecute : ∀ (a : Assembler) (s : MachineState ν ω) pool, (∀ fact ∈ known, fact.IsTrue a s) →
      a.constants.Extends pool → runtime.execute? pool instruction s = some { s with store := f s.store })
    (hnext : Computes runtime around known next evaluateNext gives) :
    Computes runtime around known (emit (.ofPlain instruction) >>= fun _ => next)
      ((primitive fun store => ((), f store)) >>= fun _ => evaluateNext) gives := by
  intro a s ha haround hknown result c hresult
  rw [bind_of_ok (emit_apply _ a)] at hresult
  have carried : runtime.Carries a s (a.pushed (.ofPlain instruction)) { s with store := f s.store } :=
    .of_act ha hdst fun pool => hexecute a s pool hknown
  exact hnext.after carried ha haround (Fact.isTrue_of_carries carried hknown) hresult

end Rules

/-! ## Using facts -/

namespace Fact

variable {a : Assembler} {s : MachineState ν ω} {known : List (Fact ν)} {pool : ConstantPool}

theorem registers_eq (h : ∀ fact ∈ known, fact.IsTrue a s) {register : Register} {value : ν}
    (hmem : .holds [register] [value] ∈ known) : s.registers register = value :=
  (isTrue_holds_one.mp (h _ hmem)).2

theorem map_registers_eq (h : ∀ fact ∈ known, fact.IsTrue a s) {registers : List Register} {values : List ν}
    (hmem : .holds registers values ∈ known) : registers.map s.registers = values :=
  (h _ hmem).2

theorem get?_eq (h : ∀ fact ∈ known, fact.IsTrue a s) {index : ConstantIndex} {constant : Constant}
    (hmem : .stands index constant ∈ known) (hpool : a.constants.Extends pool) :
    pool.get? index.index.toNat = some constant :=
  hpool.get? (h _ hmem)

theorem name?_eq (h : ∀ fact ∈ known, fact.IsTrue a s) {index : ConstantIndex} {name : String}
    (hmem : .stands index (.string name) ∈ known) (hpool : a.constants.Extends pool) :
    pool.name? index = some name := by
  simp [ConstantPool.name?, get?_eq h hmem hpool]

end Fact

/-! ## Expressions -/

section Expressions

variable (runtime : Runtime ν ω) (around : Surroundings ν)

/-- What is known when a value has been computed. -/
def holdsValue (register : Register) (value : ν) : List (Fact ν) :=
  [.holds [register] [value]]

theorem computes_lowerConstant (constant : Constant) (known : List (Fact ν)) :
    Computes runtime around known (lowerConstant constant) (pure (runtime.constant constant)) holdsValue := by
  show Computes runtime around known _ (primitive fun store => (runtime.constant constant, store)) _
  apply computes_addConstant_bind
  intro index
  apply computes_result (.load index) fun _ => rfl
  intro dst a s pool hknown hpool
  simp [Runtime.execute?, Fact.get?_eq hknown List.mem_cons_self hpool]

theorem computes_lowerName (name : String) (known : List (Fact ν)) :
    Computes runtime around known (lowerName name) (runtime.evaluateName around name) holdsValue := by
  apply computes_addConstant_bind
  intro index a s ha haround hknown result b hresult
  rw [bind_of_ok (rfl : resolveVariable name a = .ok (a.scopes.lookup name, a))] at hresult
  subst haround
  cases hlookup : a.scopes.lookup name with
  | none =>
      rw [hlookup] at hresult
      have hglobal : runtime.evaluateName (a.surroundings s.registers) name =
          primitive fun store => (store.globals name, store) := by
        simp [Runtime.evaluateName, surroundings, hlookup]
      rw [hglobal]
      refine computes_result (.getVar index) (fun _ => rfl) ?_ a s ha rfl hknown result b hresult
      intro dst a s pool hknown hpool
      simp [Runtime.execute?, Fact.name?_eq hknown List.mem_cons_self hpool]
  | some found =>
      simp only [hlookup] at hresult
      cases hcurrent : a.scopes.currentRegister? with
      | none =>
          have hnone : scopeRegister a = .error .noScope := by simp [scopeRegister, hcurrent]
          rw [bind_of_error hnone] at hresult
          exact nomatch hresult
      | some scope =>
          have hscope : scopeRegister a = .ok (scope, a) := by simp [scopeRegister, hcurrent]
          rw [bind_of_ok hscope] at hresult
          have hscoped : runtime.evaluateName (a.surroundings s.registers) name =
              primitive (runtime.readScope (s.registers scope) name) := by
            simp [Runtime.evaluateName, surroundings, hlookup, hcurrent]
          rw [hscoped]
          -- The scope object is in a register that was in use before, so it is still there.
          have hholds : Fact.IsTrue a s (.holds [scope] [s.registers scope]) :=
            Fact.isTrue_holds_one.mpr ⟨ha.inUse_current hcurrent, rfl⟩
          refine computes_result (.scopeGet scope index) (fun _ => rfl) ?_ a s ha rfl
            (List.forall_mem_cons.mpr ⟨hholds, hknown⟩) result b hresult
          intro dst later t pool hfacts hpool
          have hname := Fact.name?_eq hfacts (List.mem_cons_of_mem _ List.mem_cons_self) hpool
          simp [Runtime.execute?, hname, Fact.registers_eq hfacts List.mem_cons_self]

/-- A call, whose callee and arguments have been computed. -/
theorem computes_call {known : List (Fact ν)} {function : Register} {value : ν} {registers : List Register}
    {values : List ν} (hfunction : .holds [function] [value] ∈ known) (hregisters : .holds registers values ∈ known) :
    Computes runtime around known
      (do
        let dst ← allocate
        emit (.call function registers dst)
        return dst)
      (primitive (runtime.call value values)) holdsValue := by
  apply computes_result (.call function registers) fun _ => rfl
  intro dst a s pool hknown hpool
  simp [Runtime.execute?, Fact.registers_eq hknown hfunction, Fact.map_registers_eq hknown hregisters]

mutual

theorem computes_expression : ∀ (expression : Expression) (known : List (Fact ν)),
    Computes runtime around known (lowerExpression expression) (runtime.evaluate around expression) holdsValue
  | .identifier identifier, known => by
      unfold lowerExpression Runtime.evaluate
      exact computes_lowerName runtime around identifier.name known
  | .number value location, known => by
      unfold lowerExpression Runtime.evaluate
      split
      · exact computes_lowerConstant runtime around (.number value) known
      · exact computes_fail
  | .string value _, known => by
      unfold lowerExpression Runtime.evaluate
      exact computes_lowerConstant runtime around (.string value) known
  | .boolean value _, known => by
      unfold lowerExpression Runtime.evaluate
      exact computes_lowerConstant runtime around (.boolean value) known
  | .nil _, known => by
      unfold lowerExpression Runtime.evaluate
      show Computes runtime around known _ (primitive fun store => (runtime.nil, store)) _
      exact computes_result .setNil (fun _ => rfl) fun _ _ _ _ _ _ => rfl
  | .binary operator left right location, known => by
      unfold lowerExpression Runtime.evaluate
      cases hoperation : operator.operation? with
      | none => exact computes_fail
      | some operation =>
          refine (computes_expression left known).bind fun lhs first => ?_
          refine (computes_expression right _).bind fun rhs second => ?_
          apply computes_result (.operate operation lhs rhs) fun _ => rfl
          intro dst a s pool hknown hpool
          have hfirst : s.registers lhs = first := Fact.registers_eq hknown (by simp [holdsValue])
          have hsecond : s.registers rhs = second := Fact.registers_eq hknown (by simp [holdsValue])
          simp [Runtime.execute?, hfirst, hsecond, BinaryOperator.operator_of_operation? hoperation]
  | .call callee arguments _, known => by
      unfold lowerExpression Runtime.evaluate
      refine (computes_expression callee known).bind fun function value => ?_
      refine (computes_arguments arguments _).bind fun registers values => ?_
      exact computes_call runtime around (by simp [holdsValue]) (by simp)
  | .stringCall callee argument _, known => by
      unfold lowerExpression Runtime.evaluate
      refine (computes_expression callee known).bind fun function value => ?_
      refine (computes_expression argument _).bind fun register given => ?_
      exact computes_call runtime around (by simp [holdsValue]) (by simp [holdsValue])
  | .tableCall callee argument _, known => by
      unfold lowerExpression Runtime.evaluate
      refine (computes_expression callee known).bind fun function value => ?_
      refine (computes_expression argument _).bind fun register given => ?_
      exact computes_call runtime around (by simp [holdsValue]) (by simp [holdsValue])
  | .table fields _, known => by
      unfold lowerExpression Runtime.evaluate
      apply computes_allocate_bind .newTable (fun _ => rfl) fun _ _ _ _ _ _ => rfl
      intro dst table
      -- The table is known before its fields, and it stays in its register while they are computed.
      refine (computes_fields dst table fields _ List.mem_cons_self).bind fun _ _ => ?_
      apply computes_pure
      intro a s hknown fact hmem
      rw [List.mem_singleton.mp hmem]
      exact hknown _ List.mem_cons_self
  | .member .dot identifier base location, known => by
      unfold lowerExpression Runtime.evaluate
      refine (computes_expression base known).bind fun table value => ?_
      apply computes_addConstant_bind
      intro key
      apply computes_result (.getField table key) fun _ => rfl
      intro dst a s pool hknown hpool
      have htable : s.registers table = value := Fact.registers_eq hknown (by simp [holdsValue])
      simp [Runtime.execute?, htable, Fact.get?_eq hknown List.mem_cons_self hpool]
  | .member .colon identifier base location, known => by
      unfold lowerExpression
      exact computes_fail
  | .unsupported kind location, known => by
      unfold lowerExpression
      exact computes_fail

theorem computes_arguments : ∀ (arguments : List Expression) (known : List (Fact ν)),
    Computes runtime around known (lowerArguments arguments) (runtime.evaluateArguments around arguments)
      fun registers values => [.holds registers values]
  | [], known => by
      unfold lowerArguments Runtime.evaluateArguments
      apply computes_pure
      simp [Fact.IsTrue]
  | argument :: arguments, known => by
      unfold lowerArguments Runtime.evaluateArguments
      refine (computes_expression argument known).bind fun register value => ?_
      refine (computes_arguments arguments _).bind fun registers values => ?_
      apply computes_pure
      intro a s hknown fact hmem
      rw [List.mem_singleton.mp hmem]
      exact Fact.isTrue_holds_cons (hknown _ (by simp [holdsValue])) (hknown _ List.mem_cons_self)

theorem computes_fields (table : Register) (value : ν) : ∀ (fields : List TableField) (known : List (Fact ν)),
    .holds [table] [value] ∈ known → Computes runtime around known (lowerFields table fields)
      (runtime.evaluateFields around value fields) fun _ _ => []
  | [], known, _ => by
      unfold lowerFields Runtime.evaluateFields
      apply computes_pure
      simp
  | .keyed key content :: fields, known, hmem => by
      unfold lowerFields Runtime.evaluateFields
      refine (computes_expression key known).bind fun keyRegister entry => ?_
      refine (computes_expression content _).bind fun src filling => ?_
      apply computes_emit_bind (.setTable table keyRegister src) rfl
      · intro a s pool hknown hpool
        have htable : s.registers table = value := Fact.registers_eq hknown (by simp [hmem])
        have hentry : s.registers keyRegister = entry := Fact.registers_eq hknown (by simp [holdsValue])
        have hfilling : s.registers src = filling := Fact.registers_eq hknown (by simp [holdsValue])
        simp [Runtime.execute?, htable, hentry, hfilling]
      · exact computes_fields table value fields _ (by simp [hmem])
  | .named key content :: fields, known, hmem => by
      unfold lowerFields Runtime.evaluateFields
      -- The name of the field gets its place in the pool before the code of the value, and is used behind it.
      apply computes_addConstant_bind
      intro index
      refine (computes_expression content _).bind fun src filling => ?_
      apply computes_emit_bind (.setField table index src) rfl
      · intro a s pool hknown hpool
        have htable : s.registers table = value := Fact.registers_eq hknown (by simp [hmem])
        have hfilling : s.registers src = filling := Fact.registers_eq hknown (by simp [holdsValue])
        have hkey : pool.get? index.index.toNat = some (.string key.name) := Fact.get?_eq hknown (by simp) hpool
        simp [Runtime.execute?, htable, hfilling, hkey]
      · exact computes_fields table value fields _ (by simp [hmem])
  | .positional content :: fields, known, hmem => by
      unfold lowerFields Runtime.evaluateFields
      refine (computes_expression content known).bind fun src filling => ?_
      apply computes_emit_bind (.pushTable table src) rfl
      · intro a s pool hknown hpool
        have htable : s.registers table = value := Fact.registers_eq hknown (by simp [hmem])
        have hfilling : s.registers src = filling := Fact.registers_eq hknown (by simp [holdsValue])
        simp [Runtime.execute?, htable, hfilling]
      · exact computes_fields table value fields _ (by simp [hmem])

end

end Expressions

/-- The code between two assemblers, if it is plain, is known from the assemblers. -/
theorem eq_of_append_ofPlain {old : List (Instruction Label)} {code other : List PlainInstruction}
    (h : old ++ code.map (@Instruction.ofPlain Label) = old ++ other.map Instruction.ofPlain) : code = other := by
  have hplain := congrArg (List.filterMap Instruction.plain?) (List.append_cancel_left h)
  simpa using hplain

/-- A runtime with one value, in which nothing ever changes. -/
def Runtime.idle : Runtime Unit Unit where
  constant _ := ()
  nil := ()
  scope _ := ()
  scopeNumber? _ := none
  readMissing _ _ store := ((), store)
  writeMissing _ _ _ store := store
  operate _ _ _ store := ((), store)
  call _ _ store := ((), store)
  newTable store := ((), store)
  getEntry _ _ store := ((), store)
  setEntry _ _ _ store := store
  append _ _ store := store

/-- Wherever an expression is lowered, it becomes code without jumps that computes it: on every runtime, with every pool
that has the constants gathered so far, and from every state, the code leaves the value of the expression in its register
and the store as evaluating the expression does, and no register that was in use before has changed. -/
theorem lowerExpression_computes {a b : Assembler} {expression : Expression} {register : Register}
    (reachable : a.Reachable) (lowered : lowerExpression expression a = .ok (register, b)) :
    ∃ code : List PlainInstruction, b.code.toList = a.code.toList ++ code.map Instruction.ofPlain ∧
      ∀ {ν ω : Type} (runtime : Runtime ν ω) (pool : ConstantPool), b.constants.Extends pool →
        ∀ s : MachineState ν ω, ∃ value t,
          runtime.evaluate (a.surroundings s.registers) expression s.store = some (value, t.store) ∧
          runtime.run pool code s = some t ∧ t.registers register = value ∧
          ∀ other, a.InUse other → t.registers other = s.registers other := by
  have computed : ∀ {ν ω : Type} (runtime : Runtime ν ω) (s : MachineState ν ω), ∃ value t,
      runtime.evaluate (a.surroundings s.registers) expression s.store = some (value, t.store) ∧
        runtime.Carries a s b t ∧ ∀ fact ∈ holdsValue register value, fact.IsTrue b t :=
    fun runtime s => computes_expression runtime _ expression [] a s reachable.orderly rfl (by simp) register b lowered
  -- The code does not depend on the runtime, so any runtime shows it.
  obtain ⟨_, _, -, idled, -⟩ := computed .idle ⟨fun _ => (), ⟨fun _ => (), [], fun _ _ => (), ()⟩⟩
  obtain ⟨code, hcode, -, -⟩ := idled.ran
  refine ⟨code, hcode, ?_⟩
  intro ν ω runtime pool hpool s
  obtain ⟨value, t, hvalue, carried, hgiven⟩ := computed runtime s
  obtain ⟨same, hsame, -, hrun⟩ := carried.ran
  obtain rfl : code = same := eq_of_append_ofPlain (hcode.symm.trans hsame)
  have hholds := Fact.registers_eq hgiven List.mem_cons_self
  exact ⟨value, t, hvalue, hrun pool hpool, hholds, fun other hin => carried.registers_eq hin⟩

/-- A runtime that keeps a journal, newest entry first, and numbers the results of what it does. -/
def Runtime.journal : Runtime Nat (List (String × List Nat)) where
  constant
    | .boolean _ => 100
    | .number _ => 101
    | .string _ => 102
  nil := 103
  scope id := id
  scopeNumber? value := some value
  readMissing _ _ store := (104, store)
  writeMissing _ _ _ store := store
  operate operator lhs rhs store :=
    (store.tables.length, { store with tables := (operator.symbol, [lhs, rhs]) :: store.tables })
  call function arguments store :=
    (store.tables.length, { store with tables := ("call", function :: arguments) :: store.tables })
  newTable store := (store.tables.length, { store with tables := ("new", []) :: store.tables })
  getEntry table key store := (store.tables.length, { store with tables := ("get", [table, key]) :: store.tables })
  setEntry table key value store := { store with tables := ("set", [table, key, value]) :: store.tables }
  append table value store := { store with tables := ("append", [table, value]) :: store.tables }

/-- The expression `f(x + true, {k = nil, f})`. -/
def nestedCall : Expression :=
  .call (.identifier ⟨"f", none⟩)
    [.binary .add (.identifier ⟨"x", none⟩) (.boolean true none) none,
      .table [.named ⟨"k", none⟩ (.nil none), .positional (.identifier ⟨"f", none⟩)] none] none

/-- An assembler in a scope that binds `x`. -/
def boundOnce : Assembler :=
  ⟨.empty, 1, #[.newScope ⟨1⟩ none], .empty, ⟨#[⟨none, [("x", ⟨1⟩)], ⟨1⟩, 0⟩], some 0⟩⟩

theorem reachable_boundOnce : boundOnce.Reachable :=
  .step (.defineVariable "x" ⟨1⟩) (.step .enterScope .empty rfl) rfl

/-- A state with the scope object of `x` in the first register. -/
def boundOnceState : MachineState Nat (List (String × List Nat)) where
  registers register := if register = ⟨1⟩ then 0 else 999
  store := ⟨fun _ => 200, [⟨none, ["x"]⟩], fun _ _ => 300, []⟩

/-- The operands of the sum are computed before the table is made, the fields are set in order, and the call is last. -/
theorem lowerExpression_computes_nestedCall :
    ∃ b register code value t, boundOnce.Reachable ∧ lowerExpression nestedCall boundOnce = .ok (register, b) ∧
      b.code.toList = boundOnce.code.toList ++ code.map Instruction.ofPlain ∧
      Runtime.journal.run b.constants code boundOnceState = some t ∧ t.registers register = value ∧ value = 4 ∧
      t.store.tables =
        [("call", [200, 0, 1]), ("append", [1, 200]), ("set", [1, 102, 103]), ("new", []), ("+", [300, 100])] ∧
      t.registers ⟨1⟩ = 0 := by
  have hsome : (lowerExpression nestedCall boundOnce).toOption.isSome = true := by decide +kernel
  cases hlowered : lowerExpression nestedCall boundOnce with
  | error error => simp [hlowered, Except.toOption] at hsome
  | ok result =>
      obtain ⟨register, b⟩ := result
      obtain ⟨code, hcode, hcomputes⟩ := lowerExpression_computes reachable_boundOnce hlowered
      obtain ⟨value, t, hvalue, hrun, hholds, hkept⟩ := hcomputes Runtime.journal b.constants (.refl _) boundOnceState
      have hevaluated : (Runtime.journal.evaluate (boundOnce.surroundings boundOnceState.registers) nestedCall
          boundOnceState.store).map (fun result => (result.1, result.2.tables)) =
          some (4, [("call", [200, 0, 1]), ("append", [1, 200]), ("set", [1, 102, 103]), ("new", []),
            ("+", [300, 100])]) := by decide +kernel
      rw [hvalue, Option.map_some, Option.some.injEq, Prod.mk.injEq] at hevaluated
      have hscope : t.registers ⟨1⟩ = 0 := hkept ⟨1⟩ (Nat.le_refl 1)
      exact ⟨b, register, code, value, t, reachable_boundOnce, rfl, hcode, hrun, hholds, hevaluated.1, hevaluated.2,
        hscope⟩

end ScriptBytecode
