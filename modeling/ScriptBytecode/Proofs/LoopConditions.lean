import ScriptBytecode.Proofs.AppendedStatements
import ScriptBytecode.Proofs.CodeCopies
import ScriptBytecode.Proofs.ExpressionMeaning
import ScriptBytecode.Proofs.StrayAccess

/-!
# The condition of a loop

The condition of a loop is lowered twice, before the first round and behind the body. The second time it finds all its
constants in the pool, and the same scope around it. What may have changed is the names in that scope: the body has
added those that its own statements declare. So the second piece of code is the first one with its registers moved,
unless the condition reads a name that was global on the way in and is local from the first round on.
-/

namespace ScriptBytecode

open Assembler Assembling

/-! ## Names of a body -/

/-- The names that a statement binds in the scope it stands in: those that it declares together with a value. -/
def Statement.initializedNames : Statement → List String
  | .declare names values _ => (names.zip values).map fun pair => pair.1.name
  | .assign .. | .call .. | .conditional .. | .whileLoop .. | .breakLoop _ | .unsupported .. => []

theorem declare_not_mem_expression (name : String) (expression : Expression) :
    Access.declare name ∉ expression.accesses :=
  isRead_of_expression expression _

theorem declare_mem_accessesOfDeclaration_iff (name : String) (names : List Identifier) (values : List Expression) :
    Access.declare name ∈ accessesOfDeclaration names values ↔
      name ∈ (names.zip values).map fun pair => pair.1.name := by
  induction names generalizing values with
  | nil => simp [accessesOfDeclaration]
  | cons identifier names ih =>
      cases values with
      | nil => simp [accessesOfDeclaration]
      | cons value values =>
          have hvalue := declare_not_mem_expression name value
          simp only [accessesOfDeclaration, List.append_assoc, List.mem_append, List.singleton_append, List.mem_cons,
            Access.declare.injEq, ih, List.zip_cons_cons, List.map_cons, hvalue, false_or]

theorem declare_mem_accesses_iff (name : String) (statement : Statement) :
    Access.declare name ∈ statement.accesses ↔ name ∈ statement.initializedNames := by
  cases statement with
  | declare names values location => exact declare_mem_accessesOfDeclaration_iff name names values
  | assign targets values location =>
      refine iff_of_false ?_ List.not_mem_nil
      intro hmem
      exact suits_of_assignment targets values _ hmem rfl
  | call expression location => exact iff_of_false (declare_not_mem_expression name expression) List.not_mem_nil
  | conditional | whileLoop | breakLoop | unsupported => exact iff_of_false List.not_mem_nil List.not_mem_nil

/-- What a block leaves bound: what was bound before, and the names of its own statements. -/
theorem knows_of_lowersBlock {loopEnd : Option Label} {scope : Register} {a b : Assembler}
    {statements : List Statement} {outlines : List Outline} (h : LowersBlock loopEnd scope a statements outlines b)
    (hwf : a.scopes.WellFormed) (name : String) :
    b.scopes.Knows name ↔ a.scopes.Knows name ∨ ∃ statement ∈ statements, name ∈ statement.initializedNames := by
  induction statements generalizing a outlines with
  | nil =>
      cases h
      simp
  | cons statement statements ih =>
      cases h with
      | cons first rest =>
          obtain ⟨hwfFirst, -, hfirst⟩ := scopes_frame_statement first hwf
          rw [ih rest hwfFirst, hfirst name, declare_mem_accesses_iff, or_assoc]
          simp

/-! ## Stages -/

/-- The stages of lowering a loop. The condition is lowered from `ready` to `tested`, and again from `repeated` to
`retested`. -/
structure LoopStages (condition : Expression) (body : List Statement) (a z : Assembler) where
  scope : Register
  entered : Assembler
  enters : enterScope a = .ok (scope, entered)
  exit : Label
  ready : Assembler
  labels : newLabel entered = .ok (exit, ready)
  entry : Register
  tested : Assembler
  tests : lowerExpression condition ready = .ok (entry, tested)
  start : Label
  begun : Assembler
  begins : labelHere (tested.pushed (.jumpIfNot entry exit)) = .ok (start, begun)
  repeated : Assembler
  repeats : lowerBlock (some exit) body begun = .ok ((), repeated)
  again : Register
  retested : Assembler
  retests : lowerExpression condition repeated = .ok (again, retested)
  leaves : z = ((retested.pushed (.jumpIf again start)).bound exit).closed

theorem exists_loopStages {loopEnd : Option Label} {condition : Expression} {body : List Statement}
    {location : Option Location} {a z : Assembler}
    (h : lowerStatement loopEnd (.whileLoop condition body location) a = .ok ((), z)) :
    Nonempty (LoopStages condition body a z) := by
  rw [lowerStatement] at h
  obtain ⟨scope, entered, enters, h⟩ := bind_eq_ok_iff.mp h
  obtain ⟨exit, ready, labels, h⟩ := bind_eq_ok_iff.mp h
  obtain ⟨entry, tested, tests, h⟩ := bind_eq_ok_iff.mp h
  rw [bind_of_ok (emit_apply _ _)] at h
  obtain ⟨start, begun, begins, h⟩ := bind_eq_ok_iff.mp h
  obtain ⟨⟨⟩, repeated, repeats, h⟩ := bind_eq_ok_iff.mp h
  obtain ⟨again, retested, retests, h⟩ := bind_eq_ok_iff.mp h
  obtain ⟨-, rfl⟩ := Prod.mk.inj (Except.ok.inj h)
  exact ⟨⟨scope, entered, enters, exit, ready, labels, entry, tested, tests, start, begun, begins, repeated, repeats,
    again, retested, retests, rfl⟩⟩

namespace LoopStages

variable {condition : Expression} {body : List Statement} {a z : Assembler}

theorem ready_eq (stages : LoopStages condition body a z) :
    stages.ready = stages.entered.withLabels stages.entered.labels.create.2 :=
  (Prod.mk.inj (Except.ok.inj stages.labels)).2.symm

theorem begun_eq (stages : LoopStages condition body a z) : stages.begun.scopes = stages.tested.scopes ∧
    stages.begun.constants = stages.tested.constants := by
  obtain ⟨-, hbegun⟩ := Prod.mk.inj (Except.ok.inj stages.begins)
  rw [← hbegun]
  exact ⟨rfl, rfl⟩

/-- How the code of the condition moves from one place to the other. -/
def relocation (stages : LoopStages condition body a z) : Relocation where
  first := stages.ready.lastRegister
  last := stages.tested.lastRegister
  offset := stages.repeated.lastRegister - stages.ready.lastRegister
  scope := stages.scope
  pool := stages.repeated.constants

theorem inScope_ready (stages : LoopStages condition body a z) (hwf : a.scopes.WellFormed) :
    stages.ready.InScope stages.scope := by
  rw [stages.ready_eq]
  exact (inScope_of_enterScope stages.enters hwf).of_scopes_eq rfl

theorem knows_ready (stages : LoopStages condition body a z) (hwf : a.scopes.WellFormed) (name : String) :
    stages.ready.scopes.Knows name ↔ a.scopes.Knows name := by
  obtain ⟨-, -, hscopes, -⟩ := frame_enterScope stages.enters rfl
  unfold ScopeChain.Knows
  rw [stages.ready_eq, withLabels_scopes, hscopes, ScopeChain.stack_enter hwf]
  simp

/-- The scope of the loop is still the innermost one behind the body, and has the names that the body has bound. -/
theorem inScope_repeated (stages : LoopStages condition body a z) (hwf : a.scopes.WellFormed) :
    stages.repeated.InScope stages.scope ∧ ∀ name, stages.repeated.scopes.Knows name ↔
      a.scopes.Knows name ∨ ∃ statement ∈ body, name ∈ statement.initializedNames := by
  have hready := stages.inScope_ready hwf
  have hgiven : stages.scope ∈ [stages.scope] := List.mem_cons_self
  obtain ⟨code, -, -, grown, -⟩ := (meets_lowerExpression hready hgiven condition .start).of_eq_ok stages.tests
  obtain ⟨hwfTested, hrefills, hknows⟩ := grown.scopes_frame hready.wellFormed
  have hbegun : stages.begun.InScope stages.scope :=
    (hready.of_refills hwfTested hrefills).of_scopes_eq stages.begun_eq.1
  obtain ⟨outlines, block⟩ := lowersBlock_of_lowerBlock hbegun stages.repeats
  obtain ⟨hwfRepeated, hrefills'⟩ := scopes_frame_block block hbegun.wellFormed
  refine ⟨hbegun.of_refills hwfRepeated hrefills', fun name => ?_⟩
  -- The condition itself binds nothing, so what the body starts from is what the loop was entered with.
  have hnone : Access.declare name ∉ [] ++ condition.accesses := declare_not_mem_expression name condition
  have htested : stages.tested.scopes.Knows name ↔ a.scopes.Knows name := by
    rw [hknows, or_iff_left hnone, stages.knows_ready hwf]
  rw [knows_of_lowersBlock block hbegun.wellFormed, stages.begun_eq.1, htested]

theorem apart (stages : LoopStages condition body a z) (hwf : a.scopes.WellFormed) :
    stages.relocation.Apart stages.ready stages.repeated where
  registers := by
    show _ = stages.ready.lastRegister + (stages.repeated.lastRegister - stages.ready.lastRegister)
    rw [UInt32.add_comm, UInt32.sub_add_cancel]
  behind := UInt32.le_refl _
  pool := rfl
  inScope := ⟨stages.inScope_ready hwf, (stages.inScope_repeated hwf).1⟩

theorem fits (stages : LoopStages condition body a z) : stages.relocation.Fits stages.tested where
  registers := UInt32.le_refl _
  pool := by
    rw [← stages.begun_eq.2]
    exact (settles_lowerBlock (some stages.exit) body _ _ _ stages.repeats).pool

theorem copied (stages : LoopStages condition body a z) (hwf : a.scopes.WellFormed) :
    Copied stages.relocation condition.accesses stages.ready stages.repeated stages.tested stages.retested :=
  ((copies_lowerExpression condition).copied (stages.apart hwf) stages.fits stages.tests stages.retests).2

/-- What the condition reads is bound alike both times, unless the body has bound a name that was not bound before. -/
theorem readAlike_iff (stages : LoopStages condition body a z) (hwf : a.scopes.WellFormed) :
    ReadAlike condition.accesses stages.ready stages.repeated ↔
      ¬ ∃ name, .read name ∈ condition.accesses ∧ a.scopes.lookup name = none ∧
        ∃ statement ∈ body, name ∈ statement.initializedNames := by
  have hfree : ∀ name, a.scopes.lookup name = none ↔ ¬ a.scopes.Knows name := by
    intro name
    rw [← ScopeChain.lookup_isSome_iff, Bool.not_eq_true, Option.isSome_eq_false_iff, Option.isNone_iff_eq_none]
  unfold ReadAlike
  simp only [ScopeChain.lookup_isSome_iff, stages.knows_ready hwf, (stages.inScope_repeated hwf).2, hfree]
  constructor
  · rintro halike ⟨name, hread, hunknown, hbound⟩
    exact hunknown ((halike name hread).mp (Or.inr hbound))
  · intro hnone name hread
    refine ⟨fun hknown => ?_, Or.inl⟩
    rcases hknown with hknown | hbound
    · exact hknown
    · exact Classical.not_not.mp fun hunknown => hnone ⟨name, hread, hunknown, hbound⟩

/-- The code of the condition, before the first round and behind the body. -/
structure Tests (stages : LoopStages condition body a z) (first second : List (Instruction Label)) : Prop where
  first : stages.tested.code.toList = stages.ready.code.toList ++ first
  second : stages.retested.code.toList = stages.repeated.code.toList ++ second

/-- The second piece of code is the first one, with the registers that were allocated for it moved by one offset. -/
def Moved (stages : LoopStages condition body a z) (first second : List (Instruction Label)) : Prop :=
  ∃ offset, second = first.map (.mapValues (.moved stages.ready.lastRegister stages.tested.lastRegister offset))

end LoopStages

/-- The condition of a loop is lowered twice. The second time it gives as many instructions as the first time and adds
no constant. The instructions are the same up to moving the registers that were allocated the first time, unless the
condition reads a name that was bound nowhere before the loop and that a statement of the body itself has declared with
a value. -/
theorem moved_of_whileLoop {loopEnd : Option Label} {condition : Expression} {body : List Statement}
    {location : Option Location} {a z : Assembler} (h : a.Reachable)
    (lowered : lowerStatement loopEnd (.whileLoop condition body location) a = .ok ((), z)) :
    ∃ (stages : LoopStages condition body a z) (first second : List (Instruction Label)), stages.Tests first second ∧
      second.length = first.length ∧ stages.retested.constants = stages.repeated.constants ∧
        (stages.Moved first second ↔ ¬ ∃ name, .read name ∈ condition.accesses ∧ a.scopes.lookup name = none ∧
          ∃ statement ∈ body, name ∈ statement.initializedNames) := by
  obtain ⟨stages⟩ := exists_loopStages lowered
  have hwf := h.wellFormed
  have copied := stages.copied hwf
  obtain ⟨first, second, hfirst, hsecond, hresembles⟩ := copied.code
  refine ⟨stages, first, second, ⟨hfirst, hsecond⟩, hresembles.length_eq, copied.apart.pool, ?_⟩
  rw [← stages.readAlike_iff hwf]
  constructor
  · rintro ⟨offset, hmoved⟩
    exact hresembles.of_eq_map _ hmoved
  · intro halike
    exact ⟨_, hresembles.eq_map halike⟩

/-- A body that binds the name `x`: `local x = true`. -/
def bindingBody : List Statement :=
  [.declare [⟨"x", none⟩] [.boolean true none] none]

theorem exists_of_lowerStatement_isSome {loopEnd : Option Label} {statement : Statement} {a : Assembler}
    (h : (lowerStatement loopEnd statement a).toOption.isSome = true) :
    ∃ b, lowerStatement loopEnd statement a = .ok ((), b) := by
  cases hlowered : lowerStatement loopEnd statement a with
  | error error =>
      rw [hlowered] at h
      exact nomatch h
  | ok result => exact ⟨result.2, rfl⟩

/-- In `while x do local x = true end` the condition is global at first and local from the second round on, unless it
was local before the loop. -/
theorem moved_of_whileLoop_bindingBody :
    (∃ z, Assembler.empty.Reachable ∧
      lowerStatement none (.whileLoop (.identifier ⟨"x", none⟩) bindingBody none) .empty = .ok ((), z) ∧
        ∃ (stages : LoopStages (.identifier ⟨"x", none⟩) bindingBody .empty z)
          (first second : List (Instruction Label)), stages.Tests first second ∧ second.length = first.length ∧ ¬ stages.Moved first second) ∧
      ∃ z, boundOnce.Reachable ∧
        lowerStatement none (.whileLoop (.identifier ⟨"x", none⟩) bindingBody none) boundOnce = .ok ((), z) ∧
          ∃ (stages : LoopStages (.identifier ⟨"x", none⟩) bindingBody boundOnce z)
            (first second : List (Instruction Label)), stages.Tests first second ∧ stages.Moved first second := by
  constructor
  · obtain ⟨z, lowered⟩ := @exists_of_lowerStatement_isSome none
      (.whileLoop (.identifier ⟨"x", none⟩) bindingBody none) .empty (by decide +kernel)
    obtain ⟨stages, first, second, htests, hlength, -, hmoved⟩ := moved_of_whileLoop .empty lowered
    refine ⟨z, .empty, lowered, stages, first, second, htests, hlength, fun hsame => ?_⟩
    exact hmoved.mp hsame ⟨"x", by simp [Expression.accesses], rfl, _, List.mem_cons_self, List.mem_cons_self⟩
  · obtain ⟨z, lowered⟩ := @exists_of_lowerStatement_isSome none
      (.whileLoop (.identifier ⟨"x", none⟩) bindingBody none) boundOnce (by decide +kernel)
    obtain ⟨stages, first, second, htests, -, -, hmoved⟩ := moved_of_whileLoop reachable_boundOnce lowered
    refine ⟨z, reachable_boundOnce, lowered, stages, first, second, htests, hmoved.mpr ?_⟩
    rintro ⟨name, hread, hfree, -⟩
    obtain rfl : name = "x" := by simpa [Expression.accesses] using hread
    exact nomatch hfree

end ScriptBytecode
