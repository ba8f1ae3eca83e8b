import ScriptBytecode.Proofs.FirstOffence
import ScriptBytecode.Proofs.LoopStructure
import ScriptBytecode.Proofs.ParallelSteps

/-!
# The shape of a tree

The shape of a script forgets names, the values of literals and even their kinds, operators as long as they have an
operation, and locations. It is a script itself, with empty names, `nil` for every literal that has a constant and `+`
for every operator that has an operation. Lowering a script and lowering its shape go in parallel, so that the layout of
a program depends on the shape of its script only: how names are resolved and which constants coincide does not matter.
-/

namespace ScriptBytecode

open Assembler Assembling

/-! ## Shapes -/

/-- An identifier without a name. -/
def Identifier.blank : Identifier :=
  ⟨"", none⟩

/-- The operator itself, if it has no operation. -/
def BinaryOperator.shape (operator : BinaryOperator) : BinaryOperator :=
  match operator.operation? with
  | some _ => .add
  | none => operator

mutual

/-- An expression without names, locations, values of literals and kinds of operators. Numbers that are not finite and
operators without an operation stay. -/
def Expression.shape : Expression → Expression
  | .identifier _ => .identifier .blank
  | .number value _ => if value.isFinite then .nil none else .number value none
  | .string _ _ => .nil none
  | .boolean _ _ => .nil none
  | .nil _ => .nil none
  | .binary operator left right _ => .binary operator.shape left.shape right.shape none
  | .call callee arguments _ => .call callee.shape (shapesOfExpressions arguments) none
  | .stringCall callee argument _ => .stringCall callee.shape argument.shape none
  | .tableCall callee argument _ => .tableCall callee.shape argument.shape none
  | .table fields _ => .table (shapesOfFields fields) none
  | .member indexer _ base _ => .member indexer .blank base.shape none
  | .unsupported kind _ => .unsupported kind none

def shapesOfExpressions : List Expression → List Expression
  | [] => []
  | expression :: expressions => expression.shape :: shapesOfExpressions expressions

def shapesOfFields : List TableField → List TableField
  | [] => []
  | .keyed key value :: fields => .keyed key.shape value.shape :: shapesOfFields fields
  | .named _ value :: fields => .named .blank value.shape :: shapesOfFields fields
  | .positional value :: fields => .positional value.shape :: shapesOfFields fields

end

mutual

def Statement.shape : Statement → Statement
  | .declare names values _ => .declare (names.map fun _ => .blank) (shapesOfExpressions values) none
  | .assign targets values _ => .assign (shapesOfExpressions targets) (shapesOfExpressions values) none
  | .call expression _ => .call expression.shape none
  | .conditional clauses _ => .conditional (shapesOfClauses clauses) none
  | .whileLoop condition body _ => .whileLoop condition.shape (shapesOfBlock body) none
  | .breakLoop _ => .breakLoop none
  | .unsupported kind _ => .unsupported kind none

def shapesOfBlock : List Statement → List Statement
  | [] => []
  | statement :: statements => statement.shape :: shapesOfBlock statements

def shapesOfClauses : List Clause → List Clause
  | [] => []
  | .guarded opening condition body _ :: clauses =>
      .guarded opening condition.shape (shapesOfBlock body) none :: shapesOfClauses clauses
  | .otherwise body _ :: clauses => .otherwise (shapesOfBlock body) none :: shapesOfClauses clauses

end

/-- A script without names, locations, values of literals and kinds of operators. -/
def Chunk.shape (chunk : Chunk) : Chunk :=
  ⟨shapesOfBlock chunk.body⟩

def AssignmentTarget.shape : AssignmentTarget → AssignmentTarget
  | .name _ => .name ""
  | .member indexer _ base _ => .member indexer .blank base.shape none

theorem length_shapesOfExpressions (expressions : List Expression) :
    (shapesOfExpressions expressions).length = expressions.length := by
  induction expressions with
  | nil => rfl
  | cons expression expressions ih => simp [shapesOfExpressions, ih]

theorem operation?_shape_isSome (operator : BinaryOperator) :
    operator.shape.operation?.isSome = operator.operation?.isSome := by
  cases operator <;> rfl

/-! ## Expressions -/

/-- Reads a variable whose name has a place in the pool. -/
def readVariable (name : String) (index : ConstantIndex) : Assembling Register := do
  match ← resolveVariable name with
  | some _ => do
      let scope ← scopeRegister
      let dst ← allocate
      emit (.scopeGet scope index dst)
      return dst
  | none => do
      let dst ← allocate
      emit (.getVar index dst)
      return dst

theorem lowerName_eq (name : String) : lowerName name = (do let index ← addString name; readVariable name index) :=
  rfl

/-- However a name is resolved, reading it computes one result. -/
theorem exists_readVariable {a : Assembler} (hwf : a.scopes.WellFormed) (name : String) (index : ConstantIndex) :
    ∃ make : Register → Instruction Label, (∀ dst, (make dst).slot = (some dst, none)) ∧
      readVariable name index a = (do let dst ← allocate; emit (make dst); return dst : Assembling Register) a := by
  unfold readVariable
  have hresolve : resolveVariable name a = .ok (a.scopes.lookup name, a) := rfl
  rw [bind_of_ok hresolve]
  cases hlookup : a.scopes.lookup name with
  | none => exact ⟨.getVar index, fun _ => rfl, rfl⟩
  | some found =>
      obtain ⟨scope, hscope⟩ := exists_scope_of_lookup hwf hlookup
      exact ⟨.scopeGet scope index, fun _ => rfl, bind_of_ok (scopeRegister_of_inScope hscope)⟩

theorem mimics_lowerName (name : String) : Mimics (lowerName name) (lowerName "") Eq := by
  rw [lowerName_eq, lowerName_eq]
  apply (mimics_addString name).bind
  intro index other _ a b hparallel
  obtain ⟨make, hmake, hread⟩ := exists_readVariable hparallel.wellFormed.1 name index
  obtain ⟨another, hanother, hother⟩ := exists_readVariable hparallel.wellFormed.2 "" other
  rw [hread, hother]
  exact mimics_result (fun dst => (hanother dst).trans (hmake dst).symm) a b hparallel

/-- A constant is loaded on one side, and nothing on the other. -/
theorem mimics_lowerConstant (constant : Constant) :
    Mimics (lowerConstant constant) (lowerExpression (.nil none)) Eq := by
  unfold lowerConstant lowerExpression
  apply mimics_addConstant_bind
  intro index
  exact mimics_result fun _ => rfl

mutual

theorem mimics_lowerExpression : ∀ expression : Expression,
    Mimics (lowerExpression expression) (lowerExpression expression.shape) Eq
  | .identifier identifier => by
      rw [Expression.shape, lowerExpression, lowerExpression]
      exact mimics_lowerName identifier.name
  | .number value location => by
      rw [Expression.shape, lowerExpression]
      by_cases hfinite : value.isFinite = true
      · rw [if_pos hfinite, if_pos hfinite]
        exact mimics_lowerConstant _
      · rw [if_neg hfinite, if_neg hfinite, lowerExpression, if_neg hfinite]
        exact mimics_fail _ _
  | .string value _ => by
      rw [Expression.shape, lowerExpression]
      exact mimics_lowerConstant _
  | .boolean value _ => by
      rw [Expression.shape, lowerExpression]
      exact mimics_lowerConstant _
  | .nil _ => by
      rw [Expression.shape, lowerExpression, lowerExpression]
      exact mimics_result fun _ => rfl
  | .binary operator left right location => by
      rw [Expression.shape, lowerExpression, lowerExpression]
      have hsame := operation?_shape_isSome operator
      cases hoperation : operator.operation? with
      | none =>
          rw [hoperation] at hsame
          rw [Option.isSome_eq_false_iff.mp hsame |> Option.isNone_iff_eq_none.mp]
          exact mimics_fail _ _
      | some operation =>
          rw [hoperation] at hsame
          obtain ⟨other, hother⟩ := Option.isSome_iff_exists.mp hsame
          rw [hother]
          apply (mimics_lowerExpression left).bind
          rintro lhs _ rfl
          apply (mimics_lowerExpression right).bind
          rintro rhs _ rfl
          exact mimics_result fun _ => rfl
  | .call callee arguments _ => by
      rw [Expression.shape, lowerExpression, lowerExpression]
      apply (mimics_lowerExpression callee).bind
      rintro function _ rfl
      apply (mimics_lowerArguments arguments).bind
      rintro registers _ rfl
      exact mimics_result fun _ => rfl
  | .stringCall callee argument _ => by
      rw [Expression.shape, lowerExpression, lowerExpression]
      apply (mimics_lowerExpression callee).bind
      rintro function _ rfl
      apply (mimics_lowerExpression argument).bind
      rintro register _ rfl
      exact mimics_result fun _ => rfl
  | .tableCall callee argument _ => by
      rw [Expression.shape, lowerExpression, lowerExpression]
      apply (mimics_lowerExpression callee).bind
      rintro function _ rfl
      apply (mimics_lowerExpression argument).bind
      rintro register _ rfl
      exact mimics_result fun _ => rfl
  | .table fields _ => by
      rw [Expression.shape, lowerExpression, lowerExpression]
      apply mimics_allocate.bind
      rintro dst _ rfl
      apply (mimics_emit rfl).bind
      intro _ _ _
      apply (mimics_lowerFields dst fields).bind
      intro _ _ _
      exact mimics_pure rfl
  | .member indexer identifier base location => by
      rw [Expression.shape, lowerExpression, lowerExpression]
      by_cases hcolon : indexer = .colon
      · rw [if_pos hcolon, if_pos hcolon]
        exact mimics_fail _ _
      · rw [if_neg hcolon, if_neg hcolon]
        apply (mimics_lowerExpression base).bind
        rintro table _ rfl
        apply (mimics_addString identifier.name).bind
        intro key other _
        exact mimics_result fun _ => rfl
  | .unsupported kind location => by
      rw [Expression.shape, lowerExpression, lowerExpression]
      exact mimics_fail _ _

theorem mimics_lowerArguments : ∀ arguments : List Expression,
    Mimics (lowerArguments arguments) (lowerArguments (shapesOfExpressions arguments)) Eq
  | [] => by
      rw [shapesOfExpressions, lowerArguments]
      exact mimics_pure rfl
  | argument :: arguments => by
      rw [shapesOfExpressions, lowerArguments, lowerArguments]
      apply (mimics_lowerExpression argument).bind
      rintro register _ rfl
      apply (mimics_lowerArguments arguments).bind
      rintro registers _ rfl
      exact mimics_pure rfl

theorem mimics_lowerFields (table : Register) : ∀ fields : List TableField,
    Mimics (lowerFields table fields) (lowerFields table (shapesOfFields fields)) Eq
  | [] => by
      rw [shapesOfFields, lowerFields]
      exact mimics_pure rfl
  | .keyed key value :: fields => by
      rw [shapesOfFields, lowerFields, lowerFields]
      apply (mimics_lowerExpression key).bind
      rintro keyRegister _ rfl
      apply (mimics_lowerExpression value).bind
      rintro src _ rfl
      exact (mimics_emit rfl).bind fun _ _ _ => mimics_lowerFields table fields
  | .named key value :: fields => by
      rw [shapesOfFields, lowerFields, lowerFields]
      apply (mimics_addString key.name).bind
      intro index other _
      apply (mimics_lowerExpression value).bind
      rintro src _ rfl
      refine Mimics.bind (mimics_emit ?_) fun _ _ _ => mimics_lowerFields table fields
      rfl
  | .positional value :: fields => by
      rw [shapesOfFields, lowerFields, lowerFields]
      apply (mimics_lowerExpression value).bind
      rintro src _ rfl
      exact (mimics_emit rfl).bind fun _ _ _ => mimics_lowerFields table fields

end

/-! ## Statements -/

theorem mimics_lowerDeclaration (name : String) (value : Expression) :
    Mimics (lowerDeclaration name value) (lowerDeclaration "" value.shape) Eq := by
  unfold lowerDeclaration
  apply (mimics_lowerExpression value).bind
  rintro src _ rfl
  apply (mimics_addString name).bind
  intro index other _ a b hparallel
  have hcurrent := hparallel.currentRegister?_eq
  cases hscope : a.scopes.currentRegister? with
  | some scope =>
      exact outcomes_of_writes hparallel (writes_scoped ⟨hparallel.wellFormed.1, hscope⟩ name index src)
        (writes_scoped ⟨hparallel.wellFormed.2, hcurrent.trans hscope⟩ "" other src)
  | none =>
      have hfails : scopeRegister a = .error .noScope := by
        unfold scopeRegister
        rw [hscope]
      have hfails' : scopeRegister b = .error .noScope := by
        unfold scopeRegister
        rw [hcurrent, hscope]
      rw [bind_of_error hfails, bind_of_error hfails']
      trivial

theorem mimics_lowerDeclarations : ∀ (names : List Identifier) (values : List Expression),
    Mimics (lowerDeclarations names values)
      (lowerDeclarations (names.map fun _ => .blank) (shapesOfExpressions values)) Eq
  | [], values => by
      rw [List.map_nil]
      unfold lowerDeclarations
      exact mimics_pure rfl
  | name :: names, [] => by
      rw [List.map_cons, shapesOfExpressions]
      unfold lowerDeclarations
      exact mimics_pure rfl
  | name :: names, value :: values => by
      rw [List.map_cons, shapesOfExpressions, lowerDeclarations, lowerDeclarations]
      exact (mimics_lowerDeclaration name.name value).bind fun _ _ _ => mimics_lowerDeclarations names values

/-- Writes a variable whose name has a place in the pool. -/
def writeVariable (name : String) (index : ConstantIndex) (src : Register) : Assembling Unit := do
  match ← resolveVariable name with
  | some _ => do
      let scope ← scopeRegister
      defineVariable name src
      emit (.scopeSet scope index src)
  | none => emit (.setVar src index)

theorem writes_writeVariable {a : Assembler} (hwf : a.scopes.WellFormed) (name : String) (index : ConstantIndex)
    (src : Register) : Writes (writeVariable name index src) a := by
  have hresolve : resolveVariable name a = .ok (a.scopes.lookup name, a) := rfl
  unfold Writes writeVariable
  rw [bind_of_ok hresolve]
  cases hlookup : a.scopes.lookup name with
  | none => exact ⟨a.scopes, .setVar src index, hwf, rfl, rfl, rfl⟩
  | some found =>
      obtain ⟨scope, hscope⟩ := exists_scope_of_lookup hwf hlookup
      exact writes_scoped hscope name index src

theorem mimics_lowerAssignment (target : AssignmentTarget) (value : Expression) :
    Mimics (lowerAssignment target value) (lowerAssignment target.shape value.shape) Eq := by
  unfold lowerAssignment
  apply (mimics_lowerExpression value).bind
  rintro src _ rfl
  cases target with
  | name name =>
      show Mimics (do let index ← addString name; writeVariable name index src)
        (do let index ← addString ""; writeVariable "" index src) Eq
      apply (mimics_addString name).bind
      intro index other _ a b hparallel
      exact outcomes_of_writes hparallel (writes_writeVariable hparallel.wellFormed.1 name index src)
        (writes_writeVariable hparallel.wellFormed.2 "" other src)
  | member indexer identifier base location =>
      simp only [AssignmentTarget.shape]
      by_cases hcolon : indexer = .colon
      · rw [if_pos hcolon, if_pos hcolon]
        exact mimics_fail _ _
      · rw [if_neg hcolon, if_neg hcolon]
        apply (mimics_lowerExpression base).bind
        rintro table _ rfl
        apply (mimics_addString identifier.name).bind
        intro key other _
        exact mimics_emit rfl

theorem mimics_lowerAssignments : ∀ (targets : List AssignmentTarget) (values : List Expression),
    Mimics (lowerAssignments targets values)
      (lowerAssignments (targets.map AssignmentTarget.shape) (shapesOfExpressions values)) Eq
  | [], values => by
      rw [List.map_nil]
      unfold lowerAssignments
      exact mimics_pure rfl
  | target :: targets, [] => by
      rw [List.map_cons, shapesOfExpressions]
      unfold lowerAssignments
      exact mimics_pure rfl
  | target :: targets, value :: values => by
      rw [List.map_cons, shapesOfExpressions, lowerAssignments, lowerAssignments]
      exact (mimics_lowerAssignment target value).bind fun _ _ _ => mimics_lowerAssignments targets values

/-- What an expression is as a target can be told from its shape. -/
theorem ofExpression_shape (location : Option Location) (target : Expression) :
    (∃ meant, AssignmentTarget.ofExpression location target = .ok meant ∧
      AssignmentTarget.ofExpression none target.shape = .ok meant.shape) ∨
      ∃ error failure, AssignmentTarget.ofExpression location target = .error error ∧
        AssignmentTarget.ofExpression none target.shape = .error failure := by
  cases target with
  | identifier identifier => exact Or.inl ⟨_, rfl, by rw [Expression.shape]; rfl⟩
  | member indexer identifier base location => exact Or.inl ⟨_, rfl, by rw [Expression.shape]; rfl⟩
  | number value location =>
      rw [Expression.shape]
      split <;> exact Or.inr ⟨_, _, rfl, rfl⟩
  | unsupported kind location => cases kind <;> exact Or.inr ⟨_, _, rfl, by rw [Expression.shape]; rfl⟩
  | _ => exact Or.inr ⟨_, _, rfl, by rw [Expression.shape]; rfl⟩

theorem ofExpressions_shape (location : Option Location) (targets : List Expression) :
    (∃ meant, AssignmentTarget.ofExpressions location targets = .ok meant ∧
      AssignmentTarget.ofExpressions none (shapesOfExpressions targets) = .ok (meant.map AssignmentTarget.shape)) ∨
      ∃ error failure, AssignmentTarget.ofExpressions location targets = .error error ∧
        AssignmentTarget.ofExpressions none (shapesOfExpressions targets) = .error failure := by
  induction targets with
  | nil => exact Or.inl ⟨[], rfl, by rw [shapesOfExpressions]; rfl⟩
  | cons target targets ih =>
      rw [shapesOfExpressions, AssignmentTarget.ofExpressions, AssignmentTarget.ofExpressions]
      rcases ofExpression_shape location target with ⟨first, hfirst, hfirst'⟩ | ⟨error, failure, hfirst, hfirst'⟩
      · rcases ih with ⟨rest, hrest, hrest'⟩ | ⟨error, failure, hrest, hrest'⟩
        · exact Or.inl ⟨first :: rest, by simp only [hfirst, hrest], by simp only [hfirst', hrest', List.map_cons]⟩
        · exact Or.inr ⟨error, failure, by simp only [hfirst, hrest], by simp only [hfirst', hrest']⟩
      · exact Or.inr ⟨error, failure, by simp only [hfirst], by simp only [hfirst']⟩

theorem mimics_newLabels (clauses : List Clause) :
    Mimics (newLabels clauses) (newLabels (shapesOfClauses clauses)) Eq := by
  induction clauses with
  | nil =>
      rw [shapesOfClauses]
      exact mimics_pure rfl
  | cons clause clauses ih =>
      cases clause with
      | guarded | otherwise =>
          rw [shapesOfClauses, newLabels, newLabels]
          apply mimics_newLabel.bind
          rintro label _ rfl
          apply ih.bind
          rintro labels _ rfl
          exact mimics_pure rfl

theorem mimics_lowerTests (clauses : List Clause) (labels : List Label) :
    Mimics (lowerTests clauses labels) (lowerTests (shapesOfClauses clauses) labels) Eq := by
  induction clauses generalizing labels with
  | nil =>
      rw [shapesOfClauses]
      unfold lowerTests
      exact mimics_pure rfl
  | cons clause clauses ih =>
      cases labels with
      | nil =>
          -- Without a label nothing is tested, whatever the clause is.
          cases clause <;> rw [shapesOfClauses] <;> unfold lowerTests <;> exact mimics_pure rfl
      | cons label labels =>
          cases clause with
          | guarded _ condition =>
              rw [shapesOfClauses, lowerTests, lowerTests]
              apply (mimics_lowerExpression condition).bind
              rintro register _ rfl
              exact (mimics_emit rfl).bind fun _ _ _ => ih labels
          | otherwise =>
              rw [shapesOfClauses, lowerTests, lowerTests]
              exact (mimics_emit rfl).bind fun _ _ _ => ih labels

theorem map_isOtherwise_shapesOfClauses (clauses : List Clause) :
    (shapesOfClauses clauses).map Clause.isOtherwise = clauses.map Clause.isOtherwise := by
  induction clauses with
  | nil => rfl
  | cons clause clauses ih => cases clause <;> rw [shapesOfClauses, List.map_cons, List.map_cons, ih] <;> rfl

theorem any_isOtherwise_shapesOfClauses (clauses : List Clause) :
    (shapesOfClauses clauses).dropLast.any Clause.isOtherwise = clauses.dropLast.any Clause.isOtherwise := by
  have hany : ∀ clauses : List Clause,
      clauses.dropLast.any Clause.isOtherwise = (clauses.map Clause.isOtherwise).dropLast.any id := by
    intro clauses
    rw [← List.map_dropLast, List.any_map]
    rfl
  rw [hany, hany, map_isOtherwise_shapesOfClauses]

mutual

theorem mimics_lowerStatement (loopEnd : Option Label) : ∀ statement : Statement,
    Mimics (lowerStatement loopEnd statement) (lowerStatement loopEnd statement.shape) Eq
  | .declare names values location => by
      rw [Statement.shape, lowerStatement, lowerStatement]
      rw [List.isEmpty_map, List.length_map, length_shapesOfExpressions]
      split
      · exact mimics_fail _ _
      · split
        · exact mimics_fail _ _
        · exact mimics_lowerDeclarations names values
  | .assign targets values location => by
      have hempty : (shapesOfExpressions targets).isEmpty = targets.isEmpty := by
        cases targets <;> rfl
      rw [Statement.shape, lowerStatement, lowerStatement, hempty, length_shapesOfExpressions,
        length_shapesOfExpressions]
      split
      · exact mimics_fail _ _
      · split
        · exact mimics_fail _ _
        · rcases ofExpressions_shape location targets with ⟨meant, hmeant, hshape⟩ | ⟨error, failure, herror, hfailure⟩
          · rw [hmeant, hshape]
            exact mimics_lowerAssignments meant values
          · rw [herror, hfailure]
            exact mimics_fail _ _
  | .call expression _ => by
      rw [Statement.shape, lowerStatement, lowerStatement]
      exact (mimics_lowerExpression expression).bind fun _ _ _ => mimics_pure rfl
  | .conditional clauses location => by
      rw [Statement.shape, lowerStatement, lowerStatement, any_isOtherwise_shapesOfClauses]
      split
      · exact mimics_fail _ _
      · apply mimics_enterScope.bind
        intro _ _ _
        apply mimics_newLabel.bind
        rintro conditionalEnd _ rfl
        apply (mimics_newLabels clauses).bind
        rintro labels _ rfl
        apply (mimics_lowerTests clauses labels).bind
        intro _ _ _
        apply (mimics_emit rfl).bind
        intro _ _ _
        apply (mimics_lowerBodies loopEnd conditionalEnd clauses labels).bind
        intro _ _ _
        exact (mimics_bindLabel conditionalEnd).bind fun _ _ _ => mimics_exitScope
  | .whileLoop condition body _ => by
      rw [Statement.shape, lowerStatement, lowerStatement]
      apply mimics_enterScope.bind
      intro _ _ _
      apply mimics_newLabel.bind
      rintro exit _ rfl
      apply (mimics_lowerExpression condition).bind
      rintro entryTest _ rfl
      apply (mimics_emit rfl).bind
      intro _ _ _
      apply mimics_labelHere.bind
      rintro start _ rfl
      apply (mimics_lowerBlock (some exit) body).bind
      intro _ _ _
      apply (mimics_lowerExpression condition).bind
      rintro repeatTest _ rfl
      apply (mimics_emit rfl).bind
      intro _ _ _
      exact (mimics_bindLabel exit).bind fun _ _ _ => mimics_exitScope
  | .breakLoop location => by
      rw [Statement.shape]
      cases loopEnd with
      | none =>
          rw [lowerStatement, lowerStatement]
          exact mimics_fail _ _
      | some exit =>
          rw [lowerStatement, lowerStatement]
          exact mimics_emit rfl
  | .unsupported kind location => by
      rw [Statement.shape, lowerStatement, lowerStatement]
      exact mimics_fail _ _

theorem mimics_lowerBlock (loopEnd : Option Label) : ∀ statements : List Statement,
    Mimics (lowerBlock loopEnd statements) (lowerBlock loopEnd (shapesOfBlock statements)) Eq
  | [] => by
      rw [shapesOfBlock, lowerBlock]
      exact mimics_pure rfl
  | statement :: statements => by
      rw [shapesOfBlock, lowerBlock, lowerBlock]
      exact (mimics_lowerStatement loopEnd statement).bind fun _ _ _ => mimics_lowerBlock loopEnd statements

theorem mimics_lowerBodies (loopEnd : Option Label) (conditionalEnd : Label) :
    ∀ (clauses : List Clause) (labels : List Label),
      Mimics (lowerBodies loopEnd conditionalEnd clauses labels)
        (lowerBodies loopEnd conditionalEnd (shapesOfClauses clauses) labels) Eq
  | [], labels => by
      rw [shapesOfClauses]
      unfold lowerBodies
      exact mimics_pure rfl
  | .guarded _ _ _ _ :: _, [] => by
      rw [shapesOfClauses]
      unfold lowerBodies
      exact mimics_pure rfl
  | .otherwise _ _ :: _, [] => by
      rw [shapesOfClauses]
      unfold lowerBodies
      exact mimics_pure rfl
  | .guarded _ _ body _ :: clauses, label :: labels => by
      rw [shapesOfClauses, lowerBodies, lowerBodies]
      apply (mimics_bindLabel label).bind
      intro _ _ _
      apply (mimics_lowerBlock loopEnd body).bind
      intro _ _ _
      exact (mimics_emit rfl).bind fun _ _ _ => mimics_lowerBodies loopEnd conditionalEnd clauses labels
  | .otherwise body _ :: clauses, label :: labels => by
      rw [shapesOfClauses, lowerBodies, lowerBodies]
      apply (mimics_bindLabel label).bind
      intro _ _ _
      exact (mimics_lowerBlock loopEnd body).bind fun _ _ _ => mimics_lowerBodies loopEnd conditionalEnd clauses labels

end

theorem mimics_lowerChunk (chunk : Chunk) : Mimics (lowerChunk chunk) (lowerChunk chunk.shape) Eq := by
  unfold lowerChunk
  apply mimics_enterScope.bind
  intro _ _ _
  exact (mimics_lowerBlock none chunk.body).bind fun _ _ _ => mimics_exitScope

/-! ## Programs -/

/-- Replacing labels keeps registers, and the place of a jump depends on its label only. -/
theorem slot_of_mapTargetM {table : LabelTable} {instruction : Instruction Label} {line : Instruction JumpTarget}
    (h : instruction.mapTargetM table.resolve = .ok line) :
    line.slot = (instruction.slot.1, instruction.slot.2.bind fun label => (table.resolve label).toOption) := by
  cases instruction with
  | jumpIfNot condition label | jumpIf condition label | jump label =>
      rw [Instruction.mapTargetM] at h
      cases hresolve : table.resolve label with
      | error error =>
          rw [hresolve] at h
          cases h
      | ok place =>
          rw [hresolve] at h
          obtain rfl := Except.ok.inj h
          simp only [Instruction.slot, Instruction.dst?, Instruction.target?, Option.bind_some, hresolve]
          rfl
  | _ =>
      obtain rfl := Except.ok.inj h
      rfl

theorem slots_of_resolveCode {table : LabelTable} {code : List (Instruction Label)}
    {resolved : List (Instruction JumpTarget)} (h : resolveCode table code = .ok resolved) :
    resolved.map Instruction.slot = (code.map Instruction.slot).map fun slot =>
      (slot.1, slot.2.bind fun label => (table.resolve label).toOption) := by
  have hlines := mapTargetM_of_resolveCode h
  clear h
  induction hlines with
  | nil => rfl
  | cons first _ ih => simp only [List.map_cons, slot_of_mapTargetM first, ih]

/-- The place of a jump and the place that it goes to. -/
def Jump.ends (jump : Jump) : Nat × Nat :=
  (jump.source, jump.target)

/-- Two programs with as many instructions, which write the same registers in order and jump from the same places to the
same places. -/
structure Program.SameLayout (program other : Program) : Prop where
  length : other.length = program.length
  destinations : other.destinations = program.destinations
  jumps : other.jumps.map Jump.ends = program.jumps.map Jump.ends

theorem ends_jumpAt? (source : Nat) (instruction : Instruction JumpTarget) :
    (instruction.jumpAt? source).map Jump.ends = instruction.target?.map fun target => (source, target.pc.toNat) := by
  cases instruction <;> rfl

theorem ends_jumpsFrom {code other : List (Instruction JumpTarget)}
    (h : other.map Instruction.slot = code.map Instruction.slot) (source : Nat) :
    (jumpsFrom source other).map Jump.ends = (jumpsFrom source code).map Jump.ends := by
  induction code generalizing other source with
  | nil =>
      obtain rfl := List.map_eq_nil_iff.mp h
      rfl
  | cons instruction code ih =>
      obtain ⟨first, rest, rfl, hfirst, hrest⟩ := List.map_eq_cons_iff.mp h
      have htarget : first.target? = instruction.target? := congrArg Prod.snd hfirst
      simp only [jumpsFrom, List.map_append, ← Option.toList_map, ends_jumpAt?, htarget, ih hrest]

theorem sameLayout_of_slots {program other : Program}
    (h : other.instructions.toList.map Instruction.slot = program.instructions.toList.map Instruction.slot) :
    program.SameLayout other where
  length := by
    have hlength := congrArg List.length h
    rwa [List.length_map, List.length_map, Array.length_toList, Array.length_toList] at hlength
  destinations := by
    have hregisters : ∀ code : List (Instruction JumpTarget),
        code.filterMap Instruction.dst? = (code.map Instruction.slot).filterMap Prod.fst := by
      intro code
      rw [List.filterMap_map]
      rfl
    unfold Program.destinations
    rw [hregisters, hregisters, h]
  jumps := ends_jumpsFrom h 0

/-- A script compiles with the layout of its shape, unless it has too many constants. -/
theorem compile_shape (chunk : Chunk) :
    (∀ program, chunk.compile = .ok program →
      ∃ plain, chunk.shape.compile = .ok plain ∧ plain.instructions.toList.map Instruction.slot =
        program.instructions.toList.map Instruction.slot) ∧
      ∀ plain, chunk.shape.compile = .ok plain →
        chunk.compile = .error .tooManyConstants ∨ ∃ program, chunk.compile = .ok program := by
  have houtcomes := mimics_lowerChunk chunk .empty .empty .empty
  constructor
  · intro program hprogram
    obtain ⟨a, hlower, hcode, -⟩ := lowerChunk_of_compile_eq_ok hprogram
    cases hplain : chunk.shape.compile with
    | error failure =>
        rw [hlower, lowerChunk_of_compile_eq_error hplain] at houtcomes
        exact houtcomes.elim
    | ok plain =>
        obtain ⟨b, hlower', hcode', -⟩ := lowerChunk_of_compile_eq_ok hplain
        rw [hlower, hlower'] at houtcomes
        obtain ⟨hparallel, -⟩ := houtcomes
        refine ⟨plain, rfl, ?_⟩
        rw [slots_of_resolveCode hcode, slots_of_resolveCode hcode', hparallel.slots, hparallel.labels]
  · intro plain hplain
    obtain ⟨b, hlower', -, -⟩ := lowerChunk_of_compile_eq_ok hplain
    cases hcompile : chunk.compile with
    | ok program => exact Or.inr ⟨program, rfl⟩
    | error error =>
        rw [lowerChunk_of_compile_eq_error hcompile, hlower'] at houtcomes
        have hfull : error = .tooManyConstants := houtcomes
        exact Or.inl (congrArg _ hfull)

/-- A script of the same shape as one that compiles. -/
theorem compile_of_shape_eq {chunk other : Chunk} (h : other.shape = chunk.shape) {program : Program}
    (hprogram : chunk.compile = .ok program) : other.compile = .error .tooManyConstants ∨
      ∃ result, other.compile = .ok result ∧ result.instructions.toList.map Instruction.slot =
        program.instructions.toList.map Instruction.slot := by
  obtain ⟨plain, hplain, hslots⟩ := (compile_shape chunk).1 program hprogram
  rw [← h] at hplain
  rcases (compile_shape other).2 plain hplain with hfull | ⟨result, hresult⟩
  · exact Or.inl hfull
  · obtain ⟨plain', hplain', hslots'⟩ := (compile_shape other).1 result hresult
    obtain rfl := Except.ok.inj (hplain.symm.trans hplain')
    exact Or.inr ⟨result, hresult, hslots'.symm.trans hslots⟩

/-- Two scripts of one shape: if one of them compiles, so does the other one, unless it has too many constants, and both
programs have the same layout. -/
theorem sameLayout_of_shape_eq {chunk other : Chunk} (h : other.shape = chunk.shape) :
    (∀ program, chunk.compile = .ok program → other.compile = .error .tooManyConstants ∨
      ∃ result, other.compile = .ok result ∧ program.SameLayout result) ∧
      ∀ result, other.compile = .ok result → chunk.compile = .error .tooManyConstants ∨
        ∃ program, chunk.compile = .ok program ∧ program.SameLayout result := by
  constructor
  · intro program hprogram
    rcases compile_of_shape_eq h hprogram with hfull | ⟨result, hresult, hslots⟩
    · exact Or.inl hfull
    · exact Or.inr ⟨result, hresult, sameLayout_of_slots hslots⟩
  · intro result hresult
    rcases compile_of_shape_eq h.symm hresult with hfull | ⟨program, hprogram, hslots⟩
    · exact Or.inl hfull
    · exact Or.inr ⟨program, hprogram, sameLayout_of_slots hslots.symm⟩

/-- A loop that tests a variable of its own: `local i = 1 while i do i = i - 1 end`. -/
def countingLoop : Chunk :=
  ⟨[.declare [⟨"i", none⟩] [.number ⟨0x3ff0000000000000⟩ none] none,
    .whileLoop (.identifier ⟨"i", none⟩)
      [.assign [.identifier ⟨"i", none⟩]
        [.binary .sub (.identifier ⟨"i", none⟩) (.number ⟨0x3ff0000000000000⟩ none) none] none] none]⟩

/-- A loop over global variables: `local i = "i" while more do count = count % nil end`. -/
def globalLoop : Chunk :=
  ⟨[.declare [⟨"i", none⟩] [.string "i" none] none,
    .whileLoop (.identifier ⟨"more", none⟩)
      [.assign [.identifier ⟨"count", none⟩] [.binary .mod (.identifier ⟨"count", none⟩) (.nil none) none] none] none]⟩

/-- The names of one loop are local and those of the other one are global, and their literals differ in kind. -/
theorem sameLayout_of_shape_eq_loops :
    globalLoop.shape = countingLoop.shape ∧
      ∃ program result, countingLoop.compile = .ok program ∧ globalLoop.compile = .ok result ∧
        program.instructions ≠ result.instructions ∧ program.SameLayout result := by
  have hshape : globalLoop.shape = countingLoop.shape := rfl
  have hdiffer : countingLoop.compile.toOption.map (·.instructions.toList) ≠
      globalLoop.compile.toOption.map (·.instructions.toList) := by decide +kernel
  obtain ⟨program, hprogram⟩ := @exists_program_of_isSome countingLoop (by decide +kernel)
  obtain ⟨result, hresult⟩ := @exists_program_of_isSome globalLoop (by decide +kernel)
  rw [hprogram, hresult] at hdiffer
  have hcode : program.instructions ≠ result.instructions := by
    intro hsame
    apply hdiffer
    show some program.instructions.toList = some result.instructions.toList
    rw [hsame]
  refine ⟨hshape, program, result, hprogram, hresult, hcode, ?_⟩
  rcases (sameLayout_of_shape_eq hshape).1 program hprogram with hfull | ⟨other, hother, hlayout⟩
  · exact nomatch hresult.symm.trans hfull
  · obtain rfl := Except.ok.inj (hresult.symm.trans hother)
    exact hlayout

end ScriptBytecode
