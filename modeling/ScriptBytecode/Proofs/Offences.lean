import ScriptBytecode.Lowering.Statement

/-!
# Offences

An offence is a part of a script that cannot be lowered, whatever the scopes and however much room there is.
`Chunk.offence?` looks for the first one in a walk of the tree that knows nothing of registers, constants, labels or
scopes; all that it carries along is whether there is a loop around the place where it is.

Parts are looked at in the order in which they are lowered: a value before the target that it is assigned to, all
conditions of a conditional before all of its bodies. A shape is looked at before the parts inside it.
-/

namespace ScriptBytecode

/-- The errors that blame the size of a script. No offence is one of them. -/
def CompileError.IsCapacity : CompileError → Prop
  | .tooManyRegisters | .tooManyConstants => True
  | .unsupported .. | .breakOutsideLoop _ | .malformedAssignment .. | .unresolvedLabel _ | .noScope
  | .invalidProgram _ => False

mutual

/-- The first offence in an expression. -/
def Expression.offence? : Expression → Option CompileError
  | .identifier _ => none
  | .number value location =>
      if value.isFinite then none else some (.unsupported (.nonFiniteNumber value) location)
  | .string _ _ => none
  | .boolean _ _ => none
  | .nil _ => none
  | .binary operator left right location =>
      if operator.operation? = none then some (.unsupported (.operator operator) location)
      else left.offence?.or right.offence?
  | .call callee arguments _ => callee.offence?.or (offenceOfArguments? arguments)
  | .stringCall callee argument _ => callee.offence?.or argument.offence?
  | .tableCall callee argument _ => callee.offence?.or argument.offence?
  | .table fields _ => offenceOfFields? fields
  | .member indexer _ base location =>
      if indexer = .colon then some (.unsupported .methodIndexer location) else base.offence?
  | .unsupported kind location => some (.unsupported (.expression kind) location)

/-- The first offence in expressions that are computed in order. -/
def offenceOfArguments? : List Expression → Option CompileError
  | [] => none
  | argument :: arguments => argument.offence?.or (offenceOfArguments? arguments)

/-- The first offence in the fields of a table. -/
def offenceOfFields? : List TableField → Option CompileError
  | [] => none
  | .keyed key value :: fields => key.offence?.or (value.offence?.or (offenceOfFields? fields))
  | .named _ value :: fields => value.offence?.or (offenceOfFields? fields)
  | .positional value :: fields => value.offence?.or (offenceOfFields? fields)

end

/-- What keeps an expression from being a target, in an assignment at a given location. Names and members are targets,
whatever the member is a member of. -/
def Expression.targetOffence? (assignment : Option Location) : Expression → Option CompileError
  | .identifier _ => none
  | .member _ _ _ _ => none
  | .unsupported .index location => some (.unsupported .indexTarget (location.or assignment))
  | target => some (.malformedAssignment (.cannotAssign target.kind) (target.location.or assignment))

/-- The first target of an assignment that is none. -/
def offenceOfTargets? (assignment : Option Location) : List Expression → Option CompileError
  | [] => none
  | target :: targets => (target.targetOffence? assignment).or (offenceOfTargets? assignment targets)

/-- The first offence in values and the targets beside them. -/
def offenceOfPairs? : List Expression → List Expression → Option CompileError
  | target :: targets, value :: values =>
      value.offence?.or (target.offence?.or (offenceOfPairs? targets values))
  | _, _ => none

/-- The first offence in the conditions of a conditional. -/
def offenceOfConditions? : List Clause → Option CompileError
  | [] => none
  | .guarded _ condition _ _ :: clauses => condition.offence?.or (offenceOfConditions? clauses)
  | .otherwise _ _ :: clauses => offenceOfConditions? clauses

mutual

/-- The first offence in a statement, inside a loop or outside of loops. -/
def Statement.offence? (inLoop : Bool) : Statement → Option CompileError
  | .declare names values location =>
      if names = [] then some (.malformedAssignment .noNames location)
      else if names.length < values.length then
        some (.malformedAssignment (.valuesForNames values.length names.length) location)
      else offenceOfArguments? values
  | .assign targets values location =>
      if targets = [] then some (.malformedAssignment .noTargets location)
      else if targets.length < values.length then
        some (.malformedAssignment (.valuesForTargets values.length targets.length) location)
      else (offenceOfTargets? location targets).or (offenceOfPairs? targets values)
  | .call expression _ => expression.offence?
  | .conditional clauses location =>
      if clauses.dropLast.any Clause.isOtherwise then some (.unsupported .elseBeforeLast location)
      else (offenceOfConditions? clauses).or (offenceOfBodies? inLoop clauses)
  | .whileLoop condition body _ => condition.offence?.or (offenceOfBlock? true body)
  | .breakLoop location => if inLoop then none else some (.breakOutsideLoop location)
  | .unsupported kind location => some (.unsupported (.statement kind) location)

/-- The first offence in statements. -/
def offenceOfBlock? (inLoop : Bool) : List Statement → Option CompileError
  | [] => none
  | statement :: statements => (statement.offence? inLoop).or (offenceOfBlock? inLoop statements)

/-- The first offence in the bodies of a conditional. -/
def offenceOfBodies? (inLoop : Bool) : List Clause → Option CompileError
  | [] => none
  | .guarded _ _ body _ :: clauses => (offenceOfBlock? inLoop body).or (offenceOfBodies? inLoop clauses)
  | .otherwise body _ :: clauses => (offenceOfBlock? inLoop body).or (offenceOfBodies? inLoop clauses)

end

/-- The first offence in a script. -/
def Chunk.offence? (chunk : Chunk) : Option CompileError :=
  offenceOfBlock? false chunk.body

/-- An expression is taken for a target unless it has an offence as such. -/
theorem ofExpression_eq (assignment : Option Location) (target : Expression) :
    (∃ offence, target.targetOffence? assignment = some offence ∧ ¬ offence.IsCapacity ∧
      AssignmentTarget.ofExpression assignment target = .error offence) ∨
      target.targetOffence? assignment = none ∧
        ∃ meant, AssignmentTarget.ofExpression assignment target = .ok meant := by
  cases target with
  | identifier _ => exact Or.inr ⟨rfl, _, rfl⟩
  | member _ _ _ _ => exact Or.inr ⟨rfl, _, rfl⟩
  | unsupported kind location => cases kind <;> exact Or.inl ⟨_, rfl, id, rfl⟩
  | _ => exact Or.inl ⟨_, rfl, id, rfl⟩

/-- The first target that is none is the one that is reported. -/
theorem ofExpressions_eq (assignment : Option Location) (targets : List Expression) :
    (∃ offence, offenceOfTargets? assignment targets = some offence ∧ ¬ offence.IsCapacity ∧
      AssignmentTarget.ofExpressions assignment targets = .error offence) ∨
      offenceOfTargets? assignment targets = none ∧
        ∃ meant, AssignmentTarget.ofExpressions assignment targets = .ok meant := by
  induction targets with
  | nil => exact Or.inr ⟨rfl, [], rfl⟩
  | cons target targets ih =>
      unfold offenceOfTargets? AssignmentTarget.ofExpressions
      rcases ofExpression_eq assignment target with ⟨offence, hoffence, hkind, herror⟩ | ⟨hnone, first, hfirst⟩
      · exact Or.inl ⟨offence, by simp [hoffence], hkind, by simp [herror]⟩
      · rw [hnone, hfirst, Option.none_or]
        rcases ih with ⟨offence, hoffence, hkind, herror⟩ | ⟨hnone, rest, hrest⟩
        · exact Or.inl ⟨offence, hoffence, hkind, by simp [herror]⟩
        · exact Or.inr ⟨hnone, first :: rest, by simp [hrest]⟩

end ScriptBytecode
