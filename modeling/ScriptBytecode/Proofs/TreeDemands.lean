import ScriptBytecode.Proofs.Demands

/-!
# What lowering asks for

How many registers a script takes and which constants it adds, in which order, can be read off the tree, as its offences
can. The main statement, `demands_lowerChunk`, is that lowering a script asks for exactly what was read off. It is put
together from one lemma for each part of the tree, none of which depends on the assembler that lowering starts from.

The condition of a loop is lowered twice. It takes registers both times, but everything it adds to the pool it adds the
first time, and if it has an offence then it is met the first time.
-/

namespace ScriptBytecode

open Assembler Assembling

/-! ## Constants and registers of a tree -/

mutual

/-- The constants of an expression in the order in which they are added: names behind what they are a member of, but in
front of the value of a field. -/
def Expression.constants : Expression → List Constant
  | .identifier identifier => [.string identifier.name]
  | .number value _ => [.number value]
  | .string value _ => [.string value]
  | .boolean value _ => [.boolean value]
  | .nil _ => []
  | .binary _ left right _ => left.constants ++ right.constants
  | .call callee arguments _ => callee.constants ++ constantsOfArguments arguments
  | .stringCall callee argument _ => callee.constants ++ argument.constants
  | .tableCall callee argument _ => callee.constants ++ argument.constants
  | .table fields _ => constantsOfFields fields
  | .member _ identifier base _ => base.constants ++ [.string identifier.name]
  | .unsupported _ _ => []

def constantsOfArguments : List Expression → List Constant
  | [] => []
  | argument :: arguments => argument.constants ++ constantsOfArguments arguments

def constantsOfFields : List TableField → List Constant
  | [] => []
  | .keyed key value :: fields => key.constants ++ value.constants ++ constantsOfFields fields
  | .named key value :: fields => .string key.name :: value.constants ++ constantsOfFields fields
  | .positional value :: fields => value.constants ++ constantsOfFields fields

end

/-- The constants of a declaration: each name behind its value. -/
def constantsOfDeclaration : List Identifier → List Expression → List Constant
  | identifier :: identifiers, value :: values =>
      value.constants ++ .string identifier.name :: constantsOfDeclaration identifiers values
  | _, _ => []

/-- The constants of an assignment: each target behind its value. -/
def constantsOfAssignment : List Expression → List Expression → List Constant
  | target :: targets, value :: values =>
      value.constants ++ target.constants ++ constantsOfAssignment targets values
  | _, _ => []

def constantsOfConditions : List Clause → List Constant
  | [] => []
  | .guarded _ condition _ _ :: clauses => condition.constants ++ constantsOfConditions clauses
  | .otherwise _ _ :: clauses => constantsOfConditions clauses

mutual

/-- The constants of a statement. The condition of a loop counts once. -/
def Statement.constants : Statement → List Constant
  | .declare names values _ => constantsOfDeclaration names values
  | .assign targets values _ => constantsOfAssignment targets values
  | .call expression _ => expression.constants
  | .conditional clauses _ => constantsOfConditions clauses ++ constantsOfBodies clauses
  | .whileLoop condition body _ => condition.constants ++ constantsOfBlock body
  | .breakLoop _ => []
  | .unsupported _ _ => []

def constantsOfBlock : List Statement → List Constant
  | [] => []
  | statement :: statements => statement.constants ++ constantsOfBlock statements

def constantsOfBodies : List Clause → List Constant
  | [] => []
  | .guarded _ _ body _ :: clauses => constantsOfBlock body ++ constantsOfBodies clauses
  | .otherwise body _ :: clauses => constantsOfBlock body ++ constantsOfBodies clauses

end

/-- The constants of a script. -/
def Chunk.constants (chunk : Chunk) : List Constant :=
  constantsOfBlock chunk.body

mutual

/-- How many registers an expression takes: one for each part that has a value. -/
def Expression.registers : Expression → Nat
  | .identifier _ => 1
  | .number _ _ => 1
  | .string _ _ => 1
  | .boolean _ _ => 1
  | .nil _ => 1
  | .binary _ left right _ => left.registers + right.registers + 1
  | .call callee arguments _ => callee.registers + registersOfArguments arguments + 1
  | .stringCall callee argument _ => callee.registers + argument.registers + 1
  | .tableCall callee argument _ => callee.registers + argument.registers + 1
  | .table fields _ => 1 + registersOfFields fields
  | .member _ _ base _ => base.registers + 1
  | .unsupported _ _ => 0

def registersOfArguments : List Expression → Nat
  | [] => 0
  | argument :: arguments => argument.registers + registersOfArguments arguments

def registersOfFields : List TableField → Nat
  | [] => 0
  | .keyed key value :: fields => key.registers + value.registers + registersOfFields fields
  | .named _ value :: fields => value.registers + registersOfFields fields
  | .positional value :: fields => value.registers + registersOfFields fields

end

/-- How many registers a target takes, apart from the value that it gets. -/
def Expression.targetRegisters : Expression → Nat
  | .member _ _ base _ => base.registers
  | _ => 0

def registersOfAssignment : List Expression → List Expression → Nat
  | target :: targets, value :: values =>
      value.registers + target.targetRegisters + registersOfAssignment targets values
  | _, _ => 0

def registersOfConditions : List Clause → Nat
  | [] => 0
  | .guarded _ condition _ _ :: clauses => condition.registers + registersOfConditions clauses
  | .otherwise _ _ :: clauses => registersOfConditions clauses

mutual

/-- How many registers a statement takes. The condition of a loop counts twice. -/
def Statement.registers : Statement → Nat
  | .declare _ values _ => registersOfArguments values
  | .assign targets values _ => registersOfAssignment targets values
  | .call expression _ => expression.registers
  | .conditional clauses _ => 1 + registersOfConditions clauses + registersOfBodies clauses
  | .whileLoop condition body _ => 1 + condition.registers + registersOfBlock body + condition.registers
  | .breakLoop _ => 0
  | .unsupported _ _ => 0

def registersOfBlock : List Statement → Nat
  | [] => 0
  | statement :: statements => statement.registers + registersOfBlock statements

def registersOfBodies : List Clause → Nat
  | [] => 0
  | .guarded _ _ body _ :: clauses => registersOfBlock body + registersOfBodies clauses
  | .otherwise body _ :: clauses => registersOfBlock body + registersOfBodies clauses

end

/-- How many registers a script takes. -/
def Chunk.registers (chunk : Chunk) : Nat :=
  1 + registersOfBlock chunk.body

/-! ## Lowering of expressions -/

/-- What an expression asks for. -/
def Expression.demand (expression : Expression) : Demand :=
  ⟨expression.offence?, expression.registers, expression.constants⟩

/-- A result that gets a register of its own. -/
theorem demands_result (make : Register → Instruction Label) :
    Demands (do
      let dst ← allocate
      emit (make dst)
      return dst) ⟨none, 1, []⟩ :=
  demands_allocate.bind fun dst => (demands_emit (make dst)).bind_none fun _ => demands_pure dst

theorem demands_lowerConstant (constant : Constant) : (lowerConstant constant).Demands ⟨none, 1, [constant]⟩ :=
  (demands_addConstant constant).bind fun index => demands_result (.load index)

/-- A name asks for the same whether a scope has it or not. -/
theorem demands_lowerName (name : String) : (lowerName name).Demands ⟨none, 1, [.string name]⟩ := by
  show (lowerName name).Demands (Demand.andThen ⟨none, 0, [.string name]⟩ ⟨none, 1, []⟩)
  refine (demands_addConstant (.string name)).bind fun index => ?_
  refine (demands_resolveVariable name).bind_none fun found => ?_
  cases found with
  | some _ => exact demands_scopeRegister.bind_none fun scope => demands_result (.scopeGet scope index)
  | none => exact demands_result (.getVar index)

mutual

theorem demands_lowerExpression : ∀ expression : Expression, (lowerExpression expression).Demands expression.demand
  | .identifier identifier => by
      unfold lowerExpression
      exact demands_lowerName identifier.name
  | .number value location => by
      unfold lowerExpression
      by_cases hfinite : value.isFinite = true
      · rw [if_pos hfinite]
        exact (demands_lowerConstant _).of_eq (by simp [Expression.demand, Expression.offence?, hfinite,
          Expression.registers, Expression.constants])
      · rw [if_neg hfinite]
        exact demands_fail (by simp [Expression.demand, Expression.offence?, hfinite]) id
  | .string value _ => by
      unfold lowerExpression
      exact demands_lowerConstant (.string value)
  | .boolean value _ => by
      unfold lowerExpression
      exact demands_lowerConstant (.boolean value)
  | .nil _ => by
      unfold lowerExpression
      exact demands_result .setNil
  | .binary operator left right location => by
      unfold lowerExpression
      cases hoperation : operator.operation? with
      | none => exact demands_fail (by simp [Expression.demand, Expression.offence?, hoperation]) id
      | some operation =>
          refine ((demands_lowerExpression left).bind fun lhs => (demands_lowerExpression right).bind fun rhs =>
            demands_result (.operate operation lhs rhs)).of_eq ?_
          simp [Demand.andThen, Expression.demand, Expression.offence?, hoperation, Expression.registers,
            Expression.constants, Nat.add_assoc]
  | .call callee arguments _ => by
      unfold lowerExpression
      refine ((demands_lowerExpression callee).bind fun function => (demands_lowerArguments arguments).bind fun registers =>
        demands_result (.call function registers)).of_eq ?_
      simp [Demand.andThen, Expression.demand, Expression.offence?, Expression.registers, Expression.constants,
        Nat.add_assoc]
  | .stringCall callee argument _ => by
      unfold lowerExpression
      refine ((demands_lowerExpression callee).bind fun function => (demands_lowerExpression argument).bind fun register =>
        demands_result (.call function [register])).of_eq ?_
      simp [Demand.andThen, Expression.demand, Expression.offence?, Expression.registers, Expression.constants,
        Nat.add_assoc]
  | .tableCall callee argument _ => by
      unfold lowerExpression
      refine ((demands_lowerExpression callee).bind fun function => (demands_lowerExpression argument).bind fun register =>
        demands_result (.call function [register])).of_eq ?_
      simp [Demand.andThen, Expression.demand, Expression.offence?, Expression.registers, Expression.constants,
        Nat.add_assoc]
  | .table fields _ => by
      unfold lowerExpression
      refine (demands_allocate.bind fun dst => (demands_emit _).bind_none fun _ =>
        (demands_lowerFields dst fields).bind fun _ => demands_pure dst).of_eq ?_
      simp [Demand.andThen, Demand.none, Expression.demand, Expression.offence?, Expression.registers,
        Expression.constants]
  | .member indexer identifier base location => by
      unfold lowerExpression
      by_cases hcolon : indexer = .colon
      · rw [if_pos hcolon]
        exact demands_fail (by simp [Expression.demand, Expression.offence?, hcolon]) id
      · rw [if_neg hcolon]
        refine ((demands_lowerExpression base).bind fun table => (demands_addConstant _).bind fun key =>
          demands_result (.getField table key)).of_eq ?_
        simp [Demand.andThen, Expression.demand, Expression.offence?, hcolon, Expression.registers,
          Expression.constants]
  | .unsupported kind location => by
      unfold lowerExpression
      exact demands_fail rfl id

theorem demands_lowerArguments : ∀ arguments : List Expression, (lowerArguments arguments).Demands
    ⟨offenceOfArguments? arguments, registersOfArguments arguments, constantsOfArguments arguments⟩
  | [] => by
      unfold lowerArguments
      exact demands_pure []
  | argument :: arguments => by
      unfold lowerArguments
      refine ((demands_lowerExpression argument).bind fun register => (demands_lowerArguments arguments).bind fun _ =>
        demands_pure _).of_eq ?_
      simp [Demand.andThen, Demand.none, Expression.demand, offenceOfArguments?, registersOfArguments,
        constantsOfArguments]

theorem demands_lowerFields (table : Register) : ∀ fields : List TableField, (lowerFields table fields).Demands
    ⟨offenceOfFields? fields, registersOfFields fields, constantsOfFields fields⟩
  | [] => by
      unfold lowerFields
      exact demands_pure ()
  | .keyed key value :: fields => by
      unfold lowerFields
      refine ((demands_lowerExpression key).bind fun keyRegister => (demands_lowerExpression value).bind fun src =>
        (demands_emit _).bind_none fun _ => demands_lowerFields table fields).of_eq ?_
      simp [Demand.andThen, Expression.demand, offenceOfFields?, registersOfFields, constantsOfFields, Nat.add_assoc]
  | .named key value :: fields => by
      unfold lowerFields
      refine ((demands_addConstant _).bind fun index => (demands_lowerExpression value).bind fun src =>
        (demands_emit _).bind_none fun _ => demands_lowerFields table fields).of_eq ?_
      simp [Demand.andThen, Expression.demand, offenceOfFields?, registersOfFields, constantsOfFields]
  | .positional value :: fields => by
      unfold lowerFields
      refine ((demands_lowerExpression value).bind fun src => (demands_emit _).bind_none fun _ =>
        demands_lowerFields table fields).of_eq ?_
      simp [Demand.andThen, Expression.demand, offenceOfFields?, registersOfFields, constantsOfFields]

end

/-! ## Lowering of statements -/

/-- What a statement asks for. -/
def Statement.demand (inLoop : Bool) (statement : Statement) : Demand :=
  ⟨statement.offence? inLoop, statement.registers, statement.constants⟩

theorem demands_lowerDeclaration (name : String) (value : Expression) :
    (lowerDeclaration name value).Demands (value.demand.andThen ⟨none, 0, [.string name]⟩) :=
  (demands_lowerExpression value).bind fun src => (demands_addConstant (.string name)).bind fun _ =>
    demands_scopeRegister.bind_none fun _ => (demands_defineVariable name src).bind_none fun _ => demands_emit _

/-- Every value of a declaration that has no more values than names is computed. -/
theorem demands_lowerDeclarations : ∀ (names : List Identifier) (values : List Expression),
    values.length ≤ names.length → (lowerDeclarations names values).Demands
      ⟨offenceOfArguments? values, registersOfArguments values, constantsOfDeclaration names values⟩
  | [], [], _ => demands_pure ()
  | [], _ :: _, hlength => by simp at hlength
  | _ :: _, [], _ => demands_pure ()
  | identifier :: names, value :: values, hlength => by
      unfold lowerDeclarations
      refine ((demands_lowerDeclaration identifier.name value).bind fun _ =>
        demands_lowerDeclarations names values (Nat.le_of_succ_le_succ hlength)).of_eq ?_
      simp [Demand.andThen, Expression.demand, offenceOfArguments?, registersOfArguments, constantsOfDeclaration]

theorem demands_lowerAssignment {assignment : Option Location} {target : Expression} {meant : AssignmentTarget}
    (h : AssignmentTarget.ofExpression assignment target = .ok meant) (value : Expression) :
    (lowerAssignment meant value).Demands
      (value.demand.andThen ⟨target.offence?, target.targetRegisters, target.constants⟩) := by
  refine (demands_lowerExpression value).bind fun src => ?_
  cases target with
  | identifier identifier =>
      obtain rfl := Except.ok.inj h
      show Demands _ (Demand.andThen ⟨none, 0, [.string identifier.name]⟩ .none)
      refine (demands_addConstant _).bind fun index => (demands_resolveVariable _).bind_none fun found => ?_
      cases found with
      | some _ =>
          exact demands_scopeRegister.bind_none fun _ => (demands_defineVariable _ src).bind_none fun _ => demands_emit _
      | none => exact demands_emit _
  | member indexer identifier base location =>
      obtain rfl := Except.ok.inj h
      by_cases hcolon : indexer = .colon
      · simp only [hcolon, if_true]
        exact demands_fail (by simp [Expression.offence?]) id
      · simp only [hcolon, if_false]
        refine ((demands_lowerExpression base).bind fun table => (demands_addConstant _).bind fun key =>
          demands_emit (.setField table key src)).of_eq ?_
        simp [Demand.andThen, Demand.none, Expression.demand, Expression.offence?, hcolon, Expression.targetRegisters,
          Expression.constants]
  | unsupported kind location => cases kind <;> exact nomatch h
  | _ => exact nomatch h

theorem demands_lowerAssignments {assignment : Option Location} :
    ∀ (targets values : List Expression) {meant : List AssignmentTarget},
      AssignmentTarget.ofExpressions assignment targets = .ok meant → (lowerAssignments meant values).Demands
        ⟨offenceOfPairs? targets values, registersOfAssignment targets values, constantsOfAssignment targets values⟩
  | [], values, meant, hmeant => by
      obtain rfl := Except.ok.inj hmeant
      exact demands_pure ()
  | target :: targets, values, meant, hmeant => by
      unfold AssignmentTarget.ofExpressions at hmeant
      cases hfirst : AssignmentTarget.ofExpression assignment target with
      | error error => simp [hfirst] at hmeant
      | ok first =>
          cases hrest : AssignmentTarget.ofExpressions assignment targets with
          | error error => simp [hfirst, hrest] at hmeant
          | ok rest =>
              obtain rfl : first :: rest = meant := by simpa [hfirst, hrest] using hmeant
              cases values with
              | nil => exact demands_pure ()
              | cons value values =>
                  unfold lowerAssignments
                  refine ((demands_lowerAssignment hfirst value).bind fun _ =>
                    demands_lowerAssignments targets values hrest).of_eq ?_
                  simp [Demand.andThen, Expression.demand, offenceOfPairs?, registersOfAssignment,
                    constantsOfAssignment, Option.or_assoc]

theorem demands_lowerTests : ∀ (clauses : List Clause) (labels : List Label), labels.length = clauses.length →
    (lowerTests clauses labels).Demands
      ⟨offenceOfConditions? clauses, registersOfConditions clauses, constantsOfConditions clauses⟩
  | [], [], _ => demands_pure ()
  | [], _ :: _, hlength => by simp at hlength
  | _ :: _, [], hlength => by simp at hlength
  | .guarded _ condition _ _ :: clauses, label :: labels, hlength => by
      unfold lowerTests
      refine ((demands_lowerExpression condition).bind fun register => (demands_emit _).bind_none fun _ =>
        demands_lowerTests clauses labels (Nat.succ.inj hlength)).of_eq ?_
      simp [Demand.andThen, Expression.demand, offenceOfConditions?, registersOfConditions, constantsOfConditions]
  | .otherwise _ _ :: clauses, label :: labels, hlength => by
      unfold lowerTests
      exact (demands_emit _).bind_none fun _ => demands_lowerTests clauses labels (Nat.succ.inj hlength)

theorem length_of_newLabels {clauses : List Clause} (a b : Assembler) (labels : List Label)
    (h : newLabels clauses a = .ok (labels, b)) : labels.length = clauses.length := by
  obtain ⟨others, c, hlabels, hlength⟩ := newLabels_eq_ok clauses a
  rw [h] at hlabels
  obtain ⟨rfl, -⟩ := Prod.mk.inj (Except.ok.inj hlabels)
  exact hlength

mutual

theorem demands_lowerStatement (loopEnd : Option Label) : ∀ statement : Statement,
    (lowerStatement loopEnd statement).Demands (statement.demand loopEnd.isSome)
  | .declare names values location => by
      unfold lowerStatement
      by_cases hnone : names = []
      · rw [if_pos (by simp [hnone])]
        exact demands_fail (by simp [Statement.demand, Statement.offence?, hnone]) id
      · rw [if_neg (by simp [hnone])]
        by_cases hless : names.length < values.length
        · rw [if_pos hless]
          exact demands_fail (by simp [Statement.demand, Statement.offence?, hnone, hless]) id
        · rw [if_neg hless]
          refine (demands_lowerDeclarations names values (Nat.le_of_not_lt hless)).of_eq ?_
          simp [Statement.demand, Statement.offence?, hnone, hless, Statement.registers, Statement.constants]
  | .assign targets values location => by
      unfold lowerStatement
      by_cases hnone : targets = []
      · rw [if_pos (by simp [hnone])]
        exact demands_fail (by simp [Statement.demand, Statement.offence?, hnone]) id
      · rw [if_neg (by simp [hnone])]
        by_cases hless : targets.length < values.length
        · rw [if_pos hless]
          exact demands_fail (by simp [Statement.demand, Statement.offence?, hnone, hless]) id
        · rw [if_neg hless]
          -- All targets are looked at before the first value is computed.
          rcases ofExpressions_eq location targets with ⟨offence, hoffence, hkind, herror⟩ | ⟨hshapes, meant, hmeant⟩
          · rw [herror]
            exact demands_fail (by simp [Statement.demand, Statement.offence?, hnone, hless, hoffence]) hkind
          · rw [hmeant]
            refine (demands_lowerAssignments targets values hmeant).of_eq ?_
            simp [Statement.demand, Statement.offence?, hnone, hless, hshapes, Statement.registers,
              Statement.constants]
  | .call expression _ => by
      unfold lowerStatement
      refine ((demands_lowerExpression expression).bind fun _ => demands_pure ()).of_eq ?_
      simp [Demand.andThen, Demand.none, Expression.demand, Statement.demand, Statement.offence?,
        Statement.registers, Statement.constants]
  | .conditional clauses location => by
      unfold lowerStatement
      by_cases hlast : clauses.dropLast.any Clause.isOtherwise = true
      · rw [if_pos hlast]
        exact demands_fail (by simp only [Statement.demand, Statement.offence?, if_pos hlast]) id
      · rw [if_neg hlast]
        refine (demands_enterScope.bind fun _ => demands_newLabel.bind_none fun conditionalEnd =>
          ((demands_newLabels clauses).bind_of length_of_newLabels fun labels hlength =>
            (demands_lowerTests clauses labels hlength).bind fun _ => (demands_emit _).bind_none fun _ =>
              (demands_lowerBodies loopEnd conditionalEnd clauses labels hlength).bind fun _ =>
                (demands_bindLabel _).bind_none fun _ => demands_exitScope)).of_eq ?_
        simp only [Demand.andThen, Demand.none, Statement.demand, Statement.offence?, if_neg hlast,
          Statement.registers, Statement.constants, Option.none_or, Option.or_none, List.nil_append, List.append_nil]
        simp [Nat.add_assoc]
  | .whileLoop condition body _ => by
      unfold lowerStatement
      have hbody : ∀ exit : Label, (lowerBlock (some exit) body).Demands
          ⟨offenceOfBlock? true body, registersOfBlock body, constantsOfBlock body⟩ :=
        fun exit => demands_lowerBlock (some exit) body
      refine (demands_enterScope.bind fun _ => demands_newLabel.bind_none fun exit =>
        (demands_lowerExpression condition).bind fun _ => (demands_emit _).bind_none fun _ =>
          demands_labelHere.bind_none fun _ => (hbody exit).bind fun _ =>
            (demands_lowerExpression condition).bind fun _ => (demands_emit _).bind_none fun _ =>
              (demands_bindLabel exit).bind_none fun _ => demands_exitScope).congr ?_ ?_ ?_
      · -- The condition has no offence the second time that it did not have the first time.
        show none.or (condition.offence?.or ((offenceOfBlock? true body).or (condition.offence?.or none))) = _
        cases hcondition : condition.offence? with
        | none => simp [Statement.demand, Statement.offence?, hcondition]
        | some offence => simp [Statement.demand, Statement.offence?, hcondition]
      · simp [Demand.andThen, Demand.none, Expression.demand, Statement.demand, Statement.registers, Nat.add_assoc]
      · intro pool
        simp only [Demand.andThen, Demand.none, Expression.demand, Statement.demand, Statement.constants,
          List.nil_append, List.append_nil, ← List.append_assoc]
        exact ConstantPool.addAll_again pool condition.constants (constantsOfBlock body)
  | .breakLoop location => by
      unfold lowerStatement
      cases loopEnd with
      | some exit => exact demands_emit (.jump exit)
      | none => exact demands_fail rfl id
  | .unsupported kind location => by
      unfold lowerStatement
      exact demands_fail rfl id

theorem demands_lowerBlock (loopEnd : Option Label) : ∀ statements : List Statement,
    (lowerBlock loopEnd statements).Demands
      ⟨offenceOfBlock? loopEnd.isSome statements, registersOfBlock statements, constantsOfBlock statements⟩
  | [] => by
      unfold lowerBlock
      exact demands_pure ()
  | statement :: statements => by
      unfold lowerBlock
      refine ((demands_lowerStatement loopEnd statement).bind fun _ => demands_lowerBlock loopEnd statements).of_eq ?_
      simp [Demand.andThen, Statement.demand, offenceOfBlock?, registersOfBlock, constantsOfBlock]

theorem demands_lowerBodies (loopEnd : Option Label) (conditionalEnd : Label) :
    ∀ (clauses : List Clause) (labels : List Label), labels.length = clauses.length →
      (lowerBodies loopEnd conditionalEnd clauses labels).Demands
        ⟨offenceOfBodies? loopEnd.isSome clauses, registersOfBodies clauses, constantsOfBodies clauses⟩
  | [], [], _ => by
      unfold lowerBodies
      exact demands_pure ()
  | [], _ :: _, hlength => by simp at hlength
  | _ :: _, [], hlength => by simp at hlength
  | .guarded _ _ body _ :: clauses, label :: labels, hlength => by
      unfold lowerBodies
      refine ((demands_bindLabel label).bind_none fun _ => (demands_lowerBlock loopEnd body).bind fun _ =>
        (demands_emit _).bind_none fun _ =>
          demands_lowerBodies loopEnd conditionalEnd clauses labels (Nat.succ.inj hlength)).of_eq ?_
      simp [Demand.andThen, offenceOfBodies?, registersOfBodies, constantsOfBodies]
  | .otherwise body _ :: clauses, label :: labels, hlength => by
      unfold lowerBodies
      refine ((demands_bindLabel label).bind_none fun _ => (demands_lowerBlock loopEnd body).bind fun _ =>
        demands_lowerBodies loopEnd conditionalEnd clauses labels (Nat.succ.inj hlength)).of_eq ?_
      simp [Demand.andThen, offenceOfBodies?, registersOfBodies, constantsOfBodies]

end

/-- Lowering a script asks for what can be read off its tree. -/
theorem demands_lowerChunk (chunk : Chunk) :
    (lowerChunk chunk).Demands ⟨chunk.offence?, chunk.registers, chunk.constants⟩ := by
  refine (demands_enterScope.bind fun _ => (demands_lowerBlock none chunk.body).bind fun _ => demands_exitScope).of_eq ?_
  simp [Demand.andThen, Demand.none, Chunk.offence?, Chunk.registers, Chunk.constants]

end ScriptBytecode
