import ScriptBytecode.Lowering.Expression

/-!
# Lowering of statements

A conditional tests its conditions one after the other, each test jumping to the body of its clause; the bodies follow
in the order of the clauses and jump to the common end. A loop tests its condition before the first round and again at
the end of every round, with registers of its own each time. Both have a scope.

Names of a declaration, and targets of an assignment, that have no value beside them are passed over.
-/

namespace ScriptBytecode

open Assembler

/-- Writes a name of a declaration. -/
def lowerDeclaration (name : String) (value : Expression) : Assembling Unit := do
  let src ← lowerExpression value
  let index ← addString name
  let scope ← scopeRegister
  defineVariable name src
  emit (.scopeSet scope index src)

/-- Writes the names of a declaration one after the other. -/
def lowerDeclarations : List Identifier → List Expression → Assembling Unit
  | identifier :: identifiers, value :: values => do
      lowerDeclaration identifier.name value
      lowerDeclarations identifiers values
  | _, _ => return ()

/-- What can stand on the left side of an assignment. -/
inductive AssignmentTarget where
  | name (name : String)
  | member (indexer : Indexer) (identifier : Identifier) (base : Expression) (location : Option Location)

namespace AssignmentTarget

/-- The target that an expression stands for, in an assignment at a given location. -/
def ofExpression (assignment : Option Location) : Expression → Except CompileError AssignmentTarget
  | .identifier identifier => .ok (.name identifier.name)
  | .member indexer identifier base location => .ok (.member indexer identifier base location)
  | .unsupported .index location => .error (.unsupported .indexTarget (location.or assignment))
  | target => .error (.malformedAssignment (.cannotAssign target.kind) (target.location.or assignment))

/-- The targets that expressions stand for. -/
def ofExpressions (assignment : Option Location) :
    List Expression → Except CompileError (List AssignmentTarget)
  | [] => .ok []
  | target :: targets =>
      match ofExpression assignment target with
      | .error error => .error error
      | .ok first =>
          match ofExpressions assignment targets with
          | .error error => .error error
          | .ok rest => .ok (first :: rest)

end AssignmentTarget

/-- Writes a value to a target. -/
def lowerAssignment (target : AssignmentTarget) (value : Expression) : Assembling Unit := do
  let src ← lowerExpression value
  match target with
  | .name name => do
      let index ← addString name
      match ← resolveVariable name with
      | some _ => do
          let scope ← scopeRegister
          defineVariable name src
          emit (.scopeSet scope index src)
      | none => emit (.setVar src index)
  | .member indexer identifier base location =>
      if indexer = .colon then fail (.unsupported .methodIndexer location)
      else do
        let table ← lowerExpression base
        let key ← addString identifier.name
        emit (.setField table key src)

/-- Writes the values of an assignment one after the other. -/
def lowerAssignments : List AssignmentTarget → List Expression → Assembling Unit
  | target :: targets, value :: values => do
      lowerAssignment target value
      lowerAssignments targets values
  | _, _ => return ()

/-- As many new labels as there are clauses. -/
def newLabels : List Clause → Assembling (List Label)
  | [] => return []
  | _ :: clauses => do
      let label ← newLabel
      let labels ← newLabels clauses
      return label :: labels

/-- Tests the conditions of a conditional in order. -/
def lowerTests : List Clause → List Label → Assembling Unit
  | .guarded _ condition _ _ :: clauses, label :: labels => do
      let register ← lowerExpression condition
      emit (.jumpIf register label)
      lowerTests clauses labels
  | .otherwise _ _ :: clauses, label :: labels => do
      emit (.jump label)
      lowerTests clauses labels
  | _, _ => return ()

mutual

/-- Carries out a statement. The label is the end of the loop around it, if it stands in one. -/
def lowerStatement (loopEnd : Option Label) : Statement → Assembling Unit
  | .declare names values location =>
      if names.isEmpty then fail (.malformedAssignment .noNames location)
      else if names.length < values.length then
        fail (.malformedAssignment (.valuesForNames values.length names.length) location)
      else lowerDeclarations names values
  | .assign targets values location =>
      if targets.isEmpty then fail (.malformedAssignment .noTargets location)
      else if targets.length < values.length then
        fail (.malformedAssignment (.valuesForTargets values.length targets.length) location)
      else
        match AssignmentTarget.ofExpressions location targets with
        | .error error => fail error
        | .ok targets => lowerAssignments targets values
  | .call expression _ => do
      let _ ← lowerExpression expression
      return ()
  | .conditional clauses location =>
      if clauses.dropLast.any Clause.isOtherwise then fail (.unsupported .elseBeforeLast location)
      else do
        let _ ← enterScope
        let conditionalEnd ← newLabel
        let labels ← newLabels clauses
        lowerTests clauses labels
        emit (.jump conditionalEnd)
        lowerBodies loopEnd conditionalEnd clauses labels
        bindLabel conditionalEnd
        exitScope
  | .whileLoop condition body _ => do
      let _ ← enterScope
      let exit ← newLabel
      let entryTest ← lowerExpression condition
      emit (.jumpIfNot entryTest exit)
      let start ← labelHere
      lowerBlock (some exit) body
      let repeatTest ← lowerExpression condition
      emit (.jumpIf repeatTest start)
      bindLabel exit
      exitScope
  | .breakLoop location =>
      match loopEnd with
      | some exit => emit (.jump exit)
      | none => fail (.breakOutsideLoop location)
  | .unsupported kind location => fail (.unsupported (.statement kind) location)

/-- Carries out statements in order. -/
def lowerBlock (loopEnd : Option Label) : List Statement → Assembling Unit
  | [] => return ()
  | statement :: statements => do
      lowerStatement loopEnd statement
      lowerBlock loopEnd statements

/-- The bodies of a conditional in order. -/
def lowerBodies (loopEnd : Option Label) (conditionalEnd : Label) :
    List Clause → List Label → Assembling Unit
  | .guarded _ _ body _ :: clauses, label :: labels => do
      bindLabel label
      lowerBlock loopEnd body
      emit (.jump conditionalEnd)
      lowerBodies loopEnd conditionalEnd clauses labels
  | .otherwise body _ :: clauses, label :: labels => do
      bindLabel label
      lowerBlock loopEnd body
      lowerBodies loopEnd conditionalEnd clauses labels
  | _, _ => return ()

end

/-- Carries out a script inside its outermost scope. -/
def lowerChunk (chunk : Chunk) : Assembling Unit := do
  let _ ← enterScope
  lowerBlock none chunk.body
  exitScope

namespace Chunk

/-- The program of a script. -/
def compile (chunk : Chunk) : Except CompileError Program :=
  match lowerChunk chunk .empty with
  | .error error => .error error
  | .ok ((), assembler) => assembler.finish

end Chunk
end ScriptBytecode
