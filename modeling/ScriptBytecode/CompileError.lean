import ScriptBytecode.Assembler.Label
import ScriptBytecode.Constant.Basic
import ScriptBytecode.Program.Basic
import ScriptBytecode.Tree.Kind

/-!
# Why a script cannot be compiled

The first three causes lie in the script. The others lie in the size of the program or in the use of the assembler.
-/

namespace ScriptBytecode

/-- A part of the language that has no lowering rule. -/
inductive UnsupportedFeature where
  | statement (kind : UnsupportedStatement)
  | expression (kind : UnsupportedExpression)
  | nonFiniteNumber (value : Binary64)
  | operator (operator : BinaryOperator)
  | methodIndexer
  | indexTarget
  | elseBeforeLast

def UnsupportedFeature.text : UnsupportedFeature → String
  | .statement kind => kind.name
  | .expression kind => kind.name
  | .nonFiniteNumber value => "non-finite number " ++ String.ofList (Constant.number value).listing
  | .operator sign => s!"operator '{sign.symbol}'"
  | .methodIndexer => "method call indexer ':'"
  | .indexTarget => "IndexExpression assignment target"
  | .elseBeforeLast => "ElseClause before the last clause"

/-- What is wrong with the two sides of a declaration or an assignment. -/
inductive AssignmentFault where
  | noNames
  | valuesForNames (values names : Nat)
  | noTargets
  | valuesForTargets (values targets : Nat)
  | cannotAssign (kind : ExpressionKind)

def AssignmentFault.text : AssignmentFault → String
  | .noNames => "no names declared"
  | .valuesForNames values names => s!"{values} values for {names} names"
  | .noTargets => "no assignment targets"
  | .valuesForTargets values targets => s!"{values} values for {targets} targets"
  | .cannotAssign kind => s!"cannot assign to {kind.name}"

inductive CompileError where
  | unsupported (feature : UnsupportedFeature) (location : Option Location)
  | breakOutsideLoop (location : Option Location)
  | malformedAssignment (fault : AssignmentFault) (location : Option Location)
  | tooManyRegisters
  | tooManyConstants
  | unresolvedLabel (label : Label)
  | noScope
  | invalidProgram (fault : ValidityFault)

/-- A location in a message, or a question mark where there is none. -/
def locationText : Option Location → String
  | some location => location.text
  | none => "?"

def CompileError.message : CompileError → String
  | .unsupported feature location => s!"Unsupported {feature.text} at {locationText location}"
  | .breakOutsideLoop location => s!"'break' outside a loop at {locationText location}"
  | .malformedAssignment fault location => s!"Malformed assignment at {locationText location}: {fault.text}"
  | .tooManyRegisters => "Too many registers (max 4294967295)"
  | .tooManyConstants => "Too many constants (max 4294967295)"
  | .unresolvedLabel label => s!"Internal error: unresolved label Label({label.id.toNat})"
  | .noScope => "Internal error: no scope entered"
  | .invalidProgram fault => s!"Internal error: {fault.message}"

end ScriptBytecode
