import ScriptBytecode.Number.Binary64

/-!
# Syntax trees

The tree of a script as its parser gives it. Nodes that no lowering rule covers are part of the tree, without their
children, so that they can be refused with their kind and place. Every node may know where it stands in the source.
-/

namespace ScriptBytecode

/-- A place in the source of a script. -/
structure Position where
  line : UInt32
  column : UInt32
deriving DecidableEq

/-- The part of the source that a node was read from. -/
structure Location where
  start : Position
  stop : Position
deriving DecidableEq

/-- A location is shown by the line and the column where it starts. -/
def Location.text (location : Location) : String :=
  s!"{location.start.line.toNat}:{location.start.column.toNat}"

/-- A name in the source. -/
structure Identifier where
  name : String
  location : Option Location
deriving DecidableEq

inductive BinaryOperator where
  | add
  | sub
  | mul
  | div
  | pow
  | mod
  | eq
  | ne
  | lt
  | le
  | gt
  | ge
  | concat
  | floorDiv
  | bitAnd
  | bitOr
  | bitXor
  | shiftLeft
  | shiftRight
deriving DecidableEq

namespace BinaryOperator

def all : List BinaryOperator :=
  [.add, .sub, .mul, .div, .pow, .mod, .eq, .ne, .lt, .le, .gt, .ge, .concat, .floorDiv, .bitAnd, .bitOr, .bitXor,
    .shiftLeft, .shiftRight]

def symbol : BinaryOperator → String
  | .add => "+"
  | .sub => "-"
  | .mul => "*"
  | .div => "/"
  | .pow => "^"
  | .mod => "%"
  | .eq => "=="
  | .ne => "~="
  | .lt => "<"
  | .le => "<="
  | .gt => ">"
  | .ge => ">="
  | .concat => ".."
  | .floorDiv => "//"
  | .bitAnd => "&"
  | .bitOr => "|"
  | .bitXor => "~"
  | .shiftLeft => "<<"
  | .shiftRight => ">>"

def ofSymbol? (symbol : String) : Option BinaryOperator :=
  all.find? fun operator => operator.symbol == symbol

end BinaryOperator

/-- What stands between a table and the name of its member. -/
inductive Indexer where
  | dot
  | colon
deriving DecidableEq

namespace Indexer

def symbol : Indexer → String
  | .dot => "."
  | .colon => ":"

def ofSymbol? : String → Option Indexer
  | "." => some .dot
  | ":" => some .colon
  | _ => none

end Indexer

/-- Expressions without a lowering rule. -/
inductive UnsupportedExpression where
  | function
  | vararg
  | unary
  | logical
  | index
deriving DecidableEq

/-- Statements without a lowering rule. -/
inductive UnsupportedStatement where
  | function
  | numericFor
  | genericFor
  | repeatUntil
  | block
  | return
  | goto
  | label
deriving DecidableEq

mutual

/-- An expression. The three forms of a call differ in how the source writes their arguments. -/
inductive Expression where
  | identifier (identifier : Identifier)
  | number (value : Binary64) (location : Option Location)
  | string (value : String) (location : Option Location)
  | boolean (value : Bool) (location : Option Location)
  | nil (location : Option Location)
  | binary (operator : BinaryOperator) (left right : Expression) (location : Option Location)
  | call (callee : Expression) (arguments : List Expression) (location : Option Location)
  | stringCall (callee argument : Expression) (location : Option Location)
  | tableCall (callee argument : Expression) (location : Option Location)
  | table (fields : List TableField) (location : Option Location)
  | member (indexer : Indexer) (identifier : Identifier) (base : Expression) (location : Option Location)
  | unsupported (kind : UnsupportedExpression) (location : Option Location)

/-- A field of a table constructor. -/
inductive TableField where
  | keyed (key value : Expression)
  | named (key : Identifier) (value : Expression)
  | positional (value : Expression)

end

/-- The two ways in which a clause with a condition begins. -/
inductive ClauseOpening where
  | ifThen
  | elseIf
deriving DecidableEq

mutual

inductive Statement where
  /-- `local names = values` -/
  | declare (names : List Identifier) (values : List Expression) (location : Option Location)
  | assign (targets values : List Expression) (location : Option Location)
  | call (expression : Expression) (location : Option Location)
  | conditional (clauses : List Clause) (location : Option Location)
  | whileLoop (condition : Expression) (body : List Statement) (location : Option Location)
  | breakLoop (location : Option Location)
  | unsupported (kind : UnsupportedStatement) (location : Option Location)

/-- A clause of a conditional statement. -/
inductive Clause where
  | guarded (opening : ClauseOpening) (condition : Expression) (body : List Statement)
      (location : Option Location)
  | otherwise (body : List Statement) (location : Option Location)

end

/-- A whole script. -/
structure Chunk where
  body : List Statement

namespace Expression

def location : Expression → Option Location
  | .identifier name => name.location
  | .number _ location => location
  | .string _ location => location
  | .boolean _ location => location
  | .nil location => location
  | .binary _ _ _ location => location
  | .call _ _ location => location
  | .stringCall _ _ location => location
  | .tableCall _ _ location => location
  | .table _ location => location
  | .member _ _ _ location => location
  | .unsupported _ location => location

end Expression

namespace Statement

def location : Statement → Option Location
  | .declare _ _ location => location
  | .assign _ _ location => location
  | .call _ location => location
  | .conditional _ location => location
  | .whileLoop _ _ location => location
  | .breakLoop location => location
  | .unsupported _ location => location

end Statement

namespace Clause

/-- Whether a clause has no condition. -/
def isOtherwise : Clause → Bool
  | .guarded .. => false
  | .otherwise .. => true

end Clause
end ScriptBytecode
