import ScriptBytecode.Tree.Basic

/-!
# Kinds of nodes

Documents name the kind of every node, and messages name it too. The order in which `all` lists the kinds of a family
is part of the format: inside a document a kind may be given by its place in that order.
-/

namespace ScriptBytecode

def UnsupportedExpression.name : UnsupportedExpression → String
  | .function => "FunctionDeclaration"
  | .vararg => "VarargLiteral"
  | .unary => "UnaryExpression"
  | .logical => "LogicalExpression"
  | .index => "IndexExpression"

def UnsupportedStatement.name : UnsupportedStatement → String
  | .function => "FunctionDeclaration"
  | .numericFor => "ForNumericStatement"
  | .genericFor => "ForGenericStatement"
  | .repeatUntil => "RepeatStatement"
  | .block => "DoStatement"
  | .return => "ReturnStatement"
  | .goto => "GotoStatement"
  | .label => "LabelStatement"

inductive ExpressionKind where
  | identifier
  | number
  | string
  | boolean
  | nil
  | binary
  | call
  | stringCall
  | tableCall
  | table
  | member
  | unsupported (kind : UnsupportedExpression)
deriving DecidableEq

namespace ExpressionKind

def all : List ExpressionKind :=
  [.identifier, .number, .string, .boolean, .nil, .binary, .call, .stringCall, .tableCall, .table, .member,
    .unsupported .function, .unsupported .vararg, .unsupported .unary, .unsupported .logical, .unsupported .index]

def name : ExpressionKind → String
  | .identifier => "Identifier"
  | .number => "NumericLiteral"
  | .string => "StringLiteral"
  | .boolean => "BooleanLiteral"
  | .nil => "NilLiteral"
  | .binary => "BinaryExpression"
  | .call => "CallExpression"
  | .stringCall => "StringCallExpression"
  | .tableCall => "TableCallExpression"
  | .table => "TableConstructorExpression"
  | .member => "MemberExpression"
  | .unsupported kind => kind.name

end ExpressionKind

inductive StatementKind where
  | declare
  | assign
  | call
  | conditional
  | whileLoop
  | breakLoop
  | unsupported (kind : UnsupportedStatement)
deriving DecidableEq

namespace StatementKind

def all : List StatementKind :=
  [.declare, .assign, .call, .conditional, .whileLoop, .breakLoop, .unsupported .function,
    .unsupported .numericFor, .unsupported .genericFor, .unsupported .repeatUntil, .unsupported .block,
    .unsupported .return, .unsupported .goto, .unsupported .label]

def name : StatementKind → String
  | .declare => "LocalStatement"
  | .assign => "AssignmentStatement"
  | .call => "CallStatement"
  | .conditional => "IfStatement"
  | .whileLoop => "WhileStatement"
  | .breakLoop => "BreakStatement"
  | .unsupported kind => kind.name

end StatementKind

inductive ClauseKind where
  | guarded (opening : ClauseOpening)
  | otherwise
deriving DecidableEq

namespace ClauseKind

def all : List ClauseKind :=
  [.guarded .ifThen, .guarded .elseIf, .otherwise]

def name : ClauseKind → String
  | .guarded .ifThen => "IfClause"
  | .guarded .elseIf => "ElseifClause"
  | .otherwise => "ElseClause"

end ClauseKind

inductive TableFieldKind where
  | keyed
  | named
  | positional
deriving DecidableEq

namespace TableFieldKind

def all : List TableFieldKind :=
  [.keyed, .named, .positional]

def name : TableFieldKind → String
  | .keyed => "TableKey"
  | .named => "TableKeyString"
  | .positional => "TableValue"

end TableFieldKind

namespace Expression

def kind : Expression → ExpressionKind
  | .identifier .. => .identifier
  | .number .. => .number
  | .string .. => .string
  | .boolean .. => .boolean
  | .nil .. => .nil
  | .binary .. => .binary
  | .call .. => .call
  | .stringCall .. => .stringCall
  | .tableCall .. => .tableCall
  | .table .. => .table
  | .member .. => .member
  | .unsupported kind _ => .unsupported kind

end Expression

namespace Statement

def kind : Statement → StatementKind
  | .declare .. => .declare
  | .assign .. => .assign
  | .call .. => .call
  | .conditional .. => .conditional
  | .whileLoop .. => .whileLoop
  | .breakLoop .. => .breakLoop
  | .unsupported kind _ => .unsupported kind

end Statement
end ScriptBytecode
