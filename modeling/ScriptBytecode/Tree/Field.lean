import ScriptBytecode.Json.Record
import ScriptBytecode.Tree.Kind

/-!
# Fields of syntax trees

A tree is written as records. `RecordKind.fields` declares the fields of every kind of record in their order, and
`FieldType` says how the value of a field is written. A `FieldValue` is what reading such a value gives.
-/

namespace ScriptBytecode

/-- How the value of a field of a node is written. -/
inductive FieldType where
  | count
  | position
  | location
  | text
  | number
  | boolean
  | operator
  | indexer
  | identifier
  | expression
  | tableField
  | statement
  | clause
  | identifiers
  | expressions
  | tableFields
  | statements
  | clauses
deriving DecidableEq

/-- The value of a field of a node. -/
inductive FieldValue where
  | count (value : UInt32)
  | position (value : Position)
  | location (value : Option Location)
  | text (value : String)
  | number (value : Binary64)
  | boolean (value : Bool)
  | operator (value : BinaryOperator)
  | indexer (value : Indexer)
  | identifier (value : Identifier)
  | expression (value : Expression)
  | tableField (value : TableField)
  | statement (value : Statement)
  | clause (value : Clause)
  | identifiers (values : List Identifier)
  | expressions (values : List Expression)
  | tableFields (values : List TableField)
  | statements (values : List Statement)
  | clauses (values : List Clause)

/-- The families of nodes that give their kind. -/
inductive NodeFamily where
  | expression
  | tableField
  | statement
  | clause
deriving DecidableEq

/-- The records of a tree: three without a kind of their own, and the nodes by their kinds. -/
inductive RecordKind where
  | position
  | location
  | identifier
  | expression (kind : ExpressionKind)
  | tableField (kind : TableFieldKind)
  | statement (kind : StatementKind)
  | clause (kind : ClauseKind)
deriving DecidableEq

namespace NodeFamily

/-- The kinds of a family in their order. -/
def kinds : NodeFamily → List RecordKind
  | .expression => ExpressionKind.all.map .expression
  | .tableField => TableFieldKind.all.map .tableField
  | .statement => StatementKind.all.map .statement
  | .clause => ClauseKind.all.map .clause

end NodeFamily

namespace RecordKind

/-- The name of a kind of node. -/
def name : RecordKind → String
  | .position => "Position"
  | .location => "Location"
  | .identifier => "Identifier"
  | .expression kind => kind.name
  | .tableField kind => kind.name
  | .statement kind => kind.name
  | .clause kind => kind.name

/-- The field that tells where a node stands; a node need not have it. -/
def locationField : Field FieldType :=
  ⟨"loc", .location, true⟩

/-- A field that may not be left out. -/
def requiredField (name : String) (type : FieldType) : Field FieldType :=
  ⟨name, type, false⟩

/-- The fields of a record in their order. -/
def fields : RecordKind → List (Field FieldType)
  | .position => [requiredField "line" .count, requiredField "column" .count]
  | .location => [requiredField "start" .position, requiredField "end" .position]
  | .identifier => [requiredField "name" .text, locationField]
  | .expression .identifier => [requiredField "name" .text, locationField]
  | .expression .number => [requiredField "value" .number, locationField]
  | .expression .string => [requiredField "value" .text, locationField]
  | .expression .boolean => [requiredField "value" .boolean, locationField]
  | .expression .nil => [locationField]
  | .expression .binary =>
      [requiredField "operator" .operator, requiredField "left" .expression, requiredField "right" .expression,
        locationField]
  | .expression .call => [requiredField "base" .expression, requiredField "arguments" .expressions, locationField]
  | .expression .stringCall =>
      [requiredField "base" .expression, requiredField "argument" .expression, locationField]
  | .expression .tableCall =>
      [requiredField "base" .expression, requiredField "arguments" .expression, locationField]
  | .expression .table => [requiredField "fields" .tableFields, locationField]
  | .expression .member =>
      [⟨"indexer", .indexer, true⟩, requiredField "identifier" .identifier, requiredField "base" .expression,
        locationField]
  | .expression (.unsupported _) => [locationField]
  | .tableField .keyed => [requiredField "key" .expression, requiredField "value" .expression]
  | .tableField .named => [requiredField "key" .identifier, requiredField "value" .expression]
  | .tableField .positional => [requiredField "value" .expression]
  | .statement .declare => [requiredField "variables" .identifiers, ⟨"init", .expressions, true⟩, locationField]
  | .statement .assign =>
      [requiredField "variables" .expressions, requiredField "init" .expressions, locationField]
  | .statement .call => [requiredField "expression" .expression, locationField]
  | .statement .conditional => [requiredField "clauses" .clauses, locationField]
  | .statement .whileLoop =>
      [requiredField "condition" .expression, requiredField "body" .statements, locationField]
  | .statement .breakLoop => [locationField]
  | .statement (.unsupported _) => [locationField]
  | .clause (.guarded _) =>
      [requiredField "condition" .expression, requiredField "body" .statements, locationField]
  | .clause .otherwise => [requiredField "body" .statements, locationField]

end RecordKind

namespace FieldType

/-- How the values of a type are made up. -/
inductive Shape where
  | leaf
  | record (kind : RecordKind)
  | node (family : NodeFamily)
  | list (item : FieldType)

def shape : FieldType → Shape
  | .count | .text | .number | .boolean | .operator | .indexer => .leaf
  | .position => .record .position
  | .location => .record .location
  | .identifier => .record .identifier
  | .expression => .node .expression
  | .tableField => .node .tableField
  | .statement => .node .statement
  | .clause => .node .clause
  | .identifiers => .list .identifier
  | .expressions => .list .expression
  | .tableFields => .list .tableField
  | .statements => .list .statement
  | .clauses => .list .clause

end FieldType
end ScriptBytecode
