import ScriptBytecode.Tree.Field

/-!
# Nodes from their fields

The `build` functions put a node together from the fields that a document gives. A field that may not be left out is
asked for in the order of declaration, so the first missing one is reported.
-/

namespace ScriptBytecode

namespace Record

/-- A field whose value `FieldType` promises to be of a certain form. -/
def requireAs {α : Type} (record : Record FieldValue) (name : String) (form : FieldValue → Option α) :
    Except ShapeFault α := do
  match form (← record.require name) with
  | some value => return value
  | none => .error .invalidType

/-! Fields that a node must have, by the form of their values. -/

variable (record : Record FieldValue)

def count (name : String) : Except ShapeFault UInt32 :=
  record.requireAs name fun | .count value => some value | _ => none

def position (name : String) : Except ShapeFault Position :=
  record.requireAs name fun | .position value => some value | _ => none

def text (name : String) : Except ShapeFault String :=
  record.requireAs name fun | .text value => some value | _ => none

def number (name : String) : Except ShapeFault Binary64 :=
  record.requireAs name fun | .number value => some value | _ => none

def boolean (name : String) : Except ShapeFault Bool :=
  record.requireAs name fun | .boolean value => some value | _ => none

def operator (name : String) : Except ShapeFault BinaryOperator :=
  record.requireAs name fun | .operator value => some value | _ => none

def identifier (name : String) : Except ShapeFault Identifier :=
  record.requireAs name fun | .identifier value => some value | _ => none

def expression (name : String) : Except ShapeFault Expression :=
  record.requireAs name fun | .expression value => some value | _ => none

def identifiers (name : String) : Except ShapeFault (List Identifier) :=
  record.requireAs name fun | .identifiers values => some values | _ => none

def expressions (name : String) : Except ShapeFault (List Expression) :=
  record.requireAs name fun | .expressions values => some values | _ => none

def tableFields (name : String) : Except ShapeFault (List TableField) :=
  record.requireAs name fun | .tableFields values => some values | _ => none

def statements (name : String) : Except ShapeFault (List Statement) :=
  record.requireAs name fun | .statements values => some values | _ => none

def clauses (name : String) : Except ShapeFault (List Clause) :=
  record.requireAs name fun | .clauses values => some values | _ => none

/-- Where the node stands, if the document says so. -/
def location : Option Location :=
  match record.find? "loc" with
  | some (.location value) => value
  | _ => none

/-- The indexer of a member, a point if the document does not give it. -/
def indexer : Indexer :=
  match record.find? "indexer" with
  | some (.indexer value) => value
  | _ => .dot

/-- The values of a declaration, none if the document does not give them. -/
def initialValues : List Expression :=
  match record.find? "init" with
  | some (.expressions values) => values
  | _ => []

end Record

namespace ExpressionKind

/-- The expression of a kind with given fields. -/
def build (record : Record FieldValue) : ExpressionKind → Except ShapeFault Expression
  | .identifier => return .identifier ⟨← record.text "name", record.location⟩
  | .number => return .number (← record.number "value") record.location
  | .string => return .string (← record.text "value") record.location
  | .boolean => return .boolean (← record.boolean "value") record.location
  | .nil => return .nil record.location
  | .binary =>
      return .binary (← record.operator "operator") (← record.expression "left") (← record.expression "right")
        record.location
  | .call => return .call (← record.expression "base") (← record.expressions "arguments") record.location
  | .stringCall =>
      return .stringCall (← record.expression "base") (← record.expression "argument") record.location
  | .tableCall =>
      return .tableCall (← record.expression "base") (← record.expression "arguments") record.location
  | .table => return .table (← record.tableFields "fields") record.location
  | .member =>
      return .member record.indexer (← record.identifier "identifier") (← record.expression "base")
        record.location
  | .unsupported kind => return .unsupported kind record.location

end ExpressionKind

namespace TableFieldKind

/-- The field of a table constructor of a kind with given fields. -/
def build (record : Record FieldValue) : TableFieldKind → Except ShapeFault TableField
  | .keyed => return .keyed (← record.expression "key") (← record.expression "value")
  | .named => return .named (← record.identifier "key") (← record.expression "value")
  | .positional => return .positional (← record.expression "value")

end TableFieldKind

namespace StatementKind

/-- The statement of a kind with given fields. -/
def build (record : Record FieldValue) : StatementKind → Except ShapeFault Statement
  | .declare => return .declare (← record.identifiers "variables") record.initialValues record.location
  | .assign =>
      return .assign (← record.expressions "variables") (← record.expressions "init") record.location
  | .call => return .call (← record.expression "expression") record.location
  | .conditional => return .conditional (← record.clauses "clauses") record.location
  | .whileLoop =>
      return .whileLoop (← record.expression "condition") (← record.statements "body") record.location
  | .breakLoop => return .breakLoop record.location
  | .unsupported kind => return .unsupported kind record.location

end StatementKind

namespace ClauseKind

/-- The clause of a kind with given fields. -/
def build (record : Record FieldValue) : ClauseKind → Except ShapeFault Clause
  | .guarded opening =>
      return .guarded opening (← record.expression "condition") (← record.statements "body") record.location
  | .otherwise => return .otherwise (← record.statements "body") record.location

end ClauseKind

namespace RecordKind

/-- The value of a record with given fields. -/
def build (record : Record FieldValue) : RecordKind → Except ShapeFault FieldValue
  | .position => return .position ⟨← record.count "line", ← record.count "column"⟩
  | .location => return .location (some ⟨← record.position "start", ← record.position "end"⟩)
  | .identifier => return .identifier ⟨← record.text "name", record.location⟩
  | .expression kind => return .expression (← kind.build record)
  | .tableField kind => return .tableField (← kind.build record)
  | .statement kind => return .statement (← kind.build record)
  | .clause kind => return .clause (← kind.build record)

end RecordKind

end ScriptBytecode
