import ScriptBytecode.Json.Reader
import ScriptBytecode.Tree.Build

/-!
# Syntax trees in documents

A node is a record with a field `type` that gives its kind; written as an array it starts with its kind. The kind is
looked at before the fields, and the fields are looked at in the order in which the document gives them. Keys that are
no fields of the node are passed over.

`decodeValue` reads the value of a field, and `Chunk.parse` reads a whole document.
-/

namespace ScriptBytecode

namespace NodeFamily

/-- The kind that the value of a tag stands for: a name, or a place in the order of the kinds. -/
def kindOfTag (family : NodeFamily) : Json → Except ShapeFault RecordKind
  | .string name =>
      match family.kinds.find? fun kind => kind.name == name with
      | some kind => .ok kind
      | none => .error (.unknownVariant name)
  | .number (.natural place) =>
      match family.kinds[place]? with
      | some kind => .ok kind
      | none => .error .invalidValue
  | _ => .error .invalidType

/-- The kind of a node that is written as an object. Its tag may stand anywhere among the members, but only once. -/
def kindOfMembers (family : NodeFamily) (members : List (String × Json)) : Except ShapeFault RecordKind :=
  match members.filter fun member => member.1 == "type" with
  | [] => .error (.missingField "type")
  | [tag] => family.kindOfTag tag.2
  | tag :: _ :: _ =>
      match family.kindOfTag tag.2 with
      | .error fault => .error fault
      | .ok _ => .error (.duplicateField "type")

end NodeFamily

/-- Reads a value that is one of a few symbols. An object with the symbol as its only key stands for the symbol if
there is nothing under the key. -/
def decodeSymbol {α : Type} (ofSymbol? : String → Option α) : Json → Except ShapeFault α
  | .string symbol =>
      match ofSymbol? symbol with
      | some value => .ok value
      | none => .error (.unknownVariant symbol)
  | .object [(symbol, content)] =>
      match ofSymbol? symbol, content with
      | none, _ => .error (.unknownVariant symbol)
      | some value, .null => .ok value
      | some value, .object [] => .ok value
      | some _, _ => .error .invalidType
  | .object _ => .error .invalidValue
  | _ => .error .invalidType

namespace FieldType

/-- Reads a value that has no parts of its own. A location may be left out by giving `null` for it. -/
def decodeLeaf (type : FieldType) (json : Json) : Except ShapeFault FieldValue :=
  match type, json with
  | .count, json => (json.toNatBelow UInt32.size).map fun value => .count (UInt32.ofNat value)
  | .location, .null => .ok (.location none)
  | .text, .string value => .ok (.text value)
  | .number, .number value => .ok (.number value.toBinary64)
  | .boolean, .bool value => .ok (.boolean value)
  | .operator, json => (decodeSymbol BinaryOperator.ofSymbol? json).map .operator
  | .indexer, json => (decodeSymbol Indexer.ofSymbol? json).map .indexer
  | _, _ => .error .invalidType

/-- The list of the given items. -/
def ofItems (type : FieldType) (items : List FieldValue) : FieldValue :=
  match type with
  | .identifier => .identifiers (items.filterMap fun | .identifier value => some value | _ => none)
  | .tableField => .tableFields (items.filterMap fun | .tableField value => some value | _ => none)
  | .statement => .statements (items.filterMap fun | .statement value => some value | _ => none)
  | .clause => .clauses (items.filterMap fun | .clause value => some value | _ => none)
  | _ => .expressions (items.filterMap fun | .expression value => some value | _ => none)

end FieldType

mutual

/-- Reads a value of a given type. -/
def decodeValue (type : FieldType) : Json → Except ShapeFault FieldValue
  | .object members =>
      match type.shape with
      | .leaf => type.decodeLeaf (.object members)
      | .list _ => .error .invalidType
      | .record kind => do
          let record ← Record.collect (decodeMembers kind.fields members)
          kind.build record
      | .node family => do
          let kind ← family.kindOfMembers members
          let record ← Record.collect (decodeMembers kind.fields members)
          kind.build record
  | .array items =>
      match type.shape with
      | .leaf => type.decodeLeaf (.array items)
      | .list item => do
          let values ← decodeItems item items
          return item.ofItems values
      | .record kind => do
          let record ← Record.ofItems kind.fields (decodeFields kind.fields items)
          kind.build record
      | .node family =>
          match items with
          | [] => .error (.missingField "type")
          | tag :: items => do
              let kind ← family.kindOfTag tag
              let record ← Record.ofItems kind.fields (decodeFields kind.fields items)
              kind.build record
  | .null => type.decodeLeaf .null
  | .bool value => type.decodeLeaf (.bool value)
  | .number value => type.decodeLeaf (.number value)
  | .string value => type.decodeLeaf (.string value)

/-- Reads the members of an object that are fields of a record. -/
def decodeMembers (fields : List (Field FieldType)) :
    List (String × Json) → List (String × Except ShapeFault FieldValue)
  | [] => []
  | (name, value) :: members =>
      match Field.typeOf? fields name with
      | some type => (name, decodeValue type value) :: decodeMembers fields members
      | none => decodeMembers fields members

/-- Reads the items of an array as the fields of a record in their order. -/
def decodeFields : List (Field FieldType) → List Json → List (Except ShapeFault FieldValue)
  | _, [] => []
  | [], _ :: _ => [.error .invalidLength]
  | field :: fields, item :: items => decodeValue field.type item :: decodeFields fields items

/-- Reads the items of a list. -/
def decodeItems (type : FieldType) : List Json → Except ShapeFault (List FieldValue)
  | [] => .ok []
  | item :: items =>
      match decodeValue type item with
      | .error fault => .error fault
      | .ok value =>
          match decodeItems type items with
          | .error fault => .error fault
          | .ok values => .ok (value :: values)

end

/-- The tag of a node: what an object gives first as its type, or the first item of an array. -/
def tag? : Json → Option Json
  | .object members => members.lookup "type"
  | .array (tag :: _) => some tag
  | _ => none

/-- Reads a statement of the chunk itself. Only nodes inside a statement may give their kind by its place. -/
def decodeStatement (json : Json) : Except ShapeFault Statement :=
  match tag? json with
  | some (.number _) => .error .invalidType
  | _ => do
      match ← decodeValue .statement json with
      | .statement value => return value
      | _ => .error .invalidType

namespace Chunk

def fields : List (Field (Json → Except ShapeFault (List Statement))) :=
  [⟨"body", Json.toListOf decodeStatement, false⟩]

def ofJson (json : Json) : Except ShapeFault Chunk := do
  let record ← json.toRecord fields
  return ⟨← record.require "body"⟩

/-- Reads the text of a syntax tree. -/
def reader : Nat → Json.Reader Json :=
  Json.readRecord [("body", Json.readList (Json.readValue .kept))]

def parse (text : String) : Except DocumentFault Chunk :=
  match Json.readDocument reader text with
  | .error fault => .error (.text fault)
  | .ok json =>
      match ofJson json with
      | .error fault => .error (.shape fault)
      | .ok chunk => .ok chunk

end Chunk
end ScriptBytecode
