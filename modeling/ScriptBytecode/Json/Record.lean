import ScriptBytecode.Json.Basic

/-!
# Records in documents

A record is written as an object, with its fields under their names in any order, or as an array of its fields in
the order of their declaration. `collect` reports the first fault in document order: a field that is given a second
time, or a field whose value cannot be read. Whether a field is missing is asked only after that, when the record is
put together with `Record.require`.
-/

namespace ScriptBytecode

/-- The fields of a record that a document gives, with their values. -/
abbrev Record (α : Type) := List (String × α)

/-- A field of a record: its name, how its value is written, and whether it may be left out. -/
structure Field (τ : Type) where
  name : String
  type : τ
  mayBeLeftOut : Bool

namespace Record

variable {α : Type}

def find? (record : Record α) (name : String) : Option α :=
  record.lookup name

/-- The value of a field that may not be left out. -/
def require (record : Record α) (name : String) : Except ShapeFault α :=
  match record.find? name with
  | some value => .ok value
  | none => .error (.missingField name)

/-- Puts the outcomes of reading an object's fields behind those `seen` before. -/
def collectFrom (seen : Record α) : List (String × Except ShapeFault α) → Except ShapeFault (Record α)
  | [] => .ok seen
  | (name, outcome) :: rest =>
      if (seen.find? name).isSome then .error (.duplicateField name)
      else
        match outcome with
        | .error fault => .error fault
        | .ok value => collectFrom (seen ++ [(name, value)]) rest

/-- The record that the fields of an object give. -/
def collect (outcomes : List (String × Except ShapeFault α)) : Except ShapeFault (Record α) :=
  collectFrom [] outcomes

/-- The record that the items of an array give. -/
def ofItems {τ : Type} : List (Field τ) → List (Except ShapeFault α) → Except ShapeFault (Record α)
  | [], [] => .ok []
  | [], _ :: _ => .error .invalidLength
  | field :: fields, [] => if field.mayBeLeftOut then ofItems fields [] else .error .invalidLength
  | field :: fields, outcome :: outcomes =>
      match outcome with
      | .error fault => .error fault
      | .ok value =>
          match ofItems fields outcomes with
          | .error fault => .error fault
          | .ok record => .ok ((field.name, value) :: record)

end Record

namespace Field

/-- The way in which the field with a given name is written. -/
def typeOf? {τ : Type} (fields : List (Field τ)) (name : String) : Option τ :=
  (fields.find? fun field => field.name == name).map (·.type)

end Field

namespace Json

/-- Reads a value as a record of fields that bring their own readers. -/
def toRecord {α : Type} (fields : List (Field (Json → Except ShapeFault α))) :
    Json → Except ShapeFault (Record α)
  | .object members =>
      Record.collect <| members.filterMap fun member =>
        (Field.typeOf? fields member.1).map fun read => (member.1, read member.2)
  | .array items =>
      Record.ofItems fields <|
        (fields.zip items).map (fun pair => pair.1.type pair.2) ++
          (items.drop fields.length).map fun _ => .error .invalidLength
  | _ => .error .invalidType

/-- Reads an array item by item. -/
def toListOf {α : Type} (item : Json → Except ShapeFault α) : Json → Except ShapeFault (List α)
  | .array items => items.mapM item
  | _ => .error .invalidType

/-- Reads a whole number below a bound. A whole number out of range has the wrong value, every other value the wrong
type. -/
def toNatBelow (bound : Nat) : Json → Except ShapeFault Nat
  | .number (.natural value) => if value < bound then .ok value else .error .invalidValue
  | .number (.negative _) => .error .invalidValue
  | _ => .error .invalidType

end Json
end ScriptBytecode
