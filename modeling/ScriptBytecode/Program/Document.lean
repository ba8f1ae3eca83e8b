import ScriptBytecode.Instruction.Encoding
import ScriptBytecode.Json.Reader
import ScriptBytecode.Json.Record
import ScriptBytecode.Json.Writer
import ScriptBytecode.Program.Basic

/-!
# Programs in documents

A program is written as an object with its `constants` and its `instructions`, an instruction as an object with its
`code` and its `data`. Only valid programs are written. Reading takes the shape of the whole document first, then
decodes the instructions in order, and then validates the program.
-/

namespace ScriptBytecode

namespace Constant

def toJson : Constant → Json
  | .boolean value => .bool value
  | .number value => .number (.real value)
  | .string value => .string value

def ofJson : Json → Except ShapeFault Constant
  | .bool value => .ok (.boolean value)
  | .number value => .ok (.number value.toBinary64)
  | .string value => .ok (.string value)
  | _ => .error (.noVariant "Constant")

end Constant

namespace RawOperand

def toJson : RawOperand → Json
  | .word value => .number (.natural value.toNat)
  | .words values => .array (values.map fun value => .number (.natural value.toNat))

/-- A word, if the value is one. -/
def wordOfJson? : Json → Option UInt32
  | .number (.natural value) => if value < UInt32.size then some (UInt32.ofNat value) else none
  | _ => none

def ofJson (json : Json) : Except ShapeFault RawOperand :=
  match wordOfJson? json, json with
  | some value, _ => .ok (.word value)
  | none, .array items =>
      match items.mapM wordOfJson? with
      | some values => .ok (.words values)
      | none => .error (.noVariant "RawOperand")
  | none, _ => .error (.noVariant "RawOperand")

end RawOperand

namespace EncodedInstruction

def toJson (encoded : EncodedInstruction) : Json :=
  .object [("code", .number (.natural encoded.code.toNat)), ("data", .array (encoded.data.map RawOperand.toJson))]

/-- What a field of an encoded instruction holds. -/
inductive Part where
  | code (value : UInt8)
  | data (value : List RawOperand)

def fields : List (Field (Json → Except ShapeFault Part)) :=
  [⟨"code", fun json => (json.toNatBelow UInt8.size).map fun value => .code (UInt8.ofNat value), false⟩,
    ⟨"data", fun json => (json.toListOf RawOperand.ofJson).map .data, false⟩]

def ofJson (json : Json) : Except ShapeFault EncodedInstruction := do
  let record ← json.toRecord fields
  match ← record.require "code", ← record.require "data" with
  | .code code, .data data => return ⟨code, data⟩
  | _, _ => .error .invalidType

/-- Reads the text of an encoded instruction. -/
def reader : Nat → Json.Reader Json :=
  Json.readRecord [("code", Json.readValue .kept), ("data", Json.readList (Json.readValue .kept))]

def parse (text : String) : Except DocumentFault EncodedInstruction :=
  match Json.readDocument reader text with
  | .error fault => .error (.text fault)
  | .ok json =>
      match ofJson json with
      | .error fault => .error (.shape fault)
      | .ok encoded => .ok encoded

/-- The text of an encoded instruction. -/
def compact (encoded : EncodedInstruction) : String :=
  String.ofList encoded.toJson.compact

end EncodedInstruction

namespace Program

def toJson (program : Program) : Json :=
  .object
    [("constants", .array (program.constants.constants.toList.map Constant.toJson)),
      ("instructions", .array (program.instructions.toList.map fun instruction => instruction.encode.toJson))]

/-- The text of a program without blanks. -/
def compact (program : Program) : Except ValidityFault String := do
  program.validate
  return String.ofList program.toJson.compact

/-- The text of a program with one item or member a line. -/
def indented (program : Program) : Except ValidityFault String := do
  program.validate
  return String.ofList (program.toJson.indented 0)

/-- A program whose instructions are still encoded. -/
structure Encoded where
  constants : List Constant
  instructions : List EncodedInstruction

/-- What a field of a program holds. -/
inductive Part where
  | constants (value : List Constant)
  | instructions (value : List EncodedInstruction)

def fields : List (Field (Json → Except ShapeFault Part)) :=
  [⟨"constants", fun json => (json.toListOf Constant.ofJson).map .constants, false⟩,
    ⟨"instructions", fun json => (json.toListOf EncodedInstruction.ofJson).map .instructions, false⟩]

def encodedOfJson (json : Json) : Except ShapeFault Encoded := do
  let record ← json.toRecord fields
  match ← record.require "constants", ← record.require "instructions" with
  | .constants constants, .instructions instructions => return ⟨constants, instructions⟩
  | _, _ => .error .invalidType

/-- Decodes instructions of which the first one stands at a given position. -/
def decodeFrom : Nat → List EncodedInstruction → Except DecodeFault (List (Instruction JumpTarget))
  | _, [] => .ok []
  | position, encoded :: rest =>
      match Instruction.decode encoded position with
      | .error fault => .error fault
      | .ok instruction =>
          match decodeFrom (position + 1) rest with
          | .error fault => .error fault
          | .ok instructions => .ok (instruction :: instructions)

/-- Why a text does not hold a valid program. -/
inductive ReadFault where
  | document (fault : DocumentFault)
  | instruction (fault : DecodeFault)
  | validity (fault : ValidityFault)
deriving DecidableEq

/-- Reads the text of a program. -/
def reader : Nat → Json.Reader Json :=
  Json.readRecord
    [("constants", Json.readList (Json.readValue .kept)),
      ("instructions", Json.readList EncodedInstruction.reader)]

def parse (text : String) : Except ReadFault Program :=
  match Json.readDocument reader text with
  | .error fault => .error (.document (.text fault))
  | .ok json =>
      match encodedOfJson json with
      | .error fault => .error (.document (.shape fault))
      | .ok encoded =>
          match decodeFrom 0 encoded.instructions with
          | .error fault => .error (.instruction fault)
          | .ok instructions =>
              let program : Program := ⟨⟨encoded.constants.toArray⟩, instructions.toArray⟩
              match program.validate with
              | .error fault => .error (.validity fault)
              | .ok () => .ok program

end Program
end ScriptBytecode
