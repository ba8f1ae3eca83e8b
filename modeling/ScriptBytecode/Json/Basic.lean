import ScriptBytecode.Number.Scaling

/-!
# JSON values

A number of a document keeps the form that its text gave it: a literal without fraction and exponent that fits into
64 bits is a whole number, every other literal is a double. Whether a field accepts a number depends on that form.
Members of an object keep their order and their repetitions, because both decide which fault of a document is found
first.
-/

namespace ScriptBytecode

/-- A number of a document: `natural n` is `n < 2 ^ 64`, `negative n` is `-n` with `0 < n ≤ 2 ^ 63`. -/
inductive JsonNumber where
  | natural (value : Nat)
  | negative (value : Nat)
  | real (value : Binary64)
deriving DecidableEq

namespace JsonNumber

/-- The number as a double; whole numbers are rounded to the nearest one. -/
def toBinary64 : JsonNumber → Binary64
  | .natural value => .ofMagnitude false (Binary64.nearestMagnitude value 1)
  | .negative value => .ofMagnitude true (Binary64.nearestMagnitude value 1)
  | .real value => value

end JsonNumber

/-- A JSON value. -/
inductive Json where
  | null
  | bool (value : Bool)
  | number (value : JsonNumber)
  | string (value : String)
  | array (items : List Json)
  | object (members : List (String × Json))

/-- Why a text is no JSON document: it ends too early, or a character of it cannot stand where it stands. -/
inductive TextFault where
  | endOfText
  | malformed
deriving DecidableEq

/-- Why a JSON value does not have the shape that it should have. -/
inductive ShapeFault where
  | missingField (name : String)
  | duplicateField (name : String)
  | unknownVariant (name : String)
  | invalidType
  | invalidValue
  | invalidLength
  | noVariant (type : String)
deriving DecidableEq

/-- The wording of a fault of shape. -/
def ShapeFault.message : ShapeFault → String
  | .missingField name => s!"missing field `{name}`"
  | .duplicateField name => s!"duplicate field `{name}`"
  | .unknownVariant name => s!"unknown variant `{name}`"
  | .invalidType => "invalid type"
  | .invalidValue => "invalid value"
  | .invalidLength => "invalid length"
  | .noVariant type => s!"data did not match any variant of untagged enum {type}"

/-- Why a text does not hold a document of the wanted kind. -/
inductive DocumentFault where
  | text (fault : TextFault)
  | shape (fault : ShapeFault)
deriving DecidableEq

/-- The wording of a fault of a document. -/
def DocumentFault.message : DocumentFault → String
  | .text .endOfText => "unexpected end of text"
  | .text .malformed => "unexpected character"
  | .shape fault => fault.message

end ScriptBytecode
