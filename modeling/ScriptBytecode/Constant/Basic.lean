import ScriptBytecode.Number.Format

/-!
# Constants

A constant is a boolean, a number or a string. Equality of constants compares numbers by their bits; `ieeeEq` compares
them as the standard for doubles does.
-/

namespace ScriptBytecode

/-- A constant of a program. -/
inductive Constant where
  | boolean (value : Bool)
  | number (value : Binary64)
  | string (value : String)
deriving DecidableEq

namespace Constant

/-- Equality with numbers compared in the sense of IEEE 754. -/
def ieeeEq : Constant → Constant → Bool
  | .boolean a, .boolean b => a == b
  | .number a, .number b => a.ieeeEq b
  | .string a, .string b => a == b
  | _, _ => false

/-- Whether a constant can be written to a document, which has no spelling for infinities and NaNs. -/
def isEncodable : Constant → Bool
  | .number value => value.isFinite
  | _ => true

/-- Doubles in listings: a tie goes up, no number has an exponent, and whole numbers have no point. -/
def listingFormat : NumberFormat :=
  ⟨.up, fun _ => true, false⟩

/-- The text of a constant in a listing. -/
def listing : Constant → List Char
  | .boolean value => if value then "true".toList else "false".toList
  | .number value => listingFormat.write value
  | .string value => value.toList

end Constant
end ScriptBytecode
