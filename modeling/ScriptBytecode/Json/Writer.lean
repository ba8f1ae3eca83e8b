import ScriptBytecode.Hexadecimal
import ScriptBytecode.Json.Basic
import ScriptBytecode.Number.Format

/-!
# Writing JSON documents

Two layouts: `compact` puts nothing between the tokens, `indented` puts every item and every member on a line of its
own, two blanks further in than the bracket around it. An empty array is `[]` in both.
-/

namespace ScriptBytecode.Json

/-- Doubles in documents: a tie goes to the even neighbour, numbers from `0.00001` up to below `10 ^ 16` have no
exponent, and a whole number ends in `.0`, so that it is read back as a double. -/
def numberFormat : NumberFormat :=
  ⟨.toEven, fun leading => decide (-5 ≤ leading ∧ leading ≤ 15), true⟩

def writeNumber : JsonNumber → List Char
  | .natural value => Nat.toDigits 10 value
  | .negative value => '-' :: Nat.toDigits 10 value
  | .real value => numberFormat.write value

/-- A character of a string. Quotes, backslashes and the characters below the blank are escaped, and nothing else. -/
def writeChar (c : Char) : List Char :=
  match c with
  | '"' => ['\\', '"']
  | '\\' => ['\\', '\\']
  | '\x08' => ['\\', 'b']
  | '\x0c' => ['\\', 'f']
  | '\n' => ['\\', 'n']
  | '\r' => ['\\', 'r']
  | '\t' => ['\\', 't']
  | c =>
      if c < ' ' then ['\\', 'u', '0', '0', hexChar (c.toNat / 16), hexChar (c.toNat % 16)]
      else [c]

def writeString (value : String) : List Char :=
  '"' :: value.toList.flatMap writeChar ++ ['"']

def writeBool (value : Bool) : List Char :=
  if value then "true".toList else "false".toList

mutual

/-- The layout without blanks. -/
def compact : Json → List Char
  | .null => "null".toList
  | .bool value => writeBool value
  | .number value => writeNumber value
  | .string value => writeString value
  | .array [] => ['[', ']']
  | .array (item :: items) => '[' :: compact item ++ compactItems items
  | .object [] => ['\x7b', '\x7d']
  | .object ((key, value) :: members) =>
      '\x7b' :: writeString key ++ ':' :: compact value ++ compactMembers members

/-- The items behind the first one, with the closing bracket. -/
def compactItems : List Json → List Char
  | [] => [']']
  | item :: items => ',' :: compact item ++ compactItems items

/-- The members behind the first one, with the closing bracket. -/
def compactMembers : List (String × Json) → List Char
  | [] => ['\x7d']
  | (key, value) :: members => ',' :: writeString key ++ ':' :: compact value ++ compactMembers members

end

/-- The start of a line that is `depth` brackets deep. -/
def newLine (depth : Nat) : List Char :=
  '\n' :: List.replicate (2 * depth) ' '

mutual

/-- The layout with one item or member a line, at a given depth. -/
def indented (depth : Nat) : Json → List Char
  | .null => "null".toList
  | .bool value => writeBool value
  | .number value => writeNumber value
  | .string value => writeString value
  | .array [] => ['[', ']']
  | .array (item :: items) =>
      '[' :: newLine (depth + 1) ++ indented (depth + 1) item ++ indentedItems depth items
  | .object [] => ['\x7b', '\x7d']
  | .object ((key, value) :: members) =>
      '\x7b' :: newLine (depth + 1) ++ writeString key ++ ':' :: ' ' :: indented (depth + 1) value ++
        indentedMembers depth members

/-- The items behind the first one, with the closing bracket. -/
def indentedItems (depth : Nat) : List Json → List Char
  | [] => newLine depth ++ [']']
  | item :: items =>
      ',' :: newLine (depth + 1) ++ indented (depth + 1) item ++ indentedItems depth items

/-- The members behind the first one, with the closing bracket. -/
def indentedMembers (depth : Nat) : List (String × Json) → List Char
  | [] => newLine depth ++ ['\x7d']
  | (key, value) :: members =>
      ',' :: newLine (depth + 1) ++ writeString key ++ ':' :: ' ' :: indented (depth + 1) value ++
        indentedMembers depth members

end

end ScriptBytecode.Json
