import ScriptBytecode.Settings.Toml.Moment
import ScriptBytecode.Settings.Toml.Number
import ScriptBytecode.Settings.Toml.Quoted

/-!
# Settings files as text

Settings are written in TOML: tables and arrays of tables, bare, quoted and dotted keys, strings of all four kinds,
numbers, booleans, dates and times, arrays and inline tables. `scanLines` cuts a text into the lines that define
something.

Between the parts of arrays and inline tables lines may end and comments may stand, and a comma may follow the last
part. At most `bracketLimit` brackets may be open at once. Only booleans keep their value; nothing asks for the others.
-/

namespace ScriptBytecode.Toml

/-- A dotted key. -/
abbrev Key := List String

/-- A value without parts. -/
inductive Scalar where
  | boolean (value : Bool)
  | string
  | number (inRange : Bool)
  | moment
deriving DecidableEq

/-- A value as it is written. -/
inductive Literal where
  | scalar (value : Scalar)
  | array (items : List Literal)
  | inlineTable (entries : List (Key × Literal))

/-- A line that defines something. -/
inductive Line where
  | table (key : Key)
  | tableItem (key : Key)
  | entry (key : Key) (value : Literal)

def isBareKeyChar (c : Char) : Bool :=
  c.isAlphanum || c == '_' || c == '-'

/-- Takes one part of a key. -/
def scanKeyPart (text : List Char) : Option (String × List Char) :=
  match text with
  | '"' :: rest => (scanBasic text.length rest).map fun (chars, rest) => (String.ofList chars, rest)
  | '\'' :: rest => (scanLiteral rest).map fun (chars, rest) => (String.ofList chars, rest)
  | text =>
      let part := text.takeWhile isBareKeyChar
      if part.isEmpty then none else some (String.ofList part, text.dropWhile isBareKeyChar)

/-- Takes a dotted key with the blanks around its parts. The number bounds the parts. -/
def scanKey : Nat → Scan Key
  | 0, _ => none
  | bound + 1, text => do
      let (part, rest) ← scanKeyPart (skipSpaces text)
      match skipSpaces rest with
      | '.' :: rest => do
          let (parts, rest) ← scanKey bound rest
          return (part :: parts, rest)
      | rest => some ([part], rest)

/-- The characters of numbers, words, dates and times. -/
def isTokenChar (c : Char) : Bool :=
  c.isAlphanum || c == '_' || c == '-' || c == '+' || c == '.' || c == ':'

/-- Cuts a token from the front of a text. A blank behind a date belongs to the token if more of a token follows. -/
def cutToken (text : List Char) : List Char × List Char :=
  let token := text.takeWhile isTokenChar
  match skipDate token, text.dropWhile isTokenChar with
  | some [], ' ' :: c :: rest =>
      if isTokenChar c then
        (token ++ ' ' :: (c :: rest).takeWhile isTokenChar, (c :: rest).dropWhile isTokenChar)
      else (token, ' ' :: c :: rest)
  | _, rest => (token, rest)

/-- The value of a token. -/
def tokenValue? (token : List Char) : Option Scalar :=
  if token = "true".toList then some (.boolean true)
  else if token = "false".toList then some (.boolean false)
  else if isMoment token then some .moment
  else (numberInRange? token).map .number

/-- Takes a value without parts. -/
def scanScalar (text : List Char) : Option (Scalar × List Char) :=
  match text with
  | '"' :: '"' :: '"' :: rest => (skipMultiline '"' text.length rest).map fun rest => (.string, rest)
  | '\'' :: '\'' :: '\'' :: rest => (skipMultiline '\'' text.length rest).map fun rest => (.string, rest)
  | '"' :: rest => (scanBasic text.length rest).map fun (_, rest) => (.string, rest)
  | '\'' :: rest => (scanLiteral rest).map fun (_, rest) => (.string, rest)
  | text =>
      let (token, rest) := cutToken text
      (tokenValue? token).map fun value => (value, rest)

/-- Takes the items of an array behind its bracket, up to and with the closing one. The number bounds the items. -/
def scanItems (value : Scan Literal) : Nat → Scan (List Literal)
  | 0, _ => none
  | bound + 1, text =>
      match skipLayout text with
      | ']' :: rest => some ([], rest)
      | text => do
          let (item, rest) ← value text
          match skipLayout rest with
          | ',' :: rest => do
              let (items, rest) ← scanItems value bound rest
              return (item :: items, rest)
          | ']' :: rest => some ([item], rest)
          | _ => none

/-- Takes a key, the sign behind it and a value, with what `skip` skips on both sides of the sign. -/
def scanEntry (skip : List Char → List Char) (value : Scan Literal) (text : List Char) :
    Option ((Key × Literal) × List Char) := do
  let (key, rest) ← scanKey text.length text
  match skip rest with
  | '=' :: rest => do
      let (literal, rest) ← value (skip rest)
      return ((key, literal), rest)
  | _ => none

/-- Takes the entries of an inline table behind its bracket, up to and with the closing one. The number bounds the
entries. -/
def scanEntries (value : Scan Literal) : Nat → Scan (List (Key × Literal))
  | 0, _ => none
  | bound + 1, text =>
      match skipLayout text with
      | '\x7d' :: rest => some ([], rest)
      | text => do
          let (entry, rest) ← scanEntry skipLayout value text
          match skipLayout rest with
          | ',' :: rest => do
              let (entries, rest) ← scanEntries value bound rest
              return (entry :: entries, rest)
          | '\x7d' :: rest => some ([entry], rest)
          | _ => none

/-- Takes a value in which at most a number of brackets are open at once. -/
def scanValue : Nat → Scan Literal
  | 0, text => (scanScalar text).map fun (value, rest) => (.scalar value, rest)
  | brackets + 1, text =>
      match text with
      | '[' :: rest =>
          (scanItems (scanValue brackets) text.length rest).map fun (items, rest) => (.array items, rest)
      | '\x7b' :: rest =>
          (scanEntries (scanValue brackets) text.length rest).map fun (entries, rest) =>
            (.inlineTable entries, rest)
      | text => (scanScalar text).map fun (value, rest) => (.scalar value, rest)

/-- How many brackets of a value may be open at once. -/
def bracketLimit : Nat := 80

/-- Takes a line that defines something, without its end. -/
def scanLine (text : List Char) : Option (Line × List Char) :=
  match text with
  | '[' :: '[' :: rest => do
      let (key, rest) ← scanKey text.length rest
      match rest with
      | ']' :: ']' :: rest => some (.tableItem key, rest)
      | _ => none
  | '[' :: rest => do
      let (key, rest) ← scanKey text.length rest
      match rest with
      | ']' :: rest => some (.table key, rest)
      | _ => none
  | text => do
      let ((key, value), rest) ← scanEntry skipSpaces (scanValue bracketLimit) text
      return (.entry key value, rest)

/-- Cuts a text into its lines. The number bounds them. -/
def scanLines : Nat → List Char → Option (List Line)
  | 0, _ => none
  | bound + 1, text =>
      match skipLayout text with
      | [] => some []
      | text => do
          let (line, rest) ← scanLine text
          let rest ← finishLine rest
          let lines ← scanLines bound rest
          return line :: lines

end ScriptBytecode.Toml
