import ScriptBytecode.Json.Scanner

/-!
# Reading JSON documents

`readValue` reads one value. Its first argument bounds how many brackets may be open at once, and the recursion
follows it. Documents whose fields are known in advance are read by `readRecord` and `readList`: the value of a field
is kept, and the value of any other key is skipped, with no bound on its brackets.
-/

namespace ScriptBytecode.Json

/-- How many brackets may be open at once in what is kept. -/
def bracketLimit : Nat := 127

/-- Reads the items of an array from its first item on, up to and with the closing bracket. The number bounds the
items. -/
def readItems {α : Type} (item : Reader α) : Nat → Reader (List α)
  | 0, _ => .error .malformed
  | bound + 1, text =>
      match item text with
      | .error fault => .error fault
      | .ok (value, rest) =>
          match skipBlanks rest with
          | [] => .error .endOfText
          | c :: rest =>
              if c = ']' then .ok ([value], rest)
              else if c = ',' then
                match readItems item bound rest with
                | .error fault => .error fault
                | .ok (values, rest) => .ok (value :: values, rest)
              else .error .malformed

/-- Reads an array behind its opening bracket. -/
def readArrayBody {α : Type} (item : Reader α) : Reader (List α) := fun text =>
  match skipBlanks text with
  | [] => .error .endOfText
  | c :: rest => if c = ']' then .ok ([], rest) else readItems item text.length (c :: rest)

/-- Reads a key with the colon behind it. -/
def readKey (mode : Mode) : Reader String := fun text =>
  match skipBlanks text with
  | [] => .error .endOfText
  | c :: rest =>
      if c = '"' then
        match readStringBody mode rest with
        | .error fault => .error fault
        | .ok (key, rest) =>
            match skipBlanks rest with
            | [] => .error .endOfText
            | c :: rest => if c = ':' then .ok (String.ofList key, rest) else .error .malformed
      else .error .malformed

/-- Reads the members of an object from its first member on, up to and with the closing bracket. The number bounds the
members. -/
def readMembers {α : Type} (mode : Mode) (member : String → Reader α) : Nat → Reader (List (String × α))
  | 0, _ => .error .malformed
  | bound + 1, text =>
      match readKey mode text with
      | .error fault => .error fault
      | .ok (key, rest) =>
          match member key rest with
          | .error fault => .error fault
          | .ok (value, rest) =>
              match skipBlanks rest with
              | [] => .error .endOfText
              | c :: rest =>
                  if c = '\x7d' then .ok ([(key, value)], rest)
                  else if c = ',' then
                    match readMembers mode member bound rest with
                    | .error fault => .error fault
                    | .ok (members, rest) => .ok ((key, value) :: members, rest)
                  else .error .malformed

/-- Reads an object behind its opening bracket. -/
def readObjectBody {α : Type} (mode : Mode) (member : String → Reader α) : Reader (List (String × α)) :=
  fun text =>
    match skipBlanks text with
    | [] => .error .endOfText
    | c :: rest =>
        if c = '\x7d' then .ok ([], rest) else readMembers mode member text.length (c :: rest)

/-- Turns the value that a reader returned into another one. -/
def mapRead {α β : Type} (f : α → β) :
    Except TextFault (α × List Char) → Except TextFault (β × List Char)
  | .ok (value, rest) => .ok (f value, rest)
  | .error fault => .error fault

/-- Reads a word whose first letter has been read. -/
def readWord (letters : String) (value : Json) (text : List Char) : Except TextFault (Json × List Char) :=
  match readLetters letters.toList text with
  | .ok rest => .ok (value, rest)
  | .error fault => .error fault

/-- Reads one value with at most the given number of brackets open at once. -/
def readValue (mode : Mode) : Nat → Reader Json
  | brackets, text =>
      match skipBlanks text with
      | [] => .error .endOfText
      | c :: rest =>
          if c = '"' then mapRead (fun chars => .string (String.ofList chars)) (readStringBody mode rest)
          else if c = '[' then
            match brackets with
            | 0 => .error .malformed
            | brackets + 1 => mapRead .array (readArrayBody (readValue mode brackets) rest)
          else if c = '\x7b' then
            match brackets with
            | 0 => .error .malformed
            | brackets + 1 => mapRead .object (readObjectBody mode (fun _ => readValue mode brackets) rest)
          else if c = 'n' then readWord "ull" .null rest
          else if c = 't' then readWord "rue" (.bool true) rest
          else if c = 'f' then readWord "alse" (.bool false) rest
          else if c = '-' then readNumber mode true rest
          else if c.isDigit then readNumber mode false (c :: rest)
          else .error .malformed

/-- Skips the value of a key that no field asks for. A text cannot open more brackets than it has characters, so the
bound is none. -/
def skipValue : Reader Json := fun text =>
  readValue .skipped text.length text

/-- Reads an array item by item, and anything else as a value. -/
def readList (item : Nat → Reader Json) : Nat → Reader Json
  | brackets, text =>
      match skipBlanks text with
      | '[' :: rest =>
          match brackets with
          | 0 => .error .malformed
          | brackets + 1 => mapRead .array (readArrayBody (item brackets) rest)
      | text => readValue .kept brackets text

/-- Reads the fields of a record that is written as an array, from its first field on, up to and with the closing
bracket. Fields may be left off at the end; a further item is malformed. -/
def readTuple : List (Reader Json) → Reader (List Json)
  | [], _ => .error .malformed
  | field :: fields, text =>
      match field text with
      | .error fault => .error fault
      | .ok (value, rest) =>
          match skipBlanks rest with
          | [] => .error .endOfText
          | c :: rest =>
              if c = ']' then .ok ([value], rest)
              else if c = ',' then
                match readTuple fields rest with
                | .error fault => .error fault
                | .ok (values, rest) => .ok (value :: values, rest)
              else .error .malformed

/-- Reads a record that is written as an array, behind its opening bracket. -/
def readTupleBody (fields : List (Reader Json)) : Reader (List Json) := fun text =>
  match skipBlanks text with
  | [] => .error .endOfText
  | c :: rest => if c = ']' then .ok ([], rest) else readTuple fields (c :: rest)

/-- The reader for the value of a key of a record. -/
def memberReader (fields : List (String × (Nat → Reader Json))) (brackets : Nat) (key : String) :
    Reader Json :=
  match fields.lookup key with
  | some field => field brackets
  | none => skipValue

/-- Reads a record with the given fields from an object or an array, and anything else as a value. -/
def readRecord (fields : List (String × (Nat → Reader Json))) : Nat → Reader Json
  | brackets, text =>
      match skipBlanks text with
      | '\x7b' :: rest =>
          match brackets with
          | 0 => .error .malformed
          | brackets + 1 => mapRead .object (readObjectBody .kept (memberReader fields brackets) rest)
      | '[' :: rest =>
          match brackets with
          | 0 => .error .malformed
          | brackets + 1 =>
              mapRead .array (readTupleBody (fields.map fun field => field.2 brackets) rest)
      | text => readValue .kept brackets text

/-- Reads a whole text: behind the document only blanks may stand. -/
def readDocument (document : Nat → Reader Json) (text : String) : Except TextFault Json :=
  match document bracketLimit text.toList with
  | .error fault => .error fault
  | .ok (value, rest) => if (skipBlanks rest).isEmpty then .ok value else .error .malformed

end ScriptBytecode.Json
