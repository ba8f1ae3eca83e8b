/-!
# Blanks, comments and lines of a settings file

A comment runs to the end of its line. Comments and strings hold no control characters but the tabulator.
-/

namespace ScriptBytecode.Toml

/-- Takes something from the front of a text. -/
abbrev Scan (α : Type) := List Char → Option (α × List Char)

def isSpace (c : Char) : Bool :=
  c == ' ' || c == '\t'

def skipSpaces (text : List Char) : List Char :=
  text.dropWhile isSpace

/-- The characters that comments and strings may hold as they are. -/
def isPrintable (c : Char) : Bool :=
  c == '\t' || (decide (' ' ≤ c) && c != '\x7f')

/-- Takes the end of a line, if one stands there. -/
def lineEnd? : List Char → Option (List Char)
  | '\n' :: rest => some rest
  | '\r' :: '\n' :: rest => some rest
  | _ => none

/-- Skips a comment up to the end of its line. -/
def skipComment : List Char → List Char
  | '#' :: rest => rest.dropWhile isPrintable
  | text => text

/-- Skips what may stand behind a definition, with the end of the line. -/
def finishLine (text : List Char) : Option (List Char) :=
  match skipComment (skipSpaces text) with
  | [] => some []
  | rest => lineEnd? rest

/-- Skips blanks, comments and at most a number of ends of lines. -/
def skipLines : Nat → List Char → List Char
  | 0, text => text
  | bound + 1, text =>
      let rest := skipComment (skipSpaces text)
      match lineEnd? rest with
      | some rest => skipLines bound rest
      | none => rest

/-- Skips blanks, comments and ends of lines. -/
def skipLayout (text : List Char) : List Char :=
  skipLines (text.length + 1) text

end ScriptBytecode.Toml
