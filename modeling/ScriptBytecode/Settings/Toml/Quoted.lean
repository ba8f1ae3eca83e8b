import ScriptBytecode.Hexadecimal
import ScriptBytecode.Settings.Toml.Layout

/-!
# Strings of a settings file

Strings stand between double quotes, with escapes, or between single quotes, without them. Three quotes open a string
of several lines, which ends at the next three; one or two quotes may stand right before those three. The text of a
string of several lines plays no role, so it is only skipped.
-/

namespace ScriptBytecode.Toml

/-- The character that an escape with a given count of hexadecimal digits stands for. -/
def scanUnicode (count : Nat) (text : List Char) : Option (Char × List Char) := do
  let digits := text.take count
  if digits.length < count then none
  else
    let value ← hexValue? 0 digits
    if h : value.isValidChar then some (Char.ofNatAux value h, text.drop count) else none

/-- Takes an escape behind its backslash. -/
def scanEscape : Scan Char
  | 'b' :: rest => some ('\x08', rest)
  | 't' :: rest => some ('\t', rest)
  | 'n' :: rest => some ('\n', rest)
  | 'f' :: rest => some ('\x0c', rest)
  | 'r' :: rest => some ('\r', rest)
  | 'e' :: rest => some ('\x1b', rest)
  | '"' :: rest => some ('"', rest)
  | '\\' :: rest => some ('\\', rest)
  | 'x' :: rest => scanUnicode 2 rest
  | 'u' :: rest => scanUnicode 4 rest
  | 'U' :: rest => scanUnicode 8 rest
  | _ => none

/-- Takes a string between double quotes, behind the first one. The number bounds the characters. -/
def scanBasic : Nat → Scan (List Char)
  | 0, _ => none
  | _ + 1, [] => none
  | bound + 1, c :: rest =>
      if c = '"' then some ([], rest)
      else if c = '\\' then do
        let (escaped, rest) ← scanEscape rest
        let (chars, rest) ← scanBasic bound rest
        return (escaped :: chars, rest)
      else if isPrintable c then do
        let (chars, rest) ← scanBasic bound rest
        return (c :: chars, rest)
      else none

/-- Takes a string between single quotes, behind the first one. -/
def scanLiteral : Scan (List Char)
  | [] => none
  | c :: rest =>
      if c = '\'' then some ([], rest)
      else if isPrintable c then do
        let (chars, rest) ← scanLiteral rest
        return (c :: chars, rest)
      else none

/-- How many of the characters at the front of a text are a given quote, five at most. -/
def quoteRun (quote : Char) (text : List Char) : Nat :=
  ((text.take 5).takeWhile (· == quote)).length

/-- Skips a string of several lines behind its three quotes. Between double quotes a backslash at the end of a line
joins the line with the next one. The number bounds the characters. -/
def skipMultiline (quote : Char) : Nat → List Char → Option (List Char)
  | 0, _ => none
  | _ + 1, [] => none
  | bound + 1, c :: rest =>
      if c = quote then
        let run := quoteRun quote (c :: rest)
        if 3 ≤ run then some ((c :: rest).drop run) else skipMultiline quote bound rest
      else if c = '\\' ∧ quote = '"' then
        match scanEscape rest, lineEnd? (skipSpaces rest) with
        | some (_, following), _ => skipMultiline quote bound following
        | none, some following => skipMultiline quote bound following
        | none, none => none
      else
        match lineEnd? (c :: rest) with
        | some following => skipMultiline quote bound following
        | none => if isPrintable c then skipMultiline quote bound rest else none

end ScriptBytecode.Toml
