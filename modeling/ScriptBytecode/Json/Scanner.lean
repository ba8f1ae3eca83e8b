import ScriptBytecode.Hexadecimal
import ScriptBytecode.Json.Basic

/-!
# The leaves of a JSON text

Readers take the characters of a text from the front and return what they read with the characters that follow.
A reader works in one of two modes. What is *kept* must be a value; what is *skipped*, because no field asks for it,
need only be spelled like one: its escapes need not pair up and its numbers may be too large for a double.
-/

namespace ScriptBytecode.Json

/-- Reads a value from the front of a text. -/
abbrev Reader (α : Type) := List Char → Except TextFault (α × List Char)

/-- Whether the value that is read will be used. -/
inductive Mode where
  | kept
  | skipped
deriving DecidableEq

/-- The four characters that may stand between the tokens of a document. -/
def isBlank (c : Char) : Bool :=
  c == ' ' || c == '\t' || c == '\n' || c == '\r'

def skipBlanks (text : List Char) : List Char :=
  text.dropWhile isBlank

/-- The number that four hexadecimal digits spell. -/
def hexUnit? (digits : List Char) : Option Nat :=
  if digits.length = 4 then hexValue? 0 digits else none

def isLeadingSurrogate (unit : Nat) : Bool :=
  decide (0xD800 ≤ unit ∧ unit < 0xDC00)

def isTrailingSurrogate (unit : Nat) : Bool :=
  decide (0xDC00 ≤ unit ∧ unit < 0xE000)

/-- The character that a pair of surrogates stands for. -/
def pairedChar (leading trailing : Nat) : Char :=
  Char.ofNat (0x10000 + (leading - 0xD800) * 0x400 + (trailing - 0xDC00))

/-- The character that a letter after a backslash stands for. -/
def escapedChar? (letter : Char) : Option Char :=
  match letter with
  | '"' => some '"'
  | '\\' => some '\\'
  | '/' => some '/'
  | 'b' => some '\x08'
  | 'f' => some '\x0c'
  | 'n' => some '\n'
  | 'r' => some '\r'
  | 't' => some '\t'
  | _ => none

/-- Puts a character in front of the string that a reader returned. -/
def prependChar (c : Char) :
    Except TextFault (List Char × List Char) → Except TextFault (List Char × List Char)
  | .ok (chars, rest) => .ok (c :: chars, rest)
  | .error fault => .error fault

/-- What the characters read so far of a string ask of the next one. -/
inductive StringState where
  | plain
  /-- Behind a backslash. -/
  | escape
  /-- Inside the four bytes behind `\\u`, of which some have been read; a leading surrogate may stand before them. -/
  | hex (leading : Option Nat) (read : List Char)
  /-- Behind a leading surrogate. -/
  | pairBackslash (leading : Nat)
  /-- Behind a leading surrogate and a backslash. -/
  | pairLetter (leading : Nat)

/-- How many bytes a text takes. -/
def byteCount (text : List Char) : Nat :=
  text.foldr (fun c bytes => c.utf8Size + bytes) 0

/-- Reads the rest of a string, up to and with its closing quote. An escape asks for four bytes before it looks at
them, so a text that has fewer of them left ends too early whatever they are. -/
def readStringFrom (mode : Mode) : StringState → Reader (List Char)
  | _, [] => .error .endOfText
  | .plain, c :: rest =>
      if c = '"' then .ok ([], rest)
      else if c = '\\' then readStringFrom mode .escape rest
      else if c < ' ' then .error .malformed
      else prependChar c (readStringFrom mode .plain rest)
  | .escape, c :: rest =>
      if c = 'u' then readStringFrom mode (.hex none []) rest
      else
        match escapedChar? c with
        | none => .error .malformed
        | some escaped => prependChar escaped (readStringFrom mode .plain rest)
  | .hex leading read, c :: rest =>
      if byteCount (read ++ [c]) < 4 then readStringFrom mode (.hex leading (read ++ [c])) rest
      else
        match hexUnit? (read ++ [c]), leading with
        | none, _ => .error .malformed
        | some unit, some leading =>
            if isTrailingSurrogate unit then
              prependChar (pairedChar leading unit) (readStringFrom mode .plain rest)
            else .error .malformed
        | some unit, none =>
            if mode = .kept ∧ isTrailingSurrogate unit then .error .malformed
            else if mode = .kept ∧ isLeadingSurrogate unit then readStringFrom mode (.pairBackslash unit) rest
            else prependChar (Char.ofNat unit) (readStringFrom mode .plain rest)
  | .pairBackslash leading, c :: rest =>
      if c = '\\' then readStringFrom mode (.pairLetter leading) rest else .error .malformed
  | .pairLetter leading, c :: rest =>
      if c = 'u' then readStringFrom mode (.hex (some leading) []) rest else .error .malformed

/-- Reads the rest of a string behind its opening quote. -/
def readStringBody (mode : Mode) : Reader (List Char) :=
  readStringFrom mode .plain

/-- Reads the remaining letters of a word such as `true`. -/
def readLetters : List Char → List Char → Except TextFault (List Char)
  | [], rest => .ok rest
  | _ :: _, [] => .error .endOfText
  | expected :: letters, c :: rest =>
      if c = expected then readLetters letters rest else .error .malformed

/-- The parts of a number literal as they are spelled. -/
structure NumberLiteral where
  negative : Bool
  whole : List Char
  /-- The digits behind the point, if there is a point. -/
  fraction : Option (List Char)
  /-- The exponent, if there is one. -/
  exponent : Option Int

/-- Reads at least one digit. -/
def readDigits (text : List Char) : Except TextFault (List Char × List Char) :=
  match text with
  | [] => .error .endOfText
  | c :: rest =>
      if c.isDigit then .ok (c :: rest.takeWhile Char.isDigit, rest.dropWhile Char.isDigit)
      else .error .malformed

/-- Reads the digits before the point. A leading zero stands alone. -/
def readWhole (text : List Char) : Except TextFault (List Char × List Char) :=
  match text with
  | '0' :: c :: rest => if c.isDigit then .error .malformed else .ok (['0'], c :: rest)
  | text => readDigits text

def readFraction (text : List Char) : Except TextFault (Option (List Char) × List Char) :=
  match text with
  | '.' :: rest => do
      let (digits, rest) ← readDigits rest
      return (some digits, rest)
  | text => .ok (none, text)

/-- The value of a run of decimal digits. -/
def digitsValue (digits : List Char) : Nat :=
  Nat.ofDigitChars 10 digits 0

def readExponent (text : List Char) : Except TextFault (Option Int × List Char) :=
  match text with
  | c :: rest =>
      if c = 'e' ∨ c = 'E' then
        match rest with
        | '-' :: rest => do
            let (digits, rest) ← readDigits rest
            return (some (-(digitsValue digits : Int)), rest)
        | '+' :: rest => do
            let (digits, rest) ← readDigits rest
            return (some (digitsValue digits : Int), rest)
        | rest => do
            let (digits, rest) ← readDigits rest
            return (some (digitsValue digits : Int), rest)
      else .ok (none, c :: rest)
  | [] => .ok (none, [])

/-- Reads a number literal behind its sign. -/
def readLiteral (negative : Bool) (text : List Char) : Except TextFault (NumberLiteral × List Char) := do
  let (whole, rest) ← readWhole text
  let (fraction, rest) ← readFraction rest
  let (exponent, rest) ← readExponent rest
  return (⟨negative, whole, fraction, exponent⟩, rest)

namespace NumberLiteral

/-- Puts digits behind a significand as long as 64 bits hold it. The digits from the first one on that they do not hold
are left. -/
def takeDigits (significand : Nat) : List Char → Nat × List Char
  | [] => (significand, [])
  | c :: digits =>
      let longer := 10 * significand + (c.toNat - '0'.toNat)
      if longer < UInt64.size then takeDigits longer digits else (significand, c :: digits)

/-- The literal as a double, if it is not too large for one. A digit that is left out before the point is a place more,
one behind the point is none. -/
def toReal? (literal : NumberLiteral) : Option JsonNumber :=
  let fraction := literal.fraction.getD []
  let (whole, leftOut) := takeDigits 0 literal.whole
  let (significand, ignored) := takeDigits whole fraction
  let exponent := literal.exponent.getD 0 + leftOut.length - (fraction.length - ignored.length : Nat)
  (Binary64.scaleByTen? (Binary64.nearestMagnitude significand 1) exponent).map fun magnitude =>
    .real (.ofMagnitude literal.negative magnitude)

/-- The number that a literal stands for. A literal without point and exponent is a whole number where 64 bits hold it;
`-0` is the negative zero of the doubles. -/
def value? (literal : NumberLiteral) : Option JsonNumber :=
  match literal.fraction, literal.exponent with
  | none, none =>
      let value := digitsValue literal.whole
      if literal.negative then
        if 0 < value ∧ value ≤ UInt64.size / 2 then some (.negative value) else literal.toReal?
      else if value < UInt64.size then some (.natural value) else literal.toReal?
  | _, _ => literal.toReal?

end NumberLiteral

/-- Reads a number behind its sign. In a skipped number the end of the text is no different from any other
character that cannot stand there, and the value plays no role. -/
def readNumber (mode : Mode) (negative : Bool) : Reader Json := fun text =>
  match mode, readLiteral negative text with
  | .kept, .error fault => .error fault
  | .skipped, .error _ => .error .malformed
  | .skipped, .ok (_, rest) => .ok (.null, rest)
  | .kept, .ok (literal, rest) =>
      match literal.value? with
      | some value => .ok (.number value, rest)
      | none => .error .malformed

end ScriptBytecode.Json
