import ScriptBytecode.Hexadecimal
import ScriptBytecode.Number.Nearest

/-!
# Numbers of a settings file

Digits may be grouped by single underscores between them, and a decimal number has no leading zeros. A number that is
well formed can still be out of range: whole numbers have 128 bits, and a float must not be too large for a double.
-/

namespace ScriptBytecode.Toml

/-- Whether digits stand in a number, with single underscores only between digits. -/
def isDigitGroup (isDigit : Char → Bool) : List Char → Bool
  | [] => false
  | [c] => isDigit c
  | c :: '_' :: rest => isDigit c && isDigitGroup isDigit rest
  | c :: rest => isDigit c && isDigitGroup isDigit rest

def isDigitOfBase (base : Nat) (c : Char) : Bool :=
  match hexDigit? c with
  | some digit => decide (digit < base)
  | none => false

/-- The value of digits to a base, underscores passed over. -/
def digitsToBase (base : Nat) (digits : List Char) : Nat :=
  digits.foldl (fun value c => match hexDigit? c with | some digit => value * base + digit | none => value) 0

/-- The value of grouped digits to a base. -/
def groupValue? (base : Nat) (digits : List Char) : Option Nat :=
  if isDigitGroup (isDigitOfBase base) digits then some (digitsToBase base digits) else none

/-- Whether digits are a decimal number without leading zeros. -/
def isDecimal (digits : List Char) : Bool :=
  isDigitGroup Char.isDigit digits && (digits.head? != some '0' || digits.length == 1)

def dropSign : List Char → List Char
  | '+' :: rest => rest
  | '-' :: rest => rest
  | text => text

def isNegative (token : List Char) : Bool :=
  token.head? == some '-'

/-- The magnitude of the whole number that a token spells. Only decimal numbers have a sign. -/
def integerMagnitude? (token : List Char) : Option Nat :=
  match token with
  | '0' :: 'x' :: digits => groupValue? 16 digits
  | '0' :: 'o' :: digits => groupValue? 8 digits
  | '0' :: 'b' :: digits => groupValue? 2 digits
  | token => if isDecimal (dropSign token) then groupValue? 10 (dropSign token) else none

/-- Whether a whole number is in range. -/
def isIntegerInRange (negative : Bool) (magnitude : Nat) : Bool :=
  if negative then decide (magnitude ≤ Nat.pow 2 127) else decide (magnitude < Nat.pow 2 128)

/-- The value of an exponent with its letter; no exponent is an exponent of zero. -/
def exponent? : List Char → Option Int
  | [] => some 0
  | c :: rest =>
      if c = 'e' ∨ c = 'E' then do
        let magnitude ← groupValue? 10 (dropSign rest)
        return if isNegative rest then -(magnitude : Int) else magnitude
      else none

/-- Whether a float with given parts is in range. -/
def isFloatInRange (whole fraction : List Char) (exponent : Int) : Bool :=
  let places := fraction.countP Char.isDigit
  (Binary64.ofDecimal? false (digitsToBase 10 (whole ++ fraction)) (exponent - places)).isSome

/-- Whether a token is a float, and if so, whether it is in range. -/
def floatInRange? (token : List Char) : Option Bool :=
  let unsigned := dropSign token
  let isGroupChar (c : Char) : Bool := c.isDigit || c == '_'
  let whole := unsigned.takeWhile isGroupChar
  if unsigned = "inf".toList ∨ unsigned = "nan".toList then some true
  else if isDecimal whole then
    match unsigned.dropWhile isGroupChar with
    | [] => none
    | '.' :: rest => do
        let fraction := rest.takeWhile isGroupChar
        let exponent ← exponent? (rest.dropWhile isGroupChar)
        if isDigitGroup Char.isDigit fraction then some (isFloatInRange whole fraction exponent) else none
    | rest => do
        let exponent ← exponent? rest
        return isFloatInRange whole [] exponent
  else none

/-- Whether a token is a number, and if so, whether it is in range. -/
def numberInRange? (token : List Char) : Option Bool :=
  match integerMagnitude? token with
  | some magnitude => some (isIntegerInRange (isNegative token) magnitude)
  | none => floatInRange? token

end ScriptBytecode.Toml
