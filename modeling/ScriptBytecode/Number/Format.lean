import ScriptBytecode.Number.Shortest

/-!
# The text of a number

A `NumberFormat` holds the decisions that a text format makes about its numbers: how a tie is broken, which numbers
are written without an exponent, and whether a whole number keeps a point. Everything else is common to all formats.
-/

namespace ScriptBytecode

/-- How a text format writes its numbers. -/
structure NumberFormat where
  /-- Which of two equally near shortest decimals is written. -/
  ties : TieRule
  /-- Whether a number whose first digit counts `10 ^ e` is written without an exponent. -/
  isPositional : Int → Bool
  /-- Whether a whole number written without an exponent ends in `.0`. -/
  keepsPoint : Bool

namespace NumberFormat

/-- Digits times `10 ^ exponent`, written without an exponent. -/
def positional (format : NumberFormat) (digits : List Char) (exponent : Int) : List Char :=
  if 0 ≤ exponent then
    digits ++ List.replicate exponent.toNat '0' ++ (if format.keepsPoint then ['.', '0'] else [])
  else
    let places := (-exponent).toNat
    if places < digits.length then
      digits.take (digits.length - places) ++ '.' :: digits.drop (digits.length - places)
    else
      '0' :: '.' :: List.replicate (places - digits.length) '0' ++ digits

/-- Digits of which the first one counts `10 ^ leading`, written with an exponent that always has its sign. -/
def scientific (digits : List Char) (leading : Int) : List Char :=
  let fraction := digits.drop 1
  digits.take 1 ++ (if fraction.isEmpty then [] else '.' :: fraction) ++
    'e' :: (if leading < 0 then '-' else '+') :: Nat.toDigits 10 leading.natAbs

/-- The text of a double. -/
def write (format : NumberFormat) (x : Binary64) : List Char :=
  if x.isNaN then "NaN".toList
  else
    let sign := if x.isNegative then ['-'] else []
    if !x.isFinite then sign ++ "inf".toList
    else if x.isZero then sign ++ format.positional ['0'] 0
    else
      let decimal := Binary64.shortest format.ties x.magnitude
      let digits := Nat.toDigits 10 decimal.digits
      let leading := decimal.exponent + digits.length - 1
      sign ++
        if format.isPositional leading then format.positional digits decimal.exponent
        else scientific digits leading

end NumberFormat
end ScriptBytecode
