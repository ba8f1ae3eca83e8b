import ScriptBytecode.Number.Binary64

/-!
# The double nearest to a decimal

`Binary64.nearestMagnitude` rounds a quotient of natural numbers to the nearest magnitude, a tie going to the even
one. In units of `2 ^ -1074` the doubles of one binade are the multiples of a power of two, so the rounding is one
division of whole numbers, and the exponent field counts how far that power is from the first one.
-/

namespace ScriptBytecode

/-- The whole number nearest to `numerator / denominator`; a tie goes to the even neighbour. -/
def roundHalfEven (numerator denominator : Nat) : Nat :=
  let quotient := numerator / denominator
  let remainder := numerator % denominator
  if 2 * remainder < denominator then quotient
  else if denominator < 2 * remainder then quotient + 1
  else if quotient % 2 = 0 then quotient
  else quotient + 1

namespace Binary64

/-- The magnitude nearest to `numerator / denominator`. It is at least `infinityMagnitude` when the quotient is too
large for a double. -/
def nearestMagnitude (numerator denominator : Nat) : Nat :=
  let scaled := numerator * unitsOfOne
  let shift := Nat.log2 (scaled / denominator) - 52
  shift * Nat.pow 2 52 + roundHalfEven scaled (denominator * Nat.pow 2 shift)

/-- The magnitude nearest to `digits * 10 ^ exponent`. Exponents so far out that the digits cannot bring the value
back into the range of the doubles are answered without computing the power. -/
def decimalMagnitude (digits : Nat) (exponent : Int) : Nat :=
  if digits = 0 then 0
  else if 400 ≤ exponent then infinityMagnitude
  else if exponent + Nat.log2 digits + 400 < 0 then 0
  else nearestMagnitude (digits * Nat.pow 10 exponent.toNat) (Nat.pow 10 (-exponent).toNat)

/-- The double nearest to `digits * 10 ^ exponent` with a sign, if that value is in the range of the doubles. -/
def ofDecimal? (negative : Bool) (digits : Nat) (exponent : Int) : Option Binary64 :=
  let magnitude := decimalMagnitude digits exponent
  if magnitude < infinityMagnitude then some (ofMagnitude negative magnitude) else none

end Binary64
end ScriptBytecode
