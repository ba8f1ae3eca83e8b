import ScriptBytecode.Number.Nearest

/-!
# Scaling a double by a power of ten

Documents give a number as a significand and a power of ten. The reader rounds the significand, rounds the power, and
rounds their product or quotient once more, so what it gives may be next to the nearest double. Where the significand
and the power are doubles themselves, only the last rounding is left.
-/

namespace ScriptBytecode.Binary64

/-- The product of two magnitudes, rounded. -/
def mulMagnitude (x y : Nat) : Nat :=
  nearestMagnitude (unitsOfMagnitude x * unitsOfMagnitude y) (unitsOfOne * unitsOfOne)

/-- The quotient of two magnitudes, rounded. -/
def divMagnitude (x y : Nat) : Nat :=
  nearestMagnitude (unitsOfMagnitude x) (unitsOfMagnitude y)

/-- The powers of ten up to this one are in the range of the doubles. -/
def greatestPower : Nat := 308

/-- The magnitude nearest to a power of ten. -/
def powerOfTen (exponent : Nat) : Nat :=
  nearestMagnitude (Nat.pow 10 exponent) 1

/-- A magnitude divided by a power of ten. A power beyond the range is taken in steps, until nothing is left of the
magnitude. -/
def divPowerOfTen (magnitude places : Nat) : Nat :=
  if places ≤ greatestPower then divMagnitude magnitude (powerOfTen places)
  else if magnitude = 0 then 0
  else divPowerOfTen (divMagnitude magnitude (powerOfTen greatestPower)) (places - greatestPower)
termination_by places
decreasing_by simp only [greatestPower] at *; omega

/-- A magnitude multiplied by a power of ten, if the product is in the range of the doubles. -/
def mulPowerOfTen? (magnitude places : Nat) : Option Nat :=
  if places ≤ greatestPower then
    let product := mulMagnitude magnitude (powerOfTen places)
    if product < infinityMagnitude then some product else none
  else if magnitude = 0 then some 0
  else none

/-- A magnitude times `10 ^ exponent`, if that is in the range of the doubles. -/
def scaleByTen? (magnitude : Nat) (exponent : Int) : Option Nat :=
  if 0 ≤ exponent then mulPowerOfTen? magnitude exponent.toNat
  else some (divPowerOfTen magnitude (-exponent).toNat)

end ScriptBytecode.Binary64
