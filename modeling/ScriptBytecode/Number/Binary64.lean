/-!
# Doubles as bit patterns

A number of a script is an IEEE 754 double. It is kept as its 64 bits, so that equality of values is equality of
bits: the two zeros are different numbers here, and a NaN equals itself. The comparison of the standard, for which
neither holds, is `Binary64.ieeeEq`.

The bits below the sign are called the *magnitude*. Magnitudes are ordered as the absolute values that they stand
for, and `Binary64.unitsOfMagnitude` gives that absolute value as a whole number of the smallest positive double,
which is `2 ^ -1074`.
-/

namespace ScriptBytecode

/-- An IEEE 754 double, identified by its 64 bits. -/
structure Binary64 where
  bits : UInt64
deriving DecidableEq

namespace Binary64

/-- The magnitude of the infinities; the finite doubles are the ones below it, the NaNs the ones above it. -/
def infinityMagnitude : Nat := 2047 * Nat.pow 2 52

/-- All bits but the sign. -/
def magnitude (x : Binary64) : Nat :=
  x.bits.toNat % Nat.pow 2 63

/-- The sign bit. -/
def isNegative (x : Binary64) : Bool :=
  decide (Nat.pow 2 63 ≤ x.bits.toNat)

/-- The double with a given sign and magnitude. -/
def ofMagnitude (negative : Bool) (magnitude : Nat) : Binary64 :=
  ⟨UInt64.ofNat (if negative then Nat.pow 2 63 + magnitude else magnitude)⟩

def isFinite (x : Binary64) : Bool :=
  decide (x.magnitude < infinityMagnitude)

def isNaN (x : Binary64) : Bool :=
  decide (infinityMagnitude < x.magnitude)

def isZero (x : Binary64) : Bool :=
  decide (x.magnitude = 0)

/-- Equality in the sense of the standard: a NaN differs from everything, and the two zeros are equal. -/
def ieeeEq (x y : Binary64) : Bool :=
  !x.isNaN && !y.isNaN && (decide (x = y) || (x.isZero && y.isZero))

/-- The smallest positive double is two to the minus this power. -/
def unitPlaces : Nat := 1074

/-- The number one, in units of `2 ^ -1074`. -/
def unitsOfOne : Nat := Nat.pow 2 unitPlaces

/-- The absolute value with a given magnitude, in units of `2 ^ -1074`. -/
def unitsOfMagnitude (magnitude : Nat) : Nat :=
  let exponentField := magnitude / Nat.pow 2 52
  let fraction := magnitude % Nat.pow 2 52
  if exponentField = 0 then fraction else (Nat.pow 2 52 + fraction) * Nat.pow 2 (exponentField - 1)

end Binary64
end ScriptBytecode
