import ScriptBytecode.Number.Nearest

/-!
# The fewest digits that read back

Every finite double is a whole number of units of `10 ^ -1074`, its exact decimal. `Binary64.shortest` cuts that
decimal after one digit, after two, and so on, and stops at the first cut of which one of the two neighbours, the
decimal below or the decimal above, reads back as the double. If both do, the nearer one is taken, and an exact tie
is decided by a `TieRule`.
-/

namespace ScriptBytecode

/-- The decimal `digits * 10 ^ exponent`. -/
structure Decimal where
  digits : Nat
  exponent : Int
deriving DecidableEq

/-- Which of two equally near decimals is written. -/
inductive TieRule where
  | up
  | toEven
deriving DecidableEq

namespace Decimal

/-- The same value without trailing zeros in the digits. -/
def stripZeros (digits : Nat) (exponent : Int) : Decimal :=
  if digits ≠ 0 ∧ digits % 10 = 0 then stripZeros (digits / 10) (exponent + 1)
  else ⟨digits, exponent⟩
termination_by digits
decreasing_by omega

end Decimal

namespace Binary64

/-- The exact decimal of a magnitude, in units of `10 ^ -1074`. -/
def exactDecimal (magnitude : Nat) : Nat :=
  unitsOfMagnitude magnitude * Nat.pow 5 unitPlaces

/-- The neighbour of `exact` on the grid of `10 ^ dropped` that reads back as `magnitude`, if there is one. -/
def neighbourReadingBack? (ties : TieRule) (magnitude exact dropped : Nat) : Option Decimal :=
  let step := Nat.pow 10 dropped
  let below := exact / step
  let above := below + 1
  let exponent : Int := (dropped : Int) - unitPlaces
  let readsBack (digits : Nat) : Bool := decimalMagnitude digits exponent == magnitude
  match readsBack below, readsBack above with
  | false, false => none
  | true, false => some ⟨below, exponent⟩
  | false, true => some ⟨above, exponent⟩
  | true, true =>
      let remainder := exact % step
      if 2 * remainder < step then some ⟨below, exponent⟩
      else if step < 2 * remainder then some ⟨above, exponent⟩
      else match ties with
        | .up => some ⟨above, exponent⟩
        | .toEven => some ⟨if below % 2 = 0 then below else above, exponent⟩

/-- The decimal with the fewest digits that reads back as a finite magnitude. Seventeen digits always suffice, and the
exact decimal stands behind them. -/
def shortest (ties : TieRule) (magnitude : Nat) : Decimal :=
  let exact := exactDecimal magnitude
  let length := (Nat.toDigits 10 exact).length
  let found := (List.range 17).findSome? fun kept =>
    neighbourReadingBack? ties magnitude exact (length - (kept + 1))
  let decimal := found.getD ⟨exact, -(unitPlaces : Int)⟩
  Decimal.stripZeros decimal.digits decimal.exponent

end Binary64
end ScriptBytecode
