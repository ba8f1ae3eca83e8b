/-!
# Hexadecimal digits
-/

namespace ScriptBytecode

/-- The value of a hexadecimal digit of either case. -/
def hexDigit? (c : Char) : Option Nat :=
  if '0' ≤ c ∧ c ≤ '9' then some (c.toNat - '0'.toNat)
  else if 'a' ≤ c ∧ c ≤ 'f' then some (c.toNat - 'a'.toNat + 10)
  else if 'A' ≤ c ∧ c ≤ 'F' then some (c.toNat - 'A'.toNat + 10)
  else none

/-- The hexadecimal digit of a number below sixteen, in lower case. -/
def hexChar (value : Nat) : Char :=
  if value < 10 then Char.ofNat ('0'.toNat + value) else Char.ofNat ('a'.toNat + (value - 10))

/-- The number that hexadecimal digits spell, behind the digits of `value`. -/
def hexValue? : Nat → List Char → Option Nat
  | value, [] => some value
  | value, c :: digits =>
      match hexDigit? c with
      | some digit => hexValue? (value * 16 + digit) digits
      | none => none

end ScriptBytecode
