import ScriptBytecode.Settings.Toml.Layout

/-!
# Dates and times of a settings file

A moment is a date, a time of day, or both with a `T` or a blank between them; only a moment with both may say how far
it is from universal time. Seconds may be left out, and a minute may have a leap second. The value of a moment plays no
role, but a day that is not in the calendar is refused.
-/

namespace ScriptBytecode.Toml

/-- The number that decimal digits spell. -/
def decimalValue (digits : List Char) : Nat :=
  Nat.ofDigitChars 10 digits 0

/-- Takes a number of a given count of digits. -/
def scanFixed (count : Nat) (text : List Char) : Option (Nat × List Char) :=
  let digits := text.take count
  if digits.length = count ∧ digits.all Char.isDigit then some (decimalValue digits, text.drop count) else none

/-- Takes a number of two digits that is not larger than a limit. -/
def scanUpTo (limit : Nat) (text : List Char) : Option (Nat × List Char) := do
  let (value, rest) ← scanFixed 2 text
  if value ≤ limit then some (value, rest) else none

/-- Takes a given character. -/
def skipChar (expected : Char) : List Char → Option (List Char)
  | [] => none
  | c :: rest => if c = expected then some rest else none

def isLeapYear (year : Nat) : Bool :=
  year % 4 == 0 && (year % 100 != 0 || year % 400 == 0)

/-- How many days a month has; months are counted from one. -/
def daysInMonth (year month : Nat) : Nat :=
  if month = 2 then (if isLeapYear year then 29 else 28)
  else if month = 4 ∨ month = 6 ∨ month = 9 ∨ month = 11 then 30
  else 31

/-- Skips a date. -/
def skipDate (text : List Char) : Option (List Char) := do
  let (year, rest) ← scanFixed 4 text
  let rest ← skipChar '-' rest
  let (month, rest) ← scanUpTo 12 rest
  let rest ← skipChar '-' rest
  let (day, rest) ← scanUpTo (daysInMonth year month) rest
  if 1 ≤ month ∧ 1 ≤ day then some rest else none

/-- Skips the fraction of a second, if there is one. -/
def skipFraction : List Char → Option (List Char)
  | '.' :: rest =>
      if (rest.takeWhile Char.isDigit).isEmpty then none else some (rest.dropWhile Char.isDigit)
  | rest => some rest

/-- Skips the seconds of a time, if there are any. -/
def skipSeconds : List Char → Option (List Char)
  | ':' :: rest => do
      let (_, rest) ← scanUpTo 60 rest
      skipFraction rest
  | rest => some rest

/-- Skips hours and minutes. -/
def skipMinutes (text : List Char) : Option (List Char) := do
  let (_, rest) ← scanUpTo 23 text
  let rest ← skipChar ':' rest
  let (_, rest) ← scanUpTo 59 rest
  return rest

/-- Skips a time of day. -/
def skipTime (text : List Char) : Option (List Char) := do
  let rest ← skipMinutes text
  skipSeconds rest

/-- Skips the distance from universal time, if it is given. -/
def skipOffset : List Char → Option (List Char)
  | [] => some []
  | c :: rest =>
      if c = 'Z' ∨ c = 'z' then some rest
      else if c = '+' ∨ c = '-' then skipMinutes rest
      else none

/-- Whether a token is a moment. -/
def isMoment (token : List Char) : Bool :=
  match skipDate token with
  | none => skipTime token == some []
  | some [] => true
  | some (c :: rest) =>
      (c == 'T' || c == 't' || c == ' ') && (skipTime rest).bind skipOffset == some []

end ScriptBytecode.Toml
