import ScriptBytecode.Json.Reader
import ScriptBytecode.Json.Writer
import ScriptBytecode.Proofs.ExactScaling

/-!
# Numbers in documents

A number is spelled by its digits, with a fraction and an exponent if it has them (`IsLiteral`). The reader takes such a
spelling apart as it was put together, as long as a delimiter follows it. So a whole number is read back from its digits.

The text that `numberFormat` gives of a finite double spells the shortest decimal that is rounded to this double. The
reader, however, rounds the digits and the power of ten before it rounds their product, so it may give a neighbour of the
double instead. Whether it gives the double itself can be computed (`readsBack`), and it does for every decimal that is
short enough for the first two roundings to change nothing (`readsBack_of_short`).
-/

namespace ScriptBytecode.Json

/-! ## Runs of digits -/

/-- At least one character, and nothing but digits. -/
def IsDigits (digits : List Char) : Prop :=
  digits ≠ [] ∧ ∀ c ∈ digits, c.isDigit = true

/-- The digits before the point: a leading zero stands alone. -/
def IsWhole (digits : List Char) : Prop :=
  IsDigits digits ∧ (digits = ['0'] ∨ digits.head? ≠ some '0')

/-- No digit follows. -/
def NoDigitFollows (rest : List Char) : Prop :=
  ∀ c ∈ rest.head?, c.isDigit = false

theorem isDigits_toDigits (value : Nat) : IsDigits (Nat.toDigits 10 value) :=
  ⟨Nat.toDigits_ne_nil, fun _ hmem => Nat.isDigit_of_mem_toDigits (by omega) (by omega) hmem⟩

theorem isDigits_zero : IsDigits ['0'] :=
  Nat.toDigits_zero 10 ▸ isDigits_toDigits 0

theorem IsDigits.append_left {digits more : List Char} (h : IsDigits digits) (hmore : ∀ c ∈ more, c.isDigit = true) :
    IsDigits (digits ++ more) := by
  refine ⟨by simp [h.1], ?_⟩
  intro c hmem
  rcases List.mem_append.mp hmem with hfirst | hlast
  · exact h.2 c hfirst
  · exact hmore c hlast

/-- The digits of a positive number begin with another digit than zero. -/
theorem head?_toDigits_ne_zero {value : Nat} (h : value ≠ 0) : (Nat.toDigits 10 value).head? ≠ some '0' := by
  induction value using Nat.strongRecOn with
  | ind value ih =>
      by_cases hsmall : value < 10
      · rw [Nat.toDigits_of_lt_base hsmall]
        have hchars : ∀ digit : Fin 10, digit.val ≠ 0 → [digit.val.digitChar].head? ≠ some '0' := by decide
        exact hchars ⟨value, hsmall⟩ h
      · have htens := ih (value / 10) (by omega) (by omega)
        rw [Nat.toDigits_of_base_le (by omega) (by omega)]
        cases hdigits : Nat.toDigits 10 (value / 10) with
        | nil => exact absurd hdigits Nat.toDigits_ne_nil
        | cons c digits =>
            rw [hdigits] at htens
            exact htens

theorem isWhole_toDigits (value : Nat) : IsWhole (Nat.toDigits 10 value) := by
  refine ⟨isDigits_toDigits value, ?_⟩
  by_cases hzero : value = 0
  · exact Or.inl (by rw [hzero, Nat.toDigits_zero])
  · exact Or.inr (head?_toDigits_ne_zero hzero)

@[simp] theorem digitsValue_toDigits (value : Nat) : digitsValue (Nat.toDigits 10 value) = value :=
  Nat.ofDigitChars_ten_toDigits

/-- Zeros at the end multiply by ten. -/
theorem digitsValue_append_zeros (digits : List Char) (count : Nat) :
    digitsValue (digits ++ List.replicate count '0') = digitsValue digits * 10 ^ count := by
  unfold digitsValue
  rw [Nat.ofDigitChars_append, Nat.ofDigitChars_replicate_zero, Nat.mul_comm]

/-- Zeros at the front do not count. -/
theorem digitsValue_zeros_append (digits : List Char) (count : Nat) :
    digitsValue (List.replicate count '0' ++ digits) = digitsValue digits := by
  unfold digitsValue
  rw [Nat.ofDigitChars_append, Nat.ofDigitChars_replicate_zero, Nat.mul_zero]

theorem readDigits_append {digits rest : List Char} (h : IsDigits digits) (hrest : NoDigitFollows rest) :
    readDigits (digits ++ rest) = .ok (digits, rest) := by
  obtain ⟨hne, hall⟩ := h
  cases digits with
  | nil => exact absurd rfl hne
  | cons c digits =>
      have hfirst : c.isDigit = true := hall c List.mem_cons_self
      have hothers : ∀ d ∈ digits, d.isDigit = true := fun d hmem => hall d (List.mem_cons_of_mem c hmem)
      have htake : rest.takeWhile Char.isDigit = [] := by
        cases rest with
        | nil => rfl
        | cons d rest => simp [hrest d rfl]
      have hdrop : rest.dropWhile Char.isDigit = rest := by
        cases rest with
        | nil => rfl
        | cons d rest => simp [hrest d rfl]
      simp [readDigits, hfirst, List.takeWhile_append_of_pos hothers, List.dropWhile_append_of_pos hothers, htake, hdrop]

/-! ## Literals -/

theorem readWhole_append {digits rest : List Char} (h : IsWhole digits) (hrest : NoDigitFollows rest) :
    readWhole (digits ++ rest) = .ok (digits, rest) := by
  obtain ⟨hdigits, rfl | hhead⟩ := h
  · cases rest with
    | nil => exact readDigits_append hdigits hrest
    | cons c rest => simp [readWhole, hrest c rfl]
  · have hread := readDigits_append hdigits hrest
    unfold readWhole
    split
    · rename_i heq
      cases digits with
      | nil => exact absurd rfl hdigits.1
      | cons d digits =>
          obtain ⟨rfl, -⟩ := List.cons_eq_cons.mp heq
          exact absurd rfl hhead
    · exact hread

/-- The point with the digits behind it. -/
def fractionText : Option (List Char) → List Char
  | none => []
  | some digits => '.' :: digits

/-- The letter of the exponent with a sign and digits behind it. -/
def exponentText : Option (Bool × List Char) → List Char
  | none => []
  | some (negative, digits) => 'e' :: (if negative then '-' else '+') :: digits

/-- The value of an exponent. -/
def exponentValue : Bool × List Char → Int
  | (negative, digits) => if negative then -(digitsValue digits : Int) else digitsValue digits

/-- What may stand behind a value: a blank, a comma or a closing bracket, or the end of the text. -/
def Delimited (rest : List Char) : Prop :=
  ∀ c ∈ rest.head?, isBlank c = true ∨ c = ',' ∨ c = ']' ∨ c = '\x7d'

theorem delimited_nil : Delimited [] :=
  fun _ hc => nomatch hc

/-- A delimiter does not go on with a number. -/
theorem Delimited.not_mem {rest : List Char} (h : Delimited rest) {c : Char} (hc : c ∈ rest.head?) :
    c.isDigit = false ∧ c ≠ '.' ∧ c ≠ 'e' ∧ c ≠ 'E' := by
  rcases h c hc with hblank | rfl | rfl | rfl
  · simp only [isBlank, Bool.or_eq_true, beq_iff_eq] at hblank
    rcases hblank with ((rfl | rfl) | rfl) | rfl <;> decide
  · decide
  · decide
  · decide

theorem readFraction_append {fraction : Option (List Char)} {rest : List Char}
    (h : ∀ digits ∈ fraction, IsDigits digits) (hrest : NoDigitFollows rest) (hpoint : '.' ∉ rest.head?) :
    readFraction (fractionText fraction ++ rest) = .ok (fraction, rest) := by
  cases fraction with
  | some digits =>
      have hread := readDigits_append (h digits rfl) hrest
      show (readDigits (digits ++ rest) >>= fun read => pure (some read.1, read.2)) = _
      rw [hread]
      rfl
  | none =>
      unfold readFraction
      split
      · rename_i heq
        have hrest' : rest = '.' :: _ := heq
        exact absurd (by rw [hrest']; rfl) hpoint
      · rfl

theorem readExponent_append {exponent : Option (Bool × List Char)} {rest : List Char}
    (h : ∀ spelled ∈ exponent, IsDigits spelled.2) (hrest : Delimited rest) :
    readExponent (exponentText exponent ++ rest) = .ok (exponent.map exponentValue, rest) := by
  cases exponent with
  | none =>
      cases rest with
      | nil => rfl
      | cons c rest =>
          obtain ⟨-, -, hlower, hupper⟩ := hrest.not_mem rfl
          simp [exponentText, readExponent, hlower, hupper]
  | some spelled =>
      obtain ⟨negative, digits⟩ := spelled
      have hread := readDigits_append (h _ rfl) fun c hc => (hrest.not_mem hc).1
      cases negative with
      | true =>
          show (readDigits (digits ++ rest) >>= fun read => pure (some (-(digitsValue read.1 : Int)), read.2)) = _
          rw [hread]
          rfl
      | false =>
          show (readDigits (digits ++ rest) >>= fun read => pure (some (digitsValue read.1 : Int), read.2)) = _
          rw [hread]
          rfl

/-- The text of a literal: its digits, and the fraction and the exponent that it has. -/
structure IsLiteral (whole : List Char) (fraction : Option (List Char)) (exponent : Option (Bool × List Char))
    (text : List Char) : Prop where
  text_eq : text = whole ++ (fractionText fraction ++ exponentText exponent)
  whole : IsWhole whole
  fraction : ∀ digits ∈ fraction, IsDigits digits
  exponent : ∀ spelled ∈ exponent, IsDigits spelled.2

section Literal

variable {whole text rest : List Char} {fraction : Option (List Char)} {exponent : Option (Bool × List Char)}

/-- A literal is read as it is spelled. -/
theorem IsLiteral.readLiteral_append (h : IsLiteral whole fraction exponent text) (hrest : Delimited rest)
    (negative : Bool) :
    readLiteral negative (text ++ rest) = .ok (⟨negative, whole, fraction, exponent.map exponentValue⟩, rest) := by
  have hexponentFollows : ∀ c ∈ (exponentText exponent ++ rest).head?, c.isDigit = false ∧ c ≠ '.' := by
    intro c hc
    cases exponent with
    | none => exact ⟨(hrest.not_mem hc).1, (hrest.not_mem hc).2.1⟩
    | some spelled =>
        obtain rfl := Option.some.inj hc
        decide
  have hfractionFollows : NoDigitFollows (fractionText fraction ++ (exponentText exponent ++ rest)) := by
    intro c hc
    cases fraction with
    | none => exact (hexponentFollows c hc).1
    | some digits =>
        obtain rfl := Option.some.inj hc
        decide
  have hwhole := readWhole_append h.whole hfractionFollows
  have hfraction := readFraction_append h.fraction (fun c hc => (hexponentFollows c hc).1)
    (fun hc => (hexponentFollows _ hc).2 rfl)
  have hexponent := readExponent_append h.exponent hrest
  rw [h.text_eq, List.append_assoc, List.append_assoc]
  simp only [readLiteral, hwhole, hfraction, hexponent, bind, Except.bind, pure, Except.pure]

/-- A literal begins with a digit. -/
theorem IsLiteral.exists_cons (h : IsLiteral whole fraction exponent text) :
    ∃ c more, text = c :: more ∧ c.isDigit = true := by
  obtain ⟨⟨hne, hall⟩, -⟩ := h.whole
  cases whole with
  | nil => exact absurd rfl hne
  | cons c digits => exact ⟨c, _, h.text_eq, hall c List.mem_cons_self⟩

end Literal

theorem isLiteral_toDigits (value : Nat) : IsLiteral (Nat.toDigits 10 value) none none (Nat.toDigits 10 value) where
  text_eq := (List.append_nil _).symm
  whole := isWhole_toDigits value
  fraction := fun _ hmem => nomatch hmem
  exponent := fun _ hmem => nomatch hmem

/-! ## Doubles -/

theorem le_ofDigitChars (digits : List Char) (significand : Nat) : significand ≤ Nat.ofDigitChars 10 digits significand := by
  induction digits generalizing significand with
  | nil => exact Nat.le_refl _
  | cons c digits ih =>
      have hrest := ih (10 * significand + (c.toNat - '0'.toNat))
      rw [Nat.ofDigitChars_cons]
      omega

/-- No digit is left out of a significand that 64 bits hold. -/
theorem takeDigits_eq {digits : List Char} {significand : Nat}
    (h : Nat.ofDigitChars 10 digits significand < UInt64.size) :
    NumberLiteral.takeDigits significand digits = (Nat.ofDigitChars 10 digits significand, []) := by
  induction digits generalizing significand with
  | nil => rfl
  | cons c digits ih =>
      rw [Nat.ofDigitChars_cons] at h ⊢
      have hlonger : 10 * significand + (c.toNat - '0'.toNat) < UInt64.size := Nat.lt_of_le_of_lt (le_ofDigitChars digits _) h
      rw [NumberLiteral.takeDigits, if_pos hlonger]
      exact ih h

/-- A literal with few digits and a small exponent is read as the double nearest to its decimal. -/
theorem toReal?_of_short {negative : Bool} {whole : List Char} {fraction : Option (List Char)} {spelled : Option Int}
    {digits magnitude : Nat} {exponent : Int} (hvalue : digitsValue (whole ++ fraction.getD []) = digits)
    (hpoint : spelled.getD 0 - (fraction.getD []).length = exponent) (hdigits : digits < 2 ^ 53) (hexponent : exponent.natAbs ≤ 22)
    (hfinite : magnitude < Binary64.infinityMagnitude) (h : Binary64.decimalMagnitude digits exponent = magnitude) :
    NumberLiteral.toReal? ⟨negative, whole, fraction, spelled⟩ = some (.real (.ofMagnitude negative magnitude)) := by
  have happend : Nat.ofDigitChars 10 (fraction.getD []) (digitsValue whole) = digits :=
    (Nat.ofDigitChars_append 0).symm.trans hvalue
  have hsize : digits < UInt64.size := Nat.lt_trans hdigits (by decide)
  have hwhole : NumberLiteral.takeDigits 0 whole = (digitsValue whole, []) :=
    takeDigits_eq (Nat.lt_of_le_of_lt (le_ofDigitChars (fraction.getD []) _) (happend ▸ hsize))
  have hboth : NumberLiteral.takeDigits (digitsValue whole) (fraction.getD []) = (digits, []) :=
    happend ▸ takeDigits_eq (happend ▸ hsize)
  have hscaled := Binary64.scaleByTen?_nearestMagnitude hdigits (by omega) (by omega) hfinite h
  simp [NumberLiteral.toReal?, hwhole, hboth, hpoint, hscaled]

/-- A text with a point or an exponent that spells a decimal, perhaps with some of its zeros among the digits. -/
def SpellsDecimal (decimal : Decimal) (text : List Char) : Prop :=
  ∃ whole fraction exponent zeros, IsLiteral whole fraction exponent text ∧
    (fraction.isSome = true ∨ exponent.isSome = true) ∧ zeros ≤ (decimal.exponent + 1).toNat ∧
      digitsValue (whole ++ fraction.getD []) = decimal.digits * 10 ^ zeros ∧
        (exponent.map exponentValue).getD 0 - (fraction.getD []).length = decimal.exponent - zeros

section Spelling

variable {digits : List Char} {exponent : Int}

theorem isDigit_of_mem_zeros {count : Nat} : ∀ c ∈ List.replicate count '0', c.isDigit = true := by
  intro c hmem
  rw [List.eq_of_mem_replicate hmem]
  decide

theorem spellsDecimal_zero : SpellsDecimal ⟨0, 0⟩ ['0', '.', '0'] := by
  refine ⟨['0'], some ['0'], none, 1, ⟨rfl, ⟨isDigits_zero, Or.inl rfl⟩, ?_, ?_⟩, Or.inl rfl, ?_, rfl, rfl⟩
  · rintro _ ⟨⟩
    exact isDigits_zero
  · exact fun _ hmem => nomatch hmem
  · simp

/-- A number of at least one digit before the point: the zeros up to the point, and one behind it. -/
theorem spellsDecimal_whole (hdigits : IsDigits digits) (hhead : digits.head? ≠ some '0') (count : Nat) :
    SpellsDecimal ⟨digitsValue digits, count⟩ (digits ++ List.replicate count '0' ++ ['.', '0']) := by
  refine ⟨digits ++ List.replicate count '0', some ['0'], none, count + 1, ⟨rfl, ?_, ?_, ?_⟩, Or.inl rfl, ?_, ?_, ?_⟩
  · refine ⟨hdigits.append_left isDigit_of_mem_zeros, Or.inr ?_⟩
    cases digits with
    | nil => exact absurd rfl hdigits.1
    | cons c digits => exact hhead
  · rintro _ ⟨⟩
    exact isDigits_zero
  · exact fun _ hmem => nomatch hmem
  · show count + 1 ≤ ((count : Int) + 1).toNat
    omega
  · show digitsValue (digits ++ List.replicate count '0' ++ List.replicate 1 '0') = digitsValue digits * 10 ^ (count + 1)
    rw [digitsValue_append_zeros, digitsValue_append_zeros, Nat.mul_assoc, Nat.pow_add]
  · show (0 : Int) - 1 = count - (count + 1 : Nat)
    omega

/-- A number with the point between its digits. -/
theorem spellsDecimal_split (hdigits : IsDigits digits) (hhead : digits.head? ≠ some '0') {places : Nat}
    (hpositive : 0 < places) (hlt : places < digits.length) :
    SpellsDecimal ⟨digitsValue digits, -(places : Int)⟩
      (digits.take (digits.length - places) ++ '.' :: digits.drop (digits.length - places)) := by
  refine ⟨digits.take (digits.length - places), some (digits.drop (digits.length - places)), none, 0, ⟨?_, ?_, ?_, ?_⟩,
    Or.inl rfl, Nat.zero_le _, ?_, ?_⟩
  · simp [fractionText, exponentText]
  · refine ⟨⟨?_, fun c hmem => hdigits.2 c (List.mem_of_mem_take hmem)⟩, Or.inr ?_⟩
    · rw [← List.length_pos_iff, List.length_take]
      omega
    · rw [List.head?_take, if_neg (by omega)]
      exact hhead
  · rintro _ ⟨⟩
    refine ⟨?_, fun c hmem => hdigits.2 c (List.mem_of_mem_drop hmem)⟩
    rw [← List.length_pos_iff, List.length_drop]
    omega
  · exact fun _ hmem => nomatch hmem
  · rw [Option.getD_some, List.take_append_drop, Nat.pow_zero, Nat.mul_one]
  · rw [Option.getD_some, List.length_drop]
    simp only [Option.map_none, Option.getD_none]
    omega

/-- A number below one: zeros from the point up to its digits. -/
theorem spellsDecimal_below (hdigits : IsDigits digits) {places : Nat} (hle : digits.length ≤ places) :
    SpellsDecimal ⟨digitsValue digits, -(places : Int)⟩
      ('0' :: '.' :: List.replicate (places - digits.length) '0' ++ digits) := by
  refine ⟨['0'], some (List.replicate (places - digits.length) '0' ++ digits), none, 0, ⟨?_, ?_, ?_, ?_⟩, Or.inl rfl,
    Nat.zero_le _, ?_, ?_⟩
  · simp [fractionText, exponentText]
  · exact ⟨isDigits_zero, Or.inl rfl⟩
  · rintro _ ⟨⟩
    refine ⟨by simp [hdigits.1], ?_⟩
    intro c hmem
    rcases List.mem_append.mp hmem with hzero | hdigit
    · exact isDigit_of_mem_zeros c hzero
    · exact hdigits.2 c hdigit
  · exact fun _ hmem => nomatch hmem
  · show digitsValue (List.replicate 1 '0' ++ (List.replicate _ '0' ++ digits)) = digitsValue digits * 10 ^ 0
    rw [digitsValue_zeros_append, digitsValue_zeros_append, Nat.pow_zero, Nat.mul_one]
  · rw [Option.getD_some, List.length_append, List.length_replicate]
    simp only [Option.map_none, Option.getD_none]
    omega

/-- The spelling without an exponent. -/
theorem spellsDecimal_positional (hdigits : IsDigits digits) (hhead : digits.head? ≠ some '0') :
    SpellsDecimal ⟨digitsValue digits, exponent⟩ (numberFormat.positional digits exponent) := by
  unfold NumberFormat.positional
  by_cases hwhole : 0 ≤ exponent
  · obtain ⟨count, rfl⟩ := Int.eq_ofNat_of_zero_le hwhole
    rw [if_pos hwhole]
    exact spellsDecimal_whole hdigits hhead count
  · obtain ⟨places, rfl⟩ : ∃ places : Nat, exponent = -(places : Int) := ⟨(-exponent).toNat, by omega⟩
    rw [if_neg hwhole]
    have hplaces : (- -(places : Int)).toNat = places := by omega
    dsimp only
    rw [hplaces]
    by_cases hsplit : places < digits.length
    · rw [if_pos hsplit]
      exact spellsDecimal_split hdigits hhead (by omega) hsplit
    · rw [if_neg hsplit]
      exact spellsDecimal_below hdigits (by omega)

theorem exponentValue_toDigits (exponent : Int) :
    exponentValue (decide (exponent < 0), Nat.toDigits 10 exponent.natAbs) = exponent := by
  by_cases hnegative : exponent < 0
  · simp only [exponentValue, hnegative, decide_true, if_true, digitsValue_toDigits]
    omega
  · simp only [exponentValue, hnegative, decide_false, Bool.false_eq_true, if_false, digitsValue_toDigits]
    omega

/-- The spelling with an exponent. -/
theorem spellsDecimal_scientific (hdigits : IsDigits digits) (hhead : digits.head? ≠ some '0') :
    SpellsDecimal ⟨digitsValue digits, exponent⟩ (NumberFormat.scientific digits (exponent + digits.length - 1)) := by
  cases digits with
  | nil => exact absurd rfl hdigits.1
  | cons first others =>
      -- The first digit counts `10 ^ leading`, and each of the others moves the point by one place.
      have hleading : exponent + (first :: others).length - 1 = exponent + others.length := by
        rw [List.length_cons]
        omega
      rw [hleading]
      generalize hlead : exponent + (others.length : Int) = leading
      have hfirst : IsWhole [first] :=
        ⟨⟨by simp, fun c hmem => hdigits.2 c (List.mem_singleton.mp hmem ▸ List.mem_cons_self)⟩, Or.inr hhead⟩
      have hothers : ∀ c ∈ others, c.isDigit = true := fun c hmem => hdigits.2 c (List.mem_cons_of_mem first hmem)
      have hexponent : ∀ spelled ∈ some (decide (leading < 0), Nat.toDigits 10 leading.natAbs), IsDigits spelled.2 := by
        rintro _ ⟨⟩
        exact isDigits_toDigits _
      cases others with
      | nil =>
          refine ⟨[first], none, some (decide (leading < 0), Nat.toDigits 10 leading.natAbs), 0,
            ⟨?_, hfirst, (fun _ hmem => nomatch hmem), hexponent⟩, Or.inr rfl, Nat.zero_le _, ?_, ?_⟩
          · simp [NumberFormat.scientific, fractionText, exponentText]
          · simp
          · rw [Option.map_some, Option.getD_some, exponentValue_toDigits, ← hlead]
            simp
      | cons second others =>
          refine ⟨[first], some (second :: others), some (decide (leading < 0), Nat.toDigits 10 leading.natAbs), 0,
            ⟨?_, hfirst, ?_, hexponent⟩, Or.inr rfl, Nat.zero_le _, ?_, ?_⟩
          · simp [NumberFormat.scientific, fractionText, exponentText]
          · rintro _ ⟨⟩
            exact ⟨by simp, hothers⟩
          · rw [Option.getD_some, Nat.pow_zero, Nat.mul_one]
            rfl
          · rw [Option.map_some, Option.getD_some, exponentValue_toDigits, ← hlead, Option.getD_some]
            simp

end Spelling

/-- The decimal that documents give of a finite double: the shortest one that is rounded to it. -/
def writtenDecimal (value : Binary64) : Decimal :=
  if value.isZero then ⟨0, 0⟩ else Binary64.shortest numberFormat.ties value.magnitude

section Written

variable {value : Binary64}

theorem decimalMagnitude_writtenDecimal (h : value.isFinite = true) :
    Binary64.decimalMagnitude (writtenDecimal value).digits (writtenDecimal value).exponent = value.magnitude := by
  unfold writtenDecimal
  split
  · rename_i hzero
    have hmagnitude : value.magnitude = 0 := of_decide_eq_true hzero
    rw [hmagnitude, Binary64.decimalMagnitude_eq, if_pos rfl]
  · exact Binary64.decimalMagnitude_shortest _ (of_decide_eq_true h)

theorem exists_spellsDecimal_write (h : value.isFinite = true) :
    ∃ text, numberFormat.write value = (if value.isNegative then ['-'] else []) ++ text ∧
      SpellsDecimal (writtenDecimal value) text := by
  have hfinite : value.magnitude < Binary64.infinityMagnitude := of_decide_eq_true h
  have hnumber : value.isNaN = false := decide_eq_false (by omega)
  have hvalue := decimalMagnitude_writtenDecimal h
  unfold NumberFormat.write
  unfold writtenDecimal at hvalue ⊢
  simp only [hnumber, h, Bool.false_eq_true, if_false, Bool.not_true]
  by_cases hzero : value.isZero = true
  · rw [if_pos hzero, if_pos hzero]
    exact ⟨_, rfl, spellsDecimal_zero⟩
  · rw [if_neg hzero] at hvalue
    rw [if_neg hzero, if_neg hzero]
    generalize Binary64.shortest numberFormat.ties value.magnitude = decimal at hvalue ⊢
    obtain ⟨digits, exponent⟩ := decimal
    have hne : digits ≠ 0 := by
      rintro rfl
      rw [Binary64.decimalMagnitude_eq, if_pos rfl] at hvalue
      exact hzero (decide_eq_true hvalue.symm)
    have hdigits := isDigits_toDigits digits
    have hhead := head?_toDigits_ne_zero hne
    have hpositional := @spellsDecimal_positional _ exponent hdigits hhead
    have hscientific := @spellsDecimal_scientific _ exponent hdigits hhead
    rw [digitsValue_toDigits] at hpositional hscientific
    refine ⟨_, rfl, ?_⟩
    split
    · exact hpositional
    · exact hscientific

end Written

/-! ## Numbers -/

theorem ofMagnitude_magnitude (value : Binary64) : Binary64.ofMagnitude value.isNegative value.magnitude = value := by
  have hlt := value.bits.toNat_lt
  have hbits : (if value.isNegative = true then 2 ^ 63 + value.magnitude else value.magnitude) = value.bits.toNat := by
    unfold Binary64.isNegative Binary64.magnitude
    rw [Nat.pow_eq]
    by_cases hnegative : 2 ^ 63 ≤ value.bits.toNat
    · rw [if_pos (decide_eq_true hnegative)]
      omega
    · rw [if_neg (by simpa using hnegative)]
      omega
  unfold Binary64.ofMagnitude
  rw [Nat.pow_eq, hbits, UInt64.ofNat_toNat]

/-- A text that is read as a number: digits, perhaps behind a sign. -/
def ReadsNumber (value : JsonNumber) (text : List Char) : Prop :=
  ∃ negative digits, text = (if negative then ['-'] else []) ++ digits ∧
    (∃ c more, digits = c :: more ∧ c.isDigit = true) ∧
      ∀ rest, Delimited rest → readNumber .kept negative (digits ++ rest) = .ok (.number value, rest)

theorem IsLiteral.readNumber_append {whole text rest : List Char} {fraction : Option (List Char)}
    {exponent : Option (Bool × List Char)} {negative : Bool} {value : JsonNumber}
    (h : IsLiteral whole fraction exponent text)
    (hvalue : NumberLiteral.value? ⟨negative, whole, fraction, exponent.map exponentValue⟩ = some value)
    (hrest : Delimited rest) : readNumber .kept negative (text ++ rest) = .ok (.number value, rest) := by
  simp only [readNumber, h.readLiteral_append hrest negative, hvalue]

/-- A text is read behind its sign. -/
theorem readValue_signed {text : List Char} (h : ∃ c more, text = c :: more ∧ c.isDigit = true) (mode : Mode)
    (brackets : Nat) (negative : Bool) :
    readValue mode brackets ((if negative then ['-'] else []) ++ text) = readNumber mode negative text := by
  obtain ⟨c, more, rfl, hdigit⟩ := h
  have hother : ∀ d, d.isDigit = false → c ≠ d := by
    rintro d hd rfl
    rw [hd] at hdigit
    exact nomatch hdigit
  unfold readValue
  cases negative with
  | true => simp [skipBlanks, isBlank]
  | false =>
      have hblank : isBlank c = false := by
        simp [isBlank, hother ' ' (by decide), hother '\t' (by decide), hother '\n' (by decide), hother '\r' (by decide)]
      simp only [Bool.false_eq_true, if_false, List.nil_append, skipBlanks, List.dropWhile_cons, hblank]
      simp only [hother '"' (by decide), hother '[' (by decide), hother '\x7b' (by decide), hother 'n' (by decide),
        hother 't' (by decide), hother 'f' (by decide), hother '-' (by decide), hdigit, if_false, if_true]

/-- Whether the text that documents give of a double is read as this double. -/
def readsBack (value : Binary64) : Bool :=
  match readValue .kept 0 (numberFormat.write value) with
  | .ok (.number (.real read), []) => decide (read = value)
  | _ => false

theorem readsBack_eq_true_iff {value : Binary64} :
    readsBack value = true ↔ readValue .kept 0 (numberFormat.write value) = .ok (.number (.real value), []) := by
  unfold readsBack
  constructor
  · intro h
    split at h
    · rename_i read hread
      rw [hread, of_decide_eq_true h]
    · cases h
  · intro h
    simp [h]

/-- Neither an infinity nor a NaN is read back. -/
theorem isFinite_of_readsBack {value : Binary64} (h : readsBack value = true) : value.isFinite = true := by
  cases hinfinite : value.isFinite with
  | true => rfl
  | false =>
      rw [readsBack_eq_true_iff] at h
      unfold NumberFormat.write at h
      cases hnumber : value.isNaN with
      | true => simp [hnumber, readValue, skipBlanks, isBlank] at h
      | false =>
          cases hsign : value.isNegative <;>
            simp [hnumber, hsign, hinfinite, readValue, readNumber, readLiteral, readWhole, readDigits, skipBlanks, isBlank,
              bind, Except.bind] at h

/-- What reads back on its own reads back wherever it stands. -/
theorem readsNumber_of_readsBack {value : Binary64} (h : readsBack value = true) :
    ReadsNumber (.real value) (numberFormat.write value) := by
  obtain ⟨text, htext, whole, fraction, exponent, zeros, hliteral, -⟩ := exists_spellsDecimal_write (isFinite_of_readsBack h)
  have halone := hliteral.readLiteral_append delimited_nil value.isNegative
  have hread := readsBack_eq_true_iff.mp h
  rw [List.append_nil] at halone
  rw [htext, readValue_signed hliteral.exists_cons] at hread
  refine ⟨value.isNegative, text, htext, hliteral.exists_cons, fun rest hrest => hliteral.readNumber_append ?_ hrest⟩
  cases hvalue : NumberLiteral.value? ⟨value.isNegative, whole, fraction, exponent.map exponentValue⟩ with
  | none => simp [readNumber, halone, hvalue] at hread
  | some read =>
      simp only [readNumber, halone, hvalue, Except.ok.injEq, Prod.mk.injEq, Json.number.injEq, and_true] at hread
      rw [hread]

/-- A double is read back if all digits of its decimal, with the zeros up to the point and one behind it, fit into 53 bits,
and the point is no further than 22 places from them. -/
theorem readsBack_of_short {value : Binary64} (hfinite : value.isFinite = true)
    (hdigits : (writtenDecimal value).digits * 10 ^ ((writtenDecimal value).exponent + 1).toNat < 2 ^ 53)
    (hexponent : (writtenDecimal value).exponent.natAbs ≤ 22) : readsBack value = true := by
  have hmagnitude := decimalMagnitude_writtenDecimal hfinite
  obtain ⟨text, htext, whole, fraction, spelled, zeros, hliteral, hreal, hzeros, hvalue, hpoint⟩ :=
    exists_spellsDecimal_write hfinite
  generalize writtenDecimal value = decimal at hmagnitude hdigits hexponent hzeros hvalue hpoint
  obtain ⟨digits, exponent⟩ := decimal
  dsimp only at hmagnitude hdigits hexponent hzeros hvalue hpoint
  have hfits : digits * 10 ^ zeros < 2 ^ 53 :=
    Nat.lt_of_le_of_lt (Nat.mul_le_mul_left _ (Nat.pow_le_pow_right (by omega) hzeros)) hdigits
  have hrounded : Binary64.decimalMagnitude (digits * 10 ^ zeros) (exponent - zeros) = value.magnitude := by
    refine Binary64.decimalMagnitude_congr (of_decide_eq_true hfinite) ?_ hmagnitude
    rw [Nat.mul_assoc, Nat.mul_assoc, Nat.mul_assoc, ← Nat.pow_add, ← Nat.pow_add, ← Nat.pow_add]
    congr 2
    omega
  have hmade : NumberLiteral.toReal? ⟨value.isNegative, whole, fraction, spelled.map exponentValue⟩ =
      some (.real value) := by
    rw [toReal?_of_short hvalue hpoint hfits (by omega) (of_decide_eq_true hfinite) hrounded, ofMagnitude_magnitude]
  have hread : NumberLiteral.value? ⟨value.isNegative, whole, fraction, spelled.map exponentValue⟩ = some (.real value) := by
    unfold NumberLiteral.value?
    cases fraction with
    | some digits => exact hmade
    | none =>
        cases spelled with
        | some spelled => exact hmade
        | none => simp at hreal
  have halone := hliteral.readNumber_append hread delimited_nil
  rw [List.append_nil] at halone
  rw [readsBack_eq_true_iff, htext, readValue_signed hliteral.exists_cons, halone]

/-- A number that documents can hold, and that is read back from them. -/
def IsWritableNumber : JsonNumber → Prop
  | .natural value => value < 2 ^ 64
  | .negative value => 0 < value ∧ value ≤ 2 ^ 63
  | .real value => readsBack value = true

theorem readsNumber_writeNumber {value : JsonNumber} (h : IsWritableNumber value) : ReadsNumber value (writeNumber value) := by
  cases value with
  | natural value =>
      have hvalue : NumberLiteral.value? ⟨false, Nat.toDigits 10 value, none, none⟩ = some (.natural value) := by
        simp only [NumberLiteral.value?, digitsValue_toDigits, Bool.false_eq_true, if_false]
        exact if_pos h
      refine ⟨false, Nat.toDigits 10 value, rfl, (isLiteral_toDigits value).exists_cons, ?_⟩
      exact fun rest hrest => (isLiteral_toDigits value).readNumber_append hvalue hrest
  | negative value =>
      have hvalue : NumberLiteral.value? ⟨true, Nat.toDigits 10 value, none, none⟩ = some (.negative value) := by
        simp only [NumberLiteral.value?, digitsValue_toDigits, if_true]
        exact if_pos h
      refine ⟨true, Nat.toDigits 10 value, rfl, (isLiteral_toDigits value).exists_cons, ?_⟩
      exact fun rest hrest => (isLiteral_toDigits value).readNumber_append hvalue hrest
  | real value => exact readsNumber_of_readsBack h

end ScriptBytecode.Json
