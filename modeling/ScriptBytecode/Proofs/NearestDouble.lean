import Mathlib.Algebra.Group.Nat.Defs
import ScriptBytecode.Number.Shortest

/-!
# Decimals that read back

Rounding to the nearest double depends on the value of a quotient only, not on its numerator and denominator
(`nearestMagnitude_congr`). The bounds on the exponent in `decimalMagnitude` answer what the rounding would have answered
(`decimalMagnitude_eq_iff`). So the decimal that `shortest` gives for a finite double reads back as this double: its
digits were tried out, or they are the exact decimal of the double, and zeros at their end do not change the value.
-/

namespace ScriptBytecode

/-! ## Rounding quotients -/

theorem roundHalfEven_mul {scale : Nat} (hscale : 0 < scale) (numerator denominator : Nat) :
    roundHalfEven (scale * numerator) (scale * denominator) = roundHalfEven numerator denominator := by
  have hdouble : ∀ r, 2 * (scale * r) = scale * (2 * r) := fun r => Nat.mul_left_comm 2 scale r
  unfold roundHalfEven
  simp only [Nat.mul_div_mul_left _ _ hscale, Nat.mul_mod_mul_left, hdouble, Nat.mul_lt_mul_left hscale]

/-- A whole number is not rounded. -/
theorem roundHalfEven_mul_self (value : Nat) {denominator : Nat} (h : 0 < denominator) :
    roundHalfEven (value * denominator) denominator = value := by
  have hdouble : 2 * (value * denominator % denominator) < denominator := by
    rw [Nat.mul_mod_left]
    omega
  unfold roundHalfEven
  rw [if_pos hdouble]
  exact Nat.mul_div_cancel value h

/-- Less than a half is rounded to nothing. -/
theorem roundHalfEven_eq_zero {numerator denominator : Nat} (h : 2 * numerator < denominator) :
    roundHalfEven numerator denominator = 0 := by
  have hlt : numerator < denominator := by omega
  unfold roundHalfEven
  rw [Nat.div_eq_of_lt hlt, Nat.mod_eq_of_lt hlt, if_pos h]

namespace Binary64

theorem nearestMagnitude_eq (numerator denominator : Nat) :
    nearestMagnitude numerator denominator =
      (Nat.log2 (numerator * unitsOfOne / denominator) - 52) * 2 ^ 52 +
        roundHalfEven (numerator * unitsOfOne)
          (denominator * 2 ^ (Nat.log2 (numerator * unitsOfOne / denominator) - 52)) :=
  rfl

theorem unitPlaces_eq : unitPlaces = 1074 :=
  rfl

theorem unitsOfOne_eq : unitsOfOne = 2 ^ unitPlaces := by
  unfold unitsOfOne
  -- With the exponent at hand the power would be written out.
  generalize unitPlaces = places
  rfl

theorem unitsOfOne_pos : 0 < unitsOfOne := by
  rw [unitsOfOne_eq]
  exact Nat.two_pow_pos _

theorem unitsOfMagnitude_eq (magnitude : Nat) :
    unitsOfMagnitude magnitude =
      if magnitude / 2 ^ 52 = 0 then magnitude % 2 ^ 52
      else (2 ^ 52 + magnitude % 2 ^ 52) * 2 ^ (magnitude / 2 ^ 52 - 1) :=
  rfl

theorem decimalMagnitude_eq (digits : Nat) (exponent : Int) :
    decimalMagnitude digits exponent =
      if digits = 0 then 0
      else if 400 ≤ exponent then infinityMagnitude
      else if exponent + Nat.log2 digits + 400 < 0 then 0
      else nearestMagnitude (digits * 10 ^ exponent.toNat) (10 ^ (-exponent).toNat) :=
  rfl

theorem nearestMagnitude_mul {scale : Nat} (hscale : 0 < scale) (numerator denominator : Nat) :
    nearestMagnitude (scale * numerator) (scale * denominator) = nearestMagnitude numerator denominator := by
  simp only [nearestMagnitude_eq, Nat.mul_assoc scale, Nat.mul_div_mul_left _ _ hscale, roundHalfEven_mul hscale]

/-- The nearest magnitude depends on the value of the quotient only. -/
theorem nearestMagnitude_congr {numerator denominator other divisor : Nat} (hdenominator : 0 < denominator)
    (hdivisor : 0 < divisor) (h : numerator * divisor = other * denominator) :
    nearestMagnitude numerator denominator = nearestMagnitude other divisor :=
  calc
    nearestMagnitude numerator denominator
      = nearestMagnitude (divisor * numerator) (divisor * denominator) :=
        (nearestMagnitude_mul hdivisor numerator denominator).symm
    _ = nearestMagnitude (denominator * other) (denominator * divisor) := by
        rw [Nat.mul_comm divisor numerator, h, Nat.mul_comm other denominator, Nat.mul_comm divisor denominator]
    _ = nearestMagnitude other divisor := nearestMagnitude_mul hdenominator other divisor

/-- The leading bit of a significand stands above its 52 bits, however far they are shifted. -/
theorem log2_significand {fraction shift : Nat} (h : fraction < 2 ^ 52) :
    Nat.log2 ((2 ^ 52 + fraction) * 2 ^ shift) = 52 + shift := by
  have hpositive : 0 < 2 ^ shift := Nat.two_pow_pos shift
  have hlower : 2 ^ 52 * 2 ^ shift ≤ (2 ^ 52 + fraction) * 2 ^ shift :=
    Nat.mul_le_mul_right _ (Nat.le_add_right _ _)
  have hupper : (2 ^ 52 + fraction) * 2 ^ shift < 2 ^ 53 * 2 ^ shift :=
    Nat.mul_lt_mul_of_pos_right (by omega) hpositive
  rw [Nat.log2_eq_iff (by omega)]
  rw [Nat.pow_add, Nat.add_right_comm, Nat.pow_add]
  exact ⟨hlower, hupper⟩

/-- The value of a magnitude is nearest to this magnitude. -/
theorem nearestMagnitude_units (magnitude : Nat) :
    nearestMagnitude (unitsOfMagnitude magnitude) unitsOfOne = magnitude := by
  have hpositive := unitsOfOne_pos
  have hfraction : magnitude % 2 ^ 52 < 2 ^ 52 := Nat.mod_lt _ (Nat.two_pow_pos 52)
  have hparts : 2 ^ 52 * (magnitude / 2 ^ 52) + magnitude % 2 ^ 52 = magnitude := Nat.div_add_mod _ _
  rw [nearestMagnitude_eq]
  generalize unitsOfOne = unit at hpositive ⊢
  simp only [Nat.mul_div_cancel _ hpositive]
  rw [unitsOfMagnitude_eq]
  by_cases hsubnormal : magnitude / 2 ^ 52 = 0
  · simp only [hsubnormal, if_true]
    have hlog : Nat.log2 (magnitude % 2 ^ 52) - 52 = 0 := by
      by_cases hzero : magnitude % 2 ^ 52 = 0
      · rw [hzero, Nat.log2_zero]
      · have hlt := (Nat.log2_lt hzero).mpr hfraction
        omega
    rw [hsubnormal, Nat.mul_zero, Nat.zero_add] at hparts
    simp only [hlog, Nat.pow_zero, Nat.mul_one, roundHalfEven_mul_self _ hpositive, Nat.zero_mul, Nat.zero_add]
    exact hparts
  · simp only [hsubnormal, if_false]
    generalize hexponent : magnitude / 2 ^ 52 = exponent at hsubnormal hparts
    generalize magnitude % 2 ^ 52 = fraction at hfraction hparts
    rw [log2_significand hfraction, Nat.add_sub_cancel_left, Nat.mul_comm unit, Nat.mul_assoc,
      roundHalfEven_mul_self _ (Nat.mul_pos (Nat.two_pow_pos _) hpositive)]
    omega

theorem le_log2_mul_two_pow {bits places value : Nat} (h : 2 ^ bits ≤ value) :
    bits + places ≤ Nat.log2 (value * 2 ^ places) := by
  have hscaled : 2 ^ (bits + places) ≤ value * 2 ^ places := by
    rw [Nat.pow_add]
    exact Nat.mul_le_mul_right _ h
  have hne : value * 2 ^ places ≠ 0 := Nat.ne_of_gt (Nat.lt_of_lt_of_le (Nat.two_pow_pos _) hscaled)
  exact (Nat.le_log2 hne).mpr hscaled

/-- A value with more than 1025 bits is too large for a double. -/
theorem infinityMagnitude_le_nearestMagnitude {bits value : Nat} (hbits : 1025 ≤ bits) (h : 2 ^ bits ≤ value) :
    infinityMagnitude ≤ nearestMagnitude value 1 := by
  have hlog : bits + unitPlaces ≤ Nat.log2 (value * unitsOfOne) := by
    rw [unitsOfOne_eq]
    exact le_log2_mul_two_pow h
  rw [unitPlaces_eq] at hlog
  rw [nearestMagnitude_eq, infinityMagnitude, Nat.pow_eq]
  generalize value * unitsOfOne = scaled at hlog ⊢
  simp only [Nat.div_one]
  have hshift : 2047 * 2 ^ 52 ≤ (Nat.log2 scaled - 52) * 2 ^ 52 := Nat.mul_le_mul_right _ (by omega)
  exact Nat.le_trans hshift (Nat.le_add_right _ _)

/-- A value below the half of the smallest double is rounded to nothing. -/
theorem nearestMagnitude_eq_zero {numerator denominator : Nat} (h : 2 * (numerator * unitsOfOne) < denominator) :
    nearestMagnitude numerator denominator = 0 := by
  rw [nearestMagnitude_eq]
  generalize numerator * unitsOfOne = scaled at h ⊢
  have hquotient : scaled / denominator = 0 := Nat.div_eq_of_lt (by omega)
  have hround : roundHalfEven scaled denominator = 0 := roundHalfEven_eq_zero h
  simp [hquotient, hround]

/-! ## Decimals -/

theorem two_pow_le_ten_pow {bits places : Nat} (h : bits ≤ 3 * places) : 2 ^ bits ≤ 10 ^ places :=
  calc
    2 ^ bits ≤ 2 ^ (3 * places) := Nat.pow_le_pow_right (by omega) h
    _ = (2 ^ 3) ^ places := Nat.pow_mul 2 3 places
    _ ≤ 10 ^ places := Nat.pow_le_pow_left (by omega) places

/-- The bounds on the exponent do not change what a decimal is rounded to, as long as that is finite. -/
theorem decimalMagnitude_eq_iff {magnitude digits : Nat} {exponent : Int} (h : magnitude < infinityMagnitude) :
    decimalMagnitude digits exponent = magnitude ↔
      nearestMagnitude (digits * 10 ^ exponent.toNat) (10 ^ (-exponent).toNat) = magnitude := by
  rw [decimalMagnitude_eq]
  by_cases hzero : digits = 0
  · have hnearest : nearestMagnitude (digits * 10 ^ exponent.toNat) (10 ^ (-exponent).toNat) = 0 := by
      apply nearestMagnitude_eq_zero
      simp only [hzero, Nat.zero_mul, Nat.mul_zero]
      exact Nat.pow_pos (by omega)
    rw [if_pos hzero, hnearest]
  rw [if_neg hzero]
  by_cases hlarge : 400 ≤ exponent
  · rw [if_pos hlarge]
    have hinfinite : infinityMagnitude ≤ nearestMagnitude (digits * 10 ^ exponent.toNat) (10 ^ (-exponent).toNat) := by
      have hpower : 2 ^ (3 * exponent.toNat) ≤ digits * 10 ^ exponent.toNat :=
        Nat.le_trans (two_pow_le_ten_pow (Nat.le_refl _)) (Nat.le_mul_of_pos_left _ (by omega))
      rw [show (-exponent).toNat = 0 by omega, Nat.pow_zero]
      exact infinityMagnitude_le_nearestMagnitude (by omega) hpower
    constructor
    · intro heq
      omega
    · intro heq
      omega
  rw [if_neg hlarge]
  by_cases hsmall : exponent + Nat.log2 digits + 400 < 0
  · rw [if_pos hsmall]
    have hnearest : nearestMagnitude (digits * 10 ^ exponent.toNat) (10 ^ (-exponent).toNat) = 0 := by
      -- The digits have fewer bits than the power of ten has, by more than the doubles have below one.
      have hdigits : digits < 2 ^ (Nat.log2 digits + 1) := Nat.lt_log2_self
      have hplaces := unitPlaces_eq
      have hpower : 2 ^ (1 + (Nat.log2 digits + 1 + unitPlaces)) ≤ 10 ^ (-exponent).toNat :=
        two_pow_le_ten_pow (by omega)
      apply nearestMagnitude_eq_zero
      rw [show exponent.toNat = 0 by omega, Nat.pow_zero, Nat.mul_one, unitsOfOne_eq]
      refine Nat.lt_of_lt_of_le ?_ hpower
      rw [Nat.pow_add, Nat.pow_one, Nat.pow_add]
      exact Nat.mul_lt_mul_of_pos_left (Nat.mul_lt_mul_of_pos_right hdigits (Nat.two_pow_pos _)) (by omega)
    rw [hnearest]
  · rw [if_neg hsmall]

/-- What a decimal is rounded to depends on its value only. -/
theorem decimalMagnitude_congr {magnitude digits others : Nat} {exponent other : Int}
    (hfinite : magnitude < infinityMagnitude)
    (hvalue : digits * 10 ^ exponent.toNat * 10 ^ (-other).toNat = others * 10 ^ other.toNat * 10 ^ (-exponent).toNat)
    (h : decimalMagnitude digits exponent = magnitude) : decimalMagnitude others other = magnitude := by
  rw [decimalMagnitude_eq_iff hfinite] at h ⊢
  rw [← h]
  exact (nearestMagnitude_congr (Nat.pow_pos (by omega)) (Nat.pow_pos (by omega)) hvalue).symm

theorem decimalMagnitude_stripZeros {magnitude digits : Nat} {exponent : Int} (hfinite : magnitude < infinityMagnitude)
    (h : decimalMagnitude digits exponent = magnitude) :
    decimalMagnitude (Decimal.stripZeros digits exponent).digits (Decimal.stripZeros digits exponent).exponent =
      magnitude := by
  fun_induction Decimal.stripZeros digits exponent with
  | case1 digits exponent hzeros ih =>
      apply ih
      refine decimalMagnitude_congr hfinite ?_ h
      obtain ⟨tens, rfl⟩ : ∃ tens, digits = tens * 10 := ⟨digits / 10, by omega⟩
      rw [Nat.mul_div_cancel _ (by omega)]
      by_cases hnegative : exponent < 0
      · rw [show exponent.toNat = 0 by omega, show (exponent + 1).toNat = 0 by omega,
          show (-exponent).toNat = (-(exponent + 1)).toNat + 1 by omega, Nat.pow_succ]
        simp only [Nat.pow_zero, Nat.mul_one, Nat.mul_assoc]
        rw [Nat.mul_comm 10]
      · rw [show (-exponent).toNat = 0 by omega, show (-(exponent + 1)).toNat = 0 by omega,
          show (exponent + 1).toNat = exponent.toNat + 1 by omega, Nat.pow_succ]
        simp only [Nat.pow_zero, Nat.mul_one, Nat.mul_assoc]
        rw [Nat.mul_comm 10]
  | case2 digits exponent hlast => exact h

/-- A whole number of units of a power of two, as a whole number of units of that power of ten. -/
theorem decimalMagnitude_mul_five_pow {magnitude value places : Nat} (hfinite : magnitude < infinityMagnitude)
    (h : nearestMagnitude value (2 ^ places) = magnitude) :
    decimalMagnitude (value * 5 ^ places) (-(places : Int)) = magnitude := by
  rw [decimalMagnitude_eq_iff hfinite, show (-(places : Int)).toNat = 0 by omega,
    show (- -(places : Int)).toNat = places by omega, Nat.pow_zero, Nat.mul_one, show 10 = 5 * 2 from rfl, Nat.mul_pow,
    Nat.mul_comm value]
  exact (nearestMagnitude_mul (Nat.pow_pos (by omega)) value (2 ^ places)).trans h

/-! ## The shortest decimal -/

theorem decimalMagnitude_exactDecimal {magnitude : Nat} (hfinite : magnitude < infinityMagnitude) :
    decimalMagnitude (exactDecimal magnitude) (-(unitPlaces : Int)) = magnitude := by
  have hunits := nearestMagnitude_units magnitude
  rw [unitsOfOne_eq] at hunits
  unfold exactDecimal
  generalize unitPlaces = places at hunits ⊢
  exact decimalMagnitude_mul_five_pow hfinite hunits

/-- A neighbour is taken only if it reads back. -/
theorem decimalMagnitude_of_neighbourReadingBack? {ties : TieRule} {magnitude exact dropped : Nat} {decimal : Decimal}
    (h : neighbourReadingBack? ties magnitude exact dropped = some decimal) :
    decimalMagnitude decimal.digits decimal.exponent = magnitude := by
  unfold neighbourReadingBack? at h
  dsimp only at h
  generalize exact / Nat.pow 10 dropped = below at h
  split at h
  · exact nomatch h
  · rename_i hbelow _
    obtain rfl := Option.some.inj h
    exact eq_of_beq hbelow
  · rename_i _ habove
    obtain rfl := Option.some.inj h
    exact eq_of_beq habove
  · rename_i hbelow habove
    -- Both read back, so it does not matter which one is nearer.
    split at h
    · obtain rfl := Option.some.inj h
      exact eq_of_beq hbelow
    · split at h
      · obtain rfl := Option.some.inj h
        exact eq_of_beq habove
      · cases ties with
        | up =>
            obtain rfl := Option.some.inj h
            exact eq_of_beq habove
        | toEven =>
            obtain rfl := Option.some.inj h
            dsimp only
            split
            · exact eq_of_beq hbelow
            · exact eq_of_beq habove

/-- The shortest decimal of a finite double reads back as this double. -/
theorem decimalMagnitude_shortest (ties : TieRule) {magnitude : Nat} (hfinite : magnitude < infinityMagnitude) :
    decimalMagnitude (shortest ties magnitude).digits (shortest ties magnitude).exponent = magnitude := by
  unfold shortest
  apply decimalMagnitude_stripZeros hfinite
  cases hfound : (List.range 17).findSome? fun kept =>
      neighbourReadingBack? ties magnitude (exactDecimal magnitude)
        ((Nat.toDigits 10 (exactDecimal magnitude)).length - (kept + 1)) with
  | none => exact decimalMagnitude_exactDecimal hfinite
  | some decimal =>
      obtain ⟨kept, -, hneighbour⟩ := List.exists_of_findSome?_eq_some hfound
      exact decimalMagnitude_of_neighbourReadingBack? hneighbour

end Binary64
end ScriptBytecode
