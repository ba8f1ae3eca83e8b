import ScriptBytecode.Number.Scaling
import ScriptBytecode.Proofs.NearestDouble

/-!
# Where scaling rounds only once

Whole numbers of 53 bits are doubles, and so are the powers of ten up to `10 ^ 22`, since what is odd in them has no more
bits than that. A product or quotient of two such doubles is rounded once, so scaling one by the other gives the double
nearest to the decimal (`scaleByTen?_nearestMagnitude`).
-/

namespace ScriptBytecode.Binary64

/-- Shifted up to 53 bits, a number begins with its leading bit. -/
theorem scaled_mem_binade {value : Nat} (hpositive : value ≠ 0) (h : value < 2 ^ 53) :
    2 ^ 52 ≤ value * 2 ^ (52 - Nat.log2 value) ∧ value * 2 ^ (52 - Nat.log2 value) < 2 ^ 53 := by
  have hlog : Nat.log2 value < 53 := (Nat.log2_lt hpositive).mpr h
  have hpower := Nat.two_pow_pos (52 - Nat.log2 value)
  have hlower := Nat.mul_le_mul_right (2 ^ (52 - Nat.log2 value)) (Nat.log2_self_le hpositive)
  have hupper := Nat.mul_lt_mul_of_pos_right (@Nat.lt_log2_self value) hpower
  rw [← Nat.pow_add, show Nat.log2 value + (52 - Nat.log2 value) = 52 by omega] at hlower
  rw [← Nat.pow_add, show Nat.log2 value + 1 + (52 - Nat.log2 value) = 53 by omega] at hupper
  exact ⟨hlower, hupper⟩

/-- A number of 53 bits, shifted up by any number of places, is the value of a magnitude. -/
theorem exists_unitsOfMagnitude_eq {value : Nat} (h : value < 2 ^ 53) (shift : Nat) :
    ∃ magnitude, unitsOfMagnitude magnitude = value * 2 ^ shift * unitsOfOne := by
  by_cases hzero : value = 0
  · exact ⟨0, by simp [hzero, unitsOfMagnitude_eq]⟩
  · obtain ⟨hlower, hupper⟩ := scaled_mem_binade hzero h
    have hlog : Nat.log2 value < 53 := (Nat.log2_lt hzero).mpr h
    obtain ⟨fraction, hfraction⟩ := Nat.exists_eq_add_of_le hlower
    -- The exponent field counts the binades from the one of the smallest normal double on.
    have hfield : ((1023 + Nat.log2 value + shift) * 2 ^ 52 + fraction) / 2 ^ 52 = 1023 + Nat.log2 value + shift := by
      omega
    have hrest : ((1023 + Nat.log2 value + shift) * 2 ^ 52 + fraction) % 2 ^ 52 = fraction := by omega
    refine ⟨(1023 + Nat.log2 value + shift) * 2 ^ 52 + fraction, ?_⟩
    rw [unitsOfMagnitude_eq, hfield, hrest, if_neg (by omega), ← hfraction, unitsOfOne_eq, Nat.mul_assoc, Nat.mul_assoc,
      ← Nat.pow_add, ← Nat.pow_add, unitPlaces_eq]
    congr 2
    omega

/-- What is the value of a magnitude is not rounded. -/
theorem unitsOfMagnitude_nearestMagnitude {value magnitude : Nat}
    (h : unitsOfMagnitude magnitude = value * unitsOfOne) :
    unitsOfMagnitude (nearestMagnitude value 1) = value * unitsOfOne := by
  have hnearest : nearestMagnitude value 1 = magnitude :=
    calc
      nearestMagnitude value 1 = nearestMagnitude (unitsOfMagnitude magnitude) unitsOfOne :=
        nearestMagnitude_congr Nat.one_pos unitsOfOne_pos (by rw [h, Nat.mul_one])
      _ = magnitude := nearestMagnitude_units magnitude
  rw [hnearest, h]

theorem unitsOfMagnitude_significand {value : Nat} (h : value < 2 ^ 53) :
    unitsOfMagnitude (nearestMagnitude value 1) = value * unitsOfOne := by
  obtain ⟨magnitude, hmagnitude⟩ := exists_unitsOfMagnitude_eq h 0
  rw [Nat.pow_zero, Nat.mul_one] at hmagnitude
  exact unitsOfMagnitude_nearestMagnitude hmagnitude

theorem unitsOfMagnitude_powerOfTen {places : Nat} (h : places ≤ 22) :
    unitsOfMagnitude (powerOfTen places) = 10 ^ places * unitsOfOne := by
  have hodd : 5 ^ places < 2 ^ 53 :=
    calc
      5 ^ places ≤ 5 ^ 22 := Nat.pow_le_pow_right (by omega) h
      _ < 2 ^ 53 := by decide
  obtain ⟨magnitude, hmagnitude⟩ := exists_unitsOfMagnitude_eq hodd places
  rw [← Nat.mul_pow] at hmagnitude
  exact unitsOfMagnitude_nearestMagnitude hmagnitude

section Operations

variable {x y a b : Nat}

theorem mulMagnitude_eq (hx : unitsOfMagnitude x = a * unitsOfOne) (hy : unitsOfMagnitude y = b * unitsOfOne) :
    mulMagnitude x y = nearestMagnitude (a * b) 1 := by
  unfold mulMagnitude
  rw [hx, hy]
  refine nearestMagnitude_congr (Nat.mul_pos unitsOfOne_pos unitsOfOne_pos) Nat.one_pos ?_
  rw [Nat.mul_one, Nat.mul_mul_mul_comm]

theorem divMagnitude_eq (hx : unitsOfMagnitude x = a * unitsOfOne) (hy : unitsOfMagnitude y = b * unitsOfOne) :
    divMagnitude x y = nearestMagnitude a b := by
  unfold divMagnitude
  rw [hx, hy, Nat.mul_comm a, Nat.mul_comm b]
  exact nearestMagnitude_mul unitsOfOne_pos a b

end Operations

/-- A significand of 53 bits with a power of ten up to `10 ^ 22` becomes the double nearest to the decimal. -/
theorem scaleByTen?_nearestMagnitude {digits magnitude : Nat} {exponent : Int} (hdigits : digits < 2 ^ 53)
    (hlower : -22 ≤ exponent) (hupper : exponent ≤ 22) (hfinite : magnitude < infinityMagnitude)
    (h : decimalMagnitude digits exponent = magnitude) :
    scaleByTen? (nearestMagnitude digits 1) exponent = some magnitude := by
  have hunits := unitsOfMagnitude_significand hdigits
  rw [decimalMagnitude_eq_iff hfinite] at h
  unfold scaleByTen?
  by_cases hnatural : 0 ≤ exponent
  · have hplaces : exponent.toNat ≤ greatestPower := by
      unfold greatestPower
      omega
    have hproduct := mulMagnitude_eq hunits (unitsOfMagnitude_powerOfTen (show exponent.toNat ≤ 22 by omega))
    rw [show (-exponent).toNat = 0 by omega, Nat.pow_zero] at h
    rw [if_pos hnatural, mulPowerOfTen?, if_pos hplaces]
    simp only [hproduct, h, hfinite, if_true]
  · have hplaces : (-exponent).toNat ≤ greatestPower := by
      unfold greatestPower
      omega
    have hquotient := divMagnitude_eq hunits (unitsOfMagnitude_powerOfTen (show (-exponent).toNat ≤ 22 by omega))
    rw [show exponent.toNat = 0 by omega, Nat.pow_zero, Nat.mul_one] at h
    rw [if_neg hnatural, divPowerOfTen, if_pos hplaces, hquotient, h]

end ScriptBytecode.Binary64
