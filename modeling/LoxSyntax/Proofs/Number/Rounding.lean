import Mathlib.Algebra.Order.Field.Rat
import Mathlib.Algebra.Order.Field.Basic
import Mathlib.Tactic.Ring
import LoxSyntax.Number.Decimal

/-! # Rounding and back

Rounding looks at the value of a decimal only (`Decimal.nearest_congr`), and the shortest decimal of a
finite magnitude rounds to the magnitude again (`Magnitude.nearest_shortest`): it is either a hit of the
search, which asks for that, or the magnitude itself, which lies at its own place. -/

namespace LoxSyntax

namespace Magnitude

variable {num den num' den' : Nat} {m : Magnitude}

theorem divideToEven_mul {c : Nat} (hc : 0 < c) (num den : Nat) :
    divideToEven (num * c) (den * c) = divideToEven num den := by
  have hlt : ∀ a b : Nat, 2 * (a * c) < b * c ↔ 2 * a < b := fun a b => by
    rw [← Nat.mul_assoc, Nat.mul_lt_mul_right hc]
  have hgt : ∀ a b : Nat, b * c < 2 * (a * c) ↔ b < 2 * a := fun a b => by
    rw [← Nat.mul_assoc, Nat.mul_lt_mul_right hc]
  simp only [divideToEven, Nat.mul_div_mul_right _ _ hc, Nat.mul_mod_mul_right, hlt, hgt]

theorem nearest_mul {c : Nat} (hc : 0 < c) (num den : Nat) :
    nearest (num * c) (den * c) = nearest num den := by
  simp only [nearest, Nat.mul_right_comm _ c, Nat.mul_div_mul_right _ _ hc, divideToEven_mul hc]

/-- Rounding looks at the value of the quotient only. -/
theorem nearest_congr (hden : 0 < den) (hden' : 0 < den') (h : num * den' = num' * den) :
    nearest num den = nearest num' den' := by
  calc nearest num den
      = nearest (num * den') (den * den') := (nearest_mul hden' num den).symm
    _ = nearest (num' * den) (den' * den) := by rw [h, Nat.mul_comm den]
    _ = nearest num' den' := nearest_mul hden num' den'

end Magnitude

namespace Decimal

variable {d d' : Decimal}

/-- The number that a decimal is. -/
def value (d : Decimal) : ℚ := d.digits * 10 ^ d.exponent

def num (d : Decimal) : Nat := d.digits * Nat.pow 10 d.exponent.toNat

def den (d : Decimal) : Nat := Nat.pow 10 (-d.exponent).toNat

theorem den_pos (d : Decimal) : 0 < d.den := Nat.pow_pos (by decide)

theorem nearest_eq (d : Decimal) : d.nearest = .nearest d.num d.den := by
  rw [nearest, num, den]
  split
  · rw [show (-d.exponent).toNat = 0 by omega]
  · rw [show d.exponent.toNat = 0 by omega]
    simp

theorem value_eq (d : Decimal) : d.value = d.num / d.den := by
  obtain ⟨digits, exponent⟩ := d
  obtain ⟨n, rfl | rfl⟩ := exponent.eq_nat_or_neg
  · simp [value, num, den]
  · simp [value, num, den, div_eq_mul_inv]

theorem nearest_congr (h : d.value = d'.value) : d.nearest = d'.nearest := by
  have hden : (d.den : ℚ) ≠ 0 := Nat.cast_ne_zero.2 d.den_pos.ne'
  have hden' : (d'.den : ℚ) ≠ 0 := Nat.cast_ne_zero.2 d'.den_pos.ne'
  rw [value_eq, value_eq, div_eq_div_iff hden hden'] at h
  rw [nearest_eq, nearest_eq]
  exact Magnitude.nearest_congr d.den_pos d'.den_pos (by exact_mod_cast h)

theorem value_dropZeros (fuel : Nat) (d : Decimal) : (d.dropZeros fuel).value = d.value := by
  induction fuel generalizing d with
  | zero => rfl
  | succ fuel ih =>
    rw [dropZeros]
    split
    · rename_i h
      have hdigits : d.digits = d.digits / 10 * 10 := by omega
      rw [ih, value, value, zpow_add_one₀ (by norm_num)]
      calc ((d.digits / 10 : Nat) : ℚ) * (10 ^ d.exponent * 10)
          = ((d.digits / 10 * 10 : Nat) : ℚ) * 10 ^ d.exponent := by push_cast; ring
        _ = d.digits * 10 ^ d.exponent := by rw [← hdigits]
    · rfl

end Decimal

namespace Magnitude

variable {m : Magnitude} {d : Decimal}

theorem nearest_of_onGrid? {exponent : Int} (h : m.onGrid? exponent = some d) : d.nearest = m := by
  simpa using List.find?_some h

theorem nearest_of_search {leading : Int} {attempts digits : Nat}
    (h : m.search leading attempts digits = some d) : d.nearest = m := by
  induction attempts generalizing digits with
  | zero => cases h
  | succ attempts ih =>
    rw [search] at h
    split at h
    · rename_i hgrid
      cases h
      exact nearest_of_onGrid? hgrid
    · exact ih h

/-! ## The place of the value -/

theorem pow_two_pos (n : Nat) : 0 < Nat.pow 2 n := Nat.pow_pos (by decide)

theorem binade_pos : 0 < binade := pow_two_pos 52

theorem unitsPerOne_pos : 0 < unitsPerOne := pow_two_pos 1074

theorem divideToEven_one (n : Nat) : divideToEven n 1 = n := by
  simp [divideToEven, Nat.mod_one]

theorem divideToEven_self {c : Nat} (hc : 0 < c) (n : Nat) : divideToEven (n * c) c = n := by
  have hmul := divideToEven_mul hc n 1
  rwa [Nat.one_mul, divideToEven_one] at hmul

theorem ofPlace_place (m : Magnitude) : ofPlace m.place = m := by
  obtain ⟨place, hplace⟩ := m
  simp only [ofPlace, Nat.min_eq_left hplace]

theorem scale_mul_binade_le (m : Magnitude) : m.scale * binade ≤ m.place :=
  (Nat.mul_le_mul_right _ (Nat.sub_le ..)).trans (Nat.div_mul_le_self ..)

/-- Above the first two binades the significand is one of the second. -/
theorem significand_bounds (h : m.scale ≠ 0) :
    binade ≤ m.significand ∧ m.significand < 2 * binade := by
  obtain ⟨n, hn⟩ : ∃ n, m.place / binade = n + 1 := ⟨m.scale, by rw [scale] at h ⊢; omega⟩
  have hscale : m.scale = n := by rw [scale, hn, Nat.add_sub_cancel]
  have hplace : (n + 1) * binade + m.place % binade = m.place := by
    rw [← hn]
    exact Nat.div_add_mod' ..
  have hmod : m.place % binade < binade := Nat.mod_lt _ binade_pos
  rw [Nat.add_mul, Nat.one_mul] at hplace
  rw [significand, hscale]
  omega

theorem log2_units (m : Magnitude) : Nat.log2 m.units - 52 = m.scale := by
  have hbinade : binade = 2 ^ 52 := rfl
  by_cases hscale : m.scale = 0
  · have hplace : m.place < 2 ^ 53 := by
      have := Nat.lt_mul_of_div_lt (show m.place / binade < 2 by rw [scale] at hscale; omega) binade_pos
      omega
    have hunits : m.units = m.place := by simp [units, significand, hscale]
    rw [hscale, hunits]
    by_cases hzero : m.place = 0
    · simp [hzero]
    · have := (Nat.log2_lt hzero).2 hplace
      omega
  · obtain ⟨hlow, hhigh⟩ := significand_bounds hscale
    have hpow : 0 < 2 ^ m.scale := Nat.pow_pos (by decide)
    have hlog : Nat.log2 m.units = 52 + m.scale := by
      have hlow' : 2 ^ (52 + m.scale) ≤ m.units := by
        rw [Nat.pow_add, ← hbinade]
        exact Nat.mul_le_mul_right _ hlow
      have hhigh' : m.units < 2 ^ (52 + m.scale + 1) := by
        rw [Nat.pow_succ', Nat.pow_add, ← hbinade, ← Nat.mul_assoc]
        exact Nat.mul_lt_mul_of_pos_right hhigh hpow
      exact (Nat.log2_eq_iff (by omega)).2 ⟨hlow', hhigh'⟩
    omega

/-- The value of a magnitude lies at its place. -/
theorem nearest_units (m : Magnitude) : nearest m.units unitsPerOne = m := by
  have hpos : 0 < unitsPerOne * Nat.pow 2 m.scale := Nat.mul_pos unitsPerOne_pos (pow_two_pos _)
  have hunits : m.units * unitsPerOne = m.significand * (unitsPerOne * Nat.pow 2 m.scale) := by
    rw [units, Nat.mul_assoc, Nat.mul_comm (Nat.pow _ _)]
  have hplace : m.scale * binade + m.significand = m.place :=
    Nat.add_sub_cancel' m.scale_mul_binade_le
  simp only [nearest, Nat.mul_div_cancel _ unitsPerOne_pos, log2_units]
  rw [hunits, divideToEven_self hpos, hplace, ofPlace_place]

/-- A decimal with the value of a magnitude is rounded to it. -/
theorem nearest_of_units (h : d.num * unitsPerOne = m.units * d.den) : d.nearest = m := by
  rw [Decimal.nearest_eq, nearest_congr d.den_pos unitsPerOne_pos h, nearest_units]

theorem nearest_toDecimal (m : Magnitude) : m.toDecimal.nearest = m := by
  have hpow : ∀ n, Nat.pow 5 n * Nat.pow 2 n = Nat.pow 10 n := fun n => (Nat.mul_pow 5 2 n).symm
  have hnum : m.toDecimal.num = m.units * Nat.pow 5 1074 := by
    rw [Decimal.num]
    exact Nat.mul_one _
  have hden : m.toDecimal.den = Nat.pow 10 1074 := by
    rw [Decimal.den]
    rfl
  refine nearest_of_units ?_
  rw [hnum, hden, Nat.mul_assoc, unitsPerOne, hpow]

/-- The shortest decimal of a magnitude rounds to the magnitude. -/
theorem nearest_shortest (m : Magnitude) : m.shortest.nearest = m := by
  rw [shortest]
  split
  · rename_i h
    refine nearest_of_units ?_
    rw [h, Decimal.num, Nat.zero_mul, Nat.zero_mul, Nat.zero_mul]
  · have hdrop := Decimal.value_dropZeros 17
      ((m.search (Decimal.leadingExponent m.units unitsPerOne) 17 1).getD m.toDecimal)
    refine (Decimal.nearest_congr hdrop).trans ?_
    cases hsearch : m.search (Decimal.leadingExponent m.units unitsPerOne) 17 1 with
    | none => exact nearest_toDecimal m
    | some d => exact nearest_of_search hsearch

end Magnitude

end LoxSyntax
