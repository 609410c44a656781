import Mathlib.Data.Int.Log
import Mathlib.Data.Nat.Log
import Mathlib.Data.Rat.Floor
import Mathlib.Tactic.Positivity
import Mathlib.Tactic.Ring

/-!
# Integer parts of double-precision products and quotients

A quotient of natural numbers is rounded to 53 significant bits, to nearest with ties to even, and
then truncated.  Sizes computed in double precision need no more than that the result is close to
the exact quotient.
-/

namespace GoblinCore.Rounding

open Nat

/-- The integer nearest to a quotient, the even one of two that are equally near. -/
def nearest (num den : ℕ) : ℕ :=
  if 2 * (num % den) < den then num / den
  else if den < 2 * (num % den) then num / den + 1
  else if num / den % 2 = 0 then num / den
  else num / den + 1

/-- A natural number as a double. -/
def toDouble (value : ℕ) : ℕ :=
  nearest value (2 ^ (value.log2 - 52)) * 2 ^ (value.log2 - 52)

/-- The integer part of the double nearest to a quotient that is at least one. -/
def floorQuotient (num den : ℕ) : ℕ :=
  if (num / den).log2 ≤ 52 then
    nearest (num * 2 ^ (52 - (num / den).log2)) den / 2 ^ (52 - (num / den).log2)
  else nearest num (den * 2 ^ ((num / den).log2 - 52)) * 2 ^ ((num / den).log2 - 52)

/-- The double nearest to a positive rational, as a rational. -/
def roundRat (value : ℚ) : ℚ :=
  let unit : ℚ := 2 ^ (Int.log 2 value - 52)
  nearest (value / unit).num.toNat (value / unit).den * unit

theorem nearest_le (num den : ℕ) : nearest num den ≤ num / den + 1 := by
  unfold nearest
  split_ifs <;> omega

theorem le_nearest (num den : ℕ) : num / den ≤ nearest num den := by
  unfold nearest
  split_ifs <;> omega

@[simp] theorem nearest_one (num : ℕ) : nearest num 1 = num := by
  simp [nearest, mod_one]

theorem toDouble_of_lt {value : ℕ} (h : value < 2 ^ 53) : toDouble value = value := by
  have hlog : value.log2 - 52 = 0 := by
    rcases Nat.eq_zero_or_pos value with rfl | hpos
    · simp
    · have hlt := (log2_lt (by omega)).mpr h
      omega
  rw [toDouble, hlog, pow_zero, nearest_one, mul_one]

/-- The step between doubles of this size is small against the value. -/
theorem two_pow_log2_sub_le {value : ℕ} (h : 52 ≤ value.log2) :
    2 ^ (value.log2 - 52) ≤ value / 2 ^ 52 := by
  have hpos : value ≠ 0 := by
    rintro rfl
    simp at h
  have hle := log2_self_le hpos
  rw [Nat.le_div_iff_mul_le (by positivity), ← pow_add, Nat.sub_add_cancel h]
  exact hle

theorem le_div_mul_add (value : ℕ) :
    value ≤ value / 2 ^ (value.log2 - 52) * 2 ^ (value.log2 - 52) + value / 2 ^ 52 := by
  by_cases hlog : 52 ≤ value.log2
  · have hstep := two_pow_log2_sub_le hlog
    have hmod := Nat.div_add_mod' value (2 ^ (value.log2 - 52))
    have hlt := mod_lt value (Nat.two_pow_pos (value.log2 - 52))
    omega
  · rw [Nat.sub_eq_zero_of_le (by omega)]
    omega

theorem le_toDouble (value : ℕ) : value ≤ toDouble value + value / 2 ^ 52 :=
  (le_div_mul_add value).trans (Nat.add_le_add_right (mul_le_mul_right _ (le_nearest _ _)) _)

theorem toDouble_le (value : ℕ) : toDouble value ≤ value + value / 2 ^ 52 := by
  by_cases hlog : value.log2 ≤ 52
  · have hlt : value < 2 ^ 53 := by
      rcases Nat.eq_zero_or_pos value with rfl | hpos
      · positivity
      · exact (log2_lt (by omega)).mp (by omega)
    rw [toDouble_of_lt hlt]
    omega
  · have hstep := two_pow_log2_sub_le (le_of_lt (Nat.lt_of_not_le hlog))
    have hnear := nearest_le value (2 ^ (value.log2 - 52))
    calc toDouble value
        ≤ (value / 2 ^ (value.log2 - 52) + 1) * 2 ^ (value.log2 - 52) :=
          mul_le_mul_right _ hnear
      _ = value / 2 ^ (value.log2 - 52) * 2 ^ (value.log2 - 52) + 2 ^ (value.log2 - 52) := by ring
      _ ≤ value + value / 2 ^ 52 := Nat.add_le_add (Nat.div_mul_le_self _ _) hstep

theorem floorQuotient_le {num den : ℕ} (hden : 0 < den) :
    floorQuotient num den ≤ num / den + 1 + num / den / 2 ^ 52 := by
  unfold floorQuotient
  split
  · set scale := 2 ^ (52 - (num / den).log2)
    have hscale : 0 < scale := by positivity
    have hlt : num * scale / den < (num / den + 1) * scale := by
      rw [div_lt_iff_lt_mul hden]
      calc num * scale < (num / den + 1) * den * scale :=
            mul_lt_mul_of_pos_right (lt_mul_of_div_lt (lt_succ_self _) hden) hscale
        _ = (num / den + 1) * scale * den := by ring
    have hnear := nearest_le (num * scale) den
    calc nearest (num * scale) den / scale ≤ (num / den + 1) * scale / scale :=
          Nat.div_le_div_right (by omega)
      _ = num / den + 1 := Nat.mul_div_cancel _ hscale
      _ ≤ num / den + 1 + num / den / 2 ^ 52 := le_add_right _ _
  · rename_i hlog
    have hstep := two_pow_log2_sub_le (le_of_lt (Nat.lt_of_not_le hlog))
    set scale := 2 ^ ((num / den).log2 - 52)
    have hnear := nearest_le num (den * scale)
    rw [← Nat.div_div_eq_div_mul] at hnear
    calc nearest num (den * scale) * scale ≤ (num / den / scale + 1) * scale :=
          mul_le_mul_right _ hnear
      _ = num / den / scale * scale + scale := by ring
      _ ≤ num / den + num / den / 2 ^ 52 := Nat.add_le_add (Nat.div_mul_le_self _ _) hstep
      _ ≤ num / den + 1 + num / den / 2 ^ 52 := by omega

theorem le_floorQuotient (num den : ℕ) :
    num / den ≤ floorQuotient num den + num / den / 2 ^ 52 := by
  unfold floorQuotient
  split
  · have hnear := le_nearest (num * 2 ^ (52 - (num / den).log2)) den
    have hdiv := Nat.div_le_div_right (c := 2 ^ (52 - (num / den).log2)) hnear
    rw [Nat.div_div_eq_div_mul, Nat.mul_div_mul_right _ _ (by positivity)] at hdiv
    exact hdiv.trans (le_add_right _ _)
  · have hnear := le_nearest num (den * 2 ^ ((num / den).log2 - 52))
    rw [← Nat.div_div_eq_div_mul] at hnear
    exact (le_div_mul_add _).trans (Nat.add_le_add_right (mul_le_mul_right _ hnear) _)

end GoblinCore.Rounding
