import Mathlib.Algebra.Order.Ring.Nat
import Mathlib.Data.List.Induction
import Mathlib.Tactic.Ring

/-!
# Digits in a base, most significant first

A number is written with a fixed count of digits and read back by accumulation.  Writing a number
that fits and reading a row of digits are inverse to each other.
-/

namespace GoblinCore.Positional

open List Nat

/-- Reading digits from the most significant on. -/
def ofDigits (base : ℕ) (digits : List ℕ) : ℕ :=
  digits.foldl (fun value digit ↦ base * value + digit) 0

/-- The last `width` digits of a number. -/
def toDigits (base : ℕ) : ℕ → ℕ → List ℕ
  | 0, _ => []
  | width + 1, value => toDigits base width (value / base) ++ [value % base]

variable {base width value : ℕ} {digits : List ℕ}

@[simp] theorem ofDigits_nil : ofDigits base [] = 0 := rfl

@[simp] theorem ofDigits_append_singleton (digit : ℕ) :
    ofDigits base (digits ++ [digit]) = base * ofDigits base digits + digit := by
  simp [ofDigits]

@[simp] theorem length_toDigits : (toDigits base width value).length = width := by
  induction width generalizing value with
  | zero => rfl
  | succ width ih => simp [toDigits, ih]

theorem toDigits_lt (hbase : 0 < base) : ∀ digit ∈ toDigits base width value, digit < base := by
  induction width generalizing value with
  | zero => simp [toDigits]
  | succ width ih =>
    intro digit hdigit
    rw [toDigits, mem_append, mem_singleton] at hdigit
    rcases hdigit with hdigit | rfl
    · exact ih digit hdigit
    · exact mod_lt _ hbase

theorem ofDigits_toDigits (h : value < base ^ width) :
    ofDigits base (toDigits base width value) = value := by
  induction width generalizing value with
  | zero =>
    have hzero : value = 0 := by simpa using h
    simp [toDigits, hzero]
  | succ width ih =>
    have hless : value / base < base ^ width := by
      apply Nat.div_lt_of_lt_mul
      rwa [pow_succ'] at h
    rw [toDigits, ofDigits_append_singleton, ih hless, Nat.div_add_mod]

theorem ofDigits_lt (h : ∀ digit ∈ digits, digit < base) :
    ofDigits base digits < base ^ digits.length := by
  induction digits using List.reverseRecOn with
  | nil => simp
  | append_singleton digits digit ih =>
    have hrest := ih fun other hoth ↦ h other (by simp [hoth])
    have hdigit : digit < base := h digit (by simp)
    rw [ofDigits_append_singleton, length_append, length_singleton, pow_succ]
    calc base * ofDigits base digits + digit < base * ofDigits base digits + base := by omega
      _ = (ofDigits base digits + 1) * base := by ring
      _ ≤ base ^ digits.length * base := mul_le_mul_right _ hrest

theorem toDigits_ofDigits (h : ∀ digit ∈ digits, digit < base) :
    toDigits base digits.length (ofDigits base digits) = digits := by
  induction digits using List.reverseRecOn with
  | nil => rfl
  | append_singleton digits digit ih =>
    have hdigit : digit < base := h digit (by simp)
    have hdiv : (base * ofDigits base digits + digit) / base = ofDigits base digits := by
      rw [mul_add_div (by omega), div_eq_of_lt hdigit, add_zero]
    rw [ofDigits_append_singleton, length_append, length_singleton, toDigits, hdiv,
      mul_add_mod, mod_eq_of_lt hdigit, ih fun other hoth ↦ h other (by simp [hoth])]

theorem ofDigits_cons (digit : ℕ) :
    ofDigits base (digit :: digits) = digit * base ^ digits.length + ofDigits base digits := by
  induction digits using List.reverseRecOn with
  | nil => simp [ofDigits]
  | append_singleton digits last ih =>
    rw [← cons_append, ofDigits_append_singleton, ih, ofDigits_append_singleton,
      length_append, length_singleton, pow_succ]
    ring

/-- A row of digits that does not begin with zero is large. -/
theorem le_ofDigits {digit : ℕ} (hdigit : digit ≠ 0) :
    base ^ digits.length ≤ ofDigits base (digit :: digits) := by
  rw [ofDigits_cons]
  exact le_trans (Nat.le_mul_of_pos_left _ (Nat.pos_of_ne_zero hdigit)) (Nat.le_add_right _ _)

/-- Accumulating in machine words. -/
theorem foldl_mod (modulus : ℕ) :
    digits.foldl (fun value digit ↦ (base * value + digit) % modulus) 0
      = ofDigits base digits % modulus := by
  induction digits using List.reverseRecOn with
  | nil => simp
  | append_singleton digits digit ih =>
    rw [foldl_append, ih, ofDigits_append_singleton, foldl_cons, foldl_nil,
      add_mod, mul_mod, mod_mod, ← mul_mod, ← add_mod]

end GoblinCore.Positional
