import Mathlib.Algebra.Order.Ring.Nat

/-!
# Linear hashing addresses

A table that grows by one bucket at a time reads one more bit of a hash in the buckets that have
been split than in those that have not.  The number of buckets decides which those are, so growing
by one bucket moves hashes out of one bucket only.
-/

namespace GoblinCore.LinearHashing

variable {level count : ℕ}

/-- The bucket of a hash among so many buckets, of which at least a whole level exists. -/
def address (level count hash : ℕ) : ℕ :=
  if hash % (2 * level) < count then hash % (2 * level) else hash % level

theorem address_lt (hash : ℕ) (hlevel : 0 < level) (hcnt : level ≤ count) :
    address level count hash < count := by
  unfold address
  split_ifs with hhigh
  · exact hhigh
  · exact (Nat.mod_lt _ hlevel).trans_le hcnt

/-- One more bucket takes hashes from the bucket a level below it, and no others. -/
theorem address_succ {hash : ℕ} (hlevel : 0 < level) (hcnt : level ≤ count)
    (hbelow : count < 2 * level) :
    (address level (count + 1) hash = count ∧ address level count hash = count - level) ∨
      (address level (count + 1) hash = address level count hash ∧
        address level count hash ≠ count) := by
  have hlow := Nat.mod_mul_left_mod hash 2 level
  unfold address
  by_cases hhigh : hash % (2 * level) = count
  · refine Or.inl ⟨?_, ?_⟩
    · rw [if_pos (by omega), hhigh]
    · rw [if_neg (by omega), ← hlow, hhigh, Nat.mod_eq_sub_mod hcnt, Nat.mod_eq_of_lt (by omega)]
  · refine Or.inr ⟨?_, ?_⟩
    · exact if_congr (by omega) rfl rfl
    · have := Nat.mod_lt hash hlevel
      split_ifs <;> omega

/-- A level of which every bucket has been split is half of the next level. -/
theorem address_double {hash : ℕ} :
    address (2 * level) (2 * level) hash = address level (2 * level) hash := by
  rcases Nat.eq_zero_or_pos level with rfl | hlevel
  · rfl
  have hmod := Nat.mod_lt hash (show 0 < 2 * level by omega)
  unfold address
  split_ifs with hhigh
  · rw [← Nat.mod_mod_of_dvd hash (Nat.dvd_mul_left (2 * level) 2), Nat.mod_eq_of_lt hhigh]
  · rfl

end GoblinCore.LinearHashing
