import GoblinCore.Store.Keyspace

/-!
# Sorted sets as maps from members to scores

Scores are doubles; what is used of them is a parameter.  `decide` is what one ZADD item does, with
its NX, XX, GT, LT and INCR rules.
-/

namespace GoblinCore

/-- The operations on `double` that sorted sets use. -/
class Score (σ : Type) where
  add : σ → σ → σ
  lt : σ → σ → Bool
  le : σ → σ → Bool
  eq : σ → σ → Bool
  isNan : σ → Bool
  /-- The bytes of the narrowest width that holds the score exactly. -/
  width : σ → ℕ

/-- Scores that are integers; on these all operations of `double` used here are exact. -/
instance : Score ℤ where
  add := (· + ·)
  lt first second := decide (first < second)
  le first second := decide (first ≤ second)
  eq first second := decide (first = second)
  isNan _ := false
  width score :=
    if -32768 ≤ score ∧ score ≤ 32767 then 2
    else if -2147483648 ≤ score ∧ score ≤ 2147483647 then 4 else 8

/-- What is used of the order of doubles: `NaN` compares with nothing, and the other doubles are
ordered, with the two zeros equal. -/
class LawfulScore (σ : Type) [Score σ] : Prop where
  lt_irrefl : ∀ score : σ, Score.lt score score = false
  lt_trans : ∀ first second third : σ, Score.lt first second = true →
    Score.lt second third = true → Score.lt first third = true
  /-- Being not smaller is transitive through a number. -/
  not_lt_trans : ∀ first second third : σ, Score.isNan second = false →
    Score.lt first second = false → Score.lt second third = false → Score.lt first third = false
  le_eq : ∀ first second : σ, Score.isNan first = false → Score.isNan second = false →
    Score.le first second = !Score.lt second first
  eq_eq : ∀ first second : σ, Score.isNan first = false → Score.isNan second = false →
    Score.eq first second = (!Score.lt first second && !Score.lt second first)
  nan : ∀ first second : σ, Score.isNan first = true ∨ Score.isNan second = true →
    Score.lt first second = false ∧ Score.le first second = false

instance : LawfulScore ℤ where
  lt_irrefl score := by simp [Score.lt]
  lt_trans first second third := by
    simp only [Score.lt, decide_eq_true_eq]
    omega
  not_lt_trans first second third _ := by
    simp only [Score.lt, decide_eq_false_iff_not]
    omega
  le_eq first second _ _ := by
    by_cases h : second < first
    · simp [Score.le, Score.lt, h]
    · simp [Score.le, Score.lt, h, Int.not_lt.mp h]
  eq_eq first second _ _ := by
    by_cases h : first = second
    · simp [Score.eq, Score.lt, h]
    · rcases Int.lt_or_gt_of_ne h with hlt | hgt
      · simp [Score.eq, Score.lt, h, hlt]
      · simp [Score.eq, Score.lt, h, hgt]
  nan first second h := by simp [Score.isNan] at h

structure ZAddOptions where
  nx : Bool := false
  xx : Bool := false
  gt : Bool := false
  lt : Bool := false
  increment : Bool := false
  deriving DecidableEq

inductive ZAddStatus where
  | applied
  | skipped
  | invalidScore
  deriving DecidableEq

/-- The result of one item. -/
structure ZAddMutation (σ : Type) where
  status : ZAddStatus
  added : Bool := false
  changed : Bool := false
  score : Option σ := none

/-- A map from members to scores. -/
abbrev Scores (σ : Type) := AList fun _ : Bytes ↦ σ

namespace Scores

variable {σ : Type} [Score σ] (options : ZAddOptions)

/-- The score an item asks for. -/
def target (old : Option σ) (score : σ) : σ :=
  match old with
  | some old => if options.increment then Score.add old score else score
  | none => score

/-- The flags rule the item out. -/
def skips (old : Option σ) (score : σ) : Bool :=
  match old with
  | some old =>
    options.nx || (options.gt && Score.le (target options (some old) score) old) ||
      (options.lt && Score.le old (target options (some old) score))
  | none => options.xx

/-- What one item does: its result, and whether the member gets the target score. -/
def decide (old : Option σ) (score : σ) : ZAddMutation σ :=
  if Score.isNan score then { status := .invalidScore }
  else if Score.isNan (target options old score) then { status := .invalidScore }
  else if skips options old score then { status := .skipped }
  else
    { status := .applied
      added := old.isNone
      changed := !(old.any fun previous ↦ Score.eq (target options old score) previous)
      score := some (target options old score) }

end Scores

end GoblinCore
