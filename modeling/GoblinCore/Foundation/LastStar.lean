import Mathlib.Data.List.Infix

/-!
# Matching with wildcards by going back to the last one

What stands at a position of a pattern is its end, a wildcard for any run of items, or a test of
one item, which leads to the same position whatever item passes it.  `search` walks through pattern
and text together.  It keeps only the last wildcard and where the text stood there; when a test
fails, it takes that wildcard up again with one more item skipped.  `search_iff` says that this
finds every match: no earlier wildcard has to be tried again.
-/

namespace GoblinCore.LastStar

/-- What stands at a position of a pattern. -/
inductive View (P α : Type) where
  | done
  | star (next : P)
  | one (test : α → Option P)

/-- How a pattern is read, with a size that every step of the reading makes smaller. -/
structure Reading (P α : Type) where
  view : P → View P α
  size : P → ℕ
  star_lt : ∀ {p next}, view p = .star next → size next < size p
  one_lt : ∀ {p test item next}, view p = .one test → test item = some next → size next < size p
  one_next : ∀ {p test item other next last}, view p = .one test → test item = some next →
    test other = some last → next = last

namespace Reading

variable {P α : Type} (reading : Reading P α)

/-- The texts that the pattern from a position on matches. -/
inductive Matches : P → List α → Prop
  | done {p} : reading.view p = .done → Matches p []
  | star {p next skipped rest} : reading.view p = .star next → Matches next rest →
      Matches p (skipped ++ rest)
  | one {p test next item rest} : reading.view p = .one test → test item = some next →
      Matches next rest → Matches p (item :: rest)

/-- Nothing but wildcards up to the end. -/
def finish (p : P) : Bool :=
  match _h : reading.view p with
  | .done => true
  | .star next => finish next
  | .one _ => false
termination_by reading.size p
decreasing_by exact reading.star_lt _h

def search (p : P) (text : List α) (star : Option (P × List α)) : Bool :=
  match text with
  | [] => reading.finish p
  | item :: rest =>
    match _h : reading.view p with
    | .star next => search next (item :: rest) (some (next, item :: rest))
    | .one test =>
      match _hnext : test item with
      | some next => search next rest star
      | none =>
        match star with
        | some (saved, _ :: later) => search saved later (some (saved, later))
        | _ => false
    | .done =>
      match star with
      | some (saved, _ :: later) => search saved later (some (saved, later))
      | _ => false
-- The size of the saved position bounds the positions to come, its text the texts to come.
termination_by (max (reading.size p) (star.elim 0 fun saved ↦ reading.size saved.1),
  max text.length (star.elim 0 fun saved ↦ saved.2.length), text.length)
decreasing_by
  all_goals
    try have hstar := reading.star_lt _h
    try have hone := reading.one_lt _h _hnext
    simp only [Prod.lex_def, Option.elim, List.length_cons]
    omega

/-- From the saved wildcard on, only tests were passed, one for each item read since. -/
inductive Since (q : P) (w : List α) : P → List α → Prop
  | refl : Since q w q w
  | one {p test item next rest} : Since q w p (item :: rest) → reading.view p = .one test →
      test item = some next → Since q w next rest

/-- The saved wildcard matches when it skips more than it has so far. -/
def SkipsMore (star : Option (P × List α)) : Prop :=
  ∃ q item rest later, star = some (q, item :: rest) ∧ later <:+ rest ∧ reading.Matches q later

variable {reading} {p q next : P} {text w rest : List α} {test : α → Option P} {item : α}

theorem matches_star (h : reading.view p = .star next) :
    reading.Matches p text ↔ ∃ rest, rest <:+ text ∧ reading.Matches next rest := by
  constructor
  · intro hm
    cases hm with
    | done hdone => cases h.symm.trans hdone
    | star hview hrest =>
      cases h.symm.trans hview
      exact ⟨_, List.suffix_append .., hrest⟩
    | one hone => cases h.symm.trans hone
  · rintro ⟨rest, ⟨skipped, rfl⟩, hrest⟩
    exact .star h hrest

theorem matches_one (h : reading.view p = .one test) :
    reading.Matches p text ↔ ∃ item rest next,
      text = item :: rest ∧ test item = some next ∧ reading.Matches next rest := by
  constructor
  · intro hm
    cases hm with
    | done hdone => cases h.symm.trans hdone
    | star hstar => cases h.symm.trans hstar
    | one hview htest hrest =>
      cases h.symm.trans hview
      exact ⟨_, _, _, rfl, htest, hrest⟩
  · rintro ⟨item, rest, next, rfl, htest, hrest⟩
    exact .one h htest hrest

theorem matches_done (h : reading.view p = .done) : reading.Matches p text ↔ text = [] := by
  constructor
  · intro hm
    cases hm with
    | done _ => rfl
    | star hstar => cases h.symm.trans hstar
    | one hone => cases h.symm.trans hone
  · rintro rfl
    exact .done h

theorem finish_iff : reading.finish p = true ↔ reading.Matches p [] := by
  fun_induction finish reading p with
  | case1 p hdone => simp [matches_done hdone]
  | case2 p next hstar ih => simp [matches_star hstar, ih]
  | case3 p test hone => simp [matches_one hone]

/-- A match that starts later at the wildcard passes the same tests later. -/
theorem Since.matches (h : reading.Since q w p text) (hrest : rest <:+ w)
    (hm : reading.Matches q rest) : ∃ later, later <:+ text ∧ reading.Matches p later := by
  induction h with
  | refl => exact ⟨rest, hrest, hm⟩
  | one _ hview htest ih =>
    obtain ⟨later, hlater, hmatches⟩ := ih
    obtain ⟨item, later, next, rfl, hother, hnext⟩ := (matches_one hview).mp hmatches
    refine ⟨later, ?_, reading.one_next hview htest hother ▸ hnext⟩
    rcases List.suffix_cons_iff.mp hlater with heq | hsuffix
    · cases heq
      exact List.suffix_rfl
    · exact (List.suffix_cons item later).trans hsuffix

theorem matches_or_skipsMore :
    reading.Matches q rest ∨ reading.SkipsMore (some (q, rest)) ↔
      ∃ later, later <:+ rest ∧ reading.Matches q later := by
  constructor
  · rintro (hm | ⟨_, item, rest, later, heq, hlater, hm⟩)
    · exact ⟨rest, List.suffix_rfl, hm⟩
    · cases heq
      exact ⟨later, hlater.trans (List.suffix_cons item rest), hm⟩
  · rintro ⟨later, hlater, hm⟩
    cases rest with
    | nil => exact .inl (List.suffix_nil.mp hlater ▸ hm)
    | cons item rest =>
      rcases List.suffix_cons_iff.mp hlater with rfl | hsuffix
      · exact .inl hm
      · exact .inr ⟨q, item, rest, later, rfl, hsuffix, hm⟩

theorem skipsMore_cons : reading.SkipsMore (some (q, item :: rest)) ↔
    ∃ later, later <:+ rest ∧ reading.Matches q later := by
  constructor
  · rintro ⟨_, _, _, later, heq, h⟩
    cases heq
    exact ⟨later, h⟩
  · rintro ⟨later, h⟩
    exact ⟨q, item, rest, later, rfl, h⟩

theorem not_skipsMore {star : Option (P × List α)}
    (h : ∀ q item rest, star = some (q, item :: rest) → False) : ¬reading.SkipsMore star :=
  fun ⟨q, item, rest, _, heq, _⟩ ↦ h q item rest heq

/-- What the saved wildcard can still match, this position can match with more skipped. -/
theorem SkipsMore.matches {star : Option (P × List α)} (h : reading.SkipsMore star)
    (hsince : ∀ q w, star = some (q, w) → reading.Since q w p text) :
    ∃ later, later <:+ text ∧ reading.Matches p later := by
  obtain ⟨q, item, rest, later, rfl, hlater, hm⟩ := h
  exact (hsince q _ rfl).matches (hlater.trans (List.suffix_cons item rest)) hm

/-- The search, with a wildcard saved before: this position matches, or the wildcard does when it
skips more. -/
theorem search_saved_iff {star : Option (P × List α)}
    (hsince : ∀ q w, star = some (q, w) → reading.Since q w p text) :
    reading.search p text star = true ↔ reading.Matches p text ∨ reading.SkipsMore star := by
  fun_induction search reading p text star with
  | case1 p star =>
    rw [finish_iff]
    refine ⟨.inl, fun h ↦ h.elim id fun hmore ↦ ?_⟩
    obtain ⟨later, hlater, hm⟩ := hmore.matches hsince
    exact List.suffix_nil.mp hlater ▸ hm
  | case2 p star item rest next hview ih =>
    -- The wildcard here replaces the saved one and loses nothing.
    rw [ih fun _ _ heq ↦ by cases heq; exact .refl, matches_or_skipsMore, ← matches_star hview]
    refine ⟨.inl, fun h ↦ h.elim id fun hmore ↦ ?_⟩
    obtain ⟨later, ⟨skipped, heq⟩, hm⟩ := hmore.matches hsince
    obtain ⟨last, hlast, hnext⟩ := (matches_star hview).mp hm
    exact (matches_star hview).mpr ⟨last, hlast.trans ⟨skipped, heq⟩, hnext⟩
  | case3 p star item rest test hview next htest ih =>
    rw [ih fun q w heq ↦ .one (hsince q w heq) hview htest]
    simp [matches_one hview, htest]
  | case4 p item rest test hview htest saved skipped later ih =>
    rw [ih fun _ _ heq ↦ by cases heq; exact .refl, matches_or_skipsMore, skipsMore_cons]
    simp [matches_one hview, htest]
  | case5 p star item rest test hview htest hstar =>
    simp [matches_one hview, htest, not_skipsMore hstar]
  | case6 p item rest hview saved skipped later ih =>
    rw [ih fun _ _ heq ↦ by cases heq; exact .refl, matches_or_skipsMore, skipsMore_cons]
    simp [matches_done hview]
  | case7 p star item rest hview hstar => simp [matches_done hview, not_skipsMore hstar]

/-- Going back to the last wildcard alone finds every match. -/
theorem search_iff : reading.search p text none = true ↔ reading.Matches p text := by
  rw [search_saved_iff fun _ _ h ↦ by cases h]
  simp [SkipsMore]

end Reading

end GoblinCore.LastStar
