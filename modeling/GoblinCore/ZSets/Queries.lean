import GoblinCore.ZSets.Adding

/-!
# What a sorted set answers

Every reading operation answers as the ranked list of the map does, in both representations.
-/

namespace GoblinCore.SortedSet.ZSet

open Refusable MemoryLimit Ordered Ranking ScoreIndex List LawfulScore
open GoblinCore.SortedSet.FullState
open Option hiding filter_map or_assoc

variable {σ : Type} [Score σ] [LawfulScore σ] {options : ZSetOptions} {zset : ZSet σ}
  {min max : σ} {minExclusive maxExclusive : Bool}

/-! ## The ranked list -/

theorem Valid.ranked (h : zset.Valid options) : Ranked zset.ranked := by
  cases zset with
  | small lp => exact h.ranked
  | full state => exact FullState.Intact.ranked h

theorem Valid.lookup_ranked (h : zset.Valid options) :
    lookup zset.ranked = lookup zset.contents := by
  cases zset with
  | small lp => rfl
  | full state => exact FullState.Intact.lookup_ranked h

omit [LawfulScore σ] in
theorem Valid.size_eq (h : zset.Valid options) : zset.size = zset.ranked.length := by
  cases zset with
  | small lp => rfl
  | full state => exact h.shape.size.trans (length_map _).symm

theorem Valid.rank_eq (h : zset.Valid options) (member : Bytes) :
    zset.rank options member = zset.ranked.findIdx? fun entry ↦ entry.1 = member := by
  cases zset with
  | small lp => rfl
  | full state =>
    have hst : state.Intact options := h
    have hranked := hst.ranked
    show ((state.find member).bind fun id ↦ (state.scoreAt id).bind fun score ↦
      ScoreIndex.rank options.index state.memberView ⟨score, id⟩ state.scoreIndex) =
      state.ranked.findIdx? fun entry ↦ entry.1 = member
    cases hfind : state.find member with
    | none =>
      have hnone : state.score member = none := by rw [FullState.score, hfind, bind_none]
      rw [hst.score_eq, ← hst.lookup_ranked, lookup_eq_none_iff] at hnone
      symm
      rw [bind_none, findIdx?_eq_none_iff]
      intro entry hent
      simpa using hnone entry hent
    | some id =>
      obtain ⟨hid, rfl⟩ := hst.find_eq_some_iff.mp hfind
      obtain ⟨score, hscore⟩ := exists_scoreAt hid
      obtain ⟨position, hrank, hget⟩ := rank_spec hst.shape hst.sorted hst.distinctIds
        ((hst.mem_index ⟨score, id⟩).mpr hscore)
      rw [bind_some, hscore, bind_some, hrank]
      have hent : state.ranked[position]? = some (named state.memberView ⟨score, id⟩) := by
        rw [FullState.ranked, getElem?_map, hget, map_some]
      exact (findIdx?_of_getElem? hranked.names hent).symm

omit [LawfulScore σ] in
/-- `for_position_range` visits the elements at these positions, from the chosen end. -/
theorem Valid.forPositionRange_eq (h : zset.Valid options) (bounds : RangeBounds)
    (reverse : Bool) :
    zset.forPositionRange bounds reverse =
      ((if reverse then zset.ranked.reverse else zset.ranked).drop bounds.first).take
        bounds.count := by
  cases zset with
  | small lp => rfl
  | full state =>
    unfold forPositionRange ZSet.ranked FullState.ranked
    cases reverse with
    | false => simp [forRange_eq h.shape, map_take, map_drop]
    | true => simp [forReverseRange_eq h.shape, map_take, map_drop]

/-! ## Score ranges -/

theorem inRange_eq {score : σ} (hmin : Score.isNan min = false) (hmax : Score.isNan max = false)
    (hscore : Score.isNan score = false) :
    inRange min minExclusive max maxExclusive score =
      (!tooLow min minExclusive score && notTooHigh max maxExclusive score) := by
  unfold inRange tooLow notTooHigh
  rw [le_eq _ _ hmin hscore, le_eq _ _ hscore hmax]
  cases minExclusive with
  | true => simp
  | false => simp

/-- Bounds for which `score_range_bounds` gives up at once. -/
def Improper (min : σ) (minExclusive : Bool) (max : σ) (maxExclusive : Bool) : Prop :=
  Score.isNan min = true ∨ Score.isNan max = true ∨ Score.lt max min = true ∨
    Score.eq min max = true ∧ (minExclusive = true ∨ maxExclusive = true)

omit [LawfulScore σ] in
theorem not_improper (h : ¬Improper min minExclusive max maxExclusive) :
    Score.isNan min = false ∧ Score.isNan max = false ∧ Score.lt max min = false ∧
      (Score.eq min max = true → minExclusive = false ∧ maxExclusive = false) := by
  simp only [Improper, not_or, Bool.not_eq_true, not_and] at h
  exact h

theorem proper_of_not_improper (h : ¬Improper min minExclusive max maxExclusive) :
    Proper min minExclusive max maxExclusive := by
  obtain ⟨hmin, hmax, hlt, heq⟩ := not_improper h
  refine ⟨hmin, hmax, hlt, ?_⟩
  intro hopen
  by_contra hge
  have hsame : Score.eq min max = true := by
    rw [eq_eq _ _ hmin hmax, hlt]
    simpa using hge
  obtain ⟨hminClosed, hmaxClosed⟩ := heq hsame
  simp [hminClosed, hmaxClosed] at hopen

/-- No score is within such bounds. -/
theorem inRange_of_improper {score : σ} (hscore : Score.isNan score = false)
    (h : Improper min minExclusive max maxExclusive) :
    inRange min minExclusive max maxExclusive score = false := by
  by_cases hmin : Score.isNan min = true
  · have hnan := nan min score (Or.inl hmin)
    simp [inRange, hnan]
  by_cases hmax : Score.isNan max = true
  · have hnan := nan score max (Or.inr hmax)
    simp [inRange, hnan]
  have hmin : Score.isNan min = false := by simpa using hmin
  have hmax : Score.isNan max = false := by simpa using hmax
  by_contra hin
  rw [inRange_eq hmin hmax hscore, Bool.not_eq_false, Bool.and_eq_true, Bool.not_eq_true'] at hin
  obtain ⟨hlow, hhigh⟩ := hin
  have hge : Score.lt score min = false := by
    unfold tooLow at hlow
    cases minExclusive with
    | true => exact lt_asymm (by simpa using hlow)
    | false => simpa using hlow
  have hle : Score.lt max score = false := by
    unfold notTooHigh at hhigh
    cases maxExclusive with
    | true => exact lt_asymm (by simpa using hhigh)
    | false => simpa using hhigh
  rcases h with hnan | hnan | hlt | ⟨heq, hopen⟩
  · simp [hmin] at hnan
  · simp [hmax] at hnan
  · have hnot := not_lt_trans _ _ _ hscore hle hge
    rw [hlt] at hnot
    cases hnot
  · rw [eq_eq _ _ hmin hmax, Bool.and_eq_true, Bool.not_eq_true'] at heq
    rcases hopen with rfl | rfl
    · have hlt : Score.lt min score = true := by simpa [tooLow] using hlow
      rw [lt_of_lt_of_not_lt hmax hlt hle] at heq
      cases heq.1
    · have hlt : Score.lt score max = true := by simpa [notTooHigh] using hhigh
      rw [lt_of_not_lt_of_lt hmin hge hlt] at heq
      cases heq.1

section Range

variable {entries : List (Bytes × σ)}

/-- The entries whose scores are in a range. -/
def within (min : σ) (minExclusive : Bool) (max : σ) (maxExclusive : Bool)
    (entries : List (Bytes × σ)) : List (Bytes × σ) :=
  entries.filter fun entry ↦ inRange min minExclusive max maxExclusive entry.2

/-- The number of entries before the first of them. -/
def below (min : σ) (minExclusive : Bool) (max : σ) (maxExclusive : Bool)
    (entries : List (Bytes × σ)) : ℕ :=
  (entries.takeWhile fun entry ↦ !inRange min minExclusive max maxExclusive entry.2).length

variable {test : σ → Bool} {state : FullState σ}

theorem cuts_score (h : Ranked entries)
    (hmono : ∀ first second, Score.isNan first = false → Score.isNan second = false →
      Score.lt second first = false → test second = true → test first = true) :
    Cuts (fun entry ↦ test entry.2) entries := by
  apply cuts_of_pairwise h.ordered
  intro first hfst second hsnd hbef
  refine hmono _ _ (h.numbers first hfst) (h.numbers second hsnd) ?_
  rcases hbef with hlt | ⟨hge, -⟩
  · exact lt_asymm hlt
  · exact hge

theorem cuts_tooLow (h : Ranked entries) :
    Cuts (fun entry : Bytes × σ ↦ tooLow min minExclusive entry.2) entries :=
  cuts_score h fun _ _ hfst hsnd ↦ tooLow_mono hfst hsnd

theorem cuts_notTooHigh (h : Ranked entries) :
    Cuts (fun entry : Bytes × σ ↦ notTooHigh max maxExclusive entry.2) entries :=
  cuts_score h fun _ _ hfst hsnd ↦ notTooHigh_mono hfst hsnd

section

variable (h : Ranked entries) (hproper : Proper min minExclusive max maxExclusive)
include h hproper

theorem within_eq :
    within min minExclusive max maxExclusive entries =
      entries.filter fun entry ↦
        !tooLow min minExclusive entry.2 && notTooHigh max maxExclusive entry.2 :=
  filter_congr fun entry hent ↦
    inRange_eq hproper.min_number hproper.max_number (h.numbers entry hent)

theorem notTooHigh_of_tooLow : ∀ entry ∈ entries, tooLow min minExclusive entry.2 = true →
    notTooHigh max maxExclusive entry.2 = true :=
  fun entry hent ↦ hproper.notTooHigh (h.numbers entry hent)

theorem below_eq (hsome : within min minExclusive max maxExclusive entries ≠ []) :
    below min minExclusive max maxExclusive entries =
      (entries.filter fun entry ↦ tooLow min minExclusive entry.2).length := by
  rw [within_eq h hproper] at hsome
  rw [← takeWhile_between (cuts_tooLow h) hsome (cuts_notTooHigh h), below]
  congr 1
  apply takeWhile_congr
  intro entry hent
  rw [inRange_eq hproper.min_number hproper.max_number (h.numbers entry hent)]

/-- The entries of a range stand together. -/
theorem drop_take_below (hsome : within min minExclusive max maxExclusive entries ≠ []) :
    (entries.drop (below min minExclusive max maxExclusive entries)).take
        (within min minExclusive max maxExclusive entries).length =
      within min minExclusive max maxExclusive entries := by
  have hsub := notTooHigh_of_tooLow h hproper
  have hlen := length_filter_between hsub
  have hcnt : (within min minExclusive max maxExclusive entries).length =
      (entries.filter fun entry ↦ notTooHigh max maxExclusive entry.2).length -
        (entries.filter fun entry ↦ tooLow min minExclusive entry.2).length := by
    rw [within_eq h hproper]
    omega
  rw [hcnt, below_eq h hproper hsome, within_eq h hproper]
  exact filter_between (cuts_tooLow h) (cuts_notTooHigh h) hsub

end

/-- No score is in an improper range. -/
theorem within_of_improper (h : Ranked entries)
    (himproper : Improper min minExclusive max maxExclusive) :
    within min minExclusive max maxExclusive entries = [] := by
  rw [within, filter_eq_nil_iff]
  intro entry hent
  rw [inRange_of_improper (h.numbers entry hent) himproper]
  exact Bool.false_ne_true

omit [Score σ] [LawfulScore σ] in
theorem length_filter_ranked (test : σ → Bool) :
    (state.scoreIndex.toList.filter fun entry ↦ test entry.score).length =
      (state.ranked.filter fun entry ↦ test entry.2).length := by
  rw [FullState.ranked, filter_map, length_map]
  rfl

omit [LawfulScore σ] in
theorem firstPosition_ranked (h : state.Intact options)
    (hcuts : Cuts (fun entry : Bytes × σ ↦ test entry.2) state.ranked) :
    firstPosition (fun entry ↦ test entry.score) state.scoreIndex =
      (state.ranked.filter fun entry ↦ test entry.2).length := by
  have hidx : Cuts (fun entry : ScoreEntry σ ↦ test entry.score) state.scoreIndex.toList :=
    pairwise_map.mp hcuts
  rw [firstPosition_eq h.shape hidx, length_filter_ranked]

/-- The bounds that the score index gives are those of the range. -/
theorem drop_take_bounds (h : state.Intact options) :
    (state.ranked.drop (state.scoreIndex.scoreRangeBounds min minExclusive max maxExclusive).1).take
        (state.scoreIndex.scoreRangeBounds min minExclusive max maxExclusive).2 =
      within min minExclusive max maxExclusive state.ranked := by
  have hranked := h.ranked
  by_cases hblks : state.scoreIndex.blocks = []
  · have hnil : state.ranked = [] := by
      simp [FullState.ranked, ChunkedSortedList.toList, hblks]
    simp [hnil, within]
  by_cases himproper : Improper min minExclusive max maxExclusive
  · have hbounds : state.scoreIndex.scoreRangeBounds min minExclusive max maxExclusive =
      (0, 0) := by
      unfold Improper at himproper
      unfold ScoreIndex.scoreRangeBounds
      rw [if_pos]
      simpa [hblks, or_assoc] using himproper
    rw [hbounds, within_of_improper hranked himproper]
    rfl
  have hproper := proper_of_not_improper himproper
  rw [scoreRangeBounds_proper hblks hproper (not_improper himproper).2.2.2,
    firstPosition_ranked h (cuts_tooLow hranked),
    firstPosition_ranked h (cuts_notTooHigh hranked), within_eq hranked hproper]
  exact filter_between (cuts_tooLow hranked) (cuts_notTooHigh hranked)
    (notTooHigh_of_tooLow hranked hproper)

end Range

theorem Valid.scoreRangeBounds_eq (h : zset.Valid options) :
    zset.scoreRangeBounds min minExclusive max maxExclusive =
      if within min minExclusive max maxExclusive zset.ranked = [] then none
      else some ⟨below min minExclusive max maxExclusive zset.ranked,
        (within min minExclusive max maxExclusive zset.ranked).length⟩ := by
  have hranked := h.ranked
  unfold scoreRangeBounds
  by_cases hskip : zset.size = 0 ∨ Improper min minExclusive max maxExclusive
  · have hnone : within min minExclusive max maxExclusive zset.ranked = [] := by
      rcases hskip with hemp | himproper
      · rw [h.size_eq, length_eq_zero_iff] at hemp
        rw [hemp]
        rfl
      · exact within_of_improper hranked himproper
    unfold Improper at hskip
    rw [if_pos hnone, if_pos hskip]
  obtain ⟨hemp, himproper⟩ := not_or.mp hskip
  have hproper := proper_of_not_improper himproper
  unfold Improper at hskip
  rw [if_neg hskip]
  cases zset with
  | small lp =>
    show (positions _ 0 lp.entries).head?.map _ =
      if within _ _ _ _ lp.entries = [] then none else some _
    rw [positions_head?]
    by_cases hnone : within min minExclusive max maxExclusive lp.entries = []
    · rw [if_pos hnone, if_pos (show lp.entries.filter _ = [] from hnone), map_none]
    · rw [if_neg hnone, if_neg (show lp.entries.filter _ ≠ [] from hnone), map_some,
        positions_length, Nat.zero_add]
      rfl
  | full state =>
    have hst : state.Intact options := h
    have hblks : state.scoreIndex.blocks ≠ [] := by
      intro hnil
      have hsize := hst.shape.size
      rw [ChunkedSortedList.toList, hnil] at hsize
      exact hemp hsize
    change Ranked state.ranked at hranked
    have hlen := length_filter_between (notTooHigh_of_tooLow hranked hproper)
    show (if (state.scoreIndex.scoreRangeBounds min minExclusive max maxExclusive).2 = 0 then none
      else some _) = _
    rw [scoreRangeBounds_proper hblks hproper (not_improper himproper).2.2.2,
      firstPosition_ranked hst (cuts_tooLow hranked),
      firstPosition_ranked hst (cuts_notTooHigh hranked), hlen, Nat.add_sub_cancel_left]
    have hwithin := within_eq hranked hproper
    show _ = if within _ _ _ _ state.ranked = [] then none else
      some (RangeBounds.mk (below _ _ _ _ state.ranked) (within _ _ _ _ state.ranked).length)
    by_cases hnone : within min minExclusive max maxExclusive state.ranked = []
    · rw [if_pos hnone, ← hwithin, hnone]
      exact if_pos rfl
    · rw [if_neg hnone, below_eq hranked hproper hnone, ← hwithin, if_neg (by simpa using hnone)]

/-! ## Slices -/

/-- What is left of a list after an offset, up to a limit. -/
def limited {α : Type} (offset : ℕ) (limit : Option ℕ) (list : List α) : List α :=
  limit.elim (list.drop offset) fun count ↦ (list.drop offset).take count

theorem reverse_drop_take {α : Type} {list : List α} {first count : ℕ}
    (h : first + count ≤ list.length) :
    ((list.drop first).take count).reverse =
      (list.reverse.drop (list.length - (first + count))).take count := by
  rw [reverse_take, reverse_drop, length_drop, drop_take]
  congr 1
  · omega
  · congr 1
    omega

/-- Walking a part of a span of the list is walking that part of the elements. -/
theorem limited_span {α : Type} {list part : List α} {first offset : ℕ} {limit : Option ℕ}
    (h : (list.drop first).take part.length = part) :
    limited offset limit part =
      (list.drop (first + offset)).take
        (limit.elim (part.length - offset) (Min.min (part.length - offset))) := by
  have hrest : part.drop offset = (list.drop (first + offset)).take (part.length - offset) := by
    calc part.drop offset
      _ = ((list.drop first).take part.length).drop offset := by rw [h]
      _ = (list.drop (first + offset)).take (part.length - offset) := by
        rw [drop_take, drop_drop]
  cases limit with
  | none => exact hrest
  | some count =>
    simp only [limited, elim_some]
    rw [hrest, take_take, Nat.min_comm]

/-- `score_range_slice`, read with `for_position_range`, gives the part of the range that offset
and limit leave, from the chosen end. -/
theorem Valid.scoreRangeSlice_eq (h : zset.Valid options) (reverse : Bool) (offset : ℕ)
    (limit : Option ℕ) :
    ((zset.scoreRangeSlice min minExclusive max maxExclusive reverse offset limit).elim []
        fun bounds ↦ zset.forPositionRange bounds reverse) =
      limited offset limit
        (if reverse then (within min minExclusive max maxExclusive zset.ranked).reverse
          else within min minExclusive max maxExclusive zset.ranked) := by
  unfold scoreRangeSlice
  rw [h.scoreRangeBounds_eq]
  by_cases hnone : within min minExclusive max maxExclusive zset.ranked = []
  · rw [if_pos hnone, hnone, bind_none, elim_none]
    cases limit with
    | none => simp [limited]
    | some count => simp [limited]
  · have himproper : ¬Improper min minExclusive max maxExclusive := fun himproper ↦
      hnone (within_of_improper h.ranked himproper)
    have hspan := drop_take_below h.ranked (proper_of_not_improper himproper) hnone
    generalize within min minExclusive max maxExclusive zset.ranked = part at hspan hnone ⊢
    generalize below min minExclusive max maxExclusive zset.ranked = first at hspan ⊢
    have hfits : first + part.length ≤ zset.ranked.length := by
      have hlen := congrArg List.length hspan
      have hpos := length_pos_iff.mpr hnone
      rw [length_take, length_drop] at hlen
      omega
    rw [if_neg hnone, bind_some]
    by_cases hdone : part.length ≤ offset ∨ limit = some 0
    · rw [if_pos hdone, elim_none]
      have hlen : (if reverse = true then part.reverse else part).length = part.length := by
        split
        · exact length_reverse
        · rfl
      rcases hdone with hoff | rfl
      · have hdrop : (if reverse = true then part.reverse else part).drop offset = [] :=
          drop_eq_nil_of_le (by omega)
        cases limit with
        | none => exact hdrop.symm
        | some count => simp [limited, hdrop]
      · simp [limited]
    · rw [if_neg hdone, elim_some, h.forPositionRange_eq]
      cases reverse with
      | false =>
        exact (limited_span hspan).symm
      | true =>
        have hreversed : (zset.ranked.reverse.drop (zset.size - (first + part.length))).take
            part.reverse.length = part.reverse := by
          rw [length_reverse, h.size_eq, ← reverse_drop_take hfits, hspan]
        simp only [if_true]
        rw [limited_span hreversed, length_reverse]

/-! ## Ranges of ranks -/

/-- The elements whose positions are between two indexes, counted from the end if negative. -/
def between {α : Type} (start stop : ℤ) (list : List α) : List α :=
  (list.zipIdx.filter fun item ↦ decide (normalizeIndex start list.length ≤ item.2 ∧
    (item.2 : ℤ) ≤ normalizeIndex stop list.length)).map Prod.fst

omit [LawfulScore σ] in
theorem Valid.range_eq (h : zset.Valid options) (start stop : ℤ) (reverse : Bool) :
    zset.range start stop reverse =
      between start stop (if reverse then zset.ranked.reverse else zset.ranked) := by
  have hlen : (if reverse = true then zset.ranked.reverse else zset.ranked).length = zset.size := by
    rw [h.size_eq]
    split
    · exact length_reverse
    · rfl
  unfold range rangeBounds between
  simp only [h.forPositionRange_eq]
  rw [hlen]
  generalize (if reverse = true then zset.ranked.reverse else zset.ranked) = list at hlen ⊢
  generalize normalizeIndex start zset.size = first
  generalize normalizeIndex stop zset.size = last
  have hidx : ∀ item ∈ list.zipIdx, item.2 < zset.size := by
    intro item hitem
    have hget := mem_zipIdx_iff_getElem?.mp hitem
    rw [← hlen]
    exact lt_of_getElem? hget
  by_cases hnone : zset.size = 0 ∨ last < 0 ∨ last < Max.max first 0 ∨
    (zset.size : ℤ) ≤ Max.max first 0
  · rw [if_pos hnone, elim_none]
    symm
    rw [map_eq_nil_iff, filter_eq_nil_iff]
    intro item hitem
    have hlt := hidx item hitem
    rw [decide_eq_true_eq]
    omega
  · rw [if_neg hnone, elim_some]
    have hcnt : (Min.min last ((zset.size : ℤ) - 1) - Max.max first 0 + 1).toNat =
        (Min.min last ((zset.size : ℤ) - 1) + 1).toNat - (Max.max first 0).toNat := by omega
    rw [hcnt, ← filter_zipIdx_between]
    congr 1
    refine filter_congr fun item hitem ↦ ?_
    have hlt := hidx item hitem
    congr 1
    apply propext
    omega

/-! ## All answers together -/

/-- The sorted set answers as this list of entries does. -/
structure Answers (options : ZSetOptions) (zset : ZSet σ) (entries : List (Bytes × σ)) : Prop where
  size : zset.size = entries.length
  score : ∀ member, zset.score member = lookup entries member
  rank : ∀ member, zset.rank options member = entries.findIdx? fun entry ↦ entry.1 = member
  reverseRank : ∀ member, zset.reverseRank options member =
    (entries.findIdx? fun entry ↦ entry.1 = member).map fun position ↦ entries.length - 1 - position
  range : ∀ start stop reverse, zset.range start stop reverse =
    between start stop (if reverse then entries.reverse else entries)
  scoreRangeBounds : ∀ min minExclusive max maxExclusive,
    zset.scoreRangeBounds min minExclusive max maxExclusive =
      if within min minExclusive max maxExclusive entries = [] then none
      else some ⟨below min minExclusive max maxExclusive entries,
        (within min minExclusive max maxExclusive entries).length⟩
  scoreRangeSlice : ∀ min minExclusive max maxExclusive reverse offset limit,
    ((zset.scoreRangeSlice min minExclusive max maxExclusive reverse offset limit).elim []
        fun bounds ↦ zset.forPositionRange bounds reverse) =
      limited offset limit
        (if reverse then (within min minExclusive max maxExclusive entries).reverse
          else within min minExclusive max maxExclusive entries)

theorem Valid.answers (h : zset.Valid options) : Answers options zset zset.ranked where
  size := h.size_eq
  score member := by rw [score_eq_lookup h, h.lookup_ranked]
  rank := h.rank_eq
  reverseRank member := by rw [ZSet.reverseRank, h.rank_eq, h.size_eq]
  range := h.range_eq
  scoreRangeBounds _ _ _ _ := h.scoreRangeBounds_eq
  scoreRangeSlice _ _ _ _ := h.scoreRangeSlice_eq

end GoblinCore.SortedSet.ZSet
