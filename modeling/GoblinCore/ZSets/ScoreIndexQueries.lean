import GoblinCore.ZSets.ScoreIndexRetarget

/-!
# What the score index answers

Positions are found through the tree over the sizes of the blocks or, without it, block by block;
either way ranks, score ranges and ranges by position are those of the list of all entries.  An
index that keeps the invariant passes its own check.
-/

namespace GoblinCore

open Refusable MemoryLimit Ordered ChunkedSortedList Ranking List Bool

namespace ScoreIndex

variable {σ : Type} {options : IndexOptions} {view : ℕ → Bytes} {index : ScoreIndex σ}

/-! ## Building an index at once -/

section Assign

variable {entries : List (ScoreEntry σ)}

theorem runs_flatten {load count : ℕ} (hload : 0 < load) (hcnt : entries.length ≤ count) :
    (runs load count entries).flatten = entries := by
  induction count generalizing entries with
  | zero =>
    have hnil : entries = [] := length_eq_zero_iff.mp (Nat.le_zero.mp hcnt)
    simp [runs, hnil]
  | succ count ih =>
    cases entries with
    | nil => rfl
    | cons first rest =>
      have hshorter : ((first :: rest).drop load).length ≤ count := by
        rw [length_drop]
        omega
      rw [runs, flatten_cons, ih hshorter, take_append_drop]
      exact cons_ne_nil first rest

theorem runs_length {load count : ℕ} (hload : 0 < load) :
    ∀ items ∈ runs load count entries, items ≠ [] ∧ items.length ≤ load := by
  induction count generalizing entries with
  | zero => simp [runs]
  | succ count ih =>
    cases entries with
    | nil => simp [runs]
    | cons first rest =>
      intro items hitems
      rw [runs, mem_cons] at hitems
      · rcases hitems with rfl | hrest
        · refine ⟨ne_nil_of_length_pos ?_, length_take_le _ _⟩
          rw [length_take, length_cons]
          omega
        · exact ih items hrest
      · exact cons_ne_nil first rest

theorem assignSorted_toList (hload : 0 < options.load) :
    (assignSorted options entries).toList = entries := by
  rw [ChunkedSortedList.toList, assignSorted, flatMap_map, flatMap_id',
    runs_flatten hload (Nat.le_refl _)]

theorem assignSorted_shape (hload : 0 < options.load) :
    Shape options (assignSorted options entries) := by
  refine ⟨?_, by rw [assignSorted_toList (by omega)]; rfl, .inl rfl⟩
  intro block hblk
  obtain ⟨items, hitems, rfl⟩ := mem_map.mp hblk
  obtain ⟨hne, hlen⟩ := runs_length (by omega) items hitems
  exact fits_allocated rfl (length_pos_iff.mpr hne) (hlen.trans (by omega))

end Assign

/-! ## Positions -/

section Positions

variable {α : Type} {index : ChunkedSortedList α} {block : Block α} {position : ℕ}

theorem sum_sizes_take (position : ℕ) (index : ChunkedSortedList α) :
    ((sizes index).take position).sum = (index.before position).length := by
  rw [sizes, ← map_take, before, length_flatMap]

theorem prefixSize_eq (h : Tracked index) (hget : index.blocks[position]? = some block) :
    prefixSize position index = (index.before position).length := by
  unfold prefixSize
  split
  · exact sum_sizes_take position index
  · next hbuilt =>
    have htracks := h.resolve_left hbuilt
    have hlt := lt_of_getElem? (sizes_get hget)
    rw [htracks.sumBefore_eq (by have := htracks.row_le; omega), sum_sizes_take]

theorem scan_spec {row : List ℕ} (h : position < row.sum) :
    (row.take (scan row position).1).sum + (scan row position).2 = position ∧
      (scan row position).2 < row.getD (scan row position).1 0 := by
  induction row generalizing position with
  | nil => exact absurd h (Nat.not_lt_zero _)
  | cons size rest ih =>
    rw [scan]
    split
    · next hhere => exact ⟨Nat.zero_add _, hhere⟩
    · next hlater =>
      rw [sum_cons] at h
      have hrest : position - size < rest.sum := by omega
      obtain ⟨hsum, hlt⟩ := ih hrest
      refine ⟨?_, hlt⟩
      rw [take_succ_cons, sum_cons]
      omega

/-- The place of a position is in the block that has the position. -/
theorem positionAt_spec (h : Tracked index) (hposition : position < index.toList.length) :
    (index.before (positionAt position index).1).length + (positionAt position index).2 = position ∧
      ∃ block, index.blocks[(positionAt position index).1]? = some block ∧
        (positionAt position index).2 < block.items.length := by
  have hrow : position < (sizes index).sum := by
    rwa [sizes, ← length_flatMap]
  have hfound : ((sizes index).take (positionAt position index).1).sum +
      (positionAt position index).2 = position ∧
      (positionAt position index).2 < (sizes index).getD (positionAt position index).1 0 := by
    unfold positionAt
    split
    · exact scan_spec hrow
    · next hbuilt => exact (h.resolve_left hbuilt).find_spec hrow
  rw [sum_sizes_take] at hfound
  refine ⟨hfound.1, ?_⟩
  cases hget : index.blocks[(positionAt position index).1]? with
  | none =>
    have hnone : (sizes index)[(positionAt position index).1]? = none := by simp [sizes, hget]
    rw [getD_eq_getElem?_getD, hnone] at hfound
    exact absurd hfound.2 (Nat.not_lt_zero _)
  | some block =>
    rw [getD_eq_getElem?_getD, sizes_get hget] at hfound
    exact ⟨block, rfl, hfound.2⟩

/-- The walk takes the entries from its offset on. -/
theorem walk_eq {offset count : ℕ} {blocks : List (Block α)}
    (h : ∀ block, blocks.head? = some block → offset ≤ block.items.length) :
    walk offset count blocks = ((blocks.flatMap Block.items).drop offset).take count := by
  induction blocks generalizing offset count with
  | nil => simp [walk]
  | cons block rest ih =>
    have hoffset := h block rfl
    rw [walk, flatMap_cons, drop_append_of_le_length hoffset, take_append, length_drop,
      ih fun _ _ ↦ Nat.zero_le _, drop_zero]
    congr 1
    · exact take_eq_take_iff.mpr (by rw [length_drop]; omega)
    · congr 1
      omega

theorem forRange_eq (hshape : Shape options index) (start count : ℕ) :
    forRange start count index = (index.toList.drop start).take count := by
  unfold forRange
  split
  · next hnone =>
    rcases hnone with rfl | hle
    · rfl
    · rw [drop_eq_nil_of_le (hshape.size ▸ hle), take_nil]
  · next hsome =>
    rw [hshape.size] at hsome ⊢
    have hstart : start < index.toList.length := by omega
    obtain ⟨hsum, block, hget, hlt⟩ := positionAt_spec hshape.tracked hstart
    dsimp only
    generalize positionAt start index = place at hsum hget hlt ⊢
    have hrest : index.toList =
        index.before place.1 ++ (index.blocks.drop place.1).flatMap Block.items := by
      rw [before, ← flatMap_append, take_append_drop, toList]
    rw [walk_eq, ← hsum, hrest, drop_length_add_append]
    · refine take_eq_take_iff.mpr ?_
      rw [length_drop, length_append]
      omega
    · intro first hfirst
      rw [head?_drop, hget] at hfirst
      rw [← Option.some.inj hfirst]
      omega

/-- The walk back takes the entries from its offset down. -/
theorem walkBack_eq {offset count : ℕ} {rest : List (Block α)} (hlt : offset < block.items.length)
    (hne : ∀ next ∈ rest, next.items ≠ []) :
    walkBack offset count (block :: rest) = ((block.items.take (offset + 1)).reverse ++
      rest.flatMap fun next ↦ next.items.reverse).take count := by
  induction rest generalizing block offset count with
  | nil =>
    rw [walkBack, walkBack, ite_self, append_nil, flatMap_nil, append_nil]
    refine take_eq_take_iff.mpr ?_
    rw [length_reverse, length_take]
    omega
  | cons next rest ih =>
    have hnext : 0 < next.items.length := length_pos_iff.mpr (hne next mem_cons_self)
    have hlen : (block.items.take (offset + 1)).reverse.length = offset + 1 := by
      rw [length_reverse, length_take]
      omega
    have hwhole : next.items.take (next.items.length - 1 + 1) = next.items :=
      take_of_length_le (by omega)
    rw [walkBack, take_append, hlen]
    congr 1
    · exact take_eq_take_iff.mpr (by rw [hlen]; omega)
    · split
      · next hdone => rw [show count - (offset + 1) = 0 by omega, take_zero]
      · next hmore =>
        rw [head?_cons, Option.map_some, Option.getD_some,
          ih (by omega) fun other hother ↦ hne other (mem_cons_of_mem _ hother), hwhole,
            flatMap_cons]
        congr 1
        omega

theorem forReverseRange_eq (hshape : Shape options index) (start count : ℕ) :
    forReverseRange start count index = (index.toList.reverse.drop start).take count := by
  unfold forReverseRange
  split
  · next hnone =>
    rcases hnone with rfl | hle
    · rfl
    · rw [drop_eq_nil_of_le (by rwa [length_reverse, ← hshape.size]), take_nil]
  · next hsome =>
    rw [hshape.size] at hsome ⊢
    have hstart : index.toList.length - 1 - start < index.toList.length := by omega
    obtain ⟨hsum, block, hget, hlt⟩ := positionAt_spec hshape.tracked hstart
    dsimp only
    generalize positionAt (index.toList.length - 1 - start) index = place at hsum hget hlt ⊢
    have hblocks : (index.blocks.take (place.1 + 1)).reverse =
        block :: (index.blocks.take place.1).reverse := by
      rw [take_add_one, hget, Option.toList_some, reverse_append, reverse_singleton,
        singleton_append]
    have hbefore : ((index.blocks.take place.1).reverse.flatMap fun next ↦ next.items.reverse) =
        (index.before place.1).reverse := by
      rw [before, reverse_flatMap]
      rfl
    have hall : index.toList.take (index.toList.length - start) =
        index.before place.1 ++ block.items.take (place.2 + 1) := by
      rw [show index.toList.length - start = (index.before place.1).length + (place.2 + 1) by omega,
        toList_eq hget, append_assoc, take_length_add_append, take_append_of_le_length hlt]
    rw [hblocks, walkBack_eq hlt, hbefore, ← reverse_append, ← hall, drop_reverse]
    · refine take_eq_take_iff.mpr ?_
      rw [length_reverse, length_take]
      omega
    · intro next hnext
      exact (hshape.fits next (mem_of_mem_take (mem_reverse.mp hnext))).nonempty

end Positions

/-! ## The check -/

section Order

variable [Score σ] [LawfulScore σ]

theorem validate_of_sorted (hroomy : Roomy options) (hshape : Shape options index)
    (h : Sorted view index.toList) :
    index.validate options view = true := by
  have hlen : index.blocks.length = index.maxes.length :=
    (filterMap_getLast_length hshape.fits.nonempty).symm
  have hchain : index.toList.IsChain fun first second ↦ less view second first = false := by
    apply List.Pairwise.isChain
    refine List.Pairwise.imp_of_mem ?_ h.ordered
    intro first second hfst hsnd hless
    exact less_asymm (h.numbers first hfst) (h.numbers second hsnd) hless
  have hblks : index.blocks.all (blockValid options) = true := by
    rw [all_eq_true]
    intro block hblk
    have hfits := hshape.fits block hblk
    simp [blockValid, hfits.length_le, hfits.capacity_le hroomy]
  unfold validate
  rw [and_eq_true]
  refine ⟨by simpa using hlen, ?_⟩
  by_cases hemp : index.blocks.isEmpty = true
  · have hnil : index.toList = [] := by
      simp [ChunkedSortedList.toList, isEmpty_iff.mp hemp]
    have hsize := hshape.size
    rw [hnil] at hsize
    simpa [hemp] using hsize
  · rw [if_neg hemp, hblks]
    simp [hchain, hshape.size]

/-! ## The rank caches -/

omit [Score σ] [LawfulScore σ] in
/-- An entry has one place. -/
theorem entryAt_inj {first second : ℕ × ℕ} {entry : ScoreEntry σ} (hnd : index.toList.Nodup)
    (hfst : entryAt first index = some entry) (hsnd : entryAt second index = some entry) :
    first = second := by
  obtain ⟨block, hblk, hitem⟩ := entryAt_eq_some hfst
  obtain ⟨other, hoth, hotherItem⟩ := entryAt_eq_some hsnd
  obtain ⟨hitems, hdisjoint⟩ := nodup_flatMap.mp hnd
  rw [pairwise_iff_getElem] at hdisjoint
  obtain ⟨hlt, hget⟩ := List.getElem?_eq_some_iff.mp hblk
  obtain ⟨hotherLt, hotherGet⟩ := List.getElem?_eq_some_iff.mp hoth
  have hmem := mem_of_getElem? hitem
  have hotherMem := mem_of_getElem? hotherItem
  rcases Nat.lt_trichotomy first.1 second.1 with hbef | hsame | haft
  · have happart := hdisjoint first.1 second.1 hlt hotherLt hbef
    rw [hget, hotherGet] at happart
    exact absurd hotherMem (happart hmem)
  · have hblks : block = other := Option.some.inj (by rw [← hblk, ← hoth, hsame])
    subst hblks
    have hoff := (List.getElem?_inj (lt_of_getElem? hitem)
      (hitems block (mem_of_getElem? hblk))).mp (hitem.trans hotherItem.symm)
    exact Prod.ext hsame hoff
  · have happart := hdisjoint second.1 first.1 hotherLt hlt haft
    rw [hget, hotherGet] at happart
    exact absurd hmem (happart hotherMem)

variable {wanted : ScoreEntry σ}

/-- Whatever the caches hold, the same place is found. -/
theorem locateCached_eq (hint : Option (ℕ × ℕ)) (hne : index.AllNonempty)
    (h : Sorted view index.toList) (hids : DistinctIds index.toList)
    (hwanted : wanted ∈ index.toList) :
    index.locateCached view hint wanted = index.locate view wanted := by
  obtain ⟨location, hlocate, hent⟩ := locate_spec hne h hwanted
  obtain ⟨place, hcached, hthere⟩ := locateCached_spec hint hne h hids hwanted
  rw [hcached, hlocate, entryAt_inj h.nodup hthere hent]

/-- A cache that is out of date. -/
theorem locateCached_eq_stale :
    let index : ScoreIndex ℤ := { blocks := [⟨[⟨1, 0⟩, ⟨2, 1⟩], 2⟩], size := 2 }
    index.locateCached (fun _ ↦ []) (some (0, 1)) ⟨1, 0⟩ = index.locate (fun _ ↦ []) ⟨1, 0⟩ := by
  intro index
  refine locateCached_eq _ (by simp [AllNonempty, index]) ⟨?_, ?_⟩ ?_ ?_ <;>
    simp [index, toList, less, Score.isNan, Score.lt, DistinctIds]

/-! ## Ranks and score ranges -/

theorem rank_spec (hshape : Shape options index) (h : Sorted view index.toList)
    (hids : DistinctIds index.toList) (hwanted : wanted ∈ index.toList) :
    ∃ position, rank options view wanted index = some position ∧
      index.toList[position]? = some wanted := by
  obtain ⟨location, hlocate, hent⟩ : ∃ location,
      findEntryLocation options view wanted index = some location ∧ _ :=
    findEntryLocation_spec hshape.fits.nonempty h hids hwanted
  obtain ⟨block, hget, -⟩ := entryAt_eq_some hent
  refine ⟨_, by rw [rank, hlocate, Option.map_some], ?_⟩
  rw [prefixSize_eq hshape.tracked hget]
  exact getElem?_toList_of_entryAt hent

omit [Score σ] [LawfulScore σ] in
/-- `first_position_by_score` counts the entries that pass the test. -/
theorem firstPosition_eq {test : ScoreEntry σ → Bool} (hshape : Shape options index)
    (hcuts : Cuts test index.toList) :
    firstPosition test index = (index.toList.filter test).length := by
  unfold firstPosition
  cases hget : index.blocks[lowerBlock test index]? with
  | some block =>
    have hstops := lowerBlock_stops hshape.fits.nonempty hcuts hget
    rw [hstops.filter, length_append, ← prefixSize_eq hshape.tracked hget]
  | none =>
    have hall := lowerBlock_none hshape.fits.nonempty hcuts hget
    rw [filter_eq_self.mpr hall, hshape.size]

/-- The score is below the range. -/
def tooLow (min : σ) (minExclusive : Bool) (score : σ) : Bool :=
  if minExclusive then !Score.lt min score else Score.lt score min

/-- The score is not above the range. -/
def notTooHigh (max : σ) (maxExclusive : Bool) (score : σ) : Bool :=
  if maxExclusive then Score.lt score max else !Score.lt max score

variable {min max : σ} {minExclusive maxExclusive : Bool}

theorem tooLow_mono {first second : σ} (hfst : Score.isNan first = false)
    (hsnd : Score.isNan second = false)
    (h : Score.lt second first = false) (hlow : tooLow min minExclusive second = true) :
    tooLow min minExclusive first = true := by
  unfold tooLow at hlow ⊢
  cases minExclusive with
  | true =>
    simp only [if_true, not_eq_true'] at hlow ⊢
    exact LawfulScore.not_lt_trans _ _ _ hsnd hlow h
  | false =>
    exact lt_of_not_lt_of_lt hfst h hlow

theorem notTooHigh_mono {first second : σ} (hfst : Score.isNan first = false)
    (hsnd : Score.isNan second = false)
    (h : Score.lt second first = false) (hhigh : notTooHigh max maxExclusive second = true) :
    notTooHigh max maxExclusive first = true := by
  unfold notTooHigh at hhigh ⊢
  cases maxExclusive with
  | true =>
    exact lt_of_not_lt_of_lt hfst h hhigh
  | false =>
    simp only [false_eq_true, if_false, not_eq_true'] at hhigh ⊢
    exact LawfulScore.not_lt_trans _ _ _ hsnd hhigh h

/-- Bounds that leave room for a score. -/
structure Proper (min : σ) (minExclusive : Bool) (max : σ) (maxExclusive : Bool) : Prop where
  min_number : Score.isNan min = false
  max_number : Score.isNan max = false
  le : Score.lt max min = false
  open_lt : minExclusive = true ∨ maxExclusive = true → Score.lt min max = true

/-- What is too low for proper bounds is not too high. -/
theorem Proper.notTooHigh {score : σ} (h : Proper min minExclusive max maxExclusive)
    (hscore : Score.isNan score = false) (hlow : tooLow min minExclusive score = true) :
    ScoreIndex.notTooHigh max maxExclusive score = true := by
  unfold tooLow at hlow
  unfold ScoreIndex.notTooHigh
  cases minExclusive with
  | false =>
    cases maxExclusive with
    | true => exact lt_of_lt_of_not_lt h.max_number hlow h.le
    | false =>
      simp only [false_eq_true, if_false, not_eq_true']
      exact LawfulScore.not_lt_trans _ _ _ h.min_number h.le (lt_asymm hlow)
  | true =>
    simp only [if_true, not_eq_true'] at hlow
    have hlt := h.open_lt (Or.inl rfl)
    cases maxExclusive with
    | true => exact lt_of_not_lt_of_lt hscore hlow hlt
    | false =>
      simp only [false_eq_true, if_false, not_eq_true']
      exact LawfulScore.not_lt_trans _ _ _ h.min_number (lt_asymm hlt) hlow

omit [LawfulScore σ] in
theorem scoreRangeBounds_proper (hblks : index.blocks ≠ [])
    (h : Proper min minExclusive max maxExclusive)
    (heq : Score.eq min max = true → minExclusive = false ∧ maxExclusive = false) :
    index.scoreRangeBounds min minExclusive max maxExclusive =
      (firstPosition (fun entry ↦ tooLow min minExclusive entry.score) index,
        firstPosition (fun entry ↦ ScoreIndex.notTooHigh max maxExclusive entry.score) index -
          firstPosition (fun entry ↦ tooLow min minExclusive entry.score) index) := by
  have hskip : (index.blocks.isEmpty || Score.isNan min || Score.isNan max || Score.lt max min ||
      (Score.eq min max && (minExclusive || maxExclusive))) = false := by
    cases hsame : Score.eq min max with
    | true =>
      obtain ⟨hmin, hmax⟩ := heq hsame
      simp [hblks, h.min_number, h.max_number, h.le, hmin, hmax]
    | false => simp [hblks, h.min_number, h.max_number, h.le]
  unfold scoreRangeBounds
  rw [hskip]
  cases minExclusive with
  | true =>
    cases maxExclusive with
    | true => rfl
    | false => rfl
  | false =>
    cases maxExclusive with
    | true => rfl
    | false => rfl

end Order

end ScoreIndex

end GoblinCore
