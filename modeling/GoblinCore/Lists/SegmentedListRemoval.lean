import GoblinCore.Lists.SegmentedListRefinement

/-!
# Replacing and removing values of a segmented list

Replacing a value, removing one or a range at either end, and merging small leaves keep what the
list holds in step with the sequence.  Merging rebuilds only what is already stored, so that it
never throws.
-/

namespace GoblinCore.SegmentedList

open StringEncoding ListListpack Refusable List Nat

variable {settings : Settings} {list : SegmentedList} {indexed : Bool}
  {leaves front back : List ListListpack} {leaf : ListListpack}
  {values before here after : List ByteString}

variable {index : ℕ}

theorem set_eq_splice (hidx : index < here.length) (value : ByteString) :
    here.set index value = splice here index 1 [value] := by
  rw [set_eq_take_append_cons_drop, if_pos hidx, splice, append_assoc, singleton_append]

/-- `set` of a value that reads back. -/
theorem setResult_spec (h : Represents settings list values indexed) (hidx : index < values.length)
    {value : ByteString} (hround : ReadBack settings [value]) :
    Yields (list.setResult settings index value) (¬Stored settings [value])
      (Represents settings · (splice values index 1 [value]) true) := by
  obtain ⟨front, leaf, back, before, here, after, offset, hsplit, hlocate, rfl, hoff⟩ :=
    h.locate_spec hidx
  obtain rfl := h.indexed_of_ne_nil (length_pos_iff.mp (by omega))
  have hhere : (splice here offset 1 [value]).length = here.length := by
    rw [length_splice (by omega), length_singleton]
    omega
  have hsize : list.size + here.length = list.size + (splice here offset 1 [value]).length := by
    rw [hhere]
  have hbound : list.size < 2 ^ 32 := h.size ▸ h.bound
  unfold setResult
  rw [hlocate, hsplit.splice_values (by omega)]
  dsimp only
  rw [show list.leafAt front.length = leaf from hsplit.getD_eq]
  refine (hsplit.leaf.holds.set hoff (hround value (by simp))).bind
    (fun hrefused hall ↦ hrefused (hall value (by simp))) fun replaced hreplaced ↦ ?_
  cases replaced with
  | some other =>
    obtain ⟨hval, hoth, -⟩ := hreplaced other rfl
    have hle : other.count ≤ settings.leafEntries := by
      rw [hoth.count_eq, hhere]
      exact hsplit.leaf.length_le
    refine h.changeLeaf hsplit hsize hbound (hsplit.leaf.spliced hval hoth hle) ?_
    rw [hhere, hsplit.set_count]
    exact h.fenwick
  | none =>
    rw [leafValues_eq hsplit.leaf.holds]
    change Yields (replaceLeaf settings list front.length (here.set offset value) .balanced) _ _
    rw [set_eq_splice hoff]
    refine (replaceLeaf_spec hsplit (readBack_splice hsplit.leaf.stored hround)).mono
      (fun hrefused hall ↦ hrefused (stored_splice hsplit.leaf.stored hall)) ?_
    rintro _ ⟨leaves, hleaves, rfl⟩
    exact h.changeLeaves hsplit hsize hbound hleaves

/-! ## Merging -/

section

variable {left right : ListListpack} {hereLeft hereRight : List ByteString}

theorem Packs.splitPair (h : Packs settings leaves values) {index : ℕ}
    (hidx : index + 1 < leaves.length) :
    ∃ front left right back before hereLeft hereRight after,
      SplitAt settings leaves values front left (right :: back) before hereLeft
          (hereRight ++ after) ∧
        HoldsLeaf settings right hereRight ∧ Packs settings back after ∧ front.length = index := by
  obtain ⟨front, left, rest, before, hereLeft, more, hsplit, hfront⟩ :=
    h.splitAt (by omega : index < leaves.length)
  have hrest : rest ≠ [] := by
    rintro rfl
    have htotal := congrArg List.length hsplit.leaves_eq
    simp only [length_append, length_cons, length_nil] at htotal
    omega
  obtain ⟨right, back, hereRight, after, hnext⟩ := hsplit.back.splitFirst hrest
  obtain rfl := hnext.leaves_eq
  obtain rfl := hnext.values_eq
  exact ⟨front, left, right, back, before, hereLeft, hereRight, after, hsplit, hnext.leaf,
    hnext.back, hfront⟩

variable
  (hsplit : SplitAt settings leaves values front left (right :: back) before hereLeft
    (hereRight ++ after))
  (hback : Packs settings back after)
include hsplit

theorem SplitAt.next_eq : leaves.getD (front.length + 1) {} = right := by
  rw [hsplit.leaves_eq, getD_append_right _ _ _ _ (by omega), Nat.add_sub_cancel_left,
    getD_cons_succ, getD_cons_zero]

include hback

/-- Two leaves replaced by leaves that hold the same values. -/
theorem SplitAt.packs_pair {others : List ListListpack}
    (hoths : Packs settings others (hereLeft ++ hereRight)) :
    Packs settings (splice leaves front.length 2 others) values := by
  have hvals : values = before ++ (hereLeft ++ hereRight) ++ after := by
    rw [hsplit.values_eq]
    simp only [append_assoc]
  rw [splice, hsplit.leaves_eq, take_left, drop_length_add_append, hvals]
  exact (hsplit.front.append hoths).append hback

end

/-- The values of two neighbours built into leaves anew. -/
theorem replacePair_spec {left right : ListListpack} {hereLeft hereRight : List ByteString}
    (h : Represents settings list values indexed)
    (hsplit : SplitAt settings list.leaves values front left (right :: back) before hereLeft
      (hereRight ++ after)) (hright : HoldsLeaf settings right hereRight)
    (hback : Packs settings back after) :
    ∃ list', replaceLeafRange settings list front.length 2 (hereLeft ++ hereRight) .balanced
        = .ok list' ∧ Represents settings list' values true := by
  have hstored : Stored settings (hereLeft ++ hereRight) :=
    forall_mem_append.mpr ⟨hsplit.leaf.stored, hright.stored⟩
  have hdone : Yields (replaceLeafRange settings list front.length 2 (hereLeft ++ hereRight)
      .balanced) (¬Stored settings (hereLeft ++ hereRight)) (Represents settings · values true) :=
    (buildLeaves_spec _ hstored.readBack).bind id fun built hbuilt ↦
      represents_rebuildIndex (hsplit.packs_pair hback hbuilt) h.size h.bound
  exact hdone.ok (not_not.mpr hstored)

/-- Merging keeps what the list holds. -/
theorem maybeMerge_spec (h : Represents settings list values true) :
    ∃ list', maybeMerge settings list index = .ok list' ∧
      Represents settings list' values true := by
  unfold maybeMerge
  generalize (if index ≠ 0 then index - 1 else index) = position
  dsimp only
  split
  · exact ⟨list, rfl, h⟩
  obtain ⟨front, left, right, back, before, hereLeft, hereRight, after, hsplit, hright, hback,
    rfl⟩ := h.packs.splitPair (by omega : position + 1 < list.leaves.length)
  rw [show list.leafAt front.length = left from hsplit.getD_eq,
    show list.leafAt (front.length + 1) = right from hsplit.next_eq]
  split
  · rename_i merged hmerged
    obtain ⟨first, hfst, hsnd⟩ := Option.bind_eq_some_iff.mp hmerged
    have hemp : Holds settings.lz4 settings.encoding {} [] := holds_empty
    obtain ⟨hholdsFirst, -⟩ := hemp.concat hsplit.leaf.holds hfst
    obtain ⟨hholds, hcnt⟩ := hholdsFirst.concat hright.holds hsnd
    have hleaf : HoldsLeaf settings merged (hereLeft ++ hereRight) :=
      ⟨hholds, forall_mem_append.mpr ⟨hsplit.leaf.stored, hright.stored⟩,
        by simp [hright.ne_nil], hholds.count_eq ▸ hcnt⟩
    exact ⟨_, rfl, represents_rebuildIndex (hsplit.packs_pair hback hleaf.packs) h.size h.bound⟩
  · rw [leafValues_eq hsplit.leaf.holds, leafValues_eq hright.holds]
    exact replacePair_spec h hsplit hright hback

/-- One round of `compact` at two leaves. -/
theorem compactLoop_pair {left right : ListListpack} {first second : List ByteString}
    {next : SegmentedList} {fuel : ℕ} (hleaves : list.leaves = front ++ left :: right :: back)
    (hleft : HoldsLeaf settings left first) (hright : HoldsLeaf settings right second)
    (hnext : replaceLeafRange settings list front.length 2 (first ++ second) .balanced = .ok next) :
    compactLoop settings (fuel + 1) front.length list =
      if (first ++ second).length ≤ settings.leafEntries then
        compactLoop settings fuel front.length next
      else compactLoop settings fuel (front.length + 1) list := by
  have hat : list.leafAt front.length = left := by simp [leafAt, hleaves]
  have hafter : list.leafAt (front.length + 1) = right := by simp [leafAt, hleaves]
  have hmore : front.length + 1 < list.leaves.length := by simp [hleaves]
  rw [compactLoop, if_pos hmore, hat, hafter, hleft.holds.count_eq, hright.holds.count_eq,
    leafValues_eq hleft.holds, leafValues_eq hright.holds, length_append]
  simp only [bind, Except.bind, hnext]

/-- Where `compact` returns, the list holds what it held. -/
theorem compactLoop_spec (h : Represents settings list values indexed) {fuel : ℕ}
    {outcome : Outcome} (hcompact : compactLoop settings fuel index list = some outcome) :
    Represents settings outcome.list values true := by
  induction fuel generalizing list indexed index with
  | zero => exact absurd hcompact (by simp [compactLoop])
  | succ fuel ih =>
    by_cases hmore : index + 1 < list.leaves.length
    · obtain ⟨front, left, right, back, before, hereLeft, hereRight, after, hsplit, hright, hback,
        rfl⟩ := h.packs.splitPair hmore
      obtain ⟨list', hreplace, hlist⟩ := replacePair_spec h hsplit hright hback
      rw [compactLoop_pair hsplit.leaves_eq hsplit.leaf hright hreplace] at hcompact
      split at hcompact
      · exact ih hlist hcompact
      · exact ih h hcompact
    · rw [compactLoop, if_neg hmore] at hcompact
      cases hcompact
      exact represents_rebuildIndex h.packs h.size h.bound

/-! ## Removal -/

/-- `erase` returns the value it removes. -/
theorem erase_spec (h : Represents settings list values indexed) (hidx : index < values.length) :
    (list.erase settings index).removed = some values[index] ∧
      Represents settings (list.erase settings index).list (splice values index 1 []) true := by
  obtain ⟨front, leaf, back, before, here, after, offset, hsplit, hlocate, rfl, hoff⟩ :=
    h.locate_spec hidx
  obtain rfl := h.indexed_of_ne_nil (length_pos_iff.mp (by omega))
  obtain ⟨other, herase, hoth⟩ := hsplit.leaf.holds.erase hoff
  have hhere : (splice here offset 1 []).length = here.length - 1 := by
    rw [length_splice (by omega), length_nil, add_zero]
  have hcnt := hoth.count_eq
  have hbound := h.bound
  have hsize := h.size
  have hless : list.size - 1 + here.length = list.size + (splice here offset 1 []).length := by
    omega
  unfold erase
  rw [hlocate, hsplit.getElem_eq hoff, hsplit.splice_values (by omega)]
  dsimp only
  rw [show list.leafAt front.length = leaf from hsplit.getD_eq, herase]
  dsimp only
  split
  · rename_i hemp
    have hnil := length_eq_zero_iff.mp (hcnt.symm.trans hemp)
    have hgone : (list.leaves.set front.length other).eraseIdx front.length
        = front ++ [] ++ back := by
      rw [hsplit.set_eq, eraseIdx_append_of_length_le (le_refl _), Nat.sub_self,
        eraseIdx_cons_zero, append_nil]
    rw [hgone]
    exact ⟨rfl, h.changeLeaves hsplit hless (by omega) (by rw [hnil]; exact packs_nil)⟩
  · rename_i hnonempty
    have hchg : HoldsLeaf settings other (splice here offset 1 []) := by
      refine ⟨hoth, stored_splice hsplit.leaf.stored (forall_mem_nil _),
        fun hnil ↦ hnonempty (by rw [hcnt, hnil]; rfl), ?_⟩
      have hle := hsplit.leaf.length_le
      omega
    have hfewer := h.fenwick.addCount_fewer hsplit.lt_length
      (by rw [hsplit.count_eq]; omega : 1 ≤
        (list.leaves.map ListListpack.count).getD front.length 0)
    rw [hsplit.count_eq, ← hhere] at hfewer
    obtain ⟨list', hmerge, hlist⟩ :=
      maybeMerge_spec (h.changeLeaf hsplit hless (by omega) hchg hfewer)
    exact ⟨rfl, Outcome.of_represents ⟨list', hmerge, hlist⟩⟩

/-! ## Ranges at an end -/

/-- The leaves before an index, and those from it on. -/
theorem Packs.take_drop (h : Packs settings leaves values) (index : ℕ) :
    ∃ before after, values = before ++ after ∧ Packs settings (leaves.take index) before ∧
      Packs settings (leaves.drop index) after := by
  obtain ⟨contents, hleaves, rfl⟩ := h
  refine ⟨(contents.take index).flatten, (contents.drop index).flatten, ?_,
    ⟨_, forall₂_take index hleaves, rfl⟩, ⟨_, forall₂_drop index hleaves, rfl⟩⟩
  rw [← flatten_append, take_append_drop]

variable {count : ℕ}

/-- The whole leaves that a removal covers, and what it takes of the next. -/
theorem wholeLeaves_spec (h : count ≤ (leaves.map ListListpack.count).sum) :
    ((leaves.take (wholeLeaves leaves count).1).map ListListpack.count).sum
        + (wholeLeaves leaves count).2 = count ∧
      ((wholeLeaves leaves count).2 ≠ 0 → (wholeLeaves leaves count).1 < leaves.length ∧
        (wholeLeaves leaves count).2 < (leaves.getD (wholeLeaves leaves count).1 {}).count) := by
  induction leaves generalizing count with
  | nil =>
    obtain rfl : count = 0 := by simpa using h
    exact ⟨rfl, fun hne ↦ absurd rfl hne⟩
  | cons leaf rest ih =>
    rw [map_cons, sum_cons] at h
    rw [wholeLeaves]
    split
    · obtain ⟨hsum, hpartial⟩ := ih (by omega : count - leaf.count ≤ _)
      dsimp only
      rw [take_succ_cons, map_cons, sum_cons, getD_cons_succ, length_cons]
      refine ⟨by omega, fun hne ↦ ?_⟩
      obtain ⟨hlt, hless⟩ := hpartial hne
      exact ⟨by omega, hless⟩
    · rename_i hpart
      refine ⟨by simp, fun _ ↦ ⟨by simp, ?_⟩⟩
      exact Nat.lt_of_not_le hpart

/-- A leaf without its first values. -/
theorem HoldsLeaf.eraseFirst (h : HoldsLeaf settings leaf here) (hcnt : count < here.length) :
    HoldsLeaf settings (leaf.eraseRange 0 count) (here.drop count) := by
  have hholds := h.holds.eraseRange (by omega : 0 + count ≤ here.length)
  rw [splice, take_zero, nil_append, nil_append, zero_add] at hholds
  refine ⟨hholds, forall_drop h.stored count, ?_, ?_⟩
  · rw [Ne, drop_eq_nil_iff]
    omega
  · rw [length_drop]
    have hle := h.length_le
    omega

/-- A leaf without its last values. -/
theorem HoldsLeaf.eraseLast (h : HoldsLeaf settings leaf here) (hcnt : count < here.length) :
    HoldsLeaf settings (leaf.eraseRange (leaf.count - count) count)
      (here.take (here.length - count)) := by
  have hholds := h.holds.eraseRange (by omega : here.length - count + count ≤ here.length)
  rw [splice, append_nil, Nat.sub_add_cancel hcnt.le, drop_length, append_nil,
    ← h.holds.count_eq] at hholds
  rw [h.holds.count_eq] at hholds ⊢
  refine ⟨hholds, forall_take h.stored _, ?_, ?_⟩
  · rw [Ne, take_eq_nil_iff, not_or]
    exact ⟨by omega, h.ne_nil⟩
  · rw [length_take]
    have hle := h.length_le
    omega

section

variable (h : Packs settings leaves values) (hcnt : count ≤ values.length)
include h hcnt

/-- The leaves after a removal at the front. -/
theorem Packs.eraseFront :
    Packs settings
      ((if (wholeLeaves leaves count).2 = 0 then leaves
        else leaves.set (wholeLeaves leaves count).1
          ((leaves.getD (wholeLeaves leaves count).1 {}).eraseRange 0
            (wholeLeaves leaves count).2)).drop (wholeLeaves leaves count).1)
      (values.drop count) := by
  obtain ⟨hsum, hpartial⟩ := wholeLeaves_spec (h.sum_count.symm ▸ hcnt)
  generalize wholeLeaves leaves count = found at hsum hpartial
  obtain ⟨whole, remaining⟩ := found
  split
  · rename_i hzero
    obtain ⟨before, after, rfl, hbef, haft⟩ := h.take_drop whole
    rw [hzero, add_zero, hbef.sum_count] at hsum
    rw [← hsum, drop_left]
    exact haft
  · rename_i hne
    obtain ⟨hlt, hless⟩ := hpartial hne
    obtain ⟨front, leaf, back, before, here, after, hsplit, rfl⟩ := h.splitAt hlt
    rw [hsplit.getD_eq] at hless ⊢
    rw [hsplit.leaf.holds.count_eq] at hless
    have hbef : before.length + remaining = count := by
      rw [hsplit.leaves_eq, take_left, hsplit.front.sum_count] at hsum
      exact hsum
    have hpacks := (hsplit.leaf.eraseFirst hless).packs.append hsplit.back
    have hdrop : values.drop count = here.drop remaining ++ after := by
      rw [hsplit.values_eq, append_assoc, ← hbef, drop_length_add_append,
        drop_append_of_le_length hless.le]
    rw [hsplit.set_eq, drop_left, hdrop]
    exact hpacks

/-- The leaves after a removal at the end. -/
theorem Packs.eraseBack :
    Packs settings
      ((if (wholeLeaves leaves.reverse count).2 = 0 then leaves
        else leaves.set (leaves.length - (wholeLeaves leaves.reverse count).1 - 1)
          ((leaves.getD (leaves.length - (wholeLeaves leaves.reverse count).1 - 1) {}).eraseRange
            ((leaves.getD (leaves.length - (wholeLeaves leaves.reverse count).1 - 1) {}).count
              - (wholeLeaves leaves.reverse count).2)
            (wholeLeaves leaves.reverse count).2)).take
        (leaves.length - (wholeLeaves leaves.reverse count).1))
      (values.take (values.length - count)) := by
  have hle : count ≤ (leaves.reverse.map ListListpack.count).sum := by
    rw [map_reverse, sum_reverse, h.sum_count]
    exact hcnt
  obtain ⟨hsum, hpartial⟩ := wholeLeaves_spec hle
  generalize wholeLeaves leaves.reverse count = found at hsum hpartial
  obtain ⟨whole, remaining⟩ := found
  rw [take_reverse, map_reverse, sum_reverse] at hsum
  split
  · rename_i hzero
    obtain ⟨before, after, rfl, hbef, haft⟩ := h.take_drop (leaves.length - whole)
    rw [hzero, add_zero, haft.sum_count] at hsum
    rw [length_append, hsum, Nat.add_sub_cancel, take_left]
    exact hbef
  · rename_i hne
    obtain ⟨hlt, hless⟩ := hpartial hne
    rw [length_reverse] at hlt
    have hlast : leaves.length - whole = leaves.length - whole - 1 + 1 := by omega
    obtain ⟨front, leaf, back, before, here, after, hsplit, hfront⟩ :=
      h.splitAt (by omega : leaves.length - whole - 1 < leaves.length)
    have hreverse : leaves.reverse.getD whole {} = leaf := by
      rw [getD_eq_getElem _ _ (by rw [length_reverse]; exact hlt), getElem_reverse]
      have hget := hsplit.getD_eq
      rw [hfront, getD_eq_getElem _ _ (by omega)] at hget
      rw [← hget]
      congr 1
      omega
    rw [hreverse, hsplit.leaf.holds.count_eq] at hless
    rw [← hfront, hsplit.getD_eq, hlast, ← hfront]
    have haft : after.length + remaining = count := by
      rw [hlast, ← hfront, hsplit.leaves_eq, drop_length_add_append, drop_one,
        tail_cons, hsplit.back.sum_count] at hsum
      exact hsum
    have hpacks := hsplit.front.append (hsplit.leaf.eraseLast hless).packs
    have htake : values.take (values.length - count)
        = before ++ here.take (here.length - remaining) := by
      rw [hsplit.values_eq, append_assoc]
      simp only [length_append]
      rw [show before.length + (here.length + after.length) - count
        = before.length + (here.length - remaining) by omega, take_length_add_append,
        take_append_of_le_length (sub_le _ _)]
    rw [hsplit.set_eq, htake, take_length_add_append, take_one, head?_cons]
    exact hpacks

end

/-- The list after a removal at an end: the tree is rebuilt, or the count of the one leaf that was
trimmed is lowered. -/
theorem represents_trimmed (h : Represents settings list values true) {trimmed : List ListListpack}
    {rest : List ByteString} (hpacks : Packs settings trimmed rest)
    (hcnt : values.length = rest.length + count) {whole position : ℕ}
    (htrimmed : whole = 0 → ∃ other, trimmed = list.leaves.set position other ∧ position <
      list.leaves.length ∧ count ≤ (list.leaves.map ListListpack.count).getD position 0 ∧
      other.count = (list.leaves.map ListListpack.count).getD position 0 - count) :
    Represents settings
      (if whole ≠ 0 then rebuildIndex { list with leaves := trimmed, size := list.size - count }
      else addCount { list with leaves := trimmed, size := list.size - count } position
        (-UInt32.ofNat count)) rest true := by
  have hsize : list.size - count = rest.length := by
    rw [h.size]
    omega
  have hbound := h.bound
  split
  · exact represents_rebuildIndex hpacks hsize (by omega)
  rename_i hzero
  obtain ⟨other, rfl, hpos, hfewer, hoth⟩ := htrimmed (not_not.mp hzero)
  refine ⟨hpacks, hsize, by omega, ?_⟩
  have hidx := h.fenwick.addCount_fewer (by rwa [length_map]) hfewer
  change Fenwick.Represents _ ((list.leaves.set position other).map ListListpack.count)
  rw [map_set, hoth]
  exact hidx

/-- The end of `erase_endpoint`: a merge, if anything is left. -/
theorem mergeIfAny_spec (h : Represents settings list values true) :
    Represents settings
      (if list.leaves = [] then ({ list } : Outcome)
        else .of list (maybeMerge settings list index)).list values true := by
  split
  · exact h
  · exact Outcome.of_represents (maybeMerge_spec h)

section

variable (h : Represents settings list values indexed)
include h

theorem eraseEndpoint_front (hcnt : count ≠ 0) (hne : values ≠ []) :
    Represents settings (list.eraseEndpoint settings 0 count).list (values.drop count) true := by
  obtain rfl := h.indexed_of_ne_nil hne
  have hlen := length_pos_iff.mpr hne
  have hsize := h.size
  have hle : min count (list.size - 0) ≤ values.length := by omega
  have hpacks := h.packs.eraseFront hle
  obtain ⟨hsum, hpartial⟩ := wholeLeaves_spec (h.packs.sum_count.symm ▸ hle)
  have hdrop : values.drop count = values.drop (min count (list.size - 0)) := by
    rw [drop_eq_drop_iff]
    omega
  unfold eraseEndpoint
  rw [if_neg (by omega), hdrop]
  dsimp only
  rw [if_pos rfl, if_pos rfl, if_pos rfl, if_pos rfl]
  refine mergeIfAny_spec (represents_trimmed h hpacks (by rw [length_drop]; omega) ?_)
  -- Without a whole leaf, the first one has more values than are removed.
  intro hwhole
  rw [hwhole, take_zero, map_nil, sum_nil, zero_add] at hsum
  obtain ⟨hlt, hless⟩ := hpartial (by omega)
  obtain ⟨leaf, back, here, after, hsplit⟩ := h.packs.splitFirst (length_pos_iff.mp (by omega))
  rw [hwhole, hsum, show list.leaves.getD 0 {} = leaf from hsplit.getD_eq] at *
  rw [hsplit.leaf.holds.count_eq] at hless
  rw [if_neg (by omega), drop_zero,
    show (list.leaves.map ListListpack.count).getD 0 0 = here.length from hsplit.count_eq]
  refine ⟨_, rfl, hlt, hless.le, ?_⟩
  rw [(hsplit.leaf.eraseFirst hless).holds.count_eq, length_drop]

variable {first : ℕ}

theorem eraseEndpoint_back (hfst : first ≠ 0) (hlt : first < values.length)
    (hend : first + min count (values.length - first) = values.length) :
    Represents settings (list.eraseEndpoint settings first count).list
      (values.take first) true := by
  obtain rfl := h.indexed_of_ne_nil (length_pos_iff.mp (by omega))
  have hsize := h.size
  have hle : min count (list.size - first) ≤ values.length := by omega
  have hpacks := h.packs.eraseBack hle
  have hcover : min count (list.size - first) ≤
      (list.leaves.reverse.map ListListpack.count).sum := by
    rw [map_reverse, sum_reverse, h.packs.sum_count]
    exact hle
  obtain ⟨hsum, hpartial⟩ := wholeLeaves_spec hcover
  have htake : values.take first = values.take (values.length - min count (list.size - first)) := by
    rw [hsize, show values.length - min count (values.length - first) = first by omega]
  unfold eraseEndpoint
  rw [if_neg (by omega), htake]
  dsimp only
  rw [if_neg hfst, if_neg hfst, if_neg hfst, if_neg hfst]
  refine mergeIfAny_spec (represents_trimmed h hpacks (by rw [length_take]; omega) ?_)
  intro hwhole
  rw [hwhole, take_zero, map_nil, sum_nil, zero_add] at hsum
  obtain ⟨hlt, hless⟩ := hpartial (by omega)
  rw [length_reverse] at hlt
  obtain ⟨front, leaf, before, here, hsplit, hfront⟩ :=
    h.packs.splitLast (length_pos_iff.mp (by omega))
  have hreverse : list.leaves.reverse.getD 0 {} = leaf := by
    rw [hsplit.leaves_eq, reverse_append]
    rfl
  rw [hwhole, hreverse, hsum, hsplit.leaf.holds.count_eq] at hless
  rw [hwhole, hsum, Nat.sub_zero, ← hfront, hsplit.getD_eq, if_neg (by omega), hsplit.count_eq,
    take_of_length_le (by rw [length_set])]
  refine ⟨_, rfl, by omega, hless.le, ?_⟩
  rw [(hsplit.leaf.eraseLast hless).holds.count_eq, length_take]
  omega

/-- `erase_endpoint` of a range at either end. -/
theorem eraseEndpoint_spec
    (hend : values.length ≤ first ∨ first = 0 ∨ first + min count (values.length - first) =
      values.length) :
    Represents settings (list.eraseEndpoint settings first count).list
      (splice values first (min count (values.length - first)) []) indexed := by
  by_cases hnothing : list.size ≤ first ∨ count = 0
  · have hsame : splice values first (min count (values.length - first)) [] = values := by
      have hzero : min count (values.length - first) = 0 := by
        rw [h.size] at hnothing
        omega
      rw [hzero, splice, append_nil, add_zero, take_append_drop]
    rw [hsame, eraseEndpoint, if_pos hnothing]
    exact h
  · rw [h.size, not_or] at hnothing
    obtain rfl := h.indexed_of_ne_nil (length_pos_iff.mp (by omega))
    by_cases hfst : first = 0
    · subst hfst
      have hdrop : splice values 0 (min count (values.length - 0)) [] = values.drop count := by
        rw [splice, take_zero, nil_append, nil_append, drop_eq_drop_iff]
        omega
      rw [hdrop]
      exact eraseEndpoint_front h hnothing.2 (length_pos_iff.mp (by omega))
    · have hlast : first + min count (values.length - first) = values.length := by omega
      have htake : splice values first (min count (values.length - first)) []
          = values.take first := by
        rw [splice, hlast, drop_length, append_nil, append_nil]
      rw [htake]
      exact eraseEndpoint_back h hfst (by omega) hlast

end

end GoblinCore.SegmentedList
