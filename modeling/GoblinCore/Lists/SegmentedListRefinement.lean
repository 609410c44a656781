import GoblinCore.Lists.SegmentedLeaves

/-!
# The segmented list refines a sequence

The leaves hold the values one after another and the tree holds their counts, except that a list
that was never filled, or that adopted an empty listpack, has no tree.  Every call keeps this, for
values that read back: it stores them all, or throws because one of them was not encoded.
-/

namespace GoblinCore.SegmentedList

open StringEncoding ListListpack Refusable List Fenwick

variable {settings : Settings} {leaves front back : List ListListpack} {values : List ByteString}

/-! ## Leaves and their values -/

theorem Packs.of_cons {leaf : ListListpack} (h : Packs settings (leaf :: leaves) values) :
    ∃ here after, values = here ++ after ∧ HoldsLeaf settings leaf here ∧
      Packs settings leaves after := by
  obtain ⟨_, hleaves, rfl⟩ := h
  cases hleaves with
  | cons hleaf hrest => exact ⟨_, _, flatten_cons, hleaf, _, hrest, rfl⟩

theorem Packs.sum_count (h : Packs settings leaves values) :
    (leaves.map ListListpack.count).sum = values.length := by
  obtain ⟨contents, hleaves, rfl⟩ := h
  induction hleaves with
  | nil => rfl
  | cons hleaf _ ih =>
    rw [map_cons, sum_cons, hleaf.holds.count_eq, ih, flatten_cons, length_append]

theorem Packs.stored (h : Packs settings leaves values) : Stored settings values := by
  obtain ⟨contents, hleaves, rfl⟩ := h
  induction hleaves with
  | nil => exact forall_mem_nil _
  | cons hleaf _ ih =>
    rw [flatten_cons]
    exact forall_mem_append.mpr ⟨hleaf.stored, ih⟩

theorem Packs.nil (h : Packs settings [] values) : values = [] := by
  obtain ⟨contents, hleaves, rfl⟩ := h
  rw [forall₂_nil_left_iff.mp hleaves]
  rfl

theorem Packs.eq_nil (h : Packs settings leaves []) : leaves = [] := by
  cases leaves with
  | nil => rfl
  | cons leaf leaves =>
    obtain ⟨here, after, hnil, hleaf, -⟩ := h.of_cons
    exact absurd (append_eq_nil_iff.mp hnil.symm).1 hleaf.ne_nil

theorem Packs.count_bounds (h : Packs settings leaves values) :
    ∀ leaf ∈ leaves, leaf.count ≠ 0 ∧ leaf.count ≤ settings.leafEntries := by
  obtain ⟨contents, hleaves, -⟩ := h
  induction hleaves with
  | nil => simp
  | cons hleaf _ ih =>
    intro leaf hmem
    rcases mem_cons.mp hmem with rfl | hmem
    · rw [hleaf.holds.count_eq]
      exact ⟨length_pos_iff.mpr hleaf.ne_nil |>.ne', hleaf.length_le⟩
    · exact ih leaf hmem

/-- The leaves around one, and the values each part holds. -/
structure SplitAt (settings : Settings) (leaves : List ListListpack) (values : List ByteString)
    (front : List ListListpack) (leaf : ListListpack) (back : List ListListpack)
    (before here after : List ByteString) : Prop where
  leaves_eq : leaves = front ++ leaf :: back
  values_eq : values = before ++ here ++ after
  front : Packs settings front before
  leaf : HoldsLeaf settings leaf here
  back : Packs settings back after

section

variable (h : Packs settings leaves values)
include h

theorem Packs.splitAt {index : ℕ} (hidx : index < leaves.length) :
    ∃ front leaf back before here after,
      SplitAt settings leaves values front leaf back before here after ∧ front.length = index := by
  obtain ⟨contents, hleaves, rfl⟩ := h
  induction hleaves generalizing index with
  | nil => cases hidx
  | @cons leaf content leaves contents hleaf hrest ih =>
    cases index with
    | zero =>
      exact ⟨[], leaf, leaves, [], content, contents.flatten,
        ⟨rfl, rfl, packs_nil, hleaf, ⟨contents, hrest, rfl⟩⟩, rfl⟩
    | succ index =>
      obtain ⟨front, other, back, before, here, after, hsplit, hfront⟩ :=
        ih (by simpa using hidx)
      refine ⟨leaf :: front, other, back, content ++ before, here, after, ⟨?_, ?_, ?_, ?_, ?_⟩, ?_⟩
      · rw [hsplit.leaves_eq, cons_append]
      · rw [flatten_cons, hsplit.values_eq, append_assoc, append_assoc, append_assoc]
      · exact hleaf.packs.append hsplit.front
      · exact hsplit.leaf
      · exact hsplit.back
      · rw [length_cons, hfront]

/-- The last leaf. -/
theorem Packs.splitLast (hne : leaves ≠ []) :
    ∃ front leaf before here,
      SplitAt settings leaves values front leaf [] before here [] ∧
        front.length = leaves.length - 1 := by
  have hlen := length_pos_iff.mpr hne
  obtain ⟨front, leaf, back, before, here, after, hsplit, hfront⟩ :=
    h.splitAt (by omega : leaves.length - 1 < leaves.length)
  have hback : back = [] := by
    have htotal := congrArg List.length hsplit.leaves_eq
    simp only [length_append, length_cons] at htotal
    exact length_eq_zero_iff.mp (by omega)
  subst hback
  obtain rfl := hsplit.back.nil
  exact ⟨front, leaf, before, here, hsplit, hfront⟩

/-- The first leaf. -/
theorem Packs.splitFirst (hne : leaves ≠ []) :
    ∃ leaf back here after, SplitAt settings leaves values [] leaf back [] here after := by
  obtain ⟨front, leaf, back, before, here, after, hsplit, hfront⟩ :=
    h.splitAt (length_pos_iff.mpr hne)
  obtain rfl := length_eq_zero_iff.mp hfront
  obtain rfl := hsplit.front.nil
  exact ⟨leaf, back, here, after, hsplit⟩

end

namespace SplitAt

variable {leaf : ListListpack} {before here after : List ByteString}

section

variable (h : SplitAt settings leaves values front leaf back before here after)
include h

theorem getD_eq : leaves.getD front.length {} = leaf := by
  rw [h.leaves_eq, getD_append_right _ _ _ _ (le_refl _), Nat.sub_self, getD_cons_zero]

theorem set_eq (other : ListListpack) : leaves.set front.length other = front ++ other :: back := by
  rw [h.leaves_eq, set_append_right _ _ (le_refl _), Nat.sub_self, set_cons_zero]

theorem splice_eq (others : List ListListpack) :
    splice leaves front.length 1 others = front ++ others ++ back := by
  rw [splice, h.leaves_eq, take_left, drop_length_add_append, drop_one, tail_cons]

/-- Replacing some of the values of the leaf replaces them in the list. -/
theorem splice_values {offset count : ℕ} (hcnt : offset + count ≤ here.length)
    {others : List ByteString} :
    splice values (before.length + offset) count others
      = before ++ splice here offset count others ++ after := by
  rw [h.values_eq, append_assoc, splice_append_right, splice_append_left hcnt, append_assoc]

/-- The leaf replaced by leaves that hold other values. -/
theorem packs {others : List ListListpack} {more : List ByteString}
    (hoths : Packs settings others more) :
    Packs settings (front ++ others ++ back) (before ++ more ++ after) :=
  (h.front.append hoths).append h.back

end

end SplitAt

/-! ## The list and its values -/

/-- A list that holds the values, with or without the tree. -/
structure Represents (settings : Settings) (list : SegmentedList) (values : List ByteString)
    (indexed : Bool) : Prop where
  packs : Packs settings list.leaves values
  size : list.size = values.length
  bound : values.length < 2 ^ 32
  index : if indexed then
      Fenwick.Represents list.fenwick (list.leaves.map ListListpack.count)
    else list.leaves = [] ∧ list.fenwick = []

variable {list : SegmentedList} {indexed : Bool}

theorem represents_empty : Represents settings {} [] false where
  packs := packs_nil
  size := rfl
  bound := by decide
  index := ⟨rfl, rfl⟩

theorem represents_rebuildIndex (hpacks : Packs settings list.leaves values)
    (hsize : list.size = values.length) (hbound : values.length < 2 ^ 32) :
    Represents settings list.rebuildIndex values true where
  packs := hpacks
  size := hsize
  bound := hbound
  index := represents_build

theorem Represents.indexed_of_ne_nil (h : Represents settings list values indexed)
    (hne : values ≠ []) : indexed = true := by
  cases indexed with
  | true => rfl
  | false =>
    have hidx := h.index
    exact absurd (hidx.1 ▸ h.packs).nil hne

theorem Represents.indexed_of_leaves (h : Represents settings list values indexed)
    (hne : list.leaves ≠ []) : indexed = true :=
  h.indexed_of_ne_nil fun hnil ↦ hne (hnil ▸ h.packs).eq_nil

theorem Represents.fenwick (h : Represents settings list values true) :
    Fenwick.Represents list.fenwick (list.leaves.map ListListpack.count) := h.index

variable {count : ℕ}

/-- The tree gives the number of values before a leaf. -/
theorem Represents.prefixCount_eq (h : Represents settings list values true)
    (hcnt : count ≤ list.leaves.length) :
    (prefixCount list.fenwick count).toNat = total (list.leaves.map ListListpack.count) count := by
  rw [h.fenwick.prefixCount_eq (by rwa [length_map])]
  refine UInt32.toNat_ofNat_of_lt' (lt_of_le_of_lt (total_le_sum _ _) ?_)
  rw [h.packs.sum_count]
  exact h.bound

/-- `check_invariants` is whether there is a tree. -/
theorem Represents.checkInvariants_eq (h : Represents settings list values indexed) :
    list.checkInvariants settings = indexed := by
  have hleaves : list.leaves.all (fun leaf ↦ leaf.count ≠ 0 && leaf.count ≤ settings.leafEntries)
      = true := by
    rw [all_eq_true]
    intro leaf hleaf
    simpa using h.packs.count_bounds leaf hleaf
  have hsum := h.packs.sum_count.trans h.size.symm
  unfold checkInvariants
  rw [hleaves, decide_eq_true hsum]
  cases indexed with
  | true =>
    have hlen : list.fenwick.length = list.leaves.length + 1 := by
      rw [h.fenwick.length, length_map]
    have hpre : (prefixCount list.fenwick list.leaves.length).toNat = list.size := by
      have htotal : total (list.leaves.map ListListpack.count)
          (list.leaves.map ListListpack.count).length = _ := total_length
      rw [length_map] at htotal
      rw [h.prefixCount_eq (le_refl _), htotal, hsum]
    simp [hlen, hpre]
  | false =>
    have hidx := h.index
    simp [hidx.1, hidx.2]

variable {leaf : ListListpack} {before here after : List ByteString}

section

variable (h : SplitAt settings leaves values front leaf back before here after)
include h

theorem SplitAt.total_eq : total (leaves.map ListListpack.count) front.length = before.length := by
  rw [total, h.leaves_eq, map_append, take_left' (by rw [length_map]), h.front.sum_count]

theorem SplitAt.count_eq : (leaves.map ListListpack.count).getD front.length 0 = here.length := by
  rw [h.leaves_eq, map_append, getD_append_right _ _ _ _ (by rw [length_map]),
    length_map, Nat.sub_self, map_cons, getD_cons_zero, h.leaf.holds.count_eq]

theorem SplitAt.lt_length : front.length < (leaves.map ListListpack.count).length := by
  rw [h.leaves_eq, length_map, length_append, length_cons]
  omega

theorem SplitAt.set_count :
    (leaves.map ListListpack.count).set front.length here.length
      = leaves.map ListListpack.count := by
  rw [← h.count_eq, getD_eq_getElem _ _ h.lt_length, set_getElem_self]

theorem SplitAt.getElem?_eq {index : ℕ} (hidx : index < here.length) :
    values[before.length + index]? = here[index]? := by
  rw [h.values_eq, append_assoc, getElem?_append_right (by omega), Nat.add_sub_cancel_left,
    getElem?_append_left hidx]

theorem SplitAt.getElem_eq {index : ℕ} (hidx : index < here.length)
    (hlt : before.length + index < values.length) :
    values[before.length + index] = here[index] := by
  have hget := h.getElem?_eq hidx
  rwa [getElem?_eq_getElem hlt, getElem?_eq_getElem hidx, Option.some_inj] at hget

end

/-- A rank is located in the leaf that holds its value. -/
theorem Represents.locate_spec (h : Represents settings list values indexed) {rank : ℕ}
    (hrank : rank < values.length) :
    ∃ front leaf back before here after offset,
      SplitAt settings list.leaves values front leaf back before here after ∧
        list.locate rank = (front.length, offset) ∧ before.length + offset = rank ∧
        offset < here.length := by
  obtain rfl := h.indexed_of_ne_nil (length_pos_iff.mp (by omega))
  have hsum := h.packs.sum_count
  have hbound := h.bound
  obtain ⟨hleaf, hstart, hoff⟩ := h.fenwick.locate_spec (by omega) (by omega : rank < _)
  rw [length_map] at hleaf hstart hoff
  obtain ⟨front, leaf, back, before, here, after, hsplit, hfront⟩ := h.packs.splitAt hleaf
  rw [← hfront, hsplit.total_eq] at hstart
  rw [← hfront, hsplit.count_eq] at hoff
  exact ⟨front, leaf, back, before, here, after, _, hsplit, by rw [hfront]; rfl, hstart, hoff⟩

variable {index offset : ℕ} {others : List ByteString} {value : ByteString}
  {result : Except String SegmentedList}

/-- The place of an insertion, at the end or before a value. -/
theorem Represents.locationAt_spec (h : Represents settings list values indexed)
    (hleaves : list.leaves ≠ []) (hidx : index ≤ values.length) :
    ∃ front leaf back before here after offset,
      SplitAt settings list.leaves values front leaf back before here after ∧
        list.locationAt index = (front.length, offset) ∧ before.length + offset = index ∧
        offset ≤ here.length := by
  unfold locationAt
  rw [h.size]
  split
  · rename_i hend
    obtain ⟨front, leaf, before, here, hsplit, hfront⟩ := h.packs.splitLast hleaves
    refine ⟨front, leaf, [], before, here, [], here.length, hsplit, ?_, ?_, le_refl _⟩
    · rw [tailLocation, leafAt, ← hfront, hsplit.getD_eq, hsplit.leaf.holds.count_eq]
    · rw [hend, hsplit.values_eq, append_nil, length_append]
  · obtain ⟨front, leaf, back, before, here, after, offset, hsplit, hlocate, hstart, hoff⟩ :=
      h.locate_spec (by omega : index < values.length)
    exact ⟨front, leaf, back, before, here, after, offset, hsplit, hlocate, hstart, hoff.le⟩

/-! ## Changing leaves -/

section

variable (h : Represents settings list values indexed)
  (hsplit : SplitAt settings list.leaves values front leaf back before here after) {size : ℕ}
  (hsize : size + here.length = list.size + others.length) (hbound : size < 2 ^ 32)
include h hsplit hsize

theorem Represents.length_changed : size = (before ++ others ++ after).length := by
  have hlen := h.size.trans (congrArg List.length hsplit.values_eq)
  simp only [length_append] at hlen ⊢
  omega

include hbound

/-- One leaf changed, and its count in the tree. -/
theorem Represents.changeLeaf {other : ListListpack} {fenwick : List UInt32}
    (hoth : HoldsLeaf settings other others)
    (hfenwick : Fenwick.Represents fenwick ((list.leaves.map ListListpack.count).set front.length
      others.length)) :
    Represents settings ⟨list.leaves.set front.length other, fenwick, size⟩
      (before ++ others ++ after) true where
  packs := by
    rw [hsplit.set_eq, ← singleton_append, ← append_assoc]
    exact hsplit.packs hoth.packs
  size := h.length_changed hsplit hsize
  bound := h.length_changed hsplit hsize ▸ hbound
  index := by
    rw [map_set, hoth.holds.count_eq]
    exact hfenwick

/-- One leaf replaced by others. -/
theorem Represents.changeLeaves {leaves : List ListListpack}
    (hleaves : Packs settings leaves others) :
    Represents settings (rebuildIndex { list with leaves := front ++ leaves ++ back, size })
      (before ++ others ++ after) true :=
  represents_rebuildIndex (hsplit.packs hleaves) (h.length_changed hsplit hsize)
    (h.length_changed hsplit hsize ▸ hbound)

end

/-- A leaf built anew from other values. -/
theorem replaceLeaf_spec {bias : LeafBias}
    (hsplit : SplitAt settings list.leaves values front leaf back before here after)
    (hround : ReadBack settings others) :
    Yields (replaceLeaf settings list front.length others bias) (¬Stored settings others)
      fun list' ↦ ∃ leaves, Packs settings leaves others ∧
        list' = rebuildIndex { list with leaves := front ++ leaves ++ back } := by
  refine (buildLeaves_spec bias hround).bind id fun built hbuilt ↦ ⟨built, hbuilt, ?_⟩
  rw [hsplit.splice_eq]

/-! ## Insertion -/

theorem singleLeaf_spec (hround : ReadBack settings [value]) :
    Yields (singleLeaf settings value) (¬Stored settings [value])
      (HoldsLeaf settings · [value]) := by
  have hone := one_le_leafEntries settings
  have hemp : Holds settings.lz4 settings.encoding {} [] := holds_empty
  refine (hemp.insert (le_refl 0) (hround value (by simp)) hone).bind
    (fun hrefused hall ↦ hrefused (hall value (by simp))) fun inserted hinserted ↦ ?_
  cases inserted with
  | none => exact absurd rfl hinserted
  | some leaf =>
    obtain ⟨hval, hholds, -⟩ := hinserted
    exact ⟨by simpa using hholds, forall_mem_singleton.mpr hval, cons_ne_nil _ _, hone⟩

theorem stored_splice {first : ℕ} (hvals : Stored settings values)
    (hoths : Stored settings others) : Stored settings (splice values first count others) :=
  fun value hmem ↦ (mem_splice hmem).elim (hvals value) (hoths value)

theorem readBack_splice {first : ℕ} (hvals : Stored settings values)
    (hround : ReadBack settings others) :
    ReadBack settings (splice values first count others) :=
  fun value hmem ↦ (mem_splice hmem).elim (fun hold ↦ (hvals value hold).2) (hround value)

/-- A leaf that took one more value, or one for another. -/
theorem HoldsLeaf.spliced {other : ListListpack} (h : HoldsLeaf settings leaf here)
    (hval : CanStore settings value)
    (hoth : Holds settings.lz4 settings.encoding other (splice here offset count [value]))
    (hcnt : other.count ≤ settings.leafEntries) :
    HoldsLeaf settings other (splice here offset count [value]) :=
  ⟨hoth, stored_splice h.stored (forall_mem_singleton.mpr hval),
    ne_nil_of_mem (mem_splice_of_mem (mem_singleton_self value)), hoth.count_eq ▸ hcnt⟩

theorem insertInLeaf_spec (hround : ReadBack settings [value])
    (hleaf : HoldsLeaf settings leaf here) (hoff : offset ≤ here.length) :
    Yields (insertInLeaf settings leaf offset value) (¬Stored settings [value]) fun inserted ↦
      ∀ other, inserted = some other → HoldsLeaf settings other (splice here offset 0 [value]) := by
  refine (hleaf.holds.insert hoff (hround value (by simp)) (one_le_leafEntries settings)).mono
    (fun hrefused hall ↦ hrefused (hall value (by simp))) fun inserted hinserted other hoth ↦ ?_
  subst hoth
  obtain ⟨hval, hholds, hcnt⟩ := hinserted
  exact hleaf.spliced hval hholds hcnt

/-- Values put into a leaf that is built anew. -/
theorem insertRebuilding_spec (h : Represents settings list values indexed)
    (hsplit : SplitAt settings list.leaves values front leaf back before here after)
    (hoff : offset ≤ here.length) (hround : ReadBack settings others)
    (hbound : values.length + others.length < 2 ^ 32) :
    Yields (list.insertRebuilding settings index others (front.length, offset))
      (¬Stored settings others)
      (Represents settings · (splice values (before.length + offset) 0 others) true) := by
  unfold insertRebuilding
  rw [show list.leafAt (front.length, offset).1 = leaf from hsplit.getD_eq,
    leafValues_eq hsplit.leaf.holds, hsplit.splice_values (by omega)]
  refine (replaceLeaf_spec hsplit (readBack_splice hsplit.leaf.stored hround)).bind
    (fun hrefused hall ↦ hrefused (stored_splice hsplit.leaf.stored hall)) ?_
  rintro _ ⟨leaves, hleaves, rfl⟩
  have hsize : list.size + others.length + here.length
      = list.size + (splice here offset 0 others).length := by
    rw [length_splice (by omega)]
    omega
  exact h.changeLeaves hsplit hsize (h.size ▸ hbound) hleaves

/-- `insert` of a value that reads back. -/
theorem insertResult_spec (h : Represents settings list values indexed)
    (hidx : index ≤ values.length) (hround : ReadBack settings [value])
    (hbound : values.length + 1 < 2 ^ 32) :
    Yields (list.insertResult settings index value) (¬Stored settings [value])
      (Represents settings · (splice values index 0 [value]) true) := by
  have hsize := h.size
  have hlen : (splice values index 0 [value]).length = values.length + 1 :=
    length_splice (by omega)
  unfold insertResult
  split
  · rename_i hleaves
    obtain rfl := (hleaves ▸ h.packs).nil
    obtain rfl : index = 0 := by simpa using hidx
    refine (singleLeaf_spec hround).bind id fun leaf hleaf ↦ ?_
    exact represents_rebuildIndex (by simpa using hleaf.packs) rfl (by simp)
  rename_i hleaves
  split
  · rename_i hfront
    obtain ⟨rfl, -⟩ := hfront
    refine (singleLeaf_spec hround).bind id fun leaf hleaf ↦ ?_
    exact represents_rebuildIndex (hleaf.packs.append h.packs) (by simp [hsize]) (by omega)
  split
  · rename_i hback
    obtain ⟨rfl, -⟩ := hback
    refine (singleLeaf_spec hround).bind id fun leaf hleaf ↦ ?_
    refine represents_rebuildIndex ?_ (by rw [hlen, ← hsize]) (by omega)
    rw [hsize, splice_back]
    exact h.packs.append hleaf.packs
  obtain ⟨front, leaf, back, before, here, after, offset, hsplit, hloc, rfl, hoff⟩ :=
    h.locationAt_spec hleaves hidx
  rw [hloc]
  dsimp only
  rw [show list.leafAt front.length = leaf from hsplit.getD_eq]
  refine (insertInLeaf_spec hround hsplit.leaf hoff).bind id fun inserted hinserted ↦ ?_
  cases inserted with
  | none => exact insertRebuilding_spec h hsplit hoff hround hbound
  | some other =>
    obtain rfl := h.indexed_of_leaves hleaves
    have hhere : (splice here offset 0 [value]).length = here.length + 1 :=
      length_splice (by omega)
    have hmore := h.fenwick.addCount_more hsplit.lt_length 1
    rw [hsplit.count_eq, ← hhere] at hmore
    rw [hsplit.splice_values (by omega)]
    exact h.changeLeaf hsplit (by rw [hhere, Nat.add_right_comm]; rfl) (hsize ▸ hbound)
      (hinserted other rfl) hmore

/-! ## Batches -/

theorem assignResult_spec (hround : ReadBack settings values) :
    Yields (assignResult settings values) (¬(values.length < 2 ^ 32 ∧ Stored settings values))
      (Represents settings · values true) := by
  unfold assignResult
  split
  · rename_i hmany
    exact fun hboth ↦ absurd hboth.1 (by omega)
  · refine (buildViewLeaves_spec hround).bind (fun hrefused hboth ↦ hrefused hboth.2) ?_
    exact fun leaves hleaves ↦ represents_rebuildIndex hleaves rfl (by omega)

/-- Leaves of their own at the end, or at the front. -/
theorem appendLeaves_spec (h : Represents settings list values indexed)
    (hround : ReadBack settings others) (hbound : values.length + others.length < 2 ^ 32) :
    Yields (buildViewLeaves settings others) (¬Stored settings others) fun additions ↦
      Represents settings (rebuildIndex { list with
        leaves := list.leaves ++ additions, size := list.size + others.length })
        (values ++ others) true ∧
      Represents settings (rebuildIndex { list with
        leaves := additions ++ list.leaves, size := list.size + others.length })
        (others ++ values) true := by
  refine (buildViewLeaves_spec hround).mono id fun additions hpacks ↦ ⟨?_, ?_⟩
  · refine represents_rebuildIndex (h.packs.append hpacks) ?_ (by rwa [length_append])
    rw [length_append, ← h.size]
  · refine represents_rebuildIndex (hpacks.append h.packs) ?_ ?_
    · rw [length_append, ← h.size, Nat.add_comm]
    · rwa [length_append, Nat.add_comm]

theorem Stored.readBack (h : Stored settings others) : ReadBack settings others :=
  fun value hmem ↦ (h value hmem).2

section

variable (hleaf : HoldsLeaf settings leaf here) (hoths : Stored settings others)
include hleaf hoths

/-- Filling the last leaf: it takes a first part of the values. -/
theorem fillBack_spec :
    ∃ filled taken rest, fillBack settings leaf others = .ok (filled, rest) ∧
      others = taken ++ rest ∧ HoldsLeaf settings filled (here ++ taken) := by
  induction others generalizing leaf here with
  | nil => exact ⟨leaf, [], [], rfl, rfl, by rwa [append_nil]⟩
  | cons value rest ih =>
    obtain ⟨hval, hrest⟩ := forall_mem_cons.mp hoths
    have hone : Stored settings [value] := forall_mem_singleton.mpr hval
    rw [fillBack]
    split
    · obtain ⟨inserted, hinsert, hoth⟩ :=
        (insertInLeaf_spec hone.readBack hleaf (le_refl here.length)).ok (not_not.mpr hone)
      rw [hleaf.holds.count_eq, hinsert]
      cases inserted with
      | none => exact ⟨leaf, [], value :: rest, rfl, rfl, by rwa [append_nil]⟩
      | some other =>
        have hmore := hoth other rfl
        rw [splice_back] at hmore
        obtain ⟨filled, taken, left, hfill, hparts, hholds⟩ := ih hmore hrest
        refine ⟨filled, value :: taken, left, hfill, by rw [hparts, cons_append], ?_⟩
        rwa [append_assoc, singleton_append] at hholds
    · exact ⟨leaf, [], value :: rest, rfl, rfl, by rwa [append_nil]⟩

/-- Filling the first leaf: it takes a first part of the reversed values. -/
theorem fillFront_spec :
    ∃ filled taken rest, fillFront settings leaf others = .ok (filled, rest) ∧
      others = taken ++ rest ∧ HoldsLeaf settings filled (taken.reverse ++ here) := by
  induction others generalizing leaf here with
  | nil => exact ⟨leaf, [], [], rfl, rfl, hleaf⟩
  | cons value rest ih =>
    obtain ⟨hval, hrest⟩ := forall_mem_cons.mp hoths
    have hone : Stored settings [value] := forall_mem_singleton.mpr hval
    rw [fillFront]
    split
    · obtain ⟨inserted, hinsert, hoth⟩ :=
        (insertInLeaf_spec hone.readBack hleaf (Nat.zero_le here.length)).ok (not_not.mpr hone)
      rw [hinsert]
      cases inserted with
      | none => exact ⟨leaf, [], value :: rest, rfl, rfl, hleaf⟩
      | some other =>
        obtain ⟨filled, taken, left, hfill, hparts, hholds⟩ := ih (hoth other rfl) hrest
        refine ⟨filled, value :: taken, left, hfill, by rw [hparts, cons_append], ?_⟩
        rwa [reverse_cons, append_assoc]
    · exact ⟨leaf, [], value :: rest, rfl, rfl, hleaf⟩

end

section

variable (h : Represents settings list values true)
  (hsplit : SplitAt settings list.leaves values front leaf back before here after)
include h hsplit

variable {filled : ListListpack} {added : ℕ}

/-- A leaf that took some more values, with its count raised. -/
theorem represents_filled (hfilled : HoldsLeaf settings filled others)
    (hadded : others.length = here.length + added) (hbound : values.length + added < 2 ^ 32) :
    Represents settings
      (if added ≠ 0 then
        { addCount { list with leaves := list.leaves.set front.length filled } front.length
            (UInt32.ofNat added) with size := list.size + added }
      else { list with leaves := list.leaves.set front.length filled })
      (before ++ others ++ after) true := by
  have hsize := h.size
  have hmore := h.fenwick.addCount_more hsplit.lt_length added
  rw [hsplit.count_eq, ← hadded] at hmore
  split
  · exact h.changeLeaf hsplit (by omega) (by omega) hfilled hmore
  · refine h.changeLeaf hsplit (by omega) (by omega) hfilled ?_
    rw [show others.length = here.length by omega, hsplit.set_count]
    exact h.fenwick

/-- What is left of a batch after a leaf was filled goes to leaves of its own. -/
theorem finishFill_spec {remainder : List ByteString} (hfilled : HoldsLeaf settings filled others)
    (hadded : others.length = here.length + added) (hremainder : Stored settings remainder)
    (hbound : values.length + added + remainder.length < 2 ^ 32) (toFront : Bool) :
    Represents settings
      (list.finishFill settings front.length filled added remainder toFront).list
      (if toFront then remainder ++ (before ++ others ++ after)
        else before ++ others ++ after ++ remainder) true := by
  have hlist := represents_filled h hsplit hfilled hadded (by omega)
  have hlen : values.length + added = (before ++ others ++ after).length :=
    h.length_changed hsplit (by rw [h.size]; omega)
  unfold finishFill
  dsimp only
  split
  · rename_i hnil
    cases toFront <;> simpa [hnil] using hlist
  obtain ⟨additions, hbuild, hback, hfront⟩ :=
    (appendLeaves_spec hlist hremainder.readBack (hlen ▸ hbound)).ok (not_not.mpr hremainder)
  rw [hbuild]
  cases toFront with
  | true => exact hfront
  | false => exact hback

end

section

variable (h : Represents settings list values true) (hleaves : list.leaves ≠ [])
  (hoths : Stored settings others) (hbound : values.length + others.length < 2 ^ 32)
include h hleaves hoths hbound

/-- A batch at the end, where the last leaf has room. -/
theorem fillBack_represents :
    ∃ filled rest,
      fillBack settings (list.leafAt (list.leaves.length - 1)) others = .ok (filled, rest) ∧
        Represents settings (list.finishFill settings (list.leaves.length - 1) filled
          (others.length - rest.length) rest false).list (values ++ others) true := by
  obtain ⟨front, leaf, before, here, hsplit, hfront⟩ := h.packs.splitLast hleaves
  rw [← hfront, show list.leafAt front.length = leaf from hsplit.getD_eq]
  obtain ⟨filled, taken, rest, hfill, rfl, hholds⟩ := fillBack_spec hsplit.leaf hoths
  refine ⟨filled, rest, hfill, ?_⟩
  rw [length_append] at hbound
  have hdone := finishFill_spec h hsplit hholds length_append
    (forall_mem_append.mp hoths).2 (by omega) false
  have hvals : values ++ (taken ++ rest) = before ++ (here ++ taken) ++ [] ++ rest := by
    rw [hsplit.values_eq]
    simp only [append_nil, append_assoc]
  rw [length_append, Nat.add_sub_cancel, hvals]
  exact hdone

/-- A batch at the front, where the first leaf has room. -/
theorem fillFront_represents :
    ∃ filled rest, fillFront settings (list.leafAt 0) others.reverse = .ok (filled, rest) ∧
      Represents settings (list.finishFill settings 0 filled
        (others.length - rest.length) rest.reverse true).list (others ++ values) true := by
  obtain ⟨leaf, back, here, after, hsplit⟩ := h.packs.splitFirst hleaves
  rw [show list.leafAt 0 = leaf from hsplit.getD_eq]
  obtain ⟨filled, taken, rest, hfill, hparts, hholds⟩ := fillFront_spec hsplit.leaf
    (fun value hmem ↦ hoths value (mem_reverse.mp hmem) : Stored settings others.reverse)
  refine ⟨filled, rest, hfill, ?_⟩
  obtain rfl : others = rest.reverse ++ taken.reverse := by
    rw [← reverse_append, ← hparts, reverse_reverse]
  have hadded : (rest.reverse ++ taken.reverse).length - rest.length = taken.length := by
    simp only [length_append, length_reverse]
    omega
  simp only [length_append, length_reverse] at hbound
  have hdone := finishFill_spec h hsplit hholds
    (by rw [length_append, length_reverse, Nat.add_comm]) (forall_mem_append.mp hoths).1
    (by rw [length_reverse]; omega) true
  have hvals : rest.reverse ++ taken.reverse ++ values
      = rest.reverse ++ ([] ++ (taken.reverse ++ here) ++ after) := by
    rw [hsplit.values_eq]
    simp only [nil_append, append_assoc]
  rw [hadded, hvals]
  exact hdone

end

/-! ## Calls that keep the list where they throw -/

theorem Outcome.of_represents
    (h : ∃ list', result = .ok list' ∧ Represents settings list' values true) :
    Represents settings (Outcome.of list result).list values true := by
  obtain ⟨list', rfl, hlist⟩ := h
  exact hlist

section

variable {ok : Bool} (h : Represents settings list values indexed)
include h

theorem Outcome.of_yields {next : List ByteString}
    (hdone : Yields result (ok = false) (Represents settings · next true))
    (hok : next.length < 2 ^ 32 → Stored settings next → ok = true) :
    Represents settings (Outcome.of list result).list (if ok then next else values)
      (indexed || ok) := by
  cases result with
  | ok list' =>
    have hlist : Represents settings list' next true := hdone
    rw [hok hlist.bound hlist.packs.stored, Bool.or_true]
    exact hlist
  | error message =>
    obtain rfl : ok = false := hdone
    rw [Bool.or_false]
    exact h

/-- `insert_many` of values that read back; at an end without a ceiling they are all stored. -/
theorem insertMany_spec {ceiling : Bool} (hidx : index ≤ values.length) (hne : others ≠ [])
    (hround : ReadBack settings others) (hbound : values.length + others.length < 2 ^ 32)
    (hok : ok = true ↔ Stored settings others)
    (hends : ceiling = false → values ≠ [] → index = 0 ∨ index = values.length → ok = true) :
    Represents settings (list.insertMany settings ceiling index others).list
      (if ok then splice values index 0 others else values) (indexed || ok) := by
  have hrefused (hunfit : ¬Stored settings others) : ok = false :=
    Bool.eq_false_iff.mpr (hunfit ∘ hok.mp)
  have hall {first : ℕ} (hall : Stored settings (splice values first 0 others)) : ok = true :=
    hok.mpr fun value hmem ↦ hall value (mem_splice_of_mem hmem)
  unfold insertMany
  rw [if_neg hne]
  split
  · rename_i hleaves
    obtain rfl := (hleaves ▸ h.packs).nil
    obtain rfl : index = 0 := by simpa using hidx
    rw [splice_front, append_nil]
    refine Outcome.of_yields h ((assignResult_spec hround).mono ?_ fun _ ↦ id) fun _ ↦ hok.mpr
    exact fun hfails ↦ hrefused fun hall ↦ hfails ⟨by simpa using hbound, hall⟩
  rename_i hleaves
  split
  · obtain ⟨front, leaf, back, before, here, after, offset, hsplit, hloc, rfl, hoff⟩ :=
      h.locationAt_spec hleaves hidx
    rw [hloc]
    exact Outcome.of_yields h ((insertRebuilding_spec h hsplit hoff hround hbound).mono hrefused
      fun _ ↦ id) fun _ ↦ hall
  rename_i hceiling
  have hne : values ≠ [] := fun hnil ↦ hleaves (hnil ▸ h.packs).eq_nil
  replace hends := hends (by simpa using hceiling) hne
  obtain rfl := h.indexed_of_leaves hleaves
  by_cases hmiddle : index = 0 ∨ index = values.length
  · obtain rfl := hends hmiddle
    have hstored := hok.mp rfl
    obtain ⟨additions, hbuild, happend, hprepend⟩ :=
      (appendLeaves_spec h hround hbound).ok (not_not.mpr hstored)
    rw [hbuild]
    split
    · rename_i hback
      rw [hback.1, h.size, if_pos rfl, splice_back, ← h.size]
      exact happend
    split
    · rename_i hfront
      rw [hfront.1, if_pos rfl, splice_front]
      exact hprepend
    split
    · rename_i hend
      obtain ⟨filled, rest, hfill, hlist⟩ := fillBack_represents h hleaves hstored hbound
      dsimp only
      rw [hfill, hend, h.size, if_pos rfl, splice_back]
      exact hlist
    · rename_i hend
      rw [h.size] at hend
      obtain rfl := hmiddle.resolve_right hend
      obtain ⟨filled, rest, hfill, hlist⟩ := fillFront_represents h hleaves hstored hbound
      rw [if_pos rfl, hfill, if_pos rfl, splice_front]
      exact hlist
  · rw [not_or] at hmiddle
    rw [if_neg (by rw [h.size]; exact fun hboth ↦ hmiddle.2 hboth.1),
      if_neg (fun hboth ↦ hmiddle.1 hboth.1), if_neg (by rw [h.size]; exact hmiddle.2),
      if_neg hmiddle.1]
    obtain ⟨front, leaf, back, before, here, after, offset, hsplit, hlocate, rfl, hoff⟩ :=
      h.locate_spec (by omega : index < values.length)
    rw [hlocate]
    exact Outcome.of_yields h ((insertRebuilding_spec h hsplit hoff.le hround hbound).mono hrefused
      fun _ ↦ id) fun _ ↦ hall

end

end GoblinCore.SegmentedList
