import GoblinCore.ZSets.ScoreIndex

/-!
# What the score index holds after each change

Every change is described by the list of all entries in order; how it is cut into blocks only
matters for `validate`, which wants every block within `2 * load + 1` entries.  That bound is kept
by blocks of a load factor of at least 32 that give memory back after a cut (`Roomy`).  The position
tree is either not built or one over the sizes of the blocks.
-/

namespace GoblinCore

open Refusable MemoryLimit Ordered ChunkedSortedList Comp List

namespace ScoreIndex

/-- The smallest capacities are within the bound, and a block that is cut gives memory back. -/
structure Roomy (options : IndexOptions) : Prop where
  load : 32 ≤ options.load
  trim : options.trimEnabled = true

section Capacity

theorem le_allocationCapacity (load : ℕ) {required : ℕ} :
    required ≤ allocationCapacity load required := by
  unfold allocationCapacity
  split_ifs <;> omega

theorem allocationCapacity_le {load required : ℕ} (hload : 32 ≤ load)
    (h : required ≤ load * 2 + 1) : allocationCapacity load required ≤ load * 2 + 1 := by
  unfold allocationCapacity
  split_ifs <;> omega

/-- No two blocks are together too large for 32 bits. -/
theorem storedCapacity_eq (options : IndexOptions) {required : ℕ}
    (h : required ≤ options.load * 4 + 2) :
    storedCapacity options.load required = allocationCapacity options.load required := by
  have hload := options.loadFits
  apply Nat.mod_eq_of_lt
  unfold allocationCapacity
  split_ifs <;> omega

end Capacity

variable {α : Type} {options : IndexOptions} {index index' : ChunkedSortedList α}
  {position : ℕ} {block : Block α} {script : Script} {value : α} {test : α → Bool}

/-- A block that is not empty, nor too long; its capacity is as `validate` wants it if the options
allow for that. -/
structure Fits (options : IndexOptions) (block : Block α) : Prop where
  nonempty : block.items ≠ []
  length_le : block.items.length ≤ block.capacity
  short : block.items.length ≤ options.load * 2 + 1
  capacity_le : Roomy options → block.capacity ≤ options.load * 2 + 1

def AllFit (options : IndexOptions) (index : ChunkedSortedList α) : Prop :=
  ∀ block ∈ index.blocks, Fits options block

/-- The position tree is not built, or it is over the sizes of the blocks. -/
def Tracked (index : ChunkedSortedList α) : Prop :=
  index.positions = [] ∨ SumTree.Tracks (sizes index) index.positions

/-- The part of the invariant that does not speak of the order. -/
structure Shape (options : IndexOptions) (index : ChunkedSortedList α) : Prop where
  fits : AllFit options index
  size : index.size = index.toList.length
  tracked : Tracked index

/-- Only the load and the trimming count. -/
theorem Shape.of_options {options' : IndexOptions} (hload : options'.load = options.load)
    (htrim : options'.trimEnabled = options.trimEnabled) (h : Shape options index) :
    Shape options' index := by
  refine ⟨fun block hblk ↦ ?_, h.size, h.tracked⟩
  have hfits := h.fits block hblk
  exact
    { nonempty := hfits.nonempty
      length_le := hfits.length_le
      short := hload ▸ hfits.short
      capacity_le := fun hroomy ↦ hload ▸ hfits.capacity_le
        ⟨hload ▸ hroomy.load, htrim ▸ hroomy.trim⟩ }

theorem AllFit.nonempty (h : AllFit options index) : index.AllNonempty :=
  fun block hblk ↦ (h block hblk).nonempty

theorem Fits.length_pos (h : Fits options block) : 0 < block.items.length :=
  length_pos_iff.mpr h.nonempty

theorem allFit_changeBlock {change : Block α → List (Block α)} (h : AllFit options index)
    (hget : index.blocks[position]? = some block) (hnew : ∀ new ∈ change block, Fits options new) :
    AllFit options (index.changeBlock position change) :=
  changeBlock_all h hget hnew

/-! ## The position tree -/

section Tree

variable {f : ℕ → ℕ} {change : Block α → List (Block α)} {new : Block α}

theorem changeBlock_positions (position : ℕ) (change : Block α → List (Block α)) :
    (index.changeBlock position change).positions = index.positions := by
  unfold changeBlock
  split <;> rfl

theorem sizes_changeBlock (hget : index.blocks[position]? = some block)
    (hchange : change block = [new]) : sizes (index.changeBlock position change) =
      (sizes index).set position new.items.length := by
  have hlt : position < (index.blocks.map fun block ↦ block.items.length).length := by
    rw [length_map]
    exact lt_of_getElem? hget
  rw [sizes, changeBlock_blocks _ hget, hchange, replaceAt, sizes, set_eq_take_append_cons_drop,
    if_pos hlt]
  simp

theorem sizes_get (hget : index.blocks[position]? = some block) :
    (sizes index)[position]? = some block.items.length := by
  simp [sizes, hget]

theorem updateIndex_blocks : (updateIndex position f index).blocks = index.blocks := by
  unfold updateIndex
  split <;> rfl

theorem updateIndex_size : (updateIndex position f index).size = index.size := by
  unfold updateIndex
  split <;> rfl

theorem updateIndex_toList : (updateIndex position f index).toList = index.toList := by
  rw [toList, updateIndex_blocks, toList]

theorem updateIndex_changeBlock (first second : ℕ) :
    updateIndex first f (index.changeBlock second change) =
      (updateIndex first f index).changeBlock second change := by
  unfold updateIndex ChunkedSortedList.changeBlock
  split <;> split <;> simp_all

/-- A block of the same size leaves the tree. -/
theorem Tracked.changeBlock (h : Tracked index) (hget : index.blocks[position]? = some block)
    (hchange : change block = [new]) (hlen : new.items.length = block.items.length) :
    Tracked (index.changeBlock position change) := by
  have hsizes : sizes (index.changeBlock position change) = sizes index := by
    obtain ⟨hlt, hsize⟩ := List.getElem?_eq_some_iff.mp (sizes_get hget)
    rw [sizes_changeBlock hget hchange, hlen, ← hsize, set_getElem_self]
  rwa [Tracked, changeBlock_positions, hsizes]

/-- A block of another size changes the tree along one path. -/
theorem Tracked.updateIndex {changed : ChunkedSortedList α} (h : Tracked index)
    (hget : index.blocks[position]? = some block) (hpositions : changed.positions = index.positions)
    (hsizes : sizes changed = (sizes index).set position (f block.items.length))
    (hadds : SumTree.Adds f block.items.length) : Tracked (updateIndex position f changed) := by
  unfold ScoreIndex.updateIndex
  rw [hpositions]
  split
  · next hnone => exact .inl (hpositions.trans hnone)
  · next hbuilt =>
    have hsize := sizes_get hget
    have hupdated := (h.resolve_left hbuilt).update (lt_of_getElem? hsize)
      (show SumTree.Adds f ((sizes index).getD position 0) by simpa [hsize] using hadds)
    refine .inr ?_
    have hrow : sizes changed = (sizes index).modify position f := by
      rw [hsizes, modify_eq_set_getElem?, hsize]
      rfl
    change SumTree.Tracks (sizes changed) _
    rwa [hrow]

end Tree

/-! ## Cutting and merging -/

theorem trim_items : (trim options block).items = block.items := by
  unfold trim
  split <;> rfl

theorem halves_flatMap (block : Block α) :
    (halves options block).flatMap Block.items = block.items := by
  simp [halves, trim_items]

/-- A new block with room for its entries. -/
theorem fits_allocated {items : List α} {count : ℕ} (hlen : items.length = count)
    (hpos : 0 < count) (hshort : count ≤ options.load * 2 + 1) :
    Fits options ⟨items, storedCapacity options.load count⟩ := by
  subst hlen
  rw [storedCapacity_eq options (by omega)]
  exact ⟨length_pos_iff.mp hpos, le_allocationCapacity _, hshort,
    fun hroomy ↦ allocationCapacity_le hroomy.load hshort⟩

theorem trim_fits (hpos : 0 < block.items.length)
    (hshort : block.items.length ≤ options.load * 2 + 1)
    (hcap : block.items.length ≤ block.capacity) : Fits options (trim options block) := by
  unfold trim
  split
  · exact fits_allocated rfl hpos hshort
  · next hkeep =>
    refine ⟨length_pos_iff.mp hpos, hcap, hshort, fun hroomy ↦ ?_⟩
    simp only [hroomy.trim, true_and, not_lt] at hkeep
    exact hkeep.trans (allocationCapacity_le hroomy.load hshort)

theorem halves_fits (htwo : 2 ≤ block.items.length)
    (hlen : block.items.length ≤ options.load * 4 + 2)
    (hcap : block.items.length ≤ block.capacity) :
    ∀ new ∈ halves options block, Fits options new := by
  intro new hnew
  rcases mem_pair.mp hnew with rfl | rfl
  · apply trim_fits
    all_goals simp only [length_take]; omega
  · exact fits_allocated length_drop (by omega) (by omega)

/-- `index'` holds what `index` holds, and its blocks are as good. -/
structure Recut (options : IndexOptions) (index index' : ChunkedSortedList α) : Prop where
  toList : index'.toList = index.toList
  size : index'.size = index.size
  fits : AllFit options index → AllFit options index'
  tracked : Tracked index → Tracked index'

theorem Recut.refl (index : ChunkedSortedList α) : Recut options index index := ⟨rfl, rfl, id, id⟩

theorem recut_buildIndex (index : ChunkedSortedList α) :
    Recut options index (buildIndex index) := by
  unfold buildIndex
  split
  · exact ⟨rfl, rfl, id, fun _ ↦ .inr (SumTree.build_tracks _)⟩
  · exact .refl index

theorem Recut.shape (h : Recut options index index') (hshape : Shape options index) :
    Shape options index' :=
  ⟨h.fits hshape.fits, by rw [h.size, h.toList, hshape.size], h.tracked hshape.tracked⟩

theorem recut_halves (hget : index.blocks[position]? = some block) (htwo : 2 ≤ block.items.length)
    (hlen : block.items.length ≤ options.load * 4 + 2) :
    Recut options index (cutBlock options position index) where
  toList := changeBlock_toList_of_items _ halves_flatMap
  size := changeBlock_size _
  fits h := allFit_changeBlock h hget
    (halves_fits htwo hlen (h block (mem_of_getElem? hget)).length_le)
  tracked _ := .inl rfl

theorem splitBlock_ends (script : Script) :
    Ends (splitBlock options position) index script
      (fun _ index' ↦ index' = cutBlock options position index)
      (fun thrown index' ↦ thrown = .maxMemoryExceeded ∧ index' = index ∧ true ∈ script) := by
  apply ensureMemoryGrowth_bind_ends fun hrefused ↦ ⟨rfl, rfl, hrefused⟩
  intro rest hsuf
  apply ensureMemoryGrowth_bind_ends fun hrefused ↦ ⟨rfl, rfl, hsuf.subset hrefused⟩
  intro rest _
  exact ends_modify rfl

variable {E : Thrown → ChunkedSortedList α → Prop} {policy : EraseRebalancePolicy}

/-- A refused request of maintenance leaves things as they were. -/
theorem catchBadAlloc_splitBlock_ends :
    Ends (catchBadAlloc (splitBlock options position)) index script
      (fun _ index' ↦ index' = cutBlock options position index ∨
        index' = index ∧ true ∈ script) E := by
  apply ((splitBlock_ends script).mono (fun _ _ h ↦ .inl h) fun _ _ h ↦ h).tryCatch
  rintro thrown index' rest - ⟨rfl, rfl, hrefused⟩
  exact ends_pure (.inr ⟨rfl, hrefused⟩)

section Merge

variable {left right : Block α}

theorem mergeBlocks_toList (hleft : index.blocks[position]? = some left)
    (hright : index.blocks[position + 1]? = some right) :
    (mergeBlocks options position left right index).toList = index.toList :=
  flatMap_merged hleft hright rfl

theorem mergeBlocks_get (hleft : index.blocks[position]? = some left) :
    (mergeBlocks options position left right index).blocks[position]? =
      some (merged options left right) := by
  have htake := length_take_of_getElem? hleft
  simp [mergeBlocks, htake]

/-- Merging and then changing the merged block. -/
theorem mergeBlocks_changeBlock (change : Block α → List (Block α))
    (hleft : index.blocks[position]? = some left) :
    ((mergeBlocks options position left right index).changeBlock position change).blocks =
      index.blocks.take position ++ change (merged options left right) ++
        index.blocks.drop (position + 2) := by
  have htake := length_take_of_getElem? hleft
  rw [changeBlock_blocks change (mergeBlocks_get hleft)]
  simp [replaceAt, mergeBlocks, drop_append, htake]

theorem merged_length : (merged options left right).items.length =
    left.items.length + right.items.length := by
  simp [merged]

theorem merged_length_le
    (hlen : left.items.length + right.items.length ≤ options.load * 4 + 2) :
    (merged options left right).items.length ≤ (merged options left right).capacity := by
  rw [merged_length]
  unfold merged
  rw [storedCapacity_eq options hlen]
  split_ifs with hgrow
  · exact le_allocationCapacity _
  · exact Nat.le_of_not_lt hgrow

theorem merged_fits (hleft : Fits options left)
    (hshort : left.items.length + right.items.length ≤ options.load * 2 + 1) :
    Fits options (merged options left right) := by
  have hpos := hleft.length_pos
  unfold merged
  split_ifs with hgrow
  · exact fits_allocated length_append (by omega) hshort
  · refine ⟨?_, ?_, ?_, hleft.capacity_le⟩
    · simp [hleft.nonempty]
    · simpa using hgrow
    · simpa using hshort

section

variable (hleft : index.blocks[position]? = some left)
  (hright : index.blocks[position + 1]? = some right)
include hleft hright

theorem recut_mergeBlocks (hshort : left.items.length + right.items.length ≤ options.load * 2 + 1) :
    Recut options index (mergeBlocks options position left right index) where
  toList := mergeBlocks_toList hleft hright
  size := rfl
  fits h := all_replaced h fun new hnew ↦ by
    rw [mem_singleton.mp hnew]
    exact merged_fits (h left (mem_of_getElem? hleft)) hshort
  tracked _ := .inl rfl

/-- Merging and cutting again at once. -/
theorem recut_mergeBlocks_halves
    (hlen : left.items.length + right.items.length ≤ options.load * 4 + 2) :
    Recut options index
      (cutBlock options position (mergeBlocks options position left right index)) where
  toList := by
    change (changeBlock position (halves options) _).toList = _
    rw [changeBlock_toList_of_items _ halves_flatMap, mergeBlocks_toList hleft hright]
  size := changeBlock_size _
  fits h := by
    have htwo : 2 ≤ left.items.length + right.items.length := by
      have hl := (h left (mem_of_getElem? hleft)).length_pos
      have hr := (h right (mem_of_getElem? hright)).length_pos
      omega
    have hhalves : ∀ new ∈ halves options (merged options left right), Fits options new :=
      halves_fits (merged_length ▸ htwo) (merged_length ▸ hlen) (merged_length_le hlen)
    change ∀ block ∈ (changeBlock position (halves options) _).blocks, _
    rw [mergeBlocks_changeBlock _ hleft]
    exact all_replaced h hhalves
  tracked _ := .inl rfl

end

/-- `merge_with_next` only moves entries between blocks.  A merge that has to be cut again is put
off under a ceiling, and without a ceiling the cut is not refused. -/
theorem mergeWithNext_ends {E : Thrown → ChunkedSortedList α → Prop} (hfits : AllFit options index)
    (hcut : ∀ left right, index.blocks[position]? = some left → index.blocks[position + 1]? = some
      right → options.load * 2 < left.items.length + right.items.length → options.ceilingActive =
      true ∨ true ∉ script) :
    Ends (mergeWithNext options position) index script
      (fun _ index' ↦ Recut options index index') E := by
  apply ends_get_bind
  cases hleft : index.blocks[position]? with
  | none => exact ends_pure (Recut.refl index)
  | some left =>
    cases hright : index.blocks[position + 1]? with
    | none => exact ends_pure (Recut.refl index)
    | some right =>
      apply ends_when _ fun _ ↦ Recut.refl index
      intro hnow
      have hl := hfits left (mem_of_getElem? hleft)
      have hr := hfits right (mem_of_getElem? hright)
      have hlen : left.items.length + right.items.length ≤ options.load * 4 + 2 := by
        have h₁ := hl.short
        have h₂ := hr.short
        omega
      apply (memoryGrowthAllowed_ends _).bind
      rintro granted index' rest hsuf rfl
      apply ends_when _ fun _ ↦ Recut.refl _
      intro _
      apply ends_modify_bind
      by_cases hlong : options.load * 2 < left.items.length + right.items.length
      · rw [when_pos hlong]
        apply catchBadAlloc_splitBlock_ends.mono_ok _
        rintro _ index' (rfl | ⟨-, hrefused⟩)
        · exact recut_mergeBlocks_halves hleft hright hlen
        · rcases hcut left right hleft hright hlong with hceiling | hnone
          · exact absurd ⟨hceiling, hlong⟩ hnow
          · exact absurd (hsuf.subset hrefused) hnone
      · rw [when_neg hlong]
        exact ends_pure (recut_mergeBlocks hleft hright (by omega))

end Merge

/-! ## Removing an entry -/

variable {location : ℕ × ℕ}

theorem entryAt_eq_some (h : entryAt location index = some value) :
    ∃ block, index.blocks[location.1]? = some block ∧ block.items[location.2]? = some value :=
  Option.bind_eq_some_iff.mp h

theorem mem_toList_of_entryAt (h : entryAt location index = some value) : value ∈ index.toList := by
  obtain ⟨block, hblk, hitem⟩ := entryAt_eq_some h
  rw [toList_eq hblk]
  exact mem_append_left _ (mem_append_right _ (mem_of_getElem? hitem))

theorem without_items (offset : ℕ) :
    (without offset block).flatMap Block.items = block.items.eraseIdx offset := by
  unfold without
  split
  · next hnil => simp [hnil]
  · simp

/-- Erasing the entry at a place erases that entry from the list. -/
theorem without_toList [DecidableEq α] (h : entryAt location index = some value)
    (hnd : index.toList.Nodup) :
    (index.changeBlock location.1 (without location.2)).toList = index.toList.erase value := by
  obtain ⟨block, hblk, hitem⟩ := entryAt_eq_some h
  have hsplit := eq_take_cons_drop hitem
  have hflat : index.toList =
      (index.before location.1 ++ block.items.take location.2) ++
        value :: (block.items.drop (location.2 + 1) ++ index.after location.1) := by
    rw [toList_eq hblk]
    nth_rewrite 1 [hsplit]
    simp
  have hfresh : value ∉ index.before location.1 ++ block.items.take location.2 := by
    rw [hflat] at hnd
    intro hmem
    exact (nodup_append.mp hnd).2.2 value hmem value mem_cons_self rfl
  rw [changeBlock_toList _ hblk, without_items, eraseIdx_eq_take_drop_succ, hflat,
    erase_append_cons hfresh]
  simp

theorem without_fits {offset : ℕ} (h : Fits options block) :
    ∀ new ∈ without offset block, Fits options new := by
  have hlen := (eraseIdx_sublist block.items offset).length_le
  intro new hnew
  cases hrest : block.items.eraseIdx offset with
  | nil => simp [without, hrest] at hnew
  | cons first rest =>
    have heq : new = { block with items := first :: rest } := by
      simpa [without, hrest] using hnew
    rw [hrest] at hlen
    subst heq
    exact ⟨cons_ne_nil first rest, hlen.trans h.length_le, hlen.trans h.short, h.capacity_le⟩

theorem sizes_without (hent : entryAt location index = some value)
    (hget : index.blocks[location.1]? = some block) (hlong : block.items.length ≠ 1) :
    sizes (index.changeBlock location.1 (without location.2)) =
      (sizes index).set location.1 (block.items.length - 1) := by
  obtain ⟨found, hfound, hitem⟩ := entryAt_eq_some hent
  obtain rfl := Option.some.inj (hfound.symm.trans hget)
  have hlen := length_eraseIdx_add_one (lt_of_getElem? hitem)
  have hrest : found.items.eraseIdx location.2 ≠ [] := by
    intro hnil
    rw [hnil, length_nil] at hlen
    omega
  have hwithout : without location.2 found =
      [{ found with items := found.items.eraseIdx location.2 }] := by
    unfold without
    split
    · next hnil => exact absurd hnil hrest
    · rfl
  rw [sizes_changeBlock hget hwithout]
  congr 1
  exact Nat.eq_sub_of_add_eq hlen

theorem adds_pred {number : ℕ} (h : 0 < number) : SumTree.Adds (· - 1) number := by
  intro more
  dsimp only
  omega

theorem dropEntry_blocks : (dropEntry location index).blocks =
    (index.changeBlock location.1 (without location.2)).blocks := by
  unfold dropEntry
  split
  · rfl
  · exact updateIndex_blocks

theorem dropEntry_toList [DecidableEq α] (hent : entryAt location index = some value)
    (hnd : index.toList.Nodup) : (dropEntry location index).toList = index.toList.erase value := by
  rw [toList, dropEntry_blocks]
  exact without_toList hent hnd

/-- The index without the entry at a place, before any block is merged. -/
theorem dropEntry_shape [DecidableEq α] (h : Shape options index)
    (hent : entryAt location index = some value) (hnd : index.toList.Nodup) :
    Shape options (dropEntry location index) := by
  obtain ⟨block, hblk, hitem⟩ := entryAt_eq_some hent
  have hfits := h.fits block (mem_of_getElem? hblk)
  refine ⟨?_, ?_, ?_⟩
  · rw [AllFit, dropEntry_blocks]
    exact allFit_changeBlock h.fits hblk (without_fits hfits)
  · rw [dropEntry_toList hent hnd, length_erase_of_mem (mem_toList_of_entryAt hent), ← h.size]
    unfold dropEntry
    split
    · rfl
    · exact updateIndex_size
  · unfold dropEntry
    split
    · exact .inl rfl
    · next hlong =>
      rw [blockSize_eq hblk] at hlong
      exact h.tracked.updateIndex hblk (changeBlock_positions _ _) (sizes_without hent hblk hlong)
        (adds_pred hfits.length_pos)

theorem finishEraseBlock_ends (hfits : AllFit options index)
    (hquiet : policy = .none ∨ options.ceilingActive = true ∨ true ∉ script) :
    Ends (finishEraseBlock options policy position) index script
      (fun _ index' ↦ Recut options index index') E := by
  apply ends_when _ fun _ ↦ Recut.refl index
  rintro ⟨hshort, -⟩
  have hquiet' : options.ceilingActive = true ∨ true ∉ script := by
    rcases hquiet with rfl | hquiet
    · exact absurd hshort (Nat.not_lt_zero _)
    · exact hquiet
  exact mergeWithNext_ends hfits fun _ _ _ _ _ ↦ hquiet'

theorem eraseAt_ends [DecidableEq α] (h : Shape options index)
    (hent : entryAt location index = some value) (hnd : index.toList.Nodup)
    (hquiet : policy = .none ∨ options.ceilingActive = true ∨ true ∉ script) :
    Ends (eraseAt options policy location) index script
      (fun _ index' ↦ index'.toList = index.toList.erase value ∧ Shape options index') E := by
  apply ends_get_bind
  apply ends_set_bind
  have hshape := dropEntry_shape h hent hnd
  have hlist := dropEntry_toList hent hnd
  apply ends_when _ fun _ ↦ ⟨hlist, hshape⟩
  intro _
  apply (finishEraseBlock_ends hshape.fits hquiet).mono_ok _
  intro _ index' hrecut
  exact ⟨hrecut.toList.trans hlist, hrecut.shape hshape⟩

/-! ## Where an entry goes -/

section Position

theorem lowerBlock_stops (hne : index.AllNonempty) (hcuts : Cuts test index.toList)
    (hget : index.blocks[lowerBlock test index]? = some block) :
    Stops test index (lowerBlock test index) block :=
  search_stops hne hcuts hget

theorem lowerBlock_none (hne : index.AllNonempty) (hcuts : Cuts test index.toList)
    (hget : index.blocks[lowerBlock test index]? = none) :
    ∀ item ∈ index.toList, test item = true :=
  search_none hne hcuts hget

/-- A place in the index where a value can be put. -/
structure Takes (test : α → Bool) (value : α) (index : ChunkedSortedList α) (location : ℕ × ℕ)
    (block : Block α) : Prop where
  get : index.blocks[location.1]? = some block
  le : location.2 ≤ block.items.length
  place : index.before location.1 ++ (block.items.take location.2 ++
    value :: block.items.drop location.2) ++ index.after location.1 = place test value index.toList

theorem insertPosition_fst (test : α → Bool) (index : ChunkedSortedList α) :
    (insertPosition test index).1 = min (lowerBlock test index) (index.blocks.length - 1) := by
  unfold insertPosition
  cases hget : index.blocks[lowerBlock test index]? with
  | some block =>
    have hlt := lt_of_getElem? hget
    dsimp only
    omega
  | none =>
    have hle := getElem?_eq_none_iff.mp hget
    dsimp only
    omega

theorem insertPosition_takes (value : α) (hne : index.AllNonempty) (hcuts : Cuts test index.toList)
    (hblks : index.blocks ≠ []) :
    ∃ block, Takes test value index (insertPosition test index) block := by
  obtain ⟨block, hget, hplace⟩ := exists_hosts value hne hcuts hblks
  have htakes : Takes test value index (min (lowerBlock test index) (index.blocks.length - 1),
      (block.items.takeWhile test).length) block := by
    refine ⟨hget, (takeWhile_sublist test).length_le, ?_⟩
    rw [take_length_takeWhile, drop_length_takeWhile]
    exact hplace
  refine ⟨block, ?_⟩
  unfold insertPosition
  cases hsearch : index.blocks[lowerBlock test index]? with
  | some found =>
    have hlt := lt_of_getElem? hsearch
    rw [min_eq_left (by omega)] at htakes
    obtain rfl := Option.some.inj (hsearch.symm.trans htakes.get)
    exact htakes
  | none =>
    have hpass := lowerBlock_none hne hcuts hsearch
    have hall : block.items.takeWhile test = block.items := takeWhile_eq_self_iff.mpr
      fun item hitem ↦ hpass item (mem_flatMap.mpr ⟨block, mem_of_getElem? hget, hitem⟩)
    rw [min_eq_right (by have := getElem?_eq_none_iff.mp hsearch; omega), hall] at htakes
    dsimp only
    rw [blockSize_eq htakes.get]
    exact htakes

end Position

/-! ## Putting an entry in its place -/

section Put

theorem changeBlock_singleton (f : Block α → Block α) (g : Block α → List (Block α)) :
    (index.changeBlock position fun block ↦ [f block]).changeBlock position g =
      index.changeBlock position fun block ↦ g (f block) := by
  cases hget : index.blocks[position]? with
  | none => simp [changeBlock, hget]
  | some block =>
    have htake := length_take_of_getElem? hget
    simp [changeBlock, hget, replaceAt, drop_append, htake]

theorem changeBlock_id (hget : index.blocks[position]? = some block)
    {change : Block α → List (Block α)} (h : change block = [block]) :
    index.changeBlock position change = index := by
  have hblks : replaceAt index.blocks position [block] = index.blocks := by
    have hsplit := eq_take_cons_drop hget
    rw [replaceAt, append_assoc, singleton_append, ← hsplit]
  simp [changeBlock, hget, h, hblks]

theorem reserveBlock_ends {required : ℕ} (hget : index.blocks[position]? = some block)
    (hrequired : required ≤ options.load * 4 + 2) :
    Ends (reserveBlock options position required) index script
      (fun _ index' ↦ ∃ capacity, required ≤ capacity ∧
        (capacity = block.capacity ∨ capacity = allocationCapacity options.load required) ∧
        index' = index.setBlockCapacity position capacity)
      (fun _ _ ↦ True) := by
  have hcap : index.blockCapacity position = block.capacity := by simp [blockCapacity, hget]
  apply ends_get_bind
  apply ends_when
  · intro _
    apply ensureMemoryGrowth_bind_ends fun _ ↦ trivial
    intro rest _
    rw [storedCapacity_eq options hrequired]
    exact ends_set ⟨_, le_allocationCapacity _, .inr rfl, rfl⟩
  · intro hroom
    refine ⟨block.capacity, by omega, .inl rfl, ?_⟩
    exact (changeBlock_id hget rfl).symm

/-- A block with a value more, and the capacity it was given for it. -/
def grown (offset capacity : ℕ) (value : α) (block : Block α) : Block α where
  items := block.items.take offset ++ value :: block.items.drop offset
  capacity := capacity

/-- The index with the value in its place. -/
def put (location : ℕ × ℕ) (capacity : ℕ) (value : α) (index : ChunkedSortedList α) :
    ChunkedSortedList α :=
  updateIndex location.1 (· + 1)
    { index.changeBlock location.1 fun block ↦ [grown location.2 capacity value block] with
      size := index.size + 1 }

theorem addEntry_reserved (capacity : ℕ) :
    addEntry location value (index.setBlockCapacity location.1 capacity) =
      put location capacity value index := by
  unfold addEntry setBlockCapacity
  rw [changeBlock_singleton, changeBlock_size]
  rfl

theorem grown_length {offset : ℕ} (capacity : ℕ) :
    (grown offset capacity value block).items.length = block.items.length + 1 := by
  have hsplit := congrArg List.length (take_append_drop offset block.items)
  rw [length_append] at hsplit
  simp only [grown, length_append, length_cons]
  omega

variable {location : ℕ × ℕ} {capacity : ℕ}

section

variable (h : Takes test value index location block)
include h

theorem put_toList :
    (put location capacity value index).toList = place test value index.toList := by
  rw [← h.place, put, updateIndex_toList]
  change (index.changeBlock location.1
    fun block ↦ [grown location.2 capacity value block]).toList = _
  rw [changeBlock_toList _ h.get]
  simp [grown]

theorem put_shape (hshape : Shape options index) (hroom : block.items.length + 1 ≤ capacity)
    (hshort : block.items.length ≤ options.load * 2)
    (hcap : Roomy options → capacity ≤ options.load * 2 + 1) :
    Shape options (put location capacity value index) where
  fits := by
    rw [AllFit, put, updateIndex_blocks]
    apply allFit_changeBlock hshape.fits h.get
    intro new hnew
    rw [mem_singleton.mp hnew]
    refine ⟨?_, ?_, ?_, hcap⟩
    · simp [grown]
    · rw [grown_length]
      exact hroom
    · rw [grown_length]
      omega
  size := by
    rw [put_toList h, place_length, ← hshape.size]
    exact updateIndex_size
  tracked := by
    refine hshape.tracked.updateIndex h.get (changeBlock_positions _ _) ?_ fun _ ↦ by omega
    change sizes (index.changeBlock location.1 _) = _
    rw [sizes_changeBlock h.get rfl, grown_length]

theorem put_get :
    (put location capacity value index).blocks[location.1]? =
      some (grown location.2 capacity value block) := by
  rw [put, updateIndex_blocks]
  change (index.changeBlock location.1 _).blocks[location.1]? = _
  rw [changeBlock_set _ h.get, getElem?_set_self (lt_of_getElem? h.get)]

end

/-- The capacity that a block within its bound reserves for one more entry. -/
theorem capacity_le_of_reserved (hroomy : Roomy options) (hfits : Fits options block)
    (hlen : block.items.length ≤ options.load * 2)
    (h : capacity = block.capacity ∨ capacity = allocationCapacity options.load (block.items.length
      + 1)) : capacity ≤ options.load * 2 + 1 := by
  rcases h with rfl | rfl
  · exact hfits.capacity_le hroomy
  · exact allocationCapacity_le hroomy.load (by omega)

end Put

/-- The place of a new entry is in the block; the block has room or asks for it. -/
theorem insertIntoBlock_ends (hload : 0 < options.load) (hshape : Shape options index)
    (hcuts : Cuts test index.toList) (hblks : index.blocks ≠ [])
    (hsize : index.blockSize (insertPosition test index).1 ≤ options.load * 2) :
    Ends (insertIntoBlock options test value) index script
      (fun _ index' ↦ index'.toList = place test value index.toList ∧ Shape options index')
      (fun _ _ ↦ True) := by
  obtain ⟨block, htakes⟩ := insertPosition_takes value hshape.fits.nonempty hcuts hblks
  have hlen := blockSize_eq htakes.get
  have hfits := hshape.fits block (mem_of_getElem? htakes.get)
  apply ends_get_bind
  apply (reserveBlock_ends htakes.get (by omega)).bind
  rintro _ index' rest - ⟨capacity, hroom, hreserved, rfl⟩
  rw [hlen] at hroom hreserved hsize
  have hcap : Roomy options → capacity ≤ options.load * 2 + 1 := fun hroomy ↦
    capacity_le_of_reserved hroomy hfits hsize hreserved
  apply ends_modify_bind
  rw [addEntry_reserved]
  have hput := put_shape htakes hshape hroom hsize hcap
  have hlist : (put (insertPosition test index) capacity value index).toList = _ :=
    put_toList htakes
  apply ends_when _ fun _ ↦ ⟨hlist, hput⟩
  intro hlong
  apply catchBadAlloc_splitBlock_ends.mono_ok _
  have hhalves : Recut options (put (insertPosition test index) capacity value index)
      (cutBlock options (insertPosition test index).1
        (put (insertPosition test index) capacity value index)) := by
    apply recut_halves (put_get htakes)
    · rw [grown_length]
      omega
    · rw [grown_length]
      omega
  rintro _ index' (rfl | ⟨rfl, -⟩)
  · exact ⟨hhalves.toList.trans hlist, hhalves.shape hput⟩
  · exact ⟨hlist, hput⟩

/-! ## Cutting the block first -/

section SplitFirst

theorem halves_eq (options : IndexOptions) (block : Block α) :
    ∃ left right : Block α, halves options block = [left, right] ∧
      left.items = block.items.take (block.items.length / 2) ∧
      right.items = block.items.drop (block.items.length / 2) :=
  ⟨_, _, rfl, trim_items, rfl⟩

/-- The blocks around the two halves of the one that is cut. -/
structure Split (options : IndexOptions) (index : ChunkedSortedList α) (position : ℕ)
    (block left right : Block α) : Prop where
  get : index.blocks[position]? = some block
  halves : halves options block = [left, right]
  left : left.items = block.items.take (block.items.length / 2)
  right : right.items = block.items.drop (block.items.length / 2)

variable {left right : Block α}

theorem exists_split (options : IndexOptions) (hget : index.blocks[position]? = some block) :
    ∃ left right, Split options index position block left right := by
  obtain ⟨left, right, hhalves, hleft, hright⟩ := halves_eq options block
  exact ⟨left, right, hget, hhalves, hleft, hright⟩

namespace Split

variable (h : Split options index position block left right)
include h

theorem blocks : (index.changeBlock position (ScoreIndex.halves options)).blocks =
    index.blocks.take position ++ left :: right :: index.blocks.drop (position + 1) := by
  rw [changeBlock_blocks _ h.get, h.halves]
  simp [replaceAt]

theorem length_take : (index.blocks.take position).length = position :=
  length_take_of_getElem? h.get

theorem get_left :
    (index.changeBlock position (ScoreIndex.halves options)).blocks[position]? = some left := by
  simp [h.blocks, h.length_take]

theorem get_right :
    (index.changeBlock position (ScoreIndex.halves options)).blocks[position + 1]? =
      some right := by
  simp [h.blocks, h.length_take]

theorem getLast_right (htwo : 2 ≤ block.items.length) :
    right.items.getLast? = block.items.getLast? := by
  rw [h.right, getLast?_drop, if_neg (by omega)]

end Split

theorem filterMap_getLast_length {blocks : List (Block α)}
    (hne : ∀ block ∈ blocks, block.items ≠ []) :
    (blocks.filterMap fun block ↦ block.items.getLast?).length = blocks.length := by
  rw [length_filterMap_eq_countP, countP_eq_length]
  intro block hblk
  rw [Option.isSome_iff_ne_none, ne_eq, getLast?_eq_none_iff]
  exact hne block hblk

theorem maxes_sublist (blocks : List (Block α)) :
    (blocks.filterMap fun block ↦ block.items.getLast?).Sublist (blocks.flatMap Block.items) := by
  induction blocks with
  | nil => exact .slnil
  | cons block rest ih =>
    rw [flatMap_cons, filterMap_cons]
    cases hlast : block.items.getLast? with
    | none => exact ih.trans (sublist_append_right _ _)
    | some last => exact (singleton_sublist.mpr (mem_of_getLast? hlast)).append ih

/-- The search counts the blocks whose last entry passes. -/
theorem lowerBlock_eq (hcuts : Cuts test index.toList) :
    lowerBlock test index = (index.maxes.filter test).length := by
  have hcuts' : Cuts test index.maxes := hcuts.sublist (maxes_sublist index.blocks)
  rw [lowerBlock, hcuts'.takeWhile_eq]

/-- Cutting a block: the search goes one further when the left half passes. -/
theorem Split.lowerBlock {l r : α} (h : Split options index position block left right)
    (hcuts : Cuts test index.toList) (htwo : 2 ≤ block.items.length)
    (hl : left.items.getLast? = some l) (hr : block.items.getLast? = some r) :
    ScoreIndex.lowerBlock test (index.changeBlock position (ScoreIndex.halves options)) =
      ScoreIndex.lowerBlock test index + if test l then 1 else 0 := by
  have hcuts' : Cuts test (index.changeBlock position (ScoreIndex.halves options)).toList := by
    rwa [changeBlock_toList_of_items _ halves_flatMap]
  have hr' := (h.getLast_right htwo).trans hr
  rw [lowerBlock_eq hcuts, lowerBlock_eq hcuts', maxes, maxes, h.blocks]
  nth_rewrite 3 [eq_take_cons_drop h.get]
  simp only [filterMap_append, filterMap_cons, hl, hr, hr', filter_append, length_append,
    filter_cons]
  split_ifs <;> simp <;> omega

/-- After the cut the search ends in one of the halves. -/
theorem insertPosition_split (hfits : AllFit options index) (hcuts : Cuts test index.toList)
    (hget : index.blocks[(insertPosition test index).1]? = some block)
    (htwo : 2 ≤ block.items.length) :
    ∃ half ∈ halves options block, (cutBlock options (insertPosition test index).1 index).blocks[
      (insertPosition test (cutBlock options (insertPosition test index).1 index)).1]? =
        some half := by
  change ∃ half ∈ halves options block, (index.changeBlock _ _).blocks[
    (insertPosition test (index.changeBlock _ _)).1]? = some half
  generalize hcut : index.changeBlock (insertPosition test index).1 (halves options) = cut
  obtain ⟨left, right, hsplit⟩ := exists_split options hget
  have hleft : left.items ≠ [] := by
    rw [hsplit.left]
    exact ne_nil_of_length_pos (by rw [length_take]; omega)
  have hlower := hsplit.lowerBlock hcuts htwo (getLast?_eq_some_getLast hleft)
    (getLast?_eq_some_getLast (hfits block (mem_of_getElem? hget)).nonempty)
  have hlt := lt_of_getElem? hget
  have hlen := congrArg List.length hsplit.blocks
  rw [length_append, hsplit.length_take, length_cons, length_cons, length_drop] at hlen
  have hwhere := insertPosition_fst test index
  have hnew := insertPosition_fst test cut
  rw [hcut] at hlower hlen
  rw [hlower, hlen] at hnew
  generalize (insertPosition test cut).1 = found at hnew ⊢
  have hhalf : found = (insertPosition test index).1 ∨
      found = (insertPosition test index).1 + 1 := by split_ifs at hnew <;> omega
  rcases hhalf with rfl | rfl
  · exact ⟨left, by simp [hsplit.halves], hcut ▸ hsplit.get_left⟩
  · exact ⟨right, by simp [hsplit.halves], hcut ▸ hsplit.get_right⟩

end SplitFirst

/-- The first entry of an index. -/
theorem insert_first_ends (hload : 0 < options.load) (hblks : index.blocks = []) :
    Ends (insert options test value) index script
      (fun _ index' ↦ index'.toList = place test value index.toList ∧ Shape options index')
      (fun _ _ ↦ True) := by
  refine ensureMemoryGrowth_bind_ends (fun _ ↦ trivial) ?_
  intro rest _
  apply ends_get_bind
  rw [if_pos (isEmpty_iff.mpr hblks)]
  refine ensureMemoryGrowth_bind_ends (fun _ ↦ trivial) ?_
  intro rest' _
  apply ends_modify_bind
  refine ensureMemoryGrowth_bind_ends (fun _ ↦ trivial) ?_
  intro rest'' _
  apply ends_modify
  refine ⟨by simp [place, toList, hblks], ?_, ?_, .inl rfl⟩
  · intro block hblk
    rw [mem_singleton.mp hblk]
    exact fits_allocated rfl one_pos (by omega)
  · simp [toList]

/-- The entry is put in its place. -/
theorem insert_ends (hload : 0 < options.load) (hshape : Shape options index)
    (hcuts : Cuts test index.toList) :
    Ends (insert options test value) index script
      (fun _ index' ↦ index'.toList = place test value index.toList ∧ Shape options index')
      (fun _ _ ↦ True) := by
  by_cases hblks : index.blocks = []
  · exact insert_first_ends hload hblks
  refine ensureMemoryGrowth_bind_ends (fun _ ↦ trivial) ?_
  intro rest _
  apply ends_get_bind
  rw [if_neg (by simpa using hblks)]
  obtain ⟨block, htakes⟩ := insertPosition_takes value hshape.fits.nonempty hcuts hblks
  have hlen := blockSize_eq htakes.get
  by_cases hfull : options.load * 2 < index.blockSize (insertPosition test index).1
  · rw [when_pos hfull]
    have hblk := hshape.fits block (mem_of_getElem? htakes.get)
    have hlong := hblk.short
    have htwo : 2 ≤ block.items.length := by omega
    have hrecut : Recut options index (cutBlock options (insertPosition test index).1 index) :=
      recut_halves htakes.get htwo (by omega)
    apply ((splitBlock_ends rest).mono_throw fun _ _ _ ↦ trivial).bind
    rintro _ index' rest' - rfl
    obtain ⟨half, hhalf, hfnd⟩ := insertPosition_split hshape.fits hcuts htakes.get htwo
    generalize cutBlock options (insertPosition test index).1 index = cut at hrecut hfnd ⊢
    have hshape' := hrecut.shape hshape
    have hcuts' : Cuts test cut.toList := by rwa [hrecut.toList]
    have hblks' : cut.blocks ≠ [] := ne_nil_of_mem (mem_of_getElem? hfnd)
    have hhalfLength : half.items.length ≤ options.load * 2 := by
      obtain ⟨left, right, hhalves, hleft, hright⟩ := halves_eq options block
      rw [hhalves] at hhalf
      rcases mem_pair.mp hhalf with rfl | rfl
      · rw [hleft, length_take]
        omega
      · rw [hright, length_drop]
        omega
    apply (insertIntoBlock_ends hload hshape' hcuts' hblks'
      (by rw [blockSize_eq hfnd]; exact hhalfLength)).mono_ok _
    rintro _ index' ⟨hlist, hnew⟩
    rw [hrecut.toList] at hlist
    exact ⟨hlist, hnew⟩
  · rw [when_neg hfull]
    exact insertIntoBlock_ends hload hshape hcuts hblks (by omega)

end ScoreIndex

end GoblinCore
