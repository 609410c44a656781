import GoblinCore.ZSets.ScoreIndexMoves

/-!
# Renaming entries of the score index

When a member goes, the member with the last id takes the id that is free, and its entry in the
score index has to follow.
-/

namespace GoblinCore

open Refusable MemoryLimit Ordered ChunkedSortedList Comp List

namespace ScoreIndex

variable {α : Type} {options : IndexOptions} {index index' : ChunkedSortedList α}
  {position : ℕ} {block : Block α} {script : Script} {value : α}

/-! ## Giving an entry another id -/

section Retarget

theorem getElem?_toList {location : ℕ × ℕ} (hget : index.blocks[location.1]? = some block)
    (hlt : location.2 < block.items.length) :
    index.toList[(index.before location.1).length + location.2]? = entryAt location index := by
  rw [toList_eq hget, append_assoc, getElem?_append_right (by omega),
    Nat.add_sub_cancel_left, getElem?_append_left hlt]
  simp [entryAt, hget]

/-- The position of an entry in the whole list. -/
theorem getElem?_toList_of_entryAt {location : ℕ × ℕ} (h : entryAt location index = some value) :
    index.toList[(index.before location.1).length + location.2]? = some value := by
  obtain ⟨block, hget, hitem⟩ := entryAt_eq_some h
  rw [getElem?_toList hget (lt_of_getElem? hitem), h]

theorem places_snd : (places index).map Prod.snd = index.toList := by
  have hitems (position : ℕ) (items : List α) (start : ℕ) :
      ((items.zipIdx start).map fun item ↦ ((position, item.2), item.1)).map Prod.snd = items := by
    rw [map_map]
    exact zipIdx_map_fst start items
  have hblks (blocks : List (Block α)) (start : ℕ) :
      ((blocks.zipIdx start).flatMap fun block ↦
        block.1.items.zipIdx.map fun item ↦ ((block.2, item.2), item.1)).map Prod.snd =
        blocks.flatMap Block.items := by
    induction blocks generalizing start with
    | nil => rfl
    | cons block rest ih =>
      rw [zipIdx_cons, flatMap_cons, map_append, hitems, ih]
      rfl
  exact hblks index.blocks 0

theorem entryAt_of_mem_places {location : ℕ × ℕ} (h : (location, value) ∈ places index) :
    entryAt location index = some value := by
  obtain ⟨⟨block, position⟩, hblk, hmem⟩ := mem_flatMap.mp h
  obtain ⟨⟨item, offset⟩, hitem, heq⟩ := mem_map.mp hmem
  rw [mem_zipIdx_iff_getElem?] at hblk hitem
  obtain ⟨rfl, rfl⟩ : (position, offset) = location ∧ item = value := by simpa using heq
  simp [entryAt, hblk, hitem]

variable {σ : Type}

/-- The entry of member `old` becomes one of member `new`. -/
def retarget (old new : ℕ) (entry : ScoreEntry σ) : ScoreEntry σ :=
  if entry.memberId = old then { entry with memberId := new } else entry

theorem retarget_score (old new : ℕ) (entry : ScoreEntry σ) :
    (retarget old new entry).score = entry.score := by
  unfold retarget
  split <;> rfl

variable {index index' : ScoreIndex σ} {location : ℕ × ℕ} {id : ℕ} {entry : ScoreEntry σ}

theorem DistinctIds.sublist {entries part : List (ScoreEntry σ)} (h : DistinctIds entries)
    (hpart : part.Sublist entries) : DistinctIds part :=
  List.Nodup.sublist (hpart.map _) h

theorem map_retarget_eq_self {entries : List (ScoreEntry σ)} {old : ℕ}
    (h : ∀ other ∈ entries, other.memberId ≠ old) : entries.map (retarget old id) = entries := by
  have hsame : ∀ other ∈ entries, retarget old id other = other :=
    fun other hoth ↦ if_neg (h other hoth)
  rw [map_congr_left hsame, map_id']

theorem modify_eq {items : List (ScoreEntry σ)} {offset : ℕ} (hitem : items[offset]? = some entry)
    (hids : DistinctIds items) :
    items.modify offset ({ · with memberId := id }) = items.map (retarget entry.memberId id) := by
  obtain ⟨hlt, hget⟩ := List.getElem?_eq_some_iff.mp hitem
  have hsplit := eq_take_cons_drop hitem
  have hnd := hids
  rw [DistinctIds, hsplit, map_append, map_cons] at hnd
  obtain ⟨-, htail, hapart⟩ := nodup_append.mp hnd
  have hfront : ∀ other ∈ items.take offset, other.memberId ≠ entry.memberId :=
    fun other hoth ↦ hapart _ (mem_map_of_mem hoth) _ mem_cons_self
  have hback : ∀ other ∈ items.drop (offset + 1), other.memberId ≠ entry.memberId :=
    fun other hoth heq ↦ (nodup_cons.mp htail).1 (heq ▸ mem_map_of_mem hoth)
  have hself : retarget entry.memberId id entry = { entry with memberId := id } := by
    simp [retarget]
  rw [modify_eq_take_cons_drop hlt, hget]
  nth_rewrite 3 [hsplit]
  rw [map_append, map_cons, hself, map_retarget_eq_self hfront, map_retarget_eq_self hback]

/-- Setting the id of the entry at a place renames that member. -/
theorem setMemberId_toList (hent : entryAt location index = some entry)
    (hids : DistinctIds index.toList) (id : ℕ) :
    (setMemberId location id index).toList = index.toList.map (retarget entry.memberId id) := by
  obtain ⟨block, hget, hitem⟩ := entryAt_eq_some hent
  have hflat := toList_eq hget
  have hids' := hids
  rw [DistinctIds, hflat, map_append, map_append] at hids'
  obtain ⟨hleft, -, hafterApart⟩ := nodup_append.mp hids'
  obtain ⟨-, hitems, hbeforeApart⟩ := nodup_append.mp hleft
  have hmem : entry.memberId ∈ block.items.map ScoreEntry.memberId :=
    mem_map_of_mem (mem_of_getElem? hitem)
  have hbef : ∀ other ∈ index.before location.1, other.memberId ≠ entry.memberId :=
    fun other hoth ↦ hbeforeApart _ (mem_map_of_mem hoth) _ hmem
  have haft : ∀ other ∈ index.after location.1, other.memberId ≠ entry.memberId :=
    fun other hoth heq ↦ hafterApart _ (mem_append_right _ hmem) _ (mem_map_of_mem hoth) heq.symm
  rw [setMemberId, changeBlock_toList _ hget, hflat, map_append, map_append,
    map_retarget_eq_self hbef, map_retarget_eq_self haft]
  simp [modify_eq hitem hitems]

theorem setMemberId_shape (hshape : Shape options index)
    (hent : entryAt location index = some entry) (hids : DistinctIds index.toList) :
    Shape options (setMemberId location id index) := by
  obtain ⟨block, hget, hitem⟩ := entryAt_eq_some hent
  have hfits := hshape.fits block (mem_of_getElem? hget)
  refine ⟨allFit_changeBlock hshape.fits hget ?_, ?_,
    hshape.tracked.changeBlock hget rfl (length_modify _ _ _)⟩
  · intro new hnew
    rw [mem_singleton.mp hnew]
    refine ⟨?_, ?_, ?_, hfits.capacity_le⟩
    · apply ne_nil_of_length_pos
      rw [length_modify]
      exact hfits.length_pos
    · rw [length_modify]
      exact hfits.length_le
    · rw [length_modify]
      exact hfits.short
  · rw [setMemberId_toList hent hids, length_map, ← hshape.size]
    exact changeBlock_size _

theorem entryAt_setMemberId (hent : entryAt location index = some entry) :
    entryAt location (setMemberId location id index) = some { entry with memberId := id } := by
  obtain ⟨block, hget, hitem⟩ := entryAt_eq_some hent
  have htake := length_take_of_getElem? hget
  unfold entryAt setMemberId
  rw [changeBlock_blocks _ hget]
  simp [replaceAt, htake, hitem]

section Order

variable [Score σ] [LawfulScore σ] {view : ℕ → Bytes}

omit [LawfulScore σ] in
theorem updateIndex_orderValidAt {f : ℕ → ℕ} :
    orderValidAt view location (updateIndex position f index) =
      orderValidAt view location index := by
  unfold updateIndex
  split <;> rfl

/-- An entry of an index that is in order is in order with its neighbours. -/
theorem orderValidAt_of_sorted (h : Sorted view index.toList)
    (hent : entryAt location index = some entry) : index.orderValidAt view location = true := by
  have hget := getElem?_toList_of_entryAt hent
  have hmem := mem_toList_of_entryAt hent
  have hearlier (earlier : ScoreEntry σ) (position : ℕ) (hlt : position <
      (index.before location.1).length + location.2) (hat : index.toList[position]? =
        some earlier) :
      less view earlier entry = true := by
    obtain ⟨hp, rfl⟩ := List.getElem?_eq_some_iff.mp hat
    obtain ⟨hq, rfl⟩ := List.getElem?_eq_some_iff.mp hget
    exact pairwise_iff_getElem.mp h.ordered _ _ hp hq hlt
  have hlater (later : ScoreEntry σ)
      (hat : index.toList[(index.before location.1).length + location.2 + 1]? = some later) :
      less view entry later = true := by
    obtain ⟨hp, rfl⟩ := List.getElem?_eq_some_iff.mp hget
    obtain ⟨hq, rfl⟩ := List.getElem?_eq_some_iff.mp hat
    exact pairwise_iff_getElem.mp h.ordered _ _ hp hq (Nat.lt_succ_self _)
  unfold orderValidAt
  simp only [hget, Bool.and_eq_true, Bool.not_eq_true']
  constructor
  · rw [Bool.and_eq_false_iff]
    by_cases hfst : 0 < (index.before location.1).length + location.2
    · right
      cases hat : index.toList[(index.before location.1).length + location.2 - 1]? with
      | none => rfl
      | some earlier =>
        exact less_asymm (h.numbers earlier (mem_of_getElem? hat)) (h.numbers entry hmem)
          (hearlier earlier _ (by omega) hat)
    · left
      simpa using hfst
  · cases hat : index.toList[(index.before location.1).length + location.2 + 1]? with
    | none => rfl
    | some later =>
      exact less_asymm (h.numbers entry hmem) (h.numbers later (mem_of_getElem? hat))
        (hlater later hat)

/-- One member goes and the member with the last id takes its id; `view'` are the names after
that. -/
structure Renames (view view' : ℕ → Bytes) (removed last : ScoreEntry σ)
    (entries : List (ScoreEntry σ)) : Prop where
  removed_mem : removed ∈ entries
  last_mem : last ∈ entries
  ne : removed.memberId ≠ last.memberId
  name : view' removed.memberId = view last.memberId
  others : ∀ id, id ≠ removed.memberId → view' id = view id
  ids : DistinctIds entries
  sorted : Sorted view entries

variable {view' : ℕ → Bytes} {removed last : ScoreEntry σ} {entries : List (ScoreEntry σ)}
  [DecidableEq σ]

/-- The entries after that. -/
def renamed (removed last : ScoreEntry σ) (entries : List (ScoreEntry σ)) : List (ScoreEntry σ) :=
  (entries.erase removed).map (retarget last.memberId removed.memberId)

section

variable (h : Renames view view' removed last entries)
include h

variable {other : ScoreEntry σ}

theorem Renames.view_retarget (hoth : other ∈ entries.erase removed) :
    view' (retarget last.memberId removed.memberId other).memberId = view other.memberId := by
  obtain ⟨hne, hmem⟩ := (List.Nodup.mem_erase_iff h.sorted.nodup).mp hoth
  by_cases hlast : other.memberId = last.memberId
  · simp [retarget, hlast, h.name]
  · have hid : other.memberId ≠ removed.memberId :=
      fun heq ↦ hne (h.ids.eq_of_mem hmem h.removed_mem heq)
    simp [retarget, hlast, h.others _ hid]

theorem Renames.named_retarget (hoth : other ∈ entries.erase removed) :
    named view' (retarget last.memberId removed.memberId other) = named view other := by
  rw [named, h.view_retarget hoth, retarget_score]
  rfl

theorem Renames.sorted_renamed : Sorted view' (renamed removed last entries) where
  numbers entry hent := by
    obtain ⟨other, hoth, rfl⟩ := mem_map.mp hent
    rw [retarget_score]
    exact h.sorted.numbers other (mem_of_mem_erase hoth)
  ordered := by
    have hrest := h.sorted.ordered.sublist (erase_sublist (a := removed))
    rw [renamed, pairwise_map]
    refine hrest.imp_of_mem ?_
    intro first second hfst hsnd hless
    rw [less_iff] at hless ⊢
    rwa [h.named_retarget hfst, h.named_retarget hsnd]

theorem Renames.last_mem_erase : last ∈ entries.erase removed :=
  (List.Nodup.mem_erase_iff h.sorted.nodup).mpr
    ⟨fun heq ↦ h.ne (congrArg ScoreEntry.memberId heq).symm, h.last_mem⟩

/-- An index that has lost the removed entry, with the id of the last one set. -/
theorem Renames.setMemberId (hshape : Shape options index)
    (hrest : index.toList = entries.erase removed) (hent : entryAt location index = some last) :
    (ScoreIndex.setMemberId location removed.memberId index).toList = renamed removed last entries ∧
      Shape options (ScoreIndex.setMemberId location removed.memberId index) ∧
      (ScoreIndex.setMemberId location removed.memberId index).orderValidAt view' location =
        true := by
  have hids : DistinctIds index.toList := by
    rw [hrest]
    exact h.ids.sublist erase_sublist
  have hlist := setMemberId_toList hent hids removed.memberId
  rw [hrest] at hlist
  refine ⟨hlist, setMemberId_shape hshape hent hids, ?_⟩
  apply orderValidAt_of_sorted _ (entryAt_setMemberId hent)
  rw [hlist]
  exact h.sorted_renamed

end

omit [LawfulScore σ] in
theorem Renames.eq_last (h : Renames view view' removed last entries)
    (hrest : index.toList = entries.erase removed)
    (hmatch : (entryAt location index).any (isEntry last) = true) :
    entryAt location index = some last := by
  cases hfnd : entryAt location index with
  | none => simp [hfnd] at hmatch
  | some found =>
    have hmem := mem_toList_of_entryAt hfnd
    rw [hrest] at hmem
    have hid : found.memberId = last.memberId := by
      rw [hfnd, Option.any_some, isEntry, Bool.and_eq_true] at hmatch
      simpa using hmatch.2
    rw [h.ids.eq_of_mem (mem_of_mem_erase hmem) h.last_mem hid]

variable {E : Thrown → ScoreIndex σ → Prop} {place lastPlace : ℕ × ℕ}

theorem Renames.replaceMemberId_ends {script : Script} (h : Renames view view' removed last entries)
    (hshape : Shape options index) (hrest : index.toList = entries.erase removed) :
    Ends (replaceMemberId options view' last removed.memberId) index script
      (fun done index' ↦ done = true ∧ index'.toList = renamed removed last entries ∧
        Shape options index') E := by
  apply ends_get_bind
  have hnum := h.sorted.numbers last h.last_mem
  cases hfind : (places index).find? fun place ↦ isEntry last place.2 with
  | none =>
    have hmem : last ∈ (places index).map Prod.snd := by
      rw [places_snd, hrest]
      exact h.last_mem_erase
    obtain ⟨place, hplace, heq⟩ := mem_map.mp hmem
    have hnot := find?_eq_none.mp hfind place hplace
    rw [heq, isEntry_self hnum] at hnot
    exact absurd rfl hnot
  | some place =>
    have hent : entryAt place.1 index = some last := by
      apply h.eq_last hrest
      rw [entryAt_of_mem_places (mem_of_find?_eq_some hfind), Option.any_some]
      simpa using find?_some hfind
    obtain ⟨hlist, hshape', horder⟩ := h.setMemberId hshape hrest hent
    apply ends_set_bind
    rw [if_pos horder]
    exact ends_pure ⟨rfl, hlist, hshape'⟩

/-- The entries are in different blocks, or the block of the removed one goes with it. -/
theorem Renames.eraseThenRetarget_ends {script : Script} (wasSingleton : Bool)
    (h : Renames view view' removed last index.toList) (hshape : Shape options index)
    (hrem : entryAt place index = some removed)
    (hquiet : options.ceilingActive = true ∨ true ∉ script) :
    Ends (eraseThenRetarget options view' place lastPlace wasSingleton last removed.memberId)
      index script
      (fun done index' ↦ done = true ∧ index'.toList = renamed removed last index.toList ∧
        Shape options index') E := by
  apply (eraseAt_ends hshape hrem h.sorted.nodup (Or.inr hquiet)).bind
  rintro _ index' rest - ⟨hrest, hshape'⟩
  apply ends_get_bind
  split
  · next hmatch =>
    have hent := h.eq_last hrest hmatch
    obtain ⟨hlist, hshape'', horder⟩ := h.setMemberId hshape' hrest hent
    refine Ends.bind (Q := fun done index'' ↦ done = true ∧
      index''.toList = renamed removed last index.toList ∧ Shape options index'') ?_ ?_
    · apply ends_get_bind
      rw [if_pos horder]
      apply ends_set_bind
      exact ends_pure ⟨rfl, hlist, hshape''⟩
    rintro done index'' rest' - ⟨rfl, hdone⟩
    exact ends_pure ⟨rfl, hdone⟩
  · exact h.replaceMemberId_ends hshape' hrest

omit [Score σ] [LawfulScore σ] [DecidableEq σ] in
/-- Both entries are in one block, which keeps the last one. -/
theorem entryAt_without {offset : ℕ} {block : Block (ScoreEntry σ)}
    (hget : index.blocks[place.1]? = some block) (hoff : offset ≠ place.2)
    (hitem : block.items[offset]? = some entry) :
    entryAt (place.1, if place.2 < offset then offset - 1 else offset)
      (index.changeBlock place.1 (without place.2)) = some entry := by
  have htake := length_take_of_getElem? hget
  have hrest : (block.items.eraseIdx place.2)[if place.2 < offset then offset - 1 else offset]? =
      some entry := by
    rw [getElem?_eraseIdx, ← hitem]
    by_cases hbehind : place.2 < offset
    · have hback : offset - 1 + 1 = offset := by omega
      rw [if_pos hbehind, if_neg (by omega), hback]
    · rw [if_neg hbehind, if_pos (by omega)]
  unfold entryAt
  rw [changeBlock_blocks _ hget]
  cases hitems : block.items.eraseIdx place.2 with
  | nil => simp [hitems] at hrest
  | cons first rest =>
    rw [hitems] at hrest
    simp [without, hitems, replaceAt, htake, hrest]

section

variable (h : Renames view view' removed last index.toList) (hshape : Shape options index)
  (hrem : entryAt place index = some removed) (hlast : entryAt lastPlace index = some last)
include h hshape hrem hlast

theorem Renames.sameBlock_ends {script : Script} (hsame : place.1 = lastPlace.1)
    (hmany : index.blockSize place.1 ≠ 1) (hquiet : options.ceilingActive = true ∨ true ∉ script) :
    Ends (eraseAndRetargetSameBlock options view' place lastPlace last removed.memberId)
      index script
      (fun done index' ↦ done = true ∧ index'.toList = renamed removed last index.toList ∧
        Shape options index') E := by
  obtain ⟨block, hget, hitem⟩ := entryAt_eq_some hrem
  obtain ⟨found, hget', hitem'⟩ := entryAt_eq_some hlast
  obtain rfl : block = found := by
    rw [← hsame, hget] at hget'
    exact Option.some.inj hget'
  have hoff : lastPlace.2 ≠ place.2 := by
    intro heq
    rw [heq, hitem] at hitem'
    exact h.ne (congrArg ScoreEntry.memberId (Option.some.inj hitem'))
  have hnum := h.sorted.numbers last h.last_mem
  have hcondition : place.2 ≠ lastPlace.2 ∧ (entryAt place index).isSome = true ∧
      (entryAt lastPlace index).any (isEntry last) = true := by
    refine ⟨Ne.symm hoff, by simp [hrem], ?_⟩
    rw [hlast, Option.any_some, isEntry_self hnum]
  have hrest := dropEntry_toList hrem h.sorted.nodup
  have hshape' := dropEntry_shape hshape hrem h.sorted.nodup
  have hent : entryAt (place.1, if place.2 < lastPlace.2 then lastPlace.2 - 1 else lastPlace.2)
      (dropEntry place index) = some last := by
    rw [entryAt, dropEntry_blocks]
    exact entryAt_without hget hoff hitem'
  obtain ⟨hlist, hshape'', horder⟩ := h.setMemberId hshape' hrest hent
  -- The tree follows after the check, which does not look at it.
  rw [dropEntry, if_neg hmany, ScoreIndex.setMemberId,
    ← updateIndex_changeBlock] at hlist hshape'' horder
  rw [updateIndex_orderValidAt] at horder
  apply ends_get_bind
  rw [if_pos hcondition]
  apply ends_set_bind
  rw [ScoreIndex.setMemberId, if_pos horder]
  apply ends_set_bind
  apply (finishEraseBlock_ends hshape''.fits (Or.inr hquiet)).bind
  intro _ index' rest _ hrecut
  exact ends_pure ⟨rfl, hrecut.toList.trans hlist, hrecut.shape hshape''⟩

/-- `erase_removed_and_retarget_last`: one entry goes, and the last member's entry gets its id. -/
theorem Renames.eraseRemovedAndRetargetLast_ends {script : Script}
    (hquiet : options.ceilingActive = true ∨ true ∉ script) :
    Ends (eraseRemovedAndRetargetLast options view' place lastPlace last removed.memberId)
      index script
      (fun done index' ↦ done = true ∧ index'.toList = renamed removed last index.toList ∧
        Shape options index') E := by
  apply ends_get_bind
  dsimp only
  split
  · next hsame =>
    have hmany : index.blockSize place.1 ≠ 1 := by simpa using hsame.2
    apply (h.sameBlock_ends hshape hrem hlast hsame.1 hmany hquiet).bind
    rintro done index' rest - ⟨rfl, hdone⟩
    exact ends_pure ⟨rfl, hdone⟩
  · exact h.eraseThenRetarget_ends _ hshape hrem hquiet

end

end Order

end Retarget

end ScoreIndex

end GoblinCore
