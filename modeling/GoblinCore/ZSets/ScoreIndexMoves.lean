import GoblinCore.ZSets.Ranking
import GoblinCore.ZSets.ScoreIndexBlocks

/-!
# Moving entries of the score index

An entry whose score changes moves inside its block or to another one.  Where it belongs is decided
by the order of scores and names; the packed prefixes of the names only speed up the comparison.
-/

namespace GoblinCore

open Refusable MemoryLimit Ordered ChunkedSortedList Ranking Comp List Nat

namespace ScoreIndex

variable {α : Type} {options : IndexOptions} {index index' : ChunkedSortedList α}
  {position : ℕ} {block : Block α} {script : Script} {value : α} {test : α → Bool}

/-! ## Moving an entry -/

section Move

theorem getElem?_changeBlock_of_ne {other : ℕ} (h : other ≠ position) (f : Block α → Block α) :
    (index.changeBlock position fun block ↦ [f block]).blocks[other]? = index.blocks[other]? := by
  cases hget : index.blocks[position]? with
  | none => simp [changeBlock, hget]
  | some block =>
    rw [changeBlock_set _ hget, getElem?_set_ne h.symm]

theorem entryAt_put_of_ne {location source : ℕ × ℕ} {capacity : ℕ} (h : source.1 ≠ location.1) :
    entryAt source (put location capacity value index) = entryAt source index := by
  unfold entryAt
  rw [put, updateIndex_blocks]
  change (index.changeBlock location.1 _).blocks[source.1]?.bind _ = _
  rw [getElem?_changeBlock_of_ne h]

variable {left right : Block α}

theorem Split.entryAt_shifted {source : ℕ × ℕ} (splitAt : ℕ)
    (h : Split options index position block left right) (hsrc : source.1 ≠ position) :
    entryAt (shifted position splitAt source)
      (index.changeBlock position (ScoreIndex.halves options)) = entryAt source index := by
  unfold entryAt
  rw [h.blocks]
  rcases lt_or_gt_of_ne hsrc with hbef | haft
  · have hshift : shifted position splitAt source = source := by
      unfold shifted
      rw [if_neg (by omega), if_neg (by omega)]
    rw [hshift, getElem?_append_left (by rw [h.length_take]; exact hbef), getElem?_take_of_lt hbef]
  · have hshift : shifted position splitAt source = (source.1 + 1, source.2) := by
      unfold shifted
      rw [if_pos haft]
    obtain ⟨distance, hdistance⟩ : ∃ distance, source.1 = position + 1 + distance :=
      ⟨source.1 - (position + 1), by omega⟩
    rw [hshift, getElem?_append_right (by rw [h.length_take]; omega), h.length_take]
    have hidx : position + 1 + distance + 1 - position = distance + 2 := by omega
    rw [hdistance, hidx]
    simp

theorem shifted_ne {splitAt : ℕ} {source target : ℕ × ℕ} (h : source.1 ≠ target.1) :
    (shifted target.1 splitAt source).1 ≠ (shifted target.1 splitAt target).1 := by
  unfold shifted
  split_ifs <;> simp_all <;> omega

theorem take_succ_append {β : Type} {front back : List β} {element : β} {n : ℕ}
    (h : front.length = n) : (front ++ element :: back).take (n + 1) = front ++ [element] := by
  subst h
  rw [take_append, take_of_length_le (Nat.le_succ _), Nat.add_sub_cancel_left]
  rfl

theorem drop_succ_append {β : Type} {front back : List β} {element : β} {n : ℕ}
    (h : front.length = n) : (front ++ element :: back).drop (n + 1) = back := by
  subst h
  simp [drop_append]

namespace Split

variable (h : Split options index position block left right)
include h

theorem before_left : (index.changeBlock position (ScoreIndex.halves options)).before position =
    index.before position := by
  simp [before, h.blocks, h.length_take]

theorem after_left : (index.changeBlock position (ScoreIndex.halves options)).after position =
    right.items ++ index.after position := by
  rw [ChunkedSortedList.after, h.blocks, drop_succ_append h.length_take]
  simp [ChunkedSortedList.after]

theorem before_right :
    (index.changeBlock position (ScoreIndex.halves options)).before (position + 1) =
      index.before position ++ left.items := by
  rw [before, h.blocks, take_succ_append h.length_take]
  simp [before]

theorem after_right :
    (index.changeBlock position (ScoreIndex.halves options)).after (position + 1) =
      index.after position := by
  have hlen : (index.blocks.take position ++ [left]).length = position + 1 := by
    simp [h.length_take]
  have hblks : index.blocks.take position ++ left :: right :: index.blocks.drop (position + 1) =
      (index.blocks.take position ++ [left]) ++ right :: index.blocks.drop (position + 1) := by simp
  rw [ChunkedSortedList.after, h.blocks, hblks, drop_succ_append hlen]
  rfl

end Split

variable {target source : ℕ × ℕ} {old : α}

/-- After the cut the value goes into one of the halves. -/
theorem Split.takes (h : Split options index target.1 block left right)
    (htakes : Takes test value index target block) :
    ∃ half, Takes test value (index.changeBlock target.1 (ScoreIndex.halves options))
        (shifted target.1 (block.items.length / 2) target) half ∧
      half.items.length ≤ (block.items.length + 1) / 2 := by
  have hplace := htakes.place
  have hle := htakes.le
  set splitAt := block.items.length / 2 with hsplitAt
  have hleft : left.items = block.items.take splitAt := h.left
  have hright : right.items = block.items.drop splitAt := h.right
  have hlist : (index.changeBlock target.1 (ScoreIndex.halves options)).toList = index.toList :=
    changeBlock_toList_of_items _ halves_flatMap
  by_cases hbehind : splitAt ≤ target.2
  · have hshift : shifted target.1 splitAt target = (target.1 + 1, target.2 - splitAt) := by
      simp [shifted, hbehind]
    rw [hshift]
    refine ⟨right, ⟨h.get_right, ?_, ?_⟩, ?_⟩
    · rw [hright, length_drop]
      omega
    · obtain ⟨rest, hrest⟩ : ∃ rest, target.2 = splitAt + rest := ⟨target.2 - splitAt, by omega⟩
      simp only [h.before_right, h.after_right, hlist, ← hplace, hleft, hright]
      rw [hrest, take_add, ← drop_drop, Nat.add_sub_cancel_left]
      simp
    · rw [hright, length_drop]
      omega
  · have hshift : shifted target.1 splitAt target = target := by
      simp [shifted, hbehind]
    rw [hshift]
    refine ⟨left, ⟨h.get_left, ?_, ?_⟩, ?_⟩
    · rw [hleft, List.length_take]
      omega
    · have htake : (block.items.take splitAt).take target.2 = block.items.take target.2 := by
        rw [take_take, min_eq_left (by omega)]
      have hdrop : (block.items.take splitAt).drop target.2 ++ block.items.drop splitAt =
          block.items.drop target.2 := by
        rw [← List.drop_append_of_le_length (by rw [List.length_take]; omega), take_append_drop]
      rw [h.before_left, h.after_left, hlist, ← hplace, hleft, hright, htake, ← hdrop]
      simp
    · rw [hleft, List.length_take]
      omega

theorem place_nodup (hnd : index.toList.Nodup) (hfresh : value ∉ index.toList) :
    (place test value index.toList).Nodup :=
  place_perm.nodup_iff.mpr (nodup_cons.mpr ⟨hfresh, hnd⟩)

theorem mergeUnderfilled_ends {E : Thrown → ChunkedSortedList α → Prop}
    (hfits : AllFit options index) :
    Ends (mergeUnderfilled options position) index script
      (fun _ index' ↦ Recut options index index') E := by
  apply ends_when _ fun _ ↦ Recut.refl index
  rintro ⟨-, -, hshort⟩
  refine Ends.tryCatch (F := fun _ _ ↦ False) (mergeWithNext_ends hfits ?_)
    fun _ _ _ _ hfalse ↦ hfalse.elim
  intro left right hleft hright hlong
  rw [blockSize_eq hleft, blockSize_eq hright] at hshort
  omega

/-- The value is in its place and the old entry is gone. -/
def Moved (options : IndexOptions) [DecidableEq α] (test : α → Bool) (old value : α)
    (index index' : ChunkedSortedList α) : Prop :=
  index'.toList = (place test value index.toList).erase old ∧ Shape options index'

/-- A transfer to a block that may take one more. -/
theorem transferInto_ends [DecidableEq α] (hshape : Shape options index) (hnd : index.toList.Nodup)
    (hfresh : value ∉ index.toList) (htakes : Takes test value index target block)
    (hne : source.1 ≠ target.1) (hold : entryAt source index = some old)
    (hlen : block.items.length ≤ options.load * 2) :
    Ends (transferInto options source target value) index script
      (fun _ index' ↦ Moved options test old value index index') (fun _ _ ↦ True) := by
  have hfits := hshape.fits block (mem_of_getElem? htakes.get)
  apply ends_get_bind
  rw [blockSize_eq htakes.get]
  apply (reserveBlock_ends htakes.get (by omega)).bind
  rintro _ index' rest - ⟨capacity, hroom, hreserved, rfl⟩
  have hcap : Roomy options → capacity ≤ options.load * 2 + 1 := fun hroomy ↦
    capacity_le_of_reserved hroomy hfits hlen hreserved
  apply ends_modify_bind
  rw [addEntry_reserved]
  have hput := put_shape htakes hshape hroom hlen hcap
  have hlist : (put target capacity value index).toList = place test value index.toList :=
    put_toList htakes
  have hent : entryAt source (put target capacity value index) = some old := by
    rw [entryAt_put_of_ne hne, hold]
  have hnd' : (put target capacity value index).toList.Nodup := by
    rw [hlist]
    exact place_nodup hnd hfresh
  apply (eraseAt_ends hput hent hnd' (.inl rfl)).bind
  rintro _ index' rest - ⟨herased, hshape'⟩
  rw [hlist] at herased
  apply ends_when _ fun _ ↦ ⟨herased, hshape'⟩
  intro _
  apply (mergeUnderfilled_ends hshape'.fits).mono_ok _
  intro _ index'' hrecut
  exact ⟨hrecut.toList.trans herased, hrecut.shape hshape'⟩

theorem transfer_ends [DecidableEq α] (hload : 0 < options.load) (hshape : Shape options index)
    (hnd : index.toList.Nodup) (hfresh : value ∉ index.toList)
    (htakes : Takes test value index target block) (hne : source.1 ≠ target.1)
    (hold : entryAt source index = some old) :
    Ends (transfer options source target value) index script
      (fun _ index' ↦ Moved options test old value index index') (fun _ _ ↦ True) := by
  have hsize := blockSize_eq htakes.get
  have hblk := hshape.fits block (mem_of_getElem? htakes.get)
  have hlong := hblk.short
  apply ends_get_bind
  split
  · next hfull =>
    obtain ⟨left, right, hsplit⟩ := exists_split options htakes.get
    obtain ⟨half, htakes', hhalf⟩ := hsplit.takes htakes
    have hrecut : Recut options index (cutBlock options target.1 index) :=
      recut_halves htakes.get (by omega) (by omega)
    have hold' := (hsplit.entryAt_shifted (block.items.length / 2) hne).trans hold
    apply ((splitBlock_ends script).mono_throw fun _ _ _ ↦ trivial).bind
    rintro _ cut rest - rfl
    rw [hsize]
    rw [← hrecut.toList] at hnd hfresh
    have hcut : Takes test value (cutBlock options target.1 index)
        (shifted target.1 (block.items.length / 2) target) half :=
      ⟨htakes'.get, htakes'.le, htakes'.place⟩
    apply (transferInto_ends (hrecut.shape hshape) hnd hfresh hcut (shifted_ne hne) hold'
      (by omega)).mono_ok
    rintro _ index' ⟨hmoved, hshape'⟩
    rw [hrecut.toList] at hmoved
    exact ⟨hmoved, hshape'⟩
  · next hroom => exact transferInto_ends hshape hnd hfresh htakes hne hold (by omega)

/-- Taking an entry out of a list and putting another in, in the order of `move_entry`. -/
theorem eraseIdx_insert_eq [DecidableEq α] {items : List α} {source target : ℕ}
    (hold : items[source]? = some old) (hne : old ≠ value) (hnd : items.Nodup) {offset : ℕ}
    (hoffset : (if source < target then target - 1 else target) = offset) :
    (items.eraseIdx source).take offset ++ value :: (items.eraseIdx source).drop offset =
      (items.take target ++ value :: items.drop target).erase old := by
  subst hoffset
  have hlt := lt_of_getElem? hold
  obtain ⟨front, back, rfl, rfl⟩ : ∃ front back, items = front ++ old :: back ∧
      source = front.length := by
    refine ⟨items.take source, items.drop (source + 1), eq_take_cons_drop hold, ?_⟩
    rw [length_take]
    omega
  have hfront : old ∉ front := by
    intro hmem
    exact (nodup_append.mp hnd).2.2 old hmem old mem_cons_self rfl
  have hrest : (front ++ old :: back).eraseIdx front.length = front ++ back := by
    simp [eraseIdx_append_of_length_le]
  rw [hrest]
  by_cases hbehind : front.length < target
  · obtain ⟨rest, rfl⟩ : ∃ rest, target = front.length + (rest + 1) :=
      ⟨target - front.length - 1, by omega⟩
    have hoff : front.length + (rest + 1) - 1 = front.length + rest := by omega
    have htake : (front ++ old :: back).take (front.length + (rest + 1)) =
        front ++ old :: back.take rest := by
      rw [take_length_add_append, take_succ_cons]
    have hdrop : (front ++ old :: back).drop (front.length + (rest + 1)) = back.drop rest := by
      rw [drop_length_add_append, drop_succ_cons]
    rw [if_pos hbehind, hoff, htake, hdrop, take_length_add_append, drop_length_add_append,
      append_assoc, append_assoc, cons_append, erase_append_cons hfront]
  · have hle : target ≤ front.length := Nat.le_of_not_lt hbehind
    have hnew : old ∉ front.take target ++ value :: front.drop target := by
      simp only [mem_append, mem_cons, not_or]
      exact ⟨fun h ↦ hfront (mem_of_mem_take h), hne, fun h ↦ hfront (mem_of_mem_drop h)⟩
    rw [if_neg hbehind, take_append_of_le_length hle, drop_append_of_le_length hle,
      take_append_of_le_length hle, drop_append_of_le_length hle, ← cons_append,
      ← cons_append, ← append_assoc, ← append_assoc, erase_append_cons hnew]

/-- Moving an entry inside its block. -/
theorem moveEntry_moved [DecidableEq α] (hshape : Shape options index) (hnd : index.toList.Nodup)
    (hfresh : value ∉ index.toList) (htakes : Takes test value index target block)
    (hsame : target.1 = source.1) (hold : entryAt source index = some old) {offset : ℕ}
    (hoffset : (if source.2 < target.2 then target.2 - 1 else target.2) = offset) :
    Moved options test old value index
      (index.changeBlock source.1 (moveEntry source.2 offset value)) := by
  obtain ⟨found, hget, hitem⟩ := entryAt_eq_some hold
  have hblk : found = block := by
    have hboth := htakes.get
    rw [hsame, hget] at hboth
    exact Option.some.inj hboth
  subst hblk
  have hmem := mem_toList_of_entryAt hold
  have hflat := toList_eq hget
  have hne : old ≠ value := by
    rintro rfl
    exact hfresh hmem
  have hitems : found.items.Nodup := by
    rw [hflat, append_assoc] at hnd
    exact (nodup_append.mp (nodup_append.mp hnd).2.1).1
  have hbef : old ∉ index.before source.1 := by
    rw [hflat, append_assoc] at hnd
    intro h
    exact (nodup_append.mp hnd).2.2 old h old (mem_append_left _ (mem_of_getElem? hitem)) rfl
  have hinner : old ∈ found.items.take target.2 ++ value :: found.items.drop target.2 := by
    have hboth : old ∈ found.items.take target.2 ++ found.items.drop target.2 := by
      rw [take_append_drop]
      exact mem_of_getElem? hitem
    rcases mem_append.mp hboth with h | h
    · exact mem_append_left _ h
    · exact mem_append_right _ (mem_cons_of_mem value h)
  have hplace := htakes.place
  rw [hsame] at hplace
  have hlist : (index.changeBlock source.1 (moveEntry source.2 offset value)).toList =
      (place test value index.toList).erase old := by
    rw [changeBlock_toList _ hget, ← hplace, append_assoc, append_assoc, erase_append_right _ hbef,
      erase_append_left _ hinner, ← eraseIdx_insert_eq hitem hne hitems hoffset]
    simp [moveEntry]
  have hcnt : ((place test value index.toList).erase old).length = index.toList.length := by
    rw [length_erase_of_mem (mem_place.mpr (.inr hmem)), place_length]
    rfl
  have hfits := hshape.fits found (mem_of_getElem? hget)
  have hlen : ((found.items.eraseIdx source.2).take offset ++
      value :: (found.items.eraseIdx source.2).drop offset).length = found.items.length := by
    have herase := length_eraseIdx_add_one (lt_of_getElem? hitem)
    have htake := congrArg length (take_append_drop offset (found.items.eraseIdx source.2))
    rw [length_append] at htake
    rw [length_append, length_cons]
    omega
  refine ⟨hlist, allFit_changeBlock hshape.fits hget ?_, ?_,
    hshape.tracked.changeBlock hget rfl hlen⟩
  · intro new hnew
    rw [mem_singleton.mp hnew]
    exact ⟨by simp, hlen.trans_le hfits.length_le, hlen.trans_le hfits.short, hfits.capacity_le⟩
  · rw [changeBlock_size, hlist, hcnt, hshape.size]

end Move

/-! ## The order of entries -/

section Prefix

/-- The first `n` bytes of a name as a number, with zeros behind a name that is shorter. -/
def packed : ℕ → Bytes → ℕ
  | 0, _ => 0
  | _ + 1, [] => 0
  | n + 1, byte :: rest => byte.toNat * 256 ^ n + packed n rest

theorem packed_lt (n : ℕ) (name : Bytes) : packed n name < 256 ^ n := by
  induction n generalizing name with
  | zero => simp [packed]
  | succ n ih =>
    cases name with
    | nil => exact Nat.pow_pos (by decide)
    | cons byte rest =>
      have hrest := ih rest
      have hbyte := byte.toNat_lt
      have hle : byte.toNat * 256 ^ n ≤ 255 * 256 ^ n := mul_le_mul_right _ (by omega)
      rw [packed, pow_succ]
      omega

theorem zsetMemberPrefix_eq (name : Bytes) : zsetMemberPrefix name = packed 4 name := by
  unfold zsetMemberPrefix
  rcases name with _ | ⟨a, _ | ⟨b, _ | ⟨c, _ | ⟨d, rest⟩⟩⟩⟩ <;> simp [range_succ, packed] <;> omega

/-- A smaller number of leading bytes is a smaller name. -/
theorem lt_of_packed_lt {n : ℕ} {first second : Bytes} (h : packed n first < packed n second) :
    first < second := by
  induction n generalizing first second with
  | zero => simp [packed] at h
  | succ n ih =>
    match first, second with
    | _, [] => simp [packed] at h
    | [], byte :: rest => exact nil_lt_cons byte rest
    | byte :: rest, byte' :: rest' =>
      have hrest' := packed_lt n rest'
      rw [packed, packed] at h
      rw [cons_lt_cons_iff]
      rcases lt_trichotomy byte.toNat byte'.toNat with hlt | heq | hgt
      · exact .inl hlt
      · rw [heq] at h
        exact .inr ⟨UInt8.toNat_inj.mp heq, ih (by omega)⟩
      · have hle : (byte'.toNat + 1) * 256 ^ n ≤ byte.toNat * 256 ^ n :=
          mul_le_mul_right _ hgt
        rw [add_mul] at hle
        omega

/-- The prefixes only save the comparison of the names. -/
theorem lessTiebreak_eq (first second : Bytes) :
    lessTiebreak first second = decide (first < second) := by
  unfold lessTiebreak
  rw [zsetMemberPrefix_eq, zsetMemberPrefix_eq]
  split
  · next hne =>
    rcases lt_or_gt_of_ne hne with hlt | hgt
    · simp [hlt, lt_of_packed_lt hlt]
    · have hnot : ¬ first < second := fun h ↦
        List.lt_irrefl _ (List.lt_trans h (lt_of_packed_lt hgt))
      simp [hnot, lt_asymm hgt]
  · rfl

end Prefix

section Order

variable {σ : Type} [Score σ] [LawfulScore σ] {view : ℕ → Bytes}
  {first second third wanted : ScoreEntry σ}

/-- The member of an entry with its score. -/
def named (view : ℕ → Bytes) (entry : ScoreEntry σ) : Bytes × σ :=
  (view entry.memberId, entry.score)

omit [LawfulScore σ] in
theorem less_iff : less view first second = true ↔
    Precedes (named view first) (named view second) := by
  unfold less Precedes named
  rw [lessTiebreak_eq]
  by_cases hlt : Score.lt first.score second.score = true
  · simp [hlt]
  · by_cases hgt : Score.lt second.score first.score = true
    · simp [hlt, hgt]
    · simp [hlt, hgt]

theorem less_irrefl : less view first first = false := by
  rw [Bool.eq_false_iff, ne_eq, less_iff]
  exact precedes_irrefl

section

variable (hfst : Score.isNan first.score = false) (hsnd : Score.isNan second.score = false)
include hfst hsnd

theorem less_trans (hthird : Score.isNan third.score = false) (h : less view first second = true)
    (h' : less view second third = true) : less view first third = true := by
  rw [less_iff] at h h' ⊢
  exact precedes_trans hfst hsnd hthird h h'

theorem less_asymm (h : less view first second = true) : less view second first = false := by
  rw [Bool.eq_false_iff, ne_eq, less_iff]
  exact precedes_asymm hfst hsnd (less_iff.mp h)

end

omit [LawfulScore σ] in
theorem less_total (hname : view first.memberId ≠ view second.memberId)
    (h : less view first second = false) : less view second first = true := by
  rw [Bool.eq_false_iff, ne_eq, less_iff] at h
  exact less_iff.mpr (precedes_total hname h)

/-- The entries are numbers in order. -/
structure Sorted (view : ℕ → Bytes) (entries : List (ScoreEntry σ)) : Prop where
  numbers : ∀ entry ∈ entries, Score.isNan entry.score = false
  ordered : entries.Pairwise fun first second ↦ less view first second = true

variable {entries : List (ScoreEntry σ)} {index : ScoreIndex σ}

omit [LawfulScore σ] in
theorem Sorted.sublist {part : List (ScoreEntry σ)} (h : Sorted view entries)
    (hpart : part.Sublist entries) : Sorted view part :=
  ⟨fun entry hent ↦ h.numbers entry (hpart.subset hent), h.ordered.sublist hpart⟩

section

variable (h : Sorted view entries)
include h

omit [LawfulScore σ] in
/-- Only the names of the entries matter. -/
theorem Sorted.congr {view' : ℕ → Bytes}
    (hview : ∀ entry ∈ entries, view' entry.memberId = view entry.memberId) :
    Sorted view' entries where
  numbers := h.numbers
  ordered := by
    refine h.ordered.imp_of_mem ?_
    intro first second hfst hsnd hless
    rw [less_iff] at hless ⊢
    rwa [named, named, hview first hfst, hview second hsnd]

theorem Sorted.nodup : entries.Nodup :=
  h.ordered.imp fun hless heq ↦ by
    rw [heq, less_irrefl] at hless
    exact absurd hless (by decide)

theorem Sorted.cuts (hwanted : Score.isNan wanted.score = false) :
    Cuts (less view · wanted) entries :=
  cuts_of_pairwise h.ordered fun first hfst second hsnd hless hpass ↦
    less_trans (h.numbers first hfst) (h.numbers second hsnd) hwanted hless hpass

/-- A new entry with a name of its own keeps the order. -/
theorem Sorted.place (hwanted : Score.isNan wanted.score = false)
    (hnames : ∀ entry ∈ entries, view entry.memberId ≠ view wanted.memberId) :
    Sorted view (place (less view · wanted) wanted entries) where
  numbers entry hent := by
    rcases mem_place.mp hent with rfl | hold
    · exact hwanted
    · exact h.numbers entry hold
  ordered := by
    apply place_pairwise _ h.ordered fun _ _ hpass ↦ hpass
    · intro entry hent hfail
      exact less_total (hnames entry hent) hfail
    · intro first hfst second hsnd hbef haft
      exact less_trans (h.numbers first hfst) hwanted (h.numbers second hsnd) hbef haft

end

/-- The last entry before which the test holds. -/
theorem takeWhile_less_length {items : List (ScoreEntry σ)} (h : Sorted view items)
    (hwanted : wanted ∈ items) :
    items[(items.takeWhile (less view · wanted)).length]? = some wanted := by
  obtain ⟨front, back, rfl⟩ := append_of_mem hwanted
  have hfront : ∀ entry ∈ front, less view entry wanted = true := by
    intro entry hent
    exact (pairwise_append.mp h.ordered).2.2 entry hent wanted mem_cons_self
  rw [takeWhile_append_of_pos hfront]
  simp [less_irrefl]

theorem isEntry_self (h : Score.isNan wanted.score = false) : isEntry wanted wanted = true := by
  simp [isEntry, LawfulScore.eq_eq _ _ h h, LawfulScore.lt_irrefl]

/-- `locate_entry` finds every entry of an index that is in order. -/
theorem locate_spec (hne : index.AllNonempty) (h : Sorted view index.toList)
    (hwanted : wanted ∈ index.toList) :
    ∃ location, index.locate view wanted = some location ∧
      entryAt location index = some wanted := by
  have hnum := h.numbers wanted hwanted
  have hcuts := h.cuts hnum
  unfold locate
  cases hget : index.blocks[lowerBlock (less view · wanted) index]? with
  | none =>
    have hall := lowerBlock_none hne hcuts hget wanted hwanted
    rw [less_irrefl] at hall
    exact absurd hall (by decide)
  | some block =>
    have hstops := lowerBlock_stops hne hcuts hget
    have hmem : wanted ∈ block.items := by
      have hflat := hwanted
      rw [toList_eq hget, append_assoc, mem_append, mem_append] at hflat
      rcases hflat with hbef | hitem | haft
      · have hpass := hstops.before wanted hbef
        rw [less_irrefl] at hpass
        exact absurd hpass (by decide)
      · exact hitem
      · obtain ⟨last, hlast, hfail⟩ := hstops.last
        have hordered := h.ordered
        rw [toList_eq hget] at hordered
        have hless := (pairwise_append.mp hordered).2.2 last (mem_append_right _ hlast) wanted haft
        rw [hfail] at hless
        exact absurd hless (by decide)
    have hsorted : Sorted view block.items := by
      apply h.sublist
      rw [toList_eq hget]
      exact (sublist_append_right _ _).trans (sublist_append_left _ _)
    have hitem := takeWhile_less_length hsorted hmem
    simp only [hitem, Option.any_some, isEntry_self hnum, if_true]
    exact ⟨_, rfl, by simp [entryAt, hget, hitem]⟩

/-- No two entries have the same id. -/
def DistinctIds (entries : List (ScoreEntry σ)) : Prop := (entries.map ScoreEntry.memberId).Nodup

omit [Score σ] [LawfulScore σ] in
theorem DistinctIds.eq_of_mem {entries : List (ScoreEntry σ)} {first second : ScoreEntry σ}
    (h : DistinctIds entries) (hfst : first ∈ entries) (hsnd : second ∈ entries)
    (hid : first.memberId = second.memberId) : first = second :=
  inj_on_of_nodup_map h hfst hsnd hid

/-- The cache does not change what is found: a place that it has is used only if the entry is
there. -/
theorem locateCached_spec (hint : Option (ℕ × ℕ)) (hne : index.AllNonempty)
    (h : Sorted view index.toList) (hids : DistinctIds index.toList)
    (hwanted : wanted ∈ index.toList) :
    ∃ location, index.locateCached view hint wanted = some location ∧
      entryAt location index = some wanted := by
  obtain ⟨location, hlocate, hent⟩ := locate_spec hne h hwanted
  unfold locateCached
  rw [hlocate]
  cases hint with
  | none => exact ⟨location, rfl, hent⟩
  | some place =>
    cases hfnd : entryAt place index with
    | none => exact ⟨location, by simp [Option.filter, hfnd], hent⟩
    | some entry =>
      by_cases hsame : isEntry wanted entry = true
      · have hid : entry.memberId = wanted.memberId := by
          simp only [isEntry, Bool.and_eq_true, beq_iff_eq] at hsame
          exact hsame.2
        obtain rfl := hids.eq_of_mem (mem_toList_of_entryAt hfnd) hwanted hid
        exact ⟨place, by simp [Option.filter, hfnd, hsame], hfnd⟩
      · exact ⟨location, by simp [Option.filter, hfnd, hsame], hent⟩

theorem findEntryLocation_spec (hne : index.AllNonempty) (h : Sorted view index.toList)
    (hids : DistinctIds index.toList) (hwanted : wanted ∈ index.toList) :
    ∃ location, findEntryLocation options view wanted index = some location ∧
      entryAt location index = some wanted :=
  locateCached_spec _ hne h hids hwanted

/-- `rescore` moves the entry of a member to the place of its new score. -/
theorem rescore_ends [DecidableEq σ] {old new : ScoreEntry σ} {script : Script}
    (hload : 0 < options.load) (hshape : Shape options index) (h : Sorted view index.toList)
    (hids : DistinctIds index.toList) (hold : old ∈ index.toList)
    (hnew : Score.isNan new.score = false)
    (hfresh : new ∉ index.toList) :
    Ends (rescore options view old new) index script
      (fun done index' ↦ done = true ∧ Moved options (less view · new) old new index index')
      (fun _ _ ↦ True) := by
  apply ensureMemoryGrowth_bind_ends fun _ ↦ trivial
  intro rest _
  apply ends_get_bind
  obtain ⟨source, hlocate, hent⟩ := findEntryLocation_spec hshape.fits.nonempty h hids hold
  rw [hlocate]
  have hblks : index.blocks ≠ [] := by
    intro hnil
    simp [toList, hnil] at hold
  obtain ⟨block, htakes⟩ :=
    insertPosition_takes new hshape.fits.nonempty (h.cuts hnew) hblks
  dsimp only
  split
  · next hsame =>
    apply ends_modify_bind
    exact ends_pure ⟨rfl, moveEntry_moved hshape h.nodup hfresh htakes hsame hent rfl⟩
  · next hdifferent =>
    apply (transfer_ends hload hshape h.nodup hfresh htakes (Ne.symm hdifferent) hent).bind
    intro _ index' rest' _ hmoved
    exact ends_pure ⟨rfl, hmoved⟩

/-- `erase_one` removes the entry. -/
theorem eraseOne_ends [DecidableEq σ] {E : Thrown → ScoreIndex σ → Prop} {script : Script}
    (hshape : Shape options index) (h : Sorted view index.toList)
    (hids : DistinctIds index.toList) (hwanted : wanted ∈ index.toList)
    (hquiet : options.ceilingActive = true ∨ true ∉ script) :
    Ends (eraseOne options view wanted) index script
      (fun done index' ↦ done = true ∧ index'.toList = index.toList.erase wanted ∧
        Shape options index') E := by
  apply ends_get_bind
  obtain ⟨location, hlocate, hent⟩ := findEntryLocation_spec hshape.fits.nonempty h hids hwanted
  rw [hlocate]
  apply (eraseAt_ends hshape hent h.nodup (.inr hquiet)).bind
  intro _ index' rest _ herased
  exact ends_pure ⟨rfl, herased⟩

end Order

end ScoreIndex

end GoblinCore
