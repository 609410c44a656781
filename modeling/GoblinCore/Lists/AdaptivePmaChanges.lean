import GoblinCore.Lists.AdaptivePmaRefinement

/-!
# Changes to an adaptive packed-memory array

Each insertion, erasure and rebuild does to the sequence that an array holds what it is named
for, or is refused when the array would need more slots than there can be.
-/

namespace GoblinCore.AdaptivePma.Pma

open WordBits List Nat

variable {settings : Settings} {pma changed : Pma} {values inserted : List ListValueRef}
  {value : ListValueRef} {slot first stop rank gap : ℕ}

/-! ## Filling a gap -/

/-- Slots between the elements before a rank and the others, without elements that are kept. -/
structure GapAt (settings : Settings) (pma : Pma) (values : List ListValueRef)
    (rank first stop : ℕ) : Prop where
  stop_le : stop ≤ pma.capacity
  before : pma.contents settings 0 first = values.take rank
  after : pma.contents settings stop pma.capacity = values.drop rank

theorem Holds.put (h : Holds settings pma values)
    (hgap : GapAt settings pma values rank first (first + inserted.length))
    (hins : ∀ value ∈ inserted, Readable settings value)
    (hwrites : Writes settings first inserted pma changed) {occupied : Bitmap}
    (hspec : occupied.Counted ∧ occupied.words.length = pma.occupied.words.length ∧
      ∀ slot, occupied.isSet slot
        = if first ≤ slot ∧ slot < first + inserted.length then true else pma.isOccupied slot)
    {size : ℕ} (hsize : size = pma.size + inserted.length) :
    Holds settings { changed with occupied := occupied, size := size }
      (insertAt values rank inserted) := by
  obtain ⟨hcounted, hlen, hset⟩ := hspec
  obtain ⟨hwithin, hcont⟩ := hwrites.marked hlen hgap.stop_le hset
  refine h.splice hwithin (le_add_right _ _) hgap.stop_le hcounted hcont hins ?_ ?_
  · rw [hgap.before, hgap.after, insertAt]
  · rw [length_insertAt, hsize, h.size_eq]

theorem Holds.putSlot (hshift : settings.chunkShift < 32) (h : Holds settings pma values)
    (hgap : GapAt settings pma values rank slot (slot + 1)) (hval : Readable settings value) :
    Holds settings (pma.putSlot settings slot value) (insertAt values rank [value]) := by
  have hslot : slot < pma.capacity := hgap.stop_le
  have hwrites := writes_writeSlot hshift h.sound hslot hval
  obtain ⟨hcounted, hlen, hset⟩ := @Bitmap.set_spec _ _ (h.sound.div_lt hslot) h.counted true
  refine h.put hgap (by simpa using hval) hwrites ?_ (congrArg (· + 1) hwrites.size)
  rw [setOccupied, hwrites.occupied]
  exact ⟨hcounted, hlen, fun other ↦ (hset other).trans (if_congr (by simp; omega) rfl rfl)⟩

theorem Holds.putRun (hshift : settings.chunkShift < 32) (h : Holds settings pma values)
    (hgap : GapAt settings pma values rank first (first + inserted.length))
    (hins : ∀ value ∈ inserted, Readable settings value) :
    Holds settings (pma.putRun settings first inserted) (insertAt values rank inserted) := by
  have hwrites := writes_writeRun hshift h.sound hins hgap.stop_le
  refine h.put hgap hins hwrites ?_ rfl
  rw [setOccupiedRange, hwrites.occupied]
  exact Bitmap.fill_spec (h.sound.capacity_le.trans' hgap.stop_le) h.counted

/-- The slots before the first element. -/
theorem Holds.frontGap (h : Holds settings pma values) (hne : values ≠ []) {count : ℕ}
    (hroom : count ≤ pma.selectSlot 0) :
    GapAt settings pma values 0 (pma.selectSlot 0 - count) (pma.selectSlot 0 - count + count) := by
  have hlocated := h.located (length_pos_of_ne_nil hne)
  have hbefore := hlocated.before
  rw [Nat.sub_add_cancel hroom]
  refine ⟨hlocated.lt_capacity.le, ?_, hlocated.onward⟩
  rw [← contents_append (zero_le (pma.selectSlot 0 - count)) (Nat.sub_le _ count)] at hbefore
  exact (append_eq_nil_iff.mp hbefore).1

/-- The slots after the last element. -/
theorem Holds.backGap (h : Holds settings pma values) (hne : values ≠ []) {count : ℕ}
    (hroom : pma.selectSlot (pma.size - 1) + 1 + count ≤ pma.capacity) :
    GapAt settings pma values values.length (pma.selectSlot (pma.size - 1) + 1)
      (pma.selectSlot (pma.size - 1) + 1 + count) := by
  have hpos := length_pos_of_ne_nil hne
  have hlocated := h.located (by omega : values.length - 1 < values.length)
  have hafter := hlocated.after
  have hupto := hlocated.upto
  rw [← h.size_eq, Nat.sub_add_cancel (by rw [h.size_eq]; omega), h.size_eq] at hafter hupto
  rw [h.size_eq] at hroom ⊢
  refine ⟨hroom, hupto, ?_⟩
  rw [drop_length, ← contents_append (le_add_right _ count) hroom] at hafter
  rw [drop_length, (append_eq_nil_iff.mp hafter).2]

/-! ## Moving values to a gap -/

/-- The values along a path of slots have moved one slot back, from an empty one. -/
structure Shifted (settings : Settings) (path : ℕ → ℕ) (count : ℕ) (pma changed : Pma) :
    Prop where
  sound : changed.Sound
  capacity : changed.capacity = pma.capacity
  size : changed.size = pma.size
  counted : changed.occupied.Counted
  hole : changed.isOccupied (path count) = false
  moved : ∀ index < count, changed.isOccupied (path index) = true ∧
    changed.readSlot settings (path index) = pma.readSlot settings (path (index + 1))
  others : ∀ slot, (∀ index ≤ count, slot ≠ path index) →
    changed.isOccupied slot = pma.isOccupied slot ∧
      changed.readSlot settings slot = pma.readSlot settings slot

variable {path : ℕ → ℕ} {count : ℕ}

theorem shifted_moves (h : Holds settings pma values)
    (hcap : ∀ index ≤ count, path index < pma.capacity)
    (hinj : ∀ index ≤ count, ∀ earlier < index, path index ≠ path earlier)
    (hgap : pma.isOccupied (path 0) = false)
    (hfull : ∀ index < count, pma.isOccupied (path (index + 1)) = true) :
    Shifted settings path count pma ((List.range count).foldl
      (fun pma index ↦ pma.moveSlot (path index) (path (index + 1))) pma) := by
  induction count with
  | zero => exact ⟨h.sound, rfl, rfl, h.counted, hgap, nofun, fun _ _ ↦ ⟨rfl, rfl⟩⟩
  | succ count ih =>
    rw [range_succ, foldl_append, foldl_cons, foldl_nil]
    have hih := ih (fun index hle ↦ hcap index (by omega)) (fun index hle ↦ hinj index (by omega))
      fun index hlt ↦ hfull index (by omega)
    generalize (List.range count).foldl _ pma = moved at hih ⊢
    have htgt := (hcap count (by omega)).trans_eq hih.capacity.symm
    have hsrc := (hcap (count + 1) (le_refl _)).trans_eq hih.capacity.symm
    have hnext := hih.others (path (count + 1)) fun index hle ↦
      hinj (count + 1) (le_refl _) index (by omega)
    obtain ⟨hsound, hocc, hread⟩ := moveSlot_spec settings hih.sound htgt hsrc
    have hne := hinj (count + 1) (le_refl _)
    refine ⟨hsound, length_set.trans hih.capacity, hih.size, ?_, ?_, ?_, ?_⟩
    · exact hih.counted.move (hih.sound.div_lt htgt) (hih.sound.div_lt hsrc)
        (hnext.1.trans (hfull count (by omega))) hih.hole
    · rw [hocc, if_neg (hne count (by omega)), if_pos rfl]
    · intro index hlt
      rw [hocc, hread]
      rcases lt_or_eq_of_le (Nat.lt_succ_iff.mp hlt) with hless | rfl
      · rw [if_neg (hinj count (by omega) index hless).symm,
          if_neg (hne index (by omega)).symm, if_neg (hinj count (by omega) index hless).symm]
        exact hih.moved index hless
      · rw [if_pos rfl, if_pos rfl]
        exact ⟨rfl, hnext.2⟩
    · intro slot hslot
      rw [hocc, hread, if_neg (hslot count (by omega)), if_neg (hslot (count + 1) (le_refl _)),
        if_neg (hslot count (by omega))]
      exact hih.others slot fun index hle ↦ hslot index (by omega)

theorem Shifted.within (h : Shifted settings path count pma changed)
    (hpath : ∀ index ≤ count, first ≤ path index ∧ path index < stop) :
    Within settings first stop pma changed := by
  have hother : ∀ slot, slot < first ∨ stop ≤ slot → ∀ index ≤ count, slot ≠ path index := by
    intro slot hslot index hle
    have hbounds := hpath index hle
    omega
  exact ⟨h.sound, h.capacity, fun slot hslot ↦ (h.others slot (hother slot hslot)).1,
    fun slot hslot ↦ (h.others slot (hother slot hslot)).2⟩

/-- The gap that the moves have left. -/
theorem Holds.shifted (h : Holds settings pma values)
    (hshifted : Shifted settings path count pma changed) (hlt : path count < pma.capacity)
    (hbefore : changed.contents settings 0 (path count) = values.take rank)
    (hafter : changed.contents settings (path count + 1) pma.capacity = values.drop rank) :
    Holds settings changed values ∧
      GapAt settings changed values rank (path count) (path count + 1) := by
  have hcap := hshifted.capacity
  refine ⟨⟨hshifted.sound, hshifted.counted, ?_, hshifted.size.trans h.size_eq,
    h.capacity_pos.trans_eq hcap.symm, hcap.trans_le h.capacity_le, h.readable⟩,
    hlt.trans_eq hcap.symm, hbefore, hcap.symm ▸ hafter⟩
  rw [hcap, ← contents_append (zero_le (path count)) hlt.le, hbefore,
    ← contents_append (le_succ (path count)) hlt, contents_hole hshifted.hole, nil_append, hafter,
    take_append_drop]

theorem nearbyEmptyLeft_spec (hstart : slot ≤ pma.capacity)
    (hgap : pma.nearbyEmptyLeft slot ≠ pma.capacity) :
    pma.nearbyEmptyLeft slot < slot ∧ pma.isOccupied (pma.nearbyEmptyLeft slot) = false ∧
      ∀ other, pma.nearbyEmptyLeft slot < other → other < slot → pma.isOccupied other = true := by
  rw [nearbyEmptyLeft] at hgap ⊢
  split
  · rename_i hzero
    rw [if_pos hzero] at hgap
    exact absurd rfl hgap
  · rename_i hpos
    rw [if_neg hpos] at hgap
    have hwindow : slot - nearbyShiftLimit < slot := by
      rw [nearbyShiftLimit]
      omega
    have hlast := pma.occupied.lastClear_eq hwindow hstart
    cases hfnd : pma.occupied.lastClear pma.capacity (slot - nearbyShiftLimit) slot with
    | none =>
      rw [hfnd] at hgap
      exact absurd rfl hgap
    | some found =>
      rw [hfnd] at hlast
      obtain ⟨-, hlt, hemp, hbetween⟩ := slots_getLast? hlast.symm
      refine ⟨hlt, by simpa [isOccupied] using hemp, fun other hoth hless ↦ ?_⟩
      simpa [isOccupied] using hbetween other hoth hless

theorem nearbyEmptyRight_spec (hgap : pma.nearbyEmptyRight slot ≠ pma.capacity) :
    slot ≤ pma.nearbyEmptyRight slot ∧ pma.nearbyEmptyRight slot < pma.capacity ∧
      pma.isOccupied (pma.nearbyEmptyRight slot) = false ∧
        ∀ other, slot ≤ other → other < pma.nearbyEmptyRight slot →
          pma.isOccupied other = true := by
  rw [nearbyEmptyRight] at hgap ⊢
  split
  · rename_i hnone
    rw [if_pos hnone] at hgap
    exact absurd rfl hgap
  · rename_i hlt
    rw [if_neg hlt] at hgap
    rw [not_le] at hlt
    have hfst := pma.occupied.firstClear_eq hlt (min_le_left _ _)
    cases hfnd : pma.occupied.firstClear pma.capacity slot
        (min pma.capacity (slot + nearbyShiftLimit + 1)) with
    | none =>
      rw [hfnd] at hgap
      exact absurd rfl hgap
    | some found =>
      rw [hfnd] at hfst
      obtain ⟨hle, hless, hemp, hbetween⟩ := slots_head? hfst.symm
      refine ⟨hle, lt_of_lt_of_le hless (min_le_left _ _), by simpa [isOccupied] using hemp,
        fun other hoth hbef ↦ ?_⟩
      simpa [isOccupied] using hbetween other hoth hbef

section

variable (h : Holds settings pma values) (hslot : Located settings pma values rank slot)
include h hslot

/-- The gap that is left below the element before a rank. -/
theorem Holds.shiftDown (hgap : gap < slot) (hemp : pma.isOccupied gap = false)
    (hbetween : ∀ other, gap < other → other < slot → pma.isOccupied other = true) :
    Holds settings (pma.shiftDown gap slot) values ∧
      GapAt settings (pma.shiftDown gap slot) values (rank + 1) slot (slot + 1) := by
  obtain ⟨count, rfl⟩ := Nat.exists_eq_add_of_le hgap.le
  have hlt := hslot.lt_capacity
  have hfull : ∀ other, gap + 1 ≤ other → other < gap + count + 1 → pma.isOccupied other =
      true := by
    intro other hoth hle
    rcases lt_or_eq_of_le (Nat.lt_succ_iff.mp hle) with hless | rfl
    · exact hbetween other hoth hless
    · exact hslot.isOccupied
  have hshifted := shifted_moves h (fun index _ ↦ by omega : ∀ index ≤ count, gap + index < _)
    (fun index _ earlier _ ↦ by omega) hemp fun index _ ↦ hfull _ (by omega) (by omega)
  have heq : pma.shiftDown gap (gap + count) = (List.range count).foldl
      (fun pma index ↦ pma.moveSlot (gap + index) (gap + (index + 1))) pma := by
    rw [Pma.shiftDown, Nat.add_sub_cancel_left, range'_eq_map_range, foldl_map]
    rfl
  rw [← heq] at hshifted
  have hwithin := @Shifted.within _ _ _ gap (gap + count + 1) _ _ hshifted fun index _ ↦ by omega
  have hmoved : (pma.shiftDown gap (gap + count)).contents settings gap (gap + count)
      = pma.contents settings (gap + 1) (gap + 1 + count) := by
    refine contents_moved fun index hidx ↦ ⟨hfull _ (by omega) (by omega), ?_⟩
    rw [add_assoc, add_comm 1]
    exact hshifted.moved index hidx
  refine h.shifted hshifted hlt ?_ ?_
  · rw [← contents_append (zero_le gap) hgap.le, hmoved,
      hwithin.contents_congr (.inl (le_refl _)), ← hslot.upto,
      ← contents_append (zero_le gap) (by omega : gap ≤ gap + count + 1),
      ← contents_append (le_succ gap) (by omega), contents_hole hemp, nil_append, add_right_comm]
  · rw [hwithin.contents_congr (.inr (le_refl _)), hslot.after]

/-- The gap that is left at the element of a rank. -/
theorem Holds.shiftUp (hgap : slot ≤ gap) (hlt : gap < pma.capacity)
    (hemp : pma.isOccupied gap = false)
    (hbetween : ∀ other, slot ≤ other → other < gap → pma.isOccupied other = true) :
    Holds settings (pma.shiftUp gap slot) values ∧
      GapAt settings (pma.shiftUp gap slot) values rank slot (slot + 1) := by
  obtain ⟨count, rfl⟩ := Nat.exists_eq_add_of_le hgap
  have hshifted := shifted_moves h
    (fun index _ ↦ by omega : ∀ index ≤ count, slot + count - index < _)
    (fun index _ earlier _ ↦ by omega) hemp fun index _ ↦ hbetween _ (by omega) (by omega)
  have heq : pma.shiftUp (slot + count) slot = (List.range count).foldl (fun pma index ↦
      pma.moveSlot (slot + count - index) (slot + count - (index + 1))) pma := by
    rw [Pma.shiftUp, Nat.add_sub_cancel_left, reverse_range', foldl_map]
    congr 1
    funext pma index
    congr 1 <;> omega
  rw [← heq] at hshifted
  have hwithin := @Shifted.within _ _ _ slot (slot + count + 1) _ _ hshifted fun index _ ↦ by omega
  have hmoved : (pma.shiftUp (slot + count) slot).contents settings (slot + 1) (slot + 1 + count)
      = pma.contents settings slot (slot + count) := by
    refine contents_moved fun index hidx ↦ ⟨hbetween _ (by omega) (by omega), ?_⟩
    have hmoved := hshifted.moved (count - 1 - index) (by omega)
    rwa [show slot + count - (count - 1 - index) = slot + 1 + index by omega,
      show slot + count - (count - 1 - index + 1) = slot + index by omega] at hmoved
  have hend : slot + count - count = slot := Nat.add_sub_cancel ..
  have hgapAt := @Holds.shifted _ _ _ _ rank _ _ h hshifted
  rw [hend] at hgapAt
  refine hgapAt hslot.lt_capacity ?_ ?_
  · rw [hwithin.contents_congr (.inl (le_refl _)), hslot.before]
  · rw [← contents_append (by omega : slot + 1 ≤ slot + 1 + count) (by omega), hmoved,
      hwithin.contents_congr (.inr (by omega)), ← hslot.onward,
      ← contents_append hgap hlt.le, ← contents_append (le_succ (slot + count)) hlt,
      contents_hole hemp, nil_append, add_right_comm]

end

/-! ## Insertions into slots -/

/-- What an insertion does: the values are put in, or the array would need too many slots. -/
def Inserts (settings : Settings) (values : List ListValueRef) (rank : ℕ)
    (inserted : List ListValueRef) (exhausted : Prop) (result : Pma × Except Fault Unit) : Prop :=
  (result.2 = .ok () ∧ Holds settings result.1 (insertAt values rank inserted)) ∨
    (∃ fault, result.2 = .error fault) ∧ Holds settings result.1 values ∧ exhausted

theorem Holds.insertSpreading (hshift : settings.chunkShift < 32) (h : Holds settings pma values)
    (hins : ∀ value ∈ inserted, Readable settings value) (hne : inserted ≠ [])
    (hlimit : values.length + inserted.length ≤ limit) :
    Inserts settings values rank inserted
      (¬CanGrow settings pma.capacity (pma.size + inserted.length))
      (pma.insertSpreading settings rank inserted) := by
  have hpos : 0 < pma.size + inserted.length := by
    have := length_pos_of_ne_nil hne
    omega
  have hspreads {spread : Pma} (hspread : pma.redistributeForInsertMany settings rank inserted
      = some spread) : Inserts settings values rank inserted
        (¬CanGrow settings pma.capacity (pma.size + inserted.length)) (spread, .ok ()) := by
    refine .inl ⟨rfl, h.redistributeWindows hshift hins ?_ (min_le_right _ _) hspread⟩
    exact lt_min (by decide) h.capacity_pos
  rw [Pma.insertSpreading]
  cases hgrown : grownCapacity settings pma.capacity (pma.size + inserted.length) with
  | error fault =>
    have hexhausted := grownCapacity_error hpos (by rwa [h.size_eq]) hgrown
    split
    · exact .inr ⟨⟨fault, rfl⟩, h, hexhausted⟩
    · split
      · exact hspreads ‹_›
      · exact .inr ⟨⟨fault, rfl⟩, h, hexhausted⟩
  | ok slots =>
    obtain ⟨hroom, hslots, hle⟩ := grownCapacity_spec hpos (by rwa [h.size_eq]) hgrown
    rw [h.size_eq] at hroom
    split
    · exact .inl ⟨rfl, h.rebuildWithInsertMany hshift hins hslots hle hroom⟩
    · split
      · exact hspreads ‹_›
      · exact .inl ⟨rfl, h.rebuildWithInsertMany hshift hins hslots hle hroom⟩

/-- The gap on the left is made into one before the rank. -/
theorem Holds.leftGap (h : Holds settings pma values) (hrank : rank ≤ values.length)
    (hgap : pma.leftGap rank ≠ pma.capacity) :
    Holds settings (pma.shiftDown (pma.leftGap rank) (pma.leftSlot rank)) values ∧
      GapAt settings (pma.shiftDown (pma.leftGap rank) (pma.leftSlot rank)) values rank
        (pma.leftSlot rank) (pma.leftSlot rank + 1) := by
  have hslot : pma.leftSlot rank ≠ pma.capacity := fun heq ↦ hgap (if_pos heq)
  have hpos : 0 < rank := by
    by_contra hzero
    exact hslot (if_neg hzero)
  have hleft : pma.leftSlot rank = pma.selectSlot (rank - 1) := if_pos hpos
  have hnear : pma.leftGap rank = pma.nearbyEmptyLeft (pma.leftSlot rank) := if_neg hslot
  have hlocated := h.located (by omega : rank - 1 < values.length)
  rw [← hleft] at hlocated
  rw [hnear] at hgap ⊢
  obtain ⟨hlt, hemp, hbetween⟩ := nearbyEmptyLeft_spec hlocated.lt_capacity.le hgap
  have hshifted := h.shiftDown hlocated hlt hemp hbetween
  rwa [Nat.sub_add_cancel hpos] at hshifted

/-- The gap on the right is made into one before the rank. -/
theorem Holds.rightGap (h : Holds settings pma values) (hgap : pma.rightGap rank ≠ pma.capacity) :
    Holds settings (pma.shiftUp (pma.rightGap rank) (pma.rightSlot rank)) values ∧
      GapAt settings (pma.shiftUp (pma.rightGap rank) (pma.rightSlot rank)) values rank
        (pma.rightSlot rank) (pma.rightSlot rank + 1) := by
  have hslot : pma.rightSlot rank ≠ pma.capacity := fun heq ↦ hgap (if_pos heq)
  have hlt : rank < pma.size := by
    by_contra hge
    exact hslot (if_neg hge)
  have hright : pma.rightSlot rank = pma.selectSlot rank := if_pos hlt
  have hnear : pma.rightGap rank = pma.nearbyEmptyRight (pma.rightSlot rank) := if_neg hslot
  have hlocated := h.located (h.size_eq ▸ hlt)
  rw [← hright] at hlocated
  rw [hnear] at hgap ⊢
  obtain ⟨hle, hcap, hemp, hbetween⟩ := nearbyEmptyRight_spec hgap
  exact h.shiftUp hlocated hle hcap hemp hbetween

theorem Holds.insertNearby (hshift : settings.chunkShift < 32) (h : Holds settings pma values)
    (hval : Readable settings value) (hrank : rank ≤ values.length)
    (hlimit : values.length < limit) :
    Inserts settings values rank [value] (¬CanGrow settings pma.capacity (pma.size + 1))
      (pma.insertNearby settings rank value) := by
  have hreadable : ∀ value' ∈ [value], Readable settings value' := by
    intro value' hmem
    rwa [mem_singleton.mp hmem]
  rw [Pma.insertNearby]
  split
  · rename_i hleft
    obtain ⟨hholds, hgapAt⟩ := h.leftGap hrank hleft.2
    exact .inl ⟨rfl, hholds.putSlot hshift hgapAt hval⟩
  · split
    · rename_i hright
      obtain ⟨hholds, hgapAt⟩ := h.rightGap hright
      exact .inl ⟨rfl, hholds.putSlot hshift hgapAt hval⟩
    · exact h.insertSpreading hshift hreadable (cons_ne_nil _ _) hlimit

end GoblinCore.AdaptivePma.Pma
