import GoblinCore.Lists.AdaptivePma

/-!
# Slots of an adaptive packed-memory array

A reference reads back from the slot it was written to, in one word or in two.  Every operation on
slots changes a window of them, and what the array holds is taken apart at the window.
-/

namespace GoblinCore.AdaptivePma

open WordBits List Bool BitVec Nat Bitmap

variable {settings : Settings}

/-! ## References in one word -/

theorem getLsbD_rawMask (position : ℕ) : rawMask.getLsbD position = decide (position = 31) := by
  rw [rawMask, ← twoPow_eq, getLsbD_twoPow]
  by_cases h : position = 31
  · simp [h]
  · simp [h, Ne.symm h]

theorem getLsbD_blockMask (position : ℕ) : blockMask.getLsbD position = decide (position < 31) := by
  rw [blockMask, getLsbD_not, getLsbD_rawMask]
  by_cases h : position < 31
  · simp [h, show position < 32 by omega, show position ≠ 31 by omega]
  · by_cases heq : position = 31
    · simp [heq]
    · simp [h, show ¬position < 32 by omega]

theorem getLsbD_chunkMask {position : ℕ} (hpos : position < 32) :
    settings.chunkMask.getLsbD position = decide (position < settings.chunkShift) := by
  rw [Settings.chunkMask, getLsbD_ofNat, testBit_two_pow_sub_one,
    decide_eq_true hpos, Bool.true_and]

namespace Pma

variable {value : ListValueRef} {position : ℕ}

theorem getLsbD_logicalAddress (hpos : position < 64) :
    (logicalAddress settings value).getLsbD position
      = (decide (settings.chunkShift ≤ position) &&
          value.blockIndex.getLsbD (position - settings.chunkShift) ||
        value.offset.getLsbD position) := by
  rw [logicalAddress, getLsbD_or, getLsbD_shiftLeft, getLsbD_setWidth,
    getLsbD_setWidth, decide_eq_true hpos, Bool.true_and,
    decide_eq_true (by omega : position - settings.chunkShift < 64), Bool.true_and, Bool.true_and,
    ← decide_not]
  simp only [not_lt]

/-- An address that fits has 31 bits. -/
theorem getLsbD_of_fitsNarrow (hfits : fitsNarrow settings value = true) (hpos : 31 ≤ position) :
    (logicalAddress settings value).getLsbD position = false := by
  have hle : (logicalAddress settings value).toNat ≤ 2 ^ 31 - 1 := by
    have hbound := le_def.mp (of_decide_eq_true hfits)
    exact le_trans hbound (by decide)
  refine testBit_lt_two_pow (lt_of_le_of_lt hle ?_)
  have hpow : 2 ^ 31 ≤ 2 ^ position := Nat.pow_le_pow_right (by decide) hpos
  omega

/-- A value of an arena with the chunks of the array. -/
def Readable (settings : Settings) (value : ListValueRef) : Prop :=
  value.offset.toNat < 2 ^ settings.chunkShift

theorem Readable.getLsbD_offset (h : Readable settings value)
    (hpos : settings.chunkShift ≤ position) : value.offset.getLsbD position = false := by
  exact testBit_lt_two_pow (lt_of_lt_of_le h (Nat.pow_le_pow_right (by decide) hpos))

theorem rawPrefixOmitted_eq : value.rawPrefixOmitted = value.block.getLsbD 31 := by
  cases hbit : value.block.getLsbD 31 with
  | true =>
    refine decide_eq_true fun hzero ↦ ?_
    have hraw : (value.block &&& rawMask).getLsbD 31 = false := by
      rw [hzero, getLsbD_zero]
    rw [getLsbD_and, hbit, getLsbD_rawMask] at hraw
    exact absurd hraw (by decide)
  | false =>
    refine decide_eq_false (not_not.mpr (eq_of_getLsbD_eq fun position _ ↦ ?_))
    rw [getLsbD_and, getLsbD_rawMask, getLsbD_zero]
    by_cases h : position = 31
    · rw [h, hbit, Bool.false_and]
    · rw [decide_eq_false h, Bool.and_false]

theorem getLsbD_narrowLocation (hpos : position < 32) :
    (narrowLocation settings value).getLsbD position
      = ((logicalAddress settings value).getLsbD position ||
        (value.block.getLsbD 31 && decide (position = 31))) := by
  rw [narrowLocation, getLsbD_or, getLsbD_setWidth, decide_eq_true hpos,
    Bool.true_and, rawPrefixOmitted_eq]
  split
  · rename_i hraw
    rw [hraw, Bool.true_and, getLsbD_rawMask]
  · rename_i hraw
    rw [Bool.not_eq_true] at hraw
    rw [hraw, Bool.false_and, getLsbD_zero]

/-- The address in a reference of one word. -/
theorem getLsbD_narrowLocation_address (hfits : fitsNarrow settings value = true) :
    (narrowLocation settings value &&& blockMask).getLsbD position
      = (logicalAddress settings value).getLsbD position := by
  rw [getLsbD_and, getLsbD_blockMask]
  by_cases hpos : position < 31
  · rw [decide_eq_true hpos, Bool.and_true, getLsbD_narrowLocation (by omega),
      decide_eq_false (by omega), Bool.and_false, Bool.or_false]
  · rw [decide_eq_false hpos, Bool.and_false, getLsbD_of_fitsNarrow hfits (by omega)]

theorem narrowBlock_narrowLocation (hshift : settings.chunkShift < 32)
    (hfits : fitsNarrow settings value = true) (hval : Readable settings value) :
    narrowBlock settings (narrowLocation settings value) = value.block := by
  refine eq_of_getLsbD_eq fun position hpos ↦ ?_
  rw [narrowBlock, shiftRight, mod_eq_of_lt hshift, getLsbD_or, getLsbD_ushiftRight,
    getLsbD_narrowLocation_address hfits, getLsbD_and, getLsbD_rawMask]
  by_cases hlast : position = 31
  · subst hlast
    rw [getLsbD_of_fitsNarrow hfits (by omega), Bool.false_or, decide_eq_true rfl, Bool.and_true,
      getLsbD_narrowLocation (by omega), getLsbD_of_fitsNarrow hfits (le_refl _),
      decide_eq_true rfl, Bool.and_true, Bool.false_or]
  · rw [decide_eq_false hlast, Bool.and_false, Bool.or_false, getLsbD_logicalAddress (by omega),
      decide_eq_true (Nat.le_add_right _ _), Nat.add_sub_cancel_left, Bool.true_and,
      hval.getLsbD_offset (le_add_right _ _), Bool.or_false, ListValueRef.blockIndex,
      getLsbD_and, getLsbD_blockMask, decide_eq_true (by omega), Bool.and_true]

theorem narrowOffset_narrowLocation (hfits : fitsNarrow settings value = true)
    (hval : Readable settings value) :
    narrowOffset settings (narrowLocation settings value) = value.offset := by
  refine eq_of_getLsbD_eq fun position hpos ↦ ?_
  rw [narrowOffset, getLsbD_and, getLsbD_narrowLocation_address hfits,
    getLsbD_chunkMask hpos, getLsbD_logicalAddress (by omega)]
  by_cases hlow : position < settings.chunkShift
  · rw [decide_eq_true hlow, Bool.and_true, decide_eq_false (by omega), Bool.false_and,
      Bool.false_or]
  · rw [decide_eq_false hlow, Bool.and_false, hval.getLsbD_offset (by omega)]

/-! ## The shape of an array -/

/-- The parts of an array have the sizes that its capacity asks for. -/
structure Sound (pma : Pma) : Prop where
  lengths : pma.lengths.length = pma.capacity
  blocks : pma.blocks = [] ∨ pma.blocks.length = pma.capacity
  words : pma.occupied.words.length = wordCount pma.capacity
  outside : ∀ slot, pma.capacity ≤ slot → pma.isOccupied slot = false

variable {pma changed further : Pma} {slot other first middle stop : ℕ}

theorem Sound.div_lt (h : pma.Sound) (hslot : slot < pma.capacity) :
    slot / 64 < pma.occupied.words.length := by
  rw [h.words, wordCount]
  omega

theorem Sound.capacity_le (h : pma.Sound) : pma.capacity ≤ 64 * pma.occupied.words.length := by
  rw [h.words, wordCount]
  omega

theorem Sound.blocks_of_wide (h : pma.Sound) (hwide : pma.wideReferences = true) :
    pma.blocks.length = pma.capacity := by
  refine h.blocks.resolve_left fun hnil ↦ ?_
  rw [wideReferences, hnil] at hwide
  exact absurd hwide (by decide)

theorem blocks_of_narrow (hnarrow : pma.wideReferences = false) : pma.blocks = [] := by
  rw [wideReferences, not_eq_false', List.isEmpty_iff] at hnarrow
  exact hnarrow

/-- Only the slots of a window differ. -/
structure Within (settings : Settings) (first stop : ℕ) (pma changed : Pma) : Prop where
  sound : changed.Sound
  capacity : changed.capacity = pma.capacity
  isOccupied : ∀ slot, slot < first ∨ stop ≤ slot → changed.isOccupied slot = pma.isOccupied slot
  readSlot : ∀ slot, slot < first ∨ stop ≤ slot →
    changed.readSlot settings slot = pma.readSlot settings slot

theorem Within.refl (h : pma.Sound) : Within settings first stop pma pma :=
  ⟨h, rfl, fun _ _ ↦ rfl, fun _ _ ↦ rfl⟩

theorem Within.mono (h : Within settings first stop pma changed) {first' stop' : ℕ}
    (hfst : first' ≤ first) (hstop : stop ≤ stop') :
    Within settings first' stop' pma changed where
  sound := h.sound
  capacity := h.capacity
  isOccupied slot hslot := h.isOccupied slot (by omega)
  readSlot slot hslot := h.readSlot slot (by omega)

theorem Within.trans (h : Within settings first stop pma changed)
    (hfurther : Within settings first stop changed further) :
    Within settings first stop pma further where
  sound := hfurther.sound
  capacity := hfurther.capacity.trans h.capacity
  isOccupied slot hslot := (hfurther.isOccupied slot hslot).trans (h.isOccupied slot hslot)
  readSlot slot hslot := (hfurther.readSlot slot hslot).trans (h.readSlot slot hslot)

/-- What the slots of a window hold, in order. -/
def contents (settings : Settings) (pma : Pma) (first stop : ℕ) : List ListValueRef :=
  (slots pma.isOccupied first stop).map (pma.readSlot settings)

theorem contents_append (hfst : first ≤ middle) (hstop : middle ≤ stop) :
    pma.contents settings first middle ++ pma.contents settings middle stop
      = pma.contents settings first stop := by
  rw [contents, contents, ← map_append, slots_append hfst hstop, contents]

theorem contents_full (h : ∀ slot, first ≤ slot → slot < stop → pma.isOccupied slot = true) :
    pma.contents settings first stop
      = (List.range' first (stop - first)).map (pma.readSlot settings) := by
  rw [contents, slots, filter_eq_self.mpr]
  intro slot hslot
  rw [mem_range'_1] at hslot
  exact h slot hslot.1 (by omega)

variable (settings) in
theorem contents_occupied (h : pma.isOccupied slot = true) :
    pma.contents settings slot (slot + 1) = [pma.readSlot settings slot] := by
  rw [contents_full, Nat.add_sub_cancel_left]
  · rfl
  · intro other hle hlt
    rwa [show other = slot by omega]

/-- A run of values that has moved. -/
theorem contents_moved {target source count : ℕ}
    (h : ∀ index < count, pma.isOccupied (source + index) = true ∧
      changed.isOccupied (target + index) = true ∧
        changed.readSlot settings (target + index) = pma.readSlot settings (source + index)) :
    changed.contents settings target (target + count)
      = pma.contents settings source (source + count) := by
  rw [contents_full, contents_full, Nat.add_sub_cancel_left, Nat.add_sub_cancel_left,
    range'_eq_map_range, range'_eq_map_range, map_map, map_map]
  · exact map_congr_left fun index hidx ↦ (h index (mem_range.mp hidx)).2.2
  · intro slot hle hlt
    obtain ⟨index, rfl⟩ := Nat.exists_eq_add_of_le hle
    exact (h index (by omega)).1
  · intro slot hle hlt
    obtain ⟨index, rfl⟩ := Nat.exists_eq_add_of_le hle
    exact (h index (by omega)).2.1

theorem contents_empty (h : ∀ slot, first ≤ slot → slot < stop → pma.isOccupied slot = false) :
    pma.contents settings first stop = [] := by
  rw [contents, slots_eq_nil.mpr h, map_nil]

theorem contents_hole (h : pma.isOccupied slot = false) :
    pma.contents settings slot (slot + 1) = [] := by
  refine contents_empty fun other hle hlt ↦ ?_
  rwa [show other = slot by omega]

section

variable (h : Within settings first stop pma changed)
include h

theorem Within.contents_congr {start middle : ℕ} (hmiddle : middle ≤ first ∨ stop ≤ start) :
    changed.contents settings start middle = pma.contents settings start middle := by
  rw [contents, contents, slots_congr fun slot _ _ ↦ h.isOccupied slot (by omega)]
  refine map_congr_left fun slot hslot ↦ ?_
  obtain ⟨hle, hlt, -⟩ := mem_slots.mp hslot
  exact h.readSlot slot (by omega)

/-- What an array holds after a window has changed. -/
theorem Within.contents_eq (hle : first ≤ stop) (hcap : stop ≤ pma.capacity) :
    changed.contents settings 0 changed.capacity
      = pma.contents settings 0 first ++ changed.contents settings first stop
        ++ pma.contents settings stop pma.capacity := by
  rw [← h.contents_congr (.inl (le_refl _)), ← h.contents_congr (.inr (le_refl _)),
    contents_append (zero_le _) hle, contents_append (zero_le _) hcap, h.capacity]

end

/-! ## Writing a slot -/

/-- Values have been written to slots one after the other, and nothing else has changed. -/
structure Writes (settings : Settings) (first : ℕ) (inserted : List ListValueRef)
    (pma changed : Pma) : Prop where
  within : Within settings first (first + inserted.length) pma changed
  occupied : changed.occupied = pma.occupied
  size : changed.size = pma.size
  reads : (List.range' first inserted.length).map (changed.readSlot settings) = inserted

/-- Every slot is as it was, and what else the array keeps. -/
abbrev Same (settings : Settings) (pma changed : Pma) : Prop := Writes settings 0 [] pma changed

theorem Same.refl (h : pma.Sound) : Same settings pma pma := ⟨.refl h, rfl, rfl, rfl⟩

theorem Same.trans (h : Same settings pma changed) (hfurther : Same settings changed further) :
    Same settings pma further :=
  ⟨h.within.trans hfurther.within, hfurther.occupied.trans h.occupied,
    hfurther.size.trans h.size, rfl⟩

@[simp] theorem capacity_promoteReferences :
    (pma.promoteReferences settings).capacity = pma.capacity := length_map ..

theorem readSlot_promoteReferences (hnarrow : pma.wideReferences = false) :
    (pma.promoteReferences settings).readSlot settings slot = pma.readSlot settings slot := by
  by_cases hnil : pma.offsets = []
  · have hblocks := blocks_of_narrow hnarrow
    have hsame : pma.promoteReferences settings = pma := by
      cases pma
      simp_all [promoteReferences]
    rw [hsame]
  have hwide : (pma.promoteReferences settings).wideReferences = true := by
    simp [wideReferences, promoteReferences, hnil]
  have hblock : narrowBlock settings 0 = 0 := by simp [narrowBlock, shiftRight]
  have hoffset : narrowOffset settings 0 = 0 := by simp [narrowOffset]
  have hget : ∀ f : BitVec 32 → BitVec 32, f 0 = 0 →
      (pma.offsets.map f).getD slot 0 = f (pma.offsets.getD slot 0) := by
    intro f hzero
    exact (congrArg _ hzero.symm).trans (getD_map ..)
  rw [readSlot, if_pos hwide, readSlot, if_neg (by rw [hnarrow]; exact false_ne_true)]
  simp only [promoteReferences, hget _ hblock, hget _ hoffset]

theorem same_promoteReferences (h : pma.Sound) (hnarrow : pma.wideReferences = false) :
    Same settings pma (pma.promoteReferences settings) where
  within :=
    { sound :=
        { lengths := h.lengths.trans capacity_promoteReferences.symm
          blocks := .inr ((length_map ..).trans capacity_promoteReferences.symm)
          words := by
            rw [capacity_promoteReferences]
            exact h.words
          outside := fun slot hslot ↦
            h.outside slot (by rwa [capacity_promoteReferences] at hslot) }
      capacity := capacity_promoteReferences
      isOccupied := fun _ _ ↦ rfl
      readSlot := fun _ _ ↦ readSlot_promoteReferences hnarrow }
  occupied := rfl
  size := rfl
  reads := rfl

theorem same_promoteFor (h : pma.Sound) : Same settings pma (pma.promoteFor settings value) := by
  rw [promoteFor]
  split
  · rename_i hnarrow
    exact same_promoteReferences h hnarrow.1
  · exact .refl h

theorem same_promoteForMany (h : pma.Sound) (values : List ListValueRef) :
    Same settings pma (pma.promoteForMany settings values) := by
  rw [promoteForMany]
  split
  · rename_i hnarrow
    exact same_promoteReferences h hnarrow.1
  · exact .refl h

/-- A narrow array is one that the reference fits. -/
theorem fits_of_narrow (hslot : slot < pma.capacity)
    (hnarrow : (pma.promoteFor settings value).wideReferences = false) :
    fitsNarrow settings value = true := by
  rw [promoteFor] at hnarrow
  split at hnarrow
  · have hnil := blocks_of_narrow hnarrow
    have hoffs : pma.offsets = [] := map_eq_nil_iff.mp hnil
    rw [capacity, hoffs] at hslot
    cases hslot
  · rename_i hkept
    by_contra hfits
    exact hkept ⟨hnarrow, not_eq_true _ ▸ hfits⟩

theorem getD_set {α : Type} {list : List α} {default new : α} (hslot : slot < list.length) :
    (list.set slot new).getD other default
      = if other = slot then new else list.getD other default := by
  rw [getD_eq_getElem?_getD]
  split
  · rename_i heq
    rw [heq, getElem?_set_self hslot, Option.getD_some]
  · rename_i hne
    rw [getElem?_set_ne (Ne.symm hne), ← getD_eq_getElem?_getD]

@[simp] theorem wideReferences_storeSlot :
    (pma.storeSlot settings slot value).wideReferences = pma.wideReferences := by
  rw [storeSlot]
  split
  · rename_i hwide
    rw [hwide]
    rw [wideReferences, not_eq_true', isEmpty_eq_false_iff] at hwide
    simp [wideReferences, hwide]
  · rfl

@[simp] theorem capacity_storeSlot :
    (pma.storeSlot settings slot value).capacity = pma.capacity := by
  rw [storeSlot, capacity, capacity]
  split <;> simp

theorem storeSlot_occupied : (pma.storeSlot settings slot value).occupied = pma.occupied := by
  rw [storeSlot]
  split <;> rfl

theorem Sound.storeSlot (h : pma.Sound) : (pma.storeSlot settings slot value).Sound := by
  refine ⟨?_, ?_, ?_, ?_⟩
  · rw [capacity_storeSlot, ← h.lengths, Pma.storeSlot]
    split <;> exact length_set
  · rw [capacity_storeSlot, Pma.storeSlot]
    split
    · rename_i hwide
      exact .inr (length_set.trans (h.blocks_of_wide hwide))
    · exact h.blocks
  · rw [storeSlot_occupied, capacity_storeSlot, h.words]
  · intro other hoth
    rw [capacity_storeSlot] at hoth
    rw [isOccupied, storeSlot_occupied]
    exact h.outside other hoth

theorem readSlot_storeSlot (h : pma.Sound) (hslot : slot < pma.capacity)
    (hshift : settings.chunkShift < 32) (hval : Readable settings value)
    (hfits : pma.wideReferences = false → fitsNarrow settings value = true) :
    (pma.storeSlot settings slot value).readSlot settings other
      = if other = slot then value else pma.readSlot settings other := by
  have hlens : slot < pma.lengths.length := by rwa [h.lengths]
  rw [readSlot, wideReferences_storeSlot]
  cases hwide : pma.wideReferences with
  | true =>
    have hblks : slot < pma.blocks.length := by rwa [h.blocks_of_wide hwide]
    rw [if_pos rfl, storeSlot, if_pos hwide, readSlot, if_pos hwide]
    rw [getD_set hblks, getD_set hslot, getD_set hlens]
    split <;> rfl
  | false =>
    have hnarrow : ¬pma.wideReferences = true := by
      rw [hwide]
      exact false_ne_true
    rw [if_neg Bool.false_ne_true, storeSlot, if_neg hnarrow, readSlot, if_neg hnarrow]
    rw [getD_set hslot, getD_set hlens]
    split
    · rw [narrowBlock_narrowLocation hshift (hfits hwide) hval,
        narrowOffset_narrowLocation (hfits hwide) hval]
    · rfl

variable (hshift : settings.chunkShift < 32)
include hshift

theorem writes_writeSlot (h : pma.Sound) (hslot : slot < pma.capacity)
    (hval : Readable settings value) :
    Writes settings slot [value] pma (pma.writeSlot settings slot value) := by
  have hsame : Same settings pma (pma.promoteFor settings value) := same_promoteFor h
  have hcap := hsame.within.capacity
  have hread : ∀ other, (pma.writeSlot settings slot value).readSlot settings other
      = if other = slot then value else pma.readSlot settings other := by
    intro other
    rw [writeSlot, readSlot_storeSlot hsame.within.sound (by rwa [hcap]) hshift hval
      (fits_of_narrow hslot), hsame.within.readSlot other (.inr (zero_le _))]
  have hocc : (pma.writeSlot settings slot value).occupied = pma.occupied := by
    rw [writeSlot, storeSlot_occupied, hsame.occupied]
  refine ⟨⟨hsame.within.sound.storeSlot, ?_, fun other _ ↦ ?_, fun other hoth ↦ ?_⟩, hocc, ?_, ?_⟩
  · rw [writeSlot, capacity_storeSlot, hcap]
  · rw [isOccupied, hocc, isOccupied]
  · rw [hread, if_neg (by rw [length_singleton] at hoth; omega)]
  · rw [← hsame.size, writeSlot, storeSlot]
    split <;> rfl
  · rw [length_singleton, range'_one, map_singleton, hread, if_pos rfl]

variable {inserted : List ListValueRef} {occupied : Bitmap}

theorem writes_writeRun (h : pma.Sound) (hins : ∀ value ∈ inserted, Readable settings value)
    (hstop : first + inserted.length ≤ pma.capacity) :
    Writes settings first inserted pma (writeRun settings first inserted pma) := by
  induction inserted generalizing first pma with
  | nil => exact ⟨.refl h, rfl, rfl, rfl⟩
  | cons value rest ih =>
    rw [length_cons] at hstop
    have hwritten := writes_writeSlot hshift h (by omega : first < pma.capacity)
      (hins value (mem_cons_self ..))
    have hcap : first + 1 + rest.length ≤ (pma.writeSlot settings first value).capacity := by
      rw [hwritten.within.capacity]
      omega
    have hrest := ih hwritten.within.sound
      (fun other hoth ↦ hins other (mem_cons_of_mem _ hoth)) hcap
    rw [writeRun]
    refine ⟨(hwritten.within.mono (le_refl _) ?_).trans (hrest.within.mono (by omega) ?_),
      hrest.occupied.trans hwritten.occupied, hrest.size.trans hwritten.size, ?_⟩
    · simp only [length_cons, length_nil]
      omega
    · rw [length_cons]
      omega
    · rw [length_cons, range'_succ, map_cons, hrest.reads, hrest.within.readSlot first (by omega)]
      exact congrArg (· :: rest) (head_eq_of_cons_eq hwritten.reads)

omit hshift

/-! ## Marking slots -/

/-- The bitmap of an array is replaced by one in which the slots of a window are marked alike. -/
theorem Sound.marked (h : pma.Sound) {mark : Bool}
    (hlen : occupied.words.length = pma.occupied.words.length) (hstop : stop ≤ pma.capacity)
    (hset : ∀ slot, occupied.isSet slot
      = if first ≤ slot ∧ slot < stop then mark else pma.isOccupied slot) :
    Within settings first stop pma { pma with occupied := occupied } where
  sound :=
    { lengths := h.lengths
      blocks := h.blocks
      words := hlen.trans h.words
      outside := fun slot hslot ↦ by
        have hcap : pma.capacity ≤ slot := hslot
        exact (hset slot).trans ((if_neg (by omega)).trans (h.outside slot hslot)) }
  capacity := rfl
  isOccupied slot hslot := (hset slot).trans (if_neg (by omega))
  readSlot _ _ := rfl

/-- The values that have been written are marked. -/
theorem Writes.marked (h : Writes settings first inserted pma changed)
    (hlen : occupied.words.length = pma.occupied.words.length)
    (hstop : first + inserted.length ≤ pma.capacity) (hset : ∀ slot, occupied.isSet slot
      = if first ≤ slot ∧ slot < first + inserted.length then true else pma.isOccupied slot) :
    Within settings first (first + inserted.length) pma { changed with occupied := occupied } ∧
      ({ changed with occupied := occupied } : Pma).contents settings first
        (first + inserted.length) = inserted := by
  have hmark : ∀ slot, occupied.isSet slot = if first ≤ slot ∧ slot < first + inserted.length
      then true else changed.isOccupied slot := by
    intro slot
    rw [hset, isOccupied, isOccupied, h.occupied]
  refine ⟨h.within.trans (h.within.sound.marked ?_ ?_ hmark), ?_⟩
  · rw [h.occupied, hlen]
  · rw [h.within.capacity]
    exact hstop
  · have hfull : ∀ slot, first ≤ slot → slot < first + inserted.length →
        ({ changed with occupied := occupied } : Pma).isOccupied slot = true :=
      fun slot hle hlt ↦ (hset slot).trans (if_pos ⟨hle, hlt⟩)
    rw [contents_full hfull, Nat.add_sub_cancel_left]
    exact h.reads

variable (settings first) in
theorem within_clearOccupancy (h : pma.Sound) (hstop : stop ≤ pma.capacity) :
    Within settings first stop pma (pma.clearOccupancy first stop) ∧
      ∀ slot, first ≤ slot → slot < stop →
        (pma.clearOccupancy first stop).isOccupied slot = false := by
  obtain ⟨hlen, hset⟩ := fillWords_spec (h.capacity_le.trans' hstop)
  exact ⟨h.marked hlen hstop hset, fun slot hle hlt ↦ (hset slot).trans (if_pos ⟨hle, hlt⟩)⟩

/-- A value has been placed in a slot. -/
theorem within_placeSlot (hshift : settings.chunkShift < 32) (h : pma.Sound)
    (hslot : slot < pma.capacity) (hval : Readable settings value) :
    Within settings slot (slot + 1) pma (pma.placeSlot settings slot value) ∧
      (pma.placeSlot settings slot value).contents settings slot (slot + 1) = [value] := by
  have hwrites := writes_writeSlot hshift h hslot hval
  refine hwrites.marked (length_setWord.trans (by rw [hwrites.occupied])) hslot
    fun other ↦ ?_
  rw [hwrites.occupied]
  exact (isSet_putBit (h.div_lt hslot) true other).trans (if_congr (by simp; omega) rfl rfl)

variable (settings) in
/-- A value moves between two slots. -/
theorem moveSlot_spec (h : pma.Sound) {target source : ℕ} (htgt : target < pma.capacity)
    (hsrc : source < pma.capacity) :
    (pma.moveSlot target source).Sound ∧
      (∀ other, (pma.moveSlot target source).isOccupied other
        = if other = target then true else if other = source then false
          else pma.isOccupied other) ∧
      ∀ other, (pma.moveSlot target source).readSlot settings other
        = pma.readSlot settings (if other = target then source else other) := by
  obtain ⟨hlen, hset⟩ := move_spec (h.div_lt htgt) (h.div_lt hsrc)
  have hcap : (pma.moveSlot target source).capacity = pma.capacity := length_set
  have hlens : target < pma.lengths.length := by rwa [h.lengths]
  have hwide : (pma.moveSlot target source).wideReferences = pma.wideReferences := by
    rw [wideReferences, wideReferences, moveSlot]
    split
    · cases pma.blocks with
      | nil => rfl
      | cons block rest => cases target <;> rfl
    · rfl
  refine ⟨⟨?_, ?_, ?_, fun other hoth ↦ ?_⟩, hset, fun other ↦ ?_⟩
  · rw [hcap, ← h.lengths]
    exact length_set
  · rw [hcap, moveSlot]
    split
    · rename_i hwide
      exact .inr (length_set.trans (h.blocks_of_wide hwide))
    · exact h.blocks
  · rw [hcap, ← h.words]
    exact hlen
  · rw [hcap] at hoth
    refine (hset other).trans ?_
    rw [if_neg (by omega), if_neg (by omega)]
    exact h.outside other hoth
  · rw [readSlot, hwide, readSlot]
    cases hreferences : pma.wideReferences with
    | true =>
      have hblks : target < pma.blocks.length := by rwa [h.blocks_of_wide hreferences]
      rw [if_pos rfl, if_pos rfl, moveSlot]
      rw [if_pos hreferences, getD_set hblks, getD_set htgt, getD_set hlens]
      split <;> rfl
    | false =>
      rw [if_neg Bool.false_ne_true, if_neg Bool.false_ne_true, moveSlot]
      rw [getD_set htgt, getD_set hlens]
      split <;> rfl

end Pma

end GoblinCore.AdaptivePma
