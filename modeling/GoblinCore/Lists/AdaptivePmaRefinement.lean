import GoblinCore.Lists.AdaptivePmaSlots

/-!
# An adaptive packed-memory array holds a sequence

Slots and ranks of an array that holds a sequence, the windows that are spread again, and the
capacities that the settings ask for.
-/

namespace GoblinCore.AdaptivePma.Pma

open WordBits List Nat Bitmap

variable {settings : Settings} {pma changed : Pma} {values inserted : List ListValueRef}
  {value : ListValueRef} {slot first stop rank : ℕ}

/-! ## Ranks and slots -/

/-- An array with slots that holds a sequence. -/
structure Holds (settings : Settings) (pma : Pma) (values : List ListValueRef) : Prop where
  sound : pma.Sound
  counted : pma.occupied.Counted
  contents_eq : pma.contents settings 0 pma.capacity = values
  size_eq : pma.size = values.length
  capacity_pos : 0 < pma.capacity
  capacity_le : pma.capacity ≤ limit
  readable : ∀ value ∈ values, Readable settings value

theorem length_contents : (pma.contents settings first stop).length
    = (slots pma.isOccupied first stop).length := length_map ..

theorem length_contents_le : (pma.contents settings first stop).length ≤ stop - first := by
  rw [length_contents, slots]
  exact (length_filter_le ..).trans (length_range' ..).le

/-- The slots of the words are those of the array. -/
theorem Sound.slots_words (h : pma.Sound) :
    slots pma.occupied.isSet 0 (64 * pma.occupied.words.length)
      = slots pma.isOccupied 0 pma.capacity := by
  have houtside : slots pma.occupied.isSet pma.capacity (64 * pma.occupied.words.length) = [] :=
    slots_eq_nil.mpr fun slot hslot _ ↦ h.outside slot hslot
  rw [← slots_append (zero_le pma.capacity) h.capacity_le, houtside, append_nil]
  rfl

section

variable (h : Holds settings pma values)
include h

theorem Holds.sum_popcounts : (pma.occupied.words.map popcount).sum = values.length := by
  rw [Bitmap.sum_popcounts, h.sound.slots_words, ← h.contents_eq, length_contents]

theorem Holds.length_le : values.length ≤ pma.capacity := by
  rw [← h.contents_eq]
  exact length_contents_le

theorem Holds.sum_lt : (pma.occupied.words.map popcount).sum < 2 ^ 32 := by
  rw [h.sum_popcounts]
  refine lt_of_le_of_lt (h.length_le.trans h.capacity_le) (by decide)

end

/-- A slot that holds the element of a rank. -/
structure Located (settings : Settings) (pma : Pma) (values : List ListValueRef) (rank slot : ℕ) :
    Prop where
  lt_capacity : slot < pma.capacity
  isOccupied : pma.isOccupied slot = true
  before : pma.contents settings 0 slot = values.take rank
  read : values[rank]? = some (pma.readSlot settings slot)
  after : pma.contents settings (slot + 1) pma.capacity = values.drop (rank + 1)

theorem Located.upto (h : Located settings pma values rank slot) :
    pma.contents settings 0 (slot + 1) = values.take (rank + 1) := by
  rw [← contents_append (zero_le slot) (le_succ slot),
    contents_occupied settings h.isOccupied, h.before, take_add_one, h.read]
  rfl

theorem Located.onward (h : Located settings pma values rank slot) :
    pma.contents settings slot pma.capacity = values.drop rank := by
  have hdrop : values.drop rank = values[rank]?.toList ++ values.drop (rank + 1) :=
    drop_eq_getElem?_toList_append
  rw [← contents_append (le_succ slot) h.lt_capacity, contents_occupied settings h.isOccupied,
    h.after, hdrop, h.read]
  rfl

theorem Holds.located (h : Holds settings pma values) (hrank : rank < values.length) :
    Located settings pma values rank (pma.selectSlot rank) := by
  have hselect := select_spec h.counted h.sum_lt (by rwa [h.sum_popcounts])
  rw [h.sound.slots_words] at hselect
  change _ = some (pma.selectSlot rank) at hselect
  obtain ⟨-, hlt, hocc⟩ := mem_slots.mp (mem_of_getElem? hselect)
  have hbef : (pma.contents settings 0 (pma.selectSlot rank)).length = rank := by
    rw [length_contents]
    exact length_slots_of_getElem? hselect
  have hsplit : values = pma.contents settings 0 (pma.selectSlot rank)
      ++ pma.readSlot settings (pma.selectSlot rank)
        :: pma.contents settings (pma.selectSlot rank + 1) pma.capacity := by
    rw [← singleton_append, ← contents_occupied settings hocc,
      contents_append (le_succ _) hlt, contents_append (zero_le _) hlt.le, h.contents_eq]
  refine ⟨hlt, hocc, ?_, ?_, ?_⟩
  · rw [hsplit]
    exact (take_left' hbef).symm
  · rw [hsplit, getElem?_append_right hbef.le, hbef, Nat.sub_self, getElem?_cons_zero]
  · rw [hsplit, ← drop_drop, drop_left' hbef, drop_one, tail_cons]

theorem Holds.rankBefore_eq (h : Holds settings pma values) (hslot : slot ≤ pma.capacity) :
    pma.rankBefore slot = (pma.contents settings 0 slot).length := by
  rw [length_contents]
  exact rank_eq h.counted h.sum_lt (hslot.trans h.sound.capacity_le)

theorem Sound.words_ne_nil (h : pma.Sound) (hpos : 0 < pma.capacity) : pma.occupied.words ≠ [] := by
  intro hnil
  have hlen := h.capacity_le
  rw [hnil] at hlen
  simp only [length_nil] at hlen
  omega

section

variable (h : pma.Sound) (hstop : stop ≤ pma.capacity)
include h hstop

theorem Sound.occupiedSlots_eq :
    pma.occupiedSlots first stop = slots pma.isOccupied first stop := by
  rw [occupiedSlots]
  by_cases hlt : first < stop
  · have hnil := h.words_ne_nil (by omega)
    rw [if_neg (by simp only [hnil, or_false]; omega), min_eq_left hstop, min_eq_left hlt.le,
      scan_eq hlt]
    rfl
  · rw [if_pos (.inl (by omega))]
    symm
    exact slots_eq_nil.mpr fun slot hle hless ↦ by omega

theorem Sound.occupiedSlotsReverse_eq (hlt : first < stop) :
    pma.occupiedSlotsReverse first stop = (slots pma.isOccupied first stop).reverse := by
  have hnil := h.words_ne_nil (by omega)
  rw [occupiedSlotsReverse, if_neg (by simp only [hnil, or_false]; omega), min_eq_left hstop,
    min_eq_left hlt.le, scanReverse_eq hlt]
  rfl

theorem Sound.valuesIn_eq :
    pma.valuesIn settings first stop = pma.contents settings first stop := by
  rw [valuesIn, h.occupiedSlots_eq hstop, contents]

end

theorem Holds.allValues_eq (h : Holds settings pma values) : pma.allValues settings = values := by
  rw [allValues, h.sound.valuesIn_eq (le_refl _), h.contents_eq]

/-! ## Spreading values over a window -/

theorem redistributeLoop_spec (total spread frontReserved index assigned : ℕ)
    (hshift : settings.chunkShift < 32) (h : pma.Sound)
    (hreadable : ∀ value ∈ values, Readable settings value) (hstop : stop ≤ pma.capacity)
    (hclear : ∀ other, slot ≤ other → other < stop → pma.isOccupied other = false)
    (hassigned : assigned = spread * index / (total + 1)) (htotal : index + values.length ≤ total)
    (hroom : slot + values.length + (spread - assigned) + (if index = 0 then frontReserved else 0) ≤
      stop) :
    Within settings slot stop pma
        (redistributeLoop settings total spread frontReserved values index assigned slot pma) ∧
      (redistributeLoop settings total spread frontReserved values index assigned slot
        pma).contents settings slot stop = values := by
  induction values generalizing index assigned slot pma with
  | nil => exact ⟨.refl h, contents_empty hclear⟩
  | cons value rest ih =>
    rw [redistributeLoop]
    set target := spread * (index + 1) / (total + 1) with htgt
    have hle : assigned ≤ target := by
      rw [hassigned, htgt]
      exact Nat.div_le_div_right (Nat.mul_le_mul_left _ (Nat.le_succ index))
    have hspread : target ≤ spread := by
      refine Nat.div_le_of_le_mul ?_
      rw [Nat.mul_comm]
      exact mul_le_mul_right _ (by omega)
    set gap := target - assigned + if index = 0 then frontReserved else 0 with hgap
    rw [length_cons] at hroom htotal
    have hplace : slot + gap < stop := by omega
    obtain ⟨hwithin, hcont⟩ := within_placeSlot hshift h (hplace.trans_le hstop)
      (hreadable value (mem_cons_self ..))
    have hlaterClear : ∀ other, slot + gap + 1 ≤ other → other < stop →
        (pma.placeSlot settings (slot + gap) value).isOccupied other = false := by
      intro other hoth hlt
      rw [hwithin.isOccupied other (by omega)]
      exact hclear other (by omega) hlt
    have hlaterRoom : slot + gap + 1 + rest.length + (spread - target)
        + (if index + 1 = 0 then frontReserved else 0) ≤ stop := by
      rw [if_neg (succ_ne_zero index)]
      omega
    obtain ⟨hlater, hvals⟩ := ih (index + 1) target hwithin.sound
      (fun other hoth ↦ hreadable other (mem_cons_of_mem _ hoth))
      (by rw [hwithin.capacity]; exact hstop) hlaterClear htgt (by omega) hlaterRoom
    refine ⟨(hwithin.mono (by omega) (by omega)).trans (hlater.mono (by omega) (le_refl _)), ?_⟩
    have hbef : ∀ other, slot ≤ other → other < slot + gap → pma.isOccupied other = false :=
      fun other hoth hlt ↦ hclear other hoth (by omega)
    rw [← contents_append (by omega : slot ≤ slot + gap + 1) (by omega), hvals,
      hlater.contents_congr (.inl (le_refl _)),
      ← contents_append (by omega : slot ≤ slot + gap) (by omega), hcont,
      hwithin.contents_congr (.inl (le_refl _)), contents_empty hbef]
    rfl

theorem within_rebuildFenwick (h : pma.Sound) : Within settings first stop pma pma.rebuildFenwick :=
  ⟨{ h with }, rfl, fun _ _ ↦ rfl, fun _ _ ↦ rfl⟩

theorem contents_rebuildFenwick :
    pma.rebuildFenwick.contents settings first stop = pma.contents settings first stop := rfl

/-- A window is spread again. -/
theorem redistribute_spec (hshift : settings.chunkShift < 32) (h : pma.Sound)
    (hreadable : ∀ value ∈ values, Readable settings value) (hle : first ≤ stop)
    (hstop : stop ≤ pma.capacity) (hroom : values.length ≤ stop - first) :
    Within settings first stop pma (pma.redistribute settings first stop values) ∧
      (pma.redistribute settings first stop values).contents settings first stop = values ∧
        (pma.redistribute settings first stop values).occupied.Counted := by
  obtain ⟨hcleared, hemp⟩ := within_clearOccupancy settings first h hstop
  rw [redistribute]
  split
  · rename_i hnil
    refine ⟨hcleared.trans (within_rebuildFenwick hcleared.sound), ?_, counted_recount⟩
    rw [contents_rebuildFenwick, contents_empty hemp, hnil]
  · dsimp only
    generalize hfront : (if first = 0 ∧ 1 < pma.frontBias then pma.frontBias - 1 else 0) = front
    generalize hback : (if stop = pma.capacity ∧ 1 < pma.backBias then pma.backBias - 1 else 0)
      = back
    generalize hbudget : (if front + back = 0 then 0 else (stop - first - values.length + 1) / 2)
      = budget
    generalize hreserved : (if front + back = 0 then 0 else budget * front / (front + back))
      = reserved
    have hbudgetLe : budget ≤ stop - first - values.length := by
      rw [← hbudget]
      split <;> omega
    have hreservedLe : reserved ≤ budget := by
      rw [← hreserved]
      split
      · exact zero_le _
      · refine Nat.div_le_of_le_mul ?_
        rw [Nat.mul_comm]
        exact mul_le_mul_right _ (le_add_right _ _)
    obtain ⟨hwithin, hvals⟩ := redistributeLoop_spec values.length
      (stop - first - values.length - budget) reserved 0 0 hshift hcleared.sound hreadable
      (by rw [hcleared.capacity]; exact hstop) hemp (by simp) (by omega)
      (by rw [if_pos rfl]; omega)
    exact ⟨(hcleared.trans hwithin).trans (within_rebuildFenwick hwithin.sound), hvals,
      counted_recount⟩

/-! ## Capacities -/

variable (settings) in
theorem maxOccupancy_le {slots : ℕ} (hpos : 0 < slots) (hle : slots ≤ limit) :
    maxOccupancy settings slots ≤ slots := by
  have hexact := settings.arithmetic.exact slots (lt_of_le_of_lt hle (by decide))
  have hdensity := mul_le_of_le_one_right (cast_nonneg slots) settings.density_le_one
  have hround : settings.arithmetic.round (slots * settings.maxDensity) ≤ slots := by
    rw [← hexact]
    exact settings.arithmetic.monotone (by rw [hexact]; exact hdensity)
  have hfloor : ⌊settings.arithmetic.round (slots * settings.maxDensity)⌋ ≤ (slots : ℤ) := by
    exact_mod_cast (Int.floor_le _).trans hround
  rw [maxOccupancy, if_neg hpos.ne']
  exact max_le hpos (by omega)

variable (settings) in
/-- The settings have slots for a number of elements. -/
def HasCapacity (count : ℕ) : Prop :=
  count = 0 ∨ ⌈settings.arithmetic.round (count / settings.maxDensity)⌉ ≤ (limit : ℤ)

variable (settings) in
/-- Slots in use can be replaced by more of them, for a number of elements. -/
def CanGrow (capacity count : ℕ) : Prop :=
  capacity < limit ∧
    ⌈settings.arithmetic.round (capacity * settings.resizeGrowth)⌉ ≤ (limit : ℤ) ∧
    HasCapacity settings count

theorem minimumCapacity_error {count : ℕ} {fault : Fault}
    (h : minimumCapacity settings count = .error fault) : ¬HasCapacity settings count := by
  unfold minimumCapacity at h
  dsimp only at h
  split at h
  · cases h
  · split at h
    · exact not_or.mpr ⟨‹_›, Int.not_le.mpr ‹_›⟩
    · cases h

theorem minimumCapacity_ok {count slots : ℕ} (h : minimumCapacity settings count = .ok slots) :
    HasCapacity settings count := by
  unfold minimumCapacity at h
  dsimp only at h
  split at h
  · exact .inl ‹_›
  · split at h
    · cases h
    · exact .inr (Int.not_lt.mp ‹_›)

theorem HasCapacity.exists_slots {count : ℕ} (h : HasCapacity settings count) :
    ∃ slots, minimumCapacity settings count = .ok slots := by
  cases hslots : minimumCapacity settings count with
  | error fault => exact absurd h (minimumCapacity_error hslots)
  | ok slots => exact ⟨slots, rfl⟩

theorem minimumCapacity_spec {count slots : ℕ} (hpos : 0 < count) (hle : count ≤ limit)
    (h : minimumCapacity settings count = .ok slots) :
    count ≤ slots ∧ 0 < slots ∧ slots ≤ limit := by
  have hexact := settings.arithmetic.exact count (lt_of_le_of_lt hle (by decide))
  have hdensity := le_div_self (cast_nonneg count) settings.density_pos settings.density_le_one
  have hround : (count : ℚ) ≤ settings.arithmetic.round (count / settings.maxDensity) := by
    rw [← hexact]
    exact settings.arithmetic.monotone (by rw [hexact]; exact hdensity)
  have hceil : (count : ℤ) ≤ ⌈settings.arithmetic.round (count / settings.maxDensity)⌉ := by
    exact_mod_cast hround.trans (Int.le_ceil _)
  rw [minimumCapacity, if_neg hpos.ne'] at h
  dsimp only at h
  split at h
  · cases h
  · have hslots := Except.ok.inj h
    have hinitial : initialCapacity ≤ limit := by decide
    omega

theorem grownCapacity_spec {capacity count slots : ℕ} (hpos : 0 < count) (hle : count ≤ limit)
    (h : grownCapacity settings capacity count = .ok slots) :
    count ≤ slots ∧ 0 < slots ∧ slots ≤ limit := by
  rw [grownCapacity] at h
  split at h
  · exact absurd h (by rintro ⟨⟩)
  cases hleast : minimumCapacity settings count with
  | error fault =>
    rw [hleast] at h
    exact absurd h (by rintro ⟨⟩)
  | ok least =>
    obtain ⟨hcnt, -, -⟩ := minimumCapacity_spec hpos hle hleast
    rw [hleast] at h
    dsimp only at h
    have hwanted := le_max_left least
      ⌈settings.arithmetic.round (capacity * settings.resizeGrowth)⌉.toNat
    generalize max least ⌈settings.arithmetic.round (capacity * settings.resizeGrowth)⌉.toNat
      = wanted at h hwanted
    generalize hres : (if wanted ≤ capacity then capacity + 1 else wanted) = result at h
    have hle : wanted ≤ result := by
      rw [← hres]
      split <;> omega
    split at h
    · exact absurd h (by rintro ⟨⟩)
    · obtain rfl := Except.ok.inj h
      omega

theorem grownCapacity_error {capacity count : ℕ} {fault : Fault} (hpos : 0 < count)
    (hle : count ≤ limit) (h : grownCapacity settings capacity count = .error fault) :
    ¬CanGrow settings capacity count := by
  rintro ⟨hmore, hgeometric, hcap⟩
  obtain ⟨least, hleast⟩ := hcap.exists_slots
  obtain ⟨-, -, hlimit⟩ := minimumCapacity_spec hpos hle hleast
  rw [grownCapacity, if_neg (Int.not_lt.mpr hgeometric), hleast] at h
  dsimp only at h
  have hwanted : max least
      ⌈settings.arithmetic.round (capacity * settings.resizeGrowth)⌉.toNat ≤ limit := by
    refine max_le hlimit ?_
    omega
  generalize max least ⌈settings.arithmetic.round (capacity * settings.resizeGrowth)⌉.toNat
    = wanted at h hwanted
  rw [if_neg (by split <;> omega)] at h
  cases h

/-! ## Rebuilding -/

variable (pma) in
theorem sound_allocateSlots {slots : ℕ} : (pma.allocateSlots slots).Sound ∧
    (pma.allocateSlots slots).capacity = slots ∧
      ∀ slot, (pma.allocateSlots slots).isOccupied slot = false := by
  have hcap : (pma.allocateSlots slots).capacity = slots := length_replicate
  refine ⟨⟨?_, ?_, ?_, fun slot _ ↦ isSet_zeros slots slot⟩, hcap, isSet_zeros slots⟩
  · rw [hcap]
    exact length_replicate
  · rw [hcap, allocateSlots]
    split
    · exact .inr length_replicate
    · exact .inl rfl
  · rw [hcap]
    exact length_replicate

/-- Values are spread over all slots of an array. -/
theorem holds_redistribute (hshift : settings.chunkShift < 32) (h : pma.Sound)
    (hreadable : ∀ value ∈ values, Readable settings value) (hpos : 0 < pma.capacity)
    (hle : pma.capacity ≤ limit) (hroom : values.length ≤ pma.capacity) {size : ℕ}
    (hsize : size = values.length) :
    Holds settings { pma.redistribute settings 0 pma.capacity values with size := size }
      values := by
  obtain ⟨hwithin, hcont, hcounted⟩ := redistribute_spec hshift h hreadable
    (zero_le pma.capacity) (le_refl _) hroom
  have hcap := hwithin.capacity
  exact ⟨{ hwithin.sound with }, hcounted,
    (congrArg (contents settings _ 0) hcap).trans hcont, hsize, hpos.trans_eq hcap.symm,
    hcap.trans_le hle, hreadable⟩

variable (pma) in
theorem holds_rebuildFrom {slots : ℕ} (hshift : settings.chunkShift < 32)
    (hreadable : ∀ value ∈ values, Readable settings value) (hpos : 0 < slots)
    (hle : slots ≤ limit) (hroom : values.length ≤ slots) :
    Holds settings (pma.rebuildFrom settings slots values) values := by
  obtain ⟨hsound, hcap, -⟩ := sound_allocateSlots pma
  have hholds := holds_redistribute hshift hsound hreadable (by rwa [hcap])
    (by rwa [hcap]) (by rwa [hcap]) (rfl : values.length = values.length)
  rw [hcap] at hholds
  exact hholds

/-- The sequence with others put in at a rank. -/
def insertAt (values : List ListValueRef) (rank : ℕ) (inserted : List ListValueRef) :
    List ListValueRef := values.take rank ++ inserted ++ values.drop rank

theorem length_insertAt : (insertAt values rank inserted).length
    = values.length + inserted.length := by
  have htotal := congrArg List.length (take_append_drop rank values)
  rw [length_append] at htotal
  rw [insertAt, length_append, length_append]
  omega

theorem mem_insertAt : value ∈ insertAt values rank inserted ↔
    value ∈ values ∨ value ∈ inserted := by
  have hmem : value ∈ values ↔ value ∈ values.take rank ∨ value ∈ values.drop rank := by
    rw [← mem_append, take_append_drop]
  rw [insertAt, mem_append, mem_append, hmem]
  tauto

theorem Holds.rebuildWithInsertMany {slots : ℕ} (hshift : settings.chunkShift < 32)
    (h : Holds settings pma values) (hins : ∀ value ∈ inserted, Readable settings value)
    (hpos : 0 < slots) (hle : slots ≤ limit) (hroom : values.length + inserted.length ≤ slots) :
    Holds settings (pma.rebuildWithInsertMany settings slots rank inserted)
      (insertAt values rank inserted) := by
  have hreadable : ∀ value ∈ insertAt values rank inserted, Readable settings value :=
    fun value hval ↦ (mem_insertAt.mp hval).elim (h.readable value) (hins value)
  have hholds := holds_rebuildFrom pma hshift hreadable hpos hle (by rwa [length_insertAt])
  rw [Pma.rebuildWithInsertMany, h.allValues_eq]
  exact hholds

/-! ## Windows with room -/

theorem Holds.readable_contents (h : Holds settings pma values) (hstop : stop ≤ pma.capacity)
    (hval : value ∈ pma.contents settings first stop) : Readable settings value := by
  refine h.readable value ?_
  obtain ⟨slot, hslot, rfl⟩ := mem_map.mp hval
  obtain ⟨-, hlt, hocc⟩ := mem_slots.mp hslot
  rw [← h.contents_eq]
  exact mem_map_of_mem (mem_slots.mpr ⟨zero_le _, hlt.trans_le hstop, hocc⟩)

/-- An array that has changed in a window. -/
theorem Holds.splice (h : Holds settings pma values)
    (hwithin : Within settings first stop pma changed) (hle : first ≤ stop)
    (hstop : stop ≤ pma.capacity) (hcounted : changed.occupied.Counted)
    (hhere : changed.contents settings first stop = inserted)
    (hins : ∀ value ∈ inserted, Readable settings value) {values' : List ListValueRef}
    (hvals : pma.contents settings 0 first ++ inserted ++ pma.contents settings stop pma.capacity
      = values') {size : ℕ} (hsize : size = values'.length) :
    Holds settings { changed with size := size } values' where
  sound := { hwithin.sound with }
  counted := hcounted
  contents_eq := by
    rw [← hvals, ← hhere]
    exact hwithin.contents_eq hle hstop
  size_eq := hsize
  capacity_pos := h.capacity_pos.trans_eq hwithin.capacity.symm
  capacity_le := hwithin.capacity.trans_le h.capacity_le
  readable value hval := by
    rw [← hvals, mem_append, mem_append] at hval
    rcases hval with (hbefore | hnew) | hafter
    · exact h.readable_contents (by omega) hbefore
    · exact hins value hnew
    · exact h.readable_contents (le_refl _) hafter

/-- Putting values in within a window. -/
theorem insertAt_window (inserted before here after : List ListValueRef)
    (hbef : before.length ≤ rank) (hhere : rank - before.length ≤ here.length) :
    before ++ insertAt here (rank - before.length) inserted ++ after
      = insertAt (before ++ here ++ after) rank inserted := by
  rw [insertAt, insertAt, append_assoc before here, take_append,
    take_of_length_le hbef, drop_append, drop_of_length_le hbef,
    take_append_of_le_length hhere, drop_append_of_le_length hhere, nil_append]
  simp only [append_assoc]

theorem windowStart_le {width : ℕ} (hwidth : width ≤ pma.capacity) (target : ℕ) :
    pma.windowStart target width + width ≤ pma.capacity := by
  rw [windowStart]
  split <;> omega

theorem Holds.redistributeWindows (hshift : settings.chunkShift < 32)
    (h : Holds settings pma values) (hins : ∀ value ∈ inserted, Readable settings value)
    {target fuel width : ℕ} (hpos : 0 < width) (hwidth : width ≤ pma.capacity) {spread : Pma}
    (hspread : pma.redistributeWindows settings rank target inserted fuel width = some spread) :
    Holds settings spread (insertAt values rank inserted) := by
  induction fuel generalizing width with
  | zero => exact absurd hspread (by rintro ⟨⟩)
  | succ fuel ih =>
    rw [Pma.redistributeWindows] at hspread
    have hstop := windowStart_le hwidth target
    generalize pma.windowStart target width = first at hspread hstop
    rw [h.sound.valuesIn_eq hstop, h.rankBefore_eq (by omega)] at hspread
    split at hspread
    · rename_i hroom
      obtain ⟨hbef, hhere, hless, hmore⟩ := hroom
      cases hspread
      have hlimit := maxOccupancy_le settings hpos (hwidth.trans h.capacity_le)
      have hsplit : pma.contents settings 0 first ++ pma.contents settings first (first + width)
          ++ pma.contents settings (first + width) pma.capacity = values := by
        rw [contents_append (zero_le _) (by omega), contents_append (zero_le _) hstop,
          h.contents_eq]
      have hwindow := insertAt_window inserted _ _
        (pma.contents settings (first + width) pma.capacity) hbef hhere
      rw [hsplit] at hwindow
      have hreadable : ∀ value ∈ insertAt (pma.contents settings first (first + width))
          (rank - (pma.contents settings 0 first).length) inserted, Readable settings value :=
        fun value hval ↦ (mem_insertAt.mp hval).elim (h.readable_contents hstop) (hins value)
      obtain ⟨hwithin, hcont, hcounted⟩ := redistribute_spec hshift h.sound hreadable
        (le_add_right first width) hstop (by rw [length_insertAt]; omega)
      refine h.splice hwithin (le_add_right first width) hstop hcounted hcont hreadable hwindow ?_
      rw [length_insertAt, h.size_eq]
    · split at hspread
      · exact absurd hspread (by rintro ⟨⟩)
      · refine ih ?_ ?_ hspread
        · split <;> omega
        · split <;> omega

end GoblinCore.AdaptivePma.Pma
