import GoblinCore.Lists.AdaptivePmaChanges

/-!
# Runs of an adaptive packed-memory array

Along every run of calls in bounds an array reads as the list that the same calls make, as long as
the chunks are below 4 GiB and every call finds settings that have slots for what it leaves.  An
insertion or a rebuild for which they have none is refused or finds a gap, and an erasure throws
after it has removed its elements.
-/

namespace GoblinCore.AdaptivePma.Pma

open WordBits List Nat

variable {settings : Settings} {pma changed : Pma} {values inserted : List ListValueRef}
  {value : ListValueRef} {rank count : ℕ}

/-! ## Arrays with and without slots -/

/-- An array without slots. -/
structure Cleared (pma : Pma) : Prop where
  sound : pma.Sound
  capacity : pma.capacity = 0
  occupied : pma.occupied = {}
  size : pma.size = 0

/-- An array holds a sequence, in slots when there is an element. -/
def Represents (settings : Settings) (pma : Pma) (values : List ListValueRef) : Prop :=
  values = [] ∧ pma.Cleared ∨ values ≠ [] ∧ Holds settings pma values

theorem cleared_clear : clear.Cleared :=
  ⟨⟨rfl, .inl rfl, rfl, fun _ _ ↦ by simp [isOccupied, clear, Bitmap.isSet, bitAt, Bitmap.wordAt]⟩,
    rfl, rfl, rfl⟩

theorem Holds.represents (h : Holds settings pma values) (hne : values ≠ []) :
    Represents settings pma values := .inr ⟨hne, h⟩

/-- Changes that leave the slots leave the sequence. -/
theorem Holds.same (h : Holds settings pma values) (hsame : Same settings pma changed) :
    Holds settings changed values := by
  have hcap := hsame.within.capacity
  refine ⟨hsame.within.sound, hsame.occupied ▸ h.counted, ?_, hsame.size.trans h.size_eq,
    h.capacity_pos.trans_eq hcap.symm, hcap.trans_le h.capacity_le, h.readable⟩
  rw [← h.contents_eq, hsame.within.contents_congr (.inr (zero_le _)), hcap]

section

variable (h : Represents settings pma values)
include h

theorem Represents.size_eq : pma.size = values.length := by
  rcases h with ⟨rfl, hcleared⟩ | ⟨-, hholds⟩
  · exact hcleared.size
  · exact hholds.size_eq

theorem Represents.sound : pma.Sound := by
  rcases h with ⟨-, hcleared⟩ | ⟨-, hholds⟩
  · exact hcleared.sound
  · exact hholds.sound

theorem Represents.same (hsame : Same settings pma changed) :
    Represents settings changed values := by
  rcases h with ⟨rfl, hcleared⟩ | ⟨hne, hholds⟩
  · exact .inl ⟨rfl, hsame.within.sound, hsame.within.capacity.trans hcleared.capacity,
      hsame.occupied.trans hcleared.occupied, hsame.size.trans hcleared.size⟩
  · exact (hholds.same hsame).represents hne

end

section

variable (h : pma.Sound)
include h

/-- The biases are no part of what an array holds. -/
theorem same_bias {front back : ℕ} :
    Same settings pma { pma with frontBias := front, backBias := back } :=
  ⟨⟨{ h with }, rfl, fun _ _ ↦ rfl, fun _ _ ↦ rfl⟩, rfl, rfl, rfl⟩

theorem same_noteInsert (endpoint : EndpointBias) :
    Same settings pma (pma.noteInsert rank count endpoint) := by
  rw [noteInsert]
  split
  · exact same_bias h
  · split
    · exact same_bias h
    · exact same_bias h

theorem same_noteEraseRange (priorSize : ℕ) :
    Same settings pma (pma.noteEraseRange rank count priorSize) := by
  rw [noteEraseRange]
  split
  · exact same_bias h
  · split
    · exact same_bias h
    · exact .refl h

theorem same_prepareInsert (endpoint : EndpointBias) :
    Same settings pma (pma.prepareInsert settings rank values endpoint) := by
  rw [prepareInsert]
  split
  · have hpromoted : Same settings pma (pma.promoteForMany settings values) :=
      same_promoteForMany h values
    exact hpromoted.trans (same_noteInsert hpromoted.within.sound endpoint)
  · exact same_noteInsert h endpoint

end

/-! ## Insertions -/

/-- Values are spread over new slots. -/
theorem holds_allocated (hshift : settings.chunkShift < 32)
    (hreadable : ∀ value ∈ values, Readable settings value) {slots size : ℕ} (hpos : 0 < slots)
    (hle : slots ≤ limit) (hroom : values.length ≤ slots)
    (hsame : Same settings (pma.allocateSlots slots) changed) (hsize : size = values.length) :
    Holds settings { changed.redistribute settings 0 changed.capacity values with size := size }
      values := by
  obtain ⟨-, hcap, -⟩ := sound_allocateSlots pma
  have hchg := hsame.within.capacity.trans hcap
  exact holds_redistribute hshift hsame.within.sound hreadable (by rwa [hchg])
    (by rwa [hchg]) (by rwa [hchg]) hsize

theorem insertAt_nil : insertAt [] rank inserted = inserted := by
  rw [insertAt, take_nil, drop_nil, nil_append, append_nil]

theorem insertAt_ne_nil (hne : inserted ≠ []) : insertAt values rank inserted ≠ [] := by
  intro hnil
  have hlen := congrArg List.length hnil
  rw [length_insertAt, length_nil] at hlen
  exact hne (eq_nil_of_length_eq_zero (by omega))

/-- What a call that inserts does, when refusals are explained by `exhausted`. -/
def Performs (settings : Settings) (before after : List ListValueRef) (exhausted : Prop)
    (result : Pma × Except Fault Unit) : Prop :=
  (result.2 = .ok () ∧ Represents settings result.1 after) ∨
    (∃ fault, result.2 = .error fault) ∧ Represents settings result.1 before ∧ exhausted

variable {exhausted : Prop} {result : Pma × Except Fault Unit} {after : List ListValueRef}

theorem Inserts.performs
    (h : Inserts settings values rank inserted exhausted result) (hvals : values ≠ [])
    (hins : inserted ≠ []) :
    Performs settings values (insertAt values rank inserted) exhausted result :=
  h.imp (fun hdone ↦ ⟨hdone.1, hdone.2.represents (insertAt_ne_nil hins)⟩)
    fun hrefused ↦ ⟨hrefused.1, hrefused.2.1.represents hvals, hrefused.2.2⟩

theorem Performs.mono {exhausted' : Prop} (h : Performs settings values after exhausted result)
    (himp : exhausted → exhausted') : Performs settings values after exhausted' result :=
  h.imp id fun hrefused ↦ ⟨hrefused.1, hrefused.2.1, himp hrefused.2.2⟩

/-- An array that has slots can have enough for a number of elements. -/
def Takes (settings : Settings) (pma : Pma) (count : ℕ) : Prop :=
  count ≤ limit ∧ (pma.capacity ≠ 0 → CanGrow settings pma.capacity count)

theorem Holds.insert (hshift : settings.chunkShift < 32) (h : Holds settings pma values)
    (hne : values ≠ []) (hval : Readable settings value) (hrank : rank ≤ values.length)
    (hlimit : values.length < limit) :
    Inserts settings values rank [value] (¬CanGrow settings pma.capacity (pma.size + 1))
      (if rank = 0 ∧ pma.selectSlot 0 ≠ 0 then
          (pma.putSlot settings (pma.selectSlot 0 - 1) value, .ok ())
        else if rank = pma.size ∧ pma.selectSlot (pma.size - 1) + 1 < pma.capacity then
          (pma.putSlot settings (pma.selectSlot (pma.size - 1) + 1) value, .ok ())
        else pma.insertNearby settings rank value) := by
  split
  · rename_i hfront
    obtain ⟨rfl, hslack⟩ := hfront
    exact .inl ⟨rfl, h.putSlot hshift (h.frontGap hne (pos_of_ne_zero hslack)) hval⟩
  · split
    · rename_i hback
      obtain ⟨hlast, hslack⟩ := hback
      rw [hlast.trans h.size_eq]
      exact .inl ⟨rfl, h.putSlot hshift (h.backGap hne hslack) hval⟩
    · exact h.insertNearby hshift hval hrank hlimit

theorem Represents.insert (hshift : settings.chunkShift < 32) (h : Represents settings pma values)
    (hval : Readable settings value) (hrank : rank ≤ values.length) :
    Performs settings values (insertAt values rank [value]) (¬Takes settings pma (pma.size + 1))
      (pma.insert settings rank value) := by
  have hsize := h.size_eq
  have hsame : Same settings pma (pma.prepareInsert settings rank [value] .byRank) :=
    same_prepareInsert h.sound _
  have hprepared := h.same hsame
  rw [Pma.insert, if_neg (by omega)]
  by_cases hlimit : pma.size = limit
  · rw [if_pos hlimit]
    exact .inr ⟨⟨_, rfl⟩, h, fun htakes ↦ by have := htakes.1; omega⟩
  rw [if_neg hlimit, Takes, ← hsame.size, ← hsame.within.capacity]
  rcases hprepared with ⟨rfl, hcleared⟩ | ⟨hne, hholds⟩
  · rw [if_pos hcleared.capacity, insertAt_nil]
    refine .inl ⟨rfl, Holds.represents ?_ (cons_ne_nil _ _)⟩
    exact holds_allocated hshift (by simpa using hval) (by decide) (by decide)
      (by rw [length_singleton]; decide) (same_promoteFor (sound_allocateSlots _).1) rfl
  · rw [if_neg hholds.capacity_pos.ne']
    have hlen : values.length < limit := by
      have := hholds.length_le.trans hholds.capacity_le
      omega
    exact ((hholds.insert hshift hne hval hrank hlen).performs hne (cons_ne_nil value [])).mono
      fun hfull htakes ↦ hfull (htakes.2 hholds.capacity_pos.ne')

/-- A first batch has slots of its own number; an insertion of one value has eight. -/
def TakesMany (settings : Settings) (pma : Pma) (count : ℕ) : Prop :=
  Takes settings pma count ∧ (pma.capacity = 0 → HasCapacity settings count)

variable (rank) in
theorem Holds.insertMany (hshift : settings.chunkShift < 32) (h : Holds settings pma values)
    (hne : values ≠ []) (hins : ∀ value ∈ inserted, Readable settings value)
    (hsome : inserted ≠ []) (hlimit : values.length + inserted.length ≤ limit) :
    Inserts settings values rank inserted
      (¬CanGrow settings pma.capacity (pma.size + inserted.length))
      (if rank = 0 ∧ inserted.length ≤ pma.selectSlot 0 then
          (pma.putRun settings (pma.selectSlot 0 - inserted.length) inserted, .ok ())
        else if rank = pma.size ∧
            inserted.length ≤ pma.capacity - pma.selectSlot (pma.size - 1) - 1 then
          (pma.putRun settings (pma.selectSlot (pma.size - 1) + 1) inserted, .ok ())
        else pma.insertSpreading settings rank inserted) := by
  split
  · rename_i hfront
    obtain ⟨rfl, hslack⟩ := hfront
    exact .inl ⟨rfl, h.putRun hshift (h.frontGap hne hslack) hins⟩
  · split
    · rename_i hback
      obtain ⟨hlast, hslack⟩ := hback
      have hpos := length_pos_of_ne_nil hne
      have hlt := (h.located (by rw [h.size_eq]; omega : pma.size - 1 < values.length)).lt_capacity
      rw [hlast.trans h.size_eq]
      exact .inl ⟨rfl, h.putRun hshift (h.backGap hne (by omega)) hins⟩
    · exact h.insertSpreading hshift hins hsome hlimit

theorem insertAt_empty : insertAt values rank [] = values := by
  rw [insertAt, append_nil, take_append_drop]

theorem Represents.insertMany (hshift : settings.chunkShift < 32)
    (h : Represents settings pma values) (hins : ∀ value ∈ inserted, Readable settings value)
    (hrank : rank ≤ values.length) (endpoint : EndpointBias) :
    Performs settings values (insertAt values rank inserted)
      (¬(inserted ≠ [] → TakesMany settings pma (pma.size + inserted.length)))
      (pma.insertMany settings rank inserted endpoint) := by
  have hsize := h.size_eq
  have hsame : Same settings pma (pma.prepareInsert settings rank inserted endpoint) :=
    same_prepareInsert h.sound endpoint
  have hprepared := h.same hsame
  rw [Pma.insertMany, if_neg (by omega)]
  by_cases hsome : inserted = []
  · rw [if_pos hsome, hsome, insertAt_empty]
    exact .inl ⟨rfl, h⟩
  rw [if_neg hsome]
  have hpos := length_pos_of_ne_nil hsome
  by_cases hlimit : limit - pma.size < inserted.length
  · rw [if_pos hlimit]
    exact .inr ⟨⟨_, rfl⟩, h, fun htakes ↦ by have := (htakes hsome).1.1; omega⟩
  rw [if_neg hlimit, TakesMany, Takes, ← hsame.size, ← hsame.within.capacity]
  rw [← hsame.size] at hsize hlimit
  rcases hprepared with ⟨rfl, hcleared⟩ | ⟨hne, hholds⟩
  · rw [if_pos hcleared.capacity, insertAt_nil, insertFirstMany]
    cases hslots : minimumCapacity settings
        ((pma.prepareInsert settings rank inserted endpoint).size + inserted.length) with
    | error fault =>
      exact .inr ⟨⟨fault, rfl⟩, .inl ⟨rfl, hcleared⟩,
        fun htakes ↦ minimumCapacity_error hslots ((htakes hsome).2 hcleared.capacity)⟩
    | ok slots =>
      rw [length_nil] at hsize
      obtain ⟨hroom, hslotsPos, hle⟩ := minimumCapacity_spec (by omega) (by omega) hslots
      exact .inl ⟨rfl, (holds_allocated hshift hins hslotsPos hle (by omega)
        (same_promoteForMany (sound_allocateSlots _).1 _) (by omega)).represents hsome⟩
  · rw [if_neg hholds.capacity_pos.ne']
    exact ((hholds.insertMany rank hshift hne hins hsome (by omega)).performs hne hsome).mono
      fun hfull htakes ↦ hfull ((htakes hsome).1.2 hholds.capacity_pos.ne')

/-! ## Erasures and rebuilds -/

section

variable (hshift : settings.chunkShift < 32) (h : Holds settings pma values)
include hshift h

theorem Holds.rebuild {slots : ℕ} (hpos : 0 < slots) (hle : slots ≤ limit)
    (hroom : values.length ≤ slots) : Holds settings (pma.rebuild settings slots) values := by
  rw [Pma.rebuild, h.allValues_eq]
  exact holds_rebuildFrom pma hshift h.readable hpos hle hroom

theorem Holds.maybeShrink (hne : values ≠ []) (hcap : HasCapacity settings values.length) :
    (pma.maybeShrink settings).2 = .ok () ∧ Holds settings (pma.maybeShrink settings).1 values := by
  obtain ⟨target, htgt⟩ := hcap.exists_slots
  have hpos := length_pos_of_ne_nil hne
  have hlimit := h.length_le.trans h.capacity_le
  obtain ⟨hroom, htargetPos, -⟩ := minimumCapacity_spec hpos hlimit htgt
  have hcap := h.capacity_le
  rw [Pma.maybeShrink, h.size_eq, htgt]
  dsimp only
  split
  · refine ⟨rfl, h.rebuild hshift ?_ ?_ ?_⟩ <;> omega
  · exact ⟨rfl, h⟩

theorem Holds.settleErase (hcap : HasCapacity settings values.length) :
    (pma.settleErase settings).2 = .ok () ∧
      Represents settings (pma.settleErase settings).1 values := by
  rw [Pma.settleErase]
  split
  · rename_i hzero
    rw [h.size_eq] at hzero
    exact ⟨rfl, .inl ⟨eq_nil_of_length_eq_zero hzero, cleared_clear⟩⟩
  · rename_i hsize
    have hne : values ≠ [] := by
      rintro rfl
      exact hsize h.size_eq
    obtain ⟨hdone, hholds⟩ := h.maybeShrink hshift hne hcap
    exact ⟨hdone, hholds.represents hne⟩

end

/-- The sequence without the elements from a rank on. -/
def eraseAt (values : List ListValueRef) (rank count : ℕ) : List ListValueRef :=
  values.take rank ++ values.drop (rank + count)

theorem length_eraseAt (hcnt : rank + count ≤ values.length) :
    (eraseAt values rank count).length = values.length - count := by
  rw [eraseAt, length_append, length_take, length_drop]
  omega

/-- Later elements are in later slots. -/
theorem Located.le {rank' slot slot' : ℕ} (h : Located settings pma values rank slot)
    (h' : Located settings pma values rank' slot') (hle : rank ≤ rank')
    (hlt : rank' < values.length) : slot ≤ slot' := by
  by_contra hless
  have hupto := congrArg List.length h'.upto
  have hbef := congrArg List.length h.before
  rw [length_take] at hupto hbef
  rw [← contents_append (zero_le (slot' + 1)) (by omega : slot' + 1 ≤ slot), length_append] at hbef
  omega

/-- Elements are erased by clearing their slots. -/
theorem Holds.erased (hshift : settings.chunkShift < 32) (h : Holds settings pma values)
    (hpos : 0 < count) (hcnt : rank + count ≤ values.length)
    (hcap : HasCapacity settings (values.length - count)) {occupied : Bitmap}
    (hspec : occupied.Counted ∧ occupied.words.length = pma.occupied.words.length ∧
      ∀ slot, occupied.isSet slot = if pma.selectSlot rank ≤ slot ∧
        slot < pma.selectSlot (rank + count - 1) + 1 then false else pma.isOccupied slot)
    (priorSize : ℕ) {erased : Pma × Except Fault Unit}
    (herased : erased = (({ pma with occupied := occupied, size := pma.size - count } :
      Pma).noteEraseRange rank count priorSize).settleErase settings) :
    erased.2 = .ok () ∧ Represents settings erased.1 (eraseAt values rank count) := by
  obtain ⟨hcounted, hlen, hset⟩ := hspec
  have hfst := h.located (by omega : rank < values.length)
  have hlast := h.located (by omega : rank + count - 1 < values.length)
  have hle := hfst.le hlast (by omega) (by omega)
  have hafter := hlast.after
  rw [Nat.sub_add_cancel (by omega : 1 ≤ rank + count)] at hafter
  have hvals : pma.contents settings 0 (pma.selectSlot rank) ++ [] ++ pma.contents settings
      (pma.selectSlot (rank + count - 1) + 1) pma.capacity = eraseAt values rank count := by
    rw [hfst.before, hafter, append_nil, eraseAt]
  have hholds := h.splice (h.sound.marked hlen hlast.lt_capacity hset) (by omega)
    hlast.lt_capacity hcounted
    (contents_empty fun slot hle hlt ↦ (hset slot).trans (if_pos ⟨hle, hlt⟩)) nofun hvals
    (by rw [length_eraseAt hcnt, h.size_eq] : pma.size - count = _)
  rw [herased]
  refine (hholds.same (same_noteEraseRange hholds.sound priorSize)).settleErase hshift ?_
  rwa [length_eraseAt hcnt]

section

variable (hshift : settings.chunkShift < 32) (h : Represents settings pma values)
include hshift h

theorem Represents.eraseRange (hcnt : rank + count ≤ values.length)
    (hcap : count ≠ 0 → HasCapacity settings (values.length - count)) :
    (pma.eraseRange settings rank count).2 = .ok () ∧
      Represents settings (pma.eraseRange settings rank count).1 (eraseAt values rank count) := by
  have hsize := h.size_eq
  rw [Pma.eraseRange, if_neg (by omega)]
  by_cases hzero : count = 0
  · rw [if_pos hzero, hzero, eraseAt, add_zero, take_append_drop]
    exact ⟨rfl, h⟩
  rw [if_neg hzero]
  rcases h with ⟨rfl, -⟩ | ⟨hne, hholds⟩
  · rw [length_nil] at hcnt
    omega
  have hlast := hholds.located (by omega : rank + count - 1 < values.length)
  exact hholds.erased hshift (pos_of_ne_zero hzero) hcnt (hcap hzero)
    (Bitmap.fill_spec (hholds.sound.capacity_le.trans' hlast.lt_capacity) hholds.counted) _ rfl

theorem Represents.erase (hrank : rank < values.length)
    (hcap : HasCapacity settings (values.length - 1)) :
    (pma.erase settings rank).2 = .ok values[rank] ∧
      Represents settings (pma.erase settings rank).1 (eraseAt values rank 1) := by
  have hsize := h.size_eq
  rcases h with ⟨rfl, -⟩ | ⟨hne, hholds⟩
  · cases hrank
  have hslot := hholds.located hrank
  have hread := hslot.read
  rw [getElem?_eq_getElem hrank, Option.some_inj] at hread
  obtain ⟨hcounted, hlen, hset⟩ := @Bitmap.set_spec _ _ (hholds.sound.div_lt hslot.lt_capacity)
    hholds.counted false
  obtain ⟨hdone, hrep⟩ := hholds.erased hshift one_pos hrank hcap
    ⟨hcounted, hlen, fun other ↦ (hset other).trans (if_congr (by simp; omega) rfl rfl)⟩ _ rfl
  rw [Pma.erase, if_neg (by omega)]
  refine ⟨?_, hrep⟩
  rw [hread]
  exact congrArg (Except.map _) hdone

theorem Represents.compact :
    Performs settings values values (¬HasCapacity settings pma.size) (pma.compact settings) := by
  rw [Pma.compact]
  rcases h with ⟨rfl, hcleared⟩ | ⟨hne, hholds⟩
  · rw [if_pos hcleared.size]
    exact .inl ⟨rfl, .inl ⟨rfl, cleared_clear⟩⟩
  have hpos := length_pos_of_ne_nil hne
  have hlimit := hholds.length_le.trans hholds.capacity_le
  rw [if_neg (by rw [hholds.size_eq]; omega), hholds.size_eq]
  cases hslots : minimumCapacity settings values.length with
  | error fault =>
    exact .inr ⟨⟨fault, rfl⟩, hholds.represents hne, minimumCapacity_error hslots⟩
  | ok slots =>
    obtain ⟨hroom, hslotsPos, hle⟩ := minimumCapacity_spec hpos hlimit hslots
    exact .inl ⟨rfl, (hholds.rebuild hshift hslotsPos hle hroom).represents hne⟩

theorem Represents.set (hrank : rank < values.length) (hval : Readable settings value) :
    Represents settings (pma.set settings rank value) (values.set rank value) := by
  rcases h with ⟨rfl, -⟩ | ⟨hne, hholds⟩
  · cases hrank
  have hslot := hholds.located hrank
  have hwrites := writes_writeSlot hshift hholds.sound hslot.lt_capacity hval
  have hocc : (pma.writeSlot settings (pma.selectSlot rank) value).isOccupied
      (pma.selectSlot rank) = true := by
    rw [isOccupied, hwrites.occupied]
    exact hslot.isOccupied
  refine (hholds.splice hwrites.within (le_succ _) hslot.lt_capacity
    (hwrites.occupied ▸ hholds.counted) ((contents_occupied settings hocc).trans hwrites.reads)
    (by simpa using hval) ?_ (hwrites.size.trans ?_)).represents ?_
  · rw [hslot.before, length_singleton, hslot.after, set_eq_take_append_cons_drop, if_pos hrank,
      append_assoc]
    rfl
  · rw [length_set, hholds.size_eq]
  · rwa [ne_eq, set_eq_nil_iff]

end

/-! ## Reads -/

/-- What a caller reads from an array is what the sequence says. -/
structure Refines (settings : Settings) (pma : Pma) (values : List ListValueRef) : Prop where
  size : pma.size = values.length
  valueAt : ∀ rank (h : rank < values.length), pma.valueAt settings rank = values[rank]
  forEach : pma.forEach settings = values
  forRange : ∀ first count, pma.forRange settings first count = (values.drop first).take count
  findFirst : ∀ first test, pma.findFirst settings first test
    = ((values.drop first).findIdx? test).map (first + ·)
  findLast : ∀ stop test, pma.findLast settings stop test
    = ((values.take stop).reverse.findIdx? test).map (min stop values.length - 1 - ·)
  checkInvariants : pma.checkInvariants = true

theorem Cleared.refines (h : pma.Cleared) : Refines settings pma [] where
  size := h.size
  valueAt rank hrank := absurd hrank (by simp)
  forEach := by
    rw [forEach, occupiedSlots, h.capacity, if_pos (.inl (le_refl _)), map_nil]
  forRange first count := by
    rw [forRange, h.size, if_pos (.inl (zero_le _)), drop_nil, take_nil]
  findFirst first test := by
    rw [findFirst, h.size, if_pos (zero_le _), drop_nil]
    rfl
  findLast stop test := by
    rw [findLast, h.size, min_zero, if_pos rfl, take_nil]
    rfl
  checkInvariants := by
    have hlengths := eq_nil_of_length_eq_zero (h.sound.lengths.trans h.capacity)
    have hblocks : pma.blocks = [] :=
      h.sound.blocks.elim id fun hlen ↦ eq_nil_of_length_eq_zero (hlen.trans h.capacity)
    simp [checkInvariants, h.capacity, h.size, hblocks, hlengths, h.occupied]

section

variable (h : Holds settings pma values)
include h

theorem Holds.forRange_eq (first count : ℕ) :
    pma.forRange settings first count = (values.drop first).take count := by
  rw [forRange, h.size_eq]
  split
  · rename_i hnone
    rcases hnone with hfst | rfl
    · rw [drop_of_length_le hfst, take_nil]
    · rw [take_zero]
  · have hslot := h.located (by omega : first < values.length)
    have hvals := hslot.onward
    rw [contents] at hvals
    rw [h.sound.occupiedSlots_eq (le_refl _), hvals, take_eq_take_iff, length_drop]
    omega

theorem Holds.checkInvariants_eq : pma.checkInvariants = true := by
  have hranks : ∀ rank < pma.size, pma.isOccupied (pma.selectSlot rank) = true ∧
      pma.rankBefore (pma.selectSlot rank) = rank := by
    intro rank hrank
    have hslot := h.located (h.size_eq ▸ hrank)
    refine ⟨hslot.isOccupied, ?_⟩
    rw [h.rankBefore_eq hslot.lt_capacity.le, hslot.before, length_take]
    have := h.size_eq
    omega
  have htree : pma.occupied.tree.length = pma.occupied.words.length + 1 := by
    rw [h.counted.length, length_map]
  rw [checkInvariants, if_neg h.capacity_pos.ne']
  exact decide_eq_true ⟨h.sound.blocks, h.sound.lengths.symm, h.sound.words, htree,
    h.sum_popcounts.trans h.size_eq.symm, hranks⟩

theorem Holds.refines : Refines settings pma values where
  size := h.size_eq
  valueAt rank hrank := by
    have hread := (h.located hrank).read
    rw [getElem?_eq_getElem hrank] at hread
    exact (Option.some.inj hread).symm
  forEach := by
    rw [forEach, h.sound.occupiedSlots_eq (le_refl _)]
    exact h.contents_eq
  forRange := h.forRange_eq
  findFirst first test := by
    rw [findFirst, h.size_eq]
    split
    · rename_i hfst
      rw [drop_of_length_le hfst]
      rfl
    · have hvals := (h.located (by omega : first < values.length)).onward
      rw [contents] at hvals
      rw [h.sound.occupiedSlots_eq (le_refl _), hvals]
  findLast stop test := by
    rw [findLast, h.size_eq]
    split
    · have hnil : values.take stop = [] := eq_nil_of_length_eq_zero (by rwa [length_take])
      rw [hnil]
      rfl
    · have hslot := h.located (by omega : min stop values.length - 1 < values.length)
      have hvals := hslot.upto
      rw [contents, Nat.sub_add_cancel (by omega)] at hvals
      have htake : values.take (min stop values.length) = values.take stop := by
        rw [take_eq_take_iff]
        omega
      rw [h.sound.occupiedSlotsReverse_eq hslot.lt_capacity (succ_pos _), map_reverse, hvals, htake]
  checkInvariants := h.checkInvariants_eq

end

theorem Represents.refines (h : Represents settings pma values) : Refines settings pma values := by
  rcases h with ⟨rfl, hcleared⟩ | ⟨-, hholds⟩
  · exact hcleared.refines
  · exact hholds.refines

/-! ## Runs -/

/-- The calls that change an array. -/
inductive Call where
  | insert (rank : ℕ) (value : ListValueRef)
  | insertMany (rank : ℕ) (values : List ListValueRef) (endpoint : EndpointBias)
  | erase (rank : ℕ)
  | eraseRange (rank count : ℕ)
  | compact
  | set (rank : ℕ) (value : ListValueRef)
  | clear

/-- What a call gives back: the reference that `erase` returns, or an exception. -/
abbrev Reply := Except Fault (Option ListValueRef)

def step (settings : Settings) (pma : Pma) : Call → Pma × Reply
  | .insert rank value =>
    ((pma.insert settings rank value).1, (pma.insert settings rank value).2.map fun _ ↦ none)
  | .insertMany rank values endpoint =>
    ((pma.insertMany settings rank values endpoint).1,
      (pma.insertMany settings rank values endpoint).2.map fun _ ↦ none)
  | .erase rank => ((pma.erase settings rank).1, (pma.erase settings rank).2.map some)
  | .eraseRange rank count =>
    ((pma.eraseRange settings rank count).1,
      (pma.eraseRange settings rank count).2.map fun _ ↦ none)
  | .compact => ((pma.compact settings).1, (pma.compact settings).2.map fun _ ↦ none)
  | .set rank value => (pma.set settings rank value, .ok none)
  | .clear => (clear, .ok none)

/-- The array after a run, and the replies. -/
def run (settings : Settings) : List Call → Pma → Pma × List Reply
  | [], pma => (pma, [])
  | call :: calls, pma =>
    let after := step settings pma call
    ((run settings calls after.1).1, after.2 :: (run settings calls after.1).2)

namespace Call

/-- The same call on a list. -/
def apply (values : List ListValueRef) : Call → List ListValueRef
  | .insert rank value => insertAt values rank [value]
  | .insertMany rank inserted _ => insertAt values rank inserted
  | .erase rank => eraseAt values rank 1
  | .eraseRange rank count => eraseAt values rank count
  | .compact => values
  | .set rank value => values.set rank value
  | .clear => []

/-- What the call returns on a list. -/
def answer (values : List ListValueRef) : Call → Option ListValueRef
  | .erase rank => values[rank]?
  | _ => none

end Call

/-- The same calls on a list: the list they make, and what they return. -/
def runList : List Call → List ListValueRef → List ListValueRef × List Reply
  | [], values => (values, [])
  | call :: calls, values =>
    let after := runList calls (call.apply values)
    (after.1, .ok (call.answer values) :: after.2)

/-- The ranks of a call are in bounds, and the references are of an arena with the same chunks. -/
def InBounds (settings : Settings) (pma : Pma) : Call → Prop
  | .insert rank value => rank ≤ pma.size ∧ Readable settings value
  | .insertMany rank values _ => rank ≤ pma.size ∧ ∀ value ∈ values, Readable settings value
  | .erase rank => rank < pma.size
  | .eraseRange rank count => rank + count ≤ pma.size
  | .compact => True
  | .set rank value => rank < pma.size ∧ Readable settings value
  | .clear => True

/-- The settings have slots for what a call leaves. -/
def HasSlots (settings : Settings) (pma : Pma) : Call → Prop
  | .insert _ _ => Takes settings pma (pma.size + 1)
  | .insertMany _ values _ => values ≠ [] → TakesMany settings pma (pma.size + values.length)
  | .erase _ => HasCapacity settings (pma.size - 1)
  | .eraseRange _ count => count ≠ 0 → HasCapacity settings (pma.size - count)
  | .compact => HasCapacity settings pma.size
  | .set _ _ | .clear => True

def Permitted (settings : Settings) (pma : Pma) (call : Call) : Prop :=
  InBounds settings pma call ∧ HasSlots settings pma call

/-- Every call of a run is allowed in the state that it finds. -/
def RunOf (allowed : Pma → Call → Prop) (settings : Settings) : List Call → Pma → Prop
  | [], _ => True
  | call :: calls, pma => allowed pma call ∧ RunOf allowed settings calls (step settings pma call).1

instance (settings : Settings) (value : ListValueRef) : Decidable (Readable settings value) :=
  inferInstanceAs (Decidable (_ < _))

instance (settings : Settings) (count : ℕ) : Decidable (HasCapacity settings count) :=
  inferInstanceAs (Decidable (_ ∨ _))

instance (settings : Settings) (capacity count : ℕ) : Decidable (CanGrow settings capacity count) :=
  inferInstanceAs (Decidable (_ ∧ _ ∧ _))

instance (settings : Settings) (pma : Pma) (count : ℕ) : Decidable (Takes settings pma count) :=
  inferInstanceAs (Decidable (_ ∧ (_ → _)))

instance (settings : Settings) (pma : Pma) (count : ℕ) : Decidable (TakesMany settings pma count) :=
  inferInstanceAs (Decidable (_ ∧ (_ → _)))

instance (settings : Settings) (pma : Pma) : (call : Call) → Decidable (InBounds settings pma call)
  | .insert _ _ | .insertMany _ _ _ | .set _ _ => inferInstanceAs (Decidable (_ ∧ _))
  | .erase _ => inferInstanceAs (Decidable (_ < _))
  | .eraseRange _ _ => inferInstanceAs (Decidable (_ ≤ _))
  | .compact | .clear => inferInstanceAs (Decidable True)

instance (settings : Settings) (pma : Pma) : (call : Call) → Decidable (HasSlots settings pma call)
  | .insert _ _ => inferInstanceAs (Decidable (Takes _ _ _))
  | .erase _ | .compact => inferInstanceAs (Decidable (HasCapacity _ _))
  | .insertMany _ _ _ | .eraseRange _ _ => inferInstanceAs (Decidable (_ → _))
  | .set _ _ | .clear => inferInstanceAs (Decidable True)

instance (settings : Settings) (pma : Pma) (call : Call) :
    Decidable (Permitted settings pma call) :=
  inferInstanceAs (Decidable (_ ∧ _))

instance decidableRunOf {allowed : Pma → Call → Prop} [∀ pma call, Decidable (allowed pma call)]
    (settings : Settings) : (calls : List Call) → (pma : Pma) →
      Decidable (RunOf allowed settings calls pma)
  | [], _ => isTrue trivial
  | call :: calls, pma =>
    have : Decidable (RunOf allowed settings calls (step settings pma call).1) :=
      decidableRunOf settings calls _
    inferInstanceAs (Decidable (_ ∧ _))

/-- What a call leaves.  Where the settings have slots it is done as on the list; otherwise an
insertion or a rebuild is done, or it is refused and the sequence stays. -/
def Answers (settings : Settings) (pma : Pma) (values : List ListValueRef) (call : Call) : Prop :=
  (step settings pma call).2 = .ok (call.answer values) ∧
      Represents settings (step settings pma call).1 (call.apply values) ∨
    (∃ fault, (step settings pma call).2 = .error fault) ∧
      Represents settings (step settings pma call).1 values ∧ ¬HasSlots settings pma call

theorem Performs.answers {call : Call}
    (h : Performs settings values (call.apply values) (¬HasSlots settings pma call) result)
    (hstep : step settings pma call = (result.1, result.2.map fun _ ↦ none))
    (hanswer : call.answer values = none) : Answers settings pma values call := by
  rw [Answers, hstep, hanswer]
  rcases h with ⟨hdone, hafter⟩ | ⟨⟨fault, hrefused⟩, hbefore, hexhausted⟩
  · rw [hdone]
    exact .inl ⟨rfl, hafter⟩
  · rw [hrefused]
    exact .inr ⟨⟨fault, rfl⟩, hbefore, hexhausted⟩

section

variable (hshift : settings.chunkShift < 32) (h : Represents settings pma values)
include hshift h

/-- One call; erasures have to leave a number of elements that the settings have slots for. -/
theorem step_answers {call : Call} (hbounds : InBounds settings pma call)
    (herasure : ∀ rank count, call = .erase rank ∨ call = .eraseRange rank count →
      HasSlots settings pma call) : Answers settings pma values call := by
  have hsize := h.size_eq
  cases call with
  | insert rank value =>
    exact (h.insert hshift hbounds.2 (hsize ▸ hbounds.1)).answers rfl rfl
  | insertMany rank inserted endpoint =>
    exact (h.insertMany hshift hbounds.2 (hsize ▸ hbounds.1) endpoint).answers rfl rfl
  | erase rank =>
    have hrank : rank < values.length := hsize ▸ hbounds
    have hcap : HasCapacity settings (pma.size - 1) := herasure rank 1 (.inl rfl)
    rw [hsize] at hcap
    obtain ⟨hreply, herased⟩ := h.erase hshift hrank hcap
    refine .inl ⟨?_, herased⟩
    change _ = Except.ok values[rank]?
    rw [getElem?_eq_getElem hrank]
    exact congrArg (Except.map some) hreply
  | eraseRange rank count =>
    have hcnt : rank + count ≤ values.length := hsize ▸ hbounds
    have hcap : count ≠ 0 → HasCapacity settings (pma.size - count) :=
      herasure rank count (.inr rfl)
    rw [hsize] at hcap
    obtain ⟨hreply, herased⟩ := h.eraseRange hshift hcnt hcap
    exact .inl ⟨congrArg (Except.map fun _ ↦ none) hreply, herased⟩
  | compact => exact (h.compact hshift).answers rfl rfl
  | set rank value => exact .inl ⟨rfl, h.set hshift (hsize ▸ hbounds.1) hbounds.2⟩
  | clear => exact .inl ⟨rfl, .inl ⟨rfl, cleared_clear⟩⟩

theorem step_represents {call : Call} (hcall : Permitted settings pma call) :
    (step settings pma call).2 = .ok (call.answer values) ∧
      Represents settings (step settings pma call).1 (call.apply values) :=
  (step_answers hshift h hcall.1 fun _ _ _ ↦ hcall.2).resolve_right fun hrefused ↦
    hrefused.2.2 hcall.2

theorem run_represents {calls : List Call}
    (hcalls : RunOf (Permitted settings) settings calls pma) :
    Represents settings (run settings calls pma).1 (runList calls values).1 ∧
      (run settings calls pma).2 = (runList calls values).2 := by
  induction calls generalizing pma values with
  | nil => exact ⟨h, rfl⟩
  | cons call calls ih =>
    obtain ⟨hreply, hnext⟩ := step_represents hshift h hcalls.1
    obtain ⟨hafter, hreplies⟩ := ih hnext hcalls.2
    exact ⟨hafter, congrArg₂ cons hreply hreplies⟩

end

/-- After every run an array reads as the list that the same calls make, and every call has returned
what it returns on the list. -/
theorem run_refines_list (settings : Settings) (calls : List Call)
    (hshift : settings.chunkShift < 32) (hcalls : RunOf (Permitted settings) settings calls {}) :
    Refines settings (run settings calls {}).1 (runList calls []).1 ∧
      (run settings calls {}).2 = (runList calls []).2 := by
  obtain ⟨hreached, hreplies⟩ := run_represents hshift (.inl ⟨rfl, cleared_clear⟩) hcalls
  exact ⟨hreached.refines, hreplies⟩

/-- Arithmetic without rounding. -/
def exactArithmetic : LongDouble := ⟨id, monotone_id, fun _ _ ↦ rfl⟩

/-- The doubles `0.97` and `1.1892071150027210`. -/
def defaultSettings : Settings where
  arithmetic := exactArithmetic
  maxDensity := 4368491638549381 / 2 ^ 52
  resizeGrowth := 5355712719992597 / 2 ^ 52
  chunkShift := 21
  density_pos := by norm_num
  density_le_one := by norm_num
  one_lt_growth := by norm_num
  shift_ge := by decide
  shift_le := by decide

/-- References of an arena, one after the other. -/
def sampleRef (index : ℕ) : ListValueRef := { offset := BitVec.ofNat 32 (3 * index), length := 3 }

/-- A batch fills eight slots, two insertions in the middle make the array grow, elements are erased
and the array is rebuilt. -/
def sampleCalls : List Call :=
  [.insertMany 0 [sampleRef 0, sampleRef 1, sampleRef 2, sampleRef 3, sampleRef 4, sampleRef 5,
      sampleRef 6] .back,
    .insert 3 (sampleRef 7), .insert 3 (sampleRef 8), .erase 0, .eraseRange 1 5, .compact]

theorem run_refines_list_default :
    RunOf (Permitted defaultSettings) defaultSettings sampleCalls {} ∧
      Refines defaultSettings (run defaultSettings sampleCalls {}).1
        [sampleRef 1, sampleRef 5, sampleRef 6] := by
  have hcalls : RunOf (Permitted defaultSettings) defaultSettings sampleCalls {} := by
    decide +kernel
  exact ⟨hcalls, (run_refines_list defaultSettings sampleCalls (by decide) hcalls).1⟩

/-- A density that asks for more slots than there can be for any element. -/
def sparseSettings : Settings :=
  { defaultSettings with
    maxDensity := 1 / 10 ^ 10
    density_pos := by norm_num
    density_le_one := by norm_num }

/-- The largest chunks. -/
def largestChunks : Settings :=
  { defaultSettings with chunkShift := 32, shift_ge := by decide, shift_le := by decide }

/-- A growth that asks for more slots than there can be for any capacity. -/
def steepSettings : Settings :=
  { defaultSettings with resizeGrowth := 10 ^ 10, one_lt_growth := by norm_num }

def insertions (count : ℕ) : List Call :=
  (List.range count).map fun index ↦ .insert index (sampleRef index)

/-- With a density of 1e-10 an erasure in bounds throws after it has removed the element, and a
first batch is refused; with a growth of 1e10 the ninth insertion is refused; and with chunks of 4
GiB the second of two references reads back wrong. -/
theorem in_bounds_calls_differ :
    (RunOf (InBounds sparseSettings) sparseSettings (insertions 2 ++ [.erase 0]) {} ∧
      (run sparseSettings (insertions 2 ++ [.erase 0]) {}).2
        = [.ok none, .ok none, .error capacityExhausted] ∧
      (run sparseSettings (insertions 2 ++ [.erase 0]) {}).1.forEach sparseSettings
        = [sampleRef 1]) ∧
    (InBounds sparseSettings {} (.insertMany 0 [sampleRef 0] .back) ∧
      (step sparseSettings {} (.insertMany 0 [sampleRef 0] .back)).2 = .error capacityExhausted) ∧
    (RunOf (InBounds steepSettings) steepSettings (insertions 9) {} ∧
      (run steepSettings (insertions 9) {}).2
        = List.replicate 8 (.ok none) ++ [.error capacityExhausted]) ∧
    RunOf (InBounds largestChunks) largestChunks (insertions 2) {} ∧
      (run largestChunks (insertions 2) {}).2 = [.ok none, .ok none] ∧
      (run largestChunks (insertions 2) {}).1.forEach largestChunks
        ≠ [sampleRef 0, sampleRef 1] := by
  refine ⟨⟨?_, ?_, ?_⟩, ⟨?_, ?_⟩, ⟨?_, ?_⟩, ?_, ?_, ?_⟩
  · decide +kernel
  · decide +kernel
  · decide +kernel
  · decide +kernel
  · decide +kernel
  · decide +kernel
  · decide +kernel
  · decide +kernel
  · decide +kernel
  · decide +kernel

end GoblinCore.AdaptivePma.Pma
