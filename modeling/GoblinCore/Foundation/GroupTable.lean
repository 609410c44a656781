import GoblinCore.Foundation.GroupProbe
import Mathlib.Data.List.Nodup
import Mathlib.Data.List.ReduceOption
import Mathlib.Data.Set.Card

/-!
# Tables with open addressing by groups

A table is sound when every entry can be reached from its home without passing an empty cell.  Sound
tables hold a set of entries with distinct keys: a probe finds an entry exactly when one has the
key, and filling, freeing and replacing a slot and rebuilding the table act on the set of entries.
-/

namespace GoblinCore.GroupProbe

open List Function Nat
open Option hiding mem_map

/-- How many cells a group has, where the probe of a key starts and which tag its cell gets. -/
structure Scheme (K F : Type) where
  width : ℕ
  home : ℕ → K → ℕ
  tag : K → F
  width_pos : 0 < width
  home_lt : ∀ capacity key, 0 < capacity → home capacity key < capacity

structure Table (F E : Type) where
  control : List (Control F) := []
  slots : List (Option E) := []
  size : ℕ := 0
  tombstones : ℕ := 0
  capacity : ℕ := 0

variable {K F E : Type}

/-! ## Slots -/

section Slots

variable {slots : List (Option E)} {index : ℕ} {entry : E}

theorem reduceOption_cons_eq (first : Option E) (rest : List (Option E)) :
    (first :: rest).reduceOption = first.toList ++ rest.reduceOption := by
  cases first <;> rfl

/-- Filling or clearing a slot. -/
theorem reduceOption_set {old : Option E} (h : slots[index]? = some old) (new : Option E) :
    (old.toList ++ (slots.set index new).reduceOption).Perm (new.toList ++ slots.reduceOption) := by
  induction slots generalizing index with
  | nil => cases h
  | cons first rest ih =>
    cases index with
    | zero =>
      obtain rfl : first = old := by simpa using h
      rw [set_cons_zero, reduceOption_cons_eq, reduceOption_cons_eq]
      exact perm_append_comm_assoc _ _ _
    | succ index =>
      have hrest := (ih (by simpa using h)).append_left first.toList
      rw [set_cons_succ, reduceOption_cons_eq, reduceOption_cons_eq]
      exact ((perm_append_comm_assoc _ _ _).trans hrest).trans (perm_append_comm_assoc _ _ _)

theorem mem_reduceOption :
    entry ∈ slots.reduceOption ↔ ∃ index : ℕ, slots[index]? = some (some entry) := by
  rw [reduceOption_mem_iff, mem_iff_getElem?]

/-- Fewer entries than slots leave a slot free. -/
theorem exists_free_slot (h : slots.reduceOption.length < slots.length) :
    ∃ index : ℕ, slots[index]? = some none := by
  by_contra hnone
  have hall : ∀ slot ∈ slots, slot.isSome = true := by
    intro slot hslot
    obtain ⟨index, hidx⟩ := mem_iff_getElem?.mp hslot
    cases slot with
    | none => exact absurd ⟨index, hidx⟩ hnone
    | some entry => rfl
  have hlen := (reduceOption_length_eq_iff).mpr hall
  omega

end Slots

/-! ## Tables -/

namespace Table

variable (scheme : Scheme K F) (key : E → K)

variable (table : Table F E)

/-- The entries in the order of their slots. -/
def entries : List E := table.slots.reduceOption

/-- Another entry in a slot, with the cell as it is. -/
def replace (index : ℕ) (entry : E) : Table F E :=
  { table with slots := table.slots.set index (some entry) }

def entryAt (index : ℕ) : Option E := table.slots[index]?.join

/-- The entry of a slot whose cell is full. -/
def fullAt (index : ℕ) : Option E :=
  match table.control[index]? with
  | some (.full _) => table.entryAt index
  | _ => none

/-- The entries of the full cells, in order. -/
def fullEntries : List E :=
  (range table.capacity).filterMap table.fullAt

/-- A table of free slots. -/
def allocate (capacity : ℕ) : Table F E where
  control := replicate (capacity + scheme.width) .empty
  slots := replicate capacity none
  capacity := capacity

/-- Freeing a slot leaves its cell deleted, so that probes go on past it. -/
def free (index : ℕ) : Table F E :=
  { table with
    control := setControl scheme.width table.capacity table.control index .deleted
    slots := table.slots.set index none
    size := table.size - 1
    tombstones := table.tombstones + 1 }

variable [DecidableEq F]

/-- Filling a slot. -/
def put (table : Table F E) (index : ℕ) (entry : E) : Table F E :=
  { table with
    control := setControl scheme.width table.capacity table.control index
      (.full (scheme.tag (key entry)))
    slots := table.slots.set index (some entry)
    size := table.size + 1
    tombstones := if table.control[index]? = some .deleted then table.tombstones - 1
      else table.tombstones }

def findInsertIndex (mayHaveDeleted : Bool) (table : Table F E) (wanted : K) : Option ℕ :=
  insertLoop scheme.width table.capacity table.control mayHaveDeleted
    (table.capacity / scheme.width) (scheme.home table.capacity wanted) none

/-- An entry of another table that has no equal here. -/
def insertExisting (mayHaveDeleted : Bool) (table : Table F E) (entry : E) : Option (Table F E) :=
  (table.findInsertIndex scheme mayHaveDeleted (key entry)).map fun index ↦
    table.put scheme key index entry

/-- The entries placed one after the other in a new table. -/
def rebuild (mayHaveDeleted : Bool) (capacity : ℕ) (entries : List E) : Option (Table F E) :=
  entries.foldlM (insertExisting scheme key mayHaveDeleted) (allocate scheme capacity)

variable [DecidableEq K]

def findIndex (table : Table F E) (wanted : K) : Option ℕ :=
  if table.capacity = 0 then none
  else findLoop scheme.width table.capacity table.control (.full (scheme.tag wanted))
    (fun index ↦ (table.entryAt index).any fun entry ↦ key entry = wanted)
    (table.capacity / scheme.width) (scheme.home table.capacity wanted)

/-- Both probes in one pass. -/
def findOrInsertIndex (mayHaveDeleted : Bool) (table : Table F E) (wanted : K) : Option ℕ × Bool :=
  findOrInsertLoop scheme.width table.capacity table.control (.full (scheme.tag wanted))
    (fun index ↦ (table.entryAt index).any fun entry ↦ key entry = wanted) mayHaveDeleted
    (table.capacity / scheme.width) (scheme.home table.capacity wanted) none

theorem findOrInsertIndex_eq (mayHaveDeleted : Bool) (table : Table F E) (wanted : K) :
    table.findOrInsertIndex scheme key mayHaveDeleted wanted
      = match table.findIndex scheme key wanted with
        | some index => (some index, true)
        | none => (table.findInsertIndex scheme mayHaveDeleted wanted, false) := by
  rw [findOrInsertIndex, findOrInsertLoop_eq, findIndex, findInsertIndex]
  by_cases hzero : table.capacity = 0
  · simp [hzero, findLoop]
  · generalize findLoop scheme.width table.capacity table.control (.full (scheme.tag wanted)) _
      (table.capacity / scheme.width) (scheme.home table.capacity wanted) = found
    cases found <;> simp [hzero]

end Table

open Table

/-- Every entry is where a probe for its key comes, and no two entries have one key. -/
structure Sound [DecidableEq F] (scheme : Scheme K F) (key : E → K) (table : Table F E) : Prop where
  shaped : 0 < table.capacity → Shaped scheme.width table.capacity table.control
  slots_length : table.slots.length = table.capacity
  tagged : ∀ (index : ℕ) (entry : E), table.slots[index]? = some (some entry) →
    table.control[index]? = some (.full (scheme.tag (key entry)))
  vacant : ∀ index : ℕ, table.slots[index]? = some none → Vacant true table.control[index]?
  reaches : ∀ (index : ℕ) (entry : E), table.slots[index]? = some (some entry) →
    Reaches scheme.width table.capacity table.control (scheme.home table.capacity (key entry)) index
  nodup : (table.entries.map key).Nodup
  size_eq : table.size = table.entries.length
  deleted_le : (table.control.take table.capacity).count .deleted ≤ table.tombstones

section Sound

variable [DecidableEq F] {scheme : Scheme K F} {key : E → K} {table : Table F E} {index : ℕ}
  {entry : E} {wanted : K} {mayHaveDeleted : Bool}

theorem sound_new : Sound scheme key ({} : Table F E) where
  shaped := fun h ↦ absurd h (lt_irrefl 0)
  slots_length := rfl
  tagged := fun _ _ h ↦ absurd h (by simp)
  vacant := fun _ h ↦ absurd h (by simp)
  reaches := fun _ _ h ↦ absurd h (by simp)
  nodup := nodup_nil
  size_eq := rfl
  deleted_le := by simp

namespace Table

omit [DecidableEq F] in
@[simp] theorem entries_allocate (capacity : ℕ) :
    (allocate scheme capacity : Table F E).entries = [] := by
  simp [entries, allocate, reduceOption_replicate_none]

omit [DecidableEq F] in
@[simp] theorem capacity_allocate (capacity : ℕ) :
    (allocate scheme capacity : Table F E).capacity = capacity := rfl

theorem entries_put (h : table.slots[index]? = some none) :
    (table.put scheme key index entry).entries.Perm (entry :: table.entries) :=
  reduceOption_set h (some entry)

omit [DecidableEq F] in
theorem mem_entries :
    entry ∈ table.entries ↔ ∃ index : ℕ, table.slots[index]? = some (some entry) :=
  mem_reduceOption

omit [DecidableEq F] in
theorem entries_free (h : table.slots[index]? = some (some entry)) :
    table.entries.Perm (entry :: (table.free scheme index).entries) :=
  (reduceOption_set h none).symm

end Table

variable {capacity : ℕ} {entries : List E}

theorem sound_allocate (hwidth : scheme.width ∣ capacity) :
    Sound scheme key (allocate scheme capacity : Table F E) where
  shaped := fun _ ↦
    { width_pos := scheme.width_pos
      length := by simp [allocate]
      divides := hwidth
      mirrored := fun index hidx ↦ by
        have hlt : index < capacity + scheme.width := by omega
        simp [allocate, hidx, hlt] }
  slots_length := by simp [allocate]
  tagged := fun index entry h ↦ by simp [allocate, getElem?_replicate] at h
  vacant := fun index h ↦ by
    have hidx : index < capacity := by
      simpa [allocate, getElem?_replicate] using h
    refine .inl ?_
    simp [allocate, getElem?_replicate]
    omega
  reaches := fun index entry h ↦ by simp [allocate, getElem?_replicate] at h
  nodup := by simp
  size_eq := by rw [entries_allocate]; rfl
  deleted_le := by simp [allocate, count_replicate]

namespace Sound

section

variable (h : Sound scheme key table)
include h

theorem lt_capacity {slot : Option E} (hslot : table.slots[index]? = some slot) :
    index < table.capacity := by
  rw [← h.slots_length]
  exact (List.getElem?_eq_some_iff.mp hslot).1

theorem capacity_le : table.capacity ≤ table.control.length := by
  rcases Nat.eq_zero_or_pos table.capacity with hzero | hpos
  · omega
  · have hlen := (h.shaped hpos).length
    omega

theorem fullAt_eq (index : ℕ) : table.fullAt index = table.entryAt index := by
  cases hent : table.entryAt index with
  | none =>
    unfold fullAt
    split
    · exact hent
    · rfl
  | some entry =>
    rw [fullAt, h.tagged index entry (join_eq_some_iff.mp hent)]
    exact hent

/-- Reading the full cells is reading the slots. -/
theorem fullEntries_eq : table.fullEntries = table.entries := by
  have hslots : table.slots = (range table.capacity).map table.entryAt := by
    apply ext_getElem?
    intro index
    by_cases hlt : index < table.capacity
    · have hslot := getElem?_eq_getElem (h.slots_length ▸ hlt)
      rw [getElem?_map, getElem?_range hlt, map_some, entryAt, hslot]
      rfl
    · rw [getElem?_eq_none (by rw [h.slots_length]; omega),
        getElem?_eq_none (by rw [length_map, length_range]; omega)]
  have hfull : table.fullAt = table.entryAt := funext h.fullAt_eq
  rw [entries, hslots, reduceOption, filterMap_map, fullEntries, hfull]
  rfl

/-- No two slots hold entries with one key. -/
theorem index_unique {other : ℕ} {first second : E} (hfst : table.slots[index]? = some (some first))
    (hsnd : table.slots[other]? = some (some second)) (hkey : key first = key second) :
    index = other := by
  have hpairwise := h.nodup
  rw [entries, List.Nodup, pairwise_map, reduceOption, pairwise_filterMap,
    pairwise_iff_getElem] at hpairwise
  obtain ⟨hidx, hgetFirst⟩ := List.getElem?_eq_some_iff.mp hfst
  obtain ⟨hoth, hgetSecond⟩ := List.getElem?_eq_some_iff.mp hsnd
  rcases lt_trichotomy index other with hlt | heq | hgt
  · exact absurd hkey (hpairwise index other hidx hoth hlt first hgetFirst second hgetSecond)
  · exact heq
  · exact absurd hkey.symm (hpairwise other index hoth hidx hgt second hgetSecond first hgetFirst)

/-- What a probe returns for free is free, and is where the key's probe comes. -/
theorem findInsertIndex_some
    (hfind : table.findInsertIndex scheme mayHaveDeleted wanted = some index) :
    table.slots[index]? = some none ∧
      Reaches scheme.width table.capacity table.control (scheme.home table.capacity wanted)
        index := by
  rcases Nat.eq_zero_or_pos table.capacity with hzero | hpos
  · simp [findInsertIndex, hzero, insertLoop] at hfind
  have hshaped := h.shaped hpos
  rcases hshaped.insertLoop_some (scheme.home_lt _ _ hpos) hfind with
    hnone | ⟨step, hstep, hidx, hvacant, hunbroken⟩
  · cases hnone
  rw [Nat.div_mul_cancel hshaped.divides] at hstep
  have hlt : index < table.slots.length := by
    rw [h.slots_length, hidx]
    exact mod_lt _ hpos
  refine ⟨?_, step, hstep, hidx, hunbroken⟩
  cases hslot : table.slots[index] with
  | none => exact List.getElem?_eq_some_iff.mpr ⟨hlt, hslot⟩
  | some entry =>
    have hfull := h.tagged index entry (List.getElem?_eq_some_iff.mpr ⟨hlt, hslot⟩)
    rw [hfull] at hvacant
    simp [Vacant] at hvacant

theorem findInsertIndex_isSome (hfree : table.slots[index]? = some none)
    (hdeleted : mayHaveDeleted = true ∨ table.control[index]? ≠ some .deleted) :
    (table.findInsertIndex scheme mayHaveDeleted wanted).isSome = true := by
  have hlt := h.lt_capacity hfree
  have hshaped := h.shaped (by omega)
  have hhome := scheme.home_lt table.capacity wanted (by omega)
  have hvacant : Vacant mayHaveDeleted table.control[index]? := by
    rcases h.vacant index hfree with hemp | ⟨-, hcell⟩
    · exact .inl hemp
    · rcases hdeleted with hmay | hnot
      · exact .inr ⟨hmay, hcell⟩
      · exact absurd hcell hnot
  -- the steps from the home position that come to the index
  have hpos : (scheme.home table.capacity wanted
      + (index + table.capacity - scheme.home table.capacity wanted) % table.capacity)
        % table.capacity = index := by
    rw [add_mod_mod, show scheme.home table.capacity wanted
      + (index + table.capacity - scheme.home table.capacity wanted) = index + table.capacity by
        omega, add_mod_right, mod_eq_of_lt hlt]
  rw [← hpos] at hvacant
  refine hshaped.insertLoop_isSome hhome ?_ hvacant
  rw [Nat.div_mul_cancel hshaped.divides]
  exact mod_lt _ (by omega)

end

/-- What the slots hold after one of them is written. -/
theorem getElem?_slots_set {slots : List (Option E)} {slot other : Option E} {position : ℕ}
    (h : (slots.set index slot)[position]? = some other) :
    (position = index ∧ other = slot) ∨ (index ≠ position ∧ slots[position]? = some other) := by
  rw [getElem?_set] at h
  split at h
  · rename_i heq
    split at h
    · exact .inl ⟨heq.symm, (some.inj h).symm⟩
    · cases h
  · rename_i hne
    exact .inr ⟨hne, h⟩

section

variable (h : Sound scheme key table)
include h

/-- A slot is written together with its cell. -/
theorem written {cell : Control F} {slot : Option E} {size tombstones : ℕ}
    (hlt : index < table.capacity) (hnone : slot = none → cell = .deleted)
    (hsome : ∀ entry, slot = some entry → cell = .full (scheme.tag (key entry)) ∧
      Reaches scheme.width table.capacity table.control (scheme.home table.capacity (key entry))
        index) (hnd : ((table.slots.set index slot).reduceOption.map key).Nodup)
    (hsize : size = (table.slots.set index slot).reduceOption.length)
    (hdeleted : (table.control.take table.capacity).count .deleted
        - (if table.control[index]? = some .deleted then 1 else 0)
        + (if cell = .deleted then 1 else 0) ≤ tombstones) :
    Sound scheme key { table with
      control := setControl scheme.width table.capacity table.control index cell
      slots := table.slots.set index slot, size, tombstones } := by
  have hle := h.capacity_le
  have hread : ∀ position < table.capacity,
      (setControl scheme.width table.capacity table.control index cell)[position]?
        = if index = position then some cell else table.control[position]? :=
    fun position hposition ↦ getElem?_setControl hle hposition
  have hcell : cell ≠ .empty := by
    cases slot with
    | none => simp [hnone rfl]
    | some entry => simp [(hsome entry rfl).1]
  exact
    { shaped := fun hpos ↦ (h.shaped hpos).setControl hlt
      slots_length := by rw [length_set, h.slots_length]
      tagged := by
        intro position other hslot
        rcases getElem?_slots_set hslot with ⟨rfl, hoth⟩ | ⟨hne, hold⟩
        · rw [hread _ hlt, if_pos rfl, (hsome other hoth.symm).1]
        · rw [hread _ (h.lt_capacity hold), if_neg hne, h.tagged _ _ hold]
      vacant := by
        intro position hslot
        rcases getElem?_slots_set hslot with ⟨rfl, hoth⟩ | ⟨hne, hold⟩
        · rw [hread _ hlt, if_pos rfl, hnone hoth.symm]
          exact .inr ⟨rfl, rfl⟩
        · rw [hread _ (h.lt_capacity hold), if_neg hne]
          exact h.vacant _ hold
      reaches := by
        intro position other hslot
        rcases getElem?_slots_set hslot with ⟨rfl, hoth⟩ | ⟨-, hold⟩
        · exact (hsome other hoth.symm).2.setControl hle hcell
        · exact (h.reaches _ _ hold).setControl hle hcell
      nodup := hnd
      size_eq := hsize
      deleted_le := by
        have htake : index < (table.control.take table.capacity).length := by
          rw [length_take]
          omega
        rw [getElem?_eq_getElem (by omega : index < table.control.length)] at hdeleted
        rw [take_setControl hle hlt, count_set htake, getElem_take]
        simpa using hdeleted }

theorem put (hfree : table.slots[index]? = some none)
    (hreaches : Reaches scheme.width table.capacity table.control (scheme.home table.capacity (key
      entry)) index) (hnew : ∀ other ∈ table.entries, key other ≠ key entry) :
    Sound scheme key (table.put scheme key index entry) := by
  have hents : (table.put scheme key index entry).entries.Perm (entry :: table.entries) :=
    entries_put hfree
  refine h.written (h.lt_capacity hfree) nofun ?_ ?_ ?_ ?_
  · rintro other ⟨⟩
    exact ⟨rfl, hreaches⟩
  · refine (hents.map key).nodup_iff.mpr (nodup_cons.mpr ⟨fun hmem ↦ ?_, h.nodup⟩)
    obtain ⟨other, hoth, hkey⟩ := mem_map.mp hmem
    exact hnew other hoth hkey
  · exact (congrArg (· + 1) h.size_eq).trans hents.length_eq.symm
  · have hcnt := h.deleted_le
    rw [if_neg (nofun : Control.full (scheme.tag (key entry)) ≠ .deleted)]
    split_ifs <;> omega

theorem free (hfull : table.slots[index]? = some (some entry)) :
    Sound scheme key (table.free scheme index) := by
  have hents : table.entries.Perm (entry :: (table.free scheme index).entries) :=
    entries_free hfull
  have hnd := h.nodup
  rw [(hents.map key).nodup_iff, map_cons, nodup_cons] at hnd
  refine h.written (h.lt_capacity hfull) (fun _ ↦ rfl) nofun hnd.2 ?_ ?_
  · rw [h.size_eq, hents.length_eq, length_cons, Nat.add_sub_cancel]
    rfl
  · have hcnt := h.deleted_le
    rw [if_pos rfl]
    omega

variable {newKey : E → K}

/-- Replacing an entry, where the keys of the others are the same under the new reading and the
new entry has the old one's key. -/
theorem replace {newEntry : E} (hfull : table.slots[index]? = some (some entry))
    (hsame : newKey newEntry = key entry)
    (hoths : ∀ other ∈ (table.free scheme index).entries, newKey other = key other) :
    Sound scheme newKey (table.replace index newEntry) ∧
      (table.replace index newEntry).entries.Perm
        (newEntry :: (table.free scheme index).entries) := by
  have hlt := h.lt_capacity hfull
  have hfree : (table.free scheme index).slots[index]? = some none :=
    getElem?_set_self (by rw [h.slots_length]; exact hlt)
  have hslots : (table.replace index newEntry).slots
      = (table.free scheme index).slots.set index (some newEntry) := by
    change table.slots.set index _ = (table.slots.set index none).set index _
    rw [set_set]
  have hents : (table.replace index newEntry).entries.Perm
      (newEntry :: (table.free scheme index).entries) := by
    rw [entries, hslots]
    exact reduceOption_set hfree (some newEntry)
  have hold : table.entries.Perm (entry :: (table.free scheme index).entries) :=
    entries_free hfull
  -- an entry of another slot is still there when this one is freed
  have hoth : ∀ position other, index ≠ position → table.slots[position]? = some (some other) →
      newKey other = key other := by
    intro position other hne hslot
    refine hoths other (mem_entries.mpr ⟨position, ?_⟩)
    exact (getElem?_set_ne hne).trans hslot
  refine ⟨?_, hents⟩
  exact
    { shaped := h.shaped
      slots_length := by
        change (table.slots.set index _).length = table.capacity
        rw [length_set, h.slots_length]
      tagged := by
        intro position other hslot
        rcases getElem?_slots_set hslot with ⟨rfl, hnew⟩ | ⟨hne, hkept⟩
        · rw [some.inj hnew, hsame]
          exact h.tagged _ _ hfull
        · rw [hoth _ _ hne hkept]
          exact h.tagged _ _ hkept
      vacant := by
        intro position hslot
        rcases getElem?_slots_set hslot with ⟨-, hnew⟩ | ⟨-, hkept⟩
        · cases hnew
        · exact h.vacant _ hkept
      reaches := by
        intro position other hslot
        rcases getElem?_slots_set hslot with ⟨rfl, hnew⟩ | ⟨hne, hkept⟩
        · rw [some.inj hnew, hsame]
          exact h.reaches _ _ hfull
        · rw [hoth _ _ hne hkept]
          exact h.reaches _ _ hkept
      nodup := by
        have hkeys : (newEntry :: (table.free scheme index).entries).map newKey
            = (entry :: (table.free scheme index).entries).map key := by
          rw [map_cons, map_cons, hsame, map_congr_left hoths]
        rw [(hents.map newKey).nodup_iff, hkeys, ← (hold.map key).nodup_iff]
        exact h.nodup
      size_eq := by
        rw [hents.length_eq]
        change table.size = _
        rw [h.size_eq, hold.length_eq, length_cons, length_cons]
      deleted_le := h.deleted_le }

theorem of_tombstones {tombstones : ℕ} (hle : table.tombstones ≤ tombstones) :
    Sound scheme key { table with tombstones := tombstones } :=
  { h with deleted_le := h.deleted_le.trans hle }

/-- The keys of the entries may be read in another way that agrees on them. -/
theorem congr_key (hsame : ∀ entry ∈ table.entries, newKey entry = key entry) :
    Sound scheme newKey table := by
  refine { h with
    tagged := fun index entry hslot ↦ ?_
    reaches := fun index entry hslot ↦ ?_
    nodup := map_congr_left hsame ▸ h.nodup }
  · rw [hsame entry (mem_entries.mpr ⟨index, hslot⟩)]
    exact h.tagged index entry hslot
  · rw [hsame entry (mem_entries.mpr ⟨index, hslot⟩)]
    exact h.reaches index entry hslot

theorem not_deleted (hnone : table.tombstones = 0) (hidx : index < table.capacity) :
    table.control[index]? ≠ some .deleted := by
  intro hcell
  have hcnt := h.deleted_le
  have hmem : Control.deleted ∈ table.control.take table.capacity := by
    rw [mem_iff_getElem?]
    exact ⟨index, (getElem?_take_of_lt hidx).trans hcell⟩
  have hpos := count_pos_iff.mpr hmem
  omega

theorem length_entries_le : table.entries.length ≤ table.capacity := by
  rw [← h.slots_length]
  exact reduceOption_length_le table.slots

/-- A free slot that a probe returns is room for one more entry. -/
theorem room_of_findInsertIndex
    (hfind : table.findInsertIndex scheme mayHaveDeleted wanted = some index) :
    table.entries.length < table.capacity := by
  rw [← h.slots_length]
  exact reduceOption_length_lt_iff.mpr (mem_of_getElem? (h.findInsertIndex_some hfind).1)

/-- Room for one more entry, as far as the probe for a free slot looks. -/
theorem findInsertIndex_isSome_of_room (hroom : table.entries.length < table.capacity)
    (hdeleted : mayHaveDeleted = true ∨ table.tombstones = 0) :
    (table.findInsertIndex scheme mayHaveDeleted wanted).isSome = true := by
  obtain ⟨index, hfree⟩ : ∃ index : ℕ, table.slots[index]? = some none := by
    apply exists_free_slot
    rw [h.slots_length]
    exact hroom
  refine h.findInsertIndex_isSome hfree (hdeleted.imp_right fun hnone ↦ ?_)
  exact h.not_deleted hnone (h.lt_capacity hfree)

theorem insertExisting_some {next : Table F E}
    (hinsert : table.insertExisting scheme key mayHaveDeleted entry = some next)
    (hnew : ∀ other ∈ table.entries, key other ≠ key entry) :
    Sound scheme key next ∧ next.entries.Perm (entry :: table.entries) ∧
      next.capacity = table.capacity ∧ next.tombstones ≤ table.tombstones := by
  obtain ⟨index, hidx, rfl⟩ := map_eq_some_iff.mp hinsert
  obtain ⟨hfree, hreaches⟩ := h.findInsertIndex_some hidx
  refine ⟨h.put hfree hreaches hnew, entries_put hfree, rfl, ?_⟩
  change (if _ then _ else _) ≤ _
  split
  · exact sub_le _ _
  · exact le_refl _

end

/-- Placing entries one after the other fills the table, and fails only when it is full. -/
theorem foldlM_insertExisting (mayHaveDeleted : Bool) (entries : List E)
    (h : Sound scheme key table) (hnone : table.tombstones = 0)
    (hnd : ((table.entries ++ entries).map key).Nodup) :
    (table.entries.length + entries.length ≤ table.capacity →
      (entries.foldlM (insertExisting scheme key mayHaveDeleted) table).isSome = true) ∧
    ∀ result, entries.foldlM (insertExisting scheme key mayHaveDeleted) table = some result →
      Sound scheme key result ∧ result.entries.Perm (table.entries ++ entries) ∧
        result.capacity = table.capacity ∧ result.tombstones = 0 := by
  induction entries generalizing table with
  | nil =>
    refine ⟨fun _ ↦ rfl, fun result hres ↦ ?_⟩
    cases hres
    exact ⟨h, by simp, rfl, hnone⟩
  | cons entry rest ih =>
    have hnew : ∀ other ∈ table.entries, key other ≠ key entry := by
      intro other hoth hkey
      rw [map_append, nodup_append] at hnd
      exact hnd.2.2 _ (mem_map_of_mem hoth) _ (by simp) hkey
    have hstep : ∀ next, table.insertExisting scheme key mayHaveDeleted entry = some next →
        ((next.entries ++ rest).map key).Nodup ∧
          (next.entries ++ rest).Perm (table.entries ++ entry :: rest) := by
      intro next hnext
      have hperm :=
        ((h.insertExisting_some hnext hnew).2.1.append_right rest).trans perm_middle.symm
      exact ⟨((hperm.map key).nodup_iff).mpr hnd, hperm⟩
    rw [foldlM_cons]
    constructor
    · intro hroom
      have hfnd : (table.findInsertIndex scheme mayHaveDeleted (key entry)).isSome = true :=
        h.findInsertIndex_isSome_of_room (by simp only [length_cons] at hroom; omega)
          (.inr hnone)
      obtain ⟨index, hidx⟩ := isSome_iff_exists.mp hfnd
      have hinsert : table.insertExisting scheme key mayHaveDeleted entry
          = some (table.put scheme key index entry) := by
        rw [insertExisting, hidx, map_some]
      obtain ⟨hsound, hperm, hcap, htombstones⟩ := h.insertExisting_some hinsert hnew
      rw [hinsert, bind_eq_bind, bind_some]
      refine (ih hsound (by omega) (hstep _ hinsert).1).1 ?_
      rw [hperm.length_eq, hcap]
      simp only [length_cons] at hroom ⊢
      omega
    · intro result hres
      obtain ⟨next, hinsert, hrest⟩ := bind_eq_some_iff.mp hres
      obtain ⟨hsound, -, hcap, htombstones⟩ := h.insertExisting_some hinsert hnew
      obtain ⟨hresultSound, hresultPerm, hresultCapacity, hresultNone⟩ :=
        (ih hsound (by omega) (hstep _ hinsert).1).2 result hrest
      exact ⟨hresultSound, hresultPerm.trans (hstep _ hinsert).2,
        hresultCapacity.trans hcap, hresultNone⟩

end Sound

/-- A rebuild succeeds exactly when there are slots enough, and keeps the entries. -/
theorem rebuild_isSome_iff (mayHaveDeleted : Bool) (hwidth : scheme.width ∣ capacity)
    (hnd : (entries.map key).Nodup) :
    (rebuild scheme key mayHaveDeleted capacity entries).isSome = true ↔
      entries.length ≤ capacity := by
  have hplace := (sound_allocate hwidth : Sound scheme key (allocate scheme capacity))
    |>.foldlM_insertExisting mayHaveDeleted entries rfl (by simpa using hnd)
  constructor
  · intro hsome
    obtain ⟨result, hres⟩ := isSome_iff_exists.mp hsome
    obtain ⟨hsound, hperm, hcap, -⟩ := hplace.2 result hres
    have hle := hsound.length_entries_le
    rw [hperm.length_eq, hcap] at hle
    simpa using hle
  · intro hroom
    exact hplace.1 (by simpa using hroom)

theorem rebuild_some {result : Table F E} (hwidth : scheme.width ∣ capacity)
    (hnd : (entries.map key).Nodup)
    (hres : rebuild scheme key mayHaveDeleted capacity entries = some result) :
    Sound scheme key result ∧ result.entries.Perm entries ∧ result.capacity = capacity ∧
      result.tombstones = 0 := by
  have hplace := (sound_allocate hwidth : Sound scheme key (allocate scheme capacity))
    |>.foldlM_insertExisting mayHaveDeleted entries rfl (by simpa using hnd)
  simpa using hplace.2 result hres

section Find

variable [DecidableEq K]

namespace Sound

/-- A probe finds the slot of the entry with the key, and nothing when there is none. -/
theorem findIndex_eq_some_iff (h : Sound scheme key table) :
    table.findIndex scheme key wanted = some index ↔
      ∃ entry, table.slots[index]? = some (some entry) ∧ key entry = wanted := by
  have hsound : ∀ index, table.findIndex scheme key wanted = some index →
      ∃ entry, table.slots[index]? = some (some entry) ∧ key entry = wanted := by
    intro index hfind
    unfold findIndex at hfind
    split at hfind
    · cases hfind
    · have hshaped := h.shaped (by omega)
      have htest := (hshaped.findLoop_some hfind (scheme.home_lt _ _ (by omega))).2.2
      obtain ⟨entry, hent, hkey⟩ := (any_eq_true _ _).mp htest
      exact ⟨entry, join_eq_some_iff.mp hent, by simpa using hkey⟩
  refine ⟨hsound index, ?_⟩
  rintro ⟨entry, hslot, hkey⟩
  have hlt := h.lt_capacity hslot
  have hshaped := h.shaped (by omega)
  obtain ⟨step, hstep, hidx, hunbroken⟩ := h.reaches index entry hslot
  have hcell := h.tagged index entry hslot
  rw [hkey] at hidx hunbroken hcell
  have htest : ((table.entryAt index).any fun entry ↦ key entry = wanted) = true := by
    rw [entryAt, hslot]
    simpa using hkey
  have hsome : (table.findIndex scheme key wanted).isSome = true := by
    rw [findIndex, if_neg (by omega)]
    refine hshaped.findLoop_isSome (scheme.home_lt _ _ (by omega)) ?_ hunbroken ?_ ?_
    · rw [Nat.div_mul_cancel hshaped.divides]
      exact hstep
    · rw [← hidx]
      exact hcell
    · rw [← hidx]
      exact htest
  obtain ⟨found, hfnd⟩ := isSome_iff_exists.mp hsome
  obtain ⟨other, hoth, hotherKey⟩ := hsound found hfnd
  rw [hfnd, h.index_unique hoth hslot (hotherKey.trans hkey.symm)]

theorem findIndex_eq_none_iff (h : Sound scheme key table) :
    table.findIndex scheme key wanted = none ↔ ∀ entry ∈ table.entries, key entry ≠ wanted := by
  rw [eq_none_iff_forall_ne_some]
  constructor
  · intro hnone entry hent hkey
    obtain ⟨index, hslot⟩ := mem_entries.mp hent
    exact hnone index (h.findIndex_eq_some_iff.mpr ⟨entry, hslot, hkey⟩)
  · intro hall index hfind
    obtain ⟨entry, hslot, hkey⟩ := h.findIndex_eq_some_iff.mp hfind
    exact hall entry (mem_entries.mpr ⟨index, hslot⟩) hkey

end Sound

/-! ## The map a table holds -/

/-- The map gives for each key the entry with that key. -/
def Holds (key : E → K) (entries : List E) (map : K → Option E) : Prop :=
  ∀ wanted entry, map wanted = some entry ↔ entry ∈ entries ∧ key entry = wanted

namespace Holds

variable {entries rest : List E} {map : K → Option E}

section

variable (h : Holds key entries map)
include h

omit [DecidableEq K] in
theorem perm (hperm : rest.Perm entries) : Holds key rest map := by
  intro wanted entry
  rw [h wanted entry, hperm.mem_iff]

omit [DecidableEq K] in
theorem congr_key {newKey : E → K} (hsame : ∀ entry ∈ entries, newKey entry = key entry) :
    Holds newKey entries map := by
  intro wanted entry
  rw [h wanted entry]
  exact and_congr_right fun hent ↦ by rw [hsame entry hent]

omit [DecidableEq K] in
theorem absent (hnone : map wanted = none) : ∀ other ∈ entries, key other ≠ wanted := by
  intro other hoth hsame
  rw [(h wanted other).mpr ⟨hoth, hsame⟩] at hnone
  cases hnone

theorem cons (hnew : map (key entry) = none) :
    Holds key (entry :: entries) (update map (key entry) (some entry)) := by
  intro wanted other
  by_cases hkey : wanted = key entry
  · subst hkey
    rw [update_self, mem_cons]
    constructor
    · intro hsome
      cases hsome
      exact ⟨.inl rfl, rfl⟩
    · intro hmem
      rcases hmem.1 with rfl | hold
      · rfl
      · exact absurd hmem.2 (h.absent hnew other hold)
  · rw [update_of_ne hkey, h wanted other, mem_cons]
    constructor
    · intro hmem
      exact ⟨.inr hmem.1, hmem.2⟩
    · intro hmem
      rcases hmem.1 with rfl | hold
      · exact absurd hmem.2.symm hkey
      · exact ⟨hold, hmem.2⟩

end

theorem of_cons (h : Holds key (entry :: rest) map) (hnd : ((entry :: rest).map key).Nodup) :
    Holds key rest (update map (key entry) none) := by
  intro wanted other
  by_cases hkey : wanted = key entry
  · subst hkey
    constructor
    · intro hsome
      simp at hsome
    · intro hmem
      exact absurd (hmem.2 ▸ mem_map_of_mem hmem.1) (nodup_cons.mp hnd).1
  · rw [update_of_ne hkey, h wanted other, mem_cons]
    constructor
    · intro hmem
      rcases hmem.1 with rfl | hold
      · exact absurd hmem.2.symm hkey
      · exact ⟨hold, hmem.2⟩
    · intro hmem
      exact ⟨.inr hmem.1, hmem.2⟩

/-- As many keys as entries. -/
theorem ncard_keys (h : Holds key entries map) (hnd : (entries.map key).Nodup) :
    {wanted | (map wanted).isSome}.ncard = entries.length := by
  have hkeys : {wanted | (map wanted).isSome} = ((entries.map key).toFinset : Set K) := by
    ext wanted
    rw [Set.mem_ofPred_eq, isSome_iff_exists, coe_toFinset, Set.mem_ofPred_eq, mem_map]
    exact exists_congr fun entry ↦ h wanted entry
  rw [hkeys, Set.ncard_coe_finset, toFinset_card_of_nodup hnd, length_map]

end Holds

/-! ## Sound tables that hold a map -/

namespace Sound

variable {map : K → Option E} (h : Sound scheme key table) (hholds : Holds key table.entries map)
include h hholds

theorem find_eq (wanted : K) :
    (table.findIndex scheme key wanted).bind table.entryAt = map wanted := by
  cases hfind : table.findIndex scheme key wanted with
  | none =>
    have hnone := h.findIndex_eq_none_iff.mp hfind
    symm
    rw [bind_none, eq_none_iff_forall_ne_some]
    intro entry hent
    have hmem := (hholds wanted entry).mp hent
    exact hnone entry hmem.1 hmem.2
  | some index =>
    obtain ⟨entry, hslot, hkey⟩ := h.findIndex_eq_some_iff.mp hfind
    have hmap : map wanted = some entry :=
      (hholds wanted entry).mpr ⟨mem_entries.mpr ⟨index, hslot⟩, hkey⟩
    rw [bind_some, hmap, entryAt, hslot]
    rfl

theorem findIndex_eq_none (hnone : map wanted = none) : table.findIndex scheme key wanted = none :=
  h.findIndex_eq_none_iff.mpr (hholds.absent hnone)

theorem exists_findIndex (hsome : (map wanted).isSome = true) :
    ∃ index, table.findIndex scheme key wanted = some index := by
  obtain ⟨entry, hent⟩ := isSome_iff_exists.mp hsome
  obtain ⟨hmem, hkey⟩ := (hholds wanted entry).mp hent
  obtain ⟨index, hslot⟩ := mem_entries.mp hmem
  exact ⟨index, h.findIndex_eq_some_iff.mpr ⟨entry, hslot, hkey⟩⟩

/-- A new entry is put where a probe for its key found a free slot. -/
theorem put_holds (hnew : map (key entry) = none)
    (hidx : table.findInsertIndex scheme mayHaveDeleted (key entry) = some index) :
    Sound scheme key (table.put scheme key index entry) ∧
      Holds key (table.put scheme key index entry).entries
        (update map (key entry) (some entry)) := by
  obtain ⟨hfree, hreaches⟩ := h.findInsertIndex_some hidx
  exact ⟨h.put hfree hreaches (hholds.absent hnew), (hholds.cons hnew).perm (entries_put hfree)⟩

theorem free_holds (hfull : table.slots[index]? = some (some entry)) :
    Sound scheme key (table.free scheme index) ∧
      Holds key (table.free scheme index).entries (update map (key entry) none) := by
  have hperm : table.entries.Perm (entry :: (table.free scheme index).entries) :=
    entries_free hfull
  exact ⟨h.free hfull, (hholds.perm hperm.symm).of_cons ((hperm.map key).nodup_iff.mp h.nodup)⟩

theorem replace_holds {newKey : E → K} {newEntry : E}
    (hfull : table.slots[index]? = some (some entry)) (hsame : newKey newEntry = key entry)
    (hoths : ∀ other ∈ (table.free scheme index).entries, newKey other = key other) :
    Sound scheme newKey (table.replace index newEntry) ∧
      Holds newKey (table.replace index newEntry).entries
        (update map (key entry) (some newEntry)) := by
  obtain ⟨hsound, hperm⟩ := h.replace hfull hsame hoths
  have hrest := (h.free_holds hholds hfull).2.congr_key hoths
  have hcons : Holds newKey (newEntry :: (table.free scheme index).entries) _ :=
    hrest.cons (by rw [hsame, update_self])
  rw [hsame, update_idem] at hcons
  exact ⟨hsound, hcons.perm hperm⟩

end Sound

end Find

end Sound

end GoblinCore.GroupProbe
