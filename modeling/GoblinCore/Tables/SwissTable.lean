import GoblinCore.Foundation.GroupTable
import GoblinCore.Foundation.Rounding

/-!
# SwissTable

The open-addressing table behind the expiry index, the packed sorted sets and the subscription
tables.  Its slot array is a whole number of pages, so the capacity is not a power of two; it is cut
down to a multiple of the group width.  Every rebuild chooses a capacity from sizes alone and then
places the entries without checking that they fit, so the table is a finite map exactly as long as
the capacities chosen have room.
-/

namespace GoblinCore.SwissTable

open GroupProbe Rounding Function List Option Nat

variable {K : Type}

/-- What the template is instantiated with. -/
structure Config (K : Type) where
  hash : K → UInt64
  slotBytes : ℕ
  pageBytes : ℕ := 4096
  groupWidth : ℕ := 16
  groupWidth_pos : 0 < groupWidth := by exact sixteen_pos

/-- `group_start_for` and `fingerprint`. -/
def Config.scheme (config : Config K) : Scheme K ℕ where
  width := config.groupWidth
  home capacity key := (config.hash key).toNat * capacity / 2 ^ 64
  tag key := (config.hash key).toNat % 128
  width_pos := config.groupWidth_pos
  home_lt := by
    intro capacity key hpos
    rw [div_lt_iff_lt_mul (by positivity), mul_comm capacity]
    exact mul_lt_mul_of_pos_right (config.hash key).toNat_lt hpos

end GoblinCore.SwissTable

namespace GoblinCore

open List Function Option Nat

/-- A slot is `none` while no entry is constructed in it. -/
abbrev SwissTable (K V : Type) := GroupProbe.Table ℕ (K × V)

end GoblinCore

namespace GoblinCore.SwissTable

open GroupProbe Rounding List Function Option Nat

variable {K V : Type}

/-! ## Capacities -/

/-- `capacity * kMaxDensity`, with 0.92 in double precision. -/
def maxUsable (capacity : ℕ) : ℕ :=
  floorQuotient (toDouble capacity * 8286623314361713) (2 ^ 53)

/-- `capacity * kGrowthFactor`. -/
def grown (capacity : ℕ) : ℕ :=
  floorQuotient (toDouble capacity * 5662976725363273) (2 ^ 52)

namespace Config

variable (config : Config K)

def pageAlignedCapacity (targetSlots minPages : ℕ) : ℕ :=
  let pages := (targetSlots * config.slotBytes + config.pageBytes - 1) % 2 ^ 64 / config.pageBytes
  let capacity := max pages minPages * config.pageBytes % 2 ^ 64 / config.slotBytes
  max (capacity - capacity % config.groupWidth) config.groupWidth

def currentPages (capacity : ℕ) : ℕ :=
  (capacity * config.slotBytes + config.pageBytes - 1) % 2 ^ 64 / config.pageBytes

def capacityForSize (expectedSize : ℕ) : ℕ :=
  if expectedSize = 0 then 0
  else config.pageAlignedCapacity
    (floorQuotient (toDouble expectedSize * 2 ^ 53) 8286623314361713 + 1) 1

/-- The capacity `rehash` allocates for a requested one. -/
def normalized (requested : ℕ) : ℕ :=
  max requested config.groupWidth - max requested config.groupWidth % config.groupWidth

/-- The capacity at which `ensure_capacity_for_insert` rebuilds the table, if it does. -/
def insertTarget (table : SwissTable K V) : Option ℕ :=
  if table.capacity = 0 then some (config.pageAlignedCapacity config.groupWidth 1)
  else if table.size + table.tombstones + 1 > maxUsable table.capacity then
    some (config.pageAlignedCapacity (grown table.capacity)
      (config.currentPages table.capacity + 1))
  else none

def reserveTarget (table : SwissTable K V) (expectedSize : ℕ) : Option ℕ :=
  if expectedSize ≤ maxUsable table.capacity then none
  else some (config.capacityForSize expectedSize)

/-- The capacity at which `reserve_additional` rebuilds the table, if it does. -/
def reserveAdditionalTarget (table : SwissTable K V) (additional : ℕ) : Option ℕ :=
  if additional = 0 ∨ 2 ^ 64 - 1 - table.size < additional then none
  else
    let expectedSize := table.size + additional
    let usable := maxUsable table.capacity
    let occupied := table.size + table.tombstones
    if expectedSize ≤ usable ∧ occupied ≤ usable ∧ additional ≤ usable - occupied then none
    else if expectedSize ≤ usable then some table.capacity
    else
      let target :=
        if table.capacity = 0 then config.pageAlignedCapacity config.groupWidth 1
        else config.pageAlignedCapacity
          (if grown table.capacity > table.capacity then grown table.capacity
            else table.capacity + config.groupWidth)
          (config.currentPages table.capacity + 1)
      some (if expectedSize > maxUsable target then config.capacityForSize expectedSize
        else target)

end Config

/-! ## Operations -/

/-- A slot index that does not exist is used, or `std::length_error` is thrown. -/
inductive Fault where
  | undefined
  | lengthError
deriving DecidableEq

section Operations

variable (config : Config K) (table : SwissTable K V)

def placed (result : Option (SwissTable K V)) : Except Fault (SwissTable K V) :=
  match result with
  | some table => .ok table
  | none => .error .undefined

def rehash (requested : ℕ) : Except Fault (SwissTable K V) :=
  placed (Table.rebuild config.scheme Prod.fst false (config.normalized requested)
    table.fullEntries)

def resize (target : Option ℕ) : Except Fault (SwissTable K V) :=
  match target with
  | some requested => rehash config table requested
  | none => .ok table

def ensureCapacityForInsert : Except Fault (SwissTable K V) :=
  resize config table (config.insertTarget table)

def reserve (expectedSize : ℕ) : Except Fault (SwissTable K V) :=
  resize config table (config.reserveTarget table expectedSize)

def reserveAdditional (additional : ℕ) : Except Fault (SwissTable K V) :=
  if 2 ^ 64 - 1 - table.size < additional then .error .lengthError
  else resize config table (config.reserveAdditionalTarget table additional)

/-- The copy constructor: a new table of room for the entries, which are then placed in it. -/
def copy : Except Fault (SwissTable K V) := do
  let fresh ← reserve config {} table.size
  placed (table.fullEntries.foldlM (Table.insertExisting config.scheme Prod.fst false) fresh)

def forEach : List (K × V) := table.fullEntries

/-- The entry is constructed at the index the probe returned. -/
def construct (index : Option ℕ) (key : K) (value : V) : Except Fault (SwissTable K V) :=
  placed (index.map fun index ↦ table.put config.scheme Prod.fst index (key, value))

variable [DecidableEq K]

def findIndex (key : K) : Option ℕ := Table.findIndex config.scheme Prod.fst table key

def find (key : K) : Option V :=
  ((findIndex config table key).bind table.entryAt).map Prod.snd

/-- `try_emplace` and `insert_or_assign`, which differ in what they do to a key that is there. -/
def emplaceWith (onExisting : SwissTable K V → ℕ → SwissTable K V) (key : K) (value : V) :
    Except Fault (SwissTable K V × Bool) := do
  let table ← ensureCapacityForInsert config table
  match findIndex config table key with
  | some index => pure (onExisting table index, false)
  | none =>
    let table ← construct config table (table.findInsertIndex config.scheme true key) key value
    pure (table, true)

def tryEmplace (key : K) (value : V) : Except Fault (SwissTable K V × Bool) :=
  emplaceWith config table (fun table _ ↦ table) key value

def insertOrAssign (key : K) (value : V) : Except Fault (SwissTable K V × Bool) :=
  emplaceWith config table (fun table index ↦ table.replace index (key, value)) key value

def erase (key : K) : SwissTable K V × Bool :=
  match findIndex config table key with
  | some index => (table.free config.scheme index, true)
  | none => (table, false)

/-- One turn of the loop of `erase_if`. -/
def eraseIfStep (predicate : K × V → Bool) (state : SwissTable K V × ℕ) (index : ℕ) :
    SwissTable K V × ℕ :=
  if (state.1.fullAt index).any predicate then
    (state.1.free config.scheme index, state.2 + 1)
  else state

def eraseIf (predicate : K × V → Bool) : SwissTable K V × ℕ :=
  (range table.capacity).foldl (eraseIfStep config predicate) (table, 0)

/-- The token of `find_insert_slot`: an index, and whether the key is there. -/
def findInsertSlot (key : K) : Option ℕ × Bool :=
  table.findOrInsertIndex config.scheme Prod.fst (table.tombstones ≠ 0) key

/-- `reserve_insert_slot`; a rebuild makes the token's index stale. -/
def reserveInsertSlot (index : Option ℕ) (key : K) : Except Fault (SwissTable K V × Option ℕ) := do
  let next ← reserveAdditional config table 1
  match config.reserveAdditionalTarget table 1 with
  | some _ => pure (next, next.findInsertIndex config.scheme true key)
  | none => pure (next, index)

/-- A key is looked up with a token and inserted through it when it is missing. -/
def emplaceSlot (key : K) (value : V) : Except Fault (SwissTable K V × Bool) := do
  let slot := findInsertSlot config table key
  if slot.2 then pure (table, false)
  else
    let (table, index) ← reserveInsertSlot config table slot.1 key
    let table ← construct config table index key value
    pure (table, true)

/-- A key is looked up with a token and erased through it. -/
def eraseSlot (key : K) : SwissTable K V × Bool :=
  match findInsertSlot config table key with
  | (some index, true) => (table.free config.scheme index, true)
  | _ => (table, false)

end Operations

/-! ## Calls -/

inductive Call (K V : Type) where
  | tryEmplace (key : K) (value : V)
  | insertOrAssign (key : K) (value : V)
  | emplaceSlot (key : K) (value : V)
  | erase (key : K)
  | eraseSlot (key : K)
  | eraseIf (predicate : K × V → Bool)
  | reserve (expectedSize : ℕ)
  | reserveAdditional (additional : ℕ)
  | copy

section Runs

variable [DecidableEq K] (config : Config K)

variable (table : SwissTable K V)

/-- After `copy` the run goes on with the copy. -/
def step : Call K V → Except Fault (SwissTable K V)
  | .tryEmplace key value => Prod.fst <$> tryEmplace config table key value
  | .insertOrAssign key value => Prod.fst <$> insertOrAssign config table key value
  | .emplaceSlot key value => Prod.fst <$> emplaceSlot config table key value
  | .erase key => .ok (erase config table key).1
  | .eraseSlot key => .ok (eraseSlot config table key).1
  | .eraseIf predicate => .ok (eraseIf config table predicate).1
  | .reserve expectedSize => reserve config table expectedSize
  | .reserveAdditional additional => reserveAdditional config table additional
  | .copy => copy config table

/-- A call that throws leaves the table as it was. -/
def run : SwissTable K V → List (Call K V) → Option (SwissTable K V)
  | table, [] => some table
  | table, call :: calls =>
    match step config table call with
    | .ok next => run next calls
    | .error .lengthError => run table calls
    | .error .undefined => none

/-- What a call does to the map. -/
def Call.apply (map : K → Option V) : Call K V → K → Option V
  | .tryEmplace key value => if (map key).isSome then map else update map key (some value)
  | .insertOrAssign key value => update map key (some value)
  | .emplaceSlot key value => if (map key).isSome then map else update map key (some value)
  | .erase key => update map key none
  | .eraseSlot key => update map key none
  | .eraseIf predicate => fun key ↦ (map key).filter fun value ↦ !predicate (key, value)
  | .reserve _ => map
  | .reserveAdditional _ => map
  | .copy => map

/-- The capacity at which a call rebuilds the table or builds the copy, if it does. -/
def rebuildTarget : Call K V → Option ℕ
  | .tryEmplace _ _ => config.insertTarget table
  | .insertOrAssign _ _ => config.insertTarget table
  | .emplaceSlot key _ =>
    if (find config table key).isSome then none else config.reserveAdditionalTarget table 1
  | .erase _ => none
  | .eraseSlot _ => none
  | .eraseIf _ => none
  | .reserve expectedSize => config.reserveTarget table expectedSize
  | .reserveAdditional additional => config.reserveAdditionalTarget table additional
  | .copy => config.reserveTarget ({} : SwissTable K V) table.size

/-- How many entries the table has to take at that capacity. -/
def needed : Call K V → ℕ
  | .tryEmplace key _ => if (find config table key).isSome then table.size else table.size + 1
  | .insertOrAssign key _ => if (find config table key).isSome then table.size else table.size + 1
  | .emplaceSlot _ _ => table.size + 1
  | _ => table.size

/-- The capacity chosen for a rebuild has room for the entries. -/
def Roomy (call : Call K V) : Prop :=
  ∀ target ∈ rebuildTarget config table call, needed config table call ≤ config.normalized target

/-- Every rebuild of the run has room. -/
def RoomyRun : SwissTable K V → List (Call K V) → Prop
  | _, [] => True
  | table, call :: calls => Roomy config table call ∧
    match step config table call with
    | .ok next => RoomyRun next calls
    | .error .lengthError => RoomyRun table calls
    | .error .undefined => True

/-- The map after a run, of which the calls that throw change nothing. -/
def runMap : SwissTable K V → (K → Option V) → List (Call K V) → K → Option V
  | _, map, [] => map
  | table, map, call :: calls =>
    match step config table call with
    | .ok next => runMap next (call.apply map) calls
    | .error _ => runMap table map calls

/-- What a caller sees of the table is the map. -/
structure Refines (table : SwissTable K V) (map : K → Option V) : Prop where
  find_eq : ∀ key, find config table key = map key
  size_eq : table.size = {key | (map key).isSome}.ncard
  forEach_nodup : ((forEach table).map Prod.fst).Nodup
  mem_forEach : ∀ key value, (key, value) ∈ forEach table ↔ map key = some value

end Runs

/-! ## Rebuilding -/

theorem maxUsable_le (capacity : ℕ) : maxUsable capacity ≤ capacity := by
  have hdouble := toDouble_le capacity
  have hfloor : maxUsable capacity ≤ toDouble capacity * 8286623314361713 / 2 ^ 53 + 1
      + toDouble capacity * 8286623314361713 / 2 ^ 53 / 2 ^ 52 := floorQuotient_le (by positivity)
  rcases Nat.eq_zero_or_pos capacity with rfl | hpos
  · decide
  · by_cases hsmall : capacity < 2 ^ 53
    · omega
    · omega

theorem Config.width_dvd_normalized (config : Config K) (requested : ℕ) :
    config.scheme.width ∣ config.normalized requested :=
  Nat.dvd_sub_mod _

/-- The table is sound and holds the map. -/
structure Represents (config : Config K) (table : SwissTable K V) (map : K → Option V) : Prop where
  sound : Sound config.scheme Prod.fst table
  holds : Holds Prod.fst table.entries fun key ↦ (map key).map (Prod.mk key)

section Rebuilding

variable {config : Config K} {table next : SwissTable K V} {map : K → Option V}

theorem placed_eq_ok {result : Option (SwissTable K V)} :
    placed result = .ok next ↔ result = some next := by
  cases result <;> simp [placed]

theorem placed_eq_error {result : Option (SwissTable K V)} {fault : Fault} :
    placed result = .error fault ↔ result = none ∧ fault = .undefined := by
  cases result <;> simp [placed, eq_comm]

section

variable (h : Represents config table map)
include h

theorem Represents.perm (hsound : Sound config.scheme Prod.fst next)
    (hperm : next.entries.Perm table.entries) : Represents config next map :=
  ⟨hsound, h.holds.perm hperm⟩

theorem Represents.size_perm (hsound : Sound config.scheme Prod.fst next)
    (hperm : next.entries.Perm table.entries) : next.size = table.size := by
  rw [hsound.size_eq, hperm.length_eq, h.sound.size_eq]

variable {requested : ℕ}

/-- A rebuild goes well exactly when there is room, and keeps the map. -/
theorem rehash_ok_iff :
    (∃ next, rehash config table requested = .ok next) ↔
      table.size ≤ config.normalized requested := by
  have hbuilt := rebuild_isSome_iff false (config.width_dvd_normalized requested) h.sound.nodup
  rw [h.sound.size_eq, ← hbuilt, isSome_iff_exists, rehash, h.sound.fullEntries_eq]
  exact exists_congr fun next ↦ placed_eq_ok

theorem rehash_ok (hok : rehash config table requested = .ok next) :
    Represents config next map ∧ next.size = table.size ∧
      next.capacity = config.normalized requested ∧ next.tombstones = 0 := by
  rw [rehash, placed_eq_ok, h.sound.fullEntries_eq] at hok
  obtain ⟨hsound, hperm, hcap, hnone⟩ :=
    rebuild_some (config.width_dvd_normalized requested) h.sound.nodup hok
  exact ⟨h.perm hsound hperm, h.size_perm hsound hperm, hcap, hnone⟩

/-- A resize goes well exactly when there is room at the capacity it chooses. -/
theorem resize_cases (target : Option ℕ) :
    ((∀ requested ∈ target, table.size ≤ config.normalized requested) ∧
      ∃ next, resize config table target = .ok next ∧ Represents config next map ∧
        next.size = table.size ∧
        next.capacity = (target.map config.normalized).getD table.capacity) ∨
    (¬(∀ requested ∈ target, table.size ≤ config.normalized requested) ∧
      resize config table target = .error .undefined) := by
  cases target with
  | none => exact .inl ⟨by simp, table, rfl, h, rfl, rfl⟩
  | some requested =>
    simp only [mem_def, some.injEq, forall_eq', ← rehash_ok_iff h]
    cases hres : rehash config table requested with
    | ok next =>
      obtain ⟨hnext, hsize, hcap, -⟩ := rehash_ok h hres
      exact .inl ⟨⟨next, rfl⟩, next, hres, hnext, hsize, hcap⟩
    | error fault =>
      obtain ⟨-, rfl⟩ := placed_eq_error.mp hres
      exact .inr ⟨by simp, hres⟩

end

end Rebuilding

/-! ## One call -/

/-- With room the call goes well and leaves the map; without, it uses an index that does not
exist. -/
structure Outcome (config : Config K) (result : Except Fault (SwissTable K V)) (room : Prop)
    (map : K → Option V) : Prop where
  roomy : room → ∃ next, result = .ok next ∧ Represents config next map
  crowded : ¬room → result = .error .undefined

section Calls

variable {config : Config K} {table next : SwissTable K V} {map : K → Option V} {key : K}
    {value : V}

theorem resize_outcome (h : Represents config table map) (target : Option ℕ) :
    Outcome config (resize config table target)
      (∀ requested ∈ target, table.size ≤ config.normalized requested) map where
  roomy := by
    intro hroom
    rcases resize_cases h target with ⟨-, next, hok, hnext, -⟩ | ⟨hcrowded, -⟩
    · exact ⟨next, hok, hnext⟩
    · exact absurd hroom hcrowded
  crowded := fun hcrowded ↦ ((resize_cases h target).resolve_left fun hroom ↦ hcrowded hroom.1).2

theorem update_entry [DecidableEq K] (value : Option V) :
    (fun other ↦ (update map key value other).map (Prod.mk other))
      = update (fun other ↦ (map other).map (Prod.mk other)) key (value.map (Prod.mk key)) := by
  funext other
  by_cases heq : other = key
  · subst heq
    simp
  · simp [update_of_ne heq]

variable [DecidableEq K]

section

variable (h : Represents config table map)
include h

theorem Represents.find_eq (key : K) : find config table key = map key := by
  rw [find, findIndex, h.sound.find_eq h.holds key, Option.map_map]
  exact Option.map_id'

theorem Represents.findIndex_eq_none (hkey : map key = none) : findIndex config table key = none :=
  h.sound.findIndex_eq_none h.holds (by rw [hkey]; rfl)

theorem Represents.findIndex_eq_some (hkey : (map key).isSome = true) :
    ∃ index, findIndex config table key = some index :=
  h.sound.exists_findIndex h.holds (by rw [isSome_map, hkey])

variable {index : ℕ} {mayHaveDeleted : Bool}

theorem Represents.put (hkey : map key = none)
    (hidx : table.findInsertIndex config.scheme mayHaveDeleted key = some index) :
    Represents config (table.put config.scheme Prod.fst index (key, value))
      (update map key (some value)) := by
  obtain ⟨hsound, hholds⟩ : Sound config.scheme Prod.fst
      (table.put config.scheme Prod.fst index (key, value)) ∧ Holds Prod.fst _ _ :=
    h.sound.put_holds h.holds (by rw [hkey]; rfl) hidx
  exact ⟨hsound, by rw [update_entry]; exact hholds⟩

theorem Represents.free (hidx : findIndex config table key = some index) :
    Represents config (table.free config.scheme index) (update map key none) := by
  obtain ⟨entry, hslot, rfl⟩ := h.sound.findIndex_eq_some_iff.mp hidx
  have hfree := h.sound.free_holds h.holds hslot
  exact ⟨hfree.1, by rw [update_entry]; exact hfree.2⟩

theorem Represents.replace (hidx : findIndex config table key = some index) :
    Represents config (table.replace index (key, value)) (update map key (some value)) := by
  obtain ⟨entry, hslot, rfl⟩ := h.sound.findIndex_eq_some_iff.mp hidx
  obtain ⟨hsound, hholds⟩ : Sound config.scheme Prod.fst (table.replace index (entry.1, value)) ∧
      Holds Prod.fst (table.replace index (entry.1, value)).entries _ :=
    h.sound.replace_holds h.holds hslot rfl fun _ _ ↦ rfl
  exact ⟨hsound, by rw [update_entry]; exact hholds⟩

/-- Constructing a missing entry goes well exactly when there is a slot left. -/
theorem construct_outcome (hkey : map key = none)
    (hdeleted : mayHaveDeleted = true ∨ table.tombstones = 0) :
    Outcome config (construct config table
      (table.findInsertIndex config.scheme mayHaveDeleted key) key value)
      (table.size < table.capacity) (update map key (some value)) where
  roomy := by
    intro hroom
    rw [h.sound.size_eq] at hroom
    obtain ⟨index, hidx⟩ : ∃ index,
        table.findInsertIndex config.scheme mayHaveDeleted key = some index :=
      isSome_iff_exists.mp (h.sound.findInsertIndex_isSome_of_room hroom hdeleted)
    refine ⟨_, ?_, h.put hkey hidx⟩
    rw [hidx]
    rfl
  crowded := by
    intro hfull
    rw [h.sound.size_eq] at hfull
    cases hidx : table.findInsertIndex config.scheme mayHaveDeleted key with
    | none => rfl
    | some index => exact absurd (h.sound.room_of_findInsertIndex hidx) hfull

end

omit [DecidableEq K] in
theorem insertTarget_none (hnone : config.insertTarget table = none) :
    table.size < table.capacity := by
  unfold Config.insertTarget at hnone
  split_ifs at hnone with hzero hfull
  have hle := maxUsable_le table.capacity
  omega

omit [DecidableEq K] in
theorem reserveAdditionalTarget_overflow {additional : ℕ}
    (hover : 2 ^ 64 - 1 - table.size < additional) :
    config.reserveAdditionalTarget table additional = none :=
  if_pos (.inr hover)

omit [DecidableEq K] in
theorem reserveAdditionalTarget_none (hfits : ¬2 ^ 64 - 1 - table.size < 1)
    (hnone : config.reserveAdditionalTarget table 1 = none) : table.size < table.capacity := by
  have hle := maxUsable_le table.capacity
  unfold Config.reserveAdditionalTarget at hnone
  rw [if_neg (by omega)] at hnone
  dsimp only at hnone
  split_ifs at hnone with hroom
  omega

omit [DecidableEq K] in
theorem fst_returned (result : Except Fault (SwissTable K V)) :
    Prod.fst <$> (result >>= fun table ↦ pure (table, true)) = result := by
  cases result <;> rfl

/-- An insertion: the table is resized for it, and then the entry is constructed. -/
theorem insert_outcome (h : Represents config table map) (hkey : map key = none) {target : Option ℕ}
    (hkept : target = none → table.size < table.capacity) {result : Except Fault (SwissTable K V)}
    (herr : ∀ fault, resize config table target = .error fault → result = .error fault)
    (hok : ∀ next, resize config table target = .ok next → Represents config next map → ∃
      mayHaveDeleted, (mayHaveDeleted = true ∨ next.tombstones = 0) ∧ result = construct config next
      (next.findInsertIndex config.scheme mayHaveDeleted key) key value) :
    Outcome config result (∀ requested ∈ target, table.size + 1 ≤ config.normalized requested)
      (update map key (some value)) := by
  rcases resize_cases h target with ⟨-, next, hres, hnext, hsize, hcap⟩ | ⟨hcrowded, hres⟩
  · obtain ⟨mayHaveDeleted, hdeleted, hconstruct⟩ := hok next hres hnext
    have hroom : next.size < next.capacity ↔
        ∀ requested ∈ target, table.size + 1 ≤ config.normalized requested := by
      rw [hsize, hcap]
      cases target with
      | none => simpa using hkept rfl
      | some requested => simp
    rw [← propext hroom, hconstruct]
    exact construct_outcome hnext hkey hdeleted
  · refine ⟨fun hroom ↦ absurd (fun requested hrequested ↦ ?_) hcrowded, fun _ ↦ herr _ hres⟩
    exact le_of_succ_le (hroom requested hrequested)

theorem emplaceWith_outcome (h : Represents config table map)
    {onExisting : SwissTable K V → ℕ → SwissTable K V} {found : K → Option V}
    (hexisting : ∀ table index, Represents config table map →
      findIndex config table key = some index → Represents config (onExisting table index) found) :
    Outcome config (Prod.fst <$> emplaceWith config table onExisting key value)
      (∀ requested ∈ config.insertTarget table,
        (if (find config table key).isSome then table.size else table.size + 1)
          ≤ config.normalized requested)
      (if (map key).isSome then found else update map key (some value)) := by
  rw [h.find_eq]
  cases hkey : map key with
  | some stored =>
    have hresize := resize_outcome h (config.insertTarget table)
    refine ⟨fun hroom ↦ ?_, fun hcrowded ↦ ?_⟩
    · obtain ⟨next, hok, hnext⟩ := hresize.roomy hroom
      obtain ⟨index, hidx⟩ : ∃ index, findIndex config next key = some index :=
        hnext.findIndex_eq_some (by rw [hkey]; rfl)
      refine ⟨onExisting next index, ?_, hexisting next index hnext hidx⟩
      rw [emplaceWith, ensureCapacityForInsert, hok]
      change Prod.fst <$> (match findIndex config next key with | some _ => _ | none => _) = _
      rw [hidx]
      rfl
    · rw [emplaceWith, ensureCapacityForInsert, hresize.crowded hcrowded]
      rfl
  | none =>
    refine insert_outcome h hkey insertTarget_none (fun fault herr ↦ ?_)
      (fun next hok hnext ↦ ⟨true, .inl rfl, ?_⟩)
    · rw [emplaceWith, ensureCapacityForInsert, herr]
      rfl
    rw [emplaceWith, ensureCapacityForInsert, hok]
    change Prod.fst <$> (match findIndex config next key with | some _ => _ | none => _) = _
    rw [hnext.findIndex_eq_none hkey]
    exact fst_returned _

theorem findInsertSlot_eq :
    findInsertSlot config table key
      = match findIndex config table key with
        | some index => (some index, true)
        | none => (table.findInsertIndex config.scheme (table.tombstones ≠ 0) key, false) :=
  Table.findOrInsertIndex_eq _ _ _ _ _

theorem emplaceSlot_outcome (h : Represents config table map)
    (hsize : map key = none → ¬2 ^ 64 - 1 - table.size < 1) :
    Outcome config (Prod.fst <$> emplaceSlot config table key value)
      (∀ requested ∈ (if (find config table key).isSome then none
          else config.reserveAdditionalTarget table 1),
        table.size + 1 ≤ config.normalized requested)
      (if (map key).isSome then map else update map key (some value)) := by
  rw [h.find_eq]
  cases hkey : map key with
  | some stored =>
    obtain ⟨index, hidx⟩ : ∃ index, findIndex config table key = some index :=
      h.findIndex_eq_some (by rw [hkey]; rfl)
    have hfnd : emplaceSlot config table key value = .ok (table, false) := by
      rw [emplaceSlot, findInsertSlot_eq, hidx]
      rfl
    rw [isSome_some, if_pos rfl, if_pos rfl, hfnd]
    exact ⟨fun _ ↦ ⟨table, rfl, h⟩, fun hcrowded ↦ absurd (by simp) hcrowded⟩
  | none =>
    simp only [isSome_none, Bool.false_eq_true, if_false]
    have hslot : findInsertSlot config table key
        = (table.findInsertIndex config.scheme (table.tombstones ≠ 0) key, false) := by
      rw [findInsertSlot_eq, h.findIndex_eq_none hkey]
    refine insert_outcome h hkey (reserveAdditionalTarget_none (hsize hkey))
      (fun fault herr ↦ ?_) (fun next hok hnext ↦ ?_)
    · simp only [emplaceSlot, hslot, reserveInsertSlot, reserveAdditional, if_neg (hsize hkey),
        herr]
      rfl
    · simp only [emplaceSlot, hslot, reserveInsertSlot, reserveAdditional, if_neg (hsize hkey), hok]
      cases htgt : config.reserveAdditionalTarget table 1 with
      | some requested =>
        exact ⟨true, .inl rfl, fst_returned _⟩
      | none =>
        rw [htgt] at hok
        obtain rfl : table = next := Except.ok.inj hok
        refine ⟨table.tombstones ≠ 0, ?_, fst_returned _⟩
        rcases Nat.eq_zero_or_pos table.tombstones with hzero | hpos
        · exact .inr hzero
        · exact .inl (decide_eq_true (ne_of_gt hpos))

/-! ## Erasing -/

theorem erase_represents (h : Represents config table map) (key : K) :
    Represents config (erase config table key).1 (update map key none) := by
  unfold erase
  cases hidx : findIndex config table key with
  | some index => exact h.free hidx
  | none =>
    have hfind := h.find_eq key
    rw [find, hidx] at hfind
    have hsame : update map key none = map := by
      rw [update_eq_self_iff]
      exact hfind
    rw [hsame]
    exact h

theorem eraseSlot_eq : eraseSlot config table key = erase config table key := by
  unfold eraseSlot erase
  rw [findInsertSlot_eq]
  cases findIndex config table key with
  | some index => rfl
  | none => cases table.findInsertIndex config.scheme (table.tombstones ≠ 0) key <;> rfl

omit [DecidableEq K] in
/-- The slots after the loop of `erase_if` has passed the first ones. -/
theorem eraseIf_prefix (h : Sound config.scheme Prod.fst table) {predicate : K × V → Bool}
    {count : ℕ} :
    Sound config.scheme Prod.fst ((range count).foldl (eraseIfStep config predicate) (table, 0)).1 ∧
    ∀ (index : ℕ) (entry : K × V),
      ((range count).foldl (eraseIfStep config predicate) (table, 0)).1.slots[index]?
          = some (some entry) ↔
        table.slots[index]? = some (some entry) ∧ ¬(index < count ∧ predicate entry = true) := by
  induction count with
  | zero => exact ⟨h, fun index entry ↦ by simp⟩
  | succ count ih =>
    rw [range_succ, foldl_append, foldl_cons, foldl_nil]
    set state := (range count).foldl (eraseIfStep config predicate) (table, 0)
    obtain ⟨hsound, hslots⟩ := ih
    unfold eraseIfStep
    rw [hsound.fullAt_eq]
    have hless : ∀ index, index ≠ count → (index < count + 1 ↔ index < count) := by omega
    by_cases htest : (state.1.entryAt count).any predicate = true
    · rw [if_pos htest]
      obtain ⟨erased, hent, hpredicate⟩ := (any_eq_true _ _).mp htest
      have hslot := join_eq_some_iff.mp hent
      refine ⟨hsound.free hslot, fun index entry ↦ ?_⟩
      change (state.1.slots.set count none)[index]? = some (some entry) ↔ _
      by_cases hidx : index = count
      · subst hidx
        rw [List.getElem?_set_self (List.getElem?_eq_some_iff.mp hslot).1]
        refine ⟨fun hnone ↦ absurd hnone (by simp), fun hkept ↦ ?_⟩
        have hsame := (hslots index entry).mpr ⟨hkept.1, fun hlt ↦ lt_irrefl _ hlt.1⟩
        rw [hslot] at hsame
        obtain rfl : erased = entry := by simpa using hsame
        exact absurd ⟨lt_succ_self _, hpredicate⟩ hkept.2
      · rw [getElem?_set_ne (Ne.symm hidx), hslots, hless index hidx]
    · rw [if_neg htest]
      refine ⟨hsound, fun index entry ↦ ?_⟩
      rw [hslots]
      by_cases hidx : index = count
      · subst hidx
        refine and_congr_right fun hslot ↦ ⟨fun _ hboth ↦ htest ?_, fun _ hboth ↦ ?_⟩
        · have hkept := (hslots index entry).mpr ⟨hslot, fun hlt ↦ lt_irrefl _ hlt.1⟩
          rw [Table.entryAt, hkept]
          exact hboth.2
        · exact lt_irrefl _ hboth.1
      · rw [hless index hidx]

omit [DecidableEq K] in
theorem eraseIf_represents (h : Represents config table map) {predicate : K × V → Bool} :
    Represents config (eraseIf config table predicate).1
      (fun key ↦ (map key).filter fun value ↦ !predicate (key, value)) := by
  obtain ⟨hsound, hslots⟩ := eraseIf_prefix h.sound
  refine ⟨hsound, fun key entry ↦ ?_⟩
  have hmem : entry ∈ (eraseIf config table predicate).1.entries ↔
      entry ∈ table.entries ∧ predicate entry = false := by
    rw [Table.mem_entries, Table.mem_entries]
    constructor
    · rintro ⟨index, hidx⟩
      obtain ⟨hslot, hkept⟩ := (hslots index entry).mp hidx
      exact ⟨⟨index, hslot⟩, by simpa [h.sound.lt_capacity hslot] using hkept⟩
    · rintro ⟨⟨index, hslot⟩, hkept⟩
      exact ⟨index, (hslots index entry).mpr ⟨hslot, by simp [hkept]⟩⟩
  have hheld := h.holds key entry
  rw [hmem, (and_right_comm : (_ ∧ _) ∧ _ ↔ _), ← hheld]
  simp only [map_eq_some_iff, filter_eq_some_iff, Bool.not_eq_true']
  constructor
  · rintro ⟨value, ⟨hval, hkept⟩, rfl⟩
    exact ⟨⟨value, hval, rfl⟩, hkept⟩
  · rintro ⟨⟨value, hval, rfl⟩, hkept⟩
    exact ⟨value, ⟨hval, hkept⟩, rfl⟩

/-! ## Runs -/

omit [DecidableEq K] in
/-- A copy into new slots is a rebuild at their number. -/
theorem copy_eq_rehash {requested : ℕ}
    (htgt : config.reserveTarget ({} : SwissTable K V) table.size = some requested) :
    copy config table = rehash config table requested := by
  rw [copy, reserve, htgt]
  rfl

omit [DecidableEq K] in
theorem copy_outcome (h : Represents config table map) :
    Outcome config (copy config table)
      (∀ requested ∈ config.reserveTarget ({} : SwissTable K V) table.size,
        table.size ≤ config.normalized requested) map := by
  cases htgt : config.reserveTarget ({} : SwissTable K V) table.size with
  | some requested =>
    rw [copy_eq_rehash htgt]
    exact resize_outcome h (some requested)
  | none =>
    have hemp : table.entries = [] := by
      unfold Config.reserveTarget at htgt
      split_ifs at htgt with hsize
      rw [← length_eq_zero_iff, ← h.sound.size_eq]
      exact le_zero.mp (hsize.trans (maxUsable_le 0))
    have hcopy : copy config table = .ok {} := by
      rw [copy, reserve, htgt, h.sound.fullEntries_eq, hemp]
      rfl
    have hnew : Represents config ({} : SwissTable K V) map := by
      refine h.perm sound_new ?_
      rw [hemp]
      exact List.Perm.refl _
    exact ⟨fun _ ↦ ⟨{}, hcopy, hnew⟩, fun hcrowded ↦ absurd (by simp) hcrowded⟩

omit [DecidableEq K] in
theorem Represents.outcome {result : SwissTable K V} {room : Prop}
    (h : Represents config result map) (hroom : room) : Outcome config (.ok result) room map :=
  ⟨fun _ ↦ ⟨result, rfl, h⟩, fun hcrowded ↦ absurd hroom hcrowded⟩

section

variable (h : Represents config table map)
include h

/-- What one call does. -/
theorem step_outcome (call : Call K V) :
    (step config table call = .error .lengthError ∧ Roomy config table call) ∨
      Outcome config (step config table call) (Roomy config table call) (call.apply map) := by
  cases call with
  | tryEmplace key value => exact .inr (emplaceWith_outcome h fun table index htable _ ↦ htable)
  | insertOrAssign key value =>
    have hinsert : Outcome config
        (Prod.fst <$> emplaceWith config table
          (fun table index ↦ table.replace index (key, value)) key value) _
        (if (map key).isSome then update map key (some value)
          else update map key (some value)) :=
      emplaceWith_outcome h fun table index htable hidx ↦ htable.replace hidx
    rw [ite_self] at hinsert
    exact .inr hinsert
  | emplaceSlot key value =>
    by_cases hfits : map key = none ∧ 2 ^ 64 - 1 - table.size < 1
    · have hfind : (find config table key).isSome = false := by
        rw [h.find_eq, hfits.1]
        rfl
      refine .inl ⟨?_, ?_⟩
      · have hslot : (findInsertSlot config table key).2 = false := by
          rw [findInsertSlot_eq, h.findIndex_eq_none hfits.1]
        simp only [step, emplaceSlot, hslot, reserveInsertSlot, reserveAdditional, if_pos hfits.2]
        rfl
      · intro target htgt
        rw [rebuildTarget, hfind, reserveAdditionalTarget_overflow hfits.2] at htgt
        cases htgt
    · exact .inr (emplaceSlot_outcome h fun hkey hover ↦ hfits ⟨hkey, hover⟩)
  | erase key => exact .inr ((erase_represents h key).outcome (by simp [Roomy, rebuildTarget]))
  | eraseSlot key =>
    have herase := erase_represents h key
    rw [← eraseSlot_eq] at herase
    exact .inr (herase.outcome (by simp [Roomy, rebuildTarget]))
  | eraseIf predicate =>
    exact .inr ((eraseIf_represents h).outcome (by simp [Roomy, rebuildTarget]))
  | reserve expectedSize => exact .inr (resize_outcome h _)
  | reserveAdditional additional =>
    by_cases hfits : 2 ^ 64 - 1 - table.size < additional
    · refine .inl ⟨if_pos hfits, fun target htgt ↦ ?_⟩
      rw [rebuildTarget, reserveAdditionalTarget_overflow hfits] at htgt
      cases htgt
    · have hresize := resize_outcome h (config.reserveAdditionalTarget table additional)
      have hstep : step config table (.reserveAdditional additional)
          = resize config table (config.reserveAdditionalTarget table additional) := if_neg hfits
      rw [hstep]
      exact .inr hresize
  | copy => exact .inr (copy_outcome h)

theorem Represents.refines : Refines config table map where
  find_eq := h.find_eq
  size_eq := by
    have hcard := h.holds.ncard_keys h.sound.nodup
    simp only [isSome_map] at hcard
    rw [h.sound.size_eq, hcard]
  forEach_nodup := by
    rw [forEach, h.sound.fullEntries_eq]
    exact h.sound.nodup
  mem_forEach := by
    intro key value
    have hheld := h.holds key (key, value)
    rw [forEach, h.sound.fullEntries_eq]
    simpa using hheld.symm

/-- A run in which every rebuild has room goes through, and one that goes through is such a run. -/
theorem run_represents (calls : List (Call K V)) :
    (RoomyRun config table calls →
      ∃ result, run config table calls = some result ∧
        Represents config result (runMap config table map calls)) ∧
    (¬RoomyRun config table calls → run config table calls = none) := by
  induction calls generalizing table map with
  | nil => exact ⟨fun _ ↦ ⟨table, rfl, h⟩, fun hcrowded ↦ absurd trivial hcrowded⟩
  | cons call calls ih =>
    rw [RoomyRun, run, runMap]
    rcases step_outcome h call with ⟨hthrows, hroom⟩ | houtcome
    · simp only [hthrows]
      refine ⟨fun hrun ↦ (ih h).1 hrun.2, fun hcrowded ↦ (ih h).2 fun hrun ↦ ?_⟩
      exact hcrowded ⟨hroom, hrun⟩
    · by_cases hroom : Roomy config table call
      · obtain ⟨next, hok, hnext⟩ := houtcome.roomy hroom
        simp only [hok]
        refine ⟨fun hrun ↦ (ih hnext).1 hrun.2, fun hcrowded ↦ (ih hnext).2 fun hrun ↦ ?_⟩
        exact hcrowded ⟨hroom, hrun⟩
      · rw [houtcome.crowded hroom]
        exact ⟨fun hrun ↦ absurd hrun.1 hroom, fun _ ↦ rfl⟩

end

omit [DecidableEq K] in
theorem represents_new : Represents config ({} : SwissTable K V) (fun _ ↦ none) :=
  ⟨sound_new, fun key entry ↦ by simp [Table.entries]⟩

end Calls

/-- Over every run from an empty table, for every hash function, the table is the finite map that
the calls describe exactly when each capacity the run chooses for a rebuild has room for the
entries that have to be placed; otherwise a slot that does not exist is written. -/
theorem run_refines_iff [DecidableEq K] (config : Config K) (calls : List (Call K V)) :
    (∃ table, run config {} calls = some table ∧
      Refines config table (runMap config {} (fun _ ↦ none) calls)) ↔ RoomyRun config {} calls := by
  have hnew : Represents config ({} : SwissTable K V) (fun _ ↦ none) := represents_new
  have hrun := run_represents hnew calls
  constructor
  · rintro ⟨table, htable, -⟩
    by_contra hcrowded
    rw [hrun.2 hcrowded] at htable
    cases htable
  · intro hroom
    obtain ⟨table, htable, hrepresents⟩ := hrun.1 hroom
    exact ⟨table, htable, hrepresents.refines⟩

/-- A table of channel names with their subscribers: 32 bytes of string and 56 of set. -/
def subscriptionTable : Config ℕ where
  hash channel := UInt64.ofNat (channel * 2 ^ 58)
  slotBytes := 88

def subscriptions : List (Call ℕ ℕ) :=
  (range 33).map fun channel ↦ .tryEmplace channel channel

/-- A table of 33 channels has 80 slots, and its copy would have 32. -/
theorem copy_overruns_page :
    ¬∀ calls : List (Call ℕ ℕ), ∃ table, run subscriptionTable {} calls = some table ∧
      Refines subscriptionTable table (runMap subscriptionTable {} (fun _ ↦ none) calls) := by
  intro hall
  obtain ⟨table, htable, -⟩ := hall (subscriptions ++ [.copy])
  have hnone : run subscriptionTable {} (subscriptions ++ [.copy]) = none := by decide +kernel
  cases htable

end GoblinCore.SwissTable
