import GoblinCore.Foundation.GroupTable
import GoblinCore.Foundation.Rounding

/-!
# MemberIndex

The open-addressing index from member bytes to ids behind sorted sets, hashes, sets and the
keyspace.  A slot holds only an id; the bytes of a member are read through the member storage, so
every probe compares against the storage as it is at that moment.  The storage keeps its ids dense:
a removal copies the last member over the hole, tells the index that the last id moved, and drops
the last position.
-/

namespace GoblinCore.MemberIndex

open GroupProbe Rounding Function List Table

variable {M : Type}

/-- The hash function and the growth factor, as the quotient of two naturals. -/
structure Config (M : Type) where
  hash : M → UInt64
  growthNum : ℕ
  growthDen : ℕ

/-- `hash_member`: the two halves of the hash folded to 32 bits. -/
def Config.hashMember (config : Config M) (member : M) : ℕ :=
  ((config.hash member).toNat ^^^ (config.hash member).toNat / 2 ^ 32) % 2 ^ 32

/-- `bucket` and `fingerprint`, of the bytes an id stands for. -/
def Config.scheme (config : Config M) : Scheme (Option M) ℕ where
  width := 16
  home capacity member := (member.map config.hashMember).getD 0 * capacity / 2 ^ 32
  tag member := (member.map config.hashMember).getD 0 % 128
  width_pos := sixteen_pos
  home_lt := by
    intro capacity member hpos
    rw [Nat.div_lt_iff_lt_mul (by positivity), Nat.mul_comm capacity]
    refine Nat.mul_lt_mul_of_pos_right ?_ hpos
    cases member with
    | none => exact Nat.two_pow_pos 32
    | some member => exact Nat.mod_lt _ (by positivity)

/-- The table of ids; a slot is `none` while its cell is not full. -/
abbrev Index := GroupProbe.Table ℕ ℕ

/-! ## Capacities -/

def maxUsable (capacity : ℕ) : ℕ := capacity - capacity / 32

def roundUpToGroup (value : ℕ) : ℕ := if value < 16 then 16 else (value + 15) / 16 * 16

def Config.growCapacity (config : Config M) (capacity : ℕ) : ℕ :=
  let next := roundUpToGroup (floorQuotient (toDouble capacity * config.growthNum) config.growthDen)
  if next > capacity then next else capacity + 16

/-- The capacity at which `ensure_capacity_for_insert` rebuilds the index, if it does. -/
def Config.insertTarget (config : Config M) (index : Index) : Option ℕ :=
  if index.capacity = 0 then some 16
  else if index.size + index.tombstones + 1 > maxUsable index.capacity then
    if index.size + 1 ≤ maxUsable index.capacity then some index.capacity
    else some (config.growCapacity index.capacity)
  else none

/-- A load factor as the quotient of two naturals; outside of (0, 1] it is 31/32. -/
structure Density where
  num : ℕ
  den : ℕ

def Density.honored (density : Density) : Density :=
  if 0 < density.num ∧ density.num ≤ density.den then density else ⟨31, 32⟩

/-- The capacity `reserve_for_density` asks for. -/
def densityCapacity (expectedSize : ℕ) (density : Density) : ℕ :=
  let needed := floorQuotient (toDouble expectedSize * density.honored.den) density.honored.num
  roundUpToGroup (max needed expectedSize)

/-! ## Operations -/

/-- A slot index that does not exist is used, or an exception leaves the index as it was. -/
inductive Fault where
  | undefined
  | lengthError
  | logicError
deriving DecidableEq

section Operations

variable (config : Config M) (members : List M) (index : Index)

/-- `member_view`. -/
def view (id : ℕ) : Option M := members[id]?

def rehash (requested : ℕ) : Except Fault Index :=
  if roundUpToGroup requested > 2 ^ 32 - 1 then .error .lengthError
  else
    match rebuild config.scheme (view members) true (roundUpToGroup requested)
        index.fullEntries with
    | some rebuilt => .ok rebuilt
    | none => .error .undefined

def resize (target : Option ℕ) : Except Fault Index :=
  match target with
  | some requested => rehash config members index requested
  | none => .ok index

def reserveForDensity (expectedSize : ℕ) (density : Density) : Except Fault Index :=
  if expectedSize = 0 then .ok index
  else rehash config members index (densityCapacity expectedSize density)

/-- A slot is filled with the id of a member. -/
def putMember (slot : ℕ) (member : Option M) (id : ℕ) : Index :=
  index.put config.scheme (fun _ ↦ member) slot id

/-- The count of deleted cells is left as it is, also when a deleted cell is filled. -/
def insertPacked (member : Option M) (id : ℕ) : Except Fault Index :=
  match index.findInsertIndex config.scheme true member with
  | some slot => .ok { putMember config index slot member id with tombstones := index.tombstones }
  | none => .error .undefined

/-- Nothing happens unless the slot exists and is full. -/
def eraseAtIndex (slot : ℕ) : Index :=
  if slot < index.capacity ∧ (index.fullAt slot).isSome then index.free config.scheme slot
  else index

variable [DecidableEq M]

def findIndex (member : Option M) : Option ℕ :=
  Table.findIndex config.scheme (view members) index member

def find (member : M) : Option ℕ :=
  (findIndex config members index (some member)).bind index.entryAt

/-- The id in the slot of the old id's bytes is replaced, if it is the old id. -/
def moveMemberId (oldId newId : ℕ) : Index × Bool :=
  match findIndex config members index (view members oldId) with
  | some slot =>
    if index.entryAt slot = some oldId then (index.replace slot newId, true) else (index, false)
  | none => (index, false)

def insert (member : M) (id : ℕ) : Except Fault (Index × Bool) := do
  let index ← resize config members index (config.insertTarget index)
  match findIndex config members index (some member) with
  | some _ => pure (index, false)
  | none =>
    match index.findInsertIndex config.scheme true (some member) with
    | some slot => pure (putMember config index slot (some member) id, true)
    | none => throw .undefined

/-- The index after a miss, and whether the member was missing.  The first probe's slot is stale
when making room rebuilds the index. -/
def findOrEmplace (member : M) (id : ℕ) : Except Fault (Index × Bool) := do
  let probe := if index.capacity = 0 then (none, false)
    else index.findOrInsertIndex config.scheme (view members) true (some member)
  if probe.2 then pure (index, false)
  else
    let next ← resize config members index (config.insertTarget index)
    let slot := match config.insertTarget index with
      | some _ =>
        (next.findOrInsertIndex config.scheme (view members) true (some member)).1
      | none => probe.1
    match slot with
    | some slot => pure (putMember config next slot (some member) id, true)
    | none => throw .logicError

end Operations

/-! ## The index over its storage -/

/-- The member storage, by id, and the index over it. -/
structure State (M : Type) where
  members : List M := []
  index : Index := {}

/-- What an owner of an index does: it pushes a member and inserts it, inserts members that are in
the storage, erases a slot, and closes the hole that an erased id leaves by moving the last member
to it. -/
inductive Call (M : Type) where
  | findOrEmplace (member : M)
  | insert (member : M)
  | pushBack (member : M)
  | insertPacked (id : ℕ)
  | eraseAtIndex (slot : ℕ)
  | moveLast (hole : ℕ)
  | reserveForDensity (expectedSize : ℕ) (density : Density)

section Runs

variable [DecidableEq M] (config : Config M)

variable (state : State M)

/-- `copy_ref`, `move_member_id` and `pop_back`. -/
def moveLast (hole : ℕ) : State M :=
  let last := state.members.length - 1
  if hole = last then { state with members := state.members.dropLast }
  else
    match state.members[last]? with
    | some member =>
      let members := state.members.set hole member
      { members := members.dropLast
        index := (moveMemberId config members state.index last hole).1 }
    | none => state

def step : Call M → Except Fault (State M)
  | .findOrEmplace member => do
    let result ← findOrEmplace config state.members state.index member state.members.length
    pure { members := if result.2 then state.members ++ [member] else state.members
           index := result.1 }
  | .insert member => do
    let members := state.members ++ [member]
    let result ← insert config members state.index member state.members.length
    pure { members := members, index := result.1 }
  | .pushBack member => pure { state with members := state.members ++ [member] }
  | .insertPacked id => do
    let index ← insertPacked config state.index (view state.members id) id
    pure { state with index := index }
  | .eraseAtIndex slot => pure { state with index := eraseAtIndex config state.index slot }
  | .moveLast hole => pure (moveLast config state hole)
  | .reserveForDensity expectedSize density => do
    let index ← reserveForDensity config state.members state.index expectedSize density
    pure { state with index := index }

/-- A call that throws leaves the state as it was. -/
def run : State M → List (Call M) → Option (State M)
  | state, [] => some state
  | state, call :: calls =>
    match step config state call with
    | .ok next => run next calls
    | .error .undefined => none
    | .error _ => run state calls

/-- What a call does to the map from members to ids. -/
def Call.apply (map : M → Option ℕ) : Call M → M → Option ℕ
  | .findOrEmplace member | .insert member =>
    if (map member).isSome then map
    else update map member (some state.members.length)
  | .pushBack _ => map
  | .insertPacked id =>
    match state.members[id]? with
    | some member => update map member (some id)
    | none => map
  | .eraseAtIndex slot =>
    match (state.index.fullAt slot).bind (view state.members) with
    | some member => update map member none
    | none => map
  | .moveLast hole =>
    match state.members[state.members.length - 1]? with
    | some member =>
      if map member = some (state.members.length - 1) then
        update map member (some hole)
      else map
    | none => map
  | .reserveForDensity _ _ => map

/-- What the callers have to see to: `insert_packed` is for a stored member that the index does not
have, with a slot left; a hole is of an id that is not in the index; and a reservation is for as
many members as there are. -/
def Permitted : Call M → Prop
  | .insertPacked id => (view state.members id).isSome ∧
    findIndex config state.members state.index (view state.members id) = none ∧
    state.index.size < state.index.capacity
  | .moveLast hole => hole < state.members.length ∧ hole ∉ state.index.fullEntries
  | .reserveForDensity expectedSize _ => expectedSize = 0 ∨ state.index.size ≤ expectedSize
  | _ => True

instance (state : State M) (call : Call M) : Decidable (Permitted config state call) :=
  match call with
  | .insertPacked _ => inferInstanceAs (Decidable (_ ∧ _ ∧ _))
  | .moveLast _ => inferInstanceAs (Decidable (_ ∧ _))
  | .reserveForDensity _ _ => inferInstanceAs (Decidable (_ ∨ _))
  | .findOrEmplace _ | .insert _ | .pushBack _ | .eraseAtIndex _ => .isTrue trivial

/-- The state in which the next call finds the index. -/
def after (call : Call M) : State M :=
  match step config state call with
  | .ok next => next
  | .error _ => state

def PermittedRun : State M → List (Call M) → Prop
  | _, [] => True
  | state, call :: calls =>
    Permitted config state call ∧ PermittedRun (after config state call) calls

instance decidablePermittedRun :
    (state : State M) → (calls : List (Call M)) → Decidable (PermittedRun config state calls)
  | _, [] => .isTrue trivial
  | state, call :: calls =>
    have := decidablePermittedRun (after config state call) calls
    inferInstanceAs (Decidable (_ ∧ _))

/-- The map after a run, of which the calls that throw change nothing. -/
def runMap : State M → (M → Option ℕ) → List (Call M) → M → Option ℕ
  | _, map, [] => map
  | state, map, call :: calls =>
    match step config state call with
    | .ok _ => runMap (after config state call) (call.apply state map) calls
    | .error _ => runMap (after config state call) map calls

/-- Looking up members in the index is the map, and the ids are the members' positions. -/
structure Refines (state : State M) (map : M → Option ℕ) : Prop where
  find_eq : ∀ member, find config state.members state.index member = map member
  stored : ∀ member id, map member = some id → state.members[id]? = some member
  size_eq : state.index.size = {member | (map member).isSome}.ncard

end Runs

/-! ## Capacities have room -/

theorem le_roundUpToGroup (value : ℕ) : value ≤ roundUpToGroup value := by
  unfold roundUpToGroup
  split <;> omega

theorem dvd_roundUpToGroup {value : ℕ} : 16 ∣ roundUpToGroup value := by
  unfold roundUpToGroup
  split
  · exact dvd_refl 16
  · exact Nat.dvd_mul_left 16 _

theorem Config.lt_growCapacity (config : Config M) (capacity : ℕ) :
    capacity < config.growCapacity capacity := by
  unfold Config.growCapacity
  dsimp only
  split <;> omega

theorem le_densityCapacity {expectedSize : ℕ} {density : Density} :
    expectedSize ≤ densityCapacity expectedSize density :=
  (le_max_right _ _).trans (le_roundUpToGroup _)

variable {config : Config M} {index : Index}

theorem insertTarget_room {requested : ℕ} (hsize : index.size ≤ index.capacity)
    (h : config.insertTarget index = some requested) :
    index.size + 1 ≤ roundUpToGroup requested := by
  refine le_trans ?_ (le_roundUpToGroup requested)
  have hgrow := config.lt_growCapacity index.capacity
  unfold Config.insertTarget maxUsable at h
  split_ifs at h with hzero hfull hsame
  all_goals
    cases h
    omega

theorem insertTarget_none (h : config.insertTarget index = none) : index.size < index.capacity := by
  unfold Config.insertTarget maxUsable at h
  split_ifs at h with hzero hfull
  omega

/-! ## The index holds a map -/

/-- The index over this storage is sound and holds the map. -/
structure Represents (config : Config M) (members : List M) (index : Index)
    (map : M → Option ℕ) : Prop where
  sound : Sound config.scheme (view members) index
  holds : Holds (view members) index.entries fun member ↦ member.bind map

section Represents

variable {config : Config M} {members : List M} {index next : Index} {map : M → Option ℕ}
  {member : M} {id slot : ℕ}

section

variable (h : Represents config members index map)
include h

theorem Represents.mem_entries :
    map member = some id ↔ id ∈ index.entries ∧ members[id]? = some member :=
  h.holds (some member) id

/-- The index knows only ids that the storage has. -/
theorem Represents.stored (hid : id ∈ index.entries) :
    ∃ member, members[id]? = some member ∧ map member = some id := by
  cases hview : members[id]? with
  | none =>
    have hnone := (h.holds none id).mpr ⟨hid, hview⟩
    cases hnone
  | some member => exact ⟨member, rfl, h.mem_entries.mpr ⟨hid, hview⟩⟩

theorem Represents.id_lt (hid : id ∈ index.entries) : id < members.length := by
  obtain ⟨member, hmember, -⟩ := h.stored hid
  exact (List.getElem?_eq_some_iff.mp hmember).1

/-- Storage that reads the same for the ids of the index. -/
theorem Represents.congr_members {stored : List M}
    (hsame : ∀ id ∈ index.entries, stored[id]? = members[id]?) :
    Represents config stored index map :=
  ⟨h.sound.congr_key hsame, h.holds.congr_key hsame⟩

theorem Represents.push (member : M) : Represents config (members ++ [member]) index map :=
  h.congr_members fun _ hid ↦ getElem?_append_left (h.id_lt hid)

theorem Represents.size_le : index.size ≤ index.capacity := by
  rw [h.sound.size_eq]
  exact h.sound.length_entries_le

/-- A rebuild with room keeps the map, unless the capacity is beyond what an index may have. -/
theorem rehash_cases {requested : ℕ} (hroom : index.size ≤ roundUpToGroup requested) :
    rehash config members index requested = .error .lengthError ∨
      ∃ next, rehash config members index requested = .ok next ∧
        Represents config members next map ∧ next.size = index.size ∧
        next.capacity = roundUpToGroup requested := by
  unfold rehash
  split_ifs with hlong
  · exact .inl rfl
  have hbuilt := (rebuild_isSome_iff true
    (show config.scheme.width ∣ _ from dvd_roundUpToGroup) h.sound.nodup).mpr
    (by rw [← h.sound.size_eq]; exact hroom)
  obtain ⟨next, hnext⟩ := Option.isSome_iff_exists.mp hbuilt
  obtain ⟨hsound, hperm, hcap, -⟩ :=
    rebuild_some (show config.scheme.width ∣ _ from dvd_roundUpToGroup) h.sound.nodup hnext
  refine .inr ⟨next, ?_, ⟨hsound, h.holds.perm hperm⟩, ?_, hcap⟩
  · rw [h.sound.fullEntries_eq, hnext]
  · rw [hsound.size_eq, hperm.length_eq, h.sound.size_eq]

/-- Making room for an insertion makes room. -/
theorem resize_cases :
    resize config members index (config.insertTarget index) = .error .lengthError ∨
      ∃ next, resize config members index (config.insertTarget index) = .ok next ∧
        Represents config members next map ∧ next.entries.length < next.capacity := by
  cases htgt : config.insertTarget index with
  | none =>
    refine .inr ⟨index, rfl, h, ?_⟩
    rw [← h.sound.size_eq]
    exact insertTarget_none htgt
  | some requested =>
    have hroom := insertTarget_room h.size_le htgt
    rcases rehash_cases h (Nat.le_of_succ_le hroom) with hlong | ⟨next, hok, hnext, hsize, hcap⟩
    · exact .inl hlong
    · refine .inr ⟨next, hok, hnext, ?_⟩
      rw [← hnext.sound.size_eq, hsize, hcap]
      exact hroom

end

variable [DecidableEq M]

theorem bind_update (id : Option ℕ) :
    (fun wanted : Option M ↦ wanted.bind (update map member id))
      = update (fun wanted : Option M ↦ wanted.bind map) (some member) id := by
  funext wanted
  cases wanted with
  | none => rfl
  | some other =>
    by_cases heq : other = member
    · subst heq
      simp
    · rw [update_of_ne (by simpa using heq)]
      exact update_of_ne heq _ _

section

variable (h : Represents config members index map)
include h

theorem Represents.find_eq (member : M) : find config members index member = map member :=
  h.sound.find_eq h.holds (some member)

theorem Represents.findIndex_eq_none (hmember : map member = none) :
    findIndex config members index (some member) = none :=
  h.sound.findIndex_eq_none h.holds hmember

theorem Represents.findIndex_eq_some (hmember : (map member).isSome = true) :
    ∃ slot, findIndex config members index (some member) = some slot :=
  h.sound.exists_findIndex h.holds hmember

/-- A missing member that the storage has is put in a slot that a probe found free. -/
theorem Represents.put (hmember : map member = none) (hstored : members[id]? = some member)
    (hslot : index.findInsertIndex config.scheme true (some member) = some slot) :
    Represents config members (putMember config index slot (some member) id)
      (update map member (some id)) := by
  have hput : putMember config index slot (some member) id
      = index.put config.scheme (view members) slot id := by
    rw [putMember, Table.put, Table.put, view, hstored]
  rw [← hstored] at hslot
  have hheld := h.sound.put_holds h.holds (by rw [view, hstored]; exact hmember) hslot
  rw [hput]
  exact ⟨hheld.1, by rw [bind_update, ← hstored]; exact hheld.2⟩

theorem Represents.free (hslot : index.slots[slot]? = some (some id))
    (hstored : members[id]? = some member) :
    Represents config members (index.free config.scheme slot) (update map member none) := by
  have hfree := h.sound.free_holds h.holds hslot
  exact ⟨hfree.1, by rw [bind_update, ← hstored]; exact hfree.2⟩

theorem eraseAtIndex_represents (slot : ℕ) :
    Represents config members (eraseAtIndex config index slot)
      (match (index.fullAt slot).bind (view members) with
        | some member => update map member none
        | none => map) := by
  rw [eraseAtIndex, h.sound.fullAt_eq]
  cases hent : index.entryAt slot with
  | none => simpa using h
  | some id =>
    have hslot := Option.join_eq_some_iff.mp hent
    obtain ⟨member, hmember, -⟩ := h.stored (mem_entries.mpr ⟨slot, hslot⟩)
    rw [if_pos ⟨h.sound.lt_capacity hslot, rfl⟩, Option.bind_some, view, hmember]
    exact h.free hslot hmember

/-! ## Closing a hole -/

/-- Moving the last id to a hole that no entry has, when the hole already has its bytes. -/
theorem moveMemberId_represents {last hole : ℕ} (hlast : last + 1 = members.length)
    (hstored : members[last]? = some member) (hhole : members[hole]? = some member)
    (hne : hole ≠ last) :
    Represents config members.dropLast (moveMemberId config members index last hole).1
      (if map member = some last then update map member (some hole) else map) := by
  have hdrop : ∀ id, id ≠ last → id < members.length → members.dropLast[id]? = members[id]? := by
    intro id hid hlt
    rw [getElem?_dropLast, if_pos (by omega)]
  by_cases hlive : map member = some last
  · obtain ⟨hent, -⟩ := h.mem_entries.mp hlive
    obtain ⟨slot, hslot⟩ := mem_entries.mp hent
    have hfind : findIndex config members index (view members last) = some slot :=
      h.sound.findIndex_eq_some_iff.mpr ⟨last, hslot, rfl⟩
    have hat : index.entryAt slot = some last := by
      rw [entryAt, hslot]
      rfl
    have hperm : index.entries.Perm (last :: (index.free config.scheme slot).entries) :=
      entries_free hslot
    have hnd : index.entries.Nodup := List.Nodup.of_map _ h.sound.nodup
    rw [hperm.nodup_iff, nodup_cons] at hnd
    -- the other ids are below the last position and are not the hole
    have hoths : ∀ other ∈ (index.free config.scheme slot).entries,
        view members.dropLast other = view members other := by
      intro other hoth
      have hmem : other ∈ index.entries := hperm.mem_iff.mpr (mem_cons_of_mem _ hoth)
      exact hdrop other (fun heq ↦ hnd.1 (heq ▸ hoth)) (h.id_lt hmem)
    have hnew : view members.dropLast hole = view members last := by
      rw [view, view, hdrop hole hne (List.getElem?_eq_some_iff.mp hhole).1, hhole, hstored]
    obtain ⟨hsound, hholds⟩ := h.sound.replace_holds h.holds hslot hnew hoths
    rw [moveMemberId, hfind]
    simp only [hat, if_true, hlive]
    exact ⟨hsound, by rw [bind_update, ← hstored]; exact hholds⟩
  · have hnotlast : last ∉ index.entries := fun hmem ↦ hlive (h.mem_entries.mpr ⟨hmem, hstored⟩)
    have hsame : (moveMemberId config members index last hole).1 = index := by
      unfold moveMemberId
      split
      · rename_i slot hfind
        obtain ⟨id, hslot, -⟩ := h.sound.findIndex_eq_some_iff.mp hfind
        have hat : index.entryAt slot = some id := by
          rw [entryAt, hslot]
          rfl
        have hid : id ≠ last := fun heq ↦ hnotlast (heq ▸ mem_entries.mpr ⟨slot, hslot⟩)
        rw [hat, if_neg (by simpa using hid)]
      · rfl
    rw [hsame, if_neg hlive]
    exact h.congr_members fun id hid ↦
      hdrop id (fun heq ↦ hnotlast (heq ▸ hid)) (h.id_lt hid)

end

variable {state : State M}

theorem moveLast_represents {hole : ℕ} (h : Represents config state.members state.index map)
    (hhole : hole < state.members.length) (hfree : hole ∉ state.index.entries) :
    Represents config (moveLast config state hole).members (moveLast config state hole).index
      ((Call.moveLast hole).apply state map) := by
  obtain ⟨member, hmember⟩ : ∃ member, state.members[state.members.length - 1]? = some member :=
    ⟨_, getElem?_eq_getElem (by omega)⟩
  have happly : (Call.moveLast hole).apply state map
      = if map member = some (state.members.length - 1) then
          update map member (some hole) else map := by
    rw [Call.apply, hmember]
  rw [happly, moveLast]
  by_cases hlast : hole = state.members.length - 1
  · rw [if_pos hlast, if_neg fun hlive ↦ hfree (hlast ▸ (h.mem_entries.mp hlive).1)]
    refine h.congr_members fun id hid ↦ ?_
    have hlt := h.id_lt hid
    have hne : id ≠ hole := fun heq ↦ hfree (heq ▸ hid)
    rw [getElem?_dropLast, if_pos (by omega)]
  · rw [if_neg hlast, hmember]
    have hcopied : Represents config (state.members.set hole member) state.index map :=
      h.congr_members fun id hid ↦
        getElem?_set_ne fun heq : hole = id ↦ hfree (heq ▸ hid)
    refine moveMemberId_represents hcopied ?_ ?_ (getElem?_set_self hhole) hlast
    · rw [length_set]
      omega
    · rw [getElem?_set_ne hlast, hmember]

/-! ## Inserting -/

section

variable (h : Represents config members index map)
include h

omit [DecidableEq M] in
/-- The slot that a probe finds once there is room. -/
theorem Represents.exists_slot {wanted : Option M} (hroom : index.entries.length < index.capacity) :
    ∃ slot, index.findInsertIndex config.scheme true wanted = some slot :=
  Option.isSome_iff_exists.mp (h.sound.findInsertIndex_isSome_of_room hroom (.inl rfl))

theorem insert_cases (hstored : members[id]? = some member) :
    insert config members index member id = .error .lengthError ∨
      ∃ next inserted, insert config members index member id = .ok (next, inserted) ∧
        Represents config members next
          (if (map member).isSome then map else update map member (some id)) := by
  rcases resize_cases h with hlong | ⟨next, hok, hnext, hroom⟩
  · refine .inl ?_
    rw [insert, hlong]
    rfl
  · refine .inr ?_
    rw [insert, hok]
    cases hmember : map member with
    | some stored =>
      obtain ⟨slot, hslot⟩ : ∃ slot, findIndex config members next (some member) = some slot :=
        hnext.findIndex_eq_some (by rw [hmember]; rfl)
      refine ⟨next, false, ?_, hnext⟩
      change (match findIndex config members next (some member) with | some _ => _ | none => _) = _
      rw [hslot]
      rfl
    | none =>
      obtain ⟨slot, hslot⟩ := hnext.exists_slot hroom
      refine ⟨putMember config next slot (some member) id, true, ?_,
        hnext.put hmember hstored hslot⟩
      change (match findIndex config members next (some member) with | some _ => _ | none => _) = _
      rw [hnext.findIndex_eq_none hmember]
      rw [hslot]
      rfl

/-- A probe for a missing member returns the slot to insert it in. -/
theorem Represents.findOrInsertIndex_eq (hmember : map member = none) :
    index.findOrInsertIndex config.scheme (view members) true (some member)
      = (index.findInsertIndex config.scheme true (some member), false) := by
  rw [Table.findOrInsertIndex_eq, show Table.findIndex config.scheme (view members) index
    (some member) = none from h.findIndex_eq_none hmember]

theorem findOrEmplace_found (hmember : (map member).isSome = true) :
    findOrEmplace config members index member id = .ok (index, false) := by
  obtain ⟨slot, hslot⟩ := h.findIndex_eq_some hmember
  have hcap : index.capacity ≠ 0 := by
    intro hzero
    rw [findIndex, Table.findIndex, if_pos hzero] at hslot
    cases hslot
  have hprobe : index.findOrInsertIndex config.scheme (view members) true (some member)
      = (some slot, true) := by
    rw [findOrInsertIndex_eq, show Table.findIndex config.scheme (view members) index
      (some member) = some slot from hslot]
  simp only [findOrEmplace, if_neg hcap, hprobe]
  rfl

end

theorem findOrEmplace_missing (id : ℕ) (h : Represents config members index map)
    (hmember : map member = none) :
    findOrEmplace config members index member id = .error .lengthError ∨
      ∃ next slot, findOrEmplace config members index member id
          = .ok (putMember config next slot (some member) id, true) ∧
        Represents config members next map ∧
        next.findInsertIndex config.scheme true (some member) = some slot := by
  have hprobe : (if index.capacity = 0 then (none, false)
      else index.findOrInsertIndex config.scheme (view members) true (some member))
        = (index.findInsertIndex config.scheme true (some member), false) := by
    split
    · rename_i hzero
      rw [Table.findInsertIndex, hzero, Nat.zero_div]
      rfl
    · exact h.findOrInsertIndex_eq hmember
  rcases resize_cases h with hlong | ⟨next, hok, hnext, hroom⟩
  · refine .inl ?_
    simp only [findOrEmplace, hprobe, hlong]
    rfl
  · obtain ⟨slot, hslot⟩ := hnext.exists_slot hroom
    refine .inr ⟨next, slot, ?_, hnext, hslot⟩
    simp only [findOrEmplace, hprobe, hok]
    cases htgt : config.insertTarget index with
    | some requested =>
      change (match (next.findOrInsertIndex config.scheme (view members) true (some member)).1 with
        | some _ => _ | none => _) = _
      rw [hnext.findOrInsertIndex_eq hmember, hslot]
      rfl
    | none =>
      rw [htgt] at hok
      obtain rfl : index = next := Except.ok.inj hok
      simp only [hslot]
      rfl

/-! ## Runs -/

/-- What one call does. -/
theorem step_cases (h : Represents config state.members state.index map) {call : Call M}
    (hper : Permitted config state call) :
    step config state call = .error .lengthError ∨
      ∃ next, step config state call = .ok next ∧
        Represents config next.members next.index (call.apply state map) := by
  cases call with
  | findOrEmplace member =>
    cases hmember : map member with
    | some stored =>
      have hsome : (map member).isSome = true := by rw [hmember]; rfl
      refine .inr ⟨state, ?_, ?_⟩
      · rw [step, findOrEmplace_found h hsome]
        rfl
      · rw [Call.apply, if_pos hsome]
        exact h
    | none =>
      rcases findOrEmplace_missing state.members.length h hmember with
        hlong | ⟨next, slot, hok, hnext, hslot⟩
      · refine .inl ?_
        rw [step, hlong]
        rfl
      · refine .inr ⟨⟨state.members ++ [member],
          putMember config next slot (some member) state.members.length⟩, ?_, ?_⟩
        · rw [step, hok]
          rfl
        · rw [Call.apply, hmember]
          exact (hnext.push member).put hmember (by simp) hslot
  | insert member =>
    have hstored : (state.members ++ [member])[state.members.length]? = some member := by simp
    rcases insert_cases (h.push member) hstored with hlong | ⟨next, inserted, hok, hnext⟩
    · refine .inl ?_
      simp only [step, hlong]
      rfl
    · refine .inr ⟨{ members := state.members ++ [member], index := next }, ?_, hnext⟩
      simp only [step, hok]
      rfl
  | pushBack member => exact .inr ⟨_, rfl, h.push member⟩
  | insertPacked id =>
    obtain ⟨hstored, habsent, hroom⟩ := hper
    obtain ⟨member, hmember⟩ := Option.isSome_iff_exists.mp hstored
    have hnone : map member = none := by
      rw [← h.find_eq member, find, ← hmember, habsent]
      rfl
    rw [h.sound.size_eq] at hroom
    obtain ⟨slot, hslot⟩ := h.exists_slot hroom
    have hput := h.put hnone hmember hslot
    have happly : (Call.insertPacked id).apply state map = update map member (some id) := by
      rw [Call.apply, show state.members[id]? = some member from hmember]
    refine .inr ⟨⟨state.members, { putMember config state.index slot (some member) id with
      tombstones := state.index.tombstones }⟩, ?_, ?_⟩
    · rw [step, insertPacked, hmember, hslot]
      rfl
    rw [happly]
    refine ⟨hput.sound.of_tombstones ?_, hput.holds⟩
    change (if _ then _ else _) ≤ _
    split
    · exact Nat.sub_le _ _
    · exact le_refl _
  | eraseAtIndex slot => exact .inr ⟨_, rfl, eraseAtIndex_represents h slot⟩
  | moveLast hole =>
    refine .inr ⟨_, rfl, moveLast_represents h hper.1 ?_⟩
    rw [← h.sound.fullEntries_eq]
    exact hper.2
  | reserveForDensity expectedSize density =>
    by_cases hzero : expectedSize = 0
    · refine .inr ⟨state, ?_, h⟩
      rw [step, reserveForDensity, if_pos hzero]
      rfl
    · have hroom : state.index.size ≤ roundUpToGroup (densityCapacity expectedSize density) :=
        (hper.resolve_left hzero).trans (le_densityCapacity.trans (le_roundUpToGroup _))
      rcases rehash_cases h hroom with hlong | ⟨next, hok, hnext, -⟩
      · refine .inl ?_
        rw [step, reserveForDensity, if_neg hzero, hlong]
        rfl
      · refine .inr ⟨{ state with index := next }, ?_, hnext⟩
        rw [step, reserveForDensity, if_neg hzero, hok]
        rfl

theorem run_represents (h : Represents config state.members state.index map) (calls : List (Call M))
    (hper : PermittedRun config state calls) :
    ∃ result, run config state calls = some result ∧
      Represents config result.members result.index (runMap config state map calls) := by
  induction calls generalizing state map with
  | nil => exact ⟨state, rfl, h⟩
  | cons call calls ih =>
    obtain ⟨hcall, hcalls⟩ := hper
    rw [run, runMap]
    rcases step_cases h hcall with hlong | ⟨next, hok, hnext⟩
    · have haft : after config state call = state := by rw [after, hlong]
      rw [haft] at hcalls ⊢
      simp only [hlong]
      exact ih h hcalls
    · have haft : after config state call = next := by rw [after, hok]
      rw [haft] at hcalls ⊢
      simp only [hok]
      exact ih hnext hcalls

theorem Represents.refines
    (h : Represents config state.members state.index map) : Refines config state map where
  find_eq := h.find_eq
  stored := fun _ _ hid ↦ (h.mem_entries.mp hid).2
  size_eq := by
    have hkeys : {wanted : Option M | (wanted.bind map).isSome}
        = Set.image some {member | (map member).isSome} := by
      ext wanted
      cases wanted <;> simp
    rw [h.sound.size_eq, ← h.holds.ncard_keys h.sound.nodup, hkeys,
      Set.ncard_image_of_injective _ (Option.some_injective M)]

end Represents

/-- Over every run in which the callers keep to what `insert_packed`, `reserve_for_density` and the
closing of holes ask of them, the index is the map from the live members to their ids. -/
theorem run_refines_storage [DecidableEq M] (config : Config M) (calls : List (Call M))
    (hpermitted : PermittedRun config {} calls) :
    ∃ state, run config {} calls = some state ∧
      Refines config state (runMap config {} (fun _ ↦ none) calls) := by
  have hnew : Represents config ([] : List M) {} (fun _ ↦ none) :=
    ⟨sound_new, fun member id ↦ by cases member <;> simp [entries]⟩
  obtain ⟨state, hrun, hstate⟩ :
      ∃ state, run config {} calls = some state ∧ Represents config state.members state.index
        (runMap config {} (fun _ ↦ none) calls) := run_represents hnew calls hpermitted
  exact ⟨state, hrun, hstate.refines⟩

/-- Members that are numbers, spread by their lower digits. -/
def numbers : Config ℕ where
  hash member := UInt64.ofNat (member * 2 ^ 28)
  growthNum := 5
  growthDen := 4

/-- Three members, of which the first is erased and the last moved to its id. -/
def removal : List (Call ℕ) :=
  [.findOrEmplace 1, .insert 2, .pushBack 3, .insertPacked 2, .eraseAtIndex 1, .moveLast 0,
    .reserveForDensity 5 ⟨1, 1⟩]

theorem run_refines_storage_removal : PermittedRun numbers {} removal ∧
    ∃ state, run numbers {} removal = some state ∧
      Refines numbers state (runMap numbers {} (fun _ ↦ none) removal) :=
  ⟨by decide +kernel, run_refines_storage numbers removal (by decide +kernel)⟩

/-- Nothing is reserved for a member inserted without a check. -/
theorem insertPacked_unreserved :
    ¬∀ calls : List (Call ℕ), ∃ state, run numbers {} calls = some state ∧
      Refines numbers state (runMap numbers {} (fun _ ↦ none) calls) := by
  intro hall
  obtain ⟨state, hstate, -⟩ := hall [.pushBack 1, .insertPacked 0]
  have hnone : run numbers {} [.pushBack 1, .insertPacked 0] = none := by decide +kernel
  cases hstate

end GoblinCore.MemberIndex
