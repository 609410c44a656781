import GoblinCore.Foundation.CopyOnWrite
import GoblinCore.Store.Removal
import Mathlib.Data.Set.Card
import GoblinCore.Values.ZSetValue

/-!
# Sorted sets in their two representations

A small sorted set is one packed blob.  A full one has a member layer, which several keys may
share until one of them writes, and a score index of its own.  A step of `ZSet::add` changes the
map of its own key and no other, in either representation and however the layers are shared.

The byte arenas are left out: running out of the room in one is a request that is refused, with a
`length_error`.
-/

namespace GoblinCore

open Refusable MemoryLimit CopyOnWrite Function Comp List
open Option hiding get_bind pure_apply

/-- A sorted set as a client reads it. -/
abbrev ZMap (σ : Type) := Bytes → Option σ

variable {σ : Type}

def ZMap.enter (map : ZMap σ) (entry : Σ _ : Bytes, σ) : ZMap σ :=
  update map entry.1 (some entry.2)

/-- The members of a map. -/
def ZMap.members (map : ZMap σ) : Set Bytes := {member | map member ≠ none}

@[simp] theorem ZMap.mem_members {map : ZMap σ} {member : Bytes} :
    member ∈ map.members ↔ map member ≠ none := Iff.rfl

theorem ZMap.members_update (map : ZMap σ) (member : Bytes) (score : σ) :
    members (update map member (some score)) = insert member map.members := by
  ext other
  by_cases hother : other = member
  · simp [hother]
  · simp [hother]

theorem ZMap.ncard_members_update_le (map : ZMap σ) (member : Bytes) (score : σ) :
    (members (update map member (some score))).ncard ≤ map.members.ncard + 1 := by
  rw [members_update]
  exact Set.ncard_insert_le member _

namespace Scores

def map (scores : Scores σ) : ZMap σ := fun member ↦ scores.lookup member

@[simp] theorem map_empty : (∅ : Scores σ).map = fun _ ↦ none := rfl

@[simp] theorem map_insert (scores : Scores σ) (member : Bytes) (score : σ) :
    map (scores.insert member score) = update scores.map member (some score) := by
  funext other
  by_cases hoth : other = member
  · subst other
    simp [map]
  · simp [map, hoth]

theorem length_keys (scores : Scores σ) : scores.keys.length = scores.map.members.ncard := by
  have hmembers : scores.map.members = (⟨scores.keys, scores.keys_nodup⟩ : Finset Bytes) := by
    ext member
    rw [ZMap.mem_members, map, ← isSome_iff_ne_none, AList.lookup_isSome, AList.mem_keys]
    rfl
  rw [hmembers, Set.ncard_coe_finset]
  rfl

/-- Inserting entries one after the other gives the map that looks them up. -/
theorem foldl_update_entries {entries : List (Σ _ : Bytes, σ)} (hnd : entries.NodupKeys)
    (map : ZMap σ) (member : Bytes) :
    entries.foldl ZMap.enter map member = (entries.dlookup member).or (map member) := by
  induction entries generalizing map with
  | nil => rfl
  | cons entry rest ih =>
    rcases entry with ⟨first, score⟩
    rcases nodupKeys_cons.mp hnd with ⟨hfresh, hrest⟩
    rw [foldl_cons, ih hrest, ZMap.enter]
    by_cases hmember : first = member
    · subst hmember
      have hnone := dlookup_eq_none.mpr hfresh
      rw [dlookup_cons_eq, hnone, update_self, none_or, some_or]
    · rw [dlookup_cons_ne _ _ (Ne.symm hmember), update_of_ne (Ne.symm hmember)]

theorem foldl_update_scores (scores : Scores σ) :
    scores.entries.foldl ZMap.enter (fun _ ↦ none) = scores.map := by
  funext member
  rw [foldl_update_entries scores.nodupKeys, or_none]
  rfl

end Scores

/-! ## Representations -/

/-- A small sorted set: its entries and the width of the scores in bytes. -/
structure CompactListpack (σ : Type) where
  scores : Scores σ
  width : ℕ
  fits : ∀ member ∈ scores, member.length ≤ 128 + 0x7FFF
  count_le : scores.keys.length ≤ 0xFFFF

namespace CompactListpack

def maxMemberLen : ℕ := 128 + 0x7FFF

def maxBlobBytes : ℕ := 0xFFFF

def wireHeaderBytes : ℕ := 4

def lenSize (memberLen : ℕ) : ℕ := if memberLen ≤ 128 then 1 else 2

def elementSize (memberLen width : ℕ) : ℕ := 2 * lenSize memberLen + width + memberLen

/-- The blob of no entries. -/
def fresh : CompactListpack σ where
  scores := ∅
  width := 2
  fits member hmember := absurd hmember (AList.notMem_empty member)
  count_le := Nat.zero_le _

/-- The bytes of the entries. -/
def len (listpack : CompactListpack σ) : ℕ :=
  (listpack.scores.keys.map fun member ↦ elementSize member.length listpack.width).sum

/-- `CompactListpack::add` refuses and asks for the full representation. -/
def needsFull [Score σ] (maxEntries : ℕ) (score : σ) (member : Bytes)
    (listpack : CompactListpack σ) : Bool :=
  let target := max listpack.width (Score.width score)
  let count := listpack.scores.keys.length
  let found := (listpack.scores.lookup member).isSome
  let projected := listpack.len + count * (target - listpack.width) +
    if found then 0 else elementSize member.length target
  member.isEmpty || maxMemberLen < member.length ||
    maxBlobBytes < wireHeaderBytes + projected || (!found && maxEntries < count + 1)

theorem length_le_of_needsFull [Score σ] {maxEntries : ℕ} {score : σ} {member : Bytes}
    {listpack : CompactListpack σ} (h : ¬listpack.needsFull maxEntries score member = true) :
    member.length ≤ maxMemberLen := by
  by_contra hlong
  exact h (by simp [needsFull, Nat.lt_of_not_le hlong])

/-- A blob has at least two bytes for each entry. -/
theorem length_keys_le_len (listpack : CompactListpack σ) :
    listpack.scores.keys.length ≤ listpack.len := by
  unfold len
  induction listpack.scores.keys with
  | nil => exact Nat.zero_le _
  | cons member rest ih =>
    have hsize : 1 ≤ elementSize member.length listpack.width := by
      unfold elementSize lenSize
      split <;> omega
    rw [length_cons, map_cons, sum_cons]
    omega

theorem count_lt_of_needsFull [Score σ] {maxEntries : ℕ} {score : σ} {member : Bytes}
    {listpack : CompactListpack σ} (h : ¬listpack.needsFull maxEntries score member = true)
    (hnew : member ∉ listpack.scores) : listpack.scores.keys.length < 0xFFFF := by
  have hlen := listpack.length_keys_le_len
  have hfits : ¬maxBlobBytes < wireHeaderBytes + (listpack.len + listpack.scores.keys.length *
      (max listpack.width (Score.width score) - listpack.width) +
        elementSize member.length (max listpack.width (Score.width score))) := by
    intro hlarge
    apply h
    simp [needsFull, AList.lookup_eq_none.mpr hnew, hlarge]
  unfold wireHeaderBytes maxBlobBytes at hfits
  omega

def insert [Score σ] (maxEntries : ℕ) (score : σ) (member : Bytes) (listpack : CompactListpack σ)
    (hfits : ¬listpack.needsFull maxEntries score member = true) : CompactListpack σ where
  scores := listpack.scores.insert member score
  width := max listpack.width (Score.width score)
  fits other hother := by
    rcases (AList.mem_insert _).mp hother with heq | hold
    · exact heq ▸ length_le_of_needsFull hfits
    · exact listpack.fits other hold
  count_le := by
    rw [Scores.length_keys, Scores.map_insert]
    by_cases hnew : member ∈ listpack.scores
    · have hknown : member ∈ listpack.scores.map.members :=
        isSome_iff_ne_none.mp (AList.lookup_isSome.mpr hnew)
      rw [ZMap.members_update, Set.insert_eq_of_mem hknown, ← Scores.length_keys]
      exact listpack.count_le
    · have hcount := count_lt_of_needsFull hfits hnew
      rw [Scores.length_keys] at hcount
      exact (ZMap.ncard_members_update_le _ member score).trans hcount

end CompactListpack

/-- A full sorted set: which member layer it refers to, and its score index. -/
structure FullState (σ : Type) where
  memberLayer : ℕ
  scoreIndex : Scores σ

inductive ZSet (σ : Type) where
  | small (listpack : CompactListpack σ)
  | full (state : FullState σ)

inductive KeyType where
  | string
  | zset
  | hash
  | list
  | set
  | array
  | packedZset
  deriving DecidableEq

/-- The aggregate under a key: a sorted set, or something else. -/
inductive Cell (σ : Type) where
  | zset (value : ZSet σ)
  | other (type : KeyType)

namespace ZSet

/-- `ZSet::empty`; a full sorted set asks its score index. -/
def empty : ZSet σ → Bool
  | .small listpack => listpack.scores.keys.isEmpty
  | .full state => state.scoreIndex.keys.isEmpty

/-- The member layer a sorted set refers to. -/
def layer : ZSet σ → Option ℕ
  | .small _ => none
  | .full state => some state.memberLayer

/-- What the sorted set lists, in the order of its blob or index. -/
def listing : ZSet σ → ZMap σ
  | .small listpack => listpack.scores.map
  | .full state => state.scoreIndex.map

/-- The sorted set stands for `map`; a full one has it in its member layer and its score index. -/
def Represents (value : ZSet σ) (layer : Option (Scores σ)) (map : ZMap σ) : Prop :=
  match value with
  | .small listpack => listpack.scores.map = map
  | .full state => state.scoreIndex.map = map ∧ layer.map Scores.map = some map

theorem Represents.listing {value : ZSet σ} {layer : Option (Scores σ)} {map : ZMap σ}
    (h : value.Represents layer map) : value.listing = map := by
  cases value with
  | small listpack => exact h
  | full state => exact h.1

theorem empty_iff (value : ZSet σ) : value.empty = true ↔ value.listing = fun _ ↦ none := by
  have hkeys (scores : Scores σ) : scores.keys.isEmpty = true ↔ scores.map = fun _ ↦ none := by
    rw [List.isEmpty_iff]
    constructor
    · intro hnil
      funext member
      apply AList.lookup_eq_none.mpr
      rw [AList.mem_keys, hnil]
      exact not_mem_nil
    · intro hnone
      apply eq_nil_iff_forall_not_mem.mpr
      intro member hmember
      exact AList.lookup_eq_none.mp (congrFun hnone member) (AList.mem_keys.mpr hmember)
  cases value with
  | small listpack => exact hkeys listpack.scores
  | full state => exact hkeys state.scoreIndex

end ZSet

instance : Aggregate (Cell σ) where
  empty
    | .zset value => value.empty
    | .other _ => false

/-- A store and the member layers of its sorted sets. -/
structure ZSetStore (σ : Type) where
  store : Store (Cell σ) := {}
  layers : List (Scores σ) := []

namespace ZSetStore

variable (s : ZSetStore σ)

/-- The sorted set at a key id. -/
def zsetAt (id : ℕ) : Option (ZSet σ) :=
  match s.store.keyspace.entries[id]? with
  | some (_, .aggregate (.zset value)) => some value
  | _ => none

def entryLayer (entry : Bytes × Object (Cell σ)) : Option ℕ :=
  match entry.2 with
  | .aggregate (.zset value) => value.layer
  | _ => none

/-- The member layers and who refers to them. -/
def pool : Pool (Scores σ) where
  cells := s.layers
  owners := s.store.keyspace.entries.map entryLayer

/-- Put another sorted set in the place of the one at `id`. -/
def replace (id : ℕ) (value : ZSet σ) (layers : List (Scores σ))
    (s : ZSetStore σ) : ZSetStore σ where
  store :=
    { s.store with keyspace := s.store.keyspace.setObject id (.aggregate (.zset value)) }
  layers := layers

/-- The map of the sorted set at a key id, as lookups read it: a full one looks into its member
layer. -/
def mapAt (id : ℕ) : Option (ZMap σ) :=
  match s.zsetAt id with
  | some (.small listpack) => some listpack.scores.map
  | some (.full _) => (s.pool.read id).map Scores.map
  | none => none

/-- `ZSet::score`. -/
def scoreAt (id : ℕ) (member : Bytes) : Option σ :=
  (s.mapAt id).bind fun map ↦ map member

/-- The map of the sorted set at a key id, as it is listed. -/
def listingAt (id : ℕ) : Option (ZMap σ) := (s.zsetAt id).map ZSet.listing

/-! ## `ZSet::add` -/

/-- `ZSetMemberStorage::kMaxMemberBytes`. -/
def maxMemberBytes : ℕ := 65535

/-- The member ids of one sorted set. -/
def maxMembers : ℕ := 2 ^ 32 - 1

/-- Copy the member layer of a sorted set into one of its own. -/
def cloneLayer (id : ℕ) (s : ZSetStore σ) : ZSetStore σ :=
  match s.zsetAt id, s.pool.read id with
  | some (.full state), some layer =>
    s.replace id (.full { state with memberLayer := s.layers.length }) (s.layers ++ [layer])
  | _, _ => s

/-- `ensure_unique_mutable_state`.  The score index is copied on adoption and never shared. -/
def ensureUniqueMutableState (id : ℕ) : StoreComp (ZSetStore σ) Unit := do
  let s ← get
  match s.zsetAt id with
  | some (.full state) =>
    when (1 < s.pool.useCount state.memberLayer) (do
      ensureMemoryGrowth
      modify (cloneLayer id))
  | _ => pure ()

/-- Write a score to the member layer and to the score index. -/
def record (id : ℕ) (member : Bytes) (score : σ) (s : ZSetStore σ) : ZSetStore σ :=
  match s.zsetAt id with
  | some (.full state) =>
    s.replace id (.full { state with scoreIndex := state.scoreIndex.insert member score })
      (s.layers.modify state.memberLayer fun layer ↦ layer.insert member score)
  | _ => s

/-- The member ids in use in the layer of the sorted set at `id`. -/
def memberCount (id : ℕ) (s : ZSetStore σ) : ℕ :=
  (s.pool.read id).elim 0 fun layer ↦ layer.keys.length

/-- A new member: room in the member index, an id, the bytes, a text of the score where texts are
kept, the score index. -/
def pushMember (id : ℕ) (member : Bytes) (score : σ) : StoreComp (ZSetStore σ) Unit := do
  ensureMemoryGrowth
  let s ← get
  when (maxMembers ≤ s.memberCount id) (throw (.lengthError "zset member id space exhausted"))
  when (maxMemberBytes < member.length) (throw (.lengthError "zset member too large"))
  request (.lengthError "zset member arena exhausted")
  request (.lengthError "zset score text arena exhausted")
  ensureMemoryGrowth
  ensureMemoryGrowth
  modify (record id member score)

/-- A full sorted set without members in the place of the one at `id`. -/
def startFull (id : ℕ) (s : ZSetStore σ) : ZSetStore σ :=
  s.replace id (.full ⟨s.layers.length, ∅⟩) (s.layers ++ [∅])

def replay (id : ℕ) : List (Σ _ : Bytes, σ) → StoreComp (ZSetStore σ) Unit
  | [] => pure ()
  | entry :: rest => do
    pushMember id entry.1 entry.2
    replay id rest

/-- `ensure_full`: the blob is given up before its entries are inserted again. -/
def ensureFull (id : ℕ) (listpack : CompactListpack σ) : StoreComp (ZSetStore σ) Unit := do
  ensureMemoryGrowth
  modify (startFull id)
  replay id listpack.scores.entries

/-- The full path of `add`: a score update, or a new member. -/
def addFull (id : ℕ) (member : Bytes) (target : σ) : StoreComp (ZSetStore σ) Unit := do
  let s ← get
  ensureUniqueMutableState id
  if (s.scoreAt id member).isSome then
    ensureMemoryGrowth
    request (.lengthError "zset score text arena exhausted")
    ensureMemoryGrowth
    modify (record id member target)
  else
    pushMember id member target

variable [Score σ]

/-- Give a member its new score in whichever representation the sorted set has. -/
def storeScore (maxEntries : ℕ) (id : ℕ) (member : Bytes) (target : σ) :
    StoreComp (ZSetStore σ) Unit := do
  let s ← get
  match s.zsetAt id with
  | some (.small listpack) =>
    if hneeds : listpack.needsFull maxEntries target member = true then
      ensureFull id listpack
      addFull id member target
    else
      ensureMemoryGrowth
      modify fun s ↦ s.replace id
        (.small (listpack.insert maxEntries target member hneeds)) s.layers
  | some (.full _) => addFull id member target
  | none => pure ()

/-- `ZSet::add`. -/
def add (maxEntries : ℕ) (options : ZAddOptions) (id : ℕ) (score : σ) (member : Bytes) :
    StoreComp (ZSetStore σ) (ZAddMutation σ) := do
  let s ← get
  let old := s.scoreAt id member
  let mutation := Scores.decide options old score
  when (mutation.changed = true) (storeScore maxEntries id member (Scores.target options old score))
  pure mutation

/-! ## The invariant, and what a change leaves alone -/

omit [Score σ]

/-- Every sorted set stands for a map. -/
structure Valid (s : ZSetStore σ) : Prop where
  store : s.store.Valid
  represents : ∀ id value, s.zsetAt id = some value → ∃ map, value.Represents (s.pool.read id) map

/-- A change of the sorted set at `id`, which now stands for `map`. -/
structure Step (s : ZSetStore σ) (id : ℕ) (map : ZMap σ) (s' : ZSetStore σ) : Prop where
  valid : s'.Valid
  at_id : s'.mapAt id = some map
  others : ∀ other, other ≠ id → s'.mapAt other = s.mapAt other
  index : s'.store.keyspace.index = s.store.keyspace.index

variable {s s' : ZSetStore σ} {id other : ℕ} {value old : ZSet σ} {state : FullState σ}
  {layers : List (Scores σ)} {map map' : ZMap σ} {member : Bytes} {score : σ}

theorem Step.refl (h : s.Valid) (hmap : s.mapAt id = some map) : s.Step id map s :=
  ⟨h, hmap, fun _ _ ↦ rfl, rfl⟩

theorem Step.trans {s'' : ZSetStore σ} (h : s.Step id map s') (h' : s'.Step id map' s'') :
    s.Step id map' s'' where
  valid := h'.valid
  at_id := h'.at_id
  others other hne := (h'.others other hne).trans (h.others other hne)
  index := h'.index.trans h.index

theorem mapAt_of_represents (hval : s.zsetAt id = some value)
    (h : value.Represents (s.pool.read id) map) : s.mapAt id = some map := by
  unfold mapAt
  rw [hval]
  cases value with
  | small listpack => exact congrArg some h
  | full state => exact h.2

theorem Valid.represents_of_mapAt (h : s.Valid) (hmap : s.mapAt id = some map) :
    ∃ value, s.zsetAt id = some value ∧ value.Represents (s.pool.read id) map := by
  cases hval : s.zsetAt id with
  | none => simp [mapAt, hval] at hmap
  | some value =>
    rcases h.represents id value hval with ⟨found, hfnd⟩
    rw [mapAt_of_represents hval hfnd] at hmap
    exact ⟨value, rfl, some.inj hmap ▸ hfnd⟩

theorem Valid.listingAt_eq (h : s.Valid) : s.listingAt id = s.mapAt id := by
  unfold listingAt
  cases hval : s.zsetAt id with
  | none => simp [mapAt, hval]
  | some value =>
    rcases h.represents id value hval with ⟨map, hmap⟩
    rw [mapAt_of_represents hval hmap, map_some, hmap.listing]

/-! ## Who refers to which layer -/

theorem entry_of_zsetAt (h : s.zsetAt id = some value) :
    ∃ key, s.store.keyspace.entries[id]? = some (key, .aggregate (.zset value)) := by
  unfold zsetAt at h
  split at h
  · next key found hent => exact ⟨key, some.inj h ▸ hent⟩
  · exact absurd h.symm (some_ne_none value)

theorem zsetAt_of_entry {key : Bytes}
    (h : s.store.keyspace.entries[id]? = some (key, .aggregate (.zset value))) :
    s.zsetAt id = some value := by
  simp [zsetAt, h]

theorem ref_eq (h : s.zsetAt id = some value) : s.pool.ref id = value.layer := by
  rcases entry_of_zsetAt h with ⟨key, hent⟩
  simp [Pool.ref, pool, hent, entryLayer]

theorem lt_owners (h : s.zsetAt id = some value) : id < s.pool.owners.length := by
  rcases entry_of_zsetAt h with ⟨key, hent⟩
  have hlt := lt_of_getElem? hent
  simpa [pool] using hlt

theorem zsetAt_of_ref {cell : ℕ} (h : s.pool.ref id = some cell) :
    ∃ state, s.zsetAt id = some (.full state) ∧ state.memberLayer = cell := by
  cases hval : s.zsetAt id with
  | none =>
    have hnone : s.pool.ref id = none := by
      unfold zsetAt at hval
      cases hent : s.store.keyspace.entries[id]? with
      | none => simp [Pool.ref, pool, hent]
      | some entry =>
        rcases entry with ⟨key, object⟩
        rw [hent] at hval
        cases object with
        | str text => simp [Pool.ref, pool, hent, entryLayer]
        | aggregate cell =>
          cases cell with
          | zset value => simp at hval
          | other type => simp [Pool.ref, pool, hent, entryLayer]
    rw [hnone] at h
    exact absurd h.symm (some_ne_none cell)
  | some value =>
    rw [ref_eq hval] at h
    cases value with
    | small listpack => exact absurd h.symm (some_ne_none cell)
    | full state => exact ⟨state, rfl, some.inj h⟩

theorem Valid.wellFormed (h : s.Valid) : s.pool.WellFormed := by
  intro owner cell href
  rcases zsetAt_of_ref href with ⟨state, hst, hcell⟩
  rcases h.represents owner _ hst with ⟨map, _, hread⟩
  rw [Pool.read, href, bind_some] at hread
  by_contra hge
  rw [getElem?_eq_none (Nat.le_of_not_lt hge)] at hread
  exact absurd hread.symm (some_ne_none map)

/-! ## Replacing a sorted set -/

theorem zsetAt_replace_self (h : s.zsetAt id = some old) :
    (s.replace id value layers).zsetAt id = some value := by
  rcases entry_of_zsetAt h with ⟨key, hent⟩
  exact zsetAt_of_entry (Keyspace.setObject_entry hent _)

theorem zsetAt_replace_ne (h : other ≠ id) :
    (s.replace id value layers).zsetAt other = s.zsetAt other := by
  simp [zsetAt, replace, Keyspace.setObject, h.symm]

theorem pool_replace :
    (s.replace id value layers).pool = ⟨layers, s.pool.owners.set id value.layer⟩ := by
  unfold pool replace Keyspace.setObject
  congr 1
  apply ext_getElem?
  intro position
  by_cases hpos : id = position
  · subst position
    cases hent : s.store.keyspace.entries[id]? with
    | none => simp [getElem?_eq_none_iff.mp hent]
    | some entry =>
      have hlt := lt_of_getElem? hent
      simp [hlt, entryLayer]
  · simp [hpos]

/-- A replacement is a step if the new value stands for `map` and the others read what they read
before. -/
theorem Step.of_replace (h : s.Valid) (hold : s.zsetAt id = some old)
    (hself : value.Represents ((s.replace id value layers).pool.read id) map)
    (hoths : ∀ other, other ≠ id → (s.replace id value layers).pool.read other =
      s.pool.read other) :
    s.Step id map (s.replace id value layers) := by
  rcases entry_of_zsetAt hold with ⟨key, hent⟩
  have hval : (s.replace id value layers).zsetAt id = some value := zsetAt_replace_self hold
  refine ⟨⟨(Store.setObject_logical h.store hent _).1, ?_⟩, mapAt_of_represents hval hself, ?_, rfl⟩
  · intro other found hfnd
    by_cases hoth : other = id
    · subst other
      rw [hval] at hfnd
      exact ⟨map, some.inj hfnd ▸ hself⟩
    · rw [zsetAt_replace_ne hoth] at hfnd
      rw [hoths other hoth]
      exact h.represents other found hfnd
  · intro other hoth
    unfold mapAt
    rw [zsetAt_replace_ne hoth, hoths other hoth]

/-- A sorted set in its full representation that nobody shares. -/
def OwnsLayer (s : ZSetStore σ) (id : ℕ) : Prop :=
  (∃ state, s.zsetAt id = some (.full state)) ∧ s.pool.Sole id

theorem set_owners_self (h : s.zsetAt id = some value) :
    s.pool.owners.set id value.layer = s.pool.owners := by
  apply ext_getElem?
  intro position
  rw [getElem?_set]
  split
  · next hpos =>
    subst position
    rcases entry_of_zsetAt h with ⟨key, hent⟩
    rw [if_pos (lt_owners h), pool, getElem?_map, hent]
    rfl
  · rfl

theorem pool_record (hst : s.zsetAt id = some (.full state)) :
    (s.record id member score).pool = s.pool.write id fun layer ↦ layer.insert member score := by
  have href := ref_eq hst
  have howners : s.pool.owners.set id (some state.memberLayer) = s.pool.owners :=
    set_owners_self hst
  rw [record, hst]
  rw [pool_replace, ZSet.layer, howners, Pool.write, href]
  rfl

theorem record_step (h : s.Valid) (howns : s.OwnsLayer id) (hmap : s.mapAt id = some map) :
    s.Step id (update map member (some score)) (s.record id member score) ∧
      (s.record id member score).OwnsLayer id := by
  rcases howns with ⟨⟨state, hst⟩, hsole⟩
  rcases h.represents_of_mapAt hmap with ⟨value, hval, hrep⟩
  rw [hst] at hval
  cases hval
  have hpool : (s.record id member score).pool = _ := pool_record hst
  have hrecord : s.record id member score = s.replace id
      (.full { state with scoreIndex := state.scoreIndex.insert member score })
      (s.layers.modify state.memberLayer fun layer ↦ layer.insert member score) := by
    rw [record, hst]
  rw [hrecord] at hpool ⊢
  refine ⟨Step.of_replace h hst ⟨?_, ?_⟩ ?_, ⟨_, zsetAt_replace_self hst⟩, ?_⟩
  · rw [Scores.map_insert, hrep.1]
  · rcases map_eq_some_iff.mp hrep.2 with ⟨layer, hlayer, hlayerMap⟩
    rw [hpool, Pool.write_read_self, hlayer, map_some, map_some, Scores.map_insert, hlayerMap]
  · intro other hoth
    rw [hpool, Pool.write_read_other hsole hoth]
  · rw [hpool]
    exact Pool.write_sole hsole

/-- A fresh layer for the sorted set at `id`, with what the layer then holds. -/
theorem attach_step (h : s.Valid) (hold : s.zsetAt id = some old) (state : FullState σ)
    (layer : Scores σ) (hself : state.scoreIndex.map = map ∧ layer.map = map)
    (hfresh : state.memberLayer = s.layers.length) :
    s.Step id map (s.replace id (.full state) (s.layers ++ [layer])) ∧
      (s.replace id (.full state) (s.layers ++ [layer])).OwnsLayer id := by
  have hlt := lt_owners hold
  have hpool : (s.replace id (.full state) (s.layers ++ [layer])).pool =
      s.pool.attach id layer := by
    rw [pool_replace, ZSet.layer, hfresh]
    rfl
  refine ⟨Step.of_replace h hold ⟨hself.1, ?_⟩ ?_, ⟨_, zsetAt_replace_self hold⟩, ?_⟩
  · rw [hpool, Pool.attach_read_self hlt, map_some, hself.2]
  · intro other hoth
    rw [hpool, Pool.attach_read_other h.wellFormed hoth]
  · rw [hpool]
    exact Pool.attach_sole h.wellFormed hlt

variable {listpack : CompactListpack σ}

/-- Growing a small sorted set touches no layer. -/
theorem small_step (h : s.Valid) (hold : s.zsetAt id = some (.small listpack))
    (listpack' : CompactListpack σ) :
    s.Step id listpack'.scores.map (s.replace id (.small listpack') s.layers) := by
  have hpool : (s.replace id (.small listpack') s.layers).pool = s.pool := by
    have howners : s.pool.owners.set id none = s.pool.owners := set_owners_self hold
    rw [pool_replace, ZSet.layer, howners]
    rfl
  refine Step.of_replace h hold ?_ ?_
  · exact (rfl : listpack'.scores.map = _)
  · intro other _
    rw [hpool]

/-! ## Runs in which nothing is refused -/

@[simp] theorem granted_bind {β : Type} (next : Unit → StoreComp (ZSetStore σ) β) :
    (ensureMemoryGrowth >>= next) s [] = next () s [] := rfl

theorem ensureUniqueMutableState_granted (h : s.Valid) (hst : s.zsetAt id = some (.full state))
    (hmap : s.mapAt id = some map) :
    ∃ s', ensureUniqueMutableState id s [] = ⟨.ok (), s', []⟩ ∧ s.Step id map s' ∧
      s'.OwnsLayer id := by
  rcases h.represents_of_mapAt hmap with ⟨value, hval, hrep⟩
  rw [hst] at hval
  cases hval
  rcases map_eq_some_iff.mp hrep.2 with ⟨layer, hlayer, hlayerMap⟩
  unfold ensureUniqueMutableState
  simp only [get_bind, hst]
  by_cases hshared : 1 < s.pool.useCount state.memberLayer
  · rw [when_pos hshared, granted_bind, modify_apply, cloneLayer, hst, hlayer]
    exact ⟨_, rfl, attach_step h hst { state with memberLayer := s.layers.length } layer
      ⟨hrep.1, hlayerMap⟩ rfl⟩
  · rw [when_neg hshared, pure_apply]
    refine ⟨s, rfl, Step.refl h hmap, ⟨state, hst⟩, ?_⟩
    apply Pool.sole_of_useCount
    intro cell hcell
    rw [ref_eq hst] at hcell
    rw [← some.inj hcell]
    exact Nat.le_of_not_lt hshared

/-- A new member can be stored beside those of the map. -/
def Admits (map : ZMap σ) (member : Bytes) : Prop :=
  map.members.ncard < maxMembers ∧ member.length ≤ maxMemberBytes

theorem memberCount_eq (h : s.Valid) (howns : s.OwnsLayer id) (hmap : s.mapAt id = some map) :
    s.memberCount id = map.members.ncard := by
  rcases howns with ⟨⟨state, hst⟩, -⟩
  rcases h.represents_of_mapAt hmap with ⟨value, hval, hrep⟩
  rw [hst] at hval
  cases hval
  rcases map_eq_some_iff.mp hrep.2 with ⟨layer, hlayer, hlayerMap⟩
  rw [memberCount, hlayer, ← hlayerMap, ← Scores.length_keys]
  rfl

section

variable (h : s.Valid) (howns : s.OwnsLayer id) (hmap : s.mapAt id = some map)
include h howns hmap

theorem pushMember_granted (hadmits : Admits map member) :
    pushMember id member score s [] = ⟨.ok (), s.record id member score, []⟩ := by
  have hcount := memberCount_eq h howns hmap
  rw [pushMember, granted_bind, get_bind, when_neg (by rw [hcount]; exact Nat.not_le.mpr hadmits.1),
    pure_bind, when_neg (Nat.not_lt.mpr hadmits.2)]
  rfl

theorem pushMember_refuses (hadmits : ¬Admits map member) :
    ∃ thrown, pushMember id member score s [] = ⟨.error thrown, s, []⟩ := by
  have hcount := memberCount_eq h howns hmap
  rw [pushMember, granted_bind, get_bind, hcount]
  by_cases hfull : maxMembers ≤ map.members.ncard
  · rw [when_pos hfull, throw_bind]
    exact ⟨_, rfl⟩
  · have hlen : maxMemberBytes < member.length :=
      Nat.lt_of_not_le fun hle ↦ hadmits ⟨Nat.lt_of_not_le hfull, hle⟩
    rw [when_neg hfull, pure_bind, when_pos hlen, throw_bind]
    exact ⟨_, rfl⟩

end

theorem replay_granted {entries : List (Σ _ : Bytes, σ)} (h : s.Valid) (howns : s.OwnsLayer id)
    (hmap : s.mapAt id = some map) (hfits : ∀ entry ∈ entries, entry.1.length ≤ maxMemberBytes)
    (hcount : map.members.ncard + entries.length ≤ maxMembers) :
    ∃ s', replay id entries s [] = ⟨.ok (), s', []⟩ ∧ s.Step id
      (entries.foldl ZMap.enter map) s' ∧ s'.OwnsLayer id := by
  induction entries generalizing s map with
  | nil => exact ⟨s, rfl, Step.refl h hmap, howns⟩
  | cons entry rest ih =>
    rcases forall_mem_cons.mp hfits with ⟨hent, hrest⟩
    rw [length_cons] at hcount
    have hgrown := map.ncard_members_update_le entry.1 entry.2
    have hrecord : s.Step id (update map entry.1 (some entry.2))
      (s.record id entry.1 entry.2) ∧ _ :=
      record_step h howns hmap
    have hpush : pushMember id entry.1 entry.2 s [] = _ :=
      pushMember_granted h howns hmap ⟨by omega, hent⟩
    rcases hrecord with ⟨hstep, howns'⟩
    rcases ih hstep.valid howns' hstep.at_id hrest (by omega) with ⟨s', hrun, hlast, hown⟩
    exact ⟨s', (bind_ok hpush).trans hrun, hstep.trans hlast, hown⟩

theorem ensureFull_granted (h : s.Valid) (hval : s.zsetAt id = some (.small listpack)) :
    ∃ s', ensureFull id listpack s [] = ⟨.ok (), s', []⟩ ∧ s.Step id listpack.scores.map s' ∧
      s'.OwnsLayer id := by
  rcases attach_step h hval ⟨s.layers.length, ∅⟩ ∅ ⟨rfl, rfl⟩ rfl with ⟨hstart, howns⟩
  have hfits : ∀ entry ∈ listpack.scores.entries, entry.1.length ≤ maxMemberBytes := by
    intro entry hent
    have hmember := listpack.fits entry.1 (AList.mem_keys.mpr (mem_map_of_mem hent))
    exact hmember.trans (by decide)
  have hcount : (Scores.map ∅ : ZMap σ).members.ncard + listpack.scores.entries.length ≤
      maxMembers := by
    have hkeys : listpack.scores.entries.length ≤ 0xFFFF := by
      rw [← length_map Sigma.fst]
      exact listpack.count_le
    rw [← Scores.length_keys, AList.keys_empty, length_nil, maxMembers]
    omega
  rcases replay_granted hstart.valid howns hstart.at_id hfits hcount with ⟨s', hrun, hstep, hown⟩
  rw [Scores.map_empty, Scores.foldl_update_scores] at hstep
  exact ⟨s', hrun, hstart.trans hstep, hown⟩

/-- How adding to a full sorted set ends: there has to be room for a new member. -/
theorem addFull_granted (h : s.Valid) (hst : s.zsetAt id = some (.full state))
    (hmap : s.mapAt id = some map) (score : σ)
    (hfits : map member = none → Admits map member) :
    ∃ s', addFull id member score s [] = ⟨.ok (), s', []⟩ ∧
      s.Step id (update map member (some score)) s' := by
  rcases ensureUniqueMutableState_granted h hst hmap with ⟨s₁, hunique, hstep, howns⟩
  rcases record_step hstep.valid howns hstep.at_id with ⟨hrecord, _⟩
  refine ⟨s₁.record id member score, ?_, hstep.trans hrecord⟩
  rw [addFull, get_bind, bind_ok hunique]
  simp only [scoreAt, hmap, bind_some]
  cases hold : map member with
  | none => exact pushMember_granted hstep.valid howns hstep.at_id (hfits hold)
  | some old => rfl

theorem addFull_refuses (h : s.Valid) (hst : s.zsetAt id = some (.full state))
    (hmap : s.mapAt id = some map) (hnew : map member = none) (hadmits : ¬Admits map member) :
    ∃ thrown s', addFull id member score s [] = ⟨.error thrown, s', []⟩ := by
  rcases ensureUniqueMutableState_granted h hst hmap with ⟨s₁, hunique, hstep, howns⟩
  have hrefused : ∃ thrown, pushMember id member score s₁ [] = ⟨.error thrown, s₁, []⟩ :=
    pushMember_refuses hstep.valid howns hstep.at_id hadmits
  rcases hrefused with ⟨thrown, hpush⟩
  refine ⟨thrown, s₁, ?_⟩
  rw [addFull, get_bind, bind_ok hunique]
  simp only [scoreAt, hmap, bind_some, hnew]
  exact hpush

section Adding

variable [Score σ] (maxEntries : ℕ)

theorem storeScore_granted (h : s.Valid) (hmap : s.mapAt id = some map)
    (hfits : map member = none → Admits map member) :
    ∃ s', storeScore maxEntries id member score s [] = ⟨.ok (), s', []⟩ ∧
      s.Step id (update map member (some score)) s' := by
  rcases h.represents_of_mapAt hmap with ⟨value, hval, hrep⟩
  cases value with
  | full state =>
    rcases addFull_granted h hval hmap score hfits with ⟨s', hrun, hstep⟩
    refine ⟨s', ?_, hstep⟩
    simp only [storeScore, get_bind, hval]
    exact hrun
  | small listpack =>
    have hlistpack : listpack.scores.map = map := hrep
    simp only [storeScore, get_bind, hval]
    by_cases hneeds : listpack.needsFull maxEntries score member = true
    · simp only [hneeds, dif_pos]
      rcases ensureFull_granted h hval with ⟨s₁, hfull, hstep, ⟨state, hst⟩, _⟩
      rw [hlistpack] at hstep
      rcases addFull_granted hstep.valid hst hstep.at_id score hfits with ⟨s', hrun, hlast⟩
      exact ⟨s', (bind_ok hfull).trans hrun, hstep.trans hlast⟩
    · simp only [hneeds, Bool.false_eq_true, dite_false]
      refine ⟨_, rfl, ?_⟩
      have hgrown := small_step h hval (listpack.insert maxEntries score member hneeds)
      rw [CompactListpack.insert, Scores.map_insert, hlistpack] at hgrown
      exact hgrown

theorem storeScore_refuses (h : s.Valid) (hmap : s.mapAt id = some map) (hnew : map member = none)
    (hadmits : ¬Admits map member) :
    ∃ thrown s', storeScore maxEntries id member score s [] = ⟨.error thrown, s', []⟩ := by
  rcases h.represents_of_mapAt hmap with ⟨value, hval, hrep⟩
  simp only [storeScore, get_bind, hval]
  cases value with
  | full state => exact addFull_refuses h hval hmap hnew hadmits
  | small listpack =>
    have hlistpack : listpack.scores.map = map := hrep
    -- The ids are not used up by a blob, so the member is too long, for the blob as well.
    have hneeds : listpack.needsFull maxEntries score member = true := by
      have hcount := listpack.count_le
      rw [Scores.length_keys, hlistpack] at hcount
      have hlen : maxMemberBytes < member.length := Nat.lt_of_not_le fun hle ↦
        hadmits ⟨lt_of_le_of_lt hcount (by decide), hle⟩
      have hblob : CompactListpack.maxMemberLen < member.length :=
        Nat.lt_of_le_of_lt (by decide) hlen
      simp [CompactListpack.needsFull, hblob]
    simp only [hneeds, dif_pos]
    rcases ensureFull_granted h hval with ⟨s₁, hfull, hstep, ⟨state, hst⟩, _⟩
    rw [hlistpack] at hstep
    rcases addFull_refuses hstep.valid hst hstep.at_id hnew hadmits with ⟨thrown, s', hrun⟩
    exact ⟨thrown, s', (bind_ok hfull).trans hrun⟩

end Adding

end ZSetStore

end GoblinCore
