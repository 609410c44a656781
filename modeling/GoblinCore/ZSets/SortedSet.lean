import GoblinCore.ZSets.Listpack
import GoblinCore.ZSets.ScoreIndexQueries

/-!
# Sorted sets, step by step

`ZSet` with its two representations as the code changes them: which parts are written in which
order, and what is taken back when memory is refused on the way.

The member index is modelled by the ids in its slots; a name is found by comparing it with the names
the ids stand for.  The byte arenas of the names are left out: bytes are only ever appended, and
running out of room in them is one more request that can be refused.
-/

namespace GoblinCore.SortedSet

open Refusable MemoryLimit Ordered Ranking ScoreIndex Comp

variable {σ : Type}

/-- `ZSetOptions`, with the two switches and the ceiling that the whole process has. -/
structure ZSetOptions where
  listpackMaxEntries : ℕ
  scoreStringCache : Bool := false
  scoreIndexLoad : ℕ := 0
  trimEnabled : Bool := true
  arenaCompactionAllowed : Bool := true
  ceilingActive : Bool := false
  /-- What `rank_cache_mode` comes to: the places that the location cache has at the moment. -/
  located : List (List ℕ) → ℕ → Option (ℕ × ℕ) := fun _ _ ↦ none
  /-- The capacity of a block has 32 bits, and two blocks of twice the load and one more are
  merged. -/
  loadFits : scoreIndexLoad < 2 ^ 30 := by decide

/-- The score index takes a load of zero for the default. -/
def ZSetOptions.index (options : ZSetOptions) : IndexOptions where
  load := if options.scoreIndexLoad = 0 then 562 else options.scoreIndexLoad
  trimEnabled := options.trimEnabled
  ceilingActive := options.ceilingActive
  located := options.located
  loadFits := by
    have hload := options.loadFits
    split <;> omega

/-- The full representation. -/
structure FullState (σ : Type) where
  /-- The name and the score of each member id. -/
  storage : List (Bytes × σ) := []
  /-- The ids in the slots of the member index. -/
  slots : List ℕ := []
  scoreIndex : ScoreIndex σ := { blocks := [], size := 0 }
  /-- Another sorted set refers to this member layer as well. -/
  shared : Bool := false

inductive ZSet (σ : Type) where
  | small (listpack : Listpack σ)
  | full (state : FullState σ)

namespace FullState

def memberView (full : FullState σ) (id : ℕ) : Bytes := (full.storage[id]?.map Prod.fst).getD []

/-- `members().find`. -/
def find (member : Bytes) (full : FullState σ) : Option ℕ :=
  full.slots.find? fun id ↦ full.memberView id = member

def scoreAt (id : ℕ) (full : FullState σ) : Option σ := full.storage[id]?.map Prod.snd

def score (member : Bytes) (full : FullState σ) : Option σ :=
  (full.find member).bind fun id ↦ full.scoreAt id

/-- The entries as `range` visits them. -/
def ranked (full : FullState σ) : List (Bytes × σ) :=
  full.scoreIndex.toList.map (named full.memberView)

inductive WriteKind where
  | scoreUpdate
  | structural
  deriving DecidableEq

/-- A shared member layer is copied; a structural write wants the byte arena for itself as well.
The score index is never shared. -/
def ensureUniqueMutableState (kind : WriteKind) : StoreComp (FullState σ) Unit := do
  let full ← get
  when (full.shared = true) (do
    ensureMemoryGrowth
    set { full with shared := false })
  when (kind = .structural) ensureMemoryGrowth

/-- `allocate_member_id`, that is, `push_back` of the member storage. -/
def allocateMemberId (member : Bytes) (score : σ) : StoreComp (FullState σ) ℕ := do
  let full ← get
  when (2 ^ 32 - 1 ≤ full.storage.length) (throw (.lengthError "zset member id space exhausted"))
  when (65535 < member.length) (throw (.lengthError "zset member too large"))
  request (.lengthError "zset member arena exhausted")
  ensureMemoryGrowth
  set { full with storage := full.storage ++ [(member, score)] }
  pure full.storage.length

/-- The id in the slot of its name. -/
def insertSlot (id : ℕ) (full : FullState σ) : FullState σ :=
  { full with slots := full.slots ++ [id] }

/-- The steps of an append up to the score index. -/
def prepare (member : Bytes) (score : σ) : StoreComp (FullState σ) ℕ := do
  ensureUniqueMutableState .structural
  -- `reserve_additional`: the slot is not refused later.
  ensureMemoryGrowth
  let id ← allocateMemberId member score
  modify (insertSlot id)
  pure id

def onIndex {α : Type} (body : StoreComp (ScoreIndex σ) α) : StoreComp (FullState σ) α :=
  zoom FullState.scoreIndex (fun full index ↦ { full with scoreIndex := index }) body

def setScore (id : ℕ) (score : σ) (full : FullState σ) : FullState σ :=
  { full with storage := full.storage.modify id fun entry ↦ (entry.1, score) }

/-- `copy_ref`. -/
def copyRef (target source : ℕ) (full : FullState σ) : FullState σ :=
  match full.storage[source]? with
  | some entry => { full with storage := full.storage.set target entry }
  | none => full

def popBack (full : FullState σ) : FullState σ := { full with storage := full.storage.dropLast }

/-- `erase_at_index` for the slot of an id. -/
def eraseSlot (id : ℕ) (full : FullState σ) : FullState σ :=
  { full with slots := full.slots.erase id }

/-- `move_member_id_at_slot`. -/
def moveMemberId (old new : ℕ) (full : FullState σ) : FullState σ :=
  { full with slots := full.slots.map fun id ↦ if id = old then new else id }

variable [Score σ] (options : ZSetOptions)

def insertScore (score : σ) (id : ℕ) : StoreComp (FullState σ) Unit := do
  let full ← get
  onIndex (ScoreIndex.insert options.index (less full.memberView · ⟨score, id⟩) ⟨score, id⟩)

/-- One step of the replay in `ensure_full`. -/
def replayEntry (entry : Bytes × σ) : StoreComp (FullState σ) Unit := do
  let id ← allocateMemberId entry.1 entry.2
  -- The member index grows as it is filled.
  ensureMemoryGrowth
  modify (insertSlot id)
  insertScore options entry.2 id

def replay : List (Bytes × σ) → StoreComp (FullState σ) Unit
  | [] => pure ()
  | entry :: rest => do
    replayEntry options entry
    replay rest

/-- The member is known: its score is written, then its entry is moved; a refusal of the second
puts the score back. -/
def updateScore (id : ℕ) (old score : σ) : StoreComp (FullState σ) Bool := do
  ensureUniqueMutableState .scoreUpdate
  tryCatch (do
    -- A wider score array, and a text for the score if texts are kept.
    ensureMemoryGrowth
    modify (setScore id score)
    when (options.scoreStringCache = true) ensureMemoryGrowth
    let full ← get
    let rescored ← onIndex (ScoreIndex.rescore options.index full.memberView ⟨old, id⟩ ⟨score, id⟩)
    when (rescored = false) (modify (setScore id old))
    pure rescored) fun thrown ↦ do
      modify (setScore id old)
      throw thrown

/-- The member is new: storage, member index and score index in turn, and back again when the last
is refused. -/
def append (member : Bytes) (score : σ) : StoreComp (FullState σ) Unit := do
  let id ← prepare member score
  tryCatch (insertScore options score id) fun thrown ↦ do
    modify (eraseSlot id)
    modify popBack
    throw thrown

/-- The tail of `ZSet::add` on the full representation. -/
def addFull (member : Bytes) (score : σ) : StoreComp (FullState σ) (ZAddMutation σ) := do
  let full ← get
  match full.find member with
  | some id =>
    match full.scoreAt id with
    | some old =>
      let rescored ← updateScore options id old score
      pure (if rescored then { status := .applied, changed := true, score := some score }
        else { status := .skipped })
    | none => pure { status := .skipped }
  | none =>
    append options member score
    pure { status := .applied, added := true, changed := true, score := some score }

/-- The places where `ZSet::remove` on the full representation returns. -/
inductive RemoveExit where
  | absent
  | noScore
  | entryNotErased
  | entryNotFound
  | notRetargeted
  | noLastSlot
  | idNotMoved
  | slotNotErased
  | removed
  deriving DecidableEq

/-- What `erase_at_index` answered for the slot of an id: it fails on an empty slot. -/
def slotErased (id : ℕ) (full : FullState σ) : RemoveExit :=
  if id ∈ full.slots then .removed else .slotNotErased

/-- The member with the last id: its entry, its slot and its storage go. -/
def removeLast (id : ℕ) (score : σ) : StoreComp (FullState σ) RemoveExit := do
  let full ← get
  let removed ← onIndex (eraseOne options.index full.memberView ⟨score, id⟩)
  if removed then
    modify (eraseSlot id)
    modify popBack
    pure (full.slotErased id)
  else
    pure .entryNotErased

/-- `restore_snapshot`. -/
def restoreStorage (storage : List (Bytes × σ)) (full : FullState σ) : FullState σ :=
  { full with storage }

/-- Any other member: the last member takes over its id. -/
def removeSwap (id last : ℕ) (score lastScore : σ) : StoreComp (FullState σ) RemoveExit := do
  let full ← get
  match findEntryLocation options.index full.memberView ⟨score, id⟩ full.scoreIndex,
      findEntryLocation options.index full.memberView ⟨lastScore, last⟩ full.scoreIndex with
  | some removedLocation, some lastLocation =>
    modify (copyRef id last)
    let copied ← get
    let updated ← onIndex (eraseRemovedAndRetargetLast options.index copied.memberView
      removedLocation lastLocation ⟨lastScore, last⟩ id)
    if updated then
      modify (eraseSlot id)
      -- `last_slot` was looked up before the storage changed.
      match full.find (full.memberView last) with
      | none =>
        modify (restoreStorage full.storage)
        pure .noLastSlot
      | some slot =>
        -- `move_member_id_at_slot` wants the last id in a slot that is in use.
        if slot = last ∧ slot ∈ full.slots.erase id then
          modify (moveMemberId last id)
          modify popBack
          pure (full.slotErased id)
        else
          modify (restoreStorage full.storage)
          pure .idNotMoved
    else
      modify (restoreStorage full.storage)
      pure .notRetargeted
  | _, _ => pure .entryNotFound

/-- `ZSet::remove` on the full representation up to the demotion, by where it returns. -/
def removeExit (member : Bytes) : StoreComp (FullState σ) RemoveExit := do
  let full ← get
  match full.find member with
  | none => pure .absent
  | some id =>
    ensureUniqueMutableState .structural
    match full.scoreAt id, full.scoreAt (full.storage.length - 1) with
    | some score, some lastScore =>
      if id = full.storage.length - 1 then removeLast options id score
      else removeSwap options id (full.storage.length - 1) score lastScore
    | _, _ => pure .noScore

def removeFull (member : Bytes) : StoreComp (FullState σ) Bool := do
  let exit ← removeExit options member
  pure (exit = .removed)

/-- The state `compact` builds: new ids in the order of the entries. -/
def compacted (full : FullState σ) : FullState σ where
  storage := full.ranked
  slots := List.range full.ranked.length
  scoreIndex := assignSorted options.index (full.ranked.zipIdx.map fun entry ↦ ⟨entry.1.2, entry.2⟩)

end FullState

namespace ZSet

open GoblinCore.SortedSet.FullState

def listpack : ZSet σ → Listpack σ
  | small lp => lp
  | full _ => {}

def fullState : ZSet σ → FullState σ
  | small _ => {}
  | full state => state

def onSmall {α : Type} (body : StoreComp (Listpack σ) α) : StoreComp (ZSet σ) α :=
  zoom ZSet.listpack (fun _ lp ↦ ZSet.small lp) body

def onFull {α : Type} (body : StoreComp (FullState σ) α) : StoreComp (ZSet σ) α :=
  zoom ZSet.fullState (fun _ state ↦ ZSet.full state) body

/-- `init_empty`. -/
def initEmpty (options : ZSetOptions) : ZSet σ :=
  if options.listpackMaxEntries = 0 then full {} else small {}

def score (member : Bytes) : ZSet σ → Option σ
  | small lp => lookup lp.entries member
  | full state => state.score member

variable [Score σ] (options : ZSetOptions)

/-- The listpack is moved out before its entries are put into the full representation. -/
def ensureFull : StoreComp (ZSet σ) Unit := do
  let zset ← get
  match zset with
  | full _ => pure ()
  | small lp =>
    ensureMemoryGrowth
    set (full {})
    onFull (replay options lp.entries)

/-- The entries of a full sorted set in a new listpack, as far as it takes them. -/
def demoted : List (Bytes × σ) → StoreComp (Listpack σ) Bool
  | [] => pure true
  | entry :: rest => do
    let result ← Listpack.add options.listpackMaxEntries entry.2 entry.1
    if result.needsFull then pure false else demoted rest

def maybeDemoteToSmall : StoreComp (ZSet σ) Unit := do
  let zset ← get
  match zset with
  | small _ => pure ()
  | full state =>
    if options.listpackMaxEntries = 0 ∨ options.scoreStringCache = true ∨
        options.listpackMaxEntries < state.storage.length then pure ()
    else
      ChunkedSortedList.catchBadAlloc (do
        let built ← scratch {} (demoted options state.ranked)
        when (built.1 = true) (set (small built.2)))

/-- `ZSet::add`. -/
def add (addOptions : ZAddOptions) (score : σ) (member : Bytes) :
    StoreComp (ZSet σ) (ZAddMutation σ) := do
  let zset ← get
  let old := zset.score member
  let decision := Scores.decide addOptions old score
  if decision.changed then
    let target := Scores.target addOptions old score
    match zset with
    | small _ =>
      let result ← onSmall (Listpack.add options.listpackMaxEntries target member)
      if result.needsFull then
        ensureFull options
        onFull (addFull options member target)
      else
        pure
          { status := .applied
            added := result.changed && !result.existed
            changed := result.changed
            score := some target }
    | full _ => onFull (addFull options member target)
  else
    pure decision

/-- `ZSet::remove`. -/
def remove (member : Bytes) : StoreComp (ZSet σ) Bool := do
  let zset ← get
  match zset with
  | small _ => onSmall (Listpack.remove member)
  | full _ =>
    let erased ← onFull (removeFull options member)
    when (erased = true) (maybeDemoteToSmall options)
    pure erased

/-- The score is within the bounds, each of which may be left out itself. -/
def inRange (min : σ) (minExclusive : Bool) (max : σ) (maxExclusive : Bool) (score : σ) : Bool :=
  (if minExclusive then Score.lt min score else Score.le min score) &&
    (if maxExclusive then Score.lt score max else Score.le score max)

/-- The names that `remove_by_score_range` collects. -/
def namesInRange (min : σ) (minExclusive : Bool) (max : σ) (maxExclusive : Bool) :
    ZSet σ → List Bytes
  | small lp =>
    (lp.entries.filter fun entry ↦ inRange min minExclusive max maxExclusive entry.2).map Prod.fst
  | full state =>
    let bounds := state.scoreIndex.scoreRangeBounds min minExclusive max maxExclusive
    (forRange bounds.1 bounds.2 state.scoreIndex).map fun entry ↦ state.memberView entry.memberId

def removeAll : List Bytes → StoreComp (ZSet σ) Unit
  | [] => pure ()
  | name :: rest => do
    Comp.discard (remove options name)
    removeAll rest

def removeByScoreRange (min : σ) (minExclusive : Bool) (max : σ) (maxExclusive : Bool) :
    StoreComp (ZSet σ) ℕ := do
  let zset ← Comp.get
  let names := zset.namesInRange min minExclusive max maxExclusive
  removeAll options names
  pure names.length

def compact : StoreComp (ZSet σ) Unit := do
  let zset ← get
  when (options.arenaCompactionAllowed = true)
    (match zset with
    | small _ => onSmall Listpack.optimize
    | full state => do
      ensureMemoryGrowth
      set (full (compacted options state)))

/-! ## Reading

A query reads the position tree as it is; `build_index`, with which it starts, is a step of its
own. -/

def buildIndex : ZSet σ → ZSet σ
  | small lp => small lp
  | full state => full { state with scoreIndex := ScoreIndex.buildIndex state.scoreIndex }

def size : ZSet σ → ℕ
  | small lp => lp.entries.length
  | full state => state.scoreIndex.size

def rank (member : Bytes) : ZSet σ → Option ℕ
  | small lp => lp.rank member
  | full state =>
    (state.find member).bind fun id ↦ (state.scoreAt id).bind fun score ↦
      ScoreIndex.rank options.index state.memberView ⟨score, id⟩ state.scoreIndex

def reverseRank (member : Bytes) (zset : ZSet σ) : Option ℕ :=
  (zset.rank options member).map fun rank ↦ zset.size - 1 - rank

/-- `ZSetRangeBounds`: the first position and the number of entries. -/
structure RangeBounds where
  first : ℕ
  count : ℕ
  deriving DecidableEq

def normalizeIndex (index : ℤ) (size : ℕ) : ℤ := if index < 0 then index + size else index

def rangeBounds (start stop : ℤ) (zset : ZSet σ) : Option RangeBounds :=
  let size := zset.size
  let first := max (normalizeIndex start size) 0
  let last := normalizeIndex stop size
  if size = 0 ∨ last < 0 ∨ last < first ∨ size ≤ first then none
  else some ⟨first.toNat, (min last (size - 1) - first + 1).toNat⟩

def scoreRangeBounds (min : σ) (minExclusive : Bool) (max : σ) (maxExclusive : Bool)
    (zset : ZSet σ) : Option RangeBounds :=
  if zset.size = 0 ∨ Score.isNan min ∨ Score.isNan max ∨ Score.lt max min ∨
      (Score.eq min max ∧ (minExclusive ∨ maxExclusive)) then none
  else
    match zset with
    | small lp =>
      let found := positions (fun entry ↦ inRange min minExclusive max maxExclusive entry.2) 0
        lp.entries
      found.head?.map fun first ↦ ⟨first, found.length⟩
    | full state =>
      let bounds := state.scoreIndex.scoreRangeBounds min minExclusive max maxExclusive
      if bounds.2 = 0 then none else some ⟨bounds.1, bounds.2⟩

def scoreRangeSlice (min : σ) (minExclusive : Bool) (max : σ) (maxExclusive : Bool)
    (reverse : Bool) (offset : ℕ) (limit : Option ℕ) (zset : ZSet σ) : Option RangeBounds :=
  (zset.scoreRangeBounds min minExclusive max maxExclusive).bind fun ascending ↦
    if ascending.count ≤ offset ∨ limit = some 0 then none
    else
      let available := ascending.count - offset
      let count := limit.elim available (Min.min available)
      let first :=
        if reverse then zset.size - (ascending.first + ascending.count) + offset
        else ascending.first + offset
      some ⟨first, count⟩

/-- The entries as both representations visit them. -/
def ranked : ZSet σ → List (Bytes × σ)
  | small lp => lp.entries
  | full state => state.ranked

/-- `for_position_range`. -/
def forPositionRange (bounds : RangeBounds) (reverse : Bool) : ZSet σ → List (Bytes × σ)
  | small lp =>
    ((if reverse then lp.entries.reverse else lp.entries).drop bounds.first).take bounds.count
  | full state =>
    (if reverse then forReverseRange bounds.first bounds.count state.scoreIndex
      else forRange bounds.first bounds.count state.scoreIndex).map (named state.memberView)

/-- `range` and `reverse_range`. -/
def range (start stop : ℤ) (reverse : Bool) (zset : ZSet σ) : List (Bytes × σ) :=
  (zset.rangeBounds start stop).elim [] fun bounds ↦ zset.forPositionRange bounds reverse

/-- `ZSet::check_invariants`. -/
def checkInvariants : ZSet σ → Bool
  | small _ => true
  | full state =>
    decide (state.slots.length = state.scoreIndex.size) &&
      state.scoreIndex.validate options.index state.memberView &&
      state.slots.all fun id ↦
        decide (id < state.storage.length) &&
          (state.scoreAt id).any fun score ↦
            (ScoreIndex.rank options.index state.memberView ⟨score, id⟩ state.scoreIndex).isSome

end ZSet

end GoblinCore.SortedSet
