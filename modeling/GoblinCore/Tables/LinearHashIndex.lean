import GoblinCore.Foundation.LinearHashing
import GoblinCore.Foundation.LinkedChains
import GoblinCore.Foundation.Rounding
import GoblinCore.Tables.PrimaryDirectory

/-!
# LinearHashIndex

The index behind real-time hashes.  It grows and shrinks by one bucket at a time, and moves the
entries of the bucket that is being split or merged one group per mutation.  A bucket is a chain of
groups of sixteen slots: its primary group, and overflow groups that are known by their handle in an
arena shared with other indexes.  A slot holds an id beside the hash of the member the id stands
for; the bytes of a member are read through the member storage.

A group is named by the number of its primary or by its handle, and `cellOf` is the arena cell that
has it.  The arena may refuse a cell at any time.  An insertion then throws before it has changed an
entry, while a split or a merge stops inside the group it is at and goes on from there later.  The
counts of cells and overflow groups are left out.
-/

namespace GoblinCore.LinearHashIndex

open LinkedChains Rounding

variable {M I : Type}

structure Entry (I : Type) where
  hash : UInt32
  id : I
deriving DecidableEq

/-- The slots of a `Bucket`, of which the unoccupied ones are `none`. -/
structure Group (I : Type) where
  slots : List (Option (Entry I))
  length_slots : slots.length = 16

namespace Group

/-- `reset_bucket`. -/
def empty : Group I := ⟨List.replicate 16 none, List.length_replicate⟩

variable (group : Group I)

def entryAt (slot : ℕ) : Option (Entry I) := (group.slots[slot]?).join

def set (slot : ℕ) (entry : Option (Entry I)) : Group I :=
  ⟨group.slots.set slot entry, by rw [List.length_set, group.length_slots]⟩

def entries : List (Entry I) := group.slots.reduceOption

/-- `Bucket::size`. -/
def size : ℕ := group.entries.length

def firstEmpty : Option ℕ := group.slots.findIdx? (·.isNone)

end Group

/-- Whether a slot is occupied by this member. -/
def matchSlot [DecidableEq M] (view : I → M) (member : M) (hash : UInt32) : Option (Entry I) → Bool
  | some entry => entry.hash = hash && view entry.id = member
  | none => false

def Group.find [DecidableEq M] (group : Group I) (view : I → M) (member : M) (hash : UInt32) :
    Option ℕ :=
  group.slots.findIdx? (matchSlot view member hash)

abbrev Buckets (I : Type) := Chains Handle (Group I)

/-- A slot of a group. -/
structure Location where
  ref : Ref Handle
  slot : ℕ
deriving DecidableEq

/-- The hash function. -/
structure Config (M : Type) where
  hashBytes : M → UInt64

/-- `hash_member`. -/
def Config.hashMember (config : Config M) (member : M) : UInt32 :=
  (config.hashBytes member).toUInt32 ^^^ (config.hashBytes member >>> 32).toUInt32

/-- `kNoBucket`. -/
def noBucket : ℕ := 2 ^ 32 - 1

/-- A cursor is `none` while the primary group is the next to be moved. -/
structure Index (I : Type) where
  buckets : Buckets I := {}
  directory : PrimaryDirectory := {}
  size : ℕ := 0
  levelSize : ℕ := 1
  split : ℕ := 0
  splitActive : Bool := false
  splitCursor : Option Handle := none
  mergeActive : Bool := false
  mergeCursor : Option Handle := none
  mergeSource : ℕ := noBucket
  mergeDestination : ℕ := noBucket

namespace Index

variable (index : Index I)

def primaryCount : ℕ := index.buckets.heads

/-- The arena cells that the index has. -/
def usedCells : List Handle := index.directory.cells ++ index.buckets.handles

/-- The arena cell of a group; the first primary is inline. -/
def cellOf : Ref Handle → Option Handle
  | .head 0 => none
  | .head primary => index.directory.primaryHandle primary
  | .node handle => some handle

def bucketCount : ℕ := index.levelSize + index.split + if index.splitActive then 1 else 0

/-- The masks wrap around at a level of no buckets. -/
def address (hash : UInt32) : ℕ :=
  let low := hash.toNat &&& (index.levelSize + 2 ^ 64 - 1) % 2 ^ 64
  let high := hash.toNat &&& (2 * index.levelSize + 2 ^ 64 - 1) % 2 ^ 64
  if high < index.bucketCount then high else low

def splitSource : ℕ := index.split

def splitDestination : ℕ := index.levelSize + index.split

/-- Whether a hash of the bucket that is split moves to the new bucket. -/
def leaves (hash : UInt32) : Bool := index.address hash = index.splitDestination

end Index

/-! ## Chains of groups -/

section Buckets

variable [DecidableEq M] (view : I → M) (buckets : Buckets I)

/-- The walk of `find_in_chain` from a group on: the location of the member, and the first empty
slot seen before it. -/
def findFrom (member : M) (hash : UInt32) :
    ℕ → Ref Handle → Option Location → Option Location × Option Location
  | 0, _, emptyLocation => (none, emptyLocation)
  | fuel + 1, ref, emptyLocation =>
    match buckets.value ref with
    | none => (none, emptyLocation)
    | some group =>
      match group.find view member hash with
      | some slot => (some ⟨ref, slot⟩, emptyLocation)
      | none =>
        let emptyLocation := emptyLocation.or (group.firstEmpty.map (Location.mk ref))
        match buckets.next ref with
        | some next => findFrom member hash fuel (.node next) emptyLocation
        | none => (none, emptyLocation)

def findInChain (primary : ℕ) (member : M) (hash : UInt32) : Option Location × Option Location :=
  findFrom view buckets member hash (buckets.handles.length + 1) (.head primary) none

end Buckets

section Insertion

variable (arena : Arena) (reserved : List Handle) (buckets : Buckets I)

/-- The loop of `prepare_insert_location` from a group on.  A new overflow group has its first slot
empty; nothing has changed when the arena refuses it. -/
def prepareFrom (primary : ℕ) : ℕ → Ref Handle → Option (Buckets I × Location)
  | 0, _ => none
  | fuel + 1, ref =>
    match (buckets.value ref).bind Group.firstEmpty with
    | some slot => some (buckets, ⟨ref, slot⟩)
    | none =>
      match buckets.next ref with
      | some next => prepareFrom primary fuel (.node next)
      | none =>
        (arena.allocateBucket (reserved ++ buckets.handles)).map fun next ↦
          (buckets.extend ref primary next Group.empty, ⟨.node next, 0⟩)

def prepareInsertLocation (primary : ℕ) : Option (Buckets I × Location) :=
  prepareFrom arena reserved buckets primary (buckets.handles.length + 1) (.head primary)

def commitInsert (location : Location) (hash : UInt32) (id : I) : Buckets I :=
  buckets.modifyValue location.ref fun group ↦ group.set location.slot (some ⟨hash, id⟩)

def clearSlot (location : Location) : Buckets I :=
  buckets.modifyValue location.ref fun group ↦ group.set location.slot none

def insertIntoChain (primary : ℕ) (hash : UInt32) (id : I) : Option (Buckets I) :=
  (prepareInsertLocation arena reserved buckets primary).map fun prepared ↦
    commitInsert prepared.1 prepared.2 hash id

def entryAt (location : Location) : Option (Entry I) :=
  (buckets.value location.ref).bind fun group ↦ group.entryAt location.slot

/-- One pass of the loops of `split_step` and `merge_step`, which end when the arena refuses. -/
def moveSlot (moves : UInt32 → Bool) (ref : Ref Handle) (destination : ℕ) (slot : ℕ) :
    Option (Buckets I) :=
  match entryAt buckets ⟨ref, slot⟩ with
  | some entry =>
    if moves entry.hash then
      (insertIntoChain arena reserved buckets destination entry.hash entry.id).map fun inserted ↦
        clearSlot inserted ⟨ref, slot⟩
    else some buckets
  | none => some buckets

/-- The buckets after the loop, and whether it came to its end. -/
def moveSlots (moves : UInt32 → Bool) (ref : Ref Handle) (destination : ℕ) :
    List ℕ → Buckets I → Buckets I × Bool
  | [], buckets => (buckets, true)
  | slot :: slots, buckets =>
    match moveSlot arena reserved buckets moves ref destination slot with
    | some moved => moveSlots moves ref destination slots moved
    | none => (buckets, false)

/-- Whether a group that exists is empty. -/
def isEmptyGroup (ref : Ref Handle) : Bool :=
  match buckets.value ref with
  | some group => group.size = 0
  | none => false

def unlinkEmptyOverflow (victim : Handle) : Buckets I :=
  match buckets.cell (.node victim) with
  | some cell =>
    if cell.value.size ≠ 0 ∨ buckets.heads ≤ cell.owner then buckets else buckets.unlink victim
  | none => buckets

end Insertion

/-! ## Maintenance -/

section Maintenance

variable (arena : Arena) (index : Index I)

def ensurePrimary : Index I :=
  if index.primaryCount = 0 then
    { index with buckets := index.buckets.pushHead Group.empty, levelSize := 1, split := 0 }
  else index

def appendPrimary : Except LengthError (Index I) :=
  if noBucket ≤ index.primaryCount then .error .primarySpace
  else
    (index.directory.append arena index.usedCells (index.primaryCount - 1)).map fun directory ↦
      { index with buckets := index.buckets.pushHead Group.empty, directory := directory }

def popEmptyLastPrimary : Index I :=
  { index with
    buckets := index.buckets.popHead
    directory := index.directory.pop (index.primaryCount - 2) }

def startSplitIfNeeded : Index I :=
  if index.splitActive || index.mergeActive || index.primaryCount = 0 ||
      index.size ≤ index.primaryCount * 13 then index
  else
    match appendPrimary arena index with
    | .error _ => index
    | .ok appended => { appended with splitActive := true, splitCursor := none }

/-- At a level of no buckets the split position wraps around. -/
def startMergeIfNeeded : Index I :=
  if index.splitActive || index.mergeActive || index.primaryCount ≤ 1 ||
      (index.primaryCount - 1) * 6 ≤ index.size then index
  else
    let levelSize := if index.split ≠ 0 then index.levelSize else index.levelSize / 2
    let split := if index.split ≠ 0 then index.split - 1 else (levelSize + 2 ^ 64 - 1) % 2 ^ 64
    { index with
      levelSize := levelSize
      split := split
      mergeSource := index.primaryCount - 1
      mergeDestination := split % 2 ^ 32
      mergeActive := true
      mergeCursor := none }

/-- The group a cursor is at. -/
def cursorRef (primary : ℕ) : Option Handle → Ref Handle
  | none => .head primary
  | some handle => .node handle

/-- The slots of the group at the cursor that move, up to the one the arena refuses. -/
def moveGroup (moves : UInt32 → Bool) (source destination : ℕ) (cursor : Option Handle) :
    Buckets I × Bool :=
  moveSlots arena index.directory.cells moves (cursorRef source cursor) destination
    (List.range 16) index.buckets

/-- An overflow group is given back when nothing is left of it. -/
def releaseGroup (buckets : Buckets I) : Option Handle → Buckets I
  | none => buckets
  | some handle =>
    if isEmptyGroup buckets (.node handle) then unlinkEmptyOverflow buckets handle else buckets

def splitStep : Index I :=
  let next := index.buckets.next (cursorRef index.splitSource index.splitCursor)
  let moved := moveGroup arena index index.leaves index.splitSource index.splitDestination
    index.splitCursor
  if !moved.2 then { index with buckets := moved.1 }
  else
    let advanced := { index with
      buckets := releaseGroup moved.1 index.splitCursor
      splitCursor := next }
    match next with
    | some _ => advanced
    | none =>
      if index.split + 1 = index.levelSize then
        { advanced with splitActive := false, levelSize := 2 * index.levelSize, split := 0 }
      else { advanced with splitActive := false, split := index.split + 1 }

def mergeStep : Index I :=
  let next := index.buckets.next (cursorRef index.mergeSource index.mergeCursor)
  let moved := moveGroup arena index (fun _ ↦ true) index.mergeSource index.mergeDestination
    index.mergeCursor
  if !moved.2 then { index with buckets := moved.1 }
  else
    let released := releaseGroup moved.1 index.mergeCursor
    match next with
    | some _ => { index with buckets := released, mergeCursor := next }
    | none =>
      { popEmptyLastPrimary { index with buckets := released } with
        mergeActive := false
        mergeCursor := none
        mergeSource := noBucket
        mergeDestination := noBucket }

def advanceActiveMaintenance : Index I :=
  if index.splitActive then splitStep arena index
  else if index.mergeActive then mergeStep arena index
  else index

/-- What `maintenance_step` and `run_maintenance_steps` do when nothing is in flight. -/
def startMaintenance : Index I :=
  if index.splitActive || index.mergeActive then index
  else
    let started := startSplitIfNeeded arena index
    if started.splitActive then started else startMergeIfNeeded started

def maintenanceStep : Index I := advanceActiveMaintenance arena (startMaintenance arena index)

def runMaintenanceSteps (index : Index I) : ℕ → Index I
  | 0 => index
  | steps + 1 =>
    let started := startMaintenance arena index
    if started.splitActive || started.mergeActive then
      runMaintenanceSteps (advanceActiveMaintenance arena started) steps
    else started

end Maintenance

/-! ## Operations -/

/-- A double as a rational; what is not a number reads as zero, and infinity as any number above
one. -/
abbrev Density := ℚ

/-- The number of buckets `reserve_for_density` computes. -/
def bucketsForDensity (expectedSize : ℕ) (density : Density) : ℕ :=
  let honored : ℚ := if 0 < density ∧ density ≤ 1 then density else 13 / 16
  let quotient := roundRat (toDouble expectedSize / (min honored (13 / 16) * 16))
  max 1 ⌊roundRat (quotient + roundRat (999999999 / 1000000000))⌋₊

section Operations

variable (config : Config M) (arena : Arena) (index : Index I)

/-- The loop of `reserve_for_density`, which leaves the primaries it has appended when it throws. -/
def appendPrimaries : ℕ → Index I → Index I × Except LengthError Unit
  | 0, index => (index, .ok ())
  | missing + 1, index =>
    match appendPrimary arena index with
    | .error thrown => (index, .error thrown)
    | .ok appended => appendPrimaries missing appended

/-- Nothing is reserved unless the index is empty and idle; primaries beyond the number wanted are
kept. -/
def reserveForDensity (expectedSize : ℕ) (density : Density) : Index I × Except LengthError Unit :=
  if index.size ≠ 0 || index.splitActive || index.mergeActive || expectedSize = 0 then
    (index, .ok ())
  else
    let buckets := bucketsForDensity expectedSize density
    if noBucket ≤ buckets then (index, .error .primarySpace)
    else
      let ensured := ensurePrimary index
      let appended := appendPrimaries arena (buckets - ensured.primaryCount) ensured
      match appended.2 with
      | .error thrown => (appended.1, .error thrown)
      | .ok () =>
        ({ appended.1 with
          levelSize := 2 ^ buckets.log2
          split := buckets - 2 ^ buckets.log2 }, .ok ())

def reserveAdditional (additional : ℕ) : Index I × Except LengthError Unit :=
  if additional = 0 || index.size ≠ 0 || index.splitActive || index.mergeActive then
    (index, .ok ())
  else reserveForDensity arena index additional (13 / 16)

/-- `insert_known_absent` and the step behind it. -/
def insertKnownAbsent (hash : UInt32) (id : I) : Index I × Except LengthError Unit :=
  let ensured := ensurePrimary index
  match insertIntoChain arena ensured.directory.cells ensured.buckets (ensured.address hash) hash
      id with
  | none => (ensured, .error .arenaExhausted)
  | some buckets =>
    (maintenanceStep arena { ensured with buckets := buckets, size := ensured.size + 1 }, .ok ())

def insertPacked (member : M) (id : I) : Index I × Except LengthError Unit :=
  insertKnownAbsent arena index (config.hashMember member) id

/-- An emptied overflow group is given back, unless a cursor is at it. -/
def unlinkIfEmptied : Ref Handle → Index I
  | .head _ => index
  | .node handle =>
    if isEmptyGroup index.buckets (.node handle) && index.splitCursor ≠ some handle &&
        index.mergeCursor ≠ some handle then
      { index with buckets := unlinkEmptyOverflow index.buckets handle }
    else index

def eraseAtIndex (location : Location) : Index I × Bool :=
  match entryAt index.buckets location with
  | none => (index, false)
  | some _ =>
    let cleared := { index with
      buckets := clearSlot index.buckets location
      size := index.size - 1 }
    (maintenanceStep arena (unlinkIfEmptied cleared location.ref), true)

def clear : Index I := {}

/-- The slot that `find_or_emplace` fills: the empty one that its lookup has seen, or a new one. -/
def emplaceLocation (hash : UInt32) : Option Location → Option (Buckets I × Location)
  | some location => some (index.buckets, location)
  | none => prepareInsertLocation arena index.directory.cells index.buckets (index.address hash)

def emplace (hash : UInt32) (id : I) (emptyLocation : Option Location) : Option (Index I) :=
  (emplaceLocation arena index hash emptyLocation).map fun prepared ↦
    { index with
      buckets := commitInsert prepared.1 prepared.2 hash id
      size := index.size + 1 }

section Lookup

variable [DecidableEq M] (view : I → M)

/-- The location of a member, and the first empty slot of its home chain. -/
def findLocationWithHash (member : M) (hash : UInt32) : Option Location × Option Location :=
  if index.primaryCount = 0 then (none, none)
  else
    let target := index.address hash
    let home := findInChain view index.buckets target member hash
    let splitting := if index.splitActive && target = index.splitDestination then
        (findInChain view index.buckets index.splitSource member hash).1 else none
    let merging := if index.mergeActive && target = index.mergeDestination then
        (findInChain view index.buckets index.mergeSource member hash).1 else none
    ((home.1.or splitting).or merging, home.2)

def findLocation (member : M) : Option Location :=
  (findLocationWithHash index view member (config.hashMember member)).1

def find (member : M) : Option I :=
  ((findLocation config index view member).bind (entryAt index.buckets)).map Entry.id

def insert (member : M) (id : I) : Index I × Except LengthError Bool :=
  match findLocation config index view member with
  | some _ => (index, .ok false)
  | none =>
    let inserted := insertKnownAbsent arena index (config.hashMember member) id
    (inserted.1, inserted.2.map fun _ ↦ true)

/-- The index after a miss, and whether the member was missing. -/
def findOrEmplace (member : M) (id : I) (maintain : Bool) : Index I × Except LengthError Bool :=
  let hash := config.hashMember member
  let found := findLocationWithHash index view member hash
  match found.1 with
  | some _ => (index, .ok false)
  | none =>
    let ensured := ensurePrimary index
    match emplace arena ensured hash id found.2 with
    | none => (ensured, .error .arenaExhausted)
    | some inserted => (if maintain then maintenanceStep arena inserted else inserted, .ok true)

variable [DecidableEq I]

/-- The id in the slot of the old id's bytes is replaced, if it is the old id. -/
def moveMemberId (oldId newId : I) : Index I × Bool :=
  match findLocation config index view (view oldId) with
  | none => (index, false)
  | some location =>
    match entryAt index.buckets location with
    | some entry =>
      if entry.id = oldId then
        ({ index with buckets := commitInsert index.buckets location entry.hash newId }, true)
      else (index, false)
    | none => (index, false)

end Lookup

end Operations

end GoblinCore.LinearHashIndex
