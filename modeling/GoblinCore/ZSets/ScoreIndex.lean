import GoblinCore.Foundation.SumTree
import GoblinCore.Ttl.ChunkedSortedList
import GoblinCore.Values.ZSetValue

/-!
# The score index of a full sorted set

The ids of the members in the order of their scores and names, cut into blocks as the chunked
sorted list is.  An entry holds an id; the name behind it is looked up in the member storage, so
every comparison takes the names as a parameter.

The vectors `maxes_` and `mins_` hold the last and the first entry of each block with entries, so
they are computed here.  The tree `index_` over the sizes of the blocks is kept as the code keeps it: a
query builds it, an entry more or less changes it along one path, and cutting or merging blocks
drops it.  Of the location caches of the rank modes only what they propose for a member is here, and
it may be anything: the code takes a proposal only if the entry is there.
-/

namespace GoblinCore

open Refusable MemoryLimit Ordered ChunkedSortedList Comp

/-- An entry of the score index. -/
structure ScoreEntry (σ : Type) where
  score : σ
  memberId : ℕ
  deriving DecidableEq

abbrev ScoreIndex (σ : Type) := ChunkedSortedList (ScoreEntry σ)

/-- What the blocks are cut by: `load_`, the switch `trim_enabled_`, and whether there is a memory
ceiling at all. -/
structure IndexOptions where
  load : ℕ
  trimEnabled : Bool := true
  ceilingActive : Bool := false
  /-- The place that the location cache has for a member, by the ids in the blocks. -/
  located : List (List ℕ) → ℕ → Option (ℕ × ℕ) := fun _ _ ↦ none
  /-- Two blocks of the largest size together are within 32 bits. -/
  loadFits : load < 2 ^ 30 := by decide

namespace ScoreIndex

/-! ## Order -/

/-- The first four bytes of a name as a number, the first byte in front. -/
def zsetMemberPrefix (name : Bytes) : ℕ :=
  (List.range 4).foldl (fun packed position ↦ packed * 256 + (name.getD position 0).toNat) 0

/-- Names with equal prefixes are compared in full. -/
def lessTiebreak (first second : Bytes) : Bool :=
  if zsetMemberPrefix first ≠ zsetMemberPrefix second then
    decide (zsetMemberPrefix first < zsetMemberPrefix second)
  else decide (first < second)

variable {σ : Type}

def less [Score σ] (view : ℕ → Bytes) (first second : ScoreEntry σ) : Bool :=
  if Score.lt first.score second.score then true
  else if Score.lt second.score first.score then false
  else lessTiebreak (view first.memberId) (view second.memberId)

/-- The entry a search is after. -/
def isEntry [Score σ] (wanted entry : ScoreEntry σ) : Bool :=
  Score.eq entry.score wanted.score && entry.memberId == wanted.memberId

/-! ## Blocks -/

/-- `Block::allocation_capacity`. -/
def allocationCapacity (load required : ℕ) : ℕ :=
  if required ≤ 16 then 16
  else if required ≤ 64 then 64
  else if required ≤ load then load
  else if load * 2 + 1 < required then required
  else if load * 2 ≤ required then load * 2 + 1
  else min ((required + 63) / 64 * 64) (load * 2 + 1)

/-- `capacity_` has 32 bits. -/
def storedCapacity (load required : ℕ) : ℕ := allocationCapacity load required % 2 ^ 32

variable (options : IndexOptions) {α : Type}

/-- `Block::validate`. -/
def blockValid (block : Block α) : Bool :=
  decide (block.items.length ≤ block.capacity ∧ block.capacity ≤ options.load * 2 + 1)

def trim (block : Block α) : Block α :=
  if options.trimEnabled = true ∧
    allocationCapacity options.load block.items.length < block.capacity
  then { block with capacity := storedCapacity options.load block.items.length }
  else block

/-- The halves of a block: the left one may give memory back, the right one is new. -/
def halves (block : Block α) : List (Block α) :=
  let splitAt := block.items.length / 2
  [trim options { block with items := block.items.take splitAt },
    { items := block.items.drop splitAt
      capacity := storedCapacity options.load (block.items.length - splitAt) }]

def insertAt (offset : ℕ) (value : α) (block : Block α) : List (Block α) :=
  [{ block with items := block.items.take offset ++ value :: block.items.drop offset }]

/-- A block left empty goes as well. -/
def without (offset : ℕ) (block : Block α) : List (Block α) :=
  match block.items.eraseIdx offset with
  | [] => []
  | items => [{ block with items := items }]

/-- `Block::move_entry`; the target is counted without the entry that moves. -/
def moveEntry (source target : ℕ) (value : α) (block : Block α) : List (Block α) :=
  let rest := block.items.eraseIdx source
  [{ block with items := rest.take target ++ value :: rest.drop target }]

/-! ## Searching -/

/-- The first block whose last entry fails the test. -/
def lowerBlock (test : α → Bool) (index : ChunkedSortedList α) : ℕ :=
  (index.maxes.takeWhile test).length

/-- `locate_insert_position`: past the last block it is the end of that block. -/
def insertPosition (test : α → Bool) (index : ChunkedSortedList α) : ℕ × ℕ :=
  match index.blocks[lowerBlock test index]? with
  | some block => (lowerBlock test index, (block.items.takeWhile test).length)
  | none => (index.blocks.length - 1, index.blockSize (index.blocks.length - 1))

def entryAt (location : ℕ × ℕ) (index : ChunkedSortedList α) : Option α :=
  index.blocks[location.1]?.bind fun block ↦ block.items[location.2]?

/-! ## The position tree -/

/-- The sizes of the blocks. -/
def sizes (index : ChunkedSortedList α) : List ℕ := index.blocks.map fun block ↦ block.items.length

/-- `build_index`, when its memory is granted. -/
def buildIndex (index : ChunkedSortedList α) : ChunkedSortedList α :=
  if index.positions = [] ∧ index.blocks ≠ [] then
    { index with positions := SumTree.build (sizes index) }
  else index

def invalidateIndex (index : ChunkedSortedList α) : ChunkedSortedList α :=
  { index with positions := [] }

def updateIndex (position : ℕ) (change : ℕ → ℕ) (index : ChunkedSortedList α) :
    ChunkedSortedList α :=
  if index.positions = [] then index
  else { index with positions := SumTree.update change position index.positions }

/-- `prefix_size`, the number of entries before a block; without the tree the sizes are added up. -/
def prefixSize (position : ℕ) (index : ChunkedSortedList α) : ℕ :=
  if index.positions = [] then ((sizes index).take position).sum
  else SumTree.sumBefore index.positions position

/-- The place of a position, block by block. -/
def scan : List ℕ → ℕ → ℕ × ℕ
  | [], _ => (0, 0)
  | size :: rest, position =>
    if position < size then (0, position)
    else ((scan rest (position - size)).1 + 1, (scan rest (position - size)).2)

/-- `position_at`. -/
def positionAt (position : ℕ) (index : ChunkedSortedList α) : ℕ × ℕ :=
  if index.positions = [] then scan (sizes index) position
  else SumTree.find index.positions position

/-- The loop of `for_range`: `count` entries from an offset in the first block on. -/
def walk : ℕ → ℕ → List (Block α) → List α
  | _, _, [] => []
  | offset, count, block :: rest =>
    let taken := min count (block.items.length - offset)
    (block.items.drop offset).take taken ++ walk 0 (count - taken) rest

def forRange (start count : ℕ) (index : ChunkedSortedList α) : List α :=
  if count = 0 ∨ index.size ≤ start then []
  else
    let place := positionAt start index
    walk place.2 (min count (index.size - start)) (index.blocks.drop place.1)

/-- The loop of `for_reverse_range`; the blocks come from right to left. -/
def walkBack : ℕ → ℕ → List (Block α) → List α
  | _, _, [] => []
  | offset, count, block :: rest =>
    let taken := min count (offset + 1)
    (block.items.take (offset + 1)).reverse.take taken ++
      if count = taken then []
      else walkBack ((rest.head?.map fun next ↦ next.items.length).getD 0 - 1) (count - taken) rest

def forReverseRange (start count : ℕ) (index : ChunkedSortedList α) : List α :=
  if count = 0 ∨ index.size ≤ start then []
  else
    let place := positionAt (index.size - 1 - start) index
    walkBack place.2 (min count (index.size - start)) (index.blocks.take (place.1 + 1)).reverse

/-- `first_position_by_score`. -/
def firstPosition (test : α → Bool) (index : ChunkedSortedList α) : ℕ :=
  match index.blocks[lowerBlock test index]? with
  | some block =>
    prefixSize (lowerBlock test index) index + (block.items.takeWhile test).length
  | none => index.size

section Locate

variable [Score σ] (view : ℕ → Bytes)

/-- `locate_entry`. -/
def locate (wanted : ScoreEntry σ) (index : ScoreIndex σ) : Option (ℕ × ℕ) :=
  match index.blocks[lowerBlock (less view · wanted) index]? with
  | some block =>
    let offset := (block.items.takeWhile (less view · wanted)).length
    if block.items[offset]?.any (isEntry wanted) then
      some (lowerBlock (less view · wanted) index, offset)
    else none
  | none => none

/-- The place of an entry when one of the rank caches has an idea where it is: the idea is used only
if the entry is there. -/
def locateCached (hint : Option (ℕ × ℕ)) (wanted : ScoreEntry σ) (index : ScoreIndex σ) :
    Option (ℕ × ℕ) :=
  (hint.filter fun place ↦ (entryAt place index).any (isEntry wanted)).or (locate view wanted index)

/-- The ids in the blocks. -/
def ids (index : ScoreIndex σ) : List (List ℕ) :=
  index.blocks.map fun block ↦ block.items.map ScoreEntry.memberId

/-- `find_entry_location`: the cache first. -/
def findEntryLocation (wanted : ScoreEntry σ) (index : ScoreIndex σ) : Option (ℕ × ℕ) :=
  locateCached view (options.located (ids index) wanted.memberId) wanted index

/-- All places of the index in order, with what is there. -/
def places (index : ChunkedSortedList α) : List ((ℕ × ℕ) × α) :=
  index.blocks.zipIdx.flatMap fun block ↦
    block.1.items.zipIdx.map fun item ↦ ((block.2, item.2), item.1)

def rank (wanted : ScoreEntry σ) (index : ScoreIndex σ) : Option ℕ :=
  (findEntryLocation options view wanted index).map fun location ↦
    prefixSize location.1 index + location.2

/-- The entry at a place is not out of order with its neighbours. -/
def orderValidAt (location : ℕ × ℕ) (index : ScoreIndex σ) : Bool :=
  let flat := index.toList
  let position := (index.before location.1).length + location.2
  match flat[position]? with
  | none => false
  | some value =>
    !(decide (0 < position) && (flat[position - 1]?.any fun earlier ↦ less view value earlier)) &&
      !(flat[position + 1]?.any fun later ↦ less view later value)

/-- `ZSetScoreIndex::score_range_bounds`: the first position and the number of entries. -/
def scoreRangeBounds (min : σ) (minExclusive : Bool) (max : σ) (maxExclusive : Bool)
    (index : ScoreIndex σ) : ℕ × ℕ :=
  if index.blocks.isEmpty || Score.isNan min || Score.isNan max || Score.lt max min ||
      (Score.eq min max && (minExclusive || maxExclusive)) then (0, 0)
  else
    let position (bound : σ) (strictlyGreater : Bool) : ℕ :=
      if strictlyGreater then firstPosition (fun entry ↦ !Score.lt bound entry.score) index
      else firstPosition (fun entry ↦ Score.lt entry.score bound) index
    let first := position min minExclusive
    let last := position max !maxExclusive
    (first, last - first)

/-- `ZSetScoreIndex::validate`. -/
def validate (index : ScoreIndex σ) : Bool :=
  decide (index.blocks.length = index.maxes.length) &&
    if index.blocks.isEmpty then decide (index.size = 0)
    else
      index.blocks.all (blockValid options) &&
        decide (index.toList.IsChain fun first second ↦ less view second first = false) &&
        decide (index.toList.length = index.size)

end Locate

/-! ## Changing blocks -/

section Changes

/-- A block is cut in halves; all callers of `split_block` drop the position tree. -/
def cutBlock (position : ℕ) (index : ChunkedSortedList α) : ChunkedSortedList α :=
  invalidateIndex (index.changeBlock position (halves options))

/-- `split_block`: room in the vectors and for the right half, then the cut. -/
def splitBlock (position : ℕ) : StoreComp (ChunkedSortedList α) Unit := do
  ensureMemoryGrowth
  ensureMemoryGrowth
  modify (cutBlock options position)

def reserveBlock (position required : ℕ) : StoreComp (ChunkedSortedList α) Unit := do
  let index ← get
  when (index.blockCapacity position < required) (do
    ensureMemoryGrowth
    set (index.setBlockCapacity position (storedCapacity options.load required)))

/-- The left block with the entries of the right one behind its own. -/
def merged (left right : Block α) : Block α where
  items := left.items ++ right.items
  capacity :=
    if left.capacity < left.items.length + right.items.length then
      storedCapacity options.load (left.items.length + right.items.length)
    else left.capacity

def mergeBlocks (position : ℕ) (left right : Block α) (index : ChunkedSortedList α) :
    ChunkedSortedList α :=
  { index with
    blocks := index.blocks.take position ++ [merged options left right] ++
      index.blocks.drop (position + 2)
    positions := [] }

/-- `merge_with_next`; a merge that is cut again at once is put off under a ceiling. -/
def mergeWithNext (position : ℕ) : StoreComp (ChunkedSortedList α) Unit := do
  let index ← get
  match index.blocks[position]?, index.blocks[position + 1]? with
  | some left, some right =>
    let required := left.items.length + right.items.length
    when (¬(options.ceilingActive = true ∧ options.load * 2 < required)) (do
      let granted ← memoryGrowthAllowed
        (allocationCapacity options.load required - left.capacity)
      when (granted = true) (do
        modify (mergeBlocks options position left right)
        when (options.load * 2 < required) (catchBadAlloc (splitBlock options position))))
  | _, _ => pure ()

def rebalanceAfterErase (position : ℕ) : StoreComp (ChunkedSortedList α) Unit := do
  let index ← get
  mergeWithNext options (if position + 1 < index.blocks.length then position else position - 1)

/-- When a block that shrank is merged with a neighbour. -/
inductive EraseRebalancePolicy where
  | default
  | remove
  | none

def EraseRebalancePolicy.threshold (load : ℕ) : EraseRebalancePolicy → ℕ
  | .default => load / 2
  | .remove => load / 4
  | .none => 0

def finishEraseBlock (policy : EraseRebalancePolicy) (position : ℕ) :
    StoreComp (ChunkedSortedList α) Unit := do
  let index ← get
  when (index.blockSize position < policy.threshold options.load ∧ 1 < index.blocks.length)
    (rebalanceAfterErase options position)

/-- The entry at a place goes, and with its last entry the block. -/
def dropEntry (location : ℕ × ℕ) (index : ChunkedSortedList α) : ChunkedSortedList α :=
  let dropped := { index.changeBlock location.1 (without location.2) with size := index.size - 1 }
  if index.blockSize location.1 = 1 then invalidateIndex dropped
  else updateIndex location.1 (· - 1) dropped

def eraseAt (policy : EraseRebalancePolicy) (location : ℕ × ℕ) :
    StoreComp (ChunkedSortedList α) Unit := do
  let index ← get
  set (dropEntry location index)
  when (index.blockSize location.1 ≠ 1) (finishEraseBlock options policy location.1)

/-- The first entry: the block is in the index before it has room for an entry. -/
def insertFirst (value : α) : StoreComp (ChunkedSortedList α) Unit := do
  ensureMemoryGrowth
  modify fun index ↦ { index with blocks := [{ items := [], capacity := 0 }] }
  ensureMemoryGrowth
  modify fun index ↦
    { index with
      blocks := [{ items := [value], capacity := storedCapacity options.load 1 }]
      size := 1
      positions := [] }

def addEntry (location : ℕ × ℕ) (value : α) (index : ChunkedSortedList α) : ChunkedSortedList α :=
  updateIndex location.1 (· + 1)
    { index.changeBlock location.1 (insertAt location.2 value) with size := index.size + 1 }

def insertIntoBlock (test : α → Bool) (value : α) : StoreComp (ChunkedSortedList α) Unit := do
  let index ← get
  let target := insertPosition test index
  reserveBlock options target.1 (index.blockSize target.1 + 1)
  modify (addEntry target value)
  when (options.load * 2 < index.blockSize target.1 + 1)
    (catchBadAlloc (splitBlock options target.1))

/-- `insert`: a block that could not be cut earlier is cut before it takes another entry. -/
def insert (test : α → Bool) (value : α) : StoreComp (ChunkedSortedList α) Unit := do
  -- The scores may have to be widened, and the location caches to grow.
  ensureMemoryGrowth
  let index ← get
  if index.blocks.isEmpty then
    insertFirst options value
  else
    when (options.load * 2 < index.blockSize (insertPosition test index).1)
      (splitBlock options (insertPosition test index).1)
    insertIntoBlock options test value

/-- Merge a block that a transfer left short, if the merged block need not be cut again. -/
def mergeUnderfilled (position : ℕ) : StoreComp (ChunkedSortedList α) Unit := do
  let index ← get
  let left := if position + 1 < index.blocks.length then position else position - 1
  when (index.blockSize position < options.load / 2 ∧ 1 < index.blocks.length ∧
      index.blockSize left + index.blockSize (left + 1) ≤ options.load * 2)
    (catchBadAlloc (mergeWithNext options left))

/-- Where a place ends up when the block at `position` is cut at `splitAt`. -/
def shifted (position splitAt : ℕ) (place : ℕ × ℕ) : ℕ × ℕ :=
  if position < place.1 then (place.1 + 1, place.2)
  else if place.1 = position ∧ splitAt ≤ place.2 then (place.1 + 1, place.2 - splitAt)
  else place

/-- The entry goes to a block that may take one more, and leaves its old place. -/
def transferInto (source target : ℕ × ℕ) (value : α) : StoreComp (ChunkedSortedList α) Unit := do
  let index ← get
  reserveBlock options target.1 (index.blockSize target.1 + 1)
  modify (addEntry target value)
  eraseAt options .none source
  when (index.blockSize source.1 ≠ 1) (mergeUnderfilled options source.1)

/-- The tail of `rescore` when the entry goes to another block: a full one is cut first. -/
def transfer (source target : ℕ × ℕ) (value : α) : StoreComp (ChunkedSortedList α) Unit := do
  let index ← get
  if options.load * 2 ≤ index.blockSize target.1 then
    let splitAt := index.blockSize target.1 / 2
    splitBlock options target.1
    transferInto options (shifted target.1 splitAt source) (shifted target.1 splitAt target) value
  else
    transferInto options source target value

end Changes

section Entries

variable [Score σ] (view : ℕ → Bytes)

def rescore (old new : ScoreEntry σ) : StoreComp (ScoreIndex σ) Bool := do
  ensureMemoryGrowth
  let index ← get
  match findEntryLocation options view old index with
  | none => pure false
  | some source =>
    let target := insertPosition (less view · new) index
    if target.1 = source.1 then
      let offset := if source.2 < target.2 then target.2 - 1 else target.2
      modify (changeBlock source.1 (moveEntry source.2 offset new))
      pure true
    else
      transfer options source target new
      pure true

def eraseOne (wanted : ScoreEntry σ) : StoreComp (ScoreIndex σ) Bool := do
  let index ← get
  match findEntryLocation options view wanted index with
  | none => pure false
  | some location =>
    eraseAt options .default location
    pure true

/-- Give the entry at a place another id. -/
def setMemberId (location : ℕ × ℕ) (id : ℕ) (index : ScoreIndex σ) : ScoreIndex σ :=
  index.changeBlock location.1 fun block ↦
    [{ block with items := block.items.modify location.2 ({ · with memberId := id }) }]

/-- `replace_member_id`: find the entry among those of its score. -/
def replaceMemberId (entry : ScoreEntry σ) (id : ℕ) : StoreComp (ScoreIndex σ) Bool := do
  let index ← get
  match (places index).find? fun place ↦ isEntry entry place.2 with
  | none => pure false
  | some place =>
    set (setMemberId place.1 id index)
    if (setMemberId place.1 id index).orderValidAt view place.1 then
      pure true
    else
      eraseAt options .default place.1
      insert options (less view · ⟨entry.score, id⟩) ⟨entry.score, id⟩
      pure true

/-- `retarget_member_id_at`, which takes the new id back when it is out of order there. -/
def retargetMemberIdAt (location : ℕ × ℕ) (id : ℕ) : StoreComp (ScoreIndex σ) Bool := do
  let index ← get
  if (setMemberId location id index).orderValidAt view location then
    set (setMemberId location id index)
    pure true
  else
    pure false

/-- `erase_and_retarget_same_block`. -/
def eraseAndRetargetSameBlock (removed last : ℕ × ℕ) (lastEntry : ScoreEntry σ) (id : ℕ) :
    StoreComp (ScoreIndex σ) Bool := do
  let index ← get
  if removed.2 ≠ last.2 ∧ (entryAt removed index).isSome ∧
      (entryAt last index).any (isEntry lastEntry) then
    let offset := if removed.2 < last.2 then last.2 - 1 else last.2
    let moved := setMemberId (removed.1, offset) id
      { index.changeBlock removed.1 (without removed.2) with size := index.size - 1 }
    set moved
    if moved.orderValidAt view (removed.1, offset) then
      set (updateIndex removed.1 (· - 1) moved)
      finishEraseBlock options .remove removed.1
      pure true
    else
      pure false
  else
    pure false

/-- Where the last entry is after the removed one is gone, unless blocks were merged. -/
def placeAfterErase (removed last : ℕ × ℕ) (wasSingleton : Bool) : ℕ × ℕ :=
  if removed.1 = last.1 then
    if removed.2 < last.2 then (last.1, last.2 - 1) else last
  else if wasSingleton = true ∧ removed.1 < last.1 then (last.1 - 1, last.2) else last

/-- The tail of `erase_removed_and_retarget_last` when the entries are in different blocks. -/
def eraseThenRetarget (removed last : ℕ × ℕ) (wasSingleton : Bool) (lastEntry : ScoreEntry σ)
    (id : ℕ) : StoreComp (ScoreIndex σ) Bool := do
  eraseAt options .remove removed
  let index ← get
  if (entryAt (placeAfterErase removed last wasSingleton) index).any (isEntry lastEntry) then
    let retargeted ← retargetMemberIdAt view (placeAfterErase removed last wasSingleton) id
    if retargeted then pure true else replaceMemberId options view lastEntry id
  else
    replaceMemberId options view lastEntry id

/-- Remove one entry and give the entry of the last member the id that is free now. -/
def eraseRemovedAndRetargetLast (removed last : ℕ × ℕ) (lastEntry : ScoreEntry σ) (id : ℕ) :
    StoreComp (ScoreIndex σ) Bool := do
  let index ← get
  let wasSingleton := decide (index.blockSize removed.1 = 1)
  if removed.1 = last.1 ∧ wasSingleton = false then
    let done ← eraseAndRetargetSameBlock options view removed last lastEntry id
    if done then pure true
    else eraseThenRetarget options view removed last wasSingleton lastEntry id
  else
    eraseThenRetarget options view removed last wasSingleton lastEntry id

/-- Runs of `load` entries; there are at most as many as entries. -/
def runs (load : ℕ) : ℕ → List (ScoreEntry σ) → List (List (ScoreEntry σ))
  | 0, _ => []
  | _ + 1, [] => []
  | count + 1, entries => entries.take load :: runs load count (entries.drop load)

def assignSorted (entries : List (ScoreEntry σ)) : ScoreIndex σ where
  blocks := (runs options.load entries.length entries).map fun items ↦
    { items := items, capacity := storedCapacity options.load items.length }
  size := entries.length

end Entries

end ScoreIndex

end GoblinCore
