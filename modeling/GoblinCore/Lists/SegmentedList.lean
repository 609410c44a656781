import GoblinCore.Foundation.Fenwick
import GoblinCore.Lists.ListListpack

/-!
# The segmented list

A large list is a sequence of listpack leaves and a Fenwick tree of their counts.  A rank is found
by a descent in the tree and an offset in one leaf.  A change rebuilds the leaf it falls into; a
leaf that gets too large is split and small neighbours are merged, after which the tree is rebuilt.

A call that throws leaves the list as far as it had been changed: the functions return what is left
together with the message.
-/

namespace GoblinCore

open StringEncoding

/-- The arguments of the constructor; the bound keeps a number of values and entries below the
range of `size_t`. -/
structure SegmentedList.Settings where
  lz4 : Lz4
  encoding : StringEncodingOptions
  compression : StringCompressionMode
  requestedEntries : ℕ := 128
  requestedEntries_le : requestedEntries ≤ 2 ^ 63 := by decide

def SegmentedList.Settings.leafEntries (settings : SegmentedList.Settings) : ℕ :=
  max 2 settings.requestedEntries

structure SegmentedList where
  leaves : List ListListpack := []
  fenwick : List UInt32 := []
  size : ℕ := 0

namespace SegmentedList

/-- The list a call leaves, the message if it threw, and the value it removed. -/
structure Outcome where
  list : SegmentedList
  thrown : Option String := none
  removed : Option ByteString := none

/-- A call that changes nothing before it can throw. -/
def Outcome.of (list : SegmentedList) (result : Except String SegmentedList) : Outcome :=
  match result with
  | .ok list => { list }
  | .error message => { list, thrown := some message }

inductive LeafBias where
  | balanced
  | front
  | back
deriving DecidableEq

variable (settings : Settings)

/-! ## The index -/

variable (list : SegmentedList)

def leafAt (leaf : ℕ) : ListListpack := list.leaves.getD leaf {}

def rebuildIndex : SegmentedList :=
  { list with fenwick := Fenwick.build (list.leaves.map ListListpack.count) }

def addCount (leaf : ℕ) (delta : UInt32) : SegmentedList :=
  { list with fenwick := Fenwick.addCount list.fenwick leaf delta }

/-- The leaf of a rank and the offset in it. -/
def locate (rank : ℕ) : ℕ × ℕ :=
  Fenwick.locate list.fenwick list.leaves.length rank

def tailLocation : ℕ × ℕ :=
  (list.leaves.length - 1, (list.leafAt (list.leaves.length - 1)).count)

def checkInvariants : Bool :=
  list.leaves.all (fun leaf ↦ leaf.count ≠ 0 && leaf.count ≤ settings.leafEntries) &&
    (list.leaves.map ListListpack.count).sum = list.size &&
    list.fenwick.length = list.leaves.length + 1 &&
    (Fenwick.prefixCount list.fenwick list.leaves.length).toNat = list.size

/-! ## Building leaves -/

def assignLeaf (values : List ByteString) : Except String (Option ListListpack) :=
  ListListpack.assign settings.lz4 settings.encoding settings.compression values
    settings.leafEntries

def insertInLeaf (leaf : ListListpack) (index : ℕ) (value : ByteString) :
    Except String (Option ListListpack) :=
  leaf.insert settings.lz4 settings.encoding settings.compression index value settings.leafEntries

def leafValues (leaf : ListListpack) : Except String (List ByteString) :=
  (leaf.forEach settings.encoding).mapM fun view ↦ view.toString settings.lz4

/-- The loop of `build_balanced_leaves` over the leaves that are left. -/
def balancedLoop (base extra : ℕ) :
    ℕ → ℕ → List ByteString → Except String (Option (List ListListpack))
  | _, 0, _ => pure (some [])
  | leaf, more + 1, values => do
    let take := base + if leaf < extra then 1 else 0
    match ← assignLeaf settings (values.take take) with
    | none => pure none
    | some packed =>
      let others ← balancedLoop base extra (leaf + 1) more (values.drop take)
      pure (others.map fun others ↦ packed :: others)

def buildBalancedLeaves (values : List ByteString) : Except String (Option (List ListListpack)) :=
  let count := (values.length + settings.leafEntries - 1) / settings.leafEntries
  balancedLoop settings (values.length / count) (values.length % count) 0 count values

/-- The binary search for the largest range that fits a leaf. -/
def search (fits : ℕ → Except String (Option ListListpack)) :
    ℕ → ℕ → ℕ → Option (ℕ × ListListpack) → Except String (Option (ℕ × ListListpack))
  | 0, _, _, best => pure best
  | fuel + 1, low, high, best =>
    if low ≤ high then do
      let take := low + (high - low) / 2
      match ← fits take with
      | some candidate => search fits fuel (take + 1) high (some (take, candidate))
      | none => search fits fuel low (take - 1) best
    else pure best

def leafMisfit : String := "list value does not fit packed leaf"

/-- The largest range at the end of the bias that fits a leaf. -/
def nextGreedy (bias : LeafBias) (values : List ByteString) :
    Except String (Option (ℕ × ListListpack)) :=
  let high := min settings.leafEntries values.length
  search (fun take ↦ assignLeaf settings
    (if bias = .front then values.drop (values.length - take) else values.take take)) high 1 high
    none

/-- The loop of `build_greedy_leaves` over the values that are left. -/
def greedyLoop (bias : LeafBias) : ℕ → List ByteString → Except String (List ListListpack)
  | 0, _ => pure []
  | fuel + 1, values =>
    if values = [] then pure []
    else do
      match ← nextGreedy settings bias values with
      | none => throw leafMisfit
      | some (best, leaf) =>
        if bias = .front then do
          let others ← greedyLoop bias fuel (values.take (values.length - best))
          pure (others ++ [leaf])
        else do
          let others ← greedyLoop bias fuel (values.drop best)
          pure (leaf :: others)

def buildGreedyLeaves (values : List ByteString) (bias : LeafBias) :
    Except String (List ListListpack) :=
  greedyLoop settings bias values.length values

def buildLeaves (values : List ByteString) (bias : LeafBias) : Except String (List ListListpack) :=
  if values = [] then pure []
  else if bias = .balanced then do
    match ← buildBalancedLeaves settings values with
    | some replacements => pure replacements
    | none => buildGreedyLeaves settings values bias
  else buildGreedyLeaves settings values bias

/-- A full range if it fits a leaf, and the largest that does otherwise. -/
def nextView (values : List ByteString) : Except String (Option (ℕ × ListListpack)) := do
  let maximum := min settings.leafEntries values.length
  match ← assignLeaf settings (values.take maximum) with
  | some leaf => pure (some (maximum, leaf))
  | none =>
    search (fun take ↦ assignLeaf settings (values.take take)) maximum 1 (maximum - 1) none

/-- The loop of `build_view_leaves` over the values that are left. -/
def viewLoop : ℕ → List ByteString → Except String (List ListListpack)
  | 0, _ => pure []
  | fuel + 1, values =>
    if values = [] then pure []
    else do
      match ← nextView settings values with
      | none => throw leafMisfit
      | some (best, leaf) =>
        let others ← viewLoop fuel (values.drop best)
        pure (leaf :: others)

def buildViewLeaves (values : List ByteString) : Except String (List ListListpack) :=
  viewLoop settings values.length values

def replaceLeafRange (leaf removeCount : ℕ) (values : List ByteString)
    (bias : LeafBias) : Except String SegmentedList := do
  let replacements ← buildLeaves settings values bias
  pure (rebuildIndex { list with leaves := splice list.leaves leaf removeCount replacements })

def replaceLeaf (leaf : ℕ) (values : List ByteString) (bias : LeafBias) :
    Except String SegmentedList :=
  replaceLeafRange settings list leaf 1 values bias

/-- Merges a leaf with the one before it, or the first with the second. -/
def maybeMerge (leaf : ℕ) : Except String SegmentedList :=
  let left := if leaf ≠ 0 then leaf - 1 else leaf
  let right := left + 1
  if list.leaves.length < 2 ∨ list.leaves.length ≤ right ∨
      settings.leafEntries < (list.leafAt left).count + (list.leafAt right).count then pure list
  else
    match (ListListpack.concat {} (list.leafAt left) settings.leafEntries).bind fun merged ↦
        merged.concat (list.leafAt right) settings.leafEntries with
    | some merged =>
      pure (rebuildIndex { list with leaves := splice list.leaves left 2 [merged] })
    | none => do
      let values ← leafValues settings (list.leafAt left)
      let tail ← leafValues settings (list.leafAt right)
      replaceLeafRange settings list left 2 (values ++ tail) .balanced

/-! ## The calls -/

def assignResult (values : List ByteString) : Except String SegmentedList :=
  if 2 ^ 32 - 1 < values.length then throw "list element space exhausted"
  else do
    let leaves ← buildViewLeaves settings values
    pure (rebuildIndex { leaves, size := values.length })

def assign (values : List ByteString) : Outcome :=
  .of list (assignResult settings values)

/-- A leaf of one entry. -/
def singleLeaf (value : ByteString) : Except String ListListpack := do
  match ← insertInLeaf settings {} 0 value with
  | some leaf => pure leaf
  | none => throw leafMisfit

def biasAt (index : ℕ) : LeafBias :=
  if index = list.size then .back else if index = 0 then .front else .balanced

def locationAt (index : ℕ) : ℕ × ℕ :=
  if index = list.size then list.tailLocation else list.locate index

def frontFull : Bool := (list.leafAt 0).count = settings.leafEntries

def backFull : Bool :=
  (list.leafAt (list.leaves.length - 1)).count = settings.leafEntries

/-- Values put into the leaf of their place, and the leaf built anew. -/
def insertRebuilding (index : ℕ) (values : List ByteString)
    (location : ℕ × ℕ) : Except String SegmentedList := do
  let olds ← leafValues settings (list.leafAt location.1)
  let replaced ← replaceLeaf settings list location.1 (splice olds location.2 0 values)
    (list.biasAt index)
  pure { replaced with size := list.size + values.length }

def insertResult (index : ℕ) (value : ByteString) : Except String SegmentedList :=
  if list.leaves = [] then do
    let leaf ← singleLeaf settings value
    pure (rebuildIndex { list with leaves := [leaf], size := 1 })
  else if index = 0 ∧ list.frontFull settings then do
    let leaf ← singleLeaf settings value
    pure (rebuildIndex { list with leaves := leaf :: list.leaves, size := list.size + 1 })
  else if index = list.size ∧ list.backFull settings then do
    let leaf ← singleLeaf settings value
    pure (rebuildIndex { list with leaves := list.leaves ++ [leaf], size := list.size + 1 })
  else do
    let location := list.locationAt index
    match ← insertInLeaf settings (list.leafAt location.1) location.2 value with
    | some leaf =>
      pure (addCount { list with leaves := list.leaves.set location.1 leaf, size := list.size + 1 }
        location.1 1)
    | none => list.insertRebuilding settings index [value] location

def insert (index : ℕ) (value : ByteString) : Outcome :=
  .of list (list.insertResult settings index value)

/-- The loop that fills the last leaf: the leaf, and the values that are left.  What was inserted
before a throw stays in the leaf. -/
def fillBack (tail : ListListpack) :
    List ByteString → Except (String × ListListpack) (ListListpack × List ByteString)
  | [] => .ok (tail, [])
  | value :: rest =>
    if tail.count < settings.leafEntries then
      match insertInLeaf settings tail tail.count value with
      | .error message => .error (message, tail)
      | .ok none => .ok (tail, value :: rest)
      | .ok (some tail) => fillBack tail rest
    else .ok (tail, value :: rest)

/-- The loop that fills the first leaf, over the values from the last on. -/
def fillFront (head : ListListpack) :
    List ByteString → Except (String × ListListpack) (ListListpack × List ByteString)
  | [] => .ok (head, [])
  | value :: rest =>
    if head.count < settings.leafEntries then
      match insertInLeaf settings head 0 value with
      | .error message => .error (message, head)
      | .ok none => .ok (head, value :: rest)
      | .ok (some head) => fillFront head rest
    else .ok (head, value :: rest)

/-- What follows the filling of a leaf: its count is raised, and the values that are left become
leaves of their own at that end. -/
def finishFill (leaf : ℕ) (filled : ListListpack) (added : ℕ)
    (remainder : List ByteString) (toFront : Bool) : Outcome :=
  let list := { list with leaves := list.leaves.set leaf filled }
  let list :=
    if added ≠ 0 then
      { addCount list leaf (UInt32.ofNat added) with size := list.size + added }
    else list
  if remainder = [] then { list }
  else
    match buildViewLeaves settings remainder with
    | .error message => { list, thrown := some message }
    | .ok additions =>
      { list := rebuildIndex { list with
          leaves := if toFront then additions ++ list.leaves else list.leaves ++ additions
          size := list.size + remainder.length } }

/-- `insert_many`; a memory ceiling is active or not. -/
def insertMany (ceiling : Bool) (index : ℕ) (values : List ByteString) : Outcome :=
  if values = [] then { list }
  else if list.leaves = [] then list.assign settings values
  else if ceiling then
    .of list (list.insertRebuilding settings index values (list.locationAt index))
  else if index = list.size ∧ list.backFull settings then
    .of list (do
      let additions ← buildViewLeaves settings values
      pure (rebuildIndex { list with
        leaves := list.leaves ++ additions, size := list.size + values.length }))
  else if index = 0 ∧ list.frontFull settings then
    .of list (do
      let additions ← buildViewLeaves settings values
      pure (rebuildIndex { list with
        leaves := additions ++ list.leaves, size := list.size + values.length }))
  else if index = list.size then
    let last := list.leaves.length - 1
    match fillBack settings (list.leafAt last) values with
    | .error (message, tail) =>
      { list := { list with leaves := list.leaves.set last tail }, thrown := some message }
    | .ok (tail, rest) =>
      list.finishFill settings last tail (values.length - rest.length) rest false
  else if index = 0 then
    match fillFront settings (list.leafAt 0) values.reverse with
    | .error (message, head) =>
      { list := { list with leaves := list.leaves.set 0 head }, thrown := some message }
    | .ok (head, rest) =>
      list.finishFill settings 0 head (values.length - rest.length) rest.reverse true
  else .of list (list.insertRebuilding settings index values (list.locate index))

def adoptListpack (leaf : ListListpack) : Outcome :=
  if leaf.count = 0 then { list := {} }
  else if leaf.count ≤ settings.leafEntries then
    { list := rebuildIndex { leaves := [leaf], size := leaf.count } }
  else
    match leafValues settings leaf with
    | .error message => { list, thrown := some message }
    | .ok values => list.assign settings values

def setResult (index : ℕ) (value : ByteString) : Except String SegmentedList := do
  let location := list.locate index
  let leaf := list.leafAt location.1
  match ← leaf.set settings.lz4 settings.encoding settings.compression location.2 value with
  | some replaced => pure { list with leaves := list.leaves.set location.1 replaced }
  | none =>
    let values ← leafValues settings leaf
    replaceLeaf settings list location.1 (values.set location.2 value) .balanced

def set (index : ℕ) (value : ByteString) : Outcome :=
  .of list (list.setResult settings index value)

/-- `erase`; a throw of the merge comes after the removal. -/
def erase (index : ℕ) : Outcome :=
  let location := list.locate index
  match (list.leafAt location.1).erase settings.lz4 settings.encoding location.2 with
  | .error message => { list, thrown := some message }
  | .ok (removed, leaf) =>
    let list := { list with leaves := list.leaves.set location.1 leaf, size := list.size - 1 }
    if leaf.count = 0 then
      { list := rebuildIndex { list with leaves := list.leaves.eraseIdx location.1 }
        removed := some removed }
    else
      let list := addCount list location.1 (-1)
      { Outcome.of list (maybeMerge settings list location.1) with removed := some removed }

/-- The whole leaves at the front that a removal covers, and what remains of it. -/
def wholeLeaves : List ListListpack → ℕ → ℕ × ℕ
  | [], remaining => (0, remaining)
  | leaf :: rest, remaining =>
    if leaf.count ≤ remaining then
      let found := wholeLeaves rest (remaining - leaf.count)
      (found.1 + 1, found.2)
    else (0, remaining)

/-- `erase_endpoint`. -/
def eraseEndpoint (first count : ℕ) : Outcome :=
  if list.size ≤ first ∨ count = 0 then { list }
  else
    let count := min count (list.size - first)
    let found := wholeLeaves (if first = 0 then list.leaves else list.leaves.reverse) count
    let partialLeaf := if first = 0 then found.1 else list.leaves.length - found.1 - 1
    let leaf := list.leafAt partialLeaf
    let trimmed :=
      if found.2 = 0 then list.leaves
      else list.leaves.set partialLeaf
        (leaf.eraseRange (if first = 0 then 0 else leaf.count - found.2) found.2)
    let leaves :=
      if first = 0 then trimmed.drop found.1 else trimmed.take (list.leaves.length - found.1)
    let list := { list with leaves, size := list.size - count }
    let list :=
      if found.1 ≠ 0 then rebuildIndex list
      else addCount list partialLeaf (-UInt32.ofNat count)
    if list.leaves = [] then { list }
    else .of list (maybeMerge settings list (if first = 0 then 0 else list.leaves.length - 1))

/-- The loop of `compact`, which does not return when neighbours fit by count but not by size. -/
def compactLoop : ℕ → ℕ → SegmentedList → Option Outcome
  | 0, _, _ => none
  | fuel + 1, leaf, list =>
    if leaf + 1 < list.leaves.length then
      if (list.leafAt leaf).count + (list.leafAt (leaf + 1)).count ≤ settings.leafEntries then
        let merged : Except String SegmentedList := do
          let values ← leafValues settings (list.leafAt leaf)
          let next ← leafValues settings (list.leafAt (leaf + 1))
          replaceLeafRange settings list leaf 2 (values ++ next) .balanced
        match merged with
        | .error message => some { list, thrown := some message }
        | .ok list => compactLoop fuel leaf list
      else compactLoop fuel (leaf + 1) list
    else some { list := rebuildIndex list }

/-- `compact`, where it returns within so many rounds. -/
def compact (fuel : ℕ) : Option Outcome := compactLoop settings fuel 0 list

/-! ## Reading -/

/-- The view of a rank: `at`. -/
def viewAt (index : ℕ) : EncodedStringView :=
  let location := list.locate index
  (list.leafAt location.1).viewAt settings.encoding location.2

/-- The loop of `for_range` over the leaves that are left. -/
def rangeLoop : List ListListpack → ℕ → ℕ → List EncodedStringView
  | [], _, _ => []
  | leaf :: rest, offset, remaining =>
    if remaining = 0 then []
    else
      let take := min (leaf.count - offset) remaining
      leaf.forRange settings.encoding offset take ++ rangeLoop rest 0 (remaining - take)

def forRange (first count : ℕ) : List EncodedStringView :=
  if list.size ≤ first ∨ count = 0 then []
  else
    let location := list.locate first
    rangeLoop settings (list.leaves.drop location.1) location.2 (min count (list.size - first))

/-- The loop of `find_first` over the leaves that are left. -/
def findFirstLoop (value : ByteString) : List ListListpack → ℕ → ℕ → Except String (Option ℕ)
  | [], _, _ => pure none
  | leaf :: rest, start, rank => do
    match ← leaf.findFirst settings.lz4 settings.encoding value start with
    | some found => pure (some (rank + found - start))
    | none => findFirstLoop value rest 0 (rank + (leaf.count - start))

def findFirst (value : ByteString) (first : ℕ) : Except String (Option ℕ) :=
  if list.size ≤ first then pure none
  else
    let location := list.locate first
    findFirstLoop settings value (list.leaves.drop location.1) location.2 first

/-- The loop of `find_last` from a leaf down, with the end in it. -/
def findLastLoop (value : ByteString) : ℕ → ℕ → Except String (Option ℕ)
  | 0, _ => pure none
  | leaf + 1, localEnd => do
    match ← (list.leafAt leaf).findLast settings.lz4 settings.encoding value localEnd with
    | some found => pure (some ((Fenwick.prefixCount list.fenwick leaf).toNat + found))
    | none => findLastLoop value leaf (list.leafAt (leaf - 1)).count

def findLast (value : ByteString) (stop : ℕ) : Except String (Option ℕ) :=
  let stop := min stop list.size
  if stop = 0 then pure none
  else
    let location := list.locate (stop - 1)
    list.findLastLoop settings value (location.1 + 1) (location.2 + 1)

end SegmentedList

end GoblinCore
