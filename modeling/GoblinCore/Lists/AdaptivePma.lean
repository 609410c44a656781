import GoblinCore.Foundation.Bitmap
import Mathlib.Data.Rat.Floor

/-!
# The adaptive packed-memory array of lists

References to list values are kept in order in an array with gaps.  A bitmap marks the slots that
are in use and its Fenwick tree converts ranks and slots.  An insertion takes a gap next to its
rank, spreads a window of slots again, or moves everything to a larger array; an erasure may move
everything to a smaller one.  A reference is kept in one 32-bit word as long as the addresses of
the list fit in 31 bits, and all references are split in two words once one does not.
-/

namespace GoblinCore.AdaptivePma

/-! ## References and settings -/

def rawMask : BitVec 32 := 1#32 <<< 31

def blockMask : BitVec 32 := ~~~rawMask

/-- Where the arena of a list keeps a value.  The highest bit of the block says that the prefix of
a raw value is left out. -/
structure ListValueRef where
  block : BitVec 32 := 0
  offset : BitVec 32 := 0
  length : BitVec 16 := 0
deriving DecidableEq

def ListValueRef.rawPrefixOmitted (value : ListValueRef) : Bool := value.block &&& rawMask ≠ 0#32

def ListValueRef.blockIndex (value : ListValueRef) : BitVec 32 := value.block &&& blockMask

/-- Extended floating-point numbers: what rounding keeps on every platform. -/
structure LongDouble where
  round : ℚ → ℚ
  monotone : Monotone round
  exact : ∀ n : ℕ, n < 2 ^ 53 → round n = n

/-- The settings that the constructor leaves: others are replaced by the defaults. -/
structure Settings where
  arithmetic : LongDouble
  maxDensity : ℚ
  resizeGrowth : ℚ
  chunkShift : ℕ
  density_pos : 0 < maxDensity
  density_le_one : maxDensity ≤ 1
  one_lt_growth : 1 < resizeGrowth
  shift_ge : 16 ≤ chunkShift
  shift_le : chunkShift ≤ 32

def Settings.chunkMask (settings : Settings) : BitVec 32 :=
  BitVec.ofNat 32 (2 ^ settings.chunkShift - 1)

/-- A shift of a 32-bit operand.  The language leaves a shift by 32 undefined, and processors take
the count modulo 32. -/
def shiftRight (operand : BitVec 32) (count : ℕ) : BitVec 32 := operand >>> (count % 32)

inductive EndpointBias where
  | byRank
  | front
  | back
deriving DecidableEq

inductive Fault where
  | outOfRange (message : String)
  | lengthError (message : String)
deriving DecidableEq

structure Pma where
  blocks : List (BitVec 32) := []
  offsets : List (BitVec 32) := []
  lengths : List (BitVec 16) := []
  /-- The words of `occupied_` and the tree of `fenwick_`. -/
  occupied : Bitmap := {}
  size : ℕ := 0
  frontBias : ℕ := 1
  backBias : ℕ := 1
deriving DecidableEq

def initialCapacity : ℕ := 8

def nearbyShiftLimit : ℕ := 64

def initialWindow : ℕ := 64

def maxEndpointBias : ℕ := 8

/-- The largest number of elements and of slots. -/
def limit : ℕ := 2 ^ 32 - 1

def elementsExhausted : Fault := .lengthError "list element space exhausted"

def capacityExhausted : Fault := .lengthError "list PMA capacity exhausted"

variable (settings : Settings)

/-! ## Capacities -/

def maxOccupancy (slots : ℕ) : ℕ :=
  if slots = 0 then 0
  else max 1 ⌊settings.arithmetic.round (slots * settings.maxDensity)⌋.toNat

def minimumCapacity (count : ℕ) : Except Fault ℕ :=
  if count = 0 then .ok 0
  else
    let required := ⌈settings.arithmetic.round (count / settings.maxDensity)⌉
    if (limit : ℤ) < required then .error capacityExhausted
    else .ok (max initialCapacity required.toNat)

def grownCapacity (capacity count : ℕ) : Except Fault ℕ :=
  let geometric := ⌈settings.arithmetic.round (capacity * settings.resizeGrowth)⌉
  if (limit : ℤ) < geometric then .error capacityExhausted
  else
    match minimumCapacity settings count with
    | .error fault => .error fault
    | .ok least =>
      let wanted := max least geometric.toNat
      let result := if wanted ≤ capacity then capacity + 1 else wanted
      if limit < result then .error capacityExhausted else .ok result

namespace Pma

variable (pma : Pma)

/-! ## Slots -/

def capacity : ℕ := pma.offsets.length

def wideReferences : Bool := !pma.blocks.isEmpty

def allocateSlots (slots : ℕ) : Pma :=
  { pma with
    offsets := List.replicate slots 0
    lengths := List.replicate slots 0
    blocks := if pma.wideReferences then List.replicate slots 0 else []
    occupied := Bitmap.zeros slots }

def isOccupied (slot : ℕ) : Bool := pma.occupied.isSet slot

def setOccupied (slot : ℕ) (occupied : Bool) : Pma :=
  { pma with occupied := pma.occupied.set slot occupied }

def setOccupiedRange (first stop : ℕ) (occupied : Bool) : Pma :=
  { pma with occupied := pma.occupied.fill first stop occupied }

def rebuildFenwick : Pma := { pma with occupied := pma.occupied.recount }

def rankBefore (slot : ℕ) : ℕ := pma.occupied.rank slot

def selectSlot (rank : ℕ) : ℕ := pma.occupied.select rank

/-- The slots that `for_each_occupied` visits. -/
def occupiedSlots (first stop : ℕ) : List ℕ :=
  if stop ≤ first ∨ pma.occupied.words = [] then []
  else pma.occupied.scan (min first (min stop pma.capacity)) (min stop pma.capacity)

/-- The slots that `for_each_occupied_reverse` visits. -/
def occupiedSlotsReverse (first stop : ℕ) : List ℕ :=
  if stop ≤ first ∨ pma.occupied.words = [] then []
  else pma.occupied.scanReverse (min first (min stop pma.capacity)) (min stop pma.capacity)

/-- The block of a reference in one word. -/
def narrowBlock (tagged : BitVec 32) : BitVec 32 :=
  shiftRight (tagged &&& blockMask) settings.chunkShift ||| (tagged &&& rawMask)

/-- The offset of a reference in one word. -/
def narrowOffset (tagged : BitVec 32) : BitVec 32 := tagged &&& blockMask &&& settings.chunkMask

def readSlot (slot : ℕ) : ListValueRef :=
  if pma.wideReferences then
    { block := pma.blocks.getD slot 0
      offset := pma.offsets.getD slot 0
      length := pma.lengths.getD slot 0 }
  else
    { block := narrowBlock settings (pma.offsets.getD slot 0)
      offset := narrowOffset settings (pma.offsets.getD slot 0)
      length := pma.lengths.getD slot 0 }

/-- The address of a reference in one piece. -/
def logicalAddress (value : ListValueRef) : BitVec 64 :=
  (value.blockIndex.setWidth 64 <<< settings.chunkShift) ||| value.offset.setWidth 64

def fitsNarrow (value : ListValueRef) : Bool :=
  logicalAddress settings value ≤ blockMask.setWidth 64

def narrowLocation (value : ListValueRef) : BitVec 32 :=
  (logicalAddress settings value).setWidth 32 |||
    if value.rawPrefixOmitted then rawMask else 0#32

def promoteReferences : Pma :=
  { pma with
    blocks := pma.offsets.map (narrowBlock settings)
    offsets := pma.offsets.map (narrowOffset settings) }

/-- The references are split when one does not fit. -/
def promoteFor (value : ListValueRef) : Pma :=
  if pma.wideReferences = false ∧ fitsNarrow settings value = false then
    pma.promoteReferences settings
  else pma

/-- The references are split when one of the batch does not fit. -/
def promoteForMany (values : List ListValueRef) : Pma :=
  if pma.wideReferences = false ∧ values.any (fun value ↦ !fitsNarrow settings value) then
    pma.promoteReferences settings
  else pma

/-- A reference is stored in the width that the array has. -/
def storeSlot (slot : ℕ) (value : ListValueRef) : Pma :=
  if pma.wideReferences then
    { pma with
      blocks := pma.blocks.set slot value.block
      offsets := pma.offsets.set slot value.offset
      lengths := pma.lengths.set slot value.length }
  else
    { pma with
      offsets := pma.offsets.set slot (narrowLocation settings value)
      lengths := pma.lengths.set slot value.length }

def writeSlot (slot : ℕ) (value : ListValueRef) : Pma :=
  (pma.promoteFor settings value).storeSlot settings slot value

def moveSlot (target source : ℕ) : Pma :=
  { pma with
    blocks :=
      if pma.wideReferences then pma.blocks.set target (pma.blocks.getD source 0) else pma.blocks
    offsets := pma.offsets.set target (pma.offsets.getD source 0)
    lengths := pma.lengths.set target (pma.lengths.getD source 0)
    occupied := pma.occupied.move target source }

/-! ## Gaps -/

/-- The nearest empty slot below one, or the capacity. -/
def nearbyEmptyLeft (start : ℕ) : ℕ :=
  if start = 0 then pma.capacity
  else (pma.occupied.lastClear pma.capacity (start - nearbyShiftLimit) start).getD pma.capacity

/-- The nearest empty slot from one on, or the capacity. -/
def nearbyEmptyRight (start : ℕ) : ℕ :=
  let stop := min pma.capacity (start + nearbyShiftLimit + 1)
  if stop ≤ start then pma.capacity
  else (pma.occupied.firstClear pma.capacity start stop).getD pma.capacity

def valuesIn (first stop : ℕ) : List ListValueRef :=
  (pma.occupiedSlots first stop).map (pma.readSlot settings)

def allValues : List ListValueRef := pma.valuesIn settings 0 pma.capacity

def clearOccupancy (first stop : ℕ) : Pma :=
  { pma with occupied := pma.occupied.fillWords first stop false }

/-- A value is written to a slot and the slot is marked, without a change to the tree. -/
def placeSlot (slot : ℕ) (value : ListValueRef) : Pma :=
  let written := pma.writeSlot settings slot value
  { written with occupied := written.occupied.mark slot }

/-- The values from an index on are written, each after its share of the empty slots. -/
def redistributeLoop (total spread frontReserved : ℕ) : List ListValueRef → ℕ → ℕ → ℕ → Pma → Pma
  | [], _, _, _, pma => pma
  | value :: rest, index, assigned, slot, pma =>
    let target := spread * (index + 1) / (total + 1)
    let gap := target - assigned + if index = 0 then frontReserved else 0
    redistributeLoop total spread frontReserved rest (index + 1) target (slot + gap + 1)
      (pma.placeSlot settings (slot + gap) value)

/-- Half of the empty slots of a window are kept at the ends of the array that are in use, and the
others are spread between the values. -/
def redistribute (first stop : ℕ) (values : List ListValueRef) : Pma :=
  let cleared := pma.clearOccupancy first stop
  if values = [] then cleared.rebuildFenwick
  else
    let empties := stop - first - values.length
    let frontStrength := if first = 0 ∧ 1 < pma.frontBias then pma.frontBias - 1 else 0
    let backStrength := if stop = pma.capacity ∧ 1 < pma.backBias then pma.backBias - 1 else 0
    let strength := frontStrength + backStrength
    let budget := if strength = 0 then 0 else (empties + 1) / 2
    let frontReserved := if strength = 0 then 0 else budget * frontStrength / strength
    let spread := empties - budget
    (redistributeLoop settings values.length spread frontReserved values 0 0 first
      cleared).rebuildFenwick

/-! ## Windows and rebuilding -/

/-- Where the window of a width around a slot starts. -/
def windowStart (target width : ℕ) : ℕ :=
  let aligned := target / width * width
  if pma.capacity < aligned + width then pma.capacity - width else aligned

/-- The windows of doubling width around a slot, until one has room. -/
def redistributeWindows (rank target : ℕ) (inserted : List ListValueRef) : ℕ → ℕ → Option Pma
  | 0, _ => none
  | fuel + 1, width =>
    let first := pma.windowStart target width
    let stop := first + width
    let values := pma.valuesIn settings first stop
    let before := pma.rankBefore first
    if before ≤ rank ∧ rank - before ≤ values.length ∧
        values.length ≤ maxOccupancy settings width ∧
        inserted.length ≤ maxOccupancy settings width - values.length then
      let spread := pma.redistribute settings first stop
        (values.take (rank - before) ++ inserted ++ values.drop (rank - before))
      some { spread with size := pma.size + inserted.length }
    else if width = pma.capacity then none
    else
      redistributeWindows rank target inserted fuel
        (if pma.capacity / 2 < width then pma.capacity else width * 2)

/-- `redistribute_for_insert` is the case of one value. -/
def redistributeForInsertMany (rank : ℕ) (inserted : List ListValueRef) : Option Pma :=
  pma.redistributeWindows settings rank
    (if rank < pma.size then pma.selectSlot rank else pma.selectSlot (pma.size - 1)) inserted
    (pma.capacity + 1) (min initialWindow pma.capacity)

/-- The values are written to new slots. -/
def rebuildFrom (slots : ℕ) (values : List ListValueRef) : Pma :=
  { (pma.allocateSlots slots).redistribute settings 0 slots values with size := values.length }

/-- `rebuild_with_insert` is the case of one value. -/
def rebuildWithInsertMany (slots rank : ℕ) (inserted : List ListValueRef) : Pma :=
  let values := pma.allValues settings
  pma.rebuildFrom settings slots (values.take rank ++ inserted ++ values.drop rank)

def rebuild (slots : ℕ) : Pma := pma.rebuildFrom settings slots (pma.allValues settings)

def clear : Pma := {}

def maybeShrink : Pma × Except Fault Unit :=
  match minimumCapacity settings pma.size with
  | .error fault => (pma, .error fault)
  | .ok target =>
    let round := settings.arithmetic.round
    let threshold := ⌊round (round (pma.capacity / settings.resizeGrowth) / settings.resizeGrowth)⌋
    if (target : ℤ) ≤ threshold ∧ target < pma.capacity then
      let oneStep := ⌈round (pma.capacity / settings.resizeGrowth)⌉.toNat
      (pma.rebuild settings (min (pma.capacity - 1) (max target oneStep)), .ok ())
    else (pma, .ok ())

/-! ## Endpoint biases -/

def decay (count bias : ℕ) : ℕ := bias - min count (bias - 1)

def raise (count bias : ℕ) : ℕ := min maxEndpointBias (bias + min count maxEndpointBias)

def noteInsert (rank count : ℕ) (endpoint : EndpointBias) : Pma :=
  if endpoint = .front ∨ endpoint = .byRank ∧ rank = 0 then
    { pma with frontBias := raise count pma.frontBias, backBias := decay count pma.backBias }
  else if endpoint = .back ∨ endpoint = .byRank ∧ rank = pma.size ∧ rank ≠ 0 then
    { pma with frontBias := decay count pma.frontBias, backBias := raise count pma.backBias }
  else
    { pma with frontBias := decay count pma.frontBias, backBias := decay count pma.backBias }

/-- Elements were removed at a rank, of as many as there were before. -/
def noteEraseRange (rank count priorSize : ℕ) : Pma :=
  if rank = 0 then { pma with frontBias := raise count pma.frontBias }
  else if rank + count = priorSize then { pma with backBias := raise count pma.backBias }
  else pma

def noteErase (rank : ℕ) : Pma := pma.noteEraseRange rank 1 (pma.size + 1)

/-- What precedes an insertion: references are split if need be, and the endpoint is noted. -/
def prepareInsert (rank : ℕ) (values : List ListValueRef) (endpoint : EndpointBias) : Pma :=
  (if pma.capacity ≠ 0 then pma.promoteForMany settings values else pma).noteInsert rank
    values.length endpoint

/-! ## Changes -/

/-- A value is written to an empty slot. -/
def putSlot (slot : ℕ) (value : ListValueRef) : Pma :=
  let put := (pma.writeSlot settings slot value).setOccupied slot true
  { put with size := put.size + 1 }

/-- The values down to a gap move one slot down. -/
def shiftDown (gap target : ℕ) : Pma :=
  (List.range' gap (target - gap)).foldl (fun pma slot ↦ pma.moveSlot slot (slot + 1)) pma

/-- The values up to a gap move one slot up. -/
def shiftUp (gap target : ℕ) : Pma :=
  (List.range' (target + 1) (gap - target)).reverse.foldl
    (fun pma slot ↦ pma.moveSlot slot (slot - 1)) pma

/-- The insertion when no gap is near: a window is spread again, or the array grows. -/
def insertSpreading (rank : ℕ) (inserted : List ListValueRef) : Pma × Except Fault Unit :=
  let grow : Pma × Except Fault Unit :=
    match grownCapacity settings pma.capacity (pma.size + inserted.length) with
    | .error fault => (pma, .error fault)
    | .ok slots => (pma.rebuildWithInsertMany settings slots rank inserted, .ok ())
  if maxOccupancy settings pma.capacity < pma.size + inserted.length then grow
  else
    match pma.redistributeForInsertMany settings rank inserted with
    | some spread => (spread, .ok ())
    | none => grow

/-- The slot of the element before a rank, or the capacity. -/
def leftSlot (rank : ℕ) : ℕ := if 0 < rank then pma.selectSlot (rank - 1) else pma.capacity

/-- The slot of the element of a rank, or the capacity. -/
def rightSlot (rank : ℕ) : ℕ := if rank < pma.size then pma.selectSlot rank else pma.capacity

def leftGap (rank : ℕ) : ℕ :=
  if pma.leftSlot rank = pma.capacity then pma.capacity
  else pma.nearbyEmptyLeft (pma.leftSlot rank)

def rightGap (rank : ℕ) : ℕ :=
  if pma.rightSlot rank = pma.capacity then pma.capacity
  else pma.nearbyEmptyRight (pma.rightSlot rank)

def leftDistance (rank : ℕ) : ℕ :=
  if pma.leftGap rank = pma.capacity then pma.capacity else pma.leftSlot rank - pma.leftGap rank

def rightDistance (rank : ℕ) : ℕ :=
  if pma.rightGap rank = pma.capacity then pma.capacity else pma.rightGap rank - pma.rightSlot rank

/-- The insertion between two elements or at an end without slack. -/
def insertNearby (rank : ℕ) (value : ListValueRef) : Pma × Except Fault Unit :=
  if pma.leftDistance rank ≤ pma.rightDistance rank ∧ pma.leftGap rank ≠ pma.capacity then
    ((pma.shiftDown (pma.leftGap rank) (pma.leftSlot rank)).putSlot settings (pma.leftSlot rank)
      value, .ok ())
  else if pma.rightGap rank ≠ pma.capacity then
    ((pma.shiftUp (pma.rightGap rank) (pma.rightSlot rank)).putSlot settings (pma.rightSlot rank)
      value, .ok ())
  else pma.insertSpreading settings rank [value]

/-- The first insertion into an array without slots. -/
def insertFirst (value : ListValueRef) : Pma :=
  let allocated := (pma.allocateSlots initialCapacity).promoteFor settings value
  { allocated.redistribute settings 0 allocated.capacity [value] with size := 1 }

def insert (rank : ℕ) (value : ListValueRef) : Pma × Except Fault Unit :=
  if pma.size < rank then (pma, .error (.outOfRange "PMA insert rank"))
  else if pma.size = limit then (pma, .error elementsExhausted)
  else
    let noted := pma.prepareInsert settings rank [value] .byRank
    if noted.capacity = 0 then (noted.insertFirst settings value, .ok ())
    else if rank = 0 ∧ noted.selectSlot 0 ≠ 0 then
      (noted.putSlot settings (noted.selectSlot 0 - 1) value, .ok ())
    else if rank = noted.size ∧ noted.selectSlot (noted.size - 1) + 1 < noted.capacity then
      (noted.putSlot settings (noted.selectSlot (noted.size - 1) + 1) value, .ok ())
    else noted.insertNearby settings rank value

/-- Values are written to slots one after the other. -/
def writeRun : ℕ → List ListValueRef → Pma → Pma
  | _, [], pma => pma
  | slot, value :: rest, pma => writeRun (slot + 1) rest (pma.writeSlot settings slot value)

/-- Values are written to a run of empty slots. -/
def putRun (first : ℕ) (values : List ListValueRef) : Pma :=
  { (writeRun settings first values pma).setOccupiedRange first (first + values.length) true with
    size := pma.size + values.length }

/-- The first batch into an array without slots. -/
def insertFirstMany (values : List ListValueRef) : Pma × Except Fault Unit :=
  match minimumCapacity settings (pma.size + values.length) with
  | .error fault => (pma, .error fault)
  | .ok slots =>
    let allocated := (pma.allocateSlots slots).promoteForMany settings values
    ({ allocated.redistribute settings 0 allocated.capacity values with
        size := pma.size + values.length }, .ok ())

def insertMany (rank : ℕ) (values : List ListValueRef) (endpoint : EndpointBias) :
    Pma × Except Fault Unit :=
  if pma.size < rank then (pma, .error (.outOfRange "PMA insert rank"))
  else if values = [] then (pma, .ok ())
  else if limit - pma.size < values.length then (pma, .error elementsExhausted)
  else
    let noted := pma.prepareInsert settings rank values endpoint
    if noted.capacity = 0 then noted.insertFirstMany settings values
    else if rank = 0 ∧ values.length ≤ noted.selectSlot 0 then
      (noted.putRun settings (noted.selectSlot 0 - values.length) values, .ok ())
    else if rank = noted.size ∧
        values.length ≤ noted.capacity - noted.selectSlot (noted.size - 1) - 1 then
      (noted.putRun settings (noted.selectSlot (noted.size - 1) + 1) values, .ok ())
    else noted.insertSpreading settings rank values

/-- What follows an erasure: the array is emptied or may shrink. -/
def settleErase : Pma × Except Fault Unit :=
  if pma.size = 0 then (clear, .ok ()) else pma.maybeShrink settings

def erase (rank : ℕ) : Pma × Except Fault ListValueRef :=
  if pma.size ≤ rank then (pma, .error (.outOfRange "PMA erase rank"))
  else
    let slot := pma.selectSlot rank
    let removed := pma.readSlot settings slot
    let cleared := pma.setOccupied slot false
    let smaller : Pma := { cleared with size := pma.size - 1 }
    let settled := (smaller.noteErase rank).settleErase settings
    (settled.1, settled.2.map fun _ ↦ removed)

def eraseRange (rank count : ℕ) : Pma × Except Fault Unit :=
  if pma.size < rank ∨ pma.size - rank < count then
    (pma, .error (.outOfRange "PMA erase range"))
  else if count = 0 then (pma, .ok ())
  else
    let cleared := pma.setOccupiedRange (pma.selectSlot rank)
      (pma.selectSlot (rank + count - 1) + 1) false
    (({ cleared with size := pma.size - count } : Pma).noteEraseRange rank count
      pma.size).settleErase settings

def compact : Pma × Except Fault Unit :=
  if pma.size = 0 then (clear, .ok ())
  else
    match minimumCapacity settings pma.size with
    | .error fault => (pma, .error fault)
    | .ok slots => (pma.rebuild settings slots, .ok ())

/-- The value of a rank below the size is replaced. -/
def set (rank : ℕ) (value : ListValueRef) : Pma :=
  pma.writeSlot settings (pma.selectSlot rank) value

/-! ## Reads -/

/-- The element at a rank below the size. -/
def valueAt (rank : ℕ) : ListValueRef := pma.readSlot settings (pma.selectSlot rank)

def forEach : List ListValueRef :=
  (pma.occupiedSlots 0 pma.capacity).map (pma.readSlot settings)

def forRange (first count : ℕ) : List ListValueRef :=
  if pma.size ≤ first ∨ count = 0 then []
  else
    ((pma.occupiedSlots (pma.selectSlot first) pma.capacity).map (pma.readSlot settings)).take
      (min count (pma.size - first))

def findFirst (first : ℕ) (test : ListValueRef → Bool) : Option ℕ :=
  if pma.size ≤ first then none
  else
    (((pma.occupiedSlots (pma.selectSlot first) pma.capacity).map
      (pma.readSlot settings)).findIdx? test).map (first + ·)

def findLast (stop : ℕ) (test : ListValueRef → Bool) : Option ℕ :=
  let stop := min stop pma.size
  if stop = 0 then none
  else
    (((pma.occupiedSlotsReverse 0 (pma.selectSlot (stop - 1) + 1)).map
      (pma.readSlot settings)).findIdx? test).map (stop - 1 - ·)

def checkInvariants : Bool :=
  if pma.capacity = 0 then
    pma.size = 0 ∧ pma.blocks = [] ∧ pma.lengths = [] ∧ pma.occupied.words = [] ∧
      pma.occupied.tree = []
  else
    (pma.blocks = [] ∨ pma.blocks.length = pma.offsets.length) ∧
      pma.offsets.length = pma.lengths.length ∧
      pma.occupied.words.length = Bitmap.wordCount pma.capacity ∧
      pma.occupied.tree.length = pma.occupied.words.length + 1 ∧
      (pma.occupied.words.map WordBits.popcount).sum = pma.size ∧
      ∀ rank < pma.size, pma.isOccupied (pma.selectSlot rank) ∧
        pma.rankBefore (pma.selectSlot rank) = rank

end Pma

end GoblinCore.AdaptivePma
