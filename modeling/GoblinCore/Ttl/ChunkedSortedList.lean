import GoblinCore.Foundation.Ordered
import GoblinCore.Memory.MemoryLimit
import Mathlib.Order.Basic
import Mathlib.Data.List.Flatten
import Mathlib.Data.List.TakeWhile

/-!
# The chunked sorted list

A sorted sequence kept in blocks of at most about twice `load` items.  Inserting reserves room in
one block before it changes anything, and splits a block that grew too long; removing merges a
block that grew too short.  Splitting after an insertion and merging are maintenance: a refused
request for their memory leaves the longer or shorter block in place.

The vector `maxes_` holds the last item of each block that has items, so it is computed here; its
capacity is kept because growing it can be refused.  A first insertion that is refused the items of
its block leaves a block without items, for which `maxes_` has no entry.  The next insertion puts
its item in that block and writes to `maxes_` behind its end, which the language leaves undefined:
the model stops there.  The tree `index_` caches block sizes for access by position.  Of the items
here only the first is read in that way, and the tree is not built; the score index, which is cut
into the same blocks, reads every position through it.
-/

namespace GoblinCore

open Refusable MemoryLimit Ordered Comp List

structure Block (α : Type) where
  items : List α
  capacity : ℕ
  deriving DecidableEq

structure ChunkedSortedList (α : Type) where
  blocks : List (Block α) := []
  blocksCapacity : ℕ := 0
  maxesCapacity : ℕ := 0
  size : ℕ := 0
  /-- The tree `index_`, empty until it is built. -/
  positions : List ℕ := []
  deriving DecidableEq

namespace ChunkedSortedList

/-- Put `new` in the place of the element at `position`. -/
def replaceAt {β : Type} (list : List β) (position : ℕ) (new : List β) : List β :=
  list.take position ++ new ++ list.drop (position + 1)

variable {α : Type}

def toList (list : ChunkedSortedList α) : List α := list.blocks.flatMap Block.items

def maxes (list : ChunkedSortedList α) : List α := list.blocks.filterMap fun block ↦
  block.items.getLast?

def blockSize (position : ℕ) (list : ChunkedSortedList α) : ℕ :=
  (list.blocks[position]?.map fun block ↦ block.items.length).getD 0

def blockCapacity (position : ℕ) (list : ChunkedSortedList α) : ℕ :=
  (list.blocks[position]?.map Block.capacity).getD 0

/-- Replace the block at `position` by the blocks `change` makes of it. -/
def changeBlock (position : ℕ) (change : Block α → List (Block α)) (list : ChunkedSortedList α) :
    ChunkedSortedList α :=
  match list.blocks[position]? with
  | some block => { list with blocks := replaceAt list.blocks position (change block) }
  | none => list

def setBlockCapacity (position : ℕ) (list : ChunkedSortedList α) (capacity : ℕ) :
    ChunkedSortedList α :=
  list.changeBlock position fun block ↦ [{ block with capacity := capacity }]

/-- The halves of a block: the left one keeps its vector, the right one gets a tight new vector. -/
def Block.halves (block : Block α) : List (Block α) :=
  let splitAt := block.items.length / 2
  [{ block with items := block.items.take splitAt },
    { items := block.items.drop splitAt, capacity := block.items.length - splitAt }]

def splitBlock (position : ℕ) : StoreComp (ChunkedSortedList α) Unit := do
  reserveForPush (fun list ↦ list.blocks.length) blocksCapacity
    (fun list capacity ↦ { list with blocksCapacity := capacity }) 1
  reserveForPush (fun list ↦ list.maxes.length) maxesCapacity
    (fun list capacity ↦ { list with maxesCapacity := capacity }) 1
  ensureMemoryGrowth
  modify (changeBlock position Block.halves)

/-- `catch (const std::bad_alloc&)` around maintenance that may be put off. -/
def catchBadAlloc {σ : Type} (body : StoreComp σ Unit) : StoreComp σ Unit :=
  tryCatch body fun
    | .maxMemoryExceeded => pure ()
    | thrown => throw thrown

def mergeBlocks (position : ℕ) (left right : Block α) (list : ChunkedSortedList α) :
    ChunkedSortedList α :=
  let required := left.items.length + right.items.length
  { list with
    blocks := list.blocks.take position ++
      [{ items := left.items ++ right.items, capacity := max left.capacity required }] ++
      list.blocks.drop (position + 2) }

def mergeWithNext (load position : ℕ) : StoreComp (ChunkedSortedList α) Unit := do
  let list ← get
  match list.blocks[position]?, list.blocks[position + 1]? with
  | some left, some right =>
    let required := left.items.length + right.items.length
    if ← memoryGrowthAllowed (required - left.capacity) then
      modify (mergeBlocks position left right)
      if load * 2 < required then
        catchBadAlloc (splitBlock position)
  | _, _ => pure ()

def rebalanceAfterErase (load position : ℕ) : StoreComp (ChunkedSortedList α) Unit := do
  let list ← get
  if position + 1 < list.blocks.length then
    mergeWithNext load position
  else
    mergeWithNext load (position - 1)

variable [LinearOrder α]

/-- The first block whose last item is not below `value`. -/
def lowerBlock (list : ChunkedSortedList α) (value : α) : ℕ :=
  (list.maxes.takeWhile fun last ↦ last < value).length

/-- The first block whose last item is above `value`, or the last block. -/
def upperBlock (list : ChunkedSortedList α) (value : α) : ℕ :=
  min (list.maxes.takeWhile fun last ↦ last ≤ value).length (list.blocks.length - 1)

def Block.place (value : α) (block : Block α) : List (Block α) :=
  [{ block with items := (block.items.takeWhile fun item ↦ item ≤ value) ++
      value :: block.items.dropWhile fun item ↦ item ≤ value }]

/-- The first insertion pushes an empty block before it reserves the block's items. -/
def insertFirst (load : ℕ) (value : α) : StoreComp (ChunkedSortedList α) Unit := do
  reserveForPush (fun list ↦ list.blocks.length) blocksCapacity
    (fun list capacity ↦ { list with blocksCapacity := capacity }) 1
  reserveForPush (fun list ↦ list.maxes.length) maxesCapacity
    (fun list capacity ↦ { list with maxesCapacity := capacity }) 1
  modify fun list ↦ { list with blocks := [{ items := [], capacity := 0 }] }
  reserveForPush (blockSize 0) (blockCapacity 0) (setBlockCapacity 0) load
  modify fun list ↦ { list.changeBlock 0 (Block.place value) with size := 1 }

def insertIntoBlock (load : ℕ) (value : α) : StoreComp (ChunkedSortedList α) Unit := do
  let list ← get
  let position := list.upperBlock value
  reserveForPush (blockSize position) (blockCapacity position) (setBlockCapacity position) load
  modify fun list ↦
    { list.changeBlock position (Block.place value) with size := list.size + 1 }
  -- `maxes_[position]` is written.
  when (list.maxes.length ≤ position) (throw .undefinedBehavior)
  let grown ← get
  if load * 2 < grown.blockSize position then
    catchBadAlloc (splitBlock position)

def insert (load : ℕ) (value : α) : StoreComp (ChunkedSortedList α) Unit := do
  let list ← get
  if list.blocks.isEmpty then
    insertFirst load value
  else
    when (load * 2 < list.blockSize (list.upperBlock value)) (splitBlock (list.upperBlock value))
    insertIntoBlock load value

/-- Drop the item `lower_bound` found; a block left empty goes as well. -/
def Block.drop (value : α) (block : Block α) : List (Block α) :=
  match (block.items.takeWhile fun item ↦ item < value) ++
      (block.items.dropWhile fun item ↦ item < value).tail with
  | [] => []
  | items => [{ block with items := items }]

def eraseOne (load : ℕ) (value : α) : StoreComp (ChunkedSortedList α) Bool := do
  let list ← get
  let position := list.lowerBlock value
  match list.blocks[position]? with
  | none => pure false
  | some block =>
    if (block.items.dropWhile fun item ↦ item < value).head? = some value then
      modify fun list ↦
        { list.changeBlock position (Block.drop value) with size := list.size - 1 }
      let erased ← get
      when (block.items.length ≠ 1 ∧ erased.blockSize position < load / 2 ∧
          1 < erased.blocks.length) (rebalanceAfterErase load position)
      pure true
    else
      pure false

/-! ## Contents of changed blocks -/

section Contents

omit [LinearOrder α]

theorem eq_take_cons_drop {β : Type} {list : List β} {position : ℕ} {element : β}
    (h : list[position]? = some element) :
    list = list.take position ++ element :: list.drop (position + 1) := by
  have hlt : position < list.length := (List.getElem?_eq_some_iff.mp h).1
  have hget : list.get ⟨position, hlt⟩ = element := (List.getElem?_eq_some_iff.mp h).2
  rw [← hget]
  simp

/-- The items before the block at `position`. -/
def before (list : ChunkedSortedList α) (position : ℕ) : List α :=
  (list.blocks.take position).flatMap Block.items

/-- The items after the block at `position`. -/
def after (list : ChunkedSortedList α) (position : ℕ) : List α :=
  (list.blocks.drop (position + 1)).flatMap Block.items

variable {list : ChunkedSortedList α} {position : ℕ} {block : Block α}

theorem toList_eq (h : list.blocks[position]? = some block) :
    list.toList = list.before position ++ block.items ++ list.after position := by
  unfold toList
  nth_rewrite 1 [eq_take_cons_drop h]
  simp [before, after]

section

variable (change : Block α → List (Block α)) (h : list.blocks[position]? = some block)
include change h

theorem changeBlock_blocks :
    (list.changeBlock position change).blocks = replaceAt list.blocks position (change block) := by
  simp [changeBlock, h]

theorem changeBlock_toList :
    (list.changeBlock position change).toList =
      list.before position ++ (change block).flatMap Block.items ++ list.after position := by
  simp [toList, changeBlock_blocks change h, replaceAt, before, after]

end

/-- A block replaced by one block. -/
theorem changeBlock_set (f : Block α → Block α) (h : list.blocks[position]? = some block) :
    (list.changeBlock position fun block ↦ [f block]).blocks =
      list.blocks.set position (f block) := by
  rw [changeBlock_blocks _ h, set_eq_take_append_cons_drop,
    if_pos (List.getElem?_eq_some_iff.mp h).1]
  simp [replaceAt]

/-- The contents cut where a search in a block stops. -/
theorem toList_split {test : α → Bool} (h : list.blocks[position]? = some block) :
    list.toList = (list.before position ++ block.items.takeWhile test) ++
      (block.items.dropWhile test ++ list.after position) := by
  rw [toList_eq h, append_assoc, append_assoc, ← append_assoc (block.items.takeWhile test),
    takeWhile_append_dropWhile]

@[simp] theorem changeBlock_size (change : Block α → List (Block α)) :
    (list.changeBlock position change).size = list.size := by
  unfold changeBlock
  split <;> rfl

/-- A change that keeps a block's items keeps the contents. -/
theorem changeBlock_toList_of_items (change : Block α → List (Block α))
    (h : ∀ block, (change block).flatMap Block.items = block.items) :
    (list.changeBlock position change).toList = list.toList := by
  cases hget : list.blocks[position]? with
  | none => simp [changeBlock, hget]
  | some block => rw [changeBlock_toList change hget, h, toList_eq hget]

theorem halves_items (block : Block α) :
    (Block.halves block).flatMap Block.items = block.items := by
  simp [Block.halves]

variable {P : Block α → Prop} {script : Script}

/-- Blocks put in the place of others. -/
theorem all_replaced {blocks new : List (Block α)} {first stop : ℕ} (h : ∀ block ∈ blocks, P block)
    (hnew : ∀ block ∈ new, P block) :
    ∀ block ∈ blocks.take first ++ new ++ blocks.drop stop, P block := by
  intro block hblk
  rw [append_assoc, mem_append, mem_append] at hblk
  rcases hblk with hblk | hblk | hblk
  · exact h block (mem_of_mem_take hblk)
  · exact hnew block hblk
  · exact h block (mem_of_mem_drop hblk)

theorem changeBlock_all {change : Block α → List (Block α)} (h : ∀ block ∈ list.blocks, P block)
    (hget : list.blocks[position]? = some block) (hnew : ∀ new ∈ change block, P new) :
    ∀ block ∈ (list.changeBlock position change).blocks, P block := by
  rw [changeBlock_blocks change hget]
  exact all_replaced h hnew

/-! ## Maintenance keeps the contents -/

def AllNonempty (list : ChunkedSortedList α) : Prop := ∀ block ∈ list.blocks, block.items ≠ []

/-- `list'` holds the same items as `list`, in blocks that may be cut differently. -/
structure Kept (list list' : ChunkedSortedList α) : Prop where
  toList : list'.toList = list.toList
  size : list'.size = list.size
  nonempty : list.AllNonempty → list'.AllNonempty

theorem Kept.refl (list : ChunkedSortedList α) : Kept list list := ⟨rfl, rfl, id⟩

theorem Kept.trans {first second third : ChunkedSortedList α} (h : Kept first second)
    (h' : Kept second third) : Kept first third :=
  ⟨h'.toList.trans h.toList, h'.size.trans h.size, fun hne ↦ h'.nonempty (h.nonempty hne)⟩

theorem blockSize_eq (h : list.blocks[position]? = some block) :
    list.blockSize position = block.items.length := by
  simp [blockSize, h]

theorem kept_halves (h : 2 ≤ list.blockSize position) :
    Kept list (list.changeBlock position Block.halves) := by
  refine ⟨changeBlock_toList_of_items _ halves_items, changeBlock_size _, fun hne ↦ ?_⟩
  cases hget : list.blocks[position]? with
  | none => simp [blockSize, hget] at h
  | some block =>
    rw [blockSize_eq hget] at h
    refine changeBlock_all hne hget fun new hnew ↦ ne_nil_of_length_pos ?_
    simp only [Block.halves, mem_cons, not_mem_nil, or_false] at hnew
    rcases hnew with rfl | rfl
    · simp only [length_take]
      omega
    · simp only [length_drop]
      omega

/-- What a refused request leaves behind. -/
def Refused (script : Script) (list : ChunkedSortedList α) (thrown : Thrown)
    (list' : ChunkedSortedList α) : Prop :=
  thrown = .maxMemoryExceeded ∧ true ∈ script ∧ Kept list list'

theorem splitBlock_ends (script : Script) (h : 2 ≤ list.blockSize position) :
    Ends (splitBlock position) list script (fun _ list' ↦ Kept list list')
      (Refused script list) := by
  -- Both reservations change only a capacity, so the block keeps its size up to the cut.
  have hsame (s : ChunkedSortedList α) (hs : s.blocks = list.blocks ∧ s.size = list.size) :
      Kept list s := ⟨by simp [toList, hs.1], hs.2, by simp [AllNonempty, hs.1]⟩
  refine Ends.bind (Q := fun _ s ↦ s.blocks = list.blocks ∧ s.size = list.size)
    (reserveForPush_ends ⟨rfl, rfl⟩ (fun _ ↦ ⟨rfl, rfl⟩) fun hrefused ↦
      ⟨rfl, hrefused, Kept.refl _⟩)
    ?_
  intro _ s rest hsuf hs
  refine Ends.bind (Q := fun _ s ↦ s.blocks = list.blocks ∧ s.size = list.size)
    (reserveForPush_ends hs (fun _ ↦ hs) fun hrefused ↦ ⟨rfl, hsuf.mem hrefused, hsame s hs⟩) ?_
  intro _ s rest' hsuf' hs
  have hrefuse (hrefused : true ∈ rest') : Refused script list .maxMemoryExceeded s :=
    ⟨rfl, (hsuf'.trans hsuf).mem hrefused, hsame s hs⟩
  apply (ensureMemoryGrowth_ends hrefuse).bind
  intro _ s' _ _ hs'
  apply ends_modify
  subst s'
  have hsize : 2 ≤ s.blockSize position := by simpa [blockSize, hs.1] using h
  exact (hsame s hs).trans (kept_halves hsize)

variable {E : Thrown → ChunkedSortedList α → Prop}

/-- Maintenance under `catch (const std::bad_alloc&)` never throws. -/
theorem catchBadAlloc_ends {body : StoreComp (ChunkedSortedList α) Unit}
    (h : Ends body list script (fun _ list' ↦ Kept list list') (Refused script list)) :
    Ends (catchBadAlloc body) list script (fun _ list' ↦ Kept list list') E := by
  apply h.tryCatch
  rintro thrown list' rest _ ⟨rfl, -, hkept⟩
  exact ends_pure hkept

theorem take_cons_cons_drop {β : Type} {list : List β} {position : ℕ} {left right : β}
    (hleft : list[position]? = some left) (hright : list[position + 1]? = some right) :
    list = list.take position ++ left :: right :: list.drop (position + 2) := by
  have htail : list.drop (position + 1) = right :: list.drop (position + 2) := by
    have hlt : position + 1 < list.length := (List.getElem?_eq_some_iff.mp hright).1
    rw [List.drop_eq_getElem_cons hlt, (List.getElem?_eq_some_iff.mp hright).2]
  rw [← htail]
  exact eq_take_cons_drop hleft

/-- Two blocks put together. -/
theorem flatMap_merged {blocks : List (Block α)} {left right merged : Block α}
    (hleft : blocks[position]? = some left) (hright : blocks[position + 1]? = some right)
    (h : merged.items = left.items ++ right.items) :
    (blocks.take position ++ [merged] ++ blocks.drop (position + 2)).flatMap Block.items =
      blocks.flatMap Block.items := by
  nth_rewrite 3 [take_cons_cons_drop hleft hright]
  simp [h]

theorem kept_mergeBlocks {left right : Block α} (hleft : list.blocks[position]? = some left)
    (hright : list.blocks[position + 1]? = some right) :
    Kept list (list.mergeBlocks position left right) := by
  refine ⟨flatMap_merged hleft hright rfl, rfl, fun hne ↦ all_replaced hne fun block hblk ↦ ?_⟩
  have hitems := hne left (mem_of_getElem? hleft)
  rw [mem_singleton.mp hblk]
  simp [hitems]

theorem mergeBlocks_blockSize {left right : Block α} (hleft : list.blocks[position]? = some left) :
    (list.mergeBlocks position left right).blockSize position =
      left.items.length + right.items.length := by
  have hlt : position < list.blocks.length := (List.getElem?_eq_some_iff.mp hleft).1
  have htake := length_take_of_le (Nat.le_of_lt hlt)
  simp [mergeBlocks, blockSize, htake]

theorem mergeWithNext_ends (load : ℕ) (hload : 0 < load) (script : Script) :
    Ends (mergeWithNext load position) list script (fun _ list' ↦ Kept list list') E := by
  apply ends_get_bind
  split
  · rename_i left right hleft hright
    apply (memoryGrowthAllowed_ends _).bind
    intro answer list' rest _ hsame
    subst list'
    cases answer with
    | false => exact ends_pure (Kept.refl _)
    | true =>
      apply ends_modify_bind
      have hmerged := kept_mergeBlocks hleft hright
      split
      · have htwo : 2 ≤ (list.mergeBlocks position left right).blockSize position := by
          rw [mergeBlocks_blockSize hleft]
          omega
        exact (catchBadAlloc_ends (splitBlock_ends rest htwo)).mono
          (fun _ _ hsplit ↦ hmerged.trans hsplit) fun _ _ h ↦ h
      · exact ends_pure hmerged
  · exact ends_pure (Kept.refl _)

theorem rebalanceAfterErase_ends {load : ℕ} (hload : 0 < load) :
    Ends (rebalanceAfterErase load position) list script (fun _ list' ↦ Kept list list') E := by
  apply ends_get_bind
  split
  · exact mergeWithNext_ends load hload script
  · exact mergeWithNext_ends load hload script

/-- The search over `maxes_` stops at the first block whose last item fails the test. -/
theorem takeWhile_maxes (test : α → Bool) (blocks : List (Block α))
    (hne : ∀ block ∈ blocks, block.items ≠ []) :
    let position := ((blocks.filterMap fun block ↦ block.items.getLast?).takeWhile test).length
    (∀ block ∈ blocks.take position, ∀ last, block.items.getLast? = some last → test last = true) ∧
      ∀ block, blocks[position]? = some block →
        ∀ last, block.items.getLast? = some last → test last = false := by
  induction blocks with
  | nil => simp
  | cons first rest ih =>
    have hrest := ih fun block hblk ↦ hne block (mem_cons_of_mem first hblk)
    cases hlast : first.items.getLast? with
    | none => exact absurd (getLast?_eq_none_iff.mp hlast) (hne first mem_cons_self)
    | some last =>
      cases htest : test last with
      | false => simp [hlast, htest]
      | true => simpa [hlast, htest] using hrest

/-! ## Where a test stops holding -/

section Search

variable {test : α → Bool}

theorem AllNonempty.getLast? (h : list.AllNonempty) (hblk : block ∈ list.blocks) :
    ∃ last, block.items.getLast? = some last :=
  Option.ne_none_iff_exists'.mp fun hnone ↦ h block hblk (getLast?_eq_none_iff.mp hnone)

theorem AllNonempty.maxes_length (h : list.AllNonempty) :
    list.maxes.length = list.blocks.length :=
  filterMap_length_eq_length.mpr fun _ hblk ↦
    Option.isSome_iff_exists.mpr (h.getLast? hblk)

theorem pass_of_getLast {items : List α} {last : α} (hcuts : Cuts test items)
    (hlast : items.getLast? = some last) (hpass : test last = true) :
    ∀ item ∈ items, test item = true := by
  obtain ⟨front, rfl⟩ := getLast?_eq_some_iff.mp hlast
  intro item hitem
  rcases mem_append.mp hitem with hfront | hend
  · exact (pairwise_append.mp hcuts).2.2 item hfront last (mem_singleton_self last) hpass
  · rw [mem_singleton.mp hend]
    exact hpass

theorem cuts_block (h : Cuts test list.toList) (hblk : block ∈ list.blocks) :
    Cuts test block.items :=
  (pairwise_flatMap.mp h).1 block hblk

/-- Everything after a block whose last item fails the test fails it as well. -/
theorem after_fail {last : α} (hcuts : Cuts test list.toList)
    (hget : list.blocks[position]? = some block) (hlast : block.items.getLast? = some last)
    (hfail : test last = false) : ∀ item ∈ list.after position, test item = false := by
  intro item hitem
  by_contra hpass
  rw [toList_eq hget] at hcuts
  have hlater := (pairwise_append.mp hcuts).2.2 last
    (mem_append_right _ (mem_of_getLast? hlast)) item hitem (by simpa using hpass)
  rw [hfail] at hlater
  exact absurd hlater (by decide)

/-- What a search over the blocks finds: the block in which the test stops holding. -/
structure Stops (test : α → Bool) (list : ChunkedSortedList α) (position : ℕ) (block : Block α) :
    Prop where
  get : list.blocks[position]? = some block
  before : ∀ item ∈ list.before position, test item = true
  after : ∀ item ∈ list.after position, test item = false
  last : ∃ last ∈ block.items, test last = false
  cuts : Cuts test block.items

section

variable (hne : list.AllNonempty) (hcuts : Cuts test list.toList)
include hne hcuts

/-- Everything before the block that a search stops at passes the test. -/
theorem before_pass : ∀ item ∈ list.before (list.maxes.takeWhile test).length,
    test item = true := by
  intro item hitem
  obtain ⟨block, hblk, hmem⟩ := mem_flatMap.mp hitem
  have hblks : block ∈ list.blocks := mem_of_mem_take hblk
  obtain ⟨last, hget⟩ := hne.getLast? hblks
  have hlast := (takeWhile_maxes test list.blocks hne).1 block hblk last hget
  exact pass_of_getLast (cuts_block hcuts hblks) hget hlast item hmem

theorem search_stops (hget : list.blocks[(list.maxes.takeWhile test).length]? = some block) :
    Stops test list (list.maxes.takeWhile test).length block := by
  have hblk : block ∈ list.blocks := mem_of_getElem? hget
  obtain ⟨last, hlast⟩ := hne.getLast? hblk
  have hfail := (takeWhile_maxes test list.blocks hne).2 block hget last hlast
  exact ⟨hget, before_pass hne hcuts, after_fail hcuts hget hlast hfail,
    ⟨last, mem_of_getLast? hlast, hfail⟩, cuts_block hcuts hblk⟩

theorem search_none (hget : list.blocks[(list.maxes.takeWhile test).length]? = none) :
    ∀ item ∈ list.toList, test item = true := by
  have hall : list.before (list.maxes.takeWhile test).length = list.toList := by
    rw [before, take_of_length_le (getElem?_eq_none_iff.mp hget)]
    rfl
  rw [← hall]
  exact before_pass hne hcuts

end

theorem Stops.filter (h : Stops test list position block) :
    list.toList.filter test = list.before position ++ block.items.takeWhile test := by
  have hbef := filter_eq_self.mpr h.before
  have haft : (list.after position).filter test = [] :=
    filter_eq_nil_iff.mpr fun item hitem ↦ by simp [h.after item hitem]
  rw [toList_eq h.get, filter_append, filter_append, hbef, haft, h.cuts.takeWhile_eq, append_nil]

theorem Stops.filter_not (h : Stops test list position block) :
    list.toList.filter (fun item ↦ !test item) =
      block.items.dropWhile test ++ list.after position := by
  have hbef : (list.before position).filter (fun item ↦ !test item) = [] :=
    filter_eq_nil_iff.mpr fun item hitem ↦ by simp [h.before item hitem]
  have haft : (list.after position).filter (fun item ↦ !test item) = list.after position :=
    filter_eq_self.mpr fun item hitem ↦ by simp [h.after item hitem]
  rw [toList_eq h.get, filter_append, filter_append, hbef, haft, h.cuts.dropWhile_eq, nil_append]

/-- A block of the list in which a value can be put where the test stops holding. -/
structure Hosts (test : α → Bool) (value : α) (list : ChunkedSortedList α) (position : ℕ)
    (block : Block α) : Prop where
  get : list.blocks[position]? = some block
  place : list.before position ++ (block.items.takeWhile test ++
    value :: block.items.dropWhile test) ++ list.after position = place test value list.toList

/-- The value goes to the block that the search stops at, or to the last one. -/
theorem exists_hosts (value : α) (hne : list.AllNonempty) (hcuts : Cuts test list.toList)
    (hblks : list.blocks ≠ []) :
    ∃ block, Hosts test value list
      (min (list.maxes.takeWhile test).length (list.blocks.length - 1)) block := by
  have hpos : 0 < list.blocks.length := length_pos_iff.mpr hblks
  cases hget : list.blocks[(list.maxes.takeWhile test).length]? with
  | some block =>
    have hstops := search_stops hne hcuts hget
    have hlt := lt_of_getElem? hget
    rw [min_eq_left (by omega)]
    refine ⟨block, hget, ?_⟩
    rw [Ordered.place, hstops.filter, hstops.filter_not]
    simp
  | none =>
    have hpass := search_none hne hcuts hget
    rw [min_eq_right (by have := getElem?_eq_none_iff.mp hget; omega)]
    obtain ⟨block, hlast⟩ : ∃ block, list.blocks[list.blocks.length - 1]? = some block :=
      ⟨_, getElem?_eq_getElem (by omega)⟩
    have haft : list.after (list.blocks.length - 1) = [] := by
      rw [after, drop_of_length_le (by omega)]
      rfl
    have hitems : ∀ item ∈ block.items, test item = true := fun item hitem ↦
      hpass item (mem_flatMap.mpr ⟨block, mem_of_getElem? hlast, hitem⟩)
    have hnone : list.toList.filter (fun item ↦ !test item) = [] :=
      filter_eq_nil_iff.mpr fun item hitem ↦ by simp [hpass item hitem]
    refine ⟨block, hlast, ?_⟩
    rw [Ordered.place, filter_eq_self.mpr hpass, hnone, takeWhile_eq_self_iff.mpr hitems,
      dropWhile_eq_nil_iff.mpr hitems, toList_eq hlast, haft]
    simp

/-- A block with another capacity takes the value as before. -/
theorem Hosts.setBlockCapacity {value : α} (h : Hosts test value list position block)
    (capacity : ℕ) : Kept list (list.setBlockCapacity position capacity) ∧
      ∃ block, Hosts test value (list.setBlockCapacity position capacity) position block := by
  have hblks : (list.setBlockCapacity position capacity).blocks =
      list.blocks.set position { block with capacity } :=
    changeBlock_set (fun block ↦ { block with capacity }) h.get
  have hlist : (list.setBlockCapacity position capacity).toList = list.toList :=
    changeBlock_toList_of_items _ (by simp)
  refine ⟨⟨hlist, changeBlock_size _, fun hne ↦ changeBlock_all hne h.get fun new hnew ↦ ?_⟩,
    { block with capacity }, ?_, ?_⟩
  · rw [mem_singleton.mp hnew]
    exact hne block (mem_of_getElem? h.get)
  · rw [hblks, getElem?_set_self (lt_of_getElem? h.get)]
  · rw [hlist, ← h.place, before, after, hblks, take_set_of_le le_rfl,
      drop_set_of_lt (Nat.lt_succ_self _)]
    rfl

end Search

end Contents

/-! ## Insertion -/

/-- The invariant of the list: no empty block, items in order, `size_` their number. -/
structure Valid (list : ChunkedSortedList α) : Prop where
  nonempty : list.AllNonempty
  sorted : list.toList.Pairwise (· ≤ ·)
  size_eq : list.size = list.toList.length

theorem Kept.valid {list list' : ChunkedSortedList α} (h : Kept list list') (hvalid : list.Valid) :
    list'.Valid :=
  ⟨h.nonempty hvalid.nonempty, h.toList ▸ hvalid.sorted, by rw [h.size, h.toList, hvalid.size_eq]⟩

variable {list : ChunkedSortedList α} {position : ℕ} {block : Block α} {value : α}

/-- Put `value` in its place in the block at `position`. -/
def placeIn (list : ChunkedSortedList α) (position : ℕ) (value : α) : ChunkedSortedList α :=
  { list.changeBlock position (Block.place value) with size := list.size + 1 }

/-- What a granted insertion leaves behind. -/
def Inserted (value : α) (list list' : ChunkedSortedList α) : Prop :=
  list'.Valid ∧ list'.toList.Perm (value :: list.toList)

theorem Hosts.inserted (h : list.Valid)
    (hhosts : Hosts (fun item ↦ decide (item ≤ value)) value list position block) :
    Inserted value list (list.placeIn position value) := by
  have hlist : (list.placeIn position value).toList =
      Ordered.place (fun item ↦ decide (item ≤ value)) value list.toList := by
    rw [← hhosts.place]
    refine (changeBlock_toList (Block.place value) hhosts.get).trans ?_
    simp [Block.place]
  refine ⟨⟨?_, ?_, ?_⟩, hlist ▸ place_perm⟩
  · refine changeBlock_all h.nonempty hhosts.get fun new hnew ↦ ?_
    simp [mem_singleton.mp hnew]
  · rw [hlist]
    exact place_pairwise (fun _ _ _ _ hfst hsnd ↦ hfst.trans hsnd) h.sorted
      (fun _ _ ↦ of_decide_eq_true) fun _ _ hfail ↦ (not_le.mp (of_decide_eq_false hfail)).le
  · rw [hlist, place_length, ← h.size_eq]
    rfl

/-- The block of a first insertion that was refused its items. -/
structure Begun (list : ChunkedSortedList α) : Prop where
  blocks : ∃ capacity, list.blocks = [{ items := [], capacity := capacity }]
  size : list.size = 0

/-- What a refused insertion leaves behind: a throw, and the contents as they were. -/
structure Denied (script : Script) (list : ChunkedSortedList α) (thrown : Thrown)
    (list' : ChunkedSortedList α) : Prop where
  thrown_eq : thrown = .maxMemoryExceeded
  refused : true ∈ script
  toList : list'.toList = list.toList
  intact : list'.Valid ∨ list'.Begun

theorem insertIntoBlock_ends (load : ℕ) (hload : 0 < load) (h : list.Valid) (hne : list.blocks ≠ [])
    (script : Script) :
    Ends (insertIntoBlock load value) list script (fun _ list' ↦ Inserted value list list')
      (Denied script list) := by
  apply ends_get_bind
  have hcuts : Cuts (fun item ↦ decide (item ≤ value)) list.toList :=
    cuts_of_pairwise h.sorted fun _ _ _ _ hle hpass ↦
      decide_eq_true (hle.trans (of_decide_eq_true hpass))
  obtain ⟨block, hhosts⟩ := exists_hosts value h.nonempty hcuts hne
  change Hosts _ value list (list.upperBlock value) block at hhosts
  generalize list.upperBlock value = position at hhosts ⊢
  refine Ends.bind (Q := fun _ s ↦ Kept list s ∧ ∃ block,
      Hosts (fun item ↦ decide (item ≤ value)) value s position block)
    (reserveForPush_ends ⟨Kept.refl _, block, hhosts⟩ hhosts.setBlockCapacity
      fun hrefused ↦ ⟨rfl, hrefused, rfl, .inl h⟩) ?_
  have hentry : ¬list.maxes.length ≤ position := by
    rw [h.nonempty.maxes_length]
    exact Nat.not_le.mpr (lt_of_getElem? hhosts.get)
  rintro _ s rest - ⟨hkept, block, hhosts⟩
  apply ends_modify_bind
  refine ends_guard_bind (fun hnone ↦ absurd hnone hentry) fun _ ↦ ?_
  apply ends_get_bind
  have hplaced : Inserted value list (s.placeIn position value) := by
    rw [Inserted, ← hkept.toList]
    exact hhosts.inserted (hkept.valid h)
  split
  · rename_i hlong
    have htwo : 2 ≤ (s.placeIn position value).blockSize position := by
      change load * 2 < (s.placeIn position value).blockSize position at hlong
      omega
    exact (catchBadAlloc_ends (splitBlock_ends rest htwo)).mono
      (fun _ _ hsplit ↦ ⟨hsplit.valid hplaced.1, hsplit.toList ▸ hplaced.2⟩) fun _ _ he ↦ he
  · exact ends_pure hplaced

theorem insertFirst_ends {load : ℕ} (h : list.Valid) (hemp : list.blocks = []) {script : Script} :
    Ends (insertFirst load value) list script (fun _ list' ↦ Inserted value list list')
      (Denied script list) := by
  have hsize : list.size = 0 := by rw [h.size_eq, toList, hemp]; rfl
  have hempty (s : ChunkedSortedList α) (hs : s.blocks = [] ∧ s.size = 0) : s.Valid := by
    refine ⟨?_, ?_, ?_⟩
    · simp [AllNonempty, hs.1]
    · simp [toList, hs.1]
    · simp [toList, hs.1, hs.2]
  refine Ends.bind (Q := fun _ s ↦ s.blocks = [] ∧ s.size = 0)
    (reserveForPush_ends ⟨hemp, hsize⟩ (fun _ ↦ ⟨hemp, hsize⟩)
      fun hrefused ↦ ⟨rfl, hrefused, rfl, .inl h⟩) ?_
  intro _ s rest hsuf hs
  refine Ends.bind (Q := fun _ s ↦ s.blocks = [] ∧ s.size = 0)
    (reserveForPush_ends hs (fun _ ↦ hs) fun hrefused ↦
      ⟨rfl, hsuf.mem hrefused, by simp [toList, hs.1, hemp], .inl (hempty s hs)⟩) ?_
  intro _ s rest' hsuf' hs
  apply ends_modify_bind
  refine Ends.bind (Q := fun _ s ↦ ∃ n, s.blocks = [({ items := [], capacity := n } : Block α)])
    (reserveForPush_ends ⟨0, rfl⟩ (fun n ↦ ⟨n, rfl⟩) fun hrefused ↦
      ⟨rfl, (hsuf'.trans hsuf).mem hrefused, by simp [toList, hemp], .inr ⟨⟨0, rfl⟩, hs.2⟩⟩) ?_
  rintro _ s _ - ⟨n, hs⟩
  apply ends_modify
  have hone : (s.changeBlock 0 (Block.place value)).blocks =
      [{ items := [value], capacity := n }] := by
    simp [changeBlock, hs, replaceAt, Block.place]
  refine ⟨⟨?_, ?_, ?_⟩, ?_⟩
  · simp [AllNonempty, hone]
  · simp [toList, hone]
  · simp [toList, hone]
  · simp [toList, hone, hemp]

/-- Insertion adds one copy of the value, or throws on a refusal and leaves the contents alone. -/
theorem insert_ends (load : ℕ) (hload : 0 < load) (h : list.Valid) (script : Script) :
    Ends (insert load value) list script (fun _ list' ↦ Inserted value list list')
      (Denied script list) := by
  apply ends_get_bind
  by_cases hemp : list.blocks = []
  · rw [if_pos (by simp [hemp])]
    exact insertFirst_ends h hemp
  rw [if_neg (by simp [hemp])]
  refine Ends.bind (Q := fun _ s ↦ Kept list s) ?_ ?_
  · apply ends_when
    · intro hlong
      exact (splitBlock_ends script (by omega)).mono_throw
        fun _ _ hrefused ↦
          ⟨hrefused.1, hrefused.2.1, hrefused.2.2.toList, .inl (hrefused.2.2.valid h)⟩
    · exact fun _ ↦ Kept.refl _
  intro _ s rest hsuf hkept
  have hne : s.blocks ≠ [] := by
    intro hnil
    have hitems : list.toList = [] := by rw [← hkept.toList, toList, hnil]; rfl
    rcases exists_mem_of_ne_nil _ hemp with ⟨block, hblk⟩
    exact h.nonempty block hblk (flatMap_eq_nil_iff.mp hitems block hblk)
  exact (insertIntoBlock_ends load hload (hkept.valid h) hne rest).mono
    (fun _ _ hins ↦ ⟨hins.1, hkept.toList ▸ hins.2⟩)
    fun _ _ hdenied ↦ ⟨hdenied.thrown_eq, hsuf.mem hdenied.refused,
      hdenied.toList.trans hkept.toList, hdenied.intact⟩

/-- The next insertion is refused the items of the block once more, or it writes to an entry of
`maxes_` that there is not. -/
theorem Begun.insert_ends (h : list.Begun) (load : ℕ) (script : Script) :
    Ends (insert load value) list script (fun _ _ ↦ False)
      (fun thrown list' ↦ thrown = .undefinedBehavior ∨ Denied script list thrown list') := by
  obtain ⟨capacity, hblks⟩ := h.blocks
  have hupper : list.upperBlock value = 0 := by simp [upperBlock, hblks]
  have hmaxes : list.maxes = [] := by simp [maxes, hblks]
  have hsize : list.blockSize 0 = 0 := by simp [blockSize, hblks]
  apply ends_get_bind
  rw [if_neg (by simp [hblks]), hupper, hsize, when_neg (by simp)]
  change Ends (insertIntoBlock load value) list script _ _
  apply ends_get_bind
  rw [hupper, hmaxes]
  refine Ends.bind (Q := fun _ _ ↦ True) (reserveForPush_ends trivial (fun _ ↦ trivial)
    fun hrefused ↦ .inr ⟨rfl, hrefused, rfl, .inr h⟩) ?_
  intro _ s rest _ _
  apply ends_modify_bind
  exact ends_guard_bind (fun _ ↦ .inl rfl) fun hentry ↦ absurd (Nat.le_refl 0) hentry

/-- A single full block has to grow before it takes another item. -/
theorem insert_refused_of_full {load : ℕ} (hblks : list.blocks = [block])
    (hfull : block.items.length = block.capacity) (hload : block.capacity ≤ load * 2)
    {rest : Script} :
    insert load value list (true :: rest) = ⟨.error .maxMemoryExceeded, list, rest⟩ := by
  have hupper : list.upperBlock value = 0 := by simp [upperBlock, hblks]
  have hsize : list.blockSize 0 = block.items.length := by simp [blockSize, hblks]
  have hcap : list.blockCapacity 0 = block.capacity := by simp [blockCapacity, hblks]
  have hreserve : reserveForPush (blockSize 0) (blockCapacity 0) (setBlockCapacity 0) load list
      (true :: rest) = ⟨.error .maxMemoryExceeded, list, rest⟩ := by
    have hnoRoom : ¬list.blockSize 0 < list.blockCapacity 0 := by omega
    simp only [reserveForPush, get_bind, hnoRoom, if_false]
    rfl
  have hinto : insertIntoBlock load value list (true :: rest) =
      ⟨.error .maxMemoryExceeded, list, rest⟩ := by
    simp only [insertIntoBlock, get_bind, hupper]
    exact bind_error hreserve
  have hshort : ¬load * 2 < list.blockSize (list.upperBlock value) := by
    rw [hupper, hsize]
    omega
  have hnonempty : list.blocks.isEmpty = false := by simp [hblks]
  simp only [insert, get_bind, hnonempty, when, hshort, if_false]
  exact hinto

/-! ## Removal -/

/-- The first item that is not below `value` is another one. -/
theorem not_mem_of_head_ne (h : list.Valid)
    (hstops : Stops (fun item ↦ decide (item < value)) list position block)
    (hhead : (block.items.dropWhile fun item ↦ item < value).head? ≠ some value) :
    value ∉ list.toList := by
  intro hmem
  have hmem' : value ∈ list.toList.filter fun item ↦ !decide (item < value) :=
    mem_filter.mpr ⟨hmem, by simp⟩
  have hsorted := h.sorted.filter fun item ↦ !decide (item < value)
  rw [hstops.filter_not] at hmem' hsorted
  -- The last item of the block is not below `value`, so something of it is left.
  cases hdrop : block.items.dropWhile fun item ↦ item < value with
  | nil =>
    obtain ⟨last, hlast, hfail⟩ := hstops.last
    exact absurd (dropWhile_eq_nil_iff.mp hdrop last hlast) (by simp [hfail])
  | cons first rest =>
    have hge : value ≤ first := by
      have hfst := mem_filter.mp (hstops.cuts.dropWhile_eq ▸ hdrop ▸ mem_cons_self)
      simpa using hfst.2
    rw [hdrop] at hmem' hsorted hhead
    rcases mem_cons.mp hmem' with rfl | hlater
    · exact hhead rfl
    · have hle := (pairwise_cons.mp hsorted).1 value hlater
      exact hhead (congrArg some (le_antisymm hle hge))

/-- Take `value` out of the block at `position`. -/
def dropFrom (list : ChunkedSortedList α) (position : ℕ) (value : α) : ChunkedSortedList α :=
  { list.changeBlock position (Block.drop value) with size := list.size - 1 }

theorem drop_items :
    (Block.drop value block).flatMap Block.items =
      (block.items.takeWhile fun item ↦ item < value) ++
        (block.items.dropWhile fun item ↦ item < value).tail := by
  unfold Block.drop
  split
  · rename_i hnil
    rw [hnil]
    rfl
  · simp

theorem dropFrom_toList (hget : list.blocks[position]? = some block) :
    (list.dropFrom position value).toList =
      (list.before position ++ block.items.takeWhile fun item ↦ item < value) ++
        ((block.items.dropWhile fun item ↦ item < value).tail ++ list.after position) := by
  have hchg : (list.dropFrom position value).toList =
      (list.changeBlock position (Block.drop value)).toList := rfl
  rw [hchg, changeBlock_toList _ hget, drop_items]
  simp only [append_assoc]

section

variable (hget : list.blocks[position]? = some block)
  (hhead : (block.items.dropWhile fun item ↦ item < value).head? = some value)
include hget hhead

/-- The contents around the value that is found. -/
theorem toList_found :
    list.toList = (list.before position ++ block.items.takeWhile fun item ↦ item < value) ++
      value :: ((block.items.dropWhile fun item ↦ item < value).tail ++ list.after position) := by
  rw [← cons_append, cons_head?_tail hhead]
  exact toList_split hget

theorem dropFrom_toList_perm :
    list.toList.Perm (value :: (list.dropFrom position value).toList) := by
  rw [dropFrom_toList hget, toList_found hget hhead]
  exact perm_middle

end

theorem dropFrom_valid (h : list.Valid) (hget : list.blocks[position]? = some block)
    (hhead : (block.items.dropWhile fun item ↦ item < value).head? = some value) :
    (list.dropFrom position value).Valid := by
  refine ⟨?_, h.sorted.sublist ?_, ?_⟩
  · refine changeBlock_all h.nonempty hget fun new hnew ↦ ?_
    unfold Block.drop at hnew
    split at hnew
    · exact absurd hnew not_mem_nil
    · rename_i items hitems
      rw [mem_singleton.mp hnew]
      exact hitems
  · rw [dropFrom_toList hget, toList_found hget hhead]
    exact (sublist_cons_self value _).append_left _
  · have hlen := (dropFrom_toList_perm hget hhead).length_eq
    rw [length_cons, ← h.size_eq] at hlen
    change list.size - 1 = _
    omega

/-- Removal never throws; it removes one copy of the value, if there is one. -/
theorem eraseOne_ends {E : Thrown → ChunkedSortedList α → Prop} (load : ℕ) (hload : 0 < load)
    (h : list.Valid) (script : Script) :
    Ends (eraseOne load value) list script
      (fun erased list' ↦ list'.Valid ∧ (erased = true → list.toList.Perm (value :: list'.toList)) ∧
        (erased = false → value ∉ list.toList ∧ list' = list)) E := by
  apply ends_get_bind
  have hcuts : Cuts (fun item ↦ decide (item < value)) list.toList :=
    cuts_of_pairwise h.sorted fun _ _ _ _ hle hpass ↦
      decide_eq_true (hle.trans_lt (of_decide_eq_true hpass))
  dsimp only
  split
  · rename_i hget
    have hnot : value ∉ list.toList := fun hmem ↦
      lt_irrefl value (of_decide_eq_true (search_none h.nonempty hcuts hget value hmem))
    exact ends_pure ⟨h, by simp, fun _ ↦ ⟨hnot, rfl⟩⟩
  · rename_i block hget
    have hstops := search_stops h.nonempty hcuts hget
    change Stops _ list (list.lowerBlock value) block at hstops
    generalize list.lowerBlock value = position at hget hstops ⊢
    split
    · rename_i hhead
      apply ends_modify_bind
      apply ends_get_bind
      have hdropped := dropFrom_valid h hget hhead
      have hperm := dropFrom_toList_perm hget hhead
      refine Ends.bind (Q := fun _ list' ↦ Kept (list.dropFrom position value) list')
        (ends_when (fun _ ↦ rebalanceAfterErase_ends hload) fun _ ↦ Kept.refl _) ?_
      intro _ list' rest _ hkept
      exact ends_pure ⟨hkept.valid hdropped, fun _ ↦ hkept.toList ▸ hperm, by simp⟩
    · rename_i hhead
      exact ends_pure ⟨h, by simp, fun _ ↦ ⟨not_mem_of_head_ne h hstops hhead, rfl⟩⟩

end ChunkedSortedList

end GoblinCore
