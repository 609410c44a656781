import Mathlib.Data.List.GetD
import Mathlib.Data.Nat.Log
import Mathlib.Tactic.Linarith

/-!
# Where the primaries of a LinearHashIndex are

Bucket zero is inline.  The primaries behind it are in extents of 4, 8, 16, 32, 64 and 128 cells of
an arena, and then in terminal extents of 64.  The first cells of the tiered extents and of four
terminal ones are kept inline, those of the other terminal extents in directory blocks of 512
entries.  An extent is asked for when its first bucket is appended, and given back with it.

Extents are numbered through from the smallest tiered one on.  A primary has a cell of its own, and
keeps it while others are appended and dropped.
-/

namespace GoblinCore.LinearHashIndex

open List

abbrev Handle := ℕ

/-- The arena as a call finds it, whatever other indexes have taken: what it gives out next, by the
cells and the directory blocks that the index has already. -/
structure Arena where
  allocateBucket : List Handle → Option Handle
  allocateBucket_fresh : ∀ used handle, allocateBucket used = some handle → handle ∉ used
  /-- The first cell of an extent of so many. -/
  allocateExtent : List Handle → ℕ → Option Handle
  allocateExtent_fresh : ∀ used buckets base, allocateExtent used buckets = some base →
    ∀ offset < buckets, base + offset ∉ used
  hasDirectoryBlock : ℕ → Bool
  hasDirectoryTable : Bool

/-- The `length_error`s of an index. -/
inductive LengthError where
  /-- "linear hash primary bucket space exhausted" -/
  | primarySpace
  /-- "real-time hash index arena has no contiguous primary extent" -/
  | primaryExtent
  /-- "real-time hash primary-directory pool exhausted" -/
  | directoryPool
  /-- "real-time hash primary-directory table pool exhausted" -/
  | directoryTablePool
  /-- "real-time hash index arena exhausted" -/
  | arenaExhausted
deriving DecidableEq

/-! ## Extents -/

/-- `kTieredPrimaryBuckets`. -/
def tieredPrimaryBuckets : ℕ := 252

def tieredExtentIndex (offset : ℕ) : ℕ := (offset + 4).log2 + 1 - 3

def tieredExtentStart (extent : ℕ) : ℕ := 4 * 2 ^ extent - 4

def tieredExtentBuckets : List ℕ := [4, 8, 16, 32, 64, 128]

/-- The extent of a bucket, as `primary_extent_for_offset` has it. -/
structure PrimaryExtent where
  extent : ℕ
  start : ℕ
  buckets : ℕ
  terminal : Bool
  begins : Bool

def primaryExtentForOffset (offset : ℕ) : PrimaryExtent :=
  if offset < tieredPrimaryBuckets then
    let extent := tieredExtentIndex offset
    ⟨extent, tieredExtentStart extent, tieredExtentBuckets.getD extent 0, false,
      offset = tieredExtentStart extent⟩
  else
    let terminalOffset := offset - tieredPrimaryBuckets
    ⟨terminalOffset / 64, tieredPrimaryBuckets + terminalOffset / 64 * 64, 64, true,
      terminalOffset % 64 = 0⟩

/-! ## The directory -/

/-- The handles of the extents.  A directory block is its entries. -/
structure PrimaryDirectory where
  tieredHandles : List (Option Handle) := replicate 6 none
  inlineTerminalHandles : List (Option Handle) := replicate 4 none
  blocks : List (List (Option Handle)) := []
  terminalExtentCount : ℕ := 0

namespace PrimaryDirectory

/-- An entry of the directory blocks, counted through. -/
def blockEntry (blocks : List (List (Option Handle))) (entry : ℕ) : Option Handle :=
  (blocks[entry / 512]?).bind fun block ↦ (block[entry % 512]?).join

variable (directory : PrimaryDirectory)

def tieredExtentHandle (extent : ℕ) : Option Handle := (directory.tieredHandles[extent]?).join

def terminalExtentBase (extent : ℕ) : Option Handle :=
  if extent < 4 then (directory.inlineTerminalHandles[extent]?).join
  else blockEntry directory.blocks (extent - 4)

def primaryHandle (primary : ℕ) : Option Handle :=
  let offset := primary - 1
  if offset < tieredPrimaryBuckets then
    let extent := tieredExtentIndex offset
    (directory.tieredExtentHandle extent).map (· + (offset - tieredExtentStart extent))
  else
    let terminalOffset := offset - tieredPrimaryBuckets
    (directory.terminalExtentBase (terminalOffset / 64)).map (· + terminalOffset % 64)

/-- The cells of an extent that is there. -/
def extentCells (buckets : ℕ) : Option Handle → List Handle
  | some base => List.range' base buckets
  | none => []

/-- The cells of all extents, as `clear` gives them back. -/
def cells : List Handle :=
  ((List.range 6).flatMap fun extent ↦
      extentCells (tieredExtentBuckets.getD extent 0) (directory.tieredExtentHandle extent)) ++
    (List.range directory.terminalExtentCount).flatMap fun extent ↦
      extentCells 64 (directory.terminalExtentBase extent)

def setTerminalExtentHandle (extent : ℕ) (handle : Handle) : PrimaryDirectory :=
  if extent < 4 then
    { directory with
      inlineTerminalHandles := directory.inlineTerminalHandles.set extent (some handle) }
  else
    let blockSlot := (extent - 4) / 512
    let entrySlot := (extent - 4) % 512
    let blocks := if entrySlot = 0 then directory.blocks ++ [replicate 512 none]
      else directory.blocks
    { directory with
      blocks := blocks.modify blockSlot fun block ↦ block.set entrySlot (some handle) }

def eraseTerminalExtentHandle (extent : ℕ) : PrimaryDirectory :=
  if extent < 4 then
    { directory with inlineTerminalHandles := directory.inlineTerminalHandles.set extent none }
  else
    let blockSlot := (extent - 4) / 512
    let entrySlot := (extent - 4) % 512
    let blocks := directory.blocks.modify blockSlot fun block ↦ block.set entrySlot none
    { directory with blocks := if entrySlot = 0 then blocks.dropLast else blocks }

/-- The part of `append_primary` that sees to the cell of a new primary. -/
def append (arena : Arena) (used : List Handle) (offset : ℕ) :
    Except LengthError PrimaryDirectory :=
  let place := primaryExtentForOffset offset
  let needsBlock := place.terminal && 4 ≤ place.extent && (place.extent - 4) % 512 = 0
  if !place.begins then .ok directory
  else
    match arena.allocateExtent used place.buckets with
    | none => .error .primaryExtent
    | some handle =>
      if needsBlock && !arena.hasDirectoryBlock directory.blocks.length then .error .directoryPool
      else if needsBlock && directory.blocks.isEmpty && !arena.hasDirectoryTable then
        .error .directoryTablePool
      else if place.terminal then
        .ok { directory.setTerminalExtentHandle place.extent handle with
          terminalExtentCount := directory.terminalExtentCount + 1 }
      else
        .ok { directory with
          tieredHandles := directory.tieredHandles.set place.extent (some handle) }

/-- The part of `pop_empty_last_primary` that gives an extent back with its first bucket. -/
def pop (offset : ℕ) : PrimaryDirectory :=
  let place := primaryExtentForOffset offset
  if !place.begins then directory
  else if place.terminal then
    { directory.eraseTerminalExtentHandle place.extent with
      terminalExtentCount := directory.terminalExtentCount - 1 }
  else { directory with tieredHandles := directory.tieredHandles.set place.extent none }

end PrimaryDirectory

/-! ## Numbered extents -/

/-- The number of the extent that has a bucket. -/
def extentOf (offset : ℕ) : ℕ :=
  if offset < tieredPrimaryBuckets then tieredExtentIndex offset
  else 6 + (offset - tieredPrimaryBuckets) / 64

def extentStart (extent : ℕ) : ℕ :=
  if extent < 6 then tieredExtentStart extent else tieredPrimaryBuckets + (extent - 6) * 64

def extentBuckets (extent : ℕ) : ℕ := if extent < 6 then 4 * 2 ^ extent else 64

theorem extentStart_succ (extent : ℕ) :
    extentStart (extent + 1) = extentStart extent + extentBuckets extent := by
  unfold extentStart extentBuckets tieredExtentStart tieredPrimaryBuckets
  have hpow : 2 ^ (extent + 1) = 2 * 2 ^ extent := pow_succ' 2 extent
  have hpos := Nat.two_pow_pos extent
  rcases Nat.lt_trichotomy extent 5 with hlow | rfl | hhigh
  · rw [if_pos (by omega), if_pos (by omega), if_pos (by omega)]
    omega
  · decide
  · rw [if_neg (by omega), if_neg (by omega), if_neg (by omega)]
    omega

theorem extentBuckets_pos (extent : ℕ) : 0 < extentBuckets extent := by
  unfold extentBuckets
  split_ifs
  · exact Nat.mul_pos (by decide) (Nat.two_pow_pos extent)
  · decide

theorem extentStart_strictMono : StrictMono extentStart :=
  strictMono_nat_of_lt_succ fun extent ↦ by
    rw [extentStart_succ]
    exact Nat.lt_add_of_pos_right (extentBuckets_pos extent)

theorem tieredExtentIndex_lt {offset : ℕ} (h : offset < tieredPrimaryBuckets) :
    tieredExtentIndex offset < 6 := by
  unfold tieredPrimaryBuckets at h
  have hlog : (offset + 4).log2 < 8 := (Nat.log2_lt (by omega)).mpr (by omega)
  unfold tieredExtentIndex
  omega

theorem extentStart_extentOf_le (offset : ℕ) :
    extentStart (extentOf offset) ≤ offset ∧
      offset < extentStart (extentOf offset + 1) := by
  rw [extentStart_succ]
  unfold extentOf
  split_ifs with htiered
  · have hindex := tieredExtentIndex_lt htiered
    unfold extentStart extentBuckets
    rw [if_pos hindex, if_pos hindex]
    have hlow := Nat.log2_self_le (n := offset + 4) (by omega)
    have hhigh := Nat.lt_log2_self (n := offset + 4)
    have htwo : 2 ≤ (offset + 4).log2 := (Nat.le_log2 (by omega)).mpr (by omega)
    obtain ⟨extent, hextent⟩ := Nat.exists_eq_add_of_le htwo
    rw [hextent, Nat.add_comm 2 extent, pow_succ, pow_add] at hhigh
    rw [hextent, pow_add] at hlow
    unfold tieredExtentStart tieredExtentIndex
    rw [hextent, show 2 + extent + 1 - 3 = extent by omega]
    omega
  · unfold extentStart extentBuckets
    rw [if_neg (by omega), if_neg (by omega)]
    unfold tieredPrimaryBuckets at *
    omega

/-- A bucket is in the extent that it lies in. -/
theorem extentOf_eq {offset extent : ℕ} (hlow : extentStart extent ≤ offset)
    (hhigh : offset < extentStart (extent + 1)) : extentOf offset = extent := by
  obtain ⟨hstart, hend⟩ := extentStart_extentOf_le offset
  have hle : extentOf offset < extent + 1 :=
    extentStart_strictMono.lt_iff_lt.mp (hstart.trans_lt hhigh)
  have hge : extent < extentOf offset + 1 :=
    extentStart_strictMono.lt_iff_lt.mp (hlow.trans_lt hend)
  omega

theorem extentOf_mono {offset later : ℕ}
    (h : offset ≤ later) : extentOf offset ≤ extentOf later := by
  refine Nat.le_of_lt_succ (extentStart_strictMono.lt_iff_lt.mp ?_)
  calc extentStart (extentOf offset) ≤ offset := (extentStart_extentOf_le offset).1
    _ ≤ later := h
    _ < extentStart (extentOf later + 1) := (extentStart_extentOf_le later).2

theorem tieredExtentBuckets_getD :
    ∀ extent < 6, tieredExtentBuckets.getD extent 0 = extentBuckets extent := by
  decide

theorem primaryExtentForOffset_cases (offset : ℕ) :
    (primaryExtentForOffset offset).buckets = extentBuckets (extentOf offset) ∧
      (((primaryExtentForOffset offset).terminal = true ∧
          extentOf offset = 6 + (primaryExtentForOffset offset).extent) ∨
        ((primaryExtentForOffset offset).terminal = false ∧ extentOf offset < 6 ∧
          extentOf offset = (primaryExtentForOffset offset).extent)) := by
  unfold primaryExtentForOffset extentOf
  split_ifs with htiered
  · have hindex := tieredExtentIndex_lt htiered
    exact ⟨tieredExtentBuckets_getD _ hindex, .inr ⟨rfl, hindex, rfl⟩⟩
  · exact ⟨(if_neg (by omega)).symm, .inl ⟨rfl, rfl⟩⟩

theorem primaryExtentForOffset_begins (offset : ℕ) :
    (primaryExtentForOffset offset).begins = true ↔ offset = extentStart (extentOf offset) := by
  unfold primaryExtentForOffset extentOf extentStart
  split_ifs with htiered hsmall hsmall
  · simp
  · exact absurd (tieredExtentIndex_lt htiered) hsmall
  · omega
  · simp only [decide_eq_true_eq]
    omega

/-- How many extents the primaries take that so many buckets have, of which one is inline. -/
def extentsFor (primaries : ℕ) : ℕ := if primaries ≤ 1 then 0 else extentOf (primaries - 2) + 1

/-- A bucket begins an extent or lies in the last one. -/
theorem extentsFor_succ {primaries : ℕ} (h : 1 ≤ primaries) :
    if (primaryExtentForOffset (primaries - 1)).begins then
      extentOf (primaries - 1) = extentsFor primaries ∧
        extentsFor (primaries + 1) = extentsFor primaries + 1
    else extentsFor (primaries + 1) = extentsFor primaries := by
  have hnext : extentsFor (primaries + 1) = extentOf (primaries - 1) + 1 := by
    unfold extentsFor
    rw [if_neg (by omega), show primaries + 1 - 2 = primaries - 1 by omega]
  obtain ⟨hlow, hhigh⟩ := extentStart_extentOf_le (primaries - 1)
  have hbegins := primaryExtentForOffset_begins (primaries - 1)
  have hfirst : extentStart 0 = 0 := rfl
  rw [hnext]
  rcases Nat.eq_or_lt_of_le h with rfl | hmany
  · have hzero : extentOf 0 = 0 := extentOf_eq hfirst.le (by decide)
    rw [if_pos (hbegins.mpr (by rw [Nat.sub_self, hzero]; rfl))]
    exact ⟨hzero, congrArg (· + 1) hzero⟩
  have hlast : extentsFor primaries = extentOf (primaries - 2) + 1 := if_neg (by omega)
  rw [hlast]
  obtain ⟨hlastLow, hlastHigh⟩ := extentStart_extentOf_le (primaries - 2)
  split_ifs with hcase
  · -- the bucket before lies in the extent before
    have hstart := hbegins.mp hcase
    have heq : extentOf (primaries - 1) = extentOf (primaries - 2) + 1 := by
      have hle : extentOf (primaries - 2) < extentOf (primaries - 1) :=
        extentStart_strictMono.lt_iff_lt.mp (by omega)
      have hge : extentOf (primaries - 1) < extentOf (primaries - 2) + 1 + 1 := by
        refine extentStart_strictMono.lt_iff_lt.mp ?_
        have hgap : extentStart (extentOf (primaries - 2) + 1) <
            extentStart (extentOf (primaries - 2) + 1 + 1) :=
          extentStart_strictMono (Nat.lt_succ_self _)
        omega
      omega
    exact ⟨heq, congrArg (· + 1) heq⟩
  · have hne : primaries - 1 ≠ extentStart (extentOf (primaries - 1)) := fun heq ↦
      hcase (hbegins.mpr heq)
    exact congrArg (· + 1) (extentOf_eq (by omega) (by omega)).symm

namespace PrimaryDirectory

variable {directory directory' : PrimaryDirectory} {primaries primary extent other : ℕ}
  {handle : Handle}

/-- The first cell of an extent. -/
def extentHandle (directory : PrimaryDirectory) (extent : ℕ) : Option Handle :=
  if extent < 6 then directory.tieredExtentHandle extent
  else if extent < 6 + directory.terminalExtentCount then directory.terminalExtentBase (extent - 6)
  else none

/-- The lists have the lengths of the arrays they stand for. -/
structure Shaped (directory : PrimaryDirectory) : Prop where
  tiered_length : directory.tieredHandles.length = 6
  inline_length : directory.inlineTerminalHandles.length = 4
  blocks_length : directory.blocks.length = (directory.terminalExtentCount - 4 + 511) / 512
  block_length : ∀ block ∈ directory.blocks, block.length = 512

theorem mem_extentCells {buckets cell : ℕ} {base : Option Handle} :
    cell ∈ extentCells buckets base ↔ ∃ handle offset, base = some handle ∧ offset < buckets ∧
      cell = handle + offset := by
  cases base with
  | none => simp [extentCells]
  | some handle =>
    simp only [extentCells, mem_range'_1, Option.some.injEq]
    constructor
    · intro h
      exact ⟨handle, cell - handle, rfl, by omega, by omega⟩
    · rintro ⟨_, offset, rfl, hoffset, rfl⟩
      omega

theorem mem_cells {cell : Handle} : cell ∈ directory.cells ↔
    ∃ extent handle offset, directory.extentHandle extent = some handle ∧
      offset < extentBuckets extent ∧ cell = handle + offset := by
  unfold cells
  rw [mem_append, mem_flatMap, mem_flatMap]
  constructor
  · rintro (⟨extent, hextent, hcell⟩ | ⟨extent, hextent, hcell⟩)
    · have hsmall := List.mem_range.mp hextent
      rw [tieredExtentBuckets_getD _ hsmall] at hcell
      obtain ⟨handle, offset, hhandle, hoffset, rfl⟩ := mem_extentCells.mp hcell
      exact ⟨extent, handle, offset, (if_pos hsmall).trans hhandle, hoffset, rfl⟩
    · have hterminal := List.mem_range.mp hextent
      obtain ⟨handle, offset, hhandle, hoffset, rfl⟩ := mem_extentCells.mp hcell
      refine ⟨6 + extent, handle, offset, ?_, hoffset.trans_eq (if_neg (by omega)).symm, rfl⟩
      unfold extentHandle
      rw [if_neg (by omega), if_pos (by omega), Nat.add_sub_cancel_left]
      exact hhandle
  · rintro ⟨extent, handle, offset, hhandle, hoffset, rfl⟩
    unfold extentHandle at hhandle
    split_ifs at hhandle with hsmall hterminal
    · refine .inl ⟨extent, List.mem_range.mpr hsmall,
        mem_extentCells.mpr ⟨handle, offset, hhandle, ?_, rfl⟩⟩
      rwa [tieredExtentBuckets_getD _ hsmall]
    · refine .inr ⟨extent - 6, List.mem_range.mpr (by omega),
        mem_extentCells.mpr ⟨handle, offset, hhandle, ?_, rfl⟩⟩
      exact hoffset.trans_eq (if_neg hsmall)

/-- The cell of a primary is in its extent. -/
theorem primaryHandle_eq (h : directory.extentHandle (extentOf (primary - 1)) = some handle) :
    directory.primaryHandle primary =
      some (handle + (primary - 1 - extentStart (extentOf (primary - 1)))) := by
  unfold extentHandle extentOf at h
  unfold primaryHandle extentOf extentStart
  dsimp only
  split_ifs at h ⊢ with htiered hsmall hterminal
  · rw [h]
    rfl
  · exact absurd (tieredExtentIndex_lt htiered) hsmall
  · omega
  · rw [Nat.add_sub_cancel_left] at h
    have hoffset : (primary - 1 - tieredPrimaryBuckets) % 64 = primary - 1 -
        (tieredPrimaryBuckets + (primary - 1 - tieredPrimaryBuckets) / 64 * 64) := by
      unfold tieredPrimaryBuckets
      omega
    rw [h, Option.map_some, Nat.add_sub_cancel_left, hoffset]

/-! ## Setting and erasing handles -/

theorem blockEntry_modify {blocks : List (List (Option Handle))} {entry : ℕ}
    {value : Option Handle} (hblock : ∀ block ∈ blocks, block.length = 512)
    (hentry : entry / 512 < blocks.length) :
    blockEntry (blocks.modify (entry / 512) fun block ↦ block.set (entry % 512) value) other =
      if other = entry then value else blockEntry blocks other := by
  unfold blockEntry
  rw [getElem?_modify]
  by_cases hslot : entry / 512 = other / 512
  · obtain ⟨block, hget⟩ : ∃ block, blocks[other / 512]? = some block :=
      ⟨_, getElem?_eq_getElem (hslot ▸ hentry)⟩
    have hlen := hblock block (mem_of_getElem? hget)
    rw [hget, Option.map_eq_map, Option.map_some, if_pos hslot, Option.bind_some, Option.bind_some]
    split_ifs with hsame
    · subst hsame
      rw [getElem?_set_self (by rw [hlen]; exact Nat.mod_lt _ (by decide))]
      rfl
    · rw [getElem?_set_ne (by omega)]
  · have hne : other ≠ entry := fun heq ↦ hslot (by rw [heq])
    simp [hslot, hne]

theorem length_of_mem_modify {blocks : List (List (Option Handle))}
    (hblock : ∀ block ∈ blocks, block.length = 512) (slot entry : ℕ) (value : Option Handle) :
    ∀ block ∈ blocks.modify slot (fun block ↦ block.set entry value), block.length = 512 := by
  intro block hmem
  obtain ⟨index, hindex⟩ := mem_iff_getElem?.mp hmem
  rw [getElem?_modify, Option.map_eq_map] at hindex
  obtain ⟨old, hold, rfl⟩ := Option.map_eq_some_iff.mp hindex
  have hlen := hblock old (mem_of_getElem? hold)
  split_ifs
  · rw [length_set, hlen]
  · exact hlen

/-- The blocks once there is one for the next entry. -/
theorem grownBlocks {blocks : List (List (Option Handle))} {entry : ℕ}
    (hblock : ∀ block ∈ blocks, block.length = 512)
    (hlen : blocks.length = (entry + 511) / 512) :
    ∃ grown, (if entry % 512 = 0 then blocks ++ [replicate 512 none] else blocks) = grown ∧
      (∀ block ∈ grown, block.length = 512) ∧ grown.length = (entry + 1 + 511) / 512 ∧
      ∀ other < entry, blockEntry grown other = blockEntry blocks other := by
  refine ⟨_, rfl, ?_, ?_, ?_⟩
  · intro block hmem
    split_ifs at hmem
    · rcases mem_append.mp hmem with hold | hnew
      · exact hblock block hold
      · rw [mem_singleton.mp hnew, length_replicate]
    · exact hblock block hmem
  · split_ifs
    · rw [length_append, hlen, length_singleton]
      omega
    · omega
  · intro other hother
    split_ifs
    · unfold blockEntry
      rw [getElem?_append_left (by omega)]
    · rfl

/-- The next terminal extent gets a handle. -/
theorem setTerminalExtentHandle_spec (h : directory.Shaped) (handle : Handle)
    (hset : directory' =
      { directory.setTerminalExtentHandle directory.terminalExtentCount handle with
        terminalExtentCount := directory.terminalExtentCount + 1 }) :
    directory'.Shaped ∧ directory'.tieredHandles = directory.tieredHandles ∧
      ∀ other ≤ directory.terminalExtentCount, directory'.terminalExtentBase other =
        if other = directory.terminalExtentCount then some handle
        else directory.terminalExtentBase other := by
  subst hset
  unfold setTerminalExtentHandle
  by_cases hinline : directory.terminalExtentCount < 4
  · rw [if_pos hinline]
    have hblocks := h.blocks_length
    refine ⟨⟨h.tiered_length, by rw [length_set]; exact h.inline_length, by dsimp only; omega,
      h.block_length⟩, rfl, fun other hother ↦ ?_⟩
    have hsmall : other < 4 := by omega
    unfold terminalExtentBase
    simp only [if_pos hsmall]
    split_ifs with hsame
    · rw [hsame, getElem?_set_self (by rw [h.inline_length]; exact hinline)]
      rfl
    · rw [getElem?_set_ne (Ne.symm hsame)]
  · rw [if_neg hinline]
    have hlen := h.blocks_length
    obtain ⟨grown, hgrown, hblock, hcount, hkept⟩ := grownBlocks h.block_length hlen
    dsimp only
    rw [hgrown]
    refine ⟨⟨h.tiered_length, h.inline_length, ?_, ?_⟩, rfl, fun other hother ↦ ?_⟩
    · dsimp only
      rw [length_modify, hcount]
      omega
    · exact length_of_mem_modify hblock _ _ _
    · unfold terminalExtentBase
      dsimp only
      by_cases hsmall : other < 4
      · rw [if_pos hsmall, if_pos hsmall, if_neg (by omega)]
      rw [if_neg hsmall, if_neg hsmall, blockEntry_modify hblock (by omega)]
      split_ifs with hentry hsame hsame
      · rfl
      · omega
      · omega
      · exact hkept _ (by omega)

/-- The last terminal extent is given back. -/
theorem eraseTerminalExtentHandle_spec (h : directory.Shaped)
    (herase : directory' =
      { directory.eraseTerminalExtentHandle (directory.terminalExtentCount - 1) with
        terminalExtentCount := directory.terminalExtentCount - 1 }) :
    directory'.Shaped ∧ directory'.tieredHandles = directory.tieredHandles ∧
      ∀ other < directory.terminalExtentCount - 1,
        directory'.terminalExtentBase other = directory.terminalExtentBase other := by
  subst herase
  unfold eraseTerminalExtentHandle
  have hblocks := h.blocks_length
  by_cases hinline : directory.terminalExtentCount - 1 < 4
  · rw [if_pos hinline]
    refine ⟨⟨h.tiered_length, by rw [length_set]; exact h.inline_length, by dsimp only; omega,
      h.block_length⟩, rfl, fun other hother ↦ ?_⟩
    have hsmall : other < 4 := by omega
    unfold terminalExtentBase
    rw [if_pos hsmall, if_pos hsmall, getElem?_set_ne (by omega)]
  · rw [if_neg hinline]
    generalize hentry : directory.terminalExtentCount - 1 - 4 = entry
    have hlengths := length_of_mem_modify h.block_length (entry / 512) (entry % 512) none
    dsimp only
    refine ⟨⟨h.tiered_length, h.inline_length, ?_, ?_⟩, rfl, fun other hother ↦ ?_⟩
    · dsimp only
      split_ifs
      · rw [length_dropLast, length_modify]
        omega
      · rw [length_modify]
        omega
    · intro block hmem
      split_ifs at hmem
      · exact hlengths block ((dropLast_sublist _).subset hmem)
      · exact hlengths block hmem
    · unfold terminalExtentBase
      dsimp only
      split_ifs with hsmall hfirst
      · rfl
      · have hkept : blockEntry (directory.blocks.modify (entry / 512) fun block ↦
            block.set (entry % 512) none) (other - 4) = _ :=
          blockEntry_modify h.block_length (by omega)
        rw [if_neg (by omega)] at hkept
        rw [← hkept]
        unfold blockEntry
        rw [getElem?_dropLast, if_pos (by rw [length_modify]; omega)]
      · rw [blockEntry_modify h.block_length (by omega), if_neg (by omega)]

/-! ## Appending and dropping primaries -/

/-- The extents of so many primaries are there, and no two of them share a cell. -/
structure Fits (directory : PrimaryDirectory) (primaries : ℕ) : Prop where
  shaped : directory.Shaped
  count_eq : directory.terminalExtentCount = extentsFor primaries - 6
  installed : ∀ extent, (directory.extentHandle extent).isSome ↔ extent < extentsFor primaries
  apart : ∀ extent other handle handle' offset offset', directory.extentHandle extent =
    some handle →
    directory.extentHandle other = some handle' → offset < extentBuckets extent →
      offset' < extentBuckets other → handle + offset = handle' + offset' → extent = other

theorem fits_empty : ({} : PrimaryDirectory).Fits 0 := by
  have hnone (extent : ℕ) : ({} : PrimaryDirectory).extentHandle extent = none := by
    unfold extentHandle
    split_ifs with hsmall hterminal
    · unfold tieredExtentHandle
      rw [getElem?_replicate_of_lt hsmall]
      rfl
    · exact absurd hterminal hsmall
    · rfl
  refine ⟨⟨rfl, rfl, rfl, fun block hmem ↦ absurd hmem not_mem_nil⟩, rfl, fun extent ↦ ?_,
    fun extent other handle handle' offset offset' hsome ↦ ?_⟩
  · rw [hnone]
    exact iff_of_false (by simp) (Nat.not_lt_zero _)
  · rw [hnone] at hsome
    cases hsome

/-- The first primary is inline. -/
theorem Fits.one (h : directory.Fits 0) : directory.Fits 1 :=
  ⟨h.shaped, h.count_eq, h.installed, h.apart⟩

/-- The handle of the next extent, and no other, is new. -/
theorem Fits.extended (h : directory.Fits primaries) {used : List Handle}
    (hshaped : directory'.Shaped)
    (hcount : directory'.terminalExtentCount = extentsFor primaries + 1 - 6)
    (hhandle : ∀ extent, directory'.extentHandle extent =
      if extent = extentsFor primaries then some handle else directory.extentHandle extent)
    (hused : ∀ cell ∈ directory.cells, cell ∈ used)
    (hfresh : ∀ offset < extentBuckets (extentsFor primaries), handle + offset ∉ used)
    {more : ℕ} (hmore : extentsFor more = extentsFor primaries + 1) :
    directory'.Fits more ∧ ∀ cell ∈ directory'.cells, cell ∈ directory.cells ∨ cell ∉ used := by
  refine ⟨⟨hshaped, by rw [hmore]; exact hcount, fun extent ↦ ?_, ?_⟩, fun cell hcell ↦ ?_⟩
  · rw [hhandle, hmore]
    split_ifs with hnew
    · exact iff_of_true rfl (by omega)
    · rw [h.installed]
      omega
  · intro extent other first second offset offset' hfirst hsecond hoffset hoffset' heq
    rw [hhandle] at hfirst hsecond
    split_ifs at hfirst hsecond with hnew hnew' hnew'
    · rw [hnew, hnew']
    · cases hfirst
      rw [hnew] at hoffset
      refine absurd (hused _ ?_) (hfresh offset hoffset)
      exact mem_cells.mpr ⟨other, second, offset', hsecond, hoffset', heq⟩
    · cases hsecond
      rw [hnew'] at hoffset'
      refine absurd (hused _ ?_) (hfresh offset' hoffset')
      exact mem_cells.mpr ⟨extent, first, offset, hfirst, hoffset, heq.symm⟩
    · exact h.apart extent other first second offset offset' hfirst hsecond hoffset hoffset' heq
  · obtain ⟨extent, first, offset, hfirst, hoffset, rfl⟩ := mem_cells.mp hcell
    rw [hhandle] at hfirst
    split_ifs at hfirst with hnew
    · cases hfirst
      rw [hnew] at hoffset
      exact .inr (hfresh offset hoffset)
    · exact .inl (mem_cells.mpr ⟨extent, first, offset, hfirst, hoffset, rfl⟩)

/-- The handles of the extents once another terminal one is there. -/
theorem extentHandle_setTerminal (h : directory.Fits primaries)
    (hlast : 6 ≤ extentsFor primaries) (handle : Handle)
    (hset : directory' =
      { directory.setTerminalExtentHandle directory.terminalExtentCount handle with
        terminalExtentCount := directory.terminalExtentCount + 1 }) (extent : ℕ) :
    directory'.extentHandle extent =
      if extent = extentsFor primaries then some handle else directory.extentHandle extent := by
  obtain ⟨-, htiered, hterminal⟩ := setTerminalExtentHandle_spec h.shaped handle hset
  have hcount : directory'.terminalExtentCount = directory.terminalExtentCount + 1 := by rw [hset]
  have hcnt := h.count_eq
  unfold extentHandle tieredExtentHandle
  rw [htiered, hcount]
  by_cases hsmall : extent < 6
  · rw [if_pos hsmall, if_neg (by omega), if_pos hsmall]
  rw [if_neg hsmall, if_neg hsmall]
  by_cases hin : extent < 6 + (directory.terminalExtentCount + 1)
  · rw [if_pos hin, hterminal _ (by omega)]
    split_ifs with hsame hnew hnew hnew
    · rfl
    · omega
    · omega
    · omega
    · rfl
    · omega
  · rw [if_neg hin, if_neg (by omega), if_neg (by omega)]

theorem extentHandle_setTiered (h : directory.Fits primaries) (hsmall : extent < 6)
    (value : Option Handle) (hset : directory' = { directory with
      tieredHandles := directory.tieredHandles.set extent value }) (other : ℕ) :
    directory'.extentHandle other =
      if other = extent then value else directory.extentHandle other := by
  subst hset
  unfold extentHandle tieredExtentHandle terminalExtentBase
  dsimp only
  by_cases hother : other < 6
  · rw [if_pos hother, if_pos hother]
    split_ifs with hsame
    · rw [hsame, getElem?_set_self (by rw [h.shaped.tiered_length]; exact hsmall)]
      rfl
    · rw [getElem?_set_ne (Ne.symm hsame)]
  · rw [if_neg hother, if_neg hother, if_neg (show ¬other = extent by omega)]

section

variable {arena : Arena} {used : List Handle}

theorem append_fits (h : directory.Fits primaries) (hone : 1 ≤ primaries)
    (hused : ∀ cell ∈ directory.cells, cell ∈ used)
    (happend : directory.append arena used (primaries - 1) = .ok directory') :
    directory'.Fits (primaries + 1) ∧
      (∀ cell ∈ directory'.cells, cell ∈ directory.cells ∨ cell ∉ used) ∧
      ∀ extent < extentsFor primaries,
        directory'.extentHandle extent = directory.extentHandle extent := by
  have hextents := extentsFor_succ hone
  obtain ⟨hbuckets, hplace⟩ := primaryExtentForOffset_cases (primaries - 1)
  unfold append at happend
  generalize primaryExtentForOffset (primaries - 1) = place at *
  dsimp only at happend
  cases hbegins : place.begins with
  | false =>
    rw [hbegins] at happend hextents
    cases happend
    have hsame : extentsFor (primaries + 1) = extentsFor primaries := hextents
    refine ⟨⟨h.shaped, by rw [hsame]; exact h.count_eq, by rw [hsame]; exact h.installed, h.apart⟩,
      fun cell hcell ↦ .inl hcell, fun _ _ ↦ rfl⟩
  | true =>
    rw [hbegins] at happend hextents
    obtain ⟨hnew, hmore⟩ : extentOf (primaries - 1) = extentsFor primaries ∧
      extentsFor (primaries + 1) = extentsFor primaries + 1 := hextents
    rw [hnew] at hbuckets hplace
    rw [if_neg (by simp)] at happend
    cases hallocate : arena.allocateExtent used place.buckets with
    | none => rw [hallocate] at happend; cases happend
    | some handle =>
      have hfresh := arena.allocateExtent_fresh used _ handle hallocate
      rw [hbuckets] at hfresh
      rw [hallocate] at happend
      dsimp only at happend
      split_ifs at happend with _ _ hterminal
      · obtain ⟨-, hnumber⟩ := hplace.resolve_right fun htiered ↦ by simp [hterminal] at htiered
        have hlast : place.extent = directory.terminalExtentCount := by
          rw [h.count_eq, hnumber, Nat.add_sub_cancel_left]
        rw [hlast] at happend
        have hset := (Except.ok.inj happend).symm
        have hhandle := extentHandle_setTerminal h (by omega) handle hset
        obtain ⟨hfits, hcells⟩ := h.extended (setTerminalExtentHandle_spec h.shaped handle hset).1
          (by rw [hset]; dsimp only; omega) hhandle hused hfresh hmore
        exact ⟨hfits, hcells, fun extent hextent ↦ by rw [hhandle, if_neg hextent.ne]⟩
      · obtain ⟨-, hsmall, hnumber⟩ := hplace.resolve_left fun hplaced ↦ hterminal hplaced.1
        rw [← hnumber] at happend
        have hset := (Except.ok.inj happend).symm
        have hhandle := extentHandle_setTiered h hsmall (some handle) hset
        have hcount := h.count_eq
        have hshaped : directory'.Shaped := by
          subst hset
          exact ⟨by rw [length_set]; exact h.shaped.tiered_length, h.shaped.inline_length,
            h.shaped.blocks_length, h.shaped.block_length⟩
        obtain ⟨hfits, hcells⟩ := h.extended hshaped (by rw [hset]; dsimp only; omega) hhandle
          hused hfresh hmore
        exact ⟨hfits, hcells, fun extent hextent ↦ by rw [hhandle, if_neg hextent.ne]⟩

/-- When another primary is refused its cell: it begins an extent for which there is no room, or
for which the directory needs a block or a table that there is not. -/
def Refuses (directory : PrimaryDirectory) (arena : Arena) (used : List Handle) (offset : ℕ) :
    Prop :=
  offset = extentStart (extentOf offset) ∧
    (arena.allocateExtent used (extentBuckets (extentOf offset)) = none ∨
      (10 ≤ extentOf offset ∧ (extentOf offset - 10) % 512 = 0 ∧
        (arena.hasDirectoryBlock directory.blocks.length = false ∨
          directory.blocks = [] ∧ arena.hasDirectoryTable = false)))

theorem append_throws_iff {offset : ℕ} :
    (∃ thrown, directory.append arena used offset = .error thrown) ↔
      directory.Refuses arena used offset := by
  have hbegins := primaryExtentForOffset_begins offset
  obtain ⟨hbuckets, hplace⟩ := primaryExtentForOffset_cases offset
  unfold append Refuses
  rw [← hbegins, ← hbuckets]
  generalize primaryExtentForOffset offset = place at *
  have hneeds : (place.terminal && decide (4 ≤ place.extent) &&
        decide ((place.extent - 4) % 512 = 0)) = true ↔
      10 ≤ extentOf offset ∧ (extentOf offset - 10) % 512 = 0 := by
    rcases hplace with ⟨hterminal, hnumber⟩ | ⟨htiered, hsmall, -⟩
    · simp only [hterminal, Bool.true_and, Bool.and_eq_true, decide_eq_true_eq]
      omega
    · simp only [htiered, Bool.false_and, Bool.false_eq_true, false_iff]
      omega
  dsimp only
  generalize (place.terminal && decide (4 ≤ place.extent) &&
    decide ((place.extent - 4) % 512 = 0)) = needsBlock at *
  rw [← and_assoc, ← hneeds]
  cases hbegins : place.begins with
  | false => simp
  | true =>
    cases hallocate : arena.allocateExtent used place.buckets with
    | none => simp
    | some handle =>
      have hfine (hpool : ¬(needsBlock && !arena.hasDirectoryBlock directory.blocks.length) = true)
          (htable : ¬(needsBlock && directory.blocks.isEmpty && !arena.hasDirectoryTable) = true) :
          ¬(needsBlock = true ∧ (arena.hasDirectoryBlock directory.blocks.length = false ∨
            directory.blocks = [] ∧ arena.hasDirectoryTable = false)) := by
        rintro ⟨rfl, hblock | ⟨hnil, hnone⟩⟩
        · simp [hblock] at hpool
        · simp [hnil, hnone] at htable
      rw [if_neg (by simp)]
      dsimp only
      split_ifs with hpool htable hterminal
      · simp only [Bool.and_eq_true, Bool.not_eq_true'] at hpool
        exact iff_of_true ⟨_, rfl⟩ ⟨rfl, .inr ⟨hpool.1, .inl hpool.2⟩⟩
      · simp only [Bool.and_eq_true, Bool.not_eq_true', List.isEmpty_iff] at htable
        exact iff_of_true ⟨_, rfl⟩ ⟨rfl, .inr ⟨htable.1.1, .inr ⟨htable.1.2, htable.2⟩⟩⟩
      · exact iff_of_false (by simp) fun h ↦ hfine hpool htable (h.2.resolve_left id)
      · exact iff_of_false (by simp) fun h ↦ hfine hpool htable (h.2.resolve_left id)

end

/-- The handles of the extents without the last terminal one. -/
theorem extentHandle_eraseTerminal (h : directory.Shaped) (herase : directory' =
      { directory.eraseTerminalExtentHandle (directory.terminalExtentCount - 1) with
        terminalExtentCount := directory.terminalExtentCount - 1 }) (extent : ℕ) :
    directory'.extentHandle extent =
      if extent < 6 + (directory.terminalExtentCount - 1) then directory.extentHandle extent
      else none := by
  obtain ⟨-, htiered, hterminal⟩ := eraseTerminalExtentHandle_spec h herase
  have hcount : directory'.terminalExtentCount = directory.terminalExtentCount - 1 := by rw [herase]
  unfold extentHandle tieredExtentHandle
  rw [htiered, hcount]
  by_cases hsmall : extent < 6
  · rw [if_pos hsmall, if_pos (by omega), if_pos hsmall]
  · rw [if_neg hsmall, if_neg hsmall]
    split_ifs with hin hbefore
    · exact hterminal _ (by omega)
    · omega
    · rfl

/-- The handle of the last extent is gone, and the others are kept. -/
theorem Fits.shrunk {more : ℕ} (h : directory.Fits more)
    (hmore : extentsFor more = extentsFor primaries + 1) (hshaped : directory'.Shaped)
    (hcount : directory'.terminalExtentCount = extentsFor primaries - 6)
    (hhandle : ∀ extent, directory'.extentHandle extent =
      if extent < extentsFor primaries then directory.extentHandle extent else none) :
    directory'.Fits primaries := by
  have hkept {extent : ℕ} {handle : Handle} (hsome : directory'.extentHandle extent = some handle) :
      directory.extentHandle extent = some handle := by
    rw [hhandle] at hsome
    split_ifs at hsome
    exact hsome
  refine ⟨hshaped, hcount, fun extent ↦ ?_, ?_⟩
  · rw [hhandle]
    split_ifs with hin
    · exact iff_of_true ((h.installed extent).mpr (by omega)) hin
    · exact iff_of_false (by simp) hin
  · intro extent other first second offset offset' hfirst hsecond
    exact h.apart extent other first second offset offset' (hkept hfirst) (hkept hsecond)

/-- An extent is given back when its first bucket is dropped. -/
theorem pop_fits (h : directory.Fits (primaries + 1)) (hone : 1 ≤ primaries) :
    (directory.pop (primaries - 1)).Fits primaries ∧
      ∀ extent < extentsFor primaries,
        (directory.pop (primaries - 1)).extentHandle extent = directory.extentHandle extent := by
  have hextents := extentsFor_succ hone
  obtain ⟨-, hplace⟩ := primaryExtentForOffset_cases (primaries - 1)
  have hcnt := h.count_eq
  unfold pop
  generalize primaryExtentForOffset (primaries - 1) = place at *
  dsimp only
  cases hbegins : place.begins with
  | false =>
    rw [hbegins] at hextents
    have hsame : extentsFor (primaries + 1) = extentsFor primaries := hextents
    rw [hsame] at hcnt
    refine ⟨⟨h.shaped, hcnt, fun extent ↦ ?_, h.apart⟩, fun _ _ ↦ rfl⟩
    rw [← hsame]
    exact h.installed extent
  | true =>
    rw [hbegins] at hextents
    obtain ⟨hlast, hmore⟩ : extentOf (primaries - 1) = extentsFor primaries ∧
      extentsFor (primaries + 1) = extentsFor primaries + 1 := hextents
    rw [hlast] at hplace
    rw [if_neg (by simp)]
    obtain ⟨directory', hpopped, hshaped, hcount, hhandle⟩ : ∃ directory' : PrimaryDirectory,
        (if place.terminal = true then
          { directory.eraseTerminalExtentHandle place.extent with
            terminalExtentCount := directory.terminalExtentCount - 1 }
        else { directory with tieredHandles := directory.tieredHandles.set place.extent none }) =
          directory' ∧ directory'.Shaped ∧
        directory'.terminalExtentCount = extentsFor primaries - 6 ∧
        ∀ extent, directory'.extentHandle extent =
          if extent < extentsFor primaries then directory.extentHandle extent else none := by
      rcases hplace with ⟨hterminal, hnumber⟩ | ⟨htiered, hsmall, hnumber⟩
      · have hextent : place.extent = directory.terminalExtentCount - 1 := by omega
        rw [if_pos hterminal, hextent]
        refine ⟨_, rfl, (eraseTerminalExtentHandle_spec h.shaped rfl).1, by dsimp only; omega, ?_⟩
        intro extent
        exact (extentHandle_eraseTerminal h.shaped rfl extent).trans
          (if_congr (by omega) rfl rfl)
      · rw [if_neg (by simp [htiered]), ← hnumber]
        have hset := extentHandle_setTiered h hsmall none rfl
        refine ⟨_, rfl, ⟨by rw [length_set]; exact h.shaped.tiered_length, h.shaped.inline_length,
          h.shaped.blocks_length, h.shaped.block_length⟩, by dsimp only; omega, fun extent ↦ ?_⟩
        rw [hset]
        split_ifs with hsame hin hin
        · omega
        · rfl
        · rfl
        · rw [← Option.not_isSome_iff_eq_none, h.installed]
          omega
    rw [hpopped]
    exact ⟨h.shrunk hmore hshaped hcount hhandle,
      fun extent hextent ↦ by rw [hhandle, if_pos hextent]⟩

theorem cells_pop_subset (h : directory.Fits (primaries + 1)) (hone : 1 ≤ primaries) :
    (directory.pop (primaries - 1)).cells ⊆ directory.cells := by
  obtain ⟨hfits, hkept⟩ := pop_fits h hone
  intro cell hcell
  obtain ⟨extent, handle, offset, hhandle, hoffset, rfl⟩ := mem_cells.mp hcell
  have hin : extent < extentsFor primaries := (hfits.installed extent).mp (by rw [hhandle]; rfl)
  exact mem_cells.mpr ⟨extent, handle, offset, (hkept extent hin).symm.trans hhandle, hoffset, rfl⟩

/-- Every primary but the first has a cell of an extent. -/
theorem Fits.primaryHandle_eq (h : directory.Fits primaries) (hfirst : primary ≠ 0)
    (hprimary : primary < primaries) :
    ∃ handle, directory.extentHandle (extentOf (primary - 1)) = some handle ∧
      primary - 1 - extentStart (extentOf (primary - 1)) < extentBuckets (extentOf (primary - 1)) ∧
      directory.primaryHandle primary =
        some (handle + (primary - 1 - extentStart (extentOf (primary - 1)))) := by
  have hextent : extentOf (primary - 1) < extentsFor primaries := by
    unfold extentsFor
    rw [if_neg (by omega)]
    exact Nat.lt_succ_of_le (extentOf_mono (by omega))
  obtain ⟨handle, hhandle⟩ := Option.isSome_iff_exists.mp ((h.installed _).mpr hextent)
  obtain ⟨hlow, hhigh⟩ := extentStart_extentOf_le (primary - 1)
  rw [extentStart_succ] at hhigh
  exact ⟨handle, hhandle, by omega, PrimaryDirectory.primaryHandle_eq hhandle⟩

theorem Fits.primaryHandle_mem (h : directory.Fits primaries) (hfirst : primary ≠ 0)
    (hprimary : primary < primaries) :
    ∃ cell ∈ directory.cells, directory.primaryHandle primary = some cell := by
  obtain ⟨handle, hhandle, hoffset, heq⟩ := h.primaryHandle_eq hfirst hprimary
  exact ⟨_, mem_cells.mpr ⟨_, handle, _, hhandle, hoffset, rfl⟩, heq⟩

/-- No two primaries share a cell. -/
theorem Fits.primaryHandle_inj (h : directory.Fits primaries) {second : ℕ} (hfirst : primary ≠ 0)
    (hprimary : primary < primaries) (hsecond : second ≠ 0) (hlt : second < primaries)
    (hsame : directory.primaryHandle primary = directory.primaryHandle second) :
    primary = second := by
  obtain ⟨handle, hhandle, hoffset, heq⟩ := h.primaryHandle_eq hfirst hprimary
  obtain ⟨handle', hhandle', hoffset', heq'⟩ := h.primaryHandle_eq hsecond hlt
  rw [heq, heq'] at hsame
  have hcell := Option.some.inj hsame
  have hextent := h.apart _ _ _ _ _ _ hhandle hhandle' hoffset hoffset' hcell
  rw [hextent] at hhandle hcell
  obtain rfl := Option.some.inj (hhandle.symm.trans hhandle')
  have hoffsets := Nat.add_left_cancel hcell
  have hlow := (extentStart_extentOf_le (primary - 1)).1
  have hlow' := (extentStart_extentOf_le (second - 1)).1
  rw [hextent] at hlow
  omega

end PrimaryDirectory

end GoblinCore.LinearHashIndex
