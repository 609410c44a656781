import GoblinCore.Encoding.StringEncoding
import GoblinCore.Foundation.ChunkedRuns

/-!
# Page-aligned byte arenas

The arena under the member, element and list storages: blocks that each own a slot of
`chunk_bytes` positions, the last of which grows until its slot is full.  A reservation hands out
the position behind the last one, or the start of a new block where the run would straddle two.
The position is a 64-bit cursor; what the owner keeps of it is the low 32 bits.
-/

namespace GoblinCore.PageArena

open ChunkedRuns List Nat
open StringEncoding (ByteString)

/-- How the blocks of an arena are sized.  `grown` is the active block's size times the growth
ratio, multiplied as doubles and cut to an integer. -/
structure Policy where
  chunkShift : ℕ
  pageShift : ℕ
  grown : ℕ → ℕ

namespace Policy

variable (policy : Policy)

def chunkBytes : ℕ := 2 ^ policy.chunkShift

def pageBytes : ℕ := 2 ^ policy.pageShift

def roundUpToPage (bytes : ℕ) : ℕ :=
  (bytes + policy.pageBytes - 1) / policy.pageBytes * policy.pageBytes

def pageBlockAllocBytes (bytes : ℕ) : ℕ :=
  if policy.pageBytes ≤ bytes then policy.roundUpToPage bytes else bytes

def nextGrowBytes (current needed : ℕ) : ℕ :=
  let scaled := if policy.grown current < needed then needed else policy.grown current
  let want := if scaled ≤ current then current + 1 else scaled
  if policy.pageBytes ≤ want then policy.roundUpToPage want else want

theorem chunkBytes_pos : 0 < policy.chunkBytes := Nat.two_pow_pos _

theorem pageBytes_pos : 0 < policy.pageBytes := Nat.two_pow_pos _

variable {bytes : ℕ}

theorem le_roundUpToPage : bytes ≤ policy.roundUpToPage bytes := by
  have hsplit := div_add_mod (bytes + policy.pageBytes - 1) policy.pageBytes
  have hmod := mod_lt (bytes + policy.pageBytes - 1) policy.pageBytes_pos
  rw [roundUpToPage, mul_comm]
  omega

theorem le_pageBlockAllocBytes : bytes ≤ policy.pageBlockAllocBytes bytes := by
  unfold pageBlockAllocBytes
  split
  · exact policy.le_roundUpToPage
  · exact le_rfl

/-- Whole pages of a block that fits its slot fit the slot. -/
theorem pageBlockAllocBytes_le (h : bytes ≤ policy.chunkBytes) :
    policy.pageBlockAllocBytes bytes ≤ policy.chunkBytes := by
  unfold pageBlockAllocBytes
  split
  · rename_i hpage
    have hle := (Nat.pow_le_pow_iff_right Nat.one_lt_two).mp (hpage.trans h)
    obtain ⟨pages, hpages⟩ := pow_dvd_pow 2 hle
    have hpos := policy.pageBytes_pos
    have hcnt : (bytes + policy.pageBytes - 1) / policy.pageBytes ≤ pages := by
      refine le_of_lt_succ ((div_lt_iff_lt_mul hpos).mpr ?_)
      rw [succ_mul, mul_comm]
      have hchunk : bytes ≤ policy.pageBytes * pages := h.trans_eq hpages
      omega
    calc policy.roundUpToPage bytes ≤ pages * policy.pageBytes := mul_le_mul_right _ hcnt
      _ = policy.chunkBytes := (mul_comm _ _).trans hpages.symm
  · exact h

theorem le_nextGrowBytes (current needed : ℕ) : needed ≤ policy.nextGrowBytes current needed := by
  have hneeded :
      needed ≤ if policy.grown current < needed then needed else policy.grown current := by
    split <;> omega
  unfold nextGrowBytes
  dsimp only
  generalize (if policy.grown current < needed then needed else policy.grown current) = scaled
    at hneeded
  have hwant : needed ≤ if scaled ≤ current then current + 1 else scaled := by
    split <;> omega
  generalize (if scaled ≤ current then current + 1 else scaled) = want at hwant
  split
  · exact hwant.trans policy.le_roundUpToPage
  · exact hwant

/-- The exponent of the chunk size: what is asked for, if it is a power of two between the least
size and 2^31, and 2 MiB otherwise. -/
def configureChunkBytes (least requested : ℕ) : ℕ :=
  if requested = 2 ^ Nat.log2 requested ∧ least ≤ requested ∧ requested ≤ 2 ^ 31 then
    Nat.log2 requested
  else 21

theorem le_configureChunkBytes {least requested : ℕ} (h : least ≤ 2 ^ 21) :
    least ≤ 2 ^ configureChunkBytes least requested := by
  unfold configureChunkBytes
  split
  · rename_i hrequested
    rw [← hrequested.1]
    exact hrequested.2.1
  · exact h

end Policy

/-- The bytes a new block has room for. -/
def initialArenaBytes : ℕ := 64

/-- A block: how many bytes it has room for, and the bytes written to it. -/
structure Block where
  capacity : ℕ
  bytes : ByteString

/-- The blocks, the cursor, and the size of the active block. -/
structure Arena where
  blocks : List Block := []
  nextOffset : ℕ := 0
  activeBytes : ℕ := 0

def Arena.contents (arena : Arena) : List ByteString := arena.blocks.map Block.bytes

/-- What `reserve_run_bytes` returns: the position as far as 32 bits hold it, and where to write. -/
structure RunReservation where
  offset : ℕ
  dst : Option (ℕ × ℕ)

/-- An arena in the course of a reservation, and the place considered. -/
structure Seat where
  arena : Arena
  blockIndex : ℕ
  blockOffset : ℕ

section

variable (policy : Policy)

def growPageBlock (old : Block) (used newBytes : ℕ) : Block :=
  ⟨policy.pageBlockAllocBytes newBytes, old.bytes.take used⟩

def allocPageBlock (bytes : ℕ) : Block := ⟨policy.pageBlockAllocBytes bytes, []⟩

/-- The first half of a reservation: the run goes to the active block, which grows if it has to, or
the active block is frozen. -/
def seatActive (arena : Arena) (size : ℕ) : Seat :=
  let blockOffset := arena.nextOffset % policy.chunkBytes
  let blockIndex := arena.nextOffset / policy.chunkBytes
  if blockIndex < arena.blocks.length then
    if blockOffset + size ≤ arena.activeBytes then ⟨arena, blockIndex, blockOffset⟩
    else if blockOffset + size ≤ policy.chunkBytes then
      let want :=
        min policy.chunkBytes (policy.nextGrowBytes arena.activeBytes (blockOffset + size))
      ⟨{ arena with
          blocks := arena.blocks.modify blockIndex fun block ↦
            growPageBlock policy block blockOffset want
          activeBytes := policy.pageBlockAllocBytes want }, blockIndex, blockOffset⟩
    else
      ⟨{ arena with nextOffset := arena.nextOffset + (policy.chunkBytes - blockOffset) },
        blockIndex + 1, 0⟩
  else ⟨arena, blockIndex, blockOffset⟩

/-- The second half: a new active block where there is none. -/
def seatFresh (seat : Seat) (size : ℕ) : Seat :=
  if seat.arena.blocks.length ≤ seat.blockIndex then
    let want := min policy.chunkBytes (max initialArenaBytes size)
    ⟨{ seat.arena with
        blocks := seat.arena.blocks ++ [allocPageBlock policy want]
        activeBytes := policy.pageBlockAllocBytes want }, seat.arena.blocks.length, 0⟩
  else seat

def reserveRunBytes (arena : Arena) (size : ℕ) : RunReservation × Arena :=
  if size = 0 then (⟨arena.nextOffset % 2 ^ 32, none⟩, arena)
  else
    let seat := seatFresh policy (seatActive policy arena size) size
    (⟨seat.arena.nextOffset % 2 ^ 32, some (seat.blockIndex, seat.blockOffset)⟩,
      { seat.arena with nextOffset := seat.arena.nextOffset + size })

end

/-- Write bytes at a place a reservation gave. -/
def Arena.write (arena : Arena) (dst : Option (ℕ × ℕ)) (data : ByteString) : Arena :=
  match dst with
  | none => arena
  | some (blockIndex, blockOffset) =>
    { arena with
      blocks := arena.blocks.modify blockIndex fun block ↦
        { block with bytes := splice block.bytes blockOffset data.length data } }

/-- Reserve a run and write it. -/
def append (policy : Policy) (arena : Arena) (data : ByteString) : ℕ × Arena :=
  let reserved := reserveRunBytes policy arena data.length
  (reserved.1.offset, reserved.2.write reserved.1.dst data)

theorem map_modify {α β : Type*} {f : α → β} {g : α → α} {g' : β → β}
    (h : ∀ item, f (g item) = g' (f item)) {list : List α} {index : ℕ} :
    (list.modify index g).map f = (list.map f).modify index g' := by
  apply ext_getElem?
  intro other
  rw [getElem?_map, getElem?_modify, getElem?_modify, getElem?_map]
  cases list[other]? with
  | none => rfl
  | some item =>
    by_cases hsame : index = other
    · simp [hsame, h]
    · simp [hsame]

/-- Tighten the active block to the bytes in use. -/
def shrinkTail (policy : Policy) (arena : Arena) : Arena :=
  if arena.blocks = [] then arena
  else
    let used :=
      if arena.nextOffset % policy.chunkBytes = 0 ∧ arena.nextOffset ≠ 0 then policy.chunkBytes
      else arena.nextOffset % policy.chunkBytes
    let desired := policy.pageBlockAllocBytes used
    if arena.activeBytes ≤ desired then arena
    else
      { arena with
        blocks := arena.blocks.modify (arena.blocks.length - 1) fun block ↦
          growPageBlock policy block used used
        activeBytes := desired }

/-! ## The invariant of an arena -/

section

variable {policy : Policy} {arena : Arena} {front : List Block} {last : Block}

/-- The last block is active: the cursor is at the end of its bytes, and it has room for them. -/
structure Ending (policy : Policy) (arena : Arena) (front : List Block) (last : Block) : Prop where
  blocks : arena.blocks = front ++ [last]
  cursor : arena.nextOffset = front.length * policy.chunkBytes + last.bytes.length
  room : last.bytes.length ≤ last.capacity
  active : last.capacity = arena.activeBytes
  slot : arena.activeBytes ≤ policy.chunkBytes

/-- There is no block yet, or the last one has been written to. -/
def Sound (policy : Policy) (arena : Arena) : Prop :=
  arena.blocks = [] ∧ arena.nextOffset = 0 ∨
    ∃ front last, Ending policy arena front last ∧ last.bytes ≠ []

theorem sound_empty : Sound policy {} := .inl ⟨rfl, rfl⟩

/-- A run that ends before the cursor. -/
def Arena.Keeps (policy : Policy) (arena : Arena) (position : ℕ) (data : ByteString) : Prop :=
  Stored policy.chunkBytes arena.contents position data ∧
    (data ≠ [] → position + data.length ≤ arena.nextOffset)

variable {position : ℕ} {seat : Seat}

theorem keeps_nil : arena.Keeps policy position [] :=
  ⟨stored_nil, fun hne ↦ absurd rfl hne⟩

variable {data : ByteString} {size : ℕ}

theorem Arena.Keeps.advance (h : arena.Keeps policy position data) {next : ℕ}
    (hle : arena.nextOffset ≤ next) :
    Arena.Keeps policy { arena with nextOffset := next } position data :=
  ⟨h.1, fun hne ↦ (h.2 hne).trans hle⟩

theorem modify_last {α : Type*} (front : List α) (last : α) (f : α → α) :
    (front ++ [last]).modify front.length f = front ++ [f last] := by
  induction front with
  | nil => rfl
  | cons head front ih => exact congrArg (head :: ·) ih

/-- A last block that is not full is the one at the cursor. -/
theorem Ending.div_mod (h : Ending policy arena front last)
    (hshort : last.bytes.length < policy.chunkBytes) :
    arena.nextOffset / policy.chunkBytes = front.length ∧
      arena.nextOffset % policy.chunkBytes = last.bytes.length := by
  rw [h.cursor, mul_comm, mul_add_div policy.chunkBytes_pos, div_eq_of_lt hshort,
    mul_add_mod, mod_eq_of_lt hshort]
  exact ⟨rfl, rfl⟩

/-- The active block is replaced by one of another size with the same bytes. -/
theorem Ending.regrow (h : Ending policy arena front last) {newBytes : ℕ}
    (hroom : last.bytes.length ≤ newBytes) (hslot : newBytes ≤ policy.chunkBytes) :
    Ending policy
      { arena with
        blocks := arena.blocks.modify front.length fun block ↦
          growPageBlock policy block last.bytes.length newBytes
        activeBytes := policy.pageBlockAllocBytes newBytes } front
      ⟨policy.pageBlockAllocBytes newBytes, last.bytes⟩ where
  blocks := by
    simp only [h.blocks, modify_last, growPageBlock, take_length]
  cursor := h.cursor
  room := hroom.trans policy.le_pageBlockAllocBytes
  active := rfl
  slot := policy.pageBlockAllocBytes_le hslot

/-! ## What a reservation does -/

/-- The place found for a run of a given size: it starts where `place` says, at the end of the last
block, which has room for it; a new block may have been added, and no byte has changed. -/
structure Seated (policy : Policy) (arena : Arena) (size : ℕ) (seat : Seat) : Prop where
  cursor : seat.arena.nextOffset = place policy.chunkBytes arena.nextOffset size
  ending : ∃ front last, Ending policy seat.arena front last ∧ seat.blockIndex = front.length ∧
    seat.blockOffset = last.bytes.length ∧ last.bytes.length + size ≤ last.capacity
  contents : ∃ more, seat.arena.contents = arena.contents ++ more

theorem seatFresh_seated (hsize : size ≤ policy.chunkBytes)
    (hcursor : seat.arena.nextOffset = place policy.chunkBytes arena.nextOffset size)
    (hidx : seat.blockIndex = seat.arena.blocks.length)
    (hslot : seat.arena.nextOffset = seat.arena.blocks.length * policy.chunkBytes)
    (hblks : seat.arena.blocks = arena.blocks) :
    Seated policy arena size (seatFresh policy seat size) := by
  rw [seatFresh, if_pos hidx.ge]
  refine ⟨hcursor, ⟨seat.arena.blocks, _, ⟨rfl, hslot, zero_le _, rfl, ?_⟩, rfl, rfl, ?_⟩, [[]], ?_⟩
  · exact policy.pageBlockAllocBytes_le (min_le_left _ _)
  · rw [allocPageBlock, length_nil, zero_add]
    exact (le_min hsize (le_max_right _ _)).trans policy.le_pageBlockAllocBytes
  · rw [Arena.contents, map_append, hblks]
    rfl

/-- A last block with room for the run. -/
theorem Ending.seated (h : Ending policy arena front last) {before : Arena}
    (hcursor : arena.nextOffset = place policy.chunkBytes before.nextOffset size)
    (hcont : arena.contents = before.contents)
    (hroom : last.bytes.length + size ≤ arena.activeBytes) :
    Seated policy before size (seatFresh policy ⟨arena, front.length, last.bytes.length⟩ size) := by
  rw [seatFresh, if_neg (by simp [h.blocks])]
  exact ⟨hcursor, ⟨front, last, h, rfl, rfl, h.active ▸ hroom⟩, [], by simp [hcont]⟩

theorem seat_seated (h : Sound policy arena) (hsize : size ≤ policy.chunkBytes) :
    Seated policy arena size (seatFresh policy (seatActive policy arena size) size) := by
  have hchunk := policy.chunkBytes_pos
  unfold seatActive
  rcases h with ⟨hblks, hcursor⟩ | ⟨front, last, h, hne⟩
  · rw [if_neg (by simp [hblks]), hcursor]
    refine seatFresh_seated hsize ?_ (by simp [hblks]) (by simp [hblks, hcursor]) rfl
    rw [hcursor, place, zero_mod, zero_add, if_pos hsize]
  have hlen : arena.blocks.length = front.length + 1 := by simp [h.blocks]
  have hslot := h.slot
  have hwritten := h.active ▸ h.room
  rcases lt_or_eq_of_le (hwritten.trans hslot) with hshort | hfull
  · obtain ⟨hidx, hoff⟩ := h.div_mod hshort
    rw [hidx, hoff, if_pos (by omega)]
    by_cases hroom : last.bytes.length + size ≤ policy.chunkBytes
    · have hplace : arena.nextOffset = place policy.chunkBytes arena.nextOffset size := by
        rw [place, hoff, if_pos hroom]
      by_cases hact : last.bytes.length + size ≤ arena.activeBytes
      · rw [if_pos hact]
        exact h.seated hplace rfl hact
      have hneeded := le_min hroom (policy.le_nextGrowBytes arena.activeBytes
        (last.bytes.length + size))
      rw [if_neg hact, if_pos hroom]
      have hgrown := h.regrow (le_trans (le_add_right _ _) hneeded) (min_le_left _ _)
      refine hgrown.seated hplace ?_ (hneeded.trans policy.le_pageBlockAllocBytes)
      rw [Arena.contents, hgrown.blocks, Arena.contents, h.blocks]
      simp
    · rw [if_neg (by omega), if_neg hroom]
      have hnext : arena.nextOffset + (policy.chunkBytes - last.bytes.length)
          = (front.length + 1) * policy.chunkBytes := by
        rw [h.cursor, add_mul]
        omega
      refine seatFresh_seated hsize ?_ hlen.symm (by rw [hlen, hnext]) rfl
      rw [place, hoff, if_neg hroom, hidx, hnext]
  · have hnext : arena.nextOffset = (front.length + 1) * policy.chunkBytes := by
      rw [h.cursor, hfull, add_mul, one_mul]
    rw [hnext, Nat.mul_mod_left, Nat.mul_div_cancel _ hchunk, if_neg (by omega)]
    refine seatFresh_seated hsize ?_ hlen.symm (by rw [hlen, hnext]) rfl
    rw [hnext, place, mul_mod_left, zero_add, if_pos hsize]

/-! ## Runs -/

theorem contents_write {blockIndex blockOffset : ℕ}
    (hidx : blockIndex = position / policy.chunkBytes)
    (hoff : blockOffset = position % policy.chunkBytes) :
    (arena.write (some (blockIndex, blockOffset)) data).contents
      = writeRun policy.chunkBytes arena.contents position data := by
  subst hidx hoff
  apply map_modify
  intro block
  rfl

/-- After a run was written behind all others the arena is sound, the run is there, and so is
every other. -/
structure Appended (policy : Policy) (arena after : Arena) (data : ByteString) : Prop where
  sound : Sound policy after
  cursor : after.nextOffset = place policy.chunkBytes arena.nextOffset data.length + data.length
  stored : after.Keeps policy (place policy.chunkBytes arena.nextOffset data.length) data
  keeps : ∀ {position other}, arena.Keeps policy position other → after.Keeps policy position other

theorem Seated.appended (hne : data ≠ []) (h : Seated policy arena data.length seat) :
    Appended policy arena
      (Arena.write { seat.arena with nextOffset := seat.arena.nextOffset + data.length }
        (some (seat.blockIndex, seat.blockOffset)) data) data := by
  obtain ⟨front, last, hending, hidx, hoff, hroom⟩ := h.ending
  obtain ⟨more, hmore⟩ := h.contents
  have hpos := length_pos_iff.mpr hne
  have hslot := hending.active ▸ hending.slot
  obtain ⟨hdiv, hmod⟩ := hending.div_mod (by omega)
  have hcont : (Arena.write { seat.arena with
        nextOffset := seat.arena.nextOffset + data.length }
        (some (seat.blockIndex, seat.blockOffset)) data).contents
      = writeRun policy.chunkBytes seat.arena.contents seat.arena.nextOffset data :=
    contents_write (hidx.trans hdiv.symm) (hoff.trans hmod.symm)
  have hblks : seat.arena.contents = front.map Block.bytes ++ [last.bytes] := by
    rw [Arena.contents, hending.blocks, map_append]
    rfl
  have hplaced : seat.arena.nextOffset % policy.chunkBytes
      ≤ (seat.arena.contents.getD (seat.arena.nextOffset / policy.chunkBytes) []).length := by
    rw [hmod, hdiv, hblks]
    simp
  have hsplice : splice last.bytes last.bytes.length data.length data = last.bytes ++ data := by
    simp [splice]
  refine ⟨.inr ⟨front, ⟨last.capacity, last.bytes ++ data⟩, ⟨?_, ?_, ?_, hending.active,
    hending.slot⟩, by simp [hne]⟩, by simp [Arena.write, h.cursor], ?_, ?_⟩
  · simp only [Arena.write, hending.blocks, hidx, hoff, modify_last, hsplice]
  · simp only [Arena.write, hending.cursor, length_append]
    omega
  · simpa using hroom
  · rw [← h.cursor]
    refine ⟨?_, fun _ ↦ le_rfl⟩
    rw [hcont]
    exact stored_writeRun (by rw [hdiv, hblks]; simp) hplaced
  · intro position other hkeep
    have hbehind := le_place policy.chunkBytes_pos arena.nextOffset data.length
    rw [← h.cursor] at hbehind
    refine ⟨?_, fun hoth ↦ (hkeep.2 hoth).trans (hbehind.trans (le_add_right _ _))⟩
    rw [hcont]
    have hstored := hmore ▸ hkeep.1.append more
    by_cases hoth : other = []
    · subst hoth
      exact stored_nil
    · exact hstored.writeRun hplaced (.inr (.inl ((hkeep.2 hoth).trans hbehind)))

/-- A run goes where `place` says, and its owner keeps the low 32 bits of that. -/
theorem append_appended (h : Sound policy arena) (hsize : data.length ≤ policy.chunkBytes) :
    (append policy arena data).1 = place policy.chunkBytes arena.nextOffset data.length % 2 ^ 32 ∧
      Appended policy arena (append policy arena data).2 data := by
  by_cases hne : data = []
  · subst hne
    have hplace := place_zero policy.chunkBytes_pos arena.nextOffset
    exact ⟨congrArg (· % 2 ^ 32) hplace.symm, h, hplace.symm, keeps_nil, id⟩
  · have hseated := seat_seated h hsize
    unfold append reserveRunBytes
    rw [if_neg (by simpa using hne)]
    exact ⟨congrArg (· % 2 ^ 32) hseated.cursor, hseated.appended hne⟩

/-! ## Compaction -/

/-- The loop of the compactions: the live runs are appended to an arena one after another; `free`
marks the entries that have none. -/
def repack (policy : Policy) (free : ℕ) : Arena → List (Option ByteString) → List ℕ × Arena
  | arena, [] => ([], arena)
  | arena, none :: runs =>
    let rest := repack policy free arena runs
    (free :: rest.1, rest.2)
  | arena, some data :: runs =>
    let appended := append policy arena data
    let rest := repack policy free appended.2 runs
    (appended.1 :: rest.1, rest.2)

/-- Runs that are laid out one after another all start at acceptable positions. -/
def Placed (acceptable : ℕ → ByteString → Prop) (chunk : ℕ) : ℕ → List (Option ByteString) → Prop
  | _, [] => True
  | cursor, none :: runs => Placed acceptable chunk cursor runs
  | cursor, some data :: runs =>
    acceptable (place chunk cursor data.length) data ∧
      Placed acceptable chunk (place chunk cursor data.length + data.length) runs

/-- What is kept of a run after compaction. -/
def Readdressed (policy : Policy) (acceptable : ℕ → ByteString → Prop) (free : ℕ) (arena : Arena)
    (run : Option ByteString) (offset : ℕ) : Prop :=
  match run with
  | none => offset = free
  | some data =>
    ∃ position, acceptable position data ∧ offset = position % 2 ^ 32 ∧
      arena.Keeps policy position data

theorem repack_readdressed {acceptable : ℕ → ByteString → Prop} {free : ℕ}
    {runs : List (Option ByteString)} {arena : Arena} (h : Sound policy arena)
    (hsize : ∀ data, some data ∈ runs → data.length ≤ policy.chunkBytes)
    (hplaced : Placed acceptable policy.chunkBytes arena.nextOffset runs) :
    Sound policy (repack policy free arena runs).2 ∧
      List.Forall₂ (Readdressed policy acceptable free (repack policy free arena runs).2) runs
        (repack policy free arena runs).1 ∧
      ∀ {position data}, arena.Keeps policy position data →
        (repack policy free arena runs).2.Keeps policy position data := by
  induction runs generalizing arena with
  | nil => exact ⟨h, List.Forall₂.nil, id⟩
  | cons run runs ih =>
    have hrest : ∀ data, some data ∈ runs → data.length ≤ policy.chunkBytes :=
      fun data hdata ↦ hsize data (mem_cons_of_mem _ hdata)
    cases run with
    | none =>
      obtain ⟨hsound, hruns, hkeeps⟩ := ih h hrest hplaced
      exact ⟨hsound, List.Forall₂.cons rfl hruns, hkeeps⟩
    | some data =>
      obtain ⟨hoff, happ⟩ := append_appended h (hsize data (mem_cons_self ..))
      have hcursor := happ.cursor ▸ hplaced.2
      obtain ⟨hsound, hruns, hkeeps⟩ := ih happ.sound hrest hcursor
      exact ⟨hsound, List.Forall₂.cons ⟨_, hplaced.1, hoff, hkeeps happ.stored⟩ hruns,
        fun hkeep ↦ hkeeps (happ.keeps hkeep)⟩

/-- Tightening the active block loses nothing. -/
theorem shrinkTail_keeps (h : Sound policy arena) :
    Sound policy (shrinkTail policy arena) ∧
      ∀ {position data}, arena.Keeps policy position data →
        (shrinkTail policy arena).Keeps policy position data := by
  unfold shrinkTail
  dsimp only
  rcases h with ⟨hblks, hcursor⟩ | ⟨front, last, hending, hne⟩
  · rw [if_pos hblks]
    exact ⟨.inl ⟨hblks, hcursor⟩, id⟩
  have hpos := length_pos_iff.mpr hne
  have hle := hending.room.trans (hending.active ▸ hending.slot)
  have hused : (if arena.nextOffset % policy.chunkBytes = 0 ∧ arena.nextOffset ≠ 0 then
      policy.chunkBytes else arena.nextOffset % policy.chunkBytes) = last.bytes.length := by
    rcases lt_or_eq_of_le hle with hshort | hfull
    · rw [(hending.div_mod hshort).2, if_neg (by omega)]
    · have hcursor := hending.cursor
      rw [if_pos ⟨by rw [hcursor, hfull, mul_add_mod_self_right, mod_self], by omega⟩, hfull]
  have hlast : arena.blocks.length - 1 = front.length := by simp [hending.blocks]
  rw [if_neg (by simp [hending.blocks]), hused, hlast]
  split
  · exact ⟨.inr ⟨front, last, hending, hne⟩, id⟩
  have hgrown := hending.regrow le_rfl hle
  refine ⟨.inr ⟨front, _, hgrown, hne⟩, fun hkeep ↦ ⟨?_, hkeep.2⟩⟩
  have hstored := hkeep.1
  rw [Arena.contents, hending.blocks] at hstored
  rw [Arena.contents, hgrown.blocks]
  simpa using hstored

end

end GoblinCore.PageArena
