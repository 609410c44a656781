import GoblinCore.Storage.SetStorage

/-!
# The element storage of sparse arrays

Like the member storage, with ids that stay: the id of an orphaned value is marked free and given
out again.  A storage may be reserved for real-time use, with all its blocks allocated at once.
-/

namespace GoblinCore

open ChunkedRuns PageArena Function List Nat Option SetStorage
open StringEncoding (ByteString)

structure ArrayStorage where
  offsets : List ℕ := []
  lengths : List ℕ := []
  freeIds : List ℕ := []
  arena : Arena := {}
  usedBytes : ℕ := 0
  deadBytes : ℕ := 0
  liveCount : ℕ := 0
  reservedValueCapacity : ℕ := 0
  reservedArenaBytes : ℕ := 0
  realtimeReserved : Bool := false

namespace ArrayStorage

def emptyId : ℕ := 2 ^ 32 - 1

def freeOffset : ℕ := 2 ^ 32 - 1

def maxEncodedBytes : ℕ := 65535

section

variable (policy : Policy) (storage : ArrayStorage)

def size : ℕ := storage.offsets.length

/-- All blocks are allocated and zeroed, and the tables get their final capacity. -/
def reserveRealtime (valueCapacity arenaBytes : ℕ) : Except String Unit × ArrayStorage :=
  if storage.realtimeReserved || storage.offsets ≠ [] || storage.usedBytes ≠ 0 ||
      storage.liveCount ≠ 0 then
    (.error "ERR RT array reserve requires an empty, unreserved array", storage)
  else if valueCapacity = 0 ∨ emptyId ≤ valueCapacity then
    (.error "ERR RT array value reservation is out of range", storage)
  else if arenaBytes = 0 ∨ 2 ^ 32 - 1 < arenaBytes then
    (.error "ERR RT array byte reservation is out of range", storage)
  else
    let chunkCount := (arenaBytes + policy.chunkBytes - 1) / policy.chunkBytes
    (.ok (),
      { storage with
        offsets := []
        lengths := []
        freeIds := []
        arena :=
          { storage.arena with
            blocks := List.replicate chunkCount ⟨policy.pageBlockAllocBytes policy.chunkBytes,
              List.replicate policy.chunkBytes 0⟩
            activeBytes := policy.chunkBytes }
        reservedValueCapacity := valueCapacity
        reservedArenaBytes := arenaBytes
        realtimeReserved := true })

def isLive (id : ℕ) : Bool :=
  id ≠ emptyId && id < storage.offsets.length && storage.offsets.getD id freeOffset ≠ freeOffset

/-- Where a run goes in a reserved arena. -/
def realtimeOffset (n : ℕ) : ℕ :=
  let offset := storage.arena.nextOffset % policy.chunkBytes
  if policy.chunkBytes < offset + n then
    storage.arena.nextOffset + (policy.chunkBytes - offset)
  else storage.arena.nextOffset

def appendEncoded (encoded : ByteString) : Except String ℕ × ArrayStorage :=
  let n := encoded.length
  if storage.realtimeReserved then
    let next := storage.realtimeOffset policy n
    if storage.reservedArenaBytes < next ∨ storage.reservedArenaBytes - next < n then
      (.error "ERR RT array reserved byte arena exhausted",
        { storage with arena := { storage.arena with nextOffset := next } })
    else
      let written := if n = 0 then storage.arena else
        storage.arena.write (some (next / policy.chunkBytes, next % policy.chunkBytes)) encoded
      (.ok (next % 2 ^ 32),
        { storage with
          arena := { written with nextOffset := next + n }
          usedBytes := storage.usedBytes + n })
  else
    let appended := append policy storage.arena encoded
    (.ok appended.1, { storage with arena := appended.2, usedBytes := storage.usedBytes + n })

/-- A value gets the id freed last, or a new one. -/
def pushEncoded (encoded : ByteString) : Except String ℕ × ArrayStorage :=
  if maxEncodedBytes < encoded.length then (.error "array value too large", storage)
  else if storage.realtimeReserved ∧ storage.freeIds = [] ∧
      storage.reservedValueCapacity ≤ storage.offsets.length then
    (.error "ERR RT array reserved value capacity exhausted", storage)
  else
    match storage.appendEncoded policy encoded with
    | (.error message, after) => (.error message, after)
    | (.ok offset, after) =>
      let length := encoded.length % 2 ^ 16
      match after.freeIds with
      | id :: freeIds =>
        (.ok id,
          { after with
            freeIds := freeIds
            offsets := after.offsets.set id offset
            lengths := after.lengths.set id length
            liveCount := after.liveCount + 1 })
      | [] =>
        if emptyId ≤ after.offsets.length then (.error "array value id space exhausted", after)
        else
          (.ok after.offsets.length,
            { after with
              offsets := after.offsets ++ [offset]
              lengths := after.lengths ++ [length]
              liveCount := after.liveCount + 1 })

def replaceEncoded (id : ℕ) (encoded : ByteString) : Except String Unit × ArrayStorage :=
  if maxEncodedBytes < encoded.length then (.error "array value too large", storage)
  else
    match storage.appendEncoded policy encoded with
    | (.error message, after) => (.error message, after)
    | (.ok newOffset, after) =>
      (.ok (),
        { after with
          offsets := after.offsets.set id newOffset
          lengths := after.lengths.set id (encoded.length % 2 ^ 16)
          deadBytes := after.deadBytes + after.lengths.getD id 0 })

def view (id : ℕ) : ByteString :=
  let length := storage.lengths.getD id 0
  if length = 0 then []
  else readRun policy.chunkBytes storage.arena.contents (storage.offsets.getD id 0) length

def orphan (id : ℕ) : ArrayStorage :=
  if id = emptyId then storage
  else
    { storage with
      deadBytes := storage.deadBytes + storage.lengths.getD id 0
      offsets := storage.offsets.set id freeOffset
      lengths := storage.lengths.set id 0
      freeIds := id :: storage.freeIds
      liveCount := storage.liveCount - 1 }

/-- The values of the live ids, in the order of the ids. -/
def values : List (Option ByteString) :=
  (List.range storage.size).map fun id ↦
    if storage.isLive id then some (storage.view policy id) else none

/-- `allowed` is `arena_compaction_allowed()`. -/
def compact (allowed : Bool) : ArrayStorage :=
  if !allowed || storage.deadBytes = 0 || storage.realtimeReserved then storage
  else
    let fresh := repack policy freeOffset {} (storage.values policy)
    { storage with
      offsets := fresh.1
      arena := shrinkTail policy fresh.2
      usedBytes := (storage.values policy).reduceOption.flatten.length
      deadBytes := 0 }

end

/-- An operation on a storage. -/
inductive Call where
  | push (encoded : ByteString)
  | replace (id : ℕ) (encoded : ByteString)
  | orphan (id : ℕ)
  | compact (allowed : Bool)
  | reserveRealtime (valueCapacity arenaBytes : ℕ)

/-- The bytes last stored under each live id. -/
abbrev Ledger := ℕ → Option ByteString

section

variable (policy : Policy)

variable (storage : ArrayStorage)

/-- What a call returns, with the id where it returns one, and the storage afterwards. -/
def step : Call → Except String (Option ℕ) × ArrayStorage
  | .push encoded =>
    let pushed := storage.pushEncoded policy encoded
    (pushed.1.map some, pushed.2)
  | .replace id encoded =>
    let replaced := storage.replaceEncoded policy id encoded
    (replaced.1.map fun _ ↦ none, replaced.2)
  | .orphan id => (.ok none, storage.orphan id)
  | .compact allowed => (.ok none, storage.compact policy allowed)
  | .reserveRealtime valueCapacity arenaBytes =>
    let reserved := storage.reserveRealtime policy valueCapacity arenaBytes
    (reserved.1.map fun _ ↦ none, reserved.2)

/-- The bytes stored after a call that returned this: a call that threw stored nothing. -/
def Call.result (ledger : Ledger) (call : Call) (returned : Except String (Option ℕ)) : Ledger :=
  match returned with
  | .error _ => ledger
  | .ok id =>
    match call, id with
    | .push encoded, some id => update ledger id (some encoded)
    | .replace id encoded, _ => update ledger id (some encoded)
    | .orphan id, _ => update ledger id none
    | _, _ => ledger

/-- What the assertions of the storage ask of a call: a replaced or orphaned id is live. -/
def Call.Permitted (ledger : Ledger) : Call → Prop
  | .replace id _ => (ledger id).isSome
  | .orphan id => id = emptyId ∨ (ledger id).isSome
  | _ => True

/-- A position whose low 32 bits are the position itself, and not the mark of a free id. -/
def Addressable (position : ℕ) (data : ByteString) : Prop :=
  position % 2 ^ 32 ≠ freeOffset ∧ (data ≠ [] → position < 2 ^ 32)

/-- The call stores no value at the last position of 32 bits or beyond, counting the bytes skipped
at the ends of the blocks. -/
def Call.Fits : Call → Prop
  | .push encoded | .replace _ encoded =>
    Addressable (place policy.chunkBytes storage.arena.nextOffset encoded.length) encoded
  | .compact allowed =>
    allowed = true → storage.deadBytes ≠ 0 →
      Placed Addressable policy.chunkBytes 0 (storage.values policy)
  | _ => True

/-- A reserved storage has no room for so many bytes. -/
def Exhausted (n : ℕ) : Prop :=
  storage.realtimeReserved = true ∧
    (storage.reservedArenaBytes < place policy.chunkBytes storage.arena.nextOffset n ∨
      storage.reservedArenaBytes - place policy.chunkBytes storage.arena.nextOffset n < n)

/-- The calls that throw `length_error`. -/
def Call.Refuses : Call → Prop
  | .push encoded =>
    maxEncodedBytes < encoded.length ∨ storage.Exhausted policy encoded.length ∨
      storage.freeIds = [] ∧ (emptyId ≤ storage.offsets.length ∨
        storage.realtimeReserved = true ∧ storage.reservedValueCapacity ≤ storage.offsets.length)
  | .replace _ encoded =>
    maxEncodedBytes < encoded.length ∨ storage.Exhausted policy encoded.length
  | .orphan _ | .compact _ => False
  | .reserveRealtime valueCapacity arenaBytes =>
    (storage.realtimeReserved || storage.offsets ≠ [] || storage.usedBytes ≠ 0 ||
      storage.liveCount ≠ 0) = true ∨ (valueCapacity = 0 ∨ emptyId ≤ valueCapacity) ∨
        arenaBytes = 0 ∨ 2 ^ 32 - 1 < arenaBytes

/-- A call throws if it is refused, and a new value gets an id that was not live. -/
def Call.Answered (ledger : Ledger) (call : Call) (returned : Except String (Option ℕ)) : Prop :=
  (call.Refuses policy storage ∧ ∃ message, returned = .error message) ∨
    ¬call.Refuses policy storage ∧ match call with
      | .push _ => ∃ id, returned = .ok (some id) ∧ ledger id = none
      | _ => returned = .ok none

end

/-! ## What the storage holds -/

section

variable {policy : Policy} {storage : ArrayStorage} {ledger : Ledger} {id : ℕ}
  {data encoded : ByteString}

/-- The blocks of a reserved arena are there in full length. -/
structure Preallocated (policy : Policy) (arena : Arena) (reserved : ℕ) : Prop where
  filled : ∀ block ∈ arena.blocks, block.bytes.length = policy.chunkBytes
  covered : reserved ≤ arena.blocks.length * policy.chunkBytes

/-- The arena is as its kind of storage wants it. -/
def Roomy (policy : Policy) (storage : ArrayStorage) : Prop :=
  if storage.realtimeReserved then Preallocated policy storage.arena storage.reservedArenaBytes
  else Sound policy storage.arena

/-- What the tables and the arena have for an id: the bytes stored under it, or the mark of a free
id. -/
def Held (policy : Policy) (arena : Arena) (offset length : Option ℕ) : Option ByteString → Prop
  | none => ∀ entry, offset = some entry → entry = freeOffset
  | some data =>
    ∃ entry, offset = some entry ∧ entry ≠ freeOffset ∧ length = some data.length ∧
      data.length ≤ maxEncodedBytes ∧ arena.Keeps policy entry data

/-- The storage holds the values of the ledger under their ids, and marks all other ids free. -/
structure Represents (policy : Policy) (storage : ArrayStorage) (ledger : Ledger) : Prop where
  roomy : Roomy policy storage
  lengths : storage.lengths.length = storage.offsets.length
  ids : storage.offsets.length ≤ emptyId
  held : ∀ id, Held policy storage.arena storage.offsets[id]? storage.lengths[id]? (ledger id)
  free : ∀ id ∈ storage.freeIds, ledger id = none ∧ id < storage.offsets.length
  nodup : storage.freeIds.Nodup

theorem represents_empty : Represents policy {} fun _ ↦ none :=
  ⟨sound_empty, rfl, zero_le _, fun _ _ hent ↦ absurd hent (by simp),
    fun _ hid ↦ absurd hid (by simp), nodup_nil⟩

section

variable (h : Represents policy storage ledger)
include h

theorem Represents.live (hlive : ledger id = some data) :
    ∃ entry, storage.offsets[id]? = some entry ∧ entry ≠ freeOffset ∧
      storage.lengths[id]? = some data.length ∧ data.length ≤ maxEncodedBytes ∧
      storage.arena.Keeps policy entry data := by
  have hheld := h.held id
  rwa [hlive] at hheld

theorem Represents.lt_size (hlive : ledger id = some data) : id < storage.offsets.length := by
  obtain ⟨entry, hent, -⟩ := h.live hlive
  exact (List.getElem?_eq_some_iff.mp hent).1

theorem Represents.view_eq (hlive : ledger id = some data) : storage.view policy id = data := by
  obtain ⟨entry, hent, -, hlen, -, hkeep⟩ := h.live hlive
  unfold view
  dsimp only
  rw [getD_eq_getElem?_getD, hlen, getD_some, getD_eq_getElem?_getD, hent, getD_some]
  split
  · rename_i hzero
    exact (length_eq_zero_iff.mp hzero).symm
  · exact hkeep.1

theorem Represents.isLive_eq (id : ℕ) : storage.isLive id = (ledger id).isSome := by
  unfold isLive
  have hids := h.ids
  cases hledger : ledger id with
  | none =>
    have hheld := h.held id
    rw [hledger] at hheld
    cases hent : storage.offsets[id]? with
    | none => simp [getD_eq_getElem?_getD, hent]
    | some entry => simp [getD_eq_getElem?_getD, hent, hheld entry hent]
  | some data =>
    have hlt := h.lt_size hledger
    obtain ⟨entry, hent, hne, -⟩ := h.live hledger
    have hid : id ≠ emptyId := by omega
    rw [getD_eq_getElem?_getD, hent, getD_some]
    simp [hid, hlt, hne]

theorem Represents.values_eq :
    storage.values policy = (List.range storage.offsets.length).map ledger := by
  refine map_congr_left fun id _ ↦ ?_
  rw [h.isLive_eq]
  cases hledger : ledger id with
  | none => rfl
  | some data => exact congrArg some (h.view_eq hledger)

end

/-! ## Appending a value -/

theorem realtimeOffset_eq (n : ℕ) :
    storage.realtimeOffset policy n = place policy.chunkBytes storage.arena.nextOffset n := by
  have hsplit := div_add_mod storage.arena.nextOffset policy.chunkBytes
  have hmod := mod_lt storage.arena.nextOffset policy.chunkBytes_pos
  unfold realtimeOffset place
  by_cases hroom : storage.arena.nextOffset % policy.chunkBytes + n ≤ policy.chunkBytes
  · rw [if_pos hroom, if_neg (by omega)]
  · rw [if_neg hroom, if_pos (by omega), add_mul,
      mul_comm (storage.arena.nextOffset / policy.chunkBytes)]
    omega

/-- What an append leaves: the runs there were, and the new one unless it threw. -/
structure Lengthened (policy : Policy) (storage : ArrayStorage) (encoded : ByteString)
    (outcome : Except String ℕ × ArrayStorage) : Prop where
  others : ∃ arena usedBytes, outcome.2 = { storage with arena := arena, usedBytes := usedBytes }
  roomy : Roomy policy outcome.2
  keeps : ∀ {position data}, storage.arena.Keeps policy position data →
    outcome.2.arena.Keeps policy position data
  returns : (storage.Exhausted policy encoded.length ∧ ∃ message, outcome.1 = .error message) ∨
    ¬storage.Exhausted policy encoded.length ∧
      outcome.1 = .ok (place policy.chunkBytes storage.arena.nextOffset encoded.length % 2 ^ 32) ∧
      outcome.2.arena.Keeps policy
        (place policy.chunkBytes storage.arena.nextOffset encoded.length) encoded

/-- Writing within the reserved blocks, behind all runs there are. -/
theorem Preallocated.write {arena : Arena} {reserved start : ℕ}
    (h : Preallocated policy arena reserved) (hbehind : arena.nextOffset ≤ start)
    (hroom : start % policy.chunkBytes + encoded.length ≤ policy.chunkBytes)
    (hreserved : start < reserved) :
    Preallocated policy
        (arena.write (some (start / policy.chunkBytes, start % policy.chunkBytes)) encoded)
        reserved ∧
      Stored policy.chunkBytes
        (arena.write (some (start / policy.chunkBytes, start % policy.chunkBytes))
          encoded).contents start encoded ∧
      ∀ {position data}, arena.Keeps policy position data → Stored policy.chunkBytes
        (arena.write (some (start / policy.chunkBytes, start % policy.chunkBytes))
          encoded).contents position data := by
  have hidx := (div_lt_iff_lt_mul policy.chunkBytes_pos).mpr (hreserved.trans_le h.covered)
  have hplaced : start % policy.chunkBytes
      ≤ (arena.contents.getD (start / policy.chunkBytes) []).length := by
    rw [getD_eq_getElem _ _ (by simpa [Arena.contents] using hidx)]
    simp only [Arena.contents, getElem_map, h.filled _ (getElem_mem hidx)]
    omega
  rw [contents_write rfl rfl]
  refine ⟨⟨?_, h.covered.trans_eq (by simp [Arena.write])⟩,
    stored_writeRun (by simpa [Arena.contents] using hidx) hplaced, fun {position data} hkeep ↦ ?_⟩
  · refine forall_mem_modify h.filled fun block hblk ↦ ?_
    rw [length_splice (by rw [hblk]; exact hroom), hblk]
    omega
  · by_cases hdata : data = []
    · subst hdata
      exact stored_nil
    · exact hkeep.1.writeRun hplaced (.inr (.inl ((hkeep.2 hdata).trans hbehind)))

theorem appendEncoded_realtime (h : Preallocated policy storage.arena storage.reservedArenaBytes)
    (hrealtime : storage.realtimeReserved = true) (hsize : encoded.length ≤ policy.chunkBytes) :
    Lengthened policy storage encoded (storage.appendEncoded policy encoded) := by
  have hbehind := le_place policy.chunkBytes_pos storage.arena.nextOffset encoded.length
  have hroom : place policy.chunkBytes storage.arena.nextOffset encoded.length % policy.chunkBytes
      + encoded.length ≤ policy.chunkBytes := place_mod_add_le hsize
  have hexhausted : storage.Exhausted policy encoded.length ↔ _ := and_iff_right hrealtime
  unfold appendEncoded
  rw [if_pos hrealtime, realtimeOffset_eq]
  by_cases hfull : storage.Exhausted policy encoded.length
  · rw [if_pos (hexhausted.mp hfull)]
    refine ⟨⟨_, _, rfl⟩, ?_, fun hkeep ↦ hkeep.advance hbehind, .inl ⟨hfull, _, rfl⟩⟩
    rw [Roomy, if_pos hrealtime]
    exact ⟨h.filled, h.covered⟩
  · rw [if_neg (hexhausted.not.mp hfull)]
    have hfits := hexhausted.not.mp hfull
    by_cases hemp : encoded = []
    · subst hemp
      refine ⟨⟨_, _, rfl⟩, ?_, fun hkeep ↦ hkeep.advance hbehind, .inr ⟨hfull, rfl, keeps_nil⟩⟩
      rw [Roomy, if_pos hrealtime]
      exact ⟨h.filled, h.covered⟩
    · have hpos := length_pos_iff.mpr hemp
      obtain ⟨hroomy, hstored, hkeeps⟩ := h.write hbehind hroom (by omega)
      rw [if_neg (by omega)]
      refine ⟨⟨_, _, rfl⟩, ?_, fun hkeep ↦ ⟨hkeeps hkeep, fun hne ↦ ?_⟩,
        .inr ⟨hfull, rfl, hstored, fun _ ↦ le_rfl⟩⟩
      · rw [Roomy, if_pos hrealtime]
        exact ⟨hroomy.filled, hroomy.covered⟩
      · exact (hkeep.2 hne).trans (hbehind.trans (le_add_right _ _))

theorem appendEncoded_lengthened (h : Roomy policy storage)
    (hsize : encoded.length ≤ policy.chunkBytes) :
    Lengthened policy storage encoded (storage.appendEncoded policy encoded) := by
  cases hrealtime : storage.realtimeReserved with
  | true =>
    rw [Roomy, if_pos hrealtime] at h
    exact appendEncoded_realtime h hrealtime hsize
  | false =>
    rw [Roomy, hrealtime, if_neg Bool.false_ne_true] at h
    obtain ⟨hoff, happ⟩ := append_appended h hsize
    unfold appendEncoded
    rw [if_neg (by simp [hrealtime])]
    refine ⟨⟨_, _, rfl⟩, ?_, happ.keeps,
      .inr ⟨by simp [Exhausted, hrealtime], congrArg Except.ok hoff, happ.stored⟩⟩
    rw [Roomy, if_neg (by simp [hrealtime])]
    exact happ.sound

theorem Addressable.mod_eq {position : ℕ} (h : Addressable position data) {arena : Arena}
    (hkeep : arena.Keeps policy position data) : arena.Keeps policy (position % 2 ^ 32) data := by
  by_cases hne : data = []
  · subst hne
    exact keeps_nil
  · rwa [mod_eq_of_lt (h.2 hne)]

theorem Held.moved {arena after : Arena} {offset length : Option ℕ} {value : Option ByteString}
    (h : Held policy arena offset length value)
    (hkeeps : ∀ {position data}, arena.Keeps policy position data →
      after.Keeps policy position data) : Held policy after offset length value := by
  cases value with
  | none => exact h
  | some data =>
    obtain ⟨entry, hent, hne, hlen, hshort, hkeep⟩ := h
    exact ⟨entry, hent, hne, hlen, hshort, hkeeps hkeep⟩

section

variable (h : Represents policy storage ledger)
include h

/-- A value that is not too long is in the arena afterwards, unless the arena is exhausted, and the
other values stay. -/
theorem Represents.append (hchunk : 2 ^ 16 ≤ policy.chunkBytes)
    (hshort : encoded.length ≤ maxEncodedBytes)
    (hfits : Addressable (place policy.chunkBytes storage.arena.nextOffset encoded.length)
      encoded) :
    ∃ returned arena usedBytes, storage.appendEncoded policy encoded
        = (returned, { storage with arena := arena, usedBytes := usedBytes }) ∧
      Represents policy { storage with arena := arena, usedBytes := usedBytes } ledger ∧
      ((storage.Exhausted policy encoded.length ∧ ∃ message, returned = .error message) ∨
        ¬storage.Exhausted policy encoded.length ∧ ∃ entry, returned = .ok entry ∧
          entry ≠ freeOffset ∧ arena.Keeps policy entry encoded) := by
  unfold maxEncodedBytes at hshort
  have happend := appendEncoded_lengthened h.roomy
    (show encoded.length ≤ policy.chunkBytes by omega)
  rcases houtcome : storage.appendEncoded policy encoded with ⟨returned, after⟩
  rw [houtcome] at happend
  obtain ⟨arena, usedBytes, rfl⟩ := happend.others
  refine ⟨returned, arena, usedBytes, rfl, ⟨happend.roomy, h.lengths, h.ids,
    fun id ↦ (h.held id).moved happend.keeps, h.free, h.nodup⟩, happend.returns.imp_right ?_⟩
  intro hdone
  exact ⟨hdone.1, _, hdone.2.1, hfits.1, hfits.mod_eq hdone.2.2⟩

/-! ## The calls -/

/-- The tables change at one id. -/
theorem Represents.change {value : Option ByteString} {offsets lengths freeIds : List ℕ}
    {deadBytes liveCount : ℕ} (hlens : lengths.length = offsets.length)
    (hids : offsets.length ≤ emptyId)
    (hoths : ∀ other ≠ id, offsets[other]? = storage.offsets[other]? ∧ lengths[other]? =
      storage.lengths[other]?) (hheld : Held policy storage.arena offsets[id]? lengths[id]? value)
    (hfree : ∀ other ∈ freeIds, (other = id ∧ value = none ∨ other ≠ id ∧ ledger other = none) ∧
      other < offsets.length) (hnd : freeIds.Nodup) :
    Represents policy
      { storage with
        offsets := offsets
        lengths := lengths
        freeIds := freeIds
        deadBytes := deadBytes
        liveCount := liveCount } (update ledger id value) := by
  refine ⟨h.roomy, hlens, hids, fun other ↦ ?_, fun other hoth ↦ ?_, hnd⟩
  · by_cases hsame : other = id
    · subst hsame
      rwa [update_self]
    · rw [update_of_ne hsame, (hoths other hsame).1, (hoths other hsame).2]
      exact h.held other
  · obtain ⟨⟨rfl, hval⟩ | ⟨hsame, hnone⟩, hlt⟩ := hfree other hoth
    · rw [update_self]
      exact ⟨hval, hlt⟩
    · rw [update_of_ne hsame]
      exact ⟨hnone, hlt⟩

/-- The value of an id is replaced, or a free id gets one. -/
theorem Represents.put {entry liveCount deadBytes : ℕ} {freeIds : List ℕ}
    (hid : id < storage.offsets.length) (hne : entry ≠ freeOffset)
    (hshort : encoded.length ≤ maxEncodedBytes) (hkeep : storage.arena.Keeps policy entry encoded)
    (hfree : ∀ other ∈ freeIds, other ∈ storage.freeIds ∧ other ≠ id) (hnd : freeIds.Nodup) :
    Represents policy
      { storage with
        offsets := storage.offsets.set id entry
        lengths := storage.lengths.set id (encoded.length % 2 ^ 16)
        freeIds := freeIds
        deadBytes := deadBytes
        liveCount := liveCount } (update ledger id (some encoded)) := by
  have hlen : encoded.length % 2 ^ 16 = encoded.length :=
    mod_eq_of_lt (by unfold maxEncodedBytes at hshort; omega)
  refine h.change (by simpa using h.lengths) (by simpa using h.ids) (fun other hoth ↦ ?_) ?_
    (fun other hoth ↦ ?_) hnd
  · exact ⟨getElem?_set_ne (Ne.symm hoth), getElem?_set_ne (Ne.symm hoth)⟩
  · refine ⟨entry, getElem?_set_self hid, hne, ?_, hshort, hkeep⟩
    rw [hlen]
    exact getElem?_set_self (h.lengths ▸ hid)
  · obtain ⟨hmem, hsame⟩ := hfree other hoth
    exact ⟨.inr ⟨hsame, (h.free other hmem).1⟩, by simpa using (h.free other hmem).2⟩

/-- A new id gets a value. -/
theorem Represents.extend {entry liveCount : ℕ} (hids : storage.offsets.length < emptyId)
    (hne : entry ≠ freeOffset) (hshort : encoded.length ≤ maxEncodedBytes)
    (hkeep : storage.arena.Keeps policy entry encoded) :
    ledger storage.offsets.length = none ∧
    Represents policy
      { storage with
        offsets := storage.offsets ++ [entry]
        lengths := storage.lengths ++ [encoded.length % 2 ^ 16]
        liveCount := liveCount }
      (update ledger storage.offsets.length (some encoded)) := by
  have hlen : encoded.length % 2 ^ 16 = encoded.length :=
    mod_eq_of_lt (by unfold maxEncodedBytes at hshort; omega)
  have hlens := h.lengths
  have hnew : ledger storage.offsets.length = none := by
    cases hledger : ledger storage.offsets.length with
    | none => rfl
    | some data => exact absurd (h.lt_size hledger) (lt_irrefl _)
  refine ⟨hnew, h.change (by simp [hlens]) (by simpa using succ_le_of_lt hids)
    (fun other hoth ↦ ?_) ?_ (fun other hoth ↦ ?_) h.nodup⟩
  · rw [getElem?_append, getElem?_append, hlens]
    split
    · exact ⟨rfl, rfl⟩
    · have hbeyond : 1 ≤ other - storage.offsets.length := by omega
      rw [getElem?_eq_none (by omega : storage.offsets.length ≤ other),
        getElem?_eq_none (by omega : storage.lengths.length ≤ other)]
      exact ⟨getElem?_eq_none hbeyond, getElem?_eq_none hbeyond⟩
  · refine ⟨entry, getElem?_concat_length, hne, ?_, hshort, hkeep⟩
    rw [hlen, ← hlens]
    exact getElem?_concat_length
  · have hold := h.free other hoth
    exact ⟨.inr ⟨by omega, hold.1⟩, by simpa using lt_succ_of_lt hold.2⟩

theorem Represents.orphan (hper : id = emptyId ∨ (ledger id).isSome) :
    Represents policy (storage.orphan id) (update ledger id none) := by
  unfold ArrayStorage.orphan
  have hids := h.ids
  split
  · rw [update_eq_self_iff.mpr]
    · exact h
    · cases hledger : ledger id with
      | none => rfl
      | some data => exact absurd (h.lt_size hledger) (by omega)
  · rename_i hne
    obtain ⟨data, hdata⟩ := isSome_iff_exists.mp (hper.resolve_left hne)
    have hid := h.lt_size hdata
    have hlive : id ∉ storage.freeIds := by
      intro hmem
      rw [(h.free id hmem).1] at hdata
      cases hdata
    refine h.change (by simpa using h.lengths) (by simpa using h.ids) (fun other hoth ↦ ?_) ?_
      (fun other hoth ↦ ?_) (nodup_cons.mpr ⟨hlive, h.nodup⟩)
    · exact ⟨getElem?_set_ne (Ne.symm hoth), getElem?_set_ne (Ne.symm hoth)⟩
    · intro entry hent
      exact (some.inj ((getElem?_set_self hid).symm.trans hent)).symm
    · rcases mem_cons.mp hoth with rfl | hmem
      · exact ⟨.inl ⟨rfl, rfl⟩, by simpa using hid⟩
      · have hsame : other ≠ id := fun heq ↦ hlive (heq ▸ hmem)
        exact ⟨.inr ⟨hsame, (h.free other hmem).1⟩, by simpa using (h.free other hmem).2⟩

theorem Represents.compact (hchunk : 2 ^ 16 ≤ policy.chunkBytes) {allowed : Bool}
    (hfits : (Call.compact allowed).Fits policy storage) :
    Represents policy (storage.compact policy allowed) ledger := by
  unfold ArrayStorage.compact
  split
  · exact h
  rename_i hgo
  simp only [Bool.or_eq_true, Bool.not_eq_true', decide_eq_true_eq, not_or, Bool.not_eq_false,
    Bool.not_eq_true] at hgo
  have hplaced := hfits hgo.1.1 hgo.1.2
  rw [h.values_eq] at hplaced ⊢
  have hsize : ∀ data, some data ∈ (List.range storage.offsets.length).map ledger →
      data.length ≤ policy.chunkBytes := by
    intro data hdata
    obtain ⟨id, -, hid⟩ := mem_map.mp hdata
    obtain ⟨-, -, -, -, hshort, -⟩ := h.live hid
    unfold maxEncodedBytes at hshort
    omega
  obtain ⟨hsound, hruns, -⟩ := repack_readdressed sound_empty hsize hplaced
  obtain ⟨hshrunk, hkeeps⟩ := shrinkTail_keeps hsound
  generalize repack policy freeOffset {} ((List.range storage.offsets.length).map ledger)
    = fresh at hruns hshrunk hkeeps
  have hcnt := hruns.length_eq
  rw [length_map, length_range] at hcnt
  refine ⟨?_, h.lengths.trans hcnt, hcnt ▸ h.ids, fun id ↦ ?_,
    fun id hid ↦ ⟨(h.free id hid).1, hcnt ▸ (h.free id hid).2⟩, h.nodup⟩
  · rw [Roomy, if_neg (by simp [hgo.2])]
    exact hshrunk
  by_cases hlt : id < storage.offsets.length
  · have hrun := (forall₂_iff_get.mp hruns).2 id (by simpa using hlt) (hcnt ▸ hlt)
    simp only [get_eq_getElem, getElem_map, getElem_range] at hrun
    have hent : fresh.1[id]? = some fresh.1[id] := getElem?_eq_getElem (hcnt ▸ hlt)
    cases hledger : ledger id with
    | none =>
      rw [hledger] at hrun
      intro entry hsome
      exact (some.inj (hent.symm.trans hsome)) ▸ hrun
    | some data =>
      rw [hledger] at hrun
      obtain ⟨position, haddr, hpos, hkeep⟩ := hrun
      obtain ⟨-, -, -, hlen, hshort, -⟩ := h.live hledger
      refine ⟨_, hent, hpos ▸ haddr.1, hlen, hshort, ?_⟩
      rw [hpos]
      exact haddr.mod_eq (hkeeps hkeep)
  · have hnone : ledger id = none := by
      cases hledger : ledger id with
      | none => rfl
      | some data => exact absurd (h.lt_size hledger) hlt
    rw [hnone]
    intro entry hent
    exact absurd (List.getElem?_eq_some_iff.mp hent).1 (hcnt ▸ hlt)

theorem push_represents (hchunk : 2 ^ 16 ≤ policy.chunkBytes)
    (hfits : (Call.push encoded).Fits policy storage) :
    Represents policy (step policy storage (.push encoded)).2
        ((Call.push encoded).result ledger (step policy storage (.push encoded)).1) ∧
      (Call.push encoded).Answered policy storage ledger
        (step policy storage (.push encoded)).1 := by
  unfold step pushEncoded
  dsimp only
  by_cases hlong : maxEncodedBytes < encoded.length
  · rw [if_pos hlong]
    exact ⟨h, .inl ⟨.inl hlong, _, rfl⟩⟩
  rw [if_neg hlong]
  by_cases hcap : storage.realtimeReserved = true ∧ storage.freeIds = [] ∧
    storage.reservedValueCapacity ≤ storage.offsets.length
  · rw [if_pos hcap]
    exact ⟨h, .inl ⟨.inr (.inr ⟨hcap.2.1, .inr ⟨hcap.1, hcap.2.2⟩⟩), _, rfl⟩⟩
  have hshort := Nat.le_of_not_lt hlong
  obtain ⟨returned, arena, usedBytes, happend, hmoved, hreturned⟩ := h.append hchunk hshort hfits
  rw [if_neg hcap, happend]
  rcases hreturned with ⟨hexhausted, message, rfl⟩ | ⟨hexhausted, entry, rfl, hne, hkeep⟩
  · exact ⟨hmoved, .inl ⟨.inr (.inl hexhausted), message, rfl⟩⟩
  cases hfree : storage.freeIds with
  | cons id freeIds =>
    have hid := h.free id (by rw [hfree]; exact mem_cons_self ..)
    have hnd := h.nodup
    rw [hfree] at hnd
    refine ⟨hmoved.put hid.2 hne hshort hkeep (fun other hoth ↦ ⟨?_, ?_⟩)
      (nodup_cons.mp hnd).2, .inr ⟨?_, id, rfl, hid.1⟩⟩
    · exact hfree ▸ mem_cons_of_mem _ hoth
    · rintro rfl
      exact (nodup_cons.mp hnd).1 hoth
    · simp [Call.Refuses, hlong, hexhausted, hfree]
  | nil =>
    dsimp only
    by_cases hids : emptyId ≤ storage.offsets.length
    · rw [if_pos hids]
      exact ⟨hfree ▸ hmoved, .inl ⟨.inr (.inr ⟨hfree, .inl hids⟩), _, rfl⟩⟩
    rw [if_neg hids]
    obtain ⟨hnew, hextended⟩ := hmoved.extend (Nat.lt_of_not_le hids) hne hshort hkeep
    refine ⟨hfree ▸ hextended, .inr ⟨?_, _, rfl, hnew⟩⟩
    rintro (hrefuses | hrefuses | ⟨-, hrefuses | hrefuses⟩)
    · exact hlong hrefuses
    · exact hexhausted hrefuses
    · exact hids hrefuses
    · exact hcap ⟨hrefuses.1, hfree, hrefuses.2⟩

theorem replace_represents (hchunk : 2 ^ 16 ≤ policy.chunkBytes)
    (hper : (Call.replace id encoded).Permitted ledger)
    (hfits : (Call.replace id encoded).Fits policy storage) :
    Represents policy (step policy storage (.replace id encoded)).2
        ((Call.replace id encoded).result ledger (step policy storage (.replace id encoded)).1) ∧
      (Call.replace id encoded).Answered policy storage ledger
        (step policy storage (.replace id encoded)).1 := by
  obtain ⟨data, hdata⟩ := isSome_iff_exists.mp hper
  unfold step replaceEncoded
  dsimp only
  by_cases hlong : maxEncodedBytes < encoded.length
  · rw [if_pos hlong]
    exact ⟨h, .inl ⟨.inl hlong, _, rfl⟩⟩
  have hshort := Nat.le_of_not_lt hlong
  obtain ⟨returned, arena, usedBytes, happend, hmoved, hreturned⟩ := h.append hchunk hshort hfits
  rw [if_neg hlong, happend]
  rcases hreturned with ⟨hexhausted, message, rfl⟩ | ⟨hexhausted, entry, rfl, hne, hkeep⟩
  · exact ⟨hmoved, .inl ⟨.inr hexhausted, message, rfl⟩⟩
  refine ⟨hmoved.put (h.lt_size hdata) hne hshort hkeep (fun other hoth ↦ ⟨hoth, ?_⟩)
    h.nodup, .inr ⟨not_or.mpr ⟨hlong, hexhausted⟩, rfl⟩⟩
  rintro rfl
  rw [(h.free other hoth).1] at hdata
  cases hdata

theorem reserveRealtime_represents {valueCapacity arenaBytes : ℕ} :
    Represents policy (step policy storage (.reserveRealtime valueCapacity arenaBytes)).2 ledger ∧
      (Call.reserveRealtime valueCapacity arenaBytes).Answered policy storage ledger
        (step policy storage (.reserveRealtime valueCapacity arenaBytes)).1 := by
  unfold step reserveRealtime
  dsimp only
  by_cases hused : (storage.realtimeReserved || decide (storage.offsets ≠ []) ||
    decide (storage.usedBytes ≠ 0) || decide (storage.liveCount ≠ 0)) = true
  · rw [if_pos hused]
    exact ⟨h, .inl ⟨.inl hused, _, rfl⟩⟩
  by_cases hvals : valueCapacity = 0 ∨ emptyId ≤ valueCapacity
  · rw [if_neg hused, if_pos hvals]
    exact ⟨h, .inl ⟨.inr (.inl hvals), _, rfl⟩⟩
  by_cases hbytes : arenaBytes = 0 ∨ 2 ^ 32 - 1 < arenaBytes
  · rw [if_neg hused, if_neg hvals, if_pos hbytes]
    exact ⟨h, .inl ⟨.inr (.inr hbytes), _, rfl⟩⟩
  rw [if_neg hused, if_neg hvals, if_neg hbytes]
  have hemp : storage.offsets = [] := by
    simp only [Bool.or_eq_true, decide_eq_true_eq, not_or, not_not] at hused
    exact hused.1.1.2
  have hnone : ledger = fun _ ↦ none := by
    funext id
    cases hledger : ledger id with
    | none => rfl
    | some data => exact absurd (h.lt_size hledger) (by simp [hemp])
  subst hnone
  refine ⟨⟨?_, rfl, zero_le _, fun _ _ hent ↦ absurd hent (by simp),
    fun _ hid ↦ absurd hid (by simp), nodup_nil⟩,
    .inr ⟨not_or.mpr ⟨hused, not_or.mpr ⟨hvals, hbytes⟩⟩, rfl⟩⟩
  refine ⟨fun block hblk ↦ ?_, ?_⟩
  · rw [eq_of_mem_replicate hblk, length_replicate]
  have hsplit := div_add_mod (arenaBytes + policy.chunkBytes - 1) policy.chunkBytes
  have hmod := mod_lt (arenaBytes + policy.chunkBytes - 1) policy.chunkBytes_pos
  rw [length_replicate, mul_comm]
  show arenaBytes ≤ _
  omega

theorem step_represents (hchunk : 2 ^ 16 ≤ policy.chunkBytes) {call : Call}
    (hper : call.Permitted ledger) (hfits : call.Fits policy storage) :
    Represents policy (step policy storage call).2
        (call.result ledger (step policy storage call).1) ∧
      call.Answered policy storage ledger (step policy storage call).1 := by
  cases call with
  | push encoded => exact push_represents h hchunk hfits
  | replace id encoded => exact replace_represents h hchunk hper hfits
  | orphan id => exact ⟨h.orphan hper, .inr ⟨not_false, rfl⟩⟩
  | compact allowed => exact ⟨h.compact hchunk hfits, .inr ⟨not_false, rfl⟩⟩
  | reserveRealtime valueCapacity arenaBytes =>
    obtain ⟨hrep, hanswered⟩ := reserveRealtime_represents h
    refine ⟨?_, hanswered⟩
    unfold Call.result
    split
    · exact hrep
    · exact hrep

end

/-- The states of a storage, each with the bytes last stored under its live ids, that calls which
store nothing beyond 32 bits lead to. -/
inductive Reachable (policy : Policy) : ArrayStorage → Ledger → Prop where
  | new : Reachable policy {} fun _ ↦ none
  | call {storage : ArrayStorage} {ledger : Ledger} (call : Call) :
    Reachable policy storage ledger → call.Permitted ledger → call.Fits policy storage →
      Reachable policy (step policy storage call).2
        (call.result ledger (step policy storage call).1)

theorem Reachable.represents (h : Reachable policy storage ledger)
    (hchunk : 2 ^ 16 ≤ policy.chunkBytes) : Represents policy storage ledger := by
  induction h with
  | new => exact represents_empty
  | call call _ hper hfits ih => exact (step_represents ih hchunk hper hfits).1

/-- The ids that are live are those with bytes stored under them, and each reads back its own. -/
def ReadsBack (policy : Policy) (storage : ArrayStorage) (ledger : Ledger) : Prop :=
  (∀ id, storage.isLive id = (ledger id).isSome) ∧
    ∀ id data, ledger id = some data → storage.view policy id = data

theorem Represents.readsBack (h : Represents policy storage ledger) :
    ReadsBack policy storage ledger :=
  ⟨h.isLive_eq, fun _ _ ↦ h.view_eq⟩

/-- From every state reached, a call does what it should. -/
theorem Reachable.reads_back (h : Reachable policy storage ledger)
    (hchunk : 2 ^ 16 ≤ policy.chunkBytes) :
    ReadsBack policy storage ledger ∧
      ∀ call : Call, call.Permitted ledger → call.Fits policy storage →
        call.Answered policy storage ledger (step policy storage call).1 ∧
          ReadsBack policy (step policy storage call).2
            (call.result ledger (step policy storage call).1) := by
  have hrep := h.represents hchunk
  refine ⟨hrep.readsBack, fun call hper hfits ↦ ?_⟩
  obtain ⟨haft, hanswer⟩ := step_represents hrep hchunk hper hfits
  exact ⟨hanswer, haft.readsBack⟩

end

/-- For both storages and every chunk size, page size and growth: as long as no call stores beyond
the positions that 32 bits can tell apart, every call either throws and leaves all values as they
were or succeeds, and every live id reads back exactly the bytes last stored under it. -/
theorem storages_read_back (chunkBytes pageShift : ℕ) (grown : ℕ → ℕ) :
    (∀ storage members,
      SetStorage.Reachable (configured chunkBytes pageShift grown) storage members →
        SetStorage.ReadsBack (configured chunkBytes pageShift grown) storage members ∧
        ∀ call : SetStorage.Call, call.Permitted members →
          call.Fits (configured chunkBytes pageShift grown) storage →
            call.Answered members
                (SetStorage.step (SetStorage.configured chunkBytes pageShift grown) storage
                  call).1 ∧
              SetStorage.ReadsBack (configured chunkBytes pageShift grown)
                (SetStorage.step (SetStorage.configured chunkBytes pageShift grown) storage call).2
                (call.result members)) ∧
    ∀ storage ledger,
      Reachable (configured chunkBytes pageShift grown) storage ledger →
        ReadsBack (configured chunkBytes pageShift grown) storage ledger ∧
        ∀ call : Call, call.Permitted ledger →
          call.Fits (configured chunkBytes pageShift grown) storage →
            call.Answered (configured chunkBytes pageShift grown) storage ledger
                (step (configured chunkBytes pageShift grown) storage call).1 ∧
              ReadsBack (configured chunkBytes pageShift grown)
                (step (configured chunkBytes pageShift grown) storage call).2
                (call.result ledger
                  (step (configured chunkBytes pageShift grown) storage call).1) := by
  have hchunk := le_configured chunkBytes pageShift grown
  exact ⟨fun _ _ h ↦ h.reads_back hchunk, fun _ _ h ↦ h.reads_back hchunk⟩

/-! ## A run of each storage -/

/-- Make calls one after another. -/
def run (policy : Policy) (storage : ArrayStorage) (calls : List Call) : ArrayStorage :=
  calls.foldl (fun storage call ↦ (step policy storage call).2) storage

/-- The policy of storages with the least chunks. -/
def leastPolicy : Policy := configured (2 ^ 16) 12 id

/-- Two members, the first erased the way a set does it, a third, and a compaction. -/
def memberCalls : List SetStorage.Call :=
  [.pushBack [1, 2, 3], .pushBack [4, 5], .orphan 0, .copyRef 0 1, .popBack, .pushBack [6],
    .compact true]

/-- Two values, the first replaced, the second orphaned, its id given out again, and a
compaction. -/
def valueCalls : List Call :=
  [.push [1], .push [2, 3], .replace 0 [4, 5, 6], .orphan 1, .push [7], .compact true]

theorem memberCalls_reachable :
    SetStorage.Reachable leastPolicy (SetStorage.run leastPolicy {} memberCalls) [[4, 5], [6]] := by
  have hpushed : SetStorage.Reachable leastPolicy
      (SetStorage.run leastPolicy {} (memberCalls.take 2)) [[1, 2, 3], [4, 5]] :=
    .call (.pushBack [4, 5]) (.call (.pushBack [1, 2, 3]) .new trivial fun _ ↦ by decide +kernel)
      trivial fun _ ↦ by decide +kernel
  have hnonempty : ([[4, 5], [4, 5]] : List ByteString) ≠ [] := by decide
  have herased : SetStorage.Reachable leastPolicy
      (SetStorage.run leastPolicy {} (memberCalls.take 5)) [[4, 5]] :=
    .call .popBack (.call (.copyRef 0 1) (.call (.orphan 0) hpushed (by decide : 0 < 2) trivial)
      (by decide : 0 < 2 ∧ 1 < 2) trivial) hnonempty trivial
  have hplaced : Placed SetStorage.Addressable leastPolicy.chunkBytes 0
      (((SetStorage.run leastPolicy {} (memberCalls.take 6)).members leastPolicy).map some) := by
    have hmembers : (SetStorage.run leastPolicy {} (memberCalls.take 6)).members leastPolicy =
        [[4, 5], [6]] := by decide +kernel
    rw [hmembers]
    exact ⟨fun _ ↦ by decide, fun _ ↦ by decide, trivial⟩
  exact .call (.compact true) (.call (.pushBack [6]) herased trivial fun _ ↦ by decide +kernel)
    trivial fun _ _ ↦ hplaced

theorem valueCalls_reachable :
    Reachable leastPolicy (run leastPolicy {} valueCalls) fun id ↦ [[4, 5, 6], [7]][id]? := by
  have hpushed : Reachable leastPolicy (run leastPolicy {} (valueCalls.take 2))
      (update (update (fun _ ↦ none) 0 (some [1])) 1 (some [2, 3])) :=
    .call (.push [2, 3]) (.call (.push [1]) .new trivial ⟨by decide, fun _ ↦ by decide⟩) trivial
      ⟨by decide +kernel, fun _ ↦ by decide +kernel⟩
  have hreplaced : Reachable leastPolicy (run leastPolicy {} (valueCalls.take 3)) _ :=
    .call (.replace 0 [4, 5, 6]) hpushed rfl ⟨by decide +kernel, fun _ ↦ by decide +kernel⟩
  have horphaned : Reachable leastPolicy (run leastPolicy {} (valueCalls.take 4)) _ :=
    .call (.orphan 1) hreplaced (.inr rfl) trivial
  have hgiven : Reachable leastPolicy (run leastPolicy {} (valueCalls.take 5)) _ :=
    .call (.push [7]) horphaned trivial ⟨by decide +kernel, fun _ ↦ by decide +kernel⟩
  have hplaced : Placed Addressable leastPolicy.chunkBytes 0
      ((run leastPolicy {} (valueCalls.take 5)).values leastPolicy) := by
    have hvalues : (run leastPolicy {} (valueCalls.take 5)).values leastPolicy =
        [some [4, 5, 6], some [7]] := by decide +kernel
    rw [hvalues]
    exact ⟨⟨by decide, fun _ ↦ by decide⟩, ⟨by decide, fun _ ↦ by decide⟩, trivial⟩
  have hcompacted : Reachable leastPolicy (run leastPolicy {} valueCalls) _ :=
    .call (.compact true) hgiven trivial fun _ _ ↦ hplaced
  convert hcompacted using 1
  funext id
  rcases id with _ | _ | id
  · rfl
  · rfl
  · rfl

theorem storages_read_back_runs :
    SetStorage.ReadsBack leastPolicy (SetStorage.run leastPolicy {} memberCalls) [[4, 5], [6]] ∧
      ReadsBack leastPolicy (run leastPolicy {} valueCalls) fun id ↦ [[4, 5, 6], [7]][id]? := by
  have hboth := storages_read_back (2 ^ 16) 12 id
  exact ⟨(hboth.1 _ _ memberCalls_reachable).1, (hboth.2 _ _ valueCalls_reachable).1⟩

end ArrayStorage

end GoblinCore
