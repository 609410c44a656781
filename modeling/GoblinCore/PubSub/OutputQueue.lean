import GoblinCore.Foundation.Framing
import GoblinCore.Foundation.Splice
import GoblinCore.Store.Keyspace

/-!
# The queue of unsolicited output

Messages that a session did not ask for wait in a mapping of a fixed size, as records of a length,
a sequence number and the bytes.  A record is never cut by the end of the mapping: when it does not
fit there, the bytes that are left are skipped, with a mark if a length fits them, and it is written
at the start.

Lengths and sequence numbers are stored lowest byte first; nothing depends on that.
-/

namespace GoblinCore.PubSub

open List

/-- A message, with a length that a mark cannot be taken for. -/
structure Record where
  sequence : UInt64
  bytes : Bytes
  length_lt : bytes.length < 2 ^ 32 - 1

structure UnsolicitedOutputQueue where
  data : Bytes
  readOffset : ℕ := 0
  writeOffset : ℕ := 0
  usedBytes : ℕ := 0
  payloadBytes : ℕ := 0

namespace UnsolicitedOutputQueue

def wrapRecord : ℕ := 0xFFFFFFFF

def recordHeaderBytes : ℕ := 12

variable (queue : UnsolicitedOutputQueue)

def capacity : ℕ := queue.data.length

/-- Bytes are copied into the mapping. -/
def copyTo (offset : ℕ) (bytes : Bytes) : UnsolicitedOutputQueue :=
  { queue with data := splice queue.data offset bytes.length bytes }

/-- A word of so many bytes is read from the mapping. -/
def wordAt (offset width : ℕ) : ℕ := ofBytes (slice queue.data offset width)

/-- The end of `push`: the record is written where the queue ends. -/
def store (sequence : UInt64) (bytes : Bytes) : UnsolicitedOutputQueue :=
  let recordBytes := recordHeaderBytes + bytes.length
  let written := ((queue.copyTo queue.writeOffset (toBytes 4 bytes.length)).copyTo
    (queue.writeOffset + 4) (toBytes 8 sequence.toNat)).copyTo
      (queue.writeOffset + recordHeaderBytes) bytes
  { written with
    writeOffset :=
      if queue.writeOffset + recordBytes = queue.capacity then 0
      else queue.writeOffset + recordBytes
    usedBytes := queue.usedBytes + recordBytes
    payloadBytes := queue.payloadBytes + bytes.length }

/-- The bytes left at the end are skipped. -/
def skipTail : UnsolicitedOutputQueue :=
  let tailBytes := queue.capacity - queue.writeOffset
  { queue with
    data :=
      if 4 ≤ tailBytes then (queue.copyTo queue.writeOffset (toBytes 4 wrapRecord)).data
      else queue.data
    usedBytes := queue.usedBytes + tailBytes
    writeOffset := 0 }

/-- The middle of `push`: the place for a record that there is room for. -/
def place (sequence : UInt64) (bytes : Bytes) : Bool × UnsolicitedOutputQueue :=
  let recordBytes := recordHeaderBytes + bytes.length
  if queue.readOffset ≤ queue.writeOffset then
    let tailBytes := queue.capacity - queue.writeOffset
    if tailBytes < recordBytes then
      if queue.capacity - queue.usedBytes < tailBytes + recordBytes ∨
          queue.readOffset < recordBytes then (false, queue)
      else (true, queue.skipTail.store sequence bytes)
    else (true, queue.store sequence bytes)
  else if queue.readOffset - queue.writeOffset < recordBytes then (false, queue)
  else (true, queue.store sequence bytes)

def push (sequence : UInt64) (bytes : Bytes) : Bool × UnsolicitedOutputQueue :=
  let recordBytes := recordHeaderBytes + bytes.length
  if 2 ^ 32 - 1 < bytes.length then (false, queue)
  else if queue.capacity < recordBytes ∨ queue.capacity - queue.usedBytes < recordBytes then
    (false, queue)
  else if queue.usedBytes = 0 then
    { queue with readOffset := 0, writeOffset := 0 }.place sequence bytes
  else queue.place sequence bytes

/-- The loop of `normalize_head`, where it ends within so many rounds. -/
def normalizeLoop : ℕ → UnsolicitedOutputQueue → Option UnsolicitedOutputQueue
  | 0, _ => none
  | fuel + 1, queue =>
    let tailBytes := queue.capacity - queue.readOffset
    if queue.usedBytes = 0 then some queue
    else if 4 ≤ tailBytes ∧ queue.wordAt queue.readOffset 4 ≠ wrapRecord then some queue
    else normalizeLoop fuel
      { queue with usedBytes := queue.usedBytes - tailBytes, readOffset := 0 }

/-- `normalize_head`; two rounds are enough. -/
def normalizeHead : Option UnsolicitedOutputQueue := normalizeLoop 2 queue

/-- The queue with its head in place, and the record there. -/
def front : Option (UnsolicitedOutputQueue × Option (UInt64 × Bytes)) := do
  let queue ← queue.normalizeHead
  if queue.usedBytes = 0 then pure (queue, none)
  else
    let length := queue.wordAt queue.readOffset 4
    let sequence := UInt64.ofNat (queue.wordAt (queue.readOffset + 4) 8)
    pure (queue, some (sequence, slice queue.data (queue.readOffset + recordHeaderBytes) length))

def popFront (payloadLen : ℕ) : UnsolicitedOutputQueue :=
  let recordBytes := recordHeaderBytes + payloadLen
  let readOffset :=
    if queue.readOffset + recordBytes = queue.capacity then 0 else queue.readOffset + recordBytes
  let usedBytes := queue.usedBytes - recordBytes
  { queue with
    readOffset := if usedBytes = 0 then 0 else readOffset
    writeOffset := if usedBytes = 0 then 0 else queue.writeOffset
    usedBytes
    payloadBytes := queue.payloadBytes - payloadLen }

def pop : Option UnsolicitedOutputQueue := do
  let queue ← queue.normalizeHead
  if queue.usedBytes = 0 then pure queue
  else pure (queue.popFront (queue.wordAt queue.readOffset 4))

def clear : UnsolicitedOutputQueue :=
  { queue with readOffset := 0, writeOffset := 0, usedBytes := 0, payloadBytes := 0 }

/-! ## Records in the mapping -/

/-- The bytes of a record. -/
def encoded (record : Record) : Bytes :=
  toBytes 4 record.bytes.length ++ toBytes 8 record.sequence.toNat ++ record.bytes

/-- Records one after another in the mapping. -/
def Laid (data : Bytes) : ℕ → List Record → ℕ → Prop
  | start, [], stop => start = stop
  | start, record :: rest, stop =>
    slice data start (encoded record).length = encoded record ∧
      Laid data (start + (encoded record).length) rest stop

variable {queue} {queue' : UnsolicitedOutputQueue} {data bytes : Bytes}
  {start middle stop offset : ℕ} {record : Record} {records front back : List Record}

@[simp] theorem length_encoded (record : Record) :
    (encoded record).length = recordHeaderBytes + record.bytes.length := by
  simp [encoded, recordHeaderBytes]
  omega

theorem Laid.le (h : Laid data start records stop) : start ≤ stop := by
  induction records generalizing start with
  | nil => exact h.le
  | cons record rest ih => exact (Nat.le_add_right _ _).trans (ih h.2)

theorem Laid.lt (h : Laid data start records stop) (hne : records ≠ []) : start < stop := by
  cases records with
  | nil => exact absurd rfl hne
  | cons record rest =>
    have hle := Laid.le h.2
    rw [length_encoded, recordHeaderBytes] at hle
    omega

theorem Laid.append (h : Laid data start front middle) (hback : Laid data middle back stop) :
    Laid data start (front ++ back) stop := by
  induction front generalizing start with
  | nil =>
    obtain rfl : start = middle := h
    exact hback
  | cons record rest ih => exact ⟨h.1, ih h.2⟩

/-- Bytes copied elsewhere. -/
theorem Laid.copied (h : Laid data start records stop) (hoffset : offset ≤ data.length)
    (helse : stop ≤ offset ∨ offset + bytes.length ≤ start) :
    Laid (splice data offset bytes.length bytes) start records stop := by
  induction records generalizing start with
  | nil => exact h
  | cons record rest ih =>
    have hle := Laid.le h.2
    refine ⟨Eq.trans ?_ h.1, ih h.2 (by omega)⟩
    rcases helse with hbefore | hafter
    · exact slice_overwritten_before hoffset (by omega)
    · exact slice_overwritten_after hoffset hafter

/-- A record is read as it was written. -/
theorem wordAt_head (h : slice queue.data offset (encoded record).length = encoded record) :
    queue.wordAt offset 4 = record.bytes.length ∧
      UInt64.ofNat (queue.wordAt (offset + 4) 8) = record.sequence ∧
      slice queue.data (offset + recordHeaderBytes) record.bytes.length = record.bytes := by
  have hlen := record.length_lt
  have hpart {position length : ℕ} (hin : position + length ≤ (encoded record).length) :
      slice queue.data (offset + position) length = slice (encoded record) position length := by
    rw [← h, slice_slice hin]
  rw [length_encoded, recordHeaderBytes] at hpart
  refine ⟨?_, ?_, ?_⟩
  · have hfirst := hpart (by omega : 0 + 4 ≤ _)
    rw [wordAt, ← Nat.add_zero offset, hfirst, encoded, slice, drop_zero, append_assoc,
      take_left' length_toBytes, ofBytes_toBytes (by omega)]
  · rw [wordAt, hpart (by omega : 4 + 8 ≤ _), encoded, slice, append_assoc,
      drop_left' length_toBytes, take_left' length_toBytes,
      ofBytes_toBytes record.sequence.toNat_lt, UInt64.ofNat_toNat]
  · rw [hpart (by rfl), encoded, slice, drop_left' (by simp [recordHeaderBytes]), take_length]

/-- What the queue holds: records one after another from its head, and others from the start of the
mapping on, where the rest behind the first ones is skipped. -/
inductive Holds (queue : UnsolicitedOutputQueue) : List Record → List Record → Prop
  | linear {records : List Record} {stop : ℕ}
      (laid : Laid queue.data queue.readOffset records stop) (stop_le : stop ≤ queue.capacity)
      (write : queue.writeOffset = if stop = queue.capacity then 0 else stop)
      (used : queue.readOffset + queue.usedBytes = stop) : Holds queue records []
  | wrapped {front back : List Record} {stop : ℕ}
      (laid : Laid queue.data queue.readOffset front stop) (stop_le : stop ≤ queue.capacity)
      (skip : queue.capacity < stop + 4 ∨ queue.wordAt stop 4 = wrapRecord)
      (read_lt : queue.readOffset < queue.capacity)
      (back_ne : back ≠ []) (start : Laid queue.data 0 back queue.writeOffset)
      (write_le : queue.writeOffset ≤ queue.readOffset)
      (used : queue.usedBytes = queue.capacity - queue.readOffset + queue.writeOffset) :
      Holds queue front back

theorem Holds.used_le (h : Holds queue front back) : queue.usedBytes ≤ queue.capacity := by
  cases h <;> omega

theorem Holds.used_eq_zero (h : Holds queue front back) :
    queue.usedBytes = 0 ↔ front ++ back = [] := by
  cases h with
  | linear laid stop_le write used =>
    rw [append_nil]
    constructor
    · intro hzero
      by_contra hne
      have hlt := laid.lt hne
      omega
    · rintro rfl
      have heq : queue.readOffset = _ := laid
      omega
  | wrapped laid stop_le skip read_lt back_ne start write_le used =>
    have hpos := start.lt back_ne
    exact iff_of_false (by omega) (by simp [back_ne])

/-! ## The calls -/

/-- A record that fits is written in one piece. -/
theorem store_data (h : queue.writeOffset + (encoded record).length ≤ queue.capacity) :
    (queue.store record.sequence record.bytes).data =
      splice queue.data queue.writeOffset (encoded record).length (encoded record) := by
  have hheader : (toBytes 4 record.bytes.length ++ toBytes 8 record.sequence.toNat).length
      = recordHeaderBytes := by simp [recordHeaderBytes]
  have hfour : (toBytes 4 record.bytes.length).length = 4 := length_toBytes
  rw [length_encoded, recordHeaderBytes, capacity] at h
  have hfirst := overwrite_append (toBytes 8 record.sequence.toNat)
    (show queue.writeOffset + (toBytes 4 record.bytes.length).length ≤ queue.data.length by omega)
  have hsecond := overwrite_append record.bytes
    (show queue.writeOffset + (toBytes 4 record.bytes.length ++
      toBytes 8 record.sequence.toNat).length ≤ queue.data.length by
        rw [hheader, recordHeaderBytes]
        omega)
  rw [← hfirst, hheader, hfour] at hsecond
  rw [encoded, ← hsecond]
  rfl

theorem capacity_store (h : queue.writeOffset + (encoded record).length ≤ queue.capacity) :
    (queue.store record.sequence record.bytes).capacity = queue.capacity := by
  rw [capacity, store_data h, length_splice h, capacity]
  exact Nat.sub_add_cancel ((Nat.le_add_left _ _).trans h)

theorem store_writeOffset : (queue.store record.sequence record.bytes).writeOffset =
    if queue.writeOffset + (encoded record).length = queue.capacity then 0
    else queue.writeOffset + (encoded record).length := by
  rw [length_encoded]
  rfl

theorem store_usedBytes : (queue.store record.sequence record.bytes).usedBytes =
    queue.usedBytes + (encoded record).length := by
  rw [length_encoded]
  rfl

theorem store_readOffset :
    (queue.store record.sequence record.bytes).readOffset = queue.readOffset := rfl

section

variable (hfits : queue.writeOffset + (encoded record).length ≤ queue.capacity)
include hfits

/-- What stands behind or before the record stays, and the record follows what ends at it. -/
theorem Laid.store (h : Laid queue.data start records stop)
    (helse : stop ≤ queue.writeOffset ∨ queue.writeOffset + (encoded record).length ≤ start) :
    Laid (queue.store record.sequence record.bytes).data start records stop := by
  rw [store_data hfits]
  exact h.copied ((Nat.le_add_right _ _).trans hfits) helse

theorem Laid.store_append (h : Laid queue.data start records queue.writeOffset) :
    Laid (queue.store record.sequence record.bytes).data start (records ++ [record])
      (queue.writeOffset + (encoded record).length) := by
  refine (h.store hfits (.inl le_rfl)).append ⟨?_, rfl⟩
  rw [store_data hfits]
  exact slice_overwritten ((Nat.le_add_right _ _).trans hfits)

/-- The record is written behind the others. -/
theorem holds_store (h : Laid queue.data queue.readOffset records queue.writeOffset)
    (hused : queue.readOffset + queue.usedBytes = queue.writeOffset) :
    Holds (queue.store record.sequence record.bytes) (records ++ [record]) [] := by
  refine .linear (h.store_append hfits) ?_ ?_ ?_
  · rwa [capacity_store hfits]
  · rw [capacity_store hfits, store_writeOffset]
  · rw [store_readOffset, store_usedBytes]
    omega

end

/-- The record is written between the start of the mapping and the head of the queue. -/
theorem holds_store_wrapped (h : Laid queue.data queue.readOffset front stop)
    (hstop : stop ≤ queue.capacity)
    (hskip : queue.capacity < stop + 4 ∨ queue.wordAt stop 4 = wrapRecord)
    (hread : queue.readOffset < queue.capacity) (hstart : Laid queue.data 0 back queue.writeOffset)
    (hfits : queue.writeOffset + (encoded record).length ≤ queue.readOffset)
    (hused : queue.usedBytes = queue.capacity - queue.readOffset + queue.writeOffset) :
    Holds (queue.store record.sequence record.bytes) front (back ++ [record]) := by
  have hroom := hfits.trans hread.le
  have hwrite : (queue.store record.sequence record.bytes).writeOffset =
      queue.writeOffset + (encoded record).length := by
    rw [store_writeOffset, if_neg (by omega)]
  have hend := hstart.store_append hroom
  rw [← hwrite] at hend
  refine .wrapped (h.store hroom (.inr hfits)) ?_ ?_ ?_ (by simp) hend ?_ ?_
  · rwa [capacity_store hroom]
  · refine hskip.imp (fun hfew ↦ by rwa [capacity_store hroom]) fun hmark ↦ ?_
    have hle := h.le
    rw [← hmark, wordAt, wordAt, store_data hroom,
      slice_overwritten_after ((Nat.le_add_right _ _).trans hroom) (by omega)]
  · rwa [capacity_store hroom]
  · rw [hwrite]
    exact hfits
  · rw [capacity_store hroom, store_usedBytes, hwrite, store_readOffset]
    omega

theorem skipTail_spec (h : queue.writeOffset ≤ queue.capacity)
    (hlaid : Laid queue.data start records queue.writeOffset) :
    queue.skipTail.capacity = queue.capacity ∧
      Laid queue.skipTail.data start records queue.writeOffset ∧
      (queue.capacity < queue.writeOffset + 4 ∨
        queue.skipTail.wordAt queue.writeOffset 4 = wrapRecord) := by
  unfold skipTail wordAt capacity
  dsimp only
  split
  · rename_i hmark
    have hlen : (toBytes 4 wrapRecord).length = 4 := length_toBytes
    have hslice : slice (queue.copyTo queue.writeOffset (toBytes 4 wrapRecord)).data _ _ = _ :=
      slice_overwritten h
    refine ⟨?_, hlaid.copied h (.inl le_rfl), .inr ?_⟩
    · exact (length_splice (by rw [hlen]; omega)).trans (Nat.sub_add_cancel (by rw [hlen]; omega))
    · rw [hlen] at hslice
      rw [hslice, ofBytes_toBytes (by decide)]
  · exact ⟨rfl, hlaid, .inl (by omega)⟩

/-- The outcome of adding a record to what the queue holds. -/
def Pushed (queue : UnsolicitedOutputQueue) (front back : List Record) (record : Record)
    (pushed : Bool × UnsolicitedOutputQueue) : Prop :=
  if pushed.1 then
    (∃ front' back', Holds pushed.2 front' back' ∧ front' ++ back' = front ++ back ++ [record] ∧
      front <+: front') ∧
    pushed.2.capacity = queue.capacity ∧
    pushed.2.payloadBytes = queue.payloadBytes + record.bytes.length
  else pushed.2 = queue

section

variable (hcapacity : queue'.capacity = queue.capacity)
  (hpayload : queue'.payloadBytes = queue.payloadBytes + record.bytes.length)
include hcapacity hpayload

theorem Holds.pushed_behind (h : Holds queue' (records ++ [record]) []) :
    Pushed queue records [] record (true, queue') :=
  ⟨⟨_, _, h, by rw [append_nil, append_nil], prefix_append _ _⟩, hcapacity, hpayload⟩

theorem Holds.pushed_wrapped (h : Holds queue' front (back ++ [record])) :
    Pushed queue front back record (true, queue') :=
  ⟨⟨_, _, h, (append_assoc _ _ _).symm, prefix_rfl⟩, hcapacity, hpayload⟩

end

theorem Holds.place (h : Holds queue front back) (hne : queue.usedBytes ≠ 0)
    (hroom : (encoded record).length ≤ queue.capacity - queue.usedBytes) :
    Pushed queue front back record (queue.place record.sequence record.bytes) := by
  have hpos : 0 < (encoded record).length := by
    rw [length_encoded, recordHeaderBytes]
    omega
  unfold UnsolicitedOutputQueue.place
  rw [← length_encoded]
  dsimp only
  cases h with
  | @linear stop laid stop_le write used =>
    by_cases hend : stop = queue.capacity
    · rw [if_pos hend] at write
      rw [write, if_neg (by omega)]
      split
      · rfl
      rename_i hfits
      have hnone : Laid queue.data 0 [] queue.writeOffset := write.symm
      exact Holds.pushed_wrapped (capacity_store (by omega)) rfl (holds_store_wrapped laid stop_le
        (.inl (by omega)) (by omega) hnone (by omega) (by omega))
    rw [if_neg hend] at write
    rw [← write] at laid
    rw [if_pos (by omega)]
    split
    · split
      · rfl
      obtain ⟨hcap, hkept, hmark⟩ := skipTail_spec (by omega) laid
      have hread : queue.skipTail.readOffset = queue.readOffset := rfl
      have hwrite : queue.skipTail.writeOffset = 0 := rfl
      have hused : queue.skipTail.usedBytes =
        queue.usedBytes + (queue.capacity - queue.writeOffset) := rfl
      have hnone : Laid queue.skipTail.data 0 [] queue.skipTail.writeOffset := rfl
      exact Holds.pushed_wrapped ((capacity_store (by omega)).trans hcap) rfl (holds_store_wrapped
        hkept (by omega) (by rwa [hcap]) (by omega) hnone (by omega) (by omega))
    · exact Holds.pushed_behind (capacity_store (by omega)) rfl
        (holds_store (by omega) laid (by omega))
  | wrapped laid stop_le skip read_lt back_ne start write_le used =>
    rw [if_neg (by omega)]
    split
    · rfl
    exact Holds.pushed_wrapped (capacity_store (by omega)) rfl
      (holds_store_wrapped laid stop_le skip read_lt start (by omega) used)

theorem Holds.push (h : Holds queue front back) (record : Record) :
    Pushed queue front back record (queue.push record.sequence record.bytes) := by
  have hlt := record.length_lt
  unfold UnsolicitedOutputQueue.push
  rw [if_neg (by omega), ← length_encoded]
  split
  · rfl
  rename_i hroom
  split
  · rename_i hzero
    obtain ⟨rfl, rfl⟩ := append_eq_nil_iff.mp (h.used_eq_zero.mp hzero)
    let empty : UnsolicitedOutputQueue := { queue with readOffset := 0, writeOffset := 0 }
    have hfits : empty.writeOffset + (encoded record).length ≤ empty.capacity := by
      change 0 + _ ≤ queue.capacity
      omega
    have hnone : Laid empty.data empty.readOffset [] empty.writeOffset := rfl
    have hstored := holds_store hfits hnone ((Nat.zero_add _).trans hzero)
    change Pushed queue [] [] record (empty.place record.sequence record.bytes)
    unfold UnsolicitedOutputQueue.place
    rw [if_pos le_rfl, ← length_encoded]
    dsimp only
    rw [if_neg (by omega)]
    exact Holds.pushed_behind (capacity_store hfits) rfl hstored
  · rename_i hne
    exact h.place hne (by omega)

/-- An empty queue takes every record that fits the mapping. -/
theorem push_accepted (hused : queue.usedBytes = 0)
    (hfits : (encoded record).length ≤ queue.capacity) :
    (queue.push record.sequence record.bytes).1 = true := by
  have hlt := record.length_lt
  rw [length_encoded] at hfits
  have htail : ¬queue.capacity - 0 < recordHeaderBytes + record.bytes.length := by omega
  unfold UnsolicitedOutputQueue.push UnsolicitedOutputQueue.place
  rw [if_neg (by omega), if_neg (by omega), if_pos hused, if_pos le_rfl]
  exact congrArg Prod.fst (if_neg htail)

/-- A record at the head is not taken for a mark. -/
theorem normalizeLoop_head {fuel : ℕ}
    (h : Laid queue.data queue.readOffset (record :: records) stop)
    (hstop : stop ≤ queue.capacity) : normalizeLoop (fuel + 1) queue = some queue := by
  have hlt := record.length_lt
  have hle := Laid.le h.2
  rw [length_encoded, recordHeaderBytes] at hle
  unfold normalizeLoop
  dsimp only
  split
  · rfl
  rw [(wordAt_head h.1).1, if_pos ⟨by omega, by rw [wrapRecord]; omega⟩]

/-- The head is brought to the oldest record. -/
theorem Holds.normalizeHead (h : Holds queue front back) :
    ∃ queue' front' back', queue.normalizeHead = some queue' ∧ Holds queue' front' back' ∧
      front' ++ back' = front ++ back ∧ (front' = [] → back' = []) ∧
      queue'.capacity = queue.capacity ∧ queue'.payloadBytes = queue.payloadBytes := by
  unfold UnsolicitedOutputQueue.normalizeHead
  cases front with
  | cons record rest =>
    refine ⟨queue, record :: rest, back, ?_, h, rfl, nofun, rfl, rfl⟩
    cases h with
    | linear laid stop_le write used => exact normalizeLoop_head laid stop_le
    | wrapped laid stop_le skip read_lt back_ne start write_le used =>
      exact normalizeLoop_head laid stop_le
  | nil =>
    have hzero := h.used_eq_zero
    cases h with
    | linear laid stop_le write used =>
      refine ⟨queue, [], [], ?_, .linear laid stop_le write used, rfl, fun _ ↦ rfl, rfl, rfl⟩
      rw [normalizeLoop, if_pos (hzero.mpr rfl)]
    | @wrapped _ stop laid stop_le skip read_lt back_ne start write_le used =>
      obtain rfl : queue.readOffset = stop := laid
      have hpos := start.lt back_ne
      let queue' : UnsolicitedOutputQueue := { queue with
        usedBytes := queue.usedBytes - (queue.capacity - queue.readOffset), readOffset := 0 }
      have hcap : queue'.capacity = queue.capacity := rfl
      have hused : queue'.usedBytes = queue.usedBytes - (queue.capacity - queue.readOffset) := rfl
      have hstart : Laid queue'.data queue'.readOffset back queue'.writeOffset := start
      have hwrite : queue'.writeOffset = queue.writeOffset := rfl
      have hread : queue'.readOffset = 0 := rfl
      refine ⟨queue', back, [], ?_, ?_, by simp, fun _ ↦ rfl, rfl, rfl⟩
      · have hround : normalizeLoop 2 queue = normalizeLoop 1 queue' := by
          rw [normalizeLoop, if_neg (by omega), if_neg]
          rintro ⟨hlen, hword⟩
          exact skip.elim (by omega) hword
        obtain ⟨record, rest, rfl⟩ := exists_cons_of_ne_nil back_ne
        rw [hround]
        exact normalizeLoop_head hstart (by omega)
      · exact .linear hstart (by omega) (if_neg (by omega)).symm (by omega)

theorem holds_empty (hread : queue.readOffset = 0) (hwrite : queue.writeOffset = 0)
    (hused : queue.usedBytes = 0) : Holds queue [] [] :=
  @Holds.linear _ _ 0 hread (Nat.zero_le _) (by rw [hwrite, ite_self]) (by rw [hread, hused])

/-- The oldest record goes, and the head stands at the next one or at the end of the first ones. -/
theorem Holds.popFront (h : Holds queue (record :: front) back) :
    ∃ front' back', Holds (queue.popFront record.bytes.length) front' back' ∧
      front' ++ back' = front ++ back := by
  have hread : (queue.popFront record.bytes.length).readOffset =
      if queue.usedBytes - (encoded record).length = 0 then 0
      else if queue.readOffset + (encoded record).length = queue.capacity then 0
      else queue.readOffset + (encoded record).length := by
    rw [length_encoded]
    rfl
  have hwrite : (queue.popFront record.bytes.length).writeOffset =
      if queue.usedBytes - (encoded record).length = 0 then 0 else queue.writeOffset := by
    rw [length_encoded]
    rfl
  have hused : (queue.popFront record.bytes.length).usedBytes =
      queue.usedBytes - (encoded record).length := by
    rw [length_encoded]
    rfl
  have hcap : (queue.popFront record.bytes.length).capacity = queue.capacity := rfl
  cases h with
  | @linear stop laid stop_le write used =>
    have hle := laid.2.le
    refine ⟨front, [], ?_, rfl⟩
    by_cases hzero : queue.usedBytes - (encoded record).length = 0
    · obtain rfl : front = [] := by
        by_contra hne
        have hlt := Laid.lt laid.2 hne
        omega
      rw [if_pos hzero] at hread hwrite
      exact holds_empty hread hwrite (hused.trans hzero)
    · rw [if_neg hzero, if_neg (by omega)] at hread
      rw [if_neg hzero] at hwrite
      refine @Holds.linear _ _ stop ?_ stop_le (hwrite.trans write) (by omega)
      rw [hread]
      exact laid.2
  | @wrapped _ stop laid stop_le skip read_lt back_ne start write_le used =>
    have hle := laid.2.le
    have hpos := start.lt back_ne
    rw [if_neg (by omega)] at hread hwrite
    by_cases hend : queue.readOffset + (encoded record).length = queue.capacity
    · obtain rfl : front = [] := by
        by_contra hne
        have hlt := Laid.lt laid.2 hne
        omega
      rw [if_pos hend] at hread
      refine ⟨back, [], @Holds.linear _ _ queue.writeOffset ?_ (by omega) ?_ (by omega), by simp⟩
      · rw [hread]
        exact start
      · rw [hwrite, if_neg (by omega)]
    · rw [if_neg hend] at hread
      refine ⟨front, back, @Holds.wrapped _ _ _ stop ?_ stop_le skip (by omega) back_ne ?_
        (by omega)
        (by omega), rfl⟩
      · rw [hread]
        exact laid.2
      · rw [hwrite]
        exact start

theorem Holds.head (h : Holds queue (record :: front) back) :
    slice queue.data queue.readOffset (encoded record).length = encoded record := by
  cases h with
  | linear laid stop_le write used => exact laid.1
  | wrapped laid stop_le skip read_lt back_ne start write_le used => exact laid.1

/-- `front` gives the oldest record, and its head is then in place. -/
theorem Holds.front_returns (h : Holds queue front back) :
    ∃ queue' front' back',
      queue.front = some (queue', (front ++ back).head?.map fun record ↦
        (record.sequence, record.bytes)) ∧
      Holds queue' front' back' ∧ front' ++ back' = front ++ back ∧
      (front' = [] → back' = []) ∧ queue'.capacity = queue.capacity ∧
      queue'.payloadBytes = queue.payloadBytes := by
  obtain ⟨queue', front', back', hnormal, hholds, hsame, hnone, hcapacity, hpayload⟩ :=
    h.normalizeHead
  refine ⟨queue', front', back', ?_, hholds, hsame, hnone, hcapacity, hpayload⟩
  rw [UnsolicitedOutputQueue.front, hnormal, Option.bind_eq_bind, Option.bind_some, ← hsame]
  cases front' with
  | nil =>
    obtain rfl := hnone rfl
    rw [if_pos (hholds.used_eq_zero.mpr rfl)]
    rfl
  | cons record rest =>
    obtain ⟨hlength, hsequence, hbytes⟩ := wordAt_head hholds.head
    rw [if_neg (by simp [hholds.used_eq_zero]), hlength, hsequence]
    dsimp only
    rw [hbytes]
    rfl

theorem Holds.pop_returns (h : Holds queue front back) :
    ∃ queue' front' back', queue.pop = some queue' ∧ Holds queue' front' back' ∧
      front' ++ back' = (front ++ back).tail ∧ queue'.capacity = queue.capacity ∧
      queue'.payloadBytes = queue.payloadBytes -
        ((front ++ back).head?.map fun record ↦ record.bytes.length).getD 0 := by
  obtain ⟨queue', front', back', hnormal, hholds, hsame, hnone, hcapacity, hpayload⟩ :=
    h.normalizeHead
  rw [UnsolicitedOutputQueue.pop, hnormal, Option.bind_eq_bind, Option.bind_some, ← hsame]
  cases front' with
  | nil =>
    obtain rfl := hnone rfl
    rw [if_pos (hholds.used_eq_zero.mpr rfl)]
    exact ⟨queue', [], [], rfl, hholds, rfl, hcapacity, hpayload⟩
  | cons record rest =>
    obtain ⟨front', back', hrest, hsame⟩ := hholds.popFront
    rw [if_neg (by simp [hholds.used_eq_zero]), (wordAt_head hholds.head).1]
    exact ⟨_, front', back', rfl, hrest, hsame, hcapacity,
      congrArg (· - record.bytes.length) hpayload⟩

/-- Where the records stand in the mapping, none of them cut or covered by another. -/
def Placed (queue : UnsolicitedOutputQueue) (records : List Record) : Prop :=
  ∃ places : List (ℕ × Record), places.map Prod.snd = records ∧
    (∀ place ∈ places, place.1 + (encoded place.2).length ≤ queue.capacity ∧
      slice queue.data place.1 (encoded place.2).length = encoded place.2) ∧
    places.Pairwise fun one other ↦ one.1 + (encoded one.2).length ≤ other.1 ∨
      other.1 + (encoded other.2).length ≤ one.1

theorem Laid.places (h : Laid data start records stop) :
    ∃ places : List (ℕ × Record), places.map Prod.snd = records ∧
      (∀ place ∈ places, start ≤ place.1 ∧ place.1 + (encoded place.2).length ≤ stop ∧
        slice data place.1 (encoded place.2).length = encoded place.2) ∧
      places.Pairwise fun one other ↦ one.1 + (encoded one.2).length ≤ other.1 ∨
        other.1 + (encoded other.2).length ≤ one.1 := by
  induction records generalizing start with
  | nil => exact ⟨[], rfl, nofun, .nil⟩
  | cons record rest ih =>
    obtain ⟨places, hrecords, hin, hapart⟩ := ih h.2
    have hle := Laid.le h.2
    refine ⟨(start, record) :: places, by rw [map_cons, hrecords], ?_, .cons ?_ hapart⟩
    · intro place hplace
      rcases mem_cons.mp hplace with rfl | hplace
      · exact ⟨le_rfl, hle, h.1⟩
      · obtain ⟨hstart, hstop⟩ := hin place hplace
        exact ⟨by omega, hstop⟩
    · exact fun place hplace ↦ .inl (hin place hplace).1

theorem Holds.placed (h : Holds queue front back) : Placed queue (front ++ back) := by
  cases h with
  | linear laid stop_le write used =>
    obtain ⟨places, hrecords, hin, hapart⟩ := laid.places
    refine ⟨places, by rw [hrecords, append_nil], fun place hplace ↦ ?_, hapart⟩
    exact ⟨(hin place hplace).2.1.trans stop_le, (hin place hplace).2.2⟩
  | wrapped laid stop_le skip read_lt back_ne start write_le used =>
    obtain ⟨first, hfirst, hin, hapart⟩ := laid.places
    obtain ⟨second, hsecond, hin', hapart'⟩ := start.places
    refine ⟨first ++ second, by rw [map_append, hfirst, hsecond], ?_, ?_⟩
    · intro place hplace
      rcases mem_append.mp hplace with hplace | hplace
      · exact ⟨(hin place hplace).2.1.trans stop_le, (hin place hplace).2.2⟩
      · exact ⟨by have := (hin' place hplace).2.1; omega, (hin' place hplace).2.2⟩
    · refine pairwise_append.mpr ⟨hapart, hapart', fun one hone other hother ↦ .inr ?_⟩
      have hbefore := (hin' other hother).2.1
      have hafter := (hin one hone).1
      omega

end UnsolicitedOutputQueue

/-! ## Runs -/

inductive Call
  | push (record : Record)
  | front
  | pop
  | popFront
  | clear

inductive Answer
  | pushed (accepted : Bool)
  | front (record : Option (UInt64 × Bytes))
  | done

/-- A queue in the hands of its only caller, who drops the head by the length that `front` gave. -/
structure Client where
  queue : UnsolicitedOutputQueue
  seen : Option ℕ := none

def Client.call (client : Client) : Call → Option (Answer × Client)
  | .push record =>
    let pushed := client.queue.push record.sequence record.bytes
    some (.pushed pushed.1, { client with queue := pushed.2 })
  | .front => client.queue.front.map fun (queue, record) ↦
    (.front record, { queue, seen := record.map fun record ↦ record.2.length })
  | .pop => client.queue.pop.map fun queue ↦ (.done, { queue })
  | .popFront =>
    match client.seen with
    | none => some (.done, client)
    | some length => some (.done, { queue := client.queue.popFront length })
  | .clear => some (.done, { queue := client.queue.clear })

def Client.run (client : Client) : List Call → Option (List Answer × Client)
  | [] => some ([], client)
  | call :: calls => do
    let (answer, client) ← client.call call
    let (answers, client) ← client.run calls
    pure (answer :: answers, client)

/-- The records in their order, and whether the first one was seen. -/
structure Fifo where
  records : List Record := []
  seen : Bool := false

/-- What the records are after an answer, where it is one that they allow. -/
def Fifo.follow (fifo : Fifo) : Call → Answer → Option Fifo
  | .push record, .pushed accepted =>
    some (if accepted then { fifo with records := fifo.records ++ [record] } else fifo)
  | .front, .front record =>
    if record = fifo.records.head?.map fun record ↦ (record.sequence, record.bytes) then
      some { fifo with seen := record.isSome }
    else none
  | .pop, .done => some { records := fifo.records.tail }
  | .popFront, .done => some (if fifo.seen then { records := fifo.records.tail } else fifo)
  | .clear, .done => some {}
  | _, _ => none

def Fifo.replay (fifo : Fifo) : List Call → List Answer → Option Fifo
  | [], [] => some fifo
  | call :: calls, answer :: answers => do (← fifo.follow call answer).replay calls answers
  | _, _ => none

def payloads (records : List Record) : ℕ := (records.map fun record ↦ record.bytes.length).sum

/-- The queue of a client, and the records that it stands for. -/
def Client.Serves (capacity : ℕ) (client : Client) (fifo : Fifo) : Prop :=
  ∃ front back, client.queue.Holds front back ∧ fifo.records = front ++ back ∧
    client.queue.capacity = capacity ∧ client.queue.payloadBytes = payloads fifo.records ∧
    client.seen.isSome = fifo.seen ∧
    ∀ length ∈ client.seen, ∃ record, front.head? = some record ∧ record.bytes.length = length

variable {capacity : ℕ} {client client' : Client} {fifo fifo' : Fifo}

theorem payloads_tail (records : List Record) : payloads records -
    (records.head?.map fun record ↦ record.bytes.length).getD 0 = payloads records.tail := by
  cases records <;> simp [payloads]

/-- One call keeps the queue and the records together. -/
theorem Client.Serves.call (h : client.Serves capacity fifo) (call : Call) :
    ∃ answer client' fifo', client.call call = some (answer, client') ∧
      fifo.follow call answer = some fifo' ∧ client'.Serves capacity fifo' := by
  obtain ⟨front, back, hholds, hrecords, hcap, hpayload, hseen, hhead⟩ := h
  cases call with
  | push record =>
    refine ⟨_, _, _, rfl, rfl, ?_⟩
    have hpushed := hholds.push record
    unfold UnsolicitedOutputQueue.Pushed at hpushed
    split at hpushed
    · rename_i haccepted
      obtain ⟨⟨front', back', hholds', hsame, hfront⟩, hcap', hsum⟩ := hpushed
      rw [if_pos haccepted]
      refine ⟨front', back', hholds', by rw [hsame, hrecords], hcap'.trans hcap, ?_, hseen,
        fun length hlength ↦ ?_⟩
      · rw [hsum, hpayload]
        simp [payloads]
      · obtain ⟨first, hfirst, hlen⟩ := hhead length hlength
        obtain ⟨rest, rfl⟩ := hfront
        exact ⟨first, by rw [head?_append, hfirst, Option.some_or], hlen⟩
    · rename_i hrefused
      rw [if_neg hrefused, hpushed]
      exact ⟨front, back, hholds, hrecords, hcap, hpayload, hseen, hhead⟩
  | front =>
    obtain ⟨queue', front', back', hfront, hholds', hsame, hnone, hcap', hsum⟩ :=
      hholds.front_returns
    refine ⟨.front _, _, _, by rw [Client.call, hfront]; rfl, if_pos (by rw [hrecords]), ?_⟩
    refine ⟨front', back', hholds', hrecords.trans hsame.symm, hcap'.trans hcap,
      hsum.trans hpayload, by simp, ?_⟩
    -- the head is in place, so the record seen is the first of those in front
    rw [← hsame]
    cases front' with
    | nil =>
      obtain rfl := hnone rfl
      exact nofun
    | cons record rest =>
      intro length hlength
      exact ⟨record, rfl, Option.some.inj hlength⟩
  | pop =>
    obtain ⟨queue', front', back', hpop, hholds', hsame, hcap', hsum⟩ := hholds.pop_returns
    refine ⟨.done, { queue := queue' }, _, by rw [Client.call, hpop]; rfl, rfl, ?_⟩
    refine ⟨front', back', hholds', by rw [hsame, hrecords], hcap'.trans hcap, ?_, rfl, nofun⟩
    rw [hsum, hpayload, hrecords, payloads_tail]
  | popFront =>
    cases hlength : client.seen with
    | none =>
      have hunseen : fifo.seen = false := by rw [← hseen, hlength, Option.isSome_none]
      refine ⟨.done, client, fifo, by rw [Client.call, hlength], ?_, ?_⟩
      · rw [Fifo.follow, hunseen, if_neg Bool.false_ne_true]
      · exact ⟨front, back, hholds, hrecords, hcap, hpayload, hseen, hhead⟩
    | some length =>
      have hwas : fifo.seen = true := by rw [← hseen, hlength, Option.isSome_some]
      obtain ⟨record, hfirst, rfl⟩ := hhead length hlength
      obtain ⟨rest, rfl⟩ := head?_eq_some_iff.mp hfirst
      obtain ⟨front', back', hholds', hsame⟩ := hholds.popFront
      refine ⟨.done, { queue := client.queue.popFront record.bytes.length },
        { records := fifo.records.tail }, by rw [Client.call, hlength], ?_, ?_⟩
      · rw [Fifo.follow, hwas, if_pos rfl]
      refine ⟨front', back', hholds', by rw [hrecords, hsame]; rfl, hcap, ?_, rfl, nofun⟩
      rw [← payloads_tail, ← hpayload, hrecords]
      rfl
  | clear =>
    exact ⟨.done, _, _, rfl, rfl, [], [], UnsolicitedOutputQueue.holds_empty rfl rfl rfl, rfl, hcap,
      rfl, rfl, nofun⟩

theorem Client.Serves.run (h : client.Serves capacity fifo) (calls : List Call) :
    ∃ answers client' fifo', client.run calls = some (answers, client') ∧
      fifo.replay calls answers = some fifo' ∧ client'.Serves capacity fifo' := by
  induction calls generalizing client fifo with
  | nil => exact ⟨[], client, fifo, rfl, rfl, h⟩
  | cons call calls ih =>
    obtain ⟨answer, client', fifo', hcall, hfollow, hserves⟩ := h.call call
    obtain ⟨answers, client'', fifo'', hrun, hreplay, hserves'⟩ := ih hserves
    refine ⟨answer :: answers, client'', fifo'', ?_, ?_, hserves'⟩
    · rw [Client.run, hcall, Option.bind_eq_bind, Option.bind_some]
      dsimp only
      rw [hrun]
      rfl
    · rw [Fifo.replay, hfollow, Option.bind_eq_bind, Option.bind_some, hreplay]

theorem Client.Serves.refused (h : client.Serves capacity fifo) {record : Record}
    (hcall : client.call (.push record) = some (.pushed false, client')) : client' = client := by
  obtain ⟨front, back, hholds, -⟩ := h
  have hpushed := hholds.push record
  obtain ⟨hanswer, rfl⟩ := Prod.mk.inj (Option.some.inj hcall)
  rw [UnsolicitedOutputQueue.Pushed, Answer.pushed.inj hanswer,
    if_neg Bool.false_ne_true] at hpushed
  rw [hpushed]

/-- In every run the queue answers as a list of records that are taken out in the order in which
they were put in.  The records stand apart in the mapping, the counters are theirs, a refused
record changes nothing, and an empty queue refuses no record that fits the mapping. -/
theorem Client.run_refines_fifo (capacity : ℕ) (calls : List Call) :
    ∃ answers client fifo,
      Client.run { queue := { data := replicate capacity 0 } } calls = some (answers, client) ∧
      Fifo.replay {} calls answers = some fifo ∧
      client.queue.Placed fifo.records ∧
      client.queue.payloadBytes = payloads fifo.records ∧
      client.queue.usedBytes ≤ capacity ∧
      (client.queue.usedBytes = 0 ↔ fifo.records = []) ∧
      (∀ record client', client.call (.push record) = some (.pushed false, client') →
        client' = client) ∧
      (fifo.records = [] → ∀ record : Record,
        (UnsolicitedOutputQueue.encoded record).length ≤ capacity →
          ∃ client', client.call (.push record) = some (.pushed true, client')) := by
  have hempty : Client.Serves capacity { queue := { data := replicate capacity 0 } } {} :=
    ⟨[], [], UnsolicitedOutputQueue.holds_empty rfl rfl rfl, rfl, length_replicate, rfl, rfl, nofun⟩
  obtain ⟨answers, client, fifo, hrun, hreplay, hserves⟩ := hempty.run calls
  obtain ⟨front, back, hholds, hrecords, hcap, hpayload, -⟩ := id hserves
  refine ⟨answers, client, fifo, hrun, hreplay, ?_, hpayload, ?_, ?_, ?_, ?_⟩
  · rw [hrecords]
    exact hholds.placed
  · exact hholds.used_le.trans_eq hcap
  · rw [hrecords]
    exact hholds.used_eq_zero
  · exact fun record client' hcall ↦ hserves.refused hcall
  · intro hnone record hfits
    have hused := hholds.used_eq_zero.mpr (hrecords ▸ hnone)
    have haccepted := UnsolicitedOutputQueue.push_accepted hused (hcap ▸ hfits)
    exact ⟨_, by rw [Client.call, haccepted]⟩

end GoblinCore.PubSub
