import GoblinCore.Foundation.Framing
import GoblinCore.Store.Keyspace

/-!
# The buffer of a transaction

The commands that wait for EXEC are records in mapped memory: the size of the record, the number
of its fields, and each field behind its length.  EXEC decodes as many records as were counted, and
zeroes the arguments of those that carry a password where they lie.
-/

namespace GoblinCore

open List Nat

structure TransactionBuffer where
  capacity : ℕ
  /-- The used bytes.  Those behind them are never read. -/
  data : Bytes := []
  commandCount : ℕ := 0

namespace TransactionBuffer

/-- The most a length of 32 bits can say. -/
def maxRecord : ℕ := 2 ^ 32 - 1

/-- The size of a record with one more field. -/
def addField (bytes : ℕ) (field : Bytes) : Option ℕ :=
  if maxRecord - 4 < field.length ∨ maxRecord - 4 - field.length < bytes then none
  else some (bytes + (4 + field.length))

def framed (fields : List Bytes) : Bytes := fields.flatMap fun field ↦ word32 field.length ++ field

def record (bytes : ℕ) (fields : List Bytes) : Bytes :=
  word32 bytes ++ (word32 fields.length ++ framed fields)

variable (buffer : TransactionBuffer)

def append (fields : List Bytes) : Bool × TransactionBuffer :=
  if maxRecord < fields.length then (false, buffer)
  else
    match fields.foldlM addField 8 with
    | none => (false, buffer)
    | some bytes =>
      if buffer.capacity - buffer.data.length < bytes then (false, buffer)
      else (true, ⟨buffer.capacity, buffer.data ++ record bytes fields, buffer.commandCount + 1⟩)

/-- The fields between the cursor and the end of the record. -/
def decodeFields : ℕ → Bytes → Option (List Bytes)
  | 0, left => if left = [] then some [] else none
  | fieldCount + 1, left =>
    if left.length < 4 then none
    else
      let bytes := readWord32 left
      if (left.drop 4).length < bytes then none
      else (decodeFields fieldCount ((left.drop 4).drop bytes)).map ((left.drop 4).take bytes :: ·)

/-- The fields at an offset, and the offset behind them. -/
def decode (offset : ℕ) : Option (List Bytes × ℕ) :=
  let start := buffer.data.drop offset
  if start.length < 8 then none
  else
    let bytes := readWord32 start
    if bytes < 8 ∨ start.length < bytes then none
    else
      (decodeFields (readWord32 (start.drop 4)) ((start.take bytes).drop 8)).map (·, offset + bytes)

def clear : TransactionBuffer := { capacity := buffer.capacity }

/-- `scrub_auth_request` zeroes all fields but the name of the command. -/
def scrub : List Bytes → List Bytes
  | [] => []
  | name :: arguments => name :: arguments.map fun field ↦ replicate field.length 0

/-- The loop of EXEC: the field lists it runs, and whether it finds the buffer corrupt. -/
def execute (carriesPassword : List Bytes → Bool) :
    ℕ → ℕ → TransactionBuffer → List (List Bytes) × Bool
  | 0, _, _ => ([], false)
  | queued + 1, offset, buffer =>
    match buffer.decode offset with
    | none => ([], true)
    | some (fields, next) =>
      let data := if carriesPassword fields then
          buffer.data.take (offset + 8) ++ framed (scrub fields) ++ buffer.data.drop next
        else buffer.data
      let (more, corrupt) := execute carriesPassword queued next { buffer with data }
      (fields :: more, corrupt)

/-! ## Records -/

def recordSize (fields : List Bytes) : ℕ := 8 + (framed fields).length

variable {buffer : TransactionBuffer} {field : Bytes} {bytes offset : ℕ}

theorem framed_cons (fields : List Bytes) :
    framed (field :: fields) = word32 field.length ++ (field ++ framed fields) :=
  append_assoc _ _ _

theorem recordSize_cons (fields : List Bytes) :
    recordSize (field :: fields) = 4 + field.length + recordSize fields := by
  simp only [recordSize, framed_cons, length_append, length_word32]
  omega

theorem length_scrub (fields : List Bytes) :
    (framed (scrub fields)).length = (framed fields).length := by
  cases fields with
  | nil => rfl
  | cons name arguments => simp [framed, scrub, length_flatMap, Function.comp_def]

theorem length_record (fields : List Bytes) : (record bytes fields).length = recordSize fields := by
  rw [record, length_append, length_append, length_word32, length_word32, ← add_assoc]
  rfl

theorem length_le_recordSize (fields : List Bytes) : fields.length ≤ recordSize fields := by
  induction fields with
  | nil => exact zero_le _
  | cons field fields ih =>
    rw [recordSize_cons, length_cons]
    omega

theorem foldlM_addField {fields : List Bytes} (h : bytes + 8 ≤ maxRecord) :
    fields.foldlM addField (bytes + 8) =
      if bytes + recordSize fields ≤ maxRecord then some (bytes + recordSize fields) else none := by
  induction fields generalizing bytes with
  | nil => exact (if_pos h).symm
  | cons field fields ih =>
    have hsize : 8 ≤ recordSize fields := le_add_right _ _
    rw [foldlM_cons, recordSize_cons, addField]
    split
    · rename_i hlarge
      rw [if_neg (by unfold maxRecord at *; omega)]
      rfl
    · rename_i hfits
      have hnext := ih (by unfold maxRecord at *; omega : bytes +
        (4 + field.length) + 8 ≤ maxRecord)
      rwa [add_right_comm, add_assoc bytes _ (recordSize _)] at hnext

/-- What `append` does, by the size of the record. -/
theorem append_eq (fields : List Bytes) :
    buffer.append fields =
      if maxRecord < recordSize fields ∨
          buffer.capacity - buffer.data.length < recordSize fields then (false, buffer)
      else (true, ⟨buffer.capacity, buffer.data ++ record (recordSize fields) fields,
        buffer.commandCount + 1⟩) := by
  have hcount := length_le_recordSize fields
  have hbytes : fields.foldlM addField 8 = _ := foldlM_addField (by decide : 0 + 8 ≤ maxRecord)
  rw [append, hbytes, zero_add]
  by_cases hlarge : maxRecord < recordSize fields
  · rw [if_neg (not_le.mpr hlarge), if_pos (Or.inl hlarge), ite_self]
  · rw [if_neg (by omega), if_pos (Nat.le_of_not_lt hlarge)]
    simp only [hlarge, false_or]

theorem decodeFields_framed {fields : List Bytes} (h : recordSize fields ≤ maxRecord) :
    decodeFields fields.length (framed fields) = some fields := by
  induction fields with
  | nil => rfl
  | cons field fields ih =>
    rw [recordSize_cons] at h
    have hword : readWord32 (framed (field :: fields)) = field.length := by
      rw [framed_cons, readWord32_append (by unfold maxRecord at h; omega)]
    have hdrop : (framed (field :: fields)).drop 4 = field ++ framed fields := by
      rw [framed_cons, drop_left' (length_word32 _)]
    rw [length_cons, decodeFields,
      if_neg (by rw [framed_cons, length_append, length_word32]; omega)]
    dsimp only
    rw [hword, hdrop, if_neg (by rw [length_append]; omega), drop_left, take_left, ih (by omega)]
    rfl

/-! ## The records from an offset on -/

/-- Repeated decoding from an offset gives these field lists, and then nothing. -/
def Decodes (buffer : TransactionBuffer) : ℕ → List (List Bytes) → Prop
  | offset, [] => buffer.decode offset = none
  | offset, fields :: others =>
    ∃ next, buffer.decode offset = some (fields, next) ∧ Decodes buffer next others

/-- The records of the field lists lie from an offset on. -/
structure Holds (buffer : TransactionBuffer) (offset : ℕ)
    (accepted : List (List Bytes)) : Prop where
  data : buffer.data.drop offset = accepted.flatMap fun fields ↦ record (recordSize fields) fields
  sizes : ∀ fields ∈ accepted, recordSize fields ≤ maxRecord

variable {accepted : List (List Bytes)}

section

variable {fields : List Bytes} (h : Holds buffer offset (fields :: accepted))
include h

theorem Holds.decode_eq : buffer.decode offset = some (fields, offset + recordSize fields) := by
  obtain ⟨hdata, hsizes⟩ := h
  obtain ⟨hsize, -⟩ := forall_mem_cons.mp hsizes
  have hcount := length_le_recordSize fields
  have hmin : 8 ≤ recordSize fields := le_add_right _ _
  have hmax : maxRecord < 2 ^ 32 := by decide
  have hbody : (record (recordSize fields) fields).drop 8 = framed fields := rfl
  rw [flatMap_cons] at hdata
  rw [decode, hdata]
  generalize accepted.flatMap _ = others
  have hlength : (record (recordSize fields) fields ++ others).length
      = recordSize fields + others.length := by rw [length_append, length_record]
  have hword : readWord32 (record (recordSize fields) fields ++ others) = recordSize fields := by
    rw [record, append_assoc, readWord32_append (by omega)]
  have hfields : readWord32 ((record (recordSize fields) fields ++ others).drop 4)
      = fields.length := by
    rw [record, append_assoc, drop_left' (length_word32 _), append_assoc,
      readWord32_append (by omega)]
  dsimp only
  rw [hword, hfields, hlength, if_neg (by omega), if_neg (by omega), take_left' (length_record _),
    hbody, decodeFields_framed hsize]
  rfl

/-- The other records, whatever became of the first one. -/
theorem Holds.next {data : Bytes} (hdata : data.drop (offset + recordSize fields)
      = buffer.data.drop (offset + recordSize fields)) :
    Holds { buffer with data } (offset + recordSize fields) accepted := by
  refine ⟨?_, (forall_mem_cons.mp h.sizes).2⟩
  rw [hdata, ← drop_drop, h.data, flatMap_cons, drop_left' (length_record _)]

/-- Scrubbing a record leaves the others alone. -/
theorem Holds.drop_scrub :
    (buffer.data.take (offset + 8) ++ framed (scrub fields)
      ++ buffer.data.drop (offset + recordSize fields)).drop (offset + recordSize fields)
      = buffer.data.drop (offset + recordSize fields) := by
  have hlen := congrArg List.length h.data
  have hsize : recordSize fields = 8 + (framed fields).length := rfl
  rw [length_drop, flatMap_cons, length_append, length_record] at hlen
  refine drop_left' ?_
  rw [length_append, length_take_of_le (by omega), length_scrub, hsize, add_assoc]

end

theorem Holds.decodes (h : Holds buffer offset accepted) : Decodes buffer offset accepted := by
  induction accepted generalizing offset with
  | nil =>
    rw [Decodes, decode, h.data]
    rfl
  | cons fields accepted ih => exact ⟨_, h.decode_eq, ih (h.next rfl)⟩

theorem Holds.execute_eq (h : Holds buffer offset accepted) (carriesPassword : List Bytes → Bool) :
    execute carriesPassword accepted.length offset buffer = (accepted, false) := by
  induction accepted generalizing offset buffer with
  | nil => rfl
  | cons fields accepted ih =>
    rw [length_cons, execute, h.decode_eq]
    dsimp only
    rw [ih (h.next (by split; exacts [h.drop_scrub, rfl]))]

/-! ## Whole transactions -/

inductive Call where
  | append (fields : List Bytes)
  | clear

/-- A call, with the field lists that were accepted since the buffer was last cleared. -/
def step : TransactionBuffer × List (List Bytes) → Call → TransactionBuffer × List (List Bytes)
  | (buffer, accepted), .append fields =>
    ((buffer.append fields).2,
      if (buffer.append fields).1 then accepted ++ [fields] else accepted)
  | (buffer, _), .clear => (buffer.clear, [])

def run (mappedBytes : ℕ) (calls : List Call) : TransactionBuffer × List (List Bytes) :=
  calls.foldl step ({ capacity := mappedBytes }, [])

/-- What every call keeps. -/
structure Filled (mappedBytes : ℕ) (buffer : TransactionBuffer) (accepted : List (List Bytes)) :
    Prop extends Holds buffer 0 accepted where
  mapped : buffer.capacity = mappedBytes
  used : buffer.data.length ≤ mappedBytes
  count : buffer.commandCount = accepted.length

variable {mappedBytes : ℕ}

theorem filled_empty : Filled mappedBytes { capacity := mappedBytes } [] :=
  ⟨⟨rfl, forall_mem_nil _⟩, rfl, zero_le _, rfl⟩

theorem Filled.step (h : Filled mappedBytes buffer accepted) (call : Call) :
    Filled mappedBytes (step (buffer, accepted) call).1 (step (buffer, accepted) call).2 := by
  obtain ⟨⟨hdata, hsizes⟩, rfl, hused, hcount⟩ := h
  cases call with
  | clear => exact filled_empty
  | append fields =>
    rw [TransactionBuffer.step, append_eq]
    split
    · exact ⟨⟨hdata, hsizes⟩, rfl, hused, hcount⟩
    · refine ⟨⟨?_, ?_⟩, rfl, ?_, ?_⟩
      · simp_all
      · exact forall_mem_append.mpr ⟨hsizes, forall_mem_singleton.mpr (by omega)⟩
      · rw [length_append, length_record]
        omega
      · rw [hcount, if_pos rfl, length_append]
        rfl

theorem filled_run (calls : List Call) :
    Filled mappedBytes (run mappedBytes calls).1 (run mappedBytes calls).2 :=
  foldlRecOn (motive := fun state ↦ Filled mappedBytes state.1 state.2) calls
    TransactionBuffer.step filled_empty fun _ hstate call _ ↦ hstate.step call

/-- The accepted field lists are decoded, and EXEC runs them all. -/
theorem run_decodes (calls : List Call) (fields : List Bytes)
    (carriesPassword : List Bytes → Bool) :
    let buffer := (run mappedBytes calls).1
    let accepted := (run mappedBytes calls).2
    buffer.Decodes 0 accepted ∧
      (if maxRecord < recordSize fields ∨
          mappedBytes < (accepted.map recordSize).sum + recordSize fields then
        buffer.append fields = (false, buffer)
      else (buffer.append fields).1 = true) ∧
      execute carriesPassword buffer.commandCount 0 buffer = (accepted, false) := by
  intro buffer accepted
  have h : Filled mappedBytes buffer accepted := filled_run calls
  refine ⟨h.decodes, ?_, h.count ▸ h.execute_eq carriesPassword⟩
  have hused : buffer.data.length = (accepted.map recordSize).sum := by
    have hdata := congrArg List.length h.data
    simpa only [drop_zero, length_flatMap, length_record] using hdata
  have hle := h.used
  rw [append_eq, h.mapped]
  split
  · rw [if_pos (by omega)]
  · rw [if_neg (by omega)]

end TransactionBuffer

end GoblinCore
