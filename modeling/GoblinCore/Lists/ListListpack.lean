import GoblinCore.Foundation.Framing
import GoblinCore.Encoding.StringRoundTrip
import GoblinCore.Foundation.Refusable
import GoblinCore.Foundation.Splice

/-!
# The list listpack

The entries of a small list, or of a leaf of a large one, in one buffer.  An entry has a header of
one byte or three that tells its length and whether the prefix of a raw string was left out, and
then the stored string.  Reading is a walk over the headers, and each change rebuilds the buffer
around the offset of an index.
-/

namespace GoblinCore

open StringEncoding List Nat Refusable

/-- A stored string of an entry. -/
structure ListEntry where
  payload : ByteString
  raw : Bool
  length_le : payload.length ≤ 65535

namespace ListEntry

/-- What `read_entry` reads: the length, the bytes of the header and the raw mark. -/
structure Header where
  length : ℕ
  headerBytes : ℕ
  raw : Bool

def readHeader (buffer : ByteString) : Header :=
  let code := (buffer.getD 0 0).toNat
  if code = 0x7f ∨ code = 0xff then
    ⟨(buffer.getD 1 0).toNat + 256 * (buffer.getD 2 0).toNat, 3, code = 0xff⟩
  else ⟨code % 128, 1, 128 ≤ code⟩

def Header.bytes (header : Header) : ℕ := header.headerBytes + header.length

def headerBytes (storedSize : ℕ) : ℕ := if storedSize ≤ 126 then 1 else 3

def entrySize (storedSize : ℕ) : ℕ := headerBytes storedSize + storedSize

/-- The header of an entry. -/
def writeHeader (storedSize : ℕ) (raw : Bool) : ByteString :=
  if storedSize ≤ 126 then [UInt8.ofNat (storedSize + if raw then 0x80 else 0)]
  else
    [if raw then 0xff else 0x7f, UInt8.ofNat (storedSize % 256), UInt8.ofNat (storedSize / 256)]

/-- `write_entry`. -/
def write (entry : ListEntry) : ByteString :=
  writeHeader entry.payload.length entry.raw ++ entry.payload

theorem readHeader_length_le {buffer : ByteString} : (readHeader buffer).length ≤ 65535 := by
  have hlow := (buffer.getD 1 0).toNat_lt
  have hhigh := (buffer.getD 2 0).toNat_lt
  unfold readHeader
  dsimp only
  split
  · dsimp only
    omega
  · dsimp only
    omega

def read (buffer : ByteString) : ListEntry where
  payload := (buffer.drop (readHeader buffer).headerBytes).take (readHeader buffer).length
  raw := (readHeader buffer).raw
  length_le := le_trans (length_take_le _ _) readHeader_length_le

/-- `view_entry`: a raw entry is read behind the prefix it was stored without. -/
def view (entry : ListEntry) (encodingEnabled : Bool) : EncodedStringView :=
  if entry.raw && encodingEnabled then ⟨[0xff], entry.payload, true⟩
  else ⟨entry.payload, [], encodingEnabled⟩

variable {storedSize : ℕ}

theorem length_writeHeader {raw : Bool} :
    (writeHeader storedSize raw).length = headerBytes storedSize := by
  unfold writeHeader headerBytes
  split <;> rfl

theorem length_write (entry : ListEntry) : entry.write.length = entrySize entry.payload.length := by
  rw [write, length_append, length_writeHeader, entrySize]

theorem readHeader_writeHeader (hle : storedSize ≤ 65535) (raw : Bool) (rest : ByteString) :
    readHeader (writeHeader storedSize raw ++ rest) =
      ⟨storedSize, headerBytes storedSize, raw⟩ := by
  unfold writeHeader headerBytes readHeader
  by_cases hshort : storedSize ≤ 126
  · rw [if_pos hshort, if_pos hshort]
    cases raw with
    | true =>
      rw [if_neg (by simp; omega)]
      simp
      omega
    | false =>
      rw [if_neg (by simp; omega)]
      simp
      omega
  · rw [if_neg hshort, if_neg hshort]
    have hlow : (UInt8.ofNat (storedSize % 256)).toNat = storedSize % 256 :=
      UInt8.toNat_ofNat_of_lt' (mod_lt _ (by decide))
    have hhigh := UInt8.toNat_ofNat_of_lt' (by omega : storedSize / 256 < 256)
    simp only [cons_append, getD_cons_zero, getD_cons_succ, hlow, hhigh, mod_add_div]
    cases raw <;> rfl

theorem readHeader_write (entry : ListEntry) (rest : ByteString) :
    readHeader (entry.write ++ rest)
      = ⟨entry.payload.length, headerBytes entry.payload.length, entry.raw⟩ := by
  rw [write, append_assoc, readHeader_writeHeader entry.length_le]

theorem ext_payload {entry other : ListEntry} (hpayload : entry.payload = other.payload)
    (hraw : entry.raw = other.raw) : entry = other := by
  cases entry
  congr

theorem read_write (entry : ListEntry) (rest : ByteString) :
    read (entry.write ++ rest) = entry := by
  have hheader := entry.readHeader_write rest
  apply ext_payload
  · change List.take _ (List.drop _ _) = _
    rw [hheader, write, append_assoc, drop_left' length_writeHeader, take_left]
  · change (readHeader _).raw = _
    rw [hheader]

/-- Entries tell their own size. -/
def framing : Framing ListEntry UInt8 where
  write := write
  read := read
  size := fun buffer ↦ (readHeader buffer).bytes
  read_write := read_write
  size_write := by
    intro entry rest
    rw [readHeader_write, length_write]
    rfl

end ListEntry

/-- The buffer and the header's count; the header's length is that of the buffer.  A listpack
without a buffer has no entries. -/
structure ListListpack where
  count : ℕ := 0
  entries : ByteString := []

namespace ListListpack

open ListEntry

def headerBytes : ℕ := 8

def maxValueBytes : ℕ := 65535

def maxBlobBytes : ℕ := headerBytes + maxValueBytes + 3

/-- Where an entry starts. -/
def offsetOf (pack : ListListpack) (index : ℕ) : ℕ := framing.offsetOf pack.entries index

def entryAt (pack : ListListpack) (index : ℕ) : ListEntry :=
  ListEntry.read (pack.entries.drop (pack.offsetOf index))

section Changes

variable (lz4 : Lz4) (options : StringEncodingOptions) (compression : StringCompressionMode)

/-- What is stored of an encoded string: a raw one loses the prefix. -/
def stored (encoded : EncodedString) : ByteString :=
  encoded.writeTo.drop (if encoded.isRaw && options.encodingEnabled then 1 else 0)

variable (pack : ListListpack)

/-- `insert_prepared`; `none` when it returns false. -/
def insertPrepared (index : ℕ) (payload : ByteString) (raw : Bool)
    (maxEntries : ℕ) : Option ListListpack :=
  if h : payload.length ≤ maxValueBytes then
    if maxEntries < pack.count + 1 ∨
        maxBlobBytes < headerBytes + pack.entries.length + entrySize payload.length ∨
        pack.count = 65535 then none
    else
      let offset := pack.offsetOf index
      some ⟨pack.count + 1,
        pack.entries.take offset ++ write ⟨payload, raw, h⟩ ++ pack.entries.drop offset⟩
  else none

def insert (index : ℕ) (value : ByteString) (maxEntries : ℕ) :
    Except String (Option ListListpack) := do
  let encoded ← encode lz4 options compression value
  pure (pack.insertPrepared index (stored options encoded) encoded.isRaw maxEntries)

/-- The first loop of `assign`: the entries of the values, or `none` when it returns false. -/
def assignLoop : List ByteString → ℕ → Except String (Option (List ListEntry))
  | [], _ => pure (some [])
  | value :: rest, entriesLength => do
    let encoded ← encode lz4 options compression value
    let payload := stored options encoded
    if h : payload.length ≤ maxValueBytes then
      let entriesLength := entriesLength + entrySize payload.length
      if maxBlobBytes < headerBytes + entriesLength then pure none
      else
        let others ← assignLoop rest entriesLength
        pure (others.map fun others ↦ ⟨payload, encoded.isRaw, h⟩ :: others)
    else pure none

/-- `assign` to an empty listpack. -/
def assign (values : List ByteString) (maxEntries : ℕ) : Except String (Option ListListpack) :=
  if maxEntries < values.length ∨ 65535 < values.length then pure none
  else do
    let entries ← assignLoop lz4 options compression values 0
    pure (entries.map fun entries ↦ ⟨entries.length, framing.concat entries⟩)

/-- `set_prepared`: an entry with the same header is overwritten in place. -/
def setPrepared (index : ℕ) (payload : ByteString) (raw : Bool) : Option ListListpack :=
  if h : payload.length ≤ maxValueBytes then
    let offset := pack.offsetOf index
    let old := readHeader (pack.entries.drop offset)
    let projected := pack.entries.length - old.bytes + entrySize payload.length
    if maxBlobBytes < headerBytes + projected then none
    else if old.length = payload.length ∧ old.raw = raw ∧
        old.headerBytes = ListEntry.headerBytes payload.length then
      some { pack with entries := pack.entries.take (offset + old.headerBytes) ++ payload ++
        pack.entries.drop (offset + old.headerBytes + payload.length) }
    else
      some { pack with entries := pack.entries.take offset ++ write ⟨payload, raw, h⟩ ++
        pack.entries.drop (offset + old.bytes) }
  else none

def set (index : ℕ) (value : ByteString) : Except String (Option ListListpack) := do
  let encoded ← encode lz4 options compression value
  pure (pack.setPrepared index (stored options encoded) encoded.isRaw)

/-- `erase_range_at`: without entries there is no buffer. -/
def eraseRangeAt (offset bytes count : ℕ) : ListListpack :=
  if pack.entries.length - bytes = 0 then {}
  else ⟨pack.count - count, pack.entries.take offset ++ pack.entries.drop (offset + bytes)⟩

def erase (index : ℕ) : Except String (ByteString × ListListpack) := do
  let offset := pack.offsetOf index
  let removed ← ((pack.entryAt index).view options.encodingEnabled).toString lz4
  pure (removed, pack.eraseRangeAt offset (readHeader (pack.entries.drop offset)).bytes 1)

/-- The loop that adds up the bytes of so many entries from an offset on. -/
def removedBytes (offset : ℕ) : ℕ → ℕ
  | 0 => 0
  | count + 1 =>
    let bytes := removedBytes offset count
    bytes + (readHeader (pack.entries.drop (offset + bytes))).bytes

def eraseRange (first count : ℕ) : ListListpack :=
  if pack.count ≤ first ∨ count = 0 then pack
  else
    let removedCount := min count (pack.count - first)
    let offset := pack.offsetOf first
    pack.eraseRangeAt offset (pack.removedBytes offset removedCount) removedCount

/-- `concat`; `none` when it returns false. -/
def concat (pack other : ListListpack) (maxEntries : ℕ) : Option ListListpack :=
  if maxEntries < pack.count + other.count ∨ 65535 < pack.count + other.count ∨
      maxBlobBytes < headerBytes + (pack.entries.length + other.entries.length) then none
  else if other.count = 0 then some pack
  else if pack.count = 0 then some other
  else some ⟨pack.count + other.count, pack.entries ++ other.entries⟩

end Changes

section Reads

variable (lz4 : Lz4) (options : StringEncodingOptions)

variable (pack : ListListpack)

/-- The view of an entry: `at`. -/
def viewAt (index : ℕ) : EncodedStringView :=
  (pack.entryAt index).view options.encodingEnabled

def forEach : List EncodedStringView :=
  (framing.itemsFrom pack.entries 0 pack.count).map fun entry ↦ entry.view options.encodingEnabled

def forRange (first count : ℕ) : List EncodedStringView :=
  if pack.count ≤ first ∨ count = 0 then []
  else
    (framing.itemsFrom pack.entries (pack.offsetOf first)
      (min pack.count (first + count) - first)).map fun entry ↦ entry.view options.encodingEnabled

/-- The loop of `find_first` over the entries that are left, at an index. -/
def findFirstLoop (value : ByteString) : ℕ → List ListEntry → Except String (Option ℕ)
  | _, [] => pure none
  | index, entry :: rest => do
    if ← (entry.view options.encodingEnabled).equals lz4 value then pure (some index)
    else findFirstLoop value (index + 1) rest

def findFirst (value : ByteString) (first : ℕ) : Except String (Option ℕ) :=
  if pack.count ≤ first then pure none
  else
    findFirstLoop lz4 options value first
      (framing.itemsFrom pack.entries (pack.offsetOf first) (pack.count - first))

/-- The loop of `find_last`, which keeps the latest match. -/
def findLastLoop (value : ByteString) : ℕ → List ListEntry → Option ℕ → Except String (Option ℕ)
  | _, [], result => pure result
  | index, entry :: rest, result => do
    if ← (entry.view options.encodingEnabled).equals lz4 value then
      findLastLoop value (index + 1) rest (some index)
    else findLastLoop value (index + 1) rest result

def findLast (value : ByteString) (stop : ℕ) : Except String (Option ℕ) :=
  findLastLoop lz4 options value 0 (framing.itemsFrom pack.entries 0 (min stop pack.count)) none

end Reads

/-! ## What a listpack holds -/

variable {lz4 : Lz4} {options : StringEncodingOptions} {compression : StringCompressionMode}

variable (lz4 options) in
/-- An entry that reads as a text. -/
def Reads (entry : ListEntry) (text : ByteString) : Prop :=
  Faithful lz4 (entry.view options.encodingEnabled) text

variable (lz4 options) in
/-- A buffer of entries that read as the values. -/
def Holds (pack : ListListpack) (values : List ByteString) : Prop :=
  ∃ items : List ListEntry, pack = ⟨items.length, framing.concat items⟩ ∧
    List.Forall₂ (Reads lz4 options) items values

variable (lz4 options compression) in
/-- A value that is encoded, and reads back. -/
def Storable (value : ByteString) : Prop :=
  (∃ encoded, encode lz4 options compression value = .ok encoded) ∧
    RoundTrips lz4 options compression value

variable {encoded : EncodedString} {value : ByteString}

section

variable (henc : encode lz4 options compression value = .ok encoded)
include henc

theorem view_stored (hle : (stored options encoded).length ≤ 65535) :
    ∃ head tail, head ++ tail = encoded.writeTo ∧
      ListEntry.view ⟨stored options encoded, encoded.isRaw, hle⟩ options.encodingEnabled
        = ⟨head, tail, options.encodingEnabled⟩ := by
  cases hen : options.encodingEnabled with
  | false =>
    refine ⟨stored options encoded, [], ?_, by simp [view]⟩
    simp [stored, hen]
  | true =>
    cases hraw : encoded.isRaw with
    | false =>
      refine ⟨stored options encoded, [], ?_, by simp [view]⟩
      simp [stored, hraw]
    | true =>
      refine ⟨[0xff], stored options encoded, ?_, by simp [view]⟩
      -- With the encoding enabled, what is raw was written behind the prefix.
      have hwritten : encoded.writeTo = 0xff :: value := by
        rcases encode_cases hen henc with ⟨hcooked, -⟩ | ⟨-, hwritten⟩
        · exact absurd (hraw.symm.trans hcooked) (by decide)
        · exact hwritten
      simp [stored, hen, hraw, hwritten]

section

variable (hround : RoundTrips lz4 options compression value)
include hround

theorem reads_stored (hle : (stored options encoded).length ≤ 65535) :
    Reads lz4 options ⟨stored options encoded, encoded.isRaw, hle⟩ value := by
  obtain ⟨head, tail, hbytes, hview⟩ := view_stored henc hle
  rw [Reads, hview]
  exact hround encoded henc head tail hbytes

/-- What is stored of a value fits an entry. -/
theorem length_stored_le : (stored options encoded).length ≤ maxValueBytes := by
  have hvalid := (hround encoded henc encoded.writeTo [] (append_nil _)).valid
  have hsize : encoded.writeTo.length ≤ 65535 := by
    have hencoded : EncodedStringView.encodedSize ⟨encoded.writeTo, [], options.encodingEnabled⟩
        = encoded.writeTo.length := rfl
    unfold EncodedStringView.valid at hvalid
    rw [hencoded] at hvalid
    split at hvalid
    · simpa using hvalid
    · split at hvalid
      · cases hvalid
      · omega
  refine le_trans ?_ hsize
  rw [stored, length_drop]
  exact sub_le _ _

theorem entrySize_stored_le : entrySize (stored options encoded).length ≤ 65538 := by
  have hle := length_stored_le henc hround
  unfold entrySize ListEntry.headerBytes
  unfold maxValueBytes at hle
  split <;> omega

end

end

theorem not_storable {message : String}
    (henc : encode lz4 options compression value = .error message) :
    ¬Storable lz4 options compression value := by
  rintro ⟨⟨encoded, hok⟩, -⟩
  cases henc.symm.trans hok

section

variable {pack : ListListpack} {values : List ByteString}

theorem Holds.count_eq (h : Holds lz4 options pack values) : pack.count = values.length := by
  obtain ⟨items, rfl, hreads⟩ := h
  exact hreads.length_eq

theorem holds_empty : Holds lz4 options {} [] := ⟨[], rfl, .nil⟩

variable {first count index maxEntries : ℕ} {items : List ListEntry} {value : ByteString}
  {pack' : ListListpack}

section

variable (h : Holds lz4 options pack values)
include h

/-- Rebuilding the buffer around a range of entries. -/
theorem Holds.splice (hcnt : first + count ≤ values.length) {others : List ByteString}
    (hitems : List.Forall₂ (Reads lz4 options) items others) :
    Holds lz4 options ⟨pack.count - count + items.length,
      pack.entries.take (pack.offsetOf first) ++ framing.concat items ++
        pack.entries.drop (pack.offsetOf (first + count))⟩
      (splice values first count others) := by
  obtain ⟨olds, rfl, hreads⟩ := h
  have holds : first + count ≤ olds.length := hreads.length_eq ▸ hcnt
  refine ⟨GoblinCore.splice olds first count items, ?_, splice_forall₂ hreads hitems⟩
  rw [length_splice holds, GoblinCore.splice, Framing.concat_append, Framing.concat_append]
  simp only [offsetOf]
  rw [Framing.take_offsetOf (by omega), Framing.drop_offsetOf holds]

theorem Holds.entryAt (hidx : index < values.length) :
    Reads lz4 options (pack.entryAt index) values[index] := by
  obtain ⟨items, rfl, hreads⟩ := h
  have hitem : index < items.length := hreads.length_eq ▸ hidx
  have hread : framing.read ((framing.concat items).drop
      (framing.offsetOf (framing.concat items) index)) = items[index] :=
    Framing.read_drop_offsetOf hitem
  change Reads lz4 options (framing.read ((framing.concat items).drop
    (framing.offsetOf (framing.concat items) index))) _
  rw [hread]
  exact hreads.get hitem hidx

/-- The header of an entry stands at its offset. -/
theorem Holds.take_header (hidx : index < values.length) {header : Header}
    (hheader : readHeader (pack.entries.drop (pack.offsetOf index)) = header) :
    pack.entries.take (pack.offsetOf index + header.headerBytes)
      = pack.entries.take (pack.offsetOf index) ++ writeHeader header.length header.raw := by
  obtain ⟨items, rfl, hreads⟩ := h
  have hitem : index < items.length := hreads.length_eq ▸ hidx
  simp only [offsetOf] at hheader ⊢
  rw [Framing.drop_offsetOf hitem.le, drop_eq_getElem_cons hitem, Framing.concat_cons] at hheader
  rw [show framing.write items[index] = write items[index] from rfl, readHeader_write] at hheader
  subst hheader
  rw [take_add, Framing.drop_offsetOf hitem.le, drop_eq_getElem_cons hitem,
    Framing.concat_cons, show framing.write items[index] = write items[index] from rfl, write,
    append_assoc, take_left' length_writeHeader]

/-! ### Changes -/

variable {payload : ByteString}

theorem Holds.insertPrepared (hidx : index ≤ values.length) {raw : Bool}
    (hread : ∀ hle, Reads lz4 options ⟨payload, raw, hle⟩ value)
    (hinsert : pack.insertPrepared index payload raw maxEntries = some pack') :
    Holds lz4 options pack' (GoblinCore.splice values index 0 [value]) ∧
      pack'.count ≤ maxEntries := by
  unfold ListListpack.insertPrepared at hinsert
  split at hinsert
  · rename_i hle
    split at hinsert
    · cases hinsert
    rename_i hroom
    cases hinsert
    have hsplice := h.splice (by omega : index + 0 ≤ values.length)
      (.cons (hread hle) .nil : List.Forall₂ (Reads lz4 options) [⟨payload, raw, hle⟩] [value])
    simp only [Framing.concat_cons, Framing.concat_nil, append_nil] at hsplice
    exact ⟨hsplice, by simp only [not_or] at hroom; dsimp only; omega⟩
  · cases hinsert

theorem Holds.setPrepared (hidx : index < values.length) {raw : Bool}
    (hread : ∀ hle, Reads lz4 options ⟨payload, raw, hle⟩ value)
    (hset : pack.setPrepared index payload raw = some pack') :
    Holds lz4 options pack' (GoblinCore.splice values index 1 [value]) ∧
      pack'.count = pack.count := by
  have hcnt := h.count_eq
  unfold ListListpack.setPrepared at hset
  split at hset
  · rename_i hle
    have hsplice := h.splice (by omega : index + 1 ≤ values.length)
      (.cons (hread hle) .nil : List.Forall₂ (Reads lz4 options) [⟨payload, raw, hle⟩] [value])
    have hkept : pack.count - 1 + [(⟨payload, raw, hle⟩ : ListEntry)].length = pack.count := by
      simp only [length_singleton]
      omega
    rw [hkept, Framing.concat_cons, Framing.concat_nil, append_nil] at hsplice
    dsimp only at hset
    split at hset
    · cases hset
    split at hset
    · rename_i hsame
      cases hset
      refine ⟨?_, rfl⟩
      obtain ⟨hlen, hraw, hbytes⟩ := hsame
      have hfront := h.take_header hidx rfl
      have hback : pack.offsetOf (index + 1)
          = pack.offsetOf index + (readHeader (pack.entries.drop (pack.offsetOf index))).bytes :=
        rfl
      rw [hback, show framing.write ⟨payload, raw, hle⟩ = write ⟨payload, raw, hle⟩ from rfl, write,
        ← append_assoc, ← hraw, ← hlen, ← hfront, Header.bytes, ← add_assoc] at hsplice
      rwa [← hlen]
    · cases hset
      exact ⟨hsplice, rfl⟩
  · cases hset

end

theorem write_ne_nil {entry : ListEntry} : entry.write ≠ [] := by
  rw [write, writeHeader]
  split <;> simp

theorem concat_eq_nil (h : framing.concat items = []) : items = [] := by
  cases items with
  | nil => rfl
  | cons item rest => exact absurd (append_eq_nil_iff.mp h).1 write_ne_nil

/-- Removing so many bytes at the offset of an index. -/
theorem Holds.eraseRangeAt (h : Holds lz4 options pack values) {bytes : ℕ}
    (hcnt : first + count ≤ values.length)
    (hbytes : pack.offsetOf first + bytes = pack.offsetOf (first + count)) :
    Holds lz4 options (pack.eraseRangeAt (pack.offsetOf first) bytes count)
      (GoblinCore.splice values first count []) := by
  have hsplice := h.splice hcnt (.nil : List.Forall₂ (Reads lz4 options) [] [])
  rw [Framing.concat_nil, append_nil, ← hbytes] at hsplice
  unfold ListListpack.eraseRangeAt
  split
  · obtain ⟨items, hpack, hreads⟩ := hsplice
    -- Nothing is left of the buffer, so that nothing is left of the list.
    have hnil : framing.concat items = [] := by
      have hents := (ListListpack.mk.inj hpack).2
      rw [← hents]
      have hend : pack.offsetOf first + bytes ≤ pack.entries.length := by
        rw [hbytes]
        obtain ⟨olds, rfl, holds⟩ := h
        simp only [offsetOf]
        rw [Framing.offsetOf_concat (holds.length_eq ▸ hcnt),
          ← Framing.concat_take_append_drop olds (first + count), length_append]
        exact le_add_right _ _
      rw [append_eq_nil_iff]
      constructor
      · rw [take_eq_nil_iff]
        exact Or.inl (by omega)
      · rw [drop_eq_nil_iff]
        omega
    obtain rfl := concat_eq_nil hnil
    rw [forall₂_nil_left_iff.mp hreads]
    exact holds_empty
  · exact hsplice

theorem Holds.erase (h : Holds lz4 options pack values) (hidx : index < values.length) :
    ∃ pack', pack.erase lz4 options index = .ok (values[index], pack') ∧
      Holds lz4 options pack' (GoblinCore.splice values index 1 []) := by
  have hread : EncodedStringView.toString ((pack.entryAt index).view options.encodingEnabled) lz4
      = .ok values[index] := (h.entryAt hidx).append []
  refine ⟨_, ?_, h.eraseRangeAt (by omega : index + 1 ≤ values.length) rfl⟩
  unfold ListListpack.erase
  rw [hread]
  rfl

theorem offsetOf_add_removedBytes :
    pack.offsetOf first + pack.removedBytes (pack.offsetOf first) count
      = pack.offsetOf (first + count) := by
  induction count with
  | zero => rfl
  | succ count ih =>
    rw [removedBytes, ← add_assoc, ih]
    rfl

section

variable (h : Holds lz4 options pack values)
include h

theorem Holds.eraseRange (hcnt : first + count ≤ values.length) :
    Holds lz4 options (pack.eraseRange first count) (GoblinCore.splice values first count []) := by
  unfold ListListpack.eraseRange
  split
  · rename_i hnothing
    rw [h.count_eq] at hnothing
    obtain rfl : count = 0 := by omega
    rwa [GoblinCore.splice, append_nil, add_zero, take_append_drop]
  · rw [h.count_eq, min_eq_left (by omega)]
    exact h.eraseRangeAt hcnt offsetOf_add_removedBytes

theorem Holds.concat {other : ListListpack} {others : List ByteString}
    (hoth : Holds lz4 options other others) (hconcat : pack.concat other maxEntries = some pack') :
    Holds lz4 options pack' (values ++ others) ∧ pack'.count ≤ maxEntries := by
  have hcnt := h.count_eq
  have hotherCount := hoth.count_eq
  unfold ListListpack.concat at hconcat
  split at hconcat
  · cases hconcat
  rename_i hroom
  simp only [not_or] at hroom
  split at hconcat
  · rename_i hzero
    cases hconcat
    obtain rfl := length_eq_zero_iff.mp (hotherCount.symm.trans hzero)
    rw [append_nil]
    exact ⟨h, by omega⟩
  · split at hconcat
    · rename_i hzero
      cases hconcat
      obtain rfl := length_eq_zero_iff.mp (hcnt.symm.trans hzero)
      exact ⟨hoth, by omega⟩
    · cases hconcat
      obtain ⟨items, rfl, hreads⟩ := h
      obtain ⟨otherItems, rfl, hotherReads⟩ := hoth
      refine ⟨⟨items ++ otherItems, ?_, rel_append hreads hotherReads⟩, ?_⟩
      · rw [length_append, Framing.concat_append]
      · exact Nat.le_of_not_lt hroom.1

/-- `insert` of a value that reads back: an empty listpack has room for it. -/
theorem Holds.insert (hidx : index ≤ values.length)
    (hround : RoundTrips lz4 options compression value) (hmax : 1 ≤ maxEntries) :
    Yields (pack.insert lz4 options compression index value maxEntries)
      (¬Storable lz4 options compression value) fun
      | some pack' => Storable lz4 options compression value ∧
          Holds lz4 options pack' (GoblinCore.splice values index 0 [value]) ∧
          pack'.count ≤ maxEntries
      | none => values ≠ [] := by
  unfold ListListpack.insert
  cases henc : encode lz4 options compression value with
  | error message => exact not_storable henc
  | ok encoded =>
    change Yields (pure (pack.insertPrepared _ _ _ _)) _ _
    cases hinsert : pack.insertPrepared index (stored options encoded) encoded.isRaw maxEntries with
    | some pack' =>
      exact ⟨⟨⟨encoded, henc⟩, hround⟩, h.insertPrepared hidx (reads_stored henc hround) hinsert⟩
    | none =>
      rintro rfl
      have hsize := entrySize_stored_le henc hround
      obtain ⟨items, rfl, hreads⟩ := h
      cases hreads
      rw [ListListpack.insertPrepared, dif_pos (length_stored_le henc hround), if_neg] at hinsert
      · cases hinsert
      · simp only [not_or, length_nil]
        unfold maxBlobBytes headerBytes maxValueBytes
        exact ⟨by omega, by simp; omega, by decide⟩

theorem Holds.set (hidx : index < values.length)
    (hround : RoundTrips lz4 options compression value) :
    Yields (pack.set lz4 options compression index value) (¬Storable lz4 options compression value)
      fun replaced ↦ ∀ pack', replaced = some pack' → Storable lz4 options compression value ∧
        Holds lz4 options pack' (GoblinCore.splice values index 1 [value]) ∧
        pack'.count = pack.count := by
  unfold ListListpack.set
  cases henc : encode lz4 options compression value with
  | error message => exact not_storable henc
  | ok encoded =>
    intro pack' hset
    exact ⟨⟨⟨encoded, henc⟩, hround⟩, h.setPrepared hidx (reads_stored henc hround) hset⟩

end

/-! ### Building -/

section

variable (hround : ∀ value ∈ values, RoundTrips lz4 options compression value)
include hround

/-- The loop stops at a value that is not encoded or has no room left.  The first one always has
room. -/
theorem assignLoop_spec (entriesLength : ℕ) :
    Yields (assignLoop lz4 options compression values entriesLength)
      (¬∀ value ∈ values, Storable lz4 options compression value) fun
      | some items => (∀ value ∈ values, Storable lz4 options compression value) ∧
          List.Forall₂ (Reads lz4 options) items values
      | none => values ≠ [] ∧ (entriesLength = 0 → 1 < values.length) := by
  induction values generalizing entriesLength with
  | nil => exact ⟨by simp, .nil⟩
  | cons value rest ih =>
    obtain ⟨hval, hrest⟩ := forall_mem_cons.mp hround
    rw [assignLoop, forall_mem_cons]
    cases henc : encode lz4 options compression value with
    | error message => exact fun hall ↦ not_storable henc hall.1
    | ok encoded =>
      have hle := length_stored_le henc hval
      have hsize := entrySize_stored_le henc hval
      change Yields (dite _ _ _) _ _
      rw [dif_pos hle]
      dsimp only
      split
      · refine ⟨cons_ne_nil _ _, fun hzero ↦ ?_⟩
        unfold maxBlobBytes headerBytes maxValueBytes at *
        omega
      refine (ih hrest _).bind (fun hrefused hall ↦ hrefused hall.2) fun others hoths ↦ ?_
      cases others with
      | none => exact ⟨cons_ne_nil _ _, fun _ ↦ by simpa using length_pos_iff.mpr hoths.1⟩
      | some items =>
        exact ⟨⟨⟨⟨encoded, henc⟩, hval⟩, hoths.1⟩, .cons (reads_stored henc hval hle) hoths.2⟩

/-- `assign` of values that read back. -/
theorem assign_spec (hmax : 1 ≤ maxEntries) :
    Yields (assign lz4 options compression values maxEntries)
      (¬∀ value ∈ values, Storable lz4 options compression value) fun
      | some pack' => (∀ value ∈ values, Storable lz4 options compression value) ∧
          Holds lz4 options pack' values ∧ pack'.count ≤ maxEntries
      | none => 1 < values.length := by
  unfold assign
  split
  · change 1 < values.length
    omega
  refine (assignLoop_spec hround 0).bind id fun items hitems ↦ ?_
  cases items with
  | none => exact hitems.2 rfl
  | some items =>
    refine ⟨hitems.1, ⟨items, rfl, hitems.2⟩, ?_⟩
    dsimp only
    rw [hitems.2.length_eq]
    omega

end

/-! ### Reads -/

section

variable (h : Holds lz4 options pack values)
include h

theorem Holds.viewAt (hidx : index < values.length) :
    Faithful lz4 (pack.viewAt options index) values[index] :=
  h.entryAt hidx

theorem Holds.itemsFrom (hcnt : first + count ≤ values.length) :
    List.Forall₂ (Reads lz4 options)
      (framing.itemsFrom pack.entries (pack.offsetOf first) count)
      ((values.drop first).take count) := by
  obtain ⟨items, rfl, hreads⟩ := h
  simp only [offsetOf]
  rw [Framing.itemsFrom_offsetOf (hreads.length_eq ▸ hcnt)]
  exact forall₂_take count (forall₂_drop first hreads)

theorem Holds.forRange (first count : ℕ) :
    List.Forall₂ (Faithful lz4) (pack.forRange options first count)
      ((values.drop first).take count) := by
  have hcnt := h.count_eq
  unfold ListListpack.forRange
  split
  · rename_i hnothing
    rcases hnothing with hpast | rfl
    · rw [drop_eq_nil_of_le (by omega), take_nil]
      exact .nil
    · exact .nil
  · have hwithin : first + (min pack.count (first + count) - first) ≤ values.length := by omega
    have htake : (values.drop first).take (min pack.count (first + count) - first)
        = (values.drop first).take count := by
      rw [take_eq_take_iff, length_drop]
      omega
    rw [← htake, forall₂_map_left_iff]
    exact h.itemsFrom hwithin

theorem Holds.forEach : List.Forall₂ (Faithful lz4) (pack.forEach options) values := by
  have hitems := h.itemsFrom (by omega : 0 + values.length ≤ values.length)
  rw [drop_zero, take_length] at hitems
  unfold ListListpack.forEach
  rw [forall₂_map_left_iff, h.count_eq]
  exact hitems

end

end

/-- The first index from one on that has a value. -/
def IsFirst (values : List ByteString) (value : ByteString) (first : ℕ) : Option ℕ → Prop
  | some index => first ≤ index ∧ values[index]? = some value ∧
      ∀ other, first ≤ other → other < index → values[other]? ≠ some value
  | none => ∀ other, first ≤ other → values[other]? ≠ some value

/-- The last index before one that has a value. -/
def IsLast (values : List ByteString) (value : ByteString) (stop : ℕ) : Option ℕ → Prop
  | some index => index < stop ∧ values[index]? = some value ∧
      ∀ other, index < other → other < stop → values[other]? ≠ some value
  | none => ∀ other, other < stop → values[other]? ≠ some value

section

variable {pack : ListListpack} {values : List ByteString} {value : ByteString}

variable {found : Option ℕ} {index : ℕ} {items : List ListEntry}

/-- A search from further on, with nothing in between. -/
theorem IsFirst.lower {first next : ℕ} (h : IsFirst values value next found) (hle : first ≤ next)
    (hnone : ∀ other, first ≤ other → other < next → values[other]? ≠ some value) :
    IsFirst values value first found := by
  cases found with
  | none =>
    intro other hfst
    rcases lt_or_ge other next with hlt | hge
    · exact hnone other hfst hlt
    · exact h other hge
  | some index =>
    have hnext : next ≤ index := h.1
    refine ⟨by omega, h.2.1, fun other hfst hidx ↦ ?_⟩
    rcases lt_or_ge other next with hlt | hge
    · exact hnone other hfst hlt
    · exact h.2.2 other hge hidx

/-- A search up to further on, with nothing in between. -/
theorem IsLast.raise {stop next : ℕ} (h : IsLast values value stop found) (hle : stop ≤ next)
    (hnone : ∀ other, stop ≤ other → other < next → values[other]? ≠ some value) :
    IsLast values value next found := by
  cases found with
  | none =>
    intro other hnext
    rcases lt_or_ge other stop with hlt | hge
    · exact h other hlt
    · exact hnone other hge hnext
  | some index =>
    have hidx : index < stop := h.1
    refine ⟨by omega, h.2.1, fun other hoth hnext ↦ ?_⟩
    rcases lt_or_ge other stop with hlt | hge
    · exact h.2.2 other hoth hlt
    · exact hnone other hge hnext

theorem ne_at (hidx : index < values.length) (hne : value ≠ values[index]) :
    ∀ other, index ≤ other → other < index + 1 → values[other]? ≠ some value := by
  intro other hle hlt
  obtain rfl : other = index := by omega
  rw [getElem?_eq_getElem hidx]
  exact fun hsome ↦ hne (Option.some.inj hsome).symm

theorem findFirstLoop_spec (hreads : List.Forall₂ (Reads lz4 options) items (values.drop index)) :
    ∃ found, findFirstLoop lz4 options value index items = .ok found ∧
      IsFirst values value index found := by
  induction items generalizing index with
  | nil =>
    refine ⟨none, rfl, fun other hle ↦ ?_⟩
    have hlen : values.length ≤ index := drop_eq_nil_iff.mp (by simpa using hreads)
    rw [getElem?_eq_none (by omega)]
    simp
  | cons entry rest ih =>
    have hidx : index < values.length := by
      by_contra hpast
      rw [drop_eq_nil_of_le (by omega)] at hreads
      cases hreads
    rw [drop_eq_getElem_cons hidx, forall₂_cons] at hreads
    have hequals := hreads.1.equals value
    rw [findFirstLoop, hequals]
    by_cases heq : value = values[index]
    · rw [decide_eq_true heq]
      refine ⟨some index, rfl, le_refl _, ?_, fun other hle hlt ↦ absurd hlt (by omega)⟩
      rw [getElem?_eq_getElem hidx, heq]
    · rw [decide_eq_false heq]
      obtain ⟨found, hloop, hfnd⟩ := ih hreads.2
      exact ⟨found, hloop, hfnd.lower (le_succ index) (ne_at hidx heq)⟩

theorem Holds.findFirst (h : Holds lz4 options pack values) (value : ByteString) (first : ℕ) :
    ∃ found, pack.findFirst lz4 options value first = .ok found ∧
      IsFirst values value first found := by
  unfold ListListpack.findFirst
  rw [h.count_eq]
  split
  · refine ⟨none, rfl, fun other hle ↦ ?_⟩
    rw [getElem?_eq_none (by omega)]
    simp
  · have hitems := h.itemsFrom (by omega : first + (values.length - first) ≤ values.length)
    rw [take_of_length_le (by simp)] at hitems
    exact findFirstLoop_spec hitems

theorem findLastLoop_spec {result : Option ℕ} (hres : IsLast values value index result)
    (hreads : List.Forall₂ (Reads lz4 options) items ((values.drop index).take items.length)) :
    ∃ found, findLastLoop lz4 options value index items result = .ok found ∧
      IsLast values value (index + items.length) found := by
  induction items generalizing index result with
  | nil => exact ⟨result, rfl, hres⟩
  | cons entry rest ih =>
    have hidx : index < values.length := by
      by_contra hpast
      rw [drop_eq_nil_of_le (by omega)] at hreads
      cases hreads
    rw [drop_eq_getElem_cons hidx, length_cons, take_succ_cons, forall₂_cons] at hreads
    have hequals := hreads.1.equals value
    rw [findLastLoop, hequals, length_cons, add_comm rest.length 1, ← add_assoc]
    by_cases heq : value = values[index]
    · rw [decide_eq_true heq]
      refine ih ⟨lt_succ_self _, ?_, fun other hlt hstop ↦ absurd hstop (by omega)⟩ hreads.2
      rw [getElem?_eq_getElem hidx, heq]
    · rw [decide_eq_false heq]
      exact ih (hres.raise (le_succ index) (ne_at hidx heq)) hreads.2

theorem Holds.findLast (h : Holds lz4 options pack values) (value : ByteString) {stop : ℕ}
    (hstop : stop ≤ values.length) :
    ∃ found, pack.findLast lz4 options value stop = .ok found ∧ IsLast values value stop found := by
  unfold ListListpack.findLast
  rw [h.count_eq, min_eq_left hstop]
  have hitems := h.itemsFrom (by omega : 0 + stop ≤ values.length)
  have hlength : (framing.itemsFrom pack.entries 0 stop).length = stop := by
    have hlen := hitems.length_eq
    simp only [drop_zero, length_take, min_eq_left hstop] at hlen
    exact hlen
  have hnone : IsLast values value 0 none := fun other hlt ↦ absurd hlt (by omega)
  have hspec : ∃ found,
    findLastLoop lz4 options value 0 (framing.itemsFrom pack.entries 0 stop) none
      = .ok found ∧ IsLast values value
        (0 + (framing.itemsFrom pack.entries 0 stop).length) found := by
    refine findLastLoop_spec hnone ?_
    rw [hlength]
    exact hitems
  rwa [hlength, zero_add] at hspec

end

end ListListpack

end GoblinCore
