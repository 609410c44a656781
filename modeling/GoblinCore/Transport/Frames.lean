import GoblinCore.Foundation.Framing
import GoblinCore.Store.Keyspace

/-!
# The frames of the libfabric transport

A frame is a header of forty bytes and the payload whose length the header tells.
-/

namespace GoblinCore.Transport

open List

/-- An unsigned integer of so many bytes. -/
abbrev Word (width : ℕ) := Fin (256 ^ width)

variable {width offset : ℕ} {bytes payload : Bytes}

def put (word : Word width) : Bytes := toBytes width word

def get (bytes : Bytes) (offset width : ℕ) : Word width where
  val := ofBytes ((bytes.drop offset).take width)
  isLt := (ofBytes_lt _).trans_le (Nat.pow_le_pow_right (by decide) (length_take_le _ _))

theorem get_eq {word : Word width} (h : (bytes.drop offset).take width = put word) :
    get bytes offset width = word :=
  Fin.ext ((congrArg ofBytes h).trans (ofBytes_toBytes word.isLt))

theorem drop_eq (h : offset + width ≤ bytes.length) :
    bytes.drop offset = put (get bytes offset width) ++ bytes.drop (offset + width) := by
  have hlength : ((bytes.drop offset).take width).length = width := by
    rw [length_take_of_le (by rw [length_drop]; omega)]
  have hput := toBytes_ofBytes ((bytes.drop offset).take width)
  rw [hlength] at hput
  rw [put, get, hput, ← drop_drop, take_append_drop]

/-! ## Headers -/

inductive Kind where
  | hello
  | helloAck
  | data
  | ping
  | pong
  | goodbye
  | error
deriving DecidableEq

def Kind.code : Kind → Word 1
  | .hello => 1
  | .helloAck => 2
  | .data => 3
  | .ping => 4
  | .pong => 5
  | .goodbye => 6
  | .error => 7

def Kind.ofCode (code : Word 1) : Option Kind :=
  [hello, helloAck, data, ping, pong, goodbye, error].find? fun kind ↦ kind.code = code

structure Header where
  kind : Kind := .data
  flags : Word 1 := 0
  payloadBytes : Word 4 := 0
  sessionId : Word 8 := 0
  sequence : Word 8 := 0
  replyTo : Word 8 := 0

/-- The characters `GFA1`. -/
def magic : Bytes := [71, 70, 65, 49]

def version : Word 2 := 1

/-- A header with what the bytes behind the length hold, which nothing reads. -/
def Header.write (header : Header) (reserved : Word 4) : Bytes :=
  magic ++ (put version ++ (put header.kind.code ++ (put header.flags ++
    (put header.payloadBytes ++ (put reserved ++ (put header.sessionId ++
      (put header.sequence ++ put header.replyTo)))))))

def encodeHeader (header : Header) : Bytes := header.write 0

def decodeHeader (bytes : Bytes) : Option Header :=
  if bytes.length < 40 ∨ bytes.take 4 ≠ magic ∨ get bytes 4 2 ≠ version then none
  else
    match Kind.ofCode (get bytes 6 1) with
    | none => none
    | some kind =>
      let header : Header :=
        ⟨kind, get bytes 7 1, get bytes 8 4, get bytes 16 8, get bytes 24 8, get bytes 32 8⟩
      if (header.payloadBytes : ℕ) ≠ bytes.length - 40 then none else some header

theorem ofCode_eq_some_iff {code : Word 1} {kind : Kind} :
    Kind.ofCode code = some kind ↔ code = kind.code := by
  constructor
  · intro h
    simpa [eq_comm] using find?_some h
  · rintro rfl
    cases kind <;> rfl

theorem decodeHeader_write (header : Header) (reserved : Word 4) :
    decodeHeader (header.write reserved ++ payload) =
      if payload.length = header.payloadBytes then some header else none := by
  have hlength : (header.write reserved ++ payload).length = 40 + payload.length := by
    rw [length_append]
    rfl
  have hmagic : (header.write reserved ++ payload).take 4 = magic := rfl
  have hget (offset : ℕ) {width : ℕ} (word : Word width)
      (h : ((header.write reserved ++ payload).drop offset).take width = put word) :
      get (header.write reserved ++ payload) offset width = word := get_eq h
  rw [decodeHeader, hlength, hmagic, hget 4 version rfl, if_neg (by simp),
    hget 6 header.kind.code rfl, ofCode_eq_some_iff.mpr rfl, hget 7 header.flags rfl,
    hget 8 header.payloadBytes rfl, hget 16 header.sessionId rfl, hget 24 header.sequence rfl,
    hget 32 header.replyTo rfl]
  simp only [ne_eq, Nat.add_sub_cancel_left, ite_not, eq_comm]

/-- An encoded header is decoded with every payload of the length it tells, and what is decoded is
such a frame, whatever the reserved bytes hold. -/
theorem decodeHeader_eq_some_iff (header : Header) (bytes payload : Bytes) :
    (decodeHeader (encodeHeader header ++ payload) = some header ↔
      payload.length = header.payloadBytes) ∧
    (decodeHeader bytes = some header ↔ ∃ (reserved : Word 4) (payload : Bytes),
      payload.length = header.payloadBytes ∧ bytes = header.write reserved ++ payload) := by
  refine ⟨by simp [encodeHeader, decodeHeader_write], fun h ↦ ?_, ?_⟩
  · unfold decodeHeader at h
    split_ifs at h with hframe
    split at h
    · cases h
    rename_i kind hkind
    dsimp only at h
    split_ifs at h with hpayload
    cases h
    simp only [not_or, not_lt, not_not] at hframe hpayload
    obtain ⟨hlength, hmagic, hversion⟩ := hframe
    refine ⟨get bytes 12 4, bytes.drop 40, by rw [length_drop, hpayload], ?_⟩
    rw [Header.write, ← hmagic, ← hversion, ← ofCode_eq_some_iff.mp hkind]
    simp only [append_assoc]
    -- Each word is what stands before the next, from the last one to the first.
    rw [← drop_eq, ← drop_eq, ← drop_eq, ← drop_eq, ← drop_eq, ← drop_eq, ← drop_eq, ← drop_eq,
      take_append_drop]
    all_goals omega
  · rintro ⟨reserved, payload, hpayload, rfl⟩
    rw [decodeHeader_write, if_pos hpayload]

end GoblinCore.Transport
