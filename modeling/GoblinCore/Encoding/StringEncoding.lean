import GoblinCore.Foundation.Positional
import Mathlib.Data.List.GetD

/-!
# Stored string values

A string value is stored as an integer, a UUID, an LZ4 block, or as it is behind a prefix byte;
with the encoding disabled it is stored verbatim.  `EncodedString` chooses the form and writes the
bytes, and `EncodedStringView` reads them, from two pieces.

Every form is read back as it was written.  What is not exact is the parser of decimal numbers that
the integer forms rest on: it accumulates in 64 bits and recognises an overflow of twenty digits
only by a small result, so that some numbers beyond 64 bits are taken for others.
-/

namespace GoblinCore.StringEncoding

open Positional List

abbrev ByteString := List UInt8

/-! ## Options -/

/-- One word: the LZ4 threshold plus one, the compression selector, and the disabling bit. -/
structure StringEncodingOptions where
  packed : ℕ := 0

namespace StringEncodingOptions

variable (options : StringEncodingOptions)

def encodingEnabled : Bool := options.packed / 2 ^ 30 % 2 = 0

def lz4Enabled : Bool := options.encodingEnabled && options.packed % 2 ^ 25 ≠ 0

def lz4MinBytes : ℕ := if options.lz4Enabled then options.packed % 2 ^ 25 - 1 else 0

def lz4CompressLevel : ℤ :=
  let code : ℕ := options.packed / 2 ^ 25 % 2 ^ 5
  if code ≤ 8 then -(code : ℤ) else code - 6

def maxValueBytes : ℕ := if options.encodingEnabled then 65534 else 65535

end StringEncodingOptions

inductive StringCompressionMode where
  | allowLz4
  | neverLz4
deriving DecidableEq

/-- The compression library, which decompresses what it compressed. -/
structure Lz4 where
  compressBound : ℕ → ℕ
  compress : ℤ → ℕ → ByteString → Option ByteString
  decompress : ByteString → ℕ → Option ByteString
  compress_pos : ∀ level capacity source block,
    compress level capacity source = some block → 0 < block.length
  compress_le : ∀ level capacity source block,
    compress level capacity source = some block → block.length ≤ capacity
  decompress_compress : ∀ level capacity source block,
    compress level capacity source = some block → decompress block source.length = some source

/-! ## Decimal numbers -/

def isDigit (byte : UInt8) : Bool := 48 ≤ byte.toNat && byte.toNat ≤ 57

def digitOf (byte : UInt8) : ℕ := byte.toNat - 48

/-- `parse_u64`: the whole text is consumed, the number is accumulated modulo 2^64, and twenty
digits are refused when the result is below the least number of twenty digits. -/
def parseU64 (text : ByteString) : Option ℕ :=
  if text.head? = some 45 then none
  else
    let digits := text.dropWhile (· = 48)
    if digits.all isDigit then
      if digits = [] then if text = [] then none else some 0
      else
        let value := (digits.map digitOf).foldl (fun value digit ↦ (10 * value + digit) % 2 ^ 64) 0
        if 20 < digits.length then none
        else if digits.length = 20 ∧ value < 10 ^ 19 then none
        else some value
    else none

def parseCanonicalU64 (digits : ByteString) : Option ℕ :=
  if digits = [] ∨ (1 < digits.length ∧ digits.head? = some 48) then none
  else parseU64 digits

/-- The loop of `decimal_digits`; twenty digits are enough for 64 bits. -/
def decimalDigitsLoop : ℕ → ℕ → ℕ → ℕ
  | 0, digits, _ => digits
  | fuel + 1, digits, value =>
    if 10 ≤ value then decimalDigitsLoop fuel (digits + 1) (value / 10) else digits

def decimalDigits (value : ℕ) : ℕ := decimalDigitsLoop 19 1 value

/-- `std::to_chars`. -/
def toChars (value : ℕ) : ByteString :=
  (toDigits 10 (decimalDigits value) value).map fun digit ↦ UInt8.ofNat (48 + digit)

/-! ## Integers by width -/

def bigEndian (width value : ℕ) : ByteString := (toDigits 256 width value).map UInt8.ofNat

/-- The width and what is left of the offset, from a width on and with so many after it. -/
def widthForOffset : ℕ → ℕ → ℕ → ℕ × ℕ
  | 0, width, offset => (width, offset)
  | later + 1, width, offset =>
    if offset < 2 ^ (width * 8) then (width, offset)
    else widthForOffset later (width + 1) (offset - 2 ^ (width * 8))

/-- What the narrower widths cover: `positive_base` and `negative_base` without their first term. -/
def narrower (width : ℕ) : ℕ := ((List.range width).drop 1).foldl (fun base prior ↦
  base + 2 ^ (prior * 8)) 0

def positiveBase (width : ℕ) : ℕ := 128 + narrower width

def negativeBase (width : ℕ) : ℕ := 1 + narrower width

/-- A prefix that counts widths from a base, and the offset in that width. -/
def encodeOffset (base offset : ℕ) : ByteString :=
  let width := widthForOffset 7 1 offset
  UInt8.ofNat (base + width.1 - 1) :: bigEndian width.1 width.2

/-! ## UUIDs -/

def lowerHexNibble (byte : UInt8) : Option ℕ :=
  if 48 ≤ byte.toNat ∧ byte.toNat ≤ 57 then some (byte.toNat - 48)
  else if 97 ≤ byte.toNat ∧ byte.toNat ≤ 102 then some (byte.toNat - 97 + 10)
  else none

def lowerHex (value : ℕ) : UInt8 :=
  if value < 10 then UInt8.ofNat (48 + value) else UInt8.ofNat (97 + value - 10)

/-- Whether a dash belongs at this position of the text. -/
def dashAt (dashed : Bool) (position : ℕ) : Bool := dashed && [8, 13, 18, 23].contains position

/-- The loop of `encode_uuid` over the bytes that are left, at a position of the text. -/
def encodeUuidLoop (dashed : Bool) : ℕ → ℕ → ByteString → Option ByteString
  | 0, _, text => if text = [] then some [] else none
  | bytes + 1, position, text =>
    let skipped := if dashAt dashed position then 1 else 0
    if dashAt dashed position ∧ text.head? ≠ some 45 then none
    else
      match text.drop skipped with
      | high :: low :: rest => do
        let highNibble ← lowerHexNibble high
        let lowNibble ← lowerHexNibble low
        let tail ← encodeUuidLoop dashed bytes (position + skipped + 2) rest
        pure (UInt8.ofNat (highNibble * 16 + lowNibble) :: tail)
      | _ => none

def encodeUuid (value : ByteString) (dashed : Bool) : Option ByteString :=
  if value.length = (if dashed then 36 else 32) then encodeUuidLoop dashed 16 0 value else none

/-- The text of UUID bytes from a position on. -/
def decodeUuidLoop (dashed : Bool) : ℕ → ByteString → ByteString
  | _, [] => []
  | position, byte :: rest =>
    let skipped := if dashAt dashed position then 1 else 0
    (if dashAt dashed position then [45] else []) ++
      lowerHex (byte.toNat / 16) :: lowerHex (byte.toNat % 16) ::
        decodeUuidLoop dashed (position + skipped + 2) rest

/-! ## EncodedString -/

inductive Storage where
  | verbatim
  | raw
  | inlined (encoded : ByteString)
  | lz4 (encoded : ByteString)

structure EncodedString where
  source : ByteString
  storage : Storage

def EncodedString.isRaw (encoded : EncodedString) : Bool :=
  match encoded.storage with
  | .verbatim | .raw => true
  | .inlined _ | .lz4 _ => false

/-- `write_to`. -/
def EncodedString.writeTo (encoded : EncodedString) : ByteString :=
  match encoded.storage with
  | .verbatim => encoded.source
  | .raw => 0xff :: encoded.source
  | .inlined bytes => bytes
  | .lz4 bytes => bytes

/-- The integer form of a text that is a number in canonical decimal. -/
def encodeInteger (value : ByteString) : Option ByteString :=
  match parseCanonicalU64 value with
  | some magnitude =>
    if magnitude ≤ 127 then some [UInt8.ofNat magnitude]
    else some (encodeOffset 0x80 (magnitude - 128))
  | none =>
    if 1 < value.length ∧ value.head? = some 45 then
      match parseCanonicalU64 value.tail with
      | some magnitude =>
        if magnitude ≠ 0 then some (encodeOffset 0x88 (magnitude - 1)) else none
      | none => none
    else none

/-- The first characters look like a decimal number. -/
def maybeInt (value : ByteString) : Bool :=
  match value with
  | first :: rest => isDigit first || (first = 45 && (rest.head?.any isDigit))
  | [] => false

/-- The UUID form. -/
def encodeAsUuid (value : ByteString) : Option ByteString :=
  if value.length = 32 ∨ value.length = 36 then
    match encodeUuid value false with
    | some bytes => some (0x90 :: bytes)
    | none => (encodeUuid value true).map fun bytes ↦ 0x91 :: bytes
  else none

section Encoding

variable (lz4 : Lz4) (options : StringEncodingOptions) (compression : StringCompressionMode)

def mayCompress (value : ByteString) : Bool :=
  compression = .allowLz4 && options.lz4Enabled &&
    (options.lz4MinBytes ≤ value.length || 65534 < value.length)

/-- The LZ4 form: prefix, logical length in three bytes, block. -/
def encodeLz4 (value : ByteString) : Option ByteString :=
  if mayCompress options compression value ∧ value.length ≤ 0xFFFFFF then
    (lz4.compress options.lz4CompressLevel (min (lz4.compressBound value.length) (65535 - 4))
      value).map fun block ↦ 0xfe :: (bigEndian 3 value.length ++ block)
  else none

/-- The constructor of `EncodedString`; it throws `std::length_error`. -/
def encode (value : ByteString) : Except String EncodedString :=
  if !options.encodingEnabled then
    if 65535 < value.length then .error "verbatim string value too large (max 65,535 bytes)"
    else .ok ⟨value, .verbatim⟩
  else
    match if maybeInt value then encodeInteger value else none with
    | some bytes => .ok ⟨value, .inlined bytes⟩
    | none =>
      match encodeAsUuid value with
      | some bytes => .ok ⟨value, .inlined bytes⟩
      | none =>
        match encodeLz4 lz4 options compression value with
        | some bytes => .ok ⟨value, .lz4 bytes⟩
        | none =>
          if 65534 < value.length then
            .error (
              if 0xFFFFFF < value.length then
                "string value exceeds the 24-bit compressed logical length"
              else if options.lz4Enabled ∧ compression = .allowLz4 then
                "string value is neither LZ4-compressible nor raw-storable"
              else "string value too large (max 65,534 raw bytes)")
          else .ok ⟨value, .raw⟩

def stringValueFits (value : ByteString) : Bool :=
  if value.length ≤ options.maxValueBytes then true
  else
    match encode lz4 options compression value with
    | .ok _ => true
    | .error _ => false

end Encoding

/-! ## EncodedStringView -/

structure EncodedStringView where
  head : ByteString
  tail : ByteString
  encodingEnabled : Bool

namespace EncodedStringView

variable (view : EncodedStringView)

def encodedSize : ℕ := view.head.length + view.tail.length

def byteAt (index : ℕ) : UInt8 :=
  if index < view.head.length then view.head.getD index 0
  else view.tail.getD (index - view.head.length) 0

def tag : ℕ :=
  if !view.encodingEnabled || view.encodedSize = 0 then 0xff else (view.byteAt 0).toNat

def readBigEndian (offset width : ℕ) : ℕ :=
  ofDigits 256 ((List.range width).map fun index ↦ (view.byteAt (offset + index)).toNat)

def valid : Bool :=
  if !view.encodingEnabled then view.encodedSize ≤ 65535
  else if view.encodedSize = 0 ∨ 65535 < view.encodedSize then false
  else if view.tag ≤ 0x7f then view.encodedSize = 1
  else if view.tag < 0x90 then
    view.encodedSize = (if view.tag < 0x88 then view.tag - 0x80 + 1 else view.tag - 0x88 + 1) + 1
  else if view.tag = 0x90 ∨ view.tag = 0x91 then view.encodedSize = 17
  else if view.tag = 0xfe then 5 ≤ view.encodedSize && view.readBigEndian 1 3 ≤ 0xFFFFFF
  else view.tag = 0xff

/-- The number a view of an integer form stands for, by the width in its prefix. -/
def positiveValue : ℕ :=
  positiveBase (view.tag - 0x80 + 1) + view.readBigEndian 1 (view.tag - 0x80 + 1)

def negativeMagnitude : ℕ :=
  negativeBase (view.tag - 0x88 + 1) + view.readBigEndian 1 (view.tag - 0x88 + 1)

def size : ℕ :=
  if !view.encodingEnabled then view.encodedSize
  else if !view.valid then 0
  else if view.tag ≤ 0x7f then decimalDigits view.tag
  else if view.tag < 0x88 then decimalDigits view.positiveValue
  else if view.tag < 0x90 then 1 + decimalDigits view.negativeMagnitude
  else if view.tag = 0x90 then 32
  else if view.tag = 0x91 then 36
  else if view.tag = 0xfe then view.readBigEndian 1 3
  else view.encodedSize - 1

/-- How many bytes of a range the first piece has. -/
def fromHead (offset length : ℕ) : ℕ :=
  if offset < view.head.length then min length (view.head.length - offset) else 0

def copyRange (offset length : ℕ) : ByteString :=
  let fromHead := view.fromHead offset length
  (view.head.drop offset).take fromHead ++
    (view.tail.drop (offset + fromHead - view.head.length)).take (length - fromHead)

def rangeEquals (offset : ℕ) (logical : ByteString) : Bool :=
  let fromHead := view.fromHead offset logical.length
  if view.encodedSize < offset + logical.length then false
  else (view.head.drop offset).take fromHead = logical.take fromHead &&
    (view.tail.drop (offset + fromHead - view.head.length)).take (logical.length - fromHead)
      = logical.drop fromHead

/-- The LZ4 block: in the first piece, in the second, or copied together. -/
def block : ByteString :=
  if view.encodedSize ≤ view.head.length then view.head.drop 4
  else if view.head.length ≤ 4 then view.tail.drop (4 - view.head.length)
  else view.copyRange 4 (view.encodedSize - 4)

/-- `append_to`; it throws `std::runtime_error`. -/
def appendTo (lz4 : Lz4) (destination : ByteString) : Except String ByteString :=
  if !view.valid then .error "invalid stored string encoding"
  else if !view.encodingEnabled then .ok (destination ++ view.head ++ view.tail)
  else if view.tag = 0xff then .ok (destination ++ view.copyRange 1 (view.encodedSize - 1))
  else if view.tag ≤ 0x7f then .ok (destination ++ toChars view.tag)
  else if view.tag < 0x88 then .ok (destination ++ toChars view.positiveValue)
  else if view.tag < 0x90 then .ok (destination ++ 45 :: toChars view.negativeMagnitude)
  else if view.tag = 0x90 ∨ view.tag = 0x91 then
    .ok (destination ++ decodeUuidLoop (view.tag = 0x91) 0
      ((List.range 16).map fun byte ↦ view.byteAt (byte + 1)))
  else if view.size = 0 then .ok destination
  else
    match lz4.decompress view.block view.size with
    | some decoded => .ok (destination ++ decoded)
    | none => .error "invalid stored LZ4 string encoding"

def toString (lz4 : Lz4) : Except String ByteString := view.appendTo lz4 []

def equals (lz4 : Lz4) (logical : ByteString) : Except String Bool :=
  if !view.valid || view.size ≠ logical.length then .ok false
  else if !view.encodingEnabled then .ok (view.rangeEquals 0 logical)
  else if view.tag = 0xff then .ok (view.rangeEquals 1 logical)
  else (view.toString lz4).map fun text ↦ decide (text = logical)

end EncodedStringView

/-! ## Reading from two pieces -/

namespace EncodedStringView

variable {view : EncodedStringView}

/-- The bytes of both pieces. -/
def bytes (view : EncodedStringView) : ByteString := view.head ++ view.tail

theorem encodedSize_eq : view.encodedSize = view.bytes.length := by
  simp [encodedSize, bytes]

theorem byteAt_eq (index : ℕ) : view.byteAt index = view.bytes.getD index 0 := by
  unfold byteAt bytes
  split
  · rename_i hlt
    rw [getD_append _ _ _ _ hlt]
  · rw [getD_append_right _ _ _ _ (by omega)]

/-- A range is what the first piece has of it, and then the second. -/
theorem drop_take_eq {offset length : ℕ} :
    (view.head.drop offset).take (view.fromHead offset length) ++
      (view.tail.drop (offset + view.fromHead offset length - view.head.length)).take
        (length - view.fromHead offset length)
      = (view.bytes.drop offset).take length := by
  unfold fromHead bytes
  rw [drop_append, take_append, length_drop]
  split
  · have hzero : offset - view.head.length = 0 := by omega
    rw [hzero, drop_zero]
    rcases le_total length (view.head.length - offset) with hle | hge
    · rw [min_eq_left hle, Nat.sub_self, show length - (view.head.length - offset) = 0 by omega]
      simp
    · rw [min_eq_right hge,
        show offset + (view.head.length - offset) - view.head.length = 0 by omega, drop_zero]
      congr 1
      rw [take_of_length_le (by simp), take_of_length_le (by simp; omega)]
  · rw [drop_eq_nil_of_le (by omega : view.head.length ≤ offset)]
    simp [show view.head.length - offset = 0 by omega]

theorem copyRange_eq (offset length : ℕ) :
    view.copyRange offset length = (view.bytes.drop offset).take length :=
  drop_take_eq

theorem rangeEquals_eq (offset : ℕ) (logical : ByteString) :
    view.rangeEquals offset logical = true ↔
      offset + logical.length ≤ view.encodedSize ∧
        (view.bytes.drop offset).take logical.length = logical := by
  have hpiece : ((view.head.drop offset).take (view.fromHead offset logical.length)).length
      = (logical.take (view.fromHead offset logical.length)).length := by
    unfold fromHead
    split <;> simp
  have hrange : _ = (view.bytes.drop offset).take logical.length :=
    drop_take_eq
  unfold rangeEquals
  split
  · simp
    omega
  rename_i hfits
  rw [Bool.and_eq_true, decide_eq_true_eq, decide_eq_true_eq, ← hrange,
    and_iff_right (Nat.le_of_not_lt hfits)]
  constructor
  · intro hboth
    rw [hboth.1, hboth.2, take_append_drop]
  · intro hsame
    exact append_inj (hsame.trans (take_append_drop _ logical).symm) hpiece

theorem block_eq : view.block = view.bytes.drop 4 := by
  unfold block
  split
  · rename_i hhead
    have htail : view.tail = [] := by
      unfold encodedSize at hhead
      exact length_eq_zero_iff.mp (by omega)
    simp [bytes, htail]
  · split
    · rename_i hsmall
      rw [bytes, drop_append, drop_eq_nil_of_le hsmall, nil_append]
    · rw [copyRange_eq, encodedSize_eq]
      exact take_of_length_le (by simp)

theorem readBigEndian_eq {offset width : ℕ} (h : offset + width ≤ view.bytes.length) :
    view.readBigEndian offset width
      = ofDigits 256 (((view.bytes.drop offset).take width).map UInt8.toNat) := by
  unfold readBigEndian
  congr 1
  apply ext_getElem?
  intro index
  by_cases hlt : index < width
  · rw [getElem?_map, getElem?_range hlt, getElem?_map, getElem?_take_of_lt hlt,
      getElem?_drop, getElem?_eq_getElem (by omega : offset + index < view.bytes.length)]
    simp [byteAt_eq, getElem?_eq_getElem (by omega : offset + index < view.bytes.length)]
  · rw [getElem?_eq_none (by simp; omega), getElem?_eq_none (by simp; omega)]

end EncodedStringView

/-! ## Decimal numbers -/

theorem decimalDigitsLoop_eq {fuel digits value width : ℕ} (hlow : 10 ^ width ≤ value)
    (hhigh : value < 10 ^ (width + 1)) (hfuel : width ≤ fuel) :
    decimalDigitsLoop fuel digits value = digits + width := by
  induction fuel generalizing digits value width with
  | zero =>
    obtain rfl : width = 0 := by omega
    rfl
  | succ fuel ih =>
    rw [decimalDigitsLoop]
    cases width with
    | zero => rw [if_neg (by omega), Nat.add_zero]
    | succ width =>
      have hten : 10 ≤ value := by
        omega
      have hlowDiv : 10 ^ width ≤ value / 10 := by
        rw [Nat.le_div_iff_mul_le (by omega)]
        rwa [pow_succ] at hlow
      have hhighDiv : value / 10 < 10 ^ (width + 1) := by
        rw [Nat.div_lt_iff_lt_mul (by omega)]
        rwa [pow_succ] at hhigh
      rw [if_pos hten, ih hlowDiv hhighDiv (by omega)]
      omega

/-- A number of so many digits. -/
theorem decimalDigits_eq {value width : ℕ} (hlow : 10 ^ width ≤ value)
    (hhigh : value < 10 ^ (width + 1)) (hwidth : width < 20) : decimalDigits value = width + 1 := by
  rw [decimalDigits, decimalDigitsLoop_eq hlow hhigh (by omega), Nat.add_comm]

@[simp] theorem length_toChars (value : ℕ) : (toChars value).length = decimalDigits value := by
  simp [toChars]

/-- A decimal text without superfluous zeros. -/
structure Canonical (text : ByteString) : Prop where
  digits : text.all isDigit = true
  shortest : text.length = 1 ∨ ∃ first rest, text = first :: rest ∧ first ≠ 48

/-- The number a decimal text stands for. -/
def numeral (text : ByteString) : ℕ := ofDigits 10 (text.map digitOf)

variable {byte : UInt8} {magnitude : ℕ}

theorem digitOf_lt (h : isDigit byte = true) : digitOf byte < 10 := by
  simp only [isDigit, Bool.and_eq_true, decide_eq_true_eq] at h
  unfold digitOf
  omega

theorem digitByte_digitOf (h : isDigit byte = true) : UInt8.ofNat (48 + digitOf byte) = byte := by
  simp only [isDigit, Bool.and_eq_true, decide_eq_true_eq] at h
  rw [digitOf, Nat.add_sub_cancel' h.1, UInt8.ofNat_toNat]

variable {text : ByteString}

theorem numeral_lt (h : text.all isDigit = true) : numeral text < 10 ^ text.length := by
  have hlt : numeral text < 10 ^ (text.map digitOf).length := by
    refine ofDigits_lt fun digit hdigit ↦ ?_
    obtain ⟨byte, hbyte, rfl⟩ := mem_map.mp hdigit
    exact digitOf_lt (all_eq_true.mp h byte hbyte)
  rwa [length_map] at hlt

section

variable (h : Canonical text)
include h

/-- A canonical text has the number of digits of its number. -/
theorem Canonical.decimalDigits_numeral (hlen : text.length ≤ 20) :
    decimalDigits (numeral text) = text.length := by
  have hhigh := numeral_lt h.digits
  rcases h.shortest with hone | ⟨first, rest, rfl, hfst⟩
  · rw [hone] at hhigh ⊢
    rw [decimalDigits, decimalDigitsLoop, if_neg (by omega)]
  have hdigit : digitOf first ≠ 0 := by
    have hrange := all_eq_true.mp h.digits first (by simp)
    simp only [isDigit, Bool.and_eq_true, decide_eq_true_eq] at hrange
    have hne : first.toNat ≠ 48 := fun heq ↦ hfst (UInt8.toNat_inj.mp heq)
    unfold digitOf
    omega
  have hlow : 10 ^ (rest.map digitOf).length ≤ numeral (first :: rest) := le_ofDigits hdigit
  rw [length_map] at hlow
  have hshort : rest.length < 20 := Nat.lt_of_succ_le (by simpa using hlen)
  exact decimalDigits_eq hlow hhigh hshort

/-- Printing the number of a canonical text gives the text. -/
theorem Canonical.toChars_numeral (hlen : text.length ≤ 20) : toChars (numeral text) = text := by
  have hdigits : ∀ digit ∈ text.map digitOf, digit < 10 := by
    intro digit hdigit
    obtain ⟨byte, hbyte, rfl⟩ := mem_map.mp hdigit
    exact digitOf_lt (all_eq_true.mp h.digits byte hbyte)
  have hwidth : decimalDigits (numeral text) = (text.map digitOf).length := by
    rw [h.decimalDigits_numeral hlen, length_map]
  rw [toChars, hwidth, numeral, toDigits_ofDigits hdigits, map_map]
  refine (map_congr_left fun byte hbyte ↦ ?_).trans (map_id text)
  exact digitByte_digitOf (all_eq_true.mp h.digits byte hbyte)

/-- The text of a canonical number is scanned digit by digit. -/
theorem Canonical.dropWhile_eq (hzero : text ≠ [48]) : text.dropWhile (· = 48) = text := by
  rcases h.shortest with hone | ⟨first, rest, rfl, hfst⟩
  · obtain ⟨byte, rfl⟩ := length_eq_one_iff.mp hone
    have hne : byte ≠ 48 := fun heq ↦ hzero (by rw [heq])
    simp [List.dropWhile, hne]
  · simp [List.dropWhile, hfst]

theorem parseU64_eq :
    parseU64 text = if 20 < text.length then none
      else if text.length = 20 ∧ numeral text % 2 ^ 64 < 10 ^ 19 then none
      else some (numeral text % 2 ^ 64) := by
  have hsign : text.head? ≠ some 45 := by
    intro hhead
    have hdigit := all_eq_true.mp h.digits 45 (mem_of_mem_head? hhead)
    exact absurd hdigit (by decide)
  by_cases hzero : text = [48]
  · subst hzero
    decide
  have hne : text ≠ [] := by
    rintro rfl
    rcases h.shortest with hone | ⟨first, rest, hcons, -⟩
    · cases hone
    · cases hcons
  simp only [parseU64, if_neg hsign, h.dropWhile_eq hzero, h.digits, if_neg hne, if_true, foldl_mod]
  rfl

end

theorem canonical_of_parse (h : parseCanonicalU64 text = some magnitude) : Canonical text := by
  unfold parseCanonicalU64 at h
  split at h
  · cases h
  rename_i hshape
  rw [not_or, not_and] at hshape
  cases text with
  | nil => exact absurd rfl hshape.1
  | cons first rest =>
    by_cases hfst : first = 48
    · subst hfst
      have hrest : rest = [] := by
        by_contra hne
        have hpos := length_pos_iff.mpr hne
        exact hshape.2 (by simpa using hpos) rfl
      subst hrest
      exact ⟨by decide, .inl rfl⟩
    · refine ⟨?_, .inr ⟨first, rest, rfl, hfst⟩⟩
      unfold parseU64 at h
      have hdrop : (first :: rest).dropWhile (· = 48) = first :: rest := by
        simp [List.dropWhile, hfst]
      rw [hdrop] at h
      split at h
      · cases h
      · by_contra hdigits
        simp only [hdigits] at h
        cases h

theorem Canonical.parseCanonicalU64_eq (h : Canonical text) :
    parseCanonicalU64 text = parseU64 text := by
  unfold parseCanonicalU64
  rw [if_neg]
  rintro (rfl | ⟨hlong, hhead⟩)
  · rcases h.shortest with hone | ⟨first, rest, hcons, -⟩
    · cases hone
    · cases hcons
  · rcases h.shortest with hone | ⟨first, rest, rfl, hfst⟩
    · omega
    · exact hfst (by simpa using hhead)

/-- A text of twenty digits beyond 64 bits that the parser takes for another number. -/
structure Misread (text : ByteString) : Prop where
  canonical : Canonical text
  length : text.length = 20
  beyond : 2 ^ 64 ≤ numeral text
  accepted : 10 ^ 19 ≤ numeral text % 2 ^ 64

/-- What the parser returns for a text is its number, or the text is misread. -/
theorem parse_cases (h : parseCanonicalU64 text = some magnitude) :
    Canonical text ∧ text.length ≤ 20 ∧ magnitude = numeral text % 2 ^ 64 ∧
      (numeral text < 2 ^ 64 ∨ Misread text) := by
  have hcanonical := canonical_of_parse h
  rw [hcanonical.parseCanonicalU64_eq, parseU64_eq hcanonical] at h
  split_ifs at h with hlong hsmall
  cases h
  have hlt := numeral_lt hcanonical.digits
  refine ⟨hcanonical, by omega, rfl, ?_⟩
  by_cases hbeyond : numeral text < 2 ^ 64
  · exact .inl hbeyond
  refine .inr ⟨hcanonical, ?_, by omega, ?_⟩
  · by_contra hshort
    have hpow : 10 ^ text.length ≤ 10 ^ 19 := Nat.pow_le_pow_right (by omega) (by omega)
    omega
  · by_contra hless
    have hpow : 10 ^ text.length ≤ 10 ^ 19 := Nat.pow_le_pow_right (by omega) (by omega)
    omega

end GoblinCore.StringEncoding
