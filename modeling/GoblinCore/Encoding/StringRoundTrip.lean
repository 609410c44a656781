import GoblinCore.Encoding.StringEncoding

/-!
# Reading stored strings back

For each form a string is stored in, a view of the bytes that were written, cut anywhere, reads the
string back.  An integer form reads back as the decimal of the number that was stored, which is the
string itself unless the parser misread it.
-/

namespace GoblinCore.StringEncoding

open Positional List Except
open UInt8 hiding size
open Option hiding map_map

/-! ## Widths -/

variable {width : ℕ} {lz4 : Lz4} {view : EncodedStringView} {text : ByteString}

theorem narrower_succ (h : 1 ≤ width) :
    narrower (width + 1) = narrower width + 2 ^ (width * 8) := by
  rw [narrower, range_succ, drop_append_of_le_length (by simpa using h), foldl_append]
  rfl

/-- The width that is found and what is left make up the offset, and what is left fits. -/
theorem widthForOffset_spec (later : ℕ) (offset : ℕ) (hwidth : 1 ≤ width) :
    width ≤ (widthForOffset later width offset).1 ∧
      (widthForOffset later width offset).1 ≤ width + later ∧
      narrower (widthForOffset later width offset).1 + (widthForOffset later width offset).2
        = narrower width + offset ∧
      ((widthForOffset later width offset).1 < width + later →
        (widthForOffset later width offset).2
          < 2 ^ ((widthForOffset later width offset).1 * 8)) := by
  induction later generalizing width offset with
  | zero => exact ⟨le_refl _, le_refl _, rfl, fun h ↦ absurd h (lt_irrefl _)⟩
  | succ later ih =>
    rw [widthForOffset]
    split
    · rename_i hfits
      exact ⟨le_refl _, by omega, rfl, fun _ ↦ hfits⟩
    · obtain ⟨hlow, hhigh, hsum, hfits⟩ :=
        ih (offset - 2 ^ (width * 8)) (by omega : 1 ≤ width + 1)
      rw [narrower_succ hwidth] at hsum
      exact ⟨by omega, by omega, by omega, fun hlt ↦ hfits (by omega)⟩

/-- A width from one to eight and an offset of that many bytes. -/
structure Fits (width offset : ℕ) : Prop where
  pos : 1 ≤ width
  le : width ≤ 8
  lt : offset < 256 ^ width

variable {offset : ℕ}

theorem encodeOffset_spec {base : ℕ} (h : offset < 2 ^ 64) :
    ∃ width rest, Fits width rest ∧ narrower width + rest = offset ∧
      encodeOffset base offset = ofNat (base + width - 1) :: bigEndian width rest := by
  obtain ⟨hlow, hhigh, hsum, hfits⟩ := widthForOffset_spec 7 offset (le_refl 1)
  have hnarrower : narrower 1 = 0 := rfl
  refine ⟨_, _, ⟨hlow, hhigh, ?_⟩, by rw [hsum, hnarrower, zero_add], rfl⟩
  have hpow : ∀ width, 2 ^ (width * 8) = 256 ^ width := fun width ↦ by
    rw [Nat.mul_comm, Nat.pow_mul]
  rcases lt_or_ge (widthForOffset 7 1 offset).1 8 with hlt | hge
  · rw [← hpow]
    exact hfits hlt
  have height := le_antisymm hhigh hge
  rw [height]
  have hrest : (widthForOffset 7 1 offset).2 ≤ offset := by
    omega
  exact lt_of_le_of_lt hrest h

@[simp] theorem length_bigEndian {value : ℕ} : (bigEndian width value).length = width := by
  simp [bigEndian]

theorem ofDigits_bigEndian {value : ℕ} (h : value < 256 ^ width) :
    ofDigits 256 ((bigEndian width value).map UInt8.toNat) = value := by
  have hdigits : (bigEndian width value).map UInt8.toNat = toDigits 256 width value := by
    rw [bigEndian, map_map]
    refine (map_congr_left fun digit hdigit ↦ ?_).trans (map_id _)
    exact toNat_ofNat_of_lt' (toDigits_lt (by decide : 0 < 256) digit hdigit)
  rw [hdigits, ofDigits_toDigits h]

/-! ## Views -/

/-- A view that reads back as a text. -/
structure Faithful (lz4 : Lz4) (view : EncodedStringView) (text : ByteString) : Prop where
  valid : view.valid = true
  size : view.size = text.length
  append : ∀ destination, view.appendTo lz4 destination = .ok (destination ++ text)
  equals : ∀ logical, view.equals lz4 logical = .ok (decide (logical = text))

theorem Faithful.unique {other : ByteString} (h : Faithful lz4 view text)
    (hoth : Faithful lz4 view other) : text = other := by
  simpa using (h.append []).symm.trans (hoth.append [])

/-- Outside the raw forms, `equals` compares with what `append_to` yields. -/
theorem Faithful.of_append (henabled : view.encodingEnabled = true) (htag : view.tag ≠ 0xff)
    (hvalid : view.valid = true) (hsize : view.size = text.length)
    (happend : ∀ destination, view.appendTo lz4 destination = .ok (destination ++ text)) :
    Faithful lz4 view text := by
  refine ⟨hvalid, hsize, happend, fun logical ↦ ?_⟩
  unfold EncodedStringView.equals
  rw [hvalid, henabled, hsize]
  by_cases hlen : text.length = logical.length
  · have hread : view.toString lz4 = .ok text := happend []
    simp [hlen, htag, hread, Except.map, eq_comm]
  · have hne : logical ≠ text := fun heq ↦ hlen (by rw [heq])
    simp [hlen, hne]

/-- The raw forms compare the bytes from an offset on. -/
theorem Faithful.of_range (hvalid : view.valid = true) (hsize : view.size = text.length)
    (hbytes : view.bytes.drop offset = text) (hoff : offset ≤ view.encodedSize)
    (happend : ∀ destination, view.appendTo lz4 destination = .ok (destination ++ text))
    (hequals : ∀ logical, view.equals lz4 logical = if !view.valid || view.size ≠ logical.length
      then .ok false else .ok (view.rangeEquals offset logical)) : Faithful lz4 view text := by
  refine ⟨hvalid, hsize, happend, fun logical ↦ ?_⟩
  rw [hequals, hvalid, hsize]
  by_cases hlen : text.length = logical.length
  · have hroom : offset + logical.length ≤ view.encodedSize := by
      rw [← hlen, ← hbytes, length_drop, ← view.encodedSize_eq]
      omega
    have hrange : view.rangeEquals offset logical = decide (logical = text) := by
      rw [Bool.eq_iff_iff, view.rangeEquals_eq, and_iff_right hroom, hbytes,
        take_of_length_le (le_of_eq hlen), decide_eq_true_eq, eq_comm]
    simp [hlen, hrange]
  · have hne : logical ≠ text := fun heq ↦ hlen (by rw [heq])
    simp [hlen, hne]

namespace EncodedStringView

variable {view : EncodedStringView} {first : UInt8} {payload : ByteString}

theorem tag_eq (henabled : view.encodingEnabled = true) (hbytes : view.bytes = first :: payload) :
    view.tag = first.toNat := by
  simp [tag, henabled, encodedSize_eq, byteAt_eq, hbytes]

theorem encodedSize_cons (hbytes : view.bytes = first :: payload) :
    view.encodedSize = payload.length + 1 := by
  simp [encodedSize_eq, hbytes]

theorem readBigEndian_cons {width value : ℕ} {rest : ByteString} (h : value < 256 ^ width)
    (hbytes : view.bytes = first :: (bigEndian width value ++ rest)) :
    view.readBigEndian 1 width = value := by
  rw [readBigEndian_eq (by simp [hbytes]; omega), hbytes, drop_succ_cons, drop_zero,
    take_left' length_bigEndian, ofDigits_bigEndian h]

end EncodedStringView

open EncodedStringView

variable {lz4 : Lz4} {view : EncodedStringView}

/-- A branch for values that are not encoded is passed over. -/
theorem if_not_true {α : Type} (first second : α) :
    (if (!true) = true then first else second) = second := rfl

/-! ## Integers -/

variable {magnitude : ℕ} {text value : ByteString}

section

variable (henabled : view.encodingEnabled = true)
include henabled

theorem faithful_small (hsmall : magnitude ≤ 127) (hbytes : view.bytes = [ofNat magnitude]) :
    Faithful lz4 view (toChars magnitude) := by
  have htag : view.tag = magnitude := by
    rw [tag_eq henabled hbytes]
    exact toNat_ofNat_of_lt' (by omega : magnitude < 256)
  have hlen : view.encodedSize = 1 := encodedSize_cons hbytes
  have hvalid : view.valid = true := by simp [valid, henabled, hlen, htag, hsmall]
  refine .of_append henabled (by omega) hvalid ?_ fun destination ↦ ?_
  · rw [size, henabled, hvalid, if_not_true, if_not_true, htag, if_pos hsmall, length_toChars]
  · rw [appendTo, hvalid, henabled, if_not_true, if_not_true, htag, if_neg (by omega),
      if_pos hsmall]

/-- The prefix of a width counts from its base, and the offset follows. -/
theorem read_offset {base width offset : ℕ} (hfits : Fits width offset) (hbase : base + 8 < 256)
    (hbytes : view.bytes = ofNat (base + width - 1) :: bigEndian width offset) :
    view.tag = base + width - 1 ∧ view.encodedSize = width + 1 ∧
      view.readBigEndian 1 width = offset := by
  have hle := hfits.le
  refine ⟨?_, ?_, ?_⟩
  · rw [tag_eq henabled hbytes]
    exact toNat_ofNat_of_lt' (by omega : base + width - 1 < 256)
  · rw [encodedSize_cons hbytes, length_bigEndian]
  · exact readBigEndian_cons hfits.lt (by rw [hbytes, append_nil])

theorem faithful_positive (hlarge : 128 ≤ magnitude) (hlt : magnitude < 2 ^ 64)
    (hbytes : view.bytes = encodeOffset 0x80 (magnitude - 128)) :
    Faithful lz4 view (toChars magnitude) := by
  obtain ⟨width, offset, hfits, hsum, henc⟩ :=
    encodeOffset_spec (by omega : magnitude - 128 < 2 ^ 64)
  obtain ⟨htag, hlen, hread⟩ :=
    read_offset henabled hfits (by omega) (hbytes.trans henc)
  have hpos := hfits.pos
  have hle := hfits.le
  have hwidth : view.tag - 0x80 + 1 = width := by omega
  have hval : view.positiveValue = magnitude := by
    rw [positiveValue, hwidth, hread, positiveBase]
    omega
  have hvalid : view.valid = true := by
    rw [valid, henabled, if_not_true, if_neg (by omega), if_neg (by omega), if_pos (by omega),
      if_pos (by omega)]
    exact decide_eq_true (by omega)
  refine .of_append henabled (by omega) hvalid ?_ fun destination ↦ ?_
  · rw [size, henabled, hvalid, if_not_true, if_not_true, if_neg (by omega),
      if_pos (by omega), hval,
      length_toChars]
  · rw [appendTo, hvalid, henabled, if_not_true, if_not_true, if_neg (by omega), if_neg (by omega),
      if_pos (by omega), hval]

theorem faithful_negative (hpsv : 0 < magnitude) (hlt : magnitude < 2 ^ 64)
    (hbytes : view.bytes = encodeOffset 0x88 (magnitude - 1)) :
    Faithful lz4 view (45 :: toChars magnitude) := by
  obtain ⟨width, offset, hfits, hsum, henc⟩ :=
    encodeOffset_spec (by omega : magnitude - 1 < 2 ^ 64)
  obtain ⟨htag, hlen, hread⟩ :=
    read_offset henabled hfits (by omega) (hbytes.trans henc)
  have hpos := hfits.pos
  have hle := hfits.le
  have hwidth : view.tag - 0x88 + 1 = width := by omega
  have hval : view.negativeMagnitude = magnitude := by
    rw [negativeMagnitude, hwidth, hread, negativeBase]
    omega
  have hvalid : view.valid = true := by
    rw [valid, henabled, if_not_true, if_neg (by omega), if_neg (by omega), if_pos (by omega),
      if_neg (by omega)]
    exact decide_eq_true (by omega)
  refine .of_append henabled (by omega) hvalid ?_ fun destination ↦ ?_
  · rw [size, henabled, hvalid, if_not_true, if_not_true, if_neg (by omega), if_neg (by omega),
      if_pos (by omega), hval, length_cons, length_toChars, add_comm]
  · rw [appendTo, hvalid, henabled, if_not_true, if_not_true, if_neg (by omega), if_neg (by omega),
      if_neg (by omega), if_pos (by omega), hval]

end

/-! ## UUIDs -/

theorem lowerHexNibble_some {byte : UInt8} {nibble : ℕ} (h : lowerHexNibble byte = some nibble) :
    nibble < 16 ∧ lowerHex nibble = byte := by
  unfold lowerHexNibble at h
  split_ifs at h with hdigit hletter
  · cases h
    refine ⟨by omega, ?_⟩
    rw [lowerHex, if_pos (by omega), Nat.add_sub_cancel' hdigit.1, UInt8.ofNat_toNat]
  · cases h
    refine ⟨by omega, ?_⟩
    rw [lowerHex, if_neg (by omega), show 97 + (byte.toNat - 97 + 10) - 10 = byte.toNat by omega,
      UInt8.ofNat_toNat]

/-- The bytes that are read from a text are printed as that text. -/
theorem encodeUuidLoop_some {dashed : Bool} {count position : ℕ} {uuid : ByteString}
    (h : encodeUuidLoop dashed count position text = some uuid) :
    uuid.length = count ∧ decodeUuidLoop dashed position uuid = text := by
  induction count generalizing position text uuid with
  | zero =>
    rw [encodeUuidLoop] at h
    split_ifs at h with hemp
    cases h
    exact ⟨rfl, hemp.symm⟩
  | succ count ih =>
    rw [encodeUuidLoop] at h
    split at h
    · cases h
    rename_i hdash
    split at h
    · rename_i high low rest hdrop
      simp only [bind_eq_bind, bind_eq_some_iff, Option.pure_def] at h
      obtain ⟨highNibble, hhigh, lowNibble, hlow, tail, htail, huuid⟩ := h
      cases huuid
      obtain ⟨hhighLt, hhighHex⟩ := lowerHexNibble_some hhigh
      obtain ⟨hlowLt, hlowHex⟩ := lowerHexNibble_some hlow
      obtain ⟨hlen, hdecode⟩ := ih htail
      have hbyte := toNat_ofNat_of_lt' (by omega : highNibble * 16 + lowNibble < 256)
      refine ⟨by rw [length_cons, hlen], ?_⟩
      rw [decodeUuidLoop, hbyte, show (highNibble * 16 + lowNibble) / 16 = highNibble by omega,
        show (highNibble * 16 + lowNibble) % 16 = lowNibble by omega, hhighHex, hlowHex, hdecode]
      -- What is put in front of the two digits is the dash that was skipped.
      rw [← hdrop]
      cases hat : dashAt dashed position with
      | false => rfl
      | true =>
        rw [hat, not_and] at hdash
        have hhead : text.head? = some 45 := not_not.mp (hdash rfl)
        cases text with
        | nil => cases hhead
        | cons dash text =>
          obtain rfl : dash = 45 := by simpa using hhead
          rfl
    · cases h

theorem encodeAsUuid_some {bytes : ByteString} (h : encodeAsUuid value = some bytes) :
    ∃ dashed uuid, bytes = (if dashed then 0x91 else 0x90) :: uuid ∧ uuid.length = 16 ∧
      value.length = (if dashed then 36 else 32) ∧ decodeUuidLoop dashed 0 uuid = value := by
  have huuid : ∀ {dashed uuid}, encodeUuid value dashed = some uuid →
      uuid.length = 16 ∧ value.length = (if dashed then 36 else 32) ∧
        decodeUuidLoop dashed 0 uuid = value := by
    intro dashed uuid henc
    rw [encodeUuid] at henc
    by_cases hlen : value.length = (if dashed then 36 else 32)
    · rw [if_pos hlen] at henc
      exact ⟨(encodeUuidLoop_some henc).1, hlen, (encodeUuidLoop_some henc).2⟩
    · rw [if_neg hlen] at henc
      cases henc
  unfold encodeAsUuid at h
  split at h
  · split at h
    · rename_i uuid henc
      exact ⟨false, uuid, (some.inj h).symm, huuid henc⟩
    · obtain ⟨uuid, henc, hbytes⟩ := map_eq_some_iff.mp h
      exact ⟨true, uuid, hbytes.symm, huuid henc⟩
  · cases h

section

variable (henabled : view.encodingEnabled = true)
include henabled

theorem faithful_uuid {dashed : Bool} {uuid : ByteString}
    (hbytes : view.bytes = (if dashed then 0x91 else 0x90) :: uuid) (huuid : uuid.length = 16)
    (hlen : value.length = (if dashed then 36 else 32))
    (hdecode : decodeUuidLoop dashed 0 uuid = value) : Faithful lz4 view value := by
  have htag : view.tag = if dashed then 0x91 else 0x90 := by
    rw [tag_eq henabled hbytes]
    cases dashed <;> rfl
  have hencoded : view.encodedSize = 17 := by rw [encodedSize_cons hbytes, huuid]
  have hread : ((List.range 16).map fun byte ↦ view.byteAt (byte + 1)) = uuid := by
    apply ext_getElem
    · simp [huuid]
    · intro index hleft hright
      simp [byteAt_eq, hbytes, getElem?_eq_getElem hright]
  have hdashed : decide (view.tag = 0x91) = dashed := by
    rw [htag]
    cases dashed <;> rfl
  have hcases : view.tag = 0x90 ∨ view.tag = 0x91 := by
    rw [htag]
    cases dashed
    · exact .inl rfl
    · exact .inr rfl
  have hvalid : view.valid = true := by
    rw [valid, henabled, if_not_true, if_neg (by omega), if_neg (by omega), if_neg (by omega),
      if_pos hcases]
    exact decide_eq_true hencoded
  refine .of_append henabled (by omega) hvalid ?_ fun destination ↦ ?_
  · rw [size, henabled, hvalid, if_not_true, if_not_true, hlen, htag]
    cases dashed <;> rfl
  · rw [appendTo, hvalid, henabled, if_not_true, if_not_true, if_neg (by omega), if_neg (by omega),
      if_neg (by omega), if_neg (by omega), if_pos hcases, hread, hdashed, hdecode]

/-! ## Blocks, raw and verbatim strings -/

theorem faithful_lz4 {block : ByteString} {level : ℤ} {capacity : ℕ}
    (hlog : value.length ≤ 0xFFFFFF) (hcap : capacity ≤ 65535 - 4)
    (hblk : lz4.compress level capacity value = some block)
    (hbytes : view.bytes = 0xfe :: (bigEndian 3 value.length ++ block)) :
    Faithful lz4 view value := by
  have htag : view.tag = 0xfe := tag_eq henabled hbytes
  have hencoded : view.encodedSize = block.length + 4 := by
    rw [encodedSize_cons hbytes, length_append, length_bigEndian]
    omega
  have hpos := lz4.compress_pos _ _ _ _ hblk
  have hfits := lz4.compress_le _ _ _ _ hblk
  have hread := readBigEndian_cons (lt_of_le_of_lt hlog (by decide)) hbytes
  have hpayload : view.block = block := by
    rw [block_eq, hbytes, drop_succ_cons, drop_left' length_bigEndian]
  have hlong : 5 ≤ view.encodedSize := by omega
  have hvalid : view.valid = true := by
    rw [valid, henabled, if_not_true, if_neg (by omega), htag, hread, decide_eq_true hlong,
      decide_eq_true hlog]
    rfl
  have hsize : view.size = value.length := by
    rw [size, henabled, hvalid, if_not_true, if_not_true, htag, hread]
    rfl
  refine .of_append henabled (by rw [htag]; decide) hvalid hsize fun destination ↦ ?_
  rw [appendTo, hvalid, henabled, if_not_true, if_not_true, htag, hsize, hpayload,
    lz4.decompress_compress _ _ _ _ hblk]
  by_cases hemp : value.length = 0
  · rw [length_eq_zero_iff.mp hemp, append_nil]
    rfl
  · rw [if_neg hemp]
    rfl

theorem faithful_raw (hlen : value.length ≤ 65534) (hbytes : view.bytes = 0xff :: value) :
    Faithful lz4 view value := by
  have htag : view.tag = 0xff := tag_eq henabled hbytes
  have hencoded := encodedSize_cons hbytes
  have hvalid : view.valid = true := by
    rw [valid, henabled, if_not_true, if_neg (by omega), htag]
    rfl
  have hsize : view.size = value.length := by
    rw [size, henabled, hvalid, if_not_true, if_not_true, htag, hencoded]
    rfl
  refine .of_range hvalid hsize (by rw [hbytes]; rfl : view.bytes.drop 1 = value) (by omega)
    (fun destination ↦ ?_) fun logical ↦ ?_
  · rw [appendTo, hvalid, henabled, if_not_true, if_not_true, htag, if_pos rfl, copyRange_eq,
      hencoded,
      hbytes, drop_succ_cons, drop_zero, take_of_length_le (by omega)]
  · rw [EncodedStringView.equals, henabled, htag]
    rfl

end

theorem faithful_verbatim (hdisabled : view.encodingEnabled = false) (hlen : value.length ≤ 65535)
    (hbytes : view.bytes = value) : Faithful lz4 view value := by
  have hencoded : view.encodedSize = value.length := by rw [encodedSize_eq, hbytes]
  have hvalid : view.valid = true := by simp [valid, hdisabled, hencoded, hlen]
  have hsize : view.size = value.length := by simp [size, hdisabled, hencoded]
  refine .of_range hvalid hsize (by rw [drop_zero, hbytes] : view.bytes.drop 0 = value)
    (Nat.zero_le _) (fun destination ↦ ?_) fun logical ↦ ?_
  · rw [appendTo, hvalid, hdisabled, if_not_true, append_assoc]
    exact congrArg (fun bytes ↦ ok (destination ++ bytes)) hbytes
  · rw [EncodedStringView.equals, hdisabled]
    rfl

/-! ## What is stored -/

theorem Misread.numeral_mod (h : Misread text) : toChars (numeral text % 2 ^ 64) ≠ text := by
  intro hsame
  have hlt : numeral text % 2 ^ 64 < 10 ^ 20 :=
    lt_trans (Nat.mod_lt _ (by decide)) (by decide)
  have hdigits := decimalDigits_eq h.accepted hlt (by omega)
  have hnumeral : numeral (toChars (numeral text % 2 ^ 64)) = numeral text % 2 ^ 64 := by
    rw [toChars, hdigits, numeral, map_map]
    have hid : (toDigits 10 20 (numeral text % 2 ^ 64)).map
        (digitOf ∘ fun digit ↦ ofNat (48 + digit)) = toDigits 10 20 (numeral text % 2 ^ 64) := by
      refine (map_congr_left fun digit hdigit ↦ ?_).trans (map_id _)
      have hten : digit < 10 := toDigits_lt (by decide : 0 < 10) digit hdigit
      have hbyte := toNat_ofNat_of_lt' (by omega : 48 + digit < 256)
      rw [Function.comp_apply, digitOf, hbyte, Nat.add_sub_cancel_left]
      rfl
    rw [hid, ofDigits_toDigits hlt]
  rw [hsame] at hnumeral
  have hbeyond := h.beyond
  omega

/-- The decimal of what the parser returns is the text, unless the text is misread. -/
theorem toChars_parse (h : parseCanonicalU64 text = some magnitude) :
    toChars magnitude = text ↔ ¬Misread text := by
  obtain ⟨hcanonical, hlen, rfl, hcases⟩ := parse_cases h
  constructor
  · intro hsame hmisread
    exact hmisread.numeral_mod hsame
  · intro hread
    have hlt := hcases.resolve_right hread
    rw [Nat.mod_eq_of_lt hlt, hcanonical.toChars_numeral hlen]

theorem parse_lt (h : parseCanonicalU64 text = some magnitude) : magnitude < 2 ^ 64 := by
  obtain ⟨-, -, rfl, -⟩ := parse_cases h
  exact Nat.mod_lt _ (by decide)

theorem Misread.parse (h : Misread text) :
    parseCanonicalU64 text = some (numeral text % 2 ^ 64) := by
  have haccepted := h.accepted
  rw [h.canonical.parseCanonicalU64_eq, parseU64_eq h.canonical, h.length, if_neg (by omega),
    if_neg (by omega)]

/-- What is written for a number that is stored as one. -/
theorem faithful_natural (henabled : view.encodingEnabled = true) (hlt : magnitude < 2 ^ 64)
    (hbytes : view.bytes = if magnitude ≤ 127 then [ofNat magnitude] else encodeOffset 0x80
      (magnitude - 128)) : Faithful lz4 view (toChars magnitude) := by
  split at hbytes
  · rename_i hsmall
    exact faithful_small henabled hsmall hbytes
  · exact faithful_positive henabled (by omega) hlt hbytes

section

variable {options : StringEncodingOptions} {compression : StringCompressionMode}
  {value : ByteString}

theorem encodeInteger_some {bytes : ByteString} (h : encodeInteger value = some bytes) :
    (∃ magnitude, parseCanonicalU64 value = some magnitude ∧
        bytes = if magnitude ≤ 127 then [ofNat magnitude]
          else encodeOffset 0x80 (magnitude - 128)) ∨
      ∃ digits magnitude, value = 45 :: digits ∧ parseCanonicalU64 digits = some magnitude ∧
        0 < magnitude ∧ bytes = encodeOffset 0x88 (magnitude - 1) := by
  unfold encodeInteger at h
  split at h
  · rename_i magnitude hparse
    refine .inl ⟨magnitude, hparse, ?_⟩
    split_ifs at h ⊢
    · exact (some.inj h).symm
    · exact (some.inj h).symm
  · split at h
    · rename_i hsign
      cases value with
      | nil => exact absurd hsign.2 (by simp)
      | cons first digits =>
        obtain rfl : first = 45 := by simpa using hsign.2
        split at h
        · rename_i magnitude hparse
          split at h
          · rename_i hne
            exact .inr ⟨digits, magnitude, rfl, hparse, pos_of_ne_zero hne, (some.inj h).symm⟩
          · cases h
        · cases h
    · cases h

variable {encoded : EncodedString}

/-- The forms a string is stored in with the encoding enabled. -/
theorem encode_cases (henabled : options.encodingEnabled = true)
    (h : encode lz4 options compression value = .ok encoded) :
    (encoded.isRaw = false ∧
        (encodeInteger value = some encoded.writeTo ∨ encodeAsUuid value = some encoded.writeTo ∨
          encodeLz4 lz4 options compression value = some encoded.writeTo)) ∨
      (value.length ≤ 65534 ∧ encoded.writeTo = 0xff :: value) := by
  unfold encode at h
  rw [henabled, Bool.not_true, if_neg Bool.false_ne_true] at h
  split at h
  · rename_i bytes hinteger
    obtain rfl := ok.inj h
    split at hinteger
    · exact .inl ⟨rfl, .inl hinteger⟩
    · cases hinteger
  · split at h
    · rename_i bytes huuid
      obtain rfl := ok.inj h
      exact .inl ⟨rfl, .inr (.inl huuid)⟩
    · split at h
      · rename_i bytes hlz4
        obtain rfl := ok.inj h
        exact .inl ⟨rfl, .inr (.inr hlz4)⟩
      · split at h
        · cases h
        · obtain rfl := ok.inj h
          exact .inr ⟨by omega, rfl⟩

theorem encode_disabled (hdisabled : options.encodingEnabled = false)
    (h : encode lz4 options compression value = .ok encoded) :
    value.length ≤ 65535 ∧ encoded.writeTo = value := by
  unfold encode at h
  rw [hdisabled, Bool.not_false, if_pos rfl] at h
  split at h
  · cases h
  · obtain rfl := ok.inj h
    exact ⟨by omega, rfl⟩

/-- The constructor throws on exactly the strings that do not fit. -/
theorem encode_error_iff : (∃ message, encode lz4 options compression value = .error message) ↔
    stringValueFits lz4 options compression value = false := by
  unfold stringValueFits
  split
  · rename_i hfits
    refine iff_of_false ?_ (by simp)
    rintro ⟨message, herr⟩
    unfold StringEncodingOptions.maxValueBytes at hfits
    unfold encode at herr
    cases henabled : options.encodingEnabled with
    | true =>
      rw [henabled, if_pos rfl] at hfits
      rw [henabled, Bool.not_true, if_neg Bool.false_ne_true] at herr
      split at herr
      · cases herr
      split at herr
      · cases herr
      · split at herr
        · cases herr
        · rw [if_neg (by omega)] at herr
          cases herr
    | false =>
      rw [henabled, if_neg Bool.false_ne_true] at hfits
      rw [henabled, Bool.not_false, if_pos rfl, if_neg (by omega)] at herr
      cases herr
  · cases encode lz4 options compression value with
    | ok encoded => simp
    | error message => simp

variable (lz4 options compression value) in
/-- Whatever is written for a string reads back as that string, however it is cut. -/
def RoundTrips : Prop :=
  ∀ encoded, encode lz4 options compression value = .ok encoded →
    ∀ head tail, head ++ tail = encoded.writeTo →
      Faithful lz4 ⟨head, tail, options.encodingEnabled⟩ value

theorem roundTrips_of_disabled (hdisabled : options.encodingEnabled = false) :
    RoundTrips lz4 options compression value := by
  intro encoded henc head tail hbytes
  obtain ⟨hlen, hwritten⟩ := encode_disabled hdisabled henc
  exact faithful_verbatim hdisabled hlen (hbytes.trans hwritten)

theorem roundTrips_of_read (henabled : options.encodingEnabled = true) (hread : ¬Misread value)
    (hneg : ∀ digits, value = 45 :: digits → ¬Misread digits) :
    RoundTrips lz4 options compression value := by
  intro encoded henc head tail hbytes
  rcases encode_cases henabled henc with
    ⟨-, hinteger | huuid | hlz4⟩ | ⟨hlen, hraw⟩
  · rcases encodeInteger_some hinteger with
      ⟨magnitude, hparse, hwritten⟩ | ⟨digits, magnitude, rfl, hparse, hpos, hwritten⟩
    · rw [← (toChars_parse hparse).mpr hread]
      exact faithful_natural henabled (parse_lt hparse) (hbytes.trans hwritten)
    · have htext := (toChars_parse hparse).mpr (hneg digits rfl)
      have hview : Faithful lz4 ⟨head, tail, options.encodingEnabled⟩ (45 :: toChars magnitude) :=
        faithful_negative henabled hpos (parse_lt hparse) (hbytes.trans hwritten)
      rwa [htext] at hview
  · obtain ⟨dashed, uuid, hwritten, hlen, hval, hdecode⟩ := encodeAsUuid_some huuid
    exact faithful_uuid henabled (hbytes.trans hwritten) hlen hval hdecode
  · unfold encodeLz4 at hlz4
    split at hlz4
    · rename_i hcompress
      obtain ⟨block, hblk, hwritten⟩ := map_eq_some_iff.mp hlz4
      exact faithful_lz4 henabled hcompress.2 (min_le_right _ _) hblk (hbytes.trans hwritten.symm)
    · cases hlz4
  · exact faithful_raw henabled hlen (hbytes.trans hraw)

/-- A string whose integer form reads back as another text does not survive. -/
theorem not_roundTrips (henabled : options.encodingEnabled = true) {bytes text : ByteString}
    (hmaybe : maybeInt value = true) (hinteger : encodeInteger value = some bytes)
    (hview : Faithful lz4 ⟨bytes, [], options.encodingEnabled⟩ text) (hne : text ≠ value) :
    ¬RoundTrips lz4 options compression value := by
  intro hround
  have henc : encode lz4 options compression value = .ok ⟨value, .inlined bytes⟩ := by
    unfold encode
    rw [henabled, Bool.not_true, if_neg Bool.false_ne_true, hmaybe, if_pos rfl, hinteger]
  exact hne (hview.unique (hround _ henc bytes [] (append_nil bytes)))

theorem Misread.exists_cons {text : ByteString} (h : Misread text) :
    ∃ first rest, text = first :: rest ∧ isDigit first = true ∧ rest ≠ [] := by
  have hlen := h.length
  cases text with
  | nil => cases hlen
  | cons first rest =>
    refine ⟨first, rest, rfl, all_eq_true.mp h.canonical.digits first (by simp), ?_⟩
    rintro rfl
    cases hlen

theorem not_roundTrips_of_misread (henabled : options.encodingEnabled = true) (h : Misread value) :
    ¬RoundTrips lz4 options compression value := by
  obtain ⟨first, rest, hval, hdigit, -⟩ := h.exists_cons
  have hinteger : encodeInteger value
      = some (if numeral value % 2 ^ 64 ≤ 127 then [ofNat (numeral value % 2 ^ 64)]
        else encodeOffset 0x80 (numeral value % 2 ^ 64 - 128)) := by
    rw [encodeInteger, h.parse, apply_ite some]
  refine not_roundTrips henabled (by rw [hval, maybeInt, hdigit, Bool.true_or]) hinteger ?_
    h.numeral_mod
  exact faithful_natural henabled (parse_lt h.parse) (append_nil _)

theorem not_roundTrips_of_negative (henabled : options.encodingEnabled = true) {digits : ByteString}
    (h : Misread digits) : ¬RoundTrips lz4 options compression (45 :: digits) := by
  obtain ⟨first, rest, hdigits, hdigit, -⟩ := h.exists_cons
  have haccepted := h.accepted
  have hinteger : encodeInteger (45 :: digits)
      = some (encodeOffset 0x88 (numeral digits % 2 ^ 64 - 1)) := by
    have hpsv : parseCanonicalU64 (45 :: digits) = none := by
      simp [parseCanonicalU64, parseU64]
    have hlong : 1 < (45 :: digits).length := by
      rw [length_cons, h.length]
      omega
    have hne : numeral digits % 2 ^ 64 ≠ 0 := by omega
    unfold encodeInteger
    rw [hpsv]
    simp only [hlong, head?_cons, tail_cons, h.parse, hne, ne_eq, not_false_eq_true,
      and_self, if_true]
  have hmaybe : maybeInt (45 :: digits) = true := by
    simp [maybeInt, hdigits, hdigit]
  refine not_roundTrips henabled hmaybe hinteger
    (faithful_negative henabled (by omega) (parse_lt h.parse) (append_nil _)) ?_
  intro hsame
  exact h.numeral_mod (List.cons.inj hsame).2

/-- Every string that is stored reads back as it was, and exactly the strings that do not fit are
refused, unless the encoding is enabled and the string is the decimal of a number, of either sign,
whose twenty digits the parser misreads. -/
theorem encode_roundTrips_iff (lz4 : Lz4) (options : StringEncodingOptions)
    (compression : StringCompressionMode) (value : ByteString) :
    (RoundTrips lz4 options compression value ∧
      ((∃ message, encode lz4 options compression value = .error message) ↔
        stringValueFits lz4 options compression value = false)) ↔
      (options.encodingEnabled = true →
        ¬Misread value ∧ ∀ digits, value = 45 :: digits → ¬Misread digits) := by
  rw [and_iff_left encode_error_iff]
  constructor
  · intro hround henabled
    refine ⟨fun hmisread ↦ not_roundTrips_of_misread henabled hmisread hround, ?_⟩
    rintro digits rfl hmisread
    exact not_roundTrips_of_negative henabled hmisread hround
  · intro hread
    cases henabled : options.encodingEnabled with
    | true => exact roundTrips_of_read henabled (hread henabled).1 (hread henabled).2
    | false => exact roundTrips_of_disabled henabled

end

/-- A compression library that compresses nothing. -/
def Lz4.refusing : Lz4 where
  compressBound := fun length ↦ length
  compress := fun _ _ _ ↦ none
  decompress := fun _ _ ↦ none
  compress_pos := fun _ _ _ _ h ↦ absurd h (by simp)
  compress_le := fun _ _ _ _ h ↦ absurd h (by simp)
  decompress_compress := fun _ _ _ _ h ↦ absurd h (by simp)

def ascii (text : String) : ByteString := text.toList.map fun char ↦ ofNat char.toNat

/-- Thirty quintillions are stored as the number they are modulo 2^64, and read back as that. -/
theorem encode_misreads :
    (encode Lz4.refusing {} .allowLz4 (ascii "30000000000000000000")).bind (fun encoded ↦
      EncodedStringView.toString ⟨encoded.writeTo, [], true⟩ Lz4.refusing)
        = .ok (ascii "11553255926290448384") ∧
      ¬RoundTrips Lz4.refusing {} .allowLz4 (ascii "30000000000000000000") := by
  have hmisread : Misread (ascii "30000000000000000000") :=
    ⟨⟨by decide +kernel, .inr ⟨_, _, rfl, by decide⟩⟩, by decide +kernel, by decide +kernel,
      by decide +kernel⟩
  exact ⟨by decide +kernel, not_roundTrips_of_misread rfl hmisread⟩

end GoblinCore.StringEncoding
