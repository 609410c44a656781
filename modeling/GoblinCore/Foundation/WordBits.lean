import GoblinCore.Foundation.Fenwick

/-!
# Set bits of words

The slots of a range that satisfy a test, in order, and how the bits of 64-bit words are counted,
selected and scanned: the lowest or the highest set bit is found and taken off until none is left,
word after word.
-/

namespace GoblinCore.WordBits

open List Nat

/-! ## Slots that are set -/

/-- The slots from `first` up to `stop` that are set, in order. -/
def slots (set : ℕ → Bool) (first stop : ℕ) : List ℕ :=
  (range' first (stop - first)).filter set

variable {set set' : ℕ → Bool} {first middle stop slot : ℕ}

theorem mem_slots : slot ∈ slots set first stop ↔ first ≤ slot ∧ slot < stop ∧ set slot = true := by
  rw [slots, mem_filter, mem_range'_1, and_assoc]
  exact and_congr_right fun hle ↦ and_congr_left fun _ ↦ by omega

theorem slots_congr (h : ∀ slot, first ≤ slot → slot < stop → set slot = set' slot) :
    slots set first stop = slots set' first stop := by
  refine filter_congr fun slot hslot ↦ ?_
  rw [mem_range'_1] at hslot
  exact h slot hslot.1 (by omega)

theorem slots_eq_nil : slots set first stop = [] ↔
    ∀ slot, first ≤ slot → slot < stop → set slot = false := by
  rw [eq_nil_iff_forall_not_mem]
  simp only [mem_slots, not_and, Bool.not_eq_true]

theorem slots_append (hfst : first ≤ middle) (hstop : middle ≤ stop) :
    slots set first middle ++ slots set middle stop = slots set first stop := by
  obtain ⟨before, rfl⟩ := Nat.exists_eq_add_of_le hfst
  obtain ⟨after, rfl⟩ := Nat.exists_eq_add_of_le hstop
  rw [slots, slots, slots, Nat.add_sub_cancel_left, Nat.add_sub_cancel_left, Nat.add_assoc,
    Nat.add_sub_cancel_left, ← filter_append, range'_append_1]

/-- A window around a slot that is set. -/
theorem slots_split (hfst : first ≤ slot) (hstop : slot < stop) (hset : set slot = true) :
    slots set first stop = slots set first slot ++ slot :: slots set (slot + 1) stop := by
  rw [← slots_append hfst hstop.le, ← slots_append (le_succ slot) hstop]
  simp [slots, hset]

theorem slots_add (offset : ℕ) : slots set (offset + first) (offset + stop)
    = (slots (fun slot ↦ set (offset + slot)) first stop).map (offset + ·) := by
  rw [slots, slots, Nat.add_sub_add_left, range'_eq_map_range, filter_map,
    range'_eq_map_range, filter_map, map_map]
  simp only [Function.comp_def, Nat.add_assoc]

/-- The slot of a rank has that many set slots before it. -/
theorem length_slots_of_getElem? {rank : ℕ} (h : (slots set first stop)[rank]? = some slot) :
    (slots set first slot).length = rank := by
  obtain ⟨hle, hlt, hset⟩ := mem_slots.mp (mem_of_getElem? h)
  have hsplit := slots_split hle hlt hset
  have hnd : (slots set first stop).Nodup := (nodup_range' ..).filter set
  have hidx : (slots set first stop)[(slots set first slot).length]? = some slot := by
    rw [hsplit, getElem?_append_right (le_refl _), Nat.sub_self, getElem?_cons_zero]
  have hin : (slots set first slot).length < (slots set first stop).length := by
    rw [hsplit]
    simp
  exact (getElem?_inj hin hnd).mp (hidx.trans h.symm)

/-- The first slot that is set. -/
theorem slots_head? (h : (slots set first stop).head? = some slot) :
    first ≤ slot ∧ slot < stop ∧ set slot = true ∧
      ∀ other, first ≤ other → other < slot → set other = false := by
  obtain ⟨hle, hlt, hset⟩ := mem_slots.mp (mem_of_head? h)
  refine ⟨hle, hlt, hset, slots_eq_nil.mp ?_⟩
  have hidx : (slots set first stop)[0]? = some slot := by rw [← head?_eq_getElem?, h]
  exact eq_nil_of_length_eq_zero (length_slots_of_getElem? hidx)

/-- The last slot that is set. -/
theorem slots_getLast? (h : (slots set first stop).getLast? = some slot) :
    first ≤ slot ∧ slot < stop ∧ set slot = true ∧
      ∀ other, slot < other → other < stop → set other = false := by
  obtain ⟨hle, hlt, hset⟩ := mem_slots.mp (mem_of_getLast? h)
  refine ⟨hle, hlt, hset, fun other hoth hstop ↦ ?_⟩
  have hidx : (slots set first stop)[(slots set first stop).length - 1]? = some slot := by
    rw [← getLast?_eq_getElem?, h]
  have hrank := length_slots_of_getElem? hidx
  have hlen := congrArg length (slots_split hle hlt hset)
  rw [length_append, length_cons] at hlen
  have haft : slots set (slot + 1) stop = [] := eq_nil_of_length_eq_zero (by omega)
  exact slots_eq_nil.mp haft other hoth hstop

/-! ## Bits of a word -/

abbrev Word := BitVec 64

/-- The word with the one bit of a position. -/
def bitMask (position : ℕ) : Word := 1#64 <<< position

/-- The word with the bits below a position. -/
def lowMask (position : ℕ) : Word := (1#64 <<< position) - 1#64

variable (word : Word)

def popcount : ℕ := (range 64).countP word.getLsbD

/-- The position of the lowest set bit, and 64 when there is none. -/
def countrZero : ℕ :=
  ((range 64).find? word.getLsbD).getD 64

/-- The number of zero bits above the highest set bit. -/
def countlZero : ℕ :=
  ((range 64).find? fun position ↦ word.getLsbD (63 - position)).getD 64

def highBit : ℕ := 63 - countlZero word

/-- The word without its lowest set bit. -/
def clearLow : Word := word &&& (word - 1#64)

def clearBit (position : ℕ) : Word := word &&& ~~~bitMask position

/-- The word with the bit of a position set or cleared. -/
def withBit (position : ℕ) (bit : Bool) : Word :=
  if bit then word ||| bitMask position else clearBit word position

/-- The positions of the set bits. -/
def ones : List ℕ := slots word.getLsbD 0 64

/-- The position of the set bit of a rank: lower ones are taken off first. -/
def selectBit (rank : ℕ) : ℕ := countrZero (clearLow^[rank] word)

variable {word : Word} {position other rank : ℕ}

section

variable (hposition : position < 64)
include hposition

@[simp] theorem getLsbD_bitMask : (bitMask position).getLsbD other = decide (other = position) := by
  rw [bitMask, ← BitVec.twoPow_eq, BitVec.getLsbD_twoPow, decide_eq_true hposition, Bool.true_and]
  exact decide_eq_decide.mpr eq_comm

@[simp] theorem getLsbD_lowMask : (lowMask position).getLsbD other = decide (other < position) := by
  have hpow : 2 ^ position < 2 ^ 64 := Nat.pow_lt_pow_right (by decide) hposition
  have hone : 1 ≤ 2 ^ position := Nat.one_le_two_pow
  have hshift : (1#64 <<< position).toNat = 2 ^ position := by
    rw [BitVec.toNat_shiftLeft, BitVec.toNat_ofNat, shiftLeft_eq]
    omega
  have hval : (lowMask position).toNat = 2 ^ position - 1 := by
    rw [lowMask, BitVec.toNat_sub, hshift, BitVec.toNat_ofNat]
    omega
  rw [← BitVec.testBit_toNat, hval, testBit_two_pow_sub_one]

theorem getLsbD_withBit {bit : Bool} : (withBit word position bit).getLsbD other
    = if other = position then bit else word.getLsbD other := by
  by_cases hoth : other < 64
  · cases bit with
    | false =>
      rw [withBit, if_neg Bool.false_ne_true, clearBit, BitVec.getLsbD_and, BitVec.getLsbD_not,
        getLsbD_bitMask hposition]
      by_cases heq : other = position <;> simp [hoth, heq]
    | true =>
      rw [withBit, if_pos rfl, BitVec.getLsbD_or, getLsbD_bitMask hposition]
      by_cases heq : other = position <;> simp [heq]
  · rw [if_neg (by omega), BitVec.getLsbD_of_ge _ other (by omega),
      BitVec.getLsbD_of_ge word other (by omega)]

theorem slots_withBit {bit : Bool} (hout : stop ≤ position ∨ position < first) :
    slots (withBit word position bit).getLsbD first stop = slots word.getLsbD first stop :=
  slots_congr fun other _ _ ↦ (getLsbD_withBit hposition).trans (if_neg (by omega))

end

theorem length_ones : (ones word).length = popcount word := by
  rw [ones, slots, popcount, countP_eq_length_filter, ← range_eq_range']

/-- The set bits around a position. -/
theorem popcount_split (hposition : position < 64) : popcount word
    = (slots word.getLsbD 0 position).length
      + (word.getLsbD position).toNat
      + (slots word.getLsbD (position + 1) 64).length := by
  rw [← length_ones, ones, ← slots_append (zero_le position) hposition.le,
    ← slots_append (le_succ position) hposition, length_append, length_append, add_assoc]
  cases h : word.getLsbD position <;> simp [slots, h]

theorem popcount_withBit {bit : Bool} (hposition : position < 64) :
    popcount (withBit word position bit) + (word.getLsbD position).toNat
      = popcount word + bit.toNat := by
  rw [popcount_split hposition, popcount_split hposition, getLsbD_withBit hposition, if_pos rfl,
    slots_withBit hposition (by omega), slots_withBit hposition (by omega)]
  omega

theorem ones_eq_nil : ones word = [] ↔ word = 0#64 := by
  rw [ones, slots_eq_nil]
  constructor
  · intro h
    refine BitVec.eq_of_getLsbD_eq fun position hposition ↦ ?_
    rw [h position (zero_le _) hposition, BitVec.getLsbD_zero]
  · rintro rfl position _ _
    exact BitVec.getLsbD_zero

theorem exists_getLsbD (h : word ≠ 0#64) : ∃ position < 64, word.getLsbD position = true := by
  by_contra hnone
  push Not at hnone
  refine h (ones_eq_nil.mp (slots_eq_nil.mpr fun position _ hposition ↦ ?_))
  exact Bool.not_eq_true _ ▸ hnone position hposition

/-- The positions below the lowest set bit are clear. -/
theorem countrZero_spec (h : word ≠ 0#64) : countrZero word < 64 ∧
    word.getLsbD (countrZero word) = true ∧
      ∀ position < countrZero word, word.getLsbD position = false := by
  obtain ⟨position, hposition, hset⟩ := exists_getLsbD h
  cases hfind : (range 64).find? word.getLsbD with
  | none =>
    have hclear := find?_range_eq_none.mp hfind position hposition
    rw [hset] at hclear
    exact absurd hclear Bool.false_ne_true
  | some lowest =>
    obtain ⟨hlowest, hmem, hbelow⟩ := find?_range_eq_some.mp hfind
    rw [countrZero, hfind]
    exact ⟨mem_range.mp hmem, hlowest, fun other hoth ↦ by simpa using hbelow other hoth⟩

/-- The positions above the highest set bit are clear. -/
theorem highBit_spec (h : word ≠ 0#64) : highBit word < 64 ∧
    word.getLsbD (highBit word) = true ∧
      ∀ position < 64, highBit word < position → word.getLsbD position = false := by
  obtain ⟨position, hposition, hset⟩ := exists_getLsbD h
  cases hfind : (range 64).find? fun position ↦ word.getLsbD (63 - position) with
  | none =>
    have hclear := find?_range_eq_none.mp hfind (63 - position) (by omega)
    rw [show 63 - (63 - position) = position by omega, hset] at hclear
    exact absurd hclear Bool.false_ne_true
  | some zeros =>
    obtain ⟨hhighest, hmem, habove⟩ := find?_range_eq_some.mp hfind
    rw [highBit, countlZero, hfind, Option.getD_some]
    refine ⟨by omega, hhighest, fun other hoth hlt ↦ ?_⟩
    have hclear := habove (63 - other) (by omega)
    rw [show 63 - (63 - other) = other by omega] at hclear
    simpa using hclear

/-- Clearing the lowest set bit of a number. -/
theorem testBit_dropLow {n : ℕ} (h : 0 < n) : ∃ lowest, n.testBit lowest = true ∧
    (∀ position < lowest, n.testBit position = false) ∧
      ∀ position, (Fenwick.dropLow n).testBit position
        = (n.testBit position && decide (position ≠ lowest)) := by
  obtain ⟨lowest, half, rfl, hdrop, -⟩ := Fenwick.exists_odd_mul h
  refine ⟨lowest, ?_, fun position hposition ↦ ?_, fun position ↦ ?_⟩
  · simp [testBit_two_pow_mul]
  · rw [testBit_two_pow_mul, decide_eq_false (by omega), Bool.false_and]
  · rw [hdrop, testBit_two_pow_mul, testBit_two_pow_mul]
    rcases lt_trichotomy position lowest with hlt | rfl | hgt
    · rw [decide_eq_false (by omega), Bool.false_and, Bool.false_and, Bool.false_and]
    · simp
    · obtain ⟨more, rfl⟩ := Nat.exists_eq_add_of_lt hgt
      rw [show lowest + more + 1 - lowest = more + 1 by omega, testBit_succ, testBit_succ]
      have hhalf : (2 * half + 1) / 2 = 2 * half / 2 := by omega
      have hne : lowest + more + 1 ≠ lowest := by omega
      rw [hhalf, decide_eq_true hne, Bool.and_true]

theorem toNat_pos (h : word ≠ 0#64) : 0 < word.toNat :=
  pos_of_ne_zero fun hzero ↦ h (BitVec.eq_of_toNat_eq hzero)

theorem toNat_clearLow (h : word ≠ 0#64) : (clearLow word).toNat = Fenwick.dropLow word.toNat := by
  have hpos := toNat_pos h
  rw [clearLow, BitVec.toNat_and, BitVec.toNat_sub, BitVec.toNat_ofNat, Fenwick.dropLow]
  congr 1
  omega

theorem clearLow_eq (h : word ≠ 0#64) : clearLow word = withBit word (countrZero word) false := by
  obtain ⟨lowest, hlowest, hbelow, hclear⟩ := testBit_dropLow (toNat_pos h)
  obtain ⟨hlt, hset, hclearBelow⟩ := countrZero_spec h
  simp only [BitVec.testBit_toNat] at hlowest hbelow hclear
  have heq : lowest = countrZero word := by
    rcases lt_trichotomy lowest (countrZero word) with hlt | heq | hgt
    · rw [hclearBelow lowest hlt] at hlowest
      exact absurd hlowest Bool.false_ne_true
    · exact heq
    · rw [hbelow _ hgt] at hset
      exact absurd hset Bool.false_ne_true
  refine BitVec.eq_of_getLsbD_eq fun position _ ↦ ?_
  rw [← BitVec.testBit_toNat, toNat_clearLow h, hclear, heq, getLsbD_withBit hlt]
  split <;> simp_all

/-- One set bit is taken off. -/
theorem ones_cleared (hlt : position < 64) :
    ones (withBit word position false)
      = slots word.getLsbD 0 position ++ slots word.getLsbD (position + 1) 64 := by
  have hhere : slots (withBit word position false).getLsbD position (position + 1) = [] := by
    refine slots_eq_nil.mpr fun other hle hless ↦ ?_
    rw [getLsbD_withBit hlt, if_pos (by omega)]
  rw [ones, ← slots_append (zero_le position) hlt.le, ← slots_append (le_succ position) hlt, hhere,
    nil_append, slots_withBit hlt (by omega), slots_withBit hlt (by omega)]

theorem ones_eq_cons (h : word ≠ 0#64) : ones word = countrZero word :: ones (clearLow word) := by
  obtain ⟨hlt, hset, hbelow⟩ := countrZero_spec h
  have hlow : slots word.getLsbD 0 (countrZero word) = [] :=
    slots_eq_nil.mpr fun position _ hposition ↦ hbelow position hposition
  rw [clearLow_eq h, ones_cleared hlt, ones, slots_split (zero_le _) hlt hset, hlow, nil_append,
    nil_append]

theorem ones_eq_concat (h : word ≠ 0#64) :
    ones word = ones (clearBit word (highBit word)) ++ [highBit word] := by
  obtain ⟨hlt, hset, habove⟩ := highBit_spec h
  have hhigh : slots word.getLsbD (highBit word + 1) 64 = [] :=
    slots_eq_nil.mpr fun position hposition hlast ↦ habove position hlast hposition
  have hcleared : clearBit word (highBit word) = withBit word (highBit word) false := rfl
  rw [hcleared, ones_cleared hlt, ones, slots_split (zero_le _) hlt hset, hhigh, append_nil]

theorem popcount_eq_succ (h : word ≠ 0#64) : popcount word = popcount (clearLow word) + 1 := by
  rw [← length_ones, ones_eq_cons h, length_cons, length_ones]

/-- Taking off the lowest bits leaves the others. -/
theorem ones_iterate_clearLow (hrank : rank ≤ popcount word) :
    ones (clearLow^[rank] word) = (ones word).drop rank := by
  induction rank generalizing word with
  | zero => rfl
  | succ rank ih =>
    have hne : word ≠ 0#64 := by
      rintro rfl
      cases hrank
    have hlen := popcount_eq_succ hne
    rw [Function.iterate_succ_apply, ih (by omega), ones_eq_cons hne, drop_succ_cons]

theorem selectBit_spec (hrank : rank < popcount word) :
    (ones word)[rank]? = some (selectBit word rank) := by
  have hdrop := ones_iterate_clearLow hrank.le
  have hne : clearLow^[rank] word ≠ 0#64 := by
    intro hzero
    rw [ones_eq_nil.mpr hzero, eq_comm, drop_eq_nil_iff, length_ones] at hdrop
    omega
  have hhead := congrArg head? hdrop
  rw [ones_eq_cons hne, head?_cons, head?_drop] at hhead
  exact hhead.symm

/-! ## Scanning words -/

/-- The bit of a slot, for words that are given by their index. -/
def bitAt (bits : ℕ → Word) (slot : ℕ) : Bool := (bits (slot / 64)).getLsbD (slot % 64)

/-- The loop over the set bits of a word from the lowest. -/
def bitsUp (index : ℕ) : ℕ → Word → List ℕ
  | 0, _ => []
  | fuel + 1, word =>
    if word = 0#64 then [] else (64 * index + countrZero word) :: bitsUp index fuel (clearLow word)

/-- The loop over the set bits of a word from the highest. -/
def bitsDown (index : ℕ) : ℕ → Word → List ℕ
  | 0, _ => []
  | fuel + 1, word =>
    if word = 0#64 then []
    else (64 * index + highBit word) :: bitsDown index fuel (clearBit word (highBit word))

variable (bits : ℕ → Word)

/-- The set bits of a number of words, upwards from an index. -/
def scanUp : ℕ → ℕ → List ℕ
  | 0, _ => []
  | words + 1, index => bitsUp index 64 (bits index) ++ scanUp words (index + 1)

/-- The set bits of a number of words, downwards from an index. -/
def scanDown : ℕ → ℕ → List ℕ
  | 0, _ => []
  | words + 1, index => bitsDown index 64 (bits index) ++ scanDown words (index - 1)

/-- The lowest set bit of a number of words. -/
def firstUp : ℕ → ℕ → Option ℕ
  | 0, _ => none
  | words + 1, index =>
    if bits index = 0#64 then firstUp words (index + 1)
    else some (64 * index + countrZero (bits index))

/-- The highest set bit of a number of words. -/
def firstDown : ℕ → ℕ → Option ℕ
  | 0, _ => none
  | words + 1, index =>
    if bits index = 0#64 then firstDown words (index - 1)
    else some (64 * index + highBit (bits index))

variable {index words fuel : ℕ}

theorem bitsUp_eq (hfuel : popcount word ≤ fuel) :
    bitsUp index fuel word = (ones word).map (64 * index + ·) := by
  induction fuel generalizing word with
  | zero =>
    rw [← length_ones, le_zero, length_eq_zero_iff] at hfuel
    rw [hfuel, bitsUp, map_nil]
  | succ fuel ih =>
    rw [bitsUp]
    split
    · rename_i hzero
      rw [ones_eq_nil.mpr hzero, map_nil]
    · rename_i hne
      have hlen := popcount_eq_succ hne
      rw [ih (by omega), ones_eq_cons hne, map_cons]

theorem bitsDown_eq (hfuel : popcount word ≤ fuel) :
    bitsDown index fuel word = ((ones word).map (64 * index + ·)).reverse := by
  induction fuel generalizing word with
  | zero =>
    rw [← length_ones, le_zero, length_eq_zero_iff] at hfuel
    rw [hfuel, bitsDown, map_nil, reverse_nil]
  | succ fuel ih =>
    rw [bitsDown]
    split
    · rename_i hzero
      rw [ones_eq_nil.mpr hzero, map_nil, reverse_nil]
    rename_i hne
    have hconcat := ones_eq_concat hne
    have hlen := congrArg length hconcat
    rw [length_ones, length_append, length_ones, length_singleton] at hlen
    rw [ih (by omega), hconcat, map_append, reverse_append]
    rfl

theorem popcount_le : popcount word ≤ 64 := by
  have hle : popcount word ≤ (range 64).length := countP_le_length
  rwa [length_range] at hle

/-- The slots of one word. -/
theorem slots_word : slots (bitAt bits) (64 * index) (64 * (index + 1))
    = (ones (bits index)).map (64 * index + ·) := by
  have hcongr : slots (fun slot ↦ bitAt bits (64 * index + slot)) 0 64 = ones (bits index) := by
    refine slots_congr fun slot _ hslot ↦ ?_
    rw [bitAt, show (64 * index + slot) / 64 = index by omega,
      show (64 * index + slot) % 64 = slot by omega]
  rw [← hcongr, ← slots_add, mul_add, mul_one]
  rfl

theorem scanUp_eq :
    scanUp bits words index = slots (bitAt bits) (64 * index) (64 * (index + words)) := by
  induction words generalizing index with
  | zero =>
    symm
    exact slots_eq_nil.mpr fun slot hslot hlt ↦ by omega
  | succ words ih =>
    rw [scanUp, ih, bitsUp_eq popcount_le, ← slots_word bits,
      slots_append (by omega) (by omega), add_assoc, add_comm 1 words]

theorem scanDown_eq (hcnt : words ≤ index + 1) :
    scanDown bits words index
      = (slots (bitAt bits) (64 * (index + 1 - words)) (64 * (index + 1))).reverse := by
  induction words generalizing index with
  | zero =>
    have hnone : slots (bitAt bits) (64 * (index + 1 - 0)) (64 * (index + 1)) = [] :=
      slots_eq_nil.mpr fun slot hslot hlt ↦ by omega
    rw [scanDown, hnone, reverse_nil]
  | succ words ih =>
    rw [scanDown, bitsDown_eq popcount_le, ← slots_word bits]
    cases words with
    | zero =>
      rw [scanDown, append_nil]
      congr 2
    | succ words =>
      obtain ⟨index, rfl⟩ : ∃ before, index = before + 1 := ⟨index - 1, by omega⟩
      rw [Nat.add_sub_cancel, ih (by omega), ← reverse_append,
        slots_append (by omega) (by omega), Nat.add_sub_add_right (index + 1)]

theorem firstUp_eq : firstUp bits words index = (scanUp bits words index).head? := by
  induction words generalizing index with
  | zero => rfl
  | succ words ih =>
    rw [firstUp, scanUp]
    split
    · rename_i hzero
      rw [ih, bitsUp, if_pos hzero, nil_append]
    · rename_i hne
      rw [bitsUp, if_neg hne, cons_append, head?_cons]

theorem firstDown_eq : firstDown bits words index = (scanDown bits words index).head? := by
  induction words generalizing index with
  | zero => rfl
  | succ words ih =>
    rw [firstDown, scanDown]
    split
    · rename_i hzero
      rw [ih, bitsDown, if_pos hzero, nil_append]
    · rename_i hne
      rw [bitsDown, if_neg hne, cons_append, head?_cons]

end GoblinCore.WordBits
