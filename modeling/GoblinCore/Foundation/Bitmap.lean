import GoblinCore.Foundation.WordBits

/-!
# Bitmaps with counted words

A bitmap keeps one bit for every slot in words of 64, and a Fenwick tree over the numbers of set
bits of the words.  The tree finds the word of a rank and the bits of the word are taken off from
the lowest, so that ranks and slots are converted in both directions.  Windows of slots are
scanned, searched and filled word by word, under masks for the first and the last word.
-/

namespace GoblinCore

open Fenwick

/-- The words of a bitmap, and the tree of their numbers of set bits. -/
structure Bitmap where
  words : List (BitVec 64) := []
  tree : List UInt32 := []
deriving DecidableEq

namespace Bitmap

open WordBits List Nat Bool BitVec

variable (bitmap : Bitmap)

def wordAt (index : ℕ) : Word := bitmap.words.getD index 0#64

def isSet (slot : ℕ) : Bool := bitAt bitmap.wordAt slot

/-- The number of words that hold a number of slots. -/
def wordCount (slots : ℕ) : ℕ := (slots + 63) / 64

def zeros (slots : ℕ) : Bitmap where
  words := replicate (wordCount slots) 0#64
  tree := replicate (wordCount slots + 1) 0

/-- The change of a count in the tree. -/
def addCount (index : ℕ) (delta : ℤ) : Bitmap :=
  { bitmap with
    tree :=
      if delta = 0 then bitmap.tree
      else if 0 < delta then Fenwick.addCount bitmap.tree index (UInt32.ofNat delta.toNat)
      else Fenwick.addCount bitmap.tree index (-UInt32.ofNat (-delta).toNat) }

/-- A word is stored, and the tree is left as it is. -/
def setWord (index : ℕ) (word : Word) : Bitmap :=
  { bitmap with words := bitmap.words.set index word }

def set (slot : ℕ) (occupied : Bool) : Bitmap :=
  if bitmap.isSet slot = occupied then bitmap
  else if occupied then
    (bitmap.setWord (slot / 64) (bitmap.wordAt (slot / 64) ||| bitMask (slot % 64))).addCount
      (slot / 64) 1
  else
    (bitmap.setWord (slot / 64) (clearBit (bitmap.wordAt (slot / 64)) (slot % 64))).addCount
      (slot / 64) (-1)

/-- A slot is set and the tree is left as it is. -/
def mark (slot : ℕ) : Bitmap :=
  bitmap.setWord (slot / 64) (bitmap.wordAt (slot / 64) ||| bitMask (slot % 64))

/-- A slot is cleared and the tree is left as it is. -/
def unmark (slot : ℕ) : Bitmap :=
  bitmap.setWord (slot / 64) (clearBit (bitmap.wordAt (slot / 64)) (slot % 64))

/-- A set slot moves to a clear one.  Within a word no count changes. -/
def move (target source : ℕ) : Bitmap :=
  let moved := (bitmap.unmark source).mark target
  if source / 64 = target / 64 then moved
  else (moved.addCount (source / 64) (-1)).addCount (target / 64) 1

/-- The slots of a word that lie in a window. -/
def window (first stop index : ℕ) : Word :=
  (if index = first / 64 then ~~~lowMask (first % 64) else BitVec.allOnes 64) &&&
    if index = (stop - 1) / 64 ∧ stop % 64 ≠ 0 then lowMask (stop % 64) else BitVec.allOnes 64

/-- The number of words of a window. -/
def span (first stop : ℕ) : ℕ := (stop - 1) / 64 - first / 64 + 1

def filledWord (first stop : ℕ) (occupied : Bool) (index : ℕ) : Word :=
  if occupied then bitmap.wordAt index ||| window first stop index
  else bitmap.wordAt index &&& ~~~window first stop index

/-- The slots of a window are set or cleared, and the tree is left as it is. -/
def fillWords (first stop : ℕ) (occupied : Bool) : Bitmap :=
  if stop ≤ first then bitmap
  else (range' (first / 64) (span first stop)).foldl
    (fun bitmap index ↦ bitmap.setWord index (bitmap.filledWord first stop occupied index)) bitmap

/-- The slots of a window are set or cleared, and the words are counted again. -/
def fill (first stop : ℕ) (occupied : Bool) : Bitmap :=
  if stop ≤ first then bitmap
  else (range' (first / 64) (span first stop)).foldl
    (fun bitmap index ↦
      (bitmap.setWord index (bitmap.filledWord first stop occupied index)).addCount index
        (popcount (bitmap.filledWord first stop occupied index) - popcount (bitmap.wordAt index)))
    bitmap

def recount : Bitmap :=
  { bitmap with tree := rebuild (bitmap.words.map popcount) }

/-- The number of set slots before a slot. -/
def rank (slot : ℕ) : ℕ :=
  (prefixCount bitmap.tree (slot / 64)).toNat +
    if slot % 64 ≠ 0 ∧ slot / 64 < bitmap.words.length then
      popcount (bitmap.wordAt (slot / 64) &&& lowMask (slot % 64))
    else 0

/-- The set slot of a rank. -/
def select (rank : ℕ) : ℕ :=
  let found := locate bitmap.tree bitmap.words.length rank
  64 * found.1 + selectBit (bitmap.wordAt found.1) found.2

/-- The set slots of a window, in order. -/
def scan (first stop : ℕ) : List ℕ :=
  scanUp (fun index ↦ bitmap.wordAt index &&& window first stop index) (span first stop)
    (first / 64)

/-- The set slots of a window, from the last. -/
def scanReverse (first stop : ℕ) : List ℕ :=
  scanDown (fun index ↦ bitmap.wordAt index &&& window first stop index) (span first stop)
    ((stop - 1) / 64)

/-- The clear slots of a word that lie in a window and below a number of slots. -/
def clearBits (slots first stop index : ℕ) : Word :=
  ~~~bitmap.wordAt index &&& window first stop index &&&
    if slots < 64 * index + 64 then lowMask (slots % 64) else BitVec.allOnes 64

def firstClear (slots first stop : ℕ) : Option ℕ :=
  firstUp (bitmap.clearBits slots first stop) (span first stop) (first / 64)

def lastClear (slots first stop : ℕ) : Option ℕ :=
  firstDown (bitmap.clearBits slots first stop) (span first stop) ((stop - 1) / 64)

/-- The tree holds the numbers of set bits of the words. -/
def Counted : Prop := Fenwick.Represents bitmap.tree (bitmap.words.map popcount)

variable {bitmap : Bitmap} {slot other index first stop : ℕ}

/-! ## One slot -/

@[simp] theorem words_addCount (delta : ℤ) :
    (bitmap.addCount index delta).words = bitmap.words := rfl

theorem isSet_congr {other : Bitmap} (h : bitmap.words = other.words) :
    bitmap.isSet slot = other.isSet slot := by
  rw [isSet, isSet, bitAt, bitAt, wordAt, wordAt, h]

@[simp] theorem length_setWord {word : Word} :
    (bitmap.setWord index word).words.length = bitmap.words.length := length_set

theorem wordAt_setWord (hidx : index < bitmap.words.length) (word : Word) :
    (bitmap.setWord index word).wordAt other
      = if other = index then word else bitmap.wordAt other := by
  rw [wordAt, setWord, getD_eq_getElem?_getD]
  split
  · rename_i heq
    rw [heq, getElem?_set_self hidx, Option.getD_some]
  · rename_i hne
    rw [getElem?_set_ne (Ne.symm hne), wordAt, getD_eq_getElem?_getD]

theorem isSet_setWord (hidx : index < bitmap.words.length) (word : Word) :
    (bitmap.setWord index word).isSet slot
      = if slot / 64 = index then word.getLsbD (slot % 64) else bitmap.isSet slot := by
  rw [isSet, bitAt, wordAt_setWord hidx]
  split <;> rfl

variable (bitmap) in
theorem getD_popcounts (index : ℕ) :
    (bitmap.words.map popcount).getD index 0 = popcount (bitmap.wordAt index) := by
  rw [wordAt, getD_eq_getElem?_getD, getD_eq_getElem?_getD, getElem?_map]
  cases bitmap.words[index]? with
  | none => decide
  | some word => rfl

/-- Storing a word and changing its count by the difference. -/
theorem Counted.setWord (h : bitmap.Counted) (hidx : index < bitmap.words.length) (word : Word)
    {delta : ℤ} (hdelta : delta = popcount word - popcount (bitmap.wordAt index)) :
    ((bitmap.setWord index word).addCount index delta).Counted := by
  have hlen : index < (bitmap.words.map popcount).length := by rwa [length_map]
  have hcnt := getD_popcounts bitmap index
  rw [Counted, words_addCount, Bitmap.setWord, map_set]
  dsimp only [addCount]
  split
  · rw [getD_eq_getElem _ _ hlen] at hcnt
    rw [show popcount word = (bitmap.words.map popcount)[index] by omega, set_getElem_self]
    exact h
  · split
    · refine Fenwick.Represents.addCount_set h hlen ?_
      rw [hcnt, ← UInt32.ofNat_add]
      congr 1
      omega
    · refine Fenwick.Represents.addCount_set h hlen ?_
      rw [hcnt, UInt32.add_neg_eq_sub, ← UInt32.ofNat_sub (by omega)]
      congr 1
      omega

/-- A slot is set or cleared and the tree is left as it is. -/
def putBit (bitmap : Bitmap) (slot : ℕ) (bit : Bool) : Bitmap :=
  bitmap.setWord (slot / 64) (withBit (bitmap.wordAt (slot / 64)) (slot % 64) bit)

theorem isSet_putBit (hslot : slot / 64 < bitmap.words.length) (bit : Bool) (other : ℕ) :
    (bitmap.putBit slot bit).isSet other = if other = slot then bit else bitmap.isSet other := by
  rw [putBit, isSet_setWord hslot, getLsbD_withBit (mod_lt slot (by decide))]
  split
  · rename_i hidx
    rw [isSet, bitAt, hidx]
    exact if_congr (by omega) rfl rfl
  · rename_i hidx
    rw [if_neg fun heq ↦ hidx (by rw [heq])]

theorem Counted.putBit (h : bitmap.Counted) (hslot : slot / 64 < bitmap.words.length) {bit : Bool}
    (hne : bitmap.isSet slot ≠ bit) :
    ((bitmap.putBit slot bit).addCount (slot / 64) (if bit then 1 else -1)).Counted := by
  have hcnt := @popcount_withBit (bitmap.wordAt (slot / 64)) (slot % 64) bit
    (mod_lt slot (by decide))
  refine h.setWord hslot _ ?_
  rw [isSet, bitAt] at hne
  cases bit with
  | true =>
    simp only [eq_false_of_ne_true hne, toNat_true, toNat_false] at hcnt
    rw [if_pos rfl]
    omega
  | false =>
    simp only [eq_true_of_ne_false hne, toNat_true, toNat_false] at hcnt
    rw [if_neg Bool.false_ne_true]
    omega

/-- A slot is set or cleared, and its word is counted again. -/
theorem set_spec (hslot : slot / 64 < bitmap.words.length) (h : bitmap.Counted) {occupied : Bool} :
    (bitmap.set slot occupied).Counted ∧
      (bitmap.set slot occupied).words.length = bitmap.words.length ∧
        ∀ other, (bitmap.set slot occupied).isSet other
          = if other = slot then occupied else bitmap.isSet other := by
  have hset : bitmap.set slot occupied = if bitmap.isSet slot = occupied then bitmap
      else (bitmap.putBit slot occupied).addCount (slot / 64) (if occupied then 1 else -1) := by
    cases occupied <;> rfl
  rw [hset]
  split
  · rename_i hsame
    refine ⟨h, rfl, fun other ↦ ?_⟩
    split
    · rename_i heq
      rw [heq, hsame]
    · rfl
  · rename_i hdiffers
    exact ⟨h.putBit hslot hdiffers, length_setWord, isSet_putBit hslot occupied⟩

section

variable {target source : ℕ} (htgt : target / 64 < bitmap.words.length)
  (hsrc : source / 64 < bitmap.words.length)
include htgt hsrc

/-- A set slot moves to a clear one. -/
theorem move_spec : (bitmap.move target source).words.length = bitmap.words.length ∧
    ∀ other, (bitmap.move target source).isSet other
      = if other = target then true else if other = source then false else bitmap.isSet other := by
  have hmoved : ((bitmap.unmark source).mark target).words.length = bitmap.words.length ∧
      ∀ other, ((bitmap.unmark source).mark target).isSet other
        = if other = target then true else if other = source then false
          else bitmap.isSet other := by
    refine ⟨length_setWord.trans length_setWord, fun other ↦ ?_⟩
    rw [← isSet_putBit hsrc false]
    exact isSet_putBit (length_setWord.symm ▸ htgt) true other
  rw [move]
  split
  · exact hmoved
  · exact hmoved

theorem Counted.move (h : bitmap.Counted) (hset : bitmap.isSet source = true)
    (hclear : bitmap.isSet target = false) : (bitmap.move target source).Counted := by
  have hstill : (bitmap.putBit source false).isSet target = false := by
    rw [isSet_putBit hsrc, hclear, ite_self]
  rw [Bitmap.move]
  split
  · rename_i hword
    -- one word gains a bit and loses one, so that its count stays
    have hless := @popcount_withBit (bitmap.wordAt (source / 64)) (source % 64) false
      (mod_lt source (by decide))
    have hmore := @popcount_withBit ((bitmap.putBit source false).wordAt (target / 64))
      (target % 64) true (mod_lt target (by decide))
    have haft : (bitmap.putBit source false).wordAt (target / 64)
        = withBit (bitmap.wordAt (source / 64)) (source % 64) false := by
      rw [Bitmap.putBit, wordAt_setWord hsrc, if_pos hword.symm]
    have hdelta : (0 : ℤ) = popcount (withBit ((bitmap.putBit source false).wordAt (target / 64))
        (target % 64) true) - popcount (bitmap.wordAt (target / 64)) := by
      rw [isSet, bitAt] at hset hstill
      rw [hset, ← haft] at hless
      rw [hstill] at hmore
      simp only [toNat_true, toNat_false] at hless hmore
      rw [hword] at hless
      omega
    have hwords : (bitmap.putBit source false).words = bitmap.words.set (target / 64)
        (withBit (bitmap.wordAt (source / 64)) (source % 64) false) := by
      rw [← hword]
      rfl
    change Fenwick.Represents bitmap.tree (((bitmap.putBit source false).words.set (target / 64)
      (withBit _ (target % 64) true)).map popcount)
    rw [hwords, set_set]
    exact h.setWord htgt _ hdelta
  · have hfst := h.putBit hsrc (hset.trans_ne (Bool.false_ne_true ·.symm))
    exact hfst.putBit (by simpa [Bitmap.putBit] using htgt) (hstill.trans_ne Bool.false_ne_true)

end

/-! ## Windows -/

/-- A word of a window has the bits of the slots in the window. -/
theorem getLsbD_window (hfst : first / 64 ≤ slot / 64) (hstop : slot / 64 ≤ (stop - 1) / 64)
    (hlt : first < stop) :
    (window first stop (slot / 64)).getLsbD (slot % 64) = decide (first ≤ slot ∧ slot < stop) := by
  have hslot : slot % 64 < 64 := mod_lt slot (by decide)
  have hlow : (if slot / 64 = first / 64 then ~~~lowMask (first % 64)
      else BitVec.allOnes 64).getLsbD (slot % 64) = decide (first ≤ slot) := by
    split
    · rw [getLsbD_not, getLsbD_lowMask (mod_lt first (by decide)), decide_eq_true hslot,
        Bool.true_and, ← decide_not]
      exact decide_eq_decide.mpr (by omega)
    · rw [getLsbD_allOnes]
      exact decide_eq_decide.mpr (by omega)
  have hhigh : (if slot / 64 = (stop - 1) / 64 ∧ stop % 64 ≠ 0 then lowMask (stop % 64)
      else BitVec.allOnes 64).getLsbD (slot % 64) = decide (slot < stop) := by
    split
    · rw [getLsbD_lowMask (mod_lt stop (by decide))]
      exact decide_eq_decide.mpr (by omega)
    · rw [getLsbD_allOnes]
      exact decide_eq_decide.mpr (by omega)
  rw [window, getLsbD_and, hlow, hhigh, ← decide_and]

section

variable (hlt : first < stop)
include hlt

/-- The words of a window cover its slots. -/
theorem span_spec : 64 * (first / 64) ≤ first ∧
    stop ≤ 64 * (first / 64 + span first stop) ∧
      ∀ slot, 64 * (first / 64) ≤ slot → slot < 64 * (first / 64 + span first stop) →
        first / 64 ≤ slot / 64 ∧ slot / 64 ≤ (stop - 1) / 64 := by
  rw [span]
  refine ⟨by omega, by omega, fun slot hslot hbound ↦ by omega⟩

/-- Slots of the words of a window that are masked by the window. -/
theorem slots_window {bits : ℕ → Word} {test : ℕ → Bool}
    (hbits : ∀ slot, first / 64 ≤ slot / 64 → slot / 64 ≤ (stop - 1) / 64 → bitAt bits slot = (test
      slot && decide (first ≤ slot ∧ slot < stop))) :
    slots (bitAt bits) (64 * (first / 64)) (64 * (first / 64 + span first stop))
      = slots test first stop := by
  obtain ⟨hlow, hhigh, hwords⟩ := span_spec hlt
  have hbef : slots (bitAt bits) (64 * (first / 64)) first = [] := by
    refine slots_eq_nil.mpr fun slot hslot hless ↦ ?_
    obtain ⟨hfrom, hto⟩ := hwords slot hslot (by omega)
    rw [hbits slot hfrom hto, decide_eq_false (by omega), Bool.and_false]
  have haft : slots (bitAt bits) stop (64 * (first / 64 + span first stop)) = [] := by
    refine slots_eq_nil.mpr fun slot hslot hless ↦ ?_
    obtain ⟨hfrom, hto⟩ := hwords slot (by omega) hless
    rw [hbits slot hfrom hto, decide_eq_false (by omega), Bool.and_false]
  rw [← slots_append hlow (by omega), hbef, ← slots_append hlt.le hhigh, haft, nil_append,
    append_nil]
  refine slots_congr fun slot hslot hless ↦ ?_
  obtain ⟨hfrom, hto⟩ := hwords slot (by omega) (by omega)
  rw [hbits slot hfrom hto, decide_eq_true ⟨hslot, hless⟩, Bool.and_true]

theorem bitAt_scan (slot : ℕ) (hfrom : first / 64 ≤ slot / 64) (hto : slot / 64 ≤ (stop - 1) / 64) :
    bitAt (fun index ↦ bitmap.wordAt index &&& window first stop index) slot
      = (bitmap.isSet slot && decide (first ≤ slot ∧ slot < stop)) := by
  rw [bitAt, getLsbD_and, getLsbD_window hfrom hto hlt]
  rfl

theorem scan_eq : bitmap.scan first stop = slots bitmap.isSet first stop := by
  rw [scan, scanUp_eq, slots_window hlt (bitAt_scan hlt)]

theorem span_le : span first stop ≤ (stop - 1) / 64 + 1 ∧
    (stop - 1) / 64 + 1 - span first stop = first / 64 ∧
      (stop - 1) / 64 + 1 = first / 64 + span first stop := by
  rw [span]
  omega

theorem scanReverse_eq :
    bitmap.scanReverse first stop = (slots bitmap.isSet first stop).reverse := by
  obtain ⟨hle, hstart, hend⟩ := span_le hlt
  rw [scanReverse, scanDown_eq _ hle, hstart, hend, slots_window hlt (bitAt_scan hlt)]

theorem bitAt_clearBits {capacity : ℕ} (hcap : stop ≤ capacity) (slot : ℕ)
    (hfrom : first / 64 ≤ slot / 64) (hto : slot / 64 ≤ (stop - 1) / 64) :
    bitAt (bitmap.clearBits capacity first stop) slot
      = (!bitmap.isSet slot && decide (first ≤ slot ∧ slot < stop)) := by
  have hslot : slot % 64 < 64 := mod_lt slot (by decide)
  have hbelow : (if capacity < 64 * (slot / 64) + 64 then lowMask (capacity % 64)
      else BitVec.allOnes 64).getLsbD (slot % 64) = decide (slot % 64 < capacity % 64 ∨
        64 * (slot / 64) + 64 ≤ capacity) := by
    split
    · rw [getLsbD_lowMask (mod_lt capacity (by decide))]
      exact decide_eq_decide.mpr (by omega)
    · rw [getLsbD_allOnes]
      exact decide_eq_decide.mpr (by omega)
  rw [bitAt, clearBits, getLsbD_and, getLsbD_and, getLsbD_not,
    getLsbD_window hfrom hto hlt, hbelow, decide_eq_true hslot, Bool.true_and]
  by_cases hin : first ≤ slot ∧ slot < stop
  · rw [decide_eq_true hin, decide_eq_true (by omega), Bool.and_true]
    rfl
  · rw [decide_eq_false hin, Bool.and_false, Bool.false_and, Bool.and_false]

end

variable (bitmap) in
theorem firstClear_eq {capacity : ℕ} (hlt : first < stop) (hcap : stop ≤ capacity) :
    bitmap.firstClear capacity first stop
      = (slots (fun slot ↦ !bitmap.isSet slot) first stop).head? := by
  rw [firstClear, firstUp_eq, scanUp_eq, slots_window hlt (bitAt_clearBits hlt hcap)]

variable (bitmap) in
theorem lastClear_eq {capacity : ℕ} (hlt : first < stop) (hcap : stop ≤ capacity) :
    bitmap.lastClear capacity first stop
      = (slots (fun slot ↦ !bitmap.isSet slot) first stop).getLast? := by
  obtain ⟨hle, hstart, hend⟩ := span_le hlt
  rw [lastClear, firstDown_eq, scanDown_eq _ hle, hstart, hend,
    slots_window hlt (bitAt_clearBits hlt hcap), head?_reverse]

/-! ## Filling a window -/

theorem isSet_filledWord (hfrom : first / 64 ≤ slot / 64) (hto : slot / 64 ≤ (stop - 1) / 64)
    (hlt : first < stop) (occupied : Bool) :
    (bitmap.filledWord first stop occupied (slot / 64)).getLsbD (slot % 64)
      = if first ≤ slot ∧ slot < stop then occupied else bitmap.isSet slot := by
  have hslot : slot % 64 < 64 := mod_lt slot (by decide)
  rw [filledWord]
  cases occupied with
  | true =>
    rw [if_pos rfl, getLsbD_or, getLsbD_window hfrom hto hlt]
    split
    · rename_i hin
      rw [decide_eq_true hin, Bool.or_true]
    · rename_i hout
      rw [decide_eq_false hout, Bool.or_false]
      rfl
  | false =>
    rw [if_neg Bool.false_ne_true, getLsbD_and, getLsbD_not,
      getLsbD_window hfrom hto hlt, decide_eq_true hslot, Bool.true_and]
    split
    · rename_i hin
      rw [decide_eq_true hin, Bool.not_true, Bool.and_false]
    · rename_i hout
      rw [decide_eq_false hout, Bool.not_false, Bool.and_true]
      rfl

section

-- a loop over the words of a window that stores the filled words, whatever it does to the tree
variable {occupied : Bool} {step : Bitmap → ℕ → Bitmap} (hstep : ∀ bitmap index,
  (step bitmap index).words
    = (bitmap.setWord index (bitmap.filledWord first stop occupied index)).words)
  (hstop : stop ≤ 64 * bitmap.words.length)
include hstep hstop

/-- Word after word the loop fills what lies in the words it has passed. -/
theorem filled_loop (hlt : first < stop) {count : ℕ} (hcnt : count ≤ span first stop) :
    ((range' (first / 64) count).foldl step bitmap).words.length = bitmap.words.length ∧
      ∀ slot, ((range' (first / 64) count).foldl step bitmap).isSet slot
        = if first ≤ slot ∧ slot < stop ∧ slot / 64 < first / 64 + count then occupied
          else bitmap.isSet slot := by
  induction count with
  | zero =>
    refine ⟨rfl, fun slot ↦ ?_⟩
    rw [if_neg (by omega)]
    rfl
  | succ count ih =>
    obtain ⟨hlen, hslots⟩ := ih (by omega)
    obtain ⟨-, -, hend⟩ := span_le hlt
    rw [range'_concat, foldl_append, one_mul, foldl_cons, foldl_nil]
    generalize (range' (first / 64) count).foldl step bitmap = filled at hlen hslots ⊢
    have hwords := hstep filled (first / 64 + count)
    refine ⟨(congrArg length hwords).trans (length_setWord.trans hlen), fun slot ↦ ?_⟩
    rw [isSet_congr hwords, isSet_setWord (by omega)]
    split
    · rename_i hword
      rw [← hword, isSet_filledWord (by omega) (by omega) hlt, hslots]
      by_cases hin : first ≤ slot ∧ slot < stop
      · rw [if_pos hin, if_pos ⟨hin.1, hin.2, by omega⟩]
      · rw [if_neg hin, if_neg (by omega), if_neg (by omega)]
    · rw [hslots]
      exact if_congr (by omega) rfl rfl

theorem filled_spec {filled : Bitmap} (hfilled : filled = if stop ≤ first then bitmap
      else (range' (first / 64) (span first stop)).foldl step bitmap) :
    filled.words.length = bitmap.words.length ∧
      ∀ slot, filled.isSet slot
        = if first ≤ slot ∧ slot < stop then occupied else bitmap.isSet slot := by
  rw [hfilled]
  split
  · refine ⟨rfl, fun slot ↦ ?_⟩
    rw [if_neg (by omega)]
  rename_i hlt
  rw [not_le] at hlt
  obtain ⟨-, -, hend⟩ := span_le hlt
  obtain ⟨hlen, hslots⟩ := filled_loop hstep hstop hlt (le_refl _)
  exact ⟨hlen, fun slot ↦ (hslots slot).trans (if_congr (by omega) rfl rfl)⟩

end

theorem fillWords_spec (hstop : stop ≤ 64 * bitmap.words.length) {occupied : Bool} :
    (bitmap.fillWords first stop occupied).words.length = bitmap.words.length ∧
      ∀ slot, (bitmap.fillWords first stop occupied).isSet slot
        = if first ≤ slot ∧ slot < stop then occupied else bitmap.isSet slot :=
  filled_spec (fun _ _ ↦ rfl) hstop rfl

theorem fill_spec (hstop : stop ≤ 64 * bitmap.words.length) {occupied : Bool} (h : bitmap.Counted) :
    (bitmap.fill first stop occupied).Counted ∧
      (bitmap.fill first stop occupied).words.length = bitmap.words.length ∧
        ∀ slot, (bitmap.fill first stop occupied).isSet slot
          = if first ≤ slot ∧ slot < stop then occupied else bitmap.isSet slot := by
  refine ⟨?_, filled_spec ?_ hstop rfl⟩
  swap
  · exact fun _ _ ↦ rfl
  rw [fill]
  split
  · exact h
  rename_i hlt
  rw [not_le] at hlt
  obtain ⟨-, -, hend⟩ := span_le hlt
  have hcounted : ∀ count ≤ span first stop, ((range' (first / 64) count).foldl
      (fun bitmap index ↦ (bitmap.setWord index (bitmap.filledWord first stop occupied
        index)).addCount index (popcount (bitmap.filledWord first stop occupied index)
          - popcount (bitmap.wordAt index))) bitmap).Counted := by
    intro count hcnt
    induction count with
    | zero => exact h
    | succ count ih =>
      rw [range'_concat, foldl_append, one_mul]
      refine (ih (by omega)).setWord ?_ _ rfl
      refine lt_of_lt_of_eq (by omega)
        (@filled_loop _ _ _ occupied _ ?_ hstop hlt count (by omega)).1.symm
      exact fun _ _ ↦ rfl
  exact hcounted _ (le_refl _)

/-! ## Ranks -/

theorem counted_recount : bitmap.recount.Counted :=
  represents_rebuild

@[simp] theorem isSet_zeros (slots slot : ℕ) : (zeros slots).isSet slot = false := by
  rw [isSet, bitAt, wordAt, zeros, getD_eq_getElem?_getD, getElem?_replicate]
  split <;> exact getLsbD_zero

theorem slots_wordAt : slots bitmap.isSet (64 * index) (64 * (index + 1))
    = (ones (bitmap.wordAt index)).map (64 * index + ·) := slots_word bitmap.wordAt

/-- The words before an index have the set slots before it. -/
theorem total_popcounts :
    total (bitmap.words.map popcount) index = (slots bitmap.isSet 0 (64 * index)).length := by
  induction index with
  | zero => rfl
  | succ index ih =>
    rw [total_succ, ih, getD_popcounts,
      ← slots_append (zero_le (64 * index)) (by omega : 64 * index ≤ 64 * (index + 1)),
      length_append, slots_wordAt, length_map, length_ones]

/-- All set slots lie in the words. -/
theorem sum_popcounts : (bitmap.words.map popcount).sum
    = (slots bitmap.isSet 0 (64 * bitmap.words.length)).length := by
  rw [← total_popcounts, ← total_length, length_map]

/-- The set slots of a word below a position. -/
theorem popcount_lowMask {position : ℕ} (hpos : position < 64) (word : Word) :
    popcount (word &&& lowMask position) = (slots word.getLsbD 0 position).length := by
  have hlow : slots (word &&& lowMask position).getLsbD 0 position
      = slots word.getLsbD 0 position := by
    refine slots_congr fun slot _ hslot ↦ ?_
    rw [getLsbD_and, getLsbD_lowMask hpos, decide_eq_true hslot, Bool.and_true]
  have hhigh : slots (word &&& lowMask position).getLsbD position 64 = [] := by
    refine slots_eq_nil.mpr fun slot hslot _ ↦ ?_
    rw [getLsbD_and, getLsbD_lowMask hpos, decide_eq_false (by omega), Bool.and_false]
  rw [← length_ones, ones, ← slots_append (zero_le position) hpos.le, hlow, hhigh, append_nil]

section

variable (h : bitmap.Counted) (hsum : (bitmap.words.map popcount).sum < 2 ^ 32)
include h hsum

theorem rank_eq (hslot : slot ≤ 64 * bitmap.words.length) :
    bitmap.rank slot = (slots bitmap.isSet 0 slot).length := by
  have hidx : slot / 64 ≤ (bitmap.words.map popcount).length := by
    rw [length_map]
    omega
  have hbef : (prefixCount bitmap.tree (slot / 64)).toNat
      = (slots bitmap.isSet 0 (64 * (slot / 64))).length := by
    have hbound := lt_of_le_of_lt (total_le_sum _ (slot / 64)) hsum
    rw [Fenwick.Represents.prefixCount_eq h hidx, UInt32.toNat_ofNat_of_lt' hbound, total_popcounts]
  have hword : slots bitmap.isSet (64 * (slot / 64)) slot
      = (slots (bitmap.wordAt (slot / 64)).getLsbD 0 (slot % 64)).map (64 * (slot / 64) + ·) := by
    have hcongr : slots (fun position ↦ bitmap.isSet (64 * (slot / 64) + position)) 0 (slot % 64)
        = slots (bitmap.wordAt (slot / 64)).getLsbD 0 (slot % 64) := by
      refine slots_congr fun position _ hpos ↦ ?_
      rw [isSet, bitAt, show (64 * (slot / 64) + position) / 64 = slot / 64 by omega,
        show (64 * (slot / 64) + position) % 64 = position by omega]
    rw [← hcongr, ← slots_add, div_add_mod]
    rfl
  rw [rank, hbef, ← slots_append (zero_le (64 * (slot / 64))) (mul_div_le slot 64),
    length_append, hword, length_map]
  congr 1
  split
  · exact popcount_lowMask (mod_lt slot (by decide)) _
  · rw [show slot % 64 = 0 by omega]
    rfl

/-- The slot that is selected has the rank. -/
theorem select_spec {rank : ℕ} (hrank : rank < (bitmap.words.map popcount).sum) :
    (slots bitmap.isSet 0 (64 * bitmap.words.length))[rank]? = some (bitmap.select rank) := by
  obtain ⟨hword, hbef, hin⟩ := Fenwick.Represents.locate_spec h hsum hrank
  rw [length_map] at hword hbef hin
  rw [getD_popcounts] at hin
  rw [total_popcounts] at hbef
  have hselect : bitmap.select rank
      = 64 * (locate bitmap.tree bitmap.words.length rank).1
        + selectBit (bitmap.wordAt (locate bitmap.tree bitmap.words.length rank).1)
          (locate bitmap.tree bitmap.words.length rank).2 := rfl
  rw [hselect]
  generalize (locate bitmap.tree bitmap.words.length rank).1 = index at *
  generalize (locate bitmap.tree bitmap.words.length rank).2 = offset at *
  have hoff : rank - (slots bitmap.isSet 0 (64 * index)).length = offset := by omega
  rw [← slots_append (zero_le (64 * index)) (by omega), getElem?_append_right (by omega), hoff,
    ← slots_append (by omega : 64 * index ≤ 64 * (index + 1)) (by omega), slots_wordAt,
    getElem?_append_left (by rw [length_map, length_ones]; exact hin), getElem?_map,
    selectBit_spec hin]
  rfl

end

/-- Where no slot is set, the first one is looked for behind the last word. -/
theorem select_zeros (slots : ℕ) : (zeros slots).select 0 = 64 * wordCount slots + 64 := by
  have hfound : locate (zeros slots).tree (zeros slots).words.length 0 = (wordCount slots, 0) := by
    have hoffset : (UInt32.ofNat (0 + 1) - 1).toNat = 0 := by decide
    rw [zeros, length_replicate, locate, descend_replicate (by decide) (zero_le _)
      ((lt_size_self _).trans_eq (zero_add _).symm)]
    exact congrArg (Prod.mk _) hoffset
  have hword : (zeros slots).wordAt (wordCount slots) = 0#64 := by simp [wordAt, zeros]
  have hbit : selectBit 0#64 0 = 64 := by decide
  rw [select, hfound, hword, hbit]

/-- Nothing is counted in words that are zero. -/
theorem sum_popcounts_zeros (slots : ℕ) : ((zeros slots).words.map popcount).sum = 0 := by
  rw [zeros, map_replicate, sum_replicate, show popcount 0#64 = 0 by decide, smul_zero]

end Bitmap
end GoblinCore
