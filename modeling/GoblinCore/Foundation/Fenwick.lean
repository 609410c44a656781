import Mathlib.Data.Nat.Bitwise
import Mathlib.Data.Nat.Size
import Mathlib.Algebra.Order.BigOperators.Group.List
import Mathlib.Algebra.BigOperators.Group.List.Lemmas
import Mathlib.Algebra.Ring.Parity
import Mathlib.Tactic.Ring
import Mathlib.Tactic.Positivity
import Mathlib.Data.Nat.Factorization.Basic

/-!
# Fenwick trees of 32-bit counts

Node `n` of the tree holds the counts from the position `dropLow n` up to `n`, where `dropLow`
clears the lowest set bit.  A prefix is summed by clearing bits, a count is changed in the nodes
that are reached by adding lowest bits, and the position of a rank is found by descending over
powers of two.  The nodes are machine words: prefixes and changes are exact modulo 2^32, and the
descent is when the counts add up to less.
-/

namespace GoblinCore.Fenwick

open List Nat

/-! ## Lowest bits -/

/-- The node without its lowest set bit: `node & (node - 1)`. -/
def dropLow (node : ℕ) : ℕ := node &&& (node - 1)

/-- The lowest set bit of a node: `node & (~node + 1)`. -/
def lowBit (node : ℕ) : ℕ := node - dropLow node

variable {node k position last : ℕ}

theorem dropLow_lt (h : 0 < node) : dropLow node < node :=
  lt_of_le_of_lt and_le_right (sub_lt h one_pos)

theorem dropLow_double (m : ℕ) : dropLow (2 * m) = 2 * dropLow m := by
  cases m with
  | zero => rfl
  | succ m =>
    have hpred : 2 * (m + 1) - 1 = Nat.bit true m := by
      rw [bit_true_apply]
      omega
    rw [dropLow, hpred, ← bit_false_apply, land_bit]
    simp [dropLow]

theorem dropLow_odd (m : ℕ) : dropLow (2 * m + 1) = 2 * m := by
  rw [dropLow, Nat.add_sub_cancel, ← Nat.bit_true_apply, ← Nat.bit_false_apply, Nat.land_bit]
  simp

theorem dropLow_pow_mul (m : ℕ) : dropLow (2 ^ k * m) = 2 ^ k * dropLow m := by
  induction k with
  | zero => simp
  | succ k ih => rw [pow_succ', mul_assoc, dropLow_double, ih, mul_assoc]

/-- Bits above do not matter to the lowest. -/
theorem dropLow_add {r : ℕ} (m : ℕ) (hpos : 0 < r) (hlt : r < 2 ^ k) :
    dropLow (2 ^ k * m + r) = 2 ^ k * m + dropLow r := by
  induction k generalizing r with
  | zero => exact absurd hlt (by omega)
  | succ k ih =>
    rw [pow_succ'] at hlt ⊢
    rcases even_or_odd' r with ⟨half, rfl | rfl⟩
    · rw [mul_assoc, ← mul_add, dropLow_double, ih (by omega) (by omega), dropLow_double, mul_add]
    · rw [← add_assoc, mul_assoc, ← mul_add, dropLow_odd, dropLow_odd, mul_add]

/-- A node is an odd number of times its lowest bit. -/
theorem exists_odd_mul (h : 0 < node) :
    ∃ k half, node = 2 ^ k * (2 * half + 1) ∧ dropLow node = 2 ^ k * (2 * half) ∧
      lowBit node = 2 ^ k := by
  obtain ⟨k, odd, ⟨half, rfl⟩, rfl⟩ := exists_eq_two_pow_mul_odd h.ne'
  refine ⟨k, half, rfl, by rw [dropLow_pow_mul, dropLow_odd], ?_⟩
  rw [lowBit, dropLow_pow_mul, dropLow_odd, Nat.mul_add, Nat.mul_one, Nat.add_sub_cancel_left]

theorem lowBit_pos (h : 0 < node) : 0 < lowBit node :=
  Nat.sub_pos_of_lt (dropLow_lt h)

/-- The next node starts no later. -/
theorem dropLow_next_le (h : 0 < node) : dropLow (node + lowBit node) ≤ dropLow node := by
  obtain ⟨k, half, hnode, hdrop, hlow⟩ := exists_odd_mul h
  have hnext : node + lowBit node = 2 ^ (k + 1) * (half + 1) := by
    rw [hlow, hnode]
    ring
  have hstart : dropLow node = 2 ^ (k + 1) * half := by
    rw [hdrop]
    ring
  rw [hnext, hstart, dropLow_pow_mul]
  exact Nat.mul_le_mul_left _ (Nat.lt_succ_iff.mp (dropLow_lt (Nat.succ_pos half)))

variable {other positions : ℕ} {delta : UInt32}

/-- The nodes up to the next one start no earlier than the node ends. -/
theorem le_dropLow_between (h : 0 < node) (hlt : node < other)
    (hnext : other < node + lowBit node) : node ≤ dropLow other := by
  obtain ⟨k, half, hnode, -, hlow⟩ := exists_odd_mul h
  obtain ⟨r, rfl⟩ := Nat.exists_eq_add_of_lt hlt
  have hdrop : dropLow (node + (r + 1)) = node + dropLow (r + 1) := by
    rw [hnode]
    exact dropLow_add _ (succ_pos r) (by omega)
  rw [add_assoc, hdrop]
  exact le_add_right _ _

theorem dropLow_add_pow (h : 2 ^ (k + 1) ∣ node) : dropLow (node + 2 ^ k) = node := by
  obtain ⟨half, rfl⟩ := h
  have hodd : 2 ^ (k + 1) * half + 2 ^ k = 2 ^ k * (2 * half + 1) := by ring
  rw [hodd, dropLow_pow_mul, dropLow_odd]
  ring

/-! ## The tree -/

/-- The sum of the counts before a position. -/
def total (counts : List ℕ) (position : ℕ) : ℕ := (counts.take position).sum

variable (tree : List UInt32)

/-- The loop that sums a prefix. -/
def prefixLoop : ℕ → ℕ → UInt32 → UInt32
  | 0, _, sum => sum
  | fuel + 1, node, sum =>
    if node = 0 then sum else prefixLoop fuel (dropLow node) (sum + tree.getD node 0)

def prefixCount (positions : ℕ) : UInt32 :=
  prefixLoop tree positions positions 0

/-- The loop that changes a count. -/
def addLoop (delta : UInt32) : ℕ → ℕ → List UInt32 → List UInt32
  | 0, _, tree => tree
  | fuel + 1, node, tree =>
    if node < tree.length then
      addLoop delta fuel (node + lowBit node) (tree.set node (tree.getD node 0 + delta))
    else tree

def addCount (position : ℕ) (delta : UInt32) : List UInt32 :=
  addLoop delta tree.length (position + 1) tree

/-- The tree of counts, each added in turn to a tree of zeros. -/
def build (counts : List ℕ) : List UInt32 :=
  (range counts.length).foldl
    (fun tree position ↦ addCount tree position (UInt32.ofNat (counts.getD position 0)))
    (replicate (counts.length + 1) 0)

/-- The descent from a power of two: the position that is reached and what remains of the rank. -/
def descend : ℕ → ℕ → UInt32 → ℕ × UInt32
  | 0, node, remaining => (node, remaining)
  | k + 1, node, remaining =>
    let next := node + 2 ^ k
    if next < tree.length ∧ tree.getD next 0 < remaining then
      descend k next (remaining - tree.getD next 0)
    else descend k node remaining

/-- The position that has a rank, and the offset in it. -/
def locate (positions rank : ℕ) : ℕ × ℕ :=
  let found := descend tree positions.size 0 (UInt32.ofNat (rank + 1))
  (found.1, (found.2 - 1).toNat)

/-- A tree that holds the counts. -/
structure Represents (tree : List UInt32) (counts : List ℕ) : Prop where
  length : tree.length = counts.length + 1
  node : ∀ node, 0 < node → node ≤ counts.length →
    tree.getD node 0 + UInt32.ofNat (total counts (dropLow node)) = UInt32.ofNat (total counts node)

variable {tree : List UInt32} {counts : List ℕ} {done : ℕ}

@[simp] theorem total_zero : total counts 0 = 0 := rfl

theorem total_length : total counts counts.length = counts.sum := by simp [total]

variable (counts) in
theorem total_mono {low high : ℕ} (h : low ≤ high) : total counts low ≤ total counts high := by
  obtain ⟨more, rfl⟩ := Nat.exists_eq_add_of_le h
  rw [total, total, take_add, sum_append_nat]
  exact le_add_right _ _

variable (counts) in
theorem total_le_sum (position : ℕ) : total counts position ≤ counts.sum := by
  rw [← sum_take_add_sum_drop counts position]
  exact le_add_right _ _

theorem total_succ : total counts (position + 1)
    = total counts position + counts.getD position 0 := by
  rw [total, take_add_one, sum_append_nat, total]
  cases h : counts[position]? <;> simp [h]

theorem Represents.prefixLoop_eq (h : Represents tree counts) {fuel : ℕ} (sum : UInt32)
    (hfuel : node ≤ fuel) (hnode : node ≤ counts.length) :
    prefixLoop tree fuel node sum = sum + UInt32.ofNat (total counts node) := by
  induction fuel generalizing node sum with
  | zero =>
    obtain rfl : node = 0 := by omega
    simp [prefixLoop]
  | succ fuel ih =>
    rw [prefixLoop]
    split
    · rename_i hzero
      simp [hzero]
    · rename_i hne
      have hlt := dropLow_lt (pos_of_ne_zero hne)
      rw [ih _ (by omega) (by omega), UInt32.add_assoc, h.node node (pos_of_ne_zero hne) hnode]

/-- A prefix is summed modulo 2^32. -/
theorem Represents.prefixCount_eq (h : Represents tree counts) (hposs : positions ≤ counts.length) :
    prefixCount tree positions = UInt32.ofNat (total counts positions) := by
  rw [prefixCount, h.prefixLoop_eq 0 (le_refl _) hposs, UInt32.zero_add]

@[simp] theorem length_addLoop (delta : UInt32) (fuel : ℕ) :
    (addLoop delta fuel node tree).length = tree.length := by
  induction fuel generalizing node tree with
  | zero => rfl
  | succ fuel ih =>
    rw [addLoop]
    split
    · rw [ih, length_set]
    · rfl

/-- The loop changes the nodes from its own on that start at or before the position. -/
theorem getD_addLoop {fuel : ℕ} (tree : List UInt32) (hstart : dropLow node ≤ position)
    (hend : position < node) (hfuel : tree.length ≤ fuel + node) (hoth : other < tree.length) :
    (addLoop delta fuel node tree).getD other 0
      = tree.getD other 0 + if node ≤ other ∧ dropLow other ≤ position then delta else 0 := by
  induction fuel generalizing node tree with
  | zero => rw [addLoop, if_neg (by omega), UInt32.add_zero]
  | succ fuel ih =>
    have hpos : 0 < node := by omega
    rw [addLoop]
    split
    · rename_i hnode
      have hlow := lowBit_pos hpos
      rw [ih _ (le_trans (dropLow_next_le hpos) hstart) (by omega) (by rw [length_set]; omega)
        (by rw [length_set]; exact hoth)]
      rcases lt_trichotomy other node with hless | rfl | hmore
      · rw [getD_eq_getElem?_getD, getElem?_set_ne (by omega), if_neg (by omega),
          if_neg (by omega), getD_eq_getElem?_getD]
      · rw [getD_eq_getElem?_getD, getElem?_set_self hnode, if_neg (by omega),
          if_pos ⟨le_refl _, hstart⟩, Option.getD_some, UInt32.add_zero]
      · rw [getD_eq_getElem?_getD, getElem?_set_ne (by omega), ← getD_eq_getElem?_getD]
        by_cases hnext : node + lowBit node ≤ other
        · simp only [hnext, hmore.le]
        · have hbetween := le_dropLow_between hpos hmore (by omega)
          rw [if_neg (by omega), if_neg (by omega)]
    · rw [if_neg (by omega), UInt32.add_zero]

/-- Changing one count, in the tree and in the list. -/
theorem Represents.addCount {counts' : List ℕ} (h : Represents tree counts) (position : ℕ)
    (hlen : counts'.length = counts.length)
    (htotal : ∀ node, UInt32.ofNat (total counts' node) = UInt32.ofNat (total counts node) + if
      position < node then delta else 0) : Represents (addCount tree position delta) counts' := by
  refine ⟨by rw [Fenwick.addCount, length_addLoop, h.length, hlen], fun node hpos hle ↦ ?_⟩
  have hlt : node < tree.length := by
    rw [h.length]
    omega
  rw [Fenwick.addCount, getD_addLoop tree (Nat.lt_succ_iff.mp (dropLow_lt (Nat.succ_pos _)))
    (Nat.lt_succ_self _) (by omega) hlt, htotal, htotal, ← h.node node hpos (by omega)]
  have hdrop := dropLow_lt hpos
  by_cases hbef : position < dropLow node
  · rw [if_neg (by omega), if_pos hbef, if_pos (by omega), UInt32.add_zero, UInt32.add_assoc]
  rw [if_neg hbef, UInt32.add_zero]
  by_cases hcovers : position < node
  · rw [if_pos ⟨hcovers, by omega⟩, if_pos hcovers, UInt32.add_assoc,
      UInt32.add_comm delta, UInt32.add_assoc]
  · rw [if_neg (by omega), if_neg hcovers, UInt32.add_zero, UInt32.add_zero]

theorem total_set (h : position < counts.length) (count node : ℕ) :
    total (counts.set position count) node + (if position < node then counts.getD position 0 else 0)
      = total counts node + if position < node then count else 0 := by
  induction counts generalizing position node with
  | nil => cases h
  | cons first rest ih =>
    cases node with
    | zero => simp
    | succ node =>
      cases position with
      | zero =>
        simp [total]
        omega
      | succ position =>
        have hrest := ih (by simpa using h : position < rest.length) node
        simp [total] at hrest ⊢
        omega

theorem Represents.addCount_set (h : Represents tree counts) (hpos : position < counts.length)
    {count : ℕ} (hdelta : UInt32.ofNat (counts.getD position 0) + delta = UInt32.ofNat count) :
    Represents (Fenwick.addCount tree position delta) (counts.set position count) := by
  refine h.addCount position (length_set ..) fun node ↦ ?_
  have htotal := congrArg UInt32.ofNat (total_set hpos count node)
  split at htotal
  · rename_i hlt
    rw [UInt32.ofNat_add, UInt32.ofNat_add, ← hdelta, UInt32.add_comm (UInt32.ofNat _) delta,
      ← UInt32.add_assoc, UInt32.add_left_inj] at htotal
    rw [if_pos hlt, htotal]
  · rename_i hge
    rw [if_neg hge, UInt32.add_zero]
    exact htotal

/-- Adding to a count. -/
theorem Represents.addCount_more (h : Represents tree counts) (hpos : position < counts.length)
    (more : ℕ) :
    Represents (Fenwick.addCount tree position (UInt32.ofNat more))
      (counts.set position (counts.getD position 0 + more)) :=
  h.addCount_set hpos (UInt32.ofNat_add ..).symm

/-- Subtracting from a count. -/
theorem Represents.addCount_fewer (h : Represents tree counts) {fewer : ℕ}
    (hpos : position < counts.length) (hfewer : fewer ≤ counts.getD position 0) :
    Represents (Fenwick.addCount tree position (-UInt32.ofNat fewer))
      (counts.set position (counts.getD position 0 - fewer)) :=
  h.addCount_set hpos (by rw [UInt32.ofNat_sub hfewer, UInt32.add_neg_eq_sub])

theorem represents_zeros : Represents (replicate (positions + 1) 0) (replicate positions 0) := by
  refine ⟨by simp, fun node hpos hle ↦ ?_⟩
  simp [total]

/-- The counts up to a position, and none after it. -/
theorem total_take_zeros (more : ℕ) :
    total (counts.take done ++ replicate more 0) node = total counts (min node done) := by
  rw [total, take_append, take_take, sum_append_nat, total]
  simp [take_replicate]

/-- The tree that is built holds the counts. -/
theorem represents_build : Represents (build counts) counts := by
  have hpre : ∀ done, done ≤ counts.length → Represents
      ((range done).foldl
        (fun tree position ↦ addCount tree position (UInt32.ofNat (counts.getD position 0)))
        (replicate (counts.length + 1) 0))
      (counts.take done ++ replicate (counts.length - done) 0) := by
    intro done
    induction done with
    | zero => exact fun _ ↦ represents_zeros
    | succ done ih =>
      intro hdone
      rw [range_succ, foldl_append]
      refine (ih (by omega)).addCount done (by simp; omega) fun node ↦ ?_
      rw [total_take_zeros, total_take_zeros]
      split
      · rw [min_eq_right (by omega), min_eq_right (by omega), total_succ, UInt32.ofNat_add]
      · rw [min_eq_left (by omega), min_eq_left (by omega), UInt32.add_zero]
  have hall := hpre counts.length (le_refl _)
  simpa [build] using hall

/-! ## Rebuilding in linear time -/

/-- One step of the linear rebuild: a node is added to the next one that covers it. -/
def pushUp (tree : List UInt32) (node : ℕ) : List UInt32 :=
  if node + lowBit node < tree.length then
    tree.set (node + lowBit node) (tree.getD (node + lowBit node) 0 + tree.getD node 0)
  else tree

/-- The linear rebuild: every node starts with its own count and is pushed up in turn. -/
def rebuild (counts : List ℕ) : List UInt32 :=
  (range' 1 counts.length).foldl pushUp (0 :: counts.map UInt32.ofNat)

/-- How far the counts of a node have been pushed up to it, once the nodes up to `done` have
been pushed: to its last child among them, or to its start when it has none. -/
structure Reached (done node last : ℕ) : Prop where
  child : last = dropLow node ∨ 0 < last ∧ last ≤ done ∧ last + lowBit last = node
  le_last : ∀ other, 0 < other → other ≤ done → other + lowBit other = node → other ≤ last

theorem Reached.dropLow_le {done : ℕ} (h : Reached done node last) : dropLow node ≤ last := by
  rcases h.child with heq | ⟨hpos, -, hnext⟩
  · exact heq.ge
  · rw [← hnext]
    exact le_trans (dropLow_next_le hpos) (dropLow_lt hpos).le

/-- Before its own turn, a node has all that lies below it. -/
theorem Reached.eq_pred (hpos : 0 < node) (h : Reached (node - 1) node last) : last = node - 1 := by
  have hle : last ≤ node - 1 := by
    rcases h.child with heq | ⟨-, hle, -⟩
    · have := dropLow_lt hpos
      omega
    · exact hle
  refine le_antisymm hle ?_
  rcases even_or_odd' node with ⟨half, rfl | rfl⟩
  · -- an even node has its predecessor as a child
    have hodd : 2 * half - 1 = 2 * (half - 1) + 1 := by omega
    have hlow : lowBit (2 * half - 1) = 1 := by
      rw [lowBit, hodd, dropLow_odd]
      omega
    exact h.le_last _ (by omega) (le_refl _) (by omega)
  · have hdrop := h.dropLow_le
    rw [dropLow_odd] at hdrop
    omega

/-- The start of a node is where the next one stood before the node is pushed. -/
theorem Reached.eq_dropLow (hpos : 0 < node) (h : Reached (node - 1) (node + lowBit node) last) :
    last = dropLow node := by
  apply le_antisymm
  · rcases h.child with heq | ⟨hlast, hle, hnext⟩
    · rw [heq]
      exact dropLow_next_le hpos
    · have hlow := lowBit_pos hpos
      exact le_dropLow_between hlast (by omega) (by omega)
  · obtain ⟨k, half, hnode, hdrop, hlow⟩ := exists_odd_mul hpos
    have hstart : dropLow node = 2 ^ (k + 1) * half := by
      rw [hdrop]
      ring
    have hnext : node + lowBit node = 2 ^ (k + 1) * (half + 1) := by
      rw [hlow, hnode]
      ring
    rcases even_or_odd' half with ⟨quarter, rfl | rfl⟩
    · -- the next node starts where this one does
      have hsame : dropLow (node + lowBit node) = dropLow node := by
        rw [hnext, dropLow_pow_mul, dropLow_odd, hstart]
      rw [← hsame]
      exact h.dropLow_le
    · have hlt := dropLow_lt hpos
      refine h.le_last _ (by rw [hstart]; positivity) (by omega) ?_
      rw [hnext, hstart, lowBit, dropLow_pow_mul, dropLow_odd, ← Nat.mul_sub,
        Nat.add_sub_cancel_left, ← Nat.mul_add]

/-- The tree after the nodes up to `done` have been pushed. -/
structure Pushed (tree : List UInt32) (counts : List ℕ) (done : ℕ) : Prop where
  length : tree.length = counts.length + 1
  node : ∀ node, 0 < node → node ≤ counts.length → ∃ last, Reached done node last ∧
    tree.getD node 0 + UInt32.ofNat (total counts (dropLow node))
      = UInt32.ofNat (counts.getD (node - 1) 0) + UInt32.ofNat (total counts last)

/-- A node that has been reached from all below it holds its counts. -/
theorem Pushed.node_eq (h : Pushed tree counts done) (hpos : 0 < node) (hle : node ≤ counts.length)
    (hdone : ∀ last, Reached done node last → last = node - 1) :
    tree.getD node 0 + UInt32.ofNat (total counts (dropLow node))
      = UInt32.ofNat (total counts node) := by
  obtain ⟨last, hreached, hval⟩ := h.node node hpos hle
  obtain ⟨before, rfl⟩ := Nat.exists_eq_add_of_lt hpos
  rw [hval, hdone last hreached]
  simp only [Nat.zero_add, Nat.add_sub_cancel]
  rw [total_succ, UInt32.add_comm, ← UInt32.ofNat_add]

theorem Reached.mono {done : ℕ} (h : Reached done node last)
    (hoth : done + 1 + lowBit (done + 1) ≠ node) : Reached (done + 1) node last := by
  refine ⟨h.child.imp_right fun hchild ↦ ⟨hchild.1, by omega, hchild.2.2⟩, ?_⟩
  intro other hpos hle hnext
  rcases lt_or_eq_of_le hle with hlt | rfl
  · exact h.le_last other hpos (by omega) hnext
  · exact absurd hnext hoth

theorem Pushed.pushUp (h : Pushed tree counts done) (hdone : done < counts.length) :
    Pushed (Fenwick.pushUp tree (done + 1)) counts (done + 1) := by
  have hown := h.node_eq (succ_pos done) hdone fun last hlast ↦
    hlast.eq_pred (succ_pos done)
  rw [Fenwick.pushUp]
  split
  · rename_i hin
    refine ⟨by rw [length_set, h.length], fun node hpos hle ↦ ?_⟩
    by_cases hnode : done + 1 + lowBit (done + 1) = node
    · subst hnode
      obtain ⟨last, hreached, hval⟩ := h.node _ hpos hle
      obtain rfl := Reached.eq_dropLow (succ_pos done) hreached
      refine ⟨done + 1, ⟨.inr ⟨succ_pos done, le_refl _, rfl⟩, fun other _ hoth _ ↦ hoth⟩, ?_⟩
      rw [getD_eq_getElem?_getD, getElem?_set_self hin, Option.getD_some,
        UInt32.add_assoc, UInt32.add_comm (tree.getD (done + 1) 0), ← UInt32.add_assoc, hval,
        UInt32.add_assoc, UInt32.add_comm (UInt32.ofNat _) (tree.getD (done + 1) 0), hown]
    · obtain ⟨last, hreached, hval⟩ := h.node node hpos hle
      refine ⟨last, hreached.mono hnode, ?_⟩
      rw [getD_eq_getElem?_getD, getElem?_set_ne hnode, ← getD_eq_getElem?_getD, hval]
  · rename_i hout
    refine ⟨h.length, fun node hpos hle ↦ ?_⟩
    obtain ⟨last, hreached, hval⟩ := h.node node hpos hle
    exact ⟨last, hreached.mono (by rw [h.length] at hout; omega), hval⟩

theorem pushed_leaves : Pushed (0 :: counts.map UInt32.ofNat) counts 0 := by
  refine ⟨by simp, fun node hpos hle ↦
    ⟨dropLow node, ⟨.inl rfl, fun other hoth hle _ ↦ by omega⟩, ?_⟩⟩
  obtain ⟨before, rfl⟩ := Nat.exists_eq_add_of_lt hpos
  have hlt : before < counts.length := by omega
  simp [getD_eq_getElem?_getD, hlt]

/-- The rebuilt tree holds the counts. -/
theorem represents_rebuild : Represents (rebuild counts) counts := by
  have hall : ∀ done, done ≤ counts.length → Pushed
      ((range' 1 done).foldl pushUp (0 :: counts.map UInt32.ofNat)) counts done := by
    intro done
    induction done with
    | zero => exact fun _ ↦ pushed_leaves
    | succ done ih =>
      intro hdone
      rw [range'_concat, foldl_append, one_mul, add_comm 1 done]
      exact (ih (by omega)).pushUp hdone
  have hpushed := hall counts.length (le_refl _)
  refine ⟨hpushed.length, fun node hpos hle ↦ hpushed.node_eq hpos hle fun last hlast ↦ ?_⟩
  -- later nodes are no children
  refine Reached.eq_pred hpos ⟨hlast.child.imp_right fun hchild ↦ ?_, fun other hoth hle hnext ↦
    hlast.le_last other hoth (by omega) hnext⟩
  have hlow := lowBit_pos hchild.1
  exact ⟨hchild.1, by omega, hchild.2.2⟩

/-! ## Finding a rank -/

section

variable (h : Represents tree counts) (hsum : counts.sum < 2 ^ 32)
include h hsum

theorem Represents.toNat_node (hpos : 0 < node) (hnode : node ≤ counts.length) :
    (tree.getD node 0).toNat + total counts (dropLow node) = total counts node := by
  have hle := total_mono counts (dropLow_lt hpos).le
  have hbound := total_le_sum counts node
  have heq : tree.getD node 0 = UInt32.ofNat (total counts node - total counts (dropLow node)) := by
    rw [UInt32.ofNat_sub hle, ← h.node node hpos hnode, UInt32.add_sub_cancel]
  have hlt : total counts node - total counts (dropLow node) < UInt32.size :=
    lt_of_le_of_lt (sub_le _ _) (lt_of_le_of_lt hbound hsum)
  rw [heq, UInt32.toNat_ofNat_of_lt' hlt]
  omega

/-- The descent stops at the last position whose prefix does not reach the rank. -/
theorem Represents.descend_spec {target : ℕ} {remaining : UInt32} (hdvd : 2 ^ k ∣ node)
    (hnode : node ≤ counts.length) (hrmn : remaining.toNat + total counts node = target)
    (hpos : 0 < remaining.toNat)
    (hnext : counts.length < node + 2 ^ k ∨ target ≤ total counts (node + 2 ^ k)) :
    ∃ found left, descend tree k node remaining = (found, left) ∧ found ≤ counts.length ∧
      left.toNat + total counts found = target ∧ 0 < left.toNat ∧
      (counts.length < found + 1 ∨ target ≤ total counts (found + 1)) := by
  induction k generalizing node remaining with
  | zero => exact ⟨node, remaining, rfl, hnode, hrmn, hpos, hnext⟩
  | succ k ih =>
    have hhalf : 2 ^ k ∣ node := dvd_trans (pow_dvd_pow 2 (le_succ k)) hdvd
    rw [descend]
    by_cases hstep : node + 2 ^ k < tree.length ∧ tree.getD (node + 2 ^ k) 0 < remaining
    · rw [if_pos hstep]
      have hin : node + 2 ^ k ≤ counts.length := by
        rw [h.length] at hstep
        omega
      have hcnt := h.toNat_node hsum (by positivity) hin
      rw [dropLow_add_pow hdvd] at hcnt
      have hless := UInt32.lt_iff_toNat_lt.mp hstep.2
      have hleft := UInt32.toNat_sub_of_le _ _ (UInt32.le_of_lt hstep.2)
      refine ih (Dvd.dvd.add hhalf dvd_rfl) hin (by omega) (by omega) ?_
      rw [add_assoc, ← two_mul, ← pow_succ']
      exact hnext
    · rw [if_neg hstep]
      refine ih hhalf hnode hrmn hpos ?_
      by_cases hin : node + 2 ^ k < tree.length
      · have hlarge : ¬tree.getD (node + 2 ^ k) 0 < remaining := fun hlt ↦ hstep ⟨hin, hlt⟩
        rw [UInt32.lt_iff_toNat_lt] at hlarge
        have hle : node + 2 ^ k ≤ counts.length := by
          rw [h.length] at hin
          omega
        have hcnt := h.toNat_node hsum (by positivity) hle
        rw [dropLow_add_pow hdvd] at hcnt
        exact .inr (by omega)
      · rw [h.length] at hin
        exact .inl (by omega)

/-- A rank below the sum is located in the position that has it. -/
theorem Represents.locate_spec {rank : ℕ} (hrank : rank < counts.sum) :
    (locate tree counts.length rank).1 < counts.length ∧
      total counts (locate tree counts.length rank).1 + (locate tree counts.length rank).2 = rank ∧
      (locate tree counts.length rank).2 < counts.getD (locate tree counts.length rank).1 0 := by
  have htgt : (UInt32.ofNat (rank + 1)).toNat = rank + 1 :=
    UInt32.toNat_ofNat_of_lt' (lt_of_le_of_lt hrank hsum)
  have hstart : (UInt32.ofNat (rank + 1)).toNat + total counts 0 = rank + 1 := by
    rw [htgt, total_zero]
  obtain ⟨found, left, hdescend, hle, hleft, hpos, hnext⟩ := h.descend_spec hsum
    (dvd_zero (2 ^ counts.length.size)) (zero_le _) hstart (by omega)
    (.inl (by rw [zero_add]; exact lt_size_self counts.length))
  have hlocate : locate tree counts.length rank = (found, left.toNat - 1) := by
    rw [locate, hdescend]
    have hone : (1 : UInt32) ≤ left := UInt32.le_iff_toNat_le.mpr hpos
    rw [UInt32.toNat_sub_of_le _ _ hone]
    rfl
  have hlt : found < counts.length := by
    refine lt_of_le_of_ne hle fun heq ↦ ?_
    rw [heq, total_length] at hleft
    omega
  have hreach := hnext.resolve_left (by omega)
  rw [total_succ] at hreach
  rw [hlocate]
  change found < _ ∧ total counts found + (left.toNat - 1) = rank ∧
    left.toNat - 1 < counts.getD found 0
  exact ⟨hlt, by omega, by omega⟩

end

/-- Where nothing is counted, the descent ends behind the last position. -/
theorem descend_replicate {remaining : UInt32} (hremaining : 0 < remaining)
    (hnode : node ≤ positions) (hnext : positions < node + 2 ^ k) :
    descend (replicate (positions + 1) 0) k node remaining = (positions, remaining) := by
  induction k generalizing node with
  | zero => rw [le_antisymm hnode (Nat.lt_succ_iff.mp hnext), descend]
  | succ k ih =>
    have hzero : (replicate (positions + 1) (0 : UInt32)).getD (node + 2 ^ k) 0 = 0 := by simp
    rw [pow_succ] at hnext
    rw [descend, hzero, UInt32.sub_zero, length_replicate]
    split
    · exact ih (by omega) (by omega)
    · rename_i hbehind
      have hlt : positions < node + 2 ^ k := by
        by_contra hle
        exact hbehind ⟨by omega, hremaining⟩
      exact ih hnode hlt

end GoblinCore.Fenwick
