import Mathlib.Algebra.BigOperators.Group.List.Basic
import Mathlib.Data.List.GetD
import Mathlib.Data.Nat.Log
import Mathlib.Algebra.Ring.Parity

/-!
# Sum trees in an array

A perfect binary tree over a row of numbers, in an array with the root first: the children of node
`n` are the nodes `2 * n + 1` and `2 * n + 2`.  The leaves hold the row, with zeros behind it up to
a power of two, and every inner node the sum of its children.  Walking up from a leaf sums the row
before it, walking down finds the number that a rank falls into, and a number is changed in its leaf
and in the nodes above.
-/

namespace GoblinCore.SumTree

open List

/-- `std::bit_ceil`. -/
def bitCeil (n : ℕ) : ℕ := if n ≤ 1 then 1 else 2 ^ ((n - 1).log2 + 1)

def weight (tree : List ℕ) (node : ℕ) : ℕ := tree.getD node 0

/-- The number of inner nodes: half of the nodes but one. -/
def offset (tree : List ℕ) : ℕ := tree.length / 2

/-- The inner nodes below `count` are summed up, the last one first. -/
def fill : ℕ → List ℕ → List ℕ
  | 0, tree => tree
  | node + 1, tree =>
    fill node (tree.set node (weight tree (2 * node + 1) + weight tree (2 * node + 2)))

def build (row : List ℕ) : List ℕ :=
  let leaves := bitCeil row.length
  fill (leaves - 1) (replicate (leaves - 1) 0 ++ row ++ replicate (leaves - row.length) 0)

/-- A change of a node and of those above it.  The first number bounds the way to the root. -/
def updateFrom (f : ℕ → ℕ) : ℕ → ℕ → List ℕ → List ℕ
  | 0, node, tree => tree.modify node f
  | bound + 1, node, tree =>
    if node = 0 then tree.modify node f
    else updateFrom f bound ((node - 1) / 2) (tree.modify node f)

def update (f : ℕ → ℕ) (position : ℕ) (tree : List ℕ) : List ℕ :=
  updateFrom f (offset tree + position) (offset tree + position) tree

/-- The weights to the left of the way from a node to the root. -/
def sumFrom (tree : List ℕ) : ℕ → ℕ → ℕ
  | 0, _ => 0
  | bound + 1, node =>
    if node = 0 then 0
    else
      let parent := (node - 1) / 2
      (if node = 2 * parent + 2 then weight tree (2 * parent + 1) else 0) +
        sumFrom tree bound parent

def sumBefore (tree : List ℕ) (position : ℕ) : ℕ :=
  sumFrom tree (offset tree + position) (offset tree + position)

/-- The way down to the leaf that a rank falls into. -/
def descendFrom (tree : List ℕ) : ℕ → ℕ → ℕ → ℕ × ℕ
  | 0, node, rank => (node, rank)
  | bound + 1, node, rank =>
    if node < offset tree then
      if rank < weight tree (2 * node + 1) then descendFrom tree bound (2 * node + 1) rank
      else descendFrom tree bound (2 * node + 2) (rank - weight tree (2 * node + 1))
    else (node, rank)

/-- The position that a rank falls into, and what is left of the rank there. -/
def find (tree : List ℕ) (rank : ℕ) : ℕ × ℕ :=
  let found := descendFrom tree (offset tree) 0 rank
  (found.1 - offset tree, found.2)

/-- The node holds the sum of its children. -/
def Summed (tree : List ℕ) (node : ℕ) : Prop :=
  weight tree node = weight tree (2 * node + 1) + weight tree (2 * node + 2)

/-- The tree is one over the row. -/
structure Tracks (row tree : List ℕ) : Prop where
  length : ∃ height, tree.length + 1 = 2 ^ (height + 1)
  row_le : row.length ≤ offset tree + 1
  leaf : ∀ position, weight tree (offset tree + position) = row.getD position 0
  inner : ∀ node < offset tree, Summed tree node

variable {row tree : List ℕ} {f : ℕ → ℕ} {node position bound rank : ℕ}

/-! ## Building -/

theorem exists_bitCeil (n : ℕ) : ∃ height, bitCeil n = 2 ^ height := by
  unfold bitCeil
  split
  · exact ⟨0, rfl⟩
  · exact ⟨_, rfl⟩

theorem le_bitCeil (n : ℕ) : n ≤ bitCeil n := by
  unfold bitCeil
  split
  · assumption
  · have hlt := Nat.lt_log2_self (n := n - 1)
    omega

theorem weight_set {value other : ℕ} (h : node < tree.length) :
    weight (tree.set node value) other = if other = node then value else weight tree other := by
  unfold weight
  by_cases hother : other = node
  · subst hother
    simp [h]
  · simp [getD_eq_getElem?_getD, Ne.symm hother, hother]

@[simp] theorem length_fill (count : ℕ) : (fill count tree).length = tree.length := by
  induction count generalizing tree with
  | zero => rfl
  | succ count ih => rw [fill, ih, length_set]

/-- Filling writes the inner nodes only, each from its children as they are at the end. -/
theorem fill_spec {count : ℕ} (h : count ≤ tree.length) :
    (∀ node, count ≤ node → weight (fill count tree) node = weight tree node) ∧
      ∀ node < count, Summed (fill count tree) node := by
  induction count generalizing tree with
  | zero => exact ⟨fun _ _ ↦ rfl, fun _ hnode ↦ absurd hnode (Nat.not_lt_zero _)⟩
  | succ count ih =>
    rw [fill]
    generalize hset : tree.set count (weight tree (2 * count + 1) + weight tree (2 * count + 2)) =
      written
    have hwritten : ∀ node, weight written node = if node = count then
        weight tree (2 * count + 1) + weight tree (2 * count + 2) else weight tree node := by
      intro node
      rw [← hset, weight_set (by omega)]
    have hlength : count ≤ written.length := by
      rw [← hset, length_set]
      omega
    obtain ⟨hkept, hsummed⟩ := ih hlength
    refine ⟨fun node hnode ↦ ?_, fun node hnode ↦ ?_⟩
    · rw [hkept node (by omega), hwritten, if_neg (by omega)]
    · rcases Nat.lt_succ_iff_lt_or_eq.mp hnode with hlt | rfl
      · exact hsummed node hlt
      · rw [Summed, hkept _ le_rfl, hkept _ (by omega), hkept _ (by omega), hwritten, hwritten,
          hwritten, if_pos rfl, if_neg (by omega), if_neg (by omega)]

theorem build_tracks (row : List ℕ) : Tracks row (build row) := by
  obtain ⟨height, hleaves⟩ := exists_bitCeil row.length
  have hrow := le_bitCeil row.length
  have hpos : 0 < 2 ^ height := Nat.two_pow_pos height
  unfold build
  dsimp only
  rw [hleaves] at hrow ⊢
  generalize htree : replicate (2 ^ height - 1) 0 ++ row ++ replicate (2 ^ height - row.length) 0 =
    tree
  have hlength : tree.length + 1 = 2 ^ (height + 1) := by
    rw [← htree, length_append, length_append, length_replicate, length_replicate, pow_succ]
    omega
  have hoffset : offset (fill (2 ^ height - 1) tree) = 2 ^ height - 1 := by
    rw [offset, length_fill]
    rw [pow_succ] at hlength
    omega
  have hcount : 2 ^ height - 1 ≤ tree.length := by
    rw [pow_succ] at hlength
    omega
  obtain ⟨hkept, hsummed⟩ := fill_spec hcount
  refine ⟨⟨height, by rw [length_fill, hlength]⟩, by rw [hoffset]; omega, fun position ↦ ?_, ?_⟩
  · rw [hoffset, hkept _ (by omega), ← htree, weight, append_assoc, getD_eq_getElem?_getD,
      getElem?_append_right (by simp), length_replicate, Nat.add_sub_cancel_left]
    rcases Nat.lt_or_ge position row.length with hlt | hge
    · rw [getElem?_append_left hlt, getD_eq_getElem?_getD]
    · rw [getElem?_append_right hge, getD_eq_getElem?_getD, getElem?_eq_none hge,
        getElem?_replicate]
      split <;> rfl
  · rw [hoffset]
    exact hsummed

/-! ## Changing a number -/

theorem weight_modify {other : ℕ} (h : node < tree.length) :
    weight (tree.modify node f) other =
      if other = node then f (weight tree node) else weight tree other := by
  unfold weight
  by_cases hother : other = node
  · subst hother
    simp [h]
  · simp [getD_eq_getElem?_getD, Ne.symm hother, hother]

@[simp] theorem length_updateFrom : (updateFrom f bound node tree).length = tree.length := by
  induction bound generalizing node tree with
  | zero => exact length_modify _ _ _
  | succ bound ih =>
    rw [updateFrom]
    split
    · exact length_modify _ _ _
    · rw [ih, length_modify]

/-- The change adds to a number whatever is added to it. -/
def Adds (f : ℕ → ℕ) (number : ℕ) : Prop := ∀ more, f (number + more) = f number + more

/-- The nodes below this one have been changed, this one has not. -/
structure Reached (f : ℕ → ℕ) (node : ℕ) (tree : List ℕ) : Prop where
  others : ∀ other < offset tree, other ≠ node → Summed tree other
  here : node < offset tree →
    f (weight tree node) = weight tree (2 * node + 1) + weight tree (2 * node + 2)
  adds : Adds f (weight tree node)

/-- A node that is not above the changed one. -/
theorem Reached.summed {other : ℕ} (h : Reached f node tree) (hlt : node < tree.length)
    (hother : other < offset tree) (hleft : 2 * other + 1 ≠ node) (hright : 2 * other + 2 ≠ node) :
    Summed (tree.modify node f) other := by
  rw [Summed, weight_modify hlt, weight_modify hlt, weight_modify hlt, if_neg hleft, if_neg hright]
  split
  · next heq => rw [heq, h.here (heq ▸ hother)]
  · next hne => exact h.others other hother hne

theorem Reached.root (h : Reached f node tree) (hlt : node < tree.length) (hzero : node = 0) :
    ∀ other < offset tree, Summed (tree.modify node f) other :=
  fun _ hother ↦ h.summed hlt hother (by omega) (by omega)

/-- One step up: the node is changed, and only its parent has still to be. -/
theorem Reached.parent (h : Reached f node tree) (hodd : tree.length = 2 * offset tree + 1)
    (hlt : node < tree.length) (hpos : node ≠ 0) :
    Reached f ((node - 1) / 2) (tree.modify node f) := by
  have hoffset : offset (tree.modify node f) = offset tree := by rw [offset, length_modify, offset]
  have hparent : Summed tree ((node - 1) / 2) := h.others _ (by omega) (by omega)
  have hchild : node = 2 * ((node - 1) / 2) + 1 ∨ node = 2 * ((node - 1) / 2) + 2 := by omega
  generalize (node - 1) / 2 = parent at hparent hchild ⊢
  refine ⟨fun other hother hne ↦ ?_, fun _ ↦ ?_, ?_⟩
  · rw [hoffset] at hother
    exact h.summed hlt hother (by omega) (by omega)
  · rw [weight_modify hlt, weight_modify hlt, weight_modify hlt,
      if_neg (show parent ≠ node by omega), hparent]
    rcases hchild with rfl | rfl
    · rw [if_pos rfl, if_neg (by omega), h.adds]
    · rw [if_pos rfl, if_neg (by omega), Nat.add_comm, h.adds, Nat.add_comm]
  · rw [weight_modify hlt, if_neg (show parent ≠ node by omega), hparent]
    intro more
    rcases hchild with rfl | rfl
    · rw [Nat.add_assoc, h.adds, h.adds, Nat.add_assoc]
    · rw [Nat.add_comm (weight tree (2 * parent + 1)), Nat.add_assoc, h.adds, h.adds, Nat.add_assoc]

theorem Reached.updateFrom (h : Reached f node tree) (hodd : tree.length = 2 * offset tree + 1)
    (hlt : node < tree.length) (hbound : node ≤ bound) :
    (∀ other < offset tree, Summed (updateFrom f bound node tree) other) ∧
      ∀ other, offset tree ≤ other →
        weight (SumTree.updateFrom f bound node tree) other =
          weight (tree.modify node f) other := by
  induction bound generalizing node tree with
  | zero => exact ⟨h.root hlt (by omega), fun _ _ ↦ rfl⟩
  | succ bound ih =>
    rw [SumTree.updateFrom]
    split
    · next hzero => exact ⟨h.root hlt hzero, fun _ _ ↦ rfl⟩
    · next hpos =>
      have hlength : (tree.modify node f).length = tree.length := length_modify _ _ _
      have hoffset : offset (tree.modify node f) = offset tree := by rw [offset, hlength, offset]
      obtain ⟨hsummed, hkept⟩ := ih (h.parent hodd hlt hpos) (by rw [hlength, hoffset, hodd])
        (by rw [hlength]; omega) (by omega)
      rw [hoffset] at hsummed hkept
      refine ⟨hsummed, fun other hother ↦ ?_⟩
      rw [hkept other hother, weight_modify (by rw [hlength]; omega), if_neg (by omega)]

namespace Tracks

variable (h : Tracks row tree)
include h

theorem length_eq : tree.length = 2 * offset tree + 1 := by
  obtain ⟨height, hlength⟩ := h.length
  rw [pow_succ] at hlength
  unfold offset
  omega

theorem exists_offset : ∃ height, offset tree + 1 = 2 ^ height := by
  obtain ⟨height, hlength⟩ := h.length
  refine ⟨height, ?_⟩
  rw [pow_succ] at hlength
  unfold offset
  omega

theorem update (hlt : position < row.length) (hadds : Adds f (row.getD position 0)) :
    Tracks (row.modify position f) (update f position tree) := by
  have hodd := h.length_eq
  have hrow := h.row_le
  have hnode : offset tree + position < tree.length := by omega
  have hreached : Reached f (offset tree + position) tree :=
    ⟨fun other hother _ ↦ h.inner other hother, fun hinner ↦ by omega, by rw [h.leaf]; exact hadds⟩
  obtain ⟨hsummed, hkept⟩ := hreached.updateFrom hodd hnode le_rfl
  have hoffset : offset (SumTree.update f position tree) = offset tree := by
    rw [SumTree.update, offset, length_updateFrom, offset]
  refine ⟨?_, by rw [length_modify, hoffset]; exact hrow, fun other ↦ ?_, by rwa [hoffset]⟩
  · rw [SumTree.update, length_updateFrom]
    exact h.length
  · rw [hoffset, SumTree.update, hkept _ (by omega), weight_modify hnode]
    by_cases hother : other = position
    · subst hother
      simp [h.leaf, getD_eq_getElem?_getD, hlt]
    · simp [hother, Ne.symm hother, h.leaf, getD_eq_getElem?_getD]

end Tracks

/-! ## Walking up -/

theorem sumFrom_eq (h : node ≤ bound) : sumFrom tree bound node = sumFrom tree node node := by
  induction bound using Nat.strong_induction_on generalizing node with
  | _ bound ih =>
    rcases node with _ | node
    · cases bound with
      | zero => rfl
      | succ bound => rfl
    · obtain ⟨bound, rfl⟩ : ∃ rest, bound = rest + 1 := ⟨bound - 1, by omega⟩
      rw [sumFrom, sumFrom]
      dsimp only
      rw [ih bound (by omega) (by omega), ih node (by omega) (by omega)]

theorem sumFrom_left : sumFrom tree (2 * node + 1) (2 * node + 1) = sumFrom tree node node := by
  have hparent : (2 * node + 1 - 1) / 2 = node := by omega
  rw [sumFrom, if_neg (by omega)]
  dsimp only
  rw [hparent, if_neg (by omega), Nat.zero_add, sumFrom_eq (by omega)]

theorem sumFrom_right : sumFrom tree (2 * node + 2) (2 * node + 2) =
    sumFrom tree node node + weight tree (2 * node + 1) := by
  have hparent : (2 * node + 2 - 1) / 2 = node := by omega
  rw [sumFrom, if_neg (by omega)]
  dsimp only
  rw [hparent, if_pos rfl, Nat.add_comm, sumFrom_eq (by omega)]

/-- The first node of a level has nothing on its left. -/
theorem sumFrom_first (height : ℕ) : sumFrom tree (2 ^ height - 1) (2 ^ height - 1) = 0 := by
  induction height with
  | zero => rfl
  | succ height ih =>
    have hpos : 0 < 2 ^ height := Nat.two_pow_pos height
    have hleft : 2 ^ (height + 1) - 1 = 2 * (2 ^ height - 1) + 1 := by
      rw [pow_succ]
      omega
    rw [hleft, sumFrom_left, ih]

/-- The next node of a level has one more on its left. -/
theorem sumFrom_next (level : ℕ) (hinner : ∀ other < offset tree, Summed tree other)
    (hfirst : 2 ^ level ≤ node + 1) (hlast : node + 2 < 2 ^ (level + 1))
    (hnode : node ≤ 2 * offset tree) :
    sumFrom tree (node + 1) (node + 1) = sumFrom tree node node + weight tree node := by
  induction level generalizing node with
  | zero =>
    rw [pow_zero] at hfirst
    rw [zero_add, pow_one] at hlast
    omega
  | succ level ih =>
    have hpow := pow_succ 2 level
    have hpow' := pow_succ 2 (level + 1)
    rcases Nat.even_or_odd' node with ⟨half, rfl | rfl⟩
    · -- A right child: the next node is the left child of the next node above.
      obtain ⟨above, rfl⟩ : ∃ above, half = above + 1 := ⟨half - 1, by omega⟩
      have hnext : sumFrom tree (above + 1) (above + 1) = _ := ih (by omega) (by omega) (by omega)
      have hsum : Summed tree above := hinner above (by omega)
      rw [sumFrom_left, hnext, hsum, show 2 * (above + 1) = 2 * above + 2 by omega, sumFrom_right]
      omega
    · rw [show 2 * half + 1 + 1 = 2 * half + 2 by omega, sumFrom_right, sumFrom_left]

namespace Tracks

section

variable (h : Tracks row tree)
include h

theorem sumBefore_eq (hposition : position ≤ offset tree) :
    sumBefore tree position = (row.take position).sum := by
  obtain ⟨height, hheight⟩ := h.exists_offset
  unfold sumBefore
  induction position with
  | zero =>
    rw [show offset tree + 0 = 2 ^ height - 1 by omega, sumFrom_first]
    simp
  | succ position ih =>
    have hpow := pow_succ 2 height
    have hnext : sumFrom tree (offset tree + position + 1) (offset tree + position + 1) = _ :=
      sumFrom_next height h.inner (by omega) (by omega) (by omega)
    rw [← Nat.add_assoc, hnext, ih (by omega), h.leaf, getD_eq_getElem?_getD, take_add_one,
      sum_append]
    cases row[position]? with
    | none => rfl
    | some number => simp

/-! ## Walking down -/

theorem weight_root : weight tree 0 = row.sum := by
  obtain ⟨height, hheight⟩ := h.exists_offset
  -- The last node of every level has the whole row up to its end.
  have hlast (level : ℕ) (hlevel : level ≤ height) :
      sumFrom tree (2 ^ (level + 1) - 2) (2 ^ (level + 1) - 2) + weight tree (2 ^ (level + 1) - 2) =
        weight tree 0 := by
    induction level with
    | zero => exact Nat.zero_add _
    | succ level ih =>
      have hpow : 2 ^ level * 2 ≤ 2 ^ height := by
        rw [← pow_succ]
        exact Nat.pow_le_pow_right (by decide) hlevel
      have hpos : 0 < 2 ^ level := Nat.two_pow_pos level
      have hsum : Summed tree (2 ^ (level + 1) - 2) := by
        apply h.inner
        rw [pow_succ]
        omega
      have hright : 2 ^ (level + 1 + 1) - 2 = 2 * (2 ^ (level + 1) - 2) + 2 := by
        rw [pow_succ 2 (level + 1), pow_succ]
        omega
      rw [hright, sumFrom_right, ← ih (by omega), hsum, Nat.add_assoc]
  have hleaf : 2 ^ (height + 1) - 2 = offset tree + offset tree := by
    rw [pow_succ]
    omega
  have hsum : sumFrom tree (offset tree + offset tree) (offset tree + offset tree) = _ :=
    h.sumBefore_eq le_rfl
  have hrow : row.sum = (row.take (offset tree + 1)).sum := by rw [take_of_length_le h.row_le]
  rw [← hlast height le_rfl, hleaf, hsum, h.leaf, getD_eq_getElem?_getD, hrow, take_add_one,
    sum_append]
  cases row[offset tree]? with
  | none => rfl
  | some number => simp

end

theorem descendFrom_spec (h : Tracks row tree) (bound : ℕ) (hrank : rank < weight tree node)
    (hnode : node ≤ 2 * offset tree) (hbound : offset tree ≤ node + bound) :
    offset tree ≤ (descendFrom tree bound node rank).1 ∧
      (descendFrom tree bound node rank).1 ≤ 2 * offset tree ∧
      (descendFrom tree bound node rank).2 < weight tree (descendFrom tree bound node rank).1 ∧
      sumFrom tree (descendFrom tree bound node rank).1 (descendFrom tree bound node rank).1 +
        (descendFrom tree bound node rank).2 = sumFrom tree node node + rank := by
  induction bound generalizing node rank with
  | zero => exact ⟨hbound, hnode, hrank, rfl⟩
  | succ bound ih =>
    rw [descendFrom]
    split
    · next hinner =>
      have hsum : Summed tree node := h.inner node hinner
      split
      · next hleft =>
        obtain ⟨hleaf, hend, hrest, htotal⟩ := ih hleft (by omega) (by omega)
        exact ⟨hleaf, hend, hrest, htotal.trans (by rw [sumFrom_left])⟩
      · next hright =>
        have hrank' : rank - weight tree (2 * node + 1) < weight tree (2 * node + 2) := by
          rw [hsum] at hrank
          omega
        obtain ⟨hleaf, hend, hrest, htotal⟩ := ih hrank' (by omega) (by omega)
        refine ⟨hleaf, hend, hrest, htotal.trans ?_⟩
        rw [sumFrom_right]
        omega
    · next hleaf => exact ⟨by omega, hnode, hrank, rfl⟩

/-- The rank falls into the position that was found. -/
theorem find_spec (h : Tracks row tree) (hrank : rank < row.sum) :
    (row.take (find tree rank).1).sum + (find tree rank).2 = rank ∧
      (find tree rank).2 < row.getD (find tree rank).1 0 := by
  obtain ⟨hleaf, hend, hrest, htotal⟩ := h.descendFrom_spec (offset tree)
    (h.weight_root ▸ hrank) (Nat.zero_le _) (by omega)
  unfold find
  dsimp only
  generalize descendFrom tree (offset tree) 0 rank = found at *
  obtain ⟨position, hposition⟩ : ∃ position, found.1 = offset tree + position :=
    ⟨found.1 - offset tree, by omega⟩
  rw [hposition] at hrest htotal
  have hsum : sumFrom tree (offset tree + position) (offset tree + position) = _ :=
    h.sumBefore_eq (by omega)
  rw [hposition, Nat.add_sub_cancel_left, ← h.leaf, ← hsum]
  exact ⟨htotal.trans (Nat.zero_add _), hrest⟩

end Tracks

end GoblinCore.SumTree
