import Mathlib.Data.Finset.Card

/-!
# Cells shared until they are written

Owners refer to cells, and several may refer to the same one.  Before an owner writes, it detaches
itself: a cell with more than one user is copied into a fresh cell of its own.  So a write is seen
by its owner and by nobody else.
-/

namespace GoblinCore.CopyOnWrite

open List

variable {α : Type}

/-- Cells, and for each owner the cell it refers to, if any. -/
structure Pool (α : Type) where
  cells : List α
  owners : List (Option ℕ)

namespace Pool

variable (pool : Pool α)

/-- The cell an owner refers to. -/
def ref (owner : ℕ) : Option ℕ := pool.owners[owner]?.join

def read (owner : ℕ) : Option α :=
  (pool.ref owner).bind fun cell ↦ pool.cells[cell]?

def useCount (cell : ℕ) : ℕ :=
  ((Finset.range pool.owners.length).filter fun owner ↦ pool.ref owner = some cell).card

/-- Give an owner a fresh cell. -/
def attach (owner : ℕ) (value : α) (pool : Pool α) : Pool α where
  cells := pool.cells ++ [value]
  owners := pool.owners.set owner (some pool.cells.length)

/-- One more owner, with a fresh cell or with none. -/
def addOwner (value : Option α) (pool : Pool α) : Pool α where
  cells := pool.cells ++ value.toList
  owners := pool.owners ++ [value.map fun _ ↦ pool.cells.length]

/-- Let an owner refer to the cell of another. -/
def share (owner source : ℕ) (pool : Pool α) : Pool α :=
  { pool with owners := pool.owners.set owner (pool.ref source) }

/-- An owner that needs its cell no longer. -/
def release (owner : ℕ) (pool : Pool α) : Pool α :=
  { pool with owners := pool.owners.set owner none }

/-- The cell of an owner has other users. -/
def isShared (owner : ℕ) (pool : Pool α) : Bool :=
  (pool.ref owner).any fun cell ↦ decide (1 < pool.useCount cell)

/-- Write to the cell of an owner. -/
def write (owner : ℕ) (change : α → α) (pool : Pool α) : Pool α :=
  match pool.ref owner with
  | some cell => { pool with cells := pool.cells.modify cell change }
  | none => pool

/-- Every reference leads to a cell. -/
def WellFormed : Prop :=
  ∀ owner cell, pool.ref owner = some cell → cell < pool.cells.length

/-- No other owner refers to the cell of this one. -/
def Sole (owner : ℕ) : Prop :=
  ∀ other cell, pool.ref owner = some cell → pool.ref other = some cell → other = owner

variable {pool : Pool α} {owner other cell : ℕ} {value : α} {change : α → α}

theorem lt_length_of_ref (h : pool.ref owner = some cell) : owner < pool.owners.length := by
  by_contra hge
  simp [ref, getElem?_eq_none (Nat.le_of_not_lt hge)] at h

/-- Two owners of one cell count as two users. -/
theorem two_le_useCount (hne : owner ≠ other) (howner : pool.ref owner = some cell)
    (hoth : pool.ref other = some cell) : 2 ≤ pool.useCount cell := by
  have hmem {position : ℕ} (h : pool.ref position = some cell) :
      position ∈ (Finset.range pool.owners.length).filter fun owner ↦ pool.ref owner = some cell :=
    Finset.mem_filter.mpr ⟨Finset.mem_range.mpr (lt_length_of_ref h), h⟩
  exact Finset.one_lt_card.mpr ⟨owner, hmem howner, other, hmem hoth, hne⟩

theorem sole_of_useCount (h : ∀ cell, pool.ref owner = some cell → pool.useCount cell ≤ 1) :
    pool.Sole owner := by
  intro other cell howner hoth
  by_contra hne
  have htwo := two_le_useCount (Ne.symm hne) howner hoth
  have hone := h cell howner
  omega

theorem sole_of_not_isShared (h : pool.isShared owner = false) : pool.Sole owner := by
  apply sole_of_useCount
  intro cell href
  simpa [isShared, href] using h

/-! ## A fresh cell -/

theorem attach_ref_self (h : owner < pool.owners.length) :
    (pool.attach owner value).ref owner = some pool.cells.length := by
  simp [ref, attach, h]

theorem attach_ref_other (h : other ≠ owner) :
    (pool.attach owner value).ref other = pool.ref other := by
  simp [ref, attach, h.symm]

theorem attach_read_self (h : owner < pool.owners.length) :
    (pool.attach owner value).read owner = some value := by
  rw [read, attach_ref_self h]
  simp [attach]

section

variable (hpool : pool.WellFormed)
include hpool

theorem attach_read_other (h : other ≠ owner) :
    (pool.attach owner value).read other = pool.read other := by
  unfold read
  rw [attach_ref_other h]
  cases href : pool.ref other with
  | none => rfl
  | some cell => simp [attach, getElem?_append_left (hpool other cell href)]

theorem attach_wellFormed : (pool.attach owner value).WellFormed := by
  intro other cell href
  rw [attach, length_append]
  by_cases h : other = owner
  · subst other
    have hlt : owner < pool.owners.length := by
      have hlt := lt_length_of_ref href
      rwa [attach, length_set] at hlt
    rw [attach_ref_self hlt] at href
    have hcell := Option.some.inj href
    simp [← hcell]
  · rw [attach_ref_other h] at href
    have hlt := hpool other cell href
    omega

theorem attach_sole (h : owner < pool.owners.length) : (pool.attach owner value).Sole owner := by
  intro other cell howner hoth
  by_contra hne
  rw [attach_ref_self h] at howner
  rw [attach_ref_other hne, ← howner] at hoth
  exact absurd (hpool other _ hoth) (Nat.lt_irrefl _)

/-! ## A new owner, and a shared cell -/

theorem addOwner_read_old (h : other < pool.owners.length) (value : Option α) :
    (pool.addOwner value).read other = pool.read other := by
  have href : (pool.addOwner value).ref other = pool.ref other := by
    simp [ref, addOwner, getElem?_append_left h]
  rw [read, href, read]
  cases hcell : pool.ref other with
  | none => rfl
  | some cell => simp [addOwner, getElem?_append_left (hpool other cell hcell)]

end

theorem addOwner_read_new (value : Option α) :
    (pool.addOwner value).read pool.owners.length = value := by
  cases value with
  | none => simp [read, ref, addOwner]
  | some value => simp [read, ref, addOwner]

variable {source : ℕ}

theorem share_read_self (h : owner < pool.owners.length) :
    (pool.share owner source).read owner = pool.read source := by
  have href : (pool.share owner source).ref owner = pool.ref source := by
    simp [ref, share, h]
  rw [read, href]
  rfl

theorem share_read_other (h : other ≠ owner) :
    (pool.share owner source).read other = pool.read other := by
  have href : (pool.share owner source).ref other = pool.ref other := by
    simp [ref, share, h.symm]
  rw [read, href]
  rfl

theorem share_wellFormed (hpool : pool.WellFormed) : (pool.share owner source).WellFormed := by
  intro other cell href
  by_cases h : other = owner
  · subst other
    have hlt := lt_length_of_ref href
    rw [share, length_set] at hlt
    have hsrc : (pool.share owner source).ref owner = pool.ref source := by
      simp [ref, share, hlt]
    exact hpool source cell (hsrc ▸ href)
  · have hsame : (pool.share owner source).ref other = pool.ref other := by
      simp [ref, share, Ne.symm h]
    exact hpool other cell (hsame ▸ href)

theorem release_ref_other (h : other ≠ owner) :
    (pool.release owner).ref other = pool.ref other := by
  simp [ref, release, h.symm]

theorem release_read_other (h : other ≠ owner) :
    (pool.release owner).read other = pool.read other := by
  rw [read, release_ref_other h]
  rfl

theorem release_wellFormed (hpool : pool.WellFormed) : (pool.release owner).WellFormed := by
  intro other cell href
  by_cases h : other = owner
  · subst other
    have hlt := lt_length_of_ref href
    rw [release, length_set] at hlt
    simp [ref, release, hlt] at href
  · rw [release_ref_other h] at href
    exact hpool other cell href

/-! ## Writing -/

@[simp] theorem write_ref : (pool.write owner change).ref other = pool.ref other := by
  unfold write
  split
  · rfl
  · rfl

theorem write_read_self : (pool.write owner change).read owner = (pool.read owner).map change := by
  rw [read, write_ref, read]
  cases href : pool.ref owner with
  | none => rfl
  | some cell => simp [write, href]

/-- A write by the sole owner of a cell is not seen by the others. -/
theorem write_read_other (hsole : pool.Sole owner) (h : other ≠ owner) :
    (pool.write owner change).read other = pool.read other := by
  rw [read, write_ref, read]
  cases href : pool.ref other with
  | none => rfl
  | some cell =>
    cases howner : pool.ref owner with
    | none => simp [write, howner]
    | some own =>
      have hne : own ≠ cell := by
        intro heq
        subst heq
        exact h (hsole other own howner href)
      simp [write, howner, hne]

/-- Writing what is there is seen by nobody. -/
theorem write_read_same (hread : pool.read owner = some value) (h : change value = value) :
    (pool.write owner change).read other = pool.read other := by
  obtain ⟨cell, href, hget⟩ := Option.bind_eq_some_iff.mp hread
  have hcells : pool.cells.modify cell change = pool.cells := by
    apply ext_getElem?
    intro position
    by_cases hcell : cell = position
    · subst hcell
      simp [hget, h]
    · simp [hcell]
  have hpool : pool.write owner change = pool := by
    unfold write
    rw [href]
    simp only [hcells]
  rw [hpool]

theorem write_wellFormed (hpool : pool.WellFormed) : (pool.write owner change).WellFormed := by
  intro other cell href
  rw [write_ref] at href
  have hlt := hpool other cell href
  unfold write
  split
  · simpa using hlt
  · exact hlt

theorem write_sole (hsole : pool.Sole owner) : (pool.write owner change).Sole owner := by
  intro other cell howner hoth
  rw [write_ref] at howner hoth
  exact hsole other cell howner hoth

end Pool

end GoblinCore.CopyOnWrite
