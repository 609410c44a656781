import GoblinCore.Foundation.Splice
import Mathlib.Data.List.GetD
import Mathlib.Tactic.Ring

/-!
# Runs in blocks of one size

A long sequence is kept in blocks.  Every block owns as many positions as the block size, whether
it fills them or not, and no run straddles two blocks: a run that does not fit behind the cursor
starts at the next block.
-/

namespace GoblinCore.ChunkedRuns

open List

variable {α : Type*} {chunk : ℕ}

/-- Where a run of a given size starts if the cursor is at a position. -/
def place (chunk cursor size : ℕ) : ℕ :=
  if cursor % chunk + size ≤ chunk then cursor else (cursor / chunk + 1) * chunk

theorem le_place (hchunk : 0 < chunk) (cursor size : ℕ) : cursor ≤ place chunk cursor size := by
  unfold place
  split
  · exact le_rfl
  · have hsplit := Nat.div_add_mod cursor chunk
    have hmod := Nat.mod_lt cursor hchunk
    rw [Nat.add_mul, Nat.mul_comm (cursor / chunk)]
    omega

theorem place_zero (hchunk : 0 < chunk) (cursor : ℕ) : place chunk cursor 0 = cursor := by
  rw [place, Nat.add_zero, if_pos (Nat.mod_lt cursor hchunk).le]

/-- A run does not reach beyond its block. -/
theorem place_mod_add_le {cursor size : ℕ} (h : size ≤ chunk) :
    place chunk cursor size % chunk + size ≤ chunk := by
  unfold place
  split
  · assumption
  · rw [Nat.mul_mod_left]
    omega

/-- So many elements from a position on. -/
def readRun (chunk : ℕ) (blocks : List (List α)) (position length : ℕ) : List α :=
  ((blocks.getD (position / chunk) []).drop (position % chunk)).take length

/-- Overwrite what stands at a position. -/
def writeRun (chunk : ℕ) (blocks : List (List α)) (position : ℕ) (data : List α) : List (List α) :=
  blocks.modify (position / chunk) fun block ↦ splice block (position % chunk) data.length data

/-- The run is found at the position. -/
def Stored (chunk : ℕ) (blocks : List (List α)) (position : ℕ) (data : List α) : Prop :=
  readRun chunk blocks position data.length = data

variable {β : Type*} {index : ℕ}

theorem getD_modify_same {list : List β} (h : index < list.length) (f : β → β) (default : β) :
    (list.modify index f).getD index default = f (list.getD index default) := by
  rw [getD_eq_getElem?_getD, getElem?_modify_eq, getD_eq_getElem?_getD, getElem?_eq_getElem h]
  rfl

theorem getD_modify_other (list : List β) {other : ℕ} (h : index ≠ other) (f : β → β)
    (default : β) :
    (list.modify index f).getD other default = list.getD other default := by
  rw [getD_eq_getElem?_getD, getElem?_modify_ne _ _ h, getD_eq_getElem?_getD]

theorem forall_mem_modify {p : β → Prop} {list : List β} (h : ∀ item ∈ list, p item) {f : β → β}
    (hf : ∀ item, p item → p (f item)) :
    ∀ item ∈ list.modify index f, p item := by
  intro item hitem
  obtain ⟨other, hoth⟩ := mem_iff_getElem?.mp hitem
  rw [getElem?_modify] at hoth
  obtain ⟨before, hbef, rfl⟩ := Option.map_eq_some_iff.mp hoth
  have hold := h before (mem_of_getElem? hbef)
  split
  · exact hf before hold
  · exact hold

variable {blocks : List (List α)} {position : ℕ} {data : List α}

@[simp] theorem stored_nil : Stored chunk blocks position [] := by
  simp [Stored, readRun]

section

variable (h : Stored chunk blocks position data)
include h

theorem Stored.fits (hne : data ≠ []) :
    position % chunk + data.length ≤ (blocks.getD (position / chunk) []).length := by
  have hlen := congrArg List.length h
  have hpos := length_pos_iff.mpr hne
  simp only [readRun, length_take, length_drop] at hlen
  omega

theorem Stored.lt_length (hne : data ≠ []) : position / chunk < blocks.length := by
  have hfits := h.fits hne
  have hpos := length_pos_iff.mpr hne
  by_contra hge
  rw [getD_eq_default _ _ (by omega)] at hfits
  simp only [length_nil] at hfits
  omega

/-- What is found depends on the elements of the run only. -/
theorem Stored.congr {others : List (List α)}
    (hsame : data ≠ [] → ((others.getD (position / chunk) []).drop (position % chunk)).take
      data.length = ((blocks.getD (position / chunk) []).drop (position % chunk)).take
        data.length) :
    Stored chunk others position data := by
  by_cases hne : data = []
  · subst hne
    exact stored_nil
  · exact (hsame hne).trans h

theorem Stored.append (more : List (List α)) : Stored chunk (blocks ++ more) position data :=
  h.congr fun hne ↦ by rw [getD_append _ _ _ _ (h.lt_length hne)]

/-- Writing elsewhere does not change what is found. -/
theorem Stored.writeRun {start : ℕ} {other : List α}
    (hstart : start % chunk ≤ (blocks.getD (start / chunk) []).length)
    (helsewhere : position / chunk ≠ start / chunk ∨ position + data.length ≤ start ∨ start +
      other.length ≤ position) :
    Stored chunk (ChunkedRuns.writeRun chunk blocks start other) position data := by
  refine h.congr fun hne ↦ ?_
  have hidx := h.lt_length hne
  rw [ChunkedRuns.writeRun]
  by_cases hsame : start / chunk = position / chunk
  · rw [hsame] at hstart ⊢
    rw [getD_modify_same hidx]
    have hpos := Nat.div_add_mod position chunk
    have hstartSplit := Nat.div_add_mod start chunk
    rw [hsame] at hstartSplit
    rcases helsewhere with hoth | hbef | haft
    · exact absurd hsame.symm hoth
    · exact slice_overwritten_before hstart (by omega)
    · exact slice_overwritten_after hstart (by omega)
  · rw [getD_modify_other _ hsame]

end

/-- What was written is found. -/
theorem stored_writeRun {start : ℕ} {data : List α} (hidx : start / chunk < blocks.length)
    (hstart : start % chunk ≤ (blocks.getD (start / chunk) []).length) :
    Stored chunk (writeRun chunk blocks start data) start data := by
  rw [Stored, readRun, writeRun, getD_modify_same hidx]
  exact slice_overwritten hstart

end GoblinCore.ChunkedRuns
