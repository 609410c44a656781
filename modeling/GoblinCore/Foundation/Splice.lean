import Mathlib.Data.List.Forall2

/-!
# Replacing a range of a list

Insertion, replacement and removal at an index are one operation.
-/

namespace GoblinCore

open List

variable {α β : Type*}

/-- The list with so many elements from an index on replaced by others. -/
def splice (list : List α) (first count : ℕ) (others : List α) : List α :=
  list.take first ++ others ++ list.drop (first + count)

variable {list others : List α} {first count : ℕ} {item : α}

theorem length_splice (h : first + count ≤ list.length) :
    (splice list first count others).length = list.length - count + others.length := by
  simp only [splice, length_append, length_take, length_drop]
  omega

theorem mem_splice (h : item ∈ splice list first count others) : item ∈ list ∨ item ∈ others := by
  simp only [splice, mem_append] at h
  rcases h with (hfront | hoths) | hback
  · exact .inl (mem_of_mem_take hfront)
  · exact .inr hoths
  · exact .inl (mem_of_mem_drop hback)

@[simp] theorem splice_front : splice list 0 0 others = others ++ list := by
  simp [splice]

@[simp] theorem splice_back : splice list list.length 0 others = list ++ others := by
  simp [splice]

theorem mem_splice_of_mem (h : item ∈ others) : item ∈ splice list first count others := by
  simp [splice, h]

variable {relation : α → β → Prop}

theorem splice_forall₂ {list' others' : List β} (h : List.Forall₂ relation list list')
    (hoths : List.Forall₂ relation others others') :
    List.Forall₂ relation (splice list first count others) (splice list' first count others') :=
  rel_append (rel_append (forall₂_take first h) hoths) (forall₂_drop (first + count) h)

theorem forall₂_set {list' : List β} (h : List.Forall₂ relation list list') {item' : β}
    (hitem : relation item item') (index : ℕ) :
    List.Forall₂ relation (list.set index item) (list'.set index item') := by
  induction h generalizing index with
  | nil => exact List.Forall₂.nil
  | cons hhead htail ih =>
    cases index with
    | zero => exact List.Forall₂.cons hitem htail
    | succ index => exact List.Forall₂.cons hhead (ih index)

theorem splice_append_left (h : first + count ≤ list.length) (more : List α) :
    splice (list ++ more) first count others = splice list first count others ++ more := by
  rw [splice, take_append_of_le_length (by omega), drop_append_of_le_length h, splice,
    append_assoc, append_assoc, append_assoc]

theorem splice_append_right (before : List α) :
    splice (before ++ list) (before.length + first) count others
      = before ++ splice list first count others := by
  rw [splice, take_length_add_append, Nat.add_assoc, drop_length_add_append, splice,
    append_assoc, append_assoc, append_assoc]

/-! ## Overwriting -/

/-- So many elements from an index on. -/
def slice (list : List α) (first count : ℕ) : List α := (list.drop first).take count

theorem slice_slice {position length : ℕ} (h : position + length ≤ count) :
    slice (slice list first count) position length = slice list (first + position) length := by
  rw [slice, slice, slice, drop_take, take_take, drop_drop, Nat.min_eq_left (by omega)]

section

variable {position length : ℕ} (h : first ≤ list.length)
include h

theorem slice_overwritten :
    slice (splice list first others.length others) first others.length = others := by
  rw [slice, splice, append_assoc, drop_left' (length_take_of_le h), take_left]

theorem slice_overwritten_before (hbefore : position + length ≤ first) :
    slice (splice list first others.length others) position length =
      slice list position length := by
  rw [slice, slice, splice, append_assoc, drop_append_of_le_length (by rw [length_take]; omega),
    take_append_of_le_length (by rw [length_drop, length_take]; omega), drop_take, take_take,
    Nat.min_eq_left (by omega)]

theorem slice_overwritten_after (hafter : first + others.length ≤ position) :
    slice (splice list first others.length others) position length =
      slice list position length := by
  have hfront : (list.take first ++ others).length = first + others.length := by
    rw [length_append, length_take_of_le h]
  rw [slice, slice, splice, drop_append, drop_eq_nil_of_le (by omega), nil_append, drop_drop,
    hfront, Nat.add_sub_cancel' hafter]

end

theorem overwrite_append (more : List α) (h : first + others.length ≤ list.length) :
    splice (splice list first others.length others) (first + others.length) more.length more
      = splice list first (others ++ more).length (others ++ more) := by
  have hfront : (list.take first ++ others).length = first + others.length := by
    rw [length_append, length_take_of_le (by omega)]
  rw [splice, splice, take_left' hfront, ← hfront, drop_length_add_append, hfront,
    drop_drop, splice,
    length_append, append_assoc, append_assoc, append_assoc, append_assoc, Nat.add_assoc]

end GoblinCore
