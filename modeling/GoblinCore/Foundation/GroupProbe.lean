import Mathlib.Data.List.Basic
import Mathlib.Tactic.Ring

/-!
# Open addressing by groups of control cells

A table keeps one control cell per slot: empty, deleted, or full with a tag of the key's hash.  A
probe reads the cells a group at a time from the key's home position, around the end of the table,
and stops at a group that has an empty cell.  The first cells are repeated behind the last, so that
a group that starts near the end is read without wrapping.

The lemmas say what the two probes find, for an entry and for a free slot, and that writing a cell
breaks no probe unless it empties the cell.
-/

namespace GoblinCore.GroupProbe

open List Nat

/-- A control cell. -/
inductive Control (F : Type) where
  | empty
  | deleted
  | full (tag : F)
deriving DecidableEq

variable {F : Type}

/-- The width that the tables have. -/
theorem sixteen_pos : 0 < 16 := by decide

/-! ## Positions -/

section Cells

def wrap (capacity index : ℕ) : ℕ := if capacity ≤ index then index - capacity else index

/-- The cells of a table: one per slot, then the first ones again. -/
structure Shaped (width capacity : ℕ) (control : List (Control F)) : Prop where
  width_pos : 0 < width
  length : control.length = capacity + width
  divides : width ∣ capacity
  mirrored : ∀ index < width, control[capacity + index]? = control[index]?

/-- No empty cell among the first `count` from `start` on. -/
def Unbroken (capacity : ℕ) (control : List (Control F)) (start count : ℕ) : Prop :=
  ∀ step < count, control[(start + step) % capacity]? ≠ some .empty

/-- The index is in a group that a probe from `start` comes to. -/
def Reaches (width capacity : ℕ) (control : List (Control F)) (start index : ℕ) : Prop :=
  ∃ step < capacity, index = (start + step) % capacity ∧
    Unbroken capacity control start (step / width * width)

/-- Writing a cell also writes its repetition behind the end. -/
def setControl (width capacity : ℕ) (control : List (Control F)) (index : ℕ) (value : Control F) :
    List (Control F) :=
  if index < width then (control.set index value).set (capacity + index) value
  else control.set index value

variable {width capacity start groups : ℕ} {control : List (Control F)} {value : Control F}

variable {index offset step : ℕ} {firstDeleted : Option ℕ}

theorem wrap_eq (h : index < 2 * capacity) : wrap capacity index = index % capacity := by
  unfold wrap
  split
  · rename_i hle
    rw [mod_eq_sub_mod hle, mod_eq_of_lt (by omega)]
  · exact (mod_eq_of_lt (by omega)).symm

section

variable (h : Shaped width capacity control)
include h

theorem Shaped.width_le (hpos : 0 < capacity) : width ≤ capacity := le_of_dvd hpos h.divides

theorem Shaped.read (hstart : start < capacity) (hoff : offset < width) :
    control[start + offset]? = control[(start + offset) % capacity]? := by
  have hwidth := h.width_le (by omega)
  by_cases hlt : start + offset < capacity
  · rw [mod_eq_of_lt hlt]
  · rw [mod_eq_sub_mod (by omega), mod_eq_of_lt (by omega)]
    have hmirror := h.mirrored (start + offset - capacity) (by omega)
    rwa [show capacity + (start + offset - capacity) = start + offset by omega] at hmirror

theorem Shaped.wrap_offset (hstart : start < capacity) (hoff : offset ≤ width) :
    wrap capacity (start + offset) = (start + offset) % capacity := by
  have hwidth := h.width_le (by omega)
  exact wrap_eq (by omega)

end

/-- The next group starts `width` steps further on. -/
theorem mod_add_step :
    ((start + width) % capacity + step) % capacity = (start + (width + step)) % capacity := by
  rw [mod_add_mod, add_assoc]

theorem unbroken_next {count : ℕ} :
    Unbroken capacity control start (width + count) ↔
      Unbroken capacity control start width ∧
        Unbroken capacity control ((start + width) % capacity) count := by
  constructor
  · intro h
    refine ⟨fun step hstep ↦ h step (by omega), fun step hstep ↦ ?_⟩
    rw [mod_add_step]
    exact h _ (by omega)
  · intro h step hstep
    by_cases hlt : step < width
    · exact h.1 step hlt
    · have hnext := h.2 (step - width) (by omega)
      rwa [mod_add_step, show width + (step - width) = step by omega] at hnext

/-- The groups before a step, when the step lies beyond the first group. -/
theorem groups_before (hwidth : 0 < width) (hstep : width ≤ step) :
    step / width * width = width + (step - width) / width * width := by
  have hdiv := div_eq_sub_div hwidth hstep
  rw [hdiv]
  ring

/-! ## Reading groups -/

variable [DecidableEq F]

/-- The offsets in a group whose cell has this value, in order. -/
def offsets (width : ℕ) (control : List (Control F)) (start : ℕ) (value : Control F) : List ℕ :=
  (List.range width).filter fun offset ↦ control[start + offset]? = some value

/-- The probe for an entry: the first index with the value that passes the test. -/
def findLoop (width capacity : ℕ) (control : List (Control F)) (value : Control F)
    (test : ℕ → Bool) : ℕ → ℕ → Option ℕ
  | 0, _ => none
  | groups + 1, start =>
    match ((offsets width control start value).map fun offset ↦
        wrap capacity (start + offset)).find? test with
    | some index => some index
    | none =>
      if offsets width control start .empty ≠ [] then none
      else findLoop width capacity control value test groups (wrap capacity (start + width))

/-- The probe for a free slot: the first deleted cell on the way to the first empty one. -/
def insertLoop (width capacity : ℕ) (control : List (Control F)) (mayHaveDeleted : Bool) :
    ℕ → ℕ → Option ℕ → Option ℕ
  | 0, _, firstDeleted => firstDeleted
  | groups + 1, start, firstDeleted =>
    let deleted := if mayHaveDeleted then (offsets width control start .deleted).head? else none
    let firstDeleted := firstDeleted.or (deleted.map fun offset ↦ wrap capacity (start + offset))
    match (offsets width control start .empty).head? with
    | some offset => some (firstDeleted.getD (wrap capacity (start + offset)))
    | none =>
      insertLoop width capacity control mayHaveDeleted groups (wrap capacity (start + width))
        firstDeleted

/-- Both probes in one pass: the entry's index, or the first free one. -/
def findOrInsertLoop (width capacity : ℕ) (control : List (Control F)) (value : Control F)
    (test : ℕ → Bool) (mayHaveDeleted : Bool) : ℕ → ℕ → Option ℕ → Option ℕ × Bool
  | 0, _, firstDeleted => (firstDeleted, false)
  | groups + 1, start, firstDeleted =>
    match ((offsets width control start value).map fun offset ↦
        wrap capacity (start + offset)).find? test with
    | some index => (some index, true)
    | none =>
      let deleted := if mayHaveDeleted then (offsets width control start .deleted).head? else none
      let firstDeleted := firstDeleted.or (deleted.map fun offset ↦ wrap capacity (start + offset))
      match (offsets width control start .empty).head? with
      | some offset => (some (firstDeleted.getD (wrap capacity (start + offset))), false)
      | none =>
        findOrInsertLoop width capacity control value test mayHaveDeleted groups
          (wrap capacity (start + width)) firstDeleted

variable {test : ℕ → Bool} {mayHaveDeleted : Bool}

theorem findOrInsertLoop_eq :
    findOrInsertLoop width capacity control value test mayHaveDeleted groups start firstDeleted
      = match findLoop width capacity control value test groups start with
        | some index => (some index, true)
        | none =>
          (insertLoop width capacity control mayHaveDeleted groups start firstDeleted, false) := by
  induction groups generalizing start firstDeleted with
  | zero => rfl
  | succ groups ih =>
    simp only [findOrInsertLoop, findLoop, insertLoop]
    cases hfind : ((offsets width control start value).map fun offset ↦
        wrap capacity (start + offset)).find? test with
    | some index => rfl
    | none =>
      cases hemp : offsets width control start .empty with
      | nil => simpa using ih
      | cons first rest => simp

section

variable (h : Shaped width capacity control)
include h

theorem Shaped.mem_offsets (hstart : start < capacity) :
    offset ∈ offsets width control start value ↔
      offset < width ∧ control[(start + offset) % capacity]? = some value := by
  simp only [offsets, mem_filter, mem_range, decide_eq_true_eq]
  constructor
  · intro hmem
    exact ⟨hmem.1, (h.read hstart hmem.1).symm.trans hmem.2⟩
  · intro hmem
    exact ⟨hmem.1, (h.read hstart hmem.1).trans hmem.2⟩

theorem Shaped.no_empty_group (hstart : start < capacity) :
    offsets width control start .empty = [] ↔ Unbroken capacity control start width := by
  rw [eq_nil_iff_forall_not_mem]
  constructor
  · intro hnone offset hoff hemp
    exact hnone offset ((h.mem_offsets hstart).mpr ⟨hoff, hemp⟩)
  · intro hbroken offset hmem
    have hread := (h.mem_offsets hstart).mp hmem
    exact hbroken offset hread.1 hread.2

/-! ## What the probes find -/

theorem Shaped.findLoop_some
    (hfind : findLoop width capacity control value test groups start = some index)
    (hstart : start < capacity) :
    index < capacity ∧ control[index]? = some value ∧ test index = true := by
  induction groups generalizing start with
  | zero => exact absurd hfind (by simp [findLoop])
  | succ groups ih =>
    rw [findLoop] at hfind
    split at hfind
    · rename_i found hfnd
      obtain rfl : found = index := by simpa using hfind
      have hmem := mem_of_find?_eq_some hfnd
      obtain ⟨offset, hoff, rfl⟩ := mem_map.mp hmem
      have hread := (h.mem_offsets hstart).mp hoff
      have htest := find?_some hfnd
      rw [h.wrap_offset hstart (le_of_lt hread.1)] at htest ⊢
      exact ⟨mod_lt _ (by omega), hread.2, htest⟩
    · split at hfind
      · cases hfind
      · rw [h.wrap_offset hstart (le_refl width)] at hfind
        exact ih hfind (mod_lt _ (by omega))

/-- A probe that comes to an index with the value that passes the test finds one. -/
theorem Shaped.findLoop_isSome (hstart : start < capacity) (hstep : step < groups * width)
    (hunbroken : Unbroken capacity control start (step / width * width))
    (hval : control[(start + step) % capacity]? = some value)
    (htest : test ((start + step) % capacity) = true) :
    (findLoop width capacity control value test groups start).isSome = true := by
  induction groups generalizing start step with
  | zero => omega
  | succ groups ih =>
    rw [findLoop]
    split
    · rfl
    rename_i hnone
    by_cases hlt : step < width
    · have hmem := (h.mem_offsets hstart).mpr ⟨hlt, hval⟩
      have hfail := find?_eq_none.mp hnone _ (mem_map_of_mem hmem)
      rw [h.wrap_offset hstart (le_of_lt hlt)] at hfail
      exact absurd htest hfail
    · have hsplit := groups_before h.width_pos (Nat.le_of_not_lt hlt)
      rw [hsplit, unbroken_next] at hunbroken
      have hnext : (start + step) % capacity
          = ((start + width) % capacity + (step - width)) % capacity := by
        rw [mod_add_step, show width + (step - width) = step by omega]
      rw [if_neg (by simpa using (h.no_empty_group hstart).mpr hunbroken.1),
        h.wrap_offset hstart (le_refl width)]
      rw [hnext] at hval htest
      have hbound : step - width < groups * width := by
        rw [add_mul, one_mul] at hstep
        omega
      exact ih (mod_lt _ (by omega)) hbound hunbroken.2 hval htest

end

/-- A cell that the probe for a free slot may return. -/
def Vacant (mayHaveDeleted : Bool) (cell : Option (Control F)) : Prop :=
  cell = some .empty ∨ (mayHaveDeleted = true ∧ cell = some .deleted)

/-- A vacant cell that a probe of so many groups comes to. -/
def FreeWithin (width capacity : ℕ) (control : List (Control F)) (mayHaveDeleted : Bool)
    (start groups index : ℕ) : Prop :=
  ∃ step < groups * width, index = (start + step) % capacity ∧
    Vacant mayHaveDeleted control[index]? ∧ Unbroken capacity control start (step / width * width)

theorem Shaped.insertLoop_some (h : Shaped width capacity control) (hstart : start < capacity)
    (hinsert : insertLoop width capacity control mayHaveDeleted groups start firstDeleted = some
      index) :
    firstDeleted = some index ∨
      FreeWithin width capacity control mayHaveDeleted start groups index := by
  induction groups generalizing start firstDeleted with
  | zero => exact .inl hinsert
  | succ groups ih =>
    have hwidth := h.width_pos
    have hgroups : width ≤ (groups + 1) * width := Nat.le_mul_of_pos_left _ (by omega)
    -- an offset of this group is a step of the probe with no group before it
    have hhere : ∀ offset value, offset ∈ offsets width control start value →
        (value = .empty ∨ (mayHaveDeleted = true ∧ value = .deleted)) →
        FreeWithin width capacity control mayHaveDeleted start (groups + 1)
          (wrap capacity (start + offset)) := by
      intro offset value hmem hvacant
      have hread := (h.mem_offsets hstart).mp hmem
      refine ⟨offset, by omega, h.wrap_offset hstart (le_of_lt hread.1), ?_, ?_⟩
      · rw [h.wrap_offset hstart (le_of_lt hread.1), hread.2]
        simpa [Vacant] using hvacant
      · rw [div_eq_of_lt hread.1, zero_mul]
        exact fun step hstep ↦ absurd hstep (not_lt_zero step)
    simp only [insertLoop] at hinsert
    -- the deleted cell remembered after this group
    generalize hrem : firstDeleted.or
      ((if mayHaveDeleted then (offsets width control start .deleted).head? else none).map
        fun offset ↦ wrap capacity (start + offset)) = remembered at hinsert
    have hremembered : ∀ found, remembered = some found → firstDeleted = some found ∨
        FreeWithin width capacity control mayHaveDeleted start (groups + 1) found := by
      rintro found rfl
      rcases Option.or_eq_some_iff.mp hrem with hold | ⟨-, hnew⟩
      · exact .inl hold
      obtain ⟨offset, hhead, rfl⟩ := Option.map_eq_some_iff.mp hnew
      split at hhead
      · rename_i hmay
        exact .inr (hhere offset .deleted (mem_of_mem_head? hhead) (.inr ⟨hmay, rfl⟩))
      · cases hhead
    split at hinsert
    · rename_i offset hhead
      obtain rfl := Option.some.inj hinsert
      cases remembered with
      | none => exact .inr (hhere offset .empty (mem_of_mem_head? hhead) (.inl rfl))
      | some found => exact hremembered found rfl
    · rename_i hhead
      have hnone : Unbroken capacity control start width :=
        (h.no_empty_group hstart).mp (head?_eq_none_iff.mp hhead)
      rw [h.wrap_offset hstart (le_refl width)] at hinsert
      rcases ih (mod_lt _ (by omega)) hinsert with hfst | ⟨step, hstep, hidx, hvacant, hrest⟩
      · exact hremembered index hfst
      refine .inr ⟨width + step, ?_, ?_, hvacant, ?_⟩
      · rw [add_mul, one_mul]
        omega
      · rw [hidx, mod_add_step]
      · rw [groups_before hwidth (Nat.le_add_right _ _), Nat.add_sub_cancel_left, unbroken_next]
        exact ⟨hnone, hrest⟩

theorem insertLoop_isSome_of_deleted (h : firstDeleted.isSome = true) :
    (insertLoop width capacity control mayHaveDeleted groups start firstDeleted).isSome = true := by
  induction groups generalizing start firstDeleted with
  | zero => exact h
  | succ groups ih =>
    simp only [insertLoop]
    split
    · rfl
    · exact ih (by simp [h])

theorem Shaped.insertLoop_isSome (h : Shaped width capacity control) (hstart : start < capacity)
    (hstep : step < groups * width)
    (hvacant : Vacant mayHaveDeleted control[(start + step) % capacity]?) :
    (insertLoop width capacity control mayHaveDeleted groups start firstDeleted).isSome = true := by
  induction groups generalizing start step firstDeleted with
  | zero => omega
  | succ groups ih =>
    simp only [insertLoop]
    split
    · rfl
    rename_i hhead
    have hnone := head?_eq_none_iff.mp hhead
    by_cases hlt : step < width
    · apply insertLoop_isSome_of_deleted
      rcases hvacant with hemp | ⟨hmay, hdeleted⟩
      · have hmem := (h.mem_offsets hstart).mpr ⟨hlt, hemp⟩
        rw [hnone] at hmem
        exact absurd hmem not_mem_nil
      · have hmem := (h.mem_offsets hstart).mpr ⟨hlt, hdeleted⟩
        cases hlist : offsets width control start .deleted with
        | nil =>
          rw [hlist] at hmem
          exact absurd hmem not_mem_nil
        | cons first rest => simp [hmay]
    · have hnext : (start + step) % capacity
          = ((start + width) % capacity + (step - width)) % capacity := by
        rw [mod_add_step, show width + (step - width) = step by omega]
      rw [h.wrap_offset hstart (le_refl width)]
      rw [hnext] at hvacant
      refine ih (mod_lt _ (by omega)) ?_ hvacant
      rw [add_mul, one_mul] at hstep
      omega

end Cells

/-! ## Writing cells -/

section Writing

variable {width capacity : ℕ} {control : List (Control F)} {value : Control F} {index : ℕ}

@[simp] theorem length_setControl :
    (setControl width capacity control index value).length = control.length := by
  unfold setControl
  split <;> simp

theorem getElem?_setControl (hlen : capacity ≤ control.length) {position : ℕ}
    (hpos : position < capacity) :
    (setControl width capacity control index value)[position]?
      = if index = position then some value else control[position]? := by
  have hset : (control.set index value)[position]?
      = if index = position then some value else control[position]? := by
    rw [getElem?_set]
    split
    · rw [if_pos (by omega)]
    · rfl
  unfold setControl
  split
  · rw [getElem?_set_ne (by omega), hset]
  · exact hset

theorem Shaped.setControl (h : Shaped width capacity control) (hidx : index < capacity) :
    Shaped width capacity (setControl width capacity control index value) where
  width_pos := h.width_pos
  length := by rw [length_setControl, h.length]
  divides := h.divides
  mirrored := by
    intro position hpos
    have hwidth := h.width_le (by omega)
    have hlen := h.length
    have hread : (GroupProbe.setControl width capacity control index value)[position]?
        = if index = position then some value else control[position]? :=
      getElem?_setControl (by omega) (by omega)
    rw [hread]
    unfold GroupProbe.setControl
    split
    · by_cases heq : index = position
      · subst heq
        rw [if_pos rfl, getElem?_set_self (by simp; omega)]
      · rw [if_neg heq, getElem?_set_ne (by omega), getElem?_set_ne (by omega),
          h.mirrored position hpos]
    · rw [if_neg (by omega), getElem?_set_ne (by omega), h.mirrored position hpos]

/-- A write other than of the empty cell breaks no probe. -/
theorem Reaches.setControl {start position : ℕ} (hlen : capacity ≤ control.length)
    (hval : value ≠ .empty) (h : Reaches width capacity control start position) :
    Reaches width capacity (GroupProbe.setControl width capacity control index value) start
      position := by
  obtain ⟨step, hstep, hpos, hunbroken⟩ := h
  refine ⟨step, hstep, hpos, fun earlier hearlier ↦ ?_⟩
  rw [getElem?_setControl hlen (mod_lt _ (by omega))]
  split
  · simpa using hval
  · exact hunbroken earlier hearlier

theorem take_setControl (hlen : capacity ≤ control.length) (hidx : index < capacity) :
    (setControl width capacity control index value).take capacity
      = (control.take capacity).set index value := by
  apply ext_getElem?
  intro position
  by_cases hpos : position < capacity
  · rw [getElem?_take_of_lt hpos, getElem?_setControl hlen hpos, getElem?_set,
      getElem?_take_of_lt hpos, length_take, min_eq_left hlen, if_pos hidx]
  · rw [getElem?_eq_none (by simp; omega), getElem?_eq_none (by simp; omega)]

end Writing

end GoblinCore.GroupProbe
