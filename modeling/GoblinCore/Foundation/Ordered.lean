import Mathlib.Algebra.Order.Ring.Nat
import Mathlib.Data.List.Basic
import Mathlib.Data.List.Pairwise
import Mathlib.Data.List.Sort

/-!
# Searching lists that are in order

A binary search looks for the point where a test stops holding.  The lemmas here need no order on
the elements: it is enough that the list is cut by the test, that is, that no element passes the
test after one that fails it.
-/

theorem GoblinCore.lt_of_getElem? {α : Type} {list : List α} {index : ℕ} {value : α}
    (h : list[index]? = some value) : index < list.length :=
  (List.getElem?_eq_some_iff.mp h).1

theorem GoblinCore.length_take_of_getElem? {α : Type} {list : List α} {index : ℕ} {value : α}
    (h : list[index]? = some value) : (list.take index).length = index :=
  List.length_take_of_le (lt_of_getElem? h).le

namespace GoblinCore.Ordered

open List

variable {α : Type} {test : α → Bool} {list : List α} {value : α}

/-- The test holds up to some point of the list and fails from there on. -/
def Cuts (test : α → Bool) (list : List α) : Prop :=
  list.Pairwise fun first second ↦ test second = true → test first = true

section

variable (h : Cuts test list)
include h

theorem Cuts.sublist {part : List α} (hpart : part.Sublist list) : Cuts test part :=
  List.Pairwise.sublist hpart h

/-- What is before the point where the test stops holding. -/
theorem Cuts.takeWhile_eq : list.takeWhile test = list.filter test := by
  induction list with
  | nil => rfl
  | cons first rest ih =>
    obtain ⟨hfst, hrest⟩ := pairwise_cons.mp h
    cases htest : test first with
    | true => simp [htest, ih hrest]
    | false =>
      have hnone : rest.filter test = [] := by
        rw [filter_eq_nil_iff]
        intro later hlater hpass
        rw [hfst later hlater hpass] at htest
        exact absurd htest (by decide)
      simp [htest, hnone]

theorem Cuts.dropWhile_eq : list.dropWhile test = list.filter fun item ↦ !test item := by
  induction list with
  | nil => rfl
  | cons first rest ih =>
    obtain ⟨hfst, hrest⟩ := pairwise_cons.mp h
    cases htest : test first with
    | true => simp [htest, ih hrest]
    | false =>
      have hall : rest.filter (fun item ↦ !test item) = rest := by
        rw [filter_eq_self]
        intro later hlater
        by_contra hpass
        rw [hfst later hlater (by simpa using hpass)] at htest
        exact absurd htest (by decide)
      simp [htest, hall]

theorem Cuts.append : list.filter test ++ list.filter (fun item ↦ !test item) = list := by
  rw [← h.takeWhile_eq, ← h.dropWhile_eq, takeWhile_append_dropWhile]

end

theorem takeWhile_congr {test' : α → Bool} (h : ∀ item ∈ list, test item = test' item) :
    list.takeWhile test = list.takeWhile test' := by
  induction list with
  | nil => rfl
  | cons first rest ih =>
    rw [takeWhile_cons, takeWhile_cons, h first mem_cons_self,
      ih fun item hitem ↦ h item (mem_cons_of_mem _ hitem)]

theorem take_length_takeWhile : list.take (list.takeWhile test).length = list.takeWhile test :=
  (prefix_iff_eq_take.mp ( takeWhile_prefix test)).symm

theorem drop_length_takeWhile : list.drop (list.takeWhile test).length = list.dropWhile test := by
  calc list.drop (list.takeWhile test).length
    _ = (list.takeWhile test ++ list.dropWhile test).drop (list.takeWhile test).length := by
      rw [takeWhile_append_dropWhile]
    _ = list.dropWhile test := drop_left

/-- Put a value where the test stops holding. -/
def place (test : α → Bool) (value : α) (list : List α) : List α :=
  list.filter test ++ value :: list.filter fun item ↦ !test item

theorem mem_place {item : α} : item ∈ place test value list ↔ item = value ∨ item ∈ list := by
  cases htest : test item with
  | true => simp [place, htest, or_comm]
  | false => simp [place, htest]

theorem place_perm : (place test value list).Perm (value :: list) :=
  perm_middle.trans ((filter_append_perm test list).cons value)

theorem place_length : (place test value list).length = list.length + 1 := by
  rw [place_perm.length_eq, length_cons]

section Strict

variable {before : α → α → Prop}

/-- A value that is comparable with every element keeps the list in order. -/
theorem place_pairwise (htrans : ∀ first ∈ list, ∀ second ∈ list, before first value →
      before value second → before first second) (hlist : list.Pairwise before)
    (hpass : ∀ item ∈ list, test item = true → before item value)
    (hfail : ∀ item ∈ list, test item = false → before value item) :
    (place test value list).Pairwise before := by
  have hleft : ∀ item ∈ list.filter test, before item value := by
    intro item hitem
    obtain ⟨hmem, htest⟩ := mem_filter.mp hitem
    exact hpass item hmem htest
  have hright : ∀ item ∈ list.filter (fun item ↦ !test item), before value item := by
    intro item hitem
    obtain ⟨hmem, htest⟩ := mem_filter.mp hitem
    exact hfail item hmem (by simpa using htest)
  refine pairwise_append.mpr ⟨hlist.filter _, ?_, ?_⟩
  · exact pairwise_cons.mpr ⟨hright, hlist.filter _⟩
  intro first hfst second hsnd
  rcases mem_cons.mp hsnd with rfl | hsnd
  · exact hleft first hfst
  · exact htrans first (mem_of_mem_filter hfst) second (mem_of_mem_filter hsnd)
      (hleft first hfst) (hright second hsnd)

/-- The test of a binary search cuts a list that is in order. -/
theorem cuts_of_pairwise (hlist : list.Pairwise before)
    (h : ∀ first ∈ list, ∀ second ∈ list, before first second → test second = true →
      test first = true) : Cuts test list := by
  refine List.Pairwise.imp_of_mem ?_ hlist
  intro first second hfst hsnd hbef
  exact h first hfst second hsnd hbef

end Strict

/-- Removing the only occurrence of an element. -/
theorem erase_append_cons [DecidableEq α] {front back : List α} (h : value ∉ front) :
    (front ++ value :: back).erase value = front ++ back := by
  rw [erase_append_right _ h, erase_cons_head]

/-- Putting a value in and taking another out, in either order. -/
theorem place_erase [DecidableEq α] {old : α} (hnd : list.Nodup) (hfresh : value ∉ list)
    (hne : old ≠ value) :
    (place test value list).erase old = place test value (list.erase old) := by
  have hplaced : (place test value list).Nodup := by
    rw [place_perm.nodup_iff, nodup_cons]
    exact ⟨hfresh, hnd⟩
  rw [hplaced.erase_eq_filter, hnd.erase_eq_filter]
  simp only [place, filter_append, filter_cons, filter_filter]
  rw [if_pos (by simpa using hne.symm)]
  congr 1
  · exact filter_congr fun item _ ↦ Bool.and_comm _ _
  · congr 1
    exact filter_congr fun item _ ↦ Bool.and_comm _ _

/-- Searching for a key that no two elements share. -/
theorem find?_key_iff {κ : Type} [DecidableEq κ] {key : α → κ} {wanted : κ}
    (h : (list.map key).Nodup) :
    list.find? (fun item ↦ key item = wanted) = some value ↔ value ∈ list ∧ key value = wanted := by
  constructor
  · intro hfind
    exact ⟨mem_of_find?_eq_some hfind, by simpa using find?_some hfind⟩
  rintro ⟨hmem, rfl⟩
  cases hfind : list.find? (fun item ↦ key item = key value) with
  | none => simpa using find?_eq_none.mp hfind value hmem
  | some found =>
    have hkey : key found = key value := by simpa using find?_some hfind
    rw [inj_on_of_nodup_map h (mem_of_find?_eq_some hfind) hmem hkey]

theorem findIdx?_of_getElem? {κ : Type} [DecidableEq κ] {key : α → κ} {position : ℕ}
    (h : (list.map key).Nodup) (hget : list[position]? = some value) :
    list.findIdx? (fun item ↦ key item = key value) = some position := by
  obtain ⟨hlt, hval⟩ := List.getElem?_eq_some_iff.mp hget
  rw [findIdx?_eq_some_iff_getElem]
  refine ⟨hlt, by simp [hval], ?_⟩
  intro earlier hearlier hsame
  have hkey : (list.map key)[earlier]? = (list.map key)[position]? := by
    have hkeys : key list[earlier] = key value := by simpa using hsame
    rw [getElem?_map, getElem?_map, hget, getElem?_eq_getElem (by omega)]
    simp [hkeys]
  rw [nodup_iff_getElem?_ne_getElem?] at h
  exact h earlier position hearlier (by simpa using hlt) hkey

section Between

variable {low high : α → Bool}

theorem Cuts.drop_length (h : Cuts test list) :
    list.drop (list.filter test).length = list.filter fun item ↦ !test item := by
  rw [← h.takeWhile_eq, drop_length_takeWhile, h.dropWhile_eq]

theorem length_filter_between (hsub : ∀ item ∈ list, low item = true → high item = true) :
    (list.filter high).length =
      (list.filter low).length + (list.filter fun item ↦ !low item && high item).length := by
  induction list with
  | nil => rfl
  | cons first rest ih =>
    have hrest := ih fun item hitem ↦ hsub item (mem_cons_of_mem _ hitem)
    have hfst := hsub first mem_cons_self
    cases hlow : low first with
    | true =>
      simp only [filter_cons, hlow, hfst hlow, Bool.not_true, Bool.false_and, if_true,
        Bool.false_eq_true, if_false, length_cons, hrest]
      omega
    | false =>
      cases hhigh : high first with
      | true =>
        simp only [filter_cons, hlow, hhigh, Bool.not_false, Bool.true_and, if_true,
          Bool.false_eq_true, if_false, length_cons, hrest]
        omega
      | false =>
        simpa only [filter_cons, hlow, hhigh, Bool.not_false, Bool.true_and, if_true,
          Bool.false_eq_true, if_false] using hrest

theorem filter_not_low : (list.filter fun item ↦ !low item).filter high =
    list.filter fun item ↦ !low item && high item := by
  rw [filter_filter]
  exact filter_congr fun item _ ↦ Bool.and_comm _ _

/-- The elements between two points of a list. -/
theorem filter_between (hlow : Cuts low list) (hhigh : Cuts high list)
    (hsub : ∀ item ∈ list, low item = true → high item = true) :
    (list.drop (list.filter low).length).take
        ((list.filter high).length - (list.filter low).length) =
      list.filter fun item ↦ !low item && high item := by
  have hrest : Cuts high (list.filter fun item ↦ !low item) := hhigh.sublist filter_sublist
  rw [hlow.drop_length, length_filter_between hsub, Nat.add_sub_cancel_left, ← filter_not_low,
    ← hrest.takeWhile_eq, take_length_takeWhile]

/-- The first of them comes right after those that are too low. -/
theorem takeWhile_between (hlow : Cuts low list)
    (hsome : (list.filter fun item ↦ !low item && high item) ≠ []) (hhigh : Cuts high list) :
    list.takeWhile (fun item ↦ !(!low item && high item)) = list.filter low := by
  have hsplit := hlow.append
  have hrest : Cuts high (list.filter fun item ↦ !low item) := hhigh.sublist filter_sublist
  have hfront : ∀ item ∈ list.filter low, (!(!low item && high item)) = true := by
    intro item hitem
    simp [(mem_filter.mp hitem).2]
  have hback : (list.filter fun item ↦ !low item).takeWhile
      (fun item ↦ !(!low item && high item)) = [] := by
    rw [← filter_not_low] at hsome
    cases hcases : list.filter (fun item ↦ !low item) with
    | nil => rfl
    | cons first rest =>
      have hfst : low first = false := by
        have hmem : first ∈ list.filter fun item ↦ !low item := by
          rw [hcases]
          exact mem_cons_self
        simpa using (mem_filter.mp hmem).2
      have hcuts := hcases ▸ hrest
      have hpass : high first = true := by
        rw [hcases, ← hcuts.takeWhile_eq, takeWhile_cons] at hsome
        by_contra hfail
        rw [if_neg hfail] at hsome
        exact hsome rfl
      simp [hfst, hpass]
  calc list.takeWhile (fun item ↦ !(!low item && high item))
    _ = (list.filter low ++ list.filter fun item ↦ !low item).takeWhile
        (fun item ↦ !(!low item && high item)) := by rw [hsplit]
    _ = list.filter low := by rw [takeWhile_append_of_pos hfront, hback, append_nil]

end Between

section Positions

/-- The positions of the elements that pass a test, counted from `start`. -/
def positions (test : α → Bool) (start : ℕ) (list : List α) : List ℕ :=
  (list.zipIdx start).filterMap fun item ↦ if test item.1 then some item.2 else none

theorem positions_length (start : ℕ) :
    (positions test start list).length = (list.filter test).length := by
  induction list generalizing start with
  | nil => rfl
  | cons first rest ih =>
    have hrest := ih (start + 1)
    unfold positions at hrest ⊢
    cases htest : test first with
    | true => simp [htest, hrest]
    | false => simp [htest, hrest]

theorem positions_head? (start : ℕ) :
    (positions test start list).head? =
      if list.filter test = [] then none
      else some (start + (list.takeWhile fun item ↦ !test item).length) := by
  induction list generalizing start with
  | nil => rfl
  | cons first rest ih =>
    have hrest := ih (start + 1)
    unfold positions at hrest ⊢
    cases htest : test first with
    | true => simp [htest]
    | false =>
      rw [zipIdx_cons, filterMap_cons_none (by simp [htest]), hrest]
      simp only [filter_cons, htest, takeWhile_cons, Bool.not_false, if_true,
        Bool.false_eq_true, if_false, length_cons]
      congr 2
      omega

/-- The elements at the positions of an interval. -/
theorem filter_zipIdx_between (first last : ℕ) :
    (list.zipIdx.filter fun item ↦ decide (first ≤ item.2 ∧ item.2 < last)).map Prod.fst =
      (list.drop first).take (last - first) := by
  induction list generalizing first last with
  | nil => simp
  | cons head rest ih =>
    have hshift : rest.zipIdx 1 = rest.zipIdx.map fun item ↦ (item.1, item.2 + 1) := by
      rw [zipIdx_succ]
    have hrest : ((rest.zipIdx 1).filter fun item ↦
        decide (first ≤ item.2 ∧ item.2 < last)).map Prod.fst =
        (rest.drop (first - 1)).take ((last - 1) - (first - 1)) := by
      rw [hshift, filter_map, map_map, ← ih (first - 1) (last - 1)]
      have htests : rest.zipIdx.filter ((fun item : α × ℕ ↦
          decide (first ≤ item.2 ∧ item.2 < last)) ∘ fun item ↦ (item.1, item.2 + 1)) =
          rest.zipIdx.filter fun item ↦ decide (first - 1 ≤ item.2 ∧ item.2 < last - 1) := by
        refine filter_congr fun item _ ↦ ?_
        simp only [Function.comp_apply]
        congr 1
        apply propext
        omega
      rw [htests]
      rfl
    rw [zipIdx_cons, filter_cons]
    cases first with
    | zero =>
      cases last with
      | zero => simp
      | succ last => simpa using hrest
    | succ first =>
      have hskip : decide (first + 1 ≤ 0 ∧ 0 < last) = false := by simp
      rw [hskip]
      simp only [Bool.false_eq_true, if_false, Nat.zero_add, hrest, drop_succ_cons]
      congr 1
      omega

end Positions

/-- A list of numbers that has every number below a bound once. -/
theorem length_eq_of_mem_iff_lt {numbers : List ℕ} {n : ℕ} (hnd : numbers.Nodup)
    (hmem : ∀ number, number ∈ numbers ↔ number < n) : numbers.length = n := by
  have hperm : numbers.Perm (List.range n) := by
    rw [perm_ext_iff_of_nodup hnd nodup_range]
    simpa using hmem
  rw [hperm.length_eq, length_range]

end GoblinCore.Ordered
