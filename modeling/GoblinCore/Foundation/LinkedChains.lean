import Mathlib.Data.List.AList

/-!
# Chains of linked cells

Cells live in one memory.  A chain starts at a head, numbered from zero, and goes on through cells
that are known by a handle.  Every cell names its successor, its predecessor and the head its chain
starts at, and a chain grows at its end and loses any cell other than its head.

The handles of a chain, in order, are not stored anywhere.  `Linked` says what they are.
-/

namespace GoblinCore.LinkedChains

open Function List AList

variable {H G : Type}

/-- The head of a chain, or a cell behind one. -/
inductive Ref (H : Type) where
  | head (owner : ℕ)
  | node (handle : H)
deriving DecidableEq

/-- The handle of a cell, of which a head has none. -/
def Ref.handle : Ref H → Option H
  | .head _ => none
  | .node handle => some handle

structure Cell (H G : Type) where
  value : G
  owner : ℕ
  previous : Option H := none
  next : Option H := none

structure Chains (H G : Type) where
  heads : ℕ := 0
  cells : AList (fun _ : Ref H ↦ Cell H G) := ∅

variable [DecidableEq H]

namespace Chains

variable (chains : Chains H G) (ref : Ref H)

def cell : Option (Cell H G) := chains.cells.lookup ref

def value : Option G := (chains.cell ref).map Cell.value

def next : Option H := (chains.cell ref).bind Cell.next

/-- A cell that exists is changed. -/
def modify (change : Cell H G → Cell H G) : Chains H G :=
  match chains.cell ref with
  | some cell => { chains with cells := chains.cells.insert ref (change cell) }
  | none => chains

/-- The value of a cell is changed and its links are kept. -/
def modifyValue (change : G → G) : Chains H G :=
  chains.modify ref fun cell ↦ { cell with value := change cell.value }

/-- The handles in use. -/
def handles : List H := chains.cells.keys.filterMap Ref.handle

/-- A new cell is linked behind the last one. -/
def extend (owner : ℕ) (fresh : H) (value : G) : Chains H G :=
  let linked := chains.modify ref fun cell ↦ { cell with next := some fresh }
  { linked with
    cells := linked.cells.insert (.node fresh)
      { value := value, owner := owner, previous := ref.handle } }

/-- A cell is taken out of its chain and given back. -/
def unlink (victim : H) : Chains H G :=
  match chains.cell (.node victim) with
  | none => chains
  | some cell =>
    let before : Ref H := match cell.previous with
      | some previous => .node previous
      | none => .head cell.owner
    let skipped := chains.modify before fun other ↦ { other with next := cell.next }
    let joined := match cell.next with
      | some next => skipped.modify (.node next) fun other ↦
        { other with previous := cell.previous }
      | none => skipped
    { joined with cells := joined.cells.erase (.node victim) }

/-- A chain of one cell is added behind the others. -/
def pushHead (value : G) : Chains H G where
  heads := chains.heads + 1
  cells := chains.cells.insert (.head chains.heads) { value := value, owner := chains.heads }

/-- The last chain is dropped, which has only its head. -/
def popHead : Chains H G where
  heads := chains.heads - 1
  cells := chains.cells.erase (.head (chains.heads - 1))

/-! ## Reading a changed memory -/

variable {chains ref}

section

variable (change : Cell H G → Cell H G)
include change

theorem cell_modify (other : Ref H) :
    (chains.modify ref change).cell other
      = if other = ref then (chains.cell ref).map change else chains.cell other := by
  unfold modify
  cases hcell : chains.cell ref with
  | none =>
    split_ifs with heq
    · rw [heq, hcell, Option.map_none]
    · rfl
  | some cell =>
    split_ifs with heq
    · rw [heq]
      exact lookup_insert _
    · exact lookup_insert_ne heq

@[simp] theorem cell_modify_self :
    (chains.modify ref change).cell ref = (chains.cell ref).map change := by
  rw [cell_modify, if_pos rfl]

theorem cell_modify_of_ne {other : Ref H} (hne : other ≠ ref) :
    (chains.modify ref change).cell other = chains.cell other := by
  rw [cell_modify, if_neg hne]

@[simp] theorem isSome_cell_modify (other : Ref H) :
    ((chains.modify ref change).cell other).isSome = (chains.cell other).isSome := by
  rw [cell_modify]
  split_ifs with heq
  · rw [heq, Option.isSome_map]
  · rfl

@[simp] theorem heads_modify : (chains.modify ref change).heads = chains.heads := by
  unfold modify
  split <;> rfl

end

@[simp] theorem heads_modifyValue {change : G → G} :
    (chains.modifyValue ref change).heads = chains.heads :=
  heads_modify _

@[simp] theorem value_modifyValue_self (change : G → G) :
    (chains.modifyValue ref change).value ref = (chains.value ref).map change := by
  unfold value modifyValue
  rw [cell_modify_self, Option.map_map, Option.map_map]
  rfl

variable {other : Ref H}

theorem value_modifyValue_of_ne {change : G → G} (hne : other ≠ ref) :
    (chains.modifyValue ref change).value other = chains.value other := by
  unfold value modifyValue
  rw [cell_modify_of_ne _ hne]

theorem mem_handles {handle : H} :
    handle ∈ chains.handles ↔ (chains.cell (.node handle)).isSome := by
  unfold handles cell
  rw [mem_filterMap, AList.lookup_isSome, AList.mem_keys]
  constructor
  · rintro ⟨other, hmem, hhandle⟩
    cases other with
    | head owner => exact absurd hhandle (by simp [Ref.handle])
    | node other =>
      cases hhandle
      exact hmem
  · intro hmem
    exact ⟨_, hmem, rfl⟩

theorem cell_of_fresh {fresh : H} (h : fresh ∉ chains.handles) :
    chains.cell (.node fresh) = none := by
  rw [mem_handles, Option.not_isSome_iff_eq_none] at h
  exact h

@[simp] theorem heads_extend (owner : ℕ) (fresh : H) (value : G) :
    (chains.extend ref owner fresh value).heads = chains.heads :=
  heads_modify _

theorem cell_extend (owner : ℕ) (fresh : H) (value : G) (other : Ref H) :
    (chains.extend ref owner fresh value).cell other
      = if other = .node fresh then
          some { value := value, owner := owner, previous := ref.handle }
        else if other = ref then
          (chains.cell ref).map fun cell ↦ { cell with next := some fresh }
        else chains.cell other := by
  split_ifs with hfresh href
  · rw [hfresh]
    exact lookup_insert _
  · refine (lookup_insert_ne hfresh).trans ?_
    rw [href]
    exact cell_modify_self _
  · exact (lookup_insert_ne hfresh).trans (cell_modify_of_ne _ href)

@[simp] theorem heads_unlink {victim : H} : (chains.unlink victim).heads = chains.heads := by
  unfold unlink
  split
  · rfl
  · dsimp only
    split <;> simp

theorem cell_unlink_self {victim : H} : (chains.unlink victim).cell (.node victim) = none := by
  unfold unlink
  split
  · assumption
  · exact lookup_erase _ _

theorem cell_pushHead (value : G) (other : Ref H) :
    (chains.pushHead value).cell other
      = if other = .head chains.heads then some { value := value, owner := chains.heads }
        else chains.cell other := by
  split_ifs with heq
  · rw [heq]
    exact lookup_insert _
  · exact lookup_insert_ne heq

theorem cell_popHead_of_ne (hne : other ≠ .head (chains.heads - 1)) :
    chains.popHead.cell other = chains.cell other :=
  lookup_erase_ne hne

/-! ## The handles in use -/

theorem handles_modify_subset {change : Cell H G → Cell H G} :
    (chains.modify ref change).handles ⊆ chains.handles := by
  intro handle hhandle
  rw [mem_handles, isSome_cell_modify] at hhandle
  exact mem_handles.mpr hhandle

theorem handles_extend_subset {owner : ℕ} {fresh : H} {value : G} :
    (chains.extend ref owner fresh value).handles ⊆ fresh :: chains.handles := by
  intro handle hhandle
  rw [mem_handles, cell_extend] at hhandle
  by_cases hnew : Ref.node handle = .node fresh
  · exact Ref.node.inj hnew ▸ mem_cons_self
  rw [if_neg hnew] at hhandle
  refine mem_cons_of_mem _ (mem_handles.mpr ?_)
  split_ifs at hhandle with href
  · rw [href]
    rwa [Option.isSome_map] at hhandle
  · exact hhandle

theorem handles_unlink_subset {victim : H} : (chains.unlink victim).handles ⊆ chains.handles := by
  intro handle hhandle
  rw [mem_handles] at hhandle ⊢
  have hne : Ref.node handle ≠ .node victim := by
    rintro heq
    rw [heq, cell_unlink_self] at hhandle
    cases hhandle
  unfold unlink at hhandle
  split at hhandle
  · exact hhandle
  · dsimp only at hhandle
    have hkept (memory : Chains H G) :
        ({ memory with cells := memory.cells.erase (.node victim) } : Chains H G).cell
          (.node handle) = memory.cell (.node handle) := lookup_erase_ne hne
    split at hhandle
    · rw [hkept, isSome_cell_modify, isSome_cell_modify] at hhandle
      exact hhandle
    · rw [hkept, isSome_cell_modify] at hhandle
      exact hhandle

theorem handles_pushHead_subset {value : G} : (chains.pushHead value).handles ⊆ chains.handles := by
  intro handle hhandle
  rw [mem_handles, cell_pushHead, if_neg (by simp)] at hhandle
  exact mem_handles.mpr hhandle

theorem handles_popHead_subset : chains.popHead.handles ⊆ chains.handles := by
  intro handle hhandle
  rw [mem_handles, cell_popHead_of_ne (by simp)] at hhandle
  exact mem_handles.mpr hhandle

end Chains

open Chains

/-! ## Segments -/

/-- The handle that a cell in front of these has to name as its successor. -/
def successor (refs : List (Ref H)) (after : Option H) : Option H :=
  match refs with
  | [] => after
  | ref :: _ => ref.handle

/-- The handle that a cell behind these has to name as its predecessor. -/
def predecessor (before : Option H) : List (Ref H) → Option H
  | [] => before
  | ref :: refs => predecessor ref.handle refs

/-- Cells that are linked one to the next, between a predecessor and a successor. -/
def Segment (chains : Chains H G) (owner : ℕ) : Option H → List (Ref H) → Option H → Prop
  | _, [], _ => True
  | before, ref :: refs, after =>
    (∃ cell, chains.cell ref = some cell ∧ cell.owner = owner ∧ cell.previous = before ∧
      cell.next = successor refs after) ∧
    Segment chains owner ref.handle refs after

section Segment

variable {chains changed : Chains H G} {owner : ℕ} {before after : Option H}
  {refs others : List (Ref H)} {ref : Ref H}

omit [DecidableEq H] in
@[simp] theorem successor_nil : successor ([] : List (Ref H)) after = after := rfl

omit [DecidableEq H] in
theorem successor_append :
    successor (refs ++ others) after = successor refs (successor others after) := by
  cases refs <;> rfl

omit [DecidableEq H] in
theorem predecessor_append_singleton : predecessor before (refs ++ [ref]) = ref.handle := by
  induction refs generalizing before with
  | nil => rfl
  | cons first refs ih => exact ih

theorem segment_append :
    Segment chains owner before (refs ++ others) after
      ↔ Segment chains owner before refs (successor others after)
        ∧ Segment chains owner (predecessor before refs) others after := by
  induction refs generalizing before with
  | nil => exact ⟨fun h ↦ ⟨trivial, h⟩, And.right⟩
  | cons ref refs ih =>
    rw [cons_append, Segment, Segment, ih, successor_append, and_assoc]
    rfl

section

variable (h : Segment chains owner before refs after)
include h

/-- The values of the cells do not matter. -/
theorem Segment.congr_links
    (hsame : ∀ ref ∈ refs, ∀ cell, chains.cell ref = some cell → ∃ value, changed.cell ref = some {
      cell with value := value }) : Segment changed owner before refs after := by
  induction refs generalizing before with
  | nil => exact trivial
  | cons ref refs ih =>
    refine ⟨?_, ih h.2 fun other hoth ↦ hsame other (mem_cons_of_mem _ hoth)⟩
    obtain ⟨cell, hcell, hlinks⟩ := h.1
    obtain ⟨value, hval⟩ := hsame ref mem_cons_self cell hcell
    exact ⟨_, hval, hlinks⟩

/-- A segment is about its own cells only. -/
theorem Segment.congr (hsame : ∀ ref ∈ refs, changed.cell ref = chains.cell ref) :
    Segment changed owner before refs after :=
  h.congr_links fun ref href cell hcell ↦ ⟨cell.value, (hsame ref href).trans hcell⟩

theorem Segment.cell_isSome (href : ref ∈ refs) : (chains.cell ref).isSome := by
  induction refs generalizing before with
  | nil => exact absurd href not_mem_nil
  | cons first refs ih =>
    rcases mem_cons.mp href with rfl | hrest
    · obtain ⟨cell, hcell, -⟩ := h.1
      rw [hcell]
      rfl
    · exact ih h.2 hrest

end

theorem Segment.next_eq (h : Segment chains owner before (ref :: refs) after) :
    chains.next ref = successor refs after := by
  obtain ⟨cell, hcell, -, -, hnext⟩ := h.1
  unfold Chains.next
  rw [hcell]
  exact hnext

/-- The last cell gets another successor. -/
theorem Segment.redirect_last (h : Segment chains owner before (refs ++ [ref]) after)
    (hlast : ref ∉ refs) (next : Option H) :
    Segment (chains.modify ref fun cell ↦ { cell with next := next }) owner before (refs ++ [ref])
      next := by
  obtain ⟨hfront, hcell, -⟩ := segment_append.mp h
  refine segment_append.mpr ⟨?_, ?_, trivial⟩
  · refine hfront.congr fun other hoth ↦ cell_modify_of_ne _ ?_
    rintro rfl
    exact hlast hoth
  · obtain ⟨cell, hcell, howner, hprev, -⟩ := hcell
    refine ⟨{ cell with next := next }, ?_, howner, hprev, rfl⟩
    rw [cell_modify_self, hcell]
    rfl

/-- The first cell gets another predecessor. -/
theorem Segment.redirect_first (h : Segment chains owner before (ref :: refs) after)
    (hfst : ref ∉ refs) (previous : Option H) :
    Segment (chains.modify ref fun cell ↦ { cell with previous := previous }) owner previous
      (ref :: refs) after := by
  obtain ⟨⟨cell, hcell, howner, -, hnext⟩, hrest⟩ := h
  refine ⟨⟨{ cell with previous := previous }, ?_, howner, rfl, hnext⟩, ?_⟩
  · rw [cell_modify_self, hcell]
    rfl
  · refine hrest.congr fun other hoth ↦ cell_modify_of_ne _ ?_
    rintro rfl
    exact hfst hoth

end Segment

/-! ## Whole memories -/

/-- The cells of a chain, in order. -/
def refsOf (handles : ℕ → List H) (owner : ℕ) : List (Ref H) :=
  .head owner :: (handles owner).map .node

/-- The memory has these chains. -/
structure Linked (chains : Chains H G) (handles : ℕ → List H) : Prop where
  segment : ∀ owner < chains.heads, Segment chains owner none (refsOf handles owner) none
  nodup : ∀ owner, (handles owner).Nodup
  owner_eq : ∀ first second handle, handle ∈ handles first → handle ∈ handles second →
    first = second
  outside : ∀ owner, chains.heads ≤ owner → handles owner = []
  covered : ∀ ref, (chains.cell ref).isSome → ∃ owner < chains.heads, ref ∈ refsOf handles owner

section Refs

variable {handles : ℕ → List H} {owner other : ℕ} {handle : H}

omit [DecidableEq H] in
@[simp] theorem node_mem_refsOf : .node handle ∈ refsOf handles owner ↔ handle ∈ handles owner := by
  simp [refsOf]

omit [DecidableEq H] in
@[simp] theorem head_mem_refsOf : .head other ∈ refsOf handles owner ↔ other = owner := by
  simp [refsOf]

omit [DecidableEq H] in
theorem nodup_refsOf (h : (handles owner).Nodup) : (refsOf handles owner).Nodup := by
  refine nodup_cons.mpr ⟨by simp, h.map ?_⟩
  intro first second heq
  exact Ref.node.inj heq

omit [DecidableEq H] in
theorem refsOf_congr {others : ℕ → List H} (h : others owner = handles owner) :
    refsOf others owner = refsOf handles owner := by
  unfold refsOf
  rw [h]

theorem refsOf_erase (h : (handles owner).Nodup) (victim : H) :
    refsOf (fun owner ↦ (handles owner).erase victim) owner
      = (refsOf handles owner).filter (· ≠ .node victim) := by
  unfold refsOf
  rw [filter_cons_of_pos (by simp), filter_map]
  dsimp only
  rw [h.erase_eq_filter]
  congr 2
  refine filter_congr fun other _ ↦ ?_
  rw [bne, Function.comp_apply, decide_not, Bool.beq_eq_decide_eq]
  simp

omit [DecidableEq H] in
theorem refsOf_extend (fresh : H) :
    refsOf (update handles owner (handles owner ++ [fresh])) owner
      = refsOf handles owner ++ [.node fresh] := by
  simp [refsOf]

end Refs

namespace Linked

variable {chains : Chains H G} {handles : ℕ → List H} {owner : ℕ} {ref : Ref H} {victim : H}

section

variable (h : Linked chains handles)
include h

/-- Two chains have no cell in common. -/
theorem ref_owner_eq {first second : ℕ} (hfst : ref ∈ refsOf handles first)
    (hsnd : ref ∈ refsOf handles second) : first = second := by
  cases ref with
  | head owner => exact (head_mem_refsOf.mp hfst).symm.trans (head_mem_refsOf.mp hsnd)
  | node handle =>
    exact h.owner_eq first second handle (node_mem_refsOf.mp hfst) (node_mem_refsOf.mp hsnd)

theorem lt_heads {handle : H} (hhandle : handle ∈ handles owner) : owner < chains.heads := by
  by_contra hlong
  rw [h.outside owner (Nat.le_of_not_lt hlong)] at hhandle
  exact absurd hhandle not_mem_nil

theorem cell_isSome (howner : owner < chains.heads) (href : ref ∈ refsOf handles owner) :
    (chains.cell ref).isSome :=
  (h.segment owner howner).cell_isSome href

theorem mem_handles {handle : H} (hhandle : handle ∈ handles owner) : handle ∈ chains.handles :=
  Chains.mem_handles.mpr (h.cell_isSome (h.lt_heads hhandle) (node_mem_refsOf.mpr hhandle))

/-- Following the successors of a chain takes no more steps than there are handles in use. -/
theorem length_le (owner : ℕ) : (handles owner).length ≤ chains.handles.length :=
  (subperm_of_subset (h.nodup owner) fun _ ↦ h.mem_handles).length_le

theorem modifyValue (change : G → G) : Linked (chains.modifyValue ref change) handles where
  segment := by
    intro owner howner
    refine (h.segment owner (by simpa using howner)).congr_links fun other _ cell hcell ↦ ?_
    unfold Chains.modifyValue
    by_cases heq : other = ref
    · subst heq
      exact ⟨change cell.value, by rw [cell_modify_self, hcell]; rfl⟩
    · exact ⟨cell.value, by rw [cell_modify_of_ne _ heq, hcell]⟩
  nodup := h.nodup
  owner_eq := h.owner_eq
  outside := by
    intro owner howner
    exact h.outside owner (by simpa using howner)
  covered := by
    intro other hoth
    rw [Chains.modifyValue, Chains.isSome_cell_modify] at hoth
    rw [heads_modifyValue]
    exact h.covered other hoth

end

/-! ### Growing -/

variable {other : Ref H}

theorem value_extend {fresh : H} {value : G} :
    (chains.extend ref owner fresh value).value other
      = if other = .node fresh then some value else chains.value other := by
  unfold Chains.value
  rw [cell_extend]
  split_ifs with hfresh href
  · rfl
  · rw [href, Option.map_map]
    rfl
  · rfl

variable {front back : List (Ref H)} {last : Ref H}

theorem extend {fresh : H} (h : Linked chains handles) (howner : owner < chains.heads)
    (hlast : refsOf handles owner = front ++ [ref]) (hfresh : fresh ∉ chains.handles) (value : G) :
    Linked (chains.extend ref owner fresh value)
      (update handles owner (handles owner ++ [fresh])) := by
  have hmem : ref ∈ refsOf handles owner := by simp [hlast]
  have hunused : ∀ owner, fresh ∉ handles owner := fun _ hhandle ↦ hfresh (h.mem_handles hhandle)
  have hne : ∀ owner, ∀ other ∈ refsOf handles owner, other ≠ .node fresh := by
    rintro owner other hoth rfl
    exact hunused owner (node_mem_refsOf.mp hoth)
  have hkept : ∀ other ≠ Ref.node fresh, (chains.extend ref owner fresh value).cell other
      = (chains.modify ref fun cell ↦ { cell with next := some fresh }).cell other := by
    intro other hoth
    rw [cell_extend, cell_modify, if_neg hoth]
  refine ⟨fun other hoth ↦ ?_, fun other ↦ ?_, fun first second handle hfst hsnd ↦ ?_,
    fun other hoth ↦ ?_, fun other hoth ↦ ?_⟩
  · by_cases heq : other = owner
    · subst heq
      have hseg := h.segment other howner
      have hnd := nodup_refsOf (h.nodup other)
      rw [hlast] at hseg hnd
      rw [refsOf_extend, hlast]
      refine segment_append.mpr ⟨?_, ?_, trivial⟩
      · refine (hseg.redirect_last ?_ (some fresh)).congr fun cell hcell ↦ hkept cell ?_
        · intro hfront
          exact (nodup_append.mp hnd).2.2 _ hfront _ mem_cons_self rfl
        · exact hne other cell (by rw [hlast]; exact hcell)
      · refine ⟨{ value := value, owner := other, previous := ref.handle }, ?_, rfl, ?_, rfl⟩
        · rw [cell_extend, if_pos rfl]
        · exact predecessor_append_singleton.symm
    · rw [refsOf_congr (update_of_ne heq _ _)]
      refine (h.segment other (by simpa using hoth)).congr fun cell hcell ↦ ?_
      rw [hkept cell (hne other cell hcell), cell_modify_of_ne]
      rintro rfl
      exact heq (h.ref_owner_eq hcell hmem)
  · by_cases heq : other = owner
    · subst heq
      rw [update_self]
      exact (h.nodup other).append (nodup_singleton fresh) (by simpa using hunused other)
    · rw [update_of_ne heq]
      exact h.nodup other
  · have hcase : ∀ other, handle ∈ update handles owner (handles owner ++ [fresh]) other →
        handle ∈ handles other ∨ (handle = fresh ∧ other = owner) := by
      intro other hoth
      by_cases heq : other = owner
      · subst heq
        rw [update_self, mem_append, mem_singleton] at hoth
        exact hoth.imp_right fun hfresh ↦ ⟨hfresh, rfl⟩
      · rw [update_of_ne heq] at hoth
        exact Or.inl hoth
    rcases hcase first hfst with hold | hnew <;> rcases hcase second hsnd with hold' | hnew'
    · exact h.owner_eq first second handle hold hold'
    · exact absurd (hnew'.1 ▸ hold) (hunused first)
    · exact absurd (hnew.1 ▸ hold') (hunused second)
    · exact hnew.2.trans hnew'.2.symm
  · rw [heads_extend] at hoth
    rw [update_of_ne (by omega)]
    exact h.outside other hoth
  · rw [heads_extend]
    by_cases hnew : other = .node fresh
    · refine ⟨owner, howner, ?_⟩
      rw [refsOf_extend, hnew]
      exact mem_append_right _ mem_cons_self
    · rw [hkept other hnew, isSome_cell_modify] at hoth
      obtain ⟨first, hfst, hcovered⟩ := h.covered other hoth
      refine ⟨first, hfst, ?_⟩
      by_cases heq : first = owner
      · subst heq
        rw [refsOf_extend]
        exact mem_append_left _ hcovered
      · rw [refsOf_congr (update_of_ne heq _ _)]
        exact hcovered

/-! ### Shrinking -/

omit [DecidableEq H] in
/-- A chain around one of its cells. -/
theorem refsOf_eq_append (hvictim : victim ∈ handles owner) :
    ∃ front last back, refsOf handles owner = (front ++ [last]) ++ .node victim :: back := by
  obtain ⟨front, back, hsplit⟩ := append_of_mem hvictim
  obtain ⟨start, last, hstart⟩ :
      ∃ start last, Ref.head owner :: front.map Ref.node = start ++ [last] :=
    ⟨_, _, (dropLast_append_getLast (cons_ne_nil _ _)).symm⟩
  refine ⟨start, last, back.map .node, ?_⟩
  rw [← hstart, refsOf, hsplit, map_append, map_cons, cons_append]

/-- The cells on both sides of a gap are linked to each other. -/
def bridge (chains : Chains H G) (last : Ref H) (back : List (Ref H)) : Chains H G :=
  let skipped := chains.modify last fun cell ↦ { cell with next := successor back none }
  match back with
  | [] => skipped
  | first :: _ => skipped.modify first fun cell ↦ { cell with previous := last.handle }

theorem cell_bridge (hlast : other ≠ last) (hback : other ∉ back) :
    (bridge chains last back).cell other = chains.cell other := by
  cases back with
  | nil => exact cell_modify_of_ne _ hlast
  | cons first back =>
    have hfst : other ≠ first := fun heq ↦ hback (heq ▸ mem_cons_self)
    exact (cell_modify_of_ne _ hfst).trans (cell_modify_of_ne _ hlast)

theorem isSome_cell_bridge :
    ((bridge chains last back).cell other).isSome = (chains.cell other).isSome := by
  cases back <;> simp [bridge]

theorem segment_bridge {before : Option H}
    (hfront : Segment chains owner before (front ++ [last]) (some victim))
    (hback : Segment chains owner (some victim) back none)
    (hnd : ((front ++ [last]) ++ back).Nodup) :
    Segment (bridge chains last back) owner before ((front ++ [last]) ++ back) none := by
  obtain ⟨hstart, hend, hapart⟩ := nodup_append.mp hnd
  have hlast : last ∉ front := fun hmem ↦
    (nodup_append.mp hstart).2.2 _ hmem _ mem_cons_self rfl
  have hskipped := hfront.redirect_last hlast (successor back none)
  have hkept : Segment (chains.modify last fun cell ↦ { cell with next := successor back none })
      owner (some victim) back none := by
    refine hback.congr fun other hoth ↦ cell_modify_of_ne _ ?_
    rintro rfl
    exact hapart _ (mem_append_right _ mem_cons_self) _ hoth rfl
  refine segment_append.mpr ⟨?_, ?_⟩
  · cases back with
    | nil => exact hskipped
    | cons first back =>
      refine hskipped.congr fun other hoth ↦ cell_modify_of_ne _ ?_
      rintro rfl
      exact hapart _ hoth _ mem_cons_self rfl
  · rw [predecessor_append_singleton]
    cases back with
    | nil => exact trivial
    | cons first back => exact hkept.redirect_first (nodup_cons.mp hend).1 _

/-- The cell before the victim is found through the victim's own links. -/
theorem unlink_eq (h : Linked chains handles) (howner : owner < chains.heads)
    (hsplit : refsOf handles owner = (front ++ [last]) ++ .node victim :: back) :
    chains.unlink victim
      = { bridge chains last back with
          cells := (bridge chains last back).cells.erase (.node victim) } := by
  have hseg := h.segment owner howner
  rw [hsplit] at hseg
  obtain ⟨-, hcell, -⟩ := segment_append.mp hseg
  rw [predecessor_append_singleton] at hcell
  obtain ⟨cell, hcell, hcellOwner, hprev, hnext⟩ := hcell
  have hmem : last ∈ refsOf handles owner := by simp [hsplit]
  have hback : ∀ other ∈ back, other ≠ .head owner := by
    rintro other hoth rfl
    have hnd := nodup_refsOf (h.nodup owner)
    rw [hsplit] at hnd
    have hhead : Ref.head owner ∈ front ++ [last] := by
      cases front with
      | nil => exact (List.cons.inj hsplit).1 ▸ mem_cons_self
      | cons first front => exact (List.cons.inj hsplit).1 ▸ mem_cons_self
    exact (nodup_append.mp hnd).2.2 _ hhead _ (mem_cons_of_mem _ hoth) rfl
  have hbef : (match cell.previous with
      | some previous => Ref.node previous
      | none => Ref.head cell.owner) = last := by
    rw [hprev, hcellOwner]
    cases last with
    | head other => rw [head_mem_refsOf.mp hmem]; rfl
    | node handle => rfl
  unfold unlink bridge
  rw [hcell]
  dsimp only
  rw [hbef, hnext, hprev]
  cases back with
  | nil => rfl
  | cons first back =>
    cases first with
    | node handle => rfl
    | head other =>
      have hoth : Ref.head other ∈ refsOf handles owner := by simp [hsplit]
      exact absurd (congrArg Ref.head (head_mem_refsOf.mp hoth)) (hback _ mem_cons_self)

theorem value_bridge : (bridge chains last back).value other = chains.value other := by
  have hkept : ∀ (memory : Chains H G) (ref : Ref H) (change : Cell H G → Cell H G),
      (∀ cell, (change cell).value = cell.value) →
        (memory.modify ref change).value other = memory.value other := by
    intro memory ref change hchange
    unfold value
    rw [cell_modify]
    split_ifs with heq
    · rw [heq, Option.map_map, show Cell.value ∘ change = Cell.value from funext hchange]
    · rfl
  unfold bridge
  cases back with
  | nil => exact hkept _ _ _ fun _ ↦ rfl
  | cons first back =>
    rw [hkept, hkept] <;> exact fun _ ↦ rfl

theorem value_unlink_self : (chains.unlink victim).value (.node victim) = none :=
  congrArg (Option.map Cell.value) cell_unlink_self

/-- The other cells keep their values. -/
theorem value_unlink (h : Linked chains handles) (hvictim : victim ∈ handles owner)
    (hne : other ≠ .node victim) : (chains.unlink victim).value other = chains.value other := by
  obtain ⟨front, last, back, hsplit⟩ := refsOf_eq_append hvictim
  have hcell : (chains.unlink victim).cell other = (bridge chains last back).cell other := by
    rw [h.unlink_eq (h.lt_heads hvictim) hsplit]
    exact lookup_erase_ne hne
  exact (congrArg (Option.map Cell.value) hcell).trans value_bridge

theorem unlink (h : Linked chains handles) (hvictim : victim ∈ handles owner) :
    Linked (chains.unlink victim) fun owner ↦ (handles owner).erase victim := by
  have howner := h.lt_heads hvictim
  obtain ⟨front, last, back, hsplit⟩ := refsOf_eq_append hvictim
  have hnd := nodup_refsOf (h.nodup owner)
  have hseg := h.segment owner howner
  have herased := refsOf_erase (h.nodup owner) victim
  rw [hsplit] at hnd hseg herased
  obtain ⟨hfront, hrest⟩ := segment_append.mp hseg
  obtain ⟨hstart, hend, hapart⟩ := nodup_append.mp hnd
  have hvictimFront : ∀ other ∈ front ++ [last], other ≠ .node victim := fun other hoth ↦
    hapart other hoth _ mem_cons_self
  have hvictimBack : ∀ other ∈ back, other ≠ .node victim := by
    rintro other hoth rfl
    exact (nodup_cons.mp hend).1 hoth
  rw [filter_append, filter_cons_of_neg (by simp), filter_eq_self.mpr (by simpa using hvictimFront),
    filter_eq_self.mpr (by simpa using hvictimBack)] at herased
  have hkept : ∀ other ≠ Ref.node victim,
      (chains.unlink victim).cell other = (bridge chains last back).cell other := by
    intro other hoth
    rw [h.unlink_eq howner hsplit]
    exact lookup_erase_ne hoth
  refine ⟨fun other hoth ↦ ?_, fun other ↦ (h.nodup other).erase victim,
    fun first second handle hfst hsnd ↦
      h.owner_eq first second handle (mem_of_mem_erase hfst) (mem_of_mem_erase hsnd),
    fun other hoth ↦ ?_, fun other hoth ↦ ?_⟩
  · by_cases heq : other = owner
    · subst heq
      rw [herased]
      refine (segment_bridge hfront hrest.2 ?_).congr fun cell hcell ↦ hkept cell ?_
      · exact nodup_append.mpr ⟨hstart, (nodup_cons.mp hend).2,
          fun first hfst second hsnd ↦
            hapart first hfst second (mem_cons_of_mem _ hsnd)⟩
      · rcases mem_append.mp hcell with hleft | hright
        · exact hvictimFront cell hleft
        · exact hvictimBack cell hright
    · have hapartOwner : ∀ cell ∈ refsOf handles other, cell ∉ refsOf handles owner :=
        fun cell hcell howner ↦ heq (h.ref_owner_eq hcell howner)
      have hsame : (handles other).erase victim = handles other := by
        refine erase_of_not_mem fun hmem ↦ heq ?_
        exact h.owner_eq other owner victim hmem hvictim
      rw [refsOf_congr hsame]
      refine (h.segment other (by simpa using hoth)).congr fun cell hcell ↦ ?_
      have hnot := hapartOwner cell hcell
      rw [hsplit] at hnot
      rw [hkept cell fun hcase ↦ hnot (by simp [hcase])]
      exact cell_bridge (fun hcase ↦ hnot (by simp [hcase])) fun hcase ↦ hnot (by simp [hcase])
  · rw [heads_unlink] at hoth
    rw [h.outside other hoth]
    rfl
  · have hne : other ≠ .node victim := by
      rintro rfl
      rw [cell_unlink_self] at hoth
      cases hoth
    rw [hkept other hne, isSome_cell_bridge] at hoth
    obtain ⟨first, hfst, hcovered⟩ := h.covered other hoth
    refine ⟨first, by rw [heads_unlink]; exact hfst, ?_⟩
    rw [refsOf_erase (h.nodup first)]
    exact mem_filter.mpr ⟨hcovered, by simpa using hne⟩

/-! ### Adding and dropping chains -/

theorem value_pushHead {value : G} (other : Ref H) :
    (chains.pushHead value).value other
      = if other = .head chains.heads then some value else chains.value other := by
  unfold Chains.value
  rw [cell_pushHead]
  split_ifs with heq <;> rfl

theorem pushHead (h : Linked chains handles) (value : G) :
    Linked (chains.pushHead value) handles where
  segment := by
    intro owner howner
    by_cases hnew : owner = chains.heads
    · subst hnew
      unfold refsOf
      rw [h.outside _ le_rfl]
      refine ⟨⟨{ value := value, owner := chains.heads }, ?_, rfl, rfl, rfl⟩, trivial⟩
      rw [cell_pushHead, if_pos rfl]
    · have hold : owner < chains.heads := Nat.lt_of_le_of_ne (Nat.le_of_lt_succ howner) hnew
      refine (h.segment owner hold).congr fun other hoth ↦ ?_
      rw [cell_pushHead, if_neg]
      rintro rfl
      exact hnew (head_mem_refsOf.mp hoth).symm
  nodup := h.nodup
  owner_eq := h.owner_eq
  outside := fun owner howner ↦ h.outside owner (Nat.le_of_succ_le howner)
  covered := by
    intro other hoth
    rw [cell_pushHead] at hoth
    by_cases hnew : other = .head chains.heads
    · exact ⟨chains.heads, Nat.lt_succ_self _, by rw [hnew, head_mem_refsOf]⟩
    · rw [if_neg hnew] at hoth
      obtain ⟨owner, howner, hcovered⟩ := h.covered other hoth
      exact ⟨owner, Nat.lt_succ_of_lt howner, hcovered⟩

theorem popHead (h : Linked chains handles) (hlast : handles (chains.heads - 1) = []) :
    Linked chains.popHead handles where
  segment := by
    intro owner howner
    change owner < chains.heads - 1 at howner
    refine (h.segment owner (by omega)).congr fun other hoth ↦ cell_popHead_of_ne ?_
    rintro rfl
    have := head_mem_refsOf.mp hoth
    omega
  nodup := h.nodup
  owner_eq := h.owner_eq
  outside := by
    intro owner howner
    change chains.heads - 1 ≤ owner at howner
    by_cases hlong : chains.heads ≤ owner
    · exact h.outside owner hlong
    · rw [show owner = chains.heads - 1 by omega, hlast]
  covered := by
    intro other hoth
    have hne : other ≠ .head (chains.heads - 1) := by
      rintro rfl
      rw [show chains.popHead.cell (.head (chains.heads - 1)) = none from lookup_erase _ _] at hoth
      cases hoth
    rw [cell_popHead_of_ne hne] at hoth
    obtain ⟨owner, howner, hcovered⟩ := h.covered other hoth
    refine ⟨owner, ?_, hcovered⟩
    have hnotLast : owner ≠ chains.heads - 1 := by
      rintro rfl
      unfold refsOf at hcovered
      rw [hlast] at hcovered
      exact hne (mem_singleton.mp hcovered)
    change owner < chains.heads - 1
    omega

theorem value_popHead_of_ne (hne : other ≠ .head (chains.heads - 1)) :
    chains.popHead.value other = chains.value other :=
  congrArg (Option.map Cell.value) (cell_popHead_of_ne hne)

/-- A memory without chains. -/
theorem empty : Linked ({} : Chains H G) fun _ ↦ [] where
  segment := fun owner howner ↦ absurd howner (Nat.not_lt_zero owner)
  nodup := fun _ ↦ nodup_nil
  owner_eq := fun _ _ _ hfst ↦ absurd hfst not_mem_nil
  outside := fun _ _ ↦ rfl
  covered := fun _ hcell ↦ absurd hcell (by simp [cell])

end Linked

end GoblinCore.LinkedChains
