import GoblinCore.Foundation.GroupTable
import GoblinCore.Tables.LinearHashIndex

/-!
# The buckets of a LinearHashIndex

What a walk over the groups of a bucket finds, and what inserting, clearing and moving entries does
to the entries of every group.
-/

namespace GoblinCore.LinearHashIndex

open LinkedChains List Chains Option Function
open scoped List

variable {M I : Type}

/-! ## Groups -/

section Group

variable {group : Group I} {slot : ℕ} {entry : Entry I}

theorem Group.mem_entries : entry ∈ group.entries ↔ ∃ slot, group.entryAt slot = some entry := by
  unfold entries entryAt
  rw [reduceOption_mem_iff, mem_iff_getElem?]
  exact exists_congr fun slot ↦ join_eq_some_iff.symm

theorem Group.entryAt_eq_none_of_le (h : 16 ≤ slot) : group.entryAt slot = none := by
  unfold entryAt
  rw [getElem?_eq_none (by rw [group.length_slots]; exact h)]
  rfl

theorem Group.lt_of_entryAt (h : group.entryAt slot = some entry) : slot < 16 := by
  by_contra hlong
  rw [entryAt_eq_none_of_le (Nat.le_of_not_lt hlong)] at h
  cases h

theorem Group.getElem_eq_entryAt (h : slot < group.slots.length) :
    group.slots[slot] = group.entryAt slot := by
  unfold entryAt
  rw [getElem?_eq_getElem h]
  rfl

theorem Group.entryAt_set_self (h : slot < 16) (value : Option (Entry I)) :
    (group.set slot value).entryAt slot = value := by
  unfold entryAt set
  rw [getElem?_set_self (by rw [group.length_slots]; exact h)]
  rfl

theorem Group.entryAt_set_of_ne {other : ℕ} (h : other ≠ slot) (value : Option (Entry I)) :
    (group.set slot value).entryAt other = group.entryAt other := by
  unfold entryAt set
  rw [getElem?_set_ne h.symm]

/-- Filling or clearing a slot. -/
theorem Group.entries_set (h : slot < 16) {value : Option (Entry I)} :
    ((group.entryAt slot).toList ++ (group.set slot value).entries).Perm
      (value.toList ++ group.entries) := by
  have hlen : slot < group.slots.length := by rw [group.length_slots]; exact h
  refine GroupProbe.reduceOption_set ?_ value
  rw [getElem?_eq_getElem hlen, getElem_eq_entryAt hlen]

theorem Group.firstEmpty_spec (h : group.firstEmpty = some slot) :
    slot < 16 ∧ group.entryAt slot = none := by
  obtain ⟨hlen, hnone, -⟩ := findIdx?_eq_some_iff_getElem.mp h
  rw [getElem_eq_entryAt hlen] at hnone
  exact ⟨group.length_slots ▸ hlen, isNone_iff_eq_none.mp hnone⟩

section Find

variable [DecidableEq M] {view : I → M} {member : M} {hash : UInt32}

theorem matchSlot_iff {value : Option (Entry I)} :
    matchSlot view member hash value = true
      ↔ ∃ entry, value = some entry ∧ entry.hash = hash ∧ view entry.id = member := by
  cases value with
  | none => simp [matchSlot]
  | some entry => simp [matchSlot]

theorem Group.find_some (h : group.find view member hash = some slot) :
    ∃ entry, group.entryAt slot = some entry ∧ entry.hash = hash ∧ view entry.id = member := by
  obtain ⟨hlen, hmatch, -⟩ := findIdx?_eq_some_iff_getElem.mp h
  rw [getElem_eq_entryAt hlen] at hmatch
  exact matchSlot_iff.mp hmatch

theorem Group.find_none (h : group.find view member hash = none) (hent : entry ∈ group.entries)
    (hhash : entry.hash = hash) : view entry.id ≠ member := by
  intro hview
  have hmem := reduceOption_mem_iff.mp hent
  have hnot := findIdx?_eq_none_iff.mp h _ hmem
  exact absurd (matchSlot_iff.mpr ⟨entry, rfl, hhash, hview⟩) (by simp [hnot])

end Find

end Group

/-! ## Entries of groups and chains -/

def entriesAt (buckets : Buckets I) (ref : Ref Handle) : List (Entry I) :=
  ((buckets.value ref).map Group.entries).getD []

def chainEntries (buckets : Buckets I) (handles : ℕ → List Handle) (primary : ℕ) : List (Entry I) :=
  (refsOf handles primary).flatMap (entriesAt buckets)

def allEntries (buckets : Buckets I) (handles : ℕ → List Handle) : List (Entry I) :=
  (List.range buckets.heads).flatMap (chainEntries buckets handles)

/-- A slot of a group that holds nothing. -/
def Vacant (buckets : Buckets I) (location : Location) : Prop :=
  ∃ group, buckets.value location.ref = some group ∧ location.slot < 16 ∧
    group.entryAt location.slot = none

section Entries

variable {buckets changed : Buckets I} {handles : ℕ → List Handle} {ref : Ref Handle}
  {location : Location} {entry : Entry I} {primary : ℕ}

theorem entryAt_eq_some {group : Group I} (h : buckets.value location.ref = some group) :
    entryAt buckets location = group.entryAt location.slot := by
  unfold entryAt
  rw [h]
  rfl

theorem mem_entriesAt :
    entry ∈ entriesAt buckets ref ↔ ∃ slot, entryAt buckets ⟨ref, slot⟩ = some entry := by
  unfold entriesAt entryAt
  dsimp only
  cases buckets.value ref with
  | none => simp
  | some group => exact Group.mem_entries

theorem mem_entriesAt_of_entryAt (h : entryAt buckets location = some entry) :
    entry ∈ entriesAt buckets location.ref :=
  mem_entriesAt.mpr ⟨location.slot, h⟩

theorem mem_chainEntries :
    entry ∈ chainEntries buckets handles primary
      ↔ ∃ ref ∈ refsOf handles primary, entry ∈ entriesAt buckets ref :=
  mem_flatMap

theorem mem_allEntries :
    entry ∈ allEntries buckets handles
      ↔ ∃ primary < buckets.heads, entry ∈ chainEntries buckets handles primary := by
  unfold allEntries
  rw [mem_flatMap]
  exact exists_congr fun primary ↦ and_congr_left fun _ ↦ mem_range

theorem flatMap_perm_append {α β : Type} {list : List α} {chosen : α} {old new : α → List β}
    {removed added : List β} (hnd : list.Nodup) (hmem : chosen ∈ list)
    (hoths : ∀ other ∈ list, other ≠ chosen → new other = old other)
    (hchosen : (removed ++ new chosen).Perm (added ++ old chosen)) :
    (removed ++ list.flatMap new).Perm (added ++ list.flatMap old) := by
  obtain ⟨front, back, rfl⟩ := append_of_mem hmem
  obtain ⟨-, hback, hapart⟩ := nodup_append.mp hnd
  have hfront : front.flatMap new = front.flatMap old := by
    refine flatMap_congr fun other hoth ↦ hoths other (mem_append_left _ hoth) ?_
    exact hapart other hoth chosen mem_cons_self
  have hrest : back.flatMap new = back.flatMap old := by
    refine flatMap_congr fun other hoth ↦ hoths other ?_ ?_
    · exact mem_append_right _ (mem_cons_of_mem _ hoth)
    · rintro rfl
      exact (nodup_cons.mp hback).1 hoth
  rw [flatMap_append, flatMap_append, flatMap_cons, flatMap_cons, hfront, hrest]
  calc removed ++ (front.flatMap old ++ (new chosen ++ back.flatMap old))
      _ ~ front.flatMap old ++ (removed ++ new chosen ++ back.flatMap old) := by
        rw [append_assoc]
        exact perm_append_comm_assoc _ _ _
      _ ~ front.flatMap old ++ (added ++ old chosen ++ back.flatMap old) :=
        (hchosen.append_right _).append_left _
      _ ~ added ++ (front.flatMap old ++ (old chosen ++ back.flatMap old)) := by
        rw [append_assoc]
        exact perm_append_comm_assoc _ _ _

/-- A change of one group changes all entries by as much. -/
theorem allEntries_perm (removed added : List (Entry I)) (hlinked : Linked buckets handles)
    (hheads : changed.heads = buckets.heads) (hprim : primary < buckets.heads)
    (href : ref ∈ refsOf handles primary)
    (hoths : ∀ other ≠ ref, entriesAt changed other = entriesAt buckets other)
    (hchosen : (removed ++ entriesAt changed ref).Perm (added ++ entriesAt buckets ref)) :
    (removed ++ allEntries changed handles).Perm (added ++ allEntries buckets handles) := by
  unfold allEntries
  rw [hheads]
  refine flatMap_perm_append nodup_range (mem_range.mpr hprim) (fun other _ hne ↦ ?_) ?_
  · refine flatMap_congr fun cell hcell ↦ hoths cell ?_
    rintro rfl
    exact hne (hlinked.ref_owner_eq hcell href)
  · exact flatMap_perm_append (nodup_refsOf (hlinked.nodup primary)) href
      (fun other _ hne ↦ hoths other hne) hchosen

theorem entriesAt_modifyValue_of_ne {other : Ref Handle} (change : Group I → Group I)
    (hne : other ≠ ref) :
    entriesAt (buckets.modifyValue ref change) other = entriesAt buckets other := by
  unfold entriesAt
  rw [value_modifyValue_of_ne hne]

/-- What a changed slot does to the entries of its group. -/
theorem entriesAt_setSlot {group : Group I} (hgroup : buckets.value location.ref = some group)
    (hslot : location.slot < 16) (value : Option (Entry I)) :
    ((entryAt buckets location).toList ++
        entriesAt (buckets.modifyValue location.ref fun group ↦ group.set location.slot value)
          location.ref).Perm
      (value.toList ++ entriesAt buckets location.ref) := by
  unfold entriesAt entryAt
  rw [value_modifyValue_self, hgroup]
  exact Group.entries_set hslot

end Entries

/-! ## Searching a chain -/

section Search

variable [DecidableEq M] {view : I → M} {buckets : Buckets I} {handles : ℕ → List Handle}
  {member : M} {hash : UInt32} {primary : ℕ}

/-- What a search of some groups says about a member and about room for it. -/
structure Searched (view : I → M) (buckets : Buckets I) (member : M) (hash : UInt32)
    (refs : List (Ref Handle)) (known : Option Location)
    (result : Option Location × Option Location) : Prop where
  found : ∀ location, result.1 = some location → location.ref ∈ refs ∧
    ∃ entry, entryAt buckets location = some entry ∧ entry.hash = hash ∧ view entry.id = member
  missing : result.1 = none → ∀ ref ∈ refs, ∀ entry ∈ entriesAt buckets ref,
    entry.hash = hash → view entry.id ≠ member
  vacant : result.1 = none → ∀ location, result.2 = some location →
    known = some location ∨ (location.ref ∈ refs ∧ Vacant buckets location)

variable {refs : List (Ref Handle)} {fuel : ℕ}

variable {ref : Ref Handle} {group : Group I}

theorem Segment.value_eq {owner : ℕ} {before after : Option Handle}
    (h : Segment buckets owner before (ref :: refs) after) :
    ∃ group, buckets.value ref = some group := by
  obtain ⟨cell, hcell, -⟩ := h.1
  exact ⟨cell.value, congrArg (Option.map Cell.value) hcell⟩

theorem vacant_firstEmpty {location : Location} (hgroup : buckets.value ref = some group)
    (h : group.firstEmpty.map (Location.mk ref) = some location) :
    location.ref = ref ∧ Vacant buckets location := by
  obtain ⟨slot, hslot, rfl⟩ := Option.map_eq_some_iff.mp h
  obtain ⟨hlt, hnone⟩ := Group.firstEmpty_spec hslot
  exact ⟨rfl, group, hgroup, hlt, hnone⟩

theorem entriesAt_eq (h : buckets.value ref = some group) :
    entriesAt buckets ref = group.entries := by
  unfold entriesAt
  rw [h]
  rfl

theorem findFrom_found {slot : ℕ} (known : Option Location)
    (hgroup : buckets.value ref = some group) (hfind : group.find view member hash = some slot) :
    findFrom view buckets member hash (fuel + 1) ref known = (some ⟨ref, slot⟩, known) := by
  unfold findFrom
  rw [hgroup]
  dsimp only
  rw [hfind]

theorem findFrom_missed (known : Option Location) (hgroup : buckets.value ref = some group)
    (hfind : group.find view member hash = none) :
    findFrom view buckets member hash (fuel + 1) ref known
      = match buckets.next ref with
        | some after => findFrom view buckets member hash fuel (.node after)
            (known.or (group.firstEmpty.map (Location.mk ref)))
        | none => (none, known.or (group.firstEmpty.map (Location.mk ref))) := by
  conv_lhs => unfold findFrom
  cases hnext : buckets.next ref <;> simp only [hgroup, hfind]

theorem searched_here {slot : ℕ} (known : Option Location) (hgroup : buckets.value ref = some group)
    (hfind : group.find view member hash = some slot) :
    Searched view buckets member hash (ref :: refs) known (some ⟨ref, slot⟩, known) := by
  refine ⟨fun location hloc ↦ ?_, fun hnone ↦ absurd hnone (by simp),
    fun hnone ↦ absurd hnone (by simp)⟩
  cases hloc
  refine ⟨mem_cons_self, ?_⟩
  rw [entryAt_eq_some hgroup]
  exact Group.find_some hfind

/-- A group without the member, before groups that are searched. -/
theorem Searched.cons {known : Option Location} {result : Option Location × Option Location}
    (h : Searched view buckets member hash refs (known.or (group.firstEmpty.map (Location.mk ref)))
      result) (hgroup : buckets.value ref = some group)
    (hfind : group.find view member hash = none) :
    Searched view buckets member hash (ref :: refs) known result := by
  refine ⟨fun location hloc ↦ ?_, fun hnone other hoth ↦ ?_, fun hnone location hloc ↦ ?_⟩
  · exact (h.found location hloc).imp_left fun hmem ↦ mem_cons_of_mem _ hmem
  · rcases mem_cons.mp hoth with rfl | hrest
    · intro entry
      rw [entriesAt_eq hgroup]
      exact Group.find_none hfind
    · exact h.missing hnone other hrest
  · rcases h.vacant hnone location hloc with hknown | hlater
    · rcases or_eq_some_iff.mp hknown with hbef | hhere
      · exact .inl hbef
      · obtain ⟨href, hvacant⟩ := vacant_firstEmpty hgroup hhere.2
        exact .inr ⟨by simp [href], hvacant⟩
    · exact .inr (hlater.imp_left fun hmem ↦ mem_cons_of_mem _ hmem)

omit [DecidableEq M] in
theorem searched_nil (known : Option Location) :
    Searched view buckets member hash [] known (none, known) :=
  ⟨fun _ hloc ↦ absurd hloc (by simp), fun _ _ hoth ↦ absurd hoth not_mem_nil,
    fun _ _ hloc ↦ .inl hloc⟩

theorem findFrom_searched {owner : ℕ} {before : Option Handle} {rest : List Handle}
    (known : Option Location) (hseg : Segment buckets owner before (ref :: rest.map .node) none)
    (hfuel : rest.length < fuel) :
    Searched view buckets member hash (ref :: rest.map .node) known
      (findFrom view buckets member hash fuel ref known) := by
  induction fuel generalizing ref before rest known with
  | zero => exact absurd hfuel (Nat.not_lt_zero _)
  | succ fuel ih =>
    obtain ⟨group, hgroup⟩ := Segment.value_eq hseg
    cases hfind : group.find view member hash with
    | some slot =>
      rw [findFrom_found known hgroup hfind]
      exact searched_here known hgroup hfind
    | none =>
      rw [findFrom_missed known hgroup hfind, hseg.next_eq]
      cases rest with
      | nil => exact (searched_nil _).cons hgroup hfind
      | cons next rest =>
        exact (ih _ hseg.2 (Nat.lt_of_succ_lt_succ hfuel)).cons hgroup hfind

theorem findInChain_searched (h : Linked buckets handles) (hprim : primary < buckets.heads) :
    Searched view buckets member hash (refsOf handles primary) none
      (findInChain view buckets primary member hash) :=
  findFrom_searched none (h.segment primary hprim) (Nat.lt_succ_of_le (h.length_le primary))

end Search

/-! ## Inserting into a chain -/

/-- Only the chain of this primary grows, and it grows at its end. -/
structure Grown (handles grown : ℕ → List Handle) (primary : ℕ) : Prop where
  others : ∀ other ≠ primary, grown other = handles other
  extra : ∃ extra, grown primary = handles primary ++ extra

section Grown

variable {handles grown later : ℕ → List Handle} {primary other : ℕ} {ref : Ref Handle}

theorem Grown.refl (handles : ℕ → List Handle) (primary : ℕ) : Grown handles handles primary :=
  ⟨fun _ _ ↦ rfl, [], (append_nil _).symm⟩

section

variable (h : Grown handles grown primary)
include h

theorem Grown.trans (hlater : Grown grown later primary) : Grown handles later primary := by
  obtain ⟨first, hfst⟩ := h.extra
  obtain ⟨second, hsnd⟩ := hlater.extra
  exact ⟨fun other hoth ↦ (hlater.others other hoth).trans (h.others other hoth),
    first ++ second, by rw [hsnd, hfst, append_assoc]⟩

theorem Grown.refsOf_eq (hoth : other ≠ primary) : refsOf grown other = refsOf handles other :=
  refsOf_congr (h.others other hoth)

theorem Grown.mem_refsOf (href : ref ∈ refsOf handles other) : ref ∈ refsOf grown other := by
  by_cases heq : other = primary
  · subst heq
    obtain ⟨extra, hextra⟩ := h.extra
    cases ref with
    | head owner => simpa using href
    | node handle =>
      rw [node_mem_refsOf] at href ⊢
      rw [hextra]
      exact mem_append_left _ href
  · rwa [h.refsOf_eq heq]

end

theorem grown_update {fresh : Handle} :
    Grown handles (update handles primary (handles primary ++ [fresh])) primary :=
  ⟨fun _ hoth ↦ update_of_ne hoth _ _, [fresh], update_self _ _ _⟩

end Grown

/-- A slot of a chain is ready to be filled; the entries are as they were. -/
structure Prepared (buckets : Buckets I) (handles : ℕ → List Handle) (primary : ℕ)
    (result : Buckets I × Location) (grown : ℕ → List Handle) : Prop where
  linked : Linked result.1 grown
  heads_eq : result.1.heads = buckets.heads
  grows : Grown handles grown primary
  mem_refsOf : result.2.ref ∈ refsOf grown primary
  vacant : Vacant result.1 result.2
  entryAt_eq : ∀ location, entryAt result.1 location = entryAt buckets location
  entriesAt_eq : ∀ ref, entriesAt result.1 ref = entriesAt buckets ref
  chain_eq : ∀ other, chainEntries buckets grown other = chainEntries buckets handles other

section Prepare

variable {arena : Arena} {reserved : List Handle} {buckets : Buckets I}
  {handles : ℕ → List Handle} {primary : ℕ} {location : Location} {ref : Ref Handle}
  {prepared : Buckets I × Location}

theorem prepared_of_vacant (h : Linked buckets handles)
    (href : location.ref ∈ refsOf handles primary) (hvacant : Vacant buckets location) :
    Prepared buckets handles primary (buckets, location) handles :=
  ⟨h, rfl, Grown.refl handles primary, href, hvacant, fun _ ↦ rfl, fun _ ↦ rfl, fun _ ↦ rfl⟩

theorem Group.entryAt_empty {slot : ℕ} : (Group.empty : Group I).entryAt slot = none := by
  by_cases hslot : slot < 16
  · unfold entryAt empty
    rw [getElem?_replicate_of_lt hslot]
    rfl
  · exact entryAt_eq_none_of_le (Nat.le_of_not_lt hslot)

theorem Group.entries_empty : (Group.empty : Group I).entries = [] := by
  rw [eq_nil_iff_forall_not_mem]
  intro entry hent
  obtain ⟨slot, hslot⟩ := mem_entries.mp hent
  rw [entryAt_empty] at hslot
  cases hslot

/-- The full last group of a chain gets an overflow group behind it. -/
theorem prepared_extend {front : List (Ref Handle)} {fresh : Handle} (h : Linked buckets handles)
    (hprim : primary < buckets.heads) (hlast : refsOf handles primary = front ++ [ref])
    (hfresh : fresh ∉ buckets.handles) :
    ∃ grown, Prepared buckets handles primary
      (buckets.extend ref primary fresh Group.empty, ⟨.node fresh, 0⟩) grown := by
  have hnone : buckets.value (.node fresh) = none :=
    congrArg (Option.map Cell.value) (cell_of_fresh hfresh)
  have hval : ∀ other, (buckets.extend ref primary fresh Group.empty).value other
      = if other = .node fresh then some Group.empty else buckets.value other :=
    fun other ↦ Linked.value_extend
  have hnothing : entriesAt buckets (.node fresh) = [] := by
    unfold entriesAt
    rw [hnone]
    rfl
  refine ⟨update handles primary (handles primary ++ [fresh]),
    h.extend hprim hlast hfresh Group.empty, heads_extend _ _ _,
    grown_update, ?_, ?_, fun location ↦ ?_, fun other ↦ ?_, fun other ↦ ?_⟩
  · rw [refsOf_extend]
    exact mem_append_right _ mem_cons_self
  · refine ⟨Group.empty, ?_, Nat.succ_pos 15, Group.entryAt_empty⟩
    rw [hval, if_pos rfl]
  · unfold entryAt
    rw [hval]
    split_ifs with heq
    · rw [heq, hnone]
      exact Group.entryAt_empty
    · rfl
  · unfold entriesAt
    rw [hval]
    split_ifs with heq
    · rw [heq, hnone]
      exact Group.entries_empty
    · rfl
  · unfold chainEntries
    by_cases heq : other = primary
    · subst heq
      rw [refsOf_extend, flatMap_append, flatMap_singleton, hnothing, append_nil]
    · rw [refsOf_congr (update_of_ne heq _ _)]

theorem prepareFrom_prepared {fuel : ℕ} {front : List (Ref Handle)} {rest : List Handle}
    (h : Linked buckets handles) (hprim : primary < buckets.heads)
    (hsplit : refsOf handles primary = front ++ ref :: rest.map .node)
    (hfuel : rest.length < fuel)
    (hprepared : prepareFrom arena reserved buckets primary fuel ref = some prepared) :
    ∃ grown, Prepared buckets handles primary prepared grown := by
  induction fuel generalizing ref front rest with
  | zero => exact absurd hfuel (Nat.not_lt_zero _)
  | succ fuel ih =>
    have hseg := h.segment primary hprim
    rw [hsplit] at hseg
    have hhere := (segment_append.mp hseg).2
    obtain ⟨group, hgroup⟩ := Segment.value_eq hhere
    have href : ref ∈ refsOf handles primary := by simp [hsplit]
    unfold prepareFrom at hprepared
    rw [hgroup, bind_some] at hprepared
    cases hemp : group.firstEmpty with
    | some slot =>
      obtain ⟨hslot, hnone⟩ := Group.firstEmpty_spec hemp
      rw [hemp] at hprepared
      cases hprepared
      exact ⟨handles, prepared_of_vacant h href ⟨group, hgroup, hslot, hnone⟩⟩
    | none =>
      rw [hemp, hhere.next_eq] at hprepared
      cases rest with
      | nil =>
        obtain ⟨fresh, hfresh, rfl⟩ := map_eq_some_iff.mp hprepared
        refine prepared_extend h hprim hsplit fun hused ↦ ?_
        exact arena.allocateBucket_fresh _ fresh hfresh (mem_append_right _ hused)
      | cons next rest =>
        have hlater : refsOf handles primary
            = (front ++ [ref]) ++ .node next :: rest.map .node := by
          rw [hsplit, append_assoc]
          rfl
        exact ih hlater (Nat.lt_of_succ_lt_succ hfuel) hprepared

theorem prepareInsertLocation_prepared (h : Linked buckets handles)
    (hprim : primary < buckets.heads)
    (hprepared : prepareInsertLocation arena reserved buckets primary = some prepared) :
    ∃ grown, Prepared buckets handles primary prepared grown :=
  prepareFrom_prepared h hprim (nil_append _).symm (Nat.lt_succ_of_le (h.length_le primary))
    hprepared

/-- An arena with cells left refuses no insertion. -/
theorem prepareFrom_isSome {fuel : ℕ} {front : List (Ref Handle)} {rest : List Handle}
    (hgrants : ∀ used, (arena.allocateBucket used).isSome) (h : Linked buckets handles)
    (hprim : primary < buckets.heads)
    (hsplit : refsOf handles primary = front ++ ref :: rest.map .node)
    (hfuel : rest.length < fuel) :
    (prepareFrom arena reserved buckets primary fuel ref).isSome := by
  induction fuel generalizing ref front rest with
  | zero => exact absurd hfuel (Nat.not_lt_zero _)
  | succ fuel ih =>
    have hseg := h.segment primary hprim
    rw [hsplit] at hseg
    have hhere := (segment_append.mp hseg).2
    unfold prepareFrom
    split
    · rfl
    · rw [hhere.next_eq]
      cases rest with
      | nil => exact isSome_map.trans (hgrants _)
      | cons next rest =>
        have hlater : refsOf handles primary
            = (front ++ [ref]) ++ .node next :: rest.map .node := by
          rw [hsplit, append_assoc]
          rfl
        exact ih hlater (Nat.lt_of_succ_lt_succ hfuel)

theorem prepareInsertLocation_isSome (hgrants : ∀ used, (arena.allocateBucket used).isSome)
    (h : Linked buckets handles) (hprim : primary < buckets.heads) :
    (prepareInsertLocation arena reserved buckets primary).isSome :=
  prepareFrom_isSome hgrants h hprim (nil_append _).symm (Nat.lt_succ_of_le (h.length_le primary))

end Prepare

/-- An entry is added to a chain, in one group of it. -/
structure Inserted (buckets : Buckets I) (handles : ℕ → List Handle) (primary : ℕ)
    (entry : Entry I) (result : Buckets I) (grown : ℕ → List Handle) (place : Ref Handle) :
    Prop where
  linked : Linked result grown
  heads_eq : result.heads = buckets.heads
  grows : Grown handles grown primary
  mem_refsOf : place ∈ refsOf grown primary
  entryAt_eq : ∀ location, location.ref ≠ place → entryAt result location = entryAt buckets location
  entriesAt_eq : ∀ ref ≠ place, entriesAt result ref = entriesAt buckets ref
  place_perm : (entriesAt result place).Perm (entry :: entriesAt buckets place)
  chain_perm : (chainEntries result grown primary).Perm
    (entry :: chainEntries buckets handles primary)
  chain_eq : ∀ other ≠ primary, chainEntries result grown other = chainEntries buckets handles other
  perm : (allEntries result grown).Perm (entry :: allEntries buckets handles)

section Insert

variable {arena : Arena} {reserved : List Handle} {buckets inserted : Buckets I}
  {handles grown : ℕ → List Handle} {primary : ℕ} {hash : UInt32} {id : I}
  {prepared : Buckets I × Location}

theorem commitInsert_inserted (h : Prepared buckets handles primary prepared grown)
    (hprim : primary < buckets.heads) :
    Inserted buckets handles primary ⟨hash, id⟩ (commitInsert prepared.1 prepared.2 hash id) grown
      prepared.2.ref := by
  obtain ⟨group, hgroup, hslot, hvacant⟩ := h.vacant
  have hoths : ∀ ref ≠ prepared.2.ref,
      entriesAt (commitInsert prepared.1 prepared.2 hash id) ref = entriesAt prepared.1 ref :=
    fun ref href ↦ entriesAt_modifyValue_of_ne _ href
  have hchosen := entriesAt_setSlot hgroup hslot (some (Entry.mk hash id))
  rw [entryAt_eq_some hgroup, hvacant] at hchosen
  have hapart : ∀ other ≠ primary, ∀ ref ∈ refsOf grown other, ref ≠ prepared.2.ref := by
    rintro other hoth ref href rfl
    exact hoth (h.linked.ref_owner_eq href h.mem_refsOf)
  have hsame : ∀ other, chainEntries prepared.1 grown other = chainEntries buckets handles other :=
    fun other ↦ (flatMap_congr fun ref _ ↦ h.entriesAt_eq ref).trans (h.chain_eq other)
  have hall : allEntries prepared.1 grown = allEntries buckets handles := by
    unfold allEntries
    rw [h.heads_eq]
    exact flatMap_congr fun other _ ↦ hsame other
  refine ⟨h.linked.modifyValue _, heads_modifyValue.trans h.heads_eq, h.grows,
    h.mem_refsOf, fun location hloc ↦ ?_, fun ref href ↦ ?_, ?_, ?_, fun other hoth ↦ ?_, ?_⟩
  · rw [← h.entryAt_eq location]
    unfold entryAt commitInsert
    rw [value_modifyValue_of_ne hloc]
  · rw [hoths ref href, h.entriesAt_eq]
  · rw [← h.entriesAt_eq]
    exact hchosen
  · rw [← hsame primary]
    exact flatMap_perm_append
      (nodup_refsOf (h.linked.nodup primary)) h.mem_refsOf (fun ref _ ↦ hoths ref) hchosen
  · rw [← hsame other]
    exact flatMap_congr fun ref href ↦ hoths ref (hapart other hoth ref href)
  · rw [← hall]
    refine allEntries_perm [] [Entry.mk hash id] h.linked
      heads_modifyValue ?_ h.mem_refsOf hoths hchosen
    rw [h.heads_eq]
    exact hprim

theorem insertIntoChain_inserted (h : Linked buckets handles) (hprim : primary < buckets.heads)
    (hinserted : insertIntoChain arena reserved buckets primary hash id = some inserted) :
    ∃ grown place, Inserted buckets handles primary ⟨hash, id⟩ inserted grown place := by
  obtain ⟨prepared, hlocation, rfl⟩ := map_eq_some_iff.mp hinserted
  obtain ⟨grown, hprepared⟩ := prepareInsertLocation_prepared h hprim hlocation
  exact ⟨grown, _, commitInsert_inserted hprepared hprim⟩

end Insert

/-! ## Clearing slots and giving groups back -/

section Clear

variable {buckets : Buckets I} {handles : ℕ → List Handle} {primary : ℕ} {location : Location}
  {entry : Entry I}

theorem exists_group_of_entryAt (h : entryAt buckets location = some entry) :
    ∃ group, buckets.value location.ref = some group ∧
      group.entryAt location.slot = some entry := by
  exact bind_eq_some_iff.mp h

theorem entriesAt_clearSlot (h : entryAt buckets location = some entry) :
    (entry :: entriesAt (clearSlot buckets location) location.ref).Perm
      (entriesAt buckets location.ref) := by
  obtain ⟨group, hgroup, hslot⟩ := exists_group_of_entryAt h
  have hperm := entriesAt_setSlot hgroup (Group.lt_of_entryAt hslot) none
  rw [h] at hperm
  exact hperm

variable {ref : Ref Handle}

theorem entriesAt_clearSlot_of_ne (href : ref ≠ location.ref) :
    entriesAt (clearSlot buckets location) ref = entriesAt buckets ref :=
  entriesAt_modifyValue_of_ne _ href

theorem allEntries_clearSlot (hlinked : Linked buckets handles) (hprim : primary < buckets.heads)
    (href : location.ref ∈ refsOf handles primary) (h : entryAt buckets location = some entry) :
    (entry :: allEntries (clearSlot buckets location) handles).Perm (allEntries buckets handles) :=
  allEntries_perm [entry] [] hlinked heads_modifyValue hprim href
    (fun _ hne ↦ entriesAt_clearSlot_of_ne hne) (entriesAt_clearSlot h)

theorem entryAt_clearSlot {other : Location}
    (h : entryAt (clearSlot buckets location) other = some entry) :
    entryAt buckets other = some entry ∧ other ≠ location := by
  by_cases href : other.ref = location.ref
  · obtain ⟨cleared, hcleared, hslot⟩ := exists_group_of_entryAt h
    unfold clearSlot at hcleared
    rw [href, value_modifyValue_self] at hcleared
    obtain ⟨group, hgroup, rfl⟩ := map_eq_some_iff.mp hcleared
    have hlt := Group.lt_of_entryAt hslot
    have hne : other.slot ≠ location.slot := by
      intro heq
      rw [heq, Group.entryAt_set_self (heq ▸ hlt)] at hslot
      cases hslot
    rw [Group.entryAt_set_of_ne hne] at hslot
    refine ⟨?_, fun heq ↦ hne (congrArg Location.slot heq)⟩
    rw [entryAt_eq_some (href ▸ hgroup)]
    exact hslot
  · refine ⟨?_, fun heq ↦ href (congrArg Location.ref heq)⟩
    unfold entryAt clearSlot at h
    rw [value_modifyValue_of_ne href] at h
    exact h

theorem isEmptyGroup_iff {group : Group I} (h : buckets.value ref = some group) :
    isEmptyGroup buckets ref = true ↔ entriesAt buckets ref = [] := by
  unfold isEmptyGroup
  rw [h, entriesAt_eq h]
  simp [Group.size]

variable {victim : Handle}

theorem unlinkEmptyOverflow_eq (h : Linked buckets handles) (hvictim : victim ∈ handles primary)
    (hemp : entriesAt buckets (.node victim) = []) :
    unlinkEmptyOverflow buckets victim = buckets.unlink victim := by
  have hprim := h.lt_heads hvictim
  obtain ⟨front, last, back, hsplit⟩ := Linked.refsOf_eq_append hvictim
  have hseg := h.segment primary hprim
  rw [hsplit] at hseg
  obtain ⟨cell, hcell, howner, -⟩ := (segment_append.mp hseg).2.1
  have hval : buckets.value (.node victim) = some cell.value :=
    congrArg (Option.map Cell.value) hcell
  rw [entriesAt_eq hval] at hemp
  unfold unlinkEmptyOverflow
  rw [hcell]
  dsimp only
  rw [howner]
  simp [Group.size, hemp, hprim]

theorem entriesAt_unlink (h : Linked buckets handles) (hvictim : victim ∈ handles primary)
    (href : ref ≠ .node victim) :
    entriesAt (buckets.unlink victim) ref = entriesAt buckets ref := by
  unfold entriesAt
  rw [h.value_unlink hvictim href]

theorem flatMap_filter_ne {α β : Type} [DecidableEq α] {old new : α → List β} {dropped : α}
    (hdropped : old dropped = []) (hsame : ∀ other ≠ dropped, new other = old other)
    (list : List α) : (list.filter (· ≠ dropped)).flatMap new = list.flatMap old := by
  induction list with
  | nil => rfl
  | cons first list ih =>
    by_cases heq : first = dropped
    · rw [filter_cons_of_neg (by simp [heq]), ih, flatMap_cons, heq, hdropped, nil_append]
    · rw [filter_cons_of_pos (by simp [heq]), flatMap_cons, flatMap_cons, ih, hsame first heq]

section

variable (h : Linked buckets handles) (hvictim : victim ∈ handles primary)
  (hemp : entriesAt buckets (.node victim) = [])
include h hvictim hemp

/-- An empty group is given back without a change of the entries of any chain. -/
theorem chainEntries_unlink {other : ℕ} :
    chainEntries (buckets.unlink victim) (fun owner ↦ (handles owner).erase victim) other
      = chainEntries buckets handles other := by
  unfold chainEntries
  rw [refsOf_erase (h.nodup other)]
  exact flatMap_filter_ne hemp (fun ref href ↦ entriesAt_unlink h hvictim href) _

theorem allEntries_unlink :
    allEntries (buckets.unlink victim) (fun owner ↦ (handles owner).erase victim)
      = allEntries buckets handles := by
  unfold allEntries
  rw [heads_unlink]
  exact flatMap_congr fun other _ ↦ chainEntries_unlink h hvictim hemp

end

end Clear

/-! ## Moving the entries of a group -/

/-- Some entries of a group that are to move are in the chain of the destination instead. -/
structure Moved (moves : UInt32 → Bool) (source : Ref Handle) (destination : ℕ)
    (buckets : Buckets I) (handles : ℕ → List Handle) (result : Buckets I)
    (grown : ℕ → List Handle) : Prop where
  linked : Linked result grown
  heads_eq : result.heads = buckets.heads
  grows : Grown handles grown destination
  stays : ∀ ref ≠ source, ref ∉ refsOf grown destination →
    entriesAt result ref = entriesAt buckets ref
  shrinks : ∀ slot entry, entryAt result ⟨source, slot⟩ = some entry →
    entryAt buckets ⟨source, slot⟩ = some entry
  arrives : ∀ entry ∈ chainEntries result grown destination,
    entry ∈ chainEntries buckets handles destination ∨
      (entry ∈ entriesAt buckets source ∧ moves entry.hash)
  perm : (allEntries result grown).Perm (allEntries buckets handles)

section Move

variable {arena : Arena} {reserved : List Handle} {moves : UInt32 → Bool} {source : Ref Handle}
  {origin destination : ℕ} {buckets middle result : Buckets I}
  {handles between grown : ℕ → List Handle}

theorem Moved.refl (h : Linked buckets handles) :
    Moved moves source destination buckets handles buckets handles :=
  ⟨h, rfl, Grown.refl handles destination, fun _ _ _ ↦ rfl, fun _ _ ↦ id, fun _ ↦ .inl,
    List.Perm.refl _⟩

theorem Moved.source_subset (h : Moved moves source destination buckets handles result grown) :
    entriesAt result source ⊆ entriesAt buckets source := by
  intro entry hent
  obtain ⟨slot, hslot⟩ := mem_entriesAt.mp hent
  exact mem_entriesAt.mpr ⟨slot, h.shrinks slot entry hslot⟩

theorem Moved.trans (h : Moved moves source destination buckets handles middle between)
    (hlater : Moved moves source destination middle between result grown) :
    Moved moves source destination buckets handles result grown where
  linked := hlater.linked
  heads_eq := hlater.heads_eq.trans h.heads_eq
  grows := h.grows.trans hlater.grows
  stays := by
    intro ref hsrc hdst
    rw [hlater.stays ref hsrc hdst]
    exact h.stays ref hsrc fun hmem ↦ hdst (hlater.grows.mem_refsOf hmem)
  shrinks := fun slot entry hent ↦ h.shrinks slot entry (hlater.shrinks slot entry hent)
  arrives := by
    intro entry hent
    rcases hlater.arrives entry hent with hbef | hmoved
    · exact h.arrives entry hbef
    · exact .inr (hmoved.imp_left fun hmem ↦ h.source_subset hmem)
  perm := hlater.perm.trans h.perm

variable (horigin : origin < buckets.heads) (hdst : destination < buckets.heads)
  (hapart : origin ≠ destination)

include horigin hdst hapart

section

variable (h : Linked buckets handles) (hsrc : source ∈ refsOf handles origin)
include h hsrc

theorem moveSlot_moved {slot : ℕ}
    (hresult : moveSlot arena reserved buckets moves source destination slot = some result) :
    ∃ grown, Moved moves source destination buckets handles result grown ∧
      ∀ entry, entryAt result ⟨source, slot⟩ = some entry → moves entry.hash = false := by
  unfold moveSlot at hresult
  cases hent : entryAt buckets ⟨source, slot⟩ with
  | none =>
    rw [hent] at hresult
    cases hresult
    exact ⟨handles, Moved.refl h, fun entry hsome ↦ absurd (hent.symm.trans hsome) (by simp)⟩
  | some entry =>
    rw [hent] at hresult
    dsimp only at hresult
    split_ifs at hresult with hmoves
    · obtain ⟨inserted, hinserted, rfl⟩ := map_eq_some_iff.mp hresult
      obtain ⟨grown, place, hins⟩ := insertIntoChain_inserted h hdst hinserted
      have hsourceGrown := hins.grows.mem_refsOf hsrc
      have hplace : source ≠ place := by
        rintro rfl
        exact hapart (hins.linked.ref_owner_eq hsourceGrown hins.mem_refsOf)
      have hkept : ∀ other, entryAt inserted ⟨source, other⟩ = entryAt buckets ⟨source, other⟩ :=
        fun other ↦ hins.entryAt_eq _ hplace
      have hsourceDestination : ∀ ref ∈ refsOf grown destination, ref ≠ source := by
        rintro ref href rfl
        exact hapart (hins.linked.ref_owner_eq hsourceGrown href)
      refine ⟨grown, ⟨hins.linked.modifyValue _,
        heads_modifyValue.trans hins.heads_eq, hins.grows,
        fun ref href hnot ↦ ?_, fun other found hfnd ↦ ?_, fun found hfnd ↦ ?_, ?_⟩,
        fun found hfnd ↦ absurd rfl (entryAt_clearSlot hfnd).2⟩
      · rw [entriesAt_clearSlot_of_ne href]
        refine hins.entriesAt_eq ref ?_
        rintro rfl
        exact hnot hins.mem_refsOf
      · rw [← hkept]
        exact (entryAt_clearSlot hfnd).1
      · have hsame : chainEntries (clearSlot inserted ⟨source, slot⟩) grown destination
            = chainEntries inserted grown destination :=
          flatMap_congr fun ref href ↦ entriesAt_clearSlot_of_ne (hsourceDestination ref href)
        rw [hsame] at hfnd
        rcases mem_cons.mp (hins.chain_perm.subset hfnd) with rfl | hold
        · exact .inr ⟨mem_entriesAt_of_entryAt hent, hmoves⟩
        · exact .inl hold
      · have hcleared := allEntries_clearSlot hins.linked
          (by rw [hins.heads_eq]; exact horigin) hsourceGrown ((hkept slot).trans hent)
        exact (hcleared.trans hins.perm).cons_inv
    · cases hresult
      refine ⟨handles, Moved.refl h, fun found hfnd ↦ ?_⟩
      obtain rfl := some.inj (hent.symm.trans hfnd)
      exact Bool.eq_false_iff.mpr hmoves

/-- The loop leaves nothing that moves in the slots it has passed. -/
theorem moveSlots_moved {slots : List ℕ} :
    ∃ grown, Moved moves source destination buckets handles
        (moveSlots arena reserved moves source destination slots buckets).1 grown ∧
      ((moveSlots arena reserved moves source destination slots buckets).2 = true →
        ∀ slot ∈ slots, ∀ entry,
          entryAt (moveSlots arena reserved moves source destination slots buckets).1
            ⟨source, slot⟩ = some entry → moves entry.hash = false) := by
  induction slots generalizing buckets handles with
  | nil => exact ⟨handles, Moved.refl h, fun _ slot hslot ↦ absurd hslot not_mem_nil⟩
  | cons slot slots ih =>
    unfold moveSlots
    cases hslot : moveSlot arena reserved buckets moves source destination slot with
    | none => exact ⟨handles, Moved.refl h, fun hend ↦ absurd hend (by simp)⟩
    | some moved =>
      obtain ⟨between, hfst, hdone⟩ := moveSlot_moved horigin hdst hapart h hsrc hslot
      obtain ⟨grown, hrest, hlater⟩ := ih (by rw [hfst.heads_eq]; exact horigin)
        (by rw [hfst.heads_eq]; exact hdst) hfst.linked
        (hfst.grows.mem_refsOf hsrc)
      refine ⟨grown, hfst.trans hrest, fun hend other hoth entry hent ↦ ?_⟩
      rcases mem_cons.mp hoth with rfl | hmem
      · exact hdone entry (hrest.shrinks other entry hent)
      · exact hlater hend other hmem entry hent

end

end Move

/-- Entries of the group at a cursor have been moved; an overflow group without entries may be
gone. -/
structure MovedGroup (moves : UInt32 → Bool) (origin destination : ℕ) (cursor : Option Handle)
    (done todo : List (Ref Handle)) (buckets : Buckets I) (handles : ℕ → List Handle)
    (result : Buckets I) (grown : ℕ → List Handle) : Prop where
  linked : Linked result grown
  heads_eq : result.heads = buckets.heads
  refs_eq : refsOf grown origin = done ++ cursorRef origin cursor :: todo ∨
    (refsOf grown origin = done ++ todo ∧ cursor ≠ none)
  rest_eq : ∀ ref ∈ done ++ todo, entriesAt result ref = entriesAt buckets ref
  stays : entriesAt result (cursorRef origin cursor) ⊆ entriesAt buckets (cursorRef origin cursor)
  arrives : ∀ entry ∈ chainEntries result grown destination,
    entry ∈ chainEntries buckets handles destination ∨
      (entry ∈ entriesAt buckets (cursorRef origin cursor) ∧ moves entry.hash)
  chain_eq : ∀ other, other ≠ origin → other ≠ destination →
    chainEntries result grown other = chainEntries buckets handles other
  perm : (allEntries result grown).Perm (allEntries buckets handles)

section MoveGroup

variable {arena : Arena} {moves : UInt32 → Bool} {origin destination : ℕ}
  {cursor : Option Handle} {done todo : List (Ref Handle)} {buckets moved : Buckets I}
  {handles grown : ℕ → List Handle}

theorem ne_of_nodup_middle {α : Type} {front back : List α} {middle other : α}
    (h : (front ++ middle :: back).Nodup) (hoth : other ∈ front ++ back) : other ≠ middle := by
  rintro rfl
  rw [nodup_middle, nodup_cons] at h
  exact h.1 hoth

theorem Moved.group (h : Linked buckets handles) (hapart : origin ≠ destination)
    (hsplit : refsOf handles origin = done ++ cursorRef origin cursor :: todo)
    (hmoved : Moved moves (cursorRef origin cursor) destination buckets handles moved grown) :
    MovedGroup moves origin destination cursor done todo buckets handles moved grown := by
  have hsrc : cursorRef origin cursor ∈ refsOf handles origin := by simp [hsplit]
  have hnd := nodup_refsOf (h.nodup origin)
  rw [hsplit] at hnd
  refine ⟨hmoved.linked, hmoved.heads_eq, .inl ?_, fun ref href ↦ ?_, hmoved.source_subset,
    hmoved.arrives, fun other hoth hdest ↦ ?_, hmoved.perm⟩
  · rw [hmoved.grows.refsOf_eq hapart, hsplit]
  · refine hmoved.stays ref (ne_of_nodup_middle hnd href) fun hdest ↦ hapart ?_
    refine hmoved.linked.ref_owner_eq (hmoved.grows.mem_refsOf ?_) hdest
    rw [hsplit]
    exact perm_middle.symm.subset (mem_cons_of_mem _ href)
  · unfold chainEntries
    rw [hmoved.grows.refsOf_eq hdest]
    refine flatMap_congr fun ref href ↦ hmoved.stays ref ?_ fun hdestRef ↦ ?_
    · rintro rfl
      exact hoth (h.ref_owner_eq href hsrc)
    · exact hdest (hmoved.linked.ref_owner_eq (hmoved.grows.mem_refsOf href) hdestRef)

theorem MovedGroup.unlink {handle : Handle}
    (h : MovedGroup moves origin destination (some handle) done todo buckets handles moved grown)
    (hrefs : refsOf grown origin = done ++ .node handle :: todo)
    (hemp : entriesAt moved (.node handle) = []) :
    MovedGroup moves origin destination (some handle) done todo buckets handles
        (moved.unlink handle) (fun owner ↦ (grown owner).erase handle) ∧
      refsOf (fun owner ↦ (grown owner).erase handle) origin = done ++ todo := by
  have hhandle : handle ∈ grown origin := by
    rw [← node_mem_refsOf, hrefs]
    simp
  have hnd := nodup_refsOf (h.linked.nodup origin)
  rw [hrefs] at hnd
  have hne : ∀ ref ∈ done ++ todo, ref ≠ .node handle := fun ref ↦ ne_of_nodup_middle hnd
  have herased : refsOf (fun owner ↦ (grown owner).erase handle) origin = done ++ todo := by
    rw [refsOf_erase (h.linked.nodup origin), hrefs, filter_append,
      filter_cons_of_neg (by simp), ← filter_append]
    exact filter_eq_self.mpr fun ref href ↦ by simpa using hne ref href
  refine ⟨⟨h.linked.unlink hhandle, heads_unlink.trans h.heads_eq,
    .inr ⟨herased, by simp⟩, fun ref href ↦ ?_, fun entry hent ↦ ?_, fun entry hent ↦ ?_,
    fun other hoth hdest ↦ ?_, ?_⟩, herased⟩
  · rw [entriesAt_unlink h.linked hhandle (hne ref href)]
    exact h.rest_eq ref href
  · change entry ∈ entriesAt _ (.node handle) at hent
    unfold entriesAt at hent
    rw [Linked.value_unlink_self] at hent
    exact absurd hent not_mem_nil
  · rw [chainEntries_unlink h.linked hhandle hemp] at hent
    exact h.arrives entry hent
  · rw [chainEntries_unlink h.linked hhandle hemp]
    exact h.chain_eq other hoth hdest
  · rw [allEntries_unlink h.linked hhandle hemp]
    exact h.perm

/-- An overflow group that has been emptied is given back. -/
theorem MovedGroup.release
    (h : MovedGroup moves origin destination cursor done todo buckets handles moved grown)
    (hrefs : refsOf grown origin = done ++ cursorRef origin cursor :: todo) :
    ∃ released, MovedGroup moves origin destination cursor done todo buckets handles
        (releaseGroup moved cursor) released ∧
      entriesAt (releaseGroup moved cursor) (cursorRef origin cursor) ⊆
        entriesAt moved (cursorRef origin cursor) ∧
      (cursor ≠ none → entriesAt moved (cursorRef origin cursor) = [] →
        refsOf released origin = done ++ todo) := by
  cases cursor with
  | none => exact ⟨grown, h, List.Subset.refl _, fun hcursor ↦ absurd rfl hcursor⟩
  | some handle =>
    have hhandle : handle ∈ grown origin := by
      rw [← node_mem_refsOf, hrefs]
      simp [cursorRef]
    obtain ⟨cell, hcell⟩ := Option.isSome_iff_exists.mp
      (h.linked.cell_isSome (h.linked.lt_heads hhandle) (node_mem_refsOf.mpr hhandle))
    have hval : moved.value (.node handle) = some cell.value :=
      congrArg (Option.map Cell.value) hcell
    unfold releaseGroup
    dsimp only
    split_ifs with hemp
    · rw [isEmptyGroup_iff hval] at hemp
      rw [unlinkEmptyOverflow_eq h.linked hhandle hemp]
      obtain ⟨hunlinked, herased⟩ := h.unlink hrefs hemp
      refine ⟨_, hunlinked, fun entry hent ↦ ?_, fun _ _ ↦ herased⟩
      change entry ∈ entriesAt _ (.node handle) at hent
      unfold entriesAt at hent
      rw [Linked.value_unlink_self] at hent
      exact absurd hent not_mem_nil
    · rw [isEmptyGroup_iff hval] at hemp
      exact ⟨grown, h, List.Subset.refl _, fun _ hnothing ↦ absurd hnothing hemp⟩

variable {index : Index I}

/-- The loop over the slots of a group: what it has moved, and that it has moved all that is to move
when it comes to its end. -/
theorem moveGroup_spec (h : Linked index.buckets handles) (horigin : origin < index.buckets.heads)
    (hdst : destination < index.buckets.heads) (hapart : origin ≠ destination)
    (hsplit : refsOf handles origin = done ++ cursorRef origin cursor :: todo) :
    ∃ grown, MovedGroup moves origin destination cursor done todo index.buckets handles
        (moveGroup arena index moves origin destination cursor).1 grown ∧
      refsOf grown origin = done ++ cursorRef origin cursor :: todo ∧
      ((moveGroup arena index moves origin destination cursor).2 = true →
        ∀ entry ∈ entriesAt (moveGroup arena index moves origin destination cursor).1
          (cursorRef origin cursor), moves entry.hash = false) := by
  have hsrc : cursorRef origin cursor ∈ refsOf handles origin := by simp [hsplit]
  obtain ⟨grown, hmoved, hslots⟩ := moveSlots_moved horigin hdst hapart h hsrc
  refine ⟨grown, hmoved.group h hapart hsplit, ?_, fun hend entry hent ↦ ?_⟩
  · rw [hmoved.grows.refsOf_eq hapart, hsplit]
  · obtain ⟨slot, hslot⟩ := mem_entriesAt.mp hent
    obtain ⟨group, -, hgroup⟩ := exists_group_of_entryAt hslot
    exact hslots hend slot (mem_range.mpr (Group.lt_of_entryAt hgroup)) entry hslot

end MoveGroup

/-! ## Cells that are not for groups -/

/-- No overflow group is in one of the reserved cells. -/
def Apart (reserved : List Handle) (buckets : Buckets I) : Prop :=
  ∀ handle ∈ buckets.handles, handle ∉ reserved

section Apart

variable {arena : Arena} {reserved : List Handle} {buckets changed : Buckets I}

theorem Apart.subset (h : Apart reserved buckets) (hsubset : changed.handles ⊆ buckets.handles) :
    Apart reserved changed :=
  fun handle hhandle ↦ h handle (hsubset hhandle)

theorem Apart.unlinkEmptyOverflow (h : Apart reserved buckets) (victim : Handle) :
    Apart reserved (unlinkEmptyOverflow buckets victim) := by
  unfold LinearHashIndex.unlinkEmptyOverflow
  split
  · split_ifs
    · exact h
    · exact h.subset handles_unlink_subset
  · exact h

theorem Apart.releaseGroup (h : Apart reserved buckets) (cursor : Option Handle) :
    Apart reserved (releaseGroup buckets cursor) := by
  cases cursor with
  | none => exact h
  | some handle =>
    unfold LinearHashIndex.releaseGroup
    dsimp only
    split_ifs
    · exact h.unlinkEmptyOverflow handle
    · exact h

theorem Apart.prepared {primary fuel : ℕ} {ref : Ref Handle} {prepared : Buckets I × Location}
    (h : Apart reserved buckets)
    (hprepared : prepareFrom arena reserved buckets primary fuel ref = some prepared) :
    Apart reserved prepared.1 := by
  induction fuel generalizing ref with
  | zero => cases hprepared
  | succ fuel ih =>
    unfold prepareFrom at hprepared
    split at hprepared
    · cases hprepared
      exact h
    split at hprepared
    · exact ih hprepared
    · obtain ⟨fresh, hfresh, rfl⟩ := map_eq_some_iff.mp hprepared
      intro handle hhandle
      rcases mem_cons.mp (handles_extend_subset hhandle) with rfl | hold
      · exact fun hmem ↦ arena.allocateBucket_fresh _ _ hfresh (mem_append_left _ hmem)
      · exact h handle hold

theorem Apart.insertIntoChain {primary : ℕ} {hash : UInt32} {id : I} (h : Apart reserved buckets)
    (hinserted : insertIntoChain arena reserved buckets primary hash id = some changed) :
    Apart reserved changed := by
  obtain ⟨prepared, hprepared, rfl⟩ := map_eq_some_iff.mp hinserted
  exact (h.prepared hprepared).subset handles_modify_subset

theorem Apart.moveSlots {moves : UInt32 → Bool} {ref : Ref Handle} {destination : ℕ}
    {slots : List ℕ} (h : Apart reserved buckets) :
    Apart reserved (moveSlots arena reserved moves ref destination slots buckets).1 := by
  induction slots generalizing buckets with
  | nil => exact h
  | cons slot slots ih =>
    unfold LinearHashIndex.moveSlots
    split
    · next moved hmoved =>
      refine ih ?_
      unfold moveSlot at hmoved
      split at hmoved
      · split_ifs at hmoved
        · obtain ⟨inserted, hinserted, rfl⟩ := map_eq_some_iff.mp hmoved
          exact (h.insertIntoChain hinserted).subset handles_modify_subset
        · cases hmoved
          exact h
      · cases hmoved
        exact h
    · exact h

end Apart

end GoblinCore.LinearHashIndex
