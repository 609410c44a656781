import GoblinCore.ZSets.Adding

/-!
# Removing from the full representation

A removed member leaves a hole in the ids, and the member with the last id moves into it: its name
and score, its slot and its entry all get the new id.  When the removed member is itself the last
one, nothing moves.
-/

namespace GoblinCore.SortedSet.FullState

open Refusable MemoryLimit Ordered Ranking ScoreIndex Comp
open List hiding lookup

variable {σ : Type} {options : ZSetOptions} {full : FullState σ} {id : ℕ}

/-- The storage and the slots after a removal. -/
def swapRemoved (id : ℕ) (index : ScoreIndex σ) (full : FullState σ) : FullState σ :=
  let last := full.storage.length - 1
  popBack (moveMemberId last id (eraseSlot id
    { full.copyRef id last with scoreIndex := index, shared := false }))

/-- The id that a position of the new storage comes from. -/
def origin (id last position : ℕ) : ℕ := if position = id then last else position

theorem onIndex_ends {α : Type} {body : StoreComp (ScoreIndex σ) α} {script : Script}
    {Q : α → FullState σ → Prop} {E : Thrown → FullState σ → Prop} {Qin : α → ScoreIndex σ → Prop}
    {Ein : Thrown → ScoreIndex σ → Prop} (h : Ends body full.scoreIndex script Qin Ein)
    (hval : ∀ value index, Qin value index → Q value { full with scoreIndex := index })
    (hthrow : ∀ thrown index, Ein thrown index → E thrown { full with scoreIndex := index }) :
    Ends (onIndex body) full script Q E :=
  h.zoom hval hthrow

theorem copyRef_slots (target source : ℕ) : (full.copyRef target source).slots = full.slots := by
  unfold copyRef
  split
  · rfl
  · rfl

theorem copyRef_scoreIndex (target source : ℕ) :
    (full.copyRef target source).scoreIndex = full.scoreIndex := by
  unfold copyRef
  split
  · rfl
  · rfl

theorem swapRemoved_slots (index : ScoreIndex σ) :
    (full.swapRemoved id index).slots = (full.slots.erase id).map fun slot ↦
      if slot = full.storage.length - 1 then id else slot := by
  simp [swapRemoved, popBack, moveMemberId, eraseSlot, copyRef_slots]

section Storage

variable (index : ScoreIndex σ) (hid : id < full.storage.length)

include hid

theorem swapRemoved_storage :
    (full.swapRemoved id index).storage.length = full.storage.length - 1 ∧
      ∀ position, position < full.storage.length - 1 →
        (full.swapRemoved id index).storage[position]? =
          full.storage[origin id (full.storage.length - 1) position]? := by
  have hlast : full.storage.length - 1 < full.storage.length := by omega
  have hget : full.storage[full.storage.length - 1]? = some full.storage[full.storage.length - 1] :=
    getElem?_eq_getElem hlast
  have hsto : (full.swapRemoved id index).storage =
      (full.storage.set id full.storage[full.storage.length - 1]).dropLast := by
    simp [swapRemoved, popBack, moveMemberId, eraseSlot, copyRef, hget]
  refine ⟨by simp [hsto], ?_⟩
  intro position hpos
  rw [hsto, getElem?_dropLast, length_set, if_pos hpos, origin]
  by_cases hsame : position = id
  · rw [if_pos hsame, hsame, getElem?_set_self hid, hget]
  · rw [if_neg hsame, getElem?_set_ne (Ne.symm hsame)]

variable {position : ℕ}

theorem swapRemoved_scoreAt (h : position < full.storage.length - 1) :
    (full.swapRemoved id index).scoreAt position =
      full.scoreAt (origin id (full.storage.length - 1) position) := by
  rw [scoreAt, (swapRemoved_storage index hid).2 position h, scoreAt]

theorem swapRemoved_memberView (h : position < full.storage.length - 1) :
    (full.swapRemoved id index).memberView position =
      full.memberView (origin id (full.storage.length - 1) position) := by
  rw [memberView, (swapRemoved_storage index hid).2 position h, memberView]

theorem swapRemoved_scoreAt_none (h : full.storage.length - 1 ≤ position) :
    (full.swapRemoved id index).scoreAt position = none := by
  rw [scoreAt, getElem?_eq_none, Option.map_none]
  rw [(swapRemoved_storage index hid).1]
  exact h

end Storage

variable {last position : ℕ}

/-- Positions of the new storage come from different ids, none of them the removed one. -/
theorem origin_inj {first second : ℕ} (hfst : first < last) (hsnd : second < last)
    (h : origin id last first = origin id last second) : first = second := by
  unfold origin at h
  split at h <;> split at h <;> omega

theorem origin_ne (h : position < last) : origin id last position ≠ id := by
  unfold origin
  split <;> omega

theorem origin_lt (id : ℕ) (h : position < last) : origin id last position < last + 1 := by
  unfold origin
  split <;> omega

/-- Every other id has its position. -/
theorem exists_origin {count other : ℕ} (hoth : other < count) (hid : id < count)
    (hne : other ≠ id) :
    ∃ position, position < count - 1 ∧ origin id (count - 1) position = other := by
  by_cases hlast : other = count - 1
  · exact ⟨id, by omega, by rw [origin, if_pos rfl, hlast]⟩
  · exact ⟨other, by omega, by rw [origin, if_neg hne]⟩

/-- The entry of an id after the removal, given the entry of the id it comes from. -/
theorem retarget_eq {entry : ScoreEntry σ} (hpos : position < last)
    (h : entry.memberId = origin id last position) :
    retarget last id entry = ⟨entry.score, position⟩ := by
  obtain ⟨score, memberId⟩ := entry
  obtain rfl : memberId = origin id last position := h
  unfold origin retarget
  by_cases hsame : position = id
  · simp [hsame]
  · have hne : position ≠ last := by omega
    simp [hsame, hne]

variable [Score σ] [LawfulScore σ] [DecidableEq σ]

namespace Intact

variable {score : σ} {index : ScoreIndex σ}

section

variable (h : Intact options full) (hscore : full.scoreAt id = some score)
include h hscore

theorem exists_retarget {other : ScoreEntry σ}
    (hoth : other ∈ full.scoreIndex.toList.erase ⟨score, id⟩) :
    other ∈ full.scoreIndex.toList ∧ ∃ position, position < full.storage.length - 1 ∧
      origin id (full.storage.length - 1) position = other.memberId ∧
      retarget (full.storage.length - 1) id other = ⟨other.score, position⟩ := by
  obtain ⟨hne, hmem⟩ := h.sorted.nodup.mem_erase_iff.mp hoth
  have hids : other.memberId ≠ id := fun heq ↦
    hne (h.eq_of_memberId hmem ((h.mem_index ⟨score, id⟩).mpr hscore) heq)
  obtain ⟨position, hpos, horigin⟩ :=
    exists_origin (h.lt_length hmem) (lt_length_of_scoreAt hscore) hids
  exact ⟨hmem, position, hpos, horigin, retarget_eq hpos horigin.symm⟩

theorem mem_swapRemoved {entry : ScoreEntry σ} :
    entry ∈ (full.scoreIndex.toList.erase ⟨score, id⟩).map (retarget (full.storage.length - 1) id) ↔
      (full.swapRemoved id index).scoreAt entry.memberId = some entry.score := by
  have hid := lt_length_of_scoreAt hscore
  rw [mem_map]
  constructor
  · rintro ⟨other, hoth, rfl⟩
    obtain ⟨hmem, position, hpos, horigin, hretarget⟩ := h.exists_retarget hscore hoth
    rw [hretarget, swapRemoved_scoreAt index hid hpos, horigin]
    exact (h.mem_index other).mp hmem
  · intro hfnd
    by_cases hpos : entry.memberId < full.storage.length - 1
    · rw [swapRemoved_scoreAt index hid hpos] at hfnd
      refine ⟨⟨entry.score, origin id (full.storage.length - 1) entry.memberId⟩, ?_, ?_⟩
      · refine h.sorted.nodup.mem_erase_iff.mpr ⟨?_, (h.mem_index _).mpr hfnd⟩
        intro heq
        exact origin_ne hpos (congrArg ScoreEntry.memberId heq)
      · exact retarget_eq hpos rfl
    · rw [swapRemoved_scoreAt_none index hid (Nat.le_of_not_lt hpos)] at hfnd
      cases hfnd

theorem sorted_swapRemoved :
    Sorted (full.swapRemoved id index).memberView
      ((full.scoreIndex.toList.erase ⟨score, id⟩).map (retarget (full.storage.length - 1) id)) := by
  have hid := lt_length_of_scoreAt hscore
  have hnamed : ∀ other ∈ full.scoreIndex.toList.erase ⟨score, id⟩,
      named (full.swapRemoved id index).memberView (retarget (full.storage.length - 1) id other) =
        named full.memberView other := by
    intro other hoth
    obtain ⟨-, position, hpos, horigin, hretarget⟩ := h.exists_retarget hscore hoth
    rw [hretarget, named, swapRemoved_memberView index hid hpos, horigin]
    rfl
  refine ⟨?_, ?_⟩
  · intro entry hent
    obtain ⟨other, hoth, rfl⟩ := mem_map.mp hent
    rw [retarget_score]
    exact h.sorted.numbers other (mem_of_mem_erase hoth)
  · rw [pairwise_map]
    refine (h.sorted.ordered.sublist erase_sublist).imp_of_mem ?_
    intro first second hfst hsnd hless
    rw [less_iff] at hless ⊢
    rwa [hnamed first hfst, hnamed second hsnd]

/-- The three parts without the member. -/
theorem swapRemoved (hshape : Shape options.index index)
    (hlist : index.toList = (full.scoreIndex.toList.erase ⟨score, id⟩).map (retarget
      (full.storage.length - 1) id)) : Intact options (full.swapRemoved id index) := by
  have hid := lt_length_of_scoreAt hscore
  obtain ⟨hlen, hget⟩ := swapRemoved_storage index hid
  refine ⟨?_, ?_, ?_, ?_, hshape, ?_, ?_⟩
  · rw [nodup_iff_getElem?_ne_getElem?]
    intro first second hlt hsnd
    rw [length_map, hlen] at hsnd
    have hname {position : ℕ} (hpos : position < full.storage.length - 1) :
        ((full.swapRemoved id index).storage.map Prod.fst)[position]? =
          some (full.memberView (origin id (full.storage.length - 1) position)) := by
      have horigin := origin_lt id hpos
      rw [getElem?_map, hget position hpos, memberView, getElem?_eq_getElem (by omega)]
      rfl
    rw [hname (by omega), hname hsnd]
    intro heq
    have hfirstLt := origin_lt id (show first < full.storage.length - 1 by omega)
    have hsecondLt := origin_lt id hsnd
    have horigins := h.memberView_inj (by omega) (by omega) (Option.some.inj heq)
    have hsame := origin_inj (show first < full.storage.length - 1 by omega) hsnd horigins
    omega
  · intro entry hent
    obtain ⟨position, hpos⟩ := mem_iff_getElem?.mp hent
    have hlt : position < full.storage.length - 1 := by
      rw [← hlen]
      exact lt_of_getElem? hpos
    rw [hget position hlt] at hpos
    exact h.numbers entry (mem_of_getElem? hpos)
  · rw [swapRemoved_slots]
    refine (h.slots_nodup.erase id).map_on ?_
    intro first hfst second hsnd hsame
    rw [h.slots_nodup.mem_erase_iff] at hfst hsnd
    split at hsame <;> split at hsame <;> omega
  · intro position
    rw [hlen]
    rw [swapRemoved_slots, mem_map]
    constructor
    · rintro ⟨slot, hslot, rfl⟩
      obtain ⟨hne, hmem⟩ := h.slots_nodup.mem_erase_iff.mp hslot
      rw [h.mem_slots] at hmem
      split <;> omega
    · intro hpos
      refine ⟨origin id (full.storage.length - 1) position, ?_, ?_⟩
      · have horigin := origin_lt id hpos
        exact h.slots_nodup.mem_erase_iff.mpr ⟨origin_ne hpos, (h.mem_slots _).mpr (by omega)⟩
      · unfold origin
        split <;> split <;> omega
  · show Sorted _ index.toList
    rw [hlist]
    exact h.sorted_swapRemoved hscore
  · intro entry
    show entry ∈ index.toList ↔ _
    rw [hlist]
    exact h.mem_swapRemoved hscore

end

omit [LawfulScore σ] [DecidableEq σ] in
theorem lookup_swapRemoved (h : Intact options full) (hscore : full.scoreAt id = some score)
    (hnames : ((full.swapRemoved id index).storage.map Prod.fst).Nodup) :
    lookup (full.swapRemoved id index).storage =
      Function.update (lookup full.storage) (full.memberView id) none := by
  have hid := lt_length_of_scoreAt hscore
  obtain ⟨hlen, hget⟩ := swapRemoved_storage index hid
  funext name
  apply Option.ext
  intro found
  rw [lookup_eq_some_iff hnames, mem_iff_getElem?]
  have hfrom : (∃ position : ℕ, (full.swapRemoved id index).storage[position]? =
    some (name, found)) ↔
      ∃ other : ℕ, other ≠ id ∧ full.storage[other]? = some (name, found) := by
    constructor
    · rintro ⟨position, hpos⟩
      have hlt : position < full.storage.length - 1 := by
        rw [← hlen]
        exact lt_of_getElem? hpos
      rw [hget position hlt] at hpos
      exact ⟨_, origin_ne hlt, hpos⟩
    · rintro ⟨other, hne, hoth⟩
      obtain ⟨position, hpos, horigin⟩ := exists_origin (lt_of_getElem? hoth) hid hne
      exact ⟨position, by rw [hget position hpos, horigin, hoth]⟩
  rw [hfrom]
  by_cases hname : name = full.memberView id
  · subst hname
    rw [Function.update_self]
    constructor
    · rintro ⟨other, hne, hoth⟩
      obtain ⟨hlt, hview, -⟩ := storage_eq_some_iff.mp hoth
      exact absurd (h.memberView_inj hlt hid hview) hne
    · intro hnone
      cases hnone
  · rw [Function.update_of_ne hname, lookup_eq_some_iff h.names, mem_iff_getElem?]
    constructor
    · rintro ⟨other, -, hoth⟩
      exact ⟨other, hoth⟩
    · rintro ⟨other, hoth⟩
      refine ⟨other, ?_, hoth⟩
      rintro rfl
      exact hname (storage_eq_some_iff.mp hoth).2.1.symm

/-! ## The steps of a removal -/

variable {script : Script}

/-- What a removal has done. -/
structure Removed (options : ZSetOptions) (member : Bytes) (full full' : FullState σ) : Prop where
  intact : Intact options full'
  lookup : Ranking.lookup full'.storage = Function.update (Ranking.lookup full.storage) member none
  shared : full'.shared = false

omit [DecidableEq σ] [LawfulScore σ] [Score σ] in
/-- Nothing moves when the last member goes. -/
theorem swapRemoved_last (hid : id < full.storage.length)
    (hlast : id = full.storage.length - 1) :
    full.swapRemoved id index =
      popBack (eraseSlot id { full with scoreIndex := index, shared := false }) := by
  have hget : full.storage[full.storage.length - 1]? = some full.storage[id] := by
    rw [← hlast, getElem?_eq_getElem hid]
  have hslots : (full.slots.erase id).map
    (fun slot ↦ if slot = full.storage.length - 1 then id else slot) =
      full.slots.erase id := by
    rw [← hlast]
    refine (map_congr_left fun slot _ ↦ ?_).trans (map_id _)
    split
    · next hsame => exact hsame.symm
    · rfl
  simp [FullState.swapRemoved, popBack, moveMemberId, eraseSlot, copyRef, hget, hslots]

theorem removeLast_ends (h : Intact options full) (hscore : full.scoreAt id = some score)
    (hlast : id = full.storage.length - 1) (hquiet : options.Quiet script) :
    Ends (removeLast options id score) { full with shared := false } script
      (fun exit full' ↦ exit = .removed ∧ Removed options (full.memberView id) full full')
      (fun _ _ ↦ False) := by
  have hid := lt_length_of_scoreAt hscore
  have herase : Ends (onIndex (eraseOne options.index full.memberView ⟨score, id⟩))
      { full with shared := false } script
      (fun erased full' ↦ erased = true ∧ ∃ index, full' =
        { full with scoreIndex := index, shared := false } ∧
        index.toList = full.scoreIndex.toList.erase ⟨score, id⟩ ∧ Shape options.index index)
      (fun _ _ ↦ False) := by
    refine Ends.zoom (eraseOne_ends h.shape h.sorted h.distinctIds
      ((h.mem_index _).mpr hscore) hquiet) ?_
      fun _ _ hfalse ↦ hfalse
    rintro erased index ⟨herased, hlist, hshape⟩
    exact ⟨herased, index, rfl, hlist, hshape⟩
  apply ends_get_bind
  apply herase.bind
  rintro erased full' rest hrest ⟨rfl, index, rfl, hlist, hshape⟩
  rw [if_pos rfl]
  apply ends_modify_bind
  apply ends_modify_bind
  apply ends_pure
  rw [← swapRemoved_last hid hlast]
  have hretarget : (full.scoreIndex.toList.erase ⟨score, id⟩).map
      (retarget (full.storage.length - 1) id) = full.scoreIndex.toList.erase ⟨score, id⟩ := by
    rw [← hlast]
    refine (map_congr_left fun entry _ ↦ ?_).trans (map_id _)
    unfold retarget
    split
    · next hsame =>
      rw [← hsame]
      rfl
    · rfl
  have hintact := h.swapRemoved hscore hshape (hlist.trans hretarget.symm)
  exact ⟨if_pos ((h.mem_slots id).mpr hid), hintact, h.lookup_swapRemoved hscore hintact.names, rfl⟩

omit [DecidableEq σ] [LawfulScore σ] [Score σ] in
theorem copyRef_memberView {last other : ℕ} (hid : id < full.storage.length)
    (hlast : last < full.storage.length) :
    (full.copyRef id last).memberView other =
      if other = id then full.memberView last else full.memberView other := by
  have hget : full.storage[last]? = some full.storage[last] := getElem?_eq_getElem hlast
  unfold copyRef memberView
  rw [hget]
  by_cases hsame : other = id
  · subst hsame
    simp [hid]
  · simp [hsame, getElem?_set_ne (Ne.symm hsame)]

variable {lastScore : σ}

/-- The entries of the removed member and of the last one are found; the score index loses the
first, and the second gets the free id. -/
theorem retargetLast_ends (h : Intact options full) {copied : FullState σ} {last : ℕ}
    (hscore : full.scoreAt id = some score) (hlastScore : full.scoreAt last = some lastScore)
    (hne : id ≠ last) (hquiet : options.Quiet script)
    (hcopied : copied = copyRef id last { full with shared := false }) :
    ∃ place lastPlace,
      findEntryLocation options.index (memberView { full with shared := false }) ⟨score, id⟩
        full.scoreIndex = some place ∧
      findEntryLocation options.index (memberView { full with shared := false }) ⟨lastScore, last⟩
        full.scoreIndex = some lastPlace ∧
      Ends (onIndex (eraseRemovedAndRetargetLast options.index copied.memberView place lastPlace
          ⟨lastScore, last⟩ id)) copied script
        (fun updated full' ↦ updated = true ∧ ∃ index, full' = { copied with scoreIndex := index } ∧
          index.toList = renamed ⟨score, id⟩ ⟨lastScore, last⟩ full.scoreIndex.toList ∧
          Shape options.index index)
        (fun _ _ ↦ False) := by
  obtain ⟨place, hplace, hent⟩ := findEntryLocation_spec h.shape.fits.nonempty h.sorted
    h.distinctIds ((h.mem_index ⟨score, id⟩).mpr hscore)
  obtain ⟨lastPlace, hlastPlace, hlastEntry⟩ := findEntryLocation_spec h.shape.fits.nonempty
    h.sorted h.distinctIds ((h.mem_index ⟨lastScore, last⟩).mpr hlastScore)
  have hview (other : ℕ) : copied.memberView other =
      if other = id then full.memberView last else full.memberView other := by
    rw [hcopied]
    exact copyRef_memberView (lt_length_of_scoreAt hscore) (lt_length_of_scoreAt hlastScore)
  have hidx : copied.scoreIndex = full.scoreIndex := by
    rw [hcopied]
    exact copyRef_scoreIndex _ _
  have hrenames : Renames full.memberView copied.memberView ⟨score, id⟩ ⟨lastScore, last⟩
      full.scoreIndex.toList :=
    { removed_mem := (h.mem_index _).mpr hscore
      last_mem := (h.mem_index _).mpr hlastScore
      ne := hne
      name := by rw [hview, if_pos rfl]
      others := fun other hoth ↦ by rw [hview, if_neg hoth]
      ids := h.distinctIds
      sorted := h.sorted }
  have hbody := hrenames.eraseRemovedAndRetargetLast_ends (E := fun _ _ ↦ False) h.shape hent
    hlastEntry hquiet
  rw [← hidx] at hbody
  refine ⟨place, lastPlace, hplace, hlastPlace, onIndex_ends hbody ?_ fun _ _ hfalse ↦ hfalse⟩
  rintro updated index ⟨hupdated, hlist, hnew⟩
  rw [hidx] at hlist
  exact ⟨hupdated, index, rfl, hlist, hnew⟩

theorem removeSwap_ends (h : Intact options full) (hscore : full.scoreAt id = some score)
    (hlastScore : full.scoreAt (full.storage.length - 1) = some lastScore)
    (hne : id ≠ full.storage.length - 1) (hquiet : options.Quiet script) :
    Ends (removeSwap options id (full.storage.length - 1) score lastScore)
      { full with shared := false } script
      (fun exit full' ↦ exit = .removed ∧ Removed options (full.memberView id) full full')
      (fun _ _ ↦ False) := by
  have hlast := lt_length_of_scoreAt hlastScore
  have hfindLast : find (memberView { full with shared := false } (full.storage.length - 1))
      { full with shared := false } = some (full.storage.length - 1) :=
    h.find_eq_some_iff.mpr ⟨hlast, rfl⟩
  have hmoves : full.storage.length - 1 ∈ full.slots.erase id :=
    (mem_erase_of_ne (Ne.symm hne)).mpr ((h.mem_slots _).mpr hlast)
  obtain ⟨place, lastPlace, hplace, hlastPlace, hupdate⟩ :=
    h.retargetLast_ends hscore hlastScore hne hquiet rfl
  apply ends_get_bind
  dsimp only
  rw [hplace, hlastPlace]
  apply ends_modify_bind
  apply ends_get_bind
  apply hupdate.bind
  rintro updated full' rest _ ⟨rfl, index, rfl, hlist, hshape⟩
  rw [if_pos rfl]
  apply ends_modify_bind
  rw [hfindLast]
  dsimp only
  rw [if_pos ⟨rfl, hmoves⟩]
  apply ends_modify_bind
  apply ends_modify_bind
  apply ends_pure
  have hst : popBack (moveMemberId (full.storage.length - 1) id (eraseSlot id
      { copyRef id (full.storage.length - 1) { full with shared := false } with
        scoreIndex := index })) = full.swapRemoved id index := by
    have hget : full.storage[full.storage.length - 1]? =
        some full.storage[full.storage.length - 1] := getElem?_eq_getElem hlast
    simp [FullState.swapRemoved, copyRef, hget]
  rw [hst]
  have hintact := h.swapRemoved hscore hshape hlist
  exact ⟨if_pos ((h.mem_slots id).mpr (lt_length_of_scoreAt hscore)), hintact,
    h.lookup_swapRemoved hscore hintact.names, rfl⟩

/-- `remove` on the full representation: memory is asked for before anything is removed, and a
member that is there is removed. -/
theorem removeExit_ends (h : Intact options full) {member : Bytes} (hquiet : options.Quiet script) :
    Ends (removeExit options member) full script
      (fun exit full' ↦ if (full.score member).isSome then
        exit = .removed ∧ Removed options member full full' else exit = .absent ∧ full' = full)
      (fun _ full' ↦ true ∈ script ∧ ∃ shared, full' = { full with shared := shared }) := by
  apply ends_get_bind
  cases hfind : full.find member with
  | none =>
    refine ends_pure ?_
    rw [FullState.score, hfind, Option.bind_none, Option.isSome_none]
    exact ⟨rfl, rfl⟩
  | some id =>
    obtain ⟨hid, rfl⟩ := h.find_eq_some_iff.mp hfind
    obtain ⟨score, hscore⟩ := exists_scoreAt hid
    obtain ⟨lastScore, hlastScore⟩ :=
      exists_scoreAt (show full.storage.length - 1 < full.storage.length by omega)
    have hknown : (full.score (full.memberView id)).isSome = true := by
      rw [FullState.score, hfind, Option.bind_some, hscore, Option.isSome_some]
    simp only [hknown, if_true]
    apply ensureUniqueMutableState_ends.bind
    rintro _ _ rest hrest rfl
    have hquiet' := hquiet.suffix hrest
    rw [hscore, hlastScore]
    dsimp only
    split
    · next hlast =>
      exact (h.removeLast_ends hscore hlast hquiet').mono_throw fun _ _ hfalse ↦ hfalse.elim
    · next hne =>
      exact (h.removeSwap_ends hscore hlastScore hne hquiet').mono_throw
        fun _ _ hfalse ↦ hfalse.elim

theorem removeFull_ends (h : Intact options full) {member : Bytes} (hquiet : options.Quiet script) :
    Ends (removeFull options member) full script
      (fun erased full' ↦ erased = (full.score member).isSome ∧
        if erased then Removed options member full full' else full' = full)
      (fun _ full' ↦ true ∈ script ∧ ∃ shared, full' = { full with shared := shared }) := by
  apply (h.removeExit_ends hquiet).bind
  intro exit full' _ _ hexit
  apply ends_pure
  split at hexit
  · next hknown =>
    obtain ⟨rfl, hremoved⟩ := hexit
    exact ⟨hknown.symm, hremoved⟩
  · next hunknown =>
    obtain ⟨rfl, rfl⟩ := hexit
    exact ⟨(Bool.eq_false_iff.mpr hunknown).symm, rfl⟩

end Intact

end GoblinCore.SortedSet.FullState
