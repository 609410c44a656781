import GoblinCore.ZSets.Granted

/-!
# Adding to the full representation

What each step of `ZSet::add` on the full representation does when no memory is refused: afterwards
the storage, the member index and the score index agree on the new member or the new score, and the
layer has no other user.
-/

namespace GoblinCore.SortedSet.FullState

open Refusable MemoryLimit Ordered Ranking ScoreIndex Comp
open List hiding lookup lookup_eq_none_iff

variable {σ : Type} {options : ZSetOptions} {full : FullState σ} {member : Bytes} {score : σ}
  {id : ℕ} {script : Script}

/-! ## Names and scores after a change of the storage -/

variable {entry : Bytes × σ} {other : FullState σ} {old : σ}

theorem memberView_append (h : other.storage = full.storage ++ [entry])
    (hid : id < full.storage.length) : other.memberView id = full.memberView id := by
  simp [memberView, h, getElem?_append_left hid]

theorem memberView_last (h : other.storage = full.storage ++ [(member, score)]) :
    other.memberView full.storage.length = member := by
  simp [memberView, h]

theorem scoreAt_append (h : other.storage = full.storage ++ [entry]) :
    other.scoreAt id = if id = full.storage.length then some entry.2 else full.scoreAt id := by
  unfold scoreAt
  rw [h]
  rcases Nat.lt_trichotomy id full.storage.length with hlt | rfl | hgt
  · rw [getElem?_append_left hlt, if_neg (Nat.ne_of_lt hlt)]
  · simp
  · have hout : (full.storage ++ [entry])[id]? = none := by
      rw [getElem?_eq_none_iff, length_append, length_singleton]
      omega
    rw [hout, if_neg (Nat.ne_of_gt hgt), getElem?_eq_none (Nat.le_of_lt hgt)]

theorem setScore_names :
    (full.setScore id score).storage.map Prod.fst = full.storage.map Prod.fst := by
  apply ext_getElem?
  intro position
  unfold setScore
  rw [getElem?_map, getElem?_map, getElem?_modify]
  cases full.storage[position]? with
  | none => rfl
  | some entry =>
    by_cases h : id = position
    · simp [h]
    · simp [h]

theorem memberView_eq : full.memberView id = ((full.storage.map Prod.fst)[id]?).getD [] := by
  rw [getElem?_map, memberView]

theorem setScore_memberView : (full.setScore id score).memberView = full.memberView := by
  funext other
  rw [memberView_eq, memberView_eq, setScore_names]

section

variable (h : full.scoreAt id = some old)
include h

theorem setScore_scoreAt (other : ℕ) :
    (full.setScore id score).scoreAt other =
      if other = id then some score else full.scoreAt other := by
  have hlt := lt_length_of_scoreAt h
  unfold scoreAt setScore
  by_cases hoth : id = other
  · subst hoth
    simp [hlt]
  · simp [hoth, Ne.symm hoth]

end

/-! ## The steps before the score index -/

theorem ensureUniqueMutableState_ends {kind : WriteKind} :
    Ends (ensureUniqueMutableState kind) full script
      (fun _ full' ↦ full' = { full with shared := false })
      (fun _ full' ↦ true ∈ script ∧ ∃ shared, full' = { full with shared := shared }) := by
  have hlast {rest : Script} (hrest : rest <:+ script) :
      Ends (Comp.when (kind = .structural) ensureMemoryGrowth)
      { full with shared := false } rest (fun _ full' ↦ full' = { full with shared := false })
      (fun _ full' ↦ true ∈ script ∧ ∃ shared, full' = { full with shared := shared }) :=
    ends_when (fun _ ↦ ensureMemoryGrowth_ends fun hrefused ↦ ⟨hrest.mem hrefused, false, rfl⟩)
      fun _ ↦ rfl
  apply ends_get_bind
  cases hshared : full.shared with
  | true =>
    rw [when_pos rfl, bind_assoc]
    refine ensureMemoryGrowth_bind_ends (fun hrefused ↦ ⟨hrefused, full.shared, rfl⟩) ?_
    intro rest hrest
    exact ends_set_bind (hlast hrest)
  | false =>
    have hsame : full = { full with shared := false } := by
      rw [← hshared]
    rw [hsame]
    exact hlast suffix_rfl

theorem ensureUniqueMutableState_returns {kind : WriteKind} :
    Returns (ensureUniqueMutableState kind : StoreComp (FullState σ) Unit) :=
  returns_get.bind fun _ ↦
    (returns_request.bind fun _ ↦ returns_set).when.bind fun _ ↦
      returns_request.when

theorem allocateMemberId_granted :
    Ends (allocateMemberId member score) full []
      (fun id full' ↦ refusal full.storage.length member = none ∧ id = full.storage.length ∧
        full' = { full with storage := full.storage ++ [(member, score)] })
      (fun thrown full' ↦ refusal full.storage.length member = some thrown ∧ full' = full) := by
  apply ends_get_bind
  refine ends_guard_bind (fun hmany ↦ ⟨if_pos hmany, rfl⟩) fun hfew ↦ ?_
  refine ends_guard_bind (fun hlong ↦ ⟨?_, rfl⟩) fun hshort ↦ ?_
  · rw [refusal, if_neg hfew, if_pos hlong]
  apply ends_request_bind
  · intro hrefused
    cases hrefused
  intro _
  apply ends_request_bind
  · intro hrefused
    cases hrefused
  intro _
  refine ends_set_bind (ends_pure ⟨?_, rfl, rfl⟩)
  rw [refusal, if_neg hfew, if_neg hshort]

/-- The member in the storage and in a slot, before it has an entry. -/
def pushed (member : Bytes) (score : σ) (full : FullState σ) : FullState σ :=
  { full with
    storage := full.storage ++ [(member, score)]
    slots := full.slots ++ [full.storage.length]
    shared := false }

theorem prepare_granted :
    Ends (prepare member score) full []
      (fun id full' ↦ refusal full.storage.length member = none ∧ id = full.storage.length ∧
        full' = full.pushed member score)
      (fun thrown full' ↦ refusal full.storage.length member = some thrown ∧
        full' = { full with shared := false }) := by
  apply (ensureUniqueMutableState_ends.of_returns ensureUniqueMutableState_returns).bind
  rintro _ _ rest hrest rfl
  obtain rfl := List.suffix_nil.mp hrest
  apply ends_request_bind
  · intro hrefused
    cases hrefused
  intro _
  refine Ends.bind allocateMemberId_granted ?_
  rintro _ _ rest hrest ⟨hroom, rfl, rfl⟩
  exact ends_modify_bind (ends_pure ⟨hroom, rfl, rfl⟩)

/-! ## The entry of a new member -/

theorem eq_mk_iff {entry : ScoreEntry σ} :
    entry = ⟨score, id⟩ ↔ entry.score = score ∧ entry.memberId = id := by
  cases entry
  simp

variable [Score σ] [LawfulScore σ]

section

variable (h : Intact options full) (hscore : Score.isNan score = false)
  (hfresh : ∀ entry ∈ full.storage, entry.1 ≠ member)
include h hscore hfresh

/-- The three parts with a new member in each. -/
theorem Intact.pushed {index : ScoreIndex σ} (hshape : Shape options.index index)
    (hlist : index.toList = place (less (full.pushed member score).memberView · ⟨score,
      full.storage.length⟩) ⟨score, full.storage.length⟩ full.scoreIndex.toList) :
    Intact options { full.pushed member score with scoreIndex := index } := by
  have hsto : (full.pushed member score).storage = full.storage ++ [(member, score)] := rfl
  have hsorted := h.sorted.congr fun entry hent ↦ memberView_append hsto (h.lt_length hent)
  refine ⟨?_, ?_, ?_, ?_, hshape, ?_, ?_⟩
  · show ((full.storage ++ [(member, score)]).map Prod.fst).Nodup
    rw [map_append, nodup_append']
    refine ⟨h.names, by simp, ?_⟩
    intro name hname hsame
    obtain ⟨entry, hent, rfl⟩ := mem_map.mp hname
    exact hfresh entry hent (by simpa using hsame)
  · intro entry hent
    rcases mem_append.mp hent with hold | hnew
    · exact h.numbers entry hold
    · rw [mem_singleton.mp hnew]
      exact hscore
  · show (full.slots ++ [full.storage.length]).Nodup
    rw [nodup_append']
    refine ⟨h.slots_nodup, by simp, ?_⟩
    intro id hid hsame
    rw [mem_singleton.mp hsame, h.mem_slots] at hid
    exact Nat.lt_irrefl _ hid
  · intro id
    show id ∈ full.slots ++ [full.storage.length] ↔ id < (full.storage ++ [(member, score)]).length
    rw [mem_append, mem_singleton, h.mem_slots, length_append, length_singleton]
    omega
  · rw [hlist]
    apply hsorted.place hscore
    intro entry hent
    have hlt := h.lt_length hent
    rw [memberView_append hsto hlt, memberView_last hsto]
    exact hfresh _ (mem_of_getElem? (scoreAt_eq_some ((h.mem_index entry).mp hent)))
  · intro entry
    show entry ∈ index.toList ↔ (full.pushed member score).scoreAt entry.memberId = some entry.score
    rw [hlist, mem_place, scoreAt_append hsto, h.mem_index, eq_mk_iff]
    by_cases hid : entry.memberId = full.storage.length
    · have hnone : full.scoreAt full.storage.length = none := by simp [scoreAt]
      simp [hnone, hid, eq_comm]
    · simp [hid]

theorem Intact.insertScore_granted {E : Thrown → FullState σ → Prop} :
    Ends (insertScore options score full.storage.length) (full.pushed member score) []
      (fun _ full' ↦ Intact options full' ∧ full'.storage = full.storage ++ [(member, score)] ∧
        full'.shared = false) E := by
  have hsto : (full.pushed member score).storage = full.storage ++ [(member, score)] := rfl
  have hsorted := h.sorted.congr fun entry hent ↦ memberView_append hsto (h.lt_length hent)
  have hcuts : Cuts (less (full.pushed member score).memberView · ⟨score, full.storage.length⟩)
      full.scoreIndex.toList := hsorted.cuts hscore
  apply ends_get_bind
  refine Ends.zoom ((insert_ends options.load_pos h.shape hcuts).of_returns (F := fun _ _ ↦ False)
    insert_returns) ?_ fun _ _ hthr ↦ hthr.elim
  rintro _ index ⟨hlist, hshape⟩
  exact ⟨h.pushed hscore hfresh hshape hlist, rfl, rfl⟩

end

section

variable (h : Intact options full) (hscore : Score.isNan score = false)
include h hscore

theorem Intact.append_granted (hfresh : ∀ entry ∈ full.storage, entry.1 ≠ member) :
    Ends (append options member score) full []
      (fun _ full' ↦ refusal full.storage.length member = none ∧ Intact options full' ∧
        full'.storage = full.storage ++ [(member, score)] ∧ full'.shared = false)
      (fun thrown full' ↦ refusal full.storage.length member = some thrown ∧
        full' = { full with shared := false }) := by
  apply prepare_granted.bind
  rintro _ _ rest hrest ⟨hroom, rfl, rfl⟩
  obtain rfl := suffix_nil.mp hrest
  have hinsert := h.insertScore_granted (E := fun _ _ ↦ False) hscore hfresh
  exact (hinsert.mono_ok fun _ _ hdone ↦ ⟨hroom, hdone⟩).tryCatch fun _ _ _ _ hthr ↦ hthr.elim

/-! ## The entry of a known member -/

omit [LawfulScore σ] h hscore in
theorem updateScore_returns : Returns (updateScore options id old score) :=
  ensureUniqueMutableState_returns.bind fun _ ↦ Returns.tryCatch <|
    returns_request.bind fun _ ↦ returns_modify.bind fun _ ↦
      returns_request.when.bind fun _ ↦ returns_get.bind fun _ ↦
        rescore_returns.zoom.bind fun _ ↦ returns_modify.when.bind fun _ ↦ returns_pure

/-- The three parts with another score of a member. -/
theorem Intact.setScore [DecidableEq σ] {shared : Bool} (hold : full.scoreAt id = some old)
    (hne : old ≠ score) {index : ScoreIndex σ}
    (hmoved : Moved options.index (less full.memberView · ⟨score, id⟩) ⟨old, id⟩ ⟨score, id⟩
      full.scoreIndex index) :
    Intact options { full.setScore id score with scoreIndex := index, shared := shared } := by
  have hmem : (⟨old, id⟩ : ScoreEntry σ) ∈ full.scoreIndex.toList := (h.mem_index _).mpr hold
  have hents : (⟨old, id⟩ : ScoreEntry σ) ≠ ⟨score, id⟩ := fun heq ↦
    hne (congrArg ScoreEntry.score heq)
  have hlist := hmoved.1
  rw [place_erase h.sorted.nodup (h.not_mem_index hold hne) hents] at hlist
  have hmemIndex : ∀ entry, entry ∈ index.toList ↔
      (full.setScore id score).scoreAt entry.memberId = some entry.score := by
    intro entry
    rw [hlist, mem_place, h.sorted.nodup.mem_erase_iff, h.mem_index, setScore_scoreAt hold,
      eq_mk_iff, ne_eq, eq_mk_iff]
    by_cases hid : entry.memberId = id
    · simp [hid, hold, eq_comm]
    · simp [hid]
  have hlen : (full.setScore id score).storage.length = full.storage.length := by
    simp [FullState.setScore]
  refine ⟨?_, ?_, h.slots_nodup, ?_, hmoved.2, ?_, hmemIndex⟩
  · rw [setScore_names]
    exact h.names
  · intro entry hent
    obtain ⟨position, hget⟩ := mem_iff_getElem?.mp hent
    have hat : (full.setScore id score).scoreAt position = some entry.2 := by
      simp only [scoreAt]
      rw [show (full.setScore id score).storage[position]? = some entry from hget]
      rfl
    rw [setScore_scoreAt hold] at hat
    split at hat
    · rw [← Option.some.inj hat]
      exact hscore
    · have hnum := h.numbers _ (mem_of_getElem? (scoreAt_eq_some hat))
      exact hnum
  · intro other
    rw [hlen]
    exact h.mem_slots other
  · show Sorted (full.setScore id score).memberView index.toList
    rw [setScore_memberView, hlist]
    apply (h.sorted.sublist erase_sublist).place hscore
    intro entry hent hname
    obtain ⟨hoth, hent⟩ := h.sorted.nodup.mem_erase_iff.mp hent
    have hid := h.memberView_inj (h.lt_length hent) (lt_length_of_scoreAt hold) hname
    exact hoth (h.eq_of_memberId hent hmem hid)

theorem Intact.updateScore_ends [DecidableEq σ] (hold : full.scoreAt id = some old)
    (hne : old ≠ score) :
    Ends (updateScore options id old score) full script
      (fun rescored full' ↦ rescored = true ∧ Intact options full' ∧
        full'.storage = (full.setScore id score).storage ∧ full'.shared = false)
      (fun _ _ ↦ True) := by
  have hmem : (⟨old, id⟩ : ScoreEntry σ) ∈ full.scoreIndex.toList := (h.mem_index _).mpr hold
  apply (ensureUniqueMutableState_ends.mono_throw fun _ _ _ ↦ trivial).bind
  rintro _ unique rest _ rfl
  refine Ends.tryCatch (F := fun _ _ ↦ True) ?_ ?_
  · refine ensureMemoryGrowth_bind_ends (fun _ ↦ trivial) ?_
    intro rest' _
    apply ends_modify_bind
    refine Ends.bind (ends_when (fun _ ↦ ensureMemoryGrowth_ends fun _ ↦ trivial) fun _ ↦ rfl) ?_
    rintro _ written rest'' _ rfl
    apply ends_get_bind
    have hview : (FullState.setScore id score { full with shared := false }).memberView =
        full.memberView := setScore_memberView
    rw [hview]
    refine Ends.bind (Q := fun rescored full' ↦ rescored = true ∧ Intact options full' ∧
        full'.storage = (full.setScore id score).storage ∧ full'.shared = false) ?_ ?_
    · refine Ends.zoom (rescore_ends options.load_pos h.shape h.sorted h.distinctIds hmem
        hscore (h.not_mem_index hold hne)) ?_ fun _ _ _ ↦ trivial
      rintro rescored index ⟨hdone, hmoved⟩
      exact ⟨hdone, h.setScore hscore hold hne hmoved, rfl, rfl⟩
    · rintro rescored full' rest3 _ ⟨rfl, hdone⟩
      exact ends_pure ⟨rfl, hdone⟩
  · intro thrown full' rest' _ _
    apply ends_modify_bind
    exact ends_throw trivial

end

/-! ## Both cases of `add` -/

omit [LawfulScore σ] in
/-- The storage after `setScore` as a map. -/
theorem Intact.lookup_setScore (h : Intact options full) (hold : full.scoreAt id = some old)
    (hnames : ((full.setScore id score).storage.map Prod.fst).Nodup) :
    lookup (full.setScore id score).storage =
      Function.update (lookup full.storage) (full.memberView id) (some score) := by
  have hlt := lt_length_of_scoreAt hold
  have hmem (name : Bytes) (found : σ) (state : FullState σ) : (name, found) ∈ state.storage ↔
      ∃ other, other < state.storage.length ∧ state.memberView other = name ∧
        state.scoreAt other = some found := by
    rw [mem_iff_getElem?]
    exact exists_congr fun other ↦ storage_eq_some_iff
  have hlen : (full.setScore id score).storage.length = full.storage.length := by
    simp [FullState.setScore]
  funext name
  apply Option.ext
  intro found
  rw [lookup_eq_some_iff hnames, hmem, hlen, setScore_memberView]
  by_cases hname : name = full.memberView id
  · subst hname
    rw [Function.update_self]
    constructor
    · rintro ⟨other, hoth, hview, hscoreAt⟩
      obtain rfl := h.memberView_inj hoth hlt hview
      rwa [setScore_scoreAt hold, if_pos rfl] at hscoreAt
    · intro hfnd
      exact ⟨id, hlt, rfl, by rw [setScore_scoreAt hold, if_pos rfl, hfnd]⟩
  · rw [Function.update_of_ne hname, lookup_eq_some_iff h.names, hmem]
    refine exists_congr fun other ↦ and_congr_right fun _ ↦ and_congr_right fun hview ↦ ?_
    have hoth : other ≠ id := fun heq ↦ hname (heq ▸ hview.symm)
    rw [setScore_scoreAt hold, if_neg hoth]

/-- `add` on the full representation, for a score that the member does not have yet. -/
theorem Intact.addFull_granted [DecidableEq σ] (h : Intact options full)
    (hscore : Score.isNan score = false)
    (hnew : ∀ old, full.score member = some old → Score.eq old score = false) :
    Ends (addFull options member score) full []
      (fun mutation full' ↦ mutation =
          { status := .applied, added := (full.score member).isNone, changed := true,
            score := some score } ∧
        Intact options full' ∧
        lookup full'.storage = Function.update (lookup full.storage) member (some score) ∧
        full'.shared = false ∧
        (full.score member = none → refusal full.storage.length member = none))
      (fun thrown full' ↦ full' = { full with shared := false } ∧ full.score member = none ∧
        refusal full.storage.length member = some thrown) := by
  apply ends_get_bind
  cases hfind : full.find member with
  | some id =>
    obtain ⟨hlt, rfl⟩ := h.find_eq_some_iff.mp hfind
    obtain ⟨old, hold⟩ := exists_scoreAt hlt
    have hstored : full.score (full.memberView id) = some old := by
      rw [FullState.score, hfind, Option.bind_some, hold]
    have hne : old ≠ score := by
      intro heq
      have hself := hnew old hstored
      rw [heq, LawfulScore.eq_eq _ _ hscore hscore, LawfulScore.lt_irrefl] at hself
      exact absurd hself (by decide)
    dsimp only
    rw [hold]
    apply ((h.updateScore_ends hscore hold hne).of_returns updateScore_returns).bind
    rintro rescored full' rest _ ⟨rfl, hintact, hsto, hshared⟩
    refine ends_pure ⟨?_, hintact, ?_, hshared, fun hnone ↦ ?_⟩
    · simp [hstored]
    · rw [hsto]
      exact h.lookup_setScore hold (hsto ▸ hintact.names)
    · cases hstored.symm.trans hnone
  | none =>
    have hnone : full.score member = none := by rw [FullState.score, hfind, Option.bind_none]
    have hfresh := lookup_eq_none_iff.mp (h.score_eq ▸ hnone)
    refine ((h.append_granted hscore hfresh).mono_throw fun _ _ hthr ↦
      ⟨hthr.2, hnone, hthr.1⟩).bind ?_
    rintro _ full' rest _ ⟨hroom, hintact, hsto, hshared⟩
    refine ends_pure ⟨by simp [hnone], hintact, ?_, hshared, fun _ ↦ hroom⟩
    rw [hsto]
    exact lookup_concat (hsto ▸ hintact.names)

/-! ## The replay of a listpack -/

theorem Intact.replayEntry_granted (h : Intact options full) (hscore : Score.isNan entry.2 = false)
    (hfresh : ∀ other ∈ full.storage, other.1 ≠ entry.1) (hshared : full.shared = false)
    (hroom : refusal full.storage.length entry.1 = none) :
    Ends (replayEntry options entry) full []
      (fun _ full' ↦ Intact options full' ∧ full'.storage = full.storage ++ [entry] ∧
        full'.shared = false)
      (fun _ _ ↦ False) := by
  refine (allocateMemberId_granted.mono_throw fun _ _ hthr ↦ ?_).bind ?_
  · rw [hroom] at hthr
    cases hthr.1
  rintro id stored rest hrest ⟨-, rfl, rfl⟩
  obtain rfl := suffix_nil.mp hrest
  apply ends_request_bind
  · intro hrefused
    cases hrefused
  intro _
  apply ends_modify_bind
  have hpushed : insertSlot full.storage.length
      { full with storage := full.storage ++ [(entry.1, entry.2)] } =
      full.pushed entry.1 entry.2 := by
    simp [insertSlot, FullState.pushed, hshared]
  rw [hpushed]
  exact h.insertScore_granted hscore hfresh

theorem Intact.replay_granted {entries : List (Bytes × σ)} (h : Intact options full)
    (hnums : ∀ entry ∈ entries, Score.isNan entry.2 = false)
    (hnames : ((full.storage ++ entries).map Prod.fst).Nodup) (hshared : full.shared = false)
    (hfew : full.storage.length + entries.length < 2 ^ 32 - 1)
    (hshort : ∀ entry ∈ entries, entry.1.length ≤ 65535) :
    Ends (replay options entries) full []
      (fun _ full' ↦ Intact options full' ∧ full'.storage = full.storage ++ entries)
      (fun _ _ ↦ False) := by
  induction entries generalizing full with
  | nil => exact ends_pure ⟨h, by simp⟩
  | cons entry rest ih =>
    have hfresh : ∀ other ∈ full.storage, other.1 ≠ entry.1 := by
      intro other hoth hname
      rw [map_append, nodup_append] at hnames
      exact hnames.2.2 other.1 (mem_map_of_mem hoth) entry.1 (by simp) hname
    rw [length_cons] at hfew
    have hroom : refusal full.storage.length entry.1 = none := by
      have hlen := hshort entry mem_cons_self
      rw [refusal, if_neg (by omega), if_neg (by omega)]
    apply (h.replayEntry_granted (hnums entry mem_cons_self) hfresh hshared hroom).bind
    rintro _ full' script hscript ⟨hintact, hsto, hshared'⟩
    obtain rfl := suffix_nil.mp hscript
    have hnames' : ((full'.storage ++ rest).map Prod.fst).Nodup := by
      rw [hsto, append_assoc]
      exact hnames
    have hlen : full'.storage.length = full.storage.length + 1 := by rw [hsto, length_append]; rfl
    refine (ih hintact (fun other hoth ↦ hnums other (mem_cons_of_mem _ hoth)) hnames' hshared'
      (by omega) fun other hoth ↦ hshort other (mem_cons_of_mem _ hoth)).mono_ok ?_
    rintro _ done ⟨hdone, hdoneStorage⟩
    refine ⟨hdone, ?_⟩
    rw [hdoneStorage, hsto, append_assoc]
    rfl

end GoblinCore.SortedSet.FullState
