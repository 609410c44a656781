import GoblinCore.ZSets.FullStateRemoval
import GoblinCore.ZSets.Queries

/-!
# What a change does to the map

Each operation of `ZSet` when no memory is refused: the new map, the answer, and that a member layer
with other users is left as it is.
-/

namespace GoblinCore.SortedSet

open Refusable MemoryLimit Ordered Ranking ScoreIndex Function Comp Listpack
open List hiding lookup
open CompactListpack (maxMemberLen maxBlobBytes)

variable {σ : Type} [Score σ] {options : ZSetOptions}

namespace ZSet

variable {zset zset' : ZSet σ} {map : Bytes → Option σ} {member : Bytes} {score : σ}

/-! ## Back to the listpack -/

/-- A listpack with entries of a sound one only. -/
theorem sound_of_subset {lp lp' : Listpack σ} (h : lp.Sound) (hranked : Ranked lp'.entries)
    (hsubset : ∀ entry ∈ lp'.entries, entry ∈ lp.entries) : lp'.Sound :=
  ⟨hranked, fun entry hent ↦ h.short entry (hsubset entry hent),
    (hranked.nodup.subperm hsubset).length_le.trans h.few⟩

theorem sound_empty : ({} : Listpack σ).Sound := ⟨ranked_nil, by simp, by simp⟩

section Demote

variable [LawfulScore σ]

/-- A listpack built from the entries of a full sorted set, if it takes them all. -/
theorem demoted_ends {front entries : List (Bytes × σ)} {lp : Listpack σ} (h : lp.Sound)
    (hlp : lookup lp.entries = lookup front)
    (hnums : ∀ entry ∈ entries, Score.isNan entry.2 = false)
    (hnames : ((front ++ entries).map Prod.fst).Nodup) :
    Ends (demoted options entries) lp []
      (fun built lp' ↦ built = true → lp'.Sound ∧ lookup lp'.entries = lookup (front ++ entries))
      (fun _ _ ↦ False) := by
  induction entries generalizing front lp with
  | nil =>
    refine ends_pure fun _ ↦ ⟨h, ?_⟩
    rw [hlp, append_nil]
  | cons entry rest ih =>
    have hfront : ((front ++ [(entry.1, entry.2)]).map Prod.fst).Nodup := by
      rw [← singleton_append, ← append_assoc, map_append] at hnames
      exact (nodup_append'.mp hnames).1
    have hnone : lp.score entry.1 = none := by
      rw [Listpack.score, hlp, lookup_eq_none_iff]
      intro other hoth hname
      rw [map_append, nodup_append'] at hfront
      exact hfront.2.2 (mem_map_of_mem hoth) (by simp [hname])
    have hnew : ∀ old, lp.score entry.1 = some old → Score.eq old entry.2 = false := by
      intro old hold
      rw [hnone] at hold
      cases hold
    apply ((add_ends h.ranked (hnums entry mem_cons_self) hnew).of_returns
      add_returns).bind
    rintro result lp' script hscript (⟨-, hfull, rfl⟩ | ⟨hfits, rfl, hranked, hlkp⟩)
    · rw [if_pos hfull]
      exact ends_pure fun hbuilt ↦ by cases hbuilt
    obtain rfl := suffix_nil.mp hscript
    have hlp' : lookup lp'.entries = lookup (front ++ [entry]) := by
      rw [hlkp, hlp, lookup_concat hfront]
    have hnames' : ((front ++ [entry] ++ rest).map Prod.fst).Nodup := by
      rwa [append_assoc]
    have hrest := ih (sound_of_added h hfits hranked hlkp) hlp'
      (fun other hoth ↦ hnums other (mem_cons_of_mem _ hoth)) hnames'
    rwa [append_assoc] at hrest

/-- `maybe_demote_to_small` keeps the map, in whichever representation. -/
theorem maybeDemoteToSmall_becomes (h : zset.Valid options) :
    Ends (maybeDemoteToSmall options) zset []
      (fun _ zset' ↦ Becomes options (lookup zset.contents) zset zset') (fun _ _ ↦ False) := by
  apply ends_get_bind
  cases zset with
  | small lp => exact ends_pure (Becomes.refl h)
  | full state =>
    have hst : state.Intact options := h
    dsimp only
    split
    · exact ends_pure (Becomes.refl h)
    have hbuilt : Ends (demoted options state.ranked) {} [] _ fun _ _ ↦ False :=
      demoted_ends sound_empty rfl hst.ranked.numbers hst.ranked.names
    refine Ends.tryCatch (F := fun _ _ ↦ False) ?_ fun _ _ _ _ hthr ↦ hthr.elim
    refine (hbuilt.scratch (R := fun built zset' ↦ zset' = full state ∧ (built.1 = true →
      built.2.Sound ∧ lookup built.2.entries = lookup state.ranked)) ?_ fun _ _ hthr ↦ hthr).bind ?_
    · exact fun _ _ hdone ↦ ⟨rfl, hdone⟩
    rintro built _ rest _ ⟨rfl, hdone⟩
    apply ends_when
    · intro hsmall
      obtain ⟨hsound, hlkp⟩ := hdone hsmall
      refine ends_set ⟨hsound, ?_, frames_of_unshared rfl⟩
      exact hlkp.trans hst.lookup_ranked
    · intro _
      exact Becomes.refl h

end Demote

/-! ## Removing -/

section Remove

variable [LawfulScore σ] [DecidableEq σ]

/-- `remove` removes the member. -/
theorem remove_becomes (h : zset.Valid options) :
    Ends (remove options member) zset []
      (fun erased zset' ↦ erased = (lookup zset.contents member).isSome ∧
        Becomes options (update (lookup zset.contents) member none) zset zset')
      (fun _ _ ↦ False) := by
  apply ends_get_bind
  cases zset with
  | small lp =>
    have hlp : lp.Sound := h
    refine Ends.zoom ((remove_ends hlp.ranked).of_returns (F := fun _ _ ↦ False)
      remove_returns) ?_ fun _ _ hthr ↦ hthr
    rintro removed lp' ⟨rfl, hranked, hlkp⟩
    refine ⟨rfl, sound_of_subset hlp hranked ?_, hlkp, frames_of_unshared rfl⟩
    intro entry hent
    have hfnd := (lookup_eq_some_iff hranked.names).mpr hent
    rw [hlkp] at hfnd
    by_cases hname : entry.1 = member
    · rw [hname, update_self] at hfnd
      cases hfnd
    · rwa [update_of_ne hname, lookup_eq_some_iff hlp.ranked.names] at hfnd
  | full state =>
    have hst : state.Intact options := h
    refine Ends.bind (Q := fun erased zset' ↦ erased = (lookup state.storage member).isSome ∧
      Becomes options (update (lookup state.storage) member none) (full state) zset') ?_ ?_
    · refine Ends.zoom (hst.removeFull_ends options.quiet_nil) ?_ fun _ _ hthr ↦
        absurd hthr.1 not_mem_nil
      rintro erased state' ⟨rfl, hdone⟩
      rw [hst.score_eq] at hdone ⊢
      refine ⟨rfl, ?_⟩
      split at hdone
      · exact ⟨hdone.intact, hdone.lookup, frames_of_unshared hdone.shared⟩
      next hnone =>
      obtain rfl := hdone
      have hnone : lookup state'.storage member = none := by simpa using hnone
      rw [← hnone, update_eq_self]
      exact Becomes.refl h
    rintro erased zset' rest hrest ⟨rfl, hbecomes⟩
    obtain rfl := suffix_nil.mp hrest
    refine Ends.bind (Q := fun _ ↦ Becomes options _ (full state))
      (ends_when (fun _ ↦ ?_) fun _ ↦ hbecomes) ?_
    · refine (maybeDemoteToSmall_becomes hbecomes.valid).mono ?_ fun _ _ hthr ↦ hthr.elim
      intro _ zset'' hdemoted
      rw [hbecomes.map_eq] at hdemoted
      exact hbecomes.trans hdemoted
    intro _ zset'' rest _ hdone
    exact ends_pure ⟨rfl, hdone⟩

/-- The names go one by one. -/
theorem removeAll_becomes (h : zset.Valid options) (names : List Bytes) :
    Ends (removeAll options names) zset []
      (fun _ zset' ↦ Becomes options
        (fun member ↦ if member ∈ names then none else lookup zset.contents member) zset zset')
      (fun _ _ ↦ False) := by
  induction names generalizing zset with
  | nil => exact ends_pure (by simpa using Becomes.refl h)
  | cons name rest ih =>
    apply ((remove_becomes h).mono_ok fun _ _ hrem ↦ hrem.2).discard.bind
    intro _ zset' script hscript hbecomes
    obtain rfl := suffix_nil.mp hscript
    refine (ih hbecomes.valid).mono_ok ?_
    intro _ zset'' hrest
    have hmap : (fun member ↦ if member ∈ rest then none else lookup zset'.contents member) =
        fun member ↦ if member ∈ name :: rest then none else lookup zset.contents member := by
      funext member
      rw [hbecomes.map_eq]
      by_cases hname : member = name
      · simp [hname]
      · simp [hname]
    rw [hmap] at hrest
    exact hbecomes.trans hrest

variable {min max : σ} {minExclusive maxExclusive : Bool}

omit [DecidableEq σ] in
theorem Valid.namesInRange_eq (h : zset.Valid options) :
    zset.namesInRange min minExclusive max maxExclusive =
      (within min minExclusive max maxExclusive zset.ranked).map Prod.fst := by
  cases zset with
  | small lp => rfl
  | full state =>
    have hst : state.Intact options := h
    rw [ZSet.ranked, ← drop_take_bounds hst, FullState.ranked, map_take, map_drop, map_map]
    simp only [namesInRange, forRange_eq hst.shape, map_take, map_drop]
    rfl

/-- The map without the scores in a range. -/
def outside (min : σ) (minExclusive : Bool) (max : σ) (maxExclusive : Bool)
    (map : Bytes → Option σ) (member : Bytes) : Option σ :=
  (map member).filter fun score ↦ !inRange min minExclusive max maxExclusive score

theorem removeByScoreRange_becomes (h : zset.Valid options) :
    Ends (removeByScoreRange options min minExclusive max maxExclusive) zset []
      (fun count zset' ↦ count = (within min minExclusive max maxExclusive zset.ranked).length ∧
        Becomes options (outside min minExclusive max maxExclusive (lookup zset.contents))
          zset zset')
      (fun _ _ ↦ False) := by
  apply ends_get_bind
  rw [h.namesInRange_eq]
  apply (removeAll_becomes h _).bind
  intro _ zset' rest _ hbecomes
  refine ends_pure ⟨length_map _, ?_⟩
  have hmap : (fun member ↦ if member ∈ (within min minExclusive max maxExclusive zset.ranked).map
      Prod.fst then none else lookup zset.contents member) =
      outside min minExclusive max maxExclusive (lookup zset.contents) := by
    funext member
    have hmem : member ∈ (within min minExclusive max maxExclusive zset.ranked).map Prod.fst ↔
        ∃ score, lookup zset.contents member = some score ∧
          inRange min minExclusive max maxExclusive score = true := by
      rw [mem_map, ← h.lookup_ranked]
      constructor
      · rintro ⟨entry, hent, rfl⟩
        obtain ⟨hent, hrange⟩ := mem_filter.mp hent
        exact ⟨entry.2, (lookup_eq_some_iff h.ranked.names).mpr hent, hrange⟩
      · rintro ⟨score, hscore, hrange⟩
        have hent := (lookup_eq_some_iff h.ranked.names).mp hscore
        exact ⟨(member, score), mem_filter.mpr ⟨hent, hrange⟩, rfl⟩
    unfold outside
    cases hscore : lookup zset.contents member with
    | none => simp
    | some score =>
      rw [hscore] at hmem
      cases hrange : inRange min minExclusive max maxExclusive score with
      | true => simp [hmem, hrange, Option.filter]
      | false => simp [hmem, hrange, Option.filter]
  rwa [hmap] at hbecomes

end Remove

/-! ## Compacting -/

section Compact

variable [LawfulScore σ]

theorem intact_compacted {state : FullState σ} (h : state.Intact options) :
    (FullState.compacted options state).Intact options := by
  have hranked := h.ranked
  have hlist : (FullState.compacted options state).scoreIndex.toList =
      state.ranked.zipIdx.map fun entry ↦ ⟨entry.1.2, entry.2⟩ :=
    assignSorted_toList options.load_pos
  have hview : ∀ entry ∈ state.ranked.zipIdx,
      (FullState.compacted options state).memberView entry.2 = entry.1.1 := by
    intro entry hent
    have hget := mem_zipIdx_iff_getElem?.mp hent
    simp [FullState.memberView, FullState.compacted, hget]
  refine ⟨hranked.names, hranked.numbers, nodup_range, fun id ↦ mem_range,
    assignSorted_shape options.load_pos, ?_, ?_⟩
  · rw [hlist]
    constructor
    · intro entry hent
      obtain ⟨⟨named, id⟩, hmem, rfl⟩ := mem_map.mp hent
      exact hranked.numbers named (mem_of_getElem? (mem_zipIdx_iff_getElem?.mp hmem))
    · rw [pairwise_map]
      have hordered : state.ranked.zipIdx.Pairwise fun first second ↦
          Precedes first.1 second.1 := by
        rw [← pairwise_map (f := Prod.fst), zipIdx_map_fst]
        exact hranked.ordered
      refine hordered.imp_of_mem ?_
      intro first second hfst hsnd hbef
      rw [less_iff, named, named]
      rwa [hview first hfst, hview second hsnd]
  · intro entry
    rw [hlist, mem_map]
    constructor
    · rintro ⟨⟨named, id⟩, hmem, rfl⟩
      have hget := mem_zipIdx_iff_getElem?.mp hmem
      simp [FullState.scoreAt, FullState.compacted, hget]
    · intro hscore
      obtain ⟨named, hget, hsame⟩ := Option.map_eq_some_iff.mp hscore
      exact ⟨(named, entry.memberId), mem_zipIdx_iff_getElem?.mpr hget, by rw [hsame]⟩

theorem compact_becomes (h : zset.Valid options) :
    Ends (compact options) zset []
      (fun _ zset' ↦ Becomes options (lookup zset.contents) zset zset') (fun _ _ ↦ False) := by
  apply ends_get_bind
  refine ends_when (fun _ ↦ ?_) fun _ ↦ Becomes.refl h
  cases zset with
  | small lp =>
    have hlp : lp.Sound := h
    have hoptimize : Ends Listpack.optimize lp [] (fun _ lp' ↦ lp'.entries = lp.entries)
        (fun _ _ ↦ False) := optimize_ends.of_returns optimize_returns
    refine Ends.zoom hoptimize ?_ fun _ _ hthr ↦ hthr
    intro _ lp' hents
    refine ⟨sound_of_subset hlp (hents ▸ hlp.ranked) fun entry hent ↦ hents ▸ hent, ?_,
      frames_of_unshared rfl⟩
    rw [contents, contents, hents]
  | full state =>
    have hst : state.Intact options := h
    apply ends_request_bind
    · intro hrefused
      cases hrefused
    intro _
    refine ends_set ⟨intact_compacted hst, ?_, frames_of_unshared rfl⟩
    exact hst.lookup_ranked

end Compact

end ZSet

end GoblinCore.SortedSet
