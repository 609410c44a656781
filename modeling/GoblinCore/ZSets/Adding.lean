import GoblinCore.ZSets.FullStateSteps
import Mathlib.Algebra.Order.BigOperators.Group.List

/-!
# Adding to a sorted set

What `ZSet::add` does when no memory is refused, in either representation and when a listpack is
outgrown on the way: the map has the new score, and the parts of the representation agree.  A member
layer with other users is left as it is.
-/

namespace GoblinCore.SortedSet

open Refusable MemoryLimit Ordered Ranking ScoreIndex Comp ChunkedSortedList Function
open GoblinCore.SortedSet.FullState
open List hiding lookup
open CompactListpack (maxMemberLen maxBlobBytes wireHeaderBytes elementSize)

variable {σ : Type} {options : ZSetOptions}

/-- The part of a full sorted set that several of them may refer to. -/
structure Layer (σ : Type) where
  storage : List (Bytes × σ)
  slots : List ℕ

variable [Score σ]

/-- The entries of a listpack are in order, and it is within its bounds. -/
structure Listpack.Sound (lp : Listpack σ) : Prop where
  ranked : Ranked lp.entries
  short : ∀ entry ∈ lp.entries, entry.1.length ≤ maxMemberLen
  few : lp.entries.length ≤ maxBlobBytes

namespace ZSet

def layer : ZSet σ → Option (Layer σ)
  | small _ => none
  | full state => some ⟨state.storage, state.slots⟩

def shared : ZSet σ → Bool
  | small _ => false
  | full state => state.shared

/-- A layer that is still shared has not been written. -/
def Frames (zset zset' : ZSet σ) : Prop :=
  zset'.shared = true → zset.shared = true ∧ zset'.layer = zset.layer

/-- What every operation keeps. -/
def Valid (options : ZSetOptions) : ZSet σ → Prop
  | small lp => lp.Sound
  | full state => state.Intact options

/-- The members with their scores, in the order of the representation. -/
def contents : ZSet σ → List (Bytes × σ)
  | small lp => lp.entries
  | full state => state.storage

variable {zset zset' zset'' : ZSet σ} {map map' : Bytes → Option σ} {member : Bytes} {score : σ}
  {script : Script}

section

variable (h : zset.Valid options)
include h

theorem score_eq_lookup (member : Bytes) : zset.score member = lookup zset.contents member := by
  cases zset with
  | small lp => rfl
  | full state => exact h.score_eq

theorem Valid.checkInvariants [LawfulScore σ] (hroomy : Roomy options.index) :
    zset.checkInvariants options = true := by
  cases zset with
  | small lp => rfl
  | full state => exact FullState.Intact.checkInvariants h hroomy

theorem Valid.numbers : ∀ entry ∈ zset.contents, Score.isNan entry.2 = false := by
  cases zset with
  | small lp => exact h.ranked.numbers
  | full state => exact h.numbers

theorem Valid.names : (zset.contents.map Prod.fst).Nodup := by
  cases zset with
  | small lp => exact h.ranked.names
  | full state => exact h.names

end

omit [Score σ] in
theorem Frames.refl (zset : ZSet σ) : Frames zset zset := fun hshared ↦ ⟨hshared, rfl⟩

omit [Score σ] in
theorem Frames.trans (h : Frames zset zset') (h' : Frames zset' zset'') : Frames zset zset'' := by
  intro hshared
  obtain ⟨hbetween, hlayer'⟩ := h' hshared
  obtain ⟨hbef, hlayer⟩ := h hbetween
  exact ⟨hbef, hlayer'.trans hlayer⟩

omit [Score σ] in
theorem frames_of_unshared (h : zset'.shared = false) : Frames zset zset' := by
  intro hshared
  rw [h] at hshared
  cases hshared

/-- The sorted set is valid and stands for the map, and no shared layer was written. -/
structure Becomes (options : ZSetOptions) (map : Bytes → Option σ)
    (zset zset' : ZSet σ) : Prop where
  valid : zset'.Valid options
  map_eq : lookup zset'.contents = map
  frames : Frames zset zset'

theorem Becomes.refl (h : zset.Valid options) : Becomes options (lookup zset.contents) zset zset :=
  ⟨h, rfl, Frames.refl zset⟩

theorem Becomes.trans (h : Becomes options map zset zset')
    (h' : Becomes options map' zset' zset'') :
    Becomes options map' zset zset'' :=
  ⟨h'.valid, h'.map_eq, h.frames.trans h'.frames⟩

/-- What `add` has done when it returns and the member has a new score. -/
def Added (options : ZSetOptions) (score : σ) (member : Bytes) (zset : ZSet σ)
    (mutation : ZAddMutation σ) (zset' : ZSet σ) : Prop :=
  mutation = { status := .applied, added := (zset.score member).isNone, changed := true,
               score := some score } ∧
    Becomes options (update (lookup zset.contents) member (some score)) zset zset' ∧
    (zset.score member = none → refusal zset.size member = none)

/-- What it has done when it throws although no memory is refused. -/
def Refused (options : ZSetOptions) (member : Bytes) (zset : ZSet σ) (thrown : Thrown)
    (zset' : ZSet σ) : Prop :=
  zset.score member = none ∧ refusal zset.size member = some thrown ∧
    Becomes options (lookup zset.contents) zset zset'

section Decide

variable [LawfulScore σ] {addOptions : ZAddOptions} {old : Option σ}

theorem eq_comm_of_numbers {first second : σ} (hfst : Score.isNan first = false)
    (hsnd : Score.isNan second = false) : Score.eq first second = Score.eq second first := by
  rw [LawfulScore.eq_eq _ _ hfst hsnd, LawfulScore.eq_eq _ _ hsnd hfst, Bool.and_comm]

omit [LawfulScore σ] in
theorem changed_cases (h : (Scores.decide addOptions old score).changed = true) :
    Score.isNan (Scores.target addOptions old score) = false ∧
      (∀ previous, old = some previous →
        Score.eq (Scores.target addOptions old score) previous = false) ∧
      Scores.decide addOptions old score =
        { status := .applied, added := old.isNone, changed := true,
          score := some (Scores.target addOptions old score) } := by
  unfold Scores.decide at h ⊢
  split at h
  · cases h
  split at h
  · cases h
  split at h
  · cases h
  next hscore htgt hskips =>
  rw [if_neg hscore, if_neg htgt, if_neg hskips]
  dsimp only at h
  refine ⟨by simpa using htgt, ?_, by rw [h]⟩
  rintro previous rfl
  simpa using h

end Decide

variable {lp : Listpack σ} {maxEntries : ℕ}

theorem needsFull_member
    (h : lp.needsFull maxEntries score member = false) : member.length ≤ maxMemberLen := by
  rw [Listpack.needsFull, Bool.or_eq_false_iff, decide_eq_false_iff_not, not_or] at h
  exact Nat.le_of_not_lt h.1.2

omit [Score σ] in
theorem length_le_len (lp : Listpack σ) : lp.entries.length ≤ lp.len := by
  calc lp.entries.length
    _ = (lp.entries.map fun _ ↦ 1).sum := by simp
    _ ≤ (lp.entries.map fun entry ↦ elementSize entry.1.length lp.width).sum := by
      apply sum_le_sum
      intro entry _
      unfold elementSize CompactListpack.lenSize
      split <;> omega

/-- A blob that takes one more entry stays within its bounds. -/
theorem needsFull_few
    (h : lp.needsFull maxEntries score member = false) (hnone : lp.score member = none) :
    lp.entries.length + 1 ≤ maxBlobBytes := by
  rw [Listpack.needsFull, Bool.or_eq_false_iff, hnone] at h
  have hfits := (Bool.or_eq_false_iff.mp h.2).1
  rw [Listpack.overflows, hnone, decide_eq_false_iff_not] at hfits
  have hlen := length_le_len lp
  have helt : 1 ≤ elementSize member.length (lp.target score) := by
    unfold elementSize CompactListpack.lenSize
    split <;> omega
  simp only [Option.isSome_none, Bool.false_eq_true, if_false] at hfits
  omega

theorem sound_of_added {lp' : Listpack σ} (h : lp.Sound)
    (hfits : lp.needsFull maxEntries score member = false) (hranked : Ranked lp'.entries)
    (hlkp : lookup lp'.entries = update (lookup lp.entries) member (some score)) :
    lp'.Sound := by
  have hmem : ∀ entry ∈ lp'.entries, entry.1 = member ∨ entry ∈ lp.entries := by
    intro entry hent
    have hfnd := (lookup_eq_some_iff hranked.names).mpr hent
    rw [hlkp] at hfnd
    by_cases hname : entry.1 = member
    · exact .inl hname
    · rw [update_of_ne hname, lookup_eq_some_iff h.ranked.names] at hfnd
      exact .inr hfnd
  refine ⟨hranked, ?_, ?_⟩
  · intro entry hent
    rcases hmem entry hent with hname | hold
    · rw [hname]
      exact needsFull_member hfits
    · exact h.short entry hold
  · have hsubset : lp'.entries.map Prod.fst ⊆ member :: lp.entries.map Prod.fst := by
      intro name hname
      obtain ⟨entry, hent, rfl⟩ := mem_map.mp hname
      rcases hmem entry hent with hsame | hold
      · exact hsame ▸ mem_cons_self
      · exact mem_cons_of_mem _ (mem_map_of_mem hold)
    cases hold : lp.score member with
    | none =>
      have hle := (hranked.names.subperm hsubset).length_le
      simp only [length_cons, length_map] at hle
      exact hle.trans (needsFull_few hfits hold)
    | some old =>
      have hknown : member ∈ lp.entries.map Prod.fst :=
        mem_map_of_mem ((lookup_eq_some_iff h.ranked.names).mp hold)
      have hsubset' : lp'.entries.map Prod.fst ⊆ lp.entries.map Prod.fst := fun name hname ↦
        (mem_cons.mp (hsubset hname)).elim (fun hsame ↦ hsame ▸ hknown) fun hmem ↦ hmem
      have hle := (hranked.names.subperm hsubset').length_le
      simp only [length_map] at hle
      exact hle.trans h.few

theorem intact_empty : FullState.Intact options ({} : FullState σ) where
  names := nodup_nil
  numbers := by simp
  slots_nodup := nodup_nil
  mem_slots := by simp
  shape := ⟨by simp [AllFit], rfl, .inl rfl⟩
  sorted := ⟨by simp [toList], by simp [toList]⟩
  mem_index := by simp [toList, scoreAt]

theorem onSmall_add_of_needsFull (h : lp.needsFull maxEntries score member = true) :
    onSmall (Listpack.add maxEntries score member) (small lp) script =
      ⟨.ok { needsFull := true }, small lp, script⟩ := by
  have hadd : Listpack.add maxEntries score member lp script =
      ⟨.ok { needsFull := true }, lp, script⟩ := by
    simp [Listpack.add, h]
  exact zoom_eq hadd

variable [LawfulScore σ] [DecidableEq σ]

/-! ## The full representation -/

/-- `add` on a full representation that stands for the sorted set. -/
theorem addFull_granted {state : FullState σ} (h : state.Intact options)
    (hsize : zset.size = state.storage.length) (hmap : lookup zset.contents = lookup state.storage)
    (hval : zset.score member = state.score member) (hscore : Score.isNan score = false)
    (hnew : ∀ old, zset.score member = some old → Score.eq old score = false) :
    Ends (onFull (addFull options member score)) (full state) []
      (Added options score member zset) (Refused options member zset) := by
  refine Ends.zoom (h.addFull_granted hscore (hval ▸ hnew)) ?_ ?_
  · rintro mutation state' ⟨hmutation, hintact, hlkp, hshared, hroom⟩
    refine ⟨hval ▸ hmutation, ⟨hintact, hmap ▸ hlkp, frames_of_unshared hshared⟩, ?_⟩
    rwa [hval, hsize]
  · rintro thrown _ ⟨rfl, hnone, hrefusal⟩
    exact ⟨hval.trans hnone, hsize ▸ hrefusal, h.recut (Recut.refl _), hmap.symm,
      frames_of_unshared rfl⟩

/-! ## The listpack -/

omit [DecidableEq σ] in
theorem addSmall_granted (h : lp.Sound) (hscore : Score.isNan score = false)
    (hnew : ∀ old, lp.score member = some old → Score.eq old score = false)
    (hfits : lp.needsFull options.listpackMaxEntries score member = false) :
    Ends (onSmall (Listpack.add options.listpackMaxEntries score member)) (small lp) []
      (fun result zset' ↦ result = { changed := true, existed := (lp.score member).isSome } ∧
        Becomes options (update (lookup lp.entries) member (some score)) (small lp) zset' ∧
        (lp.score member = none → refusal lp.entries.length member = none))
      (fun _ _ ↦ False) := by
  refine Ends.zoom ((Listpack.add_ends h.ranked hscore hnew).of_returns (F := fun _ _ ↦ False)
    Listpack.add_returns) ?_ fun _ _ hthr ↦ hthr
  rintro result lp' (⟨hfull, -⟩ | ⟨-, hres, hranked, hlkp⟩)
  · rw [hfits] at hfull
    cases hfull
  refine ⟨hres, ⟨sound_of_added h hfits hranked hlkp, hlkp, frames_of_unshared rfl⟩, ?_⟩
  intro hnone
  have hmember := needsFull_member hfits
  have hfew := needsFull_few hfits hnone
  unfold maxMemberLen at hmember
  unfold maxBlobBytes at hfew
  rw [refusal, if_neg (by omega), if_neg (by omega)]

/-! ## Outgrowing the listpack -/

omit [DecidableEq σ] in
theorem ensureFull_granted (h : lp.Sound) :
    Ends (ensureFull options) (small lp) []
      (fun _ zset' ↦ ∃ state, zset' = full state ∧ state.Intact options ∧
        state.storage = lp.entries)
      (fun _ _ ↦ False) := by
  apply ends_get_bind
  apply ends_request_bind
  · intro hrefused
    cases hrefused
  intro _
  have hfew : ({} : FullState σ).storage.length + lp.entries.length < 2 ^ 32 - 1 := by
    have hblob := h.few
    unfold maxBlobBytes at hblob
    simp only [length_nil, Nat.zero_add]
    omega
  have hshort : ∀ entry ∈ lp.entries, entry.1.length ≤ 65535 := fun entry hent ↦
    (h.short entry hent).trans (by decide)
  refine Ends.zoom (intact_empty.replay_granted h.ranked.numbers h.ranked.names rfl hfew hshort) ?_
    fun _ _ hthr ↦ hthr
  rintro _ state ⟨hintact, hsto⟩
  exact ⟨state, rfl, hintact, hsto⟩

/-! ## `ZSet::add` -/

omit [DecidableEq σ] in
/-- The score that `add` decides to write is a number, and not the one the member has. -/
theorem Valid.changed_cases {addOptions : ZAddOptions} (h : zset.Valid options)
    (hchg : (Scores.decide addOptions (zset.score member) score).changed = true) :
    Score.isNan (Scores.target addOptions (zset.score member) score) = false ∧
      (∀ old, zset.score member = some old →
        Score.eq old (Scores.target addOptions (zset.score member) score) = false) ∧
      Scores.decide addOptions (zset.score member) score =
        { status := .applied, added := (zset.score member).isNone, changed := true,
          score := some (Scores.target addOptions (zset.score member) score) } := by
  obtain ⟨htgt, hdifferent, hdecide⟩ := ZSet.changed_cases hchg
  refine ⟨htgt, ?_, hdecide⟩
  intro old hold
  have hnum : Score.isNan old = false := by
    rw [score_eq_lookup h, lookup_eq_some_iff h.names] at hold
    exact h.numbers _ hold
  rw [eq_comm_of_numbers hnum htgt]
  exact hdifferent old hold

/-- `add` answers as its decision says.  It throws only where a new member is not taken. -/
theorem add_granted {addOptions : ZAddOptions} (h : zset.Valid options) :
    Ends (add options addOptions score member) zset []
      (fun mutation zset' ↦ mutation = Scores.decide addOptions (zset.score member) score ∧
        Becomes options (if mutation.changed then update (lookup zset.contents) member
          (some (Scores.target addOptions (zset.score member) score)) else lookup zset.contents)
          zset zset' ∧
        (mutation.changed = true → zset.score member = none → refusal zset.size member = none))
      (fun thrown zset' ↦ (Scores.decide addOptions (zset.score member) score).changed = true ∧
        Refused options member zset thrown zset') := by
  apply ends_get_bind
  dsimp only
  split
  · next hchg =>
    obtain ⟨htgt, hnew, hdecide⟩ := h.changed_cases hchg
    -- One shape for the three ways of writing the score.
    suffices hadd : Ends _ zset [] (Added options
        (Scores.target addOptions (zset.score member) score) member zset)
        (Refused options member zset) from
      hadd.mono (fun mutation zset' ⟨hmutation, hbecomes, hroom⟩ ↦
        ⟨hmutation.trans hdecide.symm, by rw [hmutation]; exact hbecomes, fun _ ↦ hroom⟩)
        fun thrown zset' hrefused ↦ ⟨hchg, hrefused⟩
    generalize Scores.target addOptions (zset.score member) score = target at *
    cases zset with
    | small lp =>
      have hlp : lp.Sound := h
      cases hfull : lp.needsFull options.listpackMaxEntries target member with
      | true =>
        apply ends_ok_bind (onSmall_add_of_needsFull hfull) suffix_rfl
        refine ((ensureFull_granted hlp).mono_throw fun _ _ hthr ↦ hthr.elim).bind ?_
        rintro _ _ rest hrest ⟨state, rfl, hintact, hsto⟩
        obtain rfl := suffix_nil.mp hrest
        refine addFull_granted hintact (congrArg length hsto.symm) (congrArg lookup hsto.symm) ?_
          htgt hnew
        rw [hintact.score_eq, hsto]
        rfl
      | false =>
        refine ((addSmall_granted hlp htgt hnew hfull).mono_throw fun _ _ hthr ↦ hthr.elim).bind ?_
        rintro result zset' rest _ ⟨rfl, hbecomes, hroom⟩
        apply ends_pure
        refine ⟨?_, hbecomes, hroom⟩
        simp [ZSet.score, Listpack.score]
    | full state =>
      have hst : state.Intact options := h
      exact addFull_granted hst hst.size_eq rfl rfl htgt hnew
  · next hsame =>
    have hsame : (Scores.decide addOptions (zset.score member) score).changed = false := by
      simpa using hsame
    refine ends_pure ⟨rfl, ?_, fun hchg ↦ ?_⟩
    · rw [hsame]
      exact Becomes.refl h
    · cases hsame.symm.trans hchg

/-- What `add` answers, for the map and the number of its members. -/
def addReply (addOptions : ZAddOptions) (score : σ) (member : Bytes) (size : ℕ)
    (map : Bytes → Option σ) : Except Thrown (ZAddMutation σ) :=
  let decision := Scores.decide addOptions (map member) score
  if decision.changed = true ∧ (map member).isNone = true then
    (refusal size member).elim (.ok decision) .error
  else .ok decision

/-- The map after such an answer. -/
def addMap (addOptions : ZAddOptions) (score : σ) (member : Bytes) (map : Bytes → Option σ) :
    Except Thrown (ZAddMutation σ) → Bytes → Option σ
  | .ok mutation =>
    if mutation.changed then
      update map member (some (Scores.target addOptions (map member) score))
    else map
  | .error _ => map

theorem add_becomes {addOptions : ZAddOptions} (h : zset.Valid options) :
    (add options addOptions score member zset []).result =
        addReply addOptions score member zset.size (lookup zset.contents) ∧
      Becomes options (addMap addOptions score member (lookup zset.contents)
        (addReply addOptions score member zset.size (lookup zset.contents))) zset
        (add options addOptions score member zset []).state := by
  have hscore := score_eq_lookup h member
  rcases (add_granted h).cases with
    ⟨mutation, zset', hrun, hmutation, hbecomes, hroom⟩ |
    ⟨thrown, zset', hrun, hchg, hnone, hrefusal, hbecomes⟩
  · have hreply : addReply addOptions score member zset.size (lookup zset.contents) =
        .ok mutation := by
      unfold addReply
      rw [← hscore, ← hmutation]
      dsimp only
      split
      · next hnew =>
        rw [hroom hnew.1 (Option.isNone_iff_eq_none.mp hnew.2)]
        rfl
      · rfl
    rw [hrun, hreply, addMap, ← hscore]
    exact ⟨rfl, hbecomes⟩
  · have hreply : addReply addOptions score member zset.size (lookup zset.contents) =
        .error thrown := by
      unfold addReply
      rw [← hscore, if_pos ⟨hchg, by rw [hnone]; rfl⟩, hrefusal]
      rfl
    rw [hrun, hreply]
    exact ⟨rfl, hbecomes⟩

end ZSet

end GoblinCore.SortedSet
