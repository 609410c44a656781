import GoblinCore.ZSets.Ranking
import GoblinCore.ZSets.SharedLayers

/-!
# The listpack of a small sorted set

One blob holds the entries in order, all scores at one width.  A change builds a new blob, so each
change asks for memory once.  A member that gets another place is taken out first and put in again:
two blobs, and between them the member is gone.
-/

namespace GoblinCore.SortedSet

open Refusable MemoryLimit Ordered Ranking Function Comp List
open CompactListpack (maxMemberLen maxBlobBytes wireHeaderBytes elementSize)

variable {σ : Type}

/-- `CompactListpack`, with the entries as they are stored. -/
structure Listpack (σ : Type) where
  entries : List (Bytes × σ) := []
  width : ℕ := 2

/-- `CompactListpack::AddResult`. -/
structure AddResult where
  changed : Bool := false
  needsFull : Bool := false
  existed : Bool := false
  deriving DecidableEq

namespace Listpack

variable [Score σ]

def lessThan (first second : Bytes × σ) : Bool :=
  Score.lt first.2 second.2 || (Score.eq first.2 second.2 && decide (first.1 < second.1))

def len (lp : Listpack σ) : ℕ :=
  (lp.entries.map fun entry ↦ elementSize entry.1.length lp.width).sum

def score (member : Bytes) (lp : Listpack σ) : Option σ := lookup lp.entries member

/-- The width of the scores once this one is among them. -/
def target (score : σ) (lp : Listpack σ) : ℕ := max lp.width (Score.width score)

/-- The entries before a member, and those after it. -/
def around (member : Bytes) (lp : Listpack σ) : List (Bytes × σ) × List (Bytes × σ) :=
  (lp.entries.takeWhile fun entry ↦ entry.1 ≠ member,
    (lp.entries.dropWhile fun entry ↦ entry.1 ≠ member).tail)

/-- The neighbours of the member allow it the new score. -/
def sortOrderUnchanged (score : σ) (member : Bytes) (lp : Listpack σ) : Bool :=
  ((lp.around member).1.getLast?.all fun prev ↦
    !Score.lt score prev.2 && !(Score.eq prev.2 score && !decide (prev.1 < member))) &&
  (lp.around member).2.head?.all fun next ↦
    !Score.lt next.2 score && !(Score.eq score next.2 && !decide (member < next.1))

/-- The blob would be too long for its header. -/
def overflows (score : σ) (member : Bytes) (lp : Listpack σ) : Bool :=
  let projected := lp.len + lp.entries.length * (lp.target score - lp.width) +
    if (lp.score member).isSome then 0 else elementSize member.length (lp.target score)
  decide (maxBlobBytes < wireHeaderBytes + projected)

/-- `add` gives up and asks for the full representation. -/
def needsFull (maxEntries : ℕ) (score : σ) (member : Bytes) (lp : Listpack σ) : Bool :=
  decide (member = [] ∨ maxMemberLen < member.length) ||
    match lp.score member with
    | some old => !Score.eq old score && lp.overflows score member
    | none => lp.overflows score member || decide (maxEntries < lp.entries.length + 1)

/-- `rewiden` when the score does not fit. -/
def widenFor (score : σ) : StoreComp (Listpack σ) Unit := do
  let lp ← get
  when (lp.target score ≠ lp.width) (do
    ensureMemoryGrowth
    set { lp with width := lp.target score })

/-- `erase_at`: the new blob leaves out the member. -/
def eraseAt (member : Bytes) : StoreComp (Listpack σ) Unit := do
  ensureMemoryGrowth
  modify fun lp ↦ { lp with entries := lp.entries.eraseP fun entry ↦ entry.1 = member }

/-- `insert_sorted_at`, at the first entry that the new one is less than. -/
def insertSorted (score : σ) (member : Bytes) : StoreComp (Listpack σ) Unit := do
  ensureMemoryGrowth
  modify fun lp ↦
    { lp with
      entries :=
        let index := (lp.entries.takeWhile fun entry ↦ !lessThan (member, score) entry).length
        lp.entries.take index ++ (member, score) :: lp.entries.drop index }

/-- `write_score`. -/
def writeScore (score : σ) (member : Bytes) (lp : Listpack σ) : Listpack σ :=
  { lp with entries := (lp.around member).1 ++ (member, score) :: (lp.around member).2 }

/-- The first half of moving a member. -/
def takeOut (score : σ) (member : Bytes) : StoreComp (Listpack σ) Unit := do
  widenFor score
  eraseAt member

/-- The member has a score and gets another one. -/
def rescore (score : σ) (member : Bytes) : StoreComp (Listpack σ) Unit := do
  let lp ← get
  if lp.sortOrderUnchanged score member then
    widenFor score
    modify (writeScore score member)
  else
    takeOut score member
    insertSorted score member

/-- `CompactListpack::add`. -/
def add (maxEntries : ℕ) (score : σ) (member : Bytes) : StoreComp (Listpack σ) AddResult := do
  let lp ← get
  if lp.needsFull maxEntries score member then pure { needsFull := true }
  else
    match lp.score member with
    | some old =>
      if Score.eq old score then pure { existed := true }
      else
        rescore score member
        pure { changed := true, existed := true }
    | none =>
      widenFor score
      insertSorted score member
      pure { changed := true }

def remove (member : Bytes) : StoreComp (Listpack σ) Bool := do
  let lp ← get
  match lp.score member with
  | none => pure false
  | some _ =>
    eraseAt member
    pure true

/-- `optimize`: the narrowest width that holds all scores. -/
def optimize : StoreComp (Listpack σ) Unit := do
  let lp ← get
  let narrowest := lp.entries.foldl (fun width entry ↦ max width (Score.width entry.2)) 2
  when (lp.entries ≠ [] ∧ narrowest ≠ lp.width) (do
    ensureMemoryGrowth
    set { lp with width := narrowest })

def rank (member : Bytes) (lp : Listpack σ) : Option ℕ :=
  lp.entries.findIdx? fun entry ↦ entry.1 = member

/-! ## What the steps do to the entries -/

variable {lp : Listpack σ} {score : σ} {member : Bytes} {script : Script}

theorem widenFor_ends :
    Ends (widenFor score) lp script (fun _ lp' ↦ lp'.entries = lp.entries)
      (fun _ lp' ↦ lp' = lp) := by
  apply ends_get_bind
  apply ends_when
  · intro _
    refine ensureMemoryGrowth_bind_ends (fun _ ↦ rfl) ?_
    intro rest _
    exact ends_set rfl
  · intro _
    rfl

theorem eraseAt_ends (h : Ranked lp.entries) :
    Ends (eraseAt member) lp script
      (fun _ lp' ↦ lp'.entries = lp.entries.filter fun entry ↦ entry.1 ≠ member)
      (fun _ lp' ↦ lp' = lp) := by
  refine ensureMemoryGrowth_bind_ends (fun _ ↦ rfl) ?_
  intro rest _
  exact ends_modify h.eraseP_eq

theorem takeOut_ends (h : Ranked lp.entries) :
    Ends (takeOut score member) lp script
      (fun _ lp' ↦ lp'.entries = lp.entries.filter fun entry ↦ entry.1 ≠ member)
      (fun _ lp' ↦ lp'.entries = lp.entries) := by
  apply (widenFor_ends.mono_throw fun _ _ hthr ↦ hthr ▸ rfl).bind
  intro _ wide rest _ hents
  have hwide : Ranked wide.entries := hents ▸ h
  rw [← hents]
  exact (eraseAt_ends hwide).mono_throw fun _ _ hthr ↦ hthr ▸ rfl

theorem optimize_ends :
    Ends optimize lp script (fun _ lp' ↦ lp'.entries = lp.entries) (fun _ lp' ↦ lp' = lp) := by
  apply ends_get_bind
  apply ends_when
  · intro _
    refine ensureMemoryGrowth_bind_ends (fun _ ↦ rfl) ?_
    intro rest _
    exact ends_set rfl
  · intro _
    rfl

omit [Score σ] in
/-- Splitting the entries at a member. -/
theorem around_eq {old : σ} (h : lp.score member = some old) :
    lp.entries = (lp.around member).1 ++ (member, old) :: (lp.around member).2 := by
  obtain ⟨entry, hfind, rfl⟩ := Option.map_eq_some_iff.mp h
  obtain ⟨hname, front, back, hents, hfront⟩ := find?_eq_some_iff_append.mp hfind
  have hname : entry.1 = member := by simpa using hname
  have htest : ∀ other ∈ front, decide (other.1 ≠ member) = true := by
    intro other hoth
    simpa using hfront other hoth
  unfold around
  rw [hents, takeWhile_append_of_pos htest, dropWhile_append_of_pos htest]
  obtain ⟨name, old⟩ := entry
  obtain rfl : name = member := hname
  simp

section Order

variable [LawfulScore σ]

theorem lessThan_eq {first second : Bytes × σ} (hfst : Score.isNan first.2 = false)
    (hsnd : Score.isNan second.2 = false) :
    lessThan first second = decide (Precedes first second) := by
  rw [lessThan, LawfulScore.eq_eq _ _ hfst hsnd]
  by_cases hlt : Score.lt first.2 second.2 = true
  · simp [Precedes, hlt]
  · simp [Precedes, hlt]

theorem insertSorted_ends (h : Ranked lp.entries) (hscore : Score.isNan score = false)
    (hfresh : ∀ entry ∈ lp.entries, entry.1 ≠ member) :
    Ends (insertSorted score member) lp script
      (fun _ lp' ↦ Ranked lp'.entries ∧
        lookup lp'.entries = update (lookup lp.entries) member (some score))
      (fun _ lp' ↦ lp' = lp) := by
  refine ensureMemoryGrowth_bind_ends (fun _ ↦ rfl) ?_
  intro rest _
  apply ends_modify
  have htest : ∀ entry ∈ lp.entries,
      (!lessThan (member, score) entry) = decide (Precedes entry (member, score)) := by
    intro entry hent
    rw [lessThan_eq hscore (h.numbers entry hent)]
    by_cases hbef : Precedes entry (member, score)
    · simp [hbef, precedes_asymm (h.numbers entry hent) hscore hbef]
    · simp [hbef, precedes_total (hfresh entry hent) hbef]
  have hcuts : Cuts (fun entry ↦ !lessThan (member, score) entry) lp.entries := by
    apply cuts_of_pairwise h.ordered
    intro first hfst second hsnd hbef hpass
    rw [htest second hsnd, decide_eq_true_eq] at hpass
    rw [htest first hfst, decide_eq_true_eq]
    exact precedes_trans (h.numbers first hfst) (h.numbers second hsnd) hscore hbef hpass
  have hplace : lp.entries.take
        (lp.entries.takeWhile fun entry ↦ !lessThan (member, score) entry).length ++
      (member, score) :: lp.entries.drop
        (lp.entries.takeWhile fun entry ↦ !lessThan (member, score) entry).length =
      place (fun entry ↦ decide (Precedes entry (member, score))) (member, score) lp.entries := by
    rw [take_length_takeWhile, drop_length_takeWhile, hcuts.takeWhile_eq, hcuts.dropWhile_eq]
    congr 1
    · exact filter_congr htest
    · congr 1
      exact filter_congr fun entry hent ↦ by rw [htest entry hent]
  rw [hplace]
  exact ⟨h.place hscore hfresh, h.lookup_place hscore hfresh⟩

/-- A neighbour in front that does not forbid the score precedes it. -/
theorem precedes_of_neighbours {first second : Bytes × σ} (hfst : Score.isNan first.2 = false)
    (hsnd : Score.isNan second.2 = false) (hlt : Score.lt second.2 first.2 = false)
    (heq : (Score.eq first.2 second.2 && !decide (first.1 < second.1)) = false) :
    Precedes first second := by
  rw [LawfulScore.eq_eq _ _ hfst hsnd, hlt] at heq
  by_cases hbef : Score.lt first.2 second.2 = true
  · exact .inl hbef
  · have hname : first.1 < second.1 := by simpa [hbef] using heq
    exact .inr ⟨hlt, hname⟩

theorem writeScore_ranked {old : σ} (h : Ranked lp.entries) (hscore : Score.isNan score = false)
    (hold : lp.score member = some old) (hsame : lp.sortOrderUnchanged score member = true) :
    Ranked (writeScore score member lp).entries ∧
      lookup (writeScore score member lp).entries =
        update (lookup lp.entries) member (some score) := by
  have hents := around_eq hold
  unfold sortOrderUnchanged at hsame
  unfold writeScore
  generalize (lp.around member).1 = front at hents hsame ⊢
  generalize (lp.around member).2 = back at hents hsame ⊢
  rw [hents] at h ⊢
  rw [Bool.and_eq_true, Option.all_eq_true, Option.all_eq_true] at hsame
  have hprev : ∀ prev, front.getLast? = some prev → Precedes prev (member, score) := by
    intro prev hlast
    have hallowed := hsame.1 prev hlast
    rw [Bool.and_eq_true, Bool.not_eq_true', Bool.not_eq_true'] at hallowed
    have hnum := h.numbers prev (mem_append_left _ (mem_of_getLast? hlast))
    exact precedes_of_neighbours hnum hscore hallowed.1 hallowed.2
  have hnext : ∀ next, back.head? = some next → Precedes (member, score) next := by
    intro next hhead
    have hallowed := hsame.2 next hhead
    rw [Bool.and_eq_true, Bool.not_eq_true', Bool.not_eq_true'] at hallowed
    have hnum := h.numbers next (mem_append_right _ (mem_cons_of_mem _ (mem_of_head? hhead)))
    exact precedes_of_neighbours hscore hnum hallowed.1 hallowed.2
  have hranked := h.replace hscore hprev hnext
  exact ⟨hranked, h.lookup_replace hranked⟩

theorem rescore_ends {old : σ} (h : Ranked lp.entries) (hscore : Score.isNan score = false)
    (hold : lp.score member = some old) :
    Ends (rescore score member) lp script
      (fun _ lp' ↦ Ranked lp'.entries ∧
        lookup lp'.entries = update (lookup lp.entries) member (some score))
      (fun _ _ ↦ True) := by
  apply ends_get_bind
  split
  · next hsame =>
    apply (widenFor_ends.mono_throw fun _ _ _ ↦ trivial).bind
    intro _ wide rest _ hents
    apply ends_modify
    have hwritten := writeScore_ranked h hscore hold hsame
    have hsameEntries : (writeScore score member wide).entries =
        (writeScore score member lp).entries := by
      simp [writeScore, around, hents]
    rwa [hsameEntries]
  · apply ((takeOut_ends h).mono_throw fun _ _ _ ↦ trivial).bind
    intro _ short rest _ hshort
    have hfresh : ∀ entry ∈ short.entries, entry.1 ≠ member := by
      intro entry hent
      rw [hshort] at hent
      simpa using (mem_filter.mp hent).2
    have hranked : Ranked short.entries := hshort ▸ h.sublist filter_sublist
    refine (insertSorted_ends hranked hscore hfresh).mono ?_ fun _ _ _ ↦ trivial
    rintro _ lp' ⟨hranked', hlkp⟩
    refine ⟨hranked', ?_⟩
    rw [hlkp, hshort, lookup_filter_ne h.names, update_idem]

/-- What `CompactListpack::add` has done when it returns. -/
def Added (maxEntries : ℕ) (score : σ) (member : Bytes) (lp : Listpack σ) (result : AddResult)
    (lp' : Listpack σ) : Prop :=
  (lp.needsFull maxEntries score member = true ∧ result.needsFull = true ∧ lp' = lp) ∨
    (lp.needsFull maxEntries score member = false ∧
      result = { changed := true, existed := (lp.score member).isSome } ∧ Ranked lp'.entries ∧
      lookup lp'.entries = update (lookup lp.entries) member (some score))

/-- `add` for a score that the member does not have yet. -/
theorem add_ends {maxEntries : ℕ} (h : Ranked lp.entries) (hscore : Score.isNan score = false)
    (hnew : ∀ old, lp.score member = some old → Score.eq old score = false) :
    Ends (add maxEntries score member) lp script (Added maxEntries score member lp)
      (fun _ _ ↦ True) := by
  apply ends_get_bind
  split
  · next hfull => exact ends_pure (.inl ⟨hfull, rfl, rfl⟩)
  next hfits =>
  have hfits : lp.needsFull maxEntries score member = false := by simpa using hfits
  cases hold : lp.score member with
  | some old =>
    dsimp only
    rw [if_neg (by simp [hnew old hold])]
    apply (rescore_ends h hscore hold).bind
    intro _ lp' rest _ hdone
    exact ends_pure (.inr ⟨hfits, by rw [hold]; rfl, hdone⟩)
  | none =>
    have hfresh := lookup_eq_none_iff.mp hold
    apply (widenFor_ends.mono_throw fun _ _ _ ↦ trivial).bind
    intro _ wide rest _ hents
    rw [← hents] at h hfresh
    apply ((insertSorted_ends h hscore hfresh).mono_throw fun _ _ _ ↦ trivial).bind
    intro _ lp' rest' _ hdone
    rw [hents] at hdone
    exact ends_pure (.inr ⟨hfits, by rw [hold]; rfl, hdone⟩)

omit [LawfulScore σ] in
theorem remove_ends (h : Ranked lp.entries) :
    Ends (remove member) lp script
      (fun removed lp' ↦ removed = (lp.score member).isSome ∧ Ranked lp'.entries ∧
        lookup lp'.entries = update (lookup lp.entries) member none)
      (fun _ lp' ↦ lp' = lp) := by
  apply ends_get_bind
  cases hold : lp.score member with
  | none =>
    refine ends_pure ⟨rfl, h, ?_⟩
    rw [← hold]
    exact (update_eq_self member (lookup lp.entries)).symm
  | some old =>
    apply (eraseAt_ends h).bind
    intro _ lp' rest _ hents
    refine ends_pure ⟨rfl, hents ▸ h.sublist filter_sublist, ?_⟩
    rw [hents, lookup_filter_ne h.names]

end Order

end Listpack

end GoblinCore.SortedSet
