import GoblinCore.Values.ZSetValue

/-!
# Ranked entries

What a sorted set is for: a map from members to scores, read in the order of the scores, and in the
order of the names where scores are equal.  A map has exactly one list of its entries in that order,
so a sorted set that keeps such a list is determined by its map.
-/

namespace GoblinCore.Ranking

open Ordered Function List LawfulScore Option

variable {σ : Type}

section Scores

variable [Score σ] [LawfulScore σ] {first second third : σ}

theorem lt_asymm (h : Score.lt first second = true) : Score.lt second first = false := by
  by_contra hgt
  have hself := LawfulScore.lt_trans first second first h (by simpa using hgt)
  rw [LawfulScore.lt_irrefl] at hself
  exact absurd hself (by decide)

/-- Smaller than one score and not above another. -/
theorem lt_of_lt_of_not_lt (hthird : Score.isNan third = false) (h : Score.lt first second = true)
    (h' : Score.lt third second = false) : Score.lt first third = true := by
  by_contra hnot
  have hge := not_lt_trans first third second hthird (by simpa using hnot) h'
  rw [h] at hge
  exact absurd hge (by decide)

theorem lt_of_not_lt_of_lt (hfst : Score.isNan first = false) (h : Score.lt second first = false)
    (h' : Score.lt second third = true) : Score.lt first third = true := by
  by_contra hnot
  have hge := not_lt_trans second first third hfst h (by simpa using hnot)
  rw [h'] at hge
  exact absurd hge (by decide)

end Scores

/-! ## The order of entries -/

/-- The first of two members with their scores comes first. -/
def Precedes [Score σ] (first second : Bytes × σ) : Prop :=
  Score.lt first.2 second.2 = true ∨ Score.lt second.2 first.2 = false ∧ first.1 < second.1

instance [Score σ] : DecidableRel (Precedes (σ := σ)) := fun _ _ ↦
  inferInstanceAs (Decidable (_ ∨ _))

section Order

variable [Score σ] [LawfulScore σ] {first second third : Bytes × σ}

theorem precedes_irrefl : ¬Precedes first first := by
  rintro (hlt | ⟨-, hname⟩)
  · rw [LawfulScore.lt_irrefl] at hlt
    exact absurd hlt (by decide)
  · exact List.lt_irrefl _ hname

section

variable (hfst : Score.isNan first.2 = false) (hsnd : Score.isNan second.2 = false)
include hfst hsnd

theorem precedes_trans (hthird : Score.isNan third.2 = false) (h : Precedes first second)
    (h' : Precedes second third) : Precedes first third := by
  rcases h with hlt | ⟨hge, hname⟩
  · rcases h' with hlt' | ⟨hge', -⟩
    · exact .inl (lt_trans _ _ _ hlt hlt')
    · exact .inl (lt_of_lt_of_not_lt hthird hlt hge')
  · rcases h' with hlt' | ⟨hge', hname'⟩
    · exact .inl (lt_of_not_lt_of_lt hfst hge hlt')
    · exact .inr ⟨not_lt_trans _ _ _ hsnd hge' hge, List.lt_trans hname hname'⟩

theorem precedes_asymm (h : Precedes first second) : ¬Precedes second first :=
  fun hback ↦ precedes_irrefl (precedes_trans hfst hsnd hfst h hback)

end

omit [LawfulScore σ] in
theorem precedes_total (hname : first.1 ≠ second.1) (h : ¬Precedes first second) :
    Precedes second first := by
  rw [Precedes, not_or] at h
  by_cases hgt : Score.lt second.2 first.2 = true
  · exact .inl hgt
  have hge : Score.lt second.2 first.2 = false := by simpa using hgt
  refine .inr ⟨by simpa using h.1, ?_⟩
  have hnot : ¬first.1 < second.1 := fun hlt ↦ h.2 ⟨hge, hlt⟩
  by_contra hback
  exact hname (List.le_antisymm hback hnot)

end Order

/-! ## Lists of entries and their maps -/

/-- The map a list of entries stands for. -/
def lookup (entries : List (Bytes × σ)) (member : Bytes) : Option σ :=
  (entries.find? fun entry ↦ entry.1 = member).map Prod.snd

/-- Every member is there once, and the entries are in order. -/
structure Ranked [Score σ] (entries : List (Bytes × σ)) : Prop where
  numbers : ∀ entry ∈ entries, Score.isNan entry.2 = false
  ordered : entries.Pairwise Precedes
  names : (entries.map Prod.fst).Nodup

variable {entries others : List (Bytes × σ)} {member : Bytes} {score : σ} {entry : Bytes × σ}

theorem lookup_eq_none_iff : lookup entries member = none ↔
    ∀ entry ∈ entries, entry.1 ≠ member := by
  simp [lookup, find?_eq_none]

theorem lookup_eq_some_iff (hnames : (entries.map Prod.fst).Nodup) :
    lookup entries member = some score ↔ (member, score) ∈ entries := by
  rw [lookup, map_eq_some_iff]
  constructor
  · rintro ⟨entry, hfind, rfl⟩
    obtain ⟨hmem, rfl⟩ := (find?_key_iff hnames).mp hfind
    exact hmem
  · intro hmem
    exact ⟨(member, score), (find?_key_iff hnames).mpr ⟨hmem, rfl⟩, rfl⟩

/-- One more entry at the end. -/
theorem lookup_filter_ne (hnames : (entries.map Prod.fst).Nodup) :
    lookup (entries.filter fun entry ↦ entry.1 ≠ member) = update (lookup entries) member none := by
  have hfiltered : ((entries.filter fun entry ↦ entry.1 ≠ member).map Prod.fst).Nodup :=
    hnames.sublist (filter_sublist.map Prod.fst)
  funext other
  by_cases hoth : other = member
  · subst other
    rw [update_self, lookup_eq_none_iff]
    intro entry hent
    simpa using (mem_filter.mp hent).2
  · rw [update_of_ne hoth]
    apply ext
    intro score
    rw [lookup_eq_some_iff hnames, lookup_eq_some_iff hfiltered]
    simp [hoth]

theorem lookup_concat (hnames : ((entries ++ [(member, score)]).map Prod.fst).Nodup) :
    lookup (entries ++ [(member, score)]) = update (lookup entries) member (some score) := by
  have hparts := hnames
  rw [map_append, nodup_append'] at hparts
  funext name
  apply ext
  intro found
  rw [lookup_eq_some_iff hnames, mem_append, mem_singleton]
  by_cases hname : name = member
  · subst hname
    rw [update_self, Prod.mk.injEq, some.injEq]
    constructor
    · rintro (hold | ⟨-, hnew⟩)
      · exact absurd (mem_map_of_mem hold) fun hmem ↦ hparts.2.2 hmem (by simp)
      · exact hnew.symm
    · intro hnew
      exact .inr ⟨rfl, hnew.symm⟩
  · rw [update_of_ne hname, lookup_eq_some_iff hparts.1]
    simp [hname]

/-- Two lists with the same elements are the same map. -/
theorem lookup_congr (hnames : (entries.map Prod.fst).Nodup) (hoths : (others.map Prod.fst).Nodup)
    (h : ∀ entry, entry ∈ entries ↔ entry ∈ others) : lookup entries = lookup others := by
  funext member
  apply ext
  intro score
  rw [lookup_eq_some_iff hnames, lookup_eq_some_iff hoths]
  exact h (member, score)

variable [Score σ]

theorem Ranked.sublist (h : Ranked entries) (hpart : others.Sublist entries) : Ranked others where
  numbers entry hent := h.numbers entry (hpart.subset hent)
  ordered := h.ordered.sublist hpart
  names := h.names.sublist (hpart.map Prod.fst)

theorem ranked_nil : Ranked ([] : List (Bytes × σ)) := ⟨by simp, List.Pairwise.nil, by simp⟩

theorem Ranked.nodup (h : Ranked entries) : entries.Nodup := List.Nodup.of_map _ h.names

/-- Leaving out a member. -/
theorem Ranked.eraseP_eq (h : Ranked entries) :
    entries.eraseP (fun entry ↦ entry.1 = member) = entries.filter fun entry ↦
      entry.1 ≠ member := by
  have hnames := h.names
  clear h
  induction entries with
  | nil => rfl
  | cons first rest ih =>
    rw [map_cons, nodup_cons] at hnames
    by_cases hfst : first.1 = member
    · have hrest : rest.filter (fun entry ↦ entry.1 ≠ member) = rest := by
        rw [filter_eq_self]
        intro entry hent
        have hoth : entry.1 ≠ member := by
          intro hsame
          exact hnames.1 (hfst ▸ hsame ▸ mem_map_of_mem hent)
        simpa using hoth
      simpa [hfst] using hrest.symm
    · simp [hfst, ih hnames.2]

variable [LawfulScore σ]

section

variable (h : Ranked entries) (hscore : Score.isNan score = false)
  (hfresh : ∀ entry ∈ entries, entry.1 ≠ member)
include h hscore hfresh

/-- A new member goes before the first entry that it precedes. -/
theorem Ranked.place :
    Ranked (place (fun entry ↦ decide (Precedes entry (member, score)))
      (member, score) entries) where
  numbers entry hent := by
    rcases mem_place.mp hent with rfl | hold
    · exact hscore
    · exact h.numbers entry hold
  ordered := by
    apply place_pairwise _ h.ordered fun _ _ hpass ↦ of_decide_eq_true hpass
    · intro entry hent hfail
      exact precedes_total (hfresh entry hent) (of_decide_eq_false hfail)
    · intro first hfst second hsnd hbef haft
      exact precedes_trans (h.numbers first hfst) hscore (h.numbers second hsnd) hbef haft
  names := by
    rw [(place_perm.map Prod.fst).nodup_iff, map_cons, nodup_cons]
    refine ⟨?_, h.names⟩
    intro hmem
    obtain ⟨entry, hent, hname⟩ := mem_map.mp hmem
    exact hfresh entry hent hname

theorem Ranked.lookup_place :
    lookup (Ordered.place (fun entry ↦ decide (Precedes entry (member, score))) (member, score)
      entries) = update (lookup entries) member (some score) := by
  have hplaced := h.place hscore hfresh
  funext other
  by_cases hoth : other = member
  · subst other
    rw [update_self]
    exact (lookup_eq_some_iff hplaced.names).mpr (mem_place.mpr (.inl rfl))
  · rw [update_of_ne hoth]
    apply ext
    intro found
    rw [lookup_eq_some_iff h.names, lookup_eq_some_iff hplaced.names, mem_place]
    simp [hoth]

end

section Replace

variable {front back : List (Bytes × σ)} {old : σ}

theorem precedes_of_getLast (h : Ranked front) (hscore : Score.isNan score = false)
    (hlast : ∀ last, front.getLast? = some last → Precedes last (member, score)) :
    ∀ first ∈ front, Precedes first (member, score) := by
  rcases eq_nil_or_concat' front with rfl | ⟨init, last, rfl⟩
  · simp
  have hlast' := hlast last (by simp)
  intro first hfst
  rcases mem_append.mp hfst with hinit | hsingle
  · have hbef := (pairwise_append.mp h.ordered).2.2 first hinit last (by simp)
    exact precedes_trans (h.numbers first hfst) (h.numbers last (by simp)) hscore hbef hlast'
  · rw [mem_singleton.mp hsingle]
    exact hlast'

theorem precedes_of_head (h : Ranked back) (hscore : Score.isNan score = false)
    (hhead : ∀ next, back.head? = some next → Precedes (member, score) next) :
    ∀ second ∈ back, Precedes (member, score) second := by
  cases back with
  | nil => simp
  | cons next rest =>
    have hnext := hhead next rfl
    intro second hsnd
    rcases mem_cons.mp hsnd with rfl | hrest
    · exact hnext
    · have haft := (pairwise_cons.mp h.ordered).1 second hrest
      exact precedes_trans hscore (h.numbers next mem_cons_self) (h.numbers second hsnd) hnext haft

/-- A score that the neighbours allow may be written in place. -/
theorem Ranked.replace (h : Ranked (front ++ (member, old) :: back))
    (hscore : Score.isNan score = false)
    (hprev : ∀ prev, front.getLast? = some prev → Precedes prev (member, score))
    (hnext : ∀ next, back.head? = some next → Precedes (member, score) next) :
    Ranked (front ++ (member, score) :: back) := by
  have hfront : Ranked front := h.sublist (sublist_append_left _ _)
  have hback : Ranked back :=
    h.sublist ((sublist_cons_self _ _).trans (sublist_append_right _ _))
  obtain ⟨-, hrest, hacross⟩ := pairwise_append.mp h.ordered
  have hbef := precedes_of_getLast hfront hscore hprev
  have haft := precedes_of_head hback hscore hnext
  refine ⟨?_, ?_, ?_⟩
  · intro entry hent
    rcases mem_append.mp hent with hmem | hmem
    · exact hfront.numbers entry hmem
    · rcases mem_cons.mp hmem with rfl | hmem
      · exact hscore
      · exact hback.numbers entry hmem
  · refine pairwise_append.mpr ⟨hfront.ordered, pairwise_cons.mpr ⟨haft, hback.ordered⟩, ?_⟩
    intro first hfst second hsnd
    rcases mem_cons.mp hsnd with rfl | hsnd
    · exact hbef first hfst
    · exact hacross first hfst second (mem_cons_of_mem _ hsnd)
  · have hnames := h.names
    rw [map_append, map_cons] at hnames ⊢
    exact hnames

omit [LawfulScore σ] in
theorem Ranked.lookup_replace (h : Ranked (front ++ (member, old) :: back))
    (hnew : Ranked (front ++ (member, score) :: back)) :
    lookup (front ++ (member, score) :: back) =
      update (lookup (front ++ (member, old) :: back)) member (some score) := by
  funext other
  by_cases hoth : other = member
  · subst other
    rw [update_self, lookup_eq_some_iff hnew.names]
    exact mem_append_right _ mem_cons_self
  · rw [update_of_ne hoth]
    apply ext
    intro found
    rw [lookup_eq_some_iff hnew.names, lookup_eq_some_iff h.names]
    simp [hoth]

end Replace

end GoblinCore.Ranking
