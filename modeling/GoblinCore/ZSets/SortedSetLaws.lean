import GoblinCore.ZSets.SortedSet

/-!
# The invariant of the full representation

The three parts of a full sorted set agree: every member id has one slot and one entry, under the
name and the score that the storage has for it.  Then the entries in order are the ranked list of
the map, and `check_invariants` holds.
-/

namespace GoblinCore.SortedSet

open Refusable MemoryLimit Ordered Ranking ScoreIndex List

variable {σ : Type} [Score σ] {options : ZSetOptions}

/-- A load of zero never reaches the score index. -/
theorem ZSetOptions.load_pos (options : ZSetOptions) : 0 < options.index.load := by
  unfold ZSetOptions.index
  dsimp only
  split
  · decide
  · omega

/-- Memory is refused only under a ceiling. -/
def ZSetOptions.Quiet (options : ZSetOptions) (script : Script) : Prop :=
  options.ceilingActive = true ∨ true ∉ script

theorem ZSetOptions.Quiet.suffix {options : ZSetOptions} {script rest : Script}
    (h : options.Quiet script) (hrest : rest <:+ script) : options.Quiet rest :=
  h.imp_right fun hnone hmem ↦ hnone (hrest.mem hmem)

theorem ZSetOptions.quiet_nil (options : ZSetOptions) : options.Quiet [] :=
  Or.inr not_mem_nil

namespace FullState

/-- The storage, the member index and the score index agree. -/
structure Intact (options : ZSetOptions) (full : FullState σ) : Prop where
  names : (full.storage.map Prod.fst).Nodup
  numbers : ∀ entry ∈ full.storage, Score.isNan entry.2 = false
  slots_nodup : full.slots.Nodup
  mem_slots : ∀ id, id ∈ full.slots ↔ id < full.storage.length
  shape : Shape options.index full.scoreIndex
  sorted : Sorted full.memberView full.scoreIndex.toList
  mem_index : ∀ entry, entry ∈ full.scoreIndex.toList ↔
    full.scoreAt entry.memberId = some entry.score

variable {full : FullState σ} {member : Bytes} {score : σ} {id : ℕ}

omit [Score σ] in
theorem storage_eq_some_iff :
    full.storage[id]? = some (member, score) ↔
      id < full.storage.length ∧ full.memberView id = member ∧ full.scoreAt id = some score := by
  unfold memberView scoreAt
  cases hget : full.storage[id]? with
  | none => simp
  | some entry =>
    have hlt := lt_of_getElem? hget
    simp [hlt, Prod.ext_iff]

omit [Score σ] in
theorem scoreAt_eq_some (h : full.scoreAt id = some score) :
    full.storage[id]? = some (full.memberView id, score) := by
  obtain ⟨entry, hget, rfl⟩ := Option.map_eq_some_iff.mp h
  simp [memberView, hget]

omit [Score σ] in
theorem lt_length_of_scoreAt (h : full.scoreAt id = some score) : id < full.storage.length :=
  (lt_of_getElem? (scoreAt_eq_some h))

omit [Score σ] in
theorem exists_scoreAt (h : id < full.storage.length) : ∃ score, full.scoreAt id = some score :=
  ⟨full.storage[id].2, by simp [scoreAt, h]⟩

namespace Intact

section

variable (h : Intact options full)
include h

theorem memberView_inj {other : ℕ} (hid : id < full.storage.length)
    (hoth : other < full.storage.length) (hname : full.memberView id = full.memberView other) :
    id = other := by
  have hnames := h.names
  rw [nodup_iff_getElem?_ne_getElem?] at hnames
  have hview {position : ℕ} (hlt : position < full.storage.length) :
      (full.storage.map Prod.fst)[position]? = some (full.memberView position) := by
    simp [memberView, hlt]
  have hlen : (full.storage.map Prod.fst).length = full.storage.length := length_map _
  rcases Nat.lt_trichotomy id other with hlt | heq | hgt
  · refine absurd ?_ (hnames id other hlt (by omega))
    rw [hview hid, hview hoth, hname]
  · exact heq
  · refine absurd ?_ (hnames other id hgt (by omega))
    rw [hview hid, hview hoth, hname]

theorem find_eq_some_iff :
    full.find member = some id ↔ id < full.storage.length ∧ full.memberView id = member := by
  have hviews : (full.slots.map full.memberView).Nodup := by
    refine h.slots_nodup.map_on ?_
    intro first hfst second hsnd hname
    exact h.memberView_inj ((h.mem_slots first).mp hfst) ((h.mem_slots second).mp hsnd) hname
  rw [find, find?_key_iff hviews, h.mem_slots]

/-- `ZSet::score` looks the member up in the storage. -/
theorem score_eq : full.score member = lookup full.storage member := by
  apply Option.ext
  intro score
  rw [lookup_eq_some_iff h.names, mem_iff_getElem?, FullState.score, Option.bind_eq_some_iff]
  refine exists_congr fun id ↦ ?_
  rw [h.find_eq_some_iff, storage_eq_some_iff, and_assoc]

theorem mem_ranked {entry : Bytes × σ} : entry ∈ full.ranked ↔ entry ∈ full.storage := by
  rw [ranked, mem_map, mem_iff_getElem?]
  constructor
  · rintro ⟨indexed, hmem, rfl⟩
    exact ⟨indexed.memberId, scoreAt_eq_some ((h.mem_index indexed).mp hmem)⟩
  · rintro ⟨id, hget⟩
    obtain ⟨-, hname, hscore⟩ := storage_eq_some_iff.mp hget
    exact ⟨⟨entry.2, id⟩, (h.mem_index ⟨entry.2, id⟩).mpr hscore, by rw [named, hname]⟩

theorem eq_of_memberId {first second : ScoreEntry σ} (hfst : first ∈ full.scoreIndex.toList)
    (hsnd : second ∈ full.scoreIndex.toList) (hid : first.memberId = second.memberId) :
    first = second := by
  have hscore := (h.mem_index first).mp hfst
  rw [hid, (h.mem_index second).mp hsnd] at hscore
  obtain ⟨firstScore, firstId⟩ := first
  obtain ⟨secondScore, secondId⟩ := second
  simp_all

theorem lt_length {entry : ScoreEntry σ} (hent : entry ∈ full.scoreIndex.toList) :
    entry.memberId < full.storage.length :=
  lt_length_of_scoreAt ((h.mem_index entry).mp hent)

/-- A member has no entry with another score. -/
theorem not_mem_index {old : σ} (hold : full.scoreAt id = some old) (hne : old ≠ score) :
    (⟨score, id⟩ : ScoreEntry σ) ∉ full.scoreIndex.toList := by
  intro hnew
  have hscores := (h.mem_index _).mp hnew
  rw [hold] at hscores
  exact hne (Option.some.inj hscores)

end

variable [LawfulScore σ]

section

variable (h : Intact options full)
include h

theorem ranked : Ranked full.ranked where
  numbers entry hent := h.numbers entry (h.mem_ranked.mp hent)
  ordered := by
    rw [FullState.ranked, pairwise_map]
    exact h.sorted.ordered.imp less_iff.mp
  names := by
    rw [FullState.ranked, map_map]
    refine h.sorted.nodup.map_on ?_
    intro first hfst second hsnd hname
    have hid := h.memberView_inj (h.lt_length hfst) (h.lt_length hsnd) hname
    exact h.eq_of_memberId hfst hsnd hid

theorem lookup_ranked : lookup full.ranked = lookup full.storage :=
  lookup_congr h.ranked.names h.names fun _ ↦ h.mem_ranked

theorem distinctIds : DistinctIds full.scoreIndex.toList :=
  h.sorted.nodup.map_on fun _ hfst _ hsnd hid ↦ h.eq_of_memberId hfst hsnd hid

theorem size_eq : full.scoreIndex.size = full.storage.length := by
  rw [h.shape.size, ← length_map ScoreEntry.memberId]
  apply length_eq_of_mem_iff_lt h.distinctIds
  intro id
  rw [mem_map]
  constructor
  · rintro ⟨entry, hent, rfl⟩
    exact h.lt_length hent
  · intro hid
    obtain ⟨score, hscore⟩ := exists_scoreAt hid
    exact ⟨⟨score, id⟩, (h.mem_index ⟨score, id⟩).mpr hscore, rfl⟩

/-- The parts agree, so the check of the code passes. -/
theorem checkInvariants (hroomy : Roomy options.index) :
    (ZSet.full full).checkInvariants options = true := by
  have hslots : full.slots.length = full.scoreIndex.size := by
    rw [h.size_eq, length_eq_of_mem_iff_lt h.slots_nodup h.mem_slots]
  have hvalid := validate_of_sorted hroomy h.shape h.sorted
  have hall : full.slots.all (fun id ↦ decide (id < full.storage.length) &&
      (full.scoreAt id).any fun score ↦
        (rank options.index full.memberView ⟨score, id⟩ full.scoreIndex).isSome) = true := by
    rw [all_eq_true]
    intro id hid
    have hlt := (h.mem_slots id).mp hid
    obtain ⟨score, hscore⟩ := exists_scoreAt hlt
    obtain ⟨position, hrank, -⟩ := rank_spec h.shape h.sorted h.distinctIds
      ((h.mem_index ⟨score, id⟩).mpr hscore)
    simp [hlt, hscore, hrank]
  simp [ZSet.checkInvariants, hslots, hvalid, hall]

end

omit [LawfulScore σ] in
/-- Cutting the blocks anew, or no longer sharing the layer, keeps everything. -/
theorem recut (h : Intact options full) {index : ScoreIndex σ} {shared : Bool}
    (hrecut : Recut options.index full.scoreIndex index) :
    Intact options { full with scoreIndex := index, shared := shared } :=
  { h with
    shape := hrecut.shape h.shape
    sorted := by
      rw [hrecut.toList]
      exact h.sorted
    mem_index := by
      rw [hrecut.toList]
      exact h.mem_index }

end Intact

end FullState

end GoblinCore.SortedSet
