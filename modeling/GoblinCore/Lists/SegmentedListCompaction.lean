import GoblinCore.Lists.SegmentedListRuns

/-!
# Compacting a segmented list

`compact` merges neighbouring leaves as long as their entries are few enough for one leaf.  When
they are few enough but too large, leaves are built of them anew and the same place is looked at
again, so that the loop never ends.
-/

namespace GoblinCore.SegmentedList

open StringEncoding ListListpack Refusable List Nat

variable {settings : Settings} {values first second : List ByteString}
  {contents : List (List ByteString)} {leaf left right : ListListpack}
  {front leaves back built : List ListListpack} {list : SegmentedList} {fuel : ℕ}

variable (settings) in
/-- Neighbours that are few enough for one leaf always fit it. -/
def Merges : List (List ByteString) → Prop
  | first :: second :: rest =>
    if (first ++ second).length ≤ settings.leafEntries then
      assignLeaf settings (first ++ second) ≠ .ok none ∧ Merges ((first ++ second) :: rest)
    else Merges (second :: rest)
  | _ => True
termination_by contents => contents.length

/-! ## Few values -/

section

variable (hne : values ≠ []) (hfew : values.length ≤ settings.leafEntries)
include hne hfew

/-- Few values are one balanced leaf, if they fit it. -/
theorem buildBalancedLeaves_few {assigned : Option ListListpack}
    (h : assignLeaf settings values = .ok assigned) :
    buildBalancedLeaves settings values = .ok (assigned.map fun leaf ↦ [leaf]) := by
  have hlen := length_pos_iff.mpr hne
  have hone : (values.length + settings.leafEntries - 1) / settings.leafEntries = 1 := by
    rw [Nat.div_eq_iff (by omega)]
    omega
  unfold buildBalancedLeaves
  dsimp only
  rw [hone, Nat.div_one, Nat.mod_one, balancedLoop, if_neg (lt_irrefl 0), Nat.add_zero, take_length,
    h]
  cases assigned <;> rfl

theorem buildLeaves_few (h : assignLeaf settings values = .ok (some leaf)) :
    buildLeaves settings values .balanced = .ok [leaf] := by
  rw [buildLeaves, if_neg hne, if_pos rfl, buildBalancedLeaves_few hne hfew h]
  rfl

/-- Few values that do not fit one leaf are not built into one. -/
theorem buildLeaves_ne_singleton (hstored : Stored settings values)
    (h : assignLeaf settings values = .ok none) :
    buildLeaves settings values .balanced ≠ .ok [leaf] := by
  have hround := hstored.readBack
  have hlen := length_pos_iff.mpr hne
  have hnext : Yields (nextGreedy settings .balanced values) False fun found ↦
      ∃ best leaf, found = some (best, leaf) ∧ 1 ≤ best ∧
        assignLeaf settings (values.take best) = .ok (some leaf) := by
    refine search_spec (fun take htake ↦ ?_) le_rfl (fun _ ↦ ⟨rfl, by omega⟩) (by simp) (by omega)
    obtain ⟨assigned, hassign, hleaf⟩ :=
      (assignLeaf_take hne hround htake).ok (not_not.mpr hstored)
    change Yields (assignLeaf settings (values.take take)) _ _
    rw [hassign]
    cases assigned with
    | none => exact hleaf
    | some leaf => rfl
  obtain ⟨_, hfound, best, other, rfl, hpos, hassign⟩ := hnext.ok id
  obtain ⟨fuel, hfuel⟩ := Nat.exists_eq_succ_of_ne_zero hlen.ne'
  obtain ⟨others, hoths, hpacks⟩ := (greedyLoop_spec .balanced
    (by rw [length_drop]; omega : (values.drop best).length ≤ fuel)
    (forall_drop hround best)).ok (not_not.mpr (forall_drop hstored best))
  have hbuilt : buildLeaves settings values .balanced = .ok (other :: others) := by
    rw [buildLeaves, if_neg hne, if_pos rfl, buildBalancedLeaves_few hne hfew h]
    change greedyLoop settings .balanced values.length values = _
    rw [hfuel, greedyLoop, if_neg hne, hfound]
    change (do let others ← greedyLoop settings .balanced fuel (values.drop best)
               pure (other :: others)) = _
    rw [hoths]
    rfl
  rw [hbuilt]
  rintro ⟨⟩
  rw [take_of_length_le (drop_eq_nil_iff.mp hpacks.nil), h] at hassign
  cases hassign

end

/-! ## Rounds of the loop -/

theorem replaceLeafRange_pair (hleaves : list.leaves = front ++ left :: right :: back)
    (hbuilt : buildLeaves settings values .balanced = .ok built) :
    replaceLeafRange settings list front.length 2 values .balanced =
      .ok (rebuildIndex { list with leaves := front ++ (built ++ back) }) := by
  have hsplice : splice list.leaves front.length 2 built = front ++ (built ++ back) := by
    rw [splice, hleaves, take_left, drop_length_add_append, append_assoc]
    rfl
  rw [replaceLeafRange, hbuilt, ← hsplice]
  rfl

/-- Leaves that are few enough for one but too large are never left. -/
theorem compactLoop_stuck (hholds : Forall₂ (HoldsLeaf settings) leaves contents)
    (hleaves : list.leaves = front ++ (leaves ++ back)) (htwo : 2 ≤ leaves.length)
    (hfew : contents.flatten.length ≤ settings.leafEntries)
    (hnone : assignLeaf settings contents.flatten = .ok none) :
    compactLoop settings fuel front.length list = none := by
  induction fuel generalizing list leaves contents with
  | zero => rfl
  | succ fuel ih =>
    cases hholds with
    | nil => cases htwo
    | @cons left first _ _ hleft hmore =>
    cases hmore with
    | nil => exact absurd htwo (by simp)
    | @cons right second more rest hright hmore =>
    rw [flatten_cons, flatten_cons, ← append_assoc] at hfew hnone
    have hne : first ++ second ≠ [] := append_ne_nil_of_left_ne_nil hleft.ne_nil _
    have hpair := (length_append ▸ Nat.le_add_right _ _).trans hfew
    have hstored : Stored settings (first ++ second) :=
      forall_mem_append.mpr ⟨hleft.stored, hright.stored⟩
    obtain ⟨built, hbuilt, parts, hparts, hsame⟩ :=
      (buildLeaves_spec .balanced hstored.readBack).ok (not_not.mpr hstored)
    rw [compactLoop_pair hleaves hleft hright (replaceLeafRange_pair hleaves hbuilt), if_pos hpair]
    have hlen : 2 ≤ (built ++ more).length := by
      by_contra hless
      cases hparts with
      | nil => exact hne hsame.symm
      | cons _ hparts =>
        cases hparts with
        | cons => exact hless (by simp)
        | nil =>
          cases hmore with
          | cons => exact hless (by simp)
          | nil =>
            rw [flatten_nil, append_nil] at hnone
            exact buildLeaves_ne_singleton hne hpair hstored hnone hbuilt
    refine ih (rel_append hparts hmore) (by simp [rebuildIndex]) hlen ?_ ?_
    all_goals rw [flatten_append, hsame]; assumption

theorem exists_fuel_succ {loop : ℕ → Option Outcome} (hzero : loop 0 = none) :
    (∃ fuel outcome, loop fuel = some outcome) ↔
      ∃ fuel outcome, loop (fuel + 1) = some outcome := by
  constructor
  · rintro ⟨fuel, outcome, hloop⟩
    cases fuel with
    | zero => cases hzero.symm.trans hloop
    | succ fuel => exact ⟨fuel, outcome, hloop⟩
  · rintro ⟨fuel, hloop⟩
    exact ⟨fuel + 1, hloop⟩

theorem compactLoop_returns_iff (hleaves : list.leaves = front ++ leaves)
    (hholds : Forall₂ (HoldsLeaf settings) leaves contents) :
    (∃ fuel outcome, compactLoop settings fuel front.length list = some outcome) ↔
      Merges settings contents := by
  induction contents using Merges.induct settings generalizing list front leaves with
  | case1 first second rest hfew ih =>
    cases hholds with | @cons left _ _ _ hleft hmore =>
    cases hmore with | @cons right _ back _ hright hmore =>
    have hne : first ++ second ≠ [] := append_ne_nil_of_left_ne_nil hleft.ne_nil _
    have hstored : Stored settings (first ++ second) :=
      forall_mem_append.mpr ⟨hleft.stored, hright.stored⟩
    obtain ⟨assigned, hassign, hleaf⟩ :=
      (assignLeaf_spec hne hstored.readBack).ok (not_not.mpr hstored)
    rw [Merges, if_pos hfew, hassign]
    cases assigned with
    | none =>
      refine iff_of_false ?_ fun hboth ↦ hboth.1 rfl
      rintro ⟨fuel, outcome, hloop⟩
      have hboth : Forall₂ (HoldsLeaf settings) [left, right] [first, second] :=
        .cons hleft (.cons hright .nil)
      rw [compactLoop_stuck hboth hleaves le_rfl (by simpa using hfew) (by simpa using hassign)]
        at hloop
      cases hloop
    | some leaf =>
      have hnext := replaceLeafRange_pair hleaves (buildLeaves_few hne hfew hassign)
      rw [exists_fuel_succ rfl, and_iff_right (by simp)]
      simp only [compactLoop_pair hleaves hleft hright hnext, if_pos hfew]
      exact ih rfl (.cons hleaf hmore)
  | case2 first second rest hmany ih =>
    cases hholds with | @cons left _ _ _ hleft hmore =>
    have hbuilds := hmore
    cases hmore with | @cons right _ back _ hright hmore =>
    have hstored : Stored settings (first ++ second) :=
      forall_mem_append.mpr ⟨hleft.stored, hright.stored⟩
    obtain ⟨built, hbuilt, -⟩ :=
      (buildLeaves_spec .balanced hstored.readBack).ok (not_not.mpr hstored)
    rw [Merges, if_neg hmany, exists_fuel_succ rfl]
    simp only [compactLoop_pair hleaves hleft hright (replaceLeafRange_pair hleaves hbuilt),
      if_neg hmany]
    have hshift : list.leaves = (front ++ [left]) ++ right :: back := by simp [hleaves]
    have hrest := ih hshift hbuilds
    rwa [length_append] at hrest
  | case3 contents hfew =>
    have hlast : contents.length < 2 ∧ Merges settings contents := by
      match contents, hfew with
      | [], _ => simp [Merges]
      | [_], _ => simp [Merges]
      | first :: second :: rest, hfew => exact absurd rfl (hfew first second rest)
    refine iff_of_true ⟨1, { list := rebuildIndex list }, ?_⟩ hlast.2
    have hlen := hholds.length_eq
    rw [compactLoop, if_neg (by rw [hleaves, length_append]; omega)]

/-- `compact` ends, with the elements it began with, exactly if neighbouring leaves whose entries
are few enough for one leaf always fit it. -/
theorem compact_returns_iff (settings : Settings) (list : SegmentedList) (values : List ByteString)
    (indexed : Bool) (h : Represents settings list values indexed)
    (contents : List (List ByteString))
    (hholds : Forall₂ (HoldsLeaf settings) list.leaves contents) :
    (∃ fuel outcome, list.compact settings fuel = some outcome ∧
      Represents settings outcome.list values true) ↔ Merges settings contents := by
  have hleaves : list.leaves = [] ++ list.leaves := rfl
  rw [← compactLoop_returns_iff hleaves hholds]
  constructor
  · rintro ⟨fuel, outcome, hcompact, -⟩
    exact ⟨fuel, outcome, hcompact⟩
  · rintro ⟨fuel, outcome, hcompact⟩
    exact ⟨fuel, outcome, hcompact, compactLoop_spec h hcompact⟩

/-- The leaves of `changed`, of which the second and the third fit one. -/
theorem changed_holds : Forall₂ (HoldsLeaf smallSettings) changed.leaves
    [[[1], [2]], [[3]], [[4]], [[7], [8]]] := by
  obtain ⟨parts, hparts, hflat⟩ :=
    (run_represents represents_empty changes_run changes_permitted).packs
  have hcounts : parts.map length = changed.leaves.map ListListpack.count := by
    refine (forall₂_eq_eq_eq ▸ forall₂_map_left_iff.mpr (forall₂_map_right_iff.mpr ?_) :
      changed.leaves.map ListListpack.count = parts.map length).symm
    exact hparts.imp fun _ _ hleaf ↦ hleaf.holds.count_eq
  have hsame : parts = [[[1], [2]], [[3]], [[4]], [[7], [8]]] :=
    eq_iff_flatten_eq.mpr ⟨hflat, hcounts.trans (by decide +kernel)⟩
  rwa [← hsame]

/-- The second and the third leaf of `changed` become one. -/
theorem compact_returns_changed :
    ∃ fuel outcome, changed.compact smallSettings fuel = some outcome ∧
      Represents smallSettings outcome.list [[1], [2], [3], [4], [7], [8]] true := by
  refine (compact_returns_iff smallSettings changed _ _
    (run_represents represents_empty changes_run changes_permitted) _ changed_holds).mpr ?_
  have hfits : assignLeaf smallSettings [[3], [4]] = .ok (some ⟨2, [129, 3, 129, 4]⟩) := rfl
  have hfew : smallSettings.leafEntries = 2 := by decide
  simp [Merges, hfew, hfits]

/-! ## Two large values -/

/-- Two values that do not fit one leaf are assigned to two. -/
theorem buildViewLeaves_pair {value : ByteString}
    (hone : assignLeaf settings [value] = .ok (some leaf))
    (hboth : assignLeaf settings [value, value] = .ok none) :
    buildViewLeaves settings [value, value] = .ok [leaf, leaf] := by
  have htwo := two_le_leafEntries settings
  have hmin : min settings.leafEntries 2 = 2 := min_eq_right htwo
  have hmin' : min settings.leafEntries 1 = 1 := min_eq_right (by omega)
  simp [buildViewLeaves, viewLoop, nextView, search, hmin, hmin', hone, hboth, bind, Except.bind,
    pure, Except.pure]

/-- Strings are stored as they are. -/
def verbatimSettings : Settings := { defaultSettings with encoding := { packed := 2 ^ 30 } }

section

variable {value : ByteString} (hle : value.length ≤ 65535)
include hle

theorem encode_verbatim : encode verbatimSettings.lz4 verbatimSettings.encoding
    verbatimSettings.compression value = .ok ⟨value, .verbatim⟩ := by
  rw [encode, if_pos (by decide), if_neg (by omega)]

theorem assignLeaf_large_pair (hlt : 32766 < value.length) :
    assignLeaf verbatimSettings [value, value] = .ok none := by
  have hstored : stored verbatimSettings.encoding ⟨value, .verbatim⟩ = value := rfl
  have hsize : ListEntry.entrySize value.length = 3 + value.length := by
    rw [ListEntry.entrySize, ListEntry.headerBytes, if_neg (by omega)]
  have hencode := encode_verbatim hle
  simp [assignLeaf, ListListpack.assign, assignLoop, hencode, hstored, hsize, maxValueBytes,
    maxBlobBytes, headerBytes, bind, Except.bind, pure, Except.pure, hle]
  intro _
  rw [if_neg (by omega), if_pos (by omega)]
  rfl

/-- Two such values stand in two leaves that `compact` never gets past. -/
theorem compact_large (hlt : 32766 < value.length) (fuel : ℕ) :
    (({} : SegmentedList).assign verbatimSettings [value, value]).list.compact verbatimSettings fuel
      = none := by
  have hstored : Stored verbatimSettings [value] :=
    forall_mem_singleton.mpr ⟨⟨_, encode_verbatim hle⟩, roundTrips_of_disabled (by decide)⟩
  have hnone := assignLeaf_large_pair hle hlt
  obtain ⟨assigned, hassigned, hone⟩ :=
    (assignLeaf_spec (cons_ne_nil value []) hstored.readBack).ok (not_not.mpr hstored)
  cases assigned with
  | none => exact absurd hone (by simp)
  | some leaf =>
  have hpair : Forall₂ (HoldsLeaf verbatimSettings) [leaf, leaf] [[value], [value]] :=
    .cons hone (.cons hone .nil)
  have hleaves : (assign verbatimSettings {} [value, value]).list.leaves
      = [] ++ ([leaf, leaf] ++ []) := by
    rw [assign, assignResult, buildViewLeaves_pair hassigned hnone]
    rfl
  exact compactLoop_stuck hpair hleaves le_rfl (two_le_leafEntries verbatimSettings) hnone

end

/-- After two values of 60,000 bytes were assigned, `compact` does not return. -/
theorem compact_never_returns : ∃ list,
    Runs {} ([.assign [replicate 60000 97, replicate 60000 97]] : List (Call verbatimSettings))
        list ∧
      ∀ fuel, list.compact verbatimSettings fuel = none := by
  have hlen : (replicate 60000 97 : ByteString).length = 60000 := length_replicate
  exact ⟨_, ⟨_, rfl, rfl⟩, compact_large (by omega) (by omega)⟩

end GoblinCore.SegmentedList
