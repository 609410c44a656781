import GoblinCore.Lists.SegmentedList
import Mathlib.Tactic.Common

/-!
# Building the leaves of a segmented list

Values that can be stored are always packed into leaves, which hold them in order, are not empty
and are within the limit of entries.  A throw means that one of the values was not encoded.
-/

namespace GoblinCore.SegmentedList

open StringEncoding ListListpack Refusable List Nat

variable {settings : Settings}

variable (settings) in
/-- The value is encoded, and reads back. -/
def CanStore (value : ByteString) : Prop :=
  Storable settings.lz4 settings.encoding settings.compression value

variable (settings) in
/-- All values are encoded, and read back. -/
abbrev Stored (values : List ByteString) : Prop := ∀ value ∈ values, CanStore settings value

variable (settings) in
/-- All values that are encoded read back. -/
abbrev ReadBack (values : List ByteString) : Prop :=
  ∀ value ∈ values, RoundTrips settings.lz4 settings.encoding settings.compression value

variable (settings) in
/-- A leaf that holds some values, within the limit. -/
structure HoldsLeaf (leaf : ListListpack) (values : List ByteString) : Prop where
  holds : Holds settings.lz4 settings.encoding leaf values
  stored : Stored settings values
  ne_nil : values ≠ []
  length_le : values.length ≤ settings.leafEntries

variable (settings) in
theorem two_le_leafEntries : 2 ≤ settings.leafEntries := le_max_left _ _

variable (settings) in
theorem one_le_leafEntries : 1 ≤ settings.leafEntries :=
  le_trans (by decide) (two_le_leafEntries settings)

variable (settings) in
/-- Leaves that hold the values, one after another. -/
def Packs (leaves : List ListListpack) (values : List ByteString) : Prop :=
  ∃ contents, List.Forall₂ (HoldsLeaf settings) leaves contents ∧ contents.flatten = values

theorem packs_nil : Packs settings [] [] := ⟨[], .nil, rfl⟩

variable {values : List ByteString} {leaf : ListListpack} {fuel high take : ℕ}

theorem Packs.append {leaves others : List ListListpack} {more : List ByteString}
    (h : Packs settings leaves values) (hoths : Packs settings others more) :
    Packs settings (leaves ++ others) (values ++ more) := by
  obtain ⟨contents, hleaves, rfl⟩ := h
  obtain ⟨otherContents, hoths, rfl⟩ := hoths
  exact ⟨contents ++ otherContents, rel_append hleaves hoths, flatten_append⟩

theorem HoldsLeaf.packs (h : HoldsLeaf settings leaf values) : Packs settings [leaf] values :=
  ⟨[values], .cons h .nil, by simp⟩

section

variable {P : ByteString → Prop} (h : ∀ value ∈ values, P value) (count : ℕ)
include h

theorem forall_take : ∀ value ∈ values.take count, P value :=
  fun value hmem ↦ h value (mem_of_mem_take hmem)

theorem forall_drop : ∀ value ∈ values.drop count, P value :=
  fun value hmem ↦ h value (mem_of_mem_drop hmem)

end

/-! ## One leaf -/

/-- A single value always fits a leaf. -/
theorem assignLeaf_spec (hne : values ≠ []) (hround : ReadBack settings values) :
    Yields (assignLeaf settings values) (¬Stored settings values) fun
      | some leaf => HoldsLeaf settings leaf values
      | none => 1 < values.length := by
  refine (assign_spec hround (one_le_leafEntries settings)).mono id fun assigned hassigned ↦ ?_
  cases assigned with
  | none => exact hassigned
  | some leaf =>
    obtain ⟨hstored, hholds, hcnt⟩ := hassigned
    exact ⟨hholds, hstored, hne, hholds.count_eq ▸ hcnt⟩

/-- A leaf reads as its values. -/
theorem leafValues_eq (h : Holds settings.lz4 settings.encoding leaf values) :
    leafValues settings leaf = .ok values := by
  have hviews := h.forEach
  unfold leafValues
  generalize leaf.forEach settings.encoding = views at hviews
  clear h
  induction hviews with
  | nil => rfl
  | cons hview hrest ih =>
    rw [mapM_cons, ih, show EncodedStringView.toString _ settings.lz4 = _ from hview.append []]
    rfl

/-- The search finds a range, since the smallest one fits: as long as nothing was found it is among
those that are left. -/
theorem search_spec {fits : ℕ → Except String (Option ListListpack)} {low : ℕ} {refused : Prop}
    {best : Option (ℕ × ListListpack)} {good : ℕ → ListListpack → Prop}
    (hfits : ∀ take, 1 ≤ take → Yields (fits take) refused fun
      | some leaf => good take leaf
      | none => 1 < take) (hlow : 1 ≤ low) (hnone : best = none → low = 1 ∧ 1 ≤ high)
    (hbest : ∀ found, best = some found → 1 ≤ found.1 ∧ good found.1 found.2)
    (hfuel : high + 1 ≤ fuel + low) :
    Yields (search fits fuel low high best) refused fun found ↦
      ∃ take leaf, found = some (take, leaf) ∧ 1 ≤ take ∧ good take leaf := by
  induction fuel generalizing low high best with
  | zero =>
    cases best with
    | none => exact absurd (hnone rfl) (by omega)
    | some found => exact ⟨found.1, found.2, rfl, hbest found rfl⟩
  | succ fuel ih =>
    rw [search]
    split
    · refine (hfits (low + (high - low) / 2) (by omega)).bind id fun fitted hfitted ↦ ?_
      cases fitted with
      | some candidate =>
        refine ih (by omega) (by simp) ?_ (by omega)
        rintro _ ⟨⟩
        exact ⟨by omega, hfitted⟩
      | none =>
        refine ih hlow (fun hnil ↦ ?_) hbest ?_
        · have := hnone hnil
          omega
        · dsimp only at hfitted
          omega
    · cases best with
      | none => exact absurd (hnone rfl) (by omega)
      | some found => exact ⟨found.1, found.2, rfl, hbest found rfl⟩

/-! ## Several leaves -/

theorem take_ne_nil (htake : 1 ≤ take) (hne : values ≠ []) : values.take take ≠ [] := by
  rw [Ne, take_eq_nil_iff, not_or]
  exact ⟨by omega, hne⟩

section

variable (hne : values ≠ []) (hround : ReadBack settings values)
include hne hround

/-- A leaf of the first values. -/
theorem assignLeaf_take (htake : 1 ≤ take) :
    Yields (assignLeaf settings (values.take take)) (¬Stored settings values) fun
      | some leaf => HoldsLeaf settings leaf (values.take take)
      | none => 1 < take := by
  refine (assignLeaf_spec (take_ne_nil htake hne) (forall_take hround take)).mono
    (fun hrefused hall ↦ hrefused (forall_take hall take)) fun assigned hassigned ↦ ?_
  cases assigned with
  | none => exact lt_of_lt_of_le hassigned (length_take_le take values)
  | some leaf => exact hassigned

/-- A leaf of the last values. -/
theorem assignLeaf_drop (htake : 1 ≤ take) :
    Yields (assignLeaf settings (values.drop (values.length - take))) (¬Stored settings values) fun
      | some leaf => HoldsLeaf settings leaf (values.drop (values.length - take))
      | none => 1 < take := by
  have hlen := length_pos_iff.mpr hne
  have hsome : values.drop (values.length - take) ≠ [] := by
    rw [Ne, drop_eq_nil_iff]
    omega
  refine (assignLeaf_spec hsome (forall_drop hround _)).mono
    (fun hrefused hall ↦ hrefused (forall_drop hall _)) fun assigned hassigned ↦ ?_
  cases assigned with
  | none =>
    simp only [length_drop] at hassigned
    change 1 < take
    omega
  | some leaf => exact hassigned

/-- The next leaf of `build_view_leaves` takes some of the values. -/
theorem nextView_spec :
    Yields (nextView settings values) (¬Stored settings values) fun found ↦
      ∃ best leaf, found = some (best, leaf) ∧ 1 ≤ best ∧
        HoldsLeaf settings leaf (values.take best) := by
  have hlen := length_pos_iff.mpr hne
  have hone := one_le_leafEntries settings
  refine (assignLeaf_take hne hround (by omega)).bind id fun fitted hfitted ↦ ?_
  cases fitted with
  | some leaf => exact ⟨_, leaf, rfl, by omega, hfitted⟩
  | none =>
    refine search_spec (fun take ↦ assignLeaf_take hne hround) le_rfl (fun _ ↦ ⟨rfl, ?_⟩) (by simp)
      (by omega)
    exact le_sub_one_of_lt hfitted

/-- The next leaf of `build_greedy_leaves` takes some of the values at its end. -/
theorem nextGreedy_spec (bias : LeafBias) :
    Yields (nextGreedy settings bias values) (¬Stored settings values) fun found ↦
      ∃ best leaf, found = some (best, leaf) ∧ 1 ≤ best ∧ HoldsLeaf settings leaf
        (if bias = .front then values.drop (values.length - best) else values.take best) := by
  have hlen := length_pos_iff.mpr hne
  have hone := one_le_leafEntries settings
  refine search_spec (fun take htake ↦ ?_) le_rfl (fun _ ↦ ⟨rfl, by omega⟩) (by simp) (by omega)
  split
  · exact assignLeaf_drop hne hround htake
  · exact assignLeaf_take hne hround htake

end

theorem viewLoop_spec (hfuel : values.length ≤ fuel) (hround : ReadBack settings values) :
    Yields (viewLoop settings fuel values) (¬Stored settings values) (Packs settings · values) := by
  induction fuel generalizing values with
  | zero =>
    obtain rfl := length_eq_zero_iff.mp (le_zero.mp hfuel)
    exact packs_nil
  | succ fuel ih =>
    rw [viewLoop]
    split
    · rename_i hnil
      exact hnil ▸ packs_nil
    rename_i hne
    refine (nextView_spec hne hround).bind id ?_
    rintro _ ⟨best, leaf, rfl, hpos, hleaf⟩
    refine (ih (by rw [length_drop]; omega) (forall_drop hround best)).bind
      (fun hrefused hall ↦ hrefused (forall_drop hall best)) fun others hoths ↦ ?_
    have hboth := hleaf.packs.append hoths
    rwa [take_append_drop] at hboth

theorem buildViewLeaves_spec (hround : ReadBack settings values) :
    Yields (buildViewLeaves settings values) (¬Stored settings values) (Packs settings · values) :=
  viewLoop_spec (le_refl _) hround

theorem greedyLoop_spec (bias : LeafBias) (hfuel : values.length ≤ fuel)
    (hround : ReadBack settings values) :
    Yields (greedyLoop settings bias fuel values) (¬Stored settings values)
      (Packs settings · values) := by
  induction fuel generalizing values with
  | zero =>
    obtain rfl := length_eq_zero_iff.mp (le_zero.mp hfuel)
    exact packs_nil
  | succ fuel ih =>
    rw [greedyLoop]
    split
    · rename_i hnil
      exact hnil ▸ packs_nil
    rename_i hne
    refine (nextGreedy_spec hne hround bias).bind id ?_
    rintro _ ⟨best, leaf, rfl, hpos, hleaf⟩
    dsimp only
    split at hleaf
    · rename_i hfront
      rw [if_pos hfront]
      refine (ih (by rw [length_take]; omega) (forall_take hround _)).bind
        (fun hrefused hall ↦ hrefused (forall_take hall _)) fun others hoths ↦ ?_
      have hboth := hoths.append hleaf.packs
      rwa [take_append_drop] at hboth
    · rename_i hback
      rw [if_neg hback]
      refine (ih (by rw [length_drop]; omega) (forall_drop hround best)).bind
        (fun hrefused hall ↦ hrefused (forall_drop hall best)) fun others hoths ↦ ?_
      have hboth := hleaf.packs.append hoths
      rwa [take_append_drop] at hboth

/-- The leaves that are left share what is left of the values, which some get one more of. -/
theorem balancedLoop_spec {base extra leaf more : ℕ} (hbase : 1 ≤ base)
    (hlen : values.length = more * base + (extra - leaf)) (hextra : extra - leaf ≤ more)
    (hround : ReadBack settings values) :
    Yields (balancedLoop settings base extra leaf more values) (¬Stored settings values)
      fun built ↦ ∀ leaves, built = some leaves → Packs settings leaves values := by
  induction more generalizing leaf values with
  | zero =>
    obtain rfl := length_eq_zero_iff.mp (by omega : values.length = 0)
    rintro _ ⟨⟩
    exact packs_nil
  | succ more ih =>
    rw [succ_mul] at hlen
    have hne : values ≠ [] := length_pos_iff.mp (by omega)
    rw [balancedLoop]
    refine (assignLeaf_take hne hround (by omega)).bind id fun fitted hfitted ↦ ?_
    cases fitted with
    | none => exact fun leaves hleaves ↦ absurd hleaves (by simp)
    | some packed =>
      have hrest : (values.drop (base + if leaf < extra then 1 else 0)).length
          = more * base + (extra - (leaf + 1)) := by
        rw [length_drop]
        split <;> omega
      refine (ih hrest (by omega) (forall_drop hround _)).bind
        (fun hrefused hall ↦ hrefused (forall_drop hall _)) fun built hbuilt leaves hleaves ↦ ?_
      obtain ⟨others, hoths, rfl⟩ := Option.map_eq_some_iff.mp hleaves
      have hboth := hfitted.packs.append (hbuilt others hoths)
      rwa [take_append_drop] at hboth

theorem buildBalancedLeaves_spec (hne : values ≠ []) (hround : ReadBack settings values) :
    Yields (buildBalancedLeaves settings values) (¬Stored settings values)
      fun built ↦ ∀ leaves, built = some leaves → Packs settings leaves values := by
  have hlen := length_pos_iff.mpr hne
  have hone := one_le_leafEntries settings
  have hcnt : 1 ≤ (values.length + settings.leafEntries - 1) / settings.leafEntries :=
    (one_le_div_iff (by omega)).mpr (by omega)
  have hle : (values.length + settings.leafEntries - 1) / settings.leafEntries ≤ values.length := by
    rw [div_le_iff_le_mul (by omega)]
    have hmul : values.length * 1 ≤ values.length * settings.leafEntries :=
      mul_le_mul_left _ (by omega)
    omega
  refine balancedLoop_spec ((one_le_div_iff (by omega)).mpr hle) ?_ ?_ hround
  · exact (div_add_mod _ _).symm
  · exact (mod_lt _ (by omega)).le

/-- Values that can be stored are built into leaves. -/
theorem buildLeaves_spec (bias : LeafBias) (hround : ReadBack settings values) :
    Yields (buildLeaves settings values bias) (¬Stored settings values)
      (Packs settings · values) := by
  have hgreedy := greedyLoop_spec bias (le_refl values.length) hround
  unfold buildLeaves
  split
  · rename_i hnil
    exact hnil ▸ packs_nil
  rename_i hne
  split
  · refine (buildBalancedLeaves_spec hne hround).bind id fun built hbuilt ↦ ?_
    cases built with
    | some leaves => exact hbuilt leaves rfl
    | none => exact hgreedy
  · exact hgreedy

end GoblinCore.SegmentedList
