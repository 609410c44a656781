import GoblinCore.Lists.SegmentedListRemoval

/-!
# Runs of a segmented list

What a caller reads from a segmented list is the sequence of values that its calls make, along
every run whose values read back, whose lists stay below 2^32 values, and in which no batch at an
end has a value that is refused.  `check_invariants` is then whether the run built the tree.
-/

namespace GoblinCore.SegmentedList

open StringEncoding ListListpack Refusable
open List hiding count

variable {settings : Settings} {list : SegmentedList} {indexed : Bool}
  {leaves front back : List ListListpack} {leaf : ListListpack}
  {values before here after : List ByteString}

/-! ## Reading -/

variable {index localEnd : ℕ} {value : ByteString} {others : List ByteString}

theorem Represents.viewAt (h : Represents settings list values indexed)
    (hidx : index < values.length) :
    Faithful settings.lz4 (list.viewAt settings index) values[index] := by
  obtain ⟨front, leaf, back, before, here, after, offset, hsplit, hlocate, rfl, hoff⟩ :=
    h.locate_spec hidx
  unfold SegmentedList.viewAt
  rw [hlocate, hsplit.getElem_eq hoff]
  dsimp only
  rw [show list.leafAt front.length = leaf from hsplit.getD_eq]
  exact hsplit.leaf.holds.viewAt hoff

/-- The leaves from one on. -/
theorem SplitAt.drop_eq (h : SplitAt settings leaves values front leaf back before here after) :
    leaves.drop front.length = leaf :: back := by
  rw [h.leaves_eq, drop_left]

theorem rangeLoop_spec (hpacks : Packs settings leaves values) (offset remaining : ℕ)
    (hoff : ∀ leaf ∈ leaves.head?, offset ≤ leaf.count) :
    List.Forall₂ (Faithful settings.lz4) (rangeLoop settings leaves offset remaining)
      ((values.drop offset).take remaining) := by
  induction leaves generalizing values offset remaining with
  | nil =>
    obtain rfl := hpacks.nil
    rw [drop_nil, take_nil]
    exact .nil
  | cons leaf rest ih =>
    obtain ⟨here, after, rfl, hleaf, hrest⟩ := hpacks.of_cons
    have hcnt := hleaf.holds.count_eq
    have hle : offset ≤ here.length := hcnt ▸ hoff leaf rfl
    rw [rangeLoop]
    split
    · rename_i hzero
      rw [hzero, take_zero]
      exact .nil
    · have htail := ih hrest 0 (remaining - min (leaf.count - offset) remaining)
        (fun other _ ↦ Nat.zero_le other.count)
      have hhead := hleaf.holds.forRange offset (min (leaf.count - offset) remaining)
      have hvals : ((here ++ after).drop offset).take remaining
          = (here.drop offset).take (min (leaf.count - offset) remaining)
            ++ (after.drop 0).take (remaining - min (leaf.count - offset) remaining) := by
        rw [drop_append_of_le_length hle, take_append, length_drop, drop_zero, hcnt]
        congr 1
        · rw [take_eq_take_iff, length_drop]
          omega
        · congr 1
          omega
      rw [hvals]
      exact rel_append hhead htail

theorem Represents.forRange (h : Represents settings list values indexed) (first count : ℕ) :
    List.Forall₂ (Faithful settings.lz4) (list.forRange settings first count)
      ((values.drop first).take count) := by
  unfold SegmentedList.forRange
  rw [h.size]
  split
  · rename_i hnothing
    rcases hnothing with hpast | rfl
    · rw [drop_eq_nil_of_le hpast, take_nil]
      exact .nil
    · exact .nil
  · obtain ⟨front, leaf, back, before, here, after, offset, hsplit, hlocate, hstart, hoff⟩ :=
      h.locate_spec (by omega : first < values.length)
    rw [hlocate]
    dsimp only
    have hvals : (values.drop first).take count
        = ((here ++ after).drop offset).take (min count (values.length - first)) := by
      have hdrop : values.drop first = (here ++ after).drop offset := by
        rw [hsplit.values_eq, append_assoc, ← hstart, drop_length_add_append]
      rw [← hdrop, take_eq_take_iff, length_drop]
      omega
    rw [hsplit.drop_eq, hvals]
    refine rangeLoop_spec (hsplit.leaf.packs.append hsplit.back) _ _ ?_
    intro other hoth
    obtain rfl : leaf = other := by simpa using hoth
    rw [hsplit.leaf.holds.count_eq]
    exact hoff.le

theorem findFirstLoop_spec (value : ByteString) (seen : List ByteString) {start : ℕ}
    (hpacks : Packs settings leaves values) (hstart : ∀ leaf ∈ leaves.head?, start ≤ leaf.count)
    (hnil : leaves = [] → start = 0) :
    ∃ found, findFirstLoop settings value leaves start (seen.length + start) = .ok found ∧
      IsFirst (seen ++ values) value (seen.length + start) found := by
  induction leaves generalizing values start seen with
  | nil =>
    obtain rfl := hpacks.nil
    refine ⟨none, rfl, fun other hle ↦ ?_⟩
    rw [append_nil, getElem?_eq_none (by omega)]
    simp
  | cons leaf rest ih =>
    obtain ⟨here, after, rfl, hleaf, hrest⟩ := hpacks.of_cons
    have hcnt := hleaf.holds.count_eq
    have hle : start ≤ here.length := hcnt ▸ hstart leaf rfl
    have hget : ∀ index, index < here.length →
        (seen ++ (here ++ after))[seen.length + index]? = here[index]? := by
      intro index hidx
      rw [getElem?_append_right (by omega), Nat.add_sub_cancel_left, getElem?_append_left hidx]
    obtain ⟨found, hfind, hfnd⟩ := hleaf.holds.findFirst value start
    rw [findFirstLoop, hfind]
    cases found with
    | some index =>
      have hidx : index < here.length := by
        by_contra hpast
        have hnone := hfnd.2.1
        rw [getElem?_eq_none (by omega)] at hnone
        cases hnone
      refine ⟨some (seen.length + start + index - start), rfl, ?_⟩
      rw [show seen.length + start + index - start = seen.length + index by omega]
      refine ⟨by have := hfnd.1; omega, by rw [hget index hidx]; exact hfnd.2.1, ?_⟩
      intro other hoth hless
      obtain ⟨position, rfl⟩ := Nat.exists_eq_add_of_le (by omega : seen.length ≤ other)
      rw [hget position (by omega)]
      exact hfnd.2.2 position (by omega) (by omega)
    | none =>
      obtain ⟨later, hloop, hlater⟩ := ih (seen ++ here) hrest
        (fun other _ ↦ Nat.zero_le other.count) (fun _ ↦ rfl)
      refine ⟨later, ?_, ?_⟩
      · rw [hcnt, show seen.length + start + (here.length - start)
          = (seen ++ here).length + 0 by rw [length_append]; omega]
        exact hloop
      · rw [append_assoc, length_append, Nat.add_zero] at hlater
        refine hlater.lower (by omega) fun other hoth hless ↦ ?_
        obtain ⟨position, rfl⟩ := Nat.exists_eq_add_of_le (by omega : seen.length ≤ other)
        rw [hget position (by omega)]
        exact hfnd position (by omega)

theorem Represents.findFirst (h : Represents settings list values indexed) (value : ByteString)
    (first : ℕ) :
    ∃ found, list.findFirst settings value first = .ok found ∧
      IsFirst values value first found := by
  unfold SegmentedList.findFirst
  rw [h.size]
  split
  · refine ⟨none, rfl, fun other hle ↦ ?_⟩
    rw [getElem?_eq_none (by omega)]
    simp
  · obtain ⟨front, leaf, back, before, here, after, offset, hsplit, hlocate, hstart, hoff⟩ :=
      h.locate_spec (by omega : first < values.length)
    rw [hlocate]
    dsimp only
    have hleaf : ∀ other ∈ (leaf :: back).head?, offset ≤ other.count := by
      intro other hoth
      obtain rfl : leaf = other := by simpa using hoth
      rw [hsplit.leaf.holds.count_eq]
      exact hoff.le
    obtain ⟨found, hfind, hfnd⟩ := findFirstLoop_spec value before
      (hsplit.leaf.packs.append hsplit.back) hleaf (fun hnil ↦ absurd hnil (by simp))
    rw [hsplit.drop_eq, ← hstart]
    rw [← append_assoc, ← hsplit.values_eq] at hfnd
    exact ⟨found, hfind, hfnd⟩

section

variable (h : SplitAt settings leaves values front leaf back before here after)
include h

/-- The leaf before one. -/
theorem SplitAt.previous (hfront : front ≠ []) :
    ∃ front' leaf' before' here', front.length = front'.length + 1 ∧
      SplitAt settings leaves values front' leaf' (leaf :: back) before' here' (here ++ after) ∧
      before.length = before'.length + here'.length := by
  obtain ⟨front', leaf', before', here', hsplit, hlen⟩ := h.front.splitLast hfront
  have hpos := length_pos_iff.mpr hfront
  refine ⟨front', leaf', before', here', by omega, ⟨?_, ?_, hsplit.front, hsplit.leaf, ?_⟩, ?_⟩
  · rw [h.leaves_eq, hsplit.leaves_eq, append_assoc, singleton_append]
  · rw [h.values_eq, hsplit.values_eq, append_nil, append_assoc]
  · exact h.leaf.packs.append h.back
  · rw [hsplit.values_eq, append_nil, length_append]

/-- The last match in a leaf is the last of the list up to there. -/
theorem SplitAt.isLast_some (hend : localEnd ≤ here.length)
    (hfnd : IsLast here value localEnd (some index)) :
    IsLast values value (before.length + localEnd) (some (before.length + index)) := by
  obtain ⟨hidx, hval, hlast⟩ := hfnd
  refine ⟨by omega, by rw [h.getElem?_eq (by omega)]; exact hval, fun other hoth hless ↦ ?_⟩
  obtain ⟨position, rfl⟩ := Nat.exists_eq_add_of_le (by omega : before.length ≤ other)
  rw [h.getElem?_eq (by omega)]
  exact hlast position (by omega) (by omega)

/-- Without a match in a leaf, the last one is before it. -/
theorem SplitAt.isLast_none (hend : localEnd ≤ here.length)
    (hnone : IsLast here value localEnd none) {found : Option ℕ}
    (hfnd : IsLast values value before.length found) :
    IsLast values value (before.length + localEnd) found := by
  refine hfnd.raise (by omega) fun other hoth hless ↦ ?_
  obtain ⟨position, rfl⟩ := Nat.exists_eq_add_of_le hoth
  rw [h.getElem?_eq (by omega)]
  exact hnone position (by omega)

end

/-- The leaves from one down to the first are searched for the last match. -/
theorem findLastLoop_spec (h : Represents settings list values true) {position : ℕ}
    (hpos : front.length = position)
    (hsplit : SplitAt settings list.leaves values front leaf back before here after)
    (hend : localEnd ≤ here.length) :
    ∃ found, list.findLastLoop settings value (position + 1) localEnd = .ok found ∧
      IsLast values value (before.length + localEnd) found := by
  induction position generalizing front leaf back before here after localEnd with
  | zero =>
    obtain rfl := length_eq_zero_iff.mp hpos
    obtain rfl := hsplit.front.nil
    obtain ⟨found, hfind, hfnd⟩ := hsplit.leaf.holds.findLast value hend
    rw [findLastLoop, show list.leafAt 0 = leaf from hsplit.getD_eq, hfind]
    cases found with
    | some index => exact ⟨some (0 + index), rfl, hsplit.isLast_some hend hfnd⟩
    | none =>
      exact ⟨none, rfl, hsplit.isLast_none hend hfnd fun other hless ↦ absurd hless (by simp)⟩
  | succ position ih =>
    obtain ⟨front', leaf', before', here', hfront, hprev, hbef⟩ :=
      hsplit.previous (length_pos_iff.mp (by omega))
    obtain ⟨found, hfind, hfnd⟩ := hsplit.leaf.holds.findLast value hend
    have hleaf : list.leafAt (position + 1) = leaf := by
      rw [← hpos]
      exact hsplit.getD_eq
    have hleaf' : list.leafAt position = leaf' := by
      rw [show position = front'.length by omega]
      exact hprev.getD_eq
    rw [findLastLoop, hleaf, hfind]
    cases found with
    | some index =>
      have hcnt : (Fenwick.prefixCount list.fenwick (position + 1)).toNat = before.length := by
        have hlt := hsplit.lt_length
        rw [length_map] at hlt
        rw [← hpos, h.prefixCount_eq hlt.le, hsplit.total_eq]
      refine ⟨some ((Fenwick.prefixCount list.fenwick (position + 1)).toNat + index), rfl, ?_⟩
      rw [hcnt]
      exact hsplit.isLast_some hend hfnd
    | none =>
      obtain ⟨later, hloop, hlater⟩ :=
        ih (by omega : front'.length = position) hprev (le_refl here'.length)
      refine ⟨later, ?_, hsplit.isLast_none hend hfnd (hbef ▸ hlater)⟩
      rw [Nat.add_sub_cancel, hleaf', hprev.leaf.holds.count_eq]
      exact hloop

theorem Represents.findLast (h : Represents settings list values indexed) (value : ByteString)
    (stop : ℕ) :
    ∃ found, list.findLast settings value stop = .ok found ∧ IsLast values value stop found := by
  have hpast : ∀ other, min stop values.length ≤ other → other < stop →
      values[other]? ≠ some value := by
    intro other hoth hless
    rw [getElem?_eq_none (by omega)]
    simp
  unfold SegmentedList.findLast
  rw [h.size]
  dsimp only
  split
  · have hnone : IsLast values value (min stop values.length) none := by
      exact fun other hless ↦ absurd hless (by omega)
    exact ⟨none, rfl, hnone.raise (min_le_left _ _) hpast⟩
  · obtain ⟨front, leaf, back, before, here, after, offset, hsplit, hlocate, hstart, hoff⟩ :=
      h.locate_spec (by omega : min stop values.length - 1 < values.length)
    obtain rfl := h.indexed_of_ne_nil (length_pos_iff.mp (by omega))
    obtain ⟨found, hfind, hfnd⟩ := findLastLoop_spec h rfl hsplit hoff
    rw [hlocate]
    refine ⟨found, hfind, ?_⟩
    rw [show before.length + offset.succ = min stop values.length by omega] at hfnd
    exact hfnd.raise (min_le_left _ _) hpast

variable (settings) in
/-- What a caller reads is the sequence. -/
structure Refines (list : SegmentedList) (values : List ByteString) : Prop where
  size : list.size = values.length
  viewAt : ∀ index (h : index < values.length),
    Faithful settings.lz4 (list.viewAt settings index) values[index]
  forRange : ∀ first count,
    List.Forall₂ (Faithful settings.lz4) (list.forRange settings first count)
      ((values.drop first).take count)
  findFirst : ∀ value first, ∃ found, list.findFirst settings value first = .ok found ∧
    IsFirst values value first found
  findLast : ∀ value stop, ∃ found, list.findLast settings value stop = .ok found ∧
    IsLast values value stop found
  erase : ∀ index (h : index < values.length),
    (list.erase settings index).removed = some values[index]

theorem Represents.refines (h : Represents settings list values indexed) :
    Refines settings list values where
  size := h.size
  viewAt := fun _ hidx ↦ h.viewAt hidx
  forRange := h.forRange
  findFirst := h.findFirst
  findLast := h.findLast
  erase := fun _ hidx ↦ (erase_spec h hidx).1

/-! ## Calls -/

variable (settings) in
/-- A listpack with the values it holds; its header counts them in 16 bits. -/
structure Adopted where
  pack : ListListpack
  values : List ByteString
  holds : Holds settings.lz4 settings.encoding pack values
  length_le : values.length ≤ 65535

variable (settings) in
inductive Call where
  | assign (values : List ByteString)
  | insert (index : ℕ) (value : ByteString)
  | insertMany (ceiling : Bool) (index : ℕ) (values : List ByteString)
  | adoptListpack (adopted : Adopted settings)
  | set (index : ℕ) (value : ByteString)
  | erase (index : ℕ)
  | eraseEndpoint (first count : ℕ)
  | compact

/-- A call that returns, normally or by a throw, leaves a list. -/
def Steps (list : SegmentedList) : Call settings → SegmentedList → Prop
  | .assign values, next => next = (list.assign settings values).list
  | .insert index value, next => next = (list.insert settings index value).list
  | .insertMany ceiling index values, next =>
    next = (list.insertMany settings ceiling index values).list
  | .adoptListpack adopted, next => next = (list.adoptListpack settings adopted.pack).list
  | .set index value, next => next = (list.set settings index value).list
  | .erase index, next => next = (list.erase settings index).list
  | .eraseEndpoint first count, next => next = (list.eraseEndpoint settings first count).list
  | .compact, next => ∃ fuel outcome, list.compact settings fuel = some outcome ∧
    next = outcome.list

def Runs (list : SegmentedList) : List (Call settings) → SegmentedList → Prop
  | [], last => last = list
  | call :: rest, last => ∃ next, Steps list call next ∧ Runs next rest last

variable (settings) in
def fits (value : ByteString) : Bool :=
  stringValueFits settings.lz4 settings.encoding settings.compression value

/-- What a call makes of the sequence; one with a value that does not fit is refused. -/
def Call.apply (values : List ByteString) : Call settings → List ByteString
  | .assign others => if others.length < 2 ^ 32 ∧ others.all (fits settings) then others else values
  | .insert index value => if fits settings value then splice values index 0 [value] else values
  | .insertMany _ index others =>
    if others.all (fits settings) then splice values index 0 others else values
  | .adoptListpack adopted => adopted.values
  | .set index value => if fits settings value then splice values index 1 [value] else values
  | .erase index => splice values index 1 []
  | .eraseEndpoint first count => splice values first (min count (values.length - first)) []
  | .compact => values

/-- Whether there is a tree after a call. -/
def Call.indexes (indexed : Bool) : Call settings → Bool
  | .assign others => indexed || (others.length < 2 ^ 32 && others.all (fits settings))
  | .insert _ value => indexed || fits settings value
  | .insertMany _ _ others => indexed || (others ≠ [] && others.all (fits settings))
  | .adoptListpack adopted => adopted.values ≠ []
  | .compact => true
  | .set _ _ | .erase _ | .eraseEndpoint _ _ => indexed

variable (settings) in
/-- A value that is not a decimal that the parser misreads. -/
def Plain (value : ByteString) : Prop :=
  settings.encoding.encodingEnabled = true →
    ¬Misread value ∧ ∀ digits, value = 45 :: digits → ¬Misread digits

/-- The ranks are valid, the values are plain, the list stays below 2^32 values, an adopted
listpack holds values the list could store itself, and a batch at an end of a list that has values
is either all stored or checked against a memory ceiling. -/
def Call.Permitted (values : List ByteString) : Call settings → Prop
  | .assign others => ∀ value ∈ others, Plain settings value
  | .insert index value =>
    index ≤ values.length ∧ Plain settings value ∧ values.length + 1 < 2 ^ 32
  | .insertMany ceiling index others =>
    index ≤ values.length ∧ (∀ value ∈ others, Plain settings value) ∧
      values.length + others.length < 2 ^ 32 ∧
      (ceiling = false → values ≠ [] → index = 0 ∨ index = values.length →
        others.all (fits settings) = true)
  | .adoptListpack adopted =>
    (∀ value ∈ adopted.values, Plain settings value) ∧ adopted.values.all (fits settings) = true
  | .set index value => index < values.length ∧ Plain settings value
  | .erase index => index < values.length
  | .eraseEndpoint first count =>
    values.length ≤ first ∨ first = 0 ∨ first + min count (values.length - first) = values.length
  | .compact => True

def runValues : List (Call settings) → List ByteString → List ByteString
  | [], values => values
  | call :: rest, values => runValues rest (call.apply values)

def runIndexes : List (Call settings) → Bool → Bool
  | [], indexed => indexed
  | call :: rest, indexed => runIndexes rest (call.indexes indexed)

def PermittedRun : List (Call settings) → List ByteString → Prop
  | [], _ => True
  | call :: rest, values => call.Permitted values ∧ PermittedRun rest (call.apply values)

/-! ## Steps and runs -/

theorem fits_iff : fits settings value = true ↔
    ∃ encoded, encode settings.lz4 settings.encoding settings.compression value = .ok encoded := by
  have herr : (∃ message, encode settings.lz4 settings.encoding settings.compression value
      = .error message) ↔ stringValueFits settings.lz4 settings.encoding settings.compression value
        = false := encode_error_iff
  unfold fits
  rw [← not_iff_not, Bool.not_eq_true, ← herr]
  cases encode settings.lz4 settings.encoding settings.compression value with
  | ok encoded => simp
  | error message => simp

section

variable (hplain : ∀ value ∈ others, Plain settings value)
include hplain

theorem readBack_of_plain : ReadBack settings others := by
  intro value hmem
  have h := hplain value hmem
  cases hen : settings.encoding.encodingEnabled with
  | true => exact roundTrips_of_read hen (h hen).1 (h hen).2
  | false => exact roundTrips_of_disabled hen

theorem all_fits_iff : others.all (fits settings) = true ↔ Stored settings others := by
  rw [all_eq_true]
  exact forall₂_congr fun value hmem ↦
    fits_iff.trans (and_iff_left (readBack_of_plain hplain value hmem)).symm

end

section

variable (h : Represents settings list values indexed)
include h

theorem assign_step (hplain : ∀ value ∈ others, Plain settings value) :
    Represents settings (list.assign settings others).list
      (if others.length < 2 ^ 32 ∧ others.all (fits settings) then others else values)
      (indexed || (others.length < 2 ^ 32 && others.all (fits settings))) := by
  have hok : (decide (others.length < 2 ^ 32) && others.all (fits settings)) = true ↔
      others.length < 2 ^ 32 ∧ Stored settings others := by
    rw [Bool.and_eq_true, decide_eq_true_eq, all_fits_iff hplain]
  have hdone := Outcome.of_yields h ((assignResult_spec (readBack_of_plain hplain)).mono
    (fun hfails ↦ Bool.eq_false_iff.mpr (hfails ∘ hok.mp)) fun _ ↦ id)
    fun hlen hall ↦ hok.mpr ⟨hlen, hall⟩
  simp only [Bool.and_eq_true, decide_eq_true_eq] at hdone
  exact hdone

/-- A call of one value. -/
theorem value_step {result : Except String SegmentedList} {next : List ByteString}
    (hplain : Plain settings value)
    (hdone : ReadBack settings [value] → Yields result (¬Stored settings [value])
      (Represents settings · next true)) (hmem : value ∈ next) :
    Represents settings (Outcome.of list result).list (if fits settings value then next else values)
      (indexed || fits settings value) := by
  have hplain : ∀ other ∈ [value], Plain settings other := forall_mem_singleton.mpr hplain
  have hok : fits settings value = true ↔ Stored settings [value] := by
    rw [← all_fits_iff hplain, all_cons, all_nil, Bool.and_true]
  refine Outcome.of_yields h ((hdone (readBack_of_plain hplain)).mono
    (fun hunfit ↦ Bool.eq_false_iff.mpr (hunfit ∘ hok.mp)) fun _ ↦ id) fun _ hall ↦ hok.mpr ?_
  exact forall_mem_singleton.mpr (hall value hmem)

theorem insert_step (hidx : index ≤ values.length) (hplain : Plain settings value)
    (hbound : values.length + 1 < 2 ^ 32) :
    Represents settings (list.insert settings index value).list
      (if fits settings value then splice values index 0 [value] else values)
      (indexed || fits settings value) :=
  value_step h hplain (insertResult_spec h hidx · hbound)
    (mem_splice_of_mem (mem_singleton_self value))

theorem insertMany_step {ceiling : Bool} (hidx : index ≤ values.length)
    (hplain : ∀ value ∈ others, Plain settings value)
    (hbound : values.length + others.length < 2 ^ 32)
    (hpath : ceiling = false → values ≠ [] → index = 0 ∨ index = values.length → others.all (fits
      settings) = true) :
    Represents settings (list.insertMany settings ceiling index others).list
      (if others.all (fits settings) then splice values index 0 others else values)
      (indexed || (others ≠ [] && others.all (fits settings))) := by
  by_cases hnil : others = []
  · subst hnil
    have hsame : splice values index 0 [] = values := by
      rw [splice, append_nil, Nat.add_zero, take_append_drop]
    simpa [insertMany, hsame] using h
  · rw [decide_eq_true hnil, Bool.true_and]
    exact insertMany_spec h hidx hnil (readBack_of_plain hplain) hbound (all_fits_iff hplain) hpath

end

theorem adoptListpack_step {adopted : Adopted settings}
    (hplain : ∀ value ∈ adopted.values, Plain settings value)
    (hfits : adopted.values.all (fits settings) = true) :
    Represents settings (list.adoptListpack settings adopted.pack).list adopted.values
      (adopted.values ≠ []) := by
  have hcnt := adopted.holds.count_eq
  have hstored := (all_fits_iff hplain).mp hfits
  have hbound : adopted.values.length < 2 ^ 32 := lt_of_le_of_lt adopted.length_le (by decide)
  unfold adoptListpack
  split
  · rename_i hzero
    have hnil : adopted.values = [] := length_eq_zero_iff.mp (hcnt.symm.trans hzero)
    rw [decide_eq_false (not_not.mpr hnil), hnil]
    exact represents_empty
  · rename_i hne
    have hnonempty : adopted.values ≠ [] := fun hnil ↦ hne (by rw [hcnt, hnil]; rfl)
    rw [decide_eq_true hnonempty]
    split
    · rename_i hle
      have hleaf : HoldsLeaf settings adopted.pack adopted.values :=
        ⟨adopted.holds, hstored, hnonempty, hcnt ▸ hle⟩
      exact represents_rebuildIndex hleaf.packs hcnt hbound
    · rw [leafValues_eq adopted.holds]
      exact Outcome.of_represents
        ((assignResult_spec hstored.readBack).ok (not_not.mpr ⟨hbound, hstored⟩))

section

variable (h : Represents settings list values indexed)
include h

theorem set_step (hidx : index < values.length) (hplain : Plain settings value) :
    Represents settings (list.set settings index value).list
      (if fits settings value then splice values index 1 [value] else values) indexed := by
  obtain rfl := h.indexed_of_ne_nil (length_pos_iff.mp (by omega))
  exact value_step h hplain (setResult_spec h hidx) (mem_splice_of_mem (mem_singleton_self value))

/-- One permitted call. -/
theorem step_represents {call : Call settings} {next : SegmentedList} (hstep : Steps list call next)
    (hper : call.Permitted values) :
    Represents settings next (call.apply values) (call.indexes indexed) := by
  cases call with
  | assign others =>
    obtain rfl := hstep
    exact assign_step h hper
  | insert index value =>
    obtain rfl := hstep
    exact insert_step h hper.1 hper.2.1 hper.2.2
  | insertMany ceiling index others =>
    obtain rfl := hstep
    exact insertMany_step h hper.1 hper.2.1 hper.2.2.1 hper.2.2.2
  | adoptListpack adopted =>
    obtain rfl := hstep
    exact adoptListpack_step hper.1 hper.2
  | set index value =>
    obtain rfl := hstep
    exact set_step h hper.1 hper.2
  | erase index =>
    obtain rfl := hstep
    have hlt : index < values.length := hper
    obtain rfl := h.indexed_of_ne_nil (length_pos_iff.mp (by omega))
    exact (erase_spec h hlt).2
  | eraseEndpoint first count =>
    obtain rfl := hstep
    exact eraseEndpoint_spec h hper
  | compact =>
    obtain ⟨fuel, outcome, hcompact, rfl⟩ := hstep
    exact compactLoop_spec h hcompact

theorem run_represents {calls : List (Call settings)} {last : SegmentedList}
    (hrun : Runs list calls last) (hper : PermittedRun calls values) :
    Represents settings last (runValues calls values) (runIndexes calls indexed) := by
  induction calls generalizing list values indexed with
  | nil =>
    obtain rfl := hrun
    exact h
  | cons call rest ih =>
    obtain ⟨next, hstep, hrest⟩ := hrun
    exact ih (step_represents h hstep hper.1) hrest hper.2

end

/-- Along every permitted run that returns, a caller reads the sequence that the calls make, and
`check_invariants` holds exactly when the last call that could build or drop the tree built it. -/
theorem run_refines_sequence (settings : Settings) (calls : List (Call settings))
    (last : SegmentedList) (hrun : Runs {} calls last) (hpermitted : PermittedRun calls []) :
    Refines settings last (runValues calls []) ∧
      last.checkInvariants settings = runIndexes calls false := by
  have hlast := run_represents represents_empty hrun hpermitted
  exact ⟨hlast.refines, hlast.checkInvariants_eq⟩

/-- The default settings, with a library that compresses nothing. -/
def defaultSettings : Settings where
  lz4 := .refusing
  encoding := {}
  compression := .neverLz4

theorem plain_of_length (h : value.length < 20) : Plain settings value := by
  intro _
  refine ⟨fun hmisread ↦ ?_, ?_⟩
  · have hlen := hmisread.length
    omega
  · rintro digits rfl hmisread
    have hlen := hmisread.length
    rw [length_cons] at h
    omega

/-- Leaves of two entries. -/
def smallSettings : Settings where
  lz4 := .refusing
  encoding := {}
  compression := .neverLz4
  requestedEntries := 2

/-- A batch into an empty list, one behind it, a value in the middle and one removed there. -/
def changes : List (Call smallSettings) :=
  [.insertMany false 0 [[1], [2], [3], [4]], .insertMany false 4 [[7], [8]], .insert 2 [5],
    .erase 2]

/-- What they leave. -/
def changed : SegmentedList :=
  let list := (({} : SegmentedList).insertMany smallSettings false 0 [[1], [2], [3], [4]]).list
  let list := (list.insertMany smallSettings false 4 [[7], [8]]).list
  ((list.insert smallSettings 2 [5]).list.erase smallSettings 2).list

theorem changes_run : Runs {} changes changed :=
  ⟨_, rfl, _, rfl, _, rfl, _, rfl, rfl⟩

theorem changes_permitted : PermittedRun changes [] := by
  have hplain : ∀ value ∈ ([[1], [2], [3], [4], [7], [8], [5]] : List ByteString),
      Plain smallSettings value := by
    intro value hmem
    apply plain_of_length
    revert value
    decide
  refine ⟨⟨by decide, fun value hmem ↦ hplain value ?_, by decide, fun _ _ _ ↦ by decide +kernel⟩,
    ⟨by decide +kernel, fun value hmem ↦ hplain value ?_, by decide +kernel,
      fun _ _ _ ↦ by decide +kernel⟩,
    ⟨by decide +kernel, hplain _ (by decide), by decide +kernel⟩, (by decide : 2 < 7), trivial⟩
  · revert value
    decide
  · revert value
    decide

theorem run_refines_sequence_changes :
    Refines smallSettings changed [[1], [2], [3], [4], [7], [8]] ∧
      changed.checkInvariants smallSettings = true :=
  run_refines_sequence smallSettings changes changed changes_run changes_permitted

/-- What a refused value leaves of a batch at the end. -/
theorem insertMany_thrown {message : String} {tail : ListListpack} (hne : others ≠ [])
    (hleaves : list.leaves ≠ []) (hsize : list.size ≠ 0) (hroom : ¬list.backFull settings = true)
    (hfill : fillBack settings (list.leafAt (list.leaves.length - 1)) others = .error (message,
      tail)) :
    (list.insertMany settings false list.size others).list
      = { list with leaves := list.leaves.set (list.leaves.length - 1) tail } := by
  unfold insertMany
  rw [if_neg hne, if_neg hleaves, if_neg Bool.false_ne_true, if_neg (fun hboth ↦ hroom hboth.2),
    if_neg (fun hboth ↦ hsize hboth.1), if_pos rfl]
  dsimp only
  rw [hfill]

/-- A value beyond what a string may have. -/
def tooLong : ByteString := replicate 65536 97

theorem encode_tooLong : ∃ message, encode defaultSettings.lz4 defaultSettings.encoding
    defaultSettings.compression tooLong = .error message := by
  have hlen : tooLong.length = 65536 := length_replicate
  have hmaybe : maybeInt tooLong = false := by
    rfl
  have huuid : encodeAsUuid tooLong = none := by
    rw [encodeAsUuid, hlen]
    rfl
  have hlz4 : encodeLz4 defaultSettings.lz4 defaultSettings.encoding defaultSettings.compression
      tooLong = none := rfl
  unfold encode
  rw [hmaybe, huuid, hlz4, hlen]
  exact ⟨_, rfl⟩

/-- A list of one value, to which a batch is appended whose second value is refused: the first is
left in the leaf, but neither the size nor the tree counts it. -/
theorem insertMany_partial :
    (({} : SegmentedList).insert defaultSettings 0 [97]).list = ⟨[⟨1, [0x81, 97]⟩], [0, 1], 1⟩ ∧
      (insertMany defaultSettings ⟨[⟨1, [0x81, 97]⟩], [0, 1], 1⟩ false 1 [[98], tooLong]).list
        = ⟨[⟨2, [0x81, 97, 0x81, 98]⟩], [0, 1], 1⟩ ∧
      checkInvariants defaultSettings ⟨[⟨2, [0x81, 97, 0x81, 98]⟩], [0, 1], 1⟩ = false := by
  obtain ⟨message, herror⟩ := encode_tooLong
  have hfill : fillBack defaultSettings ⟨1, [0x81, 97]⟩ [[98], tooLong]
      = .error (message, ⟨2, [0x81, 97, 0x81, 98]⟩) := by
    have hfirst : insertInLeaf defaultSettings ⟨1, [0x81, 97]⟩ 1 [98]
        = .ok (some ⟨2, [0x81, 97, 0x81, 98]⟩) := by rfl
    have hsecond : insertInLeaf defaultSettings ⟨2, [0x81, 97, 0x81, 98]⟩ 2 tooLong
        = .error message := by
      rw [insertInLeaf, ListListpack.insert, herror]
      rfl
    rw [fillBack, if_pos (by decide), hfirst]
    dsimp only
    rw [fillBack, if_pos (by decide), hsecond]
  have hthrown : (insertMany defaultSettings ⟨[⟨1, [0x81, 97]⟩], [0, 1], 1⟩ false 1
      [[98], tooLong]).list = ⟨[⟨2, [0x81, 97, 0x81, 98]⟩], [0, 1], 1⟩ :=
    insertMany_thrown (by simp) (by simp) (by decide) (by decide) hfill
  exact ⟨by rfl, hthrown, by rfl⟩

end GoblinCore.SegmentedList
