import GoblinCore.ZSets.Mutations

/-!
# Families of sorted sets

Several sorted sets may refer to one member layer after `adopt_shared_member_layer_from`.  Each of
them still is a map of its own: a run of calls answers as the same calls on maps do, a call on one
sorted set leaves the maps of the others alone, and the parts of every representation agree.
-/

namespace GoblinCore.SortedSet

open Refusable MemoryLimit CopyOnWrite Ranking ScoreIndex GoblinCore.SortedSet.ZSet List Option Pool
open Function

variable {σ : Type}

/-- The part of a sorted set that is never shared. -/
inductive Own (σ : Type) where
  | small (listpack : Listpack σ)
  | full (scoreIndex : ScoreIndex σ)

structure Family (σ : Type) where
  layers : Pool (Layer σ)
  owns : List (Own σ)

/-- The operations that change one sorted set. -/
inductive Call (σ : Type) where
  | add (addOptions : ZAddOptions) (score : σ) (member : Bytes)
  | remove (member : Bytes)
  | removeByScoreRange (min : σ) (minExclusive : Bool) (max : σ) (maxExclusive : Bool)
  | compact
  | maybeDemoteToSmall

inductive Reply (σ : Type) where
  | mutation (mutation : ZAddMutation σ)
  | erased (erased : Bool)
  | count (count : ℕ)
  | done

/-- A call on one sorted set, with what the location cache has for it at that time; the building of
the position tree, with which a query of ranks or positions starts; or the adoption of the member
layer of another sorted set. -/
inductive Event (σ : Type) where
  | call (target : ℕ) (call : Call σ)
      (located : List (List ℕ) → ℕ → Option (ℕ × ℕ) := fun _ _ ↦ none)
  | buildIndex (target : ℕ)
  | adopt (target source : ℕ)

section Model

variable [Score σ] (options : ZSetOptions)

def Call.run : Call σ → StoreComp (ZSet σ) (Reply σ)
  | .add addOptions score member => do
    let mutation ← ZSet.add options addOptions score member
    pure (.mutation mutation)
  | .remove member => do
    let erased ← ZSet.remove options member
    pure (.erased erased)
  | .removeByScoreRange min minExclusive max maxExclusive => do
    let count ← ZSet.removeByScoreRange options min minExclusive max maxExclusive
    pure (.count count)
  | .compact => do
    ZSet.compact options
    pure .done
  | .maybeDemoteToSmall => do
    ZSet.maybeDemoteToSmall options
    pure .done

namespace Family

/-- A sorted set of the family; its layer is shared if the layer has other users. -/
def zset (position : ℕ) (family : Family σ) : Option (ZSet σ) :=
  family.owns[position]?.bind fun
    | .small lp => some (.small lp)
    | .full index => (family.layers.read position).map fun layer ↦
      .full
        { storage := layer.storage
          slots := layer.slots
          scoreIndex := index
          shared := family.layers.isShared position }

/-- The family after one sorted set has changed: a layer that was shared and no longer is has been
copied, any other layer has been written where it is. -/
def settle (position : ℕ) (before after : ZSet σ) (family : Family σ) : Family σ :=
  match after with
  | .small lp =>
    { layers := family.layers.release position
      owns := family.owns.set position (.small lp) }
  | .full state =>
    { layers :=
        if before.layer.isSome = true ∧ (before.shared = true → state.shared = true) then
          family.layers.write position fun _ ↦ ⟨state.storage, state.slots⟩
        else family.layers.attach position ⟨state.storage, state.slots⟩
      owns := family.owns.set position (.full state.scoreIndex) }

/-- `adopt_shared_member_layer_from`: the layer is shared, the score index copied.  A source that is
a listpack has no layer, and the process ends. -/
def adopt (target source : ℕ) (family : Family σ) : Option (Family σ) :=
  match family.owns[target]?, family.owns[source]? with
  | some _, some (.full index) =>
    some
      { layers := family.layers.share target source
        owns := family.owns.set target (.full index) }
  | _, _ => none

/-- One event, when no memory is refused. -/
def step (family : Family σ) : Event σ → Option (Except Thrown (Reply σ) × Family σ)
  | .call target call located => (family.zset target).map fun before ↦
    let outcome := call.run { options with located := located } before []
    (outcome.result, family.settle target before outcome.state)
  | .buildIndex target => (family.zset target).map fun before ↦
    (.ok .done, family.settle target before before.buildIndex)
  | .adopt target source => (family.adopt target source).map fun adopted ↦ (.ok .done, adopted)

def run : List (Event σ) → Family σ → Option (List (Except Thrown (Reply σ)) × Family σ)
  | [], family => some ([], family)
  | event :: rest, family =>
    (family.step options event).bind fun stepped ↦
      (run rest stepped.2).map fun ended ↦ (stepped.1 :: ended.1, ended.2)

/-- New sorted sets. -/
def empty (count : ℕ) : Family σ where
  layers :=
    if options.listpackMaxEntries = 0 then
      { cells := List.replicate count ⟨[], []⟩, owners := (List.range count).map some }
    else { cells := [], owners := replicate count none }
  owns := replicate count
    (if options.listpackMaxEntries = 0 then .full { blocks := [], size := 0 } else .small {})

/-- The event is about sorted sets of the family, and only a full one is adopted from. -/
def Allowed (family : Family σ) : Event σ → Prop
  | .call target _ _ => target < family.owns.length
  | .buildIndex target => target < family.owns.length
  | .adopt target source =>
    target < family.owns.length ∧ ∃ index, family.owns[source]? = some (.full index)

/-- Every event is allowed when it comes. -/
def AllAllowed : List (Event σ) → Family σ → Prop
  | [], _ => True
  | event :: rest, family =>
    family.Allowed event ∧
      ∀ stepped, family.step options event = some stepped → AllAllowed rest stepped.2

instance (family : Family σ) (event : Event σ) : Decidable (family.Allowed event) :=
  match event with
  | .call target _ _ => inferInstanceAs (Decidable (target < family.owns.length))
  | .buildIndex target => inferInstanceAs (Decidable (target < family.owns.length))
  | .adopt target source =>
    have : Decidable (∃ index, family.owns[source]? = some (.full index)) :=
      match family.owns[source]? with
      | some (.full index) => .isTrue ⟨index, rfl⟩
      | some (.small _) => .isFalse (by simp)
      | none => .isFalse (by simp)
    inferInstanceAs (Decidable (_ ∧ _))

instance decidableAllAllowed : (events : List (Event σ)) → (family : Family σ) →
    Decidable (AllAllowed options events family)
  | [], _ => .isTrue trivial
  | event :: rest, family =>
    match hstep : family.step options event with
    | none => decidable_of_iff (family.Allowed event) (by simp [AllAllowed, hstep])
    | some stepped =>
      have := decidableAllAllowed rest stepped.2
      decidable_of_iff (family.Allowed event ∧ AllAllowed options rest stepped.2)
        (by simp [AllAllowed, hstep])

end Family

end Model

/-! ## Maps -/

section Maps

variable [Score σ]

noncomputable def answer (map : Bytes → Option σ) : Call σ → Except Thrown (Reply σ)
  | .add addOptions score member =>
    (addReply addOptions score member {name | map name ≠ none}.ncard map).map .mutation
  | .remove member => .ok (.erased (map member).isSome)
  | .removeByScoreRange min minExclusive max maxExclusive =>
    .ok (.count {name | ∃ score, map name = some score ∧
      inRange min minExclusive max maxExclusive score = true}.ncard)
  | .compact => .ok .done
  | .maybeDemoteToSmall => .ok .done

noncomputable def changed (map : Bytes → Option σ) : Call σ → Bytes → Option σ
  | .add addOptions score member =>
    addMap addOptions score member map
      (addReply addOptions score member {name | map name ≠ none}.ncard map)
  | .remove member => update map member none
  | .removeByScoreRange min minExclusive max maxExclusive =>
    outside min minExclusive max maxExclusive map
  | .compact => map
  | .maybeDemoteToSmall => map

/-- One event on a family of maps. -/
noncomputable def mapStep (maps : ℕ → Bytes → Option σ) :
    Event σ → Except Thrown (Reply σ) × (ℕ → Bytes → Option σ)
  | .call target call _ =>
    (answer (maps target) call, update maps target (changed (maps target) call))
  | .buildIndex _ => (.ok .done, maps)
  | .adopt target source => (.ok .done, update maps target (maps source))

noncomputable def mapRun : List (Event σ) → (ℕ → Bytes → Option σ) →
    List (Except Thrown (Reply σ)) × (ℕ → Bytes → Option σ)
  | [], maps => ([], maps)
  | event :: rest, maps =>
    let stepped := mapStep maps event
    let ended := mapRun rest stepped.2
    (stepped.1 :: ended.1, ended.2)

end Maps

/-! ## One call -/

section Calls

variable [Score σ] {options : ZSetOptions} {zset : ZSet σ}

omit [Score σ] in
theorem ncard_names {entries : List (Bytes × σ)} (h : (entries.map Prod.fst).Nodup) :
    {name | ∃ entry ∈ entries, entry.1 = name}.ncard = entries.length := by
  have hset : {name | ∃ entry ∈ entries, entry.1 = name} =
      ((entries.map Prod.fst).toFinset : Set Bytes) := by
    simp
  rw [hset, Set.ncard_coe_finset, toFinset_card_of_nodup h, length_map]

theorem size_eq_ncard [LawfulScore σ] (h : zset.Valid options) :
    zset.size = {name | lookup zset.contents name ≠ none}.ncard := by
  rw [h.size_eq, ← ncard_names h.ranked.names, ← h.lookup_ranked]
  simp [lookup_eq_none_iff]

theorem within_eq_ncard [LawfulScore σ] (h : zset.Valid options) {min max : σ}
    {minExclusive maxExclusive : Bool} :
    (within min minExclusive max maxExclusive zset.ranked).length =
      {name | ∃ score, lookup zset.contents name = some score ∧
        inRange min minExclusive max maxExclusive score = true}.ncard := by
  have hranked : Ranked (within min minExclusive max maxExclusive zset.ranked) :=
    h.ranked.sublist filter_sublist
  rw [← ncard_names hranked.names, ← h.lookup_ranked]
  simp [within, lookup_eq_some_iff h.ranked.names]

variable [LawfulScore σ] [DecidableEq σ]

/-- A call answers as on the map, and leaves a sorted set for the changed map. -/
theorem call_becomes (h : zset.Valid options) {call : Call σ} :
    (call.run options zset []).result = answer (lookup zset.contents) call ∧
      Becomes options (changed (lookup zset.contents) call) zset
        (call.run options zset []).state := by
  cases call with
  | add addOptions score member =>
    have hadd : _ ∧ Becomes options _ zset (add options addOptions score member zset []).state :=
      add_becomes h
    rw [size_eq_ncard h] at hadd
    rw [Call.run, Comp.bind_pure_apply, hadd.1]
    exact ⟨rfl, hadd.2⟩
  | remove member =>
    obtain ⟨erased, zset', hrun, rfl, hbecomes⟩ := (remove_becomes h).granted
    rw [Call.run, Comp.bind_pure_apply, hrun]
    exact ⟨rfl, hbecomes⟩
  | removeByScoreRange min minExclusive max maxExclusive =>
    obtain ⟨count, zset', hrun, hcnt, hbecomes⟩ :=
      (removeByScoreRange_becomes h).granted
    rw [Call.run, Comp.bind_pure_apply, hrun]
    rw [within_eq_ncard h] at hcnt
    exact ⟨by rw [hcnt]; rfl, hbecomes⟩
  | compact =>
    obtain ⟨_, zset', hrun, hbecomes⟩ := (compact_becomes h).granted
    rw [Call.run, Comp.bind_ok hrun]
    exact ⟨rfl, hbecomes⟩
  | maybeDemoteToSmall =>
    obtain ⟨_, zset', hrun, hbecomes⟩ := (maybeDemoteToSmall_becomes h).granted
    rw [Call.run, Comp.bind_ok hrun]
    exact ⟨rfl, hbecomes⟩

omit [LawfulScore σ] [DecidableEq σ] in
/-- What the location cache has does not matter to validity. -/
theorem ZSet.Valid.withLocated (h : zset.Valid options)
    (located : List (List ℕ) → ℕ → Option (ℕ × ℕ)) :
    zset.Valid { options with located := located } := by
  cases zset with
  | small lp => exact h
  | full state =>
    have hst : state.Intact options := h
    exact
      { names := hst.names
        numbers := hst.numbers
        slots_nodup := hst.slots_nodup
        mem_slots := hst.mem_slots
        shape := .of_options (by rfl) (by rfl) hst.shape
        sorted := hst.sorted
        mem_index := hst.mem_index }

omit [LawfulScore σ] [DecidableEq σ] in
theorem buildIndex_becomes (h : zset.Valid options) :
    Becomes options (lookup zset.contents) zset zset.buildIndex := by
  cases zset with
  | small lp => exact .refl h
  | full state =>
    exact ⟨FullState.Intact.recut h (recut_buildIndex _), rfl, fun hshared ↦ ⟨hshared, rfl⟩⟩

end Calls

/-! ## One event -/

/-- The sorted set with the layer shared or not. -/
def ZSet.withShared (shared : Bool) : ZSet σ → ZSet σ
  | .small lp => .small lp
  | .full state => .full { state with shared := shared }

theorem withShared_contents (shared : Bool) (zset : ZSet σ) :
    (zset.withShared shared).contents = zset.contents := by
  cases zset with
  | small lp => rfl
  | full state => rfl

theorem withShared_valid [Score σ] {options : ZSetOptions} {zset : ZSet σ} (shared : Bool)
    (h : zset.Valid options) : (zset.withShared shared).Valid options := by
  cases zset with
  | small lp => exact h
  | full state => exact FullState.Intact.recut h (Recut.refl _)

namespace Family

variable {family family' : Family σ} {position other : ℕ} {before after zset : ZSet σ}

theorem zset_congr (howns : family'.owns[other]? = family.owns[other]?)
    (hread : family'.layers.read other = family.layers.read other)
    (h : family.zset other = some zset) :
    ∃ shared, family'.zset other = some (zset.withShared shared) := by
  unfold Family.zset at h ⊢
  rw [howns, hread]
  obtain ⟨own, hown, hzset⟩ := bind_eq_some_iff.mp h
  rw [hown, bind_some]
  cases own with
  | small lp =>
    cases hzset
    exact ⟨false, rfl⟩
  | full index =>
    obtain ⟨layer, hlayer, rfl⟩ := map_eq_some_iff.mp hzset
    refine ⟨family'.layers.isShared other, ?_⟩
    simp only [hlayer, map_some]
    rfl

theorem layer_eq (h : family.zset position = some zset) (hlayer : zset.layer.isSome = true) :
    family.layers.read position = zset.layer ∧
      family.layers.isShared position = zset.shared := by
  obtain ⟨own, hown, hzset⟩ := bind_eq_some_iff.mp h
  cases own with
  | small lp =>
    cases hzset
    cases hlayer
  | full index =>
    obtain ⟨layer, hread, rfl⟩ := map_eq_some_iff.mp hzset
    exact ⟨hread, rfl⟩

section Settle

theorem settle_owns : (family.settle position before after).owns.length = family.owns.length := by
  cases after with
  | small lp => exact length_set
  | full state => exact length_set

theorem settle_owns_other (h : other ≠ position) :
    (family.settle position before after).owns[other]? = family.owns[other]? := by
  cases after with
  | small lp => exact getElem?_set_ne (Ne.symm h)
  | full state => exact getElem?_set_ne (Ne.symm h)

theorem settle_owners : (family.settle position before after).layers.owners.length =
    family.layers.owners.length := by
  cases after with
  | small lp => exact length_set
  | full state =>
    unfold settle
    dsimp only
    split
    · unfold write
      split
      · rfl
      · rfl
    · exact length_set

theorem settle_wellFormed (h : family.layers.WellFormed) :
    (family.settle position before after).layers.WellFormed := by
  cases after with
  | small lp => exact release_wellFormed h
  | full state =>
    unfold settle
    dsimp only
    split
    · exact write_wellFormed h
    · exact attach_wellFormed h

theorem settle_zset_self (hlen : family.layers.owners.length = family.owns.length)
    (hpos : position < family.owns.length) (hbef : family.zset position = some before) :
    ∃ shared, (family.settle position before after).zset position =
      some (after.withShared shared) := by
  unfold Family.zset
  cases after with
  | small lp =>
    simp [settle, hpos, ZSet.withShared]
  | full state =>
    refine ⟨(family.settle position before (.full state)).layers.isShared position, ?_⟩
    have hread : (family.settle position before (.full state)).layers.read position =
        some ⟨state.storage, state.slots⟩ := by
      unfold settle
      dsimp only
      split
      · next hkept =>
        have hlayer := (layer_eq hbef hkept.1).1
        obtain ⟨layer, hsome⟩ := isSome_iff_exists.mp hkept.1
        rw [write_read_self, hlayer, hsome]
        rfl
      · exact attach_read_self (by omega)
    have hown : (family.settle position before (.full state)).owns[position]? =
        some (.full state.scoreIndex) := by
      simp [settle, hpos]
    rw [hown, bind_some]
    simp only [hread, map_some]
    rfl

/-- The others do not see the change: a layer that is written in place has no other user, or is
written with what it holds. -/
theorem settle_read_other (h : family.layers.WellFormed) (hbef : family.zset position = some before)
    (hframes : Frames before after) (hoth : other ≠ position) :
    (family.settle position before after).layers.read other = family.layers.read other := by
  cases after with
  | small lp => exact release_read_other hoth
  | full state =>
    unfold settle
    dsimp only
    split
    · next hkept =>
      obtain ⟨hlayer, hisShared⟩ := layer_eq hbef hkept.1
      cases hshared : before.shared with
      | false =>
        have hsole := sole_of_not_isShared (hisShared.trans hshared)
        exact write_read_other hsole hoth
      | true =>
        have hsame := (hframes (hkept.2 hshared)).2
        rw [← hsame] at hlayer
        exact write_read_same hlayer rfl
    · exact attach_read_other h hoth

end Settle

variable [Score σ] {options : ZSetOptions} {maps : ℕ → Bytes → Option σ}

/-- The sorted sets of the family are valid and stand for the maps. -/
structure Represents (options : ZSetOptions) (family : Family σ) (maps : ℕ → Bytes → Option σ) :
    Prop where
  layers : family.layers.WellFormed
  length : family.layers.owners.length = family.owns.length
  zsets : ∀ position < family.owns.length, ∃ zset, family.zset position = some zset ∧
    zset.Valid options ∧ lookup zset.contents = maps position

section

variable (h : Represents options family maps)
include h

/-- What has to be shown after a change of one position. -/
theorem Represents.update {map : Bytes → Option σ} (hlayers : family'.layers.WellFormed)
    (howners : family'.layers.owners.length = family.layers.owners.length)
    (howns : family'.owns.length = family.owns.length)
    (hself : ∃ zset, family'.zset position = some zset ∧ zset.Valid options ∧ lookup zset.contents =
      map) (hoths : ∀ other, other ≠ position → family'.owns[other]? = family.owns[other]? ∧
      family'.layers.read other = family.layers.read other) :
    Represents options family' (update maps position map) := by
  refine ⟨hlayers, by rw [howners, howns, h.length], ?_⟩
  intro other hoth
  by_cases hsame : other = position
  · subst hsame
    rw [update_self]
    exact hself
  · rw [howns] at hoth
    obtain ⟨zset, hzset, hvalid, hlkp⟩ := h.zsets other hoth
    obtain ⟨hown, hread⟩ := hoths other hsame
    obtain ⟨shared, hzset'⟩ := zset_congr hown hread hzset
    refine ⟨zset.withShared shared, hzset', withShared_valid shared hvalid, ?_⟩
    rw [withShared_contents, hlkp, update_of_ne hsame]

/-- After a change of one sorted set that leaves the layer it shares alone, the others stand for the
maps they stood for. -/
theorem Represents.settle {map : Bytes → Option σ} (hpos : position < family.owns.length)
    (hzset : family.zset position = some before) (hbecomes : Becomes options map before after) :
    Represents options (family.settle position before after)
      (Function.update maps position map) := by
  obtain ⟨shared, hself⟩ : ∃ shared, (family.settle position before after).zset position =
      some (after.withShared shared) :=
    settle_zset_self h.length hpos hzset
  refine h.update (settle_wellFormed h.layers) settle_owners settle_owns ?_ ?_
  · refine ⟨_, hself, withShared_valid shared hbecomes.valid, ?_⟩
    rw [withShared_contents, hbecomes.map_eq]
  · intro other hoth
    exact ⟨settle_owns_other hoth, settle_read_other h.layers hzset hbecomes.frames hoth⟩

theorem Represents.step [LawfulScore σ] [DecidableEq σ] {event : Event σ}
    (hallowed : family.Allowed event) :
    ∃ family', family.step options event = some ((mapStep maps event).1, family') ∧
      Represents options family' (mapStep maps event).2 ∧
      family'.owns.length = family.owns.length := by
  cases event with
  | call target call located =>
    have htgt : target < family.owns.length := hallowed
    obtain ⟨zset, hzset, hvalid, hlkp⟩ := h.zsets target htgt
    obtain ⟨hres, hbecomes⟩ := call_becomes (hvalid.withLocated located)
    rw [hlkp] at hres hbecomes
    have hvalid' := hbecomes.valid.withLocated options.located
    refine ⟨_, ?_, h.settle htgt hzset ⟨hvalid', hbecomes.map_eq, hbecomes.frames⟩, settle_owns⟩
    rw [Family.step, hzset, map_some]
    dsimp only
    rw [hres]
    rfl
  | buildIndex target =>
    have htgt : target < family.owns.length := hallowed
    obtain ⟨zset, hzset, hvalid, hlkp⟩ := h.zsets target htgt
    have hsettled := h.settle htgt hzset (buildIndex_becomes hvalid)
    rw [hlkp, update_eq_self] at hsettled
    refine ⟨_, ?_, hsettled, settle_owns⟩
    rw [Family.step, hzset, map_some]
    rfl
  | adopt target source =>
    obtain ⟨htgt, index, hsrc⟩ := hallowed
    have hlt := lt_of_getElem? hsrc
    obtain ⟨zset, hzset, hvalid, hlkp⟩ := h.zsets source hlt
    have hown : family.owns[target]? = some family.owns[target] := getElem?_eq_getElem htgt
    refine ⟨{ layers := family.layers.share target source
              owns := family.owns.set target (.full index) }, ?_, ?_, length_set⟩
    · simp [Family.step, Family.adopt, hown, hsrc, mapStep]
    refine h.update (share_wellFormed h.layers) length_set length_set ?_ ?_
    · rw [Family.zset, hsrc, bind_some] at hzset
      obtain ⟨layer, hlayer, rfl⟩ := map_eq_some_iff.mp hzset
      have hread := (share_read_self (by rw [h.length]; exact htgt)).trans hlayer
      refine ⟨_, ?_, withShared_valid ((family.layers.share target source).isShared target) hvalid,
        (congrArg lookup (withShared_contents _ _)).trans hlkp⟩
      simp only [Family.zset, getElem?_set_self htgt, bind_some, hread, map_some]
      rfl
    · intro other hoth
      exact ⟨getElem?_set_ne (Ne.symm hoth), share_read_other hoth⟩

/-! ## Runs -/

theorem Represents.run [LawfulScore σ] [DecidableEq σ] {events : List (Event σ)}
    (hallowed : AllAllowed options events family) :
    ∃ family', Family.run options events family = some ((mapRun events maps).1, family') ∧
      Represents options family' (mapRun events maps).2 ∧
      family'.owns.length = family.owns.length := by
  induction events generalizing family maps with
  | nil => exact ⟨family, rfl, h, rfl⟩
  | cons event rest ih =>
    obtain ⟨family', hstep, hrep, hlen⟩ := h.step hallowed.1
    obtain ⟨family'', hrun, hrep', hlen'⟩ := ih hrep (hallowed.2 _ hstep)
    refine ⟨family'', ?_, hrep', hlen'.trans hlen⟩
    rw [Family.run, hstep, bind_some, hrun, map_some]
    rfl

end

omit [Score σ] in
theorem empty_zset {count position : ℕ} (h : position < count) :
    ∃ shared, (empty options count : Family σ).zset position =
      some ((initEmpty options).withShared shared) := by
  refine ⟨(empty options count : Family σ).layers.isShared position, ?_⟩
  unfold Family.zset initEmpty
  by_cases hfull : options.listpackMaxEntries = 0
  · have hread : (empty options count : Family σ).layers.read position = some ⟨[], []⟩ := by
      simp [empty, hfull, Pool.read, Pool.ref, h]
    have hown : (empty options count : Family σ).owns[position]? =
        some (.full { blocks := [], size := 0 }) := by
      simp [empty, hfull, h]
    rw [hown, bind_some, if_pos hfull]
    simp only [hread, map_some]
    rfl
  · have hown : (empty options count : Family σ).owns[position]? = some (.small {}) := by
      simp [empty, hfull, h]
    rw [hown, bind_some, if_neg hfull]
    rfl

theorem initEmpty_valid : (initEmpty options : ZSet σ).Valid options := by
  unfold initEmpty
  split
  · exact intact_empty
  · exact sound_empty

omit [Score σ] in
theorem initEmpty_contents : (initEmpty options : ZSet σ).contents = [] := by
  unfold initEmpty
  split
  · rfl
  · rfl

theorem empty_represents (count : ℕ) :
    Represents options (empty options count) (fun _ _ ↦ (none : Option σ)) := by
  refine ⟨?_, ?_, ?_⟩
  · intro owner cell href
    by_cases hfull : options.listpackMaxEntries = 0
    · have hlt := lt_length_of_ref href
      simp only [empty, hfull, if_true, length_map, length_range] at hlt
      simp only [ref, empty, hfull, if_true, getElem?_map,
        getElem?_range hlt, map_some, join_some] at href
      simpa [empty, hfull, ← Option.some.inj href] using hlt
    · simp only [ref, empty, hfull, if_false, getElem?_replicate] at href
      split at href
      · cases href
      · cases href
  · by_cases hfull : options.listpackMaxEntries = 0
    · simp [empty, hfull]
    · simp [empty, hfull]
  · intro position hpos
    obtain ⟨shared, hzset⟩ : ∃ shared, (empty options count : Family σ).zset position =
        some ((initEmpty options).withShared shared) :=
      empty_zset (by simpa [empty] using hpos)
    refine ⟨_, hzset, withShared_valid shared initEmpty_valid, ?_⟩
    rw [withShared_contents, initEmpty_contents]
    rfl

/-- A listpack grows into the full representation and is adopted, with its position tree.  Then both
sorted sets change: a member goes in whose place the last one comes, found in the place that a cache
has for it, and the other set loses a range of scores and becomes a listpack again. -/
def adoptThenChange : List (Event ℤ) :=
  [.call 0 (.add {} 3 [1]), .call 0 (.add {} 1 [2]), .call 0 (.add {} 2 [3]),
    .call 0 (.add { nx := true } 2 [4]), .buildIndex 0, .adopt 1 0,
    .call 1 (.remove [2]) fun _ _ ↦ some (0, 0), .call 1 (.add { increment := true } 4 [3]),
    .call 0 (.removeByScoreRange 1 true 3 true), .call 0 .maybeDemoteToSmall, .call 1 .compact]

theorem adoptThenChange_allowed :
    AllAllowed { listpackMaxEntries := 2 } adoptThenChange
      (empty { listpackMaxEntries := 2 } 2) := by
  decide +kernel

end Family

end GoblinCore.SortedSet
