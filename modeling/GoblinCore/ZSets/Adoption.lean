import GoblinCore.ZSets.Family
import GoblinCore.ZSets.Zadd
import Mathlib.Data.List.Find

/-!
# When ZADD does what it is for

A batch is folded into the map of its key exactly when the key does not take over the member layer
of another key, and no member is too long.  Taking over a layer is always wrong: the result leaves
out the first item, and the key gets every member of the other.
-/

namespace GoblinCore

open Refusable MemoryLimit CopyOnWrite Comp List Keyspace Function

namespace ZSetStore

variable {σ : Type} {s s' : ZSetStore σ} {id : ℕ} {key other : Bytes} {map : ZMap σ}

/-! ## The maps of the keys -/

theorem Valid.zlisting_eq (h : s.Valid) (key : Bytes) : s.zlisting key = s.zscores key := by
  have hmaps : s.listingAt = s.mapAt := funext fun _ ↦ h.listingAt_eq
  rw [zlisting, zscores, hmaps]

theorem Step.findId_eq (h : s.Step id map s') (key : Bytes) :
    s'.store.keyspace.findId key = s.store.keyspace.findId key := by
  rw [findId, h.index]
  rfl

theorem Step.zscores_self (h : s.Step id map s') (hid : s.store.keyspace.findId key = some id) :
    s'.zscores key = map := by
  rw [zscores, h.findId_eq, hid, Option.bind_some, h.at_id, Option.getD_some]

theorem Step.zscores_other (h : s.Step id map s') (hvalid : s.Valid)
    (hid : s.store.keyspace.findId key = some id) (hne : other ≠ key) :
    s'.zscores other = s.zscores other := by
  rw [zscores, h.findId_eq, zscores]
  cases hoth : s.store.keyspace.findId other with
  | none => rfl
  | some otherId =>
    have hneId : otherId ≠ id := by
      intro heq
      subst heq
      exact hne (hvalid.store.keyspace.findId_inj hoth hid).symm
    rw [Option.bind_some, h.others otherId hneId, Option.bind_some]

theorem zscores_of_findZset_none (h : s.findZset key = none) : s.zscores key = fun _ ↦ none := by
  unfold zscores
  cases hid : s.store.keyspace.findId key with
  | none => rfl
  | some id =>
    rw [findZset, hid, Option.filter_some] at h
    cases hval : s.zsetAt id with
    | none => simp [mapAt, hval]
    | some value => simp [hval] at h

theorem findZset_some (h : s.findZset key = some id) :
    s.store.keyspace.findId key = some id ∧ ∃ value, s.zsetAt id = some value := by
  rcases Option.filter_eq_some_iff.mp h with ⟨hid, hval⟩
  exact ⟨hid, Option.isSome_iff_exists.mp hval⟩

/-! ## A new key -/

/-- The store after the creation of a sorted set. -/
def created (maxEntries : ℕ) (key : Bytes) (s : ZSetStore σ) : ZSetStore σ where
  store :=
    { s.store with keyspace :=
        s.store.keyspace.push key (.aggregate (.zset (freshZset maxEntries s.layers.length))) }
  layers := if maxEntries = 0 then s.layers ++ [∅] else s.layers

/-- A key can be created in the store. -/
def Creatable (s : ZSetStore σ) (key : Bytes) : Prop :=
  s.store.keyspace.findId key = none ∧
    Keyspace.creationError s.store.keyspace.entries.length key = none

section Creation

variable (maxEntries : ℕ)

theorem zsetAt_created_old (h : id < s.store.keyspace.entries.length) :
    (s.created maxEntries key).zsetAt id = s.zsetAt id := by
  simp [zsetAt, created, push, getElem?_append_left h]

theorem zsetAt_created_new : (s.created maxEntries key).zsetAt s.store.keyspace.entries.length =
    some (freshZset maxEntries s.layers.length) := by
  simp [zsetAt, created, push]

theorem pool_created : (s.created maxEntries key).pool =
    s.pool.addOwner (if maxEntries = 0 then some ∅ else none) := by
  unfold pool created push Pool.addOwner
  by_cases hfull : maxEntries = 0
  · simp [hfull, entryLayer, freshZset, ZSet.layer]
  · simp [hfull, entryLayer, freshZset, ZSet.layer]

theorem mapAt_created_old (h : s.Valid) (hid : id < s.store.keyspace.entries.length) :
    (s.created maxEntries key).mapAt id = s.mapAt id := by
  have hread : (s.created maxEntries key).pool.read id = s.pool.read id := by
    rw [pool_created]
    exact Pool.addOwner_read_old h.wellFormed (by simpa [pool] using hid) _
  unfold mapAt
  rw [zsetAt_created_old maxEntries hid, hread]

theorem fresh_represents : (freshZset maxEntries s.layers.length).Represents
    ((s.created maxEntries key).pool.read s.store.keyspace.entries.length) (fun _ ↦ none) := by
  have hread : (s.created maxEntries key).pool.read s.store.keyspace.entries.length =
      if maxEntries = 0 then some ∅ else none := by
    have hlen : s.store.keyspace.entries.length = s.pool.owners.length := by simp [pool]
    rw [pool_created, hlen, Pool.addOwner_read_new]
  rw [hread]
  by_cases hfull : maxEntries = 0
  · simp [hfull, freshZset, ZSet.Represents]
  · simp [hfull, freshZset, ZSet.Represents, CompactListpack.fresh]

theorem created_valid (h : s.Valid) (hkey : s.Creatable key) :
    (s.created maxEntries key).Valid := by
  refine ⟨(Store.push_logical h.store hkey.1 (length_lt_of_creationError hkey.2) _).1, ?_⟩
  intro id value hval
  by_cases hlt : id < s.store.keyspace.entries.length
  · rw [zsetAt_created_old maxEntries hlt] at hval
    rw [pool_created, Pool.addOwner_read_old h.wellFormed (by simpa [pool] using hlt)]
    exact h.represents id value hval
  · have hid : id = s.store.keyspace.entries.length := by
      rcases entry_of_zsetAt hval with ⟨found, hent⟩
      have hle := lt_of_getElem? hent
      simp [created, push] at hle
      omega
    subst hid
    rw [zsetAt_created_new] at hval
    exact ⟨_, Option.some.inj hval ▸ fresh_represents maxEntries⟩

theorem findId_created : (s.created maxEntries key).store.keyspace.findId =
    update s.store.keyspace.findId key (some s.store.keyspace.entries.length) := by
  simp [created, findId_push]

theorem zscores_created (h : s.Valid) (hkey : s.Creatable key) :
    (s.created maxEntries key).zscores other = s.zscores other := by
  unfold zscores
  rw [findId_created]
  by_cases hoth : other = key
  · subst hoth
    rw [update_self, hkey.1, Option.bind_some,
      mapAt_of_represents (zsetAt_created_new maxEntries) (fresh_represents maxEntries)]
    rfl
  · rw [update_of_ne hoth]
    cases hid : s.store.keyspace.findId other with
    | none => rfl
    | some id =>
      rw [Option.bind_some, mapAt_created_old maxEntries h (h.store.keyspace.lt_length hid)]
      rfl

theorem getOrCreateZset_granted (hnew : s.findZset key = none) :
    (s.Creatable key ∧ getOrCreateZset maxEntries key s [] =
      ⟨.ok s.store.keyspace.entries.length, s.created maxEntries key, []⟩) ∨
    (¬s.Creatable key ∧ ∃ thrown s',
      getOrCreateZset maxEntries key s [] = ⟨.error thrown, s', []⟩) := by
  unfold getOrCreateZset Creatable
  rw [get_bind]
  cases hid : s.store.keyspace.findId key with
  | some id =>
    rw [findZset, hid, Option.filter_some] at hnew
    have hval : (s.zsetAt id).isSome = false := by simpa using hnew
    refine .inr ⟨by simp, .logicError "get_or_create_zset on a key that is not a zset", s, ?_⟩
    simp only [hval]
    rfl
  | none =>
    have hcreate : Keyspace.createKey key
      (.aggregate (.zset (freshZset maxEntries s.layers.length)))
        s.store.keyspace [] = _ := createKey_granted
    have hwhen (body : StoreComp (ZSetStore σ) Unit) (s₁ s₂ : ZSetStore σ)
        (hbody : body s₁ [] = ⟨.ok (), s₂, []⟩) : Comp.when (maxEntries = 0) body s₁ [] =
          ⟨.ok (), if maxEntries = 0 then s₂ else s₁, []⟩ := by
      by_cases hfull : maxEntries = 0
      · rw [when_pos hfull, hbody, if_pos hfull]
      · rw [when_neg hfull, pure_apply, if_neg hfull]
    have hask := hwhen ensureMemoryGrowth s s rfl
    rw [ite_self] at hask
    dsimp only
    rw [createZset, get_bind, bind_ok hask, Store.onKeyspace]
    cases herr : Keyspace.creationError s.store.keyspace.entries.length key with
    | none =>
      rw [herr] at hcreate
      rw [bind_ok (zoom_eq (zoom_eq hcreate)),
        bind_ok (hwhen _ _ _ (modify_apply _ _ _)), pure_apply]
      unfold created
      by_cases hfull : maxEntries = 0
      · simp [hfull]
      · simp [hfull]
    | some thrown =>
      rw [herr] at hcreate
      exact .inr ⟨by simp, thrown, _, bind_error (zoom_eq (zoom_eq hcreate))⟩

end Creation

/-! ## Taking over a layer -/

section Adoption

variable [Score σ] {options : ZAddOptions} {items : List (ZAddItem σ)} {source : ℕ}

/-- A plain batch for a full sorted set without members, whose first item the template has. -/
def AdoptsAt (options : ZAddOptions) (id : ℕ) (items : List (ZAddItem σ)) (source : ℕ)
    (s : ZSetStore σ) : Prop :=
  s.findMemberLayerTemplate = some source ∧ options = {} ∧ s.isFullAt id true = true ∧
    s.hasFirst source items = true

omit [Score σ] in
theorem isFullAt_iff {empty : Bool} : s.isFullAt id empty = true ↔
    ∃ state, s.zsetAt id = some (.full state) ∧ (ZSet.full state).empty = empty := by
  unfold isFullAt
  cases hval : s.zsetAt id with
  | none => simp
  | some value =>
    cases value with
    | small listpack => simp
    | full state => simp

omit [Score σ] in
theorem template_full (h : s.findMemberLayerTemplate = some source) :
    s.isFullAt source false = true := by
  have hfind : (List.range s.store.keyspace.entries.length).find?
      (fun id ↦ s.isFullAt id false) = some source := h
  simpa using find?_some hfind

omit [Score σ] in
theorem template_lt (h : s.findMemberLayerTemplate = some source) :
    source < s.store.keyspace.entries.length :=
  mem_range.mp (mem_of_find?_eq_some h)

/-- The key takes over the map of the template. -/
theorem adoptTemplate_adopts (h : s.Valid) (hadopts : s.AdoptsAt options id items source) :
    ∃ s' map, adoptTemplate options id items s [] = ⟨.ok (), s', []⟩ ∧
      s.mapAt source = some map ∧ s.Step id map s' := by
  rcases hadopts with ⟨htmpl, hplain, hemp, hfst⟩
  rcases isFullAt_iff.mp hemp with ⟨own, hown, hownEmpty⟩
  rcases isFullAt_iff.mp (template_full htmpl) with ⟨state, hst, hstateEmpty⟩
  have hne : source ≠ id := by
    intro heq
    subst heq
    rw [hown] at hst
    rw [Option.some.inj hst, hstateEmpty] at hownEmpty
    exact absurd hownEmpty Bool.false_ne_true
  rcases h.represents source _ hst with ⟨map, hmap⟩
  have hpool : (s.replace id (.full state) s.layers).pool = s.pool.share id source := by
    rw [pool_replace, Pool.share, ref_eq hst]
    rfl
  refine ⟨s.replace id (.full state) s.layers, map, ?_, mapAt_of_represents hst hmap, ?_⟩
  · simp only [adoptTemplate, get_bind, htmpl]
    rw [when_pos ⟨hplain, hemp, hne, hfst⟩, granted_bind, modify_apply,
      adoptSharedMemberLayerFrom, hst]
  · apply Step.of_replace h hown
    · rw [hpool, Pool.share_read_self (lt_owners hown)]
      exact hmap
    · intro other hoth
      rw [hpool, Pool.share_read_other hoth]

theorem adoptTemplate_skips (hadopts : ∀ source, ¬s.AdoptsAt options id items source) :
    adoptTemplate options id items s [] = ⟨.ok (), s, []⟩ := by
  unfold adoptTemplate
  rw [get_bind]
  cases htmpl : s.findMemberLayerTemplate with
  | none => rfl
  | some source =>
    have hnot := hadopts source
    dsimp only
    rw [when_neg fun hconditions ↦ hnot
      ⟨htmpl, hconditions.1, hconditions.2.1, hconditions.2.2.2⟩, pure_apply]

end Adoption

/-! ## Counting with more members than there should be -/

section Counting

variable [Score σ] {item : ZAddItem σ}

/-- A plain item adds its member if it is not there, and never stops the batch. -/
theorem apply_plain (tally : Tally σ) (hrun : tally.stopped = false)
    (hnum : Score.isNan item.score = false) :
    (tally.apply {} item).stopped = false ∧
      (tally.apply {} item).added = tally.added + (if tally.map item.member = none then 1 else 0) ∧
      ∀ member, (tally.apply {} item).map member = none ↔
        tally.map member = none ∧ member ≠ item.member := by
  have hset (score : σ) (member : Bytes) : update tally.map item.member (some score)
      member = none ↔ tally.map member = none ∧ member ≠ item.member := by
    by_cases hmember : member = item.member
    · subst hmember
      simp
    · simp [hmember]
  have hwanted : tally.wanted {} item = item.score := by
    unfold Tally.wanted
    cases tally.map item.member with
    | none => rfl
    | some old => rfl
  have hpermits : tally.permits {} item = true := by
    unfold Tally.permits
    cases tally.map item.member with
    | none => rfl
    | some old => rfl
  unfold Tally.apply Tally.set
  rw [hwanted, hpermits]
  cases hold : tally.map item.member with
  | none => simp [hrun, hnum, hset]
  | some old =>
    have hpresent (member : Bytes) : tally.map member = none ↔
        tally.map member = none ∧ member ≠ item.member := by
      constructor
      · intro hnone
        refine ⟨hnone, ?_⟩
        intro hmember
        rw [hmember, hold] at hnone
        exact absurd hnone (Option.some_ne_none old)
      · exact And.left
    by_cases heq : Score.eq item.score old = true
    · simpa [hrun, hnum, heq] using hpresent
    · simp [hrun, hnum, heq, hset]

/-- The more members there are, the fewer a batch adds. -/
theorem added_antitone {items : List (ZAddItem σ)} {few many : Tally σ} (hfew : few.stopped = false)
    (hmany : many.stopped = false)
    (hmembers : ∀ member, many.map member = none → few.map member = none)
    (hnums : ∀ item ∈ items, Score.isNan item.score = false) :
    (many.fold {} items).added + few.added ≤ (few.fold {} items).added + many.added := by
  induction items generalizing few many with
  | nil => simp [Tally.fold, Nat.add_comm]
  | cons item rest ih =>
    rcases forall_mem_cons.mp hnums with ⟨hnum, hrest⟩
    rcases apply_plain few hfew hnum with ⟨hfewRun, hfewAdded, hfewMap⟩
    rcases apply_plain many hmany hnum with ⟨hmanyRun, hmanyAdded, hmanyMap⟩
    have hnext := ih hfewRun hmanyRun (fun member hnone ↦ by
      rw [hmanyMap] at hnone
      rw [hfewMap]
      exact ⟨hmembers member hnone.1, hnone.2⟩) hrest
    rw [hfewAdded, hmanyAdded] at hnext
    simp only [Tally.fold, foldl_cons] at hnext ⊢
    by_cases hnone : many.map item.member = none
    · rw [if_pos hnone, if_pos (hmembers _ hnone)] at hnext
      omega
    · split at hnext <;> omega

/-- A batch whose first member is there already adds fewer than it adds to nothing. -/
theorem added_lt {rest : List (ZAddItem σ)} {map : ZMap σ} (hfst : map item.member ≠ none)
    (hnums : ∀ other ∈ item :: rest, Score.isNan other.score = false) :
    (Tally.fold {} { map := map } (item :: rest)).added <
      (Tally.fold {} { map := fun _ ↦ none } (item :: rest)).added := by
  rcases forall_mem_cons.mp hnums with ⟨hnum, hrest⟩
  have hmany := apply_plain { map := map } rfl hnum
  have hfew := apply_plain { map := fun _ ↦ none } rfl hnum
  have hantitone := added_antitone hfew.1 hmany.1 (fun member hnone ↦ by
    rw [hmany.2.2] at hnone
    rw [hfew.2.2]
    exact ⟨rfl, hnone.2⟩) hrest
  rw [hfew.2.1, hmany.2.1, if_pos rfl, if_neg hfst] at hantitone
  exact Nat.lt_of_succ_le hantitone

end Counting

/-! ## The whole command -/

section Zadd

variable [Score σ] (maxEntries : ℕ) {options : ZAddOptions} {items : List (ZAddItem σ)}

omit [Score σ] in
theorem signalled_step (h : s.Valid) (hmap : s.mapAt id = some map) (keys : List Bytes) :
    s.Step id map { s with store := { s.store with signalled := keys } } :=
  ⟨⟨⟨h.store.keyspace, h.store.ttl, h.store.live⟩, h.represents⟩, hmap, fun _ _ ↦ rfl, rfl⟩

variable {isNew : Bool} {result : ZAddResult σ}

/-- The command once its layer is settled: `map` is what the key then has. -/
theorem zaddAt_granted {s₁ : ZSetStore σ}
    (hadopt : adoptTemplate options id items s [] = ⟨.ok (), s₁, []⟩) (hstep : s.Step id map s₁)
    (hnums : ∀ item ∈ items, Score.isNan item.score = false) :
    (Tally.Storable options { map := map } items ∧ ∃ result s',
      zaddAt maxEntries options key items isNew id s [] = ⟨.ok result, s', []⟩ ∧
        Counts result (Tally.fold options { map := map } items) ∧
        s.Step id (Tally.fold options { map := map } items).map s') ∨
    (¬Tally.Storable options { map := map } items ∧ ∃ thrown s',
      zaddAt maxEntries options key items isNew id s [] = ⟨.error thrown, s', []⟩) := by
  have hcnts : Counts ({} : ZAddResult σ) { map := map } := ⟨rfl, rfl⟩
  have hloop : (Tally.Storable options { map := map } items ∧ _) ∨ _ :=
    addItems_granted maxEntries hstep.valid hstep.at_id rfl hcnts hnums
  unfold zaddAt
  rw [bind_ok hadopt]
  rcases hloop with ⟨hstorable, result, s₂, hrun, hcnts, hlast⟩ | ⟨hstorable, thrown, s₂, hrun⟩
  · refine .inl ⟨hstorable, result, ?_⟩
    rw [bind_ok (tryCatch_ok hrun)]
    by_cases hsignal : result.invalidScore = false ∧ result.changed ≠ 0
    · rw [when_pos hsignal, modify_bind, pure_apply]
      exact ⟨_, rfl, hcnts, (hstep.trans hlast).trans (signalled_step hlast.valid hlast.at_id _)⟩
    · rw [when_neg hsignal, pure_bind, pure_apply]
      exact ⟨s₂, rfl, hcnts, hstep.trans hlast⟩
  · refine .inr ⟨hstorable, thrown, ?_⟩
    rw [bind_apply, tryCatch_error hrun, get_bind]
    by_cases hemp : isNew = true ∧ (s₂.zsetAt id).any ZSet.empty = true
    · rw [when_pos hemp]
      exact ⟨_, rfl⟩
    · rw [when_neg hemp]
      exact ⟨_, rfl⟩

/-- A step that ends in the fold is what the command is for. -/
theorem meets_of_step (h : s.Valid) (hid : s.store.keyspace.findId key = some id)
    (hcnts : Counts result (Tally.fold options { map := s.zscores key } items))
    (hstep : s.Step id (Tally.fold options { map := s.zscores key } items).map s') :
    Meets options key items s ⟨.ok result, s', []⟩ where
  returns := ⟨result, rfl, hcnts⟩
  scores := hstep.zscores_self hid
  listing := (hstep.valid.zlisting_eq key).trans (hstep.zscores_self hid)
  others other hne := by
    have hsame := hstep.zscores_other h hid hne
    rw [hstep.valid.zlisting_eq, h.zlisting_eq, hsame]
    exact ⟨rfl, rfl⟩

omit [Score σ] in
theorem zscores_of_mapAt (hid : s.store.keyspace.findId key = some id)
    (hmap : s.mapAt id = some map) : s.zscores key = map := by
  rw [zscores, hid, Option.bind_some, hmap, Option.getD_some]

theorem zaddAt_meets_iff (h : s.Valid) (hid : s.store.keyspace.findId key = some id)
    (hmap : s.mapAt id = some map) (hnums : ∀ item ∈ items, Score.isNan item.score = false) :
    Meets options key items s (zaddAt maxEntries options key items isNew id s []) ↔
      (∀ source, ¬s.AdoptsAt options id items source) ∧
        Tally.Storable options { map := map } items := by
  have hscores := zscores_of_mapAt hid hmap
  by_cases hadopts : ∃ source, s.AdoptsAt options id items source
  · -- The count leaves out the first item, which the key had from the template.
    rcases hadopts with ⟨source, hadopts⟩
    rcases adoptTemplate_adopts h hadopts with ⟨s₁, taken, hadopt, htaken, hstep⟩
    refine iff_of_false ?_ fun hboth ↦ hboth.1 source hadopts
    rcases hadopts with ⟨_, hplain, hemp, hfst⟩
    rintro ⟨⟨result, hres, hadded, _⟩, _, _, _⟩
    have hnone : map = fun _ ↦ none := by
      rcases isFullAt_iff.mp hemp with ⟨state, hst, hstateEmpty⟩
      have hlisting := (ZSet.empty_iff _).mp hstateEmpty
      rcases h.represents_of_mapAt hmap with ⟨value, hval, hrep⟩
      rw [hst] at hval
      rw [← hlisting, ← hrep.listing, Option.some.inj hval]
    cases items with
    | nil => exact absurd hfst Bool.false_ne_true
    | cons item rest =>
      have hpresent : taken item.member ≠ none := by
        intro habsent
        simp [hasFirst, scoreAt, htaken, habsent] at hfst
      have hlt := added_lt hpresent hnums
      rcases zaddAt_granted maxEntries hadopt hstep hnums with
        ⟨_, result', s', hrun, hcnts, _⟩ | ⟨_, thrown, s', hrun⟩
      · rw [hrun] at hres
        obtain rfl := Except.ok.inj hres
        rw [hscores, hnone, hplain] at hadded
        rw [hplain] at hcnts
        rw [hcnts.1] at hadded
        exact absurd hadded (Nat.ne_of_lt hlt)
      · rw [hrun] at hres
        cases hres
  · have hnone := not_exists.mp hadopts
    have hadopt := adoptTemplate_skips hnone
    rcases zaddAt_granted maxEntries hadopt (Step.refl h hmap) hnums with
      ⟨hstorable, result, s', hrun, hcnts, hstep⟩ | ⟨hstorable, thrown, s', hrun⟩
    · refine iff_of_true ?_ ⟨hnone, hstorable⟩
      rw [hrun]
      rw [← hscores] at hcnts hstep
      exact meets_of_step h hid hcnts hstep
    · refine iff_of_false ?_ fun hboth ↦ hstorable hboth.2
      rintro ⟨⟨result, hres, _⟩, _, _, _⟩
      rw [hrun] at hres
      cases hres

/-! ### The same question before and after the creation of the key -/

omit [Score σ] in
theorem template_created :
    (s.created maxEntries key).findMemberLayerTemplate = s.findMemberLayerTemplate := by
  have hlen : (s.created maxEntries key).store.keyspace.entries.length =
      s.store.keyspace.entries.length + 1 := by
    simp [created, push]
  have hnew : (s.created maxEntries key).isFullAt s.store.keyspace.entries.length false =
      false := by
    unfold isFullAt
    rw [zsetAt_created_new]
    by_cases hfull : maxEntries = 0
    · simp [hfull, freshZset, ZSet.empty]
    · simp [hfull, freshZset]
  have hold : (List.range s.store.keyspace.entries.length).find?
      (fun id ↦ (s.created maxEntries key).isFullAt id false) =
        (List.range s.store.keyspace.entries.length).find? fun id ↦ s.isFullAt id false := by
    apply find?_congr
    intro id hid
    rw [isFullAt, zsetAt_created_old maxEntries (mem_range.mp hid)]
    rfl
  unfold findMemberLayerTemplate
  rw [hlen, range_succ, find?_append, hold]
  simp [hnew]

theorem hasFirst_created (h : s.Valid) {source : ℕ}
    (hsrc : source < s.store.keyspace.entries.length) :
    (s.created maxEntries key).hasFirst source items = s.hasFirst source items := by
  cases items with
  | nil => rfl
  | cons item rest => simp only [hasFirst, scoreAt, mapAt_created_old maxEntries h hsrc]

omit [Score σ] in
theorem isFullAt_created :
    (s.created maxEntries key).isFullAt s.store.keyspace.entries.length true = true ↔
      maxEntries = 0 := by
  unfold isFullAt
  rw [zsetAt_created_new]
  by_cases hfull : maxEntries = 0
  · simp [hfull, freshZset, ZSet.empty]
  · simp [hfull, freshZset]

/-- The sorted set of the key is full and has no members, or will be so when it is created. -/
def StartsFull (s : ZSetStore σ) (key : Bytes) : Prop :=
  match s.findZset key with
  | some id => s.isFullAt id true = true
  | none => maxEntries = 0

/-- The batch makes the key take over the member layer of another key. -/
def Adopts (options : ZAddOptions) (key : Bytes) (items : List (ZAddItem σ)) (s : ZSetStore σ) :
    Prop :=
  options = {} ∧ s.StartsFull maxEntries key ∧
    ∃ source, s.findMemberLayerTemplate = some source ∧ s.hasFirst source items = true

theorem adopts_iff_of_found (hfnd : s.findZset key = some id) :
    s.Adopts maxEntries options key items ↔ ∃ source, s.AdoptsAt options id items source := by
  unfold Adopts AdoptsAt StartsFull
  rw [hfnd]
  constructor
  · rintro ⟨hplain, hemp, source, htmpl, hfst⟩
    exact ⟨source, htmpl, hplain, hemp, hfst⟩
  · rintro ⟨source, htmpl, hplain, hemp, hfst⟩
    exact ⟨hplain, hemp, source, htmpl, hfst⟩

theorem adopts_iff_of_created (h : s.Valid) (hnew : s.findZset key = none) :
    s.Adopts maxEntries options key items ↔ ∃ source, (s.created maxEntries key).AdoptsAt options
      s.store.keyspace.entries.length items source := by
  unfold Adopts AdoptsAt StartsFull
  rw [hnew]
  simp only [template_created, isFullAt_created]
  constructor
  · rintro ⟨hplain, hemp, source, htmpl, hfst⟩
    refine ⟨source, htmpl, hplain, hemp, ?_⟩
    rwa [hasFirst_created maxEntries h (template_lt htmpl)]
  · rintro ⟨source, htmpl, hplain, hemp, hfst⟩
    rw [hasFirst_created maxEntries h (template_lt htmpl)] at hfst
    exact ⟨hplain, hemp, source, htmpl, hfst⟩

/-- The key has a sorted set, or one can be created. -/
def Ready (s : ZSetStore σ) (key : Bytes) : Prop := s.findZset key ≠ none ∨ s.Creatable key

/-- When the batch is folded into the map of the key. -/
def Folds (options : ZAddOptions) (key : Bytes) (items : List (ZAddItem σ)) (s : ZSetStore σ) :
    Prop :=
  items = [] ∨ (options.xx = true ∧ s.findZset key = none) ∨
    (s.Ready key ∧ ¬s.Adopts maxEntries options key items ∧
      Tally.Storable options { map := s.zscores key } items)

theorem meets_refl (hfold : Tally.fold options { map := s.zscores key } items =
    { map := s.zscores key }) (h : s.Valid) : Meets options key items s ⟨.ok {}, s, []⟩ where
  returns := ⟨{}, rfl, by rw [hfold], by rw [hfold]⟩
  scores := by rw [hfold]
  listing := by rw [hfold, h.zlisting_eq]
  others _ _ := ⟨rfl, rfl⟩

/-- With XX nothing is folded into an empty map. -/
theorem fold_xx (hxx : options.xx = true) {tally : Tally σ} (hmap : tally.map = fun _ ↦ none)
    (hnums : ∀ item ∈ items, Score.isNan item.score = false) :
    tally.fold options items = tally := by
  induction items with
  | nil => rfl
  | cons item rest ih =>
    rcases forall_mem_cons.mp hnums with ⟨hnum, hrest⟩
    have happly : tally.apply options item = tally := by
      simp [Tally.apply, Tally.wanted, Tally.permits, hmap, hnum, hxx]
    rw [Tally.fold, foldl_cons, happly]
    exact ih hrest

/-- What a command is for depends only on the maps it starts from. -/
theorem meets_congr {s₁ : ZSetStore σ} {outcome : Outcome Thrown (ZSetStore σ) (ZAddResult σ)}
    (hscores : ∀ key, s₁.zscores key = s.zscores key)
    (hlisting : ∀ key, s₁.zlisting key = s.zlisting key) :
    Meets options key items s outcome ↔ Meets options key items s₁ outcome := by
  constructor
  · rintro ⟨hreturns, hself, hlist, hoths⟩
    rw [← hscores key] at hreturns hself hlist
    exact ⟨hreturns, hself, hlist, fun other hne ↦ by
      rw [hscores, hlisting]
      exact hoths other hne⟩
  · rintro ⟨hreturns, hself, hlist, hoths⟩
    rw [hscores key] at hreturns hself hlist
    exact ⟨hreturns, hself, hlist, fun other hne ↦ by
      rw [← hscores, ← hlisting]
      exact hoths other hne⟩

/-- How the command starts: it has nothing to do, works on the sorted set it found, works on the
one it created, or throws. -/
theorem zadd_cases (options : ZAddOptions) (key : Bytes) {items : List (ZAddItem σ)}
    (s : ZSetStore σ) (hnums : ∀ item ∈ items, Score.isNan item.score = false) :
    ((items = [] ∨ options.xx = true ∧ s.findZset key = none) ∧
      zadd maxEntries options key items s [] = ⟨.ok {}, s, []⟩) ∨
    (items ≠ [] ∧ ∃ id, s.findZset key = some id ∧ zadd maxEntries options key items s [] =
      zaddAt maxEntries options key items false id s []) ∨
    (items ≠ [] ∧ options.xx = false ∧ s.findZset key = none ∧ s.Creatable key ∧
      zadd maxEntries options key items s [] = zaddAt maxEntries options key items true
        s.store.keyspace.entries.length (s.created maxEntries key) []) ∨
    (items ≠ [] ∧ options.xx = false ∧ ¬s.Ready key ∧ ∃ thrown s',
      zadd maxEntries options key items s [] = ⟨.error thrown, s', []⟩) := by
  by_cases hitems : items = []
  · subst hitems
    exact .inl ⟨.inl rfl, rfl⟩
  have hsome : items.isEmpty = false := by simpa using hitems
  have hnans : (items.any fun item ↦ Score.isNan item.score) = false := by simpa using hnums
  simp only [zadd, get_bind, hsome, hnans]
  cases hfnd : s.findZset key with
  | some id => exact .inr (.inl ⟨hitems, id, rfl, rfl⟩)
  | none =>
    cases hxx : options.xx with
    | true => exact .inl ⟨.inr ⟨rfl, rfl⟩, rfl⟩
    | false =>
      rcases getOrCreateZset_granted maxEntries hfnd with
        ⟨hkey, hcreate⟩ | ⟨hkey, thrown, s', hcreate⟩
      · exact .inr (.inr (.inl ⟨hitems, rfl, rfl, hkey, bind_ok hcreate⟩))
      · refine .inr (.inr (.inr ⟨hitems, rfl, ?_, thrown, s', bind_error hcreate⟩))
        rintro (hsome | hcreatable)
        · exact hsome hfnd
        · exact hkey hcreatable

omit [Score σ] in
theorem mapAt_created_new : (s.created maxEntries key).mapAt s.store.keyspace.entries.length =
    some fun _ ↦ none :=
  mapAt_of_represents (zsetAt_created_new maxEntries) (fresh_represents maxEntries)

theorem zaddAt_valid (h : s.Valid) (hmap : s.mapAt id = some map)
    (hnums : ∀ item ∈ items, Score.isNan item.score = false)
    (hrun : zaddAt maxEntries options key items isNew id s [] = ⟨.ok result, s', []⟩) :
    s'.Valid := by
  have hadopt : ∃ s₁ map₁, adoptTemplate options id items s [] = ⟨.ok (), s₁, []⟩ ∧
      s.Step id map₁ s₁ := by
    by_cases hadopts : ∃ source, s.AdoptsAt options id items source
    · rcases hadopts with ⟨source, hadopts⟩
      rcases adoptTemplate_adopts h hadopts with ⟨s₁, taken, hadopt, _, hstep⟩
      exact ⟨s₁, taken, hadopt, hstep⟩
    · exact ⟨s, map, adoptTemplate_skips (not_exists.mp hadopts), Step.refl h hmap⟩
  rcases hadopt with ⟨s₁, map₁, hadopt, hstep⟩
  rcases zaddAt_granted maxEntries hadopt hstep hnums with
    ⟨_, result', s₂, hgranted, _, hlast⟩ | ⟨_, thrown, s₂, hgranted⟩
  · rw [hrun] at hgranted
    obtain rfl : s' = s₂ := congrArg Outcome.state hgranted
    exact hlast.valid
  · rw [hrun] at hgranted
    exact absurd (congrArg Outcome.result hgranted) (by simp)

/-- The invariant holds again whenever the command returns. -/
theorem zadd_valid (h : s.Valid) (hnums : ∀ item ∈ items, Score.isNan item.score = false)
    (hrun : zadd maxEntries options key items s [] = ⟨.ok result, s', []⟩) : s'.Valid := by
  rcases zadd_cases maxEntries options key s hnums with ⟨_, hcase⟩ |
    ⟨_, id, hfnd, hcase⟩ | ⟨_, _, _, hkey, hcase⟩ | ⟨_, _, _, thrown, s₁, hcase⟩
  · rw [hcase] at hrun
    obtain rfl : s = s' := congrArg Outcome.state hrun
    exact h
  · rcases findZset_some hfnd with ⟨_, value, hval⟩
    rcases h.represents id value hval with ⟨map, hrep⟩
    exact zaddAt_valid maxEntries h (mapAt_of_represents hval hrep) hnums (hcase.symm.trans hrun)
  · exact zaddAt_valid maxEntries (created_valid maxEntries h hkey) (mapAt_created_new maxEntries)
      hnums (hcase.symm.trans hrun)
  · rw [hcase] at hrun
    exact absurd (congrArg Outcome.result hrun) (by simp)

end Zadd

/-! ## A sorted set of the store, and one by itself

The store reads and writes a full sorted set through the map of its layer.  `SortedSet.ZSet` has
the storage, the member index and the blocks of the score index behind that map. -/

section Alone

variable [Score σ] [LawfulScore σ] {zsetOptions : SortedSet.ZSetOptions}
  {zset zset' : SortedSet.ZSet σ} {addOptions : ZAddOptions} {score : σ} {member : Bytes}

/-- The sorted set at `id` has the map of `zset`. -/
structure Stands (zsetOptions : SortedSet.ZSetOptions) (id : ℕ) (s : ZSetStore σ)
    (zset : SortedSet.ZSet σ) : Prop where
  valid : s.Valid
  alone : zset.Valid zsetOptions
  map_eq : s.mapAt id = some (Ranking.lookup zset.contents)

theorem Stands.admits_iff (h : Stands zsetOptions id s zset) :
    Admits (Ranking.lookup zset.contents) member ↔
      SortedSet.refusal zset.size member = none := by
  have hsize : zset.size = (ZMap.members (Ranking.lookup zset.contents)).ncard :=
    SortedSet.size_eq_ncard h.alone
  rw [hsize, Admits, SortedSet.refusal, maxMembers, maxMemberBytes]
  split_ifs <;> simp <;> omega

/-- `ZSet::add` at a key answers as it does on the sorted set by itself, and the two have the same
map again. -/
theorem Stands.add [DecidableEq σ] (h : Stands zsetOptions id s zset) (hnum : Score.isNan score = false)
    (maxEntries : ℕ) :
    (∃ mutation s', ZSetStore.add maxEntries addOptions id score member s [] =
        ⟨.ok mutation, s', []⟩ ∧
      (SortedSet.ZSet.add zsetOptions addOptions score member zset []).result = .ok mutation ∧
      Stands zsetOptions id s'
        (SortedSet.ZSet.add zsetOptions addOptions score member zset []).state) ∨
    (∃ thrown thrown' s', ZSetStore.add maxEntries addOptions id score member s [] =
        ⟨.error thrown, s', []⟩ ∧
      (SortedSet.ZSet.add zsetOptions addOptions score member zset []).result =
        .error thrown') := by
  have hadd : _ ∧ SortedSet.ZSet.Becomes zsetOptions _ zset
      (SortedSet.ZSet.add zsetOptions addOptions score member zset []).state :=
    SortedSet.ZSet.add_becomes h.alone
  rcases hadd with ⟨hresult, hbecomes⟩
  let tally : Tally σ := { map := Ranking.lookup zset.contents }
  let item : ZAddItem σ := ⟨score, member⟩
  have hcreates : tally.Creates addOptions item ↔ _ := creates_iff rfl hnum
  by_cases hfits : tally.Creates addOptions item → Admits tally.map member
  · obtain ⟨s', hrun, hstep⟩ : ∃ s', ZSetStore.add maxEntries addOptions id score member s [] =
          ⟨.ok (Scores.decide addOptions (tally.map member) score), s', []⟩ ∧
        s.Step id (tally.apply addOptions item).map s' :=
      add_granted maxEntries h.valid h.map_eq rfl hnum hfits
    have hreply : SortedSet.ZSet.addReply addOptions score member zset.size
        (Ranking.lookup zset.contents) =
          .ok (Scores.decide addOptions (tally.map member) score) := by
      unfold SortedSet.ZSet.addReply
      dsimp only
      split_ifs with hnew
      · have hroom := h.admits_iff.mp
          (hfits (hcreates.mpr ⟨Option.isNone_iff_eq_none.mp hnew.2, hnew.1⟩))
        rw [hroom]
        rfl
      · rfl
    rw [hreply] at hresult hbecomes
    refine .inl ⟨_, s', hrun, hresult, hstep.valid, hbecomes.valid, ?_⟩
    rw [hstep.at_id, hbecomes.map_eq, map_apply rfl hnum]
    rfl
  · rcases Classical.not_imp.mp hfits with ⟨hnew, hadmits⟩
    obtain ⟨thrown, s', hrun⟩ : ∃ thrown s',
        ZSetStore.add maxEntries addOptions id score member s [] = ⟨.error thrown, s', []⟩ :=
      add_refuses maxEntries h.valid h.map_eq rfl hnum hnew hadmits
    obtain ⟨hnone, hchg⟩ := hcreates.mp hnew
    have hrefusal : SortedSet.refusal zset.size member ≠ none := fun hroom ↦
      hadmits (h.admits_iff.mpr hroom)
    obtain ⟨thrown', hthrown⟩ := Option.ne_none_iff_exists'.mp hrefusal
    refine .inr ⟨thrown, thrown', s', hrun, ?_⟩
    rw [hresult, SortedSet.ZSet.addReply,
      if_pos ⟨hchg, Option.isNone_iff_eq_none.mpr hnone⟩, hthrown]
    rfl

end Alone

/-! ## Two keys that share a layer -/

theorem empty_valid : ({} : ZSetStore σ).Valid where
  store := Store.empty_valid
  represents id value hval := by simp [zsetAt] at hval

/-- The store after `ZADD A 1 a 2 b`, with small sorted sets switched off. -/
def membersOfA : ZSetStore ℤ := (zadd 0 {} [65] [⟨1, [97]⟩, ⟨2, [98]⟩] {} []).state

theorem membersOfA_valid : membersOfA.Valid := by
  have hrun : zadd 0 {} [65] [⟨1, [97]⟩, ⟨2, [98]⟩] {} [] =
      ⟨.ok { added := 2, changed := 2 }, membersOfA, []⟩ := rfl
  exact zadd_valid 0 empty_valid (by simp [Score.isNan]) hrun

/-- `ZADD A GT 3 a 1 b 5 c` raises `a`, leaves `b` and adds `c`. -/
def raises : List (ZAddItem ℤ) := [⟨3, [97]⟩, ⟨1, [98]⟩, ⟨5, [99]⟩]

/-- `ZADD B 7 a 2 b`, where A has another score for `a`. -/
def rescored : List (ZAddItem ℤ) := [⟨7, [97]⟩, ⟨2, [98]⟩]

theorem membersOfA_few : (membersOfA.zscores [65]).members.ncard = 2 := by
  have hmap : membersOfA.zscores [65] = ((membersOfA.layers[0]?).getD ∅).map := rfl
  rw [hmap, ← Scores.length_keys]
  decide

end ZSetStore

end GoblinCore
