import GoblinCore.ZSets.SharedLayers

/-!
# ZADD

`Store::zadd` folds its items over the map of the key.  A key whose sorted set is full and empty
may first take over the member layer of another key, when that one has the first item; it then has
all the members of the other key.
-/

namespace GoblinCore

open Refusable MemoryLimit CopyOnWrite Comp

structure ZAddItem (σ : Type) where
  score : σ
  member : Bytes

structure ZAddResult (σ : Type) where
  added : ℕ := 0
  changed : ℕ := 0
  invalidScore : Bool := false
  incrementScore : Option σ := none

variable {σ : Type} [Score σ]

/-! ## What ZADD is for -/

/-- A map with the counts of the items folded into it so far. -/
@[ext] structure Tally (σ : Type) where
  map : ZMap σ
  added : ℕ := 0
  changed : ℕ := 0
  /-- An increment had no number for a result, which ends the batch. -/
  stopped : Bool := false

namespace Tally

variable (options : ZAddOptions)

/-- The score an item asks for: with INCR, what it adds to the old score. -/
def wanted (tally : Tally σ) (item : ZAddItem σ) : σ :=
  match tally.map item.member with
  | some old => if options.increment then Score.add old item.score else item.score
  | none => item.score

/-- NX takes new members only, XX old ones only, GT and LT only scores that move their way. -/
def permits (tally : Tally σ) (item : ZAddItem σ) : Bool :=
  match tally.map item.member with
  | some old =>
    !options.nx && !(options.gt && Score.le (wanted options tally item) old) &&
      !(options.lt && Score.le old (wanted options tally item))
  | none => !options.xx

/-- The item creates a member. -/
def Creates (tally : Tally σ) (item : ZAddItem σ) : Prop :=
  tally.stopped = false ∧ Score.isNan (wanted options tally item) = false ∧
    permits options tally item = true ∧ tally.map item.member = none

def set (tally : Tally σ) (member : Bytes) (score : σ) : ZMap σ :=
  Function.update tally.map member (some score)

/-- One item under the rules. -/
def apply (tally : Tally σ) (item : ZAddItem σ) : Tally σ :=
  if tally.stopped then tally
  else if Score.isNan (wanted options tally item) then { tally with stopped := true }
  else if permits options tally item = false then tally
  else match tally.map item.member with
    | none =>
      { tally with
        map := tally.set item.member (wanted options tally item)
        added := tally.added + 1
        changed := tally.changed + 1 }
    | some old =>
      if Score.eq (wanted options tally item) old then tally
      else
        { tally with
          map := tally.set item.member (wanted options tally item)
          changed := tally.changed + 1 }

def fold (tally : Tally σ) (items : List (ZAddItem σ)) : Tally σ :=
  items.foldl (apply options) tally

/-- No item creates a member that is too long to be stored, or that there is no id left for. -/
def Storable (tally : Tally σ) : List (ZAddItem σ) → Prop
  | [] => True
  | item :: rest =>
    (tally.Creates options item → ZSetStore.Admits tally.map item.member) ∧
      Storable (tally.apply options item) rest

theorem ncard_members_apply_le (tally : Tally σ) (item : ZAddItem σ) :
    (tally.apply options item).map.members.ncard ≤ tally.map.members.ncard + 1 := by
  have hset : (ZMap.members (tally.set item.member (wanted options tally item))).ncard ≤ _ :=
    ZMap.ncard_members_update_le _ _ _
  unfold apply
  split_ifs
  · exact Nat.le_succ _
  · exact Nat.le_succ _
  · exact Nat.le_succ _
  · split
    · exact hset
    · split_ifs
      · exact Nat.le_succ _
      · exact hset

/-- Items of short members are stored as long as the members stay few. -/
theorem storable_of_few {items : List (ZAddItem σ)} {tally : Tally σ}
    (hcount : tally.map.members.ncard + items.length ≤ ZSetStore.maxMembers)
    (hshort : ∀ item ∈ items, item.member.length ≤ ZSetStore.maxMemberBytes) :
    tally.Storable options items := by
  induction items generalizing tally with
  | nil => trivial
  | cons item rest ih =>
    rcases List.forall_mem_cons.mp hshort with ⟨hitem, hrest⟩
    have hgrown := tally.ncard_members_apply_le options item
    rw [List.length_cons] at hcount
    exact ⟨fun _ ↦ ⟨by omega, hitem⟩, ih (by omega) hrest⟩

end Tally

namespace ZSetStore

/-! ## `Store::zadd` -/

variable (s : ZSetStore σ)

/-- `find_zset`. -/
def findZset (key : Bytes) : Option ℕ :=
  (s.store.keyspace.findId key).filter fun id ↦ (s.zsetAt id).isSome

/-- A full sorted set. -/
def isFullAt (id : ℕ) (isEmpty : Bool) : Bool :=
  match s.zsetAt id with
  | some (.full state) => (ZSet.full state).empty == isEmpty
  | _ => false

/-- `find_member_layer_template`: the first full sorted set with members. -/
def findMemberLayerTemplate : Option ℕ :=
  (List.range s.store.keyspace.entries.length).find? fun id ↦ s.isFullAt id false

/-- `adopt_shared_member_layer_from`: refer to the same member layer, and copy the score index. -/
def adoptSharedMemberLayerFrom (id source : ℕ) (s : ZSetStore σ) : ZSetStore σ :=
  match s.zsetAt source with
  | some (.full state) => s.replace id (.full state) s.layers
  | _ => s

/-- The template has the first item of the batch. -/
def hasFirst (source : ℕ) : List (ZAddItem σ) → Bool
  | [] => false
  | item :: _ => (s.scoreAt source item.member).any fun score ↦ Score.eq score item.score

/-- The sorted set of a new key; without a small form it has a member layer from the start. -/
def freshZset (maxEntries layer : ℕ) : ZSet σ :=
  if maxEntries = 0 then .full ⟨layer, ∅⟩ else .small CompactListpack.fresh

def createZset (maxEntries : ℕ) (key : Bytes) : StoreComp (ZSetStore σ) ℕ := do
  let s ← get
  when (maxEntries = 0) ensureMemoryGrowth
  let id ← zoom ZSetStore.store (fun s store ↦ { s with store := store })
    (Store.onKeyspace
      (Keyspace.createKey key (.aggregate (.zset (freshZset maxEntries s.layers.length)))))
  when (maxEntries = 0) (modify fun s ↦ { s with layers := s.layers ++ [∅] })
  pure id

def getOrCreateZset (maxEntries : ℕ) (key : Bytes) : StoreComp (ZSetStore σ) ℕ := do
  let s ← get
  match s.store.keyspace.findId key with
  | some id =>
    if (s.zsetAt id).isSome then pure id
    else throw (.logicError "get_or_create_zset on a key that is not a zset")
  | none => createZset maxEntries key

/-- A plain ZADD to a full sorted set without members takes over the template's member layer. -/
def adoptTemplate (options : ZAddOptions) (id : ℕ) (items : List (ZAddItem σ)) :
    StoreComp (ZSetStore σ) Unit := do
  let s ← get
  match s.findMemberLayerTemplate with
  | some source =>
    when
      (options = {} ∧ s.isFullAt id true = true ∧ source ≠ id ∧ s.hasFirst source items = true)
      (do
        ensureMemoryGrowth
        modify (adoptSharedMemberLayerFrom id source))
  | none => pure ()

/-- The loop over the items. -/
def addItems (maxEntries : ℕ) (options : ZAddOptions) (id : ℕ) :
    List (ZAddItem σ) → ZAddResult σ → StoreComp (ZSetStore σ) (ZAddResult σ)
  | [], result => pure result
  | item :: rest, result => do
    let mutation ← add maxEntries options id item.score item.member
    match mutation.status with
    | .invalidScore => pure { result with invalidScore := true }
    | .skipped => addItems maxEntries options id rest result
    | .applied =>
      addItems maxEntries options id rest
        { result with
          added := result.added + mutation.added.toNat
          changed := result.changed + mutation.changed.toNat
          incrementScore := if options.increment then mutation.score else result.incrementScore }

/-- `rollback_empty_created_key`. -/
def rollbackEmptyCreatedKey : ZSetStore σ :=
  { s with store := { s.store with keyspace := s.store.keyspace.rollbackCreatedKey } }

/-- The part of `zadd` after the checks: `id` is the sorted set of the key. -/
def zaddAt (maxEntries : ℕ) (options : ZAddOptions) (key : Bytes) (items : List (ZAddItem σ))
    (created : Bool) (id : ℕ) : StoreComp (ZSetStore σ) (ZAddResult σ) := do
  adoptTemplate options id items
  let result ← tryCatch (addItems maxEntries options id items {}) fun thrown ↦ do
    let s ← get
    when (created = true ∧ (s.zsetAt id).any ZSet.empty = true) (modify rollbackEmptyCreatedKey)
    throw thrown
  when (result.invalidScore = false ∧ result.changed ≠ 0)
    (modify fun s ↦
      { s with store := { s.store with signalled := s.store.signalled ++ [key] } })
  pure result

def zadd (maxEntries : ℕ) (options : ZAddOptions) (key : Bytes) (items : List (ZAddItem σ)) :
    StoreComp (ZSetStore σ) (ZAddResult σ) := do
  let s ← get
  if items.isEmpty then
    pure {}
  else if items.any fun item ↦ Score.isNan item.score then
    pure { invalidScore := true }
  else
    match s.findZset key with
    | some id => zaddAt maxEntries options key items false id
    | none =>
      if options.xx then
        pure {}
      else
        let id ← getOrCreateZset maxEntries key
        zaddAt maxEntries options key items true id

/-! ## What a client reads -/

/-- The map of a key as lookups read it; a key without a sorted set has no members. -/
def zscores (key : Bytes) : ZMap σ :=
  ((s.store.keyspace.findId key).bind s.mapAt).getD fun _ ↦ none

/-- The map of a key as it is listed. -/
def zlisting (key : Bytes) : ZMap σ :=
  ((s.store.keyspace.findId key).bind s.listingAt).getD fun _ ↦ none

/-- The items were folded into the map of the key, the counts are those of the fold, and every
other key has the map it had. -/
structure Meets (options : ZAddOptions) (key : Bytes) (items : List (ZAddItem σ)) (s : ZSetStore σ)
    (outcome : Outcome Thrown (ZSetStore σ) (ZAddResult σ)) : Prop where
  returns : ∃ result, outcome.result = .ok result ∧
    result.added = (Tally.fold options { map := s.zscores key } items).added ∧
    result.changed = (Tally.fold options { map := s.zscores key } items).changed
  scores : outcome.state.zscores key = (Tally.fold options { map := s.zscores key } items).map
  listing : outcome.state.zlisting key = (Tally.fold options { map := s.zscores key } items).map
  others : ∀ other, other ≠ key → outcome.state.zscores other = s.zscores other ∧
    outcome.state.zlisting other = s.zlisting other

/-! ## The loop -/

section Loop

variable {options : ZAddOptions} {tally : Tally σ} {item : ZAddItem σ}

theorem wanted_eq (options : ZAddOptions) (tally : Tally σ) (item : ZAddItem σ) :
    tally.wanted options item =
    Scores.target options (tally.map item.member) item.score := by
  unfold Tally.wanted Scores.target
  cases tally.map item.member with
  | none => rfl
  | some old => rfl

theorem permits_eq : tally.permits options item =
    !Scores.skips options (tally.map item.member) item.score := by
  have hwanted := wanted_eq options tally item
  unfold Tally.permits Scores.skips
  cases hold : tally.map item.member with
  | none => rfl
  | some old =>
    rw [hold] at hwanted
    simp only [hwanted, Bool.not_or]

/-- One item of the fold, by the outcome of `ZSet::add` on it. -/
theorem apply_eq (hrun : tally.stopped = false) (hnum : Score.isNan item.score = false) :
    tally.apply options item =
      let mutation := Scores.decide options (tally.map item.member) item.score
      match mutation.status with
      | .invalidScore => { tally with stopped := true }
      | .skipped => tally
      | .applied =>
        { tally with
          map := if mutation.changed then
              Function.update tally.map item.member
                (some (Scores.target options (tally.map item.member) item.score))
            else tally.map
          added := tally.added + mutation.added.toNat
          changed := tally.changed + mutation.changed.toNat } := by
  unfold Tally.apply Tally.set Scores.decide
  rw [wanted_eq, permits_eq]
  cases hnan : Score.isNan (Scores.target options (tally.map item.member) item.score) with
  | true => simp [hrun, hnum]
  | false =>
    cases hskips : Scores.skips options (tally.map item.member) item.score with
    | true => simp [hrun, hnum]
    | false =>
      cases hold : tally.map item.member with
      | none => simp [hrun, hnum]
      | some old =>
        cases heq : Score.eq (Scores.target options (some old) item.score) old with
        | true =>
          have hsame : tally = { tally with stopped := false } := Tally.ext rfl rfl rfl hrun
          simpa [hrun, hnum, heq] using hsame
        | false => simp [hrun, hnum, heq]

theorem status_of_changed {old : Option σ} {score : σ}
    (h : (Scores.decide options old score).changed = true) :
    (Scores.decide options old score).status = .applied := by
  unfold Scores.decide at h ⊢
  split at h
  · simp at h
  split at h
  · simp at h
  · split at h
    · simp at h
    · simp_all

/-- The map after one item, by what `ZSet::add` decides on it. -/
theorem map_apply (hrun : tally.stopped = false) (hnum : Score.isNan item.score = false) :
    (tally.apply options item).map =
      if (Scores.decide options (tally.map item.member) item.score).changed then
        Function.update tally.map item.member
          (some (Scores.target options (tally.map item.member) item.score))
      else tally.map := by
  rw [apply_eq hrun hnum]
  cases hchg : (Scores.decide options (tally.map item.member) item.score).changed with
  | true => simp [status_of_changed hchg, hchg]
  | false =>
    cases hstatus : (Scores.decide options (tally.map item.member) item.score).status with
    | invalidScore => simp [hstatus]
    | skipped => simp [hstatus]
    | applied => simp [hstatus, hchg]

theorem creates_iff (hrun : tally.stopped = false) (hnum : Score.isNan item.score = false) :
    tally.Creates options item ↔ tally.map item.member = none ∧
      (Scores.decide options (tally.map item.member) item.score).changed = true := by
  unfold Tally.Creates Scores.decide
  rw [wanted_eq, permits_eq]
  cases hold : tally.map item.member with
  | some old => simp
  | none =>
    cases hnan : Score.isNan (Scores.target options none item.score) with
    | true => simp [hnum]
    | false =>
      cases hskips : Scores.skips options none item.score with
      | true => simp [hnum]
      | false => simp [hrun, hnum]

variable {s : ZSetStore σ} {id : ℕ} (maxEntries : ℕ)

section

variable (h : s.Valid) (hmap : s.mapAt id = some tally.map) (hrun : tally.stopped = false)
  (hnum : Score.isNan item.score = false)
include h hmap hrun hnum

/-- `ZSet::add` on one item: its run, and the map it leaves. -/
theorem add_granted (hfits : tally.Creates options item → Admits tally.map item.member) :
    ∃ s', add maxEntries options id item.score item.member s [] =
        ⟨.ok (Scores.decide options (tally.map item.member) item.score), s', []⟩ ∧
      s.Step id (tally.apply options item).map s' := by
  have hold : s.scoreAt id item.member = tally.map item.member := by simp [scoreAt, hmap]
  rw [creates_iff hrun hnum] at hfits
  rw [map_apply hrun hnum, add, get_bind, hold]
  cases hchg : (Scores.decide options (tally.map item.member) item.score).changed with
  | true =>
    rcases storeScore_granted maxEntries h hmap
      (fun hnew ↦ hfits ⟨hnew, hchg⟩) with ⟨s', hstore, hstep⟩
    refine ⟨s', ?_, hstep⟩
    rw [when_pos rfl, bind_ok hstore]
    rfl
  | false =>
    refine ⟨s, ?_, Step.refl h hmap⟩
    rw [when_neg (by simp), pure_bind, pure_apply]

theorem add_refuses (hcreates : tally.Creates options item)
    (hadmits : ¬Admits tally.map item.member) :
    ∃ thrown s', add maxEntries options id item.score item.member s [] =
      ⟨.error thrown, s', []⟩ := by
  have hold : s.scoreAt id item.member = tally.map item.member := by simp [scoreAt, hmap]
  rcases (creates_iff hrun hnum).mp hcreates with ⟨hnew, hchg⟩
  rcases storeScore_refuses maxEntries h hmap hnew hadmits with ⟨thrown, s', hstore⟩
  refine ⟨thrown, s', ?_⟩
  rw [add, get_bind, hold, when_pos hchg, bind_error hstore]

end

/-- A result counts what a tally counts. -/
def Counts (result : ZAddResult σ) (tally : Tally σ) : Prop :=
  result.added = tally.added ∧ result.changed = tally.changed

/-- Once stopped, nothing changes any more. -/
theorem fold_stopped (options : ZAddOptions) (hstopped : tally.stopped = true)
    (items : List (ZAddItem σ)) :
    tally.fold options items = tally ∧ tally.Storable options items := by
  induction items with
  | nil => exact ⟨rfl, trivial⟩
  | cons item rest ih =>
    have happly : tally.apply options item = tally := by simp [Tally.apply, hstopped]
    refine ⟨?_, ?_, ?_⟩
    · rw [Tally.fold, List.foldl_cons, happly]
      exact ih.1
    · intro hcreates
      simp [hcreates.1] at hstopped
    · rw [happly]
      exact ih.2

/-- The loop on the items left folds them into the map that it started from, unless it meets a
member that cannot be stored. -/
def LoopFolds (options : ZAddOptions) (id : ℕ) (items : List (ZAddItem σ)) (result : ZAddResult σ)
    (tally : Tally σ) (s s₁ : ZSetStore σ) : Prop :=
  (tally.Storable options items ∧ ∃ result' s',
    addItems maxEntries options id items result s₁ [] = ⟨.ok result', s', []⟩ ∧
      Counts result' (tally.fold options items) ∧ s.Step id (tally.fold options items).map s') ∨
  (¬tally.Storable options items ∧ ∃ thrown s',
    addItems maxEntries options id items result s₁ [] = ⟨.error thrown, s', []⟩)

theorem addItems_granted {items : List (ZAddItem σ)} {result : ZAddResult σ} (h : s.Valid)
    (hmap : s.mapAt id = some tally.map) (hrun : tally.stopped = false)
    (hcnts : Counts result tally) (hnums : ∀ item ∈ items, Score.isNan item.score = false) :
    LoopFolds maxEntries options id items result tally s s := by
  induction items generalizing s tally result with
  | nil => exact .inl ⟨trivial, result, s, rfl, hcnts, Step.refl h hmap⟩
  | cons item rest ih =>
    rcases List.forall_mem_cons.mp hnums with ⟨hnum, hrest⟩
    by_cases hfits : tally.Creates options item → Admits tally.map item.member
    · rcases add_granted maxEntries h hmap hrun hnum hfits with ⟨s₁, hadd, hstep⟩
      have hfold : tally.fold options (item :: rest) =
          (tally.apply options item).fold options rest := rfl
      have hstorable : tally.Storable options (item :: rest) ↔
          (tally.apply options item).Storable options rest := and_iff_right hfits
      rw [LoopFolds, hfold, hstorable, addItems, bind_ok hadd]
      have hcontinue {tally' : Tally σ} {result₁ : ZAddResult σ} (hrun' : tally'.stopped = false)
          (hcnts' : Counts result₁ tally') (hstep' : s.Step id tally'.map s₁) :
          LoopFolds maxEntries options id rest result₁ tally' s s₁ := by
        rcases ih hstep'.valid hstep'.at_id hrun' hcnts' hrest with
          ⟨hfine, result', s', hloop, hlastCounts, hlast⟩ | hbad
        · exact .inl ⟨hfine, result', s', hloop, hlastCounts, hstep'.trans hlast⟩
        · exact .inr hbad
      rw [apply_eq hrun hnum] at hstep ⊢
      dsimp only at hstep ⊢
      cases hstatus : (Scores.decide options (tally.map item.member) item.score).status with
      | invalidScore =>
        rw [hstatus] at hstep
        have hstopped := fold_stopped options
          (rfl : ({ tally with stopped := true } : Tally σ).stopped = true) rest
        refine .inl ⟨hstopped.2, _, s₁, rfl, ?_, ?_⟩
        · rw [hstopped.1]
          exact hcnts
        · rw [hstopped.1]
          exact hstep
      | skipped =>
        rw [hstatus] at hstep
        exact hcontinue hrun hcnts hstep
      | applied =>
        rw [hstatus] at hstep
        exact hcontinue (by exact hrun)
          ⟨congrArg (· + _) hcnts.1, congrArg (· + _) hcnts.2⟩ hstep
    · refine .inr ⟨fun hstorable ↦ hfits hstorable.1, ?_⟩
      rcases Classical.not_imp.mp hfits with ⟨hcreates, hadmits⟩
      rcases add_refuses maxEntries h hmap hrun hnum hcreates hadmits with ⟨thrown, s', hadd⟩
      exact ⟨thrown, s', bind_error hadd⟩

end Loop

end ZSetStore

end GoblinCore
