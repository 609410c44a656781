import GoblinCore.Tables.LinearHashPlacement
import Mathlib.Algebra.Order.BigOperators.Group.List

/-!
# A LinearHashIndex is a map from members to ids

The owner of an index keeps the bytes of its members elsewhere and may rewrite that storage between
calls, as long as the ids the index holds still stand for the same members.
-/

namespace GoblinCore.LinearHashIndex

open LinkedChains GroupProbe Function List Option Nat
open Bool hiding not_not not_or
open scoped List

variable {M I : Type}

/-! ## Calls -/

/-- The member storage, as far as an index reads it, and the index over it. -/
structure State (M I : Type) where
  view : I → M
  index : Index I := {}

/-- What an owner of an index does. -/
inductive Call (M I : Type) where
  | store (view : I → M)
  | findOrEmplace (member : M) (id : I) (maintain : Bool)
  | insert (member : M) (id : I)
  | insertPacked (member : M) (id : I)
  | eraseAtIndex (location : Location)
  | moveMemberId (oldId newId : I)
  | reserveForDensity (expectedSize : ℕ) (density : Density)
  | runMaintenanceSteps (steps : ℕ)
  | clear

/-- An arena that refuses nothing. -/
structure Arena.Ample (arena : Arena) : Prop where
  bucket : ∀ used, (arena.allocateBucket used).isSome
  extent : ∀ used buckets, (arena.allocateExtent used buckets).isSome
  directoryBlock : ∀ blocks, arena.hasDirectoryBlock blocks = true
  directoryTable : arena.hasDirectoryTable = true

section Runs

variable [DecidableEq M] [DecidableEq I] (config : Config M)

/-- A call over an arena: the state it leaves, and whether it returns.  A member that is missing is
stored under the id `make_meta` returns. -/
def step (arena : Arena) (state : State M I) : Call M I → State M I × Bool
  | .store view => ({ state with view := view }, true)
  | .findOrEmplace member id maintain =>
    let reply := findOrEmplace config arena state.index state.view member id maintain
    let view := match reply.2 with
      | .ok true => update state.view id member
      | _ => state.view
    (⟨view, reply.1⟩, reply.2.isOk)
  | .insert member id =>
    let reply := insert config arena state.index state.view member id
    ({ state with index := reply.1 }, reply.2.isOk)
  | .insertPacked member id =>
    let reply := insertPacked config arena state.index member id
    ({ state with index := reply.1 }, reply.2.isOk)
  | .eraseAtIndex location =>
    ({ state with index := (eraseAtIndex arena state.index location).1 }, true)
  | .moveMemberId oldId newId =>
    ({ state with index := (moveMemberId config state.index state.view oldId newId).1 }, true)
  | .reserveForDensity expectedSize density =>
    let reply := reserveForDensity arena state.index expectedSize density
    ({ state with index := reply.1 }, reply.2.isOk)
  | .runMaintenanceSteps steps =>
    ({ state with index := runMaintenanceSteps arena state.index steps }, true)
  | .clear => ({ state with index := clear }, true)

/-- Every call finds an arena of its own, since other indexes share it. -/
def run (state : State M I) (calls : List (Arena × Call M I)) : State M I :=
  calls.foldl (fun state call ↦ (step config call.1 state call.2).1) state

/-- What a call that returns does to the map from members to ids. -/
def Call.apply (state : State M I) (map : M → Option I) : Call M I → M → Option I
  | .findOrEmplace member id _ | .insert member id =>
    if (map member).isSome then map else update map member (some id)
  | .insertPacked member id => update map member (some id)
  | .eraseAtIndex location =>
    match entryAt state.index.buckets location with
    | some entry => update map (state.view entry.id) none
    | none => map
  | .moveMemberId oldId newId =>
    if map (state.view oldId) = some oldId then
      update map (state.view oldId) (some newId)
    else map
  | .clear => fun _ ↦ none
  | .store _ | .reserveForDensity _ _ | .runMaintenanceSteps _ => map

/-- A call that throws leaves the map as it was. -/
def stepMap (arena : Arena) (state : State M I) (map : M → Option I) (call : Call M I) :
    M → Option I :=
  bif (step config arena state call).2 then call.apply state map else map

def runMap : State M I → (M → Option I) → List (Arena × Call M I) → M → Option I
  | _, map, [] => map
  | state, map, (arena, call) :: calls =>
    runMap (step config arena state call).1 (stepMap config arena state map call) calls

/-- What the callers have to see to.  Storage is rewritten without a change of what a held id stands
for; an id that is inserted is new, or stands for the member; `insert_packed` is for a member that
the index does not have; a slot is of a group of this index; an id moves to one that stands for the
same member; and a reservation is for at least as many buckets as an empty index has, and is refused
nothing. -/
def Permitted (arena : Arena) (state : State M I) : Call M I → Prop
  | .store view =>
    ∀ member id, find config state.index state.view member = some id → view id = member
  | .findOrEmplace member id _ => find config state.index state.view member = none →
    ∀ other, find config state.index state.view other ≠ some id
  | .insert member id =>
    find config state.index state.view member = none → state.view id = member
  | .insertPacked member id =>
    find config state.index state.view member = none ∧ state.view id = member
  | .eraseAtIndex location => (state.index.buckets.cell location.ref).isSome
  | .moveMemberId oldId newId =>
    find config state.index state.view (state.view oldId) = some oldId →
      state.view newId = state.view oldId
  | .reserveForDensity expectedSize density =>
    state.index.size = 0 → state.index.splitActive = false → state.index.mergeActive = false →
      expectedSize ≠ 0 → bucketsForDensity expectedSize density < noBucket →
        state.index.primaryCount ≤ bucketsForDensity expectedSize density ∧ arena.Ample
  | .runMaintenanceSteps _ | .clear => True

def PermittedRun : State M I → List (Arena × Call M I) → Prop
  | _, [] => True
  | state, (arena, call) :: calls =>
    Permitted config arena state call ∧ PermittedRun (step config arena state call).1 calls

/-- Lookups are the map, the size is that of the map, the number of primaries fits the level and the
split position exactly when there is one, and no two groups are in one arena cell. -/
structure Refines (state : State M I) (map : M → Option I) : Prop where
  find_eq : ∀ member, find config state.index state.view member = map member
  size_eq : state.index.size = {member | (map member).isSome}.ncard
  count_iff : state.index.primaryCount
      = state.index.levelSize + state.index.split + state.index.inFlight
    ↔ state.index.primaryCount ≠ 0
  cells_injOn : Set.InjOn state.index.cellOf {ref | (state.index.buckets.cell ref).isSome}

end Runs

/-! ## The index holds a map -/

/-- The ids of the entries. -/
def ids (index : Index I) (handles : ℕ → List Handle) : List I :=
  (allEntries index.buckets handles).map Entry.id

/-- The entries are placed, and are those of the map. -/
structure Represents (config : Config M) (view : I → M) (index : Index I)
    (handles : ℕ → List Handle) (map : M → Option I) : Prop where
  placed : Placed index handles
  laid : Laid index
  size_eq : index.size = (allEntries index.buckets handles).length
  hash_eq : ∀ entry ∈ allEntries index.buckets handles,
    entry.hash = config.hashMember (view entry.id)
  nodup : ((ids index handles).map view).Nodup
  holds : Holds view (ids index handles) map

section Represents

variable {config : Config M} {view : I → M} {index next : Index I}
  {handles grown : ℕ → List Handle} {map : M → Option I} {member : M} {id : I}
  {location : Location} {entry : Entry I}

theorem mem_ids :
    id ∈ ids index handles ↔ ∃ entry ∈ allEntries index.buckets handles, entry.id = id :=
  mem_map

/-- Entries for the members of a map. -/
structure Entries (config : Config M) (view : I → M) (entries : List (Entry I))
    (map : M → Option I) : Prop where
  hash_eq : ∀ entry ∈ entries, entry.hash = config.hashMember (view entry.id)
  nodup : ((entries.map Entry.id).map view).Nodup
  holds : Holds view (entries.map Entry.id) map

namespace Entries

variable {entries others : List (Entry I)}

theorem represents (h : Entries config view (allEntries index.buckets handles) map)
    (hplaced : Placed index handles) (hlaid : Laid index)
    (hsize : index.size = (allEntries index.buckets handles).length) :
    Represents config view index handles map :=
  ⟨hplaced, hlaid, hsize, h.hash_eq, h.nodup, h.holds⟩

theorem perm (h : Entries config view entries map) (hperm : others ~ entries) :
    Entries config view others map :=
  ⟨fun entry hent ↦ h.hash_eq entry (hperm.subset hent),
    (((hperm.map _).map _).nodup_iff).mpr h.nodup, h.holds.perm (hperm.map _)⟩

theorem cons [DecidableEq M] (entry : Entry I) (h : Entries config view entries map)
    (habsent : map (view entry.id) = none)
    (hhash : entry.hash = config.hashMember (view entry.id)) :
    Entries config view (entry :: entries) (update map (view entry.id) (some entry.id)) := by
  refine ⟨forall_mem_cons.mpr ⟨hhash, h.hash_eq⟩, nodup_cons.mpr ⟨fun hmem ↦ ?_, h.nodup⟩,
    h.holds.cons habsent⟩
  obtain ⟨other, hoth, heq⟩ := mem_map.mp hmem
  exact h.holds.absent habsent other hoth heq

theorem of_cons [DecidableEq M] (h : Entries config view (entry :: entries) map) :
    Entries config view entries (update map (view entry.id) none) :=
  ⟨(forall_mem_cons.mp h.hash_eq).2, (nodup_cons.mp h.nodup).2, h.holds.of_cons h.nodup⟩

end Entries

section

variable (h : Represents config view index handles map)
include h

theorem Represents.entries : Entries config view (allEntries index.buckets handles) map :=
  ⟨h.hash_eq, h.nodup, h.holds⟩

theorem Represents.kept
    (hkept : Kept index handles next grown) : Represents config view next grown map := by
  refine (h.entries.perm hkept.perm).represents hkept.placed (hkept.laid h.laid) ?_
  rw [hkept.size_eq, h.size_eq, hkept.perm.length_eq]

/-- Storage that reads the same for the ids of the index. -/
theorem Represents.congr_view {stored : I → M}
    (hsame : ∀ id ∈ ids index handles, stored id = view id) :
    Represents config stored index handles map := by
  refine ⟨h.placed, h.laid, h.size_eq, fun entry hent ↦ ?_, ?_, h.holds.congr_key hsame⟩
  · rw [h.hash_eq entry hent, hsame entry.id (mem_map_of_mem hent)]
  · rw [map_congr_left hsame]
    exact h.nodup

end

/-- An entry is one of the index when its group is in a chain. -/
theorem mem_allEntries_of_entryAt {primary : ℕ} (hprim : primary < index.primaryCount)
    (href : location.ref ∈ refsOf handles primary)
    (hent : entryAt index.buckets location = some entry) :
    entry ∈ allEntries index.buckets handles :=
  mem_allEntries.mpr ⟨primary, hprim,
    mem_chainEntries.mpr ⟨location.ref, href, mem_entriesAt_of_entryAt hent⟩⟩

/-! ## Lookups -/

section Lookup

variable [DecidableEq M]

/-- What a lookup says about a member, and about room for it in its home chain. -/
structure Located (view : I → M) (index : Index I) (handles : ℕ → List Handle)
    (map : M → Option I) (member : M) (hash : UInt32)
    (result : Option Location × Option Location) : Prop where
  found : ∀ location, result.1 = some location →
    ∃ primary < index.primaryCount, location.ref ∈ refsOf handles primary ∧
      ∃ entry, entryAt index.buckets location = some entry ∧ view entry.id = member
  missing : result.1 = none → map member = none
  vacant : result.1 = none → ∀ location, result.2 = some location →
    location.ref ∈ refsOf handles (index.address hash) ∧ Vacant index.buckets location

/-- A chain that is searched under a condition. -/
theorem searched_if (view : I → M) (member : M) (primary : ℕ) (hash : UInt32) (condition : Bool)
    (h : Linked index.buckets handles) (hprim : condition = true → primary < index.primaryCount) :
    (∀ location, (if condition then (findInChain view index.buckets primary member hash).1
        else none) = some location →
      ∃ primary < index.primaryCount, location.ref ∈ refsOf handles primary ∧
        ∃ entry, entryAt index.buckets location = some entry ∧ view entry.id = member) ∧
    ((if condition then (findInChain view index.buckets primary member hash).1 else none) = none →
      condition = true → ∀ entry ∈ chainEntries index.buckets handles primary,
        entry.hash = hash → view entry.id ≠ member) := by
  cases condition with
  | false => exact ⟨fun _ hnone ↦ absurd hnone (by simp), fun _ hfalse ↦ absurd hfalse (by simp)⟩
  | true =>
    have hsearched : Searched view index.buckets member hash (refsOf handles primary) none
        (findInChain view index.buckets primary member hash) :=
      findInChain_searched h (hprim rfl)
    refine ⟨fun location hloc ↦ ?_, fun hnone _ entry hent hhash ↦ ?_⟩
    · obtain ⟨href, entry, hent, -, hview⟩ := hsearched.found location hloc
      exact ⟨primary, hprim rfl, href, entry, hent, hview⟩
    · obtain ⟨ref, href, hmem⟩ := mem_chainEntries.mp hent
      exact hsearched.missing hnone ref href entry hmem hhash

section

variable (h : Represents config view index handles map)
include h

theorem findLocationWithHash_located (member : M) :
    Located view index handles map member (config.hashMember member)
      (findLocationWithHash index view member (config.hashMember member)) := by
  unfold findLocationWithHash
  by_cases hzero : index.primaryCount = 0
  · rw [if_pos hzero]
    refine ⟨fun location hloc ↦ absurd hloc (by simp), fun _ ↦ ?_,
      fun _ location hloc ↦ absurd hloc (by simp)⟩
    rw [eq_none_iff_forall_ne_some]
    intro id hid
    obtain ⟨entry, hent, -⟩ := mem_ids.mp ((h.holds member id).mp hid).1
    obtain ⟨primary, hprim, -⟩ := mem_allEntries.mp hent
    exact absurd (hprim.trans_eq hzero) (not_lt_zero _)
  · rw [if_neg hzero]
    generalize hhash : config.hashMember member = hash
    have haddressing := h.placed.addressing
    have htgt := haddressing.address_lt hzero hash
    have hhome : Searched view index.buckets member hash (refsOf handles (index.address hash)) none
        (findInChain view index.buckets (index.address hash) member hash) :=
      findInChain_searched h.placed.linked htgt
    obtain ⟨hsplitFound, hsplitMissing⟩ := searched_if view member index.splitSource hash
      (index.splitActive && index.address hash = index.splitDestination)
      h.placed.linked fun hact ↦ by
        have hcnt := haddressing.count_of_active (.inl (and_eq_true_iff.mp hact).1)
        unfold Index.splitSource
        omega
    obtain ⟨hmergeFound, hmergeMissing⟩ := searched_if view member index.mergeSource hash
      (index.mergeActive && index.address hash = index.mergeDestination)
      h.placed.linked fun hact ↦ by
        have hmerge := (and_eq_true_iff.mp hact).1
        have hcnt := haddressing.count_of_active (.inr hmerge)
        have hsrc := (haddressing.merge_eq hmerge).1
        omega
    refine ⟨fun location hloc ↦ ?_, fun hnone ↦ ?_, fun hnone location hloc ↦ ?_⟩
    · rcases or_eq_some_iff.mp hloc with hfst | ⟨-, hmerging⟩
      · rcases or_eq_some_iff.mp hfst with hhere | ⟨-, hsplitting⟩
        · obtain ⟨href, entry, hent, -, hview⟩ := hhome.found location hhere
          exact ⟨_, htgt, href, entry, hent, hview⟩
        · exact hsplitFound location hsplitting
      · exact hmergeFound location hmerging
    · obtain ⟨⟨hhere, hsplitting⟩, hmerging⟩ :
          ((findInChain view index.buckets (index.address hash) member hash).1 = none ∧ _) ∧ _ := by
        simpa only [or_eq_none_iff] using hnone
      rw [eq_none_iff_forall_ne_some]
      intro id hid
      obtain ⟨hmem, hview⟩ := (h.holds member id).mp hid
      obtain ⟨entry, hent, rfl⟩ := mem_ids.mp hmem
      have hentryHash : entry.hash = hash := by rw [h.hash_eq entry hent, hview, hhash]
      obtain ⟨primary, hprim, hchain⟩ := mem_allEntries.mp hent
      have hplace := h.placed.home primary hprim entry hchain
      rw [hentryHash] at hplace
      rcases hplace with rfl | ⟨hact, rfl, haddr⟩ | ⟨hact, rfl, haddr⟩
      · obtain ⟨ref, href, hmem⟩ := mem_chainEntries.mp hchain
        exact hhome.missing hhere ref href entry hmem hentryHash hview
      · exact hsplitMissing hsplitting (by simp [hact, haddr]) entry hchain hentryHash hview
      · exact hmergeMissing hmerging (by simp [hact, haddr]) entry hchain hentryHash hview
    · have hhere := (or_eq_none_iff.mp (or_eq_none_iff.mp hnone).1).1
      exact (hhome.vacant hhere location hloc).resolve_left (by simp)

theorem Represents.findLocation_some
    (hfnd : findLocation config index view member = some location) :
    ∃ primary < index.primaryCount, location.ref ∈ refsOf handles primary ∧
      ∃ entry, entryAt index.buckets location = some entry ∧ view entry.id = member ∧
        map member = some entry.id := by
  obtain ⟨primary, hprim, href, entry, hent, hview⟩ :=
    (findLocationWithHash_located h member).found location hfnd
  refine ⟨primary, hprim, href, entry, hent, hview, (h.holds member entry.id).mpr ⟨?_, hview⟩⟩
  exact mem_map_of_mem (mem_allEntries_of_entryAt hprim href hent)

theorem Represents.find_eq (member : M) : find config index view member = map member := by
  unfold find
  cases hfind : findLocation config index view member with
  | none =>
    rw [(findLocationWithHash_located h member).missing hfind]
    rfl
  | some location =>
    obtain ⟨-, -, -, entry, hent, -, hmap⟩ := h.findLocation_some hfind
    rw [bind_some, hent, hmap]
    rfl

end

omit [DecidableEq M] in
/-- A group is known by its cell. -/
theorem Represents.cellOf_injOn (h : Represents config view index handles map) :
    Set.InjOn index.cellOf {ref | (index.buckets.cell ref).isSome} := by
  have hhead {primary : ℕ} (hcell : (index.buckets.cell (.head primary)).isSome) :
      primary < index.primaryCount := by
    obtain ⟨owner, howner, href⟩ := h.placed.linked.covered _ hcell
    rw [head_mem_refsOf.mp href]
    exact howner
  have happly {primary : ℕ} {handle : Handle} (hzero : primary ≠ 0)
      (hprim : primary < index.primaryCount)
      (hhandle : (index.buckets.cell (.node handle)).isSome) :
      index.directory.primaryHandle primary ≠ some handle := by
    obtain ⟨cell, hcell, heq⟩ := h.laid.fits.primaryHandle_mem hzero hprim
    rw [heq]
    rintro heq
    cases heq
    exact h.laid.apart handle (Chains.mem_handles.mpr hhandle) hcell
  have hsome {primary : ℕ} (hcell : (index.buckets.cell (.head (primary + 1))).isSome) :
      index.directory.primaryHandle (primary + 1) ≠ none := by
    obtain ⟨cell, -, heq⟩ := h.laid.fits.primaryHandle_mem (succ_ne_zero primary) (hhead hcell)
    simp [heq]
  rintro (first | first) hfirst (second | second) hsecond heq
  · cases first with
    | zero =>
      cases second with
      | zero => rfl
      | succ second => exact absurd heq.symm (hsome hsecond)
    | succ first =>
      cases second with
      | zero => exact absurd heq (hsome hfirst)
      | succ second =>
        exact congrArg Ref.head (h.laid.fits.primaryHandle_inj (succ_ne_zero first) (hhead hfirst)
          (succ_ne_zero second) (hhead hsecond) heq)
  · cases first with
    | zero => cases heq
    | succ first => exact absurd heq (happly (succ_ne_zero first) (hhead hfirst) hsecond)
  · cases second with
    | zero => cases heq
    | succ second => exact absurd heq.symm (happly (succ_ne_zero second) (hhead hsecond) hfirst)
  · exact congrArg Ref.node (Option.some.inj heq)

theorem Represents.refines {state : State M I}
    (h : Represents config state.view state.index handles map) : Refines config state map := by
  refine ⟨h.find_eq, ?_, ⟨fun heq hzero ↦ ?_, h.placed.addressing.count_eq⟩, h.cellOf_injOn⟩
  · rw [h.size_eq, h.holds.ncard_keys h.nodup]
    exact (length_map _).symm
  · have hlevel := h.placed.addressing.level_pos
    omega

end Lookup

/-! ## Operations -/

section Operations

section

variable (h : Represents config view index handles map)
include h

theorem Represents.id_mem : map member = some id ↔ id ∈ ids index handles ∧ view id = member :=
  h.holds member id

/-- An empty index with as many primaries as buckets are wanted is addressed anew. -/
theorem Represents.readdressed {buckets : Buckets I} {directory : PrimaryDirectory} {count : ℕ}
    (hemp : index.size = 0) (hidle : index.Idle) (hlinked : Linked buckets handles)
    (hlaid : Laid { index with buckets := buckets, directory := directory })
    (hheads : buckets.heads = count)
    (hall : allEntries buckets handles = allEntries index.buckets handles) (hcnt : count ≠ 0)
    (hroom : count < noBucket) :
    Represents config view { index with
      buckets := buckets
      directory := directory
      levelSize := 2 ^ count.log2
      split := count - 2 ^ count.log2 } handles map := by
  have hlow := log2_self_le hcnt
  have hhigh := lt_log2_self (n := count)
  have hnothing : allEntries buckets handles = [] := by
    rw [hall, ← length_eq_zero_iff, ← h.size_eq, hemp]
  have hentries := h.entries
  have hsize := h.size_eq
  rw [← hall] at hentries hsize
  refine hentries.represents ?_ ⟨hlaid.fits, hlaid.apart⟩ hsize
  refine ⟨hlinked, ⟨⟨count.log2, rfl⟩, by dsimp only; omega, by dsimp only; omega, ?_, fun _ ↦ ?_,
    fun _ ↦ hidle, fun _ ↦ hidle.2, fun hact ↦ absurd (hidle.2.symm.trans hact) (by simp)⟩,
    fun primary hprim entry hent ↦ ?_,
    fun hact ↦ absurd (hidle.1.symm.trans hact) (by simp),
    fun hact ↦ absurd (hidle.2.symm.trans hact) (by simp)⟩
  · exact hheads.trans_le hroom.le
  · unfold Index.inFlight Index.primaryCount
    rw [hidle.1, hidle.2, hheads]
    simp only [Bool.or_self, Bool.false_eq_true, if_false]
    omega
  · have hmem := mem_allEntries.mpr ⟨primary, hprim, hent⟩
    rw [hnothing] at hmem
    exact absurd hmem not_mem_nil

/-- The first insertion makes the first primary. -/
theorem ensurePrimary_represents :
    Represents config view (ensurePrimary index) handles map ∧
      (ensurePrimary index).primaryCount ≠ 0 := by
  unfold ensurePrimary
  split_ifs with hzero
  · have hnothing : allEntries index.buckets handles = [] := by
      refine eq_nil_iff_forall_not_mem.mpr fun entry hent ↦ ?_
      obtain ⟨primary, hprim, -⟩ := mem_allEntries.mp hent
      exact absurd (hprim.trans_eq hzero) (not_lt_zero _)
    have hemp : index.size = 0 := by rw [h.size_eq, hnothing, length_nil]
    have hcnt : (index.buckets.pushHead Group.empty).heads = 1 := congrArg (· + 1) hzero
    have hfits := h.laid.fits
    rw [hzero] at hfits
    have hlaid : Laid { index with buckets := index.buckets.pushHead Group.empty } := by
      refine ⟨?_, h.laid.apart.subset Chains.handles_pushHead_subset⟩
      unfold Index.primaryCount
      rw [hcnt]
      exact hfits.one
    exact ⟨h.readdressed hemp (h.placed.addressing.idle_of_zero hzero)
      (h.placed.linked.pushHead _) hlaid hcnt (allEntries_pushHead h.placed.linked) one_ne_zero
      (by decide), succ_ne_zero _⟩
  · exact ⟨h, hzero⟩

end

variable [DecidableEq M] (arena : Arena)

section

variable (h : Represents config view index handles map)
include h

/-- An absent member is put in a vacant slot of its home chain. -/
theorem Represents.inserted {result : Buckets I} {place : Ref Handle}
    (hins : Inserted index.buckets handles (index.address (config.hashMember member)) (Entry.mk
      (config.hashMember member) id) result grown place)
    (hapart : Apart index.directory.cells result) (habsent : map member = none)
    (hview : view id = member) :
    Represents config view { index with buckets := result, size := index.size + 1 } grown
      (update map member (some id)) := by
  subst member
  refine ((h.entries.cons ⟨_, id⟩ habsent rfl).perm hins.perm).represents
    (Placed.inserted ⟨_, id⟩ h.placed hins _) (h.laid.of_buckets hins.heads_eq rfl hapart) ?_
  rw [hins.perm.length_eq, length_cons, h.size_eq]

/-- A member that is refused a slot is not inserted, and nothing else changes. -/
theorem insertKnownAbsent_represents (habsent : map member = none) (hview : view id = member) :
    ∃ grown, Represents config view
      (insertKnownAbsent arena index (config.hashMember member) id).1 grown
      (bif (insertKnownAbsent arena index (config.hashMember member) id).2.isOk then
        update map member (some id) else map) := by
  obtain ⟨hensured, hcnt⟩ := ensurePrimary_represents h
  unfold insertKnownAbsent
  dsimp only
  cases hresult : insertIntoChain arena (ensurePrimary index).directory.cells
      (ensurePrimary index).buckets ((ensurePrimary index).address (config.hashMember member))
      (config.hashMember member) id with
  | none => exact ⟨handles, hensured⟩
  | some result =>
    obtain ⟨between, place, hins⟩ := insertIntoChain_inserted hensured.placed.linked
      (hensured.placed.addressing.address_lt hcnt (config.hashMember member)) hresult
    have hplaced := hensured.inserted hins (hensured.laid.apart.insertIntoChain hresult) habsent
      hview
    obtain ⟨grown, hkept⟩ := maintenanceStep_kept arena hplaced.placed
    exact ⟨grown, hplaced.kept hkept⟩

theorem insert_represents (hview : map member = none → view id = member) :
    ∃ grown, Represents config view (insert config arena index view member id).1 grown
      (bif (insert config arena index view member id).2.isOk then
        if (map member).isSome then map else update map member (some id)
      else map) := by
  unfold insert
  cases hfind : findLocation config index view member with
  | some location =>
    obtain ⟨-, -, -, entry, -, -, hmap⟩ := h.findLocation_some hfind
    simp only [hmap, Option.isSome_some, if_true]
    exact ⟨handles, h⟩
  | none =>
    have habsent := (findLocationWithHash_located h member).missing hfind
    obtain ⟨grown, hinserted⟩ := insertKnownAbsent_represents arena h habsent (hview habsent)
    refine ⟨grown, ?_⟩
    dsimp only
    cases hreply : (insertKnownAbsent arena index (config.hashMember member) id).2 with
    | error thrown =>
      rw [hreply] at hinserted
      exact hinserted
    | ok _ =>
      rw [hreply] at hinserted
      rw [habsent]
      exact hinserted

/-- The first empty slot that a lookup has seen on the home chain is ready to be filled. -/
theorem emplaceLocation_prepared {prepared : Buckets I × Location}
    (habsent : (findLocationWithHash index view member (config.hashMember member)).1 = none)
    (hprepared : emplaceLocation arena (ensurePrimary index) (config.hashMember member)
      (findLocationWithHash index view member (config.hashMember member)).2 = some prepared) :
    Apart (ensurePrimary index).directory.cells prepared.1 ∧
      ∃ grown, Prepared (ensurePrimary index).buckets handles
        ((ensurePrimary index).address (config.hashMember member)) prepared grown := by
  obtain ⟨hensured, hcnt⟩ := ensurePrimary_represents h
  cases hemp : (findLocationWithHash index view member (config.hashMember member)).2 with
  | none =>
    rw [hemp] at hprepared
    exact ⟨hensured.laid.apart.prepared hprepared,
      prepareInsertLocation_prepared hensured.placed.linked
        (hensured.placed.addressing.address_lt hcnt _) hprepared⟩
  | some location =>
    rw [hemp] at hprepared
    cases hprepared
    have hsame : ensurePrimary index = index := by
      refine if_neg fun hzero ↦ ?_
      unfold findLocationWithHash at hemp
      rw [if_pos hzero] at hemp
      cases hemp
    obtain ⟨href, hvacant⟩ := (findLocationWithHash_located h member).vacant habsent location hemp
    rw [hsame]
    exact ⟨h.laid.apart, handles, prepared_of_vacant h.placed.linked href hvacant⟩

theorem emplace_represents
    (habsent : (findLocationWithHash index view member (config.hashMember member)).1 = none)
    {stored : I → M} (hstored : ∀ other ∈ ids index handles, stored other = view other)
    (hview : stored id = member)
    (hnext : emplace arena (ensurePrimary index) (config.hashMember member) id
      (findLocationWithHash index view member (config.hashMember member)).2 = some next) :
    ∃ grown, Represents config stored next grown (update map member (some id)) := by
  obtain ⟨hensured, hcnt⟩ := ensurePrimary_represents (h.congr_view hstored)
  obtain ⟨prepared, hprepared, rfl⟩ := map_eq_some_iff.mp hnext
  obtain ⟨hapart, grown, hlocation⟩ := emplaceLocation_prepared arena h habsent hprepared
  exact ⟨grown, hensured.inserted (commitInsert_inserted hlocation
    (hensured.placed.addressing.address_lt hcnt _))
    (hapart.subset Chains.handles_modify_subset)
    ((findLocationWithHash_located h member).missing habsent) hview⟩

end

section

variable (h : Represents config view index handles map)
include h

/-- The state after a call of `find_or_emplace`. -/
theorem findOrEmplace_represents [DecidableEq I] {maintain : Bool}
    (hnew : map member = none → id ∉ ids index handles) :
    ∃ grown, Represents config
      (match (findOrEmplace config arena index view member id maintain).2 with
        | .ok true => update view id member
        | _ => view)
      (findOrEmplace config arena index view member id maintain).1 grown
      (bif (findOrEmplace config arena index view member id maintain).2.isOk then
        if (map member).isSome then map else update map member (some id)
      else map) := by
  cases hfind : (findLocationWithHash index view member (config.hashMember member)).1 with
  | some location =>
    obtain ⟨-, -, -, entry, -, -, hmap⟩ := h.findLocation_some hfind
    simp only [findOrEmplace, hfind, hmap]
    exact ⟨handles, h⟩
  | none =>
    have habsent := (findLocationWithHash_located h member).missing hfind
    have hkeeps : ∀ other ∈ ids index handles, update view id member other = view other := by
      intro other hoth
      refine update_of_ne ?_ member view
      rintro rfl
      exact hnew habsent hoth
    simp only [findOrEmplace, hfind]
    cases hemplace : emplace arena (ensurePrimary index) (config.hashMember member) id
        (findLocationWithHash index view member (config.hashMember member)).2 with
    | none => exact ⟨handles, (ensurePrimary_represents h).1⟩
    | some inserted =>
      obtain ⟨between, hins⟩ :=
        emplace_represents arena h hfind hkeeps (update_self id member view) hemplace
      simp only [habsent, isSome_none, false_eq_true, if_false]
      split_ifs
      · obtain ⟨grown, hkept⟩ := maintenanceStep_kept arena hins.placed
        exact ⟨grown, hins.kept hkept⟩
      · exact ⟨between, hins⟩

variable {primary : ℕ}

/-- An entry is taken out of its slot. -/
theorem Represents.cleared
    (hprim : primary < index.primaryCount) (href : location.ref ∈ refsOf handles primary)
    (hent : entryAt index.buckets location = some entry) :
    Represents config view
      { index with buckets := clearSlot index.buckets location, size := index.size - 1 } handles
      (update map (view entry.id) none) := by
  have hperm := allEntries_clearSlot h.placed.linked hprim href hent
  have hsubset : ∀ ref, entriesAt (clearSlot index.buckets location) ref
      ⊆ entriesAt index.buckets ref := by
    intro ref other hoth
    obtain ⟨slot, hslot⟩ := mem_entriesAt.mp hoth
    exact mem_entriesAt.mpr ⟨slot, (entryAt_clearSlot hslot).1⟩
  refine (h.entries.perm hperm).of_cons.represents (h.placed.of_hashes
    (h.placed.linked.modifyValue _) Chains.heads_modifyValue
    fun ref other hoth ↦ ⟨other, hsubset ref hoth, rfl⟩)
    (h.laid.of_buckets Chains.heads_modifyValue rfl
      (h.laid.apart.subset Chains.handles_modify_subset)) ?_
  have hlen := hperm.length_eq
  rw [length_cons, ← h.size_eq] at hlen
  dsimp only
  omega

omit [DecidableEq M] in
theorem Represents.unlinked {victim : Handle} (hvictim : victim ∈ handles primary)
    (hemp : entriesAt index.buckets (.node victim) = [])
    (hsplitCursor : index.splitCursor ≠ some victim)
    (hmergeCursor : index.mergeCursor ≠ some victim) :
    Represents config view { index with buckets := unlinkEmptyOverflow index.buckets victim }
      (fun owner ↦ (handles owner).erase victim) map := by
  rw [unlinkEmptyOverflow_eq h.placed.linked hvictim hemp]
  refine h.kept ⟨h.placed.unlinked hvictim hemp hsplitCursor hmergeCursor, fun hlaid ↦
    ?_, ?_, rfl, ?_⟩
  · exact hlaid.of_buckets Chains.heads_unlink rfl
      (hlaid.apart.subset Chains.handles_unlink_subset)
  · exact List.Perm.of_eq (allEntries_unlink h.placed.linked hvictim hemp)
  · exact Eq.congr_left Chains.heads_unlink

omit [DecidableEq M] in
theorem unlinkIfEmptied_represents {ref : Ref Handle} (href : ref ∈ refsOf handles primary) :
    ∃ grown, Represents config view (unlinkIfEmptied index ref) grown map := by
  cases ref with
  | head owner => exact ⟨handles, h⟩
  | node handle =>
    unfold unlinkIfEmptied
    dsimp only
    split_ifs with hcase
    · simp only [and_eq_true, ne_eq, decide_eq_true_eq] at hcase
      obtain ⟨⟨hemp, hsplitCursor⟩, hmergeCursor⟩ := hcase
      have hhandle := node_mem_refsOf.mp href
      obtain ⟨cell, hcell⟩ := isSome_iff_exists.mp
        (h.placed.linked.cell_isSome (h.placed.linked.lt_heads hhandle) href)
      rw [isEmptyGroup_iff (congrArg (Option.map Cell.value) hcell)] at hemp
      exact ⟨_, h.unlinked hhandle hemp hsplitCursor hmergeCursor⟩
    · exact ⟨handles, h⟩

theorem eraseAtIndex_represents (hcell : (index.buckets.cell location.ref).isSome) :
    ∃ grown, Represents config view (eraseAtIndex arena index location).1 grown
      (match entryAt index.buckets location with
        | some entry => update map (view entry.id) none
        | none => map) := by
  unfold eraseAtIndex
  cases hent : entryAt index.buckets location with
  | none => exact ⟨handles, h⟩
  | some entry =>
    obtain ⟨primary, hprim, href⟩ := h.placed.linked.covered location.ref hcell
    obtain ⟨between, hunlinked⟩ :=
      unlinkIfEmptied_represents (h.cleared hprim href hent) href
    obtain ⟨grown, hkept⟩ := maintenanceStep_kept arena hunlinked.placed
    exact ⟨grown, hunlinked.kept hkept⟩

/-- The id of an entry is replaced by another one for the same member. -/
theorem Represents.replaced {newId : I} (hprim : primary < index.primaryCount)
    (href : location.ref ∈ refsOf handles primary)
    (hent : entryAt index.buckets location = some entry) (hview : view newId = view entry.id) :
    Represents config view
      { index with buckets := commitInsert index.buckets location entry.hash newId } handles
      (update map (view entry.id) (some newId)) := by
  obtain ⟨group, hgroup, hslot⟩ := exists_group_of_entryAt hent
  have hplace := entriesAt_setSlot hgroup (Group.lt_of_entryAt hslot)
    (some (Entry.mk entry.hash newId))
  rw [hent] at hplace
  have hoths : ∀ ref ≠ location.ref,
      entriesAt (commitInsert index.buckets location entry.hash newId) ref
        = entriesAt index.buckets ref := fun _ hne ↦ entriesAt_modifyValue_of_ne _ hne
  have hmem := mem_allEntries_of_entryAt hprim href hent
  obtain ⟨front, back, hsplit⟩ := append_of_mem hmem
  have hold : (allEntries index.buckets handles).Perm (entry :: (front ++ back)) := by
    rw [hsplit]
    exact perm_middle
  have hnew : (allEntries (commitInsert index.buckets location entry.hash newId) handles).Perm
      (⟨entry.hash, newId⟩ :: (front ++ back)) := by
    refine List.Perm.cons_inv (a := entry) ?_
    calc entry :: allEntries (commitInsert index.buckets location entry.hash newId) handles
        _ ~ ⟨entry.hash, newId⟩ :: allEntries index.buckets handles :=
          allEntries_perm [entry] [⟨entry.hash, newId⟩] h.placed.linked
            Chains.heads_modifyValue hprim href hoths hplace
        _ ~ ⟨entry.hash, newId⟩ :: entry :: (front ++ back) := hold.cons _
        _ ~ entry :: ⟨entry.hash, newId⟩ :: (front ++ back) := List.Perm.swap _ _ _
  have hplaced : Placed
      { index with buckets := commitInsert index.buckets location entry.hash newId } handles := by
    refine h.placed.of_hashes (h.placed.linked.modifyValue _) Chains.heads_modifyValue
      (fun ref other hoth ↦ ?_)
    by_cases heq : ref = location.ref
    · subst heq
      rcases mem_cons.mp (hplace.subset (mem_cons_of_mem _ hoth)) with rfl | hbef
      · exact ⟨entry, mem_entriesAt_of_entryAt hent, rfl⟩
      · exact ⟨other, hbef, rfl⟩
    · exact ⟨other, hoths ref heq ▸ hoth, rfl⟩
  have hentries := (h.entries.perm hold.symm).of_cons.cons ⟨entry.hash, newId⟩
    (by rw [hview, update_self]) (by rw [hview, h.hash_eq entry hmem])
  rw [hview, update_idem] at hentries
  refine (hentries.perm hnew).represents hplaced (h.laid.of_buckets Chains.heads_modifyValue rfl
    (h.laid.apart.subset Chains.handles_modify_subset)) ?_
  rw [hnew.length_eq, h.size_eq, hold.length_eq]
  rfl

end

variable [DecidableEq I]

/-- An id moves to another one that stands for the same member. -/
theorem moveMemberId_represents {oldId newId : I} (h : Represents config view index handles map)
    (hsame : map (view oldId) = some oldId → view newId = view oldId) :
    Represents config view (moveMemberId config index view oldId newId).1 handles
      (if map (view oldId) = some oldId then update map (view oldId) (some newId)
        else map) := by
  unfold moveMemberId
  cases hfind : findLocation config index view (view oldId) with
  | none =>
    have habsent := (findLocationWithHash_located h (view oldId)).missing hfind
    rw [if_neg (by rw [habsent]; simp)]
    exact h
  | some location =>
    obtain ⟨primary, hprim, href, entry, hent, hview, hmap⟩ := h.findLocation_some hfind
    dsimp only
    rw [hent]
    dsimp only
    by_cases hid : entry.id = oldId
    · subst hid
      rw [if_pos rfl, if_pos hmap]
      exact h.replaced hprim href hent (hsame hmap)
    · rw [if_neg hid, if_neg]
      · exact h
      · intro hold
        rw [hmap] at hold
        exact hid (Option.some.inj hold)

end Operations

/-! ## Reservations -/

section Reserve

variable {arena : Arena} {expectedSize : ℕ} {density : Density}

/-- The primaries that the loop has appended when it ends. -/
structure Appended (index : Index I) (handles : ℕ → List Handle) (count : ℕ) (next : Index I) :
    Prop where
  fields_eq : next = { index with buckets := next.buckets, directory := next.directory }
  linked : Linked next.buckets handles
  laid : Laid next
  count_eq : next.primaryCount = index.primaryCount + count
  entries_eq : allEntries next.buckets handles = allEntries index.buckets handles

theorem appendPrimary_appended (h : Linked index.buckets handles) (hlaid : Laid index)
    (hcnt : index.primaryCount ≠ 0) (happend : appendPrimary arena index = .ok next) :
    Appended index handles 1 next := by
  obtain ⟨-, directory, hdirectory, rfl⟩ := appendPrimary_ok happend
  exact ⟨rfl, h.pushHead _, hlaid.append hcnt hdirectory rfl rfl, rfl, allEntries_pushHead h⟩

/-- The loop appends all that are missing, or it ends with a refusal; it has appended none exactly
when the first one was refused. -/
theorem appendPrimaries_appended (missing : ℕ) (h : Linked index.buckets handles)
    (hlaid : Laid index) (hcnt : index.primaryCount ≠ 0) :
    ∃ count, Appended index handles count (appendPrimaries arena missing index).1 ∧
      ((appendPrimaries arena missing index).2.isOk = true → count = missing) ∧
      ((appendPrimaries arena missing index).2.isOk = false → missing ≠ 0 ∧
        (count = 0 ↔ ∃ thrown, appendPrimary arena index = .error thrown)) := by
  induction missing generalizing index with
  | zero => exact ⟨0, ⟨rfl, h, hlaid, rfl, rfl⟩, fun _ ↦ rfl, fun hthrows ↦ by cases hthrows⟩
  | succ missing ih =>
    unfold appendPrimaries
    cases happend : appendPrimary arena index with
    | error thrown =>
      refine ⟨0, ⟨rfl, h, hlaid, rfl, rfl⟩, fun hreturns ↦ ?_,
        fun _ ↦ ⟨succ_ne_zero _, iff_of_true rfl ⟨thrown, rfl⟩⟩⟩
      exact absurd hreturns (by simp [Except.isOk, Except.toBool])
    | ok appended =>
      have hfirst := appendPrimary_appended h hlaid hcnt happend
      obtain ⟨count, hrest, hall, hsome⟩ := ih hfirst.linked hfirst.laid
        (by rw [hfirst.count_eq]; exact succ_ne_zero _)
      refine ⟨count + 1, ⟨?_, hrest.linked, hrest.laid, ?_,
        hrest.entries_eq.trans hfirst.entries_eq⟩,
        fun hreturns ↦ congrArg (· + 1) (hall hreturns), fun _ ↦ ⟨succ_ne_zero _, ?_⟩⟩
      · rw [hrest.fields_eq, hfirst.fields_eq]
      · rw [hrest.count_eq, hfirst.count_eq]
        omega
      · exact iff_of_false (succ_ne_zero _) (by simp)

theorem appendPrimary_throws_iff (hroom : index.primaryCount < noBucket) :
    (∃ thrown, appendPrimary arena index = .error thrown) ↔
      index.directory.Refuses arena index.usedCells (index.primaryCount - 1) := by
  rw [← PrimaryDirectory.append_throws_iff]
  unfold appendPrimary
  rw [if_neg (Nat.not_le_of_lt hroom)]
  cases index.directory.append arena index.usedCells (index.primaryCount - 1) with
  | error thrown => simp [Except.map]
  | ok directory => simp [Except.map]

theorem Arena.Ample.not_refuses (h : arena.Ample) {directory : PrimaryDirectory}
    {used : List Handle} {offset : ℕ} : ¬directory.Refuses arena used offset := by
  rintro ⟨-, hextent | ⟨-, -, hblock | ⟨-, htable⟩⟩⟩
  · have hsome := h.extent used (extentBuckets (extentOf offset))
    rw [hextent] at hsome
    cases hsome
  · rw [h.directoryBlock] at hblock
    cases hblock
  · rw [h.directoryTable] at htable
    cases htable

theorem appendPrimaries_returns (h : arena.Ample) {missing : ℕ}
    (hroom : index.primaryCount + missing < noBucket) :
    (appendPrimaries arena missing index).2.isOk = true := by
  induction missing generalizing index with
  | zero => rfl
  | succ missing ih =>
    unfold appendPrimaries
    cases happend : appendPrimary arena index with
    | error thrown =>
      exact absurd ((appendPrimary_throws_iff (by omega)).mp ⟨thrown, happend⟩) h.not_refuses
    | ok appended =>
      obtain ⟨-, directory, -, rfl⟩ := appendPrimary_ok happend
      refine ih ?_
      change index.primaryCount + 1 + missing < noBucket
      omega

theorem one_le_bucketsForDensity (expectedSize : ℕ) (density : Density) :
    1 ≤ bucketsForDensity expectedSize density :=
  le_max_left _ _

/-- A reservation has no effect, or asks for too many buckets, or runs the loop on an empty idle
index. -/
theorem reserveForDensity_cases (arena : Arena) (index : Index I) (expectedSize : ℕ)
    (density : Density) :
    (reserveForDensity arena index expectedSize density = (index, .ok ())) ∨
    (noBucket ≤ bucketsForDensity expectedSize density ∧
      reserveForDensity arena index expectedSize density = (index, .error .primarySpace)) ∨
    (index.size = 0 ∧ index.Idle ∧ expectedSize ≠ 0 ∧
      bucketsForDensity expectedSize density < noBucket ∧
      reserveForDensity arena index expectedSize density =
        let buckets := bucketsForDensity expectedSize density
        let appended := appendPrimaries arena (buckets - (ensurePrimary index).primaryCount)
          (ensurePrimary index)
        match appended.2 with
        | .error thrown => (appended.1, .error thrown)
        | .ok () =>
          ({ appended.1 with
            levelSize := 2 ^ buckets.log2
            split := buckets - 2 ^ buckets.log2 }, .ok ())) := by
  unfold reserveForDensity
  dsimp only
  by_cases hskip : (decide (index.size ≠ 0) || index.splitActive || index.mergeActive ||
      decide (expectedSize = 0)) = true
  · exact .inl (if_pos hskip)
  rw [if_neg hskip]
  by_cases hlong : noBucket ≤ bucketsForDensity expectedSize density
  · exact .inr (.inl ⟨hlong, if_pos hlong⟩)
  rw [if_neg hlong]
  simp only [ne_eq, or_eq_true, decide_eq_true_eq, not_or, not_not, not_eq_true] at hskip
  obtain ⟨⟨⟨hemp, hsplit⟩, hmerge⟩, hexpected⟩ := hskip
  exact .inr (.inr ⟨hemp, ⟨hsplit, hmerge⟩, hexpected, Nat.lt_of_not_le hlong, rfl⟩)

theorem ensurePrimary_fields (hemp : index.size = 0) (hidle : index.Idle) {count : ℕ}
    (hone : 1 ≤ count) (hle : index.primaryCount ≤ count) :
    (ensurePrimary index).size = 0 ∧ (ensurePrimary index).Idle ∧
      (ensurePrimary index).primaryCount ≤ count := by
  unfold ensurePrimary
  split_ifs with hzero
  · exact ⟨hemp, hidle, (congrArg (· + 1) hzero).trans_le hone⟩
  · exact ⟨hemp, hidle, hle⟩

theorem reserveForDensity_represents (h : Represents config view index handles map)
    (hfits : index.size = 0 → index.splitActive = false → index.mergeActive = false →
      expectedSize ≠ 0 → bucketsForDensity expectedSize density < noBucket →
        index.primaryCount ≤ bucketsForDensity expectedSize density ∧ arena.Ample) :
    Represents config view (reserveForDensity arena index expectedSize density).1 handles map ∧
      ((reserveForDensity arena index expectedSize density).2.isOk = false →
        noBucket ≤ bucketsForDensity expectedSize density) := by
  rcases reserveForDensity_cases arena index expectedSize density with
    heq | ⟨hlong, heq⟩ | ⟨hemp, hidle, hexpected, hroom, heq⟩
  · rw [heq]
    exact ⟨h, fun hthrows ↦ by cases hthrows⟩
  · rw [heq]
    exact ⟨h, fun _ ↦ hlong⟩
  · obtain ⟨hcnt, hample⟩ := hfits hemp hidle.1 hidle.2 hexpected hroom
    have hone := one_le_bucketsForDensity expectedSize density
    obtain ⟨hensured, hsome⟩ := ensurePrimary_represents h
    obtain ⟨hsize, hidle, hle⟩ := ensurePrimary_fields hemp hidle hone hcnt
    have hreturns : (appendPrimaries arena (bucketsForDensity expectedSize density -
        (ensurePrimary index).primaryCount) (ensurePrimary index)).2.isOk = true :=
      appendPrimaries_returns hample (by omega)
    obtain ⟨count, happended, hall, -⟩ := appendPrimaries_appended _ hensured.placed.linked
      hensured.laid hsome
    have hcount := hall hreturns
    rw [heq]
    dsimp only
    generalize appendPrimaries arena (bucketsForDensity expectedSize density -
      (ensurePrimary index).primaryCount) (ensurePrimary index) = result at happended hreturns ⊢
    obtain ⟨next, reply⟩ := result
    cases reply with
    | error thrown => cases hreturns
    | ok _ =>
      have hnext := happended.fields_eq
      have hlaid := happended.laid
      rw [hnext] at hlaid
      have hheads : next.buckets.heads = bucketsForDensity expectedSize density := by
        have := happended.count_eq
        unfold Index.primaryCount at this hcount hle
        dsimp only at this
        omega
      have hready := hensured.readdressed hsize hidle happended.linked hlaid hheads
        happended.entries_eq (by omega) hroom
      refine ⟨?_, fun hthrows ↦ by cases hthrows⟩
      dsimp only at hnext ⊢
      rw [hnext]
      exact hready

theorem clear_represents : Represents config view clear (fun _ ↦ []) fun _ ↦ none := by
  have hlevel : 1 ≤ noBucket := by decide
  refine ⟨⟨Linked.empty, ⟨⟨0, rfl⟩, hlevel, one_pos, zero_le _,
    fun hzero ↦ absurd rfl hzero, fun _ ↦ ⟨rfl, rfl⟩,
    fun hact ↦ absurd hact false_ne_true,
    fun hact ↦ absurd hact false_ne_true⟩,
    fun primary hprim ↦ absurd hprim (not_lt_zero _),
    fun hact ↦ absurd hact false_ne_true,
    fun hact ↦ absurd hact false_ne_true⟩,
    ⟨PrimaryDirectory.fits_empty, fun handle hhandle ↦ absurd hhandle not_mem_nil⟩, rfl,
    fun entry hent ↦ absurd hent not_mem_nil, nodup_nil, fun wanted id ↦ ?_⟩
  exact iff_of_false (by simp) fun hmem ↦ absurd hmem.1 not_mem_nil

end Reserve

end Represents

/-! ## Runs -/

section Runs

variable [DecidableEq M] [DecidableEq I] {config : Config M} {map : M → Option I}

variable {state : State M I} {handles : ℕ → List Handle}

theorem step_represents {arena : Arena} {call : Call M I}
    (h : Represents config state.view state.index handles map)
    (hper : Permitted config arena state call) :
    ∃ grown, Represents config (step config arena state call).1.view
      (step config arena state call).1.index grown (stepMap config arena state map call) := by
  cases call with
  | store view =>
    refine ⟨handles, h.congr_view fun id hid ↦ hper (state.view id) id ?_⟩
    rw [h.find_eq]
    exact h.id_mem.mpr ⟨hid, rfl⟩
  | findOrEmplace member id maintain =>
    refine findOrEmplace_represents arena h fun habsent hid ↦ ?_
    refine hper ((h.find_eq member).trans habsent) (state.view id) ?_
    rw [h.find_eq]
    exact h.id_mem.mpr ⟨hid, rfl⟩
  | insert member id =>
    exact insert_represents arena h fun habsent ↦ hper ((h.find_eq member).trans habsent)
  | insertPacked member id =>
    exact insertKnownAbsent_represents arena h ((h.find_eq member).symm.trans hper.1) hper.2
  | eraseAtIndex location => exact eraseAtIndex_represents arena h hper
  | moveMemberId oldId newId =>
    exact ⟨handles, moveMemberId_represents h fun hold ↦ hper ((h.find_eq _).trans hold)⟩
  | reserveForDensity expectedSize density =>
    refine ⟨handles, ?_⟩
    have hsame : stepMap config arena state map (.reserveForDensity expectedSize density) = map :=
      Bool.cond_self _ _
    rw [hsame]
    exact (reserveForDensity_represents h hper).1
  | runMaintenanceSteps steps =>
    obtain ⟨grown, hkept⟩ := runMaintenanceSteps_kept h.placed
    exact ⟨grown, h.kept hkept⟩
  | clear => exact ⟨_, clear_represents⟩

theorem run_represents {calls : List (Arena × Call M I)}
    (h : Represents config state.view state.index handles map)
    (hper : PermittedRun config state calls) :
    ∃ grown, Represents config (run config state calls).view (run config state calls).index grown
      (runMap config state map calls) := by
  induction calls generalizing state handles map with
  | nil => exact ⟨handles, h⟩
  | cons call calls ih =>
    obtain ⟨between, hstep⟩ := step_represents h hper.1
    exact ih hstep hper.2

/-- Over an arena that refuses nothing only a reservation for too many buckets throws. -/
theorem step_returns {arena : Arena} {call : Call M I} (hample : arena.Ample)
    (h : Represents config state.view state.index handles map)
    (hper : Permitted config arena state call)
    (hthrows : (step config arena state call).2 = false) :
    ∃ expectedSize density, call = .reserveForDensity expectedSize density ∧
      noBucket ≤ bucketsForDensity expectedSize density := by
  obtain ⟨hensured, hcnt⟩ := ensurePrimary_represents h
  have hroom (member : M) : (prepareInsertLocation arena (ensurePrimary state.index).directory.cells
      (ensurePrimary state.index).buckets
      ((ensurePrimary state.index).address (config.hashMember member))).isSome :=
    prepareInsertLocation_isSome hample.bucket hensured.placed.linked
      (hensured.placed.addressing.address_lt hcnt _)
  have hinserts (member : M) (id : I) :
      (insertKnownAbsent arena state.index (config.hashMember member) id).2.isOk = true := by
    obtain ⟨prepared, hprepared⟩ := isSome_iff_exists.mp (hroom member)
    simp only [insertKnownAbsent, insertIntoChain, hprepared, Option.map_some]
    rfl
  cases call with
  | findOrEmplace member id maintain =>
    refine absurd hthrows (ne_false_of_eq_true ?_)
    have hlocation (emptyLocation : Option Location) :
        (emplaceLocation arena (ensurePrimary state.index) (config.hashMember member)
          emptyLocation).isSome := by
      cases emptyLocation with
      | none => exact hroom member
      | some location => rfl
    simp only [step, findOrEmplace]
    split
    · rfl
    · obtain ⟨prepared, hprepared⟩ := isSome_iff_exists.mp (hlocation (findLocationWithHash
        state.index state.view member (config.hashMember member)).2)
      simp only [emplace, hprepared, Option.map_some]
      rfl
  | insert member id =>
    refine absurd hthrows (ne_false_of_eq_true ?_)
    simp only [step, insert]
    split
    · rfl
    · have hreturns := hinserts member id
      cases hreply : (insertKnownAbsent arena state.index (config.hashMember member) id).2 with
      | error thrown =>
        rw [hreply] at hreturns
        cases hreturns
      | ok _ => rfl
  | insertPacked member id => exact absurd ((hinserts member id).symm.trans hthrows) (by simp)
  | reserveForDensity expectedSize density =>
    exact ⟨expectedSize, density, rfl, (reserveForDensity_represents h hper).2 hthrows⟩
  | store view => cases hthrows
  | eraseAtIndex location => cases hthrows
  | moveMemberId oldId newId => cases hthrows
  | runMaintenanceSteps steps => cases hthrows
  | clear => cases hthrows

/-- A run over a new index, of which every call is permitted, keeps a map from members to ids,
whatever the arena refuses.  A lookup at its end is what the map says, the size is the number of
members, and the number of primaries is the level and the split position and one for a split or a
merge in flight, from the first insertion or reservation on.  Where the arena refuses nothing, the
next call returns unless it reserves too many buckets. -/
theorem run_refines_map (config : Config M) (view : I → M) (calls : List (Arena × Call M I))
    (hpermitted : PermittedRun config { view := view } calls) :
    Refines config (run config { view := view } calls)
        (runMap config { view := view } (fun _ ↦ none) calls) ∧
      ∀ arena call, arena.Ample → Permitted config arena (run config { view := view } calls) call →
        (step config arena (run config { view := view } calls) call).2 = false →
          ∃ expectedSize density, call = .reserveForDensity expectedSize density ∧
            noBucket ≤ bucketsForDensity expectedSize density := by
  obtain ⟨grown, h⟩ := run_represents clear_represents hpermitted
  exact ⟨h.refines, fun arena call hample hper ↦ step_returns hample h hper⟩

end Runs

/-! ## An arena that runs out -/

/-- A cell above those in use. -/
def above (used : List Handle) : Handle := used.foldr max 0 + 1

theorem lt_above {used : List Handle} {handle : Handle}
    (h : handle ∈ used) : handle < above used := by
  refine Nat.lt_succ_of_le ?_
  induction used with
  | nil => exact absurd h not_mem_nil
  | cons first used ih =>
    rcases mem_cons.mp h with rfl | hrest
    · exact Nat.le_max_left _ _
    · exact (ih hrest).trans (Nat.le_max_right _ _)

/-- An arena that may have cells for overflow groups, and extents of some sizes. -/
def limited (overflow : Bool) (extents : ℕ → Bool) : Arena where
  allocateBucket used := if overflow then some (above used) else none
  allocateBucket_fresh := by
    intro used handle hsome hmem
    split_ifs at hsome
    cases hsome
    exact (lt_above hmem).false
  allocateExtent used buckets := if extents buckets then some (above used) else none
  allocateExtent_fresh := by
    intro used buckets base hsome offset _ hmem
    split_ifs at hsome
    cases hsome
    exact Nat.not_lt.mpr (Nat.le_add_right _ offset) (lt_above hmem)
  hasDirectoryBlock _ := true
  hasDirectoryTable := true

/-- An arena with room for everything. -/
def roomy : Arena := limited true fun _ ↦ true

theorem roomy_ample : roomy.Ample := ⟨fun _ ↦ rfl, fun _ _ ↦ rfl, fun _ ↦ rfl, rfl⟩

/-- Members that are their own hash. -/
def sequential : Config ℕ where
  hashBytes := UInt64.ofNat

/-- While there is no extent to split into, an even and 17 odd members make a chain of two groups.
Then there is an extent, but no cell for an overflow group: the split fills the new primary and
stops inside the second group.  It goes on once there are cells again. -/
def interrupted : List (Arena × Call ℕ ℕ) :=
  (0 :: (List.range 17).map (2 * · + 1)).map (fun member ↦
      (limited true fun _ ↦ false, .insert member member)) ++
    [(limited false fun _ ↦ true, .runMaintenanceSteps 2), (roomy, .insert 35 35),
      (roomy, .moveMemberId 31 31), (roomy, .runMaintenanceSteps 9)]

/-- A reserved index in which a member is inserted, moved and erased. -/
def packed : List (Arena × Call ℕ ℕ) :=
  [(roomy, .reserveForDensity 30 (3 / 4)), (roomy, .insertPacked 3 3), (roomy, .insert 19 19),
    (roomy, .moveMemberId 19 19), (roomy, .eraseAtIndex ⟨.head 0, 0⟩),
    (roomy, .runMaintenanceSteps 2)]

theorem permittedRun_inserts {arena : Arena} {members : List ℕ} {state : State ℕ ℕ}
    {calls : List (Arena × Call ℕ ℕ)} (hview : state.view = id)
    (hrest : ∀ state : State ℕ ℕ, state.view = id → PermittedRun sequential state calls) :
    PermittedRun sequential state
      (members.map (fun member ↦ (arena, .insert member member)) ++ calls) := by
  induction members generalizing state with
  | nil => exact hrest state hview
  | cons member members ih => exact ⟨fun _ ↦ congrFun hview member, ih hview⟩

theorem run_refines_map_interrupted :
    Refines sequential (run sequential { view := id } interrupted)
        (runMap sequential { view := id } (fun _ ↦ none) interrupted) ∧
      Refines sequential (run sequential { view := id } packed)
        (runMap sequential { view := id } (fun _ ↦ none) packed) := by
  refine ⟨(run_refines_map sequential id interrupted ?_).1,
    (run_refines_map sequential id packed ?_).1⟩
  · refine permittedRun_inserts rfl fun state hview ↦ ⟨trivial, fun _ ↦ ?_, fun _ ↦ rfl, trivial,
      trivial⟩
    exact congrFun hview 35
  · exact ⟨fun _ _ _ _ _ ↦ ⟨Nat.zero_le _, roomy_ample⟩, by unfold Permitted; decide +kernel,
      by unfold Permitted; decide +kernel, by unfold Permitted; decide +kernel,
      by unfold Permitted; decide +kernel, trivial, trivial⟩

/-- A reservation, another one for fewer members, and a first member. -/
def shrinkingReservations : List (Arena × Call ℕ ℕ) :=
  [(roomy, .reserveForDensity 100 (13 / 16)), (roomy, .reserveForDensity 5 (13 / 16)),
    (roomy, .insert 3 3)]

/-- A reservation for fewer buckets than an empty index has leaves primaries beyond the level.  The
next merge halves a level of one bucket, and the member inserted before it is not found. -/
theorem reserveForDensity_fewer :
    (run sequential { view := id } (shrinkingReservations.take 2)).index.primaryCount = 8 ∧
      (run sequential { view := id } (shrinkingReservations.take 2)).index.levelSize = 1 ∧
      (run sequential { view := id } (shrinkingReservations.take 2)).index.split = 0 ∧
      (run sequential { view := id } (shrinkingReservations.take 2)).index.inFlight = 0 ∧
      runMap sequential { view := id } (fun _ ↦ none) shrinkingReservations 3 = some 3 ∧
      find sequential (run sequential { view := id } shrinkingReservations).index id 3 = none := by
  decide +kernel


/-! ## Refused reservations -/

section Refused

variable {arena : Arena} {index : Index I} {expectedSize : ℕ} {density : Density}

/-- After a call that throws, every run goes on as it does over the map. -/
def FailsSafely [DecidableEq M] [DecidableEq I] (config : Config M) (view : I → M)
    (map : M → Option I) (reply : Index I × Except LengthError Unit) : Prop :=
  reply.2.isOk = false → ∀ calls, PermittedRun config ⟨view, reply.1⟩ calls →
    Refines config (run config ⟨view, reply.1⟩ calls) (runMap config ⟨view, reply.1⟩ map calls)

/-- The call throws at once: too many buckets are wanted, or the arena refuses the next primary. -/
def RefusedFirst (arena : Arena) (index : Index I) (expectedSize : ℕ) (density : Density) : Prop :=
  noBucket ≤ bucketsForDensity expectedSize density ∨
    (ensurePrimary index).directory.Refuses arena (ensurePrimary index).usedCells
      ((ensurePrimary index).primaryCount - 1)

theorem reserveAdditional_eq : reserveAdditional arena index expectedSize
    = reserveForDensity arena index expectedSize (13 / 16) := by
  unfold reserveAdditional
  split_ifs with hskip
  · refine (if_pos ?_).symm
    simp only [or_eq_true] at hskip ⊢
    tauto
  · rfl

theorem appendPrimaries_refused {missing : ℕ} {thrown : LengthError} (hmissing : missing ≠ 0)
    (happend : appendPrimary arena index = .error thrown) :
    (appendPrimaries arena missing index).1 = index := by
  obtain ⟨missing, rfl⟩ := exists_eq_succ_of_ne_zero hmissing
  rw [appendPrimaries, happend]

/-- A reservation that throws leaves the primaries that it has appended. -/
theorem reserveForDensity_throws {handles : ℕ → List Handle} {config : Config M} {view : I → M}
    {map : M → Option I} (h : Represents config view index handles map)
    (hthrows : (reserveForDensity arena index expectedSize density).2.isOk = false) :
    (RefusedFirst arena index expectedSize density ∧
      Represents config view (reserveForDensity arena index expectedSize density).1 handles map) ∨
    (¬RefusedFirst arena index expectedSize density ∧
      ∃ count ≠ 0, Appended (ensurePrimary index) handles count
        (reserveForDensity arena index expectedSize density).1) := by
  rcases reserveForDensity_cases arena index expectedSize density with
    heq | ⟨hlong, heq⟩ | ⟨-, -, -, hroom, heq⟩
  · rw [heq] at hthrows
    cases hthrows
  · exact .inl ⟨.inl hlong, by rw [heq]; exact h⟩
  obtain ⟨hensured, hsome⟩ := ensurePrimary_represents h
  obtain ⟨count, happended, -, hrefused⟩ := appendPrimaries_appended
    (bucketsForDensity expectedSize density - (ensurePrimary index).primaryCount)
    hensured.placed.linked hensured.laid hsome
  have hresult : (reserveForDensity arena index expectedSize density).1 = (appendPrimaries arena
        (bucketsForDensity expectedSize density - (ensurePrimary index).primaryCount)
        (ensurePrimary index)).1 ∧
      (appendPrimaries arena (bucketsForDensity expectedSize density -
        (ensurePrimary index).primaryCount) (ensurePrimary index)).2.isOk = false := by
    rw [heq] at hthrows ⊢
    dsimp only at hthrows ⊢
    cases hreply : (appendPrimaries arena (bucketsForDensity expectedSize density -
        (ensurePrimary index).primaryCount) (ensurePrimary index)).2 with
    | error thrown => exact ⟨rfl, rfl⟩
    | ok _ =>
      rw [hreply] at hthrows
      cases hthrows
  obtain ⟨hmissing, hfirst⟩ := hrefused hresult.2
  have hthrown : (∃ thrown, appendPrimary arena (ensurePrimary index) = .error thrown) ↔ _ :=
    appendPrimary_throws_iff (by omega)
  by_cases hrefuses : (ensurePrimary index).directory.Refuses arena (ensurePrimary index).usedCells
      ((ensurePrimary index).primaryCount - 1)
  · obtain ⟨thrown, happend⟩ := hthrown.mpr hrefuses
    refine .inl ⟨.inr hrefuses, ?_⟩
    rw [hresult.1, appendPrimaries_refused hmissing happend]
    exact hensured
  · refine .inr ⟨not_or.mpr ⟨Nat.not_le_of_lt hroom, hrefuses⟩, count, ?_, by rwa [hresult.1]⟩
    exact fun hnone ↦ hrefuses (hthrown.mp (hfirst.mp hnone))

theorem reserveForDensity_failsSafely_iff [DecidableEq M] [DecidableEq I] {config : Config M}
    {view : I → M} {handles : ℕ → List Handle} {map : M → Option I}
    (h : Represents config view index handles map) :
    FailsSafely config view map (reserveForDensity arena index expectedSize density) ↔
      ((reserveForDensity arena index expectedSize density).2.isOk = false →
        RefusedFirst arena index expectedSize density) := by
  refine forall_congr' fun hthrows ↦ ?_
  rcases reserveForDensity_throws h hthrows with ⟨hfirst, hafter⟩ |
    ⟨hlater, count, hcount, happended⟩
  · refine iff_of_true (fun calls hper ↦ ?_) hfirst
    obtain ⟨grown, hrun⟩ := run_represents hafter hper
    exact hrun.refines
  · refine iff_of_false (fun hsafe ↦ ?_) hlater
    -- The primaries appended are beyond the level and the split position.
    obtain ⟨hensured, hsome⟩ := ensurePrimary_represents h
    have hplaced := hensured.placed.addressing.count_eq hsome
    have hcnt := (hsafe [] trivial).count_iff
    generalize (reserveForDensity arena index expectedSize density).1 = next at *
    have hmore := happended.count_eq
    have hsame : next.primaryCount = next.levelSize + next.split + next.inFlight :=
      hcnt.mpr (by change next.primaryCount ≠ 0; omega)
    have hfields : next.levelSize + next.split + next.inFlight =
        (ensurePrimary index).levelSize + (ensurePrimary index).split +
          (ensurePrimary index).inFlight := by
      rw [happended.fields_eq]
      rfl
    omega

end Refused

/-- A reservation that throws leaves an index that works as before exactly when it throws before it
has appended a primary: primaries appended before are beyond the level and the split position, which
are set at the end only. -/
theorem refused_reservation_iff [DecidableEq M] [DecidableEq I] (config : Config M) (view : I → M)
    (index : Index I) (handles : ℕ → List Handle) (map : M → Option I)
    (h : Represents config view index handles map) (arena : Arena) (expectedSize : ℕ)
    (density : Density) :
    (FailsSafely config view map (reserveForDensity arena index expectedSize density) ↔
      ((reserveForDensity arena index expectedSize density).2.isOk = false →
        RefusedFirst arena index expectedSize density)) ∧
    (FailsSafely config view map (reserveAdditional arena index expectedSize) ↔
      ((reserveAdditional arena index expectedSize).2.isOk = false →
        RefusedFirst arena index expectedSize (13 / 16))) := by
  rw [reserveAdditional_eq]
  exact ⟨reserveForDensity_failsSafely_iff h, reserveForDensity_failsSafely_iff h⟩

/-- Nine primaries are reserved, and four of them are released while two members are inserted and
erased: the next primary is the first of the extent of eight again. -/
def vacated : List (Arena × Call ℕ ℕ) :=
  [(roomy, .reserveForDensity 117 (13 / 16)), (roomy, .insertPacked 3 3), (roomy, .insert 7 7),
    (roomy, .eraseAtIndex ⟨.head 3, 0⟩), (roomy, .eraseAtIndex ⟨.head 3, 1⟩)]

/-- The arena has no extent of eight. -/
def small : Arena := limited true fun buckets ↦ buckets ≤ 4

theorem refused_reservation_vacated :
    (reserveForDensity small (run sequential { view := id } vacated).index 100 (3 / 4)).2.isOk
        = false ∧
      FailsSafely sequential id (runMap sequential { view := id } (fun _ ↦ none) vacated)
        (reserveForDensity small (run sequential { view := id } vacated).index 100 (3 / 4)) ∧
      FailsSafely sequential id (runMap sequential { view := id } (fun _ ↦ none) vacated)
        (reserveAdditional small (run sequential { view := id } vacated).index 100) := by
  have hper : PermittedRun sequential { view := id } vacated :=
    ⟨fun _ _ _ _ _ ↦ ⟨Nat.zero_le _, roomy_ample⟩, by unfold Permitted; decide +kernel,
      by unfold Permitted; decide +kernel, by unfold Permitted; decide +kernel,
      by unfold Permitted; decide +kernel, trivial⟩
  obtain ⟨handles, hrun⟩ := run_represents clear_represents hper
  have hiff := refused_reservation_iff _ _ _ _ _ hrun small 100 (3 / 4)
  have hrefuses : RefusedFirst small (run sequential { view := id } vacated).index 100 (3 / 4) :=
    .inr ⟨by decide +kernel, .inl (by decide +kernel)⟩
  exact ⟨by decide +kernel, hiff.1.mpr fun _ ↦ hrefuses,
    hiff.2.mpr fun _ ↦ .inr (hrefuses.resolve_left (by decide +kernel))⟩

/-- The arena has the first extent of the eight primaries that a reservation for a hundred members
needs, and not the second one.  The member that is inserted next is not found. -/
theorem refused_reservation_loses_member :
    ¬(∀ (index : Index ℕ) (handles : ℕ → List Handle) (map : ℕ → Option ℕ),
      Represents sequential id index handles map → ∀ arena expectedSize,
        FailsSafely sequential id map (reserveAdditional arena index expectedSize)) := by
  intro hall
  have hthrows : (reserveAdditional small ({} : Index ℕ) 100).2.isOk = false := by decide +kernel
  have hfind := (hall {} _ _ clear_represents small 100 hthrows [(roomy, .insert 3 3)] ?_).find_eq 3
  · exact absurd hfind (by decide +kernel)
  · exact ⟨fun _ ↦ rfl, trivial⟩

end GoblinCore.LinearHashIndex
