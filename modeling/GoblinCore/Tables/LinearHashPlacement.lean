import GoblinCore.Tables.LinearHashBuckets

/-!
# Where a LinearHashIndex keeps its entries

While a bucket is split or merged its entries are in two chains.  An entry is in the chain of its
address, or it is still in the chain that is being emptied into that of its address.  Starting,
advancing and finishing a split or a merge keep this, one group at a time.
-/

namespace GoblinCore.LinearHashIndex

open LinkedChains List Nat LinearHashing
open scoped List

variable {M I : Type}

/-- One while a split or a merge is in flight. -/
def Index.inFlight (index : Index I) : ℕ := if index.splitActive || index.mergeActive then 1 else 0

/-- The level, the split position and the number of primaries fit together. -/
structure Addressing (index : Index I) : Prop where
  level_eq : ∃ bits, index.levelSize = 2 ^ bits
  level_le : index.levelSize ≤ noBucket
  split_lt : index.split < index.levelSize
  count_le : index.primaryCount ≤ noBucket
  count_eq : index.primaryCount ≠ 0 →
    index.primaryCount = index.levelSize + index.split + index.inFlight
  idle_of_zero : index.primaryCount = 0 → index.splitActive = false ∧ index.mergeActive = false
  exclusive : index.splitActive = true → index.mergeActive = false
  merge_eq : index.mergeActive = true → index.mergeSource = index.levelSize + index.split ∧
    index.mergeDestination = index.split

/-- A chain in which a hash may be found. -/
def Home (index : Index I) (primary : ℕ) (hash : UInt32) : Prop :=
  index.address hash = primary ∨
    (index.splitActive = true ∧ primary = index.splitSource ∧
      index.address hash = index.splitDestination) ∨
    (index.mergeActive = true ∧ primary = index.mergeSource ∧
      index.address hash = index.mergeDestination)

/-- Entries are in their chains, and the groups before a cursor have been moved. -/
structure Placed (index : Index I) (handles : ℕ → List Handle) : Prop where
  linked : Linked index.buckets handles
  addressing : Addressing index
  home : ∀ primary < index.primaryCount, ∀ entry ∈ chainEntries index.buckets handles primary,
    Home index primary entry.hash
  splitting : index.splitActive = true → ∃ done todo,
    refsOf handles index.split = done ++ cursorRef index.split index.splitCursor :: todo ∧
      ∀ ref ∈ done, ∀ entry ∈ entriesAt index.buckets ref, index.address entry.hash = index.split
  merging : index.mergeActive = true → ∃ done todo,
    refsOf handles index.mergeSource
        = done ++ cursorRef index.mergeSource index.mergeCursor :: todo ∧
      ∀ ref ∈ done, ref = .head index.mergeSource ∧ entriesAt index.buckets ref = []

section Address

variable {index : Index I} {hash : UInt32}

theorem address_eq {level count : ℕ} (hlevel : index.levelSize = level)
    (hcnt : index.bucketCount = count) (hpow : ∃ bits, level = 2 ^ bits) (hle : level ≤ noBucket) :
    index.address hash = address level count hash.toNat := by
  obtain ⟨bits, hbits⟩ := hpow
  have hpos := Nat.two_pow_pos bits
  unfold noBucket at hle
  have hlow : (index.levelSize + 2 ^ 64 - 1) % 2 ^ 64 = 2 ^ bits - 1 := by
    omega
  have hdouble : 2 ^ (bits + 1) = 2 * level := by rw [hbits, pow_succ, Nat.mul_comm]
  have hhigh : (2 * index.levelSize + 2 ^ 64 - 1) % 2 ^ 64 = 2 ^ (bits + 1) - 1 := by
    omega
  unfold Index.address address
  rw [hlow, hhigh, Nat.and_two_pow_sub_one_eq_mod, Nat.and_two_pow_sub_one_eq_mod, hdouble, hbits,
    hcnt]

section

variable (h : Addressing index)
include h

theorem Addressing.level_pos : 0 < index.levelSize := by
  obtain ⟨bits, hbits⟩ := h.level_eq
  rw [hbits]
  exact Nat.two_pow_pos bits

theorem Addressing.address_eq :
    index.address hash = address index.levelSize index.bucketCount hash.toNat :=
  LinearHashIndex.address_eq rfl rfl h.level_eq h.level_le

theorem Addressing.address_lt_bucketCount (hash : UInt32) :
    index.address hash < index.bucketCount := by
  rw [h.address_eq]
  refine address_lt _ h.level_pos ?_
  unfold Index.bucketCount
  omega

theorem Addressing.address_lt (hcnt : index.primaryCount ≠ 0) (hash : UInt32) :
    index.address hash < index.primaryCount := by
  refine (h.address_lt_bucketCount hash).trans_le ?_
  rw [h.count_eq hcnt]
  unfold Index.bucketCount Index.inFlight
  cases index.splitActive <;> simp

theorem Addressing.not_splitting (hmerge : index.mergeActive = true) :
    index.splitActive = false := by
  by_contra hsplit
  rw [h.exclusive (by simpa using hsplit)] at hmerge
  cases hmerge

/-- No hash has the bucket that is being merged as its address. -/
theorem Addressing.address_ne_mergeSource (hmerge : index.mergeActive = true) (hash : UInt32) :
    index.address hash ≠ index.mergeSource := by
  have hlt := h.address_lt_bucketCount hash
  rw [(h.merge_eq hmerge).1]
  unfold Index.bucketCount at hlt
  rw [h.not_splitting hmerge] at hlt
  exact hlt.ne

theorem Addressing.count_of_active (hact : index.splitActive = true ∨ index.mergeActive = true) :
    index.primaryCount = index.levelSize + index.split + 1 := by
  have hzero : index.primaryCount ≠ 0 := by
    intro hzero
    obtain ⟨hsplit, hmerge⟩ := h.idle_of_zero hzero
    rw [hsplit, hmerge] at hact
    simp at hact
  rw [h.count_eq hzero]
  unfold Index.inFlight
  rw [if_pos (by simpa using hact)]

end

end Address

/-! ## Changed buckets -/

section Buckets

variable {index : Index I} {handles grown : ℕ → List Handle} {result : Buckets I} {size : ℕ}
  {entry : Entry I} {place : Ref Handle} {victim : Handle} {primary : ℕ}

theorem Addressing.congr_buckets (h : Addressing index)
    (hheads : result.heads = index.buckets.heads) {splitCursor mergeCursor : Option Handle} :
    Addressing { index with
      buckets := result
      size := size
      splitCursor := splitCursor
      mergeCursor := mergeCursor } :=
  { h with
    count_le := hheads.trans_le h.count_le
    count_eq := fun hcnt ↦ hheads.trans (h.count_eq fun hzero ↦ hcnt (hheads.trans hzero))
    idle_of_zero := fun hzero ↦ h.idle_of_zero (hheads.symm.trans hzero) }

/-- An entry is added to the chain of its address. -/
theorem Placed.inserted (entry : Entry I) (h : Placed index handles)
    (hins : Inserted index.buckets handles (index.address entry.hash) entry result grown place)
    (size : ℕ) : Placed { index with buckets := result, size := size } grown where
  linked := hins.linked
  addressing := h.addressing.congr_buckets hins.heads_eq
  home := by
    intro primary hprim other hoth
    have hbef := hprim.trans_eq hins.heads_eq
    by_cases heq : primary = index.address entry.hash
    · subst heq
      rcases mem_cons.mp (hins.chain_perm.subset hoth) with rfl | hold
      · exact .inl rfl
      · exact h.home _ hbef other hold
    · rw [hins.chain_eq primary heq] at hoth
      exact h.home primary hbef other hoth
  splitting := by
    intro hsplit
    obtain ⟨done, todo, hrefs, hdone⟩ := h.splitting hsplit
    by_cases heq : index.split = index.address entry.hash
    · obtain ⟨extra, hextra⟩ := hins.grows.extra
      refine ⟨done, todo ++ extra.map .node, ?_, fun ref href other hoth ↦ ?_⟩
      · rw [← heq] at hextra
        unfold refsOf at hrefs ⊢
        rw [hextra, map_append, ← cons_append, hrefs, append_assoc, cons_append]
      · by_cases hplace : ref = place
        · subst hplace
          rcases mem_cons.mp (hins.place_perm.subset hoth) with rfl | hold
          · exact heq.symm
          · exact hdone ref href other hold
        · rw [hins.entriesAt_eq ref hplace] at hoth
          exact hdone ref href other hoth
    · refine ⟨done, todo, (hins.grows.refsOf_eq heq).trans hrefs,
      fun ref href other hoth ↦ ?_⟩
      rw [hins.entriesAt_eq ref] at hoth
      · exact hdone ref href other hoth
      rintro rfl
      have hmem : ref ∈ refsOf handles index.split := by
        rw [hrefs]
        exact mem_append_left _ href
      exact heq (hins.linked.ref_owner_eq (hins.grows.mem_refsOf hmem) hins.mem_refsOf)
  merging := by
    intro hmerge
    obtain ⟨done, todo, hrefs, hdone⟩ := h.merging hmerge
    have hne := (h.addressing.address_ne_mergeSource hmerge entry.hash).symm
    refine ⟨done, todo, (hins.grows.refsOf_eq hne).trans hrefs, fun ref href ↦ ?_⟩
    obtain ⟨hhead, hemp⟩ := hdone ref href
    refine ⟨hhead, (hins.entriesAt_eq ref ?_).trans hemp⟩
    rintro rfl
    have hmem : ref ∈ refsOf grown index.mergeSource := by
      rw [hhead]
      exact head_mem_refsOf.mpr rfl
    exact hne (hins.linked.ref_owner_eq hmem hins.mem_refsOf)

/-- No group gets a hash that it did not have. -/
theorem Placed.of_hashes (h : Placed index handles) (hlinked : Linked result handles)
    (hheads : result.heads = index.buckets.heads)
    (hhashes : ∀ ref, ∀ entry ∈ entriesAt result ref, ∃ old ∈ entriesAt index.buckets ref,
      old.hash = entry.hash) :
    Placed { index with buckets := result, size := size } handles where
  linked := hlinked
  addressing := h.addressing.congr_buckets hheads
  home := by
    intro primary hprim entry hent
    obtain ⟨ref, href, hmem⟩ := mem_chainEntries.mp hent
    obtain ⟨old, hold, hhash⟩ := hhashes ref entry hmem
    rw [← hhash]
    exact h.home primary (hprim.trans_eq hheads) old (mem_chainEntries.mpr ⟨ref, href, hold⟩)
  splitting := by
    intro hsplit
    obtain ⟨done, todo, hrefs, hdone⟩ := h.splitting hsplit
    refine ⟨done, todo, hrefs, fun ref href entry hent ↦ ?_⟩
    obtain ⟨old, hold, hhash⟩ := hhashes ref entry hent
    rw [← hhash]
    exact hdone ref href old hold
  merging := by
    intro hmerge
    obtain ⟨done, todo, hrefs, hdone⟩ := h.merging hmerge
    refine ⟨done, todo, hrefs, fun ref href ↦ ⟨(hdone ref href).1, ?_⟩⟩
    rw [eq_nil_iff_forall_not_mem]
    intro entry hent
    obtain ⟨old, hold, -⟩ := hhashes ref entry hent
    rw [(hdone ref href).2] at hold
    exact absurd hold not_mem_nil

/-- An empty overflow group that no cursor is at is given back. -/
theorem Placed.unlinked (h : Placed index handles) (hvictim : victim ∈ handles primary)
    (hemp : entriesAt index.buckets (.node victim) = [])
    (hsplitCursor : index.splitCursor ≠ some victim)
    (hmergeCursor : index.mergeCursor ≠ some victim) :
    Placed { index with buckets := index.buckets.unlink victim }
      fun owner ↦ (handles owner).erase victim := by
  have hcursor : ∀ source (cursor : Option Handle), cursor ≠ some victim →
      cursorRef source cursor ≠ .node victim := by
    intro source cursor hne
    cases cursor with
    | none => simp [cursorRef]
    | some handle => simpa [cursorRef] using hne
  have hkept : ∀ {refs : List (Ref Handle)} {ref : Ref Handle},
      ref ∈ refs.filter (· ≠ .node victim) →
        ref ∈ refs ∧ entriesAt (index.buckets.unlink victim) ref = entriesAt index.buckets ref := by
    intro refs ref href
    obtain ⟨hmem, hne⟩ := mem_filter.mp href
    exact ⟨hmem, entriesAt_unlink h.linked hvictim (by simpa using hne)⟩
  have hrest {source : ℕ} {cursor : Option Handle} {done todo : List (Ref Handle)}
      (hne : cursor ≠ some victim)
      (hrefs : refsOf handles source = done ++ cursorRef source cursor :: todo) :
      refsOf (fun owner ↦ (handles owner).erase victim) source =
        done.filter (· ≠ .node victim) ++
          cursorRef source cursor :: todo.filter (· ≠ .node victim) := by
    rw [refsOf_erase (h.linked.nodup _), hrefs, filter_append,
      filter_cons_of_pos (by simpa using hcursor source cursor hne)]
  refine ⟨h.linked.unlink hvictim,
    h.addressing.congr_buckets Chains.heads_unlink,
    fun owner howner entry hent ↦ ?_,
    fun hsplit ↦ ?_, fun hmerge ↦ ?_⟩
  · rw [chainEntries_unlink h.linked hvictim hemp] at hent
    exact h.home owner (howner.trans_eq Chains.heads_unlink) entry hent
  · obtain ⟨done, todo, hrefs, hdone⟩ := h.splitting hsplit
    refine ⟨_, _, hrest hsplitCursor hrefs, fun ref href entry hent ↦ ?_⟩
    obtain ⟨hmem, hsame⟩ := hkept href
    exact hdone ref hmem entry (hsame ▸ hent)
  · obtain ⟨done, todo, hrefs, hdone⟩ := h.merging hmerge
    refine ⟨_, _, hrest hmergeCursor hrefs, fun ref href ↦ ?_⟩
    obtain ⟨hmem, hsame⟩ := hkept href
    exact ⟨(hdone ref hmem).1, hsame.trans (hdone ref hmem).2⟩

end Buckets

/-! ## Starting a split or a merge -/

/-- Every primary has a cell of its own, and no overflow group is in the extents of primaries. -/
structure Laid (index : Index I) : Prop where
  fits : index.directory.Fits index.primaryCount
  apart : Apart index.directory.cells index.buckets

section Laid

variable {index next : Index I}

theorem Laid.of_buckets (h : Laid index) (hheads : next.buckets.heads = index.buckets.heads)
    (hdirectory : next.directory = index.directory)
    (hapart : Apart index.directory.cells next.buckets) : Laid next := by
  refine ⟨?_, ?_⟩
  · unfold Index.primaryCount
    rw [hheads, hdirectory]
    exact h.fits
  · rw [hdirectory]
    exact hapart

/-- The cell of the last primary is given back with the others of its extent. -/
theorem Laid.popped (h : Laid index) (hmany : 2 ≤ index.buckets.heads)
    (hbuckets : next.buckets = index.buckets.popHead)
    (hdirectory : next.directory = index.directory.pop (index.primaryCount - 2)) : Laid next := by
  have hfits := h.fits
  unfold Index.primaryCount at hfits hdirectory
  obtain ⟨primaries, hprimaries⟩ : ∃ primaries, index.buckets.heads = primaries + 1 :=
    ⟨index.buckets.heads - 1, by omega⟩
  have hoffset : index.buckets.heads - 2 = primaries - 1 := by omega
  rw [hprimaries] at hfits
  rw [hoffset] at hdirectory
  have hone : 1 ≤ primaries := by omega
  refine ⟨?_, fun handle hhandle hcell ↦ ?_⟩
  · have hheads : next.primaryCount = primaries := by
      unfold Index.primaryCount
      rw [hbuckets]
      exact congrArg (· - 1) hprimaries
    rw [hheads, hdirectory]
    exact (PrimaryDirectory.pop_fits hfits hone).1
  · rw [hbuckets] at hhandle
    rw [hdirectory] at hcell
    exact h.apart handle (Chains.handles_popHead_subset hhandle)
      (PrimaryDirectory.cells_pop_subset hfits hone hcell)

end Laid

/-- An index with the same entries, wherever they are. -/
structure Kept (index : Index I) (handles : ℕ → List Handle) (next : Index I)
    (grown : ℕ → List Handle) : Prop where
  placed : Placed next grown
  laid : Laid index → Laid next
  perm : (allEntries next.buckets grown).Perm (allEntries index.buckets handles)
  size_eq : next.size = index.size
  count_iff : next.primaryCount = 0 ↔ index.primaryCount = 0

section Start

variable {index next later : Index I} {handles grown further : ℕ → List Handle}
  {buckets : Buckets I} {primary : ℕ} {entry : Entry I} {arena : Arena}
  {directory : PrimaryDirectory}

theorem Kept.refl (h : Placed index handles) : Kept index handles index handles :=
  ⟨h, id, List.Perm.refl _, rfl, Iff.rfl⟩

theorem Kept.trans (h : Kept index handles next grown) (hlater : Kept next grown later further) :
    Kept index handles later further :=
  ⟨hlater.placed, hlater.laid ∘ h.laid, hlater.perm.trans h.perm, hlater.size_eq.trans h.size_eq,
    hlater.count_iff.trans h.count_iff⟩

/-- Nothing is in flight. -/
def Index.Idle (index : Index I) : Prop := index.splitActive = false ∧ index.mergeActive = false

theorem Index.Idle.not_splitting (h : index.Idle) : ¬index.splitActive = true :=
  ne_true_of_eq_false h.1

theorem Index.Idle.not_merging (h : index.Idle) : ¬index.mergeActive = true :=
  ne_true_of_eq_false h.2

theorem Home.of_idle {hash : UInt32} (h : Home index primary hash) (hidle : index.Idle) :
    index.address hash = primary := by
  rcases h with haddr | ⟨hsplit, -⟩ | ⟨hmerge, -⟩
  · exact haddr
  · exact absurd hsplit hidle.not_splitting
  · exact absurd hmerge hidle.not_merging

theorem Addressing.count_of_idle (h : Addressing index) (hidle : index.Idle)
    (hcnt : index.primaryCount ≠ 0) : index.primaryCount = index.levelSize + index.split := by
  have heq := h.count_eq hcnt
  unfold Index.inFlight at heq
  rw [hidle.1, hidle.2] at heq
  exact heq

theorem bucketCount_of_idle (hidle : index.Idle) :
    index.bucketCount = index.levelSize + index.split := by
  unfold Index.bucketCount
  rw [hidle.1]
  rfl

theorem Addressing.address_of_idle (h : Addressing index) (hidle : index.Idle) (hash : UInt32) :
    index.address hash = address index.levelSize (index.levelSize + index.split) hash.toNat :=
  LinearHashIndex.address_eq rfl (bucketCount_of_idle hidle) h.level_eq h.level_le

theorem entriesAt_pushHead {ref : Ref Handle} (href : ref ≠ .head buckets.heads) :
    entriesAt (buckets.pushHead Group.empty) ref = entriesAt buckets ref := by
  unfold entriesAt
  rw [Linked.value_pushHead, if_neg href]

theorem chainEntries_pushHead (hne : primary ≠ buckets.heads) :
    chainEntries (buckets.pushHead Group.empty) handles primary
      = chainEntries buckets handles primary := by
  refine flatMap_congr fun ref href ↦ entriesAt_pushHead ?_
  rintro rfl
  exact hne (head_mem_refsOf.mp href).symm

theorem chainEntries_pushHead_self (h : Linked buckets handles) :
    chainEntries (buckets.pushHead Group.empty) handles buckets.heads = [] := by
  unfold chainEntries refsOf
  rw [h.outside _ le_rfl, map_nil, flatMap_singleton]
  unfold entriesAt
  rw [Linked.value_pushHead, if_pos rfl]
  exact Group.entries_empty

theorem allEntries_pushHead (h : Linked buckets handles) :
    allEntries (buckets.pushHead Group.empty) handles = allEntries buckets handles := by
  change (List.range (buckets.heads + 1)).flatMap _ = _
  rw [range_succ, flatMap_append, flatMap_singleton, chainEntries_pushHead_self h, append_nil]
  exact flatMap_congr fun other hoth ↦
    chainEntries_pushHead (Nat.ne_of_lt (mem_range.mp hoth))

section

variable (h : Placed index handles)
include h

omit h in
/-- What `append_primary` has done when it returns. -/
theorem appendPrimary_ok (happend : appendPrimary arena index = .ok next) :
    index.primaryCount < noBucket ∧ ∃ directory,
      index.directory.append arena index.usedCells (index.primaryCount - 1) = .ok directory ∧
      next = { index with
        buckets := index.buckets.pushHead Group.empty, directory := directory } := by
  unfold appendPrimary at happend
  split_ifs at happend with hfull
  cases hdirectory : index.directory.append arena index.usedCells (index.primaryCount - 1) with
  | error thrown =>
    rw [hdirectory] at happend
    cases happend
  | ok directory =>
    rw [hdirectory] at happend
    cases happend
    exact ⟨Nat.lt_of_not_le hfull, directory, rfl, rfl⟩

omit h in
/-- A new primary gets a cell that no group has. -/
theorem Laid.append (hlaid : Laid index) (hcnt : index.primaryCount ≠ 0)
    (happend : index.directory.append arena index.usedCells (index.primaryCount - 1)
      = .ok directory) (hcount : next.buckets = index.buckets.pushHead Group.empty)
    (hdirectory : next.directory = directory) : Laid next := by
  obtain ⟨hfits, hcells, -⟩ := PrimaryDirectory.append_fits hlaid.fits
    (Nat.one_le_iff_ne_zero.mpr hcnt) (fun cell hcell ↦ mem_append_left _ hcell) happend
  refine ⟨?_, fun handle hhandle hcell ↦ ?_⟩
  · unfold Index.primaryCount
    rw [hcount, hdirectory]
    exact hfits
  · rw [hcount] at hhandle
    rw [hdirectory] at hcell
    have hold := Chains.handles_pushHead_subset hhandle
    rcases hcells handle hcell with hreserved | hunused
    · exact hlaid.apart handle hold hreserved
    · exact hunused (mem_append_right _ hold)

/-- Another primary is appended and its split begins. -/
theorem Placed.startSplit (hidle : index.Idle) (hcnt : index.primaryCount ≠ 0)
    (hroom : index.primaryCount < noBucket) (hnext : next = { index with
      buckets := index.buckets.pushHead Group.empty, directory := directory, splitActive := true,
      splitCursor := none }) :
    Placed next handles := by
  have hprimaries := h.addressing.count_of_idle hidle hcnt
  have hsplitLt := h.addressing.split_lt
  have haddr : ∀ hash, next.address hash = address index.levelSize
      (index.levelSize + index.split + 1) hash.toNat :=
    fun hash ↦ address_eq (by rw [hnext]) (by rw [hnext]; rfl) h.addressing.level_eq
      h.addressing.level_le
  have hhome : ∀ primary hash, index.address hash = primary → Home next primary hash := by
    intro primary hash hold
    rw [h.addressing.address_of_idle hidle] at hold
    rcases address_succ h.addressing.level_pos
      (le_add_right _ index.split) (by omega) with ⟨hnew, hsrc⟩ | ⟨hsame, -⟩
    · refine .inr (.inl ⟨by rw [hnext], ?_, ?_⟩)
      · rw [← hold, hsrc, hnext]
        exact Nat.add_sub_cancel_left _ _
      · rw [haddr, hnew, hnext]
        rfl
    · exact .inl ((haddr hash).trans (hsame.trans hold))
  subst hnext
  refine ⟨h.linked.pushHead Group.empty, ⟨h.addressing.level_eq, h.addressing.level_le, hsplitLt,
    hroom, fun _ ↦ congrArg (· + 1) hprimaries, fun hzero ↦ absurd hzero (succ_ne_zero _),
    fun _ ↦ hidle.2, (absurd · hidle.not_merging)⟩,
    fun primary hprim entry hent ↦ ?_,
    fun _ ↦ ⟨[], (handles index.split).map .node, rfl, nofun⟩, (absurd · hidle.not_merging)⟩
  by_cases hnew : primary = index.buckets.heads
  · subst hnew
    rw [chainEntries_pushHead_self h.linked] at hent
    exact absurd hent not_mem_nil
  · rw [chainEntries_pushHead hnew] at hent
    have hlt := lt_of_le_of_ne (le_of_lt_succ hprim) hnew
    exact hhome primary entry.hash ((h.home primary hlt entry hent).of_idle hidle)

variable (arena) in
theorem startSplitIfNeeded_kept :
    Kept index handles (startSplitIfNeeded arena index) handles := by
  unfold startSplitIfNeeded
  split_ifs with hskip
  · exact Kept.refl h
  simp only [Bool.or_eq_true, decide_eq_true_eq, not_or, Bool.not_eq_true, not_le] at hskip
  obtain ⟨⟨⟨hsplit, hmerge⟩, hcnt⟩, -⟩ := hskip
  cases happend : appendPrimary arena index with
  | error thrown => exact Kept.refl h
  | ok appended =>
    obtain ⟨hroom, directory, hdirectory, rfl⟩ := appendPrimary_ok happend
    refine ⟨h.startSplit ⟨hsplit, hmerge⟩ hcnt hroom rfl,
      fun hlaid ↦ hlaid.append hcnt hdirectory rfl rfl, ?_, rfl, ?_⟩
    · exact List.Perm.of_eq (allEntries_pushHead h.linked)
    · exact iff_of_false (succ_ne_zero _) hcnt

/-- The last bucket before a merge, in the terms of the merge. -/
theorem Placed.startMerge (hidle : index.Idle) (levelSize split : ℕ)
    (hlevel : ∃ bits, levelSize = 2 ^ bits) (hsplit : split < levelSize)
    (hcnt : index.primaryCount = levelSize + split + 1) (hlevelLe : levelSize ≤ index.levelSize)
    (hbef : ∀ hash, index.address hash = address levelSize (levelSize + split + 1)
      hash.toNat) (hnext : next = { index with
      levelSize := levelSize, split := split, mergeSource := levelSize + split,
      mergeDestination := split, mergeActive := true, mergeCursor := none }) :
    Placed next handles := by
  have hpos : 0 < levelSize := zero_lt_of_lt hsplit
  have hle : levelSize ≤ noBucket := hlevelLe.trans h.addressing.level_le
  have haddr : ∀ hash, next.address hash = address levelSize (levelSize + split) hash.toNat := by
    intro hash
    refine address_eq (by rw [hnext]) ?_ hlevel hle
    rw [hnext]
    rw [hidle.1]
    rfl
  have hhome : ∀ primary hash, index.address hash = primary → Home next primary hash := by
    intro primary hash hold
    rw [hbef] at hold
    rcases address_succ hpos (le_add_right _ split) (by omega) with ⟨hnew, hsrc⟩ | ⟨hsame, -⟩
    · refine .inr (.inr ⟨by rw [hnext], ?_, ?_⟩)
      · rw [← hold, hnew, hnext]
      · rw [haddr, hsrc, hnext]
        exact Nat.add_sub_cancel_left _ _
    · exact .inl ((haddr hash).trans (hsame.symm.trans hold))
  subst hnext
  refine ⟨h.linked, ⟨hlevel, hle, hsplit, h.addressing.count_le, fun _ ↦ ?_, fun hzero ↦ ?_,
    (absurd · hidle.not_splitting), fun _ ↦ ⟨rfl, rfl⟩⟩,
    fun primary hprim entry hent ↦ ?_, (absurd · hidle.not_splitting),
    fun _ ↦ ⟨[], (handles (levelSize + split)).map .node, rfl, nofun⟩⟩
  · unfold Index.inFlight
    rw [Bool.or_true]
    exact hcnt
  · exact absurd (hcnt.symm.trans hzero) (succ_ne_zero _)
  · exact hhome primary entry.hash ((h.home primary hprim entry hent).of_idle hidle)

theorem startMergeIfNeeded_kept : Kept index handles (startMergeIfNeeded index) handles := by
  unfold startMergeIfNeeded
  by_cases hskip : (index.splitActive || index.mergeActive || decide (index.primaryCount ≤ 1) ||
      decide ((index.primaryCount - 1) * 6 ≤ index.size)) = true
  · rw [if_pos hskip]
    exact Kept.refl h
  rw [if_neg hskip]
  simp only [Bool.or_eq_true, decide_eq_true_eq, not_or, Bool.not_eq_true, not_le] at hskip
  obtain ⟨⟨⟨hsplitActive, hmergeActive⟩, hmany⟩, -⟩ := hskip
  have hidle : index.Idle := ⟨hsplitActive, hmergeActive⟩
  have hcnt := h.addressing.count_of_idle hidle (by omega)
  have hsplitLt := h.addressing.split_lt
  have hle := h.addressing.level_le
  have haddr := h.addressing.address_of_idle hidle
  unfold noBucket at hle
  obtain ⟨bits, hbits⟩ := h.addressing.level_eq
  refine ⟨?_, fun hlaid ↦ ⟨hlaid.fits, hlaid.apart⟩, List.Perm.refl _, rfl, Iff.rfl⟩
  by_cases hzero : index.split = 0
  · -- the level is halved: its upper half is merged from its end
    obtain ⟨lower, rfl⟩ : ∃ lower, bits = lower + 1 := by
      cases bits with
      | zero => rw [pow_zero] at hbits; omega
      | succ lower => exact ⟨lower, rfl⟩
    have hhalf : index.levelSize = 2 * 2 ^ lower := by rw [hbits, pow_succ, mul_comm]
    have hpos := Nat.two_pow_pos lower
    have hlevel : index.levelSize / 2 = 2 ^ lower := by omega
    have hsum : 2 ^ lower + (2 ^ lower - 1) + 1 = 2 * 2 ^ lower := by omega
    have hlast : index.primaryCount - 1 = 2 ^ lower + (2 ^ lower - 1) := by omega
    have hwrap : (2 ^ lower + 2 ^ 64 - 1) % 2 ^ 64 = 2 ^ lower - 1 := by omega
    have hmod : (2 ^ lower - 1) % 2 ^ 32 = 2 ^ lower - 1 := by omega
    refine h.startMerge hidle (2 ^ lower) (2 ^ lower - 1) ⟨lower, rfl⟩
      (sub_lt hpos one_pos) (by omega) (by omega) (fun hash ↦ ?_) ?_
    · rw [haddr, hzero, add_zero, hhalf, address_double, hsum]
    · dsimp only
      rw [if_neg (not_not_intro hzero), if_neg (not_not_intro hzero), hlevel, hwrap, hmod, hlast]
  · have hsum : index.levelSize + (index.split - 1) + 1 = index.levelSize + index.split := by
      omega
    have hlast : index.primaryCount - 1 = index.levelSize + (index.split - 1) := by omega
    have hmod : (index.split - 1) % 2 ^ 32 = index.split - 1 := by omega
    refine h.startMerge hidle index.levelSize (index.split - 1) ⟨bits, hbits⟩ (by omega)
      (by omega) le_rfl (fun hash ↦ ?_) ?_
    · rw [haddr, hsum]
    · dsimp only
      rw [if_pos hzero, if_pos hzero, hmod, hlast]

variable (arena) in
theorem startMaintenance_kept : Kept index handles (startMaintenance arena index) handles := by
  unfold startMaintenance
  split_ifs
  · exact Kept.refl h
  have hstarted := startSplitIfNeeded_kept arena h
  dsimp only
  split_ifs
  · exact hstarted
  · exact hstarted.trans (startMergeIfNeeded_kept hstarted.placed)

end

end Start

/-! ## Advancing a split or a merge -/

section Advance

variable {index : Index I} {handles grown : ℕ → List Handle} {arena : Arena}
  {buckets moved : Buckets I} {source destination : ℕ} {cursor : Option Handle}
  {done todo : List (Ref Handle)} {moves : UInt32 → Bool} {entry : Entry I}

/-- Behind a group of a chain there are overflow groups only. -/
theorem todo_cases (h : refsOf handles source = done ++ cursorRef source cursor :: todo) :
    todo = [] ∨ ∃ handle rest, todo = .node handle :: rest := by
  cases todo with
  | nil => exact .inl rfl
  | cons ref rest =>
    have hmem : ref ∈ (handles source).map Ref.node := by
      cases done with
      | nil =>
        rw [(List.cons.inj h).2]
        exact mem_cons_self
      | cons first done =>
        rw [(List.cons.inj h).2]
        exact mem_append_right _ (mem_cons_of_mem _ mem_cons_self)
    obtain ⟨handle, -, rfl⟩ := mem_map.mp hmem
    exact .inr ⟨handle, rest, rfl⟩

theorem next_cursor (hlinked : Linked buckets handles) (hsrc : source < buckets.heads)
    (h : refsOf handles source = done ++ cursorRef source cursor :: todo) :
    buckets.next (cursorRef source cursor) = successor todo none := by
  have hseg := hlinked.segment source hsrc
  rw [h] at hseg
  exact (segment_append.mp hseg).2.next_eq

/-- The chain that is being emptied gets nothing new. -/
theorem MovedGroup.source_subset
    (h : MovedGroup moves source destination cursor done todo buckets handles moved grown)
    (hrefs : refsOf handles source = done ++ cursorRef source cursor :: todo) :
    chainEntries moved grown source ⊆ chainEntries buckets handles source := by
  intro entry hent
  obtain ⟨ref, href, hmem⟩ := mem_chainEntries.mp hent
  have hcase : ref = cursorRef source cursor ∨ ref ∈ done ++ todo := by
    rcases h.refs_eq with hkept | ⟨hgone, -⟩
    · rw [hkept] at href
      exact mem_cons.mp (perm_middle.subset href)
    · rw [hgone] at href
      exact .inr href
  refine mem_chainEntries.mpr ⟨ref, ?_, ?_⟩
  · rw [hrefs]
    exact perm_middle.symm.subset (mem_cons.mpr hcase)
  · rcases hcase with rfl | hrest
    · exact h.stays hmem
    · rw [← h.rest_eq ref hrest]
      exact hmem

/-- Every entry of the buckets is in a chain in which it may be found. -/
def Homed (index : Index I) (buckets : Buckets I) (handles : ℕ → List Handle) : Prop :=
  ∀ primary < index.primaryCount, ∀ entry ∈ chainEntries buckets handles primary,
    Home index primary entry.hash

theorem MovedGroup.homed
    (h : MovedGroup moves source destination cursor done todo index.buckets handles moved grown)
    (hplaced : Placed index handles)
    (hrefs : refsOf handles source = done ++ cursorRef source cursor :: todo)
    (harrives : ∀ entry ∈ entriesAt index.buckets (cursorRef source cursor), moves entry.hash = true
      → index.address entry.hash = destination) : Homed index moved grown := by
  intro primary hprim entry hent
  by_cases hsrc : primary = source
  · subst hsrc
    exact hplaced.home primary hprim entry (h.source_subset hrefs hent)
  by_cases hdst : primary = destination
  · subst hdst
    rcases h.arrives entry hent with hold | ⟨hmem, hmoves⟩
    · exact hplaced.home primary hprim entry hold
    · exact .inl (harrives entry hmem hmoves)
  · rw [h.chain_eq primary hsrc hdst] at hent
    exact hplaced.home primary hprim entry hent

/-- In the chain that is being split a hash has one of two addresses. -/
theorem Placed.source_address (h : Placed index handles) (hact : index.splitActive = true)
    (hsrc : index.split < index.primaryCount)
    (hent : entry ∈ chainEntries index.buckets handles index.split)
    (hstays : index.address entry.hash ≠ index.splitDestination) :
    index.address entry.hash = index.split := by
  rcases h.home index.split hsrc entry hent with haddr | ⟨-, -, hmoves⟩ | ⟨hmerge, -⟩
  · exact haddr
  · exact absurd hmoves hstays
  · rw [h.addressing.exclusive hact] at hmerge
    cases hmerge

/-- A split ends with every entry in the chain of its address. -/
theorem Placed.finishSplit {next : Index I} (h : Placed index handles)
    (hact : index.splitActive = true) (hlinked : Linked moved grown)
    (hheads : moved.heads = index.buckets.heads)
    (hhome : ∀ primary < index.primaryCount, ∀ entry ∈ chainEntries moved grown primary,
      index.address entry.hash = primary) {levelSize split : ℕ}
    (hlevel : ∃ bits, levelSize = 2 ^ bits) (hsplit : split < levelSize)
    (hsum : levelSize + split = index.levelSize + index.split + 1)
    (haddr : ∀ hash, address levelSize (levelSize + split) hash =
      address index.levelSize (index.levelSize + index.split + 1) hash)
    (hnext : next = { index with
      buckets := moved, splitCursor := none, splitActive := false, levelSize := levelSize,
      split := split }) : Placed next grown := by
  have hcnt := h.addressing.count_of_active (.inl hact)
  have hmerge := h.addressing.exclusive hact
  have hoff := ne_true_of_eq_false hmerge
  have hle : levelSize ≤ noBucket := by
    have := h.addressing.count_le
    omega
  have hsame : ∀ hash, next.address hash = index.address hash := by
    intro hash
    have haft : next.address hash = address levelSize (levelSize + split) hash.toNat :=
      address_eq (by rw [hnext]) (by rw [hnext]; rfl) hlevel hle
    have hbef : index.address hash = address index.levelSize
        (index.levelSize + index.split + 1) hash.toNat := by
      refine address_eq rfl ?_ h.addressing.level_eq h.addressing.level_le
      unfold Index.bucketCount
      rw [hact]
      rfl
    rw [haft, haddr, hbef]
  have haft : next.primaryCount = levelSize + split + next.inFlight := by
    rw [hnext]
    unfold Index.inFlight
    rw [hmerge]
    exact hheads.trans (hcnt.trans hsum.symm)
  have hplaced : ∀ primary < next.primaryCount, ∀ entry ∈ chainEntries next.buckets grown primary,
      Home next primary entry.hash := by
    intro primary hprim entry hent
    rw [hnext] at hprim hent
    exact .inl ((hsame _).trans (hhome primary (hprim.trans_eq hheads) entry hent))
  subst hnext
  exact ⟨hlinked, ⟨hlevel, hle, hsplit, hheads.trans_le h.addressing.count_le, fun _ ↦ haft,
    fun _ ↦ ⟨rfl, hmerge⟩, nofun, (absurd · hoff)⟩, hplaced, nofun, (absurd · hoff)⟩

/-- What is left of a chain that is being split, up to the cursor, has it as its address. -/
theorem MovedGroup.done_address
    (h : MovedGroup index.leaves index.split index.splitDestination index.splitCursor done todo
      index.buckets handles moved grown) (hplaced : Placed index handles)
    (hact : index.splitActive = true)
    (hrefs : refsOf handles index.split = done ++ cursorRef index.split index.splitCursor :: todo)
    (hdone : ∀ ref ∈ done, ∀ entry ∈ entriesAt index.buckets ref, index.address entry.hash =
      index.split)
    (hleft : ∀ entry ∈ entriesAt moved (cursorRef index.split index.splitCursor),
      index.leaves entry.hash = false) (ref : Ref Handle)
    (href : ref ∈ done ++ [cursorRef index.split index.splitCursor]) (entry : Entry I)
    (hent : entry ∈ entriesAt moved ref) : index.address entry.hash = index.split := by
  rcases mem_append.mp href with hbef | hcursor
  · rw [h.rest_eq ref (mem_append_left _ hbef)] at hent
    exact hdone ref hbef entry hent
  rw [mem_singleton.mp hcursor] at hent
  have hstays := hleft entry hent
  have hsrc : index.split < index.primaryCount := by
    have := hplaced.addressing.count_of_active (.inl hact)
    omega
  refine hplaced.source_address hact hsrc (mem_chainEntries.mpr ⟨_, ?_, h.stays hent⟩) ?_
  · rw [hrefs]
    simp
  · simpa [Index.leaves] using hstays

/-- The cursor of a split goes on to the next group. -/
theorem MovedGroup.advanceSplit {handle : Handle} {rest : List (Ref Handle)}
    (h : MovedGroup index.leaves index.split index.splitDestination index.splitCursor done
      (.node handle :: rest) index.buckets handles moved grown) (hplaced : Placed index handles)
    (hact : index.splitActive = true) (hhome : Homed index moved grown)
    (hdone : ∀ ref ∈ done ++ [cursorRef index.split index.splitCursor],
      ∀ entry ∈ entriesAt moved ref, index.address entry.hash = index.split) :
    Placed { index with buckets := moved, splitCursor := some handle } grown := by
  have hoff := ne_true_of_eq_false (hplaced.addressing.exclusive hact)
  refine ⟨h.linked, hplaced.addressing.congr_buckets h.heads_eq,
    fun primary hprim ↦ hhome primary (hprim.trans_eq h.heads_eq), fun _ ↦ ?_, (absurd · hoff)⟩
  rcases h.refs_eq with hkept | ⟨hgone, -⟩
  · refine ⟨done ++ [cursorRef index.split index.splitCursor], rest, ?_, hdone⟩
    rw [append_assoc]
    exact hkept
  · exact ⟨done, rest, hgone, fun ref href ↦ hdone ref (mem_append_left _ href)⟩

/-- A split that stops inside a group is still at it. -/
theorem MovedGroup.stopSplit
    (h : MovedGroup index.leaves index.split index.splitDestination index.splitCursor done todo
      index.buckets handles moved grown) (hplaced : Placed index handles)
    (hact : index.splitActive = true) (hhome : Homed index moved grown)
    (hkept : refsOf grown index.split = done ++ cursorRef index.split index.splitCursor :: todo)
    (hdone : ∀ ref ∈ done, ∀ entry ∈ entriesAt index.buckets ref, index.address entry.hash =
      index.split) : Placed { index with buckets := moved } grown := by
  have hoff := ne_true_of_eq_false (hplaced.addressing.exclusive hact)
  refine ⟨h.linked, hplaced.addressing.congr_buckets h.heads_eq,
    fun primary hprim ↦ hhome primary (hprim.trans_eq h.heads_eq),
    fun _ ↦ ⟨done, todo, hkept, fun ref href entry hent ↦ ?_⟩, (absurd · hoff)⟩
  rw [h.rest_eq ref (mem_append_left _ href)] at hent
  exact hdone ref href entry hent

theorem splitStep_kept (h : Placed index handles) (hact : index.splitActive = true) :
    ∃ grown, Kept index handles (splitStep arena index) grown := by
  have hcnt := h.addressing.count_of_active (.inl hact)
  have hlevelPos := h.addressing.level_pos
  have hsplitLt := h.addressing.split_lt
  have hsrc : index.split < index.buckets.heads := by
    change _ < index.primaryCount
    omega
  have hdst : index.splitDestination < index.buckets.heads := by
    change index.levelSize + index.split < index.primaryCount
    omega
  have hapart : index.split ≠ index.splitDestination := by
    change _ ≠ index.levelSize + index.split
    omega
  obtain ⟨done, todo, hrefs, hdone⟩ := h.splitting hact
  obtain ⟨between, hgroup, hkept, hleft⟩ := moveGroup_spec h.linked hsrc hdst hapart hrefs
  have hnext := next_cursor h.linked hsrc hrefs
  have hstop (hlaid : Laid index) : Apart index.directory.cells (moveGroup arena index index.leaves
      index.split index.splitDestination index.splitCursor).1 := hlaid.apart.moveSlots
  unfold splitStep Index.splitSource
  rw [hnext]
  generalize moveGroup arena index index.leaves index.split index.splitDestination
    index.splitCursor = result at hgroup hleft hstop ⊢
  obtain ⟨stopped, ended⟩ := result
  have hleaves (entry : Entry I)
      (_ : entry ∈ entriesAt index.buckets (cursorRef index.split index.splitCursor))
      (hmoves : index.leaves entry.hash = true) :
      index.address entry.hash = index.splitDestination := by
    simpa [Index.leaves] using hmoves
  cases ended with
  | false =>
    exact ⟨between, hgroup.stopSplit h hact (hgroup.homed h hrefs hleaves) hkept hdone,
      fun hlaid ↦ hlaid.of_buckets hgroup.heads_eq rfl (hstop hlaid), hgroup.perm, rfl,
      Eq.congr_left hgroup.heads_eq⟩
  | true =>
  obtain ⟨grown, hmoved, hfewer, -⟩ := hgroup.release hkept
  have hlaid {next : Index I} (hheads : next.buckets.heads = index.buckets.heads)
      (hdirectory : next.directory = index.directory)
      (hbuckets : next.buckets = releaseGroup stopped index.splitCursor) (hlaid : Laid index) :
      Laid next :=
    hlaid.of_buckets hheads hdirectory (hbuckets ▸ (hstop hlaid).releaseGroup index.splitCursor)
  dsimp only at hfewer hleft ⊢
  generalize releaseGroup stopped index.splitCursor = moved at hmoved hfewer hlaid ⊢
  rw [Bool.not_true, if_neg (by simp)]
  have hhome := hmoved.homed h hrefs hleaves
  have hdoneNow := hmoved.done_address h hact hrefs hdone
    fun entry hent ↦ hleft rfl entry (hfewer hent)
  refine ⟨grown, ?_⟩
  rcases todo_cases hrefs with rfl | ⟨handle, rest, rfl⟩
  · -- the last group of the chain: the split is finished
    have haddr : ∀ primary < index.primaryCount, ∀ entry ∈ chainEntries moved grown primary,
        index.address entry.hash = primary := by
      intro primary hprim entry hent
      rcases hhome primary hprim entry hent with haddr | ⟨-, rfl, -⟩ | ⟨hmerge, -⟩
      · exact haddr
      · obtain ⟨ref, href, hmem⟩ := mem_chainEntries.mp hent
        refine hdoneNow ref ?_ entry hmem
        rcases hmoved.refs_eq with hkept | ⟨hgone, -⟩
        · rw [← hkept]
          exact href
        · change ref ∈ refsOf grown index.split at href
          rw [hgone, append_nil] at href
          exact mem_append_left _ href
      · rw [h.addressing.exclusive hact] at hmerge
        cases hmerge
    dsimp only [successor_nil]
    split_ifs with hfull
    · have hdouble : 2 * index.levelSize + 0 = index.levelSize + index.split + 1 := by omega
      refine ⟨h.finishSplit hact hmoved.linked hmoved.heads_eq haddr ?_
        (by omega) hdouble (fun hash ↦ ?_) rfl, hlaid hmoved.heads_eq rfl rfl, hmoved.perm, rfl,
        Eq.congr_left hmoved.heads_eq⟩
      · obtain ⟨bits, hbits⟩ := h.addressing.level_eq
        exact ⟨bits + 1, by rw [hbits, pow_succ, mul_comm]⟩
      · rw [← hdouble, add_zero]
        exact address_double
    · exact ⟨h.finishSplit hact hmoved.linked hmoved.heads_eq haddr h.addressing.level_eq (by omega)
        rfl (fun _ ↦ rfl) rfl, hlaid hmoved.heads_eq rfl rfl, hmoved.perm, rfl,
        Eq.congr_left hmoved.heads_eq⟩
  · exact ⟨hmoved.advanceSplit h hact hhome hdoneNow, hlaid hmoved.heads_eq rfl rfl,
      hmoved.perm, rfl,
      Eq.congr_left hmoved.heads_eq⟩

/-- Only the primary group is left before the cursor of a merge, and it is empty. -/
theorem MovedGroup.merge_done
    (h : MovedGroup (fun _ ↦ true) source destination cursor done todo buckets handles moved grown)
    (hrefs : refsOf handles source = done ++ cursorRef source cursor :: todo)
    (hdone : ∀ ref ∈ done, ref = .head source ∧ entriesAt buckets ref = [])
    (hgone : cursor ≠ none → refsOf grown source = done ++ todo)
    (hemp : entriesAt moved (cursorRef source cursor) = []) :
    ∃ front, refsOf grown source = front ++ todo ∧
      ∀ ref ∈ front, ref = .head source ∧ entriesAt moved ref = [] := by
  cases cursor with
  | some handle =>
    refine ⟨done, hgone (by simp), fun ref href ↦ ?_⟩
    rw [h.rest_eq ref (mem_append_left _ href)]
    exact hdone ref href
  | none =>
    have hnil : done = [] := by
      cases done with
      | nil => rfl
      | cons first done =>
        have hmem : Ref.head source ∈ (handles source).map Ref.node := by
          rw [(List.cons.inj hrefs).2]
          exact mem_append_right _ mem_cons_self
        simp at hmem
    rcases h.refs_eq with hkept | ⟨-, hcursor⟩
    · refine ⟨[.head source], ?_, fun ref href ↦ ?_⟩
      · rw [hkept, hnil]
        rfl
      · rw [mem_singleton.mp href]
        exact ⟨rfl, hemp⟩
    · exact absurd rfl hcursor

/-- A merge ends by dropping the last primary, which has been emptied. -/
theorem Placed.finishMerge {next : Index I} (h : Placed index handles)
    (hact : index.mergeActive = true) (hlinked : Linked moved grown)
    (hheads : moved.heads = index.buckets.heads) (hlast : grown index.mergeSource = [])
    (hhome : Homed index moved grown) {directory : PrimaryDirectory} (hnext : next = { index with
      buckets := moved.popHead, directory := directory, mergeActive := false, mergeCursor := none,
      mergeSource := noBucket, mergeDestination := noBucket }) : Placed next grown := by
  have hcnt := h.addressing.count_of_active (.inr hact)
  have hsrc := (h.addressing.merge_eq hact).1
  have hsplit := h.addressing.not_splitting hact
  have hoff := ne_true_of_eq_false hsplit
  have hpopped : moved.heads - 1 = index.mergeSource := by
    rw [hheads, hsrc]
    change index.primaryCount - 1 = _
    omega
  have hprimaries : next.primaryCount = index.levelSize + index.split := by
    rw [hnext]
    exact hpopped.trans hsrc
  have hplaced : ∀ primary < next.primaryCount, ∀ entry ∈ chainEntries next.buckets grown primary,
      Home next primary entry.hash := by
    intro primary hprim entry hent
    rw [hprimaries, ← hsrc] at hprim
    have hsame : chainEntries next.buckets grown primary = chainEntries moved grown primary := by
      rw [hnext]
      refine flatMap_congr fun ref href ↦ ?_
      unfold entriesAt
      rw [Linked.value_popHead_of_ne]
      rintro rfl
      rw [hpopped, head_mem_refsOf] at href
      omega
    rw [hsame] at hent
    rcases hhome primary (by omega) entry hent with haddr | ⟨hact, -⟩ | ⟨-, hlast, -⟩
    · rw [hnext]
      exact .inl haddr
    · exact absurd hact hoff
    · omega
  have hcountLe := h.addressing.count_le
  have hpsv := h.addressing.level_pos
  subst hnext
  refine ⟨hlinked.popHead (by rw [hpopped, hlast]), ⟨h.addressing.level_eq, h.addressing.level_le,
    h.addressing.split_lt, by omega, fun _ ↦ ?_, fun hzero ↦ by omega,
    (absurd · hoff), nofun⟩, hplaced, (absurd · hoff), nofun⟩
  rw [hprimaries]
  rw [hsplit]
  rfl

theorem allEntries_popHead (hheads : 0 < moved.heads)
    (hemp : chainEntries moved grown (moved.heads - 1) = []) :
    allEntries moved.popHead grown = allEntries moved grown := by
  obtain ⟨count, hcnt⟩ := exists_eq_succ_of_ne_zero (ne_of_gt hheads)
  unfold allEntries
  rw [show moved.popHead.heads = count from congrArg (· - 1) hcnt, hcnt, range_succ,
    flatMap_append, flatMap_singleton]
  rw [hcnt] at hemp
  rw [show chainEntries moved grown count = [] from hemp, append_nil]
  refine flatMap_congr fun other hoth ↦ flatMap_congr fun ref href ↦ ?_
  unfold entriesAt
  rw [Linked.value_popHead_of_ne]
  rintro rfl
  have hoth := mem_range.mp hoth
  have hsame := head_mem_refsOf.mp href
  omega

/-- A merge that stops inside a group is still at it. -/
theorem MovedGroup.stopMerge
    (h : MovedGroup (fun _ ↦ true) index.mergeSource destination index.mergeCursor done todo
      index.buckets handles moved grown) (hplaced : Placed index handles)
    (hact : index.mergeActive = true) (hhome : Homed index moved grown)
    (hkept : refsOf grown index.mergeSource =
      done ++ cursorRef index.mergeSource index.mergeCursor :: todo)
    (hdone : ∀ ref ∈ done, ref = .head index.mergeSource ∧ entriesAt index.buckets ref = []) :
    Placed { index with buckets := moved } grown := by
  have hoff := ne_true_of_eq_false (hplaced.addressing.not_splitting hact)
  refine ⟨h.linked, hplaced.addressing.congr_buckets h.heads_eq,
    fun primary hprim ↦ hhome primary (hprim.trans_eq h.heads_eq), (absurd · hoff),
    fun _ ↦ ⟨done, todo, hkept, fun ref href ↦ ⟨(hdone ref href).1, ?_⟩⟩⟩
  rw [h.rest_eq ref (mem_append_left _ href)]
  exact (hdone ref href).2

theorem mergeStep_kept (h : Placed index handles) (hact : index.mergeActive = true) :
    ∃ grown, Kept index handles (mergeStep arena index) grown := by
  have hcnt := h.addressing.count_of_active (.inr hact)
  obtain ⟨hsourceEq, hdestinationEq⟩ := h.addressing.merge_eq hact
  have hlevelPos := h.addressing.level_pos
  have hprimaries : index.buckets.heads = index.levelSize + index.split + 1 := hcnt
  have hsrc : index.mergeSource < index.buckets.heads := by omega
  have hdst : index.mergeDestination < index.buckets.heads := by omega
  have hapart : index.mergeSource ≠ index.mergeDestination := by omega
  have hoff := ne_true_of_eq_false (h.addressing.not_splitting hact)
  obtain ⟨done, todo, hrefs, hdone⟩ := h.merging hact
  obtain ⟨between, hgroup, hkept, hleft⟩ := moveGroup_spec h.linked hsrc hdst hapart hrefs
  have hnext := next_cursor h.linked hsrc hrefs
  have hstop (hlaid : Laid index) : Apart index.directory.cells (moveGroup arena index
      (fun _ ↦ true) index.mergeSource index.mergeDestination index.mergeCursor).1 :=
    hlaid.apart.moveSlots
  unfold mergeStep
  rw [hnext]
  generalize moveGroup arena index (fun _ ↦ true) index.mergeSource index.mergeDestination
    index.mergeCursor = result at hgroup hleft hstop ⊢
  obtain ⟨stopped, ended⟩ := result
  have hcursor : ∀ entry ∈ entriesAt index.buckets (cursorRef index.mergeSource index.mergeCursor),
      true = true → index.address entry.hash = index.mergeDestination := by
    intro entry hent _
    have hmem : entry ∈ chainEntries index.buckets handles index.mergeSource :=
      mem_chainEntries.mpr ⟨_, by simp [hrefs], hent⟩
    rcases h.home index.mergeSource hsrc entry hmem with haddr | ⟨hsplitting, -⟩ | hmerging
    · exact absurd haddr (h.addressing.address_ne_mergeSource hact entry.hash)
    · exact absurd hsplitting hoff
    · exact hmerging.2.2
  cases ended with
  | false =>
    exact ⟨between, hgroup.stopMerge h hact (hgroup.homed h hrefs hcursor) hkept hdone,
      fun hlaid ↦ hlaid.of_buckets hgroup.heads_eq rfl (hstop hlaid), hgroup.perm, rfl,
      Eq.congr_left hgroup.heads_eq⟩
  | true =>
  obtain ⟨grown, hmoved, hfewer, hgone⟩ := hgroup.release hkept
  have hrest (hlaid : Laid index) := (hstop hlaid).releaseGroup index.mergeCursor
  dsimp only at hfewer hleft hgone ⊢
  have hstopped : entriesAt stopped (cursorRef index.mergeSource index.mergeCursor) = [] :=
    eq_nil_iff_forall_not_mem.mpr fun entry hent ↦ absurd (hleft rfl entry hent) (by simp)
  generalize releaseGroup stopped index.mergeCursor = moved at hmoved hfewer hrest ⊢
  rw [Bool.not_true, if_neg (by simp)]
  have hhome := hmoved.homed h hrefs hcursor
  obtain ⟨front, hfront, hfrontEmpty⟩ := hmoved.merge_done hrefs hdone
    (fun hsome ↦ hgone hsome hstopped) (subset_nil.mp (hstopped ▸ hfewer))
  refine ⟨grown, ?_⟩
  rcases todo_cases hrefs with rfl | ⟨handle, rest, rfl⟩
  · -- the last group of the chain: the merge is finished
    rw [append_nil] at hfront
    have hlast : grown index.mergeSource = [] := by
      rw [eq_nil_iff_forall_not_mem]
      intro handle hhandle
      rw [← node_mem_refsOf, hfront] at hhandle
      exact absurd (hfrontEmpty _ hhandle).1 (by simp)
    have hemp : chainEntries moved grown index.mergeSource = [] := by
      unfold chainEntries
      rw [hfront, flatMap_eq_nil_iff]
      exact fun ref href ↦ (hfrontEmpty ref href).2
    have hheads : moved.heads - 1 = index.mergeSource := by
      rw [hmoved.heads_eq]
      omega
    refine ⟨h.finishMerge hact hmoved.linked hmoved.heads_eq hlast hhome rfl, fun hlaid ↦ ?_, ?_,
      rfl, ?_⟩
    · have hemptied : Laid { index with buckets := moved } :=
        hlaid.of_buckets hmoved.heads_eq rfl (hrest hlaid)
      exact hemptied.popped (by dsimp only; rw [hmoved.heads_eq]; omega) rfl rfl
    · rw [← hheads] at hemp
      refine List.Perm.trans (List.Perm.of_eq ?_) hmoved.perm
      exact allEntries_popHead (by rw [hmoved.heads_eq]; omega) hemp
    · refine iff_of_false ?_ (by omega)
      change moved.heads - 1 ≠ 0
      omega
  · refine ⟨⟨hmoved.linked, h.addressing.congr_buckets hmoved.heads_eq,
      fun primary hprim ↦ hhome primary (hprim.trans_eq hmoved.heads_eq),
      (absurd · hoff), fun _ ↦ ⟨front, rest, hfront, hfrontEmpty⟩⟩,
      fun hlaid ↦ hlaid.of_buckets hmoved.heads_eq rfl (hrest hlaid), hmoved.perm, rfl,
      Eq.congr_left hmoved.heads_eq⟩

theorem advanceActiveMaintenance_kept (h : Placed index handles) :
    ∃ grown, Kept index handles (advanceActiveMaintenance arena index) grown := by
  unfold advanceActiveMaintenance
  split_ifs with hsplit hmerge
  · exact splitStep_kept h hsplit
  · exact mergeStep_kept h hmerge
  · exact ⟨handles, Kept.refl h⟩

variable (arena) in
theorem maintenanceStep_kept (h : Placed index handles) :
    ∃ grown, Kept index handles (maintenanceStep arena index) grown := by
  have hstarted := startMaintenance_kept arena h
  obtain ⟨grown, hadvanced⟩ := advanceActiveMaintenance_kept hstarted.placed
  exact ⟨grown, hstarted.trans hadvanced⟩

/-- Maintenance may stop after any number of groups. -/
theorem runMaintenanceSteps_kept (h : Placed index handles) {steps : ℕ} :
    ∃ grown, Kept index handles (runMaintenanceSteps arena index steps) grown := by
  induction steps generalizing index handles with
  | zero => exact ⟨handles, Kept.refl h⟩
  | succ steps ih =>
    have hstarted := startMaintenance_kept arena h
    unfold runMaintenanceSteps
    dsimp only
    split_ifs
    · obtain ⟨between, hadvanced⟩ := advanceActiveMaintenance_kept hstarted.placed
      obtain ⟨grown, hrest⟩ := ih hadvanced.placed
      exact ⟨grown, hstarted.trans (hadvanced.trans hrest)⟩
    · exact ⟨handles, hstarted⟩

end Advance

end GoblinCore.LinearHashIndex
