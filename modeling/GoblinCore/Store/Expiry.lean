import GoblinCore.Store.Store

/-!
# Expiry commands of the store

Setting and clearing expiries, purging a key that is due and the sweep that removes the keys that
are due, soonest first.
-/

namespace GoblinCore

open Refusable MemoryLimit Function Comp TtlSet List

/-- The NX, XX, GT and LT flags of EXPIRE. -/
structure ExpireFlags where
  nx : Bool := false
  xx : Bool := false
  gt : Bool := false
  lt : Bool := false
  deriving DecidableEq

/-- The condition of the flags is not met; a key without expiry counts as one that never expires. -/
def ExpireFlags.refuse (flags : ExpireFlags) (current : Option PackedU48) (whenMs : ℕ) : Bool :=
  match current with
  | some expiry =>
    flags.nx || (flags.gt && decide (whenMs ≤ expiry.val)) ||
      (flags.lt && decide (expiry.val ≤ whenMs))
  | none => flags.xx || flags.gt

namespace Store

variable {α : Type}

def expireAtMs (key : Bytes) (whenMs now : ℕ) (flags : ExpireFlags) : StoreComp (Store α) Bool := do
  let s ← Comp.get
  match s.keyspace.findId key with
  | none => pure false
  | some id =>
    if flags.refuse (s.ttl.expiry id) whenMs then
      pure false
    else if whenMs ≤ now then
      removeAt id
      pure true
    else
      onTtl (set id whenMs)
      signalKeyModified key
      pure true

def persist (key : Bytes) : StoreComp (Store α) Bool := do
  let s ← Comp.get
  match s.keyspace.findId key with
  | none => pure false
  | some id =>
    let removed ← onTtl (TtlSet.clear id)
    Comp.when (removed = true) (signalKeyModified key)
    pure removed

/-- `*expiry <= now` for a key that has an expiry. -/
def isDue (now : ℕ) (expiry : Option PackedU48) : Bool :=
  match expiry with
  | some expiry => decide (expiry.val ≤ now)
  | none => false

def purgeIfExpired (key : Bytes) (now : ℕ) : StoreComp (Store α) Bool := do
  let s ← Comp.get
  if s.ttl.empty then
    pure false
  else
    match s.keyspace.findId key with
    | none => pure false
    | some id =>
      if isDue now (s.ttl.expiry id) then
        removeAt id
        pure true
      else
        pure false

/-- `order_.at(0)`, when the order is not empty. -/
def soonest (s : Store α) : Option TtlEntry :=
  if s.ttl.order.size = 0 then none else s.ttl.order.toList.head?

/-- Take the entry `front` out of both structures of the expiry set. -/
def dropFront (front : TtlEntry) : StoreComp TtlSet Unit := do
  TtlSet.eraseOrder front
  Comp.modify (TtlSet.eraseIndex front.key)

/-- `active_expire`: at most `budget` keys; the result is their number. -/
def activeExpire (now : ℕ) : ℕ → StoreComp (Store α) ℕ
  | 0 => pure 0
  | budget + 1 => do
    let s ← Comp.get
    match s.soonest with
    | none => pure 0
    | some front =>
      if now < front.expiryMs.val then
        pure 0
      else
        onTtl (dropFront front)
        eraseKeyspaceAt front.key.val
        let expired ← activeExpire now budget
        pure (expired + 1)

/-! ## What they do to the logical view -/

/-- The key has an expiry that is not after `now`. -/
def Due (now : ℕ) (logical : Logical α) (key : Bytes) : Prop :=
  isDue now ((logical key).bind Prod.snd) = true

instance (now : ℕ) (logical : Logical α) (key : Bytes) : Decidable (Due now logical key) :=
  inferInstanceAs (Decidable (_ = true))

theorem due_iff {now : ℕ} {logical : Logical α} {key : Bytes} : Due now logical key ↔
    ∃ object expiry, logical key = some (object, some expiry) ∧ expiry.val ≤ now := by
  unfold Due
  rcases logical key with - | ⟨object, - | expiry⟩ <;> simp [isDue]

/-- The logical view once the key is purged at `now`. -/
def purged (now : ℕ) (key : Bytes) (logical : Logical α) : Logical α :=
  if Due now logical key then update logical key none else logical

/-- A sweep that may remove `budget` keys removes `count` keys: each time a key that is due and
expires no later than any other, until the budget is spent or no key is due. -/
inductive Sweep (now : ℕ) : ℕ → Logical α → ℕ → Logical α → Prop where
  | spent (logical : Logical α) : Sweep now 0 logical 0 logical
  | done (budget : ℕ) (logical : Logical α) (h : ∀ key, ¬Due now logical key) :
    Sweep now (budget + 1) logical 0 logical
  | expire {budget count : ℕ} {logical logical' : Logical α} (key : Bytes) (object : Object α)
    (expiry : PackedU48) (hkey : logical key = some (object, some expiry))
    (hdue : expiry.val ≤ now)
    (hsoonest : ∀ other found later, logical other = some (found, some later) → expiry ≤ later)
    (hrest : Sweep now budget (update logical key none) count logical') :
    Sweep now (budget + 1) logical (count + 1) logical'

/-- A key that is not due is not touched by a sweep. -/
theorem Sweep.of_not_due {now budget count : ℕ} {logical logical' : Logical α}
    (h : Sweep now budget logical count logical') {key : Bytes} (hkey : ¬Due now logical key) :
    logical' key = logical key := by
  induction h with
  | spent logical => rfl
  | done budget logical h => rfl
  | expire swept object expiry hswept hdue _ _ ih =>
    have hne : key ≠ swept := by
      intro heq
      subst key
      exact hkey (due_iff.mpr ⟨object, expiry, hswept, hdue⟩)
    rw [ih (by rwa [Due, update_of_ne hne]), update_of_ne hne]

variable {s : Store α} {key : Bytes} {id : ℕ} {object : Object α}

theorem Valid.isDue_iff (h : s.Valid) (hent : s.keyspace.entries[id]? = some (key, object))
    (now : ℕ) : isDue now (s.ttl.expiry id) = true ↔ Due now s.logical key := by
  rw [Due, h.logical_of_entry hent]
  rfl

/-- An empty expiry set has no expiries. -/
theorem expiry_of_empty {ttl : TtlSet} (h : ttl.empty = true) (id : ℕ) : ttl.expiry id = none := by
  have hkeys : ttl.index.keys = [] := isEmpty_iff.mp h
  unfold expiry
  rw [AList.lookup_eq_none, AList.mem_keys, hkeys]
  exact not_mem_nil

theorem not_due_of_expiry (h : ∀ id, s.ttl.expiry id = none) (now : ℕ) (key : Bytes) :
    ¬Due now s.logical key := by
  intro hdue
  rcases due_iff.mp hdue with ⟨object, expiry, hfnd, -⟩
  cases hid : s.keyspace.findId key with
  | none => simp [logical, hid] at hfnd
  | some id => simp [logical, hid, h] at hfnd

theorem purgeIfExpired_ends (key : Bytes) (now : ℕ) (h : s.Valid) (script : Script) :
    Ends (purgeIfExpired key now) s script
      (fun removed s' ↦ s'.Valid ∧ removed = decide (Due now s.logical key) ∧
        s'.logical = purged now key s.logical) (ExpiryLost script s) := by
  have hskip (hnot : ¬Due now s.logical key) : s.Valid ∧ false = decide (Due now s.logical key) ∧
      s.logical = purged now key s.logical :=
    ⟨h, by simp [hnot], by rw [purged, if_neg hnot]⟩
  apply ends_get_bind
  by_cases hemp : s.ttl.empty = true
  · rw [if_pos hemp]
    exact ends_pure (hskip (not_due_of_expiry (expiry_of_empty hemp) now key))
  rw [if_neg hemp]
  cases hid : s.keyspace.findId key with
  | none =>
    refine ends_pure (hskip ?_)
    simp [Due, logical_eq_none hid, isDue]
  | some id =>
    rcases h.entry_of_findId hid with ⟨object, hent⟩
    have hiff := h.isDue_iff hent now
    by_cases hdue : isDue now (s.ttl.expiry id) = true
    · simp only [hdue, if_true]
      apply (removeAt_ends h hent script).bind
      intro _ s' _ _ hend
      have hkey := hiff.mp hdue
      exact ends_pure ⟨hend.1, by simp [hkey], by rw [purged, if_pos hkey, hend.2]⟩
    · simp only [hdue]
      exact ends_pure (hskip fun hkey ↦ hdue (hiff.mpr hkey))

/-- A refused request left the store as it was, as far as a client can see. -/
structure Unchanged (script : Script) (s : Store α) (thrown : Thrown) (s' : Store α) : Prop where
  thrown_eq : thrown = .maxMemoryExceeded
  refused : true ∈ script
  logical : s'.logical = s.logical
  valid : s'.Valid

theorem onTtl_set_ends (h : s.Valid) (hent : s.keyspace.entries[id]? = some (key, object))
    {whenMs : ℕ} {script : Script} :
    Ends (onTtl (set id whenMs)) s script
      (fun _ s' ↦ s'.Valid ∧ s'.logical = update s.logical key (some (object, some (.make whenMs))))
      (fun thrown s' ↦ thrown = .undefinedBehavior ∨ Unchanged script s thrown s') := by
  apply (set_ends id whenMs h.ttl script).zoom
  · intro _ ttl hend
    refine ⟨⟨h.keyspace, hend.1, ?_⟩, h.logical_update hent hend.2⟩
    intro packed hsome
    by_cases hid : packed = PackedU48.make id
    · rw [hid, make_val (h.id_lt hent)]
      exact lt_of_getElem? hent
    · rw [hend.2, update_of_ne hid] at hsome
      exact h.live packed hsome
  · intro thrown ttl hthrown
    refine hthrown.imp_right fun hdenied ↦ ?_
    have hexp : ttl.expiry = s.ttl.expiry := by
      funext other
      rw [expiry_eq, hdenied.expiries, expiry_eq]
    refine ⟨hdenied.thrown_eq, hdenied.refused, ?_, h.keyspace, ⟨hdenied.intact, ?_⟩, ?_⟩
    · funext other
      simp only [Store.logical, hexp]
    · rw [hdenied.expiries]
      exact h.ttl.describes.perm hdenied.order
    · intro packed hsome
      rw [hdenied.expiries] at hsome
      exact h.live packed hsome

/-- EXPIRE on the logical view. -/
def expired (key : Bytes) (whenMs now : ℕ) (flags : ExpireFlags) (logical : Logical α) :
    Bool × Logical α :=
  match logical key with
  | none => (false, logical)
  | some (object, current) =>
    if flags.refuse current whenMs then (false, logical)
    else if whenMs ≤ now then (true, update logical key none)
    else (true, update logical key (some (object, some (.make whenMs))))

theorem expireAtMs_ends {whenMs now : ℕ} {flags : ExpireFlags} (h : s.Valid) {script : Script} :
    Ends (expireAtMs key whenMs now flags) s script
      (fun done s' ↦ s'.Valid ∧ (done, s'.logical) = expired key whenMs now flags s.logical)
      (fun thrown s' ↦ (whenMs ≤ now ∧ ExpiryLost script s thrown s') ∨
        thrown = .undefinedBehavior ∨ Unchanged script s thrown s') := by
  apply ends_get_bind
  cases hid : s.keyspace.findId key with
  | none => exact ends_pure ⟨h, by simp [expired, logical_eq_none hid]⟩
  | some id =>
    rcases h.entry_of_findId hid with ⟨object, hent⟩
    have hkey := h.logical_of_entry hent
    by_cases hrefuse : flags.refuse (s.ttl.expiry id) whenMs = true
    · simp only [hrefuse, if_true]
      exact ends_pure ⟨h, by simp [expired, hkey, hrefuse]⟩
    simp only [hrefuse]
    by_cases hpast : whenMs ≤ now
    · rw [if_neg (by simp), if_pos hpast]
      apply ((removeAt_ends h hent script).mono_throw fun _ _ hlost ↦ .inl ⟨hpast, hlost⟩).bind
      intro _ s' _ _ hend
      exact ends_pure ⟨hend.1, by simp [expired, hkey, hrefuse, hpast, hend.2]⟩
    · rw [if_neg (by simp), if_neg hpast]
      apply ((onTtl_set_ends h hent).mono_throw fun _ _ hthrown ↦ .inr hthrown).bind
      intro _ s' _ _ hend
      apply ends_modify_bind
      have hlog := hend.2
      have hres : (true, s'.logical) = expired key whenMs now flags s.logical := by
        simp [expired, hkey, hrefuse, hpast, hlog]
      exact ends_pure ⟨signal_valid hend.1, hres⟩

/-- An EXPIRE with a deadline to come leaves a valid store, refused or not, unless it is
undefined. -/
theorem expireAtMs_valid {whenMs now : ℕ} {flags : ExpireFlags} (h : s.Valid) {script : Script}
    (hfuture : ¬whenMs ≤ now)
    (hdefined : (expireAtMs key whenMs now flags s script).result ≠ .error .undefinedBehavior) :
    (expireAtMs key whenMs now flags s script).state.Valid := by
  obtain ⟨rest, -, ⟨done, s', hrun, hend⟩ | ⟨thrown, s', hrun, hend⟩⟩ :=
    (expireAtMs_ends h : Ends (expireAtMs key whenMs now flags) s script _ _).run
  · rw [hrun]
    exact hend.1
  · rw [hrun] at hdefined ⊢
    rcases hend with hpast | hundefined | hsame
    · exact absurd hpast.1 hfuture
    · exact absurd (congrArg Except.error hundefined) hdefined
    · exact hsame.valid

/-- PERSIST on the logical view. -/
def persisted (key : Bytes) (logical : Logical α) : Bool × Logical α :=
  match logical key with
  | some (object, some _) => (true, update logical key (some (object, none)))
  | _ => (false, logical)

theorem persist_ends {E : Thrown → Store α → Prop} (h : s.Valid) (script : Script) :
    Ends (persist key) s script
      (fun removed s' ↦ s'.Valid ∧ (removed, s'.logical) = persisted key s.logical) E := by
  apply ends_get_bind
  cases hid : s.keyspace.findId key with
  | none => exact ends_pure ⟨h, by simp [persisted, logical_eq_none hid]⟩
  | some id =>
    rcases h.entry_of_findId hid with ⟨object, hent⟩
    have hkey := h.logical_of_entry hent
    apply (onTtl_clear_ends h hent).bind
    intro removed s₁ rest _ hend
    have hres : (removed, s₁.logical) = persisted key s.logical := by
      rw [hend.2.1, hend.2.2.2.2, persisted, hkey]
      cases hexp : s.ttl.expiry id with
      | none => simp [← hexp, ← hkey, update_eq_self]
      | some expiry => rfl
    apply (signalWhen_ends hend.1).bind
    intro _ s' _ _ hdone
    exact ends_pure ⟨hdone.1, by rw [hdone.2, hres]⟩

/-! ## The sweep -/

theorem soonest_eq (h : s.Valid) : s.soonest = s.ttl.order.toList.head? := by
  unfold soonest
  split
  · rename_i hsize
    rcases h.ttl.order with hvalid | hbegun
    · rw [hvalid.size_eq] at hsize
      rw [length_eq_zero_iff.mp hsize]
      rfl
    · obtain ⟨capacity, hblks⟩ := hbegun.blocks
      simp [ChunkedSortedList.toList, hblks]
  · rfl

/-- Every expiry of the logical view has its entry in the order. -/
theorem Valid.entry_mem (h : s.Valid) {expiry : PackedU48}
    (hkey : s.logical key = some (object, some expiry)) :
    ∃ id, s.keyspace.entries[id]? = some (key, object) ∧
      TtlEntry.make expiry (.make id) ∈ s.ttl.order.toList := by
  cases hid : s.keyspace.findId key with
  | none => simp [logical_eq_none hid] at hkey
  | some id =>
    rcases h.entry_of_findId hid with ⟨found, hent⟩
    rw [h.logical_of_entry hent] at hkey
    have hpair := Prod.mk.inj (Option.some.inj hkey)
    refine ⟨id, hpair.1 ▸ hent, ?_⟩
    exact (h.ttl.describes.mem_iff _ _).mpr hpair.2

/-- The front of the order is the entry of a key, and no key expires sooner. -/
theorem Valid.front (h : s.Valid) {front : TtlEntry} (hfront : s.soonest = some front) :
    ∃ key object, s.keyspace.entries[front.key.val]? = some (key, object) ∧
      s.logical key = some (object, some front.expiryMs) ∧
      s.ttl.expiries front.key = some front.expiryMs ∧ front ∈ s.ttl.order.toList ∧
      ∀ other found later, s.logical other = some (found, some later) → front.expiryMs ≤ later := by
  rw [soonest_eq h] at hfront
  rcases head?_eq_some_iff.mp hfront with ⟨rest, hlist⟩
  have hmem := hlist ▸ mem_cons_self
  have hexp : s.ttl.expiries front.key = some front.expiryMs :=
    (h.ttl.describes.mem_iff _ _).mp hmem
  have hlive := h.live front.key (by simp [hexp])
  have hent := getElem?_eq_getElem hlive
  have hmade : PackedU48.make front.key.val = front.key := (fin_eq_make rfl).symm
  refine ⟨_, _, hent, ?_, hexp, hmem, ?_⟩
  · rw [h.logical_of_entry hent, expiry_eq, hmade, hexp]
  intro other found later hoth
  rcases h.entry_mem hoth with ⟨otherId, _, hotherMem⟩
  have hsorted := (h.ttl.order_of_mem hmem).sorted
  rw [hlist] at hotherMem hsorted
  rcases mem_cons.mp hotherMem with heq | hrest
  · rw [← heq]
    exact le_rfl
  · have hle := (pairwise_cons.mp hsorted).1 _ hrest
    exact (Prod.Lex.le_iff.mp hle).elim le_of_lt fun hsame ↦ le_of_eq hsame.1

theorem dropFront_ends {E : Thrown → TtlSet → Prop} {ttl : TtlSet} {front : TtlEntry}
    (h : ttl.Valid) (hmem : front ∈ ttl.order.toList) {script : Script} :
    Ends (dropFront front) ttl script
      (fun _ ttl' ↦ ttl'.Valid ∧ ttl'.expiries = update ttl.expiries front.key none) E := by
  apply (eraseOrder_ends (h.order_of_mem hmem) hmem).bind
  intro _ ttl₁ _ _ herased
  apply ends_modify
  have hexps : (ttl₁.eraseIndex front.key).expiries = update ttl.expiries front.key none := by
    rw [expiries_eraseIndex, herased.1]
  have hbef : TtlSet.Describes (TtlEntry.make front.expiryMs front.key :: ttl₁.order.toList)
      ttl.expiries := h.describes.perm herased.2.2.symm
  have hdescribes := hbef.tail
  rw [← hexps] at hdescribes
  exact ⟨⟨.inl herased.2.1, hdescribes⟩, hexps⟩

/-- The state of a sweep once the front entry is dropped from the expiry set. -/
theorem onTtl_dropFront_ends {E : Thrown → Store α → Prop} {front : TtlEntry} (h : s.Valid)
    (hent : s.keyspace.entries[front.key.val]? = some (key, object))
    (hmem : front ∈ s.ttl.order.toList) (script : Script) :
    Ends (onTtl (dropFront front)) s script
      (fun _ s' ↦ s'.Valid ∧ s'.keyspace = s.keyspace ∧ s'.ttl.expiry front.key.val = none ∧
        s'.logical = update s.logical key (some (object, none))) E := by
  apply (dropFront_ends h.ttl hmem).zoom
  · intro _ ttl hend
    have hmade : front.key = PackedU48.make front.key.val := fin_eq_make rfl
    have hexps := hend.2
    rw [hmade] at hexps
    refine ⟨⟨h.keyspace, hend.1, ?_⟩, rfl, ?_, h.logical_update hent hexps⟩
    · intro packed hsome
      rw [hend.2] at hsome
      by_cases hid : packed = front.key
      · rw [hid, update_self] at hsome
        exact absurd rfl hsome
      · rw [update_of_ne hid] at hsome
        exact h.live packed hsome
    · rw [expiry_eq, hexps, update_self]
  · exact fun _ _ hfalse ↦ hfalse

/-- The sweep removes keys that are due, soonest first; a refused rekeying leaves the expiry set
in disagreement with the live ids. -/
theorem activeExpire_ends (now budget : ℕ) (h : s.Valid) (script : Script) :
    Ends (activeExpire now budget) s script
      (fun count s' ↦ s'.Valid ∧ Sweep now budget s.logical count s'.logical)
      (fun thrown s' ↦ thrown = .maxMemoryExceeded ∧ true ∈ script ∧ ¬s'.TtlAgrees) := by
  induction budget generalizing s script with
  | zero => exact ends_pure ⟨h, Sweep.spent _⟩
  | succ budget ih =>
    apply ends_get_bind
    cases hfront : s.soonest with
    | none =>
      refine ends_pure ⟨h, Sweep.done _ _ fun key hdue ↦ ?_⟩
      rcases due_iff.mp hdue with ⟨object, expiry, hkey, -⟩
      rcases h.entry_mem hkey with ⟨id, -, hmem⟩
      rw [soonest_eq h, head?_eq_none_iff] at hfront
      rw [hfront] at hmem
      exact not_mem_nil hmem
    | some front =>
      rcases h.front hfront with ⟨key, object, hent, hkey, hexp, hmem, hsoonest⟩
      by_cases hlater : now < front.expiryMs.val
      · simp only [hlater, if_true]
        refine ends_pure ⟨h, Sweep.done _ _ fun other hdue ↦ ?_⟩
        rcases due_iff.mp hdue with ⟨found, expiry, hoth, hle⟩
        have hge : front.expiryMs.val ≤ expiry.val := hsoonest other found expiry hoth
        omega
      · simp only [hlater, if_false]
        apply (onTtl_dropFront_ends h hent hmem script).bind
        intro _ s₁ rest hsuf hdropped
        have hent₁ := hdropped.2.1 ▸ hent
        apply ((eraseKeyspaceAt_ends hdropped.1 hent₁ hdropped.2.2.1 rest).mono_throw
          fun _ _ hlost ↦ ⟨hlost.thrown_eq, hsuf.mem hlost.refused, hlost.disagrees⟩).bind
        intro _ s₂ rest' hsuf' herased
        apply ((ih herased.1 rest').mono_throw fun _ _ hlost ↦
          ⟨hlost.1, (hsuf'.trans hsuf).mem hlost.2.1, hlost.2.2⟩).bind
        intro count s₃ _ _ hswept
        apply ends_pure
        have hlog : s₂.logical = update s.logical key none := by
          rw [herased.2, hdropped.2.2.2, update_idem]
        rw [hlog] at hswept
        exact ⟨hswept.1, Sweep.expire key object front.expiryMs hkey (Nat.le_of_not_lt hlater)
          hsoonest hswept.2⟩

end Store

end GoblinCore
