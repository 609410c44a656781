import GoblinCore.Store.Expiry

/-!
# Removals under a memory ceiling

Every way of removing a key ends in a swap-remove, after which the expiry of the last key must be
rekeyed.  Rekeying inserts into the expiry order and into the index of the expiry set, and either
insertion may be refused memory.  A removal leaves every other key alone exactly when that does
not happen.
-/

namespace GoblinCore

open Refusable MemoryLimit Function Comp Keyspace List

/-- What the store needs to know about aggregate values. -/
class Aggregate (α : Type) where
  empty : α → Bool

namespace Store

variable {α : Type}

section Operations

variable [Aggregate α]

/-- The removal of elements from an aggregate, with `erase_if_empty` after it. -/
def removeElements (key : Bytes) (change : α → α) : StoreComp (Store α) Unit := do
  let s ← Comp.get
  match s.keyspace.findId key with
  | none => pure ()
  | some id =>
    match s.keyspace.entries[id]? with
    | some (_, .aggregate value) =>
      Comp.modify fun s ↦
        { s with keyspace := s.keyspace.setObject id (.aggregate (change value)) }
      if Aggregate.empty (change value) then
        removeAt id
      else
        signalKeyModified key
    | _ => pure ()

/-- The operations that remove keys. -/
inductive Removal (α : Type) where
  | del (key : Bytes)
  | purgeIfExpired (key : Bytes) (now : ℕ)
  | activeExpire (now budget : ℕ)
  | expireAtMs (key : Bytes) (whenMs now : ℕ) (flags : ExpireFlags) (past : whenMs ≤ now)
  | removeElements (key : Bytes) (change : α → α)

def Removal.run : Removal α → StoreComp (Store α) Unit
  | .del key => do
    let _ ← eraseKey key
    pure ()
  | .purgeIfExpired key now => do
    let _ ← Store.purgeIfExpired key now
    pure ()
  | .activeExpire now budget => do
    let _ ← Store.activeExpire now budget
    pure ()
  | .expireAtMs key whenMs now flags _ => do
    let _ ← Store.expireAtMs key whenMs now flags
    pure ()
  | .removeElements key change => Store.removeElements key change

/-- The keys a removal is meant to delete. -/
def Removal.deletes (s : Store α) : Removal α → Bytes → Prop
  | .del key => fun other ↦ other = key
  | .purgeIfExpired key _ => fun other ↦ other = key
  | .activeExpire now _ => Due now s.logical
  | .expireAtMs key _ _ _ _ => fun other ↦ other = key
  | .removeElements key _ => fun other ↦ other = key

end Operations

/-- Every key outside `deleted` keeps its value and its expiry, and the expiry set still describes
one set of pairs over live ids. -/
structure Spares (deleted : Bytes → Prop) (s s' : Store α) : Prop where
  others : ∀ key, ¬deleted key → s'.logical key = s.logical key
  agrees : s'.TtlAgrees

/-! ## When the rekeying is refused -/

/-- Erasing id `id` of `count` slides a key with an expiry, and a request for memory that its
rekeying makes is refused. -/
def SlideRefused (count : ℕ) (ttl : TtlSet) (id : ℕ) (script : Script) : Prop :=
  id ≠ count - 1 ∧ ttl.expiry (count - 1) ≠ none ∧ Throws (TtlSet.rekey (count - 1) id) ttl script

/-- The same for a removal that first clears the expiry of `id`. -/
def RemovalRefused (s : Store α) (id : ℕ) (script : Script) : Prop :=
  let cleared := TtlSet.clear id s.ttl script
  SlideRefused s.keyspace.entries.length cleared.state id cleared.script

/-- Some removal of a sweep has its rekeying refused. -/
def SweepRefused (now : ℕ) : ℕ → Store α → Script → Prop
  | 0, _, _ => False
  | budget + 1, s, script => ∃ front, s.soonest = some front ∧ front.expiryMs.val ≤ now ∧
    let dropped := onTtl (dropFront front) s script
    let erased := eraseKeyspaceAt front.key.val dropped.state dropped.script
    (SlideRefused s.keyspace.entries.length dropped.state.ttl front.key.val dropped.script ∨
      ¬SlideRefused s.keyspace.entries.length dropped.state.ttl front.key.val dropped.script ∧
        SweepRefused now budget erased.state erased.script)

def Removal.Refused [Aggregate α] (s : Store α) (script : Script) : Removal α → Prop
  | .del key => ∃ id, s.keyspace.findId key = some id ∧ RemovalRefused s id script
  | .purgeIfExpired key now => ∃ id, s.keyspace.findId key = some id ∧
    isDue now (s.ttl.expiry id) = true ∧ RemovalRefused s id script
  | .activeExpire now budget => SweepRefused now budget s script
  | .expireAtMs key whenMs _ flags _ => ∃ id, s.keyspace.findId key = some id ∧
    flags.refuse (s.ttl.expiry id) whenMs = false ∧ RemovalRefused s id script
  | .removeElements key change => ∃ id value, s.keyspace.findId key = some id ∧
    s.keyspace.entries[id]? = some (key, .aggregate value) ∧
    Aggregate.empty (change value) = true ∧ RemovalRefused s id script

variable {s : Store α} {key : Bytes} {id : ℕ} {object : Object α}

theorem throws_eraseKeyspaceAt_iff (h : s.Valid)
    (hent : s.keyspace.entries[id]? = some (key, object)) (hcleared : s.ttl.expiry id = none)
    (script : Script) :
    Throws (eraseKeyspaceAt id) s script ↔
      SlideRefused s.keyspace.entries.length s.ttl id script := by
  have hlt := lt_of_getElem? hent
  by_cases hlast : id = s.keyspace.entries.length - 1
  · have hrun : eraseKeyspaceAt id s script = ⟨.ok (), s.withoutEntry id, script⟩ := by
      simp [eraseKeyspaceAt, eraseAt_last hent hlast]
    simp [Throws, hrun, SlideRefused, ← hlast]
  · have hmoved := getElem?_eq_getElem (l := s.keyspace.entries)
      (i := s.keyspace.entries.length - 1) (by omega)
    have hrun : eraseKeyspaceAt id s script =
        onTtl (TtlSet.rekey (s.keyspace.entries.length - 1) id) (s.withoutEntry id) script := by
      simp [eraseKeyspaceAt, eraseAt_slide hent hmoved hlast]
    have hthrows : Throws (eraseKeyspaceAt id) s script ↔
        Throws (TtlSet.rekey (s.keyspace.entries.length - 1) id) s.ttl script := by
      unfold Throws
      rw [hrun]
      rfl
    rw [hthrows]
    constructor
    · intro hthrow
      have hne := make_ne (h.id_lt hmoved) (h.id_lt hent) (Ne.symm hlast)
      rcases (TtlSet.rekey_ends _ id h.ttl hne hcleared script).of_throws hthrow with ⟨_, hlost⟩
      exact ⟨hlast, hlost.had_expiry, hthrow⟩
    · exact fun hrefused ↦ hrefused.2.2

variable {script : Script} {deleted : Bytes → Prop} {n : ℕ}

theorem throws_removeAt_iff (h : s.Valid) (hent : s.keyspace.entries[id]? = some (key, object)) :
    Throws (removeAt id) s script ↔ RemovalRefused s id script := by
  obtain ⟨hreturns, value, hres, hvalid, -, hks, hcleared, -⟩ :=
    (onTtl_clear_ends h hent).returned
  have hent₁ := hks ▸ hent
  unfold removeAt
  rw [throws_bind_iff]
  have hnext := throws_eraseKeyspaceAt_iff hvalid hent₁ hcleared
    (onTtl (TtlSet.clear id) s script).script
  constructor
  · rintro (hthrows | ⟨_, _, hthrows⟩)
    · exact absurd hthrows hreturns
    · exact hnext.mp hthrows
  · exact fun hrefused ↦ .inr ⟨value, hres, hnext.mpr hrefused⟩

theorem throws_removing_iff (h : s.Valid) (hent : s.keyspace.entries[id]? = some (key, object))
    {body : StoreComp (Store α) Bool}
    (hrun : body s script = (do removeAt id; pure true : StoreComp _ _) s script) :
    Throws body s script ↔ RemovalRefused s id script := by
  rw [throws_congr hrun, throws_bind_pure_iff, throws_removeAt_iff h hent]

theorem throws_activeExpire_iff (now budget : ℕ) (h : s.Valid) (script : Script) :
    Throws (activeExpire now budget) s script ↔ SweepRefused now budget s script := by
  induction budget generalizing s script with
  | zero => simp [Throws, activeExpire, SweepRefused]
  | succ budget ih =>
    cases hfront : s.soonest with
    | none => simp [Throws, activeExpire, SweepRefused, hfront]
    | some front =>
      by_cases hlater : now < front.expiryMs.val
      · simp [Throws, activeExpire, SweepRefused, hfront, hlater]
      rcases h.front hfront with ⟨key, object, hent, -, -, hmem, -⟩
      obtain ⟨hreturns, value, hres, hvalid, hks, hcleared, -⟩ :=
        (onTtl_dropFront_ends h hent hmem script).returned
      generalize hdropped : onTtl (dropFront front) s script = dropped at *
      have hent₁ := hks ▸ hent
      have herase := throws_eraseKeyspaceAt_iff hvalid hent₁ hcleared dropped.script
      rw [hks] at herase
      have hstep : Throws (activeExpire now (budget + 1)) s script ↔
          Throws (do
            onTtl (dropFront front)
            eraseKeyspaceAt front.key.val
            let expired ← activeExpire now budget
            pure (expired + 1)) s script := by
        simp [Throws, activeExpire, hfront, hlater]
      rw [hstep, throws_bind_iff, hdropped]
      simp only [SweepRefused, hfront, Option.some.injEq, exists_eq_left', hdropped,
        Nat.le_of_not_lt hlater, true_and, hreturns, false_or, hres]
      rw [throws_bind_iff, herase]
      by_cases hslide : SlideRefused s.keyspace.entries.length dropped.state.ttl front.key.val
          dropped.script
      · simp [hslide]
      have hend := (eraseKeyspaceAt_ends hvalid hent₁ hcleared dropped.script).of_not_throws
        fun hthrows ↦ hslide (herase.mp hthrows)
      rcases hend with ⟨erasedValue, herased, hvalid₂, -⟩
      have hrest := ih hvalid₂ (eraseKeyspaceAt front.key.val dropped.state dropped.script).script
      simp only [hslide, herased, throws_bind_iff, hrest, false_or, not_false_eq_true, true_and]
      simp [Throws]

/-! ## A removal leaves every other key alone exactly when no rekeying is refused -/

theorem Spares.of_update {s' : Store α} (hvalid : s'.Valid) (hkey : deleted key)
    {new : Option (Object α × Option PackedU48)} (hlog : s'.logical = update s.logical key new) :
    Spares deleted s s' := by
  refine ⟨?_, hvalid.agrees⟩
  intro other hoth
  have hne : other ≠ key := fun heq ↦ hoth (heq ▸ hkey)
  rw [hlog, update_of_ne hne]

/-- A removal that found nothing to remove. -/
theorem spares_refl (h : s.Valid) : s.Valid ∧ Spares deleted s s :=
  ⟨h, fun _ _ ↦ rfl, h.agrees⟩

theorem ends_ignore {β : Type} {body : StoreComp (Store α) β} {Q : Store α → Prop}
    {E : Thrown → Store α → Prop} (h : Ends body s script (fun _ s' ↦ Q s') E) :
    Ends (do let _ ← body; pure ()) s script (fun _ s' ↦ Q s') E := by
  apply h.bind
  intro _ s' _ _ hend
  exact ends_pure hend

/-- `removeAt` at the id of `key`, from a store that differs from `s` at `key` only. -/
theorem removeAt_spares {s₁ : Store α} {new : Option (Object α × Option PackedU48)} (h : s₁.Valid)
    (hent : s₁.keyspace.entries[id]? = some (key, object))
    (hlog : s₁.logical = update s.logical key new) :
    Ends (removeAt id) s₁ script (fun _ s' ↦ s'.Valid ∧ Spares (fun other ↦ other = key) s s')
      (fun _ s' ↦ ¬s'.TtlAgrees) := by
  apply (removeAt_ends h hent script).mono
  · intro _ s' hend
    have haft := hend.2
    rw [hlog, update_idem] at haft
    exact ⟨hend.1, Spares.of_update hend.1 rfl haft⟩
  · exact fun _ _ hlost ↦ hlost.disagrees

section Main

variable [Aggregate α]

theorem Removal.run_ends (removal : Removal α) (h : s.Valid) (script : Script) :
    Ends removal.run s script (fun _ s' ↦ s'.Valid ∧ Spares (removal.deletes s) s s')
      (fun _ s' ↦ ¬s'.TtlAgrees) := by
  cases removal with
  | del key =>
    apply ends_ignore
    apply (eraseKey_ends key h script).mono
    · exact fun _ s' hend ↦ ⟨hend.1, Spares.of_update hend.1 rfl hend.2.2⟩
    · exact fun _ _ hlost ↦ hlost.disagrees
  | purgeIfExpired key now =>
    apply ends_ignore
    apply (purgeIfExpired_ends key now h script).mono
    · intro _ s' hend
      have hlog := hend.2.2
      unfold purged at hlog
      split at hlog
      · exact ⟨hend.1, Spares.of_update hend.1 rfl hlog⟩
      · exact ⟨hend.1, fun _ _ ↦ by rw [hlog], hend.1.agrees⟩
    · exact fun _ _ hlost ↦ hlost.disagrees
  | activeExpire now budget =>
    apply ends_ignore
    apply (activeExpire_ends now budget h script).mono
    · exact fun _ s' hend ↦ ⟨hend.1, fun _ hkey ↦ hend.2.of_not_due hkey, hend.1.agrees⟩
    · exact fun _ _ hlost ↦ hlost.2.2
  | expireAtMs key whenMs now flags past =>
    apply ends_ignore
    apply ends_get_bind
    cases hid : s.keyspace.findId key with
    | none => exact ends_pure (spares_refl h)
    | some id =>
      rcases h.entry_of_findId hid with ⟨object, hent⟩
      by_cases hrefuse : flags.refuse (s.ttl.expiry id) whenMs = true
      · simp only [hrefuse, if_true]
        exact ends_pure (spares_refl h)
      simp only [hrefuse, past, if_true]
      have hsame := (update_eq_self key s.logical).symm
      apply (removeAt_spares h hent hsame).bind
      intro _ s' _ _ hend
      exact ends_pure hend
  | removeElements key change =>
    apply ends_get_bind
    cases hid : s.keyspace.findId key with
    | none => exact ends_pure (spares_refl h)
    | some id =>
      rcases h.entry_of_findId hid with ⟨object, hent⟩
      cases object with
      | str value =>
        simp only [hent]
        exact ends_pure (spares_refl h)
      | aggregate value =>
        simp only [hent]
        apply ends_modify_bind
        have hchg := setObject_logical h hent (.aggregate (change value))
        have hent' := setObject_entry hent (.aggregate (change value))
        split
        · exact removeAt_spares hchg.1 hent' hchg.2
        apply ends_modify
        have hspared : Spares (fun other ↦ other = key) s
            { s with keyspace := s.keyspace.setObject id (.aggregate (change value)) } :=
          Spares.of_update hchg.1 rfl hchg.2
        exact ⟨signal_valid hchg.1, hspared.others, hspared.agrees.describes, hspared.agrees.live⟩

theorem Removal.throws_run_iff (removal : Removal α) (h : s.Valid) (script : Script) :
    Throws removal.run s script ↔ removal.Refused s script := by
  cases removal with
  | del key =>
    rw [Removal.run, throws_bind_pure_iff]
    cases hid : s.keyspace.findId key with
    | none => simp [Throws, eraseKey, Removal.Refused, hid]
    | some id =>
      rcases h.entry_of_findId hid with ⟨object, hent⟩
      rw [throws_removing_iff h hent (by simp [eraseKey, hid])]
      simp [Removal.Refused, hid]
  | purgeIfExpired key now =>
    rw [Removal.run, throws_bind_pure_iff]
    by_cases hemp : s.ttl.empty = true
    · simp [Throws, Store.purgeIfExpired, Removal.Refused, hemp, expiry_of_empty hemp, isDue]
    cases hid : s.keyspace.findId key with
    | none => simp [Throws, Store.purgeIfExpired, Removal.Refused, hemp, hid]
    | some id =>
      rcases h.entry_of_findId hid with ⟨object, hent⟩
      by_cases hdue : isDue now (s.ttl.expiry id) = true
      · rw [throws_removing_iff h hent (by simp [Store.purgeIfExpired, hemp, hid, hdue])]
        simp [Removal.Refused, hid, hdue]
      · simp [Throws, Store.purgeIfExpired, Removal.Refused, hemp, hid, hdue]
  | activeExpire now budget =>
    rw [Removal.run, throws_bind_pure_iff]
    exact throws_activeExpire_iff now budget h script
  | expireAtMs key whenMs now flags past =>
    rw [Removal.run, throws_bind_pure_iff]
    cases hid : s.keyspace.findId key with
    | none => simp [Throws, Store.expireAtMs, Removal.Refused, hid]
    | some id =>
      rcases h.entry_of_findId hid with ⟨object, hent⟩
      by_cases hrefuse : flags.refuse (s.ttl.expiry id) whenMs = true
      · simp [Throws, Store.expireAtMs, Removal.Refused, hid, hrefuse]
      · rw [throws_removing_iff h hent (by simp [Store.expireAtMs, hid, hrefuse, past])]
        simp [Removal.Refused, hid, hrefuse]
  | removeElements key change =>
    cases hid : s.keyspace.findId key with
    | none => simp [Throws, Removal.run, Store.removeElements, Removal.Refused, hid]
    | some id =>
      rcases h.entry_of_findId hid with ⟨object, hent⟩
      cases object with
      | str value =>
        simp [Throws, Removal.run, Store.removeElements, Removal.Refused, hid, hent]
      | aggregate value =>
        by_cases hemp : Aggregate.empty (change value) = true
        · have hchg := setObject_logical h hent (.aggregate (change value))
          have hent' := setObject_entry hent (.aggregate (change value))
          have hrun : Store.removeElements key change s script =
              removeAt id { s with
                keyspace := s.keyspace.setObject id (.aggregate (change value)) } script := by
            simp [Store.removeElements, hid, hent, hemp]
          rw [Removal.run, throws_congr hrun, throws_removeAt_iff hchg.1 hent']
          have hcnt : (s.keyspace.setObject id (.aggregate (change value))).entries.length =
              s.keyspace.entries.length := by
            simp [Keyspace.setObject]
          simp [Removal.Refused, hid, hent, hemp, RemovalRefused, hcnt]
        · simp [Throws, Removal.run, Store.removeElements, Removal.Refused, hid, hent,
            hemp, signalKeyModified]

inductive Reached : Store α → Prop where
  | new : Reached {}
  | create {s : Store α} (h : Reached s) (key : Bytes) (object : Object α) (script : Script)
    (hnew : s.keyspace.findId key = none) :
    Reached (onKeyspace (createKey key object) s script).state
  | overwrite {s : Store α} (h : Reached s) (id : ℕ) (object : Object α) :
    Reached { s with keyspace := s.keyspace.setObject id object }
  | expire {s : Store α} (h : Reached s) (key : Bytes) (whenMs now : ℕ) (flags : ExpireFlags)
    (script : Script) (hfuture : now < whenMs)
    (hdefined : (expireAtMs key whenMs now flags s script).result ≠ .error .undefinedBehavior) :
    Reached (expireAtMs key whenMs now flags s script).state
  | persist {s : Store α} (h : Reached s) (key : Bytes) (script : Script) :
    Reached (Store.persist key s script).state
  | remove {s : Store α} (h : Reached s) (removal : Removal α) (script : Script)
    (hgranted : ¬removal.Refused s script) : Reached (removal.run s script).state

theorem Reached.valid (h : Reached s) : s.Valid := by
  induction h with
  | new => exact empty_valid
  | create _ key object script hnew ih => exact createKey_valid ih hnew script
  | overwrite _ id object ih => exact setObject_valid ih
  | expire _ key whenMs now flags script hfuture hdefined ih =>
    exact expireAtMs_valid ih (Nat.not_le.mpr hfuture) hdefined
  | persist _ key script ih =>
    have hends : Ends (Store.persist key) _ script _ fun _ _ ↦ False := persist_ends ih script
    obtain ⟨-, -, -, hvalid, -⟩ := hends.returned
    exact hvalid
  | remove _ removal script hgranted ih =>
    obtain ⟨-, -, hvalid, -⟩ := (removal.run_ends ih script).of_not_throws
      fun hthrows ↦ hgranted ((removal.throws_run_iff ih script).mp hthrows)
    exact hvalid

end Main

/-! ## A full block of expiries

With 257 keys, of which all but the first have an expiry, the one block of the expiry order is
full.  Deleting the first key slides the last one, and its new entry needs a larger block. -/

instance : Aggregate (List Bytes) := ⟨isEmpty⟩

/-- The keys of the example differ in length only. -/
def zeros (n : ℕ) : Bytes := replicate n 0

theorem zeros_ne {first second : ℕ} (h : first ≠ second) : zeros first ≠ zeros second := by
  intro heq
  apply h
  have hlen := congrArg length heq
  simpa [zeros] using hlen

def zeroKeys : ℕ → Keyspace (List Bytes)
  | 0 => {}
  | n + 1 => (zeroKeys n).push (zeros n) (.str [])

theorem zeroKeys_length (n : ℕ) : (zeroKeys n).entries.length = n := by
  induction n with
  | zero => rfl
  | succ n ih => simp [zeroKeys, push, ih]

theorem zeroKeys_findId (key : ℕ) :
    (zeroKeys n).findId (zeros key) = if key < n then some key else none := by
  induction n with
  | zero => simp [zeroKeys, findId]
  | succ n ih =>
    rw [zeroKeys, findId_push, zeroKeys_length]
    by_cases hkey : key = n
    · subst key
      simp
    · rw [update_of_ne (zeros_ne hkey), ih]
      by_cases hlt : key < n
      · simp [hlt, Nat.lt_succ_of_lt hlt]
      · rw [if_neg hlt, if_neg (by omega)]

theorem zeroKeys_valid (h : n ≤ 2 ^ 48) : (zeroKeys n).Valid := by
  induction n with
  | zero => exact ⟨by simp [zeroKeys, findId], by simp [zeroKeys]⟩
  | succ n ih =>
    apply push_valid (ih (by omega))
    · simp [zeroKeys_findId]
    · rw [zeroKeys_length]
      omega

/-- Ids `1` to `n` expire at the same time. -/
def equalExpiries : ℕ → TtlSet
  | 0 => { order := { blocksCapacity := 1, maxesCapacity := 1 } }
  | n + 1 =>
    { order :=
        { blocks := [{ items := (equalExpiries n).order.toList ++ [.make 1000 (.make (n + 1))]
                       capacity := 256 }]
          blocksCapacity := 1
          maxesCapacity := 1
          size := n + 1 }
      index := (equalExpiries n).index.insert (.make (n + 1)) 1000 }

theorem equalExpiries_expiries (n : ℕ) : (equalExpiries (n + 1)).expiries =
    update (equalExpiries n).expiries (.make (n + 1)) (some 1000) :=
  TtlSet.expiries_assignIndex

theorem equalExpiries_expiry (n id : ℕ) (hn : n < 2 ^ 48) (hid : id < 2 ^ 48) :
    (equalExpiries n).expiry id = if 0 < id ∧ id ≤ n then some 1000 else none := by
  induction n with
  | zero =>
    rw [if_neg (by omega)]
    rfl
  | succ n ih =>
    rw [TtlSet.expiry_eq, equalExpiries_expiries]
    by_cases hsame : id = n + 1
    · subst id
      simp
    · rw [update_of_ne (make_ne hid hn hsame), ← TtlSet.expiry_eq, ih (by omega)]
      have hiff : 0 < id ∧ id ≤ n + 1 ↔ 0 < id ∧ id ≤ n := by omega
      simp only [hiff]

theorem equalExpiries_items : (equalExpiries (n + 1)).order.toList =
    (equalExpiries n).order.toList ++ [.make 1000 (.make (n + 1))] := by
  simp [equalExpiries, ChunkedSortedList.toList]

theorem equalExpiries_length : (equalExpiries n).order.toList.length = n := by
  induction n with
  | zero => rfl
  | succ n ih => simp [equalExpiries_items, ih]

theorem make_le_succ (hn : n + 1 < 2 ^ 48) :
    TtlEntry.make 1000 (.make n) ≤ TtlEntry.make 1000 (.make (n + 1)) := by
  refine Prod.Lex.toLex_le_toLex.mpr (.inr ⟨rfl, ?_⟩)
  change (PackedU48.make n).val ≤ (PackedU48.make (n + 1)).val
  rw [make_val (by omega), make_val hn]
  exact Nat.le_succ n

theorem equalExpiries_le (n : ℕ) (hn : n < 2 ^ 48) :
    ∀ entry ∈ (equalExpiries n).order.toList, entry ≤ TtlEntry.make 1000 (.make n) := by
  induction n with
  | zero => simp [equalExpiries, ChunkedSortedList.toList]
  | succ n ih =>
    intro entry hent
    rw [equalExpiries_items, mem_append, mem_singleton] at hent
    rcases hent with hent | rfl
    · exact (ih (by omega) entry hent).trans (make_le_succ hn)
    · exact le_rfl

theorem equalExpiries_sorted (n : ℕ) (hn : n < 2 ^ 48) :
    (equalExpiries n).order.toList.Pairwise (· ≤ ·) := by
  induction n with
  | zero => exact List.Pairwise.nil
  | succ n ih =>
    rw [equalExpiries_items]
    refine pairwise_append.mpr ⟨ih (by omega), pairwise_singleton _ _, ?_⟩
    intro entry hent last hlast
    rw [mem_singleton.mp hlast]
    exact (equalExpiries_le n (by omega) entry hent).trans (make_le_succ hn)

theorem equalExpiries_valid (n : ℕ) (hn : n < 2 ^ 48) : (equalExpiries n).Valid := by
  induction n with
  | zero => exact TtlSet.valid_of_empty rfl rfl rfl
  | succ n ih =>
    have hvalid := ih (by omega)
    refine ⟨.inl ⟨?_, equalExpiries_sorted (n + 1) hn, ?_⟩, ?_⟩
    · simp [equalExpiries, ChunkedSortedList.AllNonempty]
    · rw [equalExpiries_length]
      rfl
    · have hnone : (equalExpiries n).expiries (.make (n + 1)) = none := by
        rw [← TtlSet.expiry_eq, equalExpiries_expiry n (n + 1) (by omega) hn, if_neg (by omega)]
      rw [equalExpiries_expiries, equalExpiries_items]
      exact (hvalid.describes.cons hnone 1000).perm (perm_append_singleton _ _)

def crowded : Store (List Bytes) where
  keyspace := zeroKeys 257
  ttl := equalExpiries 256

theorem crowded_valid : crowded.Valid := by
  refine ⟨zeroKeys_valid (by decide), equalExpiries_valid 256 (by decide), ?_⟩
  intro packed hsome
  by_contra hge
  apply hsome
  have hlen : crowded.keyspace.entries.length = 257 := zeroKeys_length 257
  have hexp := equalExpiries_expiry 256 packed.val (by decide) packed.isLt
  rw [if_neg (by omega), TtlSet.expiry_eq, ← fin_eq_make rfl] at hexp
  exact hexp

theorem crowded_refused : RemovalRefused crowded 0 [true] := by
  have hfst := equalExpiries_expiry 256 0 (by decide) (by decide)
  have hlast := equalExpiries_expiry 256 256 (by decide) (by decide)
  have hcleared : TtlSet.clear 0 crowded.ttl [true] = ⟨.ok false, crowded.ttl, [true]⟩ := by
    simp [TtlSet.clear, crowded, hfst]
  have hfull : ((equalExpiries 255).order.toList ++
      [TtlEntry.make 1000 (.make (255 + 1))]).length = 256 :=
    equalExpiries_items ▸ equalExpiries_length
  have hrekey : TtlSet.rekey 256 0 crowded.ttl [true] =
      ⟨.error .maxMemoryExceeded, crowded.ttl, []⟩ :=
    TtlSet.rekey_refused_of_full hlast rfl hfull (by decide) 0 []
  have hcnt : crowded.keyspace.entries.length = 257 := zeroKeys_length 257
  simp only [RemovalRefused, hcleared, hcnt]
  refine ⟨by decide, by simp [crowded, hlast], .maxMemoryExceeded, ?_⟩
  rw [hrekey]

/-- The sweep took these keys: due ones that expire no later than those left, and all that are due
unless the budget is spent. -/
structure Swept (now budget : ℕ) (logical : Logical α) (keys : List Bytes) (logical' : Logical α) :
    Prop where
  distinct : keys.Nodup
  within : keys.length ≤ budget
  due : ∀ key ∈ keys, Due now logical key
  left : ∀ key, logical' key = if key ∈ keys then none else logical key
  none_due : keys.length < budget → ∀ key, ¬Due now logical' key
  soonest : ∀ key ∈ keys, ∀ object expiry, logical key = some (object, some expiry) →
    ∀ other found later, logical' other = some (found, some later) → expiry ≤ later

theorem Sweep.swept {now budget count : ℕ} {logical logical' : Logical α}
    (h : Sweep now budget logical count logical') :
    ∃ keys, keys.length = count ∧ Swept now budget logical keys logical' := by
  induction h with
  | spent logical => exact ⟨[], rfl, by constructor <;> simp⟩
  | done budget logical hnone => exact ⟨[], rfl, by constructor <;> simp [hnone]⟩
  | @expire budget count logical logical' swept object expiry hswept hdue hsoonest _ ih =>
    obtain ⟨keys, rfl, hkeys⟩ := ih
    -- The key that goes first is not there for the rest of the sweep.
    have hne : ∀ key ∈ keys, key ≠ swept := by
      rintro key hkey rfl
      simpa [Due, isDue] using hkeys.due key hkey
    refine ⟨swept :: keys, rfl, ⟨?_, ?_, ?_, ?_, ?_, ?_⟩⟩
    · exact nodup_cons.mpr ⟨fun hmem ↦ hne swept hmem rfl, hkeys.distinct⟩
    · exact Nat.succ_le_succ hkeys.within
    · refine forall_mem_cons.mpr ⟨due_iff.mpr ⟨object, expiry, hswept, hdue⟩, fun key hkey ↦ ?_⟩
      simpa [Due, hne key hkey] using hkeys.due key hkey
    · intro key
      rw [hkeys.left]
      by_cases hkey : key = swept <;> simp [hkey]
    · exact fun hlt ↦ hkeys.none_due (Nat.lt_of_succ_lt_succ hlt)
    · refine forall_mem_cons.mpr ⟨fun found sooner hfound other kept later hkept ↦ ?_,
        fun key hkey found sooner hfound ↦ hkeys.soonest key hkey found sooner ?_⟩
      · have hother : logical other = some (kept, some later) := by
          rw [hkeys.left] at hkept
          by_cases hsame : other = swept <;> simp_all
        cases hswept.symm.trans hfound
        exact hsoonest other kept later hother
      · rwa [update_of_ne (hne key hkey)]

/-- A sweep that returns has taken as many keys as it says. -/
theorem activeExpire_sweeps (now budget : ℕ) (h : s.Valid) (script : Script) :
    Ends (activeExpire now budget) s script
      (fun count s' ↦ ∃ keys, keys.length = count ∧ Swept now budget s.logical keys s'.logical)
      (fun thrown _ ↦ thrown = .maxMemoryExceeded ∧ true ∈ script) :=
  (activeExpire_ends now budget h script).mono (fun _ _ hswept ↦ hswept.2.swept)
    fun _ _ hlost ↦ ⟨hlost.1, hlost.2.1⟩

theorem activeExpire_sweeps_crowded : crowded.Valid ∧ Ends (activeExpire 2000 9) crowded []
    (fun count s' ↦ ∃ keys, keys.length = count ∧ Swept 2000 9 crowded.logical keys s'.logical)
    (fun thrown _ ↦ thrown = .maxMemoryExceeded ∧ true ∈ []) :=
  ⟨crowded_valid, activeExpire_sweeps 2000 9 crowded_valid []⟩

end Store

end GoblinCore
