import GoblinCore.Store.Keyspace
import GoblinCore.Ttl.TtlSet

/-!
# The store

A keyspace and the expiries of its keys, which are kept by key id.  `logical` is what a client can
see of a store: for each key its object and its expiry.  Removing a key renumbers the last one, so
its expiry has to be rekeyed; the lemmas here say what a removal does to the logical view when the
rekeying is granted memory and what it leaves behind when it is not.
-/

namespace GoblinCore

open Refusable MemoryLimit Function Comp Keyspace
open Option hiding get_bind

structure Store (α : Type) where
  keyspace : Keyspace α := {}
  ttl : TtlSet := {}
  /-- The keys handed to the mutation observer, in order. -/
  signalled : List Bytes := []

/-- What a store holds under each key: the object and the expiry, if it has one. -/
abbrev Logical (α : Type) := Bytes → Option (Object α × Option PackedU48)

namespace Store

variable {α : Type}

def logical (s : Store α) : Logical α := fun key ↦
  (s.keyspace.findId key).bind fun id ↦
    s.keyspace.entries[id]?.map fun entry ↦ (entry.2, s.ttl.expiry id)

def onKeyspace {β : Type} (body : StoreComp (Keyspace α) β) : StoreComp (Store α) β :=
  Comp.zoom keyspace (fun s ks ↦ { s with keyspace := ks }) body

def onTtl {β : Type} (body : StoreComp TtlSet β) : StoreComp (Store α) β :=
  Comp.zoom ttl (fun s ttl ↦ { s with ttl := ttl }) body

def signalKeyModified (key : Bytes) : StoreComp (Store α) Unit :=
  Comp.modify fun s ↦ { s with signalled := s.signalled ++ [key] }

/-- Take the entry at `id` out of the keyspace, with the signal to the observer. -/
def withoutEntry (id : ℕ) (s : Store α) : Store α :=
  { s with
    keyspace := (s.keyspace.eraseAt id).2
    signalled := s.signalled ++ (s.keyspace.keyForId id).toList }

/-- Erase the key at `id` and rekey the expiry of the key that slid into its place.  The expiry
of `id` itself is the caller's concern. -/
def eraseKeyspaceAt (id : ℕ) : StoreComp (Store α) Unit := do
  let s ← Comp.get
  Comp.modify (withoutEntry id)
  match (s.keyspace.eraseAt id).1 with
  | some move => onTtl (TtlSet.rekey move.source move.target)
  | none => pure ()

/-- `ttl_.clear(id)` followed by `erase_keyspace_at(id)`. -/
def removeAt (id : ℕ) : StoreComp (Store α) Unit := do
  let _ ← onTtl (TtlSet.clear id)
  eraseKeyspaceAt id

def eraseKey (key : Bytes) : StoreComp (Store α) Bool := do
  let s ← Comp.get
  match s.keyspace.findId key with
  | none => pure false
  | some id =>
    removeAt id
    pure true

/-! ## Packed ids -/

theorem make_val {value : ℕ} (h : value < 2 ^ 48) : (PackedU48.make value).val = value :=
  Nat.mod_eq_of_lt h

theorem make_ne {first second : ℕ} (hfst : first < 2 ^ 48) (hsnd : second < 2 ^ 48)
    (hne : first ≠ second) : PackedU48.make first ≠ PackedU48.make second := by
  intro heq
  apply hne
  calc first = (PackedU48.make first).val := (make_val hfst).symm
    _ = (PackedU48.make second).val := congrArg Fin.val heq
    _ = second := make_val hsnd

/-! ## The invariant -/

/-- The entries in expiry order are exactly the pairs of the index, and their ids are live. -/
structure TtlAgrees (s : Store α) : Prop where
  describes : TtlSet.Describes s.ttl.order.toList s.ttl.expiries
  live : ∀ key, s.ttl.expiries key ≠ none → key.val < s.keyspace.entries.length

structure Valid (s : Store α) : Prop where
  keyspace : s.keyspace.Valid
  ttl : s.ttl.Valid
  live : ∀ key, s.ttl.expiries key ≠ none → key.val < s.keyspace.entries.length

theorem Valid.agrees {s : Store α} (h : s.Valid) : s.TtlAgrees := ⟨h.ttl.describes, h.live⟩

theorem empty_valid : ({} : Store α).Valid := by
  refine ⟨⟨?_, by simp⟩, TtlSet.valid_of_empty rfl rfl rfl, ?_⟩
  · intro key id
    simp [findId]
  · intro packed hsome
    exact absurd rfl hsome

variable {s : Store α} {key : Bytes} {id : ℕ} {object : Object α}

theorem signal_valid (h : s.Valid) {keys : List Bytes} :
    ({ s with signalled := keys } : Store α).Valid := ⟨h.keyspace, h.ttl, h.live⟩

theorem signalWhen_ends {condition : Prop} [Decidable condition] {E : Thrown → Store α → Prop}
    {script : Script} (h : s.Valid) :
    Ends (Comp.when condition (signalKeyModified key)) s script
      (fun _ s' ↦ s'.Valid ∧ s'.logical = s.logical) E :=
  ends_when (fun _ ↦ ends_modify ⟨signal_valid h, rfl⟩) fun _ ↦ ⟨h, rfl⟩

theorem Valid.entry_of_findId (h : s.Valid) (hid : s.keyspace.findId key = some id) :
    ∃ object, s.keyspace.entries[id]? = some (key, object) :=
  (h.keyspace.findId_iff key id).mp hid

section

variable (h : s.Valid) (hent : s.keyspace.entries[id]? = some (key, object))
include h hent

theorem Valid.id_lt : id < 2 ^ 48 := by
  have hlt := lt_of_getElem? hent
  have hle := h.keyspace.length_le
  omega

theorem Valid.logical_of_entry : s.logical key = some (object, s.ttl.expiry id) := by
  simp [logical, h.keyspace.findId_of_entry hent, hent]

end

theorem logical_eq_none (hid : s.keyspace.findId key = none) : s.logical key = none := by
  simp [logical, hid]

/-- An id without an entry has no expiry. -/
theorem Valid.expiry_eq_none (h : s.Valid) (hid : s.keyspace.entries.length ≤ id)
    (hlt : id < 2 ^ 48) : s.ttl.expiry id = none := by
  by_contra hsome
  have hlive := h.live (.make id) hsome
  rw [make_val hlt] at hlive
  omega

theorem Valid.id_ne (h : s.Valid) (hid : s.keyspace.findId key = some id) {other : Bytes}
    {otherId : ℕ} (hoth : s.keyspace.findId other = some otherId) (hne : other ≠ key) :
    otherId ≠ id :=
  fun heq ↦ hne (h.keyspace.findId_inj hid (heq ▸ hoth))

/-- A key whose id, entry and expiry stay as they are. -/
theorem logical_congr {s' : Store α} (hfind : s'.keyspace.findId key = s.keyspace.findId key)
    (hkept : ∀ id, s.keyspace.findId key = some id →
      s'.keyspace.entries[id]? = s.keyspace.entries[id]? ∧ s'.ttl.expiry id = s.ttl.expiry id) :
    s'.logical key = s.logical key := by
  unfold logical
  rw [hfind]
  cases hid : s.keyspace.findId key with
  | none => rfl
  | some id => rw [bind_some, bind_some, (hkept id hid).1, (hkept id hid).2]

theorem setObject_valid (h : s.Valid) {new : Object α} :
    ({ s with keyspace := s.keyspace.setObject id new } : Store α).Valid := by
  refine ⟨Keyspace.setObject_valid h.keyspace, h.ttl, ?_⟩
  intro packed hsome
  have hlive := h.live packed hsome
  simpa [Keyspace.setObject] using hlive

theorem setObject_logical (h : s.Valid) (hent : s.keyspace.entries[id]? = some (key, object))
    (new : Object α) :
    ({ s with keyspace := s.keyspace.setObject id new } : Store α).Valid ∧
      ({ s with keyspace := s.keyspace.setObject id new } : Store α).logical =
        update s.logical key (some (new, s.ttl.expiry id)) := by
  have hvalid : ({ s with keyspace := s.keyspace.setObject id new } : Store α).Valid :=
    setObject_valid h
  refine ⟨hvalid, ?_⟩
  have hent' := setObject_entry hent new
  funext other
  by_cases hoth : other = key
  · subst other
    rw [update_self, hvalid.logical_of_entry hent']
  · rw [update_of_ne hoth]
    refine logical_congr rfl fun otherId hotherId ↦ ⟨?_, rfl⟩
    have hne := h.id_ne (h.keyspace.findId_of_entry hent) hotherId hoth
    simp [Keyspace.setObject, hne.symm]

theorem fin_eq_make {packed : PackedU48} {value : ℕ} (h : packed.val = value) :
    packed = PackedU48.make value := by
  apply Fin.ext
  rw [make_val (h ▸ packed.isLt), h]

/-! ## Removing a key -/

theorem removed_last (h : s.Valid) (hent : s.keyspace.entries[id]? = some (key, object))
    (hcleared : s.ttl.expiry id = none) (hlast : id = s.keyspace.entries.length - 1) :
    (s.withoutEntry id).Valid ∧ (s.withoutEntry id).logical = update s.logical key none := by
  have heraseAt := eraseAt_last hent hlast
  have hks : (s.withoutEntry id).keyspace =
      { entries := s.keyspace.entries.dropLast, index := s.keyspace.index.erase key } := by
    rw [withoutEntry, heraseAt]
  have hvalid : (s.withoutEntry id).Valid := by
    refine ⟨hks ▸ dropLast_valid h.keyspace hent hlast, h.ttl, ?_⟩
    intro packed hsome
    have hlive := h.live packed hsome
    rw [hks, List.length_dropLast]
    by_contra hge
    have hid : packed.val = id := by omega
    rw [fin_eq_make hid] at hsome
    exact hsome hcleared
  refine ⟨hvalid, ?_⟩
  funext other
  by_cases hoth : other = key
  · subst other
    rw [update_self]
    apply logical_eq_none
    rw [hks, findId, AList.lookup_erase]
  · rw [update_of_ne hoth]
    refine logical_congr ?_ fun otherId hotherId ↦ ⟨?_, rfl⟩
    · rw [hks, findId, AList.lookup_erase_ne hoth]
      rfl
    · have hlt := h.keyspace.lt_length hotherId
      have hne := h.id_ne (h.keyspace.findId_of_entry hent) hotherId hoth
      rw [hks, getElem?_dropLast_of_lt (by omega)]

/-- The last key of a store, which slides into the place of an erased one. -/
def lastEntry (s : Store α) : Option (Bytes × Object α) :=
  s.keyspace.entries[s.keyspace.entries.length - 1]?

/-- What a removal whose rekeying was refused leaves behind: the last key is still there, but it
lost its expiry, and the expiry set no longer agrees with the live ids. -/
structure ExpiryLost (script : Script) (s : Store α) (thrown : Thrown) (s' : Store α) : Prop where
  thrown_eq : thrown = .maxMemoryExceeded
  refused : true ∈ script
  lost : ∃ moved expiry, s.lastEntry = some moved ∧
    s.logical moved.1 = some (moved.2, some expiry) ∧ s'.logical moved.1 = some (moved.2, none)
  disagrees : ¬s'.TtlAgrees

section Slide

variable {moved : Bytes × Object α} {ttl : TtlSet}

section

variable (hent : s.keyspace.entries[id]? = some (key, object)) (hmoved : s.lastEntry = some moved)
  (hlast : id ≠ s.keyspace.entries.length - 1)
include hent hmoved hlast

theorem withoutEntry_slide :
    (s.withoutEntry id).keyspace =
      { entries := (s.keyspace.entries.set id moved).dropLast
        index := (s.keyspace.index.erase key).insert moved.1 id } := by
  rw [withoutEntry, eraseAt_slide hent hmoved hlast]

theorem slide_length :
    (s.withoutEntry id).keyspace.entries.length = s.keyspace.entries.length - 1 := by
  rw [withoutEntry_slide hent hmoved hlast]
  simp

/-- The slid key is found at its new id, whatever the expiry set then says of that id. -/
theorem slide_logical_moved :
    ({ s.withoutEntry id with ttl := ttl } : Store α).logical moved.1 =
      some (moved.2, ttl.expiry id) := by
  have hks := withoutEntry_slide hent hmoved hlast
  have hlt := lt_of_getElem? hent
  have hslot := slide_entry s.keyspace id id moved (by omega)
  simp [logical, hks, findId, hslot]

end

section

variable (h : s.Valid) (hent : s.keyspace.entries[id]? = some (key, object))
  (hmoved : s.lastEntry = some moved) (hlast : id ≠ s.keyspace.entries.length - 1)
include h hent hmoved hlast

theorem slide_logical
    (hexps : ttl.expiries = update (update s.ttl.expiries (.make (s.keyspace.entries.length -
      1)) none) (.make id) (s.ttl.expiry (s.keyspace.entries.length - 1))) :
    ({ s.withoutEntry id with ttl := ttl } : Store α).logical = update s.logical key none := by
  have hks := withoutEntry_slide hent hmoved hlast
  have hkeyId := h.keyspace.findId_of_entry hent
  have hmovedId := h.keyspace.findId_of_entry hmoved
  have hidLt := h.id_lt hent
  have hlastLt := h.id_lt hmoved
  have hne : moved.1 ≠ key := by
    intro heq
    rw [heq, hkeyId] at hmovedId
    exact hlast (some.inj hmovedId)
  funext other
  by_cases hoth : other = moved.1
  · subst other
    rw [slide_logical_moved hent hmoved hlast, update_of_ne hne,
      h.logical_of_entry hmoved, TtlSet.expiry_eq, hexps, update_self]
  · by_cases hkey : other = key
    · subst other
      rw [update_self]
      apply logical_eq_none
      rw [hks, findId, AList.lookup_insert_ne hoth, AList.lookup_erase]
    · rw [update_of_ne hkey]
      refine logical_congr ?_ fun otherId hotherId ↦ ?_
      · rw [hks, findId, AList.lookup_insert_ne hoth, AList.lookup_erase_ne hkey]
        rfl
      have hlt := h.keyspace.lt_length hotherId
      have hneId := h.id_ne hkeyId hotherId hkey
      have hneLast := h.id_ne hmovedId hotherId hoth
      constructor
      · rw [hks, slide_entry s.keyspace id otherId moved (by omega), if_neg hneId.symm]
      · rw [TtlSet.expiry_eq, hexps, update_of_ne (make_ne (by omega) hidLt hneId),
          update_of_ne (make_ne (by omega) hlastLt hneLast)]
        rfl

theorem slide_valid (httl : ttl.Valid)
    (hexps : ttl.expiries = update (update s.ttl.expiries (.make (s.keyspace.entries.length -
      1)) none) (.make id) (s.ttl.expiry (s.keyspace.entries.length - 1))) :
    ({ s.withoutEntry id with ttl := ttl } : Store α).Valid := by
  have hlt := lt_of_getElem? hent
  refine ⟨withoutEntry_slide hent hmoved hlast ▸
    Keyspace.slide_valid h.keyspace hent hmoved hlast, httl, ?_⟩
  intro packed hsome
  have hlen := slide_length hent hmoved hlast
  rw [hlen]
  by_cases hid : packed = PackedU48.make id
  · rw [hid, make_val (h.id_lt hent)]
    omega
  rw [hexps, update_of_ne hid] at hsome
  by_cases hmade : packed = PackedU48.make (s.keyspace.entries.length - 1)
  · rw [hmade, update_self] at hsome
    exact absurd rfl hsome
  rw [update_of_ne hmade] at hsome
  have hlive := h.live packed hsome
  have hneLast : packed.val ≠ s.keyspace.entries.length - 1 := fun heq ↦
    hmade (fin_eq_make heq)
  omega

theorem slide_lost {script : Script} {thrown : Thrown}
    (hlost : TtlSet.RekeyLost script s.ttl (s.keyspace.entries.length - 1) id thrown ttl) :
    ExpiryLost script s thrown { s.withoutEntry id with ttl := ttl } := by
  refine ⟨hlost.thrown_eq, hlost.refused, ?_, ?_⟩
  · rcases ne_none_iff_exists'.mp hlost.had_expiry with ⟨expiry, hexp⟩
    refine ⟨moved, expiry, hmoved, ?_, ?_⟩
    · rw [h.logical_of_entry hmoved, hexp]
    · rw [slide_logical_moved hent hmoved hlast, hlost.lost]
  · intro hagrees
    rcases hlost.stranded with hstranded | ⟨expiry, hmem⟩
    · have hlive := hagrees.live (.make (s.keyspace.entries.length - 1)) (by
        change ttl.expiry (s.keyspace.entries.length - 1) ≠ none
        rw [hstranded]
        exact hlost.had_expiry)
      rw [make_val (h.id_lt hmoved)] at hlive
      rw [slide_length hent hmoved hlast] at hlive
      omega
    · have hsome := (hagrees.describes.mem_iff _ _).mp hmem
      change ttl.expiry id = some expiry at hsome
      rw [hlost.lost] at hsome
      exact some_ne_none expiry hsome.symm

end

end Slide

section

variable (h : s.Valid) (hent : s.keyspace.entries[id]? = some (key, object))
include h hent

/-- Erasing a key whose expiry is cleared removes it and nothing else from the logical view,
unless the rekeying of the slid key's expiry is refused. -/
theorem eraseKeyspaceAt_ends (hcleared : s.ttl.expiry id = none) (script : Script) :
    Ends (eraseKeyspaceAt id) s script
      (fun _ s' ↦ s'.Valid ∧ s'.logical = update s.logical key none) (ExpiryLost script s) := by
  have hlt := lt_of_getElem? hent
  apply ends_get_bind
  apply ends_modify_bind
  by_cases hlast : id = s.keyspace.entries.length - 1
  · rw [eraseAt_last hent hlast]
    exact ends_pure (removed_last h hent hcleared hlast)
  have hmoved := List.getElem?_eq_getElem (l := s.keyspace.entries)
    (i := s.keyspace.entries.length - 1) (by omega)
  rw [eraseAt_slide hent hmoved hlast]
  have hne := make_ne (h.id_lt hmoved) (h.id_lt hent) (Ne.symm hlast)
  have hrekey := TtlSet.rekey_ends (s.keyspace.entries.length - 1) id h.ttl hne hcleared script
  apply Ends.zoom (s := s.withoutEntry id) hrekey
  · intro _ ttl hgranted
    exact ⟨slide_valid h hent hmoved hlast hgranted.1 hgranted.2,
      slide_logical h hent hmoved hlast hgranted.2⟩
  · intro thrown ttl hlost
    exact slide_lost h hent hmoved hlast hlost

/-- The logical view of a store whose expiries change at the id of `key` only. -/
theorem Valid.logical_update {ttl : TtlSet} {expiry : Option PackedU48}
    (hexps : ttl.expiries = update s.ttl.expiries (.make id) expiry) :
    ({ s with ttl := ttl } : Store α).logical = update s.logical key (some (object, expiry)) := by
  have hid := h.keyspace.findId_of_entry hent
  funext other
  by_cases hoth : other = key
  · subst other
    simp [logical, hid, hent, TtlSet.expiry_eq, hexps]
  rw [update_of_ne hoth]
  refine logical_congr rfl fun otherId hotherId ↦ ⟨rfl, ?_⟩
  have hlt := h.keyspace.lt_length hotherId
  have hle := h.keyspace.length_le
  rw [TtlSet.expiry_eq, hexps,
    update_of_ne (make_ne (by omega) (h.id_lt hent) (h.id_ne hid hotherId hoth))]
  rfl

theorem onTtl_clear_ends {E : Thrown → Store α → Prop} {script : Script} :
    Ends (onTtl (TtlSet.clear id)) s script
      (fun removed s' ↦ s'.Valid ∧ removed = (s.ttl.expiry id).isSome ∧
        s'.keyspace = s.keyspace ∧ s'.ttl.expiry id = none ∧
        s'.logical = update s.logical key (some (object, none))) E := by
  apply (TtlSet.clear_ends id h.ttl).zoom
  · intro removed ttl hend
    have hexp : ttl.expiry id = none := by
      rw [TtlSet.expiry_eq, hend.2.2, update_self]
    have hvalid : ({ s with ttl := ttl } : Store α).Valid := by
      refine ⟨h.keyspace, hend.1, ?_⟩
      intro packed hsome
      apply h.live
      intro hnone
      rw [hend.2.2] at hsome
      by_cases hid : packed = PackedU48.make id
      · rw [hid, update_self] at hsome
        exact hsome rfl
      · rw [update_of_ne hid] at hsome
        exact hsome hnone
    exact ⟨hvalid, hend.2.1, rfl, hexp, h.logical_update hent hend.2.2⟩
  · exact fun _ _ hfalse ↦ hfalse

end

/-- Forgetting the expiry of the erased key first does not change what a lost expiry means. -/
theorem ExpiryLost.of_cleared {s₁ s' : Store α} {script rest : Script} {thrown : Thrown}
    (hsuf : rest <:+ script) (hks : s₁.keyspace = s.keyspace)
    (hlog : s₁.logical = update s.logical key (some (object, none)))
    (h : ExpiryLost rest s₁ thrown s') : ExpiryLost script s thrown s' := by
  rcases h.lost with ⟨moved, expiry, hmoved, hbef, haft⟩
  have hne : moved.1 ≠ key := by
    intro heq
    rw [hlog, heq, update_self] at hbef
    simp at hbef
  rw [hlog, update_of_ne hne] at hbef
  refine ⟨h.thrown_eq, hsuf.mem h.refused, ⟨moved, expiry, ?_, hbef, haft⟩, h.disagrees⟩
  rw [← hmoved, lastEntry, lastEntry, hks]

section

variable (h : s.Valid) (hent : s.keyspace.entries[id]? = some (key, object)) (script : Script)
include h hent script

/-- Removing a key removes it and nothing else from the logical view, unless the rekeying of the
slid key's expiry is refused. -/
theorem removeAt_ends :
    Ends (removeAt id) s script
      (fun _ s' ↦ s'.Valid ∧ s'.logical = update s.logical key none) (ExpiryLost script s) := by
  apply (onTtl_clear_ends h hent).bind
  intro _ s₁ rest hsuf hcleared
  have hent₁ := hcleared.2.2.1 ▸ hent
  have herase := eraseKeyspaceAt_ends hcleared.1 hent₁ hcleared.2.2.2.1 rest
  apply herase.mono
  · intro _ s' hend
    rw [hcleared.2.2.2.2, update_idem] at hend
    exact hend
  · exact fun _ _ hlost ↦ hlost.of_cleared hsuf hcleared.2.2.1 hcleared.2.2.2.2

end

theorem eraseKey_ends (key : Bytes) (h : s.Valid) (script : Script) :
    Ends (eraseKey key) s script
      (fun erased s' ↦ s'.Valid ∧ erased = (s.logical key).isSome ∧
        s'.logical = update s.logical key none) (ExpiryLost script s) := by
  apply ends_get_bind
  cases hid : s.keyspace.findId key with
  | none =>
    have hnone := logical_eq_none hid
    refine ends_pure ⟨h, by simp [hnone], ?_⟩
    rw [← hnone, update_eq_self]
  | some id =>
    rcases h.entry_of_findId hid with ⟨object, hent⟩
    apply (removeAt_ends h hent script).bind
    intro _ s' _ _ hend
    exact ends_pure ⟨hend.1, by simp [h.logical_of_entry hent], hend.2⟩

/-- A key is created at the end of the keyspace, without an expiry. -/
theorem push_logical (h : s.Valid) (hnew : s.keyspace.findId key = none)
    (hroom : s.keyspace.entries.length < 2 ^ 48) (object : Object α) :
    ({ s with keyspace := s.keyspace.push key object } : Store α).Valid ∧
      ({ s with keyspace := s.keyspace.push key object } : Store α).logical =
        update s.logical key (some (object, none)) := by
  have hvalid : ({ s with keyspace := s.keyspace.push key object } : Store α).Valid := by
    refine ⟨push_valid h.keyspace hnew hroom, h.ttl, ?_⟩
    intro packed hsome
    have hlive := h.live packed hsome
    simp only [push, List.length_append, List.length_singleton]
    omega
  refine ⟨hvalid, ?_⟩
  funext other
  by_cases hoth : other = key
  · subst other
    have hent : ({ s with keyspace := s.keyspace.push key object } : Store α).keyspace.entries[
        s.keyspace.entries.length]? = some (key, object) := by simp [push]
    rw [update_self, hvalid.logical_of_entry hent]
    have hexp := h.expiry_eq_none le_rfl hroom
    simp [hexp]
  · rw [update_of_ne hoth]
    refine logical_congr ?_ fun otherId hotherId ↦ ⟨?_, rfl⟩
    · rw [findId_push, update_of_ne hoth]
    · exact List.getElem?_append_left (h.keyspace.lt_length hotherId)

theorem createKey_valid (h : s.Valid) (hnew : s.keyspace.findId key = none) (script : Script) :
    (onKeyspace (createKey key object) s script).state.Valid := by
  have hends : Ends (onKeyspace (createKey key object)) s script (fun _ s' ↦ s'.Valid)
      (fun _ s' ↦ s'.Valid) := by
    apply (createKey_ends key object script).zoom
    · rintro _ ks ⟨-, rfl, herror⟩
      exact (push_logical h hnew (length_lt_of_creationError herror) object).1
    · rintro _ ks ⟨rfl, -⟩
      exact h
  obtain ⟨rest, -, ⟨_, s', hrun, hvalid⟩ | ⟨_, s', hrun, hvalid⟩⟩ := hends.run
  · rwa [hrun]
  · rwa [hrun]

end Store

end GoblinCore
