import GoblinCore.Foundation.Ordered
import GoblinCore.Memory.MemoryLimit
import Mathlib.Data.List.AList
import Mathlib.Logic.Function.Basic

/-!
# The keyspace

One namespace for every key of every type.  Keys have dense ids: the entry at position `id` holds
the key bytes and the object, and an index leads from key bytes to id.  Erasing a key moves the
last entry into its place and reports the move, so that whoever keeps data by id can follow.

Key bytes are kept by value: of the arena that packs them there are the requests for memory and the
sizes it refuses.  The objects are whatever the keys hold; nothing here looks into them.
-/

namespace GoblinCore

open Refusable MemoryLimit Comp List AList
open Option hiding get_bind

abbrev Bytes := List UInt8

instance : LawfulBEq Bytes := inferInstance

/-- The object under a key: a string as it is encoded, or an aggregate. -/
inductive Object (α : Type) where
  | str (value : Bytes)
  | aggregate (value : α)
  deriving DecidableEq

/-- The move a swap-remove makes: the key at id `source` is now at id `target`. -/
structure KeyMove where
  source : ℕ
  target : ℕ
  deriving DecidableEq

structure Keyspace (α : Type) where
  entries : List (Bytes × Object α) := []
  index : AList (fun _ : Bytes ↦ ℕ) := ∅

namespace Keyspace

variable {α : Type}

/-- `KeyspaceStorage::kMaxBlobBytes`. -/
def maxBlobBytes : ℕ := 65535

def maxKeyId : ℕ := 2 ^ 48 - 1

variable (ks : Keyspace α)

def findId (key : Bytes) : Option ℕ := ks.index.lookup key

def keyForId (id : ℕ) : Option Bytes := ks.entries[id]?.map Prod.fst

/-- Append an entry and register its id. -/
def push (key : Bytes) (object : Object α) (ks : Keyspace α) : Keyspace α where
  entries := ks.entries ++ [(key, object)]
  index := ks.index.insert key ks.entries.length

/-- Undo the newest `push`. -/
def rollbackCreatedKey : Keyspace α where
  entries := ks.entries.dropLast
  index := match ks.entries.getLast? with
    | some entry => ks.index.erase entry.1
    | none => ks.index

def setObject (id : ℕ) (object : Object α) (ks : Keyspace α) : Keyspace α :=
  { ks with entries := ks.entries.modify id fun entry ↦ (entry.1, object) }

/-- `create_key`: room for the object slot and the index slot is reserved, then the key bytes are
stored, before anything is registered. -/
def createKey (key : Bytes) (object : Object α) : StoreComp (Keyspace α) ℕ := do
  let ks ← get
  ensureMemoryGrowth
  ensureMemoryGrowth
  when (maxBlobBytes < key.length) (throw (.lengthError "keyspace key too large"))
  when (maxKeyId < ks.entries.length) (throw (.lengthError "keyspace id space exhausted"))
  ensureMemoryGrowth
  ensureMemoryGrowth
  modify (push key object)
  pure ks.entries.length

/-- The index entry of the key at id `source` now says `target`. -/
def moveMemberId (source target : ℕ) (ks : Keyspace α) : AList (fun _ : Bytes ↦ ℕ) :=
  match ks.keyForId source with
  | some key => ks.index.insert key target
  | none => ks.index

/-- Erase the key at `id`; the last key slides into its place. -/
def eraseAt (id : ℕ) (ks : Keyspace α) : Option KeyMove × Keyspace α :=
  let last := ks.entries.length - 1
  let erased : Keyspace α := match ks.keyForId id with
    | some key => { ks with index := ks.index.erase key }
    | none => ks
  if id = last then
    (none, { erased with entries := ks.entries.dropLast })
  else
    match ks.entries[last]? with
    | some entry =>
      (some ⟨last, id⟩,
        { entries := (ks.entries.set id entry).dropLast, index := erased.moveMemberId last id })
    | none => (none, erased)

/-! ## The index and the entries agree -/

/-- The invariant of the keyspace: the index is exactly the map from key bytes to position, and
every position fits a key id. -/
structure Valid (ks : Keyspace α) : Prop where
  findId_iff : ∀ key id, ks.findId key = some id ↔ ∃ object, ks.entries[id]? = some (key, object)
  length_le : ks.entries.length ≤ 2 ^ 48

variable {ks : Keyspace α} {key : Bytes} {id : ℕ} {object : Object α}

theorem Valid.findId_of_entry (h : ks.Valid) (hent : ks.entries[id]? = some (key, object)) :
    ks.findId key = some id := (h.findId_iff key id).mpr ⟨object, hent⟩

theorem Valid.lt_length (h : ks.Valid) (hid : ks.findId key = some id) :
    id < ks.entries.length := by
  rcases (h.findId_iff key id).mp hid with ⟨object, hent⟩
  exact lt_of_getElem? hent

variable {other : Bytes} {moved : Bytes × Object α}

/-- Two keys with the same id are the same key. -/
theorem Valid.findId_inj (h : ks.Valid) (hid : ks.findId key = some id)
    (hoth : ks.findId other = some id) : other = key := by
  rcases (h.findId_iff key id).mp hid with ⟨object, hent⟩
  rcases (h.findId_iff other id).mp hoth with ⟨otherObject, hotherEntry⟩
  rw [hent] at hotherEntry
  exact (congrArg Prod.fst (some.inj hotherEntry)).symm

/-! ## Creating and overwriting -/

@[simp] theorem findId_push :
    (ks.push key object).findId = Function.update ks.findId key (some ks.entries.length) := by
  funext other
  by_cases hkey : other = key
  · subst other
    simp [findId, push]
  · simp [findId, push, hkey]

theorem push_valid (h : ks.Valid) (hnew : ks.findId key = none)
    (hroom : ks.entries.length < 2 ^ 48) : (ks.push key object).Valid := by
  refine ⟨?_, ?_⟩
  swap
  · rw [push, length_append]
    exact hroom
  intro other id
  rw [findId_push]
  by_cases hkey : other = key
  · subst other
    simp only [Function.update_self, some.injEq]
    constructor
    · intro hid
      subst id
      exact ⟨object, by simp [push]⟩
    · rintro ⟨found, hent⟩
      rcases Nat.lt_trichotomy id ks.entries.length with hlt | heq | hgt
      · rw [push, getElem?_append_left hlt] at hent
        rw [h.findId_of_entry hent] at hnew
        exact absurd hnew (some_ne_none id)
      · exact heq.symm
      · rw [push, getElem?_eq_none (by rw [length_append]; exact hgt)] at hent
        exact absurd hent.symm (some_ne_none _)
  · rw [Function.update_of_ne hkey, h.findId_iff]
    constructor
    · rintro ⟨found, hent⟩
      have hlt := lt_of_getElem? hent
      exact ⟨found, by rw [push, getElem?_append_left hlt, hent]⟩
    · rintro ⟨found, hent⟩
      rcases Nat.lt_or_ge id ks.entries.length with hlt | hge
      · rw [push, getElem?_append_left hlt] at hent
        exact ⟨found, hent⟩
      · rw [push, getElem?_append_right hge, getElem?_singleton] at hent
        split at hent
        · exact absurd (congrArg Prod.fst (some.inj hent)).symm hkey
        · exact absurd hent.symm (some_ne_none _)

theorem setObject_entry (hent : ks.entries[id]? = some (key, object)) (new : Object α) :
    (ks.setObject id new).entries[id]? = some (key, new) := by
  simp [setObject, hent]

theorem setObject_valid (h : ks.Valid) {new : Object α} : (ks.setObject id new).Valid := by
  refine ⟨?_, by simpa [setObject] using h.length_le⟩
  intro key other
  have hfind : (ks.setObject id new).findId = ks.findId := rfl
  rw [hfind, h.findId_iff]
  simp only [setObject, getElem?_modify]
  cases hent : ks.entries[other]? with
  | none => simp
  | some entry =>
    by_cases hid : id = other
    · simp [hid, Prod.ext_iff]
    · simp [hid]

/-! ## What creating can end in -/

/-- Why a key cannot be created next to `count` others, if it cannot. -/
def creationError (count : ℕ) (key : Bytes) : Option Thrown :=
  if maxBlobBytes < key.length then some (.lengthError "keyspace key too large")
  else if maxKeyId < count then some (.lengthError "keyspace id space exhausted")
  else none

theorem length_lt_of_creationError (h : creationError ks.entries.length key = none) :
    ks.entries.length < 2 ^ 48 := by
  unfold creationError maxKeyId at h
  split at h
  · exact absurd h (some_ne_none _)
  · split at h
    · exact absurd h (some_ne_none _)
    · omega

/-- A throw is due to a refusal or to `cause`. -/
def Because (script : Script) (cause : Option Thrown) (thrown : Thrown) : Prop :=
  thrown = .maxMemoryExceeded ∧ true ∈ script ∨ cause = some thrown

theorem createKey_ends (key : Bytes) (object : Object α) (script : Script) :
    Ends (createKey key object) ks script
      (fun id ks' ↦ id = ks.entries.length ∧ ks' = ks.push key object ∧
        creationError ks.entries.length key = none)
      (fun thrown ks' ↦ ks' = ks ∧
        Because script (creationError ks.entries.length key) thrown) := by
  have hrefuse {rest : Script} (hsuf : rest <:+ script) (hrefused : true ∈ rest) : ks = ks ∧
      Because script (creationError ks.entries.length key) .maxMemoryExceeded :=
    ⟨rfl, .inl ⟨rfl, hsuf.mem hrefused⟩⟩
  apply ends_get_bind
  apply ensureMemoryGrowth_bind_ends (hrefuse suffix_rfl)
  intro rest₁ hsuf₁
  apply ensureMemoryGrowth_bind_ends (hrefuse hsuf₁)
  intro rest₂ hsuf₂
  apply ends_guard_bind
  · intro hlong
    exact ⟨rfl, .inr (by simp [creationError, hlong])⟩
  intro hlong
  apply ends_guard_bind
  · intro hfull
    exact ⟨rfl, .inr (by simp [creationError, hlong, hfull])⟩
  intro hfull
  apply ensureMemoryGrowth_bind_ends (hrefuse (hsuf₂.trans hsuf₁))
  intro rest₃ hsuf₃
  apply ensureMemoryGrowth_bind_ends (hrefuse (hsuf₃.trans (hsuf₂.trans hsuf₁)))
  intro rest₄ _
  apply ends_modify_bind
  exact ends_pure ⟨rfl, rfl, by simp [creationError, hlong, hfull]⟩

/-- Creation when no memory is refused. -/
theorem createKey_granted :
    createKey key object ks [] = match creationError ks.entries.length key with
      | none => ⟨.ok ks.entries.length, ks.push key object, []⟩
      | some thrown => ⟨.error thrown, ks, []⟩ := by
  unfold creationError
  rw [createKey]
  by_cases hlong : maxBlobBytes < key.length
  · rw [when_pos hlong, if_pos hlong]
    rfl
  by_cases hfull : maxKeyId < ks.entries.length
  · rw [when_neg hlong, if_neg hlong, if_pos hfull, get_bind, when_pos hfull]
    rfl
  · rw [when_neg hlong, if_neg hlong, if_neg hfull, get_bind, when_neg hfull]
    rfl

/-! ## Erasing -/

theorem eraseAt_last (hent : ks.entries[id]? = some (key, object))
    (hlast : id = ks.entries.length - 1) :
    ks.eraseAt id = (none, { entries := ks.entries.dropLast, index := ks.index.erase key }) := by
  simp [eraseAt, keyForId, hent, ← hlast]

/-- Erasing another key moves the last entry into its place. -/
theorem eraseAt_slide (hent : ks.entries[id]? = some (key, object))
    (hmoved : ks.entries[ks.entries.length - 1]? = some moved)
    (hlast : id ≠ ks.entries.length - 1) :
    ks.eraseAt id =
      (some ⟨ks.entries.length - 1, id⟩,
        { entries := (ks.entries.set id moved).dropLast
          index := (ks.index.erase key).insert moved.1 id }) := by
  simp [eraseAt, keyForId, moveMemberId, hent, hmoved, hlast]

theorem getElem?_dropLast_of_lt {list : List (Bytes × Object α)} {position : ℕ}
    (h : position < list.length - 1) : list.dropLast[position]? = list[position]? := by
  rw [getElem?_dropLast, if_pos h]

theorem dropLast_valid (h : ks.Valid) (hent : ks.entries[id]? = some (key, object))
    (hlast : id = ks.entries.length - 1) :
    ({ entries := ks.entries.dropLast, index := ks.index.erase key } : Keyspace α).Valid := by
  refine ⟨?_, ?_⟩
  · intro other otherId
    rw [getElem?_dropLast]
    by_cases hkey : other = key
    · subst other
      rw [findId, lookup_erase]
      simp only [reduceCtorEq, false_iff, not_exists]
      intro found
      split
      · intro hfnd
        have heq := (h.findId_of_entry hent).symm.trans (h.findId_of_entry hfnd)
        have hid : id = otherId := some.inj heq
        omega
      · simp
    · rw [findId, lookup_erase_ne hkey]
      change ks.findId other = some otherId ↔ _
      rw [h.findId_iff]
      by_cases hid : otherId < ks.entries.length - 1
      · rw [if_pos hid]
      rw [if_neg hid]
      simp only [reduceCtorEq, exists_false, iff_false, not_exists]
      intro found hfnd
      have hbound := lt_of_getElem? hfnd
      have heq : otherId = id := by omega
      rw [heq, hent] at hfnd
      exact hkey (congrArg Prod.fst (some.inj hfnd)).symm
  · have hlen := h.length_le
    simp only [length_dropLast]
    omega

theorem slide_entry (ks : Keyspace α) (id position : ℕ) (moved : Bytes × Object α)
    (hlt : position < ks.entries.length - 1) :
    (ks.entries.set id moved).dropLast[position]? =
      if id = position then some moved else ks.entries[position]? := by
  have hbound : position < (ks.entries.set id moved).length - 1 := by simpa using hlt
  rw [getElem?_dropLast_of_lt hbound, getElem?_set]
  split
  · rw [if_pos (by omega)]
  · rfl

theorem slide_valid (h : ks.Valid) (hent : ks.entries[id]? = some (key, object))
    (hmoved : ks.entries[ks.entries.length - 1]? = some moved)
    (hlast : id ≠ ks.entries.length - 1) :
    ({ entries := (ks.entries.set id moved).dropLast
       index := (ks.index.erase key).insert moved.1 id } : Keyspace α).Valid := by
  have hlt := lt_of_getElem? hent
  have hkeyId := h.findId_of_entry hent
  have hmovedId := h.findId_of_entry hmoved
  refine ⟨?_, ?_⟩
  · intro other otherId
    by_cases hbound : otherId < ks.entries.length - 1
    · rw [slide_entry ks id otherId moved hbound, findId]
      by_cases hoth : other = moved.1
      · subst other
        rw [lookup_insert]
        by_cases hid : id = otherId
        · subst otherId
          exact ⟨fun _ ↦ ⟨moved.2, by simp⟩, fun _ ↦ rfl⟩
        simp only [some.injEq, hid, false_iff, if_false, not_exists]
        intro found hfnd
        have heq := hmovedId.symm.trans (h.findId_of_entry hfnd)
        have hlastId := some.inj heq
        omega
      · rw [lookup_insert_ne hoth]
        by_cases hid : id = otherId
        · subst otherId
          have hnot : (ks.index.erase key).lookup other ≠ some id := by
            by_cases hkey : other = key
            · subst other
              simp
            · rw [lookup_erase_ne hkey]
              exact fun hfnd ↦ hkey (h.findId_inj hkeyId hfnd)
          simp only [hnot, if_true, some.injEq, false_iff, not_exists]
          intro found hfnd
          exact hoth (congrArg Prod.fst hfnd).symm
        · rw [if_neg hid, ← h.findId_iff]
          by_cases hkey : other = key
          · subst other
            rw [lookup_erase, hkeyId]
            simp [hid]
          · rw [lookup_erase_ne hkey]
            rfl
    · have hnone : (ks.entries.set id moved).dropLast[otherId]? = none := by
        simpa using Nat.le_of_not_lt hbound
      rw [hnone, findId]
      simp only [reduceCtorEq, exists_false, iff_false]
      by_cases hoth : other = moved.1
      · subst other
        rw [lookup_insert, some.injEq]
        omega
      · rw [lookup_insert_ne hoth]
        by_cases hkey : other = key
        · subst other
          simp
        rw [lookup_erase_ne hkey]
        intro hfnd
        have hotherLt := h.lt_length hfnd
        have heq : otherId = ks.entries.length - 1 := by omega
        exact hoth (h.findId_inj hmovedId (heq ▸ hfnd))
  · have hlen := h.length_le
    simp only [length_dropLast, length_set]
    omega

end Keyspace

end GoblinCore
