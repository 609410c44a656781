import GoblinCore.Store.Removal
import GoblinCore.Transactions.Session

/-!
# The store as sessions see it

DEL and PERSIST on a valid store, with the keys that the store hands to its observer on the way.
Whatever they change under a key they report, so that the store can stand under the sessions.
-/

namespace GoblinCore.Store

open Refusable Comp Function List

variable {α : Type} {s : Store α} {id : ℕ} {object : Object α} {script : Script}

inductive Command where
  | del (key : Bytes)
  | persist (key : Bytes)

def Command.key : Command → Bytes
  | .del key => key
  | .persist key => key

def Command.run : Command → StoreComp (Store α) Bool
  | .del key => eraseKey key
  | .persist key => Store.persist key

theorem eraseKeyspaceAt_signalled : (eraseKeyspaceAt id s script).state.signalled =
    s.signalled ++ (s.keyspace.keyForId id).toList := by
  simp only [eraseKeyspaceAt, get_bind, modify_bind]
  cases (s.keyspace.eraseAt id).1 with
  | none => rfl
  | some move => rfl

/-- What the clearing of an expiry leaves, and that it reports nothing. -/
theorem clear_granted {key : Bytes} (h : s.Valid)
    (hent : s.keyspace.entries[id]? = some (key, object)) :
    ∃ removed s', onTtl (TtlSet.clear id) s [] = ⟨.ok removed, s', []⟩ ∧ s'.Valid ∧
      removed = (s.ttl.expiry id).isSome ∧ s'.keyspace = s.keyspace ∧
      s'.logical = update s.logical key (some (object, none)) ∧ s'.signalled = s.signalled := by
  obtain ⟨removed, s', hrun, hvalid, hremoved, hks, -, hlog⟩ := (onTtl_clear_ends h hent).granted
  refine ⟨removed, s', hrun, hvalid, hremoved, hks, hlog, ?_⟩
  rw [← show (onTtl (TtlSet.clear id) s []).state = s' by rw [hrun]]
  rfl

/-- A command that says it changed its key reports it; nothing else changes. -/
structure Reports (command : Command) (s : Store α) (changed : Bool) (s' : Store α) : Prop where
  valid : s'.Valid
  others : ∀ other ≠ command.key, s'.logical other = s.logical other
  unchanged : changed = false → s'.logical = s.logical
  signalled : changed = true → s'.signalled = s.signalled ++ [command.key]

theorem Reports.nothing (command : Command) (h : s.Valid) : Reports command s false s :=
  ⟨h, fun _ _ ↦ rfl, fun _ ↦ rfl, fun hchanged ↦ by cases hchanged⟩

theorem Command.run_reports (command : Command) (h : s.Valid) :
    Ends command.run s [] (Reports command s) (fun _ _ ↦ False) := by
  cases command with
  | del key =>
    apply ends_get_bind
    cases hid : s.keyspace.findId key with
    | none => exact ends_pure (.nothing _ h)
    | some id =>
      obtain ⟨object, hent⟩ := h.entry_of_findId hid
      obtain ⟨_, s', hrun, hvalid, hlog⟩ := ((removeAt_ends h hent []).mono_throw
        (F := fun _ _ ↦ False) fun _ _ hlost ↦ absurd hlost.refused not_mem_nil).granted
      refine ends_ok_bind hrun suffix_rfl (ends_pure ⟨hvalid, fun other hne ↦ ?_, by simp, ?_⟩)
      · exact hlog ▸ update_of_ne hne _ _
      · obtain ⟨_, s₁, hclear, -, -, hks, -, hsame⟩ := clear_granted h hent
        have hsignalled : (removeAt id s []).state.signalled = s.signalled ++ [key] := by
          rw [removeAt, bind_ok hclear, eraseKeyspaceAt_signalled, hks, hsame]
          simp [Keyspace.keyForId, hent]
        rw [hrun] at hsignalled
        exact fun _ ↦ hsignalled
  | persist key =>
    apply ends_get_bind
    cases hid : s.keyspace.findId key with
    | none => exact ends_pure (.nothing _ h)
    | some id =>
      obtain ⟨object, hent⟩ := h.entry_of_findId hid
      obtain ⟨removed, s', hclear, hvalid, hremoved, -, hlog, hsame⟩ := clear_granted h hent
      apply ends_ok_bind hclear suffix_rfl
      have hothers : ∀ other ≠ key, s'.logical other = s.logical other := fun other hne ↦ by
        rw [hlog, update_of_ne hne]
      cases removed with
      | true =>
        exact ends_modify_bind (ends_pure
          ⟨signal_valid hvalid, hothers, by simp, fun _ ↦ congrArg (· ++ [key]) hsame⟩)
      | false =>
        refine ends_pure ⟨hvalid, hothers, fun _ ↦ ?_, by simp⟩
        have hnone : s.ttl.expiry id = none := by simpa using hremoved
        rw [hlog, ← hnone, ← h.logical_of_entry hent, update_eq_self]

/-- The entry of a key with its expiry as a number. -/
def entry (s : Store α) (key : Bytes) : Entry (Object α) :=
  (s.logical key).map fun found ↦ (found.1, found.2.map Fin.val)

theorem entry_due {key : Bytes} {now : ℕ} :
    (s.entry key).due now = true ↔ Due now s.logical key := by
  unfold entry Entry.due Due
  rcases s.logical key with _ | ⟨object, _ | expiry⟩ <;> simp [isDue]

theorem purge_granted (key : Bytes) (now : ℕ) (h : s.Valid) :
    (purgeIfExpired key now s []).state.Valid ∧
      (purgeIfExpired key now s []).state.logical = purged now key s.logical := by
  obtain ⟨_, s', hrun, hvalid, -, hlog⟩ := ((purgeIfExpired_ends key now h []).mono_throw
    (F := fun _ _ ↦ False) fun _ _ hlost ↦ absurd hlost.refused not_mem_nil).granted
  rw [hrun]
  exact ⟨hvalid, hlog⟩

/-- The valid stores with their observer. -/
def observed : ObservedStore { s : Store α // s.Valid } Command (Object α) where
  entry s := s.1.entry
  execute command _ s := ⟨(command.run s.1 []).state, by
    obtain ⟨_, _, hrun, hreports⟩ := (command.run_reports s.2).granted
    rw [hrun]
    exact hreports.valid⟩
  signals command _ s :=
    .keys ((command.run s.1 []).state.signalled.drop s.1.signalled.length)
  purgeIfExpired key now s := ⟨(purgeIfExpired key now s.1 []).state, (purge_granted key now s.2).1⟩
  reported := by
    intro command now s key hne
    obtain ⟨changed, s', hrun, hreports⟩ := (command.run_reports s.2).granted
    simp only [hrun, entry] at hne ⊢
    have hkey : key = command.key := by
      by_contra hother
      exact hne (by rw [hreports.others key hother])
    have hchanged : changed = true := by
      by_contra hsame
      exact hne (by rw [hreports.unchanged (by simpa using hsame)])
    simp [Signals.covers, hreports.signalled hchanged, hkey]
  entry_purge := by
    intro key now s other
    simp only [Entry.visible, entry_due]
    simp only [entry, (purge_granted key now s.2).2, purged]
    by_cases hother : other = key <;> split_ifs <;> simp [hother]

end GoblinCore.Store
