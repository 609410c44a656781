import GoblinCore.Store.Keyspace

/-!
# A follower applies the firehose

Every mutation of a lineage has a logical offset, and a batch carries the payloads of consecutive
offsets.  A follower may be handed batches twice, overlapping, cut differently or out of order.
It applies the part it has not seen, in the order of the offsets, and remembers the last one.

The command layer and the keyspace are parameters: a replicated write is parsed, has to be a write
and is executed, and one that is answered by an error may have changed the keyspace.
-/

namespace GoblinCore.Replication

open Nat

/-- The bytes that name a lineage. -/
abbrev ReplicationId := Vector UInt8 16

open List

/-- The part of `ReplicationState` that the firehose moves. -/
structure ReplicationState where
  id : ReplicationId
  offset : ℕ
  valid : Bool

/-- The payloads of the offsets from `offset` on. -/
structure ReplicationBatch where
  id : ReplicationId
  offset : ℕ
  mutations : List Bytes
  offset_lt : offset < 2 ^ 64

/-- What a replicated write goes through: the RESP2 frame, the command, the test that it is a known
write, and its execution with the reply. -/
structure CommandLayer (S C : Type) where
  parseFrame : Bytes → Except String (List Bytes)
  parseCommand : List Bytes → Except String C
  mutatesStore : C → Bool
  execute : S → C → S × Bytes

/-- The store of a follower. -/
structure Follower (S : Type) where
  keyspace : S
  state : ReplicationState

/-- The text before the first line end. -/
def firstLine : Bytes → String
  | 13 :: 10 :: _ => ""
  | byte :: rest => String.singleton (Char.ofNat byte.toNat) ++ firstLine rest
  | [] => ""

variable {S C : Type} (layer : CommandLayer S C)

/-- The keyspace after a replicated write, and the error unless it succeeded. -/
def applyResp2Write (keyspace : S) (payload : Bytes) : S × Option String :=
  match layer.parseFrame payload with
  | .error error => (keyspace, some ("invalid replicated RESP2 write: " ++ error))
  | .ok fields =>
    match layer.parseCommand fields with
    | .error error => (keyspace, some error)
    | .ok command =>
      if layer.mutatesStore command then
        let (keyspace, response) := layer.execute keyspace command
        if response.head? = some 45 then
          (keyspace, some ("replicated write failed: " ++ firstLine response.tail))
        else (keyspace, none)
      else (keyspace, some "firehose payload is not a recognized write command")

/-- The loop over the mutations from the first new one on. -/
def applyMutations : List Bytes → ℕ → Follower S → Follower S × Option String
  | [], _, follower => (follower, none)
  | payload :: rest, nextOffset, follower =>
    match applyResp2Write layer follower.keyspace payload with
    | (keyspace, some error) => ({ follower with keyspace }, some error)
    | (keyspace, none) =>
      applyMutations rest ((nextOffset + 1) % 2 ^ 64)
        { keyspace, state := { follower.state with offset := nextOffset } }

/-- Where the source returns true there is no error. -/
def applyFirehoseBatch (follower : Follower S) (batch : ReplicationBatch) :
    Follower S × Option String :=
  if batch.mutations = [] ∨ batch.offset = 0 then
    (follower, some "empty or zero-offset firehose batch")
  else if batch.mutations.length - 1 > 2 ^ 64 - 1 - batch.offset then
    (follower, some "firehose batch logical offsets overflow")
  else
    let lastOffset := (batch.offset + batch.mutations.length - 1) % 2 ^ 64
    let state := follower.state
    if state.valid = false ∨ state.id ≠ batch.id then
      (follower, some "firehose replication lineage does not match the loaded state")
    else if lastOffset ≤ state.offset then (follower, none)
    else if state.offset = 2 ^ 64 - 1 ∨ batch.offset > (state.offset + 1) % 2 ^ 64 then
      (follower, some ("firehose logical offset gap: expected "
        ++ toString ((state.offset + 1) % 2 ^ 64) ++ ", received " ++ toString batch.offset))
    else
      let first := if batch.offset ≤ state.offset then state.offset - batch.offset + 1 else 0
      applyMutations layer (batch.mutations.drop first) ((batch.offset + first) % 2 ^ 64) follower

/-- The batches of a run, whatever each of them returns. -/
def applyBatches (follower : Follower S) (batches : List ReplicationBatch) : Follower S :=
  batches.foldl (fun follower batch ↦ (applyFirehoseBatch layer follower batch).1) follower

/-! ## Batches of one history -/

/-- The batch carries what the history has under its offsets. -/
def ReplicationBatch.Agrees (history : ℕ → Bytes) (batch : ReplicationBatch) : Prop :=
  ∀ index payload, batch.mutations[index]? = some payload → payload = history (batch.offset + index)

/-- The batch has no place after the state: nothing in it, no offset, offsets beyond 64 bits,
another lineage, or a gap. -/
def Misplaced (state : ReplicationState) (batch : ReplicationBatch) : Prop :=
  batch.mutations = [] ∨ batch.offset = 0 ∨ 2 ^ 64 < batch.offset + batch.mutations.length ∨
    batch.id ≠ state.id ∨ state.offset + 1 < batch.offset

/-- The keyspace after the writes of these offsets, each on what the one before it left, if all of
them succeed. -/
def executed (history : ℕ → Bytes) (keyspace : S) (offsets : List ℕ) : Option S :=
  offsets.foldlM (fun keyspace offset ↦
    match applyResp2Write layer keyspace (history offset) with
    | (keyspace, none) => some keyspace
    | (_, some _) => none) keyspace

/-- So many further offsets were stored. -/
def Follower.after (follower : Follower S) (count : ℕ) (keyspace : S) : Follower S where
  keyspace := keyspace
  state := { follower.state with offset := follower.state.offset + count }

/-- The history was executed up to `stop`, or up to a write that failed. -/
inductive Reaches (history : ℕ → Bytes) (follower : Follower S) (stop : ℕ) :
    Follower S × Option String → Prop
  | all (count : ℕ) (keyspace : S) : follower.state.offset + 1 + count = stop →
    executed layer history follower.keyspace (range' (follower.state.offset + 1) count) =
      some keyspace →
    Reaches history follower stop (follower.after count keyspace, none)
  | failed (count : ℕ) (before keyspace : S) (error : String) :
    follower.state.offset + 1 + count < stop →
    executed layer history follower.keyspace (range' (follower.state.offset + 1) count) =
      some before →
    applyResp2Write layer before (history (follower.state.offset + 1 + count)) =
      (keyspace, some error) →
    Reaches history follower stop (follower.after count keyspace, some error)

/-- The writes of `offsets` were executed one after the other, each offset stored behind its
write.  In between the write after the stored offset may have failed, which stores nothing. -/
inductive Executes (history : ℕ → Bytes) : Follower S → List ℕ → Follower S → Prop
  | nil (follower : Follower S) : Executes history follower [] follower
  | write {follower final : Follower S} {offset : ℕ} {offsets : List ℕ} {keyspace : S} :
    applyResp2Write layer follower.keyspace (history offset) = (keyspace, none) →
    Executes history { keyspace, state := { follower.state with offset } } offsets final →
    Executes history follower (offset :: offsets) final
  | failure {follower final : Follower S} {offsets : List ℕ} {keyspace : S} {error : String} :
    applyResp2Write layer follower.keyspace (history (follower.state.offset + 1)) =
      (keyspace, some error) →
    Executes history { follower with keyspace } offsets final →
    Executes history follower offsets final

/-- A misplaced batch is an error and changes nothing, one that is known is no error and changes
nothing, and of any other the missing offsets are executed. -/
inductive Outcome (history : ℕ → Bytes) (follower : Follower S) (batch : ReplicationBatch) :
    Follower S × Option String → Prop
  | misplaced (error : String) : Misplaced follower.state batch →
    Outcome history follower batch (follower, some error)
  | known : ¬Misplaced follower.state batch →
    batch.offset + batch.mutations.length ≤ follower.state.offset + 1 →
    Outcome history follower batch (follower, none)
  | new (outcome : Follower S × Option String) : ¬Misplaced follower.state batch →
    follower.state.offset + 1 < batch.offset + batch.mutations.length →
    Reaches layer history follower (batch.offset + batch.mutations.length) outcome →
    Outcome history follower batch outcome

variable {layer} {history : ℕ → Bytes} {follower middle final : Follower S}

@[simp] theorem Follower.after_after (count more : ℕ) (keyspace last : S) :
    (follower.after count keyspace).after more last = follower.after (count + more) last := by
  simp [after, add_assoc]

/-- Executing the writes of a range begins with its first one. -/
theorem executed_range'_succ {keyspace next : S} {start : ℕ}
    (hwrite : applyResp2Write layer keyspace (history start) = (next, none)) (count : ℕ) :
    executed layer history keyspace (range' start (count + 1)) =
      executed layer history next (range' (start + 1) count) := by
  simp [executed, range'_succ, hwrite]

theorem Reaches.refl :
    Reaches layer history follower (follower.state.offset + 1) (follower, none) :=
  .all 0 follower.keyspace rfl rfl

variable {outcome : Follower S × Option String} {batch : ReplicationBatch}

/-- Executing the offset after the stored one and then the others. -/
theorem Reaches.step {keyspace : S} {stop : ℕ}
    (hwrite : applyResp2Write layer follower.keyspace (history (follower.state.offset + 1)) =
      (keyspace, none))
    (h : Reaches layer history (follower.after 1 keyspace) stop outcome) :
    Reaches layer history follower stop outcome := by
  cases h with
  | all count last hstop hexecuted =>
    rw [follower.after_after, add_comm 1 count]
    rw [Follower.after, add_right_comm _ 1 count] at hstop
    exact .all (count + 1) last hstop ((executed_range'_succ hwrite count).trans hexecuted)
  | failed count before last error hstop hexecuted hfailed =>
    rw [follower.after_after, add_comm 1 count]
    rw [Follower.after, add_right_comm _ 1 count] at hstop hfailed
    exact .failed (count + 1) before last error hstop
      ((executed_range'_succ hwrite count).trans hexecuted) hfailed

theorem Executes.trans {first second : List ℕ} (h : Executes layer history follower first middle)
    (h' : Executes layer history middle second final) :
    Executes layer history follower (first ++ second) final := by
  induction h with
  | nil => exact h'
  | write hwrite _ ih => exact .write hwrite (ih h')
  | failure hwrite _ ih => exact .failure hwrite (ih h')

/-- Writes that succeed are executed, and the follower stands behind the last of them. -/
theorem Executes.of_executed {count : ℕ} {keyspace : S}
    (h : executed layer history follower.keyspace (range' (follower.state.offset + 1) count) =
      some keyspace) :
    Executes layer history follower (range' (follower.state.offset + 1) count)
      (follower.after count keyspace) := by
  induction count generalizing follower with
  | zero =>
    obtain rfl : follower.keyspace = keyspace := by simpa [executed] using h
    exact .nil follower
  | succ count ih =>
    rcases hwrite : applyResp2Write layer follower.keyspace (history (follower.state.offset + 1))
      with ⟨next, _ | error⟩
    · rw [executed_range'_succ hwrite] at h
      rw [range'_succ, add_comm count, ← follower.after_after 1 count next]
      exact .write hwrite (ih h)
    · simp [executed, range'_succ, hwrite] at h

/-- Where no write fails, the keyspace is the writes of the offsets over the one there was. -/
theorem Executes.executed_eq {offsets : List ℕ}
    (hnone : ∀ keyspace offset, (applyResp2Write layer keyspace (history offset)).2 = none)
    (h : Executes layer history follower offsets final) :
    executed layer history follower.keyspace offsets = some final.keyspace := by
  induction h with
  | nil => rfl
  | write hwrite _ ih => simpa [executed, hwrite] using ih
  | @failure follower _ _ _ _ hwrite =>
    have := hnone follower.keyspace (follower.state.offset + 1)
    simp [hwrite] at this

/-- The loop executes the payloads it is given under the offsets after the stored one. -/
theorem applyMutations_reaches {payloads : List Bytes} {nextOffset : ℕ}
    (hnext : payloads ≠ [] → nextOffset = follower.state.offset + 1)
    (hpayloads : ∀ index payload, payloads[index]? = some payload →
      payload = history (follower.state.offset + 1 + index))
    (hlimit : follower.state.offset + payloads.length < 2 ^ 64) :
    Reaches layer history follower (follower.state.offset + 1 + payloads.length)
      (applyMutations layer payloads nextOffset follower) := by
  induction payloads generalizing nextOffset follower with
  | nil => exact .refl
  | cons payload rest ih =>
    obtain rfl := hnext (by simp)
    obtain rfl : payload = history (follower.state.offset + 1) := hpayloads 0 payload rfl
    rw [length_cons] at hlimit ⊢
    rcases hwrite : applyResp2Write layer follower.keyspace (history (follower.state.offset + 1))
      with ⟨keyspace, _ | error⟩
    · rw [applyMutations, hwrite]
      rw [add_comm rest.length, ← add_assoc]
      refine Reaches.step hwrite
        (ih ?_ ?_ ?_ : Reaches layer history (follower.after 1 keyspace) _ _)
      · intro hne
        exact mod_eq_of_lt (by have := length_pos_iff.mpr hne; omega)
      · intro index payload hpayload
        rw [hpayloads (index + 1) payload hpayload, add_comm index, ← add_assoc]
        rfl
      · change follower.state.offset + 1 + rest.length < _
        omega
    · rw [applyMutations, hwrite]
      exact .failed 0 follower.keyspace keyspace error (by omega) rfl hwrite

theorem applyFirehoseBatch_outcome (hvalid : follower.state.valid = true)
    (hagrees : batch.id = follower.state.id → batch.Agrees history) :
    Outcome layer history follower batch (applyFirehoseBatch layer follower batch) := by
  have hbound := batch.offset_lt
  rw [applyFirehoseBatch]
  split
  · rename_i hnone
    exact .misplaced _ (hnone.elim .inl fun h ↦ .inr (.inl h))
  rename_i hsome
  push Not at hsome
  split
  · exact .misplaced _ (.inr (.inr (.inl (by omega))))
  have hlimit : batch.offset + batch.mutations.length ≤ 2 ^ 64 := by omega
  dsimp only
  split
  · rename_i hid
    exact .misplaced _ (.inr (.inr (.inr (.inl
      (hid.elim (fun h ↦ by simp [hvalid] at h) Ne.symm)))))
  rename_i hid
  push Not at hid
  have hplaced : Misplaced follower.state batch ↔ follower.state.offset + 1 < batch.offset := by
    simp only [Misplaced, hsome.1, hsome.2, hid.2, not_lt.mpr hlimit, ne_eq, not_true_eq_false,
      false_or]
  split
  · exact .known (by rw [hplaced]; omega) (by omega)
  split
  · exact .misplaced _ (hplaced.mpr (by omega))
  refine .new _ (by rw [hplaced]; omega) (by omega) ?_
  generalize hfirst : (if batch.offset ≤ follower.state.offset then _ else 0) = first
  have hstart : batch.offset + first = follower.state.offset + 1 := by
    split at hfirst <;> omega
  have hstop : follower.state.offset + 1 + (batch.mutations.drop first).length =
      batch.offset + batch.mutations.length := by
    rw [length_drop]
    omega
  rw [hstart, ← hstop]
  apply applyMutations_reaches
  · intro _
    exact mod_eq_of_lt (by omega)
  · intro index payload hpayload
    rw [getElem?_drop] at hpayload
    rw [hagrees hid.2.symm _ _ hpayload, ← hstart, add_assoc]
  · omega

theorem Outcome.executes (h : Outcome layer history follower batch outcome) :
    ∃ count, Executes layer history follower (range' (follower.state.offset + 1) count) outcome.1 ∧
      outcome.1.state = { follower.state with offset := follower.state.offset + count } := by
  cases h with
  | misplaced | known => exact ⟨0, .nil follower, rfl⟩
  | new _ _ _ hreaches =>
    cases hreaches with
    | all count keyspace _ hexecuted => exact ⟨count, .of_executed hexecuted, rfl⟩
    | failed count before keyspace error _ hexecuted hwrite =>
      refine ⟨count, ?_, rfl⟩
      rw [add_right_comm] at hwrite
      have hfailure : Executes layer history (follower.after count before) []
          (follower.after count keyspace) := .failure hwrite (.nil _)
      simpa using (Executes.of_executed hexecuted).trans hfailure

variable (layer)

/-- A store that takes every payload. -/
def acceptingLayer : CommandLayer (List Bytes) Bytes where
  parseFrame payload := .ok [payload]
  parseCommand fields := .ok fields.flatten
  mutatesStore _ := true
  execute keyspace command := (keyspace ++ [command], [43])

/-- A follower of it that has seen the first two. -/
def behind : Follower (List Bytes) := ⟨[], .replicate 16 7, 2, true⟩

/-- The writes 2 to 4 and 4 to 6, first ahead of their turn, then overlapping, twice and late. -/
def arrivals : List ReplicationBatch :=
  let early : ReplicationBatch := ⟨.replicate 16 7, 2, [[2], [3], [4]], by decide⟩
  let late : ReplicationBatch := ⟨.replicate 16 7, 4, [[4], [5], [6]], by decide⟩
  [late, early, early, late, early]

end GoblinCore.Replication
