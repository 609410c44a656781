import GoblinCore.Transactions.StoreObserver

/-!
# What a watched key promises

Between a WATCH and the EXEC that runs the queue no watched key may have changed.  The argument is
one relation between two states of the server, `Tracks`: as long as a session keeps its watches,
a key it watches is as it was or the session is marked, and a mark stays.  Every step but a few
moves along that relation, and the steps that do not are the ones the condition names.
-/

namespace GoblinCore

open Function TransactionState

namespace Server

variable {S C V : Type}

section Fields

variable (server : Server S C) (id : ℕ)

variable {f : TransactionState C → TransactionState C} {other : ℕ} {signals : Signals}

@[simp]
theorem updateSession_self : (server.updateSession id f).sessions id = f (server.sessions id) := by
  simp [updateSession]

theorem updateSession_of_ne
    (h : other ≠ id) : (server.updateSession id f).sessions other = server.sessions other := by
  simp [updateSession, h]

@[simp]
theorem remove_store : (server.remove id).store = server.store := by
  unfold remove; split <;> rfl

@[simp]
theorem remove_now : (server.remove id).now = server.now := by
  unfold remove; split <;> rfl

theorem remove_sessions_of_ne (h : other ≠ id) :
    (server.remove id).sessions other = server.sessions other := by
  unfold remove
  split
  · exact updateSession_of_ne server id h
  · exact updateSession_of_ne server id h

theorem mem_remove_watched_of_ne {key : Bytes} (h : other ≠ id)
    (hmem : (key, other) ∈ server.watched) : (key, other) ∈ (server.remove id).watched := by
  unfold remove
  split
  · exact List.mem_filter.2 ⟨hmem, by simpa using h⟩
  · exact hmem

theorem modified_dirty (h : (server.sessions id).watchDirty = true) :
    ((server.modified signals).sessions id).watchDirty = true := by
  simp only [modified]
  split
  · rfl
  · exact h

/-- A session that watches a key which was reported is marked. -/
theorem modified_marks {key : Bytes} (hmem : (key, id) ∈ server.watched)
    (hcover : signals.covers key = true) :
    ((server.modified signals).sessions id).watchDirty = true := by
  have hany : (server.watched.any fun watch ↦ watch.2 = id && signals.covers watch.1) = true := by
    rw [List.any_eq_true]
    exact ⟨(key, id), hmem, by simp [hcover]⟩
  simp [modified, hany]

theorem modified_hasWatches :
    ((server.modified signals).sessions id).hasWatches = (server.sessions id).hasWatches := by
  simp only [modified]
  split <;> rfl

end Fields

variable (observed : ObservedStore S C V) (options : BufferOptions C)

/-- What a client can see of a key. -/
def visible (server : Server S C) (key : Bytes) : Entry V :=
  (observed.entry server.store key).visible server.now

/-- From one state to a later one a session keeps its watches and its mark, and it is marked if
a key that it watches was changed. -/
structure Tracks (id : ℕ) (before after : Server S C) : Prop where
  dirty : (before.sessions id).watchDirty = true → (after.sessions id).watchDirty = true
  hasWatches : (before.sessions id).hasWatches = true → (after.sessions id).hasWatches = true
  watched : ∀ key, (key, id) ∈ before.watched → (key, id) ∈ after.watched
  changed : ∀ key, (key, id) ∈ before.watched →
    observed.entry after.store key ≠ observed.entry before.store key →
    (after.sessions id).watchDirty = true
  now : before.now ≤ after.now

namespace Tracks

variable {observed} {id : ℕ}

theorem refl (server : Server S C) : Tracks observed id server server where
  dirty := fun h ↦ h
  hasWatches := fun h ↦ h
  watched := fun _ h ↦ h
  changed := fun _ _ h ↦ absurd rfl h
  now := Nat.le_refl _

theorem trans {first second third : Server S C} (h : Tracks observed id first second)
    (h' : Tracks observed id second third) : Tracks observed id first third where
  dirty := fun hdirty ↦ h'.dirty (h.dirty hdirty)
  hasWatches := fun hwatches ↦ h'.hasWatches (h.hasWatches hwatches)
  watched := fun key hmem ↦ h'.watched key (h.watched key hmem)
  changed := by
    intro key hmem hne
    by_cases hfst : observed.entry second.store key = observed.entry first.store key
    · exact h'.changed key (h.watched key hmem) (by rwa [hfst])
    · exact h'.dirty (h.changed key hmem hfst)
  now := Nat.le_trans h.now h'.now

theorem foldl {ι : Type} {f : Server S C → ι → Server S C}
    (hf : ∀ server i, Tracks observed id server (f server i)) :
    ∀ (l : List ι) (server : Server S C), Tracks observed id server (l.foldl f server)
  | [], server => refl server
  | i :: l, server => (hf server i).trans (foldl hf l (f server i))

/-- A step of the store that reports what it changes. -/
theorem modified {server : Server S C} {store : S} {signals : Signals}
    (h : ∀ key, observed.entry store key ≠ observed.entry server.store key →
      signals.covers key = true) :
    Tracks observed id server ({ server with store := store }.modified signals) where
  dirty := modified_dirty { server with store := store } id
  hasWatches := fun h ↦ by rwa [modified_hasWatches { server with store := store } id]
  watched := fun _ hmem ↦ hmem
  changed := fun key hmem hne ↦
    modified_marks { server with store := store } id hmem (h key hne)
  now := Nat.le_refl _

/-- A change of a session's own state that leaves the mark alone. -/
theorem updateSession (f : TransactionState C → TransactionState C)
    (hdirty : ∀ state, (f state).watchDirty = state.watchDirty)
    (hwatches : ∀ state, state.hasWatches = true → (f state).hasWatches = true) (other : ℕ)
    (server : Server S C) :
    Tracks observed id server (server.updateSession other f) where
  dirty := by
    intro h
    by_cases hid : id = other
    · subst hid
      rw [updateSession_self, hdirty]
      exact h
    · rwa [updateSession_of_ne server other hid]
  hasWatches := by
    intro h
    by_cases hid : id = other
    · subst hid
      rw [updateSession_self]
      exact hwatches _ h
    · rwa [updateSession_of_ne server other hid]
  watched := fun _ hmem ↦ hmem
  changed := fun _ _ h ↦ absurd rfl h
  now := Nat.le_refl _

theorem remove {other : ℕ} (hid : id ≠ other) (server : Server S C) :
    Tracks observed id server (server.remove other) where
  dirty := fun h ↦ by rwa [remove_sessions_of_ne server other hid]
  hasWatches := fun h ↦ by rwa [remove_sessions_of_ne server other hid]
  watched := fun _ ↦ mem_remove_watched_of_ne server other hid
  changed := fun _ _ h ↦ absurd (by rw [remove_store]) h
  now := Nat.le_of_eq (remove_now server other).symm

end Tracks

section StepsTrack

variable {observed options} {id : ℕ}

variable {server : Server S C} {other : ℕ}

theorem executeCommand_tracks {command : C} :
    Tracks observed id server (server.executeCommand observed command) :=
  Tracks.modified (observed.reported command server.now server.store)

theorem purge_tracks (server : Server S C) (key : Bytes) :
    Tracks observed id server (server.purge observed key) := by
  unfold purge
  split
  · refine Tracks.modified fun other hne ↦ ?_
    have hkey : other = key := by
      by_contra hoth
      rw [observed.entry_purge, if_neg hoth] at hne
      exact hne rfl
    simp [Signals.covers, hkey]
  · exact Tracks.refl server

theorem register_tracks (other : ℕ) (keys : List Bytes) (server : Server S C) :
    Tracks observed id server (server.register other keys) := by
  have hst : Tracks observed id server (server.updateSession other (·.watching)) :=
    Tracks.updateSession watching (fun _ ↦ rfl) (fun _ _ ↦ rfl) other server
  exact { dirty := hst.dirty, hasWatches := hst.hasWatches,
          watched := fun _ hmem ↦ List.mem_append_left _ hmem,
          changed := hst.changed, now := hst.now }

theorem runQueued_tracks (server : Server S C) (command : Queued C) :
    Tracks observed id server (server.runQueued observed command) := by
  cases command with
  | unwatch => exact Tracks.refl server
  | stream => exact Tracks.refl server
  | data command => exact executeCommand_tracks

/-- What a session queues leaves its watches and its mark alone. -/
theorem queue_tracks {command : Queued C} :
    Tracks observed id server (server.updateSession other (·.queue options command)) := by
  have happend (state : TransactionState C) :
      (state.append options command).watchDirty = state.watchDirty ∧
        (state.append options command).hasWatches = state.hasWatches := by
    unfold append
    split <;> exact ⟨rfl, rfl⟩
  have hqueue (state : TransactionState C) :
      (state.queue options command).watchDirty = state.watchDirty ∧
        (state.queue options command).hasWatches = state.hasWatches := by
    unfold queue
    split
    · exact ⟨rfl, rfl⟩
    · exact happend state
  exact Tracks.updateSession _ (fun state ↦ (hqueue state).1)
    (fun state h ↦ (hqueue state).2.trans h) other server

theorem commandError_tracks :
    Tracks observed id server (server.updateSession other (·.commandError)) := by
  have herr (state : TransactionState C) :
      state.commandError.watchDirty = state.watchDirty ∧
        state.commandError.hasWatches = state.hasWatches := by
    unfold commandError
    split <;> exact ⟨rfl, rfl⟩
  exact Tracks.updateSession _ (fun state ↦ (herr state).1)
    (fun state h ↦ (herr state).2.trans h) other server

theorem finish_tracks : Tracks observed id server (server.updateSession other (·.finish)) :=
  Tracks.updateSession finish (fun _ ↦ rfl) (fun _ h ↦ h) other server

/-- EXEC of another session, and an EXEC outside MULTI. -/
theorem executeQueuedTransaction_tracks (h : id = other → (server.sessions other).inMulti = false) :
    Tracks observed id server (server.executeQueuedTransaction observed other) := by
  unfold executeQueuedTransaction
  by_cases hid : id = other
  · have hreply : server.execReply other = .withoutMulti := by simp [execReply, h hid]
    rw [hreply]
    exact Tracks.refl server
  · have hrem : Tracks observed id server (server.remove other) := Tracks.remove hid server
    split
    · exact Tracks.refl server
    · refine Tracks.trans ?_ finish_tracks
      refine Tracks.trans ?_ (Tracks.foldl runQueued_tracks _ _)
      exact hrem.trans (Tracks.updateSession left (fun _ ↦ rfl) (fun _ h ↦ h) other _)
    · exact hrem.trans finish_tracks

theorem watch_tracks {keys : List Bytes} :
    Tracks observed id server (server.watch observed other keys none) :=
  (Tracks.foldl purge_tracks keys server).trans (register_tracks other keys _)

end StepsTrack

/-! ## The steps that drop watches -/

/-- The session asks to have its watches dropped, or goes away. -/
def Clears (id : ℕ) (server : Server S C) : Event C → Prop
  | .send other .exec => other = id ∧ (server.sessions id).inMulti = true
  | .send other .discard => other = id ∧ (server.sessions id).inMulti = true
  | .send other .unwatch => other = id ∧ (server.sessions id).inMulti = false
  | .disconnect other => other = id
  | _ => False

/-- What the steps of a run have to meet: no WATCH runs out of memory, no session that watches
keys asks for a stream, and at EXEC no key the session watches is past its expiry and unpurged. -/
def Meets (server : Server S C) : Event C → Prop
  | .watchFails id _ _ => (server.sessions id).inMulti = true
  | .send id .stream =>
    (server.sessions id).inMulti = false → (server.sessions id).hasWatches = false
  | .send id .exec => (server.sessions id).inMulti = true →
    ∀ key, (key, id) ∈ server.watched → (observed.entry server.store key).due server.now = false
  | _ => True

/-- A property of every step of a run. -/
def Along (property : Server S C → Event C → Prop) : Server S C → List (Event C) → Prop
  | _, [] => True
  | server, event :: events =>
    property server event ∧ Along property (server.step observed options event) events

section Runs

variable {observed options} {id : ℕ} {server : Server S C}

section

variable (hwatches : (server.sessions id).hasWatches = true)
include hwatches

/-- One command of some session. -/
theorem dispatch_tracks {other : ℕ} {command : ClientCommand C}
    (hclear : ¬ Clears id server (.send other command))
    (hmeets : Meets observed server (.send other command)) :
    Tracks observed id server (server.dispatch observed options other command) := by
  cases command with
  | multi =>
    simp only [dispatch]
    split
    · exact Tracks.refl server
    · exact Tracks.updateSession start (fun _ ↦ rfl) (fun _ h ↦ h) other server
  | exec =>
    refine executeQueuedTransaction_tracks fun hid ↦ ?_
    subst hid
    simpa [Clears] using hclear
  | discard =>
    simp only [dispatch]
    split
    · next hmulti =>
      have hid : id ≠ other := by
        rintro rfl
        exact hclear ⟨rfl, hmulti⟩
      exact (Tracks.remove hid server).trans finish_tracks
    · exact Tracks.refl server
  | watch keys =>
    simp only [dispatch]
    split
    · exact Tracks.refl server
    · exact watch_tracks
  | unwatch =>
    simp only [dispatch]
    split
    · exact queue_tracks
    next hmulti =>
    have hid : id ≠ other := by
      rintro rfl
      exact hclear ⟨rfl, Bool.eq_false_iff.2 hmulti⟩
    exact Tracks.remove hid server
  | stream =>
    simp only [dispatch]
    split
    · exact queue_tracks
    next hmulti =>
    have hid : id ≠ other := by
      rintro rfl
      have hnone := hmeets (Bool.eq_false_iff.2 hmulti)
      rw [hwatches] at hnone
      exact absurd hnone (by decide)
    exact Tracks.remove hid server
  | unknown => exact commandError_tracks
  | data command =>
    simp only [dispatch]
    split
    · exact queue_tracks
    · exact executeCommand_tracks

theorem step_tracks {event : Event C} (hclear : ¬ Clears id server event)
    (hmeets : Meets observed server event) :
    Tracks observed id server (server.step observed options event) := by
  cases event with
  | send other command => exact dispatch_tracks hwatches hclear hmeets
  | watchFails other keys registered =>
    have hmulti : (server.sessions other).inMulti = true := hmeets
    simp only [step, hmulti, if_true]
    exact Tracks.refl server
  | malformed other => exact commandError_tracks
  | disconnect other =>
    have hid : id ≠ other := Ne.symm hclear
    have hrem : Tracks observed id server (server.remove other) := Tracks.remove hid server
    have hsame : (update (server.remove other).sessions other {}) id =
        (server.remove other).sessions id := update_of_ne hid _ _
    exact { dirty := fun h ↦ by simp only [step, hsame]; exact hrem.dirty h
            hasWatches := fun h ↦ by simp only [step, hsame]; exact hrem.hasWatches h
            watched := hrem.watched
            changed := fun key hmem hne ↦ by
              simp only [step, hsame]; exact hrem.changed key hmem hne
            now := hrem.now }
  | external command => exact executeCommand_tracks
  | sweep key => exact purge_tracks server key
  | advance elapsed =>
    exact { Tracks.refl server with now := Nat.le_add_right server.now elapsed }

/-- A run in which the session keeps its watches. -/
theorem run_tracks {events : List (Event C)}
    (hclear : Along observed options (fun server event ↦ ¬ Clears id server event) server events)
    (hmeets : Along observed options (Meets observed) server events) :
    Tracks observed id server (server.run observed options events) := by
  induction events generalizing server with
  | nil => exact Tracks.refl server
  | cons event events ih =>
    have hstep : Tracks observed id server (server.step observed options event) :=
      step_tracks hwatches hclear.1 hmeets.1
    exact hstep.trans (ih (hstep.hasWatches hwatches) hclear.2 hmeets.2)

end

theorem along_append {property : Server S C → Event C → Prop} {first second : List (Event C)} :
    Along observed options property server (first ++ second) ↔
      Along observed options property server first ∧
        Along observed options property (server.run observed options first) second := by
  induction first generalizing server with
  | nil => simp [Along, run]
  | cons event events ih =>
    simp only [List.cons_append, Along, ih, and_assoc]
    rfl

theorem run_append {first second : List (Event C)} :
    server.run observed options (first ++ second) =
      (server.run observed options first).run observed options second :=
  List.foldl_append

end Runs

end Server

/-! ## Watches are sound -/

/-- The keys that a session passes to WATCH, whatever becomes of it. -/
def Event.watchedBy {C : Type} (id : ℕ) : Event C → List Bytes
  | .send other (.watch keys) => if other = id then keys else []
  | .watchFails other keys _ => if other = id then keys else []
  | _ => []

namespace Server

variable {S C V : Type} (observed : ObservedStore S C V) (options : BufferOptions C)

/-- In this run, an EXEC that runs its queue finds every key that its session passed to a WATCH, and
did not drop since, as it was after that WATCH and at every point between. -/
def WatchSound (server : Server S C) (events : List (Event C)) : Prop :=
  ∀ (id : ℕ) (key : Bytes) (first : List (Event C)) (watch : Event C)
    (done todo rest : List (Event C)) (count : ℕ),
    events = first ++ watch :: (done ++ todo ++ .send id .exec :: rest) →
    key ∈ watch.watchedBy id →
    ((server.run observed options first).sessions id).inMulti = false →
    Along observed options (fun server event ↦ ¬ Clears id server event)
      (server.run observed options (first ++ [watch])) (done ++ todo) →
    (server.run observed options (first ++ watch :: (done ++ todo))).execReply id = .array count →
    (server.run observed options (first ++ watch :: done)).visible observed key =
      (server.run observed options (first ++ [watch])).visible observed key

section Soundness

variable {observed options} {id : ℕ} {server : Server S C}

/-- A WATCH outside MULTI that did not run out of memory guards its keys. -/
theorem watch_guards {watch : Event C} {key : Bytes} (hkey : key ∈ watch.watchedBy id)
    (hmulti : (server.sessions id).inMulti = false) (hmeets : Meets observed server watch) :
    ((server.step observed options watch).sessions id).hasWatches = true ∧
      (key, id) ∈ (server.step observed options watch).watched := by
  have hregister (keys : List Bytes) (hmem : key ∈ keys) (purged : Server S C) :
      ((purged.register id keys).sessions id).hasWatches = true ∧
        (key, id) ∈ (purged.register id keys).watched := by
    refine ⟨?_, List.mem_append_right _ (List.mem_map.2 ⟨key, hmem, rfl⟩)⟩
    exact congrArg hasWatches (updateSession_self purged id)
  cases watch with
  | send other command =>
    cases command with
    | watch keys =>
      by_cases hid : other = id
      · subst hid
        have hmem : key ∈ keys := by simpa [Event.watchedBy] using hkey
        simp only [step, dispatch, hmulti, Bool.false_eq_true, if_false]
        exact hregister keys hmem _
      · simp [Event.watchedBy, hid] at hkey
    | _ => simp [Event.watchedBy] at hkey
  | watchFails other keys registered =>
    have hrej : (server.sessions other).inMulti = true := hmeets
    by_cases hid : other = id
    · subst hid
      rw [hmulti] at hrej
      exact absurd hrej (by decide)
    · simp [Event.watchedBy, hid] at hkey
  | _ => simp [Event.watchedBy] at hkey

theorem execReply_eq_array {count : ℕ} (h : server.execReply id = .array count) :
    (server.sessions id).inMulti = true ∧ (server.sessions id).watchDirty = false := by
  unfold execReply at h
  grind

/-- From the WATCH to the EXEC, by way of any point between. -/
theorem visible_eq_of_tracks {after mid final : Server S C} {key : Bytes}
    (hmem : (key, id) ∈ after.watched) (hmid : Tracks observed id after mid)
    (hfinal : Tracks observed id mid final) (hclean : (final.sessions id).watchDirty = false)
    (hdue : (observed.entry final.store key).due final.now = false) :
    mid.visible observed key = after.visible observed key := by
  have hunmarked {state : Server S C} (h : Tracks observed id state final) :
      (state.sessions id).watchDirty ≠ true := by
    intro hdirty
    rw [h.dirty hdirty] at hclean
    exact absurd hclean (by decide)
  have hent : observed.entry mid.store key = observed.entry after.store key := by
    by_contra hne
    exact hunmarked hfinal (hmid.changed key hmem hne)
  have hent' : observed.entry final.store key = observed.entry mid.store key := by
    by_contra hne
    exact hunmarked (Tracks.refl final) (hfinal.changed key (hmid.watched key hmem) hne)
  rw [hent', hent] at hdue
  have hdueMid := Entry.due_mono hfinal.now hdue
  have hdueAfter := Entry.due_mono hmid.now hdueMid
  simp [visible, Entry.visible, hent, hdueMid, hdueAfter]

end Soundness

/-- A run all of whose steps meet the condition is sound. -/
theorem watchSound_of_meets (server : Server S C) (events : List (Event C))
    (hmeets : Along observed options (Meets observed) server events) :
    WatchSound observed options server events := by
  intro id key first watch done todo rest count hevents hkey hmulti hclear hreply
  set start := server.run observed options first with hstart
  set after := start.step observed options watch with hafter
  have hrun (l : List (Event C)) :
      server.run observed options (first ++ watch :: l) = after.run observed options l :=
    run_append
  rw [hevents, along_append] at hmeets
  obtain ⟨hwatch, hrest⟩ := hmeets.2
  rw [along_append] at hrest
  obtain ⟨hbetween, hexec, -⟩ := hrest
  obtain ⟨hwatches, hmem⟩ := watch_guards hkey hmulti hwatch
  rw [hrun] at hclear hreply ⊢
  rw [hrun]
  obtain ⟨hin, hclean⟩ := execReply_eq_array hreply
  rw [along_append] at hclear hbetween
  have hmid := run_tracks hwatches hclear.1 hbetween.1
  have hfinal := run_tracks (hmid.hasWatches hwatches) hclear.2 hbetween.2
  rw [run_append] at hclean hexec hin
  exact visible_eq_of_tracks hmem hmid hfinal hclean
    (hexec hin key (hfinal.watched key (hmid.watched key hmem)))

end Server

/-! ## A key that runs out while it is watched -/

/-- Two keys, of which one expires at 5. -/
def twoKeys : { s : Store (List Bytes) // s.Valid } :=
  ⟨_, (((Store.Reached.new.create [107] (.str [1]) [] rfl).expire [107] 5 0 {} [] (by decide)
    (by decide)).create [106] (.str [2]) [] rfl).valid⟩

def smallBuffer : BufferOptions Store.Command where
  mappedBytes := 4096
  recordBytes := fun _ ↦ 32

/-- WATCH the key that expires, queue a DEL of the other one, and let the clock pass 5 before
EXEC. -/
def expiringRun : List (Event Store.Command) :=
  [.send 0 (.watch [[107]]), .send 0 .multi, .send 0 (.data (.del [106])), .advance 10,
    .send 0 .exec]

/-- The same with an EXEC in time. -/
def timelyRun : List (Event Store.Command) :=
  [.send 0 (.watch [[107]]), .send 0 .multi, .send 0 (.data (.del [106])), .advance 3,
    .send 0 .exec]

def twoKeysServer : Server { s : Store (List Bytes) // s.Valid } Store.Command where
  store := twoKeys

theorem timelyRun_watchSound :
    Server.WatchSound Store.observed smallBuffer twoKeysServer timelyRun ∧
      (twoKeysServer.run Store.observed smallBuffer timelyRun).store.1.entry [106] = none := by
  refine ⟨Server.watchSound_of_meets Store.observed smallBuffer twoKeysServer timelyRun ?_, by
    decide⟩
  refine ⟨trivial, trivial, trivial, trivial, fun _ key hmem ↦ ?_, trivial⟩
  have hwatched : (key, 0) ∈ [(([107] : Bytes), 0)] := hmem
  have hkey : key = [107] := by simpa using hwatched
  subst hkey
  decide

theorem expiringRun_not_watchSound :
    ¬ Server.WatchSound Store.observed smallBuffer twoKeysServer expiringRun := by
  intro h
  have hvisible := h 0 [107] [] (.send 0 (.watch [[107]]))
    [.send 0 .multi, .send 0 (.data (.del [106])), .advance 10] [] [] 1 rfl
    (by decide) (by decide) (by simp [Server.Along, Server.Clears]) (by decide)
  exact absurd hvisible (by decide)

end GoblinCore
