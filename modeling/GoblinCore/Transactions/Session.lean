import GoblinCore.Store.Keyspace

/-!
# Sessions, transactions and watched keys

A session queues commands between MULTI and EXEC.  The registry of watched keys is shared by all
sessions: the store hands it the keys it changes, and it marks the sessions that watch them.  EXEC
gives up when its session is marked.  The clock moves between commands, and a key whose expiry has
passed stays in the store until something purges it.

The store itself is a parameter: commands change it and report keys.  Commands that are turned away
before they reach the transaction (an unauthenticated or a subscribed session) change nothing and
are left out, and so are the bytes of the replies.
-/

namespace GoblinCore

/-- What one command handed to the observer of the store: `key_modified` for some keys, or
`all_modified`. -/
inductive Signals where
  | keys (reported : List Bytes)
  | all

def Signals.covers (signals : Signals) (key : Bytes) : Bool :=
  match signals with
  | .keys reported => decide (key ∈ reported)
  | .all => true

/-- The value under a key with its expiry in milliseconds. -/
abbrev Entry (V : Type) := Option (V × Option ℕ)

namespace Entry

variable {V : Type}

def due (now : ℕ) (entry : Entry V) : Bool := entry.any fun found ↦ found.2.any (· ≤ now)

/-- What a client can see of an entry: one that is due counts as removed. -/
def visible (now : ℕ) (entry : Entry V) : Entry V := if entry.due now then none else entry

theorem due_mono {entry : Entry V} {now later : ℕ} (h : now ≤ later)
    (hnot : entry.due later = false) : entry.due now = false := by
  rcases entry with _ | ⟨value, _ | expiry⟩
  · rfl
  · rfl
  · have hlater : later < expiry := by simpa [due] using hnot
    have hnow : now < expiry := lt_of_le_of_lt h hlater
    simpa [due] using hnow

end Entry

/-- A store that hands every key it changes to its observer. -/
structure ObservedStore (S C V : Type) where
  entry : S → Bytes → Entry V
  execute : C → ℕ → S → S
  signals : C → ℕ → S → Signals
  purgeIfExpired : Bytes → ℕ → S → S
  /-- The assumption on the store: what a command changes it reports. -/
  reported : ∀ command now s key,
    entry (execute command now s) key ≠ entry s key → (signals command now s).covers key = true
  /-- A purge removes the key if it is due, and touches nothing else. -/
  entry_purge : ∀ key now s other, entry (purgeIfExpired key now s) other =
    if other = key then (entry s key).visible now else entry s other

inductive TransactionFailure where
  | none
  | commandError
  | bufferLimit
  deriving DecidableEq

/-- A command that waits for EXEC. -/
inductive Queued (C : Type) where
  | unwatch
  | stream
  | data (command : C)

/-- The buffer of one transaction holds so many bytes of records. -/
structure BufferOptions (C : Type) where
  mappedBytes : ℕ
  recordBytes : Queued C → ℕ

structure TransactionState (C : Type) where
  commands : List (Queued C) := []
  inMulti : Bool := false
  watchDirty : Bool := false
  hasWatches : Bool := false
  failure : TransactionFailure := .none

namespace TransactionState

variable {C : Type} (options : BufferOptions C)

variable (state : TransactionState C)

/-- MULTI starts with an empty buffer. -/
def start : TransactionState C :=
  { state with commands := [], inMulti := true, failure := .none }

def finish : TransactionState C :=
  { state with commands := [], inMulti := false, failure := .none }

/-- EXEC leaves MULTI before it runs the queue. -/
def left : TransactionState C := { state with inMulti := false }

/-- The session watches keys. -/
def watching : TransactionState C := { state with hasWatches := true }

/-- The session watches nothing and is not marked. -/
def unwatched : TransactionState C :=
  { state with hasWatches := false, watchDirty := false }

def usedBytes : ℕ := (state.commands.map options.recordBytes).sum

/-- `TransactionBuffer::append`, which refuses a record that does not fit. -/
def append (command : Queued C) (state : TransactionState C) : TransactionState C :=
  if options.recordBytes command ≤ options.mappedBytes - state.usedBytes options then
    { state with commands := state.commands ++ [command] }
  else { state with failure := .bufferLimit }

/-- A command inside MULTI. -/
def queue (command : Queued C) (state : TransactionState C) : TransactionState C :=
  match state.failure with
  | .bufferLimit => state
  | _ => state.append options command

/-- A request that could not be parsed, or a command that does not exist. -/
def commandError : TransactionState C :=
  if state.inMulti ∧ state.failure ≠ .bufferLimit then { state with failure := .commandError }
  else state

end TransactionState

inductive ClientCommand (C : Type) where
  | multi
  | exec
  | discard
  | watch (keys : List Bytes)
  | unwatch
  /-- GOBLIN.FIREHOSE, or GOBLIN.DUMPWORLD with arguments that are valid. -/
  | stream
  | unknown
  | data (command : C)

/-- What can happen next. -/
inductive Event (C : Type) where
  | send (session : ℕ) (command : ClientCommand C)
  /-- A WATCH that runs out of memory after it registered some of its keys. -/
  | watchFails (session : ℕ) (keys : List Bytes) (registered : ℕ)
  | malformed (session : ℕ)
  | disconnect (session : ℕ)
  /-- A command that comes another way: from a blocked client that is served, or over SBE. -/
  | external (command : C)
  /-- The sweep of expired keys reaches a key. -/
  | sweep (key : Bytes)
  | advance (elapsed : ℕ)

/-- What EXEC answers. -/
inductive ExecReply where
  | withoutMulti
  | null
  | execAbort (failure : TransactionFailure)
  | array (count : ℕ)
  deriving DecidableEq

/-- The store, the clock, which session watches which key, and the sessions. -/
structure Server (S C : Type) where
  store : S
  now : ℕ := 0
  watched : List (Bytes × ℕ) := []
  sessions : ℕ → TransactionState C := fun _ ↦ {}

namespace Server

variable {S C V : Type}

def updateSession (id : ℕ) (f : TransactionState C → TransactionState C) (server : Server S C) :
    Server S C :=
  { server with sessions := Function.update server.sessions id (f (server.sessions id)) }

/-! ## The registry of watched keys -/

/-- The body of `WatchRegistry::watch` up to the key it fails at. -/
def register (id : ℕ) (keys : List Bytes) (server : Server S C) : Server S C :=
  { server.updateSession id (·.watching) with watched := server.watched ++ keys.map (·, id) }

/-- `WatchRegistry::remove`: the session watches nothing any more and is not marked. -/
def remove (id : ℕ) (server : Server S C) : Server S C :=
  if (server.sessions id).hasWatches then
    { server.updateSession id (·.unwatched) with
      watched := server.watched.filter (·.2 ≠ id) }
  else server.updateSession id ({ · with watchDirty := false })

/-- `WatchRegistry::modified` for each key that was reported, or `modified_all`. -/
def modified (signals : Signals) (server : Server S C) : Server S C :=
  { server with sessions := fun id ↦
      if server.watched.any fun watch ↦ watch.2 = id && signals.covers watch.1 then
        { server.sessions id with watchDirty := true }
      else server.sessions id }

/-! ## What a session asks for -/

section Steps

variable (observed : ObservedStore S C V) (options : BufferOptions C)

def executeCommand (command : C) (server : Server S C) : Server S C :=
  { server with store := observed.execute command server.now server.store }.modified
    (observed.signals command server.now server.store)

variable (server : Server S C)

/-- `Store::purge_if_expired`, which reports the key if it removes it. -/
def purge (key : Bytes) : Server S C :=
  if (observed.entry server.store key).due server.now then
    { server with store := observed.purgeIfExpired key server.now server.store }.modified
      (.keys [key])
  else server

def runQueued : Queued C → Server S C
  -- UNWATCH has nothing left to remove, and the streams are refused inside a transaction.
  | .unwatch => server
  | .stream => server
  | .data command => server.executeCommand observed command

/-- What EXEC will answer. -/
def execReply (id : ℕ) (server : Server S C) : ExecReply :=
  let state := server.sessions id
  if !state.inMulti then .withoutMulti
  else if state.watchDirty then .null
  else match state.failure with
    | .none => .array state.commands.length
    | failure => .execAbort failure

/-- `execute_queued_transaction`. -/
def executeQueuedTransaction (id : ℕ) (server : Server S C) : Server S C :=
  match server.execReply id with
  | .withoutMulti => server
  | .array _ =>
    let opened := (server.remove id).updateSession id (·.left)
    ((server.sessions id).commands.foldl (runQueued observed) opened).updateSession id (·.finish)
  | _ => (server.remove id).updateSession id (·.finish)

/-- WATCH purges its keys and registers them; what it registered is dropped again, with everything
the session watched before, when memory runs out at some key. -/
def watch (id : ℕ) (keys : List Bytes) (failsAt : Option ℕ) (server : Server S C) : Server S C :=
  let purged := keys.foldl (purge observed) server
  match failsAt with
  | none => purged.register id keys
  | some registered => (purged.register id (keys.take registered)).remove id

/-- One command of a session: `execute_transaction_control`, and what `dispatch_resp_command` does
with the commands that it leaves. -/
def dispatch (id : ℕ) (command : ClientCommand C) (server : Server S C) : Server S C :=
  let inMulti := (server.sessions id).inMulti
  match command with
  | .unknown => server.updateSession id (·.commandError)
  | .multi => if inMulti then server else server.updateSession id (·.start)
  | .exec => server.executeQueuedTransaction observed id
  | .discard => if inMulti then (server.remove id).updateSession id (·.finish) else server
  | .watch keys => if inMulti then server else server.watch observed id keys none
  | .unwatch =>
    if inMulti then server.updateSession id (·.queue options .unwatch) else server.remove id
  | .stream =>
    if inMulti then server.updateSession id (·.queue options .stream) else server.remove id
  | .data command =>
    if inMulti then server.updateSession id (·.queue options (.data command))
    else server.executeCommand observed command

def step : Event C → Server S C
  | .send id command => server.dispatch observed options id command
  | .watchFails id keys registered =>
    if (server.sessions id).inMulti then server else server.watch observed id keys (some registered)
  | .malformed id => server.updateSession id (·.commandError)
  | .disconnect id => { server.remove id with
      sessions := Function.update (server.remove id).sessions id {} }
  | .external command => server.executeCommand observed command
  | .sweep key => server.purge observed key
  | .advance elapsed => { server with now := server.now + elapsed }

def run (events : List (Event C)) : Server S C :=
  events.foldl (step observed options) server

end Steps

end Server

end GoblinCore
