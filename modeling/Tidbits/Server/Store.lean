import Tidbits.Server.Connection
import Tidbits.Server.ConnectionLists

/-!
# The connections of a server and the functions on them

The connection structs with their lists and mutexes, the `ServiceConnection()`
tasks that exist, and the functions of `server.c` that change them.  Each
function here runs as one step; `Tidbits.Server.Step` says when.

* A task is created by `doEvent` and ends with `free(w)`.  Between the two it
  waits in the thread pool or is run by one of its threads; which of these, and
  on which thread, makes no difference to the connections.
* A failing `ASSERT` ends the process: `exited`.  The `DASSERT`s are left out; one that
  fails only ends a run earlier.
* The cleanup callback is called by `removeConnection`, which resets everything
  the callback could have set; of the call only its result remains, which with
  that of `close()` decides whether the process goes on.
* `history` and `effects` record what the properties speak of.
-/

namespace Tidbits.Server

/-- The compile-time parameters, within the bounds that `server.h` checks, and the
callbacks that the listeners were set up with. -/
structure Config where
  /-- `PO_SERVER_THREADPOOL` is defined, and `PO_SERVER_NO_THREADPOOL` is not. -/
  threadPool : Bool
  /-- `PO_SERVER_NUM_LISTENERS`. -/
  numListeners : ℕ
  /-- `PO_SERVER_MAX_EPOLL_EVENTS`. -/
  maxEpollEvents : ℕ
  /-- `PO_SERVER_MAX_CONNECTIONS`. -/
  maxConnections : ℕ
  /-- `PO_SERVER_CONNECTION_WAIT_TIMEOUT` in milliseconds; `-1` is forever. -/
  waitTimeout : ℤ
  /-- `PO_SERVER_CONNECTION_LONG_TIMEOUT` in milliseconds; `-1` is forever. -/
  longTimeout : ℤ
  listenerCallback : Fin numListeners → Callback
  numListeners_pos : 1 ≤ numListeners
  maxEpollEvents_pos : 1 ≤ maxEpollEvents
  maxConnections_pos : 1 ≤ maxConnections
  waitTimeout_ge : -1 ≤ waitTimeout
  longTimeout_ge : -1 ≤ longTimeout
  timeouts_ordered : 0 < longTimeout → 0 < waitTimeout → waitTimeout < longTimeout

namespace Config

/-! A timeout of a millisecond and one that is off are within the bounds. -/

theorem millisecond_ge : -1 ≤ (1 : ℤ) := by decide

theorem off_ge : -1 ≤ (-1 : ℤ) := le_rfl

theorem off_ordered : 0 < (-1 : ℤ) → 0 < (1 : ℤ) → (1 : ℤ) < -1 := by decide

end Config

/-- The index of a connection struct. -/
abbrev ConnId (cfg : Config) := Fin cfg.maxConnections

instance (cfg : Config) : LawfulBEq (ConnId cfg) := inferInstance

/-- The index of a listener. -/
abbrev ListenerId (cfg : Config) := Fin cfg.numListeners

/-- Where a `ServiceConnection()` task is. -/
inductive Place
  /-- Before the locking of the connection mutex. -/
  | queued
  /-- Holding the connection mutex, at the comparison of the change counts. -/
  | locked
  /-- Holding the connection mutex, working on the callbacks. -/
  | serving (phase : Phase)
  /-- Holding nothing, before the locking of the server mutex. -/
  | lockServer (removeMe : Bool)
  /-- Holding the server mutex, before the locking of the connection mutex. -/
  | lockConn (removeMe : Bool)
deriving DecidableEq, Repr

/-- `struct POServer_worker`, the argument of a `ServiceConnection()` task. -/
structure Worker (cfg : Config) where
  conn : ConnId cfg
  changeCount : ℕ
  place : Place
  /-- Which accepted connection the task was queued for. -/
  queuedFor : ℕ
  /-- Which accepted connection the event was fetched for that the task was queued by. -/
  source : ℕ

/-- What the history of a server records of its accepted connections. -/
inductive Observation
  /-- A call of the read or write callback, and the connection whose task makes it. -/
  | called (d : Direction) (acceptNo queuedFor : ℕ)
  /-- A call of `removeConnection`, whether the struct was in the used list, and
  whether its cleanup callback was called. -/
  | removed (acceptNo : ℕ) (inUsed cleanup : Bool)
deriving DecidableEq, Repr

/-- The connections of `struct POServer` and the tasks that work on them. -/
structure Store (cfg : Config) where
  conn : ConnId cfg → Connection
  lists : ConnectionLists (ConnId cfg)
  /-- The task that holds the mutex of a connection. -/
  connMutex : ConnId cfg → Option ℕ
  worker : ℕ → Option (Worker cfg)
  /-- How many tasks were created; the next one gets this number. -/
  workers : ℕ
  /-- How many connections were accepted; the next one gets this number. -/
  accepts : ℕ
  /-- The process has ended. -/
  exited : Bool
  /-- The observations, last first. -/
  history : List Observation
  /-- Every effect of an event that was fetched for a connection: which accepted
  connection that was, and which one was affected. -/
  effects : List (ℕ × ℕ)

namespace Store

variable {cfg : Config}

/-- `poServer_create`. -/
def create (cfg : Config) : Store cfg where
  conn := fun _ ↦ .unused
  lists := .create cfg.maxConnections
  connMutex := fun _ ↦ none
  worker := fun _ ↦ none
  workers := 0
  accepts := 0
  exited := false
  history := []
  effects := []

/-- Write a connection struct. -/
def setConn (s : Store cfg) (c : ConnId cfg) (conn : Connection) : Store cfg :=
  { s with conn := Function.update s.conn c conn }

/-- Set or free a task. -/
def setWorker (s : Store cfg) (i : ℕ) (w : Option (Worker cfg)) : Store cfg :=
  { s with worker := Function.update s.worker i w }

/-- Lock or unlock a connection mutex. -/
def setMutex (s : Store cfg) (c : ConnId cfg) (owner : Option ℕ) : Store cfg :=
  { s with connMutex := Function.update s.connMutex c owner }

/-- Record that an event fetched for `source` affects the connection. -/
def affect (s : Store cfg) (source : Option ℕ) (c : ConnId cfg) : Store cfg :=
  match source with
  | some n => { s with effects := (n, (s.conn c).acceptNo) :: s.effects }
  | none => s

/-- `removeConnection`.  With `ok`, the cleanup callback and `close()` return `0`. -/
def removeConnection (s : Store cfg) (c : ConnId cfg) (ok : Bool) : Store cfg :=
  let conn := s.conn c
  let removed := Observation.removed conn.acceptNo (decide (c ∈ s.lists.usedWalk))
    conn.cleanupCallback.isSome
  let s := { s with lists := s.lists.listRemove c, history := removed :: s.history }
  -- `close(-1)` fails
  if ok && decide (0 ≤ conn.fd) then s.setConn c (conn.reset cfg.threadPool)
  else { s with exited := true }

/-- `conn->markedForRemoval = true`, because of the event of `source` if there is one. -/
def mark (s : Store cfg) (c : ConnId cfg) (source : Option ℕ) : Store cfg :=
  s.setConn c
    { s.conn c with markedForRemoval := true, markedFor := source.or (s.conn c).markedFor }

/-- `mutexTryLock(&conn->mutex)`. -/
def canLock (s : Store cfg) (c : ConnId cfg) : Bool := !cfg.threadPool || (s.connMutex c).isNone

/-- `checkTryRemoveConnection`, with whether it has removed the connection. -/
def checkTryRemoveConnection (s : Store cfg) (c : ConnId cfg) (source : Option ℕ) (ok : Bool) :
    Store cfg × Bool :=
  if s.canLock c then ((s.affect source c).removeConnection c ok, true)
  else ((s.affect source c).mark c source, false)

/-- `addConnection`, of a socket that could be made nonblocking and was added to
the epoll instance. -/
def addConnection (s : Store cfg) (fd : ℤ) (now : Time) (callback : Callback) : Store cfg :=
  match s.lists.listAddNew with
  | some (c, lists) =>
      { s with lists := lists, accepts := s.accepts + 1 }.setConn c
        ((s.conn c).accepted fd now callback s.accepts)
  | none =>
      -- `s->unused.front` is `NULL`
      { s with exited := true }

/-- `if(ev->events & EPOLLIN) conn->readReady = true;` and likewise `EPOLLOUT`. -/
def setReady (s : Store cfg) (c : ConnId cfg) (input output : Bool) : Store cfg :=
  let conn := s.conn c
  let conn := if input then conn.setReady .read true else conn
  let conn := if output then conn.setReady .write true else conn
  s.setConn c conn

/-- Allocate the argument of a `ServiceConnection()` task for the thread pool. -/
def newWorker (s : Store cfg) (c : ConnId cfg) (source : ℕ) : Store cfg :=
  let w : Worker cfg := ⟨c, (s.conn c).changeCount, .queued, (s.conn c).acceptNo, source⟩
  { s with workers := s.workers + 1 }.setWorker s.workers (some w)

/-- Record the call of a callback. -/
def call (s : Store cfg) (c : ConnId cfg) (queuedFor source : ℕ) (called : Option Direction) :
    Store cfg :=
  match called with
  | some d =>
      { s.affect (some source) c with
        history := .called d (s.conn c).acceptNo queuedFor :: s.history }
  | none => s

/-- A step of the part of `ServiceConnection()` that runs the callbacks, for a task queued for
`queuedFor`. -/
def serve (s : Store cfg) (c : ConnId cfg) (queuedFor source : ℕ) (phase : Phase)
    (a : ServiceAction) : Option (Store cfg × Phase) :=
  ((s.conn c).serve phase a).map fun r ↦
    ((s.call c queuedFor source r.called).setConn c r.conn, r.phase)

/-- `ServiceConnection()` up to the unlocking of the connection mutex. -/
def serviceConnection (s : Store cfg) (i : ℕ) (w : Worker cfg) (a : ServiceAction) :
    Option (Store cfg) :=
  match w.place with
  | .queued =>
      if (s.connMutex w.conn).isNone && a == .go then
        some ((s.setMutex w.conn (some i)).setWorker i (some { w with place := .locked }))
      else none
  | .locked =>
      if a == .go then
        if w.changeCount ≠ (s.conn w.conn).changeCount then
          some ((s.setMutex w.conn none).setWorker i none)
        else some (s.setWorker i (some { w with place := .serving .start }))
      else none
  | .serving (.done removeMe) =>
      if a == .go then
        some ((s.setMutex w.conn none).setWorker i (some { w with place := .lockServer removeMe }))
      else none
  | .serving phase =>
      (s.serve w.conn w.queuedFor w.source phase a).map fun (s, phase) ↦
        s.setWorker i (some { w with place := .serving phase })
  | .lockServer _ | .lockConn _ => none

/-- The end of `ServiceConnection()`, with both mutexes locked. -/
def finishService (s : Store cfg) (i : ℕ) (w : Worker cfg) (removeMe ok : Bool) : Store cfg :=
  let conn := s.conn w.conn
  let s :=
    if conn.changeCount = w.changeCount ∧ removeMe = true then
      (s.affect (some w.source) w.conn).removeConnection w.conn ok
    else if conn.markedForRemoval = true then
      (s.affect conn.markedFor w.conn).removeConnection w.conn ok
    else s
  if s.exited then s else s.setWorker i none

end Store

end Tidbits.Server
