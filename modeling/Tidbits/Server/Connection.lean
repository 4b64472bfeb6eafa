import Tidbits.Clock
import Mathlib.Data.Nat.Notation
import Mathlib.Logic.Function.Basic
import Mathlib.Tactic.SplitIfs

/-!
# One connection struct, and the service of a connection

The fields of `struct POServer_connection` and the part of `ServiceConnection()`
that runs the callbacks.  It runs with the connection mutex locked, one step for
each test of the source and for each call that a callback makes, so that other
threads may move between them.

A callback is the number of its function with that of its data; a `NULL`
function is `none`.  What a callback does to the server is what it can do through
`server.h`: set the callbacks of its connection any number of times and return.
Its socket reads and writes are not modelled.
-/

namespace Tidbits.Server

/-- A function of type `POServer_callback_t` and the data it is called with. -/
structure Callback where
  function : ℕ
  data : ℕ
deriving DecidableEq, Repr

/-- Which of the pairs `readCallback` and `readReady`, `writeCallback` and
`writeReady` is meant. -/
inductive Direction
  | read
  | write
deriving DecidableEq, Repr

/-- `struct POServer_connection`, but for its pointers and its mutex.  In the build
without threads `changeCount` and `markedForRemoval` do not exist; nothing
changes or reads them there.  `changeCount` does not wrap. -/
structure Connection where
  changeCount : ℕ
  markedForRemoval : Bool
  fd : ℤ
  acceptTime : Time
  /-- `readCallback` and `writeCallback`, with their data. -/
  callback : Direction → Option Callback
  cleanupCallback : Option Callback
  /-- `readReady` and `writeReady`. -/
  ready : Direction → Bool
  /-- Which accepted connection the struct was last used for. -/
  acceptNo : ℕ
  /-- For which accepted connection an event was fetched that set `markedForRemoval`. -/
  markedFor : Option ℕ

namespace Connection

/-- A struct of the zeroed server with its `fd` marked as closed. -/
def unused : Connection := ⟨0, false, -1, 0, fun _ ↦ none, none, fun _ ↦ false, 0, none⟩

/-- `!conn->readCallback && !conn->writeCallback`. -/
def noCallback (conn : Connection) : Bool :=
  (conn.callback .read).isNone && (conn.callback .write).isNone

/-- The readiness and the callback that make a call in direction `d`. -/
def calls (conn : Connection) (d : Direction) : Bool := conn.ready d && (conn.callback d).isSome

/-- Assign `readCallback` or `writeCallback`. -/
def setCallback (conn : Connection) (d : Direction) (callback : Option Callback) : Connection :=
  { conn with callback := Function.update conn.callback d callback }

/-- Assign `readReady` or `writeReady`. -/
def setReady (conn : Connection) (d : Direction) (ready : Bool) : Connection :=
  { conn with ready := Function.update conn.ready d ready }

/-- `conn->readCallback = conn->writeCallback = NULL`. -/
def dropCallbacks (conn : Connection) : Connection := { conn with callback := fun _ ↦ none }

/-- What `removeConnection` leaves of a connection whose `fd` it closed. -/
def reset (threadPool : Bool) (conn : Connection) : Connection :=
  { conn with
    changeCount := if threadPool then conn.changeCount + 1 else conn.changeCount
    markedForRemoval := if threadPool then false else conn.markedForRemoval
    fd := -1
    callback := fun _ ↦ none
    cleanupCallback := none
    ready := fun _ ↦ false
    markedFor := none }

/-- What `addConnection` makes of an unused connection. -/
def accepted (conn : Connection) (fd : ℤ) (acceptTime : Time) (callback : Callback)
    (acceptNo : ℕ) : Connection :=
  { conn with fd := fd, acceptTime := acceptTime, acceptNo := acceptNo }.setCallback .read
    (some callback)

end Connection

/-! ## The calls of a service -/

/-- Where `ServiceConnection()` is while it works on the callbacks, with its
variable `removeMe`. -/
inductive Phase
  /-- At the test for a call in the direction. -/
  | test (d : Direction) (removeMe : Bool)
  /-- In the callback of the direction. -/
  | inCallback (d : Direction) (removeMe : Bool)
  /-- At the test for a connection without callbacks. -/
  | check (removeMe : Bool)
  /-- Done with the callbacks. -/
  | done (removeMe : Bool)
deriving DecidableEq, Repr

/-- The start of the tests. -/
def Phase.start : Phase := .test .read false

/-- What follows the block of a direction. -/
def Phase.after : Direction → Bool → Phase
  | .read, removeMe => .test .write removeMe
  | .write, removeMe => .check removeMe

/-- What a service does next; in a callback the callback decides. -/
inductive ServiceAction
  /-- The service goes on with its own code. -/
  | go
  /-- The callback calls `poServer_setReadCallback()` or `poServer_setWriteCallback()`. -/
  | setCallback (d : Direction) (callback : Option Callback)
  /-- The callback calls `poServer_setCleanupCallback()`. -/
  | setCleanupCallback (callback : Option Callback)
  /-- The callback returns. -/
  | returns (value : ℤ)
deriving DecidableEq, Repr

/-- The result of a service step: the connection, the direction of the callback it
called, if any, and where the service is next. -/
structure ServiceStep where
  conn : Connection
  called : Option Direction
  phase : Phase

namespace Connection

/-- `poServer_setReadCallback()` and `poServer_setWriteCallback()`, which call a
callback that is new and has its event waiting. -/
def poServerSetCallback (conn : Connection) (d : Direction) (callback : Option Callback) :
    Connection × Option Direction :=
  (conn.setCallback d callback,
    if (conn.callback d).isNone && callback.isSome && conn.ready d then some d else none)

/-- The end of the block of direction `d`: the callback has returned `value`. -/
def callbackReturned (conn : Connection) (d : Direction) (removeMe : Bool) (value : ℤ) :
    Connection × Bool :=
  if value ≠ 0 then (conn.dropCallbacks, true)
  else if (conn.callback d).isSome then (conn.setReady d false, removeMe)
  else (conn, removeMe)

/-- `ServiceConnection()` between the locking of the connection mutex and its unlocking. -/
def serve (conn : Connection) : Phase → ServiceAction → Option ServiceStep
  | .test d removeMe, .go =>
      if conn.calls d then some ⟨conn, some d, .inCallback d removeMe⟩
      else some ⟨conn, none, .after d removeMe⟩
  | .inCallback d removeMe, .setCallback d' callback =>
      let (conn, called) := conn.poServerSetCallback d' callback
      some ⟨conn, called, .inCallback d removeMe⟩
  | .inCallback d removeMe, .setCleanupCallback callback =>
      some ⟨{ conn with cleanupCallback := callback }, none, .inCallback d removeMe⟩
  | .inCallback d removeMe, .returns value =>
      let (conn, removeMe) := conn.callbackReturned d removeMe value
      some ⟨conn, none, .after d removeMe⟩
  | .check removeMe, .go => some ⟨conn, none, .done (removeMe || conn.noCallback)⟩
  | _, _ => none

/-- The connection is still the same accepted connection. -/
structure SameUse (conn conn' : Connection) : Prop where
  changeCount : conn'.changeCount = conn.changeCount
  fd : conn'.fd = conn.fd
  acceptNo : conn'.acceptNo = conn.acceptNo

/-- What a service leaves of a connection: everything but its callbacks and its readiness. -/
structure Served (conn conn' : Connection) : Prop extends SameUse conn conn' where
  markedForRemoval : conn'.markedForRemoval = conn.markedForRemoval
  markedFor : conn'.markedFor = conn.markedFor

theorem SameUse.refl (conn : Connection) : conn.SameUse conn := ⟨rfl, rfl, rfl⟩

theorem Served.refl (conn : Connection) : conn.Served conn := ⟨.refl conn, rfl, rfl⟩

theorem served_setReady (conn : Connection) (d : Direction) (ready : Bool) :
    conn.Served (conn.setReady d ready) := ⟨⟨rfl, rfl, rfl⟩, rfl, rfl⟩

theorem served_callbackReturned (conn : Connection) (d : Direction) (removeMe : Bool)
    (value : ℤ) : conn.Served (conn.callbackReturned d removeMe value).1 := by
  unfold callbackReturned
  split_ifs
  · exact ⟨⟨rfl, rfl, rfl⟩, rfl, rfl⟩
  · exact conn.served_setReady d false
  · exact .refl conn

/-- **A service keeps the use of its connection.** -/
theorem served_serve {conn : Connection} {phase : Phase} {a : ServiceAction} {r : ServiceStep}
    (h : conn.serve phase a = some r) : conn.Served r.conn := by
  cases phase with
  | test d removeMe =>
      cases a with
      | go =>
          rw [serve] at h
          split_ifs at h <;> cases h <;> exact .refl conn
      | setCallback d' callback => cases h
      | setCleanupCallback callback => cases h
      | returns value => cases h
  | inCallback d removeMe =>
      cases a with
      | go => cases h
      | setCallback d' callback =>
          cases h
          exact ⟨⟨rfl, rfl, rfl⟩, rfl, rfl⟩
      | setCleanupCallback callback =>
          cases h
          exact ⟨⟨rfl, rfl, rfl⟩, rfl, rfl⟩
      | returns value =>
          cases h
          exact conn.served_callbackReturned d removeMe value
  | check removeMe =>
      cases a with
      | go =>
          cases h
          exact .refl conn
      | setCallback d' callback => cases h
      | setCleanupCallback callback => cases h
      | returns value => cases h
  | done removeMe => cases a <;> cases h

end Connection

end Tidbits.Server
