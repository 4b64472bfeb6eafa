import Tidbits.Server.Connection
import Tidbits.Service.Input
import Tidbits.Service.Output
import Tidbits.Transition.Reach

/-!
# A session of a service

The callbacks that `service.c` gives to a connection (`Setup()`, `Read()`, `Write()`
and `Cleanup()`), run by the `ServiceConnection()` of `Tidbits.Server.Connection`.
A step is one system call with what follows up to the next one.  The labels carry
the results of the system calls, what the session callback does, and when the
server serves or removes the connection.

* `poService_send()` and `poService_sendF()` may be called by the session callback,
  by the cleanup callback of the user, and between the callbacks.  They call
  `Write()` themselves when the socket is ready and the queue was empty.
* `malloc()` does not fail: it would end the process.  The `DASSERT`s are left
  out; one that fails only ends a run earlier.
* The fields behind `queue` record what the properties speak of.
-/

namespace Tidbits.Service

open Server

/-- The compile-time parameter and the limit of a service, within the bounds that are checked. -/
structure Limits where
  /-- `PO_SERVICE_CHUNKLEN`. -/
  chunkLen : ℕ
  maxMessageLength : ℕ
  /-- `PO_SERVER_THREADPOOL` is defined. -/
  threadPool : Bool
  chunkLen_ge : 2 ≤ chunkLen
  maxMessageLength_ge : 2 ≤ maxMessageLength

/-- A service, with what its sessions can send. -/
structure Config (Call Out Result : Type) extends Limits where
  /-- The service has a `POTls`. -/
  tls : Bool
  writer : Writer Call Out Result

/-- A service over plain TCP whose sessions send buffers. -/
abbrev Limits.tcp (l : Limits) : Config SendCall OutBuffer SendResult :=
  { l with tls := false, writer := tcpBuffers l.chunkLen }

/-- A service over TLS whose sessions send buffers. -/
abbrev Limits.overTls (l : Limits) : Config SendCall OutBuffer SendResult :=
  { l with tls := true, writer := tlsBuffers l.chunkLen }

/-- `Setup()`, with the service as its data. -/
def setupCallback : Callback := ⟨0, 0⟩

/-- `Read()`, with the session as its data. -/
def readCallback : Callback := ⟨1, 1⟩

/-- `Write()`, with the session as its data. -/
def writeCallback : Callback := ⟨2, 1⟩

/-- `Cleanup()`, with the session as its data. -/
def cleanupCallback : Callback := ⟨3, 1⟩

/-- Who has called `Write()`. -/
inductive Caller
  /-- `ServiceConnection()`, with its variable `removeMe`. -/
  | service (removeMe : Bool)
  /-- A send between the callbacks. -/
  | outside
  /-- A send of the session callback. -/
  | session
  /-- A send of the cleanup callback of the user. -/
  | cleanup
deriving DecidableEq, Repr

/-- Where the thread that works on the connection is. -/
inductive Control
  /-- No thread works on it. -/
  | idle
  /-- In `ServiceConnection()`, at its own code. -/
  | service (phase : Phase)
  /-- In `Setup()`, at the call of `poTlsSession_create()`. -/
  | setup
  /-- In `Read()`, at the call of `read()` or `gnutls_record_recv()`; `oldLen` is the value that
  `inLen` had at the start. -/
  | read (oldLen : ℕ)
  /-- In the session callback. -/
  | session
  /-- In `Write()`, at the call that writes the first entry. -/
  | write (caller : Caller)
  /-- Done with a `ServiceConnection()` that is going to remove the connection. -/
  | closing
  /-- In the cleanup callback of the user. -/
  | cleanup
  /-- The connection is removed. -/
  | removed
  /-- The process has ended. -/
  | exited
deriving DecidableEq, Repr

/-- `struct Out`, and which entry of the session it is. -/
structure Entry (Out : Type) where
  no : ℕ
  out : Out
deriving DecidableEq, Repr

/-- Why `TCPRead()` or `TLSRead()` has not returned `2`. -/
inductive Ending
  | endOfStream
  | tooLarge
  | error
deriving DecidableEq, Repr

/-- The values of `enum POServiceReturn`. -/
inductive POServiceReturn
  | continue
  | wait
  | close
  | error
deriving DecidableEq, Repr

/-- `struct POService_session` with its connection. -/
structure Session (Out : Type) where
  conn : Connection
  control : Control
  input : Input
  /-- The entries from `firstOut` to `lastOut`. -/
  queue : List (Entry Out)
  /-- What was queued, first first. -/
  queued : List Out
  /-- The bytes that the socket has accepted. -/
  accepted : List UInt8
  /-- Those of them that were handed over for an entry. -/
  handed : ℕ → List UInt8
  /-- The entries that were freed, first first. -/
  freed : List ℕ
  /-- The bytes that were received since the last `POSERVICE_CONTINUE`. -/
  received : List UInt8
  /-- How many bytes were received since the last call of the session callback. -/
  unseen : ℕ
  ending : Option Ending
  /-- The session callback has returned `POSERVICE_CLOSE`. -/
  closed : Bool
  /-- The service has asked for the close of the connection. -/
  asked : Bool
  /-- `Write()` has failed. -/
  writeError : Bool

/-- The connection of a service when it was accepted. -/
def start (Out : Type) (fd : ℤ) (acceptTime : Time) (acceptNo : ℕ) : Session Out where
  conn := Connection.unused.accepted fd acceptTime setupCallback acceptNo
  control := .idle
  input := .zeroed
  queue := []
  queued := []
  accepted := []
  handed := fun _ ↦ []
  freed := []
  received := []
  unseen := 0
  ending := none
  closed := false
  asked := false
  writeError := false

namespace Session

variable {Call Out Result : Type}

/-! ## Returns to the callers -/

/-- A callback returns to `ServiceConnection()`. -/
def serviceReturned (s : Session Out) (d : Direction) (removeMe : Bool) (value : ℤ) :
    Session Out :=
  let r := s.conn.callbackReturned d removeMe value
  { s with
    conn := r.1
    control := .service (.after d r.2)
    asked := s.asked || decide (value ≠ 0) }

/-- `Setup()` or `Read()` returns. -/
def readReturned (s : Session Out) (value : ℤ) : Session Out := s.serviceReturned .read false value

/-- `Write()` returns; the other callers leave its value to the user. -/
def writeReturned (s : Session Out) (value : ℤ) : Caller → Session Out
  | .service removeMe => s.serviceReturned .write removeMe value
  | .outside => { s with control := .idle }
  | .session => { s with control := .session }
  | .cleanup => { s with control := .cleanup }

/-! ## Input -/

/-- `TCPRead()` or `TLSRead()`. -/
def readInput (cfg : Config Call Out Result) : Input → ReadResult → Option ReadStep :=
  if cfg.tls then tlsRead cfg.chunkLen cfg.maxMessageLength
  else tcpRead cfg.chunkLen cfg.maxMessageLength

/-- Why a return other than `2` follows the result. -/
def endingOf : ReadResult → Ending
  | .endOfStream => .endOfStream
  | .count _ => .tooLarge
  | .again | .interrupted | .hungUp | .failed => .error

/-- Record the bytes of a result. -/
def receive (s : Session Out) (bytes : List UInt8) : Session Out :=
  { s with received := s.received ++ bytes, unseen := s.unseen + bytes.length }

/-- `Read()`, behind a call of `read()` or `gnutls_record_recv()` with the result. -/
def readStep (s : Session Out) (oldLen : ℕ) (r : ReadResult) : ReadStep → Session Out
  | .goesOn input => { s.receive r.received with input := input, control := .read oldLen }
  | .returns input value =>
      let s := { s.receive r.received with input := input }
      if value ≠ 2 then { s with ending := some (endingOf r) }.readReturned value
      else if input.inLen < 1 then s.readReturned 0
      else { s with control := .session, unseen := 0 }
  | .ends => { s with control := .exited }

/-- The end of `Read()`: the session callback has returned. -/
def sessionReturned (s : Session Out) : POServiceReturn → Session Out
  | .continue => { s with input := { s.input with inLen := 0 }, received := [] }.readReturned 0
  | .wait => s.readReturned 0
  | .close =>
      let s := { s with closed := true }
      if s.queue.isEmpty then s.readReturned 1
      else { s with conn := (s.conn.poServerSetCallback .read none).1 }.readReturned 0
  | .error => s.readReturned (-1)

/-- `Setup()`, with `poTlsSession_create()` behind it, up to the first call of `read()`. -/
def setUp (s : Session Out) (cfg : Config Call Out Result) (ok : Bool) : Session Out :=
  if cfg.tls && !ok then s.readReturned (-1)
  else
    let conn := { s.conn with cleanupCallback := some cleanupCallback }
    { s with
      input := .create cfg.chunkLen
      conn := (conn.poServerSetCallback .read (some readCallback)).1
      control := .read 0 }

/-! ## Output -/

/-- Record bytes that were handed over for an entry. -/
def handOver (s : Session Out) (no : ℕ) (bytes : List UInt8) : Session Out :=
  { s with
    accepted := s.accepted ++ bytes
    handed := Function.update s.handed no (s.handed no ++ bytes) }

/-- Free the first entry of the queue, with the others behind it. -/
def pop (s : Session Out) (no : ℕ) (rest : List (Entry Out)) : Session Out :=
  { s with queue := rest, freed := s.freed ++ [no] }

/-- `Write()` with an empty queue. -/
def writeFinished (s : Session Out) (caller : Caller) : Session Out :=
  let s := { s with conn := (s.conn.poServerSetCallback .write none).1 }
  s.writeReturned (if (s.conn.callback .read).isSome then 0 else 1) caller

/-- `Write()`, behind a system call for its first entry, with the others behind it. -/
def writeStep (s : Session Out) (caller : Caller) (no : ℕ) (rest : List (Entry Out)) :
    WriteStep Out → Session Out
  | .goesOn sent out => { s.handOver no sent with queue := ⟨no, out⟩ :: rest }
  | .returns sent out value =>
      if value = 2 then
        { s.handOver no sent with queue := ⟨no, out⟩ :: rest }.writeReturned 0 caller
      else if value ≠ 0 then
        { s.handOver no sent with queue := ⟨no, out⟩ :: rest, writeError := true }.writeReturned
          value caller
      else if rest.isEmpty then ((s.handOver no sent).pop no rest).writeFinished caller
      else (s.handOver no sent).pop no rest
  | .ends => { s with control := .exited }

/-- `outQueuePush`. -/
def push (s : Session Out) (out : Out) : Session Out :=
  { s with queue := s.queue ++ [⟨s.queued.length, out⟩], queued := s.queued ++ [out] }

/-- `poService_send()` or `poService_sendF()`, up to the first system call of the `Write()` that it
may call. -/
def send (s : Session Out) (caller : Caller) (out : Out) : Session Out :=
  let s := s.push out
  if (s.conn.callback .write).isNone then
    let r := s.conn.poServerSetCallback .write (some writeCallback)
    if r.2.isSome then { s with conn := r.1, control := .write caller } else { s with conn := r.1 }
  else s

/-- Where a send comes from, if the session can be used. -/
def sender (s : Session Out) : Option Caller :=
  match s.control with
  | .idle => if s.conn.cleanupCallback.isSome then some .outside else none
  | .session => some .session
  | .cleanup => some .cleanup
  | _ => none

/-! ## The server -/

/-- `ServiceConnection()` goes on to its next test or callback. -/
def serve (s : Session Out) : Phase → Option (Session Out)
  | .test d removeMe =>
      if s.conn.calls d then
        match d with
        | .read =>
            if s.conn.callback .read = some setupCallback then some { s with control := .setup }
            else some { s with control := .read s.input.inLen }
        | .write => some { s with control := .write (.service removeMe) }
      else some { s with control := .service (.after d removeMe) }
  | .check removeMe =>
      some
        { s with
          control := .service (.done (removeMe || s.conn.noCallback))
          asked := s.asked || s.conn.noCallback }
  | .done removeMe => some { s with control := if removeMe then .closing else .idle }
  | .inCallback _ _ => none

/-- The end of `removeConnection()`. -/
def reset (s : Session Out) (threadPool : Bool) : Session Out :=
  { s with conn := s.conn.reset threadPool, control := .removed }

/-- The end of `Cleanup()`. -/
def cleanUp (s : Session Out) : Session Out :=
  { s with queue := [], freed := s.freed ++ s.queue.map Entry.no }

end Session

/-- What happens next. -/
inductive Action (Call Result : Type)
  /-- `doEvent` sets `readReady` or `writeReady`. -/
  | event (d : Direction)
  /-- `ServiceConnection()` is called. -/
  | service
  /-- `ServiceConnection()` goes on. -/
  | go
  /-- `poTlsSession_create()` returns, if it is called. -/
  | setUp (ok : Bool)
  /-- `read()` or `gnutls_record_recv()` returns. -/
  | read (r : ReadResult)
  /-- The session callback terminates the message. -/
  | terminate (value : UInt8)
  /-- `poService_send()` or `poService_sendF()` is called. -/
  | send (call : Call)
  /-- The system call for the first entry returns. -/
  | write (r : Result)
  /-- The session callback returns. -/
  | returns (value : POServiceReturn)
  /-- `removeConnection()` is called. -/
  | remove
  /-- The cleanup callback of the user returns. -/
  | cleanedUp
deriving DecidableEq, Repr

variable {Call Out Result : Type}

/-- The transitions of a session. -/
def step (cfg : Config Call Out Result) (s : Session Out) :
    Action Call Result → Option (Session Out)
  | .event d => if s.control = .idle then some { s with conn := s.conn.setReady d true } else none
  | .service => if s.control = .idle then some { s with control := .service .start } else none
  | .go =>
      match s.control with
      | .service phase => s.serve phase
      | _ => none
  | .setUp ok => if s.control = .setup then some (s.setUp cfg ok) else none
  | .read r =>
      match s.control with
      | .read oldLen => (Session.readInput cfg s.input r).map (s.readStep oldLen r)
      | _ => none
  | .terminate value =>
      if s.control = .session then some { s with input := s.input.terminate value } else none
  | .send call => s.sender.map fun caller ↦ s.send caller (cfg.writer.entry call)
  | .write r =>
      match s.control, s.queue with
      | .write caller, e :: rest => (cfg.writer.write e.out r).map (s.writeStep caller e.no rest)
      | _, _ => none
  | .returns value => if s.control = .session then some (s.sessionReturned value) else none
  | .remove =>
      if s.control = .idle ∨ s.control = .closing then
        if s.conn.cleanupCallback.isSome then some { s with control := .cleanup }
        else some (s.reset cfg.threadPool)
      else none
  | .cleanedUp => if s.control = .cleanup then some (s.cleanUp.reset cfg.threadPool) else none

end Tidbits.Service
