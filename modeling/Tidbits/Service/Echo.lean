import Tidbits.Libc.Memory
import Tidbits.Server.Connection
import Tidbits.Service.Input
import Tidbits.Service.Output
import Tidbits.Transition.Reach

/-!
# The echo service

`poServer_echoRequest` and `echoWrite`, run by the `ServiceConnection()` of
`Tidbits.Server.Connection`.  Each of them puts the other in its place when it is
done, and the setter calls the other at once if its event is waiting, so that the
two call each other until a socket is exhausted.  All these calls are at the end
of their callers: what the last one returns is what the server gets.

A step is one system call with what follows up to the next one.  The labels carry
the results of the system calls, and when the server serves or removes the
connection.  `malloc()` does not fail: it would end the process.  The `DASSERT`s
are left out, and `EPIPE` and `ECONNRESET` are allowed for as well as the
results that keep the connection.

`echo_sound` says for all runs that what was written is a start of what was
read, and all of it while the read callback is in its place.
-/

namespace Tidbits.Service

open Libc Server Transition

/-- `MAX_READ`. -/
def maxRead : ℕ := 1024

/-- `struct Buf`. -/
structure Buf where
  buf : Memory
  w : ℕ
  len : ℕ

/-- `poServer_echoRequest()`, with the number of its buffer, or 0 for `NULL`. -/
def echoRequestCallback (data : ℕ) : Callback := ⟨0, data⟩

/-- `echoWrite()`, with the number of its buffer. -/
def echoWriteCallback (data : ℕ) : Callback := ⟨1, data⟩

/-- `echoCleanup()`, with the number of its buffer. -/
def echoCleanupCallback (data : ℕ) : Callback := ⟨2, data⟩

/-- Where the thread that works on the connection is.  In the callbacks, `d` and `removeMe` are
those of the `ServiceConnection()` that waits for the return. -/
inductive EchoPoint
  /-- No thread works on it. -/
  | idle
  /-- In `ServiceConnection()`, at its own code. -/
  | service (phase : Phase)
  /-- In `poServer_echoRequest()`, at the call of `read()`; its variable `n` is 0 there. -/
  | request (d : Direction) (removeMe : Bool) (data : ℕ) (ret : ℤ)
  /-- In `echoWrite()`, at the call of `write()`. -/
  | write (d : Direction) (removeMe : Bool) (data w n : ℕ)
  /-- Done with a `ServiceConnection()` that is going to remove the connection. -/
  | closing
  /-- The connection is removed. -/
  | removed
  /-- The process has ended. -/
  | exited
deriving DecidableEq

/-- The connection of the service.  The last two fields record what passed through its socket. -/
structure Echo where
  conn : Connection
  point : EchoPoint
  buffers : ℕ → Buf
  allocated : ℕ
  read : List UInt8
  written : List UInt8

namespace Echo

/-- The connection when it was accepted; new buffers may contain anything. -/
def start (buffers : ℕ → Buf) (fd : ℤ) (acceptTime : Time) (acceptNo : ℕ) : Echo where
  conn := Connection.unused.accepted fd acceptTime (echoRequestCallback 0) acceptNo
  point := .idle
  buffers := buffers
  allocated := 0
  read := []
  written := []

/-! ## The two callbacks -/

/-- Assign the buffer of this number. -/
def setBuffer (s : Echo) (data : ℕ) (b : Buf) : Echo :=
  { s with buffers := Function.update s.buffers data b }

/-- The callback that `ServiceConnection()` has called returns. -/
def returned (s : Echo) (d : Direction) (removeMe : Bool) (value : ℤ) : Echo :=
  let r := s.conn.callbackReturned d removeMe value
  { s with conn := r.1, point := .service (.after d r.2) }

/-- `poServer_echoRequest()` up to its first `read()`. -/
def beginRequest (s : Echo) (d : Direction) (removeMe : Bool) (data : ℕ) : Echo :=
  if data = 0 then
    let data := s.allocated + 1
    { s with
      allocated := data
      conn := { s.conn with cleanupCallback := some (echoCleanupCallback data) }
      point := .request d removeMe data 0 }
  else { s with point := .request d removeMe data 0 }

/-- `echoWrite()` up to its first `write()`. -/
def beginWrite (s : Echo) (d : Direction) (removeMe : Bool) (data : ℕ) : Echo :=
  let b := s.buffers data
  if b.len = 0 then s.returned d removeMe 0
  else { s with point := .write d removeMe data b.w b.len }

/-- A callback is called. -/
def call (s : Echo) (d : Direction) (removeMe : Bool) (callback : Callback) : Echo :=
  if callback.function = 0 then s.beginRequest d removeMe callback.data
  else s.beginWrite d removeMe callback.data

/-- `return poServer_setReadCallback(...)` or `return poServer_setWriteCallback(...)`. -/
def setAndReturn (s : Echo) (d : Direction) (removeMe : Bool) (d' : Direction)
    (callback : Callback) : Echo :=
  let r := s.conn.poServerSetCallback d' (some callback)
  if r.2.isSome then { s with conn := r.1 }.call d removeMe callback
  else { s with conn := r.1 }.returned d removeMe 0

/-- `poServer_echoRequest()` behind its loop. -/
def endRequest (s : Echo) (d : Direction) (removeMe : Bool) (data n : ℕ) (ret : ℤ) : Echo :=
  let b := s.buffers data
  let b := { b with buf := store b.buf n [0] }
  if ret ≠ 0 then (s.setBuffer data b).returned d removeMe ret
  else
    let s := s.setBuffer data { b with len := n, w := 0 }
    { s with conn := (s.conn.poServerSetCallback .read none).1 }.setAndReturn d removeMe .write
      (echoWriteCallback data)

/-- `poServer_echoRequest()` behind a call of `read()`. -/
def requestStep (s : Echo) (d : Direction) (removeMe : Bool) (data : ℕ) (ret : ℤ) :
    ReadResult → Option Echo
  | .count bytes =>
      if bytes ≠ [] ∧ bytes.length ≤ maxRead then
        let b := s.buffers data
        let s := { s with read := s.read ++ bytes }
        let s := s.setBuffer data { b with buf := store b.buf 0 bytes }
        some (s.endRequest d removeMe data bytes.length ret)
      else none
  | .endOfStream => some (s.endRequest d removeMe data 0 1)
  | .again => some (s.returned d removeMe 0)
  | .interrupted => some s
  -- the `break` leaves the `switch` only
  | .hungUp => some { s with point := .request d removeMe data 1 }
  | .failed => some { s with point := .exited }

/-- `echoWrite()` behind a call of `write()`. -/
def writeStep (s : Echo) (d : Direction) (removeMe : Bool) (data w n : ℕ) :
    SendResult → Option Echo
  | .count rt =>
      if rt ≤ n then
        if 0 < rt then
          let b := s.buffers data
          let s := { s with written := s.written ++ load b.buf w rt }
          if rt < n then
            let s := s.setBuffer data { b with w := w + rt, len := n - rt }
            some (s.returned d removeMe 0)
          else
            let s := { s with conn := (s.conn.poServerSetCallback .write none).1 }
            some (s.setAndReturn d removeMe .read (echoRequestCallback data))
        else some (s.returned d removeMe 1)
      else none
  | .again => some (s.returned d removeMe 0)
  | .interrupted => some s
  | .hungUp => some (s.returned d removeMe 1)
  | .failed => some { s with point := .exited }

/-- `ServiceConnection()` goes on to its next test or callback. -/
def serve (s : Echo) : Phase → Option Echo
  | .test d removeMe =>
      match s.conn.callback d with
      | some callback =>
          if s.conn.ready d then some (s.call d removeMe callback)
          else some { s with point := .service (.after d removeMe) }
      | none => some { s with point := .service (.after d removeMe) }
  | .check removeMe =>
      some { s with point := .service (.done (removeMe || s.conn.noCallback)) }
  | .done removeMe => some { s with point := if removeMe then .closing else .idle }
  | .inCallback _ _ => none

end Echo

/-- What happens next. -/
inductive EchoAction
  /-- `doEvent` sets `readReady` or `writeReady`. -/
  | event (d : Direction)
  /-- `ServiceConnection()` is called. -/
  | service
  /-- `ServiceConnection()` goes on. -/
  | go
  /-- `read()` returns. -/
  | read (r : ReadResult)
  /-- `write()` returns. -/
  | write (r : SendResult)
  /-- `removeConnection()` is called. -/
  | remove
deriving DecidableEq

namespace Echo

/-- The transitions of the service; `threadPool` says whether `PO_SERVER_THREADPOOL` is defined. -/
def step (threadPool : Bool) (s : Echo) : EchoAction → Option Echo
  | .event d => if s.point = .idle then some { s with conn := s.conn.setReady d true } else none
  | .service => if s.point = .idle then some { s with point := .service .start } else none
  | .go =>
      match s.point with
      | .service phase => s.serve phase
      | _ => none
  | .read r =>
      match s.point with
      | .request d removeMe data ret => s.requestStep d removeMe data ret r
      | _ => none
  | .write r =>
      match s.point with
      | .write d removeMe data w n => s.writeStep d removeMe data w n r
      | _ => none
  | .remove =>
      if s.point = .idle ∨ s.point = .closing then
        some { s with conn := s.conn.reset threadPool, point := .removed }
      else none

/-! ## The invariant -/

/-- What of a buffer is not yet written. -/
def pending (s : Echo) (data : ℕ) : List UInt8 :=
  load (s.buffers data).buf (s.buffers data).w (s.buffers data).len

/-- The read callback is in its place, and all that was read is written. -/
structure Reading (s : Echo) : Prop where
  read : ∃ data, s.conn.callback .read = some (echoRequestCallback data)
  write : s.conn.callback .write = none
  all : s.written = s.read

/-- The write callback is in its place, and what is not written is in its buffer. -/
structure Writing (s : Echo) (data : ℕ) : Prop where
  read : s.conn.callback .read = none
  write : s.conn.callback .write = some (echoWriteCallback data)
  len : 0 < (s.buffers data).len
  rest : s.read = s.written ++ s.pending data

/-- The connection is kept. -/
def Kept (s : Echo) : Prop := s.Reading ∨ ∃ data, s.Writing data

/-- The connection is going to be removed, or is. -/
structure Dropped (s : Echo) : Prop where
  callback : ∀ d, s.conn.callback d = none
  start : s.written <+: s.read

end Echo

/-- Whether `ServiceConnection()` is going to remove the connection. -/
def removes : Phase → Bool
  | .test _ removeMe | .inCallback _ removeMe | .check removeMe | .done removeMe => removeMe

theorem removes_after (d : Direction) (removeMe : Bool) :
    removes (.after d removeMe) = removeMe := by
  cases d <;> rfl

namespace Echo

/-- The invariant of a service. -/
def Inv (s : Echo) : Prop :=
  match s.point with
  | .idle => s.Kept
  | .service phase => if removes phase then s.Dropped else s.Kept
  | .request _ removeMe _ _ => removeMe = false ∧ s.Reading
  | .write _ removeMe data w n =>
      removeMe = false ∧ s.Writing data ∧ w = (s.buffers data).w ∧ n = (s.buffers data).len
  | .closing => s.Dropped
  | .removed => s.Dropped
  | .exited => s.Kept

variable {s s' : Echo} {d : Direction} {data : ℕ}

theorem Reading.of_eq (h : s.Reading) (hc : s'.conn.callback = s.conn.callback)
    (hr : s'.read = s.read) (hw : s'.written = s.written) : s'.Reading := by
  refine ⟨?_, ?_, ?_⟩
  · rw [hc]
    exact h.read
  · rw [hc]
    exact h.write
  · rw [hw, hr]
    exact h.all

theorem Writing.of_eq (h : s.Writing data) (hc : s'.conn.callback = s.conn.callback)
    (hb : s'.buffers = s.buffers) (hr : s'.read = s.read) (hw : s'.written = s.written) :
    s'.Writing data := by
  refine ⟨?_, ?_, ?_, ?_⟩
  · rw [hc]
    exact h.read
  · rw [hc]
    exact h.write
  · rw [hb]
    exact h.len
  · rw [pending, hb, hr, hw]
    exact h.rest

/-- Neither the readiness nor the thread matters for what is kept. -/
theorem Kept.of_eq (h : s.Kept) (hc : s'.conn.callback = s.conn.callback)
    (hb : s'.buffers = s.buffers) (hr : s'.read = s.read) (hw : s'.written = s.written) :
    s'.Kept := by
  rcases h with h | ⟨data, h⟩
  · exact .inl (h.of_eq hc hr hw)
  · exact .inr ⟨data, h.of_eq hc hb hr hw⟩

theorem callback_setCallback_self (conn : Connection) (d : Direction)
    (callback : Option Callback) : (conn.setCallback d callback).callback d = callback :=
  Function.update_self _ _ _

theorem callback_setCallback_of_ne (conn : Connection) {d d' : Direction} (h : d' ≠ d)
    (callback : Option Callback) :
    (conn.setCallback d callback).callback d' = conn.callback d' :=
  Function.update_of_ne h _ _

theorem Kept.start (h : s.Kept) : s.written <+: s.read := by
  rcases h with h | ⟨data, h⟩
  · exact ⟨[], (List.append_nil _).trans h.all⟩
  · exact ⟨s.pending data, h.rest.symm⟩

/-! ## Returns and calls -/

theorem inv_returned_zero (h : s.Kept) (d : Direction) : (s.returned d false 0).Inv := by
  have hcallback : (s.conn.callbackReturned d false 0).1.callback = s.conn.callback := by
    rw [Connection.callbackReturned, if_neg (by decide)]
    split_ifs <;> rfl
  have hremove : (s.conn.callbackReturned d false 0).2 = false := by
    rw [Connection.callbackReturned, if_neg (by decide)]
    split_ifs <;> rfl
  unfold returned Inv
  dsimp only
  rw [removes_after, hremove, if_neg (by decide)]
  exact h.of_eq hcallback rfl rfl rfl

/-- A callback that does not return 0 drops both callbacks. -/
theorem inv_returned_of_ne_zero (h : s.written <+: s.read) (d : Direction) (removeMe : Bool)
    {value : ℤ} (hvalue : value ≠ 0) : (s.returned d removeMe value).Inv := by
  unfold returned Inv Connection.callbackReturned
  rw [if_pos hvalue]
  dsimp only
  rw [removes_after, if_pos rfl]
  exact ⟨fun _ ↦ rfl, h⟩

theorem inv_beginRequest (h : s.Reading) (d : Direction) (data : ℕ) :
    (s.beginRequest d false data).Inv := by
  unfold beginRequest
  split_ifs
  · exact ⟨rfl, h.read, h.write, h.all⟩
  · exact ⟨rfl, h.read, h.write, h.all⟩

theorem inv_beginWrite (h : s.Writing data) (d : Direction) :
    (s.beginWrite d false data).Inv := by
  unfold beginWrite
  dsimp only
  rw [if_neg (Nat.ne_of_gt h.len)]
  exact ⟨rfl, ⟨h.read, h.write, h.len, h.rest⟩, rfl, rfl⟩

/-- The read callback is installed when everything is written, and may be called at once. -/
theorem inv_setAndReturn_read (hwrite : s.conn.callback .write = none) (hall : s.written = s.read)
    (d : Direction) (data : ℕ) :
    (s.setAndReturn d false .read (echoRequestCallback data)).Inv := by
  have hreading :
      Reading { s with conn := s.conn.setCallback .read (some (echoRequestCallback data)) } :=
    ⟨⟨data, callback_setCallback_self _ _ _⟩,
      (callback_setCallback_of_ne _ (by decide) _).trans hwrite, hall⟩
  unfold setAndReturn
  dsimp only
  cases (s.conn.poServerSetCallback .read (some (echoRequestCallback data))).2 with
  | none => exact inv_returned_zero (.inl hreading) d
  | some _ => exact inv_beginRequest hreading d data

/-- The write callback is installed when something is in the buffer, and may be called at once. -/
theorem inv_setAndReturn_write (hread : s.conn.callback .read = none)
    (hlen : 0 < (s.buffers data).len) (hrest : s.read = s.written ++ s.pending data)
    (d : Direction) : (s.setAndReturn d false .write (echoWriteCallback data)).Inv := by
  have hwriting :
      Writing { s with conn := s.conn.setCallback .write (some (echoWriteCallback data)) } data :=
    ⟨(callback_setCallback_of_ne _ (by decide) _).trans hread, callback_setCallback_self _ _ _,
      hlen, hrest⟩
  unfold setAndReturn
  dsimp only
  cases (s.conn.poServerSetCallback .write (some (echoWriteCallback data))).2 with
  | none => exact inv_returned_zero (.inr ⟨data, hwriting⟩) d
  | some _ => exact inv_beginWrite hwriting d

/-! ## The steps of the callbacks -/

/-- What was read is what is going to be written, unless the connection is closed. -/
theorem inv_endRequest {n : ℕ} {bytes : List UInt8} {ret : ℤ} (h : s.Reading)
    (hret : ret = 0 → 0 < n) (hload : load (s.buffers data).buf 0 n = bytes) (d : Direction) :
    ({ s with read := s.read ++ bytes }.endRequest d false data n ret).Inv := by
  unfold endRequest
  dsimp only
  split_ifs with hzero
  · refine inv_returned_of_ne_zero ?_ d false hzero
    show s.written <+: s.read ++ bytes
    rw [h.all]
    exact List.prefix_append _ _
  · refine inv_setAndReturn_write (callback_setCallback_self _ _ _) ?_ ?_ d
    · simp only [setBuffer, Function.update_self]
      exact hret (not_not.mp hzero)
    · simp only [pending, setBuffer, Function.update_self]
      rw [h.all, load_store_of_disjoint (.inl (Nat.le_of_eq (Nat.zero_add n))), hload]

theorem inv_requestStep {ret : ℤ} {r : ReadResult} (h : s.Reading) (hs : s.Inv)
    (hstep : s.requestStep d false data ret r = some s') : s'.Inv := by
  cases r with
  | count bytes =>
      rw [requestStep] at hstep
      split_ifs at hstep with hbytes
      rw [← Option.some.inj hstep]
      have hpos : 0 < bytes.length := List.length_pos_of_ne_nil hbytes.1
      have hreading :
          Reading (s.setBuffer data
            { s.buffers data with buf := store (s.buffers data).buf 0 bytes }) :=
        ⟨h.read, h.write, h.all⟩
      refine inv_endRequest hreading (fun _ ↦ hpos) ?_ d
      simp only [setBuffer, Function.update_self]
      rw [load_store (Nat.le_refl _), List.take_length]
  | endOfStream =>
      rw [requestStep] at hstep
      rw [← Option.some.inj hstep]
      have hread : s = { s with read := s.read ++ [] } := by rw [List.append_nil]
      rw [hread]
      exact inv_endRequest h (fun hret ↦ absurd hret (by decide)) rfl d
  | again =>
      rw [← Option.some.inj hstep]
      exact inv_returned_zero (.inl h) d
  | interrupted =>
      rw [← Option.some.inj hstep]
      exact hs
  | hungUp =>
      rw [← Option.some.inj hstep]
      exact ⟨rfl, h.read, h.write, h.all⟩
  | failed =>
      rw [← Option.some.inj hstep]
      exact .inl ⟨h.read, h.write, h.all⟩

/-- What is written is taken from the front of what is not yet written. -/
theorem inv_writeStep {r : SendResult} (h : s.Writing data) (hs : s.Inv)
    (hstep : s.writeStep d false data (s.buffers data).w (s.buffers data).len r = some s') :
    s'.Inv := by
  have hprefix : s.written <+: s.read := Kept.start (.inr ⟨data, h⟩)
  cases r with
  | count rt =>
      rw [writeStep] at hstep
      split_ifs at hstep with hle hpos hlt
      · rw [← Option.some.inj hstep]
        have hwriting : Writing
            ({ s with written := s.written ++ load (s.buffers data).buf (s.buffers data).w rt
                }.setBuffer data { s.buffers data with
              w := (s.buffers data).w + rt, len := (s.buffers data).len - rt }) data := by
          refine ⟨h.read, h.write, ?_, ?_⟩
          · simp only [setBuffer, Function.update_self]
            omega
          · simp only [pending, setBuffer, Function.update_self]
            rw [h.rest, List.append_assoc, ← load_add, Nat.add_sub_of_le hle]
            rfl
        exact inv_returned_zero (.inr ⟨data, hwriting⟩) d
      · have hall : rt = (s.buffers data).len := Nat.le_antisymm hle (Nat.le_of_not_lt hlt)
        rw [← Option.some.inj hstep]
        refine inv_setAndReturn_read (callback_setCallback_self _ _ _) ?_ d data
        dsimp only
        rw [h.rest, hall]
        rfl
      · rw [← Option.some.inj hstep]
        exact inv_returned_of_ne_zero hprefix d false (by decide)
  | again =>
      rw [← Option.some.inj hstep]
      exact inv_returned_zero (.inr ⟨data, h⟩) d
  | interrupted =>
      rw [← Option.some.inj hstep]
      exact hs
  | hungUp =>
      rw [← Option.some.inj hstep]
      exact inv_returned_of_ne_zero hprefix d false (by decide)
  | failed =>
      rw [← Option.some.inj hstep]
      exact .inr ⟨data, h.read, h.write, h.len, h.rest⟩

/-! ## The steps of the server -/

theorem Kept.noCallback (h : s.Kept) : s.conn.noCallback = false := by
  rcases h with h | ⟨data, h⟩
  · obtain ⟨data, hread⟩ := h.read
    rw [Connection.noCallback, hread]
    rfl
  · rw [Connection.noCallback, h.read, h.write]
    rfl

/-- A kept connection goes on with its callbacks. -/
theorem inv_serve_of_kept {phase : Phase} (h : s.Kept) (hphase : removes phase = false)
    (hstep : s.serve phase = some s') : s'.Inv := by
  have hgoesOn : ∀ {p}, removes p = false → Inv { s with point := .service p } := by
    intro p hp
    unfold Inv
    dsimp only
    rw [hp, if_neg (by decide)]
    exact h.of_eq rfl rfl rfl rfl
  cases phase with
  | test d removeMe =>
      obtain rfl : removeMe = false := hphase
      rw [serve] at hstep
      split at hstep
      · rename_i callback hcallback
        split_ifs at hstep with hready
        · rw [← Option.some.inj hstep]
          rcases h with h | ⟨data, h⟩
          · obtain ⟨data, hread⟩ := h.read
            cases d with
            | read =>
                obtain rfl := Option.some.inj (hcallback.symm.trans hread)
                exact inv_beginRequest h .read data
            | write => exact nomatch hcallback.symm.trans h.write
          · cases d with
            | read => exact nomatch hcallback.symm.trans h.read
            | write =>
                obtain rfl := Option.some.inj (hcallback.symm.trans h.write)
                exact inv_beginWrite h .write
        · rw [← Option.some.inj hstep]
          exact hgoesOn (removes_after d false)
      · rw [← Option.some.inj hstep]
        exact hgoesOn (removes_after d false)
  | inCallback d removeMe => cases hstep
  | check removeMe =>
      obtain rfl : removeMe = false := hphase
      rw [← Option.some.inj hstep]
      exact hgoesOn h.noCallback
  | done removeMe =>
      obtain rfl : removeMe = false := hphase
      rw [← Option.some.inj hstep]
      exact Kept.of_eq h rfl rfl rfl rfl

/-- A dropped connection has no callbacks that could be called. -/
theorem inv_serve_of_dropped {phase : Phase} (h : s.Dropped) (hphase : removes phase = true)
    (hstep : s.serve phase = some s') : s'.Inv := by
  have hgoesOn : ∀ {p}, removes p = true → Inv { s with point := .service p } := by
    intro p hp
    unfold Inv
    dsimp only
    rw [if_pos hp]
    exact ⟨h.callback, h.start⟩
  cases phase with
  | test d removeMe =>
      obtain rfl : removeMe = true := hphase
      rw [serve, h.callback d] at hstep
      rw [← Option.some.inj hstep]
      exact hgoesOn (removes_after d true)
  | inCallback d removeMe => cases hstep
  | check removeMe =>
      obtain rfl : removeMe = true := hphase
      rw [← Option.some.inj hstep]
      exact hgoesOn rfl
  | done removeMe =>
      obtain rfl : removeMe = true := hphase
      rw [← Option.some.inj hstep]
      exact ⟨h.callback, h.start⟩

theorem Inv.idle (h : s.Inv) (hpoint : s.point = .idle) : s.Kept := by
  unfold Inv at h
  rw [hpoint] at h
  exact h

/-- **Every step keeps the invariant.** -/
theorem inv_step {threadPool : Bool} {a : EchoAction} (h : s.Inv)
    (hstep : step threadPool s a = some s') : s'.Inv := by
  cases a with
  | event d =>
      rw [step] at hstep
      split_ifs at hstep with hidle
      rw [← Option.some.inj hstep]
      unfold Inv
      dsimp only
      rw [hidle]
      exact (h.idle hidle).of_eq rfl rfl rfl rfl
  | service =>
      rw [step] at hstep
      split_ifs at hstep with hidle
      rw [← Option.some.inj hstep]
      exact (h.idle hidle).of_eq rfl rfl rfl rfl
  | go =>
      rw [step] at hstep
      split at hstep
      · rename_i phase hpoint
        unfold Inv at h
        rw [hpoint] at h
        dsimp only at h
        split_ifs at h with hphase
        · exact inv_serve_of_dropped h hphase hstep
        · exact inv_serve_of_kept h (Bool.eq_false_iff.mpr hphase) hstep
      · cases hstep
  | read r =>
      rw [step] at hstep
      split at hstep
      · rename_i d removeMe data ret hpoint
        have hs := h
        unfold Inv at h
        rw [hpoint] at h
        obtain ⟨rfl, hreading⟩ := h
        exact inv_requestStep hreading hs hstep
      · cases hstep
  | write r =>
      rw [step] at hstep
      split at hstep
      · rename_i d removeMe data w n hpoint
        have hs := h
        unfold Inv at h
        rw [hpoint] at h
        obtain ⟨rfl, hwriting, rfl, rfl⟩ := h
        exact inv_writeStep hwriting hs hstep
      · cases hstep
  | remove =>
      rw [step] at hstep
      split_ifs at hstep with hpoint
      rw [← Option.some.inj hstep]
      have hstart : s.written <+: s.read := by
        rcases hpoint with hidle | hclosing
        · exact (h.idle hidle).start
        · unfold Inv at h
          rw [hclosing] at h
          exact Dropped.start h
      exact ⟨fun _ ↦ rfl, hstart⟩

theorem inv_start (buffers : ℕ → Buf) (fd : ℤ) (acceptTime : Time) (acceptNo : ℕ) :
    (start buffers fd acceptTime acceptNo).Inv :=
  .inl ⟨⟨0, callback_setCallback_self _ _ _⟩, callback_setCallback_of_ne _ (by decide) _, rfl⟩

/-! ## What holds in every state -/

/-- The connection is live, and no callback runs. -/
def Between (s : Echo) : Prop := s.point = .idle ∨ ∃ phase, s.point = .service phase ∧
  removes phase = false

/-- Exactly one of the two callbacks is installed. -/
def OneInstalled (s : Echo) : Prop :=
  (∃ data, s.conn.callback .read = some (echoRequestCallback data) ∧
    s.conn.callback .write = none) ∨
  (∃ data, s.conn.callback .read = none ∧
    s.conn.callback .write = some (echoWriteCallback data))

theorem Kept.oneInstalled (h : s.Kept) : s.OneInstalled := by
  rcases h with h | ⟨data, h⟩
  · obtain ⟨data, hread⟩ := h.read
    exact .inl ⟨data, hread, h.write⟩
  · exact .inr ⟨data, h.read, h.write⟩

/-- In every state the connection is kept or dropped. -/
theorem Inv.kept_or_dropped (h : s.Inv) : s.Kept ∨ s.Dropped := by
  unfold Inv at h
  split at h
  · exact .inl h
  · split_ifs at h
    · exact .inr h
    · exact .inl h
  · exact .inl (.inl h.2)
  · exact .inl (.inr ⟨_, h.2.1⟩)
  · exact .inr h
  · exact .inr h
  · exact .inl h

theorem inv_of_reach {threadPool : Bool} {buffers : ℕ → Buf} {fd : ℤ} {acceptTime : Time}
    {acceptNo : ℕ} (h : Reach (step threadPool) Any (start buffers fd acceptTime acceptNo) s) :
    s.Inv :=
  h.invariant (inv_start buffers fd acceptTime acceptNo) fun hs _ hstep ↦ inv_step hs hstep

/-- **The echo.**  In every state of every run, what was written is a start of what was read, all of
it while the read callback is installed, and between the callbacks of a live connection exactly
one of the two is. -/
theorem echo_sound (threadPool : Bool) {buffers : ℕ → Buf} {fd : ℤ} {acceptTime : Time}
    {acceptNo : ℕ} (h : Reach (step threadPool) Any (start buffers fd acceptTime acceptNo) s) :
    s.written <+: s.read ∧
      (s.conn.callback .read ≠ none → s.written = s.read) ∧
      (s.Between → s.OneInstalled) := by
  have hinv := inv_of_reach h
  refine ⟨?_, ?_, ?_⟩
  · rcases hinv.kept_or_dropped with hkept | hdropped
    · exact hkept.start
    · exact hdropped.start
  · intro hread
    rcases hinv.kept_or_dropped with (hreading | ⟨data, hwriting⟩) | hdropped
    · exact hreading.all
    · exact absurd hwriting.read hread
    · exact absurd (hdropped.callback .read) hread
  · rintro (hidle | ⟨phase, hpoint, hphase⟩)
    · exact (hinv.idle hidle).oneInstalled
    · unfold Inv at hinv
      rw [hpoint] at hinv
      dsimp only at hinv
      rw [hphase, if_neg (by decide)] at hinv
      exact hinv.oneInstalled

/-- A buffer of zeros. -/
def zeros : Buf := ⟨fun _ ↦ 0, 0, 0⟩

/-- Three bytes are read and written one by one.  After two of them the socket is full, and after
the last one the read callback is in its place again. -/
theorem echo_sound_partial :
    ∃ s, (Reach (step true) Any (start (fun _ ↦ zeros) 5 0 1) s ∧
        (s.point = .idle ∧ s.read = [10, 20, 30] ∧ s.written = [10, 20])) ∧
      s.written <+: s.read ∧ s.OneInstalled ∧
      ∃ s', (Reach (step true) Any s s' ∧
          (s'.point = .idle ∧ s'.conn.callback .read = some (echoRequestCallback 1) ∧
            s'.written = [10, 20, 30])) ∧
        s'.written = s'.read ∧ s'.OneInstalled := by
  obtain ⟨s, hs, s', hr', hs'⟩ :
      ∃ s, (Reach (step true) Any (start (fun _ ↦ zeros) 5 0 1) s ∧
        (s.point = .idle ∧ s.read = [10, 20, 30] ∧ s.written = [10, 20])) ∧
        ∃ s', Reach (step true) Any s s' ∧
          (s'.point = .idle ∧ s'.conn.callback .read = some (echoRequestCallback 1) ∧
            s'.written = [10, 20, 30]) :=
    exists_reach_reach_of_exec
      [.event .read, .event .write, .service, .go, .read (.count [10, 20, 30]), .write (.count 1),
        .go, .write (.count 1), .go, .go]
      [.event .write, .service, .go, .go, .write (.count 1), .read .again, .go, .go] (by decide)
  obtain ⟨hwritten, -, hinstalled⟩ := echo_sound true hs.1
  obtain ⟨-, hall, hinstalled'⟩ := echo_sound true (hs.1.trans hr')
  refine ⟨s, hs, hwritten, hinstalled (.inl hs.2.1), s', ⟨hr', hs'⟩, hall ?_,
    hinstalled' (.inl hs'.1)⟩
  rw [hs'.2.1]
  exact Option.some_ne_none _

end Echo

end Tidbits.Service
