import Tidbits.Potato.Inherited
import Tidbits.Transition.Reach

/-!
# The hand-off of listening sockets

`passListeners()`, in the signal handler of an old process, writes to a UNIX
domain socket; `poTato_signalHandOff()` of a new process reads from it.  The
stream has the number of the listeners and then, for each of them, its address
and one byte with its descriptor attached.  If the new process is going to
replace the old one, the character `END_CHAR` follows when the servers of the
old process are down.

A step is one system call with what follows up to the next one, so the stream
is cut into reads and writes in every way.

* A descriptor that was sent arrives with its byte, as a new descriptor of the
  same socket.  A `read()` that takes such a byte loses the descriptor.
* A failing `ASSERT` ends the process; here, the hand-off fails.
-/

namespace Tidbits.Potato

/-- An open socket. -/
abbrev Socket := ℕ

/-- A byte of the stream, with the socket of the descriptor that is attached to it. -/
structure Item where
  byte : UInt8
  socket : Option Socket
deriving DecidableEq, Repr

/-- Bytes without descriptors. -/
def plain (bytes : List UInt8) : List Item := bytes.map fun b ↦ ⟨b, none⟩

/-- The memory of a `uint32_t`. -/
def uint32Bytes (n : ℕ) : List UInt8 :=
  [.ofNat n, .ofNat (n / 2 ^ 8), .ofNat (n / 2 ^ 16), .ofNat (n / 2 ^ 24)]

/-- The `uint32_t` with the first bytes of its memory; the others are zero. -/
def uint32OfBytes : List UInt8 → ℕ
  | [] => 0
  | b :: bs => b.toNat + 256 * uint32OfBytes bs

/-- The memory of a `struct sockaddr`. -/
def Sockaddr.toList (addr : Sockaddr) : List UInt8 := addr.bytes.toList

/-- The `struct sockaddr` with the memory. -/
def Sockaddr.ofList (bytes : List UInt8) : Sockaddr := ⟨.ofFn fun i ↦ bytes.getD i 0⟩

/-- `END_CHAR`. -/
def endChar : UInt8 := 'e'.toUInt8

/-- The byte that carries a descriptor: the buffer of `initSendFdMsg` starts with the length of the
control message. -/
def fdByte : UInt8 := 20

/-! ## The old process -/

/-- `struct POServer_listener`. -/
structure Listener where
  addr : Sockaddr
  fd : ℤ
deriving DecidableEq, Repr

/-- `struct POServer`, with its entries `listener[0]` to `listener[numListeners - 1]`. -/
structure POServer where
  listener : List Listener
deriving DecidableEq, Repr

namespace POServer

/-- The field `numListeners`. -/
def numListeners (s : POServer) : ℕ := s.listener.length

/-- The value `s->numListeners - 1` of the `int32_t` that the inner loop starts with. -/
def lastIndex (s : POServer) : ℤ := ((s.numListeners : ℤ) - 1).bmod (2 ^ 32)

end POServer

/-- Where `passListeners()` is. -/
inductive SendPoint
  /-- At the number of the listeners, with the bytes that are left to write. -/
  | count (rest : List UInt8)
  /-- At the address of the listener `s->listener[i]`, with the servers behind `s`. -/
  | addr (s : POServer) (l : Listener) (i : ℕ) (servers : List POServer) (rest : List UInt8)
  /-- At its descriptor. -/
  | fd (s : POServer) (l : Listener) (i : ℕ) (servers : List POServer)
  /-- Behind the loops. -/
  | sent
  /-- It has returned and kept the socket, `po.shutdownFd`. -/
  | waiting
  /-- The socket is closed. -/
  | done
  | failed
deriving DecidableEq, Repr

/-- The body of the inner loop is entered. -/
def listenerPoint (s : POServer) (i : ℕ) (servers : List POServer) : SendPoint :=
  match s.listener[i]? with
  | some l => .addr s l i servers l.addr.toList
  | none => .failed

/-- The outer loop goes on with the servers. -/
def nextServer : List POServer → SendPoint
  | [] => .sent
  | s :: servers =>
      if 0 ≤ s.lastIndex then listenerPoint s s.lastIndex.toNat servers else nextServer servers

/-- The inner loop goes on behind the listener `i`. -/
def nextListener (s : POServer) (i : ℕ) (servers : List POServer) : SendPoint :=
  if i = 0 then nextServer servers else listenerPoint s (i - 1) servers

/-! ## The new process -/

/-- Where `poTato_signalHandOff()` is. -/
inductive RecvPoint
  /-- At the number of the listeners, with the bytes that were read. -/
  | count (got : List UInt8)
  /-- At the address of the entry `po.handoffSockets[i]`. -/
  | addr (i : ℕ) (got : List UInt8)
  /-- At its descriptor. -/
  | fd (i : ℕ)
  /-- At the character. -/
  | endChar
  /-- It has returned success. -/
  | done
  | failed
deriving DecidableEq, Repr

/-- The new process. -/
structure Receiver where
  point : RecvPoint
  /-- The variable `numListeners`. -/
  count : ℕ
  totalListeners : ℕ
  /-- `po.handoffSockets`, if it is not `NULL`. -/
  handoffSockets : Option (List HandoffSocket)
  /-- `po.numListeners`. -/
  numListeners : ℕ
  /-- The sockets of the descriptors that are open. -/
  files : ℤ → Option Socket
  /-- What was taken from the stream. -/
  taken : List Item

/-- The two processes. -/
structure Handoff where
  /-- `po.servers` of the old process. -/
  servers : List POServer
  /-- The sockets of the descriptors that are open in the old process. -/
  files : ℤ → Option Socket
  /-- The signal is `SIGUSR1`, and `shutdownOldServer` is true. -/
  replace : Bool
  /-- The addresses that `realloc()` leaves in new entries. -/
  junk : ℕ → Sockaddr

namespace Receiver

/-- `goto fail`. -/
def fail (r : Receiver) : Receiver :=
  { r with
    handoffSockets :=
      if r.count ≠ 0 ∧ r.numListeners = 0 then none else r.handoffSockets
    point := .failed }

/-- The loop goes on with the entry `i`, or it is done. -/
def loop (r : Receiver) (replace : Bool) (i : ℕ) : Receiver :=
  if i < r.totalListeners then { r with point := .addr i [] }
  else
    { r with
      numListeners := (r.numListeners + r.count) % 2 ^ 32
      point := if replace then .endChar else .done }

/-- The number of listeners is read. -/
def counted (h : Handoff) (r : Receiver) (n : ℕ) : Receiver :=
  let total := (n + r.numListeners) % 2 ^ 32
  let r := { r with count := n, totalListeners := total }
  -- `realloc()` returns `NULL` when it frees a block
  if r.handoffSockets.isSome ∧ total = 0 then { r with handoffSockets := none, point := .failed }
  else
    let fresh := (List.range' r.numListeners (total - r.numListeners)).map fun i ↦
      ⟨h.junk i, -1⟩
    { r with handoffSockets := some ((r.handoffSockets.getD []).take total ++ fresh) }.loop
      h.replace r.numListeners

/-- The field of an entry is set. -/
def set (r : Receiver) (i : ℕ) (f : HandoffSocket → HandoffSocket) : Receiver :=
  { r with handoffSockets := r.handoffSockets.map fun table ↦ table.modify i f }

/-- How many bytes `readn()` still asks for. -/
def wants (r : Receiver) : ℕ :=
  match r.point with
  | .count got => 4 - got.length
  | .addr _ got => 16 - got.length
  | .endChar => 1
  | _ => 0

/-- `read()` returns bytes. -/
def read (h : Handoff) (r : Receiver) (items : List Item) : Receiver :=
  let bytes := items.map Item.byte
  let r := { r with taken := r.taken ++ items }
  match r.point with
  | .count got =>
      if (got ++ bytes).length < 4 then { r with point := .count (got ++ bytes) }
      else r.counted h (uint32OfBytes (got ++ bytes))
  | .addr i got =>
      if (got ++ bytes).length < 16 then { r with point := .addr i (got ++ bytes) }
      else
        { r.set i fun e ↦ { e with addr := .ofList (got ++ bytes) } with point := .fd i }
  | .endChar => if bytes = [Potato.endChar] then { r with point := .done } else r.fail
  | _ => r

/-- `read()` fails, or it returns `0`. -/
def readFails (r : Receiver) : Receiver :=
  match r.point with
  | .count got => { r with count := uint32OfBytes got }.fail
  | _ => r.fail

/-- `recvmsg()` returns a byte with the socket, under the descriptor. -/
def receive (h : Handoff) (r : Receiver) (i : ℕ) (item : Item) (socket : Socket) (fd : ℤ) :
    Receiver :=
  { r.set i fun e ↦ { e with fd := fd } with
    files := Function.update r.files fd (some socket)
    taken := r.taken ++ [item] }.loop h.replace (i + 1)

end Receiver

/-! ## Steps -/

/-- The state of a hand-off. -/
structure System where
  sender : SendPoint
  /-- What was written and not read. -/
  stream : List Item
  /-- The old process has closed the stream. -/
  closed : Bool
  receiver : Receiver

/-- What happens next. -/
inductive HandoffAction
  /-- `write()` of the old process takes so many bytes. -/
  | write (n : ℕ)
  | writeFails
  /-- `sendmsg()` of the old process. -/
  | sendmsg
  /-- `passListeners()` returns. -/
  | handedOff
  /-- `_poTato_checkSignalNewServerContinue()` finds that all servers are down. -/
  | continue
  /-- The old process ends. -/
  | exit
  /-- `read()` of the new process returns so many bytes. -/
  | read (n : ℕ)
  | readFails
  /-- `recvmsg()` of the new process returns the descriptor. -/
  | recvmsg (fd : ℤ)
  | recvmsgFails
deriving DecidableEq, Repr

namespace Handoff

/-- The number of listeners that is sent. -/
def count (h : Handoff) : ℕ := (h.servers.map POServer.numListeners).sum % 2 ^ 32

/-- The byte that carries the descriptor of the listener. -/
def fdItem (h : Handoff) (l : Listener) : Item := ⟨fdByte, h.files l.fd⟩

/-- The old process starts to send, and the new one to receive. -/
def start (h : Handoff) (table : Option (List HandoffSocket)) (files : ℤ → Option Socket) :
    System where
  sender := .count (uint32Bytes h.count)
  stream := []
  closed := false
  receiver :=
    { point := .count []
      count := 0
      totalListeners := 0
      handoffSockets := table
      numListeners := (table.getD []).length
      files := files
      taken := [] }

/-- The transitions of a hand-off. -/
def step (h : Handoff) (t : System) : HandoffAction → Option System
  | .write n =>
      match t.sender with
      | .count rest =>
          if 0 < n ∧ n ≤ rest.length then
            some { t with
              stream := t.stream ++ plain (rest.take n)
              sender := if n < rest.length then .count (rest.drop n) else nextServer h.servers }
          else none
      | .addr s l i servers rest =>
          if 0 < n ∧ n ≤ rest.length then
            some { t with
              stream := t.stream ++ plain (rest.take n)
              sender :=
                if n < rest.length then .addr s l i servers (rest.drop n)
                else .fd s l i servers }
          else none
      | _ => none
  | .writeFails =>
      match t.sender with
      | .count _ | .addr .. | .fd .. => some { t with sender := .failed, closed := true }
      | _ => none
  | .sendmsg =>
      match t.sender with
      | .fd s l i servers =>
          -- a descriptor that is not open cannot be sent
          if (h.files l.fd).isSome then
            some { t with stream := t.stream ++ [h.fdItem l], sender := nextListener s i servers }
          else some { t with sender := .failed, closed := true }
      | _ => none
  | .handedOff =>
      if t.sender = .sent then
        if h.replace then some { t with sender := .waiting }
        else some { t with sender := .done, closed := true }
      else none
  | .continue =>
      if t.sender = .waiting then
        some { t with stream := t.stream ++ plain [endChar], sender := .done, closed := true }
      else none
  | .exit =>
      if t.sender = .waiting then some { t with sender := .failed, closed := true } else none
  | .read n =>
      if 0 < n ∧ n ≤ t.receiver.wants ∧ n ≤ t.stream.length then
        some { t with
          stream := t.stream.drop n
          receiver := t.receiver.read h (t.stream.take n) }
      else none
  | .readFails =>
      if 0 < t.receiver.wants then some { t with receiver := t.receiver.readFails } else none
  | .recvmsg fd =>
      match t.receiver.point, t.stream with
      | .fd i, item :: rest =>
          match item.socket with
          | some socket =>
              if 0 ≤ fd ∧ t.receiver.files fd = none then
                some { t with stream := rest, receiver := t.receiver.receive h i item socket fd }
              else none
          -- there is no control message
          | none =>
              some { t with
                stream := rest
                receiver :=
                  { t.receiver with point := .failed, taken := t.receiver.taken ++ [item] } }
      | _, _ => none
  | .recvmsgFails =>
      match t.receiver.point with
      | .fd _ => some { t with receiver := { t.receiver with point := .failed } }
      | _ => none

end Handoff

end Tidbits.Potato
