import Mathlib.Data.Finset.Card
import Mathlib.Data.Finset.Option
import Mathlib.Data.Int.Notation
import Mathlib.Data.PNat.Notation
import Tidbits.Transition.Reach

/-!
# A process and the listeners of its servers

The main thread of a process creates servers, sets up their listeners, shuts
the servers down and destroys them; `passListeners()` may interrupt it between
any two of the steps here.  A step of the main thread is one that the signal
handler can tell from those around it: a field that it reads is written, or a
descriptor is opened or closed.

* A server is set up before it is shut down.
* A new descriptor gets the lowest number that is not open.
* An `ASSERT` that fails ends the process, and the kernel closes all descriptors
  then.  The `DASSERT`s of a build with `PO_DEBUG` only end a run earlier.
-/

namespace Tidbits.Potato

/-- `struct POServer`. -/
structure Server where
  /-- The fields `listener[i].fd`. -/
  fd : ℕ → ℤ
  numListeners : ℕ
  listenersDown : Bool

/-- What `poServer_create()` makes. -/
def Server.created : Server := ⟨fun _ ↦ -1, 0, false⟩

/-- Where the main thread is. -/
inductive Control
  /-- In none of the functions. -/
  | idle
  /-- In `poServer_listenerSetup()`, with a descriptor that listens. -/
  | setup (id : ℕ) (fd : ℤ)
  /-- Behind `l->fd = fd`. -/
  | stored (id : ℕ)
  /-- In `poServer_shutdown()`, behind `s->listenersDown = true`. -/
  | down (id : ℕ)
  /-- At the test of its loop. -/
  | closing (id i : ℕ)
  /-- Behind `close(s->listener[i].fd)`. -/
  | closed (id i : ℕ)
  /-- Behind `s->listener[i].fd = -1`. -/
  | cleared (id i : ℕ)
  /-- Waiting for the last connections. -/
  | waiting (id : ℕ)
  /-- In `poServer_destroy()`, at the test of its first loop over the listeners. -/
  | destroy (id i : ℕ)
  /-- At the test of its last loop over the listeners. -/
  | destroyed (id i : ℕ)
  /-- The process has ended. -/
  | exited
deriving DecidableEq, Repr

/-- What `SIGUSR1` and `SIGUSR2` do. -/
inductive Signals
  /-- They end the process. -/
  | default
  /-- They are handled by `passListeners()`. -/
  | handled
  | ignored
deriving DecidableEq, Repr

/-- How the system calls of `passListeners()` that are not about a listener come out. -/
inductive Passing
  /-- An `ASSERT` about one of them fails. -/
  | asserts
  /-- `writen()` fails behind `n` listeners. -/
  | unwritten (n : ℕ)
  | passed
deriving DecidableEq, Repr

/-- The lowest number that is not open. -/
def lowestFree (opened : Finset ℤ) : ℤ :=
  let free : Option ℕ := (List.range (opened.card + 1)).find? fun n : ℕ ↦ (n : ℤ) ∉ opened
  (free.getD 0 : ℕ)

theorem lowestFree_nonneg (opened : Finset ℤ) : 0 ≤ lowestFree opened := Int.natCast_nonneg _

/-- Among more numbers than are open, one is free. -/
theorem lowestFree_notMem (opened : Finset ℤ) : lowestFree opened ∉ opened := by
  let numbers : Finset ℤ := (Finset.range (opened.card + 1)).image Nat.cast
  have hcard : opened.card < numbers.card := by
    rw [Finset.card_image_of_injective _ fun _ _ heq ↦ Int.natCast_inj.mp heq, Finset.card_range]
    exact Nat.lt_succ_self _
  obtain ⟨fd, hfd, hfree⟩ := Finset.exists_mem_notMem_of_card_lt_card hcard
  obtain ⟨n, hn, rfl⟩ := Finset.mem_image.mp hfd
  obtain ⟨m, hm⟩ : ∃ m, (List.range (opened.card + 1)).find? (fun n : ℕ ↦ (n : ℤ) ∉ opened) =
      some m := by
    refine Option.isSome_iff_exists.mp (List.find?_isSome.mpr ⟨n, ?_, decide_eq_true hfree⟩)
    exact List.mem_range.mpr (Finset.mem_range.mp hn)
  have hout := List.find?_some hm
  rw [lowestFree, hm]
  exact of_decide_eq_true hout

/-- A process. -/
structure Process where
  /-- `po.servers`. -/
  servers : List ℕ
  server : ℕ → Server
  /-- The open descriptors that listen. -/
  listening : Finset ℤ
  /-- Those of them that are in the table `po.handoffSockets`. -/
  handoff : Finset ℤ
  /-- The open descriptor of the UNIX domain socket to the new process. -/
  socket : Option ℤ
  /-- The other open descriptors. -/
  others : Finset ℤ
  signals : Signals
  /-- `po.shutdownFd`. -/
  shutdownFd : ℤ
  control : Control
  /-- The listening descriptors of servers that were open when `END_CHAR` was written. -/
  endedWith : Option (Finset ℤ)

/-- What happens next. -/
inductive ProcessAction
  /-- `poServer_create()` returns. -/
  | create (id : ℕ)
  /-- `_poTato_findListenerFd()` closes an entry of the table. -/
  | incompatible (fd : ℤ)
  /-- `poServer_listenerSetup()` gets the descriptor from the table, or as a new one. -/
  | setup (id : ℕ) (fd : ℤ)
  /-- `listen()` or `epoll_ctl()` fails in `poServer_listenerSetup()`, and its `ASSERT`. -/
  | fail
  /-- `poServer_shutdown()` is called. -/
  | shutdown (id : ℕ)
  /-- `poServer_destroy()` is called. -/
  | destroy (id : ℕ)
  /-- The main thread goes on. -/
  | go
  /-- `SIGUSR1` or `SIGUSR2` is delivered. -/
  | signal (usr1 : Bool) (passing : Passing)
  /-- Other code of the process opens a descriptor, -/
  | opens
  /-- or closes one. -/
  | closes (fd : ℤ)
deriving DecidableEq, Repr

namespace Process

/-- The process starts, with the descriptors of its table. -/
def start (table : Finset ℕ) : Process where
  servers := []
  server := fun _ ↦ .created
  listening := table.image fun fd : ℕ ↦ (fd : ℤ)
  handoff := table.image fun fd : ℕ ↦ (fd : ℤ)
  socket := none
  others := ∅
  signals := .default
  shutdownFd := -1
  control := .idle
  endedWith := none

/-- Write a server. -/
def setServer (p : Process) (id : ℕ) (s : Server) : Process :=
  { p with server := Function.update p.server id s }

/-- The open descriptors. -/
def opened (p : Process) : Finset ℤ := p.listening ∪ p.others ∪ p.socket.toFinset

/-- `close()`. -/
def close (p : Process) (fd : ℤ) : Process :=
  { p with
    listening := p.listening.erase fd
    others := p.others.erase fd
    socket := p.socket.filter (· ≠ fd) }

/-- The process ends. -/
def exit (p : Process) : Process :=
  { p with
    servers := [], listening := ∅, handoff := ∅, socket := none, others := ∅
    control := .exited }

/-- The descriptors that `passListeners()` would send. -/
def transmitted (p : Process) : List ℤ :=
  p.servers.flatMap fun id ↦
    (List.range (p.server id).numListeners).reverse.map (p.server id).fd

/-- `sendmsg()` sends them: it fails for a number that is not open, but the socket of the handler
itself has the lowest one that was free, which may be that of a listener just closed. -/
def Sends (p : Process) (fds : List ℤ) : Prop :=
  ∀ fd ∈ fds, fd ∈ insert (lowestFree p.opened) p.opened

instance decidableSends (p : Process) (fds : List ℤ) : Decidable (p.Sends fds) :=
  inferInstanceAs (Decidable (∀ fd ∈ fds, _))

/-- `passListeners()`. -/
def passListeners (p : Process) (usr1 : Bool) : Passing → Process
  | .asserts => p.exit
  | .unwritten n => if p.Sends (p.transmitted.take n) then { p with shutdownFd := -1 } else p.exit
  | .passed =>
      if p.Sends p.transmitted then
        if usr1 then
          let fd := lowestFree p.opened
          { p with signals := .ignored, socket := some fd, shutdownFd := fd }
        else p
      else p.exit

/-- What `passListeners()` can do. -/
theorem passListeners_cases (p : Process) (usr1 : Bool) (passing : Passing) :
    p.passListeners usr1 passing = p.exit ∨ p.passListeners usr1 passing = p ∨
      p.passListeners usr1 passing = { p with shutdownFd := -1 } ∨
        p.passListeners usr1 passing = { p with
          signals := .ignored, socket := some (lowestFree p.opened)
          shutdownFd := lowestFree p.opened } := by
  cases passing with
  | asserts => exact .inl rfl
  | unwritten n =>
      by_cases hsends : p.Sends (p.transmitted.take n)
      · exact .inr (.inr (.inl (if_pos hsends)))
      · exact .inl (if_neg hsends)
  | passed =>
      by_cases hsends : p.Sends p.transmitted
      · cases usr1 with
        | false => exact .inr (.inl (if_pos hsends))
        | true => exact .inr (.inr (.inr (if_pos hsends)))
      · exact .inl (if_neg hsends)

/-- `_poTato_checkSignalNewServerContinue()`. -/
def checkSignalNewServerContinue (p : Process) : Process :=
  if p.shutdownFd ≠ -1 ∧ ∀ id ∈ p.servers, (p.server id).listenersDown = true then
    { p.close p.shutdownFd with
      shutdownFd := -1
      endedWith :=
        if p.socket = some p.shutdownFd then some (p.listening \ p.handoff) else p.endedWith }
  else p

/-- It does nothing, unless all servers are shut down and `po.shutdownFd` is set. -/
theorem checkSignalNewServerContinue_cases (p : Process) :
    p.checkSignalNewServerContinue = p ∨
      (p.shutdownFd ≠ -1 ∧ ∀ id ∈ p.servers, (p.server id).listenersDown = true) ∧
        p.checkSignalNewServerContinue = { p.close p.shutdownFd with
          shutdownFd := -1
          endedWith :=
            if p.socket = some p.shutdownFd then some (p.listening \ p.handoff)
            else p.endedWith } := by
  by_cases hend : p.shutdownFd ≠ -1 ∧ ∀ id ∈ p.servers, (p.server id).listenersDown = true
  · exact .inr ⟨hend, if_pos hend⟩
  · exact .inl (if_neg hend)

/-- The end of `poServer_listenerSetup()`. -/
def countListener (num : ℕ+) (p : Process) (id : ℕ) : Process :=
  let s := p.server id
  let p := p.setServer id { s with numListeners := s.numListeners + 1 }
  if s.numListeners + 1 = num then
    { p with listening := p.listening \ p.handoff, handoff := ∅, control := .idle }
  else { p with control := .idle }

/-- The main thread goes on. -/
def go (num : ℕ+) (p : Process) : Option Process :=
  match p.control with
  | .setup id fd =>
      let s := p.server id
      some { p.setServer id { s with fd := Function.update s.fd s.numListeners fd } with
        control := .stored id }
  | .stored id => some (p.countListener num id)
  | .down id => some { p.checkSignalNewServerContinue with control := .closing id 0 }
  | .closing id i =>
      if i < num then
        if 0 ≤ (p.server id).fd i then
          some { p.close ((p.server id).fd i) with control := .closed id i }
        else some { p with control := .closing id (i + 1) }
      else some { p with control := .waiting id }
  | .closed id i =>
      let s := p.server id
      some { p.setServer id { s with fd := Function.update s.fd i (-1) } with
        control := .cleared id i }
  | .cleared id i =>
      let s := p.server id
      some { p.setServer id { s with numListeners := s.numListeners - 1 } with
        control := .closing id (i + 1) }
  | .waiting _ => some { p with control := .idle }
  | .destroy id i =>
      if i < num then
        if 0 ≤ (p.server id).fd i then
          some { p.close ((p.server id).fd i) with control := .destroy id (i + 1) }
        else some { p with control := .destroy id (i + 1) }
      else some { p with control := .destroyed id 0 }
  | .destroyed id i =>
      if i < num then
        if 0 ≤ (p.server id).fd i then
          -- closing a number that is not open fails, and the `ASSERT` with it
          if (p.server id).fd i ∈ p.opened then
            some { p.close ((p.server id).fd i) with control := .destroyed id (i + 1) }
          else some p.exit
        else some { p with control := .destroyed id (i + 1) }
      else some { p with servers := p.servers.filter (· ≠ id), control := .idle }
  | .idle | .exited => none

/-- The transitions of a process whose servers have `num` listeners. -/
def step (num : ℕ+) (p : Process) : ProcessAction → Option Process
  | .create id =>
      if p.control = .idle ∧ id ∉ p.servers then
        some { p.setServer id .created with
          servers := id :: p.servers
          signals := if p.signals = .default then .handled else p.signals }
      else none
  | .incompatible fd =>
      if p.control = .idle ∧ fd ∈ p.handoff then
        some { p.close fd with handoff := p.handoff.erase fd }
      else none
  | .setup id fd =>
      if p.control = .idle ∧ id ∈ p.servers ∧ (p.server id).numListeners < num ∧
          (p.server id).listenersDown = false then
        if fd ∈ p.handoff then
          some { p with handoff := p.handoff.erase fd, control := .setup id fd }
        else if fd = lowestFree p.opened then
          some { p with listening := insert fd p.listening, control := .setup id fd }
        else none
      else none
  | .fail =>
      match p.control with
      | .setup _ _ => some p.exit
      | _ => none
  | .shutdown id =>
      if p.control = .idle ∧ id ∈ p.servers then
        some { p.setServer id { p.server id with listenersDown := true } with
          control := .down id }
      else none
  | .destroy id =>
      if p.control = .idle ∧ id ∈ p.servers then some { p with control := .destroy id 0 } else none
  | .go => p.go num
  | .signal usr1 passing =>
      if p.control = .exited then none
      else
        match p.signals with
        | .default => some p.exit
        | .handled => some (p.passListeners usr1 passing)
        | .ignored => some p
  | .opens =>
      if p.control = .exited then none
      else some { p with others := insert (lowestFree p.opened) p.others }
  | .closes fd => if fd ∈ p.others then some { p with others := p.others.erase fd } else none

end Process

end Tidbits.Potato
