import Tidbits.Server.Store
import Tidbits.Transition.Reach

/-!
# The server as a transition system

The master thread of a server, which calls `poServer_doNextEvents()` again and
again, and the tasks that service its connections.  A step of the master is one
test of its code with what follows up to the next test, and takes at most one
connection mutex, so the tasks can move between any two of them.  The labels carry
what the environment chooses: clock readings, the results of `accept()`, `close()`
and the cleanup callbacks, the events that `epoll_wait()` returns, and what the
callbacks do.

In the build without threads there are no tasks; the master runs
`ServiceConnection()` itself, and the mutex functions do nothing.

`poThreadPool_runTask()` may return at any time, and its task may start at any
time, also before that.
-/

namespace Tidbits.Server

variable {cfg : Config}

/-- An event of a connection: the connection struct it points to and the flags
`EPOLLIN`, `EPOLLOUT`, `EPOLLRDHUP` and `EPOLLERR`. -/
structure ConnEvent (cfg : Config) where
  conn : ConnId cfg
  input : Bool
  output : Bool
  hangUp : Bool
  error : Bool
  /-- Which accepted connection the event was fetched for. -/
  source : ℕ
deriving DecidableEq, Repr

/-- `struct epoll_event`. -/
inductive Event (cfg : Config)
  | listener (l : ListenerId cfg)
  | conn (e : ConnEvent cfg)
deriving DecidableEq, Repr

/-- The pointer of an event. -/
def Event.target : Event cfg → ListenerId cfg ⊕ ConnId cfg
  | .listener l => .inl l
  | .conn e => .inr e.conn

/-- Where the master is. -/
inductive Master (cfg : Config)
  /-- Outside `poServer_doNextEvents()`. -/
  | outside
  /-- In the loop that removes very old connections. -/
  | longSweep (t : Time)
  /-- In the loop that accepts while there are unused structs. -/
  | acceptLoop (t : Option Time)
  /-- At the loop condition of `lookForAcceptFromTimedOutConns`, called before
  `epoll_wait()` or by `doEvent` with events left. -/
  | waitSweep (t : Time) (caller : Option (List (Event cfg)))
  /-- In that loop, at the call of `_poServer_accept`. -/
  | waitAccept (t : Time) (caller : Option (List (Event cfg)))
  /-- Behind the unlocking of the server mutex, before `epoll_wait()`. -/
  | unlocked
  /-- In `epoll_wait()`. -/
  | epollWait
  /-- Back from it, before the locking of the server mutex. -/
  | gotEvents (batch : List (Event cfg))
  /-- In the event loop. -/
  | events (batch : List (Event cfg))
  /-- In `doEvent` for a listener, at the call of `_poServer_accept`. -/
  | listenerAccept (rest : List (Event cfg))
  /-- In `doEvent` with threads, having found no callback, at the call of
  `checkTryRemoveConnection`. -/
  | noCallback (e : ConnEvent cfg) (rest : List (Event cfg))
  /-- In `doEvent`, before the locking of the connection mutex. -/
  | setReady (e : ConnEvent cfg) (rest : List (Event cfg))
  /-- In `poThreadPool_runTask()`. -/
  | runTask (e : ConnEvent cfg) (rest : List (Event cfg))
  /-- In `ServiceConnection()`, of the build without threads. -/
  | serving (e : ConnEvent cfg) (rest : List (Event cfg)) (phase : Phase)
  /-- In `doEvent`, at its last tests. -/
  | eventEnd (e : ConnEvent cfg) (rest : List (Event cfg))
deriving DecidableEq, Repr

/-- A holder of the server mutex. -/
inductive Owner
  | master
  | worker (i : ℕ)
deriving DecidableEq, Repr

/-- `struct POServer`, with where its master is. -/
structure POServer (cfg : Config) where
  store : Store cfg
  /-- The listeners in the waiting queue. -/
  waiting : List (ListenerId cfg)
  /-- The `waiting` flags of the listeners. -/
  isWaiting : ListenerId cfg → Bool
  listenerFd : ListenerId cfg → ℤ
  isRunning : Bool
  serverMutex : Option Owner
  master : Master cfg

/-- A server whose listeners are all set up. -/
def start (cfg : Config) (listenerFd : ListenerId cfg → ℤ) : POServer cfg where
  store := .create cfg
  waiting := []
  isWaiting := fun _ ↦ false
  listenerFd := listenerFd
  isRunning := true
  serverMutex := none
  master := .outside

/-- What `_poServer_accept` meets. -/
inductive AcceptResult
  /-- A new socket, accepted at the time. -/
  | accepted (fd : ℤ) (now : Time)
  /-- `EAGAIN`. -/
  | again
  /-- `accept()` fails in another way, or a call in `addConnection` fails. -/
  | failed
deriving DecidableEq, Repr

namespace POServer

/-- `queuePush`: push to the last in the queue. -/
def queuePush (s : POServer cfg) (l : ListenerId cfg) : POServer cfg :=
  if s.isWaiting l then s
  else
    { s with waiting := s.waiting ++ [l], isWaiting := Function.update s.isWaiting l true }

/-- `queuePull`: pull the first out of the queue. -/
def queuePull (s : POServer cfg) : POServer cfg :=
  match s.waiting with
  | [] => s
  | l :: rest => { s with waiting := rest, isWaiting := Function.update s.isWaiting l false }

/-- The socket is new, and `listAddNew` can lock the mutex of the connection it pops. -/
def CanAccept (s : POServer cfg) (l : ListenerId cfg) (fd : ℤ) : Prop :=
  0 ≤ fd ∧ 0 ≤ s.listenerFd l ∧ (∀ c, (s.store.conn c).fd ≠ fd) ∧ (∀ l, s.listenerFd l ≠ fd) ∧
    s.store.lists.front.all fun c ↦ (s.store.connMutex c).isNone

instance (s : POServer cfg) (l : ListenerId cfg) (fd : ℤ) : Decidable (s.CanAccept l fd) :=
  inferInstanceAs (Decidable (_ ∧ _))

/-- `_poServer_accept`. -/
def accept (s : POServer cfg) : AcceptResult → Option (POServer cfg)
  | .accepted fd now =>
      match s.waiting with
      | [] => none
      | l :: _ =>
          if s.CanAccept l fd then
            some { s with store := s.store.addConnection fd now (cfg.listenerCallback l) }
          else none
  | .again => some s.queuePull
  | .failed => some { s with store := { s.store with exited := true } }

/-- `checkTryRemoveConnection`. -/
def checkTryRemove (s : POServer cfg) (c : ConnId cfg) (source : Option ℕ) (ok : Bool) :
    POServer cfg :=
  { s with store := (s.store.checkTryRemoveConnection c source ok).1 }

/-- The oldest connection, if it is older than the timeout at the time. -/
def timedOut (s : POServer cfg) (t : Time) (timeout : ℤ) : Option (ConnId cfg) :=
  s.store.lists.first.filter fun c ↦
    decide (milliseconds timeout ≤ t - (s.store.conn c).acceptTime)

/-- The return from `lookForAcceptFromTimedOutConns`. -/
def lookedForAccept (s : POServer cfg) : Option (List (Event cfg)) → POServer cfg
  | none => { s with serverMutex := none, master := .unlocked }
  | some rest => { s with master := .events rest }

/-- The start of `lookForAcceptFromTimedOutConns`. -/
def lookForAccept (s : POServer cfg) (t : Time) (caller : Option (List (Event cfg))) :
    POServer cfg :=
  if cfg.waitTimeout ≠ -1 ∧ s.waiting ≠ [] ∧ s.store.lists.first.isSome then
    { s with master := .waitSweep t caller }
  else s.lookedForAccept caller

/-- One turn of the loop of `lookForAcceptFromTimedOutConns`, up to the `accept()`. -/
def waitSweep (s : POServer cfg) (t : Time) (caller : Option (List (Event cfg))) (ok : Bool) :
    POServer cfg :=
  match s.waiting, s.timedOut t cfg.waitTimeout with
  | _ :: _, some c =>
      if (s.store.checkTryRemoveConnection c none ok).2 then
        { s.checkTryRemove c none ok with master := .waitAccept t caller }
      else (s.checkTryRemove c none ok).lookedForAccept caller
  | _, _ => s.lookedForAccept caller

/-- One turn of the loop that removes very old connections. -/
def longSweep (s : POServer cfg) (t : Time) (ok : Bool) : POServer cfg :=
  match s.timedOut t cfg.longTimeout with
  | some c => s.checkTryRemove c none ok
  | none => { s with master := .acceptLoop (some t) }

/-- The condition of the loop that accepts while there are unused structs. -/
def mayAccept (s : POServer cfg) : Bool := !s.waiting.isEmpty && s.store.lists.back.isSome

/-- `doEvent` for a listener. -/
def doListenerEvent (s : POServer cfg) (l : ListenerId cfg) (rest : List (Event cfg)) (now : Time) :
    POServer cfg :=
  if s.isRunning = false ∧ s.listenerFd l = -1 then { s with master := .events rest }
  else if s.store.lists.back.isSome then { s.queuePush l with master := .listenerAccept rest }
  else (s.queuePush l).lookForAccept now (some rest)

/-- `doEvent` for a connection that has no callback. -/
def removeIdle (s : POServer cfg) (e : ConnEvent cfg) (rest : List (Event cfg)) (ok : Bool) :
    POServer cfg :=
  { s.checkTryRemove e.conn (some e.source) ok with master := .events rest }

/-- `doEvent` for a connection, up to the locking of the connection mutex.  With threads a callback
may set the callbacks right after the test. -/
def doConnEvent (s : POServer cfg) (e : ConnEvent cfg) (rest : List (Event cfg)) (ok : Bool) :
    POServer cfg :=
  if cfg.threadPool = true ∧ (s.store.conn e.conn).fd = -1 then { s with master := .events rest }
  else if (s.store.conn e.conn).noCallback then
    if cfg.threadPool then { s with master := .noCallback e rest } else s.removeIdle e rest ok
  else if e.input || e.output then { s with master := .setReady e rest }
  else { s with master := .eventEnd e rest }

/-- `doEvent`, with the connection mutex locked. -/
def setReady (s : POServer cfg) (e : ConnEvent cfg) (rest : List (Event cfg)) : POServer cfg :=
  let store := (s.store.affect (some e.source) e.conn).setReady e.conn e.input e.output
  let conn := store.conn e.conn
  if conn.calls .read || conn.calls .write then
    if cfg.threadPool then
      { s with
        store := store.newWorker e.conn e.source
        serverMutex := none
        master := .runTask e rest }
    else { s with store := store, master := .serving e rest .start }
  else { s with store := store, master := .eventEnd e rest }

/-- `doEvent`, from the point where a worker thread could have removed the connection. -/
def eventEnd (s : POServer cfg) (e : ConnEvent cfg) (rest : List (Event cfg)) (ok : Bool) :
    POServer cfg :=
  if (s.store.conn e.conn).fd ≠ -1 ∧ (e.hangUp || e.error) then
    { s.checkTryRemove e.conn (some e.source) ok with master := .events rest }
  else { s with master := .events rest }

/-- `ServiceConnection()` of the build without threads. -/
def serve (s : POServer cfg) (e : ConnEvent cfg) (rest : List (Event cfg)) (ok : Bool) :
    Phase → ServiceAction → Option (POServer cfg)
  | .done removeMe, .go =>
      let store :=
        if removeMe then (s.store.affect (some e.source) e.conn).removeConnection e.conn ok
        else s.store
      some { s with store := store, master := .eventEnd e rest }
  | phase, a =>
      (s.store.serve e.conn (s.store.conn e.conn).acceptNo e.source phase a).map
        fun (store, phase) ↦ { s with store := store, master := .serving e rest phase }

/-- `ServiceConnection()` of a task. -/
def work (s : POServer cfg) (i : ℕ) (w : Worker cfg) (a : ServiceAction) (ok : Bool) :
    Option (POServer cfg) :=
  match w.place with
  | .lockServer removeMe =>
      if s.serverMutex = none ∧ a = .go then
        some
          { s with
            store := s.store.setWorker i (some { w with place := .lockConn removeMe })
            serverMutex := some (.worker i) }
      else none
  | .lockConn removeMe =>
      if s.store.connMutex w.conn = none ∧ a = .go then
        let store := s.store.finishService i w removeMe ok
        some
          { s with
            store := store
            serverMutex := if store.exited then s.serverMutex else none }
      else none
  | _ => (s.store.serviceConnection i w a).map fun store ↦ { s with store := store }

/-- The event can be in what `epoll_wait()` returns. -/
def canReport (s : POServer cfg) : Event cfg → Bool
  | .listener l => decide (0 ≤ s.listenerFd l)
  | .conn e =>
      decide (0 ≤ (s.store.conn e.conn).fd) && decide (e.source = (s.store.conn e.conn).acceptNo)

/-- `epoll_wait()` returns at most as many events as there is room for, and at most one for
each registered file. -/
def CanReturn (s : POServer cfg) (batch : List (Event cfg)) : Prop :=
  batch.length ≤ cfg.maxEpollEvents ∧ (batch.map Event.target).Nodup ∧
    ∀ ev ∈ batch, s.canReport ev = true

instance (s : POServer cfg) (batch : List (Event cfg)) : Decidable (s.CanReturn batch) :=
  inferInstanceAs (Decidable (_ ∧ _))

end POServer

/-- Who moves, with the choices of the environment. -/
inductive Action (cfg : Config)
  /-- The master calls `poServer_doNextEvents()` and locks the server mutex. -/
  | doNextEvents (now : Time)
  /-- The master goes on in `_poServer_doNextEvent` or `doEvent`. -/
  | proceed (now : Time) (ok : Bool)
  /-- The master calls `_poServer_accept`. -/
  | accept (r : AcceptResult)
  /-- `epoll_wait()` returns events to the master; no events also when it times out
  or is interrupted. -/
  | epollWait (batch : List (Event cfg))
  /-- The master goes on in `ServiceConnection()`. -/
  | serve (a : ServiceAction) (ok : Bool)
  /-- The task goes on in `ServiceConnection()`. -/
  | work (i : ℕ) (a : ServiceAction) (ok : Bool)
  /-- `isRunning` is cleared. -/
  | stop
  /-- `poServer_shutdown()` closes the listeners. -/
  | shutdown
deriving DecidableEq, Repr

namespace POServer

/-- The steps of the master that need neither a result of `accept()` or `epoll_wait()` nor a
callback. -/
def proceed (s : POServer cfg) (now : Time) (ok : Bool) : Option (POServer cfg) :=
  match s.master with
  | .longSweep t => some (s.longSweep t ok)
  | .acceptLoop t => if s.mayAccept then none else some (s.lookForAccept (t.getD now) none)
  | .waitSweep t caller => some (s.waitSweep t caller ok)
  | .unlocked => some { s with master := .epollWait }
  | .gotEvents batch =>
      if s.serverMutex = none then
        some { s with serverMutex := some .master, master := .events batch }
      else none
  | .events [] => some { s with serverMutex := none, master := .outside }
  | .events (.listener l :: rest) => some (s.doListenerEvent l rest now)
  | .events (.conn e :: rest) => some (s.doConnEvent e rest ok)
  | .noCallback e rest => some (s.removeIdle e rest ok)
  | .setReady e rest =>
      if s.store.connMutex e.conn = none then some (s.setReady e rest) else none
  | .runTask e rest =>
      if s.serverMutex = none then
        some { s with serverMutex := some .master, master := .eventEnd e rest }
      else none
  | .eventEnd e rest => some (s.eventEnd e rest ok)
  | .outside | .waitAccept _ _ | .epollWait | .listenerAccept _ | .serving _ _ _ => none

/-- The places of the master where `_poServer_accept` is called, with where it goes from there. -/
def afterAccept (s : POServer cfg) : Option (Master cfg) :=
  match s.master with
  | .acceptLoop t => if s.mayAccept then some (.acceptLoop t) else none
  | .waitAccept t caller => some (.waitSweep t caller)
  | .listenerAccept rest => some (.events rest)
  | _ => none

end POServer

/-- The transitions of the server. -/
def step (s : POServer cfg) (a : Action cfg) : Option (POServer cfg) :=
  if s.store.exited then none
  else
    match a with
    | .doNextEvents now =>
        if s.master = .outside ∧ s.serverMutex = none then
          some
            { s with
              serverMutex := some .master
              master := if cfg.longTimeout ≠ -1 then .longSweep now else .acceptLoop none }
        else none
    | .proceed now ok => s.proceed now ok
    | .accept r =>
        s.afterAccept.bind fun master ↦ (s.accept r).map fun s ↦ { s with master := master }
    | .epollWait batch =>
        if s.master = .epollWait ∧ s.CanReturn batch then
          some { s with master := .gotEvents batch }
        else none
    | .serve a ok =>
        match s.master with
        | .serving e rest phase => s.serve e rest ok phase a
        | _ => none
    | .work i a ok => (s.store.worker i).bind fun w ↦ s.work i w a ok
    | .stop => some { s with isRunning := false }
    | .shutdown =>
        if s.master = .outside then
          some
            { s with
              listenerFd := fun _ ↦ -1
              waiting := []
              isWaiting := fun _ ↦ false }
        else none

section

/-! ## The transitions of a process that runs -/

variable {s s' : POServer cfg} {now : Time} {ok : Bool}

namespace POServer

/-- Where `proceed` takes the master from, and what it does there. -/
inductive Proceeds (s : POServer cfg) (now : Time) (ok : Bool) : POServer cfg → Prop
  | longSweep {t : Time} (hm : s.master = .longSweep t) : Proceeds s now ok (s.longSweep t ok)
  | acceptLoop {t : Option Time} (hm : s.master = .acceptLoop t) (hmay : ¬ s.mayAccept = true) :
      Proceeds s now ok (s.lookForAccept (t.getD now) none)
  | waitSweep {t : Time} {caller : Option (List (Event cfg))}
      (hm : s.master = .waitSweep t caller) : Proceeds s now ok (s.waitSweep t caller ok)
  | unlocked (hm : s.master = .unlocked) : Proceeds s now ok { s with master := .epollWait }
  | gotEvents {batch : List (Event cfg)} (hm : s.master = .gotEvents batch)
      (hfree : s.serverMutex = none) :
      Proceeds s now ok { s with serverMutex := some .master, master := .events batch }
  | endsBatch (hm : s.master = .events []) :
      Proceeds s now ok { s with serverMutex := none, master := .outside }
  | listenerEvent {l : ListenerId cfg} {rest : List (Event cfg)}
      (hm : s.master = .events (.listener l :: rest)) :
      Proceeds s now ok (s.doListenerEvent l rest now)
  | connEvent {e : ConnEvent cfg} {rest : List (Event cfg)}
      (hm : s.master = .events (.conn e :: rest)) : Proceeds s now ok (s.doConnEvent e rest ok)
  | noCallback {e : ConnEvent cfg} {rest : List (Event cfg)} (hm : s.master = .noCallback e rest) :
      Proceeds s now ok (s.removeIdle e rest ok)
  | setReady {e : ConnEvent cfg} {rest : List (Event cfg)} (hm : s.master = .setReady e rest)
      (hfree : s.store.connMutex e.conn = none) : Proceeds s now ok (s.setReady e rest)
  | runTask {e : ConnEvent cfg} {rest : List (Event cfg)} (hm : s.master = .runTask e rest)
      (hfree : s.serverMutex = none) :
      Proceeds s now ok { s with serverMutex := some .master, master := .eventEnd e rest }
  | eventEnd {e : ConnEvent cfg} {rest : List (Event cfg)} (hm : s.master = .eventEnd e rest) :
      Proceeds s now ok (s.eventEnd e rest ok)

theorem proceeds (hs : s.proceed now ok = some s') : s.Proceeds now ok s' := by
  unfold proceed at hs
  cases hm : s.master with
  | longSweep t =>
      simp only [hm] at hs
      cases hs
      exact .longSweep hm
  | acceptLoop t =>
      simp only [hm] at hs
      obtain ⟨hmay, hs⟩ := Option.ite_none_left_eq_some.mp hs
      cases hs
      exact .acceptLoop hm hmay
  | waitSweep t caller =>
      simp only [hm] at hs
      cases hs
      exact .waitSweep hm
  | unlocked =>
      simp only [hm] at hs
      cases hs
      exact .unlocked hm
  | gotEvents batch =>
      simp only [hm] at hs
      obtain ⟨hfree, hs⟩ := Option.ite_none_right_eq_some.mp hs
      cases hs
      exact .gotEvents hm hfree
  | events batch =>
      cases batch with
      | nil =>
          simp only [hm] at hs
          cases hs
          exact .endsBatch hm
      | cons ev rest =>
          simp only [hm] at hs
          cases ev with
          | listener l =>
              cases hs
              exact .listenerEvent hm
          | conn e =>
              cases hs
              exact .connEvent hm
  | noCallback e rest =>
      simp only [hm] at hs
      cases hs
      exact .noCallback hm
  | setReady e rest =>
      simp only [hm] at hs
      obtain ⟨hfree, hs⟩ := Option.ite_none_right_eq_some.mp hs
      cases hs
      exact .setReady hm hfree
  | runTask e rest =>
      simp only [hm] at hs
      obtain ⟨hfree, hs⟩ := Option.ite_none_right_eq_some.mp hs
      cases hs
      exact .runTask hm hfree
  | eventEnd e rest =>
      simp only [hm] at hs
      cases hs
      exact .eventEnd hm
  | _ => simp [hm] at hs

/-- Where `work` takes the task from, and what it does there. -/
inductive TaskProceeds (s : POServer cfg) (i : ℕ) (w : Worker cfg) (a : ServiceAction)
    (ok : Bool) : POServer cfg → Prop
  | lockServer {removeMe : Bool} (hp : w.place = .lockServer removeMe)
      (hfree : s.serverMutex = none) (ha : a = .go) :
      TaskProceeds s i w a ok
        { s with
          store := s.store.setWorker i (some { w with place := .lockConn removeMe })
          serverMutex := some (.worker i) }
  | lockConn {removeMe : Bool} (hp : w.place = .lockConn removeMe)
      (hfree : s.store.connMutex w.conn = none) (ha : a = .go) :
      TaskProceeds s i w a ok
        { s with
          store := s.store.finishService i w removeMe ok
          serverMutex :=
            if (s.store.finishService i w removeMe ok).exited then s.serverMutex else none }
  | service {store : Store cfg} (hp : ∀ removeMe, w.place ≠ .lockConn removeMe)
      (hstore : s.store.serviceConnection i w a = some store) :
      TaskProceeds s i w a ok { s with store := store }

theorem taskProceeds {i : ℕ} {w : Worker cfg} {a : ServiceAction}
    (hs : s.work i w a ok = some s') : s.TaskProceeds i w a ok s' := by
  unfold work at hs
  cases hp : w.place with
  | lockServer removeMe =>
      simp only [hp] at hs
      obtain ⟨⟨hfree, ha⟩, hs⟩ := Option.ite_none_right_eq_some.mp hs
      cases hs
      exact .lockServer hp hfree ha
  | lockConn removeMe =>
      simp only [hp] at hs
      obtain ⟨⟨hfree, ha⟩, hs⟩ := Option.ite_none_right_eq_some.mp hs
      cases hs
      exact .lockConn hp hfree ha
  | queued | locked | serving =>
      simp only [hp] at hs
      obtain ⟨store, hstore, rfl⟩ := Option.map_eq_some_iff.mp hs
      exact .service (fun _ hne ↦ nomatch hp.symm.trans hne) hstore

theorem afterAccept_cases {m : Master cfg} (hm : s.afterAccept = some m) :
    (∃ t, s.master = .acceptLoop t ∧ m = .acceptLoop t) ∨
      (∃ t caller, s.master = .waitAccept t caller ∧ m = .waitSweep t caller) ∨
        ∃ rest, s.master = .listenerAccept rest ∧ m = .events rest := by
  unfold afterAccept at hm
  cases hp : s.master with
  | acceptLoop t =>
      simp only [hp] at hm
      obtain ⟨-, hm⟩ := Option.ite_none_right_eq_some.mp hm
      cases hm
      exact .inl ⟨t, rfl, rfl⟩
  | waitAccept t caller =>
      simp only [hp] at hm
      cases hm
      exact .inr (.inl ⟨t, caller, rfl, rfl⟩)
  | listenerAccept rest =>
      simp only [hp] at hm
      cases hm
      exact .inr (.inr ⟨rest, rfl, rfl⟩)
  | _ => simp [hp] at hm

theorem accept_accepted_eq_some {fd : ℤ} :
    s.accept (.accepted fd now) = some s' ↔
      ∃ l rest, s.waiting = l :: rest ∧ s.CanAccept l fd ∧
        { s with store := s.store.addConnection fd now (cfg.listenerCallback l) } = s' := by
  cases hwaiting : s.waiting <;> simp [accept, hwaiting]

end POServer

theorem step_doNextEvents_eq_some :
    step s (.doNextEvents now) = some s' ↔
      s.store.exited = false ∧ (s.master = .outside ∧ s.serverMutex = none) ∧
        { s with
          serverMutex := some .master
          master := if cfg.longTimeout ≠ -1 then .longSweep now else .acceptLoop none } = s' := by
  simp [step]

theorem step_proceed_eq_some :
    step s (.proceed now ok) = some s' ↔
      s.store.exited = false ∧ s.proceed now ok = some s' := by
  simp [step]

theorem step_accept_eq_some {r : AcceptResult} :
    step s (.accept r) = some s' ↔
      s.store.exited = false ∧ ∃ m, s.afterAccept = some m ∧
        ∃ t, s.accept r = some t ∧ { t with master := m } = s' := by
  simp [step, Option.bind_eq_some_iff]

theorem step_epollWait_eq_some {batch : List (Event cfg)} :
    step s (.epollWait batch) = some s' ↔
      s.store.exited = false ∧ (s.master = .epollWait ∧ s.CanReturn batch) ∧
        { s with master := .gotEvents batch } = s' := by
  simp [step]

theorem step_serve_eq_some {a : ServiceAction} :
    step s (.serve a ok) = some s' ↔
      s.store.exited = false ∧ ∃ e rest phase, s.master = .serving e rest phase ∧
        s.serve e rest ok phase a = some s' := by
  cases hm : s.master <;> simp [step, hm]

theorem step_work_eq_some {i : ℕ} {a : ServiceAction} :
    step s (.work i a ok) = some s' ↔
      s.store.exited = false ∧ ∃ w, s.store.worker i = some w ∧ s.work i w a ok = some s' := by
  simp [step, Option.bind_eq_some_iff]

theorem step_stop_eq_some :
    step s .stop = some s' ↔ s.store.exited = false ∧ { s with isRunning := false } = s' := by
  simp [step]

theorem step_shutdown_eq_some :
    step s .shutdown = some s' ↔
      s.store.exited = false ∧ s.master = .outside ∧
        { s with
          listenerFd := fun _ ↦ -1
          waiting := []
          isWaiting := fun _ ↦ false } = s' := by
  simp [step]

end

end Tidbits.Server
