import Tidbits.Server.Step
import Tidbits.ThreadPool.Step

/-!
# The server with its thread pool

The threads of a server that is built with threads: the master, which calls
`poServer_doNextEvents()` again and again, and the workers of its thread pool.
The connections are those of `Tidbits.Server` and the pool is that of
`Tidbits.ThreadPool`.  This module says which thread makes which of their steps,
and adds the mutexes that these models lock and unlock within one step.

* A `ServiceConnection()` task goes on while a worker of the pool is in the user
  callback with it, and that callback returns when the task has ended.
* `doEvent` goes on after `poThreadPool_runTask()` when that has returned.
* Each critical section of the pool begins with the locking of the pool mutex
  and ends with its unlocking, or with a `condWait`.
* The mutex of a connection is locked, for one step of the server, by `doEvent`,
  by `listAddNew` and at the end of `ServiceConnection()`.

Condition variables wake only when signalled.
-/

namespace Tidbits.System

open Tidbits.Server (POServer ConnId ListenerId ServiceAction)
open Tidbits.ThreadPool (Pool WorkerId)

/-- The parameters of a server with threads and a pool with workers and a queue.  Without workers
there is no pool: `poThreadPool_runTask()` is another function then, and locks nothing. -/
structure Build where
  server : Server.Config
  pool : ThreadPool.Config
  threadPool : server.threadPool = true
  maxNumThreads_pos : 0 < pool.maxNumThreads
  queueLength_pos : 0 < pool.queueLength

/-- The threads. -/
inductive Thread (b : Build)
  | master
  | worker (w : WorkerId b.pool)
deriving DecidableEq

/-- Where the master is in a call of a pool function. -/
inductive PoolCall
  /-- Before the locking of the pool mutex, or in no such call. -/
  | before
  /-- In the critical section. -/
  | locked
  /-- In a `condWait`. -/
  | waiting
  /-- In the critical section, back from the `condWait`. -/
  | relocked
  | returned
deriving DecidableEq

/-- The server with its threads. -/
structure State (b : Build) where
  server : POServer b.server
  pool : Pool b.pool
  /-- The thread that holds the mutex of a connection for one step of the server. -/
  connSection : ConnId b.server → Option (Thread b)
  poolMutex : Option (Thread b)
  call : PoolCall

variable {b : Build}

/-- The threads of a server whose listeners are all set up. -/
def start (b : Build) (listenerFd : ListenerId b.server → ℤ) : State b where
  server := Server.start b.server listenerFd
  pool := Pool.create b.pool
  connSection := fun _ ↦ none
  poolMutex := none
  call := .before

/-- The critical section that a worker is about to enter at its place. -/
def sectionOf {cfg : ThreadPool.Config} (w : WorkerId cfg) (now : Time) :
    ThreadPool.Place → Option (ThreadPool.Action cfg)
  | .starting => some (.threadStarts w)
  | .returned => some (.looksForWork w now)
  | .woken => some (.wakes w)
  | _ => none

namespace State

/-! ## The threads -/

/-- The task that the thread runs. -/
def task (s : State b) : Thread b → Option ℕ
  | .master => none
  | .worker w =>
      match (s.pool.worker w).place with
      | .running t => some t.userData
      | _ => none

/-- The `ServiceConnection()` that the thread is in. -/
def service (s : State b) (t : Thread b) : Option (Server.Worker b.server) :=
  (s.task t).bind s.server.store.worker

/-- The master calls a function of the pool.  `epoll_wait()` returns no events also when it is
interrupted, and the master does not call one then. -/
def callsPool (s : State b) : Bool :=
  match s.server.master with
  | .runTask _ _ => true
  | .gotEvents batch => batch.isEmpty
  | _ => false

/-- The call of the pool function does not keep the master from going on. -/
def poolDone (s : State b) : Bool :=
  match s.server.master with
  | .runTask _ _ => decide (s.call = .returned)
  | .gotEvents _ => decide (s.call = .before) || decide (s.call = .returned)
  | _ => true

/-! ## The connection mutex -/

/-- The mutex of which connection the thread locks for one step of the server. -/
def sectionConn (s : State b) : Thread b → Option (ConnId b.server)
  | .master =>
      match s.server.master with
      | .setReady e _ => some e.conn
      | _ =>
          if s.server.afterAccept.isSome ∧ s.server.waiting ≠ [] then s.server.store.lists.front
          else none
  | .worker w =>
      (s.service (.worker w)).bind fun x ↦
        match x.place with
        | .lockConn _ => some x.conn
        | _ => none

/-- The thread has locked the mutex for its next step, if it has to. -/
def hasLocked (s : State b) (t : Thread b) : Bool :=
  (s.sectionConn t).all fun c ↦ decide (s.connSection c = some t)

/-- The thread unlocks the mutex that it has locked for one step. -/
def unlockConn (s : State b) (t : Thread b) : State b :=
  { s with connSection := fun c ↦ if s.connSection c = some t then none else s.connSection c }

/-- The mutexes of the connections, and the pool, allow the step of the master. -/
def masterMay (s : State b) : Server.Action b.server → Bool
  | .doNextEvents _ | .epollWait _ => true
  | .proceed _ _ => s.hasLocked .master && s.poolDone
  | .accept (.accepted _ _) => s.hasLocked .master
  -- `accept()` returns no socket
  | .accept .again =>
      (s.sectionConn .master).all fun c ↦ decide (s.connSection c ≠ some .master)
  -- `epoll_ctl()` may fail when the mutex is locked
  | .accept .failed => true
  | .serve _ _ | .work _ _ _ | .stop | .shutdown => false

/-- The mutex of its connection allows the step of the service. -/
def serviceMay (s : State b) (t : Thread b) (x : Server.Worker b.server) : Bool :=
  match x.place with
  | .queued => decide (s.connSection x.conn = none)
  | _ => s.hasLocked t

/-! ## The pool mutex -/

/-- The thread is about to lock the pool mutex, or has locked it and is about to go on. -/
def entersPool (s : State b) : Thread b → Bool
  | .master =>
      decide (s.call = .before) && s.callsPool ||
        decide (s.call = .waiting) && s.pool.manager.signalled
  | .worker w =>
      match (s.pool.worker w).place with
      | .starting | .returned | .woken => true
      | _ => false

/-- The thread locks the pool mutex. -/
def lockPool (s : State b) : Thread b → State b
  | .master =>
      { s with
        poolMutex := some .master
        call := if s.call = .waiting then .relocked else .locked }
  | .worker w => { s with poolMutex := some (.worker w) }

/-- The master leaves its critical section. -/
def leavePool (s : State b) (pool : Pool b.pool) : State b :=
  { s with
    pool := pool
    poolMutex := none
    call := if pool.manager = .ready then .returned else .waiting }

/-- The critical section of the master.  The task is the last one created. -/
def masterSection (s : State b) (now : Time) : Option (ThreadPool.Action b.pool) :=
  match s.call with
  | .locked =>
      match s.server.master with
      | .runTask _ _ => some (.runTask 0 (s.server.store.workers - 1) now)
      | _ => some (.checkIdleThreadTimeout now)
  | .relocked => some (.resume now)
  | _ => none

end State

/-- Who moves, with the choices of the environment. -/
inductive Action (b : Build)
  /-- The master goes on in `poServer_doNextEvents()`, or calls it. -/
  | master (a : Server.Action b.server)
  /-- `isRunning` is cleared. -/
  | stop
  /-- The thread locks the mutex of a connection for one step of the server. -/
  | lockConn (t : Thread b) (c : ConnId b.server)
  /-- The thread locks the pool mutex. -/
  | lockPool (t : Thread b)
  /-- The master runs its critical section of the pool. -/
  | masterSection (now : Time)
  /-- The worker runs its critical section of the pool. -/
  | workerSection (w : WorkerId b.pool) (now : Time)
  /-- The worker goes on in `ServiceConnection()`. -/
  | work (w : WorkerId b.pool) (a : ServiceAction) (ok : Bool)
  /-- `ServiceConnection()` returns to the worker. -/
  | callbackReturns (w : WorkerId b.pool)

/-- The thread that moves. -/
def Action.thread : Action b → Option (Thread b)
  | .stop => none
  | .master _ | .masterSection _ => some .master
  | .lockConn t _ | .lockPool t => some t
  | .workerSection w _ | .work w _ _ | .callbackReturns w => some (.worker w)

/-- The transitions of the server with its threads. -/
def step (s : State b) (a : Action b) : Option (State b) :=
  if s.server.store.exited then none
  else
    match a with
    | .master a =>
        if s.masterMay a then
          (Server.step s.server a).map fun server ↦
            { s.unlockConn .master with server := server, call := .before }
        else none
    | .stop => (Server.step s.server .stop).map fun server ↦ { s with server := server }
    | .lockConn t c =>
        if s.sectionConn t = some c ∧ s.connSection c = none ∧
            s.server.store.connMutex c = none then
          some { s with connSection := Function.update s.connSection c (some t) }
        else none
    | .lockPool t =>
        if s.entersPool t = true ∧ s.poolMutex = none then some (s.lockPool t) else none
    | .masterSection now =>
        (s.masterSection now).bind fun a ↦ (ThreadPool.step s.pool a).map s.leavePool
    | .workerSection w now =>
        if s.poolMutex = some (.worker w) then
          (sectionOf w now (s.pool.worker w).place).bind fun a ↦
            (ThreadPool.step s.pool a).map fun pool ↦ { s with pool := pool, poolMutex := none }
        else none
    | .work w a ok =>
        (s.task (.worker w)).bind fun i ↦
          if (s.service (.worker w)).all (s.serviceMay (.worker w)) then
            (Server.step s.server (.work i a ok)).map fun server ↦
              { s.unlockConn (.worker w) with server := server }
          else none
    | .callbackReturns w =>
        if s.service (.worker w) = none then
          (ThreadPool.step s.pool (.callbackReturns w)).map fun pool ↦ { s with pool := pool }
        else none

end Tidbits.System
