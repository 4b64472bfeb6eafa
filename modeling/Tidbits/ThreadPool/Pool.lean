import Tidbits.Clock
import Tidbits.ThreadPool.TaskQueue
import Mathlib.Data.List.FinRange

/-!
# The state of the thread pool and its critical sections

`threadPool.c` as functions on the state of a pool.  All pool data is accessed
under the pool mutex, so each stretch of code from `mutexLock` (or the return
of `condWait`) to `mutexUnlock` (or the call of `condWait`) is one function
here; `Tidbits.ThreadPool.Step` says when which of them may run.

* The two builds chosen by `PO_THREADPOOL_QUEUE_LENGTH` and the three chosen by
  `PO_THREADPOOL_MAX_IDLE_TIME` are one model: an `#if` of the source is an `if`
  on the `Config`.
* The idle and the unused list are sequences of worker indices with their top
  first.
* A condition variable has at most one waiter, its worker or the manager, so a
  signal is a change of that thread's position.  A signal without a waiter is
  lost.
* The `DASSERT`s and `DVASSERT`s of the pool functions are evaluated where the
  source evaluates them; `asserts` records whether all of them have held.  Of
  the list functions only the length check of `listPush` is kept: the others
  are about links, which sequences do not have.
* `numThreads` is not reduced modulo `2 ^ 32`: `poThreadPool_create` counts the
  workers with an `int`.
-/

namespace Tidbits.ThreadPool

/-- The compile-time parameters, within the bounds that `threadPool.h` checks. -/
structure Config where
  /-- `PO_THREADPOOL_MAX_NUM_THREADS`; with `0` there is no pool and tasks run in the caller. -/
  maxNumThreads : ℕ
  /-- `PO_THREADPOOL_QUEUE_LENGTH`; with `0` one task can be handed over directly. -/
  queueLength : ℕ
  /-- `PO_THREADPOOL_MAX_IDLE_TIME` in milliseconds; `-1` is forever, with `0` no thread idles. -/
  maxIdleTime : ℤ
  maxIdleTime_ge : -1 ≤ maxIdleTime

namespace Config

theorem second_ge : -1 ≤ (1000 : ℤ) := by decide

theorem zero_ge : -1 ≤ (0 : ℤ) := by decide

end Config

/-- The index of a worker struct. -/
abbrev WorkerId (cfg : Config) := Fin cfg.maxNumThreads

/-- Where the thread of a worker struct is, between two critical sections. -/
inductive Place
  /-- The struct has no thread. -/
  | noThread
  /-- Created, and has not locked the pool mutex yet. -/
  | starting
  /-- In the user callback. -/
  | running (t : Task)
  /-- Back from the user callback, and has not locked the pool mutex yet. -/
  | returned
  /-- Blocked on the worker's condition variable. -/
  | waiting
  /-- Woken from that wait, and has not locked the pool mutex yet. -/
  | woken
deriving DecidableEq, Repr

/-- `struct POThreadPool_worker`.  A `task` of `none` is a `NULL` `userCallback`. -/
structure Worker where
  task : Option Task
  lastWorkTime : Time
  thread : ℕ
  place : Place
deriving DecidableEq, Repr

/-- Where the managing thread is, between two critical sections.  The flag of a
wait on `p->cond` says whether a signal has been delivered. -/
inductive Manager (cfg : Config)
  /-- Outside the pool functions. -/
  | ready
  /-- In `poThreadPool_runTask`, waiting for a new thread to start. -/
  | waitStart (w : WorkerId cfg) (t : Task) (signalled : Bool)
  /-- In `poThreadPool_runTask`, waiting for room in the queue. -/
  | waitRoom (t : Task) (signalled : Bool)
  /-- In `poThreadPool_runTask` of a pool without queue, waiting for a thread to take the task. -/
  | waitTaken (t : Task) (signalled : Bool)
  /-- In `poThreadPool_destroy`, joining an idle worker's thread. -/
  | joining (thread : ℕ)
  /-- In `poThreadPool_destroy`, waiting for the last thread. -/
  | waitCleanup (signalled : Bool)
  /-- In `poThreadPool_destroy`, past the wait, about to destroy the mutex. -/
  | destroying
  /-- The pool is destroyed. -/
  | destroyed
deriving DecidableEq, Repr

/-- `struct POThreadPool` with the positions of the threads, and the history
that the properties speak of. -/
structure Pool (cfg : Config) where
  numThreads : ℕ
  /-- `task` of a pool with a queue. -/
  queue : TaskQueue
  /-- `task` of a pool without queue. -/
  oneTask : Option Task
  worker : WorkerId cfg → Worker
  idle : List (WorkerId cfg)
  unused : List (WorkerId cfg)
  cleanup : Bool
  detachThread : Bool
  taskWaitingToBeRun : Bool
  manager : Manager cfg
  /-- Every `DASSERT` and `DVASSERT` evaluated so far held. -/
  asserts : Bool
  /-- The tasks of all `poThreadPool_runTask` calls, last call first. -/
  submitted : List Task
  /-- The tasks handed to a popped idle worker. -/
  handed : List Task
  /-- The tasks whose callback was called. -/
  started : List Task
  /-- The tasks whose callback returned. -/
  finished : List Task
  /-- How many threads were created; the next one gets this number. -/
  threads : ℕ
  /-- The threads that are past their last critical section. -/
  exited : List ℕ
  detached : List ℕ
  joined : List ℕ

variable {cfg : Config}

/-! ## Lists of workers -/

/-- `listPush`: add at the top. -/
def listPush {α : Type} (list : List α) (w : α) : List α := w :: list

/-- `listPop`: remove from the top. -/
def listPop {α : Type} : List α → Option (α × List α)
  | [] => none
  | w :: list => some (w, list)

/-- `listPull`: remove from the bottom. -/
def listPull {α : Type} (list : List α) : Option (α × List α) :=
  list.getLast?.map fun w ↦ (w, list.dropLast)

namespace Manager

/-- What `pthread_cond_signal(&p->cond)` does to the manager. -/
def signal : Manager cfg → Manager cfg
  | waitStart w t _ => waitStart w t true
  | waitRoom t _ => waitRoom t true
  | waitTaken t _ => waitTaken t true
  | waitCleanup _ => waitCleanup true
  | m => m

/-- A signal has been delivered to the manager. -/
def signalled : Manager cfg → Bool
  | waitStart _ _ signalled | waitRoom _ signalled | waitTaken _ signalled
  | waitCleanup signalled => signalled
  | _ => false

end Manager

namespace Pool

/-! ## Elementary operations -/

/-- Change one worker struct. -/
def setWorker (s : Pool cfg) (w : WorkerId cfg) (x : Worker) : Pool cfg :=
  { s with worker := Function.update s.worker w x }

/-- `DASSERT` and `DVASSERT`. -/
def dassert (s : Pool cfg) (p : Prop) [Decidable p] : Pool cfg :=
  { s with asserts := s.asserts && decide p }

/-- `pthread_cond_signal(&p->cond)`. -/
def signal (s : Pool cfg) : Pool cfg := { s with manager := s.manager.signal }

/-- `pthread_cond_signal(&worker->cond)`. -/
def signalWorker (s : Pool cfg) (w : WorkerId cfg) : Pool cfg :=
  if (s.worker w).place = .waiting then s.setWorker w { s.worker w with place := .woken } else s

/-- The check that idle workers and queued tasks exclude each other, made at the
head of the three manager functions. -/
def assertIdleOrQueueEmpty (s : Pool cfg) : Pool cfg :=
  if cfg.maxIdleTime ≠ 0 ∧ 0 < cfg.queueLength then
    s.dassert (s.idle = [] ∨ s.queue.num = 0)
  else s

/-- The checks at the head of the queue functions. -/
def assertQueue (s : Pool cfg) : Pool cfg :=
  s.dassert (s.queue.nextReadIndex < cfg.queueLength ∧ s.queue.num ≤ cfg.queueLength)

/-- `poThreadPool_create`: the zeroed struct with all workers unused, in the
order of the array. -/
def create (cfg : Config) : Pool cfg where
  numThreads := 0
  queue := TaskQueue.empty
  oneTask := none
  worker := fun _ ↦ ⟨none, 0, 0, .noThread⟩
  idle := []
  unused := List.finRange cfg.maxNumThreads
  cleanup := false
  detachThread := true
  taskWaitingToBeRun := false
  manager := .ready
  asserts := true
  submitted := []
  handed := []
  started := []
  finished := []
  threads := 0
  exited := []
  detached := []
  joined := []

/-! ## The worker threads -/

/-- `lookForWork`: the next task for the calling worker and the pool after it
was taken. -/
def lookForWork (s : Pool cfg) : Option Task × Pool cfg :=
  if 0 < cfg.queueLength then
    let s := s.assertQueue
    match s.queue.queueGetNext cfg.queueLength with
    | some (t, q) =>
        let s := { s with queue := q }
        let s := s.dassert (s.unused = [])
        let s := if cfg.maxIdleTime ≠ 0 then s.dassert (s.idle = []) else s
        (t, if s.taskWaitingToBeRun then s.signal else s)
    | none => (none, s)
  else if s.taskWaitingToBeRun then (s.oneTask, s.signal)
  else (none, s)

/-- The worker releases the mutex and calls the callback of `t`. -/
def run (s : Pool cfg) (w : WorkerId cfg) (t : Task) : Pool cfg :=
  { s.setWorker w { s.worker w with place := .running t } with started := t :: s.started }

/-- The end of `workerCallback`, from the push on the unused list on. -/
def exit (s : Pool cfg) (w : WorkerId cfg) : Pool cfg :=
  let s := s.dassert (s.unused.length < cfg.maxNumThreads)
  let s := { s with unused := listPush s.unused w, numThreads := s.numThreads - 1 }
  let s := s.dassert (s.numThreads < cfg.maxNumThreads)
  let s := if 0 < cfg.queueLength then s.dassert (s.queue.num = 0) else s
  let thread := (s.worker w).thread
  { s.setWorker w { s.worker w with place := .noThread } with
    detached := if s.detachThread then thread :: s.detached else s.detached
    exited := thread :: s.exited }

/-- The worker joins the idle list and waits. -/
def sleep (s : Pool cfg) (w : WorkerId cfg) (now : Time) : Pool cfg :=
  let s := s.dassert (s.idle.length < cfg.maxNumThreads)
  { s.setWorker w
      { s.worker w with
        task := none
        lastWorkTime := if 0 < cfg.maxIdleTime then now else (s.worker w).lastWorkTime
        place := .waiting } with
    idle := listPush s.idle w }

/-- The head of `workerCallback`, up to the first call of the user callback. -/
def threadStarts (s : Pool cfg) (w : WorkerId cfg) (t : Task) : Pool cfg :=
  let s := { s with numThreads := s.numThreads + 1 }
  let s := s.dassert (s.numThreads ≤ cfg.maxNumThreads)
  s.signal.run w t

/-- The user callback returns. -/
def callbackReturns (s : Pool cfg) (w : WorkerId cfg) (t : Task) : Pool cfg :=
  { s.setWorker w { s.worker w with place := .returned } with finished := t :: s.finished }

/-- The loop of `workerCallback`, from the lock after the user callback on. -/
def looksForWork (s : Pool cfg) (w : WorkerId cfg) (now : Time) : Pool cfg :=
  match s.lookForWork with
  | (some t, s) => s.run w t
  | (none, s) =>
      if s.cleanup then
        if s.numThreads = 1 then s.signal.exit w else s.exit w
      else if cfg.maxIdleTime ≠ 0 then s.sleep w now
      else s.exit w

/-- The loop of `workerCallback`, from the return of the idle wait on. -/
def wakes (s : Pool cfg) (w : WorkerId cfg) : Pool cfg :=
  match (s.worker w).task with
  | some t => s.run w t
  | none =>
      match s.lookForWork with
      | (some t, s) => s.run w t
      | (none, s) => s.exit w

/-! ## The managing thread -/

/-- The idle worker popped last gets the task. -/
def handOver (s : Pool cfg) (w : WorkerId cfg) (t : Task) : Pool cfg :=
  let s := s.signalWorker w
  { s.setWorker w { s.worker w with task := some t } with handed := t :: s.handed }

/-- `_poThreadPool_checkThreadTimeout`: wake the worker that has been idle
longest if it has been for too long and enough others remain. -/
def checkThreadTimeout (s : Pool cfg) (now : Time) : Pool cfg :=
  if s.numThreads < 2 then s
  else if 2 < s.numThreads then
    match listPull s.idle with
    | some (w, idle) =>
        if milliseconds cfg.maxIdleTime < now - (s.worker w).lastWorkTime then
          let s := { s with idle := idle }
          let s := s.dassert ((s.worker w).task = none)
          s.signalWorker w
        else s
    | none => s
  else s

/-- `pthread_create` for the unused worker popped last. -/
def createThread (s : Pool cfg) (w : WorkerId cfg) (t : Task) : Pool cfg :=
  let s := s.dassert (s.numThreads < cfg.maxNumThreads)
  { s.setWorker w { s.worker w with task := some t, thread := s.threads, place := .starting } with
    threads := s.threads + 1
    manager := .waitStart w t false }

/-- The `while` loop of `poThreadPool_runTask`, up to a `break` or a `condWait`. -/
def runTaskLoop (s : Pool cfg) (t : Task) (now : Time) : Pool cfg :=
  match if cfg.maxIdleTime ≠ 0 then listPop s.idle else none with
  | some (w, idle) =>
      let s := { s with idle := idle }.handOver w t
      let s := if 0 < cfg.maxIdleTime then s.checkThreadTimeout now else s
      { s with manager := .ready }
  | none =>
      match listPop s.unused with
      | some (w, unused) => { s with unused := unused }.createThread w t
      | none =>
          if 0 < cfg.queueLength then
            let s := s.assertQueue
            match s.queue.queueMakeNewEntry cfg.queueLength t with
            | some q => { s with queue := q, manager := .ready }
            | none => { s with taskWaitingToBeRun := true, manager := .waitRoom t false }
          else
            { s with
              taskWaitingToBeRun := true
              oneTask := some t
              manager := .waitTaken t false }

/-- The task of a new `poThreadPool_runTask` call. -/
def newTask (s : Pool cfg) (userCallback userData : ℕ) : Task :=
  ⟨userCallback, userData, s.submitted.length⟩

/-- `poThreadPool_runTask`.  Without a pool the callback runs in the caller. -/
def runTask (s : Pool cfg) (userCallback userData : ℕ) (now : Time) : Pool cfg :=
  let t := s.newTask userCallback userData
  let s := { s with submitted := t :: s.submitted }
  if cfg.maxNumThreads = 0 then
    { s with started := t :: s.started, finished := t :: s.finished }
  else
    let s := s.assertIdleOrQueueEmpty
    let s := s.dassert (s.numThreads ≤ cfg.maxNumThreads)
    s.runTaskLoop t now

/-- `poThreadPool_checkIdleThreadTimeout`. -/
def checkIdleThreadTimeout (s : Pool cfg) (now : Time) : Pool cfg :=
  if 0 < cfg.maxIdleTime then
    let s := s.assertIdleOrQueueEmpty
    let s := s.dassert (s.numThreads ≤ cfg.maxNumThreads)
    s.checkThreadTimeout now
  else s

/-- The tail of `poThreadPool_destroy`: wait for the last thread if there is
one. -/
def destroyWait (s : Pool cfg) : Pool cfg :=
  let s := if cfg.maxIdleTime ≠ 0 then { s with detachThread := true } else s
  if 0 < s.numThreads then { s with cleanup := true, manager := .waitCleanup false }
  else { s with manager := .destroying }

/-- The loop of `poThreadPool_destroy` that wakes and joins the idle workers. -/
def destroyIdle (s : Pool cfg) : Pool cfg :=
  match if cfg.maxIdleTime ≠ 0 then listPop s.idle else none with
  | some (w, idle) =>
      let s := { s with idle := idle, detachThread := false }
      let s := s.setWorker w { s.worker w with task := none }
      let s := s.signalWorker w
      { s with manager := .joining (s.worker w).thread }
  | none => s.destroyWait

/-- `poThreadPool_destroy`, up to its first wait. -/
def destroy (s : Pool cfg) : Pool cfg :=
  if cfg.maxNumThreads = 0 then { s with manager := .destroyed }
  else s.assertIdleOrQueueEmpty.destroyIdle

/-- The manager locks the mutex again after a wait on `p->cond`. -/
def resume (s : Pool cfg) (now : Time) : Option (Pool cfg) :=
  match s.manager with
  | .waitStart _ _ true => some { s with manager := .ready }
  | .waitRoom t true =>
      some ({ s with taskWaitingToBeRun := false, manager := .ready }.runTaskLoop t now)
  | .waitTaken _ true => some { s with taskWaitingToBeRun := false, manager := .ready }
  | .waitCleanup true => some { s with manager := .destroying }
  | _ => none

end Pool

end Tidbits.ThreadPool
