import Tidbits.ThreadPool.Pool
import Tidbits.Transition.Reach

/-!
# The thread pool as a transition system

Which critical section may run next.  The labels name the thread that moves and
carry what the environment chooses: the task of a `poThreadPool_runTask` call
and the clock readings.  Any enabled label may come next, so the runs are all
interleavings of one managing thread with the workers.

A label `spuriousWake` lets an idle worker return from `pthread_cond_wait`
without a signal, as POSIX permits.  `Signalled` excludes it: the runs whose
steps all meet `Signalled` are those in which condition variables wake only
when signalled.
-/

namespace Tidbits.ThreadPool

open Tidbits.Transition

variable {cfg : Config}

/-- Who moves, with the choices of the environment. -/
inductive Action (cfg : Config)
  | runTask (userCallback userData : ℕ) (now : Time)
  | checkIdleThreadTimeout (now : Time)
  | destroy
  /-- The manager returns from a `condWait`. -/
  | resume (now : Time)
  /-- The manager returns from `pthread_join`. -/
  | joined
  /-- The manager destroys the mutex and the condition variables. -/
  | destroyPool
  | threadStarts (w : WorkerId cfg)
  | callbackReturns (w : WorkerId cfg)
  | looksForWork (w : WorkerId cfg) (now : Time)
  | wakes (w : WorkerId cfg)
  | spuriousWake (w : WorkerId cfg)
deriving DecidableEq, Repr

/-- The transitions of the pool. -/
def step (s : Pool cfg) : Action cfg → Option (Pool cfg)
  | .runTask userCallback userData now =>
      if s.manager = .ready then some (s.runTask userCallback userData now) else none
  | .checkIdleThreadTimeout now =>
      if s.manager = .ready then some (s.checkIdleThreadTimeout now) else none
  | .destroy => if s.manager = .ready then some s.destroy else none
  | .resume now => s.resume now
  | .joined =>
      match s.manager with
      | .joining thread =>
          if thread ∈ s.exited then
            some { s with joined := thread :: s.joined }.destroyIdle
          else none
      | _ => none
  | .destroyPool =>
      if s.manager = .destroying then some { s with manager := .destroyed } else none
  | .threadStarts w =>
      match (s.worker w).place, (s.worker w).task with
      | .starting, some t => some (s.threadStarts w t)
      | _, _ => none
  | .callbackReturns w =>
      match (s.worker w).place with
      | .running t => some (s.callbackReturns w t)
      | _ => none
  | .looksForWork w now =>
      if (s.worker w).place = .returned then some (s.looksForWork w now) else none
  | .wakes w => if (s.worker w).place = .woken then some (s.wakes w) else none
  | .spuriousWake w =>
      if (s.worker w).place = .waiting then
        some (s.setWorker w { s.worker w with place := .woken })
      else none

/-- The label is a return from `pthread_cond_wait` without a signal. -/
def Action.isSpurious : Action cfg → Bool
  | .spuriousWake _ => true
  | _ => false

/-- Condition variables wake only when signalled. -/
def Signalled (_ : Pool cfg) (a : Action cfg) : Prop := a.isSpurious = false

instance : DecidableRel (@Signalled cfg) := fun _ a ↦
  inferInstanceAs (Decidable (a.isSpurious = false))

/-- The label is a step of a worker thread. -/
def Action.isWorker : Action cfg → Bool
  | .threadStarts _ | .callbackReturns _ | .looksForWork _ _ | .wakes _ | .spuriousWake _ => true
  | _ => false

end Tidbits.ThreadPool
