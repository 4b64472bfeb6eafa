import Tidbits.System.Threads
import Tidbits.Transition.LockOrder

/-!
# Who holds and who requests which mutex

A step that locks a mutex locks it first of all, so a thread requests a mutex
between two steps.  The `mutexTryLock` of `checkTryRemoveConnection` is no
request, as it does not block.
-/

namespace Tidbits.System

open Tidbits.Server (ConnId)
open Tidbits.Transition

/-- The mutexes. -/
inductive Lock (b : Build)
  | server
  | conn (c : ConnId b.server)
  | pool
deriving DecidableEq

variable {b : Build}

/-- The order in which the threads lock them. -/
def Lock.rank : Lock b → ℕ
  | server => 0
  | conn _ => 1
  | pool => 2

theorem Lock.rank_lt (l : Lock b) : l.rank < 3 := by
  cases l <;> simp [rank]

namespace State

/-- What the server mutex records of the thread. -/
def owner (s : State b) : Thread b → Option Server.Owner
  | .master => some .master
  | .worker w => (s.task (.worker w)).map .worker

/-- The thread holds the mutex. -/
def Holds (s : State b) (t : Thread b) : Lock b → Prop
  | .server => ∃ o ∈ s.owner t, s.server.serverMutex = some o
  | .conn c => s.connSection c = some t ∨ ∃ i ∈ s.task t, s.server.store.connMutex c = some i
  | .pool => s.poolMutex = some t

/-- The thread is about to lock the server mutex. -/
def entersServer (s : State b) : Thread b → Bool
  | .master =>
      match s.server.master with
      | .outside => true
      | .gotEvents _ | .runTask _ _ => s.poolDone
      | _ => false
  | .worker w =>
      (s.service (.worker w)).any fun x ↦
        match x.place with
        | .lockServer _ => true
        | _ => false

/-- The thread is in the call of `mutexLock()` for the mutex, or back from its wait in a
`condWait`. -/
def Requests (s : State b) (t : Thread b) : Lock b → Prop
  | .server => s.entersServer t = true
  | .conn c =>
      s.sectionConn t = some c ∧ s.connSection c ≠ some t ∨
        ∃ x ∈ s.service t, x.place = .queued ∧ x.conn = c
  | .pool => s.entersPool t = true ∧ s.poolMutex ≠ some t

/-- The thread requests a mutex that the other one holds. -/
def WaitsFor (s : State b) : Thread b → Thread b → Prop :=
  Transition.WaitsFor s.Holds s.Requests

/-- The master is blocked in a `condWait` of `poThreadPool_runTask`. -/
def InCondWait (s : State b) : Prop := s.call = .waiting ∧ s.pool.manager.signalled = false

instance (s : State b) : Decidable s.InCondWait := inferInstanceAs (Decidable (_ ∧ _))

/-- The thread has an enabled step, and waits for no other one. -/
def CanMove (s : State b) (t : Thread b) : Prop :=
  (∀ t', ¬ s.WaitsFor t t') ∧ ∃ a s', a.thread = some t ∧ step s a = some s'

/-! ## The place of a thread -/

variable {s : State b} {t : Thread b} {w : ThreadPool.WorkerId b.pool} {i : ℕ}
  {x : Server.Worker b.server} {c : ConnId b.server}

theorem task_eq_some :
    s.task (.worker w) = some i ↔ ∃ t, (s.pool.worker w).place = .running t ∧ t.userData = i := by
  cases hp : (s.pool.worker w).place <;> simp [task, hp]

theorem service_eq_some :
    s.service t = some x ↔ ∃ i, s.task t = some i ∧ s.server.store.worker i = some x :=
  Option.bind_eq_some_iff

theorem sectionConn_worker :
    s.sectionConn (.worker w) = some c ↔
      ∃ x removeMe, s.service (.worker w) = some x ∧ x.place = .lockConn removeMe ∧
        x.conn = c := by
  unfold sectionConn
  rw [Option.bind_eq_some_iff]
  constructor
  · rintro ⟨x, hx, hc⟩
    cases hp : x.place with
    | lockConn removeMe => exact ⟨x, removeMe, hx, hp, by simpa [hp] using hc⟩
    | _ => simp [hp] at hc
  · rintro ⟨x, removeMe, hx, hp, hc⟩
    exact ⟨x, hx, by simp [hp, hc]⟩

theorem entersServer_worker :
    s.entersServer (.worker w) = true ↔
      ∃ x removeMe, s.service (.worker w) = some x ∧ x.place = .lockServer removeMe := by
  unfold entersServer
  rw [Option.any_eq_true]
  constructor
  · rintro ⟨x, hx, hp⟩
    cases hplace : x.place with
    | lockServer removeMe => exact ⟨x, removeMe, hx, hplace⟩
    | _ => simp [hplace] at hp
  · rintro ⟨x, removeMe, hx, hp⟩
    exact ⟨x, hx, by simp [hp]⟩

/-- A worker that runs a task enters no critical section of the pool. -/
theorem entersPool_of_task (h : s.task (.worker w) = some i) :
    s.entersPool (.worker w) = false := by
  obtain ⟨t, hp, -⟩ := task_eq_some.mp h
  simp [entersPool, hp]

theorem task_of_service (h : s.service (.worker w) = some x) :
    ∃ i, s.task (.worker w) = some i := by
  obtain ⟨i, hi, -⟩ := service_eq_some.mp h
  exact ⟨i, hi⟩

end State

end Tidbits.System
