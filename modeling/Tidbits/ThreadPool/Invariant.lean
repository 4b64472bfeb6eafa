import Tidbits.ThreadPool.Step
import Tidbits.Sequence.Counting

/-!
# The invariant of the thread pool

`Inv` ties the two lists, the thread count, the queue and the position of the
manager together.  Its parts only hold together: an exiting worker may not be
counted twice because a worker in the unused list has no thread, the unused list
is exact because `numThreads` and its length add up, and the queue is empty
whenever a worker goes idle or exits because it looked just before.

That every step keeps it is `Inv.step` in `Tidbits.ThreadPool.Preservation`.
-/

namespace Tidbits.ThreadPool

open Tidbits.Transition Tidbits.Sequence

variable {cfg : Config}

namespace Place

/-- The thread is between its start and its next wait or exit. -/
def busy : Place → Prop
  | running _ | returned | woken => True
  | _ => False

theorem busy.ne_waiting {p : Place} (h : p.busy) : p ≠ waiting := by
  rintro rfl
  exact h

theorem busy.ne_noThread {p : Place} (h : p.busy) : p ≠ noThread := by
  rintro rfl
  exact h

theorem busy.ne_starting {p : Place} (h : p.busy) : p ≠ starting := by
  rintro rfl
  exact h

end Place

namespace Manager

/-- One thread has been created that has not started yet. -/
def pendingStart : Manager cfg → ℕ
  | waitStart _ _ false => 1
  | _ => 0

/-- The manager waits in `poThreadPool_runTask` for a worker to take a task. -/
def blocked : Manager cfg → Bool
  | waitRoom _ _ | waitTaken _ _ => true
  | _ => false

/-- The manager waits for the last thread, or is past that wait. -/
def finishing : Manager cfg → Bool
  | waitCleanup _ | destroying | destroyed => true
  | _ => false

/-- The manager is past the wait for the last thread, or on its way out of it. -/
def pastWait : Manager cfg → Bool
  | waitCleanup true | destroying | destroyed => true
  | _ => false

@[simp] theorem blocked_signal (m : Manager cfg) : m.signal.blocked = m.blocked := by
  cases m <;> rfl

@[simp] theorem finishing_signal (m : Manager cfg) : m.signal.finishing = m.finishing := by
  cases m <;> rfl

@[simp] theorem pendingStart_signal (m : Manager cfg) : m.signal.pendingStart = 0 := by
  cases m <;> rfl

/-- A blocked manager is not waiting for a thread to start. -/
theorem pendingStart_of_blocked {m : Manager cfg} (h : m.blocked = true) : m.pendingStart = 0 := by
  cases m <;> simp_all [blocked, pendingStart]

theorem pendingStart_of_finishing {m : Manager cfg} (h : m.finishing = true) :
    m.pendingStart = 0 := by
  cases m <;> simp_all [finishing, pendingStart]

theorem finishing_of_pastWait {m : Manager cfg} (h : m.pastWait = true) : m.finishing = true := by
  cases m <;> simp_all [finishing, pastWait]

/-- A manager that waits for a start is not signalled by it. -/
theorem pendingStart_eq_zero_or (m : Manager cfg) :
    m.pendingStart = 0 ∨ ∃ w t, m = waitStart w t false ∧ m.pendingStart = 1 := by
  cases m with
  | waitStart w t b =>
      cases b with
      | false => exact .inr ⟨w, t, rfl, rfl⟩
      | true => exact .inl rfl
  | _ => exact .inl rfl

end Manager

namespace Pool

/-- A check that holds leaves no trace. -/
theorem dassert_of {s : Pool cfg} {p : Prop} [Decidable p] (h : p) : s.dassert p = s := by
  simp [dassert, h]

theorem signalWorker_of_waiting {s : Pool cfg} {w : WorkerId cfg}
    (h : (s.worker w).place = .waiting) :
    s.signalWorker w = s.setWorker w { s.worker w with place := .woken } := if_pos h

/-- The idle and the unused list against the places of the worker threads. -/
structure Placed (worker : WorkerId cfg → Worker) (idle unused : List (WorkerId cfg)) :
    Prop where
  idle_nodup : idle.Nodup
  unused_nodup : unused.Nodup
  /-- The idle list holds the workers that wait on their condition variable. -/
  mem_idle : ∀ w, w ∈ idle ↔ (worker w).place = .waiting
  /-- The unused list holds the workers without a thread. -/
  mem_unused : ∀ w, w ∈ unused ↔ (worker w).place = .noThread
  /-- A waiting worker has no task. -/
  idle_task : ∀ w, (worker w).place = .waiting → (worker w).task = none

/-- A thread that has not started yet against the manager that waits for it. -/
structure Starts (worker : WorkerId cfg → Worker) (manager : Manager cfg) : Prop where
  starting : ∀ w, (worker w).place = .starting → ∃ t, manager = .waitStart w t false
  waitStart : ∀ w t, manager = .waitStart w t false →
    (worker w).place = .starting ∧ (worker w).task = some t

/-- **The state invariant of the pool.** -/
structure Inv (s : Pool cfg) : Prop extends
    Placed s.worker s.idle s.unused, Starts s.worker s.manager where
  /-- Threads, unused workers and a thread about to start make up all workers. -/
  count : s.numThreads + s.unused.length + s.manager.pendingStart = cfg.maxNumThreads
  queue_valid : 0 < cfg.queueLength → s.queue.Valid cfg.queueLength
  no_queue : cfg.queueLength = 0 → s.queue.num = 0
  /-- A task is queued only while every worker is busy. -/
  queue_busy : 0 < s.queue.num → s.idle = [] ∧ s.unused = []
  blocked : s.taskWaitingToBeRun = s.manager.blocked
  waitRoom : ∀ t b, s.manager = .waitRoom t b → 0 < cfg.queueLength
  waitTaken : ∀ t b, s.manager = .waitTaken t b → cfg.queueLength = 0 ∧ s.oneTask = some t
  cleanup : s.cleanup = true → s.manager.finishing = true
  waitCleanup : s.manager = .waitCleanup false → s.cleanup = true
  /-- The manager gets past its wait only when there is no thread. -/
  pastWait : s.manager.pastWait = true → s.numThreads = 0
  /-- With an idle time of zero no thread idles. -/
  never_idle : cfg.maxIdleTime = 0 → s.idle = []
  asserts : s.asserts = true

/-- The pool that `poThreadPool_create` builds satisfies the invariant. -/
theorem inv_create (cfg : Config) : (create cfg).Inv where
  idle_nodup := List.nodup_nil
  unused_nodup := List.nodup_finRange _
  mem_idle := by simp [create]
  mem_unused := by simp [create]
  idle_task := by simp [create]
  starting := by simp [create]
  waitStart := by simp [create]
  count := by simp [create, Manager.pendingStart]
  queue_valid := TaskQueue.valid_empty
  no_queue := fun _ ↦ rfl
  queue_busy := fun h ↦ absurd h (Nat.lt_irrefl 0)
  blocked := rfl
  waitRoom := by simp [create]
  waitTaken := by simp [create]
  cleanup := by simp [create]
  waitCleanup := by simp [create]
  pastWait := by simp [create, Manager.pastWait]
  never_idle := fun _ ↦ rfl
  asserts := rfl

/-- One worker struct changes, and the lists change for it alone. -/
theorem Placed.update {worker : WorkerId cfg → Worker}
    {idle unused idle' unused' : List (WorkerId cfg)}
    (h : Placed worker idle unused) {w : WorkerId cfg} {x : Worker}
    (hidle : idle'.Nodup) (hunused : unused'.Nodup)
    (hmem : ∀ w', w' ≠ w → (w' ∈ idle' ↔ w' ∈ idle) ∧ (w' ∈ unused' ↔ w' ∈ unused))
    (hw : (w ∈ idle' ↔ x.place = .waiting) ∧ (w ∈ unused' ↔ x.place = .noThread))
    (hx : x.place = .waiting → x.task = none) :
    Placed (Function.update worker w x) idle' unused' := by
  have key : ∀ w', (w' ∈ idle' ↔ (Function.update worker w x w').place = .waiting) ∧
      (w' ∈ unused' ↔ (Function.update worker w x w').place = .noThread) ∧
      ((Function.update worker w x w').place = .waiting →
        (Function.update worker w x w').task = none) := by
    intro w'
    by_cases hne : w' = w
    · subst hne
      rw [Function.update_self]
      exact ⟨hw.1, hw.2, hx⟩
    · rw [Function.update_of_ne hne]
      exact ⟨(hmem w' hne).1.trans (h.mem_idle w'), (hmem w' hne).2.trans (h.mem_unused w'),
        h.idle_task w'⟩
  exact ⟨hidle, hunused, fun w' ↦ (key w').1, fun w' ↦ (key w').2.1, fun w' ↦ (key w').2.2⟩

/-- A worker that is not about to start changes. -/
theorem Starts.update {worker : WorkerId cfg → Worker} {manager : Manager cfg}
    (h : Starts worker manager) {w : WorkerId cfg} {x : Worker}
    (hw : (worker w).place ≠ .starting) (hx : x.place ≠ .starting) :
    Starts (Function.update worker w x) manager where
  starting w' hp := by
    by_cases hne : w' = w
    · subst hne
      rw [Function.update_self] at hp
      exact absurd hp hx
    · rw [Function.update_of_ne hne] at hp
      exact h.starting w' hp
  waitStart w' t hm := by
    have hne : w' ≠ w := by
      rintro rfl
      exact hw (h.waitStart w' t hm).1
    rw [Function.update_of_ne hne]
    exact h.waitStart w' t hm

/-- The manager moves while no thread is about to start. -/
theorem Starts.manager {worker : WorkerId cfg → Worker} {m m' : Manager cfg}
    (h : Starts worker m) (hm : m.pendingStart = 0) (hm' : m'.pendingStart = 0) :
    Starts worker m' where
  starting w hp := by
    obtain ⟨t, rfl⟩ := h.starting w hp
    exact absurd hm (by simp [Manager.pendingStart])
  waitStart w t h' := by
    subst h'
    exact absurd hm' (by simp [Manager.pendingStart])

namespace Inv

variable {s : Pool cfg}

/-! ## Counting threads -/

theorem notMem_unused (h : s.Inv) {w : WorkerId cfg} (hw : (s.worker w).place ≠ .noThread) :
    w ∉ s.unused := fun hm ↦ hw ((h.mem_unused w).mp hm)

/-- A running thread is counted. -/
theorem numThreads_pos (h : s.Inv) {w : WorkerId cfg} (hw : (s.worker w).place ≠ .noThread)
    (hs : (s.worker w).place ≠ .starting) : 0 < s.numThreads := by
  have hcount := h.count
  have hmem := h.notMem_unused hw
  rcases s.manager.pendingStart_eq_zero_or with hp | ⟨w', t, hm, hp⟩
  · have hlt := length_lt_card_of_notMem h.unused_nodup hmem
    rw [Fintype.card_fin] at hlt
    omega
  · have hw' := (h.waitStart w' t hm).1
    have hne : w ≠ w' := by
      rintro rfl
      exact hs hw'
    have hlt := length_add_two_le_card h.unused_nodup hmem
      (h.notMem_unused (by rw [hw']; simp)) hne
    rw [Fintype.card_fin] at hlt
    omega

theorem numThreads_le (h : s.Inv) : s.numThreads ≤ cfg.maxNumThreads := by
  have hcount := h.count
  omega

/-- Without counted threads, and none about to start, no worker has a thread. -/
theorem noThread_of_numThreads_eq_zero (h : s.Inv) (hn : s.numThreads = 0)
    (hp : s.manager.pendingStart = 0) (w : WorkerId cfg) : (s.worker w).place = .noThread := by
  have hcount := h.count
  have hlen : s.unused.length = Fintype.card (WorkerId cfg) := by
    rw [Fintype.card_fin]
    omega
  exact (h.mem_unused w).mp (mem_of_length_eq_card h.unused_nodup hlen w)

/-- Past the wait of `poThreadPool_destroy` no worker has a thread. -/
theorem noThread_of_pastWait (h : s.Inv) (hm : s.manager.pastWait = true) (w : WorkerId cfg) :
    (s.worker w).place = .noThread :=
  h.noThread_of_numThreads_eq_zero (h.pastWait hm)
    (Manager.pendingStart_of_finishing (Manager.finishing_of_pastWait hm)) w

/-- A worker with a thread keeps the manager from getting past its wait. -/
theorem not_pastWait (h : s.Inv) {w : WorkerId cfg} (hw : (s.worker w).place ≠ .noThread) :
    s.manager.pastWait = false := by
  cases hm : s.manager.pastWait with
  | false => rfl
  | true => exact absurd (h.noThread_of_pastWait hm w) hw

/-! ## The checks -/

theorem assertQueue_eq (h : s.Inv) (hlen : 0 < cfg.queueLength) : s.assertQueue = s :=
  dassert_of ⟨(h.queue_valid hlen).nextReadIndex_lt, (h.queue_valid hlen).num_le⟩

theorem idle_or_queue_empty (h : s.Inv) : s.idle = [] ∨ s.queue.num = 0 := by
  rcases Nat.eq_zero_or_pos s.queue.num with hn | hn
  · exact .inr hn
  · exact .inl (h.queue_busy hn).1

theorem assertIdleOrQueueEmpty_eq (h : s.Inv) : s.assertIdleOrQueueEmpty = s := by
  unfold assertIdleOrQueueEmpty
  split
  · exact dassert_of h.idle_or_queue_empty
  · rfl

/-! ## Busy workers -/

theorem notMem_of_busy (h : s.Inv) {w : WorkerId cfg} (hw : (s.worker w).place.busy) :
    w ∉ s.idle ∧ w ∉ s.unused :=
  ⟨fun hm ↦ hw.ne_waiting ((h.mem_idle w).mp hm),
    fun hm ↦ hw.ne_noThread ((h.mem_unused w).mp hm)⟩

theorem unused_length_lt (h : s.Inv) {w : WorkerId cfg} (hw : (s.worker w).place.busy) :
    s.unused.length < cfg.maxNumThreads := by
  simpa using length_lt_card_of_notMem h.unused_nodup (h.notMem_of_busy hw).2

theorem idle_length_lt (h : s.Inv) {w : WorkerId cfg} (hw : (s.worker w).place.busy) :
    s.idle.length < cfg.maxNumThreads := by
  simpa using length_lt_card_of_notMem h.idle_nodup (h.notMem_of_busy hw).1

/-- When a busy worker sees the cleanup flag, the manager waits unsignalled. -/
theorem waitCleanup_of_busy (h : s.Inv) {w : WorkerId cfg} (hw : (s.worker w).place.busy)
    (hc : s.cleanup = true) : s.manager = .waitCleanup false := by
  have hfin := h.cleanup hc
  have hpast := h.not_pastWait hw.ne_noThread
  cases hm : s.manager with
  | waitCleanup b => cases b <;> simp_all [Manager.pastWait]
  | _ => simp_all [Manager.finishing, Manager.pastWait]

end Inv

end Pool

end Tidbits.ThreadPool
