import Tidbits.ThreadPool.Invariant

/-!
# What a step can do

In a state that satisfies the invariant every `DASSERT` holds, so each critical
section is the plain update that is left when the checks are removed.  `Move`
lists these updates, one constructor for each way a section can end, with the
guards that select it; `step_cases` says that there are no others.  The
invariants of the following modules are proved by cases on `Move` and look into
no definition of `Tidbits.ThreadPool.Pool`.
-/

namespace Tidbits.ThreadPool

open Tidbits.Transition

variable {cfg : Config}

theorem listPop_cases {α : Type} (l : List α) :
    listPop l = none ∧ l = [] ∨ ∃ a l', listPop l = some (a, l') ∧ l = a :: l' := by
  cases l with
  | nil => exact .inl ⟨rfl, rfl⟩
  | cons a l => exact .inr ⟨a, l, rfl, rfl⟩

theorem listPop_eq_some {α : Type} {l l' : List α} {a : α} :
    listPop l = some (a, l') ↔ l = a :: l' := by
  cases l <;> simp [listPop]

theorem listPull_eq_some {α : Type} {l l' : List α} {a : α} :
    listPull l = some (a, l') ↔ l = l' ++ [a] := by
  unfold listPull
  constructor
  · intro h
    obtain ⟨b, hb, he⟩ := Option.map_eq_some_iff.mp h
    obtain ⟨ys, rfl⟩ := List.getLast?_eq_some_iff.mp hb
    simp only [List.dropLast_concat, Prod.mk.injEq] at he
    rw [he.1, he.2]
  · rintro rfl
    simp

namespace Pool

/-! ## The updates -/

/-- A thread exits. -/
def afterExit (s : Pool cfg) (w : WorkerId cfg) : Pool cfg :=
  { s with
    unused := w :: s.unused
    numThreads := s.numThreads - 1
    worker := Function.update s.worker w { s.worker w with place := .noThread }
    detached := if s.detachThread then (s.worker w).thread :: s.detached else s.detached
    exited := (s.worker w).thread :: s.exited }

/-- A worker goes idle. -/
def afterSleep (s : Pool cfg) (w : WorkerId cfg) (now : Time) : Pool cfg :=
  { s with
    idle := w :: s.idle
    worker := Function.update s.worker w
      { s.worker w with
        task := none
        lastWorkTime := if 0 < cfg.maxIdleTime then now else (s.worker w).lastWorkTime
        place := .waiting } }

/-- A new thread starts. -/
def afterStart (s : Pool cfg) (w : WorkerId cfg) (t : Task) : Pool cfg :=
  { s with
    numThreads := s.numThreads + 1
    manager := s.manager.signal
    worker := Function.update s.worker w { s.worker w with place := .running t }
    started := t :: s.started }

/-- An idle worker is taken off the list and woken with the given task. -/
def afterWake (s : Pool cfg) (w : WorkerId cfg) (idle : List (WorkerId cfg))
    (task : Option Task) : Pool cfg :=
  { s with
    idle := idle
    worker := Function.update s.worker w { s.worker w with task := task, place := .woken } }

/-- A thread is created for an unused worker. -/
def afterCreate (s : Pool cfg) (w : WorkerId cfg) (unused : List (WorkerId cfg)) (t : Task) :
    Pool cfg :=
  { s with
    unused := unused
    worker := Function.update s.worker w
      { s.worker w with task := some t, thread := s.threads, place := .starting }
    threads := s.threads + 1
    manager := .waitStart w t false }

/-- `Take s t s'`: a worker takes the task `t`, from the queue or, in a pool
without queue, from the manager that waits to hand it over. -/
inductive Take (s : Pool cfg) : Task → Pool cfg → Prop
  | queue {t : Task} {q : TaskQueue} (hlen : 0 < cfg.queueLength)
      (hget : s.queue.queueGetNext cfg.queueLength = some (some t, q)) :
      Take s t
        { s with
          queue := q
          manager := if s.taskWaitingToBeRun then s.manager.signal else s.manager }
  | oneTask {t : Task} (hlen : cfg.queueLength = 0) (hwait : s.taskWaitingToBeRun = true)
      (htask : s.oneTask = some t) : Take s t { s with manager := s.manager.signal }

/-- `lookForWork` would find no task. -/
def NoWork (s : Pool cfg) : Prop :=
  s.queue.num = 0 ∧ (cfg.queueLength = 0 → s.taskWaitingToBeRun = false)

/-- What `_poThreadPool_checkThreadTimeout` may do: nothing, or wake the worker
at the bottom of the idle list. -/
inductive Timeout (s : Pool cfg) (now : Time) : Pool cfg → Prop
  | none : Timeout s now s
  | wake {w : WorkerId cfg} {idle : List (WorkerId cfg)} (hidle : s.idle = idle ++ [w])
      (hnum : 2 < s.numThreads)
      (hold : milliseconds cfg.maxIdleTime < now - (s.worker w).lastWorkTime) :
      Timeout s now (s.afterWake w idle none)

/-- What the loop of `poThreadPool_runTask` may do with its task. -/
inductive Placement (s : Pool cfg) (t : Task) (now : Time) : Pool cfg → Prop
  | handOver {w : WorkerId cfg} {idle : List (WorkerId cfg)} {s' : Pool cfg}
      (hidle : s.idle = w :: idle)
      (htimeout : Timeout { s.afterWake w idle (some t) with handed := t :: s.handed } now s') :
      Placement s t now { s' with manager := .ready }
  | create {w : WorkerId cfg} {unused : List (WorkerId cfg)} (hidle : s.idle = [])
      (hunused : s.unused = w :: unused) : Placement s t now (s.afterCreate w unused t)
  | queue {q : TaskQueue} (hidle : s.idle = []) (hunused : s.unused = [])
      (hlen : 0 < cfg.queueLength)
      (hq : s.queue.queueMakeNewEntry cfg.queueLength t = some q) :
      Placement s t now { s with queue := q, manager := .ready }
  | waitRoom (hidle : s.idle = []) (hunused : s.unused = []) (hlen : 0 < cfg.queueLength)
      (hfull : s.queue.num = cfg.queueLength) :
      Placement s t now { s with taskWaitingToBeRun := true, manager := .waitRoom t false }
  | waitTaken (hidle : s.idle = []) (hunused : s.unused = []) (hlen : cfg.queueLength = 0) :
      Placement s t now
        { s with
          taskWaitingToBeRun := true
          oneTask := some t
          manager := .waitTaken t false }

/-- How `poThreadPool_destroy` goes on: it joins the idle worker popped last,
waits for the last thread, or is done. -/
inductive Destroy (s : Pool cfg) : Pool cfg → Prop
  | join {w : WorkerId cfg} {idle : List (WorkerId cfg)} (hidle : s.idle = w :: idle) :
      Destroy s
        { s.afterWake w idle none with
          detachThread := false
          manager := .joining (s.worker w).thread }
  | wait (hidle : s.idle = []) (hnum : 0 < s.numThreads) (detachThread : Bool) :
      Destroy s
        { s with detachThread := detachThread, cleanup := true, manager := .waitCleanup false }
  | done (hidle : s.idle = []) (hnum : s.numThreads = 0) (detachThread : Bool) :
      Destroy s { s with detachThread := detachThread, manager := .destroying }

/-- `Move s a s'`: the ways the step `a` can go in a state `s` that satisfies the
invariant. -/
inductive Move (s : Pool cfg) : Action cfg → Pool cfg → Prop
  /-- Without a pool the task runs in the caller. -/
  | runInCaller {userCallback userData : ℕ} {now : Time} (hthreads : cfg.maxNumThreads = 0)
      (hm : s.manager = .ready) :
      Move s (.runTask userCallback userData now)
        { s with
          submitted := s.newTask userCallback userData :: s.submitted
          started := s.newTask userCallback userData :: s.started
          finished := s.newTask userCallback userData :: s.finished }
  | runTask {userCallback userData : ℕ} {now : Time} {s' : Pool cfg}
      (hthreads : cfg.maxNumThreads ≠ 0) (hm : s.manager = .ready)
      (hp : Placement { s with submitted := s.newTask userCallback userData :: s.submitted }
        (s.newTask userCallback userData) now s') :
      Move s (.runTask userCallback userData now) s'
  | checkIdleThreadTimeout {now : Time} {s' : Pool cfg} (hm : s.manager = .ready)
      (ht : Timeout s now s') : Move s (.checkIdleThreadTimeout now) s'
  | destroyNothing (hthreads : cfg.maxNumThreads = 0) (hm : s.manager = .ready) :
      Move s .destroy { s with manager := .destroyed }
  | destroy {s' : Pool cfg} (hthreads : cfg.maxNumThreads ≠ 0) (hm : s.manager = .ready)
      (hd : Destroy s s') : Move s .destroy s'
  | resumeStart {now : Time} {w : WorkerId cfg} {t : Task} (hm : s.manager = .waitStart w t true) :
      Move s (.resume now) { s with manager := .ready }
  | resumeRoom {now : Time} {t : Task} {s' : Pool cfg} (hm : s.manager = .waitRoom t true)
      (hp : Placement { s with taskWaitingToBeRun := false, manager := .ready } t now s') :
      Move s (.resume now) s'
  | resumeTaken {now : Time} {t : Task} (hm : s.manager = .waitTaken t true) :
      Move s (.resume now) { s with taskWaitingToBeRun := false, manager := .ready }
  | resumeCleanup {now : Time} (hm : s.manager = .waitCleanup true) :
      Move s (.resume now) { s with manager := .destroying }
  | joined {thread : ℕ} {s' : Pool cfg} (hm : s.manager = .joining thread)
      (hexited : thread ∈ s.exited) (hd : Destroy { s with joined := thread :: s.joined } s') :
      Move s .joined s'
  | destroyPool (hm : s.manager = .destroying) :
      Move s .destroyPool { s with manager := .destroyed }
  | threadStarts {w : WorkerId cfg} {t : Task} (hplace : (s.worker w).place = .starting)
      (hm : s.manager = .waitStart w t false) : Move s (.threadStarts w) (s.afterStart w t)
  | callbackReturns {w : WorkerId cfg} {t : Task} (hplace : (s.worker w).place = .running t) :
      Move s (.callbackReturns w) (s.callbackReturns w t)
  | findWork {w : WorkerId cfg} {now : Time} {t : Task} {s' : Pool cfg}
      (hplace : (s.worker w).place = .returned) (ht : Take s t s') :
      Move s (.looksForWork w now) (s'.run w t)
  | lastExit {w : WorkerId cfg} {now : Time} (hplace : (s.worker w).place = .returned)
      (hwork : s.NoWork) (hm : s.manager = .waitCleanup false) (hone : s.numThreads = 1) :
      Move s (.looksForWork w now) ({ s with manager := .waitCleanup true }.afterExit w)
  | exit {w : WorkerId cfg} {now : Time} (hplace : (s.worker w).place = .returned)
      (hwork : s.NoWork)
      (hc : s.cleanup = true ∧ s.numThreads ≠ 1 ∨ s.cleanup = false ∧ cfg.maxIdleTime = 0) :
      Move s (.looksForWork w now) (s.afterExit w)
  | sleep {w : WorkerId cfg} {now : Time} (hplace : (s.worker w).place = .returned)
      (hwork : s.NoWork) (hc : s.cleanup = false) (hidleTime : cfg.maxIdleTime ≠ 0) :
      Move s (.looksForWork w now) (s.afterSleep w now)
  | wakeTask {w : WorkerId cfg} {t : Task} (hplace : (s.worker w).place = .woken)
      (htask : (s.worker w).task = some t) : Move s (.wakes w) (s.run w t)
  | wakeFindWork {w : WorkerId cfg} {t : Task} {s' : Pool cfg}
      (hplace : (s.worker w).place = .woken) (htask : (s.worker w).task = none)
      (ht : Take s t s') : Move s (.wakes w) (s'.run w t)
  | wakeExit {w : WorkerId cfg} (hplace : (s.worker w).place = .woken)
      (htask : (s.worker w).task = none) (hwork : s.NoWork) : Move s (.wakes w) (s.afterExit w)

/-- Taking a task moves no worker. -/
theorem Take.worker_eq {s s' : Pool cfg} {t : Task} (ht : Take s t s') :
    s'.worker = s.worker := by
  cases ht <;> rfl

/-! ## The sections are these updates -/

theorem exit_eq {s : Pool cfg} {w : WorkerId cfg} (hlen : s.unused.length < cfg.maxNumThreads)
    (hnum : s.numThreads - 1 < cfg.maxNumThreads) (hq : s.queue.num = 0) :
    s.exit w = s.afterExit w := by
  simp [exit, afterExit, dassert, listPush, setWorker, hlen, hnum, hq]

theorem sleep_eq {s : Pool cfg} {w : WorkerId cfg} {now : Time}
    (hlen : s.idle.length < cfg.maxNumThreads) : s.sleep w now = s.afterSleep w now := by
  simp [sleep, afterSleep, dassert, listPush, setWorker, hlen]

theorem threadStarts_eq {s : Pool cfg} {w : WorkerId cfg} {t : Task}
    (hnum : s.numThreads + 1 ≤ cfg.maxNumThreads) : s.threadStarts w t = s.afterStart w t := by
  simp [threadStarts, afterStart, run, dassert, signal, setWorker, hnum]

/-- The idle list holds waiting workers without a task: what waking one of them
needs of the invariant. -/
def IdleWaits (s : Pool cfg) : Prop :=
  ∀ w ∈ s.idle, (s.worker w).place = .waiting ∧ (s.worker w).task = none

theorem checkThreadTimeout_cases {s : Pool cfg} (h : s.IdleWaits) (now : Time) :
    Timeout s now (s.checkThreadTimeout now) := by
  unfold checkThreadTimeout
  split
  · exact .none
  split
  · rename_i hnum
    cases hp : listPull s.idle with
    | none => exact .none
    | some r =>
        obtain ⟨w, idle⟩ := r
        have hidle := listPull_eq_some.mp hp
        obtain ⟨hwait, htask⟩ := h w (by simp [hidle])
        simp only
        split
        · rename_i hold
          have hwoken := Timeout.wake hidle hnum hold
          rw [dassert_of (by exact htask), signalWorker_of_waiting (by exact hwait)]
          simpa [afterWake, setWorker, htask] using hwoken
        · exact .none
  · exact .none

/-- Handing a task to the idle worker popped last. -/
theorem handOver_eq {s : Pool cfg} (h : s.IdleWaits) {w : WorkerId cfg}
    {idle : List (WorkerId cfg)} (hidle : s.idle = w :: idle) (t : Task) :
    { s with idle := idle }.handOver w t =
      { s.afterWake w idle (some t) with handed := t :: s.handed } := by
  obtain ⟨hwait, -⟩ := h w (by simp [hidle])
  rw [handOver, signalWorker_of_waiting (by exact hwait)]
  simp [afterWake, setWorker]

namespace Inv

variable {s s' : Pool cfg} {w : WorkerId cfg} {t : Task}

theorem idleWaits (h : s.Inv) : s.IdleWaits := fun w hw ↦
  ⟨(h.mem_idle w).mp hw, h.idle_task w ((h.mem_idle w).mp hw)⟩

/-- After the top of the idle list was woken the others still wait. -/
theorem idleWaits_afterWake (h : s.Inv) {idle : List (WorkerId cfg)} (hidle : s.idle = w :: idle)
    (task : Option Task) : (s.afterWake w idle task).IdleWaits := by
  intro w' hw'
  have hnodup := h.idle_nodup
  rw [hidle, List.nodup_cons] at hnodup
  have hne : w' ≠ w := by
    rintro rfl
    exact hnodup.1 hw'
  simpa [afterWake, hne] using h.idleWaits w' (by rw [hidle]; exact List.mem_cons_of_mem _ hw')

theorem runTaskLoop_cases (h : s.Inv) (t : Task) (now : Time) :
    Placement s t now (s.runTaskLoop t now) := by
  unfold runTaskLoop
  rcases listPop_cases s.idle with ⟨hpop, hidle⟩ | ⟨w, idle, hpop, hidle⟩
  · simp only [hpop, ite_self]
    rcases listPop_cases s.unused with ⟨hpop, hunused⟩ | ⟨w, unused, hpop, hunused⟩
    · simp only [hpop]
      split
      · rename_i hlen
        rw [h.assertQueue_eq hlen]
        cases hq : s.queue.queueMakeNewEntry cfg.queueLength t with
        | some q => exact .queue hidle hunused hlen hq
        | none => exact .waitRoom hidle hunused hlen (TaskQueue.queueMakeNewEntry_eq_none.mp hq)
      · exact .waitTaken hidle hunused (by omega)
    · have hcount := h.count
      simp only [hunused, List.length_cons] at hcount
      simp only [hpop, createThread]
      rw [dassert_of (by omega)]
      exact .create hidle hunused
  · have hidleTime : cfg.maxIdleTime ≠ 0 := fun h0 ↦ by simp [h.never_idle h0] at hidle
    simp only [hidleTime, ne_eq, not_false_eq_true, if_true, hpop, handOver_eq h.idleWaits hidle]
    have hrest : { s.afterWake w idle (some t) with handed := t :: s.handed }.IdleWaits :=
      h.idleWaits_afterWake hidle (some t)
    refine .handOver hidle ?_
    split
    · exact checkThreadTimeout_cases hrest now
    · exact .none

theorem destroyIdle_cases (h : s.Inv) : Destroy s s.destroyIdle := by
  unfold destroyIdle
  rcases listPop_cases s.idle with ⟨hpop, hidle⟩ | ⟨w, idle, hpop, hidle⟩
  · simp only [hpop, ite_self, destroyWait]
    rcases Nat.eq_zero_or_pos s.numThreads with hn | hn
    · by_cases h0 : cfg.maxIdleTime = 0
      · simpa [h0, hn] using Destroy.done hidle hn s.detachThread
      · simpa [h0, hn] using Destroy.done hidle hn true
    · by_cases h0 : cfg.maxIdleTime = 0
      · simpa [h0, hn] using Destroy.wait hidle hn s.detachThread
      · simpa [h0, hn] using Destroy.wait hidle hn true
  · have hidleTime : cfg.maxIdleTime ≠ 0 := fun h0 ↦ by simp [h.never_idle h0] at hidle
    obtain ⟨hwait, -⟩ := h.idleWaits w (by simp [hidle])
    have hjoin := Destroy.join hidle
    simp only [hidleTime, ne_eq, not_false_eq_true, if_true, hpop]
    rw [signalWorker_of_waiting (by simpa [setWorker] using hwait)]
    simpa [afterWake, setWorker] using hjoin

/-- `lookForWork` takes a task, or there is none to take and nothing changes. -/
theorem lookForWork_cases (h : s.Inv) :
    (∃ t s', s.lookForWork = (some t, s') ∧ Take s t s') ∨
      (s.lookForWork = (none, s) ∧ s.NoWork) := by
  unfold lookForWork
  split
  · rename_i hlen
    have hvalid := h.queue_valid hlen
    simp only [h.assertQueue_eq hlen]
    cases hget : s.queue.queueGetNext cfg.queueLength with
    | none => exact .inr ⟨rfl, TaskQueue.queueGetNext_eq_none.mp hget, fun h0 ↦ by omega⟩
    | some r =>
        obtain ⟨t, q⟩ := r
        obtain ⟨t, rfl⟩ := Option.isSome_iff_exists.mp (hvalid.queueGetNext_isSome hget)
        obtain ⟨hidle, hunused⟩ := h.queue_busy (TaskQueue.queueGetNext_eq_some hget).1
        refine .inl ⟨t, _, rfl, ?_⟩
        simp only [dassert_of (s := { s with queue := q }) hunused,
          dassert_of (s := { s with queue := q }) hidle, ite_self]
        have htake := Take.queue hlen hget
        cases hw : s.taskWaitingToBeRun <;> simpa [hw, signal] using htake
  · rename_i hlen
    have hlen : cfg.queueLength = 0 := by omega
    split
    · rename_i hwait
      have hblocked := h.blocked
      rw [hwait] at hblocked
      have htask : ∃ t, s.oneTask = some t := by
        cases hm : s.manager with
        | waitRoom t b => exact absurd (h.waitRoom t b hm) (by omega)
        | waitTaken t b => exact ⟨t, (h.waitTaken t b hm).2⟩
        | _ => simp [hm, Manager.blocked] at hblocked
      obtain ⟨t, htask⟩ := htask
      exact .inl ⟨t, s.signal, by rw [htask], .oneTask hlen hwait htask⟩
    · rename_i hwait
      exact .inr ⟨rfl, h.no_queue hlen, fun _ ↦ by simpa using hwait⟩

/-- The checks at the exit of a busy worker hold once there is no work. -/
theorem exit_eq (h : s.Inv) (hw : (s.worker w).place.busy) (hq : s.queue.num = 0)
    (m : Manager cfg) :
    { s with manager := m }.exit w = { s with manager := m }.afterExit w := by
  have hpos := h.numThreads_pos hw.ne_noThread hw.ne_starting
  have hle := h.numThreads_le
  exact Pool.exit_eq (h.unused_length_lt hw) (by change s.numThreads - 1 < _; omega) hq

theorem looksForWork_cases (h : s.Inv) (hplace : (s.worker w).place = .returned) (now : Time) :
    Move s (.looksForWork w now) (s.looksForWork w now) := by
  have hw : (s.worker w).place.busy := by rw [hplace]; trivial
  unfold looksForWork
  rcases h.lookForWork_cases with ⟨t, s', heq, ht⟩ | ⟨heq, hwork⟩
  · rw [heq]
    exact .findWork hplace ht
  rw [heq]
  simp only
  split
  · rename_i hc
    have hm := h.waitCleanup_of_busy hw hc
    split
    · rename_i hone
      have hsignal : s.signal = { s with manager := .waitCleanup true } := by
        simp [signal, hm, Manager.signal]
      rw [hsignal, h.exit_eq hw hwork.1]
      exact .lastExit hplace hwork hm hone
    · rename_i hone
      rw [h.exit_eq hw hwork.1 s.manager]
      exact .exit hplace hwork (.inl ⟨hc, hone⟩)
  · rename_i hc
    have hc : s.cleanup = false := by simpa using hc
    split
    · rename_i hidleTime
      rw [sleep_eq (h.idle_length_lt hw)]
      exact .sleep hplace hwork hc hidleTime
    · rename_i hidleTime
      rw [h.exit_eq hw hwork.1 s.manager]
      exact .exit hplace hwork (.inr ⟨hc, by simpa using hidleTime⟩)

theorem wakes_cases (h : s.Inv) (hplace : (s.worker w).place = .woken) :
    Move s (.wakes w) (s.wakes w) := by
  have hw : (s.worker w).place.busy := by rw [hplace]; trivial
  unfold wakes
  cases htask : (s.worker w).task with
  | some t => exact .wakeTask hplace htask
  | none =>
      rcases h.lookForWork_cases with ⟨t, s', heq, ht⟩ | ⟨heq, hwork⟩
      · simp only [heq]
        exact .wakeFindWork hplace htask ht
      · simp only [heq]
        rw [h.exit_eq hw hwork.1 s.manager]
        exact .wakeExit hplace htask hwork

theorem runTask_cases (h : s.Inv) (hm : s.manager = .ready) (userCallback userData : ℕ)
    (now : Time) :
    Move s (.runTask userCallback userData now) (s.runTask userCallback userData now) := by
  have hsub : { s with submitted := s.newTask userCallback userData :: s.submitted }.Inv :=
    { h with }
  unfold runTask
  simp only
  split
  · rename_i h0
    exact .runInCaller h0 hm
  · rename_i h0
    rw [hsub.assertIdleOrQueueEmpty_eq, dassert_of hsub.numThreads_le]
    exact .runTask h0 hm (hsub.runTaskLoop_cases _ now)

theorem checkIdleThreadTimeout_cases (h : s.Inv) (hm : s.manager = .ready) (now : Time) :
    Move s (.checkIdleThreadTimeout now) (s.checkIdleThreadTimeout now) := by
  refine .checkIdleThreadTimeout hm ?_
  unfold checkIdleThreadTimeout
  split
  · rw [h.assertIdleOrQueueEmpty_eq]
    simp only [dassert_of h.numThreads_le]
    exact checkThreadTimeout_cases h.idleWaits now
  · exact .none

/-- A blocked manager that locks the mutex again clears its flag. -/
theorem unblock (h : s.Inv) (hb : s.manager.blocked = true) :
    { s with taskWaitingToBeRun := false, manager := .ready }.Inv :=
  { h with
    toStarts := h.toStarts.manager (Manager.pendingStart_of_blocked hb) rfl
    count := by
      have hcount := h.count
      rwa [Manager.pendingStart_of_blocked hb] at hcount
    blocked := rfl
    waitRoom := by simp
    waitTaken := by simp
    cleanup := fun hc ↦ by
      have hfin := h.cleanup hc
      cases hm : s.manager <;> simp_all [Manager.blocked, Manager.finishing]
    waitCleanup := by simp
    pastWait := by simp [Manager.pastWait] }

theorem resume_cases (h : s.Inv) {now : Time} (hs : s.resume now = some s') :
    Move s (.resume now) s' := by
  unfold resume at hs
  split at hs
  · rename_i w t hm
    cases hs
    exact .resumeStart hm
  · rename_i t hm
    cases hs
    exact .resumeRoom hm ((h.unblock (by rw [hm]; rfl)).runTaskLoop_cases t now)
  · rename_i t hm
    cases hs
    exact .resumeTaken hm
  · rename_i hm
    cases hs
    exact .resumeCleanup hm
  · cases hs

/-- **Step inversion.**  A step from a state that satisfies the invariant, other
than a spurious wake-up, is one of the moves. -/
theorem step_cases (h : s.Inv) {a : Action cfg} (ha : Signalled s a) (hs : step s a = some s') :
    Move s a s' := by
  cases a with
  | runTask userCallback userData now =>
      obtain ⟨hm, hs⟩ := Option.ite_none_right_eq_some.mp hs
      cases hs
      exact h.runTask_cases hm userCallback userData now
  | checkIdleThreadTimeout now =>
      obtain ⟨hm, hs⟩ := Option.ite_none_right_eq_some.mp hs
      cases hs
      exact h.checkIdleThreadTimeout_cases hm now
  | destroy =>
      obtain ⟨hm, hs⟩ := Option.ite_none_right_eq_some.mp hs
      cases hs
      unfold Pool.destroy
      split
      · rename_i h0
        exact .destroyNothing h0 hm
      · rename_i h0
        rw [h.assertIdleOrQueueEmpty_eq]
        exact .destroy h0 hm h.destroyIdle_cases
  | resume now => exact h.resume_cases hs
  | joined =>
      simp only [step] at hs
      split at hs
      · rename_i thread hm
        obtain ⟨hexited, hs⟩ := Option.ite_none_right_eq_some.mp hs
        cases hs
        have hjoined : { s with joined := thread :: s.joined }.Inv := { h with }
        exact .joined hm hexited hjoined.destroyIdle_cases
      · cases hs
  | destroyPool =>
      obtain ⟨hm, hs⟩ := Option.ite_none_right_eq_some.mp hs
      cases hs
      exact .destroyPool hm
  | threadStarts w =>
      simp only [step] at hs
      split at hs
      · rename_i t hplace htask
        cases hs
        obtain ⟨t', hm⟩ := h.starting w hplace
        have ht : t' = t := Option.some.inj ((h.waitStart w t' hm).2.symm.trans htask)
        subst ht
        have hcount := h.count
        simp only [hm, Manager.pendingStart] at hcount
        rw [threadStarts_eq (by omega)]
        exact .threadStarts hplace hm
      · cases hs
  | callbackReturns w =>
      simp only [step] at hs
      split at hs
      · rename_i t hplace
        cases hs
        exact .callbackReturns hplace
      · cases hs
  | looksForWork w now =>
      obtain ⟨hplace, hs⟩ := Option.ite_none_right_eq_some.mp hs
      cases hs
      exact h.looksForWork_cases hplace now
  | wakes w =>
      obtain ⟨hplace, hs⟩ := Option.ite_none_right_eq_some.mp hs
      cases hs
      exact h.wakes_cases hplace
  | spuriousWake w => exact absurd ha (by simp [Signalled, Action.isSpurious])

end Inv

end Pool

end Tidbits.ThreadPool
