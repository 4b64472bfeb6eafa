import Tidbits.ThreadPool.Blocking
import Tidbits.ThreadPool.ExactlyOnce
import Tidbits.Transition.Termination
import Mathlib.Algebra.Order.BigOperators.Group.Finset
import Mathlib.Algebra.Group.Action.Defs

/-!
# A pool that is left alone drains

Between two calls of the manager only the pool itself moves: threads start,
callbacks return, workers look for work, go idle, wake and exit, and the manager
goes on with the call it is in.  `Pool.work` bounds how many such steps are left:
a queued task is worth a whole round of a worker, and each place of a worker and
of the manager is worth what is to be done from there.

When no such step is left, `Drained` says what was achieved: nothing is queued,
every submitted task has finished its only run, all workers sleep or are gone,
and the manager is back from its call.  The one call that need not return is
`poThreadPool_destroy`, which may wait for a signal that nobody is left to send.
-/

namespace Tidbits.ThreadPool

open Tidbits.Transition Tidbits.Sequence

variable {cfg : Config}

/-- The label is a step of the pool itself: neither a new call by the manager
nor a spurious wake-up. -/
def Action.internal : Action cfg → Bool
  | .runTask _ _ _ | .checkIdleThreadTimeout _ | .destroy | .spuriousWake _ => false
  | _ => true

/-- A step of the pool itself that is no late look for work. -/
def Internal (s : Pool cfg) (a : Action cfg) : Prop := NoLateLook s a ∧ a.internal = true

instance decidableInternal : DecidableRel (@Internal cfg) := fun _ _ ↦
  inferInstanceAs (Decidable (_ ∧ _))

/-! ## How much is left to do -/

/-- What a worker has left to do when no task is queued. -/
def Worker.work (x : Worker) : ℕ :=
  match x.place with
  | .noThread => 0
  | .waiting => 4
  | .returned => 5
  | .running _ => 6
  | .starting => 7
  | .woken => if x.task = none then 3 else 7

/-- What the manager has left to do, and may still give the workers to do. -/
def Manager.work : Manager cfg → ℕ
  | ready | destroyed => 0
  | waitStart _ _ _ => 1
  | waitRoom _ false => 8
  | waitRoom _ true => 9
  | waitTaken _ false => 5
  | waitTaken _ true => 1
  | joining _ => 3
  | waitCleanup false => 2
  | waitCleanup true => 3
  | destroying => 1

theorem Worker.work_le (x : Worker) : x.work ≤ 7 := by
  unfold work
  split <;> first | omega | (split <;> omega)

theorem Manager.work_le (m : Manager cfg) : m.work ≤ 9 := by
  unfold work
  split <;> omega

theorem Manager.signal_eq_joining {m : Manager cfg} {thread : ℕ} :
    m.signal = .joining thread ↔ m = .joining thread := by
  cases m <;> simp [signal]

/-- A signal is worth at most one step. -/
theorem Manager.work_signal_le (m : Manager cfg) : m.signal.work ≤ m.work + 1 := by
  cases m with
  | waitStart w t b | waitRoom t b | waitTaken t b | waitCleanup b =>
      cases b <;> simp [signal, work]
  | _ => exact Nat.le_succ _

namespace Pool

variable {s s' s'' : Pool cfg} {w : WorkerId cfg} {t : Task} {now : Time}

/-- What the pool has left to do: how many steps it can still take by itself. -/
def work (s : Pool cfg) : ℕ :=
  5 * s.queue.num + s.manager.work + ∑ w, (s.worker w).work

/-- The work is bounded by the number of workers and of queued tasks. -/
theorem work_le (s : Pool cfg) : s.work ≤ 7 * cfg.maxNumThreads + 5 * s.queue.num + 9 := by
  have hm := s.manager.work_le
  have hw : ∑ w, (s.worker w).work ≤ 7 * cfg.maxNumThreads := by
    have hsum := Finset.sum_le_card_nsmul Finset.univ (fun w ↦ (s.worker w).work) 7
      fun w _ ↦ (s.worker w).work_le
    rwa [Finset.card_fin, smul_eq_mul, Nat.mul_comm] at hsum
  unfold work
  omega

/-- One worker, the manager and the queue change. -/
theorem work_lt {x : Worker} (hworker : s'.worker = Function.update s.worker w x)
    (hlt : 5 * s'.queue.num + s'.manager.work + x.work <
      5 * s.queue.num + s.manager.work + (s.worker w).work) : s'.work < s.work := by
  have hsum := sum_update_add s.worker Worker.work w x
  rw [← hworker] at hsum
  unfold work
  omega

/-- The manager and the queue change. -/
theorem work_lt_of_worker_eq (hworker : s'.worker = s.worker)
    (hlt : 5 * s'.queue.num + s'.manager.work < 5 * s.queue.num + s.manager.work) :
    s'.work < s.work := by
  unfold work
  rw [hworker]
  omega

/-- A waiting worker is woken: with a task it has a round to go. -/
theorem work_afterWake (hw : (s.worker w).place = .waiting) (idle : List (WorkerId cfg))
    (task : Option Task) :
    (s.afterWake w idle task).work + 1 ≤ s.work + if task = none then 0 else 4 := by
  have hsum := sum_update_add s.worker Worker.work w
    { s.worker w with task := task, place := .woken }
  have hold : (s.worker w).work = 4 := by simp [Worker.work, hw]
  have hnew : ({ s.worker w with task := task, place := .woken } : Worker).work =
      if task = none then 3 else 7 := rfl
  rw [hold, hnew] at hsum
  change 5 * s.queue.num + s.manager.work + ∑ w', (Function.update s.worker w
    { s.worker w with task := task, place := .woken } w').work + 1 ≤ _
  unfold work
  split <;> split at hsum <;> first | contradiction | omega

/-- The idle timeout adds no work. -/
theorem work_timeout (hidle : s.IdleWaits) (ht : Timeout s now s') : s'.work ≤ s.work := by
  cases ht with
  | none => exact Nat.le_refl _
  | @wake w idle hpull hnum hold =>
      have hw := (hidle w (by simp [hpull])).1
      have hle := work_afterWake hw idle none
      simp only [if_true] at hle
      omega

/-- Placing the task in the manager's hands gives the pool at most eight more steps. -/
theorem work_placement (hinv : s.Inv) (hp : Placement s t now s') :
    s'.work ≤ s.work + 8 := by
  cases hp with
  | @handOver w idle s₁ hidle htimeout =>
      have hw := (hinv.idleWaits w (by simp [hidle])).1
      have hwake := work_afterWake hw idle (some t)
      simp only [reduceCtorEq, if_false] at hwake
      have hrest : { s.afterWake w idle (some t) with handed := t :: s.handed }.IdleWaits :=
        hinv.idleWaits_afterWake hidle (some t)
      have hle := work_timeout hrest htimeout
      change s₁.work ≤ (s.afterWake w idle (some t)).work at hle
      have hready : { s₁ with manager := .ready }.work ≤ s₁.work := by
        unfold work
        simp only [Manager.work]
        omega
      omega
  | @create w unused hidle hunused =>
      have hw := (hinv.mem_unused w).mp (by simp [hunused])
      have hsum := sum_update_add s.worker Worker.work w
        { s.worker w with task := some t, thread := s.threads, place := .starting }
      have hold : (s.worker w).work = 0 := by simp [Worker.work, hw]
      have hnew : ({ s.worker w with task := some t, thread := s.threads, place := .starting } :
        Worker).work = 7 := rfl
      rw [hold, hnew] at hsum
      change 5 * s.queue.num + 1 + ∑ w', (Function.update s.worker w
        { s.worker w with task := some t, thread := s.threads, place := .starting } w').work ≤ _
      unfold work
      omega
  | @queue q hidle hunused hlen hq =>
      obtain ⟨-, -, hnum, -⟩ := TaskQueue.queueMakeNewEntry_eq_some hq
      have hle : q.num ≤ s.queue.num + 1 := hnum ▸ Nat.mod_le _ _
      change 5 * q.num + 0 + ∑ w', (s.worker w').work ≤ _
      unfold work
      omega
  | waitRoom =>
      change 5 * s.queue.num + 8 + ∑ w', (s.worker w').work ≤ _
      unfold work
      omega
  | waitTaken =>
      change 5 * s.queue.num + 5 + ∑ w', (s.worker w').work ≤ _
      unfold work
      omega

/-- Each round of `poThreadPool_destroy` is worth a step. -/
theorem work_destroy {thread : ℕ} (hidle : s.IdleWaits) (hm : s.manager = .joining thread)
    (hd : Destroy s s') : s'.work < s.work := by
  have hold : s.manager.work = 3 := by rw [hm]; rfl
  cases hd with
  | @join w idle hpop =>
      have hw := (hidle w (by simp [hpop])).1
      have hwake := work_afterWake hw idle none
      simp only [if_true] at hwake
      have hsame : { s.afterWake w idle none with
          detachThread := false
          manager := .joining (s.worker w).thread }.work = (s.afterWake w idle none).work := by
        change _ + 3 + _ = _ + s.manager.work + _
        rw [hold]
      omega
  | wait hnone hpos detachThread =>
      exact work_lt_of_worker_eq rfl (by rw [hold]; change 5 * s.queue.num + 2 < _; omega)
  | done hnone hzero detachThread =>
      exact work_lt_of_worker_eq rfl (by rw [hold]; change 5 * s.queue.num + 1 < _; omega)

/-- In a pool without queue the manager waits for a worker to take its task. -/
theorem Inv.manager_of_oneTask (hinv : s.Inv) (hlen : cfg.queueLength = 0)
    (hwait : s.taskWaitingToBeRun = true) : ∃ t b, s.manager = .waitTaken t b := by
  have hblocked := hinv.blocked
  rw [hwait] at hblocked
  cases hm : s.manager with
  | waitRoom t b => exact absurd (hinv.waitRoom t b hm) (by omega)
  | waitTaken t b => exact ⟨t, b, rfl⟩
  | _ => simp [hm, Manager.blocked] at hblocked

/-- A round of a worker is worth less than the task it takes, except after a late look. -/
theorem work_takeRun (hinv : s.Inv) (ht : Take s t s')
    (hlate : ∀ t, s.manager ≠ .waitTaken t true) (hw : 3 ≤ (s.worker w).work) : (s'.run w t).work < s.work := by
  have hnew : ∀ x : Worker, ({ x with place := .running t } : Worker).work = 6 := fun _ ↦ rfl
  cases ht with
  | @queue q hlen hget =>
      obtain ⟨hpos, -, -, hnum, -⟩ := TaskQueue.queueGetNext_eq_some hget
      have hsignal := s.manager.work_signal_le
      refine work_lt rfl ?_
      rw [hnew]
      change 5 * q.num + (if s.taskWaitingToBeRun then s.manager.signal else s.manager).work + 6 < _
      split <;> omega
  | oneTask hlen hwait htask =>
      obtain ⟨t', b, hm⟩ := hinv.manager_of_oneTask hlen hwait
      cases b with
      | true => exact absurd hm (hlate t')
      | false =>
          refine work_lt rfl ?_
          rw [hnew]
          change 5 * s.queue.num + s.manager.signal.work + 6 < _
          rw [hm]
          change 5 * s.queue.num + 1 + 6 < 5 * s.queue.num + 5 + _
          omega

/-- A worker leaves: what it had left to do is gone. -/
theorem work_afterExit (hw : 2 ≤ (s.worker w).work) (hm : s.manager = s'.manager ∨
      s.manager = .waitCleanup false ∧ s'.manager = .waitCleanup true)
    (hqueue : s'.queue = s.queue)
    (hworker : s'.worker = Function.update s.worker w { s.worker w with place := .noThread }) :
    s'.work < s.work := by
  have hnew : ({ s.worker w with place := .noThread } : Worker).work = 0 := rfl
  refine work_lt hworker ?_
  rw [hqueue, hnew]
  rcases hm with hm | ⟨hm, hm'⟩
  · rw [hm]
    omega
  · rw [hm, hm']
    change _ + 3 + 0 < _ + 2 + _
    omega

/-- A worker goes on, and the manager and the queue stay. -/
theorem work_lt_of_worker {x : Worker} (hworker : s'.worker = Function.update s.worker w x)
    (hqueue : s'.queue = s.queue) (hm : s'.manager.work ≤ s.manager.work)
    (hlt : x.work < (s.worker w).work) : s'.work < s.work :=
  work_lt hworker (by rw [hqueue]; omega)

/-- **Every step of the pool itself decreases the work.** -/
theorem work_step (hinv : s.Inv) {a : Action cfg} (ha : Internal s a) (hs : step s a = some s') :
    s'.work < s.work := by
  obtain ⟨⟨hsig, hlate⟩, hinternal⟩ := ha
  cases hinv.step_cases hsig hs with
  | runInCaller | runTask | checkIdleThreadTimeout | destroyNothing | destroy => cases hinternal
  | resumeStart hm | resumeTaken hm | resumeCleanup hm | destroyPool hm =>
      refine work_lt_of_worker_eq rfl ?_
      rw [hm]
      simp [Manager.work]
  | @resumeRoom _ t _ hm hp =>
      have hplaced := work_placement (hinv.unblock (by rw [hm]; rfl)) hp
      have hold : { s with taskWaitingToBeRun := false, manager := .ready }.work + 9 = s.work := by
        unfold work
        rw [hm]
        simp only [Manager.work]
        omega
      omega
  | joined hm _ hd =>
      exact work_destroy (s := { s with joined := _ :: s.joined }) hinv.idleWaits hm hd
  | threadStarts hplace hm =>
      refine work_lt_of_worker rfl rfl ?_ (by simp [Worker.work, hplace])
      simp [afterStart, hm, Manager.signal, Manager.work]
  | callbackReturns hplace =>
      exact work_lt_of_worker rfl rfl (Nat.le_refl _) (by simp [Worker.work, hplace])
  | findWork hplace ht =>
      exact work_takeRun hinv ht (hlate trivial) (by simp [Worker.work, hplace])
  | lastExit hplace hwork hm =>
      exact work_afterExit (by simp [Worker.work, hplace]) (.inr ⟨hm, rfl⟩) rfl rfl
  | exit hplace => exact work_afterExit (by simp [Worker.work, hplace]) (.inl rfl) rfl rfl
  | sleep hplace =>
      exact work_lt_of_worker rfl rfl (Nat.le_refl _) (by simp [Worker.work, hplace])
  | wakeTask hplace htask =>
      exact work_lt_of_worker rfl rfl (Nat.le_refl _) (by simp [Worker.work, hplace, htask])
  | wakeFindWork hplace htask ht =>
      exact work_takeRun hinv ht (hlate htask) (by simp [Worker.work, hplace, htask])
  | wakeExit hplace htask =>
      exact work_afterExit (by simp [Worker.work, hplace, htask]) (.inl rfl) rfl rfl

/-! ## What the manager waits for -/

/-- What the manager waits for is on its way. -/
structure Awaited (s : Pool cfg) : Prop where
  /-- No worker is idle or gone while the manager waits to hand a task over. -/
  taken : ∀ t, s.manager = .waitTaken t false → s.idle = [] ∧ s.unused = []
  /-- The thread to be joined has exited, or was woken to do so. -/
  joining : ∀ thread, s.manager = .joining thread → s.queue.num = 0 ∧ (thread ∈ s.exited ∨
    ∃ w, (s.worker w).thread = thread ∧ (s.worker w).place = .woken ∧ (s.worker w).task = none)
  /-- No worker is idle once the others were joined. -/
  cleanup : ∀ b, s.manager = .waitCleanup b → s.idle = []

namespace Awaited

/-- The manager waits for no worker. -/
theorem of_manager (hm : ∀ t, s.manager ≠ .waitTaken t false)
    (hjoining : ∀ thread, s.manager ≠ .joining thread) (hcleanup : ∀ b, s.manager ≠ .waitCleanup b) :
    s.Awaited :=
  ⟨fun t h ↦ absurd h (hm t), fun thread h ↦ absurd h (hjoining thread),
    fun b h ↦ absurd h (hcleanup b)⟩

theorem create (cfg : Config) : (Pool.create cfg).Awaited :=
  of_manager (fun _ h ↦ by cases h) (fun _ h ↦ by cases h) fun _ h ↦ by cases h

/-- The lists and the queue stay, and so does a worker that was woken without a task. -/
theorem congr (h : s.Awaited) (hm : s'.manager = s.manager) (hidle : s'.idle = s.idle)
    (hunused : s'.unused = s.unused) (hqueue : s'.queue = s.queue) (hexited : s'.exited = s.exited)
    (hworker : ∀ w, (s.worker w).place = .woken → (s.worker w).task = none →
      s'.worker w = s.worker w) : s'.Awaited where
  taken t h' := by
    rw [hidle, hunused]
    exact h.taken t (hm ▸ h')
  joining thread h' := by
    obtain ⟨hnum, hthread⟩ := h.joining thread (hm ▸ h')
    refine ⟨hqueue ▸ hnum, hthread.imp (fun hin ↦ hexited ▸ hin) ?_⟩
    rintro ⟨w, hw, hplace, htask⟩
    exact ⟨w, by rw [hworker w hplace htask]; exact ⟨hw, hplace, htask⟩⟩
  cleanup b h' := by
    rw [hidle]
    exact h.cleanup b (hm ▸ h')

/-- A worker takes a task: the manager does not join then, nor wait to hand one over. -/
theorem takeRun (h : s.Awaited) (hinv : s.Inv) (ht : Take s t s') : (s'.run w t).Awaited := by
  cases ht with
  | @queue q hlen hget =>
      obtain ⟨hpos, -⟩ := TaskQueue.queueGetNext_eq_some hget
      refine ⟨fun t' hm ↦ ?_, fun thread hm ↦ ?_, fun b _ ↦ (hinv.queue_busy hpos).1⟩
      · exact (hinv.queue_busy hpos)
      · have hm : (if s.taskWaitingToBeRun then s.manager.signal else s.manager) =
          .joining thread := hm
        have hjoining : s.manager = .joining thread := by
          split at hm
          · exact Manager.signal_eq_joining.mp hm
          · exact hm
        exact absurd (h.joining thread hjoining).1 hpos.ne'
  | oneTask hlen hwait htask =>
      obtain ⟨t', b, hm⟩ := hinv.manager_of_oneTask hlen hwait
      have hm' : (s.signal.run w t).manager = .waitTaken t' true := by
        change s.manager.signal = _
        rw [hm]
        rfl
      change (s.signal.run w t).Awaited
      exact of_manager (by simp [hm']) (by simp [hm']) (by simp [hm'])

/-- A worker that sleeps or leaves found no task to take, and was not woken to be joined. -/
theorem leave (h : s.Awaited) (hinv : s.Inv) (hwork : s.NoWork) (hm : s'.manager = s.manager)
    (hqueue : s'.queue = s.queue) (hexited : ∀ thread ∈ s.exited, thread ∈ s'.exited)
    (hw : ∀ w', w' ≠ w → s'.worker w' = s.worker w')
    (hwoken : (s.worker w).place = .woken → (s.worker w).thread ∈ s'.exited)
    (hidle : ∀ b, s.manager = .waitCleanup b → s'.idle = s.idle) : s'.Awaited where
  taken t h' := by
    rw [hm] at h'
    have hblocked := hinv.blocked
    rw [h', hwork.2 (hinv.waitTaken t false h').1] at hblocked
    cases hblocked
  joining thread h' := by
    obtain ⟨hnum, hthread⟩ := h.joining thread (hm ▸ h')
    refine ⟨hqueue ▸ hnum, ?_⟩
    rcases hthread with hin | ⟨w', rfl, hplace, htask⟩
    · exact .inl (hexited thread hin)
    · by_cases hne : w' = w
      · subst hne
        exact .inl (hwoken hplace)
      · exact .inr ⟨w', by rw [hw w' hne]; exact ⟨rfl, hplace, htask⟩⟩
  cleanup b h' := by
    rw [hidle b (hm ▸ h')]
    exact h.cleanup b (hm ▸ h')

/-- Wherever the manager puts the task, it does not wait for a worker to leave. -/
theorem placement (hp : Placement s t now s') : s'.Awaited := by
  cases hp with
  | waitTaken hidle hunused =>
      exact ⟨fun _ _ ↦ ⟨hidle, hunused⟩, fun _ h ↦ (by cases h), fun _ h ↦ by cases h⟩
  | _ => exact of_manager (fun _ h ↦ by cases h) (fun _ h ↦ by cases h) fun _ h ↦ by cases h

/-- `poThreadPool_destroy` joins the worker that it has woken, or none is idle. -/
theorem destroy (hinv : s.Inv) (hd : Destroy s s') : s'.Awaited := by
  cases hd with
  | @join w idle hpop =>
      have hnum : s.queue.num = 0 := by
        by_contra hne
        have hnone := (hinv.queue_busy (Nat.pos_of_ne_zero hne)).1
        simp [hpop] at hnone
      refine ⟨fun _ h ↦ (by cases h), fun thread h ↦ ⟨hnum, .inr ⟨w, ?_⟩⟩, fun _ h ↦ by cases h⟩
      cases h
      simp [afterWake]
  | wait hidle =>
      exact ⟨fun _ h ↦ (by cases h), fun _ h ↦ (by cases h), fun _ _ ↦ hidle⟩
  | done => exact of_manager (fun _ h ↦ by cases h) (fun _ h ↦ by cases h) fun _ h ↦ by cases h

/-- **What the manager waits for stays on its way.** -/
theorem step (h : s.Awaited) (hinv : s.Inv) {a : Action cfg} (ha : Signalled s a)
    (hs : step s a = some s') : s'.Awaited := by
  cases hinv.step_cases ha hs with
  | runInCaller => exact h.congr rfl rfl rfl rfl rfl fun _ _ _ ↦ rfl
  | runTask _ _ hp | resumeRoom _ hp => exact placement hp
  | checkIdleThreadTimeout hm ht =>
      cases ht <;> exact of_manager (by simp [afterWake, hm]) (by simp [afterWake, hm])
        (by simp [afterWake, hm])
  | destroy _ _ hd => exact destroy hinv hd
  | joined _ _ hd => exact destroy (s := { s with joined := _ :: s.joined }) { hinv with } hd
  | destroyNothing | resumeStart | resumeTaken | resumeCleanup | destroyPool =>
      exact of_manager (fun _ h ↦ by cases h) (fun _ h ↦ by cases h) fun _ h ↦ by cases h
  | threadStarts _ hm =>
      exact of_manager (by simp [afterStart, hm, Manager.signal])
        (by simp [afterStart, hm, Manager.signal]) (by simp [afterStart, hm, Manager.signal])
  | @callbackReturns w t hplace | @wakeTask w t hplace =>
      refine h.congr rfl rfl rfl rfl rfl fun w' hwoken htask ↦ ?_
      refine Function.update_of_ne ?_ _ _
      rintro rfl
      simp_all
  | findWork _ ht | wakeFindWork _ _ ht => exact h.takeRun hinv ht
  | lastExit _ _ hm =>
      exact ⟨fun _ h ↦ (by cases h), fun _ h ↦ (by cases h), fun _ _ ↦ h.cleanup _ hm⟩
  | @exit w _ hplace hwork =>
      exact h.leave hinv hwork rfl rfl (fun _ ↦ List.mem_cons_of_mem _)
        (fun _ hne ↦ Function.update_of_ne hne _ _) (by simp [hplace]) fun _ _ ↦ rfl
  | @sleep w _ hplace hwork hc =>
      refine h.leave (w := w) hinv hwork rfl rfl (fun _ ↦ id)
        (fun _ hne ↦ Function.update_of_ne hne _ _) (by simp [hplace]) fun b hm ↦ ?_
      cases b with
      | false => exact absurd (hinv.waitCleanup hm) (by simp [hc])
      | true =>
          have hnone := hinv.noThread_of_pastWait (by rw [hm]; rfl) w
          exact absurd (hplace.symm.trans hnone) (by simp)
  | @wakeExit w hplace htask hwork =>
      exact h.leave hinv hwork rfl rfl (fun _ ↦ List.mem_cons_of_mem _)
        (fun _ hne ↦ Function.update_of_ne hne _ _) (fun _ ↦ List.mem_cons_self) fun _ _ ↦ rfl

end Awaited

/-! ## The pool at rest -/

/-- Nothing is left to do: no task is queued, every submitted task has finished its only run, no
worker has anything to do, and the manager is back from its call or waits in
`poThreadPool_destroy` for a signal that nobody is left to send. -/
structure Drained (s : Pool cfg) : Prop where
  queue : s.queue.num = 0
  finished : ∀ t ∈ s.submitted, s.started.count t = 1 ∧ s.finished.count t = 1
  worker : ∀ w, (s.worker w).place = .waiting ∨ (s.worker w).place = .noThread
  manager : s.manager = .ready ∨ s.manager = .destroyed ∨
    s.manager = .waitCleanup false ∧ ∀ w, (s.worker w).place = .noThread

/-- Where the pool stops, workers wait in the idle list or have no thread. -/
theorem Inv.worker_of_stops (h : s.Inv) (hstop : Stops ThreadPool.step Internal s)
    (w : WorkerId cfg) : (s.worker w).place = .waiting ∨ (s.worker w).place = .noThread := by
  have hlate : ∀ t, s.manager ≠ .waitTaken t true := by
    intro t hm
    have hnone := hstop (.resume 0) ⟨⟨rfl, fun hl ↦ hl.elim⟩, rfl⟩
    simp [ThreadPool.step, resume, hm] at hnone
  cases hplace : (s.worker w).place with
  | noThread => exact .inr rfl
  | waiting => exact .inl rfl
  | starting =>
      obtain ⟨t, hm⟩ := h.starting w hplace
      have htask := (h.waitStart w t hm).2
      have hnone := hstop (.threadStarts w) ⟨⟨rfl, fun hl ↦ hl.elim⟩, rfl⟩
      simp [ThreadPool.step, hplace, htask] at hnone
  | running t =>
      have hnone := hstop (.callbackReturns w) ⟨⟨rfl, fun hl ↦ hl.elim⟩, rfl⟩
      simp [ThreadPool.step, hplace] at hnone
  | returned =>
      have hnone := hstop (.looksForWork w 0) ⟨⟨rfl, fun _ ↦ hlate⟩, rfl⟩
      simp [ThreadPool.step, hplace] at hnone
  | woken =>
      have hnone := hstop (.wakes w) ⟨⟨rfl, fun _ ↦ hlate⟩, rfl⟩
      simp [ThreadPool.step, hplace] at hnone

/-- Where the pool stops, the manager is back from its call, or nobody is left to signal it. -/
theorem Inv.manager_of_stops (h : s.Inv) (hawaited : s.Awaited) (hcrowded : s.Crowded)
    (hthreads : 0 < cfg.maxNumThreads) (hstop : Stops ThreadPool.step Internal s) :
    s.manager = .ready ∨ s.manager = .destroyed ∨ s.manager = .waitCleanup false := by
  have hrest := h.worker_of_stops hstop
  have hresume := hstop (.resume 0) ⟨⟨rfl, fun hl ↦ hl.elim⟩, rfl⟩
  have hnobusy : ¬ ∃ w, (s.worker w).place ≠ .noThread ∧ (s.worker w).place ≠ .waiting := by
    rintro ⟨w, hnothread, hwaiting⟩
    exact (hrest w).elim hwaiting hnothread
  cases hm : s.manager with
  | ready => exact .inl rfl
  | destroyed => exact .inr (.inl rfl)
  | waitStart w t b =>
      cases b with
      | true => simp [ThreadPool.step, resume, hm] at hresume
      | false => exact absurd (h.exists_busy hcrowded hthreads (.inl ⟨w, t, hm⟩)) hnobusy
  | waitRoom t b =>
      cases b with
      | true => simp [ThreadPool.step, resume, hm] at hresume
      | false => exact absurd (h.exists_busy hcrowded hthreads (.inr ⟨t, hm⟩)) hnobusy
  | waitTaken t b =>
      cases b with
      | true => simp [ThreadPool.step, resume, hm] at hresume
      | false =>
          obtain ⟨hidle, hunused⟩ := hawaited.taken t hm
          rcases hrest ⟨0, hthreads⟩ with hplace | hplace
          · exact absurd ((h.mem_idle _).mpr hplace) (by simp [hidle])
          · exact absurd ((h.mem_unused _).mpr hplace) (by simp [hunused])
  | joining thread =>
      rcases (hawaited.joining thread hm).2 with hin | ⟨w, -, hplace, -⟩
      · have hnone := hstop .joined ⟨⟨rfl, fun hl ↦ hl.elim⟩, rfl⟩
        simp [ThreadPool.step, hm, hin] at hnone
      · rcases hrest w with hplace' | hplace' <;> simp [hplace] at hplace'
  | waitCleanup b =>
      cases b with
      | true => simp [ThreadPool.step, resume, hm] at hresume
      | false => exact .inr (.inr rfl)
  | destroying =>
      have hnone := hstop .destroyPool ⟨⟨rfl, fun hl ↦ hl.elim⟩, rfl⟩
      simp [ThreadPool.step, hm] at hnone

/-- **Where the pool stops, it has drained.** -/
theorem Inv.drained_of_stops (h : s.Inv) (hawaited : s.Awaited) (hcrowded : s.Crowded)
    (haccounted : s.Accounted s.manager.pending) (hthreads : 0 < cfg.maxNumThreads)
    (hstop : Stops ThreadPool.step Internal s) : s.Drained := by
  have hrest := h.worker_of_stops hstop
  have hmanager := h.manager_of_stops hawaited hcrowded hthreads hstop
  have hqueue : s.queue.num = 0 := by
    by_contra hne
    obtain ⟨hidle, hunused⟩ := h.queue_busy (Nat.pos_of_ne_zero hne)
    rcases hrest ⟨0, hthreads⟩ with hplace | hplace
    · exact absurd ((h.mem_idle _).mpr hplace) (by simp [hidle])
    · exact absurd ((h.mem_unused _).mpr hplace) (by simp [hunused])
  refine ⟨hqueue, fun t ht ↦ ?_, hrest, hmanager.imp_right (Or.imp_right fun hm ↦ ⟨hm, ?_⟩)⟩
  · have hreturned : s.manager.inRunTask ≠ some t := by
      rcases hmanager with hm | hm | hm <;> simp [hm, Manager.inRunTask]
    obtain ⟨hplaced, hstarted⟩ := haccounted.inOnePlace ht hreturned
    have hassigned : s.assigned t = 0 :=
      holders_eq_zero fun w ↦ by rcases hrest w with hw | hw <;> simp [Worker.assigned, hw]
    have hrunning : s.running t = 0 :=
      holders_eq_zero fun w ↦ by rcases hrest w with hw | hw <;> simp [Worker.running, hw]
    rw [queued_eq_zero hqueue, hassigned, hrunning] at hplaced
    rw [hrunning] at hstarted
    omega
  · intro w
    refine (hrest w).resolve_left fun hplace ↦ ?_
    exact absurd ((h.mem_idle w).mpr hplace) (by simp [hawaited.cleanup false hm])

theorem awaited_of_reach (h : Reach step NoLateLook (create cfg) s) : s.Awaited :=
  h.invariant_of (fun hr ↦ inv_of_reach (fun _ _ ha ↦ ha.1) hr) (Awaited.create cfg)
    fun hinv hawaited ha hs ↦ hawaited.step hinv ha.1 hs

theorem crowded_of_reach (h : Reach step NoLateLook (create cfg) s) : s.Crowded :=
  h.invariant_of (fun hr ↦ inv_of_reach (fun _ _ ha ↦ ha.1) hr) (Crowded.create cfg)
    fun hinv hcrowded ha hs ↦ hcrowded.step hinv ha.1 hs

/-- **A pool that is left alone drains.**  From every state that a run without a late look for
work reaches, each run of the pool's own steps, in whatever order, has at most as many steps as
the workers and the queued tasks allow, and where it cannot go on the pool has drained. -/
theorem drains_of_reach (hthreads : 1 ≤ cfg.maxNumThreads) (hlen : cfg.queueLength ≤ 2 ^ 31)
    (h : Reach step NoLateLook (create cfg) s) {n : ℕ} (hr : Run step Internal s n s') :
    n ≤ 7 * cfg.maxNumThreads + 5 * s.queue.num + 9 ∧
      (Stops step Internal s' → s'.Drained) ∧
        ∃ m s'', Run step Internal s' m s'' ∧ s''.Drained := by
  have hstep : ∀ {s s' : Pool cfg} {a : Action cfg}, s.Inv → Internal s a → step s a = some s' →
      s'.Inv ∧ s'.work < s.work := fun hinv ha hs ↦
    ⟨hinv.step ha.1.1 hs, work_step hinv ha hs⟩
  have hdrained : ∀ {s'} {n}, Run step Internal s n s' → Stops step Internal s' →
      s'.Drained := fun hr hstop ↦ by
    have hreach := h.trans (hr.reach_of fun ha ↦ ha.1)
    exact (inv_of_reach (fun _ _ ha ↦ ha.1) hreach).drained_of_stops (awaited_of_reach hreach)
      (crowded_of_reach hreach) (accounted_of_reach hlen hreach) hthreads hstop
  have hinv := inv_of_reach (fun _ _ ha ↦ ha.1) h
  obtain ⟨hinv', hle⟩ := hr.length_add_le hinv hstep
  have hwork := s.work_le
  obtain ⟨m, s'', hr', hstop⟩ := Run.exists_stops hinv' hstep
  exact ⟨by omega, hdrained hr, m, s'', hr', hdrained (hr.trans hr') hstop⟩

/-- A second task is queued while the only thread runs the first one; two steps later it runs. -/
theorem drains_of_reach_oneThread :
    ∃ s s', (Reach step NoLateLook (create oneThread) s ∧ s.queue.num = 1) ∧
      (Run step Internal s 2 s' ∧ (s'.worker 0).place = .running ⟨1, 0, 1⟩) ∧
      ∃ m s'', Run step Internal s' m s'' ∧ s''.Drained := by
  obtain ⟨s, hr, hnum, hsome⟩ : ∃ s, Reach step NoLateLook (create oneThread) s ∧
      s.queue.num = 1 ∧ (exec step Internal s [.callbackReturns 0, .looksForWork 0 0]).any
        (fun s' ↦ decide ((s'.worker 0).place = .running ⟨1, 0, 1⟩)) = true :=
    exists_reach_of_exec_decide [.runTask 0 0 0, .threadStarts 0, .resume 0, .runTask 1 0 0]
      (by decide)
  cases hexec : exec step Internal s [.callbackReturns 0, .looksForWork 0 0] with
  | none =>
      rw [hexec] at hsome
      cases hsome
  | some s' =>
      rw [hexec] at hsome
      have hrun := Run.of_exec hexec
      exact ⟨s, s', ⟨hr, hnum⟩, ⟨hrun, of_decide_eq_true hsome⟩,
        (drains_of_reach (by decide) (by decide) hr hrun).2.2⟩

end Pool

end Tidbits.ThreadPool
