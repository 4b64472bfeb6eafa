import Tidbits.ThreadPool.ExactlyOnce
import Mathlib.Tactic.FinCases

/-!
# Destroying the pool

`poThreadPool_destroy` joins the idle workers and then waits once on `p->cond`.
Of the ways out of `workerCallback` only the one that finds no work after a
callback signals it.  A worker that was taken off the idle list by the idle
timeout leaves without a signal, so the wait lasts forever when such workers are
the last to leave.

`not_stuck_of_reach` shows that nothing else can go wrong: as long as a worker
that will signal is left, or a queued task that makes one, some continuation
gets the manager past its wait, and the first step that leaves none is fatal.

`destroying_of_reach` is what `poThreadPool_destroy` relies on when it does get
past its wait: every task has finished and no worker is left.
-/

namespace Tidbits.ThreadPool

open Tidbits.Transition Tidbits.Sequence

variable {cfg : Config}

namespace Worker

/-- The worker has a thread, and was not taken off the idle list without a
task: it comes back to look for work after a callback. -/
def signals (x : Worker) : Prop :=
  x.place ≠ .noThread ∧ ¬ (x.place = .woken ∧ x.task = none)

/-- How many steps the worker is from its exit when there is no work. -/
def rank (x : Worker) : ℕ :=
  match x.place with
  | .woken => 3
  | .running _ => 2
  | .returned => 1
  | _ => 0

theorem signals_of_running {x : Worker} {t : Task} (h : x.place = .running t) : x.signals := by
  simp [signals, h]

theorem signals_of_returned {x : Worker} (h : x.place = .returned) : x.signals := by
  simp [signals, h]

end Worker

namespace Pool

/-- The manager waits in `poThreadPool_destroy`, has not been signalled, and
never will be. -/
def Stuck (s : Pool cfg) : Prop :=
  s.manager = .waitCleanup false ∧
    ∀ s', Reach step Signalled s s' → s'.manager = .waitCleanup false

/-- A worker that will signal, or a queued task and a worker to take it. -/
def HasSignaller (s : Pool cfg) : Prop :=
  (∃ w, (s.worker w).signals) ∨ 0 < s.queue.num ∧ ∃ w, (s.worker w).place ≠ .noThread

end Pool

/-- Condition variables wake only when signalled, and neither does
`poThreadPool_destroy` begin to wait, nor a worker leave during that wait other
than as the last counted one, unless a task is queued or another worker has a
thread and was not taken off the idle list without a task. -/
def KeepsSignaller (s : Pool cfg) (a : Action cfg) : Prop :=
  Signalled s a ∧
    match a with
    | .destroy | .joined =>
        s.idle = [] → 0 < s.numThreads → 0 < s.queue.num ∨ ∃ w, (s.worker w).signals
    | .looksForWork w _ =>
        s.manager = .waitCleanup false → s.numThreads ≠ 1 →
          0 < s.queue.num ∨ ∃ w', w' ≠ w ∧ (s.worker w').signals
    | _ => True

instance decidableSignals (x : Worker) : Decidable x.signals := inferInstanceAs (Decidable (_ ∧ _))

instance decidableKeepsSignaller : DecidableRel (@KeepsSignaller cfg) := fun _ a ↦
  match a with
  | .destroy | .joined => inferInstanceAs (Decidable (_ ∧ (_ → _ → _ ∨ _)))
  | .looksForWork _ _ => inferInstanceAs (Decidable (_ ∧ (_ → _ → _ ∨ _)))
  | .runTask _ _ _ | .checkIdleThreadTimeout _ | .resume _ | .destroyPool | .threadStarts _
  | .callbackReturns _ | .wakes _ | .spuriousWake _ => inferInstanceAs (Decidable (_ ∧ True))

namespace Pool

variable {s s' : Pool cfg} {w : WorkerId cfg} {t : Task}

theorem Manager.signal_ne_waitCleanup (m : Manager cfg) : m.signal ≠ .waitCleanup false := by
  cases m <;> simp [Manager.signal]

/-- During the wait no flag for a waiting task is set. -/
theorem Inv.taskWaitingToBeRun_of_waitCleanup (h : s.Inv) {b : Bool}
    (hm : s.manager = .waitCleanup b) : s.taskWaitingToBeRun = false :=
  h.blocked.trans (by rw [hm]; rfl)

/-- During the wait a task is taken from the queue, and the manager is not signalled. -/
theorem Inv.take_of_waitCleanup (h : s.Inv) (hm : s.manager = .waitCleanup false)
    (ht : Take s t s') :
    0 < s.queue.num ∧ s'.queue.num + 1 = s.queue.num ∧ s'.manager = .waitCleanup false ∧
      s'.idle = s.idle := by
  have hwait := h.taskWaitingToBeRun_of_waitCleanup hm
  cases ht with
  | queue hpos hget =>
      obtain ⟨hn, -, -, hnum, -⟩ := TaskQueue.queueGetNext_eq_some hget
      exact ⟨hn, by simp only [hnum]; omega, by simp [hwait, hm], rfl⟩
  | oneTask _ hwait' _ => simp [hwait] at hwait'

/-- A counted thread is somewhere. -/
theorem Inv.exists_thread (h : s.Inv) (hn : 0 < s.numThreads) :
    ∃ w, (s.worker w).place ≠ .noThread := by
  by_contra hno
  have hcount := h.count
  have hall : ∀ w, w ∈ s.unused := fun w ↦ (h.mem_unused w).mpr (by simpa using not_exists.mp hno w)
  have hlen := card_le_length_of_forall_mem hall
  rw [Fintype.card_fin] at hlen
  omega

/-- Two counted threads are two threads. -/
theorem Inv.exists_other_thread (h : s.Inv) (hn : 1 < s.numThreads) (w : WorkerId cfg) :
    ∃ w', w' ≠ w ∧ (s.worker w').place ≠ .noThread := by
  by_contra hno
  have hcount := h.count
  have hall : ∀ w', w' ∈ w :: s.unused := by
    intro w'
    by_cases hne : w' = w
    · exact List.mem_cons.mpr (.inl hne)
    · refine List.mem_cons_of_mem _ ((h.mem_unused w').mpr ?_)
      by_contra hplace
      exact hno ⟨w', hne, hplace⟩
  have hlen := card_le_length_of_forall_mem hall
  rw [Fintype.card_fin, List.length_cons] at hlen
  omega

/-! ## The invariant behind the wait -/

/-- While the manager waits unsignalled no worker is idle and one will signal. -/
def CleanupLive (s : Pool cfg) : Prop :=
  s.manager = .waitCleanup false → s.idle = [] ∧ s.HasSignaller

/-- A worker changes and signals afterwards. -/
theorem HasSignaller.of_update {x : Worker} (hworker : s'.worker = Function.update s.worker w x)
    (hx : x.signals) : s'.HasSignaller := .inl ⟨w, by rw [hworker]; simpa using hx⟩

/-- A worker leaves while another one signals. -/
theorem HasSignaller.of_other {x : Worker} (hworker : s'.worker = Function.update s.worker w x)
    (h : ∃ w', w' ≠ w ∧ (s.worker w').signals) : s'.HasSignaller := by
  obtain ⟨w', hne, hw'⟩ := h
  exact .inl ⟨w', by rw [hworker]; simpa [hne] using hw'⟩

/-- A worker taken off the idle list without a task leaves when no task is queued. -/
theorem HasSignaller.other (h : s.HasSignaller) (hn : s.queue.num = 0)
    (hw : ¬ (s.worker w).signals) : ∃ w', w' ≠ w ∧ (s.worker w').signals := by
  rcases h with ⟨w', hw'⟩ | ⟨hpos, -⟩
  · refine ⟨w', ?_, hw'⟩
    rintro rfl
    exact hw hw'
  · exact absurd hn hpos.ne'

namespace CleanupLive

/-- The manager does not wait. -/
theorem of_ne (h : s.manager ≠ .waitCleanup false) : s.CleanupLive := fun hm ↦ absurd hm h

/-- A worker moves that signals afterwards. -/
theorem of_signals (h : s.CleanupLive) {x : Worker} (hx : x.signals)
    (hworker : s'.worker = Function.update s.worker w x) (hidle : s'.idle = s.idle)
    (hm : s'.manager = s.manager) : s'.CleanupLive := by
  intro hm'
  rw [hidle]
  exact ⟨(h (hm ▸ hm')).1, .of_update hworker hx⟩

theorem takeRun (h : s.CleanupLive) (hinv : s.Inv) (ht : Take s t s') :
    (s'.run w t).CleanupLive := by
  intro hm'
  have hm : s.manager = .waitCleanup false := by
    cases ht with
    | queue =>
        change (if s.taskWaitingToBeRun then s.manager.signal else s.manager) = _ at hm'
        split at hm'
        · exact absurd hm' (Manager.signal_ne_waitCleanup _)
        · exact hm'
    | oneTask => exact absurd hm' (Manager.signal_ne_waitCleanup _)
  obtain ⟨-, -, -, hidle⟩ := hinv.take_of_waitCleanup hm ht
  exact ⟨hidle.trans (h hm).1, .of_update rfl (Worker.signals_of_running rfl)⟩

theorem placement {now : Time} (hp : Placement s t now s') : s'.CleanupLive := by
  cases hp <;> exact of_ne (by simp [afterCreate])

/-- The wait begins only when there is a worker to end it. -/
theorem destroy (hinv : s.Inv) (hd : Destroy s s')
    (ha : s.idle = [] → 0 < s.numThreads → 0 < s.queue.num ∨ ∃ w, (s.worker w).signals) :
    s'.CleanupLive := by
  cases hd with
  | join | done => exact of_ne (by simp)
  | wait hidle hnum =>
      intro _
      refine ⟨hidle, ?_⟩
      rcases ha hidle hnum with hpos | hsig
      · exact .inr ⟨hpos, hinv.exists_thread hnum⟩
      · exact .inl hsig

theorem step (h : s.CleanupLive) (hinv : s.Inv) {a : Action cfg} (ha : KeepsSignaller s a)
    (hs : step s a = some s') : s'.CleanupLive := by
  obtain ⟨hsig, ha⟩ := ha
  cases hinv.step_cases hsig hs with
  | runInCaller _ hm => exact of_ne (by simp [hm])
  | runTask _ _ hp | resumeRoom _ hp => exact placement hp
  | checkIdleThreadTimeout hm ht => cases ht <;> exact of_ne (by simp [afterWake, hm])
  | destroy _ _ hd => exact destroy hinv hd ha
  | joined _ _ hd => exact destroy (by exact { hinv with }) hd ha
  | destroyNothing | resumeStart | resumeTaken | resumeCleanup | destroyPool =>
      exact of_ne (by simp)
  | threadStarts => exact of_ne (Manager.signal_ne_waitCleanup _)
  | callbackReturns => exact h.of_signals (Worker.signals_of_returned rfl) rfl rfl rfl
  | findWork _ ht | wakeFindWork _ _ ht => exact h.takeRun hinv ht
  | lastExit => exact of_ne (by simp [afterExit])
  | exit _ hwork hc =>
      intro hm
      refine ⟨(h hm).1, ?_⟩
      have hcleanup := hinv.waitCleanup hm
      have hone : s.numThreads ≠ 1 := by
        rcases hc with ⟨-, hone⟩ | ⟨hc, -⟩
        · exact hone
        · simp [hcleanup] at hc
      rcases ha hm hone with hpos | hother
      · exact absurd hwork.1 hpos.ne'
      · exact .of_other rfl hother
  | sleep _ _ hc _ => exact fun hm ↦ absurd (hinv.waitCleanup hm) (by simp [hc])
  | wakeTask => exact h.of_signals (Worker.signals_of_running rfl) rfl rfl rfl
  | wakeExit hplace htask hwork =>
      intro hm
      refine ⟨(h hm).1, ?_⟩
      exact .of_other rfl ((h hm).2.other hwork.1 fun hsig ↦ hsig.2 ⟨hplace, htask⟩)

end CleanupLive

/-! ## The wait ends -/

/-- How many steps the pool is from the last exit: a queued task costs a worker
one more round. -/
def potential (s : Pool cfg) : ℕ := 4 * s.queue.num + ∑ w, (s.worker w).rank

/-- The wait has ended, or it goes on with a smaller potential. -/
def Advances (s s' : Pool cfg) : Prop :=
  s'.manager = .waitCleanup true ∨
    s'.manager = .waitCleanup false ∧ s'.CleanupLive ∧ s'.potential < s.potential

/-- A worker moves closer to its exit. -/
theorem potential_lt {x : Worker} (hworker : s'.worker = Function.update s.worker w x)
    (hlt : 4 * s'.queue.num + x.rank < 4 * s.queue.num + (s.worker w).rank) :
    s'.potential < s.potential := by
  have hsum := sum_update_add s.worker Worker.rank w x
  rw [← hworker] at hsum
  unfold potential
  omega

/-- A worker moves closer to its exit and leaves the queue alone. -/
theorem potential_lt_of_rank {x : Worker} (hworker : s'.worker = Function.update s.worker w x)
    (hqueue : s'.queue = s.queue) (hlt : x.rank < (s.worker w).rank) :
    s'.potential < s.potential :=
  potential_lt hworker (by rw [hqueue]; exact Nat.add_lt_add_left hlt _)

/-- Taking a task costs less than the task was worth. -/
theorem Inv.takeRun_advances (h : s.Inv) (hlive : s.CleanupLive)
    (hm : s.manager = .waitCleanup false) (ht : Take s t s') : s.Advances (s'.run w t) := by
  obtain ⟨hn, hnum, hmanager, -⟩ := h.take_of_waitCleanup hm ht
  have hworker : (s'.run w t).worker =
      Function.update s.worker w { s.worker w with place := .running t } := by
    simp only [Pool.run, Pool.setWorker, ht.worker_eq]
  refine .inr ⟨hmanager, hlive.takeRun h ht, potential_lt hworker ?_⟩
  have hnum' : (s'.run w t).queue.num + 1 = s.queue.num := hnum
  simp only [Worker.rank]
  omega

/-- A worker taken off the idle list without a task gets out of the way. -/
theorem Inv.wakes_advances (h : s.Inv) (hlive : s.CleanupLive) (hm : s.manager = .waitCleanup false)
    (hplace : (s.worker w).place = .woken) :
    ∃ s', ThreadPool.step s (.wakes w) = some s' ∧ s.Advances s' := by
  have hs : ThreadPool.step s (.wakes w) = some (s.wakes w) := if_pos hplace
  have hsig : KeepsSignaller s (.wakes w) := ⟨rfl, trivial⟩
  have hlive' := hlive.step h hsig hs
  refine ⟨_, hs, ?_⟩
  generalize s.wakes w = s' at hs hlive' ⊢
  cases h.step_cases hsig.1 hs with
  | wakeTask _ htask =>
      exact .inr ⟨hm, hlive', potential_lt_of_rank rfl rfl (by simp [Worker.rank, hplace])⟩
  | wakeFindWork _ _ ht => exact h.takeRun_advances hlive hm ht
  | wakeExit =>
      exact .inr ⟨hm, hlive', potential_lt_of_rank rfl rfl (by simp [Worker.rank, hplace])⟩

/-- When no such worker is left, any other one moves towards its exit. -/
theorem Inv.worker_advances (h : s.Inv) (hlive : s.CleanupLive)
    (hm : s.manager = .waitCleanup false)
    (hsignals : ∀ w, (s.worker w).place ≠ .noThread → (s.worker w).signals)
    (hw : (s.worker w).place ≠ .noThread) :
    ∃ a s', Signalled s a ∧ ThreadPool.step s a = some s' ∧ s.Advances s' := by
  cases hplace : (s.worker w).place with
  | noThread => exact absurd hplace hw
  | starting =>
      obtain ⟨t, hm'⟩ := h.starting w hplace
      simp [hm] at hm'
  | waiting =>
      have hidle := (h.mem_idle w).mpr hplace
      simp [(hlive hm).1] at hidle
  | woken =>
      obtain ⟨s', hs, hadv⟩ := h.wakes_advances hlive hm hplace
      exact ⟨.wakes w, s', rfl, hs, hadv⟩
  | running t =>
      have hs : ThreadPool.step s (.callbackReturns w) = some (s.callbackReturns w t) := by
        simp only [ThreadPool.step, hplace]
      have hkeeps : KeepsSignaller s (.callbackReturns w) := ⟨rfl, trivial⟩
      have hlive' := hlive.step h hkeeps hs
      refine ⟨.callbackReturns w, _, rfl, hs, .inr ⟨hm, hlive', potential_lt_of_rank rfl rfl ?_⟩⟩
      simp [Worker.rank, hplace]
  | returned =>
      have hs : ThreadPool.step s (.looksForWork w 0) = some (s.looksForWork w 0) := if_pos hplace
      have hkeeps : KeepsSignaller s (.looksForWork w 0) := by
        refine ⟨rfl, fun _ hone ↦ .inr ?_⟩
        have hpos := h.numThreads_pos hw (by simp [hplace])
        obtain ⟨w', hne, hw'⟩ := h.exists_other_thread (by omega) w
        exact ⟨w', hne, hsignals w' hw'⟩
      have hlive' := hlive.step h hkeeps hs
      refine ⟨.looksForWork w 0, _, rfl, hs, ?_⟩
      generalize s.looksForWork w 0 = s' at hs hlive' ⊢
      cases h.step_cases hkeeps.1 hs with
      | findWork _ ht => exact h.takeRun_advances hlive hm ht
      | lastExit => exact .inl rfl
      | exit =>
          exact .inr ⟨hm, hlive', potential_lt_of_rank rfl rfl (by simp [Worker.rank, hplace])⟩
      | sleep _ _ hc _ => exact absurd (h.waitCleanup hm) (by simp [hc])

/-- While a worker will signal, the wait gets closer to its end. -/
theorem Inv.exists_advances (h : s.Inv) (hlive : s.CleanupLive)
    (hm : s.manager = .waitCleanup false) :
    ∃ a s', Signalled s a ∧ ThreadPool.step s a = some s' ∧ s.Advances s' := by
  by_cases hout : ∃ w, (s.worker w).place ≠ .noThread ∧ ¬ (s.worker w).signals
  · obtain ⟨w, hplace, hsignals⟩ := hout
    have hwoken : (s.worker w).place = .woken := by
      by_contra hne
      exact hsignals ⟨hplace, fun hw ↦ hne hw.1⟩
    obtain ⟨s', hs, hadv⟩ := h.wakes_advances hlive hm hwoken
    exact ⟨.wakes w, s', rfl, hs, hadv⟩
  · have hsignals : ∀ w, (s.worker w).place ≠ .noThread → (s.worker w).signals := by
      intro w hplace
      by_contra hno
      exact hout ⟨w, hplace, hno⟩
    rcases (hlive hm).2 with ⟨w, hw⟩ | ⟨-, w, hw⟩
    · exact h.worker_advances hlive hm hsignals hw.1
    · exact h.worker_advances hlive hm hsignals hw

/-- Some continuation signals the waiting manager. -/
theorem Inv.exists_signalled (h : s.Inv) (hlive : s.CleanupLive)
    (hm : s.manager = .waitCleanup false) :
    ∃ s', Reach ThreadPool.step Signalled s s' ∧ s'.manager = .waitCleanup true := by
  -- induction on the potential
  induction hn : s.potential using Nat.strong_induction_on generalizing s with
  | _ n ih =>
    obtain ⟨a, s₁, hsig, hs, hdone | ⟨hm₁, hlive₁, hlt⟩⟩ := h.exists_advances hlive hm
    · exact ⟨s₁, .single hsig hs, hdone⟩
    · obtain ⟨s', hr, hdone⟩ := ih _ (hn ▸ hlt) (h.step hsig hs) hlive₁ hm₁ rfl
      exact ⟨s', .head hsig hs hr, hdone⟩

theorem cleanupLive_of_reach (h : Reach step KeepsSignaller (create cfg) s) : s.CleanupLive :=
  h.invariant_of (fun hr ↦ inv_of_reach (fun _ _ ha ↦ ha.1) hr) (fun hm ↦ by cases hm)
    fun hinv hlive ha hs ↦ hlive.step hinv ha hs

/-! ## The wait that does not end -/

/-- The manager waits, no task is queued, and whoever is left was taken off the
idle list without a task. -/
structure Doomed (s : Pool cfg) : Prop where
  manager : s.manager = .waitCleanup false
  num : s.queue.num = 0
  signals : ∀ w, ¬ (s.worker w).signals

/-- One more worker leaves. -/
theorem Doomed.afterExit (h : s.manager = .waitCleanup false) (hn : s.queue.num = 0)
    (hsignals : ∀ w', w' ≠ w → ¬ (s.worker w').signals) : (s.afterExit w).Doomed where
  manager := h
  num := hn
  signals w' := by
    by_cases hne : w' = w
    · subst hne
      simp [Pool.afterExit, Worker.signals]
    · simpa [Pool.afterExit, hne] using hsignals w' hne

theorem Doomed.step (h : s.Doomed) (hinv : s.Inv) {a : Action cfg} (ha : Signalled s a)
    (hs : step s a = some s') : s'.Doomed := by
  have hm := h.manager
  cases hinv.step_cases ha hs with
  | callbackReturns hplace => exact absurd (Worker.signals_of_running hplace) (h.signals _)
  | findWork hplace | lastExit hplace | exit hplace | sleep hplace =>
      exact absurd (Worker.signals_of_returned hplace) (h.signals _)
  | @wakeTask w _ hplace htask => exact absurd ⟨by simp [hplace], by simp [htask]⟩ (h.signals w)
  | wakeFindWork _ _ ht => exact absurd (hinv.take_of_waitCleanup hm ht).1 h.num.not_gt
  | wakeExit => exact .afterExit hm h.num fun w' _ ↦ h.signals w'
  | runInCaller _ hm' | runTask _ hm' | checkIdleThreadTimeout hm' | destroyNothing _ hm'
  | destroy _ hm' | resumeStart hm' | resumeRoom hm' | resumeTaken hm' | resumeCleanup hm'
  | joined hm' | destroyPool hm' | threadStarts _ hm' => simp [hm'] at hm

theorem Doomed.stuck (h : s.Doomed) (hinv : s.Inv) : s.Stuck := by
  refine ⟨h.manager, fun s' hr ↦ ?_⟩
  have hboth : s'.Inv ∧ s'.Doomed :=
    hr.invariant (I := fun s ↦ s.Inv ∧ s.Doomed) ⟨hinv, h⟩
      fun ⟨hinv, h⟩ ha hs ↦ ⟨hinv.step ha hs, h.step hinv ha hs⟩
  exact hboth.2.manager

theorem of_not_keepsSignaller_looksForWork {now : Time}
    (h : ¬ KeepsSignaller s (.looksForWork w now)) :
    s.manager = .waitCleanup false ∧ s.numThreads ≠ 1 ∧ s.queue.num = 0 ∧
      ∀ w', w' ≠ w → ¬ (s.worker w').signals := by
  have hno : ¬ (s.manager = .waitCleanup false → s.numThreads ≠ 1 →
      0 < s.queue.num ∨ ∃ w', w' ≠ w ∧ (s.worker w').signals) := fun h' ↦ h ⟨rfl, h'⟩
  push Not at hno
  obtain ⟨hm, hone, hn, hsignals⟩ := hno
  exact ⟨hm, hone, Nat.le_zero.mp hn, hsignals⟩

/-- A step that leaves no worker to signal dooms the wait. -/
theorem doomed_of_not_keepsSignaller (hinv : s.Inv) {a : Action cfg} (ha : Signalled s a)
    (hkeeps : ¬ KeepsSignaller s a) (hs : step s a = some s') : s'.Doomed := by
  have hwait : ∀ {s₀ : Pool cfg}, Destroy s₀ s' → s₀.idle = s.idle → s₀.numThreads = s.numThreads →
      s₀.queue = s.queue → s₀.worker = s.worker →
      ¬ (s.idle = [] → 0 < s.numThreads → 0 < s.queue.num ∨ ∃ w, (s.worker w).signals) →
      s'.Doomed := by
    intro s₀ hd hidle hnum hqueue hworker hno
    push Not at hno
    obtain ⟨hidle', hpos, hn, hsignals⟩ := hno
    cases hd with
    | join htop => simp [htop] at hidle; simp [hidle'] at hidle
    | done _ hzero => omega
    | wait => exact ⟨rfl, by rw [hqueue]; omega, fun w ↦ by rw [hworker]; exact hsignals w⟩
  cases hinv.step_cases ha hs with
  | destroy _ _ hd => exact hwait hd rfl rfl rfl rfl fun h ↦ hkeeps ⟨ha, h⟩
  | joined _ _ hd => exact hwait hd rfl rfl rfl rfl fun h ↦ hkeeps ⟨ha, h⟩
  | destroyNothing h0 _ =>
      refine absurd ⟨ha, fun _ hpos ↦ ?_⟩ hkeeps
      have hle := hinv.numThreads_le
      omega
  | exit =>
      obtain ⟨hm, -, hn, hsignals⟩ := of_not_keepsSignaller_looksForWork hkeeps
      exact .afterExit hm hn hsignals
  | findWork _ ht =>
      obtain ⟨hm, -, hn, -⟩ := of_not_keepsSignaller_looksForWork hkeeps
      exact absurd hn (hinv.take_of_waitCleanup hm ht).1.ne'
  | lastExit _ _ _ hone => exact absurd hone (of_not_keepsSignaller_looksForWork hkeeps).2.1
  | sleep _ _ hc _ =>
      have hm := (of_not_keepsSignaller_looksForWork hkeeps).1
      exact absurd (hinv.waitCleanup hm) (by simp [hc])
  | _ => exact absurd ⟨ha, trivial⟩ hkeeps

/-- **`poThreadPool_destroy` does not get stuck as long as a worker that signals
is left**, and the first step that leaves none gets it stuck. -/
theorem not_stuck_of_reach (h : Reach step KeepsSignaller (create cfg) s) :
    ¬ s.Stuck ∧ ∀ a s', Signalled s a → ¬ KeepsSignaller s a → step s a = some s' → s'.Stuck := by
  have hinv := inv_of_reach (fun _ _ ha ↦ ha.1) h
  constructor
  · rintro ⟨hm, hstuck⟩
    obtain ⟨s', hr, hdone⟩ := hinv.exists_signalled (cleanupLive_of_reach h) hm
    rw [hstuck s' hr] at hdone
    cases hdone
  · intro a s' ha hkeeps hs
    exact (doomed_of_not_keepsSignaller hinv ha hkeeps hs).stuck (hinv.step ha hs)

/-- `poThreadPool_destroy` waits for the only thread, which comes back from its task and signals. -/
theorem not_stuck_of_reach_oneThread :
    ∃ s, ((Reach step KeepsSignaller (create oneThread) s ∧ s.manager = .waitCleanup false) ∧
        ¬ s.Stuck) ∧
      ∃ s', (Reach step KeepsSignaller s s' ∧
          (s'.manager = .destroying ∧ s'.finished = [⟨0, 0, 0⟩])) ∧ ¬ s'.Stuck := by
  obtain ⟨s, hs, s', hr', hs'⟩ :
      ∃ s, (Reach step KeepsSignaller (create oneThread) s ∧ s.manager = .waitCleanup false) ∧
        ∃ s', Reach step KeepsSignaller s s' ∧
          (s'.manager = .destroying ∧ s'.finished = [⟨0, 0, 0⟩]) :=
    exists_reach_reach_of_exec [.runTask 0 0 0, .threadStarts 0, .resume 0, .destroy]
      [.callbackReturns 0, .looksForWork 0 0, .resume 0] (by decide)
  exact ⟨s, ⟨hs, (not_stuck_of_reach hs.1).1⟩, s', ⟨hr', hs'⟩,
    (not_stuck_of_reach (hs.1.trans hr')).1⟩

/-- Three threads, which idle for a second, and one slot in the queue. -/
abbrev threeThreads : Config := ⟨3, 1, 1000, Config.second_ge⟩

/-- Three workers go idle, the idle timeout wakes the first of them, and the pool
is destroyed before that worker has locked the mutex. -/
def timeoutBeforeDestroy : List (Action threeThreads) :=
  [.runTask 0 0 0, .threadStarts 0, .resume 0, .runTask 0 0 0, .threadStarts 1, .resume 0,
    .runTask 0 0 0, .threadStarts 2, .resume 0, .callbackReturns 0, .looksForWork 0 0,
    .callbackReturns 1, .looksForWork 1 0, .callbackReturns 2, .looksForWork 2 0,
    .checkIdleThreadTimeout 2000000000, .destroy, .wakes 2, .joined, .wakes 1, .joined]

/-- `poThreadPool_destroy` waits for the worker that the idle timeout has woken,
and that worker leaves without a signal. -/
theorem destroy_stuck :
    ¬ ∀ s, Reach step Signalled (create threeThreads) s → ¬ s.Stuck := by
  have hrun : ∃ s, Reach step Signalled (create threeThreads) s ∧
      s.manager = .waitCleanup false ∧ s.queue.num = 0 ∧ (s.worker 0).place = .woken ∧
      (s.worker 0).task = none ∧ (s.worker 1).place = .noThread ∧
      (s.worker 2).place = .noThread :=
    exists_reach_of_exec_decide timeoutBeforeDestroy (by decide)
  obtain ⟨s, hr, hm, hn, hplace, htask, h1, h2⟩ := hrun
  have hdoomed : s.Doomed := by
    refine ⟨hm, hn, fun w ↦ ?_⟩
    fin_cases w
    · exact fun hsignals ↦ hsignals.2 ⟨hplace, htask⟩
    · exact fun hsignals ↦ hsignals.1 h1
    · exact fun hsignals ↦ hsignals.1 h2
  exact fun h ↦ h s hr (hdoomed.stuck (inv_of_reach (fun _ _ ha ↦ ha) hr))

/-! ## Past the wait -/

/-- Without threads there is no pool to destroy. -/
theorem manager_of_reach (h : Reach step Signalled (create cfg) s)
    (hthreads : cfg.maxNumThreads = 0) :
    s.manager = .ready ∨ s.manager = .destroyed := by
  refine Reach.invariant_of (I := fun s ↦ s.manager = .ready ∨ s.manager = .destroyed) h
    (fun hr ↦ inv_of_reach (fun _ _ ha ↦ ha) hr) (.inl rfl) fun {s s' a} hinv hm ha hs ↦ ?_
  have hnone : ∀ w : WorkerId cfg, False := fun w ↦ absurd w.isLt (by simp [hthreads])
  cases hinv.step_cases ha hs with
  | runInCaller => exact hm
  | checkIdleThreadTimeout _ ht => cases ht <;> exact hm
  | destroyNothing => exact .inr rfl
  | runTask h0 | destroy h0 => exact absurd hthreads h0
  | resumeStart hm' | resumeRoom hm' | resumeTaken hm' | resumeCleanup hm' | joined hm'
  | destroyPool hm' => simp [hm'] at hm
  | threadStarts | callbackReturns | findWork | lastExit | exit | sleep | wakeTask | wakeFindWork
  | wakeExit => exact (hnone (by assumption)).elim

/-- No worker has a thread, and the manager does not create one any more. -/
structure Quiet (s : Pool cfg) : Prop where
  noThread : ∀ w, (s.worker w).place = .noThread
  manager : s.manager = .destroying ∨ s.manager = .destroyed

theorem Quiet.step_eq_none (h : s.Quiet) {a : Action cfg} (ha : a.isWorker = true) :
    step s a = none := by
  cases a with
  | threadStarts w | callbackReturns w => simp only [step, h.noThread w]
  | looksForWork w now | wakes w | spuriousWake w => simp [step, h.noThread w]
  | _ => simp [Action.isWorker] at ha

theorem Quiet.step (h : s.Quiet) {a : Action cfg} (hs : step s a = some s') : s'.Quiet := by
  cases ha : a.isWorker with
  | true => simp [h.step_eq_none ha] at hs
  | false =>
      cases a with
      | destroyPool =>
          obtain ⟨-, hs⟩ := Option.ite_none_right_eq_some.mp hs
          cases hs
          exact ⟨h.noThread, .inr rfl⟩
      | runTask | checkIdleThreadTimeout | destroy =>
          obtain ⟨hm, -⟩ := Option.ite_none_right_eq_some.mp hs
          rcases h.manager with hm' | hm' <;> simp [hm'] at hm
      | resume now =>
          rcases h.manager with hm | hm <;> simp [ThreadPool.step, Pool.resume, hm] at hs
      | joined => rcases h.manager with hm | hm <;> simp [ThreadPool.step, hm] at hs
      | _ => simp [Action.isWorker] at ha

/-- **When `poThreadPool_destroy` goes on to destroy the pool, it is finished**:
every submitted task has finished its only run, the queue is empty, no thread is
counted, and no worker takes a step any more. -/
theorem finished_of_destroying (hpos : 1 ≤ cfg.queueLength) (hlen : cfg.queueLength ≤ 2 ^ 31)
    (h : Reach step Signalled (create cfg) s) (hm : s.manager = .destroying) :
    (∀ t ∈ s.submitted, s.finished.count t = 1 ∧ s.started.count t = 1) ∧ s.queue.num = 0 ∧
      s.numThreads = 0 ∧ ∀ s', Reach step Any s s' → ∀ a : Action cfg, a.isWorker = true →
        step s' a = none := by
  have hinv := inv_of_reach (fun _ _ ha ↦ ha) h
  have hpast : s.manager.pastWait = true := by rw [hm]; rfl
  have hnothread := hinv.noThread_of_pastWait hpast
  have hzero := hinv.pastWait hpast
  have hqueue : s.queue.num = 0 := by
    by_contra hn
    have hcount := hinv.count
    have hunused := (hinv.queue_busy (Nat.pos_of_ne_zero hn)).2
    rw [hzero, hunused, hm] at hcount
    rcases manager_of_reach h hcount.symm with hm' | hm' <;> simp [hm] at hm'
  refine ⟨fun t ht ↦ ?_, hqueue, hzero, fun s' hr a ha ↦ ?_⟩
  · have hacc := accounted_of_reach hlen (reach_noLateLook hpos h)
    obtain ⟨hplaced, hstarted⟩ := hacc.inOnePlace ht (by simp [hm, Manager.inRunTask])
    have hassigned : s.assigned t = 0 :=
      holders_eq_zero fun w ↦ by simp [Worker.assigned, hnothread w]
    have hrunning : s.running t = 0 :=
      holders_eq_zero fun w ↦ by simp [Worker.running, hnothread w]
    rw [queued_eq_zero hqueue, hassigned, hrunning] at hplaced
    rw [hrunning] at hstarted
    omega
  · have hquiet : s'.Quiet := hr.invariant ⟨hnothread, .inl hm⟩ fun h' _ hs ↦ h'.step hs
    exact hquiet.step_eq_none ha

/-- A pool with one thread that never idles. -/
abbrev neverIdle : Config := ⟨1, 1, 0, Config.zero_ge⟩

theorem finished_of_destroying_neverIdle :
    ∃ s, Reach step Signalled (create neverIdle) s ∧ s.manager = .destroying ∧
      s.submitted = [⟨0, 0, 0⟩] ∧ s.finished.count ⟨0, 0, 0⟩ = 1 := by
  have hrun : ∃ s, Reach step Signalled (create neverIdle) s ∧ s.manager = .destroying ∧
      s.submitted = [⟨0, 0, 0⟩] :=
    exists_reach_of_exec_decide [.runTask 0 0 0, .threadStarts 0, .resume 0, .callbackReturns 0,
      .looksForWork 0 0, .destroy] (by decide)
  obtain ⟨s, hr, hm, hsubmitted⟩ := hrun
  have hall := (finished_of_destroying (by decide) (by decide) hr hm).1
  exact ⟨s, hr, hm, hsubmitted, (hall _ (by simp [hsubmitted])).1⟩

/-- The only thread returns from its first task, finds the full queue empty and
leaves. -/
theorem Filled.leaves {s : Pool wrappingQueue} (h : Filled s (2 ^ 32)) :
    ∃ s', Reach step Signalled (create wrappingQueue) s' ∧ s'.manager = .ready ∧ s'.idle = [] ∧
      s'.numThreads = 0 ∧ s'.submitted = s.submitted ∧ s'.finished = [⟨0, 0, 0⟩] := by
  have hzero : s.queue.num = 0 := by simpa using h.num
  have hs₁ : step s (.callbackReturns 0) = some (s.callbackReturns 0 ⟨0, 0, 0⟩) := by
    simp only [step, h.place]
  have hsig₁ : Signalled s (.callbackReturns 0) := rfl
  have hsig : Signalled (s.callbackReturns 0 ⟨0, 0, 0⟩) (.looksForWork 0 0) := rfl
  have hr := h.reach.tail hsig₁ hs₁
  have hinv := inv_of_reach (fun _ _ ha ↦ ha) hr
  have hplace : ((s.callbackReturns 0 ⟨0, 0, 0⟩).worker 0).place = .returned := by
    simp [callbackReturns, setWorker]
  have hs₂ : step (s.callbackReturns 0 ⟨0, 0, 0⟩) (.looksForWork 0 0) =
      some ((s.callbackReturns 0 ⟨0, 0, 0⟩).looksForWork 0 0) := by
    simp only [step, hplace, if_true]
  refine ⟨_, hr.tail hsig hs₂, ?_⟩
  generalize (s.callbackReturns 0 ⟨0, 0, 0⟩).looksForWork 0 0 = s' at hs₂ ⊢
  cases hinv.step_cases hsig hs₂ with
  | findWork _ ht =>
      cases ht with
      | queue _ hget => exact absurd hzero (TaskQueue.queueGetNext_eq_some hget).1.ne'
      | oneTask hlen => exact absurd hlen (by decide)
  | lastExit _ _ hm => exact absurd (h.manager.symm.trans hm) (by simp)
  | sleep _ _ _ hidleTime => exact absurd rfl hidleTime
  | exit =>
      refine ⟨h.manager, h.idle, ?_, rfl, ?_⟩
      · exact congrArg (· - 1) h.numThreads
      · exact congrArg _ h.finished

/-- With `2 ^ 32` slots the pool is destroyed with all queued tasks unfinished. -/
theorem destroying_with_unfinished_task :
    ¬ ∀ s, Reach step Signalled (create wrappingQueue) s → s.manager = .destroying →
      ∀ t ∈ s.submitted, t ∈ s.finished := by
  intro h
  obtain ⟨s₀, h₀⟩ := exists_filled (2 ^ 32) le_rfl
  obtain ⟨s, hr, hm, hidle, hnum, hsubmitted, hfinished⟩ := h₀.leaves
  have hs : step s .destroy = some s.destroy := if_pos hm
  have hsig : Signalled s .destroy := rfl
  have hdestroy := h s.destroy (hr.tail hsig hs)
  have hinv := inv_of_reach (fun _ _ ha ↦ ha) hr
  generalize s.destroy = s' at hs hdestroy
  cases hinv.step_cases hsig hs with
  | destroyNothing h0 => exact absurd h0 (by decide)
  | destroy _ _ hd =>
      cases hd with
      | join htop => simp [hidle] at htop
      | wait _ hpos => omega
      | done =>
          have hmem := hdestroy rfl ⟨1, 0, 1⟩ (by
            change _ ∈ s.submitted
            rw [hsubmitted]
            exact h₀.first (by decide))
          change _ ∈ s.finished at hmem
          simp [hfinished] at hmem

end Pool

end Tidbits.ThreadPool
