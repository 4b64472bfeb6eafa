import Tidbits.ThreadPool.Destroy

/-!
# How many threads the idle timeout leaves

`_poThreadPool_checkThreadTimeout` signals the worker that has been idle longest when there
are more than two threads.  The worker leaves the count of the threads only when it has
locked the mutex again, so until then the next timeout is decided on a count that is too
large by one.

Two threads are left if and only if each timeout is decided with more than two threads
besides those that an earlier one has signalled: `live_of_reach`.
-/

namespace Tidbits.ThreadPool

open Tidbits.Transition Tidbits.Sequence

variable {cfg : Config}

/-- The idle timeout has signalled the worker, which has not locked the mutex since. -/
def Worker.TimedOut (x : Worker) : Prop := x.place = .woken ∧ x.task = none

instance (x : Worker) : Decidable x.TimedOut := inferInstanceAs (Decidable (_ ∧ _))

/-- The manager is in `poThreadPool_destroy`, or past it. -/
def Manager.destroys : Manager cfg → Bool
  | joining _ | waitCleanup _ | destroying | destroyed => true
  | ready | waitStart _ _ _ | waitRoom _ _ | waitTaken _ _ => false

namespace Pool

/-- How many workers have a thread. -/
def live (s : Pool cfg) : ℕ := (Finset.univ.filter fun w ↦ (s.worker w).place ≠ .noThread).card

/-- How many workers the idle timeout has signalled that have not locked the mutex since. -/
def timedOut (s : Pool cfg) : ℕ := (Finset.univ.filter fun w ↦ (s.worker w).TimedOut).card

/-- With this idle list `_poThreadPool_checkThreadTimeout` signals a worker. -/
def TimesOut (s : Pool cfg) (idle : List (WorkerId cfg)) (now : Time) : Prop :=
  0 < cfg.maxIdleTime ∧ 2 < s.numThreads ∧
    ∃ w ∈ idle.getLast?, milliseconds cfg.maxIdleTime < now - (s.worker w).lastWorkTime

instance (s : Pool cfg) (idle : List (WorkerId cfg)) (now : Time) :
    Decidable (s.TimesOut idle now) := inferInstanceAs (Decidable (_ ∧ _))

/-- The step signals a worker for the idle timeout.  `poThreadPool_runTask` has popped an idle
worker for its task before it looks. -/
def Removes (s : Pool cfg) : Action cfg → Prop
  | .checkIdleThreadTimeout now => s.TimesOut s.idle now
  | .runTask _ _ now => s.TimesOut s.idle.tail now
  | .resume now =>
      match s.manager with
      | .waitRoom _ _ => s.TimesOut s.idle.tail now
      | _ => False
  | _ => False

instance (s : Pool cfg) (a : Action cfg) : Decidable (s.Removes a) := by
  unfold Removes
  split <;> try infer_instance
  split <;> infer_instance

/-- Before `poThreadPool_destroy`, with condition variables that wake only when signalled. -/
def BeforeDestroy (_ : Pool cfg) (a : Action cfg) : Prop := a ≠ .destroy ∧ a.isSpurious = false

instance : DecidableRel (@BeforeDestroy cfg) := fun _ a ↦
  inferInstanceAs (Decidable (a ≠ .destroy ∧ a.isSpurious = false))

/-- A worker is signalled for the idle timeout only if that leaves two threads besides those
already signalled. -/
def SparesTwo (s : Pool cfg) (a : Action cfg) : Prop :=
  BeforeDestroy s a ∧ (s.Removes a → s.timedOut + 2 < s.numThreads)

instance : DecidableRel (@SparesTwo cfg) := fun s a ↦
  inferInstanceAs (Decidable (BeforeDestroy s a ∧ (s.Removes a → _)))

/-- A step of a worker that comes back from its idle wait. -/
def Wakes (_ : Pool cfg) (a : Action cfg) : Prop := ∃ w, a = .wakes w

variable {s s' t : Pool cfg} {w : WorkerId cfg} {a : Action cfg} {now : Time}

theorem Removes.two_lt (h : s.Removes a) : 2 < s.numThreads := by
  cases a with
  | runTask | checkIdleThreadTimeout => exact h.2.1
  | resume now =>
      dsimp only [Removes] at h
      split at h
      · exact h.2.1
      · exact h.elim
  | _ => exact h.elim

/-! ## Counting -/

theorem timedOut_congr (hworker : s'.worker = s.worker) : s'.timedOut = s.timedOut := by
  rw [timedOut, timedOut, hworker]

theorem timedOut_update {x : Worker} (hworker : t.worker = Function.update s.worker w x) :
    t.timedOut + (if (s.worker w).TimedOut then 1 else 0) =
      s.timedOut + if x.TimedOut then 1 else 0 := by
  rw [timedOut, timedOut, hworker]
  exact card_filter_update_add s.worker Worker.TimedOut w x

/-- A worker changes that the idle timeout has nothing to do with. -/
theorem timedOut_eq {x : Worker} (hworker : s'.worker = Function.update s.worker w x)
    (hw : ¬ (s.worker w).TimedOut) (hx : ¬ x.TimedOut) : s'.timedOut = s.timedOut := by
  have hcount := timedOut_update hworker
  rwa [if_neg hw, if_neg hx] at hcount

theorem Inv.live_add (h : s.Inv) : s.live + s.unused.length = cfg.maxNumThreads := by
  have hunused : (Finset.univ.filter fun w ↦ (s.worker w).place = .noThread) =
      s.unused.toFinset := by
    ext w
    simp [h.mem_unused]
  have hcard := Finset.card_filter_add_card_filter_not (s := Finset.univ)
    fun w ↦ (s.worker w).place = .noThread
  rw [hunused, List.toFinset_card_of_nodup h.unused_nodup, Finset.card_univ,
    Fintype.card_fin] at hcard
  rw [live, Nat.add_comm]
  exact hcard

theorem Inv.live_eq (h : s.Inv) : s.live = s.numThreads + s.manager.pendingStart := by
  have hlive := h.live_add
  have hcount := h.count
  omega

/-! ## What a step does to the counts -/

/-- What a step does to the number of threads and of those signalled for the idle timeout. -/
inductive Resizes (s : Pool cfg) (removes : Prop) (s' : Pool cfg) : Prop
  | keeps (hremoves : ¬ removes) (hunused : s'.unused.length ≤ s.unused.length)
      (hnum : s.numThreads ≤ s'.numThreads) (htimedOut : s'.timedOut ≤ s.timedOut)
  /-- A worker is signalled for the idle timeout. -/
  | signals (hremoves : removes) (hunused : s'.unused = s.unused)
      (hnum : s'.numThreads = s.numThreads) (htimedOut : s'.timedOut = s.timedOut + 1)
      (hm : s'.manager = .ready) (hwork : s'.NoWork)
  /-- A worker that was signalled exits. -/
  | exits (hremoves : ¬ removes) (hnum : s.numThreads = s'.numThreads + 1)
      (htimedOut : s.timedOut = s'.timedOut + 1)

theorem not_timesOut_of_nil : ¬ s.TimesOut [] now := by
  rintro ⟨-, -, w, hw, -⟩
  cases hw

/-- `_poThreadPool_checkThreadTimeout` does what it is asked about. -/
theorem checkThreadTimeout_eq (h : s.IdleWaits) (hidleTime : 0 < cfg.maxIdleTime) (now : Time) :
    (¬ s.TimesOut s.idle now ∧ s.checkThreadTimeout now = s) ∨
      s.TimesOut s.idle now ∧ ∃ w idle, s.idle = idle ++ [w] ∧
        s.checkThreadTimeout now = s.afterWake w idle none := by
  unfold checkThreadTimeout
  by_cases hnum : 2 < s.numThreads
  · rw [if_neg (by omega), if_pos hnum]
    cases hpull : listPull s.idle with
    | none =>
        refine .inl ⟨?_, rfl⟩
        rintro ⟨-, -, w, hw, -⟩
        rw [listPull, Option.map_eq_none_iff] at hpull
        cases hpull.symm.trans hw
    | some r =>
        obtain ⟨w, idle⟩ := r
        have hidle := listPull_eq_some.mp hpull
        have hlast : s.idle.getLast? = some w := by rw [hidle, List.getLast?_concat]
        obtain ⟨hwait, htask⟩ := h w (by rw [hidle]; simp)
        by_cases hold : milliseconds cfg.maxIdleTime < now - (s.worker w).lastWorkTime
        · refine .inr ⟨⟨hidleTime, hnum, w, hlast, hold⟩, w, idle, hidle, ?_⟩
          dsimp only
          rw [if_pos hold, dassert_of (by exact htask), signalWorker_of_waiting (by exact hwait)]
          simp [afterWake, setWorker, htask]
        · refine .inl ⟨?_, by dsimp only; rw [if_neg hold]⟩
          rintro ⟨-, -, w', hw', hold'⟩
          cases hlast.symm.trans hw'
          exact hold hold'
  · refine .inl ⟨fun htimes ↦ hnum htimes.2.1, ?_⟩
    rw [if_neg hnum, ite_self]

theorem Inv.noWork_of_idle (h : s.Inv) (hm : s.manager.blocked = false) (hidle : s.idle ≠ []) :
    s.NoWork := by
  refine ⟨?_, fun _ ↦ h.blocked.trans hm⟩
  by_contra hnum
  exact hidle (h.queue_busy (Nat.pos_of_ne_zero hnum)).1

namespace Resizes

/-- Seen from a state with the same counts. -/
theorem of_same {removes removes' : Prop} (h : s.Resizes removes t) (hunused : s.unused = s'.unused)
    (hnum : s.numThreads = s'.numThreads) (htimedOut : s.timedOut = s'.timedOut)
    (hremoves : removes ↔ removes') : s'.Resizes removes' t := by
  cases h with
  | keeps hr hu hn ht =>
      exact .keeps (hremoves.not.mp hr) (hunused ▸ hu) (hnum ▸ hn) (htimedOut ▸ ht)
  | signals hr hu hn ht hm hwork =>
      exact .signals (hremoves.mp hr) (hu.trans hunused) (hn.trans hnum) (htimedOut ▸ ht) hm hwork
  | exits hr hn ht =>
      exact .exits (hremoves.not.mp hr) (hnum.symm.trans hn) (htimedOut.symm.trans ht)

/-- `_poThreadPool_checkThreadTimeout`, after which the manager is in no pool function. -/
theorem checkThreadTimeout (h : s.IdleWaits) (hidleTime : 0 < cfg.maxIdleTime)
    (hwork : s.idle ≠ [] → s.NoWork) (now : Time) :
    s.Resizes (s.TimesOut s.idle now) { s.checkThreadTimeout now with manager := .ready } := by
  rcases checkThreadTimeout_eq h hidleTime now with ⟨hnot, heq⟩ | ⟨htimes, w, idle, hidle, heq⟩
  · rw [heq]
    exact .keeps hnot le_rfl le_rfl (timedOut_congr rfl).le
  · obtain ⟨hwait, -⟩ := h w (by rw [hidle]; simp)
    rw [heq]
    have hcount := timedOut_update (s := s)
      (t := { s.afterWake w idle none with manager := .ready }) rfl
    rw [if_neg (by simp [Worker.TimedOut, hwait]), if_pos ⟨rfl, rfl⟩] at hcount
    exact .signals htimes rfl rfl hcount rfl (hwork (by rw [hidle]; simp))

/-- Without an idle worker there is none to signal. -/
theorem placement (h : s.Inv) {t : Task} (hidle : s.idle = []) (hp : Placement s t now s') :
    s.Resizes (s.TimesOut [] now) s' := by
  cases hp with
  | handOver hidle' htimeout => cases hidle.symm.trans hidle'
  | @create w unused hidle' hunused =>
      have hplace := (h.mem_unused w).mp (by rw [hunused]; exact List.mem_cons_self)
      have htimedOut : (s.afterCreate w unused t).timedOut = s.timedOut :=
        timedOut_eq rfl (by simp [Worker.TimedOut, hplace]) (by simp [Worker.TimedOut])
      refine .keeps not_timesOut_of_nil ?_ le_rfl htimedOut.le
      rw [hunused]
      exact Nat.le_succ _
  | queue | waitRoom | waitTaken =>
      exact .keeps not_timesOut_of_nil le_rfl le_rfl (timedOut_congr rfl).le

/-- The loop of `poThreadPool_runTask`. -/
theorem runTaskLoop (h : s.Inv) (hidleTime : 0 < cfg.maxIdleTime) (hm : s.manager = .ready)
    (t : Task) (now : Time) :
    s.Resizes (s.TimesOut s.idle.tail now) (s.runTaskLoop t now) := by
  cases hidle : s.idle with
  | nil => exact placement h hidle (h.runTaskLoop_cases t now)
  | cons w idle =>
      obtain ⟨hwait, -⟩ := h.idleWaits w (by rw [hidle]; exact List.mem_cons_self)
      have hne : cfg.maxIdleTime ≠ 0 := hidleTime.ne'
      have hloop : s.runTaskLoop t now =
          { Pool.checkThreadTimeout { s.afterWake w idle (some t) with handed := t :: s.handed } now
            with manager := .ready } := by
        rw [Pool.runTaskLoop, if_pos hne, hidle]
        simp only [listPop, handOver_eq h.idleWaits hidle, hidleTime, if_true]
      have hwaits : IdleWaits { s.afterWake w idle (some t) with handed := t :: s.handed } :=
        h.idleWaits_afterWake hidle (some t)
      have hwork : s.NoWork := h.noWork_of_idle (by rw [hm]; rfl) (by rw [hidle]; simp)
      rw [hloop]
      refine (checkThreadTimeout hwaits hidleTime (fun _ ↦ hwork) now).of_same rfl rfl ?_ ?_
      · exact timedOut_eq (s := s) rfl (by simp [Worker.TimedOut, hwait])
          (by simp [Worker.TimedOut])
      · -- the worker that gets the task keeps its time
        have htime : ∀ x, ((s.afterWake w idle (some t)).worker x).lastWorkTime =
            (s.worker x).lastWorkTime := by
          intro x
          by_cases hx : x = w
          · subst hx
            simp [afterWake]
          · simp [afterWake, hx]
        simp only [TimesOut, htime]
        exact Iff.rfl

theorem runTask (h : s.Inv) (hidleTime : 0 < cfg.maxIdleTime) (hm : s.manager = .ready)
    (userCallback userData : ℕ) (now : Time) :
    s.Resizes (s.TimesOut s.idle.tail now) (s.runTask userCallback userData now) := by
  have hsub : { s with submitted := s.newTask userCallback userData :: s.submitted }.Inv :=
    { h with }
  unfold Pool.runTask
  dsimp only
  split_ifs with h0
  · have hle := h.numThreads_le
    refine .keeps (fun htimes ↦ ?_) le_rfl le_rfl (timedOut_congr rfl).le
    have hnum := htimes.2.1
    omega
  · rw [hsub.assertIdleOrQueueEmpty_eq, dassert_of hsub.numThreads_le]
    exact (runTaskLoop hsub hidleTime hm _ now).of_same rfl rfl (timedOut_congr rfl) Iff.rfl

theorem checkIdleThreadTimeout (h : s.Inv) (hidleTime : 0 < cfg.maxIdleTime)
    (hm : s.manager = .ready) (now : Time) :
    s.Resizes (s.TimesOut s.idle now) (s.checkIdleThreadTimeout now) := by
  have hmanager : { s.checkThreadTimeout now with manager := .ready } =
      s.checkThreadTimeout now := by
    have hready : (s.checkThreadTimeout now).manager = .ready := by
      rcases checkThreadTimeout_eq h.idleWaits hidleTime now with
        ⟨-, heq⟩ | ⟨-, w, idle, -, heq⟩ <;> rw [heq] <;> exact hm
    rw [← hready]
  have hwork : s.idle ≠ [] → s.NoWork := h.noWork_of_idle (by rw [hm]; rfl)
  unfold Pool.checkIdleThreadTimeout
  rw [if_pos hidleTime, h.assertIdleOrQueueEmpty_eq]
  dsimp only
  rw [dassert_of h.numThreads_le, ← hmanager]
  exact checkThreadTimeout h.idleWaits hidleTime hwork now

theorem resume (h : s.Inv) (hidleTime : 0 < cfg.maxIdleTime) (hup : s.manager.destroys = false)
    (hs : s.resume now = some s') : s.Resizes (s.Removes (.resume now)) s' := by
  have hsame : ∀ {m : Manager cfg} {taskWaitingToBeRun : Bool},
      ¬ s.Removes (.resume now) → s.Resizes (s.Removes (.resume now))
        { s with taskWaitingToBeRun := taskWaitingToBeRun, manager := m } :=
    fun hnot ↦ .keeps hnot le_rfl le_rfl (timedOut_congr rfl).le
  unfold Pool.resume at hs
  split at hs
  · rename_i w t hm
    cases hs
    exact hsame (by simp [Removes, hm])
  · rename_i t hm
    cases hs
    have hblocked : s.manager.blocked = true := by rw [hm]; rfl
    have hremoves : s.Removes (.resume now) = s.TimesOut s.idle.tail now := by
      simp only [Removes, hm]
    rw [hremoves]
    exact (runTaskLoop (h.unblock hblocked) hidleTime rfl t now).of_same rfl rfl
      (timedOut_congr rfl) Iff.rfl
  · rename_i t hm
    cases hs
    exact hsame (by simp [Removes, hm])
  · rename_i hm
    rw [hm] at hup
    cases hup
  · cases hs

/-- A worker that was not signalled for the idle timeout moves. -/
theorem of_update {x : Worker} (hunused : s'.unused = s.unused)
    (hnum : s.numThreads ≤ s'.numThreads)
    (hworker : s'.worker = Function.update s.worker w x) (hw : ¬ (s.worker w).TimedOut)
    (hx : ¬ x.TimedOut) : s.Resizes False s' :=
  .keeps id (by rw [hunused]) hnum (timedOut_eq hworker hw hx).le

/-- A worker takes a task, perhaps one that was signalled for the idle timeout. -/
theorem takeRun {task : Task} (ht : Take s task s') : s.Resizes False (s'.run w task) := by
  have hworker : (s'.run w task).worker =
      Function.update s.worker w { s.worker w with place := .running task } := by
    rw [← ht.worker_eq]
    rfl
  have hcount := timedOut_update hworker
  have hrunning : ¬ Worker.TimedOut { s.worker w with place := .running task } :=
    fun hout ↦ nomatch hout.1
  rw [if_neg hrunning] at hcount
  have hle := (Nat.le_add_right _ _).trans hcount.le
  cases ht <;> exact .keeps id le_rfl le_rfl hle

/-- The steps of the workers. -/
theorem worker (h : s.Inv) (hidleTime : 0 < cfg.maxIdleTime) (hup : s.manager.destroys = false)
    (hmove : Move s a s') (ha : a.isWorker = true) : s.Resizes False s' := by
  have hcleanup : s.cleanup = false := by
    by_contra hc
    have hfin := h.cleanup (Bool.not_eq_false _ ▸ hc)
    cases hm : s.manager <;> simp_all [Manager.finishing, Manager.destroys]
  cases hmove with
  | threadStarts hplace hm =>
      exact of_update rfl (Nat.le_succ _) rfl (by simp [Worker.TimedOut, hplace])
        (by simp [Worker.TimedOut])
  | callbackReturns hplace =>
      exact of_update rfl le_rfl rfl (by simp [Worker.TimedOut, hplace]) (by simp [Worker.TimedOut])
  | findWork hplace ht => exact takeRun ht
  | lastExit hplace hwork hm hone =>
      rw [hm] at hup
      cases hup
  | exit hplace hwork hc =>
      rcases hc with ⟨hc, -⟩ | ⟨-, hzero⟩
      · cases hcleanup.symm.trans hc
      · omega
  | sleep hplace hwork hc hne =>
      exact of_update rfl le_rfl rfl (by simp [Worker.TimedOut, hplace]) (by simp [Worker.TimedOut])
  | wakeTask hplace htask =>
      exact of_update rfl le_rfl rfl (by simp [Worker.TimedOut, htask]) (by simp [Worker.TimedOut])
  | wakeFindWork hplace htask ht => exact takeRun ht
  | @wakeExit w hplace htask hwork =>
      have hbusy : (s.worker w).place.busy := by rw [hplace]; trivial
      have hpos := h.numThreads_pos hbusy.ne_noThread hbusy.ne_starting
      have hcount := timedOut_update (s := s) (t := s.afterExit w) rfl
      rw [if_pos ⟨hplace, htask⟩, if_neg (by simp [Worker.TimedOut])] at hcount
      exact .exits id (Nat.succ_pred_eq_of_pos hpos).symm hcount.symm
  | _ => cases ha

/-- **What a step before `poThreadPool_destroy` does to the counts.** -/
theorem of_step (h : s.Inv) (hidleTime : 0 < cfg.maxIdleTime) (hup : s.manager.destroys = false)
    (ha : BeforeDestroy s a) (hs : step s a = some s') : s.Resizes (s.Removes a) s' := by
  have hworker : a.isWorker = true → s.Resizes False s' :=
    worker h hidleTime hup (h.step_cases ha.2 hs)
  cases a with
  | runTask userCallback userData now =>
      obtain ⟨hm, hs⟩ := Option.ite_none_right_eq_some.mp hs
      cases hs
      exact runTask h hidleTime hm userCallback userData now
  | checkIdleThreadTimeout now =>
      obtain ⟨hm, hs⟩ := Option.ite_none_right_eq_some.mp hs
      cases hs
      exact checkIdleThreadTimeout h hidleTime hm now
  | destroy => exact absurd rfl ha.1
  | resume now => exact resume h hidleTime hup hs
  | joined =>
      simp only [step] at hs
      split at hs
      · rename_i hm
        rw [hm] at hup
        cases hup
      · cases hs
  | destroyPool =>
      obtain ⟨hm, -⟩ := Option.ite_none_right_eq_some.mp hs
      rw [hm] at hup
      cases hup
  | threadStarts | callbackReturns | looksForWork | wakes | spuriousWake => exact hworker rfl

end Resizes

/-- Before `poThreadPool_destroy` the manager is not in it. -/
theorem not_destroys_of_step (h : s.Inv) (hup : s.manager.destroys = false)
    (ha : BeforeDestroy s a) (hs : step s a = some s') : s'.manager.destroys = false := by
  have hsignal : s.manager.signal.destroys = false := by
    cases hm : s.manager <;> simp_all [Manager.signal, Manager.destroys]
  have htimeout : ∀ {s t : Pool cfg} {now : Time}, Timeout s now t → t.manager = s.manager := by
    intro s t now ht
    cases ht <;> rfl
  have hplacement : ∀ {s t : Pool cfg} {task : Task} {now : Time}, Placement s task now t →
      t.manager.destroys = false := by
    intro s t task now hp
    cases hp <;> rfl
  have htake : ∀ {w : WorkerId cfg} {task : Task} {t : Pool cfg}, Take s task t →
      (t.run w task).manager.destroys = false := by
    intro w task t ht
    show t.manager.destroys = false
    cases ht with
    | queue =>
        dsimp only
        split_ifs
        · exact hsignal
        · exact hup
    | oneTask => exact hsignal
  cases h.step_cases ha.2 hs with
  | runTask _ _ hp | resumeRoom _ hp => exact hplacement hp
  | checkIdleThreadTimeout hm ht =>
      rw [htimeout ht]
      exact hup
  | destroyNothing | destroy => exact absurd rfl ha.1
  | resumeStart | resumeTaken => rfl
  | resumeCleanup hm | joined hm | destroyPool hm | lastExit _ _ hm =>
      rw [hm] at hup
      cases hup
  | threadStarts => exact hsignal
  | findWork _ ht | wakeFindWork _ _ ht => exact htake ht
  | _ => exact hup

/-! ## Runs -/

/-- What holds as long as every timeout spares two threads. -/
structure Spared (s : Pool cfg) : Prop where
  inv : s.Inv
  up : s.manager.destroys = false
  spare : 0 < s.timedOut → s.timedOut + 2 ≤ s.numThreads

theorem spared_create (cfg : Config) : (create cfg).Spared where
  inv := inv_create cfg
  up := rfl
  spare := by
    have hnone : (create cfg).timedOut = 0 :=
      Finset.card_eq_zero.mpr (Finset.filter_eq_empty_iff.mpr fun _ _ hout ↦ nomatch hout.1)
    intro hpos
    exact absurd hpos (by rw [hnone]; exact Nat.lt_irrefl 0)

namespace Spared

theorem step (h : s.Spared) (hidleTime : 0 < cfg.maxIdleTime) (ha : SparesTwo s a)
    (hs : ThreadPool.step s a = some s') : s'.Spared := by
  refine ⟨h.inv.step ha.1.2 hs, not_destroys_of_step h.inv h.up ha.1 hs, fun hpos ↦ ?_⟩
  cases Resizes.of_step h.inv hidleTime h.up ha.1 hs with
  | keeps hremoves hunused hnum htimedOut =>
      have hspare := h.spare (hpos.trans_le htimedOut)
      omega
  | signals hremoves hunused hnum htimedOut =>
      have hspare := ha.2 hremoves
      omega
  | exits hremoves hnum htimedOut =>
      have hspare := h.spare (by omega)
      omega

/-- A step leaves two threads. -/
theorem two_le_live (h : s.Spared) (hidleTime : 0 < cfg.maxIdleTime) (ha : SparesTwo s a)
    (hs : ThreadPool.step s a = some s') (htwo : 2 ≤ s.live) : 2 ≤ s'.live := by
  have hadd := h.inv.live_add
  have hadd' := (h.step hidleTime ha hs).inv.live_add
  cases Resizes.of_step h.inv hidleTime h.up ha.1 hs with
  | keeps hremoves hunused hnum htimedOut => omega
  | signals hremoves hunused hnum htimedOut =>
      rw [hunused] at hadd'
      omega
  | exits hremoves hnum htimedOut =>
      -- those that are signalled come on top of the two
      have hspare := h.spare (by omega)
      have hlive := (h.step hidleTime ha hs).inv.live_eq
      omega

end Spared

theorem NoWork.not_take {task : Task} (h : s.NoWork) : ¬ Take s task s' := by
  intro ht
  cases ht with
  | queue hlen hget => exact absurd h.1 (TaskQueue.queueGetNext_eq_some hget).1.ne'
  | oneTask hlen hwait => cases (h.2 hlen).symm.trans hwait

/-- Without work, a worker that was signalled for the idle timeout exits. -/
theorem wakes_eq_afterExit (h : s.Inv) (hwork : s.NoWork) (hw : (s.worker w).TimedOut) :
    s.wakes w = s.afterExit w := by
  have hmove := h.wakes_cases hw.1
  generalize s.wakes w = s' at hmove
  cases hmove with
  | wakeTask hplace htask => cases hw.2.symm.trans htask
  | wakeFindWork hplace htask ht => exact absurd ht hwork.not_take
  | wakeExit hplace htask hwork => rfl

/-- If they come back before anything else happens, all of them exit. -/
theorem exists_reach_exits (h : s.Inv) (hm : s.manager = .ready) (hwork : s.NoWork) :
    ∃ t, Reach step Wakes s t ∧ t.Inv ∧ t.manager = .ready ∧
      t.numThreads + s.timedOut = s.numThreads := by
  generalize hn : s.timedOut = n
  induction n generalizing s with
  | zero => exact ⟨s, .refl, h, hm, rfl⟩
  | succ n ih =>
      have hpos : 0 < s.timedOut := by omega
      obtain ⟨w, hw⟩ := Finset.card_pos.mp hpos
      have hout : (s.worker w).TimedOut := (Finset.mem_filter.mp hw).2
      have hs : step s (.wakes w) = some (s.afterExit w) := by
        rw [← wakes_eq_afterExit h hwork hout]
        exact if_pos hout.1
      have hinv : (s.afterExit w).Inv := h.step (a := .wakes w) rfl hs
      have hbusy : (s.worker w).place.busy := by rw [hout.1]; trivial
      have hnum := h.numThreads_pos hbusy.ne_noThread hbusy.ne_starting
      have hcount := timedOut_update (s := s) (t := s.afterExit w) rfl
      rw [if_pos hout, if_neg (fun hout ↦ nomatch hout.1)] at hcount
      obtain ⟨t, hreach, ht, htm, htn⟩ := ih hinv hm hwork (by omega)
      refine ⟨t, hreach.head ⟨w, rfl⟩ hs, ht, htm, ?_⟩
      have hexit : (s.afterExit w).numThreads = s.numThreads - 1 := rfl
      omega

/-- **How many threads the idle timeout leaves.**  As long as every timeout is decided with more
than two threads besides those already signalled, two threads stay once there are two.  The first
one that is not leaves fewer if the workers that were signalled come back at once. -/
theorem live_of_reach (hidleTime : 0 < cfg.maxIdleTime) (h : Reach step SparesTwo (create cfg) s) :
    (2 ≤ s.live → ∀ t, Reach step SparesTwo s t → 2 ≤ t.live) ∧
      ∀ a s', BeforeDestroy s a → ¬ SparesTwo s a → step s a = some s' →
        2 ≤ s.live ∧ ∃ t, Reach step Wakes s' t ∧ t.live < 2 := by
  have hspared : s.Spared :=
    h.invariant (spared_create cfg) fun hspared ha hs ↦ hspared.step hidleTime ha hs
  refine ⟨fun htwo t ht ↦ ?_, fun a s' ha hnot hs ↦ ?_⟩
  · exact (ht.invariant (I := fun t ↦ t.Spared ∧ 2 ≤ t.live) ⟨hspared, htwo⟩
      fun hi ha hs ↦ ⟨hi.1.step hidleTime ha hs, hi.1.two_le_live hidleTime ha hs hi.2⟩).2
  · have hremoves : s.Removes a ∧ ¬ s.timedOut + 2 < s.numThreads :=
      Classical.not_imp.mp fun himp ↦ hnot ⟨ha, himp⟩
    have hlive := hspared.inv.live_eq
    cases Resizes.of_step hspared.inv hidleTime hspared.up ha hs with
    | keeps hno => exact absurd hremoves.1 hno
    | exits hno => exact absurd hremoves.1 hno
    | signals _ hunused hnum htimedOut hm hwork =>
        have hinv := hspared.inv.step ha.2 hs
        obtain ⟨t, hreach, ht, htm, htn⟩ := exists_reach_exits hinv hm hwork
        have hlive' := ht.live_eq
        have hpending : t.manager.pendingStart = 0 := by rw [htm]; rfl
        have htwo := hremoves.1.two_lt
        exact ⟨by omega, t, hreach, by omega⟩

/-- Three workers go idle. -/
abbrev threeGoIdle : List (Action threeThreads) :=
  [.runTask 0 0 0, .threadStarts 0, .resume 0, .runTask 0 0 0, .threadStarts 1, .resume 0,
    .runTask 0 0 0, .threadStarts 2, .resume 0, .callbackReturns 0, .looksForWork 0 0,
    .callbackReturns 1, .looksForWork 1 0, .callbackReturns 2, .looksForWork 2 0]

/-- One of them has timed out and exited. -/
theorem live_of_reach_threeGoIdle :
    ∃ s, Reach step SparesTwo (create threeThreads) s ∧ s.live = 2 ∧
      (∀ t, Reach step SparesTwo s t → 2 ≤ t.live) ∧
      ∀ a s', BeforeDestroy s a → ¬ SparesTwo s a → step s a = some s' →
        2 ≤ s.live ∧ ∃ t, Reach step Wakes s' t ∧ t.live < 2 := by
  obtain ⟨s, hreach, hlive⟩ : ∃ s, Reach step SparesTwo (create threeThreads) s ∧ s.live = 2 :=
    exists_reach_of_exec_decide (threeGoIdle ++ [.checkIdleThreadTimeout 2000000000, .wakes 0])
      (by decide)
  obtain ⟨hkeeps, hloses⟩ := live_of_reach (by decide) hreach
  exact ⟨s, hreach, hlive, hkeeps hlive.ge, hloses⟩

/-- A second one is signalled before the first one has locked the mutex. -/
theorem not_two_le_live_of_threeGoIdle :
    ¬ ∀ s t, Reach step BeforeDestroy (create threeThreads) s → 2 ≤ s.live →
      Reach step BeforeDestroy s t → 2 ≤ t.live := by
  obtain ⟨s, hreach, hlive, t, ht, hone⟩ :
      ∃ s, Reach step BeforeDestroy (create threeThreads) s ∧ 2 ≤ s.live ∧
        ∃ t ∈ exec step BeforeDestroy s
          [.checkIdleThreadTimeout 2000000000, .checkIdleThreadTimeout 2000000000, .wakes 0,
            .wakes 1], t.live = 1 :=
    exists_reach_of_exec_decide threeGoIdle (by decide)
  intro h
  have htwo := h s t hreach hlive (reach_of_exec ht)
  omega

end Pool

end Tidbits.ThreadPool
