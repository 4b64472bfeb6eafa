import Tidbits.ThreadPool.Accounting
import Tidbits.ThreadPool.Consistency

/-!
# Every task is run exactly once

The accounts give what the callers of `poThreadPool_runTask` rely on: from the
return of the call on, the task is in exactly one place, and it is started once.

For a pool with a queue this holds in every run as long as the `uint32_t`
counters can address the queue.  A queue of `2 ^ 32` slots loses all its entries
when the last slot is filled (`queue_wraps`).

For a pool without queue it holds in every run without a late look for work,
and the first late look starts a task a second time.
-/

namespace Tidbits.ThreadPool

open Tidbits.Transition Tidbits.Sequence

variable {cfg : Config}

namespace Pool

/-- The task is in the queue, assigned to a worker, running, or finished, in
exactly one of these places and once, and it was started if it is in one of the
last two. -/
def InOnePlace (s : Pool cfg) (t : Task) : Prop :=
  s.queued t + s.assigned t + s.running t + s.finished.count t = 1 ∧
    s.started.count t = s.running t + s.finished.count t

instance (s : Pool cfg) (t : Task) : Decidable (s.InOnePlace t) :=
  inferInstanceAs (Decidable (_ ∧ _))

theorem holders_eq_zero {s : Pool cfg} {f : Worker → Option Task} {t : Task}
    (h : ∀ w, f (s.worker w) ≠ some t) : s.holders f t = 0 := by
  rw [holders, Finset.card_eq_zero, Finset.filter_eq_empty_iff]
  exact fun w _ ↦ h w

theorem queued_eq_zero {s : Pool cfg} (h : s.queue.num = 0) (t : Task) : s.queued t = 0 := by
  rw [queued, TaskQueue.contents, h]
  rfl

/-- A task whose call has returned is in exactly one place. -/
theorem Accounted.inOnePlace {s : Pool cfg} (h : s.Accounted s.manager.pending) {t : Task}
    (ht : t ∈ s.submitted) (hret : s.manager.inRunTask ≠ some t) : s.InOnePlace t := by
  have hplaced := h.placed t
  have hpending : s.manager.pending.toList.count t = 0 := by
    rw [List.count_eq_zero]
    intro hmem
    exact hret (Manager.inRunTask_of_pending (Option.mem_toList.mp hmem))
  rw [hpending, List.count_eq_one_of_mem h.nodup ht] at hplaced
  exact ⟨hplaced, h.started t⟩

/-- No task is started twice. -/
theorem Accounted.count_started_le {s : Pool cfg} {p : Option Task} (h : s.Accounted p)
    (t : Task) : s.started.count t ≤ 1 := by
  have hplaced := h.placed t
  have hstarted := h.started t
  have hsubmitted := List.nodup_iff_count_le_one.mp h.nodup t
  omega

/-! ## Pools with a queue -/

/-- In a pool with a queue no look for work is late. -/
theorem reach_noLateLook {s : Pool cfg} (hpos : 0 < cfg.queueLength)
    (h : Reach step Signalled (create cfg) s) : Reach step NoLateLook (create cfg) s := by
  refine h.mono (fun hr ↦ inv_of_reach (fun _ _ ha ↦ ha) hr) fun hinv ha ↦ ⟨ha, fun _ t hm ↦ ?_⟩
  exact absurd (hinv.waitTaken t true hm).1 hpos.ne'

/-- **No task is lost, duplicated or overwritten**, in any run of a pool whose
queue the counters can address. -/
theorem inOnePlace_of_reach {s : Pool cfg} (hpos : 1 ≤ cfg.queueLength)
    (hlen : cfg.queueLength ≤ 2 ^ 31) (h : Reach step Signalled (create cfg) s) {t : Task}
    (ht : t ∈ s.submitted) (hret : s.manager.inRunTask ≠ some t) : s.InOnePlace t :=
  (accounted_of_reach hlen (reach_noLateLook hpos h)).inOnePlace ht hret

/-- The first of four tasks has finished, the second one runs, the third one was handed to the
worker of the first, and the last one is queued. -/
theorem inOnePlace_of_reach_twoThreads :
    ∃ s, Reach step Signalled (create twoThreads) s ∧
      (s.submitted = [⟨3, 0, 3⟩, ⟨2, 0, 2⟩, ⟨1, 0, 1⟩, ⟨0, 0, 0⟩] ∧ s.finished = [⟨0, 0, 0⟩] ∧
        s.handed = [⟨2, 0, 2⟩] ∧ s.queue.num = 1 ∧ s.manager = .ready) ∧
      ∀ t ∈ s.submitted, s.InOnePlace t := by
  obtain ⟨s, hr, hs⟩ : ∃ s, Reach step Signalled (create twoThreads) s ∧
      (s.submitted = [⟨3, 0, 3⟩, ⟨2, 0, 2⟩, ⟨1, 0, 1⟩, ⟨0, 0, 0⟩] ∧ s.finished = [⟨0, 0, 0⟩] ∧
        s.handed = [⟨2, 0, 2⟩] ∧ s.queue.num = 1 ∧ s.manager = .ready) :=
    exists_reach_of_exec_decide
      [.runTask 0 0 0, .threadStarts 0, .resume 0, .runTask 1 0 0, .threadStarts 1, .resume 0,
        .callbackReturns 0, .looksForWork 0 0, .runTask 2 0 0, .wakes 0, .runTask 3 0 0]
      (by decide)
  refine ⟨s, hr, hs, fun t ht ↦ inOnePlace_of_reach (by decide) (by decide) hr ht ?_⟩
  rw [hs.2.2.2.2]
  simp [Manager.inRunTask]

/-! ### A queue that the counters cannot address -/

/-- One thread that never idles, and `2 ^ 32` slots. -/
abbrev wrappingQueue : Config := ⟨1, 2 ^ 32, 0, Config.zero_ge⟩

/-- The thread is busy and `n` tasks have been queued since. -/
structure Filled (s : Pool wrappingQueue) (n : ℕ) : Prop where
  reach : Reach step Signalled (create wrappingQueue) s
  manager : s.manager = .ready
  cleanup : s.cleanup = false
  numThreads : s.numThreads = 1
  idle : s.idle = []
  unused : s.unused = []
  place : (s.worker 0).place = .running ⟨0, 0, 0⟩
  finished : s.finished = []
  num : s.queue.num = n % 2 ^ 32
  length : s.submitted.length = n + 1
  first : 0 < n → ⟨1, 0, 1⟩ ∈ s.submitted

theorem Filled.succ {s : Pool wrappingQueue} {n : ℕ} (h : Filled s n) (hn : n < 2 ^ 32) :
    ∃ s', Filled s' (n + 1) := by
  have hs : step s (.runTask 1 0 0) = some (s.runTask 1 0 0) := if_pos h.manager
  have hinv := inv_of_reach (fun _ _ ha ↦ ha) h.reach
  have hsig : Signalled s (.runTask 1 0 0) := rfl
  have hr : Reach step Signalled (create wrappingQueue) (s.runTask 1 0 0) := h.reach.tail hsig hs
  have hnum : s.queue.num = n := by rw [h.num, Nat.mod_eq_of_lt hn]
  refine ⟨s.runTask 1 0 0, ?_⟩
  generalize s.runTask 1 0 0 = s' at hs hr ⊢
  cases hinv.step_cases hsig hs with
  | runInCaller h0 => exact absurd h0 (by decide)
  | runTask _ hm hp =>
      cases hp with
      | handOver hidle => exact absurd hidle (by simp [h.idle])
      | create _ hunused => exact absurd hunused (by simp [h.unused])
      | waitTaken _ _ hlen => exact absurd hlen (by decide)
      | waitRoom _ _ _ hfull =>
          have hfull : s.queue.num = 2 ^ 32 := hfull
          omega
      | queue _ _ _ hq =>
          obtain ⟨-, -, hnum', -⟩ := TaskQueue.queueMakeNewEntry_eq_some hq
          exact
            { reach := hr
              manager := rfl
              cleanup := h.cleanup
              numThreads := h.numThreads
              idle := h.idle
              unused := h.unused
              place := h.place
              finished := h.finished
              num := by
                change s.queue.num = n at hnum
                rw [hnum', hnum]
              length := congrArg (· + 1) h.length
              first := fun _ ↦ by
                rcases Nat.eq_zero_or_pos n with rfl | hpos
                · exact List.mem_cons.mpr (.inl (by rw [newTask, h.length]))
                · exact List.mem_cons_of_mem _ (h.first hpos) }

/-- After `2 ^ 32` submissions the thread is still busy. -/
theorem exists_filled (n : ℕ) (hn : n ≤ 2 ^ 32) : ∃ s, Filled s n := by
  induction n with
  | zero =>
      have hrun : ∃ s, Reach step Signalled (create wrappingQueue) s ∧ s.manager = .ready ∧
          s.cleanup = false ∧ s.numThreads = 1 ∧ s.idle = [] ∧ s.unused = [] ∧
          (s.worker 0).place = .running ⟨0, 0, 0⟩ ∧ s.finished = [] ∧ s.queue.num = 0 ∧
          s.submitted.length = 1 :=
        exists_reach_of_exec_decide [.runTask 0 0 0, .threadStarts 0, .resume 0] (by decide)
      obtain ⟨s, hr, hm, hc, hn, hidle, hunused, hplace, hfinished, hnum, hlength⟩ := hrun
      exact ⟨s, hr, hm, hc, hn, hidle, hunused, hplace, hfinished, hnum, hlength,
        fun h0 ↦ absurd h0 (Nat.lt_irrefl 0)⟩
  | succ n ih =>
      obtain ⟨s, hs⟩ := ih (Nat.le_of_succ_le hn)
      exact hs.succ hn

/-- The first task of a full queue is nowhere when the queue has `2 ^ 32` slots. -/
theorem queue_wraps :
    ¬ ∀ s, Reach step Signalled (create wrappingQueue) s → ∀ t ∈ s.submitted,
      s.manager.inRunTask ≠ some t → s.InOnePlace t := by
  intro h
  obtain ⟨s, hs⟩ := exists_filled (2 ^ 32) le_rfl
  have hplace := h s hs.reach ⟨1, 0, 1⟩ (hs.first (by decide))
    (by simp [hs.manager, Manager.inRunTask])
  have hworker : ∀ w, (s.worker w).place = .running ⟨0, 0, 0⟩ := by
    intro w
    rw [Subsingleton.elim w 0]
    exact hs.place
  have hassigned : s.assigned ⟨1, 0, 1⟩ = 0 :=
    holders_eq_zero fun w ↦ by simp [Worker.assigned, hworker w]
  have hrunning : s.running ⟨1, 0, 1⟩ = 0 :=
    holders_eq_zero fun w ↦ by simp [Worker.running, hworker w]
  have hqueued := queued_eq_zero (by simpa using hs.num) ⟨1, 0, 1⟩
  simp [InOnePlace, hassigned, hrunning, hqueued, hs.finished] at hplace

/-! ## Pools without a queue -/

theorem Manager.signal_eq_waitTaken {m : Manager cfg} {t : Task}
    (h : m.signal = .waitTaken t true) : ∃ b, m = .waitTaken t b := by
  cases m with
  | waitTaken t' b =>
      rw [Manager.signal] at h
      cases h
      exact ⟨b, rfl⟩
  | _ => cases h

/-- A worker that has taken the task the manager waits with has started it. -/
def TakenStarted (s : Pool cfg) : Prop := ∀ t, s.manager = .waitTaken t true → t ∈ s.started

namespace TakenStarted

variable {s s' : Pool cfg} {w : WorkerId cfg} {t : Task}

/-- The manager does not wait with a task that was taken. -/
theorem of_ne (h : ∀ t, s.manager ≠ .waitTaken t true) : s.TakenStarted :=
  fun t hm ↦ absurd hm (h t)

theorem congr (h : s.TakenStarted) (hmanager : s'.manager = s.manager)
    (hstarted : s.started ⊆ s'.started) : s'.TakenStarted := by
  intro t hm
  exact hstarted (h t (hmanager ▸ hm))

/-- The task that the manager is signalled about is the one that is started. -/
theorem of_takeRun (hinv : s.Inv) (ht : Take s t s') :
    (s'.run w t).TakenStarted := by
  cases ht with
  | queue hpos hget =>
      refine of_ne fun t' hm ↦ ?_
      have hwait : ∃ b, s.manager = .waitTaken t' b := by
        change (if s.taskWaitingToBeRun then s.manager.signal else s.manager) = _ at hm
        split at hm
        · exact Manager.signal_eq_waitTaken hm
        · exact ⟨true, hm⟩
      obtain ⟨b, hwait⟩ := hwait
      exact hpos.ne' (hinv.waitTaken t' b hwait).1
  | oneTask hzero hwait htask =>
      intro t' hm
      obtain ⟨b, hwait⟩ := Manager.signal_eq_waitTaken hm
      have htt : t' = t := Option.some.inj ((hinv.waitTaken t' b hwait).2.symm.trans htask)
      exact htt ▸ List.mem_cons_self

theorem placement {now : Time} (hp : Placement s t now s') : s'.TakenStarted := by
  cases hp <;> exact of_ne (by simp [afterCreate])

theorem destroy (hd : Destroy s s') : s'.TakenStarted := by
  cases hd <;> exact of_ne (by simp)

theorem step (h : s.TakenStarted) (hinv : s.Inv) {a : Action cfg} (ha : Signalled s a)
    (hs : step s a = some s') : s'.TakenStarted := by
  cases hinv.step_cases ha hs with
  | runInCaller => exact h.congr rfl (List.subset_cons_self _ _)
  | runTask _ _ hp | resumeRoom _ hp => exact placement hp
  | checkIdleThreadTimeout hm ht => cases ht <;> exact of_ne (by simp [afterWake, hm])
  | destroy _ _ hd | joined _ _ hd => exact destroy hd
  | destroyNothing | resumeStart | resumeTaken | resumeCleanup | destroyPool =>
      exact of_ne (by simp)
  | threadStarts _ hm => exact of_ne (by simp [afterStart, hm, Manager.signal])
  | callbackReturns | exit | sleep | wakeExit => exact h.congr rfl (List.Subset.refl _)
  | lastExit => exact of_ne (by simp [afterExit])
  | findWork _ ht | wakeFindWork _ _ ht => exact of_takeRun hinv ht
  | wakeTask => exact h.congr rfl (List.subset_cons_self _ _)

end TakenStarted

theorem takenStarted_of_reach {s : Pool cfg} (h : Reach step NoLateLook (create cfg) s) :
    s.TakenStarted :=
  h.invariant_of (fun hr ↦ inv_of_reach (fun _ _ ha ↦ ha.1) hr) (fun _ hm ↦ by cases hm)
    fun hinv htaken ha hs ↦ htaken.step hinv ha.1 hs

/-- A manager whose task was not taken stays in its wait. -/
theorem manager_ne_ready {s s' : Pool cfg} (hinv : s.Inv) {t : Task}
    (hm : s.manager = .waitTaken t false) {a : Action cfg} (ha : Signalled s a)
    (hs : step s a = some s') : s'.manager ≠ .ready := by
  cases hinv.step_cases ha hs with
  | findWork _ ht | wakeFindWork _ _ ht =>
      cases ht with
      | queue hpos _ => exact absurd (hinv.waitTaken t false hm).1 hpos.ne'
      | oneTask => simp [run, setWorker, hm, Manager.signal]
  | checkIdleThreadTimeout hm' => exact absurd hm' (by simp [hm])
  | _ => simp_all [callbackReturns, run, setWorker, afterExit, afterSleep]

/-- The manager returns from the wait for its task to be taken only when it was. -/
theorem TakenStarted.of_return {s s' : Pool cfg} (h : s.TakenStarted) (hinv : s.Inv) {t : Task}
    {b : Bool} (hm : s.manager = .waitTaken t b) {a : Action cfg} (ha : Signalled s a)
    (hs : ThreadPool.step s a = some s') (hready : s'.manager = .ready) : t ∈ s.started := by
  cases b with
  | true => exact h t hm
  | false => exact absurd hready (manager_ne_ready hinv hm ha hs)

/-- A look for work after the task was taken takes it again. -/
theorem started_twice_of_late {s s' : Pool cfg} (h : s.TakenStarted) (hinv : s.Inv)
    {a : Action cfg} (ha : Signalled s a) (hlate : ¬ NoLateLook s a) (hs : step s a = some s') :
    ∃ t, 2 ≤ s'.started.count t := by
  have hlooks : a.looks s ∧ ∃ t, s.manager = .waitTaken t true := by
    by_contra hno
    exact hlate ⟨ha, fun hl t hm ↦ hno ⟨hl, t, hm⟩⟩
  obtain ⟨hl, t, hm⟩ := hlooks
  obtain ⟨hzero, htask⟩ := hinv.waitTaken t true hm
  have hwait : s.taskWaitingToBeRun = true := hinv.blocked.trans (by rw [hm]; rfl)
  have hnot : ¬ s.NoWork := fun hwork ↦ by simp [hwork.2 hzero] at hwait
  have hagain : ∀ {s₁ : Pool cfg} {t' : Task} (w : WorkerId cfg), Take s t' s₁ →
      2 ≤ (s₁.run w t').started.count t' := by
    intro s₁ t' w ht
    cases ht with
    | queue hpos _ => exact absurd hzero hpos.ne'
    | oneTask _ _ htask' =>
        have htt : t' = t := Option.some.inj (htask'.symm.trans htask)
        have hmem : 1 ≤ s.started.count t' := List.count_pos_iff.mpr (htt ▸ h t hm)
        change 2 ≤ (t' :: s.started).count t'
        rw [List.count_cons_self]
        exact Nat.succ_le_succ hmem
  cases hinv.step_cases ha hs with
  | findWork _ ht | wakeFindWork _ _ ht => exact ⟨_, hagain _ ht⟩
  | lastExit _ hwork | exit _ hwork | sleep _ hwork | wakeExit _ _ hwork => exact absurd hwork hnot
  | wakeTask _ htask => exact absurd hl (by simp [Action.looks, htask])
  | _ => exact absurd hl (by simp [Action.looks])

/-- **A pool without queue runs every task exactly once** in the runs without a
late look for work: no task is started twice, a task whose call has returned is
in one place, and the blocking branch returns only after its task was started.
The first late look for work starts a task again. -/
theorem exactly_once_of_reach (hzero : cfg.queueLength = 0) {s : Pool cfg}
    (h : Reach step NoLateLook (create cfg) s) :
    (∀ t, s.started.count t ≤ 1) ∧
      (∀ t ∈ s.submitted, s.manager.inRunTask ≠ some t → s.InOnePlace t) ∧
      (∀ t b a s', s.manager = .waitTaken t b → Signalled s a → step s a = some s' →
        s'.manager = .ready → t ∈ s.started) ∧
      ∀ a s', Signalled s a → ¬ NoLateLook s a → step s a = some s' →
        ∃ t, 2 ≤ s'.started.count t := by
  have hinv := inv_of_reach (fun _ _ ha ↦ ha.1) h
  have hacc := accounted_of_reach (by rw [hzero]; exact Nat.zero_le _) h
  have htaken := takenStarted_of_reach h
  refine ⟨hacc.count_started_le, fun t ht hret ↦ hacc.inOnePlace ht hret, ?_, ?_⟩
  · intro t b a s' hm ha hs hready
    exact htaken.of_return hinv hm ha hs hready
  · intro a s' ha hlate hs
    exact started_twice_of_late htaken hinv ha hlate hs

/-- One thread, which idles for a second, and no queue. -/
abbrev noQueue : Config := ⟨1, 0, 1000, Config.second_ge⟩

/-- The second task waits for the only thread, which takes it; the manager wakes up, and both
tasks finish. -/
theorem exactly_once_of_reach_noQueue :
    ∃ s, (Reach step NoLateLook (create noQueue) s ∧
        (s.manager = .waitTaken ⟨5, 0, 1⟩ true ∧ (s.worker 0).place = .running ⟨5, 0, 1⟩)) ∧
      ∃ s', (Reach step NoLateLook s s' ∧
          (s'.manager = .ready ∧ s'.submitted = [⟨5, 0, 1⟩, ⟨0, 0, 0⟩] ∧
            s'.finished = [⟨5, 0, 1⟩, ⟨0, 0, 0⟩])) ∧
        (∀ t, s'.started.count t ≤ 1) ∧ ∀ t ∈ s'.submitted, s'.InOnePlace t := by
  obtain ⟨s, hs, s', hr', hs'⟩ : ∃ s, (Reach step NoLateLook (create noQueue) s ∧
      (s.manager = .waitTaken ⟨5, 0, 1⟩ true ∧ (s.worker 0).place = .running ⟨5, 0, 1⟩)) ∧
      ∃ s', Reach step NoLateLook s s' ∧ (s'.manager = .ready ∧
        s'.submitted = [⟨5, 0, 1⟩, ⟨0, 0, 0⟩] ∧ s'.finished = [⟨5, 0, 1⟩, ⟨0, 0, 0⟩]) :=
    exists_reach_reach_of_exec
      [.runTask 0 0 0, .threadStarts 0, .resume 0, .runTask 5 0 0, .callbackReturns 0,
        .looksForWork 0 0]
      [.resume 0, .callbackReturns 0, .looksForWork 0 0] (by decide)
  obtain ⟨hcount, hplace, -⟩ := exactly_once_of_reach rfl (hs.1.trans hr')
  refine ⟨s, hs, s', ⟨hr', hs'⟩, hcount, fun t ht ↦ hplace t ht ?_⟩
  rw [hs'.1]
  simp [Manager.inRunTask]

/-- The only worker takes the waiting task, returns from it, and looks for work
before the manager has locked the mutex again. -/
theorem late_look_starts_twice :
    ¬ ∀ s, Reach step Signalled (create noQueue) s → ∀ t, s.started.count t ≤ 1 := by
  have hrun : ∃ s, Reach step Signalled (create noQueue) s ∧ s.started.count ⟨5, 0, 1⟩ = 2 :=
    exists_reach_of_exec_decide
      [.runTask 0 0 0, .threadStarts 0, .resume 0, .runTask 5 0 0, .callbackReturns 0,
        .looksForWork 0 0, .callbackReturns 0, .looksForWork 0 0] (by decide)
  intro h
  obtain ⟨s, hr, hcount⟩ := hrun
  exact absurd (h s hr ⟨5, 0, 1⟩) (by simp [hcount])

end Pool

end Tidbits.ThreadPool
