import Tidbits.ThreadPool.Preservation

/-!
# The lists of the pool in every run

`consistent_of_reach` reads the state invariant off for the runs in which
condition variables wake only when signalled: each worker struct is in one of
the two lists or has a live thread, threads and unused workers add up, tasks are
queued only while every worker is busy, and no check of the source fails.

The idle wait of `workerCallback` is not in a loop that tests a predicate.
`idleSound_of_reach` shows that the idle list, and every task handed to a worker
popped from it, are safe as long as no such wait returns without a signal, and
that the first one that does breaks the list.
-/

namespace Tidbits.ThreadPool

open Tidbits.Transition

variable {cfg : Config}

namespace Pool

/-- The two lists, the thread count and the queue agree with the threads. -/
structure Consistent (s : Pool cfg) : Prop where
  idle_nodup : s.idle.Nodup
  unused_nodup : s.unused.Nodup
  /-- An idle worker is not unused, and its thread waits. -/
  idle : ∀ w ∈ s.idle, w ∉ s.unused ∧ (s.worker w).place = .waiting
  /-- An unused worker is not idle, and has no thread. -/
  unused : ∀ w ∈ s.unused, w ∉ s.idle ∧ (s.worker w).place = .noThread
  /-- A worker in neither list has a live thread that is not idle. -/
  live : ∀ w, w ∉ s.idle → w ∉ s.unused → (s.worker w).place.busy
  count : s.numThreads + s.unused.length = cfg.maxNumThreads
  queue_busy : 0 < s.queue.num → s.idle = [] ∧ s.unused = []

theorem Inv.consistent {s : Pool cfg} (h : s.Inv)
    (hstart : ∀ w t, s.manager ≠ .waitStart w t false) : s.Consistent where
  idle_nodup := h.idle_nodup
  unused_nodup := h.unused_nodup
  idle w hw := by
    have hplace := (h.mem_idle w).mp hw
    exact ⟨h.notMem_unused (by simp [hplace]), hplace⟩
  unused w hw := by
    have hplace := (h.mem_unused w).mp hw
    refine ⟨fun hi ↦ ?_, hplace⟩
    exact absurd ((h.mem_idle w).mp hi) (by simp [hplace])
  live w hidle hunused := by
    cases hplace : (s.worker w).place with
    | noThread => exact absurd ((h.mem_unused w).mpr hplace) hunused
    | starting =>
        obtain ⟨t, hm⟩ := h.starting w hplace
        exact absurd hm (hstart w t)
    | waiting => exact absurd ((h.mem_idle w).mpr hplace) hidle
    | _ => trivial
  count := by
    rcases s.manager.pendingStart_eq_zero_or with hp | ⟨w, t, hm, -⟩
    · simpa [hp] using h.count
    · exact absurd hm (hstart w t)
  queue_busy := h.queue_busy

/-- **The lists are consistent in every state of every run** in which condition
variables wake only when signalled, and no check has failed. -/
theorem consistent_of_reach {s : Pool cfg} (h : Reach step Signalled (create cfg) s) :
    s.asserts = true ∧ ((∀ w t, s.manager ≠ .waitStart w t false) → s.Consistent) :=
  have hinv := inv_of_reach (fun _ _ ha ↦ ha) h
  ⟨hinv.asserts, hinv.consistent⟩

/-- A pool with two threads and a queue, whose threads idle for a second. -/
abbrev twoThreads : Config := ⟨2, 3, 1000, Config.second_ge⟩

/-- A third task is queued while both workers are busy; later the first worker runs it, and the
other one is idle. -/
theorem consistent_of_reach_twoThreads :
    ∃ s, ((Reach step Signalled (create twoThreads) s ∧
          (s.queue.num = 1 ∧ s.idle = [] ∧ s.unused = [] ∧ s.manager = .ready)) ∧
        s.asserts = true ∧ s.Consistent) ∧
      ∃ s', (Reach step Signalled s s' ∧
          (s'.queue.num = 0 ∧ s'.idle = [1] ∧ (s'.worker 0).place = .running ⟨2, 0, 2⟩ ∧
            s'.manager = .ready)) ∧
        s'.asserts = true ∧ s'.Consistent := by
  obtain ⟨s, hs, s', hr', hs'⟩ : ∃ s, (Reach step Signalled (create twoThreads) s ∧
      (s.queue.num = 1 ∧ s.idle = [] ∧ s.unused = [] ∧ s.manager = .ready)) ∧
      ∃ s', Reach step Signalled s s' ∧ (s'.queue.num = 0 ∧ s'.idle = [1] ∧
        (s'.worker 0).place = .running ⟨2, 0, 2⟩ ∧ s'.manager = .ready) :=
    exists_reach_reach_of_exec
      [.runTask 0 0 0, .threadStarts 0, .resume 0, .runTask 1 0 0, .threadStarts 1, .resume 0,
        .runTask 2 0 0]
      [.callbackReturns 0, .looksForWork 0 0, .callbackReturns 1, .looksForWork 1 0] (by decide)
  have hready : ∀ {s : Pool twoThreads}, s.manager = .ready →
      ∀ w t, s.manager ≠ .waitStart w t false := fun hm w t hm' ↦ nomatch hm.symm.trans hm'
  obtain ⟨hasserts, hconsistent⟩ := consistent_of_reach hs.1
  obtain ⟨hasserts', hconsistent'⟩ := consistent_of_reach (hs.1.trans hr')
  exact ⟨s, ⟨hs, hasserts, hconsistent (hready hs.2.2.2.2)⟩, s', ⟨hr', hs'⟩, hasserts',
    hconsistent' (hready hs'.2.2.2)⟩

/-! ## Tasks handed to an idle worker -/

/-- Every task handed to a popped idle worker was started, or its worker is
awake and about to call it. -/
def HandedSafe (s : Pool cfg) : Prop :=
  ∀ t ∈ s.handed, t ∈ s.started ∨ ∃ w, (s.worker w).place = .woken ∧ (s.worker w).task = some t

/-- What the idle list is for: no worker is both idle and unused, an idle worker
waits on its condition variable, and what it is handed is not lost. -/
structure IdleSound (s : Pool cfg) : Prop where
  disjoint : ∀ w, ¬ (w ∈ s.idle ∧ w ∈ s.unused)
  waiting : ∀ w ∈ s.idle, (s.worker w).place = .waiting
  handed : s.HandedSafe

namespace HandedSafe

variable {s s' : Pool cfg} {w : WorkerId cfg} {t : Task}

/-- A worker changes that is not awake with a task. -/
theorem update (h : s.HandedSafe) {x : Worker}
    (hw : (s.worker w).place = .woken → (s.worker w).task = none)
    (hworker : s'.worker = Function.update s.worker w x) (hhanded : s'.handed = s.handed)
    (hstarted : s.started ⊆ s'.started) : s'.HandedSafe := by
  intro t ht
  rcases h t (hhanded ▸ ht) with hs | ⟨w', hplace, htask⟩
  · exact .inl (hstarted hs)
  · refine .inr ⟨w', ?_⟩
    have hne : w' ≠ w := by
      rintro rfl
      exact absurd (hw hplace) (by simp [htask])
    rw [hworker, Function.update_of_ne hne]
    exact ⟨hplace, htask⟩

/-- Nothing changes that the property speaks of. -/
theorem congr (h : s.HandedSafe) (hworker : s'.worker = s.worker) (hhanded : s'.handed = s.handed)
    (hstarted : s'.started = s.started) : s'.HandedSafe := by
  intro t ht
  rw [hstarted, hworker]
  exact h t (hhanded ▸ ht)

/-- The worker that runs a task is the one it was handed to, if any. -/
theorem run (h : s.HandedSafe) (hw : (s.worker w).place = .woken → (s.worker w).task = none ∨
    (s.worker w).task = some t) : (s.run w t).HandedSafe := by
  intro t' ht'
  rcases h t' ht' with hs | ⟨w', hplace, htask⟩
  · exact .inl (List.mem_cons_of_mem _ hs)
  by_cases hne : w' = w
  · subst hne
    rcases hw hplace with h0 | h1
    · exact absurd htask (by simp [h0])
    · have htt : t' = t := Option.some.inj (htask.symm.trans h1)
      exact .inl (htt ▸ List.mem_cons_self)
  · exact .inr ⟨w', by simpa [Pool.run, Pool.setWorker, hne] using ⟨hplace, htask⟩⟩

theorem take (h : s.HandedSafe) (ht : Take s t s') : s'.HandedSafe := by
  cases ht <;> exact h.congr rfl rfl rfl

/-- An idle worker is woken without a task. -/
theorem afterWake (h : s.HandedSafe) {idle : List (WorkerId cfg)} {task : Option Task}
    (hw : (s.worker w).place = .waiting) : (s.afterWake w idle task).HandedSafe :=
  h.update (by simp [hw]) rfl rfl (List.Subset.refl _)

/-- An idle worker is handed a task. -/
theorem handOver (h : s.HandedSafe) {idle : List (WorkerId cfg)}
    (hw : (s.worker w).place = .waiting) :
    HandedSafe { s.afterWake w idle (some t) with handed := t :: s.handed } := by
  intro t' ht'
  rcases List.mem_cons.mp ht' with rfl | ht'
  · exact .inr ⟨w, by simp [Pool.afterWake]⟩
  · have hrest : (s.afterWake w idle (some t)).HandedSafe := h.afterWake hw
    exact hrest t' ht'

theorem timeout {now : Time} (h : s.HandedSafe) (hidle : s.IdleWaits) (ht : Timeout s now s') :
    s'.HandedSafe := by
  cases ht with
  | none => exact h
  | @wake w idle hw _ _ => exact h.afterWake (hidle w (by simp [hw])).1

theorem placement {now : Time} (h : s.HandedSafe) (hinv : s.Inv) (hp : Placement s t now s') :
    s'.HandedSafe := by
  cases hp with
  | @handOver w idle s₁ hidle htimeout =>
      have hw := (hinv.idleWaits w (by simp [hidle])).1
      have hrest : { s.afterWake w idle (some t) with handed := t :: s.handed }.IdleWaits :=
        hinv.idleWaits_afterWake hidle (some t)
      have hsafe : s₁.HandedSafe := (h.handOver hw).timeout hrest htimeout
      exact hsafe
  | @create w unused _ hunused =>
      have hw := (hinv.mem_unused w).mp (by simp [hunused])
      exact h.update (by simp [hw]) rfl rfl (List.Subset.refl _)
  | queue | waitRoom | waitTaken => exact h.congr rfl rfl rfl

theorem destroy (h : s.HandedSafe) (hinv : s.Inv) (hd : Destroy s s') : s'.HandedSafe := by
  cases hd with
  | @join w idle hidle =>
      have hwoken : (s.afterWake w idle none).HandedSafe :=
        h.afterWake (hinv.idleWaits w (by simp [hidle])).1
      exact hwoken
  | wait | done => exact h.congr rfl rfl rfl

/-- Every step without a spurious wake-up keeps the handed tasks safe. -/
theorem step (h : s.HandedSafe) (hinv : s.Inv) {a : Action cfg} (ha : Signalled s a)
    (hs : step s a = some s') : s'.HandedSafe := by
  cases hinv.step_cases ha hs with
  | runInCaller =>
      intro t ht
      exact (h t ht).imp_left (List.mem_cons_of_mem _)
  | runTask _ hm hp => exact placement (by exact h) (by exact { hinv with }) hp
  | checkIdleThreadTimeout hm ht => exact h.timeout hinv.idleWaits ht
  | destroy _ hm hd => exact h.destroy hinv hd
  | resumeRoom hm hp => exact placement (by exact h) (hinv.unblock (by rw [hm]; rfl)) hp
  | joined hm _ hd => exact destroy (by exact h) (by exact { hinv with }) hd
  | destroyNothing | resumeStart | resumeTaken | resumeCleanup | destroyPool =>
      exact h.congr rfl rfl rfl
  | threadStarts hplace _ =>
      exact h.update (by simp [hplace]) rfl rfl (List.subset_cons_self _ _)
  | callbackReturns hplace | lastExit hplace | exit hplace | sleep hplace =>
      exact h.update (by simp [hplace]) rfl rfl (List.Subset.refl _)
  | findWork hplace ht => exact (h.take ht).run (by rw [ht.worker_eq]; simp [hplace])
  | wakeTask hplace htask => exact h.run fun _ ↦ .inr htask
  | wakeFindWork hplace htask ht =>
      exact (h.take ht).run fun _ ↦ .inl (by rw [ht.worker_eq, htask])
  | wakeExit hplace htask => exact h.update (fun _ ↦ htask) rfl rfl (List.Subset.refl _)

end HandedSafe

theorem handedSafe_of_reach {s : Pool cfg} (h : Reach step Signalled (create cfg) s) :
    s.HandedSafe :=
  h.invariant_of (fun hr ↦ inv_of_reach (fun _ _ ha ↦ ha) hr) (fun t ht ↦ by cases ht)
    fun hinv hsafe ha hs ↦ hsafe.step hinv ha hs

theorem Inv.idleSound {s : Pool cfg} (h : s.Inv) (hsafe : s.HandedSafe) : s.IdleSound := by
  refine ⟨?_, fun w hw ↦ (h.mem_idle w).mp hw, hsafe⟩
  rintro w ⟨hidle, hunused⟩
  have hplace := (h.mem_idle w).mp hidle
  exact absurd ((h.mem_unused w).mp hunused) (by simp [hplace])

/-- A worker that returns from its idle wait without a signal stays on the idle
list, although it no longer waits. -/
theorem not_idleSound_of_spuriousWake {s s' : Pool cfg} {w : WorkerId cfg}
    (h : s.Inv) (hs : step s (.spuriousWake w) = some s') : ¬ s'.IdleSound := by
  obtain ⟨hplace, hs⟩ := Option.ite_none_right_eq_some.mp hs
  cases hs
  intro hsound
  have hwait := hsound.waiting w ((h.mem_idle w).mpr hplace)
  simp [setWorker] at hwait

/-- **The idle list is sound as long as no idle wait returns without a signal**,
and the first that does makes it unsound. -/
theorem idleSound_of_reach {s : Pool cfg} (h : Reach step Signalled (create cfg) s) :
    s.IdleSound ∧ ∀ w s', step s (.spuriousWake w) = some s' → ¬ s'.IdleSound :=
  have hinv := inv_of_reach (fun _ _ ha ↦ ha) h
  ⟨hinv.idleSound (handedSafe_of_reach h), fun _ _ hs ↦ not_idleSound_of_spuriousWake hinv hs⟩

/-- A pool with one thread, which idles for a second, and one slot in the queue. -/
abbrev oneThread : Config := ⟨1, 1, 1000, Config.second_ge⟩

/-- The worker goes idle, is popped for the second task, runs it and goes idle again; then it
wakes without a signal. -/
theorem idleSound_of_reach_oneThread :
    ∃ s, (Reach step Signalled (create oneThread) s ∧
        (s.handed = [⟨1, 0, 1⟩] ∧ (s.worker 0).place = .woken ∧ s.started = [⟨0, 0, 0⟩])) ∧
      s.IdleSound ∧
      ∃ s', (Reach step Signalled s s' ∧
          (s'.handed = [⟨1, 0, 1⟩] ∧ s'.started = [⟨1, 0, 1⟩, ⟨0, 0, 0⟩] ∧ s'.idle = [0])) ∧
        s'.IdleSound ∧ ∃ s'', step s' (.spuriousWake 0) = some s'' ∧ ¬ s''.IdleSound := by
  obtain ⟨s, hs, s', hr', hs', hwaits⟩ : ∃ s, (Reach step Signalled (create oneThread) s ∧
      (s.handed = [⟨1, 0, 1⟩] ∧ (s.worker 0).place = .woken ∧ s.started = [⟨0, 0, 0⟩])) ∧
      ∃ s', Reach step Signalled s s' ∧ (s'.handed = [⟨1, 0, 1⟩] ∧
        s'.started = [⟨1, 0, 1⟩, ⟨0, 0, 0⟩] ∧ s'.idle = [0]) ∧ (s'.worker 0).place = .waiting :=
    exists_reach_reach_of_exec
      [.runTask 0 0 0, .threadStarts 0, .resume 0, .callbackReturns 0, .looksForWork 0 0,
        .runTask 1 0 0]
      [.wakes 0, .callbackReturns 0, .looksForWork 0 0] (by decide)
  obtain ⟨hsound, hwake⟩ := idleSound_of_reach (hs.1.trans hr')
  obtain ⟨s'', hs''⟩ : ∃ s'', step s' (.spuriousWake 0) = some s'' := ⟨_, if_pos hwaits⟩
  exact ⟨s, hs, (idleSound_of_reach hs.1).1, s', ⟨hr', hs'⟩, hsound, s'', hs'', hwake 0 s'' hs''⟩

/-- The only thread goes idle, wakes without a signal and exits. -/
def spuriousExit : List (Action oneThread) :=
  [.runTask 0 0 0, .threadStarts 0, .resume 0, .callbackReturns 0, .looksForWork 0 0,
    .spuriousWake 0, .wakes 0]

/-- After a spurious wake-up the worker is idle and unused at once, and the next
task is handed to a worker struct without a thread. -/
theorem spuriousWake_loses_task :
    (¬ ∀ s, Reach step Any (create oneThread) s → ∀ w, ¬ (w ∈ s.idle ∧ w ∈ s.unused)) ∧
      ¬ ∀ s, Reach step Any (create oneThread) s → s.HandedSafe := by
  have hboth : ∃ s, Reach step Any (create oneThread) s ∧ s.idle = [0] ∧ s.unused = [0] :=
    exists_reach_of_exec_decide spuriousExit (by decide)
  have hlost : ∃ s, Reach step Any (create oneThread) s ∧ ⟨1, 0, 1⟩ ∈ s.handed ∧
      ⟨1, 0, 1⟩ ∉ s.started ∧ (s.worker 0).place = .noThread :=
    exists_reach_of_exec_decide (spuriousExit ++ [.runTask 1 0 0]) (by decide)
  constructor
  · intro h
    obtain ⟨s, hr, hidle, hunused⟩ := hboth
    exact h s hr 0 (by simp [hidle, hunused])
  · intro h
    obtain ⟨s, hr, hhanded, hstarted, hplace⟩ := hlost
    rcases h s hr _ hhanded with hs | ⟨w, hw, -⟩
    · exact hstarted hs
    · rw [Subsingleton.elim w 0, hplace] at hw
      cases hw

end Pool

end Tidbits.ThreadPool
