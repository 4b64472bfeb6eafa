import Tidbits.ThreadPool.Preservation
import Tidbits.ThreadPool.WorkerLists
import Tidbits.Transition.Observed

/-!
# The order of the idle list

A worker that goes idle notes the time and is pushed at the top, and the idle
timeout pulls from the bottom.  With a clock that does not run backwards the idle
list is ordered by these times, so the timeout takes a worker that has been idle
longest: `Pool.workerLists_refine`.

What a step does to the two lists is said once, by `ListMove`, and without the
invariant of the pool: that a worker is pushed only when it is in no list is what
the runs are asked for.
-/

namespace Tidbits.ThreadPool

open Tidbits.Sequence Tidbits.Transition

variable {cfg : Config}

/-- The reading of the clock that a step is given. -/
def Action.clock : Action cfg → Option Time
  | .runTask _ _ now | .checkIdleThreadTimeout now | .resume now | .looksForWork _ now => some now
  | _ => none

/-- The last reading of the clock. -/
def lastReading (_ : Pool cfg) (a : Action cfg) (t : Time) : Time := a.clock.getD t

namespace Pool

/-- The two lists of the pool. -/
def lists (s : Pool cfg) : PoolList → List (WorkerId cfg) := PoolList.lists s.idle s.unused

/-- The step pushes a worker only when it is in no list. -/
def PushesNew (s : Pool cfg) (a : Action cfg) : Prop :=
  ∀ s' ∈ step s a, ∀ w, s'.idle = w :: s.idle ∨ s'.unused = w :: s.unused →
    w ∉ s.idle ∧ w ∉ s.unused

/-- Workers that are pushed are in no list, and the clock does not run backwards. -/
def Orderly (p : Pool cfg × Time) (a : Action cfg) : Prop :=
  p.1.PushesNew a ∧ ∀ now ∈ a.clock, p.2 ≤ now

instance (s : Pool cfg) (a : Action cfg) : Decidable (s.PushesNew a) :=
  inferInstanceAs (Decidable (∀ s' ∈ step s a, ∀ w, s'.idle = w :: s.idle ∨
    s'.unused = w :: s.unused → w ∉ s.idle ∧ w ∉ s.unused))

instance : DecidableRel (@Orderly cfg) := fun p a ↦
  inferInstanceAs (Decidable (p.1.PushesNew a ∧ ∀ now ∈ a.clock, p.2 ≤ now))

variable {s t s' : Pool cfg} {w v : WorkerId cfg} {a : Action cfg} {now : Time}

/-! ## What a step does to the lists -/

/-- Two states with the same times of all workers. -/
def SameTimes (s s' : Pool cfg) : Prop :=
  ∀ v, (s'.worker v).lastWorkTime = (s.worker v).lastWorkTime

/-- Two states with the same lists and times. -/
structure SameLists (s s' : Pool cfg) : Prop where
  idle : s'.idle = s.idle
  unused : s'.unused = s.unused
  times : s.SameTimes s'

theorem SameLists.refl (s : Pool cfg) : s.SameLists s := ⟨rfl, rfl, fun _ ↦ rfl⟩

theorem SameLists.trans (h : s.SameLists t) (h' : t.SameLists s') : s.SameLists s' :=
  ⟨h'.idle.trans h.idle, h'.unused.trans h.unused, fun v ↦ (h'.times v).trans (h.times v)⟩

/-- What a step may do to the lists and the times. -/
inductive ListMove (s : Pool cfg) (a : Action cfg) (s' : Pool cfg) : Prop
  | keeps (h : s.SameLists s')
  | sleeps (w : WorkerId cfg) (now : Time) (ha : a.clock = some now)
      (hidle : s'.idle = w :: s.idle) (hunused : s'.unused = s.unused)
      (htimes : ∀ v ≠ w, (s'.worker v).lastWorkTime = (s.worker v).lastWorkTime)
      (htime : (s'.worker w).lastWorkTime =
        if 0 < cfg.maxIdleTime then now else (s.worker w).lastWorkTime)
  | exits (w : WorkerId cfg) (hidle : s'.idle = s.idle) (hunused : s'.unused = w :: s.unused)
      (htimes : s.SameTimes s')
  | creates (w : WorkerId cfg) (hidle : s'.idle = s.idle) (hunused : s.unused = w :: s'.unused)
      (htimes : s.SameTimes s')
  /-- An idle worker gets a task. -/
  | hands (w : WorkerId cfg) (hidle : s.idle = w :: s'.idle) (hunused : s'.unused = s.unused)
      (htimes : s.SameTimes s') (htask : (s'.worker w).task ≠ none)
  /-- An idle worker gets a task, and the idle timeout takes another one. -/
  | handsAndPulls (w v : WorkerId cfg) (hidle : s.idle = w :: (s'.idle ++ [v]))
      (hunused : s'.unused = s.unused) (htimes : s.SameTimes s')
      (htask : (s'.worker w).task ≠ none)
  /-- The idle timeout takes a worker. -/
  | pulls (v : WorkerId cfg) (hidle : s.idle = s'.idle ++ [v]) (hunused : s'.unused = s.unused)
      (htimes : s.SameTimes s')
  /-- `poThreadPool_destroy` wakes a worker. -/
  | pops (w : WorkerId cfg) (ha : a = .destroy ∨ a = .joined) (hidle : s.idle = w :: s'.idle)
      (hunused : s'.unused = s.unused) (htimes : s.SameTimes s')

theorem sameTimes_of_update {x : Worker} (hworker : s'.worker = Function.update s.worker w x)
    (hx : x.lastWorkTime = (s.worker w).lastWorkTime) : s.SameTimes s' := by
  intro v
  rw [hworker]
  by_cases hv : v = w
  · rw [hv, Function.update_self, hx]
  · rw [Function.update_of_ne hv]

theorem sameLists_setWorker {x : Worker} (hx : x.lastWorkTime = (s.worker w).lastWorkTime) :
    s.SameLists (s.setWorker w x) := ⟨rfl, rfl, sameTimes_of_update rfl hx⟩

theorem sameLists_dassert (s : Pool cfg) (p : Prop) [Decidable p] : s.SameLists (s.dassert p) :=
  ⟨rfl, rfl, fun _ ↦ rfl⟩

theorem sameLists_signal (s : Pool cfg) : s.SameLists s.signal := ⟨rfl, rfl, fun _ ↦ rfl⟩

theorem sameLists_signalWorker (s : Pool cfg) (w : WorkerId cfg) :
    s.SameLists (s.signalWorker w) := by
  unfold signalWorker
  split
  · exact sameLists_setWorker rfl
  · exact .refl s

theorem sameLists_run (s : Pool cfg) (w : WorkerId cfg) (t : Task) : s.SameLists (s.run w t) :=
  (sameLists_setWorker (x := { s.worker w with place := .running t }) rfl).trans
    ⟨rfl, rfl, fun _ ↦ rfl⟩

theorem sameLists_lookForWork (s : Pool cfg) : s.SameLists s.lookForWork.2 := by
  unfold lookForWork
  split
  · dsimp only
    split
    · split <;> split <;> exact ⟨rfl, rfl, fun _ ↦ rfl⟩
    · exact ⟨rfl, rfl, fun _ ↦ rfl⟩
  · split <;> exact ⟨rfl, rfl, fun _ ↦ rfl⟩

/-- A signal changes no task. -/
theorem task_signalWorker (s : Pool cfg) (w v : WorkerId cfg) :
    ((s.signalWorker w).worker v).task = (s.worker v).task := by
  unfold signalWorker
  split
  · by_cases hv : v = w
    · subst hv
      simp [setWorker]
    · simp [setWorker, hv]
  · rfl

/-- `_poThreadPool_checkThreadTimeout` takes the worker at the bottom, or none. -/
theorem checkThreadTimeout_move (s : Pool cfg) (now : Time) :
    s.SameTimes (s.checkThreadTimeout now) ∧ (s.checkThreadTimeout now).unused = s.unused ∧
      (∀ w, ((s.checkThreadTimeout now).worker w).task = (s.worker w).task) ∧
      ((s.checkThreadTimeout now).idle = s.idle ∨
        ∃ v, s.idle = (s.checkThreadTimeout now).idle ++ [v]) := by
  unfold checkThreadTimeout
  split_ifs
  · exact ⟨fun _ ↦ rfl, rfl, fun _ ↦ rfl, .inl rfl⟩
  · cases hpull : ThreadPool.listPull s.idle with
    | none => exact ⟨fun _ ↦ rfl, rfl, fun _ ↦ rfl, .inl rfl⟩
    | some r =>
        dsimp only
        split_ifs
        · have hsignal := sameLists_signalWorker
            (dassert { s with idle := r.2 } ((s.worker r.1).task = none)) r.1
          refine ⟨hsignal.times, hsignal.unused, task_signalWorker _ r.1, .inr ⟨r.1, ?_⟩⟩
          rw [hsignal.idle]
          exact listPull_eq_some.mp hpull
        · exact ⟨fun _ ↦ rfl, rfl, fun _ ↦ rfl, .inl rfl⟩
  · exact ⟨fun _ ↦ rfl, rfl, fun _ ↦ rfl, .inl rfl⟩

/-- The worker that is handed a task has it. -/
theorem handOver_move (s : Pool cfg) (w : WorkerId cfg) (t : Task) :
    s.SameLists (s.handOver w t) ∧ ((s.handOver w t).worker w).task ≠ none := by
  unfold handOver
  refine ⟨?_, by simp [setWorker]⟩
  exact ((sameLists_signalWorker s w).trans
    (sameLists_setWorker (x := { (s.signalWorker w).worker w with task := some t }) rfl)).trans
    ⟨rfl, rfl, fun _ ↦ rfl⟩

/-- The loop of `poThreadPool_runTask`. -/
theorem runTaskLoop_move (s : Pool cfg) (a : Action cfg) (t : Task) (now : Time) :
    s.ListMove a (s.runTaskLoop t now) := by
  unfold runTaskLoop
  split
  · rename_i w idle hpop
    have hidle : s.idle = w :: idle := by
      split_ifs at hpop
      exact listPop_eq_some.mp hpop
    obtain ⟨hlists, htask⟩ := handOver_move { s with idle := idle } w t
    dsimp only
    split_ifs
    · obtain ⟨htimes, hunused, htasks, hpull⟩ :=
        checkThreadTimeout_move ({ s with idle := idle }.handOver w t) now
      have htimes' : s.SameTimes _ := fun v ↦ (htimes v).trans (hlists.times v)
      have hunused' := hunused.trans hlists.unused
      have htask' := htasks w ▸ htask
      rcases hpull with hpull | ⟨v, hpull⟩
      · exact .hands w (by rw [hidle, hpull, hlists.idle]) hunused' htimes' htask'
      · exact .handsAndPulls w v (by rw [hidle, ← hpull, hlists.idle]) hunused' htimes' htask'
    · exact .hands w (by rw [hidle, hlists.idle]) hlists.unused hlists.times htask
  · split
    · rename_i w unused hpop
      exact .creates w rfl (listPop_eq_some.mp hpop) (sameTimes_of_update rfl rfl)
    · dsimp only
      split_ifs
      · split <;> exact .keeps ⟨rfl, rfl, fun _ ↦ rfl⟩
      · exact .keeps ⟨rfl, rfl, fun _ ↦ rfl⟩

/-- Seen from a state with the same lists. -/
theorem ListMove.of_sameLists (h : s.SameLists t) (hm : t.ListMove a s') : s.ListMove a s' := by
  have htimes : t.SameTimes s' → s.SameTimes s' := fun ht v ↦ (ht v).trans (h.times v)
  cases hm with
  | keeps h' => exact .keeps (h.trans h')
  | sleeps w now ha hidle hunused ht htime =>
      exact .sleeps w now ha (h.idle ▸ hidle) (hunused.trans h.unused)
        (fun v hv ↦ (ht v hv).trans (h.times v)) (htime.trans (by rw [h.times w]))
  | exits w hidle hunused ht =>
      exact .exits w (hidle.trans h.idle) (h.unused ▸ hunused) (htimes ht)
  | creates w hidle hunused ht =>
      exact .creates w (hidle.trans h.idle) (h.unused ▸ hunused) (htimes ht)
  | hands w hidle hunused ht htask =>
      exact .hands w (h.idle ▸ hidle) (hunused.trans h.unused) (htimes ht) htask
  | handsAndPulls w v hidle hunused ht htask =>
      exact .handsAndPulls w v (h.idle ▸ hidle) (hunused.trans h.unused) (htimes ht) htask
  | pulls v hidle hunused ht => exact .pulls v (h.idle ▸ hidle) (hunused.trans h.unused) (htimes ht)
  | pops w ha hidle hunused ht =>
      exact .pops w ha (h.idle ▸ hidle) (hunused.trans h.unused) (htimes ht)

/-- The end of `workerCallback`. -/
theorem exit_move (s : Pool cfg) (a : Action cfg) (w : WorkerId cfg) : s.ListMove a (s.exit w) := by
  have hworker : (s.exit w).worker =
      Function.update s.worker w { s.worker w with place := .noThread } := by
    unfold exit
    dsimp only
    split <;> rfl
  have hidle : (s.exit w).idle = s.idle := by
    unfold exit
    dsimp only
    split <;> rfl
  have hunused : (s.exit w).unused = w :: s.unused := by
    unfold exit
    dsimp only
    split <;> rfl
  exact .exits w hidle hunused (sameTimes_of_update hworker rfl)

/-- A worker goes idle. -/
theorem sleep_move (s : Pool cfg) (w : WorkerId cfg) (ha : a.clock = some now) :
    s.ListMove a (s.sleep w now) :=
  .sleeps w now ha rfl rfl (fun v hv ↦ by simp [sleep, setWorker, dassert, hv])
    (by simp [sleep, setWorker, dassert])

/-- The loop of `workerCallback` after the user callback. -/
theorem looksForWork_move (s : Pool cfg) (w : WorkerId cfg) (ha : a.clock = some now) :
    s.ListMove a (s.looksForWork w now) := by
  have hlook := sameLists_lookForWork s
  unfold looksForWork
  generalize s.lookForWork = r at hlook
  split
  · exact .keeps (hlook.trans (sameLists_run _ w _))
  · refine .of_sameLists hlook ?_
    split_ifs
    · exact .of_sameLists (sameLists_signal _) (exit_move _ a w)
    · exact exit_move _ a w
    · exact sleep_move _ w ha
    · exact exit_move _ a w

/-- The loop of `workerCallback` after the idle wait. -/
theorem wakes_move (s : Pool cfg) (a : Action cfg) (w : WorkerId cfg) :
    s.ListMove a (s.wakes w) := by
  have hlook := sameLists_lookForWork s
  unfold wakes
  generalize s.lookForWork = r at hlook
  split
  · exact .keeps (sameLists_run s w _)
  · split
    · exact .keeps (hlook.trans (sameLists_run _ w _))
    · exact .of_sameLists hlook (exit_move _ a w)

/-- The loop of `poThreadPool_destroy`. -/
theorem destroyIdle_move (s : Pool cfg) (ha : a = .destroy ∨ a = .joined) :
    s.ListMove a s.destroyIdle := by
  unfold destroyIdle
  split
  · rename_i w idle hpop
    have hidle : s.idle = w :: idle := by
      split_ifs at hpop
      exact listPop_eq_some.mp hpop
    let popped : Pool cfg := { s with idle := idle, detachThread := false }
    have hset : popped.SameLists _ :=
      (sameLists_setWorker (x := { popped.worker w with task := none }) rfl).trans
        (sameLists_signalWorker _ w)
    exact .pops w ha (hidle.trans (congrArg (List.cons w) hset.idle.symm)) hset.unused hset.times
  · unfold destroyWait
    dsimp only
    split_ifs <;> exact .keeps ⟨rfl, rfl, fun _ ↦ rfl⟩

theorem sameLists_assertIdleOrQueueEmpty (s : Pool cfg) : s.SameLists s.assertIdleOrQueueEmpty := by
  unfold assertIdleOrQueueEmpty
  split
  · exact sameLists_dassert s _
  · exact .refl s

theorem resume_move (hs : s.resume now = some s') (a : Action cfg) : s.ListMove a s' := by
  unfold resume at hs
  split at hs
  · cases hs
    exact .keeps ⟨rfl, rfl, fun _ ↦ rfl⟩
  · cases hs
    refine .of_sameLists ?_ (runTaskLoop_move _ a _ now)
    exact ⟨rfl, rfl, fun _ ↦ rfl⟩
  · cases hs
    exact .keeps ⟨rfl, rfl, fun _ ↦ rfl⟩
  · cases hs
    exact .keeps ⟨rfl, rfl, fun _ ↦ rfl⟩
  · cases hs

theorem checkIdleThreadTimeout_move (s : Pool cfg) (a : Action cfg) (now : Time) :
    s.ListMove a (s.checkIdleThreadTimeout now) := by
  unfold checkIdleThreadTimeout
  split_ifs
  · have hassert := (sameLists_assertIdleOrQueueEmpty s).trans
      (sameLists_dassert _ (s.assertIdleOrQueueEmpty.numThreads ≤ cfg.maxNumThreads))
    refine .of_sameLists hassert ?_
    have hmove := checkThreadTimeout_move (s.assertIdleOrQueueEmpty.dassert
      (s.assertIdleOrQueueEmpty.numThreads ≤ cfg.maxNumThreads)) now
    obtain ⟨htimes, hunused, -, hidle | ⟨v, hidle⟩⟩ := hmove
    · exact .keeps ⟨hidle, hunused, htimes⟩
    · exact .pulls v hidle hunused htimes
  · exact .keeps (.refl s)

theorem runTask_move (s : Pool cfg) (a : Action cfg) (userCallback userData : ℕ) (now : Time) :
    s.ListMove a (s.runTask userCallback userData now) := by
  unfold runTask
  dsimp only
  split_ifs
  · exact .keeps ⟨rfl, rfl, fun _ ↦ rfl⟩
  · let submitted : Pool cfg :=
      { s with submitted := s.newTask userCallback userData :: s.submitted }
    have hsubmitted : s.SameLists submitted := ⟨rfl, rfl, fun _ ↦ rfl⟩
    refine .of_sameLists (hsubmitted.trans (sameLists_assertIdleOrQueueEmpty submitted)) ?_
    exact .of_sameLists (sameLists_dassert _ _) (runTaskLoop_move _ a _ now)

/-- **What a step does to the lists.** -/
theorem ListMove.of_step (hs : step s a = some s') : s.ListMove a s' := by
  unfold step at hs
  split at hs
  · split_ifs at hs
    cases hs
    exact runTask_move s _ _ _ _
  · split_ifs at hs
    cases hs
    exact checkIdleThreadTimeout_move s _ _
  · split_ifs at hs
    cases hs
    unfold destroy
    split_ifs
    · exact .keeps ⟨rfl, rfl, fun _ ↦ rfl⟩
    · exact .of_sameLists (sameLists_assertIdleOrQueueEmpty s) (destroyIdle_move _ (.inl rfl))
  · exact resume_move hs _
  · split at hs
    · split_ifs at hs
      cases hs
      refine .of_sameLists ?_ (destroyIdle_move _ (.inr rfl))
      exact ⟨rfl, rfl, fun _ ↦ rfl⟩
    · cases hs
  · split_ifs at hs
    cases hs
    exact .keeps ⟨rfl, rfl, fun _ ↦ rfl⟩
  · split at hs
    · cases hs
      have hstart : s.SameLists { s with numThreads := s.numThreads + 1 } :=
        ⟨rfl, rfl, fun _ ↦ rfl⟩
      have hassert := hstart.trans (sameLists_dassert _ (s.numThreads + 1 ≤ cfg.maxNumThreads))
      exact .keeps (hassert.trans ((sameLists_signal _).trans (sameLists_run _ _ _)))
    · cases hs
  · split at hs
    · cases hs
      exact .keeps ⟨rfl, rfl, sameTimes_of_update rfl rfl⟩
    · cases hs
  · split_ifs at hs
    cases hs
    exact looksForWork_move s _ rfl
  · split_ifs at hs
    cases hs
    exact wakes_move s _ _
  · split_ifs at hs
    cases hs
    exact .keeps ⟨rfl, rfl, sameTimes_of_update rfl rfl⟩

/-- It makes calls of the list functions, and these are legal if it pushes workers that are in no
list. -/
theorem exists_calls (hnew : s.PushesNew a) (hs : step s a = some s') :
    ∃ cs, Legal Deques.call Deques.PushesNew s.lists cs ∧
      (calls Deques.call s.lists cs).2 = s'.lists := by
  have hpush : ∀ w, s'.idle = w :: s.idle ∨ s'.unused = w :: s.unused → ∀ i, w ∉ s.lists i := by
    intro w hw i
    cases i with
    | idle => exact (hnew s' hs w hw).1
    | unused => exact (hnew s' hs w hw).2
  cases ListMove.of_step hs with
  | keeps h =>
      refine ⟨[], trivial, ?_⟩
      rw [calls_nil, lists, lists, h.idle, h.unused]
  | sleeps w now ha hidle hunused =>
      refine ⟨[.listPush .idle w], ⟨hpush w (.inl hidle), trivial⟩, ?_⟩
      simp [Deques.call, lists, PoolList.lists, ThreadPool.listPush, hidle, hunused]
  | exits w hidle hunused =>
      refine ⟨[.listPush .unused w], ⟨hpush w (.inr hunused), trivial⟩, ?_⟩
      simp [Deques.call, lists, PoolList.lists, ThreadPool.listPush, hidle, hunused]
  | creates w hidle hunused =>
      refine ⟨[.listPop .unused], ⟨trivial, trivial⟩, ?_⟩
      simp [Deques.call, lists, PoolList.lists, ThreadPool.listPop, hidle, hunused]
  | hands w hidle hunused | pops w _ hidle hunused =>
      refine ⟨[.listPop .idle], ⟨trivial, trivial⟩, ?_⟩
      simp [Deques.call, lists, PoolList.lists, ThreadPool.listPop, hidle, hunused]
  | handsAndPulls w v hidle hunused =>
      refine ⟨[.listPop .idle, .listPull .idle], ⟨trivial, trivial, trivial⟩, ?_⟩
      simp [Deques.call, lists, PoolList.lists, ThreadPool.listPop, ThreadPool.listPull, hidle,
        hunused]
  | pulls v hidle hunused =>
      refine ⟨[.listPull .idle], ⟨trivial, trivial⟩, ?_⟩
      simp [Deques.call, lists, PoolList.lists, ThreadPool.listPull, hidle, hunused]

/-! ## The order -/

/-- The idle list is ordered by the times of its workers, the latest of which is at the top. -/
structure IdleOrdered (s : Pool cfg) (t : Time) : Prop where
  nodup : s.idle.Nodup
  sorted : s.idle.Pairwise fun v w ↦ (s.worker w).lastWorkTime ≤ (s.worker v).lastWorkTime
  le : 0 < cfg.maxIdleTime → ∀ w ∈ s.idle, (s.worker w).lastWorkTime ≤ t
  /-- Without a timeout no time is noted. -/
  zero : ¬ 0 < cfg.maxIdleTime → ∀ w, (s.worker w).lastWorkTime = 0

namespace IdleOrdered

variable {t t' : Time}

theorem create (cfg : Config) (t : Time) : (create cfg).IdleOrdered t where
  nodup := List.nodup_nil
  sorted := .nil
  le _ _ hw := absurd hw List.not_mem_nil
  zero _ _ := rfl

/-- Workers leave, and time passes. -/
theorem of_sublist (h : s.IdleOrdered t) (hsub : s'.idle.Sublist s.idle) (htimes : s.SameTimes s')
    (ht : t ≤ t') : s'.IdleOrdered t' where
  nodup := h.nodup.sublist hsub
  sorted := (h.sorted.sublist hsub).imp fun hle ↦ by rwa [htimes, htimes]
  le hpos w hw := by
    rw [htimes]
    exact (h.le hpos w (hsub.subset hw)).trans ht
  zero hpos w := (htimes w).trans (h.zero hpos w)

/-- A worker that is not in the list goes idle. -/
theorem push (h : s.IdleOrdered t) (hw : w ∉ s.idle) (hidle : s'.idle = w :: s.idle)
    (htimes : ∀ v ≠ w, (s'.worker v).lastWorkTime = (s.worker v).lastWorkTime)
    (htime : (s'.worker w).lastWorkTime =
      if 0 < cfg.maxIdleTime then now else (s.worker w).lastWorkTime)
    (hnow : t ≤ now) : s'.IdleOrdered now := by
  have hne : ∀ v ∈ s.idle, v ≠ w := by
    rintro v hv rfl
    exact hw hv
  have hold : ∀ v ∈ s.idle, (s'.worker v).lastWorkTime = (s.worker v).lastWorkTime :=
    fun v hv ↦ htimes v (hne v hv)
  have hsorted : s.idle.Pairwise fun v w ↦
      (s'.worker w).lastWorkTime ≤ (s'.worker v).lastWorkTime :=
    h.sorted.imp_of_mem fun hv hv' hle ↦ by rwa [hold _ hv, hold _ hv']
  have hzero : ¬ 0 < cfg.maxIdleTime → ∀ v, (s'.worker v).lastWorkTime = 0 := by
    intro hpos v
    by_cases hv : v = w
    · rw [hv, htime, if_neg hpos, h.zero hpos]
    · rw [htimes v hv, h.zero hpos]
  refine ⟨?_, ?_, ?_, hzero⟩
  · rw [hidle]
    exact List.nodup_cons.mpr ⟨hw, h.nodup⟩
  · rw [hidle]
    refine List.pairwise_cons.mpr ⟨fun v hv ↦ ?_, hsorted⟩
    by_cases hpos : 0 < cfg.maxIdleTime
    · rw [hold v hv, htime, if_pos hpos]
      exact (h.le hpos v hv).trans hnow
    · rw [hzero hpos, hzero hpos]
  · intro hpos v hv
    rw [hidle] at hv
    rcases List.mem_cons.mp hv with rfl | hv
    · rw [htime, if_pos hpos]
    · rw [hold v hv]
      exact (h.le hpos v hv).trans hnow

theorem step (h : s.IdleOrdered t) (ha : Orderly (s, t) a) (hs : ThreadPool.step s a = some s') :
    s'.IdleOrdered (lastReading s a t) := by
  have hclock : t ≤ lastReading s a t := by
    unfold lastReading
    cases hnow : a.clock with
    | none => exact Int.le_refl t
    | some now => exact ha.2 now hnow
  cases ListMove.of_step hs with
  | keeps h' => exact h.of_sublist (h'.idle ▸ .refl _) h'.times hclock
  | sleeps w now hnow hidle hunused htimes htime =>
      have hlast : lastReading s a t = now := by rw [lastReading, hnow, Option.getD_some]
      rw [hlast] at hclock ⊢
      exact h.push (ha.1 s' hs w (.inl hidle)).1 hidle htimes htime hclock
  | exits w hidle _ htimes | creates w hidle _ htimes =>
      exact h.of_sublist (hidle ▸ .refl _) htimes hclock
  | hands w hidle _ htimes | pops w _ hidle _ htimes =>
      exact h.of_sublist (hidle ▸ List.sublist_cons_self _ _) htimes hclock
  | handsAndPulls w v hidle _ htimes =>
      refine h.of_sublist (hidle ▸ ?_) htimes hclock
      exact (List.sublist_append_left _ _).trans (List.sublist_cons_self _ _)
  | pulls v hidle _ htimes =>
      exact h.of_sublist (hidle ▸ List.sublist_append_left _ _) htimes hclock

/-- The worker at the bottom has been idle longest. -/
theorem le_of_bottom (h : s.IdleOrdered t) {l : List (WorkerId cfg)} (hl : s.idle = l ++ [w]) :
    ∀ v ∈ s.idle, (s.worker w).lastWorkTime ≤ (s.worker v).lastWorkTime := by
  have hsorted := h.sorted
  intro v hv
  rw [hl] at hsorted hv
  rcases List.mem_append.mp hv with hv | hv
  · exact (List.pairwise_append.mp hsorted).2.2 v hv w List.mem_cons_self
  · rw [List.mem_singleton.mp hv]

/-- A worker that leaves the idle list without a task, and not because the pool is destroyed, was
taken by the idle timeout. -/
theorem le_of_taken (h : s.IdleOrdered t) (hs : ThreadPool.step s a = some s')
    (ha : a ≠ .destroy ∧ a ≠ .joined) (hw : w ∈ s.idle) (hw' : w ∉ s'.idle)
    (htask : (s'.worker w).task = none) :
    ∀ v ∈ s.idle, (s.worker w).lastWorkTime ≤ (s.worker v).lastWorkTime := by
  cases ListMove.of_step hs with
  | keeps h' => exact absurd (h'.idle ▸ hw) hw'
  | sleeps w₁ now _ hidle => exact absurd (hidle ▸ List.mem_cons_of_mem _ hw) hw'
  | exits w₁ hidle | creates w₁ hidle => exact absurd (hidle ▸ hw) hw'
  | hands w₁ hidle _ _ htask' =>
      rw [hidle] at hw
      rcases List.mem_cons.mp hw with rfl | hw
      · exact absurd htask htask'
      · exact absurd hw hw'
  | handsAndPulls w₁ v₁ hidle _ _ htask' =>
      have hbottom : s.idle = (w₁ :: s'.idle) ++ [v₁] := hidle
      rw [hbottom] at hw
      rcases List.mem_append.mp hw with hw | hw
      · rcases List.mem_cons.mp hw with rfl | hw
        · exact absurd htask htask'
        · exact absurd hw hw'
      · rw [List.mem_singleton.mp hw]
        exact h.le_of_bottom hbottom
  | pulls v₁ hidle =>
      have hmem := hw
      rw [hidle] at hmem
      rcases List.mem_append.mp hmem with hmem | hmem
      · exact absurd hmem hw'
      · rw [List.mem_singleton.mp hmem]
        exact h.le_of_bottom hidle
  | pops w₁ hpops => exact absurd hpops (not_or_intro ha.1 ha.2)

end IdleOrdered

/-! ## Runs -/

/-- The lists are what legal calls have made of those of a new pool. -/
def Called (s : Pool cfg) : Prop :=
  ∃ cs, Legal Deques.call Deques.PushesNew (WorkerLists.created cfg.maxNumThreads) cs ∧
    (calls Deques.call (WorkerLists.created cfg.maxNumThreads) cs).2 = s.lists

/-- In an orderly run the idle list is ordered, and the calls of the list functions are legal. -/
theorem idleOrdered_of_reach {p : Pool cfg × Time} {t₀ : Time}
    (h : Reach (observed step lastReading) Orderly (create cfg, t₀) p) :
    p.1.IdleOrdered p.2 ∧ p.1.Called := by
  refine h.invariant (I := fun p ↦ p.1.IdleOrdered p.2 ∧ p.1.Called)
    ⟨.create cfg t₀, [], trivial, rfl⟩ ?_
  rintro ⟨s, t⟩ ⟨s', t'⟩ a ⟨hordered, cs, hcs, hlists⟩ ha hs
  obtain ⟨hstep, rfl⟩ := observed_eq_some.mp hs
  obtain ⟨cs', hcs', hlists'⟩ := exists_calls ha.1 hstep
  refine ⟨hordered.step ha hstep, cs ++ cs', ?_, ?_⟩
  · exact (legal_append cs cs').mpr ⟨hcs, hlists ▸ hcs'⟩
  · rw [calls_append, hlists, hlists']

/-- **The worker lists refine sequences, and the idle list is ordered.**  From an empty list and
from the chain of a new pool, the pointers answer as the sequences do and run through them in both
directions.  In a run of the pool that pushes workers only when they are in no list, with a clock
that does not run backwards, the lists are those of such calls, the idle list is ordered by the
times its workers have noted, and a worker that the idle timeout takes has been idle longest. -/
theorem workerLists_refine (cfg : Config) (t₀ : Time) :
    (∀ {ι α : Type} [DecidableEq ι] [DecidableEq α] (ls : WorkerLists ι α),
      (∀ i, ls.top i = none ∧ ls.bottom i = none) → ls.RefinesDeques fun _ ↦ []) ∧
    (∀ n, (WorkerLists.create n).RefinesDeques (WorkerLists.created n)) ∧
    ∀ s t, Reach (observed step lastReading) Orderly (create cfg, t₀) (s, t) →
      (∃ cs, Legal Deques.call Deques.PushesNew (WorkerLists.created cfg.maxNumThreads) cs ∧
        (calls WorkerLists.call (WorkerLists.create cfg.maxNumThreads) cs).2.Represents s.lists) ∧
      (s.idle.Pairwise fun v w ↦ (s.worker w).lastWorkTime ≤ (s.worker v).lastWorkTime) ∧
      ∀ a s' w, step s a = some s' → a ≠ .destroy ∧ a ≠ .joined → w ∈ s.idle → w ∉ s'.idle →
        (s'.worker w).task = none →
        ∀ v ∈ s.idle, (s.worker w).lastWorkTime ≤ (s.worker v).lastWorkTime := by
  have hcreate : ∀ n, (WorkerLists.create n).RefinesDeques (WorkerLists.created n) := fun n ↦
    (WorkerLists.represents_create n).refinesDeques
  refine ⟨fun ls hls ↦ (WorkerLists.Represents.empty hls).refinesDeques, hcreate, fun s t h ↦ ?_⟩
  obtain ⟨hordered, cs, hcs, hlists⟩ := idleOrdered_of_reach h
  refine ⟨⟨cs, hcs, ?_⟩, hordered.sorted, ?_⟩
  · rw [← hlists]
    exact (hcreate cfg.maxNumThreads cs hcs).2
  · intro a s' w hs ha hw hw' htask
    exact hordered.le_of_taken hs ha hw hw' htask

/-- Two workers go idle, and the one that did so first is at the bottom. -/
theorem workerLists_refine_twoGoIdle :
    ∃ s : Pool ⟨2, 1, 1000, Config.second_ge⟩, s.idle = [1, 0] ∧
      s.idle.Pairwise fun v w ↦ (s.worker w).lastWorkTime ≤ (s.worker v).lastWorkTime := by
  obtain ⟨p, hreach, hidle⟩ : ∃ p, Reach (observed step lastReading) Orderly
      (create ⟨2, 1, 1000, Config.second_ge⟩, 0) p ∧ p.1.idle = [1, 0] :=
    exists_reach_of_exec_decide
      [.runTask 0 0 0, .threadStarts 0, .resume 0, .runTask 0 0 1, .threadStarts 1, .resume 1,
        .callbackReturns 0, .looksForWork 0 2, .callbackReturns 1, .looksForWork 1 3]
      (by decide)
  exact ⟨p.1, hidle, ((workerLists_refine _ 0).2.2 p.1 p.2 hreach).2.1⟩

end Pool

end Tidbits.ThreadPool
