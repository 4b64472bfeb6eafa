import Mathlib.Data.List.Count
import Tidbits.ThreadPool.Destroy

/-!
# The threads that have exited

A worker thread detaches itself on its way out unless `poThreadPool_destroy` has
cleared `detachThread`, which it does while it joins the idle workers.  A worker
that the idle timeout has woken is in no list.  If it exits during that time, it
reads the flag that is meant for others, and nobody reclaims it.

`once_of_reach` shows that this is the only way for a thread to be lost, and
that no thread is reclaimed twice.
-/

namespace Tidbits.ThreadPool

open Tidbits.Transition

variable {cfg : Config}

namespace Pool

/-- How often the thread was reclaimed: it detached itself, or it was joined, or it is the target
of the `pthread_join` that is being called. -/
def reclaims (s : Pool cfg) (thread : ℕ) : ℕ :=
  s.detached.count thread + s.joined.count thread +
    if s.manager = .joining thread then 1 else 0

/-- A worker that leaves the idle wait without a task while `detachThread` is off is the one that
is being joined. -/
def LeaverJoined (s : Pool cfg) (w : WorkerId cfg) : Prop :=
  (s.worker w).task = none → s.detachThread = false → s.manager = .joining (s.worker w).thread

instance (s : Pool cfg) (w : WorkerId cfg) : Decidable (s.LeaverJoined w) :=
  inferInstanceAs (Decidable (_ → _ → _))

/-- Condition variables wake only when signalled, and a worker that leaves is joined if it does not
detach itself. -/
def JoinsLeavers (s : Pool cfg) (a : Action cfg) : Prop :=
  Signalled s a ∧ ∀ w, a = .wakes w → s.LeaverJoined w

instance : DecidableRel (@JoinsLeavers cfg) := fun s a ↦
  inferInstanceAs (Decidable (Signalled s a ∧ ∀ w, a = .wakes w → s.LeaverJoined w))

/-! ## The flag -/

/-- The flag is off while idle workers are joined, and then no task is queued. -/
structure Flagged (s : Pool cfg) : Prop where
  joining : ∀ thread, s.manager = .joining thread → s.detachThread = false ∧ s.queue.num = 0
  off : s.detachThread = false → ∃ thread, s.manager = .joining thread
  never : cfg.maxIdleTime = 0 → s.detachThread = true

namespace Flagged

variable {s s' : Pool cfg}

/-- Nothing of this changes, but tasks may be taken. -/
theorem of_same (h : s.Flagged)
    (hmanager : ∀ thread, s'.manager = .joining thread ↔ s.manager = .joining thread)
    (hdetach : s'.detachThread = s.detachThread)
    (hqueue : ∀ thread, s'.manager = .joining thread → s.queue.num = 0 → s'.queue.num = 0) :
    s'.Flagged where
  joining := fun thread hm ↦ by
    obtain ⟨hoff, hnum⟩ := h.joining thread ((hmanager thread).mp hm)
    exact ⟨hdetach.trans hoff, hqueue thread hm hnum⟩
  off := fun hoff ↦ by
    obtain ⟨thread, hm⟩ := h.off (hdetach.symm.trans hoff)
    exact ⟨thread, (hmanager thread).mpr hm⟩
  never := fun h0 ↦ hdetach.trans (h.never h0)

/-- The loop of `poThreadPool_destroy` joins an idle worker, or the flag is on again. -/
theorem destroyIdle (hinv : s.Inv) (hnever : cfg.maxIdleTime = 0 → s.detachThread = true) :
    s.destroyIdle.Flagged := by
  have hdestroy := hinv.destroyIdle_cases
  -- without idle workers the flag is on again
  have hon : s.idle = [] → s.destroyIdle.detachThread = true ∧
      ∀ thread, s.destroyIdle.manager ≠ .joining thread := by
    intro hidle
    have hwait : s.destroyIdle = s.destroyWait := by
      unfold Pool.destroyIdle
      rw [hidle]
      simp only [listPop, ite_self]
    rw [hwait]
    unfold destroyWait
    dsimp only
    split_ifs with h0
    · exact ⟨rfl, fun _ hm ↦ by cases hm⟩
    · exact ⟨rfl, fun _ hm ↦ by cases hm⟩
    · exact ⟨hnever (not_not.mp h0), fun _ hm ↦ by cases hm⟩
    · exact ⟨hnever (not_not.mp h0), fun _ hm ↦ by cases hm⟩
  by_cases hidle : s.idle = []
  · obtain ⟨hdetach, hmanager⟩ := hon hidle
    exact ⟨fun thread hm ↦ absurd hm (hmanager thread),
      fun hoff ↦ absurd (hdetach.symm.trans hoff) (by decide), fun _ ↦ hdetach⟩
  · have hqueue : s.queue.num = 0 := by
      by_contra hne
      exact hidle (hinv.queue_busy (Nat.pos_of_ne_zero hne)).1
    generalize s.destroyIdle = s' at hdestroy
    cases hdestroy with
    | join hpop =>
        exact ⟨fun _ _ ↦ ⟨rfl, hqueue⟩, fun _ ↦ ⟨_, rfl⟩,
          fun h0 ↦ absurd (hinv.never_idle h0) hidle⟩
    | wait hnone | done hnone => exact absurd hnone hidle

end Flagged

/-! ## Threads -/

/-- What holds of the threads in a run that loses none. -/
structure Reclaimed (s : Pool cfg) : Prop where
  live : ∀ w, (s.worker w).place ≠ .noThread →
    (s.worker w).thread < s.threads ∧ (s.worker w).thread ∉ s.exited
  /-- No two workers have one thread. -/
  distinct : ∀ w w', (s.worker w).place ≠ .noThread → (s.worker w').place ≠ .noThread →
    (s.worker w).thread = (s.worker w').thread → w = w'
  exited_lt : ∀ thread ∈ s.exited, thread < s.threads
  detached : ∀ thread ∈ s.detached, thread ∈ s.exited
  joined : ∀ thread ∈ s.joined, thread ∈ s.exited
  once : ∀ thread ∈ s.exited, s.reclaims thread = 1

/-- No thread is created, exits or is reclaimed. -/
structure Unmoved (s s' : Pool cfg) : Prop where
  threads : s'.threads = s.threads
  exited : s'.exited = s.exited
  detached : s'.detached = s.detached
  joined : s'.joined = s.joined
  thread : ∀ w, (s'.worker w).thread = (s.worker w).thread
  place : ∀ w, (s'.worker w).place = .noThread ↔ (s.worker w).place = .noThread
  manager : ∀ thread, s'.manager = .joining thread ↔ s.manager = .joining thread
  detachThread : s'.detachThread = s.detachThread
  queue : ∀ thread, s'.manager = .joining thread → s.queue.num = 0 → s'.queue.num = 0

namespace Unmoved

variable {s s' s'' : Pool cfg} {w : WorkerId cfg}

theorem refl (s : Pool cfg) : Unmoved s s :=
  ⟨rfl, rfl, rfl, rfl, fun _ ↦ rfl, fun _ ↦ .rfl, fun _ ↦ .rfl, rfl, fun _ _ ↦ id⟩

theorem trans (h : Unmoved s s') (h' : Unmoved s' s'') : Unmoved s s'' where
  threads := h'.threads.trans h.threads
  exited := h'.exited.trans h.exited
  detached := h'.detached.trans h.detached
  joined := h'.joined.trans h.joined
  thread := fun w ↦ (h'.thread w).trans (h.thread w)
  place := fun w ↦ (h'.place w).trans (h.place w)
  manager := fun thread ↦ (h'.manager thread).trans (h.manager thread)
  detachThread := h'.detachThread.trans h.detachThread
  queue := fun thread hm hq ↦
    h'.queue thread hm (h.queue thread ((h'.manager thread).mp hm) hq)

theorem reclaims (h : Unmoved s s') (thread : ℕ) : s'.reclaims thread = s.reclaims thread := by
  unfold Pool.reclaims
  rw [h.detached, h.joined]
  simp only [h.manager]

theorem reclaimed (h : Unmoved s s') (hs : s.Reclaimed) : s'.Reclaimed where
  live := fun w hw ↦ by
    rw [h.thread, h.threads, h.exited]
    exact hs.live w (mt (h.place w).mpr hw)
  distinct := fun w w' hw hw' heq ↦
    hs.distinct w w' (mt (h.place w).mpr hw) (mt (h.place w').mpr hw')
      (by rwa [h.thread, h.thread] at heq)
  exited_lt := by
    rw [h.exited, h.threads]
    exact hs.exited_lt
  detached := by
    rw [h.detached, h.exited]
    exact hs.detached
  joined := by
    rw [h.joined, h.exited]
    exact hs.joined
  once := fun thread hin ↦ by
    rw [h.reclaims]
    exact hs.once thread (h.exited ▸ hin)

theorem flagged (h : Unmoved s s') (hs : s.Flagged) : s'.Flagged :=
  hs.of_same h.manager h.detachThread h.queue

end Unmoved

namespace Unmoved

variable {s s' : Pool cfg} {w : WorkerId cfg} {t : Task}

/-- A worker that has a thread moves, and keeps its thread. -/
theorem setWorker {x : Worker} (hw : (s.worker w).place ≠ .noThread) (hx : x.place ≠ .noThread)
    (hthread : x.thread = (s.worker w).thread) : Unmoved s (s.setWorker w x) := by
  refine ⟨rfl, rfl, rfl, rfl, fun w' ↦ ?_, fun w' ↦ ?_, fun _ ↦ .rfl, rfl, fun _ _ ↦ id⟩
  · by_cases heq : w' = w
    · subst heq
      exact (congrArg Worker.thread (Function.update_self _ _ _)).trans hthread
    · exact congrArg Worker.thread (Function.update_of_ne heq _ _)
  · by_cases heq : w' = w
    · subst heq
      have hself : (s.setWorker w' x).worker w' = x := Function.update_self _ _ _
      rw [hself]
      exact iff_of_false hx hw
    · have hother : (s.setWorker w x).worker w' = s.worker w' := Function.update_of_ne heq _ _
      rw [hother]

theorem run (hw : (s.worker w).place ≠ .noThread) (t : Task) : Unmoved s (s.run w t) :=
  (setWorker (x := { s.worker w with place := .running t }) hw nofun rfl).trans
    ⟨rfl, rfl, rfl, rfl, fun _ ↦ rfl, fun _ ↦ .rfl, fun _ ↦ .rfl, rfl, fun _ _ ↦ id⟩

theorem signal_iff (m : Manager cfg) (thread : ℕ) :
    m.signal = .joining thread ↔ m = .joining thread := by
  cases m with
  | joining => exact .rfl
  | ready | waitStart | waitRoom | waitTaken | waitCleanup | destroying | destroyed =>
      exact iff_of_false nofun nofun

theorem take (ht : Take s t s') : Unmoved s s' := by
  cases ht with
  | queue hlen hget =>
      refine ⟨rfl, rfl, rfl, rfl, fun _ ↦ rfl, fun _ ↦ .rfl, fun thread ↦ ?_, rfl, fun _ _ hq ↦ ?_⟩
      · dsimp only
        split_ifs
        · exact signal_iff _ _
        · exact .rfl
      · exact absurd hq (TaskQueue.queueGetNext_eq_some hget).1.ne'
  | oneTask => exact ⟨rfl, rfl, rfl, rfl, fun _ ↦ rfl, fun _ ↦ .rfl, signal_iff _, rfl,
      fun _ _ ↦ id⟩

theorem afterWake (hw : (s.worker w).place ≠ .noThread) (idle : List (WorkerId cfg))
    (task : Option Task) : Unmoved s (s.afterWake w idle task) :=
  (setWorker (x := { s.worker w with task := task, place := .woken }) hw nofun rfl).trans
    ⟨rfl, rfl, rfl, rfl, fun _ ↦ rfl, fun _ ↦ .rfl, fun _ ↦ .rfl, rfl, fun _ _ ↦ id⟩

theorem timeout {now : Time} (hidle : s.IdleWaits) (ht : Timeout s now s') : Unmoved s s' := by
  cases ht with
  | none => exact refl s
  | @wake w idle hpull hnum hold =>
      have hwait := (hidle w (by rw [hpull]; simp)).1
      exact afterWake (by rw [hwait]; exact nofun) idle none

theorem takeRun (hw : (s.worker w).place ≠ .noThread) (ht : Take s t s') :
    Unmoved s (s'.run w t) :=
  (take ht).trans (run (by rw [ht.worker_eq]; exact hw) t)

theorem callbackReturns (hw : (s.worker w).place ≠ .noThread) (t : Task) :
    Unmoved s (s.callbackReturns w t) :=
  (setWorker (x := { s.worker w with place := .returned }) hw nofun rfl).trans
    ⟨rfl, rfl, rfl, rfl, fun _ ↦ rfl, fun _ ↦ .rfl, fun _ ↦ .rfl, rfl, fun _ _ ↦ id⟩

theorem afterSleep (hw : (s.worker w).place ≠ .noThread) (now : Time) :
    Unmoved s (s.afterSleep w now) :=
  (setWorker (x := { s.worker w with
    task := none
    lastWorkTime := if 0 < cfg.maxIdleTime then now else (s.worker w).lastWorkTime
    place := .waiting }) hw nofun rfl).trans
    ⟨rfl, rfl, rfl, rfl, fun _ ↦ rfl, fun _ ↦ .rfl, fun _ ↦ .rfl, rfl, fun _ _ ↦ id⟩

theorem afterStart (hw : (s.worker w).place ≠ .noThread) (t : Task) :
    Unmoved s (s.afterStart w t) :=
  (run hw t).trans
    ⟨rfl, rfl, rfl, rfl, fun _ ↦ rfl, fun _ ↦ .rfl, signal_iff _, rfl, fun _ _ ↦ id⟩

/-- The manager moves between points at which it joins no thread. -/
theorem setManager (hworker : s'.worker = s.worker) (hthreads : s'.threads = s.threads)
    (hexited : s'.exited = s.exited) (hdetached : s'.detached = s.detached)
    (hjoined : s'.joined = s.joined) (hdetach : s'.detachThread = s.detachThread)
    (hm : ∀ thread, s.manager ≠ .joining thread) (hm' : ∀ thread, s'.manager ≠ .joining thread) :
    Unmoved s s' :=
  ⟨hthreads, hexited, hdetached, hjoined, fun w ↦ by rw [hworker], fun w ↦ by rw [hworker],
    fun thread ↦ iff_of_false (hm' thread) (hm thread), hdetach,
    fun thread hj ↦ absurd hj (hm' thread)⟩

end Unmoved

/-- What the manager does next does not depend on where it is. -/
theorem Destroy.of_manager {s s' : Pool cfg} (hd : Destroy s s') (m : Manager cfg) :
    Destroy { s with manager := m } s' := by
  cases hd with
  | join hidle => exact Destroy.join (s := { s with manager := m }) hidle
  | wait hidle hnum detachThread =>
      exact Destroy.wait (s := { s with manager := m }) hidle hnum detachThread
  | done hidle hnum detachThread =>
      exact Destroy.done (s := { s with manager := m }) hidle hnum detachThread

namespace Reclaimed

variable {s s' : Pool cfg} {w : WorkerId cfg} {t : Task}

theorem create (cfg : Config) : (create cfg).Reclaimed where
  live := fun _ hw ↦ absurd rfl hw
  distinct := fun _ _ hw ↦ absurd rfl hw
  exited_lt := fun _ hin ↦ nomatch hin
  detached := fun _ hin ↦ nomatch hin
  joined := fun _ hin ↦ nomatch hin
  once := fun _ hin ↦ nomatch hin

/-- A thread that has not exited was not reclaimed. -/
theorem count_eq_zero (h : s.Reclaimed) {thread : ℕ} (hnot : thread ∉ s.exited) :
    s.detached.count thread = 0 ∧ s.joined.count thread = 0 :=
  ⟨List.count_eq_zero_of_not_mem (mt (h.detached thread) hnot),
    List.count_eq_zero_of_not_mem (mt (h.joined thread) hnot)⟩

/-- A thread exits: it detaches itself, or it is being joined. -/
theorem afterExit (h : s.Reclaimed) (hw : (s.worker w).place ≠ .noThread)
    (hon : s.detachThread = true → s.manager ≠ .joining (s.worker w).thread)
    (hoff : s.detachThread = false → s.manager = .joining (s.worker w).thread) :
    (s.afterExit w).Reclaimed := by
  obtain ⟨hlt, hnot⟩ := h.live w hw
  obtain ⟨hdetached, hjoined⟩ := h.count_eq_zero hnot
  have hself : ((s.afterExit w).worker w).place = .noThread := by
    unfold Pool.afterExit
    dsimp only
    rw [Function.update_self]
  have hother : ∀ w', w' ≠ w → (s.afterExit w).worker w' = s.worker w' :=
    fun _ hne ↦ Function.update_of_ne hne _ _
  have hne : ∀ w', ((s.afterExit w).worker w').place ≠ .noThread → w' ≠ w := by
    rintro w' hplace rfl
    exact hplace hself
  refine ⟨fun w' hplace ↦ ?_, fun w' w'' hplace hplace' heq ↦ ?_, fun thread hin ↦ ?_,
    fun thread hin ↦ ?_, fun thread hin ↦ List.mem_cons_of_mem _ (h.joined thread hin),
    fun thread hin ↦ ?_⟩
  · have hne' := hne w' hplace
    rw [hother w' hne'] at hplace ⊢
    obtain ⟨hlt', hnot'⟩ := h.live w' hplace
    refine ⟨hlt', fun hin ↦ ?_⟩
    rcases List.mem_cons.mp hin with heq | hin
    · exact hne' (h.distinct w' w hplace hw heq)
    · exact hnot' hin
  · have hne' := hne w' hplace
    have hne'' := hne w'' hplace'
    rw [hother w' hne', hother w'' hne''] at heq
    rw [hother w' hne'] at hplace
    rw [hother w'' hne''] at hplace'
    exact h.distinct w' w'' hplace hplace' heq
  · rcases List.mem_cons.mp hin with rfl | hin
    · exact hlt
    · exact h.exited_lt thread hin
  · have hin : thread ∈ if s.detachThread then (s.worker w).thread :: s.detached
        else s.detached := hin
    split_ifs at hin
    · rcases List.mem_cons.mp hin with rfl | hin
      · exact List.mem_cons_self
      · exact List.mem_cons_of_mem _ (h.detached thread hin)
    · exact List.mem_cons_of_mem _ (h.detached thread hin)
  · show (if s.detachThread then (s.worker w).thread :: s.detached else s.detached).count thread +
      s.joined.count thread + (if s.manager = .joining thread then 1 else 0) = 1
    rcases List.mem_cons.mp hin with rfl | hin
    · cases hd : s.detachThread with
      | true =>
          rw [if_pos rfl, if_neg (hon hd), List.count_cons_self, hdetached, hjoined]
      | false =>
          rw [if_neg Bool.false_ne_true, if_pos (hoff hd), hdetached, hjoined]
    · have honce := h.once thread hin
      have hne' : (s.worker w).thread ≠ thread := by
        rintro rfl
        exact hnot hin
      have hcount : (if s.detachThread then (s.worker w).thread :: s.detached
          else s.detached).count thread = s.detached.count thread := by
        split_ifs
        · exact List.count_cons_of_ne hne'
        · rfl
      rw [hcount]
      exact honce

/-- A thread is created. -/
theorem afterCreate (h : s.Reclaimed) (hw : (s.worker w).place = .noThread)
    (hm : ∀ thread, s.manager ≠ .joining thread) {unused : List (WorkerId cfg)} (t : Task) :
    (s.afterCreate w unused t).Reclaimed := by
  have hself : ((s.afterCreate w unused t).worker w).thread = s.threads := by
    unfold Pool.afterCreate
    dsimp only
    rw [Function.update_self]
  have hother : ∀ w', w' ≠ w → (s.afterCreate w unused t).worker w' = s.worker w' :=
    fun _ hne ↦ Function.update_of_ne hne _ _
  have hlive : ∀ w', w' ≠ w → ((s.afterCreate w unused t).worker w').place ≠ .noThread →
      ((s.afterCreate w unused t).worker w').thread < s.threads := by
    intro w' hne hplace
    rw [hother w' hne] at hplace ⊢
    exact (h.live w' hplace).1
  refine ⟨fun w' hplace ↦ ?_, fun w' w'' hplace hplace' heq ↦ ?_,
    fun thread hin ↦ Nat.lt_succ_of_lt (h.exited_lt thread hin), h.detached, h.joined,
    fun thread hin ↦ ?_⟩
  · by_cases hne : w' = w
    · subst hne
      rw [hself]
      exact ⟨Nat.lt_succ_self _, fun hin ↦ Nat.lt_irrefl _ (h.exited_lt _ hin)⟩
    · rw [hother w' hne] at hplace ⊢
      obtain ⟨hlt, hnot⟩ := h.live w' hplace
      exact ⟨Nat.lt_succ_of_lt hlt, hnot⟩
  · by_cases hne : w' = w <;> by_cases hne' : w'' = w
    · exact hne.trans hne'.symm
    · subst hne
      rw [hself] at heq
      exact absurd heq (hlive w'' hne' hplace').ne'
    · subst hne'
      rw [hself] at heq
      exact absurd heq (hlive w' hne hplace).ne
    · rw [hother w' hne, hother w'' hne'] at heq
      rw [hother w' hne] at hplace
      rw [hother w'' hne'] at hplace'
      exact h.distinct w' w'' hplace hplace' heq
  · have honce := h.once thread hin
    unfold Pool.reclaims at honce ⊢
    rw [if_neg (hm thread)] at honce
    exact honce

/-- The manager moves, and no thread that has exited is joined before or after. -/
theorem setManager (h : s.Reclaimed) (hworker : s'.worker = s.worker)
    (hthreads : s'.threads = s.threads) (hexited : s'.exited = s.exited)
    (hdetached : s'.detached = s.detached) (hjoined : s'.joined = s.joined)
    (hm : ∀ thread ∈ s.exited, s.manager ≠ .joining thread)
    (hm' : ∀ thread ∈ s.exited, s'.manager ≠ .joining thread) : s'.Reclaimed := by
  refine ⟨?_, ?_, ?_, ?_, ?_, fun thread hin ↦ ?_⟩
  · rw [hworker, hthreads, hexited]
    exact h.live
  · rw [hworker]
    exact h.distinct
  · rw [hthreads, hexited]
    exact h.exited_lt
  · rw [hdetached, hexited]
    exact h.detached
  · rw [hjoined, hexited]
    exact h.joined
  · rw [hexited] at hin
    have honce := h.once thread hin
    unfold Pool.reclaims at honce ⊢
    rw [if_neg (hm thread hin)] at honce
    rwa [hdetached, hjoined, if_neg (hm' thread hin)]

/-- The manager joins an idle worker, or none. -/
theorem destroy (h : s.Reclaimed) (hidle : s.IdleWaits)
    (hm : ∀ thread, s.manager ≠ .joining thread) (hd : Destroy s s') : s'.Reclaimed := by
  cases hd with
  | @join w idle hpop =>
      have hplace : (s.worker w).place ≠ .noThread := by
        rw [(hidle w (by rw [hpop]; exact List.mem_cons_self)).1]
        exact nofun
      have hwake := (Unmoved.afterWake hplace idle none).reclaimed h
      refine hwake.setManager rfl rfl rfl rfl rfl (fun thread _ ↦ hm thread)
        fun thread hin heq ↦ ?_
      cases heq
      exact (h.live w hplace).2 hin
  | wait | done =>
      exact h.setManager rfl rfl rfl rfl rfl (fun thread _ ↦ hm thread) fun _ _ ↦ nofun

/-- The manager has joined a thread. -/
theorem afterJoin (h : s.Reclaimed) {thread : ℕ} (hm : s.manager = .joining thread)
    (hexited : thread ∈ s.exited) :
    Reclaimed { s with joined := thread :: s.joined, manager := .ready } := by
  refine ⟨h.live, h.distinct, h.exited_lt, h.detached, fun thread' hin ↦ ?_, fun thread' hin ↦ ?_⟩
  · rcases List.mem_cons.mp hin with rfl | hin
    · exact hexited
    · exact h.joined thread' hin
  · have honce := h.once thread' hin
    show s.detached.count thread' + (thread :: s.joined).count thread' + 0 = 1
    unfold Pool.reclaims at honce
    by_cases heq : thread' = thread
    · subst heq
      rw [if_pos hm] at honce
      rw [List.count_cons_self]
      omega
    · rw [if_neg (fun hm' ↦ heq (Manager.joining.inj (hm'.symm.trans hm)))] at honce
      rw [List.count_cons_of_ne (Ne.symm heq)]
      exact honce

end Reclaimed

/-! ## Steps and runs -/

/-- A step creates or reclaims a thread, or neither. -/
theorem placement_cases {s s' : Pool cfg} {t : Task} {now : Time} (hinv : s.Inv)
    (hm : s.manager = .ready) (hp : Placement s t now s') :
    Unmoved s s' ∨ ∃ w unused, (s.worker w).place = .noThread ∧ s' = s.afterCreate w unused t := by
  have hready : ∀ thread, s.manager ≠ .joining thread := by
    rw [hm]
    exact fun _ ↦ nofun
  cases hp with
  | @handOver w idle s₁ hidle htimeout =>
      have hplace : (s.worker w).place ≠ .noThread := by
        rw [(hinv.idleWaits w (by rw [hidle]; exact List.mem_cons_self)).1]
        exact nofun
      have hwake : Unmoved s { s.afterWake w idle (some t) with handed := t :: s.handed } :=
        (Unmoved.afterWake hplace idle (some t)).trans
          ⟨rfl, rfl, rfl, rfl, fun _ ↦ rfl, fun _ ↦ .rfl, fun _ ↦ .rfl, rfl, fun _ _ ↦ id⟩
      have hrest := hwake.trans (Unmoved.timeout (hinv.idleWaits_afterWake hidle (some t)) htimeout)
      refine .inl (hrest.trans (Unmoved.setManager rfl rfl rfl rfl rfl rfl (fun thread ↦ ?_)
        fun _ ↦ nofun))
      exact mt (hrest.manager thread).mp (hready thread)
  | @create w unused hidle hunused =>
      have hmem : w ∈ s.unused := by rw [hunused]; exact List.mem_cons_self
      exact .inr ⟨w, unused, (hinv.mem_unused w).mp hmem, rfl⟩
  | queue | waitRoom | waitTaken =>
      exact .inl (.setManager rfl rfl rfl rfl rfl rfl hready fun _ ↦ nofun)

/-- What holds of the threads and of the flag. -/
def Sound (s : Pool cfg) : Prop := s.Flagged ∧ s.Reclaimed

namespace Sound

variable {s s' : Pool cfg} {w : WorkerId cfg} {t : Task}

theorem of_unmoved (h : s.Sound) (hu : Unmoved s s') : s'.Sound :=
  ⟨hu.flagged h.1, hu.reclaimed h.2⟩

theorem placement {now : Time} (h : s.Sound) (hinv : s.Inv) (hm : s.manager = .ready)
    (hp : Placement s t now s') : s'.Sound := by
  rcases placement_cases hinv hm hp with hu | ⟨w, unused, hw, rfl⟩
  · exact h.of_unmoved hu
  · have hready : ∀ thread, s.manager ≠ .joining thread := by
      rw [hm]
      exact fun _ ↦ nofun
    exact ⟨h.1.of_same (fun thread ↦ iff_of_false nofun (hready thread)) rfl
      (fun _ hj ↦ nomatch hj), h.2.afterCreate hw hready t⟩

/-- A thread exits, and detaches itself unless it is being joined. -/
theorem afterExit (h : s.Sound) (hw : (s.worker w).place ≠ .noThread)
    (hoff : s.detachThread = false → s.manager = .joining (s.worker w).thread) :
    (s.afterExit w).Sound := by
  refine ⟨h.1.of_same (fun _ ↦ .rfl) rfl (fun _ _ ↦ id), h.2.afterExit hw (fun hon hm ↦ ?_) hoff⟩
  exact nomatch hon.symm.trans (h.1.joining _ hm).1

/-- A thread that looked for work in vain exits while the flag is on. -/
theorem detachThread_of_exit (h : s.Sound) (hinv : s.Inv) (hw : (s.worker w).place.busy)
    (hc : s.cleanup = true ∧ s.numThreads ≠ 1 ∨ s.cleanup = false ∧ cfg.maxIdleTime = 0) :
    s.detachThread ≠ false := by
  intro hoff
  rcases hc with ⟨hc, -⟩ | ⟨-, h0⟩
  · obtain ⟨thread, hm⟩ := h.1.off hoff
    exact nomatch (hinv.waitCleanup_of_busy hw hc).symm.trans hm
  · exact nomatch (h.1.never h0).symm.trans hoff

theorem step (h : s.Sound) (hinv : s.Inv) {a : Action cfg} (ha : JoinsLeavers s a)
    (hs : Tidbits.ThreadPool.step s a = some s') : s'.Sound := by
  have hbusy : ∀ {w}, (s.worker w).place.busy → (s.worker w).place ≠ .noThread :=
    fun hw ↦ hw.ne_noThread
  cases hinv.step_cases ha.1 hs with
  | runInCaller h0 hm =>
      exact h.of_unmoved ⟨rfl, rfl, rfl, rfl, fun _ ↦ rfl, fun _ ↦ .rfl, fun _ ↦ .rfl, rfl,
        fun _ _ ↦ id⟩
  | runTask _ hm hp =>
      have hsub : ∀ t, Sound { s with submitted := t :: s.submitted } := fun t ↦
        h.of_unmoved ⟨rfl, rfl, rfl, rfl, fun _ ↦ rfl, fun _ ↦ .rfl, fun _ ↦ .rfl, rfl,
          fun _ _ ↦ id⟩
      exact (hsub _).placement { hinv with } hm hp
  | checkIdleThreadTimeout hm ht => exact h.of_unmoved (.timeout hinv.idleWaits ht)
  | destroyNothing h0 hm =>
      exact h.of_unmoved (.setManager rfl rfl rfl rfl rfl rfl (by rw [hm]; rintro _ ⟨⟩)
        fun _ ↦ by rintro ⟨⟩)
  | destroy h0 hm hd =>
      have hs' : s' = s.destroyIdle := by
        rw [Tidbits.ThreadPool.step, if_pos hm] at hs
        rw [← Option.some.inj hs, Pool.destroy, if_neg h0, hinv.assertIdleOrQueueEmpty_eq]
      exact ⟨hs' ▸ Flagged.destroyIdle hinv h.1.never,
        h.2.destroy hinv.idleWaits (by rw [hm]; rintro _ ⟨⟩) hd⟩
  | resumeStart hm =>
      exact h.of_unmoved (.setManager rfl rfl rfl rfl rfl rfl (by rw [hm]; rintro _ ⟨⟩)
        fun _ ↦ by rintro ⟨⟩)
  | resumeRoom hm hp =>
      have hready : Sound { s with taskWaitingToBeRun := false, manager := .ready } :=
        h.of_unmoved (.setManager rfl rfl rfl rfl rfl rfl (by rw [hm]; rintro _ ⟨⟩)
          fun _ ↦ by rintro ⟨⟩)
      exact hready.placement (hinv.unblock (by rw [hm]; rfl)) rfl hp
  | resumeTaken hm =>
      exact h.of_unmoved (.setManager rfl rfl rfl rfl rfl rfl (by rw [hm]; rintro _ ⟨⟩)
        fun _ ↦ by rintro ⟨⟩)
  | resumeCleanup hm =>
      exact h.of_unmoved (.setManager rfl rfl rfl rfl rfl rfl (by rw [hm]; rintro _ ⟨⟩)
        fun _ ↦ by rintro ⟨⟩)
  | @joined thread _ hm hexited hd =>
      have hjoined : Inv { s with joined := thread :: s.joined } := { hinv with }
      have hs' : s' = { s with joined := thread :: s.joined }.destroyIdle := by
        simp only [Tidbits.ThreadPool.step, hm, if_pos hexited] at hs
        rw [← Option.some.inj hs, hm]
      refine ⟨hs' ▸ Flagged.destroyIdle hjoined h.1.never, ?_⟩
      exact (h.2.afterJoin hm hexited).destroy hjoined.idleWaits (fun _ ↦ by rintro ⟨⟩)
        (hd.of_manager .ready)
  | destroyPool hm =>
      exact h.of_unmoved (.setManager rfl rfl rfl rfl rfl rfl (by rw [hm]; rintro _ ⟨⟩)
        fun _ ↦ by rintro ⟨⟩)
  | threadStarts hplace hm =>
      exact h.of_unmoved (.afterStart (by rw [hplace]; rintro ⟨⟩) _)
  | callbackReturns hplace =>
      exact h.of_unmoved (.callbackReturns (by rw [hplace]; rintro ⟨⟩) _)
  | @findWork w now t s₁ hplace ht =>
      exact h.of_unmoved (.takeRun (by rw [hplace]; rintro ⟨⟩) ht)
  | @lastExit w now hplace hwork hm hone =>
      have hlast : Sound { s with manager := .waitCleanup true } :=
        h.of_unmoved (.setManager rfl rfl rfl rfl rfl rfl (by rw [hm]; rintro _ ⟨⟩)
          fun _ ↦ by rintro ⟨⟩)
      refine hlast.afterExit (by rw [hplace]; rintro ⟨⟩) fun hoff ↦ ?_
      obtain ⟨thread, hjoining⟩ := h.1.off hoff
      cases hm.symm.trans hjoining
  | @exit w now hplace hwork hc =>
      have hw : (s.worker w).place.busy := by rw [hplace]; trivial
      exact h.afterExit hw.ne_noThread fun hoff ↦ absurd hoff (h.detachThread_of_exit hinv hw hc)
  | sleep hplace hwork hc hidleTime =>
      exact h.of_unmoved (.afterSleep (by rw [hplace]; rintro ⟨⟩) _)
  | wakeTask hplace htask =>
      exact h.of_unmoved (.run (by rw [hplace]; rintro ⟨⟩) _)
  | wakeFindWork hplace htask ht =>
      exact h.of_unmoved (.takeRun (by rw [hplace]; rintro ⟨⟩) ht)
  | @wakeExit w hplace htask hwork =>
      exact h.afterExit (by rw [hplace]; rintro ⟨⟩) (ha.2 w rfl htask)

end Sound

/-- A worker that leaves unjoined while the flag is off is lost. -/
theorem Sound.lost {s s' : Pool cfg} (h : s.Sound) (hinv : s.Inv) {w : WorkerId cfg}
    (hnot : ¬ s.LeaverJoined w) (hs : Tidbits.ThreadPool.step s (.wakes w) = some s') :
    ∃ thread ∈ s'.exited, s'.reclaims thread = 0 := by
  obtain ⟨htask, hnot⟩ := Classical.not_imp.mp hnot
  obtain ⟨hoff, hother⟩ := Classical.not_imp.mp hnot
  have hsig : Signalled s (.wakes w) := rfl
  cases hinv.step_cases hsig hs with
  | wakeTask _ htask' => exact nomatch htask.symm.trans htask'
  | wakeFindWork _ _ ht =>
      -- the manager joins, so there is no task to find
      obtain ⟨thread, hm⟩ := h.1.off hoff
      have hnum := (h.1.joining thread hm).2
      cases ht with
      | queue _ hget => exact absurd hnum (TaskQueue.queueGetNext_eq_some hget).1.ne'
      | oneTask _ hwaiting =>
          rw [hinv.blocked, hm] at hwaiting
          exact nomatch hwaiting
  | wakeExit hplace =>
      have hw : (s.worker w).place ≠ .noThread := by
        rw [hplace]
        exact nofun
      obtain ⟨hdetached, hjoined⟩ := h.2.count_eq_zero (h.2.live w hw).2
      refine ⟨(s.worker w).thread, List.mem_cons_self, ?_⟩
      show (if s.detachThread then (s.worker w).thread :: s.detached else s.detached).count
        (s.worker w).thread + s.joined.count (s.worker w).thread +
          (if s.manager = .joining (s.worker w).thread then 1 else 0) = 0
      rw [hoff, if_neg Bool.false_ne_true, if_neg hother, hdetached, hjoined]

/-- **Each thread that has exited was reclaimed exactly once**, in every run in which a
worker that leaves the idle wait while `detachThread` is off is the one that
`poThreadPool_destroy` is joining; and the first one that is not is lost. -/
theorem once_of_reach (cfg : Config) (s : Pool cfg) (h : Reach step JoinsLeavers (create cfg) s) :
    (∀ thread ∈ s.exited, s.reclaims thread = 1) ∧
      ∀ w s', ¬ s.LeaverJoined w → step s (.wakes w) = some s' →
        ∃ thread ∈ s'.exited, s'.reclaims thread = 0 := by
  have hinv : ∀ {s}, Reach step JoinsLeavers (create cfg) s → s.Inv :=
    inv_of_reach fun _ _ ha ↦ ha.1
  have hsound : s.Sound := by
    refine h.invariant_of hinv ⟨?_, Reclaimed.create cfg⟩ fun hinv hsound ha hs ↦
      hsound.step hinv ha hs
    exact ⟨fun _ hm ↦ (nomatch hm), fun hoff ↦ (nomatch hoff), fun _ ↦ rfl⟩
  exact ⟨hsound.2.once, fun w s' hnot hs ↦ hsound.lost (hinv h) hnot hs⟩

/-- Three workers go idle, the idle timeout wakes the first, and the others are
to be joined. -/
def timeoutInDestroy : List (Action threeThreads) :=
  [.runTask 0 0 0, .threadStarts 0, .resume 0, .runTask 0 0 0, .threadStarts 1, .resume 0,
    .runTask 0 0 0, .threadStarts 2, .resume 0, .callbackReturns 0, .looksForWork 0 0,
    .callbackReturns 1, .looksForWork 1 0, .callbackReturns 2, .looksForWork 2 0,
    .checkIdleThreadTimeout 2000000000, .destroy, .wakes 2, .joined]

theorem once_of_reach_timeoutInDestroy :
    ∃ s s', Reach step JoinsLeavers (create threeThreads) s ∧ s.exited = [2] ∧
      s.reclaims 2 = 1 ∧ step s (.wakes 0) = some s' ∧ ∃ thread ∈ s'.exited,
        s'.reclaims thread = 0 := by
  have hrun : ∃ s, Reach step JoinsLeavers (create threeThreads) s ∧ s.exited = [2] ∧
      ¬ s.LeaverJoined 0 ∧ (s.worker 0).place = .woken :=
    exists_reach_of_exec_decide timeoutInDestroy (by decide)
  obtain ⟨s, hr, hexited, hnot, hplace⟩ := hrun
  have hs : step s (.wakes 0) = some (s.wakes 0) := if_pos hplace
  obtain ⟨honce, hlost⟩ := once_of_reach threeThreads s hr
  exact ⟨s, _, hr, hexited, honce 2 (by rw [hexited]; exact List.mem_cons_self), hs,
    hlost 0 _ hnot hs⟩

/-- The pool is destroyed, and the thread that the idle timeout has woken was
neither detached nor joined. -/
theorem not_once_of_timeout :
    ¬ ∀ s, Reach step Signalled (create threeThreads) s →
      ∀ thread ∈ s.exited, s.reclaims thread = 1 := by
  have hrun : ∃ s, Reach step Signalled (create threeThreads) s ∧ s.manager = .destroyed ∧
      0 ∈ s.exited ∧ s.reclaims 0 = 0 :=
    exists_reach_of_exec_decide
      (timeoutInDestroy ++ [.wakes 0, .wakes 1, .joined, .destroyPool]) (by decide)
  obtain ⟨s, hr, -, hexited, hlost⟩ := hrun
  intro h
  exact absurd (hlost.symm.trans (h s hr 0 hexited)) (by decide)

end Pool

end Tidbits.ThreadPool
