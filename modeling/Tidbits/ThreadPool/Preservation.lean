import Tidbits.ThreadPool.Sections

/-!
# Every step keeps the invariant

One lemma for each update that `Move` is made of, then every step (`Inv.step`)
and every run (`inv_of_reach`).  An update that changes the place of one worker
is one of three kinds: the worker stays busy, it enters the idle or the unused
list, or it leaves one of them.
-/

namespace Tidbits.ThreadPool

open Tidbits.Transition Tidbits.Sequence

variable {cfg : Config}

namespace Pool

namespace Inv

variable {s s' : Pool cfg} {w : WorkerId cfg} {t : Task}

/-! ## The worker threads -/

/-- A busy worker stays busy. -/
theorem setWorker (h : s.Inv) {x : Worker} (hw : (s.worker w).place.busy)
    (hx : x.place.busy) : (s.setWorker w x).Inv :=
  { h with
    toPlaced := h.toPlaced.update h.idle_nodup h.unused_nodup (fun _ _ ↦ ⟨Iff.rfl, Iff.rfl⟩)
      ⟨iff_of_false (h.notMem_of_busy hw).1 hx.ne_waiting,
        iff_of_false (h.notMem_of_busy hw).2 hx.ne_noThread⟩
      (fun hp ↦ absurd hp hx.ne_waiting)
    toStarts := h.toStarts.update hw.ne_starting hx.ne_starting }

theorem run (h : s.Inv) (hw : (s.worker w).place.busy) : (s.run w t).Inv :=
  { h.setWorker (x := { s.worker w with place := .running t }) hw trivial with }

theorem callbackReturns (h : s.Inv) (hw : (s.worker w).place = .running t) :
    (s.callbackReturns w t).Inv :=
  { h.setWorker (x := { s.worker w with place := .returned }) (by rw [hw]; trivial) trivial with }

/-- A signal for a manager that waits for room, or for its task to be taken. -/
theorem signal (h : s.Inv) (hb : s.manager.blocked = true) : s.signal.Inv := by
  have hp := Manager.pendingStart_of_blocked hb
  have hnp : s.manager.signal.pastWait = false := by
    cases hm : s.manager <;> simp_all [Manager.blocked, Manager.signal, Manager.pastWait]
  exact
    { h with
      toStarts := h.toStarts.manager hp (Manager.pendingStart_signal _)
      count := by simpa [Pool.signal, hp] using h.count
      blocked := by simpa [Pool.signal] using h.blocked
      waitRoom := fun t b hm ↦ by
        cases hs : s.manager with
        | waitRoom t' b' => exact h.waitRoom t' b' hs
        | _ => simp_all [Pool.signal, Manager.signal]
      waitTaken := fun t b hm ↦ by
        cases hs : s.manager with
        | waitTaken t' b' =>
            have ht : t' = t := by simp_all [Pool.signal, Manager.signal]
            exact ht ▸ h.waitTaken t' b' hs
        | _ => simp_all [Pool.signal, Manager.signal]
      cleanup := fun hc ↦ by simpa [Pool.signal] using h.cleanup hc
      waitCleanup := fun hm ↦ by
        cases hs : s.manager <;> simp_all [Pool.signal, Manager.signal]
      pastWait := fun hm ↦ by simp_all [Pool.signal] }

/-- Taking a task keeps the invariant: only the queue shrinks, and only a manager
that waits for it is signalled. -/
theorem take (h : s.Inv) (ht : Take s t s') : s'.Inv := by
  cases ht with
  | @queue q hlen hget =>
      obtain ⟨hn, -, -, hnum, -⟩ := TaskQueue.queueGetNext_eq_some hget
      have hqueue : { s with queue := q }.Inv :=
        { h with
          queue_valid := fun hlen ↦ (h.queue_valid hlen).queueGetNext hget
          no_queue := fun h0 ↦ absurd h0 hlen.ne'
          queue_busy := fun _ ↦ h.queue_busy hn }
      cases hw : s.taskWaitingToBeRun with
      | false => simpa [hw] using hqueue
      | true => simpa [hw, Pool.signal] using hqueue.signal (h.blocked.symm.trans hw)
  | oneTask hlen hwait htask => exact h.signal (h.blocked.symm.trans hwait)

/-- A busy worker takes a task and runs it. -/
theorem takeRun (h : s.Inv) (hw : (s.worker w).place.busy) (ht : Take s t s') :
    (s'.run w t).Inv := (h.take ht).run (by rwa [ht.worker_eq])

/-- A busy worker that found no task exits.  The manager may be woken by the
last thread on its way out. -/
theorem afterExit (h : s.Inv) (hw : (s.worker w).place.busy) (hq : s.queue.num = 0)
    {m : Manager cfg}
    (hm : m = s.manager ∨
      m = .waitCleanup true ∧ s.manager = .waitCleanup false ∧ s.numThreads = 1) :
    ({ s with manager := m }.afterExit w).Inv := by
  obtain ⟨hidle, hunused⟩ := h.notMem_of_busy hw
  have hpos := h.numThreads_pos hw.ne_noThread hw.ne_starting
  have hcount := h.count
  have hplaced : Placed (Function.update s.worker w { s.worker w with place := .noThread })
      s.idle (w :: s.unused) :=
    h.toPlaced.update h.idle_nodup (List.nodup_cons.mpr ⟨hunused, h.unused_nodup⟩)
      (fun w' hne ↦ ⟨Iff.rfl, by simp [hne]⟩)
      ⟨iff_of_false hidle (by simp), iff_of_true (by simp) rfl⟩ (fun hp ↦ by cases hp)
  have hstarts := h.toStarts.update (x := { s.worker w with place := .noThread })
    hw.ne_starting (by simp)
  have hbusy : 0 < s.queue.num → s.idle = [] ∧ w :: s.unused = [] :=
    fun hn ↦ absurd hn hq.not_gt
  rcases hm with rfl | ⟨rfl, hs, hone⟩
  · exact
      { h with
        toPlaced := hplaced
        toStarts := hstarts
        count := by simp only [Pool.afterExit, List.length_cons]; omega
        queue_busy := hbusy
        pastWait := fun hp ↦ by
          have h0 := h.pastWait hp
          exact absurd h0 hpos.ne' }
  · exact
      { h with
        toPlaced := hplaced
        toStarts := hstarts.manager (by rw [hs]; rfl) rfl
        count := by
          simp only [hs, Manager.pendingStart, Pool.afterExit, List.length_cons] at hcount ⊢
          omega
        queue_busy := hbusy
        blocked := h.blocked.trans (by rw [hs]; rfl)
        waitRoom := by simp [Pool.afterExit]
        waitTaken := by simp [Pool.afterExit]
        cleanup := fun _ ↦ rfl
        waitCleanup := by simp [Pool.afterExit]
        pastWait := fun _ ↦ by simp [Pool.afterExit, hone] }

/-- A busy worker that found no task goes idle. -/
theorem afterSleep (h : s.Inv) (hw : (s.worker w).place.busy) (hq : s.queue.num = 0)
    (hidleTime : cfg.maxIdleTime ≠ 0) (now : Time) : (s.afterSleep w now).Inv := by
  obtain ⟨hidle, hunused⟩ := h.notMem_of_busy hw
  exact
    { h with
      toPlaced := h.toPlaced.update (List.nodup_cons.mpr ⟨hidle, h.idle_nodup⟩) h.unused_nodup
        (fun w' hne ↦ ⟨List.mem_cons.trans (or_iff_right hne), Iff.rfl⟩)
        ⟨iff_of_true List.mem_cons_self rfl, iff_of_false hunused (by simp)⟩ (fun _ ↦ rfl)
      toStarts := h.toStarts.update hw.ne_starting (by simp)
      queue_busy := fun hn ↦ absurd hn hq.not_gt
      never_idle := fun h0 ↦ absurd h0 hidleTime }

/-- A new thread starts and the manager that waits for it is signalled. -/
theorem afterStart (h : s.Inv) (hw : (s.worker w).place = .starting)
    (hm : s.manager = .waitStart w t false) : (s.afterStart w t).Inv := by
  have hcount := h.count
  have hunused : w ∉ s.unused := h.notMem_unused (by simp [hw])
  have hidle : w ∉ s.idle := fun hi ↦ by simp [(h.mem_idle w).mp hi] at hw
  simp only [hm, Manager.pendingStart] at hcount
  exact
    { h with
      toPlaced := h.toPlaced.update h.idle_nodup h.unused_nodup (fun _ _ ↦ ⟨Iff.rfl, Iff.rfl⟩)
        ⟨iff_of_false hidle (by simp), iff_of_false hunused (by simp)⟩ (fun hp ↦ by cases hp)
      toStarts := by
        refine ⟨fun w' hp ↦ ?_,
          fun w' t' hm' ↦ by simp [Pool.afterStart, hm, Manager.signal] at hm'⟩
        -- no other worker is about to start
        by_cases hne : w' = w
        · subst hne
          simp [Pool.afterStart] at hp
        · simp only [Pool.afterStart, Function.update_of_ne hne] at hp
          obtain ⟨t', hm'⟩ := h.starting w' hp
          rw [hm] at hm'
          cases hm'
          exact absurd rfl hne
      count := by simp only [Pool.afterStart, Manager.pendingStart_signal]; omega
      blocked := by simpa [Pool.afterStart] using h.blocked
      waitRoom := by simp [Pool.afterStart, hm, Manager.signal]
      waitTaken := by simp [Pool.afterStart, hm, Manager.signal]
      cleanup := by simpa [Pool.afterStart] using h.cleanup
      waitCleanup := by simp [Pool.afterStart, hm, Manager.signal]
      pastWait := by simp [Pool.afterStart, hm, Manager.signal, Manager.pastWait] }

/-! ## The managing thread -/

/-- The manager moves while no thread is about to start. -/
theorem setManager (h : s.Inv) {m : Manager cfg} (hs : s.manager.pendingStart = 0)
    (hm : m.pendingStart = 0) (hblocked : s.manager.blocked = m.blocked)
    (hroom : ∀ t b, m = .waitRoom t b → 0 < cfg.queueLength)
    (htaken : ∀ t b, m = .waitTaken t b → cfg.queueLength = 0 ∧ s.oneTask = some t)
    (hcleanup : s.cleanup = true → m.finishing = true)
    (hwait : m = .waitCleanup false → s.cleanup = true)
    (hpast : m.pastWait = true → s.numThreads = 0) : { s with manager := m }.Inv :=
  { h with
    toStarts := h.toStarts.manager hs hm
    count := by simpa [hs, hm] using h.count
    blocked := h.blocked.trans hblocked
    waitRoom := hroom
    waitTaken := htaken
    cleanup := hcleanup
    waitCleanup := hwait
    pastWait := hpast }

/-- The manager returns to its caller. -/
theorem setReady (h : s.Inv) (hs : s.manager.pendingStart = 0)
    (hblocked : s.manager.blocked = false) (hfin : s.manager.finishing = false) :
    { s with manager := .ready }.Inv :=
  h.setManager hs rfl hblocked (by simp) (by simp)
    (fun hc ↦ absurd (h.cleanup hc) (by simp [hfin])) (by simp)
    (by simp [Manager.pastWait])

/-- The pool is done with its threads. -/
theorem setDone (h : s.Inv) {m : Manager cfg} (hs : s.manager.pendingStart = 0)
    (hblocked : s.manager.blocked = false) (hm : m = .destroying ∨ m = .destroyed)
    (hn : s.numThreads = 0) : { s with manager := m }.Inv := by
  rcases hm with rfl | rfl <;>
    exact h.setManager hs rfl hblocked (by simp) (by simp) (fun _ ↦ rfl) (by simp) (fun _ ↦ hn)

/-- The manager wakes an idle worker that it took off the idle list. -/
theorem afterWake (h : s.Inv) {idle : List (WorkerId cfg)} (hw : w ∈ s.idle)
    (hnodup : idle.Nodup) (hmem : ∀ w', w' ∈ idle ↔ w' ∈ s.idle ∧ w' ≠ w)
    (task : Option Task) : (s.afterWake w idle task).Inv := by
  have hplace := (h.mem_idle w).mp hw
  have hunused : w ∉ s.unused := h.notMem_unused (by simp [hplace])
  exact
    { h with
      toPlaced := h.toPlaced.update hnodup h.unused_nodup
        (fun w' hne ↦ ⟨(hmem w').trans (and_iff_left hne), Iff.rfl⟩)
        ⟨iff_of_false (fun hi ↦ ((hmem w).mp hi).2 rfl) (by simp), iff_of_false hunused (by simp)⟩
        (fun hp ↦ by cases hp)
      toStarts := h.toStarts.update (by simp [hplace]) (by simp)
      queue_busy := fun hn ↦ by simp [(h.queue_busy hn).1] at hw
      never_idle := fun h0 ↦ by simp [h.never_idle h0] at hw }

theorem afterWake_top (h : s.Inv) {idle : List (WorkerId cfg)} (hidle : s.idle = w :: idle)
    (task : Option Task) : (s.afterWake w idle task).Inv := by
  have hnodup := h.idle_nodup
  rw [hidle, List.nodup_cons] at hnodup
  refine h.afterWake (by simp [hidle]) hnodup.2 (fun w' ↦ ?_) task
  constructor
  · intro hw'
    refine ⟨by simp [hidle, hw'], ?_⟩
    rintro rfl
    exact hnodup.1 hw'
  · rintro ⟨hw', hne⟩
    simpa [hidle, hne] using hw'

theorem afterWake_bottom (h : s.Inv) {idle : List (WorkerId cfg)} (hidle : s.idle = idle ++ [w])
    (task : Option Task) : (s.afterWake w idle task).Inv := by
  have hnodup := h.idle_nodup
  rw [hidle, List.nodup_append] at hnodup
  refine h.afterWake (by simp [hidle]) hnodup.1 (fun w' ↦ ?_) task
  constructor
  · intro hw'
    exact ⟨by simp [hidle, hw'], hnodup.2.2 w' hw' w (by simp)⟩
  · rintro ⟨hw', hne⟩
    simpa [hidle, hne] using hw'

theorem timeout {now : Time} (h : s.Inv) (ht : Timeout s now s') : s'.Inv := by
  cases ht with
  | none => exact h
  | wake hidle _ _ => exact h.afterWake_bottom hidle none

/-- The manager creates a thread for the unused worker it popped. -/
theorem afterCreate (h : s.Inv) (hm : s.manager = .ready) {unused : List (WorkerId cfg)}
    (hu : s.unused = w :: unused) : (s.afterCreate w unused t).Inv := by
  have hplace := (h.mem_unused w).mp (by simp [hu])
  have hidle : w ∉ s.idle := fun hi ↦ by simp [(h.mem_idle w).mp hi] at hplace
  have hnodup := h.unused_nodup
  rw [hu, List.nodup_cons] at hnodup
  have hcount := h.count
  simp only [hu, hm, Manager.pendingStart, List.length_cons] at hcount
  have hstart : ∀ w', (s.worker w').place ≠ .starting := fun w' hp ↦ by
    obtain ⟨t', hm'⟩ := h.starting w' hp
    simp [hm] at hm'
  exact
    { h with
      toPlaced := h.toPlaced.update h.idle_nodup hnodup.2
        (fun w' hne ↦ ⟨Iff.rfl, by simp [Pool.afterCreate, hu, hne]⟩)
        ⟨iff_of_false hidle (by simp), iff_of_false hnodup.1 (by simp)⟩ (fun hp ↦ by cases hp)
      toStarts := by
        refine ⟨fun w' hp ↦ ?_, fun w' t' hm' ↦ ?_⟩
        · by_cases hne : w' = w
          · exact ⟨t, by rw [hne]; rfl⟩
          · simp only [Pool.afterCreate, Function.update_of_ne hne] at hp
            exact absurd hp (hstart w')
        · cases hm'
          simp [Pool.afterCreate]
      count := by simp only [Pool.afterCreate, Manager.pendingStart]; omega
      queue_busy := fun hn ↦ absurd (h.queue_busy hn).2 (by simp [hu])
      blocked := h.blocked.trans (by rw [hm]; rfl)
      waitRoom := by simp [Pool.afterCreate]
      waitTaken := by simp [Pool.afterCreate]
      cleanup := fun hc ↦ absurd (h.cleanup hc) (by simp [hm, Manager.finishing])
      waitCleanup := by simp [Pool.afterCreate]
      pastWait := by simp [Pool.afterCreate, Manager.pastWait] }

/-- The manager blocks in `poThreadPool_runTask` until a worker takes a task. -/
theorem block (h : s.Inv) (hm : s.manager = .ready) {m : Manager cfg} {o : Option Task}
    (hroom : ∀ t b, m = .waitRoom t b → 0 < cfg.queueLength)
    (htaken : ∀ t b, m = .waitTaken t b → cfg.queueLength = 0 ∧ o = some t)
    (hblocked : m.blocked = true) :
    { s with taskWaitingToBeRun := true, oneTask := o, manager := m }.Inv := by
  have hnew : m.pendingStart = 0 := Manager.pendingStart_of_blocked hblocked
  have hcount := h.count
  rw [hm] at hcount
  exact
    { h with
      toStarts := h.toStarts.manager (by rw [hm]; rfl) hnew
      count := by rwa [hnew]
      blocked := hblocked.symm
      waitRoom := hroom
      waitTaken := htaken
      cleanup := fun hc ↦ absurd (h.cleanup hc) (by simp [hm, Manager.finishing])
      waitCleanup := fun h' ↦ by simp [show m = _ from h', Manager.blocked] at hblocked
      pastWait := fun h' ↦ by cases m <;> simp_all [Manager.blocked, Manager.pastWait] }

theorem placement {now : Time} (h : s.Inv) (hm : s.manager = .ready)
    (hp : Placement s t now s') : s'.Inv := by
  cases hp with
  | @handOver w idle s₁ hidle htimeout =>
      have hwoken : { s.afterWake w idle (some t) with handed := t :: s.handed }.Inv :=
        { h.afterWake_top hidle (some t) with }
      have hm₁ : s₁.manager = .ready := by cases htimeout <;> exact hm
      have hinv := hwoken.timeout htimeout
      exact hinv.setReady (by rw [hm₁]; rfl) (by rw [hm₁]; rfl) (by rw [hm₁]; rfl)
  | create hidle hunused => exact h.afterCreate hm hunused
  | @queue q hidle hunused hlen hq =>
      have hqueue : { s with queue := q }.Inv :=
        { h with
          queue_valid := fun hlen ↦ (h.queue_valid hlen).queueMakeNewEntry hq
          no_queue := fun h0 ↦ absurd h0 hlen.ne'
          queue_busy := fun _ ↦ ⟨hidle, hunused⟩ }
      exact hqueue.setReady (by rw [hm]; rfl) (by rw [hm]; rfl) (by rw [hm]; rfl)
  | waitRoom hidle hunused hlen hfull =>
      exact h.block hm (o := s.oneTask) (fun _ _ _ ↦ hlen) (by simp) rfl
  | waitTaken hidle hunused hlen =>
      refine h.block hm (o := some t) (by simp) (fun t' b ht ↦ ?_) rfl
      cases ht
      exact ⟨hlen, rfl⟩

theorem destroy (h : s.Inv) (hpending : s.manager.pendingStart = 0)
    (hblocked : s.manager.blocked = false) (hfin : s.manager.finishing = false)
    (hd : Destroy s s') : s'.Inv := by
  have hcleanup : s.cleanup = true → False := fun hc ↦ by simp [h.cleanup hc] at hfin
  cases hd with
  | @join w idle hidle =>
      have hwoken := h.afterWake_top hidle none
      have hjoin := hwoken.setManager (m := .joining (s.worker w).thread) hpending rfl hblocked
        (by simp) (by simp) (fun hc ↦ (hcleanup hc).elim) (by simp) (by simp [Manager.pastWait])
      exact { hjoin with }
  | wait hidle hnum detachThread =>
      exact
        { h with
          toStarts := h.toStarts.manager hpending rfl
          count := by
            have hcount := h.count
            rwa [hpending] at hcount
          blocked := h.blocked.trans hblocked
          waitRoom := by simp
          waitTaken := by simp
          cleanup := fun _ ↦ rfl
          waitCleanup := fun _ ↦ rfl
          pastWait := by simp [Manager.pastWait] }
  | done hidle hnum detachThread =>
      exact { h.setDone hpending hblocked (.inl rfl) hnum with }

/-! ## Steps and runs -/

/-- **Every step keeps the invariant.** -/
theorem step (h : s.Inv) {a : Action cfg} (ha : Signalled s a) (hs : step s a = some s') :
    s'.Inv := by
  cases h.step_cases ha hs with
  | runInCaller h0 hm => exact { h with }
  | runTask _ hm hp =>
      have hsub : ∀ t, { s with submitted := t :: s.submitted }.Inv := fun _ ↦ { h with }
      exact (hsub _).placement hm hp
  | checkIdleThreadTimeout hm ht => exact h.timeout ht
  | destroyNothing h0 hm =>
      have hn : s.numThreads = 0 := Nat.le_zero.mp (h0 ▸ h.numThreads_le)
      exact h.setDone (by rw [hm]; rfl) (by rw [hm]; rfl) (.inr rfl) hn
  | destroy _ hm hd => exact h.destroy (by rw [hm]; rfl) (by rw [hm]; rfl) (by rw [hm]; rfl) hd
  | resumeStart hm => exact h.setReady (by rw [hm]; rfl) (by rw [hm]; rfl) (by rw [hm]; rfl)
  | resumeRoom hm hp => exact (h.unblock (by rw [hm]; rfl)).placement rfl hp
  | resumeTaken hm => exact h.unblock (by rw [hm]; rfl)
  | resumeCleanup hm =>
      exact h.setDone (by rw [hm]; rfl) (by rw [hm]; rfl) (.inl rfl) (h.pastWait (by rw [hm]; rfl))
  | @joined thread _ hm hexited hd =>
      have hjoined : { s with joined := thread :: s.joined }.Inv := { h with }
      exact hjoined.destroy (by rw [hm]; rfl) (by rw [hm]; rfl) (by rw [hm]; rfl) hd
  | destroyPool hm =>
      exact h.setDone (by rw [hm]; rfl) (by rw [hm]; rfl) (.inr rfl) (h.pastWait (by rw [hm]; rfl))
  | threadStarts hplace hm => exact h.afterStart hplace hm
  | callbackReturns hplace => exact h.callbackReturns hplace
  | findWork hplace ht => exact h.takeRun (by rw [hplace]; trivial) ht
  | lastExit hplace hwork hm hone =>
      exact h.afterExit (by rw [hplace]; trivial) hwork.1 (.inr ⟨rfl, hm, hone⟩)
  | exit hplace hwork hc => exact h.afterExit (by rw [hplace]; trivial) hwork.1 (.inl rfl)
  | sleep hplace hwork hc hidleTime =>
      exact h.afterSleep (by rw [hplace]; trivial) hwork.1 hidleTime _
  | wakeTask hplace htask => exact h.run (by rw [hplace]; trivial)
  | wakeFindWork hplace htask ht => exact h.takeRun (by rw [hplace]; trivial) ht
  | wakeExit hplace htask hwork =>
      exact h.afterExit (by rw [hplace]; trivial) hwork.1 (.inl rfl)

end Inv

/-- **The invariant holds in every state of every run** in which condition
variables wake only when signalled. -/
theorem inv_of_reach {ok : Pool cfg → Action cfg → Prop} {s : Pool cfg}
    (hok : ∀ s a, ok s a → Signalled s a) (h : Reach step ok (create cfg) s) : s.Inv :=
  h.invariant (inv_create cfg) fun hinv ha hs ↦ hinv.step (hok _ _ ha) hs

end Pool

end Tidbits.ThreadPool
