import Tidbits.ThreadPool.Preservation

/-!
# A manager that waits has busy workers

`poThreadPool_runTask` waits for a new thread to start, or for room in the queue.
Until it is signalled, the queue stays full: a worker that finds a task signals
the manager.  So some worker is on its way to the signal.
-/

namespace Tidbits.ThreadPool

open Tidbits.Transition

variable {cfg : Config}

/-- The worker that makes the step. -/
def Action.mover : Action cfg → Option (WorkerId cfg)
  | .threadStarts w | .callbackReturns w | .looksForWork w _ | .wakes w | .spuriousWake w => some w
  | _ => none

/-- The critical sections that the master of a server runs. -/
def Action.OfMaster (a : Action cfg) : Prop :=
  (∃ f d now, a = .runTask f d now) ∨ (∃ now, a = .checkIdleThreadTimeout now) ∨
    ∃ now, a = .resume now

theorem Action.OfMaster.signalled {a : Action cfg} (h : a.OfMaster) {s : Pool cfg} :
    Signalled s a := by
  rcases h with ⟨f, d, now, rfl⟩ | ⟨now, rfl⟩ | ⟨now, rfl⟩ <;> rfl

namespace Manager

/-- The manager is in no pool function, or in `poThreadPool_runTask` of a pool with a queue. -/
def placing : Manager cfg → Bool
  | ready | waitStart _ _ _ | waitRoom _ _ => true
  | _ => false

@[simp] theorem placing_signal (m : Manager cfg) : m.signal.placing = m.placing := by
  cases m <;> rfl

theorem signalled_signal {m : Manager cfg} (h : m.signalled = true) :
    m.signal.signalled = true := by
  cases m <;> first | rfl | exact h

/-- A manager that waits, and is not signalled, waits for a start or for room. -/
theorem waits_of_placing {m : Manager cfg} (hp : m.placing = true) (hm : m ≠ ready)
    (hs : m.signalled = false) :
    (∃ w t, m = waitStart w t false) ∨ ∃ t, m = waitRoom t false := by
  cases m with
  | ready => exact absurd rfl hm
  | waitStart w t b =>
      cases hs
      exact .inl ⟨w, t, rfl⟩
  | waitRoom t b =>
      cases hs
      exact .inr ⟨t, rfl⟩
  | _ => cases hp

end Manager

namespace Pool

/-- As long as the manager waits for room in the queue, and is not signalled, the queue is not
empty. -/
def Crowded (s : Pool cfg) : Prop := ∀ t, s.manager = .waitRoom t false → 0 < s.queue.num

namespace Crowded

variable {s s' : Pool cfg} {w : WorkerId cfg} {t : Task}

theorem create (cfg : Config) : (create cfg).Crowded := fun _ h ↦ nomatch h

/-- The manager does not wait, or is signalled. -/
theorem of_ne (hm : ∀ t, s.manager ≠ .waitRoom t false) : s.Crowded := fun t h ↦ absurd h (hm t)

theorem of_signal {m : Manager cfg} (hm : s.manager = m.signal) : s.Crowded := by
  intro t h
  rw [hm] at h
  cases m <;> cases h

theorem congr (h : s.Crowded) (hm : s'.manager = s.manager) (hqueue : s'.queue = s.queue) :
    s'.Crowded := by
  intro t h'
  rw [hqueue]
  exact h t (hm ▸ h')

/-- Whoever takes a task signals the manager that waits for room. -/
theorem of_takeRun (hinv : s.Inv) (ht : Take s t s') : (s'.run w t).Crowded := by
  cases ht with
  | queue hlen hget =>
      by_cases hwait : s.taskWaitingToBeRun = true
      · exact of_signal (m := s.manager) (if_pos hwait)
      · refine of_ne fun t' hm ↦ hwait ?_
        have hm : s.manager = .waitRoom t' false := (if_neg hwait).symm.trans hm
        rw [hinv.blocked, hm]
        rfl
  | oneTask hlen hwait htask => exact of_signal (m := s.manager) rfl

theorem placement {now : Time} (hp : Placement s t now s') : s'.Crowded := by
  cases hp with
  | waitRoom hidle hunused hlen hfull =>
      intro t' _
      rw [hfull]
      exact hlen
  | _ => exact fun _ h ↦ nomatch h

theorem step (h : s.Crowded) (hinv : s.Inv) {a : Action cfg} (ha : Signalled s a)
    (hs : step s a = some s') : s'.Crowded := by
  cases hinv.step_cases ha hs with
  | runInCaller => exact h.congr rfl rfl
  | runTask _ _ hp | resumeRoom _ hp => exact placement hp
  | checkIdleThreadTimeout hm ht => cases ht <;> exact h.congr rfl rfl
  | destroy _ _ hd | joined _ _ hd => cases hd <;> exact fun _ h ↦ nomatch h
  | destroyNothing | resumeStart | resumeTaken | resumeCleanup | destroyPool | lastExit =>
      exact fun _ h ↦ nomatch h
  | threadStarts => exact of_signal (m := s.manager) rfl
  | findWork _ ht | wakeFindWork _ _ ht => exact of_takeRun hinv ht
  | callbackReturns | exit | sleep | wakeTask | wakeExit => exact h.congr rfl rfl

end Crowded

variable {s : Pool cfg}

/-- **A manager that waits in `poThreadPool_runTask`, and is not signalled, waits for a worker**
that is about to start, in the user callback, or about to look for work. -/
theorem Inv.exists_busy (h : s.Inv) (hcrowded : s.Crowded) (hthreads : 0 < cfg.maxNumThreads)
    (hm : (∃ w t, s.manager = .waitStart w t false) ∨ ∃ t, s.manager = .waitRoom t false) :
    ∃ w, (s.worker w).place ≠ .noThread ∧ (s.worker w).place ≠ .waiting := by
  rcases hm with ⟨w, t, hm⟩ | ⟨t, hm⟩
  · refine ⟨w, ?_, ?_⟩ <;>
      · rw [(h.waitStart w t hm).1]
        exact Place.noConfusion
  · obtain ⟨hidle, hunused⟩ := h.queue_busy (hcrowded t hm)
    refine ⟨⟨0, hthreads⟩, fun hp ↦ ?_, fun hp ↦ ?_⟩
    · have hmem := (h.mem_unused _).mpr hp
      rw [hunused] at hmem
      cases hmem
    · have hmem := (h.mem_idle _).mpr hp
      rw [hidle] at hmem
      cases hmem

/-! ## Who changes what -/

/-- A busy worker, or one about to start, is left alone by the manager. -/
def Spares (s s' : Pool cfg) : Prop :=
  ∀ w, (s.worker w).place ≠ .noThread → (s.worker w).place ≠ .waiting → s'.worker w = s.worker w

namespace Spares

variable {s' : Pool cfg} {w : WorkerId cfg} {t : Task} {now : Time}

theorem of_worker (h : s'.worker = s.worker) : s.Spares s' := fun w _ _ ↦ congrFun h w

/-- A worker that waits or has no thread changes. -/
theorem of_update {x : Worker} (h : s'.worker = Function.update s.worker w x)
    (hw : (s.worker w).place = .noThread ∨ (s.worker w).place = .waiting) : s.Spares s' := by
  intro v hthread hwait
  have hv : v ≠ w := by
    rintro rfl
    rcases hw with hw | hw
    · exact hthread hw
    · exact hwait hw
  rw [h, Function.update_of_ne hv]

theorem timeout (hinv : Placed s.worker s.idle s.unused) (ht : Timeout s now s') :
    s.Spares s' := by
  cases ht with
  | none => exact of_worker rfl
  | @wake v idle hidle =>
      exact of_update rfl (.inr ((hinv.mem_idle v).mp (by rw [hidle]; simp)))

theorem placement (hp : Placement s t now s') (hinv : Placed s.worker s.idle s.unused) :
    s.Spares s' := by
  cases hp with
  | @handOver v idle u hidle ht =>
      have hv : (s.worker v).place = .waiting := (hinv.mem_idle v).mp (by rw [hidle]; simp)
      have hspares : s.Spares (s.afterWake v idle (some t)) := of_update rfl (.inr hv)
      cases ht with
      | none => exact hspares
      | @wake v' idle' hidle' =>
          -- the second worker woken comes from the rest of the list
          have hidle' : idle = idle' ++ [v'] := hidle'
          have hv' : (s.worker v').place = .waiting :=
            (hinv.mem_idle v').mp (by rw [hidle, hidle']; simp)
          intro x hthread hwait
          have hx : x ≠ v' := by
            rintro rfl
            exact hwait hv'
          exact (Function.update_of_ne hx _ _).trans (hspares x hthread hwait)
  | @create v unused hidle hunused =>
      exact of_update rfl (.inl ((hinv.mem_unused v).mp (by rw [hunused]; simp)))
  | queue | waitRoom | waitTaken => exact of_worker rfl

theorem step (hinv : s.Inv) {a : Action cfg} (ha : a.OfMaster) (hs : step s a = some s') :
    s.Spares s' := by
  cases hinv.step_cases ha.signalled hs with
  | runInCaller | resumeStart | resumeTaken | resumeCleanup => exact of_worker rfl
  | runTask _ _ hp | resumeRoom _ hp => exact fun w ↦ placement hp hinv.toPlaced w
  | checkIdleThreadTimeout hm ht => exact timeout hinv.toPlaced ht
  | _ => simp [Action.OfMaster] at ha

end Spares

/-- The critical sections of the master let it return, or wait until it is signalled. -/
theorem Inv.placing_of_section {s' : Pool cfg} {a : Action cfg} (h : s.Inv)
    (hlen : 0 < cfg.queueLength) (hplacing : s.manager.placing = true)
    (ha : a.OfMaster) (hs : ThreadPool.step s a = some s') :
    s'.manager.placing = true ∧ s'.manager.signalled = false := by
  have hplaced : ∀ {u : Pool cfg} {t : Task} {now : Time}, Placement u t now s' →
      s'.manager.placing = true ∧ s'.manager.signalled = false := by
    intro u t now hp
    cases hp with
    | waitTaken hidle hunused hlen' => exact absurd hlen' (Nat.pos_iff_ne_zero.mp hlen)
    | _ => exact ⟨rfl, rfl⟩
  cases h.step_cases ha.signalled hs with
  | runInCaller hthreads hm => exact ⟨hplacing, hm ▸ rfl⟩
  | runTask _ _ hp | resumeRoom _ hp => exact hplaced hp
  | resumeStart => exact ⟨rfl, rfl⟩
  | resumeTaken hm | resumeCleanup hm =>
      rw [hm] at hplacing
      cases hplacing
  | checkIdleThreadTimeout hm ht => cases ht <;> exact ⟨hplacing, hm ▸ rfl⟩
  | _ => simp [Action.OfMaster] at ha

/-- A step of a worker changes no other worker, and of the manager it at most signals it. -/
theorem Inv.step_of_mover {s' : Pool cfg} {w : WorkerId cfg} {a : Action cfg} (h : s.Inv)
    (ha : Signalled s a) (hmover : a.mover = some w) (hs : ThreadPool.step s a = some s') :
    (s'.manager = s.manager ∨ s'.manager = s.manager.signal) ∧
      ∀ v, v ≠ w → s'.worker v = s.worker v := by
  have htake : ∀ {t : Task} {u : Pool cfg} (v : WorkerId cfg), Take s t u →
      ((u.run v t).manager = s.manager ∨ (u.run v t).manager = s.manager.signal) ∧
        ∀ x, x ≠ v → (u.run v t).worker x = s.worker x := by
    intro t u v ht
    refine ⟨?_, fun x hx ↦ ?_⟩
    · cases ht with
      | queue hlen hget =>
          show (if _ then _ else _) = _ ∨ (if _ then _ else _) = _
          split_ifs
          · exact .inr rfl
          · exact .inl rfl
      | oneTask hlen hwait htask => exact .inr rfl
    · exact (Function.update_of_ne hx _ _).trans (congrFun ht.worker_eq x)
  cases h.step_cases ha hs with
  | threadStarts =>
      cases hmover
      exact ⟨.inr rfl, fun v hv ↦ Function.update_of_ne hv _ _⟩
  | findWork _ ht | wakeFindWork _ _ ht =>
      cases hmover
      exact htake w ht
  | lastExit hplace hwork hm hone =>
      cases hmover
      refine ⟨.inr ?_, fun v hv ↦ Function.update_of_ne hv _ _⟩
      rw [hm]
      rfl
  | callbackReturns | exit | sleep | wakeTask | wakeExit =>
      cases hmover
      exact ⟨.inl rfl, fun v hv ↦ Function.update_of_ne hv _ _⟩
  | _ => cases hmover

end Pool

end Tidbits.ThreadPool
