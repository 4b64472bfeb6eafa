import Tidbits.ThreadPool.Preservation

/-!
# Where every task is

A task that was passed to `poThreadPool_runTask` is in the queue, assigned to a
worker that is about to call it, running, finished, or still in the hands of
the manager.  `Accounted` says that these add up to the submissions, task by
task, and that a task was started as often as it runs or has run.

`Accounted.step` needs two things of a step beyond the state invariant.  The
counters of the queue must not wrap, so the length is at most `2 ^ 31`.  And no
worker may look for work between the signal that a waiting task was taken and
the return of the manager from its wait (`NoLateLook`): a pool without queue has
its task taken a second time then.
-/

namespace Tidbits.ThreadPool

open Tidbits.Transition Tidbits.Sequence

variable {cfg : Config}

namespace Worker

/-- The task of a worker that has not locked the mutex since it was assigned. -/
def assigned (x : Worker) : Option Task :=
  match x.place with
  | .starting | .woken => x.task
  | _ => none

/-- The task whose callback the worker is in. -/
def running (x : Worker) : Option Task :=
  match x.place with
  | .running t => some t
  | _ => none

end Worker

namespace Manager

/-- The task whose `poThreadPool_runTask` call has not returned. -/
def inRunTask : Manager cfg → Option Task
  | waitStart _ t _ | waitRoom t _ | waitTaken t _ => some t
  | _ => none

/-- The task that no worker and not the queue has received yet. -/
def pending : Manager cfg → Option Task
  | waitRoom t _ | waitTaken t false => some t
  | _ => none

theorem inRunTask_of_pending {m : Manager cfg} {t : Task} (h : m.pending = some t) :
    m.inRunTask = some t := by
  cases m with
  | waitTaken t' b => cases b <;> simp_all [pending, inRunTask]
  | _ => simp_all [pending, inRunTask]

/-- A signal changes what is pending only in a pool without queue. -/
theorem pending_signal {m : Manager cfg} (h : ∀ t b, m ≠ waitTaken t b) :
    m.signal.pending = m.pending := by
  cases m with
  | waitTaken t b => exact absurd rfl (h t b)
  | _ => rfl

end Manager

/-- The step is a look for work by a worker. -/
def Action.looks (s : Pool cfg) : Action cfg → Prop
  | .looksForWork _ _ => True
  | .wakes w => (s.worker w).task = none
  | _ => False

/-- Condition variables wake only when signalled, and no worker looks for work
between the signal for a waiting manager and its return from the wait. -/
def NoLateLook (s : Pool cfg) (a : Action cfg) : Prop :=
  Signalled s a ∧ (a.looks s → ∀ t, s.manager ≠ .waitTaken t true)

instance decidableLooks (s : Pool cfg) : (a : Action cfg) → Decidable (a.looks s)
  | .wakes w => inferInstanceAs (Decidable ((s.worker w).task = none))
  | .looksForWork _ _ => isTrue trivial
  | .runTask _ _ _ | .checkIdleThreadTimeout _ | .destroy | .resume _ | .joined | .destroyPool
  | .threadStarts _ | .callbackReturns _ | .spuriousWake _ => isFalse id

/-- The manager waits for its task to be taken, and it was. -/
def Manager.taken : Manager cfg → Bool
  | waitTaken _ signalled => signalled
  | _ => false

theorem Manager.forall_ne_waitTaken {m : Manager cfg} :
    (∀ t, m ≠ waitTaken t true) ↔ m.taken = false := by
  cases m with
  | waitTaken t signalled => cases signalled <;> simp [taken]
  | _ => simp [taken]

instance decidableNoLateLook : DecidableRel (@NoLateLook cfg) := fun _ _ ↦
  decidable_of_iff (_ ∧ (_ → _)) (and_congr_right' (imp_congr_right fun _ ↦
    Manager.forall_ne_waitTaken.symm))

namespace Pool

/-- How often `t` is in the queue. -/
def queued (s : Pool cfg) (t : Task) : ℕ :=
  (s.queue.contents cfg.queueLength).count (some t)

/-- How many workers hold `t`, where `f` says which task a worker holds. -/
def holders (s : Pool cfg) (f : Worker → Option Task) (t : Task) : ℕ :=
  (Finset.univ.filter fun w ↦ f (s.worker w) = some t).card

/-- How many workers are about to call `t`. -/
def assigned (s : Pool cfg) (t : Task) : ℕ := s.holders Worker.assigned t

/-- How many workers run `t`. -/
def running (s : Pool cfg) (t : Task) : ℕ := s.holders Worker.running t

/-- The submissions are accounted for, except for a task in the manager's hands. -/
structure Accounted (s : Pool cfg) (pending : Option Task) : Prop where
  placed : ∀ t, s.queued t + s.assigned t + s.running t + s.finished.count t +
    pending.toList.count t = s.submitted.count t
  started : ∀ t, s.started.count t = s.running t + s.finished.count t
  /-- Submissions are told apart by the number of the call. -/
  call_lt : ∀ t ∈ s.submitted, t.call < s.submitted.length
  nodup : s.submitted.Nodup

theorem count_some_cons (t t' : Task) (l : List (Option Task)) :
    (some t :: l).count (some t') = l.count (some t') + [t].count t' := by
  simp [List.count_cons]

/-- How the holders change with one worker. -/
theorem holders_update {s s' : Pool cfg} {w : WorkerId cfg} {x : Worker}
    (hworker : s'.worker = Function.update s.worker w x) (f : Worker → Option Task) (t : Task) :
    s'.holders f t + (f (s.worker w)).toList.count t = s.holders f t + (f x).toList.count t := by
  have hcount : ∀ o : Option Task, o.toList.count t = if o = some t then 1 else 0 := by
    intro o
    cases o with
    | none => rfl
    | some t' => simp [List.count_cons]
  rw [holders, holders, hworker, hcount, hcount]
  exact card_filter_update_add s.worker (fun y ↦ f y = some t) w x

namespace Accounted

variable {s s' : Pool cfg} {w : WorkerId cfg} {t : Task} {p : Option Task}

/-- Nothing changes that the accounts speak of. -/
theorem congr (h : s.Accounted p) (hqueue : s'.queue = s.queue) (hworker : s'.worker = s.worker)
    (hsubmitted : s'.submitted = s.submitted) (hstarted : s'.started = s.started)
    (hfinished : s'.finished = s.finished) : s'.Accounted p := by
  have hq : s'.queued = s.queued := by
    funext t
    rw [queued, queued, hqueue]
  have ha : s'.assigned = s.assigned := by
    funext t
    rw [assigned, assigned, holders, holders, hworker]
  have hr : s'.running = s.running := by
    funext t
    rw [running, running, holders, holders, hworker]
  constructor
  · intro t
    rw [hq, ha, hr, hfinished, hsubmitted]
    exact h.placed t
  · intro t
    rw [hr, hstarted, hfinished]
    exact h.started t
  · rw [hsubmitted]
    exact h.call_lt
  · rw [hsubmitted]
    exact h.nodup

/-- One worker and the queue change; the lists of submitted, started and finished
tasks grow by the given ones. -/
theorem move (h : s.Accounted p) {x : Worker} {p' : Option Task} (started finished : List Task)
    (hworker : s'.worker = Function.update s.worker w x) (hsubmitted : s'.submitted = s.submitted)
    (hstarted : s'.started = started ++ s.started)
    (hfinished : s'.finished = finished ++ s.finished)
    (hplaced : ∀ t, s'.queued t + x.assigned.toList.count t + x.running.toList.count t +
      finished.count t + p'.toList.count t = s.queued t + (s.worker w).assigned.toList.count t +
      (s.worker w).running.toList.count t + p.toList.count t)
    (hrun : ∀ t, started.count t + (s.worker w).running.toList.count t =
      x.running.toList.count t + finished.count t) : s'.Accounted p' := by
  constructor
  · intro t
    have ha := holders_update hworker Worker.assigned t
    have hr := holders_update hworker Worker.running t
    have hold := h.placed t
    have hnew := hplaced t
    simp only [assigned, running] at hold ⊢
    rw [hsubmitted, hfinished, List.count_append]
    omega
  · intro t
    have hr := holders_update hworker Worker.running t
    have hold := h.started t
    have hnew := hrun t
    simp only [running] at hold ⊢
    rw [hstarted, hfinished, List.count_append, List.count_append]
    omega
  · rw [hsubmitted]
    exact h.call_lt
  · rw [hsubmitted]
    exact h.nodup

/-- One worker changes, but not the task it holds. -/
theorem quiet (h : s.Accounted p) {x : Worker}
    (hworker : s'.worker = Function.update s.worker w x) (hqueue : s'.queue = s.queue)
    (hsubmitted : s'.submitted = s.submitted) (hstarted : s'.started = s.started)
    (hfinished : s'.finished = s.finished) (ha : (s.worker w).assigned = x.assigned)
    (hr : (s.worker w).running = x.running) : s'.Accounted p := by
  have hq : s'.queued = s.queued := by
    funext t
    rw [queued, queued, hqueue]
  refine h.move [] [] hworker hsubmitted hstarted hfinished (fun t ↦ ?_) (fun t ↦ ?_)
  · rw [hq, ha, hr]
    rfl
  · rw [hr]
    exact Nat.add_comm _ _

/-- A new submission is in the manager's hands. -/
theorem submit (h : s.Accounted none) (userCallback userData : ℕ) :
    Accounted { s with submitted := s.newTask userCallback userData :: s.submitted }
      (some (s.newTask userCallback userData)) where
  placed t := by
    have hold := h.placed t
    simp only [Option.toList_none, List.count_nil, Nat.add_zero] at hold
    simp only [Option.toList_some, List.count_cons, List.count_nil, Nat.zero_add, ← hold]
    rfl
  started := h.started
  call_lt t ht := by
    rcases List.mem_cons.mp ht with rfl | ht
    · exact Nat.lt_succ_self _
    · exact (h.call_lt t ht).trans (Nat.lt_succ_self _)
  nodup := by
    refine List.nodup_cons.mpr ⟨fun hmem ↦ ?_, h.nodup⟩
    exact absurd (h.call_lt _ hmem) (Nat.lt_irrefl _)

/-- A worker takes a task and runs it. -/
theorem takeRun (h : s.Accounted s.manager.pending) (hinv : s.Inv)
    (hlen : cfg.queueLength ≤ 2 ^ 31) (hlate : ∀ t, s.manager ≠ .waitTaken t true)
    (hassigned : (s.worker w).assigned = none) (hrunning : (s.worker w).running = none)
    (ht : Take s t s') : (s'.run w t).Accounted (s'.run w t).manager.pending := by
  cases ht with
  | @queue q hpos hget =>
      have hcontents := (hinv.queue_valid hpos).contents_queueGetNext hlen hget
      have htaken : ∀ t b, s.manager ≠ .waitTaken t b := by
        intro t' b hm
        exact absurd (hinv.waitTaken t' b hm).1 hpos.ne'
      have hpending : (if s.taskWaitingToBeRun then s.manager.signal else s.manager).pending =
          s.manager.pending := by
        split
        · exact Manager.pending_signal htaken
        · rfl
      refine h.move [t] [] rfl rfl rfl rfl (fun t' ↦ ?_) (fun t' ↦ ?_)
      · have hqueued :
            s.queued t' = (q.contents cfg.queueLength).count (some t') + [t].count t' := by
          rw [queued, hcontents]
          exact count_some_cons _ _ _
        change (q.contents cfg.queueLength).count (some t') + 0 + [t].count t' + 0 +
          (Manager.pending (if _ then _ else _)).toList.count t' = _
        rw [hpending, hassigned, hrunning, hqueued]
        simp only [Option.toList_none, List.count_nil]
        omega
      · rw [hrunning]
        rfl
  | oneTask hzero hwait htask =>
      have hblocked := hinv.blocked
      rw [hwait] at hblocked
      have hm : s.manager = .waitTaken t false := by
        cases hm : s.manager with
        | waitRoom t' b => exact absurd (hinv.waitRoom t' b hm) (by omega)
        | waitTaken t' b =>
            have ht : t' = t := Option.some.inj ((hinv.waitTaken t' b hm).2.symm.trans htask)
            cases b with
            | false => rw [ht]
            | true => exact absurd hm (hlate t')
        | _ => simp [hm, Manager.blocked] at hblocked
      refine h.move [t] [] rfl rfl rfl rfl (fun t' ↦ ?_) (fun t' ↦ ?_)
      · change s.queued t' + 0 + [t].count t' + 0 + s.manager.signal.pending.toList.count t' = _
        rw [hm, hassigned, hrunning]
        rfl
      · rw [hrunning]
        rfl

/-- A worker runs the task it was assigned. -/
theorem runAssigned (h : s.Accounted p) (hassigned : (s.worker w).assigned = some t)
    (hrunning : (s.worker w).running = none) {x : Worker} (hx : x.place = .running t)
    (hworker : s'.worker = Function.update s.worker w x) (hqueue : s'.queue = s.queue)
    (hsubmitted : s'.submitted = s.submitted) (hstarted : s'.started = t :: s.started)
    (hfinished : s'.finished = s.finished) : s'.Accounted p := by
  have hq : s'.queued = s.queued := by
    funext t
    rw [queued, queued, hqueue]
  have ha : x.assigned = none := by simp [Worker.assigned, hx]
  have hr : x.running = some t := by simp [Worker.running, hx]
  refine h.move [t] [] hworker hsubmitted hstarted hfinished (fun t' ↦ ?_) (fun t' ↦ ?_)
  · rw [hq, ha, hr, hassigned, hrunning]
    simp only [Option.toList_none, List.count_nil]
    omega
  · rw [hr, hrunning]
    rfl

/-- The callback of a worker returns. -/
theorem callbackReturns (h : s.Accounted p) (hplace : (s.worker w).place = .running t) :
    (s.callbackReturns w t).Accounted p := by
  have hassigned : (s.worker w).assigned = none := by simp [Worker.assigned, hplace]
  have hrunning : (s.worker w).running = some t := by simp [Worker.running, hplace]
  refine h.move [] [t] rfl rfl rfl rfl (fun t' ↦ ?_) (fun t' ↦ ?_)
  · change s.queued t' + 0 + 0 + [t].count t' + p.toList.count t' = _
    rw [hassigned, hrunning]
    simp only [Option.toList_none, Option.toList_some, List.count_nil, Nat.add_zero]
  · rw [hrunning]
    rfl

theorem timeout {now : Time} (h : s.Accounted p) (hidle : s.IdleWaits) (ht : Timeout s now s') :
    s'.Accounted p := by
  cases ht with
  | none => exact h
  | @wake w idle hw _ _ =>
      have hplace := (hidle w (by simp [hw])).1
      exact h.quiet rfl rfl rfl rfl rfl (by simp [Worker.assigned, hplace])
        (by simp [Worker.running, hplace])

theorem destroy (h : s.Accounted p) (hidle : s.IdleWaits) (hd : Destroy s s') :
    s'.Accounted p := by
  cases hd with
  | @join w idle hw =>
      have hplace := (hidle w (by simp [hw])).1
      exact h.quiet rfl rfl rfl rfl rfl (by simp [Worker.assigned, hplace])
        (by simp [Worker.running, hplace])
  | wait | done => exact h.congr rfl rfl rfl rfl rfl

/-- The manager assigns the task in its hands to a worker without one. -/
theorem assign (h : s.Accounted (some t)) (hassigned : (s.worker w).assigned = none)
    (hrunning : (s.worker w).running = none) {x : Worker} (ha : x.assigned = some t)
    (hr : x.running = none) (hworker : s'.worker = Function.update s.worker w x)
    (hqueue : s'.queue = s.queue) (hsubmitted : s'.submitted = s.submitted)
    (hstarted : s'.started = s.started) (hfinished : s'.finished = s.finished) :
    s'.Accounted none := by
  have hq : s'.queued = s.queued := by
    funext t
    rw [queued, queued, hqueue]
  refine h.move [] [] hworker hsubmitted hstarted hfinished (fun t' ↦ ?_) (fun t' ↦ ?_)
  · rw [hq, ha, hr, hassigned, hrunning]
    simp only [Option.toList_none, List.count_nil]
    omega
  · rw [hr, hrunning]
    rfl

/-- The manager places the task in its hands, or keeps it and waits. -/
theorem placement {now : Time} (h : s.Accounted (some t)) (hinv : s.Inv)
    (hlen : cfg.queueLength ≤ 2 ^ 31) (hp : Placement s t now s') :
    s'.Accounted s'.manager.pending := by
  cases hp with
  | @handOver w idle s₁ hidle htimeout =>
      have hplace := (hinv.idleWaits w (by simp [hidle])).1
      have hrest : { s.afterWake w idle (some t) with handed := t :: s.handed }.IdleWaits :=
        hinv.idleWaits_afterWake hidle (some t)
      have hassign : { s.afterWake w idle (some t) with handed := t :: s.handed }.Accounted none :=
        h.assign (by simp [Worker.assigned, hplace]) (by simp [Worker.running, hplace])
          (by rfl) (by rfl) rfl rfl rfl rfl rfl
      have hacc : s₁.Accounted none := hassign.timeout hrest htimeout
      exact hacc.congr rfl rfl rfl rfl rfl
  | @create w unused _ hunused =>
      have hplace := (hinv.mem_unused w).mp (by simp [hunused])
      exact h.assign (by simp [Worker.assigned, hplace]) (by simp [Worker.running, hplace])
        (by rfl) (by rfl) rfl rfl rfl rfl rfl
  | @queue q _ _ hpos hq =>
      have hcontents := ((hinv.queue_valid hpos).contents_queueMakeNewEntry hlen hq).1
      refine { placed := fun t' ↦ ?_, started := h.started, call_lt := h.call_lt, nodup := h.nodup }
      have hold := h.placed t'
      have hqueued : (q.contents cfg.queueLength).count (some t') =
          s.queued t' + [t].count t' := by
        rw [hcontents, List.count_append, queued, count_some_cons, List.count_nil, Nat.zero_add]
      change (q.contents cfg.queueLength).count (some t') + s.assigned t' + s.running t' +
        s.finished.count t' + 0 = s.submitted.count t'
      rw [hqueued, ← hold, Option.toList_some]
      omega
  | waitRoom | waitTaken => exact h.congr rfl rfl rfl rfl rfl

/-- **A step that is not a late look for work keeps the accounts.** -/
theorem step (h : s.Accounted s.manager.pending) (hinv : s.Inv) (hlen : cfg.queueLength ≤ 2 ^ 31)
    {a : Action cfg} (ha : NoLateLook s a) (hs : step s a = some s') :
    s'.Accounted s'.manager.pending := by
  obtain ⟨hsig, hlate⟩ := ha
  cases hinv.step_cases hsig hs with
  | @runInCaller userCallback userData _ _ hm =>
      rw [hm] at h
      have hsub := h.submit userCallback userData
      refine { placed := fun t ↦ ?_, started := fun t ↦ ?_, call_lt := hsub.call_lt,
               nodup := hsub.nodup }
      · have hold := hsub.placed t
        change s.queued t + s.assigned t + s.running t +
          (s.newTask userCallback userData :: s.finished).count t + s.manager.pending.toList.count t
          = _
        rw [← hold, hm, ← List.singleton_append, List.count_append]
        simp only [Option.toList_some]
        change _ + _ + 0 = s.queued t + s.assigned t + s.running t + s.finished.count t + _
        omega
      · have hold := h.started t
        change (s.newTask userCallback userData :: s.started).count t =
          s.running t + (s.newTask userCallback userData :: s.finished).count t
        rw [List.count_cons, List.count_cons, hold, Nat.add_assoc]
  | runTask _ hm hp =>
      rw [hm] at h
      exact (h.submit _ _).placement (by exact { hinv with }) hlen hp
  | checkIdleThreadTimeout hm ht =>
      have hacc := h.timeout hinv.idleWaits ht
      cases ht <;> exact hacc
  | destroy _ hm hd =>
      rw [hm] at h
      have hacc := h.destroy hinv.idleWaits hd
      cases hd <;> exact hacc
  | joined hm _ hd =>
      rw [hm] at h
      have hacc := destroy (by exact h.congr rfl rfl rfl rfl rfl) (by exact hinv.idleWaits) hd
      cases hd <;> exact hacc
  | @resumeRoom _ t _ hm hp =>
      rw [hm] at h
      exact placement (by exact h.congr rfl rfl rfl rfl rfl) (hinv.unblock (by rw [hm]; rfl)) hlen
        hp
  | destroyNothing _ hm | resumeStart hm | resumeTaken hm | resumeCleanup hm | destroyPool hm =>
      rw [hm] at h
      exact h.congr rfl rfl rfl rfl rfl
  | @threadStarts w t hplace hm =>
      have htask := (hinv.waitStart w t hm).2
      rw [hm] at h
      have hacc : (s.afterStart w t).Accounted none :=
        h.runAssigned (by simpa [Worker.assigned, hplace] using htask)
          (by simp [Worker.running, hplace]) rfl rfl rfl rfl rfl rfl
      have hpending : (s.afterStart w t).manager.pending = none := by
        simp [afterStart, hm, Manager.signal, Manager.pending]
      rwa [hpending]
  | callbackReturns hplace => exact h.callbackReturns hplace
  | findWork hplace ht =>
      exact h.takeRun hinv hlen (hlate trivial) (by simp [Worker.assigned, hplace])
        (by simp [Worker.running, hplace]) ht
  | lastExit hplace _ hm =>
      rw [hm] at h
      exact h.quiet rfl rfl rfl rfl rfl (by simp [Worker.assigned, hplace])
        (by simp [Worker.running, hplace])
  | exit hplace | sleep hplace =>
      exact h.quiet rfl rfl rfl rfl rfl (by simp [Worker.assigned, hplace])
        (by simp [Worker.running, hplace])
  | wakeTask hplace htask =>
      exact h.runAssigned (by simpa [Worker.assigned, hplace] using htask)
        (by simp [Worker.running, hplace]) rfl rfl rfl rfl rfl rfl
  | wakeFindWork hplace htask ht =>
      exact h.takeRun hinv hlen (hlate htask) (by simpa [Worker.assigned, hplace] using htask)
        (by simp [Worker.running, hplace]) ht
  | wakeExit hplace htask =>
      exact h.quiet rfl rfl rfl rfl rfl (by simp [Worker.assigned, hplace, htask])
        (by simp [Worker.running, hplace])

/-- The fresh pool has no submissions. -/
theorem create (cfg : Config) : (create cfg).Accounted none where
  placed t := by
    simp [Pool.create, queued, assigned, running, holders, Worker.assigned, Worker.running]
  started t := by simp [Pool.create, running, holders, Worker.running]
  call_lt t ht := by cases ht
  nodup := List.nodup_nil

end Accounted

/-- **The submissions are accounted for in every run** without a late look for
work. -/
theorem accounted_of_reach {s : Pool cfg} (hlen : cfg.queueLength ≤ 2 ^ 31)
    (h : Reach step NoLateLook (create cfg) s) : s.Accounted s.manager.pending :=
  Reach.invariant_of (I := fun s ↦ s.Accounted s.manager.pending) h
    (fun hr ↦ inv_of_reach (fun _ _ ha ↦ ha.1) hr) (Accounted.create cfg)
    fun hinv hacc ha hs ↦ hacc.step hinv hlen ha hs

end Pool

end Tidbits.ThreadPool
