import Tidbits.Server.Queues
import Tidbits.Transition.Observed

/-!
# Unused structs and waiting listeners

When the connection structs are all in use, `lookForAcceptFromTimedOutConns` removes the
oldest connection, if it is old enough, and calls `accept()` for the first of the waiting
listeners; as long as there are a waiting listener and an old connection it does so again.

It does not look whether that `accept()` has brought a connection.  If it has not, and
another listener waits, then the struct stays unused: the loop removes the next old
connection all the same, or the master goes to `epoll_wait()` with a listener waiting
that it could accept from.  With threads it also does so when a task removes a connection
between the unlocking of the server mutex and `epoll_wait()` (`keepsSlots_iff_of_reach`).
-/

namespace Tidbits.Server

open Transition

variable {cfg : Config} {P : ℕ → ℕ → Prop}

namespace POServer

/-- The call of `_poServer_accept` brings no connection and leaves a listener waiting. -/
def leavesWaiting (s : POServer cfg) : AcceptResult → Bool
  | .again => decide (1 < s.waiting.length)
  | .accepted _ _ | .failed => false

/-- The task is about to remove its connection. -/
def taskRemoves (s : POServer cfg) (i : ℕ) : Bool :=
  (s.store.worker i).any fun w ↦
    match w.place with
    | .lockConn removeMe =>
        decide ((s.store.conn w.conn).changeCount = w.changeCount ∧ removeMe = true) ||
          (s.store.conn w.conn).markedForRemoval
    | _ => false

/-- What is noted from the start of `lookForAcceptFromTimedOutConns` to the call of `epoll_wait()`:
one of its `accept()` calls has brought no connection and left a listener waiting, or a task has
removed a connection since the server mutex was unlocked. -/
def notesSpare (s : POServer cfg) (a : Action cfg) (spare : Bool) : Bool :=
  match a, s.master with
  | .accept r, .waitAccept _ _ => spare || s.leavesWaiting r
  | .work i _ _, .unlocked => spare || s.taskRemoves i
  | .proceed _ _, .waitSweep _ _ => spare
  | .proceed _ _, _ => false
  | _, _ => spare

/-- A connection is removed for the wait timeout only when there is no unused struct, and
`epoll_wait()` is called only without one or without a waiting listener. -/
structure KeepsSlots (s s' : POServer cfg) : Prop where
  removes : ∀ t caller, s.master = .waitSweep t caller → s'.master = .waitAccept t caller →
    s.store.lists.back = none
  reaches : s.master ≠ .epollWait → s'.master = .epollWait →
    s'.waiting = [] ∨ s'.store.lists.back = none

/-- After that, with a listener still waiting, the loop removes another connection or `epoll_wait()`
is called. -/
def Wastes (p : POServer cfg × Bool) (a : Action cfg) : Prop :=
  p.2 = true ∧ p.1.waiting ≠ [] ∧ (∃ now ok, a = .proceed now ok) ∧
    (p.1.master = .unlocked ∨ ∃ t caller, p.1.master = .waitSweep t caller ∧
      ∃ c ∈ p.1.timedOut t cfg.waitTimeout, p.1.store.canLock c = true)

/-- What holds of the unused structs from the start of the loop to the call of `epoll_wait()`. -/
def Fits (p : POServer cfg × Bool) : Prop :=
  match p.1.master with
  | .waitSweep _ _ | .unlocked =>
      ∃ used unused, p.1.store.lists.Holds used unused ∧
        (p.2 = false → p.1.waiting = [] ∨ unused = []) ∧ (p.2 = true → unused ≠ [])
  | .waitAccept _ _ =>
      p.1.waiting ≠ [] ∧ ∃ used unused c, p.1.store.lists.Holds used (unused ++ [c]) ∧
        (p.2 = false → unused = []) ∧ (p.2 = true → unused ≠ [])
  | _ => True

variable {s s' : POServer cfg} {a : Action cfg} {spare : Bool} {t now : Time} {ok : Bool}
  {caller : Option (List (Event cfg))} {p q : POServer cfg × Bool}

theorem step_waitSweep (hrun : s.store.exited = false) (hm : s.master = .waitSweep t caller) :
    step s (.proceed now ok) = some (s.waitSweep t caller ok) :=
  step_proceed_eq_some.mpr ⟨hrun, by simp only [proceed, hm]⟩

/-- A turn removes the oldest connection, or it ends the loop. -/
theorem waitSweep_cases (s : POServer cfg) (t : Time) (caller : Option (List (Event cfg)))
    (ok : Bool) :
    (∃ c, s.waiting ≠ [] ∧ s.timedOut t cfg.waitTimeout = some c ∧ s.store.canLock c = true ∧
        s.waitSweep t caller ok =
          { s.checkTryRemove c none ok with master := .waitAccept t caller }) ∨
      (s.waiting = [] ∨ ∀ c ∈ s.timedOut t cfg.waitTimeout, s.store.canLock c = false) ∧
        ∃ store, store.lists = s.store.lists ∧
          s.waitSweep t caller ok = { s with store := store }.lookedForAccept caller := by
  unfold waitSweep
  split
  · rename_i l rest c hwaiting hold
    have hne : s.waiting ≠ [] := by
      rw [hwaiting]
      exact List.cons_ne_nil l rest
    by_cases hlock : s.store.canLock c = true
    · have hremoved : (s.store.checkTryRemoveConnection c none ok).2 = true := by
        rw [Store.checkTryRemoveConnection, if_pos hlock]
      rw [if_pos hremoved]
      exact .inl ⟨c, hne, hold, hlock, rfl⟩
    · have hkept : (s.store.checkTryRemoveConnection c none ok).2 = false := by
        rw [Store.checkTryRemoveConnection, if_neg hlock]
      have hlists : (s.store.checkTryRemoveConnection c none ok).1.lists = s.store.lists := by
        rw [Store.checkTryRemoveConnection, if_neg hlock]
        rfl
      rw [if_neg (by rw [hkept]; exact Bool.false_ne_true)]
      refine .inr ⟨.inr fun x hx ↦ ?_, _, hlists, rfl⟩
      cases hold.symm.trans hx
      exact Bool.not_eq_true _ ▸ hlock
  · rename_i hnot
    refine .inr ⟨?_, s.store, rfl, rfl⟩
    cases hwaiting : s.waiting with
    | nil => exact .inl rfl
    | cons l rest => exact .inr fun c hc ↦ (hnot l rest c hwaiting hc).elim

/-- While the master is in the loop, only its own turns and its `accept()` calls change anything. -/
theorem undisturbed_waitSweep (hcore : s.Core P)
    (hm : (∃ t caller, s.master = .waitSweep t caller) ∧ (∀ now ok, a ≠ .proceed now ok) ∨
      (∃ t caller, s.master = .waitAccept t caller) ∧ ∀ r, a ≠ .accept r)
    (hs : step s a = some s') :
    s.store.SameQueues s'.store ∧ s'.waiting = s.waiting ∧ s'.master = s.master ∧
      notesSpare s a spare = spare := by
  have hproceed : ∀ now ok, a ≠ .proceed now ok := by
    rintro now ok rfl
    rcases hm with ⟨-, hnot⟩ | ⟨⟨t, caller, hm⟩, -⟩
    · exact hnot now ok rfl
    · simp [step_proceed_eq_some, proceed, hm] at hs
  have haccept : ∀ r, a ≠ .accept r := by
    rintro r rfl
    rcases hm with ⟨⟨t, caller, hm⟩, -⟩ | ⟨-, hnot⟩
    · simp [step_accept_eq_some, afterAccept, hm] at hs
    · exact hnot r rfl
  have hserve : ∀ b ok, a ≠ .serve b ok := by
    rintro b ok rfl
    rcases hm with ⟨⟨t, caller, hm⟩, -⟩ | ⟨⟨t, caller, hm⟩, -⟩ <;>
      simp [step_serve_eq_some, hm] at hs
  have hholds : s.master.Holds := by
    rcases hm with ⟨⟨t, caller, hm⟩, -⟩ | ⟨⟨t, caller, hm⟩, -⟩ <;> exact hm ▸ trivial
  obtain ⟨-, hsame, hwaiting, hmaster⟩ :=
    hcore.undisturbed_of_master hholds hproceed haccept hserve hs
  refine ⟨hsame, hwaiting, hmaster, ?_⟩
  cases a with
  | proceed now ok => exact absurd rfl (hproceed now ok)
  | accept r => exact absurd rfl (haccept r)
  | work i b ok =>
      unfold notesSpare
      rcases hm with ⟨⟨t, caller, hm⟩, -⟩ | ⟨⟨t, caller, hm⟩, -⟩ <;> rw [hm]
  | _ => rfl

/-- A task removes a connection, or it leaves the lists alone. -/
theorem requeues_of_work {i : ℕ} {b : ServiceAction} (hs : step s (.work i b ok) = some s')
    (hrun : s'.store.exited = false) :
    (s.taskRemoves i = true ∧ ∃ c, s.store.Drops c s'.store) ∨
      s.taskRemoves i = false ∧ s.store.SameQueues s'.store := by
  obtain ⟨-, w, hw, hs⟩ := step_work_eq_some.mp hs
  unfold taskRemoves
  rw [hw, Option.any_some]
  by_cases hplace : ∀ removeMe, w.place ≠ .lockConn removeMe
  · refine .inr ⟨?_, sameQueues_work hplace hs⟩
    split
    · next removeMe hp => exact absurd hp (hplace removeMe)
    · rfl
  · cases taskProceeds hs with
    | lockServer hp hfree ha => exact absurd (fun _ hne ↦ nomatch hp.symm.trans hne) hplace
    | service hp hstore => exact absurd hp hplace
    | @lockConn removeMe hp hfree ha =>
        rw [hp]
        dsimp only at hrun ⊢
        unfold Store.finishService at hrun ⊢
        dsimp only at hrun ⊢
        split_ifs at hrun ⊢ with hcur hexit hmark hexit hexit
        · exact nomatch hexit.symm.trans hrun
        · refine .inl ⟨by rw [decide_eq_true hcur, Bool.true_or], w.conn, ?_⟩
          have hdrops := (Store.drops_removeConnection (Bool.not_eq_true _ ▸ hexit)).of_affect
          exact ⟨hdrops.opened, hdrops.lists, hdrops.acceptTime⟩
        · exact nomatch hexit.symm.trans hrun
        · refine .inl ⟨by rw [hmark, Bool.or_true], w.conn, ?_⟩
          have hdrops := (Store.drops_removeConnection (Bool.not_eq_true _ ▸ hexit)).of_affect
          exact ⟨hdrops.opened, hdrops.lists, hdrops.acceptTime⟩
        · exact nomatch hexit.symm.trans hrun
        · refine .inr ⟨?_, rfl, fun _ ↦ rfl⟩
          rw [decide_eq_false hcur, Bool.false_or, Bool.eq_false_iff.mpr hmark]

/-- Between the unlocking and `epoll_wait()` only the tasks change the lists. -/
theorem cases_unlocked (spare : Bool) (hm : s.master = .unlocked) (hs : step s a = some s') :
    ((∃ now ok, a = .proceed now ok) ∧ s' = { s with master := .epollWait }) ∨
      s'.waiting = s.waiting ∧ s'.master = .unlocked ∧ (s'.store.exited = false →
        ((notesSpare s a spare = true ∧ ∃ c, s.store.Drops c s'.store) ∨
          notesSpare s a spare = spare ∧ s.store.SameQueues s'.store)) := by
  cases a with
  | doNextEvents now =>
      obtain ⟨-, hcond, -⟩ := step_doNextEvents_eq_some.mp hs
      cases hm.symm.trans hcond.1
  | proceed now ok =>
      have hstep := (step_proceed_eq_some.mp hs).2
      simp only [proceed, hm] at hstep
      cases hstep
      exact .inl ⟨⟨now, ok, rfl⟩, rfl⟩
  | accept r =>
      obtain ⟨-, m, hafter, -⟩ := step_accept_eq_some.mp hs
      simp [afterAccept, hm] at hafter
  | epollWait batch =>
      obtain ⟨-, hcond, -⟩ := step_epollWait_eq_some.mp hs
      cases hm.symm.trans hcond.1
  | serve b ok =>
      obtain ⟨-, e, rest, phase, hserving, -⟩ := step_serve_eq_some.mp hs
      cases hm.symm.trans hserving
  | work i b ok =>
      obtain ⟨-, w, -, hwork⟩ := step_work_eq_some.mp hs
      have hnote : notesSpare s (.work i b ok) spare = (spare || s.taskRemoves i) := by
        simp only [notesSpare, hm]
      obtain ⟨hlisteners, hmaster⟩ := sameListeners_work hwork
      refine .inr ⟨hlisteners.waiting, hmaster.trans hm, fun hrun ↦ ?_⟩
      rw [hnote]
      rcases requeues_of_work hs hrun with ⟨hremoves, hdrops⟩ | ⟨hkeeps, hsame⟩
      · rw [hremoves, Bool.or_true]
        exact .inl ⟨rfl, hdrops⟩
      · rw [hkeeps, Bool.or_false]
        exact .inr ⟨rfl, hsame⟩
  | stop =>
      obtain ⟨-, rfl⟩ := step_stop_eq_some.mp hs
      exact .inr ⟨rfl, hm, fun _ ↦ .inr ⟨rfl, .refl _⟩⟩
  | shutdown =>
      obtain ⟨-, hcond, -⟩ := step_shutdown_eq_some.mp hs
      cases hm.symm.trans hcond

/-- Nobody else calls `epoll_wait()`. -/
theorem master_of_unlocked (hm : s.master = .unlocked) (ha : ¬ ∃ now ok, a = .proceed now ok)
    (hs : step s a = some s') : s'.master = .unlocked := by
  rcases cases_unlocked false hm hs with ⟨hproceed, -⟩ | ⟨-, hm', -⟩
  · exact absurd hproceed ha
  · exact hm'

namespace Fits

theorem congr (h : Fits p) (hlists : q.1.store.lists = p.1.store.lists)
    (hwaiting : q.1.waiting = p.1.waiting) (hmaster : q.1.master = p.1.master)
    (hspare : q.2 = p.2) : Fits q := by
  unfold Fits at h ⊢
  rw [hmaster, hlists, hwaiting, hspare]
  exact h

/-- A turn of the loop. -/
theorem waitSweep (h : Fits (s, spare)) (hcore : s.Core P) (hm : s.master = .waitSweep t caller)
    (hrun : (s.waitSweep t caller ok).store.exited = false) :
    Fits (s.waitSweep t caller ok, spare) := by
  unfold Fits at h
  simp only [hm] at h
  obtain ⟨used, unused, hholds, hnone, hsome⟩ := h
  rcases waitSweep_cases s t caller ok with
    ⟨c, hne, hold, hlock, heq⟩ | ⟨-, store, hlists, heq⟩
  · rw [heq] at hrun ⊢
    refine ⟨hne, ?_⟩
    rcases Store.checkTryRemoveConnection_queues hrun with ⟨-, hdrops, -⟩ | ⟨hheld, -, -⟩
    · have hused : c ∈ used := by
        rw [← hholds.usedWalk_eq]
        exact hcore.sound.slots.mem_usedWalk.mpr hdrops.opened
      obtain ⟨used₁, used₂, -, hholds'⟩ := hdrops.holds hholds hused
      exact ⟨used₁ ++ used₂, unused, c, hholds', fun hspare ↦ (hnone hspare).resolve_left hne,
        hsome⟩
    · cases hlock.symm.trans hheld
  · rw [heq]
    cases caller with
    | none => exact ⟨used, unused, hlists.symm ▸ hholds, hnone, hsome⟩
    | some rest => trivial

/-- Between the unlocking of the server mutex and `epoll_wait()`. -/
theorem unlocked (h : Fits (s, spare)) (hcore : s.Core P) (hm : s.master = .unlocked)
    (hs : Server.step s a = some s') (hrun : s'.store.exited = false) :
    Fits (s', notesSpare s a spare) := by
  unfold Fits at h
  simp only [hm] at h
  obtain ⟨used, unused, hholds, hnone, hsome⟩ := h
  rcases cases_unlocked spare hm hs with ⟨-, rfl⟩ | ⟨hwaiting, hm', hnote⟩
  · trivial
  unfold Fits
  simp only [hm']
  rcases hnote hrun with ⟨hnote, c, hdrops⟩ | ⟨hnote, hsame⟩
  · have hused : c ∈ used := by
      rw [← hholds.usedWalk_eq]
      exact hcore.sound.slots.mem_usedWalk.mpr hdrops.opened
    obtain ⟨used₁, used₂, -, hholds'⟩ := hdrops.holds hholds hused
    refine ⟨used₁ ++ used₂, unused ++ [c], hholds', fun hspare ↦ ?_,
      fun _ ↦ List.append_ne_nil_of_right_ne_nil _ (List.cons_ne_nil c [])⟩
    exact nomatch hnote.symm.trans hspare
  · rw [hnote, hwaiting, hsame.lists]
    exact ⟨used, unused, hholds, hnone, hsome⟩

/-- The `accept()` of the loop. -/
theorem accept {r : AcceptResult} {s' : POServer cfg} (h : Fits (s, spare))
    (hm : s.master = .waitAccept t caller) (hs : s.accept r = some s')
    (hrun : s'.store.exited = false) :
    Fits ({ s' with master := .waitSweep t caller }, spare || s.leavesWaiting r) := by
  unfold Fits at h
  simp only [hm] at h
  obtain ⟨-, used, unused, c, hholds, hnone, hsome⟩ := h
  have hfree : unused ++ [c] ≠ [] := List.append_ne_nil_of_right_ne_nil _ (List.cons_ne_nil c [])
  cases r with
  | accepted fd now =>
      obtain ⟨l, waiting, -, -, rfl⟩ := accept_accepted_eq_some.mp hs
      obtain ⟨d, hadds⟩ := Store.adds_addConnection hrun
      obtain ⟨rest, hrest, hholds'⟩ := hadds.holds hholds
      refine ⟨used ++ [d], rest, hholds', fun hspare ↦ ?_, fun hspare ↦ ?_⟩
      · rw [leavesWaiting, Bool.or_false] at hspare
        rw [hnone hspare] at hrest
        cases hrest
        exact .inr rfl
      · rw [leavesWaiting, Bool.or_false] at hspare
        cases unused with
        | nil => exact absurd rfl (hsome hspare)
        | cons x unused =>
            cases hrest
            exact List.append_ne_nil_of_right_ne_nil _ (List.cons_ne_nil c [])
  | again =>
      cases hs
      refine ⟨used, unused ++ [c], ?_, fun hspare ↦ .inl ?_, fun _ ↦ hfree⟩
      · show s.queuePull.store.lists.Holds _ _
        rw [queuePull_store]
        exact hholds
      · rw [leavesWaiting, Bool.or_eq_false_iff, decide_eq_false_iff_not, not_lt] at hspare
        show s.queuePull.waiting = []
        unfold queuePull
        cases hwaiting : s.waiting with
        | nil => exact hwaiting
        | cons l rest =>
            rw [hwaiting] at hspare
            exact List.length_eq_zero_iff.mp (Nat.le_zero.mp (Nat.le_of_succ_le_succ hspare.2))
  | failed =>
      cases hs
      cases hrun

/-- **The step lemma.** -/
theorem step (h : Fits p) (hcore : p.1.Core P)
    (hs : observed Server.step notesSpare p a = some q) (hrun : q.1.store.exited = false) :
    Fits q := by
  obtain ⟨s, spare⟩ := p
  obtain ⟨s', spare'⟩ := q
  obtain ⟨hstep, rfl⟩ := observed_eq_some.mp hs
  have hrun₀ := running_of_step hstep
  by_cases hsweep : ∃ t caller, s.master = .waitSweep t caller
  · by_cases hproceed : ∃ now ok, a = .proceed now ok
    · obtain ⟨t, caller, hm⟩ := hsweep
      obtain ⟨now, ok, rfl⟩ := hproceed
      cases (step_waitSweep hrun₀ hm).symm.trans hstep
      have hspare : notesSpare s (.proceed now ok) spare = spare := by simp only [notesSpare, hm]
      rw [hspare]
      exact h.waitSweep hcore hm hrun
    · have hnot : ∀ now ok, a ≠ .proceed now ok := fun now ok ha ↦ hproceed ⟨now, ok, ha⟩
      obtain ⟨hsame, hwaiting, hmaster, hspare⟩ :=
        undisturbed_waitSweep hcore (.inl ⟨hsweep, hnot⟩) hstep
      exact h.congr hsame.lists hwaiting hmaster hspare
  · by_cases hwait : ∃ t caller, s.master = .waitAccept t caller
    · by_cases haccept : ∃ r, a = .accept r
      · obtain ⟨t, caller, hm⟩ := hwait
        obtain ⟨r, rfl⟩ := haccept
        have hspare : notesSpare s (.accept r) spare = (spare || s.leavesWaiting r) := by
          simp only [notesSpare, hm]
        obtain ⟨-, m, hafter, u, hu, rfl⟩ := step_accept_eq_some.mp hstep
        simp only [afterAccept, hm] at hafter
        cases hafter
        rw [hspare]
        exact h.accept hm hu hrun
      · have hnot : ∀ r, a ≠ .accept r := fun r ha ↦ haccept ⟨r, ha⟩
        obtain ⟨hsame, hwaiting, hmaster, hspare⟩ :=
          undisturbed_waitSweep hcore (.inr ⟨hwait, hnot⟩) hstep
        exact h.congr hsame.lists hwaiting hmaster hspare
    · by_cases hunlocked : s.master = .unlocked
      · exact h.unlocked hcore hunlocked hstep hrun
      have hcomes := comes_of_step hstep
      unfold Comes at hcomes
      -- a step of the master into the loop, or past it, begins a new note
      have hspare : ∀ {now ok}, a = .proceed now ok → notesSpare s a spare = false := by
        rintro now ok rfl
        cases hm : s.master with
        | waitSweep t caller => exact absurd ⟨t, caller, hm⟩ hsweep
        | _ => simp only [notesSpare, hm]
      obtain ⟨used, unused, hholds, -, -⟩ := hcore.sound.slots.partitioned
      unfold Fits
      dsimp only
      cases hm' : s'.master with
      | waitSweep t caller =>
          rw [hm'] at hcomes
          rcases hcomes with hm | hm | ⟨⟨now, ok, ha⟩, hstore, hback⟩
          · exact absurd ⟨t, caller, hm⟩ hsweep
          · exact absurd ⟨t, caller, hm⟩ hwait
          · have hunused : unused = [] :=
              List.getLast?_eq_none_iff.mp (hholds.back.symm.trans hback)
            rw [hstore, hspare ha]
            exact ⟨used, unused, hholds, fun _ ↦ .inr hunused, fun hsome ↦ nomatch hsome⟩
      | unlocked =>
          rw [hm'] at hcomes
          rcases hcomes with hm | ⟨t, hm⟩ | ⟨⟨now, ok, ha⟩, hstore, hfull⟩
          · exact absurd hm hunlocked
          · exact absurd ⟨t, none, hm⟩ hsweep
          · rw [hstore, hspare ha]
            exact ⟨used, unused, hholds, fun _ ↦ hfull.imp_right fun hback ↦
              List.getLast?_eq_none_iff.mp (hholds.back.symm.trans hback),
              fun hsome ↦ nomatch hsome⟩
      | waitAccept t caller =>
          rw [hm'] at hcomes
          rcases hcomes with hm | hm
          · exact absurd ⟨t, caller, hm⟩ hwait
          · exact absurd ⟨t, caller, hm⟩ hsweep
      | _ => trivial

end Fits

theorem fits_of_reach {ok : POServer cfg × Bool → Action cfg → Prop}
    {listenerFd : ListenerId cfg → ℤ}
    (h : Reach (observed step notesSpare) ok (start cfg listenerFd, false) p)
    (hrun : p.1.store.exited = false) : Fits p :=
  h.invariant_of (I := fun p ↦ p.1.store.exited = false → Fits p)
    (J := fun p ↦ p.1.Inv fun _ _ ↦ True) (fun hr ↦ inv_of_reach_any hr.of_observed)
    (fun _ ↦ trivial)
    (fun {p q a} hinv hfits _ hs hrun ↦ by
      have hrun₀ := running_of_step (observed_eq_some.mp hs).1
      exact (hfits hrun₀).step (hinv.core hrun₀) hs hrun) hrun

/-- With a listener waiting, the note tells whether there is an unused struct. -/
theorem Fits.back_eq_none_iff (h : Fits (s, spare))
    (hm : (∃ t caller, s.master = .waitSweep t caller) ∨ s.master = .unlocked)
    (hwaiting : s.waiting ≠ []) : s.store.lists.back = none ↔ spare = false := by
  obtain ⟨used, unused, hholds, hnone, hsome⟩ :
      ∃ used unused, s.store.lists.Holds used unused ∧
        (spare = false → s.waiting = [] ∨ unused = []) ∧ (spare = true → unused ≠ []) := by
    unfold Fits at h
    rcases hm with ⟨t, caller, hm⟩ | hm <;>
      simpa only [hm] using h
  rw [hholds.back, List.getLast?_eq_none_iff]
  constructor
  · intro hunused
    by_contra hspare
    exact hsome (Bool.not_eq_false _ ▸ hspare) hunused
  · exact fun hspare ↦ (hnone hspare).resolve_left hwaiting

/-- A turn of the loop. -/
theorem keepsSlots_waitSweep (h : Fits (s, spare)) (hm : s.master = .waitSweep t caller) :
    s.KeepsSlots (s.waitSweep t caller ok) ↔ ¬ Wastes (s, spare) (.proceed now ok) := by
  rcases waitSweep_cases s t caller ok with ⟨c, hne, hold, hlock, heq⟩ | ⟨hcond, store, -, heq⟩
  · have hwastes : Wastes (s, spare) (.proceed now ok) ↔ spare = true :=
      ⟨fun hw ↦ hw.1, fun hspare ↦
        ⟨hspare, hne, ⟨now, ok, rfl⟩, .inr ⟨t, caller, hm, c, hold, hlock⟩⟩⟩
    rw [heq, hwastes, Bool.not_eq_true, ← h.back_eq_none_iff (.inl ⟨t, caller, hm⟩) hne]
    exact ⟨fun hkeeps ↦ hkeeps.removes t caller hm rfl,
      fun hback ↦ ⟨fun _ _ _ _ ↦ hback, fun _ hreach ↦ nomatch hreach⟩⟩
  · rw [heq]
    refine iff_of_true ⟨fun _ _ _ hremoves ↦ ?_, fun _ hreaches ↦ ?_⟩ ?_
    · cases caller <;> exact nomatch hremoves
    · cases caller <;> exact nomatch hreaches
    · rintro ⟨-, hne, -, hunlocked | ⟨t', caller', hm', c, hold, hlock⟩⟩
      · exact nomatch hm.symm.trans hunlocked
      · cases hm.symm.trans hm'
        exact nomatch hlock.symm.trans (hcond.resolve_left hne c hold)

/-- The call of `epoll_wait()`. -/
theorem keepsSlots_unlocked (h : Fits (s, spare)) (hm : s.master = .unlocked) :
    s.KeepsSlots { s with master := .epollWait } ↔ ¬ Wastes (s, spare) (.proceed now ok) := by
  have hwastes : Wastes (s, spare) (.proceed now ok) ↔ spare = true ∧ s.waiting ≠ [] :=
    ⟨fun hw ↦ ⟨hw.1, hw.2.1⟩, fun ⟨hspare, hne⟩ ↦ ⟨hspare, hne, ⟨now, ok, rfl⟩, .inl hm⟩⟩
  have hkeeps : s.KeepsSlots { s with master := .epollWait } ↔
      (s.waiting = [] ∨ s.store.lists.back = none) :=
    ⟨fun hkeeps ↦ hkeeps.reaches (by rw [hm]; exact nofun) rfl,
      fun hfull ↦ ⟨fun _ _ hm' _ ↦ (nomatch hm.symm.trans hm'), fun _ _ ↦ hfull⟩⟩
  rw [hkeeps, hwastes]
  by_cases hne : s.waiting = []
  · exact iff_of_true (.inl hne) fun hw ↦ hw.2 hne
  · rw [h.back_eq_none_iff (.inr hm) hne]
    cases spare with
    | false => exact iff_of_true (.inr rfl) fun hw ↦ nomatch hw.1
    | true => exact iff_of_false (fun hor ↦ hor.elim hne nofun) fun hnot ↦ hnot ⟨rfl, hne⟩

/-- **When the unused structs are kept for the waiting listeners.**  In every run, a step removes a
connection for the wait timeout only when there is no unused struct, and `epoll_wait()` is
called only without one or without a waiting listener, if and only if the step comes neither behind
an `accept()` of the loop that brought no connection, nor behind a task that removed a connection
when the server mutex was unlocked for `epoll_wait()`. -/
theorem keepsSlots_iff_of_reach {listenerFd : ListenerId cfg → ℤ}
    (h : Reach (observed step notesSpare) Any (start cfg listenerFd, false) p)
    (hs : observed step notesSpare p a = some q) : p.1.KeepsSlots q.1 ↔ ¬ Wastes p a := by
  obtain ⟨s, spare⟩ := p
  obtain ⟨s', spare'⟩ := q
  have hstep : step s a = some s' := (observed_eq_some.mp hs).1
  have hrun := running_of_step hstep
  have hcore : s.Core fun _ _ ↦ True := (inv_of_reach_any h.of_observed).core hrun
  have hfits := fits_of_reach h hrun
  by_cases hproceed : ∃ now ok, a = .proceed now ok
  · obtain ⟨now, ok, rfl⟩ := hproceed
    by_cases hsweep : ∃ t caller, s.master = .waitSweep t caller
    · obtain ⟨t, caller, hm⟩ := hsweep
      cases (step_waitSweep hrun hm).symm.trans hstep
      exact keepsSlots_waitSweep hfits hm
    by_cases hunlocked : s.master = .unlocked
    · have hproceeds := (step_proceed_eq_some.mp hstep).2
      simp only [proceed, hunlocked] at hproceeds
      cases hproceeds
      exact keepsSlots_unlocked hfits hunlocked
    · -- it is neither in the loop nor in front of `epoll_wait()`
      refine iff_of_true ⟨fun t caller hm _ ↦ absurd ⟨t, caller, hm⟩ hsweep,
        fun hwait hreaches ↦ ?_⟩ ?_
      · have hcomes := comes_of_step hstep
        unfold Comes at hcomes
        rw [hreaches] at hcomes
        exact (hcomes.elim hwait hunlocked).elim
      · rintro ⟨-, -, -, hm | ⟨t, caller, hm, -⟩⟩
        · exact hunlocked hm
        · exact hsweep ⟨t, caller, hm⟩
  · -- nobody else removes for the timeout or calls `epoll_wait()`
    refine iff_of_true ⟨fun t caller hm hremoves ↦ ?_, fun hwait hreaches ↦ ?_⟩
      fun hw ↦ hproceed hw.2.2.1
    · obtain ⟨-, -, hmaster, -⟩ : s.store.SameQueues s'.store ∧ s'.waiting = s.waiting ∧
          s'.master = s.master ∧ notesSpare s a spare = spare :=
        undisturbed_waitSweep hcore
          (.inl ⟨⟨t, caller, hm⟩, fun now ok ha ↦ hproceed ⟨now, ok, ha⟩⟩) hstep
      cases (hmaster.trans hm).symm.trans hremoves
    · have hcomes := comes_of_step hstep
      unfold Comes at hcomes
      rw [hreaches] at hcomes
      rcases hcomes with hm | hm
      · exact absurd hm hwait
      · cases (master_of_unlocked hm hproceed hstep).symm.trans hreaches

/-- Both listeners wait for the one struct, whose connection is removed after a millisecond. -/
abbrev evictsForTwo : List (Action Listening.twoListeners) :=
  [.doNextEvents 0, .proceed 0 true, .proceed 0 true, .epollWait [.listener 0, .listener 1],
    .proceed 0 true, .proceed 0 true, .accept (.accepted 10 0), .proceed 0 true, .proceed 0 true,
    .proceed 0 true,
    .doNextEvents 1000000, .proceed 1000000 true, .proceed 1000000 true]

/-- The `accept()` brings another connection. -/
theorem keepsSlots_of_evictsForTwo :
    ∃ p, Reach (observed step notesSpare) Any
        (start Listening.twoListeners fun l ↦ 3 + l.val, false) p ∧
      ∃ q, observed step notesSpare p (.proceed 0 true) = some q ∧ q.1.master = .epollWait ∧
        q.1.waiting = [0, 1] ∧ p.1.KeepsSlots q.1 := by
  obtain ⟨p, hreach, q, hs, hspare, hmaster, hwaiting⟩ :
      ∃ p, Reach (observed step notesSpare) Any
          (start Listening.twoListeners fun l ↦ 3 + l.val, false) p ∧
        ∃ q ∈ observed step notesSpare p (.proceed 0 true), p.2 = false ∧
          q.1.master = .epollWait ∧ q.1.waiting = [0, 1] :=
    exists_reach_of_exec_decide
      (evictsForTwo ++ [.accept (.accepted 11 1000000), .proceed 0 true]) (by decide)
  have hnot : ¬ Wastes p (.proceed 0 true) := fun hw ↦ nomatch hspare.symm.trans hw.1
  exact ⟨p, hreach, q, hs, hmaster, hwaiting, (keepsSlots_iff_of_reach hreach hs).mpr hnot⟩

/-- The backlog of the first listener is empty. -/
theorem not_keepsSlots_of_evictsForTwo :
    ∃ p, Reach (observed step notesSpare) Any
        (start Listening.twoListeners fun l ↦ 3 + l.val, false) p ∧
      ∃ q, observed step notesSpare p (.proceed 0 true) = some q ∧ ¬ p.1.KeepsSlots q.1 := by
  obtain ⟨p, hreach, q, hs, hwait, hmaster, hwaiting, hback⟩ :
      ∃ p, Reach (observed step notesSpare) Any
          (start Listening.twoListeners fun l ↦ 3 + l.val, false) p ∧
        ∃ q ∈ observed step notesSpare p (.proceed 0 true), p.1.master ≠ .epollWait ∧
          q.1.master = .epollWait ∧ q.1.waiting = [1] ∧ q.1.store.lists.back = some 0 :=
    exists_reach_of_exec_decide (evictsForTwo ++ [.accept .again, .proceed 0 true]) (by decide)
  refine ⟨p, hreach, q, hs, fun hkeeps ↦ ?_⟩
  rcases hkeeps.reaches hwait hmaster with hnone | hnone
  · cases hwaiting.symm.trans hnone
  · cases hback.symm.trans hnone

end POServer

end Tidbits.Server
