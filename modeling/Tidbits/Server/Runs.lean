import Tidbits.Server.Preservation

/-!
# The invariant along runs

`Inv` is what holds in every state of a run: the invariant `Core` as long as the
process runs, and of every effect of an event that `P` allows it.  A step in
which `doEvent`, in the build without threads, takes up an event of a closed
connection is the one way out of `Core`: it removes the connection a second time
and ends the process, as `close(-1)` fails (`steps_closed`).
-/

namespace Tidbits.Server

open Tidbits.Transition

variable {cfg : Config} {P : ℕ → ℕ → Prop}

namespace POServer

variable {s s' : POServer cfg} {a : Action cfg}

theorem running_of_step (hs : step s a = some s') : s.store.exited = false := by
  cases hrun : s.store.exited with
  | false => rfl
  | true => simp [step, hrun] at hs

theorem takes_of_forall (h : ∀ m n, P m n) : s.Takes P a := fun _ _ ↦ .inr (.inr (h _ _))

/-! ## Steps -/

theorem Core.steps_proceed {now : Time} {ok : Bool} (h : s.Core P) (hrun : s.store.exited = false)
    (htakes : s.Takes P (.proceed now ok)) (hopen : s.TakesOpen (.proceed now ok))
    (hs : s.proceed now ok = some s') : Steps P s s' := by
  have htimely := h.timely
  cases proceeds hs with
  | longSweep hm => exact h.steps_longSweep hrun hm
  | acceptLoop hm hmay => exact h.steps_lookForAccept hrun (hm ▸ trivial) rfl rfl
  | waitSweep hm => exact h.steps_waitSweep hrun (hm ▸ trivial)
  | unlocked hm =>
      refine h.steps_same hrun rfl rfl ?_ trivial
      rw [hm]
      rfl
  | gotEvents hm hfree => exact h.steps_lock hrun hfree rfl rfl trivial trivial
  | endsBatch hm =>
      exact h.steps_unlock (hm ▸ trivial) hrun (.refl h.sound) (fun _ ↦ id) rfl id trivial
  | listenerEvent hm => exact h.steps_doListenerEvent hrun (hm ▸ trivial)
  | @connEvent e rest hm =>
      have htake : s.takesUp (.proceed now ok) = some e := by simp only [takesUp, hm]
      exact h.steps_doConnEvent hrun (hm ▸ trivial) (htakes e htake)
        (hopen.imp_right fun hfd ↦ hfd e htake)
  | noCallback hm =>
      rw [hm] at htimely
      exact h.steps_removeIdle (hm ▸ trivial) htimely
  | setReady hm hfree => exact h.steps_setReady hrun hm
  | runTask hm hfree =>
      rw [hm] at htimely
      exact h.steps_lock hrun hfree rfl rfl trivial (.inr htimely)
  | eventEnd hm => exact h.steps_eventEnd hrun hm

/-- **The step lemma.** -/
theorem Core.steps (h : s.Core P) (htakes : s.Takes P a) (hopen : s.TakesOpen a)
    (hs : step s a = some s') : Steps P s s' := by
  have hrun := running_of_step hs
  cases a with
  | doNextEvents now =>
      obtain ⟨-, hcond, rfl⟩ := step_doNextEvents_eq_some.mp hs
      split_ifs
      · exact h.steps_lock hrun hcond.2 rfl rfl trivial trivial
      · exact h.steps_lock hrun hcond.2 rfl rfl trivial trivial
  | proceed now ok => exact h.steps_proceed hrun htakes hopen (step_proceed_eq_some.mp hs).2
  | accept r =>
      obtain ⟨-, m, hm, t, ht, rfl⟩ := step_accept_eq_some.mp hs
      exact h.steps_accept hrun hm ht
  | epollWait batch =>
      obtain ⟨-, hcond, rfl⟩ := step_epollWait_eq_some.mp hs
      refine h.steps_same hrun rfl rfl ?_ trivial
      rw [hcond.1]
      rfl
  | serve a ok =>
      obtain ⟨-, e, rest, phase, hm, hs⟩ := step_serve_eq_some.mp hs
      exact h.steps_serve hrun hm hs
  | work i a ok =>
      obtain ⟨-, w, hw, hs⟩ := step_work_eq_some.mp hs
      exact h.steps_work hrun hw hs
  | stop =>
      obtain ⟨-, rfl⟩ := step_stop_eq_some.mp hs
      exact h.steps_same hrun rfl rfl Iff.rfl h.timely
  | shutdown =>
      obtain ⟨-, -, rfl⟩ := step_shutdown_eq_some.mp hs
      exact h.steps_same hrun rfl rfl Iff.rfl h.timely

theorem takesUp_eq_some {e : ConnEvent cfg} (h : s.takesUp a = some e) :
    ∃ now ok rest, a = .proceed now ok ∧ s.master = .events (.conn e :: rest) := by
  unfold takesUp at h
  split at h
  · rename_i now ok
    split at h
    · rename_i e' rest hm
      cases h
      exact ⟨now, ok, rest, rfl, hm⟩
    · cases h
  · cases h

/-- The step in which `doEvent` takes up a connection event. -/
theorem step_eq_doConnEvent {e : ConnEvent cfg} (h : s.takesUp a = some e)
    (hs : step s a = some s') : ∃ rest ok, s' = s.doConnEvent e rest ok := by
  obtain ⟨now, ok, rest, rfl, hm⟩ := takesUp_eq_some h
  refine ⟨rest, ok, ?_⟩
  have hproceed := (step_proceed_eq_some.mp hs).2
  simp only [proceed, hm] at hproceed
  exact (Option.some.inj hproceed).symm

/-- **The step that `TakesOpen` excludes.**  The connection of an event was removed by an earlier
event of the same batch, and is removed again. -/
theorem Core.steps_closed (h : s.Core P) (hclosed : ¬ s.TakesOpen a) (hs : step s a = some s') :
    ∃ e, s.takesUp a = some e ∧ e.actsOn (s.store.conn e.conn) = true ∧ s'.store.exited = true ∧
      s'.serverMutex = some .master ∧
      s'.store.history =
        .removed (s.store.conn e.conn).acceptNo false
          (s.store.conn e.conn).cleanupCallback.isSome :: s.store.history ∧
      s'.store.effects = (e.source, (s.store.conn e.conn).acceptNo) :: s.store.effects := by
  obtain ⟨hpool, hfd⟩ := not_or.mp hclosed
  obtain ⟨e, hfd⟩ := not_forall.mp hfd
  obtain ⟨htake, hfd⟩ := Classical.not_imp.mp hfd
  have hfd : (s.store.conn e.conn).fd = -1 := not_not.mp hfd
  have hopen : ¬ 0 ≤ (s.store.conn e.conn).fd := by
    rw [hfd]
    decide
  have hcallback : (s.store.conn e.conn).noCallback = true :=
    (h.sound.slots.closed e.conn (Int.not_le.mp hopen)).noCallback
  have hused : decide (e.conn ∈ s.store.lists.usedWalk) = false :=
    decide_eq_false fun hmem ↦ hopen (h.sound.slots.mem_usedWalk.mp hmem)
  obtain ⟨rest, ok, rfl⟩ := step_eq_doConnEvent htake hs
  have hremoved : (s.doConnEvent e rest ok).store =
      (s.store.affect (some e.source) e.conn).removeConnection e.conn ok := by
    simp [doConnEvent, hpool, hcallback, removeIdle, checkTryRemove,
      Store.checkTryRemoveConnection, Store.canLock]
  have hmutex : (s.doConnEvent e rest ok).serverMutex = s.serverMutex := by
    simp [doConnEvent, hpool, hcallback, removeIdle, checkTryRemove]
  refine ⟨e, htake, by simp [ConnEvent.actsOn, hcallback], ?_, ?_, ?_, ?_⟩
  · rw [hremoved]
    exact Store.exited_removeConnection (.inr (by rwa [Store.affect_conn]))
  · obtain ⟨now, ok', rest', -, hm⟩ := takesUp_eq_some htake
    rw [hmutex]
    exact h.mutex.mpr (hm ▸ trivial)
  · rw [hremoved, Store.removeConnection_history]
    simp only [Store.affect_conn, Store.affect_lists, Store.affect_history, hused]
  · rw [hremoved, Store.removeConnection_effects]
    rfl

/-! ## Runs -/

/-- What holds in every state of a run. -/
structure Inv (P : ℕ → ℕ → Prop) (s : POServer cfg) : Prop where
  core : s.store.exited = false → s.Core P
  effects : ∀ p ∈ s.store.effects, P p.1 p.2
  locked : s.store.exited = true → s.serverMutex ≠ none

theorem inv_start (listenerFd : ListenerId cfg → ℤ) : (start cfg listenerFd).Inv P where
  core := fun _ ↦ core_start listenerFd
  effects := fun _ hp ↦ nomatch hp
  locked := fun hexit ↦ nomatch hexit

theorem Inv.step (h : s.Inv P) (htakes : s.Takes P a) (hs : Server.step s a = some s') :
    s'.Inv P := by
  have hcore := h.core (running_of_step hs)
  by_cases hopen : s.TakesOpen a
  · have hsteps := hcore.steps htakes hopen hs
    refine ⟨hsteps.core, fun p hp ↦ ?_, hsteps.locked⟩
    exact (hsteps.change.effects p hp).elim (h.effects p) id
  · obtain ⟨e, htake, hacts, hexit, hmutex, -, heffects⟩ := hcore.steps_closed hopen hs
    refine ⟨fun hrun ↦ absurd (hrun.symm.trans hexit) Bool.false_ne_true, fun p hp ↦ ?_, fun _ ↦ ?_⟩
    · rw [heffects] at hp
      rcases List.mem_cons.mp hp with rfl | hp
      · obtain ⟨hpool, hfd⟩ := not_or.mp hopen
        rcases htakes e htake with hskip | hidle | hsource
        · exact absurd hskip.1 hpool
        · exact absurd (hidle.symm.trans hacts) Bool.false_ne_true
        · exact hsource
      · exact h.effects p hp
    · rw [hmutex]
      exact Option.some_ne_none _

/-- **The run lemma.** -/
theorem inv_of_reach {listenerFd : ListenerId cfg → ℤ}
    (h : Reach Server.step (Takes P) (start cfg listenerFd) s) : s.Inv P :=
  h.invariant (inv_start listenerFd) fun hinv htakes hs ↦ hinv.step htakes hs

/-- Whatever the events are fetched for. -/
theorem inv_of_reach_any {ok : POServer cfg → Action cfg → Prop} {listenerFd : ListenerId cfg → ℤ}
    (h : Reach Server.step ok (start cfg listenerFd) s) : s.Inv fun _ _ ↦ True :=
  h.invariant (inv_start listenerFd) fun hinv _ hs ↦
    hinv.step (takes_of_forall fun _ _ ↦ trivial) hs

end POServer

end Tidbits.Server
