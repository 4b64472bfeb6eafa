import Tidbits.Server.Lifecycle

/-!
# Connections that wait to be accepted

The listeners of a server have a backlog in the kernel, from which other processes may
accept as well.  A connection that enters it raises an edge-triggered event, which
`epoll_wait()` returns once.  `doEvent` calls `accept()` at most once for it and leaves
the rest to the waiting queue.

`attended_of_reach` says that this forgets no connection: until `poServer_shutdown()`, a
listener whose backlog is not empty has an event that was not handled, or it is in the
waiting queue.  A listener leaves the queue when `accept()` has reported `EAGAIN` for it,
and the first one pushed is the first one to leave.
-/

namespace Tidbits.Server

open Transition

variable {cfg : Config}

/-- The events that `epoll_wait()` has returned and the master has not come to. -/
def Master.batch : Master cfg → List (Event cfg)
  | .gotEvents batch | .events batch => batch
  | .waitSweep _ caller | .waitAccept _ caller => caller.getD []
  | .listenerAccept rest | .noCallback _ rest | .setReady _ rest | .runTask _ rest
  | .serving _ rest _ | .eventEnd _ rest => rest
  | .outside | .longSweep _ | .acceptLoop _ | .unlocked | .epollWait => []

namespace POServer

/-- The listener that the step pushes to the waiting queue. -/
def pushes (s : POServer cfg) : Action cfg → Option (ListenerId cfg)
  | .proceed _ _ =>
      match s.master with
      | .events (.listener l :: _) =>
          if (s.isRunning = false ∧ s.listenerFd l = -1) ∨ s.isWaiting l = true then none
          else some l
      | _ => none
  | _ => none

/-- The listener that the step pulls out of the waiting queue. -/
def pulls (s : POServer cfg) : Action cfg → Option (ListenerId cfg)
  | .accept .again => s.waiting.head?
  | _ => none

end POServer

/-! ## The kernel -/

/-- A server with the backlogs of its listeners. -/
structure Listening (cfg : Config) where
  server : POServer cfg
  /-- How many connections wait to be accepted. -/
  backlog : ListenerId cfg → ℕ
  /-- There is an event that `epoll_wait()` has not returned. -/
  raised : ListenerId cfg → Bool
  /-- The listeners that were pushed to the waiting queue, first first. -/
  pushed : List (ListenerId cfg)
  /-- Those that were pulled out of it, first first. -/
  pulled : List (ListenerId cfg)

/-- What happens next at the listeners. -/
inductive Listening.Action (cfg : Config)
  | server (a : Server.Action cfg)
  /-- A connection enters the backlog. -/
  | arrives (l : ListenerId cfg)
  /-- Another process that shares the listener accepts a connection. -/
  | otherAccepts (l : ListenerId cfg)
deriving DecidableEq, Repr

namespace Listening

/-- The listeners are set up and added to the epoll instance, which raises events for the
connections that are there. -/
def start (cfg : Config) (listenerFd : ListenerId cfg → ℤ) (backlog : ListenerId cfg → ℕ) :
    Listening cfg where
  server := Server.start cfg listenerFd
  backlog := fun l ↦ if 0 ≤ listenerFd l then backlog l else 0
  raised := fun l ↦ decide (0 ≤ listenerFd l ∧ 0 < backlog l)
  pushed := []
  pulled := []

/-- `accept()` for the first listener of the waiting queue takes a connection from its
backlog, or reports `EAGAIN` if there is none; `epoll_wait()` returns events that are raised. -/
def Meets (s : Listening cfg) : Server.Action cfg → Prop
  | .accept (.accepted _ _) => ∀ l ∈ s.server.waiting.head?, 0 < s.backlog l
  | .accept .again => ∀ l ∈ s.server.waiting.head?, s.backlog l = 0
  | .epollWait batch => ∀ l, .listener l ∈ batch → s.raised l = true
  | _ => True

instance (s : Listening cfg) (a : Server.Action cfg) : Decidable (s.Meets a) := by
  unfold Meets
  split <;> infer_instance

/-- A connection leaves the backlog. -/
def take (s : Listening cfg) (l : ListenerId cfg) : Listening cfg :=
  { s with backlog := Function.update s.backlog l (s.backlog l - 1) }

/-- What a step of the server does in the kernel. -/
def kernel (s : Listening cfg) : Server.Action cfg → Listening cfg
  | .accept (.accepted _ _) =>
      match s.server.waiting with
      | l :: _ => s.take l
      | [] => s
  | .epollWait batch =>
      { s with raised := fun l ↦ s.raised l && !decide (.listener l ∈ batch) }
  | _ => s

/-- The transitions. -/
def step (s : Listening cfg) : Action cfg → Option (Listening cfg)
  | .server a =>
      if s.Meets a then
        (Server.step s.server a).map fun server ↦
          { s.kernel a with
            server := server
            pushed := s.pushed ++ (s.server.pushes a).toList
            pulled := s.pulled ++ (s.server.pulls a).toList }
      else none
  | .arrives l =>
      if 0 ≤ s.server.listenerFd l then
        some
          { s with
            backlog := Function.update s.backlog l (s.backlog l + 1)
            raised := Function.update s.raised l true }
      else none
  | .otherAccepts l => if 0 < s.backlog l then some (s.take l) else none

/-- `poServer_shutdown()` is not called. -/
def StaysUp (_ : Listening cfg) (a : Action cfg) : Prop := a ≠ .server .shutdown

instance : DecidableRel (@StaysUp cfg) := fun _ a ↦ inferInstanceAs (Decidable (a ≠ _))

end Listening

/-! ## What a step does to the waiting queue -/

namespace POServer

variable {s s' t : POServer cfg} {a : Action cfg} {l : ListenerId cfg} {now : Time} {ok : Bool}
  {caller : Option (List (Event cfg))} {e : ConnEvent cfg} {rest : List (Event cfg)}

/-- The waiting queue and the sockets of the listeners stay as they are. -/
structure SameListeners (s s' : POServer cfg) : Prop where
  waiting : s'.waiting = s.waiting
  isWaiting : s'.isWaiting = s.isWaiting
  listenerFd : s'.listenerFd = s.listenerFd

/-- What a step does to the waiting queue and to the events that were fetched. -/
inductive Attends (s : POServer cfg) : Action cfg → POServer cfg → Prop
  | stays {a : Action cfg} {s' : POServer cfg} (hsame : s.SameListeners s')
      (hpushes : s.pushes a = none) (hpulls : s.pulls a = none)
      (hother : ∀ batch, a ≠ .epollWait batch)
      (hbatch : s'.master.batch = s.master.batch ∨
        ∃ e, s.master.batch = .conn e :: s'.master.batch) : Attends s a s'
  /-- Events are fetched. -/
  | fetches {batch : List (Event cfg)} {s' : POServer cfg} (hsame : s.SameListeners s')
      (hcan : s.CanReturn batch) (hnone : s.master.batch = []) (hbatch : s'.master.batch = batch) :
      Attends s (.epollWait batch) s'
  /-- An event of a listener that is shut down is dropped. -/
  | drops {l : ListenerId cfg} {now : Time} {ok : Bool} {s' : POServer cfg}
      (hsame : s.SameListeners s') (hpushes : s.pushes (.proceed now ok) = none)
      (hfd : s.listenerFd l = -1) (hbatch : s.master.batch = .listener l :: s'.master.batch) :
      Attends s (.proceed now ok) s'
  /-- `doEvent` for a listener. -/
  | pushes {l : ListenerId cfg} {now : Time} {ok : Bool} {s' : POServer cfg}
      (hsame : (s.queuePush l).SameListeners s')
      (hpushes : s.pushes (.proceed now ok) = if s.isWaiting l = true then none else some l)
      (hbatch : s.master.batch = .listener l :: s'.master.batch) : Attends s (.proceed now ok) s'
  /-- `accept()` has reported `EAGAIN`. -/
  | pulls {s' : POServer cfg} (hsame : s.queuePull.SameListeners s')
      (hbatch : s'.master.batch = s.master.batch) : Attends s (.accept .again) s'

theorem sameListeners_lookedForAccept : s.SameListeners (s.lookedForAccept caller) := by
  cases caller <;> exact ⟨rfl, rfl, rfl⟩

theorem batch_lookedForAccept : (s.lookedForAccept caller).master.batch = caller.getD [] := by
  cases caller <;> rfl

theorem sameListeners_lookForAccept : s.SameListeners (s.lookForAccept now caller) := by
  unfold lookForAccept
  split_ifs
  · exact ⟨rfl, rfl, rfl⟩
  · exact sameListeners_lookedForAccept

theorem batch_lookForAccept : (s.lookForAccept now caller).master.batch = caller.getD [] := by
  unfold lookForAccept
  split_ifs
  · rfl
  · exact batch_lookedForAccept

theorem sameListeners_waitSweep : s.SameListeners (s.waitSweep now caller ok) := by
  unfold waitSweep
  split
  · split_ifs
    · exact ⟨rfl, rfl, rfl⟩
    · cases caller <;> exact ⟨rfl, rfl, rfl⟩
  · exact sameListeners_lookedForAccept

theorem batch_waitSweep : (s.waitSweep now caller ok).master.batch = caller.getD [] := by
  unfold waitSweep
  split
  · split_ifs
    · rfl
    · exact batch_lookedForAccept
  · exact batch_lookedForAccept

theorem attends_doListenerEvent (hm : s.master = .events (.listener l :: rest)) :
    s.Attends (.proceed now ok) (s.doListenerEvent l rest now) := by
  have hbatch : s.master.batch = .listener l :: rest := by rw [hm]; rfl
  unfold doListenerEvent
  split_ifs with hdown hunused
  · exact .drops ⟨rfl, rfl, rfl⟩ (by simp only [pushes, hm, hdown, true_and, true_or, if_true])
      hdown.2 hbatch
  · exact .pushes ⟨rfl, rfl, rfl⟩ (by simp only [pushes, hm, hdown, false_or]) hbatch
  · exact .pushes sameListeners_lookForAccept (by simp only [pushes, hm, hdown, false_or])
      (by rw [batch_lookForAccept]; exact hbatch)

theorem attends_proceed (hs : s.proceed now ok = some s') : s.Attends (.proceed now ok) s' := by
  have hother : ∀ batch, (.proceed now ok : Action cfg) ≠ .epollWait batch := fun _ ↦ nofun
  cases proceeds hs with
  | longSweep hm =>
      have hpushes : s.pushes (.proceed now ok) = none := by simp only [pushes, hm]
      unfold longSweep
      split
      · exact .stays ⟨rfl, rfl, rfl⟩ hpushes rfl hother (.inl rfl)
      · exact .stays ⟨rfl, rfl, rfl⟩ hpushes rfl hother (.inl (by rw [hm]; rfl))
  | acceptLoop hm hmay =>
      exact .stays sameListeners_lookForAccept (by simp only [pushes, hm]) rfl hother
        (.inl (by rw [batch_lookForAccept, hm]; rfl))
  | waitSweep hm =>
      exact .stays sameListeners_waitSweep (by simp only [pushes, hm]) rfl hother
        (.inl (by rw [batch_waitSweep, hm]; rfl))
  | gotEvents hm hfree | runTask hm hfree =>
      exact .stays ⟨rfl, rfl, rfl⟩ (by simp only [pushes, hm]) rfl hother (.inl (by rw [hm]; rfl))
  | unlocked hm | endsBatch hm | noCallback hm =>
      exact .stays ⟨rfl, rfl, rfl⟩ (by simp only [pushes, hm]) rfl hother (.inl (by rw [hm]; rfl))
  | listenerEvent hm => exact attends_doListenerEvent hm
  | @connEvent e rest hm =>
      have hbatch : s.master.batch = .conn e :: rest := by rw [hm]; rfl
      have hpushes : s.pushes (.proceed now ok) = none := by simp only [pushes, hm]
      unfold doConnEvent
      split_ifs <;> exact .stays ⟨rfl, rfl, rfl⟩ hpushes rfl hother (.inr ⟨e, hbatch⟩)
  | setReady hm hfree =>
      have hpushes : s.pushes (.proceed now ok) = none := by simp only [pushes, hm]
      unfold setReady
      dsimp only
      split_ifs <;> exact .stays ⟨rfl, rfl, rfl⟩ hpushes rfl hother (.inl (by rw [hm]; rfl))
  | eventEnd hm =>
      have hpushes : s.pushes (.proceed now ok) = none := by simp only [pushes, hm]
      unfold eventEnd
      split_ifs <;> exact .stays ⟨rfl, rfl, rfl⟩ hpushes rfl hother (.inl (by rw [hm]; rfl))

theorem attends_accept {r : AcceptResult} {m : Master cfg} (hm : s.afterAccept = some m)
    (hs : s.accept r = some t) : s.Attends (.accept r) { t with master := m } := by
  have hbatch : m.batch = s.master.batch := by
    obtain ⟨t, hp, rfl⟩ | ⟨t, caller, hp, rfl⟩ | ⟨rest, hp, rfl⟩ := afterAccept_cases hm <;>
      exact (congrArg Master.batch hp).symm
  have hother : ∀ r batch, (.accept r : Action cfg) ≠ .epollWait batch := fun _ _ ↦ nofun
  cases r with
  | accepted fd now =>
      obtain ⟨l, waiting, -, -, rfl⟩ := accept_accepted_eq_some.mp hs
      exact .stays ⟨rfl, rfl, rfl⟩ rfl rfl (hother _) (.inl hbatch)
  | again =>
      cases hs
      exact .pulls ⟨rfl, rfl, rfl⟩ hbatch
  | failed =>
      cases hs
      exact .stays ⟨rfl, rfl, rfl⟩ rfl rfl (hother _) (.inl hbatch)

/-- A task leaves the listeners and the master alone. -/
theorem sameListeners_work {i : ℕ} {w : Worker cfg} {b : ServiceAction}
    (hs : s.work i w b ok = some s') : s.SameListeners s' ∧ s'.master = s.master := by
  cases taskProceeds hs <;> exact ⟨⟨rfl, rfl, rfl⟩, rfl⟩

theorem attends_serve {phase : Phase} {b : ServiceAction} (hm : s.master = .serving e rest phase)
    (hs : s.serve e rest ok phase b = some s') : s.Attends (.serve b ok) s' := by
  have hbatch : s.master.batch = rest := by rw [hm]; rfl
  unfold serve at hs
  split at hs
  · cases hs
    exact .stays ⟨rfl, rfl, rfl⟩ rfl rfl (fun _ ↦ nofun) (.inl hbatch.symm)
  · obtain ⟨⟨store, phase'⟩, -, rfl⟩ := Option.map_eq_some_iff.mp hs
    exact .stays ⟨rfl, rfl, rfl⟩ rfl rfl (fun _ ↦ nofun) (.inl hbatch.symm)

/-- **Every step before `poServer_shutdown()` attends to the listeners.** -/
theorem attends_of_step (hup : a ≠ .shutdown) (hs : step s a = some s') : s.Attends a s' := by
  cases a with
  | doNextEvents now =>
      obtain ⟨-, hcond, rfl⟩ := step_doNextEvents_eq_some.mp hs
      refine .stays ⟨rfl, rfl, rfl⟩ rfl rfl (fun _ ↦ nofun) (.inl ?_)
      rw [hcond.1]
      show (if cfg.longTimeout ≠ -1 then _ else _ : Master cfg).batch = _
      split_ifs <;> rfl
  | proceed now ok => exact attends_proceed (step_proceed_eq_some.mp hs).2
  | accept r =>
      obtain ⟨-, m, hm, t, ht, rfl⟩ := step_accept_eq_some.mp hs
      exact attends_accept hm ht
  | epollWait batch =>
      obtain ⟨-, hcond, rfl⟩ := step_epollWait_eq_some.mp hs
      exact .fetches ⟨rfl, rfl, rfl⟩ hcond.2 (by rw [hcond.1]; rfl) rfl
  | serve b ok =>
      obtain ⟨-, e, rest, phase, hm, hs⟩ := step_serve_eq_some.mp hs
      exact attends_serve hm hs
  | work i b ok =>
      obtain ⟨-, w, -, hs⟩ := step_work_eq_some.mp hs
      obtain ⟨hsame, hm⟩ := sameListeners_work hs
      exact .stays hsame rfl rfl (fun _ ↦ nofun) (.inl (by rw [hm]))
  | stop =>
      obtain ⟨-, rfl⟩ := step_stop_eq_some.mp hs
      exact .stays ⟨rfl, rfl, rfl⟩ rfl rfl (fun _ ↦ nofun) (.inl rfl)
  | shutdown => exact absurd rfl hup

/-! ## The waiting queue -/

/-- The queue has each listener at most once, and the flags say which ones. -/
structure Waits (s : POServer cfg) : Prop where
  nodup : s.waiting.Nodup
  flag : ∀ l, s.isWaiting l = true ↔ l ∈ s.waiting

theorem SameListeners.waits (hsame : s.SameListeners s') (h : s.Waits) : s'.Waits := by
  refine ⟨hsame.waiting ▸ h.nodup, fun l ↦ ?_⟩
  rw [hsame.isWaiting, hsame.waiting]
  exact h.flag l

theorem Waits.queuePush (h : s.Waits) (l : ListenerId cfg) : (s.queuePush l).Waits := by
  unfold POServer.queuePush
  split_ifs with hwaiting
  · exact h
  · have hnot : l ∉ s.waiting := mt (h.flag l).mpr hwaiting
    refine ⟨List.Nodup.append h.nodup (List.nodup_singleton l) ?_, fun l' ↦ ?_⟩
    · exact List.disjoint_singleton.mpr hnot
    · by_cases heq : l' = l
      · subst heq
        simp
      · simp [h.flag, heq]

theorem Waits.queuePull (h : s.Waits) : s.queuePull.Waits := by
  unfold POServer.queuePull
  split
  · exact h
  · rename_i l rest hwaiting
    have hnodup := h.nodup
    rw [hwaiting] at hnodup
    obtain ⟨hnot, hrest⟩ := List.nodup_cons.mp hnodup
    refine ⟨hrest, fun l' ↦ ?_⟩
    by_cases heq : l' = l
    · subst heq
      simpa using hnot
    · simp [h.flag, hwaiting, heq]

theorem pulls_eq_some : s.pulls a = some l ↔ a = .accept .again ∧ s.waiting.head? = some l := by
  refine ⟨fun h ↦ ?_, fun ⟨ha, hhead⟩ ↦ ha ▸ hhead⟩
  unfold pulls at h
  split at h
  · exact ⟨rfl, h⟩
  · cases h

/-- What is pushed comes behind what is there, and what is pulled comes from the front. -/
theorem Attends.waiting_eq (h : s.Attends a s') :
    s.waiting ++ (s.pushes a).toList = (s.pulls a).toList ++ s'.waiting := by
  cases h with
  | stays hsame hpushes hpulls => rw [hpushes, hpulls, hsame.waiting, Option.toList_none,
      List.append_nil, List.nil_append]
  | fetches hsame => rw [hsame.waiting]; exact List.append_nil _
  | drops hsame hpushes => rw [hpushes, hsame.waiting]; exact List.append_nil _
  | @pushes l now ok s' hsame hpushes =>
      rw [hpushes, hsame.waiting]
      unfold POServer.queuePush
      split_ifs
      · exact List.append_nil _
      · rfl
  | pulls hsame =>
      rw [hsame.waiting]
      show s.waiting ++ [] = s.waiting.head?.toList ++ s.queuePull.waiting
      rw [List.append_nil, POServer.queuePull]
      split
      · rename_i hnil
        rw [hnil]
        rfl
      · rename_i l rest hcons
        rw [hcons]
        rfl

end POServer

/-! ## Runs -/

namespace Listening

variable {s s' : Listening cfg} {a : Action cfg}

/-- No connection is forgotten. -/
structure Attended (s : Listening cfg) : Prop where
  /-- A listener with a backlog has an event that was not fetched, or that was not handled, or it
  is in the waiting queue. -/
  backlog : ∀ l, 0 < s.backlog l →
    s.raised l = true ∨ .listener l ∈ s.server.master.batch ∨ l ∈ s.server.waiting
  waits : s.server.Waits
  /-- The first one pushed is the first one pulled. -/
  order : s.pushed = s.pulled ++ s.server.waiting

/-- The events that were fetched are for listeners that are set up. -/
def Open (s : Listening cfg) : Prop :=
  ∀ l, .listener l ∈ s.server.master.batch → 0 ≤ s.server.listenerFd l

theorem step_server {a : Server.Action cfg} (hs : step s (.server a) = some s') :
    s.Meets a ∧ Server.step s.server a = some s'.server ∧ s'.backlog = (s.kernel a).backlog ∧
      s'.raised = (s.kernel a).raised ∧ s'.pushed = s.pushed ++ (s.server.pushes a).toList ∧
      s'.pulled = s.pulled ++ (s.server.pulls a).toList := by
  obtain ⟨hmeets, hs⟩ := Option.ite_none_right_eq_some.mp hs
  obtain ⟨server, hserver, rfl⟩ := Option.map_eq_some_iff.mp hs
  exact ⟨hmeets, hserver, rfl, rfl, rfl, rfl⟩

theorem kernel_backlog_le (a : Server.Action cfg) (l : ListenerId cfg) :
    (s.kernel a).backlog l ≤ s.backlog l := by
  have htake : ∀ l', (s.take l').backlog l ≤ s.backlog l := by
    intro l'
    by_cases heq : l = l'
    · subst heq
      exact (Function.update_self _ _ _).le.trans (Nat.sub_le _ 1)
    · exact (Function.update_of_ne heq _ _).le
  unfold kernel
  split
  · split
    · exact htake _
    · exact Nat.le_refl _
  · exact Nat.le_refl _
  · exact Nat.le_refl _

theorem kernel_raised {a : Server.Action cfg} (hother : ∀ batch, a ≠ .epollWait batch) :
    (s.kernel a).raised = s.raised := by
  unfold kernel
  split
  · split <;> rfl
  · rename_i batch
    exact absurd rfl (hother batch)
  · rfl

theorem Open.step (h : s.Open) (hup : s.StaysUp a) (hs : step s a = some s') : s'.Open := by
  cases a with
  | server a =>
      have hserver := (step_server hs).2.1
      have hup : a ≠ .shutdown := fun heq ↦ hup (congrArg Action.server heq)
      intro l hl
      cases POServer.attends_of_step hup hserver with
      | stays hsame _ _ _ hbatch =>
          rw [hsame.listenerFd]
          refine h l ?_
          rcases hbatch with heq | ⟨e, heq⟩
          · exact heq ▸ hl
          · exact heq ▸ List.mem_cons_of_mem _ hl
      | fetches hsame hcan _ hbatch =>
          rw [hsame.listenerFd]
          rw [hbatch] at hl
          exact of_decide_eq_true (hcan.2.2 _ hl)
      | drops hsame _ _ hbatch =>
          rw [hsame.listenerFd]
          exact h l (hbatch ▸ List.mem_cons_of_mem _ hl)
      | @pushes l' now ok s' hsame _ hbatch =>
          rw [hsame.listenerFd]
          have hfd : (s.server.queuePush l').listenerFd = s.server.listenerFd := by
            unfold POServer.queuePush
            split_ifs <;> rfl
          rw [hfd]
          exact h l (hbatch ▸ List.mem_cons_of_mem _ hl)
      | pulls hsame hbatch =>
          rw [hsame.listenerFd]
          have hfd : s.server.queuePull.listenerFd = s.server.listenerFd := by
            unfold POServer.queuePull
            split <;> rfl
          rw [hfd]
          exact h l (hbatch ▸ hl)
  | arrives l =>
      obtain ⟨-, hs⟩ := Option.ite_none_right_eq_some.mp hs
      cases hs
      exact h
  | otherAccepts l =>
      obtain ⟨-, hs⟩ := Option.ite_none_right_eq_some.mp hs
      cases hs
      exact h

/-- A step of the server keeps a listener with a backlog in sight. -/
theorem Attended.server (h : s.Attended) (hopen : s.Open) {a : Server.Action cfg}
    (hup : a ≠ .shutdown) (hs : step s (.server a) = some s') : s'.Attended := by
  obtain ⟨hmeets, hserver, hbacklog, hraised, hpushed, hpulled⟩ := step_server hs
  have hattends := POServer.attends_of_step hup hserver
  have hbefore : ∀ l, 0 < s'.backlog l → 0 < s.backlog l := by
    intro l hl
    rw [hbacklog] at hl
    exact Nat.lt_of_lt_of_le hl (kernel_backlog_le a l)
  refine ⟨fun l hl ↦ ?_, ?_, ?_⟩
  · have hsight := h.backlog l (hbefore l hl)
    cases hattends with
    | stays hsame _ _ hother hbatch =>
        rw [hraised, kernel_raised hother, hsame.waiting]
        refine hsight.imp_right (Or.imp_left fun hin ↦ ?_)
        rcases hbatch with heq | ⟨e, heq⟩
        · exact heq ▸ hin
        · rw [heq] at hin
          exact (List.mem_cons.mp hin).resolve_left nofun
    | @fetches batch _ hsame _ hnone hbatch =>
        rw [hsame.waiting, hbatch]
        by_cases hin : .listener l ∈ batch
        · exact .inr (.inl hin)
        · rcases hsight with hsight | hsight | hsight
          · left
            rw [hraised]
            show (s.raised l && !decide (.listener l ∈ batch)) = true
            rw [hsight, decide_eq_false hin]
            rfl
          · rw [hnone] at hsight
            exact nomatch hsight
          · exact .inr (.inr hsight)
    | @drops l' now ok _ hsame _ hfd hbatch =>
        -- a listener that is set up has a socket
        have hpos := hopen l' (hbatch ▸ List.mem_cons_self)
        rw [hfd] at hpos
        exact absurd hpos (by decide)
    | @pushes l' now ok _ hsame _ hbatch =>
        have hother : ∀ batch, (.proceed now ok : Server.Action cfg) ≠ .epollWait batch :=
          fun _ ↦ nofun
        rw [hraised, kernel_raised hother, hsame.waiting]
        have hmem : ∀ l, l = l' ∨ l ∈ s.server.waiting → l ∈ (s.server.queuePush l').waiting := by
          intro l hl
          unfold POServer.queuePush
          split_ifs with hwaiting
          · rcases hl with rfl | hl
            · exact (h.waits.flag l).mp hwaiting
            · exact hl
          · rcases hl with rfl | hl
            · exact List.mem_append_right _ List.mem_cons_self
            · exact List.mem_append_left _ hl
        rcases hsight with hsight | hsight | hsight
        · exact .inl hsight
        · rw [hbatch] at hsight
          rcases List.mem_cons.mp hsight with heq | hsight
          · exact .inr (.inr (hmem l (.inl (Event.listener.inj heq))))
          · exact .inr (.inl hsight)
        · exact .inr (.inr (hmem l (.inr hsight)))
    | pulls hsame hbatch =>
        have hother : ∀ batch, (.accept .again : Server.Action cfg) ≠ .epollWait batch :=
          fun _ ↦ nofun
        rw [hraised, kernel_raised hother, hsame.waiting, hbatch]
        refine hsight.imp_right (Or.imp_right fun hin ↦ ?_)
        unfold POServer.queuePull
        split
        · exact hin
        · rename_i l' rest hwaiting
          rw [hwaiting] at hin
          refine (List.mem_cons.mp hin).resolve_left ?_
          rintro rfl
          exact absurd (hmeets l (by rw [hwaiting]; rfl)) (hbefore l hl).ne'
  · cases hattends with
    | stays hsame | fetches hsame | drops hsame => exact hsame.waits h.waits
    | pushes hsame => exact hsame.waits (h.waits.queuePush _)
    | pulls hsame => exact hsame.waits h.waits.queuePull
  · rw [hpushed, hpulled, h.order, List.append_assoc, hattends.waiting_eq, List.append_assoc]

theorem Attended.step (h : s.Attended) (hopen : s.Open) (hup : s.StaysUp a)
    (hs : step s a = some s') : s'.Attended := by
  cases a with
  | server a => exact h.server hopen (fun heq ↦ hup (congrArg Action.server heq)) hs
  | arrives l =>
      obtain ⟨-, hs⟩ := Option.ite_none_right_eq_some.mp hs
      cases hs
      refine ⟨fun l' hl' ↦ ?_, h.waits, h.order⟩
      by_cases heq : l' = l
      · subst heq
        exact .inl (Function.update_self _ _ _)
      · have hsame : 0 < s.backlog l' :=
          Nat.lt_of_lt_of_eq hl' (Function.update_of_ne heq _ _)
        refine (h.backlog l' hsame).imp_left fun hraised ↦ ?_
        exact (Function.update_of_ne heq _ _).trans hraised
  | otherAccepts l =>
      obtain ⟨-, hs⟩ := Option.ite_none_right_eq_some.mp hs
      cases hs
      refine ⟨fun l' hl' ↦ h.backlog l' ?_, h.waits, h.order⟩
      by_cases heq : l' = l
      · subst heq
        exact Nat.lt_of_lt_of_le hl' ((Function.update_self _ _ _).le.trans (Nat.sub_le _ 1))
      · exact Nat.lt_of_lt_of_le hl' (Function.update_of_ne heq _ _).le

theorem attended_start (listenerFd : ListenerId cfg → ℤ) (backlog : ListenerId cfg → ℕ) :
    (start cfg listenerFd backlog).Attended := by
  refine ⟨fun l hl ↦ .inl ?_, ⟨List.nodup_nil, fun _ ↦ ?_⟩, rfl⟩
  · have hl : 0 < if 0 ≤ listenerFd l then backlog l else 0 := hl
    split_ifs at hl with hfd
    · exact decide_eq_true ⟨hfd, hl⟩
    · exact absurd hl (Nat.lt_irrefl 0)
  · exact iff_of_false nofun nofun

/-- **No pending connection is forgotten.**  Until `poServer_shutdown()`, a listener leaves the
waiting queue only as its first one and when `accept()` reports `EAGAIN` for it. -/
theorem attended_of_reach (cfg : Config) (listenerFd : ListenerId cfg → ℤ)
    (backlog : ListenerId cfg → ℕ) (s : Listening cfg)
    (h : Reach step StaysUp (start cfg listenerFd backlog) s) :
    s.Attended ∧ ∀ a s', s.StaysUp a → step s a = some s' →
      ∀ l ∈ s.server.waiting, l ∉ s'.server.waiting →
        a = .server (.accept .again) ∧ s.server.waiting.head? = some l ∧ s.backlog l = 0 := by
  have hopen : ∀ {s}, Reach step StaysUp (start cfg listenerFd backlog) s → s.Open :=
    fun h ↦ h.invariant (fun _ hl ↦ nomatch hl) fun h' hup hs ↦ h'.step hup hs
  have hattended : s.Attended :=
    h.invariant_of hopen (attended_start listenerFd backlog)
      fun ho h' hup hs ↦ h'.step ho hup hs
  refine ⟨hattended, fun a s' hup hs l hl hnot ↦ ?_⟩
  cases a with
  | server a =>
      obtain ⟨hmeets, hserver, -⟩ := step_server hs
      have hup : a ≠ .shutdown := fun heq ↦ hup (congrArg Action.server heq)
      -- what is not there afterwards was pulled
      have hmem : l ∈ (s.server.pulls a).toList ++ s'.server.waiting := by
        rw [← (POServer.attends_of_step hup hserver).waiting_eq]
        exact List.mem_append_left _ hl
      have hpulled := Option.mem_toList.mp ((List.mem_append.mp hmem).resolve_right hnot)
      obtain ⟨rfl, hhead⟩ := POServer.pulls_eq_some.mp hpulled
      exact ⟨rfl, hhead, hmeets l hhead⟩
  | arrives l' | otherAccepts l' =>
      obtain ⟨-, hs⟩ := Option.ite_none_right_eq_some.mp hs
      cases hs
      exact absurd hl hnot

/-- A server with two listeners and room for one connection. -/
abbrev twoListeners : Config where
  threadPool := true
  numListeners := 2
  maxEpollEvents := 2
  maxConnections := 1
  waitTimeout := 1
  longTimeout := -1
  listenerCallback := fun _ ↦ ⟨0, 0⟩
  numListeners_pos := Nat.two_pos
  maxEpollEvents_pos := Nat.two_pos
  maxConnections_pos := Nat.one_pos
  waitTimeout_ge := Config.millisecond_ge
  longTimeout_ge := Config.off_ge
  timeouts_ordered := Config.off_ordered

/-- Of the three connections one is accepted, and another process takes the second one.  When
the first one is removed, `accept()` reports `EAGAIN` for the first listener. -/
abbrev acceptsOne : List (Action twoListeners) :=
  [.arrives 0, .server (.doNextEvents 0), .server (.proceed 0 true), .server (.proceed 0 true),
    .server (.epollWait [.listener 0, .listener 1]), .server (.proceed 0 true),
    .server (.proceed 0 true), .server (.accept (.accepted 10 0)), .server (.proceed 0 true),
    .server (.proceed 0 true), .server (.proceed 0 true), .otherAccepts 0,
    .server (.doNextEvents 1000000), .server (.proceed 1000000 true),
    .server (.proceed 1000000 true), .server (.accept .again)]

theorem attended_of_reach_acceptsOne :
    ∃ s, Reach step StaysUp (start twoListeners (fun l ↦ 3 + l.val) fun _ ↦ 1) s ∧
      (s.pushed = [0, 1] ∧ s.pulled = [0] ∧ s.backlog 1 = 1) ∧ s.Attended ∧
      ∀ a s', s.StaysUp a → step s a = some s' →
        ∀ l ∈ s.server.waiting, l ∉ s'.server.waiting →
          a = .server (.accept .again) ∧ s.server.waiting.head? = some l ∧ s.backlog l = 0 := by
  obtain ⟨s, hr, hs⟩ :
      ∃ s, Reach step StaysUp (start twoListeners (fun l ↦ 3 + l.val) fun _ ↦ 1) s ∧
        (s.pushed = [0, 1] ∧ s.pulled = [0] ∧ s.backlog 1 = 1) :=
    exists_reach_of_exec_decide acceptsOne (by decide)
  exact ⟨s, hr, hs, attended_of_reach _ _ _ s hr⟩

end Listening

end Tidbits.Server
