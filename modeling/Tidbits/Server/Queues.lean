import Tidbits.Server.Backlog
import Tidbits.Server.Holders

/-!
# What a step does to the used list and the unused queue

A step moves at most one connection struct: out of the used list to the end of the
unused queue, or from the front of the unused queue to the end of the used list.  The
accept times change with the latter only (`requeues_of_step`).  While the master is in
one of the loops that call `checkTryRemoveConnection()` for a timeout, nobody else does
either (`undisturbed_of_master`); how it gets into them is `comes_of_step`.
-/

namespace Tidbits.Server

open Tidbits.Transition

variable {cfg : Config} {P : ℕ → ℕ → Prop}

theorem Connection.acceptTime_serve {conn : Connection} {phase : Phase} {a : ServiceAction}
    {r : ServiceStep} (h : conn.serve phase a = some r) : r.conn.acceptTime = conn.acceptTime := by
  have hreturned : ∀ d removeMe value,
      (conn.callbackReturned d removeMe value).1.acceptTime = conn.acceptTime := by
    intro d removeMe value
    unfold callbackReturned
    split_ifs <;> rfl
  cases phase with
  | test d removeMe =>
      cases a with
      | go =>
          rw [serve] at h
          split_ifs at h <;> cases h <;> rfl
      | setCallback | setCleanupCallback | returns => cases h
  | inCallback d removeMe =>
      cases a with
      | go => cases h
      | setCallback | setCleanupCallback =>
          cases h
          rfl
      | returns value =>
          cases h
          exact hreturned d removeMe value
  | check removeMe =>
      cases a with
      | go =>
          cases h
          rfl
      | setCallback | setCleanupCallback | returns => cases h
  | done removeMe => cases a <;> cases h

namespace Store

variable {s s' : Store cfg} {c : ConnId cfg} {source : Option ℕ} {ok : Bool} {i : ℕ}
  {w : Worker cfg} {b : ServiceAction}

/-- The lists and the accept times stay as they are. -/
structure SameQueues (s s' : Store cfg) : Prop where
  lists : s'.lists = s.lists
  acceptTime : ∀ c, (s'.conn c).acceptTime = (s.conn c).acceptTime

/-- A connection is removed. -/
structure Drops (s : Store cfg) (c : ConnId cfg) (s' : Store cfg) : Prop where
  opened : 0 ≤ (s.conn c).fd
  lists : s'.lists = s.lists.listRemove c
  acceptTime : ∀ c, (s'.conn c).acceptTime = (s.conn c).acceptTime

/-- A connection is added. -/
structure Adds (s : Store cfg) (c : ConnId cfg) (now : Time) (s' : Store cfg) : Prop where
  lists : s.lists.listAddNew = some (c, s'.lists)
  acceptTime : ∀ x, (s'.conn x).acceptTime = if x = c then now else (s.conn x).acceptTime

theorem SameQueues.refl (s : Store cfg) : s.SameQueues s := ⟨rfl, fun _ ↦ rfl⟩

theorem SameQueues.trans {t : Store cfg} (h : s.SameQueues s') (h' : s'.SameQueues t) :
    s.SameQueues t :=
  ⟨h'.lists.trans h.lists, fun c ↦ (h'.acceptTime c).trans (h.acceptTime c)⟩

theorem sameQueues_affect (s : Store cfg) (source : Option ℕ) (c : ConnId cfg) :
    s.SameQueues (s.affect source c) :=
  ⟨affect_lists, fun x ↦ by rw [affect_conn]⟩

theorem sameQueues_setConn {conn : Connection} (h : conn.acceptTime = (s.conn c).acceptTime) :
    s.SameQueues (s.setConn c conn) := by
  refine ⟨rfl, fun x ↦ ?_⟩
  by_cases hx : x = c
  · subst hx
    rw [setConn_self, h]
  · rw [setConn_of_ne hx]

theorem drops_removeConnection (hrun : (s.removeConnection c ok).exited = false) :
    s.Drops c (s.removeConnection c ok) := by
  have hrun' : ok = true ∧ 0 ≤ (s.conn c).fd := by
    by_contra hnot
    rw [exited_removeConnection] at hrun
    · exact nomatch hrun
    · cases ok with
      | false => exact .inl rfl
      | true => exact .inr fun hfd ↦ hnot ⟨rfl, hfd⟩
  obtain ⟨rfl, hopen⟩ := hrun'
  refine ⟨hopen, ?_, fun x ↦ ?_⟩
  · rw [removeConnection_eq hopen]
    rfl
  · rw [removeConnection_eq hopen]
    by_cases hx : x = c
    · subst hx
      rw [setConn_self]
      rfl
    · rw [setConn_of_ne hx]

theorem Drops.of_affect (h : (s.affect source c).Drops c s') : s.Drops c s' := by
  refine ⟨?_, ?_, fun x ↦ ?_⟩
  · have hopen := h.opened
    rwa [affect_conn] at hopen
  · rw [h.lists, affect_lists]
  · rw [h.acceptTime, affect_conn]

/-- `checkTryRemoveConnection` removes the connection if it can lock its mutex. -/
theorem checkTryRemoveConnection_queues
    (hrun : (s.checkTryRemoveConnection c source ok).1.exited = false) :
    s.canLock c = true ∧ s.Drops c (s.checkTryRemoveConnection c source ok).1 ∧
        (s.checkTryRemoveConnection c source ok).2 = true ∨
      s.canLock c = false ∧ s.SameQueues (s.checkTryRemoveConnection c source ok).1 ∧
        (s.checkTryRemoveConnection c source ok).2 = false := by
  unfold checkTryRemoveConnection at hrun ⊢
  split_ifs at hrun ⊢ with hlock
  · exact .inl ⟨hlock, (drops_removeConnection hrun).of_affect, rfl⟩
  · exact .inr ⟨Bool.not_eq_true _ ▸ hlock,
      (sameQueues_affect s source c).trans (sameQueues_setConn rfl), rfl⟩

theorem adds_addConnection {fd : ℤ} {now : Time} {callback : Callback}
    (hrun : (s.addConnection fd now callback).exited = false) :
    ∃ c, s.Adds c now (s.addConnection fd now callback) := by
  cases hadd : s.lists.listAddNew with
  | none =>
      rw [addConnection, hadd] at hrun
      cases hrun
  | some p =>
      obtain ⟨c, lists⟩ := p
      refine ⟨c, ?_, fun x ↦ ?_⟩
      · rw [addConnection_eq hadd]
        exact hadd
      · rw [addConnection_eq hadd]
        by_cases hx : x = c
        · subst hx
          rw [setConn_self, if_pos rfl]
          rfl
        · rw [setConn_of_ne hx, if_neg hx]

theorem sameQueues_setReady {input output : Bool} : s.SameQueues (s.setReady c input output) := by
  refine sameQueues_setConn ?_
  cases input <;> cases output <;> rfl

theorem sameQueues_serve {queuedFor n : ℕ} {phase phase' : Phase}
    (hs : s.serve c queuedFor n phase b = some (s', phase')) : s.SameQueues s' := by
  obtain ⟨r, hr, heq⟩ := Option.map_eq_some_iff.mp hs
  cases heq
  have hcall : s.SameQueues (s.call c queuedFor n r.called) := by
    cases r.called <;> exact ⟨rfl, fun _ ↦ rfl⟩
  refine hcall.trans (sameQueues_setConn ?_)
  rw [Connection.acceptTime_serve hr]
  exact (hcall.acceptTime c).symm

theorem Works.acceptTime (h : s.Works i w b s') (c : ConnId cfg) :
    (s'.conn c).acceptTime = (s.conn c).acceptTime := by
  have hset : ∀ {conn : Connection}, conn.acceptTime = (s.conn w.conn).acceptTime →
      s'.conn = Function.update s.conn w.conn conn →
      (s'.conn c).acceptTime = (s.conn c).acceptTime := by
    intro conn htime hconn
    rw [hconn]
    by_cases hc : c = w.conn
    · subst hc
      rw [Function.update_self, htime]
    · rw [Function.update_of_ne hc]
  cases h with
  | serves hp hr hconn hworker hmutex => exact hset (Connection.acceptTime_serve hr) hconn
  | removes hp hfree hcause hsets =>
      have hreset : ((s.conn w.conn).reset true).acceptTime = (s.conn w.conn).acceptTime := rfl
      exact hset hreset hsets.conn
  | exits hp hfree hcause hsame hexit => rw [hsame.conn]
  | _ => rfl

theorem drops_finishService {removeMe : Bool}
    (hrun : (s.finishService i w removeMe ok).exited = false) :
    s.SameQueues (s.finishService i w removeMe ok) ∨
      ∃ c, s.Drops c (s.finishService i w removeMe ok) := by
  obtain ⟨t, heq, ht⟩ := finishService_cases s i w removeMe ok
  rw [heq] at hrun ⊢
  split_ifs at hrun ⊢ with hexit
  · exact nomatch hexit.symm.trans hrun
  · rcases ht with rfl | ⟨source, rfl, -⟩
    · exact .inl ⟨rfl, fun _ ↦ rfl⟩
    · have hdrops := (drops_removeConnection (Bool.not_eq_true _ ▸ hexit)).of_affect
      exact .inr ⟨w.conn, hdrops.opened, hdrops.lists, hdrops.acceptTime⟩

/-! ## The sequences -/

theorem Drops.holds {used unused : List (ConnId cfg)} (h : s.Drops c s')
    (hholds : s.lists.Holds used unused) (hc : c ∈ used) :
    ∃ used₁ used₂, used = used₁ ++ c :: used₂ ∧
      s'.lists.Holds (used₁ ++ used₂) (unused ++ [c]) := by
  obtain ⟨used₁, used₂, rfl⟩ := List.append_of_mem hc
  refine ⟨used₁, used₂, rfl, ?_⟩
  rw [h.lists]
  exact hholds.listRemove

theorem Adds.holds {used unused : List (ConnId cfg)} {now : Time} (h : s.Adds c now s')
    (hholds : s.lists.Holds used unused) :
    ∃ rest, unused = c :: rest ∧ s'.lists.Holds (used ++ [c]) rest := by
  cases unused with
  | nil =>
      have hnone : s.lists.listAddNew = none := by
        rw [ConnectionLists.listAddNew, ConnectionLists.unusedPop, hholds.front_eq]
        rfl
      cases hnone.symm.trans h.lists
  | cons x rest =>
      obtain ⟨lists, hadd, hholds'⟩ := hholds.listAddNew
      cases hadd.symm.trans h.lists
      exact ⟨rest, rfl, hholds'⟩

theorem Drops.usedWalk (h : s.Drops c s') (hpart : s.Partitioned) :
    ∃ used₁ used₂, s.lists.usedWalk = used₁ ++ c :: used₂ ∧
      s'.lists.usedWalk = used₁ ++ used₂ := by
  obtain ⟨used, unused, hholds, -, hopen⟩ := hpart
  obtain ⟨used₁, used₂, rfl, hholds'⟩ := h.holds hholds ((hopen c).mpr h.opened)
  exact ⟨used₁, used₂, hholds.usedWalk_eq, hholds'.usedWalk_eq⟩

theorem Partitioned.first_eq (h : s.Partitioned) : s.lists.first = s.lists.usedWalk.head? := by
  obtain ⟨used, unused, hholds, -, -⟩ := h
  rw [hholds.usedWalk_eq, hholds.first_eq]

theorem Partitioned.usedWalk_first (h : s.Partitioned) (hfirst : s.lists.first = some c) :
    ∃ rest, s.lists.usedWalk = c :: rest :=
  List.head?_eq_some_iff.mp (h.first_eq.symm.trans hfirst)

theorem Partitioned.nodup_usedWalk (h : s.Partitioned) : s.lists.usedWalk.Nodup := by
  obtain ⟨used, unused, hholds, -, -⟩ := h
  rw [hholds.usedWalk_eq]
  exact (List.nodup_append.mp hholds.nodup).1

/-- The removal of the first leaves the rest. -/
theorem Drops.usedWalk_first (h : s.Drops c s') (hpart : s.Partitioned)
    (hfirst : s.lists.first = some c) : s.lists.usedWalk = c :: s'.lists.usedWalk := by
  obtain ⟨rest, hrest⟩ := hpart.usedWalk_first hfirst
  have hnodup := hpart.nodup_usedWalk
  obtain ⟨used₁, used₂, hused, hused'⟩ := h.usedWalk hpart
  rw [hused', hused]
  cases used₁ with
  | nil => rfl
  | cons x used₁ =>
      -- the first would be there twice
      rw [hused] at hrest hnodup
      cases hrest
      have hc : c ∈ used₁ ++ c :: used₂ := List.mem_append_right _ List.mem_cons_self
      exact absurd hc (List.nodup_cons.mp hnodup).1

theorem Adds.usedWalk {now : Time} (h : s.Adds c now s') (hpart : s.Partitioned) :
    s'.lists.usedWalk = s.lists.usedWalk ++ [c] ∧ c ∉ s.lists.usedWalk := by
  obtain ⟨used, unused, hholds, -, -⟩ := hpart
  obtain ⟨rest, rfl, hholds'⟩ := h.holds hholds
  rw [hholds.usedWalk_eq, hholds'.usedWalk_eq]
  refine ⟨rfl, fun hc ↦ ?_⟩
  exact (List.nodup_append.mp hholds.nodup).2.2 c hc c List.mem_cons_self rfl

end Store

namespace POServer

variable {s s' t : POServer cfg} {a : Action cfg} {c : ConnId cfg} {source : Option ℕ}
  {now : Time} {ok : Bool} {caller : Option (List (Event cfg))}

/-- What a step does to the used list and the unused queue. -/
inductive Requeues (s : POServer cfg) : Action cfg → POServer cfg → Prop
  | stays {a : Action cfg} {s' : POServer cfg} (hsame : s.store.SameQueues s'.store) :
      Requeues s a s'
  | drops {a : Action cfg} {s' : POServer cfg} {c : ConnId cfg}
      (hdrops : s.store.Drops c s'.store) : Requeues s a s'
  | adds {fd : ℤ} {now : Time} {s' : POServer cfg} {c : ConnId cfg}
      (hadds : s.store.Adds c now s'.store) : Requeues s (.accept (.accepted fd now)) s'

theorem Requeues.of_store (hstore : s'.store = s.store) : s.Requeues a s' := by
  refine .stays ?_
  rw [hstore]
  exact .refl _

theorem requeues_checkTryRemove (hrun : s'.store.exited = false)
    (hstore : s'.store = (s.store.checkTryRemoveConnection c source ok).1) : s.Requeues a s' := by
  rw [hstore] at hrun
  rcases Store.checkTryRemoveConnection_queues hrun with ⟨-, hdrops, -⟩ | ⟨-, hsame, -⟩
  · rw [← hstore] at hdrops
    exact .drops hdrops
  · rw [← hstore] at hsame
    exact .stays hsame

theorem requeues_longSweep (hrun : (s.longSweep now ok).store.exited = false) :
    s.Requeues a (s.longSweep now ok) := by
  unfold longSweep at hrun ⊢
  split at hrun
  · exact requeues_checkTryRemove hrun rfl
  · exact .of_store rfl

theorem requeues_waitSweep (hrun : (s.waitSweep now caller ok).store.exited = false) :
    s.Requeues a (s.waitSweep now caller ok) := by
  unfold waitSweep at hrun ⊢
  split at hrun
  · split_ifs at hrun ⊢
    · exact requeues_checkTryRemove hrun rfl
    · exact requeues_checkTryRemove hrun store_lookedForAccept
  · exact .of_store store_lookedForAccept

theorem requeues_doListenerEvent {l : ListenerId cfg} {rest : List (Event cfg)} :
    s.Requeues a (s.doListenerEvent l rest now) := by
  unfold doListenerEvent
  split_ifs
  · exact .of_store rfl
  · exact .of_store (queuePush_store l)
  · exact .of_store (store_lookForAccept.trans (queuePush_store l))

theorem requeues_doConnEvent {e : ConnEvent cfg} {rest : List (Event cfg)}
    (hrun : (s.doConnEvent e rest ok).store.exited = false) :
    s.Requeues a (s.doConnEvent e rest ok) := by
  unfold doConnEvent at hrun ⊢
  split_ifs at hrun ⊢
  · exact .of_store rfl
  · exact .of_store rfl
  · exact requeues_checkTryRemove hrun rfl
  · exact .of_store rfl
  · exact .of_store rfl

theorem requeues_setReady {e : ConnEvent cfg} {rest : List (Event cfg)} :
    s.Requeues a (s.setReady e rest) := by
  have hsame : s.store.SameQueues
      ((s.store.affect (some e.source) e.conn).setReady e.conn e.input e.output) :=
    (Store.sameQueues_affect s.store _ _).trans Store.sameQueues_setReady
  unfold setReady
  dsimp only
  split_ifs
  · exact .stays (hsame.trans ⟨rfl, fun _ ↦ rfl⟩)
  · exact .stays hsame
  · exact .stays hsame

theorem requeues_eventEnd {e : ConnEvent cfg} {rest : List (Event cfg)}
    (hrun : (s.eventEnd e rest ok).store.exited = false) :
    s.Requeues a (s.eventEnd e rest ok) := by
  unfold eventEnd at hrun ⊢
  split_ifs at hrun ⊢
  · exact requeues_checkTryRemove hrun rfl
  · exact .of_store rfl

theorem requeues_proceed (hs : s.proceed now ok = some s') (hrun : s'.store.exited = false) :
    s.Requeues a s' := by
  cases proceeds hs with
  | longSweep hm => exact requeues_longSweep hrun
  | acceptLoop hm hmay => exact .of_store store_lookForAccept
  | waitSweep hm => exact requeues_waitSweep hrun
  | gotEvents hm hfree | runTask hm hfree => exact .of_store rfl
  | unlocked hm | endsBatch hm => exact .of_store rfl
  | listenerEvent hm => exact requeues_doListenerEvent
  | connEvent hm => exact requeues_doConnEvent hrun
  | noCallback hm => exact requeues_checkTryRemove hrun rfl
  | setReady hm hfree => exact requeues_setReady
  | eventEnd hm => exact requeues_eventEnd hrun

theorem requeues_accept {r : AcceptResult} {m : Master cfg} (hs : s.accept r = some t)
    (hrun : t.store.exited = false) : s.Requeues (.accept r) { t with master := m } := by
  cases r with
  | accepted fd now =>
      obtain ⟨l, waiting, -, -, rfl⟩ := accept_accepted_eq_some.mp hs
      obtain ⟨c, hadds⟩ := Store.adds_addConnection hrun
      exact .adds hadds
  | again =>
      cases hs
      exact .of_store queuePull_store
  | failed => cases hs; exact nomatch hrun

theorem requeues_serve {e : ConnEvent cfg} {rest : List (Event cfg)} {phase : Phase}
    {b : ServiceAction} (hs : s.serve e rest ok phase b = some s')
    (hrun : s'.store.exited = false) : s.Requeues a s' := by
  unfold serve at hs
  split at hs
  · cases hs
    dsimp only at hrun
    split_ifs at hrun with hremove
    · refine .drops (c := e.conn) ?_
      dsimp only
      rw [if_pos hremove]
      exact (Store.drops_removeConnection hrun).of_affect
    · refine .of_store ?_
      dsimp only
      rw [if_neg hremove]
  · obtain ⟨⟨store, phase'⟩, hserve, rfl⟩ := Option.map_eq_some_iff.mp hs
    exact .stays (Store.sameQueues_serve hserve)

theorem sameQueues_work {i : ℕ} {w : Worker cfg} {b : ServiceAction}
    (hplace : ∀ removeMe, w.place ≠ .lockConn removeMe) (hs : s.work i w b ok = some s') :
    s.store.SameQueues s'.store := by
  cases taskProceeds hs with
  | lockServer hp hfree ha => exact ⟨rfl, fun _ ↦ rfl⟩
  | lockConn hp hfree ha => exact absurd hp (hplace _)
  | service hp hstore =>
      exact ⟨Store.lists_serviceConnection hstore, (Core.works_serviceConnection hstore).acceptTime⟩

theorem requeues_work {i : ℕ} {w : Worker cfg} {b : ServiceAction}
    (hs : s.work i w b ok = some s') (hrun : s'.store.exited = false) : s.Requeues a s' := by
  by_cases hplace : ∀ removeMe, w.place ≠ .lockConn removeMe
  · exact .stays (sameQueues_work hplace hs)
  · cases taskProceeds hs with
    | lockServer hp hfree ha => exact absurd (fun _ hne ↦ nomatch hp.symm.trans hne) hplace
    | lockConn hp hfree ha =>
        rcases Store.drops_finishService hrun with hsame | ⟨c, hdrops⟩
        · exact .stays hsame
        · exact .drops hdrops
    | service hp hstore => exact absurd hp hplace

/-- **Every step keeps the used list and the unused queue, drops a connection or adds one.** -/
theorem requeues_of_step (hs : step s a = some s') (hrun : s'.store.exited = false) :
    s.Requeues a s' := by
  cases a with
  | doNextEvents now =>
      obtain ⟨-, -, rfl⟩ := step_doNextEvents_eq_some.mp hs
      exact .of_store rfl
  | proceed now ok => exact requeues_proceed (step_proceed_eq_some.mp hs).2 hrun
  | accept r =>
      obtain ⟨-, m, -, t, ht, rfl⟩ := step_accept_eq_some.mp hs
      exact requeues_accept ht hrun
  | epollWait batch =>
      obtain ⟨-, -, rfl⟩ := step_epollWait_eq_some.mp hs
      exact .of_store rfl
  | serve b ok =>
      obtain ⟨-, e, rest, phase, -, hs⟩ := step_serve_eq_some.mp hs
      exact requeues_serve hs hrun
  | work i b ok =>
      obtain ⟨-, w, -, hs⟩ := step_work_eq_some.mp hs
      exact requeues_work hs hrun
  | stop =>
      obtain ⟨-, rfl⟩ := step_stop_eq_some.mp hs
      exact .of_store rfl
  | shutdown =>
      obtain ⟨-, -, rfl⟩ := step_shutdown_eq_some.mp hs
      exact .of_store rfl

/-- While the master holds the server mutex, others neither move it nor change the lists, the
accept times and the waiting queue. -/
theorem Core.undisturbed_of_master (h : s.Core P) (hm : s.master.Holds)
    (hproceed : ∀ now ok, a ≠ .proceed now ok) (haccept : ∀ r, a ≠ .accept r)
    (hserve : ∀ b ok, a ≠ .serve b ok) (hs : step s a = some s') :
    (∀ now, a ≠ .doNextEvents now) ∧ s.store.SameQueues s'.store ∧ s'.waiting = s.waiting ∧
      s'.master = s.master := by
  cases a with
  | doNextEvents now =>
      obtain ⟨-, hcond, -⟩ := step_doNextEvents_eq_some.mp hs
      rw [hcond.1] at hm
      exact hm.elim
  | proceed now ok => exact absurd rfl (hproceed now ok)
  | accept r => exact absurd rfl (haccept r)
  | epollWait batch =>
      obtain ⟨-, hcond, -⟩ := step_epollWait_eq_some.mp hs
      rw [hcond.1] at hm
      exact hm.elim
  | serve b ok => exact absurd rfl (hserve b ok)
  | work i b ok =>
      obtain ⟨-, w, hw, hs⟩ := step_work_eq_some.mp hs
      have hmutex : s.serverMutex ≠ none := by
        rw [h.mutex.mpr hm]
        exact Option.some_ne_none _
      have hplace : ∀ removeMe, w.place ≠ .lockConn removeMe := fun removeMe hp ↦
        h.not_finishing hm i ⟨w, removeMe, hw, hp⟩
      have hund := undisturbed_work hmutex hplace hs
      exact ⟨fun _ ↦ nofun, sameQueues_work hplace hs, hund.waiting, hund.master⟩
  | stop =>
      obtain ⟨-, rfl⟩ := step_stop_eq_some.mp hs
      exact ⟨fun _ ↦ nofun, .refl _, rfl, rfl⟩
  | shutdown =>
      obtain ⟨-, hcond, -⟩ := step_shutdown_eq_some.mp hs
      rw [hcond] at hm
      exact hm.elim

/-! ## The loops over the used list -/

/-- How the master gets into a loop that looks at the used list, and from there to the unlocking of
the server mutex and to `epoll_wait()`. -/
def Comes (s : POServer cfg) (a : Action cfg) (s' : POServer cfg) : Prop :=
  match s'.master with
  | .longSweep t => s.master = .longSweep t ∨ (∃ now, a = .doNextEvents now) ∧ s'.store = s.store
  | .waitSweep t caller =>
      s.master = .waitSweep t caller ∨ s.master = .waitAccept t caller ∨
        (∃ now ok, a = .proceed now ok) ∧ s'.store = s.store ∧ s.store.lists.back = none
  | .waitAccept t caller => s.master = .waitAccept t caller ∨ s.master = .waitSweep t caller
  | .unlocked =>
      s.master = .unlocked ∨ (∃ t, s.master = .waitSweep t none) ∨
        (∃ now ok, a = .proceed now ok) ∧ s'.store = s.store ∧
          (s'.waiting = [] ∨ s.store.lists.back = none)
  | .epollWait => s.master = .epollWait ∨ s.master = .unlocked
  | _ => True

theorem Comes.of_master (hm : s'.master = s.master) : s.Comes a s' := by
  unfold Comes
  rw [hm]
  cases s.master with
  | longSweep | waitSweep | waitAccept | unlocked | epollWait => exact .inl rfl
  | _ => trivial

theorem comes_lookForAccept {t : Time} (hfull : s.waiting = [] ∨ s.store.lists.back = none) :
    s.Comes (.proceed now ok) (s.lookForAccept t caller) := by
  unfold lookForAccept
  split_ifs with hcond
  · exact .inr (.inr ⟨⟨now, ok, rfl⟩, rfl, hfull.resolve_left hcond.2.1⟩)
  · cases caller with
    | none => exact .inr (.inr ⟨⟨now, ok, rfl⟩, rfl, hfull⟩)
    | some rest => exact trivial

theorem comes_waitSweep {t : Time} (hm : s.master = .waitSweep t caller) :
    s.Comes a (s.waitSweep t caller ok) := by
  unfold waitSweep
  split
  · split_ifs
    · exact .inr hm
    · cases caller with
      | none => exact .inr (.inl ⟨t, hm⟩)
      | some rest => exact trivial
  · cases caller with
    | none => exact .inr (.inl ⟨t, hm⟩)
    | some rest => exact trivial

theorem comes_doListenerEvent {l : ListenerId cfg} {rest : List (Event cfg)} :
    s.Comes (.proceed now ok) (s.doListenerEvent l rest now) := by
  unfold doListenerEvent
  split_ifs with hdown hunused
  · exact trivial
  · exact trivial
  · unfold lookForAccept
    split_ifs
    · refine .inr (.inr ⟨⟨now, ok, rfl⟩, queuePush_store l, ?_⟩)
      rwa [Bool.not_eq_true, Option.isSome_eq_false_iff, Option.isNone_iff_eq_none] at hunused
    · exact trivial

theorem comes_proceed (hs : s.proceed now ok = some s') : s.Comes (.proceed now ok) s' := by
  cases proceeds hs with
  | longSweep hm =>
      unfold longSweep
      split
      · exact .of_master rfl
      · exact trivial
  | acceptLoop hm hmay =>
      refine comes_lookForAccept ?_
      rwa [mayAccept, Bool.not_eq_true, Bool.and_eq_false_iff, Bool.not_eq_false',
        List.isEmpty_iff, Option.isSome_eq_false_iff, Option.isNone_iff_eq_none] at hmay
  | waitSweep hm => exact comes_waitSweep hm
  | unlocked hm => exact .inr hm
  | gotEvents hm hfree | runTask hm hfree => exact trivial
  | endsBatch hm | noCallback hm => exact trivial
  | listenerEvent hm => exact comes_doListenerEvent
  | connEvent hm =>
      unfold doConnEvent
      split_ifs <;> exact trivial
  | setReady hm hfree =>
      unfold setReady
      dsimp only
      split_ifs <;> exact trivial
  | eventEnd hm =>
      unfold eventEnd
      split_ifs <;> exact trivial

theorem comes_accept {m : Master cfg} (hm : s.afterAccept = some m) :
    s.Comes a { t with master := m } := by
  obtain ⟨t, -, rfl⟩ | ⟨t, caller, hp, rfl⟩ | ⟨rest, -, rfl⟩ := afterAccept_cases hm
  · exact trivial
  · exact .inr (.inl hp)
  · exact trivial

theorem comes_serve {e : ConnEvent cfg} {rest : List (Event cfg)} {phase : Phase}
    {b : ServiceAction} (hs : s.serve e rest ok phase b = some s') : s.Comes a s' := by
  unfold serve at hs
  split at hs
  · cases hs
    exact trivial
  · obtain ⟨r, -, rfl⟩ := Option.map_eq_some_iff.mp hs
    exact trivial

/-- **How the master gets there.** -/
theorem comes_of_step (hs : step s a = some s') : s.Comes a s' := by
  cases a with
  | doNextEvents now =>
      obtain ⟨-, -, rfl⟩ := step_doNextEvents_eq_some.mp hs
      unfold Comes
      dsimp only
      split_ifs
      · exact .inr ⟨⟨now, rfl⟩, rfl⟩
      · exact trivial
  | proceed now ok => exact comes_proceed (step_proceed_eq_some.mp hs).2
  | accept r =>
      obtain ⟨-, m, hm, t, -, rfl⟩ := step_accept_eq_some.mp hs
      exact comes_accept hm
  | epollWait batch =>
      obtain ⟨-, -, rfl⟩ := step_epollWait_eq_some.mp hs
      exact trivial
  | serve b ok =>
      obtain ⟨-, e, rest, phase, -, hs⟩ := step_serve_eq_some.mp hs
      exact comes_serve hs
  | work i b ok =>
      obtain ⟨-, w, -, hs⟩ := step_work_eq_some.mp hs
      exact .of_master (sameListeners_work hs).2
  | stop =>
      obtain ⟨-, rfl⟩ := step_stop_eq_some.mp hs
      exact .of_master rfl
  | shutdown =>
      obtain ⟨-, -, rfl⟩ := step_shutdown_eq_some.mp hs
      exact .of_master rfl

end POServer

end Tidbits.Server
