import Tidbits.System.Locks
import Tidbits.Server.Holders
import Tidbits.ThreadPool.Blocking

/-!
# The invariant of the server with its threads

`Services` says that every task which has begun is in the hands of a worker, and
that the mutex of a connection is locked for one step only by the thread that
makes this step with the server mutex.  `Pooling` ties the call of the pool
function by the master, the manager of the pool and the pool mutex together.
-/

namespace Tidbits.System

open Tidbits.Server (ConnId POServer ListenerId)
open Tidbits.ThreadPool (Pool WorkerId)
open Tidbits.Transition

variable {b : Build}

namespace State

variable {s s' : State b} {t : Thread b} {w : WorkerId b.pool} {i : ℕ}
  {x : Server.Worker b.server} {c : ConnId b.server}

/-- The threads against the connections. -/
structure Services (s : State b) : Prop where
  threaded : s.server.Threaded
  /-- A worker runs each task that has begun. -/
  run : ∀ i x, s.server.store.worker i = some x → x.place ≠ .queued →
    ∃ w, s.task (.worker w) = some i
  locked : ∀ c t, s.connSection c = some t →
    s.sectionConn t = some c ∧ s.Holds t .server ∧ s.server.store.connMutex c = none

/-- The threads against the pool. -/
structure Pooling (s : State b) : Prop where
  inv : s.pool.Inv
  crowded : s.pool.Crowded
  placing : s.pool.manager.placing = true
  ready : s.call ≠ .waiting → s.call ≠ .relocked → s.pool.manager = .ready
  waits : s.call = .waiting → s.pool.manager ≠ .ready
  signalled : s.call = .relocked → s.pool.manager.signalled = true
  calls : s.call ≠ .before → s.callsPool = true
  masterLocked : s.poolMutex = some .master ↔ s.call = .locked ∨ s.call = .relocked
  workerLocked : ∀ w, s.poolMutex = some (.worker w) → s.entersPool (.worker w) = true

/-- The invariant of the threads. -/
structure Inv (s : State b) : Prop extends Services s, Pooling s

theorem services_start (listenerFd : ListenerId b.server → ℤ) : (start b listenerFd).Services where
  threaded := POServer.threaded_start listenerFd
  run := fun _ _ hw ↦ nomatch hw
  locked := fun _ _ hc ↦ nomatch hc

theorem pooling_start (listenerFd : ListenerId b.server → ℤ) : (start b listenerFd).Pooling where
  inv := Pool.inv_create b.pool
  crowded := Pool.Crowded.create b.pool
  placing := rfl
  ready := fun _ _ ↦ rfl
  waits := fun h ↦ nomatch h
  signalled := fun h ↦ nomatch h
  calls := fun h ↦ absurd rfl h
  masterLocked := iff_of_false (fun h ↦ nomatch h) fun h ↦ by rcases h with h | h <;> cases h
  workerLocked := fun _ h ↦ nomatch h

/-! ## The place of a thread -/

/-- The master holds the server mutex where it locks the mutex of a connection. -/
theorem holds_of_sectionConn (h : s.sectionConn .master = some c) : s.server.master.Holds := by
  unfold sectionConn at h
  cases hm : s.server.master with
  | setReady | acceptLoop | waitAccept | listenerAccept => trivial
  | _ => simp [hm, POServer.afterAccept] at h

namespace Services

/-- The thread holds the server mutex where it locks the mutex of a connection for one step. -/
theorem holds_server (h : s.Services) (hrun : s.server.store.exited = false)
    (hc : s.sectionConn t = some c) : s.Holds t .server := by
  have hcore := h.threaded.core hrun
  cases t with
  | master => exact ⟨_, rfl, hcore.mutex.mpr (holds_of_sectionConn hc)⟩
  | worker w =>
      obtain ⟨x, removeMe, hx, hp, -⟩ := sectionConn_worker.mp hc
      obtain ⟨i, hi, hxi⟩ := service_eq_some.mp hx
      refine ⟨.worker i, ?_, hcore.finishing i ⟨x, removeMe, hxi, hp⟩⟩
      show (s.task (.worker w)).map Server.Owner.worker = some (.worker i)
      rw [hi]
      rfl

/-! ## Services -/

/-- A step that leaves the connections alone, and the workers that are in a service. -/
theorem of_server (h : s.Services) (hserver : s'.server = s.server)
    (hsection : s'.connSection = s.connSection)
    (htask : ∀ w i x, s.task (.worker w) = some i → s.server.store.worker i = some x →
      s'.task (.worker w) = some i) : s'.Services where
  threaded := hserver ▸ h.threaded
  run := by
    intro i x hx hp
    rw [hserver] at hx
    obtain ⟨w, hw⟩ := h.run i x hx hp
    exact ⟨w, htask w i x hw hx⟩
  locked := by
    intro c t hc
    rw [hsection] at hc
    obtain ⟨hsec, hown, hfree⟩ := h.locked c t hc
    rw [hserver]
    cases t with
    | master =>
        refine ⟨?_, ?_, hfree⟩
        · unfold sectionConn at hsec ⊢
          rw [hserver]
          exact hsec
        · obtain ⟨o, ho, hmutex⟩ := hown
          exact ⟨o, ho, hserver ▸ hmutex⟩
    | worker w =>
        obtain ⟨x, removeMe, hx, hp, hconn⟩ := sectionConn_worker.mp hsec
        obtain ⟨i, hi, hxi⟩ := service_eq_some.mp hx
        have hi' := htask w i x hi hxi
        refine ⟨sectionConn_worker.mpr ⟨x, removeMe, ?_, hp, hconn⟩, ?_, hfree⟩
        · exact service_eq_some.mpr ⟨i, hi', hserver ▸ hxi⟩
        · obtain ⟨o, ho, hmutex⟩ := hown
          refine ⟨o, ?_, hserver ▸ hmutex⟩
          have ho : (s.task (.worker w)).map Server.Owner.worker = some o := ho
          show (s'.task (.worker w)).map Server.Owner.worker = some o
          rwa [hi', ← hi]

theorem lockConn (h : s.Services) (hrun : s.server.store.exited = false)
    (hsec : s.sectionConn t = some c) (hfree : s.server.store.connMutex c = none) :
    { s with connSection := Function.update s.connSection c (some t) }.Services where
  threaded := h.threaded
  run := h.run
  locked := by
    intro d u hd
    by_cases hdc : d = c
    · subst hdc
      have hu : u = t := by simpa [eq_comm] using hd
      subst hu
      exact ⟨hsec, h.holds_server hrun hsec, hfree⟩
    · have hd : s.connSection d = some u := by simpa [hdc] using hd
      exact h.locked d u hd

theorem connSection_unlockConn {u : Thread b}
    (h : (s.unlockConn t).connSection c = some u) : u ≠ t ∧ s.connSection c = some u := by
  change (if s.connSection c = some t then none else s.connSection c) = some u at h
  split_ifs at h with hc
  refine ⟨?_, h⟩
  rintro rfl
  exact hc h

/-- The master goes on. -/
theorem master {a : Server.Action b.server} {server : POServer b.server} (h : s.Services)
    (hmay : s.masterMay a = true) (hs : Server.step s.server a = some server) :
    { s.unlockConn .master with server := server, call := .before }.Services := by
  have hother : ∀ i d ok, a ≠ .work i d ok := by
    rintro i d ok rfl
    cases hmay
  have hmoves := h.threaded.moves b.threadPool hs
  refine ⟨h.threaded.step b.threadPool hs, fun i x hx hp ↦ ?_, fun c t hc ↦ ?_⟩
  · rcases (hmoves.worker_of_other hother).2 i x hx with hx | hq
    · exact h.run i x hx hp
    · exact absurd hq hp
  · obtain ⟨ht, hc⟩ := connSection_unlockConn hc
    obtain ⟨hsec, ⟨o, ho, hmutex⟩, hfree⟩ := h.locked c t hc
    cases t with
    | master => exact absurd rfl ht
    | worker w =>
        -- the worker has the server mutex, so the master was in `epoll_wait()`
        obtain ⟨i, -, rfl⟩ := Option.map_eq_some_iff.mp ho
        obtain ⟨hstore, hmutex'⟩ :=
          (h.threaded.core (Server.POServer.running_of_step hs)).undisturbed_of_worker hmutex hother
            (by rintro d ok rfl; cases hmay) (by rintro rfl; cases hmay) hs
        refine ⟨?_, ⟨_, ho, hmutex'.trans hmutex⟩, hstore ▸ hfree⟩
        obtain ⟨x, removeMe, hx, hp, hconn⟩ := sectionConn_worker.mp hsec
        obtain ⟨j, hj, hxj⟩ := service_eq_some.mp hx
        refine sectionConn_worker.mpr ⟨x, removeMe, ?_, hp, hconn⟩
        exact service_eq_some.mpr ⟨j, hj, hstore ▸ hxj⟩

/-- A worker goes on in `ServiceConnection()`. -/
theorem work {d : Server.ServiceAction} {ok : Bool} {server : POServer b.server} (h : s.Services)
    (hi : s.task (.worker w) = some i)
    (hmay : (s.service (.worker w)).all (s.serviceMay (.worker w)) = true)
    (hs : Server.step s.server (.work i d ok) = some server) :
    { s.unlockConn (.worker w) with server := server }.Services := by
  have hrun := Server.POServer.running_of_step hs
  have hcore := h.threaded.core hrun
  have hthreaded := h.threaded.step b.threadPool hs
  cases h.threaded.moves b.threadPool hs with
  | stays hsame htries hother hm => exact absurd rfl (hother i d ok)
  | works hm hx hworks =>
      rename_i x
      have hservice : s.service (.worker w) = some x := service_eq_some.mpr ⟨i, hi, hx⟩
      have hwork : s.server.work i x d ok = some server := by
        obtain ⟨-, x', hx', hs⟩ := Server.step_work_eq_some.mp hs
        cases hx.symm.trans hx'
        exact hs
      rw [hservice] at hmay
      have hmay : s.serviceMay (.worker w) x = true := hmay
      refine ⟨hthreaded, fun j y hy hp ↦ ?_, fun c t hc ↦ ?_⟩
      · by_cases hji : j = i
        · subst hji
          exact ⟨w, hi⟩
        · exact h.run j y ((hworks.worker_of_ne hji).symm.trans hy) hp
      · obtain ⟨ht, hc⟩ := connSection_unlockConn hc
        obtain ⟨hsec, ⟨o, ho, hmutex⟩, hfree⟩ := h.locked c t hc
        have hplace : ∀ removeMe, x.place ≠ .lockConn removeMe := by
          -- else this worker has the server mutex, and the lock is its own
          intro removeMe hp
          have hsection : s.sectionConn (.worker w) = some x.conn :=
            sectionConn_worker.mpr ⟨x, removeMe, hservice, hp, rfl⟩
          have hlocked : s.connSection x.conn = some (.worker w) := by
            simpa [serviceMay, hp, hasLocked, hsection] using hmay
          have howner := hcore.finishing i ⟨x, removeMe, hx, hp⟩
          rw [hmutex] at howner
          cases t with
          | master =>
              cases ho
              cases howner
          | worker v =>
              obtain ⟨j, hj, rfl⟩ := Option.map_eq_some_iff.mp ho
              cases howner
              obtain ⟨y, removeMe', hy, -, hconn⟩ := sectionConn_worker.mp hsec
              obtain ⟨k, hk, hyk⟩ := service_eq_some.mp hy
              cases hk.symm.trans hj
              cases hx.symm.trans hyk
              rw [hconn, hc] at hlocked
              cases hlocked
              exact ht rfl
        have hund := Server.POServer.undisturbed_work (by rw [hmutex]; exact Option.some_ne_none _)
          hplace hwork
        have hfree' : server.store.connMutex c = none := by
          refine hworks.connMutex_none hfree fun hq ↦ ?_
          rintro rfl
          simp [serviceMay, hq, hc] at hmay
        refine ⟨?_, ⟨o, ho, hund.serverMutex.trans hmutex⟩, hfree'⟩
        cases t with
        | master =>
            unfold sectionConn at hsec ⊢
            dsimp only [unlockConn] at hsec ⊢
            unfold Server.POServer.afterAccept Server.POServer.mayAccept at hsec ⊢
            rw [hund.master, hund.waiting, hund.lists]
            exact hsec
        | worker v =>
            obtain ⟨j, hj, rfl⟩ := Option.map_eq_some_iff.mp ho
            obtain ⟨y, removeMe, hy, hp, hconn⟩ := sectionConn_worker.mp hsec
            obtain ⟨k, hk, hyk⟩ := service_eq_some.mp hy
            cases hk.symm.trans hj
            have hji : j ≠ i := by
              rintro rfl
              cases hx.symm.trans hyk
              exact hplace removeMe hp
            refine sectionConn_worker.mpr ⟨y, removeMe, ?_, hp, hconn⟩
            exact service_eq_some.mpr ⟨j, hk, (hworks.worker_of_ne hji).trans hyk⟩

end Services

namespace Pooling

variable {pool : Pool b.pool} {now : Time}

/-! ## Pooling -/

/-- The master goes on only outside the functions of the pool. -/
theorem call_of_master {a : Server.Action b.server} {server : POServer b.server} (h : s.Pooling)
    (hmay : s.masterMay a = true) (hs : Server.step s.server a = some server) :
    s.call = .before ∨ s.call = .returned := by
  by_cases hbefore : s.call = .before
  · exact .inl hbefore
  · right
    have hcalls := h.calls hbefore
    unfold callsPool at hcalls
    cases a with
    | proceed now ok =>
        have hdone : s.poolDone = true := ((Bool.and_eq_true _ _).mp hmay).2
        unfold poolDone at hdone
        cases hm : s.server.master with
        | runTask e rest => simpa [hm] using hdone
        | gotEvents batch => simpa [hm, hbefore] using hdone
        | _ => simp [hm] at hcalls
    | doNextEvents now =>
        obtain ⟨-, hcond, -⟩ := Server.step_doNextEvents_eq_some.mp hs
        simp [hcond.1] at hcalls
    | epollWait batch =>
        obtain ⟨-, hcond, -⟩ := Server.step_epollWait_eq_some.mp hs
        simp [hcond.1] at hcalls
    | accept r =>
        obtain ⟨-, m, hm, -⟩ := Server.step_accept_eq_some.mp hs
        obtain ⟨t, hp, -⟩ | ⟨t, caller, hp, -⟩ | ⟨rest, hp, -⟩ := POServer.afterAccept_cases hm <;>
          simp [hp] at hcalls
    | _ => cases hmay

theorem ready_of_call (h : s.Pooling) (hcall : s.call = .before ∨ s.call = .returned) :
    s.pool.manager = .ready ∧ s.poolMutex ≠ some .master := by
  refine ⟨h.ready ?_ ?_, fun hmutex ↦ ?_⟩
  · rcases hcall with hcall | hcall <;> rw [hcall] <;> exact PoolCall.noConfusion
  · rcases hcall with hcall | hcall <;> rw [hcall] <;> exact PoolCall.noConfusion
  · rcases h.masterLocked.mp hmutex with hlocked | hlocked <;> rcases hcall with hcall | hcall <;>
      cases hcall.symm.trans hlocked

/-- The master goes on. -/
theorem of_before (h : s.Pooling) (hcall : s.call = .before ∨ s.call = .returned)
    (hpool : s'.pool = s.pool) (hmutex : s'.poolMutex = s.poolMutex) (hcall' : s'.call = .before) :
    s'.Pooling := by
  obtain ⟨hready, hnot⟩ := h.ready_of_call hcall
  exact
    { inv := hpool ▸ h.inv
      crowded := hpool ▸ h.crowded
      placing := hpool ▸ h.placing
      ready := fun _ _ ↦ hpool ▸ hready
      waits := fun hwaits ↦ nomatch hcall'.symm.trans hwaits
      signalled := fun hre ↦ nomatch hcall'.symm.trans hre
      calls := fun hne ↦ absurd hcall' hne
      masterLocked := by
        rw [hmutex, hcall']
        exact iff_of_false hnot fun hor ↦ by rcases hor with hor | hor <;> cases hor
      workerLocked := by
        intro w hw
        unfold entersPool
        rw [hpool]
        exact h.workerLocked w (hmutex ▸ hw) }

/-- A step that leaves the pool and the place of the master alone. -/
theorem of_server (h : s.Pooling) (hpool : s'.pool = s.pool) (hmutex : s'.poolMutex = s.poolMutex)
    (hcall : s'.call = s.call) (hm : s'.server.master = s.server.master) : s'.Pooling where
  inv := hpool ▸ h.inv
  crowded := hpool ▸ h.crowded
  placing := hpool ▸ h.placing
  ready := by
    rw [hpool, hcall]
    exact h.ready
  waits := by
    rw [hpool, hcall]
    exact h.waits
  signalled := by
    rw [hpool, hcall]
    exact h.signalled
  calls := by
    unfold callsPool
    rw [hcall, hm]
    exact h.calls
  masterLocked := by
    rw [hmutex, hcall]
    exact h.masterLocked
  workerLocked := by
    intro w hw
    unfold entersPool
    rw [hpool]
    exact h.workerLocked w (hmutex ▸ hw)

theorem lockPool (h : s.Pooling) (henters : s.entersPool t = true) (hfree : s.poolMutex = none) :
    (s.lockPool t).Pooling := by
  cases t with
  | worker w =>
      refine ⟨h.inv, h.crowded, h.placing, h.ready, h.waits, h.signalled, h.calls, ?_, ?_⟩
      · refine iff_of_false (fun heq ↦ by cases heq) fun hcall ↦ ?_
        cases hfree.symm.trans (h.masterLocked.mpr hcall)
      · rintro v ⟨⟩
        exact henters
  | master =>
      have hcall : s.call = .before ∧ s.callsPool = true ∨
          s.call = .waiting ∧ s.pool.manager.signalled = true := by
        simpa [entersPool] using henters
      rcases hcall with ⟨hcall, hcalls⟩ | ⟨hcall, hsignalled⟩
      · have hlocked : (s.lockPool .master).call = .locked := by
          show (if s.call = .waiting then _ else _) = _
          rw [if_neg (by rw [hcall]; exact PoolCall.noConfusion)]
        refine ⟨h.inv, h.crowded, h.placing, fun _ _ ↦ ?_, fun hw ↦ ?_, fun hr ↦ ?_, fun _ ↦ hcalls,
          iff_of_true rfl (.inl hlocked), fun _ hw ↦ by cases hw⟩
        · exact (h.ready_of_call (.inl hcall)).1
        · cases hlocked.symm.trans hw
        · cases hlocked.symm.trans hr
      · have hlocked : (s.lockPool .master).call = .relocked := if_pos hcall
        have hcalls : s.callsPool = true :=
          h.calls (by rw [hcall]; exact PoolCall.noConfusion)
        exact ⟨h.inv, h.crowded, h.placing, fun _ hne ↦ absurd hlocked hne,
          fun hw ↦ (by cases hlocked.symm.trans hw), fun _ ↦ hsignalled, fun _ ↦ hcalls,
          iff_of_true rfl (.inr hlocked), fun _ hw ↦ by cases hw⟩

theorem ofMaster_of_masterSection {a : ThreadPool.Action b.pool}
    (ha : s.masterSection now = some a) :
    a.OfMaster ∧ (s.call = .locked ∨ s.call = .relocked) := by
  unfold masterSection at ha
  cases hcall : s.call with
  | locked =>
      simp only [hcall] at ha
      cases hm : s.server.master <;> simp only [hm] at ha <;> cases ha <;>
        simp [ThreadPool.Action.OfMaster]
  | relocked =>
      simp only [hcall] at ha
      cases ha
      simp [ThreadPool.Action.OfMaster]
  | _ => simp [hcall] at ha

/-- The master runs its critical section. -/
theorem leavePool {a : ThreadPool.Action b.pool} (h : s.Pooling)
    (ha : s.masterSection now = some a) (hs : ThreadPool.step s.pool a = some pool) :
    (s.leavePool pool).Pooling := by
  obtain ⟨hof, hcall⟩ := ofMaster_of_masterSection ha
  obtain ⟨hplacing, hsignalled⟩ := h.inv.placing_of_section b.queueLength_pos h.placing hof hs
  have hcalls : s.callsPool = true := by
    refine h.calls ?_
    rcases hcall with hcall | hcall <;> rw [hcall] <;> exact PoolCall.noConfusion
  have hnext : pool.manager = .ready ∧ (s.leavePool pool).call = .returned ∨
      pool.manager ≠ .ready ∧ (s.leavePool pool).call = .waiting := by
    by_cases hm : pool.manager = .ready
    · exact .inl ⟨hm, if_pos hm⟩
    · exact .inr ⟨hm, if_neg hm⟩
  refine ⟨h.inv.step hof.signalled hs, h.crowded.step h.inv hof.signalled hs, hplacing, ?_, ?_, ?_,
    fun _ ↦ hcalls, ?_, fun _ hw ↦ nomatch hw⟩
  · rcases hnext with ⟨hm, -⟩ | ⟨-, hwait⟩
    · exact fun _ _ ↦ hm
    · exact fun hne _ ↦ absurd hwait hne
  · rcases hnext with ⟨-, hret⟩ | ⟨hm, -⟩
    · exact fun hwait ↦ nomatch hret.symm.trans hwait
    · exact fun _ ↦ hm
  · rcases hnext with ⟨-, hret⟩ | ⟨-, hwait⟩
    · exact fun hre ↦ nomatch hret.symm.trans hre
    · exact fun hre ↦ nomatch hwait.symm.trans hre
  · refine iff_of_false (fun heq ↦ nomatch heq) fun hor ↦ ?_
    rcases hnext with ⟨-, hret⟩ | ⟨-, hwait⟩
    · rcases hor with hor | hor <;> cases hret.symm.trans hor
    · rcases hor with hor | hor <;> cases hwait.symm.trans hor

/-- A worker makes a step of the pool, and unlocks the pool mutex if it had it. -/
theorem of_mover {a : ThreadPool.Action b.pool} (h : s.Pooling)
    (hmover : a.mover = some w) (ha : ThreadPool.Signalled s.pool a)
    (hs : ThreadPool.step s.pool a = some pool) (hpool : s'.pool = pool)
    (hserver : s'.server = s.server) (hcall : s'.call = s.call)
    (hmutex : s.poolMutex = some (.worker w) ∧ s'.poolMutex = none ∨
      s.poolMutex ≠ some (.worker w) ∧ s'.poolMutex = s.poolMutex) : s'.Pooling := by
  obtain ⟨hmanager, hother⟩ := h.inv.step_of_mover ha hmover hs
  have hready : pool.manager = .ready ↔ s.pool.manager = .ready := by
    rcases hmanager with hm | hm <;> rw [hm]
    cases s.pool.manager <;> simp [ThreadPool.Manager.signal]
  refine ⟨hpool ▸ h.inv.step ha hs, hpool ▸ h.crowded.step h.inv ha hs, ?_, ?_, ?_, ?_, ?_, ?_, ?_⟩
  · rw [hpool]
    rcases hmanager with hm | hm <;> rw [hm]
    · exact h.placing
    · rw [ThreadPool.Manager.placing_signal]
      exact h.placing
  · rw [hcall, hpool, hready]
    exact h.ready
  · rw [hcall, hpool, Ne, hready]
    exact h.waits
  · rw [hcall, hpool]
    intro hre
    have hsignalled := h.signalled hre
    rcases hmanager with hm | hm <;> rw [hm]
    · exact hsignalled
    · exact ThreadPool.Manager.signalled_signal hsignalled
  · unfold callsPool
    rw [hcall, hserver]
    exact h.calls
  · rcases hmutex with ⟨hmutex, hmutex'⟩ | ⟨-, hmutex'⟩
    · rw [hcall, hmutex', ← h.masterLocked, hmutex]
      exact iff_of_false (fun heq ↦ by cases heq) fun heq ↦ by cases heq
    · rw [hcall, hmutex']
      exact h.masterLocked
  · rcases hmutex with ⟨-, hmutex'⟩ | ⟨hne, hmutex'⟩
    · intro v hv
      cases hmutex'.symm.trans hv
    · intro v hv
      rw [hmutex'] at hv
      have hvw : v ≠ w := by
        rintro rfl
        exact hne hv
      unfold entersPool
      rw [hpool]
      dsimp only
      rw [hother v hvw]
      exact h.workerLocked v hv

end Pooling

/-! ## Steps and runs -/

theorem mover_sectionOf {now : Time} {p : ThreadPool.Place} {a : ThreadPool.Action b.pool}
    (ha : sectionOf w now p = some a) : a.mover = some w ∧ a.isSpurious = false := by
  cases p with
  | starting | returned | woken =>
      cases ha
      exact ⟨rfl, rfl⟩
  | _ => cases ha

/-- **Every step keeps the invariant.** -/
theorem Inv.step {a : Action b} (h : s.Inv) (hs : System.step s a = some s') : s'.Inv := by
  have hservices := h.toServices
  have hpooling := h.toPooling
  unfold System.step at hs
  split_ifs at hs with hexit
  have hrun : s.server.store.exited = false := Bool.not_eq_true _ ▸ hexit
  cases a with
  | master a =>
      obtain ⟨hmay, hs⟩ := Option.ite_none_right_eq_some.mp hs
      obtain ⟨server, hserver, rfl⟩ := Option.map_eq_some_iff.mp hs
      exact ⟨hservices.master hmay hserver,
        hpooling.of_before (hpooling.call_of_master hmay hserver) rfl rfl rfl⟩
  | stop =>
      obtain ⟨server, hserver, rfl⟩ := Option.map_eq_some_iff.mp hs
      have hthreaded := hservices.threaded.step b.threadPool hserver
      obtain ⟨-, rfl⟩ := Server.step_stop_eq_some.mp hserver
      exact ⟨⟨hthreaded, hservices.run, hservices.locked⟩, hpooling.of_server rfl rfl rfl rfl⟩
  | lockConn t c =>
      obtain ⟨⟨hsec, -, hfree⟩, hs⟩ := Option.ite_none_right_eq_some.mp hs
      cases hs
      exact ⟨hservices.lockConn hrun hsec hfree, hpooling.of_server rfl rfl rfl rfl⟩
  | lockPool t =>
      obtain ⟨⟨henters, hfree⟩, hs⟩ := Option.ite_none_right_eq_some.mp hs
      cases hs
      refine ⟨?_, hpooling.lockPool henters hfree⟩
      cases t <;> exact hservices.of_server rfl rfl fun _ _ _ hi _ ↦ hi
  | masterSection now =>
      obtain ⟨a, ha, hs⟩ := Option.bind_eq_some_iff.mp hs
      obtain ⟨pool, hpool, rfl⟩ := Option.map_eq_some_iff.mp hs
      refine ⟨hservices.of_server rfl rfl fun w i x hi hx ↦ ?_, hpooling.leavePool ha hpool⟩
      obtain ⟨t, hp, ht⟩ := task_eq_some.mp hi
      have hspares := ThreadPool.Pool.Spares.step hpooling.inv
        (Pooling.ofMaster_of_masterSection ha).1 hpool w
        (by rw [hp]; exact ThreadPool.Place.noConfusion)
        (by rw [hp]; exact ThreadPool.Place.noConfusion)
      exact task_eq_some.mpr ⟨t, (congrArg _ hspares).trans hp, ht⟩
  | workerSection w now =>
      obtain ⟨hmutex, hs⟩ := Option.ite_none_right_eq_some.mp hs
      obtain ⟨a, ha, hs⟩ := Option.bind_eq_some_iff.mp hs
      obtain ⟨pool, hpool, rfl⟩ := Option.map_eq_some_iff.mp hs
      obtain ⟨hmover, hsignalled⟩ := mover_sectionOf ha
      refine ⟨hservices.of_server rfl rfl fun v i x hi hx ↦ ?_,
        hpooling.of_mover hmover hsignalled hpool rfl rfl rfl (.inl ⟨hmutex, rfl⟩)⟩
      have hvw : v ≠ w := by
        rintro rfl
        have henters := hpooling.workerLocked v hmutex
        rw [entersPool_of_task hi] at henters
        cases henters
      obtain ⟨t, hp, ht⟩ := task_eq_some.mp hi
      have hother := (hpooling.inv.step_of_mover hsignalled hmover hpool).2 v hvw
      exact task_eq_some.mpr ⟨t, (congrArg _ hother).trans hp, ht⟩
  | work w d ok =>
      obtain ⟨i, hi, hs⟩ := Option.bind_eq_some_iff.mp hs
      obtain ⟨hmay, hs⟩ := Option.ite_none_right_eq_some.mp hs
      obtain ⟨server, hserver, rfl⟩ := Option.map_eq_some_iff.mp hs
      refine ⟨hservices.work hi hmay hserver, hpooling.of_server rfl rfl rfl ?_⟩
      cases hservices.threaded.moves b.threadPool hserver with
      | stays hsame htries hother hm => exact absurd rfl (hother i d ok)
      | works hm hx hworks => exact hm
  | callbackReturns w =>
      obtain ⟨hnone, hs⟩ := Option.ite_none_right_eq_some.mp hs
      obtain ⟨pool, hpool, rfl⟩ := Option.map_eq_some_iff.mp hs
      have hsignalled : ThreadPool.Signalled s.pool (.callbackReturns w) := rfl
      have hp : ∃ t, (s.pool.worker w).place = .running t := by
        cases hpooling.inv.step_cases hsignalled hpool with
        | callbackReturns hplace => exact ⟨_, hplace⟩
      obtain ⟨t, hp⟩ := hp
      have hmutex : s.poolMutex ≠ some (.worker w) := by
        intro hmutex
        have henters := hpooling.workerLocked w hmutex
        rw [entersPool_of_task (task_eq_some.mpr ⟨t, hp, rfl⟩)] at henters
        cases henters
      refine ⟨hservices.of_server rfl rfl fun v i x hi hx ↦ ?_,
        hpooling.of_mover rfl hsignalled hpool rfl rfl rfl (.inr ⟨hmutex, rfl⟩)⟩
      have hvw : v ≠ w := by
        rintro rfl
        cases hnone.symm.trans (service_eq_some.mpr ⟨i, hi, hx⟩)
      obtain ⟨t', hp', ht'⟩ := task_eq_some.mp hi
      have hother := (hpooling.inv.step_of_mover hsignalled rfl hpool).2 v hvw
      exact task_eq_some.mpr ⟨t', (congrArg _ hother).trans hp', ht'⟩

/-- **The invariant holds in every state of every run.** -/
theorem inv_of_reach {ok : State b → Action b → Prop} {listenerFd : ListenerId b.server → ℤ}
    (h : Reach System.step ok (start b listenerFd) s) : s.Inv :=
  h.invariant ⟨services_start listenerFd, pooling_start listenerFd⟩ fun hinv _ hs ↦ hinv.step hs

end State

end Tidbits.System
