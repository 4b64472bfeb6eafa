import Tidbits.System.Invariant

/-!
# A thread that waits for nobody can move

A mutex that is locked has a thread that holds it.  So a thread that waits for no
other one gets the mutex it requests, and its next step is enabled; the
exceptions are the workers without work and the master in a `condWait`.
-/

namespace Tidbits

namespace Server.POServer

variable {cfg : Config} {s : POServer cfg} {i : ℕ} {w : Worker cfg}

/-- A task goes on unless a mutex keeps it from doing so.  Callbacks return. -/
theorem exists_work (hrun : s.store.exited = false) (hw : s.store.worker i = some w)
    (hqueued : w.place = .queued → s.store.connMutex w.conn = none)
    (hserver : ∀ removeMe, w.place = .lockServer removeMe → s.serverMutex = none)
    (hconn : ∀ removeMe, w.place = .lockConn removeMe → s.store.connMutex w.conn = none) :
    ∃ a s', step s (.work i a true) = some s' := by
  have hserve : ∀ {phase : Phase} {a : ServiceAction} {r : ServiceStep},
      w.place = .serving phase → (∀ removeMe, phase ≠ .done removeMe) →
      (s.store.conn w.conn).serve phase a = some r →
      ∃ s', s.work i w a true = some s' := by
    intro phase a r hp hphase hr
    cases phase with
    | done removeMe => exact absurd rfl (hphase removeMe)
    | test d removeMe => simp [work, Store.serviceConnection, Store.serve, hp, hr]
    | inCallback d removeMe => simp [work, Store.serviceConnection, Store.serve, hp, hr]
    | check removeMe => simp [work, Store.serviceConnection, Store.serve, hp, hr]
  have hgo : ∀ {a : ServiceAction}, (∃ s', s.work i w a true = some s') →
      ∃ a s', step s (.work i a true) = some s' := by
    rintro a ⟨s', hs⟩
    exact ⟨a, s', step_work_eq_some.mpr ⟨hrun, w, hw, hs⟩⟩
  cases hp : w.place with
  | queued => exact hgo (a := .go) (by simp [work, Store.serviceConnection, hp, hqueued hp])
  | locked =>
      refine hgo (a := .go) ?_
      by_cases hcount : w.changeCount = (s.store.conn w.conn).changeCount <;>
        simp [work, Store.serviceConnection, hp, hcount]
  | serving phase =>
      cases phase with
      | test d removeMe =>
          by_cases hcalls : (s.store.conn w.conn).calls d = true
          · exact hgo (hserve hp (fun _ ↦ Phase.noConfusion)
              (a := .go) (r := ⟨_, some d, .inCallback d removeMe⟩) (if_pos hcalls))
          · exact hgo (hserve hp (fun _ ↦ Phase.noConfusion)
              (a := .go) (r := ⟨_, none, .after d removeMe⟩) (if_neg hcalls))
      | inCallback d removeMe =>
          exact hgo (hserve hp (fun _ ↦ Phase.noConfusion) (a := .returns 0) rfl)
      | check removeMe => exact hgo (hserve hp (fun _ ↦ Phase.noConfusion) (a := .go) rfl)
      | done removeMe => exact hgo (a := .go) (by simp [work, Store.serviceConnection, hp])
  | lockServer removeMe =>
      exact hgo (a := .go) (by simp [work, hp, hserver removeMe hp])
  | lockConn removeMe => exact hgo (a := .go) (by simp [work, hp, hconn removeMe hp])

end Server.POServer

namespace System

open Server (ConnId POServer ListenerId)
open ThreadPool (Pool WorkerId)

variable {b : Build}

namespace State

variable {s s' : State b} {t : Thread b} {w : WorkerId b.pool} {i : ℕ}
  {x : Server.Worker b.server} {c : ConnId b.server}

/-! ## A locked mutex has a holder -/

theorem Services.server_holder (h : s.Services) {o : Server.Owner}
    (ho : s.server.serverMutex = some o) : ∃ t, s.Holds t .server := by
  cases o with
  | master => exact ⟨.master, _, rfl, ho⟩
  | worker i =>
      obtain ⟨x, removeMe, hx, hp⟩ := h.threaded.owned i ho
      obtain ⟨w, hw⟩ := h.run i x hx (by rw [hp]; exact Server.Place.noConfusion)
      refine ⟨.worker w, .worker i, ?_, ho⟩
      show (s.task (.worker w)).map Server.Owner.worker = some (.worker i)
      rw [hw]
      rfl

theorem Services.conn_holder (h : s.Services) (hi : s.server.store.connMutex c = some i) :
    ∃ t, s.Holds t (.conn c) := by
  obtain ⟨x, hx, -, hlocks⟩ := h.threaded.held c i hi
  obtain ⟨w, hw⟩ := h.run i x hx (by rintro hp; rw [hp] at hlocks; exact hlocks)
  exact ⟨.worker w, .inr ⟨i, hw, hi⟩⟩

/-- A thread that waits for nobody gets the mutex that it requests. -/
theorem Services.free (h : s.Services) (hfree : ∀ t', ¬ s.WaitsFor t t') :
    (s.Requests t .server → s.server.serverMutex = none) ∧
      (∀ c, s.Requests t (.conn c) →
        s.connSection c = none ∧ s.server.store.connMutex c = none) ∧
      (s.Requests t .pool → s.poolMutex = none) := by
  refine ⟨fun hreq ↦ ?_, fun c hreq ↦ ⟨?_, ?_⟩, fun hreq ↦ ?_⟩
  · by_contra hne
    obtain ⟨o, ho⟩ := Option.ne_none_iff_exists'.mp hne
    obtain ⟨t', ht'⟩ := h.server_holder ho
    exact hfree t' ⟨_, hreq, ht'⟩
  · by_contra hne
    obtain ⟨t', ht'⟩ := Option.ne_none_iff_exists'.mp hne
    exact hfree t' ⟨_, hreq, .inl ht'⟩
  · by_contra hne
    obtain ⟨i, hi⟩ := Option.ne_none_iff_exists'.mp hne
    obtain ⟨t', ht'⟩ := h.conn_holder hi
    exact hfree t' ⟨_, hreq, ht'⟩
  · by_contra hne
    obtain ⟨t', ht'⟩ := Option.ne_none_iff_exists'.mp hne
    exact hfree t' ⟨_, hreq, ht'⟩

/-! ## The workers -/

theorem exists_section (h : s.pool.Inv) (henters : s.entersPool (.worker w) = true) :
    ∃ a pool, sectionOf w 0 (s.pool.worker w).place = some a ∧
      ThreadPool.step s.pool a = some pool := by
  cases hp : (s.pool.worker w).place with
  | starting =>
      obtain ⟨t, hm⟩ := h.starting w hp
      exact ⟨_, _, rfl, by simp [ThreadPool.step, hp, (h.waitStart w t hm).2]; rfl⟩
  | returned => exact ⟨_, _, rfl, if_pos hp⟩
  | woken => exact ⟨_, _, rfl, if_pos hp⟩
  | _ => simp [entersPool, hp] at henters

/-- A worker on its way into a critical section of the pool. -/
theorem Inv.canMove_of_entersPool (h : s.Inv) (hrun : s.server.store.exited = false)
    (hfree : ∀ t', ¬ s.WaitsFor (.worker w) t') (henters : s.entersPool (.worker w) = true) :
    s.CanMove (.worker w) := by
  refine ⟨hfree, ?_⟩
  by_cases hmutex : s.poolMutex = some (.worker w)
  · obtain ⟨a, pool, ha, hpool⟩ := exists_section h.inv henters
    refine ⟨.workerSection w 0, { s with pool := pool, poolMutex := none }, rfl, ?_⟩
    simp [System.step, hrun, hmutex, ha, hpool]
  · have hnone := (h.free hfree).2.2 ⟨henters, hmutex⟩
    exact ⟨.lockPool (.worker w), s.lockPool (.worker w), rfl, by
      simp [System.step, hrun, henters, hnone]⟩

/-- A worker in the user callback. -/
theorem Inv.canMove_of_running (h : s.Inv) (hrun : s.server.store.exited = false)
    (hfree : ∀ t', ¬ s.WaitsFor (.worker w) t') (hi : s.task (.worker w) = some i) :
    s.CanMove (.worker w) := by
  refine ⟨hfree, ?_⟩
  obtain ⟨hserver, hconn, -⟩ := h.free hfree
  cases hx : s.server.store.worker i with
  | none =>
      -- the callback returns
      have hservice : s.service (.worker w) = none := by
        show (s.task (.worker w)).bind s.server.store.worker = none
        rw [hi]
        exact hx
      obtain ⟨t, hp, -⟩ := task_eq_some.mp hi
      exact ⟨.callbackReturns w, _, rfl, by
        simp [System.step, hrun, hservice, ThreadPool.step, hp]; rfl⟩
  | some x =>
      have hservice : s.service (.worker w) = some x := service_eq_some.mpr ⟨i, hi, hx⟩
      have hsection : ∀ removeMe, x.place = .lockConn removeMe →
          s.sectionConn (.worker w) = some x.conn := fun removeMe hp ↦
        sectionConn_worker.mpr ⟨x, removeMe, hservice, hp, rfl⟩
      by_cases hlock : (∃ removeMe, x.place = .lockConn removeMe) ∧
          s.connSection x.conn ≠ some (.worker w)
      · obtain ⟨⟨removeMe, hp⟩, hne⟩ := hlock
        have hreq := hconn x.conn (.inl ⟨hsection removeMe hp, hne⟩)
        exact ⟨.lockConn (.worker w) x.conn, _, rfl, by
          simp [System.step, hrun, hsection removeMe hp, hreq]; rfl⟩
      · have hlocked : ∀ removeMe, x.place = .lockConn removeMe →
            s.connSection x.conn = some (.worker w) := fun removeMe hp ↦
          not_not.mp fun hne ↦ hlock ⟨⟨removeMe, hp⟩, hne⟩
        have hqueued : x.place = .queued →
            s.connSection x.conn = none ∧ s.server.store.connMutex x.conn = none := fun hp ↦
          hconn x.conn (.inr ⟨x, hservice, hp, rfl⟩)
        obtain ⟨a, server, hs⟩ := Server.POServer.exists_work hrun hx
          (fun hp ↦ (hqueued hp).2)
          (fun removeMe hp ↦ hserver (entersServer_worker.mpr ⟨x, removeMe, hservice, hp⟩))
          (fun removeMe hp ↦ (h.locked _ _ (hlocked removeMe hp)).2.2)
        have hmay : s.serviceMay (.worker w) x = true := by
          unfold serviceMay hasLocked
          cases hp : x.place with
          | queued => simp [hqueued hp]
          | lockConn removeMe => simp [hsection removeMe hp, hlocked removeMe hp]
          | _ => simp [sectionConn, hservice, hp]
        exact ⟨.work w a true, _, rfl, by
          simp [System.step, hrun, hi, hservice, hmay, hs]; rfl⟩

/-- **A worker that has work and waits for nobody can move.** -/
theorem Inv.canMove_worker (h : s.Inv) (hrun : s.server.store.exited = false)
    (hfree : ∀ t', ¬ s.WaitsFor (.worker w) t') (hthread : (s.pool.worker w).place ≠ .noThread)
    (hwait : (s.pool.worker w).place ≠ .waiting) : s.CanMove (.worker w) := by
  cases hp : (s.pool.worker w).place with
  | noThread => exact absurd hp hthread
  | waiting => exact absurd hp hwait
  | running t => exact h.canMove_of_running hrun hfree (task_eq_some.mpr ⟨t, hp, rfl⟩)
  | starting | returned | woken =>
      exact h.canMove_of_entersPool hrun hfree (by simp [entersPool, hp])

/-! ## The master -/

theorem exists_masterSection (h : s.Pooling) (hcall : s.call = .locked ∨ s.call = .relocked) :
    ∃ a pool, s.masterSection 0 = some a ∧ ThreadPool.step s.pool a = some pool := by
  unfold masterSection
  rcases hcall with hcall | hcall <;> simp only [hcall]
  · have hready : s.pool.manager = .ready :=
      h.ready (by rw [hcall]; exact PoolCall.noConfusion)
        (by rw [hcall]; exact PoolCall.noConfusion)
    split
    · exact ⟨_, _, rfl, if_pos hready⟩
    · exact ⟨_, _, rfl, if_pos hready⟩
  · have hsignalled := h.signalled hcall
    have hplacing := h.placing
    cases hm : s.pool.manager with
    | waitStart w t signalled =>
        rw [hm] at hsignalled
        cases hsignalled
        simp [ThreadPool.step, Pool.resume, hm]
    | waitRoom t signalled =>
        rw [hm] at hsignalled
        cases hsignalled
        simp [ThreadPool.step, Pool.resume, hm]
    | ready => simp [hm, ThreadPool.Manager.signalled] at hsignalled
    | _ => simp [hm, ThreadPool.Manager.placing] at hplacing

/-- The master in a function of the pool. -/
theorem Inv.canMove_of_call (h : s.Inv) (hrun : s.server.store.exited = false)
    (hfree : ∀ t', ¬ s.WaitsFor .master t') (hwait : ¬ s.InCondWait)
    (hcall : s.call ≠ .before ∧ s.call ≠ .returned ∨ s.call = .before ∧ s.callsPool = true) :
    s.CanMove .master := by
  refine ⟨hfree, ?_⟩
  by_cases hlocked : s.call = .locked ∨ s.call = .relocked
  · obtain ⟨a, pool, ha, hpool⟩ := exists_masterSection h.toPooling hlocked
    exact ⟨.masterSection 0, s.leavePool pool, rfl, by simp [System.step, hrun, ha, hpool]⟩
  · have henters : s.entersPool .master = true := by
      unfold entersPool
      rcases hcall with ⟨hbefore, hret⟩ | ⟨hbefore, hcalls⟩
      · have hwaiting : s.call = .waiting := by
          cases hc : s.call <;> simp_all
        have hsignalled : s.pool.manager.signalled = true := by
          by_contra hne
          exact hwait ⟨hwaiting, Bool.not_eq_true _ ▸ hne⟩
        simp [hwaiting, hsignalled]
      · simp [hbefore, hcalls]
    have hmutex : s.poolMutex ≠ some .master := fun hmutex ↦ hlocked (h.masterLocked.mp hmutex)
    have hnone := (h.free hfree).2.2 ⟨henters, hmutex⟩
    exact ⟨.lockPool .master, s.lockPool .master, rfl, by
      simp [System.step, hrun, henters, hnone]⟩

/-- The master in `poServer_doNextEvents()`. -/
theorem canMove_of_step {a : Server.Action b.server} (hfree : ∀ t', ¬ s.WaitsFor .master t')
    (hmay : s.masterMay a = true) (hs : ∃ server, Server.step s.server a = some server) :
    s.CanMove .master := by
  obtain ⟨server, hs⟩ := hs
  have hrun := Server.POServer.running_of_step hs
  exact ⟨hfree, .master a, _, rfl, by simp [System.step, hrun, hmay, hs]; rfl⟩

/-- At the call of `accept()`. -/
theorem canMove_of_accept {m : Server.Master b.server} (hrun : s.server.store.exited = false)
    (hfree : ∀ t', ¬ s.WaitsFor .master t') (haccept : s.server.afterAccept = some m) :
    s.CanMove .master := by
  by_cases hlocked : s.masterMay (.accept .again) = true
  · exact canMove_of_step hfree hlocked
      ⟨_, Server.step_accept_eq_some.mpr ⟨hrun, m, haccept, _, rfl, rfl⟩⟩
  · -- the master has a new socket, and the mutex of its connection
    exact canMove_of_step (a := .accept .failed) hfree rfl
      ⟨_, Server.step_accept_eq_some.mpr ⟨hrun, m, haccept, _, rfl, rfl⟩⟩

/-- **A master that waits for nobody, and is in no `condWait`, can move.** -/
theorem Inv.canMove_master (h : s.Inv) (hrun : s.server.store.exited = false)
    (hfree : ∀ t', ¬ s.WaitsFor .master t') (hwait : ¬ s.InCondWait) : s.CanMove .master := by
  have hproceed : s.masterMay (.proceed 0 true) = true →
      (∃ server, s.server.proceed 0 true = some server) → s.CanMove .master := by
    rintro hmay ⟨server, hs⟩
    exact canMove_of_step hfree hmay ⟨server, Server.step_proceed_eq_some.mpr ⟨hrun, hs⟩⟩
  obtain ⟨hserver, hconn, -⟩ := h.free hfree
  cases hm : s.server.master with
  | outside =>
      have hnone := hserver (by simp [Requests, entersServer, hm])
      exact canMove_of_step hfree (a := .doNextEvents 0) rfl
        ⟨_, Server.step_doNextEvents_eq_some.mpr ⟨hrun, ⟨hm, hnone⟩, rfl⟩⟩
  | epollWait =>
      have hreturn : s.server.CanReturn [] := by simp [POServer.CanReturn]
      exact canMove_of_step hfree (a := .epollWait []) rfl
        ⟨_, Server.step_epollWait_eq_some.mpr ⟨hrun, ⟨hm, hreturn⟩, rfl⟩⟩
  | acceptLoop t =>
      by_cases hmay : s.server.mayAccept = true
      · exact canMove_of_accept hrun hfree (by simp [POServer.afterAccept, hm, hmay]; rfl)
      · refine hproceed ?_ (by simp [POServer.proceed, hm, hmay])
        simp [masterMay, hasLocked, sectionConn, poolDone, hm, POServer.afterAccept, hmay]
  | waitAccept | listenerAccept =>
      exact canMove_of_accept hrun hfree (by simp [POServer.afterAccept, hm]; rfl)
  | setReady e rest =>
      by_cases hlocked : s.connSection e.conn = some .master
      · have hnone := (h.locked _ _ hlocked).2.2
        refine hproceed ?_ (by simp [POServer.proceed, hm, hnone])
        simp [masterMay, hasLocked, sectionConn, poolDone, hm, hlocked]
      · have hsec : s.sectionConn .master = some e.conn := by simp [sectionConn, hm]
        have hnone := hconn e.conn (.inl ⟨hsec, hlocked⟩)
        exact ⟨hfree, .lockConn .master e.conn, _, rfl, by
          simp [System.step, hrun, hsec, hnone]; rfl⟩
  | gotEvents batch =>
      by_cases hcall : s.call = .before ∨ s.call = .returned
      · have hdone : s.poolDone = true := by simp [poolDone, hm, hcall]
        have hnone := hserver (by simp [Requests, entersServer, hm, hdone])
        refine hproceed ?_ (by simp [POServer.proceed, hm, hnone])
        simp [masterMay, hasLocked, sectionConn, hm, POServer.afterAccept, hdone]
      · exact h.canMove_of_call hrun hfree hwait (.inl (not_or.mp hcall))
  | runTask e rest =>
      by_cases hcall : s.call = .returned
      · have hdone : s.poolDone = true := by simp [poolDone, hm, hcall]
        have hnone := hserver (by simp [Requests, entersServer, hm, hdone])
        refine hproceed ?_ (by simp [POServer.proceed, hm, hnone])
        simp [masterMay, hasLocked, sectionConn, hm, POServer.afterAccept, hdone]
      · refine h.canMove_of_call hrun hfree hwait ?_
        by_cases hbefore : s.call = .before
        · exact .inr ⟨hbefore, by simp [callsPool, hm]⟩
        · exact .inl ⟨hbefore, hcall⟩
  | serving e rest phase =>
      have htimely := (h.threaded.core hrun).timely
      rw [hm] at htimely
      exact absurd (b.threadPool.symm.trans htimely.1) Bool.noConfusion
  | events batch =>
      refine hproceed ?_ ?_
      · simp [masterMay, hasLocked, sectionConn, poolDone, hm, POServer.afterAccept]
      · cases batch with
        | nil => simp [POServer.proceed, hm]
        | cons ev rest => cases ev <;> simp [POServer.proceed, hm]
  | longSweep | waitSweep | unlocked | noCallback | eventEnd =>
      refine hproceed ?_ (by simp [POServer.proceed, hm])
      simp [masterMay, hasLocked, sectionConn, poolDone, hm, POServer.afterAccept]

end State

end System

end Tidbits
