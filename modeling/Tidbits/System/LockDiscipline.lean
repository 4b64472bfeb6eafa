import Tidbits.System.Progress
import Tidbits.Server.Lifecycle

/-!
# The lock discipline of the server with its thread pool

The threads lock the mutexes in the order of `Lock.rank`: the server mutex with
nothing locked, a connection mutex with at most the server mutex locked.  So they
do not wait for each other in a circle, and the master is never blocked without a
worker that can move.
-/

namespace Tidbits.System

open Tidbits.Server (ConnId POServer ListenerId)
open Tidbits.Transition

variable {b : Build}

namespace State

variable {s : State b} {t t' : Thread b} {w : ThreadPool.WorkerId b.pool} {i : ℕ}
  {x : Server.Worker b.server} {c d : ConnId b.server} {l : Lock b}

/-! ## What a thread holds -/

theorem mem_owner_worker {o : Server.Owner} (h : o ∈ s.owner (.worker w)) :
    ∃ i, s.task (.worker w) = some i ∧ o = .worker i := by
  obtain ⟨i, hi, rfl⟩ := Option.map_eq_some_iff.mp h
  exact ⟨i, hi, rfl⟩

theorem service_of_worker (hi : s.task t = some i) (hx : s.server.store.worker i = some x) :
    s.service t = some x := service_eq_some.mpr ⟨i, hi, hx⟩

/-- The service of a thread that holds the mutex of a connection. -/
theorem Inv.place_of_holds_conn (h : s.Inv) (hc : s.Holds (.worker w) (.conn c)) :
    ∃ x, s.service (.worker w) = some x ∧
      (x.place.Locks ∨
        s.connSection c = some (.worker w) ∧ ∃ removeMe, x.place = .lockConn removeMe) := by
  rcases hc with hc | ⟨i, hi, hc⟩
  · obtain ⟨x, removeMe, hx, hp, -⟩ := sectionConn_worker.mp (h.locked c _ hc).1
    exact ⟨x, hx, .inr ⟨hc, removeMe, hp⟩⟩
  · obtain ⟨x, hx, -, hlocks⟩ := h.threaded.held c i hc
    exact ⟨x, service_of_worker hi hx, .inl hlocks⟩

/-- The service of a thread that holds the server mutex. -/
theorem Inv.place_of_holds_server (h : s.Inv) (ho : s.Holds (.worker w) .server) :
    ∃ x removeMe, s.service (.worker w) = some x ∧ x.place = .lockConn removeMe := by
  obtain ⟨o, ho, hmutex⟩ := ho
  obtain ⟨i, hi, rfl⟩ := mem_owner_worker ho
  obtain ⟨x, removeMe, hx, hp⟩ := h.threaded.owned i hmutex
  exact ⟨x, removeMe, service_of_worker hi hx, hp⟩

/-- A worker with the pool mutex is in no service. -/
theorem Inv.service_of_holds_pool (h : s.Inv) (hmutex : s.Holds (.worker w) .pool) :
    s.service (.worker w) = none := by
  cases hx : s.service (.worker w) with
  | none => rfl
  | some x =>
      obtain ⟨i, hi⟩ := task_of_service hx
      have henters := h.workerLocked w hmutex
      rw [entersPool_of_task hi] at henters
      cases henters

/-- The master holds a mutex of the server only where it has the server mutex. -/
theorem Inv.master_holds (h : s.Inv) (hrun : s.server.store.exited = false)
    (hheld : s.Holds .master l) :
    l ≠ .pool ∧ s.server.master.Holds ∨
      l = .pool ∧ s.callsPool = true ∧ (s.call = .locked ∨ s.call = .relocked) := by
  cases l with
  | server =>
      obtain ⟨o, ho, hmutex⟩ := hheld
      cases ho
      exact .inl ⟨fun heq ↦ (nomatch heq), (h.threaded.core hrun).mutex.mp hmutex⟩
  | conn c =>
      rcases hheld with hc | ⟨i, hi, -⟩
      · exact .inl ⟨fun heq ↦ (nomatch heq), holds_of_sectionConn (h.locked c _ hc).1⟩
      · cases hi
  | pool =>
      have hcall := h.masterLocked.mp hheld
      refine .inr ⟨rfl, h.calls ?_, hcall⟩
      rcases hcall with hcall | hcall <;> rw [hcall] <;> exact PoolCall.noConfusion

theorem not_holds_of_callsPool (h : s.callsPool = true) : ¬ s.server.master.Holds := by
  unfold callsPool at h
  cases hm : s.server.master <;> simp_all [Server.Master.Holds]

/-! ## The order -/

/-- **A thread that requests the server mutex holds no mutex.** -/
theorem Inv.holds_none_of_server (h : s.Inv) (hrun : s.server.store.exited = false)
    (hreq : s.Requests t .server) (l : Lock b) : ¬ s.Holds t l := by
  intro hheld
  cases t with
  | master =>
      have hreq : s.entersServer .master = true := hreq
      unfold entersServer at hreq
      rcases h.master_holds hrun hheld with ⟨-, hholds⟩ | ⟨-, hcalls, hcall⟩
      · cases hm : s.server.master <;> simp_all [Server.Master.Holds]
      · unfold callsPool at hcalls
        cases hm : s.server.master with
        | runTask | gotEvents => rcases hcall with hcall | hcall <;> simp_all [poolDone]
        | _ => simp [hm] at hcalls
  | worker w =>
      obtain ⟨x, removeMe, hx, hp⟩ := entersServer_worker.mp hreq
      cases l with
      | server =>
          obtain ⟨y, removeMe', hy, hp'⟩ := h.place_of_holds_server hheld
          cases hx.symm.trans hy
          cases hp.symm.trans hp'
      | conn c =>
          obtain ⟨y, hy, hlocks | ⟨-, removeMe', hp'⟩⟩ := h.place_of_holds_conn hheld
          · cases hx.symm.trans hy
            rw [hp] at hlocks
            exact hlocks
          · cases hx.symm.trans hy
            cases hp.symm.trans hp'
      | pool => cases hx.symm.trans (h.service_of_holds_pool hheld)

/-- **A thread that requests a connection mutex holds at most the server mutex.** -/
theorem Inv.holds_server_of_conn (h : s.Inv) (hrun : s.server.store.exited = false)
    (hreq : s.Requests t (.conn c)) (hheld : s.Holds t l) : l = .server := by
  cases t with
  | master =>
      rcases hreq with ⟨hsec, hne⟩ | ⟨x, hx, -⟩
      · rcases h.master_holds hrun hheld with ⟨hpool, -⟩ | ⟨-, hcalls, -⟩
        · cases l with
          | server => rfl
          | pool => exact absurd rfl hpool
          | conn d =>
              rcases hheld with hd | ⟨i, hi, -⟩
              · cases hsec.symm.trans (h.locked d _ hd).1
                exact absurd hd hne
              · cases hi
        · exact absurd (holds_of_sectionConn hsec) (not_holds_of_callsPool hcalls)
      · cases hx
  | worker w =>
      have hplace : ∃ x, s.service (.worker w) = some x ∧ ¬ x.place.Locks ∧
          ((∃ removeMe, x.place = .lockConn removeMe) →
            s.sectionConn (.worker w) = some c ∧ s.connSection c ≠ some (.worker w)) := by
        rcases hreq with ⟨hsec, hne⟩ | ⟨x, hx, hp, -⟩
        · obtain ⟨x, removeMe, hx, hp, -⟩ := sectionConn_worker.mp hsec
          exact ⟨x, hx, by rw [hp]; exact id, fun _ ↦ ⟨hsec, hne⟩⟩
        · refine ⟨x, hx, by rw [hp]; exact id, ?_⟩
          rintro ⟨removeMe, hp'⟩
          cases hp.symm.trans hp'
      obtain ⟨x, hx, hlocks, hlocked⟩ := hplace
      cases l with
      | server => rfl
      | conn d =>
          obtain ⟨y, hy, hlocks' | ⟨hd, hp⟩⟩ := h.place_of_holds_conn hheld
          · cases hx.symm.trans hy
            exact absurd hlocks' hlocks
          · cases hx.symm.trans hy
            obtain ⟨hsec, hne⟩ := hlocked hp
            cases hsec.symm.trans (h.locked d _ hd).1
            exact absurd hd hne
      | pool => cases hx.symm.trans (h.service_of_holds_pool hheld)

theorem Inv.lockOrder (h : s.Inv) (hrun : s.server.store.exited = false) :
    LockOrder s.Holds s.Requests Lock.rank := by
  intro t l l' hreq hheld
  cases l with
  | server => exact absurd hheld (h.holds_none_of_server hrun hreq l')
  | conn c =>
      rw [h.holds_server_of_conn hrun hreq hheld]
      exact Nat.zero_lt_one
  | pool =>
      cases l' with
      | server => exact Nat.zero_lt_two
      | conn c => exact Nat.one_lt_two
      | pool => exact absurd hheld hreq.2

/-! ## No deadlock -/

/-- A thread that holds a mutex and waits for nobody can move. -/
theorem Inv.canMove_of_holds (h : s.Inv) (hrun : s.server.store.exited = false)
    (hfree : ∀ t', ¬ s.WaitsFor t t') (hheld : s.Holds t l) : s.CanMove t := by
  cases t with
  | master =>
      refine h.canMove_master hrun hfree fun hwait ↦ ?_
      rcases h.master_holds hrun hheld with ⟨-, hholds⟩ | ⟨-, -, hcall⟩
      · have hcalls : s.callsPool = true :=
          h.calls (by rw [hwait.1]; exact PoolCall.noConfusion)
        exact not_holds_of_callsPool hcalls hholds
      · rcases hcall with hcall | hcall <;> cases hwait.1.symm.trans hcall
  | worker w =>
      have hrunning : ∀ x, s.service (.worker w) = some x → s.CanMove (.worker w) := by
        intro x hx
        obtain ⟨i, hi⟩ := task_of_service hx
        exact h.canMove_of_running hrun hfree hi
      cases l with
      | server =>
          obtain ⟨x, -, hx, -⟩ := h.place_of_holds_server hheld
          exact hrunning x hx
      | conn c =>
          obtain ⟨x, hx, -⟩ := h.place_of_holds_conn hheld
          exact hrunning x hx
      | pool => exact h.canMove_of_entersPool hrun hfree (h.workerLocked w hheld)

/-- Whoever waits for a thread waits in the end for another one that can move. -/
theorem Inv.exists_canMove (h : s.Inv) (hrun : s.server.store.exited = false)
    (hwaits : s.WaitsFor t t') :
    ∃ u, u ≠ t ∧ Relation.TransGen s.WaitsFor t u ∧ s.CanMove u := by
  obtain ⟨u, hne, hpath, hfree, l, hheld⟩ := (h.lockOrder hrun).exists_other Lock.rank_lt hwaits
  exact ⟨u, hne, hpath, h.canMove_of_holds hrun hfree hheld⟩

/-- A master that is blocked leaves a worker that can move. -/
theorem Inv.exists_worker (h : s.Inv) (hrun : s.server.store.exited = false)
    (hblocked : (∃ t, s.WaitsFor .master t) ∨ s.InCondWait) : ∃ w, s.CanMove (.worker w) := by
  rcases hblocked with ⟨t, hwaits⟩ | hwait
  · obtain ⟨u, hne, -, hmove⟩ := h.exists_canMove hrun hwaits
    cases u with
    | master => exact absurd rfl hne
    | worker w => exact ⟨w, hmove⟩
  · -- the manager waits for a start or for room, so some worker has work
    have hmanager := ThreadPool.Manager.waits_of_placing h.placing (h.waits hwait.1) hwait.2
    obtain ⟨w, hthread, hidle⟩ := h.inv.exists_busy h.crowded b.maxNumThreads_pos hmanager
    by_cases hfree : ∀ t', ¬ s.WaitsFor (.worker w) t'
    · exact ⟨w, h.canMove_worker hrun hfree hthread hidle⟩
    · obtain ⟨t', hwaits⟩ := not_forall_not.mp hfree
      obtain ⟨u, -, hpath, hmove⟩ := h.exists_canMove hrun hwaits
      cases u with
      | worker v => exact ⟨v, hmove⟩
      | master =>
          -- nobody waits for the master, as it holds nothing in a `condWait`
          obtain ⟨v, -, l, -, hheld⟩ := Relation.TransGen.tail'_iff.mp hpath
          rcases h.master_holds hrun hheld with ⟨-, hholds⟩ | ⟨-, -, hcall⟩
          · have hcalls : s.callsPool = true :=
              h.calls (by rw [hwait.1]; exact PoolCall.noConfusion)
            exact absurd hholds (not_holds_of_callsPool hcalls)
          · rcases hcall with hcall | hcall <;> cases hwait.1.symm.trans hcall

/-- **The lock discipline.** -/
structure Disciplined (s : State b) : Prop where
  /-- No thread requests the server mutex while it holds a connection mutex or the pool mutex. -/
  server : ∀ t, s.Requests t .server → (∀ c, ¬ s.Holds t (.conn c)) ∧ ¬ s.Holds t .pool
  /-- No thread requests a connection mutex while it holds the pool mutex. -/
  conn : ∀ t c, s.Requests t (.conn c) → ¬ s.Holds t .pool
  /-- When the master is blocked on a mutex or in a `condWait`, a worker can move. -/
  blocked : (∃ t, s.WaitsFor .master t) ∨ s.InCondWait → ∃ w, s.CanMove (.worker w)
  /-- Whoever waits for a thread waits in the end for one that can move. -/
  waits : ∀ t t', s.WaitsFor t t' → ∃ u, Relation.TransGen s.WaitsFor t u ∧ s.CanMove u
  /-- The state is no deadlock. -/
  moves : s.CanMove .master ∨ ∃ w, s.CanMove (.worker w)

/-- **The discipline holds as long as the process runs**, whatever the order in which the threads
move. -/
theorem disciplined_of_reach {listenerFd : ListenerId b.server → ℤ}
    (h : Reach step Any (start b listenerFd) s) (hrun : s.server.store.exited = false) :
    s.Disciplined := by
  have hinv := inv_of_reach h
  refine ⟨fun t hreq ↦ ⟨fun c ↦ ?_, ?_⟩, fun t c hreq hheld ↦ ?_, hinv.exists_worker hrun,
    fun t t' hwaits ↦ ?_, ?_⟩
  · exact hinv.holds_none_of_server hrun hreq (.conn c)
  · exact hinv.holds_none_of_server hrun hreq .pool
  · cases hinv.holds_server_of_conn hrun hreq hheld
  · obtain ⟨u, -, hpath, hmove⟩ := hinv.exists_canMove hrun hwaits
    exact ⟨u, hpath, hmove⟩
  · by_cases hblocked : (∃ t, s.WaitsFor .master t) ∨ s.InCondWait
    · exact .inr (hinv.exists_worker hrun hblocked)
    · rw [not_or, not_exists] at hblocked
      exact .inl (hinv.canMove_master hrun hblocked.1 hblocked.2)

/-- One connection, one worker, and room for one task. -/
abbrev oneWorker : Build where
  server := Server.POServer.oneConnection true
  pool := ⟨1, 1, -1, Server.Config.off_ge⟩
  threadPool := rfl
  maxNumThreads_pos := Nat.one_pos
  queueLength_pos := Nat.one_pos

/-- The first event of the connection is handed to a new thread, and the master waits for it to
start. -/
theorem disciplined_of_condWait :
    ∃ s, Reach step Any (start oneWorker fun _ ↦ 3) s ∧ s.InCondWait ∧ s.Disciplined := by
  obtain ⟨s, hreach, hwait, hrun⟩ :
      ∃ s, Reach step Any (start oneWorker fun _ ↦ 3) s ∧ s.InCondWait ∧
        s.server.store.exited = false :=
    exists_reach_of_exec_decide
      [.master (.doNextEvents 0), .master (.proceed 0 true), .master (.proceed 0 true),
        .master (.epollWait [.listener 0]), .master (.proceed 0 true), .master (.proceed 0 true), .lockConn .master 0,
        .master (.accept (.accepted 10 0)), .master (.proceed 0 true), .master (.doNextEvents 0),
        .master (.proceed 0 true), .master (.proceed 0 true), .master (.proceed 0 true),
        .master (.epollWait [.conn ⟨0, true, false, false, false, 0⟩]), .master (.proceed 0 true),
        .master (.proceed 0 true), .lockConn .master 0, .master (.proceed 0 true),
        .lockPool .master, .masterSection 0]
      (by decide)
  exact ⟨s, hreach, hwait, disciplined_of_reach hreach hrun⟩

end State

end Tidbits.System
