import Tidbits.Server.Moves

/-!
# Who holds a connection mutex

Only tasks lock the mutex of a connection for longer than a step.  So the holder
of a connection mutex is a task for that connection, between the locking and the
unlocking in `ServiceConnection()`.
-/

namespace Tidbits.Server

open Tidbits.Transition

variable {cfg : Config} {P : ℕ → ℕ → Prop}

namespace Store

variable {s s' : Store cfg} {c : ConnId cfg} {source : Option ℕ} {conn : Connection}
  {i j : ℕ} {w : Worker cfg} {b : ServiceAction}

/-- The holder of a connection mutex is a task for the connection. -/
def Held (s : Store cfg) : Prop :=
  ∀ c i, s.connMutex c = some i → ∃ w, s.worker i = some w ∧ w.conn = c ∧ w.place.Locks

/-- Some task for the connection passes the test. -/
def HasTask (s : Store cfg) (c : ConnId cfg) (test : Worker cfg → Bool) : Prop :=
  ∃ i < s.workers, (s.worker i).any fun w ↦ decide (w.conn = c) && test w

instance (s : Store cfg) (c : ConnId cfg) (test : Worker cfg → Bool) :
    Decidable (s.HasTask c test) := inferInstanceAs (Decidable (∃ i < s.workers, _ = true))

theorem Tasks.hasTask_iff (h : s.Tasks P) {test : Worker cfg → Bool} :
    s.HasTask c test ↔ ∃ i w, s.worker i = some w ∧ w.conn = c ∧ test w = true := by
  constructor
  · rintro ⟨i, -, hi⟩
    obtain ⟨w, hw, htest⟩ := (Option.any_eq_true _ _).mp hi
    simp only [Bool.and_eq_true, decide_eq_true_eq] at htest
    exact ⟨i, w, hw, htest⟩
  · rintro ⟨i, w, hw, hc, htest⟩
    exact ⟨i, (h i w hw).fresh, by simp [hw, hc, htest]⟩

theorem held_create (cfg : Config) : (create cfg).Held := fun _ _ h ↦ nomatch h

namespace Sets

theorem conn_self (h : s.Sets c conn s') : s'.conn c = conn := by
  rw [h.conn, Function.update_self]

theorem conn_of_ne (h : s.Sets c conn s') {x : ConnId cfg} (hx : x ≠ c) : s'.conn x = s.conn x := by
  rw [h.conn, Function.update_of_ne hx]

end Sets

namespace Tries

theorem worker (h : s.Tries c source s') : s'.worker = s.worker := by
  cases h with
  | removes hfree hsets => exact hsets.worker
  | exits hfree hsame hexit => exact hsame.worker
  | marks hheld hsets => exact hsets.worker

theorem connMutex (h : s.Tries c source s') : s'.connMutex = s.connMutex := by
  cases h with
  | removes hfree hsets => exact hsets.connMutex
  | exits hfree hsame hexit => exact hsame.connMutex
  | marks hheld hsets => exact hsets.connMutex

theorem conn_of_ne (h : s.Tries c source s') {x : ConnId cfg} (hx : x ≠ c) :
    s'.conn x = s.conn x := by
  cases h with
  | removes hfree hsets => exact hsets.conn_of_ne hx
  | exits hfree hsame hexit => rw [hsame.conn]
  | marks hheld hsets => exact hsets.conn_of_ne hx

/-- What it does not remove, it leaves as it is but for the mark. -/
theorem conn_of_open (h : s.Tries c source s') {x : ConnId cfg} (hopen : 0 ≤ (s'.conn x).fd) :
    (s'.conn x).callback = (s.conn x).callback ∧ (s'.conn x).ready = (s.conn x).ready ∧
      ((s.conn x).markedForRemoval = true → (s'.conn x).markedForRemoval = true) := by
  by_cases hx : x = c
  · subst hx
    cases h with
    | removes hfree hsets =>
        rw [hsets.conn_self] at hopen
        exact absurd hopen (Connection.closed_reset true).not_open
    | exits hfree hsame hexit =>
        rw [hsame.conn]
        exact ⟨rfl, rfl, id⟩
    | marks hheld hsets =>
        rw [hsets.conn_self]
        exact ⟨rfl, rfl, fun _ ↦ rfl⟩
  · rw [h.conn_of_ne hx]
    exact ⟨rfl, rfl, id⟩

end Tries

namespace Works

/-- The step of a task leaves the other tasks alone. -/
theorem worker_of_ne (h : s.Works i w b s') (hji : j ≠ i) : s'.worker j = s.worker j := by
  cases h with
  | serves hp hr hconn hworker hmutex => rw [hworker, Function.update_of_ne hji]
  | removes hp hfree hcause hsets =>
      rw [hsets.worker]
      exact Function.update_of_ne hji _ _
  | exits hp hfree hcause hsame hexit => rw [hsame.worker]
  | _ => exact Function.update_of_ne hji _ _

/-- It leaves the other connections alone. -/
theorem conn_of_ne (h : s.Works i w b s') (hc : c ≠ w.conn) : s'.conn c = s.conn c := by
  cases h with
  | serves hp hr hconn hworker hmutex => rw [hconn, Function.update_of_ne hc]
  | removes hp hfree hcause hsets => exact hsets.conn_of_ne hc
  | exits hp hfree hcause hsame hexit => rw [hsame.conn]
  | _ => rfl

/-- It leaves their mutexes alone. -/
theorem connMutex_of_ne (h : s.Works i w b s') (hc : c ≠ w.conn) :
    s'.connMutex c = s.connMutex c := by
  cases h with
  | serves hp hr hconn hworker hmutex => rw [hmutex]
  | removes hp hfree hcause hsets =>
      rw [hsets.connMutex]
      rfl
  | exits hp hfree hcause hsame hexit => rw [hsame.connMutex]
  | locks hp hfree => exact Function.update_of_ne hc _ _
  | leaves hp hcount => exact Function.update_of_ne hc _ _
  | unlocks hp => exact Function.update_of_ne hc _ _
  | _ => rfl

/-- The task stays with its connection, or ends. -/
theorem worker_self (h : s.Works i w b s') (hw : s.worker i = some w) :
    s'.worker i = none ∨ ∃ place, s'.worker i = some { w with place := place } := by
  cases h with
  | serves hp hr hconn hworker hmutex =>
      rw [hworker, Function.update_self]
      exact .inr ⟨_, rfl⟩
  | removes hp hfree hcause hsets =>
      rw [hsets.worker]
      exact .inl (Function.update_self i _ _)
  | exits hp hfree hcause hsame hexit =>
      rw [hsame.worker]
      exact .inr ⟨w.place, hw⟩
  | leaves hp hcount => exact .inl (Function.update_self i _ _)
  | finishes hp hfree hkeep => exact .inl (Function.update_self i _ _)
  | _ => exact .inr ⟨_, Function.update_self i _ _⟩

/-- It keeps the use of the connections, or removes its own. -/
theorem sameUse_or_closed (h : s.Works i w b s') (c : ConnId cfg) :
    (s.conn c).SameUse (s'.conn c) ∨ (s'.conn c).Closed := by
  by_cases hc : c = w.conn
  · subst hc
    cases h with
    | serves hp hr hconn hworker hmutex =>
        rw [hconn, Function.update_self]
        exact .inl (Connection.served_serve hr).toSameUse
    | removes hp hfree hcause hsets =>
        rw [hsets.conn_self]
        exact .inr (Connection.closed_reset true)
    | exits hp hfree hcause hsame hexit =>
        rw [hsame.conn]
        exact .inl (.refl _)
    | _ => exact .inl (.refl _)
  · rw [h.conn_of_ne hc]
    exact .inl (.refl _)

/-- A mark stays until the connection is removed. -/
theorem marked_of_open (h : s.Works i w b s') (hmark : (s.conn c).markedForRemoval = true)
    (hopen : 0 ≤ (s'.conn c).fd) : (s'.conn c).markedForRemoval = true := by
  by_cases hc : c = w.conn
  · subst hc
    cases h with
    | serves hp hr hconn hworker hmutex =>
        rw [hconn, Function.update_self, (Connection.served_serve hr).markedForRemoval]
        exact hmark
    | removes hp hfree hcause hsets =>
        rw [hsets.conn_self] at hopen
        exact absurd hopen (Connection.closed_reset true).not_open
    | exits hp hfree hcause hsame hexit =>
        rw [hsame.conn]
        exact hmark
    | _ => exact hmark
  · rw [h.conn_of_ne hc]
    exact hmark

/-- The removal test finds a mark. -/
theorem closed_of_marked {removeMe : Bool} (h : s.Works i w b s')
    (hp : w.place = .lockConn removeMe) (hmark : (s.conn w.conn).markedForRemoval = true)
    (hrun : s'.exited = false) : (s'.conn w.conn).fd = -1 := by
  cases h with
  | finishes hp' hfree hkeep => exact absurd (hkeep.2.symm.trans hmark) Bool.false_ne_true
  | removes hp' hfree hcause hsets =>
      rw [hsets.conn_self]
      rfl
  | exits hp' hfree hcause hsame hexit => exact absurd (hrun.symm.trans hexit) Bool.false_ne_true
  | locks hp' | leaves hp' | begins hp' | serves hp' | unlocks hp' | locksServer hp' =>
      cases hp.symm.trans hp'

/-- A task removes its connection only at its removal test. -/
theorem removal_cause (h : s.Works i w b s') (hopen : 0 ≤ (s.conn w.conn).fd)
    (hclosed : ¬ 0 ≤ (s'.conn w.conn).fd) :
    ∃ removeMe, w.place = .lockConn removeMe ∧ s.connMutex w.conn = none ∧
      ((s.conn w.conn).changeCount = w.changeCount ∧ removeMe = true ∨
        (s.conn w.conn).markedForRemoval = true) := by
  cases h with
  | removes hp hfree hcause hsets => exact ⟨_, hp, hfree, hcause⟩
  | serves hp hr hconn hworker hmutex =>
      rw [hconn, Function.update_self, (Connection.served_serve hr).fd] at hclosed
      exact absurd hopen hclosed
  | exits hp hfree hcause hsame hexit =>
      rw [hsame.conn] at hclosed
      exact absurd hopen hclosed
  | _ => exact absurd hopen hclosed

/-- The task locks no mutex but that of its connection. -/
theorem connMutex_none (h : s.Works i w b s') (hfree : s.connMutex c = none)
    (hqueued : w.place = .queued → w.conn ≠ c) : s'.connMutex c = none := by
  by_cases hc : c = w.conn
  · subst hc
    cases h with
    | locks hp hfree' => exact absurd rfl (hqueued hp)
    | leaves hp hcount => exact Function.update_self _ _ _
    | unlocks hp => exact Function.update_self _ _ _
    | serves hp hr hconn hworker hmutex => rw [hmutex, hfree]
    | removes hp hfree' hcause hsets => exact (congrFun hsets.connMutex _).trans hfree
    | exits hp hfree' hcause hsame hexit => rw [hsame.connMutex, hfree]
    | _ => exact hfree
  · rw [h.connMutex_of_ne hc, hfree]

/-- The mutex of its connection is with the task as long as its place says so. -/
theorem held (h : s.Works i w b s') (hw : s.worker i = some w) (hheld : s.Held) : s'.Held := by
  intro c j hj
  by_cases hc : c = w.conn
  · subst hc
    -- whoever holds this mutex in `s` is in its section there
    have hown : ∀ {k}, s.connMutex w.conn = some k → k = i → w.place.Locks := by
      rintro k hk rfl
      obtain ⟨w', hw', -, hlocks⟩ := hheld _ _ hk
      rw [hw] at hw'
      cases hw'
      exact hlocks
    have hother : s'.connMutex w.conn = s.connMutex w.conn → j ≠ i →
        ∃ w', s'.worker j = some w' ∧ w'.conn = w.conn ∧ w'.place.Locks := by
      intro hmutex hji
      rw [hmutex] at hj
      rw [h.worker_of_ne hji]
      exact hheld _ _ hj
    cases h with
    | locks hp hfree =>
        have hji : j = i := by simpa [setWorker, setMutex, eq_comm] using hj
        subst hji
        exact ⟨_, Function.update_self j _ _, rfl, trivial⟩
    | leaves hp hcount => simp [setWorker, setMutex] at hj
    | unlocks hp => simp [setWorker, setMutex] at hj
    | begins hp hcount =>
        by_cases hji : j = i
        · subst hji
          exact ⟨_, Function.update_self j _ _, rfl, trivial⟩
        · exact hother rfl hji
    | serves hp hr hconn hworker hmutex =>
        by_cases hji : j = i
        · subst hji
          exact ⟨_, (congrFun hworker j).trans (Function.update_self j _ _), rfl, trivial⟩
        · exact hother (by rw [hmutex]) hji
    | locksServer hp =>
        refine hother rfl fun hji ↦ ?_
        have hlocks := hown hj hji
        rw [hp] at hlocks
        exact hlocks
    | finishes hp hfree hkeep => exact absurd (hfree.symm.trans hj) (Option.some_ne_none _).symm
    | removes hp hfree hcause hsets =>
        rw [hsets.connMutex] at hj
        exact absurd (hfree.symm.trans hj) (Option.some_ne_none _).symm
    | exits hp hfree hcause hsame hexit =>
        rw [hsame.connMutex] at hj
        exact absurd (hfree.symm.trans hj) (Option.some_ne_none _).symm
  · rw [h.connMutex_of_ne hc] at hj
    obtain ⟨w', hw', hconn, hlocks⟩ := hheld _ _ hj
    have hji : j ≠ i := by
      rintro rfl
      rw [hw] at hw'
      cases hw'
      exact hc hconn.symm
    exact ⟨w', (h.worker_of_ne hji).trans hw', hconn, hlocks⟩

end Works

/-! ## The readiness of an event -/

section Readied

variable {e : ConnEvent cfg} (hconn : s'.conn =
  Function.update s.conn e.conn ((s.conn e.conn).readied e))

include hconn

/-- A callback that is to be called still is. -/
theorem calls_of_readied {d : Direction} (h : (s.conn c).calls d = true) :
    (s'.conn c).calls d = true := by
  rw [hconn]
  by_cases hc : c = e.conn
  · subst hc
    rw [Function.update_self]
    unfold Connection.calls at h ⊢
    simp only [Bool.and_eq_true, Connection.readied, Bool.or_eq_true] at h ⊢
    exact ⟨.inl h.1, h.2⟩
  · rw [Function.update_of_ne hc]
    exact h

theorem marked_of_readied (h : (s.conn c).markedForRemoval = true) :
    (s'.conn c).markedForRemoval = true := by
  rw [hconn]
  by_cases hc : c = e.conn
  · subst hc
    rw [Function.update_self]
    exact h
  · rw [Function.update_of_ne hc]
    exact h

end Readied

section Queued

variable (hworker : s'.worker = Function.update s.worker s.workers (some w))

include hworker

/-- The tasks that were there stay. -/
theorem worker_of_queued (hfresh : s.worker s.workers = none) (i : ℕ) (wi : Worker cfg)
    (hi : s.worker i = some wi) : s'.worker i = some wi := by
  have hne : i ≠ s.workers := by
    rintro rfl
    cases hfresh.symm.trans hi
  rw [hworker, Function.update_of_ne hne]
  exact hi

/-- The new one is queued. -/
theorem queued_of_worker (hp : w.place = .queued) (i : ℕ) (wi : Worker cfg)
    (hi : s'.worker i = some wi) : s.worker i = some wi ∨ wi.place = .queued := by
  rw [hworker] at hi
  by_cases hne : i = s.workers
  · subst hne
    rw [Function.update_self] at hi
    cases hi
    exact .inr hp
  · rw [Function.update_of_ne hne] at hi
    exact .inl hi

end Queued

/-- `ServiceConnection()` leaves the lists alone until it has both mutexes. -/
theorem lists_serviceConnection {i : ℕ} (hs : s.serviceConnection i w b = some s') :
    s'.lists = s.lists := by
  have hserve : ∀ {phase : Phase},
      ((s.serve w.conn w.queuedFor w.source phase b).map fun r ↦
        r.1.setWorker i (some { w with place := .serving r.2 })) = some s' →
      s'.lists = s.lists := by
    intro phase hs
    obtain ⟨⟨t, phase'⟩, ht, rfl⟩ := Option.map_eq_some_iff.mp hs
    obtain ⟨called, conn, -, rfl⟩ := serve_cases ht
    cases called <;> rfl
  unfold serviceConnection at hs
  cases hp : w.place with
  | queued =>
      simp only [hp] at hs
      split_ifs at hs
      cases hs
      rfl
  | locked =>
      simp only [hp] at hs
      split_ifs at hs <;> cases hs <;> rfl
  | serving phase =>
      cases phase with
      | done removeMe =>
          simp only [hp] at hs
          split_ifs at hs
          cases hs
          rfl
      | test d removeMe =>
          simp only [hp] at hs
          exact hserve hs
      | inCallback d removeMe =>
          simp only [hp] at hs
          exact hserve hs
      | check removeMe =>
          simp only [hp] at hs
          exact hserve hs
  | lockServer removeMe => simp only [hp, reduceCtorEq] at hs
  | lockConn removeMe => simp only [hp, reduceCtorEq] at hs

theorem Held.of_same (h : s.Held) (hworker : s'.worker = s.worker)
    (hmutex : s'.connMutex = s.connMutex) : s'.Held := by
  unfold Held
  rw [hworker, hmutex]
  exact h

end Store

namespace POServer

variable {s s' : POServer cfg} {a : Action cfg} {listenerFd : ListenerId cfg → ℤ}

/-- The call of `checkTryRemoveConnection` of a step. -/
theorem Moves.tries (h : s.Moves a s') {c : ConnId cfg} (hc : s.tries a = some c) :
    0 ≤ (s.store.conn c).fd ∧ ∃ source, s.store.Tries c source s'.store := by
  cases h with
  | stays hsame htries hother hm => exact absurd (htries.symm.trans hc) (Option.some_ne_none c).symm
  | finds hm hfd hnone => simp only [POServer.tries, hm, reduceCtorEq] at hc
  | takes hm hfd hsome hready => simp only [POServer.tries, hm, reduceCtorEq] at hc
  | passes hm hfd hready => simp only [POServer.tries, hm, reduceCtorEq] at hc
  | readies hm hm' hfd hfree hcalls hsets => simp only [POServer.tries, hm, reduceCtorEq] at hc
  | queues hm hm' hfd hfree hcalls hfresh hconn hworker hmutex =>
      simp only [POServer.tries, hm, reduceCtorEq] at hc
  | returns hm hfree => simp only [POServer.tries, hm, reduceCtorEq] at hc
  | ends hm hcond =>
      simp only [POServer.tries, hm] at hc
      rw [if_neg hcond] at hc
      cases hc
  | accepts hm hm' hfd hclosed hfree hsets => cases hc
  | works hm hw hworks => cases hc
  | sweeps hm hm' hc' hfd htries =>
      cases hc'.symm.trans hc
      exact ⟨hfd, _, htries⟩
  | removesIdle hm hm' hfd htries =>
      simp only [POServer.tries, hm, Option.some.injEq] at hc
      subst hc
      exact ⟨hfd, _, htries⟩
  | hangsUp hm hm' hfd hflag htries =>
      simp only [POServer.tries, hm] at hc
      split_ifs at hc
      cases hc
      exact ⟨hfd, _, htries⟩

/-- The mutex of a connection is free when the connection is removed. -/
theorem Moves.free_of_closed (h : s.Moves a s') {c : ConnId cfg}
    (hopen : 0 ≤ (s.store.conn c).fd) (hclosed : ¬ 0 ≤ (s'.store.conn c).fd) :
    s.store.connMutex c = none := by
  have hsame : s'.store.conn c = s.store.conn c → s.store.connMutex c = none := by
    intro heq
    rw [heq] at hclosed
    exact absurd hopen hclosed
  have hupdate : ∀ {d : ConnId cfg} {conn : Connection},
      s'.store.conn = Function.update s.store.conn d conn → 0 ≤ conn.fd →
      s.store.connMutex c = none := by
    intro d conn hconn hfd
    by_cases hc : c = d
    · subst hc
      rw [hconn, Function.update_self] at hclosed
      exact absurd hfd hclosed
    · exact hsame (by rw [hconn, Function.update_of_ne hc])
  have htried : ∀ {d source}, s.store.Tries d source s'.store → s.store.connMutex c = none := by
    intro d source htries
    by_cases hc : c = d
    · subst hc
      cases htries with
      | removes hfree hsets => exact hfree
      | exits hfree hstore hexit => exact hfree
      | marks hheld hsets => exact hupdate hsets.conn hopen
    · exact hsame (htries.conn_of_ne hc)
  cases h with
  | stays hstore htries hother hm => exact hsame (by rw [hstore.conn])
  | finds | takes | passes | returns | ends => exact hsame rfl
  | sweeps hm hm' hc hfd htries => exact htried htries
  | removesIdle hm hm' hfd htries => exact htried htries
  | hangsUp hm hm' hfd hflag htries => exact htried htries
  | readies hm hm' hfd hfree hcalls hsets => exact hupdate hsets.conn hfd
  | queues hm hm' hfd hfree hcalls hfresh hconn hworker hmutex => exact hupdate hconn hfd
  | accepts hm hm' hfd hclosed' hfree hsets => exact hupdate hsets.conn hfd
  | @works i w b ok _ hm hw hworks =>
      by_cases hc : c = w.conn
      · subst hc
        obtain ⟨removeMe, hp, hfree, -⟩ := hworks.removal_cause hopen hclosed
        exact hfree
      · exact hsame (hworks.conn_of_ne hc)

/-- Only a step of a task changes or ends a task; the others may queue a new one. -/
theorem Moves.worker_of_other (h : s.Moves a s') (hother : ∀ i b ok, a ≠ .work i b ok) :
    (∀ i w, s.store.worker i = some w → s'.store.worker i = some w) ∧
      ∀ i w, s'.store.worker i = some w → s.store.worker i = some w ∨ w.place = .queued := by
  have hsame : s'.store.worker = s.store.worker →
      (∀ i w, s.store.worker i = some w → s'.store.worker i = some w) ∧
        ∀ i w, s'.store.worker i = some w → s.store.worker i = some w ∨ w.place = .queued := by
    intro heq
    rw [heq]
    exact ⟨fun _ _ ↦ id, fun _ _ ↦ .inl⟩
  cases h with
  | stays hstore htries hother hm => exact hsame hstore.worker
  | finds | takes | passes | returns | ends => exact hsame rfl
  | sweeps hm hm' hc hfd htries => exact hsame htries.worker
  | removesIdle hm hm' hfd htries => exact hsame htries.worker
  | hangsUp hm hm' hfd hflag htries => exact hsame htries.worker
  | readies hm hm' hfd hfree hcalls hsets => exact hsame hsets.worker
  | accepts hm hm' hfd hclosed hfree hsets => exact hsame hsets.worker
  | queues hm hm' hfd hfree hcalls hfresh hconn hworker hmutex =>
      exact ⟨Store.worker_of_queued hworker hfresh, Store.queued_of_worker hworker rfl⟩
  | works => exact absurd rfl (hother _ _ _)

theorem held_moves (h : s.Moves a s') (hheld : s.store.Held) : s'.store.Held := by
  cases h with
  | stays hsame htries hother hm => exact hheld.of_same hsame.worker hsame.connMutex
  | finds | takes | passes | returns | ends => exact hheld
  | sweeps hm hm' hc hfd htries => exact hheld.of_same htries.worker htries.connMutex
  | removesIdle hm hm' hfd htries => exact hheld.of_same htries.worker htries.connMutex
  | hangsUp hm hm' hfd hflag htries => exact hheld.of_same htries.worker htries.connMutex
  | readies hm hm' hfd hfree hcalls hsets => exact hheld.of_same hsets.worker hsets.connMutex
  | accepts hm hm' hfd hclosed hfree hsets => exact hheld.of_same hsets.worker hsets.connMutex
  | queues hm hm' hfd hfree hcalls hfresh hconn hworker hmutex =>
      intro c i hi
      rw [hmutex] at hi
      obtain ⟨w, hw, hc, hlocks⟩ := hheld c i hi
      exact ⟨w, Store.worker_of_queued hworker hfresh i w hw, hc, hlocks⟩
  | works hm hw hworks => exact hworks.held hw hheld

/-! ## The server mutex -/

/-- A task that holds the server mutex is at its removal test. -/
def Owned (s : POServer cfg) : Prop := ∀ i, s.serverMutex = some (.worker i) → s.store.Finishing i

/-- The server mutex stays as it is, or is with the master or free. -/
def Yields (s s' : POServer cfg) : Prop :=
  s'.serverMutex = s.serverMutex ∨ s'.serverMutex = none ∨ s'.serverMutex = some .master

theorem yields_lookedForAccept {t : POServer cfg} {caller : Option (List (Event cfg))}
    (h : t.serverMutex = s.serverMutex) : s.Yields (t.lookedForAccept caller) := by
  cases caller with
  | none => exact .inr (.inl rfl)
  | some rest => exact .inl h

theorem yields_lookForAccept {t : POServer cfg} {now : Time}
    {caller : Option (List (Event cfg))} (h : t.serverMutex = s.serverMutex) :
    s.Yields (t.lookForAccept now caller) := by
  unfold lookForAccept
  split_ifs
  · exact .inl h
  · exact yields_lookedForAccept h

theorem yields_proceed {now : Time} {ok : Bool} (hs : s.proceed now ok = some s') :
    s.Yields s' := by
  cases proceeds hs with
  | longSweep hm =>
      unfold longSweep
      split <;> exact .inl rfl
  | acceptLoop hm hmay => exact yields_lookForAccept rfl
  | waitSweep hm =>
      unfold waitSweep
      split
      · split_ifs
        · exact .inl rfl
        · exact yields_lookedForAccept rfl
      · exact yields_lookedForAccept rfl
  | unlocked hm => exact .inl rfl
  | gotEvents hm hfree | runTask hm hfree => exact .inr (.inr rfl)
  | endsBatch hm => exact .inr (.inl rfl)
  | listenerEvent hm =>
      unfold doListenerEvent
      split_ifs
      · exact .inl rfl
      · exact .inl (queuePush_serverMutex _)
      · exact yields_lookForAccept (queuePush_serverMutex _)
  | connEvent hm =>
      unfold doConnEvent
      split_ifs <;> exact .inl rfl
  | noCallback hm => exact .inl rfl
  | setReady hm hfree =>
      unfold setReady
      dsimp only
      split_ifs
      · exact .inr (.inl rfl)
      · exact .inl rfl
      · exact .inl rfl
  | eventEnd hm =>
      unfold eventEnd
      split_ifs <;> exact .inl rfl

theorem yields_accept {t : POServer cfg} {r : AcceptResult} {m : Master cfg}
    (hs : s.accept r = some t) : s.Yields { t with master := m } := by
  cases r with
  | accepted fd now =>
      obtain ⟨l, waiting, -, -, rfl⟩ := accept_accepted_eq_some.mp hs
      exact .inl rfl
  | again =>
      cases hs
      exact .inl queuePull_serverMutex
  | failed =>
      cases hs
      exact .inl rfl

theorem yields_serve {e : ConnEvent cfg} {rest : List (Event cfg)} {phase : Phase}
    {b : ServiceAction} {ok : Bool} (hs : s.serve e rest ok phase b = some s') : s.Yields s' := by
  unfold serve at hs
  split at hs
  · cases hs
    exact .inl rfl
  · obtain ⟨r, -, rfl⟩ := Option.map_eq_some_iff.mp hs
    exact .inl rfl

/-- Only a task gives the server mutex to a task. -/
theorem yields_step (hother : ∀ i b ok, a ≠ .work i b ok) (hs : step s a = some s') :
    s.Yields s' := by
  cases a with
  | doNextEvents now =>
      obtain ⟨-, -, rfl⟩ := step_doNextEvents_eq_some.mp hs
      exact .inr (.inr rfl)
  | proceed now ok => exact yields_proceed (step_proceed_eq_some.mp hs).2
  | accept r =>
      obtain ⟨-, m, -, t, ht, rfl⟩ := step_accept_eq_some.mp hs
      exact yields_accept ht
  | epollWait batch =>
      obtain ⟨-, -, rfl⟩ := step_epollWait_eq_some.mp hs
      exact .inl rfl
  | serve b ok =>
      obtain ⟨-, e, rest, phase, -, hs⟩ := step_serve_eq_some.mp hs
      exact yields_serve hs
  | work i b ok => exact absurd rfl (hother i b ok)
  | stop =>
      obtain ⟨-, rfl⟩ := step_stop_eq_some.mp hs
      exact .inl rfl
  | shutdown =>
      obtain ⟨-, -, rfl⟩ := step_shutdown_eq_some.mp hs
      exact .inl rfl

/-- A step of a task that does not end the process locks the server mutex, has it, or leaves it
alone. -/
theorem owned_work {i : ℕ} {w : Worker cfg} {b : ServiceAction} {ok : Bool} (h : s.Owned)
    (hw : s.store.worker i = some w) (hs : s.work i w b ok = some s')
    (hother : ∀ j ≠ i, s'.store.worker j = s.store.worker j) : s'.Owned := by
  have hsame : s'.serverMutex = s.serverMutex → (∀ removeMe, w.place ≠ .lockConn removeMe) →
      s'.Owned := by
    intro hmutex hp j hj
    obtain ⟨wj, removeMe, hwj, hpj⟩ := h j (hmutex ▸ hj)
    have hji : j ≠ i := by
      rintro rfl
      cases hw.symm.trans hwj
      exact hp removeMe hpj
    exact ⟨wj, removeMe, (hother j hji).trans hwj, hpj⟩
  cases taskProceeds hs with
  | @lockServer removeMe hp hfree ha =>
      rintro j ⟨⟩
      exact ⟨_, removeMe, Function.update_self i _ _, rfl⟩
  | @lockConn removeMe hp hfree ha =>
      intro j hj
      dsimp only at hj
      split_ifs at hj with hexit
      -- the process ends, and the task keeps what it has
      obtain ⟨wj, removeMe', hwj, hpj⟩ := h j hj
      by_cases hji : j = i
      · subst hji
        refine ⟨wj, removeMe', ?_, hpj⟩
        obtain ⟨t, heq, ht⟩ := Store.finishService_cases s.store j w removeMe ok
        dsimp only
        rw [heq] at hexit ⊢
        have hworker : t.worker = s.store.worker := by
          rcases ht with rfl | ⟨source, rfl, -⟩
          · rfl
          · rw [Store.removeConnection_worker, Store.affect_worker]
        split_ifs at hexit ⊢ with hend
        · rw [hworker, hwj]
        · exact absurd hexit hend
      · exact ⟨wj, removeMe', (hother j hji).trans hwj, hpj⟩
  | service hp hstore => exact hsame rfl hp

theorem Owned.moves (h : s.Owned) (hmoves : s.Moves a s') (hs : step s a = some s') :
    s'.Owned := by
  by_cases hother : ∀ i b ok, a ≠ .work i b ok
  · intro i hi
    rcases yields_step hother hs with hmutex | hmutex | hmutex
    · obtain ⟨w, removeMe, hw, hp⟩ := h i (hmutex ▸ hi)
      exact ⟨w, removeMe, (hmoves.worker_of_other hother).1 i w hw, hp⟩
    · cases hmutex.symm.trans hi
    · cases hmutex.symm.trans hi
  · simp only [ne_eq, not_forall, not_not] at hother
    obtain ⟨i, b, ok, rfl⟩ := hother
    obtain ⟨-, w, hw, hs⟩ := step_work_eq_some.mp hs
    refine owned_work h hw hs ?_
    cases hmoves with
    | stays hsame htries hother hm => exact absurd rfl (hother i b ok)
    | works hm hw' hworks =>
        cases hw.symm.trans hw'
        exact fun j hji ↦ hworks.worker_of_ne hji

/-- What a thread relies on that holds the server mutex: it stays as it is. -/
structure Undisturbed (s s' : POServer cfg) : Prop where
  serverMutex : s'.serverMutex = s.serverMutex
  waiting : s'.waiting = s.waiting
  master : s'.master = s.master
  lists : s'.store.lists = s.store.lists

/-- A task without the server mutex leaves its holder undisturbed. -/
theorem undisturbed_work {i : ℕ} {w : Worker cfg} {b : ServiceAction} {ok : Bool}
    (hmutex : s.serverMutex ≠ none) (hp : ∀ removeMe, w.place ≠ .lockConn removeMe)
    (hs : s.work i w b ok = some s') : s.Undisturbed s' := by
  cases taskProceeds hs with
  | lockServer hplace hfree ha => exact absurd hfree hmutex
  | lockConn hplace hfree ha => exact absurd hplace (hp _)
  | service hplace hstore => exact ⟨rfl, rfl, rfl, Store.lists_serviceConnection hstore⟩

/-- The master without the server mutex leaves the task undisturbed that holds it. -/
theorem Core.undisturbed_of_worker {i : ℕ} (h : s.Core P)
    (howner : s.serverMutex = some (.worker i))
    (hother : ∀ j b ok, a ≠ .work j b ok) (hserve : ∀ b ok, a ≠ .serve b ok) (hstop : a ≠ .shutdown)
    (hs : step s a = some s') : s'.store = s.store ∧ s'.serverMutex = s.serverMutex := by
  have hholds : ¬ s.master.Holds := by
    rw [← h.mutex, howner]
    exact fun heq ↦ nomatch heq
  cases a with
  | doNextEvents now =>
      obtain ⟨-, hcond, -⟩ := step_doNextEvents_eq_some.mp hs
      exact absurd (hcond.2.symm.trans howner) (fun heq ↦ nomatch heq)
  | proceed now ok =>
      cases proceeds (step_proceed_eq_some.mp hs).2 with
      | gotEvents hm hfree | runTask hm hfree =>
          exact absurd (hfree.symm.trans howner) (fun heq ↦ nomatch heq)
      | unlocked hm => exact ⟨rfl, rfl⟩
      | _ hm => exact absurd (hm ▸ trivial) hholds
  | accept r =>
      obtain ⟨-, m, hm, -⟩ := step_accept_eq_some.mp hs
      obtain ⟨t, hp, -⟩ | ⟨t, caller, hp, -⟩ | ⟨rest, hp, -⟩ := afterAccept_cases hm <;>
        exact absurd (hp ▸ trivial) hholds
  | epollWait batch =>
      obtain ⟨-, -, rfl⟩ := step_epollWait_eq_some.mp hs
      exact ⟨rfl, rfl⟩
  | serve b ok => exact absurd rfl (hserve b ok)
  | work j b ok => exact absurd rfl (hother j b ok)
  | stop =>
      obtain ⟨-, rfl⟩ := step_stop_eq_some.mp hs
      exact ⟨rfl, rfl⟩
  | shutdown => exact absurd rfl hstop

/-- What the states of a run of the server with threads have in common. -/
structure Threaded (s : POServer cfg) : Prop where
  core : s.store.exited = false → s.Core fun _ _ ↦ True
  held : s.store.Held
  owned : s.Owned

theorem threaded_start (listenerFd : ListenerId cfg → ℤ) : (start cfg listenerFd).Threaded :=
  ⟨fun _ ↦ core_start listenerFd, Store.held_create cfg, fun _ h ↦ nomatch h⟩

theorem Threaded.moves (h : s.Threaded) (hpool : cfg.threadPool = true)
    (hs : step s a = some s') : s.Moves a s' :=
  (h.core (running_of_step hs)).moves hpool hs

theorem Threaded.step (h : s.Threaded) (hpool : cfg.threadPool = true)
    (hs : Server.step s a = some s') : s'.Threaded where
  core := by
    intro hrun
    have htakes : s.Takes (fun _ _ ↦ True) a := takes_of_forall fun _ _ ↦ trivial
    exact ((h.core (running_of_step hs)).steps htakes (.inl hpool) hs).core hrun
  held := held_moves (h.moves hpool hs) h.held
  owned := h.owned.moves (h.moves hpool hs) hs

theorem threaded_of_reach {ok : POServer cfg → Action cfg → Prop} (hpool : cfg.threadPool = true)
    (h : Reach Server.step ok (start cfg listenerFd) s) : s.Threaded :=
  h.invariant (threaded_start listenerFd) fun hinv _ hs ↦ hinv.step hpool hs

end POServer

end Tidbits.Server
