import Tidbits.Server.Runs

/-!
# The steps of the server with threads

`Moves` inverts the step function of the build with threads once.  It says what a
step does to the connections, the tasks and the connection mutexes, and forgets
the lists and the recorded history.  A call of `checkTryRemoveConnection` (`Tries`)
removes the connection, marks it, or ends the process.
-/

namespace Tidbits.Server

open Tidbits.Transition

variable {cfg : Config} {P : ℕ → ℕ → Prop}

/-- The readiness that the event reports. -/
def ConnEvent.reports (e : ConnEvent cfg) : Direction → Bool
  | .read => e.input
  | .write => e.output

/-- The connection with the readiness that the event reports. -/
def Connection.readied (conn : Connection) (e : ConnEvent cfg) : Connection :=
  { conn with ready := fun d ↦ conn.ready d || e.reports d }

/-- The event that the master works on. -/
def Master.event : Master cfg → Option (ConnEvent cfg)
  | .noCallback e _ | .setReady e _ | .runTask e _ | .serving e _ _ | .eventEnd e _ => some e
  | _ => none

namespace Store

/-- The connections, the tasks and the mutexes stay as they are. -/
structure Same (s s' : Store cfg) : Prop where
  conn : s'.conn = s.conn
  worker : s'.worker = s.worker
  connMutex : s'.connMutex = s.connMutex

/-- One connection changes. -/
structure Sets (s : Store cfg) (c : ConnId cfg) (conn : Connection) (s' : Store cfg) : Prop where
  conn : s'.conn = Function.update s.conn c conn
  worker : s'.worker = s.worker
  connMutex : s'.connMutex = s.connMutex

/-- `checkTryRemoveConnection`, with threads. -/
inductive Tries (s : Store cfg) (c : ConnId cfg) (source : Option ℕ) (s' : Store cfg) : Prop
  | removes (hfree : s.connMutex c = none) (hsets : s.Sets c ((s.conn c).reset true) s')
  | exits (hfree : s.connMutex c = none) (hsame : s.Same s') (hexit : s'.exited = true)
  | marks {i : ℕ} (hheld : s.connMutex c = some i)
      (hsets : s.Sets c
        { s.conn c with markedForRemoval := true, markedFor := source.or (s.conn c).markedFor } s')

/-- `ServiceConnection()` of a task. -/
inductive Works (s : Store cfg) (i : ℕ) (w : Worker cfg) : ServiceAction → Store cfg → Prop
  /-- It locks the connection mutex. -/
  | locks (hp : w.place = .queued) (hfree : s.connMutex w.conn = none) :
      Works s i w .go
        ((s.setMutex w.conn (some i)).setWorker i (some { w with place := .locked }))
  /-- It returns early. -/
  | leaves (hp : w.place = .locked) (hcount : w.changeCount ≠ (s.conn w.conn).changeCount) :
      Works s i w .go ((s.setMutex w.conn none).setWorker i none)
  /-- It begins with the callbacks. -/
  | begins (hp : w.place = .locked) (hcount : w.changeCount = (s.conn w.conn).changeCount) :
      Works s i w .go (s.setWorker i (some { w with place := .serving .start }))
  /-- It goes on with them, or one of them does something. -/
  | serves {phase : Phase} {a : ServiceAction} {r : ServiceStep} {s' : Store cfg}
      (hp : w.place = .serving phase) (hr : (s.conn w.conn).serve phase a = some r)
      (hconn : s'.conn = Function.update s.conn w.conn r.conn)
      (hworker : s'.worker = Function.update s.worker i
        (some { w with place := .serving r.phase }))
      (hmutex : s'.connMutex = s.connMutex) : Works s i w a s'
  /-- It unlocks the connection mutex. -/
  | unlocks {removeMe : Bool} (hp : w.place = .serving (.done removeMe)) :
      Works s i w .go
        ((s.setMutex w.conn none).setWorker i (some { w with place := .lockServer removeMe }))
  /-- It locks the server mutex. -/
  | locksServer {removeMe : Bool} (hp : w.place = .lockServer removeMe) :
      Works s i w .go (s.setWorker i (some { w with place := .lockConn removeMe }))
  /-- It leaves the connection. -/
  | finishes {removeMe : Bool} (hp : w.place = .lockConn removeMe)
      (hfree : s.connMutex w.conn = none)
      (hkeep : ¬ ((s.conn w.conn).changeCount = w.changeCount ∧ removeMe = true) ∧
        (s.conn w.conn).markedForRemoval = false) : Works s i w .go (s.setWorker i none)
  /-- It removes the connection. -/
  | removes {removeMe : Bool} {s' : Store cfg} (hp : w.place = .lockConn removeMe)
      (hfree : s.connMutex w.conn = none)
      (hcause : (s.conn w.conn).changeCount = w.changeCount ∧ removeMe = true ∨
        (s.conn w.conn).markedForRemoval = true)
      (hsets : (s.setWorker i none).Sets w.conn ((s.conn w.conn).reset true) s') :
      Works s i w .go s'
  /-- It removes the connection, and that ends the process. -/
  | exits {removeMe : Bool} {s' : Store cfg} (hp : w.place = .lockConn removeMe)
      (hfree : s.connMutex w.conn = none)
      (hcause : (s.conn w.conn).changeCount = w.changeCount ∧ removeMe = true ∨
        (s.conn w.conn).markedForRemoval = true)
      (hsame : s.Same s') (hexit : s'.exited = true) : Works s i w .go s'

variable {s s' : Store cfg} {c : ConnId cfg} {source : Option ℕ} {ok : Bool} {i : ℕ}
  {w : Worker cfg} {a : ServiceAction}

/-- `removeConnection`, with threads. -/
theorem removeConnection_cases (hpool : cfg.threadPool = true) (s : Store cfg)
    (source : Option ℕ) (c : ConnId cfg) (ok : Bool) :
    s.Sets c ((s.conn c).reset true) ((s.affect source c).removeConnection c ok) ∧
        ((s.affect source c).removeConnection c ok).exited = s.exited ∨
      s.Same ((s.affect source c).removeConnection c ok) ∧
        ((s.affect source c).removeConnection c ok).exited = true := by
  unfold removeConnection
  dsimp only
  split_ifs
  · left
    refine ⟨⟨?_, affect_worker, affect_connMutex⟩, affect_exited⟩
    show Function.update (s.affect source c).conn c _ = _
    rw [affect_conn, hpool]
  · exact .inr ⟨⟨affect_conn, affect_worker, affect_connMutex⟩, rfl⟩

theorem tries_checkTryRemoveConnection (hpool : cfg.threadPool = true) :
    s.Tries c source (s.checkTryRemoveConnection c source ok).1 := by
  unfold checkTryRemoveConnection
  split_ifs with hlock
  · have hfree : s.connMutex c = none := by simpa [canLock, hpool] using hlock
    rcases removeConnection_cases hpool s source c ok with ⟨hsets, -⟩ | ⟨hsame, hexit⟩
    · exact .removes hfree hsets
    · exact .exits hfree hsame hexit
  · have hheld : ∃ i, s.connMutex c = some i := by
      rw [← Option.ne_none_iff_exists']
      simpa [canLock, hpool] using hlock
    obtain ⟨i, hheld⟩ := hheld
    refine .marks hheld ⟨?_, affect_worker, affect_connMutex⟩
    show Function.update (s.affect source c).conn c _ = _
    rw [affect_conn]

theorem works_finishService (hpool : cfg.threadPool = true) {removeMe : Bool}
    (hrun : s.exited = false) (hp : w.place = .lockConn removeMe)
    (hfree : s.connMutex w.conn = none) :
    s.Works i w .go (s.finishService i w removeMe ok) := by
  have hremoves : ∀ {source : Option ℕ},
      (s.conn w.conn).changeCount = w.changeCount ∧ removeMe = true ∨
        (s.conn w.conn).markedForRemoval = true →
      s.Works i w .go
        (if ((s.affect source w.conn).removeConnection w.conn ok).exited = true then
          (s.affect source w.conn).removeConnection w.conn ok
        else ((s.affect source w.conn).removeConnection w.conn ok).setWorker i none) := by
    intro source hcause
    rcases removeConnection_cases hpool s source w.conn ok with ⟨hsets, hrun'⟩ | ⟨hsame, hexit⟩
    · rw [if_neg (by rw [hrun', hrun]; exact Bool.false_ne_true)]
      refine .removes hp hfree hcause ⟨hsets.conn, ?_, hsets.connMutex⟩
      exact congrArg (Function.update · i none) hsets.worker
    · rw [if_pos hexit]
      exact .exits hp hfree hcause hsame hexit
  unfold finishService
  dsimp only
  by_cases hcur : (s.conn w.conn).changeCount = w.changeCount ∧ removeMe = true
  · rw [if_pos hcur]
    exact hremoves (.inl hcur)
  · rw [if_neg hcur]
    by_cases hmark : (s.conn w.conn).markedForRemoval = true
    · rw [if_pos hmark]
      exact hremoves (.inr hmark)
    · rw [if_neg hmark, if_neg (by rw [hrun]; exact Bool.false_ne_true)]
      exact .finishes hp hfree ⟨hcur, Bool.not_eq_true _ ▸ hmark⟩

/-- `addConnection` puts a closed struct to use, or ends the process. -/
theorem Slots.addConnection_open (h : s.Slots P) (fd : ℤ) (now : Time) (callback : Callback) :
    (∃ c, ¬ 0 ≤ (s.conn c).fd ∧
      ((s.lists.front.all fun c ↦ (s.connMutex c).isNone) = true → s.connMutex c = none) ∧
      s.Sets c ((s.conn c).accepted fd now callback s.accepts)
        (s.addConnection fd now callback)) ∨
      s.Same (s.addConnection fd now callback) := by
  obtain ⟨used, unused, hholds, hall, hused⟩ := h.partitioned
  cases unused with
  | nil =>
      right
      have hnone : s.lists.listAddNew = none := by
        simp [ConnectionLists.listAddNew, ConnectionLists.unusedPop, hholds.front_eq]
      rw [Store.addConnection, hnone]
      exact ⟨rfl, rfl, rfl⟩
  | cons c unused =>
      left
      obtain ⟨lists, hadd, -⟩ := hholds.listAddNew
      refine ⟨c, ?_, fun hfront ↦ ?_, ?_⟩
      · rw [← hused c]
        exact fun hc ↦ (List.nodup_append.mp hholds.nodup).2.2 c hc c List.mem_cons_self rfl
      · simpa [hholds.front_eq] using hfront
      · rw [addConnection_eq hadd]
        exact ⟨rfl, rfl, rfl⟩

theorem setReady_conn (s : Store cfg) (e : ConnEvent cfg) :
    ((s.affect (some e.source) e.conn).setReady e.conn e.input e.output).conn =
      Function.update s.conn e.conn ((s.conn e.conn).readied e) := by
  refine congrArg (Function.update s.conn e.conn) ?_
  have hready : ∀ (conn : Connection) (d : Direction) (b : Bool),
      (if b then conn.setReady d true else conn) =
        { conn with ready := fun x ↦ conn.ready x || (b && decide (x = d)) } := by
    intro conn d b
    cases b with
    | false => simp
    | true =>
        simp only [if_true, Connection.setReady, Connection.mk.injEq, true_and, and_true]
        funext x
        by_cases hx : x = d <;> simp [hx]
  rw [affect_conn, hready, hready]
  simp only [Connection.readied, Connection.mk.injEq, true_and, and_true]
  funext d
  cases d <;> simp [ConnEvent.reports]

end Store

namespace POServer

/-- The connection that `checkTryRemoveConnection` is called for in the step. -/
def tries (s : POServer cfg) : Action cfg → Option (ConnId cfg)
  | .proceed _ _ =>
      match s.master with
      | .longSweep t => s.timedOut t cfg.longTimeout
      | .waitSweep t _ => if s.waiting = [] then none else s.timedOut t cfg.waitTimeout
      | .noCallback e _ => some e.conn
      | .eventEnd e _ =>
          if (s.store.conn e.conn).fd ≠ -1 ∧ (e.hangUp || e.error) then some e.conn else none
      | _ => none
  | _ => none

/-- What a step does to the connections, the tasks and the connection mutexes, and to the event
that the master works on. -/
inductive Moves (s : POServer cfg) : Action cfg → POServer cfg → Prop
  /-- Nothing. -/
  | stays {a : Action cfg} {s' : POServer cfg} (hsame : s.store.Same s'.store)
      (htries : s.tries a = none) (hother : ∀ i b ok, a ≠ .work i b ok)
      (hm : a = .stop ∧ s'.master = s.master ∨
        s.master.event = none ∧ s'.master.event = none) :
      Moves s a s'
  /-- `doEvent` finds no callback. -/
  | finds {e : ConnEvent cfg} {rest : List (Event cfg)} {now : Time} {ok : Bool}
      (hm : s.master = .events (.conn e :: rest)) (hfd : 0 ≤ (s.store.conn e.conn).fd)
      (hnone : (s.store.conn e.conn).noCallback = true) :
      Moves s (.proceed now ok) { s with master := .noCallback e rest }
  /-- `doEvent` finds a callback, and an event to hand to it. -/
  | takes {e : ConnEvent cfg} {rest : List (Event cfg)} {now : Time} {ok : Bool}
      (hm : s.master = .events (.conn e :: rest)) (hfd : 0 ≤ (s.store.conn e.conn).fd)
      (hsome : (s.store.conn e.conn).noCallback = false) (hready : (e.input || e.output) = true) :
      Moves s (.proceed now ok) { s with master := .setReady e rest }
  /-- `doEvent` finds a callback, but nothing to hand to it. -/
  | passes {e : ConnEvent cfg} {rest : List (Event cfg)} {now : Time} {ok : Bool}
      (hm : s.master = .events (.conn e :: rest)) (hfd : 0 ≤ (s.store.conn e.conn).fd)
      (hready : (e.input || e.output) = false) :
      Moves s (.proceed now ok) { s with master := .eventEnd e rest }
  /-- A timeout. -/
  | sweeps {c : ConnId cfg} {now : Time} {ok : Bool} {s' : POServer cfg}
      (hm : s.master.event = none) (hm' : s'.master.event = none)
      (hc : s.tries (.proceed now ok) = some c) (hfd : 0 ≤ (s.store.conn c).fd)
      (htries : s.store.Tries c none s'.store) : Moves s (.proceed now ok) s'
  /-- `doEvent` removes or marks the connection without callback. -/
  | removesIdle {e : ConnEvent cfg} {rest : List (Event cfg)} {now : Time} {ok : Bool}
      {s' : POServer cfg} (hm : s.master = .noCallback e rest) (hm' : s'.master = .events rest)
      (hfd : 0 ≤ (s.store.conn e.conn).fd)
      (htries : s.store.Tries e.conn (some e.source) s'.store) : Moves s (.proceed now ok) s'
  /-- `doEvent` sets the readiness, and no callback is to be called. -/
  | readies {e : ConnEvent cfg} {rest : List (Event cfg)} {now : Time} {ok : Bool}
      {s' : POServer cfg} (hm : s.master = .setReady e rest) (hm' : s'.master = .eventEnd e rest)
      (hfd : 0 ≤ (s.store.conn e.conn).fd) (hfree : s.store.connMutex e.conn = none)
      (hcalls : ∀ d, ((s.store.conn e.conn).readied e).calls d = false)
      (hsets : s.store.Sets e.conn ((s.store.conn e.conn).readied e) s'.store) :
      Moves s (.proceed now ok) s'
  /-- `doEvent` sets the readiness, and creates a task. -/
  | queues {e : ConnEvent cfg} {rest : List (Event cfg)} {now : Time} {ok : Bool}
      {s' : POServer cfg} (hm : s.master = .setReady e rest) (hm' : s'.master = .runTask e rest)
      (hfd : 0 ≤ (s.store.conn e.conn).fd) (hfree : s.store.connMutex e.conn = none)
      (hcalls : ∃ d, ((s.store.conn e.conn).readied e).calls d = true)
      (hfresh : s.store.worker s.store.workers = none)
      (hconn : s'.store.conn =
        Function.update s.store.conn e.conn ((s.store.conn e.conn).readied e))
      (hworker : s'.store.worker = Function.update s.store.worker s.store.workers
        (some ⟨e.conn, (s.store.conn e.conn).changeCount, .queued,
          (s.store.conn e.conn).acceptNo, e.source⟩))
      (hmutex : s'.store.connMutex = s.store.connMutex) : Moves s (.proceed now ok) s'
  /-- `poThreadPool_runTask()` returns. -/
  | returns {e : ConnEvent cfg} {rest : List (Event cfg)} {now : Time} {ok : Bool}
      (hm : s.master = .runTask e rest) (hfree : s.serverMutex = none) :
      Moves s (.proceed now ok)
        { s with serverMutex := some .master, master := .eventEnd e rest }
  /-- `doEvent` ends, as the connection is gone or was not hung up. -/
  | ends {e : ConnEvent cfg} {rest : List (Event cfg)} {now : Time} {ok : Bool}
      (hm : s.master = .eventEnd e rest)
      (hcond : ¬ ((s.store.conn e.conn).fd ≠ -1 ∧ (e.hangUp || e.error) = true)) :
      Moves s (.proceed now ok) { s with master := .events rest }
  /-- `doEvent` removes or marks the connection that was hung up. -/
  | hangsUp {e : ConnEvent cfg} {rest : List (Event cfg)} {now : Time} {ok : Bool}
      {s' : POServer cfg} (hm : s.master = .eventEnd e rest) (hm' : s'.master = .events rest)
      (hfd : 0 ≤ (s.store.conn e.conn).fd) (hflag : (e.hangUp || e.error) = true)
      (htries : s.store.Tries e.conn (some e.source) s'.store) : Moves s (.proceed now ok) s'
  /-- A connection is accepted. -/
  | accepts {c : ConnId cfg} {fd : ℤ} {now : Time} {callback : Callback} {s' : POServer cfg}
      (hm : s.master.event = none) (hm' : s'.master.event = none) (hfd : 0 ≤ fd)
      (hclosed : ¬ 0 ≤ (s.store.conn c).fd) (hfree : s.store.connMutex c = none)
      (hsets : s.store.Sets c ((s.store.conn c).accepted fd now callback s.store.accepts)
        s'.store) :
      Moves s (.accept (.accepted fd now)) s'
  /-- A task goes on. -/
  | works {i : ℕ} {w : Worker cfg} {b : ServiceAction} {ok : Bool} {s' : POServer cfg}
      (hm : s'.master = s.master) (hw : s.store.worker i = some w)
      (hworks : s.store.Works i w b s'.store) : Moves s (.work i b ok) s'

variable {s s' t : POServer cfg} {a : Action cfg} {e : ConnEvent cfg} {rest : List (Event cfg)}
  {caller : Option (List (Event cfg))} {now : Time} {ok : Bool}

/-! ## Each step is one of the moves -/

theorem event_lookedForAccept : (s.lookedForAccept caller).master.event = none := by
  cases caller <;> rfl

theorem store_lookedForAccept : (s.lookedForAccept caller).store = s.store := by
  cases caller <;> rfl

theorem event_lookForAccept : (s.lookForAccept now caller).master.event = none := by
  unfold lookForAccept
  split_ifs
  · rfl
  · exact event_lookedForAccept

theorem store_lookForAccept : (s.lookForAccept now caller).store = s.store := by
  unfold lookForAccept
  split_ifs
  · rfl
  · exact store_lookedForAccept

/-- A step of the master that moves between events and leaves the connections alone. -/
theorem Moves.of_store (hstore : s'.store = s.store) (htries : s.tries a = none)
    (hother : ∀ i b ok, a ≠ .work i b ok) (hm : s.master.event = none)
    (hm' : s'.master.event = none) : s.Moves a s' :=
  .stays (by rw [hstore]; exact ⟨rfl, rfl, rfl⟩) htries hother (.inr ⟨hm, hm'⟩)

namespace Core

theorem moves_longSweep (h : s.Core P) (hpool : cfg.threadPool = true)
    (hm : s.master = .longSweep now) {now' : Time} {ok' : Bool} :
    s.Moves (.proceed now' ok') (s.longSweep now ok) := by
  have htries : s.tries (.proceed now' ok') = s.timedOut now cfg.longTimeout := by
    simp only [tries, hm]
  have hevent : s.master.event = none := by rw [hm]; rfl
  unfold longSweep
  split
  · rename_i c hold
    exact .sweeps hevent hevent (htries.trans hold)
      (h.sound.slots.open_first (first_of_timedOut hold))
      (Store.tries_checkTryRemoveConnection hpool)
  · rename_i hold
    exact .of_store rfl (htries.trans hold) (fun _ _ _ h ↦ nomatch h) hevent rfl

theorem moves_waitSweep (h : s.Core P) (hpool : cfg.threadPool = true)
    (hm : s.master = .waitSweep now caller) {now' : Time} {ok' : Bool} :
    s.Moves (.proceed now' ok') (s.waitSweep now caller ok) := by
  have htries : s.tries (.proceed now' ok') =
      if s.waiting = [] then none else s.timedOut now cfg.waitTimeout := by
    simp only [tries, hm]
  have hevent : s.master.event = none := by rw [hm]; rfl
  unfold waitSweep
  split
  · rename_i l waiting c hwaiting hold
    have hc : s.tries (.proceed now' ok') = some c := by
      rw [htries, hwaiting, if_neg (List.cons_ne_nil _ _), hold]
    have hopen := h.sound.slots.open_first (first_of_timedOut hold)
    split_ifs
    · exact .sweeps hevent rfl hc hopen (Store.tries_checkTryRemoveConnection hpool)
    · refine .sweeps hevent event_lookedForAccept hc hopen ?_
      rw [store_lookedForAccept]
      exact Store.tries_checkTryRemoveConnection hpool
  · rename_i hnot
    refine .of_store store_lookedForAccept ?_ (fun _ _ _ h ↦ nomatch h) hevent
      event_lookedForAccept
    rw [htries]
    cases hwaiting : s.waiting with
    | nil => rfl
    | cons l waiting =>
        rw [if_neg (List.cons_ne_nil _ _)]
        cases hold : s.timedOut now cfg.waitTimeout with
        | none => rfl
        | some c => exact (hnot l waiting c hwaiting hold).elim

theorem moves_doConnEvent (h : s.Core P) (hpool : cfg.threadPool = true)
    (hm : s.master = .events (.conn e :: rest)) :
    s.Moves (.proceed now ok) (s.doConnEvent e rest ok) := by
  unfold doConnEvent
  split_ifs with hskip hnone hready
  · exact .of_store rfl (by simp only [tries, hm]) (fun _ _ _ h ↦ nomatch h) (by rw [hm]; rfl) rfl
  · exact .finds hm (h.sound.slots.open_of_ne fun hfd ↦ hskip ⟨hpool, hfd⟩) hnone
  · exact .takes hm (h.sound.slots.open_of_ne fun hfd ↦ hskip ⟨hpool, hfd⟩)
      (Bool.not_eq_true _ ▸ hnone) hready
  · exact .passes hm (h.sound.slots.open_of_ne fun hfd ↦ hskip ⟨hpool, hfd⟩)
      (Bool.not_eq_true _ ▸ hready)

theorem moves_setReady (h : s.Core P) (hpool : cfg.threadPool = true)
    (hm : s.master = .setReady e rest) (hfree : s.store.connMutex e.conn = none) :
    s.Moves (.proceed now ok) (s.setReady e rest) := by
  have htimely := h.timely
  rw [hm] at htimely
  have hconn := Store.setReady_conn s.store e
  have hself : ((s.store.affect (some e.source) e.conn).setReady e.conn e.input e.output).conn
      e.conn = (s.store.conn e.conn).readied e := by
    rw [hconn, Function.update_self]
  unfold setReady
  dsimp only
  rw [hself]
  split_ifs with hcalls
  · refine .queues hm rfl htimely.1 hfree ?_ ?_ hconn ?_ rfl
    · rcases (Bool.or_eq_true _ _).mp hcalls with hread | hwrite
      · exact ⟨.read, hread⟩
      · exact ⟨.write, hwrite⟩
    · cases hw : s.store.worker s.store.workers with
      | none => rfl
      | some w => exact absurd (h.sound.tasks _ w hw).fresh (Nat.lt_irrefl _)
    · show Function.update s.store.worker s.store.workers (some _) = _
      rw [hself]
      rfl
  · refine .readies hm rfl htimely.1 hfree ?_ ⟨hconn, rfl, rfl⟩
    have hcalls := (Bool.or_eq_false_iff).mp (Bool.not_eq_true _ ▸ hcalls)
    rintro (_ | _)
    · exact hcalls.1
    · exact hcalls.2

theorem moves_eventEnd (h : s.Core P) (hpool : cfg.threadPool = true)
    (hm : s.master = .eventEnd e rest) :
    s.Moves (.proceed now ok) (s.eventEnd e rest ok) := by
  unfold eventEnd
  split_ifs with hcond
  · exact .hangsUp hm rfl (h.sound.slots.open_of_ne hcond.1) hcond.2
      (Store.tries_checkTryRemoveConnection hpool)
  · exact .ends hm hcond

theorem moves_proceed (h : s.Core P) (hpool : cfg.threadPool = true)
    (hs : s.proceed now ok = some s') : s.Moves (.proceed now ok) s' := by
  have hother : ∀ i b ok', (.proceed now ok : Action cfg) ≠ .work i b ok' :=
    fun _ _ _ h ↦ nomatch h
  cases proceeds hs with
  | longSweep hm => exact h.moves_longSweep hpool hm
  | acceptLoop hm hmay =>
      exact .of_store store_lookForAccept (by simp only [tries, hm]) hother (by rw [hm]; rfl)
        event_lookForAccept
  | waitSweep hm => exact h.moves_waitSweep hpool hm
  | gotEvents hm hfree =>
      exact .of_store rfl (by simp only [tries, hm]) hother (by rw [hm]; rfl) rfl
  | unlocked hm | endsBatch hm => exact .of_store rfl (by simp only [tries, hm]) hother (by rw [hm]; rfl) rfl
  | listenerEvent hm =>
      refine .of_store ?_ (by simp only [tries, hm]) hother (by rw [hm]; rfl) ?_
      · unfold doListenerEvent
        split_ifs
        · rfl
        · exact queuePush_store _
        · exact store_lookForAccept.trans (queuePush_store _)
      · unfold doListenerEvent
        split_ifs
        · rfl
        · rfl
        · exact event_lookForAccept
  | connEvent hm => exact h.moves_doConnEvent hpool hm
  | noCallback hm =>
      have htimely := h.timely
      rw [hm] at htimely
      exact .removesIdle hm rfl htimely.1 (Store.tries_checkTryRemoveConnection hpool)
  | setReady hm hfree => exact h.moves_setReady hpool hm hfree
  | runTask hm hfree => exact .returns hm hfree
  | eventEnd hm => exact h.moves_eventEnd hpool hm

theorem moves_accept {r : AcceptResult} {m : Master cfg} (h : s.Core P)
    (hm : s.afterAccept = some m) (hs : s.accept r = some t) :
    s.Moves (.accept r) { t with master := m } := by
  have hevent : s.master.event = none ∧ m.event = none := by
    obtain ⟨t, hp, rfl⟩ | ⟨t, caller, hp, rfl⟩ | ⟨rest, hp, rfl⟩ := afterAccept_cases hm <;>
      exact ⟨congrArg Master.event hp, rfl⟩
  have hother : ∀ i b ok, (.accept r : Action cfg) ≠ .work i b ok := fun _ _ _ h ↦ nomatch h
  cases r with
  | accepted fd now =>
      obtain ⟨l, waiting, -, hcan, rfl⟩ := accept_accepted_eq_some.mp hs
      rcases h.sound.slots.addConnection_open fd now (cfg.listenerCallback l) with
        ⟨c, hclosed, hfront, hsets⟩ | hsame
      · exact .accepts hevent.1 hevent.2 hcan.1 hclosed (hfront hcan.2.2.2.2) hsets
      · exact .stays hsame rfl hother (.inr hevent)
  | again =>
      cases hs
      exact .of_store queuePull_store rfl hother hevent.1 hevent.2
  | failed =>
      cases hs
      exact .stays ⟨rfl, rfl, rfl⟩ rfl hother (.inr hevent)

theorem works_serviceConnection {store : Store cfg} {i : ℕ} {w : Worker cfg} {b : ServiceAction}
    (hs : s.store.serviceConnection i w b = some store) : s.store.Works i w b store := by
  have hserve : ∀ {phase : Phase}, w.place = .serving phase →
      ((s.store.serve w.conn w.queuedFor w.source phase b).map fun r ↦
        r.1.setWorker i (some { w with place := .serving r.2 })) = some store →
      s.store.Works i w b store := by
    intro phase hp hs
    obtain ⟨⟨t, phase'⟩, ht, rfl⟩ := Option.map_eq_some_iff.mp hs
    obtain ⟨r, hr, heq⟩ := Option.map_eq_some_iff.mp ht
    cases heq
    refine .serves hp hr ?_ ?_ ?_
    · exact congrArg (Function.update · w.conn r.conn) Store.call_conn
    · exact congrArg (Function.update · i _) Store.call_worker
    · exact Store.call_connMutex
  unfold Store.serviceConnection at hs
  cases hp : w.place with
  | queued =>
      simp only [hp] at hs
      split_ifs at hs with hcond
      cases hs
      simp only [Bool.and_eq_true, beq_iff_eq, Option.isNone_iff_eq_none] at hcond
      obtain ⟨hfree, rfl⟩ := hcond
      exact .locks hp hfree
  | locked =>
      simp only [hp] at hs
      split_ifs at hs with hgo hcount
      · cases hs
        cases beq_iff_eq.mp hgo
        exact .leaves hp hcount
      · cases hs
        cases beq_iff_eq.mp hgo
        exact .begins hp (not_not.mp hcount)
  | serving phase =>
      cases phase with
      | done removeMe =>
          simp only [hp] at hs
          split_ifs at hs with hgo
          cases hs
          cases beq_iff_eq.mp hgo
          exact .unlocks hp
      | test d removeMe =>
          simp only [hp] at hs
          exact hserve hp hs
      | inCallback d removeMe =>
          simp only [hp] at hs
          exact hserve hp hs
      | check removeMe =>
          simp only [hp] at hs
          exact hserve hp hs
  | lockServer removeMe => simp only [hp, reduceCtorEq] at hs
  | lockConn removeMe => simp only [hp, reduceCtorEq] at hs

theorem moves_work {i : ℕ} {w : Worker cfg} {b : ServiceAction} (hpool : cfg.threadPool = true)
    (hrun : s.store.exited = false) (hw : s.store.worker i = some w)
    (hs : s.work i w b ok = some s') : s.Moves (.work i b ok) s' := by
  cases taskProceeds hs with
  | lockServer hp hfree ha =>
      subst ha
      exact .works rfl hw (.locksServer hp)
  | lockConn hp hfree ha =>
      subst ha
      exact .works rfl hw (Store.works_finishService hpool hrun hp hfree)
  | service hp hstore => exact .works rfl hw (works_serviceConnection hstore)

/-- **Every step of the server with threads is one of the moves.** -/
theorem moves (h : s.Core P) (hpool : cfg.threadPool = true) (hs : step s a = some s') :
    s.Moves a s' := by
  have hrun := running_of_step hs
  cases a with
  | doNextEvents now =>
      obtain ⟨-, hcond, rfl⟩ := step_doNextEvents_eq_some.mp hs
      split_ifs
      · exact .of_store rfl rfl (fun _ _ _ h ↦ nomatch h) (by rw [hcond.1]; rfl) rfl
      · exact .of_store rfl rfl (fun _ _ _ h ↦ nomatch h) (by rw [hcond.1]; rfl) rfl
  | proceed now ok => exact h.moves_proceed hpool (step_proceed_eq_some.mp hs).2
  | accept r =>
      obtain ⟨-, m, hm, t, ht, rfl⟩ := step_accept_eq_some.mp hs
      exact h.moves_accept hm ht
  | epollWait batch =>
      obtain ⟨-, hcond, rfl⟩ := step_epollWait_eq_some.mp hs
      exact .of_store rfl rfl (fun _ _ _ h ↦ nomatch h) (by rw [hcond.1]; rfl) rfl
  | serve b ok =>
      obtain ⟨-, e, rest, phase, hm, -⟩ := step_serve_eq_some.mp hs
      have htimely := h.timely
      rw [hm] at htimely
      exact absurd (hpool.symm.trans htimely.1) Bool.noConfusion
  | work i b ok =>
      obtain ⟨-, w, hw, hs⟩ := step_work_eq_some.mp hs
      exact moves_work hpool hrun hw hs
  | stop =>
      obtain ⟨-, rfl⟩ := step_stop_eq_some.mp hs
      exact .stays ⟨rfl, rfl, rfl⟩ rfl (fun _ _ _ h ↦ nomatch h) (.inl ⟨rfl, rfl⟩)
  | shutdown =>
      obtain ⟨-, hcond, rfl⟩ := step_shutdown_eq_some.mp hs
      exact .of_store rfl rfl (fun _ _ _ h ↦ nomatch h) (by rw [hcond]; rfl) (by
        show s.master.event = none
        rw [hcond]
        rfl)

end Core

end POServer

end Tidbits.Server
