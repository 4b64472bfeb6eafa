import Tidbits.Server.Invariant

/-!
# Every step keeps the invariant

One lemma for each place of the master.  The conditions `Takes` and `TakesOpen`
are used where `doEvent` takes up a connection event, and nowhere else.
-/

namespace Tidbits.Server

variable {cfg : Config} {P : ℕ → ℕ → Prop}

namespace POServer

variable {s s' t : POServer cfg} {c : ConnId cfg} {e : ConnEvent cfg} {rest : List (Event cfg)}
  {caller : Option (List (Event cfg))} {source : Option ℕ} {now : Time} {ok : Bool}

/-! ## What the master finds -/

theorem first_of_timedOut {timeout : ℤ} (h : s.timedOut now timeout = some c) :
    s.store.lists.first = some c := (Option.filter_eq_some_iff.mp h).1

@[simp] theorem queuePush_store (l : ListenerId cfg) : (s.queuePush l).store = s.store := by
  unfold queuePush
  split_ifs <;> rfl

@[simp] theorem queuePush_serverMutex (l : ListenerId cfg) :
    (s.queuePush l).serverMutex = s.serverMutex := by
  unfold queuePush
  split_ifs <;> rfl

@[simp] theorem queuePull_store : s.queuePull.store = s.store := by
  unfold queuePull
  split <;> rfl

@[simp] theorem queuePull_serverMutex : s.queuePull.serverMutex = s.serverMutex := by
  unfold queuePull
  split <;> rfl

namespace Core

/-- The master goes on without touching a connection. -/
theorem steps_move (h : s.Core P) (hrun : s.store.exited = false) (hm : s.master.Holds)
    (hstore : t.store = s.store) (hmutex : t.serverMutex = s.serverMutex) (hm' : t.master.Holds)
    (htimely : t.master.Timely P s.store) : Steps P s t :=
  h.steps_same hrun hstore hmutex (iff_of_true hm' hm) htimely

/-! ## The timeout sweeps -/

theorem steps_checkTryRemove (h : s.Core P) (hm : s.master.Holds)
    (hopen : 0 ≤ (s.store.conn c).fd) (hsource : ∀ n ∈ source, P n (s.store.conn c).acceptNo)
    {m : Master cfg} (hm' : m.Holds) (htimely : ∀ store, m.Timely P store) :
    Steps P s { s.checkTryRemove c source ok with master := m } :=
  h.steps_holding hm (h.sound.change_checkTryRemoveConnection hopen hsource)
    (fun _ ↦ Store.finishing_of_worker Store.checkTryRemoveConnection_worker) rfl hm'
    fun _ ↦ htimely _

theorem steps_lookedForAccept (h : s.Core P) (hrun : s.store.exited = false)
    (hm : s.master.Holds) (hstore : t.store = s.store) (hmutex : t.serverMutex = s.serverMutex) :
    Steps P s (t.lookedForAccept caller) := by
  cases caller with
  | none =>
      refine h.steps_unlock hm ?_ ?_ ?_ rfl id trivial
      · exact (congrArg Store.exited hstore).trans hrun
      · show s.store.Change P t.store
        rw [hstore]
        exact .refl h.sound
      · exact fun i ↦ Store.finishing_of_worker (congrArg Store.worker hstore)
  | some rest => exact h.steps_move hrun hm hstore hmutex trivial trivial

theorem steps_lookForAccept (h : s.Core P) (hrun : s.store.exited = false)
    (hm : s.master.Holds) (hstore : t.store = s.store) (hmutex : t.serverMutex = s.serverMutex) :
    Steps P s (t.lookForAccept now caller) := by
  unfold lookForAccept
  split_ifs
  · exact h.steps_move hrun hm hstore hmutex trivial trivial
  · exact h.steps_lookedForAccept hrun hm hstore hmutex

theorem steps_waitSweep (h : s.Core P) (hrun : s.store.exited = false) (hm : s.master.Holds) :
    Steps P s (s.waitSweep now caller ok) := by
  unfold waitSweep
  split
  · rename_i l rest c hwaiting hold
    have hopen := h.sound.slots.open_first (first_of_timedOut hold)
    split_ifs with hlock
    · exact h.steps_checkTryRemove hm hopen (by rintro n ⟨⟩) trivial fun _ ↦ trivial
    · cases caller with
      | none =>
          have hexited := Store.checkTryRemoveConnection_exited (Bool.not_eq_true _ ▸ hlock)
          refine h.steps_unlock hm (hexited.trans hrun) ?_ ?_ rfl id trivial
          · exact h.sound.change_checkTryRemoveConnection hopen fun _ hn ↦ nomatch hn
          · exact fun _ ↦ Store.finishing_of_worker Store.checkTryRemoveConnection_worker
      | some rest =>
          exact h.steps_checkTryRemove hm hopen (by rintro n ⟨⟩) trivial fun _ ↦ trivial
  · exact h.steps_lookedForAccept hrun hm rfl rfl

theorem steps_longSweep (h : s.Core P) (hrun : s.store.exited = false)
    (hm : s.master = .longSweep now) : Steps P s (s.longSweep now ok) := by
  have hholds : s.master.Holds := hm ▸ trivial
  unfold longSweep
  split
  · rename_i c hold
    refine h.steps_holding hholds (h.sound.change_checkTryRemoveConnection ?_ ?_) ?_ rfl ?_ ?_
    · exact h.sound.slots.open_first (first_of_timedOut hold)
    · exact fun _ hn ↦ nomatch hn
    · exact fun _ ↦ Store.finishing_of_worker Store.checkTryRemoveConnection_worker
    · exact hholds
    · intro _
      show s.master.Timely P _
      rw [hm]
      trivial
  · exact h.steps_move hrun hholds rfl rfl trivial trivial

/-! ## Accepting -/

theorem steps_accept {r : AcceptResult} {m : Master cfg} (h : s.Core P)
    (hrun : s.store.exited = false) (hm : s.afterAccept = some m) (hs : s.accept r = some s') :
    Steps P s { s' with master := m } := by
  have hholds : s.master.Holds ∧ m.Holds ∧ ∀ store, m.Timely P store := by
    obtain ⟨t, hp, rfl⟩ | ⟨t, caller, hp, rfl⟩ | ⟨rest, hp, rfl⟩ := afterAccept_cases hm <;>
      exact ⟨hp ▸ trivial, trivial, fun _ ↦ trivial⟩
  obtain ⟨hm, hm', htimely⟩ := hholds
  cases r with
  | accepted fd now =>
      obtain ⟨l, waiting, -, hcan, rfl⟩ := accept_accepted_eq_some.mp hs
      refine h.steps_holding hm (h.sound.change_addConnection hcan.1) ?_ rfl hm'
        fun _ ↦ htimely _
      refine fun _ ↦ Store.finishing_of_worker ?_
      show (s.store.addConnection fd now (cfg.listenerCallback l)).worker = s.store.worker
      unfold Store.addConnection
      split <;> rfl
  | again =>
      cases hs
      exact h.steps_move hrun hm queuePull_store queuePull_serverMutex hm' (htimely _)
  | failed =>
      cases hs
      exact h.steps_holding hm (.exit s.store) (fun _ ↦ id) rfl hm' fun _ ↦ htimely _

/-! ## The events -/

theorem steps_doListenerEvent {l : ListenerId cfg} (h : s.Core P) (hrun : s.store.exited = false)
    (hm : s.master.Holds) : Steps P s (s.doListenerEvent l rest now) := by
  unfold doListenerEvent
  split_ifs
  · exact h.steps_move hrun hm rfl rfl trivial trivial
  · exact h.steps_move hrun hm (queuePush_store l) (queuePush_serverMutex l) trivial trivial
  · exact h.steps_lookForAccept hrun hm (queuePush_store l) (queuePush_serverMutex l)

theorem steps_removeIdle (h : s.Core P) (hm : s.master.Holds)
    (hfound : 0 ≤ (s.store.conn e.conn).fd ∧ P e.source (s.store.conn e.conn).acceptNo) :
    Steps P s (s.removeIdle e rest ok) := by
  refine h.steps_checkTryRemove hm hfound.1 ?_ trivial fun _ ↦ trivial
  rintro n ⟨⟩
  exact hfound.2

/-- **The step of `doEvent` that takes up a connection event.** -/
theorem steps_doConnEvent (h : s.Core P) (hrun : s.store.exited = false) (hm : s.master.Holds)
    (htakes : (cfg.threadPool = true ∧ (s.store.conn e.conn).fd = -1) ∨
      e.actsOn (s.store.conn e.conn) = false ∨ P e.source (s.store.conn e.conn).acceptNo)
    (hopen : cfg.threadPool = true ∨ (s.store.conn e.conn).fd ≠ -1) :
    Steps P s (s.doConnEvent e rest ok) := by
  have hfound : ¬ (cfg.threadPool = true ∧ (s.store.conn e.conn).fd = -1) →
      (s.store.conn e.conn).noCallback = true →
        0 ≤ (s.store.conn e.conn).fd ∧ P e.source (s.store.conn e.conn).acceptNo := by
    intro hskip hcallback
    refine ⟨h.sound.slots.open_of_ne fun hfd ↦ ?_, ?_⟩
    · rcases hopen with hpool | hne
      · exact hskip ⟨hpool, hfd⟩
      · exact hne hfd
    · rcases htakes with htakes | htakes | htakes
      · exact absurd htakes hskip
      · simp [ConnEvent.actsOn, hcallback] at htakes
      · exact htakes
  unfold doConnEvent
  split_ifs with hskip hcallback hpool hinput
  · exact h.steps_move hrun hm rfl rfl trivial trivial
  · exact h.steps_move hrun hm rfl rfl trivial (hfound hskip hcallback)
  · exact h.steps_removeIdle hm (hfound hskip hcallback)
  · have hfd : 0 ≤ (s.store.conn e.conn).fd := by
      refine Decidable.byContradiction fun hclosed ↦ hcallback ?_
      exact (h.sound.slots.closed e.conn (Int.not_le.mp hclosed)).noCallback
    refine h.steps_move hrun hm rfl rfl trivial ⟨hfd, ?_⟩
    rcases htakes with htakes | htakes | htakes
    · exact absurd htakes hskip
    · simp only [ConnEvent.actsOn, Bool.or_eq_false_iff] at htakes
      simp [htakes] at hinput
    · exact htakes
  · refine h.steps_move hrun hm rfl rfl trivial ?_
    rcases htakes with htakes | htakes | htakes
    · exact absurd htakes hskip
    · simp only [ConnEvent.actsOn, Bool.or_eq_false_iff] at htakes
      left
      simp [htakes]
    · exact .inr htakes

theorem steps_setReady (h : s.Core P) (hrun : s.store.exited = false)
    (hm : s.master = .setReady e rest) : Steps P s (s.setReady e rest) := by
  have hholds : s.master.Holds := hm ▸ trivial
  have htimely := h.timely
  rw [hm] at htimely
  obtain ⟨hopen, hsource⟩ := htimely
  have hchange := h.sound.change_setReady hopen hsource e.input e.output
  have huse : (s.store.conn e.conn).SameUse (((s.store.affect (some e.source) e.conn).setReady
      e.conn e.input e.output).conn e.conn) := by
    refine Store.sameUse_setConn (s := s.store.affect (some e.source) e.conn) ?_ e.conn
    cases e.input <;> cases e.output <;> exact ⟨rfl, rfl, rfl⟩
  have hopen' : 0 ≤ (((s.store.affect (some e.source) e.conn).setReady
      e.conn e.input e.output).conn e.conn).fd := huse.fd.symm ▸ hopen
  have hsource' : P e.source (((s.store.affect (some e.source) e.conn).setReady
      e.conn e.input e.output).conn e.conn).acceptNo := huse.acceptNo.symm ▸ hsource
  have hfin : ∀ i, ((s.store.affect (some e.source) e.conn).setReady
      e.conn e.input e.output).Finishing i → s.store.Finishing i :=
    fun i ↦ Store.finishing_of_worker Store.affect_worker
  unfold setReady
  dsimp only
  split_ifs with hcalls hpool
  · exact h.steps_unlock hholds hrun (hchange.newWorker hpool hopen' hsource')
      (fun i hi ↦ hfin i (Store.finishing_newWorker hi)) rfl id hsource'
  · exact h.steps_holding hholds hchange hfin rfl trivial
      fun _ ↦ ⟨Bool.not_eq_true _ ▸ hpool, hopen', hsource'⟩
  · exact h.steps_holding hholds hchange hfin rfl trivial fun _ ↦ .inr hsource'

theorem steps_eventEnd (h : s.Core P) (hrun : s.store.exited = false)
    (hm : s.master = .eventEnd e rest) : Steps P s (s.eventEnd e rest ok) := by
  have hholds : s.master.Holds := hm ▸ trivial
  have htimely := h.timely
  rw [hm] at htimely
  unfold eventEnd
  split_ifs with hcond
  · refine h.steps_checkTryRemove hholds (h.sound.slots.open_of_ne hcond.1) ?_ trivial
      fun _ ↦ trivial
    rintro n ⟨⟩
    exact htimely.resolve_left (by simp [hcond.2])
  · exact h.steps_move hrun hholds rfl rfl trivial trivial

/-- `ServiceConnection()` of the build without threads. -/
theorem steps_serve {phase : Phase} {a : ServiceAction} (h : s.Core P)
    (hrun : s.store.exited = false) (hm : s.master = .serving e rest phase)
    (hs : s.serve e rest ok phase a = some s') : Steps P s s' := by
  have hholds : s.master.Holds := hm ▸ trivial
  have htimely := h.timely
  rw [hm] at htimely
  obtain ⟨hpool, hopen, hsource⟩ := htimely
  have hcall : ((s.store.serve e.conn (s.store.conn e.conn).acceptNo e.source phase a).map
      fun r ↦ { s with store := r.1, master := .serving e rest r.2 }) =
        some s' → Steps P s s' := by
    intro hs
    obtain ⟨⟨store, phase'⟩, hserve, rfl⟩ := Option.map_eq_some_iff.mp hs
    obtain ⟨called, conn, hserved, rfl⟩ := Store.serve_cases hserve
    have huse := Store.sameUse_call (s.store.conn e.conn).acceptNo e.source called hserved e.conn
    refine h.steps_holding hholds (h.sound.change_call hopen rfl hsource hserved)
      (fun i ↦ Store.finishing_of_worker Store.call_worker) rfl trivial fun _ ↦ ⟨hpool, ?_⟩
    rw [huse.fd, huse.acceptNo]
    exact ⟨hopen, hsource⟩
  cases phase with
  | done removeMe =>
      cases a with
      | go =>
          cases hs
          cases removeMe with
          | true =>
              refine h.steps_holding hholds (h.sound.change_remove hopen ?_ ?_) ?_ rfl trivial
                fun _ ↦ .inr ?_
              · exact fun hpool' ↦ absurd (hpool.symm.trans hpool') Bool.false_ne_true
              · rintro n ⟨⟩
                exact hsource
              · exact fun i ↦ Store.finishing_of_worker
                  (Store.removeConnection_worker.trans Store.affect_worker)
              · have hages := Store.ages_removeConnection
                  (s.store.affect (some e.source) e.conn) e.conn ok e.conn
                rw [Store.affect_conn] at hages
                exact hages.1.symm ▸ hsource
          | false => exact h.steps_move hrun hholds rfl rfl trivial (.inr hsource)
      | setCallback d callback => exact hcall hs
      | setCleanupCallback callback => exact hcall hs
      | returns value => exact hcall hs
  | test d removeMe => exact hcall hs
  | inCallback d removeMe => exact hcall hs
  | check removeMe => exact hcall hs

end Core

end POServer

end Tidbits.Server
