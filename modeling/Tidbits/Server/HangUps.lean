import Tidbits.Server.Causes

/-!
# Requests before a hang-up

An event with `EPOLLIN` may carry `EPOLLRDHUP` or `EPOLLERR` too: the peer sent a
request and closed its side.  Without threads `doEvent` services the connection
before it removes it.  With threads it queues the service, and tries to remove the
connection right after that.

An observer watches one such event: from the point where `doEvent` has locked the connection mutex
and finds the read callback installed, whether the read callback is called, and whether the
connection was marked because of the event.  Which event it watches is chosen with the labels of the
run, so that what holds of the watched event holds of each.
-/

namespace Tidbits.Server

open Tidbits.Transition

variable {cfg : Config} {P : ℕ → ℕ → Prop}

/-- A watched event. -/
structure Watch (cfg : Config) where
  /-- The connection of the event. -/
  conn : ConnId cfg
  /-- `doEvent` still works on the event. -/
  handling : Bool
  /-- Since the event, a task has begun its pass over the connection. -/
  taken : Bool
  /-- Since the event, the read callback was called. -/
  called : Bool
  /-- The connection was marked because of the event. -/
  pending : Bool
deriving DecidableEq, Repr

namespace Worker

/-- The task compares the change counts, and finds that they are the same. -/
def begins (w : Worker cfg) (conn : Connection) : Bool :=
  match w.place with
  | .locked => decide (w.changeCount = conn.changeCount)
  | _ => false

/-- The step of the task calls the read callback. -/
def reads (w : Worker cfg) (conn : Connection) (b : ServiceAction) : Bool :=
  match w.place with
  | .serving phase => (conn.serve phase b).any fun r ↦ decide (r.called = some .read)
  | _ => false

/-- The task is at its test for a call of the read callback. -/
def AtRead (w : Worker cfg) : Prop := ∃ removeMe, w.place = .serving (.test .read removeMe)

/-- The task is at its removal test, and not to remove the connection for a reason of its own. -/
def leavesMark (w : Worker cfg) (conn : Connection) : Bool :=
  match w.place with
  | .lockConn removeMe => !(decide (conn.changeCount = w.changeCount) && removeMe)
  | _ => false

end Worker

namespace POServer

/-- The event whose readiness `doEvent` records in the step. -/
def records (s : POServer cfg) : Action cfg → Option (ConnEvent cfg)
  | .proceed _ _ =>
      match s.master with
      | .setReady e _ => some e
      | _ => none
  | _ => none

/-- A step of a task for the connection that passes the test. -/
def worksOn (s : POServer cfg) (c : ConnId cfg) (test : Worker cfg → ServiceAction → Bool) :
    Action cfg → Bool
  | .work i b _ => (s.store.worker i).any fun w ↦ decide (w.conn = c) && test w b
  | _ => false

/-- The watch that can be set in the step: on an event with `EPOLLIN` and with `EPOLLRDHUP` or
`EPOLLERR`, for a connection whose read callback is installed. -/
def watchable (s : POServer cfg) (a : Action cfg) : Option (Watch cfg) :=
  ((s.records a).filter fun e ↦
    e.input && (e.hangUp || e.error) && ((s.store.conn e.conn).callback .read).isSome).map
    fun e ↦ ⟨e.conn, true, false, false, false⟩

/-- The watch after the step. -/
def watches (s : POServer cfg) (a : Action cfg) (w : Watch cfg) : Watch cfg :=
  { w with
    handling := w.handling && (s.endsWith a).isNone
    taken := w.taken || s.worksOn w.conn (fun wk _ ↦ wk.begins (s.store.conn w.conn)) a
    called := w.called || s.worksOn w.conn (fun wk b ↦ wk.reads (s.store.conn w.conn) b) a
    pending := w.pending ||
      (w.handling && (s.endsWith a).isSome && (s.store.connMutex w.conn).isSome) }

/-- The watch is given up when the connection is gone, and replaced by a chosen one. -/
def notesWatch (s : POServer cfg) (a : Action cfg × Bool) (w : Option (Watch cfg)) :
    Option (Watch cfg) :=
  if a.2 && (s.watchable a.1).isSome then s.watchable a.1
  else (w.filter fun w ↦ decide (0 ≤ (s.store.conn w.conn).fd)).map (s.watches a.1)

/-- If the step removes the connection of the watched event, then because of that event. -/
def actsFor (s : POServer cfg) (a : Action cfg) (w : Watch cfg) : Bool :=
  w.handling && (s.endsWith a).isSome ||
    w.pending && s.worksOn w.conn (fun wk _ ↦ wk.leavesMark (s.store.conn w.conn)) a

/-- The step removes the live connection of the watched event, because of that event. -/
def RemovesFor (s : POServer cfg) (a : Action cfg) (s' : POServer cfg) (w : Watch cfg) : Prop :=
  s.actsFor a w = true ∧ 0 ≤ (s.store.conn w.conn).fd ∧ (s'.store.conn w.conn).fd = -1

/-- When the connection of the watched event is to be removed because of the event, and its mutex
is free, a task has begun its pass over the connection since the event. -/
def InTime (p : POServer cfg × Option (Watch cfg)) (a : Action cfg × Bool) : Prop :=
  ∀ w ∈ p.2, 0 ≤ (p.1.store.conn w.conn).fd → p.1.actsFor a.1 w = true →
    p.1.store.connMutex w.conn = none → w.taken = true

instance (p : POServer cfg × Option (Watch cfg)) (a : Action cfg × Bool) : Decidable (InTime p a) :=
  inferInstanceAs (Decidable (∀ w ∈ p.2, _))

instance (s : POServer cfg) (a : Action cfg) (s' : POServer cfg) (w : Watch cfg) :
    Decidable (s.RemovesFor a s' w) := inferInstanceAs (Decidable (_ ∧ _))

end POServer

namespace Store

/-- Until a task begins its pass, the read callback waits to be called; then it is called first. -/
structure Reads (s : Store cfg) (c : ConnId cfg) (taken called : Bool) : Prop where
  waits : taken = false → called = false ∧ (s.conn c).calls .read = true ∧
    ∀ i w phase, s.worker i = some w → w.conn = c → w.place ≠ .serving phase
  reads : taken = true → called = false → (s.conn c).calls .read = true ∧
    ∃ i w, s.worker i = some w ∧ w.conn = c ∧ w.AtRead

variable {s s' : Store cfg} {c : ConnId cfg} {taken called : Bool} {i : ℕ} {w : Worker cfg}
  {b : ServiceAction}

namespace Reads

/-- The readiness may be set, and tasks may be created. -/
theorem mono (h : s.Reads c taken called)
    (hcalls : (s.conn c).calls .read = true → (s'.conn c).calls .read = true)
    (hold : ∀ i w, s.worker i = some w → s'.worker i = some w)
    (hnew : ∀ i w, s'.worker i = some w → s.worker i = some w ∨ w.place = .queued) :
    s'.Reads c taken called where
  waits := by
    intro htaken
    obtain ⟨hcalled, hcall, hnone⟩ := h.waits htaken
    refine ⟨hcalled, hcalls hcall, fun j w phase hj hc hp ↦ ?_⟩
    rcases hnew j w hj with hj | hq
    · exact hnone j w phase hj hc hp
    · rw [hq] at hp
      cases hp
  reads := by
    intro htaken hcalled
    obtain ⟨hcall, j, w, hj, hread⟩ := h.reads htaken hcalled
    exact ⟨hcalls hcall, j, w, hold j w hj, hread⟩

theorem of_same (h : s.Reads c taken called) (hsame : s.Same s') : s'.Reads c taken called :=
  h.mono (by rw [hsame.conn]; exact id) (fun _ _ hw ↦ by rw [hsame.worker]; exact hw)
    fun _ _ hw ↦ .inl (by rw [← hsame.worker]; exact hw)

theorem of_tries {d : ConnId cfg} {source : Option ℕ} (h : s.Reads c taken called)
    (htries : s.Tries d source s') (hopen : 0 ≤ (s'.conn c).fd) : s'.Reads c taken called := by
  obtain ⟨hcallback, hready, -⟩ := htries.conn_of_open hopen
  refine h.mono ?_ (fun _ _ hw ↦ ?_) fun _ _ hw ↦ .inl ?_
  · unfold Connection.calls
    rw [hcallback, hready]
    exact id
  · rw [htries.worker]
    exact hw
  · rw [← htries.worker]
    exact hw

/-- A task moves that is neither at its first test nor in its pass afterwards. -/
theorem of_place {w' : Option (Worker cfg)} (h : s.Reads c taken called)
    (hw : s.worker i = some w) (hout : ¬ w.AtRead) (hconn : s'.conn c = s.conn c)
    (hself : s'.worker i = w') (hother : ∀ j, j ≠ i → s'.worker j = s.worker j)
    (hw' : ∀ w₁ ∈ w', ∀ phase, w₁.place ≠ .serving phase) : s'.Reads c taken called where
  waits := by
    intro htaken
    obtain ⟨hcalled, hcall, hnone⟩ := h.waits htaken
    refine ⟨hcalled, hconn ▸ hcall, fun j wj phase hj hc ↦ ?_⟩
    by_cases hji : j = i
    · subst hji
      exact hw' wj (hself.symm.trans hj) phase
    · exact hnone j wj phase ((hother j hji).symm.trans hj) hc
  reads := by
    intro htaken hcalled
    obtain ⟨hcall, j, wj, hj, hc, hread⟩ := h.reads htaken hcalled
    refine ⟨hconn ▸ hcall, j, wj, ?_, hc, hread⟩
    have hji : j ≠ i := by
      rintro rfl
      cases hj.symm.trans hw
      exact hout hread
    exact (hother j hji).trans hj

/-- A task for another connection moves. -/
theorem of_ne (h : s.Reads c taken called) (hworks : s.Works i w b s')
    (hw : s.worker i = some w) (hc : c ≠ w.conn) : s'.Reads c taken called where
  waits := by
    intro htaken
    obtain ⟨hcalled, hcall, hnone⟩ := h.waits htaken
    refine ⟨hcalled, by rw [hworks.conn_of_ne hc]; exact hcall, fun j wj phase hj hcj ↦ ?_⟩
    by_cases hji : j = i
    · subst hji
      rcases hworks.worker_self hw with hend | ⟨place, hself⟩
      · cases hend.symm.trans hj
      · cases hself.symm.trans hj
        exact absurd hcj.symm hc
    · exact hnone j wj phase ((hworks.worker_of_ne hji).symm.trans hj) hcj
  reads := by
    intro htaken hcalled
    obtain ⟨hcall, j, wj, hj, hcj, hread⟩ := h.reads htaken hcalled
    refine ⟨by rw [hworks.conn_of_ne hc]; exact hcall, j, wj, ?_, hcj, hread⟩
    have hji : j ≠ i := by
      rintro rfl
      cases hj.symm.trans hw
      exact hc hcj.symm
    exact (hworks.worker_of_ne hji).trans hj

/-- **The first pass over the connection calls the read callback first.** -/
theorem of_works (h : s.Reads w.conn taken called) (htasks : s.Tasks P)
    (hworks : s.Works i w b s') (hw : s.worker i = some w) (hopen : 0 ≤ (s'.conn w.conn).fd) :
    s'.Reads w.conn (taken || w.begins (s.conn w.conn))
      (called || w.reads (s.conn w.conn) b) := by
  have hidle : w.begins (s.conn w.conn) = false → w.reads (s.conn w.conn) b = false →
      s'.Reads w.conn taken called →
      s'.Reads w.conn (taken || w.begins (s.conn w.conn))
        (called || w.reads (s.conn w.conn) b) := by
    intro hbegins hreads h
    rwa [hbegins, hreads, Bool.or_false, Bool.or_false]
  have hplace : ∀ {w' : Option (Worker cfg)}, ¬ w.AtRead →
      w.begins (s.conn w.conn) = false → w.reads (s.conn w.conn) b = false →
      s'.conn w.conn = s.conn w.conn → s'.worker i = w' →
      (∀ w₁ ∈ w', ∀ phase, w₁.place ≠ .serving phase) →
      s'.Reads w.conn (taken || w.begins (s.conn w.conn))
        (called || w.reads (s.conn w.conn) b) :=
    fun hout hbegins hreads hconn hself hw' ↦ hidle hbegins hreads
      (h.of_place hw hout hconn hself (fun j hji ↦ hworks.worker_of_ne hji) hw')
  have hout : ∀ {place : Place}, w.place = place → (∀ m, place ≠ .serving (.test .read m)) →
      ¬ w.AtRead := by
    rintro place hp hne ⟨m, hm⟩
    exact hne m (hp.symm.trans hm)
  cases hworks with
  | locks hp hfree =>
      refine hplace (hout hp fun m hm ↦ (by cases hm)) (by rw [Worker.begins, hp])
        (by rw [Worker.reads, hp]) rfl (Function.update_self i _ _) ?_
      rintro w₁ ⟨⟩ phase hm
      cases hm
  | leaves hp hcount =>
      refine hplace (hout hp fun m hm ↦ (by cases hm)) ?_ (by rw [Worker.reads, hp]) rfl
        (Function.update_self i _ _) fun _ hw₁ ↦ (by cases hw₁)
      rw [Worker.begins, hp]
      exact decide_eq_false hcount
  | begins hp hcount =>
      have hreads : w.reads (s.conn w.conn) .go = false := by rw [Worker.reads, hp]
      have hbegins : w.begins (s.conn w.conn) = true := by
        rw [Worker.begins, hp]
        exact decide_eq_true hcount
      rw [hbegins, hreads, Bool.or_true, Bool.or_false]
      refine ⟨fun hno ↦ absurd hno.symm Bool.false_ne_true, fun _ hcalled ↦ ?_⟩
      cases htaken : taken with
      | false =>
          exact ⟨(h.waits htaken).2.1, i, _, Function.update_self i _ _, rfl, false, rfl⟩
      | true =>
          obtain ⟨hcall, j, wj, hj, hc, hread⟩ := h.reads htaken hcalled
          refine ⟨hcall, j, wj, ?_, hc, hread⟩
          have hji : j ≠ i := by
            rintro rfl
            cases hj.symm.trans hw
            exact hout hp (fun m hm ↦ (by cases hm)) hread
          exact (Function.update_of_ne hji _ _).trans hj
  | @serves phase b r s' hp hr hconn hworker hmutex =>
      have hbegins : w.begins (s.conn w.conn) = false := by rw [Worker.begins, hp]
      have hreads : w.reads (s.conn w.conn) b = decide (r.called = some .read) := by
        rw [Worker.reads, hp]
        simp only [hr, Option.any_some]
      rw [hbegins, hreads, Bool.or_false]
      refine ⟨fun htaken ↦ absurd hp ((h.waits htaken).2.2 i w phase hw rfl), ?_⟩
      intro htaken hcalled
      obtain ⟨hcalled, hnot⟩ := Bool.or_eq_false_iff.mp hcalled
      obtain ⟨hcall, j, wj, hj, hc, m, hread⟩ := h.reads htaken hcalled
      -- two holders of the mutex are the same task
      have hjown := (htasks j wj hj).locks (by rw [hread]; trivial)
      have hiown := (htasks i w hw).locks (by rw [hp]; trivial)
      rw [hc] at hjown
      cases hjown.symm.trans hiown
      cases hj.symm.trans hw
      cases hread.symm.trans hp
      refine absurd ?_ (of_decide_eq_false hnot)
      cases b with
      | go =>
          rw [Connection.serve, if_pos hcall] at hr
          cases hr
          rfl
      | setCallback | setCleanupCallback | returns => cases hr
  | unlocks hp =>
      refine hplace (hout hp fun m hm ↦ (by cases hm)) (by rw [Worker.begins, hp]) ?_ rfl
        (Function.update_self i _ _) ?_
      · rw [Worker.reads, hp]
        rfl
      · rintro w₁ ⟨⟩ phase hm
        cases hm
  | locksServer hp =>
      refine hplace (hout hp fun m hm ↦ (by cases hm)) (by rw [Worker.begins, hp])
        (by rw [Worker.reads, hp]) rfl (Function.update_self i _ _) ?_
      rintro w₁ ⟨⟩ phase hm
      cases hm
  | finishes hp hfree hkeep =>
      exact hplace (hout hp fun m hm ↦ (by cases hm)) (by rw [Worker.begins, hp])
        (by rw [Worker.reads, hp]) rfl (Function.update_self i _ _) fun _ hw₁ ↦ (by cases hw₁)
  | removes hp hfree hcause hsets =>
      rw [hsets.conn_self] at hopen
      exact absurd hopen (Connection.closed_reset true).not_open
  | exits hp hfree hcause hsame hexit =>
      exact hidle (by rw [Worker.begins, hp]) (by rw [Worker.reads, hp]) (h.of_same hsame)

end Reads

/-- An attempt to remove a connection whose mutex is held marks it. -/
theorem Tries.marked_of_held {source : Option ℕ} (h : s.Tries c source s')
    (hheld : (s.connMutex c).isSome = true) : (s'.conn c).markedForRemoval = true := by
  cases h with
  | removes hfree hsets => simp [hfree] at hheld
  | exits hfree hsame hexit => simp [hfree] at hheld
  | marks hheld' hsets => exact congrArg Connection.markedForRemoval hsets.conn_self

end Store

namespace POServer

/-- What is known of a watch as long as its connection is in use. -/
structure Watched (s : POServer cfg) (w : Watch cfg) : Prop where
  reads : s.store.Reads w.conn w.taken w.called
  handles : w.handling = true → ∃ e rest,
    (s.master = .runTask e rest ∨ s.master = .eventEnd e rest) ∧ e.conn = w.conn ∧
      (e.hangUp || e.error) = true
  pends : w.pending = true → (s.store.conn w.conn).markedForRemoval = true

variable {s s' : POServer cfg} {a : Action cfg} {w : Watch cfg}
  {listenerFd : ListenerId cfg → ℤ}

theorem endsWith_of_event (hm : s.master.event = none) : s.endsWith a = none := by
  cases hend : s.endsWith a with
  | none => rfl
  | some e =>
      obtain ⟨now, ok, rest, -, hm'⟩ := endsWith_eq_some hend
      rw [hm'] at hm
      cases hm

/-- The step of the master, or of the outside, while `doEvent` does not end. -/
theorem watches_of_other (hother : ∀ i b ok, a ≠ .work i b ok) (hend : s.endsWith a = none) :
    s.watches a w = w := by
  have hworks : ∀ test, s.worksOn w.conn test a = false := by
    intro test
    cases a with
    | work i b ok => exact absurd rfl (hother i b ok)
    | _ => rfl
  simp [watches, hworks, hend]

theorem Watched.not_handling (h : s.Watched w) (hm : ∀ e rest, s.master ≠ .runTask e rest)
    (hm' : ∀ e rest, s.master ≠ .eventEnd e rest) : w.handling = false := by
  refine Bool.eq_false_iff.mpr fun hhandling ↦ ?_
  obtain ⟨e, rest, hmaster | hmaster, -⟩ := h.handles hhandling
  · exact hm e rest hmaster
  · exact hm' e rest hmaster

/-- At the end of `doEvent` the event of a watch that it handles is the one at hand. -/
theorem Watched.handles_eventEnd {e : ConnEvent cfg} {rest : List (Event cfg)} (h : s.Watched w)
    (hm : s.master = .eventEnd e rest) (hhandling : w.handling = true) :
    e.conn = w.conn ∧ (e.hangUp || e.error) = true := by
  obtain ⟨e', rest', hmaster | hmaster, hc, hflag⟩ := h.handles hhandling
  · cases hm.symm.trans hmaster
  · cases hm.symm.trans hmaster
    exact ⟨hc, hflag⟩

/-- A step outside the end of `doEvent` that leaves the readiness of the connection and its mark
alone. -/
theorem Watched.of_other (h : s.Watched w) (hother : ∀ i b ok, a ≠ .work i b ok)
    (hend : s.endsWith a = none) (hreads : s'.store.Reads w.conn w.taken w.called)
    (hmark : (s.store.conn w.conn).markedForRemoval = true →
      (s'.store.conn w.conn).markedForRemoval = true)
    (hhandles : w.handling = true → ∃ e rest,
      (s'.master = .runTask e rest ∨ s'.master = .eventEnd e rest) ∧ e.conn = w.conn ∧
        (e.hangUp || e.error) = true) : s'.Watched (s.watches a w) := by
  rw [watches_of_other hother hend]
  exact ⟨hreads, hhandles, fun hpending ↦ hmark (h.pends hpending)⟩

/-- Such a step while no event of the watch is handled. -/
theorem Watched.of_not_handling (h : s.Watched w) (hnot : w.handling = false)
    (hother : ∀ i b ok, a ≠ .work i b ok) (hend : s.endsWith a = none)
    (hreads : s'.store.Reads w.conn w.taken w.called)
    (hmark : (s.store.conn w.conn).markedForRemoval = true →
      (s'.store.conn w.conn).markedForRemoval = true) : s'.Watched (s.watches a w) :=
  h.of_other hother hend hreads hmark
    fun hhandling ↦ absurd (hnot.symm.trans hhandling) Bool.false_ne_true

/-- Such a step between events. -/
theorem Watched.of_event (h : s.Watched w) (hm : s.master.event = none)
    (hother : ∀ i b ok, a ≠ .work i b ok) (hreads : s'.store.Reads w.conn w.taken w.called)
    (hmark : (s.store.conn w.conn).markedForRemoval = true →
      (s'.store.conn w.conn).markedForRemoval = true) : s'.Watched (s.watches a w) := by
  refine h.of_not_handling (h.not_handling ?_ ?_) hother (endsWith_of_event hm) hreads hmark
  · intro e rest heq
    rw [heq] at hm
    cases hm
  · intro e rest heq
    rw [heq] at hm
    cases hm

theorem watched_works {i : ℕ} {wk : Worker cfg} {b : ServiceAction} {ok : Bool}
    (h : s.Watched w) (hcore : s.Core P) (hm : s'.master = s.master)
    (hw : s.store.worker i = some wk) (hworks : s.store.Works i wk b s'.store)
    (hfd' : 0 ≤ (s'.store.conn w.conn).fd) : s'.Watched (s.watches (.work i b ok) w) := by
  have hend : s.endsWith (.work i b ok) = none := rfl
  refine ⟨?_, ?_, ?_⟩
  · by_cases hc : w.conn = wk.conn
    · have hreads := (hc ▸ h.reads).of_works hcore.sound.tasks hworks hw (hc ▸ hfd')
      simpa [watches, worksOn, hw, hc] using hreads
    · have hne : decide (wk.conn = w.conn) = false := decide_eq_false fun heq ↦ hc heq.symm
      simpa [watches, worksOn, hw, hne] using h.reads.of_ne hworks hw hc
  · intro hhandling
    rw [hm]
    exact h.handles (by simpa [watches, hend] using hhandling)
  · intro hpending
    refine hworks.marked_of_open (h.pends ?_) hfd'
    simpa [watches, hend] using hpending

/-- **The step lemma**, as long as the connection is in use. -/
theorem watched_step (hinv : s.Threaded) (hpool : cfg.threadPool = true) (h : s.Watched w)
    (hfd : 0 ≤ (s.store.conn w.conn).fd) (hs : step s a = some s')
    (hfd' : 0 ≤ (s'.store.conn w.conn).fd) : s'.Watched (s.watches a w) := by
  have hcore := hinv.core (running_of_step hs)
  have hproceed : ∀ {now ok i b ok'}, Action.proceed now ok ≠ (.work i b ok' : Action cfg) := by
    rintro - - - - - ⟨⟩
  cases hinv.moves hpool hs with
  | stays hsame htries hother hm =>
      have hmark : (s.store.conn w.conn).markedForRemoval = true →
          (s'.store.conn w.conn).markedForRemoval = true := by
        rw [hsame.conn]
        exact id
      rcases hm with ⟨rfl, hm⟩ | ⟨hm, -⟩
      · refine h.of_other hother rfl (h.reads.of_same hsame) hmark fun hhandling ↦ ?_
        rw [hm]
        exact h.handles hhandling
      · exact h.of_event hm hother (h.reads.of_same hsame) hmark
  | finds hm hfd hnone =>
      exact h.of_event (by rw [hm]; rfl) (fun _ _ _ ↦ hproceed) h.reads id
  | takes hm hfd hsome hready =>
      exact h.of_event (by rw [hm]; rfl) (fun _ _ _ ↦ hproceed) h.reads id
  | passes hm hfd hready =>
      exact h.of_event (by rw [hm]; rfl) (fun _ _ _ ↦ hproceed) h.reads id
  | sweeps hm hm' hc hfd htries =>
      exact h.of_event hm (fun _ _ _ ↦ hproceed) (h.reads.of_tries htries hfd')
        (htries.conn_of_open hfd').2.2
  | removesIdle hm hm' hfd htries =>
      exact h.of_not_handling (h.not_handling (by simp [hm]) (by simp [hm]))
        (fun _ _ _ ↦ hproceed) (by simp only [endsWith, hm]) (h.reads.of_tries htries hfd')
        (htries.conn_of_open hfd').2.2
  | readies hm hm' hfd hfree hcalls hsets =>
      refine h.of_not_handling (h.not_handling (by simp [hm]) (by simp [hm]))
        (fun _ _ _ ↦ hproceed) (by simp only [endsWith, hm])
        (h.reads.mono (Store.calls_of_readied hsets.conn) (fun _ _ hw ↦ ?_) fun _ _ hw ↦ .inl ?_)
        (Store.marked_of_readied hsets.conn)
      · rw [hsets.worker]
        exact hw
      · rw [← hsets.worker]
        exact hw
  | queues hm hm' hfd hfree hcalls hfresh hconn hworker hmutex =>
      exact h.of_not_handling (h.not_handling (by simp [hm]) (by simp [hm]))
        (fun _ _ _ ↦ hproceed) (by simp only [endsWith, hm])
        (h.reads.mono (Store.calls_of_readied hconn) (Store.worker_of_queued hworker hfresh)
          (Store.queued_of_worker hworker rfl)) (Store.marked_of_readied hconn)
  | @returns e rest now ok hm hfree =>
      refine h.of_other (fun _ _ _ ↦ hproceed) (by simp only [endsWith, hm]) h.reads id ?_
      intro hhandling
      obtain ⟨e', rest', hmaster, hc, hflag⟩ := h.handles hhandling
      rw [hm] at hmaster
      rcases hmaster with hmaster | hmaster
      · cases hmaster
        exact ⟨e, rest, .inr rfl, hc, hflag⟩
      · cases hmaster
  | @ends e rest now ok hm hcond =>
      -- the connection of a watched event would be removed
      have hnot : w.handling = false := by
        refine Bool.eq_false_iff.mpr fun hhandling ↦ hcond ?_
        obtain ⟨hc, hflag⟩ := h.handles_eventEnd hm hhandling
        rw [hc]
        exact ⟨fun hclosed ↦ absurd (hclosed ▸ hfd) (by decide), hflag⟩
      have hw : s.watches (.proceed now ok) w = w := by
        cases w
        simp_all [watches, worksOn]
      rw [hw]
      exact ⟨h.reads, fun hhandling ↦ absurd (hnot.symm.trans hhandling) Bool.false_ne_true,
        h.pends⟩
  | @hangsUp e rest now ok _ hm hm' hfd hflag htries =>
      have hend : s.endsWith (.proceed now ok) = some e := by simp only [endsWith, hm]
      refine ⟨?_, fun hhandling ↦ ?_, fun hpending ↦ ?_⟩
      · simpa [watches, worksOn] using h.reads.of_tries htries hfd'
      · simp [watches, hend] at hhandling
      · have hpending : w.pending = true ∨
            w.handling = true ∧ (s.store.connMutex w.conn).isSome = true := by
          simpa [watches, hend] using hpending
        rcases hpending with hpending | ⟨hhandling, hheld⟩
        · exact (htries.conn_of_open hfd').2.2 (h.pends hpending)
        · have hc := (h.handles_eventEnd hm hhandling).1
          show (s'.store.conn w.conn).markedForRemoval = true
          rw [← hc] at hheld ⊢
          exact htries.marked_of_held hheld
  | @accepts c fd now callback _ hm hm' hfd'' hclosed hfree hsets =>
      have hne : w.conn ≠ c := fun hc ↦ hclosed (hc ▸ hfd)
      refine h.of_event hm (fun _ _ _ h ↦ by cases h)
        (h.reads.mono ?_ (fun _ _ hw ↦ ?_) fun _ _ hw ↦ .inl ?_) ?_
      · rw [hsets.conn_of_ne hne]
        exact id
      · rw [hsets.worker]
        exact hw
      · rw [← hsets.worker]
        exact hw
      · rw [hsets.conn_of_ne hne]
        exact id
  | works hm hw hworks => exact watched_works h hcore hm hw hworks hfd'

theorem records_eq_some {e : ConnEvent cfg} (h : s.records a = some e) :
    ∃ now ok rest, a = .proceed now ok ∧ s.master = .setReady e rest := by
  unfold records at h
  split at h
  · rename_i now ok
    split at h
    · rename_i e' rest hm
      cases h
      exact ⟨now, ok, rest, rfl, hm⟩
    · cases h
  · cases h

theorem worksOn_eq_true {c : ConnId cfg} {test : Worker cfg → ServiceAction → Bool}
    (h : s.worksOn c test a = true) : ∃ i b ok wk, a = .work i b ok ∧
      s.store.worker i = some wk ∧ wk.conn = c ∧ test wk b = true := by
  cases a with
  | work i b ok =>
      obtain ⟨wk, hwk, htest⟩ := (Option.any_eq_true _ _).mp h
      simp only [Bool.and_eq_true, decide_eq_true_eq] at htest
      exact ⟨i, b, ok, wk, rfl, hwk, htest⟩
  | _ => cases h

theorem watchable_eq_some (h : s.watchable a = some w) :
    ∃ e, s.records a = some e ∧ e.input = true ∧ (e.hangUp || e.error) = true ∧
      ((s.store.conn e.conn).callback .read).isSome = true ∧
      w = ⟨e.conn, true, false, false, false⟩ := by
  obtain ⟨e, he, hw⟩ := Option.map_eq_some_iff.mp h
  obtain ⟨hrecords, htest⟩ := Option.filter_eq_some_iff.mp he
  simp only [Bool.and_eq_true] at htest
  exact ⟨e, hrecords, htest.1.1, htest.1.2, htest.2, hw.symm⟩

/-- A read callback that is installed when `EPOLLIN` is recorded is to be called. -/
theorem calls_of_input {e : ConnEvent cfg} {conn : Connection} (hinput : e.input = true)
    (hcallback : (conn.callback .read).isSome = true) : (conn.readied e).calls .read = true := by
  unfold Connection.calls
  rw [Bool.and_eq_true]
  exact ⟨(Bool.or_eq_true _ _).mpr (.inr hinput), hcallback⟩

/-- A watch begins with a task that is queued. -/
theorem watched_of_watchable (hinv : s.Threaded) (hpool : cfg.threadPool = true)
    (hw : s.watchable a = some w) (hs : step s a = some s') : s'.Watched w := by
  obtain ⟨e, hrecords, hinput, hflag, hcallback, rfl⟩ := watchable_eq_some hw
  obtain ⟨now, ok, rest, rfl, hm⟩ := records_eq_some hrecords
  have hcalls := calls_of_input hinput hcallback
  cases hinv.moves hpool hs with
  | stays hsame htries hother hm' =>
      rcases hm' with ⟨ha, -⟩ | ⟨hm', -⟩
      · cases ha
      · rw [hm] at hm'
        cases hm'
  | finds hm' | takes hm' | passes hm' | removesIdle hm' | returns hm' | ends hm' | hangsUp hm' =>
      cases hm.symm.trans hm'
  | sweeps hm' =>
      rw [hm] at hm'
      cases hm'
  | readies hm₀ hm' hfd hfree hnone hsets =>
      cases hm.symm.trans hm₀
      exact absurd (hcalls.symm.trans (hnone .read)) Bool.noConfusion
  | queues hm₀ hm' hfd hfree hcalls' hfresh hconn hworker hmutex =>
      cases hm.symm.trans hm₀
      have hcore := hinv.core (running_of_step hs)
      refine ⟨⟨fun _ ↦ ⟨rfl, ?_, ?_⟩, fun htaken ↦ (nomatch htaken)⟩, fun _ ↦ ?_,
        fun hpending ↦ (nomatch hpending)⟩
      · rw [hconn, Function.update_self]
        exact hcalls
      · -- the mutex was free, so that no pass was running
        intro i wi phase hi hc hp
        rcases Store.queued_of_worker hworker rfl i wi hi with hi | hq
        · have hown := (hcore.sound.tasks i wi hi).locks (by rw [hp]; trivial)
          rw [hc, hfree] at hown
          cases hown
        · cases hq.symm.trans hp
      · exact ⟨e, rest, .inl hm', rfl, hflag⟩

/-- The run lemma. -/
theorem watched_of_reach {o : Option (Watch cfg)} (hpool : cfg.threadPool = true)
    {ok : POServer cfg × Option (Watch cfg) → Action cfg × Bool → Prop}
    (h : Reach (observed (fun s a ↦ step s a.1) notesWatch) ok (start cfg listenerFd, none)
      (s, o)) :
    s.Threaded ∧ ∀ w ∈ o, 0 ≤ (s.store.conn w.conn).fd → s.Watched w := by
  refine h.invariant
    (I := fun p ↦ p.1.Threaded ∧ ∀ w ∈ p.2, 0 ≤ (p.1.store.conn w.conn).fd → p.1.Watched w) ?_ ?_
  · exact ⟨threaded_start listenerFd, fun _ hw ↦ (nomatch hw)⟩
  · rintro ⟨t, w₀⟩ ⟨t', w₁⟩ ⟨a, chosen⟩ ⟨hinv, hold⟩ - hs
    obtain ⟨hstep, rfl⟩ := observed_eq_some.mp hs
    refine ⟨hinv.step hpool hstep, fun w hw hfd ↦ ?_⟩
    unfold notesWatch at hw
    split_ifs at hw
    · exact watched_of_watchable hinv hpool hw hstep
    · obtain ⟨w', hw', rfl⟩ := Option.map_eq_some_iff.mp hw
      obtain ⟨hw', hopen⟩ := Option.filter_eq_some_iff.mp hw'
      have hopen := of_decide_eq_true hopen
      exact watched_step hinv hpool (hold w' hw' hopen) hopen hstep hfd

/-- With a pass begun, the read callback was called by the time the mutex is free. -/
theorem Watched.called (h : s.Watched w) (hcore : s.Core P) (htaken : w.taken = true)
    (hfree : s.store.connMutex w.conn = none) : w.called = true := by
  refine Bool.not_eq_false _ ▸ fun hcalled ↦ ?_
  obtain ⟨-, i, wi, hi, hc, m, hp⟩ := h.reads.reads htaken hcalled
  have hown := (hcore.sound.tasks i wi hi).locks (by rw [hp]; trivial)
  rw [hc, hfree] at hown
  cases hown

/-- The connection is removed because of the event when it is to be, unless the process ends. -/
theorem removesFor_of_actsFor (hinv : s.Threaded) (hpool : cfg.threadPool = true)
    (h : s.Watched w) (hfd : 0 ≤ (s.store.conn w.conn).fd) (hacts : s.actsFor a w = true)
    (hfree : s.store.connMutex w.conn = none) (hs : step s a = some s')
    (hrun : s'.store.exited = false) : s.RemovesFor a s' w := by
  refine ⟨hacts, hfd, ?_⟩
  rcases (Bool.or_eq_true _ _).mp hacts with hends | hleaves
  · obtain ⟨hhandling, hend⟩ := (Bool.and_eq_true _ _).mp hends
    obtain ⟨e, hend⟩ := Option.isSome_iff_exists.mp hend
    obtain ⟨now, ok, rest, rfl, hm⟩ := endsWith_eq_some hend
    obtain ⟨e', rest', hmaster, hc, hflag⟩ := h.handles hhandling
    rw [hm] at hmaster
    rcases hmaster with hmaster | hmaster
    · cases hmaster
    · cases hmaster
      have htries : s.tries (.proceed now ok) = some w.conn := by
        simp only [tries, hm, hc]
        exact if_pos ⟨fun hclosed ↦ absurd (hclosed ▸ hfd) (by decide), hflag⟩
      obtain ⟨-, source, htries⟩ := (hinv.moves hpool hs).tries htries
      cases htries with
      | removes hfree' hsets =>
          rw [hsets.conn_self]
          rfl
      | exits hfree' hsame hexit => exact absurd (hrun.symm.trans hexit) Bool.false_ne_true
      | marks hheld hsets => cases hfree.symm.trans hheld
  · obtain ⟨hpending, hleaves⟩ := (Bool.and_eq_true _ _).mp hleaves
    have hmark := h.pends hpending
    obtain ⟨i, b, ok, wk, rfl, hwk, hc, hleaves⟩ := worksOn_eq_true hleaves
    cases hinv.moves hpool hs with
    | stays hsame htries hother hm => exact absurd rfl (hother i b ok)
    | works hm hw hworks =>
        cases hwk.symm.trans hw
        unfold Worker.leavesMark at hleaves
        cases hp : wk.place with
        | lockConn removeMe =>
            rw [← hc] at hmark ⊢
            exact hworks.closed_of_marked hp hmark hrun
        | queued | locked | serving | lockServer => simp [hp] at hleaves

/-- **The read callback is called before the removal as long as a task has begun its pass by
then.**  In a run in which `doEvent` and the tasks remove the connection of the watched event,
because of that event, only after a task has begun its pass over it, the read callback was called
before. A step that removes it earlier removes it unread. -/
theorem called_of_reach {o : Option (Watch cfg)} (hpool : cfg.threadPool = true)
    (h : Reach (observed (fun s a ↦ step s a.1) notesWatch) InTime (start cfg listenerFd, none)
      (s, o)) :
    (∀ a s', InTime (s, o) a → step s a.1 = some s' →
      ∀ w ∈ o, s.RemovesFor a.1 s' w → w.called = true) ∧
    ∀ a s', ¬ InTime (s, o) a → step s a.1 = some s' → s'.store.exited = false →
      ∃ w ∈ o, s.RemovesFor a.1 s' w ∧ w.called = false := by
  obtain ⟨hinv, hwatched⟩ := watched_of_reach hpool h
  constructor
  · rintro a s' htime hs w hw ⟨hacts, hopen, hclosed⟩
    have hfree := (hinv.moves hpool hs).free_of_closed hopen (by rw [hclosed]; decide)
    exact (hwatched w hw hopen).called (hinv.core (running_of_step hs))
      (htime w hw hopen hacts hfree) hfree
  · intro a s' hlate hs hrun
    unfold InTime at hlate
    push Not at hlate
    obtain ⟨w, hw, hopen, hacts, hfree, htaken⟩ := hlate
    have hwait := (hwatched w hw hopen).reads.waits (Bool.not_eq_true _ ▸ htaken)
    exact ⟨w, hw, removesFor_of_actsFor hinv hpool (hwatched w hw hopen) hopen hacts hfree hs hrun,
      hwait.1⟩

/-- `doEvent` takes up a request with a hang-up, creates a task, and gets to the hang-up. -/
abbrev takesRequest : List (Action (oneConnection true)) :=
  acceptsFirst true ++
    [.epollWait [.conn ⟨0, true, false, true, false, 0⟩], .proceed 0 true, .proceed 0 true,
      .proceed 0 true, .proceed 0 true]

/-- The task calls the read callback and unlocks the mutex. -/
abbrev readsRequest : List (Action (oneConnection true)) :=
  takesRequest ++
    [.work 0 .go true, .work 0 .go true, .work 0 .go true, .work 0 (.returns 0) true,
      .work 0 .go true, .work 0 .go true, .work 0 .go true]

/-- A task has called the read callback when `doEvent` gets to the hang-up. -/
theorem called_of_begun :
    ∃ p : POServer (oneConnection true) × Option (Watch (oneConnection true)),
      Reach (observed (fun s a ↦ step s a.1) notesWatch) InTime (start _ fun _ ↦ 3, none) p ∧
      (∃ s' ∈ step p.1 (.proceed 0 true), ∃ w ∈ p.2, p.1.RemovesFor (.proceed 0 true) s' w) ∧
      (∀ a s', InTime p a → step p.1 a.1 = some s' →
        ∀ w ∈ p.2, p.1.RemovesFor a.1 s' w → w.called = true) ∧
      ∀ a s', ¬ InTime p a → step p.1 a.1 = some s' → s'.store.exited = false →
        ∃ w ∈ p.2, p.1.RemovesFor a.1 s' w ∧ w.called = false := by
  obtain ⟨⟨s, o⟩, hreach, hremoves⟩ :
      ∃ p : POServer (oneConnection true) × Option (Watch (oneConnection true)),
        Reach (observed (fun s a ↦ step s a.1) notesWatch) InTime (start _ fun _ ↦ 3, none) p ∧
        ∃ s' ∈ step p.1 (.proceed 0 true), ∃ w ∈ p.2, p.1.RemovesFor (.proceed 0 true) s' w :=
    exists_reach_of_exec_decide (readsRequest.map (·, true)) (by decide)
  exact ⟨(s, o), hreach, hremoves, called_of_reach rfl hreach⟩

/-- The task is still queued when `doEvent` gets to the hang-up. -/
theorem not_called_of_queued :
    ∃ p : POServer (oneConnection true) × Option (Watch (oneConnection true)),
      Reach (observed (fun s a ↦ step s a.1) notesWatch) Any (start _ fun _ ↦ 3, none) p ∧
      ∃ s' ∈ step p.1 (.proceed 0 true), ∃ w ∈ p.2,
        p.1.RemovesFor (.proceed 0 true) s' w ∧ w.called = false :=
  exists_reach_of_exec_decide (takesRequest.map (·, true)) (by decide)

/-- Without threads, the read callback is called in the step after `doEvent` has recorded the
event. -/
theorem called_next_of_watchable (hpool : cfg.threadPool = false) (hw : s.watchable a = some w)
    (hs : step s a = some s') {ok : Bool} {s'' : POServer cfg}
    (hserve : step s' (.serve .go ok) = some s'') :
    ∃ n q, s''.store.history = .called .read n q :: s'.store.history := by
  obtain ⟨e, hrecords, hinput, -, hcallback, -⟩ := watchable_eq_some hw
  obtain ⟨now, ok', rest, rfl, hm⟩ := records_eq_some hrecords
  have hcalls := calls_of_input hinput hcallback
  have hstep := (step_proceed_eq_some.mp hs).2
  rw [proceed, hm] at hstep
  obtain ⟨-, hstep⟩ := Option.ite_none_right_eq_some.mp hstep
  have hself : ((s.store.affect (some e.source) e.conn).setReady e.conn e.input e.output).conn
      e.conn = (s.store.conn e.conn).readied e := by
    rw [Store.setReady_conn, Function.update_self]
  have hs' : s' = { s with
      store := (s.store.affect (some e.source) e.conn).setReady e.conn e.input e.output
      master := .serving e rest .start } := by
    have hpool' : ¬ cfg.threadPool = true := Bool.eq_false_iff.mp hpool
    rw [← Option.some.inj hstep, setReady]
    simp only [hself, hcalls, Bool.true_or, if_true, if_neg hpool']
  subst hs'
  obtain ⟨-, e', rest', phase, hm', hserve⟩ := step_serve_eq_some.mp hserve
  cases hm'
  simp only [serve, Phase.start, Store.serve, hself, Connection.serve, hcalls, if_true,
    Option.map_some, Option.some.injEq] at hserve
  subst hserve
  exact ⟨_, _, rfl⟩

end POServer

end Tidbits.Server
