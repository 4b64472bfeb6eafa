import Tidbits.Server.Holders
import Tidbits.Server.StaleEvents
import Tidbits.Transition.Observed

/-!
# Why connections are removed

A connection may be removed, or marked for removal, because one of its callbacks
returned non-zero, a service pass over it ended with neither callback installed, an event with
`EPOLLRDHUP` or `EPOLLERR` was taken up for it, or it was older than a timeout.
An observer notes for each connection struct whether its present use has such a cause.

`doEvent` tests the two callbacks without the connection mutex.  While a service pass
over the connection runs, its callback may have cleared both for the moment; then the connection
is removed or marked without a cause.
-/

namespace Tidbits.Server

open Tidbits.Transition

variable {cfg : Config}

namespace Connection

/-- In the step of the service, a callback returns non-zero or the pass ends with neither callback
installed. -/
def servedOut (conn : Connection) : Phase → ServiceAction → Bool
  | .inCallback _ _, .returns value => decide (value ≠ 0)
  | .check _, .go => conn.noCallback
  | _, _ => false

end Connection

/-- The variable `removeMe` of the service. -/
def Phase.removeMe : Phase → Bool
  | .test _ removeMe | .inCallback _ removeMe | .check removeMe | .done removeMe => removeMe

theorem Phase.removeMe_after (d : Direction) (removeMe : Bool) :
    (Phase.after d removeMe).removeMe = removeMe := by
  cases d <;> rfl

namespace Place

/-- The variable `removeMe` of the task. -/
def removeMe : Place → Bool
  | .queued | .locked => false
  | .serving phase => phase.removeMe
  | .lockServer removeMe | .lockConn removeMe => removeMe

/-- The task is in its pass over the callbacks. -/
def InPass : Place → Bool
  | .serving (.done _) => false
  | .serving _ => true
  | _ => false

end Place

namespace Connection

variable {conn : Connection} {phase : Phase} {b : ServiceAction} {r : ServiceStep}

theorem callbackReturned_removeMe {d : Direction} {removeMe : Bool} {value : ℤ} :
    (conn.callbackReturned d removeMe value).2 = (decide (value ≠ 0) || removeMe) := by
  unfold callbackReturned
  split_ifs with hvalue <;> simp [hvalue]

/-- `removeMe` is set when the connection is served out, and not otherwise. -/
theorem removeMe_of_serve (h : conn.serve phase b = some r) (hr : r.phase.removeMe = true) :
    phase.removeMe = true ∨ conn.servedOut phase b = true := by
  cases phase with
  | test d removeMe =>
      cases b with
      | go =>
          rw [serve] at h
          split_ifs at h
          · cases h
            exact .inl hr
          · cases h
            cases d <;> exact .inl hr
      | setCallback | setCleanupCallback | returns => cases h
  | inCallback d removeMe =>
      cases b with
      | go => cases h
      | setCallback d' callback =>
          cases h
          exact .inl hr
      | setCleanupCallback callback =>
          cases h
          exact .inl hr
      | returns value =>
          have hphase : r.phase = .after d (conn.callbackReturned d removeMe value).2 := by
            cases h
            rfl
          rw [hphase, Phase.removeMe_after, callbackReturned_removeMe, Bool.or_eq_true] at hr
          exact hr.symm
  | check removeMe =>
      cases b with
      | go =>
          cases h
          exact (Bool.or_eq_true _ _).mp hr
      | setCallback | setCleanupCallback | returns => cases h
  | done removeMe => cases b <;> cases h

/-- The pass goes on; or it ends, with a callback installed unless the connection is served out. -/
theorem inPass_of_serve (h : conn.serve phase b = some r) :
    (Place.serving r.phase).InPass = true ∨
      (r.conn.noCallback = true → conn.servedOut phase b = true) := by
  cases phase with
  | test d removeMe =>
      cases b with
      | go =>
          rw [serve] at h
          split_ifs at h
          · cases h
            exact .inl rfl
          · cases h
            cases d <;> exact .inl rfl
      | setCallback | setCleanupCallback | returns => cases h
  | inCallback d removeMe =>
      left
      cases b with
      | go => cases h
      | setCallback d' callback =>
          cases h
          rfl
      | setCleanupCallback callback =>
          cases h
          rfl
      | returns value =>
          cases h
          cases d <;> rfl
  | check removeMe =>
      cases b with
      | go =>
          cases h
          exact .inr id
      | setCallback | setCleanupCallback | returns => cases h
  | done removeMe => cases b <;> cases h

end Connection

namespace Worker

/-- The task is in its pass over the callbacks of its connection. -/
def InPass (w : Worker cfg) : Bool := w.place.InPass

/-- The step of the task makes its connection one to remove. -/
def servedOut (w : Worker cfg) (conn : Connection) (b : ServiceAction) : Bool :=
  match w.place with
  | .serving phase => conn.servedOut phase b
  | _ => false

end Worker

namespace Store

/-- What is on its way to being removed is due: a live connection without callbacks, unless a
pass over it is running; a marked one; and one that a task is to remove. -/
structure Founded (s : Store cfg) (due : ConnId cfg → Bool) : Prop where
  idle : ∀ c, 0 ≤ (s.conn c).fd → (s.conn c).noCallback = true →
    due c = true ∨ ∃ i w, s.worker i = some w ∧ w.conn = c ∧ w.InPass = true
  marked : ∀ c, (s.conn c).markedForRemoval = true → due c = true
  removing : ∀ i w, s.worker i = some w → (s.conn w.conn).changeCount = w.changeCount →
    w.place.removeMe = true → due w.conn = true

variable {P : ℕ → ℕ → Prop} {s s' : Store cfg} {due due' : ConnId cfg → Bool} {c : ConnId cfg}
  {conn : Connection} {source : Option ℕ} {i : ℕ} {w : Worker cfg} {b : ServiceAction}

theorem founded_create (cfg : Config) (due : ConnId cfg → Bool) : (create cfg).Founded due where
  idle := fun _ hfd ↦ absurd hfd Connection.closed_unused.not_open
  marked := fun _ hmark ↦ nomatch hmark
  removing := fun _ _ hw ↦ nomatch hw

namespace Founded

/-- Connections in use may become due. -/
theorem mono (h : s.Founded due) (hsound : s.Sound P)
    (hdue : ∀ c, 0 ≤ (s.conn c).fd → due c = true → due' c = true) : s.Founded due' where
  idle := fun c hfd hnone ↦ (h.idle c hfd hnone).imp_left (hdue c hfd)
  marked := fun c hmark ↦ hdue c (hsound.slots.marked c hmark).2 (h.marked c hmark)
  removing := fun i w hw hcount hremove ↦
    hdue w.conn ((hsound.tasks i w hw).current hcount).1 (h.removing i w hw hcount hremove)

theorem of_same (h : s.Founded due) (hsame : s.Same s') : s'.Founded due := by
  refine ⟨?_, ?_, ?_⟩ <;> simp only [hsame.conn, hsame.worker]
  · exact h.idle
  · exact h.marked
  · exact h.removing

/-- A connection in use changes, and tasks may be created. -/
theorem of_update (h : s.Founded due) (hconn : s'.conn = Function.update s.conn c conn)
    (huse : (s.conn c).SameUse conn) (hnone : conn.noCallback = (s.conn c).noCallback)
    (hmark : conn.markedForRemoval = true → due c = true)
    (hold : ∀ i w, s.worker i = some w → s'.worker i = some w)
    (hnew : ∀ i w, s'.worker i = some w → s.worker i = some w ∨ w.place = .queued) :
    s'.Founded due := by
  refine ⟨fun x hfd hidle ↦ ?_, fun x hmarked ↦ ?_, fun j wj hj hcount hremove ↦ ?_⟩
  · have hold' : due x = true ∨ ∃ i w, s.worker i = some w ∧ w.conn = x ∧ w.InPass = true := by
      rw [hconn] at hfd hidle
      by_cases hx : x = c
      · subst hx
        rw [Function.update_self] at hfd hidle
        exact h.idle x (huse.fd ▸ hfd) (hnone ▸ hidle)
      · rw [Function.update_of_ne hx] at hfd hidle
        exact h.idle x hfd hidle
    exact hold'.imp_right fun ⟨i, w, hw, hpass⟩ ↦ ⟨i, w, hold i w hw, hpass⟩
  · rw [hconn] at hmarked
    by_cases hx : x = c
    · subst hx
      rw [Function.update_self] at hmarked
      exact hmark hmarked
    · rw [Function.update_of_ne hx] at hmarked
      exact h.marked x hmarked
  · rcases hnew j wj hj with hj | hp
    · refine h.removing j wj hj ?_ hremove
      rw [hconn] at hcount
      by_cases hx : wj.conn = c
      · rw [hx, Function.update_self, huse.changeCount] at hcount
        rw [hx]
        exact hcount
      · rwa [Function.update_of_ne hx] at hcount
    · rw [hp] at hremove
      exact absurd hremove Bool.false_ne_true

theorem of_sets (h : s.Founded due) (hsets : s.Sets c conn s')
    (huse : (s.conn c).SameUse conn) (hnone : conn.noCallback = (s.conn c).noCallback)
    (hmark : conn.markedForRemoval = true → due c = true) : s'.Founded due := by
  refine h.of_update hsets.conn huse hnone hmark (fun _ _ hw ↦ ?_) fun _ _ hw ↦ .inl ?_
  · rw [hsets.worker]
    exact hw
  · rw [← hsets.worker]
    exact hw

/-- A connection is removed; the task that removes it is not in a pass. -/
theorem of_reset (h : s.Founded due) (htasks : s.Tasks P)
    (hconn : s'.conn = Function.update s.conn c ((s.conn c).reset true))
    (hpass : ∀ j w, s.worker j = some w → w.InPass = true → s'.worker j = some w)
    (hworker : ∀ j w, s'.worker j = some w → s.worker j = some w) : s'.Founded due := by
  refine ⟨fun x hfd hidle ↦ ?_, fun x hmarked ↦ ?_, fun j wj hj hcount hremove ↦ ?_⟩
  · rw [hconn] at hfd hidle
    have hx : x ≠ c := by
      rintro rfl
      rw [Function.update_self] at hfd
      exact absurd hfd (Connection.closed_reset true).not_open
    rw [Function.update_of_ne hx] at hfd hidle
    exact (h.idle x hfd hidle).imp_right fun ⟨i, w, hw, hc, hp⟩ ↦ ⟨i, w, hpass i w hw hp, hc, hp⟩
  · rw [hconn] at hmarked
    have hx : x ≠ c := by
      rintro rfl
      rw [Function.update_self] at hmarked
      cases hmarked
    rw [Function.update_of_ne hx] at hmarked
    exact h.marked x hmarked
  · have hj := hworker j wj hj
    have hx : wj.conn ≠ c := by
      rintro hx
      rw [hconn, hx, Function.update_self] at hcount
      have hle := (htasks j wj hj).changeCount_le
      rw [hx, ← hcount] at hle
      exact Nat.not_succ_le_self _ hle
    rw [hconn, Function.update_of_ne hx] at hcount
    exact h.removing j wj hj hcount hremove

theorem of_tries (h : s.Founded due) (htasks : s.Tasks P) (htries : s.Tries c source s')
    (hdue : due c = true) : s'.Founded due := by
  cases htries with
  | removes hfree hsets =>
      refine h.of_reset htasks hsets.conn (fun _ _ hw _ ↦ ?_) fun _ _ hw ↦ ?_
      · rw [hsets.worker]
        exact hw
      · rw [← hsets.worker]
        exact hw
  | exits hfree hsame hexit => exact h.of_same hsame
  | marks hheld hsets => exact h.of_sets hsets ⟨rfl, rfl, rfl⟩ rfl fun _ ↦ hdue

/-- A new connection has its read callback, and no task yet. -/
theorem of_accepts {fd : ℤ} {now : Time} {callback : Callback} {n : ℕ} (h : s.Founded due)
    (hsound : s.Sound P) (hclosed : ¬ 0 ≤ (s.conn c).fd)
    (hsets : s.Sets c ((s.conn c).accepted fd now callback n) s') : s'.Founded due := by
  refine ⟨fun x hfd hidle ↦ ?_, fun x hmarked ↦ ?_, fun j wj hj hcount hremove ↦ ?_⟩
  · by_cases hx : x = c
    · subst hx
      rw [hsets.conn_self] at hidle
      simp [Connection.noCallback, Connection.accepted, Connection.setCallback] at hidle
    · rw [hsets.conn_of_ne hx] at hfd hidle
      rw [hsets.worker]
      exact h.idle x hfd hidle
  · by_cases hx : x = c
    · subst hx
      rw [hsets.conn_self] at hmarked
      exact absurd (hsound.slots.marked x hmarked).2 hclosed
    · rw [hsets.conn_of_ne hx] at hmarked
      exact h.marked x hmarked
  · rw [hsets.worker] at hj
    by_cases hx : wj.conn = c
    · rw [hx, hsets.conn_self] at hcount
      exact absurd ((hsound.tasks j wj hj).current (hx ▸ hcount)).1 (hx ▸ hclosed)
    · rw [hsets.conn_of_ne hx] at hcount
      exact h.removing j wj hj hcount hremove

/-- A task in its pass goes on with it. -/
theorem of_serves {phase : Phase} {r : ServiceStep} (h : s.Founded due)
    (hw : s.worker i = some w) (hp : w.place = .serving phase)
    (hr : (s.conn w.conn).serve phase b = some r)
    (hconn : s'.conn = Function.update s.conn w.conn r.conn)
    (hworker : s'.worker = Function.update s.worker i
      (some { w with place := .serving r.phase }))
    (hdue : (s.conn w.conn).servedOut phase b = true → due w.conn = true) : s'.Founded due := by
  have hserved := Connection.served_serve hr
  have hself : s'.worker i = some { w with place := .serving r.phase } := by
    rw [hworker, Function.update_self]
  have hother : ∀ {j}, j ≠ i → s'.worker j = s.worker j := fun hji ↦ by
    rw [hworker, Function.update_of_ne hji]
  refine ⟨fun x hfd hidle ↦ ?_, fun x hmarked ↦ ?_, fun j wj hj hcount hremove ↦ ?_⟩
  · rw [hconn] at hfd hidle
    by_cases hx : x = w.conn
    · subst hx
      rw [Function.update_self] at hidle
      rcases Connection.inPass_of_serve hr with hpass | hended
      · exact .inr ⟨i, _, hself, rfl, hpass⟩
      · exact .inl (hdue (hended hidle))
    · rw [Function.update_of_ne hx] at hfd hidle
      refine (h.idle x hfd hidle).imp_right fun ⟨j, wj, hj, hc, hpass⟩ ↦ ⟨j, wj, ?_, hc, hpass⟩
      have hji : j ≠ i := by
        rintro rfl
        cases hj.symm.trans hw
        exact hx hc.symm
      exact (hother hji).trans hj
  · rw [hconn] at hmarked
    by_cases hx : x = w.conn
    · subst hx
      rw [Function.update_self, hserved.markedForRemoval] at hmarked
      exact h.marked _ hmarked
    · rw [Function.update_of_ne hx] at hmarked
      exact h.marked x hmarked
  · have hcount' : (s.conn wj.conn).changeCount = wj.changeCount := by
      rw [hconn] at hcount
      by_cases hx : wj.conn = w.conn
      · rw [hx, Function.update_self, hserved.changeCount] at hcount
        rwa [hx]
      · rwa [Function.update_of_ne hx] at hcount
    by_cases hji : j = i
    · subst hji
      cases hself.symm.trans hj
      rcases Connection.removeMe_of_serve hr hremove with hold | hout
      · exact h.removing j w hw hcount' (by rw [hp]; exact hold)
      · exact hdue hout
    · exact h.removing j wj ((hother hji).symm.trans hj) hcount' hremove

/-- A task outside its pass moves, or ends. -/
theorem of_place {w' : Option (Worker cfg)} (h : s.Founded due) (hw : s.worker i = some w)
    (hout : w.InPass = false) (hconn : s'.conn = s.conn)
    (hworker : s'.worker = Function.update s.worker i w')
    (hw' : ∀ w₁ ∈ w', w₁.conn = w.conn ∧ w₁.changeCount = w.changeCount ∧
      (w₁.place.removeMe = true → w.place.removeMe = true)) : s'.Founded due := by
  refine ⟨fun x hfd hidle ↦ ?_, fun x hmarked ↦ ?_, fun j wj hj hcount hremove ↦ ?_⟩
  · rw [hconn] at hfd hidle
    refine (h.idle x hfd hidle).imp_right fun ⟨j, wj, hj, hc, hpass⟩ ↦ ⟨j, wj, ?_, hc, hpass⟩
    have hji : j ≠ i := by
      rintro rfl
      cases hj.symm.trans hw
      exact absurd (hout.symm.trans hpass) Bool.false_ne_true
    rw [hworker, Function.update_of_ne hji]
    exact hj
  · rw [hconn] at hmarked
    exact h.marked x hmarked
  · rw [hconn] at hcount
    rw [hworker] at hj
    by_cases hji : j = i
    · subst hji
      rw [Function.update_self] at hj
      obtain ⟨hc, hcount', hremove'⟩ := hw' wj hj
      rw [hc] at hcount ⊢
      exact h.removing j w hw (hcount.trans hcount') (hremove' hremove)
    · rw [Function.update_of_ne hji] at hj
      exact h.removing j wj hj hcount hremove

end Founded

end Store

namespace POServer

/-- The connection is older than the timeout of the sweep that the master is in, at the time of
that sweep. -/
def exceedsTimeout (s : POServer cfg) (c : ConnId cfg) : Bool :=
  match s.master with
  | .longSweep t =>
      decide (milliseconds cfg.longTimeout ≤ t - (s.store.conn c).acceptTime)
  | .waitSweep t _ =>
      decide (milliseconds cfg.waitTimeout ≤ t - (s.store.conn c).acceptTime)
  | _ => false

/-- The step brings a cause to remove the connection: a timeout, an event, or a service. -/
def causes (s : POServer cfg) (a : Action cfg) (c : ConnId cfg) : Bool :=
  decide (s.tries a = some c) && s.exceedsTimeout c ||
    (s.takesUp a).any (fun e ↦ decide (e.conn = c) && (e.hangUp || e.error) &&
      decide (e.source = (s.store.conn c).acceptNo)) ||
    match a with
    | .work i b _ =>
        (s.store.worker i).any fun w ↦ decide (w.conn = c) && w.servedOut (s.store.conn c) b
    | _ => false

/-- The connections in use that have a cause to be removed; a struct that is not in use has
none. -/
def notes (s : POServer cfg) (a : Action cfg) (due : ConnId cfg → Bool) (c : ConnId cfg) : Bool :=
  decide (0 ≤ (s.store.conn c).fd) && (due c || s.causes a c)

/-- The live connection is removed in the step, or marked. -/
def Loses (s s' : POServer cfg) (c : ConnId cfg) : Prop :=
  0 ≤ (s.store.conn c).fd ∧
    ((s'.store.conn c).fd = -1 ∨
      (s.store.conn c).markedForRemoval = false ∧ (s'.store.conn c).markedForRemoval = true)

instance (s s' : POServer cfg) (c : ConnId cfg) : Decidable (s.Loses s' c) :=
  inferInstanceAs (Decidable (_ ∧ (_ ∨ _ ∧ _)))

/-- The event that `doEvent` is about to be done with. -/
def endsWith (s : POServer cfg) : Action cfg → Option (ConnEvent cfg)
  | .proceed _ _ =>
      match s.master with
      | .eventEnd e _ => some e
      | _ => none
  | _ => none

/-- When `doEvent` finds neither callback installed, no service pass over the connection is
running; and when it removes a connection for `EPOLLRDHUP` or `EPOLLERR`, the event was fetched for
that connection.  Or there is a cause already. -/
def Justified (p : POServer cfg × (ConnId cfg → Bool)) (a : Action cfg) : Prop :=
  (∀ e ∈ p.1.takesUp a, 0 ≤ (p.1.store.conn e.conn).fd →
    (p.1.store.conn e.conn).noCallback = true →
      p.1.notes a p.2 e.conn = true ∨ ¬ p.1.store.HasTask e.conn Worker.InPass) ∧
  ∀ e ∈ p.1.endsWith a, 0 ≤ (p.1.store.conn e.conn).fd → (e.hangUp || e.error) = true →
    p.2 e.conn = true ∨ e.source = (p.1.store.conn e.conn).acceptNo

instance (p : POServer cfg × (ConnId cfg → Bool)) (a : Action cfg) : Decidable (Justified p a) :=
  inferInstanceAs (Decidable (_ ∧ _))

/-- What the master is about to remove is due, too. -/
structure Founded (s : POServer cfg) (due : ConnId cfg → Bool) : Prop where
  store : s.store.Founded due
  found : ∀ e rest, s.master = .noCallback e rest → due e.conn = true
  acting : ∀ e, s.master.event = some e → 0 ≤ (s.store.conn e.conn).fd →
    (e.hangUp || e.error) = true → e.source = (s.store.conn e.conn).acceptNo → due e.conn = true

variable {s s' : POServer cfg} {a : Action cfg} {due : ConnId cfg → Bool} {c : ConnId cfg}
  {listenerFd : ListenerId cfg → ℤ}

theorem le_of_timedOut {t : Time} {timeout : ℤ} (h : s.timedOut t timeout = some c) :
    milliseconds timeout ≤ t - (s.store.conn c).acceptTime :=
  of_decide_eq_true (Option.filter_eq_some_iff.mp h).2

/-- What is tried without an event has exceeded a timeout. -/
theorem exceedsTimeout_of_tries (hm : s.master.event = none) (hc : s.tries a = some c) :
    s.exceedsTimeout c = true := by
  unfold tries at hc
  unfold exceedsTimeout
  split at hc
  · split at hc
    case h_1 t hsweep =>
      rw [hsweep]
      exact decide_eq_true (le_of_timedOut hc)
    case h_2 t _ hsweep =>
      rw [hsweep]
      split_ifs at hc
      exact decide_eq_true (le_of_timedOut hc)
    case h_3 hfound =>
      rw [hfound] at hm
      cases hm
    case h_4 hend =>
      rw [hend] at hm
      cases hm
    case h_5 => cases hc
  · cases hc

theorem notes_of_due (hfd : 0 ≤ (s.store.conn c).fd) (hdue : due c = true) :
    s.notes a due c = true := by
  simp [notes, hfd, hdue]

theorem notes_of_causes (hfd : 0 ≤ (s.store.conn c).fd) (hcause : s.causes a c = true) :
    s.notes a due c = true := by
  simp [notes, hfd, hcause]

theorem founded_start (listenerFd : ListenerId cfg → ℤ) (due : ConnId cfg → Bool) :
    (start cfg listenerFd).Founded due where
  store := Store.founded_create cfg due
  found := fun _ _ hm ↦ nomatch hm
  acting := fun _ hm ↦ nomatch hm

/-- The step of a task. -/
theorem founded_works {i : ℕ} {w : Worker cfg} {b : ServiceAction} {ok : Bool} {store : Store cfg}
    (h : s.store.Founded (s.notes (.work i b ok) due)) (hcore : s.Core fun _ _ ↦ True)
    (hw : s.store.worker i = some w) (hworks : s.store.Works i w b store) :
    store.Founded (s.notes (.work i b ok) due) := by
  cases hworks with
  | locks hp hfree =>
      refine h.of_place hw (by rw [Worker.InPass, hp]; rfl) rfl rfl ?_
      rintro w₁ ⟨⟩
      exact ⟨rfl, rfl, fun hremove ↦ (nomatch hremove)⟩
  | leaves hp hcount =>
      exact h.of_place hw (by rw [Worker.InPass, hp]; rfl) rfl rfl fun _ h ↦ (nomatch h)
  | begins hp hcount =>
      refine h.of_place hw (by rw [Worker.InPass, hp]; rfl) rfl rfl ?_
      rintro w₁ ⟨⟩
      exact ⟨rfl, rfl, fun hremove ↦ (nomatch hremove)⟩
  | serves hp hr hconn hworker hmutex =>
      refine h.of_serves hw hp hr hconn hworker fun hout ↦ ?_
      have hopen := (hcore.sound.tasks i w hw).current
        ((hcore.sound.tasks i w hw).serving _ hp)
      refine notes_of_causes hopen.1 ?_
      simp [causes, hw, Worker.servedOut, hp, hout]
  | unlocks hp =>
      refine h.of_place hw (by rw [Worker.InPass, hp]; rfl) rfl rfl ?_
      rintro w₁ ⟨⟩
      exact ⟨rfl, rfl, fun hremove ↦ by rw [hp]; exact hremove⟩
  | locksServer hp =>
      refine h.of_place hw (by rw [Worker.InPass, hp]; rfl) rfl rfl ?_
      rintro w₁ ⟨⟩
      exact ⟨rfl, rfl, fun hremove ↦ by rw [hp]; exact hremove⟩
  | finishes hp hfree hkeep =>
      exact h.of_place hw (by rw [Worker.InPass, hp]; rfl) rfl rfl fun _ h ↦ (nomatch h)
  | removes hp hfree hcause hsets =>
      refine h.of_reset hcore.sound.tasks hsets.conn (fun j wj hj hpass ↦ ?_) fun j wj hj ↦ ?_
      · have hji : j ≠ i := by
          rintro rfl
          cases hj.symm.trans hw
          rw [Worker.InPass, hp] at hpass
          cases hpass
        rw [hsets.worker]
        exact (Function.update_of_ne hji _ _).trans hj
      · rw [hsets.worker] at hj
        by_cases hji : j = i
        · subst hji
          exact absurd hj (by simp [Store.setWorker])
        · exact (Function.update_of_ne hji _ _).symm.trans hj
  | exits hp hfree hcause hsame hexit => exact h.of_same hsame

/-- An event with `EPOLLRDHUP` or `EPOLLERR` that is taken up for its own connection is a cause. -/
theorem notes_of_takesUp {e : ConnEvent cfg} (htake : s.takesUp a = some e)
    (hfd : 0 ≤ (s.store.conn e.conn).fd) (hflag : (e.hangUp || e.error) = true)
    (hsource : e.source = (s.store.conn e.conn).acceptNo) : s.notes a due e.conn = true := by
  refine notes_of_causes hfd ?_
  simp only [causes, htake, Option.any_some, decide_true, Bool.true_and, hflag, hsource,
    Bool.or_true, Bool.true_or]

/-- Between events only the store counts. -/
theorem founded_of_event (h : s.store.Founded due) (hm : s.master.event = none) :
    s.Founded due := by
  refine ⟨h, fun e rest he ↦ ?_, fun e he ↦ ?_⟩
  · rw [he] at hm
    cases hm
  · cases hm.symm.trans he

/-- **Every step that is justified keeps what is removed due.** -/
theorem founded_step (hinv : s.Threaded) (hpool : cfg.threadPool = true) (h : s.Founded due)
    (hjust : Justified (s, due) a) (hs : step s a = some s') : s'.Founded (s.notes a due) := by
  have hcore := hinv.core (running_of_step hs)
  have hstore : s.store.Founded (s.notes a due) :=
    h.store.mono hcore.sound fun c hfd ↦ notes_of_due hfd
  have htimely := hcore.timely
  -- the event the master works on stays due
  have hacting : ∀ e, s.master.event = some e → 0 ≤ (s.store.conn e.conn).fd →
      (e.hangUp || e.error) = true → e.source = (s.store.conn e.conn).acceptNo →
      s.notes a due e.conn = true :=
    fun e hm hfd hflag hsource ↦ notes_of_due hfd (h.acting e hm hfd hflag hsource)
  have hfound : ∀ e rest, s.master = .noCallback e rest → s.notes a due e.conn = true := by
    intro e rest hm
    rw [hm] at htimely
    exact notes_of_due htimely.1 (h.found e rest hm)
  cases hinv.moves hpool hs with
  | stays hsame htries hother hm =>
      refine ⟨hstore.of_same hsame, fun e rest he ↦ ?_, fun e he ↦ ?_⟩
      · rcases hm with ⟨-, hm⟩ | ⟨-, hm⟩
        · exact hfound e rest (hm ▸ he)
        · rw [he] at hm
          cases hm
      · rcases hm with ⟨-, hm⟩ | ⟨-, hm⟩
        · rw [hsame.conn]
          exact hacting e (hm ▸ he)
        · rw [he] at hm
          cases hm
  | @finds e rest now ok hm hfd hnone =>
      have htake : s.takesUp (.proceed now ok) = some e := by simp only [takesUp, hm]
      refine ⟨hstore, ?_, ?_⟩
      · rintro e rest ⟨⟩
        rcases hjust.1 e htake hfd hnone with hdue | hout
        · exact hdue
        · refine (hstore.idle e.conn hfd hnone).resolve_right fun hpass ↦ hout ?_
          exact hcore.sound.tasks.hasTask_iff.mpr hpass
      · rintro e ⟨⟩ hfd hflag hsource
        exact notes_of_takesUp htake hfd hflag hsource
  | @takes e rest now ok hm hfd hsome hready =>
      refine ⟨hstore, fun _ _ he ↦ (by cases he), ?_⟩
      rintro e ⟨⟩ hfd hflag hsource
      exact notes_of_takesUp (by simp only [takesUp, hm]) hfd hflag hsource
  | @passes e rest now ok hm hfd hready =>
      refine ⟨hstore, fun _ _ he ↦ (by cases he), ?_⟩
      rintro e ⟨⟩ hfd hflag hsource
      exact notes_of_takesUp (by simp only [takesUp, hm]) hfd hflag hsource
  | sweeps hm hm' hc hfd htries =>
      refine founded_of_event
        (hstore.of_tries hcore.sound.tasks htries (notes_of_causes hfd ?_)) hm'
      simp [causes, hc, exceedsTimeout_of_tries hm hc]
  | removesIdle hm hm' hfd htries =>
      exact founded_of_event (hstore.of_tries hcore.sound.tasks htries (hfound _ _ hm))
        (congrArg Master.event hm')
  | readies hm hm' hfd hfree hcalls hsets =>
      refine ⟨hstore.of_sets hsets ⟨rfl, rfl, rfl⟩ rfl (hstore.marked _), ?_, ?_⟩
      · intro e rest he
        rw [hm'] at he
        cases he
      · intro e he
        rw [hm'] at he
        cases he
        rw [hsets.conn_self]
        exact hacting _ (by rw [hm]; rfl)
  | queues hm hm' hfd hfree hcalls hfresh hconn hworker hmutex =>
      refine ⟨hstore.of_update hconn ⟨rfl, rfl, rfl⟩ rfl (hstore.marked _) ?_ ?_, ?_, ?_⟩
      · exact Store.worker_of_queued hworker hfresh
      · exact Store.queued_of_worker hworker rfl
      · intro e rest he
        rw [hm'] at he
        cases he
      · intro e he
        rw [hm'] at he
        cases he
        rw [hconn, Function.update_self]
        exact hacting _ (by rw [hm]; rfl)
  | returns hm hfree =>
      refine ⟨hstore, fun _ _ he ↦ (by cases he), fun e he ↦ ?_⟩
      exact hacting e (by rw [hm]; exact he)
  | ends hm hcond => exact founded_of_event hstore rfl
  | @hangsUp e rest now ok _ hm hm' hfd hflag htries =>
      have hdue : s.notes (.proceed now ok) due e.conn = true := by
        have hend : s.endsWith (.proceed now ok) = some e := by simp only [endsWith, hm]
        rcases hjust.2 e hend hfd hflag with hdue | hsource
        · exact notes_of_due hfd hdue
        · exact hacting e (by rw [hm]; rfl) hfd hflag hsource
      exact founded_of_event (hstore.of_tries hcore.sound.tasks htries hdue)
        (congrArg Master.event hm')
  | accepts hm hm' hfd hclosed hfree hsets =>
      exact founded_of_event (hstore.of_accepts hcore.sound hclosed hsets) hm'
  | works hm hw hworks =>
      refine ⟨founded_works hstore hcore hw hworks, ?_, ?_⟩
      · rw [hm]
        exact hfound
      · rw [hm]
        intro e he hfd hflag hsource
        rcases hworks.sameUse_or_closed e.conn with huse | hclosed
        · exact hacting e he (huse.fd ▸ hfd) hflag (huse.acceptNo ▸ hsource)
        · exact absurd hfd hclosed.not_open

/-- What is removed is what was tried, or what a task removes at its end. -/
theorem due_of_loses (hinv : s.Threaded) (hpool : cfg.threadPool = true) (h : s.Founded due)
    (hjust : Justified (s, due) a) (hs : step s a = some s') (hloses : s.Loses s' c) :
    s.notes a due c = true := by
  have hcore := hinv.core (running_of_step hs)
  have h' := founded_step hinv hpool h hjust hs
  obtain ⟨hopen, hclosed | ⟨-, hmark⟩⟩ := hloses
  · -- the connection of a call of `checkTryRemoveConnection` is due after the step
    have htried : ∀ {d : ConnId cfg} {source}, s.store.Tries d source s'.store →
        s.notes a due d = true → s.notes a due c = true := by
      intro d source htries hdue
      by_cases hc : c = d
      · rw [hc]
        exact hdue
      · rw [htries.conn_of_ne hc] at hclosed
        exact absurd (hclosed ▸ hopen) (by decide)
    have hsame : s'.store.conn c = s.store.conn c → s.notes a due c = true := by
      intro heq
      rw [heq] at hclosed
      exact absurd (hclosed ▸ hopen) (by decide)
    have hupdate : ∀ {d : ConnId cfg} {conn : Connection},
        s'.store.conn = Function.update s.store.conn d conn → 0 ≤ conn.fd →
        s.notes a due c = true := by
      intro d conn hconn hfd
      by_cases hc : c = d
      · subst hc
        rw [hconn, Function.update_self] at hclosed
        exact absurd (hclosed ▸ hfd) (by decide)
      · exact hsame (by rw [hconn, Function.update_of_ne hc])
    cases hinv.moves hpool hs with
    | stays hstore htries hother hm => exact hsame (by rw [hstore.conn])
    | finds | takes | passes | returns | ends => exact hsame rfl
    | sweeps hm hm' hc hfd htries =>
        refine htried htries (notes_of_causes hfd ?_)
        simp [causes, hc, exceedsTimeout_of_tries hm hc]
    | removesIdle hm hm' hfd htries =>
        exact htried htries (notes_of_due hfd (h.found _ _ hm))
    | readies hm hm' hfd hfree hcalls hsets => exact hupdate hsets.conn hfd
    | queues hm hm' hfd hfree hcalls hfresh hconn hworker hmutex => exact hupdate hconn hfd
    | @hangsUp e rest now ok _ hm hm' hfd hflag htries =>
        have hend : s.endsWith (.proceed now ok) = some e := by simp only [endsWith, hm]
        refine htried htries ?_
        rcases hjust.2 e hend hfd hflag with hdue | hsource
        · exact notes_of_due hfd hdue
        · exact notes_of_due hfd (h.acting e (by rw [hm]; rfl) hfd hflag hsource)
    | accepts hm hm' hfd hclosed' hfree hsets => exact hupdate hsets.conn hfd
    | @works i w b ok _ hm hw hworks =>
        by_cases hc : c = w.conn
        · subst hc
          refine notes_of_due hopen ?_
          obtain ⟨removeMe, hp, -, ⟨hcount, hremove⟩ | hmark⟩ :=
            hworks.removal_cause hopen (by rw [hclosed]; decide)
          · exact h.store.removing i w hw hcount (by rw [hp]; exact hremove)
          · exact h.store.marked _ hmark
        · exact hsame (hworks.conn_of_ne hc)
  · exact h'.store.marked c hmark

/-- The live connection is removed or marked in the step, and without a cause. -/
def LosesUnfounded (s : POServer cfg) (a : Action cfg) (s' : POServer cfg)
    (due : ConnId cfg → Bool) : Prop :=
  ∃ c, s.Loses s' c ∧ s.notes a due c = false

theorem endsWith_eq_some {e : ConnEvent cfg} (h : s.endsWith a = some e) :
    ∃ now ok rest, a = .proceed now ok ∧ s.master = .eventEnd e rest := by
  unfold endsWith at h
  split at h
  · rename_i now ok
    split at h
    · rename_i e' rest hm
      cases h
      exact ⟨now, ok, rest, rfl, hm⟩
    · cases h
  · cases h

/-- A call of `checkTryRemoveConnection` loses a connection that was not marked, unless it ends the
process. -/
theorem loses_of_tries {source : Option ℕ} (hfd : 0 ≤ (s.store.conn c).fd)
    (hunmarked : (s.store.conn c).markedForRemoval = false)
    (hrun : s'.store.exited = false ∨ (s.store.connMutex c).isSome = true)
    (htries : s.store.Tries c source s'.store) : s.Loses s' c := by
  refine ⟨hfd, ?_⟩
  cases htries with
  | removes hfree hsets =>
      rw [hsets.conn_self]
      exact .inl rfl
  | exits hfree hsame hexit =>
      rcases hrun with hrun | hheld
      · exact absurd (hrun.symm.trans hexit) Bool.false_ne_true
      · rw [hfree] at hheld
        cases hheld
  | marks hheld hsets =>
      rw [hsets.conn_self]
      exact .inr ⟨hunmarked, rfl⟩

theorem unjustified_cases (h : ¬ Justified (s, due) a) :
    (∃ e, s.takesUp a = some e ∧ 0 ≤ (s.store.conn e.conn).fd ∧
      (s.store.conn e.conn).noCallback = true ∧ ¬ s.notes a due e.conn = true ∧
      s.store.HasTask e.conn Worker.InPass) ∨
    ∃ e, s.endsWith a = some e ∧ 0 ≤ (s.store.conn e.conn).fd ∧ (e.hangUp || e.error) = true ∧
      ¬ due e.conn = true := by
  rcases not_and_or.mp h with h | h
  · push Not at h
    obtain ⟨e, htake, hfd, hnone, hnotDue, hpass⟩ := h
    exact .inl ⟨e, htake, hfd, hnone, hnotDue, hpass⟩
  · push Not at h
    obtain ⟨e, hend, hfd, hflag, hnotDue, -⟩ := h
    exact .inr ⟨e, hend, hfd, hflag, hnotDue⟩

/-- The condition is exact: what it excludes costs a connection, at once or in the next step of
the master. -/
theorem losesUnfounded_of_unjustified (hinv : s.Threaded) (hpool : cfg.threadPool = true)
    (h : s.Founded due) (hunjust : ¬ Justified (s, due) a) (hs : step s a = some s')
    (hrun : s'.store.exited = false) :
    s.LosesUnfounded a s' due ∨ ∀ now ok s'', step s' (.proceed now ok) = some s'' →
      s'.LosesUnfounded (.proceed now ok) s'' (s.notes a due) := by
  have hcore := hinv.core (running_of_step hs)
  have hunmarked : ∀ {e : ConnEvent cfg}, ¬ due e.conn = true →
      (s.store.conn e.conn).markedForRemoval = false :=
    fun hnotDue ↦ Bool.eq_false_iff.mpr fun hmark ↦ hnotDue (h.store.marked _ hmark)
  rcases unjustified_cases hunjust with
    ⟨e, htake, hfd, hnone, hnotDue, hpass⟩ | ⟨e, hend, hfd, hflag, hnotDue⟩
  · right
    obtain ⟨i, w, hw, hc, hpass⟩ := hcore.sound.tasks.hasTask_iff.mp hpass
    -- the task of the pass holds the mutex, so that the connection is marked
    have hheld : s.store.connMutex e.conn = some i := by
      rw [← hc]
      refine (hcore.sound.tasks i w hw).locks ?_
      unfold Worker.InPass Place.InPass at hpass
      split at hpass <;> simp_all [Place.Locks]
    obtain ⟨rest, ok, hs'⟩ := step_eq_doConnEvent htake hs
    have hne : (s.store.conn e.conn).fd ≠ -1 := fun hclosed ↦ absurd (hclosed ▸ hfd) (by decide)
    rw [doConnEvent, if_neg (fun hskip ↦ hne hskip.2), if_pos hnone, if_pos hpool] at hs'
    subst hs'
    intro now' ok' s'' hs''
    cases (step_proceed_eq_some.mp hs'').2
    refine ⟨e.conn, ?_, ?_⟩
    · refine loses_of_tries hfd (hunmarked fun hdue ↦ hnotDue (notes_of_due hfd hdue))
        (.inr (Option.isSome_of_eq_some hheld)) (Store.tries_checkTryRemoveConnection hpool)
    · simpa [notes, causes, exceedsTimeout, takesUp, hfd] using hnotDue
  · left
    obtain ⟨now, ok, rest, rfl, hm⟩ := endsWith_eq_some hend
    have hne : (s.store.conn e.conn).fd ≠ -1 := fun hclosed ↦ absurd (hclosed ▸ hfd) (by decide)
    have hc : s.tries (.proceed now ok) = some e.conn := by
      simp only [tries, hm]
      exact if_pos ⟨hne, hflag⟩
    obtain ⟨-, source, htries⟩ := (hinv.moves hpool hs).tries hc
    refine ⟨e.conn, loses_of_tries hfd (hunmarked hnotDue) (.inl hrun) htries, ?_⟩
    simpa [notes, causes, exceedsTimeout, takesUp, hm, hfd] using hnotDue

/-- The run lemma. -/
theorem founded_of_observed (hpool : cfg.threadPool = true)
    (h : Reach (observed step notes) Justified (start cfg listenerFd, fun _ ↦ false) (s, due)) :
    s.Founded due := by
  refine h.invariant_of (I := fun p ↦ p.1.Founded p.2) (J := fun p ↦ p.1.Threaded) ?_ ?_ ?_
  · exact fun hr ↦ threaded_of_reach hpool hr.of_observed
  · exact founded_start listenerFd _
  · rintro ⟨t, g⟩ ⟨t', g'⟩ a hinv hold hjust hs
    obtain ⟨hstep, rfl⟩ := observed_eq_some.mp hs
    exact founded_step hinv hpool hold hjust hstep

/-- **Connections are removed for a cause as long as `doEvent` does not look at the callbacks during
a service pass**, and does not take an event for one of another connection.  In a run whose
steps are all justified, no connection is removed or marked without a cause.  The first step that
is not justified costs a connection that had none, at once or in the next step of the
master. -/
theorem due_of_reach (hpool : cfg.threadPool = true)
    (h : Reach (observed step notes) Justified (start cfg listenerFd, fun _ ↦ false) (s, due)) :
    (∀ a s' c, Justified (s, due) a → step s a = some s' → s.Loses s' c →
      s.notes a due c = true) ∧
    ∀ a s', ¬ Justified (s, due) a → step s a = some s' → s'.store.exited = false →
      s.LosesUnfounded a s' due ∨ ∀ now ok s'', step s' (.proceed now ok) = some s'' →
        s'.LosesUnfounded (.proceed now ok) s'' (s.notes a due) := by
  have hinv : s.Threaded := threaded_of_reach hpool h.of_observed
  have hfounded : s.Founded due := founded_of_observed hpool h
  exact ⟨fun a s' c hjust hs ↦ due_of_loses hinv hpool hfounded hjust hs,
    fun a s' hunjust hs ↦ losesUnfounded_of_unjustified hinv hpool hfounded hunjust hs⟩

/-- A callback returns `1`, and the task removes the connection. -/
theorem due_of_returned :
    ∃ p : POServer (oneConnection true) × (ConnId (oneConnection true) → Bool),
      Reach (observed step notes) Justified (start _ fun _ ↦ 3, fun _ ↦ false) p ∧
      (∃ s' ∈ step p.1 (.work 0 .go true), p.1.Loses s' 0) ∧
      (∀ a s' c, Justified p a → step p.1 a = some s' → p.1.Loses s' c →
        p.1.notes a p.2 c = true) ∧
      ∀ a s', ¬ Justified p a → step p.1 a = some s' → s'.store.exited = false →
        p.1.LosesUnfounded a s' p.2 ∨ ∀ now ok s'', step s' (.proceed now ok) = some s'' →
          s'.LosesUnfounded (.proceed now ok) s'' (p.1.notes a p.2) := by
  obtain ⟨⟨s, due⟩, hreach, hloses⟩ :
      ∃ p : POServer (oneConnection true) × (ConnId (oneConnection true) → Bool),
        Reach (observed step notes) Justified (start _ fun _ ↦ 3, fun _ ↦ false) p ∧
        ∃ s' ∈ step p.1 (.work 0 .go true), p.1.Loses s' 0 :=
    exists_reach_of_exec_decide
      (acceptsFirst true ++
        ([.epollWait [.conn ⟨0, true, false, false, false, 0⟩], .proceed 0 true, .proceed 0 true,
          .proceed 0 true, .work 0 .go true, .work 0 .go true, .work 0 .go true,
          .work 0 (.returns 1) true, .work 0 .go true, .work 0 .go true, .work 0 .go true,
          .work 0 .go true] : List (Action (oneConnection true))))
      (by decide)
  exact ⟨(s, due), hreach, hloses, due_of_reach rfl hreach⟩

/-- A read callback clears itself before it sets a write callback, as one that answers a request
does.  Meanwhile `doEvent` takes up an event of the connection and marks it, and the task removes
it, with the write callback installed. -/
theorem not_due_of_switching :
    ∃ p : POServer (oneConnection true) × (ConnId (oneConnection true) → Bool),
      Reach (observed step notes) Any (start _ fun _ ↦ 3, fun _ ↦ false) p ∧
      (p.1.store.conn 0).callback .write = some ⟨1, 0⟩ ∧
      ∃ s' ∈ step p.1 (.work 0 .go true),
        p.1.Loses s' 0 ∧ p.1.notes (.work 0 .go true) p.2 0 = false :=
  exists_reach_of_exec_decide
    (acceptsFirst true ++
      ([.epollWait [.conn ⟨0, true, false, false, false, 0⟩], .proceed 0 true, .proceed 0 true,
        .proceed 0 true, .work 0 .go true, .work 0 .go true, .work 0 .go true,
        .work 0 (.setCallback .read none) true, .proceed 0 true, .proceed 0 true, .proceed 0 true,
        .doNextEvents 0, .proceed 0 true, .proceed 0 true, .proceed 0 true,
        .epollWait [.conn ⟨0, false, true, false, false, 0⟩], .proceed 0 true, .proceed 0 true,
        .proceed 0 true, .proceed 0 true, .work 0 (.setCallback .write (some ⟨1, 0⟩)) true,
        .work 0 (.returns 0) true, .work 0 .go true, .work 0 .go true, .work 0 .go true,
        .work 0 .go true] : List (Action (oneConnection true))))
    (by decide)

end POServer

end Tidbits.Server
