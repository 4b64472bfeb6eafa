import Tidbits.Server.Contract
import Tidbits.Server.Idle
import Tidbits.Server.Lifecycle

/-!
# Readiness is consumed

Readiness that is recorded for an installed callback has a task that gets to the
callback.  What the callback leaves unconsumed when it returns zero it has handed
on to the callback that replaced it, and so on; what is left at the end of the pass
waits for a callback to be installed, which is called then.
-/

namespace Tidbits.Server

open Tidbits.Transition

variable {cfg : Config} {P : ℕ → ℕ → Prop}

namespace Store

variable {s s' : Store cfg} {accs accs' : Accounts cfg} {acc : Account} {c : ConnId cfg}
  {conn : Connection} {i : ℕ} {w : Worker cfg} {b : ServiceAction} {d : Direction}

/-- The accounts of the connections against their tasks. -/
structure Consumes (s : Store cfg) (accs : Accounts cfg) : Prop where
  recorded : ∀ c, 0 ≤ (s.conn c).fd → (accs c).Recorded (s.conn c)
  calling : ∀ i w, s.worker i = some w → ∀ d removeMe,
    w.place = .serving (.inCallback d removeMe) → (accs w.conn).Calling (s.conn w.conn) d
  /-- A task gets to the callback that has readiness to consume, or is in it. -/
  covered : ∀ c d, 0 ≤ (s.conn c).fd → (accs c).Due (s.conn c) d →
    s.Attended c ((accs c).Covers · d)

theorem consumes_create (cfg : Config) (accs : Accounts cfg) : (create cfg).Consumes accs where
  recorded := fun _ hfd ↦ absurd hfd Connection.closed_unused.not_open
  calling := fun _ _ hw ↦ nomatch hw
  covered := fun _ _ hfd ↦ absurd hfd Connection.closed_unused.not_open

/-- The connection of a service is in use. -/
theorem Tasks.open_of_serving (h : s.Tasks P) (hw : s.worker i = some w) {phase : Phase}
    (hp : w.place = .serving phase) : 0 ≤ (s.conn w.conn).fd :=
  ((h i w hw).current ((h i w hw).serving phase hp)).1

/-- Two tasks that hold the mutex of a connection are the same task. -/
theorem Tasks.eq_of_locks {j : ℕ} {wj : Worker cfg} (h : s.Tasks P) (hw : s.worker i = some w)
    (hj : s.worker j = some wj) (hlocks : w.place.Locks) (hlocksj : wj.place.Locks)
    (hc : wj.conn = w.conn) : j = i := by
  have hjown := (h j wj hj).locks hlocksj
  rw [hc, (h i w hw).locks hlocks] at hjown
  exact (Option.some.inj hjown).symm

/-! ## The steps of the master -/

/-- The connection is in use, and it and its account stay as they are, but for what the tasks do
not see. -/
structure KeptAt (s s' : Store cfg) (accs accs' : Accounts cfg) (c : ConnId cfg) : Prop where
  inUse : 0 ≤ (s.conn c).fd
  unserved : (s.conn c).Unserved (s'.conn c)
  account : ∃ dropped, accs' c = { accs c with dropped := dropped }

namespace KeptAt

theorem recorded (h : s.KeptAt s' accs accs' c) (hrec : (accs c).Recorded (s.conn c)) :
    (accs' c).Recorded (s'.conn c) := by
  obtain ⟨dropped, hacc⟩ := h.account
  intro d hd
  rw [hacc] at hd
  exact h.unserved.ready d (hrec d hd)

theorem due (h : s.KeptAt s' accs accs' c) (hdue : (accs' c).Due (s'.conn c) d) :
    (accs c).Due (s.conn c) d := by
  obtain ⟨dropped, hacc⟩ := h.account
  rw [hacc] at hdue
  exact ⟨h.unserved.callback ▸ hdue.1, hdue.2⟩

theorem calling (h : s.KeptAt s' accs accs' c) (hcalling : (accs c).Calling (s.conn c) d) :
    (accs' c).Calling (s'.conn c) d := by
  obtain ⟨dropped, hacc⟩ := h.account
  rw [hacc]
  refine ⟨hcalling.last, fun x hcalled hdue ↦ ?_⟩
  exact hcalling.called x hcalled ⟨h.unserved.callback ▸ hdue.1, hdue.2⟩

theorem attended (h : s.KeptAt s' accs accs' c)
    (hold : ∀ i w, s.worker i = some w → s'.worker i = some w)
    (hatt : s.Attended c ((accs c).Covers · d)) : s'.Attended c ((accs' c).Covers · d) := by
  obtain ⟨dropped, hacc⟩ := h.account
  rw [hacc]
  exact hatt.of_worker hold h.unserved.changeCount

end KeptAt

/-- A connection that nothing was reported for has nothing due. -/
theorem not_due_of_fresh (hfresh : accs c = .fresh) : ¬ (accs c).Due conn d := by
  rw [hfresh]
  exact fun hdue ↦ absurd hdue.2 Bool.false_ne_true

theorem recorded_of_fresh (hfresh : accs c = .fresh) : (accs c).Recorded conn := by
  rw [hfresh]
  exact fun d hd ↦ absurd hd Bool.false_ne_true

namespace Consumes

/-- Connections may be removed, accepted or marked, and tasks created, where no service is. -/
theorem of_kept (h : s.Consumes accs)
    (hlive : ∀ c, 0 ≤ (s'.conn c).fd → accs' c = .fresh ∨ s.KeptAt s' accs accs' c)
    (hserving : ∀ i w phase, s.worker i = some w → w.place = .serving phase →
      s.KeptAt s' accs accs' w.conn)
    (hold : ∀ i w, s.worker i = some w → s'.worker i = some w)
    (hnew : ∀ i w, s'.worker i = some w → s.worker i = some w ∨ w.place = .queued) :
    s'.Consumes accs' where
  recorded := by
    intro c hfd
    rcases hlive c hfd with hfresh | hkept
    · exact recorded_of_fresh hfresh
    · exact hkept.recorded (h.recorded c hkept.inUse)
  calling := by
    intro i w hw d removeMe hp
    rcases hnew i w hw with hw | hq
    · exact (hserving i w _ hw hp).calling (h.calling i w hw d removeMe hp)
    · cases hp.symm.trans hq
  covered := by
    intro c d hfd hdue
    rcases hlive c hfd with hfresh | hkept
    · exact absurd hdue (not_due_of_fresh hfresh)
    · exact hkept.attended hold (h.covered c d hkept.inUse (hkept.due hdue))

/-- The readiness of an event is recorded; a task is created if a callback is to be called. -/
theorem of_readied {e : ConnEvent cfg} (h : s.Consumes accs) (htasks : s.Tasks P)
    (hfd : 0 ≤ (s.conn e.conn).fd) (hfree : s.connMutex e.conn = none)
    (hconn : s'.conn = Function.update s.conn e.conn ((s.conn e.conn).readied e))
    (hacc : accs' e.conn = (accs e.conn).report e)
    (hkept : ∀ c, 0 ≤ (s.conn c).fd → c ≠ e.conn →
      ∃ dropped, accs' c = { accs c with dropped := dropped })
    (hold : ∀ i w, s.worker i = some w → s'.worker i = some w)
    (hnew : ∀ i w, s'.worker i = some w → s.worker i = some w ∨ w.place = .queued)
    (hcalls : (∀ d, ((s.conn e.conn).readied e).calls d = false) ∨
      s'.Attended e.conn (· = .queued)) :
    s'.Consumes accs' := by
  have hself : s'.conn e.conn = (s.conn e.conn).readied e := by rw [hconn, Function.update_self]
  have hother : ∀ c, c ≠ e.conn → 0 ≤ (s'.conn c).fd → s.KeptAt s' accs accs' c := by
    intro c hc hopen
    have hsame : s'.conn c = s.conn c := by rw [hconn, Function.update_of_ne hc]
    rw [hsame] at hopen
    exact ⟨hopen, hsame ▸ .refl _, hkept c hopen hc⟩
  have hrec : (accs' e.conn).Recorded (s'.conn e.conn) := by
    intro d hd
    rw [hacc] at hd
    rw [hself]
    have hd : ((accs e.conn).unconsumed d || e.reports d) = true := hd
    show ((s.conn e.conn).ready d || e.reports d) = true
    rcases (Bool.or_eq_true _ _).mp hd with hd | hd
    · rw [h.recorded e.conn hfd d hd, Bool.true_or]
    · rw [hd, Bool.or_true]
  refine ⟨fun c hopen ↦ ?_, fun i w hw d removeMe hp ↦ ?_, fun c d hopen hdue ↦ ?_⟩
  · by_cases hc : c = e.conn
    · exact hc ▸ hrec
    · have hkept := hother c hc hopen
      exact hkept.recorded (h.recorded c hkept.inUse)
  · rcases hnew i w hw with hw | hq
    · -- a service holds the mutex of its connection
      have hne : w.conn ≠ e.conn := by
        intro hwc
        have hlocks := (htasks i w hw).locks (by rw [hp]; trivial)
        rw [hwc, hfree] at hlocks
        cases hlocks
      have hopen := htasks.open_of_serving hw hp
      have hsame : s'.conn w.conn = s.conn w.conn := by rw [hconn, Function.update_of_ne hne]
      exact (hother w.conn hne (hsame ▸ hopen)).calling (h.calling i w hw d removeMe hp)
    · cases hp.symm.trans hq
  · by_cases hc : c = e.conn
    · subst hc
      rcases hcalls with hnone | hqueued
      · have htrue := hrec.calls hdue
        rw [hself, hnone d] at htrue
        cases htrue
      · refine hqueued.mono ?_
        rintro place rfl
        trivial
    · have hkept := hother c hc hopen
      exact hkept.attended hold (h.covered c d hkept.inUse (hkept.due hdue))

/-! ## The steps of the tasks -/

/-- A task moves that is not in a service, or ends; its connection stays as it is, or is
removed. -/
theorem of_place (h : s.Consumes accs) (hworks : s.Works i w b s') (hw : s.worker i = some w)
    (hconn : ∀ c, s'.conn c = s.conn c ∨ (s'.conn c).Closed)
    (hacc : ∀ c, 0 ≤ (s.conn c).fd → accs' c = accs c) (htasks : s.Tasks P)
    (hself : ∀ w' d removeMe, s'.worker i = some w' →
      w'.place ≠ .serving (.inCallback d removeMe))
    (hnext : ∀ d, w.changeCount = (s'.conn w.conn).changeCount →
      (accs w.conn).Covers w.place d → 0 ≤ (s'.conn w.conn).fd →
      s'.Attended w.conn ((accs w.conn).Covers · d)) : s'.Consumes accs' := by
  have hsame : ∀ {c}, 0 ≤ (s'.conn c).fd → s'.conn c = s.conn c := fun {c} hopen ↦
    (hconn c).resolve_right fun hclosed ↦ hclosed.not_open hopen
  refine ⟨fun c hopen ↦ ?_, fun j wj hj d removeMe hp ↦ ?_, fun c d hopen hdue ↦ ?_⟩
  · have hc := hsame hopen
    rw [hc] at hopen ⊢
    rw [hacc c hopen]
    exact h.recorded c hopen
  · by_cases hji : j = i
    · subst hji
      exact absurd hp (hself wj d removeMe hj)
    · rw [hworks.worker_of_ne hji] at hj
      have hcalling := h.calling j wj hj d removeMe hp
      rw [hacc _ (htasks.open_of_serving hj hp)]
      rcases hconn wj.conn with hc | hclosed
      · rwa [hc]
      · exact ⟨hcalling.last, fun x _ hdue ↦ absurd (hclosed.callback x) hdue.1⟩
  · have hc := hsame hopen
    have hopen' : 0 ≤ (s.conn c).fd := hc ▸ hopen
    rw [hacc c hopen'] at hdue ⊢
    rw [hc] at hdue
    rcases (h.covered c d hopen' hdue).of_works hworks hw hopen with hdone | ⟨rfl, hcount, hcov⟩
    · exact hdone
    · exact hnext d (hc.symm ▸ hcount) hcov hopen

/-- A service goes on, as it keeps the account of its connection. -/
theorem of_serves {phase : Phase} {r : ServiceStep} (h : s.Consumes accs)
    (hworks : s.Works i w b s') (htasks : s.Tasks P) (hw : s.worker i = some w)
    (hp : w.place = .serving phase) (hr : (s.conn w.conn).serve phase b = some r)
    (hconn : s'.conn = Function.update s.conn w.conn r.conn)
    (hworker : s'.worker = Function.update s.worker i (some { w with place := .serving r.phase }))
    (hacc : ∀ c ≠ w.conn, 0 ≤ (s.conn c).fd → accs' c = accs c)
    (hkeeps : (accs w.conn).Keeps (s.conn w.conn) phase (accs' w.conn) r.conn r.phase) :
    s'.Consumes accs' := by
  have hlocks : w.place.Locks := by
    rw [hp]
    trivial
  have hself : s'.conn w.conn = r.conn := (congrFun hconn _).trans (Function.update_self ..)
  have hworkeri : s'.worker i = some { w with place := .serving r.phase } :=
    (congrFun hworker i).trans (Function.update_self ..)
  have hcount : w.changeCount = (s'.conn w.conn).changeCount := by
    rw [hself, (Connection.served_serve hr).changeCount]
    exact ((htasks i w hw).serving _ hp).symm
  refine ⟨fun c hopen ↦ ?_, fun j wj hj d removeMe hpj ↦ ?_, fun c d hopen hdue ↦ ?_⟩
  · by_cases hc : c = w.conn
    · subst hc
      rw [hself]
      exact hkeeps.recorded
    · have hsame := hworks.conn_of_ne hc
      rw [hsame] at hopen ⊢
      rw [hacc c hc hopen]
      exact h.recorded c hopen
  · by_cases hji : j = i
    · subst hji
      cases hworkeri.symm.trans hj
      rw [hself]
      exact hkeeps.calling d removeMe (Place.serving.inj hpj)
    · rw [hworks.worker_of_ne hji] at hj
      have hc : wj.conn ≠ w.conn := fun hc ↦
        hji (htasks.eq_of_locks hw hj hlocks (by rw [hpj]; trivial) hc)
      rw [hworks.conn_of_ne hc, hacc _ hc (htasks.open_of_serving hj hpj)]
      exact h.calling j wj hj d removeMe hpj
  · by_cases hc : c = w.conn
    · subst hc
      rw [hself] at hdue
      rcases hkeeps.covered d hdue with hcov | ⟨hdue', hnot⟩
      · exact attended_self hworkeri hcount hcov
      · -- the service did not get to the callback: the task that does is queued
        have hopen' := htasks.open_of_serving hw hp
        obtain ⟨j, wj, hj, hc, hcountj, hcov⟩ := h.covered w.conn d hopen' hdue'
        have hji : j ≠ i := by
          rintro rfl
          cases hj.symm.trans hw
          exact hnot (hp ▸ hcov)
        refine ⟨j, wj, (hworks.worker_of_ne hji).trans hj, hc, ?_, ?_⟩
        · rw [hcountj, hself, (Connection.served_serve hr).changeCount]
        · cases hpj : wj.place with
          | queued => trivial
          | locked | serving phase =>
              exact absurd (htasks.eq_of_locks hw hj hlocks (by rw [hpj]; trivial) hc) hji
          | lockServer | lockConn =>
              rw [hpj] at hcov
              exact hcov.elim
    · have hsame := hworks.conn_of_ne hc
      have hopen' : 0 ≤ (s.conn c).fd := hsame ▸ hopen
      rw [hacc c hc hopen'] at hdue ⊢
      rw [hsame] at hdue
      rcases (h.covered c d hopen' hdue).of_works hworks hw hopen with hdone | hself
      · exact hdone
      · exact absurd hself.1.symm hc

/-- **Whatever a task does, it keeps the accounts.** -/
theorem works (h : s.Consumes accs) (htasks : s.Tasks P) (hworks : s.Works i w b s')
    (hw : s.worker i = some w) (hne : ∀ c ≠ w.conn, 0 ≤ (s.conn c).fd → accs' c = accs c)
    (hserving : ∀ phase, w.place = .serving phase →
      accs' w.conn = (accs w.conn).serve (s.conn w.conn) phase b)
    (hidle : (∀ phase, w.place ≠ .serving phase) → 0 ≤ (s.conn w.conn).fd →
      accs' w.conn = accs w.conn)
    (hreturns : ∀ value, b = .returns value → (accs w.conn).calls.length ≤ 1 ∧
      ∀ f ∈ (accs w.conn).calls.head?,
        (accs w.conn).Obeys (s.conn w.conn) f value ∧ f.PassesOn value) :
    s'.Consumes accs' := by
  have hacc : (∀ phase, w.place ≠ .serving phase) →
      ∀ c, 0 ≤ (s.conn c).fd → accs' c = accs c := by
    intro hp c hopen
    by_cases hc : c = w.conn
    · subst hc
      exact hidle hp hopen
    · exact hne c hc hopen
  have hout : ∀ {place : Place}, w.place = place → (∀ phase, place ≠ .serving phase) →
      ∀ phase, w.place ≠ .serving phase := by
    rintro place hp hplace phase hphase
    exact hplace phase (hp.symm.trans hphase)
  -- the task is at the place after the step
  have hself : ∀ {place : Place} {t : Store cfg}, (∀ d removeMe,
      place ≠ .serving (.inCallback d removeMe)) → ∀ w' d removeMe,
      (t.setWorker i (some { w with place := place })).worker i = some w' →
      w'.place ≠ .serving (.inCallback d removeMe) := by
    intro place t hplace w' d removeMe hw'
    cases (Function.update_self i _ t.worker).symm.trans hw'
    exact hplace d removeMe
  have hgone : ∀ {t : Store cfg} (w' : Worker cfg) (d : Direction) (removeMe : Bool),
      (t.setWorker i none).worker i = some w' →
      w'.place ≠ .serving (.inCallback d removeMe) := by
    intro t w' d removeMe hw'
    cases (Function.update_self i _ t.worker).symm.trans hw'
  cases hworks with
  | locks hp hfree =>
      refine h.of_place (.locks hp hfree) hw (fun _ ↦ .inl rfl)
        (hacc (hout hp fun _ heq ↦ (nomatch heq))) htasks (hself fun _ _ heq ↦ (nomatch heq)) ?_
      exact fun d hcount _ _ ↦ attended_self (Function.update_self ..) hcount trivial
  | leaves hp hcount =>
      refine h.of_place (.leaves hp hcount) hw (fun _ ↦ .inl rfl)
        (hacc (hout hp fun _ heq ↦ (nomatch heq))) htasks hgone ?_
      exact fun d hcount' _ _ ↦ absurd hcount' hcount
  | begins hp hcount =>
      refine h.of_place (.begins hp hcount) hw (fun _ ↦ .inl rfl)
        (hacc (hout hp fun _ heq ↦ (nomatch heq))) htasks (hself fun _ _ heq ↦ (nomatch heq)) ?_
      exact fun d hcount _ _ ↦ attended_self (Function.update_self ..) hcount trivial
  | serves hp hr hconn hworker hmutex =>
      have hopen := htasks.open_of_serving hw hp
      refine h.of_serves (.serves hp hr hconn hworker hmutex) htasks hw hp hr hconn hworker hne ?_
      rw [hserving _ hp]
      refine (h.recorded w.conn hopen).keeps ?_ hreturns hr
      rintro d removeMe rfl
      exact h.calling i w hw d removeMe hp
  | unlocks hp =>
      have hsame : accs' w.conn = accs w.conn := (hserving _ hp).trans rfl
      refine h.of_place (.unlocks hp) hw (fun _ ↦ .inl rfl) (fun c hopen ↦ ?_) htasks
        (hself fun _ _ heq ↦ (nomatch heq)) fun d _ hcov _ ↦ ?_
      · by_cases hc : c = w.conn
        · rw [hc, hsame]
        · exact hne c hc hopen
      · rw [hp] at hcov
        exact hcov.elim
  | locksServer hp =>
      refine h.of_place (.locksServer hp) hw (fun _ ↦ .inl rfl)
        (hacc (hout hp fun _ heq ↦ (nomatch heq))) htasks (hself fun _ _ heq ↦ (nomatch heq)) ?_
      intro d _ hcov _
      rw [hp] at hcov
      exact hcov.elim
  | finishes hp hfree hkeep =>
      refine h.of_place (.finishes hp hfree hkeep) hw (fun _ ↦ .inl rfl)
        (hacc (hout hp fun _ heq ↦ (nomatch heq))) htasks hgone ?_
      intro d _ hcov _
      rw [hp] at hcov
      exact hcov.elim
  | removes hp hfree hcause hsets =>
      refine h.of_place (.removes hp hfree hcause hsets) hw (fun c ↦ ?_)
        (hacc (hout hp fun _ heq ↦ (nomatch heq))) htasks (fun w' d removeMe hw' ↦ ?_) ?_
      · by_cases hc : c = w.conn
        · subst hc
          rw [hsets.conn_self]
          exact .inr (Connection.closed_reset true)
        · exact .inl (hsets.conn_of_ne hc)
      · rw [hsets.worker] at hw'
        exact hgone w' d removeMe hw'
      · intro d _ hcov _
        rw [hp] at hcov
        exact hcov.elim
  | exits hp hfree hcause hsame hexit =>
      refine h.of_place (.exits hp hfree hcause hsame hexit) hw (fun c ↦ .inl (by rw [hsame.conn]))
        (hacc (hout hp fun _ heq ↦ (nomatch heq))) htasks (fun w' d removeMe hw' heq ↦ ?_) ?_
      · rw [hsame.worker, hw] at hw'
        cases hw'
        cases heq.symm.trans hp
      · intro d _ hcov _
        rw [hp] at hcov
        exact hcov.elim

/-! ## What the callbacks do among themselves -/

/-- The account of a connection changes, as one with callbacks that have not returned. -/
theorem of_account (h : s.Consumes accs)
    (hrec : ∀ d, acc.unconsumed d = true → (accs c).unconsumed d = true)
    (hcalling : ∀ d', (accs c).Calling (s.conn c) d' → acc.Calling (s.conn c) d')
    (hpends : ∀ d d', acc.Due (s.conn c) d → (accs c).Calling (s.conn c) d' →
      (accs c).Pends d → acc.Pends d) : s.Consumes (Function.update accs c acc) := by
  refine ⟨fun x hopen ↦ ?_, fun i w hw d removeMe hp ↦ ?_, fun x d hopen hdue ↦ ?_⟩
  · by_cases hx : x = c
    · subst hx
      rw [Function.update_self]
      exact fun d hd ↦ h.recorded x hopen d (hrec d hd)
    · rw [Function.update_of_ne hx]
      exact h.recorded x hopen
  · have hold := h.calling i w hw d removeMe hp
    by_cases hx : w.conn = c
    · rw [hx, Function.update_self]
      exact hcalling d (hx ▸ hold)
    · rw [Function.update_of_ne hx]
      exact hold
  · by_cases hx : x = c
    · subst hx
      rw [Function.update_self] at hdue ⊢
      obtain ⟨i, w, hw, hc, hcount, hcov⟩ := h.covered x d hopen ⟨hdue.1, hrec d hdue.2⟩
      refine ⟨i, w, hw, hc, hcount, ?_⟩
      cases hp : w.place with
      | queued | locked => trivial
      | serving phase =>
          rw [hp] at hcov
          cases phase with
          | test d' removeMe => cases d' <;> exact hcov
          | inCallback d' removeMe =>
              exact hcov.imp_right (hpends d d' hdue (hc ▸ h.calling i w hw d' removeMe hp))
          | check | done => exact hcov
      | lockServer | lockConn =>
          rw [hp] at hcov
          exact hcov
    · rw [Function.update_of_ne hx] at hdue ⊢
      exact h.covered x d hopen hdue

theorem exhaust (h : s.Consumes accs) (c : ConnId cfg) (d : Direction) :
    s.Consumes (Function.update accs c ((accs c).exhaust d)) := by
  refine h.of_account (fun x hx ↦ ?_) (fun _ ↦ Account.Calling.exhaust) fun _ _ _ _ hpends ↦ hpends
  by_cases hxd : x = d
  · subst hxd
    exact absurd ((Function.update_self x _ _).symm.trans hx) Bool.false_ne_true
  · exact (Function.update_of_ne hxd _ _).symm.trans hx

theorem call (h : s.Consumes accs) (c : ConnId cfg) (d : Direction) :
    s.Consumes (Function.update accs c ((accs c).push d)) :=
  h.of_account (fun _ hx ↦ hx) (fun _ ↦ Account.Calling.push)
    fun _ _ _ _ hpends ↦ Account.pends_push.mpr (.inr hpends)

theorem back {value : ℤ} (h : s.Consumes accs) (hlen : ¬ (accs c).calls.length ≤ 1)
    (hrule : ∀ f ∈ (accs c).calls.head?, (accs c).Obeys (s.conn c) f value ∧ f.PassesOn value) :
    s.Consumes (Function.update accs c ((accs c).back value)) := by
  match hcalls : (accs c).calls with
  | [] => simp [hcalls] at hlen
  | [_] => simp [hcalls] at hlen
  | f :: g :: calls =>
      obtain ⟨hobeys, hpass⟩ := hrule f (by rw [hcalls]; rfl)
      have heq : (accs c).back value = _ := Account.back_eq hcalls
      refine h.of_account (fun x hx ↦ ?_) (fun d' ↦ Account.Calling.back hcalls hobeys hpass)
        fun x d' hdue hcalling hpends ↦ ?_
      · rw [heq] at hx
        exact hx
      · rw [heq] at hdue
        exact Account.Due.pends_back hcalls hobeys hpass hdue hcalling hpends

end Consumes

end Store

namespace Account

variable {acc : Account} {conn : Connection} {phase : Phase} {b : ServiceAction} {value : ℤ}

/-- A service drops nothing. -/
theorem dropped_serve : (acc.serve conn phase b).dropped = acc.dropped := by
  unfold serve
  split
  · split_ifs <;> rfl
  · split_ifs
    · rfl
    · split <;> rfl
  · rfl
  · rfl

theorem dropped_back : (acc.back value).dropped = acc.dropped := by
  unfold back
  split <;> rfl

end Account

namespace POServer

variable {s s' : POServer cfg} {accs accs' : Accounts cfg} {a : Action cfg} {b : Deed cfg}
  {c : ConnId cfg} {d : Direction} {e : ConnEvent cfg} {rest : List (Event cfg)}
  {listenerFd : ListenerId cfg → ℤ}

/-! ## The accounts after a step -/

theorem accounts_of_closed (hfd : ¬ 0 ≤ (s.store.conn c).fd) : s.accounts a accs c = .fresh :=
  if_neg hfd

theorem accounts_of_setReady {now : Time} {ok : Bool} (hm : s.master = .setReady e rest)
    (hfd : 0 ≤ (s.store.conn e.conn).fd) :
    s.accounts (.proceed now ok) accs e.conn = (accs e.conn).report e := by
  simp only [accounts, if_pos hfd, hm, if_true]

/-- A step that is not one of a task, and does not record readiness. -/
theorem accounts_of_other (hother : ∀ i b ok, a ≠ .work i b ok) (hfd : 0 ≤ (s.store.conn c).fd)
    (hrec : ∀ now ok e rest, a = .proceed now ok → s.master = .setReady e rest → e.conn ≠ c) :
    ∃ dropped, s.accounts a accs c = { accs c with dropped := dropped } := by
  unfold accounts
  rw [if_pos hfd]
  cases a with
  | proceed now ok =>
      dsimp only
      cases hm : s.master with
      | setReady e rest =>
          dsimp only
          rw [if_neg (hrec now ok e rest rfl hm)]
          exact ⟨_, rfl⟩
      | events batch =>
          cases batch with
          | nil => exact ⟨_, rfl⟩
          | cons ev rest =>
              cases ev with
              | listener l => exact ⟨_, rfl⟩
              | conn e =>
                  dsimp only
                  split_ifs
                  · exact ⟨_, rfl⟩
                  · exact ⟨_, rfl⟩
      | _ => exact ⟨_, rfl⟩
  | work i b ok => exact absurd rfl (hother i b ok)
  | _ => exact ⟨_, rfl⟩

section Work

variable {i : ℕ} {w : Worker cfg} {b : ServiceAction} {ok : Bool}
  (hw : s.store.worker i = some w)

include hw

theorem accounts_of_ne (hc : c ≠ w.conn) (hfd : 0 ≤ (s.store.conn c).fd) :
    s.accounts (.work i b ok) accs c = accs c := by
  simp only [accounts, if_pos hfd, hw]
  cases w.place with
  | serving phase => exact if_neg hc.symm
  | _ => rfl

theorem accounts_of_serving {phase : Phase} (hp : w.place = .serving phase)
    (hfd : 0 ≤ (s.store.conn w.conn).fd) : s.accounts (.work i b ok) accs w.conn =
      (accs w.conn).serve (s.store.conn w.conn) phase b := by
  simp only [accounts, if_pos hfd, hw, hp, if_true]

theorem accounts_of_idle (hp : ∀ phase, w.place ≠ .serving phase)
    (hfd : 0 ≤ (s.store.conn w.conn).fd) : s.accounts (.work i b ok) accs w.conn = accs w.conn := by
  simp only [accounts, if_pos hfd, hw]

end Work

/-- What is dropped, `doEvent` drops as it finds no callback. -/
theorem dropped_of_accounts (h : (s.accounts a accs c).dropped d = true) :
    (accs c).dropped d = true ∨
      ∃ e, s.takesUp a = some e ∧ e.conn = c ∧ (s.store.conn c).noCallback = true := by
  have hfd : 0 ≤ (s.store.conn c).fd := by
    by_contra hfd
    rw [accounts_of_closed hfd] at h
    cases h
  unfold accounts at h
  rw [if_pos hfd] at h
  cases a with
  | proceed now ok =>
      dsimp only at h
      split at h
      · split_ifs at h <;> exact .inl h
      · rename_i e rest hm
        split_ifs at h with hcond
        · exact .inr ⟨e, by simp only [takesUp, hm], hcond⟩
        · exact .inl h
      · exact .inl h
  | work i b ok =>
      left
      dsimp only at h
      split at h
      · split at h
        · split_ifs at h
          · rwa [Account.dropped_serve] at h
          · exact h
        · exact h
      · exact h
  | _ => exact .inl h

/-! ## The run -/

/-- What the states of a run have in common in which the callbacks obey the rule. -/
structure Accounted (s : POServer cfg) (accs : Accounts cfg) : Prop where
  threaded : s.Threaded
  idle : s.store.IdleRemoved
  consumes : s.store.Consumes accs
  discards : ∀ c d, 0 ≤ (s.store.conn c).fd → (accs c).dropped d = true → s.Discards c

theorem accounted_start (listenerFd : ListenerId cfg → ℤ) (accs : Accounts cfg) :
    (start cfg listenerFd).Accounted accs where
  threaded := threaded_start listenerFd
  idle := Store.idleRemoved_create cfg
  consumes := Store.consumes_create cfg accs
  discards := fun _ _ hfd ↦ absurd hfd Connection.closed_unused.not_open

/-- A step that is not one of a task. -/
theorem consumes_other (h : s.store.Consumes accs) (hcore : s.Core P) (hmoves : s.Moves a s')
    (hother : ∀ i b ok, a ≠ .work i b ok) : s'.store.Consumes (s.accounts a accs) := by
  have htasks := hcore.sound.tasks
  obtain ⟨hold, hnew⟩ := hmoves.worker_of_other hother
  by_cases hrec : ∃ now ok e rest, a = .proceed now ok ∧ s.master = .setReady e rest
  · obtain ⟨now, ok, e, rest, rfl, hm⟩ := hrec
    have hne : ∀ c, 0 ≤ (s.store.conn c).fd → c ≠ e.conn →
        ∃ dropped, s.accounts (.proceed now ok) accs c = { accs c with dropped := dropped } := by
      intro c hfd hc
      refine accounts_of_other hother hfd ?_
      rintro now ok e' rest' - hm'
      cases hm.symm.trans hm'
      exact hc.symm
    cases hmoves with
    | readies hm' hm'' hfd hfree hcalls hsets =>
        cases hm.symm.trans hm'
        exact h.of_readied htasks hfd hfree hsets.conn (accounts_of_setReady hm hfd) hne hold hnew
          (.inl hcalls)
    | queues hm' hm'' hfd hfree hcalls hfresh hconn hworker hmutex =>
        cases hm.symm.trans hm'
        refine h.of_readied htasks hfd hfree hconn (accounts_of_setReady hm hfd) hne hold hnew
          (.inr ⟨_, _, (congrFun hworker _).trans (Function.update_self ..), rfl, ?_, rfl⟩)
        rw [hconn, Function.update_self]
        rfl
    | stays hsame htries hother' hm' =>
        rcases hm' with ⟨ha, -⟩ | ⟨hm', -⟩
        · cases ha
        · rw [hm] at hm'
          cases hm'
    | finds hm' | takes hm' | passes hm' | removesIdle hm' | returns hm' | ends hm' | hangsUp hm' =>
        cases hm.symm.trans hm'
    | sweeps hm' =>
        rw [hm] at hm'
        cases hm'
  · have hacc : ∀ c, 0 ≤ (s.store.conn c).fd →
        ∃ dropped, s.accounts a accs c = { accs c with dropped := dropped } :=
      fun c hfd ↦ accounts_of_other hother hfd fun now ok e rest ha hm ↦
        absurd ⟨now, ok, e, rest, ha, hm⟩ hrec
    refine h.of_kept (fun c hopen ↦ ?_) (fun i w phase hw hp ↦ ?_) hold hnew
    · rcases hmoves.unserved hother hopen with ⟨hfd, hunserved⟩ | ⟨hclosed, -⟩
      · exact .inr ⟨hfd, hunserved, hacc c hfd⟩
      · exact .inl (accounts_of_closed hclosed)
    · -- whoever removes the connection needs the mutex
      have hfd := htasks.open_of_serving hw hp
      have hopen : 0 ≤ (s'.store.conn w.conn).fd := by
        by_contra hclosed
        have hlocks := (htasks i w hw).locks (by rw [hp]; trivial)
        cases (hmoves.free_of_closed hfd hclosed).symm.trans hlocks
      rcases hmoves.unserved hother hopen with ⟨-, hunserved⟩ | ⟨hclosed, -⟩
      · exact ⟨hfd, hunserved, hacc w.conn hfd⟩
      · exact absurd hfd hclosed

/-- **A step of the server keeps the accounts.** -/
theorem Accounted.step (h : s.Accounted accs) (hpool : cfg.threadPool = true)
    (hreturns : ∀ r ∈ s.returning (.step a), (accs r.1).calls.length ≤ 1 ∧
      ∀ f ∈ (accs r.1).calls.head?,
        (accs r.1).Obeys (s.store.conn r.1) f r.2 ∧ f.PassesOn r.2)
    (hs : Server.step s a = some s') : s'.Accounted (s.accounts a accs) := by
  have hrun := running_of_step hs
  have hcore := h.threaded.core hrun
  have hmoves := h.threaded.moves hpool hs
  refine ⟨h.threaded.step hpool hs, idleRemoved_moves h.idle hcore.sound.tasks hmoves, ?_, ?_⟩
  · by_cases hother : ∀ i b ok, a ≠ .work i b ok
    · exact consumes_other h.consumes hcore hmoves hother
    · cases hmoves with
      | stays hsame htries hother' hm => exact absurd hother' hother
      | @works i w b ok _ hm hw hworks =>
          refine h.consumes.works hcore.sound.tasks hworks hw (fun c ↦ accounts_of_ne hw)
            (fun phase hp ↦ accounts_of_serving hw hp ?_) (accounts_of_idle hw) ?_
          · exact hcore.sound.tasks.open_of_serving hw hp
          · rintro value rfl
            exact hreturns (w.conn, value) (by simp [returning, hw])
      | _ => exact absurd (fun _ _ _ heq ↦ (nomatch heq)) hother
  · intro c d hopen hdropped
    have hfd : 0 ≤ (s.store.conn c).fd := by
      by_contra hfd
      rw [accounts_of_closed hfd] at hdropped
      cases hdropped
    rcases dropped_of_accounts hdropped with hold | ⟨e, htake, rfl, hnone⟩
    · exact (h.discards c d hfd hold).moves hrun hcore hmoves hfd hopen
    · obtain ⟨rest, ok, rfl⟩ := step_eq_doConnEvent htake hs
      have hne : (s.store.conn e.conn).fd ≠ -1 :=
        fun hclosed ↦ absurd (hclosed ▸ hfd) (by decide)
      rw [doConnEvent, if_neg (fun hskip ↦ hne hskip.2), if_pos hnone, if_pos hpool]
      exact discards_of_finds h.idle hfd hnone

/-- What the callbacks do among themselves drops nothing. -/
theorem Accounted.account {acc : Account} (h : s.Accounted accs)
    (hconsumes : s.store.Consumes (Function.update accs c acc))
    (hdropped : acc.dropped = (accs c).dropped) : s.Accounted (Function.update accs c acc) where
  threaded := h.threaded
  idle := h.idle
  consumes := hconsumes
  discards := by
    intro x d hfd hd
    refine h.discards x d hfd ?_
    by_cases hx : x = c
    · subst hx
      rwa [Function.update_self, hdropped] at hd
    · rwa [Function.update_of_ne hx] at hd

/-- The step lemma. -/
theorem Accounted.act {p : POServer cfg × Accounts cfg} (h : s.Accounted accs)
    (hpool : cfg.threadPool = true) (hrule : RulePassedOn (s, accs) b)
    (hs : Server.act (s, accs) b = some p) : p.1.Accounted p.2 := by
  cases b with
  | step a =>
      obtain ⟨hlen, hs⟩ := Option.ite_none_right_eq_some.mp hs
      obtain ⟨s', hstep, rfl⟩ := Option.map_eq_some_iff.mp hs
      refine h.step hpool (fun r hr ↦ ⟨hlen r hr, fun f hf ↦ ?_⟩) hstep
      exact ⟨hrule.1 r hr f hf, hrule.2 r hr f hf⟩
  | exhaust c d =>
      obtain ⟨-, hs⟩ := Option.ite_none_left_eq_some.mp hs
      cases hs
      exact h.account (h.consumes.exhaust c d) rfl
  | call c d =>
      obtain ⟨-, hs⟩ := Option.ite_none_left_eq_some.mp hs
      cases hs
      exact h.account (h.consumes.call c d) rfl
  | back c value =>
      obtain ⟨hlen, hs⟩ := Option.ite_none_left_eq_some.mp hs
      cases hs
      refine h.account (h.consumes.back hlen fun f hf ↦ ?_) Account.dropped_back
      exact ⟨hrule.1 (c, value) rfl f hf, hrule.2 (c, value) rfl f hf⟩

theorem accounted_of_reach (hpool : cfg.threadPool = true)
    (h : Reach act RulePassedOn (start cfg listenerFd, fun _ ↦ .fresh) (s, accs)) :
    s.Accounted accs :=
  h.invariant (I := fun p ↦ p.1.Accounted p.2) (accounted_start listenerFd _)
    fun hinv hrule hs ↦ hinv.act hpool hrule hs

/-- **No readiness is left to a callback that nobody calls.**  When the callbacks obey the rule and
pass on what the ones they call return, a connection in use without a task has consumed what the
events reported, in each direction that has a callback. -/
theorem consumed_of_reach (hpool : cfg.threadPool = true)
    (h : Reach act RulePassedOn (start cfg listenerFd, fun _ ↦ .fresh) (s, accs))
    (hfd : 0 ≤ (s.store.conn c).fd)
    (hnone : ∀ i w, s.store.worker i = some w → w.conn = c →
      w.changeCount ≠ (s.store.conn c).changeCount)
    (hcallback : (s.store.conn c).callback d ≠ none) :
    (accs c).unconsumed d = false ∧ (accs c).dropped d = false := by
  have hinv := accounted_of_reach hpool h
  have hout : ∀ p, ¬ s.store.Attended c p := by
    rintro p ⟨i, w, hw, hc, hcount, -⟩
    exact hnone i w hw hc hcount
  constructor
  · refine Bool.eq_false_iff.mpr fun hunconsumed ↦ ?_
    exact hout _ (hinv.consumes.covered c d hfd ⟨hcallback, hunconsumed⟩)
  · refine Bool.eq_false_iff.mpr fun hdropped ↦ ?_
    exact hout _ (hinv.discards c d hfd hdropped).begun

/-- A run of the server and its callbacks is one of the server. -/
theorem reach_of_act {ok : POServer cfg × Accounts cfg → Deed cfg → Prop}
    {p q : POServer cfg × Accounts cfg} (h : Reach act ok p q) : Reach Server.step Any p.1 q.1 := by
  induction h with
  | refl => exact .refl
  | @tail t u b _ _ hs ih =>
      obtain ⟨s, accs⟩ := t
      cases b with
      | step a =>
          obtain ⟨-, hs⟩ := Option.ite_none_right_eq_some.mp hs
          obtain ⟨s', hstep, rfl⟩ := Option.map_eq_some_iff.mp hs
          exact ih.tail trivial hstep
      | exhaust | call | back =>
          obtain ⟨-, hs⟩ := Option.ite_none_left_eq_some.mp hs
          cases hs
          exact ih

/-- A server that runs has no task when it has none of those that were created. -/
theorem worker_eq_none {ok : POServer cfg × Accounts cfg → Deed cfg → Prop} {accs₀ : Accounts cfg}
    (hpool : cfg.threadPool = true) (h : Reach act ok (start cfg listenerFd, accs₀) (s, accs))
    (hrun : s.store.exited = false) (hnone : ∀ i < s.store.workers, (s.store.worker i).isNone)
    (i : ℕ) : s.store.worker i = none := by
  have hcore := (threaded_of_reach hpool (reach_of_act h)).core hrun
  cases hw : s.store.worker i with
  | none => rfl
  | some w =>
      have hnone := hnone i (hcore.sound.tasks i w hw).fresh
      rw [hw] at hnone
      cases hnone

/-- An event is handed to the read callback, which reads all there is. -/
abbrev readsAll : List (Deed (oneConnection true)) :=
  (acceptsFirst true).map .step ++
    ([.step (.epollWait [.conn ⟨0, true, false, false, false, 0⟩]), .step (.proceed 0 true),
      .step (.proceed 0 true), .step (.proceed 0 true), .step (.work 0 .go true),
      .step (.work 0 .go true), .step (.work 0 .go true), .exhaust 0 .read,
      .step (.work 0 (.returns 0) true), .step (.work 0 .go true), .step (.work 0 .go true),
      .step (.work 0 .go true), .step (.work 0 .go true), .step (.work 0 .go true)] :
      List (Deed (oneConnection true)))

/-- Connection `0` is in use and without a task, after a call of its read callback. -/
theorem consumed_of_readsAll :
    ∃ p : POServer (oneConnection true) × Accounts (oneConnection true),
      Reach act RulePassedOn (start _ fun _ ↦ 3, fun _ ↦ .fresh) p ∧
      0 ≤ (p.1.store.conn 0).fd ∧ (p.1.store.conn 0).callback .read ≠ none ∧
      p.1.store.history = [.called .read 0 0] ∧
      (p.2 0).unconsumed .read = false ∧ (p.2 0).dropped .read = false := by
  obtain ⟨⟨s, accs⟩, hreach, hfd, hcallback, hhistory, hrun, hnone⟩ :
      ∃ p : POServer (oneConnection true) × Accounts (oneConnection true),
        Reach act RulePassedOn (start _ fun _ ↦ 3, fun _ ↦ .fresh) p ∧
        0 ≤ (p.1.store.conn 0).fd ∧ (p.1.store.conn 0).callback .read ≠ none ∧
        p.1.store.history = [.called .read 0 0] ∧ p.1.store.exited = false ∧
        ∀ i < p.1.store.workers, (p.1.store.worker i).isNone = true :=
    exists_reach_of_exec_decide readsAll (by decide)
  refine ⟨(s, accs), hreach, hfd, hcallback, hhistory, ?_⟩
  refine consumed_of_reach rfl hreach hfd (fun i w hw ↦ ?_) hcallback
  cases (worker_eq_none rfl hreach hrun hnone i).symm.trans hw

/-- The read callback sets a write callback and removes itself, with the event not consumed. The
write callback sets it again, and so it is called: it returns `1`.  The write callback does not look
at that, writes all it can, and returns `0`. -/
abbrev swallows : List (Deed (oneConnection true)) :=
  (acceptsFirst true).map .step ++
    ([.step (.epollWait [.conn ⟨0, true, false, false, false, 0⟩]), .step (.proceed 0 true),
      .step (.proceed 0 true), .step (.proceed 0 true), .step (.work 0 .go true),
      .step (.work 0 .go true), .step (.work 0 .go true),
      .step (.work 0 (.setCallback .write (some ⟨1, 0⟩)) true),
      .step (.work 0 (.setCallback .read none) true), .step (.work 0 (.returns 0) true),
      .step (.work 0 .go true), .step (.work 0 .go true), .step (.work 0 .go true),
      .step (.work 0 .go true), .step (.work 0 .go true), .step (.proceed 0 true),
      .step (.proceed 0 true), .step (.proceed 0 true), .step (.doNextEvents 0),
      .step (.proceed 0 true), .step (.proceed 0 true), .step (.proceed 0 true),
      .step (.epollWait [.conn ⟨0, false, true, false, false, 0⟩]), .step (.proceed 0 true),
      .step (.proceed 0 true), .step (.proceed 0 true), .step (.work 1 .go true),
      .step (.work 1 .go true), .step (.work 1 .go true), .step (.work 1 .go true),
      .step (.work 1 (.setCallback .read (some ⟨0, 0⟩)) true), .back 0 1, .exhaust 0 .write,
      .step (.work 1 (.returns 0) true), .step (.work 1 .go true), .step (.work 1 .go true),
      .step (.work 1 .go true), .step (.work 1 .go true), .step (.proceed 0 true),
      .step (.proceed 0 true), .step (.proceed 0 true), .step (.doNextEvents 0),
      .step (.proceed 0 true), .step (.proceed 0 true), .step (.proceed 0 true)] :
      List (Deed (oneConnection true)))

/-- Every callback that returned zero obeyed the rule, and the one that returned `1` was called by
another one: the server waits for events, with the input of connection `0` left to the read
callback. -/
theorem not_consumed_of_swallows :
    ∃ p : POServer (oneConnection true) × Accounts (oneConnection true),
      Reach act Rule (start _ fun _ ↦ 3, fun _ ↦ .fresh) p ∧ p.1.master = .epollWait ∧
      0 ≤ (p.1.store.conn 0).fd ∧ (∀ i, (p.1.store.worker i).isNone = true) ∧
      (p.1.store.conn 0).callback .read ≠ none ∧ (p.2 0).unconsumed .read = true := by
  obtain ⟨⟨s, accs⟩, hreach, hmaster, hfd, hcallback, hunconsumed, hrun, hnone⟩ :
      ∃ p : POServer (oneConnection true) × Accounts (oneConnection true),
        Reach act Rule (start _ fun _ ↦ 3, fun _ ↦ .fresh) p ∧ p.1.master = .epollWait ∧
        0 ≤ (p.1.store.conn 0).fd ∧ (p.1.store.conn 0).callback .read ≠ none ∧
        (p.2 0).unconsumed .read = true ∧ p.1.store.exited = false ∧
        ∀ i < p.1.store.workers, (p.1.store.worker i).isNone = true :=
    exists_reach_of_exec_decide swallows (by decide)
  refine ⟨(s, accs), hreach, hmaster, hfd, fun i ↦ ?_, hcallback, hunconsumed⟩
  rw [worker_eq_none rfl hreach hrun hnone i]
  rfl

end POServer

end Tidbits.Server
