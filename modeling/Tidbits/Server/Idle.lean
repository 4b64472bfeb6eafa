import Tidbits.Server.Holders

/-!
# Connections without callbacks

A service that finds neither callback installed at the end of its pass removes the
connection.  So a connection in use without callbacks is one that a task is in its
pass over, or is about to remove.

`doEvent` discards an event for which it finds no callback, and removes or marks
the connection.  The task is there to honour the mark.
-/

namespace Tidbits.Server

open Tidbits.Transition

variable {cfg : Config} {P : ℕ → ℕ → Prop}

namespace Place

/-- The task is in its pass over the callbacks, or removes the connection at its end. -/
def Removes : Place → Prop
  | .serving (.done removeMe) | .lockServer removeMe | .lockConn removeMe => removeMe = true
  | .serving _ => True
  | .queued | .locked => False

/-- The task has begun its pass over the callbacks, and not ended. -/
def Begun : Place → Prop
  | .serving _ | .lockServer _ | .lockConn _ => True
  | .queued | .locked => False

theorem Removes.begun {place : Place} (h : place.Removes) : place.Begun := by
  cases place with
  | queued | locked => exact h
  | serving | lockServer | lockConn => trivial

end Place

namespace Connection

variable {conn conn' : Connection}

/-- What a step outside a service leaves of a connection: its callbacks, its readiness and a
mark. -/
structure Unserved (conn conn' : Connection) : Prop where
  changeCount : conn'.changeCount = conn.changeCount
  callback : conn'.callback = conn.callback
  ready : ∀ d, conn.ready d = true → conn'.ready d = true
  marked : conn.markedForRemoval = true → conn'.markedForRemoval = true

theorem Unserved.refl (conn : Connection) : conn.Unserved conn := ⟨rfl, rfl, fun _ ↦ id, id⟩

theorem unserved_readied (conn : Connection) (e : ConnEvent cfg) :
    conn.Unserved (conn.readied e) :=
  ⟨rfl, rfl, fun _ hready ↦ (Bool.or_eq_true _ _).mpr (.inl hready), id⟩

theorem Unserved.noCallback (h : conn.Unserved conn') : conn'.noCallback = conn.noCallback := by
  unfold Connection.noCallback
  rw [h.callback]

theorem noCallback_accepted {fd : ℤ} {now : Time} {callback : Callback} {n : ℕ} :
    (conn.accepted fd now callback n).noCallback = false := by
  simp [Connection.noCallback, accepted, setCallback]

/-- A service pass goes on, or removes the connection when it ends without callbacks. -/
theorem removes_of_serve {phase : Phase} {b : ServiceAction} {r : ServiceStep}
    (h : conn.serve phase b = some r) (hnone : r.conn.noCallback = true) :
    (Place.serving r.phase).Removes := by
  cases phase with
  | test d removeMe =>
      cases b with
      | go =>
          rw [serve] at h
          split_ifs at h
          · cases h
            trivial
          · cases h
            cases d <;> trivial
      | setCallback | setCleanupCallback | returns => cases h
  | inCallback d removeMe =>
      cases b with
      | go => cases h
      | setCallback d' callback =>
          cases h
          trivial
      | setCleanupCallback callback =>
          cases h
          trivial
      | returns value =>
          cases h
          cases d <;> trivial
  | check removeMe =>
      cases b with
      | go =>
          cases h
          exact (Bool.or_eq_true _ _).mpr (.inr hnone)
      | setCallback | setCleanupCallback | returns => cases h
  | done removeMe => cases b <;> cases h

end Connection

namespace Store

variable {s s' : Store cfg} {c : ConnId cfg} {source : Option ℕ} {i : ℕ} {w : Worker cfg}
  {b : ServiceAction} {p q : Place → Prop}

/-- A task for the present use of the connection is at such a place. -/
def Attended (s : Store cfg) (c : ConnId cfg) (p : Place → Prop) : Prop :=
  ∃ i w, s.worker i = some w ∧ w.conn = c ∧ w.changeCount = (s.conn c).changeCount ∧ p w.place

namespace Attended

theorem mono (h : s.Attended c p) (hpq : ∀ place, p place → q place) : s.Attended c q := by
  obtain ⟨i, w, hw, hc, hcount, hp⟩ := h
  exact ⟨i, w, hw, hc, hcount, hpq _ hp⟩

/-- No task moves or ends. -/
theorem of_worker (h : s.Attended c p)
    (hworker : ∀ i w, s.worker i = some w → s'.worker i = some w)
    (hcount : (s'.conn c).changeCount = (s.conn c).changeCount) : s'.Attended c p := by
  obtain ⟨i, w, hw, hc, hcount', hp⟩ := h
  exact ⟨i, w, hworker i w hw, hc, hcount'.trans hcount.symm, hp⟩

/-- A task moves: it may be the only one at such a place. -/
theorem of_works (h : s.Attended c p) (hworks : s.Works i w b s') (hw : s.worker i = some w)
    (hopen : 0 ≤ (s'.conn c).fd) :
    s'.Attended c p ∨ w.conn = c ∧ w.changeCount = (s.conn c).changeCount ∧ p w.place := by
  obtain ⟨j, wj, hj, hc, hcount, hp⟩ := h
  by_cases hji : j = i
  · subst hji
    cases hj.symm.trans hw
    exact .inr ⟨hc, hcount, hp⟩
  · refine .inl ⟨j, wj, (hworks.worker_of_ne hji).trans hj, hc, ?_, hp⟩
    rcases hworks.sameUse_or_closed c with huse | hclosed
    · exact hcount.trans huse.changeCount.symm
    · exact absurd hopen hclosed.not_open

end Attended

/-- The task that moved is at such a place. -/
theorem attended_self {place : Place} (hself : s'.worker i = some { w with place := place })
    (hcount : w.changeCount = (s'.conn w.conn).changeCount) (hp : p place) :
    s'.Attended w.conn p := ⟨i, _, hself, rfl, hcount, hp⟩

/-- A connection in use without callbacks has a task that is in its pass over it, or removes
it. -/
def IdleRemoved (s : Store cfg) : Prop :=
  ∀ c, 0 ≤ (s.conn c).fd → (s.conn c).noCallback = true → s.Attended c Place.Removes

theorem idleRemoved_create (cfg : Config) : (create cfg).IdleRemoved :=
  fun _ hfd ↦ absurd hfd Connection.closed_unused.not_open

/-- **Where a step of a task leaves a connection without callbacks.** -/
theorem IdleRemoved.works (h : s.IdleRemoved) (htasks : s.Tasks P) (hworks : s.Works i w b s')
    (hw : s.worker i = some w) : s'.IdleRemoved := by
  intro c hopen hnone
  -- the connection stays as it is, and the task gets from one place to the next
  have hplace : s'.conn = s.conn →
      (w.changeCount = (s'.conn w.conn).changeCount → w.place.Removes →
        s'.Attended w.conn Place.Removes) → s'.Attended c Place.Removes := by
    intro hconn hnext
    have hold := h c (by rw [← hconn]; exact hopen) (by rw [← hconn]; exact hnone)
    rcases hold.of_works hworks hw hopen with hdone | ⟨rfl, hcount, hp⟩
    · exact hdone
    · exact hnext (hconn ▸ hcount) hp
  cases hworks with
  | locks hp hfree =>
      refine hplace rfl fun _ hremoves ↦ ?_
      rw [hp] at hremoves
      exact hremoves.elim
  | leaves hp hcount =>
      refine hplace rfl fun _ hremoves ↦ ?_
      rw [hp] at hremoves
      exact hremoves.elim
  | begins hp hcount =>
      refine hplace rfl fun _ hremoves ↦ ?_
      rw [hp] at hremoves
      exact hremoves.elim
  | serves hp hr hconn hworker hmutex =>
      have hworks : s.Works i w b s' := .serves hp hr hconn hworker hmutex
      by_cases hc : c = w.conn
      · subst hc
        have hself : s'.conn w.conn = _ := (congrFun hconn w.conn).trans (Function.update_self ..)
        refine attended_self ((congrFun hworker i).trans (Function.update_self ..)) ?_ ?_
        · rw [hself, (Connection.served_serve hr).changeCount]
          exact ((htasks i w hw).serving _ hp).symm
        · exact Connection.removes_of_serve hr (hself ▸ hnone)
      · have hsame := hworks.conn_of_ne hc
        rcases (h c (hsame ▸ hopen) (hsame ▸ hnone)).of_works hworks hw hopen with hdone | hself
        · exact hdone
        · exact absurd hself.1.symm hc
  | unlocks hp =>
      refine hplace rfl fun hcount hremoves ↦ ?_
      rw [hp] at hremoves
      exact attended_self (Function.update_self ..) hcount hremoves
  | locksServer hp =>
      refine hplace rfl fun hcount hremoves ↦ ?_
      rw [hp] at hremoves
      exact attended_self (Function.update_self ..) hcount hremoves
  | finishes hp hfree hkeep =>
      refine hplace rfl fun hcount hremoves ↦ ?_
      rw [hp] at hremoves
      exact absurd ⟨hcount.symm, hremoves⟩ hkeep.1
  | removes hp hfree hcause hsets =>
      have hworks : s.Works i w .go s' := .removes hp hfree hcause hsets
      have hc : c ≠ w.conn := by
        rintro rfl
        rw [hsets.conn_self] at hopen
        exact (Connection.closed_reset true).not_open hopen
      have hsame := hworks.conn_of_ne hc
      rcases (h c (hsame ▸ hopen) (hsame ▸ hnone)).of_works hworks hw hopen with hdone | hself
      · exact hdone
      · exact absurd hself.1.symm hc
  | exits hp hfree hcause hsame hexit =>
      refine hplace hsame.conn fun hcount hremoves ↦ ?_
      have hself : s'.worker i = some { w with place := w.place } := hsame.worker ▸ hw
      exact attended_self hself hcount hremoves

/-- **Where a step of a task leaves a connection that is marked.**  A task that has begun its pass
does not end without removing it. -/
theorem Attended.begun_works (h : s.Attended c Place.Begun) (hworks : s.Works i w b s')
    (hw : s.worker i = some w) (hopen : 0 ≤ (s'.conn c).fd)
    (hmark : (∃ removeMe, w.place = .lockConn removeMe) → (s.conn c).markedForRemoval = true) :
    s'.Attended c Place.Begun := by
  rcases h.of_works hworks hw hopen with hdone | ⟨rfl, hcount, hbegun⟩
  · exact hdone
  have hcount' : w.changeCount = (s'.conn w.conn).changeCount := by
    rcases hworks.sameUse_or_closed w.conn with huse | hclosed
    · exact hcount.trans huse.changeCount.symm
    · exact absurd hopen hclosed.not_open
  cases hworks with
  | locks hp hfree =>
      rw [hp] at hbegun
      exact hbegun.elim
  | leaves hp hne => exact absurd hcount hne
  | begins hp hcount => exact attended_self (Function.update_self ..) hcount' trivial
  | serves hp hr hconn hworker hmutex =>
      exact attended_self ((congrFun hworker i).trans (Function.update_self ..)) hcount' trivial
  | unlocks hp => exact attended_self (Function.update_self ..) hcount' trivial
  | locksServer hp => exact attended_self (Function.update_self ..) hcount' trivial
  | finishes hp hfree hkeep =>
      exact absurd (hkeep.2.symm.trans (hmark ⟨_, hp⟩)) Bool.false_ne_true
  | removes hp hfree hcause hsets =>
      rw [hsets.conn_self] at hopen
      exact absurd hopen (Connection.closed_reset true).not_open
  | exits hp hfree hcause hsame hexit =>
      have hself : s'.worker i = some { w with place := w.place } := hsame.worker ▸ hw
      exact attended_self hself hcount' hbegun

/-- What `checkTryRemoveConnection` does not remove is marked, or the process ends. -/
theorem Tries.unserved (h : s.Tries c source s') {x : ConnId cfg} (hopen : 0 ≤ (s'.conn x).fd) :
    0 ≤ (s.conn x).fd ∧ (s.conn x).Unserved (s'.conn x) := by
  by_cases hx : x = c
  · subst hx
    cases h with
    | removes hfree hsets =>
        rw [hsets.conn_self] at hopen
        exact absurd hopen (Connection.closed_reset true).not_open
    | exits hfree hsame hexit =>
        rw [hsame.conn] at hopen ⊢
        exact ⟨hopen, .refl _⟩
    | marks hheld hsets =>
        rw [hsets.conn_self] at hopen ⊢
        exact ⟨hopen, rfl, rfl, fun _ ↦ id, fun _ ↦ rfl⟩
  · rw [h.conn_of_ne hx] at hopen ⊢
    exact ⟨hopen, .refl _⟩

end Store

namespace POServer

variable {s s' : POServer cfg} {a : Action cfg} {c : ConnId cfg}
  {listenerFd : ListenerId cfg → ℤ}

/-- A connection in use after a step outside a service is one that was accepted in it, or is
unserved. -/
theorem Moves.unserved (h : s.Moves a s') (hother : ∀ i b ok, a ≠ .work i b ok)
    (hopen : 0 ≤ (s'.store.conn c).fd) :
    0 ≤ (s.store.conn c).fd ∧ (s.store.conn c).Unserved (s'.store.conn c) ∨
      ¬ 0 ≤ (s.store.conn c).fd ∧ ∃ fd now callback n,
        s'.store.conn c = (s.store.conn c).accepted fd now callback n := by
  have hsame : s'.store.conn c = s.store.conn c →
      0 ≤ (s.store.conn c).fd ∧ (s.store.conn c).Unserved (s'.store.conn c) := by
    intro heq
    rw [heq] at hopen ⊢
    exact ⟨hopen, .refl _⟩
  have hupdate : ∀ {d : ConnId cfg} {conn : Connection},
      s'.store.conn = Function.update s.store.conn d conn → 0 ≤ (s.store.conn d).fd →
      (s.store.conn d).Unserved conn →
      0 ≤ (s.store.conn c).fd ∧ (s.store.conn c).Unserved (s'.store.conn c) := by
    intro d conn hconn hfd hunserved
    by_cases hc : c = d
    · subst hc
      rw [hconn, Function.update_self]
      exact ⟨hfd, hunserved⟩
    · exact hsame (by rw [hconn, Function.update_of_ne hc])
  cases h with
  | stays hstore htries hother hm => exact .inl (hsame (by rw [hstore.conn]))
  | finds | takes | passes | returns | ends => exact .inl (hsame rfl)
  | sweeps hm hm' hc hfd htries => exact .inl (htries.unserved hopen)
  | removesIdle hm hm' hfd htries => exact .inl (htries.unserved hopen)
  | hangsUp hm hm' hfd hflag htries => exact .inl (htries.unserved hopen)
  | readies hm hm' hfd hfree hcalls hsets =>
      exact .inl (hupdate hsets.conn hfd (Connection.unserved_readied _ _))
  | queues hm hm' hfd hfree hcalls hfresh hconn hworker hmutex =>
      exact .inl (hupdate hconn hfd (Connection.unserved_readied _ _))
  | @accepts d fd now callback _ hm hm' hfd hclosed hfree hsets =>
      by_cases hc : c = d
      · subst hc
        exact .inr ⟨hclosed, fd, now, callback, _, hsets.conn_self⟩
      · exact .inl (hsame (hsets.conn_of_ne hc))
  | works => exact absurd rfl (hother _ _ _)

theorem idleRemoved_moves (h : s.store.IdleRemoved) (htasks : s.store.Tasks P)
    (hmoves : s.Moves a s') : s'.store.IdleRemoved := by
  by_cases hother : ∀ i b ok, a ≠ .work i b ok
  · intro c hopen hnone
    rcases hmoves.unserved hother hopen with ⟨hfd, hunserved⟩ | ⟨-, fd, now, callback, n, hconn⟩
    · exact (h c hfd (hunserved.noCallback ▸ hnone)).of_worker (hmoves.worker_of_other hother).1
        hunserved.changeCount
    · rw [hconn, Connection.noCallback_accepted] at hnone
      cases hnone
  · cases hmoves with
    | stays hsame htries hother' hm => exact absurd hother' hother
    | works hm hw hworks => exact h.works htasks hworks hw
    | _ => exact absurd (fun _ _ _ heq ↦ (nomatch heq)) hother

/-- The connection is about to be removed: a task has begun its pass over it, and it is marked, or
the master is at the removal. -/
structure Discards (s : POServer cfg) (c : ConnId cfg) : Prop where
  begun : s.store.Attended c Place.Begun
  marked : s.store.exited = false → (s.store.conn c).markedForRemoval = true ∨
    ∃ e rest, s.master = .noCallback e rest ∧ e.conn = c

/-- `doEvent` finds no callback. -/
theorem discards_of_finds {e : ConnEvent cfg} {rest : List (Event cfg)} (h : s.store.IdleRemoved)
    (hfd : 0 ≤ (s.store.conn e.conn).fd) (hnone : (s.store.conn e.conn).noCallback = true) :
    ({ s with master := .noCallback e rest } : POServer cfg).Discards e.conn :=
  ⟨(h e.conn hfd hnone).mono fun _ ↦ Place.Removes.begun, fun _ ↦ .inr ⟨e, rest, rfl, rfl⟩⟩

/-- **What is about to be removed stays so until it is removed.** -/
theorem Discards.moves (h : s.Discards c) (hrun : s.store.exited = false) (hcore : s.Core P)
    (hmoves : s.Moves a s') (hfd : 0 ≤ (s.store.conn c).fd)
    (hopen : 0 ≤ (s'.store.conn c).fd) : s'.Discards c := by
  by_cases hother : ∀ i b ok, a ≠ .work i b ok
  · rcases hmoves.unserved hother hopen with ⟨-, hunserved⟩ | ⟨hclosed, -⟩
    · refine ⟨h.begun.of_worker (hmoves.worker_of_other hother).1 hunserved.changeCount,
        fun hrun' ↦ ?_⟩
      rcases h.marked hrun with hmark | ⟨e, rest, hm, hc⟩
      · exact .inl (hunserved.marked hmark)
      · -- the master removes the connection, or marks it
        cases hmoves with
        | stays hsame htries hother' hm' =>
            rcases hm' with ⟨-, hm'⟩ | ⟨hm', -⟩
            · exact .inr ⟨e, rest, hm'.trans hm, hc⟩
            · rw [hm] at hm'
              cases hm'
        | removesIdle hm₀ hm' hfd' htries =>
            cases hm.symm.trans hm₀
            subst hc
            left
            cases htries with
            | removes hfree hsets =>
                rw [hsets.conn_self] at hopen
                exact absurd hopen (Connection.closed_reset true).not_open
            | exits hfree hsame hexit =>
                exact absurd (hrun'.symm.trans hexit) Bool.false_ne_true
            | marks hheld hsets =>
                rw [hsets.conn_self]
        | finds hm' | takes hm' | passes hm' | readies hm' | queues hm' | returns hm' | ends hm'
        | hangsUp hm' => cases hm.symm.trans hm'
        | sweeps hm' =>
            rw [hm] at hm'
            cases hm'
        | accepts hm' =>
            rw [hm] at hm'
            cases hm'
        | works => exact absurd rfl (hother _ _ _)
    · exact absurd hfd hclosed
  · cases hmoves with
    | stays hsame htries hother' hm => exact absurd hother' hother
    | works hm hw hworks =>
        refine ⟨h.begun.begun_works hworks hw hopen ?_, ?_⟩
        · rintro ⟨removeMe, hp⟩
          rcases h.marked hrun with hmark | ⟨e, rest, hm', -⟩
          · exact hmark
          · -- the task that ends has the server mutex, and so has the master
            exact absurd ⟨_, removeMe, hw, hp⟩ (hcore.not_finishing (by rw [hm']; trivial) _)
        · rw [hm]
          exact fun _ ↦ (h.marked hrun).imp_left fun hmark ↦ hworks.marked_of_open hmark hopen
    | _ => exact absurd (fun _ _ _ heq ↦ (nomatch heq)) hother

end POServer

end Tidbits.Server
