import Tidbits.Service.Session

/-!
# The callbacks of a session

`Stepped` inverts the step function once.  `Wired` is what holds of the
callbacks in every state: between two calls that change them, `Write()` is
installed if and only if the queue is not empty.

A step of a session in a `ServiceConnection()` is what the server allows a
callback to do, or nothing that the server can see (`reach_serves`).
-/

namespace Tidbits.Service

open Server

variable {Call Out Result : Type} {cfg : Config Call Out Result}

/-- The transitions of a session, by what moves. -/
inductive Stepped (cfg : Config Call Out Result) (s : Session Out) :
    Action Call Result → Session Out → Prop
  /-- `doEvent` sets `readReady` or `writeReady`. -/
  | event (d : Direction) :
      s.control = .idle → Stepped cfg s (.event d) { s with conn := s.conn.setReady d true }
  /-- `ServiceConnection()` is called. -/
  | service : s.control = .idle → Stepped cfg s .service { s with control := .service .start }
  /-- There is nothing to call in the direction. -/
  | skip (d : Direction) (removeMe : Bool) :
      s.control = .service (.test d removeMe) → s.conn.calls d = false →
        Stepped cfg s .go { s with control := .service (.after d removeMe) }
  /-- `Setup()` is called. -/
  | callSetup (removeMe : Bool) :
      s.control = .service (.test .read removeMe) → s.conn.calls .read = true →
        s.conn.callback .read = some setupCallback →
        Stepped cfg s .go { s with control := .setup }
  /-- `Read()` is called. -/
  | callRead (removeMe : Bool) :
      s.control = .service (.test .read removeMe) → s.conn.calls .read = true →
        s.conn.callback .read ≠ some setupCallback →
        Stepped cfg s .go { s with control := .read s.input.inLen }
  /-- `Write()` is called. -/
  | callWrite (removeMe : Bool) :
      s.control = .service (.test .write removeMe) → s.conn.calls .write = true →
        Stepped cfg s .go { s with control := .write (.service removeMe) }
  /-- The test for a connection without callbacks. -/
  | check (removeMe : Bool) :
      s.control = .service (.check removeMe) →
        Stepped cfg s .go
          { s with
            control := .service (.done (removeMe || s.conn.noCallback))
            asked := s.asked || s.conn.noCallback }
  /-- `ServiceConnection()` is done with the callbacks. -/
  | done (removeMe : Bool) :
      s.control = .service (.done removeMe) →
        Stepped cfg s .go { s with control := if removeMe then .closing else .idle }
  /-- `Setup()` goes on. -/
  | setUp (ok : Bool) : s.control = .setup → Stepped cfg s (.setUp ok) (s.setUp cfg ok)
  /-- `Read()` goes on. -/
  | read {oldLen : ℕ} {r : ReadResult} {next : ReadStep} :
      s.control = .read oldLen → Session.readInput cfg s.input r = some next →
        Stepped cfg s (.read r) (s.readStep oldLen r next)
  /-- The session callback terminates the message. -/
  | terminate (value : UInt8) :
      s.control = .session →
        Stepped cfg s (.terminate value) { s with input := s.input.terminate value }
  /-- A send. -/
  | send {caller : Caller} (call : Call) :
      s.sender = some caller →
        Stepped cfg s (.send call) (s.send caller (cfg.writer.entry call))
  /-- `Write()` goes on. -/
  | write {caller : Caller} {e : Entry Out} {rest : List (Entry Out)} {r : Result}
      {next : WriteStep Out} :
      s.control = .write caller → s.queue = e :: rest → cfg.writer.write e.out r = some next →
        Stepped cfg s (.write r) (s.writeStep caller e.no rest next)
  /-- The session callback returns. -/
  | returns (value : POServiceReturn) :
      s.control = .session → Stepped cfg s (.returns value) (s.sessionReturned value)
  /-- `removeConnection()` calls `Cleanup()`. -/
  | cleanup :
      s.control = .idle ∨ s.control = .closing → s.conn.cleanupCallback.isSome = true →
        Stepped cfg s .remove { s with control := .cleanup }
  /-- `removeConnection()` has no callback to call. -/
  | remove :
      s.control = .idle ∨ s.control = .closing → s.conn.cleanupCallback.isSome = false →
        Stepped cfg s .remove (s.reset cfg.threadPool)
  /-- `Cleanup()` and `removeConnection()` go on to their ends. -/
  | cleanedUp :
      s.control = .cleanup → Stepped cfg s .cleanedUp (s.cleanUp.reset cfg.threadPool)

variable {s s' : Session Out} {a : Action Call Result}

theorem stepped_of_serve {phase : Phase} (hc : s.control = .service phase)
    (hs : s.serve phase = some s') : Stepped cfg s .go s' := by
  cases phase with
  | test d removeMe =>
      cases d with
      | read =>
          simp only [Session.serve] at hs
          split_ifs at hs with hcalls hsetup
          · cases hs
            exact .callSetup removeMe hc hcalls hsetup
          · cases hs
            exact .callRead removeMe hc hcalls hsetup
          · cases hs
            exact .skip .read removeMe hc (Bool.not_eq_true _ ▸ hcalls)
      | write =>
          simp only [Session.serve] at hs
          split_ifs at hs with hcalls
          · cases hs
            exact .callWrite removeMe hc hcalls
          · cases hs
            exact .skip .write removeMe hc (Bool.not_eq_true _ ▸ hcalls)
  | inCallback d removeMe => cases hs
  | check removeMe =>
      cases hs
      exact .check removeMe hc
  | done removeMe =>
      cases hs
      exact .done removeMe hc

theorem stepped_of_step (hs : step cfg s a = some s') : Stepped cfg s a s' := by
  cases a with
  | event d =>
      obtain ⟨hc, heq⟩ := Option.ite_none_right_eq_some.mp hs
      cases heq
      exact .event d hc
  | service =>
      obtain ⟨hc, heq⟩ := Option.ite_none_right_eq_some.mp hs
      cases heq
      exact .service hc
  | go =>
      simp only [step] at hs
      split at hs
      · rename_i phase hc
        exact stepped_of_serve hc hs
      · cases hs
  | setUp ok =>
      obtain ⟨hc, heq⟩ := Option.ite_none_right_eq_some.mp hs
      cases heq
      exact .setUp ok hc
  | read r =>
      simp only [step] at hs
      split at hs
      · rename_i oldLen hc
        obtain ⟨next, hnext, rfl⟩ := Option.map_eq_some_iff.mp hs
        exact .read hc hnext
      · cases hs
  | terminate value =>
      obtain ⟨hc, heq⟩ := Option.ite_none_right_eq_some.mp hs
      cases heq
      exact .terminate value hc
  | send call =>
      obtain ⟨caller, hcaller, rfl⟩ := Option.map_eq_some_iff.mp hs
      exact .send call hcaller
  | write r =>
      simp only [step] at hs
      split at hs
      · rename_i caller e rest hc hqueue
        obtain ⟨next, hnext, rfl⟩ := Option.map_eq_some_iff.mp hs
        exact .write hc hqueue hnext
      · cases hs
  | returns value =>
      obtain ⟨hc, heq⟩ := Option.ite_none_right_eq_some.mp hs
      cases heq
      exact .returns value hc
  | remove =>
      simp only [step] at hs
      split_ifs at hs with hc hcleanup
      · cases hs
        exact .cleanup hc hcleanup
      · cases hs
        exact .remove hc (Bool.not_eq_true _ ▸ hcleanup)
  | cleanedUp =>
      obtain ⟨hc, heq⟩ := Option.ite_none_right_eq_some.mp hs
      cases heq
      exact .cleanedUp hc

/-- Nothing happens to a connection that is removed. -/
theorem Stepped.not_removed (hs : Stepped cfg s a s') : s.control ≠ .removed := by
  intro hremoved
  cases hs with
  | event d hc => exact nomatch hremoved.symm.trans hc
  | service hc => exact nomatch hremoved.symm.trans hc
  | skip d removeMe hc _ => exact nomatch hremoved.symm.trans hc
  | callSetup removeMe hc _ _ => exact nomatch hremoved.symm.trans hc
  | callRead removeMe hc _ _ => exact nomatch hremoved.symm.trans hc
  | callWrite removeMe hc _ => exact nomatch hremoved.symm.trans hc
  | check removeMe hc => exact nomatch hremoved.symm.trans hc
  | done removeMe hc => exact nomatch hremoved.symm.trans hc
  | setUp ok hc => exact nomatch hremoved.symm.trans hc
  | read hc _ => exact nomatch hremoved.symm.trans hc
  | terminate value hc => exact nomatch hremoved.symm.trans hc
  | send call hcaller =>
      rw [Session.sender, hremoved] at hcaller
      cases hcaller
  | write hc _ _ => exact nomatch hremoved.symm.trans hc
  | returns value hc => exact nomatch hremoved.symm.trans hc
  | cleanup hc _ => rcases hc with hc | hc <;> exact nomatch hremoved.symm.trans hc
  | remove hc _ => rcases hc with hc | hc <;> exact nomatch hremoved.symm.trans hc
  | cleanedUp hc => exact nomatch hremoved.symm.trans hc

/-! ## What is installed -/

namespace Control

/-- Between two calls that change the queue or the callbacks, as long as the service has not asked
for the close. -/
def Settled : Control → Prop
  | .idle | .setup | .read _ | .session => True
  | .service (.test _ removeMe) | .service (.inCallback _ removeMe) | .service (.check removeMe)
  | .service (.done removeMe) => removeMe = false
  | .write _ | .closing | .cleanup | .removed | .exited => False

/-- In a `ServiceConnection()` that is going to remove the connection. -/
def Removes : Control → Prop
  | .service (.test _ removeMe) | .service (.inCallback _ removeMe) | .service (.check removeMe)
  | .service (.done removeMe) => removeMe = true
  | _ => False

/-- In `Read()`, or in a send of the session callback. -/
def Reading : Control → Prop
  | .read _ | .session | .write .session => True
  | _ => False

end Control

namespace Session

/-- `Write()` is installed if and only if the queue is not empty. -/
def Linked (s : Session Out) : Prop :=
  s.conn.callback .write = if s.queue.isEmpty then none else some writeCallback

/-- What holds of the callbacks. -/
structure Wired (s : Session Out) : Prop where
  linked : s.control.Settled → s.Linked
  writing : ∀ caller, s.control = .write caller → s.queue ≠ [] ∧
    (caller ≠ .cleanup → s.conn.callback .write = some writeCallback) ∧
    ∀ removeMe, caller = .service removeMe → removeMe = false
  dropped : s.control.Removes → s.conn.noCallback = true
  reading : s.control.Reading → s.conn.callback .read = some readCallback
  values : ∀ callback ∈ s.conn.callback .read, callback = setupCallback ∨ callback = readCallback

theorem Linked.installed (h : s.Linked) :
    s.conn.callback .write = some writeCallback ↔ s.queue ≠ [] := by
  rw [h]
  cases s.queue with
  | nil => exact iff_of_false (fun heq ↦ nomatch heq) fun hne ↦ hne rfl
  | cons e rest => exact iff_of_true rfl (List.cons_ne_nil e rest)

theorem linked_of_installed (hqueue : s.queue ≠ [])
    (hcallback : s.conn.callback .write = some writeCallback) : s.Linked := by
  rw [Linked, hcallback]
  cases hq : s.queue with
  | nil => exact absurd hq hqueue
  | cons e rest => rfl

/-- A `ServiceConnection()` that has something to call is not going to remove the connection. -/
theorem Wired.keeps {d : Direction} {removeMe : Bool} (h : s.Wired)
    (hc : s.control = .service (.test d removeMe)) (hcalls : s.conn.calls d = true) :
    removeMe = false := by
  refine Bool.eq_false_iff.mpr fun hremoves ↦ ?_
  have hnone := h.dropped (by rw [hc]; exact hremoves)
  rw [Connection.noCallback, Bool.and_eq_true] at hnone
  cases d <;> simp_all [Connection.calls]

/-- A state in which only the values of the read callback count. -/
theorem wired_of_loose (hsettled : ¬ s.control.Settled)
    (hwrite : ∀ caller, s.control ≠ .write caller)
    (hremoves : ¬ s.control.Removes) (hreading : ¬ s.control.Reading)
    (hvalues : ∀ callback ∈ s.conn.callback .read,
      callback = setupCallback ∨ callback = readCallback) : s.Wired :=
  ⟨fun h ↦ absurd h hsettled, fun caller h ↦ absurd h (hwrite caller), fun h ↦ absurd h hremoves,
    fun h ↦ absurd h hreading, hvalues⟩

/-- A settled state outside the calls of `Read()`. -/
theorem wired_of_settled (hlinked : s.Linked) (hwrite : ∀ caller, s.control ≠ .write caller)
    (hremoves : ¬ s.control.Removes)
    (hreading : s.control.Reading → s.conn.callback .read = some readCallback)
    (hvalues : ∀ callback ∈ s.conn.callback .read,
      callback = setupCallback ∨ callback = readCallback) : s.Wired :=
  ⟨fun _ ↦ hlinked, fun caller h ↦ absurd h (hwrite caller), fun h ↦ absurd h hremoves, hreading,
    hvalues⟩

theorem wired_start (fd : ℤ) (acceptTime : Time) (acceptNo : ℕ) :
    (start Out fd acceptTime acceptNo).Wired := by
  refine wired_of_settled rfl (fun _ h ↦ nomatch h) id False.elim ?_
  rintro callback ⟨⟩
  exact .inl rfl

/-! ### Returns -/

theorem wired_serviceReturned {d : Direction} {value : ℤ} (hlinked : s.Linked)
    (hvalues : ∀ callback ∈ s.conn.callback .read,
      callback = setupCallback ∨ callback = readCallback) :
    (s.serviceReturned d false value).Wired := by
  unfold serviceReturned Connection.callbackReturned
  split_ifs with hvalue hinstalled
  · cases d with
    | read =>
        exact ⟨fun h ↦ (nomatch h), fun _ h ↦ (nomatch h), fun _ ↦ rfl, False.elim,
          fun _ h ↦ nomatch h⟩
    | write =>
        exact ⟨fun h ↦ (nomatch h), fun _ h ↦ (nomatch h), fun _ ↦ rfl, False.elim,
          fun _ h ↦ nomatch h⟩
  · cases d <;>
      exact wired_of_settled hlinked (fun _ h ↦ nomatch h) (fun h ↦ nomatch h) False.elim hvalues
  · cases d <;>
      exact wired_of_settled hlinked (fun _ h ↦ nomatch h) (fun h ↦ nomatch h) False.elim hvalues

theorem wired_writeReturned {caller : Caller} {value : ℤ}
    (hlinked : caller ≠ .cleanup → s.Linked)
    (hservice : ∀ removeMe, caller = .service removeMe → removeMe = false)
    (hreading : caller = .session → s.conn.callback .read = some readCallback)
    (hvalues : ∀ callback ∈ s.conn.callback .read,
      callback = setupCallback ∨ callback = readCallback) :
    (s.writeReturned value caller).Wired := by
  cases caller with
  | service removeMe =>
      cases hservice removeMe rfl
      exact wired_serviceReturned (hlinked fun h ↦ nomatch h) hvalues
  | outside =>
      exact wired_of_settled (hlinked fun h ↦ nomatch h) (fun _ h ↦ nomatch h) id False.elim hvalues
  | session =>
      exact wired_of_settled (hlinked fun h ↦ nomatch h) (fun _ h ↦ nomatch h) id
        (fun _ ↦ hreading rfl) hvalues
  | cleanup => exact wired_of_loose id (fun _ h ↦ nomatch h) id id hvalues

/-! ### The functions -/

theorem Wired.setUp (h : s.Wired) (hc : s.control = .setup) (ok : Bool) :
    (s.setUp cfg ok).Wired := by
  have hlinked : s.Linked := h.linked (by rw [hc]; trivial)
  unfold Session.setUp
  split_ifs
  · exact wired_serviceReturned hlinked h.values
  · refine wired_of_settled hlinked (fun _ heq ↦ nomatch heq) id (fun _ ↦ rfl) ?_
    rintro callback ⟨⟩
    exact .inr rfl

theorem Wired.readStep {oldLen : ℕ} {r : ReadResult} (h : s.Wired) (hc : s.control = .read oldLen)
    (next : ReadStep) : (s.readStep oldLen r next).Wired := by
  have hlinked : s.Linked := h.linked (by rw [hc]; trivial)
  have hreading : s.conn.callback .read = some readCallback := h.reading (by rw [hc]; trivial)
  cases next with
  | goesOn input =>
      exact wired_of_settled hlinked (fun _ heq ↦ nomatch heq) id (fun _ ↦ hreading) h.values
  | returns input value =>
      unfold Session.readStep
      dsimp only
      split_ifs
      · exact wired_serviceReturned hlinked h.values
      · exact wired_serviceReturned hlinked h.values
      · exact wired_of_settled hlinked (fun _ heq ↦ nomatch heq) id (fun _ ↦ hreading) h.values
  | ends => exact wired_of_loose id (fun _ heq ↦ nomatch heq) id id h.values

theorem Wired.sessionReturned (h : s.Wired) (hc : s.control = .session)
    (value : POServiceReturn) : (s.sessionReturned value).Wired := by
  have hlinked : s.Linked := h.linked (by rw [hc]; trivial)
  cases value with
  | «continue» => exact wired_serviceReturned hlinked h.values
  | wait => exact wired_serviceReturned hlinked h.values
  | close =>
      unfold Session.sessionReturned
      dsimp only
      split_ifs
      · exact wired_serviceReturned hlinked h.values
      · exact wired_serviceReturned hlinked fun _ heq ↦ nomatch heq
  | error => exact wired_serviceReturned hlinked h.values

/-- Where a send comes from. -/
theorem sender_cases {caller : Caller} (hs : s.sender = some caller) :
    (s.control = .idle ∧ caller = .outside) ∨ (s.control = .session ∧ caller = .session) ∨
      (s.control = .cleanup ∧ caller = .cleanup) := by
  unfold sender at hs
  split at hs
  · rename_i hc
    obtain ⟨-, heq⟩ := Option.ite_none_right_eq_some.mp hs
    cases heq
    exact .inl ⟨hc, rfl⟩
  · rename_i hc
    cases hs
    exact .inr (.inl ⟨hc, rfl⟩)
  · rename_i hc
    cases hs
    exact .inr (.inr ⟨hc, rfl⟩)
  · cases hs

theorem Wired.send {caller : Caller} (h : s.Wired) (hs : s.sender = some caller) (out : Out) :
    (s.send caller out).Wired := by
  have hfree : (∀ caller, s.control ≠ .write caller) ∧ ¬ s.control.Removes := by
    rcases sender_cases hs with ⟨hc, -⟩ | ⟨hc, -⟩ | ⟨hc, -⟩ <;> rw [hc] <;>
      exact ⟨fun _ heq ↦ (nomatch heq), id⟩
  have hqueue : s.queue ++ [⟨s.queued.length, out⟩] ≠ [] :=
    List.append_ne_nil_of_right_ne_nil _ (List.cons_ne_nil _ _)
  unfold Session.send
  dsimp only
  split_ifs with hnone hcalled
  · -- `Write()` is installed and called
    refine ⟨False.elim, ?_, False.elim, fun hreading ↦ ?_, h.values⟩
    · rintro caller' ⟨⟩
      refine ⟨hqueue, fun _ ↦ rfl, ?_⟩
      rintro removeMe rfl
      rcases sender_cases hs with ⟨-, heq⟩ | ⟨-, heq⟩ | ⟨-, heq⟩ <;> cases heq
    · rcases sender_cases hs with ⟨hc, rfl⟩ | ⟨hc, rfl⟩ | ⟨hc, rfl⟩
      · exact False.elim hreading
      · exact h.reading (by rw [hc]; trivial)
      · exact False.elim hreading
  · -- `Write()` is installed and waits for the socket
    exact ⟨fun _ ↦ linked_of_installed hqueue rfl, fun caller' heq ↦ absurd heq (hfree.1 caller'),
      fun hremoves ↦ absurd hremoves hfree.2,
      h.reading, h.values⟩
  · -- `Write()` is there
    refine ⟨fun hset ↦ linked_of_installed hqueue ?_,
      fun caller' heq ↦ absurd heq (hfree.1 caller'), fun hremoves ↦ absurd hremoves hfree.2,
      h.reading, h.values⟩
    have hsome : ¬ (s.conn.callback .write).isNone = true := hnone
    show s.conn.callback .write = some writeCallback
    rw [h.linked hset] at hsome ⊢
    split_ifs at hsome ⊢
    · exact absurd rfl hsome
    · rfl

theorem Wired.writeStep {caller : Caller} {e : Entry Out} {rest : List (Entry Out)}
    (h : s.Wired) (hc : s.control = .write caller) (next : WriteStep Out) :
    (s.writeStep caller e.no rest next).Wired := by
  obtain ⟨-, hinstalled, hservice⟩ := h.writing caller hc
  have hreading : caller = .session → s.conn.callback .read = some readCallback := by
    rintro rfl
    exact h.reading (by rw [hc]; trivial)
  -- the head of the queue may change, but `Write()` stays
  have hlinked : ∀ {t : Session Out}, t.queue ≠ [] → t.conn = s.conn → caller ≠ .cleanup →
      t.Linked := fun htqueue htconn hcleanup ↦
    linked_of_installed htqueue (htconn ▸ hinstalled hcleanup)
  have hgoesOn : ∀ {t : Session Out}, t.queue ≠ [] → t.conn = s.conn → t.control = s.control →
      t.Wired := by
    intro t htqueue htconn htcontrol
    rw [hc] at htcontrol
    refine ⟨fun hset ↦ ?_, fun caller' hc' ↦ ?_, fun hremoves ↦ ?_, ?_, htconn ▸ h.values⟩
    · rw [htcontrol] at hset
      exact hset.elim
    · rw [htcontrol] at hc'
      cases hc'
      exact ⟨htqueue, htconn ▸ hinstalled, hservice⟩
    · rw [htcontrol] at hremoves
      exact hremoves.elim
    · rw [htcontrol, htconn, ← hc]
      exact h.reading
  cases next with
  | goesOn sent out => exact hgoesOn (List.cons_ne_nil _ _) rfl rfl
  | returns sent out value =>
      unfold Session.writeStep
      dsimp only
      split_ifs with htwo hvalue hrest
      · exact wired_writeReturned (hlinked (List.cons_ne_nil _ _) rfl) hservice hreading h.values
      · exact wired_writeReturned (hlinked (List.cons_ne_nil _ _) rfl) hservice hreading h.values
      · refine wired_writeReturned (fun _ ↦ ?_) hservice hreading h.values
        show none = if rest.isEmpty then none else some writeCallback
        rw [if_pos hrest]
      · exact hgoesOn (fun heq : rest = [] ↦ hrest (heq ▸ rfl)) rfl rfl
  | ends => exact wired_of_loose id (fun _ heq ↦ nomatch heq) id id h.values

/-- **Every step keeps the callbacks in order.** -/
theorem Wired.stepped (h : s.Wired) (hs : Stepped cfg s a s') : s'.Wired := by
  cases hs with
  | event d hc =>
      have hlinked : s.Linked := h.linked (by rw [hc]; trivial)
      have hcontrol : { s with conn := s.conn.setReady d true }.control = .idle := hc
      exact wired_of_settled hlinked (by rw [hcontrol]; exact fun _ heq ↦ nomatch heq)
        (by rw [hcontrol]; exact id) (by rw [hcontrol]; exact False.elim) h.values
  | service hc =>
      have hlinked : s.Linked := h.linked (by rw [hc]; trivial)
      exact wired_of_settled hlinked (fun _ heq ↦ nomatch heq) (fun heq ↦ nomatch heq) False.elim
        h.values
  | skip d removeMe hc _ =>
      have hlinked : removeMe = false → s.Linked := fun heq ↦ h.linked (by rw [hc]; exact heq)
      have hdropped : removeMe = true → s.conn.noCallback = true :=
        fun heq ↦ h.dropped (by rw [hc]; exact heq)
      cases d <;> exact ⟨hlinked, fun _ heq ↦ (nomatch heq), hdropped, False.elim, h.values⟩
  | callSetup removeMe hc hcalls _ =>
      have hkeeps : removeMe = false := h.keeps hc hcalls
      exact wired_of_settled (h.linked (by rw [hc]; exact hkeeps)) (fun _ heq ↦ nomatch heq) id
        False.elim h.values
  | callRead removeMe hc hcalls hsetup =>
      have hkeeps : removeMe = false := h.keeps hc hcalls
      refine wired_of_settled (h.linked (by rw [hc]; exact hkeeps)) (fun _ heq ↦ nomatch heq) id
        (fun _ ↦ ?_) h.values
      obtain ⟨callback, hcallback⟩ :=
        Option.isSome_iff_exists.mp (Bool.and_eq_true_iff.mp hcalls).2
      rcases h.values callback hcallback with rfl | rfl
      · exact absurd hcallback hsetup
      · exact hcallback
  | callWrite removeMe hc hcalls =>
      have hkeeps : removeMe = false := h.keeps hc hcalls
      have hlinked : s.Linked := h.linked (by rw [hc]; exact hkeeps)
      refine ⟨False.elim, ?_, False.elim, False.elim, h.values⟩
      rintro caller ⟨⟩
      have hsome : (s.conn.callback .write).isSome = true := (Bool.and_eq_true_iff.mp hcalls).2
      have hqueue : s.queue ≠ [] := by
        intro hnil
        rw [hlinked, hnil] at hsome
        cases hsome
      refine ⟨hqueue, fun _ ↦ hlinked.installed.mpr hqueue, ?_⟩
      rintro removeMe' ⟨⟩
      exact hkeeps
  | check removeMe hc =>
      refine ⟨fun hset ↦ ?_, fun _ heq ↦ (nomatch heq), fun hremoves ↦ ?_, False.elim, h.values⟩
      · exact h.linked (by rw [hc]; exact (Bool.or_eq_false_iff.mp hset).1)
      · rcases Bool.or_eq_true_iff.mp hremoves with hremoves | hnone
        · exact h.dropped (by rw [hc]; exact hremoves)
        · exact hnone
  | done removeMe hc =>
      cases removeMe with
      | true => exact wired_of_loose id (fun _ heq ↦ nomatch heq) id id h.values
      | false =>
          exact wired_of_settled (h.linked (by rw [hc]; rfl)) (fun _ heq ↦ nomatch heq) id
            False.elim h.values
  | setUp ok hc => exact h.setUp hc ok
  | read hc _ => exact h.readStep hc _
  | terminate value hc =>
      have hlinked : s.Linked := h.linked (by rw [hc]; trivial)
      have hcontrol : { s with input := s.input.terminate value }.control = .session := hc
      refine wired_of_settled hlinked ?_ ?_ (fun _ ↦ h.reading (by rw [hc]; trivial)) h.values
      · rw [hcontrol]
        exact fun _ heq ↦ nomatch heq
      · rw [hcontrol]
        exact id
  | send call hcaller => exact h.send hcaller _
  | write hc _ _ => exact h.writeStep hc _
  | returns value hc => exact h.sessionReturned hc value
  | cleanup _ _ => exact wired_of_loose id (fun _ heq ↦ nomatch heq) id id h.values
  | remove _ _ => exact wired_of_loose id (fun _ heq ↦ nomatch heq) id id fun _ heq ↦ nomatch heq
  | cleanedUp _ => exact wired_of_loose id (fun _ heq ↦ nomatch heq) id id fun _ heq ↦ nomatch heq

theorem wired_of_reach {ok : Session Out → Action Call Result → Prop} {fd : ℤ}
    {acceptTime : Time} {acceptNo : ℕ}
    (h : Transition.Reach (step cfg) ok (start Out fd acceptTime acceptNo) s) : s.Wired :=
  h.invariant (wired_start fd acceptTime acceptNo) fun hw _ hs ↦ hw.stepped (stepped_of_step hs)

end Session

/-! ## The server's view -/

/-- Where the `ServiceConnection()` that works on the session is. -/
def Control.phase : Control → Option Phase
  | .service phase => some phase
  | .setup | .read _ | .session | .write .session => some (.inCallback .read false)
  | .write (.service removeMe) => some (.inCallback .write removeMe)
  | .write .outside | .write .cleanup | .idle | .closing | .cleanup | .removed | .exited => none

/-- A step of `ServiceConnection()` as the server knows it. -/
def serves (x : Connection × Phase) (a : ServiceAction) : Option (Connection × Phase) :=
  (x.1.serve x.2 a).map fun r ↦ (r.conn, r.phase)

namespace Session

variable {phase phase' : Phase} {conn conn' : Connection} {d : Direction} {removeMe : Bool}
  {value : ℤ}

theorem reach_setCallback (conn : Connection) (d d' : Direction) (removeMe : Bool)
    (callback : Option Callback) :
    Transition.Reach serves Transition.Any (conn, .inCallback d removeMe)
      ((conn.poServerSetCallback d' callback).1, .inCallback d removeMe) :=
  .single (a := .setCallback d' callback) trivial rfl

theorem reach_serviceReturned (hconn : conn = s.conn)
    (hp : (s.serviceReturned d removeMe value).control.phase = some phase') :
    Transition.Reach serves Transition.Any (conn, .inCallback d removeMe)
      ((s.serviceReturned d removeMe value).conn, phase') := by
  subst hconn
  cases hp
  exact .single (a := .returns value) trivial rfl

theorem reach_writeReturned {caller : Caller} (hp : (Control.write caller).phase = some phase)
    (hconn : conn = s.conn) (hp' : (s.writeReturned value caller).control.phase = some phase') :
    Transition.Reach serves Transition.Any (conn, phase)
      ((s.writeReturned value caller).conn, phase') := by
  cases caller with
  | service removeMe =>
      cases hp
      exact reach_serviceReturned hconn hp'
  | session =>
      cases hp
      cases hp'
      exact hconn ▸ .refl
  | outside => cases hp
  | cleanup => cases hp

theorem reach_calls (removeMe : Bool) (hcalls : conn.calls d = true) :
    Transition.Reach serves Transition.Any (conn, .test d removeMe)
      (conn, .inCallback d removeMe) := by
  refine .single (a := .go) trivial ?_
  rw [serves, Connection.serve, hcalls]
  rfl

theorem reach_skips (removeMe : Bool) (hcalls : conn.calls d = false) :
    Transition.Reach serves Transition.Any (conn, .test d removeMe)
      (conn, .after d removeMe) := by
  refine .single (a := .go) trivial ?_
  rw [serves, Connection.serve, hcalls]
  rfl

theorem reach_setUp (hp' : (s.setUp cfg ok).control.phase = some phase') :
    Transition.Reach serves Transition.Any (s.conn, .inCallback .read false)
      ((s.setUp cfg ok).conn, phase') := by
  unfold setUp at hp' ⊢
  split_ifs at hp' ⊢
  · exact reach_serviceReturned rfl hp'
  · cases hp'
    exact .head (a := .setCleanupCallback (some cleanupCallback)) trivial rfl
      (reach_setCallback _ _ _ _ _)

theorem reach_readStep {oldLen : ℕ} {r : ReadResult} {next : ReadStep}
    (hp' : (s.readStep oldLen r next).control.phase = some phase') :
    Transition.Reach serves Transition.Any (s.conn, .inCallback .read false)
      ((s.readStep oldLen r next).conn, phase') := by
  cases next with
  | goesOn input =>
      cases hp'
      exact .refl
  | returns input value =>
      unfold readStep at hp' ⊢
      dsimp only at hp' ⊢
      split_ifs at hp' ⊢
      · exact reach_serviceReturned rfl hp'
      · exact reach_serviceReturned rfl hp'
      · cases hp'
        exact .refl
  | ends => cases hp'

theorem reach_send {out : Out} (hc : s.control = .session)
    (hp' : (s.send .session out).control.phase = some phase') :
    Transition.Reach serves Transition.Any (s.conn, .inCallback .read false)
      ((s.send .session out).conn, phase') := by
  have hstays : s.control.phase = some phase' → phase' = .inCallback .read false := by
    rw [hc]
    rintro ⟨⟩
    rfl
  unfold send at hp' ⊢
  dsimp only at hp' ⊢
  split_ifs at hp' ⊢
  · cases hp'
    exact reach_setCallback _ _ _ _ _
  · cases hstays hp'
    exact reach_setCallback _ _ _ _ _
  · cases hstays hp'
    exact .refl

theorem reach_setCallback_of_write {caller : Caller}
    (hp : (Control.write caller).phase = some phase) (d : Direction)
    (callback : Option Callback) :
    Transition.Reach serves Transition.Any (conn, phase)
      ((conn.poServerSetCallback d callback).1, phase) := by
  cases caller with
  | service removeMe | session =>
      cases hp
      exact reach_setCallback _ _ _ _ _
  | outside | cleanup => cases hp

theorem reach_writeStep {caller : Caller} {no : ℕ} {rest : List (Entry Out)} {next : WriteStep Out}
    (hc : s.control = .write caller) (hp : (Control.write caller).phase = some phase)
    (hp' : (s.writeStep caller no rest next).control.phase = some phase') :
    Transition.Reach serves Transition.Any (s.conn, phase)
      ((s.writeStep caller no rest next).conn, phase') := by
  have hstays : s.control.phase = some phase' → phase' = phase := by
    rw [hc, hp]
    rintro ⟨⟩
    rfl
  cases next with
  | goesOn sent out =>
      cases hstays hp'
      exact .refl
  | returns sent out value =>
      unfold writeStep at hp' ⊢
      dsimp only at hp' ⊢
      split_ifs at hp' ⊢
      · exact reach_writeReturned hp rfl hp'
      · exact reach_writeReturned hp rfl hp'
      · exact .trans (reach_setCallback_of_write hp _ _) (reach_writeReturned hp rfl hp')
      · cases hstays hp'
        exact .refl
  | ends => cases hp'

theorem reach_sessionReturned {value : POServiceReturn}
    (hp' : (s.sessionReturned value).control.phase = some phase') :
    Transition.Reach serves Transition.Any (s.conn, .inCallback .read false)
      ((s.sessionReturned value).conn, phase') := by
  cases value with
  | «continue» | wait | error => exact reach_serviceReturned rfl hp'
  | close =>
      unfold sessionReturned at hp' ⊢
      dsimp only at hp' ⊢
      split_ifs at hp' ⊢
      · exact reach_serviceReturned rfl hp'
      · exact .trans (reach_setCallback _ _ _ _ _) (reach_serviceReturned rfl hp')

/-- **A session does nothing in `ServiceConnection()` that the server does not allow.** -/
theorem reach_serves (h : s.Wired) (hs : Stepped cfg s a s') (hp : s.control.phase = some phase)
    (hp' : s'.control.phase = some phase') :
    Transition.Reach serves Transition.Any (s.conn, phase) (s'.conn, phase') := by
  cases hs with
  | event d hc | service hc =>
      rw [hc] at hp
      cases hp
  | skip d removeMe hc hcalls =>
      rw [hc] at hp
      cases hp
      cases hp'
      exact reach_skips removeMe hcalls
  | callSetup removeMe hc hcalls _ | callRead removeMe hc hcalls _ =>
      cases h.keeps hc hcalls
      rw [hc] at hp
      cases hp
      cases hp'
      exact reach_calls false hcalls
  | callWrite removeMe hc hcalls =>
      rw [hc] at hp
      cases hp
      cases hp'
      exact reach_calls removeMe hcalls
  | check removeMe hc =>
      rw [hc] at hp
      cases hp
      cases hp'
      exact .single (a := .go) trivial rfl
  | done removeMe hc => cases removeMe <;> cases hp'
  | setUp ok hc =>
      rw [hc] at hp
      cases hp
      exact reach_setUp hp'
  | read hc _ =>
      rw [hc] at hp
      cases hp
      exact reach_readStep hp'
  | terminate value hc =>
      cases hp.symm.trans hp'
      exact .refl
  | send call hcaller =>
      rcases sender_cases hcaller with ⟨hc, -⟩ | ⟨hc, rfl⟩ | ⟨hc, -⟩
      · rw [hc] at hp
        cases hp
      · rw [hc] at hp
        cases hp
        exact reach_send hc hp'
      · rw [hc] at hp
        cases hp
  | write hc _ _ => exact reach_writeStep hc (hc ▸ hp) hp'
  | returns value hc =>
      rw [hc] at hp
      cases hp
      exact reach_sessionReturned hp'
  | cleanup _ _ => cases hp'
  | remove _ _ => cases hp'
  | cleanedUp _ => cases hp'

end Session

end Tidbits.Service
