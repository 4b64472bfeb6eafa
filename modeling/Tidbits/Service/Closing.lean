import Tidbits.Service.Callbacks

/-!
# The end of a session

When the session callback returns `POSERVICE_CLOSE`, `Read()` asks for the close at
once if the queue is empty, and otherwise removes itself and leaves it to
`Write()`.  `Closes` says that from then on the session callback is not called
again, and that the service has asked for the close if and only if the queue is
empty, as long as `Write()` has not failed.
-/

namespace Tidbits.Service

open Server

variable {Call Out Result : Type} {cfg : Config Call Out Result}
  {s s' : Session Out} {a : Action Call Result}

namespace Control

/-- Not in `Setup()` or `Read()`. -/
def Quiet : Control → Prop
  | .setup | .read _ | .session | .write .session => False
  | _ => True

/-- Before the removal of the connection. -/
def Serving : Control → Prop
  | .cleanup | .write .cleanup | .removed | .exited => False
  | _ => True

/-- Where there may be no session. -/
def Unset : Control → Prop
  | .idle | .service _ | .setup | .closing | .removed | .exited => True
  | _ => False

/-- On the way to the removal of the connection. -/
def Leaving : Control → Prop
  | .service (.test _ removeMe) | .service (.inCallback _ removeMe) | .service (.check removeMe)
  | .service (.done removeMe) => removeMe = true
  | .closing | .cleanup | .write .cleanup | .removed | .exited => True
  | _ => False

end Control

namespace Session

/-- What holds after `POSERVICE_CLOSE`, and of the request for a close. -/
structure Closes (s : Session Out) : Prop where
  silent : s.closed = true → s.conn.callback .read = none ∧ s.control.Quiet
  leaving : s.asked = true → s.control.Leaving
  removes : s.control.Removes → s.asked = true
  outside : s.closed = true → s.control = .write .outside → s.writeError = true
  exact : s.closed = true → s.writeError = false → s.control.Serving →
    (s.asked = true ↔ s.queue = [])

theorem closes_start (fd : ℤ) (acceptTime : Time) (acceptNo : ℕ) :
    (start Out fd acceptTime acceptNo).Closes :=
  ⟨fun h ↦ (nomatch h), fun h ↦ (nomatch h), False.elim, fun h ↦ (nomatch h), fun h ↦ nomatch h⟩

/-- While the session callback may be called, there is nothing to say of the queue. -/
theorem closes_of_open (hclosed : s.closed = false) (hleaving : s.asked = true → s.control.Leaving)
    (hremoves : s.control.Removes → s.asked = true) : s.Closes := by
  have hopen : s.closed ≠ true := Bool.eq_false_iff.mp hclosed
  exact ⟨fun h ↦ absurd h hopen, hleaving, hremoves, fun h ↦ absurd h hopen,
    fun h ↦ absurd h hopen⟩

/-- A connection that is being removed. -/
theorem closes_of_gone (hserving : ¬ s.control.Serving) (hleaving : s.control.Leaving)
    (hquiet : s.control.Quiet) (hremoves : ¬ s.control.Removes)
    (hread : s.closed = true → s.conn.callback .read = none) : s.Closes where
  silent := fun h ↦ ⟨hread h, hquiet⟩
  leaving := fun _ ↦ hleaving
  removes := fun h ↦ absurd h hremoves
  outside := by
    intro _ hc
    rw [hc] at hserving
    exact absurd trivial hserving
  exact := fun _ _ h ↦ absurd h hserving

/-- `Read()` returns for a session that is still open. -/
theorem closes_readReturned {value : ℤ} (hclosed : s.closed = false) (hasked : s.asked = false) :
    (s.readReturned value).Closes := by
  unfold readReturned serviceReturned Connection.callbackReturned
  split_ifs with hvalue hinstalled
  · refine closes_of_open hclosed (fun _ ↦ rfl) fun _ ↦ ?_
    show (s.asked || decide (value ≠ 0)) = true
    rw [decide_eq_true hvalue, Bool.or_true]
  · refine closes_of_open hclosed (fun h ↦ ?_) fun h ↦ nomatch h
    have h' : (s.asked || decide (value ≠ 0)) = true := h
    rw [hasked, decide_eq_false hvalue] at h'
    cases h'
  · refine closes_of_open hclosed (fun h ↦ ?_) fun h ↦ nomatch h
    have h' : (s.asked || decide (value ≠ 0)) = true := h
    rw [hasked, decide_eq_false hvalue] at h'
    cases h'

/-- `Write()` or, after `POSERVICE_CLOSE`, `Read()` returns to `ServiceConnection()`: it asks for
the close if the queue is empty or it has failed. -/
theorem closes_serviceReturned {d : Direction} {value : ℤ} (hasked : s.asked = false)
    (hread : s.closed = true → s.conn.callback .read = none)
    (hvalue : s.closed = true → s.writeError = false → (value ≠ 0 ↔ s.queue = [])) :
    (s.serviceReturned d false value).Closes := by
  have hasks : (s.asked || decide (value ≠ 0)) = true ↔ value ≠ 0 := by
    rw [hasked, Bool.false_or, decide_eq_true_eq]
  unfold serviceReturned Connection.callbackReturned
  split_ifs with hne hinstalled
  · refine ⟨fun _ ↦ ⟨rfl, ?_⟩, fun _ ↦ ?_, fun _ ↦ hasks.mpr hne, ?_, fun hc hw _ ↦ ?_⟩
    · cases d <;> trivial
    · cases d <;> rfl
    · cases d <;> exact fun _ hc ↦ nomatch hc
    · exact hasks.trans (hvalue hc hw)
  · refine ⟨fun hc ↦ ⟨hread hc, ?_⟩, fun h ↦ absurd (hasks.mp h) hne, ?_, ?_, fun hc hw _ ↦ ?_⟩
    · cases d <;> trivial
    · cases d <;> exact fun h ↦ nomatch h
    · cases d <;> exact fun _ hc ↦ nomatch hc
    · exact hasks.trans (hvalue hc hw)
  · refine ⟨fun hc ↦ ⟨hread hc, ?_⟩, fun h ↦ absurd (hasks.mp h) hne, ?_, ?_, fun hc hw _ ↦ ?_⟩
    · cases d <;> trivial
    · cases d <;> exact fun h ↦ nomatch h
    · cases d <;> exact fun _ hc ↦ nomatch hc
    · exact hasks.trans (hvalue hc hw)

/-- A session is not closed while it reads. -/
theorem Closes.isOpen (h : s.Closes) (hc : ¬ s.control.Quiet) : s.closed = false :=
  Bool.eq_false_iff.mpr fun hclosed ↦ hc (h.silent hclosed).2

/-- Nothing was asked for, except on the way to the removal. -/
theorem Closes.notAsked (h : s.Closes) (hc : ¬ s.control.Leaving) : s.asked = false :=
  Bool.eq_false_iff.mpr fun hasked ↦ hc (h.leaving hasked)

/-! ## The functions -/

theorem Closes.setUp (h : s.Closes) (hc : s.control = .setup) (ok : Bool) :
    (s.setUp cfg ok).Closes := by
  have hopen : s.closed = false := h.isOpen (by rw [hc]; exact id)
  have hasked : s.asked = false := h.notAsked (by rw [hc]; exact id)
  unfold Session.setUp
  split_ifs
  · exact closes_readReturned hopen hasked
  · exact closes_of_open hopen (fun heq ↦ absurd heq (Bool.eq_false_iff.mp hasked)) False.elim

theorem Closes.readStep {oldLen : ℕ} {r : ReadResult} (h : s.Closes) (hc : s.control = .read oldLen)
    (next : ReadStep) : (s.readStep oldLen r next).Closes := by
  have hopen : s.closed = false := h.isOpen (by rw [hc]; exact id)
  have hasked : s.asked = false := h.notAsked (by rw [hc]; exact id)
  have hnot : s.asked ≠ true := Bool.eq_false_iff.mp hasked
  cases next with
  | goesOn input => exact closes_of_open hopen (fun heq ↦ absurd heq hnot) False.elim
  | returns input value =>
      unfold Session.readStep
      dsimp only
      split_ifs
      · exact closes_readReturned hopen hasked
      · exact closes_readReturned hopen hasked
      · exact closes_of_open hopen (fun heq ↦ absurd heq hnot) False.elim
  | ends => exact closes_of_open hopen (fun heq ↦ absurd heq hnot) False.elim

theorem Closes.sessionReturned (h : s.Closes) (hc : s.control = .session)
    (value : POServiceReturn) : (s.sessionReturned value).Closes := by
  have hopen : s.closed = false := h.isOpen (by rw [hc]; exact id)
  have hasked : s.asked = false := h.notAsked (by rw [hc]; exact id)
  cases value with
  | «continue» => exact closes_readReturned hopen hasked
  | wait => exact closes_readReturned hopen hasked
  | close =>
      unfold Session.sessionReturned
      dsimp only
      split_ifs with hempty
      · -- the read callback is dropped with the others
        refine ⟨fun _ ↦ ⟨rfl, trivial⟩, fun _ ↦ rfl, fun _ ↦ ?_, fun _ heq ↦ (nomatch heq),
          fun _ _ _ ↦ iff_of_true ?_ (List.isEmpty_iff.mp hempty)⟩
        · exact Bool.or_true _
        · exact Bool.or_true _
      · refine closes_serviceReturned hasked (fun _ ↦ rfl) fun _ _ ↦ ?_
        exact iff_of_false (fun hne ↦ hne rfl) fun hnil : s.queue = [] ↦ hempty (hnil ▸ rfl)
  | error => exact closes_readReturned hopen hasked

/-- More in the queue, while nothing was asked for. -/
theorem Closes.of_queued (h : s.Closes) (hcontrol : s'.control = s.control)
    (hconn : s'.conn.callback .read = s.conn.callback .read) (hclosed : s'.closed = s.closed)
    (hasks : s'.asked = s.asked) (herror : s'.writeError = s.writeError) (hqueue : s'.queue ≠ [])
    (hasked : s.control.Serving → s.asked = false) : s'.Closes where
  silent := by
    rw [hclosed, hconn, hcontrol]
    exact h.silent
  leaving := by
    rw [hasks, hcontrol]
    exact h.leaving
  removes := by
    rw [hasks, hcontrol]
    exact h.removes
  outside := by
    rw [hclosed, hcontrol, herror]
    exact h.outside
  exact := by
    intro _ _ hserving
    rw [hcontrol] at hserving
    rw [hasks, hasked hserving]
    exact iff_of_false Bool.false_ne_true hqueue

theorem Closes.send {caller : Caller} (hwired : s.Wired) (h : s.Closes)
    (hs : s.sender = some caller) (out : Out) : (s.send caller out).Closes := by
  have hqueue : s.queue ++ [⟨s.queued.length, out⟩] ≠ [] :=
    List.append_ne_nil_of_right_ne_nil _ (List.cons_ne_nil _ _)
  have hasked : s.control.Serving → s.asked = false := by
    intro hserving
    refine h.notAsked ?_
    rcases sender_cases hs with ⟨hc, -⟩ | ⟨hc, -⟩ | ⟨hc, -⟩ <;> rw [hc] at hserving ⊢
    · exact id
    · exact id
    · exact hserving.elim
  unfold Session.send
  dsimp only
  split_ifs with hnone hcalled
  · rcases sender_cases hs with ⟨hc, rfl⟩ | ⟨hc, rfl⟩ | ⟨hc, rfl⟩
    · -- the queue was empty: a closed session that has not asked for the close failed to write
      have hnot : s.asked ≠ true := Bool.eq_false_iff.mp (hasked (by rw [hc]; trivial))
      refine ⟨fun hclosed ↦ ⟨(h.silent hclosed).1, trivial⟩, fun heq ↦ absurd heq hnot, False.elim,
        fun hclosed _ ↦ ?_, fun _ _ _ ↦ iff_of_false hnot hqueue⟩
      refine (Bool.not_eq_false _).mp fun herror ↦ hnot ?_
      refine (h.exact hclosed herror (by rw [hc]; trivial)).mpr ?_
      have hlinked : s.Linked := hwired.linked (by rw [hc]; trivial)
      refine Decidable.byContradiction fun hne ↦ ?_
      have hsome : (s.conn.callback .write).isNone = true := hnone
      rw [hlinked.installed.mpr hne] at hsome
      cases hsome
    · have hnot : s.asked ≠ true := Bool.eq_false_iff.mp (hasked (by rw [hc]; trivial))
      exact closes_of_open (h.isOpen (by rw [hc]; exact id)) (fun heq ↦ absurd heq hnot) False.elim
    · exact closes_of_gone id trivial trivial id fun hclosed ↦ (h.silent hclosed).1
  · exact h.of_queued rfl rfl rfl rfl rfl hqueue hasked
  · exact h.of_queued rfl rfl rfl rfl rfl hqueue hasked

/-- `Write()` returns `value`: it asks for the close if the queue is empty or it has failed. -/
theorem closes_writeReturned {caller : Caller} {value : ℤ}
    (hservice : ∀ removeMe, caller = .service removeMe → removeMe = false)
    (hsession : caller = .session → s.closed = false)
    (hasked : caller ≠ .cleanup → s.asked = false)
    (hread : s.closed = true → s.conn.callback .read = none)
    (hvalue : s.closed = true → s.writeError = false → (value ≠ 0 ↔ s.queue = []))
    (houtside : caller = .outside → s.closed = true → s.writeError = false → s.queue ≠ []) :
    (s.writeReturned value caller).Closes := by
  cases caller with
  | service removeMe =>
      cases hservice removeMe rfl
      exact closes_serviceReturned (hasked fun heq ↦ nomatch heq) hread hvalue
  | outside =>
      have hnot : s.asked ≠ true := Bool.eq_false_iff.mp (hasked fun heq ↦ nomatch heq)
      exact ⟨fun hc ↦ ⟨hread hc, trivial⟩, fun heq ↦ absurd heq hnot, False.elim,
        fun _ heq ↦ (nomatch heq), fun hc hw _ ↦ iff_of_false hnot (houtside rfl hc hw)⟩
  | session =>
      have hnot : s.asked ≠ true := Bool.eq_false_iff.mp (hasked fun heq ↦ nomatch heq)
      exact closes_of_open (hsession rfl) (fun heq ↦ absurd heq hnot) False.elim
  | cleanup => exact closes_of_gone id trivial trivial id hread

theorem Closes.writeStep {caller : Caller} {e : Entry Out} {es : List (Entry Out)}
    (hwired : s.Wired) (h : s.Closes) (hc : s.control = .write caller) (next : WriteStep Out) :
    (s.writeStep caller e.no es next).Closes := by
  obtain ⟨-, -, hservice⟩ := hwired.writing caller hc
  have hsession : caller = .session → s.closed = false := by
    rintro rfl
    exact h.isOpen (by rw [hc]; exact id)
  have hasked : caller ≠ .cleanup → s.asked = false := by
    intro hne
    refine h.notAsked ?_
    rw [hc]
    cases caller with
    | cleanup => exact absurd rfl hne
    | _ => exact id
  have hread : s.closed = true → s.conn.callback .read = none := fun hclosed ↦ (h.silent hclosed).1
  have hserving : s.control.Serving → s.asked = false := by
    intro hserving
    refine hasked ?_
    rintro rfl
    rw [hc] at hserving
    exact hserving
  cases next with
  | goesOn sent out => exact h.of_queued rfl rfl rfl rfl rfl (List.cons_ne_nil _ _) hserving
  | returns sent out value =>
      unfold Session.writeStep
      dsimp only
      split_ifs with htwo hvalue hes
      · exact closes_writeReturned hservice hsession hasked hread
          (fun _ _ ↦ iff_of_false (fun hne ↦ hne rfl) (List.cons_ne_nil _ _))
          fun _ _ _ ↦ List.cons_ne_nil _ _
      · exact closes_writeReturned hservice hsession hasked hread (fun _ heq ↦ nomatch heq)
          fun _ _ heq ↦ nomatch heq
      · refine closes_writeReturned hservice hsession hasked hread (fun hclosed _ ↦ ?_) ?_
        · -- nothing is left, and there is no read callback
          have hnone : s.conn.callback .read = none := hread hclosed
          refine iff_of_true ?_ (List.isEmpty_iff.mp hes)
          show (if (s.conn.callback .read).isSome then (0 : ℤ) else 1) ≠ 0
          rw [hnone]
          decide
        · rintro rfl hclosed herror
          have herror' : s.writeError = false := herror
          exact nomatch herror'.symm.trans (h.outside hclosed hc)
      · exact h.of_queued rfl rfl rfl rfl rfl (fun heq : es = [] ↦ hes (heq ▸ rfl)) hserving
  | ends => exact closes_of_gone id trivial trivial id hread

/-- **Every step keeps what holds of the end of a session.** -/
theorem Closes.stepped (hwired : s.Wired) (h : s.Closes) (hs : Stepped cfg s a s') : s'.Closes := by
  have hnot : ¬ s.control.Leaving → s.asked ≠ true := fun hl ↦ Bool.eq_false_iff.mp (h.notAsked hl)
  have hread : s.closed = true → s.conn.callback .read = none := fun hclosed ↦ (h.silent hclosed).1
  -- a session with a read callback to call is open
  have hreads : s.conn.calls .read = true → s.closed = false := by
    refine fun hcalls ↦ Bool.eq_false_iff.mpr fun hclosed ↦ ?_
    have hsome := (Bool.and_eq_true_iff.mp hcalls).2
    rw [hread hclosed] at hsome
    cases hsome
  cases hs with
  | event d hc => exact ⟨h.silent, h.leaving, h.removes, h.outside, h.exact⟩
  | service hc =>
      have hasked : s.asked ≠ true := hnot (by rw [hc]; exact id)
      exact ⟨fun hclosed ↦ ⟨hread hclosed, trivial⟩, fun heq ↦ absurd heq hasked,
        fun heq ↦ (by cases heq), fun _ heq ↦ (by cases heq),
        fun hclosed herror _ ↦ h.exact hclosed herror (by rw [hc]; trivial)⟩
  | skip d removeMe hc _ =>
      have hleaving : s.asked = true → removeMe = true := fun heq ↦ by
        have hl := h.leaving heq
        rw [hc] at hl
        exact hl
      have hremoves : removeMe = true → s.asked = true :=
        fun heq ↦ h.removes (by rw [hc]; exact heq)
      have hexact := fun hclosed herror ↦ h.exact hclosed herror (by rw [hc]; trivial)
      cases d <;>
        exact ⟨fun hclosed ↦ ⟨hread hclosed, trivial⟩, hleaving, hremoves,
          fun _ heq ↦ (by cases heq), fun hclosed herror _ ↦ hexact hclosed herror⟩
  | callSetup removeMe hc hcalls _ =>
      have hkeeps : removeMe = false := hwired.keeps hc hcalls
      have hasked : s.asked ≠ true := hnot (by rw [hc, hkeeps]; exact Bool.false_ne_true)
      exact closes_of_open (hreads hcalls) (fun heq ↦ absurd heq hasked) False.elim
  | callRead removeMe hc hcalls _ =>
      have hkeeps : removeMe = false := hwired.keeps hc hcalls
      have hasked : s.asked ≠ true := hnot (by rw [hc, hkeeps]; exact Bool.false_ne_true)
      exact closes_of_open (hreads hcalls) (fun heq ↦ absurd heq hasked) False.elim
  | callWrite removeMe hc hcalls =>
      have hkeeps : removeMe = false := hwired.keeps hc hcalls
      have hasked : s.asked ≠ true := hnot (by rw [hc, hkeeps]; exact Bool.false_ne_true)
      exact ⟨fun hclosed ↦ ⟨hread hclosed, trivial⟩, fun heq ↦ absurd heq hasked, False.elim,
        fun _ heq ↦ (by cases heq),
        fun hclosed herror _ ↦ h.exact hclosed herror (by rw [hc]; trivial)⟩
  | check removeMe hc =>
      have hexact := fun hclosed herror ↦ h.exact hclosed herror (by rw [hc]; trivial)
      refine ⟨fun hclosed ↦ ⟨hread hclosed, trivial⟩, fun heq ↦ ?_, fun heq ↦ ?_,
        fun _ heq ↦ (by cases heq), fun hclosed herror _ ↦ ?_⟩
      · rcases Bool.or_eq_true_iff.mp heq with heq | heq
        · have hl := h.leaving heq
          rw [hc] at hl
          have hremoves : removeMe = true := hl
          exact Bool.or_eq_true_iff.mpr (.inl hremoves)
        · exact Bool.or_eq_true_iff.mpr (.inr heq)
      · rcases Bool.or_eq_true_iff.mp heq with heq | heq
        · exact Bool.or_eq_true_iff.mpr (.inl (h.removes (by rw [hc]; exact heq)))
        · exact Bool.or_eq_true_iff.mpr (.inr heq)
      · -- without a read callback, there is none at all if and only if the queue is empty
        cases hasked : s.asked with
        | true =>
            exact iff_of_true (Bool.true_or s.conn.noCallback) ((hexact hclosed herror).mp hasked)
        | false =>
            have hsettled : s.control.Settled := by
              rw [hc]
              refine Bool.eq_false_iff.mpr fun heq ↦ ?_
              cases hasked.symm.trans (h.removes (by rw [hc]; exact heq))
            have hqueue : s.queue ≠ [] := fun hnil ↦
              by cases hasked.symm.trans ((hexact hclosed herror).mpr hnil)
            refine iff_of_false (fun hnone ↦ ?_) hqueue
            have hnone : s.conn.noCallback = true := hnone
            rw [Connection.noCallback,
              (hwired.linked hsettled).installed.mpr hqueue, Bool.and_eq_true] at hnone
            cases hnone.2
  | done removeMe hc =>
      have hleaving : s.asked = true → removeMe = true := fun heq ↦ by
        have hl := h.leaving heq
        rw [hc] at hl
        exact hl
      have hexact := fun hclosed herror ↦ h.exact hclosed herror (by rw [hc]; trivial)
      cases removeMe with
      | true =>
          exact ⟨fun hclosed ↦ ⟨hread hclosed, trivial⟩, fun _ ↦ trivial, False.elim,
            fun _ heq ↦ (by cases heq), fun hclosed herror _ ↦ hexact hclosed herror⟩
      | false =>
          exact ⟨fun hclosed ↦ ⟨hread hclosed, trivial⟩, fun heq ↦ (by cases hleaving heq),
            False.elim, fun _ heq ↦ (by cases heq), fun hclosed herror _ ↦ hexact hclosed herror⟩
  | setUp ok hc => exact h.setUp hc ok
  | read hc _ => exact h.readStep hc _
  | terminate value hc => exact ⟨h.silent, h.leaving, h.removes, h.outside, h.exact⟩
  | send call hcaller => exact h.send hwired hcaller _
  | write hc _ _ => exact h.writeStep hwired hc _
  | returns value hc => exact h.sessionReturned hc value
  | cleanup _ _ => exact closes_of_gone id trivial trivial id hread
  | remove _ _ => exact closes_of_gone id trivial trivial id fun _ ↦ rfl
  | cleanedUp _ => exact closes_of_gone id trivial trivial id fun _ ↦ rfl

/-- The session callback has returned `POSERVICE_CLOSE` for good. -/
theorem closed_of_stepped (hclosed : s.closed = true) (hs : Stepped cfg s a s') :
    s'.closed = true := by
  cases hs with
  | setUp ok hc =>
      unfold setUp
      split_ifs <;> exact hclosed
  | read hc _ =>
      rename_i oldLen r next _
      cases next with
      | returns input value =>
          unfold readStep
          dsimp only
          split_ifs <;> exact hclosed
      | _ => exact hclosed
  | send call hcaller =>
      unfold send
      dsimp only
      split_ifs <;> exact hclosed
  | write hc _ _ =>
      rename_i caller e es r next _ _
      cases next with
      | returns sent out value =>
          unfold writeStep writeFinished
          dsimp only
          split_ifs <;> cases caller <;> exact hclosed
      | _ => exact hclosed
  | returns value hc =>
      cases value with
      | close =>
          unfold sessionReturned
          dsimp only
          split_ifs <;> rfl
      | _ => exact hclosed
  | _ => exact hclosed

/-! ## Before `Setup()` and after `Cleanup()` -/

/-- Without a session there is nothing to clean up and nothing queued. -/
structure Owned (s : Session Out) : Prop where
  unset : s.conn.cleanupCallback = none → s.control ≠ .removed →
    s.queue = [] ∧ s.control.Unset ∧ s.conn.callback .read ≠ some readCallback
  removed : s.control = .removed → s.queue = []

theorem owned_start (fd : ℤ) (acceptTime : Time) (acceptNo : ℕ) :
    (start Out fd acceptTime acceptNo).Owned :=
  ⟨fun _ _ ↦ ⟨rfl, trivial, fun heq ↦ nomatch heq⟩, fun heq ↦ nomatch heq⟩

/-- A session in use stays in use. -/
theorem owned_of_some (hcleanup : s.conn.cleanupCallback ≠ none)
    (hsame : s'.conn.cleanupCallback = s.conn.cleanupCallback) (hlive : s'.control ≠ .removed) :
    s'.Owned :=
  ⟨fun heq ↦ absurd (hsame.symm.trans heq) hcleanup, fun heq ↦ absurd heq hlive⟩

theorem owned_serviceReturned {d : Direction} {removeMe : Bool} {value : ℤ}
    (h : s.conn.cleanupCallback = none →
      s.queue = [] ∧ s.conn.callback .read ≠ some readCallback) :
    (s.serviceReturned d removeMe value).Owned := by
  have hunset : ∀ b : Bool, (Control.service (Phase.after d b)).Unset := by
    cases d <;> exact fun _ ↦ trivial
  unfold serviceReturned Connection.callbackReturned
  split_ifs
  · exact ⟨fun heq _ ↦ ⟨(h heq).1, hunset _, fun heq ↦ nomatch heq⟩, fun heq ↦ nomatch heq⟩
  · exact ⟨fun heq _ ↦ ⟨(h heq).1, hunset _, (h heq).2⟩, fun heq ↦ nomatch heq⟩
  · exact ⟨fun heq _ ↦ ⟨(h heq).1, hunset _, (h heq).2⟩, fun heq ↦ nomatch heq⟩

theorem owned_writeReturned {caller : Caller} {value : ℤ} (h : s.conn.cleanupCallback ≠ none) :
    (s.writeReturned value caller).Owned := by
  cases caller with
  | service removeMe => exact owned_serviceReturned fun heq ↦ absurd heq h
  | _ => exact owned_of_some h rfl fun heq ↦ nomatch heq

/-- A step of the connection without a session, to where no session is needed. -/
theorem Owned.setControl (h : s.Owned) (hlive : s.control ≠ .removed) {control : Control}
    (hunset : control.Unset) (hlive' : control ≠ .removed) :
    ({ s with control := control } : Session Out).Owned :=
  ⟨fun heq _ ↦ ⟨(h.unset heq hlive).1, hunset, (h.unset heq hlive).2.2⟩,
    fun heq ↦ absurd heq hlive'⟩

/-- **Every step keeps the session with its connection.** -/
theorem Owned.stepped (hwired : s.Wired) (h : s.Owned) (hs : Stepped cfg s a s') : s'.Owned := by
  have hlive : s.control ≠ .removed := hs.not_removed
  have hset : ¬ s.control.Unset → s.conn.cleanupCallback ≠ none :=
    fun hc hnone ↦ hc (h.unset hnone hlive).2.1
  have hreturned : ∀ {d : Direction} {removeMe : Bool} {value : ℤ},
      (s.serviceReturned d removeMe value).Owned :=
    owned_serviceReturned fun heq ↦ ⟨(h.unset heq hlive).1, (h.unset heq hlive).2.2⟩
  cases hs with
  | event d hc =>
      exact ⟨fun heq _ ↦ h.unset heq hlive, fun heq ↦ absurd heq hlive⟩
  | service hc =>
      exact h.setControl hlive trivial (by rintro ⟨⟩)
  | skip d removeMe hc _ =>
      cases d <;> exact h.setControl hlive trivial (by rintro ⟨⟩)
  | callSetup removeMe hc _ _ =>
      exact h.setControl hlive trivial (by rintro ⟨⟩)
  | callRead removeMe hc hcalls hsetup =>
      refine owned_of_some (s := s) (fun hnone ↦ ?_) rfl fun heq ↦ by cases heq
      obtain ⟨callback, hcallback⟩ :=
        Option.isSome_iff_exists.mp (Bool.and_eq_true_iff.mp hcalls).2
      rcases hwired.values callback hcallback with rfl | rfl
      · exact hsetup hcallback
      · exact (h.unset hnone hlive).2.2 hcallback
  | callWrite removeMe hc hcalls =>
      refine owned_of_some (s := s) (fun hnone ↦ ?_) rfl fun heq ↦ by cases heq
      have hlinked : s.Linked := hwired.linked (by rw [hc]; exact hwired.keeps hc hcalls)
      have hsome := (Bool.and_eq_true_iff.mp hcalls).2
      rw [hlinked, (h.unset hnone hlive).1] at hsome
      cases hsome
  | check removeMe hc =>
      exact ⟨fun heq _ ↦ ⟨(h.unset heq hlive).1, trivial, (h.unset heq hlive).2.2⟩,
        fun heq ↦ by cases heq⟩
  | done removeMe hc =>
      cases removeMe <;> exact h.setControl hlive trivial (by rintro ⟨⟩)
  | setUp ok hc =>
      unfold Session.setUp
      split_ifs
      · exact hreturned
      · exact ⟨fun heq ↦ (by cases heq), fun heq ↦ by cases heq⟩
  | read hc _ =>
      rename_i oldLen r next _
      have hsome : s.conn.cleanupCallback ≠ none := hset (by rw [hc]; exact id)
      cases next with
      | goesOn input => exact owned_of_some hsome rfl fun heq ↦ by cases heq
      | returns input value =>
          unfold Session.readStep
          dsimp only
          split_ifs
          · exact owned_serviceReturned fun heq ↦ absurd heq hsome
          · exact owned_serviceReturned fun heq ↦ absurd heq hsome
          · exact owned_of_some hsome rfl fun heq ↦ by cases heq
      | ends => exact owned_of_some hsome rfl fun heq ↦ by cases heq
  | terminate value hc =>
      exact owned_of_some (hset (by rw [hc]; exact id)) rfl hlive
  | send call hcaller =>
      have hsome : s.conn.cleanupCallback ≠ none := by
        rcases sender_cases hcaller with ⟨hc, -⟩ | ⟨hc, -⟩ | ⟨hc, -⟩
        · rw [sender, hc] at hcaller
          have hset' := (Option.ite_none_right_eq_some.mp hcaller).1
          exact Option.isSome_iff_ne_none.mp hset'
        · exact hset (by rw [hc]; exact id)
        · exact hset (by rw [hc]; exact id)
      unfold Session.send
      dsimp only
      split_ifs
      · exact owned_of_some hsome rfl fun heq ↦ by cases heq
      · exact owned_of_some hsome rfl hlive
      · exact owned_of_some hsome rfl hlive
  | write hc _ _ =>
      rename_i caller e es r next _ _
      have hsome : s.conn.cleanupCallback ≠ none := hset (by rw [hc]; exact id)
      cases next with
      | goesOn sent out => exact owned_of_some hsome rfl hlive
      | returns sent out value =>
          unfold Session.writeStep
          dsimp only
          split_ifs
          · exact owned_writeReturned hsome
          · exact owned_writeReturned hsome
          · exact owned_writeReturned hsome
          · exact owned_of_some hsome rfl hlive
      | ends => exact owned_of_some hsome rfl fun heq ↦ by cases heq
  | returns value hc =>
      have hsome : s.conn.cleanupCallback ≠ none := hset (by rw [hc]; exact id)
      cases value with
      | close =>
          unfold Session.sessionReturned
          dsimp only
          split_ifs <;> exact owned_serviceReturned fun heq ↦ absurd heq hsome
      | _ => exact owned_serviceReturned fun heq ↦ absurd heq hsome
  | cleanup hc hcleanup =>
      exact owned_of_some (Option.isSome_iff_ne_none.mp hcleanup) rfl fun heq ↦ by cases heq
  | remove hc hcleanup =>
      refine ⟨fun _ hlive' ↦ absurd rfl hlive', fun _ ↦ ?_⟩
      exact (h.unset (Option.isNone_iff_eq_none.mp (by simpa using hcleanup)) hlive).1
  | cleanedUp hc => exact ⟨fun _ hlive' ↦ absurd rfl hlive', fun _ ↦ rfl⟩

end Session

end Tidbits.Service
