import Tidbits.Service.Callbacks

/-!
# What a session has received

`Receives` says that the input buffer holds the bytes since the last
`POSERVICE_CONTINUE`, and that the session callback has seen all but those of the
present call of `Read()`.

At the end of the stream, `Read()` presents those bytes unless they have just
filled the buffer: then it goes round to read more, and the end of the
stream makes it return without calling the session callback.
-/

namespace Tidbits.Service

open Server Transition

variable {Call Out Result : Type} {cfg : Config Call Out Result}
  {s s' : Session Out} {a : Action Call Result} {fd : ℤ} {acceptTime : Time} {acceptNo : ℕ}

namespace Control

/-- In the session callback, or in a send of it. -/
def Calling : Control → Prop
  | .session | .write .session => True
  | _ => False

/-- The session callback has seen all but the `unseen` bytes of the present call of `Read()`. -/
def Sees (unseen inLen : ℕ) : Control → Prop
  | .read oldLen => unseen + oldLen = inLen
  | .exited => True
  | _ => unseen = 0

end Control

namespace Session

/-! ## What leaves the input alone -/

/-- The input is left as it is, and no read callback is installed. -/
structure SameInput (s s' : Session Out) : Prop where
  input : s'.input = s.input
  received : s'.received = s.received
  unseen : s'.unseen = s.unseen
  ending : s'.ending = s.ending
  read : ∀ callback, s'.conn.callback .read = some callback →
    s.conn.callback .read = some callback

/-- The steps that change the input. -/
def ChangesInput : Action Call Result → Prop
  | .setUp _ | .read _ | .terminate _ | .returns _ => True
  | _ => False

theorem SameInput.trans {t : Session Out} (h : s.SameInput s') (h' : s'.SameInput t) :
    s.SameInput t where
  input := h'.input.trans h.input
  received := h'.received.trans h.received
  unseen := h'.unseen.trans h.unseen
  ending := h'.ending.trans h.ending
  read := fun callback heq ↦ h.read callback (h'.read callback heq)

theorem sameInput_serviceReturned (s : Session Out) (d : Direction) (removeMe : Bool) (value : ℤ) :
    s.SameInput (s.serviceReturned d removeMe value) := by
  refine ⟨rfl, rfl, rfl, rfl, fun callback ↦ ?_⟩
  unfold serviceReturned Connection.callbackReturned
  split_ifs
  · exact fun heq ↦ nomatch heq
  · exact id
  · exact id

theorem sameInput_writeReturned (s : Session Out) (value : ℤ) (caller : Caller) :
    s.SameInput (s.writeReturned value caller) := by
  cases caller with
  | service removeMe => exact sameInput_serviceReturned s .write removeMe value
  | outside => exact ⟨rfl, rfl, rfl, rfl, fun _ ↦ id⟩
  | session => exact ⟨rfl, rfl, rfl, rfl, fun _ ↦ id⟩
  | cleanup => exact ⟨rfl, rfl, rfl, rfl, fun _ ↦ id⟩

theorem sameInput_writeStep (s : Session Out) (caller : Caller) (no : ℕ) (rest : List (Entry Out))
    (next : WriteStep Out) : s.SameInput (s.writeStep caller no rest next) := by
  cases next with
  | goesOn sent out => exact ⟨rfl, rfl, rfl, rfl, fun _ ↦ id⟩
  | returns sent out value =>
      have hsame : ∀ queue writeError, s.SameInput
          { s.handOver no sent with queue := queue, writeError := writeError } :=
        fun _ _ ↦ ⟨rfl, rfl, rfl, rfl, fun _ ↦ id⟩
      simp only [writeStep]
      split_ifs
      · exact (hsame _ _).trans (sameInput_writeReturned _ 0 caller)
      · exact (hsame _ _).trans (sameInput_writeReturned _ value caller)
      · refine SameInput.trans ?_ (sameInput_writeReturned _ _ caller)
        exact ⟨rfl, rfl, rfl, rfl, fun _ ↦ id⟩
      · exact ⟨rfl, rfl, rfl, rfl, fun _ ↦ id⟩
  | ends => exact ⟨rfl, rfl, rfl, rfl, fun _ ↦ id⟩

theorem sameInput_send (s : Session Out) (caller : Caller) (out : Out) :
    s.SameInput (s.send caller out) := by
  unfold send
  dsimp only
  split_ifs <;> exact ⟨rfl, rfl, rfl, rfl, fun _ ↦ id⟩

theorem sameInput_of_stepped (hs : Stepped cfg s a s') (ha : ¬ ChangesInput a) :
    s.SameInput s' := by
  cases hs with
  | setUp ok _ => exact absurd trivial ha
  | read _ _ => exact absurd trivial ha
  | terminate value _ => exact absurd trivial ha
  | returns value _ => exact absurd trivial ha
  | write _ _ _ => exact sameInput_writeStep s _ _ _ _
  | send call _ => exact sameInput_send s _ _
  | remove _ _ => exact ⟨rfl, rfl, rfl, rfl, fun _ heq ↦ nomatch heq⟩
  | cleanedUp _ => exact ⟨rfl, rfl, rfl, rfl, fun _ heq ↦ nomatch heq⟩
  | _ => exact ⟨rfl, rfl, rfl, rfl, fun _ ↦ id⟩

/-! ## Where the session callback is called -/

/-- Neither is the session callback called, nor does `Read()` go on. -/
structure SameReading (s s' : Session Out) : Prop where
  sees : ∀ unseen, s.control.Sees unseen s.input.inLen → s'.control.Sees unseen s.input.inLen
  calling : s'.control.Calling → s.control.Calling
  setup : s'.control = .setup → s'.conn.callback .read = some setupCallback

theorem sameReading_of_stepped (hs : Stepped cfg s a s') (ha : ¬ ChangesInput a) :
    s.SameReading s' := by
  cases hs with
  | event d hc => exact ⟨fun _ ↦ id, id, fun heq ↦ nomatch hc.symm.trans heq⟩
  | service hc =>
      refine ⟨?_, False.elim, fun heq ↦ nomatch heq⟩
      rw [hc]
      exact fun _ ↦ id
  | skip d removeMe hc _ =>
      refine ⟨?_, by cases d <;> exact False.elim, fun heq ↦ nomatch heq⟩
      rw [hc]
      cases d <;> exact fun _ ↦ id
  | callSetup removeMe hc _ hsetup =>
      refine ⟨?_, False.elim, fun _ ↦ hsetup⟩
      rw [hc]
      exact fun _ ↦ id
  | callRead removeMe hc _ _ =>
      refine ⟨fun unseen h ↦ ?_, False.elim, fun heq ↦ nomatch heq⟩
      rw [hc] at h
      have hzero : unseen = 0 := h
      show unseen + s.input.inLen = s.input.inLen
      rw [hzero, Nat.zero_add]
  | callWrite removeMe hc _ =>
      refine ⟨?_, False.elim, fun heq ↦ nomatch heq⟩
      rw [hc]
      exact fun _ ↦ id
  | check removeMe hc =>
      refine ⟨?_, False.elim, fun heq ↦ nomatch heq⟩
      rw [hc]
      exact fun _ ↦ id
  | done removeMe hc =>
      refine ⟨?_, by cases removeMe <;> exact False.elim, by cases removeMe <;> exact
        fun heq ↦ nomatch heq⟩
      rw [hc]
      cases removeMe <;> exact fun _ ↦ id
  | setUp ok _ => exact absurd trivial ha
  | read _ _ => exact absurd trivial ha
  | terminate value _ => exact absurd trivial ha
  | returns value _ => exact absurd trivial ha
  | send call hcaller =>
      have hother : s.control ≠ .setup := by
        rcases sender_cases hcaller with ⟨hc, -⟩ | ⟨hc, -⟩ | ⟨hc, -⟩ <;> rw [hc] <;>
          exact fun heq ↦ nomatch heq
      unfold send
      dsimp only
      split_ifs
      · refine ⟨?_, fun hcalling ↦ ?_, fun heq ↦ nomatch heq⟩
        · rcases sender_cases hcaller with ⟨hc, -⟩ | ⟨hc, -⟩ | ⟨hc, -⟩ <;> rw [hc] <;>
            exact fun _ ↦ id
        · rcases sender_cases hcaller with ⟨hc, rfl⟩ | ⟨hc, rfl⟩ | ⟨hc, rfl⟩
          · exact hcalling.elim
          · exact hc ▸ trivial
          · exact hcalling.elim
      · exact ⟨fun _ ↦ id, id, fun heq ↦ absurd heq hother⟩
      · exact ⟨fun _ ↦ id, id, fun heq ↦ absurd heq hother⟩
  | write hc _ _ =>
      rename_i caller e rest r next _ _
      have hsees : ∀ unseen, s.control.Sees unseen s.input.inLen → unseen = 0 := by
        rw [hc]
        exact fun _ ↦ id
      have hreturned : ∀ (t : Session Out) (value : ℤ),
          s.SameReading (t.writeReturned value caller) := by
        intro t value
        cases caller with
        | service removeMe => exact ⟨hsees, False.elim, fun heq ↦ nomatch heq⟩
        | outside => exact ⟨hsees, False.elim, fun heq ↦ nomatch heq⟩
        | session =>
            exact ⟨hsees, fun _ ↦ hc ▸ trivial, fun heq ↦ nomatch heq⟩
        | cleanup => exact ⟨hsees, False.elim, fun heq ↦ nomatch heq⟩
      cases next with
      | goesOn sent out => exact ⟨fun _ ↦ id, id, fun heq ↦ nomatch hc.symm.trans heq⟩
      | returns sent out value =>
          simp only [writeStep]
          split_ifs
          · exact hreturned _ 0
          · exact hreturned _ value
          · exact hreturned _ _
          · exact ⟨fun _ ↦ id, id, fun heq ↦ nomatch hc.symm.trans heq⟩
      | ends => exact ⟨fun _ _ ↦ trivial, False.elim, fun heq ↦ nomatch heq⟩
  | cleanup hc _ =>
      refine ⟨?_, False.elim, fun heq ↦ nomatch heq⟩
      rcases hc with hc | hc <;> rw [hc] <;> exact fun _ ↦ id
  | remove hc _ =>
      refine ⟨?_, False.elim, fun heq ↦ nomatch heq⟩
      rcases hc with hc | hc <;> rw [hc] <;> exact fun _ ↦ id
  | cleanedUp hc =>
      refine ⟨?_, False.elim, fun heq ↦ nomatch heq⟩
      rw [hc]
      exact fun _ ↦ id

/-! ## What the buffer holds -/

/-- What holds of the input. -/
structure Receives (s : Session Out) : Prop where
  fresh : s.conn.callback .read = some setupCallback → s.received = [] ∧ s.unseen = 0
  holds : s.conn.callback .read = some readCallback →
    s.input.Holds s.received ∧ s.input.inLen < s.input.inSize
  calling : s.control.Calling → 0 < s.input.inLen
  sees : s.conn.callback .read = some readCallback → s.control.Sees s.unseen s.input.inLen
  setup : s.control = .setup → s.conn.callback .read = some setupCallback

theorem receives_start (fd : ℤ) (acceptTime : Time) (acceptNo : ℕ) :
    (start Out fd acceptTime acceptNo).Receives :=
  ⟨fun _ ↦ ⟨rfl, rfl⟩, fun heq ↦ (nomatch heq), False.elim, fun heq ↦ (nomatch heq),
    fun heq ↦ nomatch heq⟩

theorem readInput_holds {r : ReadResult} {next : ReadStep} {bytes : List UInt8}
    (h : s.input.Holds bytes) (hroom : s.input.inLen < s.input.inSize)
    (hnext : readInput cfg s.input r = some next) : next.Holds (bytes ++ r.received) := by
  have hpos : 0 < cfg.chunkLen := Nat.lt_of_lt_of_le Nat.two_pos cfg.chunkLen_ge
  unfold readInput at hnext
  split_ifs at hnext
  · exact holds_tlsRead hpos h hroom hnext
  · exact holds_tcpRead hpos h hroom hnext

theorem readInput_full {input : Input} {new bytes : List UInt8} {value : ℤ}
    (h : s.input.Holds bytes) (hvalue : value ≠ 2)
    (hnext : readInput cfg s.input (.count new) = some (.returns input value)) :
    cfg.maxMessageLength ≤ bytes.length + new.length := by
  unfold readInput at hnext
  split_ifs at hnext
  · exact maxMessageLength_le_of_readLoop h hvalue hnext
  · exact maxMessageLength_le_of_readLoop h hvalue hnext

/-- A count is taken in the same way with and without TLS. -/
theorem readInput_count (i : Input) (bytes : List UInt8) :
    readInput cfg i (.count bytes) =
      if bytes ≠ [] ∧ bytes.length ≤ i.inSize - i.inLen then
        if i.inLen + bytes.length < i.inSize then some (.returns (i.receive bytes) 2)
        else if i.inSize < cfg.maxMessageLength then
          some (.goesOn ((i.receive bytes).grow cfg.chunkLen))
        else some (.returns (i.receive bytes) 1)
      else none := by
  unfold readInput
  cases cfg.tls <;> rfl

/-- Anything else leaves the buffer as it is. -/
theorem readInput_other {i : Input} {r : ReadResult} {next : ReadStep}
    (hr : ∀ bytes, r ≠ .count bytes) (h : readInput cfg i r = some next) :
    r.received = [] ∧ endingOf r ≠ .tooLarge ∧
      (next = .goesOn i ∨ (∃ value, next = .returns i value) ∨ next = .ends) := by
  unfold readInput tlsRead tcpRead readLoop at h
  cases r with
  | count bytes => exact absurd rfl (hr bytes)
  | endOfStream | again =>
      refine ⟨rfl, nofun, .inr (.inl ?_)⟩
      split_ifs at h <;> exact ⟨_, (Option.some.inj h).symm⟩
  | interrupted =>
      refine ⟨rfl, nofun, .inl ?_⟩
      split_ifs at h <;> exact (Option.some.inj h).symm
  | hungUp =>
      refine ⟨rfl, nofun, .inr (.inl ?_)⟩
      split_ifs at h <;> exact ⟨_, (Option.some.inj h).symm⟩
  | failed =>
      refine ⟨rfl, nofun, .inr ?_⟩
      split_ifs at h
      · exact .inl ⟨_, (Option.some.inj h).symm⟩
      · exact .inr (Option.some.inj h).symm

/-- `ServiceConnection()` drops the callbacks when the value is not `0`. -/
theorem receives_serviceReturned {d : Direction} {removeMe : Bool} {value : ℤ}
    (hfresh : s.conn.callback .read = some setupCallback → s.received = [] ∧ s.unseen = 0)
    (hholds : value = 0 → s.conn.callback .read = some readCallback →
      s.unseen = 0 ∧ s.input.Holds s.received ∧ s.input.inLen < s.input.inSize) :
    (s.serviceReturned d removeMe value).Receives := by
  have hsame := sameInput_serviceReturned s d removeMe value
  have hread : (s.serviceReturned d removeMe value).conn.callback .read = some readCallback →
      s.unseen = 0 ∧ s.input.Holds s.received ∧ s.input.inLen < s.input.inSize := by
    intro heq
    refine hholds ?_ (hsame.read _ heq)
    by_contra hvalue
    rw [serviceReturned, Connection.callbackReturned, if_pos hvalue] at heq
    exact nomatch heq
  refine ⟨fun heq ↦ hfresh (hsame.read _ heq), fun heq ↦ (hread heq).2, ?_, fun heq ↦ ?_, ?_⟩
  · cases d <;> exact False.elim
  · cases d <;> exact (hread heq).1
  · cases d <;> exact fun heq ↦ nomatch heq

theorem Receives.of_same (h : s.Receives) (hsame : s.SameInput s')
    (hreading : s.SameReading s') : s'.Receives where
  fresh := by
    rw [hsame.received, hsame.unseen]
    exact fun heq ↦ h.fresh (hsame.read _ heq)
  holds := by
    rw [hsame.input, hsame.received]
    exact fun heq ↦ h.holds (hsame.read _ heq)
  calling := by
    rw [hsame.input]
    exact fun hc ↦ h.calling (hreading.calling hc)
  sees := by
    rw [hsame.input, hsame.unseen]
    exact fun heq ↦ hreading.sees _ (h.sees (hsame.read _ heq))
  setup := hreading.setup

theorem Receives.setUp (h : s.Receives) (hc : s.control = .setup) (ok : Bool) :
    (s.setUp cfg ok).Receives := by
  obtain ⟨hreceived, hunseen⟩ := h.fresh (h.setup hc)
  unfold Session.setUp
  split_ifs
  · exact receives_serviceReturned (fun _ ↦ ⟨hreceived, hunseen⟩) fun hvalue ↦ nomatch hvalue
  · refine ⟨fun heq ↦ (nomatch heq), fun _ ↦ ?_, False.elim, fun _ ↦ hunseen,
      fun heq ↦ nomatch heq⟩
    rw [show _ = s.received from rfl, hreceived]
    exact ⟨Input.holds_create _, Nat.lt_of_lt_of_le Nat.two_pos cfg.chunkLen_ge⟩

/-- In `Read()`, the buffer holds the bytes, and those behind `oldLen` are new. -/
theorem Receives.reading {oldLen : ℕ} (h : s.Receives) (hw : s.Wired)
    (hc : s.control = .read oldLen) :
    s.conn.callback .read = some readCallback ∧ s.input.Holds s.received ∧
      s.input.inLen < s.input.inSize ∧ s.unseen + oldLen = s.input.inLen := by
  have hread : s.conn.callback .read = some readCallback := hw.reading (by rw [hc]; trivial)
  have hsees := h.sees hread
  rw [hc] at hsees
  exact ⟨hread, (h.holds hread).1, (h.holds hread).2, hsees⟩

theorem Receives.readStep {oldLen : ℕ} {r : ReadResult} {next : ReadStep} (h : s.Receives)
    (hw : s.Wired) (hc : s.control = .read oldLen) (hnext : readInput cfg s.input r = some next) :
    (s.readStep oldLen r next).Receives := by
  obtain ⟨hread, hholds, hroom, hsees⟩ := h.reading hw hc
  have hsetup : ∀ {P : Prop}, s.conn.callback .read = some setupCallback → P :=
    fun heq ↦ nomatch hread.symm.trans heq
  have hkept := readInput_holds hholds hroom hnext
  cases next with
  | goesOn input =>
      refine ⟨fun heq ↦ hsetup heq, fun _ ↦ hkept, False.elim, fun _ ↦ ?_, fun heq ↦ nomatch heq⟩
      show s.unseen + r.received.length + oldLen = input.inLen
      rw [hkept.1.inLen_eq, List.length_append, ← hholds.inLen_eq]
      omega
  | returns input value =>
      obtain ⟨hkept, hvalue⟩ := hkept
      have hlen : input.inLen = s.input.inLen + r.received.length := by
        rw [hkept.inLen_eq, List.length_append, ← hholds.inLen_eq]
      have hroom' : ¬ value ≠ 2 → input.inLen < input.inSize := by
        rcases hvalue with rfl | ⟨-, hroom'⟩
        · exact fun htwo ↦ absurd (fun heq ↦ nomatch heq) htwo
        · exact fun _ ↦ hroom'
      unfold Session.readStep
      dsimp only
      split_ifs with htwo hempty
      · refine receives_serviceReturned (fun heq ↦ hsetup heq) fun hzero ↦ ?_
        rcases hvalue with hone | ⟨heq, -⟩
        · exact nomatch hzero.symm.trans hone
        · exact absurd heq htwo
      · refine receives_serviceReturned (fun heq ↦ hsetup heq) fun _ _ ↦ ⟨?_, hkept, hroom' htwo⟩
        show s.unseen + r.received.length = 0
        omega
      · exact ⟨fun heq ↦ hsetup heq, fun _ ↦ ⟨hkept, hroom' htwo⟩, fun _ ↦ Nat.not_lt.mp hempty,
          fun _ ↦ rfl, fun heq ↦ nomatch heq⟩
  | ends => exact ⟨h.fresh, h.holds, False.elim, fun _ ↦ trivial, fun heq ↦ nomatch heq⟩

theorem Receives.sessionReturned (h : s.Receives) (hw : s.Wired) (hc : s.control = .session)
    (value : POServiceReturn) : (s.sessionReturned value).Receives := by
  have hread : s.conn.callback .read = some readCallback := hw.reading (by rw [hc]; trivial)
  have hunseen : s.unseen = 0 := by
    have hsees := h.sees hread
    rw [hc] at hsees
    exact hsees
  obtain ⟨hholds, hroom⟩ := h.holds hread
  cases value with
  | «continue» =>
      exact receives_serviceReturned (fun _ ↦ ⟨rfl, hunseen⟩) fun _ _ ↦
        ⟨hunseen, hholds.reset, Nat.lt_of_le_of_lt (Nat.zero_le _) hroom⟩
  | wait => exact receives_serviceReturned h.fresh fun _ _ ↦ ⟨hunseen, hholds, hroom⟩
  | close =>
      unfold Session.sessionReturned
      dsimp only
      split_ifs
      · exact receives_serviceReturned h.fresh fun _ _ ↦ ⟨hunseen, hholds, hroom⟩
      · exact receives_serviceReturned (fun heq ↦ (nomatch heq)) fun _ heq ↦ nomatch heq
  | error => exact receives_serviceReturned h.fresh fun _ _ ↦ ⟨hunseen, hholds, hroom⟩

/-- **Every step keeps the input.** -/
theorem Receives.stepped (h : s.Receives) (hw : s.Wired) (hs : Stepped cfg s a s') :
    s'.Receives := by
  have hothers : ¬ ChangesInput a → s'.Receives := fun ha ↦
    h.of_same (sameInput_of_stepped hs ha) (sameReading_of_stepped hs ha)
  cases hs with
  | setUp ok hc => exact h.setUp hc ok
  | read hc hnext => exact h.readStep hw hc hnext
  | returns value hc => exact h.sessionReturned hw hc value
  | terminate value hc =>
      exact ⟨h.fresh, fun heq ↦ ⟨(h.holds heq).1.terminate value, (h.holds heq).2⟩, h.calling,
        h.sees, h.setup⟩
  | _ => exact hothers id

/-! ## The end of the stream -/

/-- The message has stayed below the limit, and what was received before the end of the stream has
been seen. -/
structure Presents (maxMessageLength : ℕ) (s : Session Out) : Prop where
  ended : s.ending ≠ none → s.conn.callback .read = none
  short : s.received.length < maxMessageLength
  tooLarge : s.ending ≠ some .tooLarge
  seen : s.ending = some .endOfStream → s.unseen = 0

end Session

/-- The message stays shorter than `maxMessageLength`. -/
def ShortMessage (maxMessageLength : ℕ) (s : Session Out) (a : Action Call Result) : Prop :=
  match a with
  | .read r => s.received.length + r.received.length < maxMessageLength
  | _ => True

/-- The end of the stream is read by a call of `Read()` that has not read anything before it. -/
def EndsApart (s : Session Out) (a : Action Call Result) : Prop :=
  match a with
  | .read .endOfStream => s.control = .read s.input.inLen
  | _ => True

instance (maxMessageLength : ℕ) (s : Session Out) (a : Action Call Result) :
    Decidable (ShortMessage maxMessageLength s a) := by
  unfold ShortMessage
  split <;> infer_instance

instance (s : Session Out) (a : Action Call Result) : Decidable (EndsApart s a) := by
  unfold EndsApart
  split <;> infer_instance

namespace Session

variable {maxMessageLength : ℕ}

theorem presents_start (hpos : 0 < maxMessageLength) (fd : ℤ) (acceptTime : Time)
    (acceptNo : ℕ) : (start Out fd acceptTime acceptNo).Presents maxMessageLength :=
  ⟨fun hne ↦ absurd rfl hne, hpos, fun heq ↦ (nomatch heq), fun heq ↦ nomatch heq⟩

theorem Presents.of_same (h : s.Presents maxMessageLength) (hsame : s.SameInput s') :
    s'.Presents maxMessageLength := by
  refine ⟨fun hne ↦ ?_, hsame.received ▸ h.short, hsame.ending ▸ h.tooLarge,
    hsame.ending ▸ hsame.unseen ▸ h.seen⟩
  rw [Option.eq_none_iff_forall_ne_some]
  intro callback heq
  exact nomatch (h.ended (hsame.ending ▸ hne)).symm.trans (hsame.read callback heq)

/-- As long as there is a read callback, nothing has ended. -/
theorem Presents.not_ended (h : s.Presents maxMessageLength) {callback : Callback}
    (hread : s.conn.callback .read = some callback) : s.ending = none := by
  by_contra hne
  exact nomatch (h.ended hne).symm.trans hread

theorem presents_of_not_ended (hending : s.ending = none)
    (hshort : s.received.length < maxMessageLength) : s.Presents maxMessageLength :=
  ⟨fun hne ↦ absurd hending hne, hshort, by rw [hending]; exact fun heq ↦ (nomatch heq),
    by rw [hending]; exact fun heq ↦ nomatch heq⟩

theorem presents_readReturned (h : s.Presents maxMessageLength) (value : ℤ) :
    (s.readReturned value).Presents maxMessageLength :=
  h.of_same (sameInput_serviceReturned s .read false value)

theorem Presents.readStep {oldLen : ℕ} {r : ReadResult} {next : ReadStep}
    (h : s.Presents cfg.maxMessageLength) (hr : s.Receives) (hw : s.Wired)
    (hc : s.control = .read oldLen)
    (hnext : readInput cfg s.input r = some next)
    (hshort : s.received.length + r.received.length < cfg.maxMessageLength)
    (happart : r = .endOfStream → s.control = .read s.input.inLen) :
    (s.readStep oldLen r next).Presents cfg.maxMessageLength := by
  obtain ⟨hread, hholds, hroom, hsees⟩ := hr.reading hw hc
  have hending : s.ending = none := h.not_ended hread
  have hshort' : (s.received ++ r.received).length < cfg.maxMessageLength := by
    rw [List.length_append]
    exact hshort
  cases next with
  | goesOn input => exact presents_of_not_ended hending hshort'
  | returns input value =>
      have hkept := readInput_holds hholds hroom hnext
      unfold Session.readStep
      dsimp only
      split_ifs with htwo hempty
      · have hone : value = 1 := by
          rcases hkept.2 with hone | ⟨heq, -⟩
          · exact hone
          · exact absurd heq htwo
        subst hone
        refine ⟨fun _ ↦ rfl, hshort', fun heq ↦ ?_, fun heq ↦ ?_⟩
        · cases r with
          | count new =>
              have hone : (1 : ℤ) ≠ 2 := by decide
              exact absurd (readInput_full hholds hone hnext) (Nat.not_le_of_lt hshort)
          | _ => cases heq
        · cases r with
          | endOfStream =>
              cases hc.symm.trans (happart rfl)
              show s.unseen + 0 = 0
              omega
          | _ => cases heq
      · have hpresents : { s.receive r.received with input := input }.Presents
            cfg.maxMessageLength := presents_of_not_ended hending hshort'
        exact presents_readReturned hpresents 0
      · exact presents_of_not_ended hending hshort'
  | ends => exact presents_of_not_ended hending h.short

theorem Presents.sessionReturned (h : s.Presents maxMessageLength) (hpos : 0 < maxMessageLength)
    (value : POServiceReturn) : (s.sessionReturned value).Presents maxMessageLength := by
  cases value with
  | «continue» =>
      have hpresents : { s with input := { s.input with inLen := 0 }, received := [] }.Presents
          maxMessageLength := ⟨h.ended, hpos, h.tooLarge, h.seen⟩
      exact presents_readReturned hpresents 0
  | wait => exact presents_readReturned h 0
  | close =>
      have hclosed : { s with closed := true }.Presents maxMessageLength :=
        ⟨h.ended, h.short, h.tooLarge, h.seen⟩
      have hdropped : { s with
          closed := true
          conn := (s.conn.poServerSetCallback .read none).1 }.Presents maxMessageLength :=
        ⟨fun _ ↦ rfl, h.short, h.tooLarge, h.seen⟩
      unfold Session.sessionReturned
      dsimp only
      split_ifs
      · exact presents_readReturned hclosed 1
      · exact presents_readReturned hdropped 0
  | error => exact presents_readReturned h (-1)

theorem Presents.stepped (h : s.Presents cfg.maxMessageLength) (hr : s.Receives) (hw : s.Wired)
    (hshort : ShortMessage cfg.maxMessageLength s a) (hend : EndsApart s a)
    (hs : Stepped cfg s a s') : s'.Presents cfg.maxMessageLength := by
  have hothers : ¬ ChangesInput a → s'.Presents cfg.maxMessageLength := fun ha ↦
    h.of_same (sameInput_of_stepped hs ha)
  have hpos : 0 < cfg.maxMessageLength := Nat.lt_of_lt_of_le Nat.two_pos cfg.maxMessageLength_ge
  cases hs with
  | setUp ok hc =>
      have hending : s.ending = none := h.not_ended (hr.setup hc)
      unfold Session.setUp
      split_ifs
      · exact presents_readReturned h (-1)
      · exact presents_of_not_ended hending h.short
  | read hc hnext =>
      rename_i oldLen r next
      exact h.readStep hr hw hc hnext hshort (by rintro rfl; exact hend)
  | returns value hc => exact h.sessionReturned hpos value
  | terminate value hc => exact ⟨h.ended, h.short, h.tooLarge, h.seen⟩
  | _ => exact hothers id

/-! ## Runs -/

/-- What holds at every call of the session callback and of `read()` or `gnutls_record_recv()`. -/
structure InputKept (s : Session Out) : Prop where
  called : s.control = .session →
    s.input.inBuffer.length = s.input.inSize + 1 ∧ 0 < s.input.inLen ∧
      s.input.inLen < s.input.inSize ∧ s.input.inBuffer.take s.input.inLen = s.received
  asked : ∀ oldLen, s.control = .read oldLen → 0 < s.input.inSize - s.input.inLen

/-- No message was too large, and at the end of the stream all bytes had been seen. -/
structure AllSeen (s : Session Out) : Prop where
  tooLarge : s.ending ≠ some .tooLarge
  seen : s.ending = some .endOfStream → s.unseen = 0

section Runs

variable {ok : Session Out → Action Call Result → Prop}

theorem receives_of_reach (h : Reach (step cfg) ok (start Out fd acceptTime acceptNo) s) :
    s.Receives :=
  h.invariant_of wired_of_reach (receives_start fd acceptTime acceptNo)
    fun hw hr _ hs ↦ hr.stepped hw (stepped_of_step hs)

/-- **The input buffer holds what was received**, with room for a terminator, and there is always
room to read into. -/
theorem inputKept_of_reach (h : Reach (step cfg) Any (start Out fd acceptTime acceptNo) s) :
    s.InputKept := by
  have hwired := wired_of_reach h
  have hreceives := receives_of_reach h
  refine ⟨fun hc ↦ ?_, fun oldLen hc ↦ ?_⟩
  · obtain ⟨hholds, hroom⟩ := hreceives.holds (hwired.reading (by rw [hc]; trivial))
    exact ⟨hholds.length, hreceives.calling (by rw [hc]; trivial), hroom, hholds.take⟩
  · exact Nat.sub_pos_of_lt (hreceives.reading hwired hc).2.2.1

theorem presents_of_reach
    (h : Reach (step cfg)
      (fun s a ↦ ShortMessage cfg.maxMessageLength s a ∧ EndsApart s a)
      (start Out fd acceptTime acceptNo) s) :
    s.Presents cfg.maxMessageLength :=
  h.invariant_of (fun h ↦ And.intro (wired_of_reach h) (receives_of_reach h))
    (presents_start (Nat.lt_of_lt_of_le Nat.two_pos cfg.maxMessageLength_ge) fd acceptTime acceptNo)
    fun hwr hp hok hs ↦ hp.stepped hwr.2 hwr.1 hok.1 hok.2 (stepped_of_step hs)

/-- An end of the stream behind bytes that filled the buffer hides these bytes. -/
theorem not_allSeen_of_filled (hr : s.Receives) (hw : s.Wired) (happart : ¬ EndsApart s a)
    (hs : step cfg s a = some s') : ¬ s'.AllSeen := by
  cases stepped_of_step hs with
  | read hc hnext =>
      rename_i oldLen r next
      cases r with
      | endOfStream =>
          have hreturns : next = .returns s.input 1 := by
            unfold readInput at hnext
            split_ifs at hnext <;> exact (Option.some.inj hnext).symm
          subst hreturns
          intro hall
          have hunseen : s.unseen + 0 = 0 := hall.seen rfl
          have hsees := (hr.reading hw hc).2.2.2
          refine happart (hc.trans (congrArg _ ?_))
          omega
      | _ => exact absurd trivial happart
  | _ => exact absurd trivial happart

/-- **Every byte before the end of the stream is seen** when messages are shorter than the limit
and no end of the stream comes directly behind bytes that filled the buffer.  The first one that
does leaves bytes unseen. -/
theorem allSeen_of_reach
    (h : Reach (step cfg)
      (fun s a ↦ ShortMessage cfg.maxMessageLength s a ∧ EndsApart s a)
      (start Out fd acceptTime acceptNo) s) :
    s.AllSeen ∧ ∀ a s', ¬ EndsApart s a → step cfg s a = some s' → ¬ s'.AllSeen :=
  ⟨⟨(presents_of_reach h).tooLarge, (presents_of_reach h).seen⟩, fun _ _ happart hs ↦
    not_allSeen_of_filled (receives_of_reach h) (wired_of_reach h) happart hs⟩

end Runs

/-! ## Small buffers -/

/-- A buffer that grows by two bytes, up to five of a message. -/
abbrev growing : Limits := ⟨2, 5, true, by decide, by decide⟩

/-- Up to the first call of `read()`. -/
abbrev connects : List (Action SendCall SendResult) :=
  [.event .read, .service, .go, .setUp true]

/-- The buffer has grown when the session callback is called with three bytes. -/
theorem inputKept_of_grown :
    ∃ s, Reach (step growing.tcp) Any (start OutBuffer 5 0 0) s ∧
      (s.control = .session ∧ s.received = [65, 66, 67] ∧ s.input.inSize = 4) ∧ s.InputKept := by
  obtain ⟨s, hreach, hs⟩ :
      ∃ s, Reach (step growing.tcp) Any (start OutBuffer 5 0 0) s ∧
        (s.control = .session ∧ s.received = [65, 66, 67] ∧ s.input.inSize = 4) :=
    exists_reach_of_exec_decide
      (connects ++ [.read (.count [65, 66]), .read .interrupted, .read (.count [67])]) (by decide)
  exact ⟨s, hreach, hs, inputKept_of_reach hreach⟩

/-- Three bytes are seen before the end of the stream. -/
theorem allSeen_of_three :
    ∃ s, Reach (step growing.tcp)
        (fun s a ↦ ShortMessage growing.maxMessageLength s a ∧ EndsApart s a)
        (start OutBuffer 5 0 0) s ∧
      (s.ending = some .endOfStream ∧ s.received = [65, 66, 67]) ∧
      s.AllSeen ∧ ∀ a s', ¬ EndsApart s a → step growing.tcp s a = some s' → ¬ s'.AllSeen := by
  obtain ⟨s, hreach, hs⟩ :
      ∃ s, Reach (step growing.tcp)
          (fun s a ↦ ShortMessage growing.maxMessageLength s a ∧ EndsApart s a)
          (start OutBuffer 5 0 0) s ∧
        (s.ending = some .endOfStream ∧ s.received = [65, 66, 67]) :=
    exists_reach_of_exec_decide
      (connects ++ [.read (.count [65, 66]), .read (.count [67]), .returns .wait, .go, .go, .go,
        .event .read, .service, .go, .read .endOfStream]) (by decide)
  exact ⟨s, hreach, hs, allSeen_of_reach hreach⟩

/-- Two bytes fill the buffer, and the end of the stream hides them. -/
theorem not_allSeen_of_two :
    ∃ s, Reach (step growing.tcp) (ShortMessage growing.maxMessageLength)
        (start OutBuffer 5 0 0) s ∧
      (s.ending = some .endOfStream ∧ s.received = [65, 66] ∧ s.unseen = 2) ∧ ¬ s.AllSeen := by
  obtain ⟨s, hreach, hs⟩ :
      ∃ s, Reach (step growing.tcp) (ShortMessage growing.maxMessageLength)
          (start OutBuffer 5 0 0) s ∧
        (s.ending = some .endOfStream ∧ s.received = [65, 66] ∧ s.unseen = 2) :=
    exists_reach_of_exec_decide (connects ++ [.read (.count [65, 66]), .read .endOfStream])
      (by decide)
  refine ⟨s, hreach, hs, fun hall ↦ ?_⟩
  have hunseen := hall.seen hs.1
  rw [hs.2.2] at hunseen
  exact nomatch hunseen

end Session

end Tidbits.Service
