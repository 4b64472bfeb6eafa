import Tidbits.Service.MessageLimit
import Tidbits.Service.Sending
import Mathlib.Data.List.TakeWhile

/-!
# Services that answer

A session callback that answers every message with one `poService_sendF()`: it may
terminate the message, formats a text that depends on the buffer, and returns.  The
callbacks of `http.c` and of `service_test.c` are of this kind.

`Talk` runs such a callback in a session and keeps what was heard, the messages
that the callback was called for, and its answers.  `answered_of_reach` says that each
byte that was received belongs to one message, in order, that each message has one
answer, in order, that the socket accepts a start of the answers, and all of them by
the time the queue is empty, and that nothing waits for an answer between the calls of
`Read()`.
-/

namespace Tidbits.Service

open Server Transition

/-- A session of a service of these limits, over TLS or not, that sends buffers. -/
abbrev Limits.via (l : Limits) (tls : Bool) : Config SendCall OutBuffer SendResult :=
  { l with
    tls := tls
    writer := ⟨SendCall.entry l.chunkLen, if tls then tlsWriteBuffer else tcpWriteBuffer⟩ }

/-- A session callback that answers. -/
structure SessionCallback where
  /-- It begins with `buf[bytes] = '\0'`. -/
  terminates : Bool
  /-- The text that it sends, from the memory that `buffer` points to. -/
  text : List UInt8 → List UInt8
  /-- It returns `POSERVICE_CLOSE`, and `POSERVICE_CONTINUE` otherwise. -/
  closes : Bool

/-- `poHttp_read()`: `%s` prints the buffer up to a zero. -/
def poHttp_read : SessionCallback := ⟨true, List.takeWhile (· ≠ 0), false⟩

/-- The bytes of a string. -/
def bytesOf (s : String) : List UInt8 := s.toUTF8.data.toList

/-- What `poHttp_redirectToHttps()` sends, with `HTTP_HOST` and `HTTPS_PORT`. -/
def redirection (httpHost httpsPort : String) : List UInt8 :=
  bytesOf "HTTP/1.1 301 Moved Permanently\r\nLocation: https://" ++ bytesOf httpHost ++
    bytesOf ":" ++ bytesOf httpsPort ++ bytesOf "\r\n\r\n"

/-- `poHttp_redirectToHttps()`. -/
def poHttp_redirectToHttps (httpHost httpsPort : String) : SessionCallback :=
  ⟨false, fun _ ↦ redirection httpHost httpsPort, true⟩

/-- Where the session callback is. -/
inductive Point
  /-- At its start, or not called. -/
  | called
  /-- Behind `buf[bytes] = '\0'`. -/
  | terminated
  /-- Behind `poService_sendF()`, or in it. -/
  | answered
  /-- It has returned `POSERVICE_CLOSE`. -/
  | closed
deriving DecidableEq, Repr

/-- How many answers a callback that closes has sent. -/
def Point.sent : Point → ℕ
  | called | terminated => 0
  | answered | closed => 1

/-- A session with its callback. -/
structure Talk where
  session : Session OutBuffer
  point : Point
  /-- The bytes that were received. -/
  heard : List UInt8
  /-- What the callback was called for, when it sent its answer. -/
  messages : List (List UInt8)
  /-- What it has sent. -/
  answers : List (List UInt8)

/-- An accepted connection. -/
def Talk.start (fd : ℤ) (acceptTime : Time) (acceptNo : ℕ) : Talk :=
  ⟨Service.start OutBuffer fd acceptTime acceptNo, .called, [], [], []⟩

namespace SessionCallback

variable (cb : SessionCallback)

/-- The value that the callback returns. -/
def value : POServiceReturn := if cb.closes then .close else .continue

/-- Where the callback formats its answer. -/
def ready : Point := if cb.terminates then .terminated else .called

/-- What the callback and the rest of the program do. -/
def Permits (t : Talk) : Action SendCall SendResult → Prop
  | .terminate value => cb.terminates = true ∧ t.point = .called ∧ value = 0
  | .send call =>
      t.session.control = .session ∧ t.point = cb.ready ∧
        call = .sendF (cb.text t.session.input.inBuffer)
  | .returns value => t.point = .answered ∧ value = cb.value
  | _ => True

instance decidablePermits (t : Talk) : (a : Action SendCall SendResult) → Decidable (cb.Permits t a)
  | .terminate _ => inferInstanceAs (Decidable (_ ∧ _))
  | .send _ => inferInstanceAs (Decidable (_ ∧ _))
  | .returns _ => inferInstanceAs (Decidable (_ ∧ _))
  | .event _ | .service | .go | .setUp _ | .read _ | .write _ | .remove | .cleanedUp =>
      isTrue trivial

/-- The talk after a step that leaves the session as it is in `s`. -/
def next (t : Talk) (a : Action SendCall SendResult) (s : Session OutBuffer) : Talk :=
  match a with
  | .read r => { t with session := s, heard := t.heard ++ r.received }
  | .terminate _ => { t with session := s, point := .terminated }
  | .send _ =>
      { t with
        session := s
        point := .answered
        messages := t.messages ++ [t.session.received]
        answers := t.answers ++ [cb.text t.session.input.inBuffer] }
  | .returns _ => { t with session := s, point := if cb.closes then .closed else .called }
  | _ => { t with session := s }

/-- The transitions of a session with its callback. -/
def step (cfg : Config SendCall OutBuffer SendResult) (t : Talk)
    (a : Action SendCall SendResult) : Option Talk :=
  if cb.Permits t a then (Service.step cfg t.session a).map (cb.next t a) else none

/-- The text is what the callback makes of the message, in some buffer that holds it. -/
def Answers (message text : List UInt8) : Prop :=
  ∃ i : Input, i.Holds message ∧ (cb.terminates = true → i.inBuffer[i.inLen]? = some 0) ∧
    text = cb.text i.inBuffer

end SessionCallback

namespace Talk

/-- What was received and is not answered. -/
def unanswered (t : Talk) : List UInt8 :=
  match t.point with
  | .called | .terminated => t.session.received
  | .answered | .closed => []

/-- Over TLS, a count of `gnutls_record_send()` is that of all the bytes it was asked for. -/
def Sends (tls : Bool) (t : Talk) (a : Action SendCall SendResult) : Prop :=
  tls = true → SendsAll t.session a

instance decidableSends (tls : Bool) (t : Talk) (a : Action SendCall SendResult) :
    Decidable (Sends tls t a) :=
  inferInstanceAs (Decidable (_ → _))

/-- Where the callback is, and what it knows there. -/
structure Placed (cb : SessionCallback) (t : Talk) : Prop where
  terminated : t.point = .terminated → cb.terminates = true ∧ t.session.control = .session ∧
    t.session.input.inBuffer[t.session.input.inLen]? = some 0
  answered : t.point = .answered → t.session.control.Calling ∨ t.session.control = .exited
  closed : t.point = .closed → cb.closes = true ∧ t.session.closed = true

/-- What was heard and answered. -/
structure Replies (cb : SessionCallback) (t : Talk) : Prop where
  heard : t.heard = t.messages.flatten ++ t.unanswered
  answers : List.Forall₂ cb.Answers t.messages t.answers
  nonempty : ∀ m ∈ t.messages, m ≠ []
  queued : t.session.queued = t.answers.map fun text ↦ ⟨text, 0⟩
  once : cb.closes = true → t.messages.length = t.point.sent

end Talk

variable {cfg : Config SendCall OutBuffer SendResult} {cb : SessionCallback} {t t' : Talk}
  {s s' : Session OutBuffer} {a : Action SendCall SendResult} {l : Limits} {tls : Bool} {fd : ℤ}
  {acceptTime : Time} {acceptNo : ℕ}

/-- What the session callback does. -/
theorem Stepped.of_session (hs : Stepped cfg s a s') (hc : s.control = .session) :
    (∃ v, a = .terminate v) ∨ (∃ call, a = .send call) ∨ ∃ v, a = .returns v := by
  cases hs with
  | terminate value _ => exact .inl ⟨value, rfl⟩
  | send call _ => exact .inr (.inl ⟨call, rfl⟩)
  | returns value _ => exact .inr (.inr ⟨value, rfl⟩)
  | cleanup hc' _ => rcases hc' with hc' | hc' <;> exact nomatch hc.symm.trans hc'
  | remove hc' _ => rcases hc' with hc' | hc' <;> exact nomatch hc.symm.trans hc'
  | _ => simp_all

/-- What `Read()` waits for. -/
theorem Stepped.of_read {oldLen : ℕ} (hs : Stepped cfg s a s') (hc : s.control = .read oldLen) :
    ∃ r, a = .read r := by
  cases hs with
  | read _ _ => exact ⟨_, rfl⟩
  | send call hcaller =>
      rcases Session.sender_cases hcaller with ⟨hc', -⟩ | ⟨hc', -⟩ | ⟨hc', -⟩ <;>
        exact nomatch hc.symm.trans hc'
  | cleanup hc' _ => rcases hc' with hc' | hc' <;> exact nomatch hc.symm.trans hc'
  | remove hc' _ => rcases hc' with hc' | hc' <;> exact nomatch hc.symm.trans hc'
  | _ => simp_all

/-- The session callback goes on until it returns. -/
theorem Stepped.calling (hs : Stepped cfg s a s') (hc : s.control.Calling)
    (hreturns : ∀ v, a ≠ .returns v) : s'.control.Calling ∨ s'.control = .exited := by
  cases hs with
  | terminate value hc' =>
      rw [hc'] at hc ⊢
      exact .inl trivial
  | returns value _ => exact absurd rfl (hreturns value)
  | send call hcaller =>
      left
      rcases Session.sender_cases hcaller with ⟨hc', -⟩ | ⟨hc', rfl⟩ | ⟨hc', -⟩
      · rw [hc'] at hc
        exact hc.elim
      · rw [Session.send]
        dsimp only
        split_ifs
        · trivial
        · exact hc
        · exact hc
      · rw [hc'] at hc
        exact hc.elim
  | write hc' _ _ =>
      rename_i caller e rest r next _ _
      rw [hc'] at hc
      cases caller with
      | session =>
          cases next with
          | goesOn sent out => exact .inl (by rw [Session.writeStep]; exact hc' ▸ trivial)
          | returns sent out value =>
              left
              simp only [Session.writeStep]
              split_ifs
              · trivial
              · trivial
              · trivial
              · exact hc' ▸ trivial
          | ends => exact .inr rfl
      | _ => exact hc.elim
  | cleanup hc' _ =>
      rcases hc' with hc' | hc' <;> rw [hc'] at hc <;> exact hc.elim
  | remove hc' _ =>
      rcases hc' with hc' | hc' <;> rw [hc'] at hc <;> exact hc.elim
  | _ => simp_all [Control.Calling]

/-- The bytes of a result are recorded, also where the process ends. -/
theorem Session.received_of_readInput {oldLen : ℕ} {r : ReadResult} {next : ReadStep}
    (hnext : Session.readInput cfg s.input r = some next) :
    (s.readStep oldLen r next).received = s.received ++ r.received := by
  by_cases hends : next = .ends
  · subst hends
    cases r with
    | count bytes =>
        rw [readInput_count] at hnext
        split_ifs at hnext <;> cases hnext
    | _ => exact (List.append_nil _).symm
  · exact received_readStep s oldLen r hends

theorem Stepped.not_exited (hs : Stepped cfg s a s') : s.control ≠ .exited := by
  intro hc
  cases hs with
  | send call hcaller => simp_all [Session.sender]
  | _ => simp_all

/-! ## Between the calls -/

/-- Each call of `Read()` starts with an empty buffer. -/
structure Session.Settles (s : Session OutBuffer) : Prop where
  fresh : s.conn.callback .read = some readCallback →
    ∀ oldLen, s.control = .read oldLen → oldLen = 0
  empty : s.conn.callback .read = some readCallback →
    s.control.Reading ∨ s.control = .exited ∨ s.input.inLen = 0

namespace Session

theorem settles_start : (Service.start OutBuffer fd acceptTime acceptNo).Settles :=
  ⟨fun h ↦ (nomatch h), fun h ↦ nomatch h⟩

/-- `Read()` is done. -/
theorem settles_readReturned {value : ℤ} (hempty : value = 0 → s.input.inLen = 0) :
    (s.readReturned value).Settles := by
  refine ⟨fun _ oldLen hc ↦ (nomatch hc), fun hread ↦ .inr (.inr (hempty ?_))⟩
  by_contra hvalue
  unfold readReturned serviceReturned Connection.callbackReturned at hread
  rw [if_pos hvalue] at hread
  exact nomatch hread

/-- What leaves the input alone and does not call `Read()`. -/
theorem Settles.outside (h : s.Settles) (hs : Stepped cfg s a s') (ha : ¬ ChangesInput a)
    (hcontrol : ∀ oldLen, s'.control ≠ .read oldLen) : s'.Settles := by
  have hsame := sameInput_of_stepped hs ha
  refine ⟨fun _ oldLen hc ↦ absurd hc (hcontrol oldLen), fun hread ↦ ?_⟩
  have hreturns : ∀ v, a ≠ .returns v := by
    rintro v rfl
    exact ha trivial
  rcases h.empty (hsame.read _ hread) with hreading | hexited | hempty
  · have hcalling : s.control.Calling := by
      cases hc : s.control with
      | read oldLen =>
          obtain ⟨r, rfl⟩ := hs.of_read hc
          exact absurd trivial ha
      | session => trivial
      | write caller => cases caller <;> simp_all [Control.Reading, Control.Calling]
      | _ => simp_all [Control.Reading]
    rcases hs.calling hcalling hreturns with hcalling' | hexited
    · left
      cases hc : s'.control with
      | session => trivial
      | write caller => cases caller <;> simp_all [Control.Reading, Control.Calling]
      | _ => simp_all [Control.Calling]
    · exact .inr (.inl hexited)
  · exact absurd hexited hs.not_exited
  · rw [hsame.input]
    exact .inr (.inr hempty)

/-- Neither `Write()` nor a send leads into `Read()`. -/
theorem control_ne_read_of_write {caller : Caller} {no : ℕ} {rest : List (Entry OutBuffer)}
    {next : WriteStep OutBuffer} (hc : s.control = .write caller) (oldLen : ℕ) :
    (s.writeStep caller no rest next).control ≠ .read oldLen := by
  have hkept : s.control ≠ .read oldLen := by
    rw [hc]
    exact Control.noConfusion
  have hreturned : ∀ (t : Session OutBuffer) (value : ℤ),
      (t.writeReturned value caller).control ≠ .read oldLen := by
    intro t value
    cases caller <;> exact Control.noConfusion
  cases next with
  | goesOn sent out => exact hkept
  | returns sent out value =>
      simp only [writeStep]
      split_ifs
      · exact hreturned _ _
      · exact hreturned _ _
      · exact hreturned _ _
      · exact hkept
  | ends => exact Control.noConfusion

theorem control_ne_read_of_send {caller : Caller} {out : OutBuffer}
    (hcaller : s.sender = some caller) (oldLen : ℕ) :
    (s.send caller out).control ≠ .read oldLen := by
  have hkept : s.control ≠ .read oldLen := by
    rcases sender_cases hcaller with ⟨hc, -⟩ | ⟨hc, -⟩ | ⟨hc, -⟩ <;>
      rw [hc] <;> exact Control.noConfusion
  unfold send
  dsimp only
  split_ifs
  · exact Control.noConfusion
  · exact hkept
  · exact hkept

theorem Settles.stepped (h : s.Settles) (hw : s.Wired) (hr : s.Receives)
    (hs : Stepped cfg s a s') (hwait : a ≠ .returns .wait) : s'.Settles := by
  have houtside := h.outside hs
  cases hs with
  | setUp ok hc =>
      unfold setUp
      split_ifs
      · exact settles_readReturned fun hvalue ↦ absurd hvalue (by decide)
      · refine ⟨fun _ oldLen hc' ↦ ?_, fun _ ↦ .inl trivial⟩
        cases hc'
        rfl
  | read hc hnext =>
      rename_i oldLen r next
      obtain ⟨hread, hholds, hroom, -⟩ := hr.reading hw hc
      have hkept := readInput_holds hholds hroom hnext
      cases next with
      | goesOn input =>
          refine ⟨fun _ oldLen' hc' ↦ ?_, fun _ ↦ .inl trivial⟩
          cases hc'
          exact h.fresh hread oldLen hc
      | returns input value =>
          unfold readStep
          dsimp only
          split_ifs with hvalue hshort
          · refine settles_readReturned fun hzero ↦ ?_
            rcases hkept.2 with hone | ⟨htwo, -⟩
            · exact absurd (hzero.symm.trans hone) (by decide)
            · exact absurd htwo hvalue
          · exact settles_readReturned fun _ ↦ Nat.lt_one_iff.mp hshort
          · exact ⟨fun _ _ ↦ Control.noConfusion, fun _ ↦ .inl trivial⟩
      | ends => exact ⟨fun _ _ ↦ Control.noConfusion, fun _ ↦ .inr (.inl rfl)⟩
  | terminate value hc =>
      refine ⟨fun _ oldLen hc' ↦ ?_, fun _ ↦ .inl ?_⟩
      · cases hc.symm.trans hc'
      · show s.control.Reading
        rw [hc]
        trivial
  | returns value hc =>
      cases value with
      | «continue» => exact settles_readReturned fun _ ↦ rfl
      | wait => exact absurd rfl hwait
      | close =>
          unfold sessionReturned
          dsimp only
          split_ifs
          · exact settles_readReturned fun hvalue ↦ absurd hvalue (by decide)
          · refine ⟨fun hread ↦ ?_, fun hread ↦ ?_⟩ <;> cases hread
      | error => exact settles_readReturned fun hvalue ↦ absurd hvalue (by decide)
  | callRead removeMe hc hcalls hsetup =>
      refine ⟨fun hread oldLen hc' ↦ ?_, fun _ ↦ .inl trivial⟩
      cases hc'
      rcases h.empty hread with hreading | hexited | hempty
      · exact (hc ▸ hreading : (Control.service _).Reading).elim
      · cases hc.symm.trans hexited
      · exact hempty
  | event d hc =>
      refine houtside id fun oldLen hc' ↦ ?_
      cases hc.symm.trans hc'
  | done removeMe hc => exact houtside id fun oldLen hc' ↦ by cases removeMe <;> cases hc'
  | send call hcaller => exact houtside id (control_ne_read_of_send hcaller)
  | write hc hqueue hnext => exact houtside id (control_ne_read_of_write hc)
  | _ => exact houtside id fun _ ↦ Control.noConfusion

end Session

namespace Talk

theorem step_eq_some : cb.step cfg t a = some t' ↔
    cb.Permits t a ∧ ∃ s, Service.step cfg t.session a = some s ∧ cb.next t a s = t' := by
  rw [SessionCallback.step, Option.ite_none_right_eq_some, Option.map_eq_some_iff]

theorem next_session (t : Talk) (a : Action SendCall SendResult) (s : Session OutBuffer) :
    (cb.next t a s).session = s := by cases a <;> rfl

/-- The session of a talk runs. -/
theorem reach_session {ok : Talk → Action SendCall SendResult → Prop}
    (h : Reach (cb.step cfg) ok (start fd acceptTime acceptNo) t) :
    Reach (Service.step cfg) Any (Service.start OutBuffer fd acceptTime acceptNo) t.session := by
  induction h with
  | refl => exact .refl
  | tail _ _ hstep ih =>
      obtain ⟨-, s, hs, rfl⟩ := step_eq_some.mp hstep
      rw [next_session]
      exact ih.tail trivial hs

/-! ## Where the callback is -/

theorem placed_start : (start fd acceptTime acceptNo).Placed cb :=
  ⟨fun h ↦ (nomatch h), fun h ↦ (nomatch h), fun h ↦ nomatch h⟩

/-- `Read()` waits before the callback has answered. -/
theorem Placed.ne_answered {oldLen : ℕ} (h : t.Placed cb)
    (hc : t.session.control = .read oldLen) : t.point ≠ .answered := fun hp ↦ by
  rcases h.answered hp with hcalling | hexited
  · rw [hc] at hcalling
    exact hcalling
  · cases hc.symm.trans hexited

/-- Outside of the callback, its place does not change. -/
theorem Placed.outside (h : t.Placed cb) (hs : Stepped cfg t.session a s)
    (hnext : (cb.next t a s).point = t.point)
    (hother : ¬ ((∃ v, a = .terminate v) ∨ (∃ call, a = .send call) ∨ ∃ v, a = .returns v)) :
    (cb.next t a s).Placed cb := by
  refine ⟨fun hp ↦ ?_, fun hp ↦ ?_, fun hp ↦ ?_⟩
  all_goals
    rw [hnext] at hp
    rw [next_session]
  · exact absurd (hs.of_session (h.terminated hp).2.1) hother
  · rcases h.answered hp with hc | hc
    · exact hs.calling hc fun v ha ↦ hother (.inr (.inr ⟨v, ha⟩))
    · exact absurd hc hs.not_exited
  · exact ⟨(h.closed hp).1, Session.closed_of_stepped (h.closed hp).2 hs⟩

theorem Placed.next (h : t.Placed cb) (hw : t.session.Wired) (hr : t.session.Receives)
    (hpermits : cb.Permits t a) (hs : Stepped cfg t.session a s) : (cb.next t a s).Placed cb := by
  have houtside := h.outside hs
  cases hs with
  | terminate value hc =>
      obtain ⟨hterminates, -, rfl⟩ := hpermits
      have hlt : t.session.input.inLen < t.session.input.inBuffer.length := by
        obtain ⟨hholds, hroom⟩ := hr.holds (hw.reading (by rw [hc]; trivial))
        rw [hholds.length]
        exact Nat.lt_succ_of_lt hroom
      exact ⟨fun _ ↦ ⟨hterminates, hc, List.getElem?_set_self hlt⟩, fun hp ↦ (nomatch hp),
        fun hp ↦ nomatch hp⟩
  | send call hcaller =>
      refine ⟨fun hp ↦ (nomatch hp), fun _ ↦ ?_, fun hp ↦ nomatch hp⟩
      have hc : t.session.control = .session := hpermits.1
      have hsend : Stepped cfg t.session (.send call) _ := .send call hcaller
      exact hsend.calling (hc ▸ trivial) fun v ha ↦ nomatch ha
  | returns value hc =>
      obtain ⟨-, rfl⟩ := hpermits
      by_cases hcloses : cb.closes = true
      · have hpoint : (cb.next t (.returns cb.value)
            (t.session.sessionReturned cb.value)).point = .closed := if_pos hcloses
        refine ⟨fun hp ↦ (nomatch hpoint.symm.trans hp), fun hp ↦ (nomatch hpoint.symm.trans hp),
          fun _ ↦ ⟨hcloses, ?_⟩⟩
        have hvalue : cb.value = .close := if_pos hcloses
        rw [next_session, hvalue, Session.sessionReturned]
        dsimp only
        split_ifs <;> rfl
      · have hpoint : (cb.next t (.returns cb.value)
            (t.session.sessionReturned cb.value)).point = .called := if_neg hcloses
        exact ⟨fun hp ↦ (nomatch hpoint.symm.trans hp), fun hp ↦ (nomatch hpoint.symm.trans hp),
          fun hp ↦ nomatch hpoint.symm.trans hp⟩
  | _ => exact houtside rfl (by simp)

/-! ## What is answered -/

theorem replies_start : (start fd acceptTime acceptNo).Replies cb :=
  ⟨rfl, .nil, fun _ hm ↦ absurd hm List.not_mem_nil, rfl, fun _ ↦ rfl⟩

/-- What a step does that neither receives nor answers. -/
theorem Replies.of_same (h : t.Replies cb) (hsession : t'.session.received = t.session.received)
    (hqueued : t'.session.queued = t.session.queued) (hheard : t'.heard = t.heard)
    (hmessages : t'.messages = t.messages) (hanswers : t'.answers = t.answers)
    (hpoint : t'.point = t.point) : t'.Replies cb := by
  refine ⟨?_, ?_, ?_, ?_, ?_⟩
  · rw [hheard, hmessages, h.heard]
    unfold unanswered
    rw [hpoint, hsession]
  · rw [hmessages, hanswers]
    exact h.answers
  · rw [hmessages]
    exact h.nonempty
  · rw [hqueued, hanswers]
    exact h.queued
  · rw [hmessages, hpoint]
    exact h.once

theorem unanswered_of_ready (hp : t.point = cb.ready) : t.unanswered = t.session.received := by
  unfold unanswered
  rw [hp, SessionCallback.ready]
  split_ifs <;> rfl

theorem sent_ready (cb : SessionCallback) : cb.ready.sent = 0 := by
  unfold SessionCallback.ready
  split_ifs <;> rfl

/-- The callback answers. -/
theorem Replies.send (h : t.Replies cb) (hplaced : t.Placed cb) (hw : t.session.Wired)
    (hr : t.session.Receives) (hc : t.session.control = .session) (hp : t.point = cb.ready)
    {caller : Caller} :
    (cb.next t (.send (.sendF (cb.text t.session.input.inBuffer))) (t.session.send caller
      ((SendCall.sendF (cb.text t.session.input.inBuffer)).entry l.chunkLen))).Replies cb := by
  obtain ⟨hholds, -⟩ := hr.holds (hw.reading (by rw [hc]; trivial))
  have hpos := hr.calling (by rw [hc]; trivial)
  refine ⟨?_, ?_, fun m hm ↦ ?_, ?_, fun hcloses ↦ ?_⟩
  · show t.heard = (t.messages ++ [t.session.received]).flatten ++ []
    rw [h.heard, unanswered_of_ready hp, List.flatten_append, List.flatten_singleton,
      List.append_nil]
  · refine List.rel_append h.answers (.cons ⟨_, hholds, fun hterminates ↦ ?_, rfl⟩ .nil)
    exact (hplaced.terminated (hp.trans (if_pos hterminates))).2.2
  · rcases List.mem_append.mp hm with hm | hm
    · exact h.nonempty m hm
    · rintro rfl
      have hlen := hholds.inLen_eq
      rw [← List.mem_singleton.mp hm] at hlen
      exact absurd hlen (Nat.ne_of_gt hpos)
  · show (t.session.send caller _).queued = (t.answers ++ [_]).map _
    rw [(Session.sameOutput_send _ _ _).queued, Session.push, h.queued, List.map_append,
      SendCall.entry, formatLoop_eq]
    rfl
  · have hzero := h.once hcloses
    rw [hp, sent_ready] at hzero
    show (t.messages ++ [t.session.received]).length = 1
    rw [List.length_append, hzero]
    rfl

/-- The callback returns. -/
theorem Replies.returns (h : t.Replies cb) (hp : t.point = .answered) :
    (cb.next t (.returns cb.value) (t.session.sessionReturned cb.value)).Replies cb := by
  have hqueued := (Session.sameOutput_sessionReturned t.session cb.value).queued
  have hnone : t.unanswered = [] := by
    unfold unanswered
    rw [hp]
  refine ⟨?_, h.answers, h.nonempty, ?_, fun hcloses ↦ ?_⟩
  · show t.heard = t.messages.flatten ++ _
    rw [h.heard, hnone]
    unfold unanswered SessionCallback.next SessionCallback.value
    by_cases hcloses : cb.closes = true
    · simp only [if_pos hcloses]
    · simp only [if_neg hcloses]
      rfl
  · rw [next_session, hqueued]
    exact h.queued
  · have hone := h.once hcloses
    rw [hp] at hone
    show t.messages.length = (if cb.closes then Point.closed else .called).sent
    rw [if_pos hcloses]
    exact hone

theorem Replies.next (h : t.Replies cb) (hplaced : t.Placed cb) (hw : t.session.Wired)
    (hr : t.session.Receives) (hcloses : t.session.Closes) (hpermits : cb.Permits t a)
    (hs : Stepped (l.via tls) t.session a s) : (cb.next t a s).Replies cb := by
  have hqueued := Session.queued_of_stepped hs
  have hsame := Session.sameInput_of_stepped hs
  cases hs with
  | setUp ok hc =>
      refine h.of_same ?_ (Session.sameOutput_setUp _ _ _).queued rfl rfl rfl rfl
      rw [next_session, Session.setUp]
      split_ifs <;> rfl
  | read hc hnext =>
      rename_i oldLen r next
      have hcalled : t.point = .called := by
        cases hp : t.point with
        | called => rfl
        | terminated => exact nomatch hc.symm.trans (hplaced.terminated hp).2.1
        | answered => exact absurd hp (hplaced.ne_answered hc)
        | closed =>
            exact (hc ▸ (hcloses.silent (hplaced.closed hp).2).2 : (Control.read oldLen).Quiet).elim
      refine ⟨?_, h.answers, h.nonempty, ?_, h.once⟩
      · show t.heard ++ r.received = t.messages.flatten ++ _
        rw [h.heard, List.append_assoc]
        congr 1
        unfold unanswered SessionCallback.next
        dsimp only
        rw [hcalled]
        exact (Session.received_of_readInput hnext).symm
      · rw [next_session, (Session.sameOutput_readStep _ _ _ _).queued]
        exact h.queued
  | terminate value hc =>
      obtain ⟨-, hp, -⟩ := hpermits
      refine ⟨?_, h.answers, h.nonempty, h.queued, fun hone ↦ ?_⟩
      · refine h.heard.trans ?_
        unfold unanswered
        rw [hp]
        rfl
      · rw [show (cb.next t (.terminate value) _).messages = t.messages from rfl, h.once hone, hp]
        rfl
  | send call hcaller =>
      obtain ⟨hc, hp, rfl⟩ := hpermits
      exact h.send hplaced hw hr hc hp
  | returns value hc =>
      obtain ⟨hp, rfl⟩ := hpermits
      exact h.returns hp
  | _ =>
      rcases hqueued with hqueued | ⟨call, heq, -⟩
      · exact h.of_same (hsame id).received hqueued rfl rfl rfl rfl
      · cases heq

/-! ## Runs -/

theorem via_conserves : (l.via tls).writer.Conserves OutBuffer.rest
    fun b r ↦ tls = true → TakesAll b r := by
  intro o r next hok hnext
  cases tls with
  | false =>
      have htcp : (tcpBuffers l.chunkLen).Conserves OutBuffer.rest fun _ _ ↦ True :=
        tcpBuffers_conserves
      exact htcp trivial hnext
  | true =>
      have htls : (tlsBuffers l.chunkLen).Conserves OutBuffer.rest TakesAll := tlsBuffers_conserves
      exact htls (hok rfl) hnext

/-- The answers are sent in order. -/
structure Answered (cb : SessionCallback) (t : Talk) : Prop where
  replies : t.Replies cb
  accepted : t.session.accepted <+: t.answers.flatten
  conserved : t.session.control ≠ .removed →
    t.session.accepted ++ t.session.queue.flatMap (fun e ↦ e.out.rest) = t.answers.flatten
  pending : t.session.control ≠ .removed → ∀ e ∈ t.session.queue, ∃ text ∈ t.answers,
    text ≠ [] → e.out.rest ≠ []
  settled : t.session.conn.callback .read = some readCallback → ¬ t.session.control.Reading →
    t.session.control ≠ .exited → t.unanswered = []

theorem Replies.flatMap_rest (h : t.Replies cb) :
    t.session.queued.flatMap OutBuffer.rest = t.answers.flatten := by
  rw [h.queued, List.flatMap_map, List.flatten_eq_flatMap]
  rfl

/-- What the answers are when they are a function of the messages. -/
theorem Replies.map_messages (h : t.Replies cb) {f : List UInt8 → List UInt8}
    (hf : ∀ {message text}, cb.Answers message text → f message = text) :
    t.messages.map f = t.answers := by
  have hall : List.Forall₂ Eq (t.messages.map f) t.answers :=
    List.forall₂_map_left_iff.mpr (h.answers.imp fun _ _ ↦ hf)
  rwa [List.forall₂_eq_eq_eq] at hall

section Runs

variable {ok : Talk → Action SendCall SendResult → Prop}

/-- What holds of the session of a talk. -/
theorem kept_of_reach (h : Reach (cb.step cfg) ok (start fd acceptTime acceptNo) t) :
    t.session.Wired ∧ t.session.Receives ∧ t.session.Closes :=
  have hsession := reach_session h
  ⟨Session.wired_of_reach hsession, Session.receives_of_reach hsession,
    Session.closes_of_reach hsession⟩

theorem placed_of_reach (h : Reach (cb.step cfg) ok (start fd acceptTime acceptNo) t) :
    t.Placed cb := by
  refine h.invariant_of kept_of_reach placed_start fun hkept hplaced _ hs ↦ ?_
  obtain ⟨hpermits, s, hsession, rfl⟩ := step_eq_some.mp hs
  exact hplaced.next hkept.1 hkept.2.1 hpermits (stepped_of_step hsession)

theorem settles_of_reach (h : Reach (cb.step cfg) ok (start fd acceptTime acceptNo) t) :
    t.session.Settles := by
  refine h.invariant_of (I := fun t ↦ t.session.Settles) kept_of_reach Session.settles_start
    fun hkept hsettles _ hs ↦ ?_
  obtain ⟨hpermits, s, hsession, rfl⟩ := step_eq_some.mp hs
  rw [next_session]
  refine hsettles.stepped hkept.1 hkept.2.1 (stepped_of_step hsession) ?_
  rintro rfl
  have hvalue := hpermits.2
  unfold SessionCallback.value at hvalue
  split_ifs at hvalue

theorem replies_of_reach (h : Reach (cb.step (l.via tls)) ok (start fd acceptTime acceptNo) t) :
    t.Replies cb := by
  refine h.invariant_of (fun h ↦ And.intro (kept_of_reach h) (placed_of_reach h)) replies_start
    fun hkept hreplies _ hs ↦ ?_
  obtain ⟨⟨hw, hr, hcloses⟩, hplaced⟩ := hkept
  obtain ⟨hpermits, s, hsession, rfl⟩ := step_eq_some.mp hs
  exact hreplies.next hplaced hw hr hcloses hpermits (stepped_of_step hsession)

theorem delivers_of_reach
    (h : Reach (cb.step (l.via tls)) (Sends tls) (start fd acceptTime acceptNo) t) :
    t.session.Delivers OutBuffer.rest := by
  refine h.invariant (I := fun t ↦ t.session.Delivers OutBuffer.rest)
    (Session.delivers_start fd acceptTime acceptNo) fun hdelivers hok hs ↦ ?_
  obtain ⟨-, s, hsession, rfl⟩ := step_eq_some.mp hs
  rw [next_session]
  refine hdelivers.stepped via_conserves (fun r e es ha hqueue htls ↦ ?_)
    (stepped_of_step hsession)
  have hall := hok htls
  subst ha
  simpa [SendsAll, hqueue] using hall

/-- **Every message has one answer, and the answers are sent in order.** -/
theorem answered_of_reach
    (h : Reach (cb.step (l.via tls)) (Sends tls) (start fd acceptTime acceptNo) t) :
    t.Answered cb := by
  have hreplies := replies_of_reach h
  have hdelivers := delivers_of_reach h
  refine ⟨hreplies, ?_, fun hlive ↦ ?_, fun hlive e he ↦ ?_, fun hread hreading hexited ↦ ?_⟩
  · rw [← hreplies.flatMap_rest]
    exact hdelivers.accepted
  · rw [← hreplies.flatMap_rest]
    exact (hdelivers.live hlive).conserved
  · obtain ⟨o, ho, -, hne⟩ := (hdelivers.live hlive).pending e he
    have hmem := List.mem_of_getElem? ho
    rw [hreplies.queued] at hmem
    obtain ⟨text, htext, rfl⟩ := List.mem_map.mp hmem
    exact ⟨text, htext, hne⟩
  · have hempty := ((settles_of_reach h).empty hread).resolve_left hreading |>.resolve_left hexited
    have hreceived : t.session.received = [] := by
      rw [← ((kept_of_reach h).2.1.holds hread).1.take, hempty, List.take_zero]
    unfold unanswered
    rw [hreceived]
    cases t.point <;> rfl

end Runs

end Talk

/-! ## The callbacks of `http.c` -/

theorem answers_poHttp_read {message text : List UInt8} (h : poHttp_read.Answers message text) :
    message.takeWhile (· ≠ 0) = text := by
  obtain ⟨i, hholds, hzero, rfl⟩ := h
  have hsplit : i.inBuffer = message ++ 0 :: i.inBuffer.drop (i.inLen + 1) := by
    obtain ⟨hlt, hget⟩ := List.getElem?_eq_some_iff.mp (hzero rfl)
    rw [← hholds.take, ← hget, List.getElem_cons_drop, List.take_append_drop]
  show _ = i.inBuffer.takeWhile _
  rw [hsplit, List.takeWhile_append]
  split_ifs with hall
  · rw [List.takeWhile_cons_of_neg (by simp), List.append_nil]
    exact (List.takeWhile_prefix _).eq_of_length hall
  · rfl

/-- **`poHttp_read()` echoes.**  Each message is cut at its first zero; without zeros, what the
socket accepts is a start of what was received. -/
theorem poHttp_read_echoes
    (h : Reach (poHttp_read.step (l.via tls)) (Talk.Sends tls)
      (Talk.start fd acceptTime acceptNo) t) :
    t.heard = t.messages.flatten ++ t.unanswered ∧ (∀ m ∈ t.messages, m ≠ []) ∧
      t.session.accepted <+: (t.messages.map (List.takeWhile (· ≠ 0))).flatten ∧
      (0 ∉ t.heard → t.session.accepted <+: t.heard) ∧
      (t.session.control ≠ .removed → t.session.queue = [] →
        t.session.accepted = (t.messages.map (List.takeWhile (· ≠ 0))).flatten) ∧
      (t.session.conn.callback .read = some readCallback → ¬ t.session.control.Reading →
        t.session.control ≠ .exited → t.unanswered = []) := by
  obtain ⟨hreplies, haccepted, hconserved, -, hsettled⟩ := Talk.answered_of_reach h
  rw [← hreplies.map_messages answers_poHttp_read] at haccepted hconserved
  refine ⟨hreplies.heard, hreplies.nonempty, haccepted, fun hzero ↦ ?_, fun hlive hqueue ↦ ?_,
    hsettled⟩
  · rw [hreplies.heard] at hzero ⊢
    have hmap : t.messages.map (List.takeWhile (· ≠ 0)) = t.messages := by
      refine (List.map_congr_left fun m hm ↦ ?_).trans (List.map_id _)
      refine List.takeWhile_eq_self_iff.mpr fun b hb ↦ decide_eq_true ?_
      rintro rfl
      exact hzero (List.mem_append_left _ (List.mem_flatten_of_mem hm hb))
    rw [hmap] at haccepted
    exact haccepted.trans (List.prefix_append _ _)
  · have hall := hconserved hlive
    rw [hqueue] at hall
    simpa using hall

/-- A client sends `"A"`, a zero and `"B"` in one piece, and then `"C"`. -/
theorem poHttp_read_echoes_cut :
    ∃ t, Reach (poHttp_read.step (Session.growing.via false)) (Talk.Sends false)
        (Talk.start 5 0 0) t ∧ (t.messages = [[65, 0, 66], [67]] ∧ t.session.accepted = [65]) ∧
      t.session.accepted <+: (t.messages.map (List.takeWhile (· ≠ 0))).flatten := by
  obtain ⟨t, hreach, hmessages⟩ :
      ∃ t, Reach (poHttp_read.step (Session.growing.via false)) (Talk.Sends false)
        (Talk.start 5 0 0) t ∧ (t.messages = [[65, 0, 66], [67]] ∧ t.session.accepted = [65]) :=
    exists_reach_of_exec_decide
      [.event .read, .event .write, .service, .go, .setUp true, .read (.count [65, 0]),
        .read (.count [66]), .terminate 0, .send (.sendF [65]), .write (.count 1),
        .returns .continue, .go, .go, .go, .event .read, .service, .go, .read (.count [67]),
        .terminate 0, .send (.sendF [67])]
      (by decide +kernel)
  exact ⟨t, hreach, hmessages, (poHttp_read_echoes hreach).2.2.1⟩

theorem redirection_ne_nil (httpHost httpsPort : String) :
    redirection httpHost httpsPort ≠ [] := by
  have hne : bytesOf "HTTP/1.1 301 Moved Permanently\r\nLocation: https://" ≠ [] := by decide
  simp [redirection, hne]

/-- **`poHttp_redirectToHttps()` answers once.**  Whatever the client sends, it gets a start of one
redirection; and when the callback has returned, the service asks for the close of the connection
as soon as the client has got all of it, unless a write has failed. -/
theorem poHttp_redirectToHttps_once {httpHost httpsPort : String}
    (h : Reach ((poHttp_redirectToHttps httpHost httpsPort).step (l.via tls)) (Talk.Sends tls)
      (Talk.start fd acceptTime acceptNo) t) :
    t.messages.length ≤ 1 ∧ t.session.accepted <+: redirection httpHost httpsPort ∧
      (t.point = .closed → t.session.writeError = false → t.session.control.Serving →
        (t.session.asked = true ↔ t.session.accepted = redirection httpHost httpsPort)) := by
  obtain ⟨hreplies, haccepted, hconserved, hpending, -⟩ := Talk.answered_of_reach h
  obtain ⟨-, -, hcloses⟩ := Talk.kept_of_reach h
  have hanswers : t.answers = List.replicate t.point.sent (redirection httpHost httpsPort) := by
    rw [← hreplies.once rfl, ← List.map_const']
    refine (hreplies.map_messages fun h ↦ ?_).symm
    obtain ⟨-, -, -, rfl⟩ := h
    rfl
  refine ⟨?_, ?_, fun hpoint hwrite hserving ↦ ?_⟩
  · rw [hreplies.once rfl]
    cases t.point <;> decide
  · rw [hanswers] at haccepted
    refine haccepted.trans ?_
    cases t.point <;> simp [Point.sent]
  · have hlive : t.session.control ≠ .removed := fun hc ↦ by
      rw [hc] at hserving
      exact hserving
    have hclosed := ((Talk.placed_of_reach h).closed hpoint).2
    have hall := hconserved hlive
    rw [hanswers, hpoint] at hall hpending
    simp only [Point.sent, List.replicate_one, List.flatten_singleton] at hall hpending
    rw [hcloses.exact hclosed hwrite hserving]
    refine ⟨fun hqueue ↦ ?_, fun haccepted ↦ ?_⟩
    · rw [hqueue] at hall
      simpa using hall
    · rw [haccepted, List.append_right_eq_self] at hall
      refine List.eq_nil_iff_forall_not_mem.mpr fun e he ↦ ?_
      obtain ⟨text, htext, hrest⟩ := hpending hlive e he
      refine hrest ?_ (List.flatMap_eq_nil_iff.mp hall e he)
      rw [List.mem_singleton.mp htext]
      exact redirection_ne_nil httpHost httpsPort

/-- The socket is full when the redirection is sent. -/
theorem poHttp_redirectToHttps_once_full :
    ∃ t, Reach ((poHttp_redirectToHttps "localhost" "5555").step (Session.growing.via false))
        (Talk.Sends false) (Talk.start 5 0 0) t ∧
      (t.point = .closed ∧ t.session.writeError = false ∧ t.session.control = .idle) ∧
      (t.session.asked = true ↔ t.session.accepted = redirection "localhost" "5555") := by
  obtain ⟨t, hreach, ht⟩ :
      ∃ t, Reach ((poHttp_redirectToHttps "localhost" "5555").step (Session.growing.via false))
        (Talk.Sends false) (Talk.start 5 0 0) t ∧
        (t.point = .closed ∧ t.session.writeError = false ∧ t.session.control = .idle) :=
    exists_reach_of_exec_decide
      [.event .read, .event .write, .service, .go, .setUp true, .read (.count [71]),
        .send (.sendF (redirection "localhost" "5555")), .write .again, .returns .close, .go,
        .write (.count 9), .go, .go]
      (by decide +kernel)
  refine ⟨t, hreach, ht, (poHttp_redirectToHttps_once hreach).2.2 ht.1 ht.2.1 ?_⟩
  rw [ht.2.2]
  trivial

end Tidbits.Service
