import Tidbits.Potato.RandSequence
import Tidbits.Service.Answering

/-!
# The test client and the test service

`go()` of `client.c` talks to the `Read()` of `service_test.c`.  The client sends the
string that belongs to the one it has, reads as many bytes as the next string has,
and compares; the service answers each message with the string that belongs to it.

`Conversation` is the client, a session of the service, and the bytes on their way in
both directions.  `read()` takes what has arrived, as much as there is room for.  The
service takes for a message whatever has arrived when it reads, so that the client is
only understood if its messages arrive in one piece: `Whole`.  Under this condition
`converses_of_reach` says that the client never sees a wrong response, and that as long
as it waits, its message or the response is on the way.
-/

namespace Tidbits.Service

open Potato Server Transition

/-- The parameters that the client and the service have in common. -/
structure Common where
  sequence : RandSequence
  /-- `PO_SCLIENT_BUFLEN`, which is `PO_RANDSEQUENCE_MAX`. -/
  bufLen : ℕ
  bufLen_eq : bufLen = sequence.min + sequence.range

/-- `Read()` of `service_test.c`. -/
def Common.read (c : Common) : SessionCallback :=
  ⟨true, fun buffer ↦ c.sequence.string (buffer.take 8), false⟩

/-- Where the client is. -/
inductive Stage
  /-- In `poClient_sendF()`, with what is left to send. -/
  | sending (rest : List UInt8)
  /-- In `poSClient_recv()`, with what it has got. -/
  | receiving (got : List UInt8)
  /-- Behind the loop. -/
  | finished
  /-- Behind a `strcmp()` that has found a difference. -/
  | wrong
  /-- Behind another failure. -/
  | failed
deriving DecidableEq, Repr

/-- `go()`. -/
structure Client where
  /-- The rounds that are left. -/
  n : ℕ
  /-- The string in `buf`. -/
  buf : List UInt8
  stage : Stage
  /-- The messages that were sent. -/
  sent : List (List UInt8)
  /-- The responses that `strcmp()` has found to be right. -/
  responses : List (List UInt8)
deriving DecidableEq, Repr

namespace Client

/-- The client no longer sends or receives. -/
def gone (x : Client) : Bool :=
  match x.stage with
  | .sending _ | .receiving _ => false
  | .finished | .wrong | .failed => true

/-- The head of the loop, with the first call of `poRandSequence_string()`, up to the first system
call of `poClient_sendF()`. -/
def loop (c : Common) (x : Client) : Client :=
  if x.n = 0 then { x with stage := .finished }
  else
    let text := c.sequence.string x.buf
    { x with buf := text, stage := if text.length < c.bufLen then .sending text else .failed }

/-- The start of `go()`, with the number of rounds and what `snprintf()` has written. -/
def start (c : Common) (n : ℕ) (buf : List UInt8) : Client :=
  loop c ⟨n, buf, .finished, [], []⟩

/-- `write()` takes so many bytes, which are given with the client.  Behind the last of them comes
the second call of `poRandSequence_string()`. -/
def write (c : Common) (x : Client) (count : ℕ) : Option (Client × List UInt8) :=
  match x.stage with
  | .sending rest =>
      if 0 < count ∧ count ≤ rest.length then
        let x :=
          if count = rest.length then
            { x with
              buf := c.sequence.string x.buf
              stage := .receiving []
              sent := x.sent ++ [x.buf] }
          else { x with stage := .sending (rest.drop count) }
        some (x, rest.take count)
      else none
  | _ => none

/-- `read()` gives the bytes.  Behind the last of them comes `strcmp()`. -/
def read (c : Common) (x : Client) (bytes : List UInt8) : Option Client :=
  match x.stage with
  | .receiving got =>
      if bytes ≠ [] ∧ got.length + bytes.length ≤ x.buf.length then
        let got := got ++ bytes
        some <|
          if got.length < x.buf.length then { x with stage := .receiving got }
          else if x.buf.takeWhile (· ≠ 0) = got.takeWhile (· ≠ 0) then
            loop c { x with n := x.n - 1, responses := x.responses ++ [got] }
          else { x with stage := .wrong }
      else none
  | _ => none

end Client

/-- A client and its session, with what is on the way between them. -/
structure Conversation where
  client : Client
  talk : Talk
  toServer : List UInt8
  toClient : List UInt8

/-- What happens next. -/
inductive Move
  /-- The client writes so many bytes. -/
  | write (count : ℕ)
  /-- The client reads so many bytes. -/
  | read (count : ℕ)
  /-- A system call of the client fails. -/
  | fail
  /-- The service takes a step. -/
  | serve (a : Action SendCall SendResult)
deriving DecidableEq, Repr

namespace Conversation

/-- What the system calls of the service can come to.  `read()` takes as much as there is room for;
the stream ends, or a call fails, when the client is gone. -/
def Allows (v : Conversation) : Action SendCall SendResult → Prop
  | .read (.count bytes) =>
      bytes = v.toServer.take (v.talk.session.input.inSize - v.talk.session.input.inLen)
  | .read .again => v.toServer = []
  | .read .endOfStream | .read .hungUp | .read .failed => v.client.gone = true
  | _ => True

instance decidableAllows (v : Conversation) :
    (a : Action SendCall SendResult) → Decidable (v.Allows a)
  | .read (.count _) => inferInstanceAs (Decidable (_ = _))
  | .read .again => inferInstanceAs (Decidable (_ = _))
  | .read .endOfStream | .read .hungUp | .read .failed => inferInstanceAs (Decidable (_ = _))
  | .read .interrupted => isTrue trivial
  | .event _ | .service | .go | .setUp _ | .terminate _ | .send _ | .write _ | .returns _ | .remove
  | .cleanedUp => isTrue trivial

/-- The bytes that a step of the service takes from the socket. -/
def taken : Action SendCall SendResult → List UInt8
  | .read r => r.received
  | _ => []

/-- The service has taken a step. -/
def served (v : Conversation) (a : Action SendCall SendResult) (t : Talk) : Conversation :=
  { v with
    talk := t
    toServer := v.toServer.drop (taken a).length
    toClient := v.toClient ++ t.session.accepted.drop v.talk.session.accepted.length }

/-- The transitions of a conversation with a service, over TLS or not. -/
def step (c : Common) (l : Limits) (tls : Bool) (v : Conversation) : Move → Option Conversation
  | .write count =>
      (v.client.write c count).map fun r ↦
        { v with client := r.1, toServer := v.toServer ++ r.2 }
  | .read count =>
      (v.client.read c (v.toClient.take count)).map fun x ↦
        { v with client := x, toClient := v.toClient.drop count }
  | .fail =>
      if v.client.gone then none else some { v with client := { v.client with stage := .failed } }
  | .serve a =>
      if v.Allows a then (c.read.step (l.via tls) v.talk a).map (v.served a) else none

/-- The client has connected, and the service has accepted the connection. -/
def start (c : Common) (n : ℕ) (buf : List UInt8) (fd : ℤ) (acceptTime : Time) (acceptNo : ℕ) :
    Conversation :=
  ⟨.start c n buf, .start fd acceptTime acceptNo, [], []⟩

/-- The messages of the client arrive in one piece; over TLS, those of the service leave in one. -/
def Whole (tls : Bool) (v : Conversation) : Move → Prop
  | .write count => v.client.stage = .sending (v.client.buf) → count = v.client.buf.length
  | .serve a => Talk.Sends tls v.talk a
  | .read _ | .fail => True

instance decidableWhole (tls : Bool) (v : Conversation) : (m : Move) → Decidable (Whole tls v m)
  | .write _ => inferInstanceAs (Decidable (_ → _))
  | .serve _ => inferInstanceAs (Decidable (Talk.Sends _ _ _))
  | .read _ | .fail => isTrue trivial

/-! ## What the service answers -/

variable {c : Common} {l : Limits} {tls : Bool} {v v' : Conversation} {t t' : Talk}
  {a : Action SendCall SendResult} {n : ℕ} {buf : List UInt8} {fd : ℤ} {acceptTime : Time}
  {acceptNo : ℕ}

/-- The string depends on eight bytes. -/
theorem string_take (r : RandSequence) {message more : List UInt8} (h : 8 ≤ message.length) :
    r.string ((message ++ more).take 8) = r.string message := by
  have hseed : RandSequence.seed ((message ++ more).take 8) = RandSequence.seed message := by
    have hfour : ((message ++ more).take 8).take 4 = message.take 4 := by
      rw [List.take_take, List.take_append_of_le_length (by omega)]
      rfl
    have hnext : (((message ++ more).take 8).drop 4).take 4 = (message.drop 4).take 4 := by
      rw [List.take_append_of_le_length h, List.drop_take, List.take_take]
      rfl
    unfold RandSequence.seed
    rw [hfour, hnext]
  unfold RandSequence.string
  rw [hseed]

/-- The service answers as the client expects it. -/
theorem answers_read {message text : List UInt8} (h : c.read.Answers message text)
    (hlen : 8 ≤ message.length) : c.sequence.string message = text := by
  obtain ⟨i, hholds, -, rfl⟩ := h
  have hsplit : i.inBuffer = message ++ i.inBuffer.drop i.inLen := by
    rw [← hholds.take, List.take_append_drop]
  show _ = c.sequence.string (i.inBuffer.take 8)
  rw [hsplit, string_take _ hlen]

theorem not_closed (h : t.Placed c.read) : t.point ≠ .closed := fun hp ↦ nomatch (h.closed hp).1

theorem unanswered_of_ne_answered (h : t.Placed c.read) (hp : t.point ≠ .answered) :
    t.unanswered = t.session.received := by
  unfold Talk.unanswered
  cases hpoint : t.point with
  | called | terminated => rfl
  | answered => exact absurd hpoint hp
  | closed => exact absurd hpoint (not_closed h)

/-- Where `Read()` of the service is called, there is something to answer. -/
theorem unanswered_ne_nil (hplaced : t.Placed c.read) (hw : t.session.Wired)
    (hr : t.session.Receives) (hc : t.session.control.Calling) (hp : t.point ≠ .answered) :
    t.unanswered = t.session.received ∧ t.session.received ≠ [] := by
  obtain ⟨hholds, -⟩ := hr.holds (hw.reading hc.reading)
  refine ⟨unanswered_of_ne_answered hplaced hp, fun hnil ↦ ?_⟩
  have hlen := hholds.inLen_eq
  rw [hnil] at hlen
  exact absurd hlen (Nat.ne_of_gt (hr.calling hc))

/-- What makes `Read()` of `service.c` call the session callback. -/
theorem called_of_read {cfg : Config SendCall OutBuffer SendResult} {s : Session OutBuffer}
    {oldLen : ℕ} {r : ReadResult} {next : ReadStep}
    (hnext : Session.readInput cfg s.input r = some next)
    (hc : (s.readStep oldLen r next).control.Calling) :
    r = .again ∨ ∃ bytes, r = .count bytes ∧ bytes.length < s.input.inSize - s.input.inLen := by
  cases r with
  | again => exact .inl rfl
  | count bytes =>
      refine .inr ⟨bytes, rfl, ?_⟩
      rw [Session.readInput_count] at hnext
      split_ifs at hnext with hnew hshort hgrow
      · exact Nat.lt_sub_iff_add_lt'.mpr hshort
      · cases hnext
        exact hc.elim
      · cases hnext
        exact hc.elim
  | _ =>
      unfold Session.readInput tlsRead tcpRead at hnext
      split_ifs at hnext
      all_goals
        cases hnext
        exact hc.elim

/-- The socket does not take back what it has accepted. -/
theorem accepted_of_stepped {cfg : Config SendCall OutBuffer SendResult} {s s' : Session OutBuffer}
    (hs : Stepped cfg s a s') : s.accepted <+: s'.accepted := by
  have hsame : s.SameOutput s' → s.accepted <+: s'.accepted := fun hsame ↦
    hsame.accepted ▸ List.prefix_rfl
  cases hs with
  | setUp ok _ => exact hsame (Session.sameOutput_setUp _ _ _)
  | read _ _ => exact hsame (Session.sameOutput_readStep _ _ _ _)
  | returns value _ => exact hsame (Session.sameOutput_sessionReturned _ _)
  | send call _ =>
      rw [(Session.sameOutput_send _ _ _).accepted]
      exact List.prefix_rfl
  | write hc hqueue hnext =>
      rename_i caller e rest r next
      cases next with
      | goesOn sent out => exact List.prefix_append _ _
      | returns sent out value =>
          unfold Session.writeStep
          dsimp only
          split_ifs
          · rw [(Session.sameOutput_writeReturned _ _ _).accepted]
            exact List.prefix_append _ _
          · rw [(Session.sameOutput_writeReturned _ _ _).accepted]
            exact List.prefix_append _ _
          · rw [(Session.sameOutput_writeFinished _ _).accepted]
            exact List.prefix_append _ _
          · exact List.prefix_append _ _
      | ends => exact List.prefix_rfl
  | _ => exact List.prefix_rfl

/-! ## What the two agree on -/

/-- What holds at each stage of the client. -/
def Staged (c : Common) (v : Conversation) : Prop :=
  match v.client.stage with
  | .sending rest =>
      rest = v.client.buf ∧ (8 ≤ v.client.buf.length ∧ v.client.buf.length < c.bufLen) ∧
        v.talk.messages = v.client.sent ∧
        v.client.responses = v.client.sent.map c.sequence.string ∧
        v.client.responses.flatten ++ v.toClient = v.talk.session.accepted
  | .receiving got =>
      ∃ before message, v.client.sent = before ++ [message] ∧
        v.client.responses = before.map c.sequence.string ∧
        v.client.buf = c.sequence.string message ∧ got.length < v.client.buf.length ∧
        v.client.responses.flatten ++ (got ++ v.toClient) = v.talk.session.accepted
  | .finished => v.client.responses = v.client.sent.map c.sequence.string
  | .wrong => False
  | .failed => v.client.responses <+: v.client.sent.map c.sequence.string

theorem staged_receiving {got message : List UInt8} {before : List (List UInt8)}
    (hstage : v.client.stage = .receiving got) (hsent : v.client.sent = before ++ [message])
    (hresponses : v.client.responses = before.map c.sequence.string)
    (hbuf : v.client.buf = c.sequence.string message) (hlt : got.length < v.client.buf.length)
    (haccepted : v.client.responses.flatten ++ (got ++ v.toClient) = v.talk.session.accepted) :
    v.Staged c := by
  unfold Staged
  rw [hstage]
  exact ⟨before, message, hsent, hresponses, hbuf, hlt, haccepted⟩

/-- What holds of a conversation. -/
structure Agrees (c : Common) (v : Conversation) : Prop where
  texts : ∀ m ∈ v.client.sent, 8 ≤ m.length ∧ m.length < c.bufLen
  aligned : ∃ todo : List (List UInt8), todo.length ≤ 1 ∧
    v.client.sent = v.talk.messages ++ todo ∧ v.talk.unanswered ++ v.toServer = todo.flatten
  caught : v.talk.session.control.Calling → v.talk.point ≠ .answered → v.toServer = []
  ending : v.client.gone = false → v.talk.session.ending = none
  staged : v.Staged c

/-- What holds of the session of a conversation, apart from the client. -/
structure Serves (c : Common) (t : Talk) : Prop where
  wired : t.session.Wired
  receives : t.session.Receives
  placed : t.Placed c.read
  answered : t.Answered c.read

theorem Agrees.map_messages (h : v.Agrees c) (ht : Serves c v.talk) :
    v.talk.messages.map c.sequence.string = v.talk.answers := by
  obtain ⟨todo, -, hsent, -⟩ := h.aligned
  have hlong : ∀ m ∈ v.talk.messages, 8 ≤ m.length := fun m hm ↦
    (h.texts m (hsent ▸ List.mem_append_left _ hm)).1
  have hall : List.Forall₂ Eq (v.talk.messages.map c.sequence.string) v.talk.answers := by
    rw [List.forall₂_map_left_iff]
    exact ((List.forall₂_and_left _ _).mpr ⟨hlong, ht.answered.replies.answers⟩).imp
      fun _ _ ha ↦ answers_read ha.2 ha.1
  rwa [List.forall₂_eq_eq_eq] at hall

theorem Agrees.sending (h : v.Agrees c) {rest : List UInt8}
    (hstage : v.client.stage = .sending rest) :
    rest = v.client.buf ∧ (8 ≤ v.client.buf.length ∧ v.client.buf.length < c.bufLen) ∧
      v.talk.messages = v.client.sent ∧ v.client.responses = v.client.sent.map c.sequence.string ∧
      v.client.responses.flatten ++ v.toClient = v.talk.session.accepted := by
  have hstaged := h.staged
  unfold Staged at hstaged
  rwa [hstage] at hstaged

theorem Agrees.receiving (h : v.Agrees c) {got : List UInt8}
    (hstage : v.client.stage = .receiving got) :
    ∃ before message, v.client.sent = before ++ [message] ∧
      v.client.responses = before.map c.sequence.string ∧
      v.client.buf = c.sequence.string message ∧ got.length < v.client.buf.length ∧
      v.client.responses.flatten ++ (got ++ v.toClient) = v.talk.session.accepted := by
  have hstaged := h.staged
  unfold Staged at hstaged
  rwa [hstage] at hstaged

theorem Agrees.finished (h : v.Agrees c) (hstage : v.client.stage = .finished) :
    v.client.responses = v.client.sent.map c.sequence.string := by
  have hstaged := h.staged
  unfold Staged at hstaged
  rwa [hstage] at hstaged

theorem Agrees.not_wrong (h : v.Agrees c) : v.client.stage ≠ .wrong := fun hstage ↦ by
  have hstaged := h.staged
  unfold Staged at hstaged
  rwa [hstage] at hstaged

/-- The responses are those to the first messages. -/
theorem Agrees.responses (h : v.Agrees c) :
    v.client.responses <+: v.client.sent.map c.sequence.string := by
  cases hstage : v.client.stage with
  | sending rest =>
      obtain ⟨-, -, -, hresponses, -⟩ := h.sending hstage
      rw [hresponses]
  | receiving got =>
      obtain ⟨before, message, hsent, hresponses, -⟩ := h.receiving hstage
      rw [hresponses, hsent, List.map_append]
      exact List.prefix_append _ _
  | finished => rw [h.finished hstage]
  | wrong => exact absurd hstage h.not_wrong
  | failed =>
      have hstaged := h.staged
      unfold Staged at hstaged
      rwa [hstage] at hstaged

/-- What the client has got is a start of what it expects. -/
theorem Agrees.expected (h : v.Agrees c) (ht : Serves c v.talk) {got : List UInt8}
    (hstage : v.client.stage = .receiving got) : got ++ v.toClient <+: v.client.buf := by
  have hanswers := h.map_messages ht
  obtain ⟨before, message, hsent, hresponses, hbuf, -, haccepted⟩ := h.receiving hstage
  obtain ⟨todo, -, hmessages, -⟩ := h.aligned
  have hprefix : v.talk.session.accepted <+: (v.client.sent.map c.sequence.string).flatten := by
    refine ht.answered.accepted.trans ?_
    rw [← hanswers, hmessages, List.map_append, List.flatten_append]
    exact List.prefix_append _ _
  rw [← haccepted, hsent, List.map_append, List.flatten_append, hresponses] at hprefix
  rw [hbuf]
  simpa using (List.prefix_append_right_inj _).mp hprefix

/-! ## Steps of the service -/

/-- `read()` takes a start of what has arrived. -/
theorem taken_append_drop (h : v.Allows a) :
    taken a ++ v.toServer.drop (taken a).length = v.toServer := by
  cases a with
  | read r =>
      cases r with
      | count bytes =>
          have hbytes : bytes = v.toServer.take _ := h
          refine (List.prefix_iff_eq_append.mp ?_)
          show bytes <+: v.toServer
          rw [hbytes]
          exact List.take_prefix _ _
      | _ => rfl
  | _ => rfl

theorem heard_next {s : Session OutBuffer} :
    (c.read.next t a s).heard = t.heard ++ taken a := by
  cases a <;> first | rfl | exact (List.append_nil _).symm

/-- What a step leaves for the service to answer. -/
theorem aligned_served {s : Session OutBuffer} (h : v.Agrees c) (ht : Serves c v.talk)
    (ht' : Serves c (c.read.next v.talk a s)) (hallows : v.Allows a)
    (hpermits : c.read.Permits v.talk a) :
    v.talk.messages <+: (c.read.next v.talk a s).messages ∧
      ∃ todo : List (List UInt8), todo.length ≤ 1 ∧
        v.client.sent = (c.read.next v.talk a s).messages ++ todo ∧
        (c.read.next v.talk a s).unanswered ++ v.toServer.drop (taken a).length = todo.flatten := by
  obtain ⟨todo, hone, hsent, htodo⟩ := h.aligned
  have hheard := ht.answered.replies.heard
  have hheard' := ht'.answered.replies.heard
  by_cases hsend : ∃ call, a = .send call
  · obtain ⟨call, rfl⟩ := hsend
    obtain ⟨hc, hp, -⟩ := hpermits
    have hcalling : v.talk.session.control.Calling := by rw [hc]; trivial
    have hready : v.talk.point ≠ .answered := by
      rw [hp]
      exact fun heq ↦ nomatch heq
    obtain ⟨hunanswered, hne⟩ :=
      unanswered_ne_nil ht.placed ht.wired ht.receives hcalling hready
    have hnone := h.caught hcalling hready
    rw [hnone, List.append_nil, hunanswered] at htodo
    match todo, hone with
    | [], _ => exact absurd htodo hne
    | [message], _ =>
        rw [List.flatten_singleton] at htodo
        subst htodo
        refine ⟨List.prefix_append _ _, [], Nat.zero_le _, ?_, ?_⟩
        · rw [hsent, List.append_nil]
          rfl
        · rw [hnone]
          rfl
  · have hmessages : (c.read.next v.talk a s).messages = v.talk.messages := by
      cases a with
      | send call => exact absurd ⟨call, rfl⟩ hsend
      | _ => rfl
    refine ⟨hmessages ▸ List.prefix_rfl, todo, hone, hmessages ▸ hsent, ?_⟩
    rw [heard_next, hheard, hmessages, List.append_assoc] at hheard'
    rw [← List.append_cancel_left hheard', List.append_assoc, taken_append_drop hallows]
    exact htodo

/-- The service calls the session callback when it has read all that has arrived. -/
theorem caught_served {cfg : Config SendCall OutBuffer SendResult} {s : Session OutBuffer}
    (h : v.Agrees c) (hallows : v.Allows a) (hpermits : c.read.Permits v.talk a)
    (hs : Stepped cfg v.talk.session a s) (hc : s.control.Calling)
    (hp : (c.read.next v.talk a s).point ≠ .answered) :
    v.toServer.drop (taken a).length = [] := by
  have hsame := Session.sameReading_of_stepped hs
  cases hs with
  | read hread hnext =>
      rcases called_of_read hnext hc with rfl | ⟨bytes, rfl, hlt⟩
      · have hnone : v.toServer = [] := hallows
        rw [hnone]
        rfl
      · have hbytes : bytes = v.toServer.take _ := hallows
        refine List.drop_eq_nil_iff.mpr ?_
        show _ ≤ bytes.length
        rw [hbytes, List.length_take] at hlt ⊢
        omega
  | terminate value hsession =>
      obtain ⟨-, hcalled, -⟩ := hpermits
      exact h.caught (hsession ▸ trivial) fun hp ↦ nomatch hcalled.symm.trans hp
  | send call hcaller => exact absurd rfl hp
  | returns value hsession =>
      obtain ⟨-, rfl⟩ := hpermits
      exact hc.elim
  | setUp ok hsetup =>
      exfalso
      unfold Session.setUp at hc
      split_ifs at hc <;> exact hc.elim
  | _ => exact h.caught ((hsame id).calling hc) hp

/-- What has not been answered is not more than one message. -/
theorem Agrees.length_lt (h : v.Agrees c) :
    v.talk.unanswered.length + v.toServer.length < c.bufLen := by
  obtain ⟨todo, hone, hsent, htodo⟩ := h.aligned
  rw [← List.length_append, htodo]
  match todo, hone with
  | [], _ =>
      have hpos := c.sequence.range_pos
      rw [c.bufLen_eq]
      exact Nat.lt_of_lt_of_le hpos (Nat.le_add_left _ _)
  | [message], _ =>
      rw [List.flatten_singleton]
      exact (h.texts message (hsent ▸ List.mem_append_right _ List.mem_cons_self)).2

/-- As long as the client is there, `TCPRead()` and `TLSRead()` do not fail: no message of the
client is too large. -/
theorem returns_two {oldLen : ℕ} {r : ReadResult} {input : Input} {value : ℤ} (h : v.Agrees c)
    (ht : Serves c v.talk) (hmax : c.bufLen ≤ l.maxMessageLength) (hallows : v.Allows (.read r))
    (hgone : v.client.gone = false) (hread : v.talk.session.control = .read oldLen)
    (hnext : Session.readInput (l.via tls) v.talk.session.input r = some (.returns input value)) :
    value = 2 := by
  by_contra hvalue
  cases r with
  | count bytes =>
      obtain ⟨-, hholds, -, -⟩ := ht.receives.reading ht.wired hread
      have hfull := Session.readInput_full hholds hvalue hnext
      have hbytes : bytes.length ≤ v.toServer.length := by
        rw [show bytes = v.toServer.take _ from hallows, List.length_take]
        exact Nat.min_le_right _ _
      have hlt := h.length_lt
      rw [unanswered_of_ne_answered ht.placed (ht.placed.ne_answered hread)] at hlt
      have hmax' : c.bufLen ≤ (l.via tls).maxMessageLength := hmax
      omega
  | again =>
      unfold Session.readInput tlsRead tcpRead at hnext
      split_ifs at hnext
      all_goals
        cases hnext
        exact hvalue rfl
  | interrupted =>
      unfold Session.readInput tlsRead tcpRead at hnext
      split_ifs at hnext <;> cases hnext
  | endOfStream | hungUp | failed => exact Bool.false_ne_true (hgone.symm.trans hallows)

/-- So the service does not give up on the session. -/
theorem ending_served {s : Session OutBuffer} (h : v.Agrees c) (ht : Serves c v.talk)
    (hmax : c.bufLen ≤ l.maxMessageLength) (hallows : v.Allows a)
    (hs : Stepped (l.via tls) v.talk.session a s) (hgone : v.client.gone = false) :
    s.ending = none := by
  have hending := h.ending hgone
  have hsame := Session.sameInput_of_stepped hs
  cases hs with
  | setUp ok hsetup =>
      unfold Session.setUp
      split_ifs <;> exact hending
  | read hread hnext =>
      rename_i oldLen r next
      cases next with
      | goesOn input => exact hending
      | ends => exact hending
      | returns input value =>
          obtain rfl := returns_two h ht hmax hallows hgone hread hnext
          rw [Session.readStep, if_neg (not_not_intro rfl)]
          dsimp only
          split_ifs <;> exact hending
  | terminate value hsession => exact hending
  | returns value hsession =>
      cases value with
      | close =>
          unfold Session.sessionReturned
          dsimp only
          split_ifs <;> exact hending
      | _ => exact hending
  | _ => exact (hsame id).ending.trans hending

/-- **The service keeps the agreement.** -/
theorem Agrees.serve {s : Session OutBuffer} (h : v.Agrees c) (ht : Serves c v.talk)
    (ht' : Serves c (c.read.next v.talk a s)) (hmax : c.bufLen ≤ l.maxMessageLength)
    (hallows : v.Allows a) (hpermits : c.read.Permits v.talk a)
    (hs : Stepped (l.via tls) v.talk.session a s) :
    (v.served a (c.read.next v.talk a s)).Agrees c := by
  obtain ⟨hmore, haligned⟩ := aligned_served h ht ht' hallows hpermits
  have haccepted : v.talk.session.accepted ++ s.accepted.drop v.talk.session.accepted.length =
      s.accepted := List.prefix_iff_eq_append.mp (accepted_of_stepped hs)
  have hsession : (c.read.next v.talk a s).session = s := Talk.next_session v.talk a s
  refine ⟨h.texts, haligned, fun hc hp ↦ ?_, fun hgone ↦ ?_, ?_⟩
  · refine caught_served h hallows hpermits hs ?_ hp
    rwa [← hsession]
  · show (c.read.next v.talk a s).session.ending = none
    rw [hsession]
    exact ending_served h ht hmax hallows hs hgone
  · unfold Staged served
    dsimp only
    rw [hsession]
    cases hstage : v.client.stage with
    | sending rest =>
        obtain ⟨hrest, hlen, hmessages, hresponses, haccepted'⟩ := h.sending hstage
        refine ⟨hrest, hlen, ?_, hresponses, ?_⟩
        · obtain ⟨todo, -, hsent, -⟩ := haligned
          have hle : (c.read.next v.talk a s).messages.length ≤ v.talk.messages.length := by
            rw [hmessages, hsent, List.length_append]
            exact Nat.le_add_right _ _
          exact (hmore.eq_of_length_le hle).symm.trans hmessages
        · rw [← List.append_assoc, haccepted', haccepted]
    | receiving got =>
        obtain ⟨before, message, hsent, hresponses, hbuf, hlt, haccepted'⟩ := h.receiving hstage
        refine ⟨before, message, hsent, hresponses, hbuf, hlt, ?_⟩
        rw [← List.append_assoc got, ← List.append_assoc, haccepted', haccepted]
    | finished => exact h.finished hstage
    | wrong => exact h.not_wrong hstage
    | failed => exact h.responses

/-! ## Steps of the client -/

theorem length_string (c : Common) (text : List UInt8) :
    8 ≤ (c.sequence.string text).length ∧ (c.sequence.string text).length < c.bufLen := by
  obtain ⟨hmin, hmax, -⟩ := c.sequence.string_spec text
  have hge := c.sequence.min_ge
  have heq := c.bufLen_eq
  omega

/-- The loop goes on to the next message, or ends. -/
theorem loop_cases (c : Common) (x : Client) :
    x.n = 0 ∧ Client.loop c x = { x with stage := .finished } ∨
      x.n ≠ 0 ∧ Client.loop c x =
        { x with
          buf := c.sequence.string x.buf
          stage := .sending (c.sequence.string x.buf) } := by
  unfold Client.loop
  by_cases hn : x.n = 0
  · exact .inl ⟨hn, if_pos hn⟩
  · refine .inr ⟨hn, ?_⟩
    dsimp only
    rw [if_neg hn, if_pos (length_string c x.buf).2]

/-- When the client has got its response, the service has nothing left to answer. -/
theorem Agrees.nothing_left (h : v.Agrees c) (ht : Serves c v.talk) {got : List UInt8}
    (hstage : v.client.stage = .receiving got)
    (hall : v.client.buf.length ≤ (got ++ v.toClient).length) :
    v.talk.messages = v.client.sent := by
  have hanswers := h.map_messages ht
  obtain ⟨before, message, hsent, hresponses, -, hlt, haccepted⟩ := h.receiving hstage
  obtain ⟨todo, hone, hmessages, -⟩ := h.aligned
  match todo, hone with
  | [], _ => rw [hmessages, List.append_nil]
  | [last], _ =>
      exfalso
      obtain ⟨hbefore, -⟩ := List.append_inj' (hsent.symm.trans hmessages) rfl
      have hle := ht.answered.accepted.length_le
      rw [← hanswers, ← hbefore, ← hresponses, ← haccepted, List.length_append] at hle
      omega

/-- A message has arrived as a whole. -/
theorem Agrees.arrived {x : Client} (h : v.Agrees c) (ht : Serves c v.talk)
    (hstage : v.client.stage = .sending v.client.buf)
    (hbuf : x.buf = c.sequence.string v.client.buf)
    (hstage' : x.stage = .receiving []) (hsent' : x.sent = v.client.sent ++ [v.client.buf])
    (hresponses' : x.responses = v.client.responses) :
    { v with client := x, toServer := v.toServer ++ v.client.buf }.Agrees c := by
  obtain ⟨-, hlen, hmessages, hresponses, haccepted⟩ := h.sending hstage
  obtain ⟨todo, -, hsent, htodo⟩ := h.aligned
  obtain rfl : todo = [] := List.append_right_eq_self.mp (hsent.symm.trans hmessages.symm)
  obtain ⟨hunanswered, hnone⟩ := List.append_eq_nil_iff.mp htodo
  refine ⟨fun m hm ↦ ?_, ⟨[v.client.buf], Nat.le_refl 1, ?_, ?_⟩, fun hc hp ↦ ?_,
    fun _ ↦ h.ending (by rw [Client.gone, hstage]),
    staged_receiving hstage' hsent' (hresponses'.trans hresponses) hbuf ?_ ?_⟩
  · rw [hsent'] at hm
    rcases List.mem_append.mp hm with hm | hm
    · exact h.texts m hm
    · rw [List.mem_singleton.mp hm]
      exact hlen
  · rw [hsent', hmessages]
  · show v.talk.unanswered ++ (v.toServer ++ v.client.buf) = _
    rw [hunanswered, hnone, List.nil_append, List.nil_append, List.flatten_singleton]
  · obtain ⟨heq, hne⟩ := unanswered_ne_nil ht.placed ht.wired ht.receives hc hp
    exact absurd (heq.symm.trans hunanswered) hne
  · have hmin := (length_string c v.client.buf).1
    rw [← hbuf] at hmin
    exact Nat.lt_of_lt_of_le (by decide) hmin
  · rw [hresponses']
    exact haccepted

/-- **A message that arrives in one piece keeps the agreement.** -/
theorem Agrees.write {count : ℕ} {x : Client} {bytes : List UInt8} (h : v.Agrees c)
    (ht : Serves c v.talk) (hwhole : Whole tls v (.write count))
    (hx : v.client.write c count = some (x, bytes)) :
    { v with client := x, toServer := v.toServer ++ bytes }.Agrees c := by
  cases hstage : v.client.stage with
  | sending rest =>
      obtain ⟨rfl, hlen, -⟩ := h.sending hstage
      obtain rfl : count = v.client.buf.length := hwhole hstage
      rw [Client.write, hstage] at hx
      dsimp only at hx
      rw [if_pos ⟨Nat.lt_of_lt_of_le (by decide) hlen.1, Nat.le_refl _⟩, if_pos rfl,
        List.take_length] at hx
      cases hx
      exact h.arrived ht hstage rfl rfl rfl rfl
  | _ => simp [Client.write, hstage] at hx

/-- **What the client reads keeps the agreement.** -/
theorem Agrees.read {count : ℕ} {x : Client} (h : v.Agrees c) (ht : Serves c v.talk)
    (hx : v.client.read c (v.toClient.take count) = some x) :
    { v with client := x, toClient := v.toClient.drop count }.Agrees c := by
  cases hstage : v.client.stage with
  | receiving got =>
      have hexpected := h.expected ht hstage
      have hleft := h.nothing_left ht hstage
      obtain ⟨before, message, hsent, hresponses, hbuf, -, haccepted⟩ := h.receiving hstage
      have hsplit : got ++ v.toClient = got ++ v.toClient.take count ++ v.toClient.drop count := by
        rw [List.append_assoc, List.take_append_drop]
      rw [hsplit] at hexpected hleft haccepted
      have hending := h.ending (by rw [Client.gone, hstage])
      rw [Client.read, hstage] at hx
      dsimp only at hx
      generalize v.toClient.take count = bytes at hx hexpected hleft haccepted
      generalize v.toClient.drop count = more at hexpected hleft haccepted ⊢
      obtain ⟨⟨-, hle⟩, hx⟩ := Option.ite_none_right_eq_some.mp hx
      cases hx
      split_ifs with hshort heq
      · exact ⟨h.texts, h.aligned, h.caught, fun _ ↦ hending, before, message, hsent, hresponses,
          hbuf, hshort, haccepted⟩
      · -- the response is complete
        have hgot : got ++ bytes = v.client.buf := by
          refine ((List.prefix_append _ more).trans hexpected).eq_of_length_le ?_
          exact Nat.le_of_not_lt hshort
        have hmessages := hleft (by
          rw [List.length_append]
          exact Nat.le_add_right_of_le (Nat.le_of_not_lt hshort))
        have hall : v.client.responses ++ [got ++ bytes] =
            v.client.sent.map c.sequence.string := by
          rw [hgot, hbuf, hresponses, hsent, List.map_append]
          rfl
        rcases loop_cases c ⟨v.client.n - 1, v.client.buf, .receiving got, v.client.sent,
          v.client.responses ++ [got ++ bytes]⟩ with ⟨-, hloop⟩ | ⟨-, hloop⟩
        · rw [hloop]
          exact ⟨h.texts, h.aligned, h.caught, fun hgone ↦ (nomatch hgone), hall⟩
        · rw [hloop]
          refine ⟨h.texts, h.aligned, h.caught, fun _ ↦ hending, rfl, length_string c _, hmessages,
            hall, ?_⟩
          show (v.client.responses ++ [got ++ bytes]).flatten ++ more = _
          rw [← haccepted, List.flatten_append, List.flatten_singleton, List.append_assoc,
            List.append_assoc]
      · exfalso
        refine heq (congrArg _ ?_)
        refine (((List.prefix_append _ more).trans hexpected).eq_of_length_le ?_).symm
        exact Nat.le_of_not_lt hshort
  | _ => simp [Client.read, hstage] at hx

/-- A failure keeps the agreement. -/
theorem Agrees.fail (h : v.Agrees c) :
    { v with client := { v.client with stage := .failed } }.Agrees c :=
  ⟨h.texts, h.aligned, h.caught, fun hgone ↦ (nomatch hgone), h.responses⟩

/-! ## Runs -/

/-- The rounds that are done and those that are left. -/
structure Counts (n : ℕ) (x : Client) : Prop where
  total : x.n + x.responses.length = n
  left : x.gone = false → x.n ≠ 0
  none : x.stage = .finished → x.n = 0

theorem counts_loop {x : Client} (h : x.n + x.responses.length = n) :
    Counts n (Client.loop c x) := by
  rcases loop_cases c x with ⟨hn, hloop⟩ | ⟨hn, hloop⟩
  · rw [hloop]
    exact ⟨h, fun hgone ↦ (nomatch hgone), fun _ ↦ hn⟩
  · rw [hloop]
    exact ⟨h, fun _ ↦ hn, fun hstage ↦ nomatch hstage⟩

theorem Counts.write {count : ℕ} {x y : Client} {bytes : List UInt8} (h : Counts n x)
    (hy : x.write c count = some (y, bytes)) : Counts n y := by
  unfold Client.write at hy
  cases hstage : x.stage with
  | sending rest =>
      have hleft := h.left (by rw [Client.gone, hstage])
      rw [hstage] at hy
      obtain ⟨-, hy⟩ := Option.ite_none_right_eq_some.mp hy
      cases hy
      split_ifs
      · exact ⟨h.total, fun _ ↦ hleft, fun hfinished ↦ nomatch hfinished⟩
      · exact ⟨h.total, fun _ ↦ hleft, fun hfinished ↦ nomatch hfinished⟩
  | _ => simp [hstage] at hy

theorem Counts.read {x y : Client} {bytes : List UInt8} (h : Counts n x)
    (hy : x.read c bytes = some y) : Counts n y := by
  unfold Client.read at hy
  cases hstage : x.stage with
  | receiving got =>
      have hleft := h.left (by rw [Client.gone, hstage])
      have htotal := h.total
      rw [hstage] at hy
      obtain ⟨-, hy⟩ := Option.ite_none_right_eq_some.mp hy
      cases hy
      split_ifs
      · exact ⟨htotal, fun _ ↦ hleft, fun hfinished ↦ nomatch hfinished⟩
      · refine counts_loop ?_
        rw [List.length_append, List.length_singleton]
        show x.n - 1 + _ = n
        omega
      · exact ⟨htotal, fun hgone ↦ (nomatch hgone), fun hfinished ↦ nomatch hfinished⟩
  | _ => simp [hstage] at hy

/-- What a conversation comes to. -/
structure Converses (c : Common) (n : ℕ) (v : Conversation) : Prop where
  right : v.client.stage ≠ .wrong
  responses : v.client.responses <+: v.client.sent.map c.sequence.string
  finished : v.client.stage = .finished →
    v.client.responses = v.client.sent.map c.sequence.string ∧ v.client.responses.length = n
  messages : v.talk.messages <+: v.client.sent
  answers : v.talk.answers = v.talk.messages.map c.sequence.string
  ending : v.client.gone = false → v.talk.session.ending = none
  underWay : ∀ got, v.client.stage = .receiving got →
    (v.talk.session.conn.callback .read).isSome = true → v.talk.session.control ≠ .exited →
      v.talk.session.control ≠ .removed → v.toServer ≠ [] ∨ v.talk.session.control.Reading ∨
        v.talk.session.queue ≠ [] ∨ v.toClient ≠ []

section

variable {ok : Conversation → Move → Prop}

/-- What a step of a conversation does. -/
theorem step_cases {m : Move} (hs : step c l tls v m = some v') :
    (∃ count x bytes, m = .write count ∧ v.client.write c count = some (x, bytes) ∧
      v' = { v with client := x, toServer := v.toServer ++ bytes }) ∨
    (∃ count x, m = .read count ∧ v.client.read c (v.toClient.take count) = some x ∧
      v' = { v with client := x, toClient := v.toClient.drop count }) ∨
    (m = .fail ∧ v' = { v with client := { v.client with stage := .failed } }) ∨
    ∃ a t, m = .serve a ∧ v.Allows a ∧ c.read.step (l.via tls) v.talk a = some t ∧
      v' = v.served a t := by
  cases m with
  | write count =>
      obtain ⟨⟨x, bytes⟩, hx, rfl⟩ := Option.map_eq_some_iff.mp hs
      exact .inl ⟨count, x, bytes, rfl, hx, rfl⟩
  | read count =>
      obtain ⟨x, hx, rfl⟩ := Option.map_eq_some_iff.mp hs
      exact .inr (.inl ⟨count, x, rfl, hx, rfl⟩)
  | fail =>
      obtain ⟨-, heq⟩ := Option.ite_none_left_eq_some.mp hs
      exact .inr (.inr (.inl ⟨rfl, (Option.some.inj heq).symm⟩))
  | serve a =>
      obtain ⟨hallows, heq⟩ := Option.ite_none_right_eq_some.mp hs
      obtain ⟨t, ht, rfl⟩ := Option.map_eq_some_iff.mp heq
      exact .inr (.inr (.inr ⟨a, t, rfl, hallows, ht, rfl⟩))

/-- The session of a conversation runs. -/
theorem reach_talk (h : Reach (step c l tls) (Whole tls) (start c n buf fd acceptTime acceptNo) v) :
    Reach (c.read.step (l.via tls)) (Talk.Sends tls) (.start fd acceptTime acceptNo) v.talk := by
  induction h with
  | refl => exact .refl
  | tail _ hok hs ih =>
      rcases step_cases hs with ⟨_, _, _, rfl, -, rfl⟩ | ⟨_, _, rfl, -, rfl⟩ | ⟨rfl, rfl⟩ |
        ⟨a, t, rfl, -, ht, rfl⟩
      · exact ih
      · exact ih
      · exact ih
      · exact ih.tail hok ht

theorem serves_of_reach
    (h : Reach (c.read.step (l.via tls)) (Talk.Sends tls) (.start fd acceptTime acceptNo) t) :
    Serves c t :=
  have hkept := Talk.kept_of_reach h
  ⟨hkept.1, hkept.2.1, Talk.placed_of_reach h, Talk.answered_of_reach h⟩

theorem counts_of_reach (h : Reach (step c l tls) ok (start c n buf fd acceptTime acceptNo) v) :
    Counts n v.client := by
  have hstart : Counts n (Client.start c n buf) := counts_loop rfl
  refine h.invariant (I := fun v ↦ Counts n v.client) hstart fun hcounts _ hs ↦ ?_
  rcases step_cases hs with ⟨_, _, _, -, hwrite, rfl⟩ | ⟨_, _, -, hread, rfl⟩ | ⟨-, rfl⟩ |
    ⟨_, _, -, -, -, rfl⟩
  · exact hcounts.write hwrite
  · exact hcounts.read hread
  · exact ⟨hcounts.total, fun hgone ↦ (nomatch hgone), fun hfinished ↦ nomatch hfinished⟩
  · exact hcounts

/-- Before the first message. -/
theorem agrees_start : (start c n buf fd acceptTime acceptNo).Agrees c := by
  have hagrees : ∀ x : Client, x.sent = [] → x.responses = [] →
      (x.stage = .finished ∨ x.stage = .sending x.buf ∧
        8 ≤ x.buf.length ∧ x.buf.length < c.bufLen) →
      (⟨x, .start fd acceptTime acceptNo, [], []⟩ : Conversation).Agrees c := by
    intro x hsent hresponses hstage
    refine ⟨?_, ⟨[], Nat.zero_le _, hsent, rfl⟩, fun hc ↦ hc.elim, fun _ ↦ rfl, ?_⟩
    · rw [hsent]
      exact fun _ hm ↦ absurd hm List.not_mem_nil
    · unfold Staged
      rcases hstage with hstage | ⟨hstage, hlen⟩
      · rw [hstage, hresponses, hsent]
        rfl
      · rw [hstage, hresponses, hsent]
        exact ⟨rfl, hlen, rfl, rfl, rfl⟩
  unfold start Client.start
  rcases loop_cases c ⟨n, buf, .finished, [], []⟩ with ⟨-, hloop⟩ | ⟨-, hloop⟩
  · exact hagrees _ (by rw [hloop]) (by rw [hloop]) (.inl (by rw [hloop]))
  · refine hagrees _ (by rw [hloop]) (by rw [hloop]) (.inr ?_)
    rw [hloop]
    exact ⟨rfl, length_string c buf⟩

theorem agrees_of_reach (hmax : c.bufLen ≤ l.maxMessageLength)
    (h : Reach (step c l tls) (Whole tls) (start c n buf fd acceptTime acceptNo) v) :
    v.Agrees c := by
  induction h with
  | refl => exact agrees_start
  | tail hr hok hs ih =>
      have hr' := reach_talk (hr.tail hok hs)
      have ht := serves_of_reach (reach_talk hr)
      rcases step_cases hs with ⟨_, _, _, rfl, hwrite, rfl⟩ | ⟨_, _, rfl, hread, rfl⟩ |
        ⟨rfl, rfl⟩ | ⟨a, t, rfl, hallows, htalk, rfl⟩
      · exact ih.write ht hok hwrite
      · exact ih.read ht hread
      · exact ih.fail
      · obtain ⟨hpermits, s, hsession, rfl⟩ := Talk.step_eq_some.mp htalk
        exact ih.serve ht (serves_of_reach hr') hmax hallows hpermits (stepped_of_step hsession)

/-- As long as the client waits, its message or the response is on the way. -/
theorem Agrees.underWay (h : v.Agrees c) (ht : Serves c v.talk) {got : List UInt8}
    (hstage : v.client.stage = .receiving got)
    (hread : (v.talk.session.conn.callback .read).isSome = true)
    (hexited : v.talk.session.control ≠ .exited) (hremoved : v.talk.session.control ≠ .removed) :
    v.toServer ≠ [] ∨ v.talk.session.control.Reading ∨ v.talk.session.queue ≠ [] ∨
      v.toClient ≠ [] := by
  by_contra hnone
  simp only [not_or, not_not] at hnone
  obtain ⟨hserver, hreading, hqueue, hclient⟩ := hnone
  have hunanswered : v.talk.unanswered = [] := by
    obtain ⟨callback, hcallback⟩ := Option.isSome_iff_exists.mp hread
    rcases ht.wired.values callback hcallback with rfl | rfl
    · have hreceived := (ht.receives.fresh hcallback).1
      unfold Talk.unanswered
      rw [hreceived]
      cases v.talk.point <;> rfl
    · exact ht.answered.settled hcallback hreading hexited
  -- so the message was answered, and the answer was sent
  have hanswers := h.map_messages ht
  have hall := ht.answered.conserved hremoved
  obtain ⟨todo, -, hsent, htodo⟩ := h.aligned
  obtain ⟨before, message, hsent', hresponses, hbuf, hlt, haccepted⟩ := h.receiving hstage
  have hdone : todo = [] := by
    rw [hunanswered, hserver] at htodo
    refine List.eq_nil_iff_forall_not_mem.mpr fun m hm ↦ ?_
    have hlong := (h.texts m (hsent ▸ List.mem_append_right _ hm)).1
    have hempty : m = [] := List.flatten_eq_nil_iff.mp htodo.symm m hm
    rw [hempty] at hlong
    exact absurd hlong (by decide)
  rw [hdone, List.append_nil] at hsent
  rw [← hanswers, ← hsent, hsent', List.map_append, List.flatten_append, ← hresponses, hqueue,
    ← haccepted, hclient, List.flatMap_nil, List.append_nil, List.append_nil] at hall
  have hgot : got = c.sequence.string message := by
    simpa using List.append_cancel_left hall
  rw [hgot, hbuf] at hlt
  exact absurd hlt (Nat.lt_irrefl _)

/-- **The client never sees a wrong response.** -/
theorem converses_of_reach (hmax : c.bufLen ≤ l.maxMessageLength)
    (h : Reach (step c l tls) (Whole tls) (start c n buf fd acceptTime acceptNo) v) :
    v.Converses c n := by
  have hagrees := agrees_of_reach hmax h
  have hcounts := counts_of_reach h
  have ht := serves_of_reach (reach_talk h)
  refine ⟨hagrees.not_wrong, hagrees.responses, fun hstage ↦ ⟨hagrees.finished hstage, ?_⟩, ?_,
    (hagrees.map_messages ht).symm, hagrees.ending, fun got ↦ hagrees.underWay ht⟩
  · have htotal := hcounts.total
    rwa [hcounts.none hstage, Nat.zero_add] at htotal
  · obtain ⟨todo, -, hsent, -⟩ := hagrees.aligned
    rw [hsent]
    exact List.prefix_append _ _

end

/-- Strings of eight digits. -/
abbrev eightDigits : Common := ⟨⟨8, 1, Nat.lt_succ_self 7, by decide⟩, 9, by decide⟩

/-- Room for a message, and for the chunk that it fills. -/
abbrev ten : Limits := ⟨4, 10, true, by decide, by decide⟩

/-- One round, in which the service reads the message in two pieces and the client the response. -/
theorem converses_of_round :
    ∃ v, Reach (step eightDigits ten false) (Whole false)
        (start eightDigits 1 [1, 2, 3, 4, 5, 6, 7, 8] 5 0 0) v ∧
      (v.client.stage = .finished ∧ v.client.sent = [[50, 50, 53, 49, 50, 57, 65, 57]]) ∧
      v.Converses eightDigits 1 := by
  obtain ⟨v, hreach, hv⟩ :
      ∃ v, Reach (step eightDigits ten false) (Whole false)
        (start eightDigits 1 [1, 2, 3, 4, 5, 6, 7, 8] 5 0 0) v ∧
        (v.client.stage = .finished ∧ v.client.sent = [[50, 50, 53, 49, 50, 57, 65, 57]]) :=
    exists_reach_of_exec_decide
      [.serve (.event .read), .serve (.event .write), .serve .service, .serve .go,
        .serve (.setUp true), .write 8, .serve (.read (.count [50, 50, 53, 49])),
        .serve (.read (.count [50, 57, 65, 57])), .serve (.read .again), .serve (.terminate 0),
        .serve (.send (.sendF [52, 57, 51, 69, 66, 48, 49, 53])), .serve (.write (.count 8)),
        .read 3, .serve (.returns .continue), .read 5]
      (by decide +kernel)
  exact ⟨v, hreach, hv, converses_of_reach (by decide) hreach⟩

end Conversation

end Tidbits.Service
