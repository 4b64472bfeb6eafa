import Tidbits.Service.Reception

/-!
# What waits when `Read()` returns

The server clears `readReady` when `Read()` returns `0` and is still installed,
and an edge-triggered `epoll_wait()` tells it again only of bytes that arrive later.
`Incoming` is a session with the bytes that have reached its connection: in the
kernel, and over TLS in records of the TLS layer.

`Read()` takes a call that returns less than what it asked for as the end of what is
there.  That is right for `read()`.  `gnutls_record_recv()` returns bytes of one record
at a time, so that it is wrong if more was pending than the bytes of the last call
(`nothing_waits_iff`).
-/

namespace Tidbits.Service

open Server Transition

/-- A session with what has reached its connection. -/
structure Incoming (Out : Type) where
  session : Session Out
  /-- What was there, by records, when `read()` or `gnutls_record_recv()` was called last. -/
  pending : List (List UInt8)
  /-- How many bytes that call asked for. -/
  asked : ℕ
  /-- What it came to. -/
  last : ReadResult
  /-- What has arrived since then. -/
  arrived : List (List UInt8)

/-- A record arrives, or the session goes on. -/
inductive IncomingAction (Call Result : Type)
  | arrive (record : List UInt8)
  | session (a : Action Call Result)
deriving DecidableEq, Repr

/-- The records without their first `n` bytes. -/
def unread : ℕ → List (List UInt8) → List (List UInt8)
  | _, [] => []
  | n, record :: records =>
      if n < record.length then record.drop n :: records else unread (n - record.length) records

/-- What a call for `asked` bytes can come to.  `read()` returns as many bytes as there are, and
`gnutls_record_recv()` bytes of the first record. -/
def Gives (tls : Bool) (asked : ℕ) (waiting : List (List UInt8)) : ReadResult → Prop
  | .count bytes =>
      if tls then bytes.length ≤ asked ∧ bytes <+: waiting.headD []
      else bytes = waiting.flatten.take asked
  | .endOfStream | .again => waiting.flatten = []
  | .interrupted | .hungUp | .failed => True

instance (tls : Bool) (asked : ℕ) (waiting : List (List UInt8)) (r : ReadResult) :
    Decidable (Gives tls asked waiting r) := by
  unfold Gives
  split <;> infer_instance

namespace Incoming

variable {Call Out Result : Type}

/-- What the last call has left. -/
def left (w : Incoming Out) : List (List UInt8) := unread w.last.received.length w.pending

/-- What has not been read. -/
def waiting (w : Incoming Out) : List (List UInt8) := w.left ++ w.arrived

/-- A session with nothing to read. -/
def start (Out : Type) (fd : ℤ) (acceptTime : Time) (acceptNo : ℕ) : Incoming Out :=
  ⟨Service.start Out fd acceptTime acceptNo, [], 0, .again, []⟩

/-- The transitions of a session with what reaches its connection. -/
def step (cfg : Config Call Out Result) (w : Incoming Out) :
    IncomingAction Call Result → Option (Incoming Out)
  | .arrive record => some { w with arrived := w.arrived ++ [record] }
  | .session (.read r) =>
      let asked := w.session.input.inSize - w.session.input.inLen
      if Gives cfg.tls asked w.waiting r then
        (Service.step cfg w.session (.read r)).map fun session ↦
          ⟨session, w.waiting, asked, r, []⟩
      else none
  | .session a => (Service.step cfg w.session a).map fun session ↦ { w with session := session }

/-- The action makes `Read()` return, and it is still installed. -/
def Keeps (w : Incoming Out) : IncomingAction Call Result → Prop
  | .session (.read _) | .session (.returns _) =>
      (∃ phase, w.session.control = .service phase) ∧
        w.session.conn.callback .read = some readCallback
  | _ => False

end Incoming

/-! ## What a call leaves -/

/-- What is left when so many bytes were taken from the front. -/
theorem flatten_unread (n : ℕ) (records : List (List UInt8)) :
    (unread n records).flatten = records.flatten.drop n := by
  induction records generalizing n with
  | nil => exact List.drop_nil.symm
  | cons record records ih =>
      rw [unread, List.flatten_cons, List.drop_append]
      split_ifs with hlt
      · rw [Nat.sub_eq_zero_of_le (Nat.le_of_lt hlt), List.drop_zero, List.flatten_cons]
      · rw [ih, List.drop_eq_nil_of_le (Nat.le_of_not_lt hlt), List.nil_append]

/-- No more comes than was there. -/
theorem Gives.length_le {tls : Bool} {asked : ℕ} {waiting : List (List UInt8)} {r : ReadResult}
    (h : Gives tls asked waiting r) : r.received.length ≤ waiting.flatten.length := by
  cases r with
  | count bytes =>
      show bytes.length ≤ _
      unfold Gives at h
      split_ifs at h
      · refine Nat.le_trans h.2.length_le ?_
        cases waiting with
        | nil => exact Nat.le_refl 0
        | cons record records =>
            rw [List.flatten_cons, List.length_append]
            exact Nat.le_add_right _ _
      · rw [h, List.length_take]
        exact Nat.min_le_right _ _
  | _ => exact Nat.zero_le _

/-- A call of `read()` that returns less than what it asked for has taken everything. -/
theorem Gives.length_eq {asked : ℕ} {waiting : List (List UInt8)} {r : ReadResult}
    (h : Gives false asked waiting r) (hr : r = .again ∨ ∃ bytes, r = .count bytes)
    (hlt : r.received.length < asked) : waiting.flatten.length = r.received.length := by
  rcases hr with rfl | ⟨bytes, rfl⟩
  · have hnone : waiting.flatten = [] := h
    rw [hnone]
    rfl
  · have hbytes : bytes = waiting.flatten.take asked := h
    have hlength : bytes.length = min asked waiting.flatten.length := by
      rw [hbytes, List.length_take]
    have hlt' : bytes.length < asked := hlt
    show _ = bytes.length
    omega

/-- `TCPRead()` and `TLSRead()` go on until a call returns less than what it asked for. -/
theorem short_of_readInput {Call Out Result : Type} {cfg : Config Call Out Result} {i i' : Input}
    {r : ReadResult} (hroom : i.inLen < i.inSize)
    (h : Session.readInput cfg i r = some (.returns i' 2)) :
    (r = .again ∨ ∃ bytes, r = .count bytes) ∧ r.received.length < i.inSize - i.inLen := by
  cases r with
  | count bytes =>
      refine ⟨.inr ⟨bytes, rfl⟩, ?_⟩
      rw [Session.readInput_count] at h
      split_ifs at h with hnew hshort hgrow
      · exact Nat.lt_sub_iff_add_lt'.mpr hshort
      · cases h
      · cases h
  | again => exact ⟨.inl rfl, Nat.sub_pos_of_lt hroom⟩
  | _ =>
      unfold Session.readInput tlsRead tcpRead readLoop at h
      split_ifs at h <;> cases h

namespace Incoming

variable {Call Out Result : Type} {cfg : Config Call Out Result} {w w' : Incoming Out}
  {a : IncomingAction Call Result} {fd : ℤ} {acceptTime : Time} {acceptNo : ℕ}
  {ok : Incoming Out → IncomingAction Call Result → Prop}

/-- The transitions, by what moves. -/
inductive Stepped (cfg : Config Call Out Result) (w : Incoming Out) :
    IncomingAction Call Result → Incoming Out → Prop
  /-- A record arrives. -/
  | arrive (record : List UInt8) :
      Stepped cfg w (.arrive record) { w with arrived := w.arrived ++ [record] }
  /-- `read()` or `gnutls_record_recv()` returns. -/
  | read {r : ReadResult} {session : Session Out} :
      Gives cfg.tls (w.session.input.inSize - w.session.input.inLen) w.waiting r →
        Service.Stepped cfg w.session (.read r) session →
        Stepped cfg w (.session (.read r))
          ⟨session, w.waiting, w.session.input.inSize - w.session.input.inLen, r, []⟩
  /-- The session does something else. -/
  | other {a : Action Call Result} {session : Session Out} :
      (∀ r, a ≠ .read r) → Service.Stepped cfg w.session a session →
        Stepped cfg w (.session a) { w with session := session }

theorem stepped_of_step (hs : step cfg w a = some w') : Stepped cfg w a w' := by
  cases a with
  | arrive record =>
      cases hs
      exact .arrive record
  | session a =>
      cases a with
      | read r =>
          obtain ⟨hgives, hs⟩ := Option.ite_none_right_eq_some.mp hs
          obtain ⟨session, hsession, rfl⟩ := Option.map_eq_some_iff.mp hs
          exact .read hgives (Service.stepped_of_step hsession)
      | _ =>
          obtain ⟨session, hsession, rfl⟩ := Option.map_eq_some_iff.mp hs
          exact .other (fun r heq ↦ nomatch heq) (Service.stepped_of_step hsession)

/-- The session of a run is the session of a run. -/
theorem reach_session (h : Reach (step cfg) ok w w') :
    Reach (Service.step cfg) Any w.session w'.session := by
  induction h with
  | refl => exact .refl
  | tail hr hok hs ih =>
      rename_i t u a
      cases a with
      | arrive record =>
          cases hs
          exact ih
      | session a =>
          refine ih.tail (a := a) trivial ?_
          cases a with
          | read r =>
              obtain ⟨-, hs⟩ := Option.ite_none_right_eq_some.mp hs
              obtain ⟨session, hsession, rfl⟩ := Option.map_eq_some_iff.mp hs
              exact hsession
          | _ =>
              obtain ⟨session, hsession, rfl⟩ := Option.map_eq_some_iff.mp hs
              exact hsession

/-- The last call has returned less than what it asked for; over TCP it has left nothing. -/
structure Ended (cfg : Config Call Out Result) (w : Incoming Out) : Prop where
  short : w.last.received.length < w.asked
  tcp : cfg.tls = false → w.pending.flatten.length = w.last.received.length

/-- When `Read()` has not gone round, the last call has returned less than what it asked for. -/
theorem ended_of_read {session : Session Out} {r : ReadResult} (hwired : w.session.Wired)
    (hreceives : w.session.Receives)
    (hgives : Gives cfg.tls (w.session.input.inSize - w.session.input.inLen) w.waiting r)
    (hs : Service.Stepped cfg w.session (.read r) session)
    (hcontrol : session.control.Calling ∨
      (∃ phase, session.control = .service phase) ∧
        session.conn.callback .read = some readCallback) :
    Ended cfg
      ⟨session, w.waiting, w.session.input.inSize - w.session.input.inLen, r, []⟩ := by
  cases hs with
  | read hc hnext =>
      rename_i oldLen next
      obtain ⟨-, hholds, hroom, -⟩ := hreceives.reading hwired hc
      have hkept := Session.readInput_holds hholds hroom hnext
      cases next with
      | goesOn input =>
          rcases hcontrol with hcalling | ⟨⟨phase, hphase⟩, -⟩
          · exact hcalling.elim
          · cases hphase
      | returns input value =>
          rcases hkept.2 with rfl | ⟨rfl, -⟩
          · rcases hcontrol with hcalling | ⟨-, hinstalled⟩
            · exact hcalling.elim
            · cases hinstalled
          · obtain ⟨hr, hlt⟩ := short_of_readInput hroom hnext
            refine ⟨hlt, fun htls ↦ ?_⟩
            rw [htls] at hgives
            exact hgives.length_eq hr hlt
      | ends =>
          rcases hcontrol with hcalling | ⟨⟨phase, hphase⟩, -⟩
          · exact hcalling.elim
          · cases hphase

/-- The session callback is called by `Read()` only. -/
theorem calling_of_stepped {a : Action Call Result} {s s' : Session Out}
    (hs : Service.Stepped cfg s a s') (hother : ∀ r, a ≠ .read r)
    (hcalling : s'.control.Calling) : s.control.Calling := by
  have hothers : ¬ Session.ChangesInput a → s.control.Calling := fun ha ↦
    (Session.sameReading_of_stepped hs ha).calling hcalling
  cases hs with
  | setUp ok hc =>
      unfold Session.setUp at hcalling
      split_ifs at hcalling <;> exact hcalling.elim
  | read hc hnext => exact absurd rfl (hother _)
  | terminate value hc => exact hc ▸ trivial
  | returns value hc => exact hc ▸ trivial
  | _ => exact hothers id

/-- In the session callback the last call has ended the reading. -/
theorem ended_of_reach (h : Reach (step cfg) ok (start Out fd acceptTime acceptNo) w)
    (hcalling : w.session.control.Calling) : w.Ended cfg := by
  refine Reach.invariant_of (I := fun w ↦ w.session.control.Calling → w.Ended cfg) h
    (J := fun w ↦ w.session.Wired ∧ w.session.Receives) ?_ (fun hcalling ↦ hcalling.elim) ?_
    hcalling
  · exact fun h ↦ ⟨Session.wired_of_reach (reach_session h),
      Session.receives_of_reach (reach_session h)⟩
  · intro t u a hinv hended _ hs hcalling
    cases stepped_of_step hs with
    | arrive record => exact ⟨(hended hcalling).short, (hended hcalling).tcp⟩
    | read hgives hread => exact ended_of_read hinv.1 hinv.2 hgives hread (.inl hcalling)
    | other hother hsession =>
        have hended' := hended (calling_of_stepped hsession hother hcalling)
        exact ⟨hended'.short, hended'.tcp⟩

/-- No call has returned more than was there. -/
theorem length_le_of_reach (h : Reach (step cfg) ok (start Out fd acceptTime acceptNo) w) :
    w.last.received.length ≤ w.pending.flatten.length := by
  refine h.invariant (I := fun w ↦ w.last.received.length ≤ w.pending.flatten.length)
    (Nat.le_refl 0) fun hle _ hs ↦ ?_
  cases stepped_of_step hs with
  | arrive record => exact hle
  | read hgives hread => exact hgives.length_le
  | other hother hsession => exact hle

/-- `ServiceConnection()` clears the flag of a callback that stays installed. -/
theorem ready_of_installed {s : Session Out} {removeMe : Bool} {value : ℤ} {callback : Callback}
    (h : (s.serviceReturned .read removeMe value).conn.callback .read = some callback) :
    (s.serviceReturned .read removeMe value).conn.ready .read = false := by
  unfold Session.serviceReturned Connection.callbackReturned at h ⊢
  split_ifs at h ⊢ with hvalue hinstalled
  · cases h
  · rfl
  · rw [Option.isSome_iff_ne_none, not_not] at hinstalled
    exact nomatch hinstalled.symm.trans h

theorem ready_of_keeps (hs : Stepped cfg w a w') (hkeeps : w'.Keeps a) :
    w'.session.conn.ready .read = false := by
  cases hs with
  | arrive record => exact hkeeps.elim
  | read hgives hread =>
      obtain ⟨⟨phase, hphase⟩, hinstalled⟩ := hkeeps
      cases hread with
      | read hc hnext =>
          rename_i oldLen next
          cases next with
          | goesOn input => cases hphase
          | returns input value =>
              simp only [Session.readStep] at hphase hinstalled ⊢
              split_ifs at hphase hinstalled ⊢
              · exact ready_of_installed hinstalled
              · exact ready_of_installed hinstalled
          | ends => cases hphase
  | other hother hsession =>
      cases hsession with
      | read hc hnext => exact absurd rfl (hother _)
      | returns value hc =>
          obtain ⟨-, hinstalled⟩ := hkeeps
          cases value with
          | «continue» => exact ready_of_installed hinstalled
          | wait => exact ready_of_installed hinstalled
          | close =>
              simp only [Session.sessionReturned] at hinstalled ⊢
              split_ifs at hinstalled ⊢
              · exact ready_of_installed hinstalled
              · exact ready_of_installed hinstalled
          | error => exact ready_of_installed hinstalled
      | _ => exact hkeeps.elim

/-- When `Read()` returns, the last call has ended the reading. -/
theorem ended_of_keeps (hwired : w.session.Wired) (hreceives : w.session.Receives)
    (hended : w.session.control.Calling → w.Ended cfg) (hs : Stepped cfg w a w')
    (hkeeps : w'.Keeps a) : w'.Ended cfg := by
  cases hs with
  | arrive record => exact hkeeps.elim
  | read hgives hread => exact ended_of_read hwired hreceives hgives hread (.inr hkeeps)
  | other hother hsession =>
      cases hsession with
      | read hc hnext => exact absurd rfl (hother _)
      | returns value hc => exact ⟨(hended (hc ▸ trivial)).short, (hended (hc ▸ trivial)).tcp⟩
      | _ => exact hkeeps.elim

/-- **What waits when `Read()` returns.**  The last call has returned less than what it asked for.
Over TCP only what has arrived since then waits.  Over TLS nothing waits if and only if, also,
`gnutls_record_recv()` has returned as many bytes as were pending when it was called last. -/
theorem nothing_waits_iff (h : Reach (step cfg) Any (start Out fd acceptTime acceptNo) w)
    (hs : step cfg w a = some w') (hkeeps : w'.Keeps a) :
    (w'.session.conn.ready .read = false ∧ w'.last.received.length < w'.asked) ∧
      (w'.waiting.flatten = [] ↔
        (cfg.tls = true → w'.pending.flatten.length = w'.last.received.length) ∧
          w'.arrived.flatten = []) := by
  have hstepped := stepped_of_step hs
  have hended : w'.Ended cfg :=
    ended_of_keeps (Session.wired_of_reach (reach_session h))
      (Session.receives_of_reach (reach_session h)) (ended_of_reach h) hstepped hkeeps
  have hle : w'.last.received.length ≤ w'.pending.flatten.length :=
    length_le_of_reach (h.tail trivial hs)
  refine ⟨⟨ready_of_keeps hstepped hkeeps, hended.short⟩, ?_⟩
  rw [waiting, List.flatten_append, List.append_eq_nil_iff, left, flatten_unread,
    List.drop_eq_nil_iff]
  refine and_congr_left fun _ ↦ ⟨fun hall _ ↦ Nat.le_antisymm hall hle, fun hall ↦ ?_⟩
  cases htls : cfg.tls with
  | true => exact Nat.le_of_eq (hall htls)
  | false => exact Nat.le_of_eq (hended.tcp htls)

/-- `Read()` reads one byte and calls the session callback. -/
abbrev reads : List (IncomingAction SendCall SendResult) :=
  [.session (.event .read), .session .service, .session .go, .session (.setUp true),
    .session (.read (.count [65]))]

/-- The first of two records fills the buffer, and the second one does not: when `Read()` returns
both have been read. -/
theorem nothing_waits_iff_of_two :
    ∃ w w', Reach (step Session.growing.overTls) Any (start OutBuffer 5 0 0) w ∧
      step Session.growing.overTls w (.session (.returns .continue)) = some w' ∧
      (w'.pending = [[67]] ∧ w'.last = .count [67] ∧ w'.arrived = []) ∧
      w'.session.conn.ready .read = false ∧ w'.waiting.flatten = [] := by
  obtain ⟨w, hreach, hw⟩ :
      ∃ w, Reach (step Session.growing.overTls) Any (start OutBuffer 5 0 0) w ∧
        (step Session.growing.overTls w (.session (.returns .continue))).any (fun w' ↦
          w'.session.control = .service (.test .write false) ∧
            w'.session.conn.callback .read = some readCallback ∧
            w'.pending = [[67]] ∧ w'.last = .count [67] ∧ w'.arrived = []) = true :=
    exists_reach_of_exec_decide
      [.arrive [65, 66], .arrive [67], .session (.event .read), .session .service, .session .go,
        .session (.setUp true), .session (.read (.count [65, 66])),
        .session (.read (.count [67]))] (by decide)
  obtain ⟨w', hs, hw'⟩ := (Option.any_eq_true _ _).mp hw
  obtain ⟨hphase, hinstalled, hlast⟩ := of_decide_eq_true hw'
  obtain ⟨hready, hwaits⟩ := nothing_waits_iff hreach hs ⟨⟨_, hphase⟩, hinstalled⟩
  refine ⟨w, w', hreach, hs, hlast, hready.1, hwaits.mpr ⟨fun _ ↦ ?_, ?_⟩⟩
  · rw [hlast.1, hlast.2.1]
    rfl
  · rw [hlast.2.2]
    rfl

/-- Two records have arrived over TLS, `Read()` has read the first one and returns, and the second
one waits with `readReady` cleared. -/
theorem second_record_waits :
    ∃ w w', Reach (step Session.growing.overTls) Any (start OutBuffer 5 0 0) w ∧
      step Session.growing.overTls w (.session (.returns .continue)) = some w' ∧
      w'.Keeps (.session (.returns .continue) : IncomingAction SendCall SendResult) ∧
      w'.session.conn.ready .read = false ∧ w'.pending = [[65], [66]] ∧
      w'.last = .count [65] ∧ w'.arrived = [] ∧ w'.waiting.flatten ≠ [] := by
  obtain ⟨w, hreach, hw⟩ :
      ∃ w, Reach (step Session.growing.overTls) Any (start OutBuffer 5 0 0) w ∧
        (step Session.growing.overTls w (.session (.returns .continue))).any (fun w' ↦
          w'.session.control = .service (.test .write false) ∧
            w'.session.conn.callback .read = some readCallback ∧
            w'.session.conn.ready .read = false ∧ w'.pending = [[65], [66]] ∧
            w'.last = .count [65] ∧ w'.arrived = []) = true :=
    exists_reach_of_exec_decide (.arrive [65] :: .arrive [66] :: reads) (by decide)
  obtain ⟨w', hs, hw'⟩ := (Option.any_eq_true _ _).mp hw
  obtain ⟨hphase, hinstalled, hready, hpending, hlast, harrived⟩ := of_decide_eq_true hw'
  refine ⟨w, w', hreach, hs, ⟨⟨_, hphase⟩, hinstalled⟩, hready, hpending, hlast, harrived, ?_⟩
  rw [waiting, left, hpending, hlast, harrived]
  decide

end Incoming

end Tidbits.Service
