import Tidbits.Service.Reception
import Tidbits.Transition.Observed

/-!
# When the session callback is called again

An observer notes each call of the session callback: how many bytes are new to it,
which bytes it gets, and which it got the time before if it has returned
`POSERVICE_WAIT`.  `Read()` calls it when there are any bytes in the buffer, which may
be those that it has seen already.
-/

namespace Tidbits.Service

open Server Transition

/-- A call of the session callback. -/
structure Presented where
  /-- How many bytes were received since the call before. -/
  news : ℕ
  bytes : List UInt8
  /-- The bytes of the call before, if it has returned `POSERVICE_WAIT`. -/
  waited : Option (List UInt8)
deriving DecidableEq, Repr

/-- There is something new, and not the same again after `POSERVICE_WAIT`. -/
structure Presented.Fresh (c : Presented) : Prop where
  news : 0 < c.news
  bytes : c.waited ≠ some c.bytes

/-- The calls of the session callback, and the bytes of the last one if it waits for more. -/
structure Calls where
  calls : List Presented
  waited : Option (List UInt8)

variable {Call Out Result : Type} {cfg : Config Call Out Result}
  {s s' : Session Out} {a : Action Call Result} {fd : ℤ} {acceptTime : Time} {acceptNo : ℕ}

namespace Calls

def start : Calls := ⟨[], none⟩

def AllFresh (g : Calls) : Prop := ∀ c ∈ g.calls, c.Fresh

/-- Note a call with these bytes. -/
def present (g : Calls) (news : ℕ) (bytes : List UInt8) : Calls :=
  ⟨g.calls ++ [⟨news, bytes, g.waited⟩], none⟩

end Calls

/-- What is noted about a step of `Read()`. -/
def noteRead (s : Session Out) (r : ReadResult) (g : Calls) : ReadStep → Calls
  | .returns input value =>
      if value = 2 ∧ 1 ≤ input.inLen then
        g.present (s.unseen + r.received.length) (input.inBuffer.take input.inLen)
      else g
  | .goesOn _ | .ends => g

/-- What is noted about a step. -/
def noteCalls (cfg : Config Call Out Result) (s : Session Out) (a : Action Call Result)
    (g : Calls) : Calls :=
  match a with
  | .read r =>
      match Session.readInput cfg s.input r with
      | some next => noteRead s r g next
      | none => g
  | .returns .wait => { g with waited := g.calls.getLast?.map Presented.bytes }
  | _ => g

/-- `Read()` is about to return from its loop with nothing new, and with bytes that the session
callback has seen. -/
def EmptyWakeup (s : Session Out) (a : Action Call Result) : Prop :=
  match a with
  | .read .again => s.control = .read s.input.inLen ∧ 0 < s.input.inLen
  | _ => False

instance (s : Session Out) (a : Action Call Result) : Decidable (EmptyWakeup s a) :=
  match a with
  | .read .again => inferInstanceAs (Decidable (_ ∧ _))
  | .read (.count _) | .read .endOfStream | .read .interrupted | .read .hungUp | .read .failed
  | .event _ | .service | .go | .setUp _ | .terminate _ | .send _ | .write _ | .returns _
  | .remove | .cleanedUp => instDecidableFalse

namespace Session

/-! ## The notes -/

theorem noteCalls_read {r : ReadResult} {next : ReadStep} (g : Calls)
    (hnext : readInput cfg s.input r = some next) :
    noteCalls cfg s (.read r) g = noteRead s r g next := by
  unfold noteCalls
  dsimp only
  rw [hnext]

/-- The session callback is called exactly when a call is noted. -/
theorem noteRead_cases (s : Session Out) (oldLen : ℕ) (r : ReadResult) (next : ReadStep)
    (g : Calls) :
    ((s.readStep oldLen r next).control ≠ .session ∧ noteRead s r g next = g) ∨
      ∃ input, next = .returns input 2 ∧ 1 ≤ input.inLen ∧
        s.readStep oldLen r next =
          { s.receive r.received with input := input, control := .session, unseen := 0 } ∧
        noteRead s r g next =
          g.present (s.unseen + r.received.length) (input.inBuffer.take input.inLen) := by
  cases next with
  | goesOn input => exact .inl ⟨nofun, rfl⟩
  | returns input value =>
      unfold readStep noteRead
      dsimp only
      split_ifs with htwo hcalls hempty hcalls hcalls
      · exact absurd hcalls.1 htwo
      · exact .inl ⟨nofun, rfl⟩
      · exact absurd hcalls.2 (Nat.not_le_of_lt hempty)
      · exact .inl ⟨nofun, rfl⟩
      · exact .inr ⟨input, by rw [hcalls.1], hcalls.2, rfl, rfl⟩
      · exact absurd ⟨not_not.mp htwo, Nat.le_of_not_lt hempty⟩ hcalls
  | ends => exact .inl ⟨nofun, rfl⟩

/-- The bytes that the session callback wants more of are still the first in the buffer, with those
behind them that are new. -/
structure Noted (s : Session Out) (g : Calls) : Prop where
  waited : ∀ bytes ∈ g.waited, ∃ news, s.received = bytes ++ news ∧ news.length = s.unseen
  calling : s.control.Calling →
    g.waited = none ∧ s.unseen = 0 ∧ g.calls.getLast?.map Presented.bytes = some s.received

theorem Noted.of_same {g : Calls} (h : s.Noted g) (hsame : s.SameInput s')
    (hcalling : s'.control.Calling → s.control.Calling) : s'.Noted g where
  waited := by
    rw [hsame.received, hsame.unseen]
    exact h.waited
  calling := by
    rw [hsame.received, hsame.unseen]
    exact fun hc ↦ h.calling (hcalling hc)

theorem not_calling_serviceReturned (s : Session Out) (d : Direction) (removeMe : Bool)
    (value : ℤ) : ¬ (s.serviceReturned d removeMe value).control.Calling := by
  cases d <;> exact id

/-- `Read()` has returned. -/
theorem noted_readReturned {g : Calls} (value : ℤ)
    (h : ∀ bytes ∈ g.waited, ∃ news, s.received = bytes ++ news ∧ news.length = s.unseen) :
    (s.readReturned value).Noted g :=
  ⟨h, fun hc ↦ absurd hc (not_calling_serviceReturned s .read false value)⟩

theorem Noted.receive {g : Calls} (h : s.Noted g) (bytes : List UInt8) :
    ∀ old ∈ g.waited, ∃ news, (s.receive bytes).received = old ++ news ∧
      news.length = (s.receive bytes).unseen := by
  intro old hold
  obtain ⟨news, hreceived, hlength⟩ := h.waited old hold
  refine ⟨news ++ bytes, ?_, ?_⟩
  · show s.received ++ bytes = _
    rw [hreceived, List.append_assoc]
  · show _ = s.unseen + bytes.length
    rw [List.length_append, hlength]

theorem Noted.readStep {g : Calls} {oldLen : ℕ} {r : ReadResult} {next : ReadStep}
    (h : s.Noted g) (hr : s.Receives) (hw : s.Wired) (hc : s.control = .read oldLen)
    (hnext : readInput cfg s.input r = some next) :
    (s.readStep oldLen r next).Noted (noteRead s r g next) := by
  obtain ⟨-, hholds, hroom, -⟩ := hr.reading hw hc
  rcases noteRead_cases s oldLen r next g with ⟨hnot, hg⟩ | ⟨input, rfl, -, hs, hg⟩
  · rw [hg]
    cases next with
    | goesOn input => exact ⟨h.receive r.received, fun hcalling ↦ hcalling.elim⟩
    | returns input value =>
        revert hnot
        unfold Session.readStep
        dsimp only
        split_ifs
        · exact fun _ ↦ noted_readReturned value (h.receive r.received)
        · exact fun _ ↦ noted_readReturned 0 (h.receive r.received)
        · exact fun hnot ↦ absurd rfl hnot
    | ends => exact ⟨h.waited, fun hcalling ↦ hcalling.elim⟩
  · rw [hs, hg]
    have hkept := (readInput_holds hholds hroom hnext).1
    refine ⟨nofun, fun _ ↦ ⟨rfl, rfl, ?_⟩⟩
    rw [Calls.present, List.getLast?_concat, Option.map_some]
    exact congrArg some hkept.take

theorem Noted.sessionReturned {g : Calls} (h : s.Noted g) (hc : s.control = .session)
    (value : POServiceReturn) :
    (s.sessionReturned value).Noted (noteCalls cfg s (.returns value : Action Call Result) g) := by
  obtain ⟨hnone, hunseen, hlast⟩ := h.calling (by rw [hc]; trivial)
  cases value with
  | «continue» =>
      refine noted_readReturned 0 ?_
      rintro bytes hbytes
      exact nomatch hnone.symm.trans hbytes
  | wait =>
      refine noted_readReturned 0 ?_
      rintro bytes hbytes
      rw [show noteCalls cfg s (.returns .wait : Action Call Result) g =
        { g with waited := g.calls.getLast?.map Presented.bytes } from rfl, hlast] at hbytes
      exact ⟨[], by rw [List.append_nil]; exact Option.some.inj hbytes, hunseen.symm⟩
  | close =>
      unfold Session.sessionReturned
      dsimp only
      split_ifs
      · exact noted_readReturned 1 h.waited
      · exact noted_readReturned 0 h.waited
  | error => exact noted_readReturned (-1) h.waited

theorem noteCalls_other {g : Calls} (ha : ¬ ChangesInput a) : noteCalls cfg s a g = g := by
  cases a with
  | read | returns => exact absurd trivial ha
  | _ => rfl

theorem Noted.stepped {g : Calls} (h : s.Noted g) (hr : s.Receives) (hw : s.Wired)
    (hs : Stepped cfg s a s') : s'.Noted (noteCalls cfg s a g) := by
  have hothers : ¬ ChangesInput a → s'.Noted (noteCalls cfg s a g) := fun ha ↦ by
    rw [noteCalls_other ha]
    exact h.of_same (sameInput_of_stepped hs ha) (sameReading_of_stepped hs ha).calling
  cases hs with
  | setUp ok hc =>
      unfold Session.setUp
      split_ifs
      · exact noted_readReturned (-1) h.waited
      · exact ⟨h.waited, fun hcalling ↦ hcalling.elim⟩
  | read hc hnext =>
      rw [noteCalls_read g hnext]
      exact h.readStep hr hw hc hnext
  | returns value hc => exact h.sessionReturned hc value
  | terminate value hc => exact ⟨h.waited, h.calling⟩
  | _ => exact hothers id

/-! ## The calls -/

/-- A call that is noted is fresh exactly if something was received for it. -/
theorem fresh_iff {g : Calls} {r : ReadResult} {input : Input} (h : s.Noted g)
    (hinput : input.Holds (s.received ++ r.received)) :
    (Presented.mk (s.unseen + r.received.length) (input.inBuffer.take input.inLen)
      g.waited).Fresh ↔ 0 < s.unseen + r.received.length := by
  refine ⟨Presented.Fresh.news, fun hpos ↦ ⟨hpos, fun hwaited ↦ ?_⟩⟩
  obtain ⟨news, hreceived, hlength⟩ := h.waited _ hwaited
  -- the bytes of the call before are fewer
  have hcount := congrArg List.length hreceived
  rw [List.length_append, hinput.take, List.length_append] at hcount
  have hnone : r.received.length = 0 := by omega
  omega

/-- What is received for a call is nothing exactly at an empty wake-up. -/
theorem news_pos_iff {oldLen : ℕ} {r : ReadResult} {input : Input} (hr : s.Receives) (hw : s.Wired)
    (hc : s.control = .read oldLen) (hnext : readInput cfg s.input r = some (.returns input 2))
    (hcalls : 1 ≤ input.inLen) :
    0 < s.unseen + r.received.length ↔
      ¬ EmptyWakeup s (.read r : Action Call Result) := by
  obtain ⟨-, hholds, hroom, hsees⟩ := hr.reading hw hc
  cases r with
  | count bytes =>
      rw [readInput_count] at hnext
      obtain ⟨⟨hbytes, -⟩, -⟩ := Option.ite_none_right_eq_some.mp hnext
      exact iff_of_true (Nat.add_pos_right _ (List.length_pos_iff.mpr hbytes)) id
  | again =>
      have hlen : input.inLen = s.input.inLen := by
        have hkept := (readInput_holds hholds hroom hnext).1
        rw [hkept.inLen_eq, hholds.inLen_eq]
        exact congrArg List.length (List.append_nil _)
      show 0 < s.unseen + 0 ↔ ¬ (s.control = .read s.input.inLen ∧ 0 < s.input.inLen)
      rw [hc, Control.read.injEq]
      omega
  | endOfStream | interrupted | hungUp | failed =>
      unfold readInput tlsRead tcpRead readLoop at hnext
      split_ifs at hnext <;> exact nomatch hnext

/-- **One step.**  A step that is not an empty wake-up keeps all calls fresh. -/
theorem allFresh_noteCalls {g : Calls} (h : g.AllFresh) (hn : s.Noted g) (hr : s.Receives)
    (hw : s.Wired) (hwoken : ¬ EmptyWakeup s a) (hs : Stepped cfg s a s') :
    (noteCalls cfg s a g).AllFresh := by
  have hothers : ¬ ChangesInput a → (noteCalls cfg s a g).AllFresh := fun ha ↦ by
    rwa [noteCalls_other ha]
  cases hs with
  | setUp ok hc => exact h
  | terminate value hc => exact h
  | returns value hc => cases value <;> exact h
  | read hc hnext =>
      rename_i oldLen r next
      rw [noteCalls_read g hnext]
      rcases noteRead_cases s oldLen r next g with ⟨-, hg⟩ | ⟨input, rfl, hcalls, -, hg⟩
      · rwa [hg]
      · rw [hg]
        obtain ⟨-, hholds, hroom, -⟩ := hr.reading hw hc
        have hkept := (readInput_holds hholds hroom hnext).1
        intro c hc'
        rcases List.mem_append.mp hc' with hc' | hc'
        · exact h c hc'
        · rw [List.mem_singleton.mp hc', fresh_iff hn hkept, news_pos_iff hr hw hc hnext hcalls]
          exact hwoken
  | _ => exact hothers id

/-- An empty wake-up makes a call that is not fresh. -/
theorem not_allFresh_noteCalls {g : Calls} (hn : s.Noted g) (hr : s.Receives) (hw : s.Wired)
    (hwoken : EmptyWakeup s a) (hs : Stepped cfg s a s') : ¬ (noteCalls cfg s a g).AllFresh := by
  cases hs with
  | read hc hnext =>
      rename_i oldLen r next
      cases r with
      | again =>
          obtain ⟨-, hholds, hroom, -⟩ := hr.reading hw hc
          have hreturns : next = .returns s.input 2 := by
            unfold readInput tlsRead tcpRead readLoop at hnext
            split_ifs at hnext <;> exact (Option.some.inj hnext).symm
          subst hreturns
          have hkept := (readInput_holds hholds hroom hnext).1
          intro hall
          rw [noteCalls_read g hnext, noteRead, if_pos ⟨rfl, hwoken.2⟩] at hall
          have hfresh := hall _ (List.mem_append_right _ (List.mem_singleton_self _))
          rw [fresh_iff hn hkept, news_pos_iff hr hw hc hnext hwoken.2] at hfresh
          exact hfresh hwoken
      | _ => exact hwoken.elim
  | _ => exact hwoken.elim

section Runs

variable {ok : Session Out × Calls → Action Call Result → Prop} {p : Session Out × Calls}

theorem noted_of_reach (h : Reach (observed (step cfg) (noteCalls cfg)) ok
    (start Out fd acceptTime acceptNo, .start) p) : p.1.Noted p.2 := by
  refine h.invariant_of (I := fun p ↦ p.1.Noted p.2) (J := fun p ↦ p.1.Wired ∧ p.1.Receives)
    ?_ ⟨nofun, fun hcalling ↦ hcalling.elim⟩ ?_
  · exact fun hr ↦ ⟨wired_of_reach hr.of_observed, receives_of_reach hr.of_observed⟩
  · rintro ⟨t, g⟩ ⟨t', g'⟩ a ⟨hw, hr⟩ hn - hs
    obtain ⟨hstep, rfl⟩ := observed_eq_some.mp hs
    exact hn.stepped hr hw (stepped_of_step hstep)

/-- **The session callback gets something new each time**, and never the same again after
`POSERVICE_WAIT`, in a run without empty wake-ups.  The first of these makes a call that is not
fresh. -/
theorem allFresh_of_reach (h : Reach (observed (step cfg) (noteCalls cfg))
    (fun p a ↦ ¬ EmptyWakeup p.1 a) (start Out fd acceptTime acceptNo, .start) p) :
    p.2.AllFresh ∧ ∀ a q, EmptyWakeup p.1 a → observed (step cfg) (noteCalls cfg) p a = some q →
      ¬ q.2.AllFresh := by
  constructor
  · refine h.invariant_of (I := fun p ↦ p.2.AllFresh)
      (J := fun p ↦ p.1.Wired ∧ p.1.Receives ∧ p.1.Noted p.2) ?_ (fun c hc ↦ nomatch hc) ?_
    · exact fun hr ↦
        ⟨wired_of_reach hr.of_observed, receives_of_reach hr.of_observed, noted_of_reach hr⟩
    · rintro ⟨t, g⟩ ⟨t', g'⟩ a ⟨hw, hr, hn⟩ hall hwoken hs
      obtain ⟨hstep, rfl⟩ := observed_eq_some.mp hs
      exact allFresh_noteCalls hall hn hr hw hwoken (stepped_of_step hstep)
  · rintro a ⟨t, g⟩ hwoken hs
    obtain ⟨hstep, rfl⟩ := observed_eq_some.mp hs
    exact not_allFresh_noteCalls (noted_of_reach h) (receives_of_reach h.of_observed)
      (wired_of_reach h.of_observed) hwoken (stepped_of_step hstep)

end Runs

/-- A message comes in two parts. -/
theorem allFresh_of_parts :
    ∃ p, Reach (observed (step growing.tcp) (noteCalls growing.tcp))
        (fun p a ↦ ¬ EmptyWakeup p.1 a) (start OutBuffer 5 0 0, .start) p ∧
      p.2.calls = [⟨1, [65], none⟩, ⟨2, [65, 66, 67], some [65]⟩] ∧
      p.2.AllFresh ∧ ∀ a q, EmptyWakeup p.1 a →
        observed (step growing.tcp) (noteCalls growing.tcp) p a = some q → ¬ q.2.AllFresh := by
  obtain ⟨p, hr, hcalls⟩ :
      ∃ p, Reach (observed (step growing.tcp) (noteCalls growing.tcp))
          (fun p a ↦ ¬ EmptyWakeup p.1 a) (start OutBuffer 5 0 0, .start) p ∧
        p.2.calls = [⟨1, [65], none⟩, ⟨2, [65, 66, 67], some [65]⟩] :=
    exists_reach_of_exec_decide
      (connects ++ [.read (.count [65]), .returns .wait, .go, .go, .go, .event .read, .service,
        .go, .read (.count [66]), .read (.count [67])]) (by decide)
  exact ⟨p, hr, hcalls, allFresh_of_reach hr⟩

/-- An event of data that was read already. -/
theorem not_allFresh_of_stale :
    ∃ p, Reach (observed (step growing.tcp) (noteCalls growing.tcp)) Any
        (start OutBuffer 5 0 0, .start) p ∧
      p.2.calls = [⟨1, [65], none⟩, ⟨0, [65], some [65]⟩] ∧ ¬ p.2.AllFresh := by
  obtain ⟨p, hr, hcalls⟩ :
      ∃ p, Reach (observed (step growing.tcp) (noteCalls growing.tcp)) Any
          (start OutBuffer 5 0 0, .start) p ∧
        p.2.calls = [⟨1, [65], none⟩, ⟨0, [65], some [65]⟩] :=
    exists_reach_of_exec_decide
      (connects ++ [.read (.count [65]), .returns .wait, .go, .go, .go, .event .read, .service,
        .go, .read .again]) (by decide)
  refine ⟨p, hr, hcalls, fun hall ↦ ?_⟩
  rw [Calls.AllFresh, hcalls] at hall
  exact absurd (hall _ (List.mem_cons_of_mem _ List.mem_cons_self)).news (Nat.lt_irrefl 0)

end Session

end Tidbits.Service
