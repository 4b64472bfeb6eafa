import Mathlib.Data.List.Nodup
import Tidbits.Sequence.Counting
import Tidbits.Service.Sending

/-!
# What a service allocates and releases

`Setup()` allocates a session with its TLS session and its input buffer, and the sends
allocate the entries of its queue.  `Write()` and `Cleanup()` release them.  A `Ledger` is
kept beside the session, which cannot tell what was released twice or never.

When the TLS handshake fails, `Setup()` returns before it has installed `Cleanup()`, and
nobody releases the session.  That is the only way to lose something
(`releasedOnce_of_reach`).

`poTlsSession_create()` and `poTlsSession_destroy()` count the TLS sessions of a
`POTls` in a variable that the threads share without a lock.  They load it in one step
and store it in a later one, and in between a thread that works on another
connection may store.
-/

namespace Tidbits.Service

open Sequence Server Transition

/-! ## The ledger of a connection -/

/-- What is allocated for a connection. -/
inductive Resource
  /-- `struct POService_session`. -/
  | session
  | inBuffer
  | tlsSession
  /-- An entry of the output queue with its buffer or its file. -/
  | entry (no : ℕ)
deriving DecidableEq, Repr

/-- What was allocated and released, but for the entries. -/
structure Ledger where
  created : List Resource
  released : List Resource
  /-- The TLS handshake has failed. -/
  failed : Bool
deriving DecidableEq, Repr

namespace Ledger

def empty : Ledger := ⟨[], [], false⟩

def create (l : Ledger) (r : Resource) : Ledger := { l with created := l.created ++ [r] }

def release (l : Ledger) (r : Resource) : Ledger := { l with released := l.released ++ [r] }

/-- `Setup()`.  When the handshake fails, `poTlsSession_create()` releases the TLS session. -/
def setUp (l : Ledger) (tls ok : Bool) : Ledger :=
  let l := l.create .session
  if tls then
    let l := l.create .tlsSession
    if ok then l.create .inBuffer else { l.release .tlsSession with failed := true }
  else l.create .inBuffer

/-- `Cleanup()`. -/
def cleanUp (l : Ledger) (tls : Bool) : Ledger :=
  let l := if tls then l.release .tlsSession else l
  (l.release .inBuffer).release .session

/-- There is a TLS session. -/
def holdsTls (l : Ledger) : Bool :=
  l.created.contains .tlsSession && !l.released.contains .tlsSession

variable {Call Result : Type}

/-- What a step of the connection allocates and releases, but for the entries. -/
def note (l : Ledger) (tls : Bool) : Action Call Result → Ledger
  | .setUp ok => l.setUp tls ok
  | .cleanedUp => l.cleanUp tls
  | _ => l

end Ledger

/-! ## The connections of a service -/

/-- A connection with its ledger. -/
structure Conn (Out : Type) where
  session : Session Out
  ledger : Ledger
  /-- The value of `tls->sessionCount` that was loaded and is to be stored, one more or less. -/
  loaded : Option UInt32

/-- A service: its connections in the order they were accepted, and the count of its `POTls`. -/
structure POService (Out : Type) where
  conns : List (Conn Out)
  /-- `tls->sessionCount`. -/
  sessionCount : UInt32

/-- What happens next at a service. -/
inductive POService.Action (Call Result : Type)
  | accept (fd : ℤ) (acceptTime : Time) (acceptNo : ℕ)
  /-- The thread that works on connection `i` loads `tls->sessionCount`. -/
  | load (i : ℕ)
  /-- Connection `i` makes a step. -/
  | conn (i : ℕ) (a : Service.Action Call Result)
deriving DecidableEq, Repr

variable {Call Out Result : Type}

/-- What a step of a connection makes of the value of `tls->sessionCount` that it has loaded. -/
def Action.update (tls : Bool) : Action Call Result → Option (UInt32 → UInt32)
  | .setUp true => if tls then some (· + 1) else none
  | .cleanedUp => if tls then some (· - 1) else none
  | _ => none

namespace Conn

def accepted (Out : Type) (fd : ℤ) (acceptTime : Time) (acceptNo : ℕ) : Conn Out :=
  ⟨start Out fd acceptTime acceptNo, .empty, none⟩

/-- A step of the session, noted in the ledger. -/
def step (cfg : Config Call Out Result) (c : Conn Out) (a : Action Call Result) :
    Option (Conn Out) :=
  (Service.step cfg c.session a).map fun s ↦ ⟨s, c.ledger.note cfg.tls a, none⟩

/-- The handshake is over, or the cleanup callback of the user. -/
def counts (c : Conn Out) (tls : Bool) : Bool :=
  tls && c.loaded.isNone && (c.session.control == .setup || c.session.control == .cleanup)

/-- Everything that was allocated. -/
def created (c : Conn Out) : List Resource :=
  c.ledger.created ++ (List.range c.session.queued.length).map .entry

/-- Everything that was released. -/
def released (c : Conn Out) : List Resource := c.ledger.released ++ c.session.freed.map .entry

/-- Everything that was allocated was released once, and nothing else. -/
def ReleasedOnce (c : Conn Out) : Prop := c.created.Nodup ∧ c.released.Perm c.created

instance (c : Conn Out) : Decidable c.ReleasedOnce := inferInstanceAs (Decidable (_ ∧ _))

end Conn

namespace POService

def start (Out : Type) : POService Out := ⟨[], 0⟩

/-- The transitions of a service.  A step that counts a TLS session stores what was loaded. -/
def step (cfg : Config Call Out Result) (s : POService Out) :
    Action Call Result → Option (POService Out)
  | .accept fd acceptTime acceptNo =>
      some { s with conns := s.conns ++ [.accepted Out fd acceptTime acceptNo] }
  | .load i =>
      match s.conns[i]? with
      | some c =>
          if c.counts cfg.tls then
            some { s with conns := s.conns.set i { c with loaded := some s.sessionCount } }
          else none
      | none => none
  | .conn i a =>
      match s.conns[i]? with
      | some c =>
          match a.update cfg.tls, c.loaded, c.step cfg a with
          | none, none, some c' => some { s with conns := s.conns.set i c' }
          | some f, some n, some c' => some ⟨s.conns.set i c', f n⟩
          | _, _, _ => none
      | none => none

/-- The number of TLS sessions that `poTlsSession_create()` has returned and
`poTlsSession_destroy()` has not destroyed. -/
def liveTls (s : POService Out) : ℕ := s.conns.countP fun c ↦ c.ledger.holdsTls

/-- When a thread stores `tls->sessionCount`, it still has the value that the thread has loaded:
what other threads have stored in between has come back to it. -/
def Undisturbed (s : POService Out) : Action Call Result → Prop
  | .conn i _ => ∀ c ∈ s.conns[i]?, ∀ n ∈ c.loaded, n = s.sessionCount
  | _ => True

instance : DecidableRel (@Undisturbed Call Out Result) := fun s a ↦
  match a with
  | .conn i _ => @Option.decidableForallMem _ _ (fun _ ↦ Option.decidableForallMem _) s.conns[i]?
  | .accept .. | .load _ => instDecidableTrue

end POService

variable {cfg : Config Call Out Result} {s s' : Session Out} {a : Action Call Result}

/-! ## What a step does to the session -/

namespace Session

/-- `Setup()` was not called or has not returned. -/
def BeforeSetup (s : Session Out) : Prop :=
  s.control = .setup ∨ s.conn.callback .read = some setupCallback

/-- Neither the end of `Setup()` nor that of the connection. -/
structure SameSetup (s s' : Session Out) : Prop where
  cleanup : s'.conn.cleanupCallback = s.conn.cleanupCallback
  before : s'.BeforeSetup → s.BeforeSetup
  live : s'.control ≠ .removed

/-- The callbacks stay, and it is not `Setup()` that is called. -/
theorem sameSetup_of_conn (hconn : s'.conn = s.conn) (hsetup : s'.control ≠ .setup)
    (hlive : s'.control ≠ .removed) : s.SameSetup s' := by
  refine ⟨congrArg Connection.cleanupCallback hconn, fun hbefore ↦ ?_, hlive⟩
  rcases hbefore with hc | hcallback
  · exact absurd hc hsetup
  · exact .inr (hconn ▸ hcallback)

theorem SameSetup.trans {s'' : Session Out} (h : s.SameSetup s') (h' : s'.SameSetup s'') :
    s.SameSetup s'' :=
  ⟨h'.cleanup.trans h.cleanup, fun hbefore ↦ h.before (h'.before hbefore), h'.live⟩

/-- A callback is set, and it is not `Setup()`. -/
theorem sameSetup_poServerSetCallback {d : Direction} {callback : Option Callback}
    (hconn : s'.conn = (s.conn.poServerSetCallback d callback).1)
    (hcallback : callback ≠ some setupCallback) (hsetup : s'.control ≠ .setup)
    (hlive : s'.control ≠ .removed) : s.SameSetup s' := by
  refine ⟨by rw [hconn]; rfl, fun hbefore ↦ ?_, hlive⟩
  rcases hbefore with hc | hread
  · exact absurd hc hsetup
  · rw [hconn] at hread
    cases d with
    | read => exact absurd hread hcallback
    | write => exact .inr hread

theorem sameSetup_serviceReturned {d : Direction} {removeMe : Bool} {value : ℤ}
    (hconn : s'.conn = s.conn) : s.SameSetup (s'.serviceReturned d removeMe value) := by
  have hcleanup := congrArg Connection.cleanupCallback hconn
  have hread : s'.conn.callback .read = some setupCallback → s.BeforeSetup := fun h ↦
    .inr (hconn ▸ h)
  unfold serviceReturned Connection.callbackReturned
  split_ifs
  · refine ⟨hcleanup, fun hbefore ↦ ?_, nofun⟩
    rcases hbefore with hc | hnone
    · exact nomatch hc
    · exact nomatch hnone
  · exact ⟨hcleanup, fun hbefore ↦ hbefore.elim (fun hc ↦ nomatch hc) hread, nofun⟩
  · exact ⟨hcleanup, fun hbefore ↦ hbefore.elim (fun hc ↦ nomatch hc) hread, nofun⟩

theorem sameSetup_writeReturned {value : ℤ} {caller : Caller} (hconn : s'.conn = s.conn) :
    s.SameSetup (s'.writeReturned value caller) := by
  cases caller with
  | service removeMe => exact sameSetup_serviceReturned hconn
  | outside | session | cleanup => exact sameSetup_of_conn hconn nofun nofun

theorem sameSetup_readReturned {value : ℤ} (hconn : s'.conn = s.conn) :
    s.SameSetup (s'.readReturned value) := sameSetup_serviceReturned hconn

theorem sameSetup_readStep {oldLen : ℕ} (s : Session Out) (r : ReadResult) (next : ReadStep) :
    s.SameSetup (s.readStep oldLen r next) := by
  cases next with
  | goesOn input => exact sameSetup_of_conn rfl nofun nofun
  | returns input value =>
      unfold readStep
      dsimp only
      split_ifs
      · exact sameSetup_readReturned rfl
      · exact sameSetup_readReturned rfl
      · exact sameSetup_of_conn rfl nofun nofun
  | ends => exact sameSetup_of_conn rfl nofun nofun

theorem sameSetup_sessionReturned (hc : s.control = .session) (value : POServiceReturn) :
    s.SameSetup (s.sessionReturned value) := by
  cases value with
  | close =>
      unfold sessionReturned
      dsimp only
      split_ifs
      · exact sameSetup_readReturned rfl
      · have hset : s.SameSetup { s with conn := (s.conn.poServerSetCallback .read none).1 } :=
          sameSetup_poServerSetCallback rfl nofun (by rw [hc]; exact nofun)
            (by rw [hc]; exact nofun)
        exact hset.trans (sameSetup_readReturned rfl)
  | «continue» | wait | error => exact sameSetup_readReturned rfl

theorem sameSetup_send {caller : Caller} (hsender : s.sender = some caller) (out : Out) :
    s.SameSetup (s.send caller out) := by
  have hfree : s.control ≠ .setup ∧ s.control ≠ .removed := by
    rcases sender_cases hsender with ⟨hc, -⟩ | ⟨hc, -⟩ | ⟨hc, -⟩ <;> rw [hc] <;>
      exact ⟨nofun, nofun⟩
  unfold send
  dsimp only
  split_ifs
  · exact sameSetup_poServerSetCallback rfl (by decide) nofun nofun
  · exact sameSetup_poServerSetCallback rfl (by decide) hfree.1 hfree.2
  · exact sameSetup_of_conn rfl hfree.1 hfree.2

theorem sameSetup_writeStep {caller : Caller} {no : ℕ} {rest : List (Entry Out)}
    (hc : s.control = .write caller) (next : WriteStep Out) :
    s.SameSetup (s.writeStep caller no rest next) := by
  have hsetup : s.control ≠ .setup := by rw [hc]; exact nofun
  have hlive : s.control ≠ .removed := by rw [hc]; exact nofun
  cases next with
  | goesOn sent out => exact sameSetup_of_conn rfl hsetup hlive
  | returns sent out value =>
      unfold writeStep
      dsimp only
      split_ifs
      · exact sameSetup_writeReturned rfl
      · exact sameSetup_writeReturned rfl
      · have hset : s.SameSetup { s with conn := (s.conn.poServerSetCallback .write none).1 } :=
          sameSetup_poServerSetCallback rfl nofun hsetup hlive
        exact hset.trans (sameSetup_writeReturned rfl)
      · exact sameSetup_of_conn rfl hsetup hlive
  | ends => exact sameSetup_of_conn rfl nofun nofun

/-- What a step means for `Setup()` and the connection: it ends one of them, or neither. -/
inductive Ends (cfg : Config Call Out Result) (s : Session Out) :
    Action Call Result → Session Out → Prop
  | setUp (ok : Bool) (hc : s.control = .setup) : Ends cfg s (.setUp ok) (s.setUp cfg ok)
  | remove (hnone : s.conn.cleanupCallback = none) : Ends cfg s .remove (s.reset cfg.threadPool)
  | cleanedUp (hc : s.control = .cleanup) :
      Ends cfg s .cleanedUp (s.cleanUp.reset cfg.threadPool)
  | neither {a : Action Call Result} {s' : Session Out} (hsetUp : ∀ ok, a ≠ .setUp ok)
      (hcleanedUp : a ≠ .cleanedUp) (hsame : s.SameSetup s') : Ends cfg s a s'

theorem ends_of_stepped (hs : Stepped cfg s a s') : Ends cfg s a s' := by
  cases hs with
  | setUp ok hc => exact .setUp ok hc
  | remove hc hnone =>
      exact .remove (Option.isNone_iff_eq_none.mp (Option.isSome_eq_false_iff.mp hnone))
  | cleanedUp hc => exact .cleanedUp hc
  | callSetup removeMe hc hcalls hsetup =>
      exact .neither nofun nofun ⟨rfl, fun _ ↦ .inr hsetup, nofun⟩
  | event d hc =>
      refine .neither nofun nofun ⟨rfl, fun hbefore ↦ hbefore.elim .inl .inr, ?_⟩
      show s.control ≠ .removed
      rw [hc]
      exact nofun
  | service hc => exact .neither nofun nofun (sameSetup_of_conn rfl nofun nofun)
  | skip d removeMe hc hcalls =>
      refine .neither nofun nofun (sameSetup_of_conn rfl ?_ ?_) <;> cases d <;> exact nofun
  | callRead removeMe hc hcalls hsetup =>
      exact .neither nofun nofun (sameSetup_of_conn rfl nofun nofun)
  | callWrite removeMe hc hcalls => exact .neither nofun nofun (sameSetup_of_conn rfl nofun nofun)
  | check removeMe hc => exact .neither nofun nofun (sameSetup_of_conn rfl nofun nofun)
  | done removeMe hc =>
      refine .neither nofun nofun (sameSetup_of_conn rfl ?_ ?_) <;> cases removeMe <;> exact nofun
  | read hc hnext => exact .neither nofun nofun (sameSetup_readStep _ _ _)
  | terminate value hc =>
      have hsetup : s.control ≠ .setup := by rw [hc]; exact nofun
      have hlive : s.control ≠ .removed := by rw [hc]; exact nofun
      exact .neither nofun nofun (sameSetup_of_conn rfl hsetup hlive)
  | send call hsender => exact .neither nofun nofun (sameSetup_send hsender _)
  | write hc hqueue hnext => exact .neither nofun nofun (sameSetup_writeStep hc _)
  | returns value hc => exact .neither nofun nofun (sameSetup_sessionReturned hc value)
  | cleanup hc hsome => exact .neither nofun nofun (sameSetup_of_conn rfl nofun nofun)

/-- The entries that were freed, followed by those in the queue, are all that were queued. -/
def Numbered (s : Session Out) : Prop :=
  s.freed ++ s.queue.map Entry.no = List.range s.queued.length

theorem Numbered.of_same (h : s.Numbered) (hsame : s.SameOutput s') : s'.Numbered := by
  rw [Numbered, hsame.freed, hsame.queue, hsame.queued]
  exact h

theorem Numbered.push (h : s.Numbered) (out : Out) : (s.push out).Numbered := by
  show s.freed ++ (s.queue ++ [_]).map Entry.no = List.range (s.queued ++ [out]).length
  rw [List.map_append, ← List.append_assoc, h, List.length_append, List.length_singleton,
    List.range_succ]
  rfl

theorem Numbered.writeStep {caller : Caller} {e : Entry Out} {es : List (Entry Out)}
    (h : s.Numbered) (hqueue : s.queue = e :: es) (next : WriteStep Out) :
    (s.writeStep caller e.no es next).Numbered := by
  have hold : s.freed ++ e.no :: es.map Entry.no = List.range s.queued.length := by
    rw [← h, hqueue]
    rfl
  -- the first entry may change, and keeps its number
  have hkept : ∀ {t : Session Out} {out : Out}, t.freed = s.freed → t.queued = s.queued →
      t.queue = ⟨e.no, out⟩ :: es → t.Numbered := by
    intro t out hfreed hqueued hq
    rw [Numbered, hfreed, hqueued, hq]
    exact hold
  have hpopped : ∀ sent, ((s.handOver e.no sent).pop e.no es).Numbered := by
    intro sent
    show (s.freed ++ [e.no]) ++ es.map Entry.no = List.range s.queued.length
    rw [List.append_assoc]
    exact hold
  cases next with
  | goesOn sent out => exact hkept rfl rfl rfl
  | returns sent out value =>
      unfold Session.writeStep
      dsimp only
      split_ifs
      · refine Numbered.of_same ?_ (sameOutput_writeReturned _ _ _)
        exact hkept rfl rfl rfl
      · refine Numbered.of_same ?_ (sameOutput_writeReturned _ _ _)
        exact hkept rfl rfl rfl
      · exact (hpopped sent).of_same (sameOutput_writeFinished _ _)
      · exact hpopped sent
  | ends => exact h

/-- **No entry is freed twice or forgotten**, however the entries are written. -/
theorem Numbered.stepped (h : s.Numbered) (hs : Stepped cfg s a s') : s'.Numbered := by
  cases hs with
  | setUp ok _ => exact h.of_same (sameOutput_setUp s cfg ok)
  | read _ _ => exact h.of_same (sameOutput_readStep s _ _ _)
  | send call _ => exact (h.push _).of_same (sameOutput_send s _ _)
  | write _ hqueue _ => exact h.writeStep hqueue _
  | returns value _ => exact h.of_same (sameOutput_sessionReturned s value)
  | cleanedUp _ =>
      show (s.freed ++ s.queue.map Entry.no) ++ [] = List.range s.queued.length
      rw [List.append_nil]
      exact h
  | _ => exact h.of_same ⟨rfl, rfl, rfl, rfl, rfl⟩

end Session

/-! ## One connection -/

/-- What the ledger says, by what has become of `Setup()` and of the connection. -/
inductive Booked (tls : Bool) (s : Session Out) : Ledger → Prop
  /-- `Setup()` has not returned. -/
  | unset (hcleanup : s.conn.cleanupCallback = none) : Booked tls s .empty
  /-- The handshake has failed. -/
  | failed (htls : tls = true) (hcleanup : s.conn.cleanupCallback = none)
      (hsetup : ¬ s.BeforeSetup) : Booked tls s (Ledger.empty.setUp tls false)
  /-- `Cleanup()` is installed. -/
  | inUse (hcleanup : s.conn.cleanupCallback ≠ none) (hsetup : ¬ s.BeforeSetup)
      (hlive : s.control ≠ .removed) : Booked tls s (Ledger.empty.setUp tls true)
  /-- `Cleanup()` has run. -/
  | ended (hremoved : s.control = .removed) :
      Booked tls s ((Ledger.empty.setUp tls true).cleanUp tls)

namespace Conn

variable {c c' : Conn Out}

/-- What holds of a connection and its ledger. -/
structure Accounted (cfg : Config Call Out Result) (c : Conn Out) : Prop where
  wired : c.session.Wired
  owned : c.session.Owned
  numbered : c.session.Numbered
  booked : Booked cfg.tls c.session c.ledger

theorem accounted_accepted (fd : ℤ) (acceptTime : Time) (acceptNo : ℕ) :
    (accepted Out fd acceptTime acceptNo).Accounted cfg where
  wired := Session.wired_start fd acceptTime acceptNo
  owned := Session.owned_start fd acceptTime acceptNo
  numbered := rfl
  booked := .unset rfl

theorem step_eq_some : c.step cfg a = some c' ↔
    ∃ s', Service.step cfg c.session a = some s' ∧ ⟨s', c.ledger.note cfg.tls a, none⟩ = c' :=
  Option.map_eq_some_iff

end Conn

namespace Booked

variable {l : Ledger}

/-- `Setup()` is called once. -/
theorem ledger_of_setup (h : Booked cfg.tls s l) (hc : s.control = .setup) :
    l = .empty ∧ s.conn.cleanupCallback = none := by
  cases h with
  | unset hcleanup => exact ⟨rfl, hcleanup⟩
  | failed _ _ hsetup => exact absurd (.inl hc) hsetup
  | inUse _ hsetup _ => exact absurd (.inl hc) hsetup
  | ended hremoved => exact nomatch hc.symm.trans hremoved

/-- `Setup()` returns. -/
theorem setUp (h : Booked cfg.tls s l) (hc : s.control = .setup) (ok : Bool) :
    Booked cfg.tls (s.setUp cfg ok) (l.setUp cfg.tls ok) := by
  obtain ⟨rfl, hcleanup⟩ := h.ledger_of_setup hc
  unfold Session.setUp
  split_ifs with hfails
  · obtain ⟨htls, hok⟩ := Bool.and_eq_true_iff.mp hfails
    have hok : ok = false := Bool.not_eq_true' ok |>.mp hok
    rw [hok]
    refine .failed htls hcleanup fun hbefore ↦ ?_
    rcases hbefore with hc | hnone
    · exact nomatch hc
    · exact nomatch hnone
  · have hledger : Ledger.empty.setUp cfg.tls ok = Ledger.empty.setUp cfg.tls true := by
      cases htls : cfg.tls with
      | false => rfl
      | true =>
          rw [htls, Bool.true_and, Bool.not_eq_true, Bool.not_eq_false'] at hfails
          rw [hfails]
    rw [hledger]
    have hne : some readCallback ≠ some setupCallback := by decide
    refine .inUse nofun (fun hbefore ↦ ?_) nofun
    rcases hbefore with hc | hread
    · exact nomatch hc
    · exact hne hread

/-- Neither `Setup()` nor the connection ends. -/
theorem of_same (h : Booked cfg.tls s l) (hsame : s.SameSetup s') (hlive : s.control ≠ .removed) :
    Booked cfg.tls s' l := by
  cases h with
  | unset hcleanup => exact .unset (hsame.cleanup.trans hcleanup)
  | failed htls hcleanup hsetup =>
      exact .failed htls (hsame.cleanup.trans hcleanup) (mt hsame.before hsetup)
  | inUse hcleanup hsetup _ =>
      exact .inUse (hsame.cleanup ▸ hcleanup) (mt hsame.before hsetup) hsame.live
  | ended hremoved => exact absurd hremoved hlive

/-- `removeConnection()` has no callback to call. -/
theorem remove (h : Booked cfg.tls s l) (hnone : s.conn.cleanupCallback = none)
    (hlive : s.control ≠ .removed) : Booked cfg.tls (s.reset cfg.threadPool) l := by
  cases h with
  | unset => exact .unset rfl
  | failed htls =>
      refine .failed htls rfl fun hbefore ↦ ?_
      rcases hbefore with hc | hcallback
      · exact nomatch hc
      · exact nomatch hcallback
  | inUse hcleanup => exact absurd hnone hcleanup
  | ended hremoved => exact absurd hremoved hlive

/-- `Cleanup()` runs for a session that was set up. -/
theorem ledger_of_cleanup (h : Booked cfg.tls s l) (howned : s.Owned) (hc : s.control = .cleanup) :
    l = Ledger.empty.setUp cfg.tls true := by
  have hlive : s.control ≠ .removed := by rw [hc]; exact nofun
  have hcleanup : s.conn.cleanupCallback ≠ none := by
    intro hnone
    have hunset := (howned.unset hnone hlive).2.1
    rw [hc] at hunset
    exact hunset
  cases h with
  | unset hnone => exact absurd hnone hcleanup
  | failed _ hnone => exact absurd hnone hcleanup
  | inUse => rfl
  | ended hremoved => exact absurd hremoved hlive

end Booked

namespace Conn

variable {c c' : Conn Out}

/-- **A step keeps the account of its connection.** -/
theorem Accounted.step (h : c.Accounted cfg) (hs : c.step cfg a = some c') :
    c'.Accounted cfg := by
  obtain ⟨s', hsession, rfl⟩ := step_eq_some.mp hs
  have hstep := stepped_of_step hsession
  refine ⟨h.wired.stepped hstep, h.owned.stepped h.wired hstep, h.numbered.stepped hstep, ?_⟩
  have hlive : c.session.control ≠ .removed := hstep.not_removed
  have hends := Session.ends_of_stepped hstep
  show Booked cfg.tls s' (c.ledger.note cfg.tls a)
  cases hends with
  | setUp ok hc => exact h.booked.setUp hc ok
  | remove hnone => exact h.booked.remove hnone hlive
  | cleanedUp hc =>
      rw [h.booked.ledger_of_cleanup h.owned hc]
      exact .ended rfl
  | neither hsetUp hcleanedUp hsame =>
      have hnote : c.ledger.note cfg.tls a = c.ledger := by
        cases a with
        | setUp ok => exact absurd rfl (hsetUp ok)
        | cleanedUp => exact absurd rfl hcleanedUp
        | _ => rfl
      rw [hnote]
      exact h.booked.of_same hsame hlive

theorem releasedOnce_of_perm (hfreed : c.session.freed = List.range c.session.queued.length)
    (hnodup : c.ledger.created.Nodup) (hperm : c.ledger.released.Perm c.ledger.created)
    (hentry : ∀ i, .entry i ∉ c.ledger.created) : c.ReleasedOnce := by
  have hinj : Function.Injective Resource.entry := fun _ _ ↦ Resource.entry.inj
  refine ⟨List.Nodup.append hnodup (List.nodup_range.map hinj) ?_, ?_⟩
  · intro r hr hr'
    obtain ⟨i, -, rfl⟩ := List.mem_map.mp hr'
    exact hentry i hr
  · rw [released, created, hfreed]
    exact hperm.append_right _

/-- When the connection is removed, everything was released once, unless the handshake has
failed. -/
theorem Accounted.releasedOnce_iff (h : c.Accounted cfg) (hremoved : c.session.control = .removed) :
    c.ReleasedOnce ↔ c.ledger.failed = false := by
  have hfreed : c.session.freed = List.range c.session.queued.length := by
    have hnumbered := h.numbered
    rwa [Session.Numbered, h.owned.removed hremoved, List.map_nil, List.append_nil] at hnumbered
  obtain ⟨session, ledger, loaded⟩ := c
  cases h.booked with
  | unset =>
      exact iff_of_true (releasedOnce_of_perm hfreed .nil .nil fun _ ↦ nofun) rfl
  | failed htls =>
      refine iff_of_false (fun honce ↦ ?_) (by rw [htls]; exact nofun)
      -- the session is not among what was released
      have hcreated : Resource.session ∈ (Ledger.empty.setUp cfg.tls false).created := by
        rw [htls]
        decide
      have hmem := honce.2.mem_iff.mpr (List.mem_append_left _ hcreated)
      rcases List.mem_append.mp hmem with hmem | hmem
      · have hmem : Resource.session ∈ (Ledger.empty.setUp cfg.tls false).released := hmem
        rw [htls] at hmem
        exact absurd hmem (by decide)
      · obtain ⟨i, -, heq⟩ := List.mem_map.mp hmem
        exact nomatch heq
  | inUse _ _ hlive => exact absurd hremoved hlive
  | ended =>
      have hledger : ∀ tls, let l := (Ledger.empty.setUp tls true).cleanUp tls
          l.created.Nodup ∧ l.released.Perm l.created ∧ l.failed = false := by decide
      obtain ⟨hnodup, hperm, hfailed⟩ := hledger cfg.tls
      refine iff_of_true (releasedOnce_of_perm hfreed hnodup hperm fun i ↦ ?_) hfailed
      show Resource.entry i ∉ ((Ledger.empty.setUp cfg.tls true).cleanUp cfg.tls).created
      cases cfg.tls <;> simp [Ledger.setUp, Ledger.cleanUp, Ledger.create, Ledger.release,
        Ledger.empty]

/-- How a step counts TLS sessions. -/
theorem Accounted.update (h : c.Accounted cfg) (hs : c.step cfg a = some c') (n : ℕ) :
    match a.update cfg.tls with
    | none => c'.ledger.holdsTls = c.ledger.holdsTls
    | some f =>
      f (.ofNat (n + c.ledger.holdsTls.toNat)) = .ofNat (n + c'.ledger.holdsTls.toNat) := by
  obtain ⟨s', hsession, rfl⟩ := step_eq_some.mp hs
  cases Session.ends_of_stepped (stepped_of_step hsession) with
  | setUp ok hc =>
      obtain ⟨hledger, -⟩ := h.booked.ledger_of_setup hc
      simp only [hledger, Ledger.note]
      cases cfg.tls with
      | false => cases ok <;> rfl
      | true =>
          cases ok with
          | false => rfl
          | true => exact (UInt32.ofNat_add n 1).symm
  | remove => exact rfl
  | cleanedUp hc =>
      simp only [h.booked.ledger_of_cleanup h.owned hc, Ledger.note]
      cases cfg.tls with
      | false => rfl
      | true =>
          show UInt32.ofNat (n + 1) - 1 = UInt32.ofNat n
          rw [UInt32.ofNat_add]
          exact UInt32.add_sub_cancel _ _
  | neither hsetUp hcleanedUp =>
      cases a with
      | setUp ok => exact absurd rfl (hsetUp ok)
      | cleanedUp => exact absurd rfl hcleanedUp
      | _ => exact rfl

/-- What is stored tells what was loaded. -/
theorem update_injective {tls : Bool} {f : UInt32 → UInt32} (hf : a.update tls = some f)
    {m n : UInt32} (heq : f m = f n) : m = n := by
  cases a with
  | setUp ok =>
      cases ok with
      | false => exact nomatch hf
      | true =>
          obtain ⟨-, hf⟩ := Option.ite_none_right_eq_some.mp hf
          cases hf
          exact (UInt32.add_left_inj 1).mp heq
  | cleanedUp =>
      obtain ⟨-, hf⟩ := Option.ite_none_right_eq_some.mp hf
      cases hf
      exact (UInt32.sub_left_inj 1).mp heq
  | _ => exact nomatch hf

end Conn

namespace POService

variable {s s' : POService Out} {a : Action Call Result}

/-- The transitions of a service, by what moves. -/
inductive Stepped (cfg : Config Call Out Result) (s : POService Out) :
    Action Call Result → POService Out → Prop
  | accept (fd : ℤ) (acceptTime : Time) (acceptNo : ℕ) :
      Stepped cfg s (.accept fd acceptTime acceptNo)
        { s with conns := s.conns ++ [.accepted Out fd acceptTime acceptNo] }
  | load {i : ℕ} {c : Conn Out} (hi : s.conns[i]? = some c) :
      Stepped cfg s (.load i)
        { s with conns := s.conns.set i { c with loaded := some s.sessionCount } }
  | conn {i : ℕ} {a : Service.Action Call Result} {c c' : Conn Out} (hi : s.conns[i]? = some c)
      (hupdate : a.update cfg.tls = none) (hloaded : c.loaded = none)
      (hc : c.step cfg a = some c') :
      Stepped cfg s (.conn i a) { s with conns := s.conns.set i c' }
  | count {i : ℕ} {a : Service.Action Call Result} {c c' : Conn Out} {f : UInt32 → UInt32}
      {n : UInt32} (hi : s.conns[i]? = some c) (hupdate : a.update cfg.tls = some f)
      (hloaded : c.loaded = some n) (hc : c.step cfg a = some c') :
      Stepped cfg s (.conn i a) ⟨s.conns.set i c', f n⟩

theorem stepped_of_step (hs : step cfg s a = some s') : Stepped cfg s a s' := by
  cases a with
  | accept fd acceptTime acceptNo =>
      cases hs
      exact .accept fd acceptTime acceptNo
  | load i =>
      simp only [step] at hs
      split at hs
      · rename_i c hi
        obtain ⟨-, heq⟩ := Option.ite_none_right_eq_some.mp hs
        cases heq
        exact .load hi
      · cases hs
  | conn i a =>
      simp only [step] at hs
      split at hs
      · rename_i c hi
        split at hs
        · rename_i hupdate hloaded hc
          cases hs
          exact .conn hi hupdate hloaded hc
        · rename_i hupdate hloaded hc
          cases hs
          exact .count hi hupdate hloaded hc
        · cases hs
      · cases hs

/-- Every connection has its account. -/
def Accounted (cfg : Config Call Out Result) (s : POService Out) : Prop :=
  ∀ c ∈ s.conns, c.Accounted cfg

theorem accounted_set {i : ℕ} {c : Conn Out} {n : UInt32} (h : s.Accounted cfg)
    (hc : c.Accounted cfg) : Accounted cfg ⟨s.conns.set i c, n⟩ := by
  intro c' hmem
  rcases List.mem_or_eq_of_mem_set hmem with hmem | rfl
  · exact h c' hmem
  · exact hc

theorem Accounted.step (h : s.Accounted cfg) (hs : step cfg s a = some s') :
    s'.Accounted cfg := by
  cases stepped_of_step hs with
  | accept fd acceptTime acceptNo =>
      intro c hc
      rcases List.mem_append.mp hc with hc | hc
      · exact h c hc
      · cases List.mem_singleton.mp hc
        exact Conn.accounted_accepted fd acceptTime acceptNo
  | load hi =>
      have hc := h _ (List.mem_of_getElem? hi)
      exact accounted_set h ⟨hc.wired, hc.owned, hc.numbered, hc.booked⟩
  | conn hi _ _ hc | count hi _ _ hc =>
      exact accounted_set h ((h _ (List.mem_of_getElem? hi)).step hc)

/-- **A step that is not disturbed keeps the count**, and one that is disturbed does not. -/
theorem sessionCount_of_step (h : s.Accounted cfg) (hcount : s.sessionCount = .ofNat s.liveTls)
    (hs : step cfg s a = some s') : s'.sessionCount = .ofNat s'.liveTls ↔ s.Undisturbed a := by
  cases stepped_of_step hs with
  | accept fd acceptTime acceptNo =>
      refine iff_of_true ?_ trivial
      show s.sessionCount = .ofNat (List.countP _ (s.conns ++ [_]))
      rw [List.countP_append]
      exact hcount
  | @load i c hi =>
      obtain ⟨n, hn, hset⟩ := countP_set_of_getElem? (p := fun c ↦ c.ledger.holdsTls) hi
      refine iff_of_true ?_ trivial
      show s.sessionCount = .ofNat (List.countP _ (s.conns.set i _))
      rw [hset, hcount, liveTls, hn]
  | @conn i a c c' hi hupdate hloaded hc =>
      obtain ⟨n, hn, hset⟩ := countP_set_of_getElem? (p := fun c ↦ c.ledger.holdsTls) hi
      have hholds := (h c (List.mem_of_getElem? hi)).update hc n
      rw [hupdate] at hholds
      refine iff_of_true ?_ fun c₀ hc₀ m hm ↦ ?_
      · show s.sessionCount = .ofNat (List.countP _ (s.conns.set i _))
        rw [hset, hcount, liveTls, hn, hholds]
      · cases hi.symm.trans hc₀
        exact nomatch hloaded.symm.trans hm
  | @count i a c c' f m hi hupdate hloaded hc =>
      obtain ⟨n, hn, hset⟩ := countP_set_of_getElem? (p := fun c ↦ c.ledger.holdsTls) hi
      have hholds := (h c (List.mem_of_getElem? hi)).update hc n
      rw [hupdate] at hholds
      have hlive : UInt32.ofNat (List.countP (fun c ↦ c.ledger.holdsTls) (s.conns.set i c')) =
          f s.sessionCount := by
        rw [hset, hcount, liveTls, hn]
        exact hholds.symm
      have hundisturbed : s.Undisturbed (.conn i a) ↔ m = s.sessionCount := by
        refine ⟨fun hall ↦ hall c hi m hloaded, fun heq c₀ hc₀ m₀ hm₀ ↦ ?_⟩
        cases hi.symm.trans hc₀
        cases hloaded.symm.trans hm₀
        exact heq
      rw [hundisturbed]
      show f m = UInt32.ofNat (List.countP _ (s.conns.set i c')) ↔ _
      rw [hlive]
      exact ⟨Conn.update_injective hupdate, congrArg f⟩

/-- **What was allocated for a connection is released once by the time it is removed, if
and only if its handshake has not failed**, and `tls->sessionCount` is the number of live
TLS sessions until the first step that is disturbed. -/
theorem releasedOnce_of_reach (cfg : Config Call Out Result) (s : POService Out)
    (h : Reach (step cfg) Undisturbed (start Out) s) :
    (∀ c ∈ s.conns, c.session.control = .removed →
      (c.ReleasedOnce ↔ c.ledger.failed = false)) ∧
    s.sessionCount = .ofNat s.liveTls ∧
    ∀ a s', step cfg s a = some s' →
      (s'.sessionCount = .ofNat s'.liveTls ↔ s.Undisturbed a) := by
  have haccounted : ∀ {s}, Reach (step cfg) Undisturbed (start Out) s → s.Accounted cfg :=
    fun h ↦ h.invariant (fun _ hc ↦ nomatch hc) fun h' _ hs ↦ h'.step hs
  have hcount : s.sessionCount = .ofNat s.liveTls :=
    h.invariant_of (I := fun s ↦ s.sessionCount = .ofNat s.liveTls) haccounted rfl
      fun h' hc hok hs ↦ (sessionCount_of_step h' hc hs).mpr hok
  exact ⟨fun c hc hremoved ↦ (haccounted h c hc).releasedOnce_iff hremoved, hcount,
    fun a s' hs ↦ sessionCount_of_step (haccounted h) hcount hs⟩

/-- The first connection answers a byte and is removed; the handshake of the second one fails. -/
abbrev oneHandshakeFails : List (Action SendCall SendResult) :=
  [.accept 5 0 0, .accept 6 0 1, .conn 0 (.event .read), .conn 0 .service, .conn 0 .go, .load 0,
    .conn 0 (.setUp true), .conn 0 (.read (.count [65])), .conn 0 (.send (.send [1, 2])),
    .conn 0 (.returns .error), .conn 0 .go, .conn 0 .go, .conn 0 .go, .conn 0 .remove, .load 0,
    .conn 1 (.event .read), .conn 1 .service, .conn 1 .go, .conn 1 (.setUp false), .conn 1 .go,
    .conn 1 .go, .conn 1 .go, .conn 1 .remove, .conn 0 .cleanedUp]

theorem releasedOnce_of_oneHandshakeFails :
    ∃ s, Reach (step Session.smallest.overTls) Undisturbed (start OutBuffer) s ∧
      (s.conns.map fun c ↦ (c.session.control, c.ledger.failed)) =
        [(.removed, false), (.removed, true)] ∧
      (∀ c ∈ s.conns, c.session.control = .removed →
        (c.ReleasedOnce ↔ c.ledger.failed = false)) ∧
      s.sessionCount = .ofNat s.liveTls ∧
      ∀ a s', step Session.smallest.overTls s a = some s' →
        (s'.sessionCount = .ofNat s'.liveTls ↔ s.Undisturbed a) := by
  obtain ⟨s, hr, hs⟩ :
      ∃ s, Reach (step Session.smallest.overTls) Undisturbed (start OutBuffer) s ∧
        (s.conns.map fun c ↦ (c.session.control, c.ledger.failed)) =
          [(.removed, false), (.removed, true)] :=
    exists_reach_of_exec_decide oneHandshakeFails (by decide)
  exact ⟨s, hr, hs, releasedOnce_of_reach _ s hr⟩

/-- When the handshake fails, nobody releases the session. -/
theorem not_releasedOnce_of_oneHandshakeFails :
    ¬ ∀ s, Reach (step Session.smallest.overTls) Undisturbed (start OutBuffer) s →
      ∀ c ∈ s.conns, c.session.control = .removed → c.ReleasedOnce := by
  obtain ⟨s, hr, c, hc, hremoved, hnot⟩ :
      ∃ s, Reach (step Session.smallest.overTls) Undisturbed (start OutBuffer) s ∧
        ∃ c ∈ s.conns, c.session.control = .removed ∧ ¬ c.ReleasedOnce :=
    exists_reach_of_exec_decide oneHandshakeFails (by decide)
  exact fun h ↦ hnot (h s hr c hc hremoved)

end POService

end Tidbits.Service
