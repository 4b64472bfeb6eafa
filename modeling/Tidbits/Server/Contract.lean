import Tidbits.Server.Holders

/-!
# The rule for the callbacks

`server.h` says what a callback may do that returns zero: it must have consumed
the epoll event, or removed itself; and if it has replaced itself without
consuming the event, it must call the new callback.  An observer keeps an account
of each connection for this: which reported readiness has not been consumed, and
which calls of its callbacks have not returned.

A callback is called by `ServiceConnection()`, or by another callback: within
`poServer_setReadCallback()` or `poServer_setWriteCallback()`, or directly.  What
such a call returns is known to the callback that made it, and to nobody else.
-/

namespace Tidbits.Server

open Tidbits.Transition

variable {cfg : Config}

/-- A call of a read or write callback that has not returned. -/
structure Call where
  direction : Direction
  /-- The callback of the direction was replaced during the call. -/
  replaced : Bool
  /-- A callback that was called by this one has returned non-zero. -/
  failed : Bool
deriving DecidableEq, Repr

/-- What the observer knows of a connection. -/
structure Account where
  /-- Readiness was recorded that has not been consumed. -/
  unconsumed : Direction → Bool
  /-- Readiness was reported by an event for which `doEvent` found no callback. -/
  dropped : Direction → Bool
  /-- The calls that have not returned, last first. -/
  calls : List Call
  /-- The callback of the direction has been called since it was installed. -/
  called : Direction → Bool

namespace Account

/-- The account of a new connection. -/
def fresh : Account := ⟨fun _ ↦ false, fun _ ↦ false, [], fun _ ↦ false⟩

/-- The callback of the direction is called. -/
def push (acc : Account) (d : Direction) : Account :=
  { acc with
    calls := ⟨d, false, false⟩ :: acc.calls
    called := Function.update acc.called d true }

/-- The callback of the direction is replaced. -/
def replace (acc : Account) (d : Direction) : Account :=
  { acc with
    calls := acc.calls.map fun f ↦ { f with replaced := f.replaced || decide (f.direction = d) }
    called := Function.update acc.called d false }

/-- The last call returns to the callback that made it. -/
def back (acc : Account) (value : ℤ) : Account :=
  match acc.calls with
  | _ :: f :: calls =>
      { acc with calls := { f with failed := f.failed || decide (value ≠ 0) } :: calls }
  | _ => acc

/-- A callback consumes the readiness in the direction. -/
def exhaust (acc : Account) (d : Direction) : Account :=
  { acc with unconsumed := Function.update acc.unconsumed d false }

/-- `doEvent` records the readiness of the event. -/
def report (acc : Account) (e : ConnEvent cfg) : Account :=
  { acc with unconsumed := fun d ↦ acc.unconsumed d || e.reports d }

/-- `doEvent` finds no callback for the event. -/
def drop (acc : Account) (e : ConnEvent cfg) : Account :=
  { acc with dropped := fun d ↦ acc.dropped d || e.reports d }

/-- The account after a step of `ServiceConnection()`. -/
def serve (acc : Account) (conn : Connection) : Phase → ServiceAction → Account
  | .test d _, .go =>
      if conn.calls d then
        { acc with calls := [⟨d, false, false⟩], called := fun x ↦ decide (x = d) }
      else acc
  | .inCallback _ _, .setCallback d callback =>
      if callback = conn.callback d then acc
      else
        match (conn.poServerSetCallback d callback).2 with
        | some d' => (acc.replace d).push d'
        | none => acc.replace d
  | .inCallback _ _, .returns _ => { acc with calls := [] }
  | _, _ => acc

/-- The rule, for a call that returns the value. -/
def Obeys (acc : Account) (conn : Connection) (f : Call) (value : ℤ) : Prop :=
  value = 0 → conn.callback f.direction = none ∨ acc.unconsumed f.direction = false ∨
    f.replaced = true ∧ acc.called f.direction = true

instance (acc : Account) (conn : Connection) (f : Call) (value : ℤ) :
    Decidable (acc.Obeys conn f value) := inferInstanceAs (Decidable (_ → _))

end Account

/-- A call that got a non-zero value returns a non-zero value. -/
def Call.PassesOn (f : Call) (value : ℤ) : Prop := f.failed = true → value ≠ 0

instance (f : Call) (value : ℤ) : Decidable (f.PassesOn value) :=
  inferInstanceAs (Decidable (_ → _))

/-- A step of the server, or something that a callback does that the server does not see. -/
inductive Deed (cfg : Config)
  | step (a : Action cfg)
  /-- A callback of the connection reads or writes until its socket is exhausted. -/
  | exhaust (c : ConnId cfg) (d : Direction)
  /-- A callback of the connection calls one that is installed. -/
  | call (c : ConnId cfg) (d : Direction)
  /-- A callback of the connection returns to the one that called it. -/
  | back (c : ConnId cfg) (value : ℤ)
deriving DecidableEq, Repr

/-- The accounts of the connections. -/
abbrev Accounts (cfg : Config) := ConnId cfg → Account

namespace POServer

/-- The accounts after a step.  A connection that is not in use has a fresh one. -/
def accounts (s : POServer cfg) (a : Action cfg) (accs : Accounts cfg) (c : ConnId cfg) : Account :=
  if 0 ≤ (s.store.conn c).fd then
    match a with
    | .proceed _ _ =>
        match s.master with
        | .setReady e _ => if e.conn = c then (accs c).report e else accs c
        | .events (.conn e :: _) =>
            if e.conn = c ∧ (s.store.conn c).noCallback then (accs c).drop e else accs c
        | _ => accs c
    | .work i b _ =>
        match s.store.worker i with
        | some w =>
            match w.place with
            | .serving phase =>
                if w.conn = c then (accs c).serve (s.store.conn c) phase b else accs c
            | _ => accs c
        | none => accs c
    | _ => accs c
  else .fresh

/-- The connection with a callback that returns, and the value. -/
def returning (s : POServer cfg) : Deed cfg → Option (ConnId cfg × ℤ)
  | .step (.work i (.returns value) _) => (s.store.worker i).map fun w ↦ (w.conn, value)
  | .back c value => some (c, value)
  | _ => none

end POServer

/-- The transitions of the server and of its callbacks. -/
def act (p : POServer cfg × Accounts cfg) (a : Deed cfg) :
    Option (POServer cfg × Accounts cfg) :=
  match a with
  | .step b =>
      -- a callback returns to the server when all that it called have returned
      if ∀ r ∈ p.1.returning a, (p.2 r.1).calls.length ≤ 1 then
        (step p.1 b).map fun s ↦ (s, p.1.accounts b p.2)
      else none
  | .exhaust c d =>
      if (p.2 c).calls = [] then none
      else some (p.1, Function.update p.2 c ((p.2 c).exhaust d))
  | .call c d =>
      if (p.2 c).calls = [] ∨ (p.1.store.conn c).callback d = none then none
      else some (p.1, Function.update p.2 c ((p.2 c).push d))
  | .back c value =>
      if (p.2 c).calls.length ≤ 1 then none
      else some (p.1, Function.update p.2 c ((p.2 c).back value))

/-- A callback that returns obeys the rule. -/
def Rule (p : POServer cfg × Accounts cfg) (a : Deed cfg) : Prop :=
  ∀ r ∈ p.1.returning a, ∀ f ∈ (p.2 r.1).calls.head?, (p.2 r.1).Obeys (p.1.store.conn r.1) f r.2

instance (p : POServer cfg × Accounts cfg) (a : Deed cfg) : Decidable (Rule p a) :=
  inferInstanceAs (Decidable (∀ r ∈ p.1.returning a, _))

/-- A callback that returns obeys the rule, and passes on that one which it called has failed. -/
def RulePassedOn (p : POServer cfg × Accounts cfg) (a : Deed cfg) : Prop :=
  Rule p a ∧ ∀ r ∈ p.1.returning a, ∀ f ∈ (p.2 r.1).calls.head?, f.PassesOn r.2

instance (p : POServer cfg × Accounts cfg) (a : Deed cfg) : Decidable (RulePassedOn p a) :=
  inferInstanceAs (Decidable (_ ∧ _))

/-! ## A pass over the callbacks -/

namespace Account

variable {acc : Account} {conn : Connection} {d d' : Direction} {phase : Phase}
  {b : ServiceAction} {value : ℤ}

/-- The callback is installed, and has readiness to consume. -/
def Due (acc : Account) (conn : Connection) (d : Direction) : Prop :=
  conn.callback d ≠ none ∧ acc.unconsumed d = true

/-- A call in the direction has not returned, or one that is about to return non-zero. -/
def Pends (acc : Account) (d : Direction) : Prop :=
  ∃ f ∈ acc.calls, f.direction = d ∨ f.failed = true

/-- The call of the installed callback has not returned, or one that is about to return
non-zero. -/
def Awaits (acc : Account) (d : Direction) : Prop :=
  ∃ f ∈ acc.calls, f.direction = d ∧ f.replaced = false ∨ f.failed = true

/-- A task at the place gets to the callback of the direction, or is in it. -/
def Covers (acc : Account) (place : Place) (d : Direction) : Prop :=
  match place with
  | .queued | .locked | .serving (.test .read _) => True
  | .serving (.test .write _) => d = .write
  | .serving (.inCallback d' _) => d' = .read ∧ d = .write ∨ acc.Pends d
  | _ => False

/-- The account of a connection with a service in the callback of direction `d'`. -/
structure Calling (acc : Account) (conn : Connection) (d' : Direction) : Prop where
  last : ∃ f, acc.calls.getLast? = some f ∧ f.direction = d'
  called : ∀ d, acc.called d = true → acc.Due conn d → acc.Awaits d

theorem Awaits.pends (h : acc.Awaits d) : acc.Pends d := by
  obtain ⟨f, hf, hd | hfailed⟩ := h
  · exact ⟨f, hf, .inl hd.1⟩
  · exact ⟨f, hf, .inr hfailed⟩

/-- The call that returns to the server is the only one. -/
theorem Calling.single (h : acc.Calling conn d') (hlen : acc.calls.length ≤ 1) :
    ∃ f, acc.calls = [f] ∧ f.direction = d' := by
  obtain ⟨f, hlast, hd⟩ := h.last
  cases hcalls : acc.calls with
  | nil => simp [hcalls] at hlast
  | cons g calls =>
      cases calls with
      | nil =>
          have hg : g = f := by simpa [hcalls] using hlast
          exact ⟨g, rfl, hg ▸ hd⟩
      | cons g' calls => simp [hcalls] at hlen

/-! ### What the callbacks do among themselves -/

theorem pends_push : (acc.push d').Pends d ↔ d' = d ∨ acc.Pends d := by
  simp [Pends, push]

theorem awaits_push : (acc.push d').Awaits d ↔ d' = d ∨ acc.Awaits d := by
  simp [Awaits, push]

theorem pends_replace : (acc.replace d').Pends d ↔ acc.Pends d := by
  simp [Pends, replace]

theorem due_exhaust (h : (acc.exhaust d').Due conn d) : acc.Due conn d := by
  refine ⟨h.1, ?_⟩
  have hunconsumed := h.2
  simp only [exhaust] at hunconsumed
  by_cases hd : d = d'
  · subst hd
    simp at hunconsumed
  · rwa [Function.update_of_ne hd] at hunconsumed

/-- The call below the last one, when that returns the value. -/
theorem back_eq {f g : Call} {calls : List Call} (hcalls : acc.calls = f :: g :: calls) :
    acc.back value =
      { acc with calls := { g with failed := g.failed || decide (value ≠ 0) } :: calls } := by
  simp only [back, hcalls]

theorem pends_back_of_tail {f g x : Call} {calls : List Call}
    (hcalls : acc.calls = f :: g :: calls) (hx : x ∈ g :: calls)
    (hd : x.direction = d ∨ x.failed = true) : (acc.back value).Pends d := by
  rw [back_eq hcalls]
  rcases List.mem_cons.mp hx with rfl | hx
  · exact ⟨_, List.mem_cons_self, hd.imp_right fun hfailed ↦ by simp [hfailed]⟩
  · exact ⟨x, List.mem_cons_of_mem _ hx, hd⟩

theorem awaits_back_of_tail {f g x : Call} {calls : List Call}
    (hcalls : acc.calls = f :: g :: calls) (hx : x ∈ g :: calls)
    (hd : x.direction = d ∧ x.replaced = false ∨ x.failed = true) : (acc.back value).Awaits d := by
  rw [back_eq hcalls]
  rcases List.mem_cons.mp hx with rfl | hx
  · exact ⟨_, List.mem_cons_self, hd.imp_right fun hfailed ↦ by simp [hfailed]⟩
  · exact ⟨x, List.mem_cons_of_mem _ hx, hd⟩

/-- A call that gets a non-zero value has failed. -/
theorem awaits_back_of_ne {f g : Call} {calls : List Call} (hcalls : acc.calls = f :: g :: calls)
    (hvalue : value ≠ 0) : (acc.back value).Awaits d := by
  rw [back_eq hcalls]
  exact ⟨_, List.mem_cons_self, .inr (by simp [hvalue])⟩

section Back

variable {f g : Call} {calls : List Call} (hcalls : acc.calls = f :: g :: calls)
  (hobeys : acc.Obeys conn f value) (hpass : f.PassesOn value)

include hcalls hobeys hpass

theorem Due.awaits_back (hdue : acc.Due conn d) (h : acc.Awaits d) : (acc.back value).Awaits d := by
  by_cases hvalue : value = 0
  · obtain ⟨x, hx, hcase⟩ := h
    rw [hcalls] at hx
    rcases List.mem_cons.mp hx with rfl | hx
    · -- the call that returns zero has consumed the readiness, or was replaced
      rcases hcase with ⟨rfl, hreplaced⟩ | hfailed
      · rcases hobeys hvalue with hnone | hconsumed | ⟨hreplaced', -⟩
        · exact absurd hnone hdue.1
        · exact absurd (hconsumed.symm.trans hdue.2) Bool.false_ne_true
        · exact absurd (hreplaced.symm.trans hreplaced') Bool.false_ne_true
      · exact absurd hvalue (hpass hfailed)
    · exact awaits_back_of_tail hcalls hx hcase
  · exact awaits_back_of_ne hcalls hvalue

theorem Due.pends_back (hdue : acc.Due conn d) (hcalling : acc.Calling conn d')
    (h : acc.Pends d) : (acc.back value).Pends d := by
  by_cases hvalue : value = 0
  · obtain ⟨x, hx, hcase⟩ := h
    rw [hcalls] at hx
    rcases List.mem_cons.mp hx with rfl | hx
    · rcases hcase with rfl | hfailed
      · rcases hobeys hvalue with hnone | hconsumed | ⟨-, hcalled⟩
        · exact absurd hnone hdue.1
        · exact absurd (hconsumed.symm.trans hdue.2) Bool.false_ne_true
        · exact (hdue.awaits_back hcalls hobeys hpass (hcalling.called _ hcalled hdue)).pends
      · exact absurd hvalue (hpass hfailed)
    · exact pends_back_of_tail hcalls hx hcase
  · exact (awaits_back_of_ne hcalls hvalue).pends

/-- A callback returns to the one that called it. -/
theorem Calling.back (h : acc.Calling conn d') : (acc.back value).Calling conn d' where
  last := by
    obtain ⟨x, hlast, hd⟩ := h.last
    rw [back_eq hcalls]
    rw [hcalls, List.getLast?_cons_cons] at hlast
    cases calls with
    | nil =>
        have hx : g = x := by simpa using hlast
        exact ⟨{ g with failed := g.failed || decide (value ≠ 0) }, rfl, hx ▸ hd⟩
    | cons y calls =>
        rw [List.getLast?_cons_cons] at hlast ⊢
        exact ⟨x, hlast, hd⟩
  called := by
    intro d hcalled hdue
    have heq : acc.back value = _ := back_eq hcalls
    rw [heq] at hcalled hdue
    have hdue : acc.Due conn d := hdue
    exact hdue.awaits_back hcalls hobeys hpass (h.called d hcalled hdue)

end Back

theorem Calling.exhaust (h : acc.Calling conn d') : (acc.exhaust d).Calling conn d' where
  last := h.last
  called := fun x hcalled hdue ↦ h.called x hcalled (due_exhaust hdue)

theorem Calling.push (h : acc.Calling conn d') : (acc.push d).Calling conn d' where
  last := by
    obtain ⟨f, hlast, hd⟩ := h.last
    refine ⟨f, ?_, hd⟩
    cases hcalls : acc.calls with
    | nil => simp [hcalls] at hlast
    | cons g calls =>
        show (_ :: acc.calls).getLast? = some f
        rw [hcalls, List.getLast?_cons_cons, ← hcalls, hlast]
  called := by
    intro x hcalled hdue
    rw [awaits_push]
    by_cases hx : d = x
    · exact .inl hx
    · refine .inr (h.called x ?_ hdue)
      have hcalled : Function.update acc.called d true x = true := hcalled
      rwa [Function.update_of_ne (Ne.symm hx)] at hcalled

/-- The callback of a direction is replaced, and has not been called since. -/
theorem Calling.replace {callback : Option Callback} (h : acc.Calling conn d') :
    (acc.replace d).Calling (conn.setCallback d callback) d' where
  last := by
    obtain ⟨f, hlast, hd⟩ := h.last
    refine ⟨{ f with replaced := f.replaced || decide (f.direction = d) }, ?_, hd⟩
    show (acc.calls.map _).getLast? = _
    rw [List.getLast?_map, hlast]
    rfl
  called := by
    intro x hcalled hdue
    have hcalled : Function.update acc.called d false x = true := hcalled
    have hx : x ≠ d := by
      rintro rfl
      rw [Function.update_self] at hcalled
      cases hcalled
    rw [Function.update_of_ne hx] at hcalled
    have hdue' : acc.Due conn x := by
      refine ⟨?_, hdue.2⟩
      have hinstalled : Function.update conn.callback d callback x ≠ none := hdue.1
      rwa [Function.update_of_ne hx] at hinstalled
    obtain ⟨f, hf, hcase⟩ := h.called x hcalled hdue'
    refine ⟨_, List.mem_map_of_mem hf, hcase.imp_left fun ⟨hd, hreplaced⟩ ↦ ⟨hd, ?_⟩⟩
    simp [hreplaced, hd, hx]

/-! ### What a step of the service keeps -/

/-- Readiness that is to be consumed is recorded. -/
def Recorded (acc : Account) (conn : Connection) : Prop :=
  ∀ d, acc.unconsumed d = true → conn.ready d = true

/-- What a step of a service keeps: readiness stays recorded until it is consumed, and a callback
that is due is one that the service gets to, or was one that it did not get to before. -/
structure Keeps (acc : Account) (conn : Connection) (phase : Phase) (acc' : Account)
    (conn' : Connection) (phase' : Phase) : Prop where
  recorded : acc'.Recorded conn'
  calling : ∀ d removeMe, phase' = .inCallback d removeMe → acc'.Calling conn' d
  covered : ∀ d, acc'.Due conn' d → acc'.Covers (.serving phase') d ∨
    acc.Due conn d ∧ ¬ acc.Covers (.serving phase) d

variable {r : ServiceStep} {removeMe : Bool}

theorem Recorded.calls (h : acc.Recorded conn) (hdue : acc.Due conn d) : conn.calls d = true := by
  unfold Connection.calls
  rw [h d hdue.2, Bool.true_and, Option.isSome_iff_ne_none]
  exact hdue.1

/-- The test for a call. -/
theorem Recorded.keeps_test (h : acc.Recorded conn)
    (hr : conn.serve (.test d removeMe) .go = some r) :
    acc.Keeps conn (.test d removeMe) (acc.serve conn (.test d removeMe) .go) r.conn r.phase := by
  unfold Connection.serve at hr
  unfold serve
  by_cases hcalls : conn.calls d = true
  · dsimp only at hr ⊢
    rw [if_pos hcalls] at hr ⊢
    cases hr
    refine ⟨h, ?_, fun x hdue ↦ ?_⟩
    · rintro d' removeMe' heq
      cases heq
      refine ⟨⟨_, rfl, rfl⟩, fun x hx _ ↦ ?_⟩
      have hx : x = d := of_decide_eq_true hx
      subst hx
      exact ⟨_, List.mem_cons_self, .inl ⟨rfl, rfl⟩⟩
    · have hself : x = d → ({ acc with
          calls := [⟨d, false, false⟩]
          called := fun x ↦ decide (x = d) } : Account).Pends x := by
        rintro rfl
        exact ⟨_, List.mem_cons_self, .inl rfl⟩
      cases d with
      | read =>
          cases x with
          | read => exact .inl (.inr (hself rfl))
          | write => exact .inl (.inl ⟨rfl, rfl⟩)
      | write =>
          cases x with
          | read => exact .inr ⟨hdue, fun heq ↦ nomatch heq⟩
          | write => exact .inl (.inr (hself rfl))
  · dsimp only at hr ⊢
    rw [if_neg hcalls] at hr ⊢
    cases hr
    refine ⟨h, ?_, fun x hdue ↦ ?_⟩
    · rintro d' removeMe' heq
      cases d <;> cases heq
    · have hx : x ≠ d := by
        rintro rfl
        exact hcalls (h.calls hdue)
      cases d with
      | read =>
          cases x with
          | read => exact absurd rfl hx
          | write => exact .inl rfl
      | write =>
          cases x with
          | read => exact .inr ⟨hdue, fun heq ↦ nomatch heq⟩
          | write => exact absurd rfl hx

/-- The test for a connection without callbacks. -/
theorem Recorded.keeps_check (h : acc.Recorded conn)
    (hr : conn.serve (.check removeMe) .go = some r) :
    acc.Keeps conn (.check removeMe) (acc.serve conn (.check removeMe) .go) r.conn r.phase := by
  cases hr
  exact ⟨h, fun _ _ heq ↦ (nomatch heq), fun _ hdue ↦ .inr ⟨hdue, id⟩⟩

/-- A callback sets a callback. -/
theorem Recorded.keeps_setCallback {callback : Option Callback} (h : acc.Recorded conn)
    (hcalling : acc.Calling conn d')
    (hr : conn.serve (.inCallback d' removeMe) (.setCallback d callback) = some r) :
    acc.Keeps conn (.inCallback d' removeMe)
      (acc.serve conn (.inCallback d' removeMe) (.setCallback d callback)) r.conn r.phase := by
  cases hr
  unfold serve
  dsimp only
  by_cases hsame : callback = conn.callback d
  · -- the same callback again
    have hconn : conn.setCallback d callback = conn := by
      rw [Connection.setCallback, hsame, Function.update_eq_self]
    rw [if_pos hsame, hconn]
    refine ⟨h, ?_, fun x hdue ↦ ?_⟩
    · rintro d₁ removeMe₁ ⟨⟩
      exact hcalling
    · exact (Classical.em _).imp_right fun hnot ↦ ⟨hdue, hnot⟩
  · rw [if_neg hsame]
    have hold : ∀ {x}, x ≠ d → ∀ {acc' : Account}, acc'.unconsumed = acc.unconsumed →
        acc'.Due (conn.setCallback d callback) x → acc.Due conn x := by
      intro x hx acc' hunconsumed hdue
      refine ⟨?_, hunconsumed ▸ hdue.2⟩
      have hinstalled : Function.update conn.callback d callback x ≠ none := hdue.1
      rwa [Function.update_of_ne hx] at hinstalled
    have hcovers : ∀ {x} {acc' : Account}, (acc.Pends x → acc'.Pends x) → acc.Due conn x →
        acc'.Covers (.serving (.inCallback d' removeMe)) x ∨
          acc.Due conn x ∧ ¬ acc.Covers (.serving (.inCallback d' removeMe)) x := by
      intro x acc' hpends hdue
      by_cases hcov : acc.Covers (.serving (.inCallback d' removeMe)) x
      · exact .inl (hcov.imp_right hpends)
      · exact .inr ⟨hdue, hcov⟩
    cases hcalled : (conn.poServerSetCallback d callback).2 with
    | some e =>
        have he : e = d := by
          unfold Connection.poServerSetCallback at hcalled
          dsimp only at hcalled
          split_ifs at hcalled
          exact (Option.some.inj hcalled).symm
        subst he
        refine ⟨h, ?_, fun x hdue ↦ ?_⟩
        · rintro d₁ removeMe₁ ⟨⟩
          exact hcalling.replace.push
        · by_cases hx : x = e
          · subst hx
            exact .inl (.inr (pends_push.mpr (.inl rfl)))
          · exact hcovers (fun hpends ↦ pends_push.mpr (.inr (pends_replace.mpr hpends)))
              (hold hx rfl hdue)
    | none =>
        refine ⟨h, ?_, fun x hdue ↦ ?_⟩
        · rintro d₁ removeMe₁ ⟨⟩
          exact hcalling.replace
        · refine hcovers (fun hpends ↦ pends_replace.mpr hpends) ?_
          by_cases hx : x = d
          · -- a callback that is new, and has its event waiting, is called
            subst hx
            have hinstalled : Function.update conn.callback x callback x ≠ none := hdue.1
            rw [Function.update_self] at hinstalled
            refine ⟨fun hnone ↦ ?_, hdue.2⟩
            have hready := h x hdue.2
            have hsome := Option.isSome_iff_ne_none.mpr hinstalled
            simp [Connection.poServerSetCallback, hnone, hsome, hready] at hcalled
          · exact hold hx rfl hdue

/-- A callback returns to the server. -/
theorem Recorded.keeps_returns (h : acc.Recorded conn) (hcalling : acc.Calling conn d')
    (hlen : acc.calls.length ≤ 1)
    (hrule : ∀ f ∈ acc.calls.head?, acc.Obeys conn f value ∧ f.PassesOn value)
    (hr : conn.serve (.inCallback d' removeMe) (.returns value) = some r) :
    acc.Keeps conn (.inCallback d' removeMe)
      (acc.serve conn (.inCallback d' removeMe) (.returns value)) r.conn r.phase := by
  have hr : r = ⟨(conn.callbackReturned d' removeMe value).1, none,
      .after d' (conn.callbackReturned d' removeMe value).2⟩ := (Option.some.inj hr).symm
  subst hr
  unfold serve
  dsimp only
  obtain ⟨f, hcalls, hf⟩ := hcalling.single hlen
  obtain ⟨hobeys, hpass⟩ := hrule f (by rw [hcalls]; rfl)
  have hphase : ∀ b, ∀ d removeMe, Phase.after d' b ≠ .inCallback d removeMe := by
    intro b d removeMe heq
    cases d' <;> cases heq
  by_cases hvalue : value = 0
  · have hnot : f.failed = false := Bool.not_eq_true _ ▸ fun hfailed ↦ hpass hfailed hvalue
    -- the callback is not due when it returns zero
    have hself : ¬ acc.Due conn d' := by
      intro hdue
      subst hf
      rcases hobeys hvalue with hnone | hconsumed | ⟨hreplaced, hcalled⟩
      · exact hdue.1 hnone
      · exact absurd (hconsumed.symm.trans hdue.2) Bool.false_ne_true
      · obtain ⟨g, hg, hcase⟩ := hcalling.called _ hcalled hdue
        rw [hcalls, List.mem_singleton] at hg
        subst hg
        rcases hcase with ⟨-, hg⟩ | hg
        · exact absurd (hg.symm.trans hreplaced) Bool.false_ne_true
        · exact absurd (hnot.symm.trans hg) Bool.false_ne_true
    have hcov : ∀ {x : Direction}, x ≠ d' →
        acc.Covers (.serving (.inCallback d' removeMe)) x → d' = .read ∧ x = .write := by
      rintro x hx (hahead | ⟨g, hg, hcase⟩)
      · exact hahead
      · rw [hcalls, List.mem_singleton] at hg
        subst hg
        rcases hcase with hdir | hfailed
        · exact absurd (hdir.symm.trans hf) hx
        · exact absurd (hnot.symm.trans hfailed) Bool.false_ne_true
    have hunconsumed : ∀ {x : Direction}, acc.unconsumed x = true →
        (conn.callbackReturned d' removeMe value).1.ready x = true := by
      intro x hx
      unfold Connection.callbackReturned
      rw [if_neg (not_not.mpr hvalue)]
      split_ifs with hsome
      · have hne : x ≠ d' := by
          rintro rfl
          exact hself ⟨Option.isSome_iff_ne_none.mp hsome, hx⟩
        show Function.update conn.ready d' false x = true
        rw [Function.update_of_ne hne]
        exact h x hx
      · exact h x hx
    have hcallback : (conn.callbackReturned d' removeMe value).1.callback = conn.callback := by
      unfold Connection.callbackReturned
      rw [if_neg (not_not.mpr hvalue)]
      split_ifs <;> rfl
    refine ⟨fun x hx ↦ hunconsumed hx, fun d₁ removeMe₁ heq ↦ absurd heq (hphase _ _ _),
      fun x hdue ↦ ?_⟩
    have hdue' : acc.Due conn x := ⟨hcallback ▸ hdue.1, hdue.2⟩
    have hx : x ≠ d' := by
      rintro rfl
      exact hself hdue'
    by_cases hcover : acc.Covers (.serving (.inCallback d' removeMe)) x
    · obtain ⟨rfl, rfl⟩ := hcov hx hcover
      exact .inl rfl
    · exact .inr ⟨hdue', hcover⟩
  · have hdropped : (conn.callbackReturned d' removeMe value).1 = conn.dropCallbacks := by
      unfold Connection.callbackReturned
      rw [if_pos hvalue]
    rw [hdropped]
    exact ⟨h, fun d₁ removeMe₁ heq ↦ absurd heq (hphase _ _ _), fun x hdue ↦ absurd rfl hdue.1⟩

/-- **What any step of a service keeps.** -/
theorem Recorded.keeps (h : acc.Recorded conn)
    (hcalling : ∀ d removeMe, phase = .inCallback d removeMe → acc.Calling conn d)
    (hreturns : ∀ value, b = .returns value → acc.calls.length ≤ 1 ∧
      ∀ f ∈ acc.calls.head?, acc.Obeys conn f value ∧ f.PassesOn value)
    (hr : conn.serve phase b = some r) :
    acc.Keeps conn phase (acc.serve conn phase b) r.conn r.phase := by
  cases phase with
  | test d removeMe =>
      cases b with
      | go => exact h.keeps_test hr
      | _ => cases hr
  | check removeMe =>
      cases b with
      | go => exact h.keeps_check hr
      | _ => cases hr
  | done removeMe => cases b <;> cases hr
  | inCallback d' removeMe =>
      have hcalling := hcalling d' removeMe rfl
      cases b with
      | go => cases hr
      | setCallback d callback => exact h.keeps_setCallback hcalling hr
      | setCleanupCallback callback =>
          cases hr
          refine ⟨h, ?_, fun x hdue ↦ ?_⟩
          · rintro d₁ removeMe₁ ⟨⟩
            exact ⟨hcalling.last, hcalling.called⟩
          · exact (Classical.em _).imp_right fun hnot ↦ ⟨hdue, hnot⟩
      | returns value =>
          obtain ⟨hlen, hrule⟩ := hreturns value rfl
          exact h.keeps_returns hcalling hlen hrule hr

end Account

end Tidbits.Server
