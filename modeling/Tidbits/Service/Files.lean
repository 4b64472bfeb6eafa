import Tidbits.Service.Path
import Tidbits.Service.Sending

/-!
# Files over TLS and over plain TCP

`TLSWrite_path()` is called again each time the socket is ready, until a call
returns something else than `2`.  As long as no call stops short with the whole
file read into the buffer, every byte is handed over once and in order, and the
call that hands over the last one returns `0` (`handedOver_of_reach`).  A call that does stop
there has left the mark of a file that was not started.

`TCPWrite_path()` delivers a file whenever `sendfile()` takes all of it at once, and
only then (`filesDelivered_of_reach`).
-/

namespace Tidbits.Service

open Server Transition

/-! ## Calls until the entry is written -/

/-- What has come of the last call. -/
inductive Outcome
  /-- It has not returned. -/
  | pending
  | returned (value : ℤ)
  /-- A failing `ASSERT` has ended the process. -/
  | ended
deriving DecidableEq, Repr

/-- An entry that is being written. -/
structure Writing (Out : Type) where
  out : Out
  /-- The bytes that were handed over. -/
  handed : List UInt8
  outcome : Outcome
deriving DecidableEq, Repr

namespace Writing

variable {Out Result : Type}

/-- The entry is queued. -/
def start (out : Out) : Writing Out := ⟨out, [], .pending⟩

/-- Behind a system call. -/
def next (w : Writing Out) : WriteStep Out → Writing Out
  | .goesOn sent out => ⟨out, w.handed ++ sent, .pending⟩
  | .returns sent out value => ⟨out, w.handed ++ sent, .returned value⟩
  | .ends => { w with outcome := .ended }

/-- The next system call of the call that has not returned, or the first one of the next call. -/
def step (write : Out → Result → Option (WriteStep Out)) (w : Writing Out) (r : Result) :
    Option (Writing Out) :=
  if w.outcome = .pending ∨ w.outcome = .returned 2 then (write w.out r).map w.next else none

theorem step_eq_some {write : Out → Result → Option (WriteStep Out)} {w w' : Writing Out}
    {r : Result} :
    w.step write r = some w' ↔ (w.outcome = .pending ∨ w.outcome = .returned 2) ∧
      ∃ next, write w.out r = some next ∧ w.next next = w' := by
  by_cases h : w.outcome = .pending ∨ w.outcome = .returned 2
  · rw [step, if_pos h, Option.map_eq_some_iff]
    exact ⟨fun hnext ↦ ⟨h, hnext⟩, And.right⟩
  · rw [step, if_neg h]
    exact ⟨fun hnone ↦ (nomatch hnone), fun hnext ↦ absurd hnext.1 h⟩

end Writing

/-! ## TLS -/

/-- The outcomes of a file that can be read and of a connection that goes on: counts, `EAGAIN` and
`EINTR`. -/
def PathResult.Ordinary : PathResult → Prop
  | .lock r => r ≠ .failed
  | .stat ok => ok = true
  | .read r => ∀ interrupted, r ≠ .failed interrupted
  | .send r => r ≠ .count 0 ∧ r ≠ .hungUp ∧ r ≠ .failed

instance (r : PathResult) : Decidable r.Ordinary := by
  cases r <;> unfold PathResult.Ordinary <;> infer_instance

/-- `gnutls_record_send()` stops short, with `GNUTLS_E_AGAIN` or some of the bytes, only while
there is more to read from the file. -/
def OutPathTls.Resumes (p : OutPathTls) (r : PathResult) : Prop :=
  match p.point, r with
  | .send, .send .again => p.fileLeft ≠ 0
  | .send, .send (.count n) => n < p.len - p.i → p.fileLeft ≠ 0
  | _, _ => True

instance (p : OutPathTls) (r : PathResult) : Decidable (p.Resumes r) := by
  unfold OutPathTls.Resumes
  split <;> infer_instance

/-- The steps with ordinary outcomes that stop short only while there is more to read. -/
def Resumes (w : Writing OutPathTls) (r : PathResult) : Prop := r.Ordinary ∧ w.out.Resumes r

instance (w : Writing OutPathTls) (r : PathResult) : Decidable (Resumes w r) :=
  inferInstanceAs (Decidable (_ ∧ _))

namespace OutPathTls

variable {p p' : OutPathTls} {flock : Bool}

/-- The file was not started. -/
structure Fresh (p : OutPathTls) : Prop where
  offset : p.file.offset = 0
  buffer : p.buffer = []
  i : p.i = 0
  fileLeft : p.fileLeft = 0
  point : p.point = .flock ∨ p.point = .fstat

/-- The file was started and is not finished. -/
structure Started (p : OutPathTls) : Prop where
  fileLeft : p.fileLeft = p.file.rest.length
  point : (p.point = .read ∧ p.fileLeft ≠ 0 ∧ p.i ≤ p.len) ∨ (p.point = .send ∧ p.i < p.len)

@[simp] theorem file_enter (p : OutPathTls) : (p.enter flock).file = p.file := by
  unfold enter
  split_ifs <;> rfl

theorem rest_enter (p : OutPathTls) : (p.enter flock).rest = p.rest := by
  unfold enter
  split_ifs <;> rfl

theorem length_buffered (p : OutPathTls) : p.buffered.length = p.len - p.i := List.length_drop

/-- A file that was started goes on while bytes are left. -/
theorem started_fill (hleft : p.fileLeft = p.file.rest.length)
    (hi : p.i < p.len ∨ p.i = 0 ∧ p.buffer = [] ∧ p.fileLeft ≠ 0) : p.fill.Started := by
  refine ⟨hleft, ?_⟩
  by_cases hread : p.len < bufferSize ∧ p.fileLeft ≠ 0
  · refine .inl ⟨if_pos hread, hread.2, ?_⟩
    rcases hi with hi | ⟨hi, -, -⟩
    · exact Nat.le_of_lt hi
    · exact hi ▸ Nat.zero_le _
  · refine .inr ⟨if_neg hread, ?_⟩
    rcases hi with hi | ⟨-, hbuffer, hne⟩
    · exact hi
    · refine absurd ⟨?_, hne⟩ hread
      rw [len, hbuffer]
      decide

theorem Started.rest_ne_nil (h : p.Started) : p.rest ≠ [] := by
  intro hnil
  obtain ⟨hbuffered, hfile⟩ := List.append_eq_nil_iff.mp hnil
  rcases h.point with ⟨-, hne, -⟩ | ⟨-, hi⟩
  · exact hne (h.fileLeft.trans (congrArg List.length hfile))
  · have hlen := p.length_buffered
    rw [hbuffered, List.length_nil] at hlen
    omega

theorem Fresh.rest_eq (h : p.Fresh) : p.rest = p.file.contents := by
  rw [rest, buffered, h.buffer, List.drop_nil, List.nil_append, OpenFile.rest_of_start h.offset]

theorem fresh_entry (call : FileCall) : (entry flock call).Fresh :=
  ⟨rfl, rfl, rfl, rfl, firstPoint_cases _ _⟩

/-- The bytes are conserved, and the function returns `0` when they are all handed over, or goes on
with a file that is not finished. -/
def Goes (p : OutPathTls) : WriteStep OutPathTls → Prop
  | .goesOn sent p' =>
      p'.file.contents = p.file.contents ∧ sent ++ p'.rest = p.rest ∧ (p'.Fresh ∨ p'.Started)
  | .returns sent p' value =>
      p'.file.contents = p.file.contents ∧
        (value = 2 ∧ sent ++ p'.rest = p.rest ∧ p'.Started ∨ value = 0 ∧ sent = p.rest)
  | .ends => False

/-- `flock()` and `fstat()`. -/
theorem Fresh.goes {r : PathResult} {next : WriteStep OutPathTls} (h : p.Fresh)
    (hsize : p.file.contents ≠ []) (hr : r.Ordinary) (hnext : tlsWritePath flock p r = some next) :
    p.Goes next := by
  have hlength : p.file.size ≠ 0 := fun heq ↦ hsize (List.length_eq_zero_iff.mp heq)
  rcases h.point with hpoint | hpoint
  · unfold tlsWritePath at hnext
    rw [hpoint] at hnext
    rcases r with (_ | _ | _) | ok | r | r
    · cases hnext
      exact ⟨rfl, rfl, .inl ⟨h.offset, h.buffer, h.i, h.fileLeft, .inr rfl⟩⟩
    · cases hnext
      exact ⟨rfl, rfl, .inl h⟩
    · exact absurd rfl hr
    · cases hnext
    · cases hnext
    · cases hnext
  · unfold tlsWritePath at hnext
    rw [hpoint] at hnext
    rcases r with r | (_ | _) | r | r
    · cases hnext
    · cases hr
    · simp only [if_neg hlength, loop, if_pos (Or.inl hlength), Option.some.injEq] at hnext
      subst hnext
      refine ⟨rfl, rfl, .inr (started_fill ?_ (.inr ⟨h.i, h.buffer, hlength⟩))⟩
      rw [OpenFile.length_rest, h.offset]
      rfl
    · cases hnext
    · cases hnext

/-- `read()` moves bytes of the file to the buffer. -/
theorem rest_read {n : ℕ} (hi : p.i ≤ p.len) :
    { p with
      file := p.file.advance n
      buffer := p.buffer ++ p.file.rest.take n
      fileLeft := p.fileLeft - n }.fill.rest = p.rest := by
  calc
    _ = (p.buffer ++ p.file.rest.take n).drop p.i ++ (p.file.advance n).rest := rfl
    _ = (p.buffered ++ p.file.rest.take n) ++ (p.file.advance n).rest := by
      rw [List.drop_append_of_le_length hi]
      rfl
    _ = p.rest := by rw [List.append_assoc, OpenFile.take_append_rest_advance, rest]

/-- `gnutls_record_send()` takes some of the bytes of the buffer. -/
theorem take_append_rest (n : ℕ) : p.buffered.take n ++ { p with i := p.i + n }.rest = p.rest := by
  have hbuffered : { p with i := p.i + n }.buffered = p.buffered.drop n := by
    rw [buffered, buffered, List.drop_drop]
  rw [rest, hbuffered, ← List.append_assoc, List.take_append_drop, rest]

/-- `read()`. -/
theorem Started.goes_read {r : FileRead} {next : WriteStep OutPathTls} (h : p.Started)
    (hpoint : p.point = .read) (hi : p.i ≤ p.len) (hne : p.fileLeft ≠ 0)
    (hr : (PathResult.read r).Ordinary) (hnext : tlsWritePath flock p (.read r) = some next) :
    p.Goes next := by
  unfold tlsWritePath at hnext
  rw [hpoint] at hnext
  cases r with
  | count n =>
      dsimp only at hnext
      split_ifs at hnext with hn
      cases hnext
      obtain ⟨hpos, -, hle⟩ := hn
      refine ⟨rfl, rest_read hi, .inr (started_fill ?_ (.inl ?_))⟩
      · show p.fileLeft - n = (p.file.advance n).rest.length
        rw [OpenFile.rest_advance, List.length_drop, h.fileLeft]
      · have hread : (p.file.rest.take n).length = n := List.length_take_of_le hle
        show p.i < (p.buffer ++ p.file.rest.take n).length
        rw [List.length_append, hread]
        exact Nat.lt_of_le_of_lt hi (Nat.lt_add_of_pos_right hpos)
  | endOfFile interrupted =>
      dsimp only at hnext
      split_ifs at hnext with hend
      all_goals exact absurd (h.fileLeft.trans (congrArg List.length hend)) hne
  | failed interrupted => exact absurd rfl (hr interrupted)

/-- `gnutls_record_send()`. -/
theorem Started.goes_send {r : SendResult} {next : WriteStep OutPathTls} (h : p.Started)
    (hpoint : p.point = .send) (hi : p.i < p.len) (hr : (PathResult.send r).Ordinary)
    (hresumes : p.Resumes (.send r)) (hnext : tlsWritePath flock p (.send r) = some next) :
    p.Goes next := by
  unfold tlsWritePath at hnext
  rw [hpoint] at hnext
  cases r with
  | count n =>
      dsimp only at hnext
      split_ifs at hnext with hle hpos hfull hleft
      · cases hnext
        have hall : p.buffered.take n = p.buffered := by
          rw [hfull, ← p.length_buffered, List.take_length]
        refine ⟨rfl, ?_, .inr (started_fill h.fileLeft (.inr ⟨rfl, rfl, hleft⟩))⟩
        rw [hall]
        rfl
      · cases hnext
        have hend : p.file.rest = [] :=
          List.length_eq_zero_iff.mp (h.fileLeft.symm.trans (not_not.mp hleft))
        refine ⟨by rw [file_enter], .inr ⟨rfl, ?_⟩⟩
        rw [hfull, ← p.length_buffered, List.take_length, rest, hend, List.append_nil]
      · cases hnext
        have hlt : n < p.len - p.i := Nat.lt_of_le_of_ne hle hfull
        have hleft : p.fileLeft ≠ 0 := by
          rw [Resumes.eq_2 p n hpoint] at hresumes
          exact hresumes hlt
        refine ⟨by rw [file_enter], .inl ⟨rfl, ?_, ?_⟩⟩
        · rw [rest_enter]
          exact take_append_rest n
        · rw [enter, if_neg hleft]
          exact started_fill h.fileLeft (.inl (Nat.add_lt_of_lt_sub' hlt))
      · exact absurd (Nat.eq_zero_of_not_pos hpos) fun heq ↦ hr.1 (heq ▸ rfl)
  | again =>
      cases hnext
      have hleft : p.fileLeft ≠ 0 := by
        rw [Resumes.eq_1 p hpoint] at hresumes
        exact hresumes
      refine ⟨by rw [file_enter], .inl ⟨rfl, rest_enter p, ?_⟩⟩
      rw [enter, if_neg hleft]
      exact started_fill h.fileLeft (.inl hi)
  | interrupted =>
      have hloop : p.loop flock = .goesOn [] p.fill := if_pos (.inr hi)
      cases Option.some.inj (hloop ▸ hnext)
      exact ⟨rfl, rfl, .inr (started_fill h.fileLeft (.inl hi))⟩
  | hungUp => exact absurd rfl hr.2.1
  | failed => exact absurd rfl hr.2.2

theorem Started.goes {r : PathResult} {next : WriteStep OutPathTls} (h : p.Started)
    (hr : r.Ordinary) (hresumes : p.Resumes r) (hnext : tlsWritePath flock p r = some next) :
    p.Goes next := by
  rcases h.point with ⟨hpoint, hne, hi⟩ | ⟨hpoint, hi⟩
  · cases r with
    | read r => exact h.goes_read hpoint hi hne hr hnext
    | _ =>
        unfold tlsWritePath at hnext
        rw [hpoint] at hnext
        cases hnext
  · cases r with
    | send r => exact h.goes_send hpoint hi hr hresumes hnext
    | _ =>
        unfold tlsWritePath at hnext
        rw [hpoint] at hnext
        cases hnext

/-! ### A file that is taken for a new one -/

/-- The file is read to its end, and there is no other way on than to start it again. -/
structure Stuck (p : OutPathTls) : Prop where
  rest : p.file.rest = []
  size : p.file.size ≠ 0
  restarts : p.fileLeft = 0 → p.point = .flock ∨ p.point = .fstat

theorem Stuck.enter (h : p.Stuck) : (p.enter flock).Stuck := by
  unfold OutPathTls.enter
  split_ifs with hleft
  · exact ⟨h.rest, h.size, fun _ ↦ firstPoint_cases _ _⟩
  · exact ⟨h.rest, h.size, fun heq ↦ absurd heq hleft⟩

/-- Not finished. -/
def Sticks : WriteStep OutPathTls → Prop
  | .goesOn _ p' => p'.Stuck
  | .returns _ p' value => p'.Stuck ∧ value ≠ 0
  | .ends => True

theorem Stuck.loop (h : p.Stuck) (hleft : p.fileLeft ≠ 0) : Sticks (p.loop flock) := by
  rw [OutPathTls.loop, if_pos (Or.inl hleft)]
  exact ⟨h.rest, h.size, fun heq ↦ absurd heq hleft⟩

theorem Stuck.sticks {r : PathResult} {next : WriteStep OutPathTls} (h : p.Stuck)
    (hnext : tlsWritePath flock p r = some next) : Sticks next := by
  have hleft : p.point = .read ∨ p.point = .send → p.fileLeft ≠ 0 := by
    intro hpoint heq
    rcases h.restarts heq with hstart | hstart <;> rw [hstart] at hpoint <;>
      exact absurd hpoint (by decide)
  unfold tlsWritePath at hnext
  split at hnext
  case h_1 =>
    cases hnext
    exact ⟨h.rest, h.size, fun _ ↦ .inr rfl⟩
  case h_2 hpoint =>
    cases hnext
    exact h
  case h_3 hpoint =>
    cases hnext
    exact ⟨h.enter, by decide⟩
  case h_4 hpoint =>
    rw [if_neg h.size] at hnext
    cases hnext
    exact Stuck.loop ⟨h.rest, h.size, fun heq ↦ absurd heq h.size⟩ h.size
  case h_5 =>
    cases hnext
    trivial
  case h_6 n hpoint =>
    -- there is nothing to read
    split_ifs at hnext with hn
    have hle := hn.2.2
    rw [h.rest] at hle
    exact absurd hn.1 (Nat.not_lt.mpr hle)
  case h_7 interrupted hpoint =>
    split_ifs at hnext <;> cases hnext
    · exact h
    · exact ⟨h.enter, by decide⟩
  case h_8 interrupted hpoint =>
    split_ifs at hnext <;> cases hnext
    · exact h
    · exact ⟨h.enter, by decide⟩
  case h_9 n hpoint =>
    have hne := hleft (.inr hpoint)
    split_ifs at hnext with hle hpos hfull <;> cases hnext
    · exact ⟨h.rest, h.size, fun heq ↦ absurd heq hne⟩
    · exact ⟨Stuck.enter ⟨h.rest, h.size, fun heq ↦ absurd heq hne⟩, by decide⟩
    · exact ⟨h.enter, by decide⟩
  case h_10 hpoint =>
    cases hnext
    exact ⟨h.enter, by decide⟩
  case h_11 hpoint =>
    cases hnext
    exact h.loop (hleft (.inr hpoint))
  case h_12 hpoint =>
    cases hnext
    exact ⟨h.enter, by decide⟩
  case h_13 hpoint =>
    cases hnext
    exact ⟨h.enter, by decide⟩
  case h_14 => cases hnext

end OutPathTls

/-! ### Runs -/

section TLS

variable {w w' : Writing OutPathTls} {flock : Bool} {call : FileCall} {contents : List UInt8}

/-- The output of a file over TLS. -/
structure HandedOver (contents : List UInt8) (w : Writing OutPathTls) : Prop where
  /-- Every byte was handed over at most once, and in order. -/
  handed : w.handed <+: contents
  /-- The call that hands over the last byte returns `0`, and no other does. -/
  success : w.outcome = .returned 0 ↔ w.handed = contents
  noFailure : w.outcome ≠ .returned (-1)

/-- The file is written, or it goes on. -/
structure Writing.Kept (contents : List UInt8) (w : Writing OutPathTls) : Prop where
  file : w.out.file.contents = contents
  outcome : (w.outcome = .returned 0 ∧ w.handed = contents) ∨
    ((w.outcome = .pending ∨ w.outcome = .returned 2) ∧ w.handed ++ w.out.rest = contents ∧
      (w.out.Fresh ∨ w.out.Started))

theorem Writing.kept_start (call : FileCall) :
    Kept call.contents (.start (OutPathTls.entry flock call)) :=
  ⟨rfl, .inr ⟨.inl rfl, rfl, .inl (OutPathTls.fresh_entry call)⟩⟩

theorem Writing.Kept.next (h : w.Kept contents) (hrest : w.handed ++ w.out.rest = contents)
    {n : WriteStep OutPathTls} (hn : w.out.Goes n) : (w.next n).Kept contents := by
  cases n with
  | goesOn sent out =>
      obtain ⟨hfile, hsent, hstage⟩ := hn
      refine ⟨hfile.trans h.file, .inr ⟨.inl rfl, ?_, hstage⟩⟩
      rw [← hrest, ← hsent, ← List.append_assoc]
      rfl
  | returns sent out value =>
      obtain ⟨hfile, ⟨rfl, hsent, hstarted⟩ | ⟨rfl, hsent⟩⟩ := hn
      · refine ⟨hfile.trans h.file, .inr ⟨.inr rfl, ?_, .inr hstarted⟩⟩
        rw [← hrest, ← hsent, ← List.append_assoc]
        rfl
      · refine ⟨hfile.trans h.file, .inl ⟨rfl, ?_⟩⟩
        rw [← hrest, ← hsent]
        rfl
  | ends => exact hn.elim

theorem Writing.Kept.step {r : PathResult} (hne : contents ≠ []) (h : w.Kept contents)
    (hok : Resumes w r) (hs : w.step (tlsWritePath flock) r = some w') : w'.Kept contents := by
  obtain ⟨hgoing, n, hnext, rfl⟩ := Writing.step_eq_some.mp hs
  rcases h.outcome with ⟨hdone, -⟩ | ⟨-, hrest, hfresh | hstarted⟩
  · rw [hdone] at hgoing
    exact absurd hgoing (by decide)
  · exact h.next hrest (hfresh.goes (h.file ▸ hne) hok.1 hnext)
  · exact h.next hrest (hstarted.goes hok.1 hok.2 hnext)

theorem Writing.Kept.handedOver (hne : contents ≠ []) (h : w.Kept contents) :
    HandedOver contents w := by
  rcases h.outcome with ⟨hdone, hall⟩ | ⟨hgoing, hrest, hstage⟩
  · refine ⟨hall ▸ List.prefix_refl _, ⟨fun _ ↦ hall, fun _ ↦ hdone⟩, ?_⟩
    rw [hdone]
    decide
  · have hleft : w.out.rest ≠ [] := by
      rcases hstage with hfresh | hstarted
      · rw [hfresh.rest_eq, h.file]
        exact hne
      · exact hstarted.rest_ne_nil
    refine ⟨⟨_, hrest⟩, ⟨fun hdone ↦ ?_, fun hall ↦ ?_⟩, fun hfailed ↦ ?_⟩
    · rw [hdone] at hgoing
      exact absurd hgoing (by decide)
    · rw [hall] at hrest
      exact absurd (List.append_right_eq_self.mp hrest) hleft
    · rw [hfailed] at hgoing
      exact absurd hgoing (by decide)

/-- What it takes to stop short with nothing left to read. -/
theorem OutPathTls.stops_of_not_resumes {p : OutPathTls} {r : PathResult} (h : ¬ p.Resumes r) :
    p.point = .send ∧ p.fileLeft = 0 ∧
      (r = .send .again ∨ ∃ n, r = .send (.count n) ∧ n < p.len - p.i) := by
  unfold Resumes at h
  split at h
  · exact ⟨‹_›, not_not.mp h, .inl rfl⟩
  · rename_i n hpoint
    obtain ⟨hlt, hleft⟩ := Classical.not_imp.mp h
    exact ⟨hpoint, not_not.mp hleft, .inr ⟨n, rfl, hlt⟩⟩
  · exact absurd trivial h

/-- The call that stops short leaves a file that is taken for a new one. -/
theorem Writing.Kept.stuck {r : PathResult} (hne : contents ≠ []) (h : w.Kept contents)
    (hr : r.Ordinary) (hstops : ¬ w.out.Resumes r)
    (hs : w.step (tlsWritePath flock) r = some w') :
    w'.outcome = .returned 2 ∧ w'.out.Stuck ∧ w'.out.fileLeft = 0 ∧ w'.out.i < w'.out.len := by
  obtain ⟨hpoint, hleft, hshort⟩ := OutPathTls.stops_of_not_resumes hstops
  obtain ⟨hgoing, next, hnext, rfl⟩ := Writing.step_eq_some.mp hs
  have hstarted : w.out.Started := by
    rcases h.outcome with ⟨hdone, -⟩ | ⟨-, -, hfresh | hstarted⟩
    · rw [hdone] at hgoing
      exact absurd hgoing (by decide)
    · have hstart := hfresh.point
      rw [hpoint] at hstart
      exact absurd hstart (by decide)
    · exact hstarted
  have hstuck : w.out.file.rest = [] ∧ w.out.file.size ≠ 0 :=
    ⟨List.length_eq_zero_iff.mp (hstarted.fileLeft ▸ hleft),
      fun heq ↦ hne (h.file ▸ List.length_eq_zero_iff.mp heq)⟩
  have hi : w.out.i < w.out.len := by
    rcases hstarted.point with ⟨hread, -⟩ | ⟨-, hi⟩
    · exact nomatch hread.symm.trans hpoint
    · exact hi
  unfold tlsWritePath at hnext
  rw [hpoint] at hnext
  rcases hshort with rfl | ⟨n, rfl, hlt⟩
  · cases hnext
    have henter : w.out.enter flock =
        { w.out with point := firstPoint flock w.out.haveFLock } := if_pos hleft
    rw [Writing.next, henter]
    exact ⟨rfl, ⟨hstuck.1, hstuck.2, fun _ ↦ firstPoint_cases _ _⟩, hleft, hi⟩
  · have hpos : 0 < n := Nat.pos_of_ne_zero fun heq ↦ hr.1 (heq ▸ rfl)
    dsimp only at hnext
    rw [if_pos (Nat.le_of_lt hlt), if_pos hpos, if_neg (Nat.ne_of_lt hlt)] at hnext
    cases hnext
    rw [Writing.next, OutPathTls.enter, if_pos hleft]
    exact ⟨rfl, ⟨hstuck.1, hstuck.2, fun _ ↦ firstPoint_cases _ _⟩, hleft,
      Nat.add_lt_of_lt_sub' hlt⟩

/-- A file that is stuck is never finished. -/
theorem Writing.not_finished_of_stuck {ok : Writing OutPathTls → PathResult → Prop}
    (hstuck : w.out.Stuck) (houtcome : w.outcome ≠ .returned 0)
    (h : Reach (Writing.step (tlsWritePath flock)) ok w w') : w'.outcome ≠ .returned 0 := by
  have hboth : w'.out.Stuck ∧ w'.outcome ≠ .returned 0 := by
    refine h.invariant (I := fun w ↦ w.out.Stuck ∧ w.outcome ≠ .returned 0) ⟨hstuck, houtcome⟩ ?_
    rintro t u r ⟨ht, hne⟩ - hs
    obtain ⟨-, n, hnext, rfl⟩ := Writing.step_eq_some.mp hs
    have hn := ht.sticks hnext
    cases n with
    | goesOn sent out => exact ⟨hn, fun heq ↦ nomatch heq⟩
    | returns sent out value => exact ⟨hn.1, fun heq ↦ hn.2 (Outcome.returned.inj heq)⟩
    | ends => exact ⟨ht, fun heq ↦ nomatch heq⟩
  exact hboth.2

/-- A run on which every outcome is ordinary. -/
def Ordinary (_ : Writing OutPathTls) (r : PathResult) : Prop := r.Ordinary

instance (w : Writing OutPathTls) (r : PathResult) : Decidable (Ordinary w r) :=
  inferInstanceAs (Decidable r.Ordinary)

/-- A call can go on to fail. -/
def Fails (flock : Bool) (w : Writing OutPathTls) : Prop :=
  ∃ w', Reach (Writing.step (tlsWritePath flock)) Ordinary w w' ∧ w'.outcome = .returned (-1)

theorem Fails.of_next (r : PathResult) {n : WriteStep OutPathTls}
    (hgoing : w.outcome = .pending ∨ w.outcome = .returned 2) (hr : r.Ordinary)
    (hnext : tlsWritePath flock w.out r = some n) (h : Fails flock (w.next n)) :
    Fails flock w := by
  obtain ⟨w', hreach, hfailed⟩ := h
  exact ⟨w', hreach.head hr (Writing.step_eq_some.mpr ⟨hgoing, n, hnext, rfl⟩), hfailed⟩

/-- `read()` returns `0` where bytes are expected. -/
theorem fails_of_read (hgoing : w.outcome = .pending) (hpoint : w.out.point = .read)
    (hrest : w.out.file.rest = []) : Fails flock w := by
  have hnext : tlsWritePath flock w.out (.read (.endOfFile false)) =
      some (.returns [] (w.out.enter flock) (-1)) := by
    unfold tlsWritePath
    rw [hpoint]
    exact if_pos hrest
  exact .of_next (.read (.endOfFile false)) (.inl hgoing) (fun _ heq ↦ nomatch heq) hnext
    ⟨_, .refl, rfl⟩

/-- The rest of the buffer is sent first, if the buffer is full. -/
theorem fails_of_fill (hgoing : w.outcome = .pending) (hfill : w.out = w.out.fill)
    (hrest : w.out.file.rest = []) (hleft : w.out.fileLeft ≠ 0) (hi : w.out.i < w.out.len) :
    Fails flock w := by
  by_cases hroom : w.out.len < bufferSize
  · refine fails_of_read hgoing ?_ hrest
    rw [hfill]
    exact if_pos ⟨hroom, hleft⟩
  · have hpoint : w.out.point = .send := by
      rw [hfill]
      exact if_neg fun hread ↦ hroom hread.1
    have hpos : 0 < w.out.len - w.out.i := Nat.sub_pos_of_lt hi
    have hnext : tlsWritePath flock w.out (.send (.count (w.out.len - w.out.i))) =
        some (.goesOn (w.out.buffered.take (w.out.len - w.out.i))
          { w.out with buffer := [], i := 0 }.fill) := by
      unfold tlsWritePath
      rw [hpoint]
      dsimp only
      rw [if_pos (Nat.le_refl _), if_pos hpos, if_pos rfl, if_pos hleft]
      rfl
    have hordinary : (PathResult.send (.count (w.out.len - w.out.i))).Ordinary :=
      ⟨fun heq ↦ absurd (SendResult.count.inj heq) (Nat.ne_of_gt hpos), fun heq ↦ (nomatch heq),
        fun heq ↦ nomatch heq⟩
    have hempty : 0 < bufferSize := by decide
    exact .of_next _ (.inl hgoing) hordinary hnext
      (fails_of_read rfl (if_pos ⟨hempty, hleft⟩) hrest)

/-- A file that is taken for a new one is read again, at its end. -/
theorem fails_of_stuck (hgoing : w.outcome = .pending ∨ w.outcome = .returned 2)
    (hstuck : w.out.Stuck) (hleft : w.out.fileLeft = 0) (hi : w.out.i < w.out.len) :
    Fails flock w := by
  have hstat : ∀ {w : Writing OutPathTls}, (w.outcome = .pending ∨ w.outcome = .returned 2) →
      w.out.Stuck → w.out.i < w.out.len → w.out.point = .fstat → Fails flock w := by
    intro w hgoing hstuck hi hpoint
    have hnext : tlsWritePath flock w.out (.stat true) =
        some (.goesOn [] { w.out with fileLeft := w.out.file.size }.fill) := by
      unfold tlsWritePath
      rw [hpoint]
      dsimp only
      rw [if_neg hstuck.size, OutPathTls.loop, if_pos (Or.inl hstuck.size)]
      rfl
    exact .of_next (.stat true) hgoing rfl hnext (fails_of_fill rfl rfl hstuck.rest hstuck.size hi)
  rcases hstuck.restarts hleft with hpoint | hpoint
  · have hnext : tlsWritePath flock w.out (.lock .locked) =
        some (.goesOn [] { w.out with point := .fstat }) := by
      unfold tlsWritePath
      rw [hpoint]
    exact .of_next (.lock .locked) hgoing (fun heq ↦ nomatch heq) hnext
      (hstat (.inl rfl) ⟨hstuck.rest, hstuck.size, fun _ ↦ .inr rfl⟩ hi rfl)
  · exact hstat hgoing hstuck hi hpoint

/-- **TLS hands over a file once and in order**, whatever the counts, as long as no call stops
short with nothing left to read.  After the first one that does, no call returns `0`, and one can
fail. -/
theorem handedOver_of_reach (hne : call.contents ≠ [])
    (h : Reach (Writing.step (tlsWritePath flock)) Resumes
      (.start (OutPathTls.entry flock call)) w) :
    HandedOver call.contents w ∧
      ∀ r w', r.Ordinary → ¬ w.out.Resumes r → w.step (tlsWritePath flock) r = some w' →
        (∀ t, Reach (Writing.step (tlsWritePath flock)) Any w' t → t.outcome ≠ .returned 0) ∧
          ∃ t, Reach (Writing.step (tlsWritePath flock)) Ordinary w' t ∧
            t.outcome = .returned (-1) := by
  have hkept : w.Kept call.contents :=
    h.invariant (Writing.kept_start call) fun hk hok hs ↦ hk.step hne hok hs
  refine ⟨hkept.handedOver hne, fun r w' hr hstops hs ↦ ?_⟩
  obtain ⟨houtcome, hstuck, hleft, hi⟩ := hkept.stuck hne hr hstops hs
  refine ⟨fun t ht ↦ Writing.not_finished_of_stuck hstuck ?_ ht,
    fails_of_stuck (.inr houtcome) hstuck hleft hi⟩
  rw [houtcome]
  decide

/-- A file of one byte more than the buffer holds. -/
def longerFile : FileCall := ⟨List.replicate 1025 7, false⟩

/-- `gnutls_record_send()` asks to be called again when a byte of the file is left, and the next call
sends the rest of the file. -/
theorem handedOver_of_longerFile :
    ∃ v w, Reach (Writing.step (tlsWritePath false)) Resumes
        (.start (OutPathTls.entry false longerFile)) v ∧
      (v.outcome = .returned 2 ∧ v.out.fileLeft = 1 ∧ v.handed = []) ∧
      Reach (Writing.step (tlsWritePath false)) Resumes
        (.start (OutPathTls.entry false longerFile)) w ∧
      w.outcome = .returned 0 ∧ HandedOver longerFile.contents w ∧
      ∀ r w', r.Ordinary → ¬ w.out.Resumes r → w.step (tlsWritePath false) r = some w' →
        (∀ t, Reach (Writing.step (tlsWritePath false)) Any w' t → t.outcome ≠ .returned 0) ∧
          ∃ t, Reach (Writing.step (tlsWritePath false)) Ordinary w' t ∧
            t.outcome = .returned (-1) := by
  obtain ⟨v, ⟨hv, hagain⟩, w, hvw, hw⟩ :
      ∃ v, (Reach (Writing.step (tlsWritePath false)) Resumes
          (.start (OutPathTls.entry false longerFile)) v ∧
        (v.outcome = .returned 2 ∧ v.out.fileLeft = 1 ∧ v.handed = [])) ∧
        ∃ w, Reach (Writing.step (tlsWritePath false)) Resumes v w ∧ w.outcome = .returned 0 :=
    exists_reach_reach_of_exec
      [.stat true, .read (.count 1000), .read (.count 24), .send .interrupted, .send .again]
      [.send (.count 1024), .read (.count 1), .send (.count 1)] (by decide +kernel)
  have hne : longerFile.contents ≠ [] := by decide +kernel
  exact ⟨v, w, hv, hagain, hv.trans hvw, hw, handedOver_of_reach hne (hv.trans hvw)⟩

/-- `gnutls_record_send()` asks to be called again when the file of one byte is in the buffer, and
the next call fails. -/
theorem not_handedOver_of_again : ¬ ∀ (call : FileCall) (w : Writing OutPathTls),
    call.contents ≠ [] → Reach (Writing.step (tlsWritePath false)) Ordinary
      (.start (OutPathTls.entry false call)) w → HandedOver call.contents w := by
  obtain ⟨w, hreach, hfailed⟩ :
      ∃ w, Reach (Writing.step (tlsWritePath false)) Ordinary
        (.start (OutPathTls.entry false ⟨[1], false⟩)) w ∧ w.outcome = .returned (-1) :=
    exists_reach_of_exec_decide
      [.stat true, .read (.count 1), .send .again, .stat true, .read (.endOfFile false)]
      (by decide)
  exact fun h ↦ (h ⟨[1], false⟩ w (by decide) hreach).noFailure hfailed

end TLS

/-! ## Plain TCP -/

/-- A service over plain TCP whose sessions send buffers and files. -/
abbrev Limits.tcpWithFiles (l : Limits) (flock : Bool) :
    Config (SendCall ⊕ FileCall) (OutBuffer ⊕ OutPath) (SendResult ⊕ PathResult) :=
  { l with tls := false, writer := (tcpBuffers l.chunkLen).either (tcpPaths flock) }

/-- `sendfile()` takes the whole file when it takes anything. -/
def OutPath.TakesWhole (p : OutPath) (r : PathResult) : Prop :=
  match p.point, r with
  | .send, .send (.count n) => 0 < n → n = p.file.size
  | _, _ => True

instance (p : OutPath) (r : PathResult) : Decidable (p.TakesWhole r) := by
  unfold OutPath.TakesWhole
  split <;> infer_instance

/-- A system call has failed for another reason than that the socket is exhausted or closed. -/
def PathResult.Fails (r : PathResult) : Prop := r = .lock .failed ∨ r = .send .failed

namespace OutPath

variable {p : OutPath} {flock : Bool} {r : PathResult}

/-- The bytes that were not sent, of an entry of either kind. -/
abbrev restOf : OutBuffer ⊕ OutPath → List UInt8 := Sum.elim OutBuffer.rest OutPath.rest

/-- `TCPWrite_path()` conserves the bytes as long as `sendfile()` takes all or none. -/
theorem conserves : (tcpPaths flock).Conserves OutPath.rest TakesWhole := by
  intro p r next hwhole hnext
  have hkept : p.rest = [] ++ p.rest ∧ (p.rest ≠ [] → p.rest ≠ []) := ⟨rfl, id⟩
  have hwrite : tcpWritePath flock p r = some next := hnext
  unfold tcpWritePath at hwrite
  split at hwrite
  case h_1 | h_2 | h_8 =>
    cases hwrite
    exact hkept
  case h_3 | h_7 | h_9 | h_10 =>
    cases hwrite
    exact ⟨fun hvalue ↦ (nomatch hvalue), fun _ ↦ hkept⟩
  case h_4 hpoint =>
    split_ifs at hwrite <;> cases hwrite
    · exact ⟨fun hvalue ↦ (nomatch hvalue), fun _ ↦ hkept⟩
    · exact hkept
  case h_5 =>
    cases hwrite
    trivial
  case h_6 n hpoint =>
    rw [TakesWhole.eq_1 p n hpoint] at hwhole
    split_ifs at hwrite with hn hall <;> cases hwrite
    · refine ⟨fun _ ↦ (List.take_of_length_le ?_).symm, fun hvalue ↦ absurd rfl hvalue⟩
      rw [hall, OutPath.rest, OpenFile.length_rest]
      exact Nat.sub_le _ _
    · have hzero : n = 0 := Nat.eq_zero_of_not_pos fun hpos ↦ hall (hwhole hpos)
      refine ⟨fun hvalue ↦ (nomatch hvalue), fun _ ↦ ⟨?_, fun hne ↦ absurd (hn.2 hzero) hne⟩⟩
      exact (p.file.take_append_rest_advance n).symm
  case h_11 => cases hwrite

/-- A file that is not finished fails only when a system call does. -/
theorem fails_of_failed {sent : List UInt8} {p' : OutPath} (hrest : p.rest ≠ [])
    (hwhole : p.TakesWhole r) (hwrite : tcpWritePath flock p r = some (.returns sent p' (-1))) :
    r.Fails := by
  unfold tcpWritePath at hwrite
  split at hwrite
  case h_3 => exact .inl rfl
  case h_10 => exact .inr rfl
  case h_4 hpoint =>
    split_ifs at hwrite with hsize
    · have hlen := p.file.length_rest
      rw [hsize, Nat.zero_sub] at hlen
      exact absurd (List.length_eq_zero_iff.mp hlen) hrest
    · cases hwrite
  case h_6 n hpoint =>
    rw [TakesWhole.eq_1 p n hpoint] at hwhole
    split_ifs at hwrite with hn hall
    · cases hwrite
    · have hzero : n = 0 := Nat.eq_zero_of_not_pos fun hpos ↦ hall (hwhole hpos)
      exact absurd (hn.2 hzero) hrest
  all_goals cases hwrite

/-- A file of which `sendfile()` takes a part fails, though no system call does. -/
theorem fails_of_part {next : WriteStep OutPath} (hpart : ¬ p.TakesWhole r)
    (hwrite : tcpWritePath flock p r = some next) :
    ¬ r.Fails ∧ ∃ sent p', next = .returns sent p' (-1) := by
  unfold TakesWhole at hpart
  split at hpart
  · rename_i n hpoint
    obtain ⟨hpos, hne⟩ := Classical.not_imp.mp hpart
    unfold tcpWritePath at hwrite
    rw [hpoint] at hwrite
    dsimp only at hwrite
    split_ifs at hwrite with hn
    cases hwrite
    exact ⟨fun hfails ↦ hfails.elim (fun heq ↦ (nomatch heq)) fun heq ↦ (nomatch heq), _, _, rfl⟩
  · exact absurd trivial hpart

end OutPath

/-- The files that are sent are not empty, and `sendfile()` takes them whole. -/
def SendsFiles (s : Session (OutBuffer ⊕ OutPath))
    (a : Action (SendCall ⊕ FileCall) (SendResult ⊕ PathResult)) : Prop :=
  match a, s.queue with
  | .send (.inr call), _ => call.contents ≠ []
  | .write r, e :: _ => Either (fun _ _ ↦ True) OutPath.TakesWhole e.out r
  | _, _ => True

instance (s : Session (OutBuffer ⊕ OutPath))
    (a : Action (SendCall ⊕ FileCall) (SendResult ⊕ PathResult)) : Decidable (SendsFiles s a) := by
  unfold SendsFiles Either
  repeat (split <;> try infer_instance)

/-- The output of a session that sends files. -/
structure FilesDelivered (s : Session (OutBuffer ⊕ OutPath)) : Prop where
  /-- The accepted bytes are a beginning of what was queued, in the order it was queued. -/
  accepted : s.accepted <+: s.queued.flatMap OutPath.restOf
  handed : s.control ≠ .removed → ∀ i p, s.queued[i]? = some (.inr p) →
    s.handed i <+: p.file.contents
  /-- A file is finished when its last byte was accepted. -/
  freed : s.control ≠ .removed → ∀ i p, s.queued[i]? = some (.inr p) →
    (i ∈ s.freed ↔ s.handed i = p.file.contents)

namespace Session

variable {l : Limits} {fd : ℤ} {acceptTime : Time} {acceptNo : ℕ} {flock : Bool}
  {s s' : Session (OutBuffer ⊕ OutPath)}
  {a : Action (SendCall ⊕ FileCall) (SendResult ⊕ PathResult)}

theorem delivers_of_reach_withFiles
    (h : Reach (step (l.tcpWithFiles flock)) SendsFiles (start _ fd acceptTime acceptNo) s) :
    s.Delivers OutPath.restOf := by
  refine h.invariant (delivers_start fd acceptTime acceptNo) fun hd hok hs ↦ ?_
  refine hd.stepped (tcpBuffers_conserves.either OutPath.conserves)
    (fun r e es ha hqueue ↦ ?_) (stepped_of_step hs)
  subst ha
  simpa [SendsFiles, hqueue] using hok

/-- What is queued for a file starts at its first byte. -/
theorem rest_of_queued
    (h : Reach (step (l.tcpWithFiles flock)) SendsFiles (start _ fd acceptTime acceptNo) s) :
    ∀ o ∈ s.queued, ∀ p, o = .inr p → p.rest = p.file.contents ∧ p.file.contents ≠ [] := by
  refine forall_queued (P := fun o ↦ ∀ p, o = .inr p →
    OutPath.rest p = p.file.contents ∧ p.file.contents ≠ []) h fun {s call} hok p hp ↦ ?_
  rcases call with call | call
  · exact nomatch hp
  · cases Sum.inr.inj hp
    have hcontents : call.contents ≠ [] := by simpa [SendsFiles] using hok
    exact ⟨rfl, hcontents⟩

/-- A system call that conserves the bytes leaves some of an entry that is not finished. -/
theorem rest_ne_nil_of_left {Out : Type} {rest : Out → List UInt8} {o o' : Out}
    {next : WriteStep Out} (h : next.Conserves rest o) (hne : rest o ≠ [])
    (hleft : next.left = some o') : rest o' ≠ [] := by
  cases next with
  | goesOn sent out =>
      cases hleft
      exact h.2 hne
  | returns sent out value =>
      rw [WriteStep.left] at hleft
      split_ifs at hleft with hvalue
      cases hleft
      exact (h.2 hvalue).2 hne
  | ends => exact nomatch hleft

/-- A file in the queue is not finished. -/
theorem rest_of_queue
    (h : Reach (step (l.tcpWithFiles flock)) SendsFiles (start _ fd acceptTime acceptNo) s) :
    ∀ e ∈ s.queue, ∀ p, e.out = .inr p → p.rest ≠ [] := by
  refine h.invariant (I := fun s ↦ ∀ e ∈ s.queue, ∀ p, e.out = .inr p → OutPath.rest p ≠ [])
    (fun _ he ↦ by cases he) ?_
  intro t u a hI hok hs e he p hp
  rcases mem_queue_of_stepped (stepped_of_step hs) he with
    hold | ⟨call, rfl, hentry⟩ | ⟨e₀, es, r, next, rfl, hqueue, hnext, hleft⟩
  · exact hI e hold p hp
  · rcases call with call | call
    · cases hp.symm.trans hentry
    · cases Sum.inr.inj (hp.symm.trans hentry)
      have hcontents : call.contents ≠ [] := by simpa [SendsFiles] using hok
      exact hcontents
  · obtain ⟨no, o⟩ := e₀
    rcases o with b | p₀ <;> rcases r with r | r
    · obtain ⟨n, -, rfl⟩ := Option.map_eq_some_iff.mp hnext
      cases n <;> simp_all [WriteStep.map, WriteStep.left]
    · cases hnext
    · cases hnext
    · obtain ⟨n, hn, rfl⟩ := Option.map_eq_some_iff.mp hnext
      have hwhole : p₀.TakesWhole r := by simpa [SendsFiles, hqueue, Either] using hok
      have hleft' : n.left = some p := by
        rw [hp] at hleft
        cases n <;> simp_all [WriteStep.map, WriteStep.left]
      exact rest_ne_nil_of_left (OutPath.conserves hwhole hn)
        (hI ⟨no, .inr p₀⟩ (hqueue ▸ List.mem_cons_self) p₀ rfl) hleft'

/-- A failing `Write()` leaves a note. -/
theorem writeError_of_failed {Out : Type} {s : Session Out} {caller : Caller} {no : ℕ}
    {es : List (Entry Out)} {sent : List UInt8} {out : Out} :
    (s.writeStep caller no es (.returns sent out (-1))).writeError = true := by
  cases caller <;> rfl

/-- **Plain TCP delivers a file whenever `sendfile()` takes it whole.**  The call that hands over
the last byte then returns `0`, and `-1` means that a system call has failed.  When `sendfile()`
takes a part, the call returns `-1` though none has. -/
theorem filesDelivered_of_reach
    (h : Reach (step (l.tcpWithFiles flock)) SendsFiles (start _ fd acceptTime acceptNo) s) :
    FilesDelivered s ∧
      ∀ caller e es p r s', s.control = .write caller → s.queue = e :: es → e.out = .inr p →
        step (l.tcpWithFiles flock) s (.write (.inr r)) = some s' →
          (p.TakesWhole r → ∀ sent p' value,
            tcpWritePath flock p r = some (.returns sent p' value) →
              (sent = p.rest → value = 0) ∧ (value = -1 → r.Fails)) ∧
          (¬ p.TakesWhole r → ¬ r.Fails ∧ s'.writeError = true ∧
            ∃ sent p', tcpWritePath flock p r = some (.returns sent p' (-1))) := by
  have hdelivers := delivers_of_reach_withFiles h
  have hfile := rest_of_queued h
  have hrestOf : ∀ {i : ℕ} {p : OutPath}, s.queued[i]? = some (.inr p) →
      OutPath.restOf (.inr p) = p.file.contents ∧ p.file.contents ≠ [] :=
    fun hi ↦ hfile _ (List.mem_of_getElem? hi) _ rfl
  refine ⟨⟨hdelivers.accepted, fun hlive i p hi ↦ ?_, fun hlive i p hi ↦ ?_⟩, ?_⟩
  · rw [← (hrestOf hi).1]
    exact hdelivers.handed_prefix hlive hi
  · obtain ⟨hrest, hne⟩ := hrestOf hi
    rw [← hrest]
    exact hdelivers.mem_freed hlive hi (hrest ▸ hne)
  intro caller e es p r s' hc hqueue hout hs
  have hleft : p.rest ≠ [] := rest_of_queue h e (hqueue ▸ List.mem_cons_self) p hout
  refine ⟨fun hwhole sent p' value hwrite ↦ ⟨fun hall ↦ ?_, fun hvalue ↦ ?_⟩, fun hpart ↦ ?_⟩
  · have hconserves := OutPath.conserves hwhole hwrite
    refine Decidable.byContradiction fun hvalue ↦ ?_
    obtain ⟨hsplit, hne⟩ := hconserves.2 hvalue
    rw [hall] at hsplit
    exact hne hleft (List.append_right_eq_self.mp hsplit.symm)
  · subst hvalue
    exact OutPath.fails_of_failed hleft hwhole hwrite
  · obtain ⟨next, hnext, rfl⟩ : ∃ next, tcpWritePath flock p r = some next ∧
        s.writeStep caller e.no es (next.map Sum.inr) = s' := by
      simp only [step, hc, hqueue, hout] at hs
      obtain ⟨n, hn, rfl⟩ := Option.map_eq_some_iff.mp hs
      obtain ⟨next, hnext, rfl⟩ := Option.map_eq_some_iff.mp hn
      exact ⟨next, hnext, rfl⟩
    obtain ⟨hfails, sent, p', rfl⟩ := OutPath.fails_of_part hpart hnext
    exact ⟨hfails, writeError_of_failed, sent, p', hnext⟩

/-- The session callback is called for one byte and sends a file of three. -/
abbrev answersWithFile : List (Action (SendCall ⊕ FileCall) (SendResult ⊕ PathResult)) :=
  [.event .read, .event .write, .service, .go, .setUp true, .read (.count [65]),
    .send (.inr ⟨[1, 2, 3], false⟩), .write (.inr (.stat true))]

/-- The socket is exhausted at first, and then the file is sent. -/
theorem filesDelivered_of_answered :
    ∃ s, Reach (step (smallest.tcpWithFiles false)) SendsFiles (start _ 5 0 0) s ∧
      (s.handed 0 = [1, 2, 3] ∧ s.freed = [0]) ∧ FilesDelivered s ∧
      ∀ caller e es p r s', s.control = .write caller → s.queue = e :: es → e.out = .inr p →
        step (smallest.tcpWithFiles false) s (.write (.inr r)) = some s' →
          (p.TakesWhole r → ∀ sent p' value,
            tcpWritePath false p r = some (.returns sent p' value) →
              (sent = p.rest → value = 0) ∧ (value = -1 → r.Fails)) ∧
          (¬ p.TakesWhole r → ¬ r.Fails ∧ s'.writeError = true ∧
            ∃ sent p', tcpWritePath false p r = some (.returns sent p' (-1))) := by
  obtain ⟨s, hreach, hs⟩ :
      ∃ s, Reach (step (smallest.tcpWithFiles false)) SendsFiles (start _ 5 0 0) s ∧
        (s.handed 0 = [1, 2, 3] ∧ s.freed = [0]) :=
    exists_reach_of_exec_decide
      (answersWithFile ++
        [.write (.inr (.send .again)), .returns .wait, .go, .write (.inr (.stat true)),
          .write (.inr (.send (.count 3)))])
      (by decide)
  exact ⟨s, hreach, hs, filesDelivered_of_reach hreach⟩

/-- When `sendfile()` takes one byte of three, the call returns `-1`. -/
theorem not_filesDelivered_of_part : ¬ ∀ s caller e es p r sent p',
    Reach (step (smallest.tcpWithFiles false)) SendsFiles (start _ 5 0 0) s →
      s.control = .write caller → s.queue = e :: es → e.out = .inr p →
        tcpWritePath false p r = some (.returns sent p' (-1)) → r.Fails := by
  obtain ⟨s, hreach, hc, hqueue⟩ :
      ∃ s, Reach (step (smallest.tcpWithFiles false)) SendsFiles (start _ 5 0 0) s ∧
        (s.control = .write .session ∧
          s.queue = [⟨0, .inr ⟨⟨[1, 2, 3], 0⟩, false, .send⟩⟩]) :=
    exists_reach_of_exec_decide answersWithFile (by decide)
  have hpart : tcpWritePath false ⟨⟨[1, 2, 3], 0⟩, false, .send⟩ (.send (.count 1)) =
      some (.returns [1] ⟨⟨[1, 2, 3], 1⟩, false, .fstat⟩ (-1)) := rfl
  intro h
  rcases h s _ _ _ _ _ _ _ hreach hc hqueue rfl hpart with heq | heq
  · exact nomatch heq
  · exact nomatch heq

end Session

end Tidbits.Service
