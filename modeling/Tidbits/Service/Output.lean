import Mathlib.Data.Int.Notation
import Mathlib.Data.Nat.Notation
import Mathlib.Tactic.SplitIfs

/-!
# The entries of an output queue

A session queues what it has to send, and `Write()` writes the first entry until
it is finished.  How an entry is written is a `Writer`: what one system call
does to the entry and what the function that made the call does next.  The
queue and the callbacks do not depend on it.

The two writers of this file are `TCPWrite_buffer()` and `TLSWrite_buffer()`,
for the entries that `poService_send()` and `poService_sendF()` queue.  A writer
`Conserves` the bytes when an entry that goes on has lost exactly what the
socket has accepted, and one that is finished has nothing left.
-/

namespace Tidbits.Service

/-! ## Writers -/

/-- Where a function that writes an entry is after one system call, with the bytes that the call
handed over. -/
inductive WriteStep (Out : Type)
  /-- It goes on. -/
  | goesOn (sent : List UInt8) (entry : Out)
  /-- It returns. -/
  | returns (sent : List UInt8) (entry : Out) (value : ℤ)
  /-- A failing `ASSERT` ends the process. -/
  | ends

/-- What a session can queue, and how it is written. -/
structure Writer (Call Out Result : Type) where
  /-- The entry that a call queues. -/
  entry : Call → Out
  /-- One system call for an entry; `none` if the call cannot have the result. -/
  write : Out → Result → Option (WriteStep Out)

/-- What a system call leaves of an entry that is not finished. -/
def WriteStep.left {Out : Type} : WriteStep Out → Option Out
  | .goesOn _ out => some out
  | .returns _ out value => if value = 0 then none else some out
  | .ends => none

/-- No byte of the entry is lost or sent twice in the step, and if the entry is not finished it
still has bytes left. -/
def WriteStep.Conserves {Out : Type} (rest : Out → List UInt8) (o : Out) : WriteStep Out → Prop
  | .goesOn sent o' => rest o = sent ++ rest o' ∧ (rest o ≠ [] → rest o' ≠ [])
  | .returns sent o' value =>
      (value = 0 → rest o = sent) ∧
        (value ≠ 0 → rest o = sent ++ rest o' ∧ (rest o ≠ [] → rest o' ≠ []))
  | .ends => True

/-- The steps that meet the condition conserve the bytes of an entry. -/
def Writer.Conserves {Call Out Result : Type} (w : Writer Call Out Result)
    (rest : Out → List UInt8) (ok : Out → Result → Prop) : Prop :=
  ∀ {o : Out} {r : Result} {next : WriteStep Out}, ok o r → w.write o r = some next →
    next.Conserves rest o

/-! ## Buffers -/

/-- `struct OutBuffer`. -/
structure OutBuffer where
  /-- The user buffer, of length `len`. -/
  buffer : List UInt8
  index : ℕ
deriving DecidableEq, Repr

namespace OutBuffer

/-- The field `len`. -/
def len (b : OutBuffer) : ℕ := b.buffer.length

/-- The bytes from `index` on. -/
def rest (b : OutBuffer) : List UInt8 := b.buffer.drop b.index

theorem length_rest (b : OutBuffer) : b.rest.length = b.len - b.index := List.length_drop

theorem rest_advance (b : OutBuffer) (n : ℕ) :
    { b with index := b.index + n }.rest = b.rest.drop n := by
  rw [rest, rest, List.drop_drop]

end OutBuffer

/-- What a call of `write()` or `gnutls_record_send()` comes to. -/
inductive SendResult
  /-- So many bytes were taken; none if the other side is closed. -/
  | count (n : ℕ)
  /-- `EAGAIN` or `GNUTLS_E_AGAIN`. -/
  | again
  /-- `EINTR` or `GNUTLS_E_INTERRUPTED`. -/
  | interrupted
  /-- `EPIPE` or `ECONNRESET`. -/
  | hungUp
  /-- Any other error. -/
  | failed
deriving DecidableEq, Repr

/-- `TCPWrite_buffer()`, from one call of `write()` to the next. -/
def tcpWriteBuffer (b : OutBuffer) : SendResult → Option (WriteStep OutBuffer)
  | .count n =>
      if n ≤ b.len - b.index then
        if 0 < n then
          if n = b.len - b.index then some (.returns (b.rest.take n) b 0)
          else some (.returns (b.rest.take n) { b with index := b.index + n } 2)
        else some (.returns [] b 1)
      else none
  | .again => some (.returns [] b 2)
  | .interrupted => some (.goesOn [] b)
  | .hungUp => some (.returns [] b 1)
  | .failed => some .ends

/-- `TLSWrite_buffer()`, from one call of `gnutls_record_send()` to the next.  The `if` that
compares the count with the length ends at its semicolon. -/
def tlsWriteBuffer (b : OutBuffer) : SendResult → Option (WriteStep OutBuffer)
  | .count n =>
      if n ≤ b.len - b.index then
        if 0 < n then some (.returns (b.rest.take n) b 0) else some (.returns [] b 1)
      else none
  | .again => some (.returns [] b 2)
  | .interrupted => some (.goesOn [] b)
  | .hungUp | .failed => some (.returns [] b (-1))

/-! ## The calls that queue buffers -/

/-- `vsnprintf()` for a format and arguments that make `text`: what it writes in front of the
terminator into a buffer of `len` bytes, and what it returns. -/
def vsnprintf (len : ℕ) (text : List UInt8) : List UInt8 × ℕ :=
  (text.take (len - 1), text.length)

/-- The loop of `poService_sendF()`, with its variable `n`. -/
def formatLoop (n : ℕ) (text : List UInt8) : List UInt8 :=
  let len := n + 1
  let r := vsnprintf len text
  if r.2 ≥ len then formatLoop r.2 text else r.1
termination_by text.length - n
decreasing_by
  have hlt : n < text.length := by assumption
  show text.length - text.length < text.length - n
  omega

/-- A call of `poService_send()` or `poService_sendF()`. -/
inductive SendCall
  | send (bytes : List UInt8)
  | sendF (text : List UInt8)
deriving DecidableEq, Repr

/-- What the call is asked to send. -/
def SendCall.data : SendCall → List UInt8
  | .send bytes => bytes
  | .sendF text => text

/-- The entry that the call queues; `chunkLen` is `PO_SERVICE_CHUNKLEN`. -/
def SendCall.entry (chunkLen : ℕ) : SendCall → OutBuffer
  | .send bytes => ⟨bytes, 0⟩
  | .sendF text => ⟨formatLoop (chunkLen - 1) text, 0⟩

/-- The loop ends with a buffer that has room for all of the text. -/
theorem formatLoop_eq (n : ℕ) (text : List UInt8) : formatLoop n text = text := by
  fun_induction formatLoop n text with
  | case1 n len r _ ih => exact ih
  | case2 n len r hfits =>
      have hlen : text.length ≤ n := Nat.lt_succ_iff.mp (Nat.not_le.mp hfits)
      exact List.take_of_length_le hlen

/-- **Both calls queue what they are asked to send.** -/
@[simp] theorem SendCall.rest_entry (chunkLen : ℕ) (call : SendCall) :
    (call.entry chunkLen).rest = call.data := by
  cases call with
  | send bytes => rfl
  | sendF text => exact formatLoop_eq _ text

/-- Buffers over plain TCP. -/
abbrev tcpBuffers (chunkLen : ℕ) : Writer SendCall OutBuffer SendResult :=
  ⟨SendCall.entry chunkLen, tcpWriteBuffer⟩

/-- Buffers over TLS. -/
abbrev tlsBuffers (chunkLen : ℕ) : Writer SendCall OutBuffer SendResult :=
  ⟨SendCall.entry chunkLen, tlsWriteBuffer⟩

/-! ## What the two functions conserve -/

section Conservation

variable {b b' : OutBuffer} {r : SendResult} {sent : List UInt8} {value : ℤ} {chunkLen : ℕ}

/-- A call that takes some of the bytes, but not all. -/
theorem OutBuffer.rest_partial {n : ℕ} (hle : n ≤ b.len - b.index) (hne : n ≠ b.len - b.index) :
    b.rest = b.rest.take n ++ { b with index := b.index + n }.rest ∧
      (b.rest ≠ [] → { b with index := b.index + n }.rest ≠ []) := by
  rw [OutBuffer.rest_advance]
  refine ⟨(List.take_append_drop n b.rest).symm, fun _ hnil ↦ ?_⟩
  have hlen := List.drop_eq_nil_iff.mp hnil
  rw [b.length_rest] at hlen
  omega

/-- A call that takes all of the bytes. -/
theorem OutBuffer.rest_full {n : ℕ} (heq : n = b.len - b.index) : b.rest = b.rest.take n := by
  rw [heq, ← b.length_rest, List.take_length]

/-- `TCPWrite_buffer()` conserves the bytes, whatever `write()` does. -/
theorem tcpBuffers_conserves : (tcpBuffers chunkLen).Conserves OutBuffer.rest fun _ _ ↦ True := by
  intro o r next _ h
  have hkept : o.rest = [] ++ o.rest ∧ (o.rest ≠ [] → o.rest ≠ []) := ⟨rfl, id⟩
  cases r with
  | count n =>
      simp only [tcpWriteBuffer] at h
      split_ifs at h with hle hpos hfull
      · cases h
        exact ⟨fun _ ↦ OutBuffer.rest_full hfull, fun hvalue ↦ absurd rfl hvalue⟩
      · cases h
        exact ⟨fun hvalue ↦ (nomatch hvalue), fun _ ↦ OutBuffer.rest_partial hle hfull⟩
      · cases h
        exact ⟨fun hvalue ↦ (nomatch hvalue), fun _ ↦ hkept⟩
  | again =>
      cases h
      exact ⟨fun hvalue ↦ (nomatch hvalue), fun _ ↦ hkept⟩
  | interrupted =>
      cases h
      exact hkept
  | hungUp =>
      cases h
      exact ⟨fun hvalue ↦ (nomatch hvalue), fun _ ↦ hkept⟩
  | failed =>
      cases h
      trivial

/-- A count is that of all the bytes that were asked for. -/
def TakesAll (b : OutBuffer) (r : SendResult) : Prop :=
  ∀ n, r = .count n → 0 < n → n = b.len - b.index

instance (b : OutBuffer) (r : SendResult) : Decidable (TakesAll b r) :=
  match r with
  | .count n =>
      decidable_of_iff (0 < n → n = b.len - b.index)
        ⟨fun h _ heq ↦ by cases heq; exact h, fun h ↦ h n rfl⟩
  | .again | .interrupted | .hungUp | .failed => isTrue fun _ heq ↦ nomatch heq

/-- `TLSWrite_buffer()` conserves the bytes as long as `gnutls_record_send()` takes all or none. -/
theorem tlsBuffers_conserves : (tlsBuffers chunkLen).Conserves OutBuffer.rest TakesAll := by
  intro o r next hall h
  have hkept : o.rest = [] ++ o.rest ∧ (o.rest ≠ [] → o.rest ≠ []) := ⟨rfl, id⟩
  cases r with
  | count n =>
      simp only [tlsWriteBuffer] at h
      split_ifs at h with hle hpos
      · cases h
        exact ⟨fun _ ↦ OutBuffer.rest_full (hall n rfl hpos), fun hvalue ↦ absurd rfl hvalue⟩
      · cases h
        exact ⟨fun hvalue ↦ (nomatch hvalue), fun _ ↦ hkept⟩
  | again =>
      cases h
      exact ⟨fun hvalue ↦ (nomatch hvalue), fun _ ↦ hkept⟩
  | interrupted =>
      cases h
      exact hkept
  | hungUp =>
      cases h
      exact ⟨fun hvalue ↦ (nomatch hvalue), fun _ ↦ hkept⟩
  | failed =>
      cases h
      exact ⟨fun hvalue ↦ (nomatch hvalue), fun _ ↦ hkept⟩

/-- A short count finishes the buffer with bytes left. -/
theorem tlsWriteBuffer_short {n : ℕ} (hpos : 0 < n) (hlt : n < b.len - b.index) :
    tlsWriteBuffer b (.count n) = some (.returns (b.rest.take n) b 0) ∧ b.rest.take n ≠ b.rest := by
  refine ⟨?_, fun heq ↦ ?_⟩
  · rw [tlsWriteBuffer, if_pos (Nat.le_of_lt hlt), if_pos hpos]
  · have hlen := congrArg List.length heq
    rw [List.length_take, b.length_rest] at hlen
    omega

end Conservation

end Tidbits.Service
