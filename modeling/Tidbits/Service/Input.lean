import Mathlib.Data.Int.Notation
import Mathlib.Data.Nat.Notation
import Mathlib.Tactic.SplitIfs

/-!
# The input buffer of a session

`TCPRead()` and `TLSRead()` fill the buffer behind the bytes that it holds, and
make it larger when it is full, up to a limit.  They differ only in what they do
about errors.

`Input.Holds` says that the allocation has its extra byte and that the
buffer holds given bytes.  Both functions keep it for the bytes that they
receive, and leave room for one more byte whenever they go on or return `2`.
-/

namespace Tidbits.Service

/-- The fields `inBuffer`, `inSize` and `inLen` of a session. -/
structure Input where
  /-- The whole allocation. -/
  inBuffer : List UInt8
  inSize : ℕ
  inLen : ℕ
deriving DecidableEq, Repr

namespace Input

/-- Before `Setup()`: all zero. -/
def zeroed : Input := ⟨[], 0, 0⟩

/-- What `Setup()` allocates.  The contents of new memory make no difference; they are zeros here
and in `grow`. -/
def create (chunkLen : ℕ) : Input := ⟨List.replicate (chunkLen + 1) 0, chunkLen, 0⟩

/-- `realloc(buf, (*inSize += PO_SERVICE_CHUNKLEN) + 1)`. -/
def grow (chunkLen : ℕ) (i : Input) : Input :=
  { i with inBuffer := i.inBuffer ++ List.replicate chunkLen 0, inSize := i.inSize + chunkLen }

/-- Bytes are read to `&buf[*inLen]`, and `*inLen += rt`. -/
def receive (bytes : List UInt8) (i : Input) : Input :=
  { i with
    inBuffer := i.inBuffer.take i.inLen ++ bytes ++ i.inBuffer.drop (i.inLen + bytes.length)
    inLen := i.inLen + bytes.length }

/-- `buf[bytes] = value`, as a session callback does it to terminate its message. -/
def terminate (value : UInt8) (i : Input) : Input :=
  { i with inBuffer := i.inBuffer.set i.inLen value }

end Input

/-- What a call of `read()` or `gnutls_record_recv()` comes to. -/
inductive ReadResult
  /-- A positive count, with the bytes. -/
  | count (bytes : List UInt8)
  /-- `0`. -/
  | endOfStream
  /-- `EAGAIN` or `GNUTLS_E_AGAIN`. -/
  | again
  /-- `EINTR` or `GNUTLS_E_INTERRUPTED`. -/
  | interrupted
  /-- `EPIPE` or `ECONNRESET`. -/
  | hungUp
  /-- Any other error. -/
  | failed
deriving DecidableEq, Repr

/-- The bytes that come with the result. -/
def ReadResult.received : ReadResult → List UInt8
  | .count bytes => bytes
  | .endOfStream | .again | .interrupted | .hungUp | .failed => []

/-- Where `TCPRead()` or `TLSRead()` is after one call of `read()` or `gnutls_record_recv()`. -/
inductive ReadStep
  /-- At the next call. -/
  | goesOn (input : Input)
  /-- It returns. -/
  | returns (input : Input) (value : ℤ)
  /-- A failing `ASSERT` ends the process. -/
  | ends

/-- The loop that both functions are, from one call to the next; `none` if the call cannot have the
result.  They handle `hungUp` and `failed` by themselves. -/
def readLoop (hungUp failed : Input → ReadStep) (chunkLen maxMessageLength : ℕ) (i : Input) :
    ReadResult → Option ReadStep
  | .count bytes =>
      if bytes ≠ [] ∧ bytes.length ≤ i.inSize - i.inLen then
        let i := i.receive bytes
        if i.inLen < i.inSize then some (.returns i 2)
        else if i.inSize < maxMessageLength then some (.goesOn (i.grow chunkLen))
        else some (.returns i 1)
      else none
  | .endOfStream => some (.returns i 1)
  | .again => some (.returns i 2)
  | .interrupted => some (.goesOn i)
  | .hungUp => some (hungUp i)
  | .failed => some (failed i)

/-- `TCPRead()`. -/
def tcpRead : ℕ → ℕ → Input → ReadResult → Option ReadStep :=
  readLoop (fun i ↦ .returns i 1) fun _ ↦ .ends

/-- `TLSRead()`. -/
def tlsRead : ℕ → ℕ → Input → ReadResult → Option ReadStep :=
  readLoop (fun i ↦ .returns i 1) fun i ↦ .returns i 1

/-! ## What the buffer holds -/

namespace Input

/-- The allocation is of `inSize + 1` bytes, and the first `inLen` of them are the bytes. -/
structure Holds (i : Input) (bytes : List UInt8) : Prop where
  length : i.inBuffer.length = i.inSize + 1
  inLen_le : i.inLen ≤ i.inSize
  take : i.inBuffer.take i.inLen = bytes

variable {i : Input} {bytes new : List UInt8} {chunkLen maxMessageLength : ℕ}

theorem holds_create (chunkLen : ℕ) : (create chunkLen).Holds [] :=
  ⟨List.length_replicate, Nat.zero_le _, rfl⟩

theorem Holds.inLen_eq (h : i.Holds bytes) : i.inLen = bytes.length := by
  have hlength := h.length
  have hle := h.inLen_le
  rw [← h.take, List.length_take]
  omega

theorem Holds.grow (h : i.Holds bytes) (chunkLen : ℕ) : (i.grow chunkLen).Holds bytes where
  length := by
    rw [Input.grow, List.length_append, List.length_replicate, h.length]
    exact Nat.add_right_comm _ _ _
  inLen_le := Nat.le_add_right_of_le h.inLen_le
  take := by
    have hle : i.inLen ≤ i.inBuffer.length := h.length ▸ Nat.le_succ_of_le h.inLen_le
    exact (List.take_append_of_le_length hle).trans h.take

theorem Holds.receive (h : i.Holds bytes) (hroom : new.length ≤ i.inSize - i.inLen) :
    (i.receive new).Holds (bytes ++ new) := by
  have hlength := h.length
  have hle := h.inLen_le
  have hfront : (i.inBuffer.take i.inLen).length = i.inLen := by
    rw [List.length_take]
    omega
  refine ⟨?_, ?_, ?_⟩
  · show (i.inBuffer.take i.inLen ++ new ++ i.inBuffer.drop (i.inLen + new.length)).length = _
    rw [List.length_append, List.length_append, hfront, List.length_drop]
    show _ = i.inSize + 1
    omega
  · show i.inLen + new.length ≤ i.inSize
    omega
  · show (i.inBuffer.take i.inLen ++ new ++ i.inBuffer.drop (i.inLen + new.length)).take
      (i.inLen + new.length) = _
    have hboth : (i.inBuffer.take i.inLen ++ new).length = i.inLen + new.length := by
      rw [List.length_append, hfront]
    rw [← hboth, List.take_left, h.take]

theorem Holds.terminate (h : i.Holds bytes) (value : UInt8) : (i.terminate value).Holds bytes where
  length := by
    rw [Input.terminate, List.length_set]
    exact h.length
  inLen_le := h.inLen_le
  take := by
    rw [← h.take]
    exact List.take_set_of_le (Nat.le_refl _)

/-- `POSERVICE_CONTINUE`. -/
theorem Holds.reset (h : i.Holds bytes) : { i with inLen := 0 }.Holds [] :=
  ⟨h.length, Nat.zero_le _, rfl⟩

end Input

/-- What a step of `TCPRead()` or `TLSRead()` leaves: the buffer with the bytes, and room for more
unless the connection is to be closed. -/
def ReadStep.Holds (bytes : List UInt8) : ReadStep → Prop
  | .goesOn i => i.Holds bytes ∧ i.inLen < i.inSize
  | .returns i value => i.Holds bytes ∧ (value = 1 ∨ value = 2 ∧ i.inLen < i.inSize)
  | .ends => True

section

variable {i : Input} {bytes : List UInt8} {chunkLen maxMessageLength : ℕ} {r : ReadResult}
  {next : ReadStep} {hungUp failed : Input → ReadStep}

/-- **The loop keeps the buffer**, if its two error cases do. -/
theorem holds_readLoop (hhungUp : (hungUp i).Holds bytes) (hfailed : (failed i).Holds bytes)
    (hpos : 0 < chunkLen) (hi : i.Holds bytes) (hroom : i.inLen < i.inSize)
    (h : readLoop hungUp failed chunkLen maxMessageLength i r = some next) :
    next.Holds (bytes ++ r.received) := by
  have hkept : i.Holds (bytes ++ []) := by rwa [List.append_nil]
  cases r with
  | count new =>
      simp only [readLoop] at h
      split_ifs at h with hnew hshort hgrow
      · cases h
        exact ⟨hi.receive hnew.2, .inr ⟨rfl, hshort⟩⟩
      · cases h
        have hreceived := hi.receive hnew.2
        refine ⟨hreceived.grow chunkLen, ?_⟩
        show (i.receive new).inLen < (i.receive new).inSize + chunkLen
        exact Nat.lt_of_le_of_lt hreceived.inLen_le (Nat.lt_add_of_pos_right hpos)
      · cases h
        exact ⟨hi.receive hnew.2, .inl rfl⟩
  | endOfStream =>
      cases h
      exact ⟨hkept, .inl rfl⟩
  | again =>
      cases h
      exact ⟨hkept, .inr ⟨rfl, hroom⟩⟩
  | interrupted =>
      cases h
      exact ⟨hkept, hroom⟩
  | hungUp =>
      cases h
      show (hungUp i).Holds (bytes ++ [])
      rwa [List.append_nil]
  | failed =>
      cases h
      show (failed i).Holds (bytes ++ [])
      rwa [List.append_nil]

/-- A count makes the loop give up only when the buffer is as large as it may be. -/
theorem maxMessageLength_le_of_readLoop {i' : Input} {new : List UInt8} {value : ℤ}
    (hi : i.Holds bytes) (hvalue : value ≠ 2)
    (h : readLoop hungUp failed chunkLen maxMessageLength i (.count new) =
      some (.returns i' value)) : maxMessageLength ≤ bytes.length + new.length := by
  simp only [readLoop] at h
  split_ifs at h with hnew hshort hgrow
  · cases h
    exact absurd rfl hvalue
  · cases h
  · have hfull : (i.receive new).inLen = i.inSize :=
      Nat.le_antisymm (hi.receive hnew.2).inLen_le (Nat.le_of_not_lt hshort)
    rw [← List.length_append, ← (hi.receive hnew.2).inLen_eq, hfull]
    exact Nat.le_of_not_lt hgrow

theorem holds_closed (hi : i.Holds bytes) : (ReadStep.returns i 1).Holds bytes :=
  ⟨hi, .inl rfl⟩

theorem holds_tcpRead (hpos : 0 < chunkLen) (hi : i.Holds bytes) (hroom : i.inLen < i.inSize)
    (h : tcpRead chunkLen maxMessageLength i r = some next) : next.Holds (bytes ++ r.received) :=
  holds_readLoop (holds_closed hi) (show ReadStep.ends.Holds bytes from trivial) hpos hi hroom h

theorem holds_tlsRead (hpos : 0 < chunkLen) (hi : i.Holds bytes) (hroom : i.inLen < i.inSize)
    (h : tlsRead chunkLen maxMessageLength i r = some next) : next.Holds (bytes ++ r.received) :=
  holds_readLoop (holds_closed hi) (holds_closed hi) hpos hi hroom h

end

end Tidbits.Service
