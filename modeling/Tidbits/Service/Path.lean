import Tidbits.Service.Output

/-!
# Files in an output queue

`poService_sendPath()` and `poService_sendFD()` queue a file that is open for
reading.  `TCPWrite_path()` writes it with `sendfile()`, and `TLSWrite_path()`
through a buffer of its own, as the kernel does not encrypt.  Both are written
here from one system call to the next.

A file does not change while it is sent, and it is read from its first byte on.
-/

namespace Tidbits.Service

/-! ## Open files -/

/-- A file that is open for reading. -/
structure OpenFile where
  contents : List UInt8
  offset : ℕ
deriving DecidableEq, Repr

namespace OpenFile

/-- The value of `st_size`. -/
def size (f : OpenFile) : ℕ := f.contents.length

/-- The bytes from the offset on. -/
def rest (f : OpenFile) : List UInt8 := f.contents.drop f.offset

/-- The kernel moves the offset. -/
def advance (f : OpenFile) (n : ℕ) : OpenFile := { f with offset := f.offset + n }

theorem length_rest (f : OpenFile) : f.rest.length = f.size - f.offset := List.length_drop

theorem rest_advance (f : OpenFile) (n : ℕ) : (f.advance n).rest = f.rest.drop n := by
  rw [rest, rest, List.drop_drop]
  rfl

/-- What is read is what the rest loses. -/
theorem take_append_rest_advance (f : OpenFile) (n : ℕ) :
    f.rest.take n ++ (f.advance n).rest = f.rest := by
  rw [rest_advance, List.take_append_drop]

theorem rest_of_start {f : OpenFile} (h : f.offset = 0) : f.rest = f.contents := by
  rw [rest, h, List.drop_zero]

end OpenFile

/-! ## System calls -/

/-- Where a function that writes a file is: at the call of `flock()`, `fstat()`, `read()`, or
`sendfile()` or `gnutls_record_send()`. -/
inductive PathPoint
  | flock
  | fstat
  | read
  | send
deriving DecidableEq, Repr

/-- What a call of `flock()` comes to. -/
inductive LockResult
  | locked
  /-- `EINTR`. -/
  | interrupted
  /-- Any other error. -/
  | failed
deriving DecidableEq, Repr

/-- What a call of `read()` for a file comes to. -/
inductive FileRead
  /-- So many bytes were read. -/
  | count (n : ℕ)
  /-- It returns `0`, which leaves `errno` as it is: `EINTR` from before, or something else. -/
  | endOfFile (interrupted : Bool)
  /-- It returns `-1`, with `EINTR` or another error. -/
  | failed (interrupted : Bool)
deriving DecidableEq, Repr

/-- What a system call comes to. -/
inductive PathResult
  | lock (r : LockResult)
  /-- `fstat()` has succeeded or not. -/
  | stat (ok : Bool)
  | read (r : FileRead)
  | send (r : SendResult)
deriving DecidableEq, Repr

/-- The first system call of a call that is going to lock the file and ask for its size; `flock`
says whether `POSERVICE_FLOCK` is defined. -/
def firstPoint (flock haveFLock : Bool) : PathPoint :=
  if flock && !haveFLock then .flock else .fstat

theorem firstPoint_cases (flock haveFLock : Bool) :
    firstPoint flock haveFLock = .flock ∨ firstPoint flock haveFLock = .fstat := by
  cases flock <;> cases haveFLock <;> decide

/-- A call of `poService_sendPath()`, or of `poService_sendFD()` with a file that was just opened;
the first one has no lock. -/
structure FileCall where
  contents : List UInt8
  haveFLock : Bool
deriving DecidableEq, Repr

/-! ## Plain TCP -/

/-- `struct OutPath`, with the point where `TCPWrite_path()` is or will start. -/
structure OutPath where
  /-- The file of `fd`. -/
  file : OpenFile
  haveFLock : Bool
  point : PathPoint
deriving DecidableEq, Repr

namespace OutPath

/-- `TCPWrite_path()` is called. -/
def enter (flock : Bool) (p : OutPath) : OutPath :=
  { p with point := firstPoint flock p.haveFLock }

/-- What the call queues. -/
def entry (flock : Bool) (call : FileCall) : OutPath :=
  ⟨⟨call.contents, 0⟩, call.haveFLock, firstPoint flock call.haveFLock⟩

/-- The bytes that were not sent. -/
def rest (p : OutPath) : List UInt8 := p.file.rest

end OutPath

/-- `TCPWrite_path()`, from one system call to the next. -/
def tcpWritePath (flock : Bool) (p : OutPath) (r : PathResult) : Option (WriteStep OutPath) :=
  match p.point, r with
  | .flock, .lock .locked => some (.goesOn [] { p with point := .fstat })
  | .flock, .lock .interrupted => some (.goesOn [] p)
  | .flock, .lock .failed => some (.returns [] (p.enter flock) (-1))
  | .fstat, .stat true =>
      if p.file.size = 0 then some (.returns [] (p.enter flock) (-1))
      else some (.goesOn [] { p with point := .send })
  | .fstat, .stat false => some .ends
  | .send, .send (.count n) =>
      -- `sendfile()` takes nothing only at the end of the file
      if n ≤ p.file.rest.length ∧ (n = 0 → p.file.rest = []) then
        let p' := { p with file := p.file.advance n }.enter flock
        if n = p.file.size then some (.returns (p.file.rest.take n) p' 0)
        else some (.returns (p.file.rest.take n) p' (-1))
      else none
  | .send, .send .again => some (.returns [] (p.enter flock) 2)
  | .send, .send .interrupted => some (.goesOn [] (p.enter flock))
  | .send, .send .hungUp => some (.returns [] (p.enter flock) 1)
  | .send, .send .failed => some (.returns [] (p.enter flock) (-1))
  | _, _ => none

/-! ## TLS -/

/-- The value of `sizeof(p->buffer)`. -/
def bufferSize : ℕ := 1024

/-- `struct OutPathTls`, with the point where `TLSWrite_path()` is or will start. -/
structure OutPathTls where
  /-- The file of `fd`. -/
  file : OpenFile
  /-- The bytes of the buffer up to `len`. -/
  buffer : List UInt8
  i : ℕ
  fileLeft : ℕ
  haveFLock : Bool
  point : PathPoint
deriving DecidableEq, Repr

namespace OutPathTls

/-- The field `len`. -/
def len (p : OutPathTls) : ℕ := p.buffer.length

/-- The test of the inner loop. -/
def fill (p : OutPathTls) : OutPathTls :=
  { p with point := if p.len < bufferSize ∧ p.fileLeft ≠ 0 then .read else .send }

/-- `TLSWrite_path()` is called: no bytes left to read is the mark of a file that was not
started. -/
def enter (flock : Bool) (p : OutPathTls) : OutPathTls :=
  if p.fileLeft = 0 then { p with point := firstPoint flock p.haveFLock } else p.fill

/-- What the call queues. -/
def entry (flock : Bool) (call : FileCall) : OutPathTls :=
  ⟨⟨call.contents, 0⟩, [], 0, 0, call.haveFLock, firstPoint flock call.haveFLock⟩

/-- The bytes of the buffer that were not sent. -/
def buffered (p : OutPathTls) : List UInt8 := p.buffer.drop p.i

/-- The bytes that were not sent. -/
def rest (p : OutPathTls) : List UInt8 := p.buffered ++ p.file.rest

/-- The test of the outer loop. -/
def loop (flock : Bool) (p : OutPathTls) : WriteStep OutPathTls :=
  if p.fileLeft ≠ 0 ∨ p.i < p.len then .goesOn [] p.fill else .returns [] (p.enter flock) 0

end OutPathTls

/-- `TLSWrite_path()`, from one system call to the next. -/
def tlsWritePath (flock : Bool) (p : OutPathTls) (r : PathResult) :
    Option (WriteStep OutPathTls) :=
  match p.point, r with
  | .flock, .lock .locked => some (.goesOn [] { p with point := .fstat })
  | .flock, .lock .interrupted => some (.goesOn [] p)
  | .flock, .lock .failed => some (.returns [] (p.enter flock) (-1))
  | .fstat, .stat true =>
      if p.file.size = 0 then some (.returns [] (p.enter flock) (-1))
      else some ({ p with fileLeft := p.file.size }.loop flock)
  | .fstat, .stat false => some .ends
  | .read, .read (.count n) =>
      if 0 < n ∧ n ≤ min (bufferSize - p.len) p.fileLeft ∧ n ≤ p.file.rest.length then
        some (.goesOn []
          { p with
            file := p.file.advance n
            buffer := p.buffer ++ p.file.rest.take n
            fileLeft := p.fileLeft - n }.fill)
      else none
  | .read, .read (.endOfFile interrupted) =>
      if p.file.rest = [] then
        if interrupted then some (.goesOn [] p) else some (.returns [] (p.enter flock) (-1))
      else none
  | .read, .read (.failed interrupted) =>
      if interrupted then some (.goesOn [] p) else some (.returns [] (p.enter flock) (-1))
  | .send, .send (.count n) =>
      if n ≤ p.len - p.i then
        if 0 < n then
          if n = p.len - p.i then
            let p' := { p with buffer := [], i := 0 }
            if p.fileLeft ≠ 0 then some (.goesOn (p.buffered.take n) p'.fill)
            else some (.returns (p.buffered.take n) (p'.enter flock) 0)
          else some (.returns (p.buffered.take n) ({ p with i := p.i + n }.enter flock) 2)
        else some (.returns [] (p.enter flock) 1)
      else none
  | .send, .send .again => some (.returns [] (p.enter flock) 2)
  | .send, .send .interrupted => some (p.loop flock)
  | .send, .send .hungUp | .send, .send .failed => some (.returns [] (p.enter flock) (-1))
  | _, _ => none

/-! ## Queues of buffers and files -/

/-- The entry is one of two kinds. -/
def WriteStep.map {Out Out' : Type} (f : Out → Out') : WriteStep Out → WriteStep Out'
  | .goesOn sent entry => .goesOn sent (f entry)
  | .returns sent entry value => .returns sent (f entry) value
  | .ends => .ends

/-- Entries of two kinds, as the field `type` of `struct Out` says. -/
def Writer.either {Call Call' Out Out' Result Result' : Type} (w : Writer Call Out Result)
    (w' : Writer Call' Out' Result') : Writer (Call ⊕ Call') (Out ⊕ Out') (Result ⊕ Result') where
  entry := Sum.map w.entry w'.entry
  write
    | .inl o, .inl r => (w.write o r).map (WriteStep.map .inl)
    | .inr o, .inr r => (w'.write o r).map (WriteStep.map .inr)
    | _, _ => none

/-- Files over plain TCP. -/
abbrev tcpPaths (flock : Bool) : Writer FileCall OutPath PathResult :=
  ⟨OutPath.entry flock, tcpWritePath flock⟩

section Conservation

variable {Call Call' Out Out' Result Result' : Type} {w : Writer Call Out Result}
  {w' : Writer Call' Out' Result'} {rest : Out → List UInt8} {rest' : Out' → List UInt8}
  {ok : Out → Result → Prop} {ok' : Out' → Result' → Prop}

theorem WriteStep.conserves_map {f : Out → Out'} {o : Out} {next : WriteStep Out}
    (hrest : ∀ o, rest' (f o) = rest o) (h : next.Conserves rest o) :
    (next.map f).Conserves rest' (f o) := by
  cases next with
  | goesOn sent out =>
      show rest' (f o) = sent ++ rest' (f out) ∧ (rest' (f o) ≠ [] → rest' (f out) ≠ [])
      rw [hrest, hrest]
      exact h
  | returns sent out value =>
      show (value = 0 → rest' (f o) = sent) ∧
        (value ≠ 0 → rest' (f o) = sent ++ rest' (f out) ∧ (rest' (f o) ≠ [] → rest' (f out) ≠ []))
      rw [hrest, hrest]
      exact h
  | ends => trivial

/-- What is asked of the system calls for entries of two kinds. -/
def Either (ok : Out → Result → Prop) (ok' : Out' → Result' → Prop) :
    Out ⊕ Out' → Result ⊕ Result' → Prop
  | .inl o, .inl r => ok o r
  | .inr o, .inr r => ok' o r
  | _, _ => True

/-- Both kinds of entries conserve their bytes. -/
theorem Writer.Conserves.either (h : w.Conserves rest ok) (h' : w'.Conserves rest' ok') :
    (w.either w').Conserves (Sum.elim rest rest') (Either ok ok') := by
  intro o r next hok hnext
  rcases o with o | o <;> rcases r with r | r
  · obtain ⟨n, hn, rfl⟩ := Option.map_eq_some_iff.mp hnext
    exact WriteStep.conserves_map (fun _ ↦ rfl) (h hok hn)
  · exact nomatch hnext
  · exact nomatch hnext
  · obtain ⟨n, hn, rfl⟩ := Option.map_eq_some_iff.mp hnext
    exact WriteStep.conserves_map (fun _ ↦ rfl) (h' hok hn)

end Conservation

end Tidbits.Service
