import Mathlib.Algebra.Group.Int.Defs
import Mathlib.Data.List.Basic

/-!
# Where failure reports are written

A report is put together in an array on the stack: each formatting call gets a
pointer to the end of what is there, and a size.  `_poELogV` gives it the size
that is left.  `_poAssert` has the same array, but where it does not call
`_poELogV` it gives the size of the whole array each time.

`inBounds_iff` says that an assertion keeps to its array only if it holds or
leaves the report to `_poELogV`.

A text is what precedes the `NUL`.
-/

namespace Tidbits.Potato.Reporting

/-- A text, without its `NUL`. -/
abbrev Text := List Char

/-- A call that writes to `&array[offset]`: the size of the array, and the size it is given. -/
structure FormatCall where
  sizeofArray : ℕ
  offset : ℕ
  size : ℕ
deriving DecidableEq, Repr

/-- The call cannot write behind the array. -/
def FormatCall.InBounds (c : FormatCall) : Prop := c.offset + c.size ≤ c.sizeofArray

instance (c : FormatCall) : Decidable c.InBounds :=
  inferInstanceAs (Decidable (c.offset + c.size ≤ c.sizeofArray))

/-- What is in an array after `snprintf(&array[strlen(array)], size, ...)`. -/
def snprintf (array : Text) (size : ℕ) (text : Text) : Text := array ++ text.take (size - 1)

/-- `%d` and `%ld`. -/
def decimal (n : ℤ) : Text := (toString n).toList

/-- The macros that the functions depend on. -/
structure Build where
  /-- `PO_DEBUG`. -/
  debug : Bool
  /-- `PO_ELOG_ERROR`, where `aSsert.h` is included. -/
  elogError : Bool
  /-- `PO_ELOG_TIMESTAMP`. -/
  elogTimestamp : Bool
  /-- `PO_ASSERT_TERMINAL` and `PO_ASSERT_SLEEP`, as they are before `aSsert.h`. -/
  assertTerminal : Bool
  assertSleep : Bool
  not_both : (assertTerminal && assertSleep) = false

/-- `PO_ASSERT_TERMINAL`, which is the default without `PO_DEBUG`. -/
def Build.terminal (b : Build) : Bool := b.assertTerminal || !b.debug && !b.assertSleep

/-- What the system says of a process. -/
structure Process where
  /-- What `poTime_get` formats. -/
  time : Text
  errno : ℤ
  /-- `strerror_r` of `errno`. -/
  error : Text
  pid : ℤ
  tid : ℤ

/-- Where a report came from. -/
structure Location where
  file : Text
  line : ℤ
  func : Text

/-- The formatting calls of a report, in order, and what is printed. -/
structure Report where
  calls : List FormatCall
  printed : Option Text

/-- `poTime_get`, for an array of `bufLen` bytes. -/
def poTime_get (bufLen : ℕ) (p : Process) : FormatCall × Text :=
  (⟨bufLen, 0, bufLen⟩, snprintf [] bufLen p.time)

/-- The time in front of a report. -/
def timestamp (b : Build) (p : Process) : List FormatCall × Text :=
  if b.elogTimestamp then
    let (call, t) := poTime_get 42 p
    ([call], if t.length ≤ 42 - 2 then t ++ [':'] else t)
  else ([], [])

/-- The error that a report names. -/
def cause (p : Process) : List FormatCall × Text :=
  if p.errno ≠ 0 then
    ([⟨128, 0, 128⟩],
      ":errno=".toList ++ decimal p.errno ++ ":".toList ++ p.error ++ ": ".toList)
  else ([], "::: ".toList)

/-- `_poELogV`, with the text that its format comes to. -/
def poELogV (b : Build) (p : Process) (pre : Text) (l : Location) (message : Text) : Report :=
  let t := timestamp b p
  let e := cause p
  let buf := snprintf [] 256 (t.2 ++ pre ++ l.file ++ ":".toList ++ decimal l.line ++
    ":".toList ++ l.func ++ "():tid ".toList ++ decimal p.tid ++ e.2)
  let len := buf.length
  ⟨t.1 ++ e.1 ++ [⟨256, 0, 256⟩, ⟨256, len, 256 - len⟩], some (snprintf buf (256 - len) message)⟩

/-- What an assertion reports first. -/
def failed (b : Build) (arg : Text) : Text :=
  "ASSERT(".toList ++ arg ++
    if b.terminal then
      if b.debug then ")FAILED- SLEEPING loop for debugger: ".toList
      else ")FAILED- EXITING with error: ".toList
    else ")FAILED: ".toList

/-- `_poAssert`, with the text that its format comes to. -/
def poAssert (b : Build) (p : Process) (l : Location) (boolArg : Bool) (arg message : Text) :
    Report :=
  if boolArg then ⟨[], none⟩
  else
    let pre := snprintf [] 256 (failed b arg)
    if b.elogError then
      let report := poELogV b p pre l message
      { report with calls := ⟨256, 0, 256⟩ :: report.calls }
    else
      let len := pre.length
      let text := l.file ++ ":".toList ++ decimal l.line ++ ":".toList ++ l.func ++
        "():pid=".toList ++ decimal p.pid ++ ":".toList
      let pre' := snprintf pre 256 text
      let len' := pre'.length
      ⟨[⟨256, 0, 256⟩, ⟨256, len, 256⟩, ⟨256, len', 256⟩], some (snprintf pre' 256 message)⟩

variable {b : Build} {p : Process} {l : Location}

/-! ## Bounds -/

theorem inBounds_whole (n : ℕ) : (⟨n, 0, n⟩ : FormatCall).InBounds := Nat.le_of_eq (Nat.zero_add n)

/-- A call that is given what is left. -/
theorem inBounds_rest {n len : ℕ} (h : len < n) : (⟨n, len, n - len⟩ : FormatCall).InBounds :=
  Nat.le_of_eq (Nat.add_sub_cancel' (Nat.le_of_lt h))

/-- A call that is given the size of the array, but not its beginning. -/
theorem not_inBounds_of_pos {n len : ℕ} (h : 0 < len) :
    ¬ (⟨n, len, n⟩ : FormatCall).InBounds :=
  Nat.not_le_of_lt (Nat.lt_add_of_pos_left h)

/-- An array that was empty is not filled, since there is room for the `NUL`. -/
theorem length_snprintf_nil_lt {size : ℕ} (h : 0 < size) (text : Text) :
    (snprintf [] size text).length < size := by
  rw [snprintf, List.nil_append, List.length_take]
  omega

theorem inBounds_timestamp : ∀ c ∈ (timestamp b p).1, c.InBounds := by
  intro c hc
  unfold timestamp at hc
  split at hc
  · rw [List.mem_singleton.mp hc]
    exact inBounds_whole 42
  · cases hc

theorem inBounds_cause : ∀ c ∈ (cause p).1, c.InBounds := by
  intro c hc
  unfold cause at hc
  split at hc
  · rw [List.mem_singleton.mp hc]
    exact inBounds_whole 128
  · cases hc

/-- `_poELogV` gives each call the size that is left. -/
theorem calls_poELogV (b : Build) (p : Process) (pre : Text) (l : Location) (message : Text) :
    ∃ len < 256, (poELogV b p pre l message).calls =
      (timestamp b p).1 ++ (cause p).1 ++ [⟨256, 0, 256⟩, ⟨256, len, 256 - len⟩] :=
  ⟨_, length_snprintf_nil_lt (by decide) _, rfl⟩

theorem inBounds_poELogV (pre message : Text) :
    ∀ c ∈ (poELogV b p pre l message).calls, c.InBounds := by
  obtain ⟨len, hlen, hcalls⟩ := calls_poELogV b p pre l message
  intro c hc
  rw [hcalls] at hc
  rcases List.mem_append.mp hc with hc | hc
  · exact (List.mem_append.mp hc).elim (inBounds_timestamp c) (inBounds_cause c)
  · rcases List.mem_pair.mp hc with rfl | rfl
    · exact inBounds_whole 256
    · exact inBounds_rest hlen

/-- An assertion that holds reports nothing. -/
theorem calls_poAssert_of_holds (arg message : Text) :
    (poAssert b p l true arg message).calls = [] := rfl

/-- The second call of an assertion that does not leave its report to `_poELogV`. -/
theorem calls_poAssert_of_fails (h : b.elogError = false) (arg message : Text) :
    ∃ len, 0 < len ∧ ⟨256, len, 256⟩ ∈ (poAssert b p l false arg message).calls := by
  refine ⟨(snprintf [] 256 (failed b arg)).length, ?_, ?_⟩
  · have hbegin : "ASSERT(".toList ≠ [] := by decide
    have hne : failed b arg ≠ [] :=
      List.append_ne_nil_of_left_ne_nil (List.append_ne_nil_of_left_ne_nil hbegin _) _
    rw [snprintf, List.nil_append, List.length_take]
    exact Nat.lt_min.mpr ⟨by decide, List.length_pos_of_ne_nil hne⟩
  · rw [poAssert, if_neg Bool.false_ne_true, h, if_neg Bool.false_ne_true]
    exact List.mem_cons_of_mem _ List.mem_cons_self

/-- An assertion that fails gets its calls right if `_poELogV` makes them. -/
theorem inBounds_poAssert (arg message : Text) :
    (∀ c ∈ (poAssert b p l false arg message).calls, c.InBounds) ↔ b.elogError = true := by
  cases helog : b.elogError with
  | true =>
      refine iff_of_true (fun c hc ↦ ?_) rfl
      rw [poAssert, if_neg Bool.false_ne_true, helog, if_pos rfl] at hc
      rcases List.mem_cons.mp hc with rfl | hc
      · exact inBounds_whole 256
      · exact inBounds_poELogV _ message c hc
  | false =>
      obtain ⟨len, hlen, hmem⟩ := calls_poAssert_of_fails (p := p) (l := l) helog arg message
      exact iff_of_false (fun hall ↦ not_inBounds_of_pos hlen (hall _ hmem)) Bool.false_ne_true

/-- **Reports stay inside their arrays** if and only if the assertion holds or leaves the report
to `_poELogV`. -/
theorem inBounds_iff (b : Build) (p : Process) (l : Location) (boolArg : Bool)
    (arg pre message : Text) :
    (∀ c ∈ (poAssert b p l boolArg arg message).calls ++ (poELogV b p pre l message).calls,
        c.InBounds) ↔
      boolArg = true ∨ b.elogError = true := by
  rw [List.forall_mem_append, and_iff_left (inBounds_poELogV pre message)]
  cases boolArg with
  | true =>
      rw [calls_poAssert_of_holds]
      exact iff_of_true (fun c hc ↦ absurd hc List.not_mem_nil) (.inl rfl)
  | false =>
      rw [inBounds_poAssert arg message]
      exact ⟨.inr, fun hor ↦ hor.resolve_left Bool.false_ne_true⟩

/-- `PO_DEBUG` and nothing else. -/
def plain : Build := ⟨true, false, false, false, false, rfl⟩

/-- An assertion of one letter fails. -/
theorem not_inBounds_of_plain :
    ¬ ∀ (b : Build) (p : Process) (l : Location) (boolArg : Bool) (arg message : Text),
      ∀ c ∈ (poAssert b p l boolArg arg message).calls, c.InBounds := by
  intro h
  have hcalls := h plain ⟨[], 0, [], 1, 1⟩ ⟨['f'], 1, ['g']⟩ false ['x'] ['\n']
  exact absurd ((inBounds_poAssert ['x'] ['\n']).mp hcalls) (by decide)

end Tidbits.Potato.Reporting
