import Mathlib.Algebra.Group.Int.Defs
import Mathlib.Algebra.Group.Nat.Defs
import Tidbits.Service.Output

/-!
# The formatting loop of `poService_sendF()`

The loop formats into a buffer, and once more into a larger one if the first was
too small.  `vsnprintf()` returns a negative number on error, and the comparison
with the length of the buffer converts it to an unsigned one, which is larger than
that of the first buffer.  The length of the next is 0 then, and nothing is smaller
than that, or so large that there is no such buffer: `not_ends_of_error`.
`formatPasses_meets_iff` says that the loop does what it should in all other cases.

`malloc()` is a parameter that says which sizes it has a buffer for.  A buffer is the
list of the bytes written to it.
-/

namespace Tidbits.Service

/-! ## The loop -/

/-- What the format and its arguments come to. -/
inductive Formatted
  | text (bytes : List UInt8)
  | error (code : ℤ)

namespace Formatted

/-- What `vsnprintf()` returns. -/
def result : Formatted → ℤ
  | text bytes => bytes.length
  | error code => code

/-- What `vsnprintf()` writes to a buffer of `len` bytes. -/
def write (len : ℕ) : Formatted → List UInt8
  | text bytes => if len = 0 then [] else bytes.take (len - 1) ++ [0]
  | error _ => []

/-- The result is an `int`, and an error is negative. -/
def Possible : Formatted → Prop
  | text bytes => (bytes.length : ℤ) ≤ 2 ^ 31 - 2
  | error code => -2 ^ 31 ≤ code ∧ code < 0

end Formatted

/-- The values of `PO_SERVICE_CHUNKLEN`, which is checked to be no less than 2, and is an `int`. -/
structure ChunkLen where
  value : ℕ
  two_le : 2 ≤ value
  lt : value < 2 ^ 31

/-- The variables of the loop. -/
structure Formatting where
  n : ℤ
  buffer : Option (List UInt8)
  /-- How many buffers there are. -/
  allocated : ℕ
  loopCount : ℕ

/-- The variables before the loop. -/
def Formatting.start (chunkLen : ChunkLen) : Formatting := ⟨chunkLen.value - 1, none, 0, 0⟩

/-- The conversion of an `int` to `size_t`. -/
def toSize (n : ℤ) : ℕ := (n % 2 ^ 64).toNat

/-- What a pass of the loop leads to. -/
inductive FormatPass
  | again (s : Formatting)
  | ends (s : Formatting)
  | assertFails

/-- A pass of the loop; `debug` says whether `PO_DEBUG` is defined. -/
def formatPass (debug : Bool) (malloc : ℕ → Bool) (f : Formatted) (s : Formatting) : FormatPass :=
  let kept := if s.buffer.isSome then s.allocated - 1 else s.allocated
  let len := toSize (s.n + 1)
  if malloc len then
    let s := ⟨f.result, some (f.write len), kept + 1, s.loopCount⟩
    if len ≤ toSize f.result then
      if debug then
        if s.loopCount + 1 < 2 then .again { s with loopCount := s.loopCount + 1 }
        else .assertFails
      else .again s
    else .ends s
  else .assertFails

/-- The loop; `none` if it takes more passes.  If it does not fail an `ASSERT`, these are its
variables behind it. -/
def formatPasses (debug : Bool) (malloc : ℕ → Bool) (f : Formatted) :
    ℕ → Formatting → Option (Option Formatting)
  | 0, _ => none
  | passes + 1, s =>
      match formatPass debug malloc f s with
      | .again s => formatPasses debug malloc f passes s
      | .ends s => some (some s)
      | .assertFails => some none

/-- The item that is queued behind the loop. -/
def Formatting.item (s : Formatting) : OutBuffer := ⟨(s.buffer.getD []).take s.n.toNat, 0⟩

/-- The loop ends after at most two passes with at most one buffer, and the bytes are queued. -/
def FormatMeets (debug : Bool) (malloc : ℕ → Bool) (chunkLen : ChunkLen) (f : Formatted) : Prop :=
  ∃ s, formatPasses debug malloc f 2 (.start chunkLen) = some (some s) ∧ s.allocated ≤ 1 ∧
    ∀ bytes, f = .text bytes → 1 ≤ bytes.length → s.item = ⟨bytes, 0⟩

/-! ## The two kinds of results -/

section Loop

variable {debug : Bool} {malloc : ℕ → Bool} {chunkLen : ChunkLen} {f : Formatted}
  {s : Formatting}

theorem toSize_ofNat {n : ℕ} (h : n < 2 ^ 64) : toSize n = n := by
  unfold toSize
  omega

theorem toSize_of_neg {n : ℤ} (hlow : -2 ^ 31 ≤ n) (hneg : n < 0) : 2 ^ 63 ≤ toSize n := by
  unfold toSize
  omega

/-- A pass goes on when the result does not fit, in a debugging build only once. -/
theorem formatPass_eq (debug : Bool) (f : Formatted) (s : Formatting)
    (hmalloc : malloc (toSize (s.n + 1)) = true) (hfull : toSize (s.n + 1) ≤ toSize f.result)
    (hdebug : debug = true → s.loopCount = 0) :
    ∃ loopCount, formatPass debug malloc f s = .again ⟨f.result,
      some (f.write (toSize (s.n + 1))),
      (if s.buffer.isSome then s.allocated - 1 else s.allocated) + 1, loopCount⟩ := by
  unfold formatPass
  dsimp only
  rw [if_pos hmalloc, if_pos hfull]
  cases debug with
  | false => exact ⟨_, rfl⟩
  | true =>
      rw [if_pos rfl, if_pos (by rw [hdebug rfl]; decide)]
      exact ⟨_, rfl⟩

theorem formatPass_eq_ends (debug : Bool) (f : Formatted) (s : Formatting)
    (hmalloc : malloc (toSize (s.n + 1)) = true)
    (hfits : toSize f.result < toSize (s.n + 1)) :
    formatPass debug malloc f s = .ends ⟨f.result, some (f.write (toSize (s.n + 1))),
      (if s.buffer.isSome then s.allocated - 1 else s.allocated) + 1, s.loopCount⟩ := by
  unfold formatPass
  dsimp only
  rw [if_pos hmalloc, if_neg (Nat.not_le_of_lt hfits)]

theorem formatPasses_of_ends {passes : ℕ} {s₁ : Formatting}
    (hends : formatPass debug malloc f s = .ends s₁) :
    formatPasses debug malloc f (passes + 1) s = some (some s₁) := by
  rw [formatPasses, hends]

theorem formatPasses_of_again {s₁ s₂ : Formatting}
    (hagain : formatPass debug malloc f s = .again s₁)
    (hends : formatPass debug malloc f s₁ = .ends s₂) :
    formatPasses debug malloc f 2 s = some (some s₂) := by
  rw [formatPasses, hagain]
  exact formatPasses_of_ends hends

/-! ### Errors -/

/-- An error is not smaller than the length of any buffer. -/
theorem formatPass_ne_ends {code : ℤ} (hlow : -2 ^ 31 ≤ code) (hneg : code < 0)
    (hlarge : ∀ size, 2 ^ 63 ≤ size → malloc size = false) (s s' : Formatting) :
    formatPass debug malloc (.error code) s ≠ .ends s' := by
  intro hends
  have hresult := toSize_of_neg hlow hneg
  unfold formatPass at hends
  dsimp only at hends
  rw [Formatted.result] at hends
  by_cases hmalloc : malloc (toSize (s.n + 1)) = true
  · have hlen : toSize (s.n + 1) ≤ toSize code := by
      refine Nat.le_of_not_lt fun hlong ↦ ?_
      have hhuge : 2 ^ 63 ≤ toSize (s.n + 1) := Nat.le_of_lt (Nat.lt_of_le_of_lt hresult hlong)
      exact nomatch hmalloc.symm.trans (hlarge _ hhuge)
    rw [if_pos hmalloc, if_pos hlen] at hends
    split_ifs at hends
  · rw [if_neg hmalloc] at hends
    cases hends

/-- **With an error the loop does not end**, in however many passes. -/
theorem not_ends_of_error {code : ℤ} (hlow : -2 ^ 31 ≤ code) (hneg : code < 0)
    (hlarge : ∀ size, 2 ^ 63 ≤ size → malloc size = false) (passes : ℕ) (s s' : Formatting) :
    formatPasses debug malloc (.error code) passes s ≠ some (some s') := by
  induction passes generalizing s with
  | zero => exact fun h ↦ nomatch h
  | succ passes ih =>
      rw [formatPasses]
      cases hpass : formatPass debug malloc (.error code) s with
      | again s₁ => exact ih s₁
      | ends s₁ => exact absurd hpass (formatPass_ne_ends hlow hneg hlarge s s₁)
      | assertFails => exact fun h ↦ nomatch h

/-! ### Texts -/

theorem toSize_start (chunkLen : ChunkLen) :
    toSize ((Formatting.start chunkLen).n + 1) = chunkLen.value := by
  have hn : (Formatting.start chunkLen).n + 1 = chunkLen.value := Int.sub_add_cancel _ _
  have hlt := chunkLen.lt
  rw [hn, toSize_ofNat (by omega)]

/-- The buffer has room for all of the text and its terminator. -/
theorem item_eq {bytes : List UInt8} {len : ℕ} (hfits : bytes.length < len)
    (allocated loopCount : ℕ) :
    Formatting.item ⟨bytes.length, some ((Formatted.text bytes).write len), allocated,
      loopCount⟩ = ⟨bytes, 0⟩ := by
  have hwritten : (Formatted.text bytes).write len = bytes ++ [0] := by
    rw [Formatted.write, if_neg (by omega), List.take_of_length_le (by omega)]
  rw [Formatting.item, hwritten]
  dsimp only
  rw [Option.getD_some, Int.toNat_natCast, List.take_left]

theorem entry_sendF (chunkLen : ℕ) (bytes : List UInt8) :
    (SendCall.sendF bytes).entry chunkLen = ⟨bytes, 0⟩ := by
  rw [SendCall.entry, formatLoop_eq]

/-- **A text is formatted in at most two passes**, and is queued as `SendCall.entry` says. -/
theorem exists_formatPasses (debug : Bool) (chunkLen : ChunkLen) {bytes : List UInt8}
    (hlength : (bytes.length : ℤ) ≤ 2 ^ 31 - 2)
    (hsmall : ∀ size, 0 < size → size < 2 ^ 31 → malloc size = true) :
    ∃ s, formatPasses debug malloc (.text bytes) 2 (.start chunkLen) = some (some s) ∧
      s.allocated = 1 ∧ s.item = (SendCall.sendF bytes).entry chunkLen.value := by
  rw [entry_sendF]
  have htwo := chunkLen.two_le
  have hlt := chunkLen.lt
  have hresult : toSize (Formatted.text bytes).result = bytes.length := toSize_ofNat (by omega)
  have hmalloc : malloc (toSize ((Formatting.start chunkLen).n + 1)) = true := by
    rw [toSize_start]
    exact hsmall _ (by omega) hlt
  rcases Nat.lt_or_ge bytes.length chunkLen.value with hfits | hfull
  · -- the first buffer has room
    have hpass := formatPass_eq_ends debug (.text bytes) (.start chunkLen) hmalloc
      (by rw [hresult, toSize_start]; exact hfits)
    rw [toSize_start] at hpass
    exact ⟨_, formatPasses_of_ends hpass, rfl, item_eq hfits _ _⟩
  · obtain ⟨loopCount, hpass⟩ := formatPass_eq debug (.text bytes) (.start chunkLen) hmalloc
      (by rw [hresult, toSize_start]; exact hfull) (fun _ ↦ rfl)
    -- the second is made for the text
    have hlen : toSize (((bytes.length : ℕ) : ℤ) + 1) = bytes.length + 1 :=
      toSize_ofNat (n := bytes.length + 1) (by omega)
    have hends := formatPass_eq_ends debug (.text bytes) ⟨bytes.length,
        some ((Formatted.text bytes).write (toSize ((Formatting.start chunkLen).n + 1))), 1,
        loopCount⟩
      (by rw [hlen]; exact hsmall _ (Nat.succ_pos _) (by omega))
      (by rw [hresult, hlen]; exact Nat.lt_succ_self _)
    rw [hlen] at hends
    exact ⟨_, formatPasses_of_again hpass hends, rfl, item_eq (Nat.lt_succ_self _) _ _⟩

end Loop

/-- **When the loop ends as it should.**  The result of `vsnprintf()` has to be no error. -/
theorem formatPasses_meets_iff (debug : Bool) (malloc : ℕ → Bool) (chunkLen : ChunkLen)
    (f : Formatted) (hf : f.Possible)
    (hsmall : ∀ size, 0 < size → size < 2 ^ 31 → malloc size = true)
    (hlarge : ∀ size, 2 ^ 63 ≤ size → malloc size = false) :
    FormatMeets debug malloc chunkLen f ↔ 0 ≤ f.result := by
  cases f with
  | text bytes =>
      refine iff_of_true ?_ (Int.natCast_nonneg _)
      obtain ⟨s, hpasses, hallocated, hitem⟩ := exists_formatPasses debug chunkLen hf hsmall
      refine ⟨s, hpasses, Nat.le_of_eq hallocated, ?_⟩
      intro bytes' htext _
      obtain rfl := Formatted.text.inj htext
      rw [hitem, entry_sendF]
  | error code =>
      refine iff_of_false ?_ (Int.not_le_of_gt hf.2)
      rintro ⟨s, hpasses, -⟩
      exact not_ends_of_error hf.1 hf.2 hlarge 2 _ s hpasses

/-- A `malloc()` that has every buffer of less than half of the memory. -/
def halfMemory (size : ℕ) : Bool := size < 2 ^ 63

theorem halfMemory_small (size : ℕ) (_ : 0 < size) (h : size < 2 ^ 31) :
    halfMemory size = true :=
  decide_eq_true (by omega)

theorem halfMemory_large (size : ℕ) (h : 2 ^ 63 ≤ size) : halfMemory size = false :=
  decide_eq_false (by omega)

/-- `PO_SERVICE_CHUNKLEN` is 1024. -/
def chunkLen1024 : ChunkLen := ⟨1024, by decide, by decide⟩

/-- The smallest `PO_SERVICE_CHUNKLEN`. -/
def chunkLen2 : ChunkLen := ⟨2, Nat.one_lt_two, by decide⟩

/-- A text of three bytes takes a second pass with a larger buffer, and is queued. -/
theorem formatPasses_meets_text :
    formatPasses true halfMemory (.text [104, 105, 33]) 1 (.start chunkLen2) = none ∧
      ∃ s, formatPasses true halfMemory (.text [104, 105, 33]) 2 (.start chunkLen2) =
        some (some s) ∧ s.allocated ≤ 1 ∧ s.item = ⟨[104, 105, 33], 0⟩ := by
  have hpossible : (Formatted.text [104, 105, 33]).Possible := by
    unfold Formatted.Possible
    decide
  obtain ⟨s, hpasses, hallocated, hitem⟩ :=
    (formatPasses_meets_iff true halfMemory chunkLen2 (.text [104, 105, 33]) hpossible
      halfMemory_small halfMemory_large).mpr (by decide)
  exact ⟨rfl, s, hpasses, hallocated, hitem _ rfl (by decide)⟩

/-- `vsnprintf()` returns -1. -/
theorem formatPasses_error :
    ¬ ∀ debug malloc chunkLen f, f.Possible →
      (∀ size, 0 < size → size < 2 ^ 31 → malloc size = true) →
      (∀ size, 2 ^ 63 ≤ size → malloc size = false) → FormatMeets debug malloc chunkLen f := by
  intro h
  have hf : (Formatted.error (-1)).Possible := by
    unfold Formatted.Possible
    decide
  obtain ⟨s, hpasses, -⟩ :=
    h false halfMemory chunkLen1024 (.error (-1)) hf halfMemory_small halfMemory_large
  exact not_ends_of_error hf.1 hf.2 halfMemory_large 2 _ s hpasses

end Tidbits.Service
