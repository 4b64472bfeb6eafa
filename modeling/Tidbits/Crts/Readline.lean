import Mathlib.Data.List.DropRight
import Tidbits.Libc.Memory
import Tidbits.Libc.Strtoul

/-!
# The lines that are sent

`Readline::read` gives one line of input to the caller, behind a prefix and
without the white space at its end.  A line that does not fit is cut, so that
there is room for a terminator behind it.

The terminator is not counted in what is returned, but for a line that was cut:
`read_meets_iff`.  Nothing is written behind the buffer in either case:
`mem_read_of_le`.

The lines that `readline()` gives are a list, and it gives none at the end of the
input.  The history of the lines is left out.
-/

namespace Tidbits.Crts.Readline

open Tidbits.Libc

/-! ## The function -/

/-- `IS_WHITE`; the bytes from 128 on are white whether `char` is signed or not. -/
def isWhite (c : UInt8) : Bool := c < 33 || 126 < c

/-- The line without white space at its end. -/
def strip (line : CString) : List UInt8 := line.bytes.rdropWhile isWhite

/-- The line that makes the program exit: `exit` or `quit`. -/
def isExit (line : List UInt8) : Bool :=
  line = [101, 120, 105, 116] || line = [113, 117, 105, 116]

/-- What a call of `read` returns and what it leaves behind. -/
structure Result where
  nRet : ℕ
  /-- The memory from `buffer` on. -/
  mem : Memory
  reading : Bool
  /-- The lines that were not read. -/
  lines : List CString

/-- The prefix is put in front of the line. -/
def sendsPrefix (sendPrefix : CString) (bufferLen : ℕ) : Bool :=
  sendPrefix.bytes.length ≠ 0 && sendPrefix.bytes.length < bufferLen

/-- How many bytes there are in the buffer in front of the line. -/
def prefixLen (sendPrefix : CString) (bufferLen : ℕ) : ℕ :=
  if sendsPrefix sendPrefix bufferLen then sendPrefix.bytes.length else 0

/-- The buffer with the prefix, and with the line at this place behind it. -/
def copyPrefix (sendPrefix : CString) (bufferLen : ℕ) (mem : Memory) : Memory :=
  if sendsPrefix sendPrefix bufferLen then store mem 0 sendPrefix.bytes else mem

/-- The line is copied to the address `start`, where `bufferLen` bytes are left. -/
def copyLine (line : List UInt8) (start bufferLen : ℕ) (mem : Memory) : ℕ × Memory :=
  if line.length < bufferLen then (line.length, store mem start (line ++ [0]))
  else
    (bufferLen,
      store (store mem start (line.take (bufferLen - 1))) (start + (bufferLen - 1)) [0])

/-- `Readline::read`. -/
def read (sendPrefix : CString) (bufferLen : ℕ) (mem : Memory) : Bool → List CString → Result
  | false, lines => ⟨0, mem, false, lines⟩
  | true, [] => ⟨0, mem, false, []⟩
  | true, line :: lines =>
      if strip line = [] then read sendPrefix bufferLen mem true lines
      else if isExit (strip line) then ⟨0, mem, false, lines⟩
      else
        let start := prefixLen sendPrefix bufferLen
        let (copied, mem) :=
          copyLine (strip line) start (bufferLen - start) (copyPrefix sendPrefix bufferLen mem)
        ⟨start + copied, mem, true, lines⟩

/-! ## What is asked of it -/

/-- The line that a call takes, if it returns one. -/
def taken : List CString → Option (List UInt8)
  | [] => none
  | line :: lines =>
      if strip line = [] then taken lines
      else if isExit (strip line) then none
      else some (strip line)

/-- The prefix, when it is shorter than the buffer, and the line, cut so that there is a byte left
for the terminator. -/
def content (sendPrefix : CString) (bufferLen : ℕ) (line : List UInt8) : List UInt8 :=
  let start := if sendPrefix.bytes.length < bufferLen then sendPrefix.bytes else []
  start ++ line.take (bufferLen - start.length - 1)

/-- The call writes into its buffer only, and what it returns are the bytes of the line. -/
def Meets (sendPrefix : CString) (bufferLen : ℕ) (mem : Memory) (lines : List CString)
    (r : Result) : Prop :=
  (∀ k, bufferLen ≤ k → r.mem k = mem k) ∧
    (0 < r.nRet → ∃ line, taken lines = some line ∧
      load r.mem 0 r.nRet = content sendPrefix bufferLen line)

/-! ## The prefix -/

variable {sendPrefix : CString} {bufferLen : ℕ} {mem : Memory} {line : List UInt8}

theorem prefixLen_lt (hpos : 0 < bufferLen) : prefixLen sendPrefix bufferLen < bufferLen := by
  unfold prefixLen
  split_ifs with hsends
  · exact of_decide_eq_true (Bool.and_eq_true_iff.mp hsends).2
  · exact hpos

/-- What is in the buffer in front of the line. -/
theorem load_copyPrefix (sendPrefix : CString) (bufferLen : ℕ) (mem : Memory) :
    load (copyPrefix sendPrefix bufferLen mem) 0 (prefixLen sendPrefix bufferLen) =
      if sendPrefix.bytes.length < bufferLen then sendPrefix.bytes else [] := by
  unfold copyPrefix prefixLen
  by_cases hsends : sendsPrefix sendPrefix bufferLen = true
  · have hshort := of_decide_eq_true (Bool.and_eq_true_iff.mp hsends).2
    rw [if_pos hsends, if_pos hsends, load_store (Nat.le_refl _), List.take_length, if_pos hshort]
  · rw [if_neg hsends, if_neg hsends]
    split_ifs with hshort
    · have hzero : sendPrefix.bytes.length = 0 := by
        by_contra hne
        exact hsends (Bool.and_eq_true_iff.mpr ⟨decide_eq_true hne, decide_eq_true hshort⟩)
      exact (List.length_eq_zero_iff.mp hzero).symm
    · rfl

theorem copyPrefix_of_le {k : ℕ} (hk : bufferLen ≤ k) :
    copyPrefix sendPrefix bufferLen mem k = mem k := by
  unfold copyPrefix
  split_ifs with hsends
  · have hshort := of_decide_eq_true (Bool.and_eq_true_iff.mp hsends).2
    exact store_of_le (by omega)
  · rfl

theorem length_content_start (sendPrefix : CString) (bufferLen : ℕ) :
    (if sendPrefix.bytes.length < bufferLen then sendPrefix.bytes else []).length =
      prefixLen sendPrefix bufferLen := by
  rw [← load_copyPrefix sendPrefix bufferLen fun _ ↦ 0, length_load]

/-! ## The line -/

/-- The two branches write to the bytes that are left. -/
theorem copyLine_of_le {start room k : ℕ} (hroom : 0 < room) (hk : start + room ≤ k) :
    (copyLine line start room mem).2 k = mem k := by
  unfold copyLine
  split_ifs with hfits
  · refine store_of_le ?_
    rw [List.length_append, List.length_singleton]
    omega
  · have hlast : start + (room - 1) + ([0] : List UInt8).length ≤ k := by
      rw [List.length_singleton]
      omega
    have hcut : start + (line.take (room - 1)).length ≤ k := by
      rw [List.length_take]
      omega
    dsimp only
    rw [store_of_le hlast, store_of_le hcut]

/-- The line is copied behind the prefix, and into the buffer only. -/
theorem copyLine_copyPrefix_of_le {k : ℕ} (hpos : 0 < bufferLen) (hk : bufferLen ≤ k) :
    (copyLine line (prefixLen sendPrefix bufferLen) (bufferLen - prefixLen sendPrefix bufferLen)
      (copyPrefix sendPrefix bufferLen mem)).2 k = mem k := by
  have hstart : prefixLen sendPrefix bufferLen < bufferLen := prefixLen_lt hpos
  rw [copyLine_of_le (Nat.sub_pos_of_lt hstart) (by omega), copyPrefix_of_le hk]

/-- A line that fits is in the buffer as a whole. -/
theorem load_copyLine {start room : ℕ} (hfits : line.length < room) :
    load (copyLine line start room mem).2 0 (start + line.length) =
      load mem 0 start ++ line := by
  have hline : line.length ≤ (line ++ [0]).length := by
    rw [List.length_append]
    exact Nat.le_add_right _ _
  unfold copyLine
  rw [if_pos hfits, load_add, load_store_of_disjoint (.inl (Nat.le_of_eq (Nat.zero_add start))),
    Nat.zero_add, load_store hline, List.take_left]

/-- **What a call does with the line that it takes.** -/
theorem meets_of_taken {lines rest : List CString} (hpos : 0 < bufferLen)
    (htaken : taken lines = some line) (hne : line ≠ []) :
    let start := prefixLen sendPrefix bufferLen
    let r := copyLine line start (bufferLen - start) (copyPrefix sendPrefix bufferLen mem)
    Meets sendPrefix bufferLen mem lines ⟨start + r.1, r.2, true, rest⟩ ↔
      start + line.length < bufferLen := by
  have hstart : prefixLen sendPrefix bufferLen < bufferLen := prefixLen_lt hpos
  have hlineLength : 0 < line.length := List.length_pos_of_ne_nil hne
  dsimp only
  by_cases hfits : line.length < bufferLen - prefixLen sendPrefix bufferLen
  · refine iff_of_true ⟨fun k hk ↦ copyLine_copyPrefix_of_le hpos hk,
      fun _ ↦ ⟨line, htaken, ?_⟩⟩ (by omega)
    have hcopied : (copyLine line (prefixLen sendPrefix bufferLen)
        (bufferLen - prefixLen sendPrefix bufferLen)
        (copyPrefix sendPrefix bufferLen mem)).1 = line.length := by
      rw [copyLine, if_pos hfits]
    unfold content
    dsimp only
    rw [hcopied, load_copyLine hfits, load_copyPrefix, length_content_start,
      List.take_of_length_le (by omega)]
  · refine iff_of_false ?_ (by omega)
    rintro ⟨-, hcontent⟩
    have hcopied : (copyLine line (prefixLen sendPrefix bufferLen)
        (bufferLen - prefixLen sendPrefix bufferLen)
        (copyPrefix sendPrefix bufferLen mem)).1 = bufferLen - prefixLen sendPrefix bufferLen := by
      rw [copyLine, if_neg hfits]
    dsimp only at hcontent
    rw [hcopied] at hcontent
    obtain ⟨line', htaken', heq⟩ := hcontent (by omega)
    obtain rfl := Option.some.inj (htaken.symm.trans htaken')
    -- the terminator is one byte too many
    have hlength := congrArg List.length heq
    unfold content at hlength
    dsimp only at hlength
    rw [length_load, List.length_append, length_content_start, List.length_take] at hlength
    omega

/-! ## The call -/

/-- **Nothing is written behind the buffer**, whether the line is cut or not. -/
theorem mem_read_of_le {k : ℕ} (reading : Bool) (lines : List CString) (hpos : 0 < bufferLen)
    (hk : bufferLen ≤ k) : (read sendPrefix bufferLen mem reading lines).mem k = mem k := by
  fun_induction read sendPrefix bufferLen mem reading lines with
  | case1 => rfl
  | case2 => rfl
  | case3 line lines hblank ih => exact ih
  | case4 => rfl
  | case5 line lines hblank hexit start copied mem' hcopy =>
      have hmem : (copyLine (strip line) start (bufferLen - start)
          (copyPrefix sendPrefix bufferLen mem)).2 = mem' := congrArg Prod.snd hcopy
      rw [← hmem]
      exact copyLine_copyPrefix_of_le hpos hk

theorem meets_of_nRet_eq_zero {r : Result} {lines : List CString} (hmem : r.mem = mem)
    (hzero : r.nRet = 0) : Meets sendPrefix bufferLen mem lines r := by
  refine ⟨fun k _ ↦ congrFun hmem k, fun hn ↦ ?_⟩
  rw [hzero] at hn
  exact absurd hn (Nat.lt_irrefl 0)

/-- **When a call returns the bytes of its line.**  The line has to fit with the prefix; of one that
is cut the terminator is counted. -/
theorem read_meets_iff (sendPrefix : CString) (bufferLen : ℕ) (mem : Memory) (reading : Bool)
    (lines : List CString) (hpos : 0 < bufferLen) :
    Meets sendPrefix bufferLen mem lines (read sendPrefix bufferLen mem reading lines) ↔
      (reading = true → ∀ line ∈ taken lines,
        prefixLen sendPrefix bufferLen + line.length < bufferLen) := by
  cases reading with
  | false =>
      refine iff_of_true (meets_of_nRet_eq_zero ?_ ?_) fun h ↦ nomatch h
      · cases lines <;> rfl
      · cases lines <;> rfl
  | true =>
      simp only [forall_const]
      induction lines with
      | nil => exact iff_of_true (meets_of_nRet_eq_zero rfl rfl) fun _ h ↦ nomatch h
      | cons line lines ih =>
          by_cases hblank : strip line = []
          · have htaken : taken (line :: lines) = taken lines := by rw [taken, if_pos hblank]
            rw [read, if_pos hblank, Meets, htaken]
            exact ih
          by_cases hexit : isExit (strip line) = true
          · have htaken : taken (line :: lines) = none := by
              rw [taken, if_neg hblank, if_pos hexit]
            rw [read, if_neg hblank, if_pos hexit, htaken]
            exact iff_of_true (meets_of_nRet_eq_zero rfl rfl) fun _ h ↦ nomatch h
          · have htaken : taken (line :: lines) = some (strip line) := by
              rw [taken, if_neg hblank, if_neg hexit]
            rw [read, if_neg hblank, if_neg hexit, htaken]
            simp only [Option.mem_some_iff, forall_eq']
            exact meets_of_taken hpos htaken hblank

/-- The empty string. -/
def noPrefix : CString := ⟨[], by decide⟩

/-- The line `hello`. -/
def hello : CString := ⟨[104, 101, 108, 108, 111], by decide⟩

/-- The line and its terminator fill the buffer. -/
theorem read_meets_hello :
    Meets noPrefix 6 (fun _ ↦ 0) [hello] (read noPrefix 6 (fun _ ↦ 0) true [hello]) := by
  refine (read_meets_iff noPrefix 6 (fun _ ↦ 0) true [hello] (by decide)).mpr fun _ ↦ ?_
  decide

/-- Of `hello`, a buffer of five bytes takes four and a terminator, and the call returns five. -/
theorem read_hello_cut :
    ¬ ∀ sendPrefix bufferLen mem reading lines, 0 < bufferLen →
      Meets sendPrefix bufferLen mem lines (read sendPrefix bufferLen mem reading lines) := by
  intro h
  have htaken : taken [hello] = some (strip hello) := rfl
  have hmeets := h noPrefix 5 (fun _ ↦ 0) true [hello] (by decide)
  exact absurd ((meets_of_taken (by decide) htaken (by decide)).mp hmeets) (by decide)

end Tidbits.Crts.Readline
