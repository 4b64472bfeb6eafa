import Mathlib.Algebra.Group.Nat.Defs
import Mathlib.Data.List.TakeWhile
import Mathlib.Data.Set.Defs

/-!
# `strtoul` on C strings

A C string is the list of its bytes up to the terminating `NUL`.  `strtoul` is
the base-ten conversion of the C library in the `C` locale: it skips white
space, takes an optional sign and then as many digits as there are, and says
nothing about the bytes after them.  What the standard leaves open is collected
in `Platform`.

`strtoul_append` gives the value of a run of digits, whatever follows it, and
`digits_of_strtoul_pair` recovers the digits from a two-digit value.
-/

namespace Tidbits.Libc

/-- A C string, without the terminating `NUL`. -/
structure CString where
  bytes : List UInt8
  zero_notMem : 0 ∉ bytes

/-- What the C standard leaves to the platform. -/
structure Platform where
  /-- `ULONG_MAX`. -/
  ulongMax : ℕ
  le_ulongMax : 2 ^ 32 - 1 ≤ ulongMax
  /-- Whether `strtoul` sets `errno` when there is nothing to convert. -/
  errnoIfEmpty : Bool

/-- `isspace`. -/
def isSpace (c : UInt8) : Bool := c = 32 || (9 ≤ c && c ≤ 13)

/-- `isdigit`. -/
def isDigit (c : UInt8) : Bool := 48 ≤ c && c ≤ 57

/-- The value of a run of decimal digits. -/
def digitsValue (digits : List UInt8) : ℕ :=
  digits.foldl (fun n c ↦ 10 * n + (c.toNat - 48)) 0

/-- Take an optional sign off; the flag says whether it was a minus. -/
def takeSign : List UInt8 → Bool × List UInt8
  | 43 :: s => (false, s)
  | 45 :: s => (true, s)
  | s => (false, s)

/-- The value of a run of digits after a sign, and whether `errno` was set. -/
def convert (p : Platform) (negative : Bool) (digits : List UInt8) : ℕ × Bool :=
  if digits = [] then (0, p.errnoIfEmpty)
  else if p.ulongMax < digitsValue digits then (p.ulongMax, true)
  else if negative then ((p.ulongMax + 1 - digitsValue digits) % (p.ulongMax + 1), false)
  else (digitsValue digits, false)

/-- `strtoul(s, 0, 10)`: the value returned, and whether `errno` was set. -/
def strtoul (p : Platform) (s : List UInt8) : ℕ × Bool :=
  let signed := takeSign (s.dropWhile isSpace)
  convert p signed.1 (signed.2.takeWhile isDigit)

theorem not_isSpace_of_isDigit {c : UInt8} (h : isDigit c = true) : isSpace c = false := by
  simp only [isDigit, isSpace, Bool.and_eq_true, decide_eq_true_eq, UInt8.le_iff_toNat_le] at h ⊢
  have hne : c ≠ 32 := by
    rintro rfl
    exact absurd h.1 (by decide)
  have hgt : 13 < c.toNat := lt_of_lt_of_le (by decide) h.1
  simp [hne, hgt]

theorem takeSign_of_isDigit {c : UInt8} {s : List UInt8} (h : isDigit c = true) :
    takeSign (c :: s) = (false, c :: s) := by
  unfold takeSign
  split
  · rename_i heq
    cases heq
    exact absurd h (by decide)
  · rename_i heq
    cases heq
    exact absurd h (by decide)
  · rfl

/-- A digit contributes its place in the alphabet. -/
theorem toNat_sub_le_nine {c : UInt8} (h : isDigit c = true) : c.toNat - 48 ≤ 9 := by
  simp only [isDigit, Bool.and_eq_true, decide_eq_true_eq, UInt8.le_iff_toNat_le] at h
  have h57 : (57 : UInt8).toNat = 57 := rfl
  omega

/-- **A run of digits is converted to its value**, whatever follows it. -/
theorem strtoul_append {p : Platform} {digits rest : List UInt8} (hne : digits ≠ [])
    (hdigits : ∀ c ∈ digits, isDigit c = true)
    (hrest : ∀ c, rest.head? = some c → isDigit c = false) :
    strtoul p (digits ++ rest) = convert p false digits := by
  have htake : (digits ++ rest).takeWhile isDigit = digits := by
    rw [List.takeWhile_append_of_pos hdigits]
    cases rest with
    | nil => simp
    | cons c rest => simp [hrest c rfl]
  obtain ⟨c, digits', rfl⟩ := List.exists_cons_of_ne_nil hne
  have hc := hdigits c (by simp)
  have hdrop : (c :: digits' ++ rest).dropWhile isSpace = c :: digits' ++ rest := by
    simp [not_isSpace_of_isDigit hc]
  have hsign : takeSign (c :: digits' ++ rest) = (false, c :: digits' ++ rest) :=
    takeSign_of_isDigit hc
  simp only [strtoul, hdrop, hsign, htake]

/-- A value in range is the value of the digits, without an error. -/
theorem convert_of_le {p : Platform} {digits : List UInt8} (hne : digits ≠ [])
    (hle : digitsValue digits ≤ p.ulongMax) :
    convert p false digits = (digitsValue digits, false) := by
  simp [convert, hne, hle.not_gt]

/-- Without an error a run of digits has the value returned. -/
theorem digitsValue_of_convert {p : Platform} {digits : List UInt8} (hne : digits ≠ [])
    (herrno : (convert p false digits).2 = false) :
    (convert p false digits).1 = digitsValue digits := by
  unfold convert at herrno ⊢
  split
  · rename_i h
    exact absurd h hne
  split
  · rename_i h
    simp [hne, h] at herrno
  · rfl

/-- At most one digit has a value below ten, or one close to the maximum when it
is negated. -/
theorem convert_of_length_le_one (p : Platform) (negative : Bool) {digits : List UInt8}
    (hlen : digits.length ≤ 1) (hdigits : ∀ c ∈ digits, isDigit c = true) :
    (convert p negative digits).1 < 10 ∨ 2 ^ 31 < (convert p negative digits).1 := by
  have hmax := p.le_ulongMax
  have hvalue : digitsValue digits ≤ 9 := by
    match digits, hlen with
    | [], _ => exact Nat.zero_le 9
    | [c], _ => simpa [digitsValue] using toNat_sub_le_nine (hdigits c (by simp))
  unfold convert
  split
  · exact .inl (Nat.zero_lt_succ 9)
  split
  · omega
  split
  · rcases Nat.eq_zero_or_pos (digitsValue digits) with h0 | hpos
    · exact .inl (by rw [h0, Nat.sub_zero, Nat.mod_self]; exact Nat.zero_lt_succ 9)
    · exact .inr (by rw [Nat.mod_eq_of_lt (by omega)]; omega)
  · exact .inl (by omega)

theorem takeSign_suffix (s : List UInt8) : (takeSign s).2 <:+ s := by
  unfold takeSign
  split
  · exact List.suffix_cons _ _
  · exact List.suffix_cons _ _
  · exact List.suffix_refl _

/-- Two bytes with a two-digit value are two digits. -/
theorem digits_of_strtoul_pair {p : Platform} {s : List UInt8} (hlen : s.length = 2)
    (hlow : 10 ≤ (strtoul p s).1) (hhigh : (strtoul p s).1 ≤ 2 ^ 31) :
    ∀ c ∈ s, isDigit c = true := by
  have hdigits : ∀ c ∈ (takeSign (s.dropWhile isSpace)).2.takeWhile isDigit, isDigit c = true :=
    fun c hc ↦ List.mem_takeWhile_imp hc
  have hsub : ((takeSign (s.dropWhile isSpace)).2.takeWhile isDigit).Sublist s :=
    (List.takeWhile_prefix _).sublist.trans
      ((takeSign_suffix _).sublist.trans (List.dropWhile_suffix _).sublist)
  have htwo : s.length ≤ ((takeSign (s.dropWhile isSpace)).2.takeWhile isDigit).length := by
    by_contra hlt
    have hshort := convert_of_length_le_one p (takeSign (s.dropWhile isSpace)).1
      (by omega) hdigits
    change (strtoul p s).1 < 10 ∨ 2 ^ 31 < (strtoul p s).1 at hshort
    omega
  rwa [hsub.eq_of_length_le htwo] at hdigits

end Tidbits.Libc
