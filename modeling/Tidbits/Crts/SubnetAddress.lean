import Tidbits.Libc.Strtoul
import Mathlib.Tactic.Push

/-!
# The check of a subnet address

`checkSubnetAddress` of `getTunViaUSocket.cpp` is the only test that the
argument of `crts_mkTUN` has to pass before it becomes part of a shell command.
It is meant to accept the strings `m.n.o.p/qr` of six numbers.

Its tests read numbers with `strtoul`, which does not tell where it stopped, so
whatever follows a number up to the next dot, or up to the slash, goes
unnoticed.  `checkSubnetAddress_meets_iff` says for which strings the function does what it
is meant to do: those whose fields are runs of digits, and those that one of the
tests happens to reject.
-/

namespace Tidbits.Crts

open Tidbits.Libc

/-- The byte `'.'`. -/
def dot : UInt8 := 46

/-- The byte `'/'`. -/
def slash : UInt8 := 47

/-! ## The function -/

/-- The scan to the byte after the next dot; `none` at the end of the string. -/
def nextField (s : List UInt8) : Option (List UInt8) :=
  match s.dropWhile (· ≠ dot) with
  | [] => none
  | _ :: s => some s

/-- The loop over the fields in front of `n` more dots, and the test of the field
after it.  Like the function it returns `true` on failure. -/
def checkFields (p : Platform) : ℕ → List UInt8 → Bool
  | 0, s =>
      let val := strtoul p s
      val.2 || 255 < val.1
  | n + 1, s =>
      let val := strtoul p s
      if val.2 || 255 < val.1 then true
      else
        match nextField s with
        | none => true
        | some s => checkFields p n s

/-- `checkSubnetAddress`, which returns `true` on failure. -/
def checkSubnetAddress (p : Platform) (subnet : CString) : Bool :=
  let s := subnet.bytes
  let len := s.length
  if 18 < len || len < 10 then true
  else if s[len - 3]? ≠ some slash then true
  else
    let val := strtoul p (s.drop (len - 2))
    if val.2 || 31 < val.1 || val.1 < 24 then true
    else checkFields p 3 s

/-! ## What it is meant to accept -/

/-- A non-empty run of decimal digits. -/
def Number (d : List UInt8) : Prop := d ≠ [] ∧ ∀ c ∈ d, isDigit c = true

/-- Four fields between dots, and what follows the slash. -/
def join (d₁ d₂ d₃ d₄ mask : List UInt8) : List UInt8 :=
  d₁ ++ dot :: (d₂ ++ dot :: (d₃ ++ dot :: (d₄ ++ slash :: mask)))

/-- The strings `m.n.o.p/qr` of numbers, with two bytes after the slash. -/
def NumericFields (s : List UInt8) : Prop :=
  ∃ d₁ d₂ d₃ d₄ mask, s = join d₁ d₂ d₃ d₄ mask ∧
    Number d₁ ∧ Number d₂ ∧ Number d₃ ∧ Number d₄ ∧ mask.length = 2

/-- The addresses that the function is meant to accept. -/
def WellFormed (s : List UInt8) : Prop :=
  ∃ d₁ d₂ d₃ d₄ mask, s = join d₁ d₂ d₃ d₄ mask ∧
    (Number d₁ ∧ digitsValue d₁ ≤ 255) ∧ (Number d₂ ∧ digitsValue d₂ ≤ 255) ∧
    (Number d₃ ∧ digitsValue d₃ ≤ 255) ∧ (Number d₄ ∧ digitsValue d₄ ≤ 255) ∧
    (Number mask ∧ mask.length = 2 ∧ 24 ≤ digitsValue mask ∧ digitsValue mask ≤ 31) ∧
    10 ≤ s.length ∧ s.length ≤ 18

/-! ## What it rejects -/

/-- What follows the first `n` dots. -/
def afterDots : ℕ → List UInt8 → Option (List UInt8)
  | 0, s => some s
  | n + 1, s => (nextField s).bind (afterDots n)

/-- `strtoul` reads a number from `low` to `high`. -/
def Reads (p : Platform) (low high : ℕ) (s : List UInt8) : Prop :=
  (strtoul p s).2 = false ∧ low ≤ (strtoul p s).1 ∧ (strtoul p s).1 ≤ high

/-- The string is too short or too long, the third byte from its end is not a
slash, the last two bytes do not read as a number from 24 to 31, or it has fewer
than three dots, or at its start or behind one of the first three dots it does
not read as a number of at most 255. -/
def Caught (p : Platform) (s : List UInt8) : Prop :=
  s.length < 10 ∨ 18 < s.length ∨ s[s.length - 3]? ≠ some slash ∨
    ¬ Reads p 24 31 (s.drop (s.length - 2)) ∨
    ∃ n ≤ 3, ∀ r, afterDots n s = some r → ¬ Reads p 0 255 r

theorem checkFields_eq_false {p : Platform} {n : ℕ} {s : List UInt8} :
    checkFields p n s = false ↔ ∀ k ≤ n, ∃ r, afterDots k s = some r ∧ Reads p 0 255 r := by
  induction n generalizing s with
  | zero => simp [checkFields, afterDots, Reads]
  | succ n ih =>
      constructor
      · intro h k hk
        simp only [checkFields] at h
        split at h
        · cases h
        rename_i hval
        split at h
        · cases h
        rename_i r hr
        cases k with
        | zero => exact ⟨s, rfl, by simpa [Reads] using hval⟩
        | succ k =>
            obtain ⟨r', hr', hreads⟩ := ih.mp h k (Nat.le_of_succ_le_succ hk)
            exact ⟨r', by simp [afterDots, hr, hr'], hreads⟩
      · intro h
        obtain ⟨r, hr, hreads⟩ := h 0 (Nat.zero_le _)
        cases hr
        have hval : ((strtoul p s).2 || decide (255 < (strtoul p s).1)) = false := by
          simpa [Reads] using hreads
        obtain ⟨r, hr, -⟩ := h 1 (Nat.succ_le_succ (Nat.zero_le _))
        obtain ⟨r, hnext, -⟩ := Option.bind_eq_some_iff.mp hr
        simp only [checkFields, hval, Bool.false_eq_true, if_false, hnext]
        refine ih.mpr fun k hk ↦ ?_
        obtain ⟨r', hr', hreads'⟩ := h (k + 1) (Nat.succ_le_succ hk)
        exact ⟨r', by simpa [afterDots, hnext] using hr', hreads'⟩

/-- The tests, one by one. -/
theorem checkSubnetAddress_eq_false {p : Platform} {subnet : CString} :
    checkSubnetAddress p subnet = false ↔
      10 ≤ subnet.bytes.length ∧ subnet.bytes.length ≤ 18 ∧
        subnet.bytes[subnet.bytes.length - 3]? = some slash ∧
        Reads p 24 31 (subnet.bytes.drop (subnet.bytes.length - 2)) ∧
        ∀ n ≤ 3, ∃ r, afterDots n subnet.bytes = some r ∧ Reads p 0 255 r := by
  unfold checkSubnetAddress
  simp only
  rw [← checkFields_eq_false]
  split
  · rename_i hlen
    simp only [Bool.or_eq_true, decide_eq_true_eq] at hlen
    refine iff_of_false (by simp) fun h ↦ ?_
    omega
  rename_i hlen
  simp only [Bool.or_eq_true, decide_eq_true_eq, not_or, not_lt] at hlen
  split
  · rename_i hslash
    exact iff_of_false (by simp) fun h ↦ hslash h.2.2.1
  rename_i hslash
  split
  · rename_i hmask
    refine iff_of_false (by simp) fun h ↦ ?_
    obtain ⟨herrno, hlow, hhigh⟩ := h.2.2.2.1
    simp only [herrno, Bool.false_or, Bool.or_eq_true, decide_eq_true_eq] at hmask
    omega
  rename_i hmask
  simp only [Bool.or_eq_true, decide_eq_true_eq, not_or, not_lt, Bool.not_eq_true] at hmask
  exact ⟨fun h ↦ ⟨hlen.2, hlen.1, not_not.mp hslash, ⟨hmask.1.1, hmask.2, hmask.1.2⟩, h⟩,
    fun h ↦ h.2.2.2.2⟩

theorem not_caught_iff {p : Platform} {s : List UInt8} :
    ¬ Caught p s ↔
      10 ≤ s.length ∧ s.length ≤ 18 ∧ s[s.length - 3]? = some slash ∧
        Reads p 24 31 (s.drop (s.length - 2)) ∧
        ∀ n ≤ 3, ∃ r, afterDots n s = some r ∧ Reads p 0 255 r := by
  rw [Caught]
  push Not
  rfl

/-- **The function accepts exactly what its tests do not catch.** -/
theorem checkSubnetAddress_eq_false_iff_not_caught {p : Platform} {subnet : CString} :
    checkSubnetAddress p subnet = false ↔ ¬ Caught p subnet.bytes :=
  checkSubnetAddress_eq_false.trans not_caught_iff.symm

/-! ## Strings of numbers -/

theorem Number.dot_notMem {d : List UInt8} (h : Number d) : ∀ c ∈ d, decide (c ≠ dot) = true := by
  intro c hc
  have hdigit := h.2 c hc
  refine decide_eq_true ?_
  rintro rfl
  exact absurd hdigit (by decide)

/-- The scan skips a number. -/
theorem Number.nextField_append {d : List UInt8} (h : Number d) (r : List UInt8) :
    nextField (d ++ dot :: r) = some r := by
  unfold nextField
  rw [List.dropWhile_append_of_pos h.dot_notMem]
  simp

/-- A number is read to its end. -/
theorem Number.reads_iff {p : Platform} {d rest : List UInt8} (h : Number d) {low high : ℕ}
    (hhigh : high ≤ 255) (hrest : ∀ c, rest.head? = some c → isDigit c = false) :
    Reads p low high (d ++ rest) ↔ low ≤ digitsValue d ∧ digitsValue d ≤ high := by
  have hmax := p.le_ulongMax
  rw [Reads, strtoul_append h.1 h.2 hrest]
  constructor
  · rintro ⟨herrno, hlow, hle⟩
    rw [digitsValue_of_convert h.1 herrno] at hlow hle
    exact ⟨hlow, hle⟩
  · rintro ⟨hlow, hle⟩
    rw [convert_of_le h.1 (by omega)]
    exact ⟨rfl, hlow, hle⟩

theorem join_eq (d₁ d₂ d₃ d₄ mask : List UInt8) :
    join d₁ d₂ d₃ d₄ mask =
      (d₁ ++ dot :: (d₂ ++ dot :: (d₃ ++ dot :: d₄))) ++ slash :: mask := by
  simp [join]

/-- Two bytes after the slash read as a mask when they are one. -/
theorem reads_mask_iff {p : Platform} {mask : List UInt8} (hlen : mask.length = 2) :
    Reads p 24 31 mask ↔ Number mask ∧ 24 ≤ digitsValue mask ∧ digitsValue mask ≤ 31 := by
  have hne : mask ≠ [] := by
    rintro rfl
    cases hlen
  have hread : Number mask → (Reads p 24 31 mask ↔
      24 ≤ digitsValue mask ∧ digitsValue mask ≤ 31) := fun h ↦ by
    have hend : ∀ c, ([] : List UInt8).head? = some c → isDigit c = false := by simp
    simpa using h.reads_iff (p := p) (by decide) hend
  constructor
  · intro h
    have hlow : 10 ≤ (strtoul p mask).1 := le_trans (by decide) h.2.1
    have hhigh : (strtoul p mask).1 ≤ 2 ^ 31 := h.2.2.trans (by decide)
    have hnumber : Number mask := ⟨hne, digits_of_strtoul_pair hlen hlow hhigh⟩
    exact ⟨hnumber, (hread hnumber).mp h⟩
  · rintro ⟨hnumber, h⟩
    exact (hread hnumber).mpr h

/-- What the tests make of a string of numbers. -/
theorem not_caught_join {p : Platform} {d₁ d₂ d₃ d₄ mask : List UInt8} (h₁ : Number d₁)
    (h₂ : Number d₂) (h₃ : Number d₃) (h₄ : Number d₄) (hmask : mask.length = 2) :
    ¬ Caught p (join d₁ d₂ d₃ d₄ mask) ↔
      (10 ≤ (join d₁ d₂ d₃ d₄ mask).length ∧ (join d₁ d₂ d₃ d₄ mask).length ≤ 18) ∧
        (Number mask ∧ 24 ≤ digitsValue mask ∧ digitsValue mask ≤ 31) ∧
        digitsValue d₁ ≤ 255 ∧ digitsValue d₂ ≤ 255 ∧ digitsValue d₃ ≤ 255 ∧
        digitsValue d₄ ≤ 255 := by
  have hlen : (join d₁ d₂ d₃ d₄ mask).length =
      (d₁ ++ dot :: (d₂ ++ dot :: (d₃ ++ dot :: d₄))).length + 3 := by
    rw [join_eq, List.length_append, List.length_cons, hmask]
  have hslash : (join d₁ d₂ d₃ d₄ mask)[(join d₁ d₂ d₃ d₄ mask).length - 3]? = some slash := by
    rw [hlen, Nat.add_sub_cancel, join_eq, List.getElem?_append_right le_rfl, Nat.sub_self]
    rfl
  have hdrop : (join d₁ d₂ d₃ d₄ mask).drop ((join d₁ d₂ d₃ d₄ mask).length - 2) = mask := by
    rw [hlen, Nat.add_sub_assoc (by decide), join_eq, List.drop_length_add_append]
    rfl
  have hdot : ∀ c (r : List UInt8), (dot :: r).head? = some c → isDigit c = false := by
    intro c r hc
    cases hc
    decide
  have hend : ∀ c, (slash :: mask).head? = some c → isDigit c = false := by
    intro c hc
    cases hc
    decide
  have hread : ∀ {d : List UInt8}, Number d → ∀ {rest : List UInt8},
      (∀ c, rest.head? = some c → isDigit c = false) →
      (Reads p 0 255 (d ++ rest) ↔ digitsValue d ≤ 255) := by
    intro d hd rest hrest
    rw [hd.reads_iff le_rfl hrest]
    exact and_iff_right (Nat.zero_le _)
  have hfields : (∀ n ≤ 3, ∃ r, afterDots n (join d₁ d₂ d₃ d₄ mask) = some r ∧ Reads p 0 255 r) ↔
      digitsValue d₁ ≤ 255 ∧ digitsValue d₂ ≤ 255 ∧ digitsValue d₃ ≤ 255 ∧
        digitsValue d₄ ≤ 255 := by
    rw [← hread h₁ fun c ↦ hdot c (d₂ ++ dot :: (d₃ ++ dot :: (d₄ ++ slash :: mask))),
      ← hread h₂ fun c ↦ hdot c (d₃ ++ dot :: (d₄ ++ slash :: mask)),
      ← hread h₃ fun c ↦ hdot c (d₄ ++ slash :: mask), ← hread h₄ hend]
    constructor
    · intro h
      have h0 := h 0 (by decide)
      have h1 := h 1 (by decide)
      have h2 := h 2 (by decide)
      have h3 := h 3 (by decide)
      simpa [afterDots, join, h₁.nextField_append, h₂.nextField_append, h₃.nextField_append]
        using And.intro h0 (And.intro h1 (And.intro h2 h3))
    · rintro ⟨r₁, r₂, r₃, r₄⟩ n hn
      match n, hn with
      | 0, _ => exact ⟨_, rfl, r₁⟩
      | 1, _ => exact ⟨_, by simp [afterDots, join, h₁.nextField_append], r₂⟩
      | 2, _ =>
          exact ⟨_, by simp [afterDots, join, h₁.nextField_append, h₂.nextField_append], r₃⟩
      | 3, _ =>
          exact ⟨_, by simp [afterDots, join, h₁.nextField_append, h₂.nextField_append,
            h₃.nextField_append], r₄⟩
  rw [not_caught_iff, hslash, hdrop, hfields, reads_mask_iff hmask]
  simp only [true_and, and_assoc]

/-- A well-formed address is a string of numbers that no test catches. -/
theorem wellFormed_iff {p : Platform} {s : List UInt8} :
    WellFormed s ↔ NumericFields s ∧ ¬ Caught p s := by
  constructor
  · rintro ⟨d₁, d₂, d₃, d₄, mask, rfl, ⟨h₁, v₁⟩, ⟨h₂, v₂⟩, ⟨h₃, v₃⟩, ⟨h₄, v₄⟩,
      ⟨hm, hmask, hrange⟩, hlen⟩
    refine ⟨⟨d₁, d₂, d₃, d₄, mask, rfl, h₁, h₂, h₃, h₄, hmask⟩, ?_⟩
    exact (not_caught_join h₁ h₂ h₃ h₄ hmask).mpr ⟨hlen, ⟨hm, hrange⟩, v₁, v₂, v₃, v₄⟩
  · rintro ⟨⟨d₁, d₂, d₃, d₄, mask, rfl, h₁, h₂, h₃, h₄, hmask⟩, hnot⟩
    obtain ⟨hlen, ⟨hm, hrange⟩, v₁, v₂, v₃, v₄⟩ := (not_caught_join h₁ h₂ h₃ h₄ hmask).mp hnot
    exact ⟨d₁, d₂, d₃, d₄, mask, rfl, ⟨h₁, v₁⟩, ⟨h₂, v₂⟩, ⟨h₃, v₃⟩, ⟨h₄, v₄⟩,
      ⟨hm, hmask, hrange⟩, hlen⟩

/-- **When the check does what it is meant to do**: for the strings whose fields
are numbers, and for those that one of its tests catches. -/
theorem checkSubnetAddress_meets_iff (p : Platform) (subnet : CString) :
    (checkSubnetAddress p subnet = false ↔ WellFormed subnet.bytes) ↔
      NumericFields subnet.bytes ∨ Caught p subnet.bytes := by
  rw [checkSubnetAddress_eq_false_iff_not_caught, wellFormed_iff (p := p)]
  constructor
  · intro h
    by_cases hc : Caught p subnet.bytes
    · exact .inr hc
    · exact .inl (h.mp hc).1
  · rintro (hfields | hc)
    · exact ⟨fun hn ↦ ⟨hfields, hn⟩, And.right⟩
    · exact ⟨fun hn ↦ absurd hc hn, And.right⟩

/-- A well-formed address has only digits, dots and slashes. -/
theorem WellFormed.mem {s : List UInt8} (h : WellFormed s) {c : UInt8} (hc : c ∈ s) :
    isDigit c = true ∨ c = dot ∨ c = slash := by
  obtain ⟨d₁, d₂, d₃, d₄, mask, rfl, ⟨h₁, -⟩, ⟨h₂, -⟩, ⟨h₃, -⟩, ⟨h₄, -⟩, ⟨hm, -⟩, -⟩ := h
  simp only [join, List.mem_append, List.mem_cons] at hc
  rcases hc with hc | rfl | hc | rfl | hc | rfl | hc | rfl | hc
  · exact .inl (h₁.2 c hc)
  · exact .inr (.inl rfl)
  · exact .inl (h₂.2 c hc)
  · exact .inr (.inl rfl)
  · exact .inl (h₃.2 c hc)
  · exact .inr (.inl rfl)
  · exact .inl (h₄.2 c hc)
  · exact .inr (.inr rfl)
  · exact .inl (hm.2 c hc)

/-- The bytes of `1;ls.0.0.0/24`. -/
def shellCommand : CString :=
  ⟨[49, 59, 108, 115, 46, 48, 46, 48, 46, 48, 47, 50, 52], by decide⟩

/-- A 64-bit platform on which an empty conversion leaves `errno` alone. -/
def linux : Platform := ⟨2 ^ 64 - 1, by decide, false⟩

/-- A shell command is accepted in place of an address. -/
theorem accepts_shellCommand :
    ¬ ∀ subnet : CString, checkSubnetAddress linux subnet = false ↔ WellFormed subnet.bytes := by
  intro h
  have haccept : checkSubnetAddress linux shellCommand = false := by decide
  have hwell := (h shellCommand).mp haccept
  rcases hwell.mem (c := 59) (by decide) with hc | hc | hc <;> exact absurd hc (by decide)

end Tidbits.Crts
