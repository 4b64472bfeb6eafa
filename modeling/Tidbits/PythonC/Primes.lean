import Tidbits.Pybind11.Primes

/-!
# The prime numbers in an array

`generate` of `python_C/primes.c` is the `generate` of `pybind11/primes.cpp` with an
array of the size that is asked for, and with pointers into it.  The array is the
list of its elements, which are anything at first, and a write behind its end has
no result.

`generate_eq_ite` says that the two functions agree turn by turn, for every size but
0: there the first prime number is written behind the end of the array.
-/

namespace Tidbits.PythonC

/-- The variables; `current` is an index. -/
structure Sieve where
  primes : List ℕ
  current : ℕ
  nextPrime : ℕ

/-- An assignment to an element of the array; `none` behind its end. -/
def assign (primes : List ℕ) (i value : ℕ) : Option (List ℕ) :=
  if i < primes.length then some (primes.set i value) else none

/-- Where the `for` loop ends: at an element that divides, or at `current`. -/
def forLoop (s : Sieve) : ℕ := (s.primes.take s.current).findIdx fun i ↦ s.nextPrime % i = 0

/-- A turn of the `while` loop. -/
def turn (s : Sieve) : Option Sieve :=
  if forLoop s = s.current then
    (assign s.primes s.current s.nextPrime).map fun primes ↦
      { s with primes := primes, current := s.current + 1 }
  else some { s with nextPrime := (s.nextPrime + 2) % 2 ^ 32 }

/-- The `while` loop, for so many turns; `none` if it takes more, and `some none` behind a write
that is out of bounds. -/
def whileLoop : ℕ → Sieve → Option (Option (List ℕ))
  | fuel, s =>
      if s.current < s.primes.length then
        match fuel with
        | 0 => none
        | fuel + 1 =>
            match turn s with
            | some s => whileLoop fuel s
            | none => some none
      else some (some s.primes)

/-- `generate`, with the array that `malloc()` gives. -/
def generate (fuel : ℕ) (array : List ℕ) : Option (Option (List ℕ)) :=
  match assign array 0 2 with
  | some primes => whileLoop fuel ⟨primes, 1, 3⟩
  | none => some none

example : generate 12 [7, 7, 7, 7, 7] = some (some [2, 3, 5, 7, 11]) := by decide

variable {s : Sieve} {found : List ℕ}

/-- The array starts with the primes that were found. -/
structure Sieve.Holds (s : Sieve) (found : List ℕ) : Prop where
  take : s.primes.take s.current = found
  current_eq : s.current = found.length

/-- The `for` loop ends early if and only if one of the primes divides. -/
theorem Sieve.Holds.forLoop_eq_iff (h : s.Holds found) :
    forLoop s = s.current ↔ Pybind11.divides found s.nextPrime = false := by
  rw [forLoop, h.take, h.current_eq, List.findIdx_eq_length, Pybind11.divides, List.any_eq_false]
  simp

/-- A prime number is written behind the others. -/
theorem Sieve.Holds.write (h : s.Holds found) (hlt : s.current < s.primes.length) :
    assign s.primes s.current s.nextPrime = some (s.primes.set s.current s.nextPrime) ∧
      (⟨s.primes.set s.current s.nextPrime, s.current + 1, s.nextPrime⟩ : Sieve).Holds
        (found ++ [s.nextPrime]) := by
  refine ⟨if_pos hlt, ?_, ?_⟩
  · show (s.primes.set s.current s.nextPrime).take (s.current + 1) = _
    rw [List.take_set, List.take_succ_eq_append_getElem hlt, h.take]
    generalize s.primes[s.current] = old
    rw [h.current_eq, List.set_append_right _ _ (Nat.le_refl _), Nat.sub_self]
    rfl
  · show s.current + 1 = _
    rw [List.length_append, h.current_eq]
    rfl

/-- A full array is what was found. -/
theorem Sieve.Holds.primes_eq (h : s.Holds found) (hfull : ¬ s.current < s.primes.length) :
    s.primes = found := by
  rw [← h.take, List.take_of_length_le (Nat.le_of_not_lt hfull)]

/-- **The loops agree turn by turn.** -/
theorem Sieve.Holds.whileLoop_eq (h : s.Holds found) (fuel : ℕ) :
    whileLoop fuel s =
      (Pybind11.generateLoop s.primes.length fuel found s.nextPrime).map some := by
  induction fuel generalizing s found with
  | zero =>
      unfold whileLoop Pybind11.generateLoop
      rw [← h.current_eq]
      by_cases hlt : s.current < s.primes.length
      · rw [if_pos hlt, if_pos hlt]
        rfl
      · rw [if_neg hlt, if_neg hlt, h.primes_eq hlt]
        rfl
  | succ fuel ih =>
      unfold whileLoop Pybind11.generateLoop
      rw [← h.current_eq]
      split_ifs with hlt hdivides
      · -- the candidate fails
        have hearly : forLoop s ≠ s.current := fun heq ↦ by
          rw [h.forLoop_eq_iff, hdivides] at heq
          cases heq
        rw [turn, if_neg hearly]
        exact ih ⟨h.take, h.current_eq⟩
      · obtain ⟨hassign, hholds⟩ := h.write hlt
        rw [turn, if_pos (h.forLoop_eq_iff.mpr (Bool.eq_false_iff.mpr hdivides)), hassign]
        have hlen : (s.primes.set s.current s.nextPrime).length = s.primes.length :=
          List.length_set
        rw [← hlen]
        exact ih hholds
      · rw [h.primes_eq hlt]
        rfl

/-- **The two functions agree**, whatever the array holds at first, but for an array of size 0.  So
`generate` writes inside of the array, and if the last of the primes fits, the array is the first
prime numbers. -/
theorem generate_eq_ite (array : List ℕ) :
    (∀ fuel, generate fuel array =
      if array = [] then some none else (Pybind11.generate fuel array.length).map some) ∧
      (array ≠ [] → Nat.nth Nat.Prime (array.length - 1) < 2 ^ 32 →
        ∃ turns, ∀ fuel, turns ≤ fuel →
          generate fuel array =
            some (some ((List.range array.length).map (Nat.nth Nat.Prime)))) := by
  have hagree : ∀ fuel, generate fuel array =
      if array = [] then some none else (Pybind11.generate fuel array.length).map some := by
    intro fuel
    cases array with
    | nil => rfl
    | cons old array =>
        have hholds : (⟨2 :: array, 1, 3⟩ : Sieve).Holds [2] := ⟨rfl, rfl⟩
        rw [if_neg (List.cons_ne_nil _ _), Pybind11.generate]
        exact hholds.whileLoop_eq fuel
  refine ⟨hagree, fun hne hfits ↦ ?_⟩
  refine ⟨Nat.nth Nat.Prime (array.length - 1) + array.length, fun fuel hfuel ↦ ?_⟩
  rw [hagree, if_neg hne, Pybind11.generate, Pybind11.Sieved.start.generateLoop_eq
    (List.length_pos_iff.mpr hne) hfits (hfuel.trans (Nat.le_add_right _ _))]
  rfl

/-- An array of three. -/
theorem generate_eq_ite_three : ∃ turns, ∀ fuel, turns ≤ fuel →
    generate fuel [7, 7, 7] = some (some ((List.range 3).map (Nat.nth Nat.Prime))) := by
  refine (generate_eq_ite [7, 7, 7]).2 (List.cons_ne_nil _ _) ?_
  show Nat.nth Nat.Prime 2 < 2 ^ 32
  rw [Nat.nth_prime_two_eq_five]
  decide

end Tidbits.PythonC
