import Mathlib.Data.Nat.PrimeFin
import Mathlib.Data.Nat.Prime.Nth
import Tidbits.Sequence.Selection

/-!
# The prime numbers by trial division

`generate` of `primes.cpp` divides a candidate by the primes found so far.  A
candidate that passes is not advanced: the next turn of the loop divides it by
itself.  The candidate is an `unsigned int`.

The primes found are those below the candidate, or up to it (`Sieved`); so the
loop ends with the first primes as long as the last of them fits
(`generate_eq`).
-/

namespace Tidbits.Pybind11

open Tidbits.Sequence

/-- The `for` loop: whether some prime divides the candidate. -/
def divides (primes : List ℕ) (candidate : ℕ) : Bool :=
  primes.any fun prime ↦ candidate % prime = 0

/-- The `while` loop, for so many turns; `none` if it takes more. -/
def generateLoop (howMany : ℕ) : ℕ → List ℕ → ℕ → Option (List ℕ)
  | fuel, primes, candidate =>
      if primes.length < howMany then
        match fuel with
        | 0 => none
        | fuel + 1 =>
            if divides primes candidate then
              generateLoop howMany fuel primes ((candidate + 2) % 2 ^ 32)
            else generateLoop howMany fuel (primes ++ [candidate]) candidate
      else some primes

/-- `generate`. -/
def generate (fuel howMany : ℕ) : Option (List ℕ) := generateLoop howMany fuel [2] 3

example : generate 12 5 = some [2, 3, 5, 7, 11] := by decide

/-- As long as the prime number `k` is missing, it has not been passed. -/
theorem le_nth_prime {n k : ℕ} (h : (below Nat.Prime n).length ≤ k) : n ≤ Nat.nth Nat.Prime k :=
  (length_below_le_iff Nat.infinite_setOfPred_prime).mp h

/-- The primes found are those below the candidate, and perhaps the candidate itself. -/
structure Sieved (primes : List ℕ) (candidate : ℕ) : Prop where
  odd : candidate % 2 = 1
  three_le : 3 ≤ candidate
  primes_eq : primes = below Nat.Prime candidate ∨ primes = below Nat.Prime (candidate + 1)

namespace Sieved

variable {primes : List ℕ} {candidate howMany : ℕ}

theorem start : Sieved [2] 3 where
  odd := rfl
  three_le := Nat.le_refl 3
  primes_eq := .inl (by decide)

/-- What divides the candidate is a prime below it, or the candidate itself when it has passed. -/
theorem divides_iff (h : Sieved primes candidate) :
    divides primes candidate = true ↔ primes = below Nat.Prime (candidate + 1) := by
  have hdivides : divides primes candidate = true ↔ ∃ prime ∈ primes, prime ∣ candidate := by
    simp [divides, Nat.dvd_iff_mod_eq_zero]
  rw [hdivides]
  constructor
  · rintro ⟨prime, hmem, hdvd⟩
    rcases h.primes_eq with heq | heq
    · rw [heq] at hmem
      obtain ⟨hlt, hprime⟩ := mem_below.mp hmem
      have hcomposite : ¬ candidate.Prime := fun hcandidate ↦
        (hcandidate.eq_one_or_self_of_dvd prime hdvd).elim hprime.ne_one hlt.ne
      rw [heq, below_succ_of_neg hcomposite]
    · exact heq
  · intro heq
    have hthree := h.three_le
    have hpos : 0 < candidate := by omega
    have hone : candidate ≠ 1 := by omega
    refine ⟨candidate.minFac, ?_, candidate.minFac_dvd⟩
    rw [heq]
    exact mem_below.mpr ⟨Nat.lt_succ_of_le (Nat.minFac_le hpos), Nat.minFac_prime hone⟩

/-- A candidate that fails is followed by the next odd number. -/
theorem advance (h : Sieved primes candidate) (hdiv : divides primes candidate = true) :
    Sieved primes (candidate + 2) := by
  have hodd := h.odd
  have heven : ¬ (candidate + 1).Prime := by
    intro hprime
    have htwo := hprime.eq_one_or_self_of_dvd 2 (by omega)
    have hthree := h.three_le
    omega
  refine ⟨by omega, h.three_le.trans (Nat.le_add_right _ 2), .inl ?_⟩
  rw [h.divides_iff.mp hdiv]
  exact (below_succ_of_neg heven).symm

/-- A candidate that passes is the next prime. -/
theorem push (h : Sieved primes candidate) (hdiv : divides primes candidate = false) :
    Sieved (primes ++ [candidate]) candidate := by
  have hnew : primes ≠ below Nat.Prime (candidate + 1) := fun heq ↦
    Bool.false_ne_true (hdiv.symm.trans (h.divides_iff.mpr heq))
  have hbelow : primes = below Nat.Prime candidate := h.primes_eq.resolve_right hnew
  have hprime : candidate.Prime := by
    by_contra hcomposite
    exact hnew (hbelow.trans (below_succ_of_neg hcomposite).symm)
  refine ⟨h.odd, h.three_le, .inr ?_⟩
  rw [hbelow]
  exact (below_succ_of_pos hprime).symm

/-- The primes found are the first ones. -/
theorem eq_map_nth (h : Sieved primes candidate) :
    primes = (List.range primes.length).map (Nat.nth Nat.Prime) := by
  rcases h.primes_eq with heq | heq
  · rw [heq]
    exact below_eq_map_nth candidate
  · rw [heq]
    exact below_eq_map_nth (candidate + 1)

/-- As long as the prime number `k` is missing, the candidate has not passed it. -/
theorem candidate_le (h : Sieved primes candidate) {k : ℕ} (hk : primes.length ≤ k) :
    candidate ≤ Nat.nth Nat.Prime k := by
  rcases h.primes_eq with heq | heq
  · exact le_nth_prime (heq ▸ hk)
  · exact Nat.le_of_succ_le (le_nth_prime (heq ▸ hk))

/-- If that prime fits, the candidate can still be advanced. -/
theorem advance_lt (h : Sieved primes candidate) {k : ℕ} (hk : primes.length ≤ k)
    (hfits : Nat.nth Nat.Prime k < 2 ^ 32) (hdiv : divides primes candidate = true) :
    candidate + 2 < 2 ^ 32 := by
  rw [h.divides_iff.mp hdiv] at hk
  have hle := le_nth_prime hk
  have hodd := h.odd
  omega

/-- Each turn advances the candidate or finds a prime. -/
theorem generateLoop_eq (h : Sieved primes candidate) (hlength : primes.length ≤ howMany)
    (hfits : Nat.nth Nat.Prime (howMany - 1) < 2 ^ 32) {fuel : ℕ}
    (hfuel : Nat.nth Nat.Prime (howMany - 1) + howMany ≤ fuel + (candidate + primes.length)) :
    generateLoop howMany fuel primes candidate =
      some ((List.range howMany).map (Nat.nth Nat.Prime)) := by
  induction fuel generalizing primes candidate with
  | zero =>
      have hfull : primes.length = howMany := by
        by_contra hne
        have hle := h.candidate_le (k := howMany - 1) (by omega)
        omega
      rw [generateLoop, if_neg hfull.not_lt, ← hfull, ← h.eq_map_nth]
  | succ fuel ih =>
      rw [generateLoop]
      by_cases hmore : primes.length < howMany
      · have hk : primes.length ≤ howMany - 1 := Nat.le_sub_one_of_lt hmore
        rw [if_pos hmore]
        cases hdiv : divides primes candidate with
        | true =>
            rw [if_pos rfl, Nat.mod_eq_of_lt (h.advance_lt hk hfits hdiv)]
            exact ih (h.advance hdiv) hlength (by omega)
        | false =>
            rw [if_neg Bool.false_ne_true]
            refine ih (h.push hdiv) ?_ ?_
            · rw [List.length_append, List.length_singleton]
              omega
            · rw [List.length_append, List.length_singleton]
              omega
      · have hfull : primes.length = howMany := by omega
        rw [if_neg hmore, ← hfull, ← h.eq_map_nth]

end Sieved

/-- **The first prime numbers.**  If the last of them fits, `generate` terminates and returns
them in increasing order. -/
theorem generate_eq {howMany : ℕ} (hpos : 1 ≤ howMany)
    (hfits : Nat.nth Nat.Prime (howMany - 1) < 2 ^ 32) :
    ∃ turns, ∀ fuel, turns ≤ fuel →
      generate fuel howMany = some ((List.range howMany).map (Nat.nth Nat.Prime)) := by
  refine ⟨Nat.nth Nat.Prime (howMany - 1) + howMany, fun fuel hfuel ↦ ?_⟩
  exact Sieved.start.generateLoop_eq hpos hfits (hfuel.trans (Nat.le_add_right _ _))

/-- The first three of them. -/
theorem generate_eq_three :
    1 ≤ 3 ∧ Nat.nth Nat.Prime 2 < 2 ^ 32 ∧ ∃ turns, ∀ fuel, turns ≤ fuel →
      generate fuel 3 = some ((List.range 3).map (Nat.nth Nat.Prime)) := by
  have hfits : Nat.nth Nat.Prime 2 < 2 ^ 32 := by
    rw [Nat.nth_prime_two_eq_five]
    decide
  exact ⟨by decide, hfits, generate_eq (by decide) hfits⟩

end Tidbits.Pybind11
