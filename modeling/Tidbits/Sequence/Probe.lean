import Mathlib.Data.Nat.ModEq

/-!
# Linear probing

A search goes from a slot of a ring to the next, until it finds one that it is
for.  `exists_probe` says that it finds one in a single lap if there is one at
all, wherever it starts, and however many slots in between are not what they
were when the one that is found was filled.
-/

namespace Tidbits.Sequence

/-- The first slot from `i` on that is a hit, of the `n` slots of a ring and in so many probes. -/
def probe (hit : ℕ → Bool) (n : ℕ) : ℕ → ℕ → Option ℕ
  | 0, _ => none
  | probes + 1, i => if hit i then some i else probe hit n probes (if i + 1 = n then 0 else i + 1)

variable {hit : ℕ → Bool} {n probes i j : ℕ}

theorem hit_of_probe (h : probe hit n probes i = some j) : hit j = true := by
  induction probes generalizing i with
  | zero => cases h
  | succ probes ih =>
      rw [probe] at h
      split_ifs at h with hhit
      · rw [← Option.some.inj h]
        exact hhit
      · exact ih h
      · exact ih h

theorem next_lt (hi : i < n) : (if i + 1 = n then 0 else i + 1) < n := by
  split_ifs <;> omega

theorem probe_lt (hi : i < n) (h : probe hit n probes i = some j) : j < n := by
  induction probes generalizing i with
  | zero => cases h
  | succ probes ih =>
      rw [probe] at h
      by_cases hhit : hit i = true
      · rw [if_pos hhit] at h
        rw [← Option.some.inj h]
        exact hi
      · rw [if_neg hhit] at h
        exact ih (next_lt hi) h

/-- A search finds nothing if there is nothing. -/
theorem probe_eq_none (hi : i < n) (hnone : ∀ j < n, hit j = false) :
    probe hit n probes i = none := by
  cases h : probe hit n probes i with
  | none => rfl
  | some j => exact absurd (hit_of_probe h) (by rw [hnone j (probe_lt hi h)]; decide)

/-- A hit that is `d` slots further is found in more than `d` probes. -/
theorem exists_probe_of_add {d : ℕ} (hi : i < n) (hd : d < probes)
    (hhit : hit ((i + d) % n) = true) : ∃ j, probe hit n probes i = some j := by
  induction d generalizing probes i with
  | zero =>
      obtain ⟨probes, rfl⟩ := Nat.exists_eq_add_of_lt hd
      rw [Nat.add_zero, Nat.mod_eq_of_lt hi] at hhit
      exact ⟨i, by rw [probe, if_pos hhit]⟩
  | succ d ih =>
      obtain ⟨probes, rfl⟩ : ∃ m, probes = m + 1 := ⟨probes - 1, by omega⟩
      rw [probe]
      split_ifs with hfound hwrap
      · exact ⟨i, rfl⟩
      · refine ih (by omega) (Nat.lt_of_succ_lt_succ hd) ?_
        rw [← hhit, Nat.zero_add, show i + (d + 1) = d + n by omega, Nat.add_mod_right]
      · refine ih (by omega) (Nat.lt_of_succ_lt_succ hd) ?_
        rw [← hhit, Nat.add_assoc, Nat.add_comm 1 d]

/-- **A search finds a hit in one lap if there is one.** -/
theorem exists_probe (hit : ℕ → Bool) (hi : i < n) (hj : j < n) (hhit : hit j = true) :
    ∃ k < n, probe hit n n i = some k ∧ hit k = true := by
  have hpos : 0 < n := Nat.lt_of_le_of_lt (Nat.zero_le _) hi
  have hturn : (i + (j + n - i) % n) % n = j := by
    rw [Nat.add_mod_mod, Nat.add_sub_of_le (by omega), Nat.add_mod_right, Nat.mod_eq_of_lt hj]
  obtain ⟨k, hk⟩ := exists_probe_of_add hi (Nat.mod_lt (j + n - i) hpos) (hturn.symm ▸ hhit)
  exact ⟨k, probe_lt hi hk, hk, hit_of_probe hk⟩

end Tidbits.Sequence
