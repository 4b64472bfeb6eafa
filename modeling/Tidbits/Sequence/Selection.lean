import Mathlib.Data.Nat.Nth

/-!
# The first numbers with a property

`below p n` lists the numbers below `n` with the property `p`, in order.  A
search that goes upwards extends such a list number by number; how long it has
become says which number is next, since the list is always made of the first
numbers with the property (`below_eq_map_nth`).
-/

namespace Tidbits.Sequence

variable {p : ℕ → Prop} [DecidablePred p] {k n : ℕ}

/-- The numbers below `n` with the property, in increasing order. -/
def below (p : ℕ → Prop) [DecidablePred p] (n : ℕ) : List ℕ := (List.range n).filter (p ·)

theorem mem_below {m : ℕ} : m ∈ below p n ↔ m < n ∧ p m := by
  simp [below]

theorem below_succ_of_pos (h : p n) : below p (n + 1) = below p n ++ [n] := by
  simp [below, List.range_succ, h]

theorem below_succ_of_neg (h : ¬ p n) : below p (n + 1) = below p n := by
  simp [below, List.range_succ, h]

theorem length_below (n : ℕ) : (below p n).length = Nat.count p n := by
  induction n with
  | zero => rfl
  | succ n ih =>
      by_cases hn : p n
      · rw [below_succ_of_pos hn, List.length_append, ih, Nat.count_succ, if_pos hn]
        rfl
      · rw [below_succ_of_neg hn, ih, Nat.count_succ, if_neg hn]
        rfl

/-- They are the first numbers with the property. -/
theorem below_eq_map_nth (n : ℕ) :
    below p n = (List.range (below p n).length).map (Nat.nth p) := by
  induction n with
  | zero => rfl
  | succ n ih =>
      by_cases hn : p n
      · have hnth : Nat.nth p (below p n).length = n := by rw [length_below, Nat.nth_count hn]
        rw [below_succ_of_pos hn, List.length_append, List.length_singleton, List.range_succ,
          List.map_append, ← ih, List.map_singleton, hnth]
      · rw [below_succ_of_neg hn]
        exact ih

/-- With no more than `k` of them, the next one is yet to come. -/
theorem length_below_le_iff (hp : (Set.ofPred p).Infinite) :
    (below p n).length ≤ k ↔ n ≤ Nat.nth p k := by
  rw [length_below]
  exact Nat.count_le_iff_le_nth hp

end Tidbits.Sequence
