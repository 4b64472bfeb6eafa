import Mathlib.Data.List.Basic
import Mathlib.Data.Nat.Notation

/-!
# Frames of one length

A list of frames, all of one length, put one behind the other: the `k`-th frame
starts at `m * k`, so the position in the sequence says which frame one is in.
-/

universe u v

namespace Tidbits.Sequence

variable {α : Type u} {β : Type v} {f : α → List β} {m : ℕ}

/-- The length of frames of one length. -/
theorem length_frames (hm : ∀ a, (f a).length = m) (xs : List α) :
    (xs.flatMap f).length = m * xs.length := by
  induction xs with
  | nil => rfl
  | cons x xs ih => rw [List.flatMap_cons, List.length_append, hm, ih, List.length_cons,
      Nat.mul_succ, Nat.add_comm]

/-- What is left behind the first frames. -/
theorem drop_frames (hm : ∀ a, (f a).length = m) (xs : List α) (k : ℕ) :
    (xs.flatMap f).drop (m * k) = (xs.drop k).flatMap f := by
  induction k generalizing xs with
  | zero => rfl
  | succ k ih =>
      cases xs with
      | nil => rw [List.flatMap_nil, List.drop_nil, List.drop_nil, List.flatMap_nil]
      | cons x xs =>
          rw [List.flatMap_cons, Nat.mul_succ, Nat.add_comm, ← List.drop_drop, ← hm x,
            List.drop_left, hm, ih, List.drop_succ_cons]

/-- The frame that starts behind the first ones. -/
theorem take_drop_frames (hm : ∀ a, (f a).length = m) {xs : List α} {k : ℕ} {x : α}
    (hx : xs[k]? = some x) {j : ℕ} (hj : j ≤ m) (tail : List β) :
    ((xs.flatMap f ++ tail).drop (m * k)).take j = (f x).take j := by
  obtain ⟨hk, hget⟩ := List.getElem?_eq_some_iff.mp hx
  have hle : m * k ≤ (xs.flatMap f).length := by
    rw [length_frames hm]
    exact Nat.mul_le_mul_left m (Nat.le_of_lt hk)
  rw [List.drop_append_of_le_length hle, drop_frames hm, List.drop_eq_getElem_cons hk, hget,
    List.flatMap_cons, List.append_assoc]
  exact List.take_append_of_le_length (by rw [hm]; exact hj)

end Tidbits.Sequence
