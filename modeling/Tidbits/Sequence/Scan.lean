import Mathlib.Data.List.Basic

/-!
# A scan backwards

A scan looks for the last occurrence of an element, from an index on, but does
not go below a given index.  `scanBack_add` is about the scan that finds it, and
`getElem?_scanBack_ne` about the one that the bound stops before.
-/

namespace Tidbits.Sequence

variable {α : Type*} [DecidableEq α]

/-- The index at which a scan for `c` from `i` on stops; it does not go below `low`. -/
def scanBack (c : α) (low : ℕ) (l : List α) : ℕ → ℕ
  | 0 => 0
  | i + 1 => if low < i + 1 ∧ l[i + 1]? ≠ some c then scanBack c low l i else i + 1

variable {c : α} {low : ℕ} {front name rest : List α} {n : ℕ}

theorem scanBack_le (c : α) (low : ℕ) (l : List α) (i : ℕ) : scanBack c low l i ≤ i := by
  induction i with
  | zero => exact Nat.le_refl _
  | succ i ih =>
      rw [scanBack]
      split_ifs
      · exact Nat.le_succ_of_le ih
      · exact Nat.le_refl _

theorem lt_scanBack {l : List α} {i k : ℕ} (hlow : k < low) (hi : k < i) :
    k < scanBack c low l i := by
  induction i with
  | zero => exact absurd hi (Nat.not_lt_zero k)
  | succ i ih =>
      rw [scanBack]
      split_ifs with hgo
      · exact ih (Nat.lt_of_lt_of_le hlow (Nat.le_of_lt_succ hgo.1))
      · exact hi

omit [DecidableEq α] in
theorem getElem?_name {k : ℕ} (hk : k < name.length) :
    (front ++ c :: (name ++ rest))[front.length + (k + 1)]? = some name[k] := by
  rw [List.getElem?_append_right (Nat.le_add_right _ _), Nat.add_sub_cancel_left,
    List.getElem?_cons_succ, List.getElem?_append_left hk, List.getElem?_eq_getElem hk]

/-- The scan finds the last occurrence if it is not below the bound. -/
theorem scanBack_add (hlow : low ≤ front.length) (hname : c ∉ name) (hn : n ≤ name.length) :
    scanBack c low (front ++ c :: (name ++ rest)) (front.length + n) = front.length := by
  induction n with
  | zero =>
      have hfound : (front ++ c :: (name ++ rest))[front.length]? = some c := by
        rw [List.getElem?_append_right (Nat.le_refl _), Nat.sub_self, List.getElem?_cons_zero]
      rw [Nat.add_zero]
      generalize front.length = i at hfound
      cases i with
      | zero => rfl
      | succ i => rw [scanBack, if_neg fun h ↦ h.2 hfound]
  | succ n ih =>
      have hother : (front ++ c :: (name ++ rest))[front.length + n + 1]? ≠ some c := by
        rw [Nat.add_assoc, getElem?_name hn]
        intro heq
        exact hname (Option.some.inj heq ▸ List.getElem_mem hn)
      rw [← Nat.add_assoc, scanBack, if_pos ⟨by omega, hother⟩]
      exact ih (Nat.le_of_succ_le hn)

/-- The scan stops elsewhere if the last occurrence is below the bound. -/
theorem getElem?_scanBack_ne (hlow : front.length < low) (hname : c ∉ name) (hpos : 0 < n)
    (hn : n ≤ name.length) :
    (front ++ c :: (name ++ rest))[scanBack c low (front ++ c :: (name ++ rest))
      (front.length + n)]? ≠ some c := by
  have hlt : front.length < scanBack c low (front ++ c :: (name ++ rest)) (front.length + n) :=
    lt_scanBack hlow (Nat.lt_add_of_pos_right hpos)
  obtain ⟨k, hk⟩ := Nat.exists_eq_add_of_lt hlt
  have hle := scanBack_le c low (front ++ c :: (name ++ rest)) (front.length + n)
  have hbound : k < name.length := by omega
  rw [hk, Nat.add_assoc, getElem?_name hbound]
  intro heq
  exact hname (Option.some.inj heq ▸ List.getElem_mem hbound)

end Tidbits.Sequence
