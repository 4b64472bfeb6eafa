import Mathlib.Algebra.BigOperators.Group.Finset.Piecewise
import Mathlib.Data.Fintype.Card

/-!
# Counting over a finite index type

A table indexed by a finite type whose free entries are kept in a
duplicate-free list: the pigeonhole facts that tie the length of the list to
the entries that are missing from it, and how a sum over the table changes when
one entry does.
-/

universe u v

namespace Tidbits.Sequence

variable {ι : Type u} [Fintype ι]

/-- A duplicate-free list that misses an index is shorter than the type. -/
theorem length_lt_card_of_notMem {l : List ι} (h : l.Nodup) {a : ι} (ha : a ∉ l) :
    l.length < Fintype.card ι := (List.nodup_cons.mpr ⟨ha, h⟩).length_le_card

/-- A duplicate-free list that misses two indices is shorter by two. -/
theorem length_add_two_le_card {l : List ι} (h : l.Nodup) {a b : ι} (ha : a ∉ l) (hb : b ∉ l)
    (hab : a ≠ b) : l.length + 2 ≤ Fintype.card ι := by
  have hb' : b ∉ a :: l := by simp [hb, hab.symm]
  exact length_lt_card_of_notMem (List.nodup_cons.mpr ⟨ha, h⟩) hb'

/-- A duplicate-free list as long as the type has every index. -/
theorem mem_of_length_eq_card {l : List ι} (h : l.Nodup) (hl : l.length = Fintype.card ι)
    (a : ι) : a ∈ l := by
  by_contra ha
  exact absurd (length_lt_card_of_notMem h ha) (by omega)

variable [DecidableEq ι] {β : Type v}

/-- A list that has every index is at least as long as the type. -/
theorem card_le_length_of_forall_mem {l : List ι} (h : ∀ a, a ∈ l) :
    Fintype.card ι ≤ l.length := by
  have hsub : Finset.univ ⊆ l.toFinset := fun a _ ↦ List.mem_toFinset.mpr (h a)
  exact (Finset.card_le_card hsub).trans l.toFinset_card_le

/-- How a sum over a table changes with one entry. -/
theorem sum_update_add (f : ι → β) (g : β → ℕ) (i : ι) (b : β) :
    (∑ j, g (Function.update f i b j)) + g (f i) = (∑ j, g (f j)) + g b := by
  have hsplit : ∀ f' : ι → β, ∑ j, g (f' j) =
      g (f' i) + ∑ j ∈ Finset.univ.erase i, g (f' j) := fun f' ↦
    (Finset.add_sum_erase _ _ (Finset.mem_univ i)).symm
  have hrest : ∑ j ∈ Finset.univ.erase i, g (Function.update f i b j) =
      ∑ j ∈ Finset.univ.erase i, g (f j) :=
    Finset.sum_congr rfl fun j hj ↦ by
      rw [Function.update_of_ne (Finset.ne_of_mem_erase hj)]
  rw [hsplit, hsplit f, hrest, Function.update_self]
  omega

/-- How the number of entries with a property changes with one entry. -/
theorem card_filter_update_add (f : ι → β) (p : β → Prop) [DecidablePred p] (i : ι) (b : β) :
    (Finset.univ.filter fun j ↦ p (Function.update f i b j)).card + (if p (f i) then 1 else 0) =
      (Finset.univ.filter fun j ↦ p (f j)).card + if p b then 1 else 0 := by
  rw [Finset.card_filter, Finset.card_filter]
  exact sum_update_add f (fun x ↦ if p x then 1 else 0) i b

/-- A predicate that no two elements of a list share holds of at most one of them. -/
theorem countP_le_one {α : Type u} {p : α → Bool} {l : List α}
    (h : l.Pairwise fun a b ↦ ¬ (p a = true ∧ p b = true)) : l.countP p ≤ 1 := by
  induction h with
  | nil => exact Nat.zero_le 1
  | @cons a l ha _ ih =>
      rw [List.countP_cons]
      by_cases hpa : p a = true
      · have hzero : l.countP p = 0 :=
          List.countP_eq_zero.mpr fun b hb hpb ↦ ha b hb ⟨hpa, hpb⟩
        simp [hzero, hpa]
      · simpa [hpa] using ih

/-- How many entries of a list have a property, by whether one of them has it. -/
theorem countP_set_of_getElem? {α : Type u} {p : α → Bool} {l : List α} {i : ℕ} {a : α}
    (h : l[i]? = some a) :
    ∃ n, l.countP p = n + (p a).toNat ∧ ∀ b, (l.set i b).countP p = n + (p b).toNat := by
  obtain ⟨hi, rfl⟩ := List.getElem?_eq_some_iff.mp h
  refine ⟨(l.take i).countP p + (l.drop (i + 1)).countP p, ?_, fun b ↦ ?_⟩
  · calc l.countP p
      _ = (l.take i ++ l[i] :: l.drop (i + 1)).countP p := by
        rw [← List.drop_eq_getElem_cons hi, List.take_append_drop]
      _ = _ := by
        rw [List.countP_append, List.countP_cons]
        cases p l[i] <;> simp [Nat.add_assoc]
  · rw [List.set_eq_take_append_cons_drop, if_pos hi, List.countP_append, List.countP_cons]
    cases p b <;> simp [Nat.add_assoc]

end Tidbits.Sequence
