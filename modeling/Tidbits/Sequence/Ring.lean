import Mathlib.Data.Nat.ModEq
import Mathlib.Data.List.Range
import Mathlib.Logic.Function.Basic

/-!
# Circular buffers as sequences

A circular buffer of `len` slots holds `num` entries from the slot `start` on.
`contents` reads them in order.  The two laws are the ones a FIFO queue needs:
writing the first free slot appends an entry (`contents_update_succ`), and
moving the start past an entry removes it from the front (`contents_succ`).

The slots are indexed by all of `ℕ`; only those below `len` are ever read.
-/

universe u

namespace Tidbits.Sequence.Ring

variable {α : Type u}

/-- The entries of a circular buffer, oldest first. -/
def contents (slot : ℕ → α) (len start num : ℕ) : List α :=
  (List.range num).map fun j ↦ slot ((start + j) % len)

/-- Two entries of a buffer that is not over-full lie in different slots. -/
theorem index_ne {len start i j : ℕ} (hi : i < j) (hj : j < len) :
    (start + i) % len ≠ (start + j) % len := by
  intro h
  have hmod : i % len = j % len := Nat.ModEq.add_left_cancel' start h
  rw [Nat.mod_eq_of_lt (hi.trans hj), Nat.mod_eq_of_lt hj] at hmod
  exact absurd hmod hi.ne

/-- The successor of the start slot, as a wrapping counter computes it. -/
theorem succ_mod_eq_ite {len start : ℕ} (h : start < len) :
    (start + 1) % len = if start < len - 1 then start + 1 else 0 := by
  split
  · exact Nat.mod_eq_of_lt (by omega)
  · rw [show start + 1 = len by omega, Nat.mod_self]

/-- Writing the first free slot appends an entry. -/
theorem contents_update_succ {slot : ℕ → α} {len start num : ℕ} (h : num < len) (x : α) :
    contents (Function.update slot ((start + num) % len) x) len start (num + 1) =
      contents slot len start num ++ [x] := by
  simp only [contents, List.range_succ, List.map_append, List.map_cons, List.map_nil,
    Function.update_self]
  congr 1
  refine List.map_congr_left fun j hj ↦ ?_
  exact Function.update_of_ne (index_ne (List.mem_range.mp hj) h) _ _

/-- The oldest entry comes first, and the others are read from the next slot. -/
theorem contents_succ {slot : ℕ → α} {len start num : ℕ} (h : start < len) :
    contents slot len start (num + 1) =
      slot start :: contents slot len ((start + 1) % len) num := by
  simp only [contents, List.range_succ_eq_map, List.map_cons, List.map_map, Nat.add_zero,
    Nat.mod_eq_of_lt h]
  congr 1
  refine List.map_congr_left fun j _ ↦ ?_
  have hidx : (start + (j + 1)) % len = ((start + 1) % len + j) % len := by
    rw [Nat.mod_add_mod, Nat.add_assoc, Nat.add_comm 1 j]
  simp only [Function.comp_apply, Nat.succ_eq_add_one, hidx]

end Tidbits.Sequence.Ring
