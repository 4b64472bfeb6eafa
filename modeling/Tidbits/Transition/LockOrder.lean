import Mathlib.Logic.Relation
import Mathlib.Data.Nat.Notation

/-!
# Locks that are taken in order

Threads hold locks and request locks.  A thread waits for another one if it
requests a lock that the other one holds.  When every thread holds only locks
that come before the one it requests, in an order of bounded height, the threads
cannot wait for each other in a circle: from a thread that waits one gets to a
thread that does not, and that is another thread.

Nothing here depends on the systems modelled elsewhere.
-/

universe u v

namespace Tidbits.Transition

variable {T : Type u} {L : Type v} {holds requests : T → L → Prop} {rank : L → ℕ} {n : ℕ}
  {t t' : T} {l : L}

/-- The thread `t` requests a lock that the thread `t'` holds. -/
def WaitsFor (holds requests : T → L → Prop) (t t' : T) : Prop :=
  ∃ l, requests t l ∧ holds t' l

/-- Whoever requests a lock holds only locks of a smaller rank. -/
def LockOrder (holds requests : T → L → Prop) (rank : L → ℕ) : Prop :=
  ∀ t l l', requests t l → holds t l' → rank l' < rank l

namespace LockOrder

/-- From the holder of a lock one gets to a thread that waits for none, and that holds a lock which
does not come before. -/
theorem exists_free (h : LockOrder holds requests rank) (hbound : ∀ l, rank l < n) :
    ∀ {l t}, holds t l → ∃ t', Relation.ReflTransGen (WaitsFor holds requests) t t' ∧
      (∀ t'', ¬ WaitsFor holds requests t' t'') ∧ ∃ l', holds t' l' ∧ rank l ≤ rank l' := by
  -- induction on what is left of the order above the lock
  suffices hmeasure : ∀ k l t, n - rank l = k → holds t l →
      ∃ t', Relation.ReflTransGen (WaitsFor holds requests) t t' ∧
        (∀ t'', ¬ WaitsFor holds requests t' t'') ∧ ∃ l', holds t' l' ∧ rank l ≤ rank l' from
    fun {l t} ↦ hmeasure _ l t rfl
  intro k
  induction k using Nat.strongRecOn with
  | ind k ih =>
      intro l t hk hheld
      by_cases hwaits : ∃ t'', WaitsFor holds requests t t''
      · obtain ⟨t₁, l₁, hrequest, hheld₁⟩ := hwaits
        have hlt := h t l₁ l hrequest hheld
        have hl₁ := hbound l₁
        obtain ⟨t', hpath, hfree, l', hl', hle⟩ := ih (n - rank l₁) (by omega) l₁ t₁ rfl hheld₁
        exact ⟨t', .head ⟨l₁, hrequest, hheld₁⟩ hpath, hfree, l', hl',
          Nat.le_trans (Nat.le_of_lt hlt) hle⟩
      · exact ⟨t, .refl, not_exists.mp hwaits, l, hheld, Nat.le_refl _⟩

/-- **No circular wait.**  A thread that waits for another one waits, through others, for one that
waits for none; and it does not wait for itself. -/
theorem exists_other (h : LockOrder holds requests rank) (hbound : ∀ l, rank l < n)
    (hwaits : WaitsFor holds requests t t') :
    ∃ u, u ≠ t ∧ Relation.TransGen (WaitsFor holds requests) t u ∧
      (∀ v, ¬ WaitsFor holds requests u v) ∧ ∃ l, holds u l := by
  obtain ⟨l, hrequest, hheld⟩ := hwaits
  obtain ⟨u, hpath, hfree, l', hl', hle⟩ := h.exists_free hbound hheld
  refine ⟨u, ?_, .head' ⟨l, hrequest, hheld⟩ hpath, hfree, l', hl'⟩
  rintro rfl
  exact absurd (h u l l' hrequest hl') (Nat.not_lt.mpr hle)

end LockOrder

end Tidbits.Transition
