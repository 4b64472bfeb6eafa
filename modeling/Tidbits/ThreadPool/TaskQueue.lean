import Tidbits.Sequence.Ring
import Mathlib.Tactic.Ring

/-!
# The task queue of the thread pool

`struct POThreadPool_taskQueue` of `threadPool.h` with its three functions from
`threadPool.c`: a circular array of `PO_THREADPOOL_QUEUE_LENGTH` entries, the
index of the oldest entry and the number of entries, the last two `uint32_t`.

The counters are natural numbers with the reduction modulo `2 ^ 32` written
where the C arithmetic performs it: `nextReadIndex + num++` is a `uint32_t` sum
before it is reduced by the length.  As long as the length is at most `2 ^ 31`
the reductions do nothing and the queue is a bounded FIFO
(`contents_queueMakeNewEntry`, `contents_queueGetNext`).  For longer queues only
`TaskQueue.Valid` survives: the indices stay in range and no slot is read that
was never written.
-/

namespace Tidbits.ThreadPool

open Tidbits.Sequence

/-- `struct POThreadPool_task`, together with the number of the
`poThreadPool_runTask` call that submitted it.  The callback and its argument
are pointers the pool never looks into; the call number is not in the C struct
and tells apart two submissions of the same callback. -/
structure Task where
  userCallback : ℕ
  userData : ℕ
  call : ℕ
deriving DecidableEq, Repr

/-- `struct POThreadPool_taskQueue`.  A slot that holds `none` still has the
`NULL` callback that `poThreadPool_create` zeroed it with. -/
structure TaskQueue where
  task : ℕ → Option Task
  nextReadIndex : ℕ
  num : ℕ

namespace TaskQueue

/-- The zeroed queue. -/
def empty : TaskQueue := ⟨fun _ ↦ none, 0, 0⟩

/-- Take the oldest entry, or return `none` (`NULL`) when the queue is empty. -/
def queueGetNext (len : ℕ) (q : TaskQueue) : Option (Option Task × TaskQueue) :=
  if q.num = 0 then none
  else
    let i := q.nextReadIndex
    some (q.task i,
      { q with
        nextReadIndex := if i < len - 1 then (q.nextReadIndex + 1) % 2 ^ 32 else 0
        num := q.num - 1 })

/-- Make a new entry, or return `none` (`false`) when the queue is full. -/
def queueMakeNewEntry (len : ℕ) (q : TaskQueue) (t : Task) : Option TaskQueue :=
  if q.num = len then none
  else
    some
      { q with
        task := Function.update q.task ((q.nextReadIndex + q.num) % 2 ^ 32 % len) (some t)
        num := (q.num + 1) % 2 ^ 32 }

/-- The entries that `queueGetNext` will return, oldest first. -/
def contents (len : ℕ) (q : TaskQueue) : List (Option Task) :=
  Ring.contents q.task len q.nextReadIndex q.num

@[simp] theorem contents_empty (len : ℕ) : empty.contents len = [] := rfl

@[simp] theorem queueGetNext_eq_none {len : ℕ} {q : TaskQueue} :
    q.queueGetNext len = none ↔ q.num = 0 := by
  unfold queueGetNext
  split <;> simp_all

/-- What `queueGetNext` does to a queue that has an entry. -/
theorem queueGetNext_eq_some {len : ℕ} {q q' : TaskQueue} {t : Option Task}
    (h : q.queueGetNext len = some (t, q')) :
    0 < q.num ∧ t = q.task q.nextReadIndex ∧ q'.task = q.task ∧ q'.num = q.num - 1 ∧
      q'.nextReadIndex =
        if q.nextReadIndex < len - 1 then (q.nextReadIndex + 1) % 2 ^ 32 else 0 := by
  unfold queueGetNext at h
  split at h
  · cases h
  · rename_i hn
    cases h
    exact ⟨Nat.pos_of_ne_zero hn, rfl, rfl, rfl, rfl⟩

@[simp] theorem queueMakeNewEntry_eq_none {len : ℕ} {q : TaskQueue} {t : Task} :
    q.queueMakeNewEntry len t = none ↔ q.num = len := by
  unfold queueMakeNewEntry
  split <;> simp_all

/-- What `queueMakeNewEntry` does to a queue with room. -/
theorem queueMakeNewEntry_eq_some {len : ℕ} {q q' : TaskQueue} {t : Task}
    (h : q.queueMakeNewEntry len t = some q') :
    q.num ≠ len ∧ q'.nextReadIndex = q.nextReadIndex ∧ q'.num = (q.num + 1) % 2 ^ 32 ∧
      q'.task =
        Function.update q.task ((q.nextReadIndex + q.num) % 2 ^ 32 % len) (some t) := by
  unfold queueMakeNewEntry at h
  split at h
  · cases h
  · rename_i hn
    cases h
    exact ⟨hn, rfl, rfl, rfl⟩

/-! ## Validity, for every length

What the `DASSERT`s at the head of the three functions check, the width of the
counters, and that the slots about to be read were written.  Slots are written
in index order, so either all that are in reach have been written or the
entries still end before the first turn of the write position. -/

/-- Every slot below `n` has been written. -/
def Written (q : TaskQueue) (n : ℕ) : Prop := ∀ i < n, (q.task i).isSome

/-- The representation invariant of a queue of `len` slots. -/
structure Valid (len : ℕ) (q : TaskQueue) : Prop where
  nextReadIndex_lt : q.nextReadIndex < len
  num_le : q.num ≤ len
  nextReadIndex_lt_width : q.nextReadIndex < 2 ^ 32
  num_lt_width : q.num < 2 ^ 32
  written : q.Written (min len (2 ^ 32)) ∨
    (q.nextReadIndex + q.num ≤ min len (2 ^ 32) ∧ q.Written (q.nextReadIndex + q.num))

theorem valid_empty {len : ℕ} (h : 0 < len) : empty.Valid len where
  nextReadIndex_lt := h
  num_le := Nat.zero_le _
  nextReadIndex_lt_width := by norm_num [empty]
  num_lt_width := by norm_num [empty]
  written := .inr ⟨Nat.zero_le _, fun i hi ↦ absurd hi (Nat.not_lt_zero i)⟩

/-- The slot at the read index of a queue with an entry has been written. -/
theorem Valid.isSome_next {len : ℕ} {q : TaskQueue} (h : q.Valid len) (hn : 0 < q.num) :
    (q.task q.nextReadIndex).isSome := by
  have hlt := h.nextReadIndex_lt
  have hwidth := h.nextReadIndex_lt_width
  rcases h.written with hw | ⟨_, hw⟩
  · exact hw _ (by omega)
  · exact hw _ (by omega)

/-- `queueGetNext` never returns an entry with a `NULL` callback. -/
theorem Valid.queueGetNext_isSome {len : ℕ} {q q' : TaskQueue} {t : Option Task}
    (h : q.Valid len) (hg : q.queueGetNext len = some (t, q')) : t.isSome := by
  obtain ⟨hn, rfl, -⟩ := queueGetNext_eq_some hg
  exact h.isSome_next hn

theorem Valid.queueGetNext {len : ℕ} {q q' : TaskQueue} {t : Option Task}
    (h : q.Valid len) (hg : q.queueGetNext len = some (t, q')) : q'.Valid len := by
  obtain ⟨hn, -, htask, hnum, hnext⟩ := queueGetNext_eq_some hg
  have hlt := h.nextReadIndex_lt
  have hwidth := h.nextReadIndex_lt_width
  have hle := h.num_le
  have hnw := h.num_lt_width
  have hmove : q'.nextReadIndex = q.nextReadIndex + 1 ∧ q.nextReadIndex + 1 < len ∧
        q.nextReadIndex + 1 < 2 ^ 32 ∨
      q'.nextReadIndex = 0 ∧ min len (2 ^ 32) ≤ q.nextReadIndex + 1 := by
    rw [hnext]
    split <;> omega
  refine ⟨by omega, by omega, by omega, by omega, ?_⟩
  have hwr : ∀ n, q.Written n → q'.Written n := fun n hw ↦ by simpa [Written, htask] using hw
  rcases h.written with hw | ⟨hend, hw⟩
  · exact .inl (hwr _ hw)
  · rcases hmove with ⟨hnx, -, -⟩ | ⟨hnx, hwrap⟩
    · refine .inr ⟨by omega, hwr _ ?_⟩
      rwa [hnx, hnum, show q.nextReadIndex + 1 + (q.num - 1) = q.nextReadIndex + q.num by omega]
    · -- the read index turns, so the entries reached the end of the array
      refine .inl (hwr _ fun i hi ↦ hw i (by omega))

theorem Valid.queueMakeNewEntry {len : ℕ} {q q' : TaskQueue} {t : Task}
    (h : q.Valid len) (hm : q.queueMakeNewEntry len t = some q') : q'.Valid len := by
  obtain ⟨hne, hnext, hnum, htask⟩ := queueMakeNewEntry_eq_some hm
  have hlt := h.nextReadIndex_lt
  have hwidth := h.nextReadIndex_lt_width
  have hle := h.num_le
  have hnw := h.num_lt_width
  have hgrow : ∀ n, q.Written n → q'.Written n := fun n hw i hi ↦ by
    rw [htask, Function.update_apply]
    split
    · rfl
    · exact hw i hi
  refine ⟨by omega, by omega, by omega, by omega, ?_⟩
  rcases h.written with hw | ⟨hend, hw⟩
  · exact .inl (hgrow _ hw)
  by_cases hfull : q.nextReadIndex + q.num = min len (2 ^ 32)
  · exact .inl (hgrow _ (hfull ▸ hw))
  · have hidx : (q.nextReadIndex + q.num) % 2 ^ 32 % len = q.nextReadIndex + q.num := by
      rw [Nat.mod_eq_of_lt (a := q.nextReadIndex + q.num) (by omega), Nat.mod_eq_of_lt (by omega)]
    have hnew : q'.Written (q.nextReadIndex + q.num + 1) := by
      intro i hi
      rw [htask, hidx, Function.update_apply]
      split
      · rfl
      · exact hw i (by omega)
    by_cases hturn : q.num + 1 = 2 ^ 32
    · exact .inl fun i hi ↦ hnew i (by omega)
    · have hnum' : q'.num = q.num + 1 := by rw [hnum, Nat.mod_eq_of_lt (by omega)]
      refine .inr ⟨by omega, ?_⟩
      rwa [hnext, hnum', ← Nat.add_assoc]

/-! ## FIFO, for the lengths the counters can address -/

/-- A new entry goes to the end. -/
theorem Valid.contents_queueMakeNewEntry {len : ℕ} {q q' : TaskQueue} {t : Task}
    (h : q.Valid len) (hlen : len ≤ 2 ^ 31) (hm : q.queueMakeNewEntry len t = some q') :
    q'.contents len = q.contents len ++ [some t] ∧ q'.num = q.num + 1 := by
  obtain ⟨hne, hnext, hnum, htask⟩ := queueMakeNewEntry_eq_some hm
  have hlt := h.nextReadIndex_lt
  have hle := h.num_le
  have hnum' : q'.num = q.num + 1 := by rw [hnum, Nat.mod_eq_of_lt (by omega)]
  have hsum : (q.nextReadIndex + q.num) % 2 ^ 32 = q.nextReadIndex + q.num :=
    Nat.mod_eq_of_lt (by omega)
  refine ⟨?_, hnum'⟩
  rw [contents, hnum', hnext, htask, hsum]
  exact Ring.contents_update_succ (by omega) _

/-- The entry returned is the oldest one. -/
theorem Valid.contents_queueGetNext {len : ℕ} {q q' : TaskQueue} {t : Option Task}
    (h : q.Valid len) (hlen : len ≤ 2 ^ 31) (hg : q.queueGetNext len = some (t, q')) :
    q.contents len = t :: q'.contents len := by
  obtain ⟨hn, rfl, htask, hnum, hnext⟩ := queueGetNext_eq_some hg
  have hlt := h.nextReadIndex_lt
  have hnext' : q'.nextReadIndex = (q.nextReadIndex + 1) % len := by
    rw [hnext, Ring.succ_mod_eq_ite hlt]
    split
    · exact Nat.mod_eq_of_lt (by omega)
    · rfl
  rw [contents, contents, hnext', htask, hnum, ← Ring.contents_succ hlt]
  congr 1
  omega

end TaskQueue

end Tidbits.ThreadPool
