import Tidbits.ThreadPool.TaskQueue
import Tidbits.Transition.Calls

/-!
# The task queue as a bounded FIFO

The queue of `threadPool.c` as an object with two calls, and what it is for: a
list of at most `PO_THREADPOOL_QUEUE_LENGTH` tasks that grows at its end and
shrinks at its front.

With at most `2 ^ 31` slots the two answer every list of calls alike
(`TaskQueue.fifo_of_calls`).
-/

namespace Tidbits.ThreadPool

open Tidbits.Transition

/-- The calls of the two queue functions. -/
inductive QueueCall
  | queueMakeNewEntry (t : Task)
  | queueGetNext
deriving DecidableEq, Repr

/-- What they return. -/
inductive QueueAnswer
  /-- Whether there was room for the new entry. -/
  | made (b : Bool)
  /-- `NULL`, or the slot the returned pointer points to. -/
  | got (slot : Option (Option Task))
deriving DecidableEq, Repr

/-- The tasks that a call has put into the queue, given its answer. -/
def QueueCall.inserted : QueueCall → QueueAnswer → List Task
  | .queueMakeNewEntry t, .made true => [t]
  | _, _ => []

/-- The tasks that a list of calls has put into the queue, given the answers. -/
def inserted : List QueueCall → List QueueAnswer → List Task
  | c :: cs, a :: as => c.inserted a ++ inserted cs as
  | _, _ => []

/-- The tasks that an answer has taken out of the queue. -/
def QueueAnswer.returned : QueueAnswer → List Task
  | .got (some (some t)) => [t]
  | _ => []

namespace TaskQueue

/-- A call of a queue function. -/
def call (len : ℕ) (q : TaskQueue) : QueueCall → QueueAnswer × TaskQueue
  | .queueMakeNewEntry t =>
      match q.queueMakeNewEntry len t with
      | some q' => (.made true, q')
      | none => (.made false, q)
  | .queueGetNext =>
      match q.queueGetNext len with
      | some (t, q') => (.got (some t), q')
      | none => (.got none, q)

end TaskQueue

/-! ## The bounded FIFO -/

/-- A call of a bounded FIFO that holds the tasks `l`, oldest first. -/
def Fifo.call (len : ℕ) (l : List Task) : QueueCall → QueueAnswer × List Task
  | .queueMakeNewEntry t => if l.length < len then (.made true, l ++ [t]) else (.made false, l)
  | .queueGetNext =>
      match l with
      | [] => (.got none, [])
      | t :: l => (.got (some (some t)), l)

namespace Fifo

variable {len : ℕ} {l : List Task}

/-- What a call puts in goes to the end, and what it takes out is what was first. -/
theorem append_inserted (c : QueueCall) :
    l ++ c.inserted (call len l c).1 = (call len l c).1.returned ++ (call len l c).2 := by
  cases c with
  | queueMakeNewEntry t =>
      by_cases hroom : l.length < len
      · simp [call, hroom, QueueCall.inserted, QueueAnswer.returned]
      · simp [call, hroom, QueueCall.inserted, QueueAnswer.returned]
  | queueGetNext =>
      cases l with
      | nil => rfl
      | cons t l => simp [call, QueueCall.inserted, QueueAnswer.returned]

/-- What a FIFO held and what was put in is what was taken out and what it holds, in this order. -/
theorem append_inserted_calls (l : List Task) (cs : List QueueCall) :
    l ++ inserted cs (calls (call len) l cs).1 =
      (calls (call len) l cs).1.flatMap QueueAnswer.returned ++ (calls (call len) l cs).2 := by
  induction cs generalizing l with
  | nil => simp [inserted]
  | cons c cs ih =>
      rw [calls_cons, inserted, ← List.append_assoc, append_inserted, List.append_assoc, ih,
        List.flatMap_cons, List.append_assoc]

end Fifo

/-! ## The refinement -/

namespace TaskQueue

variable {len : ℕ} {q : TaskQueue} {l : List Task}

/-- The queue is valid and its entries are the tasks of the list. -/
structure Represents (len : ℕ) (q : TaskQueue) (l : List Task) : Prop where
  valid : q.Valid len
  contents_eq : q.contents len = l.map some

namespace Represents

theorem length_eq (h : q.Represents len l) : q.num = l.length := by
  have hlength := congrArg List.length h.contents_eq
  simpa [contents, Sequence.Ring.contents] using hlength

theorem empty (hlen : 0 < len) : TaskQueue.empty.Represents len [] := ⟨valid_empty hlen, rfl⟩

/-- A new entry is made if and only if there is room, and comes last. -/
theorem queueMakeNewEntry (h : q.Represents len l) (hlen : len ≤ 2 ^ 31) (t : Task) :
    (l.length < len ∧ ∃ q', q.queueMakeNewEntry len t = some q' ∧
        q'.Represents len (l ++ [t])) ∨
      (¬ l.length < len ∧ q.queueMakeNewEntry len t = none) := by
  have hle := h.valid.num_le
  have hnum := h.length_eq
  cases hmake : q.queueMakeNewEntry len t with
  | none =>
      rw [queueMakeNewEntry_eq_none] at hmake
      exact .inr ⟨by omega, rfl⟩
  | some q' =>
      have hne := (queueMakeNewEntry_eq_some hmake).1
      obtain ⟨hcontents, -⟩ := h.valid.contents_queueMakeNewEntry hlen hmake
      refine .inl ⟨by omega, q', rfl, h.valid.queueMakeNewEntry hmake, ?_⟩
      rw [hcontents, h.contents_eq, List.map_append]
      rfl

/-- The first task is the one returned. -/
theorem queueGetNext (h : q.Represents len l) (hlen : len ≤ 2 ^ 31) :
    (l = [] ∧ q.queueGetNext len = none) ∨
      ∃ t l' q', l = t :: l' ∧ q.queueGetNext len = some (some t, q') ∧
        q'.Represents len l' := by
  have hnum := h.length_eq
  cases hget : q.queueGetNext len with
  | none =>
      rw [queueGetNext_eq_none] at hget
      exact .inl ⟨List.eq_nil_of_length_eq_zero (hnum.symm.trans hget), rfl⟩
  | some r =>
      obtain ⟨slot, q'⟩ := r
      have hcontents := h.valid.contents_queueGetNext hlen hget
      rw [h.contents_eq] at hcontents
      obtain ⟨t, l', rfl, rfl, hrest⟩ := List.map_eq_cons_iff.mp hcontents
      exact .inr ⟨t, l', q', rfl, rfl, h.valid.queueGetNext hget, hrest.symm⟩

end Represents

/-- The queue refines the bounded FIFO. -/
theorem simulates_fifo (hlen : len ≤ 2 ^ 31) :
    Simulates (call len) (Fifo.call len) (fun _ _ ↦ True) (Represents len) := by
  have hcall : ∀ {q l} (c : QueueCall), Represents len q l →
      (call len q c).1 = (Fifo.call len l c).1 ∧
        (call len q c).2.Represents len (Fifo.call len l c).2 := by
    intro q l c h
    cases c with
    | queueMakeNewEntry t =>
        rcases h.queueMakeNewEntry hlen t with ⟨hroom, q', hmake, hq'⟩ | ⟨hfull, hmake⟩
        · simpa [call, Fifo.call, hroom, hmake] using hq'
        · simpa [call, Fifo.call, hfull, hmake] using h
    | queueGetNext =>
        rcases h.queueGetNext hlen with ⟨rfl, hget⟩ | ⟨t, l', q', rfl, hget, hq'⟩
        · simpa [call, Fifo.call, hget] using h
        · simpa [call, Fifo.call, hget] using hq'
  exact ⟨fun h _ ↦ (hcall _ h).1, fun h _ ↦ (hcall _ h).2⟩

/-- **The task queue is a bounded FIFO.**  The answers to a list of calls are those of the FIFO;
the indices stay in range, there is room for a new entry if and only if fewer tasks than slots
are held, and the tasks come out as they went in. -/
theorem fifo_of_calls (hpos : 1 ≤ len) (hlen : len ≤ 2 ^ 31) (cs : List QueueCall) :
    let r := calls (call len) empty cs
    let f := calls (Fifo.call len) [] cs
    r.1 = f.1 ∧ r.2.contents len = f.2.map some ∧
      r.2.nextReadIndex < len ∧ r.2.num ≤ len ∧ r.2.num = f.2.length ∧
      (∀ t, (r.2.queueMakeNewEntry len t).isSome ↔ f.2.length < len) ∧
      inserted cs r.1 = r.1.flatMap QueueAnswer.returned ++ f.2 := by
  obtain ⟨hanswers, hrep⟩ := (simulates_fifo hlen).calls_eq (Represents.empty hpos)
    (legal_of_forall (fun _ _ ↦ trivial) [] cs)
  refine ⟨hanswers, hrep.contents_eq, hrep.valid.nextReadIndex_lt, hrep.valid.num_le,
    hrep.length_eq, fun t ↦ ?_, ?_⟩
  · rcases hrep.queueMakeNewEntry hlen t with ⟨hroom, q', hmake, -⟩ | ⟨hfull, hmake⟩
    · simp [hroom, hmake]
    · simp [hfull, hmake]
  · rw [hanswers]
    exact Fifo.append_inserted_calls [] cs

/-- Two slots are filled, the third entry is refused, and the read index turns. -/
theorem fifo_of_calls_two :
    let cs : List QueueCall :=
      [.queueMakeNewEntry ⟨1, 0, 0⟩, .queueMakeNewEntry ⟨2, 0, 1⟩, .queueMakeNewEntry ⟨3, 0, 2⟩,
        .queueGetNext, .queueGetNext, .queueGetNext]
    let r := calls (call 2) empty cs
    r.1 = [.made true, .made true, .made false, .got (some (some ⟨1, 0, 0⟩)),
        .got (some (some ⟨2, 0, 1⟩)), .got none] ∧
      r.2.nextReadIndex < 2 ∧ r.2.num ≤ 2 := by
  intro cs r
  obtain ⟨hanswers, -, hnext, hnum, -⟩ := @fifo_of_calls 2 (by decide) (by decide) cs
  exact ⟨hanswers.trans (by decide), hnext, hnum⟩

end TaskQueue

end Tidbits.ThreadPool
