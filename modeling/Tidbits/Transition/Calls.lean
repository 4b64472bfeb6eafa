import Mathlib.Init

/-!
# Objects that answer calls

An object has a state and a function `call : S → C → R × S` that answers a call
and moves the object to its next state.  `calls` makes a list of calls one after
another and collects the answers.

One object refines another one when related states give the same answer to each
call and stay related (`Simulates`); then no list of calls tells the two apart
(`Simulates.calls_eq`).  Where the callers have a duty, `ok` states it on the
abstract object and `Legal` says that a list of calls respects it.

Nothing here depends on the systems modelled elsewhere.
-/

universe u v w x

namespace Tidbits.Transition

variable {S : Type u} {T : Type v} {C : Type w} {R : Type x}

/-- Make calls one after another: the answers, and the state they lead to. -/
def calls (call : S → C → R × S) : S → List C → List R × S
  | s, [] => ([], s)
  | s, c :: cs =>
      let r := call s c
      let rs := calls call r.2 cs
      (r.1 :: rs.1, rs.2)

/-- Every call is made in a state that meets the condition. -/
def Legal (call : S → C → R × S) (ok : S → C → Prop) : S → List C → Prop
  | _, [] => True
  | s, c :: cs => ok s c ∧ Legal call ok (call s c).2 cs

variable {call : S → C → R × S} {spec : T → C → R × T} {ok : T → C → Prop} {s : S} {t : T}
  {c : C} {cs : List C}

@[simp] theorem calls_nil : calls call s [] = ([], s) := rfl

@[simp] theorem calls_cons :
    calls call s (c :: cs) =
      ((call s c).1 :: (calls call (call s c).2 cs).1, (calls call (call s c).2 cs).2) := rfl

@[simp] theorem legal_nil : Legal spec ok t [] := trivial

@[simp] theorem legal_cons :
    Legal spec ok t (c :: cs) ↔ ok t c ∧ Legal spec ok (spec t c).2 cs := Iff.rfl

theorem calls_append (cs cs' : List C) :
    calls call s (cs ++ cs') =
      ((calls call s cs).1 ++ (calls call (calls call s cs).2 cs').1,
        (calls call (calls call s cs).2 cs').2) := by
  induction cs generalizing s with
  | nil => rfl
  | cons c cs ih => rw [List.cons_append, calls_cons, ih, calls_cons, List.cons_append]

theorem legal_append (cs cs' : List C) :
    Legal spec ok t (cs ++ cs') ↔
      Legal spec ok t cs ∧ Legal spec ok (calls spec t cs).2 cs' := by
  induction cs generalizing t with
  | nil => exact (and_iff_right trivial).symm
  | cons c cs ih => rw [List.cons_append, legal_cons, ih, legal_cons, calls_cons, and_assoc]

/-- Without a condition every list of calls is legal. -/
theorem legal_of_forall (h : ∀ t c, ok t c) (t : T) (cs : List C) : Legal spec ok t cs := by
  induction cs generalizing t with
  | nil => trivial
  | cons c cs ih => exact ⟨h t c, ih _⟩

/-- Related states answer the same and stay related. -/
structure Simulates (call : S → C → R × S) (spec : T → C → R × T) (ok : T → C → Prop)
    (Rel : S → T → Prop) : Prop where
  answer : ∀ {s t c}, Rel s t → ok t c → (call s c).1 = (spec t c).1
  next : ∀ {s t c}, Rel s t → ok t c → Rel (call s c).2 (spec t c).2

/-- **Refinement.**  A legal list of calls gets the same answers from both objects and leaves
them in related states. -/
theorem Simulates.calls_eq {Rel : S → T → Prop} (h : Simulates call spec ok Rel) (hst : Rel s t)
    (hl : Legal spec ok t cs) :
    (calls call s cs).1 = (calls spec t cs).1 ∧ Rel (calls call s cs).2 (calls spec t cs).2 := by
  induction cs generalizing s t with
  | nil => exact ⟨rfl, hst⟩
  | cons c cs ih =>
      obtain ⟨hanswers, hrel⟩ := ih (h.next hst hl.1) hl.2
      refine ⟨?_, hrel⟩
      rw [calls_cons, calls_cons, h.answer hst hl.1, hanswers]

end Tidbits.Transition
