import Tidbits.Transition.Reach

/-!
# Refinement with stuttering

A system refines a specification when each of its steps either is an event of
the specification or changes nothing that the specification speaks of.  Which of
the two it is may depend on the state: an operation that takes several steps is
an event where it takes effect, and the steps around it stutter.  `event s a` is
the event of the step `a` in the state `s`, if it is one, and `events` collects
those of a schedule.

`Refines.exec` carries a schedule of the system over to the specification.
Nothing here depends on the systems modelled elsewhere.
-/

universe u v w x

namespace Tidbits.Transition

variable {S : Type u} {A : Type v} {T : Type w} {B : Type x}

/-- The events of a schedule. -/
def events (step : S → A → Option S) (event : S → A → Option B) : S → List A → List B
  | _, [] => []
  | s, a :: as =>
      (event s a).toList ++
        match step s a with
        | some t => events step event t as
        | none => []

/-- Each step between related states is an event of the specification, or stutters. -/
structure Refines (step : S → A → Option S) (ok : S → A → Prop) (event : S → A → Option B)
    (spec : T → B → Option T) (Rel : S → T → Prop) : Prop where
  stutter : ∀ {s s' t a}, Rel s t → ok s a → step s a = some s' → event s a = none → Rel s' t
  happens : ∀ {s s' t a b}, Rel s t → ok s a → step s a = some s' → event s a = some b →
    ∃ t', spec t b = some t' ∧ Rel s' t'

variable {step : S → A → Option S} {ok : S → A → Prop} [DecidableRel ok]
  {event : S → A → Option B} {spec : T → B → Option T} {Rel : S → T → Prop}

/-- **Refinement.**  The events of a schedule are a schedule of the specification, and it
leads to a related state. -/
theorem Refines.exec (h : Refines step ok event spec Rel) {as : List A} {s s' : S} {t : T}
    (hst : Rel s t) (hs : Transition.exec step ok s as = some s') :
    ∃ t', Transition.exec spec Any t (events step event s as) = some t' ∧ Rel s' t' := by
  induction as generalizing s t with
  | nil =>
      cases hs
      exact ⟨t, rfl, hst⟩
  | cons a as ih =>
      rw [Transition.exec] at hs
      obtain ⟨hok, hs⟩ := Option.ite_none_right_eq_some.mp hs
      obtain ⟨s₁, hs₁, hs⟩ := Option.bind_eq_some_iff.mp hs
      rw [events, hs₁]
      cases hevent : event s a with
      | none => exact ih (h.stutter hst hok hs₁ hevent) hs
      | some b =>
          obtain ⟨t₁, ht₁, hrel⟩ := h.happens hst hok hs₁ hevent
          obtain ⟨t', ht', hrel'⟩ := ih hrel hs
          refine ⟨t', ?_, hrel'⟩
          change Transition.exec spec Any t (b :: events step event s₁ as) = some t'
          rw [Transition.exec, if_pos (show Any t b from trivial), ht₁]
          exact ht'

end Tidbits.Transition
