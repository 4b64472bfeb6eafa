import Tidbits.Transition.Reach

/-!
# Systems under observation

An observer keeps notes about the run of a system.  The notes change with each
step, as a function of the state before the step and its label, and the system
does not see them; so every run of the system is a run of the observed one, and
the other way round.

Nothing here depends on the systems modelled elsewhere.
-/

universe u v w

namespace Tidbits.Transition

variable {S : Type u} {A : Type v} {G : Type w}

/-- The step function of the observed system. -/
def observed (step : S → A → Option S) (notes : S → A → G → G) (p : S × G) (a : A) :
    Option (S × G) :=
  (step p.1 a).map fun t ↦ (t, notes p.1 a p.2)

variable {step : S → A → Option S} {notes : S → A → G → G} {s t : S} {g g' : G} {a : A}

theorem observed_eq_some :
    observed step notes (s, g) a = some (t, g') ↔ step s a = some t ∧ notes s a g = g' := by
  simp only [observed, Option.map_eq_some_iff, Prod.mk.injEq]
  exact ⟨fun ⟨u, hu, hut, hg⟩ ↦ ⟨hut ▸ hu, hg⟩, fun ⟨hs, hg⟩ ↦ ⟨t, hs, rfl, hg⟩⟩

namespace Reach

variable {ok : S × G → A → Prop} {p q : S × G}

/-- A run under observation is a run. -/
theorem of_observed (h : Reach (observed step notes) ok p q) : Reach step Any p.1 q.1 := by
  induction h with
  | refl => exact refl
  | tail _ _ hs ih => exact ih.tail trivial (observed_eq_some.mp hs).1

end Reach

end Tidbits.Transition
