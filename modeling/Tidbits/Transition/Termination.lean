import Tidbits.Transition.Reach

/-!
# Runs that come to an end

`Run step ok s n t` is a run of `n` steps, and a state in which no step that
meets the condition is enabled `Stops` the runs.  A measure that every step
decreases bounds the length of all runs, so that each of them, however its steps
are chosen, can be continued to a state that stops it.

Nothing here depends on the systems modelled elsewhere.
-/

universe u v

namespace Tidbits.Transition

variable {S : Type u} {A : Type v}

/-- `Run step ok s n t`: the state `t` is reached from `s` by `n` steps that all satisfy `ok`. -/
inductive Run (step : S → A → Option S) (ok : S → A → Prop) (s : S) : ℕ → S → Prop
  /-- Every state reaches itself in no step. -/
  | refl : Run step ok s 0 s
  /-- A run extends by one more step that satisfies the condition. -/
  | tail {n : ℕ} {t u : S} {a : A} :
      Run step ok s n t → ok t a → step t a = some u → Run step ok s (n + 1) u

/-- No step that satisfies `ok` is enabled. -/
def Stops (step : S → A → Option S) (ok : S → A → Prop) (s : S) : Prop :=
  ∀ a, ok s a → step s a = none

namespace Run

variable {step : S → A → Option S} {ok ok' : S → A → Prop} {s t u : S} {n m : ℕ}

/-- A run of `n` steps is a run. -/
theorem reach (h : Run step ok s n t) : Reach step ok s t := by
  induction h with
  | refl => exact .refl
  | tail _ hok hs ih => exact ih.tail hok hs

/-- The states of a run satisfy a weaker condition. -/
theorem reach_of (h : Run step ok s n t) (hsub : ∀ {t : S} {a : A}, ok t a → ok' t a) :
    Reach step ok' s t := h.reach.mono (J := fun _ ↦ True) (fun _ ↦ trivial) fun _ ↦ hsub

/-- Runs compose. -/
theorem trans (h : Run step ok s n t) (h' : Run step ok t m u) : Run step ok s (n + m) u := by
  induction h' with
  | refl => exact h
  | tail _ hok hs ih => exact ih.tail hok hs

/-- **The measure rule.**  In the presence of an invariant, a measure that each
step decreases bounds the length of the run. -/
theorem length_add_le {I : S → Prop} {μ : S → ℕ} (h : Run step ok s n t) (h₀ : I s)
    (hstep : ∀ {t u : S} {a : A}, I t → ok t a → step t a = some u → I u ∧ μ u < μ t) :
    I t ∧ n + μ t ≤ μ s := by
  induction h with
  | refl => exact ⟨h₀, Nat.le_of_eq (Nat.zero_add _)⟩
  | tail _ hok hs ih =>
      obtain ⟨hI, hle⟩ := ih
      obtain ⟨hI', hlt⟩ := hstep hI hok hs
      exact ⟨hI', by omega⟩

/-- Where every step decreases a measure, some run goes on until it stops. -/
theorem exists_stops {I : S → Prop} {μ : S → ℕ} (h₀ : I s)
    (hstep : ∀ {t u : S} {a : A}, I t → ok t a → step t a = some u → I u ∧ μ u < μ t) :
    ∃ n t, Run step ok s n t ∧ Stops step ok t := by
  -- induction on the measure of the first state
  induction hn : μ s using Nat.strongRecOn generalizing s with
  | ind n ih =>
    by_cases hstop : Stops step ok s
    · exact ⟨0, s, .refl, hstop⟩
    · obtain ⟨a, ha⟩ := Classical.not_forall.mp hstop
      obtain ⟨hok, hne⟩ := Classical.not_imp.mp ha
      obtain ⟨t, hs⟩ := Option.ne_none_iff_exists'.mp hne
      obtain ⟨hI, hlt⟩ := hstep h₀ hok hs
      obtain ⟨m, u, hr, hu⟩ := ih _ (hn ▸ hlt) hI rfl
      exact ⟨0 + 1 + m, u, (Run.tail .refl hok hs).trans hr, hu⟩

/-- A schedule that executes is a run of its length. -/
theorem of_exec [DecidableRel ok] {as : List A} (h : exec step ok s as = some t) :
    Run step ok s as.length t := by
  induction as generalizing s with
  | nil => exact Option.some.inj h ▸ .refl
  | cons a as ih =>
      rw [exec] at h
      obtain ⟨hok, h⟩ := Option.ite_none_right_eq_some.mp h
      obtain ⟨u, hu, hr⟩ := Option.bind_eq_some_iff.mp h
      rw [List.length_cons, Nat.add_comm]
      exact (Run.tail .refl hok hu).trans (ih hr)

end Run

end Tidbits.Transition
