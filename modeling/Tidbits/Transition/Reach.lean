import Mathlib.Data.Nat.Notation
import Mathlib.Logic.Function.Basic

/-!
# Runs of a labelled step function

A system is given by a partial step function `step : S → A → Option S`: the
label `a` carries every choice the environment or the scheduler makes, so that
each step is a function of the state and the label, and `none` says that the
label is not enabled.

`Reach step ok s t` holds when `t` is reached from `s` by steps each of which
satisfies the condition `ok` at its source state and its label.  Taking the
condition as a parameter lets one speak of "every run whose steps all meet ..."
with the same induction principle as of plain reachability, which is
`Reach step Any`.

Nothing here depends on the systems modelled elsewhere.
-/

universe u v

namespace Tidbits.Transition

variable {S : Type u} {A : Type v}

/-- The condition that every step meets. -/
def Any (_ : S) (_ : A) : Prop := True

instance : DecidableRel (Any : S → A → Prop) := fun _ _ ↦ instDecidableTrue

/-- `Reach step ok s t`: the state `t` is reached from `s` by steps that all
satisfy `ok`. -/
inductive Reach (step : S → A → Option S) (ok : S → A → Prop) (s : S) : S → Prop
  /-- Every state reaches itself. -/
  | refl : Reach step ok s s
  /-- A run extends by one more step that satisfies the condition. -/
  | tail {t u : S} {a : A} :
      Reach step ok s t → ok t a → step t a = some u → Reach step ok s u

namespace Reach

variable {step : S → A → Option S} {ok ok' : S → A → Prop} {s t u : S}

/-- Runs compose. -/
theorem trans (h : Reach step ok s t) (h' : Reach step ok t u) : Reach step ok s u := by
  induction h' with
  | refl => exact h
  | tail _ hok hs ih => exact ih.tail hok hs

/-- One step is a run. -/
theorem single {a : A} (hok : ok s a) (hs : step s a = some t) : Reach step ok s t :=
  refl.tail hok hs

/-- A run prefixed by one step. -/
theorem head {a : A} (hok : ok s a) (hs : step s a = some t) (h : Reach step ok t u) :
    Reach step ok s u := (single hok hs).trans h

/-- A run is also a run under a condition that the first one implies in the
states it reaches. -/
theorem mono {J : S → Prop} (h : Reach step ok s t) (hJ : ∀ {t : S}, Reach step ok s t → J t)
    (hsub : ∀ {t : S} {a : A}, J t → ok t a → ok' t a) : Reach step ok' s t := by
  induction h with
  | refl => exact refl
  | tail hr hok hs ih => exact ih.tail (hsub (hJ hr) hok) hs

/-- **The invariant rule.**  What holds at the start and is kept by every step
that meets the condition holds at the end of the run. -/
theorem invariant {I : S → Prop} (h : Reach step ok s t) (h₀ : I s)
    (hstep : ∀ {t u : S} {a : A}, I t → ok t a → step t a = some u → I u) : I t := by
  induction h with
  | refl => exact h₀
  | tail _ hok hs ih => exact hstep ih hok hs

/-- The invariant rule for an invariant that is kept only in the presence of one
already established. -/
theorem invariant_of {I J : S → Prop} (h : Reach step ok s t)
    (hJ : ∀ {t : S}, Reach step ok s t → J t) (h₀ : I s)
    (hstep : ∀ {t u : S} {a : A}, J t → I t → ok t a → step t a = some u → I u) : I t := by
  induction h with
  | refl => exact h₀
  | tail hr hok hs ih => exact hstep (hJ hr) ih hok hs

/-- A run is empty or starts with a step. -/
theorem eq_or_head (h : Reach step ok s t) :
    s = t ∨ ∃ a u, ok s a ∧ step s a = some u ∧ Reach step ok u t := by
  induction h with
  | refl => exact .inl rfl
  | tail hr hok hs ih =>
      right
      obtain rfl | ⟨a, u, hok', hs', hr'⟩ := ih
      · exact ⟨_, _, hok, hs, .refl⟩
      · exact ⟨a, u, hok', hs', hr'.tail hok hs⟩

end Reach

/-- With one label there is one run, so that a state on it comes before a given step or behind
it. -/
theorem Reach.before_or_after {step : S → Unit → Option S} {ok : S → Unit → Prop} {s t t' u : S}
    (ht : Reach step ok s t) (hs : step t () = some t') (hu : Reach step ok s u) :
    Reach step ok u t ∨ Reach step ok t' u := by
  induction hu with
  | refl => exact .inl ht
  | tail _ hok hstep ih =>
      rcases ih with hbefore | hafter
      · obtain rfl | ⟨_, v, -, hstep', hr⟩ := hbefore.eq_or_head
        · obtain rfl := Option.some.inj (hs.symm.trans hstep)
          exact .inr .refl
        · obtain rfl := Option.some.inj (hstep.symm.trans hstep')
          exact .inl hr
      · exact .inr (hafter.tail hok hstep)

/-! ## Executing a schedule

In a schedule that is given explicitly there are numerals of small finite types. -/

instance neZero_one : @NeZero ℕ Zero.ofOfNat0 1 := ⟨Nat.one_ne_zero⟩

instance neZero_two : @NeZero ℕ Zero.ofOfNat0 2 := ⟨Nat.succ_ne_zero 1⟩

instance neZero_three : @NeZero ℕ Zero.ofOfNat0 3 := ⟨Nat.succ_ne_zero 2⟩

/-- Run a list of labels, checking the condition before each step. -/
def exec (step : S → A → Option S) (ok : S → A → Prop) [DecidableRel ok] : S → List A → Option S
  | s, [] => some s
  | s, a :: as => if ok s a then (step s a).bind fun t ↦ exec step ok t as else none

variable {step : S → A → Option S} {ok : S → A → Prop} [DecidableRel ok] {s t : S}

/-- A schedule that executes is a run. -/
theorem reach_of_exec {as : List A} (h : exec step ok s as = some t) : Reach step ok s t := by
  induction as generalizing s with
  | nil =>
      have h' : s = t := by simpa [exec] using h
      exact h' ▸ .refl
  | cons a as ih =>
      rw [exec] at h
      split at h
      · rename_i hok
        obtain ⟨u, hu, hr⟩ := Option.bind_eq_some_iff.mp h
        exact .head hok hu (ih hr)
      · exact absurd h (by simp)

/-- A schedule whose final state passes a test yields a reachable state that
passes it. -/
theorem exists_reach_of_exec {as : List A} {p : S → Bool}
    (h : (exec step ok s as).any p = true) : ∃ t, Reach step ok s t ∧ p t = true := by
  cases hx : exec step ok s as with
  | none => simp [hx] at h
  | some t => exact ⟨t, reach_of_exec hx, by simpa [hx] using h⟩

/-- A schedule that ends with a system satisfying a decidable property. -/
theorem exists_reach_of_exec_decide (as : List A) {P : S → Prop} [DecidablePred P]
    (h : (exec step ok s as).any (fun t ↦ decide (P t)) = true) :
    ∃ t, Reach step ok s t ∧ P t := by
  obtain ⟨t, hr, ht⟩ := exists_reach_of_exec h
  exact ⟨t, hr, of_decide_eq_true ht⟩

/-- Two schedules, one behind the other, with a decidable property at the end of each. -/
theorem exists_reach_reach_of_exec (as bs : List A) {P Q : S → Prop} [DecidablePred P]
    [DecidablePred Q]
    (h : (exec step ok s as).any (fun t ↦ decide (P t) &&
      (exec step ok t bs).any fun u ↦ decide (Q u)) = true) :
    ∃ t, (Reach step ok s t ∧ P t) ∧ ∃ u, Reach step ok t u ∧ Q u := by
  obtain ⟨t, hr, ht⟩ := exists_reach_of_exec h
  obtain ⟨hP, hQ⟩ := Bool.and_eq_true_iff.mp ht
  obtain ⟨u, hr', hu⟩ := exists_reach_of_exec hQ
  exact ⟨t, ⟨hr, of_decide_eq_true hP⟩, u, hr', of_decide_eq_true hu⟩

end Tidbits.Transition
