import Mathlib.Data.List.Basic
import Mathlib.Logic.Function.Basic

/-!
# Values that are derived from each other

Every rule of a list gives the value of one key, from the value of another one or
from nothing.  If the list is in the order of dependence, the rules have one
solution: `solves_solve` and `Solves.eq_of_known`.
-/

namespace Tidbits.Sequence

variable {α κ ν : Type*} [DecidableEq κ] (key : α → κ) (source : α → Option κ)

/-- Every rule is for a new key and reads a known one. -/
def Ordered : List κ → List α → Prop
  | _, [] => True
  | known, p :: ps =>
      key p ∉ known ∧ (∀ k ∈ source p, k ∈ known) ∧ Ordered (key p :: known) ps

/-- What the rules say of all values at once. -/
def Solves (value : α → Option ν → ν) (rules : List α) (v : κ → ν) : Prop :=
  ∀ p ∈ rules, v (key p) = value p ((source p).map v)

/-- The values computed one after the other. -/
def solve (value : α → Option ν → ν) : List α → (κ → ν) → κ → ν
  | [], v => v
  | p :: ps, v => solve value ps (Function.update v (key p) (value p ((source p).map v)))

variable {key source} {value value' : α → Option ν → ν} {known : List κ} {rules ps : List α}
  {p : α} {v w : κ → ν}

omit [DecidableEq κ] in
theorem Ordered.key_notMem (h : Ordered key source known rules) (hp : p ∈ rules) :
    key p ∉ known := by
  induction rules generalizing known with
  | nil => cases hp
  | cons q qs ih =>
      obtain ⟨hnot, -, hqs⟩ := h
      rcases List.mem_cons.1 hp with rfl | hp
      · exact hnot
      · exact fun hmem ↦ ih hqs hp (List.mem_cons_of_mem _ hmem)

omit [DecidableEq κ] in
theorem map_source_congr {o : Option κ} (hknown : ∀ k ∈ o, k ∈ known)
    (hagree : ∀ k ∈ known, v k = w k) : o.map v = o.map w := by
  cases o with
  | none => rfl
  | some k => exact congrArg some (hagree k (hknown k rfl))

omit [DecidableEq κ] in
/-- Two solutions that start from the same known values are one. -/
theorem Solves.eq_of_known (h : Ordered key source known rules)
    (hv : Solves key source value rules v) (hw : Solves key source value rules w)
    (hagree : ∀ k ∈ known, v k = w k) (hp : p ∈ rules) : v (key p) = w (key p) := by
  induction rules generalizing known with
  | nil => cases hp
  | cons q qs ih =>
      obtain ⟨-, hsource, hqs⟩ := h
      have hq : v (key q) = w (key q) := by
        rw [hv q List.mem_cons_self, hw q List.mem_cons_self, map_source_congr hsource hagree]
      rcases List.mem_cons.1 hp with rfl | hp
      · exact hq
      · refine ih hqs (fun r hr ↦ hv r (List.mem_cons_of_mem _ hr))
          (fun r hr ↦ hw r (List.mem_cons_of_mem _ hr)) (fun k hk ↦ ?_) hp
        rcases List.mem_cons.1 hk with rfl | hk
        · exact hq
        · exact hagree k hk

theorem solve_of_known (h : Ordered key source known rules) {k : κ} (hk : k ∈ known) :
    solve key source value rules v k = v k := by
  induction rules generalizing known v with
  | nil => rfl
  | cons q qs ih =>
      obtain ⟨hnot, -, hqs⟩ := h
      rw [solve, ih hqs (List.mem_cons_of_mem _ hk)]
      exact Function.update_of_ne (fun heq : k = key q ↦ hnot (heq ▸ hk)) _ _

/-- The values computed one after the other are a solution. -/
theorem solves_solve (h : Ordered key source known rules) :
    Solves key source value rules (solve key source value rules v) := by
  induction rules generalizing known v with
  | nil => exact fun p hp ↦ nomatch hp
  | cons q qs ih =>
      have hall := h
      obtain ⟨hnot, hsource, hqs⟩ := h
      intro p hp
      rcases List.mem_cons.1 hp with rfl | hp
      · have hkept : ∀ k ∈ known, solve key source value (p :: qs) v k = v k :=
          fun k hk ↦ solve_of_known hall hk
        rw [map_source_congr hsource hkept, solve, solve_of_known hqs List.mem_cons_self,
          Function.update_self]
      · exact ih hqs p hp

omit [DecidableEq κ] in
/-- What a rule reads is known or the key of a rule. -/
theorem Ordered.source_mem (h : Ordered key source known rules) (hp : p ∈ rules) {k : κ}
    (hk : k ∈ source p) : k ∈ known ∨ ∃ q ∈ rules, key q = k := by
  induction rules generalizing known with
  | nil => cases hp
  | cons q qs ih =>
      obtain ⟨-, hsource, hqs⟩ := h
      rcases List.mem_cons.1 hp with rfl | hp
      · exact .inl (hsource k hk)
      · rcases ih hqs hp with hk | ⟨r, hr, hrk⟩
        · rcases List.mem_cons.1 hk with rfl | hk
          · exact .inr ⟨q, List.mem_cons_self, rfl⟩
          · exact .inl hk
        · exact .inr ⟨r, List.mem_cons_of_mem _ hr, hrk⟩

omit [DecidableEq κ] in
/-- Two maps that are the same at the keys are the same where the rules read. -/
theorem Ordered.map_source (h : Ordered key source [] rules) (hp : p ∈ rules)
    (hagree : ∀ q ∈ rules, v (key q) = w (key q)) : (source p).map v = (source p).map w := by
  cases hsource : source p with
  | none => rfl
  | some k =>
      obtain hk | ⟨q, hq, rfl⟩ := h.source_mem hp hsource
      · cases hk
      · exact congrArg some (hagree q hq)

omit [DecidableEq κ] in
/-- What solves some rules solves others if and only if they say the same of a solution of these. -/
theorem Solves.iff_agree (h : Ordered key source [] rules)
    (hv : Solves key source value rules v) (hw : Solves key source value' rules w) :
    Solves key source value' rules v ↔
      ∀ p ∈ rules, value p ((source p).map w) = value' p ((source p).map w) := by
  constructor
  · intro hv' p hp
    have hsame : ∀ q ∈ rules, v (key q) = w (key q) :=
      fun q hq ↦ hv'.eq_of_known h hw (fun k hk ↦ nomatch hk) hq
    rw [← h.map_source hp hsame, ← hv p hp, ← hv' p hp]
  · intro hagree p hp
    have hw' : Solves key source value rules w := fun q hq ↦ (hw q hq).trans (hagree q hq).symm
    have hsame : ∀ q ∈ rules, v (key q) = w (key q) :=
      fun q hq ↦ hv.eq_of_known h hw' (fun k hk ↦ nomatch hk) hq
    rw [h.map_source hp hsame, hsame p hp]
    exact hw p hp

end Tidbits.Sequence
