import Mathlib.Algebra.BigOperators.Group.List.Basic
import Mathlib.Algebra.GroupWithZero.Nat
import Mathlib.Data.List.Nodup

/-!
# Tables in the order of insertion

A table maps keys to values and keeps the order in which the keys came.  An
assignment to a key that is there keeps its place.
-/

namespace Tidbits.Sequence

structure Table (κ ν : Type*) where
  entries : List (κ × ν)
  nodup : (entries.map Prod.fst).Nodup

namespace Table

variable {κ ν : Type*} [DecidableEq κ]

/-- The value of the first entry of a key. -/
def find (k : κ) : List (κ × ν) → Option ν
  | [] => none
  | e :: l => if e.1 = k then some e.2 else find k l

/-- The entries with one of them changed, or with a new one at the end. -/
def assign (k : κ) (v : ν) : List (κ × ν) → List (κ × ν)
  | [] => [(k, v)]
  | e :: l => if e.1 = k then (k, v) :: l else e :: assign k v l

variable {k k' : κ} {v : ν} {l : List (κ × ν)}

theorem mem_keys_assign : k' ∈ (assign k v l).map Prod.fst → k' = k ∨ k' ∈ l.map Prod.fst := by
  induction l with
  | nil => simp [assign]
  | cons e l ih =>
      rw [assign]
      split_ifs with he
      · exact fun h ↦ (List.mem_cons.1 h).imp_right (List.mem_cons_of_mem _)
      · intro h
        rcases List.mem_cons.1 h with h | h
        · exact .inr (List.mem_cons.2 (.inl h))
        · exact (ih h).imp_right (List.mem_cons_of_mem _)

theorem nodup_assign (h : (l.map Prod.fst).Nodup) : ((assign k v l).map Prod.fst).Nodup := by
  induction l with
  | nil => exact List.nodup_singleton k
  | cons e l ih =>
      obtain ⟨hnot, hl⟩ := List.nodup_cons.1 h
      rw [assign]
      split_ifs with he
      · exact List.nodup_cons.2 ⟨he ▸ hnot, hl⟩
      · refine List.nodup_cons.2 ⟨fun hmem ↦ ?_, ih hl⟩
        exact (mem_keys_assign hmem).elim he hnot

theorem find_assign_self : find k (assign k v l) = some v := by
  induction l with
  | nil => exact if_pos rfl
  | cons e l ih =>
      rw [assign]
      split_ifs with he
      · exact if_pos rfl
      · rw [find, if_neg he, ih]

theorem find_assign_of_ne (h : k' ≠ k) : find k' (assign k v l) = find k' l := by
  induction l with
  | nil => exact if_neg h.symm
  | cons e l ih =>
      rw [assign]
      split_ifs with he
      · rw [find, find, if_neg h.symm, if_neg fun hk ↦ h (hk.symm.trans he)]
      · rw [find, find, ih]

theorem find_map (f : κ → ν → ν) :
    find k (l.map fun e ↦ (e.1, f e.1 e.2)) = (find k l).map (f k) := by
  induction l with
  | nil => rfl
  | cons e l ih =>
      rw [List.map_cons, find, find]
      split_ifs with he
      · rw [← he]
        rfl
      · exact ih

theorem find_eq_some_iff (h : (l.map Prod.fst).Nodup) : find k l = some v ↔ (k, v) ∈ l := by
  induction l with
  | nil => exact iff_of_false nofun List.not_mem_nil
  | cons e l ih =>
      obtain ⟨hnot, hl⟩ := List.nodup_cons.1 h
      rw [find, List.mem_cons]
      split_ifs with he
      · have hrest : (k, v) ∉ l := fun hmem ↦ hnot (he ▸ List.mem_map_of_mem hmem)
        rw [or_iff_left hrest, ← he, Option.some_inj]
        exact ⟨fun hv ↦ hv ▸ rfl, fun hv ↦ (congrArg Prod.snd hv).symm⟩
      · rw [ih hl, or_iff_right fun heq ↦ he (congrArg Prod.fst heq).symm]

/-- There is at most one entry of a key. -/
theorem filterMap_eq_toList_find (h : (l.map Prod.fst).Nodup) :
    (l.filterMap fun e ↦ if e.1 = k then some e.2 else none) = (find k l).toList := by
  induction l with
  | nil => rfl
  | cons e l ih =>
      obtain ⟨hnot, hl⟩ := List.nodup_cons.1 h
      rw [List.filterMap_cons, find]
      split_ifs with he
      · have hnone : find k l = none := by
          refine Option.eq_none_iff_forall_ne_some.2 fun v hv ↦ hnot ?_
          exact he ▸ List.mem_map_of_mem ((find_eq_some_iff hl).1 hv)
        simp only [ih hl, hnone, Option.toList_none, Option.toList_some]
      · exact ih hl

variable (t : Table κ ν)

def get (k : κ) : Option ν := find k t.entries

def set (k : κ) (v : ν) : Table κ ν := ⟨assign k v t.entries, nodup_assign t.nodup⟩

omit [DecidableEq κ] in
/-- Every value changed by a function of it and its key. -/
def mapValues (f : κ → ν → ν) : Table κ ν where
  entries := t.entries.map fun e ↦ (e.1, f e.1 e.2)
  nodup := by rw [List.map_map]; exact t.nodup

/-- The value of one key changed by a function. -/
def modify (k : κ) (f : ν → ν) : Table κ ν := t.mapValues fun k' v ↦ if k' = k then f v else v

theorem mem_entries_iff : (k, v) ∈ t.entries ↔ t.get k = some v :=
  (find_eq_some_iff t.nodup).symm

@[simp] theorem get_set_self : (t.set k v).get k = some v := find_assign_self

theorem get_set_of_ne (h : k' ≠ k) : (t.set k v).get k' = t.get k' := find_assign_of_ne h

@[simp] theorem get_mapValues (f : κ → ν → ν) : (t.mapValues f).get k = (t.get k).map (f k) :=
  find_map f

@[simp] theorem get_modify_self (f : ν → ν) : (t.modify k f).get k = (t.get k).map f := by
  simp only [modify, get_mapValues, if_true]

theorem get_modify_of_ne (f : ν → ν) (h : k' ≠ k) : (t.modify k f).get k' = t.get k' := by
  simp only [modify, get_mapValues, if_neg h, Option.map_id']

end Table

/-! ## The last assignment -/

section Last

variable {σ τ β ν : Type*} {step : σ → τ → σ} {value : τ → Option β} {s : σ}

/-- Steps that give a value to an entry or leave it alone, each value in the place of the one
before, leave the last value in it. -/
theorem get_foldl (get : σ → Option ν) (give : β → ν → ν) (inv : σ → Prop)
    (hinv : ∀ s t, inv s → inv (step s t))
    (hstep : ∀ s t, inv s → get (step s t) = (get s).map fun v ↦ (value t).elim v (give · v))
    (hgive : ∀ a b v, give b (give a v) = give b v) (hs : inv s) (ts : List τ) :
    get (ts.foldl step s) =
      (get s).map fun v ↦ (ts.filterMap value).getLast?.elim v (give · v) := by
  induction ts generalizing s with
  | nil => exact Option.map_id'.symm
  | cons t ts ih =>
      rw [List.foldl_cons, ih (hinv s t hs), hstep s t hs, Option.map_map]
      refine congrFun (congrArg Option.map (funext fun v ↦ ?_)) _
      cases ht : value t with
      | none => rw [List.filterMap_cons_none ht]; rfl
      | some a =>
          rw [List.filterMap_cons_some ht, List.getLast?_cons]
          cases (ts.filterMap value).getLast? with
          | none => rfl
          | some b => exact hgive a b v

end Last

/-! ## Sums -/

/-- Entries with different keys weigh no more than what has a part of its own for each of them. -/
theorem sum_le_sum_of_keys {α β κ : Type*} {f : α → ℕ} {g : β → ℕ} {l : List α} {ts : List β}
    (key : α → κ) (part : κ → β → Prop) (hpart : ∀ k k' b, part k b → part k' b → k = k')
    (hl : (l.map key).Nodup) (h : ∀ a ∈ l, ∃ b ∈ ts, part (key a) b ∧ f a ≤ g b) :
    (l.map f).sum ≤ (ts.map g).sum := by
  induction l generalizing ts with
  | nil => exact Nat.zero_le _
  | cons a l ih =>
      obtain ⟨hnot, hl⟩ := List.nodup_cons.1 hl
      obtain ⟨⟨b, hb, hkey, hle⟩, hrest⟩ := List.forall_mem_cons.1 h
      obtain ⟨ts₁, ts₂, rfl⟩ := List.append_of_mem hb
      have hothers : ∀ a' ∈ l, ∃ b' ∈ ts₁ ++ ts₂, part (key a') b' ∧ f a' ≤ g b' := by
        intro a' ha'
        obtain ⟨b', hb', hkey', hle'⟩ := hrest a' ha'
        have hne : b' ≠ b := by
          rintro rfl
          exact hnot (hpart _ _ _ hkey' hkey ▸ List.mem_map_of_mem ha')
        refine ⟨b', ?_, hkey', hle'⟩
        simpa [hne] using hb'
      have hsum := ih hl hothers
      simp only [List.map_cons, List.map_append, List.sum_cons, List.sum_append] at hsum ⊢
      omega

end Tidbits.Sequence
