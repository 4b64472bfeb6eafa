import Mathlib.Data.List.Nodup
import Mathlib.Logic.Function.Basic

/-!
# Linked lists as sequences

Nodes of a type `α` are chained by a table `next : α → Option α`.
`Path next a l b` says that following `next` from the pointer `a` visits the
nodes of `l` in order and arrives at the pointer `b`; a list that ends with
`NULL` is a path to `none`.

Every change of a linked list is a change of one pointer, either of a node's
link or, where there is no such node, of the pointer to the first node.  That is
`setLink`, with one law: it moves the end of a path (`Path.setLink`).  The
operations of singly and doubly linked lists are compositions of it.
-/

universe u

namespace Tidbits.Sequence

variable {α : Type u}

/-- Following `next` from `a` visits the nodes `l` and arrives at `b`. -/
def Path (next : α → Option α) : Option α → List α → Option α → Prop
  | a, [], b => a = b
  | a, x :: l, b => a = some x ∧ Path next (next x) l b

variable {next next' : α → Option α} {a b : Option α} {l l₁ l₂ : List α} {x : α}

@[simp] theorem path_nil : Path next a [] b ↔ a = b := Iff.rfl

@[simp] theorem path_cons : Path next a (x :: l) b ↔ a = some x ∧ Path next (next x) l b := Iff.rfl

theorem path_append : Path next a (l₁ ++ l₂) b ↔ ∃ m, Path next a l₁ m ∧ Path next m l₂ b := by
  induction l₁ generalizing a with
  | nil => simp
  | cons y l₁ ih => simp [ih, and_assoc]

theorem path_concat : Path next a (l ++ [x]) b ↔ Path next a l (some x) ∧ next x = b := by
  rw [path_append]
  constructor
  · rintro ⟨m, h, rfl, hx⟩
    exact ⟨h, hx⟩
  · rintro ⟨h, hx⟩
    exact ⟨some x, h, rfl, hx⟩

namespace Path

/-- A path depends on the links of its nodes only. -/
theorem congr (h : Path next a l b) (heq : ∀ x ∈ l, next' x = next x) : Path next' a l b := by
  induction l generalizing a with
  | nil => exact h
  | cons y l ih =>
      refine ⟨h.1, ?_⟩
      rw [heq y List.mem_cons_self]
      exact ih h.2 fun x hx ↦ heq x (List.mem_cons_of_mem _ hx)

/-- The pointer to the first node. -/
theorem head_eq (h : Path next a l none) : a = l.head? := by
  cases l with
  | nil => exact h
  | cons x l => exact h.1

/-- A table of the successors in a list. -/
theorem of_next_eq (h : ∀ l₁ x l₂, l = l₁ ++ x :: l₂ → next x = l₂.head?) :
    Path next l.head? l none := by
  induction l with
  | nil => rfl
  | cons x l ih =>
      refine ⟨rfl, ?_⟩
      rw [h [] x l rfl]
      exact ih fun l₁ y l₂ heq ↦ h (x :: l₁) y l₂ (congrArg (List.cons x) heq)

/-- The pointer out of a node. -/
theorem next_eq (h : Path next a (l₁ ++ x :: l₂) none) : next x = l₂.head? := by
  obtain ⟨m, -, -, h₂⟩ := path_append.mp h
  exact head_eq h₂

end Path

/-- The nodes met by following `next` from `a` for at most `n` steps. -/
def follow (next : α → Option α) : ℕ → Option α → List α
  | n + 1, some x => x :: follow next n (next x)
  | _, _ => []

/-- Following a list to its end visits its nodes. -/
theorem follow_eq {n : ℕ} (h : Path next a l none) (hn : l.length ≤ n) : follow next n a = l := by
  induction l generalizing a n with
  | nil =>
      cases h
      cases n <;> rfl
  | cons x l ih =>
      cases n with
      | zero => exact absurd hn (Nat.not_succ_le_zero _)
      | succ n =>
          rw [h.1, follow, ih h.2 (Nat.le_of_succ_le_succ hn)]

variable [DecidableEq α]

/-- Set the link of the node `p`, or the pointer `first` when there is none:
`if(p) p->next = x; else first = x;`. -/
def setLink (next : α → Option α) (first p x : Option α) : (α → Option α) × Option α :=
  match p with
  | some y => (Function.update next y x, first)
  | none => (next, x)

theorem setLink_apply {first p x' : Option α} {y : α} (h : p ≠ some y) :
    (setLink next first p x').1 y = next y := by
  cases p with
  | none => rfl
  | some z =>
      have hne : y ≠ z := by
        rintro rfl
        exact h rfl
      exact Function.update_of_ne hne _ _

/-- A link depends on its node only. -/
theorem setLink_congr {first p x' : Option α} {y : α} (h : next' y = next y) :
    (setLink next' first p x').1 y = (setLink next first p x').1 y := by
  cases p with
  | none => exact h
  | some z =>
      by_cases hne : y = z
      · subst hne
        exact (Function.update_self y x' next').trans (Function.update_self y x' next).symm
      · exact (Function.update_of_ne hne _ _).trans (h.trans (Function.update_of_ne hne _ _).symm)

theorem setLink_snd (next next' : α → Option α) (first p x' : Option α) :
    (setLink next' first p x').2 = (setLink next first p x').2 := by
  cases p <;> rfl

namespace Path

/-- Setting the last link of a path moves its end. -/
theorem setLink (h : Path next a l b) (hl : l.Nodup) (x : Option α) :
    Path (setLink next a l.getLast? x).1 (setLink next a l.getLast? x).2 l x := by
  rcases List.eq_nil_or_concat l with rfl | ⟨l', y, rfl⟩
  · rfl
  · rw [List.concat_eq_append] at h hl ⊢
    rw [List.getLast?_concat]
    have hy : y ∉ l' := fun hmem ↦
      (List.nodup_append.mp hl).2.2 y hmem y List.mem_cons_self rfl
    refine path_concat.mpr ⟨(path_concat.mp h).1.congr fun z hz ↦ ?_, ?_⟩
    · have hne : z ≠ y := by
        rintro rfl
        exact hy hz
      exact Function.update_of_ne hne x next
    · exact Function.update_self y x next

/-- Appending a node. -/
theorem concat (h : Path next a l none) (hl : l.Nodup) (hx : x ∉ l) :
    Path (Function.update (Sequence.setLink next a l.getLast? (some x)).1 x none)
      (Sequence.setLink next a l.getLast? (some x)).2 (l ++ [x]) none := by
  refine path_concat.mpr ⟨(h.setLink hl (some x)).congr fun y hy ↦ ?_, ?_⟩
  · have hne : y ≠ x := by
      rintro rfl
      exact hx hy
    simp [hne]
  · simp

/-- Removing a node. -/
theorem remove (h : Path next a (l₁ ++ x :: l₂) b) (hl : (l₁ ++ x :: l₂).Nodup) :
    Path (Sequence.setLink next a l₁.getLast? (next x)).1
      (Sequence.setLink next a l₁.getLast? (next x)).2 (l₁ ++ l₂) b := by
  obtain ⟨m, h₁, -, h₂⟩ := path_append.mp h
  obtain ⟨hl₁, hl₂, hdisj⟩ := List.nodup_append.mp hl
  refine path_append.mpr ⟨next x, h₁.setLink hl₁ (next x), h₂.congr fun y hy ↦ ?_⟩
  refine setLink_apply fun hlast ↦ ?_
  exact hdisj y (List.mem_of_getLast? hlast) y (List.mem_cons_of_mem _ hy) rfl

end Path

/-- A doubly linked list: `next` from `first` and `prev` from `last` visit the
same nodes in opposite orders. -/
structure Linked (next prev : α → Option α) (first last : Option α) (l : List α) : Prop where
  forward : Path next first l none
  backward : Path prev last l.reverse none
  nodup : l.Nodup

namespace Linked

variable {prev prev' : α → Option α} {first last : Option α}

omit [DecidableEq α] in
theorem congr (h : Linked next prev first last l) (hnext : ∀ x ∈ l, next' x = next x)
    (hprev : ∀ x ∈ l, prev' x = prev x) : Linked next' prev' first last l :=
  ⟨h.forward.congr hnext, h.backward.congr fun x hx ↦ hprev x (List.mem_reverse.mp hx), h.nodup⟩

omit [DecidableEq α] in
theorem last_eq (h : Linked next prev first last l) : last = l.getLast? := by
  rw [h.backward.head_eq, List.head?_reverse]

omit [DecidableEq α] in
theorem prev_eq (h : Linked next prev first last (l₁ ++ x :: l₂)) : prev x = l₁.getLast? := by
  have hback := h.backward
  rw [List.reverse_append, List.reverse_cons, List.append_assoc, List.singleton_append] at hback
  rw [hback.next_eq, List.head?_reverse]

omit [DecidableEq α] in
/-- Seen from its other end. -/
theorem symm (h : Linked next prev first last l) : Linked prev next last first l.reverse :=
  ⟨h.backward, by rw [List.reverse_reverse]; exact h.forward, List.nodup_reverse.mpr h.nodup⟩

omit [DecidableEq α] in
/-- Tables of the successors and the predecessors in a list. -/
theorem of_eq (hl : l.Nodup) (hnext : ∀ l₁ x l₂, l = l₁ ++ x :: l₂ → next x = l₂.head?)
    (hprev : ∀ l₁ x l₂, l = l₁ ++ x :: l₂ → prev x = l₁.getLast?) :
    Linked next prev l.head? l.getLast? l where
  forward := .of_next_eq hnext
  backward := by
    rw [← List.head?_reverse]
    refine .of_next_eq fun l₁ x l₂ heq ↦ ?_
    have hl : l = l₂.reverse ++ x :: l₁.reverse := by
      rw [← List.reverse_reverse l, heq, List.reverse_append, List.reverse_cons,
        List.append_assoc, List.singleton_append]
    rw [hprev _ x _ hl, List.getLast?_reverse]
  nodup := hl

/-- Appending a node. -/
theorem concat (h : Linked next prev first last l) (hx : x ∉ l) :
    Linked (Function.update (setLink next first last (some x)).1 x none)
      (Function.update prev x last) (setLink next first last (some x)).2 (some x) (l ++ [x]) where
  forward := by
    rw [h.last_eq]
    exact h.forward.concat h.nodup hx
  backward := by
    rw [List.reverse_append]
    refine ⟨rfl, ?_⟩
    rw [Function.update_self]
    refine h.backward.congr fun y hy ↦ ?_
    have hne : y ≠ x := by
      rintro rfl
      exact hx (List.mem_reverse.mp hy)
    exact Function.update_of_ne hne last prev
  nodup := by
    rw [List.nodup_append]
    refine ⟨h.nodup, List.nodup_singleton x, ?_⟩
    rintro y hy z hz rfl
    exact hx (List.mem_singleton.mp hz ▸ hy)

/-- Removing a node. -/
theorem remove (h : Linked next prev first last (l₁ ++ x :: l₂)) :
    Linked (setLink next first (prev x) (next x)).1 (setLink prev last (next x) (prev x)).1
      (setLink next first (prev x) (next x)).2 (setLink prev last (next x) (prev x)).2
      (l₁ ++ l₂) where
  forward := by
    have hrem := h.forward.remove h.nodup
    rwa [← h.prev_eq] at hrem
  backward := by
    have hback := h.backward
    have hnodup := List.nodup_reverse.mpr h.nodup
    rw [List.reverse_append, List.reverse_cons, List.append_assoc, List.singleton_append]
      at hback hnodup
    have hrem := hback.remove hnodup
    rw [List.getLast?_reverse, ← h.forward.next_eq, ← List.reverse_append] at hrem
    exact hrem
  nodup := by
    have hsub : (l₁ ++ l₂).Sublist (l₁ ++ x :: l₂) :=
      (List.Sublist.refl l₁).append (List.sublist_cons_self x l₂)
    exact h.nodup.sublist hsub

/-- Adding a node in front. -/
theorem cons (h : Linked next prev first last l) (hx : x ∉ l) :
    Linked (Function.update next x first)
      (Function.update (setLink prev last first (some x)).1 x none) (some x)
      (setLink prev last first (some x)).2 (x :: l) := by
  have hconcat := (h.symm.concat (x := x) (fun hmem ↦ hx (List.mem_reverse.mp hmem))).symm
  rwa [List.reverse_append, List.reverse_reverse, List.reverse_singleton] at hconcat

/-- Removing the last node. -/
theorem dropLast (h : Linked next prev first last (l ++ [x])) :
    Linked (setLink next first (prev x) none).1 prev (setLink next first (prev x) none).2
      (prev x) l := by
  have hnext : next x = none := h.forward.next_eq
  have hremove := h.remove
  rwa [hnext, List.append_nil] at hremove

/-- Removing the first node. -/
theorem tail (h : Linked next prev first last (x :: l)) :
    Linked next (setLink prev last (next x) none).1 (next x)
      (setLink prev last (next x) none).2 l := by
  have hsymm := h.symm
  rw [List.reverse_cons] at hsymm
  have hdrop := hsymm.dropLast.symm
  rwa [List.reverse_reverse] at hdrop

end Linked

end Tidbits.Sequence
