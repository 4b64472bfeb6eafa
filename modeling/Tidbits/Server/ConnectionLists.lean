import Tidbits.Sequence.Links
import Mathlib.Data.Fintype.Card
import Mathlib.Data.List.FinRange

/-!
# The used list and the unused queue of a server

The connection structs of a server are chained through their `next` and `prev`
pointers: those in use in a doubly linked list from the oldest to the newest,
the others, by `next` alone, in a queue.  The functions below are those of
`server.c` on the pointers; an `if(p) p->next = x; else first = x;` of the
source is `setLink`.

`Holds` says which sequences the pointers represent.  The `DASSERT`s are
left out, and so is the count of the used list that only they read.
-/

namespace Tidbits.Server

open Tidbits.Sequence

/-- The pointers of the connection structs, of `struct POServer_connectionList`
and of `struct POServer_connectionQueue`. -/
structure ConnectionLists (α : Type) where
  next : α → Option α
  prev : α → Option α
  first : Option α
  last : Option α
  front : Option α
  back : Option α

namespace ConnectionLists

variable {α : Type} [DecidableEq α]

/-- The zeroed pointers. -/
def empty : ConnectionLists α := ⟨fun _ ↦ none, fun _ ↦ none, none, none, none, none⟩

/-- `unusedPop`: pop a connection from the front of the unused queue. -/
def unusedPop (ls : ConnectionLists α) : Option (α × ConnectionLists α) :=
  ls.front.map fun conn ↦
    (conn,
      { ls with
        front := ls.next conn
        back := if (ls.next conn).isNone then none else ls.back })

/-- `unusedPush`: push a connection to the back of the unused queue. -/
def unusedPush (ls : ConnectionLists α) (conn : α) : ConnectionLists α :=
  let link := setLink (Function.update ls.next conn none) ls.front ls.back (some conn)
  { ls with next := link.1, front := link.2, back := some conn }

/-- `listAddNew`: move the front of the unused queue to the end of the used list. -/
def listAddNew (ls : ConnectionLists α) : Option (α × ConnectionLists α) :=
  ls.unusedPop.map fun (conn, ls) ↦
    let link := setLink ls.next ls.first ls.last (some conn)
    (conn,
      { ls with
        next := Function.update link.1 conn none
        prev := Function.update ls.prev conn ls.last
        first := link.2
        last := some conn })

/-- `listRemove`: remove from the used list and push to the unused queue. -/
def listRemove (ls : ConnectionLists α) (conn : α) : ConnectionLists α :=
  let back := setLink ls.prev ls.last (ls.next conn) (ls.prev conn)
  let forth := setLink ls.next ls.first (back.1 conn) (ls.next conn)
  { ls with next := forth.1, prev := back.1, first := forth.2, last := back.2 }.unusedPush conn

/-- The used list, as the debug loop of `listRemove` walks it. -/
def usedWalk [Fintype α] (ls : ConnectionLists α) : List α :=
  follow ls.next (Fintype.card α) ls.first

/-! ## The sequences they represent -/

/-- The pointers represent the used list and the unused queue. -/
structure Holds (ls : ConnectionLists α) (used unused : List α) : Prop where
  linked : Linked ls.next ls.prev ls.first ls.last used
  queue : Path ls.next ls.front unused none
  back : ls.back = unused.getLast?
  nodup : (used ++ unused).Nodup

variable {ls ls' : ConnectionLists α} {used unused : List α} {conn : α}

omit [DecidableEq α] in
theorem holds_empty : (empty : ConnectionLists α).Holds [] [] where
  linked := ⟨rfl, rfl, List.nodup_nil⟩
  queue := rfl
  back := rfl
  nodup := List.nodup_nil

namespace Holds

omit [DecidableEq α] in
theorem first_eq (h : ls.Holds used unused) : ls.first = used.head? := h.linked.forward.head_eq

omit [DecidableEq α] in
theorem front_eq (h : ls.Holds used unused) : ls.front = unused.head? := h.queue.head_eq

omit [DecidableEq α] in
theorem usedWalk_eq [Fintype α] (h : ls.Holds used unused) : ls.usedWalk = used :=
  follow_eq h.linked.forward (List.nodup_append.mp h.nodup).1.length_le_card

theorem unusedPush (h : ls.Holds used unused) (hused : conn ∉ used) (hunused : conn ∉ unused) :
    (ls.unusedPush conn).Holds used (unused ++ [conn]) := by
  have hback : ls.back ≠ some conn := by
    rw [h.back]
    exact fun hlast ↦ hunused (List.mem_of_getLast? hlast)
  have hkeep : ∀ x ∉ unused, x ≠ conn → (ls.unusedPush conn).next x = ls.next x := by
    intro x hx hne
    have hlast : ls.back ≠ some x := by
      rw [h.back]
      exact fun hlast ↦ hx (List.mem_of_getLast? hlast)
    exact (setLink_apply hlast).trans (Function.update_of_ne hne none ls.next)
  refine ⟨h.linked.congr (fun x hx ↦ hkeep x ?_ ?_) fun _ _ ↦ rfl, ?_, ?_, ?_⟩
  · exact fun hmem ↦ (List.nodup_append.mp h.nodup).2.2 x hx x hmem rfl
  · rintro rfl
    exact hused hx
  · have hqueue : Path (Function.update ls.next conn none) ls.front unused none := by
      refine h.queue.congr fun x hx ↦ ?_
      have hne : x ≠ conn := by
        rintro rfl
        exact hunused hx
      exact Function.update_of_ne hne none ls.next
    refine path_concat.mpr ⟨?_, ?_⟩
    · have hlink := hqueue.setLink (List.nodup_append.mp h.nodup).2.1 (some conn)
      rwa [← h.back] at hlink
    · exact (setLink_apply hback).trans (Function.update_self conn none ls.next)
  · exact (List.getLast?_concat).symm
  · rw [← List.append_assoc]
    refine List.nodup_append.mpr ⟨h.nodup, List.nodup_singleton conn, ?_⟩
    rintro x hx y hy rfl
    rw [List.mem_singleton.mp hy] at hx
    exact (List.mem_append.mp hx).elim hused hunused

theorem listAddNew (h : ls.Holds used (conn :: unused)) :
    ∃ ls', ls.listAddNew = some (conn, ls') ∧ ls'.Holds (used ++ [conn]) unused := by
  have hfront : ls.front = some conn := h.front_eq
  obtain ⟨hnused, hnunused, hdisj⟩ := List.nodup_append.mp h.nodup
  obtain ⟨hconn, hnrest⟩ := List.nodup_cons.mp hnunused
  have hnot : conn ∉ used := fun hmem ↦ hdisj conn hmem conn List.mem_cons_self rfl
  refine ⟨_, by rw [ConnectionLists.listAddNew, unusedPop, hfront]; rfl, ?_⟩
  refine ⟨h.linked.concat hnot, ?_, ?_, ?_⟩
  · refine h.queue.2.congr fun x hx ↦ ?_
    have hne : x ≠ conn := by
      rintro rfl
      exact hconn hx
    have hlast : ls.last ≠ some x := by
      rw [h.linked.last_eq]
      exact fun hlast ↦ hdisj x (List.mem_of_getLast? hlast) x (List.mem_cons_of_mem _ hx) rfl
    exact (Function.update_of_ne hne none _).trans (setLink_apply hlast)
  · have hnext := h.queue.2.head_eq
    have hback := h.back
    cases unused with
    | nil => simp [hnext]
    | cons x l => simpa [hnext, List.getLast?_cons_cons] using hback
  · rw [List.append_assoc]
    exact h.nodup

theorem listRemove {used₁ used₂ : List α} (h : ls.Holds (used₁ ++ conn :: used₂) unused) :
    (ls.listRemove conn).Holds (used₁ ++ used₂) (unused ++ [conn]) := by
  obtain ⟨hnused, hnunused, hdisj⟩ := List.nodup_append.mp h.nodup
  obtain ⟨hn₁, hn₂, hd⟩ := List.nodup_append.mp hnused
  obtain ⟨hconn₂, hn₂⟩ := List.nodup_cons.mp hn₂
  have hconn₁ : conn ∉ used₁ := fun hmem ↦ hd conn hmem conn List.mem_cons_self rfl
  have hnext : ls.next conn ≠ some conn := by
    rw [h.linked.forward.next_eq]
    exact fun hhead ↦ hconn₂ (List.mem_of_head? hhead)
  have hprev : (setLink ls.prev ls.last (ls.next conn) (ls.prev conn)).1 conn = ls.prev conn :=
    setLink_apply hnext
  have hkeep : ∀ x ∈ unused,
      (setLink ls.next ls.first (ls.prev conn) (ls.next conn)).1 x = ls.next x := by
    intro x hx
    refine setLink_apply fun hlast ↦ ?_
    rw [h.linked.prev_eq] at hlast
    exact hdisj x (List.mem_append_left _ (List.mem_of_getLast? hlast)) x hx rfl
  have hsub : (used₁ ++ used₂).Sublist (used₁ ++ conn :: used₂) :=
    (List.Sublist.refl used₁).append (List.sublist_cons_self conn used₂)
  unfold ConnectionLists.listRemove
  simp only [hprev]
  refine unusedPush ⟨h.linked.remove, h.queue.congr hkeep, h.back, ?_⟩ ?_ ?_
  · exact h.nodup.sublist (hsub.append (List.Sublist.refl unused))
  · exact fun hmem ↦ (List.mem_append.mp hmem).elim hconn₁ hconn₂
  · exact fun hmem ↦ hdisj conn (List.mem_append_right _ List.mem_cons_self) conn hmem rfl

end Holds

/-- `poServer_create`: every connection struct is pushed to the unused queue. -/
def create (n : ℕ) : ConnectionLists (Fin n) := (List.finRange n).foldl unusedPush empty

theorem holds_create (n : ℕ) : (create n).Holds [] (List.finRange n) := by
  have hfold : ∀ (l unused : List (Fin n)) (ls : ConnectionLists (Fin n)),
      ls.Holds [] unused → (unused ++ l).Nodup → (l.foldl ConnectionLists.unusedPush ls).Holds []
        (unused ++ l) := by
    intro l
    induction l with
    | nil =>
        intro unused ls h _
        simpa using h
    | cons x l ih =>
        intro unused ls h hnodup
        have hx : x ∉ unused := fun hmem ↦
          (List.nodup_append.mp hnodup).2.2 x hmem x List.mem_cons_self rfl
        have hpush := h.unusedPush List.not_mem_nil hx
        simpa using ih (unused ++ [x]) _ hpush (by simpa using hnodup)
  have hnodup : ([] ++ List.finRange n).Nodup := by
    rw [List.nil_append]
    exact List.nodup_finRange n
  have h := hfold (List.finRange n) [] _ holds_empty hnodup
  rwa [List.nil_append] at h

end ConnectionLists

end Tidbits.Server
