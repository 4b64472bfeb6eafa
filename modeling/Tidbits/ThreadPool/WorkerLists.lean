import Tidbits.Sequence.Links
import Tidbits.ThreadPool.Pool
import Tidbits.Transition.Calls

/-!
# The worker lists of the thread pool

A `struct POThreadPool_workerList` is a doubly linked list through the `next` and
`prev` pointers of the workers, which all lists share.  The functions below are
those of `threadPool.c` on the pointers.  `Pool` has sequences in their place, with
operations of the same names, and those are what the pointers amount to:
`WorkerLists.simulates_deques`.

The caller of `listPush` has to know that the worker is in no list.  The `DASSERT`s
are left out, and so is the length that only they read.
-/

namespace Tidbits.ThreadPool

open Tidbits.Sequence Tidbits.Transition

/-- The pointers of the workers `α`, and of the lists `ι`. -/
structure WorkerLists (ι α : Type) where
  next : α → Option α
  prev : α → Option α
  top : ι → Option α
  bottom : ι → Option α

/-- The calls of the list functions. -/
inductive ListCall (ι α : Type)
  | listPush (i : ι) (w : α)
  | listPop (i : ι)
  | listPull (i : ι)
deriving DecidableEq, Repr

namespace WorkerLists

variable {ι α : Type} [DecidableEq ι] [DecidableEq α]

/-- `listPush`. -/
def listPush (s : WorkerLists ι α) (i : ι) (w : α) : WorkerLists ι α :=
  match s.top i with
  | none =>
      { next := Function.update s.next w none
        prev := Function.update s.prev w none
        top := Function.update s.top i (some w)
        bottom := Function.update s.bottom i (some w) }
  | some top =>
      { s with
        next := Function.update s.next w (some top)
        prev := Function.update (Function.update s.prev top (some w)) w none
        top := Function.update s.top i (some w) }

/-- `listPull`: the worker removed from the bottom, if any. -/
def listPull (s : WorkerLists ι α) (i : ι) : Option α × WorkerLists ι α :=
  match s.top i, s.bottom i with
  | some _, some w =>
      let link := setLink s.next (s.top i) (s.prev w) none
      (some w,
        { s with
          next := link.1
          top := Function.update s.top i link.2
          bottom := Function.update s.bottom i (s.prev w) })
  | _, _ => (none, s)

/-- `listPop`: the worker removed from the top, if any. -/
def listPop (s : WorkerLists ι α) (i : ι) : Option α × WorkerLists ι α :=
  match s.top i with
  | some w =>
      let link := setLink s.prev (s.bottom i) (s.next w) none
      (some w,
        { s with
          prev := link.1
          top := Function.update s.top i (s.next w)
          bottom := Function.update s.bottom i link.2 })
  | none => (none, s)

/-- A call of a list function. -/
def call (s : WorkerLists ι α) : ListCall ι α → Option α × WorkerLists ι α
  | .listPush i w => (none, s.listPush i w)
  | .listPop i => s.listPop i
  | .listPull i => s.listPull i

end WorkerLists

/-! ## Sequences with two ends -/

namespace Deques

variable {ι α : Type} [DecidableEq ι]

/-- A call of a list function, on the sequences that the lists stand for. -/
def call (l : ι → List α) : ListCall ι α → Option α × (ι → List α)
  | .listPush i w => (none, Function.update l i (listPush (l i) w))
  | .listPop i =>
      match listPop (l i) with
      | some r => (some r.1, Function.update l i r.2)
      | none => (none, l)
  | .listPull i =>
      match listPull (l i) with
      | some r => (some r.1, Function.update l i r.2)
      | none => (none, l)

/-- A worker that is pushed is in no list. -/
def PushesNew (l : ι → List α) : ListCall ι α → Prop
  | .listPush _ w => ∀ i, w ∉ l i
  | _ => True

end Deques

/-! ## What the pointers stand for -/

namespace WorkerLists

variable {ι α : Type}

/-- The pointers of each list run through its workers in both directions, and no worker is in two
lists. -/
structure Represents (s : WorkerLists ι α) (l : ι → List α) : Prop where
  linked : ∀ i, Linked s.next s.prev (s.top i) (s.bottom i) (l i)
  disjoint : ∀ {i j w}, w ∈ l i → w ∈ l j → i = j

namespace Represents

variable {s : WorkerLists ι α} {l : ι → List α} {i : ι} {w : α}

/-- `NULL` if and only if the list is empty. -/
theorem top_eq (h : s.Represents l) (i : ι) : s.top i = (l i).head? := (h.linked i).forward.head_eq

theorem bottom_eq (h : s.Represents l) (i : ι) : s.bottom i = (l i).getLast? :=
  (h.linked i).last_eq

theorem empty (h : ∀ i, s.top i = none ∧ s.bottom i = none) : s.Represents fun _ ↦ [] where
  linked i := ⟨(h i).1, (h i).2, List.nodup_nil⟩
  disjoint hw := absurd hw List.not_mem_nil

variable [DecidableEq ι] [DecidableEq α]

omit [DecidableEq α] in
/-- One list changes, and only the pointers of its workers. -/
theorem update (h : s.Represents l) {s' : WorkerLists ι α} {m : List α} {top bottom : Option α}
    (htop : s'.top = Function.update s.top i top)
    (hbottom : s'.bottom = Function.update s.bottom i bottom)
    (hlinked : Linked s'.next s'.prev top bottom m)
    (hnew : ∀ {w j}, w ∈ m → w ∈ l j → i = j)
    (hkeep : ∀ {w j}, j ≠ i → w ∈ l j → s'.next w = s.next w ∧ s'.prev w = s.prev w) :
    s'.Represents (Function.update l i m) where
  linked j := by
    rw [htop, hbottom]
    by_cases hj : j = i
    · subst hj
      simpa using hlinked
    · simpa [hj] using (h.linked j).congr (fun w hw ↦ (hkeep hj hw).1) fun w hw ↦ (hkeep hj hw).2
  disjoint {j k w} hwj hwk := by
    by_cases hj : j = i
    · subst hj
      by_cases hk : k = j
      · exact hk.symm
      · rw [Function.update_self] at hwj
        rw [Function.update_of_ne hk] at hwk
        exact hnew hwj hwk
    · rw [Function.update_of_ne hj] at hwj
      by_cases hk : k = i
      · subst hk
        rw [Function.update_self] at hwk
        exact (hnew hwk hwj).symm
      · rw [Function.update_of_ne hk] at hwk
        exact h.disjoint hwj hwk

theorem listPush (h : s.Represents l) (hw : ∀ j, w ∉ l j) :
    (s.listPush i w).Represents (Function.update l i (w :: l i)) := by
  have hcons := (h.linked i).cons (hw i)
  have hnew : ∀ {v j}, v ∈ w :: l i → v ∈ l j → i = j := by
    intro v j hv hvj
    rcases List.mem_cons.mp hv with rfl | hv
    · exact absurd hvj (hw j)
    · exact h.disjoint hv hvj
  have hne : ∀ {v j}, v ∈ l j → v ≠ w := by
    rintro v j hv rfl
    exact hw j hv
  unfold WorkerLists.listPush
  cases htop : s.top i with
  | none =>
      rw [htop] at hcons
      exact h.update rfl rfl hcons hnew fun _ hv ↦
        ⟨Function.update_of_ne (hne hv) _ _, Function.update_of_ne (hne hv) _ _⟩
  | some top =>
      rw [htop] at hcons
      have hmem : top ∈ l i := List.mem_of_head? ((h.top_eq i).symm.trans htop)
      refine h.update rfl (Function.update_eq_self i s.bottom).symm hcons hnew ?_
      intro v j hj hv
      have hvtop : v ≠ top := by
        rintro rfl
        exact hj (h.disjoint hv hmem)
      exact ⟨Function.update_of_ne (hne hv) _ _,
        (Function.update_of_ne (hne hv) _ _).trans (Function.update_of_ne hvtop _ _)⟩

/-- The worker at the bottom is removed. -/
theorem listPull {m : List α} (h : s.Represents l) (hl : l i = m ++ [w]) :
    (s.listPull i).1 = some w ∧ (s.listPull i).2.Represents (Function.update l i m) := by
  have hlinked := h.linked i
  rw [hl] at hlinked
  have hbottom : s.bottom i = some w := by rw [h.bottom_eq, hl, List.getLast?_concat]
  obtain ⟨top, htop⟩ : ∃ top, s.top i = some top := by
    rw [h.top_eq, hl]
    cases m <;> exact ⟨_, rfl⟩
  have hprev : s.prev w = m.getLast? := hlinked.prev_eq
  simp only [WorkerLists.listPull, hbottom, htop]
  refine ⟨trivial, h.update rfl rfl ?_ ?_ ?_⟩
  · rw [← htop]
    exact hlinked.dropLast
  · exact fun hv hvj ↦ h.disjoint (by rw [hl]; exact List.mem_append_left _ hv) hvj
  · intro v j hj hv
    refine ⟨setLink_apply fun hlast ↦ hj ?_, rfl⟩
    rw [hprev] at hlast
    exact h.disjoint hv (by rw [hl]; exact List.mem_append_left _ (List.mem_of_getLast? hlast))

/-- The worker at the top is removed. -/
theorem listPop {m : List α} (h : s.Represents l) (hl : l i = w :: m) :
    (s.listPop i).1 = some w ∧ (s.listPop i).2.Represents (Function.update l i m) := by
  have hlinked := h.linked i
  rw [hl] at hlinked
  have htop : s.top i = some w := by rw [h.top_eq, hl, List.head?_cons]
  have hnext : s.next w = m.head? := hlinked.forward.2.head_eq
  simp only [WorkerLists.listPop, htop]
  refine ⟨trivial, h.update rfl rfl hlinked.tail ?_ ?_⟩
  · exact fun hv hvj ↦ h.disjoint (by rw [hl]; exact List.mem_cons_of_mem _ hv) hvj
  · intro v j hj hv
    refine ⟨rfl, setLink_apply fun hhead ↦ hj ?_⟩
    rw [hnext] at hhead
    exact h.disjoint hv (by rw [hl]; exact List.mem_cons_of_mem _ (List.mem_of_head? hhead))

end Represents

variable [DecidableEq ι] [DecidableEq α]

/-- The lists refine the sequences. -/
theorem simulates_deques :
    Simulates (call : WorkerLists ι α → _) Deques.call Deques.PushesNew Represents := by
  have hcall : ∀ {s : WorkerLists ι α} {l} (c : ListCall ι α), s.Represents l →
      Deques.PushesNew l c → (s.call c).1 = (Deques.call l c).1 ∧
        (s.call c).2.Represents (Deques.call l c).2 := by
    intro s l c h hc
    cases c with
    | listPush i w => exact ⟨rfl, h.listPush hc⟩
    | listPop i =>
        cases hl : l i with
        | nil =>
            have htop : s.top i = none := by rw [h.top_eq, hl, List.head?_nil]
            simpa [call, Deques.call, WorkerLists.listPop, ThreadPool.listPop, htop, hl] using h
        | cons w m =>
            simpa [call, Deques.call, ThreadPool.listPop, hl] using h.listPop hl
    | listPull i =>
        rcases List.eq_nil_or_concat (l i) with hl | ⟨m, w, hl⟩
        · have htop : s.top i = none := by rw [h.top_eq, hl, List.head?_nil]
          simpa [call, Deques.call, WorkerLists.listPull, ThreadPool.listPull, htop, hl] using h
        · rw [List.concat_eq_append] at hl
          simpa [call, Deques.call, ThreadPool.listPull, hl] using h.listPull hl
  exact ⟨fun h hc ↦ (hcall _ h hc).1, fun h hc ↦ (hcall _ h hc).2⟩

/-- From here on the lists cannot be told from the sequences, and their pointers run through them
in both directions. -/
def RefinesDeques (s : WorkerLists ι α) (l : ι → List α) : Prop :=
  ∀ cs, Legal Deques.call Deques.PushesNew l cs →
    (calls call s cs).1 = (calls Deques.call l cs).1 ∧
      (calls call s cs).2.Represents (calls Deques.call l cs).2

theorem Represents.refinesDeques {s : WorkerLists ι α} {l : ι → List α} (h : s.Represents l) :
    s.RefinesDeques l := fun _ hcs ↦ simulates_deques.calls_eq h hcs

/-! ## The lists of a new pool -/

end WorkerLists

/-- The two lists of a pool. -/
inductive PoolList
  | idle
  | unused
deriving DecidableEq, Repr

namespace PoolList

variable {α : Type}

/-- The two lists, given one by one. -/
def lists (idle unused : List α) : PoolList → List α
  | .idle => idle
  | .unused => unused

@[simp] theorem update_lists_idle (idle unused l : List α) :
    Function.update (lists idle unused) .idle l = lists l unused := by
  funext i
  cases i <;> rfl

@[simp] theorem update_lists_unused (idle unused l : List α) :
    Function.update (lists idle unused) .unused l = lists idle l := by
  funext i
  cases i <;> rfl

end PoolList

namespace WorkerLists

variable {n : ℕ}

/-- A turn of the loop in `poThreadPool_create`. -/
def createTurn (s : WorkerLists PoolList (Fin n)) (i : Fin n) : WorkerLists PoolList (Fin n) :=
  if i.val ≠ 0 then
    let before : Fin n := ⟨i.val - 1, Nat.lt_of_le_of_lt (Nat.sub_le _ _) i.isLt⟩
    { s with
      next := Function.update s.next before (some i)
      prev := Function.update s.prev i (some before) }
  else
    let last : Fin n := ⟨n - 1, Nat.sub_one_lt_of_lt i.isLt⟩
    { next := Function.update s.next last none
      prev := Function.update s.prev i none
      top := Function.update s.top .unused (some i)
      bottom := Function.update s.bottom .unused (some last) }

/-- The zeroed pointers. -/
def zero : WorkerLists PoolList (Fin n) := ⟨fun _ ↦ none, fun _ ↦ none, fun _ ↦ none, fun _ ↦ none⟩

/-- `poThreadPool_create`, for `n` workers. -/
def create (n : ℕ) : WorkerLists PoolList (Fin n) := (List.finRange n).foldl createTurn zero

/-- The lists of a new pool: all workers are unused, in the order of the array. -/
def created (n : ℕ) : PoolList → List (Fin n) := PoolList.lists [] (List.finRange n)

/-- The chain after the first `k` turns of the loop. -/
structure Chained (k : ℕ) (s : WorkerLists PoolList (Fin n)) : Prop where
  next : ∀ j, (s.next j).map Fin.val = if j.val + 1 < k then some (j.val + 1) else none
  prev : ∀ j, (s.prev j).map Fin.val = if 0 < j.val ∧ j.val < k then some (j.val - 1) else none
  unused : 0 < k →
    (s.top .unused).map Fin.val = some 0 ∧ (s.bottom .unused).map Fin.val = some (n - 1)
  idle : s.top .idle = none ∧ s.bottom .idle = none

theorem chained_zero : Chained 0 (zero : WorkerLists PoolList (Fin n)) where
  next j := by simp [zero]
  prev j := by simp [zero]
  unused h := absurd h (Nat.lt_irrefl 0)
  idle := ⟨rfl, rfl⟩

theorem Chained.createTurn {k : ℕ} {s : WorkerLists PoolList (Fin n)} {i : Fin n}
    (h : Chained k s) (hi : i.val = k) : Chained (k + 1) (s.createTurn i) := by
  subst hi
  unfold WorkerLists.createTurn
  by_cases hzero : i.val = 0
  · rw [if_neg (not_not_intro hzero)]
    refine ⟨fun j ↦ ?_, fun j ↦ ?_, fun _ ↦ ?_, ?_⟩
    · have hj := h.next j
      dsimp only
      rw [Function.update_apply, apply_ite (Option.map Fin.val), hj]
      grind
    · have hj := h.prev j
      dsimp only
      rw [Function.update_apply, apply_ite (Option.map Fin.val), hj]
      grind
    · simp [hzero]
    · simpa using h.idle
  · rw [if_pos hzero]
    refine ⟨fun j ↦ ?_, fun j ↦ ?_, fun _ ↦ ?_, h.idle⟩
    · have hj := h.next j
      dsimp only
      rw [Function.update_apply, apply_ite (Option.map Fin.val), hj]
      grind
    · have hj := h.prev j
      dsimp only
      rw [Function.update_apply, apply_ite (Option.map Fin.val), hj]
      grind
    · exact h.unused (Nat.pos_of_ne_zero hzero)

/-- A worker is in the array where its number says. -/
theorem val_eq_length {l₁ l₂ : List (Fin n)} {i : Fin n} (h : List.finRange n = l₁ ++ i :: l₂) :
    i.val = l₁.length := by
  have hget : (l₁ ++ i :: l₂)[l₁.length]? = some i := by simp
  rw [← h] at hget
  obtain ⟨hlt, hget⟩ := List.getElem?_eq_some_iff.mp hget
  rw [← hget]
  simp

theorem chained_create (n : ℕ) : Chained n (create n) := by
  have hprefix : ∀ l₁ l₂, List.finRange n = l₁ ++ l₂ →
      Chained l₁.length (l₁.foldl WorkerLists.createTurn zero) := by
    intro l₁
    induction l₁ using List.reverseRecOn with
    | nil => exact fun _ _ ↦ chained_zero
    | append_singleton l₁ i ih =>
        intro l₂ heq
        rw [List.append_assoc, List.singleton_append] at heq
        rw [List.foldl_append, List.length_append]
        exact (ih _ heq).createTurn (val_eq_length heq)
  have hall := hprefix (List.finRange n) [] (List.append_nil _).symm
  rwa [List.length_finRange] at hall

theorem Chained.linked {s : WorkerLists PoolList (Fin n)} (h : Chained n s) :
    Linked s.next s.prev (List.finRange n).head? (List.finRange n).getLast? (List.finRange n) := by
  have hval : Function.Injective (Option.map (Fin.val (n := n))) :=
    Option.map_injective Fin.val_injective
  refine .of_eq (List.nodup_finRange n) (fun l₁ x l₂ heq ↦ hval ?_) (fun l₁ x l₂ heq ↦ hval ?_)
  · rw [h.next x, val_eq_length heq]
    cases l₂ with
    | nil =>
        have hlength := congrArg List.length heq
        rw [List.length_finRange, List.length_append, List.length_singleton] at hlength
        rw [if_neg (by omega)]
        rfl
    | cons y l₂ =>
        rw [List.append_cons] at heq
        have hy := val_eq_length heq
        rw [List.length_append, List.length_singleton] at hy
        have hlt := y.isLt
        rw [if_pos (by omega), List.head?_cons, Option.map_some, hy]
  · have hx := val_eq_length heq
    have hlt := x.isLt
    rw [h.prev x]
    rcases List.eq_nil_or_concat l₁ with rfl | ⟨l₁, y, rfl⟩
    · rw [List.length_nil] at hx
      rw [if_neg (by omega)]
      rfl
    · rw [List.concat_eq_append, List.append_assoc] at heq
      have hy := val_eq_length heq
      rw [List.length_concat] at hx
      rw [if_pos (by omega), List.concat_eq_append, List.getLast?_concat, Option.map_some, hy, hx,
        Nat.add_sub_cancel]

/-- Where the chain begins and ends. -/
theorem Chained.unused_eq {s : WorkerLists PoolList (Fin n)} (h : Chained n s) (hn : 0 < n) :
    s.top .unused = (List.finRange n).head? ∧ s.bottom .unused = (List.finRange n).getLast? := by
  have hval : Function.Injective (Option.map (Fin.val (n := n))) :=
    Option.map_injective Fin.val_injective
  obtain ⟨htop, hbottom⟩ := h.unused hn
  have hlength := List.length_finRange (n := n)
  constructor
  · refine hval (htop.trans ?_)
    cases hl : List.finRange n with
    | nil =>
        rw [hl, List.length_nil] at hlength
        omega
    | cons x l =>
        have hx : x.val = 0 := @val_eq_length n [] l x hl
        rw [List.head?_cons, Option.map_some, hx]
  · refine hval (hbottom.trans ?_)
    rcases List.eq_nil_or_concat (List.finRange n) with hl | ⟨l, x, hl⟩
    · rw [hl, List.length_nil] at hlength
      omega
    · rw [List.concat_eq_append] at hl
      have hx := val_eq_length hl
      rw [hl, List.length_append, List.length_singleton] at hlength
      rw [hl, List.getLast?_concat, Option.map_some]
      exact congrArg some (by omega)

/-- A new pool has all its workers in the unused list. -/
theorem represents_create (n : ℕ) : (create n).Represents (created n) where
  linked i := by
    have h := chained_create n
    cases i with
    | idle => exact ⟨h.idle.1, h.idle.2, List.nodup_nil⟩
    | unused =>
        rcases Nat.eq_zero_or_pos n with rfl | hn
        · exact ⟨rfl, rfl, List.nodup_nil⟩
        · rw [(h.unused_eq hn).1, (h.unused_eq hn).2]
          exact h.linked
  disjoint {i j _} hi hj := by
    cases i with
    | idle => exact absurd hi List.not_mem_nil
    | unused =>
        cases j with
        | idle => exact absurd hj List.not_mem_nil
        | unused => rfl

end WorkerLists

end Tidbits.ThreadPool
