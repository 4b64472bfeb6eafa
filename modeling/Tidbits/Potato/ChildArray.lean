import Mathlib.Data.List.ReduceOption
import Mathlib.Data.Set.Finite.Basic
import Tidbits.Potato.Entries
import Tidbits.Transition.Reach

/-!
# The memory behind `po.childPids`

The main thread changes the pointer `po.childPids`, the number `po.numChildren` and the
entries in steps of their own, and `sigChildHandler()` may look at them between any two.
`ChildArray` is a `Parent` with the memory that the pointer points to; `realloc()` frees
what it copies before the pointer is assigned, and leaves the new entry as it is.

A read of something that is not an entry ends the run: what follows is not defined.
-/

namespace Tidbits.Potato

open Transition

namespace ParentControl

/-- Between `++po.numChildren` and the store of the new entry, or between
`free(po.childPids)` and `po.numChildren = 0`. -/
def changing : ParentControl → Bool
  | .growing _ | .grown _ | .freed => true
  | _ => false

/-- In the loop of `poTato_removeChildren()`. -/
def removing : ParentControl → Bool
  | .loop _ | .kill _ _ | .wait _ _ | .test _ _ _ | .load _ _ _ | .store _ _ _ _ | .clamp _
  | .clear _ => true
  | _ => false

end ParentControl

/-- Memory that `realloc()` has returned; an entry that is `none` was not set. -/
structure Block where
  entries : List (Option ℤ)
  live : Bool
deriving DecidableEq, Repr

namespace Block

/-- Memory in which each entry is set. -/
def of (entries : List ℤ) : Block := ⟨entries.map some, true⟩

/-- A read of an entry. -/
def read (b : Block) (i : ℕ) : Option ℤ := if b.live then b.entries[i]?.join else none

def write (b : Block) (i : ℕ) (pid : ℤ) : Block := { b with entries := b.entries.set i (some pid) }

def free (b : Block) : Block := { b with live := false }

/-- One more entry. -/
def extend (b : Block) : Block := { b with entries := b.entries ++ [none] }

end Block

/-- How far the main thread is in the statement that changes the pointer. -/
inductive Moment
  | before
  /-- `realloc()` has made the memory larger where it is. -/
  | extended
  /-- `realloc()` has copied the memory and has freed it. -/
  | moved
  /-- Behind `po.childPids = NULL`. -/
  | nulled
deriving DecidableEq, Repr

/-- A process with the memory of its array of children. -/
structure ChildArray where
  parent : Parent
  /-- `po.childPids`. -/
  childPids : Option Block
  /-- `po.numChildren`. -/
  numChildren : ℕ
  moment : Moment
  /-- The handler has read something that is not an entry. -/
  strayed : Bool

/-- What happens next. -/
inductive ArrayAction
  | parent (a : ParentAction)
  /-- `realloc()` works; its result is not assigned yet. -/
  | reallocates (inPlace : Bool)
  /-- `po.childPids = NULL`. -/
  | nulls
deriving DecidableEq, Repr

/-- The loop of `removePidFromChildList()` from `i` on, `n` rounds: where the process id
is.  It is `none` if something that is not an entry is read. -/
def searchFrom (read : ℕ → Option ℤ) (pid : ℤ) : ℕ → ℕ → Option (Option ℕ)
  | 0, _ => some none
  | n + 1, i =>
      match read i with
      | none => none
      | some entry => if entry = pid then some (some i) else searchFrom read pid n (i + 1)

namespace ChildArray

def start : ChildArray := ⟨.start, none, 0, .before, false⟩

/-- `po.childPids[i]`. -/
def read (m : ChildArray) (i : ℕ) : Option ℤ := m.childPids.bind fun b ↦ b.read i

/-- `po.childPids[i] = pid`. -/
def write (m : ChildArray) (i : ℕ) (pid : ℤ) : ChildArray :=
  { m with childPids := m.childPids.map fun b ↦ b.write i pid }

/-- `removePidFromChildList()`. -/
def removePidFromChildList (m : ChildArray) (pid : ℤ) : Option ChildArray :=
  match searchFrom m.read pid m.numChildren 0 with
  | none => none
  | some none => some m
  | some (some i) => some (m.write i (-1))

/-- `sigChildHandler()`. -/
def sigChildHandler (m : ChildArray) (n : ChildNotice) : Option ChildArray :=
  match n.code with
  | .killed | .dumped | .trapped | .exited => m.removePidFromChildList n.pid
  | .stopped | .continued => some m

/-- `realloc(po.childPids, ...)`; there is nothing to make larger at `NULL`. -/
def reallocates (m : ChildArray) : Bool → Option ChildArray
  | true => m.childPids.map fun b ↦ { m with childPids := some b.extend, moment := .extended }
  | false => some { m with childPids := m.childPids.map Block.free, moment := .moved }

/-- `po.childPids =` what `realloc()` has returned. -/
def assigns (m : ChildArray) : ChildArray :=
  match m.moment with
  | .extended => { m with moment := .before }
  | _ =>
      { m with
        childPids := some ⟨m.childPids.elim [] Block.entries ++ [none], true⟩
        moment := .before }

/-- What the main thread does to the array as it goes on. -/
def goes (m : ChildArray) : ChildArray :=
  match m.parent.control with
  | .forked _ => { m with numChildren := m.numChildren + 1 }
  | .grown pid => m.write (m.numChildren - 1) pid
  | .loop 0 => { m with childPids := m.childPids.map Block.free }
  | .clear i => m.write i (-1)
  | .freed => { m with numChildren := 0, moment := .before }
  | _ => m

/-- The transitions of a process and its array of children. -/
def step (m : ChildArray) (a : ArrayAction) : Option ChildArray :=
  if m.strayed then none
  else
    match a with
    | .reallocates inPlace =>
        if m.parent.control.grows ∧ m.moment = .before then m.reallocates inPlace else none
    | .nulls =>
        if m.parent.control = .freed ∧ m.moment = .before then
          some { m with childPids := none, moment := .nulled }
        else none
    | .parent .go =>
        if m.parent.control = .freed ∧ m.moment = .before then none
        else m.parent.go.map fun p ↦ { m.goes with parent := p }
    | .parent (.realloc entry) =>
        if m.moment = .before then none
        else (m.parent.step (.realloc entry)).map fun p ↦ { m.assigns with parent := p }
    | .parent .handle =>
        match m.parent.pending with
        | none => none
        | some n =>
            match m.sigChildHandler n with
            | none => some { m with strayed := true }
            | some m' => (m.parent.step .handle).map fun p ↦ { m' with parent := p }
    | .parent a => (m.parent.step a).map fun p ↦ { m with parent := p }

/-- `po.childPids` points to a live array with `po.numChildren` entries that are set. -/
def Sound (m : ChildArray) : Prop :=
  m.numChildren = 0 ∨ ∃ b, m.childPids = some b ∧ b.live = true ∧
    m.numChildren ≤ b.entries.length ∧
    ∀ i < m.numChildren, ∃ pid, b.entries[i]? = some (some pid)

/-- `removePidFromChildList()` reads nothing but entries of the array. -/
def ReadsWell (m : ChildArray) (pid : ℤ) : Prop :=
  (searchFrom m.read pid m.numChildren 0).isSome = true

/-- The main thread is in one of the two places where the array changes. -/
def Changing (m : ChildArray) : Prop := m.parent.control.changing = true

/-- The handler does not run in these places. -/
def Masked (m : ChildArray) (a : ArrayAction) : Prop := a = .parent .handle → ¬ m.Changing

instance (m : ChildArray) (pid : ℤ) : Decidable (m.ReadsWell pid) :=
  inferInstanceAs (Decidable (_ = true))

instance (m : ChildArray) : Decidable m.Changing := inferInstanceAs (Decidable (_ = true))

instance : DecidableRel Masked := fun _ _ ↦ inferInstanceAs (Decidable (_ → ¬ _))

end ChildArray

/-! ## What the search reads -/

section Search

variable {read : ℕ → Option ℤ} {pid : ℤ}

theorem isSome_searchFrom {n i : ℕ} (h : ∀ j < n, (read (i + j)).isSome = true) :
    (searchFrom read pid n i).isSome = true := by
  induction n generalizing i with
  | zero => rfl
  | succ n ih =>
      obtain ⟨entry, he⟩ := Option.isSome_iff_exists.mp (h 0 n.succ_pos)
      rw [Nat.add_zero] at he
      rw [searchFrom, he]
      change (if entry = pid then _ else _ : Option (Option ℕ)).isSome = true
      split_ifs
      · rfl
      · refine ih fun j hj ↦ ?_
        rw [Nat.add_assoc, Nat.add_comm 1]
        exact h (j + 1) (Nat.succ_lt_succ hj)

/-- A search for what is not there reads each entry. -/
theorem isSome_of_searchFrom {n i : ℕ} (h : (searchFrom read pid n i).isSome = true)
    (hne : ∀ j, read j ≠ some pid) : ∀ j < n, (read (i + j)).isSome = true := by
  induction n generalizing i with
  | zero => exact fun j hj ↦ absurd hj j.not_lt_zero
  | succ n ih =>
      cases he : read i with
      | none =>
          rw [searchFrom, he] at h
          exact absurd h Bool.false_ne_true
      | some entry =>
          rw [searchFrom, he] at h
          have hentry : entry ≠ pid := fun heq ↦ hne i (heq ▸ he)
          rintro (_ | j) hj
          · rw [Nat.add_zero, he]
            rfl
          · rw [← Nat.succ_add_eq_add_succ]
            exact ih (by simpa only [if_neg hentry] using h) j (Nat.lt_of_succ_lt_succ hj)

theorem clearPid_of_notMem {entries : List ℤ} (h : pid ∉ entries) :
    clearPid pid entries = entries := by
  induction entries with
  | nil => rfl
  | cons entry entries ih =>
      rw [List.mem_cons, not_or] at h
      obtain ⟨hne, hnot⟩ := h
      rw [clearPid, if_neg (Ne.symm hne), ih hnot]

theorem clearPid_append {entries : List ℤ} (h : pid ∈ entries) (entry : ℤ) :
    clearPid pid (entries ++ [entry]) = clearPid pid entries ++ [entry] := by
  induction entries with
  | nil => exact absurd h List.not_mem_nil
  | cons first entries ih =>
      rw [List.cons_append, clearPid, clearPid]
      split_ifs with heq
      · rfl
      · rw [ih ((List.mem_cons.mp h).resolve_left (Ne.symm heq)), List.cons_append]

/-- The search finds the entry that is cleared, or it goes on behind the entries. -/
theorem searchFrom_entries (entries : List ℤ) (i k : ℕ)
    (h : ∀ j, (hj : j < entries.length) → read (i + j) = some entries[j]) :
    (pid ∉ entries ∧
        searchFrom read pid (entries.length + k) i = searchFrom read pid k (i + entries.length)) ∨
      ∃ j < entries.length, pid ∈ entries ∧
        searchFrom read pid (entries.length + k) i = some (some (i + j)) ∧
        clearPid pid entries = entries.set j (-1) := by
  induction entries generalizing i with
  | nil => exact .inl ⟨List.not_mem_nil, by simp⟩
  | cons entry entries ih =>
      have hi : read i = some entry := h 0 (Nat.succ_pos _)
      have hlength : (entry :: entries).length + k = (entries.length + k) + 1 := by
        rw [List.length_cons]
        omega
      rw [hlength, searchFrom, hi]
      by_cases heq : entry = pid
      · refine .inr ⟨0, Nat.succ_pos _, heq ▸ List.mem_cons_self, if_pos heq, ?_⟩
        rw [clearPid, if_pos heq]
        rfl
      · simp only [if_neg heq]
        rcases ih (i + 1) fun j hj ↦ by
          rw [Nat.add_assoc, Nat.add_comm 1]
          exact h (j + 1) (Nat.succ_lt_succ hj) with ⟨hnot, hs⟩ | ⟨j, hj, hin, hs, hc⟩
        · refine .inl ⟨List.not_mem_cons_of_ne_of_not_mem (Ne.symm heq) hnot, hs.trans ?_⟩
          rw [Nat.add_assoc, Nat.add_comm 1, List.length_cons]
        · refine .inr ⟨j + 1, Nat.succ_lt_succ hj, List.mem_cons_of_mem _ hin, hs.trans ?_, ?_⟩
          · rw [Nat.add_assoc, Nat.add_comm 1]
          · rw [clearPid, if_neg heq, hc]
            rfl

end Search

namespace ChildArray

variable {m : ChildArray}

theorem sound_iff_read : m.Sound ↔ ∀ i < m.numChildren, (m.read i).isSome = true := by
  constructor
  · rintro (hzero | ⟨b, hb, hlive, -, hset⟩) i hi
    · exact absurd (hzero ▸ hi) i.not_lt_zero
    · obtain ⟨pid, hpid⟩ := hset i hi
      simp [read, hb, Block.read, hlive, hpid]
  · intro h
    rcases Nat.eq_zero_or_pos m.numChildren with hzero | hpos
    · exact .inl hzero
    · obtain ⟨b, hb⟩ : ∃ b, m.childPids = some b := by
        cases hb : m.childPids with
        | none => exact absurd (h 0 hpos) (by simp [read, hb])
        | some b => exact ⟨b, rfl⟩
      have hlive : b.live = true := by
        by_contra hdead
        exact absurd (h 0 hpos) (by simp [read, hb, Block.read, hdead])
      have hset : ∀ i < m.numChildren, ∃ pid, b.entries[i]? = some (some pid) := by
        intro i hi
        obtain ⟨pid, hpid⟩ := Option.isSome_iff_exists.mp (h i hi)
        rw [read, hb] at hpid
        simp only [Option.bind_some, Block.read, if_pos hlive, Option.join_eq_some_iff] at hpid
        exact ⟨pid, hpid⟩
      refine .inr ⟨b, hb, hlive, ?_, hset⟩
      -- the last entry is there
      obtain ⟨pid, hpid⟩ := hset (m.numChildren - 1) (Nat.sub_lt hpos Nat.one_pos)
      have hlast := (List.getElem?_eq_some_iff.mp hpid).1
      omega

/-- There is a process id that is in no entry. -/
theorem exists_read_ne (m : ChildArray) : ∃ pid, ∀ i, m.read i ≠ some pid := by
  cases hb : m.childPids with
  | none => exact ⟨0, fun i ↦ by simp [read, hb]⟩
  | some b =>
      obtain ⟨pid, hpid⟩ := Infinite.exists_notMem_finset b.entries.reduceOption.toFinset
      refine ⟨pid, fun i hi ↦ hpid ?_⟩
      rw [List.mem_toFinset, List.reduceOption_mem_iff]
      simp only [read, hb, Option.bind_some, Block.read, Option.ite_none_right_eq_some,
        Option.join_eq_some_iff] at hi
      exact List.mem_of_getElem? hi.2

/-- The handler reads entries only, whatever child it is about, exactly if the array is
sound. -/
theorem sound_iff_readsWell : m.Sound ↔ ∀ pid, m.ReadsWell pid := by
  rw [sound_iff_read]
  constructor
  · intro h pid
    exact isSome_searchFrom fun j hj ↦ by
      rw [Nat.zero_add]
      exact h j hj
  · intro h i hi
    obtain ⟨pid, hpid⟩ := m.exists_read_ne
    simpa only [Nat.zero_add] using isSome_of_searchFrom (h pid) hpid i hi

/-! ## The array at each point of the main thread -/

/-- The memory and the number at the point where the main thread is, with the entries
that the model without memory has there. -/
inductive Mirrors (m : ChildArray) : Prop
  | empty (hc : m.parent.control.changing = false) (hr : m.parent.control.removing = false)
      (hp : m.parent.childPids = none) (hb : m.childPids = none) (hn : m.numChildren = 0)
      (hm : m.moment = .before)
  | settled (entries : List ℤ) (hc : m.parent.control.changing = false) (hne : entries ≠ [])
      (hp : m.parent.childPids = some entries) (hb : m.childPids = some (.of entries))
      (hn : m.numChildren = entries.length) (hm : m.moment = .before)
  | growingEmpty (pid : ℤ) (hc : m.parent.control = .growing pid)
      (hp : m.parent.childPids = none) (hb : m.childPids = none) (hn : m.numChildren = 1)
      (hm : m.moment = .before ∨ m.moment = .moved)
  | growing (pid : ℤ) (entries : List ℤ) (hc : m.parent.control = .growing pid)
      (hp : m.parent.childPids = some entries) (hb : m.childPids = some (.of entries))
      (hn : m.numChildren = entries.length + 1) (hm : m.moment = .before)
  | extended (pid : ℤ) (entries : List ℤ) (hc : m.parent.control = .growing pid)
      (hp : m.parent.childPids = some entries) (hb : m.childPids = some (Block.of entries).extend)
      (hn : m.numChildren = entries.length + 1) (hm : m.moment = .extended)
  | moved (pid : ℤ) (entries : List ℤ) (hc : m.parent.control = .growing pid)
      (hp : m.parent.childPids = some entries) (hb : m.childPids = some (Block.of entries).free)
      (hn : m.numChildren = entries.length + 1) (hm : m.moment = .moved)
  | grown (pid : ℤ) (entries : List ℤ) (entry : ℤ) (hc : m.parent.control = .grown pid)
      (hp : m.parent.childPids = some (entries ++ [entry]))
      (hb : m.childPids = some (Block.of entries).extend) (hn : m.numChildren = entries.length + 1)
      (hm : m.moment = .before)
  | freed (entries : List ℤ) (hc : m.parent.control = .freed)
      (hb : m.childPids = some (Block.of entries).free) (hn : 0 < m.numChildren)
      (hm : m.moment = .before)
  | nulled (hc : m.parent.control = .freed) (hb : m.childPids = none) (hn : 0 < m.numChildren)
      (hm : m.moment = .nulled)

theorem read_of {entries : List ℤ} (hb : m.childPids = some (.of entries)) (i : ℕ) :
    m.read i = entries[i]? := by
  simp [read, hb, Block.read, Block.of]
  cases entries[i]? <;> rfl

theorem read_extend {entries : List ℤ} (hb : m.childPids = some (Block.of entries).extend) (i : ℕ) :
    m.read i = entries[i]? := by
  rcases Nat.lt_or_ge i entries.length with hi | hi
  · simp [read, hb, Block.read, Block.of, Block.extend, List.getElem?_append, hi]
  · rw [List.getElem?_eq_none hi]
    rcases Nat.eq_or_lt_of_le hi with rfl | hi
    · simp [read, hb, Block.read, Block.of, Block.extend]
    · have hlength : (entries.map some ++ [none]).length ≤ i := by
        rw [List.length_append, List.length_map]
        exact hi
      simp [read, hb, Block.read, Block.of, Block.extend, List.getElem?_eq_none hlength]

theorem read_free {b : Block} (hb : m.childPids = some b.free) (i : ℕ) : m.read i = none := by
  simp [read, hb, Block.read, Block.free]

theorem read_null (hb : m.childPids = none) (i : ℕ) : m.read i = none := by
  rw [read, hb]
  rfl

theorem not_sound {i : ℕ} (hi : i < m.numChildren) (hr : m.read i = none) : ¬ m.Sound := by
  intro h
  have hread := sound_iff_read.mp h i hi
  rw [hr] at hread
  exact Bool.false_ne_true hread

/-- The array is sound where the main thread is not changing it, and only there. -/
theorem Mirrors.sound_iff (h : m.Mirrors) : m.Sound ↔ ¬ m.Changing := by
  unfold Changing
  cases h with
  | empty hc hr hp hb hn hm =>
      rw [hc]
      exact iff_of_true (.inl hn) Bool.false_ne_true
  | settled entries hc hne hp hb hn hm =>
      rw [hc]
      refine iff_of_true (sound_iff_read.mpr fun i hi ↦ ?_) Bool.false_ne_true
      rw [read_of hb, List.getElem?_eq_getElem (hn ▸ hi)]
      rfl
  | growingEmpty pid hc hp hb hn hm =>
      rw [hc]
      exact iff_of_false (not_sound (hn ▸ Nat.one_pos) (read_null hb 0)) (fun hnot ↦ hnot rfl)
  | growing pid entries hc hp hb hn hm =>
      rw [hc]
      refine iff_of_false (not_sound (i := entries.length) (by omega) ?_) (fun hnot ↦ hnot rfl)
      rw [read_of hb, List.getElem?_eq_none (Nat.le_refl _)]
  | extended pid entries hc hp hb hn hm | grown pid entries entry hc hp hb hn hm =>
      rw [hc]
      refine iff_of_false (not_sound (i := entries.length) (by omega) ?_) (fun hnot ↦ hnot rfl)
      rw [read_extend hb, List.getElem?_eq_none (Nat.le_refl _)]
  | moved pid entries hc hp hb hn hm =>
      rw [hc]
      exact iff_of_false (not_sound (i := 0) (by omega) (read_free hb 0)) (fun hnot ↦ hnot rfl)
  | freed entries hc hb hn hm =>
      rw [hc]
      exact iff_of_false (not_sound hn (read_free hb 0)) (fun hnot ↦ hnot rfl)
  | nulled hc hb hn hm =>
      rw [hc]
      exact iff_of_false (not_sound hn (read_null hb 0)) (fun hnot ↦ hnot rfl)

/-! ## The steps -/

theorem write_of (entries : List ℤ) (i : ℕ) (pid : ℤ) :
    (Block.of entries).write i pid = .of (entries.set i pid) := by
  simp [Block.write, Block.of, List.map_set]

theorem write_extend {entries : List ℤ} {i : ℕ} (hi : i < entries.length) (pid : ℤ) :
    (Block.of entries).extend.write i pid = (Block.of (entries.set i pid)).extend := by
  simp [Block.write, Block.of, Block.extend, List.map_set, hi]

theorem write_extend_last (entries : List ℤ) (pid : ℤ) :
    (Block.of entries).extend.write entries.length pid = .of (entries ++ [pid]) := by
  simp [Block.write, Block.of, Block.extend]

theorem removePid_eq {p : Parent} {pid : ℤ} (hfreed : p.control ≠ .freed)
    (hgrows : p.control.grows = true → pid ∈ p.entries) :
    p.removePidFromChildList pid = { p with childPids := p.childPids.map (clearPid pid) } := by
  unfold Parent.removePidFromChildList
  split
  · next heq => exact if_pos (hgrows (heq ▸ rfl))
  · next heq => exact absurd heq hfreed
  · rfl

theorem grows_eq_false {c : ParentControl} (h : c.changing = false) : c.grows = false := by
  cases c with
  | growing => exact nomatch h
  | _ => rfl

theorem ne_freed {c : ParentControl} (h : c.changing = false) : c ≠ .freed :=
  fun heq ↦ nomatch (heq ▸ h : ParentControl.freed.changing = false)

/-- The handler finds one of the entries that are set, or there are no others. -/
theorem removePid_cases {m' : ChildArray} {entries : List ℤ} {pid : ℤ} {k : ℕ}
    (hread : ∀ i, m.read i = entries[i]?) (hn : m.numChildren = entries.length + k)
    (hm : m.removePidFromChildList pid = some m') :
    (pid ∉ entries ∧ k = 0 ∧ m' = m) ∨
      ∃ j < entries.length, pid ∈ entries ∧ m' = m.write j (-1) ∧
        clearPid pid entries = entries.set j (-1) := by
  have hset : ∀ j, (hj : j < entries.length) → m.read (0 + j) = some entries[j] := by
    intro j hj
    rw [Nat.zero_add, hread, List.getElem?_eq_getElem hj]
  rw [removePidFromChildList, hn] at hm
  rcases searchFrom_entries entries 0 k hset with ⟨hnot, hs⟩ | ⟨j, hj, hin, hs, hc⟩
  · rw [hs] at hm
    cases k with
    | zero => exact .inl ⟨hnot, rfl, (Option.some.inj hm).symm⟩
    | succ k =>
        -- behind the entries that are set
        rw [searchFrom, hread, Nat.zero_add, List.getElem?_eq_none (Nat.le_refl _)] at hm
        exact nomatch hm
  · rw [hs, Nat.zero_add] at hm
    exact .inr ⟨j, hj, hin, (Option.some.inj hm).symm, hc⟩

/-- The first read is of something that is not an entry. -/
theorem removePid_eq_none {pid : ℤ} (hn : 0 < m.numChildren) (hr : m.read 0 = none) :
    m.removePidFromChildList pid = none := by
  obtain ⟨n, hn⟩ := Nat.exists_eq_succ_of_ne_zero hn.ne'
  rw [removePidFromChildList, hn, searchFrom, hr]

namespace Mirrors

theorem of_same (h : m.Mirrors) {p : Parent} {strayed : Bool}
    (hc : p.control = m.parent.control) (hp : p.childPids = m.parent.childPids) :
    Mirrors { m with parent := p, strayed := strayed } := by
  cases h with
  | empty hc' hr hp' => exact .empty (hc ▸ hc') (hc ▸ hr) (hp.trans hp') ‹_› ‹_› ‹_›
  | settled entries hc' hne hp' => exact .settled entries (hc ▸ hc') hne (hp.trans hp') ‹_› ‹_› ‹_›
  | growingEmpty pid hc' hp' => exact .growingEmpty pid (hc.trans hc') (hp.trans hp') ‹_› ‹_› ‹_›
  | growing pid entries hc' hp' =>
      exact .growing pid entries (hc.trans hc') (hp.trans hp') ‹_› ‹_› ‹_›
  | extended pid entries hc' hp' =>
      exact .extended pid entries (hc.trans hc') (hp.trans hp') ‹_› ‹_› ‹_›
  | moved pid entries hc' hp' => exact .moved pid entries (hc.trans hc') (hp.trans hp') ‹_› ‹_› ‹_›
  | grown pid entries entry hc' hp' =>
      exact .grown pid entries entry (hc.trans hc') (hp.trans hp') ‹_› ‹_› ‹_›
  | freed entries hc' => exact .freed entries (hc.trans hc') ‹_› ‹_› ‹_›
  | nulled hc' => exact .nulled (hc.trans hc') ‹_› ‹_› ‹_›

/-- The main thread moves and leaves the array alone. -/
theorem move (h : m.Mirrors) {p : Parent} (hc : m.parent.control.changing = false)
    (hp : p.childPids = m.parent.childPids) (hc' : p.control.changing = false)
    (hr : p.control.removing = true →
      m.parent.control.removing = true ∨ m.parent.childPids ≠ none) :
    Mirrors { m with parent := p } := by
  cases h with
  | empty _ hr' hp' hb hn hm =>
      refine .empty hc' (Bool.eq_false_iff.mpr fun hremoving ↦ ?_) (hp.trans hp') hb hn hm
      rcases hr hremoving with hr | hr
      · exact Bool.false_ne_true (hr'.symm.trans hr)
      · exact hr hp'
  | settled entries _ hne hp' hb hn hm => exact .settled entries hc' hne (hp.trans hp') hb hn hm
  | growingEmpty _ h | growing _ _ h | extended _ _ h | moved _ _ h | grown _ _ _ h | freed _ h
  | nulled h => rw [h] at hc; exact nomatch hc

/-- What holds at a point where the array does not change. -/
theorem of_not_changing (h : m.Mirrors) (hc : m.parent.control.changing = false) :
    m.moment = .before ∧
      (m.parent.control.removing = false ∧ m.parent.childPids = none ∧ m.childPids = none ∧
          m.numChildren = 0 ∨
        ∃ entries, entries ≠ [] ∧ m.parent.childPids = some entries ∧
          m.childPids = some (.of entries) ∧ m.numChildren = entries.length) := by
  cases h with
  | empty _ hr hp hb hn hm => exact ⟨hm, .inl ⟨hr, hp, hb, hn⟩⟩
  | settled entries _ hne hp hb hn hm => exact ⟨hm, .inr ⟨entries, hne, hp, hb, hn⟩⟩
  | growingEmpty _ h | growing _ _ h | extended _ _ h | moved _ _ h | grown _ _ _ h | freed _ h
  | nulled h => rw [h] at hc; exact nomatch hc

/-- The process id is removed by the handler, in the memory and in the list. -/
theorem remove (h : m.Mirrors) {m' : ChildArray} {pid : ℤ} {p : Parent}
    (hm' : m.removePidFromChildList pid = some m') (hcontrol : p.control = m.parent.control)
    (hchildPids : p.childPids = m.parent.childPids) :
    Mirrors { m' with parent := p.removePidFromChildList pid } := by
  have hclear : m.parent.control ≠ .freed →
      (m.parent.control.grows = true → pid ∈ p.entries) →
      (p.removePidFromChildList pid).control = m.parent.control ∧
        (p.removePidFromChildList pid).childPids = m.parent.childPids.map (clearPid pid) := by
    intro hfreed hgrows
    rw [removePid_eq (hcontrol ▸ hfreed) (hcontrol ▸ hgrows)]
    exact ⟨hcontrol, congrArg (Option.map (clearPid pid)) hchildPids⟩
  -- where the first entry is not one that is set, the handler has strayed
  have hstrays : 0 < m.numChildren → m.read 0 = none →
      Mirrors { m' with parent := p.removePidFromChildList pid } :=
    fun hn hr ↦ by cases (removePid_eq_none hn hr).symm.trans hm'
  cases h with
  | empty hc hr hp hb hn hm =>
      obtain ⟨hc', hlist⟩ := hclear (ne_freed hc)
        fun hgrows ↦ by cases (grows_eq_false hc).symm.trans hgrows
      have hread : ∀ i, m.read i = ([] : List ℤ)[i]? := fun i ↦ read_null hb i
      rcases removePid_cases hread (k := 0) hn hm' with ⟨-, -, rfl⟩ | ⟨j, hj, -⟩
      · exact .empty (hc' ▸ hc) (hc' ▸ hr) (by rw [hlist, hp]; rfl) hb hn hm
      · exact absurd hj j.not_lt_zero
  | settled entries hc hne hp hb hn hm =>
      obtain ⟨hc', hlist⟩ := hclear (ne_freed hc)
        fun hgrows ↦ by cases (grows_eq_false hc).symm.trans hgrows
      rw [hp, Option.map_some] at hlist
      rcases removePid_cases (read_of hb) (k := 0) hn hm' with
        ⟨hnot, -, rfl⟩ | ⟨j, hj, -, rfl, hset⟩
      · rw [clearPid_of_notMem hnot] at hlist
        exact .settled entries (hc' ▸ hc) hne hlist hb hn hm
      · rw [hset] at hlist
        refine .settled _ (hc' ▸ hc) ?_ hlist ?_ ?_ hm
        · exact fun hnil ↦ hne ((List.set_eq_nil_iff _ _).mp hnil)
        · change m.childPids.map _ = _
          rw [hb, Option.map_some, write_of]
        · exact hn.trans List.length_set.symm
  | growingEmpty pid hc hp hb hn hm => exact hstrays (hn ▸ Nat.one_pos) (read_null hb 0)
  | growing pid' entries hc hp hb hn hm =>
      rcases removePid_cases (read_of hb) hn hm' with ⟨-, hk, -⟩ | ⟨j, hj, hin, rfl, hset⟩
      · exact absurd hk one_ne_zero
      · have hentries : p.entries = entries := by rw [Parent.entries, hchildPids, hp]; rfl
        obtain ⟨hc', hlist⟩ := hclear (by rw [hc]; rintro ⟨⟩) fun _ ↦ hentries ▸ hin
        rw [hp, Option.map_some, hset] at hlist
        refine .growing pid' _ (hc'.trans hc) hlist ?_ ?_ hm
        · change m.childPids.map _ = _
          rw [hb, Option.map_some, write_of]
        · rw [List.length_set]
          exact hn
  | extended pid' entries hc hp hb hn hm =>
      rcases removePid_cases (read_extend hb) hn hm' with ⟨-, hk, -⟩ | ⟨j, hj, hin, rfl, hset⟩
      · exact absurd hk one_ne_zero
      · have hentries : p.entries = entries := by rw [Parent.entries, hchildPids, hp]; rfl
        obtain ⟨hc', hlist⟩ := hclear (by rw [hc]; rintro ⟨⟩) fun _ ↦ hentries ▸ hin
        rw [hp, Option.map_some, hset] at hlist
        refine .extended pid' _ (hc'.trans hc) hlist ?_ ?_ hm
        · change m.childPids.map _ = _
          rw [hb, Option.map_some, write_extend hj]
        · rw [List.length_set]
          exact hn
  | moved pid entries hc hp hb hn hm => exact hstrays (by omega) (read_free hb 0)
  | grown pid' entries entry hc hp hb hn hm =>
      rcases removePid_cases (read_extend hb) hn hm' with ⟨-, hk, -⟩ | ⟨j, hj, hin, rfl, hset⟩
      · exact absurd hk one_ne_zero
      · obtain ⟨hc', hlist⟩ := hclear (by rw [hc]; rintro ⟨⟩) fun hgrows ↦ by
          rw [hc] at hgrows
          cases hgrows
        rw [hp, Option.map_some, clearPid_append hin, hset] at hlist
        refine .grown pid' _ entry (hc'.trans hc) hlist ?_ ?_ hm
        · change m.childPids.map _ = _
          rw [hb, Option.map_some, write_extend hj]
        · rw [List.length_set]
          exact hn
  | freed entries hc hb hn hm => exact hstrays hn (read_free hb 0)
  | nulled hc hb hn hm => exact hstrays hn (read_null hb 0)

/-- The process ends in `poTato_fork()`. -/
theorem ended (h : m.Mirrors) {pid : ℤ} (hc : m.parent.control = .reading pid) :
    Mirrors { m with parent := { m.parent with control := .ended } } :=
  h.move (by rw [hc]; rfl) rfl rfl nofun

theorem interrupted (h : m.Mirrors) : Mirrors { m with parent := m.parent.interrupted } := by
  unfold Parent.interrupted
  split
  · next pid hc => exact h.ended hc
  · exact h

theorem handle (h : m.Mirrors) {m' : ChildArray} {n : ChildNotice} {p : Parent}
    (hn : m.parent.pending = some n) (hm' : m.sigChildHandler n = some m')
    (hp : m.parent.step .handle = some p) : Mirrors { m' with parent := p } := by
  obtain ⟨-, hp⟩ := Option.ite_none_left_eq_some.mp hp
  rw [hn] at hp
  cases hp
  have hhandled : Mirrors { m' with
      parent := { m.parent with pending := none }.sigChildHandler n } := by
    unfold sigChildHandler at hm'
    unfold Parent.sigChildHandler
    cases hcode : n.code with
    | killed | dumped | trapped | exited =>
        rw [hcode] at hm'
        exact h.remove hm' rfl rfl
    | stopped | continued =>
        rw [hcode] at hm'
        cases hm'
        exact h.of_same rfl rfl
  exact hhandled.interrupted

theorem realloc (h : m.Mirrors) {entry : ℤ} {p : Parent} (hm : m.moment ≠ .before)
    (hp : m.parent.step (.realloc entry) = some p) : Mirrors { m.assigns with parent := p } := by
  simp only [Parent.step] at hp
  split at hp <;> cases hp
  next pid hc =>
    cases h with
    | growingEmpty pid' _ hp hb hn hm' =>
        have hmoved := hm'.resolve_left hm
        unfold assigns
        rw [hmoved, hb]
        exact .grown pid [] entry rfl (by rw [Parent.entries, hp]; rfl) rfl hn rfl
    | extended pid' entries _ hp hb hn hm' =>
        unfold assigns
        rw [hm']
        exact .grown pid entries entry rfl (by rw [Parent.entries, hp]; rfl) hb hn rfl
    | moved pid' entries _ hp hb hn hm' =>
        unfold assigns
        rw [hm', hb]
        exact .grown pid entries entry rfl (by rw [Parent.entries, hp]; rfl) rfl hn rfl
    | empty _ _ _ _ _ hm' | settled _ _ _ _ _ _ hm' | growing _ _ _ _ _ _ hm' => exact absurd hm' hm
    | grown _ _ _ hc' | freed _ hc' | nulled hc' => cases hc.symm.trans hc'

/-- The main thread goes on at a point where the array does not change. -/
theorem go_settled (h : m.Mirrors) {p : Parent} (hc : m.parent.control.changing = false)
    (hp : m.parent.go = some p) : Mirrors { m.goes with parent := p } := by
  obtain ⟨hm, hb⟩ := h.of_not_changing hc
  cases hcontrol : m.parent.control
  all_goals simp only [Parent.go, goes, hcontrol] at hp hc ⊢
  case forked pid =>
    cases hp
    rcases hb with ⟨-, hp, hb, hn⟩ | ⟨entries, hne, hp, hb, hn⟩
    · exact .growingEmpty pid rfl hp hb (congrArg (· + 1) hn) (.inl hm)
    · exact .growing pid entries rfl hp hb (congrArg (· + 1) hn) hm
  case clear i =>
    cases hp
    rcases hb with ⟨hr, -⟩ | ⟨entries, hne, hp, hb, hn⟩
    · rw [hcontrol] at hr
      cases hr
    · refine .settled (entries.set i (-1)) rfl (fun hnil ↦ hne ((List.set_eq_nil_iff _ _).mp hnil))
        ?_ ?_ (hn.trans List.length_set.symm) hm
      · change some (m.parent.entries.set i (-1)) = _
        rw [Parent.entries, hp]
        rfl
      · change m.childPids.map _ = _
        rw [hb, Option.map_some, write_of]
  case loop k =>
    cases k with
    | zero =>
        cases hp
        rcases hb with ⟨hr, -⟩ | ⟨entries, hne, hp, hb, hn⟩
        · rw [hcontrol] at hr
          cases hr
        · refine .freed entries rfl ?_ (hn ▸ List.length_pos_of_ne_nil hne) hm
          change m.childPids.map _ = _
          rw [hb, Option.map_some]
    | succ i =>
        dsimp only at hp
        split_ifs at hp <;> cases hp
        · exact h.move (hcontrol ▸ hc) rfl rfl fun _ ↦ .inl (hcontrol ▸ rfl)
        · exact h.move (hcontrol ▸ hc) rfl rfl fun _ ↦ .inl (hcontrol ▸ rfl)
  case wait i pid =>
    split at hp <;> cases hp
    · exact h.move (hcontrol ▸ hc) rfl rfl fun _ ↦ .inl (hcontrol ▸ rfl)
    · exact h.move (hcontrol ▸ hc) rfl rfl fun _ ↦ .inl (hcontrol ▸ rfl)
  case kill | test =>
    split_ifs at hp <;> cases hp
    · exact h.move (hcontrol ▸ hc) rfl rfl fun _ ↦ .inl (hcontrol ▸ rfl)
    · exact h.move (hcontrol ▸ hc) rfl rfl fun _ ↦ .inl (hcontrol ▸ rfl)
  case load | store | clamp =>
    cases hp
    exact h.move (hcontrol ▸ hc) rfl rfl fun _ ↦ .inl (hcontrol ▸ rfl)
  case started | reading | done =>
    cases hp
    exact h.move (hcontrol ▸ hc) rfl rfl (by rintro ⟨⟩)
  case growing | grown | freed => cases hc
  all_goals cases hp

theorem go (h : m.Mirrors) {p : Parent} (hm : m.parent.control = .freed → m.moment ≠ .before)
    (hp : m.parent.go = some p) : Mirrors { m.goes with parent := p } := by
  by_cases hc : m.parent.control.changing = false
  · exact h.go_settled hc hp
  cases h with
  | empty hc' | settled _ hc' => exact absurd hc' hc
  | growingEmpty pid hc' | growing pid _ hc' | extended pid _ hc' | moved pid _ hc' =>
      rw [Parent.go, hc'] at hp
      exact nomatch hp
  | grown pid entries entry hc' hp' hb hn hm' =>
      have hlist : m.parent.entries = entries ++ [entry] := by rw [Parent.entries, hp']; rfl
      rw [Parent.go, hc', hlist] at hp
      unfold goes
      rw [hc']
      cases hp
      refine .settled (entries ++ [pid]) rfl (by simp) (by simp) ?_
        (hn.trans (by simp)) hm'
      change m.childPids.map _ = _
      rw [hb, hn, Nat.add_sub_cancel, Option.map_some, write_extend_last]
  | freed entries hc' hb hn hm' => exact absurd hm' (hm hc')
  | nulled hc' hb hn hm' =>
      rw [Parent.go, hc'] at hp
      unfold goes
      rw [hc']
      cases hp
      exact .empty rfl rfl rfl hb rfl rfl

theorem step (h : m.Mirrors) {a : ArrayAction} {m' : ChildArray} (hs : m.step a = some m') :
    m'.Mirrors := by
  obtain ⟨-, hs⟩ := Option.ite_none_left_eq_some.mp hs
  cases a with
  | reallocates inPlace =>
      obtain ⟨⟨hg, hm⟩, hs⟩ := Option.ite_none_right_eq_some.mp hs
      have hchanging : ∀ {c : ParentControl}, c.changing = false → c.grows = true → False :=
        fun hc hg ↦ nomatch (grows_eq_false hc).symm.trans hg
      cases h with
      | empty hc => exact (hchanging hc hg).elim
      | settled _ hc => exact (hchanging hc hg).elim
      | growingEmpty pid hc hp hb hn =>
          cases inPlace with
          | true =>
              rw [ChildArray.reallocates, hb] at hs
              exact nomatch hs
          | false =>
              cases hs
              exact .growingEmpty pid hc hp (by rw [hb]; rfl) hn (.inr rfl)
      | growing pid entries hc hp hb hn =>
          cases inPlace with
          | true =>
              rw [ChildArray.reallocates, hb] at hs
              cases hs
              exact .extended pid entries hc hp rfl hn rfl
          | false =>
              cases hs
              exact .moved pid entries hc hp (by rw [hb]; rfl) hn rfl
      | extended _ _ _ _ _ _ hm' | moved _ _ _ _ _ _ hm' => exact nomatch hm.symm.trans hm'
      | grown _ _ _ hc | freed _ hc | nulled hc =>
          rw [hc] at hg
          exact nomatch hg
  | nulls =>
      obtain ⟨⟨hc, hm⟩, hs⟩ := Option.ite_none_right_eq_some.mp hs
      cases hs
      cases h with
      | empty hc' | settled _ hc' => exact absurd hc (ne_freed hc')
      | growingEmpty _ hc' | growing _ _ hc' | extended _ _ hc' | moved _ _ hc' | grown _ _ _ hc' =>
          exact nomatch hc.symm.trans hc'
      | freed entries _ _ hn => exact .nulled hc rfl hn rfl
      | nulled _ _ _ hm' => exact nomatch hm.symm.trans hm'
  | parent a =>
      cases a with
      | fork pid =>
          obtain ⟨p, hp, hs⟩ := Option.map_eq_some_iff.mp hs
          obtain ⟨⟨hc, -⟩, hp⟩ := Option.ite_none_right_eq_some.mp hp
          cases hp
          cases hs
          exact h.move (by rw [hc]; rfl) rfl rfl nofun
      | realloc entry =>
          obtain ⟨hm, hs⟩ := Option.ite_none_left_eq_some.mp hs
          obtain ⟨p, hp, hs⟩ := Option.map_eq_some_iff.mp hs
          cases hs
          exact h.realloc hm hp
      | remove =>
          obtain ⟨p, hp, hs⟩ := Option.map_eq_some_iff.mp hs
          obtain ⟨hc, hp⟩ := Option.ite_none_right_eq_some.mp hp
          cases hs
          cases hl : m.parent.childPids with
          | none =>
              rw [hl] at hp
              cases hp
              exact h.move (by rw [hc]; rfl) hl.symm rfl nofun
          | some entries =>
              rw [hl] at hp
              cases hp
              exact h.move (by rw [hc]; rfl) hl.symm rfl fun _ ↦ .inr (by rw [hl]; nofun)
      | go =>
          obtain ⟨hm, hs⟩ := Option.ite_none_left_eq_some.mp hs
          obtain ⟨p, hp, hs⟩ := Option.map_eq_some_iff.mp hs
          cases hs
          exact h.go (fun hc hm' ↦ hm ⟨hc, hm'⟩) hp
      | exit | die | report =>
          obtain ⟨p, hp, hs⟩ := Option.map_eq_some_iff.mp hs
          obtain ⟨-, hp⟩ := Option.ite_none_right_eq_some.mp hp
          cases hp
          cases hs
          exact h.of_same rfl rfl
      | eof =>
          obtain ⟨p, hp, hs⟩ := Option.map_eq_some_iff.mp hs
          cases hs
          simp only [Parent.step] at hp
          split at hp
          · next pid hc =>
            obtain ⟨-, hp⟩ := Option.ite_none_right_eq_some.mp hp
            cases hp
            exact h.ended hc
          · cases hp
      | handle =>
          dsimp only at hs
          split at hs
          · cases hs
          · next n hn =>
            split at hs
            · cases hs
              exact h.of_same rfl rfl
            · next m'' hm'' =>
              obtain ⟨p, hp, hs⟩ := Option.map_eq_some_iff.mp hs
              cases hs
              exact h.handle hn hm'' hp

end Mirrors

theorem mirrors_of_reach {ok : ChildArray → ArrayAction → Prop} (h : Reach step ok start m) :
    m.Mirrors :=
  h.invariant (.empty rfl rfl rfl rfl rfl rfl) fun hm _ hs ↦ hm.step hs

/-! ## The handler -/

theorem strayed_goes (m : ChildArray) : m.goes.strayed = m.strayed := by
  unfold goes
  split <;> rfl

theorem strayed_assigns (m : ChildArray) : m.assigns.strayed = m.strayed := by
  unfold assigns
  split <;> rfl

theorem strayed_handler {m' : ChildArray} {n : ChildNotice} (h : m.sigChildHandler n = some m') :
    m'.strayed = m.strayed := by
  have hremove : m.removePidFromChildList n.pid = some m' → m'.strayed = m.strayed := by
    unfold removePidFromChildList
    intro hm
    split at hm <;> cases hm
    · rfl
    · rfl
  unfold sigChildHandler at h
  split at h
  · exact hremove h
  · exact hremove h
  · exact hremove h
  · exact hremove h
  · exact Option.some.inj h ▸ rfl
  · exact Option.some.inj h ▸ rfl

/-- A sound array is one in which the handler does not stray. -/
theorem exists_handler (h : m.Sound) (n : ChildNotice) : ∃ m', m.sigChildHandler n = some m' := by
  have hremove : ∃ m', m.removePidFromChildList n.pid = some m' := by
    obtain ⟨found, hs⟩ := Option.isSome_iff_exists.mp (sound_iff_readsWell.mp h n.pid)
    rw [removePidFromChildList, hs]
    cases found with
    | none => exact ⟨m, rfl⟩
    | some i => exact ⟨m.write i (-1), rfl⟩
  unfold sigChildHandler
  split
  · exact hremove
  · exact hremove
  · exact hremove
  · exact hremove
  · exact ⟨m, rfl⟩
  · exact ⟨m, rfl⟩

/-- Nothing but the handler strays, and it does not where the array is not changing. -/
theorem strayed_step (h : m.Mirrors) {a : ArrayAction} {m' : ChildArray} (hok : m.Masked a)
    (hs : m.step a = some m') : m'.strayed = m.strayed := by
  obtain ⟨-, hs⟩ := Option.ite_none_left_eq_some.mp hs
  cases a with
  | reallocates inPlace =>
      obtain ⟨-, hs⟩ := Option.ite_none_right_eq_some.mp hs
      cases inPlace with
      | true =>
          obtain ⟨b, -, hs⟩ := Option.map_eq_some_iff.mp hs
          exact hs ▸ rfl
      | false => exact Option.some.inj hs ▸ rfl
  | nulls =>
      obtain ⟨-, hs⟩ := Option.ite_none_right_eq_some.mp hs
      exact Option.some.inj hs ▸ rfl
  | parent a =>
      cases a with
      | fork | remove | exit | die | eof | report =>
          obtain ⟨p, -, hs⟩ := Option.map_eq_some_iff.mp hs
          exact hs ▸ rfl
      | realloc entry =>
          obtain ⟨-, hs⟩ := Option.ite_none_left_eq_some.mp hs
          obtain ⟨p, -, hs⟩ := Option.map_eq_some_iff.mp hs
          exact hs ▸ m.strayed_assigns
      | go =>
          obtain ⟨-, hs⟩ := Option.ite_none_left_eq_some.mp hs
          obtain ⟨p, -, hs⟩ := Option.map_eq_some_iff.mp hs
          exact hs ▸ m.strayed_goes
      | handle =>
          dsimp only at hs
          split at hs
          · exact nomatch hs
          · next n _ =>
            obtain ⟨m'', hm''⟩ := exists_handler (h.sound_iff.mpr (hok rfl)) n
            rw [hm''] at hs
            obtain ⟨p, -, hs⟩ := Option.map_eq_some_iff.mp hs
            have hkeep := strayed_handler hm''
            cases hs
            exact hkeep

/-- In each state that is reached, the array is sound, and the handler would read nothing
but entries of it, exactly if the main thread is not changing it; so the handler does not
stray in a run in which it is held back there. -/
theorem arraySound_of_reach (m : ChildArray) :
    (Reach step Any start m →
        (m.Sound ↔ ¬ m.Changing) ∧ ((∀ pid, m.ReadsWell pid) ↔ ¬ m.Changing)) ∧
      (Reach step Masked start m → m.strayed = false) := by
  constructor
  · intro h
    have hsound := (mirrors_of_reach h).sound_iff
    exact ⟨hsound, sound_iff_readsWell.symm.trans hsound⟩
  · intro h
    exact h.invariant_of (I := fun m ↦ m.strayed = false) mirrors_of_reach rfl
      fun hm hstrayed hok hs ↦ (strayed_step hm hok hs).trans hstrayed

/-- Two children; the handler clears the entry of the first one, and `poTato_removeChildren()` waits
for the other one. -/
theorem arraySound_of_twoChildren : ∃ m, Reach step Masked start m ∧ m.numChildren = 2 ∧
    m.childPids = some (.of [-1, 6]) ∧ m.parent.control = .wait 1 6 ∧
      m.strayed = false ∧ m.Sound ∧ ∀ pid, m.ReadsWell pid := by
  obtain ⟨m, hr, hn, hb, hw, hc⟩ : ∃ m, Reach step Masked start m ∧ m.numChildren = 2 ∧
      m.childPids = some (.of [-1, 6]) ∧ m.parent.control = .wait 1 6 ∧ ¬ m.Changing :=
    exists_reach_of_exec_decide
      [.parent (.fork 5), .parent .go, .parent .go, .parent .go, .reallocates false,
        .parent (.realloc 0), .parent .go,
        .parent (.fork 6), .parent .go, .parent .go, .parent .go, .reallocates true,
        .parent (.realloc 0), .parent .go,
        .parent (.exit 5 3), .parent .handle, .parent .remove, .parent .go, .parent .go]
      (by decide)
  have hreach := (arraySound_of_reach m).1 (hr.mono (fun _ ↦ trivial) fun _ _ ↦ trivial)
  exact ⟨m, hr, hn, hb, hw, (arraySound_of_reach m).2 hr, hreach.1.mpr hc, hreach.2.mpr hc⟩

/-- The first child ends behind `++po.numChildren`. -/
theorem not_arraySound_of_growing : ¬ ∀ m, Reach step Any start m →
    m.Sound ∧ ∀ pid, m.ReadsWell pid := by
  intro h
  obtain ⟨m, hr, hreads⟩ : ∃ m, Reach step Any start m ∧ ¬ m.ReadsWell 5 :=
    exists_reach_of_exec_decide
      [.parent (.fork 5), .parent .go, .parent .go, .parent (.exit 5 0), .parent .go] (by decide)
  exact hreads ((h m hr).2 5)

end ChildArray

end Tidbits.Potato
