import Mathlib.Data.Int.Order.Basic
import Tidbits.Potato.Children

/-!
# The entries of `po.childPids`

`Listing` says what the entries hold at each point of the main thread: a child is in
at most one of them, and those that `poTato_removeChildren()` has passed are cleared.
It holds whatever the handler does.
-/

namespace Tidbits.Potato

theorem length_clearPid (pid : ℤ) (entries : List ℤ) :
    (clearPid pid entries).length = entries.length := by
  induction entries with
  | nil => rfl
  | cons entry entries ih =>
      rw [clearPid]
      split_ifs
      · rfl
      · rw [List.length_cons, List.length_cons, ih]

/-- An entry is left as it is, or it is cleared. -/
theorem getElem?_clearPid (pid : ℤ) (entries : List ℤ) (j : ℕ) :
    (clearPid pid entries)[j]? = entries[j]? ∨
      entries[j]? = some pid ∧ (clearPid pid entries)[j]? = some (-1) := by
  induction entries generalizing j with
  | nil => exact .inl rfl
  | cons entry entries ih =>
      rw [clearPid]
      split_ifs with heq
      · cases j with
        | zero => exact .inr ⟨congrArg some heq, rfl⟩
        | succ j => exact .inl rfl
      · cases j with
        | zero => exact .inl rfl
        | succ j => exact ih j

namespace ParentControl

/-- The child that is in no entry yet. -/
def newborn : ParentControl → Option ℤ
  | .started pid | .reading pid | .forked pid | .growing pid | .grown pid => some pid
  | _ => none

/-- The entry whose test `poTato_removeChildren()` has passed, and which it will clear. -/
def passed : ParentControl → Option ℕ
  | .load i _ _ | .store i _ _ _ | .clamp i | .clear i => some i
  | _ => none

/-- The child whose status `poTato_removeChildren()` will add. -/
def adds : ParentControl → Option ℤ
  | .load _ pid _ | .store _ pid _ _ => some pid
  | _ => none

/-- The entry that `poTato_removeChildren()` works on, and the child that it was. -/
def works : ParentControl → Option (ℕ × ℤ)
  | .kill i pid | .wait i pid | .test i pid _ | .load i pid _ | .store i pid _ _ => some (i, pid)
  | _ => none

/-- The sum was read, and it is not stored yet. -/
def stores : ParentControl → Bool
  | .store _ _ _ _ => true
  | _ => false

/-- `poTato_fork()` waits for its child. -/
def reads : ParentControl → Bool
  | .reading _ => true
  | _ => false

/-- `po.numChildren` counts an entry that is not there yet. -/
def grows : ParentControl → Bool
  | .growing _ => true
  | _ => false

theorem of_works {c : ParentControl} {i : ℕ} {pid : ℤ} (h : c.works = some (i, pid)) :
    c.newborn = none ∧ (c.passed = none ∨ c.passed = some i) ∧
      (c.adds = none ∨ c.adds = some pid) ∧ (∀ pid, c ≠ .grown pid) ∧ ∀ i, c ≠ .clamp i := by
  cases c with
  | kill | wait | test => exact ⟨rfl, .inl rfl, .inl rfl, fun _ ↦ nofun, fun _ ↦ nofun⟩
  | load | store =>
      cases h
      exact ⟨rfl, .inr rfl, .inr rfl, fun _ ↦ nofun, fun _ ↦ nofun⟩
  | idle | started | reading | forked | growing | grown | loop | clamp | clear | freed | done
  | returned | ended | fault =>
      exact nomatch h

/-- How far `poTato_removeChildren()` is from its end. -/
def left : ParentControl → Option ℕ
  | .loop k => some (10 * k + 3)
  | .kill i _ => some (10 * i + 10)
  | .wait i _ => some (10 * i + 9)
  | .test i _ _ => some (10 * i + 8)
  | .load i _ _ => some (10 * i + 7)
  | .store i _ _ _ => some (10 * i + 6)
  | .clamp i => some (10 * i + 5)
  | .clear i => some (10 * i + 4)
  | .freed => some 2
  | .done => some 1
  | .returned _ => some 0
  | .idle | .started _ | .reading _ | .forked _ | .growing _ | .grown _ | .ended | .fault => none

/-- The entries from this one on are cleared. -/
def cleared : ParentControl → Option ℕ
  | .loop k => some k
  | .kill i _ | .wait i _ | .test i _ _ | .load i _ _ | .store i _ _ _ | .clamp i | .clear i =>
      some (i + 1)
  | .freed | .done | .returned _ => some 0
  | _ => none

end ParentControl

namespace Parent

/-- An entry that is set. -/
def entry (p : Parent) (j : ℕ) : Option ℤ :=
  match p.control with
  | .grown _ => if j + 1 = p.entries.length then none else p.entries[j]?
  | _ => p.entries[j]?

theorem entry_of_grown {p : Parent} {pid : ℤ} (h : p.control = .grown pid) (j : ℕ) :
    p.entry j = if j + 1 = p.entries.length then none else p.entries[j]? := by
  unfold entry
  rw [h]

theorem entry_of_ne_grown {p : Parent} (h : ∀ pid, p.control ≠ .grown pid) (j : ℕ) :
    p.entry j = p.entries[j]? := by
  unfold entry
  split
  · next pid heq => exact absurd heq (h pid)
  · rfl

theorem entries_clearPid {p q : Parent} {pid : ℤ}
    (hq : q.childPids = p.childPids.map (clearPid pid)) : q.entries = clearPid pid p.entries := by
  unfold entries
  rw [hq]
  cases p.childPids <;> rfl

theorem entry_clearPid {p q : Parent} {pid : ℤ} (hq : q.childPids = p.childPids.map (clearPid pid))
    (hcontrol : q.control = p.control) (j : ℕ) :
    q.entry j = p.entry j ∨ p.entry j = some pid ∧ q.entry j = some (-1) := by
  have hget := getElem?_clearPid pid p.entries j
  rw [← entries_clearPid hq] at hget
  by_cases hgrown : ∃ pid', p.control = .grown pid'
  · obtain ⟨pid', hc⟩ := hgrown
    rw [entry_of_grown (hcontrol.trans hc), entry_of_grown hc, entries_clearPid hq, length_clearPid]
    split_ifs
    · exact .inl rfl
    · rwa [← entries_clearPid hq]
  · have hnot : ∀ pid', p.control ≠ .grown pid' := fun pid' hc ↦ hgrown ⟨pid', hc⟩
    rw [entry_of_ne_grown (p := q) (hcontrol ▸ hnot), entry_of_ne_grown hnot]
    exact hget

/-- The entry that `realloc()` adds is not set. -/
theorem entry_realloc {p : Parent} {pid : ℤ} (hc : p.control = .growing pid) (e : ℤ) (j : ℕ) :
    entry { p with childPids := some (p.entries ++ [e]), control := .grown pid } j = p.entry j := by
  rw [entry_of_ne_grown (p := p) (by rw [hc]; exact fun _ ↦ nofun),
    entry_of_grown (p := { p with
      childPids := some (p.entries ++ [e])
      control := .grown pid }) rfl]
  show (if j + 1 = (p.entries ++ [e]).length then none else (p.entries ++ [e])[j]?) = _
  rw [List.length_append, List.length_singleton]
  split_ifs with hj
  · exact (List.getElem?_eq_none (by omega)).symm
  · rcases Nat.lt_or_ge j p.entries.length with hlt | hge
    · exact List.getElem?_append_left hlt
    · rw [List.getElem?_eq_none (by rw [List.length_append, List.length_singleton]; omega),
        List.getElem?_eq_none hge]

/-- The child is in an entry that `poTato_removeChildren()` has not passed. -/
def Listed (p : Parent) (pid : ℤ) : Prop :=
  ∃ j < p.entries.length, p.entry j = some pid ∧ p.control.passed ≠ some j

instance (p : Parent) (pid : ℤ) : Decidable (p.Listed pid) :=
  inferInstanceAs (Decidable (∃ j < p.entries.length, _ ∧ _))

/-- What holds of the entries. -/
structure Listing (p : Parent) : Prop where
  positive : ∀ pid ∈ p.pids, 0 < pid
  newborn : ∀ pid ∈ p.control.newborn, pid ∈ p.pids
  known : ∀ j pid, p.entry j = some pid → 0 < pid → pid ∈ p.pids ∧ p.control.newborn ≠ some pid
  /-- No child is in two entries. -/
  distinct : ∀ i j pid, 0 < pid → p.entry i = some pid → p.entry j = some pid → i = j
  works : ∀ i pid, p.control.works = some (i, pid) → pid ∈ p.pids ∧ i < p.entries.length ∧
    (p.entry i = some pid ∨ p.entry i = some (-1)) ∧ ∀ j, j ≠ i → p.entry j ≠ some pid
  cleared : ∀ k, p.control.cleared = some k → ∀ j e, k ≤ j → p.entry j = some e → e < 1
  grown : ∀ pid, p.control = .grown pid → p.entries ≠ []
  /-- The first child makes the array. -/
  first : p.control = .idle → p.childPids = none → p.pids = ∅

namespace Listing

variable {p q : Parent}

/-- Entries are cleared, if anything, and the main thread moves on. -/
theorem move (h : p.Listing) (hpids : q.pids = p.pids)
    (hlength : q.entries.length = p.entries.length)
    (hentry : ∀ j, q.entry j = p.entry j ∨ q.entry j = some (-1))
    (hnewborn : ∀ pid ∈ q.control.newborn, pid ∈ p.control.newborn)
    (hworks : ∀ i pid, q.control.works = some (i, pid) →
      p.control.works = some (i, pid) ∨ i < p.entries.length ∧ p.entry i = some pid ∧ 0 < pid)
    (hcleared : ∀ k, q.control.cleared = some k → ∀ j e, k ≤ j → q.entry j = some e → e < 1)
    (hgrown : ∀ pid, q.control = .grown pid → q.entries ≠ [])
    (hfirst : q.control = .idle → q.childPids = none → q.pids = ∅) : q.Listing := by
  -- an entry that holds a child held it before
  have hold : ∀ j pid, 0 < pid → q.entry j = some pid → p.entry j = some pid := by
    intro j pid hpos hj
    rcases hentry j with hsame | hneg
    · exact hsame.symm.trans hj
    · rw [hneg] at hj
      cases hj
      exact absurd hpos (by decide)
  refine ⟨hpids ▸ h.positive, fun pid hpid ↦ hpids ▸ h.newborn pid (hnewborn pid hpid),
    fun j pid hj hpos ↦ ?_, fun i j pid hpos hi hj ↦ ?_, fun i pid hw ↦ ?_, hcleared, hgrown,
    hfirst⟩
  · obtain ⟨hin, hnot⟩ := h.known j pid (hold j pid hpos hj) hpos
    exact ⟨hpids ▸ hin, fun heq ↦ hnot (hnewborn pid heq)⟩
  · exact h.distinct i j pid hpos (hold i pid hpos hi) (hold j pid hpos hj)
  · have hworks' : pid ∈ p.pids ∧ i < p.entries.length ∧
        (p.entry i = some pid ∨ p.entry i = some (-1)) ∧ ∀ j, j ≠ i → p.entry j ≠ some pid := by
      rcases hworks i pid hw with hsame | ⟨hlt, hi, hpos⟩
      · exact h.works i pid hsame
      · exact ⟨(h.known i pid hi hpos).1, hlt, .inl hi,
          fun j hne hj ↦ hne (h.distinct j i pid hpos hj hi)⟩
    obtain ⟨hin, hlt, hi, hothers⟩ := hworks'
    refine ⟨hpids ▸ hin, hlength ▸ hlt, ?_, fun j hne hj ↦
      hothers j hne (hold j pid (h.positive pid hin) hj)⟩
    rcases hentry i with hsame | hneg
    · rw [hsame]
      exact hi
    · exact .inr hneg

/-- States, signals and statuses do not matter. -/
theorem of_same (h : p.Listing) (hpids : q.pids = p.pids) (hchildPids : q.childPids = p.childPids)
    (hcontrol : q.control = p.control) : q.Listing := by
  obtain ⟨pids, state, pending, childPids, exitStatus, control⟩ := q
  dsimp only at hpids hchildPids hcontrol
  subst hpids hchildPids hcontrol
  exact ⟨h.positive, h.newborn, h.known, h.distinct, h.works, h.cleared, h.grown, h.first⟩

/-- The main thread moves on. -/
theorem setControl (h : p.Listing) (c : ParentControl) (hidle : c ≠ .idle)
    (hgrown : ∀ pid, p.control ≠ .grown pid) (hgrown' : ∀ pid, c ≠ .grown pid)
    (hnewborn : ∀ pid ∈ c.newborn, pid ∈ p.control.newborn)
    (hworks : ∀ i pid, c.works = some (i, pid) → p.control.works = some (i, pid) ∨
      i < p.entries.length ∧ p.entries[i]? = some pid ∧ 0 < pid)
    (hcleared : ∀ k, c.cleared = some k → ∀ j e, k ≤ j → p.entries[j]? = some e → e < 1) :
    Listing { p with control := c } := by
  have hentry : ∀ j, p.entry j = p.entries[j]? := fun j ↦ entry_of_ne_grown hgrown j
  have hentry' : ∀ j, entry { p with control := c } j = p.entries[j]? :=
    fun j ↦ entry_of_ne_grown hgrown' j
  refine h.move rfl rfl (fun j ↦ .inl ((hentry' j).trans (hentry j).symm)) hnewborn
    (fun i pid hw ↦ ?_) (fun k hk j e hj he ↦ hcleared k hk j e hj ((hentry' j).symm.trans he))
    (fun pid heq ↦ absurd heq (hgrown' pid)) (fun heq ↦ absurd heq hidle)
  rw [hentry i]
  exact hworks i pid hw

theorem start : Listing .start where
  positive := fun _ hin ↦ absurd hin (Finset.notMem_empty _)
  newborn := fun _ heq ↦ nomatch heq
  known := fun _ _ heq ↦ nomatch heq
  distinct := fun _ _ _ _ heq ↦ nomatch heq
  works := fun _ _ heq ↦ nomatch heq
  cleared := fun _ heq ↦ nomatch heq
  grown := fun _ heq ↦ nomatch heq
  first := fun _ _ ↦ rfl

/-- The entry of the new child is set. -/
theorem assign (h : p.Listing) {pid : ℤ} (hc : p.control = .grown pid) :
    Listing { p with
      childPids := some (p.entries.set (p.entries.length - 1) pid), control := .idle } := by
  have hlength : 0 < p.entries.length := List.length_pos_of_ne_nil (h.grown pid hc)
  obtain hin := h.newborn pid (by rw [hc]; rfl)
  -- the last entry is the child, and the others are what they were
  have hentry : ∀ j e, (p.entries.set (p.entries.length - 1) pid)[j]? = some e →
      j + 1 = p.entries.length ∧ e = pid ∨ p.entry j = some e := by
    intro j e he
    unfold entry
    rw [hc]
    dsimp only
    by_cases hj : j + 1 = p.entries.length
    · rw [← hj, Nat.add_sub_cancel, List.getElem?_set_self (by omega)] at he
      exact .inl ⟨hj, (Option.some.inj he).symm⟩
    · rw [List.getElem?_set_ne (by omega)] at he
      rw [if_neg hj]
      exact .inr he
  have hnot : ∀ j, p.entry j ≠ some pid := by
    intro j hj
    refine (h.known j pid hj (h.positive pid hin)).2 ?_
    rw [hc]
    rfl
  refine ⟨h.positive, fun _ heq ↦ (nomatch heq), fun j e he hpos ↦ ?_, fun i j e hpos hi hj ↦ ?_,
    fun _ _ heq ↦ (nomatch heq), fun _ heq ↦ (nomatch heq), fun _ heq ↦ (nomatch heq),
    fun _ heq ↦ (nomatch heq)⟩
  · refine ⟨?_, fun heq ↦ nomatch heq⟩
    rcases hentry j e he with ⟨-, rfl⟩ | hj
    · exact hin
    · exact (h.known j e hj hpos).1
  · rcases hentry i e hi with ⟨hlast, rfl⟩ | hi'
    · rcases hentry j e hj with ⟨hlast', -⟩ | hj'
      · omega
      · exact absurd hj' (hnot j)
    · rcases hentry j e hj with ⟨-, rfl⟩ | hj'
      · exact absurd hi' (hnot i)
      · exact h.distinct i j e hpos hi' hj'

/-- The array has a new entry. -/
theorem realloc (h : p.Listing) {pid : ℤ} (hc : p.control = .growing pid) (e : ℤ) :
    Listing { p with childPids := some (p.entries ++ [e]), control := .grown pid } := by
  have hentry := entry_realloc hc e
  have hnewborn : ParentControl.newborn (.grown pid) = p.control.newborn := by
    rw [hc]
    rfl
  refine ⟨h.positive, fun pid' heq ↦ h.newborn pid' (hnewborn ▸ heq), fun j pid' hj hpos ↦ ?_,
    fun i j pid' hpos hi hj ↦ ?_, fun _ _ heq ↦ (nomatch heq), fun _ heq ↦ (nomatch heq),
    fun _ _ ↦ List.append_ne_nil_of_right_ne_nil _ (List.cons_ne_nil _ _),
    fun heq ↦ (nomatch heq)⟩
  · dsimp only
    rw [hnewborn]
    exact h.known j pid' ((hentry j).symm.trans hj) hpos
  · exact h.distinct i j pid' hpos ((hentry i).symm.trans hi) ((hentry j).symm.trans hj)

/-- The handler clears an entry. -/
theorem clearPid (h : p.Listing) (pid : ℤ) :
    Listing { p with childPids := p.childPids.map (Potato.clearPid pid) } := by
  let q : Parent := { p with childPids := p.childPids.map (Potato.clearPid pid) }
  have hlength : q.entries.length = p.entries.length := by
    rw [entries_clearPid (q := q) rfl, length_clearPid]
  have hentry : ∀ j, q.entry j = p.entry j ∨ q.entry j = some (-1) :=
    fun j ↦ (entry_clearPid (q := q) rfl rfl j).imp_right And.right
  refine h.move (q := q) rfl hlength hentry (fun _ heq ↦ heq) (fun _ _ hw ↦ .inl hw)
    (fun k hk j e hj he ↦ ?_) (fun pid' hc heq ↦ h.grown pid' hc ?_) (fun hidle hnone ↦ ?_)
  · rcases hentry j with hsame | hneg
    · exact h.cleared k hk j e hj (hsame.symm.trans he)
    · rw [hneg] at he
      cases he
      decide
  · rw [← List.length_eq_zero_iff, ← hlength, heq, List.length_nil]
  · exact h.first hidle (Option.map_eq_none_iff.mp hnone)

/-- `poTato_removeChildren()` clears an entry. -/
theorem clear (h : p.Listing) {i : ℕ} (hc : p.control = .clear i) :
    Listing { p with childPids := some (p.entries.set i (-1)), control := .loop i } := by
  let q : Parent := { p with childPids := some (p.entries.set i (-1)), control := .loop i }
  have hgrown : ∀ pid, p.control ≠ .grown pid := by
    rw [hc]
    exact fun _ heq ↦ nomatch heq
  have hentry : ∀ j, q.entry j = p.entry j ∨ q.entry j = some (-1) := by
    intro j
    rw [entry_of_ne_grown hgrown, show q.entry j = (p.entries.set i (-1))[j]? from rfl,
      List.getElem?_set]
    split_ifs with hij hlt
    · exact .inr rfl
    · subst hij
      exact .inl (List.getElem?_eq_none (Nat.le_of_not_lt hlt)).symm
    · exact .inl rfl
  refine h.move (q := q) rfl List.length_set hentry (fun _ heq ↦ nomatch heq)
    (fun _ _ hw ↦ nomatch hw) (fun k hk j e hj he ↦ ?_) (fun _ heq ↦ nomatch heq)
    (fun heq ↦ nomatch heq)
  cases hk
  rw [show q.entry j = (p.entries.set i (-1))[j]? from rfl, List.getElem?_set] at he
  split_ifs at he with hij hlt
  · cases he
    decide
  · refine h.cleared (i + 1) (by rw [hc]; rfl) j e (by omega) ?_
    rwa [entry_of_ne_grown hgrown]

theorem free (h : p.Listing) : Listing { p with childPids := none, control := .done } where
  positive := h.positive
  newborn := fun _ heq ↦ nomatch heq
  known := fun _ _ heq ↦ nomatch heq
  distinct := fun _ _ _ _ heq ↦ nomatch heq
  works := fun _ _ heq ↦ nomatch heq
  cleared := fun _ _ _ _ _ heq ↦ nomatch heq
  grown := fun _ heq ↦ nomatch heq
  first := fun heq ↦ nomatch heq

theorem fork (h : p.Listing) (hc : p.control = .idle) {pid : ℤ} (hpos : 0 < pid)
    (hnew : pid ∉ p.pids) (state : ℤ → ChildState) :
    Listing { p with pids := insert pid p.pids, state := state, control := .started pid } := by
  have hgrown : ∀ pid, p.control ≠ .grown pid := by
    rw [hc]
    exact fun _ heq ↦ nomatch heq
  refine ⟨fun pid' hin ↦ ?_, fun pid' heq ↦ ?_, fun j pid' hj hpos' ↦ ?_,
    fun i j pid' hpos' hi hj ↦ ?_, fun _ _ heq ↦ (nomatch heq), fun _ heq ↦ (nomatch heq),
    fun _ heq ↦ (nomatch heq), fun heq ↦ (nomatch heq)⟩
  · rcases Finset.mem_insert.mp hin with rfl | hin
    · exact hpos
    · exact h.positive pid' hin
  · cases heq
    exact Finset.mem_insert_self _ _
  · have hin := (h.known j pid' ((entry_of_ne_grown hgrown j).trans hj) hpos').1
    refine ⟨Finset.mem_insert_of_mem hin, fun heq ↦ hnew ?_⟩
    cases heq
    exact hin
  · exact h.distinct i j pid' hpos' ((entry_of_ne_grown hgrown i).trans hi)
      ((entry_of_ne_grown hgrown j).trans hj)

theorem remove (h : p.Listing) (hc : p.control = .idle) :
    (∀ entries, p.childPids = some entries → Listing { p with control := .loop entries.length }) ∧
      (p.childPids = none → Listing { p with control := .returned 0 }) := by
  have hgrown : ∀ pid, p.control ≠ .grown pid := by
    rw [hc]
    exact fun _ heq ↦ nomatch heq
  constructor
  · intro entries hsome
    have hentries : p.entries = entries := by
      rw [Parent.entries, hsome]
      rfl
    refine h.setControl _ (nomatch ·) hgrown (fun _ heq ↦ nomatch heq) (fun _ heq ↦ nomatch heq)
      (fun _ _ heq ↦ nomatch heq) fun k hk j e hj he ↦ ?_
    cases hk
    rw [hentries, List.getElem?_eq_none hj] at he
    exact nomatch he
  · intro hnone
    have hentries : p.entries = [] := by
      rw [Parent.entries, hnone]
      rfl
    refine h.setControl _ (nomatch ·) hgrown (fun _ heq ↦ nomatch heq) (fun _ heq ↦ nomatch heq)
      (fun _ _ heq ↦ nomatch heq) fun k hk j e hj he ↦ ?_
    rw [hentries] at he
    exact nomatch he

/-- `poTato_removeChildren()` moves on, with the same entries in front of it. -/
theorem keep (h : p.Listing) {c d : ParentControl} {k : ℕ} (hc : p.control = c)
    (hk : c.cleared = some k) (hk' : d.cleared = some k)
    (hworks : ∀ w, d.works = some w → c.works = some w) : Listing { p with control := d } := by
  have hne : ∀ {c : ParentControl}, c.cleared = some k →
      c ≠ .idle ∧ c.newborn = none ∧ ∀ pid, c ≠ .grown pid := by
    intro c hk
    cases c with
    | idle | started | reading | forked | growing | grown | ended | fault => exact nomatch hk
    | loop | kill | wait | test | load | store | clamp | clear | freed | done | returned =>
        exact ⟨nofun, rfl, fun _ ↦ nofun⟩
  subst hc
  refine h.setControl d (hne hk').1 (hne hk).2.2 (hne hk').2.2 ?_
    (fun i pid hw ↦ .inl (hworks (i, pid) hw)) fun k' hk'' j e hj he ↦ ?_
  · rw [(hne hk').2.1]
    exact fun _ heq ↦ nomatch heq
  · obtain rfl := Option.some.inj (hk'.symm.trans hk'')
    exact h.cleared k hk j e hj ((entry_of_ne_grown (hne hk).2.2 j).trans he)

/-- The loop steps over an entry that is cleared. -/
theorem skip (h : p.Listing) {i : ℕ} (hk : p.control.cleared = some (i + 1))
    (hgrown : ∀ pid, p.control ≠ .grown pid) (hskip : p.entries.getD i (-1) < 1) :
    Listing { p with control := .loop i } := by
  refine h.setControl (.loop i) nofun hgrown (fun _ ↦ nofun) (fun _ heq ↦ nomatch heq)
    (fun _ _ hw ↦ nomatch hw) fun k hk' j e hj he ↦ ?_
  cases hk'
  rcases Nat.lt_or_eq_of_le hj with hlt | rfl
  · exact h.cleared (i + 1) hk j e hlt ((entry_of_ne_grown hgrown j).trans he)
  · rwa [List.getD_eq_getElem?_getD, he] at hskip

/-- The loop has an entry to clear. -/
theorem take (h : p.Listing) {i : ℕ} (hc : p.control = .loop (i + 1))
    (hset : ¬ p.entries.getD i (-1) < 1) :
    Listing { p with control := .kill i (p.entries.getD i (-1)) } := by
  have hgrown : ∀ pid, p.control ≠ .grown pid := by
    rw [hc]
    exact fun _ ↦ nofun
  have hlt : i < p.entries.length := by
    by_contra hge
    rw [List.getD_eq_getElem?_getD, List.getElem?_eq_none (Nat.le_of_not_lt hge)] at hset
    exact hset (by decide)
  refine h.setControl _ nofun hgrown (fun _ ↦ nofun) (fun _ heq ↦ nomatch heq) ?_ ?_
  · rintro i' pid hw
    cases hw
    refine .inr ⟨hlt, ?_, by omega⟩
    rw [List.getD_eq_getElem?_getD, List.getElem?_eq_getElem hlt, Option.getD_some]
  · intro k hk j e hj he
    cases hk
    exact h.cleared (i + 1) (by rw [hc]; rfl) j e hj ((entry_of_ne_grown hgrown j).trans he)

theorem go (h : p.Listing) (hq : p.go = some q) : q.Listing := by
  unfold Parent.go at hq
  split at hq
  case h_1 pid hc | h_2 pid hc | h_3 pid hc =>
    cases hq
    refine h.setControl _ nofun ?_ (fun _ ↦ nofun) ?_ (fun _ _ hw ↦ nomatch hw)
      (fun _ hk ↦ nomatch hk)
    · rw [hc]
      exact fun _ ↦ nofun
    · rw [hc]
      exact fun _ heq ↦ heq
  · next pid hc =>
    cases hq
    exact h.assign hc
  · next hc =>
    cases hq
    exact h.keep hc rfl rfl (fun _ hw ↦ nomatch hw)
  · next i hc =>
    dsimp only at hq
    split_ifs at hq with hskip
    · cases hq
      exact h.skip (by rw [hc]; rfl) (by rw [hc]; exact fun _ ↦ nofun) hskip
    · cases hq
      exact h.take hc hskip
  · next i pid hc =>
    split_ifs at hq with hskip
    · cases hq
      exact h.skip (by rw [hc]; rfl) (by rw [hc]; exact fun _ ↦ nofun) hskip
    · cases hq
      exact h.keep hc rfl rfl (fun _ hw ↦ hw)
  · next i pid hc =>
    split at hq <;> cases hq
    · exact h.keep hc rfl rfl (fun _ hw ↦ hw)
    · exact h.keep hc rfl rfl (fun _ hw ↦ hw)
  · next i pid status hc =>
    split_ifs at hq
    · cases hq
      exact h.keep hc rfl rfl (fun _ hw ↦ hw)
    · cases hq
      exact h.keep hc rfl rfl (fun _ hw ↦ nomatch hw)
  · next i pid status hc =>
    cases hq
    exact h.keep hc rfl rfl (fun _ hw ↦ hw)
  · next i pid status sum hc =>
    cases hq
    exact (h.keep hc rfl (d := .clamp i) rfl (fun _ hw ↦ nomatch hw)).of_same rfl rfl rfl
  · next i hc =>
    cases hq
    exact (h.keep hc rfl (d := .clear i) rfl (fun _ hw ↦ nomatch hw)).of_same rfl rfl rfl
  · next i hc =>
    cases hq
    exact h.clear hc
  · next hc =>
    cases hq
    exact h.free
  · next hc =>
    cases hq
    exact h.keep hc rfl rfl (fun _ hw ↦ nomatch hw)
  all_goals exact nomatch hq

theorem fault (h : p.Listing) (hgrown : ∀ pid, p.control ≠ .grown pid) :
    Listing { p with control := .fault } :=
  h.setControl .fault nofun hgrown (fun _ ↦ nofun) (fun _ heq ↦ nomatch heq)
    (fun _ _ hw ↦ nomatch hw) (fun _ hk ↦ nomatch hk)

theorem ended (h : p.Listing) {pid : ℤ} (hc : p.control = .reading pid) :
    Listing { p with control := .ended } :=
  h.setControl .ended nofun (by rw [hc]; exact fun _ ↦ nofun) (fun _ ↦ nofun)
    (fun _ heq ↦ nomatch heq) (fun _ _ hw ↦ nomatch hw) (fun _ hk ↦ nomatch hk)

theorem interrupted (h : p.Listing) : p.interrupted.Listing := by
  unfold Parent.interrupted
  split
  · next pid hc => exact h.ended hc
  · exact h

theorem removePid (h : p.Listing) (pid : ℤ) : (p.removePidFromChildList pid).Listing := by
  unfold removePidFromChildList
  split
  · next pid' hc =>
    split_ifs
    · exact h.clearPid pid
    · exact h.fault (by rw [hc]; exact fun _ ↦ nofun)
  · next hc => exact h.fault (by rw [hc]; exact fun _ ↦ nofun)
  · exact h.clearPid pid

theorem handler (h : p.Listing) (n : ChildNotice) : (p.sigChildHandler n).Listing := by
  unfold sigChildHandler
  split
  case h_5 | h_6 => exact h
  case h_4 => exact h.removePid n.pid
  all_goals
    refine removePid ?_ n.pid
    exact h.of_same rfl rfl rfl

theorem step (h : p.Listing) {a : ParentAction} (hq : p.step a = some q) : q.Listing := by
  cases a with
  | fork pid =>
      obtain ⟨⟨hc, hpos, hnew⟩, hq⟩ := Option.ite_none_right_eq_some.mp hq
      cases hq
      exact h.fork hc hpos hnew _
  | realloc e =>
      simp only [Parent.step] at hq
      split at hq <;> cases hq
      next pid hc => exact h.realloc hc e
  | remove =>
      obtain ⟨hc, hq⟩ := Option.ite_none_right_eq_some.mp hq
      split at hq <;> cases hq
      · next hnone => exact (h.remove hc).2 hnone
      · next entries hsome => exact (h.remove hc).1 entries hsome
  | go => exact h.go hq
  | exit pid status =>
      obtain ⟨-, hq⟩ := Option.ite_none_right_eq_some.mp hq
      cases hq
      exact h.of_same rfl rfl rfl
  | die pid dumped =>
      obtain ⟨-, hq⟩ := Option.ite_none_right_eq_some.mp hq
      cases hq
      exact h.of_same rfl rfl rfl
  | eof =>
      simp only [Parent.step] at hq
      split at hq
      · next pid hc =>
        obtain ⟨-, hq⟩ := Option.ite_none_right_eq_some.mp hq
        cases hq
        exact h.ended hc
      · exact nomatch hq
  | report pid code =>
      obtain ⟨-, hq⟩ := Option.ite_none_right_eq_some.mp hq
      cases hq
      exact h.of_same rfl rfl rfl
  | handle =>
      obtain ⟨-, hq⟩ := Option.ite_none_left_eq_some.mp hq
      split at hq <;> cases hq
      next n hn =>
        refine (handler ?_ n).interrupted
        exact h.of_same rfl rfl rfl

end Listing

end Parent

end Tidbits.Potato
