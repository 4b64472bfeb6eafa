import Tidbits.Potato.Inherited

/-!
# Who owns an inherited descriptor

`_poTato_findListenerFd()` and `_poTato_handoffCleanup()` are called in any
order.  Each inherited descriptor has one owner: the table, a caller that got
it, or nobody any more, when the table code has closed it.  All three changes
of owner are the entry being overwritten.
-/

namespace Tidbits.Potato

/-- A call of the code of the table. -/
inductive TableCall
  | find (addr : Sockaddr)
  | cleanup
deriving DecidableEq, Repr

/-- The process with what its calls of `_poTato_findListenerFd()` have returned. -/
structure TableUser where
  process : NewProcess
  returned : List ℤ

namespace TableUser

open NewProcess (loopback onePort)

def start (table : List HandoffSocket) : TableUser := ⟨.start table, []⟩

/-- A call. -/
def call (t : TableUser) : TableCall → TableUser
  | .find addr =>
      let r := t.process.find addr
      { process :=
          { t.process with
            handoffSockets := t.process.handoffSockets.map fun _ ↦ r.table
            closed := t.process.closed ++ r.closed.toList }
        returned := t.returned ++ [r.fd] }
  | .cleanup => { t with process := t.process.handoffCleanup }

/-- The calls one after the other. -/
def run (t : TableUser) (calls : List TableCall) : TableUser := calls.foldl call t

/-- The descriptors in the table; the entries that are not marked as used have one. -/
def held (t : TableUser) : List ℤ := (t.process.handoffSockets.getD []).map HandoffSocket.fd

/-- How often the descriptor is in the table, was returned, and was closed. -/
def owners (t : TableUser) (fd : ℤ) : ℕ :=
  t.held.count fd + t.returned.count fd + t.process.closed.count fd

/-- The descriptor has one owner, or was closed once. -/
def OwnedOnce (t : TableUser) (fd : ℤ) : Prop :=
  (t.held.count fd = 1 ∧ fd ∉ t.returned ∧ fd ∉ t.process.closed) ∨
    (fd ∉ t.held ∧ t.returned.count fd = 1 ∧ fd ∉ t.process.closed) ∨
    (fd ∉ t.held ∧ fd ∉ t.returned ∧ t.process.closed.count fd = 1)

variable {t : TableUser} {fd : ℤ}

theorem ownedOnce_of_owners (h : t.owners fd = 1) : t.OwnedOnce fd := by
  unfold owners at h
  unfold OwnedOnce
  simp only [← List.count_eq_zero]
  omega

/-! ## The calls -/

/-- A search moves at most one descriptor out of the table. -/
theorem count_findListenerFd (addr : Sockaddr) (hfd : 0 ≤ fd) (table : List HandoffSocket) :
    let r := findListenerFd addr table
    (r.table.map HandoffSocket.fd).count fd + [r.fd].count fd + r.closed.toList.count fd =
      (table.map HandoffSocket.fd).count fd := by
  have hused : ((-1 : ℤ) == fd) = false := beq_false_of_ne (by omega)
  induction table with
  | nil => simp [findListenerFd, List.count_singleton, hused]
  | cons e es ih =>
      dsimp only at ih ⊢
      have hskip : ((e :: (findListenerFd addr es).table).map HandoffSocket.fd).count fd +
          [(findListenerFd addr es).fd].count fd +
            (findListenerFd addr es).closed.toList.count fd =
          ((e :: es).map HandoffSocket.fd).count fd := by
        simp only [List.map_cons, List.count_cons] at ih ⊢
        omega
      unfold findListenerFd
      dsimp only
      split_ifs with hmarked hport haddr
      · exact hskip
      · simp [List.count_cons, hused]
      · simp [List.count_cons, hused]
      · exact hskip

theorem owners_call (hfd : 0 ≤ fd) (t : TableUser) (c : TableCall) :
    (t.call c).owners fd = t.owners fd := by
  cases c with
  | find addr =>
      have hcount := count_findListenerFd addr hfd (t.process.handoffSockets.getD [])
      unfold owners held
      simp only [call, List.count_append]
      unfold NewProcess.find at *
      cases htable : t.process.handoffSockets with
      | none =>
          rw [htable] at hcount
          simp only [Option.map_none, Option.getD_none, findListenerFd] at hcount ⊢
          simp only [List.map_nil, List.count_nil] at hcount ⊢
          omega
      | some table =>
          rw [htable] at hcount
          simp only [Option.map_some, Option.getD_some] at hcount ⊢
          omega
  | cleanup =>
      unfold owners held call NewProcess.handoffCleanup
      cases htable : t.process.handoffSockets with
      | none => simp [htable]
      | some table =>
          have hopen : ((table.map HandoffSocket.fd).filter (0 ≤ ·)).count fd =
              (table.map HandoffSocket.fd).count fd :=
            List.count_filter (decide_eq_true hfd)
          simp only [Option.getD_none, Option.getD_some, List.map_nil, List.count_nil,
            List.count_append, hopen]
          omega

/-- Whoever owns a descriptor, there are as many owners as at the start. -/
theorem owners_run (hfd : 0 ≤ fd) (t : TableUser) (calls : List TableCall) :
    (t.run calls).owners fd = t.owners fd := by
  induction calls generalizing t with
  | nil => rfl
  | cons c calls ih => exact (ih (t.call c)).trans (owners_call hfd t c)

/-! ## After the cleanup -/

theorem call_of_none (h : t.process.handoffSockets = none) (c : TableCall) :
    (t.call c).process.handoffSockets = none := by
  cases c with
  | find addr => exact congrArg (Option.map _) h
  | cleanup =>
      show t.process.handoffCleanup.handoffSockets = none
      rw [NewProcess.handoffCleanup, h]
      exact h

theorem run_of_none (h : t.process.handoffSockets = none) (calls : List TableCall) :
    (t.run calls).process.handoffSockets = none := by
  induction calls generalizing t with
  | nil => exact h
  | cons c calls ih => exact ih (call_of_none h c)

theorem handoffSockets_handoffCleanup (p : NewProcess) :
    p.handoffCleanup.handoffSockets = none := by
  unfold NewProcess.handoffCleanup
  split
  · assumption
  · rfl

theorem run_of_cleanup (t : TableUser) {calls : List TableCall} (h : .cleanup ∈ calls) :
    (t.run calls).process.handoffSockets = none := by
  obtain ⟨before, after, rfl⟩ := List.append_of_mem h
  rw [run, List.foldl_append, List.foldl_cons]
  exact run_of_none (handoffSockets_handoffCleanup _) after

/-- **An inherited descriptor is in the table, or was returned once, or was closed once.**  After
the cleanup the table has none, and a search finds nothing. -/
theorem ownedOnce_of_run (table : List HandoffSocket) (calls : List TableCall) :
    (∀ fd, 0 ≤ fd → (table.map HandoffSocket.fd).count fd = 1 →
      ((start table).run calls).OwnedOnce fd) ∧
    (.cleanup ∈ calls → ((start table).run calls).held = [] ∧
      ∀ addr, (((start table).run calls).process.find addr).fd = -1) := by
  constructor
  · intro fd hfd hone
    refine ownedOnce_of_owners ((owners_run hfd _ calls).trans ?_)
    show (table.map HandoffSocket.fd).count fd + 0 + 0 = 1
    rw [hone]
  · intro hcleanup
    have hnone := run_of_cleanup (start table) hcleanup
    constructor
    · rw [held, hnone]
      rfl
    · intro addr
      rw [NewProcess.find, hnone]
      rfl

/-- The first search closes a descriptor, the second one returns the other. -/
theorem ownedOnce_of_onePort :
    let t := (start onePort).run [.find (loopback 2), .find (loopback 2), .cleanup]
    t.returned = [-1, 6] ∧ t.process.closed = [5] ∧ t.OwnedOnce 5 ∧ t.OwnedOnce 6 ∧ t.held = [] :=
  have h := ownedOnce_of_run onePort [.find (loopback 2), .find (loopback 2), .cleanup]
  ⟨by decide, by decide, h.1 5 (by decide) (by decide), h.1 6 (by decide) (by decide),
    (h.2 (by decide)).1⟩

end TableUser

end Tidbits.Potato
