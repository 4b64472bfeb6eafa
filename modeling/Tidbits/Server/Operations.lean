import Tidbits.Server.Sound

/-!
# The functions of the server keep its connections in order

For each function of `Tidbits.Server.Store`, that `Slots` and `Tasks` hold after
it.  The condition on the caller is always that the connection has an open socket;
`removeConnection` needs in addition that no task holds the mutex of the
connection, as such a task has compared its change count already.
-/

namespace Tidbits.Server

variable {cfg : Config} {P : ℕ → ℕ → Prop}

namespace Store

variable {s s' : Store cfg} {c : ConnId cfg} {conn : Connection} {i : ℕ} {w : Worker cfg}

/-! ## Writing a connection struct -/

@[simp] theorem setConn_self (s : Store cfg) (c : ConnId cfg) (conn : Connection) :
    (s.setConn c conn).conn c = conn := by
  simp [setConn]

theorem setConn_of_ne {x : ConnId cfg} (h : x ≠ c) : (s.setConn c conn).conn x = s.conn x := by
  simp [setConn, h]

theorem sameUse_setConn (huse : (s.conn c).SameUse conn) (x : ConnId cfg) :
    (s.conn x).SameUse ((s.setConn c conn).conn x) := by
  by_cases hx : x = c
  · subst hx
    rwa [setConn_self]
  · rw [setConn_of_ne hx]
    exact .refl _

namespace Slots

/-- `Slots` is about the structs, the lists and the removals only. -/
theorem congr (h : s.Slots P) (hconn : s'.conn = s.conn) (hlists : s'.lists = s.lists)
    (haccepts : s'.accepts = s.accepts)
    (hhistory : ∀ o ∈ s'.history, o ∈ s.history ∨ o.removedNo = none) : s'.Slots P where
  partitioned := by
    unfold Partitioned
    rw [hconn, hlists]
    exact h.partitioned
  closed := hconn ▸ h.closed
  marked := hconn ▸ h.marked
  markedFor := hconn ▸ h.markedFor
  acceptNo_lt := by
    rw [hconn, haccepts]
    exact h.acceptNo_lt
  not_removed := by
    rw [hconn]
    intro c hopen o ho
    rcases hhistory o ho with ho | ho
    · exact h.not_removed c hopen o ho
    · simp [ho]
  distinct := hconn ▸ h.distinct
  removed_lt := by
    rw [haccepts]
    intro o ho n hn
    rcases hhistory o ho with ho | ho
    · exact h.removed_lt o ho n hn
    · simp [ho] at hn

/-- An open connection may be written as long as it stays the same accepted connection. -/
theorem setConn (h : s.Slots P) (hopen : 0 ≤ (s.conn c).fd) (huse : (s.conn c).SameUse conn)
    (hmarked : conn.markedForRemoval = true → cfg.threadPool = true)
    (hfor : ∀ n ∈ conn.markedFor, P n conn.acceptNo) : (s.setConn c conn).Slots P := by
  have hsame := sameUse_setConn huse
  have hfd : ∀ x, ((s.setConn c conn).conn x).fd = (s.conn x).fd := fun x ↦ (hsame x).fd
  have hno : ∀ x, ((s.setConn c conn).conn x).acceptNo = (s.conn x).acceptNo :=
    fun x ↦ (hsame x).acceptNo
  refine ⟨?_, ?_, ?_, ?_, ?_, ?_, ?_, h.removed_lt⟩
  · obtain ⟨used, unused, hholds, hall, hused⟩ := h.partitioned
    refine ⟨used, unused, hholds, hall, fun x ↦ ?_⟩
    rw [hfd]
    exact hused x
  · intro x hx
    rw [hfd] at hx
    have hne : x ≠ c := by
      rintro rfl
      exact Int.not_lt.mpr hopen hx
    rw [setConn_of_ne hne]
    exact h.closed x hx
  · intro x hx
    rw [hfd]
    by_cases hc : x = c
    · subst hc
      rw [setConn_self] at hx
      exact ⟨hmarked hx, hopen⟩
    · rw [setConn_of_ne hc] at hx
      exact h.marked x hx
  · intro x n hn
    by_cases hc : x = c
    · subst hc
      rw [setConn_self] at hn ⊢
      exact hfor n hn
    · rw [setConn_of_ne hc] at hn ⊢
      exact h.markedFor x n hn
  · intro x hx
    rw [hfd] at hx
    rw [hno]
    exact h.acceptNo_lt x hx
  · intro x hx
    rw [hfd] at hx
    rw [hno]
    exact h.not_removed x hx
  · intro x y hx hy hxy
    rw [hfd] at hx hy
    rw [hno, hno] at hxy
    exact h.distinct x y hx hy hxy

end Slots

namespace Task

/-- A task depends on its struct and on its mutex. -/
theorem congr (h : s.Task P i w) (huse : (s.conn w.conn).SameUse (s'.conn w.conn))
    (hworkers : s.workers ≤ s'.workers)
    (hlocks : w.place.Locks → s'.connMutex w.conn = s.connMutex w.conn) : s'.Task P i w where
  threadPool := h.threadPool
  fresh := h.fresh.trans_le hworkers
  source := h.source
  changeCount_le := huse.changeCount ▸ h.changeCount_le
  current := by
    rw [huse.changeCount, huse.fd, huse.acceptNo]
    exact h.current
  serving := fun phase hp ↦ huse.changeCount.trans (h.serving phase hp)
  locks := fun hl ↦ (hlocks hl).trans (h.locks hl)

end Task

namespace Tasks

theorem congr (h : s.Tasks P) (hworker : s'.worker = s.worker)
    (huse : ∀ c, (s.conn c).SameUse (s'.conn c)) (hworkers : s.workers ≤ s'.workers)
    (hmutex : s'.connMutex = s.connMutex) : s'.Tasks P := by
  intro i w hw
  rw [hworker] at hw
  exact (h i w hw).congr (huse w.conn) hworkers fun _ ↦ congrFun hmutex w.conn

end Tasks

/-! ## Mutexes -/

/-- A mutex that is free or held by the task may be locked or unlocked by it, and no
other task notices. -/
theorem Tasks.setMutex {owner : Option ℕ} (h : s.Tasks P)
    (hc : s.connMutex c = none ∨ s.connMutex c = some i) {j : ℕ} (hji : j ≠ i)
    (hj : s.worker j = some w) : (s.setMutex c owner).Task P j w := by
  refine (h j w hj).congr (.refl _) le_rfl fun hlocks ↦ ?_
  have hne : w.conn ≠ c := by
    rintro rfl
    have hown := (h j w hj).locks hlocks
    rcases hc with hc | hc
    · simp [hc] at hown
    · rw [hc] at hown
      exact hji (Option.some.inj hown).symm
  exact Function.update_of_ne hne owner s.connMutex

/-- Setting or freeing a task leaves the others alone. -/
theorem tasks_setWorker {w' : Option (Worker cfg)}
    (hrest : ∀ j w, j ≠ i → s.worker j = some w → s.Task P j w) (hself : ∀ w ∈ w', s.Task P i w) :
    (s.setWorker i w').Tasks P := by
  intro j w hj
  refine Task.congr (s := s) ?_ (.refl _) le_rfl fun _ ↦ rfl
  by_cases hji : j = i
  · subst hji
    refine hself w ?_
    simpa [setWorker] using hj
  · refine hrest j w hji ?_
    simpa [setWorker, hji] using hj

/-! ## Removing a connection -/

theorem removeConnection_eq (hopen : 0 ≤ (s.conn c).fd) :
    s.removeConnection c true =
      { s with
        lists := s.lists.listRemove c
        history := .removed (s.conn c).acceptNo (decide (c ∈ s.lists.usedWalk))
          (s.conn c).cleanupCallback.isSome :: s.history }.setConn c
        ((s.conn c).reset cfg.threadPool) := by
  simp [removeConnection, hopen]

theorem exited_removeConnection {ok : Bool} (h : ok = false ∨ ¬ 0 ≤ (s.conn c).fd) :
    (s.removeConnection c ok).exited = true := by
  have hcond : (ok && decide (0 ≤ (s.conn c).fd)) = false := by
    rcases h with h | h <;> simp [h]
  simp [removeConnection, hcond]

theorem removeConnection_fd (hopen : 0 ≤ (s.conn c).fd) :
    ((s.removeConnection c true).conn c).fd = -1 := by
  rw [removeConnection_eq hopen, setConn_self]
  rfl

theorem removeConnection_of_ne (hopen : 0 ≤ (s.conn c).fd) {x : ConnId cfg} (hx : x ≠ c) :
    (s.removeConnection c true).conn x = s.conn x := by
  rw [removeConnection_eq hopen, setConn_of_ne hx]

/-- What is still open after the removal is another connection, as it was. -/
theorem open_of_removeConnection (hopen : 0 ≤ (s.conn c).fd) {x : ConnId cfg}
    (hx : 0 ≤ ((s.removeConnection c true).conn x).fd) :
    x ≠ c ∧ (s.removeConnection c true).conn x = s.conn x ∧ 0 ≤ (s.conn x).fd := by
  have hne : x ≠ c := by
    rintro rfl
    rw [removeConnection_fd hopen] at hx
    exact absurd hx (by decide)
  rw [removeConnection_of_ne hopen hne] at hx
  exact ⟨hne, removeConnection_of_ne hopen hne, hx⟩

/-- What has been removed after the removal. -/
theorem removedNo_of_removeConnection (hopen : 0 ≤ (s.conn c).fd) {o : Observation} {n : ℕ}
    (ho : o ∈ (s.removeConnection c true).history) (hn : n ∈ o.removedNo) :
    n = (s.conn c).acceptNo ∨ ∃ o ∈ s.history, n ∈ o.removedNo := by
  rw [removeConnection_eq hopen] at ho
  rcases List.mem_cons.mp ho with rfl | ho
  · exact .inl (Option.some.inj hn).symm
  · exact .inr ⟨o, ho, hn⟩

theorem removeConnection_accepts (hopen : 0 ≤ (s.conn c).fd) :
    (s.removeConnection c true).accepts = s.accepts := by
  rw [removeConnection_eq hopen]
  rfl

theorem Partitioned.removeConnection (h : s.Partitioned) (hopen : 0 ≤ (s.conn c).fd) :
    (s.removeConnection c true).Partitioned := by
  obtain ⟨used, unused, hholds, hall, hused⟩ := h
  obtain ⟨used₁, used₂, rfl⟩ := List.append_of_mem ((hused c).mpr hopen)
  have hnotMem : c ∉ used₁ ++ used₂ := by
    have hnodup := List.nodup_middle.mp (List.nodup_append.mp hholds.nodup).1
    exact (List.nodup_cons.mp hnodup).1
  refine ⟨used₁ ++ used₂, unused ++ [c], ?_, fun x ↦ ?_, fun x ↦ ?_⟩
  · rw [removeConnection_eq hopen]
    exact hholds.listRemove
  · by_cases hx : x = c
    · simp [hx]
    · simpa [hx] using hall x
  · by_cases hx : x = c
    · subst hx
      rw [removeConnection_fd hopen]
      exact iff_of_false hnotMem (by decide)
    · rw [removeConnection_of_ne hopen hx, ← hused x]
      simp [hx]

theorem Slots.removeConnection (h : s.Slots P) (hopen : 0 ≤ (s.conn c).fd) :
    (s.removeConnection c true).Slots P := by
  refine ⟨h.partitioned.removeConnection hopen, ?_, ?_, ?_, ?_, ?_, ?_, ?_⟩
  · intro x hx
    by_cases hne : x = c
    · subst hne
      rw [removeConnection_eq hopen, setConn_self]
      exact Connection.closed_reset cfg.threadPool
    · rw [removeConnection_of_ne hopen hne] at hx ⊢
      exact h.closed x hx
  · intro x hx
    by_cases hne : x = c
    · subst hne
      rw [removeConnection_eq hopen, setConn_self] at hx
      -- the build with threads clears the mark, the other one never has it
      have hmarked : (s.conn x).markedForRemoval = true ∧ cfg.threadPool = false := by
        cases hpool : cfg.threadPool <;> simp_all [Connection.reset]
      exact absurd (h.marked x hmarked.1).1 (by simp [hmarked.2])
    · rw [removeConnection_of_ne hopen hne] at hx ⊢
      exact h.marked x hx
  · intro x n hn
    by_cases hne : x = c
    · subst hne
      rw [removeConnection_eq hopen, setConn_self] at hn
      cases hn
    · rw [removeConnection_of_ne hopen hne] at hn ⊢
      exact h.markedFor x n hn
  · intro x hx
    obtain ⟨-, heq, hx⟩ := open_of_removeConnection hopen hx
    rw [heq, removeConnection_accepts hopen]
    exact h.acceptNo_lt x hx
  · intro x hx o ho hn
    obtain ⟨hne, heq, hx⟩ := open_of_removeConnection hopen hx
    rw [heq] at hn
    rcases removedNo_of_removeConnection hopen ho hn with hn | ⟨o, ho, hn⟩
    · exact hne (h.distinct x c hx hopen hn)
    · exact h.not_removed x hx o ho hn
  · intro x y hx hy hxy
    obtain ⟨-, hxe, hx⟩ := open_of_removeConnection hopen hx
    obtain ⟨-, hye, hy⟩ := open_of_removeConnection hopen hy
    rw [hxe, hye] at hxy
    exact h.distinct x y hx hy hxy
  · intro o ho n hn
    rw [removeConnection_accepts hopen]
    rcases removedNo_of_removeConnection hopen ho hn with rfl | ⟨o, ho, hn⟩
    · exact h.acceptNo_lt c hopen
    · exact h.removed_lt o ho n hn

/-- A removal makes every task for the connection stale, and none of them holds its mutex. -/
theorem Tasks.removeConnection (h : s.Tasks P) (hopen : 0 ≤ (s.conn c).fd)
    (hfree : cfg.threadPool = true → s.connMutex c = none) :
    (s.removeConnection c true).Tasks P := by
  have hworker : (s.removeConnection c true).worker = s.worker := by
    rw [removeConnection_eq hopen]
    rfl
  intro i w hw
  rw [hworker] at hw
  have ht := h i w hw
  by_cases hc : w.conn = c
  · have hcount : ((s.removeConnection c true).conn w.conn).changeCount =
        (s.conn w.conn).changeCount + 1 := by
      rw [hc, removeConnection_eq hopen, setConn_self]
      simp [Connection.reset, ht.threadPool]
    have hlocks : ¬ w.place.Locks := by
      intro hl
      have hown := ht.locks hl
      rw [hc, hfree ht.threadPool] at hown
      cases hown
    have hstale : (s.conn w.conn).changeCount + 1 ≠ w.changeCount :=
      (Nat.lt_succ_of_le ht.changeCount_le).ne'
    rw [removeConnection_eq hopen] at hcount ⊢
    refine ⟨ht.threadPool, ht.fresh, ht.source, ?_, ?_, ?_, fun hl ↦ absurd hl hlocks⟩
    · rw [hcount]
      exact ht.changeCount_le.trans (Nat.le_succ _)
    · intro heq
      exact absurd (hcount.symm.trans heq) hstale
    · intro phase hp
      exact absurd (by rw [hp]; trivial) hlocks
  · refine ht.congr ?_ ?_ ?_
    · rw [removeConnection_of_ne hopen hc]
      exact .refl _
    · rw [removeConnection_eq hopen]
      exact le_rfl
    · rw [removeConnection_eq hopen]
      exact fun _ ↦ rfl

/-! ## Accepting a connection -/

theorem addConnection_eq {fd : ℤ} {now : Time} {callback : Callback}
    {lists : ConnectionLists (ConnId cfg)} (h : s.lists.listAddNew = some (c, lists)) :
    s.addConnection fd now callback =
      { s with lists := lists, accepts := s.accepts + 1 }.setConn c
        ((s.conn c).accepted fd now callback s.accepts) := by
  simp [addConnection, h]

/-- Unless there is no unused struct, one of them is put to use. -/
theorem Slots.addConnection_cases (h : s.Slots P) (fd : ℤ) (now : Time) (callback : Callback) :
    (s.addConnection fd now callback).exited = true ∨
      ∃ c used unused lists, ¬ 0 ≤ (s.conn c).fd ∧ s.lists.Holds used (c :: unused) ∧
        lists.Holds (used ++ [c]) unused ∧ (∀ x, x ∈ used ∨ x ∈ c :: unused) ∧
        (∀ x, x ∈ used ↔ 0 ≤ (s.conn x).fd) ∧
        s.addConnection fd now callback =
          { s with lists := lists, accepts := s.accepts + 1 }.setConn c
            ((s.conn c).accepted fd now callback s.accepts) := by
  obtain ⟨used, unused, hholds, hall, hused⟩ := h.partitioned
  cases unused with
  | nil =>
      left
      simp [addConnection, ConnectionLists.listAddNew, ConnectionLists.unusedPop, hholds.front_eq]
  | cons c unused =>
      right
      obtain ⟨lists, hadd, hholds'⟩ := hholds.listAddNew
      refine ⟨c, used, unused, lists, ?_, hholds, hholds', hall, hused, addConnection_eq hadd⟩
      rw [← hused c]
      exact fun hc ↦ (List.nodup_append.mp hholds.nodup).2.2 c hc c List.mem_cons_self rfl

theorem Slots.addConnection {fd : ℤ} {now : Time} {callback : Callback} (h : s.Slots P)
    (hfd : 0 ≤ fd) (hrun : (s.addConnection fd now callback).exited = false) :
    (s.addConnection fd now callback).Slots P := by
  obtain hexit | ⟨c, used, unused, lists, hclosed, -, hholds, hall, hused, heq⟩ :=
    h.addConnection_cases fd now callback
  · simp [hexit] at hrun
  have hc := h.closed c (Int.not_le.mp hclosed)
  rw [heq]
  have hself : ∀ x, (Store.setConn { s with lists := lists, accepts := s.accepts + 1 } c
      ((s.conn c).accepted fd now callback s.accepts)).conn x =
        if x = c then (s.conn c).accepted fd now callback s.accepts else s.conn x := by
    intro x
    by_cases hx : x = c <;> simp [Store.setConn, hx]
  refine ⟨⟨used ++ [c], unused, hholds, fun x ↦ ?_, fun x ↦ ?_⟩, ?_, ?_, ?_, ?_, ?_, ?_, ?_⟩
  · rcases hall x with hx | hx
    · exact .inl (List.mem_append_left _ hx)
    · rcases List.mem_cons.mp hx with rfl | hx
      · exact .inl (List.mem_append_right _ List.mem_cons_self)
      · exact .inr hx
  · rw [hself]
    split_ifs with hx
    · subst hx
      exact iff_of_true (List.mem_append_right _ List.mem_cons_self) hfd
    · rw [← hused x]
      simp [hx]
  · intro x hx
    rw [hself] at hx ⊢
    split_ifs at hx ⊢ with hxc
    · exact absurd hx (Int.not_lt.mpr hfd)
    · exact h.closed x hx
  · intro x hx
    rw [hself] at hx ⊢
    split_ifs at hx ⊢ with hxc
    · exact ⟨(h.marked c hx).1, hfd⟩
    · exact h.marked x hx
  · intro x n hn
    rw [hself] at hn ⊢
    split_ifs at hn ⊢ with hxc
    · have hfor : ((s.conn c).accepted fd now callback s.accepts).markedFor = none := hc.markedFor
      rw [hfor] at hn
      cases hn
    · exact h.markedFor x n hn
  · intro x hx
    rw [hself] at hx ⊢
    split_ifs at hx ⊢ with hxc
    · exact Nat.lt_succ_self s.accepts
    · exact (h.acceptNo_lt x hx).trans (Nat.lt_succ_self s.accepts)
  · intro x hx o ho hn
    rw [hself] at hx hn
    split_ifs at hx hn with hxc
    · exact Nat.lt_irrefl s.accepts (h.removed_lt o ho s.accepts hn)
    · exact h.not_removed x hx o ho hn
  · intro x y hx hy hxy
    rw [hself] at hx hy
    rw [hself, hself] at hxy
    split_ifs at hx hy hxy with hxc hyc hyc
    · exact hxc.trans hyc.symm
    · exact absurd hxy (h.acceptNo_lt y hy).ne'
    · exact absurd hxy (h.acceptNo_lt x hx).ne
    · exact h.distinct x y hx hy hxy
  · exact fun o ho n hn ↦ (h.removed_lt o ho n hn).trans (Nat.lt_succ_self s.accepts)

/-- No task is current for the struct that is put to use. -/
theorem Tasks.addConnection {fd : ℤ} {now : Time} {callback : Callback} (h : s.Tasks P)
    (hslots : s.Slots P) (hrun : (s.addConnection fd now callback).exited = false) :
    (s.addConnection fd now callback).Tasks P := by
  obtain hexit | ⟨c, used, unused, lists, hclosed, -, -, -, -, heq⟩ :=
    hslots.addConnection_cases fd now callback
  · simp [hexit] at hrun
  rw [heq]
  intro i w hw
  have ht := h i w hw
  by_cases hc : w.conn = c
  · have hstale : (s.conn w.conn).changeCount ≠ w.changeCount := by
      intro hcount
      exact hclosed (hc ▸ (ht.current hcount).1)
    have hcount : ((Store.setConn { s with lists := lists, accepts := s.accepts + 1 } c
        ((s.conn c).accepted fd now callback s.accepts)).conn w.conn).changeCount =
          (s.conn w.conn).changeCount := by
      rw [hc, setConn_self]
      rfl
    refine ⟨ht.threadPool, ht.fresh, ht.source, ?_, ?_, ?_, ht.locks⟩
    · rw [hcount]
      exact ht.changeCount_le
    · intro heq
      exact absurd (hcount.symm.trans heq) hstale
    · exact fun phase hp ↦ absurd (ht.serving phase hp) hstale
  · refine ht.congr ?_ le_rfl fun _ ↦ rfl
    rw [setConn_of_ne hc]
    exact .refl _

end Store

end Tidbits.Server
