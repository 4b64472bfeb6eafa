import Tidbits.Server.Change

/-!
# What a service does to the connections

The steps of `ServiceConnection()` are changes in the sense of
`Tidbits.Server.Change`, and so is the creation of a task.  The comparison of the
change counts is what lets a task call callbacks: it holds from then on until
the task unlocks the mutex, since whoever removes the connection needs the
mutex too.
-/

namespace Tidbits.Server

variable {cfg : Config} {P : ℕ → ℕ → Prop}

namespace Store

variable {s s' : Store cfg} {c : ConnId cfg} {conn : Connection} {i n queuedFor : ℕ}
  {w : Worker cfg} {called : Option Direction} {ok : Bool}

/-- The task holds the server mutex and waits for the connection mutex. -/
def Finishing (s : Store cfg) (i : ℕ) : Prop :=
  ∃ w removeMe, s.worker i = some w ∧ w.place = .lockConn removeMe

theorem finishing_of_worker (hworker : s'.worker = s.worker) (h : s'.Finishing i) :
    s.Finishing i := by
  unfold Finishing at h
  rwa [hworker] at h

/-! ## Creating a task -/

theorem Change.newWorker (h : Change P s s') (hpool : cfg.threadPool = true)
    (hopen : 0 ≤ (s'.conn c).fd) (hsource : P n (s'.conn c).acceptNo) :
    Change P s (s'.newWorker c n) where
  sound := by
    intro hrun
    have hsound : s'.Sound P := h.sound hrun
    refine ⟨hsound.slots.congr rfl rfl rfl fun _ ho ↦ .inl ho, tasks_setWorker ?_ ?_⟩
    · exact fun j w _ hj ↦ (hsound.tasks j w hj).congr (.refl _) (Nat.le_succ _) fun _ ↦ rfl
    · rintro w ⟨⟩
      exact ⟨hpool, Nat.lt_succ_self _, hsource, le_rfl, fun _ ↦ ⟨hopen, rfl⟩,
        fun _ hp ↦ (nomatch hp), False.elim⟩
  effects := h.effects
  history := h.history

theorem finishing_newWorker (h : (s.newWorker c n).Finishing i) : s.Finishing i := by
  obtain ⟨w, removeMe, hw, hp⟩ := h
  by_cases hi : i = s.workers
  · subst hi
    have hw' : w = ⟨c, (s.conn c).changeCount, .queued, (s.conn c).acceptNo, n⟩ := by
      simpa [newWorker, setWorker, eq_comm] using hw
    subst hw'
    cases hp
  · have hw' : s.worker i = some w := by simpa [newWorker, setWorker, hi] using hw
    exact ⟨w, removeMe, hw', hp⟩

/-! ## Calling the callbacks -/

theorem call_conn : (s.call c queuedFor n called).conn = s.conn := by cases called <;> rfl

theorem call_worker : (s.call c queuedFor n called).worker = s.worker := by cases called <;> rfl

theorem call_connMutex : (s.call c queuedFor n called).connMutex = s.connMutex := by
  cases called <;> rfl

theorem Sound.call (h : s.Sound P) : (s.call c queuedFor n called).Sound P := by
  cases called with
  | none => exact h
  | some d =>
      refine ⟨h.slots.congr rfl rfl rfl fun o ho ↦ ?_, ?_⟩
      · rcases List.mem_cons.mp ho with rfl | ho
        · exact .inr rfl
        · exact .inl ho
      · exact h.tasks.congr rfl (fun _ ↦ .refl _) le_rfl rfl

/-- A service step on an open connection, for that same accepted connection. -/
theorem Sound.change_call (h : s.Sound P) (hopen : 0 ≤ (s.conn c).fd)
    (hqueued : queuedFor = (s.conn c).acceptNo) (hsource : P n (s.conn c).acceptNo)
    (hserved : (s.conn c).Served conn) :
    Change P s ((s.call c queuedFor n called).setConn c conn) := by
  refine ⟨fun _ ↦ ?_, ?_, ?_⟩
  · exact h.call.setServed (by rwa [call_conn]) (by rwa [call_conn])
  · cases called with
    | none => exact fun p hp ↦ .inl hp
    | some d =>
        refine affect_effects fun m hm ↦ ?_
        cases hm
        exact hsource
  · cases called with
    | none => exact .inl rfl
    | some d =>
        refine .inr ⟨_, rfl, ⟨c, hopen, rfl⟩, ?_, fun _ _ _ heq ↦ nomatch heq⟩
        intro d' m q heq
        cases heq
        exact hqueued

/-- The result of a step with the callbacks. -/
theorem serve_cases {phase phase' : Phase} {a : ServiceAction}
    (h : s.serve c queuedFor n phase a = some (s', phase')) :
    ∃ called conn, (s.conn c).Served conn ∧
      s' = (s.call c queuedFor n called).setConn c conn := by
  obtain ⟨r, hr, heq⟩ := Option.map_eq_some_iff.mp h
  cases heq
  exact ⟨r.called, r.conn, Connection.served_serve hr, rfl⟩

theorem sameUse_call (queuedFor n : ℕ) (called : Option Direction)
    (hserved : (s.conn c).Served conn) (x : ConnId cfg) :
    (s.conn x).SameUse (((s.call c queuedFor n called).setConn c conn).conn x) := by
  have hcall : ((s.call c queuedFor n called).conn c).SameUse conn := by
    rw [call_conn]
    exact hserved.toSameUse
  have huse := sameUse_setConn hcall x
  rwa [call_conn] at huse

/-! ## The task with the connection mutex -/

/-- A step of a task that changes nothing but the task and the mutex of its connection. -/
theorem Sound.change_setMutex {owner : Option ℕ} {w' : Option (Worker cfg)} (h : s.Sound P)
    (hc : s.connMutex c = none ∨ s.connMutex c = some i)
    (hw' : ∀ w ∈ w', (s.setMutex c owner).Task P i w) :
    Change P s ((s.setMutex c owner).setWorker i w') := by
  refine .of_sound ⟨h.slots.congr rfl rfl rfl fun _ ho ↦ .inl ho, ?_⟩ rfl rfl
  exact tasks_setWorker (fun j w hji hj ↦ h.tasks.setMutex hc hji hj) hw'

/-- A task that has changed its place and what it says about the mutex. -/
theorem Task.setPlace {place : Place} {owner : Option ℕ} (h : s.Task P i w)
    (hserving : ∀ phase, place = .serving phase →
      (s.conn w.conn).changeCount = w.changeCount)
    (hlocks : place.Locks → owner = some i) :
    (s.setMutex w.conn owner).Task P i { w with place := place } where
  threadPool := h.threadPool
  fresh := h.fresh
  source := h.source
  changeCount_le := h.changeCount_le
  current := h.current
  serving := hserving
  locks := by
    intro hl
    show Function.update s.connMutex w.conn owner w.conn = some i
    rw [Function.update_self]
    exact hlocks hl

theorem finishing_setWorker {w' : Option (Worker cfg)} {j : ℕ}
    (hw' : ∀ w ∈ w', ∀ removeMe, w.place ≠ .lockConn removeMe)
    (h : (s.setWorker i w').Finishing j) : s.Finishing j := by
  obtain ⟨w, removeMe, hw, hp⟩ := h
  by_cases hji : j = i
  · subst hji
    have hself : w' = some w := by simpa [setWorker] using hw
    exact absurd hp (hw' w hself removeMe)
  · have hrest : s.worker j = some w := by simpa [setWorker, hji] using hw
    exact ⟨w, removeMe, hrest, hp⟩

/-- A step of `ServiceConnection()` without the server mutex: the connection it
works on stays the same accepted connection. -/
structure Services (P : ℕ → ℕ → Prop) (s s' : Store cfg) : Prop extends Change P s s' where
  sameUse : ∀ c, (s.conn c).SameUse (s'.conn c)
  finishing : ∀ i, s'.Finishing i → s.Finishing i
  exited : s'.exited = s.exited

/-- A step of a task that works on the callbacks. -/
theorem Sound.services_serve {phase : Phase} {a : ServiceAction} (h : s.Sound P)
    (hw : s.worker i = some w) (hp : w.place = .serving phase)
    (hs : ((s.serve w.conn w.queuedFor w.source phase a).map fun (s, phase) ↦
      s.setWorker i (some { w with place := .serving phase })) = some s') : s.Services P s' := by
  obtain ⟨⟨t, phase'⟩, ht, rfl⟩ := Option.map_eq_some_iff.mp hs
  obtain ⟨called, conn, hserved, rfl⟩ := serve_cases ht
  have htask := h.tasks i w hw
  have hcount := htask.serving phase hp
  obtain ⟨hopen, hqueued⟩ := htask.current hcount
  have hsource : P w.source (s.conn w.conn).acceptNo := hqueued ▸ htask.source
  have hsame := sameUse_call w.queuedFor w.source called hserved
  refine ⟨?_, hsame, fun j hj ↦ ?_, by cases called <;> rfl⟩
  · refine (h.change_call hopen hqueued.symm hsource hserved).setWorker ?_
    rintro w' ⟨⟩ -
    have hmutex : ((s.call w.conn w.queuedFor w.source called).setConn w.conn conn).connMutex =
        s.connMutex := call_connMutex
    refine ⟨htask.threadPool, ?_, htask.source, ?_, ?_, fun _ _ ↦ ?_, fun _ ↦ ?_⟩
    · cases called <;> exact htask.fresh
    · exact (hsame w.conn).changeCount ▸ htask.changeCount_le
    · intro _
      rw [(hsame w.conn).fd, (hsame w.conn).acceptNo]
      exact ⟨hopen, hqueued⟩
    · exact (hsame w.conn).changeCount.trans hcount
    · rw [hmutex]
      exact htask.locks (by rw [hp]; trivial)
  · have hj' := finishing_setWorker (by rintro w' ⟨⟩ removeMe hne; cases hne) hj
    obtain ⟨w', removeMe, hw', hp'⟩ := hj'
    refine ⟨w', removeMe, ?_, hp'⟩
    rw [← call_worker (s := s)]
    exact hw'

/-- **`ServiceConnection()` while it holds at most the mutex of its connection.** -/
theorem Sound.services {a : ServiceAction} (h : s.Sound P) (hw : s.worker i = some w)
    (hs : s.serviceConnection i w a = some s') : s.Services P s' := by
  have htask := h.tasks i w hw
  unfold serviceConnection at hs
  cases hp : w.place with
  | queued =>
      simp only [hp] at hs
      split_ifs at hs with hcond
      cases hs
      have hfree : s.connMutex w.conn = none := by simp_all
      refine ⟨h.change_setMutex (.inl hfree) ?_, fun _ ↦ .refl _,
        fun j ↦ finishing_setWorker ?_, rfl⟩
      · rintro w' ⟨⟩
        exact htask.setPlace (fun _ hp ↦ nomatch hp) fun _ ↦ rfl
      · rintro w' ⟨⟩ removeMe hne
        cases hne
  | locked =>
      have hown : s.connMutex w.conn = some i := htask.locks (by rw [hp]; trivial)
      simp only [hp] at hs
      split_ifs at hs with hgo hcount
      · cases hs
        exact ⟨h.change_setMutex (.inr hown) (fun w' hw' ↦ (nomatch hw')), fun _ ↦ .refl _,
          fun j ↦ finishing_setWorker fun w' hw' ↦ (nomatch hw'), rfl⟩
      · cases hs
        refine ⟨.of_sound (h.setWorker ?_) rfl rfl, fun _ ↦ .refl _,
          fun j ↦ finishing_setWorker ?_, rfl⟩
        · rintro w' ⟨⟩
          exact ⟨htask.threadPool, htask.fresh, htask.source, htask.changeCount_le, htask.current,
            fun _ _ ↦ (not_not.mp hcount).symm, fun _ ↦ hown⟩
        · rintro w' ⟨⟩ removeMe hne
          cases hne
  | serving phase =>
      have hown : s.connMutex w.conn = some i := htask.locks (by rw [hp]; trivial)
      cases phase with
      | done removeMe =>
          simp only [hp] at hs
          split_ifs at hs with hgo
          cases hs
          refine ⟨h.change_setMutex (.inr hown) ?_, fun _ ↦ .refl _,
            fun j ↦ finishing_setWorker ?_, rfl⟩
          · rintro w' ⟨⟩
            exact htask.setPlace (fun _ hp ↦ nomatch hp) False.elim
          · rintro w' ⟨⟩ removeMe hne
            cases hne
      | test d removeMe =>
          simp only [hp] at hs
          exact h.services_serve hw hp hs
      | inCallback d removeMe =>
          simp only [hp] at hs
          exact h.services_serve hw hp hs
      | check removeMe =>
          simp only [hp] at hs
          exact h.services_serve hw hp hs
  | lockServer removeMe =>
      simp only [hp] at hs
      cases hs
  | lockConn removeMe =>
      simp only [hp] at hs
      cases hs

/-! ## The task with both mutexes -/

theorem removeConnection_worker : (s.removeConnection c ok).worker = s.worker := by
  unfold removeConnection
  dsimp only
  split_ifs <;> rfl

theorem checkTryRemoveConnection_worker {source : Option ℕ} :
    (s.checkTryRemoveConnection c source ok).1.worker = s.worker := by
  unfold checkTryRemoveConnection
  split_ifs
  · exact removeConnection_worker.trans affect_worker
  · exact affect_worker

/-- A connection that is only marked does not end the process. -/
theorem checkTryRemoveConnection_exited {source : Option ℕ}
    (h : (s.checkTryRemoveConnection c source ok).2 = false) :
    (s.checkTryRemoveConnection c source ok).1.exited = s.exited := by
  unfold checkTryRemoveConnection at h ⊢
  split_ifs at h ⊢
  exact affect_exited

theorem ages_removeConnection (s : Store cfg) (c : ConnId cfg) (ok : Bool) :
    s.Ages (s.removeConnection c ok) := by
  intro x
  unfold removeConnection
  dsimp only
  split_ifs with hok
  · by_cases hx : x = c
    · subst hx
      rw [setConn_self]
      exact ⟨rfl, .inr (by show (-1 : ℤ) < 0; decide)⟩
    · rw [setConn_of_ne hx]
      exact ⟨rfl, .inl rfl⟩
  · exact ⟨rfl, .inl rfl⟩

/-- The end of `ServiceConnection()`: either the connection that the task was queued for
is removed, or one that was marked, or none. -/
theorem finishService_cases (s : Store cfg) (i : ℕ) (w : Worker cfg) (removeMe ok : Bool) :
    ∃ t : Store cfg,
      s.finishService i w removeMe ok = (if t.exited then t else t.setWorker i none) ∧
      (t = s ∨ ∃ source, t = (s.affect source w.conn).removeConnection w.conn ok ∧
        ((s.conn w.conn).changeCount = w.changeCount ∧ source = some w.source ∨
          (s.conn w.conn).markedForRemoval = true ∧ source = (s.conn w.conn).markedFor)) := by
  refine ⟨_, rfl, ?_⟩
  split_ifs with hcur hmark
  · exact .inr ⟨_, rfl, .inl ⟨hcur.1, rfl⟩⟩
  · exact .inr ⟨_, rfl, .inr ⟨hmark, rfl⟩⟩
  · exact .inl rfl

/-- **`ServiceConnection()` when it may remove its connection.** -/
theorem Sound.change_finishService (h : s.Sound P) (hw : s.worker i = some w)
    (hfree : s.connMutex w.conn = none) (removeMe ok : Bool) :
    Change P s (s.finishService i w removeMe ok) ∧ s.Ages (s.finishService i w removeMe ok) := by
  have htask := h.tasks i w hw
  obtain ⟨t, heq, ht⟩ := finishService_cases s i w removeMe ok
  have hchange : Change P s t ∧ s.Ages t := by
    rcases ht with rfl | ⟨source, rfl, hsource⟩
    · exact ⟨.refl h, .refl t⟩
    · refine ⟨?_, ?_⟩
      · rcases hsource with ⟨hcount, rfl⟩ | ⟨hmark, rfl⟩
        · obtain ⟨hopen, hqueued⟩ := htask.current hcount
          refine h.change_remove hopen (fun _ ↦ hfree) ?_
          rintro n ⟨⟩
          rw [hqueued]
          exact htask.source
        · exact h.change_remove (h.slots.marked _ hmark).2 (fun _ ↦ hfree)
            (h.slots.markedFor w.conn)
      · have hages := ages_removeConnection (s.affect source w.conn) w.conn ok
        unfold Ages at hages
        rwa [affect_conn] at hages
  rw [heq]
  split_ifs
  · exact hchange
  · exact ⟨hchange.1.setWorker fun w' hw' ↦ (nomatch hw'), hchange.2⟩

/-- Unless the process ends, the task is gone. -/
theorem finishing_finishService {removeMe : Bool} {j : ℕ}
    (hrun : (s.finishService i w removeMe ok).exited = false)
    (h : (s.finishService i w removeMe ok).Finishing j) : j ≠ i ∧ s.Finishing j := by
  obtain ⟨t, heq, ht⟩ := finishService_cases s i w removeMe ok
  rw [heq] at hrun h
  split_ifs at hrun h with hexit
  · simp [hexit] at hrun
  obtain ⟨w', removeMe', hw', hp⟩ := h
  have hji : j ≠ i := by
    rintro rfl
    simp [setWorker] at hw'
  have hworker : t.worker = s.worker := by
    rcases ht with rfl | ⟨source, rfl, -⟩
    · rfl
    · rw [removeConnection_worker, affect_worker]
  have hj : t.worker j = some w' := by simpa [setWorker, hji] using hw'
  exact ⟨hji, w', removeMe', hworker ▸ hj, hp⟩

end Store

end Tidbits.Server
