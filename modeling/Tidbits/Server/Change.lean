import Tidbits.Server.Operations

/-!
# What a step may do to the connections

`Change` collects what every step of the server does to its connections: they
stay in order unless the process ends, an effect is one that `P` allows, and at
most one observation is made, of a connection that is in use.  `Ages` is what
the other threads can rely on meanwhile: an accepted connection keeps its number,
and its socket at most closes.
-/

namespace Tidbits.Server

variable {cfg : Config} {P : ℕ → ℕ → Prop}

namespace Store

/-- The connections and the tasks are in order. -/
structure Sound (P : ℕ → ℕ → Prop) (s : Store cfg) : Prop where
  slots : s.Slots P
  tasks : s.Tasks P

/-- What a step may do to the connections. -/
structure Change (P : ℕ → ℕ → Prop) (s s' : Store cfg) : Prop where
  sound : s'.exited = false → s'.Sound P
  effects : ∀ p ∈ s'.effects, p ∈ s.effects ∨ P p.1 p.2
  history : s'.history = s.history ∨ ∃ o, s'.history = o :: s.history ∧ s.Observes o

/-- No connection is accepted, and those that are open at most close. -/
def Ages (s s' : Store cfg) : Prop :=
  ∀ c, (s'.conn c).acceptNo = (s.conn c).acceptNo ∧
    ((s'.conn c).fd = (s.conn c).fd ∨ (s'.conn c).fd < 0)

variable {s s' : Store cfg} {c : ConnId cfg} {conn : Connection} {i : ℕ} {w : Worker cfg}
  {source : Option ℕ} {ok : Bool}

theorem sound_create (cfg : Config) : (create cfg).Sound P := ⟨slots_create cfg, tasks_create cfg⟩

theorem Ages.refl (s : Store cfg) : s.Ages s := fun _ ↦ ⟨rfl, .inl rfl⟩

/-! ## Recording -/

@[simp] theorem affect_conn : (s.affect source c).conn = s.conn := by cases source <;> rfl

@[simp] theorem affect_lists : (s.affect source c).lists = s.lists := by cases source <;> rfl

@[simp] theorem affect_connMutex : (s.affect source c).connMutex = s.connMutex := by
  cases source <;> rfl

@[simp] theorem affect_worker : (s.affect source c).worker = s.worker := by cases source <;> rfl

@[simp] theorem affect_workers : (s.affect source c).workers = s.workers := by cases source <;> rfl

@[simp] theorem affect_accepts : (s.affect source c).accepts = s.accepts := by cases source <;> rfl

@[simp] theorem affect_exited : (s.affect source c).exited = s.exited := by cases source <;> rfl

@[simp] theorem affect_history : (s.affect source c).history = s.history := by cases source <;> rfl

theorem affect_effects (hsource : ∀ n ∈ source, P n (s.conn c).acceptNo) :
    ∀ p ∈ (s.affect source c).effects, p ∈ s.effects ∨ P p.1 p.2 := by
  cases source with
  | none => exact fun p hp ↦ .inl hp
  | some n =>
      intro p hp
      rcases List.mem_cons.mp hp with rfl | hp
      · exact .inr (hsource n rfl)
      · exact .inl hp

theorem Sound.affect (h : s.Sound P) : (s.affect source c).Sound P where
  slots := h.slots.congr affect_conn affect_lists affect_accepts fun o ho ↦
    .inl (by rwa [affect_history] at ho)
  tasks := h.tasks.congr affect_worker (fun x ↦ by rw [affect_conn]; exact .refl _)
    affect_workers.ge affect_connMutex

/-- Writing an open connection that stays the same accepted connection. -/
theorem Sound.setConn (h : s.Sound P) (hopen : 0 ≤ (s.conn c).fd)
    (huse : (s.conn c).SameUse conn)
    (hmarked : conn.markedForRemoval = true → cfg.threadPool = true)
    (hfor : ∀ n ∈ conn.markedFor, P n conn.acceptNo) : (s.setConn c conn).Sound P where
  slots := h.slots.setConn hopen huse hmarked hfor
  tasks := h.tasks.congr rfl (sameUse_setConn huse) le_rfl rfl

/-- What a service leaves of an open connection. -/
theorem Sound.setServed (h : s.Sound P) (hopen : 0 ≤ (s.conn c).fd)
    (hserved : (s.conn c).Served conn) : (s.setConn c conn).Sound P := by
  refine h.setConn hopen hserved.toSameUse ?_ ?_
  · rw [hserved.markedForRemoval]
    exact fun hm ↦ (h.slots.marked c hm).1
  · rw [hserved.markedFor, hserved.acceptNo]
    exact h.slots.markedFor c

/-- A task that goes on or ends while the rest stays as it is. -/
theorem Sound.setWorker {w' : Option (Worker cfg)} (h : s.Sound P)
    (hw : ∀ w ∈ w', s.Task P i w) : (s.setWorker i w').Sound P where
  slots := h.slots.congr rfl rfl rfl fun _ ho ↦ .inl ho
  tasks := tasks_setWorker (fun j w _ hj ↦ h.tasks j w hj) hw

namespace Change

/-- A step that records nothing. -/
theorem of_sound (h : s'.Sound P) (heffects : s'.effects = s.effects)
    (hhistory : s'.history = s.history) : Change P s s' :=
  ⟨fun _ ↦ h, fun _ hp ↦ .inl (heffects ▸ hp), .inl hhistory⟩

theorem refl (h : s.Sound P) : Change P s s := of_sound h rfl rfl

/-- The process ends. -/
theorem exit (s : Store cfg) : Change P s { s with exited := true } :=
  ⟨fun h ↦ (nomatch h), fun _ hp ↦ .inl hp, .inl rfl⟩

/-- A task that goes on or ends after a change. -/
theorem setWorker {w' : Option (Worker cfg)} (h : Change P s s')
    (hw : ∀ w ∈ w', s'.exited = false → s'.Task P i w) : Change P s (s'.setWorker i w') where
  sound := fun hrun ↦ (h.sound hrun).setWorker fun w hw' ↦ hw w hw' hrun
  effects := h.effects
  history := h.history

end Change

/-! ## The functions -/

/-- The observation that `removeConnection` makes. -/
theorem removeConnection_history :
    (s.removeConnection c ok).history =
      .removed (s.conn c).acceptNo (decide (c ∈ s.lists.usedWalk))
        (s.conn c).cleanupCallback.isSome :: s.history := by
  unfold removeConnection
  dsimp only
  split_ifs <;> rfl

theorem removeConnection_effects : (s.removeConnection c ok).effects = s.effects := by
  unfold removeConnection
  dsimp only
  split_ifs <;> rfl

/-- Removing an open connection whose mutex no task holds. -/
theorem Sound.change_remove (h : s.Sound P) (hopen : 0 ≤ (s.conn c).fd)
    (hfree : cfg.threadPool = true → s.connMutex c = none)
    (hsource : ∀ n ∈ source, P n (s.conn c).acceptNo) :
    Change P s ((s.affect source c).removeConnection c ok) where
  sound := by
    intro hrun
    have ha : (s.affect source c).Sound P := h.affect
    have hopen' : 0 ≤ ((s.affect source c).conn c).fd := by rwa [affect_conn]
    cases ok with
    | false =>
        rw [exited_removeConnection (.inl rfl)] at hrun
        cases hrun
    | true =>
        refine ⟨ha.slots.removeConnection hopen', ha.tasks.removeConnection hopen' ?_⟩
        rwa [affect_connMutex]
  effects := by
    rw [removeConnection_effects]
    exact affect_effects hsource
  history := by
    refine .inr ⟨_, removeConnection_history.trans (by rw [affect_history]), ?_⟩
    rw [affect_conn, affect_lists]
    refine ⟨⟨c, hopen, rfl⟩, fun _ _ _ heq ↦ (nomatch heq), ?_⟩
    intro n inUsed cleanup heq
    cases heq
    exact decide_eq_true (h.slots.mem_usedWalk.mpr hopen)

/-- `checkTryRemoveConnection` of an open connection. -/
theorem Sound.change_checkTryRemoveConnection (h : s.Sound P) (hopen : 0 ≤ (s.conn c).fd)
    (hsource : ∀ n ∈ source, P n (s.conn c).acceptNo) :
    Change P s (s.checkTryRemoveConnection c source ok).1 := by
  unfold checkTryRemoveConnection
  split_ifs with hlock
  · refine h.change_remove hopen (fun hpool ↦ ?_) hsource
    simpa [canLock, hpool] using hlock
  · have hpool : cfg.threadPool = true := by
      cases hp : cfg.threadPool with
      | false => simp [canLock, hp] at hlock
      | true => rfl
    refine ⟨fun _ ↦ ?_, affect_effects hsource, .inl affect_history⟩
    refine h.affect.setConn (by rwa [affect_conn]) ⟨rfl, rfl, rfl⟩ (fun _ ↦ hpool) ?_
    intro n hn
    rcases Option.or_eq_some_iff.mp hn with hn | ⟨-, hn⟩
    · rw [affect_conn]
      exact hsource n hn
    · exact h.affect.slots.markedFor c n hn

/-- `addConnection` of an open socket. -/
theorem Sound.change_addConnection {fd : ℤ} {now : Time} {callback : Callback} (h : s.Sound P)
    (hfd : 0 ≤ fd) : Change P s (s.addConnection fd now callback) where
  sound := fun hrun ↦
    ⟨h.slots.addConnection hfd hrun, h.tasks.addConnection h.slots hrun⟩
  effects := by
    intro p hp
    left
    unfold addConnection at hp
    split at hp <;> exact hp
  history := by
    left
    unfold addConnection
    split <;> rfl

/-- The readiness of an open connection. -/
theorem Sound.change_setReady {n : ℕ} (h : s.Sound P) (hopen : 0 ≤ (s.conn c).fd)
    (hsource : P n (s.conn c).acceptNo) (input output : Bool) :
    Change P s ((s.affect (some n) c).setReady c input output) := by
  refine ⟨fun _ ↦ ?_, affect_effects fun m hm ↦ ?_, .inl affect_history⟩
  · refine h.affect.setServed (by rwa [affect_conn]) ?_
    cases input <;> cases output <;> exact ⟨⟨rfl, rfl, rfl⟩, rfl, rfl⟩
  · cases hm
    exact hsource

end Store

end Tidbits.Server
