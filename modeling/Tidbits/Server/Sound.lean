import Tidbits.Server.Store

/-!
# What holds of the connections between two steps

`Slots` is about the connection structs: the two lists have each of them once,
those with an open socket in the used list, and every accepted connection has
its own number.  `Tasks` is about the tasks: a task whose change count is that
of its struct was queued for the connection that the struct is still used for,
and so is every task that has compared the two and holds the mutex.

Both are kept by each function of `Tidbits.Server.Store`, under the condition
that its callers provide.  They are stated with a relation `P` between
the connection an event was fetched for and the connection it acts on; taking
the relation that always holds gives what is true whatever the events do.
-/

namespace Tidbits.Server

variable {cfg : Config} {P : ℕ → ℕ → Prop}

/-- The struct is not in use. -/
structure Connection.Closed (conn : Connection) : Prop where
  fd : conn.fd = -1
  callback : ∀ d, conn.callback d = none
  markedFor : conn.markedFor = none

namespace Connection

variable {conn : Connection}

theorem closed_unused : unused.Closed := ⟨rfl, fun _ ↦ rfl, rfl⟩

theorem closed_reset (threadPool : Bool) : (conn.reset threadPool).Closed :=
  ⟨rfl, fun _ ↦ rfl, rfl⟩

theorem Closed.noCallback (h : conn.Closed) : conn.noCallback = true := by
  rw [Connection.noCallback, h.callback, h.callback]
  rfl

theorem Closed.not_open (h : conn.Closed) : ¬ 0 ≤ conn.fd := by
  rw [h.fd]
  decide

end Connection

/-- The connection that a call of `removeConnection` removed. -/
def Observation.removedNo : Observation → Option ℕ
  | .called _ _ _ => none
  | .removed n _ _ => some n

/-- The connection that an observation is about. -/
def Observation.acceptNo : Observation → ℕ
  | .called _ n _ | .removed n _ _ => n

namespace Place

/-- The task holds the mutex of its connection. -/
def Locks : Place → Prop
  | .locked | .serving _ => True
  | .queued | .lockServer _ | .lockConn _ => False

end Place

namespace Store

/-- Each connection struct is in exactly one of the used list and the unused queue, once,
and in the used list if and only if it has an open socket. -/
def Partitioned (s : Store cfg) : Prop :=
  ∃ used unused, s.lists.Holds used unused ∧ (∀ c, c ∈ used ∨ c ∈ unused) ∧
    ∀ c, c ∈ used ↔ 0 ≤ (s.conn c).fd

/-- The connection structs are in order. -/
structure Slots (P : ℕ → ℕ → Prop) (s : Store cfg) : Prop where
  partitioned : s.Partitioned
  closed : ∀ c, (s.conn c).fd < 0 → (s.conn c).Closed
  /-- Marks are made in the build with threads, on open connections. -/
  marked : ∀ c, (s.conn c).markedForRemoval = true →
    cfg.threadPool = true ∧ 0 ≤ (s.conn c).fd
  markedFor : ∀ c, ∀ n ∈ (s.conn c).markedFor, P n (s.conn c).acceptNo
  acceptNo_lt : ∀ c, 0 ≤ (s.conn c).fd → (s.conn c).acceptNo < s.accepts
  not_removed : ∀ c, 0 ≤ (s.conn c).fd → ∀ o ∈ s.history, (s.conn c).acceptNo ∉ o.removedNo
  distinct : ∀ c c', 0 ≤ (s.conn c).fd → 0 ≤ (s.conn c').fd →
    (s.conn c).acceptNo = (s.conn c').acceptNo → c = c'
  removed_lt : ∀ o ∈ s.history, ∀ n ∈ o.removedNo, n < s.accepts

/-- A task is in order. -/
structure Task (P : ℕ → ℕ → Prop) (s : Store cfg) (i : ℕ) (w : Worker cfg) : Prop where
  threadPool : cfg.threadPool = true
  fresh : i < s.workers
  source : P w.source w.queuedFor
  changeCount_le : w.changeCount ≤ (s.conn w.conn).changeCount
  current : (s.conn w.conn).changeCount = w.changeCount →
    0 ≤ (s.conn w.conn).fd ∧ (s.conn w.conn).acceptNo = w.queuedFor
  serving : ∀ phase, w.place = .serving phase → (s.conn w.conn).changeCount = w.changeCount
  locks : w.place.Locks → s.connMutex w.conn = some i

/-- All tasks are in order. -/
def Tasks (P : ℕ → ℕ → Prop) (s : Store cfg) : Prop :=
  ∀ i w, s.worker i = some w → s.Task P i w

/-- What an observation may say of the connections it is made in: the one it is about is in use, a
call is made for it, and a removal finds it in the used list. -/
structure Observes (s : Store cfg) (o : Observation) : Prop where
  inUse : ∃ c, 0 ≤ (s.conn c).fd ∧ (s.conn c).acceptNo = o.acceptNo
  called : ∀ d n q, o = .called d n q → q = n
  removed : ∀ n inUsed cleanup, o = .removed n inUsed cleanup → inUsed = true

variable {s : Store cfg} {c : ConnId cfg} {conn : Connection} {i : ℕ} {w : Worker cfg}

theorem partitioned_create (cfg : Config) : (create cfg).Partitioned := by
  refine ⟨[], List.finRange cfg.maxConnections, ConnectionLists.holds_create _, ?_, ?_⟩
  · exact fun c ↦ .inr (List.mem_finRange c)
  · intro c
    simp [create, Connection.unused]

theorem slots_create (cfg : Config) : (create cfg).Slots P where
  partitioned := partitioned_create cfg
  closed := fun _ _ ↦ Connection.closed_unused
  marked := fun _ h ↦ nomatch h
  markedFor := fun _ _ h ↦ nomatch h
  acceptNo_lt := fun _ h ↦ absurd h Connection.closed_unused.not_open
  not_removed := fun _ h ↦ absurd h Connection.closed_unused.not_open
  distinct := fun _ _ h ↦ absurd h Connection.closed_unused.not_open
  removed_lt := fun _ h ↦ nomatch h

theorem tasks_create (cfg : Config) : (create cfg).Tasks P := fun _ _ h ↦ nomatch h

namespace Slots

theorem fd_eq (h : s.Slots P) (hfd : ¬ 0 ≤ (s.conn c).fd) : (s.conn c).fd = -1 :=
  (h.closed c (Int.not_le.mp hfd)).fd

theorem open_of_ne (h : s.Slots P) (hfd : (s.conn c).fd ≠ -1) : 0 ≤ (s.conn c).fd :=
  Decidable.byContradiction fun hopen ↦ hfd (h.fd_eq hopen)

/-- The first of the used list has an open socket. -/
theorem open_first (h : s.Slots P) (hfirst : s.lists.first = some c) : 0 ≤ (s.conn c).fd := by
  obtain ⟨used, unused, hholds, -, hopen⟩ := h.partitioned
  refine (hopen c).mp (List.mem_of_head? ?_)
  rw [← hholds.first_eq, hfirst]

/-- The used list, as it is walked, has the structs with an open socket. -/
theorem mem_usedWalk (h : s.Slots P) : c ∈ s.lists.usedWalk ↔ 0 ≤ (s.conn c).fd := by
  obtain ⟨used, unused, hholds, -, hopen⟩ := h.partitioned
  rw [hholds.usedWalk_eq]
  exact hopen c

end Slots

end Store

end Tidbits.Server
