import Tidbits.Sequence.Counting
import Tidbits.Server.Runs

/-!
# The life of an accepted connection

In the build with threads, whatever the interleaving: a connection struct is in
one of the two lists, once, and an accepted connection is removed at most once,
with its callbacks called before that and for its own tasks only.

In the build without threads the same holds of the lists, as long as `doEvent`
takes up no event of a connection that was removed earlier in the batch.
-/

namespace Tidbits.Server

open Tidbits.Transition

variable {cfg : Config} {P : ℕ → ℕ → Prop}

/-- The observation is the removal of the accepted connection. -/
def Observation.removes (n : ℕ) (o : Observation) : Bool := decide (o.removedNo = some n)

/-- The observation is a call of the cleanup callback of the accepted connection. -/
def Observation.cleansUp (n : ℕ) : Observation → Bool
  | .removed m _ cleanup => decide (m = n) && cleanup
  | .called _ _ _ => false

/-- An accepted connection is removed at most once and cleaned up at most once, none of its
callbacks is called after its removal, and a task calls only the callbacks of the connection it was
queued for. -/
structure Lifecycle (history : List Observation) : Prop where
  removed_once : ∀ n, history.countP (·.removes n) ≤ 1
  cleanedUp_once : ∀ n, history.countP (·.cleansUp n) ≤ 1
  not_called_after : ∀ n inUsed cleanup after before,
    history = after ++ .removed n inUsed cleanup :: before → ∀ d q, .called d n q ∉ after
  called_own : ∀ d n q, .called d n q ∈ history → q = n

/-- The invariant behind it: no observation of a connection follows its removal. -/
structure Ordered (history : List Observation) : Prop where
  pairwise : history.Pairwise fun later earlier ↦ later.acceptNo ∉ earlier.removedNo
  called : ∀ d n q, .called d n q ∈ history → q = n
  removed : ∀ n inUsed cleanup, .removed n inUsed cleanup ∈ history → inUsed = true

namespace Ordered

variable {history : List Observation}

theorem nil : Ordered [] :=
  ⟨.nil, fun _ _ _ h ↦ (nomatch h), fun _ _ _ h ↦ (nomatch h)⟩

theorem acceptNo_of_removes {n : ℕ} {o : Observation} (h : o.removes n = true) :
    o.acceptNo = n ∧ n ∈ o.removedNo := by
  have hremoved : o.removedNo = some n := of_decide_eq_true h
  refine ⟨?_, hremoved⟩
  cases o with
  | called d m q => cases hremoved
  | removed m inUsed cleanup => exact Option.some.inj hremoved

theorem removes_of_cleansUp {n : ℕ} {o : Observation} (h : o.cleansUp n = true) :
    o.removes n = true := by
  cases o with
  | called d m q => cases h
  | removed m inUsed cleanup =>
      have hmn : m = n := of_decide_eq_true (Bool.and_eq_true_iff.mp h).1
      exact decide_eq_true (congrArg some hmn)

theorem lifecycle (h : Ordered history) : Lifecycle history where
  removed_once := by
    intro n
    refine Sequence.countP_le_one (h.pairwise.imp fun {later earlier} hne hboth ↦ hne ?_)
    rw [(acceptNo_of_removes hboth.1).1]
    exact (acceptNo_of_removes hboth.2).2
  cleanedUp_once := by
    intro n
    refine Sequence.countP_le_one (h.pairwise.imp fun {later earlier} hne hboth ↦ hne ?_)
    rw [(acceptNo_of_removes (removes_of_cleansUp hboth.1)).1]
    exact (acceptNo_of_removes (removes_of_cleansUp hboth.2)).2
  not_called_after := by
    rintro n inUsed cleanup after before rfl d q hmem
    have hne := (List.pairwise_append.mp h.pairwise).2.2 _ hmem _ List.mem_cons_self
    exact hne rfl
  called_own := h.called

end Ordered

namespace POServer

variable {s s' : POServer cfg} {a : Action cfg} {listenerFd : ListenerId cfg → ℤ}

/-- What a step observes is about a connection in use, so none that was removed. -/
theorem ordered_step (h : Ordered s.store.history) (hinv : s.Inv P) (htakes : s.Takes P a)
    (hopen : s.TakesOpen a) (hs : step s a = some s') : Ordered s'.store.history := by
  have hcore := hinv.core (running_of_step hs)
  rcases (hcore.steps htakes hopen hs).change.history with heq | ⟨o, heq, hobs⟩
  · rwa [heq]
  · obtain ⟨c, hfd, hno⟩ := hobs.inUse
    rw [heq]
    refine ⟨List.pairwise_cons.mpr ⟨fun earlier hmem ↦ ?_, h.pairwise⟩, ?_, ?_⟩
    · rw [← hno]
      exact hcore.sound.slots.not_removed c hfd earlier hmem
    · intro d n q hmem
      rcases List.mem_cons.mp hmem with hnew | hmem
      · exact hobs.called d n q hnew.symm
      · exact h.called d n q hmem
    · intro n inUsed cleanup hmem
      rcases List.mem_cons.mp hmem with hnew | hmem
      · exact hobs.removed n inUsed cleanup hnew.symm
      · exact h.removed n inUsed cleanup hmem

theorem ordered_of_reach (h : Reach step TakesOpen (start cfg listenerFd) s) :
    Ordered s.store.history :=
  h.invariant_of inv_of_reach_any Ordered.nil fun hinv hordered hopen hs ↦
    ordered_step hordered hinv (takes_of_forall fun _ _ ↦ trivial) hopen hs

/-- A server with one listener and room for one connection, which gives way to a new one
after a millisecond. -/
abbrev oneConnection (threadPool : Bool) : Config where
  threadPool := threadPool
  numListeners := 1
  maxEpollEvents := 2
  maxConnections := 1
  waitTimeout := 1
  longTimeout := -1
  listenerCallback := fun _ ↦ ⟨0, 0⟩
  numListeners_pos := Nat.one_pos
  maxEpollEvents_pos := Nat.two_pos
  maxConnections_pos := Nat.one_pos
  waitTimeout_ge := Config.millisecond_ge
  longTimeout_ge := Config.off_ge
  timeouts_ordered := Config.off_ordered

/-- It accepts connection `0` and waits for events again. -/
abbrev acceptsFirst (threadPool : Bool) : List (Action (oneConnection threadPool)) :=
  [.doNextEvents 0, .proceed 0 true, .proceed 0 true, .epollWait [.listener 0], .proceed 0 true,
    .proceed 0 true, .accept (.accepted 10 0), .proceed 0 true, .doNextEvents 0, .proceed 0 true,
    .proceed 0 true, .proceed 0 true]

/-- Then, with the connection timed out, `epoll_wait()` returns an event of the listener before one
of the connection; the connection is removed and `accept()` is called. -/
abbrev evictsFirst (threadPool : Bool) (r : AcceptResult) :
    List (Action (oneConnection threadPool)) :=
  acceptsFirst threadPool ++
    [.epollWait [.listener 0, .conn ⟨0, true, false, true, false, 0⟩], .proceed 0 true,
      .proceed 1000000 true, .proceed 0 true, .accept r, .proceed 0 true]

/-! ## With threads -/

/-- **With threads, every accepted connection has its life in one struct.**  Whenever the server
mutex is free, each struct is in one of the two lists, and the history is that of connections
that are removed at most once and not used afterwards. -/
theorem lifecycle_of_reach (hpool : cfg.threadPool = true)
    (h : Reach step Any (start cfg listenerFd) s) (hfree : s.serverMutex = none) :
    s.store.Partitioned ∧ Lifecycle s.store.history := by
  have hinv := inv_of_reach_any h
  have hrun : s.store.exited = false := by
    cases hexit : s.store.exited with
    | false => rfl
    | true => exact absurd hfree (hinv.locked hexit)
  have hopen : Reach step TakesOpen (start cfg listenerFd) s :=
    h.mono inv_of_reach_any fun _ _ ↦ .inl hpool
  exact ⟨(hinv.core hrun).sound.slots.partitioned, (ordered_of_reach hopen).lifecycle⟩

/-- A task calls the read callback, which returns `1`, and removes the connection. -/
theorem lifecycle_of_serviced :
    ∃ s, Reach step Any (start (oneConnection true) fun _ ↦ 3) s ∧
      s.store.history = [.removed 0 true false, .called .read 0 0] ∧
      s.store.Partitioned ∧ Lifecycle s.store.history := by
  obtain ⟨s, hreach, hfree, hhistory⟩ :
      ∃ s, Reach step Any (start (oneConnection true) fun _ ↦ 3) s ∧ s.serverMutex = none ∧
        s.store.history = [.removed 0 true false, .called .read 0 0] :=
    exists_reach_of_exec_decide
      (acceptsFirst true ++
        ([.epollWait [.conn ⟨0, true, false, false, false, 0⟩], .proceed 0 true, .proceed 0 true,
          .proceed 0 true, .work 0 .go true, .work 0 .go true, .work 0 .go true,
          .work 0 (.returns 1) true, .work 0 .go true, .work 0 .go true, .work 0 .go true,
          .work 0 .go true, .work 0 .go true] : List (Action (oneConnection true))))
      (by decide)
  exact ⟨s, hreach, hhistory, lifecycle_of_reach rfl hreach hfree⟩

/-! ## Without threads -/

/-- **Without threads, the lists are in order as long as no event of a closed connection is
taken up.**  The first such event makes `removeConnection` remove a connection that is not in
the used list. -/
theorem partitioned_of_reach (h : Reach step TakesOpen (start cfg listenerFd) s) :
    (s.store.exited = false → s.store.Partitioned) ∧
      (∀ n inUsed cleanup, .removed n inUsed cleanup ∈ s.store.history → inUsed = true) ∧
      ∀ a s', ¬ s.TakesOpen a → step s a = some s' →
        ∃ n cleanup, .removed n false cleanup ∈ s'.store.history := by
  have hinv := inv_of_reach_any h
  refine ⟨fun hrun ↦ (hinv.core hrun).sound.slots.partitioned, (ordered_of_reach h).removed, ?_⟩
  intro a s' hclosed hs
  obtain ⟨e, -, -, -, -, hhistory, -⟩ := (hinv.core (running_of_step hs)).steps_closed hclosed hs
  exact ⟨_, _, hhistory ▸ List.mem_cons_self⟩

/-- The event of the connection comes first in its batch. -/
theorem partitioned_of_hangUp :
    ∃ s, Reach step TakesOpen (start (oneConnection false) fun _ ↦ 3) s ∧
      (s.store.exited = false ∧ s.store.history = [.removed 0 true false]) ∧
      (s.store.exited = false → s.store.Partitioned) ∧
      (∀ n inUsed cleanup, .removed n inUsed cleanup ∈ s.store.history → inUsed = true) ∧
      ∀ a s', ¬ s.TakesOpen a → step s a = some s' →
        ∃ n cleanup, .removed n false cleanup ∈ s'.store.history := by
  obtain ⟨s, hreach, hs⟩ :
      ∃ s, Reach step TakesOpen (start (oneConnection false) fun _ ↦ 3) s ∧
        (s.store.exited = false ∧ s.store.history = [.removed 0 true false]) :=
    exists_reach_of_exec_decide
      (acceptsFirst false ++
        [.epollWait [.conn ⟨0, false, false, true, false, 0⟩, .listener 0], .proceed 0 true,
          .proceed 0 true, .proceed 0 true])
      (by decide)
  exact ⟨s, hreach, hs, partitioned_of_reach hreach⟩

/-- Removed for a waiting listener that gets `EAGAIN`, the connection is removed again for its own
event. -/
theorem not_partitioned_of_evicted :
    ∃ s, Reach step Any (start (oneConnection false) fun _ ↦ 3) s ∧
      Observation.removed 0 false false ∈ s.store.history :=
  exists_reach_of_exec_decide (evictsFirst false .again ++ [.proceed 0 true]) (by decide)

end POServer

end Tidbits.Server
