import Tidbits.Server.Lifecycle

/-!
# Events of connections that are gone

An event carries the pointer to a connection struct.  Between `epoll_wait()` and
the `doEvent` of the event, an earlier event of the batch may let `accept()` put
the struct to use again.  `doEvent` cannot tell: an event has effects on its own
accepted connection only, as long as each one that is taken up still
finds that connection (or none, in the build with threads).  When it finds
another one, it affects that one (`affects_other`).
-/

namespace Tidbits.Server

open Tidbits.Transition

variable {cfg : Config} {P : ℕ → ℕ → Prop}

namespace POServer

variable {s s' : POServer cfg} {a : Action cfg} {e : ConnEvent cfg} {rest : List (Event cfg)}
  {listenerFd : ListenerId cfg → ℤ}

/-- An event that `doEvent` takes up and acts on was fetched for the connection that its struct is
used for now. -/
abbrev TakesOwn (s : POServer cfg) (a : Action cfg) : Prop := s.Takes Eq a

instance (s : POServer cfg) (a : Action cfg) : Decidable (s.TakesOwn a) :=
  inferInstanceAs (Decidable (∀ e ∈ s.takesUp a, _))

/-! ## An event of another connection -/

theorem mem_checkTryRemove_effects {n : ℕ} {c : ConnId cfg} {ok : Bool} :
    (n, (s.store.conn c).acceptNo) ∈ (s.checkTryRemove c (some n) ok).store.effects := by
  unfold checkTryRemove Store.checkTryRemoveConnection
  dsimp only
  split_ifs
  · rw [Store.removeConnection_effects]
    exact List.mem_cons_self
  · exact List.mem_cons_self

theorem mem_setReady_effects :
    (e.source, (s.store.conn e.conn).acceptNo) ∈ (s.setReady e rest).store.effects := by
  unfold setReady
  dsimp only
  split_ifs <;> exact List.mem_cons_self

/-- **An event that is taken up for another connection affects it**, at once or in the next step of
the master. -/
theorem affects_other (h : s.Core P) (hother : ¬ s.TakesOwn a) (hs : step s a = some s') :
    ∃ e, s.takesUp a = some e ∧ e.source ≠ (s.store.conn e.conn).acceptNo ∧
      ((e.source, (s.store.conn e.conn).acceptNo) ∈ s'.store.effects ∨
        ∀ now ok s'', step s' (.proceed now ok) = some s'' →
          (e.source, (s.store.conn e.conn).acceptNo) ∈ s''.store.effects) := by
  obtain ⟨e, hother⟩ := not_forall.mp hother
  obtain ⟨htake, hother⟩ := Classical.not_imp.mp hother
  obtain ⟨hskip, hother⟩ := not_or.mp hother
  obtain ⟨hacts, hsource⟩ := not_or.mp hother
  obtain ⟨rest, ok, rfl⟩ := step_eq_doConnEvent htake hs
  refine ⟨e, htake, hsource, ?_⟩
  unfold doConnEvent
  rw [if_neg hskip]
  split_ifs with hcallback hpool hinput
  · right
    intro now ok' s'' hs''
    cases (step_proceed_eq_some.mp hs'').2
    exact mem_checkTryRemove_effects
  · exact .inl mem_checkTryRemove_effects
  · right
    intro now ok' s'' hs''
    have hs'' := (step_proceed_eq_some.mp hs'').2
    simp only [proceed] at hs''
    split_ifs at hs''
    cases hs''
    exact mem_setReady_effects
  · right
    intro now ok' s'' hs''
    cases (step_proceed_eq_some.mp hs'').2
    have hfd : (s.store.conn e.conn).fd ≠ -1 := by
      intro hfd
      refine hcallback (h.sound.slots.closed e.conn ?_).noCallback
      rw [hfd]
      decide
    have hflags : (e.hangUp || e.error) = true := by
      have hacts : e.actsOn (s.store.conn e.conn) = true := Bool.not_eq_false _ ▸ hacts
      simp only [ConnEvent.actsOn, Bool.or_eq_true] at hacts hinput ⊢
      tauto
    unfold eventEnd
    rw [if_pos ⟨hfd, hflags⟩]
    exact mem_checkTryRemove_effects

/-! ## Events that are taken up in time -/

/-- **The effects of an event are on its own connection**, in both builds, as long as every event
is taken up in time.  The first one that is not has an effect on another connection, at once
or in the next step of the master. -/
theorem effects_own_of_reach (h : Reach step TakesOwn (start cfg listenerFd) s) :
    (∀ p ∈ s.store.effects, p.1 = p.2) ∧
      ∀ a s', ¬ s.TakesOwn a → step s a = some s' →
        ∃ p : ℕ × ℕ, p.1 ≠ p.2 ∧ (p ∈ s'.store.effects ∨
          ∀ now ok s'', step s' (.proceed now ok) = some s'' → p ∈ s''.store.effects) := by
  have hinv := inv_of_reach h
  refine ⟨hinv.effects, fun a s' hother hs ↦ ?_⟩
  obtain ⟨e, -, hsource, heffect⟩ := affects_other (hinv.core (running_of_step hs)) hother hs
  exact ⟨_, hsource, heffect⟩

/-- The event of connection `0` is taken up in time, and a task calls its callback. -/
theorem effects_own_of_serviced :
    ∃ s, Reach step TakesOwn (start (oneConnection true) fun _ ↦ 3) s ∧
      s.store.effects = [(0, 0), (0, 0)] ∧ (∀ p ∈ s.store.effects, p.1 = p.2) ∧
      ∀ a s', ¬ s.TakesOwn a → step s a = some s' →
        ∃ p : ℕ × ℕ, p.1 ≠ p.2 ∧ (p ∈ s'.store.effects ∨
          ∀ now ok s'', step s' (.proceed now ok) = some s'' → p ∈ s''.store.effects) := by
  obtain ⟨s, hreach, heffects⟩ :
      ∃ s, Reach step TakesOwn (start (oneConnection true) fun _ ↦ 3) s ∧
        s.store.effects = [(0, 0), (0, 0)] :=
    exists_reach_of_exec_decide
      (acceptsFirst true ++
        [.epollWait [.conn ⟨0, true, false, false, false, 0⟩], .proceed 0 true, .proceed 0 true,
          .proceed 0 true, .work 0 .go true, .work 0 .go true, .work 0 .go true])
      (by decide)
  exact ⟨s, hreach, heffects, effects_own_of_reach hreach⟩

/-- In both builds: removed for a waiting listener that gets connection `1`, the struct of
connection `0` receives the event of connection `0`. -/
theorem not_effects_own_of_evicted :
    (∃ s, Reach step Any (start (oneConnection true) fun _ ↦ 3) s ∧
      ((0, 1) : ℕ × ℕ) ∈ s.store.effects) ∧
    ∃ s, Reach step Any (start (oneConnection false) fun _ ↦ 3) s ∧
      ((0, 1) : ℕ × ℕ) ∈ s.store.effects := by
  constructor
  · exact exists_reach_of_exec_decide
      (evictsFirst true (.accepted 10 1000000) ++ [.proceed 0 true, .proceed 0 true]) (by decide)
  · exact exists_reach_of_exec_decide
      (evictsFirst false (.accepted 10 1000000) ++ [.proceed 0 true, .proceed 0 true]) (by decide)

end POServer

end Tidbits.Server
