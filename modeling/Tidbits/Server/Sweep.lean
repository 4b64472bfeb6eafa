import Tidbits.Server.Queues
import Tidbits.Transition.Observed

/-!
# The removal of very old connections

`_poServer_doNextEvent` begins with a loop that calls `checkTryRemoveConnection()` for
the first connection of the used list as long as that one is older than the long timeout,
at a time that is read once.

With a clock that does not go backwards the used list is in the order of the accept
times.  So as long as `mutexTryLock()` succeeds, the loop removes what was too old when it
began, and nothing else (`sweepsExactly_of_reach`).

A connection whose mutex cannot be locked stays the first of the used list, and the next
turn of the loop tries it again: the loop makes at most one attempt for each connection
if and only if every `mutexTryLock()` succeeds (`sweepsOnce_of_reach`).
-/

namespace Tidbits.Server

open Transition

variable {cfg : Config} {P : ℕ → ℕ → Prop}

/-- The reading of the clock that is kept or compared with an accept time. -/
def Action.reading : Action cfg → Option Time
  | .doNextEvents now => if cfg.longTimeout ≠ -1 then some now else none
  | .accept (.accepted _ now) => some now
  | _ => none

namespace Store

/-- The used list is in the order of the accept times. -/
def Sorted (s : Store cfg) : Prop :=
  s.lists.usedWalk.Pairwise fun c d ↦ (s.conn c).acceptTime ≤ (s.conn d).acceptTime

/-- At the time, the connection has the age of the timeout. -/
def aged (s : Store cfg) (t : Time) (timeout : ℤ) (c : ConnId cfg) : Bool :=
  decide (milliseconds timeout ≤ t - (s.conn c).acceptTime)

variable {s s' : Store cfg} {c : ConnId cfg} {clock now : Time}

/-- The used list is in the order of the accept times, which are past. -/
structure Ordered (s : Store cfg) (clock : Time) : Prop where
  sorted : s.Sorted
  past : ∀ c ∈ s.lists.usedWalk, (s.conn c).acceptTime ≤ clock

theorem usedWalk_create (cfg : Config) : (create cfg).lists.usedWalk = [] :=
  (ConnectionLists.holds_create cfg.maxConnections).usedWalk_eq

theorem ordered_create (cfg : Config) (clock : Time) : (create cfg).Ordered clock := by
  have hused := usedWalk_create cfg
  refine ⟨?_, fun c hc ↦ ?_⟩
  · unfold Sorted
    rw [hused]
    exact .nil
  · rw [hused] at hc
    exact nomatch hc

theorem SameQueues.aged (h : s.SameQueues s') : s'.aged = s.aged := by
  funext t timeout c
  rw [Store.aged, Store.aged, h.acceptTime]

namespace Ordered

theorem mono (h : s.Ordered clock) (hclock : clock ≤ now) : s.Ordered now :=
  ⟨h.sorted, fun c hc ↦ (h.past c hc).trans hclock⟩

theorem same (h : s.Ordered clock) (hsame : s.SameQueues s') : s'.Ordered clock := by
  have hsorted := h.sorted
  unfold Sorted at hsorted
  refine ⟨?_, fun c hc ↦ ?_⟩
  · unfold Sorted
    simp only [hsame.acceptTime, hsame.lists]
    exact hsorted
  · rw [hsame.lists] at hc
    rw [hsame.acceptTime]
    exact h.past c hc

/-- A removal, from wherever, leaves the others in their order. -/
theorem drops (h : s.Ordered clock) (hpart : s.Partitioned) (hdrops : s.Drops c s') :
    s'.Ordered clock := by
  obtain ⟨used₁, used₂, hused, hused'⟩ := hdrops.usedWalk hpart
  have hsub : s'.lists.usedWalk.Sublist s.lists.usedWalk := by
    rw [hused, hused']
    exact (List.Sublist.refl used₁).append (List.sublist_cons_self c used₂)
  have hsorted := h.sorted
  unfold Sorted at hsorted
  refine ⟨?_, fun x hx ↦ ?_⟩
  · unfold Sorted
    simp only [hdrops.acceptTime]
    exact hsorted.sublist hsub
  · rw [hdrops.acceptTime]
    exact h.past x (hsub.subset hx)

/-- The connection that is added is the newest. -/
theorem adds (h : s.Ordered clock) (hpart : s.Partitioned) (hadds : s.Adds c now s')
    (hclock : clock ≤ now) : s'.Ordered now := by
  obtain ⟨hused, hc⟩ := hadds.usedWalk hpart
  have hself : (s'.conn c).acceptTime = now := by rw [hadds.acceptTime, if_pos rfl]
  have hold : ∀ x ∈ s.lists.usedWalk, (s'.conn x).acceptTime = (s.conn x).acceptTime := by
    intro x hx
    rw [hadds.acceptTime, if_neg]
    rintro rfl
    exact hc hx
  have hpast : ∀ x ∈ s.lists.usedWalk, (s'.conn x).acceptTime ≤ now := by
    intro x hx
    rw [hold x hx]
    exact (h.past x hx).trans hclock
  refine ⟨?_, fun x hx ↦ ?_⟩
  · unfold Sorted
    rw [hused]
    refine List.pairwise_append.mpr ⟨?_, List.pairwise_singleton _ c, ?_⟩
    · refine h.sorted.imp_of_mem fun {x y} hx hy hxy ↦ ?_
      rw [hold x hx, hold y hy]
      exact hxy
    · intro x hx y hy
      cases List.mem_singleton.mp hy
      rw [hself]
      exact hpast x hx
  · rw [hused] at hx
    rcases List.mem_append.mp hx with hx | hx
    · exact hpast x hx
    · cases List.mem_singleton.mp hx
      exact hself.le

end Ordered

end Store

/-! ## What is noted of the loop -/

/-- What is noted of the last loop over the very old connections. -/
structure Sweep (cfg : Config) where
  /-- The connections when it began. -/
  begun : Store cfg
  /-- Those that `checkTryRemoveConnection()` was called for, first first. -/
  tried : List (ConnId cfg)
  /-- A `mutexTryLock()` has failed. -/
  failed : Bool
  /-- The last reading of the clock. -/
  clock : Time

namespace Sweep

/-- No loop yet. -/
def start (cfg : Config) (clock : Time) : Sweep cfg := ⟨.create cfg, [], false, clock⟩

/-- A turn of the loop. -/
def turn (s : POServer cfg) (g : Sweep cfg) : Option (ConnId cfg) → Sweep cfg
  | some c => { g with tried := g.tried ++ [c], failed := g.failed || !s.store.canLock c }
  | none => g

/-- What a step adds to the notes. -/
def notes (s : POServer cfg) (a : Action cfg) (g : Sweep cfg) : Sweep cfg :=
  match a with
  | .doNextEvents _ => ⟨s.store, [], false, a.reading.getD g.clock⟩
  | .proceed _ _ =>
      match s.master with
      | .longSweep t => g.turn s (s.timedOut t cfg.longTimeout)
      | _ => g
  | _ => { g with clock := a.reading.getD g.clock }

/-- The clock does not go backwards. -/
def Forward (p : POServer cfg × Sweep cfg) (a : Action cfg) : Prop :=
  ∀ now ∈ a.reading, p.2.clock ≤ now

instance : DecidableRel (@Forward cfg) := fun p a ↦
  inferInstanceAs (Decidable (∀ now ∈ a.reading, p.2.clock ≤ now))

/-- The loop has made at most one attempt for each connection that was in the used list when it
began, and none for another. -/
structure AttemptsOnce (g : Sweep cfg) : Prop where
  nodup : g.tried.Nodup
  used : ∀ c ∈ g.tried, c ∈ g.begun.lists.usedWalk

instance (g : Sweep cfg) : Decidable g.AttemptsOnce :=
  decidable_of_iff (g.tried.Nodup ∧ ∀ c ∈ g.tried, c ∈ g.begun.lists.usedWalk)
    ⟨fun h ↦ ⟨h.1, h.2⟩, fun h ↦ ⟨h.nodup, h.used⟩⟩

/-- The loop at the time has removed what was too old when it began, and has kept the others
in their order. -/
structure Exact (g : Sweep cfg) (t : Time) (s : Store cfg) : Prop where
  removed : g.tried = g.begun.lists.usedWalk.filter (g.begun.aged t cfg.longTimeout)
  kept : s.lists.usedWalk =
    g.begun.lists.usedWalk.filter fun c ↦ !g.begun.aged t cfg.longTimeout c

variable {s s' : POServer cfg} {a : Action cfg} {g : Sweep cfg} {t : Time} {c : ConnId cfg}
  {ok : Bool}

theorem clock_notes : (notes s a g).clock = a.reading.getD g.clock := by
  have hturn : ∀ old, (g.turn s old).clock = g.clock := fun old ↦ by cases old <;> rfl
  cases a with
  | proceed now ok =>
      show (match s.master with
        | .longSweep t => g.turn s (s.timedOut t cfg.longTimeout)
        | _ => g).clock = g.clock
      split
      · exact hturn _
      · rfl
  | _ => rfl

theorem notes_turn {now : Time} (hm : s.master = .longSweep t) :
    notes s (.proceed now ok) g = g.turn s (s.timedOut t cfg.longTimeout) := by
  simp only [notes, hm]

/-- Only the master changes the notes of the loop. -/
theorem notes_other (hnext : ∀ now, a ≠ .doNextEvents now)
    (hturn : ∀ t now ok, s.master = .longSweep t → a ≠ .proceed now ok) :
    (notes s a g).begun = g.begun ∧ (notes s a g).tried = g.tried ∧
      (notes s a g).failed = g.failed := by
  cases a with
  | doNextEvents now => exact absurd rfl (hnext now)
  | proceed now ok =>
      unfold notes
      cases hm : s.master with
      | longSweep t => exact absurd rfl (hturn t now ok hm)
      | _ => exact ⟨rfl, rfl, rfl⟩
  | _ => exact ⟨rfl, rfl, rfl⟩

/-! ## The loop -/

/-- What holds in the loop. -/
structure Runs (g : Sweep cfg) (t : Time) (s : Store cfg) : Prop where
  begun : g.begun.Partitioned
  acceptTime : ∀ c, (s.conn c).acceptTime = (g.begun.conn c).acceptTime
  /-- What was tried is gone. -/
  used : g.failed = false → g.begun.lists.usedWalk = g.tried ++ s.lists.usedWalk
  aged : ∀ c ∈ g.tried, g.begun.aged t cfg.longTimeout c = true
  /-- What could not be locked is tried again. -/
  stuck : g.failed = true → ¬ g.tried.Nodup ∨
    ∃ c ∈ g.tried, s.lists.first = some c ∧ s.aged t cfg.longTimeout c = true

namespace Runs

variable {st st' : Store cfg}

theorem start (hpart : st.Partitioned) {clock : Time} : Runs ⟨st, [], false, clock⟩ t st where
  begun := hpart
  acceptTime := fun _ ↦ rfl
  used := fun _ ↦ rfl
  aged := fun _ h ↦ nomatch h
  stuck := fun h ↦ nomatch h

theorem congr {g' : Sweep cfg} (h : g.Runs t st) (hbegun : g'.begun = g.begun)
    (htried : g'.tried = g.tried) (hfailed : g'.failed = g.failed) : g'.Runs t st := by
  refine ⟨?_, ?_, ?_, ?_, ?_⟩
  · rw [hbegun]
    exact h.begun
  · rw [hbegun]
    exact h.acceptTime
  · rw [hbegun, htried, hfailed]
    exact h.used
  · rw [hbegun, htried]
    exact h.aged
  · rw [htried, hfailed]
    exact h.stuck

theorem same (h : g.Runs t st) (hsame : st.SameQueues st') : g.Runs t st' where
  begun := h.begun
  acceptTime := fun c ↦ (hsame.acceptTime c).trans (h.acceptTime c)
  used := by
    rw [hsame.lists]
    exact h.used
  aged := h.aged
  stuck := by
    rw [hsame.lists, hsame.aged]
    exact h.stuck

theorem aged_eq (h : g.Runs t st) : st.aged = g.begun.aged := by
  funext t timeout c
  rw [Store.aged, Store.aged, h.acceptTime]

/-- As long as nothing has failed, the loop has tried the first connections of the used list. -/
theorem attemptsOnce (h : g.Runs t st) (hfailed : g.failed = false) : g.AttemptsOnce where
  nodup := by
    have hnodup := h.begun.nodup_usedWalk
    rw [h.used hfailed] at hnodup
    exact (List.nodup_append.mp hnodup).1
  used := by
    intro c hc
    rw [h.used hfailed]
    exact List.mem_append_left _ hc

/-- After a failure the next turn makes a second attempt for a connection, unless one was made. -/
theorem not_nodup_turn (h : g.Runs t s.store) (hfailed : g.failed = true) :
    ¬ (g.turn s (s.timedOut t cfg.longTimeout)).tried.Nodup := by
  rcases h.stuck hfailed with hdup | ⟨c, hc, hfirst, haged⟩
  · cases s.timedOut t cfg.longTimeout with
    | none => exact hdup
    | some x => exact fun hnodup ↦ hdup (List.nodup_append.mp hnodup).1
  · have hold : s.timedOut t cfg.longTimeout = some c := by
      show s.store.lists.first.filter (s.store.aged t cfg.longTimeout) = some c
      rw [hfirst, Option.filter_some_pos haged]
    rw [hold]
    intro hnodup
    exact (List.nodup_append.mp hnodup).2.2 c hc c (List.mem_singleton_self c) rfl

/-- Without one, the next turn makes none or a first one. -/
theorem attemptsOnce_turn (h : g.Runs t s.store) (hpart : s.store.Partitioned)
    (hfailed : g.failed = false) :
    (g.turn s (s.timedOut t cfg.longTimeout)).AttemptsOnce := by
  cases hold : s.timedOut t cfg.longTimeout with
  | none => exact h.attemptsOnce hfailed
  | some c =>
      obtain ⟨rest, hrest⟩ := hpart.usedWalk_first (POServer.first_of_timedOut hold)
      have hused : g.begun.lists.usedWalk = (g.tried ++ [c]) ++ rest := by
        rw [h.used hfailed, hrest, List.append_assoc]
        rfl
      have hnodup := h.begun.nodup_usedWalk
      rw [hused] at hnodup
      refine ⟨(List.nodup_append.mp hnodup).1, fun x hx ↦ ?_⟩
      show x ∈ g.begun.lists.usedWalk
      rw [hused]
      exact List.mem_append_left _ hx

theorem attemptsOnce_turn_iff (h : g.Runs t s.store) (hpart : s.store.Partitioned) :
    (g.turn s (s.timedOut t cfg.longTimeout)).AttemptsOnce ↔ g.failed = false := by
  constructor
  · intro honce
    by_contra hnot
    exact h.not_nodup_turn (Bool.not_eq_false _ ▸ hnot) honce.nodup
  · exact h.attemptsOnce_turn hpart

/-- **A turn of the loop.** -/
theorem turn (h : g.Runs t s.store) (hpart : s.store.Partitioned)
    (hold : s.timedOut t cfg.longTimeout = some c)
    (hrun : (s.store.checkTryRemoveConnection c none ok).1.exited = false) :
    (g.turn s (some c)).Runs t (s.store.checkTryRemoveConnection c none ok).1 := by
  have hfirst := POServer.first_of_timedOut hold
  have haged : s.store.aged t cfg.longTimeout c = true := (Option.filter_eq_some_iff.mp hold).2
  have htried : ∀ x ∈ g.tried ++ [c], g.begun.aged t cfg.longTimeout x = true := by
    intro x hx
    rcases List.mem_append.mp hx with hx | hx
    · exact h.aged x hx
    · cases List.mem_singleton.mp hx
      rw [← h.aged_eq]
      exact haged
  rcases Store.checkTryRemoveConnection_queues hrun with
    ⟨hlock, hdrops, -⟩ | ⟨hlock, hsame, -⟩
  · have hfailed : (g.failed || !s.store.canLock c) = g.failed := by
      rw [hlock, Bool.not_true, Bool.or_false]
    refine ⟨h.begun, fun x ↦ (hdrops.acceptTime x).trans (h.acceptTime x), ?_, htried, ?_⟩
    · intro hnone
      show g.begun.lists.usedWalk = (g.tried ++ [c]) ++ _
      rw [h.used (hfailed.symm.trans hnone), hdrops.usedWalk_first hpart hfirst, List.append_assoc]
      rfl
    · intro hsome
      have hdup := h.not_nodup_turn (s := s) (hfailed.symm.trans hsome)
      rw [hold] at hdup
      exact .inl hdup
  · refine ⟨h.begun, fun x ↦ (hsame.acceptTime x).trans (h.acceptTime x), ?_, htried, ?_⟩
    · intro hnone
      have hsome : (g.failed || !s.store.canLock c) = true := by
        rw [hlock, Bool.not_false, Bool.or_true]
      cases hsome.symm.trans hnone
    · intro _
      refine .inr ⟨c, List.mem_append_right _ (List.mem_singleton_self c), ?_, ?_⟩
      · rw [hsame.lists]
        exact hfirst
      · rw [hsame.aged]
        exact haged

/-- **The end of the loop.** -/
theorem exact (h : g.Runs t s.store) (hsorted : s.store.Sorted) (hpart : s.store.Partitioned)
    (hfailed : g.failed = false) (hold : s.timedOut t cfg.longTimeout = none) :
    g.Exact t s.store := by
  have hyoung : ∀ c ∈ s.store.lists.usedWalk, g.begun.aged t cfg.longTimeout c = false := by
    have hfirst := hpart.first_eq
    have hold' : s.store.lists.first.filter (s.store.aged t cfg.longTimeout) = none := hold
    unfold Store.Sorted at hsorted
    cases hused : s.store.lists.usedWalk with
    | nil => exact fun c hc ↦ nomatch hc
    | cons x rest =>
        rw [hused] at hfirst hsorted
        have hx : ¬ milliseconds cfg.longTimeout ≤ t - (s.store.conn x).acceptTime := by
          have hnot := Option.filter_eq_none_iff.mp hold' x hfirst
          rw [Store.aged, decide_eq_true_eq] at hnot
          exact hnot
        rw [← h.aged_eq]
        intro c hc
        refine decide_eq_false ?_
        -- the others were accepted later
        rcases List.mem_cons.mp hc with rfl | hc
        · exact hx
        · have hle := (List.pairwise_cons.mp hsorted).1 c hc
          exact fun haged ↦ hx (Int.le_trans haged (Int.sub_le_sub_left hle t))
  have hfilter : ∀ {p : ConnId cfg → Bool} {l : List (ConnId cfg)}, (∀ c ∈ l, p c = true) →
      l.filter p = l := List.filter_eq_self.mpr
  refine ⟨?_, ?_⟩
  · rw [h.used hfailed, List.filter_append, hfilter h.aged, List.filter_eq_nil_iff.mpr,
      List.append_nil]
    intro c hc
    rw [hyoung c hc]
    exact Bool.false_ne_true
  · rw [h.used hfailed, List.filter_append, List.filter_eq_nil_iff.mpr, List.nil_append, hfilter]
    · intro c hc
      rw [hyoung c hc]
      rfl
    · intro c hc
      rw [h.aged c hc]
      exact Bool.false_ne_true

end Runs

/-! ## Runs -/

variable {p q : POServer cfg × Sweep cfg}

/-- What the notes say of the loop, in it and after it. -/
structure Watches (p : POServer cfg × Sweep cfg) : Prop where
  runs : ∀ t, p.1.master = .longSweep t → p.2.Runs t p.1.store
  ended : (∀ t, p.1.master ≠ .longSweep t) → (p.2.AttemptsOnce ↔ p.2.failed = false)

theorem watches_start (listenerFd : ListenerId cfg → ℤ) (clock : Time) :
    Watches (Server.start cfg listenerFd, start cfg clock) where
  runs := fun _ h ↦ nomatch h
  ended := fun _ ↦ iff_of_true ⟨List.nodup_nil, fun _ h ↦ nomatch h⟩ rfl

theorem step_longSweep {now : Time} (hrun : s.store.exited = false) (hm : s.master = .longSweep t) :
    Server.step s (.proceed now ok) = some (s.longSweep t ok) :=
  step_proceed_eq_some.mpr ⟨hrun, by simp only [POServer.proceed, hm]⟩

/-- In the loop only the master takes a turn. -/
theorem undisturbed_longSweep (hcore : s.Core P) (hm : s.master = .longSweep t)
    (hproceed : ∀ now ok, a ≠ .proceed now ok) (hs : Server.step s a = some s') :
    (∀ now, a ≠ .doNextEvents now) ∧ s.store.SameQueues s'.store ∧ s'.master = s.master := by
  have haccept : ∀ r, a ≠ .accept r := by
    rintro r rfl
    simp [step_accept_eq_some, POServer.afterAccept, hm] at hs
  have hserve : ∀ b ok, a ≠ .serve b ok := by
    rintro b ok rfl
    simp [step_serve_eq_some, hm] at hs
  obtain ⟨hnext, hsame, -, hmaster⟩ :=
    hcore.undisturbed_of_master (hm ▸ trivial) hproceed haccept hserve hs
  exact ⟨hnext, hsame, hmaster⟩

/-- Only `poServer_doNextEvents()` begins the loop. -/
theorem longSweep_of_step (hs : Server.step s a = some s') (hm : ∀ t, s.master ≠ .longSweep t)
    (hm' : s'.master = .longSweep t) : (∃ now, a = .doNextEvents now) ∧ s'.store = s.store := by
  have hcomes := POServer.comes_of_step hs
  unfold POServer.Comes at hcomes
  rw [hm'] at hcomes
  exact hcomes.resolve_left (hm t)

theorem Watches.step (h : Watches p) (hcore : p.1.Core P)
    (hs : observed Server.step notes p a = some q) (hrun : q.1.store.exited = false) :
    Watches q := by
  obtain ⟨s, g⟩ := p
  obtain ⟨s', g'⟩ := q
  obtain ⟨hstep, rfl⟩ := observed_eq_some.mp hs
  have hrun₀ := POServer.running_of_step hstep
  have hpart := hcore.sound.slots.partitioned
  by_cases hloop : ∃ t, s.master = .longSweep t
  · obtain ⟨t, hm⟩ := hloop
    have hruns : g.Runs t s.store := h.runs t hm
    by_cases hproceed : ∃ now ok, a = .proceed now ok
    · obtain ⟨now, ok, rfl⟩ := hproceed
      cases (step_longSweep hrun₀ hm).symm.trans hstep
      have hiff := hruns.attemptsOnce_turn_iff hpart
      rw [notes_turn hm]
      unfold POServer.longSweep at hrun ⊢
      cases hold : s.timedOut t cfg.longTimeout with
      | none =>
          rw [hold] at hiff
          exact ⟨fun _ hm' ↦ (nomatch hm'), fun _ ↦ hiff⟩
      | some c =>
          simp only [hold] at hrun ⊢
          refine ⟨fun t' hm' ↦ ?_, fun hnot ↦ absurd hm (hnot t)⟩
          cases hm.symm.trans hm'
          exact hruns.turn hpart hold hrun
    · have hproceed' : ∀ now ok, a ≠ .proceed now ok := fun now ok ha ↦ hproceed ⟨now, ok, ha⟩
      obtain ⟨hnext, hsame, hmaster⟩ := undisturbed_longSweep hcore hm hproceed' hstep
      obtain ⟨hbegun, htried, hfailed⟩ :=
        notes_other (g := g) hnext fun _ now ok _ ↦ hproceed' now ok
      refine ⟨fun t' hm' ↦ ?_, fun hnot ↦ absurd (hmaster.trans hm) (hnot t)⟩
      exact (h.runs t' (hmaster.symm.trans hm')).same hsame |>.congr hbegun htried hfailed
  · simp only [not_exists] at hloop
    by_cases hnext : ∃ now, a = .doNextEvents now
    · obtain ⟨now, rfl⟩ := hnext
      refine ⟨fun t hm ↦ ?_, fun _ ↦ iff_of_true ⟨List.nodup_nil, fun _ h ↦ nomatch h⟩ rfl⟩
      show Runs _ t s'.store
      rw [(longSweep_of_step hstep hloop hm).2]
      exact .start hpart
    · simp only [not_exists] at hnext
      obtain ⟨hbegun, htried, hfailed⟩ :=
        notes_other (g := g) hnext fun t _ _ hm ↦ absurd hm (hloop t)
      refine ⟨fun t hm ↦ ?_, fun _ ↦ ?_⟩
      · obtain ⟨now, rfl⟩ := (longSweep_of_step hstep hloop hm).1
        exact absurd rfl (hnext now)
      · show AttemptsOnce _ ↔ (notes s a g).failed = false
        rw [hfailed, ← h.ended hloop]
        exact ⟨fun ho ↦ ⟨htried ▸ ho.nodup, hbegun ▸ htried ▸ ho.used⟩,
          fun ho ↦ ⟨htried ▸ ho.nodup, hbegun ▸ htried ▸ ho.used⟩⟩

theorem ordered_step (h : p.1.store.Ordered p.2.clock) (hcore : p.1.Core P)
    (hforward : Forward p a) (hs : observed Server.step notes p a = some q)
    (hrun : q.1.store.exited = false) : q.1.store.Ordered q.2.clock := by
  obtain ⟨s, g⟩ := p
  obtain ⟨s', g'⟩ := q
  obtain ⟨hstep, rfl⟩ := observed_eq_some.mp hs
  have hpart := hcore.sound.slots.partitioned
  have hclock : g.clock ≤ (notes s a g).clock := by
    rw [clock_notes]
    cases hnow : a.reading with
    | none => exact le_rfl
    | some now => exact hforward now hnow
  cases POServer.requeues_of_step hstep hrun with
  | stays hsame => exact (h.same hsame).mono hclock
  | drops hdrops => exact (h.drops hpart hdrops).mono hclock
  | adds hadds => exact h.adds hpart hadds (hforward _ rfl)

/-- The notes of every run. -/
theorem watches_of_reach {ok : POServer cfg × Sweep cfg → Action cfg → Prop}
    {listenerFd : ListenerId cfg → ℤ} {clock : Time}
    (h : Reach (observed Server.step notes) ok (Server.start cfg listenerFd, start cfg clock) p)
    (hrun : p.1.store.exited = false) : Watches p :=
  h.invariant_of (I := fun p ↦ p.1.store.exited = false → Watches p)
    (J := fun p ↦ p.1.Inv fun _ _ ↦ True) (fun hr ↦ POServer.inv_of_reach_any hr.of_observed)
    (fun _ ↦ watches_start listenerFd clock)
    (fun {p q a} hinv hwatches _ hs hrun ↦ by
      have hrun₀ := POServer.running_of_step (observed_eq_some.mp hs).1
      exact (hwatches hrun₀).step (hinv.core hrun₀) hs hrun) hrun

/-- The used list of every run with a clock that does not go backwards. -/
theorem ordered_of_reach {listenerFd : ListenerId cfg → ℤ} {clock : Time}
    (h : Reach (observed Server.step notes) Forward
      (Server.start cfg listenerFd, start cfg clock) p)
    (hrun : p.1.store.exited = false) : p.1.store.Ordered p.2.clock :=
  h.invariant_of (I := fun p ↦ p.1.store.exited = false → p.1.store.Ordered p.2.clock)
    (J := fun p ↦ p.1.Inv fun _ _ ↦ True) (fun hr ↦ POServer.inv_of_reach_any hr.of_observed)
    (fun _ ↦ Store.ordered_create cfg clock)
    (fun {p q a} hinv hordered hforward hs hrun ↦ by
      have hrun₀ := POServer.running_of_step (observed_eq_some.mp hs).1
      exact ordered_step (hordered hrun₀) (hinv.core hrun₀) hforward hs hrun) hrun

variable {listenerFd : ListenerId cfg → ℤ} {clock now : Time}

theorem AttemptsOnce.length_le (h : g.AttemptsOnce) :
    g.tried.length ≤ g.begun.lists.usedWalk.length :=
  (h.nodup.subperm h.used).length_le

theorem observed_longSweep (hrun : p.1.store.exited = false) (hm : p.1.master = .longSweep t) :
    observed Server.step notes p (.proceed now ok) =
      some (p.1.longSweep t ok, p.2.turn p.1 (p.1.timedOut t cfg.longTimeout)) :=
  observed_eq_some.mpr ⟨step_longSweep hrun hm, notes_turn hm⟩

/-- A turn ends the loop or makes an attempt. -/
theorem longSweep_cases (hm : s.master = .longSweep t) (ok : Bool) :
    s.timedOut t cfg.longTimeout = none ∧
        s.longSweep t ok = { s with master := .acceptLoop (some t) } ∨
      ∃ c, s.timedOut t cfg.longTimeout = some c ∧ (s.longSweep t ok).master = .longSweep t := by
  unfold POServer.longSweep
  cases s.timedOut t cfg.longTimeout with
  | none => exact .inl ⟨rfl, rfl⟩
  | some c => exact .inr ⟨c, rfl, hm⟩

/-- **The loop removes exactly the connections that were too old when it began.**  In every run with
a clock that does not go backwards the used list is in the order of the accept times.  In the loop,
as long as every `mutexTryLock()` succeeds, a turn ends it or removes one more of the connections
that were there, and at its end it has removed those that were too old and kept the others. -/
theorem sweepsExactly_of_reach
    (h : Reach (observed Server.step notes) Forward
      (Server.start cfg listenerFd, start cfg clock) p) (hrun : p.1.store.exited = false) :
    p.1.store.Sorted ∧
      ∀ t, p.1.master = .longSweep t → p.2.failed = false →
        (∀ a q, observed Server.step notes p a = some q → (∀ t, q.1.master ≠ .longSweep t) →
          q.2.Exact t q.1.store) ∧
        ∀ now ok, ∃ q, observed Server.step notes p (.proceed now ok) = some q ∧
          ((∀ t, q.1.master ≠ .longSweep t) ∨
            q.2.tried.length = p.2.tried.length + 1 ∧
              q.2.tried.length ≤ p.2.begun.lists.usedWalk.length) := by
  have hsorted := (ordered_of_reach h hrun).sorted
  refine ⟨hsorted, fun t hm hfailed ↦ ?_⟩
  have hcore := (POServer.inv_of_reach_any h.of_observed).core hrun
  have hpart := hcore.sound.slots.partitioned
  have hruns := (watches_of_reach h hrun).runs t hm
  refine ⟨fun a q hs hend ↦ ?_, fun now ok ↦ ⟨_, observed_longSweep hrun hm, ?_⟩⟩
  · by_cases hproceed : ∃ now ok, a = .proceed now ok
    · obtain ⟨now, ok, rfl⟩ := hproceed
      cases (observed_longSweep hrun hm).symm.trans hs
      rcases longSweep_cases hm ok with ⟨hold, hdone⟩ | ⟨c, -, hloop⟩
      · rw [hold]
        rw [hdone]
        exact hruns.exact hsorted hpart hfailed hold
      · exact absurd hloop (hend t)
    · have hproceed' : ∀ now ok, a ≠ .proceed now ok := fun now ok ha ↦ hproceed ⟨now, ok, ha⟩
      have hstep : Server.step p.1 a = some q.1 := (observed_eq_some.mp hs).1
      have hmaster := (undisturbed_longSweep hcore hm hproceed' hstep).2.2
      exact absurd (hmaster.trans hm) (hend t)
  · have honce := hruns.attemptsOnce_turn hpart hfailed
    rcases longSweep_cases hm ok with ⟨hold, hdone⟩ | ⟨c, hold, -⟩
    · rw [hdone]
      exact .inl fun _ ↦ nofun
    · rw [hold] at honce ⊢
      exact .inr ⟨List.length_append, honce.length_le⟩

/-- A server with room for two connections, which are very old after a millisecond. -/
abbrev twoConnections : Config where
  threadPool := true
  numListeners := 1
  maxEpollEvents := 2
  maxConnections := 2
  waitTimeout := -1
  longTimeout := 1
  listenerCallback := fun _ ↦ ⟨0, 0⟩
  numListeners_pos := Nat.one_pos
  maxEpollEvents_pos := Nat.two_pos
  maxConnections_pos := Nat.two_pos
  waitTimeout_ge := Config.off_ge
  longTimeout_ge := Config.millisecond_ge
  timeouts_ordered := by decide

/-- It accepts two connections half a millisecond apart. -/
abbrev acceptsTwo : List (Action twoConnections) :=
  [.doNextEvents 0, .proceed 0 true, .proceed 0 true, .proceed 0 true, .epollWait [.listener 0],
    .proceed 0 true, .proceed 0 true, .accept (.accepted 10 0), .proceed 0 true,
    .doNextEvents 500000, .proceed 0 true, .accept (.accepted 11 500000), .proceed 0 true,
    .proceed 0 true]

/-- When the first one has become very old, the loop removes it. -/
abbrev removesFirst : List (Action twoConnections) :=
  acceptsTwo ++
    [.epollWait [], .proceed 0 true, .proceed 0 true, .doNextEvents 1000000, .proceed 0 true]

theorem sweepsExactly_of_removesFirst :
    ∃ p, Reach (observed Server.step notes) Forward
        (Server.start twoConnections fun _ ↦ 3, start twoConnections 0) p ∧
      p.2.begun.lists.usedWalk = [0, 1] ∧ p.2.tried = [0] ∧ p.1.store.Sorted ∧
      (∀ a q, observed Server.step notes p a = some q → (∀ t, q.1.master ≠ .longSweep t) →
        q.2.Exact 1000000 q.1.store) ∧
      ∀ now ok, ∃ q, observed Server.step notes p (.proceed now ok) = some q ∧
        ((∀ t, q.1.master ≠ .longSweep t) ∨
          q.2.tried.length = p.2.tried.length + 1 ∧
            q.2.tried.length ≤ p.2.begun.lists.usedWalk.length) := by
  obtain ⟨p, hreach, hbegun, htried, hrun, hm, hfailed⟩ :
      ∃ p, Reach (observed Server.step notes) Forward
          (Server.start twoConnections fun _ ↦ 3, start twoConnections 0) p ∧
        p.2.begun.lists.usedWalk = [0, 1] ∧ p.2.tried = [0] ∧ p.1.store.exited = false ∧
        p.1.master = .longSweep 1000000 ∧ p.2.failed = false :=
    exists_reach_of_exec_decide removesFirst (by decide)
  obtain ⟨hsorted, hsweep⟩ := sweepsExactly_of_reach hreach hrun
  exact ⟨p, hreach, hbegun, htried, hsorted, hsweep 1000000 hm hfailed⟩

/-- **When the loop makes at most one attempt for each connection.**  It does so if and only if
every `mutexTryLock()` succeeds: after a failure the next turn makes a second attempt for the
same connection. -/
theorem sweepsOnce_of_reach
    (h : Reach (observed Server.step notes) Any (Server.start cfg listenerFd, start cfg clock) p)
    (hrun : p.1.store.exited = false) :
    ((∀ t, p.1.master ≠ .longSweep t) → (p.2.AttemptsOnce ↔ p.2.failed = false)) ∧
      ∀ t, p.1.master = .longSweep t →
        (p.2.failed = false → p.2.AttemptsOnce) ∧
        ∀ now ok, ∃ q, observed Server.step notes p (.proceed now ok) = some q ∧
          (q.2.AttemptsOnce ↔ p.2.failed = false) ∧
          ((∀ t, q.1.master ≠ .longSweep t) ∨ q.2.tried.length = p.2.tried.length + 1) := by
  have hwatches := watches_of_reach h hrun
  refine ⟨hwatches.ended, fun t hm ↦ ?_⟩
  have hcore := (POServer.inv_of_reach_any h.of_observed).core hrun
  have hruns := hwatches.runs t hm
  refine ⟨hruns.attemptsOnce, fun now ok ↦ ⟨_, observed_longSweep hrun hm, ?_, ?_⟩⟩
  · exact hruns.attemptsOnce_turn_iff hcore.sound.slots.partitioned
  · rcases longSweep_cases hm ok with ⟨hold, hdone⟩ | ⟨c, hold, -⟩
    · rw [hdone]
      exact .inl fun _ ↦ nofun
    · rw [hold]
      exact .inr List.length_append

theorem sweepsOnce_of_removesFirst :
    ∃ p, Reach (observed Server.step notes) Any
        (Server.start twoConnections fun _ ↦ 3, start twoConnections 0) p ∧
      p.2.tried = [0] ∧ p.2.AttemptsOnce ∧
      ∀ now ok, ∃ q, observed Server.step notes p (.proceed now ok) = some q ∧
        (q.2.AttemptsOnce ↔ p.2.failed = false) ∧
        ((∀ t, q.1.master ≠ .longSweep t) ∨ q.2.tried.length = p.2.tried.length + 1) := by
  obtain ⟨p, hreach, htried, hrun, hm, hfailed⟩ :
      ∃ p, Reach (observed Server.step notes) Any
          (Server.start twoConnections fun _ ↦ 3, start twoConnections 0) p ∧
        p.2.tried = [0] ∧ p.1.store.exited = false ∧ p.1.master = .longSweep 1000000 ∧
        p.2.failed = false :=
    exists_reach_of_exec_decide removesFirst (by decide)
  obtain ⟨honce, hturn⟩ := (sweepsOnce_of_reach hreach hrun).2 1000000 hm
  exact ⟨p, hreach, htried, honce hfailed, hturn⟩

/-- A task works on the first connection, and its callback does not return, when the connection
has become very old. -/
abbrev keepsFirst : List (Action twoConnections) :=
  acceptsTwo ++
    [.epollWait [.conn ⟨0, true, false, false, false, 0⟩], .proceed 0 true, .proceed 0 true,
      .proceed 0 true, .proceed 0 true, .proceed 0 true, .proceed 0 true, .work 0 .go true,
      .work 0 .go true, .work 0 .go true, .doNextEvents 1000000, .proceed 0 true,
      .proceed 0 true]

/-- The loop tries it twice, and goes on. -/
theorem not_attemptsOnce_of_keepsFirst :
    ∃ p, Reach (observed Server.step notes) Forward
        (Server.start twoConnections fun _ ↦ 3, start twoConnections 0) p ∧
      p.1.master = .longSweep 1000000 ∧ p.2.begun.lists.usedWalk = [0, 1] ∧
      p.2.tried = [0, 0] ∧ ¬ p.2.AttemptsOnce :=
  exists_reach_of_exec_decide keepsFirst (by decide)

end Sweep

end Tidbits.Server
