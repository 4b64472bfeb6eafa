import Tidbits.Server.Holders
import Tidbits.Server.Lifecycle

/-!
# Marks for removal

`checkTryRemoveConnection` marks the connection when it cannot lock its mutex,
and counts on the task that holds the mutex to remove it.  The task does, unless
it has yet to compare the change counts and finds that they differ: then it
leaves before the removal test.
-/

namespace Tidbits.Server

open Tidbits.Transition

variable {cfg : Config}

namespace Worker

/-- The task has unlocked the connection mutex and has its removal test ahead. -/
def PastHold (w : Worker cfg) : Bool :=
  match w.place with
  | .lockServer _ | .lockConn _ => true
  | .queued | .locked | .serving _ => false

/-- The task is in its section of the connection mutex or past it, and gets to its removal test. -/
def Tests (w : Worker cfg) (conn : Connection) : Prop :=
  match w.place with
  | .queued => False
  | .locked => w.changeCount = conn.changeCount
  | .serving _ | .lockServer _ | .lockConn _ => True

theorem Tests.congr {w : Worker cfg} {conn conn' : Connection} (h : w.Tests conn)
    (hcount : conn'.changeCount = conn.changeCount) : w.Tests conn' := by
  unfold Tests at h ⊢
  rwa [hcount]

end Worker

namespace Store

variable {s s' : Store cfg} {c : ConnId cfg} {source : Option ℕ} {i : ℕ} {w : Worker cfg}
  {b : ServiceAction}

/-- Some task gets to the removal test for the connection. -/
def HasTester (s : Store cfg) (c : ConnId cfg) : Prop :=
  ∃ i w, s.worker i = some w ∧ w.conn = c ∧ w.Tests (s.conn c)

/-- Every mark on a live connection has a task to honour it. -/
def Honoured (s : Store cfg) : Prop :=
  ∀ c, 0 ≤ (s.conn c).fd → (s.conn c).markedForRemoval = true → s.HasTester c

/-- The task was created for an earlier use of its connection struct. -/
def Stale (s : Store cfg) (i : ℕ) : Prop :=
  (s.worker i).any fun w ↦ decide (w.changeCount ≠ (s.conn w.conn).changeCount)

instance (s : Store cfg) (i : ℕ) : Decidable (s.Stale i) := inferInstanceAs (Decidable (_ = true))

theorem HasTester.mono (h : s.HasTester c)
    (hworker : ∀ i w, s.worker i = some w → s'.worker i = some w)
    (hcount : (s'.conn c).changeCount = (s.conn c).changeCount) : s'.HasTester c := by
  obtain ⟨i, w, hw, hc, htests⟩ := h
  exact ⟨i, w, hworker i w hw, hc, htests.congr hcount⟩

theorem honoured_create (cfg : Config) : (create cfg).Honoured := by
  intro c hfd
  exact absurd hfd Connection.closed_unused.not_open

/-- Marks may go, and be made where there is someone to honour them. -/
theorem Honoured.mono (h : s.Honoured)
    (hworker : ∀ i w, s.worker i = some w → s'.worker i = some w)
    (hconn : ∀ c, 0 ≤ (s'.conn c).fd → (s'.conn c).markedForRemoval = true →
      (s'.conn c).changeCount = (s.conn c).changeCount ∧
        (s.HasTester c ∨ 0 ≤ (s.conn c).fd ∧ (s.conn c).markedForRemoval = true)) :
    s'.Honoured := by
  intro c hfd hmark
  obtain ⟨hcount, htester | hold⟩ := hconn c hfd hmark
  · exact htester.mono hworker hcount
  · exact (h c hold.1 hold.2).mono hworker hcount

theorem Honoured.of_same (h : s.Honoured) (hsame : s.Same s') : s'.Honoured := by
  refine h.mono (fun _ _ hw ↦ by rw [hsame.worker]; exact hw) fun x hfd hmark ↦ ?_
  rw [hsame.conn] at hfd hmark ⊢
  exact ⟨rfl, .inr ⟨hfd, hmark⟩⟩

/-- One connection changes, and tasks may be created. -/
theorem Honoured.of_update {conn : Connection} (h : s.Honoured)
    (hconn' : s'.conn = Function.update s.conn c conn)
    (hworker : ∀ i w, s.worker i = some w → s'.worker i = some w)
    (hconn : 0 ≤ conn.fd → conn.markedForRemoval = true →
      conn.changeCount = (s.conn c).changeCount ∧
        (s.HasTester c ∨ 0 ≤ (s.conn c).fd ∧ (s.conn c).markedForRemoval = true)) :
    s'.Honoured := by
  refine h.mono hworker fun x hfd hmark ↦ ?_
  rw [hconn'] at hfd hmark ⊢
  by_cases hx : x = c
  · subst hx
    rw [Function.update_self] at hfd hmark ⊢
    exact hconn hfd hmark
  · rw [Function.update_of_ne hx] at hfd hmark ⊢
    exact ⟨rfl, .inr ⟨hfd, hmark⟩⟩

theorem Honoured.of_sets {conn : Connection} (h : s.Honoured) (hsets : s.Sets c conn s')
    (hconn : 0 ≤ conn.fd → conn.markedForRemoval = true →
      conn.changeCount = (s.conn c).changeCount ∧
        (s.HasTester c ∨ 0 ≤ (s.conn c).fd ∧ (s.conn c).markedForRemoval = true)) :
    s'.Honoured :=
  h.of_update hsets.conn (fun _ _ hw ↦ by rw [hsets.worker]; exact hw) hconn

theorem honoured_tries (h : s.Honoured) (htries : s.Tries c source s')
    (hsure : ∀ i, s.connMutex c = some i → s.HasTester c) : s'.Honoured := by
  cases htries with
  | removes hfree hsets =>
      exact h.of_sets hsets fun hfd ↦ absurd hfd (Connection.closed_reset true).not_open
  | exits hfree hsame hexit => exact h.of_same hsame
  | marks hheld hsets => exact h.of_sets hsets fun _ _ ↦ ⟨rfl, .inl (hsure _ hheld)⟩

/-- **A task that leaves its connection takes the mark along**, or has not counted. -/
theorem honoured_works (h : s.Honoured) (hw : s.worker i = some w)
    (hworks : s.Works i w b s') : s'.Honoured := by
  -- another task keeps counting, and so does this one if it still does
  have hkeeps : ∀ {w' : Option (Worker cfg)},
      s'.worker i = w' → (∀ c, (s.conn c).SameUse (s'.conn c)) →
      (∀ c, (s'.conn c).markedForRemoval = (s.conn c).markedForRemoval) →
      (w.Tests (s.conn w.conn) → (s.conn w.conn).markedForRemoval = true →
        ∃ w₁, w' = some w₁ ∧ w₁.conn = w.conn ∧ w₁.Tests (s.conn w.conn)) → s'.Honoured := by
    intro w' hself huse hmarked hnext c hfd hmark
    rw [(huse c).fd] at hfd
    rw [hmarked] at hmark
    obtain ⟨j, wj, hj, hc, htests⟩ := h c hfd hmark
    by_cases hji : j = i
    · subst hji
      rw [hw] at hj
      cases hj
      subst hc
      obtain ⟨w₁, rfl, hconn, htests₁⟩ := hnext htests hmark
      exact ⟨j, w₁, hself, hconn, htests₁.congr (huse _).changeCount⟩
    · exact ⟨j, wj, by rw [hworks.worker_of_ne hji, hj], hc, htests.congr (huse c).changeCount⟩
  cases hworks with
  | locks hp hfree =>
      refine hkeeps (Function.update_self i _ _) (fun _ ↦ .refl _) (fun _ ↦ rfl) ?_
      intro htests
      simp only [Worker.Tests, hp] at htests
  | leaves hp hcount =>
      refine hkeeps (Function.update_self i _ _) (fun _ ↦ .refl _) (fun _ ↦ rfl) ?_
      intro htests
      simp only [Worker.Tests, hp] at htests
      exact absurd htests hcount
  | begins hp hcount =>
      exact hkeeps (Function.update_self i _ _) (fun _ ↦ .refl _) (fun _ ↦ rfl)
        fun _ _ ↦ ⟨_, rfl, rfl, trivial⟩
  | serves hp hr hconn hworker hmutex =>
      have hserved := Connection.served_serve hr
      refine hkeeps (congrFun hworker i |>.trans (Function.update_self i _ _)) (fun c ↦ ?_)
        (fun c ↦ ?_) fun _ _ ↦ ⟨_, rfl, rfl, trivial⟩
      · by_cases hc : c = w.conn
        · subst hc
          rw [hconn, Function.update_self]
          exact hserved.toSameUse
        · rw [hconn, Function.update_of_ne hc]
          exact .refl _
      · by_cases hc : c = w.conn
        · subst hc
          rw [hconn, Function.update_self]
          exact hserved.markedForRemoval
        · rw [hconn, Function.update_of_ne hc]
  | unlocks hp =>
      exact hkeeps (Function.update_self i _ _) (fun _ ↦ .refl _) (fun _ ↦ rfl)
        fun _ _ ↦ ⟨_, rfl, rfl, trivial⟩
  | locksServer hp =>
      exact hkeeps (Function.update_self i _ _) (fun _ ↦ .refl _) (fun _ ↦ rfl)
        fun _ _ ↦ ⟨_, rfl, rfl, trivial⟩
  | finishes hp hfree hkeep =>
      refine hkeeps (Function.update_self i _ _) (fun _ ↦ .refl _) (fun _ ↦ rfl) ?_
      intro _ hmark
      exact absurd (hkeep.2.symm.trans hmark) Bool.false_ne_true
  | removes hp hfree hcause hsets =>
      intro c hfd hmark
      by_cases hc : c = w.conn
      · subst hc
        rw [hsets.conn_self] at hfd
        exact absurd hfd (Connection.closed_reset true).not_open
      · rw [hsets.conn_of_ne hc] at hfd hmark
        obtain ⟨j, wj, hj, hjc, htests⟩ := h c hfd hmark
        have hji : j ≠ i := by
          rintro rfl
          rw [hw] at hj
          cases hj
          exact hc hjc.symm
        refine ⟨j, wj, ?_, hjc, ?_⟩
        · rw [hsets.worker]
          exact (Function.update_of_ne hji _ _).trans hj
        · rw [hsets.conn_of_ne hc]
          exact htests
  | exits hp hfree hcause hsame hexit => exact h.of_same hsame

end Store

namespace POServer

variable {s s' : POServer cfg} {a : Action cfg} {listenerFd : ListenerId cfg → ℤ}

/-- When `checkTryRemoveConnection` cannot lock the connection mutex, the task that holds it was
created for the connection that the struct is used for now, or another task for the struct is
past its hold. -/
def MarksForTester (s : POServer cfg) (a : Action cfg) : Prop :=
  ∀ c ∈ s.tries a, ∀ i ∈ s.store.connMutex c, ¬ s.store.Stale i ∨ s.store.HasTask c Worker.PastHold

instance (s : POServer cfg) (a : Action cfg) : Decidable (s.MarksForTester a) :=
  inferInstanceAs (Decidable (∀ c ∈ s.tries a, ∀ i ∈ s.store.connMutex c, _))

/-- The condition finds a task that gets to its removal test. -/
theorem hasTester_of_marksForTester {c : ConnId cfg} {i : ℕ} (h : s.Threaded)
    (hrun : s.store.exited = false)
    (hsure : ¬ s.store.Stale i ∨ s.store.HasTask c Worker.PastHold)
    (hi : s.store.connMutex c = some i) :
    s.store.HasTester c := by
  obtain ⟨w, hw, hc, hlocks⟩ := h.held c i hi
  rcases hsure with hfresh | hpast
  · refine ⟨i, w, hw, hc, ?_⟩
    subst hc
    have hcount : w.changeCount = (s.store.conn w.conn).changeCount := by
      simpa [Store.Stale, hw] using hfresh
    unfold Worker.Tests
    cases hp : w.place with
    | locked => exact hcount
    | serving phase => trivial
    | queued | lockServer | lockConn => simp [hp, Place.Locks] at hlocks
  · obtain ⟨j, w', hw', hc', hpast⟩ := (h.core hrun).sound.tasks.hasTask_iff.mp hpast
    refine ⟨j, w', hw', hc', ?_⟩
    unfold Worker.Tests
    cases hp : w'.place with
    | lockServer | lockConn => trivial
    | queued | locked | serving => simp [Worker.PastHold, hp] at hpast

theorem honoured_step (hinv : s.Threaded) (hpool : cfg.threadPool = true)
    (h : s.store.Honoured) (hsure : s.MarksForTester a) (hs : step s a = some s') :
    s'.store.Honoured := by
  have htries : ∀ {c source}, s.tries a = some c → s.store.Tries c source s'.store →
      s'.store.Honoured := by
    intro c source hc htries
    refine Store.honoured_tries h htries fun i hi ↦ ?_
    exact hasTester_of_marksForTester hinv (running_of_step hs) (hsure c hc i hi) hi
  cases hinv.moves hpool hs with
  | stays hsame htries hother hm => exact h.of_same hsame
  | finds | takes | passes | returns | ends => exact h
  | sweeps hm hm' hc hfd hstore => exact htries hc hstore
  | removesIdle hm hm' hfd hstore => exact htries (by simp only [tries, hm]) hstore
  | hangsUp hm hm' hfd hflag hstore =>
      refine htries ?_ hstore
      simp only [tries, hm]
      exact if_pos ⟨fun hfd' ↦ absurd (hfd' ▸ hfd) (by decide), hflag⟩
  | readies hm hm' hfd hfree hcalls hsets =>
      exact h.of_sets hsets fun hfd hmark ↦ ⟨rfl, .inr ⟨hfd, hmark⟩⟩
  | queues hm hm' hfd hfree hcalls hfresh hconn hworker hmutex =>
      exact h.of_update hconn (Store.worker_of_queued hworker hfresh)
        fun hfd hmark ↦ ⟨rfl, .inr ⟨hfd, hmark⟩⟩
  | accepts hm hm' hfd hclosed hfree hsets =>
      refine h.of_sets hsets fun _ hmark ↦ ?_
      have hrun := running_of_step hs
      exact absurd ((hinv.core hrun).sound.slots.marked _ hmark).2 hclosed
  | works hm hw hworks => exact Store.honoured_works h hw hworks

/-- The condition is exact: a mark that it excludes has no task to honour it. -/
theorem not_honoured_step (hinv : s.Threaded) (hpool : cfg.threadPool = true)
    (hunsure : ¬ s.MarksForTester a) (hs : step s a = some s') : ¬ s'.store.Honoured := by
  obtain ⟨c, hunsure⟩ := not_forall.mp hunsure
  obtain ⟨hc, hunsure⟩ := Classical.not_imp.mp hunsure
  obtain ⟨i, hunsure⟩ := not_forall.mp hunsure
  obtain ⟨hi, hunsure⟩ := Classical.not_imp.mp hunsure
  obtain ⟨hstale, hpast⟩ := not_or.mp hunsure
  have hcore := hinv.core (running_of_step hs)
  -- `i` is the only task that holds the mutex, and nobody is past it
  have hnot : ¬ s.store.HasTester c := by
    rintro ⟨j, w, hw, hwc, htests⟩
    have htask := hcore.sound.tasks j w hw
    have hholder : w.place.Locks → w.changeCount = (s.store.conn w.conn).changeCount → False := by
      intro hlocks hcount
      have hji : j = i := Option.some.inj ((htask.locks hlocks).symm.trans (hwc ▸ hi))
      subst hji
      exact absurd hcount (by simpa [Store.Stale, hw] using hstale)
    have hpasses : w.PastHold = true → False := fun hw' ↦
      hpast (hcore.sound.tasks.hasTask_iff.mpr ⟨j, w, hw, hwc, hw'⟩)
    cases hp : w.place with
    | queued => simp only [Worker.Tests, hp] at htests
    | locked =>
        rw [Worker.Tests, hp] at htests
        exact hholder (hp ▸ trivial) (hwc ▸ htests)
    | serving phase => exact hholder (hp ▸ trivial) (htask.serving phase hp).symm
    | lockServer removeMe => exact hpasses (by rw [Worker.PastHold, hp])
    | lockConn removeMe => exact hpasses (by rw [Worker.PastHold, hp])
  obtain ⟨hfd, source, htries⟩ := (hinv.moves hpool hs).tries hc
  cases htries with
  | removes hfree hsets => exact absurd (hfree.symm.trans hi) (Option.some_ne_none i).symm
  | exits hfree hsame hexit => exact absurd (hfree.symm.trans hi) (Option.some_ne_none i).symm
  | marks hheld hsets =>
      intro h
      refine hnot ?_
      have hc' := hsets.conn_self
      obtain ⟨j, w, hw, hwc, htests⟩ := h c (by rw [hc']; exact hfd) (by rw [hc'])
      refine ⟨j, w, hsets.worker ▸ hw, hwc, htests.congr ?_⟩
      rw [hc']

/-- **Marks are honoured as long as none is left to a stale task.**  In a run in which
`checkTryRemoveConnection` finds the mutex held only by tasks for the current use of the struct, or
while another task is past its hold, every mark has a task that gets to the removal test.
Such a step is followed by such a state, and no other. -/
theorem honoured_of_reach (hpool : cfg.threadPool = true)
    (h : Reach step MarksForTester (start cfg listenerFd) s) :
    s.store.Honoured ∧
      ∀ a s', step s a = some s' → (s'.store.Honoured ↔ s.MarksForTester a) := by
  have hinv := threaded_of_reach hpool h
  have hhonoured : s.store.Honoured :=
    h.invariant_of (fun hr ↦ threaded_of_reach hpool hr) (Store.honoured_create cfg)
      fun hinv hold hsure hs ↦ honoured_step hinv hpool hold hsure hs
  refine ⟨hhonoured, fun a s' hs ↦ ⟨fun h' ↦ ?_, fun hsure ↦ ?_⟩⟩
  · exact Decidable.byContradiction fun hunsure ↦ not_honoured_step hinv hpool hunsure hs h'
  · exact honoured_step hinv hpool hhonoured hsure hs

/-- Connection `0` is hung up while a task is in its callback. -/
theorem honoured_of_serving :
    ∃ s, Reach step MarksForTester (start (oneConnection true) fun _ ↦ 3) s ∧
      (s.store.conn 0).markedForRemoval = true ∧ s.store.Honoured ∧
      ∀ a s', step s a = some s' → (s'.store.Honoured ↔ s.MarksForTester a) := by
  obtain ⟨s, hreach, hmark⟩ :
      ∃ s, Reach step MarksForTester (start (oneConnection true) fun _ ↦ 3) s ∧
        (s.store.conn 0).markedForRemoval = true :=
    exists_reach_of_exec_decide
      (acceptsFirst true ++
        ([.epollWait [.conn ⟨0, true, false, true, false, 0⟩], .proceed 0 true, .proceed 0 true,
          .proceed 0 true, .work 0 .go true, .work 0 .go true, .work 0 .go true, .proceed 0 true,
          .proceed 0 true] : List (Action (oneConnection true))))
      (by decide)
  exact ⟨s, hreach, hmark, honoured_of_reach rfl hreach⟩

/-- A task of connection `0` is queued when the connection is removed.  It locks the mutex of
connection `1`, which has the struct then; connection `1` is hung up and marked, and the task
leaves. -/
theorem not_honoured_of_stale :
    ∃ s, Reach step Any (start (oneConnection true) fun _ ↦ 3) s ∧ ¬ s.store.Honoured := by
  obtain ⟨s, hreach, hfd, hmark, hrun, htasks⟩ :
      ∃ s, Reach step Any (start (oneConnection true) fun _ ↦ 3) s ∧
        0 ≤ (s.store.conn 0).fd ∧ (s.store.conn 0).markedForRemoval = true ∧
        s.store.exited = false ∧ ∀ i < s.store.workers, (s.store.worker i).isNone = true :=
    exists_reach_of_exec_decide
      (acceptsFirst true ++
        ([.epollWait [.conn ⟨0, true, false, true, false, 0⟩], .proceed 0 true, .proceed 0 true,
          .proceed 0 true, .proceed 0 true, .proceed 0 true, .proceed 0 true, .doNextEvents 0,
          .accept (.accepted 11 0), .proceed 0 true, .proceed 0 true, .proceed 0 true,
          .work 0 .go true, .epollWait [.conn ⟨0, false, false, true, false, 1⟩], .proceed 0 true, .proceed 0 true,
          .proceed 0 true, .work 0 .go true] : List (Action (oneConnection true))))
      (by decide)
  refine ⟨s, hreach, fun h ↦ ?_⟩
  obtain ⟨i, w, hw, -⟩ := h 0 hfd hmark
  have hcore := (threaded_of_reach rfl hreach).core hrun
  have hnone := htasks i (hcore.sound.tasks i w hw).fresh
  simp [hw] at hnone

end POServer

end Tidbits.Server
