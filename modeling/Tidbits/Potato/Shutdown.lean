import Mathlib.Data.PNat.Defs
import Tidbits.Potato.Listeners

/-!
# What a signal handler and a new process see of a shutdown

A handler that runs while `poServer_shutdown()` closes the listeners of a server
meets closed entries, and nowhere else (`entriesOpen_iff_of_reach`).  It may even
send its own socket in the place of a listener (`Inv.sends_of_closed`).

`END_CHAR` is written by the `poServer_shutdown()` of the last server, in front of
its own loop.  So the listeners of that server are still open then
(`endedWith_of_reach`).
-/

namespace Tidbits.Potato

open Transition

/-! ## Between two steps of the loop of `poServer_shutdown()` -/

/-- The server is in `poServer_destroy()`. -/
def Process.Destroys (p : Process) (id : ℕ) : Prop :=
  match p.control.stage id with
  | .destroy _ | .destroyed => True
  | _ => False

/-- `poServer_shutdown()` has closed a listener of the server, and some are still counted. -/
def Process.MidClose (p : Process) (id : ℕ) : Prop :=
  match p.control.stage id with
  | .closing i => 0 < i ∧ 0 < (p.server id).numListeners
  | .closed _ | .cleared _ => True
  | _ => False

/-- The entries that `passListeners()` would send are open. -/
def Process.EntriesOpen (p : Process) (id : ℕ) : Prop :=
  ∀ i < (p.server id).numListeners, (p.server id).fd i ∈ p.listening

theorem Process.transmitted_subset_iff (p : Process) :
    (∀ fd ∈ p.transmitted, fd ∈ p.listening) ↔ ∀ id ∈ p.servers, p.EntriesOpen id := by
  constructor
  · intro h id hid i hi
    refine h _ (List.mem_flatMap.mpr ⟨id, hid, List.mem_map.mpr ⟨i, ?_, rfl⟩⟩)
    exact List.mem_reverse.mpr (List.mem_range.mpr hi)
  · intro h fd hfd
    obtain ⟨id, hid, hfd⟩ := List.mem_flatMap.mp hfd
    obtain ⟨i, hi, rfl⟩ := List.mem_map.mp hfd
    exact h id hid i (List.mem_range.mp (List.mem_reverse.mp hi))

section Entries

variable {num : ℕ+} {L : Finset ℤ} {s : Server} {i : ℕ}

theorem Shape.open_of_steady (h : Shape num L s .steady) : ∀ j < s.numListeners, s.fd j ∈ L :=
  fun j hj ↦ (h.2 j (nomatch ·)).1 ⟨Nat.zero_le j, hj⟩

theorem Shape.open_of_stored (h : Shape num L s .stored) : ∀ j < s.numListeners, s.fd j ∈ L :=
  fun j hj ↦ (h.2 j (nomatch ·)).1 ⟨Nat.zero_le j, Nat.lt_succ_of_lt hj⟩

/-- In front of a round of the loop, the first entry was closed, if any was. -/
theorem Shape.open_iff_of_closing (h : Shape num L s (.closing i)) (hL : ∀ d ∈ L, 0 ≤ d) :
    (∀ j < s.numListeners, s.fd j ∈ L) ↔ ¬ (0 < i ∧ 0 < s.numListeners) := by
  obtain ⟨hi, hle, hnum, hholds⟩ := h
  constructor
  · rintro hopen ⟨hpos, hsome⟩
    have hnonneg := hL _ (hopen 0 hsome)
    rw [(hholds 0 (nomatch ·)).2 fun hin ↦ Nat.not_le_of_lt hpos hin.1] at hnonneg
    exact absurd hnonneg (by decide)
  · intro hnot j hj
    have hzero : i = 0 := by
      by_contra hne
      exact hnot ⟨Nat.pos_of_ne_zero hne, Nat.zero_lt_of_lt hj⟩
    subst hzero
    exact (hholds j (nomatch ·)).1 ⟨Nat.zero_le j, hj.trans_eq hnum⟩

/-- Within a round, the first entry is closed and still counted. -/
theorem Shape.not_open_of_closed (h : Shape num L s (.closed i)) (hL : ∀ d ∈ L, 0 ≤ d) :
    ¬ ∀ j < s.numListeners, s.fd j ∈ L := by
  obtain ⟨hi, hle, hlt, hnum, hout, hholds⟩ := h
  intro hopen
  have hfirst := hopen 0 (by omega)
  by_cases hzero : 0 = i
  · subst hzero
    exact hout hfirst
  · have hnonneg := hL _ hfirst
    rw [(hholds 0 fun heq ↦ hzero (Option.some.inj heq)).2 (by omega)] at hnonneg
    exact absurd hnonneg (by decide)

theorem Shape.not_open_of_cleared (h : Shape num L s (.cleared i)) (hL : ∀ d ∈ L, 0 ≤ d) :
    ¬ ∀ j < s.numListeners, s.fd j ∈ L := by
  obtain ⟨hi, hle, hlt, hnum, hholds⟩ := h
  intro hopen
  have hnonneg := hL _ (hopen 0 (by omega))
  rw [(hholds 0 (nomatch ·)).2 (by omega)] at hnonneg
  exact absurd hnonneg (by decide)

end Entries

theorem Inv.entriesOpen_iff {num : ℕ+} {p : Process} (h : Inv num p) {id : ℕ}
    (hid : id ∈ p.servers) (hlife : ¬ p.Destroys id) :
    p.EntriesOpen id ↔ ¬ p.MidClose id := by
  have hshape := h.shape id hid
  unfold Process.Destroys at hlife
  unfold Process.MidClose
  cases hstage : p.control.stage id with
  | steady =>
      rw [hstage] at hshape
      exact ⟨fun _ ↦ not_false, fun _ ↦ hshape.open_of_steady⟩
  | stored =>
      rw [hstage] at hshape
      exact ⟨fun _ ↦ not_false, fun _ ↦ hshape.open_of_stored⟩
  | closing i =>
      rw [hstage] at hshape
      exact hshape.open_iff_of_closing h.nonneg
  | closed i =>
      rw [hstage] at hshape
      exact ⟨fun hopen ↦ absurd hopen (hshape.not_open_of_closed h.nonneg),
        fun hnot ↦ absurd trivial hnot⟩
  | cleared i =>
      rw [hstage] at hshape
      exact ⟨fun hopen ↦ absurd hopen (hshape.not_open_of_cleared h.nonneg),
        fun hnot ↦ absurd trivial hnot⟩
  | destroy i =>
      rw [hstage] at hlife
      exact absurd trivial hlife
  | destroyed =>
      rw [hstage] at hlife
      exact absurd trivial hlife

/-- Behind the `close()` of the first entry, the handler's own socket can have its number: then it
is sent, and nothing fails. -/
theorem Inv.sends_of_closed {num : ℕ+} {p : Process} (h : Inv num p) {id : ℕ}
    (hc : p.control = .closed id 0) (hlowest : lowestFree p.opened = (p.server id).fd 0) :
    p.Sends p.transmitted := by
  have hwork : p.control.work = some (id, .closed 0) := by rw [hc]; rfl
  obtain ⟨-, hon, hi, -, -, hnum, -, hholds⟩ := h.shape_of_work hwork
  have hopen : ∀ {fd}, fd ∈ p.listening → fd ∈ insert (lowestFree p.opened) p.opened :=
    fun hin ↦ Finset.mem_insert_of_mem (Finset.mem_union_left _ (Finset.mem_union_left _ hin))
  intro fd hfd
  obtain ⟨id', hid', hfd⟩ := List.mem_flatMap.mp hfd
  obtain ⟨j, hj, rfl⟩ := List.mem_map.mp hfd
  have hlt : j < (p.server id').numListeners := List.mem_range.mp (List.mem_reverse.mp hj)
  by_cases heq : id' = id
  · subst heq
    by_cases hzero : j = 0
    · rw [hlowest, hzero]
      exact Finset.mem_insert_self _ _
    · exact hopen ((hholds j fun hsame ↦ hzero (Option.some.inj hsame)).1 ⟨by omega, by omega⟩)
  · have hshape := h.shape id' hid'
    rw [hon.stage heq] at hshape
    exact hopen (hshape.open_of_steady j hlt)

/-- **A signal handler meets a closed entry only while a server closes its
listeners.**  At each point of a server's life at which a signal is handled, the
entries that `passListeners()` would send are open if and only if
`poServer_shutdown()` is not between the first `close()` of its loop and the last
`--s->numListeners`; and if no server is destroyed, the handler sends only open
listeners in just this case. -/
theorem entriesOpen_iff_of_reach (num : ℕ+) (table : Finset ℕ) (p : Process)
    (h : Reach (Process.step num) Any (.start table) p) (hsignals : p.signals = .handled) :
    (∀ id ∈ p.servers, ¬ p.Destroys id → (p.EntriesOpen id ↔ ¬ p.MidClose id)) ∧
      ((∀ id ∈ p.servers, ¬ p.Destroys id) →
        ((∀ fd ∈ p.transmitted, fd ∈ p.listening) ↔ ∀ id ∈ p.servers, ¬ p.MidClose id)) := by
  have hinv : Inv num p :=
    (inv_of_reach h).resolve_left fun hspent ↦ nomatch hsignals.symm.trans hspent.1
  refine ⟨fun id hid hlife ↦ hinv.entriesOpen_iff hid hlife, fun hlife ↦ ?_⟩
  rw [p.transmitted_subset_iff]
  exact forall₂_congr fun id hid ↦ hinv.entriesOpen_iff hid (hlife id hid)

/-- Two servers of one listener each: the first one is in front of its loop, and the second one has
its descriptor counted. -/
theorem entriesOpen_iff_of_two : ∃ p : Process, p.signals = .handled ∧ p.servers = [1, 0] ∧
    p.control = .closing 0 0 ∧ p.transmitted = [6, 4] ∧
      ∀ fd ∈ p.transmitted, fd ∈ p.listening := by
  obtain ⟨p, hr, hsignals, hservers, hc, htransmitted⟩ : ∃ p,
      Reach (Process.step 1) Any (.start ∅) p ∧ p.signals = .handled ∧ p.servers = [1, 0] ∧
        p.control = .closing 0 0 ∧ p.transmitted = [6, 4] :=
    exists_reach_of_exec_decide
      [.opens, .opens, .opens, .create 0, .opens, .setup 0 4, .go, .go, .create 1, .opens,
        .setup 1 6, .go, .go, .signal false .passed, .shutdown 0, .go] (by decide)
  refine ⟨p, hsignals, hservers, hc, htransmitted,
    ((entriesOpen_iff_of_reach 1 ∅ p hr hsignals).2 fun id _ ↦ ?_).mpr fun id _ ↦ ?_⟩
  · unfold Process.Destroys Control.stage
    rw [hc]
    by_cases heq : 0 = id <;> simp [Control.work, heq]
  · unfold Process.MidClose Control.stage
    rw [hc]
    by_cases heq : 0 = id <;> simp [Control.work, heq]

/-- The server has one listener, which is closed and still counted when the signal comes. -/
theorem not_entriesOpen_of_closed : ¬ ∀ (num : ℕ+) (table : Finset ℕ) (p : Process),
    Reach (Process.step num) Any (.start table) p → p.signals = .handled →
      ∀ id ∈ p.servers, ¬ p.Destroys id → p.EntriesOpen id := by
  intro h
  obtain ⟨p, hr, hsignals, hin, hc, hnum, hout⟩ : ∃ p,
      Reach (Process.step 1) Any (.start ∅) p ∧ p.signals = .handled ∧ 0 ∈ p.servers ∧
        p.control = .closed 0 0 ∧ (p.server 0).numListeners = 1 ∧
          (p.server 0).fd 0 ∉ p.listening :=
    exists_reach_of_exec_decide
      [.opens, .opens, .opens, .create 0, .opens, .setup 0 4, .go, .go, .shutdown 0, .go, .go]
      (by decide)
  have hlife : ¬ p.Destroys 0 := by
    unfold Process.Destroys
    rw [hc]
    exact not_false
  exact hout (h 1 ∅ p hr hsignals 0 hin hlife 0 (by omega))

/-- There the handler's socket gets the number of the listener, and the process goes on. -/
example : (exec (Process.step 1) Any (.start ∅)
    [.opens, .opens, .opens, .create 0, .opens, .setup 0 4, .go, .go, .shutdown 0, .go, .go,
      .signal false .passed]).map Process.control = some (.closed 0 0) := by decide

/-! ## When `END_CHAR` is written -/

/-- The next step writes `END_CHAR`, in the `poServer_shutdown()` of the server. -/
def Process.WritesEnd (p : Process) (id : ℕ) : Prop :=
  p.control = .down id ∧ p.shutdownFd ≠ -1 ∧
    (∀ id' ∈ p.servers, (p.server id').listenersDown = true) ∧ p.socket = some p.shutdownFd

instance (p : Process) (id : ℕ) : Decidable (p.WritesEnd id) :=
  inferInstanceAs (Decidable (_ ∧ _))

/-- A server whose `poServer_shutdown()` writes `END_CHAR` has no listeners. -/
def EndsWithout (p : Process) (a : ProcessAction) : Prop :=
  a = .go → ∀ id ∈ p.servers, p.WritesEnd id → (p.server id).numListeners = 0

instance : DecidableRel EndsWithout := fun p a ↦
  inferInstanceAs (Decidable (a = .go → ∀ id ∈ p.servers, _))

/-- The listeners that are open while `END_CHAR` is written are those of the server that is shut
down. -/
theorem Inv.open_iff_of_writesEnd {num : ℕ+} {p : Process} (h : Inv num p) {id : ℕ}
    (hw : p.WritesEnd id) : p.listening \ p.handoff = ∅ ↔ (p.server id).numListeners = 0 := by
  obtain ⟨hc, -, hdown, -⟩ := hw
  have hwork : p.control.work = some (id, .steady) := by rw [hc]; rfl
  obtain ⟨hid, hon, hshape⟩ := h.shape_of_work hwork
  constructor
  · intro hempty
    by_contra hne
    have hin := hshape.open_of_steady 0 (Nat.pos_of_ne_zero hne)
    have hopen := Finset.mem_sdiff.mpr ⟨hin, h.notHandoff id hid 0⟩
    rw [hempty] at hopen
    exact absurd hopen (Finset.notMem_empty _)
  · intro hzero
    refine Finset.eq_empty_of_forall_notMem fun fd hfd ↦ ?_
    obtain ⟨hin, hout⟩ := Finset.mem_sdiff.mp hfd
    rcases h.covered fd hin with hhandoff | ⟨id', heq⟩ | ⟨id', hid', j, rfl⟩
    · exact hout hhandoff
    · exact nomatch hc.symm.trans heq
    · refine h.notMem_neg ?_ hin
      by_cases heq : id' = id
      · subst heq
        exact (hshape.2 j (nomatch ·)).2 fun hlt ↦ by omega
      · exact h.down id' hid' (hdown id' hid') (fun hs ↦ heq (hon.of_shutsDown hs)) j

theorem Process.passListeners_endedWith (p : Process) (usr1 : Bool) (passing : Passing) :
    (p.passListeners usr1 passing).endedWith = p.endedWith := by
  rcases p.passListeners_cases usr1 passing with heq | heq | heq | heq <;>
    exact (congrArg Process.endedWith heq).trans rfl

theorem Process.countListener_endedWith (num : ℕ+) (p : Process) (id : ℕ) :
    (p.countListener num id).endedWith = p.endedWith := by
  unfold Process.countListener
  dsimp only
  split_ifs <;> rfl

theorem Process.endedWith_of_go {num : ℕ+} {p q : Process} (hq : p.go num = some q) :
    q.endedWith = p.endedWith ∨
      (∃ id, p.WritesEnd id) ∧ q.endedWith = some (p.listening \ p.handoff) := by
  unfold Process.go at hq
  split at hq
  case h_2 id hc =>
    cases hq
    exact .inl (p.countListener_endedWith num id)
  case h_3 id hc =>
    cases hq
    rcases p.checkSignalNewServerContinue_cases with heq | ⟨hend, heq⟩ <;> rw [heq]
    · exact .inl rfl
    · by_cases hsocket : p.socket = some p.shutdownFd
      · exact .inr ⟨⟨id, hc, hend.1, hend.2, hsocket⟩, if_pos hsocket⟩
      · exact .inl (if_neg hsocket)
  all_goals (try split_ifs at hq) <;> cases hq <;> exact .inl rfl

/-- `END_CHAR` is written in `poServer_shutdown()` only. -/
theorem Process.endedWith_of_step {num : ℕ+} {p q : Process} {a : ProcessAction}
    (hq : p.step num a = some q) : q.endedWith = p.endedWith ∨
      a = .go ∧ (∃ id, p.WritesEnd id) ∧ q.endedWith = some (p.listening \ p.handoff) := by
  cases a with
  | go => exact (endedWith_of_go hq).imp_right fun h ↦ ⟨rfl, h⟩
  | signal usr1 passing =>
      simp only [Process.step] at hq
      split_ifs at hq
      split at hq <;> cases hq
      · exact .inl rfl
      · exact .inl (p.passListeners_endedWith usr1 passing)
      · exact .inl rfl
  | fail =>
      simp only [Process.step] at hq
      split at hq <;> cases hq
      exact .inl rfl
  | create | incompatible | setup | shutdown | destroy | opens | closes =>
      simp only [Process.step] at hq
      split_ifs at hq <;> cases hq <;> exact .inl rfl

/-- In front of its loop nothing but `listenersDown` was written. -/
theorem Process.endedWith_of_writesEnd {num : ℕ+} {p q : Process} {id : ℕ} (hw : p.WritesEnd id)
    (hq : p.step num .go = some q) : q.endedWith = some (p.listening \ p.handoff) := by
  obtain ⟨hc, hset, hdown, hsocket⟩ := hw
  rw [Process.step, Process.go, hc] at hq
  cases hq
  unfold Process.checkSignalNewServerContinue
  rw [if_pos ⟨hset, hdown⟩]
  exact if_pos hsocket

/-- Before `END_CHAR` is written the hand-off is not over. -/
theorem inv_of_writesEnd {num : ℕ+} {ok : Process → ProcessAction → Prop} {table : Finset ℕ}
    {p : Process} (h : Reach (Process.step num) ok (.start table) p) {id : ℕ}
    (hw : p.WritesEnd id) : Inv num p :=
  (inv_of_reach h).resolve_left fun hspent ↦ hw.2.1 hspent.2

/-- **`END_CHAR` overtakes the listeners of the last server.**  In a run in which a
server whose `poServer_shutdown()` writes `END_CHAR` has no listeners, all listening
descriptors of the servers are closed when it is written; and the first step that
breaks this rule writes it while some are open. -/
theorem endedWith_of_reach (num : ℕ+) (table : Finset ℕ) (p : Process)
    (h : Reach (Process.step num) EndsWithout (.start table) p) :
    (∀ fds, p.endedWith = some fds → fds = ∅) ∧
      ∀ id q, p.WritesEnd id → p.step num .go = some q →
        (q.endedWith = some ∅ ↔ (p.server id).numListeners = 0) := by
  refine ⟨?_, fun id q hw hq ↦ ?_⟩
  · refine h.invariant_of (I := fun p ↦ ∀ fds, p.endedWith = some fds → fds = ∅)
      (J := fun p ↦ ∀ id, p.WritesEnd id → Inv num p) (fun hr _ hw ↦ inv_of_writesEnd hr hw)
      (fun _ heq ↦ nomatch heq) ?_
    intro p q a hinv hempty hok hq fds hfds
    rcases Process.endedWith_of_step hq with hsame | ⟨ha, ⟨id, hw⟩, hended⟩
    · exact hempty fds (hsame ▸ hfds)
    · replace hinv := hinv id hw
      have hid : id ∈ p.servers := hinv.works (id, .steady) (by rw [hw.1]; rfl)
      have hnone := (hinv.open_iff_of_writesEnd hw).mpr (hok ha id hid hw)
      rw [hended, hnone] at hfds
      exact (Option.some.inj hfds).symm
  · rw [Process.endedWith_of_writesEnd hw hq, Option.some_inj]
    exact (inv_of_writesEnd h hw).open_iff_of_writesEnd hw

/-- Two servers: the one with a listener is shut down first, and the one without writes
`END_CHAR`. -/
theorem endedWith_of_two : ∃ p q : Process, p.servers = [1, 0] ∧ p.endedWith = none ∧
    p.WritesEnd 1 ∧ p.step 1 .go = some q ∧ q.endedWith = some ∅ ∧
      ∀ fds, q.endedWith = some fds → fds = ∅ := by
  obtain ⟨p, hr, hservers, hnone, hw, hnum, hok, hgo⟩ : ∃ p,
      Reach (Process.step 1) EndsWithout (.start ∅) p ∧ p.servers = [1, 0] ∧
        p.endedWith = none ∧ p.WritesEnd 1 ∧ (p.server 1).numListeners = 0 ∧
          EndsWithout p .go ∧ (p.step 1 .go).isSome :=
    exists_reach_of_exec_decide
      [.opens, .opens, .opens, .create 0, .opens, .setup 0 4, .go, .go, .create 1, .opens,
        .signal true .passed, .shutdown 0, .go, .go, .go, .go, .go, .go, .shutdown 1] (by decide)
  obtain ⟨q, hq⟩ := Option.isSome_iff_exists.mp hgo
  exact ⟨p, q, hservers, hnone, hw, hq, ((endedWith_of_reach 1 ∅ p hr).2 1 q hw hq).mpr hnum,
    (endedWith_of_reach 1 ∅ q (hr.tail hok hq)).1⟩

/-- The listener of the last server is open when `END_CHAR` is written. -/
theorem not_endedWith_of_one : ¬ ∀ (num : ℕ+) (table : Finset ℕ) (p : Process),
    Reach (Process.step num) Any (.start table) p → ∀ fds, p.endedWith = some fds → fds = ∅ := by
  intro h
  obtain ⟨p, hr, hended⟩ : ∃ p, Reach (Process.step 1) Any (.start ∅) p ∧
      p.endedWith = some {4} :=
    exists_reach_of_exec_decide
      [.opens, .opens, .opens, .create 0, .opens, .setup 0 4, .go, .go, .signal true .passed,
        .shutdown 0, .go] (by decide)
  exact absurd (h 1 ∅ p hr {4} hended) (by decide)

end Tidbits.Potato
