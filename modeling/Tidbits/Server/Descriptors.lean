import Tidbits.Server.Backlog

/-!
# The descriptors of a server, from its creation to its end

`poServer_create()` opens the epoll instance, each `poServer_listenerSetup()` that
succeeds adds a listening socket, and `poServer_shutdown()` and
`poServer_destroy()` close them.  What happens to the listening sockets in between
is nothing: no step of the event loop touches them.

`poServer_shutdown()` marks what it closes, and `poServer_destroy()` does not, so
its second loop closes again what its first loop has closed.
-/

namespace Tidbits.Server

open Transition POServer

variable {cfg : Config}

/-- A server, as far as its own descriptors are concerned. -/
structure Descriptors (cfg : Config) where
  efd : ℤ
  /-- The fields `listener[i].fd`. -/
  fd : ListenerId cfg → ℤ
  numListeners : ℕ
  /-- The arguments of the calls of `close()`, first first. -/
  closed : List ℤ
  /-- A failing `ASSERT` has ended the process. -/
  exited : Bool

namespace Descriptors

/-- `poServer_create()`. -/
def create (cfg : Config) (efd : ℤ) : Descriptors cfg := ⟨efd, fun _ ↦ -1, 0, [], false⟩

/-- `poServer_listenerSetup()`, with a socket that is new or was handed off. -/
def listenerSetup (d : Descriptors cfg) (fd : ℤ) : Descriptors cfg :=
  if h : d.numListeners < cfg.numListeners then
    { d with
      fd := Function.update d.fd ⟨d.numListeners, h⟩ fd
      numListeners := d.numListeners + 1 }
  else d

/-- The calls of `poServer_listenerSetup()`. -/
def setUp (cfg : Config) (efd : ℤ) (fds : List ℤ) : Descriptors cfg :=
  fds.foldl listenerSetup (create cfg efd)

/-- `close()`. -/
def close (d : Descriptors cfg) (fd : ℤ) : Descriptors cfg := { d with closed := d.closed ++ [fd] }

/-- The loop body of `poServer_shutdown()`. -/
def shutdownListener (d : Descriptors cfg) (l : ListenerId cfg) : Descriptors cfg :=
  if 0 ≤ d.fd l then
    { d.close (d.fd l) with
      fd := Function.update d.fd l (-1)
      numListeners := d.numListeners - 1 }
  else d

/-- `poServer_shutdown()`. -/
def shutdown (d : Descriptors cfg) : Descriptors cfg :=
  (List.finRange cfg.numListeners).foldl shutdownListener d

/-- The body of the first loop of `poServer_destroy()` over the listeners. -/
def closeListener (d : Descriptors cfg) (l : ListenerId cfg) : Descriptors cfg :=
  if 0 ≤ d.fd l then d.close (d.fd l) else d

/-- The body of the last one.  The `ASSERT` fails for a descriptor that was closed, unless another
thread has got it anew. -/
def assertCloseListener (reused : ℤ → Bool) (d : Descriptors cfg) (l : ListenerId cfg) :
    Descriptors cfg :=
  if d.exited then d
  else if 0 ≤ d.fd l then
    { d.close (d.fd l) with exited := decide (d.fd l ∈ d.closed) && !reused (d.fd l) }
  else d

/-- `poServer_destroy()`. -/
def destroy (reused : ℤ → Bool) (d : Descriptors cfg) : Descriptors cfg :=
  let d := (List.finRange cfg.numListeners).foldl closeListener d
  let d := (List.finRange cfg.numListeners).foldl (assertCloseListener reused) d
  if d.exited then d else d.close d.efd

/-- The server is destroyed, after a run of it that has come to `s` and after
`poServer_shutdown()`, if that is called. -/
def life (efd : ℤ) (fds : List ℤ) (s : POServer cfg) (down : Bool) (reused : ℤ → Bool) :
    Descriptors cfg :=
  let d := { setUp cfg efd fds with fd := s.listenerFd }
  (if down then d.shutdown else d).destroy reused

/-- Every descriptor was closed, and none a second time. -/
structure ClosedOnce (d : Descriptors cfg) (fds : List ℤ) : Prop where
  nodup : d.closed.Nodup
  all : ∀ fd ∈ fds, fd ∈ d.closed

/-- The listening sockets, by listener. -/
def listening (d : Descriptors cfg) : List ℤ :=
  ((List.finRange cfg.numListeners).map d.fd).filter (0 ≤ ·)

end Descriptors

/-! ## The event loop -/

namespace POServer

/-- `poServer_shutdown()` is not called. -/
def NotDown (_ : POServer cfg) (a : Action cfg) : Prop := a ≠ .shutdown

instance : DecidableRel (@NotDown cfg) := fun _ a ↦ inferInstanceAs (Decidable (a ≠ _))

variable {s s' : POServer cfg} {a : Action cfg} {listenerFd : ListenerId cfg → ℤ}

theorem listenerFd_of_step (hup : s.NotDown a) (hs : step s a = some s') :
    s'.listenerFd = s.listenerFd := by
  cases attends_of_step hup hs with
  | stays hsame | fetches hsame | drops hsame => exact hsame.listenerFd
  | pushes hsame =>
      rw [hsame.listenerFd, queuePush]
      split_ifs <;> rfl
  | pulls hsame =>
      rw [hsame.listenerFd, queuePull]
      split <;> rfl

theorem listenerFd_of_reach (h : Reach step NotDown (start cfg listenerFd) s) :
    s.listenerFd = listenerFd :=
  h.invariant (I := fun s ↦ s.listenerFd = listenerFd) rfl
    fun heq hup hs ↦ (listenerFd_of_step hup hs).trans heq

end POServer

/-! ## The loops -/

namespace Descriptors

variable {d : Descriptors cfg} {ls : List (ListenerId cfg)} {l : ListenerId cfg} {efd : ℤ}
  {fds : List ℤ} {reused : ℤ → Bool}

/-- Each listener is set up at the next index. -/
theorem fd_setUp (hle : fds.length ≤ cfg.numListeners) :
    (setUp cfg efd fds).numListeners = fds.length ∧
      ∀ l, (setUp cfg efd fds).fd l = fds.getD l (-1) := by
  induction fds using List.reverseRecOn with
  | nil => exact ⟨rfl, fun _ ↦ rfl⟩
  | append_singleton fds fd ih =>
      rw [List.length_append, List.length_singleton] at hle
      obtain ⟨hnum, hfd⟩ := ih (Nat.le_of_succ_le hle)
      rw [setUp, List.foldl_append, List.foldl_cons, List.foldl_nil]
      rw [← setUp, listenerSetup, dif_pos (hnum ▸ hle)]
      refine ⟨?_, fun l ↦ ?_⟩
      · rw [List.length_append]
        exact congrArg (· + 1) hnum
      dsimp only
      rw [List.getD_eq_getElem?_getD]
      rcases Nat.lt_trichotomy l fds.length with hlt | heq | hgt
      · rw [Function.update_of_ne (fun h ↦ by simp [h, hnum] at hlt), hfd,
          List.getElem?_append_left hlt, List.getD_eq_getElem?_getD]
      · obtain rfl : l = ⟨(setUp cfg efd fds).numListeners, hnum ▸ hle⟩ :=
          Fin.ext (heq.trans hnum.symm)
        rw [Function.update_self]
        simp [hnum]
      · rw [Function.update_of_ne (fun h ↦ by simp [h, hnum] at hgt), hfd,
          List.getD_eq_getElem?_getD, List.getElem?_eq_none (Nat.le_of_lt hgt),
          List.getElem?_eq_none (by rw [List.length_append]; exact hgt)]

theorem foldl_listenerSetup (d : Descriptors cfg) (fds : List ℤ) :
    (fds.foldl listenerSetup d).closed = d.closed ∧
      (fds.foldl listenerSetup d).exited = d.exited ∧
      (fds.foldl listenerSetup d).efd = d.efd := by
  induction fds generalizing d with
  | nil => exact ⟨rfl, rfl, rfl⟩
  | cons fd fds ih =>
      obtain ⟨hclosed, hexited, hefd⟩ := ih (d.listenerSetup fd)
      rw [List.foldl_cons, hclosed, hexited, hefd, listenerSetup]
      split_ifs <;> exact ⟨rfl, rfl, rfl⟩

/-- The listening sockets are those that were set up. -/
theorem listening_setUp (hle : fds.length ≤ cfg.numListeners) (hpos : ∀ fd ∈ fds, 0 ≤ fd) :
    (setUp cfg efd fds).listening = fds := by
  have hmap : (List.finRange cfg.numListeners).map (setUp cfg efd fds).fd =
      fds ++ List.replicate (cfg.numListeners - fds.length) (-1) := by
    refine List.ext_getElem ?_ fun i hi hi' ↦ ?_
    · rw [List.length_map, List.length_finRange, List.length_append, List.length_replicate,
        Nat.add_sub_cancel' hle]
    · rw [List.getElem_map, List.getElem_finRange, (fd_setUp hle).2, List.getD_eq_getElem?_getD]
      rcases Nat.lt_or_ge i fds.length with hlt | hge
      · rw [List.getElem_append_left hlt]
        simp [hlt]
      · rw [List.getElem_append_right hge, List.getElem_replicate]
        simp [hge]
  rw [listening, hmap, List.filter_append, List.filter_eq_self.mpr fun fd hfd ↦
    decide_eq_true (hpos fd hfd), List.filter_replicate]
  simp

/-- The first loop of `poServer_destroy()` closes what is open, and marks nothing. -/
theorem foldl_closeListener (d : Descriptors cfg) (ls : List (ListenerId cfg)) :
    ls.foldl closeListener d =
      { d with closed := d.closed ++ (ls.map d.fd).filter (0 ≤ ·) } := by
  induction ls generalizing d with
  | nil => simp
  | cons l ls ih =>
      rw [List.foldl_cons, ih, closeListener]
      split_ifs with hfd
      · simp [close, hfd]
      · simp [hfd]

/-- The loop of `poServer_shutdown()` closes what is open and marks it. -/
theorem foldl_shutdownListener (d : Descriptors cfg) (hnodup : ls.Nodup) :
    (ls.foldl shutdownListener d).closed = d.closed ++ (ls.map d.fd).filter (0 ≤ ·) ∧
      (ls.foldl shutdownListener d).exited = d.exited ∧
      (ls.foldl shutdownListener d).efd = d.efd ∧
      ∀ l, 0 ≤ (ls.foldl shutdownListener d).fd l ↔ 0 ≤ d.fd l ∧ l ∉ ls := by
  induction ls generalizing d with
  | nil => simp
  | cons l ls ih =>
      obtain ⟨hl, hnodup⟩ := List.nodup_cons.mp hnodup
      rw [List.foldl_cons]
      obtain ⟨hclosed, hexited, hefd, hopen⟩ := ih (d.shutdownListener l) hnodup
      have hothers : ∀ l', l' ≠ l → (d.shutdownListener l).fd l' = d.fd l' := by
        intro l' hne
        unfold shutdownListener
        split_ifs
        · exact Function.update_of_ne hne _ _
        · rfl
      have hself : ¬ 0 ≤ (d.shutdownListener l).fd l := by
        unfold shutdownListener
        split_ifs with hfd
        · simp
        · exact hfd
      have hmap : ls.map (d.shutdownListener l).fd = ls.map d.fd :=
        List.map_congr_left fun l' hl' ↦ hothers l' fun heq ↦ hl (heq ▸ hl')
      refine ⟨?_, ?_, ?_, fun l' ↦ ?_⟩
      · rw [hclosed, hmap, shutdownListener]
        split_ifs with hfd <;> simp [close, hfd]
      · rw [hexited, shutdownListener]
        split_ifs <;> rfl
      · rw [hefd, shutdownListener]
        split_ifs <;> rfl
      · rw [hopen, List.mem_cons, not_or]
        rcases eq_or_ne l' l with rfl | hne
        · exact iff_of_false (fun h ↦ hself h.1) fun h ↦ h.2.1 rfl
        · rw [hothers l' hne]
          exact ⟨fun h ↦ ⟨h.1, hne, h.2⟩, fun h ↦ ⟨h.1, h.2.2⟩⟩

/-- The last loop of `poServer_destroy()` finds nothing when all listeners are marked. -/
theorem foldl_assertCloseListener_of_marked (hmarked : ∀ l, ¬ 0 ≤ d.fd l) :
    ls.foldl (assertCloseListener reused) d = d := by
  induction ls with
  | nil => rfl
  | cons l ls ih =>
      rw [List.foldl_cons, assertCloseListener, if_neg (hmarked l), ite_self]
      exact ih

/-- What was closed stays closed. -/
theorem prefix_foldl_assertCloseListener (reused : ℤ → Bool) (d : Descriptors cfg)
    (ls : List (ListenerId cfg)) :
    d.closed <+: (ls.foldl (assertCloseListener reused) d).closed := by
  induction ls generalizing d with
  | nil => exact List.prefix_refl _
  | cons l ls ih =>
      refine List.IsPrefix.trans ?_ (ih _)
      unfold assertCloseListener
      split_ifs
      · exact List.prefix_refl _
      · exact List.prefix_append _ _
      · exact List.prefix_refl _

/-- The last loop closes again what the first one has closed and not marked. -/
theorem not_nodup_foldl_assertCloseListener (reused : ℤ → Bool) (hrun : d.exited = false)
    (hclosed : ∀ l, 0 ≤ d.fd l → d.fd l ∈ d.closed) (hl : l ∈ ls) (hfd : 0 ≤ d.fd l) :
    ¬ (ls.foldl (assertCloseListener reused) d).closed.Nodup := by
  induction ls with
  | nil => cases hl
  | cons l' ls ih =>
      rw [List.foldl_cons]
      by_cases hfd' : 0 ≤ d.fd l'
      · intro hnodup
        have hstart := prefix_foldl_assertCloseListener reused (d.assertCloseListener reused l') ls
        have htwice := hnodup.sublist hstart.sublist
        rw [assertCloseListener, hrun, if_neg Bool.false_ne_true, if_pos hfd'] at htwice
        exact (List.nodup_append.mp htwice).2.2 _ (hclosed l' hfd') _
          (List.mem_singleton_self _) rfl
      · have hskip : d.assertCloseListener reused l' = d := by
          rw [assertCloseListener, if_neg hfd', ite_self]
        rw [hskip]
        rcases List.mem_cons.mp hl with rfl | hl
        · exact absurd hfd hfd'
        · exact ih hl

/-! ## Closed once -/

/-- When all listeners are marked, only the epoll instance is left to close. -/
theorem destroy_of_marked (hrun : d.exited = false) (hmarked : ∀ l, ¬ 0 ≤ d.fd l) :
    (d.destroy reused).closed = d.closed ++ [d.efd] := by
  have hnone : ((List.finRange cfg.numListeners).map d.fd).filter (0 ≤ ·) = [] := by
    refine List.filter_eq_nil_iff.mpr fun fd hfd ↦ ?_
    obtain ⟨l, -, rfl⟩ := List.mem_map.mp hfd
    exact fun h ↦ hmarked l (of_decide_eq_true h)
  rw [destroy, foldl_closeListener, hnone, List.append_nil]
  rw [foldl_assertCloseListener_of_marked hmarked, hrun, if_neg Bool.false_ne_true]
  rfl

theorem not_nodup_destroy (hrun : d.exited = false) {l : ListenerId cfg} (hfd : 0 ≤ d.fd l) :
    ¬ (d.destroy reused).closed.Nodup := by
  have hclosed : ∀ l, 0 ≤ d.fd l →
      d.fd l ∈ d.closed ++ ((List.finRange cfg.numListeners).map d.fd).filter (0 ≤ ·) := by
    intro l hl
    refine List.mem_append_right _ (List.mem_filter.mpr ⟨?_, decide_eq_true hl⟩)
    exact List.mem_map_of_mem (List.mem_finRange l)
  rw [destroy, foldl_closeListener]
  have htwice := not_nodup_foldl_assertCloseListener reused
    (d := { d with closed := d.closed ++
      ((List.finRange cfg.numListeners).map d.fd).filter (0 ≤ ·) })
    hrun hclosed (List.mem_finRange l) hfd
  split_ifs
  · exact htwice
  · exact fun hnodup ↦ htwice (hnodup.sublist (List.sublist_append_left _ _))

/-- **Every descriptor is closed once if and only if `poServer_shutdown()` was called, or there is
no listener.** -/
theorem closedOnce_life_iff (cfg : Config) (efd : ℤ) (fds : List ℤ) (s : POServer cfg)
    (down : Bool) (reused : ℤ → Bool) (hpos : ∀ fd ∈ fds, 0 ≤ fd) (hnodup : (efd :: fds).Nodup)
    (hle : fds.length ≤ cfg.numListeners)
    (h : Reach step NotDown (start cfg (setUp cfg efd fds).fd) s) :
    (life efd fds s down reused).ClosedOnce (efd :: fds) ↔ down = true ∨ fds = [] := by
  have hset : { setUp cfg efd fds with fd := s.listenerFd } = setUp cfg efd fds := by
    rw [listenerFd_of_reach h]
  obtain ⟨hclosed, hrun, hefd⟩ := foldl_listenerSetup (create cfg efd) fds
  have honce : ∀ d : Descriptors cfg, d.closed = fds ++ [efd] → d.ClosedOnce (efd :: fds) := by
    intro d heq
    refine ⟨?_, fun fd hfd ↦ ?_⟩
    · rw [heq]
      exact (List.perm_append_singleton efd fds).nodup_iff.mpr hnodup
    · rw [heq]
      exact (List.perm_append_singleton efd fds).mem_iff.mpr hfd
  rw [life, hset]
  cases down with
  | true =>
      refine iff_of_true (honce _ ?_) (.inl rfl)
      obtain ⟨hshut, hexited, hefd', hopen⟩ :=
        foldl_shutdownListener (setUp cfg efd fds) (List.nodup_finRange cfg.numListeners)
      rw [if_pos rfl, shutdown, destroy_of_marked (hexited.trans hrun)
        fun l hl ↦ ((hopen l).mp hl).2 (List.mem_finRange l), hshut, hefd']
      show (setUp cfg efd fds).closed ++ (setUp cfg efd fds).listening ++
        [(setUp cfg efd fds).efd] = fds ++ [efd]
      rw [listening_setUp hle hpos]
      exact congrArg₂ (fun closed efd ↦ closed ++ fds ++ [efd]) hclosed hefd
  | false =>
      rw [if_neg Bool.false_ne_true, or_iff_right Bool.false_ne_true]
      constructor
      · intro hall
        by_contra hne
        obtain ⟨fd, rest, rfl⟩ := List.exists_cons_of_ne_nil hne
        have hmem : fd ∈ (setUp cfg efd (fd :: rest)).listening := by
          rw [listening_setUp hle hpos]
          exact List.mem_cons_self
        obtain ⟨hmap, hfd⟩ := List.mem_filter.mp hmem
        obtain ⟨l, -, hl⟩ := List.mem_map.mp hmap
        exact not_nodup_destroy hrun (hl ▸ of_decide_eq_true hfd) hall.nodup
      · rintro rfl
        refine honce _ (destroy_of_marked hrun fun l ↦ ?_)
        rw [(fd_setUp hle).2]
        exact (by decide : ¬ (0 : ℤ) ≤ -1)

/-- A server that has a connection is shut down and destroyed. -/
theorem closedOnce_of_shutdown :
    ∃ s, Reach step NotDown (start (oneConnection true) (setUp _ 3 [4]).fd) s ∧
      (s.store.conn 0).fd = 10 ∧ (life 3 [4] s true fun _ ↦ false).ClosedOnce [3, 4] := by
  obtain ⟨s, hreach, hfd⟩ :
      ∃ s, Reach step NotDown (start (oneConnection true) (setUp _ 3 [4]).fd) s ∧
        (s.store.conn 0).fd = 10 :=
    exists_reach_of_exec_decide (acceptsFirst true) (by decide)
  exact ⟨s, hreach, hfd,
    (closedOnce_life_iff _ 3 [4] s true _ (by decide) (by decide) (by decide) hreach).mpr
      (.inl rfl)⟩

/-- When a server is destroyed that was not shut down, as after a set-up that fails, its listening
socket is closed twice. -/
theorem not_closedOnce_of_oneListener :
    ¬ ∀ (cfg : Config) (efd : ℤ) (fds : List ℤ) (s : POServer cfg) (down : Bool)
      (reused : ℤ → Bool), (∀ fd ∈ fds, 0 ≤ fd) → (efd :: fds).Nodup →
        fds.length ≤ cfg.numListeners →
        Reach step NotDown (start cfg (setUp cfg efd fds).fd) s →
        (life efd fds s down reused).ClosedOnce (efd :: fds) := by
  intro h
  have honce := h (oneConnection true) 3 [4] _ false (fun _ ↦ false) (by decide) (by decide)
    (by decide) .refl
  exact absurd honce.nodup (by decide)

end Descriptors

end Tidbits.Server
