import Tidbits.Potato.Process

/-!
# The listeners of the servers of a process

`Inv` says which descriptors the entries of the servers hold, at each point of the
main thread.  While `poServer_shutdown()` closes the listeners of a server from the
first one on, `numListeners` shrinks from the other end; the stages of a server say
how far it is.
-/

namespace Tidbits.Potato

open Transition

/-! ## Stages of a server -/

/-- What the main thread does with a server. -/
inductive Stage
  | steady
  | stored
  | closing (i : ℕ)
  | closed (i : ℕ)
  | cleared (i : ℕ)
  | destroy (i : ℕ)
  | destroyed
deriving DecidableEq, Repr

/-- The server that the main thread works on, and its stage. -/
def Control.work : Control → Option (ℕ × Stage)
  | .setup id _ | .down id | .waiting id => some (id, .steady)
  | .stored id => some (id, .stored)
  | .closing id i => some (id, .closing i)
  | .closed id i => some (id, .closed i)
  | .cleared id i => some (id, .cleared i)
  | .destroy id i => some (id, .destroy i)
  | .destroyed id _ => some (id, .destroyed)
  | .idle | .exited => none

/-- The stage of a server. -/
def Control.stage (c : Control) (id : ℕ) : Stage :=
  match c.work with
  | some (id', stage) => if id' = id then stage else .steady
  | none => .steady

/-- The main thread works on no other server. -/
def Control.On (c : Control) (id : ℕ) : Prop := ∀ w ∈ c.work, w.1 = id

/-- The entries from `lo` to `hi` hold descriptors that listen, and the others none; but nothing is
said of the entry `but`. -/
def Holds (listening : Finset ℤ) (fd : ℕ → ℤ) (lo hi : ℕ) (but : Option ℕ) : Prop :=
  ∀ j, some j ≠ but → (lo ≤ j ∧ j < hi → fd j ∈ listening) ∧ (¬ (lo ≤ j ∧ j < hi) → fd j = -1)

/-- What the entries of a server hold at a stage. -/
def Shape (num : ℕ+) (listening : Finset ℤ) (s : Server) : Stage → Prop
  | .steady => s.numListeners ≤ num ∧ Holds listening s.fd 0 s.numListeners none
  | .stored => s.numListeners < num ∧ Holds listening s.fd 0 (s.numListeners + 1) none
  | .closing i => ∃ hi ≤ (num : ℕ), s.numListeners = hi - i ∧ Holds listening s.fd i hi none
  | .closed i =>
      ∃ hi ≤ (num : ℕ), i < hi ∧ s.numListeners = hi - i ∧ s.fd i ∉ listening ∧
        Holds listening s.fd (i + 1) hi (some i)
  | .cleared i =>
      ∃ hi ≤ (num : ℕ), i < hi ∧ s.numListeners = hi - i ∧ Holds listening s.fd (i + 1) hi none
  | .destroy i => (∀ j < i, s.fd j ∉ listening) ∧ ∀ j, (num : ℕ) ≤ j → s.fd j = -1
  | .destroyed => ∀ j, s.fd j ∉ listening

/-- The server is being shut down. -/
def Control.ShutsDown (c : Control) (id : ℕ) : Prop :=
  match c with
  | .down id' | .closing id' _ | .closed id' _ | .cleared id' _ => id' = id
  | _ => False

/-- `SIGUSR1` was handled, and `END_CHAR` was to be written. -/
def Process.Spent (p : Process) : Prop := p.signals = .ignored ∧ p.shutdownFd = -1

/-- What holds of a process at each point of the main thread, until the hand-off is over. -/
structure Inv (num : ℕ+) (p : Process) : Prop where
  nonneg : ∀ fd ∈ p.listening, 0 ≤ fd
  handoff : p.handoff ⊆ p.listening
  works : ∀ w ∈ p.control.work, w.1 ∈ p.servers
  shape : ∀ id ∈ p.servers, Shape num p.listening (p.server id) (p.control.stage id)
  /-- No descriptor is in two entries, -/
  distinct : ∀ id ∈ p.servers, ∀ id' ∈ p.servers, ∀ j j', 0 ≤ (p.server id).fd j →
    (p.server id).fd j = (p.server id').fd j' → id = id' ∧ j = j'
  /-- or in an entry and in the table, -/
  notHandoff : ∀ id ∈ p.servers, ∀ j, (p.server id).fd j ∉ p.handoff
  /-- or in an entry and on its way to another one. -/
  setup : ∀ id fd, p.control = .setup id fd → fd ∈ p.listening ∧ fd ∉ p.handoff ∧
    (p.server id).numListeners < num ∧ (p.server id).listenersDown = false ∧
      ∀ id' ∈ p.servers, ∀ j, (p.server id').fd j ≠ fd
  covered : ∀ fd ∈ p.listening, fd ∈ p.handoff ∨ (∃ id, p.control = .setup id fd) ∨
    ∃ id ∈ p.servers, ∃ j, (p.server id).fd j = fd
  down : ∀ id ∈ p.servers, (p.server id).listenersDown = true → ¬ p.control.ShutsDown id →
    ∀ j, (p.server id).fd j = -1

theorem Control.On.stage {c : Control} {id id' : ℕ} (h : c.On id) (hne : id' ≠ id) :
    c.stage id' = .steady := by
  unfold Control.stage
  split
  · next id₀ stage heq => exact if_neg fun hsame ↦ hne (hsame.symm.trans (h (id₀, stage) heq))
  · rfl

theorem Control.On.of_shutsDown {c : Control} {id id' : ℕ} (h : c.On id) (hs : c.ShutsDown id') :
    id' = id := by
  cases c with
  | down | closing | closed | cleared => exact (hs : _ = id').symm.trans (h _ rfl)
  | idle | setup | stored | waiting | destroy | destroyed | exited => exact hs.elim

theorem Control.stage_of_work {c : Control} {id : ℕ} {stage : Stage}
    (h : c.work = some (id, stage)) : c.stage id = stage := by
  rw [Control.stage, h]
  exact if_pos rfl

theorem Control.stage_setup (id : ℕ) (fd : ℤ) (id' : ℕ) :
    (Control.setup id fd).stage id' = .steady :=
  ite_self _

section Shapes

variable {num : ℕ+} {L L' : Finset ℤ} {s : Server} {stage : Stage} {fd : ℕ → ℤ} {lo hi : ℕ}
  {but : Option ℕ}

theorem Holds.congr (h : Holds L fd lo hi but) (hmem : ∀ j, fd j ∈ L → some j ≠ but → fd j ∈ L') :
    Holds L' fd lo hi but :=
  fun j hj ↦ ⟨fun hin ↦ hmem j ((h j hj).1 hin) hj, (h j hj).2⟩

/-- A shape depends only on which of the entries listen. -/
theorem Shape.congr (h : Shape num L s stage) (hmem : ∀ j, s.fd j ∈ L ↔ s.fd j ∈ L') :
    Shape num L' s stage := by
  have hkeep : ∀ {lo hi but}, Holds L s.fd lo hi but → Holds L' s.fd lo hi but :=
    fun hholds ↦ hholds.congr fun j hj _ ↦ (hmem j).mp hj
  cases stage with
  | steady => exact ⟨h.1, hkeep h.2⟩
  | stored => exact ⟨h.1, hkeep h.2⟩
  | closing i =>
      obtain ⟨hi, hle, hnum, hholds⟩ := h
      exact ⟨hi, hle, hnum, hkeep hholds⟩
  | closed i =>
      obtain ⟨hi, hle, hlt, hnum, hout, hholds⟩ := h
      exact ⟨hi, hle, hlt, hnum, fun hin ↦ hout ((hmem i).mpr hin), hkeep hholds⟩
  | cleared i =>
      obtain ⟨hi, hle, hlt, hnum, hholds⟩ := h
      exact ⟨hi, hle, hlt, hnum, hkeep hholds⟩
  | destroy i => exact ⟨fun j hj hin ↦ h.1 j hj ((hmem j).mpr hin), h.2⟩
  | destroyed => exact fun j hin ↦ h j ((hmem j).mpr hin)

/-- The entries of a steady server listen, or they are not set. -/
theorem Shape.listens (h : Shape num L s .steady) (j : ℕ) : s.fd j ∈ L ∨ s.fd j = -1 := by
  by_cases hj : 0 ≤ j ∧ j < s.numListeners
  · exact .inl ((h.2 j (nomatch ·)).1 hj)
  · exact .inr ((h.2 j (nomatch ·)).2 hj)

/-- An entry that was not set listens now. -/
theorem Holds.store {d : ℤ} {n : ℕ} (h : Holds L fd 0 n none) (hd : d ∈ L) :
    Holds L (Function.update fd n d) 0 (n + 1) none := by
  intro j _
  by_cases hj : j = n
  · subst hj
    rw [Function.update_self]
    exact ⟨fun _ ↦ hd, fun hout ↦ absurd ⟨Nat.zero_le _, Nat.lt_succ_self _⟩ hout⟩
  · rw [Function.update_of_ne hj]
    refine ⟨fun hin ↦ (h j (nomatch ·)).1 ⟨hin.1, ?_⟩, fun hout ↦ (h j (nomatch ·)).2 fun hin ↦ ?_⟩
    · omega
    · exact hout ⟨hin.1, Nat.lt_succ_of_lt hin.2⟩

/-- The first entry that listens is closed. -/
theorem Holds.close {i : ℕ} (h : Holds L fd i hi none)
    (hothers : ∀ j, j ≠ i → fd j ∈ L → fd j ∈ L') : Holds L' fd (i + 1) hi (some i) := by
  intro j hj
  have hne : j ≠ i := fun heq ↦ hj (congrArg some heq)
  refine ⟨fun hin ↦ hothers j hne ((h j (nomatch ·)).1 ⟨?_, hin.2⟩), fun hout ↦
    (h j (nomatch ·)).2 fun hin ↦ hout ⟨?_, hin.2⟩⟩
  · exact Nat.le_of_succ_le hin.1
  · omega

/-- The entry that was closed is not set any more. -/
theorem Holds.clear {i : ℕ} (h : Holds L fd (i + 1) hi (some i)) :
    Holds L (Function.update fd i (-1)) (i + 1) hi none := by
  intro j _
  by_cases hj : j = i
  · subst hj
    rw [Function.update_self]
    exact ⟨fun hin ↦ absurd hin.1 (Nat.not_succ_le_self _), fun _ ↦ rfl⟩
  · rw [Function.update_of_ne hj]
    exact h j fun heq ↦ hj (Option.some.inj heq)

end Shapes

namespace Inv

variable {num : ℕ+} {p q : Process}

theorem notMem_neg (h : Inv num p) {fd : ℤ} (hneg : fd = -1) : fd ∉ p.listening := by
  intro hin
  have hnonneg := h.nonneg fd hin
  omega

/-- Signals, the other descriptors and what was recorded do not matter. -/
theorem of_same (h : Inv num p) (hservers : q.servers = p.servers) (hserver : q.server = p.server)
    (hlistening : q.listening = p.listening) (hhandoff : q.handoff = p.handoff)
    (hcontrol : q.control = p.control) : Inv num q := by
  obtain ⟨servers, server, listening, handoff, socket, others, signals, shutdownFd, control,
    endedWith⟩ := q
  dsimp only at hservers hserver hlistening hhandoff hcontrol
  subst hservers hserver hlistening hhandoff hcontrol
  exact ⟨h.nonneg, h.handoff, h.works, h.shape, h.distinct, h.notHandoff, h.setup, h.covered,
    h.down⟩

/-- A descriptor that does not listen is closed. -/
theorem closeOther (h : Inv num p) {fd : ℤ} (hout : fd ∉ p.listening) : Inv num (p.close fd) :=
  h.of_same rfl rfl (Finset.erase_eq_of_notMem hout) rfl rfl

theorem exit (p : Process) : Inv num p.exit where
  nonneg := fun _ hin ↦ absurd hin (Finset.notMem_empty _)
  handoff := fun _ hin ↦ absurd hin (Finset.notMem_empty _)
  works := fun _ hin ↦ nomatch hin
  shape := fun _ hin ↦ nomatch hin
  distinct := fun _ hin ↦ nomatch hin
  notHandoff := fun _ hin ↦ nomatch hin
  setup := fun _ _ heq ↦ nomatch heq
  covered := fun _ hin ↦ absurd hin (Finset.notMem_empty _)
  down := fun _ hin ↦ nomatch hin

/-- A descriptor of an entry is closed. -/
theorem closeSlot (h : Inv num p) {id i : ℕ} (hid : id ∈ p.servers)
    (hopen : 0 ≤ (p.server id).fd i) (c : Control)
    (hshape : Shape num (p.listening.erase ((p.server id).fd i)) (p.server id) (c.stage id))
    (hon : p.control.On id) (hon' : c.On id)
    (hfree : ∀ id fd, p.control ≠ .setup id fd) (hsetup : ∀ id fd, c ≠ .setup id fd)
    (hshuts : p.control.ShutsDown id → c.ShutsDown id) :
    Inv num { p.close ((p.server id).fd i) with control := c } where
  nonneg := fun fd hin ↦ h.nonneg fd (Finset.mem_of_mem_erase hin)
  handoff := fun fd hin ↦ Finset.mem_erase.mpr
    ⟨fun heq ↦ h.notHandoff id hid i (heq ▸ hin), h.handoff hin⟩
  works := fun w hw ↦ hon' w hw ▸ hid
  shape := fun id' hid' ↦ by
    by_cases heq : id' = id
    · subst heq
      exact hshape
    · rw [hon'.stage heq, ← hon.stage heq]
      refine (h.shape id' hid').congr fun j ↦ ⟨fun hin ↦ ?_, Finset.mem_of_mem_erase⟩
      refine Finset.mem_erase.mpr ⟨fun hsame ↦ heq ?_, hin⟩
      exact (h.distinct id hid id' hid' i j hopen hsame.symm).1.symm
  distinct := h.distinct
  notHandoff := h.notHandoff
  setup := fun id fd heq ↦ absurd heq (hsetup id fd)
  covered := fun fd hin ↦ by
    rcases h.covered fd (Finset.mem_of_mem_erase hin) with hhandoff | ⟨id, heq⟩ | hslot
    · exact .inl hhandoff
    · exact absurd heq (hfree id fd)
    · exact .inr (.inr hslot)
  down := fun id' hid' hdown hnot ↦ h.down id' hid' hdown fun hs ↦ by
    obtain rfl := hon.of_shutsDown hs
    exact hnot (hshuts hs)

/-- The fields of a server are written, and no entry that listens is lost. -/
theorem write (h : Inv num p) {id : ℕ} (hid : id ∈ p.servers) (s : Server)
    (hfd : ∀ j, s.fd j = (p.server id).fd j ∨ s.fd j = -1)
    (hkept : ∀ j, (p.server id).fd j ∈ p.listening → s.fd j = (p.server id).fd j) (c : Control)
    (hshape : Shape num p.listening s (c.stage id))
    (hon : p.control.On id) (hon' : c.On id)
    (hfree : ∀ id fd, p.control ≠ .setup id fd) (hsetup : ∀ id fd, c ≠ .setup id fd)
    (hdown : s.listenersDown = true → ¬ c.ShutsDown id → ∀ j, s.fd j = -1) :
    Inv num { p.setServer id s with control := c } := by
  have hself : (p.setServer id s).server id = s := Function.update_self _ _ _
  have hother : ∀ id', id' ≠ id → (p.setServer id s).server id' = p.server id' :=
    fun id' hne ↦ Function.update_of_ne hne _ _
  -- an entry that is set was set before
  have hold : ∀ id' j, 0 ≤ ((p.setServer id s).server id').fd j →
      ((p.setServer id s).server id').fd j = (p.server id').fd j := by
    intro id' j hpos
    by_cases heq : id' = id
    · subst heq
      rw [hself] at hpos ⊢
      rcases hfd j with hsame | hneg
      · exact hsame
      · rw [hneg] at hpos
        exact absurd hpos (by decide)
    · rw [hother id' heq]
  refine ⟨h.nonneg, h.handoff, fun w hw ↦ hon' w hw ▸ hid, fun id' hid' ↦ ?_,
    fun id₁ hid₁ id₂ hid₂ j j' hpos hsame ↦ ?_, fun id' hid' j hin ↦ ?_,
    fun id fd heq ↦ absurd heq (hsetup id fd), fun fd hin ↦ ?_, fun id' hid' hdown' hnot ↦ ?_⟩
  · by_cases heq : id' = id
    · subst heq
      dsimp only
      rw [hself]
      exact hshape
    · dsimp only
      rw [hon'.stage heq, ← hon.stage heq, hother id' heq]
      exact h.shape id' hid'
  · refine h.distinct id₁ hid₁ id₂ hid₂ j j' ((hold id₁ j hpos) ▸ hpos) ?_
    rw [← hold id₁ j hpos, ← hold id₂ j' (hsame ▸ hpos)]
    exact hsame
  · have hpos := h.nonneg _ (h.handoff hin)
    rw [hold id' j hpos] at hin
    exact h.notHandoff id' hid' j hin
  · rcases h.covered fd hin with hhandoff | ⟨id, heq⟩ | ⟨id', hid', j, hslot⟩
    · exact .inl hhandoff
    · exact absurd heq (hfree id fd)
    · refine .inr (.inr ⟨id', hid', j, ?_⟩)
      by_cases heq : id' = id
      · subst heq
        dsimp only
        rw [hself, hkept j (hslot.symm ▸ hin), hslot]
      · dsimp only
        rw [hother id' heq, hslot]
  · by_cases heq : id' = id
    · subst heq
      dsimp only at hdown' ⊢
      rw [hself] at hdown' ⊢
      exact hdown hdown' hnot
    · dsimp only at hdown' ⊢
      rw [hother id' heq] at hdown' ⊢
      exact h.down id' hid' hdown' fun hs ↦ heq (hon.of_shutsDown hs)

/-- The main thread moves on. -/
theorem setControl (h : Inv num p) {id : ℕ} (hid : id ∈ p.servers) (c : Control)
    (hshape : Shape num p.listening (p.server id) (c.stage id))
    (hon : p.control.On id) (hon' : c.On id)
    (hfree : ∀ id fd, p.control ≠ .setup id fd) (hsetup : ∀ id fd, c ≠ .setup id fd)
    (hdown : (p.server id).listenersDown = true → ¬ c.ShutsDown id →
      ∀ j, (p.server id).fd j = -1) : Inv num { p with control := c } := by
  have hwrite := h.write hid (p.server id) (fun _ ↦ .inl rfl) (fun _ _ ↦ rfl) c hshape hon hon'
    hfree hsetup hdown
  rwa [Process.setServer, Function.update_eq_self] at hwrite

/-- What is left of the table is closed. -/
theorem cleanup (h : Inv num p) (hfree : ∀ id fd, p.control ≠ .setup id fd) :
    Inv num { p with listening := p.listening \ p.handoff, handoff := ∅ } where
  nonneg := fun fd hin ↦ h.nonneg fd (Finset.mem_sdiff.mp hin).1
  handoff := Finset.empty_subset _
  works := h.works
  shape := fun id hid ↦ (h.shape id hid).congr fun j ↦
    ⟨fun hin ↦ Finset.mem_sdiff.mpr ⟨hin, h.notHandoff id hid j⟩,
      fun hin ↦ (Finset.mem_sdiff.mp hin).1⟩
  distinct := h.distinct
  notHandoff := fun _ _ _ ↦ Finset.notMem_empty _
  setup := fun id fd heq ↦ absurd heq (hfree id fd)
  covered := fun fd hin ↦ by
    obtain ⟨hin, hout⟩ := Finset.mem_sdiff.mp hin
    rcases h.covered fd hin with hhandoff | ⟨id, heq⟩ | hslot
    · exact absurd hhandoff hout
    · exact absurd heq (hfree id fd)
    · exact .inr (.inr hslot)
  down := h.down

/-! ## Actions -/

/-- Between the functions every server is steady. -/
theorem steady (h : Inv num p) (hidle : p.control = .idle) {id : ℕ} (hid : id ∈ p.servers) :
    Shape num p.listening (p.server id) .steady := by
  have hshape := h.shape id hid
  rw [hidle] at hshape
  exact hshape

theorem create (h : Inv num p) (hidle : p.control = .idle) {id : ℕ} (hid : id ∉ p.servers) :
    Inv num { p.setServer id .created with servers := id :: p.servers } := by
  have hself : (p.setServer id .created).server id = .created := Function.update_self _ _ _
  have hother : ∀ id', id' ≠ id → (p.setServer id .created).server id' = p.server id' :=
    fun id' hne ↦ Function.update_of_ne hne _ _
  have hmem : ∀ id', id' ∈ id :: p.servers → id' ≠ id → id' ∈ p.servers :=
    fun id' hin hne ↦ (List.mem_cons.mp hin).resolve_left hne
  have hfree : ∀ id fd, p.control ≠ .setup id fd := by
    rw [hidle]
    exact fun _ _ heq ↦ nomatch heq
  refine ⟨h.nonneg, h.handoff, fun w hw ↦ List.mem_cons_of_mem _ (h.works w hw), fun id' hid' ↦ ?_,
    fun id₁ hid₁ id₂ hid₂ j j' hpos hsame ↦ ?_, fun id' hid' j ↦ ?_,
    fun id fd heq ↦ absurd heq (hfree id fd), fun fd hin ↦ ?_, fun id' hid' hdown hnot ↦ ?_⟩
  · dsimp only
    by_cases heq : id' = id
    · subst heq
      rw [hself]
      rw [show (p.setServer id' .created).control = .idle from hidle]
      exact ⟨Nat.zero_le _, fun j _ ↦ ⟨fun hin ↦ absurd hin.2 (Nat.not_lt_zero j), fun _ ↦ rfl⟩⟩
    · rw [hother id' heq]
      exact h.shape id' (hmem id' hid' heq)
  · dsimp only at hpos hsame ⊢
    have hne₁ : id₁ ≠ id := by
      rintro rfl
      rw [hself] at hpos
      exact absurd (show (0 : ℤ) ≤ -1 from hpos) (by decide)
    have hne₂ : id₂ ≠ id := by
      rintro rfl
      rw [hself] at hsame
      rw [hsame] at hpos
      exact absurd (show (0 : ℤ) ≤ -1 from hpos) (by decide)
    rw [hother id₁ hne₁] at hpos hsame
    rw [hother id₂ hne₂] at hsame
    exact h.distinct id₁ (hmem _ hid₁ hne₁) id₂ (hmem _ hid₂ hne₂) j j' hpos hsame
  · dsimp only
    by_cases heq : id' = id
    · subst heq
      rw [hself]
      exact fun hin ↦ h.notMem_neg rfl (h.handoff hin)
    · rw [hother id' heq]
      exact h.notHandoff id' (hmem id' hid' heq) j
  · rcases h.covered fd hin with hhandoff | ⟨id, heq⟩ | ⟨id', hid', j, hslot⟩
    · exact .inl hhandoff
    · exact absurd heq (hfree id fd)
    · have hne : id' ≠ id := fun heq ↦ hid (heq ▸ hid')
      refine .inr (.inr ⟨id', List.mem_cons_of_mem _ hid', j, ?_⟩)
      dsimp only
      rw [hother id' hne, hslot]
  · dsimp only at hdown ⊢
    by_cases heq : id' = id
    · subst heq
      rw [hself]
      exact fun _ ↦ rfl
    · rw [hother id' heq] at hdown ⊢
      exact h.down id' (hmem id' hid' heq) hdown hnot

theorem incompatible (h : Inv num p) (hidle : p.control = .idle) {fd : ℤ} (hfd : fd ∈ p.handoff) :
    Inv num { p.close fd with handoff := p.handoff.erase fd } where
  nonneg := fun d hin ↦ h.nonneg d (Finset.mem_of_mem_erase hin)
  handoff := Finset.erase_subset_erase _ h.handoff
  works := h.works
  shape := fun id hid ↦ (h.shape id hid).congr fun j ↦
    ⟨fun hin ↦ Finset.mem_erase.mpr ⟨fun heq ↦ h.notHandoff id hid j (heq ▸ hfd), hin⟩,
      Finset.mem_of_mem_erase⟩
  distinct := h.distinct
  notHandoff := fun id hid j hin ↦ h.notHandoff id hid j (Finset.mem_of_mem_erase hin)
  setup := fun id fd heq ↦ nomatch hidle.symm.trans heq
  covered := fun d hin ↦ by
    obtain ⟨hne, hin⟩ := Finset.mem_erase.mp hin
    rcases h.covered d hin with hhandoff | ⟨id, heq⟩ | hslot
    · exact .inl (Finset.mem_erase.mpr ⟨hne, hhandoff⟩)
    · exact nomatch hidle.symm.trans heq
    · exact .inr (.inr hslot)
  down := h.down

theorem setupInherited (h : Inv num p) (hidle : p.control = .idle) {id : ℕ} {fd : ℤ}
    (hid : id ∈ p.servers) (hlt : (p.server id).numListeners < num)
    (hup : (p.server id).listenersDown = false) (hfd : fd ∈ p.handoff) :
    Inv num { p with handoff := p.handoff.erase fd, control := .setup id fd } where
  nonneg := h.nonneg
  handoff := (Finset.erase_subset _ _).trans h.handoff
  works := fun w hw ↦ by
    cases hw
    exact hid
  shape := fun id' hid' ↦ by
    dsimp only
    rw [Control.stage_setup]
    exact h.steady hidle hid'
  distinct := h.distinct
  notHandoff := fun id' hid' j hin ↦ h.notHandoff id' hid' j (Finset.mem_of_mem_erase hin)
  setup := fun id' fd' heq ↦ by
    cases heq
    exact ⟨h.handoff hfd, Finset.notMem_erase _ _, hlt, hup,
      fun id' hid' j heq ↦ h.notHandoff id' hid' j (heq ▸ hfd)⟩
  covered := fun d hin ↦ by
    rcases h.covered d hin with hhandoff | ⟨id, heq⟩ | hslot
    · by_cases heq : d = fd
      · subst heq
        exact .inr (.inl ⟨id, rfl⟩)
      · exact .inl (Finset.mem_erase.mpr ⟨heq, hhandoff⟩)
    · exact nomatch hidle.symm.trans heq
    · exact .inr (.inr hslot)
  down := fun id' hid' hdown _ ↦ h.down id' hid' hdown (by rw [hidle]; exact fun hs ↦ hs)

theorem setupNew (h : Inv num p) (hidle : p.control = .idle) {id : ℕ} {fd : ℤ}
    (hid : id ∈ p.servers) (hlt : (p.server id).numListeners < num)
    (hup : (p.server id).listenersDown = false) (hpos : 0 ≤ fd) (hfd : fd ∉ p.listening) :
    Inv num { p with listening := insert fd p.listening, control := .setup id fd } := by
  have hne : ∀ id' ∈ p.servers, ∀ j, (p.server id').fd j ≠ fd := by
    intro id' hid' j heq
    rcases (h.steady hidle hid').listens j with hin | hneg
    · exact hfd (heq ▸ hin)
    · rw [← heq, hneg] at hpos
      exact absurd hpos (by decide)
  refine ⟨fun d hin ↦ ?_, h.handoff.trans (Finset.subset_insert _ _), fun w hw ↦ ?_,
    fun id' hid' ↦ ?_, h.distinct, h.notHandoff, fun id' fd' heq ↦ ?_, fun d hin ↦ ?_,
    fun id' hid' hdown _ ↦ ?_⟩
  · rcases Finset.mem_insert.mp hin with rfl | hin
    · exact hpos
    · exact h.nonneg d hin
  · cases hw
    exact hid
  · dsimp only
    rw [Control.stage_setup]
    exact (h.steady hidle hid').congr fun j ↦ ⟨Finset.mem_insert_of_mem,
      fun hin ↦ (Finset.mem_insert.mp hin).resolve_left (hne id' hid' j)⟩
  · cases heq
    exact ⟨Finset.mem_insert_self _ _, fun hin ↦ hfd (h.handoff hin), hlt, hup, hne⟩
  · rcases Finset.mem_insert.mp hin with rfl | hin
    · exact .inr (.inl ⟨id, rfl⟩)
    · rcases h.covered d hin with hhandoff | ⟨id, heq⟩ | hslot
      · exact .inl hhandoff
      · exact nomatch hidle.symm.trans heq
      · exact .inr (.inr hslot)
  · exact h.down id' hid' hdown (by rw [hidle]; exact fun hs ↦ hs)

theorem stored (h : Inv num p) {id : ℕ} {fd : ℤ} (hc : p.control = .setup id fd) :
    Inv num { p.setServer id
      { p.server id with
        fd := Function.update (p.server id).fd (p.server id).numListeners fd } with
      control := .stored id } := by
  obtain ⟨hin, hout, hlt, hup, hne⟩ := h.setup id fd hc
  have hid : id ∈ p.servers := h.works (id, .steady) (by rw [hc]; rfl)
  let s : Server :=
    { p.server id with fd := Function.update (p.server id).fd (p.server id).numListeners fd }
  have hself : (p.setServer id s).server id = s := Function.update_self _ _ _
  have hother : ∀ id', id' ≠ id → (p.setServer id s).server id' = p.server id' :=
    fun id' hne ↦ Function.update_of_ne hne _ _
  have hsteady : ∀ id' ∈ p.servers, Shape num p.listening (p.server id') .steady := by
    intro id' hid'
    have hshape := h.shape id' hid'
    rwa [hc, Control.stage_setup] at hshape
  have hnew : s.fd (p.server id).numListeners = fd := Function.update_self _ _ _
  have hold : ∀ j, j ≠ (p.server id).numListeners → s.fd j = (p.server id).fd j :=
    fun j hj ↦ Function.update_of_ne hj _ _
  -- an entry is the new one, or it was there
  have hentry : ∀ id' j, (id' = id ∧ j = (p.server id).numListeners) ∨
      ((p.setServer id s).server id').fd j = (p.server id').fd j := by
    intro id' j
    by_cases heq : id' = id
    · subst heq
      rw [hself]
      by_cases hj : j = (p.server id').numListeners
      · exact .inl ⟨rfl, hj⟩
      · exact .inr (hold j hj)
    · rw [hother id' heq]
      exact .inr rfl
  refine ⟨h.nonneg, h.handoff, fun w hw ↦ ?_, fun id' hid' ↦ ?_,
    fun id₁ hid₁ id₂ hid₂ j j' hpos hsame ↦ ?_, fun id' hid' j ↦ ?_,
    fun _ _ heq ↦ (nomatch heq), fun d hd ↦ ?_, fun id' hid' hdown hnot ↦ ?_⟩
  · cases hw
    exact hid
  · dsimp only
    by_cases heq : id' = id
    · subst heq
      rw [hself]
      rw [show (Control.stored id').stage id' = .stored from if_pos rfl]
      exact ⟨hlt, (hsteady id' hid).2.store hin⟩
    · rw [hother id' heq, show (Control.stored id).stage id' = .steady from
        if_neg (Ne.symm heq)]
      exact hsteady id' hid'
  · dsimp only at hpos hsame
    rcases hentry id₁ j with ⟨rfl, rfl⟩ | h₁ <;> rcases hentry id₂ j' with ⟨rfl, rfl⟩ | h₂
    · exact ⟨rfl, rfl⟩
    · rw [h₂, hself, hnew] at hsame
      exact absurd hsame.symm (hne id₂ hid₂ j')
    · rw [h₁, hself, hnew] at hsame
      exact absurd hsame (hne id₁ hid₁ j)
    · rw [h₁] at hpos hsame
      rw [h₂] at hsame
      exact h.distinct id₁ hid₁ id₂ hid₂ j j' hpos hsame
  · dsimp only
    rcases hentry id' j with ⟨rfl, rfl⟩ | hsame
    · rw [hself, hnew]
      exact hout
    · rw [hsame]
      exact h.notHandoff id' hid' j
  · rcases h.covered d hd with hhandoff | ⟨id', heq⟩ | ⟨id', hid', j, hslot⟩
    · exact .inl hhandoff
    · rw [hc] at heq
      cases heq
      exact .inr (.inr ⟨id, hid, (p.server id).numListeners, by dsimp only; rw [hself, hnew]⟩)
    · refine .inr (.inr ⟨id', hid', j, ?_⟩)
      rcases hentry id' j with ⟨rfl, rfl⟩ | hsame
      · -- the entry was not set
        have hneg := ((hsteady id' hid).2 (p.server id').numListeners (nomatch ·)).2
          fun hlt ↦ Nat.lt_irrefl _ hlt.2
        rw [← hslot, hneg] at hd
        exact absurd hd (h.notMem_neg rfl)
      · dsimp only
        rw [hsame, hslot]
  · dsimp only at hdown ⊢
    by_cases heq : id' = id
    · subst heq
      rw [hself] at hdown
      exact nomatch hup.symm.trans hdown
    · rw [hother id' heq] at hdown ⊢
      exact h.down id' hid' hdown (by rw [hc]; exact fun hs ↦ hs)

/-- The server that the main thread works on. -/
theorem shape_of_work (h : Inv num p) {id : ℕ} {stage : Stage}
    (hwork : p.control.work = some (id, stage)) :
    id ∈ p.servers ∧ p.control.On id ∧ Shape num p.listening (p.server id) stage := by
  have hid : id ∈ p.servers := h.works (id, stage) hwork
  refine ⟨hid, fun w hw ↦ ?_, Control.stage_of_work hwork ▸ h.shape id hid⟩
  rw [Option.mem_def, hwork] at hw
  cases hw
  rfl

theorem counted (h : Inv num p) {id : ℕ} (hc : p.control = .stored id) :
    Inv num (p.countListener num id) := by
  obtain ⟨hid, hon, hlt, hholds⟩ :=
    h.shape_of_work (by rw [hc]; rfl)
  let s : Server := { p.server id with numListeners := (p.server id).numListeners + 1 }
  have hidle : Inv num { p.setServer id s with control := .idle } := by
    refine h.write hid s (fun j ↦ .inl rfl) (fun j _ ↦ rfl) .idle ?_ hon
      (fun _ hw ↦ nomatch hw) ?_ (fun _ _ heq ↦ nomatch heq) ?_
    · exact ⟨Nat.succ_le_of_lt hlt, hholds⟩
    · rw [hc]
      exact fun _ _ heq ↦ nomatch heq
    · intro hdown _
      have hnot : ¬ p.control.ShutsDown id := by
        rw [hc]
        exact fun hs ↦ hs
      exact h.down id hid hdown hnot
  unfold Process.countListener
  dsimp only
  split_ifs
  · exact hidle.cleanup fun _ _ heq ↦ nomatch heq
  · exact hidle

theorem shutdown (h : Inv num p) (hidle : p.control = .idle) {id : ℕ} (hid : id ∈ p.servers) :
    Inv num { p.setServer id { p.server id with listenersDown := true } with
      control := .down id } := by
  let s : Server := { p.server id with listenersDown := true }
  refine h.write hid s (fun j ↦ .inl rfl) (fun j _ ↦ rfl) (.down id) ?_ ?_ ?_ ?_
    (fun _ _ heq ↦ nomatch heq) (fun _ hnot ↦ absurd rfl hnot)
  · rw [Control.stage_of_work rfl]
    exact h.steady hidle hid
  · rw [hidle]
    exact fun _ hw ↦ nomatch hw
  · intro w hw
    cases hw
    rfl
  · rw [hidle]
    exact fun _ _ heq ↦ nomatch heq

/-- The main thread moves on within a function. -/
theorem advance (h : Inv num p) {id : ℕ} {stage stage' : Stage} {c : Control}
    (hwork : p.control.work = some (id, stage)) (hwork' : c.work = some (id, stage'))
    (hshape : Shape num p.listening (p.server id) stage')
    (hfree : ∀ id fd, p.control ≠ .setup id fd) (hsetup : ∀ id fd, c ≠ .setup id fd)
    (hdown : p.control.ShutsDown id → ¬ c.ShutsDown id → ∀ j, (p.server id).fd j = -1) :
    Inv num { p with control := c } := by
  obtain ⟨hid, hon, _⟩ := h.shape_of_work hwork
  refine h.setControl hid c (Control.stage_of_work hwork' ▸ hshape) hon ?_ hfree hsetup ?_
  · intro w hw
    rw [Option.mem_def, hwork'] at hw
    cases hw
    rfl
  · intro hlisteners hnot
    by_cases hs : p.control.ShutsDown id
    · exact hdown hs hnot
    · exact h.down id hid hlisteners hs

theorem started (h : Inv num p) {id : ℕ} (hc : p.control = .down id) :
    Inv num { p with control := .closing id 0 } := by
  have hwork : p.control.work = some (id, .steady) := by rw [hc]; rfl
  obtain ⟨hid, hon, hle, hholds⟩ := h.shape_of_work hwork
  refine h.advance hwork rfl ⟨_, hle, rfl, hholds⟩ ?_ (fun _ _ heq ↦ nomatch heq)
    fun _ hnot ↦ absurd rfl hnot
  rw [hc]
  exact fun _ _ heq ↦ nomatch heq

/-- The loop of `poServer_shutdown()`. -/
theorem closing (h : Inv num p) {id i : ℕ} (hc : p.control = .closing id i) :
    (0 ≤ (p.server id).fd i →
      Inv num { p.close ((p.server id).fd i) with control := .closed id i }) ∧
    (¬ 0 ≤ (p.server id).fd i → Inv num { p with control := .closing id (i + 1) }) := by
  have hwork : p.control.work = some (id, .closing i) := by rw [hc]; rfl
  have hfree : ∀ id fd, p.control ≠ .setup id fd := by
    rw [hc]
    exact fun _ _ heq ↦ nomatch heq
  obtain ⟨hid, hon, hi, hle, hnum, hholds⟩ := h.shape_of_work hwork
  constructor
  · intro hpos
    have hlt : i < hi := by
      by_contra hge
      have hneg := (hholds i (nomatch ·)).2 fun hin ↦ hge hin.2
      rw [hneg] at hpos
      exact absurd hpos (by decide)
    refine h.closeSlot hid hpos (.closed id i) ?_ hon ?_ hfree (fun _ _ heq ↦ nomatch heq)
      (fun _ ↦ rfl)
    · rw [Control.stage_of_work rfl]
      refine ⟨hi, hle, hlt, hnum, Finset.notMem_erase _ _, hholds.close fun j hne hin ↦ ?_⟩
      refine Finset.mem_erase.mpr ⟨fun hsame ↦ hne ?_, hin⟩
      exact (h.distinct id hid id hid i j hpos hsame.symm).2.symm
    · intro w hw
      cases hw
      rfl
  · intro hneg
    have hge : hi ≤ i := by
      by_contra hlt
      exact hneg (h.nonneg _ ((hholds i (nomatch ·)).1 ⟨le_rfl, Nat.lt_of_not_le hlt⟩))
    refine h.advance hwork rfl ⟨hi, hle, by omega, fun j hj ↦ ?_⟩ hfree
      (fun _ _ heq ↦ nomatch heq) (fun _ hnot ↦ absurd rfl hnot)
    refine ⟨fun hin ↦ ?_, fun _ ↦ (hholds j hj).2 fun hin ↦ ?_⟩ <;> omega

/-- Its end. -/
theorem waiting (h : Inv num p) {id i : ℕ} (hc : p.control = .closing id i) (hge : (num : ℕ) ≤ i) :
    Inv num { p with control := .waiting id } := by
  have hwork : p.control.work = some (id, .closing i) := by rw [hc]; rfl
  obtain ⟨-, -, hi, hle, hnum, hholds⟩ := h.shape_of_work hwork
  have hunset : ∀ j, (p.server id).fd j = -1 := fun j ↦ (hholds j (nomatch ·)).2 fun hin ↦ by omega
  refine h.advance hwork rfl ⟨by omega, fun j _ ↦ ⟨fun hin ↦ ?_, fun _ ↦ hunset j⟩⟩ ?_
    (fun _ _ heq ↦ nomatch heq) (fun _ _ ↦ hunset)
  · omega
  · rw [hc]
    exact fun _ _ heq ↦ nomatch heq

theorem closed (h : Inv num p) {id i : ℕ} (hc : p.control = .closed id i) :
    Inv num { p.setServer id
      { p.server id with fd := Function.update (p.server id).fd i (-1) } with
      control := .cleared id i } := by
  have hwork : p.control.work = some (id, .closed i) := by rw [hc]; rfl
  obtain ⟨hid, hon, hi, hle, hlt, hnum, hout, hholds⟩ := h.shape_of_work hwork
  let s : Server := { p.server id with fd := Function.update (p.server id).fd i (-1) }
  refine h.write hid s (fun j ↦ ?_) (fun j hin ↦ ?_) (.cleared id i) ?_ hon ?_ ?_
    (fun _ _ heq ↦ nomatch heq) (fun _ hnot ↦ absurd rfl hnot)
  · by_cases hj : j = i
    · subst hj
      exact .inr (Function.update_self _ _ _)
    · exact .inl (Function.update_of_ne hj _ _)
  · have hne : j ≠ i := by
      rintro rfl
      exact hout hin
    exact Function.update_of_ne hne _ _
  · rw [Control.stage_of_work rfl]
    exact ⟨hi, hle, hlt, hnum, hholds.clear⟩
  · intro w hw
    cases hw
    rfl
  · rw [hc]
    exact fun _ _ heq ↦ nomatch heq

theorem cleared (h : Inv num p) {id i : ℕ} (hc : p.control = .cleared id i) :
    Inv num { p.setServer id
      { p.server id with numListeners := (p.server id).numListeners - 1 } with
      control := .closing id (i + 1) } := by
  have hwork : p.control.work = some (id, .cleared i) := by rw [hc]; rfl
  obtain ⟨hid, hon, hi, hle, hlt, hnum, hholds⟩ := h.shape_of_work hwork
  let s : Server := { p.server id with numListeners := (p.server id).numListeners - 1 }
  refine h.write hid s (fun _ ↦ .inl rfl) (fun _ _ ↦ rfl) (.closing id (i + 1)) ?_ hon ?_ ?_
    (fun _ _ heq ↦ nomatch heq) (fun _ hnot ↦ absurd rfl hnot)
  · rw [Control.stage_of_work rfl]
    exact ⟨hi, hle, show (p.server id).numListeners - 1 = hi - (i + 1) by omega, hholds⟩
  · intro w hw
    cases hw
    rfl
  · rw [hc]
    exact fun _ _ heq ↦ nomatch heq

/-- The main thread is in none of the functions any more. -/
theorem idle (h : Inv num p) {id : ℕ} (hc : p.control = .waiting id) :
    Inv num { p with control := .idle } := by
  have hwork : p.control.work = some (id, .steady) := by rw [hc]; rfl
  obtain ⟨hid, hon, hshape⟩ := h.shape_of_work hwork
  refine h.setControl hid .idle hshape hon (fun _ hw ↦ nomatch hw) ?_
    (fun _ _ heq ↦ nomatch heq) fun hlisteners _ ↦ h.down id hid hlisteners ?_
  · rw [hc]
    exact fun _ _ heq ↦ nomatch heq
  · rw [hc]
    exact fun hs ↦ hs

theorem destroy (h : Inv num p) (hidle : p.control = .idle) {id : ℕ} (hid : id ∈ p.servers) :
    Inv num { p with control := .destroy id 0 } := by
  have hsteady := h.steady hidle hid
  refine h.setControl hid (.destroy id 0) ?_ ?_ ?_ ?_ (fun _ _ heq ↦ nomatch heq)
    fun hlisteners _ ↦ h.down id hid hlisteners ?_
  · rw [Control.stage_of_work rfl]
    refine ⟨fun j hj ↦ absurd hj (Nat.not_lt_zero j), fun j hj ↦ ?_⟩
    exact (hsteady.2 j (nomatch ·)).2 fun hin ↦ by
      have hle := hsteady.1
      omega
  · rw [hidle]
    exact fun _ hw ↦ nomatch hw
  · intro w hw
    cases hw
    rfl
  · rw [hidle]
    exact fun _ _ heq ↦ nomatch heq
  · rw [hidle]
    exact fun hs ↦ hs

/-- The first loop of `poServer_destroy()`. -/
theorem destroying (h : Inv num p) {id i : ℕ} (hc : p.control = .destroy id i) :
    (0 ≤ (p.server id).fd i →
      Inv num { p.close ((p.server id).fd i) with control := .destroy id (i + 1) }) ∧
    (¬ 0 ≤ (p.server id).fd i → Inv num { p with control := .destroy id (i + 1) }) ∧
    ((num : ℕ) ≤ i → Inv num { p with control := .destroyed id 0 }) := by
  have hwork : p.control.work = some (id, .destroy i) := by rw [hc]; rfl
  have hfree : ∀ id fd, p.control ≠ .setup id fd := by
    rw [hc]
    exact fun _ _ heq ↦ nomatch heq
  have hnot : ¬ p.control.ShutsDown id := by
    rw [hc]
    exact fun hs ↦ hs
  obtain ⟨hid, hon, hbelow, hunset⟩ := h.shape_of_work hwork
  refine ⟨fun hpos ↦ ?_, fun hneg ↦ ?_, fun hge ↦ ?_⟩
  · refine h.closeSlot hid hpos (.destroy id (i + 1)) ?_ hon ?_ hfree
      (fun _ _ heq ↦ nomatch heq) fun hs ↦ absurd hs hnot
    · rw [Control.stage_of_work rfl]
      refine ⟨fun j hj hin ↦ ?_, hunset⟩
      obtain ⟨hne, hin⟩ := Finset.mem_erase.mp hin
      rcases Nat.lt_succ_iff_lt_or_eq.mp hj with hlt | rfl
      · exact hbelow j hlt hin
      · exact hne rfl
    · intro w hw
      cases hw
      rfl
  · refine h.advance hwork rfl ⟨fun j hj hin ↦ ?_, hunset⟩ hfree (fun _ _ heq ↦ nomatch heq)
      fun hs ↦ absurd hs hnot
    rcases Nat.lt_succ_iff_lt_or_eq.mp hj with hlt | rfl
    · exact hbelow j hlt hin
    · exact hneg (h.nonneg _ hin)
  · refine h.advance hwork rfl (fun j hin ↦ ?_) hfree (fun _ _ heq ↦ nomatch heq)
      fun hs ↦ absurd hs hnot
    by_cases hj : j < i
    · exact hbelow j hj hin
    · exact h.notMem_neg (hunset j (by omega)) hin

/-- The server is taken out of the list. -/
theorem removed (h : Inv num p) {id i : ℕ} (hc : p.control = .destroyed id i) :
    Inv num { p with servers := p.servers.filter (· ≠ id), control := .idle } := by
  have hwork : p.control.work = some (id, .destroyed) := by rw [hc]; rfl
  obtain ⟨hid, hon, hout⟩ := h.shape_of_work hwork
  have hmem : ∀ id', id' ∈ p.servers.filter (· ≠ id) → id' ∈ p.servers ∧ id' ≠ id := by
    intro id' hid'
    obtain ⟨hin, hne⟩ := List.mem_filter.mp hid'
    exact ⟨hin, of_decide_eq_true hne⟩
  refine ⟨h.nonneg, h.handoff, fun _ hw ↦ (nomatch hw), fun id' hid' ↦ ?_,
    fun id₁ hid₁ id₂ hid₂ ↦ h.distinct id₁ (hmem id₁ hid₁).1 id₂ (hmem id₂ hid₂).1,
    fun id' hid' ↦ h.notHandoff id' (hmem id' hid').1, fun _ _ heq ↦ (nomatch heq),
    fun fd hin ↦ ?_, fun id' hid' hdown _ ↦ ?_⟩
  · have hshape := h.shape id' (hmem id' hid').1
    rwa [hon.stage (hmem id' hid').2] at hshape
  · rcases h.covered fd hin with hhandoff | ⟨id', heq⟩ | ⟨id', hid', j, hslot⟩
    · exact .inl hhandoff
    · exact nomatch hc.symm.trans heq
    · have hne : id' ≠ id := by
        rintro rfl
        exact hout j (hslot ▸ hin)
      exact .inr (.inr ⟨id', List.mem_filter.mpr ⟨hid', decide_eq_true hne⟩, j, hslot⟩)
  · exact h.down id' (hmem id' hid').1 hdown fun hs ↦ (hmem id' hid').2 (hon.of_shutsDown hs)

theorem go (h : Inv num p) (hshutdownFd : p.signals ≠ .ignored → p.shutdownFd = -1)
    (hq : p.go num = some q) : q.Spent ∨ Inv num q := by
  unfold Process.go at hq
  split at hq
  · next id fd hc =>
    cases hq
    exact .inr (h.stored hc)
  · next id hc =>
    cases hq
    exact .inr (h.counted hc)
  · next id hc =>
    cases hq
    rcases p.checkSignalNewServerContinue_cases with heq | ⟨hend, heq⟩ <;> rw [heq]
    · exact .inr (h.started hc)
    · exact .inl ⟨by_contra fun hne ↦ hend.1 (hshutdownFd hne), rfl⟩
  · next id i hc =>
    split_ifs at hq with hlt hpos
    · cases hq
      exact .inr ((h.closing hc).1 hpos)
    · cases hq
      exact .inr ((h.closing hc).2 hpos)
    · cases hq
      exact .inr (h.waiting hc (Nat.le_of_not_lt hlt))
  · next id i hc =>
    cases hq
    exact .inr (h.closed hc)
  · next id i hc =>
    cases hq
    exact .inr (h.cleared hc)
  · next id hc =>
    cases hq
    exact .inr (h.idle hc)
  · next id i hc =>
    split_ifs at hq with hlt hpos
    · cases hq
      exact .inr ((h.destroying hc).1 hpos)
    · cases hq
      exact .inr ((h.destroying hc).2.1 hpos)
    · cases hq
      exact .inr ((h.destroying hc).2.2 (Nat.le_of_not_lt hlt))
  · next id i hc =>
    have hwork : p.control.work = some (id, .destroyed) := by rw [hc]; rfl
    have hfree : ∀ id fd, p.control ≠ .setup id fd := by
      rw [hc]
      exact fun _ _ heq ↦ nomatch heq
    have hnot : ¬ p.control.ShutsDown id := by
      rw [hc]
      exact fun hs ↦ hs
    obtain ⟨hid, hon, hout⟩ := h.shape_of_work hwork
    split_ifs at hq with hlt hpos hin
    · cases hq
      exact .inr ((h.closeOther (hout i)).advance hwork rfl
        (fun j hj ↦ hout j (Finset.mem_of_mem_erase hj)) hfree (fun _ _ heq ↦ nomatch heq)
        fun hs ↦ absurd hs hnot)
    · cases hq
      exact .inr (exit p)
    · cases hq
      exact .inr (h.advance hwork rfl hout hfree (fun _ _ heq ↦ nomatch heq)
        fun hs ↦ absurd hs hnot)
    · cases hq
      exact .inr (h.removed hc)
  · exact nomatch hq
  · exact nomatch hq

theorem passListeners (h : Inv num p) (usr1 : Bool) (passing : Passing) :
    Inv num (p.passListeners usr1 passing) := by
  rcases p.passListeners_cases usr1 passing with heq | heq | heq | heq <;> rw [heq]
  · exact exit p
  · exact h
  · exact h.of_same rfl rfl rfl rfl rfl
  · exact h.of_same rfl rfl rfl rfl rfl

theorem step (h : Inv num p) (hshutdownFd : p.signals ≠ .ignored → p.shutdownFd = -1)
    {a : ProcessAction} (hq : p.step num a = some q) : q.Spent ∨ Inv num q := by
  cases a with
  | create id =>
      obtain ⟨⟨hidle, hid⟩, hq⟩ := Option.ite_none_right_eq_some.mp hq
      cases hq
      exact .inr ((h.create hidle hid).of_same rfl rfl rfl rfl rfl)
  | incompatible fd =>
      obtain ⟨⟨hidle, hfd⟩, hq⟩ := Option.ite_none_right_eq_some.mp hq
      cases hq
      exact .inr (h.incompatible hidle hfd)
  | setup id fd =>
      obtain ⟨⟨hidle, hid, hlt, hup⟩, hq⟩ := Option.ite_none_right_eq_some.mp hq
      split_ifs at hq with hfd hnew
      · cases hq
        exact .inr (h.setupInherited hidle hid hlt hup hfd)
      · cases hq
        subst hnew
        refine .inr (h.setupNew hidle hid hlt hup (lowestFree_nonneg _) fun hin ↦ ?_)
        exact lowestFree_notMem p.opened
          (Finset.mem_union_left _ (Finset.mem_union_left _ hin))
  | fail =>
      simp only [Process.step] at hq
      split at hq <;> cases hq
      exact .inr (exit p)
  | shutdown id =>
      obtain ⟨⟨hidle, hid⟩, hq⟩ := Option.ite_none_right_eq_some.mp hq
      cases hq
      exact .inr (h.shutdown hidle hid)
  | destroy id =>
      obtain ⟨⟨hidle, hid⟩, hq⟩ := Option.ite_none_right_eq_some.mp hq
      cases hq
      exact .inr (h.destroy hidle hid)
  | go => exact h.go hshutdownFd hq
  | signal usr1 passing =>
      simp only [Process.step] at hq
      split_ifs at hq
      split at hq <;> cases hq
      · exact .inr (exit p)
      · exact .inr (h.passListeners usr1 passing)
      · exact .inr h
  | opens =>
      obtain ⟨-, hq⟩ := Option.ite_none_left_eq_some.mp hq
      cases hq
      exact .inr (h.of_same rfl rfl rfl rfl rfl)
  | closes fd =>
      obtain ⟨-, hq⟩ := Option.ite_none_right_eq_some.mp hq
      cases hq
      exact .inr (h.of_same rfl rfl rfl rfl rfl)

theorem start (table : Finset ℕ) : Inv num (.start table) where
  nonneg := fun fd hin ↦ by
    obtain ⟨n, -, rfl⟩ := Finset.mem_image.mp hin
    exact Int.natCast_nonneg n
  handoff := subset_rfl
  works := fun _ hw ↦ nomatch hw
  shape := fun _ hin ↦ nomatch hin
  distinct := fun _ hin ↦ nomatch hin
  notHandoff := fun _ hin ↦ nomatch hin
  setup := fun _ _ heq ↦ nomatch heq
  covered := fun _ hin ↦ .inl hin
  down := fun _ hin ↦ nomatch hin

end Inv

/-! ## The signals and the hand-off -/

theorem Process.countListener_signals (num : ℕ+) (p : Process) (id : ℕ) :
    (p.countListener num id).signals = p.signals ∧
      (p.countListener num id).shutdownFd = p.shutdownFd := by
  unfold Process.countListener
  dsimp only
  split_ifs <;> exact ⟨rfl, rfl⟩

theorem Process.signals_of_go {num : ℕ+} {p q : Process} (hq : p.go num = some q) :
    q.signals = p.signals ∧ (q.shutdownFd = p.shutdownFd ∨ q.shutdownFd = -1) := by
  unfold Process.go at hq
  split at hq
  case h_2 id hc =>
    cases hq
    obtain ⟨hsignals, hshutdownFd⟩ := p.countListener_signals num id
    exact ⟨hsignals, .inl hshutdownFd⟩
  case h_3 id hc =>
    cases hq
    rcases p.checkSignalNewServerContinue_cases with heq | ⟨-, heq⟩ <;> rw [heq]
    · exact ⟨rfl, .inl rfl⟩
    · exact ⟨rfl, .inr rfl⟩
  all_goals (try split_ifs at hq) <;> cases hq <;> exact ⟨rfl, .inl rfl⟩

/-- The signals are handled from the first server on, and ignored from `SIGUSR1` on; the latter
sets `po.shutdownFd`. -/
theorem Process.signals_of_step {num : ℕ+} {p q : Process} {a : ProcessAction}
    (hq : p.step num a = some q) :
    q.signals = p.signals ∧ (q.shutdownFd = p.shutdownFd ∨ q.shutdownFd = -1) ∨
      p.signals = .default ∧ q.signals = .handled ∧ q.shutdownFd = p.shutdownFd ∨
        p.signals = .handled ∧ q.signals = .ignored := by
  cases a with
  | create id =>
      obtain ⟨-, hq⟩ := Option.ite_none_right_eq_some.mp hq
      cases hq
      by_cases hdefault : p.signals = .default
      · exact .inr (.inl ⟨hdefault, if_pos hdefault, rfl⟩)
      · exact .inl ⟨if_neg hdefault, .inl rfl⟩
  | go => exact .inl (signals_of_go hq)
  | signal usr1 passing =>
      simp only [Process.step] at hq
      split_ifs at hq
      split at hq
      · cases hq
        exact .inl ⟨rfl, .inl rfl⟩
      · next hhandled =>
        cases hq
        rcases p.passListeners_cases usr1 passing with heq | heq | heq | heq <;> rw [heq]
        · exact .inl ⟨rfl, .inl rfl⟩
        · exact .inl ⟨rfl, .inl rfl⟩
        · exact .inl ⟨rfl, .inr rfl⟩
        · exact .inr (.inr ⟨hhandled, rfl⟩)
      · cases hq
        exact .inl ⟨rfl, .inl rfl⟩
  | fail =>
      simp only [Process.step] at hq
      split at hq <;> cases hq
      exact .inl ⟨rfl, .inl rfl⟩
  | incompatible | setup | shutdown | destroy | opens | closes =>
      simp only [Process.step] at hq
      split_ifs at hq <;> cases hq <;> exact .inl ⟨rfl, .inl rfl⟩

theorem shutdownFd_of_reach {num : ℕ+} {ok : Process → ProcessAction → Prop} {table : Finset ℕ}
    {p : Process} (h : Reach (Process.step num) ok (.start table) p) :
    p.signals ≠ .ignored → p.shutdownFd = -1 := by
  refine h.invariant (I := fun p ↦ p.signals ≠ .ignored → p.shutdownFd = -1) (fun _ ↦ rfl) ?_
  intro p q a hp _ hq hne
  rcases Process.signals_of_step hq with ⟨hsame, hkept | hunset⟩ | ⟨hdefault, -, hkept⟩ | ⟨-, hign⟩
  · exact hkept.trans (hp (hsame ▸ hne))
  · exact hunset
  · exact hkept.trans (hp (by rw [hdefault]; decide))
  · exact absurd hign hne

/-- When the hand-off is over, it stays over. -/
theorem Process.Spent.step {num : ℕ+} {p q : Process} {a : ProcessAction} (h : p.Spent)
    (hq : p.step num a = some q) : q.Spent := by
  obtain ⟨hign, hunset⟩ := h
  rcases Process.signals_of_step hq with ⟨hsame, hshutdownFd⟩ | ⟨hother, -⟩ | ⟨hother, -⟩
  · exact ⟨hsame.trans hign, hshutdownFd.elim (·.trans hunset) id⟩
  · exact nomatch hign.symm.trans hother
  · exact nomatch hign.symm.trans hother

/-- Behind the hand-off `close(po.shutdownFd)` may have closed a listener: `poServer_destroy()`
closes the descriptor of a listener twice, and the second `close()` may hit the socket to the new
process. -/
theorem inv_of_reach {num : ℕ+} {ok : Process → ProcessAction → Prop} {table : Finset ℕ}
    {p : Process} (h : Reach (Process.step num) ok (.start table) p) : p.Spent ∨ Inv num p := by
  refine h.invariant_of (I := fun p ↦ p.Spent ∨ Inv num p) (fun hr ↦ shutdownFd_of_reach hr)
    (.inr (Inv.start table)) ?_
  intro p q a hshutdownFd hp _ hq
  rcases hp with hspent | hinv
  · exact .inl (hspent.step hq)
  · exact hinv.step hshutdownFd hq

end Tidbits.Potato
