import Mathlib.Algebra.BigOperators.Group.Finset.Basic
import Tidbits.Potato.Entries
import Tidbits.Transition.Reach

/-!
# What `poTato_removeChildren()` returns

The exit status of a child is added by `poTato_removeChildren()`, if the entry of
the child still holds its process id then; that a child was killed is counted by
`sigChildHandler()`.  `Parent.paid` says how much of this has been done for a child,
and `Parent.Accounts` that `po.exitStatus` is the sum of it.

The handler clears the entry of a child that exited, and its status with it.  So
`poTato_removeChildren()` returns the sum of all statuses in the runs in which no
such handler comes first (`returned_of_reach`).
-/

namespace Tidbits.Potato

open Transition

/-- What a child adds to the sum. -/
def ChildState.value : ChildState → ℕ
  | .running => 0
  | .exited status => status
  | .killed => 1

/-- `WEXITSTATUS()` of what `waitpid()` tells of a child. -/
def ChildState.code : ChildState → Fin 256
  | .exited status => status
  | .running | .killed => 0

/-- A sum in which one term changes. -/
theorem sum_add_of_ne {s : Finset ℤ} {f g : ℤ → ℕ} {a : ℤ} (ha : a ∈ s)
    (h : ∀ b ∈ s, b ≠ a → g b = f b) : ∑ b ∈ s, g b + f a = ∑ b ∈ s, f b + g a := by
  have hrest : ∑ b ∈ s.erase a, g b = ∑ b ∈ s.erase a, f b :=
    Finset.sum_congr rfl fun b hb ↦ h b (Finset.mem_of_mem_erase hb) (Finset.ne_of_mem_erase hb)
  rw [← Finset.add_sum_erase s g ha, ← Finset.add_sum_erase s f ha, hrest]
  omega

namespace Parent

/-! ## The sum -/

/-- The status of the child will be added by `poTato_removeChildren()`. -/
def Due (p : Parent) (pid : ℤ) : Prop :=
  p.Listed pid ∨ p.control.newborn = some pid ∨ p.control.adds = some pid

/-- `sigChildHandler()` will be told that the child was killed. -/
def Announced (p : Parent) (pid : ℤ) : Prop :=
  ∃ n ∈ p.pending, n.pid = pid ∧ (n.code = .killed ∨ n.code = .dumped)

open Classical in
/-- What of the value of a child is in the sum. -/
noncomputable def paid (p : Parent) (pid : ℤ) : ℕ :=
  match p.state pid with
  | .running => 0
  | .exited status => if p.Due pid then 0 else status
  | .killed => if p.Announced pid then 0 else 1

/-- What the main thread knows of the child that it waited for. -/
def Knows (p : Parent) : ParentControl → Prop
  | .test _ pid status => p.state pid ≠ .running ∧ (p.state pid).code = status
  | .load _ pid status => p.state pid = .exited status
  | .store _ pid status sum => p.state pid = .exited status ∧ sum = p.exitStatus + status
  | _ => True

/-- `po.exitStatus` is the sum of what was paid. -/
structure Accounts (p : Parent) : Prop where
  notFault : p.control ≠ .fault
  due : ∀ pid ∈ p.pids, p.state pid = .running → p.Due pid
  exited : ∀ n ∈ p.pending, n.code = .exited →
    n.pid ∈ p.pids ∧ ∃ status, p.state n.pid = .exited status
  killed : ∀ n ∈ p.pending, n.code = .killed ∨ n.code = .dumped →
    n.pid ∈ p.pids ∧ p.state n.pid = .killed
  knows : p.Knows p.control
  sum : min 255 p.exitStatus = min 255 (∑ pid ∈ p.pids, p.paid pid)
  bounded : (∀ i, p.control ≠ .clamp i) → p.exitStatus ≤ 255
  returned : ∀ status, p.control = .returned status →
    (∀ pid ∈ p.pids, p.state pid ≠ .running) ∧
      status = min 255 (∑ pid ∈ p.pids, (p.state pid).value)

section Due

variable {p q : Parent} {pid : ℤ}

theorem listed_iff : p.Listed pid ↔ ∃ j, p.entry j = some pid ∧ p.control.passed ≠ some j := by
  refine ⟨fun ⟨j, _, h⟩ ↦ ⟨j, h⟩, fun ⟨j, hj, hpassed⟩ ↦ ⟨j, ?_, hj, hpassed⟩⟩
  by_contra hge
  have hnone : p.entries[j]? = none := List.getElem?_eq_none (Nat.le_of_not_lt hge)
  unfold entry at hj
  split at hj
  · split_ifs at hj
    exact nomatch hnone.symm.trans hj
  · exact nomatch hnone.symm.trans hj

theorem due_congr (hentry : ∀ j, q.entry j = p.entry j)
    (hpassed : q.control.passed = p.control.passed)
    (hnewborn : q.control.newborn = p.control.newborn) (hadds : q.control.adds = p.control.adds) :
    q.Due pid ↔ p.Due pid := by
  unfold Due
  rw [listed_iff, listed_iff, hpassed, hnewborn, hadds]
  simp only [hentry]

theorem due_of_same (hchildPids : q.childPids = p.childPids) (hcontrol : q.control = p.control) :
    q.Due pid ↔ p.Due pid := by
  refine due_congr (fun j ↦ ?_) (by rw [hcontrol]) (by rw [hcontrol]) (by rw [hcontrol])
  unfold entry entries
  rw [hcontrol, hchildPids]

theorem mem_post {n m : ChildNotice} (h : m ∈ (p.post n).pending) :
    m ∈ p.pending ∨ p.pending = none ∧ m = n := by
  unfold post at h
  cases hp : p.pending with
  | none =>
      rw [hp] at h
      cases h
      exact .inr ⟨rfl, rfl⟩
  | some m' =>
      rw [hp] at h
      exact .inl h

theorem announced_post {n : ChildNotice} (h : n.code ≠ .killed ∧ n.code ≠ .dumped) :
    (p.post n).Announced pid ↔ p.Announced pid := by
  constructor
  · rintro ⟨m, hm, hpid, hcode⟩
    rcases mem_post hm with hm | ⟨-, rfl⟩
    · exact ⟨m, hm, hpid, hcode⟩
    · exact absurd hcode (not_or.mpr h)
  · rintro ⟨m, hm, hrest⟩
    refine ⟨m, ?_, hrest⟩
    unfold post
    rw [Option.mem_def.mp hm]
    rfl

theorem paid_congr (hstate : q.state pid = p.state pid) (hdue : q.Due pid ↔ p.Due pid)
    (hannounced : q.Announced pid ↔ p.Announced pid) : q.paid pid = p.paid pid := by
  classical
  unfold paid
  rw [hstate]
  cases p.state pid with
  | running => rfl
  | exited status => exact if_congr hdue rfl rfl
  | killed => exact if_congr hannounced rfl rfl

/-- The child of an entry that is not passed. -/
theorem due_iff_of_works (h : p.Listing) {i : ℕ} (hw : p.control.works = some (i, pid))
    (hpassed : p.control.passed = none) (hnewborn : p.control.newborn = none)
    (hadds : p.control.adds = none) : p.Due pid ↔ p.entry i = some pid := by
  obtain ⟨-, -, -, hothers⟩ := h.works i pid hw
  unfold Due
  rw [listed_iff, hpassed, hnewborn, hadds]
  constructor
  · rintro (⟨j, hj, -⟩ | heq | heq)
    · by_cases hne : j = i
      · exact hne ▸ hj
      · exact absurd hj (hothers j hne)
    · exact nomatch heq
    · exact nomatch heq
  · exact fun hi ↦ .inl ⟨i, hi, nofun⟩

end Due

namespace Accounts

variable {p q : Parent}

/-- The main thread moves on, and the same statuses will be added. -/
theorem of_due (h : p.Accounts) (hpids : q.pids = p.pids) (hstate : q.state = p.state)
    (hpending : q.pending = p.pending) (hexitStatus : q.exitStatus = p.exitStatus)
    (hdue : ∀ pid ∈ p.pids, q.Due pid ↔ p.Due pid) (hfault : q.control ≠ .fault)
    (hknows : q.Knows q.control) (hclamp : ∀ i, p.control ≠ .clamp i)
    (hreturned : ∀ status, q.control ≠ .returned status) : q.Accounts where
  notFault := hfault
  due := fun pid hin hrunning ↦ by
    rw [hpids] at hin
    rw [hstate] at hrunning
    exact (hdue pid hin).mpr (h.due pid hin hrunning)
  exited := by
    rw [hpending, hstate, hpids]
    exact h.exited
  killed := by
    rw [hpending, hstate, hpids]
    exact h.killed
  knows := hknows
  sum := by
    rw [hexitStatus, h.sum, hpids]
    refine congrArg (min 255) (Finset.sum_congr rfl fun pid hin ↦ ?_)
    refine (paid_congr (congrFun hstate pid) (hdue pid hin) ?_).symm
    unfold Announced
    rw [hpending]
  bounded := fun _ ↦ hexitStatus ▸ h.bounded hclamp
  returned := fun status heq ↦ absurd heq (hreturned status)

theorem start : Accounts .start where
  notFault := nofun
  due := fun _ hin ↦ absurd hin (Finset.notMem_empty _)
  exited := fun _ hn ↦ nomatch hn
  killed := fun _ hn ↦ nomatch hn
  knows := trivial
  sum := rfl
  bounded := fun _ ↦ Nat.zero_le _
  returned := fun _ heq ↦ nomatch heq

/-- The main thread moves on, and nothing else changes. -/
theorem advance (h : p.Accounts) {c c' : ParentControl} (hc : p.control = c)
    (hgrown : ∀ pid, c ≠ .grown pid) (hgrown' : ∀ pid, c' ≠ .grown pid)
    (hpassed : c'.passed = c.passed) (hnewborn : c'.newborn = c.newborn)
    (hadds : c'.adds = c.adds) (hknows : p.Knows c') (hclamp : ∀ i, c ≠ .clamp i)
    (hfault : c' ≠ .fault) (hreturned : ∀ status, c' ≠ .returned status) :
    Accounts { p with control := c' } := by
  subst hc
  refine h.of_due rfl rfl rfl rfl (fun _ _ ↦ due_congr (fun j ↦ ?_) hpassed hnewborn hadds) hfault
    hknows hclamp hreturned
  exact (entry_of_ne_grown hgrown' j).trans (entry_of_ne_grown hgrown j).symm

/-- The new child is in an entry. -/
theorem assign (h : p.Accounts) (hl : p.Listing) {pid : ℤ} (hc : p.control = .grown pid) :
    Accounts { p with
      childPids := some (p.entries.set (p.entries.length - 1) pid), control := .idle } := by
  have hlength : 0 < p.entries.length := List.length_pos_of_ne_nil (hl.grown pid hc)
  refine h.of_due rfl rfl rfl rfl (fun pid' hin ↦ ?_) nofun trivial
    (by rw [hc]; exact fun _ ↦ nofun) (fun _ ↦ nofun)
  unfold Due
  rw [listed_iff, listed_iff, hc]
  constructor
  · rintro (⟨j, hj, -⟩ | heq | heq)
    · replace hj : (p.entries.set (p.entries.length - 1) pid)[j]? = some pid' := hj
      by_cases hlast : j = p.entries.length - 1
      · subst hlast
        rw [List.getElem?_set_self (by omega)] at hj
        exact .inr (.inl hj)
      · rw [List.getElem?_set_ne (Ne.symm hlast)] at hj
        refine .inl ⟨j, ?_, nofun⟩
        rw [entry_of_grown hc, if_neg (by omega)]
        exact hj
    · exact nomatch heq
    · exact nomatch heq
  · rintro (⟨j, hj, -⟩ | heq | heq)
    · rw [entry_of_grown hc] at hj
      split_ifs at hj with hlast
      refine .inl ⟨j, ?_, nofun⟩
      show (p.entries.set (p.entries.length - 1) pid)[j]? = some pid'
      rw [List.getElem?_set_ne (by omega)]
      exact hj
    · cases heq
      refine .inl ⟨p.entries.length - 1, ?_, nofun⟩
      show (p.entries.set (p.entries.length - 1) pid)[p.entries.length - 1]? = some pid
      exact List.getElem?_set_self (by omega)
    · exact nomatch heq

/-- The loop passes an entry, which holds no other child. -/
theorem due_iff_of_ne (hl : p.Listing) {i : ℕ} {pid pid' : ℤ}
    (hw : p.control.works = some (i, pid)) (hentries : q.entries = p.entries)
    (hgrown' : ∀ pid, q.control ≠ .grown pid) (hnewborn' : q.control.newborn = none)
    (hpassed' : q.control.passed = some i)
    (hadds' : q.control.adds = none ∨ q.control.adds = some pid)
    (hin' : pid' ∈ p.pids) (hne : pid' ≠ pid) : q.Due pid' ↔ p.Due pid' := by
  obtain ⟨hnewborn, hpassed, hadds, hgrown, -⟩ := ParentControl.of_works hw
  obtain ⟨-, -, hi, -⟩ := hl.works i pid hw
  have hentry : ∀ j, q.entry j = p.entry j := by
    intro j
    rw [entry_of_ne_grown hgrown', entry_of_ne_grown hgrown, hentries]
  have hout : p.entry i ≠ some pid' := by
    intro heq
    rcases hi with hi | hi <;> rw [hi] at heq <;> cases heq
    · exact hne rfl
    · exact absurd (hl.positive _ hin') (by decide)
  unfold Due
  rw [listed_iff, listed_iff, hnewborn, hnewborn', hpassed']
  simp only [hentry]
  constructor
  · rintro (⟨j, hj, hji⟩ | heq | heq)
    · refine .inl ⟨j, hj, ?_⟩
      rcases hpassed with hpassed | hpassed <;> rw [hpassed]
      · exact nofun
      · exact hji
    · exact nomatch heq
    · rcases hadds' with hadds' | hadds' <;> rw [hadds'] at heq <;> cases heq
      exact absurd rfl hne
  · rintro (⟨j, hj, -⟩ | heq | heq)
    · exact .inl ⟨j, hj, fun heq ↦ hout (Option.some.inj heq ▸ hj)⟩
    · exact nomatch heq
    · rcases hadds with hadds | hadds <;> rw [hadds] at heq <;> cases heq
      exact absurd rfl hne

/-- The loop passes the entry of a child that has ended. -/
theorem pass (h : p.Accounts) (hl : p.Listing) {i : ℕ} {pid : ℤ}
    (hw : p.control.works = some (i, pid)) (hended : p.state pid ≠ .running)
    (hpids : q.pids = p.pids) (hstate : q.state = p.state) (hpending : q.pending = p.pending)
    (hentries : q.entries = p.entries) (hc : q.control = .clamp i ∨ q.control = .clear i)
    (hle : p.paid pid ≤ q.paid pid) (hsum : q.exitStatus + p.paid pid = p.exitStatus + q.paid pid)
    (hbounded : (∀ i, q.control ≠ .clamp i) → q.exitStatus ≤ 255) : q.Accounts := by
  obtain ⟨hnewborn, hpassed, hadds, hgrown, hclamp⟩ := ParentControl.of_works hw
  obtain ⟨hin, hlt, hi, hothers⟩ := hl.works i pid hw
  obtain ⟨hnewborn', hpassed', hadds', hgrown', hfault, hreturned, hknows⟩ :
      q.control.newborn = none ∧ q.control.passed = some i ∧ q.control.adds = none ∧
        (∀ pid, q.control ≠ .grown pid) ∧ q.control ≠ .fault ∧
          (∀ status, q.control ≠ .returned status) ∧ q.Knows q.control := by
    rcases hc with hc | hc <;> rw [hc] <;>
      exact ⟨rfl, rfl, rfl, fun _ ↦ nofun, nofun, fun _ ↦ nofun, trivial⟩
  have hdue : ∀ pid' ∈ p.pids, pid' ≠ pid → (q.Due pid' ↔ p.Due pid') := fun pid' hin' hne ↦
    due_iff_of_ne hl hw hentries hgrown' hnewborn' hpassed' (.inl hadds') hin' hne
  have hann : ∀ pid', q.Announced pid' ↔ p.Announced pid' := by
    intro pid'
    unfold Announced
    rw [hpending]
  have hmove := sum_add_of_ne (f := p.paid) (g := q.paid) hin fun pid' hin' hne ↦
    paid_congr (congrFun hstate pid') (hdue pid' hin' hne) (hann pid')
  refine ⟨hfault, fun pid' hin' hrunning ↦ ?_, ?_, ?_, hknows, ?_, hbounded,
    fun status heq ↦ absurd heq (hreturned status)⟩
  · rw [hpids] at hin'
    rw [hstate] at hrunning
    have hne : pid' ≠ pid := by
      rintro rfl
      exact hended hrunning
    exact (hdue pid' hin' hne).mpr (h.due pid' hin' hrunning)
  · rw [hpending, hstate, hpids]
    exact h.exited
  · rw [hpending, hstate, hpids]
    exact h.killed
  · have hp := h.sum
    have hb := h.bounded hclamp
    rw [hpids]
    omega

/-- The child of an entry that was passed. -/
theorem paid_of_passed {i : ℕ} {pid : ℤ} {status : Fin 256} (hl : p.Listing)
    (hw : p.control.works = some (i, pid)) (hentries : q.entries = p.entries)
    (hstate : q.state pid = .exited status) (hc : q.control = .clamp i ∨ q.control = .clear i) :
    q.paid pid = status := by
  obtain ⟨-, -, -, hgrown, -⟩ := ParentControl.of_works hw
  obtain ⟨-, -, -, hothers⟩ := hl.works i pid hw
  have hnot : ¬ q.Due pid := by
    unfold Due
    rw [listed_iff]
    rintro (⟨j, hj, hji⟩ | heq | heq)
    · rw [entry_of_ne_grown (by rcases hc with hc | hc <;> rw [hc] <;> exact fun _ ↦ nofun),
        hentries, ← entry_of_ne_grown hgrown] at hj
      refine hothers j (fun heq ↦ hji ?_) hj
      rcases hc with hc | hc <;> rw [hc, heq] <;> rfl
    · rcases hc with hc | hc <;> rw [hc] at heq <;> exact nomatch heq
    · rcases hc with hc | hc <;> rw [hc] at heq <;> exact nomatch heq
  unfold paid
  rw [hstate]
  exact if_neg hnot

/-- A status is added. -/
theorem store (h : p.Accounts) (hl : p.Listing) {i : ℕ} {pid : ℤ} {status : Fin 256} {sum : ℕ}
    (hc : p.control = .store i pid status sum) :
    Accounts { p with exitStatus := sum, control := .clamp i } := by
  have hw : p.control.works = some (i, pid) := by rw [hc]; rfl
  obtain ⟨hstate, hsum⟩ : p.state pid = .exited status ∧ sum = p.exitStatus + status := by
    have hknows := h.knows
    rwa [hc] at hknows
  have hpaid : p.paid pid = 0 := by
    unfold paid
    rw [hstate]
    exact if_pos (.inr (.inr (by rw [hc]; rfl)))
  have hpaid' : paid { p with exitStatus := sum, control := .clamp i } pid = status :=
    paid_of_passed hl hw rfl hstate (.inl rfl)
  refine h.pass hl hw (by rw [hstate]; exact nofun) rfl rfl rfl rfl (.inl rfl) ?_ ?_
    fun hclamp ↦ absurd rfl (hclamp i)
  · rw [hpaid]
    exact Nat.zero_le _
  · rw [hpaid, hpaid', Nat.add_zero]
    exact hsum

/-- Whether the child is still in its entry. -/
theorem due_iff_of_test (hl : p.Listing) {i : ℕ} {pid : ℤ} {status : Fin 256}
    (hc : p.control = .test i pid status) : p.Due pid ↔ 0 < p.entries.getD i (-1) := by
  have hw : p.control.works = some (i, pid) := by rw [hc]; rfl
  obtain ⟨hin, -, hi, -⟩ := hl.works i pid hw
  rw [due_iff_of_works hl hw (by rw [hc]; rfl) (by rw [hc]; rfl) (by rw [hc]; rfl)]
  rw [entry_of_ne_grown (by rw [hc]; exact fun _ ↦ nofun)] at hi ⊢
  rw [List.getD_eq_getElem?_getD]
  rcases hi with hi | hi <;> rw [hi]
  · exact ⟨fun _ ↦ hl.positive pid hin, fun _ ↦ rfl⟩
  · refine ⟨fun heq ↦ ?_, fun hpos ↦ absurd hpos (by decide)⟩
    cases heq
    exact hl.positive _ hin

/-- The status is going to be added. -/
theorem load (h : p.Accounts) (hl : p.Listing) {i : ℕ} {pid : ℤ} {status : Fin 256}
    (hc : p.control = .test i pid status) (hstatus : status ≠ 0)
    (hset : 0 < p.entries.getD i (-1)) : Accounts { p with control := .load i pid status } := by
  have hw : p.control.works = some (i, pid) := by rw [hc]; rfl
  refine h.of_due rfl rfl rfl rfl (fun pid' hin' ↦ ?_) nofun ?_
    (by rw [hc]; exact fun _ ↦ nofun) (fun _ ↦ nofun)
  · by_cases heq : pid' = pid
    · subst heq
      exact ⟨fun _ ↦ (due_iff_of_test hl hc).mpr hset, fun _ ↦ .inr (.inr rfl)⟩
    · exact due_iff_of_ne hl hw rfl (fun _ ↦ nofun) rfl rfl (.inr rfl) hin' heq
  · obtain ⟨hended, hcode⟩ : p.state pid ≠ .running ∧ (p.state pid).code = status := by
      have hknows := h.knows
      rwa [hc] at hknows
    show p.state pid = .exited status
    cases hs : p.state pid with
    | running => exact absurd hs hended
    | exited status' =>
        rw [hs] at hcode
        exact congrArg _ hcode
    | killed =>
        rw [hs] at hcode
        exact absurd hcode.symm hstatus

/-- There is no status to add. -/
theorem untold (h : p.Accounts) (hl : p.Listing) {i : ℕ} {pid : ℤ} {status : Fin 256}
    (hc : p.control = .test i pid status)
    (hnot : ¬ (status ≠ 0 ∧ 0 < p.entries.getD i (-1))) :
    Accounts { p with control := .clear i } := by
  have hw : p.control.works = some (i, pid) := by rw [hc]; rfl
  obtain ⟨hended, hcode⟩ : p.state pid ≠ .running ∧ (p.state pid).code = status := by
    have hknows := h.knows
    rwa [hc] at hknows
  have hpaid : paid { p with control := .clear i } pid = p.paid pid := by
    cases hs : p.state pid with
    | running => exact absurd hs hended
    | exited status' =>
        rw [hs] at hcode
        rw [paid_of_passed (q := { p with control := .clear i }) hl hw rfl hs (.inr rfl)]
        unfold paid
        rw [hs]
        by_cases hzero : status = 0
        · rw [show status' = 0 from hcode.trans hzero]
          exact (ite_self 0).symm
        · have hdue : ¬ p.Due pid := fun hdue ↦ hnot ⟨hzero, (due_iff_of_test hl hc).mp hdue⟩
          exact (if_neg hdue).symm
    | killed =>
        unfold paid
        rw [hs]
        rfl
  exact h.pass hl hw hended rfl rfl rfl rfl (.inr rfl) hpaid.ge
    (congrArg (p.exitStatus + ·) hpaid.symm) fun _ ↦ h.bounded (by rw [hc]; exact fun _ ↦ nofun)

theorem clamp (h : p.Accounts) {i : ℕ} (hc : p.control = .clamp i) :
    Accounts { p with
      exitStatus := if 255 < p.exitStatus then 255 else p.exitStatus, control := .clear i } := by
  let q : Parent := { p with
    exitStatus := if 255 < p.exitStatus then 255 else p.exitStatus, control := .clear i }
  have hgrown : ∀ pid, p.control ≠ .grown pid := by
    rw [hc]
    exact fun _ ↦ nofun
  have hdue : ∀ pid, q.Due pid ↔ p.Due pid := fun pid ↦ due_congr
    (fun j ↦ (entry_of_ne_grown (p := q) (fun _ ↦ nofun) j).trans (entry_of_ne_grown hgrown j).symm)
    (by rw [hc]; rfl) (by rw [hc]; rfl) (by rw [hc]; rfl)
  have hsum : min 255 q.exitStatus = min 255 p.exitStatus := by
    show min 255 (if 255 < p.exitStatus then 255 else p.exitStatus) = _
    split_ifs <;> omega
  refine ⟨nofun, fun pid hin hrunning ↦ (hdue pid).mpr (h.due pid hin hrunning), h.exited,
    h.killed, trivial, ?_, fun _ ↦ ?_, fun _ ↦ nofun⟩
  · refine hsum.trans (h.sum.trans (congrArg (min 255) (Finset.sum_congr rfl fun pid _ ↦ ?_)))
    exact (paid_congr (q := q) (p := p) rfl (hdue pid) Iff.rfl).symm
  · dsimp only
    split_ifs <;> omega

/-- The entry is cleared. -/
theorem clear (h : p.Accounts) (hl : p.Listing) {i : ℕ} (hc : p.control = .clear i) :
    Accounts { p with childPids := some (p.entries.set i (-1)), control := .loop i } := by
  have hgrown : ∀ pid, p.control ≠ .grown pid := by
    rw [hc]
    exact fun _ ↦ nofun
  refine h.of_due rfl rfl rfl rfl (fun pid hin ↦ ?_) nofun trivial
    (by rw [hc]; exact fun _ ↦ nofun) (fun _ ↦ nofun)
  unfold Due
  rw [listed_iff, listed_iff, hc]
  refine or_congr ⟨?_, ?_⟩ Iff.rfl
  · rintro ⟨j, hj, -⟩
    replace hj : (p.entries.set i (-1))[j]? = some pid := hj
    rw [List.getElem?_set] at hj
    split_ifs at hj with hij hlt
    · cases hj
      exact absurd (hl.positive _ hin) (by decide)
    · exact ⟨j, (entry_of_ne_grown hgrown j).trans hj, fun heq ↦ hij (Option.some.inj heq)⟩
  · rintro ⟨j, hj, hji⟩
    refine ⟨j, ?_, nofun⟩
    show (p.entries.set i (-1))[j]? = some pid
    rw [List.getElem?_set_ne fun heq ↦ hji (congrArg some heq)]
    exact (entry_of_ne_grown hgrown j).symm.trans hj

/-- When all entries are cleared, no status is due. -/
theorem not_due_of_cleared (hl : p.Listing) (hk : p.control.cleared = some 0)
    (hnewborn : p.control.newborn = none) (hadds : p.control.adds = none) {pid : ℤ}
    (hin : pid ∈ p.pids) : ¬ p.Due pid := by
  unfold Due
  rw [listed_iff, hnewborn, hadds]
  rintro (⟨j, hj, -⟩ | heq | heq)
  · have hlt := hl.cleared 0 hk j pid (Nat.zero_le j) hj
    have hpos := hl.positive pid hin
    omega
  · exact nomatch heq
  · exact nomatch heq

theorem free (h : p.Accounts) (hl : p.Listing) (hc : p.control = .freed) :
    Accounts { p with childPids := none, control := .done } := by
  refine h.of_due rfl rfl rfl rfl (fun pid hin ↦ ?_) nofun trivial
    (by rw [hc]; exact fun _ ↦ nofun) (fun _ ↦ nofun)
  refine iff_of_false (not_due_of_cleared hl.free rfl rfl rfl hin)
    (not_due_of_cleared hl (by rw [hc]; rfl) (by rw [hc]; rfl) (by rw [hc]; rfl) hin)

/-- All that the children add was paid. -/
theorem returns (h : p.Accounts) (hl : p.Listing) (hc : p.control = .done)
    (hpending : ∀ n ∈ p.pending, n.code ≠ .killed ∧ n.code ≠ .dumped) :
    Accounts { p with control := .returned p.exitStatus } := by
  have hdue : ∀ pid ∈ p.pids, ¬ p.Due pid := fun pid hin ↦
    not_due_of_cleared hl (by rw [hc]; rfl) (by rw [hc]; rfl) (by rw [hc]; rfl) hin
  have hended : ∀ pid ∈ p.pids, p.state pid ≠ .running :=
    fun pid hin hrunning ↦ hdue pid hin (h.due pid hin hrunning)
  have hpaid : ∀ pid ∈ p.pids, p.paid pid = (p.state pid).value := by
    intro pid hin
    unfold paid
    cases hs : p.state pid with
    | running => rfl
    | exited status => exact if_neg (hdue pid hin)
    | killed =>
        refine if_neg ?_
        rintro ⟨n, hn, -, hcode | hcode⟩
        · exact (hpending n hn).1 hcode
        · exact (hpending n hn).2 hcode
  let q : Parent := { p with control := .returned p.exitStatus }
  have hdue' : ∀ pid ∈ p.pids, ¬ q.Due pid := by
    have hl' : q.Listing := hl.keep hc rfl rfl fun _ hw ↦ nomatch hw
    exact fun pid hin ↦ not_due_of_cleared hl' rfl rfl rfl hin
  have hbounded : p.exitStatus ≤ 255 := h.bounded (by rw [hc]; exact fun _ ↦ nofun)
  refine ⟨nofun, fun pid hin hrunning ↦ absurd hrunning (hended pid hin), h.exited, h.killed,
    trivial, ?_, fun _ ↦ hbounded, fun status heq ↦ ⟨hended, ?_⟩⟩
  · refine h.sum.trans (congrArg (min 255) (Finset.sum_congr rfl fun pid hin ↦ ?_))
    exact (paid_congr (q := q) (p := p) rfl
      (iff_of_false (hdue' pid hin) (hdue pid hin)) Iff.rfl).symm
  · cases heq
    rw [← Finset.sum_congr rfl hpaid, ← h.sum]
    exact (Nat.min_eq_right hbounded).symm

/-- There was no child. -/
theorem childless (h : p.Accounts) (hl : p.Listing) (hc : p.control = .idle)
    (hnone : p.childPids = none) : Accounts { p with control := .returned 0 } := by
  have hpids : p.pids = ∅ := hl.first hc hnone
  have hout : ∀ pid, pid ∉ p.pids := fun pid ↦ hpids ▸ Finset.notMem_empty pid
  refine ⟨nofun, fun pid hin ↦ absurd hin (hout pid), h.exited, h.killed, trivial, ?_,
    fun _ ↦ h.bounded (by rw [hc]; exact fun _ ↦ nofun), fun status heq ↦ ⟨fun pid hin ↦
      absurd hin (hout pid), ?_⟩⟩
  · refine h.sum.trans (congrArg (min 255) (Finset.sum_congr rfl fun pid hin ↦ ?_))
    exact absurd hin (hout pid)
  · cases heq
    show 0 = min 255 (∑ pid ∈ p.pids, _)
    rw [hpids, Finset.sum_empty]
    rfl

theorem go (h : p.Accounts) (hl : p.Listing)
    (hdone : p.control = .done → ∀ n ∈ p.pending, n.code ≠ .killed ∧ n.code ≠ .dumped)
    (hq : p.go = some q) : q.Accounts := by
  unfold Parent.go at hq
  split at hq
  case h_4 pid hc =>
    cases hq
    exact h.assign hl hc
  case h_9 i pid status hc =>
    split_ifs at hq with hset
    · cases hq
      exact h.load hl hc hset.1 hset.2
    · cases hq
      exact h.untold hl hc hset
  case h_11 i pid status sum hc =>
    cases hq
    exact h.store hl hc
  case h_12 i hc =>
    cases hq
    exact h.clamp hc
  case h_13 i hc =>
    cases hq
    exact h.clear hl hc
  case h_14 hc =>
    cases hq
    exact h.free hl hc
  case h_15 hc =>
    cases hq
    exact h.returns hl hc (hdone hc)
  case h_16 | h_17 | h_18 | h_19 | h_20 => exact nomatch hq
  case h_1 pid hc | h_2 pid hc | h_3 pid hc =>
    cases hq
    exact h.advance hc (fun _ ↦ nofun) (fun _ ↦ nofun) rfl rfl rfl trivial (fun _ ↦ nofun) nofun
      fun _ ↦ nofun
  case h_5 hc =>
    cases hq
    exact h.advance hc (fun _ ↦ nofun) (fun _ ↦ nofun) rfl rfl rfl trivial (fun _ ↦ nofun) nofun
      fun _ ↦ nofun
  case h_6 i hc =>
    dsimp only at hq
    split_ifs at hq <;> cases hq <;>
      exact h.advance hc (fun _ ↦ nofun) (fun _ ↦ nofun) rfl rfl rfl trivial (fun _ ↦ nofun) nofun
        fun _ ↦ nofun
  case h_7 i pid hc =>
    split_ifs at hq <;> cases hq <;>
      exact h.advance hc (fun _ ↦ nofun) (fun _ ↦ nofun) rfl rfl rfl trivial (fun _ ↦ nofun) nofun
        fun _ ↦ nofun
  case h_8 i pid hc =>
    split at hq <;> cases hq
    · next status hs =>
      refine h.advance hc (fun _ ↦ nofun) (fun _ ↦ nofun) rfl rfl rfl ?_ (fun _ ↦ nofun) nofun
        fun _ ↦ nofun
      exact ⟨by rw [hs]; exact nofun, by rw [hs]; rfl⟩
    · next hs =>
      refine h.advance hc (fun _ ↦ nofun) (fun _ ↦ nofun) rfl rfl rfl ?_ (fun _ ↦ nofun) nofun
        fun _ ↦ nofun
      exact ⟨by rw [hs]; exact nofun, by rw [hs]; rfl⟩
  case h_10 i pid status hc =>
    cases hq
    have hknows := h.knows
    rw [hc] at hknows
    exact h.advance hc (fun _ ↦ nofun) (fun _ ↦ nofun) rfl rfl rfl ⟨hknows, rfl⟩ (fun _ ↦ nofun)
      nofun fun _ ↦ nofun

theorem realloc (h : p.Accounts) {pid : ℤ} (hc : p.control = .growing pid) (e : ℤ) :
    Accounts { p with childPids := some (p.entries ++ [e]), control := .grown pid } := by
  refine h.of_due rfl rfl rfl rfl (fun pid' _ ↦ due_congr (entry_realloc hc e) ?_ ?_ ?_) nofun
    trivial (by rw [hc]; exact fun _ ↦ nofun) fun _ ↦ nofun
  all_goals
    rw [hc]
    rfl

theorem fork (h : p.Accounts) (hc : p.control = .idle) {pid : ℤ} (hnew : pid ∉ p.pids) :
    Accounts { p with
      pids := insert pid p.pids
      state := Function.update p.state pid .running
      control := .started pid } := by
  let q : Parent := { p with
    pids := insert pid p.pids
    state := Function.update p.state pid .running
    control := .started pid }
  have hold : ∀ pid', pid' ∈ p.pids → q.state pid' = p.state pid' := by
    intro pid' hin
    refine Function.update_of_ne ?_ _ _
    rintro rfl
    exact hnew hin
  have hnewState : q.state pid = .running := Function.update_self _ _ _
  have hdue : ∀ pid' ∈ p.pids, q.Due pid' ↔ p.Due pid' := by
    intro pid' hin
    have hne : pid' ≠ pid := by
      rintro rfl
      exact hnew hin
    have hgrown : ∀ pid, p.control ≠ .grown pid := by
      rw [hc]
      exact fun _ ↦ nofun
    unfold Due
    rw [listed_iff, listed_iff, hc]
    refine or_congr (exists_congr fun j ↦ and_congr_left fun _ ↦ ?_)
      (or_congr (iff_of_false (fun heq ↦ hne (Option.some.inj heq).symm) nofun) Iff.rfl)
    rw [entry_of_ne_grown hgrown]
    exact Iff.rfl
  refine ⟨nofun, fun pid' hin hrunning ↦ ?_, fun n hn hcode ↦ ?_, fun n hn hcode ↦ ?_, trivial, ?_,
    fun _ ↦ h.bounded (by rw [hc]; exact fun _ ↦ nofun), fun _ ↦ nofun⟩
  · rcases Finset.mem_insert.mp hin with rfl | hin
    · exact .inr (.inl rfl)
    · exact (hdue pid' hin).mpr (h.due pid' hin ((hold pid' hin).symm.trans hrunning))
  · obtain ⟨hin, status, hs⟩ := h.exited n hn hcode
    exact ⟨Finset.mem_insert_of_mem hin, status, (hold n.pid hin).trans hs⟩
  · obtain ⟨hin, hs⟩ := h.killed n hn hcode
    exact ⟨Finset.mem_insert_of_mem hin, (hold n.pid hin).trans hs⟩
  · have hzero : q.paid pid = 0 := by
      unfold paid
      rw [hnewState]
    refine h.sum.trans (congrArg (min 255) ?_)
    show _ = ∑ pid' ∈ insert pid p.pids, q.paid pid'
    rw [Finset.sum_insert hnew, hzero, Nat.zero_add]
    exact Finset.sum_congr rfl fun pid' hin ↦
      (paid_congr (hold pid' hin) (hdue pid' hin) Iff.rfl).symm

/-- A child that runs does something that the parent is told. -/
theorem notify (h : p.Accounts) {pid : ℤ} (hin : pid ∈ p.pids) (hs : p.state pid = .running)
    (hpids : q.pids = p.pids) (hchildPids : q.childPids = p.childPids)
    (hexitStatus : q.exitStatus = p.exitStatus) (hcontrol : q.control = p.control)
    (hstate : ∀ pid', pid' ≠ pid → q.state pid' = p.state pid')
    (hexited : ∀ n ∈ q.pending, n.code = .exited →
      n.pid ∈ p.pids ∧ ∃ status, q.state n.pid = .exited status)
    (hkilled : ∀ n ∈ q.pending, n.code = .killed ∨ n.code = .dumped →
      n.pid ∈ p.pids ∧ q.state n.pid = .killed)
    (hpaid : q.paid pid = 0) (hann : ∀ pid', pid' ≠ pid → (q.Announced pid' ↔ p.Announced pid')) :
    q.Accounts := by
  have hdue : ∀ pid', q.Due pid' ↔ p.Due pid' := fun pid' ↦ due_of_same hchildPids hcontrol
  have hended : ∀ pid', p.state pid' ≠ .running → q.state pid' = p.state pid' := by
    intro pid' hnot
    refine hstate pid' ?_
    rintro rfl
    exact hnot hs
  refine ⟨hcontrol ▸ h.notFault, fun pid' hin' hrunning ↦ ?_, hpids ▸ hexited, hpids ▸ hkilled, ?_,
    ?_, ?_, fun status heq ↦ ?_⟩
  · refine (hdue pid').mpr (h.due pid' (hpids ▸ hin') ?_)
    by_contra hnot
    exact hnot ((hended pid' hnot).symm.trans hrunning)
  · have hknows := h.knows
    rw [hcontrol]
    cases hc : p.control with
    | test i pid' status =>
        rw [hc] at hknows
        show q.state pid' ≠ .running ∧ (q.state pid').code = status
        rw [hended pid' hknows.1]
        exact hknows
    | load i pid' status =>
        rw [hc] at hknows
        have hne : p.state pid' ≠ .running := by
          rw [show p.state pid' = .exited status from hknows]
          exact nofun
        exact (hended pid' hne).trans hknows
    | store i pid' status sum =>
        rw [hc] at hknows
        have hne : p.state pid' ≠ .running := by
          rw [hknows.1]
          exact nofun
        exact ⟨(hended pid' hne).trans hknows.1, hexitStatus ▸ hknows.2⟩
    | idle | started | reading | forked | growing | grown | loop | kill | wait | clamp | clear
    | freed | done | returned | ended | fault => trivial
  · rw [hexitStatus, hpids, h.sum]
    refine congrArg (min 255) (Finset.sum_congr rfl fun pid' hin' ↦ ?_)
    by_cases heq : pid' = pid
    · subst heq
      rw [hpaid]
      unfold paid
      rw [hs]
    · exact (paid_congr (hstate pid' heq) (hdue pid') (hann pid' heq)).symm
  · rw [hexitStatus, hcontrol]
    exact h.bounded
  · rw [hcontrol] at heq
    exact absurd hs ((h.returned status heq).1 pid hin)

theorem report (h : p.Accounts) {pid : ℤ} {code : ChildCode} (hin : pid ∈ p.pids)
    (hs : p.state pid = .running)
    (hcode : code = .trapped ∨ code = .stopped ∨ code = .continued) :
    (p.post ⟨pid, code⟩).Accounts := by
  have hnot : code ≠ .exited ∧ code ≠ .killed ∧ code ≠ .dumped := by
    rcases hcode with rfl | rfl | rfl <;> decide
  refine h.notify hin hs rfl rfl rfl rfl (fun _ _ ↦ rfl) (fun n hn hn' ↦ ?_) (fun n hn hn' ↦ ?_) ?_
    (fun _ _ ↦ announced_post hnot.2)
  · rcases mem_post hn with hn | ⟨-, rfl⟩
    · exact h.exited n hn hn'
    · exact absurd hn' hnot.1
  · rcases mem_post hn with hn | ⟨-, rfl⟩
    · exact h.killed n hn hn'
    · exact absurd hn' (not_or.mpr hnot.2)
  · unfold paid
    rw [show (p.post ⟨pid, code⟩).state pid = .running from hs]

theorem exit (h : p.Accounts) {pid : ℤ} (hin : pid ∈ p.pids) (hs : p.state pid = .running)
    (status : Fin 256) :
    Accounts ({ p with state := Function.update p.state pid (.exited status) }.post
      ⟨pid, .exited⟩) := by
  let q : Parent := { p with state := Function.update p.state pid (.exited status) }
  have hself : q.state pid = .exited status := Function.update_self _ _ _
  have hother : ∀ pid', pid' ≠ pid → q.state pid' = p.state pid' :=
    fun _ hne ↦ Function.update_of_ne hne _ _
  refine h.notify (q := q.post ⟨pid, .exited⟩) hin hs rfl rfl rfl rfl hother (fun n hn hcode ↦ ?_)
    (fun n hn hcode ↦ ?_) ?_ (fun _ _ ↦ announced_post ⟨nofun, nofun⟩)
  · rcases mem_post hn with hn | ⟨-, rfl⟩
    · obtain ⟨hin', status', hs'⟩ := h.exited n hn hcode
      refine ⟨hin', status', (hother n.pid ?_).trans hs'⟩
      rintro rfl
      exact nomatch hs.symm.trans hs'
    · exact ⟨hin, status, hself⟩
  · rcases mem_post hn with hn | ⟨-, rfl⟩
    · obtain ⟨hin', hs'⟩ := h.killed n hn hcode
      refine ⟨hin', (hother n.pid ?_).trans hs'⟩
      rintro rfl
      exact nomatch hs.symm.trans hs'
    · rcases hcode with hcode | hcode <;> exact nomatch hcode
  · have hdue : (q.post ⟨pid, .exited⟩).Due pid := (due_of_same rfl rfl).mpr (h.due pid hin hs)
    unfold paid
    rw [show (q.post ⟨pid, .exited⟩).state pid = .exited status from hself]
    exact if_pos hdue

theorem die (h : p.Accounts) {pid : ℤ} (hin : pid ∈ p.pids) (hs : p.state pid = .running)
    (hpending : p.pending = none) {code : ChildCode} (hcode : code = .killed ∨ code = .dumped) :
    Accounts ({ p with state := Function.update p.state pid .killed }.post ⟨pid, code⟩) := by
  let q : Parent := { p with state := Function.update p.state pid .killed }
  have hself : q.state pid = .killed := Function.update_self _ _ _
  have hnew : (q.post ⟨pid, code⟩).pending = some ⟨pid, code⟩ := by
    show some (p.pending.getD _) = _
    rw [hpending]
    rfl
  refine h.notify (q := q.post ⟨pid, code⟩) hin hs rfl rfl rfl rfl
    (fun _ hne ↦ Function.update_of_ne hne _ _) (fun n hn hn' ↦ ?_) (fun n hn hn' ↦ ?_) ?_
    (fun pid' hne ↦ iff_of_false ?_ ?_)
  · rw [hnew] at hn
    cases hn
    rcases hcode with hcode | hcode <;> exact nomatch hcode.symm.trans hn'
  · rw [hnew] at hn
    cases hn
    exact ⟨hin, hself⟩
  · unfold paid
    rw [show (q.post ⟨pid, code⟩).state pid = .killed from hself]
    exact if_pos ⟨⟨pid, code⟩, hnew, rfl, hcode⟩
  · rintro ⟨n, hn, rfl, -⟩
    rw [hnew] at hn
    cases hn
    exact hne rfl
  · rintro ⟨n, hn, -⟩
    rw [hpending] at hn
    exact nomatch hn

end Accounts

/-! ## The handler -/

/-- The handler reads no entry that is not in the array. -/
def Intact (p : Parent) (pid : ℤ) : Prop :=
  p.control ≠ .freed ∧ (p.control.grows = true → pid ∈ p.entries)

/-- What `sigChildHandler()` may be told. -/
def Handles (p : Parent) (n : ChildNotice) : Prop :=
  (n.code = .exited → p.Intact n.pid ∧ (p.state n.pid = .exited 0 ∨ ¬ p.Listed n.pid)) ∧
    (n.code = .killed ∨ n.code = .dumped → p.Intact n.pid ∧ p.control.stores = false) ∧
      n.code ≠ .trapped

instance (p : Parent) (pid : ℤ) : Decidable (p.Intact pid) :=
  inferInstanceAs (Decidable (_ ∧ _))

instance (p : Parent) (n : ChildNotice) : Decidable (p.Handles n) :=
  inferInstanceAs (Decidable (_ ∧ _))

theorem removePid_of_intact {p : Parent} {pid : ℤ} (h : p.Intact pid) :
    p.removePidFromChildList pid = { p with childPids := p.childPids.map (clearPid pid) } := by
  unfold removePidFromChildList
  split
  · next pid' hc => exact if_pos (h.2 (by rw [hc]; rfl))
  · next hc => exact absurd hc h.1
  · rfl

/-- The handler clears the entry of a child, and of no other one. -/
theorem due_of_clearPid {p q : Parent} {pid pid' : ℤ}
    (hq : q.childPids = p.childPids.map (clearPid pid)) (hcontrol : q.control = p.control)
    (hpos : 0 < pid') (h : pid' ≠ pid ∨ ¬ p.Listed pid) : q.Due pid' ↔ p.Due pid' := by
  unfold Due
  rw [hcontrol]
  refine or_congr ?_ Iff.rfl
  rw [listed_iff, listed_iff, hcontrol]
  refine exists_congr fun j ↦ and_congr_left fun hj ↦ ?_
  rcases entry_clearPid hq hcontrol j with hsame | ⟨hold, hnew⟩
  · rw [hsame]
  · rw [hold, hnew]
    refine iff_of_false (fun heq ↦ ?_) (fun heq ↦ ?_)
    · cases heq
      exact absurd hpos (by decide)
    · cases heq
      rcases h with hne | hnot
      · exact hne rfl
      · exact hnot (listed_iff.mpr ⟨j, hold, hj⟩)

theorem not_announced {p : Parent} (h : p.pending = none) (pid : ℤ) : ¬ p.Announced pid := by
  rintro ⟨n, hn, -⟩
  rw [h] at hn
  exact nomatch hn

theorem announced_iff {p : Parent} {n : ChildNotice} (h : p.pending = some n) (pid : ℤ) :
    p.Announced pid ↔ n.pid = pid ∧ (n.code = .killed ∨ n.code = .dumped) := by
  unfold Announced
  rw [h]
  constructor
  · rintro ⟨m, hm, hrest⟩
    cases hm
    exact hrest
  · exact fun hrest ↦ ⟨n, rfl, hrest⟩

namespace Accounts

variable {p q : Parent} {n : ChildNotice}

/-- The handler leaves the children and the main thread as they are. -/
theorem handled (h : p.Accounts) (hpids : q.pids = p.pids) (hstate : q.state = p.state)
    (hpending : q.pending = none) (hcontrol : q.control = p.control)
    (hdue : ∀ pid ∈ p.pids, p.state pid = .running → p.Due pid → q.Due pid)
    (hknows : q.Knows p.control)
    (hsum : min 255 q.exitStatus = min 255 (∑ pid ∈ p.pids, q.paid pid))
    (hbounded : (∀ i, p.control ≠ .clamp i) → q.exitStatus ≤ 255) : q.Accounts := by
  refine ⟨hcontrol ▸ h.notFault, fun pid hin hrunning ↦ ?_, fun m hm ↦ ?_, fun m hm ↦ ?_,
    hcontrol ▸ hknows, hpids ▸ hsum, hcontrol ▸ hbounded, ?_⟩
  · rw [hpids] at hin
    rw [hstate] at hrunning
    exact hdue pid hin hrunning (h.due pid hin hrunning)
  · rw [hpending] at hm
    exact nomatch hm
  · rw [hpending] at hm
    exact nomatch hm
  · rw [hcontrol, hpids, hstate]
    exact h.returned

/-- A child stopped or continued. -/
theorem told (h : p.Accounts) (hn : p.pending = some n)
    (hcode : n.code = .stopped ∨ n.code = .continued) : Accounts { p with pending := none } := by
  let q : Parent := { p with pending := none }
  have hdue : ∀ pid, q.Due pid ↔ p.Due pid := fun pid ↦ due_of_same rfl rfl
  refine h.handled (q := q) rfl rfl rfl rfl (fun pid _ _ ↦ (hdue pid).mpr) h.knows ?_ h.bounded
  refine h.sum.trans (congrArg (min 255) (Finset.sum_congr rfl fun pid _ ↦ ?_))
  refine (paid_congr (q := q) (p := p) rfl (hdue pid)
    (iff_of_false (not_announced rfl pid) ?_)).symm
  rw [announced_iff hn]
  rintro ⟨-, hcode'⟩
  rcases hcode with hcode | hcode <;> rcases hcode' with hcode' | hcode' <;>
    exact nomatch hcode.symm.trans hcode'

/-- A child exited. -/
theorem reaped (h : p.Accounts) (hl : p.Listing) (hn : p.pending = some n)
    (hcode : n.code = .exited) (hlost : p.state n.pid = .exited 0 ∨ ¬ p.Listed n.pid) :
    Accounts { p with
      pending := none, childPids := p.childPids.map (Potato.clearPid n.pid) } := by
  let q : Parent := { p with
    pending := none, childPids := p.childPids.map (Potato.clearPid n.pid) }
  obtain ⟨hin, status, hs⟩ := h.exited n hn hcode
  have hdue : ∀ pid ∈ p.pids, pid ≠ n.pid ∨ ¬ p.Listed n.pid → (q.Due pid ↔ p.Due pid) :=
    fun pid hin ↦ due_of_clearPid rfl rfl (hl.positive pid hin)
  refine h.handled (q := q) rfl rfl rfl rfl (fun pid hin hrunning ↦ ?_) h.knows ?_ h.bounded
  · refine (hdue pid hin (.inl ?_)).mpr
    rintro rfl
    exact nomatch hs.symm.trans hrunning
  · refine h.sum.trans (congrArg (min 255) (Finset.sum_congr rfl fun pid hin ↦ ?_))
    have hann : q.Announced pid ↔ p.Announced pid := by
      refine iff_of_false (not_announced rfl pid) ?_
      rw [announced_iff hn, hcode]
      exact fun h ↦ by rcases h.2 with h | h <;> exact nomatch h
    by_cases hsame : pid ≠ n.pid ∨ ¬ p.Listed n.pid
    · exact (paid_congr (q := q) (p := p) rfl (hdue pid hin hsame) hann).symm
    · -- the status is lost, but it is zero
      obtain ⟨heq, hlisted⟩ := not_or.mp hsame
      obtain rfl := not_not.mp heq
      have hzero := hlost.resolve_right hlisted
      unfold paid
      rw [show q.state n.pid = .exited 0 from hzero]
      exact (ite_self _).trans (ite_self _).symm

/-- A child was killed. -/
theorem counted (h : p.Accounts) (hl : p.Listing) (hn : p.pending = some n)
    (hcode : n.code = .killed ∨ n.code = .dumped) (hstores : p.control.stores = false) :
    Accounts { p with
      pending := none, childPids := p.childPids.map (Potato.clearPid n.pid),
      exitStatus := if 255 < p.exitStatus + 1 then 255 else p.exitStatus + 1 } := by
  let q : Parent := { p with
    pending := none, childPids := p.childPids.map (Potato.clearPid n.pid),
    exitStatus := if 255 < p.exitStatus + 1 then 255 else p.exitStatus + 1 }
  obtain ⟨hin, hs⟩ := h.killed n hn hcode
  have hdue : ∀ pid ∈ p.pids, pid ≠ n.pid → (q.Due pid ↔ p.Due pid) :=
    fun pid hin hne ↦ due_of_clearPid rfl rfl (hl.positive pid hin) (.inl hne)
  have hknows : q.Knows p.control := by
    have hknows := h.knows
    cases hc : p.control with
    | store =>
        rw [hc] at hstores
        exact nomatch hstores
    | test | load =>
        rw [hc] at hknows
        exact hknows
    | idle | started | reading | forked | growing | grown | loop | kill | wait | clamp | clear
    | freed | done | returned | ended | fault => trivial
  have hmove := sum_add_of_ne (f := p.paid) (g := q.paid) hin fun pid hin hne ↦ by
    refine paid_congr rfl (hdue pid hin hne) (iff_of_false (not_announced rfl pid) ?_)
    rw [announced_iff hn]
    exact fun h ↦ hne h.1.symm
  have hbefore : p.paid n.pid = 0 := by
    unfold paid
    rw [hs]
    exact if_pos ((announced_iff hn n.pid).mpr ⟨rfl, hcode⟩)
  have hafter : q.paid n.pid = 1 := by
    unfold paid
    rw [show q.state n.pid = .killed from hs]
    exact if_neg (not_announced rfl n.pid)
  have hexitStatus : q.exitStatus = min 255 (p.exitStatus + 1) := by
    show (if 255 < p.exitStatus + 1 then 255 else p.exitStatus + 1) = _
    split_ifs <;> omega
  refine h.handled (q := q) rfl rfl rfl rfl (fun pid hin hrunning ↦ ?_) hknows ?_ fun _ ↦ ?_
  · refine (hdue pid hin ?_).mpr
    rintro rfl
    exact nomatch hs.symm.trans hrunning
  · have hsum := h.sum
    omega
  · omega

theorem handle (h : p.Accounts) (hl : p.Listing) (hn : p.pending = some n)
    (hhandles : p.Handles n) : ({ p with pending := none }.sigChildHandler n).Accounts := by
  obtain ⟨hexited, hkilled, htrapped⟩ := hhandles
  unfold sigChildHandler
  cases hcode : n.code with
  | exited =>
      obtain ⟨hintact, hlost⟩ := hexited hcode
      dsimp only
      rw [removePid_of_intact (p := { p with pending := none }) hintact]
      exact h.reaped hl hn hcode hlost
  | killed | dumped =>
      have hcode' : n.code = .killed ∨ n.code = .dumped := by
        rw [hcode]
        decide
      obtain ⟨hintact, hstores⟩ := hkilled hcode'
      dsimp only
      rw [removePid_of_intact (p := { p with
        pending := none
        exitStatus := if 255 < p.exitStatus + 1 then 255 else p.exitStatus + 1 }) hintact]
      exact h.counted hl hn hcode' hstores
  | trapped => exact absurd hcode htrapped
  | stopped => exact h.told hn (.inl hcode)
  | continued => exact h.told hn (.inr hcode)

end Accounts

/-! ## Runs -/

/-- The steps that lose no status, and do not end the process. -/
def Counts (p : Parent) : ParentAction → Prop
  | .handle => p.control.reads = false ∧ ∀ n ∈ p.pending, p.Handles n
  | .eof => False
  | .die _ _ => p.pending = none
  | .go => p.control = .done → ∀ n ∈ p.pending, n.code ≠ .killed ∧ n.code ≠ .dumped
  | _ => True

instance : DecidableRel Counts := fun p a ↦
  match a with
  | .handle => inferInstanceAs (Decidable (p.control.reads = false ∧ ∀ n ∈ p.pending, p.Handles n))
  | .eof => isFalse id
  | .die _ _ => inferInstanceAs (Decidable (p.pending = none))
  | .go => inferInstanceAs (Decidable (p.control = .done → ∀ n ∈ p.pending,
      n.code ≠ .killed ∧ n.code ≠ .dumped))
  | .fork _ | .realloc _ | .remove | .exit _ _ | .report _ _ => isTrue trivial

theorem interrupted_of_reads {p : Parent} (h : p.control.reads = false) : p.interrupted = p := by
  unfold interrupted
  split
  · next pid hc => exact nomatch hc ▸ h
  · rfl

theorem control_of_removePid (p : Parent) (pid : ℤ) :
    (p.removePidFromChildList pid).control = p.control ∨
      (p.removePidFromChildList pid).control = .fault := by
  unfold removePidFromChildList
  split
  · split_ifs
    · exact .inl rfl
    · exact .inr rfl
  · exact .inr rfl
  · exact .inl rfl

theorem control_of_handler (p : Parent) (n : ChildNotice) :
    (p.sigChildHandler n).control = p.control ∨ (p.sigChildHandler n).control = .fault := by
  unfold sigChildHandler
  split
  case h_5 | h_6 => exact .inl rfl
  all_goals exact control_of_removePid _ _

/-- The handler does not interrupt a `read()`. -/
theorem handler_of_reads {p : Parent} (h : p.control.reads = false) (n : ChildNotice) :
    (p.sigChildHandler n).interrupted = p.sigChildHandler n := by
  refine interrupted_of_reads ?_
  rcases p.control_of_handler n with heq | heq <;> rw [heq]
  · exact h
  · rfl

theorem Accounts.step {p q : Parent} (h : p.Accounts) (hl : p.Listing) {a : ParentAction}
    (hcounts : p.Counts a) (hq : p.step a = some q) : q.Accounts := by
  cases a with
  | fork pid =>
      obtain ⟨⟨hc, hpos, hnew⟩, hq⟩ := Option.ite_none_right_eq_some.mp hq
      cases hq
      exact h.fork hc hnew
  | realloc e =>
      simp only [Parent.step] at hq
      split at hq <;> cases hq
      next pid hc => exact h.realloc hc e
  | remove =>
      obtain ⟨hc, hq⟩ := Option.ite_none_right_eq_some.mp hq
      split at hq <;> cases hq
      · next hnone => exact h.childless hl hc hnone
      · next entries hsome =>
        exact h.advance hc (fun _ ↦ by rintro ⟨⟩) (fun _ ↦ by rintro ⟨⟩) rfl rfl rfl trivial
          (fun _ ↦ by rintro ⟨⟩) (by rintro ⟨⟩) fun _ ↦ by rintro ⟨⟩
  | go => exact h.go hl hcounts hq
  | exit pid status =>
      obtain ⟨⟨hin, hs⟩, hq⟩ := Option.ite_none_right_eq_some.mp hq
      cases hq
      exact h.exit hin hs status
  | die pid dumped =>
      obtain ⟨⟨hin, hs⟩, hq⟩ := Option.ite_none_right_eq_some.mp hq
      cases hq
      refine h.die hin hs hcounts ?_
      cases dumped
      · exact .inl rfl
      · exact .inr rfl
  | report pid code =>
      obtain ⟨⟨hin, hs, hcode⟩, hq⟩ := Option.ite_none_right_eq_some.mp hq
      cases hq
      exact h.report hin hs hcode
  | handle =>
      obtain ⟨-, hq⟩ := Option.ite_none_left_eq_some.mp hq
      split at hq <;> cases hq
      next n hn =>
        rw [handler_of_reads (p := { p with pending := none }) hcounts.1]
        exact h.handle hl hn (hcounts.2 n hn)
  | eof => exact hcounts.elim

/-- The first child exits while `poTato_fork()` waits for the second one. -/
example : (exec step Any start [.fork 7, .go, .go, .go, .realloc 0, .go, .fork 8, .go, .exit 7 0,
    .handle]).map Parent.control = some .ended := by decide

end Parent

end Tidbits.Potato
