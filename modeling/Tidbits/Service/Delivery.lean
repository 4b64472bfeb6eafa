import Tidbits.Service.Callbacks
import Mathlib.Data.List.Range

/-!
# What a session has sent

`Delivers` accounts for every byte: those that the socket has accepted, followed
by what is left of the queued entries, are the entries in the order they were
queued.  It is kept along runs whose system calls conserve the bytes of the
entries (`Writer.Conserves`).

`Closes` is about the end of a session: after `POSERVICE_CLOSE` the service asks for
the close when the queue becomes empty.
-/

namespace Tidbits.Service

open Server Transition

variable {Call Out Result : Type} {cfg : Config Call Out Result}
  {s s' : Session Out} {a : Action Call Result} {rest : Out → List UInt8}

namespace Session

/-- The output of a connection that is not removed. -/
structure Live (rest : Out → List UInt8) (s : Session Out) : Prop where
  conserved : s.accepted ++ s.queue.flatMap (fun e ↦ rest e.out) = s.queued.flatMap rest
  handed : ∀ i < s.freed.length, ∀ o, s.queued[i]? = some o → s.handed i = rest o
  pending : ∀ e ∈ s.queue, ∃ o, s.queued[e.no]? = some o ∧ s.handed e.no ++ rest e.out = rest o ∧
    (rest o ≠ [] → rest e.out ≠ [])

/-- Every byte and every entry is accounted for. -/
structure Delivers (rest : Out → List UInt8) (s : Session Out) : Prop where
  accepted : s.accepted <+: s.queued.flatMap rest
  count : s.queued.length = s.freed.length + s.queue.length
  freed : s.freed = List.range s.freed.length
  numbers : s.queue.map Entry.no = List.range' s.freed.length s.queue.length
  unhanded : ∀ i, s.queued.length ≤ i → s.handed i = []
  live : s.control ≠ .removed → s.Live rest

/-- The output is left as it is. -/
structure SameOutput (s s' : Session Out) : Prop where
  queue : s'.queue = s.queue
  queued : s'.queued = s.queued
  accepted : s'.accepted = s.accepted
  handed : s'.handed = s.handed
  freed : s'.freed = s.freed

theorem delivers_start (fd : ℤ) (acceptTime : Time) (acceptNo : ℕ) :
    (start Out fd acceptTime acceptNo).Delivers rest where
  accepted := List.nil_prefix
  count := rfl
  freed := rfl
  numbers := rfl
  unhanded := fun _ _ ↦ rfl
  live := fun _ ↦ ⟨rfl, fun _ hi ↦ (nomatch hi), fun _ he ↦ nomatch he⟩

theorem Delivers.of_same (h : s.Delivers rest) (hsame : s.SameOutput s')
    (hlive : s.control ≠ .removed) : s'.Delivers rest := by
  obtain ⟨hqueue, hqueued, haccepted, hhanded, hfreed⟩ := hsame
  have hold := h.live hlive
  refine ⟨?_, ?_, ?_, ?_, ?_, fun _ ↦ ⟨?_, ?_, ?_⟩⟩
  · rw [haccepted, hqueued]
    exact h.accepted
  · rw [hqueued, hfreed, hqueue]
    exact h.count
  · rw [hfreed]
    exact h.freed
  · rw [hqueue, hfreed]
    exact h.numbers
  · rw [hqueued, hhanded]
    exact h.unhanded
  · rw [haccepted, hqueue, hqueued]
    exact hold.conserved
  · rw [hfreed, hqueued, hhanded]
    exact hold.handed
  · rw [hqueue, hqueued, hhanded]
    exact hold.pending

/-! ## What leaves the output alone -/

theorem sameOutput_refl (s : Session Out) : s.SameOutput s := ⟨rfl, rfl, rfl, rfl, rfl⟩

theorem sameOutput_writeReturned (s : Session Out) (value : ℤ) (caller : Caller) :
    s.SameOutput (s.writeReturned value caller) := by
  cases caller <;> exact ⟨rfl, rfl, rfl, rfl, rfl⟩

theorem sameOutput_writeFinished (s : Session Out) (caller : Caller) :
    s.SameOutput (s.writeFinished caller) := by
  cases caller <;> exact ⟨rfl, rfl, rfl, rfl, rfl⟩

theorem sameOutput_setUp (s : Session Out) (cfg : Config Call Out Result) (ok : Bool) :
    s.SameOutput (s.setUp cfg ok) := by
  unfold setUp
  split_ifs <;> exact ⟨rfl, rfl, rfl, rfl, rfl⟩

theorem sameOutput_readStep (s : Session Out) (oldLen : ℕ) (r : ReadResult) (next : ReadStep) :
    s.SameOutput (s.readStep oldLen r next) := by
  cases next with
  | goesOn input => exact ⟨rfl, rfl, rfl, rfl, rfl⟩
  | returns input value =>
      unfold readStep
      dsimp only
      split_ifs <;> exact ⟨rfl, rfl, rfl, rfl, rfl⟩
  | ends => exact ⟨rfl, rfl, rfl, rfl, rfl⟩

theorem sameOutput_sessionReturned (s : Session Out) (value : POServiceReturn) :
    s.SameOutput (s.sessionReturned value) := by
  cases value with
  | close =>
      unfold sessionReturned
      dsimp only
      split_ifs <;> exact ⟨rfl, rfl, rfl, rfl, rfl⟩
  | «continue» => exact ⟨rfl, rfl, rfl, rfl, rfl⟩
  | wait => exact ⟨rfl, rfl, rfl, rfl, rfl⟩
  | error => exact ⟨rfl, rfl, rfl, rfl, rfl⟩

/-- A send does what `outQueuePush` does to the output. -/
theorem sameOutput_send (s : Session Out) (caller : Caller) (out : Out) :
    (s.push out).SameOutput (s.send caller out) := by
  unfold send
  dsimp only
  split_ifs <;> exact ⟨rfl, rfl, rfl, rfl, rfl⟩

/-! ## Queueing -/

theorem Delivers.push (h : s.Delivers rest) (hlive : s.control ≠ .removed) (out : Out) :
    (s.push out).Delivers rest := by
  have hold := h.live hlive
  have hmono : ∀ {i : ℕ} {o : Out}, s.queued[i]? = some o → (s.queued ++ [out])[i]? = some o := by
    intro i o hi
    rw [List.getElem?_append_left (List.getElem?_eq_some_iff.mp hi).1]
    exact hi
  refine ⟨?_, ?_, h.freed, ?_, ?_, fun _ ↦ ⟨?_, ?_, ?_⟩⟩
  · refine h.accepted.trans ?_
    show s.queued.flatMap rest <+: (s.queued ++ [out]).flatMap rest
    rw [List.flatMap_append]
    exact List.prefix_append _ _
  · show (s.queued ++ [out]).length = s.freed.length + (s.queue ++ [_]).length
    rw [List.length_append, List.length_append, h.count]
    rfl
  · show (s.queue ++ [_]).map Entry.no = List.range' s.freed.length (s.queue ++ [_]).length
    rw [List.map_append, List.length_append, List.length_singleton, h.numbers, List.range'_concat,
      Nat.one_mul, ← h.count]
    rfl
  · intro i hi
    refine h.unhanded i (Nat.le_trans ?_ hi)
    show s.queued.length ≤ (s.queued ++ [out]).length
    rw [List.length_append]
    exact Nat.le_add_right _ _
  · show s.accepted ++ (s.queue ++ [_]).flatMap _ = (s.queued ++ [out]).flatMap rest
    rw [List.flatMap_append, List.flatMap_append, ← List.append_assoc, hold.conserved]
    rfl
  · intro i hi o ho
    refine hold.handed i hi o ?_
    have hlt : i < s.queued.length := by
      rw [h.count]
      exact Nat.lt_add_right _ hi
    rwa [← List.getElem?_append_left hlt]
  · intro e he
    rcases List.mem_append.mp he with he | he
    · obtain ⟨o, ho, hbytes, hne⟩ := hold.pending e he
      exact ⟨o, hmono ho, hbytes, hne⟩
    · cases List.mem_singleton.mp he
      refine ⟨out, List.getElem?_concat_length, ?_, id⟩
      show s.handed s.queued.length ++ rest out = rest out
      rw [h.unhanded _ (Nat.le_refl _)]
      rfl

/-! ## Writing -/

/-- What the numbers say of the first entry: it is the next one to be freed, and the others come
behind it. -/
theorem Delivers.head {e : Entry Out} {es : List (Entry Out)} (h : s.Delivers rest)
    (hqueue : s.queue = e :: es) :
    e.no = s.freed.length ∧ es.map Entry.no = List.range' (s.freed.length + 1) es.length ∧
      (∀ e' ∈ es, e'.no ≠ e.no) ∧ e.no < s.queued.length := by
  have hnumbers := h.numbers
  rw [hqueue, List.map_cons, List.length_cons, List.range'_succ] at hnumbers
  obtain ⟨hno, htail⟩ := List.cons.inj hnumbers
  refine ⟨hno, htail, fun e' he' heq ↦ ?_, ?_⟩
  · have hmem : e'.no ∈ List.range' (s.freed.length + 1) es.length :=
      htail ▸ List.mem_map_of_mem he'
    have hle := (List.mem_range'_1.mp hmem).1
    omega
  · rw [h.count, hqueue, hno, List.length_cons]
    omega

section Write

variable {e : Entry Out} {es : List (Entry Out)} {sent : List UInt8} {out : Out}

theorem handOver_handed_self (no : ℕ) (bytes : List UInt8) :
    (s.handOver no bytes).handed no = s.handed no ++ bytes := Function.update_self _ _ _

theorem handOver_handed_of_ne {no i : ℕ} (bytes : List UInt8) (hne : i ≠ no) :
    (s.handOver no bytes).handed i = s.handed i := Function.update_of_ne hne _ _

/-- The first entry has lost the bytes that were handed over. -/
theorem Delivers.kept (h : s.Delivers rest) (hlive : s.control ≠ .removed)
    (hqueue : s.queue = e :: es) (hrest : rest e.out = sent ++ rest out)
    (hout : rest e.out ≠ [] → rest out ≠ []) :
    { s.handOver e.no sent with queue := ⟨e.no, out⟩ :: es }.Delivers rest := by
  have hold := h.live hlive
  obtain ⟨hno, htail, hothers, hlt⟩ := h.head hqueue
  have hconserved : (s.accepted ++ sent) ++ (rest out ++ es.flatMap fun e ↦ rest e.out) =
      s.queued.flatMap rest := by
    rw [← hold.conserved, hqueue, List.flatMap_cons, hrest]
    simp only [List.append_assoc]
  refine ⟨⟨_, hconserved⟩, ?_, h.freed, ?_, ?_, fun _ ↦ ⟨hconserved, ?_, ?_⟩⟩
  · have hcount := h.count
    rw [hqueue] at hcount
    exact hcount
  · show e.no :: es.map Entry.no = List.range' s.freed.length (es.length + 1)
    rw [List.range'_succ, htail, hno]
  · intro i hi
    rw [← h.unhanded i hi]
    exact handOver_handed_of_ne sent (Nat.ne_of_gt (Nat.lt_of_lt_of_le hlt hi))
  · intro i hi o ho
    rw [← hold.handed i hi o ho]
    exact handOver_handed_of_ne sent (by show i ≠ e.no; rw [hno]; exact Nat.ne_of_lt hi)
  · intro e' he'
    rcases List.mem_cons.mp he' with rfl | he'
    · obtain ⟨o, ho, hbytes, hne⟩ := hold.pending e (hqueue ▸ List.mem_cons_self)
      refine ⟨o, ho, ?_, fun ho ↦ hout (hne ho)⟩
      show (s.handOver e.no sent).handed e.no ++ rest out = rest o
      rw [handOver_handed_self, List.append_assoc, ← hrest, hbytes]
    · obtain ⟨o, ho, hbytes, hne⟩ := hold.pending e' (hqueue ▸ List.mem_cons_of_mem _ he')
      refine ⟨o, ho, ?_, hne⟩
      rw [← hbytes]
      exact congrArg (· ++ _) (handOver_handed_of_ne sent (hothers e' he'))

/-- The first entry is finished. -/
theorem Delivers.popped (h : s.Delivers rest) (hlive : s.control ≠ .removed)
    (hqueue : s.queue = e :: es) (hrest : rest e.out = sent) :
    ((s.handOver e.no sent).pop e.no es).Delivers rest := by
  have hold := h.live hlive
  obtain ⟨hno, htail, hothers, hlt⟩ := h.head hqueue
  have hfreed : (s.freed ++ [e.no]).length = s.freed.length + 1 := List.length_append
  have hconserved : (s.accepted ++ sent) ++ (es.flatMap fun e ↦ rest e.out) =
      s.queued.flatMap rest := by
    rw [← hold.conserved, hqueue, List.flatMap_cons, hrest]
    simp only [List.append_assoc]
  refine ⟨⟨_, hconserved⟩, ?_, ?_, ?_, ?_, fun _ ↦ ⟨hconserved, ?_, ?_⟩⟩
  · show s.queued.length = (s.freed ++ [e.no]).length + es.length
    rw [hfreed, h.count, hqueue, List.length_cons]
    omega
  · show s.freed ++ [e.no] = List.range (s.freed ++ [e.no]).length
    rw [hfreed, List.range_succ, ← h.freed, hno]
  · show es.map Entry.no = List.range' (s.freed ++ [e.no]).length es.length
    rw [hfreed, htail]
  · intro i hi
    rw [← h.unhanded i hi]
    exact handOver_handed_of_ne sent (Nat.ne_of_gt (Nat.lt_of_lt_of_le hlt hi))
  · intro i hi o ho
    have hi' : i < s.freed.length + 1 := hfreed ▸ hi
    rcases Nat.lt_succ_iff_lt_or_eq.mp hi' with hi' | hi'
    · rw [← hold.handed i hi' o ho]
      exact handOver_handed_of_ne sent (by rw [hno]; exact Nat.ne_of_lt hi')
    · obtain ⟨o', ho', hbytes, -⟩ := hold.pending e (hqueue ▸ List.mem_cons_self)
      rw [← hno] at hi'
      subst hi'
      have heq : o' = o := Option.some.inj (ho'.symm.trans ho)
      show (s.handOver e.no sent).handed e.no = rest o
      rw [handOver_handed_self, ← heq, ← hbytes, hrest]
  · intro e' he'
    obtain ⟨o, ho, hbytes, hne⟩ := hold.pending e' (hqueue ▸ List.mem_cons_of_mem _ he')
    refine ⟨o, ho, ?_, hne⟩
    rw [← hbytes]
    exact congrArg (· ++ _) (handOver_handed_of_ne sent (hothers e' he'))

/-- `Write()`, behind a system call that conserves the bytes. -/
theorem Delivers.writeStep {caller : Caller} {next : WriteStep Out} (h : s.Delivers rest)
    (hc : s.control = .write caller) (hqueue : s.queue = e :: es)
    (hnext : next.Conserves rest e.out) : (s.writeStep caller e.no es next).Delivers rest := by
  have hlive : s.control ≠ .removed := by
    rw [hc]
    exact fun heq ↦ nomatch heq
  have hstill : ∀ {t : Session Out}, t.control = s.control → t.control ≠ .removed :=
    fun heq ↦ heq ▸ hlive
  cases next with
  | goesOn sent out => exact h.kept hlive hqueue hnext.1 hnext.2
  | returns sent out value =>
      unfold Session.writeStep
      dsimp only
      split_ifs with htwo hvalue hes
      · have hkept := hnext.2 (by rw [htwo]; decide)
        exact (h.kept hlive hqueue hkept.1 hkept.2).of_same (sameOutput_writeReturned _ _ _)
          (hstill rfl)
      · have hkept := hnext.2 hvalue
        have hbefore :
            { s.handOver e.no sent with
              queue := ⟨e.no, out⟩ :: es, writeError := true }.Delivers rest :=
          (h.kept hlive hqueue hkept.1 hkept.2).of_same ⟨rfl, rfl, rfl, rfl, rfl⟩ (hstill rfl)
        exact hbefore.of_same (sameOutput_writeReturned _ _ _) (hstill rfl)
      · exact (h.popped hlive hqueue (hnext.1 (not_not.mp hvalue))).of_same
          (sameOutput_writeFinished _ _) (hstill rfl)
      · exact h.popped hlive hqueue (hnext.1 (not_not.mp hvalue))
  | ends => exact h.of_same ⟨rfl, rfl, rfl, rfl, rfl⟩ hlive

end Write

/-! ## The end of a connection -/

theorem Delivers.reset (h : s.Delivers rest) (threadPool : Bool) :
    (s.reset threadPool).Delivers rest :=
  ⟨h.accepted, h.count, h.freed, h.numbers, h.unhanded, fun hlive ↦ absurd rfl hlive⟩

/-- `Cleanup()` frees what is left in the queue. -/
theorem Delivers.cleanUp (h : s.Delivers rest) (threadPool : Bool) :
    (s.cleanUp.reset threadPool).Delivers rest := by
  have hlength : (s.freed ++ s.queue.map Entry.no).length = s.freed.length + s.queue.length := by
    rw [List.length_append, List.length_map]
  refine ⟨h.accepted, ?_, ?_, rfl, h.unhanded, fun hlive ↦ absurd rfl hlive⟩
  · show s.queued.length = (s.freed ++ s.queue.map Entry.no).length + 0
    rw [hlength, h.count]
    rfl
  · show s.freed ++ s.queue.map Entry.no = List.range (s.freed ++ s.queue.map Entry.no).length
    rw [hlength, h.numbers, List.range_eq_range', ← List.range'_append_1, ← List.range_eq_range',
      ← h.freed, Nat.zero_add]

/-- **A step that conserves the bytes keeps the account.** -/
theorem Delivers.stepped {ok : Out → Result → Prop} (hwriter : cfg.writer.Conserves rest ok)
    (h : s.Delivers rest)
    (hwrite : ∀ r e es, a = .write r → s.queue = e :: es → ok e.out r)
    (hs : Stepped cfg s a s') : s'.Delivers rest := by
  have hlive : s.control ≠ .removed := hs.not_removed
  have hsame : s.SameOutput s' → s'.Delivers rest := fun hsame ↦ h.of_same hsame hlive
  cases hs with
  | event d _ => exact hsame ⟨rfl, rfl, rfl, rfl, rfl⟩
  | service _ => exact hsame ⟨rfl, rfl, rfl, rfl, rfl⟩
  | skip d removeMe _ _ => exact hsame ⟨rfl, rfl, rfl, rfl, rfl⟩
  | callSetup removeMe _ _ _ => exact hsame ⟨rfl, rfl, rfl, rfl, rfl⟩
  | callRead removeMe _ _ _ => exact hsame ⟨rfl, rfl, rfl, rfl, rfl⟩
  | callWrite removeMe _ _ => exact hsame ⟨rfl, rfl, rfl, rfl, rfl⟩
  | check removeMe _ => exact hsame ⟨rfl, rfl, rfl, rfl, rfl⟩
  | done removeMe _ => exact hsame ⟨rfl, rfl, rfl, rfl, rfl⟩
  | setUp ok' _ => exact hsame (sameOutput_setUp s cfg ok')
  | read _ _ => exact hsame (sameOutput_readStep s _ _ _)
  | terminate value _ => exact hsame ⟨rfl, rfl, rfl, rfl, rfl⟩
  | send call hcaller =>
      exact (h.push hlive _).of_same (sameOutput_send s _ _) hlive
  | write hc hqueue hnext =>
      exact h.writeStep hc hqueue (hwriter (hwrite _ _ _ rfl hqueue) hnext)
  | returns value _ => exact hsame (sameOutput_sessionReturned s value)
  | cleanup _ _ => exact hsame ⟨rfl, rfl, rfl, rfl, rfl⟩
  | remove _ _ => exact h.reset _
  | cleanedUp _ => exact h.cleanUp _

/-- Only sends queue. -/
theorem queued_of_stepped (hs : Stepped cfg s a s') :
    s'.queued = s.queued ∨
      ∃ call, a = .send call ∧ s'.queued = s.queued ++ [cfg.writer.entry call] := by
  cases hs with
  | setUp ok _ => exact .inl (sameOutput_setUp s cfg ok).queued
  | read _ _ => exact .inl (sameOutput_readStep s _ _ _).queued
  | returns value _ => exact .inl (sameOutput_sessionReturned s value).queued
  | send call _ => exact .inr ⟨call, rfl, (sameOutput_send s _ _).queued⟩
  | write _ _ _ =>
      rename_i caller e es r next _ _ _
      left
      cases next with
      | returns sent out value =>
          unfold writeStep
          dsimp only
          split_ifs
          · exact (sameOutput_writeReturned _ _ _).queued
          · exact (sameOutput_writeReturned _ _ _).queued
          · exact (sameOutput_writeFinished _ _).queued
          · rfl
      | _ => rfl
  | _ => exact .inl rfl

/-- An entry of the queue was there before, or it was sent, or written. -/
theorem mem_queue_of_stepped (hs : Stepped cfg s a s') {e' : Entry Out} (he' : e' ∈ s'.queue) :
    e' ∈ s.queue ∨ (∃ call, a = .send call ∧ e'.out = cfg.writer.entry call) ∨
      ∃ e es r next, a = .write r ∧ s.queue = e :: es ∧ cfg.writer.write e.out r = some next ∧
        next.left = some e'.out := by
  cases hs with
  | setUp ok _ => exact .inl ((sameOutput_setUp s cfg ok).queue ▸ he')
  | read _ _ => exact .inl ((sameOutput_readStep s _ _ _).queue ▸ he')
  | returns value _ => exact .inl ((sameOutput_sessionReturned s value).queue ▸ he')
  | send call _ =>
      rw [(sameOutput_send s _ _).queue] at he'
      rcases List.mem_append.mp he' with he' | he'
      · exact .inl he'
      · cases List.mem_singleton.mp he'
        exact .inr (.inl ⟨call, rfl, rfl⟩)
  | cleanedUp _ => exact nomatch he'
  | write _ hqueue hnext =>
      rename_i caller e es r next _
      have hnew : e' ∈ es → e' ∈ s.queue := fun he ↦ hqueue ▸ List.mem_cons_of_mem _ he
      have hhead : ∀ {out : Out}, next.left = some out → e' ∈ ⟨e.no, out⟩ :: es →
          e' ∈ s.queue ∨ (∃ call, (.write r : Action Call Result) = .send call ∧
            e'.out = cfg.writer.entry call) ∨ ∃ e₀ es₀ r₀ n, (.write r : Action Call Result) =
              .write r₀ ∧ s.queue = e₀ :: es₀ ∧ cfg.writer.write e₀.out r₀ = some n ∧
                n.left = some e'.out := by
        intro out hleft he
        rcases List.mem_cons.mp he with rfl | he
        · exact .inr (.inr ⟨e, es, r, next, rfl, hqueue, hnext, hleft⟩)
        · exact .inl (hnew he)
      cases next with
      | goesOn sent out => exact hhead rfl he'
      | returns sent out value =>
          unfold writeStep at he'
          dsimp only at he'
          split_ifs at he' with htwo hvalue hempty
          · rw [(sameOutput_writeReturned _ _ _).queue] at he'
            exact hhead (if_neg (by omega)) he'
          · rw [(sameOutput_writeReturned _ _ _).queue] at he'
            exact hhead (if_neg hvalue) he'
          · rw [(sameOutput_writeFinished _ _).queue] at he'
            exact .inl (hnew he')
          · exact .inl (hnew he')
      | ends => exact .inl he'
  | _ => exact .inl he'

/-- An entry that was not freed is in the queue. -/
theorem Delivers.mem_queue (h : s.Delivers rest) {i : ℕ} {o : Out} (hi : s.queued[i]? = some o)
    (hfreed : i ∉ s.freed) : ∃ e ∈ s.queue, e.no = i := by
  rw [h.freed, List.mem_range] at hfreed
  refine List.mem_map.mp ?_
  rw [h.numbers, List.mem_range'_1, ← h.count]
  exact ⟨Nat.not_lt.mp hfreed, (List.getElem?_eq_some_iff.mp hi).1⟩

/-- Every byte of an entry that was freed was handed over. -/
theorem Delivers.handed_freed (h : s.Delivers rest) (hlive : s.control ≠ .removed) {i : ℕ} {o : Out}
    (hi : s.queued[i]? = some o) (hfreed : i ∈ s.freed) : s.handed i = rest o := by
  rw [h.freed, List.mem_range] at hfreed
  exact (h.live hlive).handed i hfreed o hi

/-- The entries that were freed are those whose bytes were all handed over. -/
theorem Delivers.mem_freed (h : s.Delivers rest) (hlive : s.control ≠ .removed) {i : ℕ} {o : Out}
    (hi : s.queued[i]? = some o) (hne : rest o ≠ []) : i ∈ s.freed ↔ s.handed i = rest o := by
  refine ⟨h.handed_freed hlive hi, fun hall ↦ Decidable.byContradiction fun hfreed ↦ ?_⟩
  obtain ⟨e, he, rfl⟩ := h.mem_queue hi hfreed
  obtain ⟨o', ho', hbytes, hleft⟩ := (h.live hlive).pending e he
  cases Option.some.inj (ho'.symm.trans hi)
  rw [hall] at hbytes
  exact hleft hne (List.append_right_eq_self.mp hbytes)

/-- What was handed over for an entry is a beginning of it. -/
theorem Delivers.handed_prefix (h : s.Delivers rest) (hlive : s.control ≠ .removed) {i : ℕ}
    {o : Out} (hi : s.queued[i]? = some o) : s.handed i <+: rest o := by
  by_cases hfreed : i ∈ s.freed
  · exact h.handed_freed hlive hi hfreed ▸ List.prefix_refl _
  · obtain ⟨e, he, rfl⟩ := h.mem_queue hi hfreed
    obtain ⟨o', ho', hbytes, -⟩ := (h.live hlive).pending e he
    cases Option.some.inj (ho'.symm.trans hi)
    exact ⟨_, hbytes⟩

end Session

end Tidbits.Service
