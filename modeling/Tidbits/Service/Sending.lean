import Tidbits.Service.Closing
import Tidbits.Service.Delivery

/-!
# The output of a session, over plain TCP and over TLS

Over plain TCP the bytes arrive at the socket in the order they were queued,
whatever `write()` does, and each buffer is freed when its last byte is accepted
(`outputInOrder_of_reach`).  Over TLS a count of `gnutls_record_send()` that is
less than what was asked for loses the rest of the buffer, and every other one
does not (`buffersSent_of_reach`).
-/

namespace Tidbits.Service

open Server Transition

variable {l : Limits} {fd : ℤ} {acceptTime : Time} {acceptNo : ℕ}

/-- The output of a session. -/
structure Session.OutputInOrder (s : Session OutBuffer) : Prop where
  /-- The accepted bytes are a beginning of the buffers in the order they were queued. -/
  accepted : s.accepted <+: s.queued.flatMap OutBuffer.buffer
  /-- No buffer is freed twice. -/
  freed_nodup : s.freed.Nodup
  /-- A buffer is freed when its last byte was accepted, -/
  freed : s.control ≠ .removed → ∀ i b, s.queued[i]? = some b →
    (i ∈ s.freed ↔ s.handed i = b.buffer)
  /-- or at the cleanup. -/
  cleanedUp : s.control = .removed → ∀ i < s.queued.length, i ∈ s.freed
  /-- Between callbacks `Write()` is installed if and only if the queue is not empty. -/
  installed : s.control = .idle → (s.conn.callback .write = some writeCallback ↔ s.queue ≠ [])
  /-- After `POSERVICE_CLOSE` the service has asked for the close if and only if the queue is
  empty. -/
  asked : s.closed = true → s.writeError = false → s.control.Serving →
    (s.asked = true ↔ s.queue = [])

namespace Session

section Runs

variable {Call Out Result : Type} {cfg : Config Call Out Result} {s t : Session Out}
  {ok : Session Out → Action Call Result → Prop}

theorem closes_of_reach (h : Reach (step cfg) ok (start Out fd acceptTime acceptNo) s) :
    s.Closes :=
  h.invariant_of wired_of_reach (closes_start fd acceptTime acceptNo)
    fun hw hc _ hs ↦ hc.stepped hw (stepped_of_step hs)

theorem owned_of_reach (h : Reach (step cfg) ok (start Out fd acceptTime acceptNo) s) : s.Owned :=
  h.invariant_of wired_of_reach (owned_start fd acceptTime acceptNo)
    fun hw ho _ hs ↦ ho.stepped hw (stepped_of_step hs)

/-- **After `POSERVICE_CLOSE` the session callback is not called again.** -/
theorem not_session_of_closed (h : Reach (step cfg) ok (start Out fd acceptTime acceptNo) s)
    (hclosed : s.closed = true) (ht : Reach (step cfg) ok s t) : t.control ≠ .session := by
  have hclosed' : t.closed = true :=
    ht.invariant hclosed fun hc _ hs ↦ closed_of_stepped hc (stepped_of_step hs)
  intro hc
  have hquiet := ((closes_of_reach (h.trans ht)).silent hclosed').2
  rw [hc] at hquiet
  exact hquiet

/-- What holds of every entry that the sends of a run make holds of what was queued. -/
theorem forall_queued {P : Out → Prop}
    (h : Reach (step cfg) ok (start Out fd acceptTime acceptNo) s)
    (hP : ∀ {s : Session Out} {call : Call}, ok s (.send call) → P (cfg.writer.entry call)) :
    ∀ o ∈ s.queued, P o := by
  refine h.invariant (I := fun s ↦ ∀ o ∈ s.queued, P o) (fun _ ho ↦ nomatch ho) ?_
  intro t u a hI hok hs
  rcases queued_of_stepped (stepped_of_step hs) with heq | ⟨call, rfl, heq⟩
  · rw [heq]
    exact hI
  · intro o ho
    rw [heq] at ho
    rcases List.mem_append.mp ho with ho | ho
    · exact hI o ho
    · rw [List.mem_singleton.mp ho]
      exact hP hok

end Runs

variable {s t : Session OutBuffer} {a : Action SendCall SendResult}

/-- What a call queues starts at its first byte. -/
theorem rest_eq_buffer {chunkLen : ℕ} {call : SendCall} :
    (call.entry chunkLen).rest = (call.entry chunkLen).buffer := by cases call <;> rfl

end Session

/-- The data of a send is not empty. -/
def SendsData (_ : Session OutBuffer) (a : Action SendCall SendResult) : Prop :=
  match a with
  | .send call => call.data ≠ []
  | _ => True

instance (s : Session OutBuffer) (a : Action SendCall SendResult) : Decidable (SendsData s a) := by
  unfold SendsData
  split <;> infer_instance

/-- A count of `gnutls_record_send()` is that of all the bytes it was asked for. -/
def SendsAll (s : Session OutBuffer) (a : Action SendCall SendResult) : Prop :=
  match a, s.queue with
  | .write r, e :: _ => TakesAll e.out r
  | _, _ => True

instance (s : Session OutBuffer) (a : Action SendCall SendResult) : Decidable (SendsAll s a) := by
  unfold SendsAll
  split <;> infer_instance

namespace Session

variable {s s' : Session OutBuffer} {a : Action SendCall SendResult}

theorem flatMap_rest_eq (h : ∀ b ∈ s.queued, b.rest = b.buffer) :
    s.queued.flatMap OutBuffer.rest = s.queued.flatMap OutBuffer.buffer :=
  List.flatMap_congr h

/-! ## Plain TCP -/

theorem delivers_of_reach
    (h : Reach (step l.tcp) SendsData (start OutBuffer fd acceptTime acceptNo) s) :
    s.Delivers OutBuffer.rest :=
  h.invariant (delivers_start fd acceptTime acceptNo) fun hd _ hs ↦
    hd.stepped tcpBuffers_conserves (fun _ _ _ _ _ ↦ trivial) (stepped_of_step hs)

/-- **Plain TCP sends every byte in order**, and the session ends when it has sent them, for all
sends of non-empty data and all that `write()` does. -/
theorem outputInOrder_of_reach
    (h : Reach (step l.tcp) SendsData (start OutBuffer fd acceptTime acceptNo) s) :
    s.OutputInOrder ∧
      (s.closed = true → ∀ t, Reach (step l.tcp) SendsData s t → t.control ≠ .session) := by
  have hdelivers := delivers_of_reach h
  have hwired := wired_of_reach h
  have hbuffer : ∀ b ∈ s.queued, b.rest = b.buffer :=
    forall_queued (P := fun b ↦ b.rest = b.buffer) h fun _ ↦ rest_eq_buffer
  have hne : ∀ b ∈ s.queued, b.rest ≠ [] :=
    forall_queued (P := fun b ↦ b.rest ≠ []) h fun hdata ↦ by
      rw [SendCall.rest_entry]
      exact hdata
  refine ⟨⟨?_, ?_, fun hlive i b hi ↦ ?_, fun hremoved i hi ↦ ?_, fun hc ↦ ?_, ?_⟩,
    fun hclosed t ht ↦ not_session_of_closed h hclosed ht⟩
  · rw [← flatMap_rest_eq hbuffer]
    exact hdelivers.accepted
  · rw [hdelivers.freed]
    exact List.nodup_range
  · have hmem : b ∈ s.queued := List.mem_of_getElem? hi
    rw [← hbuffer b hmem]
    exact hdelivers.mem_freed hlive hi (hne b hmem)
  · rw [hdelivers.freed, List.mem_range]
    have hcount := hdelivers.count
    rw [(owned_of_reach h).removed hremoved] at hcount
    exact Nat.lt_of_lt_of_eq hi hcount
  · exact (hwired.linked (by rw [hc]; trivial)).installed
  · exact (closes_of_reach h).exact

/-- A session callback is called for one byte and sends three. -/
abbrev answers : List (Action SendCall SendResult) :=
  [.event .read, .event .write, .service, .go, .setUp true, .read (.count [65]),
    .send (.send [1, 2, 3])]

/-- The smallest limits. -/
abbrev smallest : Limits := ⟨2, 2, true, Nat.one_lt_two, Nat.one_lt_two⟩

/-- After a partial `write()` and `POSERVICE_CLOSE`, the second `write()` ends the session. -/
theorem outputInOrder_of_answered :
    ∃ s, Reach (step smallest.tcp) SendsData (start OutBuffer 5 0 0) s ∧
      (s.accepted = [1, 2, 3] ∧ s.freed = [0] ∧ s.closed = true ∧ s.asked = true) ∧
      s.OutputInOrder ∧
      (s.closed = true → ∀ t, Reach (step smallest.tcp) SendsData s t → t.control ≠ .session) := by
  obtain ⟨s, hreach, hs⟩ :
      ∃ s, Reach (step smallest.tcp) SendsData (start OutBuffer 5 0 0) s ∧
        (s.accepted = [1, 2, 3] ∧ s.freed = [0] ∧ s.closed = true ∧ s.asked = true) :=
    exists_reach_of_exec_decide
      (answers ++ [.write (.count 2), .returns .close, .go, .write .interrupted, .write (.count 1)])
      (by decide)
  exact ⟨s, hreach, hs, outputInOrder_of_reach hreach⟩

/-! ## TLS -/

/-- Buffers are freed when their last byte was handed over, and their bytes are handed over in
order. -/
structure BuffersSent (s : Session OutBuffer) : Prop where
  freed : ∀ i ∈ s.freed, ∀ b, s.queued[i]? = some b → s.handed i = b.buffer
  handed : ∀ i b, s.queued[i]? = some b → s.handed i <+: b.buffer

theorem delivers_of_reach_overTls
    (h : Reach (step l.overTls) SendsAll (start OutBuffer fd acceptTime acceptNo) s) :
    s.Delivers OutBuffer.rest := by
  refine h.invariant (delivers_start fd acceptTime acceptNo) fun hd hok hs ↦ ?_
  refine hd.stepped tlsBuffers_conserves (fun r e es ha hqueue ↦ ?_) (stepped_of_step hs)
  subst ha
  simpa [SendsAll, hqueue] using hok

/-- What `Write()` leaves when the first entry is finished. -/
theorem writeStep_finished {caller : Caller} (no : ℕ) (es : List (Entry OutBuffer))
    (sent : List UInt8) (b : OutBuffer) (hc : s.control = .write caller) :
    ((s.handOver no sent).pop no es).SameOutput
        (s.writeStep caller no es (.returns sent b 0)) ∧
      (s.writeStep caller no es (.returns sent b 0)).control ≠ .removed := by
  simp only [Session.writeStep]
  split_ifs with htwo hvalue hes
  · cases htwo
  · exact absurd rfl hvalue
  · refine ⟨sameOutput_writeFinished _ _, ?_⟩
    cases caller <;> exact fun heq ↦ nomatch heq
  · refine ⟨sameOutput_refl _, fun heq ↦ ?_⟩
    exact nomatch hc.symm.trans heq

/-- A count that is less than what was asked for frees the buffer too early. -/
theorem not_buffersSent_of_short (hdelivers : s.Delivers OutBuffer.rest)
    (hbuffer : ∀ b ∈ s.queued, b.rest = b.buffer) (hshort : ¬ SendsAll s a)
    (hs : step l.overTls s a = some s') : s'.control ≠ .removed ∧ ¬ s'.BuffersSent := by
  cases stepped_of_step hs with
  | write hc hqueue hnext =>
      rename_i caller e es r next
      have hshort' : ¬ TakesAll e.out r := by simpa [SendsAll, hqueue] using hshort
      obtain ⟨n, hn⟩ := not_forall.mp hshort'
      simp only [Classical.not_imp] at hn
      obtain ⟨rfl, hpos, hne⟩ := hn
      have hlt : n < e.out.len - e.out.index := by
        simp only [tlsWriteBuffer] at hnext
        split_ifs at hnext with hle
        exact Nat.lt_of_le_of_ne hle hne
      obtain ⟨hfinished, hfewer⟩ := tlsWriteBuffer_short hpos hlt
      cases Option.some.inj (hnext.symm.trans hfinished)
      obtain ⟨hsame, hlive'⟩ := writeStep_finished e.no es (e.out.rest.take n) e.out hc
      refine ⟨hlive', fun hsent ↦ hfewer ?_⟩
      have hlive : s.control ≠ .removed := by
        rw [hc]
        exact fun heq ↦ by cases heq
      obtain ⟨b, hb, hbytes, -⟩ := (hdelivers.live hlive).pending e (hqueue ▸ List.mem_cons_self)
      have hall := hsent.freed e.no
        (by rw [hsame.freed]; exact List.mem_append_right _ (List.mem_singleton_self _)) b
        (by rw [hsame.queued]; exact hb)
      rw [hsame.handed, ← hbuffer b (List.mem_of_getElem? hb), ← hbytes] at hall
      exact List.append_cancel_left ((handOver_handed_self e.no _).symm.trans hall)
  | _ => exact absurd trivial hshort

/-- **TLS sends every byte of the buffers it frees**, as long as every count of
`gnutls_record_send()` is that of all the bytes it was asked for.  The first one that is not
frees a buffer whose bytes were not all handed over. -/
theorem buffersSent_of_reach
    (h : Reach (step l.overTls) SendsAll (start OutBuffer fd acceptTime acceptNo) s) :
    (s.control ≠ .removed → s.BuffersSent) ∧
      ∀ a s', ¬ SendsAll s a → step l.overTls s a = some s' →
        s'.control ≠ .removed ∧ ¬ s'.BuffersSent := by
  have hdelivers := delivers_of_reach_overTls h
  have hbuffer : ∀ b ∈ s.queued, b.rest = b.buffer :=
    forall_queued (P := fun b ↦ b.rest = b.buffer) h fun _ ↦ rest_eq_buffer
  refine ⟨fun hlive ↦ ⟨fun i hfreed b hi ↦ ?_, fun i b hi ↦ ?_⟩, fun a s' hshort hs ↦ ?_⟩
  · rw [← hbuffer b (List.mem_of_getElem? hi)]
    exact hdelivers.handed_freed hlive hi hfreed
  · rw [← hbuffer b (List.mem_of_getElem? hi)]
    exact hdelivers.handed_prefix hlive hi
  · exact not_buffersSent_of_short hdelivers hbuffer hshort hs

/-- `gnutls_record_send()` takes all three bytes. -/
theorem buffersSent_of_answered :
    ∃ s, Reach (step smallest.overTls) SendsAll (start OutBuffer 5 0 0) s ∧
      (s.queued = [⟨[1, 2, 3], 0⟩] ∧ s.freed = [0] ∧ s.handed 0 = [1, 2, 3]) ∧
      (s.control ≠ .removed → s.BuffersSent) ∧
      ∀ a s', ¬ SendsAll s a → step smallest.overTls s a = some s' →
        s'.control ≠ .removed ∧ ¬ s'.BuffersSent := by
  obtain ⟨s, hreach, hs⟩ :
      ∃ s, Reach (step smallest.overTls) SendsAll (start OutBuffer 5 0 0) s ∧
        (s.queued = [⟨[1, 2, 3], 0⟩] ∧ s.freed = [0] ∧ s.handed 0 = [1, 2, 3]) :=
    exists_reach_of_exec_decide (answers ++ [.write .again, .returns .wait, .go, .write (.count 3)])
      (by decide)
  exact ⟨s, hreach, hs, buffersSent_of_reach hreach⟩

/-- When `gnutls_record_send()` takes one byte of three, the buffer is freed with the other two. -/
theorem not_buffersSent_of_partial :
    ∃ s, Reach (step smallest.overTls) Any (start OutBuffer 5 0 0) s ∧
      (s.control = .session ∧ s.queued = [⟨[1, 2, 3], 0⟩] ∧ s.freed = [0] ∧ s.handed 0 = [1]) ∧
      ¬ s.BuffersSent := by
  obtain ⟨s, hreach, hs⟩ :
      ∃ s, Reach (step smallest.overTls) Any (start OutBuffer 5 0 0) s ∧
        (s.control = .session ∧ s.queued = [⟨[1, 2, 3], 0⟩] ∧ s.freed = [0] ∧
          s.handed 0 = [1]) :=
    exists_reach_of_exec_decide (answers ++ [.write (.count 1)]) (by decide)
  refine ⟨s, hreach, hs, fun hsent ↦ ?_⟩
  obtain ⟨-, hqueued, hfreed, hhanded⟩ := hs
  have hall := hsent.freed 0 (by rw [hfreed]; exact List.mem_singleton_self 0) ⟨[1, 2, 3], 0⟩
    (by rw [hqueued]; rfl)
  rw [hhanded] at hall
  exact nomatch hall

end Session

end Tidbits.Service
