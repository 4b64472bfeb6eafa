import Tidbits.Potato.Handoff
import Tidbits.Sequence.Frames
import Mathlib.Algebra.Order.BigOperators.Group.List
import Mathlib.Data.List.Forall2

/-!
# What is handed off arrives

The stream of a hand-off is the number of the listeners followed by frames of one
length, an address and the byte with the descriptor.  What the new process has
taken is a beginning of it, and how long that is says what the new process is
reading; so the table it builds does not depend on how the stream is cut
(`roundTrip_of_reach`).
-/

namespace Tidbits.Potato

open Transition Sequence

/-! ## The wire format -/

theorem uint32OfBytes_uint32Bytes {n : ℕ} (hn : n < 2 ^ 32) :
    uint32OfBytes (uint32Bytes n) = n := by
  simp only [uint32Bytes, uint32OfBytes, UInt8.toNat_ofNat']
  omega

theorem Sockaddr.ofList_toList (addr : Sockaddr) : ofList addr.toList = addr := by
  obtain ⟨bytes⟩ := addr
  refine congrArg Sockaddr.mk (Vector.ext fun i hi ↦ ?_)
  simp [toList]

@[simp] theorem Sockaddr.length_toList (addr : Sockaddr) : addr.toList.length = 16 := by
  rw [toList, Vector.length_toList]

@[simp] theorem length_plain (bytes : List UInt8) : (plain bytes).length = bytes.length :=
  List.length_map _

@[simp] theorem map_byte_plain (bytes : List UInt8) : (plain bytes).map Item.byte = bytes := by
  rw [plain, List.map_map]
  exact List.map_id _

theorem plain_append (bytes bytes' : List UInt8) :
    plain (bytes ++ bytes') = plain bytes ++ plain bytes' := List.map_append

theorem plain_take_append_drop (n : ℕ) (bytes : List UInt8) :
    plain (bytes.take n) ++ plain (bytes.drop n) = plain bytes := by
  rw [← plain_append, List.take_append_drop]

namespace POServer

/-- The listeners in the order in which they are sent. -/
def sent (s : POServer) : List Listener := (s.listener.take (s.lastIndex + 1).toNat).reverse

theorem lastIndex_lt (s : POServer) : s.lastIndex < s.numListeners := by
  rw [lastIndex, Int.bmod_def]
  omega

theorem sent_of_neg {s : POServer} (h : ¬ 0 ≤ s.lastIndex) : s.sent = [] := by
  have hzero : (s.lastIndex + 1).toNat = 0 := by omega
  rw [sent, hzero, List.take_zero, List.reverse_nil]

theorem sent_sublist (s : POServer) : s.sent.Sublist s.listener.reverse :=
  (List.take_sublist _ _).reverse

end POServer

namespace Handoff

variable {h : Handoff}

/-- What is written for a listener. -/
def frame (h : Handoff) (l : Listener) : List Item := plain l.addr.toList ++ [h.fdItem l]

/-- What is written for listeners. -/
def frames (h : Handoff) (ls : List Listener) : List Item := ls.flatMap h.frame

theorem length_frame (l : Listener) : (h.frame l).length = 17 := by
  rw [frame, List.length_append, length_plain, Sockaddr.length_toList]
  rfl

/-- The listeners in the order in which they are sent. -/
def sent (h : Handoff) : List Listener := h.servers.flatMap POServer.sent

/-- The stream, without the character. -/
def wire (h : Handoff) : List Item := plain (uint32Bytes h.count) ++ h.frames h.sent

theorem length_wire : h.wire.length = 4 + 17 * h.sent.length := by
  rw [wire, List.length_append, length_plain, frames, length_frames fun l ↦ h.length_frame l]
  rfl

end Handoff

/-! ## Sending -/

/-- What is left to write. -/
def SendPoint.rest (h : Handoff) : SendPoint → List Item
  | .count bytes => plain bytes ++ h.frames h.sent
  | .addr s l i servers bytes =>
      plain bytes ++ h.fdItem l ::
        h.frames ((s.listener.take i).reverse ++ servers.flatMap POServer.sent)
  | .fd s l i servers =>
      h.fdItem l :: h.frames ((s.listener.take i).reverse ++ servers.flatMap POServer.sent)
  | .sent | .waiting | .done | .failed => []

section Sending

variable {h : Handoff} {s : POServer} {i : ℕ} {servers : List POServer}

theorem rest_listenerPoint (hi : i < s.numListeners) :
    (listenerPoint s i servers).rest h =
      h.frames ((s.listener.take (i + 1)).reverse ++ servers.flatMap POServer.sent) := by
  have hget : s.listener[i]? = some s.listener[i] := List.getElem?_eq_getElem hi
  rw [listenerPoint, hget, List.take_succ_eq_append_getElem hi, List.reverse_append]
  rw [SendPoint.rest, Handoff.frames, Handoff.frames, List.reverse_singleton,
    List.singleton_append, List.cons_append, List.flatMap_cons, Handoff.frame, List.append_assoc]
  rfl

theorem rest_nextServer : (nextServer servers).rest h =
    h.frames (servers.flatMap POServer.sent) := by
  induction servers with
  | nil => rfl
  | cons s servers ih =>
      rw [nextServer, List.flatMap_cons]
      split_ifs with hindex
      · have hlt := s.lastIndex_lt
        rw [rest_listenerPoint (by omega), POServer.sent]
        have hsucc : s.lastIndex.toNat + 1 = (s.lastIndex + 1).toNat := by omega
        rw [hsucc]
      · rw [ih, POServer.sent_of_neg hindex, List.nil_append]

theorem rest_nextListener (hi : i ≤ s.numListeners) : (nextListener s i servers).rest h =
    h.frames ((s.listener.take i).reverse ++ servers.flatMap POServer.sent) := by
  rw [nextListener]
  split_ifs with hzero
  · rw [rest_nextServer, hzero, List.take_zero]
    rfl
  · rw [rest_listenerPoint (by omega), Nat.sub_one_add_one hzero]

end Sending

/-! ## Moves -/

/-- What the old process does, and what it writes. -/
inductive Sends (h : Handoff) : SendPoint → List Item → SendPoint → Prop
  | count {bytes : List UInt8} {n : ℕ} :
      Sends h (.count bytes) (plain (bytes.take n)) (.count (bytes.drop n))
  | counted {bytes : List UInt8} : Sends h (.count bytes) (plain bytes) (nextServer h.servers)
  | addr {s : POServer} {l : Listener} {i : ℕ} {servers : List POServer} {bytes : List UInt8}
      {n : ℕ} :
      Sends h (.addr s l i servers bytes) (plain (bytes.take n))
        (.addr s l i servers (bytes.drop n))
  | addressed {s : POServer} {l : Listener} {i : ℕ} {servers : List POServer}
      {bytes : List UInt8} :
      Sends h (.addr s l i servers bytes) (plain bytes) (.fd s l i servers)
  | fd {s : POServer} {l : Listener} {i : ℕ} {servers : List POServer} :
      Sends h (.fd s l i servers) [h.fdItem l] (nextListener s i servers)
  | handedOff : Sends h .sent [] .waiting
  | closed : Sends h .sent [] .done
  | continue : Sends h .waiting (plain [endChar]) .done
  | fails {p : SendPoint} : p ≠ .done → Sends h p [] .failed

/-- What the new process does, and what it takes. -/
inductive Takes (h : Handoff) (r : Receiver) : List Item → Receiver → Prop
  | read {items : List Item} :
      0 < items.length → items.length ≤ r.wants → Takes h r items (r.read h items)
  | readFails : Takes h r [] r.readFails
  | recvmsg {i : ℕ} {item : Item} {socket : Socket} {fd : ℤ} :
      r.point = .fd i → item.socket = some socket → r.files fd = none →
        Takes h r [item] (r.receive h i item socket fd)
  | fails {items : List Item} :
      Takes h r items { r with point := .failed, taken := r.taken ++ items }

/-- A step is one of the old process or one of the new process. -/
theorem moves_of_step {h : Handoff} {t t' : System} {a : HandoffAction}
    (hs : h.step t a = some t') :
    (∃ items, Sends h t.sender items t'.sender ∧ t'.stream = t.stream ++ items ∧
        t'.receiver = t.receiver) ∨
      ∃ items, Takes h t.receiver items t'.receiver ∧ t.stream = items ++ t'.stream ∧
        t'.sender = t.sender := by
  obtain ⟨sender, stream, closed, receiver⟩ := t
  cases a with
  | write n =>
      left
      cases sender with
      | count rest =>
          simp only [Handoff.step] at hs
          split_ifs at hs with hn hlt <;> cases hs
          · exact ⟨_, .count, rfl, rfl⟩
          · have hall : rest.take n = rest := List.take_of_length_le (Nat.not_lt.mp hlt)
            exact ⟨_, .counted, by rw [hall], rfl⟩
      | addr s l i servers rest =>
          simp only [Handoff.step] at hs
          split_ifs at hs with hn hlt <;> cases hs
          · exact ⟨_, .addr, rfl, rfl⟩
          · have hall : rest.take n = rest := List.take_of_length_le (Nat.not_lt.mp hlt)
            exact ⟨_, .addressed, by rw [hall], rfl⟩
      | _ => cases hs
  | writeFails =>
      left
      cases sender <;> cases hs <;>
        exact ⟨[], .fails fun heq ↦ (nomatch heq), (List.append_nil _).symm, rfl⟩
  | sendmsg =>
      left
      cases sender with
      | fd s l i servers =>
          simp only [Handoff.step] at hs
          split_ifs at hs <;> cases hs
          · exact ⟨_, .fd, rfl, rfl⟩
          · exact ⟨[], .fails fun heq ↦ (nomatch heq), (List.append_nil _).symm, rfl⟩
      | _ => cases hs
  | handedOff =>
      left
      simp only [Handoff.step] at hs
      split_ifs at hs with hsent hreplace <;> cases hs <;> cases hsent
      · exact ⟨[], .handedOff, (List.append_nil _).symm, rfl⟩
      · exact ⟨[], .closed, (List.append_nil _).symm, rfl⟩
  | «continue» =>
      left
      simp only [Handoff.step] at hs
      split_ifs at hs with hwaiting
      cases hs
      cases hwaiting
      exact ⟨_, .continue, rfl, rfl⟩
  | exit =>
      left
      simp only [Handoff.step] at hs
      split_ifs at hs with hwaiting
      cases hs
      cases hwaiting
      exact ⟨[], .fails fun heq ↦ (nomatch heq), (List.append_nil _).symm, rfl⟩
  | read n =>
      right
      simp only [Handoff.step] at hs
      split_ifs at hs with hn
      cases hs
      have hlength : (stream.take n).length = n := List.length_take_of_le hn.2.2
      exact ⟨stream.take n, .read (hlength.symm ▸ hn.1) (hlength.symm ▸ hn.2.1),
        (List.take_append_drop n stream).symm, rfl⟩
  | readFails =>
      right
      simp only [Handoff.step] at hs
      split_ifs at hs
      cases hs
      exact ⟨[], .readFails, rfl, rfl⟩
  | recvmsg fd =>
      right
      simp only [Handoff.step] at hs
      split at hs
      · rename_i i item rest hpoint
        split at hs
        · rename_i socket hsocket
          split_ifs at hs with hfd
          cases hs
          exact ⟨[item], .recvmsg hpoint hsocket hfd.2, rfl, rfl⟩
        · cases hs
          exact ⟨[item], .fails, rfl, rfl⟩
      · cases hs
  | recvmsgFails =>
      right
      simp only [Handoff.step] at hs
      split at hs
      · cases hs
        refine ⟨[], ?_, rfl, rfl⟩
        have hfails : Takes h receiver []
            { receiver with point := .failed, taken := receiver.taken ++ [] } := .fails
        rwa [List.append_nil] at hfails
      · cases hs

/-! ### The old process -/

/-- The listener that is being sent is one of its server. -/
def SendPoint.InRange : SendPoint → Prop
  | .addr s _ i _ _ | .fd s _ i _ => i < s.numListeners
  | _ => True

theorem inRange_listenerPoint (s : POServer) (i : ℕ) (servers : List POServer) :
    (listenerPoint s i servers).InRange := by
  unfold listenerPoint
  split
  · rename_i l hl
    exact (List.getElem?_eq_some_iff.mp hl).1
  · trivial

theorem inRange_nextServer (servers : List POServer) : (nextServer servers).InRange := by
  induction servers with
  | nil => trivial
  | cons s servers ih =>
      rw [nextServer]
      split_ifs
      · exact inRange_listenerPoint _ _ _
      · exact ih

theorem inRange_nextListener (s : POServer) (i : ℕ) (servers : List POServer) :
    (nextListener s i servers).InRange := by
  rw [nextListener]
  split_ifs
  · exact inRange_nextServer _
  · exact inRange_listenerPoint _ _ _

/-- The old process writes what is left to write, or the character, or it fails. -/
theorem Sends.rest_eq {h : Handoff} {p p' : SendPoint} {items : List Item}
    (hs : Sends h p items p') (hrange : p.InRange) :
    items ++ p'.rest h = p.rest h ∨ (p = .waiting ∧ items = plain [endChar] ∧ p' = .done) ∨
      (items = [] ∧ p' = .failed) := by
  cases hs with
  | count =>
      left
      rw [SendPoint.rest, SendPoint.rest, ← List.append_assoc, plain_take_append_drop]
  | counted =>
      left
      rw [rest_nextServer]
      rfl
  | addr =>
      left
      rw [SendPoint.rest, SendPoint.rest, ← List.append_assoc, plain_take_append_drop]
  | addressed => exact .inl rfl
  | fd =>
      left
      rw [rest_nextListener (Nat.le_of_lt hrange)]
      rfl
  | handedOff => exact .inl rfl
  | closed => exact .inl rfl
  | «continue» => exact .inr (.inl ⟨rfl, rfl, rfl⟩)
  | fails _ => exact .inr (.inr ⟨rfl, rfl⟩)

theorem Sends.inRange {h : Handoff} {p p' : SendPoint} {items : List Item}
    (hs : Sends h p items p') (hrange : p.InRange) : p'.InRange := by
  cases hs with
  | counted => exact inRange_nextServer _
  | addr => exact hrange
  | addressed => exact hrange
  | fd => exact inRange_nextListener _ _ _
  | _ => trivial

/-- A process that moves on from where it has failed stays there, and one that is done does not
move. -/
theorem Sends.active {h : Handoff} {p p' : SendPoint} {items : List Item}
    (hs : Sends h p items p') : p ≠ .done ∧ (p = .failed → items = [] ∧ p' = .failed) := by
  cases hs with
  | fails hne => exact ⟨hne, fun _ ↦ ⟨rfl, rfl⟩⟩
  | _ => exact ⟨fun heq ↦ (nomatch heq), fun heq ↦ nomatch heq⟩

/-- What the new process has taken and what is in the stream is a beginning of what is to be
sent. -/
structure Sound (h : Handoff) (t : System) : Prop where
  inRange : t.sender.InRange
  stream : t.receiver.taken ++ t.stream <+: h.wire ++ plain [endChar]
  rest : t.sender ≠ .failed → t.sender ≠ .done →
    t.receiver.taken ++ t.stream ++ t.sender.rest h = h.wire

section Sound

variable {h : Handoff} {t t' : System} {table : Option (List HandoffSocket)}
  {files : ℤ → Option Socket} {r r' : Receiver} {items : List Item}

theorem sound_start : Sound h (h.start table files) where
  inRange := trivial
  stream := List.nil_prefix
  rest := fun _ _ ↦ rfl

@[simp] theorem taken_loop (replace : Bool) (i : ℕ) : (r.loop replace i).taken = r.taken := by
  unfold Receiver.loop
  split_ifs <;> rfl

@[simp] theorem taken_counted (n : ℕ) : (r.counted h n).taken = r.taken := by
  unfold Receiver.counted
  dsimp only
  split_ifs
  · rfl
  · exact taken_loop _ _

theorem taken_read : (r.read h items).taken = r.taken ++ items := by
  unfold Receiver.read
  dsimp only
  split
  · split_ifs
    · rfl
    · exact taken_counted _
  · split_ifs <;> rfl
  · split_ifs <;> rfl
  · rfl

theorem Takes.taken_eq (hs : Takes h r items r') : r'.taken = r.taken ++ items := by
  cases hs with
  | read _ _ => exact taken_read
  | readFails =>
      rw [List.append_nil]
      unfold Receiver.readFails
      split <;> rfl
  | recvmsg _ _ _ => exact taken_loop _ _
  | fails => rfl

theorem Sound.step (hsound : Sound h t) {a : HandoffAction} (hs : h.step t a = some t') :
    Sound h t' := by
  rcases moves_of_step hs with
    ⟨items, hsends, hstream, hreceiver⟩ | ⟨items, htakes, hstream, hsender⟩
  · have hrest : t.sender ≠ .failed → t.receiver.taken ++ t.stream ++ t.sender.rest h = h.wire :=
      fun hne ↦ hsound.rest hne hsends.active.1
    refine ⟨hsends.inRange hsound.inRange, ?_, fun hfailed hdone ↦ ?_⟩
    · rw [hreceiver, hstream, ← List.append_assoc]
      by_cases hfailed : t.sender = .failed
      · rw [(hsends.active.2 hfailed).1, List.append_nil]
        exact hsound.stream
      · rcases hsends.rest_eq hsound.inRange with heq | ⟨hwaiting, hitems, -⟩ | ⟨hitems, -⟩
        · rw [← hrest hfailed, ← heq]
          simp only [List.append_assoc]
          exact ⟨_, by simp only [List.append_assoc]; rfl⟩
        · refine ⟨[], ?_⟩
          rw [← hrest hfailed, hwaiting, hitems, SendPoint.rest]
          simp only [List.append_assoc, List.append_nil]
        · rw [hitems, List.append_nil]
          exact hsound.stream
    · have hne : t.sender ≠ .failed := fun heq ↦ hfailed (hsends.active.2 heq).2
      rcases hsends.rest_eq hsound.inRange with heq | ⟨-, -, hdone'⟩ | ⟨-, hfailed'⟩
      · rw [hreceiver, hstream, ← hrest hne, ← heq]
        simp only [List.append_assoc]
      · exact absurd hdone' hdone
      · exact absurd hfailed' hfailed
  · have htaken : t'.receiver.taken ++ t'.stream = t.receiver.taken ++ t.stream := by
      rw [htakes.taken_eq, hstream, List.append_assoc]
    refine ⟨hsender ▸ hsound.inRange, ?_, ?_⟩
    · rw [htaken]
      exact hsound.stream
    · rw [htaken, hsender]
      exact hsound.rest

end Sound

/-! ### The new process -/

/-- An entry has the address of the listener, and its descriptor has the socket of the listener. -/
def Handoff.Pairs (h : Handoff) (files : ℤ → Option Socket) (l : Listener) (e : HandoffSocket) :
    Prop :=
  e.addr = l.addr ∧ ∃ socket, h.files l.fd = some socket ∧ files e.fd = some socket

section Receiving

variable {h : Handoff} {table : Option (List HandoffSocket)} {old : List HandoffSocket}
  {files : ℤ → Option Socket} {r : Receiver} {got : List UInt8} {k : ℕ}
  {received fresh : List HandoffSocket}

/-- The new process has `k` entries, and it has read some bytes behind them. -/
structure Reading (h : Handoff) (old : List HandoffSocket) (r : Receiver) (got : List UInt8)
    (k : ℕ) (received fresh : List HandoffSocket) : Prop where
  taken : r.taken.length = 4 + 17 * k + got.length
  got : got = (r.taken.drop (4 + 17 * k)).map Item.byte
  table : r.handoffSockets = some (old ++ received ++ fresh)
  pairs : List.Forall₂ (h.Pairs r.files) (h.sent.take k) received
  received : received.length = k
  fresh : k + fresh.length = h.count
  count : r.count = h.count
  total : r.totalListeners = old.length + h.count
  numListeners : r.numListeners = old.length

/-- The new process has all entries. -/
structure Complete (h : Handoff) (old : List HandoffSocket) (r : Receiver) : Prop where
  table : ∃ received, r.handoffSockets = some (old ++ received) ∧
    List.Forall₂ (h.Pairs r.files) h.sent received ∧ received.length = h.count
  numListeners : r.numListeners = old.length + h.count

/-- The new process is where it should be. -/
def Follows (h : Handoff) (table : Option (List HandoffSocket)) (r : Receiver) : Prop :=
  match r.point with
  | .count got =>
      got = r.taken.map Item.byte ∧ got.length < 4 ∧ r.handoffSockets = table ∧
        r.numListeners = (table.getD []).length
  | .addr i got =>
      got.length < 16 ∧ ∃ k received fresh, i = (table.getD []).length + k ∧ fresh ≠ [] ∧
        Reading h (table.getD []) r got k received fresh
  | .fd i =>
      ∃ k received e fresh l, i = (table.getD []).length + k ∧ h.sent[k]? = some l ∧
        e.addr = l.addr ∧ Reading h (table.getD []) r l.addr.toList k received (e :: fresh)
  | .endChar | .done => Complete h (table.getD []) r
  | .failed => True

/-- No more listeners are sent than are announced. -/
theorem length_sent_le (htotal : (h.servers.map POServer.numListeners).sum < 2 ^ 32) :
    h.sent.length ≤ h.count := by
  rw [Handoff.count, Nat.mod_eq_of_lt htotal, Handoff.sent, List.length_flatMap]
  refine List.sum_le_sum fun s _ ↦ ?_
  exact Nat.le_trans s.sent_sublist.length_le (Nat.le_of_eq List.length_reverse)

/-- The loop of the new process goes on, or it is done. -/
theorem follows_loop (hle : h.sent.length ≤ h.count)
    (htotal : (table.getD []).length + h.count < 2 ^ 32)
    (hreading : Reading h (table.getD []) r [] k received fresh) :
    Follows h table (r.loop h.replace ((table.getD []).length + k)) := by
  have hfresh := hreading.fresh
  by_cases hlt : (table.getD []).length + k < r.totalListeners
  · rw [Receiver.loop, if_pos hlt]
    rw [hreading.total] at hlt
    refine ⟨by decide, k, received, fresh, rfl, ?_, ?_⟩
    · rintro rfl
      rw [List.length_nil] at hfresh
      omega
    · exact ⟨hreading.taken, hreading.got, hreading.table, hreading.pairs, hreading.received,
        hreading.fresh, hreading.count, hreading.total, hreading.numListeners⟩
  · rw [Receiver.loop, if_neg hlt]
    rw [hreading.total] at hlt
    have hk : k = h.count := by omega
    have hnone : fresh = [] := List.length_eq_zero_iff.mp (by omega)
    have hall : h.sent.take k = h.sent := List.take_of_length_le (hk ▸ hle)
    have hcomplete : ∀ point, Complete h (table.getD [])
        { r with numListeners := (r.numListeners + r.count) % 2 ^ 32, point := point } := by
      intro point
      refine ⟨⟨received, ?_, ?_, hreading.received.trans hk⟩, ?_⟩
      · have htable := hreading.table
        rw [hnone, List.append_nil] at htable
        exact htable
      · exact hall ▸ hreading.pairs
      · show (r.numListeners + r.count) % 2 ^ 32 = _
        rw [hreading.numListeners, hreading.count, Nat.mod_eq_of_lt htotal]
    cases h.replace
    · exact hcomplete .done
    · exact hcomplete .endChar

/-- How long it is says what was taken of a frame. -/
theorem drop_taken {taken : List Item} (hstart : taken <+: h.wire ++ plain [endChar])
    {j : ℕ} (hlength : taken.length = 4 + 17 * k + j) {l : Listener} (hl : h.sent[k]? = some l)
    (hj : j ≤ 17) : taken.drop (4 + 17 * k) = (h.frame l).take j := by
  have hfour : (plain (uint32Bytes h.count)).length = 4 := length_plain _
  calc
    taken.drop (4 + 17 * k)
      = ((h.wire ++ plain [endChar]).take (4 + 17 * k + j)).drop (4 + 17 * k) := by
        rw [← hlength, ← List.prefix_iff_eq_take.mp hstart]
    _ = ((h.wire ++ plain [endChar]).drop (4 + 17 * k)).take j := by
        rw [List.drop_take, Nat.add_sub_cancel_left]
    _ = ((h.frames h.sent ++ plain [endChar]).drop (17 * k)).take j := by
        rw [Handoff.wire, List.append_assoc, ← List.drop_drop, ← hfour, List.drop_left]
    _ = (h.frame l).take j := take_drop_frames (fun l ↦ h.length_frame l) hl hj _

/-- Where a frame is taken, a listener is sent. -/
theorem exists_sent {taken : List Item} (hstart : taken <+: h.wire ++ plain [endChar])
    {j : ℕ} (hlength : taken.length = 4 + 17 * k + j) (hj : 2 ≤ j) : ∃ l, h.sent[k]? = some l := by
  have hle := hstart.length_le
  rw [List.length_append, h.length_wire, length_plain, hlength, List.length_singleton] at hle
  exact ⟨_, List.getElem?_eq_getElem (show k < h.sent.length by omega)⟩

theorem modify_frame (f : HandoffSocket → HandoffSocket) (hk : received.length = k)
    (e : HandoffSocket) :
    (old ++ received ++ e :: fresh).modify (old.length + k) f =
      old ++ received ++ f e :: fresh := by
  have hlength : (old ++ received).length = old.length + k := by rw [List.length_append, hk]
  rw [← hlength, List.modify_eq_take_cons_drop (by simp), List.take_left,
    List.getElem_append_right (Nat.le_refl _), ← List.drop_drop, List.drop_left]
  simp

/-- The number of the listeners is read. -/
theorem follows_counted (hle : h.sent.length ≤ h.count)
    (htotal : (table.getD []).length + h.count < 2 ^ 32) (htaken : r.taken.length = 4)
    (htable : r.handoffSockets = table) (hnum : r.numListeners = (table.getD []).length) :
    Follows h table (r.counted h h.count) := by
  have hmod : (h.count + r.numListeners) % 2 ^ 32 = (table.getD []).length + h.count := by
    rw [hnum, Nat.add_comm, Nat.mod_eq_of_lt htotal]
  unfold Receiver.counted
  dsimp only
  rw [hmod]
  split_ifs
  · trivial
  · rw [hnum]
    let old := (table.getD []).length
    let fresh : List HandoffSocket :=
      (List.range' old (old + h.count - old)).map fun i ↦ ⟨h.junk i, -1⟩
    have hreading : Reading h (table.getD [])
        { r with
          count := h.count
          totalListeners := old + h.count
          handoffSockets := some ((r.handoffSockets.getD []).take (old + h.count) ++ fresh)
          numListeners := old } [] 0 [] fresh := by
      refine ⟨htaken, ?_, ?_, List.Forall₂.nil, rfl, ?_, rfl, rfl, rfl⟩
      · rw [List.drop_of_length_le (Nat.le_of_eq htaken), List.map_nil]
      · dsimp only
        rw [htable, List.append_nil, List.take_of_length_le (Nat.le_add_right _ _)]
      · rw [List.length_map, List.length_range', Nat.add_sub_cancel_left, Nat.zero_add]
    exact follows_loop hle htotal hreading

/-- An entry is complete. -/
theorem follows_receive (hle : h.sent.length ≤ h.count)
    (htotal : (table.getD []).length + h.count < 2 ^ 32) {l : Listener} {e : HandoffSocket}
    (hl : h.sent[k]? = some l) (haddr : e.addr = l.addr)
    (hreading : Reading h (table.getD []) r l.addr.toList k received (e :: fresh))
    {socket : Socket} {fd : ℤ} (hsocket : (h.fdItem l).socket = some socket)
    (hfd : r.files fd = none) :
    Follows h table (r.receive h ((table.getD []).length + k) (h.fdItem l) socket fd) := by
  have hkeep : ∀ l e, h.Pairs r.files l e →
      h.Pairs (Function.update r.files fd (some socket)) l e := by
    rintro l e ⟨haddr, s, hold, hnew⟩
    refine ⟨haddr, s, hold, ?_⟩
    rw [Function.update_of_ne, hnew]
    rintro rfl
    exact nomatch hfd.symm.trans hnew
  have hlt : k < h.sent.length := (List.getElem?_eq_some_iff.mp hl).1
  have hnext : Reading h (table.getD [])
      { r.set ((table.getD []).length + k) fun e ↦ { e with fd := fd } with
        files := Function.update r.files fd (some socket)
        taken := r.taken ++ [h.fdItem l] } [] (k + 1) (received ++ [{ e with fd := fd }])
      fresh := by
    refine ⟨?_, ?_, ?_, ?_, ?_, ?_, hreading.count, hreading.total, hreading.numListeners⟩
    · dsimp only
      rw [List.length_append, hreading.taken, Sockaddr.length_toList]
      rfl
    · dsimp only
      rw [List.drop_of_length_le, List.map_nil]
      rw [List.length_append, hreading.taken, Sockaddr.length_toList]
      exact Nat.le_refl _
    · rw [Receiver.set, hreading.table, Option.map_some, modify_frame _ hreading.received]
      simp
    · rw [List.take_succ_eq_append_getElem hlt]
      refine List.rel_append (hreading.pairs.imp hkeep) (.cons ?_ .nil)
      have hget : h.sent[k] = l := (List.getElem?_eq_some_iff.mp hl).2
      rw [hget]
      exact ⟨haddr, socket, hsocket, Function.update_self _ _ _⟩
    · rw [List.length_append, hreading.received]
      rfl
    · have hfresh := hreading.fresh
      rw [List.length_cons] at hfresh
      omega
  exact follows_loop hle htotal hnext

/-- `read()` returns bytes. -/
theorem follows_read (hle : h.sent.length ≤ h.count) (hcount : h.count < 2 ^ 32)
    (htotal : (table.getD []).length + h.count < 2 ^ 32) {items : List Item}
    (hfollows : Follows h table r) (hpos : 0 < items.length) (hwants : items.length ≤ r.wants)
    (hstart : r.taken ++ items <+: h.wire ++ plain [endChar]) :
    Follows h table (r.read h items) := by
  unfold Follows at hfollows
  unfold Receiver.wants at hwants
  unfold Receiver.read
  dsimp only
  split
  case h_1 got hpoint =>
    rw [hpoint] at hfollows hwants
    obtain ⟨hgot, hshort, htable, hnum⟩ := hfollows
    have hgot' : got ++ items.map Item.byte = (r.taken ++ items).map Item.byte := by
      rw [List.map_append, hgot]
    split_ifs with hlt
    · exact ⟨hgot', hlt, htable, hnum⟩
    · have hlength : (r.taken ++ items).length = 4 := by
        have htaken := congrArg List.length hgot'
        rw [List.length_append, List.length_map, List.length_map] at htaken
        rw [List.length_append, List.length_map] at hlt
        dsimp only at hwants
        omega
      have hbytes : (r.taken ++ items).map Item.byte = uint32Bytes h.count := by
        rw [List.prefix_iff_eq_take.mp hstart, hlength, Handoff.wire, List.append_assoc,
          List.take_append_of_le_length (by rw [length_plain]; exact Nat.le_refl 4),
          List.take_of_length_le (by rw [length_plain]; exact Nat.le_refl 4), map_byte_plain]
      rw [hgot', hbytes, uint32OfBytes_uint32Bytes hcount]
      exact follows_counted hle htotal hlength htable hnum
  case h_2 i got hpoint =>
    rw [hpoint] at hfollows hwants
    obtain ⟨hshort, k, received, fresh, rfl, hne, hreading⟩ := hfollows
    have hlength :
        (r.taken ++ items).length = 4 + 17 * k + (got ++ items.map Item.byte).length := by
      rw [List.length_append, hreading.taken, List.length_append, List.length_map, Nat.add_assoc]
    have hgot :
        got ++ items.map Item.byte = ((r.taken ++ items).drop (4 + 17 * k)).map Item.byte := by
      rw [List.drop_append_of_le_length (by rw [hreading.taken]; exact Nat.le_add_right _ _),
        List.map_append, ← hreading.got]
    split_ifs with hlt
    · exact ⟨hlt, k, received, fresh, rfl, hne, hlength, hgot, hreading.table, hreading.pairs,
        hreading.received, hreading.fresh, hreading.count, hreading.total, hreading.numListeners⟩
    · have hsixteen : (got ++ items.map Item.byte).length = 16 := by
        rw [List.length_append, List.length_map] at hlt ⊢
        dsimp only at hwants
        omega
      rw [hsixteen] at hlength
      obtain ⟨l, hl⟩ := exists_sent hstart hlength (by decide)
      have haddr : got ++ items.map Item.byte = l.addr.toList := by
        have hplain : (plain l.addr.toList).length = 16 := by
          rw [length_plain, Sockaddr.length_toList]
        rw [hgot, drop_taken hstart hlength hl (by decide), Handoff.frame, ← hplain,
          List.take_left, map_byte_plain]
      obtain ⟨e, fresh, rfl⟩ := List.exists_cons_of_ne_nil hne
      have hfresh : k + (fresh.length + 1) = h.count := hreading.fresh
      refine ⟨k, received, { e with addr := .ofList (got ++ items.map Item.byte) }, fresh, l, rfl,
        hl, ?_, ?_, ?_, ?_, hreading.pairs, hreading.received, hfresh, hreading.count,
        hreading.total, hreading.numListeners⟩
      · rw [haddr, Sockaddr.ofList_toList]
      · rw [Sockaddr.length_toList]
        exact hlength
      · rw [← haddr]
        exact hgot
      · rw [Receiver.set]
        dsimp only
        rw [hreading.table, Option.map_some, modify_frame _ hreading.received]
  case h_3 hpoint =>
    rw [hpoint] at hfollows
    split_ifs
    · exact ⟨hfollows.table, hfollows.numListeners⟩
    · trivial
  case h_4 hcount haddr hend =>
    split at hwants
    · exact absurd ‹_› (hcount _)
    · exact absurd ‹_› (haddr _ _)
    · exact absurd ‹_› hend
    · exact absurd hpos (Nat.not_lt.mpr hwants)

theorem Takes.follows (hle : h.sent.length ≤ h.count) (hcount : h.count < 2 ^ 32)
    (htotal : (table.getD []).length + h.count < 2 ^ 32) {items : List Item} {r' : Receiver}
    (hs : Takes h r items r') (hfollows : Follows h table r)
    (hstart : r'.taken <+: h.wire ++ plain [endChar]) : Follows h table r' := by
  have htaken := hs.taken_eq
  cases hs with
  | read hpos hwants =>
      rw [htaken] at hstart
      exact follows_read hle hcount htotal hfollows hpos hwants hstart
  | readFails =>
      unfold Receiver.readFails
      split <;> trivial
  | recvmsg hpoint hsocket hfd =>
      rename_i i item socket fd
      unfold Follows at hfollows
      rw [hpoint] at hfollows
      obtain ⟨k, received, e, fresh, l, rfl, hl, haddr, hreading⟩ := hfollows
      rw [htaken] at hstart
      have hlength : (r.taken ++ [item]).length = 4 + 17 * k + 17 := by
        rw [List.length_append, hreading.taken, Sockaddr.length_toList]
        rfl
      have hitem : item = h.fdItem l := by
        have hframe := drop_taken hstart hlength hl (Nat.le_refl 17)
        have hlong : (r.taken.drop (4 + 17 * k)).length = (plain l.addr.toList).length := by
          rw [List.length_drop, hreading.taken, length_plain, Nat.add_sub_cancel_left]
        rw [List.drop_append_of_le_length (by rw [hreading.taken]; exact Nat.le_add_right _ _),
          List.take_of_length_le (Nat.le_of_eq (h.length_frame l)), Handoff.frame] at hframe
        exact List.cons.inj (List.append_inj hframe hlong).2 |>.1
      subst hitem
      exact follows_receive hle htotal hl haddr hreading hsocket hfd
  | fails => trivial

end Receiving

/-! ## The round trip -/

section RoundTrip

variable {h : Handoff} {table : Option (List HandoffSocket)} {files : ℤ → Option Socket}
  {t : System}

theorem files_loop (r : Receiver) (replace : Bool) (i : ℕ) :
    (r.loop replace i).files = r.files := by
  unfold Receiver.loop
  split_ifs <;> rfl

theorem files_read (r : Receiver) (items : List Item) : (r.read h items).files = r.files := by
  unfold Receiver.read
  dsimp only
  split
  · split_ifs
    · rfl
    · unfold Receiver.counted
      dsimp only
      split_ifs
      · rfl
      · exact files_loop _ _ _
  · split_ifs <;> rfl
  · split_ifs <;> rfl
  · rfl

/-- The descriptors that the new process has keep their sockets. -/
theorem Takes.keeps_files {r r' : Receiver} {items : List Item} (hs : Takes h r items r') {fd : ℤ}
    {socket : Socket} (hfd : r.files fd = some socket) : r'.files fd = some socket := by
  cases hs with
  | read _ _ => rwa [files_read]
  | readFails =>
      unfold Receiver.readFails
      split <;> exact hfd
  | recvmsg _ _ hnone =>
      rw [Receiver.receive, files_loop]
      dsimp only
      rw [Function.update_of_ne, hfd]
      rintro rfl
      exact nomatch hnone.symm.trans hfd
  | fails => exact hfd

theorem files_of_reach (hreach : Reach h.step Any (h.start table files) t) {fd : ℤ}
    {socket : Socket} (hfd : files fd = some socket) : t.receiver.files fd = some socket := by
  refine hreach.invariant (I := fun t ↦ t.receiver.files fd = some socket) hfd ?_
  rintro t t' a hold - hs
  rcases moves_of_step hs with ⟨items, -, -, hreceiver⟩ | ⟨items, htakes, -, -⟩
  · rw [hreceiver]
    exact hold
  · exact htakes.keeps_files hold

theorem follows_of_reach
    (htotal : (table.getD []).length + (h.servers.map POServer.numListeners).sum < 2 ^ 32)
    (hreach : Reach h.step Any (h.start table files) t) :
    Sound h t ∧ Follows h table t.receiver := by
  have hsum : (h.servers.map POServer.numListeners).sum < 2 ^ 32 :=
    Nat.lt_of_le_of_lt (Nat.le_add_left _ _) htotal
  have hcount : h.count = (h.servers.map POServer.numListeners).sum := Nat.mod_eq_of_lt hsum
  refine hreach.invariant (I := fun t ↦ Sound h t ∧ Follows h table t.receiver)
    ⟨sound_start, rfl, by decide, rfl, rfl⟩ ?_
  rintro t t' a ⟨hsound, hfollows⟩ - hs
  have hsound' := hsound.step hs
  refine ⟨hsound', ?_⟩
  rcases moves_of_step hs with ⟨items, -, -, hreceiver⟩ | ⟨items, htakes, -, -⟩
  · rw [hreceiver]
    exact hfollows
  · refine htakes.follows (length_sent_le hsum) (hcount ▸ hsum) (hcount ▸ htotal) hfollows ?_
    exact (List.prefix_append _ _).trans hsound'.stream

/-- All listeners of the old process, in the order in which they are sent: those of a server from
the last one to the first. -/
def Handoff.listeners (h : Handoff) : List Listener :=
  h.servers.flatMap fun s ↦ s.listener.reverse

theorem sent_sublist (servers : List POServer) :
    (servers.flatMap POServer.sent).Sublist (servers.flatMap fun s ↦ s.listener.reverse) := by
  induction servers with
  | nil => exact .slnil
  | cons s servers ih =>
      rw [List.flatMap_cons, List.flatMap_cons]
      exact s.sent_sublist.append ih

/-- If as many listeners are sent as are announced, all are. -/
theorem sent_eq_listeners (hlength : (h.servers.map POServer.numListeners).sum ≤ h.sent.length) :
    h.sent = h.listeners := by
  refine (sent_sublist h.servers).eq_of_length_le ?_
  have hall : (h.servers.flatMap fun s ↦ s.listener.reverse).length =
      (h.servers.map POServer.numListeners).sum := by
    rw [List.length_flatMap]
    simp only [List.length_reverse]
    rfl
  rw [hall]
  exact hlength

/-- **What is handed off arrives.**  When `poTato_signalHandOff()` has returned success, the table
is the old one followed by an entry for each listener of the old process, with the address and the
socket of the listener, in the order in which they were sent. -/
theorem roundTrip_of_reach
    (htotal : (table.getD []).length + (h.servers.map POServer.numListeners).sum < 2 ^ 32)
    (hreach : Reach h.step Any (h.start table files) t) (hdone : t.receiver.point = .done) :
    (∃ received, t.receiver.handoffSockets = some (table.getD [] ++ received) ∧
      List.Forall₂ (h.Pairs t.receiver.files) h.listeners received) ∧
    t.receiver.numListeners =
      (table.getD []).length + (h.servers.map POServer.numListeners).sum ∧
    ∀ fd socket, files fd = some socket → t.receiver.files fd = some socket := by
  have hcount : h.count = (h.servers.map POServer.numListeners).sum :=
    Nat.mod_eq_of_lt (Nat.lt_of_le_of_lt (Nat.le_add_left _ _) htotal)
  have hcomplete : Complete h (table.getD []) t.receiver := by
    have hfollows := (follows_of_reach htotal hreach).2
    unfold Follows at hfollows
    rw [hdone] at hfollows
    exact hfollows
  obtain ⟨received, htable, hpairs, hlength⟩ := hcomplete.table
  have hall : h.sent = h.listeners := by
    refine sent_eq_listeners (Nat.le_of_eq ?_)
    rw [← hcount, ← hlength, hpairs.length_eq]
  refine ⟨⟨received, htable, hall ▸ hpairs⟩, ?_, fun _ _ ↦ files_of_reach hreach⟩
  rw [← hcount]
  exact hcomplete.numListeners

/-- Two servers hand off two listeners and one, to a process that has an entry. -/
abbrev threeListeners : Handoff where
  servers := [⟨[⟨NewProcess.loopback 1, 3⟩, ⟨NewProcess.loopback 2, 4⟩]⟩,
    ⟨[⟨NewProcess.loopback 3, 5⟩]⟩]
  files fd := if 3 ≤ fd ∧ fd ≤ 5 then some fd.toNat else none
  replace := true
  junk _ := NewProcess.loopback 0

/-- The run of a hand-off in which the reads and writes do not match. -/
theorem roundTrip_of_three :
    ∃ t, Reach threeListeners.step Any
        (threeListeners.start (some [⟨NewProcess.loopback 9, 7⟩]) fun _ ↦ none) t ∧
      t.receiver.point = .done ∧
      (∃ received, t.receiver.handoffSockets = some ([⟨NewProcess.loopback 9, 7⟩] ++ received) ∧
        List.Forall₂ (threeListeners.Pairs t.receiver.files) threeListeners.listeners received) ∧
      t.receiver.numListeners = 1 + 3 ∧
      ∀ fd socket, none = some socket → t.receiver.files fd = some socket := by
  obtain ⟨t, hreach, hdone⟩ :
      ∃ t, Reach threeListeners.step Any
          (threeListeners.start (some [⟨NewProcess.loopback 9, 7⟩]) fun _ ↦ none) t ∧
        t.receiver.point = .done :=
    exists_reach_of_exec_decide
      [.write 3, .read 2, .write 1, .write 16, .read 2, .read 10, .sendmsg, .write 7, .read 6,
        .recvmsg 3, .write 9, .sendmsg, .read 5, .read 11, .recvmsg 4, .write 16, .sendmsg,
        .handedOff, .continue, .read 16, .recvmsg 5, .read 1]
      (by decide)
  exact ⟨t, hreach, hdone, roundTrip_of_reach (by decide) hreach hdone⟩

end RoundTrip

end Tidbits.Potato
