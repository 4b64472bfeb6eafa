import Tidbits.Service.Reception

/-!
# The limit on the length of a message

`TCPRead()` and `TLSRead()` test the limit when the buffer is full, against the size
of the buffer, which is a multiple of `PO_SERVICE_CHUNKLEN` and is kept from message to
message.  So a connection is dropped when the bytes since the last
`POSERVICE_CONTINUE` have filled the first multiple that is not below
`maxMessageLength`.
-/

namespace Tidbits.Service

open Server Transition

namespace Limits

variable {l : Limits} {n : ℕ}

/-- The largest size of an input buffer. -/
def largest (l : Limits) : ℕ := (l.maxMessageLength + l.chunkLen - 1) / l.chunkLen * l.chunkLen

/-- The length of a message for which the size of the buffer and the limit differ. -/
def Misjudges (l : Limits) (n : ℕ) : Prop :=
  n = l.maxMessageLength ∧ l.chunkLen ∣ l.maxMessageLength ∨
    l.maxMessageLength < n ∧ n < l.largest

theorem chunkLen_pos (l : Limits) : 0 < l.chunkLen := Nat.lt_of_lt_of_le Nat.two_pos l.chunkLen_ge

theorem chunkLen_dvd_largest (l : Limits) : l.chunkLen ∣ l.largest := Nat.dvd_mul_left _ _

theorem maxMessageLength_le_largest (l : Limits) : l.maxMessageLength ≤ l.largest := by
  have hlt : l.maxMessageLength + l.chunkLen - 1 < l.largest + l.chunkLen :=
    Nat.lt_div_mul_add l.chunkLen_pos
  have hpos := l.chunkLen_pos
  omega

theorem largest_pos (l : Limits) : 0 < l.largest :=
  Nat.lt_of_lt_of_le (Nat.lt_of_lt_of_le Nat.two_pos l.maxMessageLength_ge)
    l.maxMessageLength_le_largest

theorem largest_le_of_dvd (hdvd : l.chunkLen ∣ n) (hle : l.maxMessageLength ≤ n) :
    l.largest ≤ n := by
  obtain ⟨k, rfl⟩ := hdvd
  have hpos := l.chunkLen_pos
  have hlt : (l.maxMessageLength + l.chunkLen - 1) / l.chunkLen < k + 1 := by
    rw [Nat.div_lt_iff_lt_mul hpos, Nat.add_mul, Nat.one_mul, Nat.mul_comm k]
    omega
  calc l.largest ≤ k * l.chunkLen := Nat.mul_le_mul_right _ (Nat.le_of_lt_succ hlt)
    _ = l.chunkLen * k := Nat.mul_comm _ _

/-- A multiple that is too small leaves room for one more chunk. -/
theorem add_chunkLen_le_largest (hdvd : l.chunkLen ∣ n) (hlt : n < l.largest) :
    n + l.chunkLen ≤ l.largest := by
  obtain ⟨k, rfl⟩ := hdvd
  obtain ⟨m, hm⟩ := l.chunkLen_dvd_largest
  rw [hm] at hlt ⊢
  calc l.chunkLen * k + l.chunkLen = l.chunkLen * (k + 1) := (Nat.mul_succ _ _).symm
    _ ≤ l.chunkLen * m := Nat.mul_le_mul_left _ (Nat.lt_of_mul_lt_mul_left hlt)

theorem largest_eq_succ (hdvd : l.chunkLen ∣ l.maxMessageLength + 1) :
    l.largest = l.maxMessageLength + 1 := by
  have hle := largest_le_of_dvd hdvd (Nat.le_succ _)
  have hge := l.maxMessageLength_le_largest
  have hne : l.largest ≠ l.maxMessageLength := by
    intro heq
    have hone : l.chunkLen ∣ 1 := (Nat.dvd_add_right (heq ▸ l.chunkLen_dvd_largest)).mp hdvd
    have hle := Nat.le_of_dvd Nat.one_pos hone
    have htwo := l.chunkLen_ge
    omega
  omega

/-- A length that the buffer can reach is judged right if it fills the largest buffer exactly
when it is over the limit. -/
theorem not_misjudges_iff (hn : n ≤ l.largest) :
    ¬ l.Misjudges n ↔ (n = l.largest ↔ l.maxMessageLength < n) := by
  have hge := l.maxMessageLength_le_largest
  constructor
  · intro hnot
    constructor
    · rintro rfl
      refine Nat.lt_of_le_of_ne hge fun heq ↦ hnot (.inl ⟨heq.symm, ?_⟩)
      rw [heq]
      exact l.chunkLen_dvd_largest
    · intro hover
      by_contra hne
      exact hnot (.inr ⟨hover, Nat.lt_of_le_of_ne hn hne⟩)
  · rintro hiff (⟨rfl, hdvd⟩ | ⟨hover, hshort⟩)
    · have heq := Nat.le_antisymm hge (largest_le_of_dvd hdvd (Nat.le_refl _))
      exact absurd (hiff.mp heq) (Nat.lt_irrefl _)
    · exact Nat.ne_of_lt hshort (hiff.mpr hover)

/-- No length is misjudged exactly if the limit and one more byte fill the buffer. -/
theorem forall_not_misjudges_iff :
    (∀ n, 0 < n → n ≤ l.largest → ¬ l.Misjudges n) ↔ l.chunkLen ∣ l.maxMessageLength + 1 := by
  have hge := l.maxMessageLength_le_largest
  constructor
  · intro hall
    have hlargest := hall l.largest l.largest_pos (Nat.le_refl _)
    have hover : l.maxMessageLength < l.largest :=
      ((not_misjudges_iff (Nat.le_refl _)).mp hlargest).mp rfl
    have hnext := hall (l.maxMessageLength + 1) (Nat.succ_pos _) hover
    have heq : l.maxMessageLength + 1 = l.largest :=
      ((not_misjudges_iff hover).mp hnext).mpr (Nat.lt_succ_self _)
    rw [heq]
    exact l.chunkLen_dvd_largest
  · rintro hdvd n - hle
    rw [not_misjudges_iff hle]
    rw [largest_eq_succ hdvd] at hle ⊢
    omega

end Limits

variable {Call Out Result : Type} {cfg : Config Call Out Result}
  {s s' : Session Out} {a : Action Call Result} {fd : ℤ} {acceptTime : Time} {acceptNo : ℕ}

theorem Control.Calling.reading {c : Control} (h : c.Calling) : c.Reading := by
  cases c with
  | session => trivial
  | write caller =>
      cases caller with
      | session => trivial
      | service | outside | cleanup => exact h.elim
  | _ => exact h.elim

namespace Session

/-! ## The size of the buffer -/

/-- The size of the buffer is a multiple of the chunk length, and the connection was dropped
exactly when the message has filled the largest buffer. -/
structure Sized (l : Limits) (s : Session Out) : Prop where
  size : s.conn.callback .read = some readCallback →
    l.chunkLen ∣ s.input.inSize ∧ s.input.inSize ≤ l.largest
  le : s.received.length ≤ l.largest
  dropped : s.ending = some .tooLarge ↔ s.received.length = l.largest

theorem sized_start (l : Limits) (fd : ℤ) (acceptTime : Time) (acceptNo : ℕ) :
    (start Out fd acceptTime acceptNo).Sized l :=
  ⟨fun heq ↦ (nomatch heq), Nat.zero_le _,
    iff_of_false (fun heq ↦ (nomatch heq)) (Nat.ne_of_lt l.largest_pos)⟩

theorem Sized.of_same {l : Limits} (h : s.Sized l) (hsame : s.SameInput s') : s'.Sized l where
  size := by
    rw [hsame.input]
    exact fun heq ↦ h.size (hsame.read _ heq)
  le := hsame.received ▸ h.le
  dropped := by
    rw [hsame.ending, hsame.received]
    exact h.dropped

theorem Sized.readReturned {l : Limits} (h : s.Sized l) (value : ℤ) :
    (s.readReturned value).Sized l :=
  h.of_same (sameInput_serviceReturned s .read false value)

/-- A message that has not filled the largest buffer has not been dropped. -/
theorem Sized.not_tooLarge {l : Limits} (h : s.Sized l) (hlt : s.received.length < l.largest) :
    s.ending ≠ some .tooLarge :=
  fun heq ↦ Nat.ne_of_lt hlt (h.dropped.mp heq)

theorem Sized.setUp (h : s.Sized cfg.toLimits) (ok : Bool) :
    (s.setUp cfg ok).Sized cfg.toLimits := by
  unfold Session.setUp
  split_ifs
  · exact h.readReturned (-1)
  · refine ⟨fun _ ↦ ⟨Nat.dvd_refl _, Nat.le_trans (Nat.le_add_left _ 0) ?_⟩, h.le, h.dropped⟩
    exact Limits.add_chunkLen_le_largest (Nat.dvd_zero _) cfg.largest_pos

/-- Bytes that leave room in the largest buffer. -/
theorem Sized.receive {l : Limits} (h : s.Sized l) {input : Input} {bytes : List UInt8}
    (hsize : l.chunkLen ∣ input.inSize ∧ input.inSize ≤ l.largest)
    (hlt : s.received.length + bytes.length < l.largest) :
    { s.receive bytes with input := input }.Sized l := by
  have hlength : (s.received ++ bytes).length < l.largest := by rwa [List.length_append]
  have hold : s.received.length < l.largest := Nat.lt_of_le_of_lt (Nat.le_add_right _ _) hlt
  exact ⟨fun _ ↦ hsize, Nat.le_of_lt hlength,
    iff_of_false (h.not_tooLarge hold) (Nat.ne_of_lt hlength)⟩

theorem Sized.ended {l : Limits} (h : s.Sized l) {ending : Ending} (hending : ending ≠ .tooLarge)
    (hlt : s.received.length < l.largest) : { s with ending := some ending }.Sized l :=
  ⟨h.size, h.le, iff_of_false (fun heq ↦ hending (Option.some.inj heq)) (Nat.ne_of_lt hlt)⟩

theorem Sized.readStep {oldLen : ℕ} {r : ReadResult} {next : ReadStep} (h : s.Sized cfg.toLimits)
    (hr : s.Receives) (hw : s.Wired) (hc : s.control = .read oldLen)
    (hnext : readInput cfg s.input r = some next) :
    (s.readStep oldLen r next).Sized cfg.toLimits := by
  obtain ⟨hread, hholds, hroom, -⟩ := hr.reading hw hc
  obtain ⟨hdvd, hle⟩ := h.size hread
  have hlen := hholds.inLen_eq
  by_cases hcount : ∃ bytes, r = .count bytes
  · obtain ⟨bytes, rfl⟩ := hcount
    rw [readInput_count] at hnext
    split_ifs at hnext with hnew hshort hgrow
    · -- the buffer is not full
      cases hnext
      have hreceived : { s.receive bytes with input := s.input.receive bytes }.Sized cfg.toLimits :=
        h.receive ⟨hdvd, hle⟩ (by omega)
      unfold Session.readStep
      dsimp only
      split_ifs with htwo
      · exact absurd rfl htwo
      · exact hreceived.readReturned 0
      · exact ⟨hreceived.size, hreceived.le, hreceived.dropped⟩
    · -- it is full, and it is made larger
      cases hnext
      have hlarge := cfg.maxMessageLength_le_largest
      have hmore : s.input.inSize + cfg.chunkLen ≤ cfg.largest :=
        Limits.add_chunkLen_le_largest hdvd (Nat.lt_of_lt_of_le hgrow hlarge)
      have hreceived : { s.receive bytes with
          input := (s.input.receive bytes).grow cfg.chunkLen }.Sized cfg.toLimits :=
        h.receive ⟨Nat.dvd_add hdvd (Nat.dvd_refl _), hmore⟩ (by omega)
      exact ⟨hreceived.size, hreceived.le, hreceived.dropped⟩
    · -- it is as large as it may be
      cases hnext
      have hfull : s.input.inSize = cfg.largest :=
        Nat.le_antisymm hle (Limits.largest_le_of_dvd hdvd (Nat.le_of_not_lt hgrow))
      have hlength : (s.received ++ bytes).length = cfg.largest := by
        rw [List.length_append]
        omega
      have hdropped : Sized cfg.toLimits
          { s.receive bytes with
            input := s.input.receive bytes
            ending := some (endingOf (.count bytes)) } :=
        ⟨fun _ ↦ ⟨hdvd, hle⟩, Nat.le_of_eq hlength, iff_of_true rfl hlength⟩
      exact hdropped.readReturned 1
  · obtain ⟨hnone, hending, hcases⟩ := readInput_other (fun bytes heq ↦ hcount ⟨bytes, heq⟩) hnext
    have hlt : s.received.length + r.received.length < cfg.largest := by
      rw [hnone, List.length_nil]
      omega
    have hreceived : { s.receive r.received with input := s.input }.Sized cfg.toLimits :=
      h.receive ⟨hdvd, hle⟩ hlt
    rcases hcases with rfl | ⟨value, rfl⟩ | rfl
    · exact ⟨hreceived.size, hreceived.le, hreceived.dropped⟩
    · unfold Session.readStep
      dsimp only
      split_ifs
      · rw [← List.length_append] at hlt
        exact (hreceived.ended hending hlt).readReturned value
      · exact hreceived.readReturned 0
      · exact ⟨hreceived.size, hreceived.le, hreceived.dropped⟩
    · exact ⟨h.size, h.le, h.dropped⟩

theorem Sized.sessionReturned {l : Limits} (h : s.Sized l) (hr : s.Receives) (hw : s.Wired)
    (hc : s.control = .session) (value : POServiceReturn) : (s.sessionReturned value).Sized l := by
  have hread : s.conn.callback .read = some readCallback := hw.reading (by rw [hc]; trivial)
  obtain ⟨hholds, hroom⟩ := hr.holds hread
  cases value with
  | «continue» =>
      have hlt : s.received.length < l.largest := by
        rw [← hholds.inLen_eq]
        exact Nat.lt_of_lt_of_le hroom (h.size hread).2
      have hreset : { s with input := { s.input with inLen := 0 }, received := [] }.Sized l :=
        ⟨h.size, Nat.zero_le _, iff_of_false (h.not_tooLarge hlt) (Nat.ne_of_lt l.largest_pos)⟩
      exact hreset.readReturned 0
  | wait => exact h.readReturned 0
  | close =>
      have hclosed : { s with closed := true }.Sized l := ⟨h.size, h.le, h.dropped⟩
      have hremoved : { s with
          closed := true
          conn := (s.conn.poServerSetCallback .read none).1 }.Sized l :=
        ⟨fun heq ↦ (nomatch heq), h.le, h.dropped⟩
      unfold Session.sessionReturned
      dsimp only
      split_ifs
      · exact hclosed.readReturned 1
      · exact hremoved.readReturned 0
  | error => exact h.readReturned (-1)

theorem Sized.stepped (h : s.Sized cfg.toLimits) (hr : s.Receives) (hw : s.Wired)
    (hs : Stepped cfg s a s') : s'.Sized cfg.toLimits := by
  have hothers : ¬ ChangesInput a → s'.Sized cfg.toLimits := fun ha ↦
    h.of_same (sameInput_of_stepped hs ha)
  cases hs with
  | setUp ok hc => exact h.setUp ok
  | read hc hnext => exact h.readStep hr hw hc hnext
  | returns value hc => exact h.sessionReturned hr hw hc value
  | terminate value hc => exact ⟨h.size, h.le, h.dropped⟩
  | _ => exact hothers id

theorem sized_of_reach {ok : Session Out → Action Call Result → Prop}
    (h : Reach (step cfg) ok (start Out fd acceptTime acceptNo) s) : s.Sized cfg.toLimits :=
  h.invariant_of (fun h ↦ And.intro (wired_of_reach h) (receives_of_reach h))
    (sized_start cfg.toLimits fd acceptTime acceptNo)
    fun hwr hp _ hs ↦ hp.stepped hwr.2 hwr.1 (stepped_of_step hs)

/-! ## What is dropped -/

/-- The connection was dropped for the size of a message if and only if the bytes since the last
`POSERVICE_CONTINUE` exceed the limit, and the session callback gets no more than the limit. -/
structure DropsExactly (maxMessageLength : ℕ) (s : Session Out) : Prop where
  dropped : s.ending = some .tooLarge ↔ maxMessageLength < s.received.length
  delivered : s.control.Calling → s.input.inLen ≤ maxMessageLength

/-- In a state that is reached, the limit is kept unless the length is one that is misjudged. -/
theorem dropsExactly_iff_of_reach (h : Reach (step cfg) Any (start Out fd acceptTime acceptNo) s) :
    s.DropsExactly cfg.maxMessageLength ↔ ¬ cfg.Misjudges s.received.length := by
  have hsized := sized_of_reach h
  rw [Limits.not_misjudges_iff hsized.le, ← hsized.dropped]
  refine ⟨fun hdrops ↦ hdrops.dropped, fun hiff ↦ ⟨hiff, fun hcalling ↦ ?_⟩⟩
  -- the session callback is called with less than fills the buffer
  have hread := (wired_of_reach h).reading hcalling.reading
  obtain ⟨hholds, hroom⟩ := (receives_of_reach h).holds hread
  have hlt : s.received.length < cfg.largest := by
    rw [← hholds.inLen_eq]
    exact Nat.lt_of_lt_of_le hroom (hsized.size hread).2
  rw [hholds.inLen_eq]
  exact Nat.le_of_not_lt fun hover ↦ hsized.not_tooLarge hlt (hiff.mpr hover)

/-! ## Every length is reached -/

/-- Bytes are received. -/
theorem step_count (cfg : Config Call Out Result) {oldLen : ℕ} (hc : s.control = .read oldLen)
    (bytes : List UInt8) (hbytes : bytes ≠ [])
    (hroom : bytes.length ≤ s.input.inSize - s.input.inLen) :
    step cfg s (.read (.count bytes)) =
      some (s.readStep oldLen (.count bytes)
        (if s.input.inLen + bytes.length < s.input.inSize then .returns (s.input.receive bytes) 2
          else if s.input.inSize < cfg.maxMessageLength then
            .goesOn ((s.input.receive bytes).grow cfg.chunkLen)
          else .returns (s.input.receive bytes) 1)) := by
  unfold step
  dsimp only
  rw [hc]
  dsimp only
  rw [readInput_count, if_pos ⟨hbytes, hroom⟩]
  split_ifs <;> rfl

theorem received_readStep (s : Session Out) (oldLen : ℕ) (r : ReadResult) {next : ReadStep}
    (hnext : next ≠ .ends) : (s.readStep oldLen r next).received = s.received ++ r.received := by
  cases next with
  | goesOn input => rfl
  | returns input value =>
      unfold Session.readStep
      dsimp only
      split_ifs <;> rfl
  | ends => exact absurd rfl hnext

theorem setUp_true (s : Session Out) (cfg : Config Call Out Result) :
    (s.setUp cfg true).control = .read 0 ∧ (s.setUp cfg true).input = .create cfg.chunkLen ∧
      (s.setUp cfg true).received = s.received := by
  unfold Session.setUp
  rw [Bool.not_true, Bool.and_false]
  exact ⟨rfl, rfl, rfl⟩

/-- `Read()` has filled the buffer some times over. -/
theorem exists_reading (cfg : Config Call Out Result) (fd : ℤ) (acceptTime : Time) (acceptNo k : ℕ)
    (hk : (k + 1) * cfg.chunkLen ≤ cfg.largest) :
    ∃ s, Reach (step cfg) Any (start Out fd acceptTime acceptNo) s ∧ s.control = .read 0 ∧
      s.received.length = k * cfg.chunkLen ∧ s.input.inLen = k * cfg.chunkLen ∧
      s.input.inSize = (k + 1) * cfg.chunkLen := by
  induction k with
  | zero =>
      have hsetup : ∃ s, Reach (step cfg) Any (start Out fd acceptTime acceptNo) s ∧
          s.control = .setup ∧ s.received = [] :=
        ⟨_, ((Reach.refl.tail (a := .event .read) trivial rfl).tail (a := .service) trivial
          rfl).tail (a := .go) trivial rfl, rfl, rfl⟩
      obtain ⟨s, hr, hc, hreceived⟩ := hsetup
      obtain ⟨hc', hinput, hkept⟩ := setUp_true s cfg
      refine ⟨s.setUp cfg true, hr.tail (a := .setUp true) trivial (if_pos hc), hc', ?_⟩
      rw [hinput, hkept, hreceived, Nat.zero_mul, Nat.zero_add, Nat.one_mul]
      exact ⟨rfl, rfl, rfl⟩
  | succ k ih =>
      have hpos := cfg.chunkLen_pos
      have hsplit : (k + 1 + 1) * cfg.chunkLen = (k + 1) * cfg.chunkLen + cfg.chunkLen :=
        Nat.succ_mul _ _
      have hsplit' : (k + 1) * cfg.chunkLen = k * cfg.chunkLen + cfg.chunkLen := Nat.succ_mul _ _
      obtain ⟨s, hr, hc, hlength, hlen, hsize⟩ := ih (by omega)
      have hsmall : (k + 1) * cfg.chunkLen < cfg.maxMessageLength := by
        by_contra hlarge
        have hle := Limits.largest_le_of_dvd (Nat.dvd_mul_left _ _) (Nat.le_of_not_lt hlarge)
        omega
      have hbytes : (List.replicate cfg.chunkLen (0 : UInt8)).length = cfg.chunkLen :=
        List.length_replicate
      have hs := step_count cfg hc (List.replicate cfg.chunkLen 0)
        (List.ne_nil_of_length_pos (by omega)) (by omega)
      rw [if_neg (by omega), if_pos (by omega)] at hs
      refine ⟨_, hr.tail trivial hs, rfl, ?_, ?_, ?_⟩
      · show (s.received ++ List.replicate cfg.chunkLen 0).length = _
        rw [List.length_append]
        omega
      · show s.input.inLen + (List.replicate cfg.chunkLen (0 : UInt8)).length = _
        omega
      · show s.input.inSize + cfg.chunkLen = _
        omega

/-- Up to the largest size of the buffer, a message may have any length. -/
theorem exists_received (cfg : Config Call Out Result) (fd : ℤ) (acceptTime : Time)
    (acceptNo : ℕ) {n : ℕ} (hpos : 0 < n) (hle : n ≤ cfg.largest) :
    ∃ s, Reach (step cfg) Any (start Out fd acceptTime acceptNo) s ∧ s.received.length = n := by
  have hchunk := cfg.chunkLen_pos
  -- the chunks that are full before the last bytes come
  let k := (n - 1) / cfg.chunkLen
  have hlow : k * cfg.chunkLen ≤ n - 1 := Nat.div_mul_le_self _ _
  have hhigh : n - 1 < k * cfg.chunkLen + cfg.chunkLen := Nat.lt_div_mul_add hchunk
  have hsplit : (k + 1) * cfg.chunkLen = k * cfg.chunkLen + cfg.chunkLen := Nat.succ_mul _ _
  have hk : k * cfg.chunkLen + cfg.chunkLen ≤ cfg.largest :=
    Limits.add_chunkLen_le_largest (Nat.dvd_mul_left _ _) (by omega)
  obtain ⟨s, hr, hc, hlength, hlen, hsize⟩ :=
    exists_reading cfg fd acceptTime acceptNo k (hsplit ▸ hk)
  have hbytes : (List.replicate (n - k * cfg.chunkLen) (0 : UInt8)).length =
      n - k * cfg.chunkLen := List.length_replicate
  have hs := step_count cfg hc (List.replicate (n - k * cfg.chunkLen) 0)
    (List.ne_nil_of_length_pos (by omega)) (by omega)
  refine ⟨_, hr.tail trivial hs, ?_⟩
  rw [received_readStep]
  · show (s.received ++ List.replicate (n - k * cfg.chunkLen) 0).length = n
    rw [List.length_append]
    omega
  · split_ifs <;> nofun

/-! ## The claimed limit -/

/-- The limit is kept in a state that is reached exactly if the length of the message is not one
that is misjudged, and in all of them exactly if the limit and one more byte fill the buffer. -/
theorem dropsExactly_iff (cfg : Config Call Out Result) (fd : ℤ) (acceptTime : Time)
    (acceptNo : ℕ) :
    (∀ s, Reach (step cfg) Any (start Out fd acceptTime acceptNo) s →
        (s.DropsExactly cfg.maxMessageLength ↔ ¬ cfg.Misjudges s.received.length)) ∧
      ((∀ s, Reach (step cfg) Any (start Out fd acceptTime acceptNo) s →
          s.DropsExactly cfg.maxMessageLength) ↔ cfg.chunkLen ∣ cfg.maxMessageLength + 1) := by
  refine ⟨fun s h ↦ dropsExactly_iff_of_reach h, ?_⟩
  rw [← Limits.forall_not_misjudges_iff]
  constructor
  · intro hall n hpos hle
    obtain ⟨s, hr, rfl⟩ := exists_received cfg fd acceptTime acceptNo hpos hle
    exact (dropsExactly_iff_of_reach hr).mp (hall s hr)
  · intro hall s h
    rw [dropsExactly_iff_of_reach h]
    rcases Nat.eq_zero_or_pos s.received.length with hzero | hpos
    · rw [hzero]
      rintro (⟨heq, -⟩ | ⟨hover, -⟩)
      · exact absurd (heq ▸ cfg.maxMessageLength_ge) (by decide)
      · exact absurd hover (Nat.not_lt_zero _)
    · exact hall _ hpos (sized_of_reach h).le

/-- Six bytes fill a buffer for at most five. -/
theorem dropsExactly_of_six : ∃ s, Reach (step growing.tcp) Any (start OutBuffer 5 0 0) s ∧
    s.received.length = 6 ∧ s.ending = some .tooLarge ∧ s.DropsExactly 5 := by
  obtain ⟨s, hr, hlength, hending⟩ : ∃ s, Reach (step growing.tcp) Any (start OutBuffer 5 0 0) s ∧
      s.received.length = 6 ∧ s.ending = some .tooLarge :=
    exists_reach_of_exec_decide
      (connects ++ [.read (.count [65, 66]), .read (.count [67, 68]), .read (.count [69, 70])])
      (by decide)
  exact ⟨s, hr, hlength, hending, (dropsExactly_iff growing.tcp 5 0 0).2.mpr (by decide) s hr⟩

/-- Four bytes are dropped where four are allowed. -/
theorem not_dropsExactly_of_four : ¬ ∀ (l : Limits) (s : Session OutBuffer),
    Reach (step l.tcp) Any (start OutBuffer 5 0 0) s → s.DropsExactly l.maxMessageLength := by
  intro h
  let l : Limits := ⟨2, 4, true, by decide, by decide⟩
  obtain ⟨s, hr, hlength, hending⟩ : ∃ s, Reach (step l.tcp) Any (start OutBuffer 5 0 0) s ∧
      s.received.length = 4 ∧ s.ending = some .tooLarge :=
    exists_reach_of_exec_decide
      (connects ++ [.read (.count [65, 66]), .read (.count [67, 68])]) (by decide)
  have hover := (h l s hr).dropped.mp hending
  rw [hlength] at hover
  exact absurd hover (by decide)

end Session

end Tidbits.Service
