import Tidbits.Libc.Strtoul

/-!
# One option of the command line

`get_opt` looks for an option at one index of `argv`, in one of three forms:
`long=VALUE`, a name and `VALUE` in the next element, or `VALUE` right behind the
short name.

For the first form it compares no more bytes than there are in front of the `=`,
so that it also takes an abbreviation of the long name.  `getOpt_meets_iff` says
that this is what it gets wrong, but for a long name that is empty or starts with
`=`, which it does not find in this form at all.

An element at or behind `argc` is not there: a function that reads one returns
`none`.  What a function changes through a reference is a part of its result.
-/

namespace Tidbits.Crts

open Tidbits.Libc

/-! ## The function -/

/-- `=`. -/
def equals : UInt8 := 61

/-- `!strncmp(a, b, n)`. -/
def sameStart (a b : List UInt8) (n : ℕ) : Bool := a.take n = b.take n

/-- `!strcmp(a, b)`. -/
def same (a b : CString) : Bool := a.bytes = b.bytes

/-- `shorT && shorT[0]`. -/
def isGiven (shorT : Option CString) : Bool := shorT.any fun t ↦ t.bytes ≠ []

/-- The form `long=VALUE`, of the string at the index. -/
def longForm (s lonG : CString) : Option (List UInt8) :=
  let len := (s.bytes.takeWhile (· ≠ equals)).length
  match s.bytes.drop len with
  | [] => none
  | _ :: str => if len ≠ 0 ∧ sameStart s.bytes lonG.bytes len ∧ str ≠ [] then some str else none

/-- The form `short VALUE` or `long VALUE`, of the string at the index. -/
def nextForm (s : CString) (shorT : Option CString) (lonG : CString) : Option Unit :=
  if same s lonG || (isGiven shorT && shorT.any (same s)) then some () else none

/-- The form `shortVALUE`, of the string at the index. -/
def shortForm (s : CString) (shorT : Option CString) : Option (List UInt8) :=
  match shorT with
  | none => none
  | some t =>
      if t.bytes = [] then none
      else if sameStart s.bytes t.bytes t.bytes.length ∧ s.bytes[t.bytes.length]? ≠ none then
        some (s.bytes.drop t.bytes.length)
      else none

/-- A condition on `argv[i]` that is looked at only if there are `n` elements from it on; the
condition does not hold if there are not. -/
def examine {β : Type} (argv : List CString) (i n : ℕ) (f : CString → Option β) :
    Option (Option β) :=
  if i + n ≤ argv.length then argv[i]?.map f else some none

/-- `get_opt`: what it returns, and `value` and `i` afterwards. -/
def getOpt (value : List UInt8) (shorT : Option CString) (lonG : CString) (argv : List CString)
    (i : ℕ) : Option (Bool × List UInt8 × ℕ) := do
  match ← examine argv i 1 (longForm · lonG) with
  | some str => return (true, str, i + 1)
  | none =>
      match ← examine argv i 2 (nextForm · shorT lonG) with
      | some () =>
          let str ← argv[i + 1]?
          return (true, str.bytes, i + 2)
      | none =>
          match ← examine argv i 1 (shortForm · shorT) with
          | some str => return (true, str, i + 1)
          | none => return (false, value, i)

/-! ## The documented forms -/

/-- The option is at the index `i` with this value, and takes so many elements. -/
inductive Documented (shorT : Option CString) (lonG : CString) (argv : List CString) (i : ℕ) :
    List UInt8 → ℕ → Prop
  | long {s : CString} {value : List UInt8} (hs : argv[i]? = some s)
      (heq : s.bytes = lonG.bytes ++ equals :: value) (hne : value ≠ []) :
      Documented shorT lonG argv i value 1
  | next {s v : CString} (hs : argv[i]? = some s)
      (hname : s.bytes = lonG.bytes ∨ ∃ t ∈ shorT, t.bytes ≠ [] ∧ s.bytes = t.bytes)
      (hv : argv[i + 1]? = some v) :
      Documented shorT lonG argv i v.bytes 2
  | short {s t : CString} {value : List UInt8} (hs : argv[i]? = some s) (ht : t ∈ shorT)
      (hgiven : t.bytes ≠ []) (heq : s.bytes = t.bytes ++ value) (hne : value ≠ []) :
      Documented shorT lonG argv i value 1

/-- What the call does is what the documented forms say. -/
def MeetsForms (shorT : Option CString) (lonG : CString) (argv : List CString) (i : ℕ)
    (value : List UInt8) : Bool × List UInt8 × ℕ → Prop
  | (true, value', i') => ∃ used, Documented shorT lonG argv i value' used ∧ i' = i + used
  | (false, value', i') =>
      (∀ v used, ¬ Documented shorT lonG argv i v used) ∧ value' = value ∧ i' = i

/-! ## The three forms -/

section Forms

variable {s t lonG : CString} {shorT : Option CString} {v : List UInt8}

theorem equals_notMem_takeWhile (l : List UInt8) : equals ∉ l.takeWhile (· ≠ equals) :=
  fun hmem ↦ absurd (List.mem_takeWhile_imp hmem) (by simp)

/-- Where the first `=` is. -/
theorem takeWhile_append_equals {p : List UInt8} (hp : equals ∉ p) (v : List UInt8) :
    (p ++ equals :: v).takeWhile (· ≠ equals) = p := by
  have hpos : ∀ c ∈ p, decide (c ≠ equals) = true :=
    fun c hc ↦ decide_eq_true fun heq ↦ hp (heq ▸ hc)
  rw [List.takeWhile_append_of_pos hpos]
  simp

theorem drop_length_takeWhile (p : UInt8 → Bool) (l : List UInt8) :
    l.drop (l.takeWhile p).length = l.dropWhile p := by
  have h : (l.takeWhile p ++ l.dropWhile p).drop (l.takeWhile p).length = l.dropWhile p :=
    List.drop_left
  rwa [List.takeWhile_append_dropWhile] at h

/-- **The long form takes every start of the long name.** -/
theorem longForm_eq_some :
    longForm s lonG = some v ↔ ∃ p, p ≠ [] ∧ p <+: lonG.bytes ∧ equals ∉ p ∧
      s.bytes = p ++ equals :: v ∧ v ≠ [] := by
  unfold longForm
  dsimp only
  constructor
  · intro h
    split at h
    · cases h
    rename_i c str hdrop
    split_ifs at h with hform
    obtain ⟨hpos, hstart, hstr⟩ := hform
    rw [← Option.some.inj h]
    rw [drop_length_takeWhile] at hdrop
    have hc : c = equals := by
      have hhead := List.head?_dropWhile_not (· ≠ equals) s.bytes
      rw [hdrop] at hhead
      simpa using hhead
    refine ⟨_, List.length_pos_iff.mp (Nat.pos_of_ne_zero hpos), ?_,
      equals_notMem_takeWhile s.bytes, ?_, hstr⟩
    · have htake := of_decide_eq_true hstart
      rw [← List.prefix_iff_eq_take.mp (List.takeWhile_prefix _)] at htake
      rw [htake]
      exact List.take_prefix _ _
    · have hsplit : s.bytes.takeWhile (· ≠ equals) ++ s.bytes.dropWhile (· ≠ equals) = s.bytes :=
        List.takeWhile_append_dropWhile
      rw [hdrop, hc] at hsplit
      exact hsplit.symm
  · rintro ⟨p, hne, hstart, hp, hs, hv⟩
    have htake : s.bytes.take p.length = lonG.bytes.take p.length := by
      rw [hs, List.take_left]
      exact List.prefix_iff_eq_take.mp hstart
    have hfirst : s.bytes.takeWhile (· ≠ equals) = p := by
      rw [hs]
      exact takeWhile_append_equals hp v
    have hdrop : s.bytes.drop p.length = equals :: v := by
      rw [hs, List.drop_left]
    rw [hfirst, hdrop]
    exact if_pos ⟨fun hzero ↦ hne (List.length_eq_zero_iff.mp hzero), decide_eq_true htake, hv⟩

theorem nextForm_iff :
    nextForm s shorT lonG = some () ↔
      s.bytes = lonG.bytes ∨ ∃ t ∈ shorT, t.bytes ≠ [] ∧ s.bytes = t.bytes := by
  cases shorT <;> simp [nextForm, same, isGiven, or_iff_not_imp_left]

theorem shortForm_eq_some :
    shortForm s shorT = some v ↔ ∃ t ∈ shorT, t.bytes ≠ [] ∧ s.bytes = t.bytes ++ v ∧ v ≠ [] := by
  cases shorT with
  | none => simp [shortForm]
  | some t =>
      simp only [shortForm, Option.mem_some_iff, exists_eq_left']
      split_ifs with hempty hform
      · exact iff_of_false (fun h ↦ nomatch h) fun h ↦ h.1 hempty
      · have htake := of_decide_eq_true hform.1
        rw [List.take_length] at htake
        have hsplit := List.take_append_drop t.bytes.length s.bytes
        rw [htake] at hsplit
        have hrest : s.bytes.drop t.bytes.length ≠ [] := by
          intro hnil
          refine hform.2 (List.getElem?_eq_none ?_)
          exact List.drop_eq_nil_iff.mp hnil
        constructor
        · intro h
          rw [← Option.some.inj h]
          exact ⟨hempty, hsplit.symm, hrest⟩
        · rintro ⟨-, heq, -⟩
          rw [heq, List.drop_left]
      · refine iff_of_false (fun h ↦ nomatch h) ?_
        rintro ⟨-, heq, hne⟩
        refine hform ⟨decide_eq_true ?_, ?_⟩
        · rw [heq, List.take_left, List.take_length]
        · intro hnone
          rw [heq, List.getElem?_append_right (Nat.le_refl _), Nat.sub_self] at hnone
          have hle := List.getElem?_eq_none_iff.mp hnone
          exact hne (List.length_eq_zero_iff.mp (Nat.le_zero.mp hle))

end Forms

/-! ## What the call does -/

variable {value : List UInt8} {shorT : Option CString} {lonG : CString} {argv : List CString}
  {i : ℕ}

theorem examine_of_lt {β : Type} {n : ℕ} {f : CString → Option β} (h : argv.length < i + n) :
    examine argv i n f = some none :=
  if_neg (Nat.not_le_of_lt h)

theorem examine_of_le {β : Type} {n : ℕ} {f : CString → Option β} {s : CString}
    (hs : argv[i]? = some s) (h : i + n ≤ argv.length) : examine argv i n f = some (f s) := by
  rw [examine, if_pos h, hs]
  rfl

theorem getOpt_of_le (hle : argv.length ≤ i) :
    getOpt value shorT lonG argv i = some (false, value, i) := by
  unfold getOpt
  rw [examine_of_lt (by omega), examine_of_lt (by omega), examine_of_lt (by omega)]
  rfl

/-- What the call does with the string at its index, in the order of the three forms. -/
theorem getOpt_eq {s : CString} (hs : argv[i]? = some s) :
    getOpt value shorT lonG argv i = some (
      match longForm s lonG with
      | some str => (true, str, i + 1)
      | none =>
          match (nextForm s shorT lonG).bind fun _ ↦ argv[i + 1]? with
          | some v => (true, v.bytes, i + 2)
          | none =>
              match shortForm s shorT with
              | some str => (true, str, i + 1)
              | none => (false, value, i)) := by
  have hi : i + 1 ≤ argv.length := (List.getElem?_eq_some_iff.mp hs).1
  unfold getOpt
  rw [examine_of_le hs hi, examine_of_le hs hi]
  cases hlong : longForm s lonG with
  | some str => rfl
  | none =>
      cases hv : argv[i + 1]? with
      | none =>
          have hlast : argv.length < i + 2 := Nat.lt_succ_of_le (List.getElem?_eq_none_iff.mp hv)
          rw [examine_of_lt hlast, Option.bind_fun_none]
          cases shortForm s shorT <;> rfl
      | some v =>
          rw [examine_of_le hs (List.getElem?_eq_some_iff.mp hv).1]
          cases nextForm s shorT lonG <;> cases shortForm s shorT <;> rfl

/-- **No element at or behind `argc` is read**, and nothing changes unless the option is taken,
which then has one element or two. -/
theorem getOpt_cases (shorT : Option CString) (lonG : CString) (argv : List CString) (i : ℕ) :
    (∀ value, getOpt value shorT lonG argv i = some (false, value, i)) ∨
      ∃ str i', (∀ value, getOpt value shorT lonG argv i = some (true, str, i')) ∧
        i < i' ∧ i' ≤ argv.length := by
  rcases hs : argv[i]? with - | s
  · exact .inl fun value ↦ getOpt_of_le (List.getElem?_eq_none_iff.mp hs)
  have hi : i < argv.length := (List.getElem?_eq_some_iff.mp hs).1
  simp only [getOpt_eq hs]
  cases longForm s lonG with
  | some str => exact .inr ⟨str, i + 1, fun _ ↦ rfl, Nat.lt_succ_self i, hi⟩
  | none =>
      cases hnext : (nextForm s shorT lonG).bind fun _ ↦ argv[i + 1]? with
      | some v =>
          obtain ⟨_, -, hv⟩ := Option.bind_eq_some_iff.mp hnext
          exact .inr ⟨v.bytes, i + 2, fun _ ↦ rfl, by omega, (List.getElem?_eq_some_iff.mp hv).1⟩
      | none =>
          cases shortForm s shorT with
          | some str => exact .inr ⟨str, i + 1, fun _ ↦ rfl, Nat.lt_succ_self i, hi⟩
          | none => exact .inl fun _ ↦ rfl

/-! ## Which calls do what is documented -/

/-- The text in front of the `=` is an abbreviation of the long name, and not the start of the short
form. -/
def TakesAbbreviation (shorT : Option CString) (lonG : CString) (argv : List CString) (i : ℕ) :
    Prop :=
  ∃ s p v, argv[i]? = some s ∧ s.bytes = p ++ equals :: v ∧ equals ∉ p ∧ p ≠ [] ∧ v ≠ [] ∧
    p <+: lonG.bytes ∧ p ≠ lonG.bytes ∧ ∀ t ∈ shorT, t.bytes ≠ p ++ [equals]

/-- There is nothing in front of the first `=` of the form `long=VALUE`, and no other form applies
to the string. -/
def MissesLong (shorT : Option CString) (lonG : CString) (argv : List CString) (i : ℕ) : Prop :=
  (lonG.bytes = [] ∨ lonG.bytes.head? = some equals) ∧
    ∃ s v, argv[i]? = some s ∧ s.bytes = lonG.bytes ++ equals :: v ∧ v ≠ [] ∧
      ∀ t ∈ shorT, t.bytes ≠ [] → (t.bytes = s.bytes → argv.length ≤ i + 1) ∧
        (t.bytes <+: s.bytes → t.bytes = s.bytes)

/-- Where the first `=` is does not depend on how the string was written. -/
theorem append_equals_inj {p q v w : List UInt8} (hp : equals ∉ p) (hq : equals ∉ q)
    (h : p ++ equals :: v = q ++ equals :: w) : p = q ∧ v = w := by
  have hpq : p = q := by
    rw [← takeWhile_append_equals hp v, h, takeWhile_append_equals hq w]
  subst hpq
  exact ⟨rfl, (List.cons.inj (List.append_cancel_left h)).2⟩

section Iff

variable {s : CString} {v : List UInt8}

/-- When the long form takes a string, only the text in front of the `=` matters. -/
theorem meetsForms_of_longForm (hs : argv[i]? = some s) (hlong : longForm s lonG = some v) :
    MeetsForms shorT lonG argv i value (true, v, i + 1) ↔
      ¬ (TakesAbbreviation shorT lonG argv i ∨ MissesLong shorT lonG argv i) := by
  obtain ⟨p, hne, hstart, hp, heq, hv⟩ := longForm_eq_some.mp hlong
  have hmiss : ¬ MissesLong shorT lonG argv i := by
    rintro ⟨hempty | hhead, -⟩
    · rw [hempty] at hstart
      exact hne (List.prefix_nil.mp hstart)
    · obtain ⟨c, p, rfl⟩ := List.exists_cons_of_ne_nil hne
      obtain ⟨rest, hrest⟩ := hstart
      rw [← hrest, List.cons_append, List.head?_cons] at hhead
      exact hp (Option.some.inj hhead ▸ List.mem_cons_self)
  rw [or_iff_left hmiss]
  constructor
  · rintro ⟨used, hdoc, hused⟩ ⟨s', q, w, hs', heq', hq, -, -, -, hlonG, hshort⟩
    obtain rfl := Option.some.inj (hs.symm.trans hs')
    obtain ⟨rfl, rfl⟩ := append_equals_inj hp hq (heq.symm.trans heq')
    have hone : used = 1 := (Nat.add_left_cancel hused).symm
    cases hdoc with
    | long hs' heq' =>
        obtain rfl := Option.some.inj (hs.symm.trans hs')
        exact hlonG (List.append_cancel_right (heq.symm.trans heq'))
    | next => exact absurd hone (by decide)
    | short hs' ht hgiven heq' =>
        obtain rfl := Option.some.inj (hs.symm.trans hs')
        refine hshort _ ht (List.append_cancel_right (heq'.symm.trans ?_))
        rw [heq, List.append_assoc, List.singleton_append]
  · intro h
    refine ⟨1, ?_, rfl⟩
    by_cases hlonG : p = lonG.bytes
    · exact .long hs (hlonG ▸ heq) hv
    · have hshort : ∃ t ∈ shorT, t.bytes = p ++ [equals] := by
        by_contra hnone
        exact h ⟨s, p, v, hs, heq, hp, hne, hv, hstart, hlonG,
          fun t ht htp ↦ hnone ⟨t, ht, htp⟩⟩
      obtain ⟨t, ht, htp⟩ := hshort
      refine .short hs ht ?_ ?_ hv
      · rw [htp]
        exact List.concat_ne_nil _ _
      · rw [heq, htp, List.append_assoc, List.singleton_append]

/-- Only a long name without text in front of its `=` is not found in the long form. -/
theorem not_takesAbbreviation (hs : argv[i]? = some s) (hlong : longForm s lonG = none) :
    ¬ TakesAbbreviation shorT lonG argv i := by
  rintro ⟨s', p, v, hs', heq, hp, hne, hv, hstart, -, -⟩
  obtain rfl := Option.some.inj (hs.symm.trans hs')
  have hsome := longForm_eq_some.mpr ⟨p, hne, hstart, hp, heq, hv⟩
  exact nomatch hlong.symm.trans hsome

theorem lonG_of_longForm_eq_none (hlong : longForm s lonG = none)
    (heq : s.bytes = lonG.bytes ++ equals :: v) (hv : v ≠ []) :
    lonG.bytes = [] ∨ lonG.bytes.head? = some equals := by
  by_cases hmem : equals ∈ lonG.bytes
  · obtain ⟨p, r, hsplit, hp⟩ := List.eq_append_cons_of_mem hmem
    right
    cases p with
    | nil => rw [hsplit, List.nil_append, List.head?_cons]
    | cons c p =>
        have hsome : longForm s lonG = some (r ++ equals :: v) := by
          refine longForm_eq_some.mpr ⟨c :: p, List.cons_ne_nil _ _, ?_, hp, ?_, ?_⟩
          · rw [hsplit]
            exact List.prefix_append _ _
          · rw [heq, hsplit, List.append_assoc]
            rfl
          · exact List.append_ne_nil_of_right_ne_nil _ (List.cons_ne_nil _ _)
        exact nomatch hlong.symm.trans hsome
  · left
    by_contra hne
    have hsome : longForm s lonG = some v :=
      longForm_eq_some.mpr ⟨lonG.bytes, hne, List.prefix_refl _, hmem, heq, hv⟩
    exact nomatch hlong.symm.trans hsome

/-- Behind the long form, the call takes a next element or the short form if they are there. -/
theorem meetsForms_of_nextForm {w : CString} (hs : argv[i]? = some s)
    (hnext : nextForm s shorT lonG = some ()) (hw : argv[i + 1]? = some w) :
    MeetsForms shorT lonG argv i value (true, w.bytes, i + 2) ↔
      ¬ MissesLong shorT lonG argv i := by
  have hname := nextForm_iff.mp hnext
  refine iff_of_true ⟨2, .next hs hname hw, rfl⟩ ?_
  rintro ⟨-, s', u, hs', heq, -, hother⟩
  obtain rfl := Option.some.inj (hs.symm.trans hs')
  rcases hname with hlonG | ⟨t, ht, hgiven, hsame⟩
  · rw [hlonG] at heq
    have hlength := congrArg List.length heq
    rw [List.length_append, List.length_cons] at hlength
    omega
  · have hlast := (hother t ht hgiven).1 hsame.symm
    exact absurd (List.getElem?_eq_some_iff.mp hw).1 (Nat.not_lt_of_le hlast)

theorem meetsForms_of_shortForm (hs : argv[i]? = some s) (hshort : shortForm s shorT = some v) :
    MeetsForms shorT lonG argv i value (true, v, i + 1) ↔ ¬ MissesLong shorT lonG argv i := by
  obtain ⟨t, ht, hgiven, heq, hv⟩ := shortForm_eq_some.mp hshort
  refine iff_of_true ⟨1, .short hs ht hgiven heq hv, rfl⟩ ?_
  rintro ⟨-, s', u, hs', -, -, hother⟩
  obtain rfl := Option.some.inj (hs.symm.trans hs')
  have hsame := (hother t ht hgiven).2 (heq ▸ List.prefix_append _ _)
  rw [hsame] at heq
  exact hv (List.self_eq_append_right.mp heq)

/-- If the call takes nothing, the option is not there but for the missed form. -/
theorem meetsForms_false (hs : argv[i]? = some s) (hlong : longForm s lonG = none)
    (hnext : (nextForm s shorT lonG).bind (fun _ ↦ argv[i + 1]?) = none)
    (hshort : shortForm s shorT = none) :
    MeetsForms shorT lonG argv i value (false, value, i) ↔ ¬ MissesLong shorT lonG argv i := by
  constructor
  · rintro ⟨hnone, -⟩ ⟨-, s', v, hs', heq, hv, -⟩
    obtain rfl := Option.some.inj (hs.symm.trans hs')
    exact hnone v 1 (.long hs heq hv)
  · intro hmiss
    refine ⟨?_, rfl, rfl⟩
    intro v used hdoc
    cases hdoc with
    | long hs' heq hv =>
        obtain rfl := Option.some.inj (hs.symm.trans hs')
        refine hmiss ⟨lonG_of_longForm_eq_none hlong heq hv, s, v, hs, heq, hv, ?_⟩
        intro t ht hgiven
        constructor
        · intro hsame
          have hname : nextForm s shorT lonG = some () :=
            nextForm_iff.mpr (.inr ⟨t, ht, hgiven, hsame.symm⟩)
          rw [hname, Option.bind_some] at hnext
          exact List.getElem?_eq_none_iff.mp hnext
        · rintro ⟨w, hw⟩
          by_contra hne
          have hsome : shortForm s shorT = some w := by
            refine shortForm_eq_some.mpr ⟨t, ht, hgiven, hw.symm, ?_⟩
            rintro rfl
            exact hne (by rw [← hw, List.append_nil])
          exact nomatch hshort.symm.trans hsome
    | next hs' hname hw =>
        obtain rfl := Option.some.inj (hs.symm.trans hs')
        rw [nextForm_iff.mpr hname, Option.bind_some, hw] at hnext
        exact nomatch hnext
    | short hs' ht hgiven heq hv =>
        obtain rfl := Option.some.inj (hs.symm.trans hs')
        have hsome := shortForm_eq_some.mpr ⟨_, ht, hgiven, heq, hv⟩
        exact nomatch hshort.symm.trans hsome

end Iff

/-- **When a call does what the documented forms say.**  The text in front of the `=` is not an
abbreviation of the long name. -/
theorem getOpt_meets_iff (value : List UInt8) (shorT : Option CString) (lonG : CString)
    (argv : List CString) (i : ℕ) :
    (∃ r, getOpt value shorT lonG argv i = some r ∧ MeetsForms shorT lonG argv i value r) ↔
      ¬ (TakesAbbreviation shorT lonG argv i ∨ MissesLong shorT lonG argv i) := by
  rcases hs : argv[i]? with - | s
  · have hnone : ∀ {s}, argv[i]? ≠ some s := fun h ↦ nomatch hs.symm.trans h
    rw [getOpt_of_le (List.getElem?_eq_none_iff.mp hs)]
    refine iff_of_true ⟨_, rfl, ?_, rfl, rfl⟩ ?_
    · intro v used hdoc
      cases hdoc with
      | long hs' => exact hnone hs'
      | next hs' => exact hnone hs'
      | short hs' => exact hnone hs'
    · rintro (⟨s, p, v, hs', -⟩ | ⟨-, s, v, hs', -⟩)
      · exact hnone hs'
      · exact hnone hs'
  · rw [getOpt_eq hs]
    simp only [Option.some.injEq, exists_eq_left']
    cases hlong : longForm s lonG with
    | some v => exact meetsForms_of_longForm hs hlong
    | none =>
        rw [or_iff_right (not_takesAbbreviation hs hlong)]
        cases hnext : (nextForm s shorT lonG).bind fun _ ↦ argv[i + 1]? with
        | some w =>
            obtain ⟨_, hname, hw⟩ := Option.bind_eq_some_iff.mp hnext
            exact meetsForms_of_nextForm hs hname hw
        | none =>
            cases hshort : shortForm s shorT with
            | some v => exact meetsForms_of_shortForm hs hshort
            | none => exact meetsForms_false hs hlong hnext hshort

/-- The string `--rx-freq`. -/
def rxFreqLong : CString := ⟨[45, 45, 114, 120, 45, 102, 114, 101, 113], by decide⟩

/-- The string `-f`. -/
def rxFreqShort : CString := ⟨[45, 102], by decide⟩

/-- The string `--rx=5`. -/
def rx5 : CString := ⟨[45, 45, 114, 120, 61, 53], by decide⟩

/-- `--rx=5` sets the frequency of the receiver. -/
theorem getOpt_rx5 :
    ¬ ∀ value shorT lonG argv i,
      ∃ r, getOpt value shorT lonG argv i = some r ∧ MeetsForms shorT lonG argv i value r := by
  intro h
  obtain ⟨r, hr, hmeets⟩ := h [] (some rxFreqShort) rxFreqLong [rx5] 0
  have htaken : getOpt [] (some rxFreqShort) rxFreqLong [rx5] 0 = some (true, [53], 1) :=
    getOpt_eq (s := rx5) rfl
  obtain rfl := Option.some.inj (htaken.symm.trans hr)
  refine (meetsForms_of_longForm rfl rfl).mp hmeets (.inl ⟨rx5, [45, 45, 114, 120], [53], rfl, rfl,
    by decide, by decide, by decide, by decide, by decide, ?_⟩)
  intro t ht
  rw [← Option.some.inj ht]
  decide

end Tidbits.Crts
