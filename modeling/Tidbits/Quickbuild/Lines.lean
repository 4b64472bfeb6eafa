import Mathlib.Data.List.TakeWhile
import Tidbits.Quickbuild.Arguments

/-!
# Option arguments of one line

In an argument without an end of a line `^` and `$` only match at its ends, and the
regular expressions of `parse_user_config_opts` say what it looks like.  `Reads` is
the loop's reading of such arguments.
-/

namespace Tidbits.Quickbuild

/-- `--name`. -/
def long (name : Str) : Str := '-' :: '-' :: name

/-- `--name=value`. -/
def assignment (name value : Str) : Str := long (name ++ '=' :: value)

variable {p : Str → Bool} {m : Str → Option Str} {s n v arg next : Str}

/-! ## The regular expressions -/

theorem anyLine_false (h : '\n' ∉ s) : anyLine p false s = false := by
  induction s with
  | nil => rfl
  | cons c s ih =>
      obtain ⟨hc, hs⟩ := List.ne_and_not_mem_of_not_mem_cons h
      rw [anyLine, beq_false_of_ne hc.symm, ih hs]
      rfl

theorem anyLine_true (h : '\n' ∉ s) : anyLine p true s = p s := by
  cases s with
  | nil => rfl
  | cons c s =>
      obtain ⟨hc, hs⟩ := List.ne_and_not_mem_of_not_mem_cons h
      rw [anyLine, beq_false_of_ne hc.symm, anyLine_false hs, Bool.true_and, Bool.or_false]

theorem subLine_of_some (h : m s = some v) (hs : s ≠ []) : subLine m true s = v := by
  obtain ⟨c, s, rfl⟩ := List.exists_cons_of_ne_nil hs
  rw [subLine, if_pos rfl, h]

theorem eq_append_of_mem (h : '=' ∈ s) : ∃ n v, '=' ∉ n ∧ s = n ++ '=' :: v := by
  obtain ⟨n, v, hs, hn⟩ := List.eq_append_cons_of_mem h
  exact ⟨n, v, hn, hs⟩

theorem forall_ne (hn : '=' ∉ n) : ∀ c ∈ n, decide (c ≠ '=') :=
  fun _ hc ↦ decide_eq_true fun heq ↦ hn (heq ▸ hc)

theorem word_append (hn : '=' ∉ n) (s : Str) : word (n ++ '=' :: s) = n := by
  rw [word, List.takeWhile_append_of_pos (forall_ne hn)]
  simp

theorem behindWord_append (hn : '=' ∉ n) (s : Str) : behindWord (n ++ '=' :: s) = '=' :: s := by
  rw [behindWord, List.dropWhile_append_of_pos (forall_ne hn)]
  simp

theorem word_eq_self (hn : '=' ∉ n) : word n = n := List.takeWhile_eq_self_iff.2 (forall_ne hn)

theorem behindWord_eq_nil (hn : '=' ∉ n) : behindWord n = [] :=
  List.dropWhile_eq_nil_iff.2 (forall_ne hn)

theorem endsLine_iff (h : '\n' ∉ s) : endsLine s ↔ s ≠ [] ∧ '=' ∉ s := by
  rw [endsLine, decide_eq_true_iff]
  by_cases hs : '=' ∈ s
  · obtain ⟨n, v, hn, rfl⟩ := eq_append_of_mem hs
    rw [word_append hn, behindWord_append hn]
    have hdrop : '\n' ∉ n.drop 1 := fun hmem ↦
      h (List.mem_append_left _ (List.mem_of_mem_drop hmem))
    rw [or_iff_left hdrop]
    simp
  · rw [word_eq_self hs, behindWord_eq_nil hs]
    simp [hs]

theorem dashes_eq_some_iff : dashes s = some n ↔ s = long n := by
  rw [long]
  constructor
  · intro h
    unfold dashes at h
    split at h
    · rw [Option.some.inj h]
    · cases h
  · rintro rfl
    rfl

theorem dashesName_assignment (hne : n ≠ []) (hn : '=' ∉ n) :
    dashesName (assignment n v) = some v := by
  rw [dashesName, dashes_eq_some_iff.2 (rfl : assignment n v = long _)]
  simp [word_append hn, behindWord_append hn, hne]

theorem eq_assignment_of_dashesName (h : dashesName s = some v) :
    ∃ n, n ≠ [] ∧ '=' ∉ n ∧ s = assignment n v := by
  cases hs : dashes s with
  | none => rw [dashesName, hs] at h; cases h
  | some s' =>
      obtain rfl := dashes_eq_some_iff.1 hs
      by_cases hmem : '=' ∈ s'
      · obtain ⟨n, v', hn, rfl⟩ := eq_append_of_mem hmem
        have hne : n ≠ [] := by
          rintro rfl
          rw [dashesName, hs] at h
          cases h
        obtain rfl : v' = v := Option.some.inj ((dashesName_assignment hne hn).symm.trans h)
        exact ⟨n, hne, hn, rfl⟩
      · simp [dashesName, hs, behindWord_eq_nil hmem] at h

theorem isAssignment_iff (h : '\n' ∉ arg) : isAssignment arg ↔
    ∃ n v, n ≠ [] ∧ '=' ∉ n ∧ v ≠ [] ∧ '=' ∉ v ∧ arg = assignment n v := by
  rw [isAssignment, anyLine_true h, Option.any_eq_true]
  constructor
  · rintro ⟨v, hv, hends⟩
    obtain ⟨n, hne, hn, rfl⟩ := eq_assignment_of_dashesName hv
    have hv' : '\n' ∉ v := fun hmem ↦ h (by simp [assignment, long, hmem])
    exact ⟨n, v, hne, hn, ((endsLine_iff hv').1 hends).1, ((endsLine_iff hv').1 hends).2, rfl⟩
  · rintro ⟨n, v, hne, hn, hvne, hv, rfl⟩
    have hv' : '\n' ∉ v := fun hmem ↦ h (by simp [assignment, long, hmem])
    exact ⟨v, dashesName_assignment hne hn, (endsLine_iff hv').2 ⟨hvne, hv⟩⟩

theorem isLong_iff (h : '\n' ∉ arg) : isLong arg ↔ ∃ n, n ≠ [] ∧ '=' ∉ n ∧ arg = long n := by
  rw [isLong, anyLine_true h, Option.any_eq_true]
  constructor
  · rintro ⟨n, hn, hends⟩
    obtain rfl := dashes_eq_some_iff.1 hn
    have hn' : '\n' ∉ n := fun hmem ↦ h (by simp [long, hmem])
    exact ⟨n, ((endsLine_iff hn').1 hends).1, ((endsLine_iff hn').1 hends).2, rfl⟩
  · rintro ⟨n, hne, hn, rfl⟩
    have hn' : '\n' ∉ n := fun hmem ↦ h (by simp [long, hmem])
    exact ⟨n, dashes_eq_some_iff.2 rfl, (endsLine_iff hn').2 ⟨hne, hn⟩⟩

theorem isValue_imp (h : '\n' ∉ next) (hvalue : isValue next) : next ≠ [] ∧ '=' ∉ next := by
  rw [isValue, anyLine_true h, Bool.or_eq_true, Bool.and_eq_true, decide_eq_true_iff,
    decide_eq_true_iff] at hvalue
  obtain ⟨-, hends⟩ | rfl := hvalue
  · exact (endsLine_iff h).1 hends
  · exact ⟨List.cons_ne_nil _ _, by decide⟩

theorem dropValue_append (hn : '=' ∉ n) (hv : '=' ∉ v) : dropValue (n ++ '=' :: v) = n := by
  induction n with
  | nil => rw [List.nil_append, dropValue, if_pos ⟨rfl, behindWord_eq_nil hv⟩]
  | cons c n ih =>
      obtain ⟨hc, hn⟩ := List.ne_and_not_mem_of_not_mem_cons hn
      rw [List.cons_append, dropValue, if_neg fun h ↦ hc h.1.symm, if_neg fun h ↦ hc h.1.symm,
        ih hn]

/-! ## The arguments -/

/-- What the loop reads in arguments of one line. -/
inductive Reads : List Str → List Token → Prop where
  | nil : Reads [] []
  | assignment {args : List Str} {ts : List Token} (n v : Str) (hne : n ≠ []) (hn : '=' ∉ n)
      (hvne : v ≠ []) (hv : '=' ∉ v) (h : Reads args ts) :
      Reads (assignment n v :: args) (.option (underscored n) (some v) :: ts)
  | value {args : List Str} {ts : List Token} (n v : Str) (hne : n ≠ []) (hn : '=' ∉ n)
      (hvne : v ≠ []) (hv : '=' ∉ v) (h : Reads args ts) :
      Reads (long n :: v :: args) (.option (underscored n) (some v) :: ts)
  | switch {args : List Str} {ts : List Token} (n : Str) (hne : n ≠ []) (hn : '=' ∉ n)
      (h : Reads args ts) : Reads (long n :: args) (.option (underscored n) none :: ts)
  | bad {args : List Str} {ts : List Token} (arg : Str) (h : Reads args ts) :
      Reads (arg :: args) (.bad arg :: ts)

theorem tokens_assignment (hne : n ≠ []) (hn : '=' ∉ n) (hvne : v ≠ []) (hv : '=' ∉ v)
    (hline : '\n' ∉ assignment n v) (args : List Str) : tokens (assignment n v :: args) =
      .option (underscored n) (some v) :: tokens args := by
  have hassign : isAssignment (assignment n v) :=
    (isAssignment_iff hline).2 ⟨n, v, hne, hn, hvne, hv, rfl⟩
  have hnil : assignment n v ≠ [] := List.cons_ne_nil _ _
  have hdashes : dashes (assignment n v) = some (n ++ '=' :: v) := dashes_eq_some_iff.2 rfl
  rw [tokens, if_pos hassign, subLine_of_some (dashesName_assignment hne hn) hnil,
    subLine_of_some hdashes hnil, dropValue_append hn hv]

theorem reads_tokens {args : List Str} (h : ∀ arg ∈ args, '\n' ∉ arg) :
    Reads args (tokens args) := by
  have hlong : ∀ arg, '\n' ∉ arg → isLong arg → ∃ n, n ≠ [] ∧ '=' ∉ n ∧ arg = long n ∧
      subLine dashes true arg = n := fun arg harg hlong ↦ by
    obtain ⟨n, hne, hn, rfl⟩ := (isLong_iff harg).1 hlong
    exact ⟨n, hne, hn, rfl, subLine_of_some (dashes_eq_some_iff.2 rfl) (List.cons_ne_nil _ _)⟩
  induction args using tokens.induct with
  | case1 => exact .nil
  | case2 arg args hassign ih =>
      obtain ⟨harg, hargs⟩ := List.forall_mem_cons.1 h
      obtain ⟨n, v, hne, hn, hvne, hv, rfl⟩ := (isAssignment_iff harg).1 hassign
      rw [tokens_assignment hne hn hvne hv harg]
      exact .assignment n v hne hn hvne hv (ih hargs)
  | case3 arg hassign hisLong =>
      obtain ⟨n, hne, hn, rfl, hsub⟩ := hlong arg (h arg List.mem_cons_self) hisLong
      rw [tokens, if_neg hassign, if_pos hisLong, hsub]
      exact .switch n hne hn .nil
  | case4 arg hassign hisLong next rest hvalue ih =>
      obtain ⟨harg, hargs⟩ := List.forall_mem_cons.1 h
      obtain ⟨hnext, hrest⟩ := List.forall_mem_cons.1 hargs
      obtain ⟨n, hne, hn, rfl, hsub⟩ := hlong arg harg hisLong
      obtain ⟨hvne, hv⟩ := isValue_imp hnext hvalue
      rw [tokens, if_neg hassign, if_pos hisLong, hsub]
      simp only [if_pos hvalue]
      exact .value n next hne hn hvne hv (ih hrest)
  | case5 arg hassign hisLong next rest hvalue ih =>
      obtain ⟨harg, hargs⟩ := List.forall_mem_cons.1 h
      obtain ⟨n, hne, hn, rfl, hsub⟩ := hlong arg harg hisLong
      rw [tokens, if_neg hassign, if_pos hisLong, hsub]
      simp only [if_neg hvalue]
      exact .switch n hne hn (ih hargs)
  | case6 arg args hassign hisLong ih =>
      rw [tokens, if_neg hassign, if_neg hisLong]
      exact .bad arg (ih (List.forall_mem_cons.1 h).2)

/-- What a name or a value in an argument is at least. -/
def IsText (s : Str) : Prop := s ≠ [] ∧ '=' ∉ s

theorem sublist_assignment (n v : Str) :
    n.Sublist (assignment n v) ∧ v.Sublist (assignment n v) := by
  have hn : n.Sublist (n ++ '=' :: v) := List.sublist_append_left _ _
  have hv : v.Sublist (n ++ '=' :: v) :=
    (List.sublist_cons_self _ _).trans (List.sublist_append_right _ _)
  exact ⟨(hn.cons _).cons _, (hv.cons _).cons _⟩

/-- The name and the value of an option are texts in the arguments. -/
structure TextsOf (args : List Str) (opt : Str) (val : Option Str) : Prop where
  name : ∃ n, opt = underscored n ∧ IsText n ∧ n.Sublist args.flatten
  text : ∀ v ∈ val, IsText v ∧ v.Sublist args.flatten

theorem TextsOf.cons {args : List Str} {opt : Str} {val : Option Str} (h : TextsOf args opt val)
    (arg : Str) : TextsOf (arg :: args) opt val := by
  have hsub : args.flatten.Sublist (arg :: args).flatten := List.sublist_append_right _ _
  obtain ⟨n, hopt, hn, hmem⟩ := h.name
  exact ⟨⟨n, hopt, hn, hmem.trans hsub⟩,
    fun v hv ↦ ⟨(h.text v hv).1, (h.text v hv).2.trans hsub⟩⟩

theorem Reads.textsOf {args : List Str} {ts : List Token} {opt : Str} {val : Option Str}
    (h : Reads args ts) (hmem : .option opt val ∈ ts) : TextsOf args opt val := by
  induction h with
  | nil => cases hmem
  | @assignment args _ n v hne hn hvne hv _ ih =>
      rcases List.mem_cons.1 hmem with heq | hmem
      · obtain ⟨rfl, rfl⟩ := Token.option.inj heq
        obtain ⟨hn', hv'⟩ := sublist_assignment n v
        refine ⟨⟨n, rfl, ⟨hne, hn⟩, hn'.trans (List.sublist_append_left _ _)⟩, ?_⟩
        rintro _ ⟨⟩
        exact ⟨⟨hvne, hv⟩, hv'.trans (List.sublist_append_left _ _)⟩
      · exact (ih hmem).cons _
  | @value args _ n v hne hn hvne hv _ ih =>
      rcases List.mem_cons.1 hmem with heq | hmem
      · obtain ⟨rfl, rfl⟩ := Token.option.inj heq
        refine ⟨⟨n, rfl, ⟨hne, hn⟩, ?_⟩, ?_⟩
        · exact ((List.sublist_append_left n _).cons _).cons _
        · rintro _ ⟨⟩
          refine ⟨⟨hvne, hv⟩, ?_⟩
          exact (List.sublist_append_left v _).trans (List.sublist_append_right (long n) _)
      · exact ((ih hmem).cons _).cons _
  | switch n hne hn _ ih =>
      rcases List.mem_cons.1 hmem with heq | hmem
      · obtain ⟨rfl, rfl⟩ := Token.option.inj heq
        refine ⟨⟨n, rfl, ⟨hne, hn⟩, ?_⟩, nofun⟩
        exact ((List.sublist_append_left n _).cons _).cons _
      · exact (ih hmem).cons _
  | bad arg _ ih => exact (ih ((List.mem_cons.1 hmem).resolve_left nofun)).cons _

end Tidbits.Quickbuild
