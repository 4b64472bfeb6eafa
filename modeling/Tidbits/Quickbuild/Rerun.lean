import Tidbits.Quickbuild.Lines
import Tidbits.Quickbuild.Marks
import Tidbits.Sequence.ShellWords

/-!
# Running quickbuild again

`get_rerun_command` of `QBPackage` writes the options that the user set behind the path of
the script.  The makefile has the command in a variable, and a recipe of it runs the command
when a file of quickbuild has changed.

Nothing in the command is quoted.  `roundTrips_of_plain` says that the options come back if
what is written has nothing that `make` or the shell reads in another way, and
`plain_of_roundTrips` that they don't otherwise.

The latter is about packages that leave the marks to the user, and needs that
`File.expand_path` adds nothing of that kind: in a directory `/b --p .` the option `--p=.` is
written as `--p=/b --p .`, and comes back.
-/

namespace Tidbits.Quickbuild

open Tidbits.Sequence

/-! ## The recipe -/

/-- The characters of a shell command.  A pattern stays as it is: no file is named like an option,
so that none matches it.  Braces are ordinary, as the standard has it for `sh`; one that is `bash`
makes two words of `{a,b}`. -/
def shellKind (c : Char) : Shell.Kind :=
  if " \t".toList.contains c then .blank
  else if c = '\'' then .single
  else if c = '"' then .double
  else if c = '\\' then .escape
  else if "$`".toList.contains c then .substitution
  else if "\n;&|<>()".toList.contains c then .operator
  else .ordinary

/-- What `make` replaces or removes: variables, comments, and what is behind the line. -/
def makeSpecial (c : Char) : Bool := "$#\n".toList.contains c

/-- The words that the shell makes of the command in `qb_rebuild_command`, unless it or `make` does
more with it. -/
def recipeWords (command : Str) : Option (List Str) :=
  if command.any makeSpecial then none else Shell.words shellKind command

/-- What is always a part of a word, and of the name or the value in it. -/
def plain (c : Char) : Bool := !makeSpecial c && shellKind c = .ordinary && c ≠ '='

def IsPlain (s : Str) : Prop := s ≠ [] ∧ ∀ c ∈ s, plain c

theorem all_plain_iff (s : Str) : (!s.isEmpty && s.all plain) = true ↔ IsPlain s := by
  simp [IsPlain]

instance : DecidablePred IsPlain := fun s ↦ decidable_of_iff _ (all_plain_iff s)

/-! ## The command -/

/-- The first call, whose result is kept in `@@rerun_command_cache`; `file` is `__FILE__`. -/
def getRerunCommand (file : Str) (o : Options) : Str :=
  file ++ o.marked.flatMap fun e ↦ " --".toList ++ e.1 ++ '=' :: e.2

/-- The words of the command are the script and arguments that give the same options again. -/
def RoundTrips (expand : Str → Str) (info : Info) (file : Str) (o o₁ : Options) : Prop :=
  ∃ args o₂, recipeWords (getRerunCommand file o₁) = some (file :: args) ∧
    parseUserConfigOpts expand info o args = .ok o₂ ∧ o₂.Agrees o₁

/-- The options that a package marks itself are written too.  Each is found under its name, and is
plain unless the user gives another value. -/
structure PlainMarks (expand : Str → Str) (o : Options) (args : List Str) : Prop where
  finds : o.Finds o
  names : ∀ k v, (k, v) ∈ o.marked → IsPlain k ∧ '-' ∉ k
  values : ∀ k v, (k, v) ∈ o.marked → o.given expand args k = none → IsPlain v
  expanded : ∀ k v, (k, v) ∈ markedIn id o.path → expand v = v

/-- The path of the script, and the names and values of the options that the user gives, are
plain. -/
structure Plain (expand : Str → Str) (file : Str) (o : Options) (args : List Str) : Prop where
  marks : PlainMarks expand o args
  file_ne_nil : file ≠ []
  file : ∀ c ∈ file, c = '=' ∨ plain c
  names : ∀ opt val, .option opt val ∈ tokens args → IsPlain opt
  values : ∀ name val, userValue o args name = some val →
    IsPlain (if (o.path.get name).isSome then expand val else val)

variable {expand : Str → Str} {info : Info} {file : Str} {o o₁ : Options} {args : List Str}
  {k v : Str}

/-! ## Plain options come back -/

theorem isPlain_boolToS : ∀ b, IsPlain (boolToS b) := by decide

/-- The names and the texts that are given are plain. -/
theorem Plain.isPlain_of_given (h : Plain expand file o args)
    (hgiven : o.given expand args k = some v) : IsPlain k ∧ IsPlain v := by
  rcases given_eq_some_iff.1 hgiven with ⟨-, hswitch⟩ | ⟨-, hstring⟩ | ⟨hpath, hvalue⟩
  · obtain ⟨val, hval, rfl⟩ := Option.map_eq_some_iff.1 hswitch
    exact ⟨h.names k val (exists_token_of_userSwitch hval), isPlain_boolToS _⟩
  · rw [Option.map_id, id, userString] at hstring
    split_ifs at hstring with hpath
    refine ⟨h.names k _ (exists_token_of_userValue hstring), ?_⟩
    have hv := h.values k v hstring
    rwa [if_neg hpath] at hv
  · obtain ⟨val, hval, rfl⟩ := Option.map_eq_some_iff.1 hvalue
    refine ⟨h.names k _ (exists_token_of_userValue hval), ?_⟩
    have hv := h.values k val hval
    rwa [if_pos hpath] at hv

/-- The words behind the script. -/
def Options.arguments (o : Options) : List Str := o.marked.map fun e ↦ assignment e.1 e.2

theorem getRerunCommand_eq (file : Str) (o : Options) :
    getRerunCommand file o = file ++ o.arguments.flatMap fun w ↦ ' ' :: w := by
  rw [getRerunCommand, Options.arguments, List.flatMap_map]
  rfl

theorem through_of_plain {c : Char} (h : c = '=' ∨ plain c) :
    makeSpecial c = false ∧ shellKind c = .ordinary := by
  rcases h with rfl | h
  · exact ⟨by decide, by decide⟩
  · simp only [plain, Bool.and_eq_true, Bool.not_eq_true', decide_eq_true_eq] at h
    exact h.1

theorem through_assignment (hk : IsPlain k) (hv : IsPlain v) :
    ∀ c ∈ assignment k v, makeSpecial c = false ∧ shellKind c = .ordinary := by
  intro c hc
  simp only [assignment, long, List.mem_cons, List.mem_append] at hc
  obtain rfl | rfl | hc | rfl | hc := hc
  · exact ⟨by decide, by decide⟩
  · exact ⟨by decide, by decide⟩
  · exact through_of_plain (.inr (hk.2 c hc))
  · exact through_of_plain (.inl rfl)
  · exact through_of_plain (.inr (hv.2 c hc))

/-- The shell gets the words that were written. -/
theorem recipeWords_getRerunCommand (hne : file ≠ []) (hfile : ∀ c ∈ file, c = '=' ∨ plain c)
    (hplain : ∀ e ∈ o.marked, IsPlain e.1 ∧ IsPlain e.2) :
    recipeWords (getRerunCommand file o) = some (file :: o.arguments) := by
  have harguments : ∀ w ∈ o.arguments, w ≠ [] ∧
      ∀ c ∈ w, makeSpecial c = false ∧ shellKind c = .ordinary := fun w hw ↦ by
    obtain ⟨e, he, rfl⟩ := List.mem_map.1 hw
    exact ⟨List.cons_ne_nil _ _, through_assignment (hplain e he).1 (hplain e he).2⟩
  have hmake : ¬ (getRerunCommand file o).any makeSpecial := by
    rw [getRerunCommand_eq, List.any_eq_true]
    rintro ⟨c, hc, hspecial⟩
    rcases List.mem_append.1 hc with hc | hc
    · rw [(through_of_plain (hfile c hc)).1] at hspecial
      cases hspecial
    · obtain ⟨w, hw, hc⟩ := List.mem_flatMap.1 hc
      rcases List.mem_cons.1 hc with rfl | hc
      · exact absurd hspecial (by decide)
      · rw [((harguments w hw).2 c hc).1] at hspecial
        cases hspecial
  rw [recipeWords, if_neg hmake, getRerunCommand_eq]
  exact Shell.words_of_ordinary (by decide) ⟨hne, fun c hc ↦ (through_of_plain (hfile c hc)).2⟩
    fun w hw ↦ ⟨(harguments w hw).1, fun c hc ↦ ((harguments w hw).2 c hc).2⟩

theorem IsPlain.notMem {s : Str} (h : IsPlain s) : '=' ∉ s ∧ '\n' ∉ s :=
  ⟨fun hmem ↦ absurd (h.2 _ hmem) (by decide), fun hmem ↦ absurd (h.2 _ hmem) (by decide)⟩

/-- The loop reads what was written. -/
theorem tokens_arguments (hplain : ∀ e ∈ o.marked, IsPlain e.1 ∧ IsPlain e.2)
    (hname : ∀ e ∈ o.marked, underscored e.1 = e.1) :
    tokens o.arguments = o.marked.map fun e ↦ .option e.1 (some e.2) := by
  rw [Options.arguments]
  generalize o.marked = l at hplain hname
  induction l with
  | nil => rfl
  | cons e l ih =>
      obtain ⟨⟨hk, hv⟩, hplain⟩ := List.forall_mem_cons.1 hplain
      obtain ⟨he, hname⟩ := List.forall_mem_cons.1 hname
      have hline : '\n' ∉ assignment e.1 e.2 := by
        simp [assignment, long, hk.notMem.2, hv.notMem.2]
      rw [List.map_cons, tokens_assignment hk.1 hk.notMem.1 hv.1 hv.notMem.1 hline, he,
        ih hplain hname, List.map_cons]

theorem underscored_eq_self (h : '-' ∉ k) : underscored k = k := by
  have hsame : ∀ c ∈ k, (if c = '-' then '_' else c) = c := fun c hc ↦
    if_neg fun heq : c = '-' ↦ h (heq ▸ hc)
  exact (List.map_congr_left hsame).trans (List.map_id' k)

/-- What is written is plain, and its names are read as they are. -/
theorem Plain.isPlain_of_mem (hplain : Plain expand file o args)
    (h : parseUserConfigOpts expand info o args = .ok o₁) (hmem : (k, v) ∈ o₁.marked) :
    (IsPlain k ∧ IsPlain v) ∧ underscored k = k := by
  rcases (mem_marked_iff h hplain.marks.finds).1 hmem with hgiven | ⟨hnone, hmem⟩
  · obtain ⟨val, htoken, -⟩ := exists_token_of_given hgiven
    exact ⟨hplain.isPlain_of_given hgiven, underscored_of_mem_tokens htoken⟩
  · obtain ⟨hk, hdash⟩ := hplain.marks.names k v hmem
    exact ⟨⟨hk, hplain.marks.values k v hmem hnone⟩, underscored_eq_self hdash⟩

/-- If everything that is written is plain, it comes back. -/
theorem roundTrips_of_plain (hidem : ∀ s, expand (expand s) = expand s)
    (h : parseUserConfigOpts expand info o args = .ok o₁)
    (hplain : Plain expand file o args) : RoundTrips expand info file o o₁ := by
  have hmarked : ∀ e ∈ o₁.marked, IsPlain e.1 ∧ IsPlain e.2 := fun e he ↦
    (hplain.isPlain_of_mem h he).1
  have hexpanded : ∀ k v, (k, v) ∈ markedIn id o₁.path → expand v = v := fun k v hmem ↦ by
    rcases (mem_marked_path h).1 hmem with ⟨-, hvalue⟩ | ⟨-, hmem⟩
    · obtain ⟨u, -, rfl⟩ := Option.map_eq_some_iff.1 hvalue
      exact hidem u
    · exact hplain.marks.expanded k v hmem
  obtain ⟨o₂, hok, hagrees⟩ := accepted_of_written h (finds h hplain.marks.finds) hexpanded
    (tokens_arguments hmarked fun e he ↦ (hplain.isPlain_of_mem h he).2)
  exact ⟨o₁.arguments, o₂,
    recipeWords_getRerunCommand hplain.file_ne_nil hplain.file hmarked, hok, hagrees⟩

/-! ## Nothing else comes back -/

/-- `expand` adds no character that isn't plain, as in a directory with a plain path. -/
def AddsPlain (expand : Str → Str) : Prop :=
  ∀ s, ((expand s).filter fun c ↦ !plain c).Sublist (s.filter fun c ↦ !plain c)

/-- What the arguments for an option are worth in the command. -/
def Token.cost : Token → ℕ
  | .option opt val => 1 + Shell.special shellKind opt + Shell.special shellKind (val.getD [])
  | .bad _ => 0

theorem special_underscored (s : Str) :
    Shell.special shellKind (underscored s) = Shell.special shellKind s := by
  rw [Shell.special, Shell.special, underscored, List.countP_map]
  refine List.countP_congr fun c _ ↦ ?_
  by_cases hc : c = '-'
  · simp only [Function.comp_apply, hc, if_true]
    decide
  · simp only [Function.comp_apply, if_neg hc]

theorem special_long (s : Str) :
    Shell.special shellKind (long s) = Shell.special shellKind s := by
  rw [long, Shell.special_cons, Shell.special_cons]
  rfl

theorem special_assignment (k v : Str) : Shell.special shellKind (assignment k v) =
    Shell.special shellKind k + Shell.special shellKind v := by
  rw [assignment, special_long, Shell.special_append, Shell.special_cons]
  rfl

variable {ts : List Token} {opt : Str} {val : Option Str}

/-- Arguments that are read are worth no more than their words. -/
theorem Reads.cost_le (h : Reads args ts) :
    (ts.map Token.cost).sum ≤ Shell.cost shellKind args := by
  induction h with
  | nil => exact Nat.zero_le _
  | assignment n v _ _ _ _ _ ih =>
      simp only [List.map_cons, List.sum_cons, Token.cost, Option.getD_some, special_underscored,
        Shell.cost_cons, special_assignment]
      omega
  | value n v _ _ _ _ _ ih =>
      simp only [List.map_cons, List.sum_cons, Token.cost, Option.getD_some, special_underscored,
        Shell.cost_cons, special_long]
      omega
  | switch n _ _ _ ih =>
      simp only [List.map_cons, List.sum_cons, Token.cost, Option.getD_none, special_underscored,
        Shell.cost_cons, special_long, Shell.special_nil]
      omega
  | bad arg _ ih =>
      simp only [List.map_cons, List.sum_cons, Token.cost, Shell.cost_cons]
      omega

theorem special_expand_le (hadds : AddsPlain expand) (s : Str) :
    Shell.special shellKind (expand s) ≤ Shell.special shellKind s := by
  have hspecial : ∀ s, Shell.special shellKind s =
      Shell.special shellKind (s.filter fun c ↦ !plain c) := fun s ↦ by
    rw [Shell.special, Shell.special, List.countP_filter]
    refine List.countP_congr fun c _ ↦ ?_
    have hplain : (shellKind c).special → !plain c := fun h ↦ by
      rw [plain]
      by_cases hc : shellKind c = .ordinary
      · rw [hc] at h
        cases h
      · simp [hc]
    simpa using hplain
  rw [hspecial, hspecial s]
  exact Shell.special_of_sublist shellKind (hadds s)

theorem notMem_expand (hadds : AddsPlain expand) {s : Str} (h : '=' ∉ s) : '=' ∉ expand s := by
  intro hmem
  have hfilter : '=' ∈ (expand s).filter fun c ↦ !plain c :=
    List.mem_filter.2 ⟨hmem, by decide⟩
  exact h (List.mem_of_mem_filter ((hadds s).subset hfilter))

theorem isText_underscored {n : Str} (h : IsText n) : IsText (underscored n) := by
  refine ⟨fun hnil ↦ h.1 (List.map_eq_nil_iff.1 hnil), fun hmem ↦ ?_⟩
  obtain ⟨c, hc, heq⟩ := List.mem_map.1 hmem
  split_ifs at heq
  · cases heq
  · exact h.2 (heq ▸ hc)

/-- What comes back comes from arguments that are worth as much. -/
structure ComesFrom (args : List Str) (k v : Str) (val : Option Str) : Prop where
  name : IsText k
  text : IsText v
  mem : .option k val ∈ tokens args
  special_le : Shell.special shellKind v ≤ Shell.special shellKind (val.getD [])
  special_name : Shell.special shellKind k ≤ Shell.special shellKind args.flatten
  special_val : Shell.special shellKind (val.getD []) ≤ Shell.special shellKind args.flatten

theorem exists_comesFrom (hrooted : ∀ s, (expand s).head? = some '/') (hadds : AddsPlain expand)
    (hline : ∀ w ∈ args, '\n' ∉ w) (h : o.given expand args k = some v) :
    ∃ val, ComesFrom args k v val := by
  obtain ⟨val, hmem, hv⟩ := exists_token_of_given h
  obtain ⟨⟨n, rfl, hn, hsub⟩, hval⟩ := (reads_tokens hline).textsOf hmem
  have hname : Shell.special shellKind (underscored n) ≤ Shell.special shellKind args.flatten := by
    rw [special_underscored]
    exact Shell.special_of_sublist shellKind hsub
  have hvalue : Shell.special shellKind (val.getD []) ≤ Shell.special shellKind args.flatten := by
    cases val with
    | none => exact Nat.zero_le _
    | some u => exact Shell.special_of_sublist shellKind (hval u rfl).2
  obtain ⟨b, rfl⟩ | ⟨u, rfl, rfl | rfl⟩ := hv
  · have hbool : ∀ b, IsText (boolToS b) ∧ Shell.special shellKind (boolToS b) = 0 := by
      unfold IsText
      decide
    exact ⟨val, isText_underscored hn, (hbool b).1, hmem, (hbool b).2.trans_le (Nat.zero_le _),
      hname, hvalue⟩
  · exact ⟨_, isText_underscored hn, (hval v rfl).1, hmem, le_rfl, hname, hvalue⟩
  · have hne : expand u ≠ [] := fun hnil ↦ by
      have hhead := hrooted u
      rw [hnil] at hhead
      cases hhead
    exact ⟨_, isText_underscored hn, ⟨hne, notMem_expand hadds (hval u rfl).1.2⟩, hmem,
      special_expand_le hadds u, hname, hvalue⟩

theorem special_getRerunCommand (file : Str) (o : Options) :
    Shell.special shellKind (getRerunCommand file o) = Shell.special shellKind file +
      (o.marked.map fun e ↦
        1 + Shell.special shellKind e.1 + Shell.special shellKind e.2).sum := by
  rw [getRerunCommand_eq, Shell.special_append, Options.arguments]
  congr 1
  induction o.marked with
  | nil => rfl
  | cons e l ih =>
      rw [List.map_cons, List.flatMap_cons, Shell.special_append, ih, Shell.special_cons,
        special_assignment, List.map_cons, List.sum_cons,
        if_pos (show (shellKind ' ').special by decide)]
      omega

/-- What the second run reads is not worth less than the command. -/
theorem le_cost {ws : List Str} (hnodup : (o₁.marked.map Prod.fst).Nodup)
    (hline : ∀ w ∈ ws, '\n' ∉ w)
    (hmarked : ∀ e ∈ o₁.marked, ∃ val, ComesFrom ws e.1 e.2 val) :
    1 + Shell.special shellKind (getRerunCommand file o₁) ≤
      Shell.cost shellKind (file :: ws) := by
  have hsum : (o₁.marked.map fun e ↦
      1 + Shell.special shellKind e.1 + Shell.special shellKind e.2).sum ≤
        ((tokens ws).map Token.cost).sum := by
    refine sum_le_sum_of_keys Prod.fst (fun k t ↦ ∃ val, t = .option k val) ?_ hnodup
      fun e he ↦ ?_
    · rintro k k' _ ⟨val, rfl⟩ ⟨val', heq⟩
      exact (Token.option.inj heq).1
    · obtain ⟨val, hval⟩ := hmarked e he
      exact ⟨_, hval.mem, ⟨val, rfl⟩, Nat.add_le_add_left hval.special_le _⟩
  have hcost := (reads_tokens hline).cost_le
  rw [special_getRerunCommand, Shell.cost_cons]
  omega

theorem assignment_subset (hmem : (k, v) ∈ o.marked) : assignment k v ⊆ getRerunCommand file o := by
  intro c hc
  rw [getRerunCommand_eq]
  exact List.mem_append_right _ (List.mem_flatMap.2
    ⟨_, List.mem_map_of_mem hmem, List.mem_cons_of_mem _ hc⟩)

/-- A text that neither `make` nor the shell reads in another way. -/
theorem eq_or_plain_of_special {s : Str} (hmake : ∀ c ∈ s, ¬ makeSpecial c)
    (hkind : ∀ c ∈ s, shellKind c = .ordinary ∨ shellKind c = .blank)
    (hspecial : Shell.special shellKind s = 0) : ∀ c ∈ s, c = '=' ∨ plain c := by
  intro c hc
  have hordinary : shellKind c = .ordinary := (hkind c hc).resolve_right fun hblank ↦ by
    have hnot := Shell.special_eq_zero.1 hspecial c hc
    rw [hblank] at hnot
    cases hnot
  by_cases heq : c = '='
  · exact .inl heq
  · exact .inr (by simp [plain, hmake c hc, hordinary, heq])

theorem IsText.isPlain {s : Str} (h : IsText s) (hs : ∀ c ∈ s, c = '=' ∨ plain c) : IsPlain s :=
  ⟨h.1, fun c hc ↦ (hs c hc).resolve_left fun heq ↦ h.2 (heq ▸ hc)⟩

/-- If the options come back, then the script and what was written are plain. -/
theorem isPlain_of_roundTrips (hnil : o.marked = []) (hrooted : ∀ s, (expand s).head? = some '/')
    (hadds : AddsPlain expand) (h : parseUserConfigOpts expand info o args = .ok o₁)
    (hround : RoundTrips expand info file o o₁) :
    (file ≠ [] ∧ ∀ c ∈ file, c = '=' ∨ plain c) ∧
      ∀ k v, o.given expand args k = some v → IsPlain k ∧ IsPlain v := by
  obtain ⟨ws, o₂, hwords, hok, hagrees⟩ := hround
  rw [recipeWords] at hwords
  split_ifs at hwords with hmake
  have hmake' : ∀ c ∈ getRerunCommand file o₁, ¬ makeSpecial c := fun c hc hspecial ↦
    hmake (List.any_eq_true.2 ⟨c, hc, hspecial⟩)
  have hline : ∀ w ∈ ws, '\n' ∉ w := fun w hw hmem ↦
    hmake' _ (Shell.mem_of_mem_words hwords (List.mem_cons_of_mem _ hw) hmem) (by decide)
  have hmarked : ∀ e ∈ o₁.marked, ∃ val, ComesFrom ws e.1 e.2 val := fun e he ↦
    exists_comesFrom hrooted hadds hline
      ((mem_marked_iff_given hok hnil).1 ((mem_marked_congr hagrees).2 he))
  have hnodup := (finds h (finds_of_marked_eq_nil hnil)).nodup
  obtain ⟨hchars, hwords'⟩ := Shell.forall_of_le_cost hwords (le_cost hnodup hline hmarked)
  have hthrough : ∀ s, s ⊆ getRerunCommand file o₁ → Shell.special shellKind s = 0 →
      ∀ c ∈ s, c = '=' ∨ plain c := fun s hs ↦
    eq_or_plain_of_special (fun c hc ↦ hmake' c (hs hc)) fun c hc ↦ hchars c (hs hc)
  obtain ⟨⟨hne, hfile⟩, hws⟩ := List.forall_mem_cons.1 hwords'
  refine ⟨⟨hne, hthrough file (List.subset_append_left _ _) hfile⟩, fun k v hkv ↦ ?_⟩
  have hmem : (k, v) ∈ o₁.marked := (mem_marked_iff_given h hnil).2 hkv
  obtain ⟨val, hval⟩ := hmarked _ hmem
  have hflatten := Shell.special_flatten_eq_zero fun w hw ↦ (hws w hw).2
  have hassign : assignment k v ⊆ getRerunCommand file o₁ := assignment_subset hmem
  have hk := hthrough k (List.Subset.trans (sublist_assignment k v).1.subset hassign)
    (Nat.le_zero.1 (hflatten ▸ hval.special_name))
  have hv := hthrough v (List.Subset.trans (sublist_assignment k v).2.subset hassign)
    (Nat.le_zero.1 (hflatten ▸ hval.special_le.trans hval.special_val))
  exact ⟨hval.name.isPlain hk, hval.text.isPlain hv⟩

/-- In a plain directory only plain options come back. -/
theorem plain_of_roundTrips (hnil : o.marked = []) (hrooted : ∀ s, (expand s).head? = some '/')
    (hadds : AddsPlain expand) (h : parseUserConfigOpts expand info o args = .ok o₁)
    (hround : RoundTrips expand info file o o₁) : Plain expand file o args := by
  obtain ⟨⟨hne, hfile⟩, hplain⟩ := isPlain_of_roundTrips hnil hrooted hadds h hround
  obtain ⟨path, -, hret, -⟩ := parseUserConfigOpts_eq_ok_iff.1 h
  have hknows := (ret_parseLoop_eq_nil_iff expand o args).1 hret
  have hnone : ∀ {k v}, (k, v) ∉ o.marked := fun hmem ↦ by rw [hnil] at hmem; cases hmem
  have hmarks : PlainMarks expand o args := ⟨finds_of_marked_eq_nil hnil,
    fun k v hmem ↦ absurd hmem hnone, fun k v hmem ↦ absurd hmem hnone,
    fun k v hmem ↦ absurd (mem_marked.2 (.inr (.inr hmem))) hnone⟩
  refine ⟨hmarks, hne, hfile, fun opt val hmem ↦ ?_, fun name val hval ↦ ?_⟩
  · obtain ⟨v, hv⟩ := exists_given_of_mem expand hmem (hknows _ hmem)
    exact (hplain opt v hv).1
  · have hbool : ¬ (o.bool.get name).isSome := fun hbool ↦ by
      rw [userValue_of_bool hbool] at hval
      cases hval
    have hname := (hknows _ (exists_token_of_userValue hval)).resolve_left hbool
    exact (hplain name _ (given_of_userValue hval hname.2)).2

/-- The user's options come back if everything that is written is plain.  If only the user marks
options, and the directory is plain, they don't otherwise. -/
theorem rerun_roundTrips (hrooted : ∀ s, (expand s).head? = some '/')
    (hidem : ∀ s, expand (expand s) = expand s)
    (h : parseUserConfigOpts expand info o args = .ok o₁) :
    (Plain expand file o args → RoundTrips expand info file o o₁) ∧
      (o.marked = [] → AddsPlain expand → RoundTrips expand info file o o₁ →
        Plain expand file o args) :=
  ⟨roundTrips_of_plain hidem h, fun hnil hadds ↦ plain_of_roundTrips hnil hrooted hadds h⟩

theorem inBuild_head? (s : Str) : (inBuild s).head? = some '/' := by
  rw [inBuild]
  split_ifs with hs
  · exact hs
  · rfl

theorem inBuild_inBuild (s : Str) : inBuild (inBuild s) = inBuild s := if_pos (inBuild_head? s)

theorem addsPlain_inBuild : AddsPlain inBuild := fun s ↦ by
  rw [inBuild]
  split_ifs
  · exact List.Sublist.refl _
  · have hbuild : ("/build/".toList.filter fun c ↦ !plain c) = [] := by decide
    rw [List.filter_append, hbuild]
    exact List.Sublist.refl _

/-- A package without the standard paths that has an option of each kind. -/
def testPackage : Options where
  bool := ⟨[("test".toList, ⟨true, "adds additional testing programs".toList, false⟩)],
    List.nodup_singleton _⟩
  string := ⟨[("cflags".toList, ⟨"-g".toList, "flags of the compiler".toList, false⟩)],
    List.nodup_singleton _⟩
  path := ⟨[("prefix".toList, ⟨"/usr".toList, "prefix".toList, false⟩)], List.nodup_singleton _⟩

def testInfo : Info := ⟨"potato".toList, false⟩

def script : Str := "/usr/bin/quickbuild".toList

def testArgs : List Str :=
  ["--test".toList, "no".toList, "--cflags=-O2".toList, "--prefix=opt".toList]

theorem plain_test : Plain inBuild script testPackage testArgs := by
  have htokens : ∀ t ∈ tokens testArgs, t = .option "test".toList (some "no".toList) ∨
      t = .option "cflags".toList (some "-O2".toList) ∨
      t = .option "prefix".toList (some "opt".toList) := fun t ht ↦ by
    simpa using (show t ∈ [Token.option "test".toList (some "no".toList),
      .option "cflags".toList (some "-O2".toList),
      .option "prefix".toList (some "opt".toList)] from ht)
  have hmarks : PlainMarks inBuild testPackage testArgs :=
    ⟨finds_of_marked_eq_nil rfl, fun _ _ hmem ↦ (by cases hmem), fun _ _ hmem ↦ (by cases hmem),
      fun _ _ hmem ↦ (by cases hmem)⟩
  have hscript : IsPlain script := by decide
  refine ⟨hmarks, hscript.1, fun c hc ↦ .inr (hscript.2 c hc), fun opt val hmem ↦ ?_,
    fun name val hval ↦ ?_⟩
  · obtain heq | heq | heq := htokens _ hmem <;> obtain ⟨rfl, rfl⟩ := Token.option.inj heq <;>
      decide
  · obtain heq | heq | heq := htokens _ (exists_token_of_userValue hval) <;>
      obtain ⟨rfl, hval'⟩ := Token.option.inj heq <;> obtain rfl := Option.some.inj hval'
    · cases (userValue_of_bool rfl).symm.trans hval
    · decide
    · decide

theorem rerun_roundTrips_test :
    ∃ o₁, parseUserConfigOpts inBuild testInfo testPackage testArgs = .ok o₁ ∧
      RoundTrips inBuild testInfo script testPackage o₁ ∧
      Plain inBuild script testPackage testArgs := by
  obtain ⟨o₁, h⟩ : ∃ o₁,
      parseUserConfigOpts inBuild testInfo testPackage testArgs = .ok o₁ := ⟨_, rfl⟩
  have hround : RoundTrips inBuild testInfo script testPackage o₁ :=
    (rerun_roundTrips inBuild_head? inBuild_inBuild h).1 plain_test
  exact ⟨o₁, h, hround,
    (rerun_roundTrips inBuild_head? inBuild_inBuild h).2 rfl addsPlain_inBuild hround⟩

/-- An option that has two words comes back as one, and an argument that is not known. -/
theorem not_roundTrips_cflags :
    ∃ o₁, parseUserConfigOpts inBuild testInfo testPackage ["--cflags=-O2 -g".toList] =
        .ok o₁ ∧
      ¬ RoundTrips inBuild testInfo script testPackage o₁ := by
  obtain ⟨o₁, h⟩ : ∃ o₁, parseUserConfigOpts inBuild testInfo testPackage
      ["--cflags=-O2 -g".toList] = .ok o₁ := ⟨_, rfl⟩
  refine ⟨o₁, h, fun hround ↦ ?_⟩
  have hplain := (plain_of_roundTrips rfl inBuild_head? addsPlain_inBuild h hround).values
    "cflags".toList "-O2 -g".toList rfl
  exact absurd hplain (by decide)

end Tidbits.Quickbuild
