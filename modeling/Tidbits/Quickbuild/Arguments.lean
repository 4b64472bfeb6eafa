import Mathlib.Data.List.GetD
import Tidbits.Sequence.Table

/-!
# The option arguments of quickbuild

`parse_user_config_opts` of `QBPackage` reads `--opt=val`, `--opt val` and `--opt`,
and looks `opt` up in the tables of the bool, path and string options.

In a regular expression of Ruby `^` and `$` match at the ends of every line, and
`[^=]` matches the end of a line like any other character.

`acts` says what one of them does.  `get_bool_parseLoop`, `get_path_parseLoop` and
`get_string_parseLoop` say what a list of them makes of the options, whatever is between
the arguments that are for an option, and `ret_parseLoop_eq_nil_iff` when all are accepted.
-/

namespace Tidbits.Quickbuild

open Tidbits.Sequence

abbrev Str := List Char

/-! ## The regular expressions -/

/-- `/^p/`, `p` being a test of what is behind the beginning of a line. -/
def anyLine (p : Str → Bool) : Bool → Str → Bool
  | start, [] => start && p []
  | start, c :: s => (start && p (c :: s)) || anyLine p (c == '\n') s

/-- `sub(/^m/, '')`, `m` giving what is behind a match. -/
def subLine (m : Str → Option Str) : Bool → Str → Str
  | _, [] => []
  | start, c :: s =>
      match if start then m (c :: s) else none with
      | some rest => rest
      | none => c :: subLine m (c == '\n') s

/-- The characters before the next `=`. -/
def word (s : Str) : Str := s.takeWhile (· ≠ '=')

/-- The next `=` and what is behind it. -/
def behindWord (s : Str) : Str := s.dropWhile (· ≠ '=')

/-- `[^=]+$`. -/
def endsLine (s : Str) : Bool :=
  word s ≠ [] ∧ (behindWord s = [] ∨ '\n' ∈ (word s).drop 1)

/-- `--`. -/
def dashes : Str → Option Str
  | '-' :: '-' :: s => some s
  | _ => none

/-- `--[^=]+=`. -/
def dashesName (s : Str) : Option Str :=
  match dashes s with
  | none => none
  | some s => if word s = [] then none else (behindWord s).tail?

/-- `arg =~ /^--[^=]+=[^=]+$/`. -/
def isAssignment (arg : Str) : Bool := anyLine (fun s ↦ (dashesName s).any endsLine) true arg

/-- `arg =~ /^--[^=]+$/`. -/
def isLong (arg : Str) : Bool := anyLine (fun s ↦ (dashes s).any endsLine) true arg

/-- `arg =~ /^[^-=]+[^=]*$/ or arg == '-'`. -/
def isValue (arg : Str) : Bool :=
  anyLine (fun s ↦ s.head? ≠ some '-' && endsLine s) true arg || arg = ['-']

/-- `sub(/=[^=]*$/, '')`. -/
def dropValue : Str → Str
  | [] => []
  | c :: s =>
      if c = '=' ∧ behindWord s = [] then []
      else if c = '=' ∧ '\n' ∈ word s then
        -- up to the last end of a line before the next `=`
        '\n' :: ((word s).reverse.takeWhile (· ≠ '\n')).reverse ++ behindWord s
      else c :: dropValue s

/-- `gsub('-', '_')`. -/
def underscored (s : Str) : Str := s.map fun c ↦ if c = '-' then '_' else c

/-- `val =~ /(^n|^f|^N|^F|^0|^of|^Of|^oF|^OF)/`. -/
def isNo (val : Str) : Bool :=
  anyLine (fun s ↦ ["n", "f", "N", "F", "0", "of", "Of", "oF", "OF"].any fun w ↦
    w.toList.isPrefixOf s) true val

/-! ## The options -/

/-- The value of an option, its description, and whether the user set it. -/
structure Entry (α : Type) where
  value : α
  desc : Str
  user : Bool
deriving DecidableEq

structure Options where
  bool : Table Str (Entry Bool)
  string : Table Str (Entry Str)
  path : Table Str (Entry Str)

/-- What the user gives to an option. -/
def Entry.give {α : Type} (value : α) (e : Entry α) : Entry α := { e with value, user := true }

/-- What an argument is, with the value from the next one if it takes it. -/
inductive Token where
  | option (opt : Str) (val : Option Str)
  | bad (arg : Str)

/-- What the loop of `parse_user_config_opts` reads, which doesn't depend on the options. -/
def tokens : List Str → List Token
  | [] => []
  | arg :: args =>
      if isAssignment arg then
        .option (underscored (dropValue (subLine dashes true arg)))
          (some (subLine dashesName true arg)) :: tokens args
      else if isLong arg then
        let opt := underscored (subLine dashes true arg)
        match args with
        | [] => [.option opt none]
        | next :: rest =>
            if isValue next then .option opt (some next) :: tokens rest
            else .option opt none :: tokens (next :: rest)
      else .bad arg :: tokens args

/-- The option that is found for `opt`; a bool option is found first and needs no value. -/
def Options.assign (expand : Str → Str) (o : Options) (opt : Str) (val : Option Str) :
    Option Options :=
  if (o.bool.get opt).isSome then
    some { o with bool := o.bool.modify opt (Entry.give (val.all fun val ↦ !isNo val)) }
  else do
    let val ← val
    if (o.path.get opt).isSome then
      return { o with path := o.path.modify opt (Entry.give (expand val)) }
    else if (o.string.get opt).isSome then
      return { o with string := o.string.modify opt (Entry.give val) }
    else none

/-- The rest of an iteration: the options, and the text `ret` of the bad ones. -/
def act (expand : Str → Str) (s : Options × Str) : Token → Options × Str
  | .option opt val =>
      match s.1.assign expand opt val with
      | some o => (o, s.2)
      | none => (s.1, s.2 ++ "bad option: --".toList ++ opt ++
          (match val with | some val => ' ' :: val | none => []) ++ ['\n'])
  | .bad arg => (s.1, s.2 ++ "bad option: ".toList ++ arg ++ ['\n'])

/-- The loop of `parse_user_config_opts`. -/
def parseLoop (expand : Str → Str) (o : Options) (args : List Str) : Options × Str :=
  (tokens args).foldl (act expand) (o, [])

/-! ## What the user sets -/

/-- The value that an argument has for an option that needs one. -/
def Token.valueFor (name : Str) : Token → Option Str
  | .option opt val => if opt = name then val else none
  | .bad _ => none

/-- What an argument has for an option that needs no value. -/
def Token.switchFor (name : Str) : Token → Option (Option Str)
  | .option opt val => if opt = name then some val else none
  | .bad _ => none

/-- The user's value for a path option, which is the last one; the name of a bool option isn't
free for it. -/
def userValue (o : Options) (args : List Str) (name : Str) : Option Str :=
  if (o.bool.get name).isSome then none
  else ((tokens args).filterMap (Token.valueFor name)).getLast?

/-- The user's value for a string option, for which the name of a path option isn't free either. -/
def userString (o : Options) (args : List Str) (name : Str) : Option Str :=
  if (o.path.get name).isSome then none else userValue o args name

/-- What the user has last for a bool option, which may come without a value. -/
def userSwitch (args : List Str) (name : Str) : Option (Option Str) :=
  ((tokens args).filterMap (Token.switchFor name)).getLast?

/-- A path option with the user's value, if there is one. -/
def Entry.given (expand : Str → Str) (val : Option Str) (e : Entry Str) : Entry Str :=
  val.elim e fun val ↦ e.give (expand val)

/-- A bool option with what the user has for it. -/
def Entry.switched (val : Option (Option Str)) (e : Entry Bool) : Entry Bool :=
  val.elim e fun val ↦ e.give (val.all fun val ↦ !isNo val)

variable {expand : Str → Str} {o : Options} {s s' : Options × Str} {opt name : Str}
  {val : Option Str}

/-- An option is for a bool option, for a path option, for a string option, or for none. -/
inductive Acts (expand : Str → Str) (s : Options × Str) (opt : Str) :
    Option Str → Options × Str → Prop where
  | bool (val : Option Str) (hbool : (s.1.bool.get opt).isSome) : Acts expand s opt val
      ({ s.1 with bool := s.1.bool.modify opt (Entry.give (val.all fun val ↦ !isNo val)) }, s.2)
  | path (val : Str) (hbool : ¬ (s.1.bool.get opt).isSome) (hpath : (s.1.path.get opt).isSome) :
      Acts expand s opt (some val)
        ({ s.1 with path := s.1.path.modify opt (Entry.give (expand val)) }, s.2)
  | string (val : Str) (hbool : ¬ (s.1.bool.get opt).isSome)
      (hpath : ¬ (s.1.path.get opt).isSome) (hstring : (s.1.string.get opt).isSome) :
      Acts expand s opt (some val)
        ({ s.1 with string := s.1.string.modify opt (Entry.give val) }, s.2)
  | unknown (val : Option Str) (ret : Str) (hbool : ¬ (s.1.bool.get opt).isSome)
      (hval : val.isSome → ¬ (s.1.path.get opt).isSome ∧ ¬ (s.1.string.get opt).isSome)
      (hret : ret ≠ []) : Acts expand s opt val (s.1, ret)

theorem acts (expand : Str → Str) (s : Options × Str) (opt : Str) (val : Option Str) :
    Acts expand s opt val (act expand s (.option opt val)) := by
  simp only [act, Options.assign]
  by_cases hbool : (s.1.bool.get opt).isSome
  · rw [if_pos hbool]
    exact .bool val hbool
  rw [if_neg hbool]
  cases val with
  | none => exact .unknown none _ hbool (fun hval ↦ by cases hval) (by simp)
  | some val =>
      rw [Option.bind_eq_bind, Option.bind_some]
      by_cases hpath : (s.1.path.get opt).isSome
      · rw [if_pos hpath]
        exact .path val hbool hpath
      rw [if_neg hpath]
      by_cases hstring : (s.1.string.get opt).isSome
      · rw [if_pos hstring]
        exact .string val hbool hpath hstring
      · rw [if_neg hstring]
        exact .unknown (some val) _ hbool (fun _ ↦ ⟨hpath, hstring⟩) (by simp)

theorem Acts.get_bool (h : Acts expand s opt val s') (name : Str) : s'.1.bool.get name =
    (s.1.bool.get name).map (Entry.switched (if opt = name then some val else none)) := by
  split_ifs with hopt
  · subst hopt
    cases h with
    | bool _ hbool => exact Table.get_modify_self _ _
    | path _ hbool _ | string _ hbool _ _ | unknown _ _ hbool _ _ =>
        rw [Option.not_isSome_iff_eq_none.1 hbool, Option.map_none]
  · refine Eq.trans ?_ Option.map_id'.symm
    cases h with
    | bool _ hbool => exact Table.get_modify_of_ne _ _ (Ne.symm hopt)
    | path | string | unknown => rfl

theorem Acts.get_path (h : Acts expand s opt val s') (name : Str) : s'.1.path.get name =
    (s.1.path.get name).map (Entry.given expand
      (if opt = name ∧ ¬ (s.1.bool.get opt).isSome then val else none)) := by
  split_ifs with hopt
  · obtain ⟨rfl, hbool⟩ := hopt
    cases h with
    | bool _ hbool' => exact absurd hbool' hbool
    | path => exact Table.get_modify_self _ _
    | string _ _ hpath _ => rw [Option.not_isSome_iff_eq_none.1 hpath, Option.map_none]
    | unknown _ _ _ hval _ =>
        cases val with
        | none => exact Option.map_id'.symm
        | some val => rw [Option.not_isSome_iff_eq_none.1 (hval rfl).1, Option.map_none]
  · refine Eq.trans ?_ Option.map_id'.symm
    cases h with
    | path _ hbool _ => exact Table.get_modify_of_ne _ _ fun hname ↦ hopt ⟨hname.symm, hbool⟩
    | bool | string | unknown => rfl

theorem Acts.get_string (h : Acts expand s opt val s') (name : Str) : s'.1.string.get name =
    (s.1.string.get name).map (Entry.given id (if opt = name ∧ ¬ (s.1.bool.get opt).isSome ∧
      ¬ (s.1.path.get opt).isSome then val else none)) := by
  split_ifs with hopt
  · obtain ⟨rfl, hbool, hpath⟩ := hopt
    cases h with
    | bool _ hbool' => exact absurd hbool' hbool
    | path _ _ hpath' => exact absurd hpath' hpath
    | string => exact Table.get_modify_self _ _
    | unknown _ _ _ hval _ =>
        cases val with
        | none => exact Option.map_id'.symm
        | some val => rw [Option.not_isSome_iff_eq_none.1 (hval rfl).2, Option.map_none]
  · refine Eq.trans ?_ Option.map_id'.symm
    cases h with
    | string _ hbool hpath _ =>
        exact Table.get_modify_of_ne _ _ fun hname ↦ hopt ⟨hname.symm, hbool, hpath⟩
    | bool | path | unknown => rfl

/-! ### One argument -/

theorem get_bool_act (t : Token) : (act expand s t).1.bool.get name =
    (s.1.bool.get name).map (Entry.switched (t.switchFor name)) := by
  cases t with
  | bad arg => exact Option.map_id'.symm
  | option opt val => exact (acts expand s opt val).get_bool name

theorem get_path_act (t : Token) : (act expand s t).1.path.get name =
    (s.1.path.get name).map (Entry.given expand
      (if (s.1.bool.get name).isSome then none else t.valueFor name)) := by
  cases t with
  | bad arg =>
      rw [Token.valueFor, ite_self]
      exact Option.map_id'.symm
  | option opt val =>
      rw [(acts expand s opt val).get_path name, Token.valueFor]
      grind

theorem get_string_act (t : Token) : (act expand s t).1.string.get name =
    (s.1.string.get name).map (Entry.given id (if (s.1.path.get name).isSome then none
      else if (s.1.bool.get name).isSome then none else t.valueFor name)) := by
  cases t with
  | bad arg =>
      rw [Token.valueFor, ite_self, ite_self]
      exact Option.map_id'.symm
  | option opt val =>
      rw [(acts expand s opt val).get_string name, Token.valueFor]
      grind

/-- The names of the options stay the same. -/
def SameNames (o o' : Options) : Prop := ∀ name,
  (o'.bool.get name).isSome = (o.bool.get name).isSome ∧
    (o'.path.get name).isSome = (o.path.get name).isSome ∧
    (o'.string.get name).isSome = (o.string.get name).isSome

theorem SameNames.refl (o : Options) : SameNames o o := fun _ ↦ ⟨rfl, rfl, rfl⟩

theorem SameNames.act (h : SameNames o s.1) (expand : Str → Str) (t : Token) :
    SameNames o (act expand s t).1 := by
  intro name
  rw [get_bool_act, get_path_act, get_string_act, Option.isSome_map, Option.isSome_map,
    Option.isSome_map]
  exact h name

/-! ### All arguments -/

theorem getLast?_filterMap_ite {τ β : Type*} (c : Prop) [Decidable c] (f : τ → Option β)
    (ts : List τ) : (ts.filterMap fun t ↦ if c then none else f t).getLast? =
      if c then none else (ts.filterMap f).getLast? := by
  split_ifs
  · rw [List.filterMap_none, List.getLast?_nil]
  · rfl

/-- The loop gives the user's values to the bool options. -/
theorem get_bool_parseLoop (expand : Str → Str) (o : Options) (args : List Str) (name : Str) :
    (parseLoop expand o args).1.bool.get name =
      (o.bool.get name).map (Entry.switched (userSwitch args name)) :=
  get_foldl (s := (o, [])) (fun s ↦ s.1.bool.get name)
    (fun val : Option Str ↦ Entry.give (val.all fun val ↦ !isNo val)) (fun _ ↦ True)
    (fun _ _ _ ↦ trivial) (fun _ t _ ↦ get_bool_act t) (fun _ _ _ ↦ rfl) trivial (tokens args)

/-- The loop gives the user's values to the path options, and leaves the others as they are. -/
theorem get_path_parseLoop (o : Options) (args : List Str) (name : Str) :
    (parseLoop expand o args).1.path.get name =
      (o.path.get name).map (Entry.given expand (userValue o args name)) := by
  rw [userValue, ← getLast?_filterMap_ite]
  refine get_foldl (s := (o, [])) (fun s ↦ s.1.path.get name) (fun val ↦ Entry.give (expand val))
    (fun s ↦ SameNames o s.1) (fun _ t hs ↦ hs.act expand t) (fun s t hs ↦ ?_) (fun _ _ _ ↦ rfl)
    (SameNames.refl o) (tokens args)
  rw [← (hs name).1]
  exact get_path_act t

/-- The loop gives the user's values to the string options too. -/
theorem get_string_parseLoop (expand : Str → Str) (o : Options) (args : List Str) (name : Str) :
    (parseLoop expand o args).1.string.get name =
      (o.string.get name).map (Entry.given id (userString o args name)) := by
  rw [userString, userValue, ← getLast?_filterMap_ite, ← getLast?_filterMap_ite]
  refine get_foldl (s := (o, [])) (fun s ↦ s.1.string.get name) Entry.give
    (fun s ↦ SameNames o s.1) (fun _ t hs ↦ hs.act expand t) (fun s t hs ↦ ?_) (fun _ _ _ ↦ rfl)
    (SameNames.refl o) (tokens args)
  rw [← (hs name).1, ← (hs name).2.1]
  exact get_string_act t

/-- There is an option for the argument. -/
def Options.Knows (o : Options) : Token → Prop
  | .option opt val => (o.bool.get opt).isSome ∨
      val.isSome ∧ ((o.path.get opt).isSome ∨ (o.string.get opt).isSome)
  | .bad _ => False

theorem ret_act_eq_nil_iff (hs : SameNames o s.1) (t : Token) :
    (act expand s t).2 = [] ↔ s.2 = [] ∧ o.Knows t := by
  cases t with
  | bad arg => simp [act, Options.Knows]
  | option opt val =>
      have hknows : ∀ s' : Options × Str, Acts expand s opt val s' →
          (s'.2 = [] ↔ s.2 = [] ∧ o.Knows (.option opt val)) := fun s' h ↦ by
        rw [Options.Knows, ← (hs opt).1, ← (hs opt).2.1, ← (hs opt).2.2]
        cases h with
        | bool _ hbool => simp [hbool]
        | path val hbool hpath => simp [hpath]
        | string val hbool hpath hstring => simp [hstring]
        | unknown _ ret hbool hval hret =>
            refine iff_of_false hret fun h ↦ ?_
            exact h.2.elim hbool fun h ↦ h.2.elim (hval h.1).1 (hval h.1).2
      exact hknows _ (acts expand s opt val)

/-- Nothing is reported if and only if there is an option for every argument. -/
theorem ret_parseLoop_eq_nil_iff (expand : Str → Str) (o : Options) (args : List Str) :
    (parseLoop expand o args).2 = [] ↔ ∀ t ∈ tokens args, o.Knows t := by
  have hfoldl : ∀ (ts : List Token) (s : Options × Str), SameNames o s.1 →
      ((ts.foldl (act expand) s).2 = [] ↔ s.2 = [] ∧ ∀ t ∈ ts, o.Knows t) := by
    intro ts
    induction ts with
    | nil => simp
    | cons t ts ih =>
        intro s hs
        rw [List.foldl_cons, ih _ (hs.act expand t), ret_act_eq_nil_iff hs t, List.forall_mem_cons,
          and_assoc]
  rw [parseLoop, hfoldl (tokens args) (o, []) (SameNames.refl o)]
  simp

/-! ## The names -/

theorem underscored_underscored (s : Str) : underscored (underscored s) = underscored s := by
  rw [underscored, underscored, List.map_map]
  refine List.map_congr_left fun c _ ↦ ?_
  by_cases hc : c = '-' <;> simp [hc]

/-- No name that is read has a dash. -/
theorem underscored_of_mem_tokens {opt : Str} {val : Option Str}
    (h : .option opt val ∈ tokens args) : underscored opt = opt := by
  have hhead : ∀ {s : Str} {val' : Option Str} {ts : List Token},
      .option opt val ∈ Token.option (underscored s) val' :: ts →
        (.option opt val ∈ ts → underscored opt = opt) → underscored opt = opt := by
    intro s val' ts hmem hts
    rcases List.mem_cons.1 hmem with heq | hmem
    · rw [(Token.option.inj heq).1, underscored_underscored]
    · exact hts hmem
  induction args using tokens.induct with
  | case1 => cases h
  | case2 arg args hassign ih =>
      rw [tokens, if_pos hassign] at h
      exact hhead h ih
  | case3 arg hassign hlong =>
      rw [tokens, if_neg hassign, if_pos hlong] at h
      exact hhead h nofun
  | case4 arg hassign hlong next rest hvalue ih =>
      rw [tokens, if_neg hassign, if_pos hlong] at h
      simp only [if_pos hvalue] at h
      exact hhead h ih
  | case5 arg hassign hlong next rest hvalue ih =>
      rw [tokens, if_neg hassign, if_pos hlong] at h
      simp only [if_neg hvalue] at h
      exact hhead h ih
  | case6 arg args hassign hlong ih =>
      rw [tokens, if_neg hassign, if_neg hlong] at h
      exact ih ((List.mem_cons.1 h).resolve_left nofun)

end Tidbits.Quickbuild
