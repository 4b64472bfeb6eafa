import Tidbits.Quickbuild.StandardPaths

/-!
# The options that the user set

`parse_user_config_opts` marks the options that the user sets, and the mark decides what
is reset with the standard paths and what is written for another run.

A package ends with the texts marked that the arguments give to its options, besides what it
has marked itself (`mem_marked_iff`).  Arguments that give just these texts again make the
same options (`accepted_of_written`).
-/

namespace Tidbits.Quickbuild

open Tidbits.Sequence

/-- `to_s` of a bool value. -/
def boolToS (b : Bool) : Str := if b then "true".toList else "false".toList

/-- The marked options of a table, with their values as they are written. -/
def markedIn {α : Type} (toS : α → Str) (t : Table Str (Entry α)) : List (Str × Str) :=
  (t.entries.filter fun e ↦ e.2.user).map fun e ↦ (e.1, toS e.2.value)

/-- The options that the user set, in the order of the tables. -/
def Options.marked (o : Options) : List (Str × Str) :=
  markedIn boolToS o.bool ++ markedIn id o.string ++ markedIn id o.path

/-- The value, and whether the user set it. -/
def Entry.state {α : Type} (e : Entry α) : α × Bool := (e.value, e.user)

/-- Every option has the same value and the same mark. -/
def Options.Agrees (o o' : Options) : Prop := ∀ name,
  (o.bool.get name).map Entry.state = (o'.bool.get name).map Entry.state ∧
    (o.string.get name).map Entry.state = (o'.string.get name).map Entry.state ∧
    (o.path.get name).map Entry.state = (o'.path.get name).map Entry.state

variable {expand : Str → Str} {info : Info} {o o₁ o₂ : Options} {args args' : List Str}
  {path path' : Paths} {k v : Str}

/-! ## Marks -/

section Marked

variable {α : Type} {toS : α → Str} {t t' : Table Str (Entry α)}

theorem mem_markedIn :
    (k, v) ∈ markedIn toS t ↔ ∃ e, t.get k = some e ∧ e.user ∧ toS e.value = v := by
  rw [markedIn, List.mem_map]
  constructor
  · rintro ⟨⟨k, e⟩, he, heq⟩
    obtain ⟨rfl, rfl⟩ := Prod.mk.inj heq
    obtain ⟨hmem, huser⟩ := List.mem_filter.1 he
    exact ⟨e, t.mem_entries_iff.1 hmem, huser, rfl⟩
  · rintro ⟨e, he, huser, rfl⟩
    exact ⟨(k, e), List.mem_filter.2 ⟨t.mem_entries_iff.2 he, huser⟩, rfl⟩

theorem nodup_markedIn (toS : α → Str) (t : Table Str (Entry α)) :
    ((markedIn toS t).map Prod.fst).Nodup := by
  rw [markedIn, List.map_map]
  exact t.nodup.sublist (List.filter_sublist.map Prod.fst)

/-- What is given is marked, and what was marked stays marked if it is not given. -/
theorem mem_markedIn_of_give {β : Type} {f : β → α} {val : Option β}
    (hget : t'.get k = (t.get k).map fun e ↦ val.elim e fun b ↦ e.give (f b)) :
    (k, v) ∈ markedIn toS t' ↔ ((t.get k).isSome ∧ val.map (fun b ↦ toS (f b)) = some v) ∨
      (val = none ∧ (k, v) ∈ markedIn toS t) := by
  rw [mem_markedIn, mem_markedIn, hget]
  cases t.get k <;> cases val <;> simp [Entry.give]

/-- What is written for an option is read as the entry that it is. -/
theorem give_back {β : Type} {f : β → α} {back : Str → α} {val : Option β} {e e₁ : Entry α}
    (he₁ : (val.elim e fun b ↦ e.give (f b)) = e₁)
    (hback : e₁.user → back (toS e₁.value) = e₁.value) :
    ((if e₁.user then some (toS e₁.value) else none).elim e fun v ↦ e.give (back v)) = e₁ := by
  split_ifs with huser
  · rw [Option.elim_some, hback huser, ← he₁]
    cases val with
    | none => exact congrArg (Entry.mk e.value e.desc) (he₁ ▸ huser).symm
    | some b => rfl
  · cases val with
    | none => exact he₁
    | some b => exact absurd rfl (he₁ ▸ huser)

theorem mem_markedIn_congr (h : (t.get k).map Entry.state = (t'.get k).map Entry.state) :
    (k, v) ∈ markedIn toS t ↔ (k, v) ∈ markedIn toS t' := by
  have hstate : ∀ t : Table Str (Entry α), (k, v) ∈ markedIn toS t ↔
      ∃ x, (t.get k).map Entry.state = some x ∧ x.2 ∧ toS x.1 = v := fun t ↦ by
    rw [mem_markedIn]
    cases t.get k <;> simp [Entry.state]
  rw [hstate, hstate, h]

end Marked

theorem mem_marked : (k, v) ∈ o.marked ↔ (k, v) ∈ markedIn boolToS o.bool ∨
    (k, v) ∈ markedIn id o.string ∨ (k, v) ∈ markedIn id o.path := by
  rw [Options.marked, List.mem_append, List.mem_append, or_assoc]

theorem mem_marked_congr (h : o₁.Agrees o₂) : (k, v) ∈ o₁.marked ↔ (k, v) ∈ o₂.marked := by
  obtain ⟨hbool, hstring, hpath⟩ := h k
  rw [mem_marked, mem_marked, mem_markedIn_congr hbool, mem_markedIn_congr hstring,
    mem_markedIn_congr hpath]

/-- A marked option of `x` is the one of `o` that is found under its name. -/
structure Options.Finds (o x : Options) : Prop where
  bool : ∀ {k v}, (k, v) ∈ markedIn boolToS x.bool → (o.bool.get k).isSome
  path : ∀ {k v}, (k, v) ∈ markedIn id x.path →
    ¬ (o.bool.get k).isSome ∧ (o.path.get k).isSome
  string : ∀ {k v}, (k, v) ∈ markedIn id x.string →
    ¬ (o.bool.get k).isSome ∧ ¬ (o.path.get k).isSome ∧ (o.string.get k).isSome

/-- Nothing is marked before the user's options are read, unless the package does it. -/
theorem finds_of_marked_eq_nil (h : o₁.marked = []) : o.Finds o₁ := by
  have hnone : ∀ {k v}, (k, v) ∉ o₁.marked := fun hmem ↦ by rw [h] at hmem; cases hmem
  exact ⟨fun hmem ↦ absurd (mem_marked.2 (.inl hmem)) hnone,
    fun hmem ↦ absurd (mem_marked.2 (.inr (.inr hmem))) hnone,
    fun hmem ↦ absurd (mem_marked.2 (.inr (.inl hmem))) hnone⟩

namespace Options.Finds

variable {x : Options} (h : o.Finds x)
include h

theorem mem_bool (hbool : (o.bool.get k).isSome) :
    (k, v) ∈ x.marked ↔ (k, v) ∈ markedIn boolToS x.bool := by
  rw [mem_marked, or_iff_left]
  rintro (hmem | hmem)
  · exact (h.string hmem).1 hbool
  · exact (h.path hmem).1 hbool

theorem mem_path (hbool : ¬ (o.bool.get k).isSome) (hpath : (o.path.get k).isSome) :
    (k, v) ∈ x.marked ↔ (k, v) ∈ markedIn id x.path := by
  rw [mem_marked, or_iff_right fun hmem ↦ hbool (h.bool hmem),
    or_iff_right fun hmem ↦ (h.string hmem).2.1 hpath]

theorem mem_string (hbool : ¬ (o.bool.get k).isSome) (hpath : ¬ (o.path.get k).isSome) :
    (k, v) ∈ x.marked ↔ (k, v) ∈ markedIn id x.string := by
  rw [mem_marked, or_iff_right fun hmem ↦ hbool (h.bool hmem),
    or_iff_left fun hmem ↦ hpath (h.path hmem).2]

/-- There is an option for what is written. -/
theorem knows (hmem : (k, v) ∈ x.marked) : o.Knows (.option k (some v)) := by
  rcases mem_marked.1 hmem with hmem | hmem | hmem
  · exact .inl (h.bool hmem)
  · exact .inr ⟨rfl, .inr (h.string hmem).2.2⟩
  · exact .inr ⟨rfl, .inl (h.path hmem).2⟩

/-- No name is marked in two tables. -/
theorem nodup : (x.marked.map Prod.fst).Nodup := by
  rw [Options.marked, List.map_append, List.map_append, List.append_assoc, List.nodup_append',
    List.nodup_append']
  refine ⟨nodup_markedIn _ _, ⟨nodup_markedIn _ _, nodup_markedIn _ _, fun k hk hk' ↦ ?_⟩,
    fun k hk hk' ↦ ?_⟩
  · obtain ⟨⟨k, v⟩, hv, rfl⟩ := List.mem_map.1 hk
    obtain ⟨⟨_, w⟩, hw, rfl⟩ := List.mem_map.1 hk'
    exact (h.string hv).2.1 (h.path hw).2
  · obtain ⟨⟨k, v⟩, hv, rfl⟩ := List.mem_map.1 hk
    rcases List.mem_append.1 hk' with hk' | hk' <;>
      obtain ⟨⟨_, w⟩, hw, rfl⟩ := List.mem_map.1 hk'
    · exact (h.string hw).1 (h.bool hv)
    · exact (h.path hw).1 (h.bool hv)

end Options.Finds

/-! ## The standard paths -/

/-- A marked path is left alone, and an unmarked one stays unmarked. -/
theorem resetPath_cases {p : StandardPath} (h : resetPath expand path p = some path') :
    path' = path ∨ ∃ e e', path' = path.set p.name e' ∧ path.get p.name = some e ∧
      ¬ e.user ∧ ¬ e'.user := by
  obtain ⟨e, he, h⟩ := Option.bind_eq_some_iff.1 h
  split_ifs at h with huser
  · exact .inl (Option.some.inj h).symm
  · obtain ⟨text, -, h⟩ := Option.bind_eq_some_iff.1 h
    exact .inr ⟨e, _, (Option.some.inj h).symm, he, huser, huser⟩

theorem mem_marked_resetPath {p : StandardPath} (h : resetPath expand path p = some path') :
    (k, v) ∈ markedIn id path' ↔ (k, v) ∈ markedIn id path := by
  obtain rfl | ⟨e, e', rfl, he, huser, huser'⟩ := resetPath_cases h
  · rfl
  · rw [mem_markedIn, mem_markedIn]
    by_cases hk : k = p.name
    · rw [hk, Table.get_set_self, he]
      simp [huser, huser']
    · rw [Table.get_set_of_ne _ hk]

theorem mem_marked_setStandardPaths
    (h : setStandardPaths expand .user info path = some path') :
    (k, v) ∈ markedIn id path' ↔ (k, v) ∈ markedIn id path := by
  have hfoldl : ∀ (ps : List StandardPath) (path : Paths),
      ps.foldlM (resetPath expand) path = some path' →
        ((k, v) ∈ markedIn id path' ↔ (k, v) ∈ markedIn id path) := by
    intro ps
    induction ps with
    | nil => exact fun path h ↦ by rw [Option.some.inj h]
    | cons p ps ih =>
        intro path h
        rw [List.foldlM_cons] at h
        obtain ⟨path₁, hpath₁, h⟩ := Option.bind_eq_some_iff.1 h
        rw [ih path₁ h, mem_marked_resetPath hpath₁]
  rw [setStandardPaths] at h
  split_ifs at h
  · exact hfoldl _ _ h
  · rw [Option.some.inj h]

theorem read_congr {q : Paths} (hq : ∀ k, q.get k = path.get k) (b : Base) :
    b.read q = b.read path := by
  cases b with
  | literal s => rfl
  | path name => rw [Base.read, Base.read, hq]

theorem resetPath_congr {p : StandardPath} {q : Paths} (hq : ∀ k, q.get k = path.get k)
    (h : resetPath expand path p = some path') :
    ∃ q', resetPath expand q p = some q' ∧ ∀ k, q'.get k = path'.get k := by
  obtain ⟨e, he, h⟩ := Option.bind_eq_some_iff.1 h
  rw [resetPath, hq, he, read_congr hq]
  split_ifs at h with huser
  · exact ⟨q, if_pos huser, fun k ↦ (hq k).trans (Option.some.inj h ▸ rfl)⟩
  · obtain ⟨text, htext, h⟩ := Option.bind_eq_some_iff.1 h
    obtain rfl := Option.some.inj h
    rw [htext]
    refine ⟨q.set p.name _, if_neg huser, fun k ↦ ?_⟩
    by_cases hk : k = p.name
    · rw [hk, Table.get_set_self, Table.get_set_self]
    · rw [Table.get_set_of_ne _ hk, Table.get_set_of_ne _ hk, hq]

/-- They only depend on what is in the table, not on its order. -/
theorem setStandardPaths_congr {q : Paths} (hq : ∀ k, q.get k = path.get k)
    (h : setStandardPaths expand .user info path = some path') :
    ∃ q', setStandardPaths expand .user info q = some q' ∧ ∀ k, q'.get k = path'.get k := by
  have hfoldl : ∀ (ps : List StandardPath) (path q : Paths), (∀ k, q.get k = path.get k) →
      ps.foldlM (resetPath expand) path = some path' →
        ∃ q', ps.foldlM (resetPath expand) q = some q' ∧ ∀ k, q'.get k = path'.get k := by
    intro ps
    induction ps with
    | nil => exact fun path q hq h ↦ ⟨q, rfl, Option.some.inj h ▸ hq⟩
    | cons p ps ih =>
        intro path q hq h
        rw [List.foldlM_cons] at h
        obtain ⟨path₁, hpath₁, h⟩ := Option.bind_eq_some_iff.1 h
        obtain ⟨q₁, hq₁, hget⟩ := resetPath_congr hq hpath₁
        obtain ⟨q', hq', hget'⟩ := ih path₁ q₁ hget h
        refine ⟨q', ?_, hget'⟩
        rw [List.foldlM_cons, hq₁]
        exact hq'
  rw [setStandardPaths] at h ⊢
  split_ifs at h ⊢
  · exact hfoldl _ _ _ hq h
  · exact ⟨q, rfl, Option.some.inj h ▸ hq⟩

/-- What it takes for the options to be accepted. -/
theorem parseUserConfigOpts_eq_ok_iff : parseUserConfigOpts expand info o args = .ok o₁ ↔
    ∃ path, setStandardPaths expand .user info (parseLoop expand o args).1.path = some path ∧
      (parseLoop expand o args).2 = [] ∧ { (parseLoop expand o args).1 with path } = o₁ := by
  cases hpath : setStandardPaths expand .user info (parseLoop expand o args).1.path with
  | none => simp [parseUserConfigOpts, hpath]
  | some path =>
      rw [parseUserConfigOpts_eq hpath]
      split_ifs with hret <;> simp [hret]

/-! ## What is accepted -/

/-- The text of the option after the user's arguments, if they set it. -/
def Options.given (o : Options) (expand : Str → Str) (args : List Str) (name : Str) : Option Str :=
  if (o.bool.get name).isSome then
    (userSwitch args name).map fun val ↦ boolToS (val.all fun val ↦ !isNo val)
  else if (o.path.get name).isSome then (userValue o args name).map expand
  else if (o.string.get name).isSome then userValue o args name
  else none

/-- A bool option hides the path and the string option of its name. -/
theorem userValue_of_bool (h : (o.bool.get k).isSome) : userValue o args k = none := if_pos h

/-- Where the text comes from: a bool option, a string option, or a path option. -/
theorem given_eq_some_iff : o.given expand args k = some v ↔
    ((o.bool.get k).isSome ∧
      (userSwitch args k).map (fun val ↦ boolToS (val.all fun val ↦ !isNo val)) = some v) ∨
    ((o.string.get k).isSome ∧ (userString o args k).map id = some v) ∨
    ((o.path.get k).isSome ∧ (userValue o args k).map expand = some v) := by
  rw [Options.given, userString]
  by_cases hbool : (o.bool.get k).isSome
  · simp [hbool, userValue_of_bool hbool]
  by_cases hpath : (o.path.get k).isSome
  · simp [hbool, hpath]
  · simp [hbool, hpath]

section Accepted

variable (h : parseUserConfigOpts expand info o args = .ok o₁)
include h

theorem mem_marked_bool : (k, v) ∈ markedIn boolToS o₁.bool ↔ ((o.bool.get k).isSome ∧
    (userSwitch args k).map (fun val ↦ boolToS (val.all fun val ↦ !isNo val)) = some v) ∨
      (userSwitch args k = none ∧ (k, v) ∈ markedIn boolToS o.bool) := by
  obtain ⟨path, -, -, rfl⟩ := parseUserConfigOpts_eq_ok_iff.1 h
  exact mem_markedIn_of_give (get_bool_parseLoop expand o args k)

theorem mem_marked_string : (k, v) ∈ markedIn id o₁.string ↔
    ((o.string.get k).isSome ∧ (userString o args k).map id = some v) ∨
      (userString o args k = none ∧ (k, v) ∈ markedIn id o.string) := by
  obtain ⟨path, -, -, rfl⟩ := parseUserConfigOpts_eq_ok_iff.1 h
  exact mem_markedIn_of_give (get_string_parseLoop expand o args k)

theorem mem_marked_path : (k, v) ∈ markedIn id o₁.path ↔
    ((o.path.get k).isSome ∧ (userValue o args k).map expand = some v) ∨
      (userValue o args k = none ∧ (k, v) ∈ markedIn id o.path) := by
  obtain ⟨path, hpath, -, rfl⟩ := parseUserConfigOpts_eq_ok_iff.1 h
  rw [mem_marked_setStandardPaths hpath]
  exact mem_markedIn_of_give (get_path_parseLoop o args k)

theorem finds (ho : o.Finds o) : o.Finds o₁ where
  bool hmem := ((mem_marked_bool h).1 hmem).elim (fun hgiven ↦ hgiven.1) fun hmarked ↦
    ho.bool hmarked.2
  path hmem := by
    rcases (mem_marked_path h).1 hmem with ⟨hpath, hvalue⟩ | ⟨-, hmarked⟩
    · refine ⟨fun hbool ↦ ?_, hpath⟩
      rw [userValue_of_bool hbool] at hvalue
      cases hvalue
    · exact ho.path hmarked
  string hmem := by
    rcases (mem_marked_string h).1 hmem with ⟨hstring, hvalue⟩ | ⟨-, hmarked⟩
    · rw [Option.map_id, id, userString] at hvalue
      split_ifs at hvalue with hpath
      refine ⟨fun hbool ↦ ?_, hpath, hstring⟩
      rw [userValue_of_bool hbool] at hvalue
      cases hvalue
    · exact ho.string hmarked

/-- The user's options are marked, and those of the package that the user doesn't set. -/
theorem mem_marked_iff (ho : o.Finds o) : (k, v) ∈ o₁.marked ↔
    o.given expand args k = some v ∨ (o.given expand args k = none ∧ (k, v) ∈ o.marked) := by
  have hfinds := finds h ho
  rw [Options.given]
  split_ifs with hbool hpath hstring
  · rw [hfinds.mem_bool hbool, ho.mem_bool hbool, mem_marked_bool h, Option.map_eq_none_iff]
    simp only [hbool, true_and]
  · rw [hfinds.mem_path hbool hpath, ho.mem_path hbool hpath, mem_marked_path h,
      Option.map_eq_none_iff]
    simp only [hpath, true_and]
  · rw [hfinds.mem_string hbool hpath, ho.mem_string hbool hpath, mem_marked_string h, userString,
      if_neg hpath, Option.map_id, id]
    simp only [hstring, true_and]
  · have hnone : ¬ o.Knows (.option k (some v)) := by simp [Options.Knows, hbool, hpath, hstring]
    refine iff_of_false (fun hmem ↦ hnone (hfinds.knows hmem)) ?_
    rintro (hgiven | ⟨-, hmem⟩)
    · cases hgiven
    · exact hnone (ho.knows hmem)

/-- If the package leaves the marks to the user, they are all the user's. -/
theorem mem_marked_iff_given (hnil : o.marked = []) :
    (k, v) ∈ o₁.marked ↔ o.given expand args k = some v := by
  rw [mem_marked_iff h (finds_of_marked_eq_nil hnil), hnil, or_iff_left fun hmem ↦ nomatch hmem.2]

end Accepted

/-! ## What is written is accepted -/

/-- What is written for a bool option is read in the same way. -/
theorem isNo_boolToS : ∀ b, isNo (boolToS b) = !b := by decide

/-- The text that is written for a name in a table, if the name is marked there. -/
theorem find_marked {α : Type} {toS : α → Str} {t : Table Str (Entry α)} {e : Entry α}
    (hnodup : (o₁.marked.map Prod.fst).Nodup)
    (hmem : ∀ v, (k, v) ∈ o₁.marked ↔ (k, v) ∈ markedIn toS t) (he : t.get k = some e) :
    Table.find k o₁.marked = if e.user then some (toS e.value) else none := by
  refine Option.ext fun v ↦ ?_
  rw [Table.find_eq_some_iff hnodup, hmem, mem_markedIn, he]
  split_ifs with huser <;> simp [huser]

section Written

variable (htokens : tokens args' = o₁.marked.map fun e ↦ .option e.1 (some e.2))
  (hnodup : (o₁.marked.map Prod.fst).Nodup)
include htokens hnodup

theorem last_written :
    ((tokens args').filterMap (Token.valueFor k)).getLast? = Table.find k o₁.marked := by
  have hfilter := Table.filterMap_eq_toList_find (k := k) hnodup
  rw [htokens, List.filterMap_map]
  refine (congrArg List.getLast? hfilter).trans ?_
  cases Table.find k o₁.marked <;> rfl

theorem userSwitch_written : userSwitch args' k = (Table.find k o₁.marked).map some := by
  rw [userSwitch, ← last_written htokens hnodup, ← List.getLast?_map, List.map_filterMap, htokens,
    List.filterMap_map, List.filterMap_map]
  congr 1
  refine List.filterMap_congr fun e _ ↦ ?_
  rw [Function.comp_apply, Function.comp_apply, Token.switchFor, Token.valueFor]
  split_ifs <;> rfl

theorem userValue_written (hbool : ¬ (o.bool.get k).isSome) :
    userValue o args' k = Table.find k o₁.marked :=
  (if_neg hbool).trans (last_written htokens hnodup)

end Written

theorem switched_map_some (e : Entry Bool) (val : Option Str) :
    e.switched (val.map some) = val.elim e fun v ↦ e.give (!isNo v) := by
  cases val <;> rfl

section Loop

variable (h : parseUserConfigOpts expand info o args = .ok o₁) (hfinds : o.Finds o₁)
  (htokens : tokens args' = o₁.marked.map fun e ↦ .option e.1 (some e.2)) (k : Str)
include h hfinds htokens

theorem get_bool_written :
    (parseLoop expand o args').1.bool.get k = (parseLoop expand o args).1.bool.get k := by
  obtain ⟨path, -, -, rfl⟩ := parseUserConfigOpts_eq_ok_iff.1 h
  cases he : o.bool.get k with
  | none => rw [get_bool_parseLoop, get_bool_parseLoop, he]; rfl
  | some e =>
      have hget : (parseLoop expand o args).1.bool.get k =
          some (e.switched (userSwitch args k)) := by
        rw [get_bool_parseLoop, he]
        rfl
      have hfind := find_marked hfinds.nodup (fun v ↦ hfinds.mem_bool (by rw [he]; rfl)) hget
      rw [hget, get_bool_parseLoop, he, Option.map_some, userSwitch_written htokens hfinds.nodup,
        hfind, switched_map_some]
      exact congrArg some (give_back rfl fun _ ↦ by rw [isNo_boolToS, Bool.not_not])

theorem get_path_written (hexpanded : ∀ k v, (k, v) ∈ markedIn id o₁.path → expand v = v) :
    (parseLoop expand o args').1.path.get k = (parseLoop expand o args).1.path.get k := by
  cases he : o.path.get k with
  | none => rw [get_path_parseLoop, get_path_parseLoop, he]; rfl
  | some e =>
      by_cases hbool : (o.bool.get k).isSome
      · rw [get_path_parseLoop, get_path_parseLoop, userValue_of_bool hbool,
          userValue_of_bool hbool]
      have hget : (parseLoop expand o args).1.path.get k =
          some (e.given expand (userValue o args k)) := by
        rw [get_path_parseLoop, he]
        rfl
      have hmarked : ∀ v, (k, v) ∈ markedIn id o₁.path ↔
          (k, v) ∈ markedIn id (parseLoop expand o args).1.path := fun v ↦ by
        obtain ⟨path, hpath, -, rfl⟩ := parseUserConfigOpts_eq_ok_iff.1 h
        exact mem_marked_setStandardPaths hpath
      have hfind := find_marked hfinds.nodup
        (fun v ↦ (hfinds.mem_path hbool (by rw [he]; rfl)).trans (hmarked v)) hget
      rw [hget, get_path_parseLoop, he, Option.map_some,
        userValue_written htokens hfinds.nodup hbool, hfind]
      refine congrArg some (give_back rfl fun huser ↦ hexpanded k _ ?_)
      exact (hmarked _).2 (mem_markedIn.2 ⟨_, hget, huser, rfl⟩)

theorem get_string_written :
    (parseLoop expand o args').1.string.get k = (parseLoop expand o args).1.string.get k := by
  cases he : o.string.get k with
  | none => rw [get_string_parseLoop, get_string_parseLoop, he]; rfl
  | some e =>
      by_cases hpath : (o.path.get k).isSome
      · rw [get_string_parseLoop, get_string_parseLoop, userString, userString, if_pos hpath,
          if_pos hpath]
      by_cases hbool : (o.bool.get k).isSome
      · rw [get_string_parseLoop, get_string_parseLoop, userString, userString, if_neg hpath,
          if_neg hpath, userValue_of_bool hbool, userValue_of_bool hbool]
      have hget : (parseLoop expand o args).1.string.get k =
          some (e.given id (userString o args k)) := by
        rw [get_string_parseLoop, he]
        rfl
      have hmarked : ∀ v, (k, v) ∈ markedIn id o₁.string ↔
          (k, v) ∈ markedIn id (parseLoop expand o args).1.string := fun v ↦ by
        obtain ⟨path, -, -, rfl⟩ := parseUserConfigOpts_eq_ok_iff.1 h
        rfl
      have hfind := find_marked hfinds.nodup
        (fun v ↦ (hfinds.mem_string hbool hpath).trans (hmarked v)) hget
      rw [hget, get_string_parseLoop, he, Option.map_some, userString, if_neg hpath,
        userValue_written htokens hfinds.nodup hbool, hfind]
      exact congrArg some (give_back rfl fun _ ↦ rfl)

end Loop

/-- It is accepted. -/
theorem accepted_of_written (h : parseUserConfigOpts expand info o args = .ok o₁)
    (hfinds : o.Finds o₁) (hexpanded : ∀ k v, (k, v) ∈ markedIn id o₁.path → expand v = v)
    (htokens : tokens args' = o₁.marked.map fun e ↦ .option e.1 (some e.2)) :
    ∃ o₂, parseUserConfigOpts expand info o args' = .ok o₂ ∧ o₂.Agrees o₁ := by
  have hpaths := fun k ↦ get_path_written h hfinds htokens k hexpanded
  have hbools := get_bool_written h hfinds htokens
  have hstrings := get_string_written h hfinds htokens
  have hknows : ∀ t ∈ tokens args', o.Knows t := fun t ht ↦ by
    rw [htokens] at ht
    obtain ⟨e, he, rfl⟩ := List.mem_map.1 ht
    exact hfinds.knows he
  obtain ⟨path, hpath, -, rfl⟩ := parseUserConfigOpts_eq_ok_iff.1 h
  obtain ⟨path', hpath', hget⟩ := setStandardPaths_congr hpaths hpath
  refine ⟨_, parseUserConfigOpts_eq_ok_iff.2
    ⟨path', hpath', (ret_parseLoop_eq_nil_iff expand o args').2 hknows, rfl⟩, fun k ↦ ?_⟩
  exact ⟨congrArg _ (hbools k), congrArg _ (hstrings k), congrArg _ (hget k)⟩

/-! ## Where the texts come from -/

theorem exists_token_of_userValue {val : Str} (h : userValue o args k = some val) :
    .option k (some val) ∈ tokens args := by
  rw [userValue] at h
  split_ifs at h with hbool
  obtain ⟨t, ht, hval⟩ := List.mem_filterMap.1 (List.mem_of_getLast? h)
  cases t with
  | bad arg => cases hval
  | option opt val' =>
      rw [Token.valueFor] at hval
      split_ifs at hval with hopt
      exact hopt ▸ hval ▸ ht

theorem exists_token_of_userSwitch {val : Option Str} (h : userSwitch args k = some val) :
    .option k val ∈ tokens args := by
  obtain ⟨t, ht, hval⟩ := List.mem_filterMap.1 (List.mem_of_getLast? h)
  cases t with
  | bad arg => cases hval
  | option opt val' =>
      rw [Token.switchFor] at hval
      split_ifs at hval with hopt
      exact hopt ▸ Option.some.inj hval ▸ ht

/-- What is given is given in an argument. -/
theorem exists_token_of_given (h : o.given expand args k = some v) :
    ∃ val, .option k val ∈ tokens args ∧
      ((∃ b, v = boolToS b) ∨ ∃ u, val = some u ∧ (v = u ∨ v = expand u)) := by
  rcases given_eq_some_iff.1 h with ⟨-, hswitch⟩ | ⟨-, hvalue⟩ | ⟨-, hvalue⟩
  · obtain ⟨val, hval, rfl⟩ := Option.map_eq_some_iff.1 hswitch
    exact ⟨val, exists_token_of_userSwitch hval, .inl ⟨_, rfl⟩⟩
  · rw [Option.map_id, id, userString] at hvalue
    split_ifs at hvalue
    exact ⟨_, exists_token_of_userValue hvalue, .inr ⟨v, rfl, .inl rfl⟩⟩
  · obtain ⟨u, hu, rfl⟩ := Option.map_eq_some_iff.1 hvalue
    exact ⟨_, exists_token_of_userValue hu, .inr ⟨u, rfl, .inr rfl⟩⟩

theorem given_of_userValue {val : Str} (h : userValue o args k = some val)
    (hknows : (o.path.get k).isSome ∨ (o.string.get k).isSome) :
    o.given expand args k = some (if (o.path.get k).isSome then expand val else val) := by
  have hbool : ¬ (o.bool.get k).isSome := fun hbool ↦ by
    rw [userValue_of_bool hbool] at h
    cases h
  rw [Options.given, if_neg hbool, h]
  split_ifs with hpath hstring
  · rfl
  · rfl
  · exact absurd (hknows.resolve_left hpath) hstring

theorem exists_getLast? {α : Type} {l : List α} {a : α} (h : a ∈ l) : ∃ b, l.getLast? = some b :=
  ⟨_, List.getLast?_eq_some_getLast (List.ne_nil_of_mem h)⟩

/-- Every argument that is accepted gives something. -/
theorem exists_given_of_mem (expand : Str → Str) {opt : Str} {val : Option Str}
    (hmem : .option opt val ∈ tokens args) (hknows : o.Knows (.option opt val)) :
    ∃ v, o.given expand args opt = some v := by
  by_cases hbool : (o.bool.get opt).isSome
  · have hswitch : val ∈ (tokens args).filterMap (Token.switchFor opt) :=
      List.mem_filterMap.2 ⟨_, hmem, if_pos rfl⟩
    obtain ⟨val', hval'⟩ := exists_getLast? hswitch
    rw [Options.given, if_pos hbool, userSwitch, hval']
    exact ⟨_, rfl⟩
  · obtain ⟨hsome, hname⟩ := hknows.resolve_left hbool
    obtain ⟨u, rfl⟩ := Option.isSome_iff_exists.1 hsome
    have hvalue : u ∈ (tokens args).filterMap (Token.valueFor opt) :=
      List.mem_filterMap.2 ⟨_, hmem, if_pos rfl⟩
    obtain ⟨u', hu'⟩ := exists_getLast? hvalue
    exact ⟨_, given_of_userValue ((if_neg hbool).trans hu') hname⟩

end Tidbits.Quickbuild
