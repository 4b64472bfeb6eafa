import Tidbits.Quickbuild.Arguments
import Tidbits.Sequence.Derivation

/-!
# The standard paths of quickbuild

`QBPackage` sets the standard paths twice: before it reads the user's options,
where `init_path` leaves a path that the package set, and after that, where
`reset_path` only leaves a path that is marked as the user's.

`standardPaths_meet_iff` says for which packages and options every path is the
user's, else the package's, else the one that it is derived from with its suffix.

`File.expand_path` is a parameter.
-/

namespace Tidbits.Quickbuild

open Tidbits.Sequence

/-! ## The table -/

/-- What a path is derived from: a string or another path. -/
inductive Base where
  | literal (s : Str)
  | path (name : Str)

/-- `prefix.to_s` -/
def Base.toS : Base → Str
  | literal s => s
  | path name => name

/-- The path that has to be known. -/
def Base.source : Base → Option Str
  | literal _ => none
  | path name => some name

/-- The text that the base stands for, given the value of the other path. -/
def Base.text : Base → Option Str → Str
  | literal s, _ => s
  | path _, value => value.getD []

/-- The arguments of one call of `set`. -/
structure StandardPath where
  name : Str
  base : Base
  dir : Str := []

/-- The calls of `set_standard_paths`. -/
def standardPaths (packageName : Str) : List StandardPath :=
  let path (name base : String) (dir : Str) : StandardPath := ⟨name.toList, .path base.toList, dir⟩
  [⟨"prefix".toList, .literal "installed".toList, []⟩,
    path "eprefix" "prefix" [],
    path "bindir" "eprefix" "/bin".toList,
    path "sbindir" "eprefix" "/sbin".toList,
    path "libexecdir" "eprefix" "/libexec".toList,
    path "sysconfdir" "prefix" "/etc".toList,
    path "sharedstatedir" "prefix" "/com".toList,
    path "localstatedir" "prefix" "/var".toList,
    path "libdir" "eprefix" "/lib".toList,
    path "pkgconfigdir" "libdir" "/pkgconfig".toList,
    path "includedir" "prefix" "/include".toList,
    ⟨"oldincludedir".toList, .literal "/usr/include".toList, []⟩,
    path "datarootdir" "prefix" "/share".toList,
    path "datadir" "datarootdir" [],
    path "infodir" "datarootdir" "/info".toList,
    path "localedir" "datarootdir" "/locale".toList,
    path "mandir" "datarootdir" "/man".toList,
    path "docdir" "datarootdir" ("/doc/".toList ++ packageName),
    path "htmldir" "docdir" [],
    path "dvidir" "docdir" [],
    path "pdfdir" "docdir" [],
    path "psdir" "docdir" []]

abbrev Paths := Table Str (Entry Str)

/-- The value of a path, which every standard path has when it is read. -/
def Paths.value (path : Paths) (name : Str) : Str := ((path.get name).map Entry.value).getD []

/-- `prefix` or `path[prefix][0]`, which is undefined if the path isn't there. -/
def Base.read (path : Paths) : Base → Option Str
  | literal s => some s
  | .path name => (path.get name).map Entry.value

def initPath (expand : Str → Str) (path : Paths) (p : StandardPath) : Option Paths :=
  if (path.get p.name).isSome then some path
  else do
    let text ← p.base.read path
    return path.set p.name
      { value := expand (text ++ p.dir)
        desc := p.name ++ ".  The default value is ".toList ++ p.base.toS.map Char.toUpper ++ p.dir
        user := false }

def resetPath (expand : Str → Str) (path : Paths) (p : StandardPath) : Option Paths := do
  let entry ← path.get p.name
  if entry.user then return path
  else
    let text ← p.base.read path
    return path.set p.name { entry with value := expand (text ++ p.dir), desc := p.name }

inductive Stage where
  | init
  | user

/-- The part of `info` that decides the paths. -/
structure Info where
  name : Str
  standardPaths : Bool

def setStandardPaths (expand : Str → Str) (stage : Stage) (info : Info) (path : Paths) :
    Option Paths :=
  if info.standardPaths then
    match stage with
    | .init => (standardPaths info.name).foldlM (initPath expand) path
    | .user => (standardPaths info.name).foldlM (resetPath expand) path
  else some path

/-- How the initialisation of a package fails. -/
inductive Failure where
  | badOptions (ret : Str)
  | undefinedMethod

def parseUserConfigOpts (expand : Str → Str) (info : Info) (o : Options) (args : List Str) :
    Except Failure Options :=
  let (o, ret) := parseLoop expand o args
  match setStandardPaths expand .user info o.path with
  | none => .error .undefinedMethod
  | some path => if ret = [] then .ok { o with path } else .error (.badOptions ret)

/-- `info[:NAME].gsub!(/ /,'_')` -/
def Info.named (info : Info) : Info :=
  { info with name := info.name.map fun c ↦ if c = ' ' then '_' else c }

/-- `initialize`, from where `set_package_info` has left `info` and the options. -/
def initializePackage (expand : Str → Str) (info : Info) (option : Options)
    (userConfigOpts : Option (List Str)) : Except Failure Options :=
  match setStandardPaths expand .init info.named option.path with
  | none => .error .undefinedMethod
  | some path =>
      let o := { option with path := path.mapValues fun _ e ↦ { e with value := expand e.value } }
      match userConfigOpts with
      | none => .ok o
      | some args => parseUserConfigOpts expand info.named o args

/-! ## The two passes over the table -/

/-- The value of a path that is derived, from the value of the one that it is derived from. -/
def StandardPath.derived (expand : Str → Str) (p : StandardPath) (value : Option Str) : Str :=
  expand (p.base.text value ++ p.dir)

abbrev StandardPath.source (p : StandardPath) : Option Str := p.base.source

/-- Every path is derived from one before it: the dependent paths are set after the others. -/
theorem ordered_standardPaths (packageName : Str) :
    Ordered StandardPath.name StandardPath.source [] (standardPaths packageName) := by
  simp [Ordered, standardPaths, StandardPath.source, Base.source]

variable {expand : Str → Str} {info : Info} {presets o : Options} {args known : List Str}
  {path path' path'' : Paths} {p : StandardPath} {ps : List StandardPath}

theorem read_of_known (h : ∀ k ∈ p.source, (path.get k).isSome) :
    p.base.read path = some (p.base.text (p.source.map path.value)) := by
  rw [StandardPath.source] at *
  cases hbase : p.base with
  | literal s => rfl
  | path name =>
      rw [hbase] at h
      obtain ⟨e, he⟩ := Option.isSome_iff_exists.1 (h name rfl)
      simp only [Base.read, Base.text, Base.source, Paths.value, he, Option.map_some,
        Option.getD_some]

/-- The package's paths are kept, and what is new is not the user's. -/
structure Extends (path path' : Paths) : Prop where
  kept : ∀ k e, path.get k = some e → path'.get k = some e
  unmarked : ∀ k e, path.get k = none → path'.get k = some e → e.user = false

theorem Extends.refl (path : Paths) : Extends path path :=
  ⟨fun _ _ h ↦ h, fun _ _ hnone h ↦ by rw [hnone] at h; cases h⟩

theorem Extends.trans (h : Extends path path') (h' : Extends path' path'') :
    Extends path path'' where
  kept k e he := h'.kept k e (h.kept k e he)
  unmarked k e hnone he := by
    cases hk : path'.get k with
    | none => exact h'.unmarked k e hk he
    | some e' =>
        rw [h'.kept k e' hk] at he
        exact Option.some.inj he ▸ h.unmarked k e' hnone hk

theorem initPath_extends (expand : Str → Str) (h : ∀ k ∈ p.source, (path.get k).isSome) :
    ∃ path', initPath expand path p = some path' ∧ (path'.get p.name).isSome ∧
      Extends path path' := by
  rw [initPath]
  split_ifs with hp
  · exact ⟨path, rfl, hp, Extends.refl path⟩
  · rw [read_of_known h]
    refine ⟨_, rfl, by rw [Table.get_set_self]; rfl, fun k e he ↦ ?_, fun k e hnone he ↦ ?_⟩
    · refine (Table.get_set_of_ne _ fun hk ↦ hp ?_).trans he
      rw [← hk, he]
      rfl
    · by_cases hk : k = p.name
      · rw [hk, Table.get_set_self] at he
        rw [← Option.some.inj he]
      · rw [Table.get_set_of_ne _ hk, hnone] at he
        cases he

theorem Extends.isSome {k : Str} (h : Extends path path') (hk : (path.get k).isSome) :
    (path'.get k).isSome := by
  obtain ⟨e, he⟩ := Option.isSome_iff_exists.1 hk
  rw [h.kept k e he]
  rfl

/-- The first pass ends with all standard paths. -/
theorem initPaths_extends (hord : Ordered StandardPath.name StandardPath.source known ps)
    (hknown : ∀ k ∈ known, (path.get k).isSome) :
    ∃ path', ps.foldlM (initPath expand) path = some path' ∧
      (∀ p ∈ ps, (path'.get p.name).isSome) ∧ Extends path path' := by
  induction ps generalizing known path with
  | nil => exact ⟨path, rfl, (fun p hp ↦ nomatch hp), Extends.refl path⟩
  | cons p ps ih =>
      obtain ⟨-, hsource, hps⟩ := hord
      obtain ⟨path₁, hpath₁, hp, hext₁⟩ :=
        initPath_extends expand fun k hk ↦ hknown k (hsource k hk)
      have hknown₁ : ∀ k ∈ p.name :: known, (path₁.get k).isSome := fun k hk ↦
        (List.mem_cons.1 hk).elim (fun hk ↦ hk ▸ hp) fun hk ↦ hext₁.isSome (hknown k hk)
      obtain ⟨path', hpath', hall, hext⟩ := ih hps hknown₁
      refine ⟨path', ?_, fun q hq ↦ ?_, hext₁.trans hext⟩
      · rw [List.foldlM_cons, hpath₁]
        exact hpath'
      · exact (List.mem_cons.1 hq).elim (fun hq ↦ hext.isSome (hq ▸ hp)) (hall q)

/-- What the second pass leaves in a path. -/
def StandardPath.reset (expand : Str → Str) (p : StandardPath) (e : Entry Str)
    (value : Option Str) : Str :=
  if e.user then e.value else p.derived expand value

theorem resetPath_eq (expand : Str → Str) {e : Entry Str}
    (h : ∀ k ∈ p.source, (path.get k).isSome) (he : path.get p.name = some e) :
    ∃ path' e', resetPath expand path p = some path' ∧ path'.get p.name = some e' ∧
      e'.value = p.reset expand e (p.source.map path.value) ∧
      ∀ k ≠ p.name, path'.get k = path.get k := by
  rw [resetPath, he, StandardPath.reset]
  split_ifs with huser
  · exact ⟨path, e, if_pos huser, he, rfl, fun k _ ↦ rfl⟩
  · rw [read_of_known h]
    exact ⟨path.set p.name _, _, if_neg huser, Table.get_set_self _, rfl,
      fun k hk ↦ Table.get_set_of_ne _ hk⟩

/-- The second pass ends, and derives what isn't marked from what it leaves in the other paths. -/
theorem resetPaths_eq (hord : Ordered StandardPath.name StandardPath.source known ps)
    (hknown : ∀ k ∈ known, (path.get k).isSome) (hall : ∀ p ∈ ps, (path.get p.name).isSome) :
    ∃ path', ps.foldlM (resetPath expand) path = some path' ∧
      (∀ k ∈ known, path'.get k = path.get k) ∧
      ∀ p ∈ ps, ∀ e, path.get p.name = some e → ∃ e', path'.get p.name = some e' ∧
        e'.value = p.reset expand e (p.source.map path'.value) := by
  induction ps generalizing known path with
  | nil => exact ⟨path, rfl, (fun k _ ↦ rfl), fun p hp ↦ nomatch hp⟩
  | cons p ps ih =>
      obtain ⟨hnot, hsource, hps⟩ := hord
      obtain ⟨e, he⟩ := Option.isSome_iff_exists.1 (hall p List.mem_cons_self)
      obtain ⟨path₁, e₁, hpath₁, he₁, hvalue, hother⟩ :=
        resetPath_eq expand (fun k hk ↦ hknown k (hsource k hk)) he
      have hne : ∀ k ∈ known, k ≠ p.name := fun k hk heq ↦ hnot (heq ▸ hk)
      have hlater : ∀ q ∈ ps, q.name ≠ p.name :=
        fun q hq heq ↦ hps.key_notMem hq (List.mem_cons.2 (.inl heq))
      have hknown₁ : ∀ k ∈ p.name :: known, (path₁.get k).isSome := fun k hk ↦ by
        rcases List.mem_cons.1 hk with rfl | hk
        · rw [he₁]
          rfl
        · rw [hother k (hne k hk)]
          exact hknown k hk
      obtain ⟨path', hpath', hkept, hreset⟩ := ih hps hknown₁ fun q hq ↦ by
        rw [hother q.name (hlater q hq)]
        exact hall q (List.mem_cons_of_mem _ hq)
      have hsame : ∀ k ∈ known, path'.get k = path.get k := fun k hk ↦
        (hkept k (List.mem_cons_of_mem _ hk)).trans (hother k (hne k hk))
      refine ⟨path', ?_, hsame, fun q hq e' he' ↦ ?_⟩
      · rw [List.foldlM_cons, hpath₁]
        exact hpath'
      · rcases List.mem_cons.1 hq with rfl | hq
        · have hread : q.source.map path'.value = q.source.map path.value :=
            map_source_congr hsource fun k hk ↦ by rw [Paths.value, hsame k hk, Paths.value]
          rw [he] at he'
          refine ⟨e₁, (hkept q.name List.mem_cons_self).trans he₁, ?_⟩
          rw [hvalue, hread, Option.some.inj he']
        · exact hreset q hq e' ((hother q.name (hlater q hq)).trans he')

/-! ## The initialisation -/

/-- A path option with its value expanded, and with the user's value if there is one. -/
def Entry.read (expand : Str → Str) (val : Option Str) (e : Entry Str) : Entry Str :=
  Entry.given expand val { e with value := expand e.value }

theorem setStandardPaths_init (expand : Str → Str) (info : Info) (path : Paths) :
    ∃ path', setStandardPaths expand .init info path = some path' ∧
      (info.standardPaths → ∀ p ∈ standardPaths info.name, (path'.get p.name).isSome) ∧
      Extends path path' ∧ (¬ info.standardPaths → path' = path) := by
  rw [setStandardPaths]
  split_ifs with hstd
  · obtain ⟨path', hpath', hall, hext⟩ :=
      initPaths_extends (ordered_standardPaths info.name) (fun k hk ↦ by cases hk)
    exact ⟨path', hpath', fun _ ↦ hall, hext, fun h ↦ absurd hstd h⟩
  · exact ⟨path, rfl, fun h ↦ absurd h hstd, Extends.refl path, fun _ ↦ rfl⟩

theorem setStandardPaths_user (expand : Str → Str) (info : Info) (path : Paths)
    (hall : info.standardPaths → ∀ p ∈ standardPaths info.name, (path.get p.name).isSome) :
    ∃ path', setStandardPaths expand .user info path = some path' ∧
      (info.standardPaths → ∀ p ∈ standardPaths info.name, ∀ e, path.get p.name = some e →
        ∃ e', path'.get p.name = some e' ∧
          e'.value = p.reset expand e (p.source.map path'.value)) ∧
      (¬ info.standardPaths → path' = path) := by
  rw [setStandardPaths]
  split_ifs with hstd
  · obtain ⟨path', hpath', -, hreset⟩ :=
      resetPaths_eq (ordered_standardPaths info.name) (fun k hk ↦ by cases hk) (hall hstd)
    exact ⟨path', hpath', fun _ ↦ hreset, fun h ↦ absurd hstd h⟩
  · exact ⟨path, rfl, fun h ↦ absurd h hstd, fun _ ↦ rfl⟩

/-- What a package has after the two passes and the user's options between them. -/
structure Initialized (expand : Str → Str) (info : Info) (presets : Options) (args : List Str)
    (path' path : Paths) : Prop where
  extended : Extends presets.path path'
  present : info.standardPaths → ∀ p ∈ standardPaths info.named.name, (path'.get p.name).isSome
  reset : info.standardPaths → ∀ p ∈ standardPaths info.named.name, ∀ e,
    path'.get p.name = some e → ∃ e', path.get p.name = some e' ∧ e'.value =
      p.reset expand (e.read expand (userValue presets args p.name)) (p.source.map path.value)
  untouched : ¬ info.standardPaths → ∀ name, path.get name =
    (presets.path.get name).map (Entry.read expand (userValue presets args name))

theorem parseUserConfigOpts_eq
    (h : setStandardPaths expand .user info (parseLoop expand o args).1.path = some path) :
    parseUserConfigOpts expand info o args =
      if (parseLoop expand o args).2 = [] then .ok { (parseLoop expand o args).1 with path }
      else .error (.badOptions (parseLoop expand o args).2) := by
  simp only [parseUserConfigOpts, h]

theorem initializePackage_eq (expand : Str → Str) (info : Info) (presets : Options)
    (args : List Str) : ∃ path' path o ret, Initialized expand info presets args path' path ∧
      o.path = path ∧ initializePackage expand info presets (some args) =
        if ret = [] then .ok o else .error (.badOptions ret) := by
  obtain ⟨path', hpath', hall, hext, hsame⟩ :=
    setStandardPaths_init expand info.named presets.path
  let o₁ := { presets with path := path'.mapValues fun _ e ↦ { e with value := expand e.value } }
  have hread : ∀ name, (parseLoop expand o₁ args).1.path.get name =
      (path'.get name).map (Entry.read expand (userValue presets args name)) := fun name ↦ by
    rw [get_path_parseLoop, Table.get_mapValues, Option.map_map]
    rfl
  obtain ⟨path, hpath, hreset, hsame'⟩ := setStandardPaths_user expand info.named
    (parseLoop expand o₁ args).1.path fun hstd p hp ↦ by
      rw [hread, Option.isSome_map]
      exact hall hstd p hp
  refine ⟨path', path, { (parseLoop expand o₁ args).1 with path }, (parseLoop expand o₁ args).2,
    ⟨hext, hall, fun hstd p hp e he ↦ ?_, fun hstd name ↦ ?_⟩, rfl, ?_⟩
  · exact hreset hstd p hp _ (by rw [hread, he]; rfl)
  · rw [hsame' hstd, hread, hsame hstd]
  · rw [initializePackage, hpath']
    exact parseUserConfigOpts_eq hpath

/-! ## What the paths are -/

/-- The user's value, else the package's, else the derived one. -/
def wanted (expand : Str → Str) (presets : Options) (args : List Str) (p : StandardPath)
    (value : Option Str) : Str :=
  match userValue presets args p.name with
  | some val => expand val
  | none =>
      match presets.path.get p.name with
      | some e => expand e.value
      | none => p.derived expand value

/-- The user's value, else a marked one of the package, else the derived one. -/
def settled (expand : Str → Str) (presets : Options) (args : List Str) (p : StandardPath)
    (value : Option Str) : Str :=
  match userValue presets args p.name with
  | some val => expand val
  | none =>
      match presets.path.get p.name with
      | some e => if e.user then expand e.value else p.derived expand value
      | none => p.derived expand value

/-- All standard paths as they are wanted, computed from the package and the options only. -/
def wantedPaths (expand : Str → Str) (info : Info) (presets : Options) (args : List Str) :
    Str → Str :=
  solve StandardPath.name StandardPath.source (wanted expand presets args)
    (standardPaths info.named.name) fun _ ↦ []

/-- Every standard path that there is has the value that is wanted, given the final value of the
path that it is derived from. -/
def PathsMeet (expand : Str → Str) (info : Info) (presets : Options) (args : List Str)
    (o : Options) : Prop :=
  ∀ p ∈ standardPaths info.named.name,
    (info.standardPaths → (o.path.get p.name).isSome) ∧
      ∀ e, o.path.get p.name = some e →
        e.value = wanted expand presets args p (p.source.map (Paths.value o.path))

/-- A path that the package sets and the user doesn't is what would be derived, or marked. -/
def PresetsDerived (expand : Str → Str) (info : Info) (presets : Options) (args : List Str) :
    Prop :=
  info.standardPaths → ∀ p ∈ standardPaths info.named.name, ∀ e,
    presets.path.get p.name = some e → userValue presets args p.name = none → ¬ e.user →
      expand e.value = p.derived expand (p.source.map (wantedPaths expand info presets args))

theorem Initialized.reset_eq (h : Initialized expand info presets args path' path) {e : Entry Str}
    (he : path'.get p.name = some e) (value : Option Str) :
    p.reset expand (e.read expand (userValue presets args p.name)) value =
      settled expand presets args p value := by
  rw [settled, StandardPath.reset]
  cases hval : userValue presets args p.name with
  | some val => rfl
  | none =>
      cases hpreset : presets.path.get p.name with
      | some e' =>
          obtain rfl := Option.some.inj (he.symm.trans (h.extended.kept p.name e' hpreset))
          rfl
      | none =>
          refine if_neg ?_
          rw [show (e.read expand none).user = e.user from rfl,
            h.extended.unmarked p.name e hpreset he]
          decide

theorem Initialized.exists_entry (h : Initialized expand info presets args path' path)
    (hstd : info.standardPaths) (hp : p ∈ standardPaths info.named.name) :
    ∃ e, path.get p.name = some e ∧
      e.value = settled expand presets args p (p.source.map path.value) := by
  obtain ⟨e', he'⟩ := Option.isSome_iff_exists.1 (h.present hstd p hp)
  obtain ⟨e, he, hvalue⟩ := h.reset hstd p hp e' he'
  exact ⟨e, he, hvalue.trans (h.reset_eq he' _)⟩

theorem value_of_get {name : Str} {e : Entry Str} (h : path.get name = some e) :
    path.value name = e.value := by
  rw [Paths.value, h, Option.map_some, Option.getD_some]

theorem Initialized.solves (h : Initialized expand info presets args path' path)
    (hstd : info.standardPaths) :
    Solves StandardPath.name StandardPath.source (settled expand presets args)
      (standardPaths info.named.name) path.value := fun p hp ↦ by
  obtain ⟨e, he, hvalue⟩ := h.exists_entry hstd hp
  rw [value_of_get he, hvalue]

/-- The paths are met if and only if their values are a solution of what is wanted. -/
theorem Initialized.meet_iff (h : Initialized expand info presets args path' o.path)
    (hstd : info.standardPaths) :
    PathsMeet expand info presets args o ↔
      Solves StandardPath.name StandardPath.source (wanted expand presets args)
        (standardPaths info.named.name) (Paths.value o.path) := by
  refine forall₂_congr fun p hp ↦ ?_
  obtain ⟨e, he, -⟩ := h.exists_entry hstd hp
  constructor
  · intro hmeet
    rw [value_of_get he]
    exact hmeet.2 e he
  · intro hvalue
    refine ⟨fun _ ↦ by rw [he]; rfl, fun e' he' ↦ ?_⟩
    rw [← value_of_get he', hvalue]

/-- What is wanted and what the code leaves differ at an unmarked path of the package only. -/
theorem settled_eq_wanted_iff (value : Option Str) :
    settled expand presets args p value = wanted expand presets args p value ↔
      ∀ e, presets.path.get p.name = some e → userValue presets args p.name = none → ¬ e.user →
        expand e.value = p.derived expand value := by
  rw [settled, wanted]
  cases userValue presets args p.name with
  | some val => exact iff_of_true rfl fun e _ hval ↦ nomatch hval
  | none =>
      cases presets.path.get p.name with
      | none => exact iff_of_true rfl fun e he ↦ nomatch he
      | some e =>
          show (if e.user then _ else _) = _ ↔ _
          split_ifs with huser
          · refine iff_of_true rfl fun e' he' _ hunmarked ↦ absurd ?_ hunmarked
            rw [← Option.some.inj he', huser]
          · refine ⟨fun heq e' he' _ _ ↦ ?_, fun hall ↦ (hall e rfl rfl huser).symm⟩
            rw [← Option.some.inj he']
            exact heq.symm

/-- Without the standard paths nothing is derived. -/
theorem Initialized.meet_of_not (h : Initialized expand info presets args path' o.path)
    (hstd : ¬ info.standardPaths) : PathsMeet expand info presets args o := by
  refine fun p _ ↦ ⟨fun h ↦ absurd h hstd, fun e he ↦ ?_⟩
  rw [h.untouched hstd] at he
  obtain ⟨e', he', rfl⟩ := Option.map_eq_some_iff.1 he
  rw [wanted, he']
  cases userValue presets args p.name <;> rfl

theorem standardPaths_meet_iff
    (h : initializePackage expand info presets (some args) = .ok o) :
    PathsMeet expand info presets args o ↔ PresetsDerived expand info presets args := by
  obtain ⟨path', path, o', ret, hinit, hpath, heq⟩ := initializePackage_eq expand info presets args
  obtain rfl : o' = o := by
    rw [heq] at h
    split_ifs at h
    exact Except.ok.inj h
  subst hpath
  by_cases hstd : info.standardPaths
  · rw [hinit.meet_iff hstd, (hinit.solves hstd).iff_agree (ordered_standardPaths _)
      (solves_solve (v := fun _ ↦ []) (ordered_standardPaths _))]
    refine Iff.trans (forall₂_congr fun p _ ↦ settled_eq_wanted_iff _) ?_
    exact ⟨fun hall _ ↦ hall, fun hall ↦ hall hstd⟩
  · exact iff_of_true (hinit.meet_of_not hstd) fun h ↦ absurd h hstd

/-- `File.expand_path` in `/build`, for paths without dots and double slashes. -/
def inBuild (s : Str) : Str := if s.head? = some '/' then s else "/build/".toList ++ s

/-- The values that `info` has from the start. -/
def defaultInfo : Info := ⟨"package".toList, true⟩

/-- The options of a package with these paths and nothing else. -/
def withPaths (path : Paths) : Options := ⟨⟨[], List.nodup_nil⟩, ⟨[], List.nodup_nil⟩, path⟩

/-- A package that sets `bindir` to `/usr/bin`. -/
def usrBin : Options :=
  withPaths ⟨[("bindir".toList, ⟨"/usr/bin".toList, "bindir".toList, false⟩)],
    List.nodup_singleton _⟩

/-- What the package sets is what follows from the option of the user. -/
theorem standardPaths_meet_usr :
    ∃ o, initializePackage inBuild defaultInfo usrBin (some ["--prefix=/usr".toList]) = .ok o ∧
      PathsMeet inBuild defaultInfo usrBin ["--prefix=/usr".toList] o := by
  obtain ⟨o, h⟩ : ∃ o, initializePackage inBuild defaultInfo usrBin
      (some ["--prefix=/usr".toList]) = .ok o := ⟨_, rfl⟩
  have hpresets : ∀ p ∈ standardPaths defaultInfo.named.name, ∀ e ∈ usrBin.path.get p.name,
      userValue usrBin ["--prefix=/usr".toList] p.name = none → ¬ e.user → inBuild e.value =
        p.derived inBuild
          (p.source.map (wantedPaths inBuild defaultInfo usrBin ["--prefix=/usr".toList])) := by
    decide +kernel
  exact ⟨o, h, (standardPaths_meet_iff h).2 fun _ ↦ hpresets⟩

/-- A package that sets `bindir` to `/opt/bin`. -/
def optBin : Options :=
  withPaths ⟨[("bindir".toList, ⟨"/opt/bin".toList, "bindir".toList, false⟩)],
    List.nodup_singleton _⟩

/-- It gets the one that is derived, without any option of the user. -/
theorem standardPaths_optBin :
    ∃ o, initializePackage inBuild defaultInfo optBin (some []) = .ok o ∧
      ¬ PathsMeet inBuild defaultInfo optBin [] o := by
  refine ⟨_, rfl, fun hmeet ↦ ?_⟩
  have hbindir := (hmeet ⟨"bindir".toList, .path "eprefix".toList, "/bin".toList⟩
    (.tail _ (.tail _ (.head _)))).2 _ rfl
  exact absurd hbindir (by decide)

end Tidbits.Quickbuild
