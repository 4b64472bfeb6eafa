import Mathlib.Logic.Function.Basic
import Tidbits.Crts.GetOpt
import Tidbits.Transition.Reach

/-!
# The option loop of `crts_radio`

`main` of `crts_radio` gives the same index to one parser after the other, until
one of them finds its option there and moves the index behind it.  The parser of
a module option also takes the elements between a `[` and the next `]`, which are
for the module.

`optionLoop_sound` is about all runs of the loop.  It reads nothing at or behind
`argc`, every option that is at the index is recorded, and what is recorded for a
module are the elements between the brackets, none of which it looks at as an
option.  It ends unless it comes to a number that does not convert, at which an
`ASSERT` fails and sleeps for ever.

`strtod()` is a parameter; it gives nothing where the source checks for an error.
-/

namespace Tidbits.Crts

open Tidbits.Libc Tidbits.Transition

/-! ## The three parsers -/

/-- What a parser returns, with the variables that it may change, or that its `ASSERT` fails. -/
inductive Tried (α : Type) where
  | refused (a : α) (i : ℕ)
  | accepted (a : α) (i : ℕ)
  | assertFails

/-- What is done with the variables of a parser. -/
def Tried.map {α β : Type} (f : α → β) : Tried α → Tried β
  | refused a i => .refused (f a) i
  | accepted a i => .accepted (f a) i
  | assertFails => .assertFails

/-- The parser of a string. -/
def getOptString (value : List UInt8) (shorT : Option CString) (lonG : CString)
    (argv : List CString) (i : ℕ) : Option (Tried (List UInt8)) := do
  match ← getOpt value shorT lonG argv i with
  | (true, value, i) => return .accepted value i
  | (false, value, i) => return .refused value i

/-- A module and its arguments; `argv` is the index of the first one. -/
structure Module where
  name : List UInt8
  argc : ℕ
  argv : Option ℕ
deriving DecidableEq

/-- `[`. -/
def openBracket : UInt8 := 91

/-- `]`. -/
def closeBracket : UInt8 := 93

/-- `s[0] == c && s[1] == '\0'`. -/
def isWord (c : UInt8) (s : CString) : Bool := s.bytes[0]? = some c ∧ s.bytes[1]? = none

/-- The loop over the arguments of a module: their number, and the index behind them. -/
def moduleArgs (argv : List CString) (i moduleArgc : ℕ) : Option (ℕ × ℕ) :=
  if i < argv.length then
    match argv[i]? with
    | none => none
    | some s =>
        if isWord closeBracket s then some (moduleArgc, i + 1)
        else moduleArgs argv (i + 1) (moduleArgc + 1)
  else some (moduleArgc, i)
termination_by argv.length - i

/-- What `get_opt` of a module does behind the name of the module. -/
def moduleOptions (name : List UInt8) (argv : List CString) (i : ℕ) : Option (Tried Module) := do
  match ← examine argv i 1 fun s ↦ if isWord openBracket s then some () else none with
  | none => return .accepted ⟨name, 0, none⟩ i
  | some () =>
      let (moduleArgc, i') ← moduleArgs argv (i + 1) 0
      return .accepted ⟨name, moduleArgc, some (i + 1)⟩ i'

/-- `get_opt` of a module. -/
def getOptModule (m : Module) (shorT : Option CString) (lonG : CString) (argv : List CString)
    (i : ℕ) : Option (Tried Module) := do
  match ← getOpt m.name shorT lonG argv i with
  | (false, name, i) => return .refused { m with name := name } i
  | (true, name, i) => moduleOptions name argv i

/-- `get_opt_double`; the message of the `ASSERT` names the element in front of the index. -/
def getOptDouble {D : Type} (strtod : List UInt8 → Option D) (val : D) (shorT : Option CString)
    (lonG : CString) (argv : List CString) (i : ℕ) : Option (Tried D) := do
  match ← getOpt [] shorT lonG argv i with
  | (false, _, i) => return .refused val i
  | (true, str, i) =>
      match strtod str with
      | some val => return .accepted val i
      | none =>
          let _ ← argv[i - 1]?
          return .assertFails

/-! ## The loop -/

/-- The modules that may be loaded. -/
inductive Slot where
  | iMod
  | oMod
  | ioMod
deriving DecidableEq

/-- The parameters of the radio. -/
inductive Parameter where
  | rxFreq
  | rxRate
  | rxGain
  | txFreq
  | txRate
  | txGain
deriving DecidableEq

/-- The variables that the options set. -/
structure Settings (D : Type) where
  uhdArgs : List UInt8
  module : Slot → Module
  parameter : Parameter → D

/-- What an option sets. -/
inductive Target where
  | uhdArgs
  | module (slot : Slot)
  | parameter (p : Parameter)

/-- An option of the command line. -/
structure Flag where
  shorT : CString
  lonG : CString
  target : Target

/-- The options, in the order in which the loop tries them. -/
def flags : List Flag :=
  [⟨⟨[45, 65], by decide⟩,
      ⟨[45, 45, 117, 104, 100, 45, 97, 114, 103, 115], by decide⟩, .uhdArgs⟩, -- -A --uhd-args
    ⟨⟨[45, 105], by decide⟩,
      ⟨[45, 45, 105, 110, 112, 117, 116], by decide⟩, .module .iMod⟩, -- -i --input
    ⟨⟨[45, 111], by decide⟩,
      ⟨[45, 45, 111, 117, 116, 112, 117, 116], by decide⟩, .module .oMod⟩, -- -o --output
    ⟨⟨[45, 112], by decide⟩,
      ⟨[45, 45, 105, 111], by decide⟩, .module .ioMod⟩, -- -p --io
    ⟨rxFreqShort, rxFreqLong, .parameter .rxFreq⟩, -- -f --rx-freq
    ⟨⟨[45, 114], by decide⟩,
      ⟨[45, 45, 114, 120, 45, 114, 97, 116, 101], by decide⟩, .parameter .rxRate⟩, -- -r --rx-rate
    ⟨⟨[45, 103], by decide⟩,
      ⟨[45, 45, 114, 120, 45, 103, 97, 105, 110], by decide⟩, .parameter .rxGain⟩, -- -g --rx-gain
    ⟨⟨[45, 70], by decide⟩,
      ⟨[45, 45, 116, 120, 45, 102, 114, 101, 113], by decide⟩, .parameter .txFreq⟩, -- -F --tx-freq
    ⟨⟨[45, 82], by decide⟩,
      ⟨[45, 45, 116, 120, 45, 114, 97, 116, 101], by decide⟩, .parameter .txRate⟩, -- -R --tx-rate
    ⟨⟨[45, 71], by decide⟩,
      ⟨[45, 45, 116, 120, 45, 103, 97, 105, 110], by decide⟩, .parameter .txGain⟩] -- -G --tx-gain

variable {D : Type} (strtod : List UInt8 → Option D) (argv : List CString)

/-- One of the conditions in the body of the loop. -/
def tryFlag (f : Flag) (settings : Settings D) (i : ℕ) : Option (Tried (Settings D)) :=
  match f.target with
  | .uhdArgs =>
      (getOptString settings.uhdArgs (some f.shorT) f.lonG argv i).map
        (Tried.map fun value ↦ { settings with uhdArgs := value })
  | .module slot =>
      (getOptModule (settings.module slot) (some f.shorT) f.lonG argv i).map
        (Tried.map fun m ↦ { settings with module := Function.update settings.module slot m })
  | .parameter p =>
      (getOptDouble strtod (settings.parameter p) (some f.shorT) f.lonG argv i).map
        (Tried.map fun v ↦ { settings with parameter := Function.update settings.parameter p v })

/-- The conditions in the body of the loop, up to the first that holds. -/
def tryFlags : List Flag → Settings D → ℕ → Option (Tried (Settings D))
  | [], settings, i => some (.refused settings i)
  | f :: fs, settings, i =>
      match tryFlag strtod argv f settings i with
      | some (.refused settings i) => tryFlags fs settings i
      | other => other

/-- What one iteration of the loop leads to. -/
inductive Iteration (D : Type) where
  | again (settings : Settings D) (i : ℕ)
  | assertFails
  | usage (program : CString) (unknown : Option CString)

/-- The end of the body of the loop: `usage` for an element that is not an option. -/
def usageAt (argv : List CString) (i : ℕ) : Option (Iteration D) := do
  let s ← argv[i]?
  let program ← argv[0]?
  if same ⟨[45, 104], by decide⟩ s || same ⟨[45, 45, 104, 101, 108, 112], by decide⟩ s then
    return .usage program none
  else return .usage program (some s)

/-- The body of the loop. -/
def iteration (settings : Settings D) (i : ℕ) : Option (Iteration D) := do
  match ← tryFlags strtod argv flags settings i with
  | .accepted settings i => return .again settings i
  | .assertFails => return .assertFails
  | .refused _ i => usageAt argv i

/-- How the loop ends. -/
inductive Parsed (D : Type) where
  | settings (settings : Settings D)
  | usage (program : CString) (unknown : Option CString)
  | outOfRange

/-- The loop `while(i) { sleep(1); }` of `_assertAction`: nothing but a debugger changes its `i`. -/
def assertAction {α : Type} : ℕ → Option α
  | 0 => none
  | fuel + 1 => assertAction fuel

/-- The loop; `none` if it takes more than this many iterations. -/
def optionLoop : ℕ → Settings D → ℕ → Option (Parsed D)
  | 0, _, _ => none
  | fuel + 1, settings, i =>
      if i < argv.length then
        match iteration strtod argv settings i with
        | none => some .outOfRange
        | some (.again settings i) => optionLoop fuel settings i
        | some .assertFails => assertAction fuel
        | some (.usage program unknown) => some (.usage program unknown)
      else some (.settings settings)

/-- The settings before the loop. -/
def initialSettings [OfScientific D] : Settings D where
  uhdArgs := []
  module
    | .iMod => ⟨[102, 100, 48], 0, none⟩ -- fd0
    | .oMod => ⟨[102, 100, 49], 0, none⟩ -- fd1
    | .ioMod => ⟨[], 0, none⟩
  parameter
    | .rxFreq => 914.5
    | .rxRate => 1.0
    | .rxGain => 0.0
    | .txFreq => 915.5
    | .txRate => 1.0
    | .txGain => 0.0

/-! ## What the loop should do -/

/-- There are `k` elements from `i` on in front of the first `]`, or of the end of `argv` if there
is none, and `i'` is behind it. -/
def UpToBracket (argv : List CString) (i k i' : ℕ) : Prop :=
  (∀ n < k, ∃ s ∈ argv[i + n]?, s.bytes ≠ [closeBracket]) ∧
    ((∃ s ∈ argv[i + k]?, s.bytes = [closeBracket]) ∧ i' = i + k + 1 ∨
      i + k = argv.length ∧ i' = argv.length)

/-- The arguments of a module whose name ends in front of `j`, and the index `i'` behind them. -/
inductive Bracketed (argv : List CString) (j : ℕ) (m : Module) (i' : ℕ) : Prop
  | without (h : ∀ s ∈ argv[j]?, s.bytes ≠ [openBracket]) (hargc : m.argc = 0)
      (hargv : m.argv = none) (hi' : i' = j)
  | within (h : ∃ s ∈ argv[j]?, s.bytes = [openBracket]) (hargv : m.argv = some (j + 1))
      (hargc : UpToBracket argv (j + 1) m.argc i')

/-- The option is not at the index. -/
def Flag.Refused (argv : List CString) (i : ℕ) (f : Flag) : Prop :=
  ∀ value, getOpt value (some f.shorT) f.lonG argv i = some (false, value, i)

/-- The option is at the index, and this is what becomes of the settings and of the index. -/
def Flag.Records (strtod : List UInt8 → Option D) (argv : List CString) (settings : Settings D)
    (i : ℕ) (settings' : Settings D) (i' : ℕ) (f : Flag) : Prop :=
  ∃ str j, (∀ value, getOpt value (some f.shorT) f.lonG argv i = some (true, str, j)) ∧
    match f.target with
    | .uhdArgs => settings' = { settings with uhdArgs := str } ∧ i' = j
    | .module slot =>
        ∃ m, m.name = str ∧ Bracketed argv j m i' ∧
          settings' = { settings with module := Function.update settings.module slot m }
    | .parameter p =>
        ∃ v, strtod str = some v ∧ i' = j ∧
          settings' = { settings with parameter := Function.update settings.parameter p v }

/-- The option is at the index, but takes a number, and what is there does not convert. -/
def Flag.Fails (strtod : List UInt8 → Option D) (argv : List CString) (i : ℕ) (f : Flag) : Prop :=
  ∃ str j, (∀ value, getOpt value (some f.shorT) f.lonG argv i = some (true, str, j)) ∧
    (∃ p, f.target = .parameter p) ∧ strtod str = none

/-- The first option that is at the index has this property. -/
def FirstAt (argv : List CString) (i : ℕ) (fs : List Flag) (P : Flag → Prop) : Prop :=
  ∃ before f after, fs = before ++ f :: after ∧ (∀ g ∈ before, g.Refused argv i) ∧ P f

/-- The number of the first option that is at the index does not convert. -/
def FailsFirst (strtod : List UInt8 → Option D) (argv : List CString) (i : ℕ) : Prop :=
  FirstAt argv i flags (Flag.Fails strtod argv i)

/-- The first option that is at the index is recorded. -/
def RecordsFirst (strtod : List UInt8 → Option D) (argv : List CString) (settings : Settings D)
    (i : ℕ) (settings' : Settings D) (i' : ℕ) : Prop :=
  FirstAt argv i flags (Flag.Records strtod argv settings i settings' i')

/-! ## The arguments of a module -/

theorem isWord_iff {c : UInt8} {s : CString} : isWord c s = true ↔ s.bytes = [c] := by
  rcases hs : s.bytes with - | ⟨a, - | ⟨b, l⟩⟩ <;> simp [isWord, hs]

theorem moduleArgs_spec {i : ℕ} (hi : i ≤ argv.length) (n : ℕ) :
    ∃ k i', moduleArgs argv i n = some (n + k, i') ∧ UpToBracket argv i k i' := by
  fun_induction moduleArgs argv i n with
  | case1 i n hlt hnone => exact absurd hlt (Nat.not_lt_of_le (List.getElem?_eq_none_iff.mp hnone))
  | case2 i n hlt s hs hclose =>
      exact ⟨0, i + 1, rfl, fun _ h ↦ absurd h (Nat.not_lt_zero _),
        .inl ⟨⟨s, hs, isWord_iff.mp hclose⟩, rfl⟩⟩
  | case3 i n hlt s hs hother ih =>
      obtain ⟨k, i', heq, hargs, hend⟩ := ih hlt
      refine ⟨k + 1, i', ?_, ?_, ?_⟩
      · rw [heq, Nat.add_assoc, Nat.add_comm 1 k]
      · intro m hm
        cases m with
        | zero => exact ⟨s, hs, fun h ↦ hother (isWord_iff.mpr h)⟩
        | succ m =>
            rw [Nat.add_comm m 1, ← Nat.add_assoc]
            exact hargs m (Nat.lt_of_succ_lt_succ hm)
      · rw [Nat.add_comm k 1, ← Nat.add_assoc]
        exact hend
  | case4 i n hge =>
      have heq := Nat.le_antisymm hi (Nat.le_of_not_lt hge)
      exact ⟨0, i, rfl, fun _ h ↦ absurd h (Nat.not_lt_zero _), .inr ⟨heq, heq⟩⟩

variable {argv}

/-- The index does not go back, and not beyond the end. -/
theorem Bracketed.bounds {j i' : ℕ} {m : Module} (h : Bracketed argv j m i')
    (hj : j ≤ argv.length) : j ≤ i' ∧ i' ≤ argv.length := by
  cases h with
  | without _ _ _ hi' => exact ⟨Nat.le_of_eq hi'.symm, hi' ▸ hj⟩
  | within h _ hargc =>
      rcases hargc.2 with ⟨⟨s, hs, -⟩, hi'⟩ | ⟨hlength, hi'⟩
      · have hlt := (List.getElem?_eq_some_iff.mp hs).1
        omega
      · omega

/-! ## One option -/

variable {strtod} {settings settings' : Settings D} {i i' : ℕ} {f : Flag}

theorem moduleOptions_spec (argv : List CString) (name : List UInt8) (j : ℕ) :
    ∃ m i', moduleOptions name argv j = some (.accepted m i') ∧ m.name = name ∧
      Bracketed argv j m i' := by
  unfold moduleOptions
  rcases hs : argv[j]? with - | s
  · have hlt : argv.length < j + 1 := Nat.lt_succ_of_le (List.getElem?_eq_none_iff.mp hs)
    rw [examine_of_lt hlt]
    exact ⟨_, _, rfl, rfl, .without (fun s h ↦ nomatch hs.symm.trans h) rfl rfl rfl⟩
  have hlt : j + 1 ≤ argv.length := (List.getElem?_eq_some_iff.mp hs).1
  rw [examine_of_le hs hlt]
  by_cases hopen : isWord openBracket s = true
  · obtain ⟨k, i', hargs, hspec⟩ := moduleArgs_spec argv hlt 0
    rw [if_pos hopen, hargs, Nat.zero_add]
    exact ⟨_, _, rfl, rfl, .within ⟨s, hs, isWord_iff.mp hopen⟩ rfl hspec⟩
  · rw [if_neg hopen]
    refine ⟨_, _, rfl, rfl, .without ?_ rfl rfl rfl⟩
    intro s' hs' heq
    obtain rfl := Option.some.inj (hs.symm.trans hs')
    exact hopen (isWord_iff.mpr heq)

/-- What the conditions in the body of the loop do. -/
def Tried.Follows (settings : Settings D) (i : ℕ) (refused fails : Prop)
    (accepted : Settings D → ℕ → Prop) : Tried (Settings D) → Prop
  | .refused settings' i' => settings' = settings ∧ i' = i ∧ refused
  | .accepted settings' i' => accepted settings' i'
  | .assertFails => fails

/-- **One condition.**  Nothing changes if the option is not there. -/
theorem tryFlag_follows (strtod : List UInt8 → Option D) (argv : List CString) (f : Flag)
    (settings : Settings D) (i : ℕ) :
    ∃ r, tryFlag strtod argv f settings i = some r ∧
      r.Follows settings i (f.Refused argv i) (f.Fails strtod argv i)
        fun settings' i' ↦ f.Records strtod argv settings i settings' i' := by
  rcases getOpt_cases (some f.shorT) f.lonG argv i with hno | ⟨str, j, hyes, hlt, hle⟩
  · refine ⟨.refused settings i, ?_, rfl, rfl, hno⟩
    unfold tryFlag
    cases f.target with
    | uhdArgs => simp [getOptString, hno, Tried.map]
    | module slot => simp [getOptModule, hno, Tried.map]
    | parameter p => simp [getOptDouble, hno, Tried.map]
  · cases htarget : f.target with
    | uhdArgs =>
        refine ⟨.accepted { settings with uhdArgs := str } j, ?_, str, j, hyes, ?_⟩
        · simp [tryFlag, htarget, getOptString, hyes, Tried.map]
        · rw [htarget]
          exact ⟨rfl, rfl⟩
    | module slot =>
        obtain ⟨m, i', hmodule, hname, hrun⟩ := moduleOptions_spec argv str j
        refine ⟨.accepted
          { settings with module := Function.update settings.module slot m } i', ?_,
          str, j, hyes, ?_⟩
        · simp [tryFlag, htarget, getOptModule, hyes, hmodule, Tried.map]
        · rw [htarget]
          exact ⟨m, hname, hrun, rfl⟩
    | parameter p =>
        cases hvalue : strtod str with
        | none =>
            refine ⟨.assertFails, ?_, str, j, hyes, ⟨p, htarget⟩, hvalue⟩
            have hin : j - 1 < argv.length := by omega
            simp [tryFlag, htarget, getOptDouble, hyes, hvalue, Tried.map, hin]
        | some v =>
            refine ⟨.accepted
              { settings with parameter := Function.update settings.parameter p v } j, ?_,
              str, j, hyes, ?_⟩
            · simp [tryFlag, htarget, getOptDouble, hyes, hvalue, Tried.map]
            · rw [htarget]
              exact ⟨v, hvalue, rfl, rfl⟩

theorem FirstAt.cons {f : Flag} {fs : List Flag} {P : Flag → Prop} (h : FirstAt argv i fs P)
    (hrefused : f.Refused argv i) : FirstAt argv i (f :: fs) P := by
  obtain ⟨before, g, after, rfl, hbefore, hP⟩ := h
  exact ⟨f :: before, g, after, rfl, List.forall_mem_cons.mpr ⟨hrefused, hbefore⟩, hP⟩

theorem FirstAt.head {f : Flag} {P : Flag → Prop} (h : P f) (fs : List Flag) :
    FirstAt argv i (f :: fs) P :=
  ⟨[], f, fs, rfl, fun _ h ↦ (nomatch h), h⟩

theorem tryFlags_follows (strtod : List UInt8 → Option D) (argv : List CString) (fs : List Flag)
    (settings : Settings D) (i : ℕ) :
    ∃ r, tryFlags strtod argv fs settings i = some r ∧
      r.Follows settings i (∀ f ∈ fs, f.Refused argv i)
        (FirstAt argv i fs (Flag.Fails strtod argv i))
        fun settings' i' ↦ FirstAt argv i fs (Flag.Records strtod argv settings i settings' i') := by
  induction fs with
  | nil => exact ⟨.refused settings i, rfl, rfl, rfl, fun _ h ↦ nomatch h⟩
  | cons f fs ih =>
      obtain ⟨r, hr, hfollows⟩ := tryFlag_follows strtod argv f settings i
      unfold tryFlags
      rw [hr]
      cases r with
      | refused settings' i' =>
          obtain ⟨rfl, rfl, hrefused⟩ := hfollows
          obtain ⟨r, hr, hfollows⟩ := ih
          refine ⟨r, hr, ?_⟩
          cases r with
          | refused settings' i' =>
              obtain ⟨heq, hi, hall⟩ := hfollows
              exact ⟨heq, hi, List.forall_mem_cons.mpr ⟨hrefused, hall⟩⟩
          | accepted settings' i' => exact FirstAt.cons hfollows hrefused
          | assertFails => exact FirstAt.cons hfollows hrefused
      | accepted settings' i' => exact ⟨_, rfl, FirstAt.head hfollows fs⟩
      | assertFails => exact ⟨_, rfl, FirstAt.head hfollows fs⟩

/-- An option that is taken moves the index, which stays inside. -/
theorem Flag.Records.bounds (h : f.Records strtod argv settings i settings' i') :
    i < i' ∧ i' ≤ argv.length := by
  obtain ⟨str, j, hyes, htarget⟩ := h
  have hj : i < j ∧ j ≤ argv.length := by
    rcases getOpt_cases (some f.shorT) f.lonG argv i with hno | ⟨str', j', hyes', hlt, hle⟩
    · exact nomatch (hno []).symm.trans (hyes [])
    · obtain ⟨-, rfl⟩ := Prod.mk.inj (Prod.mk.inj (Option.some.inj
        ((hyes []).symm.trans (hyes' [])))).2
      exact ⟨hlt, hle⟩
  cases hkind : f.target with
  | uhdArgs =>
      rw [hkind] at htarget
      exact htarget.2 ▸ hj
  | module slot =>
      rw [hkind] at htarget
      obtain ⟨m, -, hrun, -⟩ := htarget
      have hbounds := hrun.bounds hj.2
      exact ⟨Nat.lt_of_lt_of_le hj.1 hbounds.1, hbounds.2⟩
  | parameter p =>
      rw [hkind] at htarget
      obtain ⟨v, -, hi, -⟩ := htarget
      exact hi ▸ hj

/-! ## The run of the loop -/

theorem usageAt_eq {s program : CString} (hs : argv[i]? = some s) (hp : argv[0]? = some program) :
    ∃ unknown, usageAt (D := D) argv i = some (.usage program unknown) := by
  unfold usageAt
  rw [hs, hp]
  dsimp only [Option.bind_eq_bind, Option.bind_some]
  split_ifs
  · exact ⟨none, rfl⟩
  · exact ⟨some s, rfl⟩

/-- **One iteration** reads nothing that is not there.  The first option at the index is recorded
or fails, and if there is none, the loop is left. -/
theorem iteration_spec (strtod : List UInt8 → Option D) (settings : Settings D)
    (hi : i < argv.length) :
    (∃ settings' i', iteration strtod argv settings i = some (.again settings' i') ∧
        RecordsFirst strtod argv settings i settings' i') ∨
      (iteration strtod argv settings i = some .assertFails ∧ FailsFirst strtod argv i) ∨
      ((∃ program unknown,
          iteration strtod argv settings i = some (.usage program unknown)) ∧
        ∀ f ∈ flags, f.Refused argv i) := by
  obtain ⟨r, hr, hfollows⟩ := tryFlags_follows strtod argv flags settings i
  unfold iteration
  rw [hr]
  cases r with
  | refused settings' i' =>
      obtain ⟨rfl, rfl, hrefused⟩ := hfollows
      have hs := List.getElem?_eq_getElem hi
      have hprogram := List.getElem?_eq_getElem (Nat.lt_of_le_of_lt (Nat.zero_le _) hi)
      obtain ⟨unknown, husage⟩ := usageAt_eq (D := D) hs hprogram
      exact .inr (.inr ⟨⟨_, unknown, husage⟩, hrefused⟩)
  | accepted settings' i' => exact .inl ⟨settings', i', rfl, hfollows⟩
  | assertFails => exact .inr (.inl ⟨rfl, hfollows⟩)

theorem Flag.Records.not_refused (h : f.Records strtod argv settings i settings' i') :
    ¬ f.Refused argv i := by
  obtain ⟨str, j, hyes, -⟩ := h
  exact fun hno ↦ nomatch (hno []).symm.trans (hyes [])

theorem Flag.Fails.not_refused (h : f.Fails strtod argv i) : ¬ f.Refused argv i := by
  obtain ⟨str, j, hyes, -⟩ := h
  exact fun hno ↦ nomatch (hno []).symm.trans (hyes [])

/-- What is recorded of a number has been converted. -/
theorem Flag.Records.not_fails (h : f.Records strtod argv settings i settings' i') :
    ¬ f.Fails strtod argv i := by
  obtain ⟨str, j, hyes, htarget⟩ := h
  rintro ⟨str', j', hyes', ⟨p, hp⟩, hnone⟩
  obtain ⟨rfl, -⟩ := Prod.mk.inj (Prod.mk.inj (Option.some.inj
    ((hyes []).symm.trans (hyes' [])))).2
  rw [hp] at htarget
  obtain ⟨v, hsome, -⟩ := htarget
  exact nomatch hnone.symm.trans hsome

/-- Only one of the options is the first at an index. -/
theorem FirstAt.and {fs : List Flag} {P Q : Flag → Prop} (hP : FirstAt argv i fs P)
    (hQ : FirstAt argv i fs Q) (hP' : ∀ g, P g → ¬ g.Refused argv i)
    (hQ' : ∀ g, Q g → ¬ g.Refused argv i) : ∃ g, P g ∧ Q g := by
  obtain ⟨before, f, after, rfl, hbefore, hf⟩ := hP
  obtain ⟨before', g, after', heq, hbefore', hg⟩ := hQ
  have hmem : f ∉ before' ∧ g ∉ before :=
    ⟨fun h ↦ hP' f hf (hbefore' f h), fun h ↦ hQ' g hg (hbefore g h)⟩
  rcases List.append_eq_append_iff.mp heq with ⟨l, rfl, htail⟩ | ⟨l, rfl, htail⟩
  · cases l with
    | nil =>
        obtain ⟨rfl, -⟩ := List.cons.inj htail
        exact ⟨f, hf, hg⟩
    | cons c l =>
        obtain ⟨rfl, -⟩ := List.cons.inj htail
        exact absurd (List.mem_append_right _ List.mem_cons_self) hmem.1
  · cases l with
    | nil =>
        obtain ⟨rfl, -⟩ := List.cons.inj htail
        exact ⟨g, hf, hg⟩
    | cons c l =>
        obtain ⟨rfl, -⟩ := List.cons.inj htail
        exact absurd (List.mem_append_right _ List.mem_cons_self) hmem.2

theorem FirstAt.exists_mem {fs : List Flag} {P : Flag → Prop} (h : FirstAt argv i fs P) :
    ∃ f ∈ fs, P f := by
  obtain ⟨before, f, after, rfl, -, hf⟩ := h
  exact ⟨f, List.mem_append_right _ List.mem_cons_self, hf⟩

/-- A number that does not convert is in `argv`, and the iteration does not get beyond it. -/
theorem iteration_of_failsFirst (h : FailsFirst strtod argv i) :
    i < argv.length ∧ iteration strtod argv settings i = some .assertFails := by
  obtain ⟨f, hf, hfails⟩ := h.exists_mem
  have hi : i < argv.length := by
    by_contra hge
    exact hfails.not_refused fun value ↦ getOpt_of_le (Nat.le_of_not_lt hge)
  refine ⟨hi, ?_⟩
  rcases iteration_spec strtod settings hi with ⟨_, _, -, hrecords⟩ | hassert | ⟨-, hrefused⟩
  · obtain ⟨g, hrecords, hfails⟩ := FirstAt.and hrecords h
      (fun g hg ↦ Flag.Records.not_refused hg) (fun g hg ↦ hg.not_refused)
    exact absurd hfails hrecords.not_fails
  · exact hassert.1
  · exact absurd (hrefused f hf) hfails.not_refused

/-- The step from one iteration to the next. -/
def next (strtod : List UInt8 → Option D) (argv : List CString) (st : Settings D × ℕ) (_ : Unit) :
    Option (Settings D × ℕ) :=
  if st.2 < argv.length then
    match iteration strtod argv st.1 st.2 with
    | some (.again settings i) => some (settings, i)
    | _ => none
  else none

theorem next_eq_some_iff {st st' : Settings D × ℕ} :
    next strtod argv st () = some st' ↔
      st.2 < argv.length ∧ iteration strtod argv st.1 st.2 = some (.again st'.1 st'.2) := by
  unfold next
  constructor
  · intro h
    split_ifs at h with hi
    refine ⟨hi, ?_⟩
    split at h
    · rename_i settings i hagain
      rw [← Option.some.inj h]
      exact hagain
    · cases h
  · rintro ⟨hi, hagain⟩
    rw [if_pos hi, hagain]

theorem recordsFirst_of_next {st st' : Settings D × ℕ} (h : next strtod argv st () = some st') :
    RecordsFirst strtod argv st.1 st.2 st'.1 st'.2 := by
  obtain ⟨hi, hagain⟩ := next_eq_some_iff.mp h
  rcases iteration_spec strtod st.1 hi with ⟨_, _, hr, hrecords⟩ | ⟨hr, -⟩ | ⟨⟨_, _, hr⟩, -⟩
  · obtain ⟨rfl, rfl⟩ := Iteration.again.inj (Option.some.inj (hr.symm.trans hagain))
    exact hrecords
  · exact nomatch hr.symm.trans hagain
  · exact nomatch hr.symm.trans hagain

theorem RecordsFirst.bounds (h : RecordsFirst strtod argv settings i settings' i') :
    i < i' ∧ i' ≤ argv.length := by
  obtain ⟨f, -, hrecords⟩ := h.exists_mem
  exact hrecords.bounds

/-- An option that is at the index is recorded, unless it fails. -/
theorem exists_next {st : Settings D × ℕ} (h : ∃ f ∈ flags, ¬ f.Refused argv st.2) :
    FailsFirst strtod argv st.2 ∨ ∃ st', next strtod argv st () = some st' := by
  obtain ⟨f, hf, htaken⟩ := h
  have hi : st.2 < argv.length := by
    by_contra hge
    exact htaken fun value ↦ getOpt_of_le (Nat.le_of_not_lt hge)
  rcases iteration_spec strtod st.1 hi with ⟨_, _, hr, -⟩ | ⟨-, hfails⟩ | ⟨-, hrefused⟩
  · exact .inr ⟨(_, _), next_eq_some_iff.mpr ⟨hi, hr⟩⟩
  · exact .inl hfails
  · exact absurd (hrefused f hf) htaken

theorem index_le_of_reach {st st' : Settings D × ℕ}
    (h : Reach (next strtod argv) Any st st') : st.2 ≤ st'.2 := by
  refine h.invariant (I := fun t ↦ st.2 ≤ t.2) (Nat.le_refl _) ?_
  intro t u a hle _ hstep
  exact hle.trans (Nat.le_of_lt (recordsFirst_of_next hstep).bounds.1)

theorem assertAction_eq_none {α : Type} (fuel : ℕ) : assertAction fuel = (none : Option α) := by
  induction fuel with
  | zero => rfl
  | succ fuel ih => exact ih

/-- **One turn of the loop.**  It is left behind the last element, goes on with the next state, sleeps
for ever, or `usage` is called. -/
theorem optionLoop_succ (strtod : List UInt8 → Option D) (argv : List CString) (fuel : ℕ)
    (settings : Settings D) (i : ℕ) :
    (argv.length ≤ i ∧
        optionLoop strtod argv (fuel + 1) settings i = some (.settings settings)) ∨
      (∃ settings' i', next strtod argv (settings, i) () = some (settings', i') ∧
        optionLoop strtod argv (fuel + 1) settings i = optionLoop strtod argv fuel settings' i') ∨
      (FailsFirst strtod argv i ∧ optionLoop strtod argv (fuel + 1) settings i = none) ∨
      ∃ program unknown,
        optionLoop strtod argv (fuel + 1) settings i = some (.usage program unknown) := by
  rw [optionLoop]
  split_ifs with hlt
  · rcases iteration_spec strtod settings hlt with
      ⟨settings', i', hr, -⟩ | ⟨hr, hfails⟩ | ⟨⟨program, unknown, hr⟩, -⟩
    · have hstep : next strtod argv (settings, i) () = some (settings', i') :=
        next_eq_some_iff.mpr ⟨hlt, hr⟩
      rw [hr]
      exact .inr (.inl ⟨_, _, hstep, rfl⟩)
    · rw [hr]
      exact .inr (.inr (.inl ⟨hfails, assertAction_eq_none fuel⟩))
    · rw [hr]
      exact .inr (.inr (.inr ⟨program, unknown, rfl⟩))
  · exact .inl ⟨Nat.le_of_not_lt hlt, rfl⟩

theorem optionLoop_ne_outOfRange (strtod : List UInt8 → Option D) (argv : List CString)
    (fuel : ℕ) (settings : Settings D) (i : ℕ) :
    optionLoop strtod argv fuel settings i ≠ some .outOfRange := by
  induction fuel generalizing settings i with
  | zero => exact fun h ↦ nomatch h
  | succ fuel ih =>
      rcases optionLoop_succ strtod argv fuel settings i with
        ⟨-, heq⟩ | ⟨settings', i', -, heq⟩ | ⟨-, heq⟩ | ⟨_, _, heq⟩ <;> rw [heq]
      · exact fun h ↦ nomatch h
      · exact ih settings' i'
      · exact fun h ↦ nomatch h
      · exact fun h ↦ nomatch h

/-- The loop ends, as the index comes closer to the end in every iteration, unless it comes to a
number that does not convert. -/
theorem exists_optionLoop {fuel : ℕ}
    (hconvert : ∀ st, Reach (next strtod argv) Any (settings, i) st →
      ¬ FailsFirst strtod argv st.2)
    (hfuel : 0 < fuel) (hi : argv.length + 1 ≤ fuel + i) :
    ∃ r, optionLoop strtod argv fuel settings i = some r := by
  induction fuel generalizing settings i with
  | zero => exact absurd hfuel (Nat.lt_irrefl 0)
  | succ fuel ih =>
      rcases optionLoop_succ strtod argv fuel settings i with
        ⟨-, heq⟩ | ⟨settings', i', hstep, heq⟩ | ⟨hfails, -⟩ | ⟨_, _, heq⟩
      · exact ⟨_, heq⟩
      · have hbounds : i < i' ∧ i' ≤ argv.length := (recordsFirst_of_next hstep).bounds
        rw [heq]
        refine ih ?_ (by omega) (by omega)
        exact fun st hrun ↦ hconvert st (hrun.head trivial hstep)
      · exact absurd hfails (hconvert _ .refl)
      · exact ⟨_, heq⟩

/-- The loop sleeps for ever at a number that does not convert. -/
theorem optionLoop_eq_none {st st' : Settings D × ℕ} (h : Reach (next strtod argv) Any st st')
    (hfails : FailsFirst strtod argv st'.2) (fuel : ℕ) :
    optionLoop strtod argv fuel st.1 st.2 = none := by
  induction fuel generalizing st with
  | zero => rfl
  | succ fuel ih =>
      rw [optionLoop]
      rcases h.eq_or_head with rfl | ⟨_, u, -, hstep, hrun⟩
      · obtain ⟨hi, hr⟩ :
            st.2 < argv.length ∧ iteration strtod argv st.1 st.2 = some .assertFails :=
          iteration_of_failsFirst hfails
        rw [if_pos hi, hr]
        exact assertAction_eq_none fuel
      · obtain ⟨hi, hr⟩ := next_eq_some_iff.mp hstep
        rw [if_pos hi, hr]
        exact ih hrun

/-- What the program goes on with are the settings at the end of the run. -/
theorem reach_of_optionLoop {fuel : ℕ}
    (h : optionLoop strtod argv fuel settings i = some (.settings settings')) :
    ∃ i', argv.length ≤ i' ∧ Reach (next strtod argv) Any (settings, i) (settings', i') := by
  induction fuel generalizing settings i with
  | zero => cases h
  | succ fuel ih =>
      rcases optionLoop_succ strtod argv fuel settings i with
        ⟨hle, heq⟩ | ⟨settings₁, i₁, hstep, heq⟩ | ⟨-, heq⟩ | ⟨_, _, heq⟩ <;> rw [heq] at h
      · cases h
        exact ⟨i, hle, .refl⟩
      · obtain ⟨i', hend, hrun⟩ := ih h
        exact ⟨i', hend, .head trivial hstep hrun⟩
      · cases h
      · cases h

/-- What is recorded for a module is what it was before the loop, or its arguments in `argv`. -/
theorem module_of_reach {st st' : Settings D × ℕ} (h : Reach (next strtod argv) Any st st')
    (slot : Slot) :
    st'.1.module slot = st.1.module slot ∨ ∃ j i', Bracketed argv j (st'.1.module slot) i' := by
  refine h.invariant (I := fun t ↦ t.1.module slot = st.1.module slot ∨
    ∃ j i', Bracketed argv j (t.1.module slot) i') (.inl rfl) ?_
  intro t u a ht _ hstep
  obtain ⟨f, -, str, j, -, htarget⟩ := (recordsFirst_of_next hstep).exists_mem
  cases hkind : f.target with
  | uhdArgs =>
      rw [hkind] at htarget
      rw [htarget.1]
      exact ht
  | module slot' =>
      rw [hkind] at htarget
      obtain ⟨m, -, hrun, hu⟩ := htarget
      rw [hu]
      by_cases hslot : slot = slot'
      · subst hslot
        right
        dsimp only
        rw [Function.update_self]
        exact ⟨j, _, hrun⟩
      · dsimp only
        rw [Function.update_of_ne hslot]
        exact ht
  | parameter p =>
      rw [hkind] at htarget
      obtain ⟨v, -, -, hu⟩ := htarget
      rw [hu]
      exact ht

/-- **The option loop.**  It reads nothing at or behind `argc`, and ends in no more iterations than
there are elements unless it comes to a number that does not convert, where it sleeps for ever.
Every option that is at the index is recorded otherwise, which moves the index; for a module, what
is recorded are the elements between its brackets, none of which is looked at as an option. -/
theorem optionLoop_sound [OfScientific D] (strtod : List UInt8 → Option D) (argv : List CString) :
    (∀ fuel, optionLoop strtod argv fuel initialSettings 1 ≠ some .outOfRange) ∧
    ((∀ st, Reach (next strtod argv) Any (initialSettings, 1) st →
        ¬ FailsFirst strtod argv st.2) →
      ∃ r, optionLoop strtod argv (argv.length + 1) initialSettings 1 = some r) ∧
    ((∃ st, Reach (next strtod argv) Any (initialSettings, 1) st ∧ FailsFirst strtod argv st.2) →
      ∀ fuel, optionLoop strtod argv fuel initialSettings 1 = none) ∧
    (∀ fuel settings, optionLoop strtod argv fuel initialSettings 1 =
        some (.settings settings) →
      (∃ i, argv.length ≤ i ∧ Reach (next strtod argv) Any (initialSettings, 1) (settings, i)) ∧
        ∀ slot, settings.module slot = initialSettings.module (D := D) slot ∨
          ∃ j i', Bracketed argv j (settings.module slot) i') ∧
    (∀ st, Reach (next strtod argv) Any (initialSettings, 1) st →
      (∃ f ∈ flags, ¬ f.Refused argv st.2) →
      FailsFirst strtod argv st.2 ∨ ∃ st', next strtod argv st () = some st') ∧
    ∀ st st', Reach (next strtod argv) Any (initialSettings, 1) st →
      next strtod argv st () = some st' →
      st.2 < st'.2 ∧ st'.2 ≤ argv.length ∧ RecordsFirst strtod argv st.1 st.2 st'.1 st'.2 ∧
        ∀ t, Reach (next strtod argv) Any (initialSettings, 1) t → t.2 ≤ st.2 ∨ st'.2 ≤ t.2 := by
  refine ⟨fun fuel ↦ optionLoop_ne_outOfRange strtod argv fuel _ 1, ?_, ?_, ?_, ?_, ?_⟩
  · intro hconvert
    exact exists_optionLoop hconvert (Nat.succ_pos _) (Nat.le_add_right _ _)
  · rintro ⟨st, hrun, hfails⟩ fuel
    exact optionLoop_eq_none hrun hfails fuel
  · intro fuel settings h
    obtain ⟨i, hend, hrun⟩ := reach_of_optionLoop h
    exact ⟨⟨i, hend, hrun⟩, module_of_reach hrun⟩
  · intro st _ htaken
    exact exists_next htaken
  · intro st st' hrun hstep
    have hrecords := recordsFirst_of_next hstep
    refine ⟨hrecords.bounds.1, hrecords.bounds.2, hrecords, ?_⟩
    intro t ht
    rcases hrun.before_or_after hstep ht with hbefore | hafter
    · exact .inl (index_le_of_reach hbefore)
    · exact .inr (index_le_of_reach hafter)

/-- `strtod()` of a string of digits. -/
def strtodDigits (str : List UInt8) : Option Rat :=
  let digits := str.takeWhile isDigit
  if digits = [] then none else some (digitsValue digits)

/-- `crts_radio -i stdin [ --a b ] -f 1` -/
def stdinCommand : List CString :=
  [⟨[99, 114, 116, 115, 95, 114, 97, 100, 105, 111], by decide⟩, ⟨[45, 105], by decide⟩,
    ⟨[115, 116, 100, 105, 110], by decide⟩, ⟨[91], by decide⟩, ⟨[45, 45, 97], by decide⟩,
    ⟨[98], by decide⟩, ⟨[93], by decide⟩, rxFreqShort, ⟨[49], by decide⟩]

/-- The module gets two arguments, at which the loop does not look, and the frequency is set. -/
theorem optionLoop_sound_stdinCommand :
    (∃ settings i,
      Reach (next strtodDigits stdinCommand) Any (initialSettings, 1) (settings, i) ∧ 9 ≤ i ∧
        settings.module .iMod = ⟨[115, 116, 100, 105, 110], 2, some 4⟩ ∧
        settings.parameter .rxFreq = 1) ∧
      ∀ t, Reach (next strtodDigits stdinCommand) Any (initialSettings, 1) t →
        t.2 ≤ 1 ∨ 7 ≤ t.2 := by
  obtain ⟨-, -, -, hsettings, -, hstep⟩ := optionLoop_sound strtodDigits stdinCommand
  constructor
  · have hend : (optionLoop strtodDigits stdinCommand 10 initialSettings 1).any (fun
        | .settings settings =>
            settings.module .iMod = ⟨[115, 116, 100, 105, 110], 2, some 4⟩ ∧
              settings.parameter .rxFreq = 1
        | _ => false) = true := by decide +kernel
    obtain ⟨r, hr, hvalues⟩ := (Option.any_eq_true _ _).mp hend
    cases r with
    | settings settings =>
        obtain ⟨⟨i, hle, hrun⟩, -⟩ := hsettings 10 settings hr
        exact ⟨settings, i, hrun, hle, of_decide_eq_true hvalues⟩
    | usage program unknown => cases hvalues
    | outOfRange => cases hvalues
  · obtain ⟨st, hst, hindex⟩ : ∃ st, next strtodDigits stdinCommand (initialSettings, 1) () =
        some st ∧ st.2 = 7 := Option.map_eq_some_iff.mp (by decide +kernel)
    obtain ⟨-, -, -, hlook⟩ := hstep _ st .refl hst
    rw [hindex] at hlook
    exact hlook

/-- `crts_radio -f x` -/
def wordCommand : List CString :=
  [⟨[99, 114, 116, 115, 95, 114, 97, 100, 105, 111], by decide⟩, rxFreqShort,
    ⟨[120], by decide⟩]

/-- A frequency that is not a number stops the loop for ever. -/
theorem optionLoop_wordCommand :
    ¬ ∀ argv, ∃ fuel r, optionLoop strtodDigits argv fuel initialSettings 1 = some r := by
  intro h
  obtain ⟨fuel, r, hr⟩ := h wordCommand
  have hrefused : ∀ g ∈ flags.take 4, g.Refused wordCommand 1 := by
    simp only [flags, List.take_succ_cons, List.take_zero, List.forall_mem_cons]
    exact ⟨fun _ ↦ rfl, fun _ ↦ rfl, fun _ ↦ rfl, fun _ ↦ rfl, List.forall_mem_nil _⟩
  have hfails : FailsFirst strtodDigits wordCommand 1 :=
    ⟨flags.take 4, ⟨rxFreqShort, rxFreqLong, .parameter .rxFreq⟩, flags.drop 5, rfl, hrefused,
      [120], 3, fun _ ↦ rfl, ⟨_, rfl⟩, by decide⟩
  have hrun : Reach (next strtodDigits wordCommand) Any (initialSettings, 1) (initialSettings, 1) :=
    .refl
  exact nomatch (optionLoop_eq_none hrun hfails fuel).symm.trans hr

end Tidbits.Crts
