import Tidbits.Crts.SubnetAddress
import Tidbits.Sequence.Scan
import Mathlib.Data.List.DropRight

/-!
# The check of the parent process

`crts_mkTUN` runs as root, and `checkParentPath` requires that the executable of
its parent process is in the same directory as its own.  The function compares
the start of the parent's path, up to a slash that it finds by scanning from the
length of its own directory on.

So it accepts every parent below the directory, at any depth.
`checkParentPath_meets_iff` says that these parents are the ones that it gets
wrong, but for one whose path is the directory itself: `readlink()` does not
terminate what it writes, and the scan goes on into memory that was never
written.
-/

namespace Tidbits.Crts

open Tidbits.Libc Tidbits.Sequence

/-! ## The function -/

/-- The path of an executable: absolute, and without empty components. -/
structure ExePath extends CString where
  absolute : bytes.head? = some slash
  nonempty_components : ¬ [slash, slash] <:+: bytes
  nonempty_name : bytes.getLast? ≠ some slash

/-- By how many bytes a buffer grows that is too small, and how many it has at first. -/
def inc : ℕ := 128

/-- `readlink()` of a path into a buffer of `bufLen` bytes: it truncates, and does not terminate. -/
def readlink (path : ExePath) (bufLen : ℕ) : List UInt8 := path.bytes.take bufLen

/-- The loop that makes the buffer larger until the path of the process fits. -/
def growBuffer (own : ExePath) (bufLen : ℕ) : ℕ :=
  if bufLen ≤ (readlink own bufLen).length then growBuffer own (bufLen + inc) else bufLen
termination_by own.bytes.length + 1 - bufLen
decreasing_by
  have hle : (readlink own bufLen).length ≤ own.bytes.length := List.length_take_le' _ _
  unfold inc
  omega

/-- `while(rl > 3 && buf[rl] != '/') --rl;`, from `rl` on. -/
def stripName (buf : List UInt8) : ℕ → ℕ
  | 0 => 0
  | rl + 1 => if 3 < rl + 1 ∧ buf[rl + 1]? ≠ some slash then stripName buf rl else rl + 1

/-- The scan goes on: `*s && *s != '/'`. -/
def scans (c : UInt8) : Bool := c ≠ 0 && c ≠ slash

/-- The scan for a slash from the last byte in front of which there are as many bytes as in `buf`,
and the comparison with `buf`; `none` if it leaves the memory. -/
def compareDir (buf parentPath : List UInt8) : Option Bool :=
  let i := buf.length - 1 + ((parentPath.drop (buf.length - 1)).takeWhile scans).length
  match parentPath[i]? with
  | none => none
  | some c =>
      if c ≠ slash then some true
      else
        -- `*s = '\0'`, and `strcmp()` compares up to the first `NUL`
        some (decide ((parentPath.set i 0).takeWhile (· ≠ 0) ≠ buf))

/-- `checkParentPath`, which returns `true` on failure; `none` if it does not return.  The bytes
that happen to follow in memory behind what `readlink()` writes to `parentPath` are `memory`. -/
def checkParentPath (own parent : ExePath) (memory : List UInt8) : Option Bool :=
  let bufLen := growBuffer own inc
  let buf := readlink own bufLen
  let rl := stripName buf (buf.length - 1)
  if buf[rl]? ≠ some slash then none
  else
    let parentPath := readlink parent (bufLen + inc)
    if parentPath.length < rl then some true
    else compareDir (buf.take rl) (parentPath ++ memory)

/-! ## Directories -/

/-- Everything before the last slash. -/
def dirname (path : List UInt8) : List UInt8 := (path.rdropWhile (· ≠ slash)).dropLast

section Directories

variable {dir name path : List UInt8}

theorem dirname_append (h : slash ∉ name) : dirname (dir ++ slash :: name) = dir := by
  have hname : ∀ c ∈ name.reverse, decide (c ≠ slash) = true := by
    intro c hc
    refine decide_eq_true ?_
    rintro rfl
    exact h (List.mem_reverse.mp hc)
  rw [dirname, List.rdropWhile, List.reverse_append, List.reverse_cons, List.append_assoc,
    List.dropWhile_append_of_pos hname]
  simp

theorem exists_name (h : slash ∈ path) :
    ∃ name, path = dirname path ++ slash :: name ∧ slash ∉ name := by
  obtain ⟨name, dir, hrev, hname⟩ := List.eq_append_cons_of_mem (List.mem_reverse.mpr h)
  have hname' : slash ∉ name.reverse := fun hmem ↦ hname (List.mem_reverse.mp hmem)
  have hpath : path = dir.reverse ++ slash :: name.reverse := by
    rw [← List.reverse_reverse path, hrev, List.reverse_append, List.reverse_cons,
      List.append_assoc, List.singleton_append]
  refine ⟨name.reverse, ?_, hname'⟩
  conv_lhs => rw [hpath]
  rw [hpath, dirname_append hname']

/-- A path starts with a directory if it is directly in it, or below it. -/
theorem prefix_iff (h : slash ∈ path) :
    dir ++ [slash] <+: path ↔ dirname path = dir ∨ dir ++ [slash] <+: dirname path := by
  obtain ⟨name, hpath, hname⟩ := exists_name h
  constructor
  · intro hdir
    rw [hpath] at hdir
    rcases Nat.lt_trichotomy (dirname path).length dir.length with hlt | heq | hgt
    · -- the slash behind the directory would be in the name
      obtain ⟨rest, hrest⟩ := hdir
      have hslash : (dirname path ++ slash :: name)[dir.length]? = some slash := by
        rw [← hrest, List.append_assoc, List.getElem?_append_right (Nat.le_refl _), Nat.sub_self]
        rfl
      obtain ⟨n, hn⟩ := Nat.exists_eq_add_of_lt hlt
      rw [hn, List.getElem?_append_right (by omega), show (dirname path).length + n + 1 -
        (dirname path).length = n + 1 by omega, List.getElem?_cons_succ] at hslash
      exact absurd (List.mem_of_getElem? hslash) hname
    · left
      have hstart : dir <+: dirname path ++ slash :: name :=
        (List.prefix_append dir [slash]).trans hdir
      have htake := List.prefix_iff_eq_take.mp hstart
      rw [← heq, List.take_left] at htake
      exact htake.symm
    · right
      refine List.prefix_of_prefix_length_le hdir (List.prefix_append _ _) ?_
      rw [List.length_append]
      exact hgt
  · rintro (rfl | hbelow)
    · refine ⟨name, ?_⟩
      rw [List.append_assoc]
      exact hpath.symm
    · rw [hpath]
      exact hbelow.trans (List.prefix_append _ _)

end Directories

/-! ## What the function accepts -/

variable {own parent : ExePath} {memory : List UInt8}

namespace ExePath

/-- The directory of the executable. -/
def dir (path : ExePath) : List UInt8 := dirname path.bytes

theorem slash_mem (path : ExePath) : slash ∈ path.bytes := List.mem_of_mem_head? path.absolute

theorem exists_name (path : ExePath) :
    ∃ name, path.bytes = path.dir ++ slash :: name ∧ slash ∉ name :=
  Crts.exists_name path.slash_mem

theorem zero_notMem_dir (path : ExePath) : 0 ∉ path.dir := by
  obtain ⟨name, hpath, -⟩ := path.exists_name
  intro hzero
  refine path.zero_notMem ?_
  rw [hpath]
  exact List.mem_append_left _ hzero

/-- A directory does not end with a slash, as no component is empty. -/
theorem getLast?_dir (path : ExePath) : path.dir.getLast? ≠ some slash := by
  obtain ⟨name, hpath, -⟩ := path.exists_name
  intro hlast
  obtain ⟨dir, hdir⟩ := List.getLast?_eq_some_iff.mp hlast
  refine path.nonempty_components ⟨dir, name, ?_⟩
  rw [hpath, hdir]
  simp

end ExePath

theorem lt_growBuffer (own : ExePath) (bufLen : ℕ) : own.bytes.length < growBuffer own bufLen := by
  fun_induction growBuffer own bufLen with
  | case1 bufLen hfull ih => exact ih
  | case2 bufLen hfits =>
      rw [readlink, List.length_take] at hfits
      omega

theorem readlink_growBuffer (own : ExePath) : readlink own (growBuffer own inc) = own.bytes :=
  List.take_of_length_le (Nat.le_of_lt (lt_growBuffer own inc))

/-- The name is stripped, one byte after the other. -/
theorem stripName_eq_scanBack (buf : List UInt8) (rl : ℕ) :
    stripName buf rl = scanBack slash 3 buf rl := by
  induction rl with
  | zero => rfl
  | succ rl ih => rw [stripName, scanBack, ih]

theorem stripName_add {dir name : List UInt8} (hlong : 3 < dir.length) (hname : slash ∉ name)
    {n : ℕ} (hn : n ≤ name.length) :
    stripName (dir ++ slash :: name) (dir.length + n) = dir.length := by
  have hscan : scanBack slash 3 (dir ++ slash :: (name ++ [])) (dir.length + n) = dir.length :=
    scanBack_add (Nat.le_of_lt hlong) hname hn
  rwa [List.append_nil, ← stripName_eq_scanBack] at hscan

theorem stripName_own (hlong : 3 < own.dir.length) :
    stripName own.bytes (own.bytes.length - 1) = own.dir.length := by
  obtain ⟨name, hpath, hname⟩ := own.exists_name
  have hlength : own.bytes.length - 1 = own.dir.length + name.length := by
    conv_lhs => rw [hpath]
    rw [List.length_append, List.length_cons]
    rfl
  rw [hlength]
  conv_lhs => rw [hpath]
  exact stripName_add hlong hname (Nat.le_refl _)

section Compare

variable {buf parentPath : List UInt8}

/-- What the comparison sees, when the scan has stopped at `i`. -/
theorem takeWhile_set {i : ℕ} (hi : i < parentPath.length) (hzero : 0 ∉ parentPath.take i) :
    (parentPath.set i 0).takeWhile (· ≠ 0) = parentPath.take i := by
  have hpos : ∀ c ∈ parentPath.take i, decide (c ≠ 0) = true :=
    fun c hc ↦ decide_eq_true fun heq ↦ hzero (heq ▸ hc)
  rw [List.set_eq_take_append_cons_drop, if_pos hi, List.takeWhile_append_of_pos hpos]
  simp

theorem take_scanned (n : ℕ) (l : List UInt8) :
    l.take (n + ((l.drop n).takeWhile scans).length) = l.take n ++ (l.drop n).takeWhile scans := by
  rw [List.take_add, ← List.prefix_iff_eq_take.mp (List.takeWhile_prefix scans)]

/-- **The comparison succeeds if the path goes on with a slash behind the directory.** -/
theorem compareDir_eq_false (hne : buf ≠ []) (hbuf : 0 ∉ buf) (hlast : buf.getLast? ≠ some slash)
    (hpath : 0 ∉ parentPath.take buf.length) :
    compareDir buf parentPath = some false ↔ buf ++ [slash] <+: parentPath := by
  unfold compareDir
  dsimp only
  constructor
  · intro h
    split at h
    · cases h
    rename_i c hc
    split_ifs at h with hslash
    · cases h
    obtain ⟨hi, hget⟩ := List.getElem?_eq_some_iff.mp hc
    have hzero : 0 ∉ parentPath.take
        (buf.length - 1 + ((parentPath.drop (buf.length - 1)).takeWhile scans).length) := by
      rw [take_scanned, List.mem_append, not_or]
      refine ⟨fun hmem ↦ hpath (List.take_subset_take_left _ (Nat.sub_le _ _) hmem), fun hmem ↦ ?_⟩
      exact absurd (List.mem_takeWhile_imp hmem) (by decide)
    have hsame := of_decide_eq_false (Option.some.inj h)
    rw [not_not, takeWhile_set hi hzero] at hsame
    have htake := List.take_append_getElem hi
    rw [hsame, hget, not_not.mp hslash] at htake
    rw [htake]
    exact List.take_prefix _ _
  · rintro ⟨rest, rfl⟩
    obtain ⟨front, x, rfl⟩ : ∃ front x, buf = front ++ [x] :=
      ⟨buf.dropLast, buf.getLast hne, (List.dropLast_concat_getLast hne).symm⟩
    have hx : scans x = true := by
      rw [List.getLast?_concat] at hlast
      refine Bool.and_eq_true_iff.mpr ⟨decide_eq_true ?_, decide_eq_true ?_⟩
      · rintro rfl
        exact hbuf List.mem_concat_self
      · rintro rfl
        exact hlast rfl
    have hlength : (front ++ [x]).length - 1 = front.length := by
      rw [List.length_append]
      rfl
    have hscanned :
        ((front ++ [x] ++ [slash] ++ rest).drop front.length).takeWhile scans = [x] := by
      rw [List.append_assoc, List.append_assoc, List.drop_left]
      simp [hx, show scans slash = false from rfl]
    rw [hlength, hscanned]
    have hslash : (front ++ [x] ++ [slash] ++ rest)[front.length + 1]? = some slash := by
      rw [List.append_assoc, List.getElem?_append_right (by simp)]
      simp
    have hi : front.length + 1 < (front ++ [x] ++ [slash] ++ rest).length := by
      simp
    have htake : (front ++ [x] ++ [slash] ++ rest).take (front.length + 1) = front ++ [x] := by
      rw [List.append_assoc]
      exact List.take_left' (by simp)
    rw [List.length_singleton, hslash]
    dsimp only
    rw [if_neg (not_not.mpr rfl), takeWhile_set hi (by rw [htake]; exact hbuf), htake]
    simp

end Compare

/-- The path of the parent is the directory itself, and the byte behind it in memory, which was
never written, is a slash. -/
def Unterminated (own parent : ExePath) (memory : List UInt8) : Prop :=
  parent.bytes = own.dir ∧ memory.head? = some slash

/-- What `readlink()` writes for the parent and what follows it start with the directory. -/
theorem prefix_readlink_iff {bufLen : ℕ} (hbuf : own.dir.length < bufLen) :
    own.dir.length ≤ (readlink parent bufLen).length ∧
      own.dir ++ [slash] <+: readlink parent bufLen ++ memory ↔
    own.dir ++ [slash] <+: parent.bytes ∨ Unterminated own parent memory := by
  have hlength : (own.dir ++ [slash]).length = own.dir.length + 1 := List.length_append
  constructor
  · rintro ⟨hle, hstart⟩
    rcases Nat.lt_or_eq_of_le hle with hlt | heq
    · refine .inl (.trans ?_ (List.take_prefix bufLen _))
      refine List.prefix_of_prefix_length_le hstart (List.prefix_append _ _) ?_
      rw [hlength]
      exact hlt
    · -- the buffer is longer than the directory, so that the path was not truncated
      have hwhole : readlink parent bufLen = parent.bytes := by
        refine List.take_of_length_le (Nat.le_of_not_lt fun hlong ↦ ?_)
        rw [readlink, List.length_take_of_le (Nat.le_of_lt hlong)] at heq
        omega
      rw [hwhole] at hstart heq
      obtain ⟨rest, hrest⟩ := hstart
      rw [List.append_assoc] at hrest
      obtain ⟨hdir, hmemory⟩ := List.append_inj hrest heq
      exact .inr ⟨hdir.symm, by rw [← hmemory]; rfl⟩
  · rintro (hstart | ⟨hdir, hmemory⟩)
    · have htake : own.dir ++ [slash] <+: readlink parent bufLen := by
        refine List.prefix_take_iff.mpr ⟨hstart, ?_⟩
        rw [hlength]
        exact hbuf
      refine ⟨?_, htake.trans (List.prefix_append _ _)⟩
      have hle := htake.length_le
      rw [hlength] at hle
      exact Nat.le_of_succ_le hle
    · have hwhole : readlink parent bufLen = own.dir := by
        rw [readlink, hdir, List.take_of_length_le (Nat.le_of_lt hbuf)]
      obtain ⟨rest, rfl⟩ := List.head?_eq_some_iff.mp hmemory
      rw [hwhole]
      refine ⟨Nat.le_refl _, rest, ?_⟩
      rw [List.append_assoc, List.singleton_append]

/-- **The function accepts the parents whose path goes on with a slash behind the own
directory**, and one whose path only seems to. -/
theorem checkParentPath_eq_false (hlong : 3 < own.dir.length) :
    checkParentPath own parent memory = some false ↔
      own.dir ++ [slash] <+: parent.bytes ∨ Unterminated own parent memory := by
  obtain ⟨name, hpath, -⟩ := own.exists_name
  have hslash : own.bytes[own.dir.length]? = some slash := by
    conv_lhs => rw [hpath]
    rw [List.getElem?_append_right (Nat.le_refl _), Nat.sub_self]
    rfl
  have htake : own.bytes.take own.dir.length = own.dir := by
    conv_lhs => rw [hpath]
    exact List.take_left
  have hbuf : own.dir.length < growBuffer own inc + inc := by
    have hle : own.dir.length ≤ own.bytes.length := by
      rw [← htake]
      exact List.length_take_le' _ _
    have hlt := lt_growBuffer own inc
    omega
  rw [← prefix_readlink_iff hbuf]
  unfold checkParentPath
  dsimp only
  rw [readlink_growBuffer, stripName_own hlong, if_neg (not_not.mpr hslash), htake]
  split_ifs with hshort
  · exact iff_of_false (fun heq ↦ nomatch heq) fun h ↦ absurd h.1 (Nat.not_le_of_lt hshort)
  · have hle := Nat.le_of_not_lt hshort
    have hzero :
        0 ∉ (readlink parent (growBuffer own inc + inc) ++ memory).take own.dir.length := by
      rw [List.take_append_of_le_length hle]
      exact fun hmem ↦ parent.zero_notMem (List.mem_of_mem_take (List.mem_of_mem_take hmem))
    rw [compareDir_eq_false (fun hnil ↦ by simp [hnil] at hlong) own.zero_notMem_dir
      own.getLast?_dir hzero]
    exact (and_iff_right hle).symm

/-- The executable of the parent is somewhere below the own directory, and not directly in it. -/
def Below (own parent : ExePath) : Prop := own.dir ++ [slash] <+: parent.dir

/-- **When the check of the parent means what it says.**  Of the parents that are not in the own
directory it accepts those below, and one that is the directory when a slash happens to
follow in memory. -/
theorem checkParentPath_meets_iff (own parent : ExePath) (memory : List UInt8)
    (hlong : 3 < own.dir.length) :
    (checkParentPath own parent memory = some false ↔ parent.dir = own.dir) ↔
      ¬ (Below own parent ∨ Unterminated own parent memory) := by
  have hbelow : Below own parent → parent.dir ≠ own.dir := by
    intro h heq
    have hle := h.length_le
    rw [heq, List.length_append, List.length_singleton] at hle
    exact Nat.not_succ_le_self _ hle
  have hunterminated : Unterminated own parent memory → parent.dir ≠ own.dir := by
    rintro ⟨hdir, -⟩ heq
    obtain ⟨name, hpath, -⟩ := parent.exists_name
    have hlength := congrArg List.length (hpath.symm.trans (hdir.trans heq.symm))
    rw [List.length_append, List.length_cons] at hlength
    omega
  have hsame : own.dir ++ [slash] <+: parent.bytes ↔ parent.dir = own.dir ∨ Below own parent :=
    prefix_iff parent.slash_mem
  rw [checkParentPath_eq_false hlong, hsame, or_assoc]
  constructor
  · rintro h (hb | hu)
    · exact hbelow hb (h.mp (.inr (.inl hb)))
    · exact hunterminated hu (h.mp (.inr (.inr hu)))
  · intro h
    exact or_iff_left h

/-- The path `/opt/m`. -/
def mkTun : ExePath :=
  ⟨⟨[47, 111, 112, 116, 47, 109], by decide⟩, by decide, by decide, by decide⟩

/-- The path `/opt/p`. -/
def sibling : ExePath :=
  ⟨⟨[47, 111, 112, 116, 47, 112], by decide⟩, by decide, by decide, by decide⟩

/-- The path `/opt/d/p`. -/
def nested : ExePath :=
  ⟨⟨[47, 111, 112, 116, 47, 100, 47, 112], by decide⟩, by decide, by decide, by decide⟩

/-- A program in the directory of `crts_mkTUN` is accepted. -/
theorem checkParentPath_meets_sibling : checkParentPath mkTun sibling [] = some false := by
  have hbelow : ¬ Below mkTun sibling := by
    unfold Below
    decide
  have hunterminated : ¬ Unterminated mkTun sibling [] := by
    rintro ⟨hdir, -⟩
    exact absurd hdir (by decide)
  refine ((checkParentPath_meets_iff mkTun sibling [] (by decide)).mpr ?_).mpr (by decide)
  rintro (hb | hu)
  · exact hbelow hb
  · exact hunterminated hu

/-- A program in a directory of its own, below that of `crts_mkTUN`, is accepted. -/
theorem accepts_nested :
    ¬ ∀ own parent memory, 3 < own.dir.length →
      (checkParentPath own parent memory = some false ↔ parent.dir = own.dir) := by
  intro h
  have hlong : 3 < mkTun.dir.length := by decide
  have haccept : checkParentPath mkTun nested [] = some false :=
    (checkParentPath_eq_false hlong).mpr (.inl (by decide))
  exact absurd ((h mkTun nested [] hlong).mp haccept) (by decide)

end Tidbits.Crts
