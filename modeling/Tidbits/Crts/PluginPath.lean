import Tidbits.Crts.ParentPath

/-!
# The path of a plugin

`GetPluginPath` takes the path `P/D/prog` of the running executable, strips the
last two components off and appends the relative path of a plugin.  Two of its
numbers are wrong.

The scans for the two slashes do not go below index 5, so that a directory `P`
of less than five bytes, as `/usr` or `/opt`, fails an assertion:
`getPluginPath_meets_iff`.  And `postLen`, the length of what is appended, is a
`static`, which only the first call of the process computes.  The buffer of a
later call is too small for a longer name unless there happens to be room for it
behind the path.  A build that defines `DEBUG` checks this before it appends, but
without the bytes of `.so`: `pluginBuffers_inBounds_iff`.

`malloc()` and `realloc()` give what they are asked for here.
-/

namespace Tidbits.Crts

open Tidbits.Libc Tidbits.Sequence

/-! ## The function -/

/-- `PRE`, which is `/share/crts/plugins/`. -/
def pre : List UInt8 :=
  [47, 115, 104, 97, 114, 101, 47, 99, 114, 116, 115, 47,
    112, 108, 117, 103, 105, 110, 115, 47]

/-- `.so`. -/
def dotSo : List UInt8 := [46, 115, 111]

/-- What a call does to its buffer, and what it leaves there. -/
structure PluginBuffer where
  /-- The length that is allocated in the end; 0 if nothing is. -/
  bufLen : ℕ
  /-- The values of `rl` for which the call sets `buf[rl]`. -/
  terminated : List ℕ
  /-- The string that is returned, unless an assertion fails before. -/
  text : Option (List UInt8)

/-- A `DASSERT` fails, which is nothing at all unless `DEBUG` is defined. -/
def DassertFails (debug : Bool) (val : Prop) : Prop := debug = true ∧ ¬ val

instance (debug : Bool) (val : Prop) [Decidable val] : Decidable (DassertFails debug val) :=
  inferInstanceAs (Decidable (_ ∧ _))

/-- The value that the first call gives to `postLen`. -/
def postLength (category name : CString) : ℕ :=
  pre.length + category.bytes.length + name.bytes.length + 5

/-- `1024*1024`. -/
def largest : ℕ := 1048576

/-- The loop that makes the buffer larger until the path and what is appended fit; an error with
the length at which its assertion fails. -/
def growPluginBuffer (debug : Bool) (exe : ExePath) (postLen bufLen : ℕ) : Except ℕ ℕ :=
  if bufLen ≤ (readlink exe bufLen).length + postLen then
    if DassertFails debug (bufLen < largest) then .error bufLen
    else growPluginBuffer debug exe postLen (bufLen + inc)
  else .ok bufLen
termination_by exe.bytes.length + postLen + 1 - bufLen
decreasing_by
  have hle : (readlink exe bufLen).length ≤ exe.bytes.length := List.length_take_le' _ _
  unfold inc
  omega

/-- The four `strcat()` to the directory, and the one of `.so` unless it is there already. -/
def appendPlugin (dir : List UInt8) (category name : CString) : List UInt8 :=
  let buf := dir ++ pre ++ category.bytes ++ slash :: name.bytes
  if buf.drop (buf.length - 3) = dotSo then buf else buf ++ dotSo

/-- What `GetPluginPath` does with the path that it has read into its buffer. -/
def replaceProgram (debug : Bool) (bufLen : ℕ) (buf : List UInt8) (category name : CString) :
    PluginBuffer :=
  -- the byte behind the path, which the first `buf[rl] = '\0'` sets, is not scanned
  let rl := scanBack slash 5 buf (buf.length - 1)
  if buf[rl]? ≠ some slash then ⟨bufLen, [buf.length], none⟩
  else
    let rl := scanBack slash 5 buf (rl - 1)
    if buf[rl]? ≠ some slash then ⟨bufLen, [buf.length], none⟩
    else if DassertFails debug ((buf.take rl).length + pre.length + category.bytes.length + 1 +
        name.bytes.length + 1 < bufLen) then ⟨bufLen, [buf.length, rl], none⟩
    else ⟨bufLen, [buf.length, rl], some (appendPlugin (buf.take rl) category name)⟩

/-- `GetPluginPath`, in a process in which `postLen` has the value `static` if it has one. -/
def getPluginPath (debug : Bool) (static : Option ℕ) (exe : ExePath) (category name : CString) :
    PluginBuffer :=
  if DassertFails debug (1 ≤ name.bytes.length) then ⟨0, [], none⟩
  else if DassertFails debug (1 ≤ category.bytes.length) then ⟨0, [], none⟩
  else
    let postLen := static.getD (postLength category name)
    if DassertFails debug (0 < postLen ∧ postLen < largest) then ⟨0, [], none⟩
    else
      match growPluginBuffer debug exe postLen (inc + postLen) with
      | .error bufLen => ⟨bufLen, [], none⟩
      | .ok bufLen => replaceProgram debug bufLen (readlink exe bufLen) category name

/-- The calls of one process.  There is no call behind one in which an assertion fails, as that
sleeps for ever. -/
def pluginBuffers (debug : Bool) (static : Option ℕ) (exe : ExePath) :
    List (CString × CString) → List PluginBuffer
  | [] => []
  | (category, name) :: calls =>
      let b := getPluginPath debug static exe category name
      b :: if b.text = none then []
        else pluginBuffers debug (some (static.getD (postLength category name))) exe calls

/-! ## What is asked of it -/

/-- Nothing is written behind the buffer. -/
def PluginBuffer.InBounds (b : PluginBuffer) : Prop :=
  (∀ rl ∈ b.terminated, rl < b.bufLen) ∧ ∀ text ∈ b.text, text.length + 1 ≤ b.bufLen

/-- The call returns this string. -/
def PluginBuffer.Returns (b : PluginBuffer) (path : List UInt8) : Prop :=
  b.text = some path ∧ b.InBounds

/-- The path of a plugin below a directory. -/
def pluginPath (dir : List UInt8) (category name : CString) : List UInt8 :=
  dir ++ pre ++ category.bytes ++
    slash :: if dotSo <:+ name.bytes then name.bytes else name.bytes ++ dotSo

namespace ExePath

/-- The directory above that of the executable. -/
def root (exe : ExePath) : List UInt8 := dirname exe.dir

end ExePath

/-- How long the buffer for a path and `postLen` appended bytes gets. -/
def bufferLength (postLen : ℕ) (exe : ExePath) : ℕ :=
  postLen + inc * (exe.bytes.length / inc + 1)

/-- The string and its terminator fit into a buffer that was made for `postLen` appended bytes. -/
def Fits (postLen : ℕ) (exe : ExePath) (category name : CString) : Prop :=
  (pluginPath exe.root category name).length + 1 ≤ bufferLength postLen exe

instance (postLen : ℕ) (exe : ExePath) (category name : CString) :
    Decidable (Fits postLen exe category name) :=
  inferInstanceAs (Decidable (_ ≤ _))

/-- What a build that defines `DEBUG` checks. -/
structure Checked (postLen : ℕ) (exe : ExePath) (category name : CString) : Prop where
  name_pos : 1 ≤ name.bytes.length
  category_pos : 1 ≤ category.bytes.length
  postLen_pos : 0 < postLen
  /-- Of the length that the loop makes larger the last time. -/
  bufLen_lt : postLen + inc * (exe.bytes.length / inc) < largest
  /-- Without `.so`. -/
  room : exe.root.length + pre.length + category.bytes.length + 1 + name.bytes.length + 1 <
    bufferLength postLen exe

/-- No assertion of a call fails. -/
structure Passes (debug : Bool) (postLen : ℕ) (exe : ExePath) (category name : CString) : Prop where
  root : 5 ≤ exe.root.length
  checked : debug = true → Checked postLen exe category name

/-! ## The buffer -/

variable {debug : Bool} {exe : ExePath} {static : Option ℕ} {category name : CString}

theorem not_dassertFails_iff {val : Prop} : ¬ DassertFails debug val ↔ (debug = true → val) := by
  rw [DassertFails, not_and, not_not]

/-- The buffer has room for `postLen` bytes, and the least multiple of 128 that the path is
shorter than, unless the length before that is too large. -/
theorem growPluginBuffer_eq (debug : Bool) (exe : ExePath) (postLen k : ℕ)
    (hk : inc * k ≤ exe.bytes.length) (hsmall : debug = true → postLen + inc * k < largest) :
    (growPluginBuffer debug exe postLen (postLen + inc * (k + 1)) =
        .ok (bufferLength postLen exe) ∧
      (debug = true → postLen + inc * (exe.bytes.length / inc) < largest)) ∨
    ((∃ bufLen, growPluginBuffer debug exe postLen (postLen + inc * (k + 1)) = .error bufLen) ∧
      ¬ (debug = true → postLen + inc * (exe.bytes.length / inc) < largest)) := by
  have hlength : ∀ bufLen, (readlink exe bufLen).length = min bufLen exe.bytes.length :=
    fun bufLen ↦ List.length_take
  generalize hbuf : postLen + inc * (k + 1) = bufLen
  fun_induction growPluginBuffer debug exe postLen bufLen generalizing k with
  | case1 bufLen hfull hlarge =>
      rw [hlength] at hfull
      have hquot : k + 1 ≤ exe.bytes.length / inc := by
        rw [Nat.le_div_iff_mul_le (by decide), Nat.mul_comm]
        omega
      have hle : inc * (k + 1) ≤ inc * (exe.bytes.length / inc) := Nat.mul_le_mul_left inc hquot
      refine .inr ⟨⟨bufLen, rfl⟩, fun h ↦ hlarge.2 ?_⟩
      have hlt := h hlarge.1
      omega
  | case2 bufLen hfull hsmall' ih =>
      rw [hlength] at hfull
      refine ih (k + 1) ?_ ?_ ?_
      · omega
      · rw [hbuf]
        exact not_dassertFails_iff.mp hsmall'
      · rw [← hbuf, Nat.mul_succ inc (k + 1), Nat.add_assoc]
  | case3 bufLen hfits =>
      rw [hlength] at hfits
      have hquot : exe.bytes.length / inc = k := by
        refine Nat.div_eq_of_lt_le ?_ ?_
        · rw [Nat.mul_comm]
          exact hk
        · rw [Nat.mul_comm]
          omega
      rw [bufferLength, hquot, hbuf]
      exact .inl ⟨rfl, hsmall⟩

theorem readlink_eq_self {bufLen : ℕ} (hlt : exe.bytes.length ≤ bufLen) :
    readlink exe bufLen = exe.bytes :=
  List.take_of_length_le hlt

theorem length_lt_bufferLength (postLen : ℕ) (exe : ExePath) :
    exe.bytes.length < bufferLength postLen exe := by
  have hlt := Nat.lt_mul_div_succ exe.bytes.length (show 0 < inc by decide)
  exact Nat.lt_of_lt_of_le hlt (Nat.le_add_left _ _)

/-! ## The string -/

theorem dotSo_suffix_iff {front : List UInt8} :
    dotSo <:+ front ++ slash :: name.bytes ↔ dotSo <:+ name.bytes := by
  constructor
  · intro h
    have hname : name.bytes <:+ front ++ slash :: name.bytes :=
      (List.suffix_cons slash name.bytes).trans (List.suffix_append _ _)
    rcases Nat.lt_or_ge name.bytes.length dotSo.length with hshort | hlong
    · -- then the slash in front of the name would be in the suffix
      have hslash : slash :: name.bytes <:+ dotSo :=
        List.suffix_of_suffix_length_le (List.suffix_append _ _) h hshort
      exact absurd (hslash.subset List.mem_cons_self) (by decide)
    · exact List.suffix_of_suffix_length_le h hname hlong
  · intro h
    exact h.trans ((List.suffix_cons slash name.bytes).trans (List.suffix_append _ _))

/-- **`.so` is appended exactly if the name does not end in it.** -/
theorem appendPlugin_eq (dir : List UInt8) (category name : CString) :
    appendPlugin dir category name = pluginPath dir category name := by
  have hsuffix : dotSo <:+ dir ++ pre ++ category.bytes ++ slash :: name.bytes ↔
      dotSo <:+ name.bytes := dotSo_suffix_iff
  rw [List.suffix_iff_eq_drop, eq_comm] at hsuffix
  unfold appendPlugin pluginPath
  dsimp only
  rw [show dotSo.length = 3 from rfl] at hsuffix
  by_cases h : dotSo <:+ name.bytes
  · rw [if_pos h, if_pos (hsuffix.mpr h)]
  · rw [if_neg h, if_neg (mt hsuffix.mp h), List.append_assoc (dir ++ pre ++ category.bytes)]
    rfl

/-! ## The two scans -/

namespace ExePath

theorem name_ne_nil {front name : List UInt8} (h : exe.bytes = front ++ slash :: name) :
    name ≠ [] := by
  rintro rfl
  refine exe.nonempty_name ?_
  rw [h, List.getLast?_concat]

/-- The directory of an executable is the root of the file system, or has a name. -/
theorem dir_eq (exe : ExePath) :
    exe.dir = [] ∨ ∃ sub, exe.dir = exe.root ++ slash :: sub ∧ slash ∉ sub ∧ sub ≠ [] := by
  obtain ⟨name, hpath, -⟩ := exe.exists_name
  cases hdir : exe.dir with
  | nil => exact .inl rfl
  | cons c dir =>
      have hslash : slash ∈ exe.dir := by
        have habsolute := exe.absolute
        rw [hpath, hdir, List.cons_append, List.head?_cons] at habsolute
        rw [hdir, Option.some.inj habsolute]
        exact List.mem_cons_self
      obtain ⟨sub, hsub, hnotMem⟩ := Crts.exists_name hslash
      refine .inr ⟨sub, hdir ▸ hsub, hnotMem, ?_⟩
      rintro rfl
      refine exe.getLast?_dir ?_
      rw [hsub, List.getLast?_concat]

theorem length_root_le (exe : ExePath) : exe.root.length ≤ exe.dir.length := by
  rcases exe.dir_eq with hnil | ⟨sub, hsub, -, -⟩
  · rw [root, hnil]
    exact Nat.le_refl _
  · rw [hsub, List.length_append]
    exact Nat.le_add_right _ _

theorem length_root_le_bytes (exe : ExePath) : exe.root.length ≤ exe.bytes.length := by
  obtain ⟨name, hpath, -⟩ := exe.exists_name
  refine exe.length_root_le.trans ?_
  rw [hpath, List.length_append]
  exact Nat.le_add_right _ _

/-- The scan from the end of the path on finds the slash behind the directory, unless that is
too short. -/
theorem scan_name (exe : ExePath) :
    if 5 ≤ exe.dir.length then
      scanBack slash 5 exe.bytes (exe.bytes.length - 1) = exe.dir.length ∧
        exe.bytes[exe.dir.length]? = some slash
    else exe.bytes[scanBack slash 5 exe.bytes (exe.bytes.length - 1)]? ≠ some slash := by
  obtain ⟨name, hpath, hname⟩ := exe.exists_name
  have hpos : 0 < name.length := List.length_pos_of_ne_nil (exe.name_ne_nil hpath)
  have hstart : exe.bytes.length - 1 = exe.dir.length + name.length := by
    rw [hpath, List.length_append, List.length_cons]
    rfl
  have hbytes : exe.bytes = exe.dir ++ slash :: (name ++ []) := by
    rw [List.append_nil]
    exact hpath
  rw [hstart, hbytes]
  split_ifs with hlong
  · refine ⟨scanBack_add hlong hname (Nat.le_refl _), ?_⟩
    rw [List.getElem?_append_right (Nat.le_refl _), Nat.sub_self, List.getElem?_cons_zero]
  · exact getElem?_scanBack_ne (Nat.lt_of_not_le hlong) hname hpos (Nat.le_refl _)

/-- The scan from the end of the directory on finds the slash behind its root, unless that is
too short. -/
theorem scan_dir (exe : ExePath) (hdir : exe.dir ≠ []) :
    if 5 ≤ exe.root.length then
      scanBack slash 5 exe.bytes (exe.dir.length - 1) = exe.root.length ∧
        exe.bytes[exe.root.length]? = some slash ∧ exe.bytes.take exe.root.length = exe.root
    else exe.bytes[scanBack slash 5 exe.bytes (exe.dir.length - 1)]? ≠ some slash := by
  obtain ⟨name, hpath, -⟩ := exe.exists_name
  obtain ⟨sub, hsub, hslash, hne⟩ := exe.dir_eq.resolve_left hdir
  have hpos : 0 < sub.length := List.length_pos_of_ne_nil hne
  have hstart : exe.dir.length - 1 = exe.root.length + sub.length := by
    rw [hsub, List.length_append, List.length_cons]
    rfl
  have hbytes : exe.bytes = exe.root ++ slash :: (sub ++ slash :: name) := by
    rw [hpath, hsub, List.append_assoc]
    rfl
  rw [hstart, hbytes]
  split_ifs with hlong
  · refine ⟨scanBack_add hlong hslash (Nat.le_refl _), ?_, List.take_left⟩
    rw [List.getElem?_append_right (Nat.le_refl _), Nat.sub_self, List.getElem?_cons_zero]
  · exact getElem?_scanBack_ne (Nat.lt_of_not_le hlong) hslash hpos (Nat.le_refl _)

end ExePath

/-! ## What a call returns -/

/-- **The two components are stripped off if the directory above them has five bytes.** -/
theorem replaceProgram_spec (debug : Bool) {bufLen : ℕ} (exe : ExePath) (category name : CString)
    (hlt : exe.bytes.length < bufLen) :
    let passes := 5 ≤ exe.root.length ∧ (debug = true → exe.root.length + pre.length +
      category.bytes.length + 1 + name.bytes.length + 1 < bufLen)
    let b := replaceProgram debug bufLen exe.bytes category name
    (∀ rl ∈ b.terminated, rl < b.bufLen) ∧ b.bufLen = bufLen ∧
      (passes ∧ b.text = some (pluginPath exe.root category name) ∨ ¬ passes ∧ b.text = none) := by
  have hone : ∀ rl ∈ [exe.bytes.length], rl < bufLen := by
    intro rl hrl
    rw [List.mem_singleton.mp hrl]
    exact hlt
  have htwo : ∀ rl ∈ [exe.bytes.length, exe.root.length], rl < bufLen := by
    intro rl hrl
    rcases List.mem_pair.mp hrl with rfl | rfl
    · exact hlt
    · exact Nat.lt_of_le_of_lt exe.length_root_le_bytes hlt
  have hname := exe.scan_name
  unfold replaceProgram
  dsimp only
  split_ifs at hname with hdir
  · have hne : exe.dir ≠ [] := by
      intro hnil
      rw [hnil] at hdir
      exact absurd hdir (by decide)
    have hscan := exe.scan_dir hne
    rw [hname.1, if_neg (not_not.mpr hname.2)]
    split_ifs at hscan with hroot
    · rw [hscan.1, if_neg (not_not.mpr hscan.2.1), hscan.2.2]
      split_ifs with hroom
      · exact ⟨htwo, rfl, .inr ⟨fun h ↦ hroom.2 (h.2 hroom.1), rfl⟩⟩
      · refine ⟨htwo, rfl, .inl ⟨⟨hroot, not_dassertFails_iff.mp hroom⟩, ?_⟩⟩
        rw [appendPlugin_eq]
    · rw [if_pos hscan]
      exact ⟨hone, rfl, .inr ⟨fun h ↦ hroot h.1, rfl⟩⟩
  · rw [if_pos hname]
    refine ⟨hone, rfl, .inr ⟨fun h ↦ hdir (h.1.trans exe.length_root_le), rfl⟩⟩

/-- **What a call does.**  It returns the path of the plugin exactly if no assertion fails; the
value of `postLen` matters for these and for the length of the buffer only. -/
theorem getPluginPath_spec (debug : Bool) (static : Option ℕ) (exe : ExePath)
    (category name : CString) :
    let postLen := static.getD (postLength category name)
    let b := getPluginPath debug static exe category name
    (∀ rl ∈ b.terminated, rl < b.bufLen) ∧
      (Passes debug postLen exe category name ∧ b.bufLen = bufferLength postLen exe ∧
          b.text = some (pluginPath exe.root category name) ∨
        ¬ Passes debug postLen exe category name ∧ b.text = none) := by
  have hnil : ∀ bufLen, ∀ rl ∈ ([] : List ℕ), rl < bufLen := fun _ _ h ↦ nomatch h
  unfold getPluginPath
  dsimp only
  generalize static.getD (postLength category name) = postLen
  split_ifs with hname hcategory hpost
  · exact ⟨hnil _, .inr ⟨fun h ↦ hname.2 (h.checked hname.1).name_pos, rfl⟩⟩
  · exact ⟨hnil _, .inr ⟨fun h ↦ hcategory.2 (h.checked hcategory.1).category_pos, rfl⟩⟩
  · refine ⟨hnil _, .inr ⟨fun h ↦ hpost.2 ⟨(h.checked hpost.1).postLen_pos, ?_⟩, rfl⟩⟩
    exact Nat.lt_of_le_of_lt (Nat.le_add_right _ _) (h.checked hpost.1).bufLen_lt
  rw [not_dassertFails_iff] at hname hcategory hpost
  have hgrow := growPluginBuffer_eq debug exe postLen 0 (Nat.zero_le _) fun h ↦ (hpost h).2
  rw [show postLen + inc * (0 + 1) = inc + postLen from Nat.add_comm _ _] at hgrow
  rcases hgrow with ⟨heq, hbuf⟩ | ⟨⟨bufLen, heq⟩, hbuf⟩
  · have hlt := length_lt_bufferLength postLen exe
    rw [heq]
    dsimp only
    rw [readlink_eq_self (Nat.le_of_lt hlt)]
    obtain ⟨hterm, hlength, ⟨hpasses, htext⟩ | ⟨hfails, htext⟩⟩ :=
      replaceProgram_spec debug exe category name hlt
    · refine ⟨hterm, .inl ⟨⟨hpasses.1, fun h ↦ ?_⟩, hlength, htext⟩⟩
      exact ⟨hname h, hcategory h, (hpost h).1, hbuf h, hpasses.2 h⟩
    · exact ⟨hterm, .inr ⟨fun h ↦ hfails ⟨h.root, fun hd ↦ (h.checked hd).room⟩, htext⟩⟩
  · rw [heq]
    exact ⟨hnil _, .inr ⟨fun h ↦ hbuf fun hd ↦ (h.checked hd).bufLen_lt, rfl⟩⟩

theorem getPluginPath_text_eq_none_iff :
    (getPluginPath debug static exe category name).text = none ↔
      ¬ Passes debug (static.getD (postLength category name)) exe category name := by
  obtain ⟨-, ⟨hpasses, -, htext⟩ | ⟨hfails, htext⟩⟩ :=
    getPluginPath_spec debug static exe category name
  · rw [htext]
    exact iff_of_false (fun h ↦ nomatch h) (not_not.mpr hpasses)
  · exact iff_of_true htext hfails

/-- A call that gets to its `strcat()` needs the room for them. -/
theorem getPluginPath_inBounds_iff :
    (getPluginPath debug static exe category name).InBounds ↔
      (Passes debug (static.getD (postLength category name)) exe category name →
        Fits (static.getD (postLength category name)) exe category name) := by
  obtain ⟨hterm, ⟨hpasses, hlength, htext⟩ | ⟨hfails, htext⟩⟩ :=
    getPluginPath_spec debug static exe category name
  · rw [PluginBuffer.InBounds, hlength, htext]
    rw [hlength] at hterm
    constructor
    · intro h _
      exact h.2 _ rfl
    · intro h
      refine ⟨hterm, ?_⟩
      intro text hsome
      rw [← Option.some.inj hsome]
      exact h hpasses
  · refine iff_of_true ⟨hterm, ?_⟩ fun h ↦ absurd h hfails
    rw [htext]
    exact fun _ h ↦ nomatch h

/-- The first call counts right. -/
theorem fits_first (exe : ExePath) (category name : CString) :
    Fits (postLength category name) exe category name := by
  have hroot := exe.length_root_le_bytes
  have hlt := length_lt_bufferLength 0 exe
  have hso : (if dotSo <:+ name.bytes then name.bytes else name.bytes ++ dotSo).length ≤
      name.bytes.length + 3 := by
    split_ifs
    · exact Nat.le_add_right _ _
    · rw [List.length_append]
      exact Nat.le_refl _
  unfold Fits pluginPath
  unfold bufferLength at hlt ⊢
  unfold postLength
  simp only [List.length_append, List.length_cons]
  omega

/-- **When a call returns the path of the plugin.**  The directory above the two components has
five bytes at least, the checks of a build with `DEBUG` pass, and a call that is not the first has
to fit into the buffer. -/
theorem getPluginPath_meets_iff (debug : Bool) (static : Option ℕ) (exe : ExePath)
    (category name : CString) (dir sub prog : List UInt8)
    (hpath : exe.bytes = dir ++ slash :: (sub ++ slash :: prog))
    (hsub : slash ∉ sub) (hprog : slash ∉ prog) :
    (getPluginPath debug static exe category name).Returns (pluginPath dir category name) ↔
      5 ≤ dir.length ∧
        (debug = true → Checked (static.getD (postLength category name)) exe category name) ∧
        ∀ postLen ∈ static, Fits postLen exe category name := by
  have hdir : exe.dir = dir ++ slash :: sub := by
    rw [ExePath.dir, hpath, ← List.cons_append, ← List.append_assoc, dirname_append hprog]
  have hroot : exe.root = dir := by
    rw [ExePath.root, hdir, dirname_append hsub]
  have hfits : Fits (static.getD (postLength category name)) exe category name ↔
      ∀ postLen ∈ static, Fits postLen exe category name := by
    cases static with
    | none => exact iff_of_true (fits_first exe category name) fun _ h ↦ nomatch h
    | some postLen => simp
  rw [← hfits, PluginBuffer.Returns, getPluginPath_inBounds_iff]
  obtain ⟨-, ⟨hpasses, -, htext⟩ | ⟨hfails, htext⟩⟩ :=
    getPluginPath_spec debug static exe category name
  · rw [htext, hroot]
    constructor
    · intro h
      exact ⟨hroot ▸ hpasses.root, hpasses.checked, h.2 hpasses⟩
    · intro h
      exact ⟨rfl, fun _ ↦ h.2.2⟩
  · rw [htext]
    refine iff_of_false (fun h ↦ nomatch h.1) ?_
    intro h
    exact hfails ⟨hroot ▸ h.1, h.2.1⟩

/-- The path `/opt/b/p`. -/
def optProgram : ExePath :=
  ⟨⟨[47, 111, 112, 116, 47, 98, 47, 112], by decide⟩, by decide, by decide, by decide⟩

/-- The path `/opt/a/b/p`. -/
def program : ExePath :=
  ⟨⟨[47, 111, 112, 116, 47, 97, 47, 98, 47, 112], by decide⟩, by decide, by decide, by decide⟩

/-- The string `RadioInput`. -/
def radioInput : CString := ⟨[82, 97, 100, 105, 111, 73, 110, 112, 117, 116], by decide⟩

/-- The string `RadioOutput`. -/
def radioOutput : CString := ⟨[82, 97, 100, 105, 111, 79, 117, 116, 112, 117, 116], by decide⟩

/-- The string `fd0`. -/
def fd0 : CString := ⟨[102, 100, 48], by decide⟩

/-- The call for the output module of `crts_radio`, behind the one for the input module. -/
theorem getPluginPath_meets_program :
    (getPluginPath true (some (postLength radioInput fd0)) program radioOutput fd0).Returns
      (pluginPath [47, 111, 112, 116, 47, 97] radioOutput fd0) := by
  refine (getPluginPath_meets_iff true _ program radioOutput fd0 [47, 111, 112, 116, 47, 97] [98]
    [112] rfl (by decide) (by decide)).mpr ⟨by decide, fun _ ↦ ?_, ?_⟩
  · exact ⟨by decide, by decide, by decide, by decide, by decide⟩
  · intro postLen h
    rw [← Option.some.inj h]
    decide

/-- Below `/opt`, the second scan stops in the name of the directory. -/
theorem getPluginPath_optProgram :
    ¬ ∀ (exe : ExePath) (category name : CString) (dir sub prog : List UInt8), 2 ≤ dir.length →
      exe.bytes = dir ++ slash :: (sub ++ slash :: prog) → slash ∉ sub → slash ∉ prog →
      (getPluginPath true none exe category name).Returns (pluginPath dir category name) := by
  intro h
  have hreturns := h optProgram radioInput fd0 [47, 111, 112, 116] [98] [112] (by decide) rfl
    (by decide) (by decide)
  have hnone : (getPluginPath true none optProgram radioInput fd0).text = none :=
    getPluginPath_text_eq_none_iff.mpr fun hpasses ↦ absurd hpasses.root (by decide)
  exact nomatch hnone.symm.trans hreturns.1

/-! ## The calls of a process -/

/-- The calls behind the first one, which set `postLen` to this value. -/
theorem pluginBuffers_some_inBounds_iff (debug : Bool) (postLen : ℕ) (exe : ExePath)
    (calls : List (CString × CString)) :
    (∀ b ∈ pluginBuffers debug (some postLen) exe calls, b.InBounds) ↔
      ∀ before call after, calls = before ++ call :: after →
        (∀ c ∈ before ++ [call], Passes debug postLen exe c.1 c.2) →
        Fits postLen exe call.1 call.2 := by
  induction calls with
  | nil =>
      refine iff_of_true (fun _ h ↦ nomatch h) ?_
      intro before call after h
      exact absurd h.symm (List.append_ne_nil_of_right_ne_nil _ (List.cons_ne_nil _ _))
  | cons call calls ih =>
      obtain ⟨category, name⟩ := call
      have htext : (getPluginPath debug (some postLen) exe category name).text = none ↔
          ¬ Passes debug postLen exe category name := getPluginPath_text_eq_none_iff
      rw [pluginBuffers, List.forall_mem_cons, getPluginPath_inBounds_iff, Option.getD_some]
      by_cases hpasses : Passes debug postLen exe category name
      · rw [if_neg (mt htext.mp (not_not.mpr hpasses)), ih]
        constructor
        · rintro ⟨hfirst, hrest⟩ before call after heq hbefore
          cases before with
          | nil =>
              obtain ⟨rfl, -⟩ := List.cons.inj heq
              exact hfirst hpasses
          | cons c before =>
              obtain ⟨-, rfl⟩ := List.cons.inj heq
              exact hrest before call after rfl fun d hd ↦ hbefore d (List.mem_cons_of_mem c hd)
        · intro h
          refine ⟨fun _ ↦ h [] (category, name) calls rfl ?_, ?_⟩
          · exact List.forall_mem_singleton.mpr hpasses
          · intro before call after heq hbefore
            refine h ((category, name) :: before) call after (congrArg _ heq) ?_
            exact List.forall_mem_cons.mpr ⟨hpasses, hbefore⟩
      · rw [if_pos (htext.mpr hpasses)]
        refine iff_of_true ⟨fun h ↦ absurd h hpasses, fun _ h ↦ nomatch h⟩ ?_
        intro before call after heq hbefore
        refine absurd (hbefore (category, name) ?_) hpasses
        cases before with
        | nil =>
            obtain ⟨rfl, -⟩ := List.cons.inj heq
            exact List.mem_cons_self
        | cons c before =>
            obtain ⟨rfl, -⟩ := List.cons.inj heq
            exact List.mem_cons_self

/-- The first call does what it would do if it had computed `postLen` before. -/
theorem pluginBuffers_first (debug : Bool) (exe : ExePath) (category name : CString)
    (calls : List (CString × CString)) :
    pluginBuffers debug none exe ((category, name) :: calls) =
      pluginBuffers debug (some (postLength category name)) exe ((category, name) :: calls) := rfl

/-- **When no call of a process writes behind its buffer.**  Every one up to the first in which an
assertion fails has to fit into a buffer that the first one would have made. -/
theorem pluginBuffers_inBounds_iff (debug : Bool) (exe : ExePath)
    (calls : List (CString × CString)) :
    (∀ b ∈ pluginBuffers debug none exe calls, b.InBounds) ↔
      ∀ first ∈ calls.head?, ∀ before call after, calls = before ++ call :: after →
        (∀ c ∈ before ++ [call], Passes debug (postLength first.1 first.2) exe c.1 c.2) →
        Fits (postLength first.1 first.2) exe call.1 call.2 := by
  cases calls with
  | nil => exact iff_of_true (fun _ h ↦ nomatch h) fun _ h ↦ nomatch h
  | cons call calls =>
      obtain ⟨category, name⟩ := call
      rw [pluginBuffers_first, pluginBuffers_some_inBounds_iff]
      constructor
      · intro h first hhead
        rw [← Option.some.inj hhead]
        exact h
      · intro h
        exact h _ rfl

/-- With the checks of a build that defines `DEBUG`, only the bytes of `.so` can be too many, and
only if there is room for one of them or none. -/
theorem Checked.not_fits_iff {postLen : ℕ} (h : Checked postLen exe category name) :
    ¬ Fits postLen exe category name ↔ ¬ dotSo <:+ name.bytes ∧
      bufferLength postLen exe ≤
        exe.root.length + pre.length + category.bytes.length + 1 + name.bytes.length + 3 := by
  have hroom := h.room
  unfold Fits pluginPath
  split_ifs with hso <;> simp only [List.length_append, List.length_cons]
  · refine iff_of_false ?_ fun h ↦ h.1 hso
    omega
  · rw [and_iff_right hso, show dotSo.length = 3 from rfl]
    omega

/-- A name of 125 bytes. -/
def longName : CString := ⟨List.replicate 125 120, by decide⟩

/-- `crts_radio` loads an input module with a short name, and then an output module with a name of
125 bytes.  All the checks pass, and the terminator is written behind the buffer. -/
theorem pluginBuffers_radioOutput :
    ¬ ∀ exe calls, ∀ b ∈ pluginBuffers true none exe calls, b.InBounds := by
  intro h
  have hcalls := h program [(radioInput, fd0), (radioOutput, longName)]
  rw [pluginBuffers_first, pluginBuffers_some_inBounds_iff] at hcalls
  have hinput : Passes true (postLength radioInput fd0) program radioInput fd0 :=
    ⟨by decide, fun _ ↦ ⟨by decide, by decide, by decide, by decide, by decide⟩⟩
  have houtput : Checked (postLength radioInput fd0) program radioOutput longName :=
    ⟨by decide +kernel, by decide, by decide, by decide, by decide +kernel⟩
  have hfits := hcalls [(radioInput, fd0)] (radioOutput, longName) [] rfl
    (List.forall_mem_cons.mpr ⟨hinput, List.forall_mem_singleton.mpr
      ⟨hinput.root, fun _ ↦ houtput⟩⟩)
  exact houtput.not_fits_iff.mpr ⟨by decide +kernel, by decide +kernel⟩ hfits

end Tidbits.Crts
