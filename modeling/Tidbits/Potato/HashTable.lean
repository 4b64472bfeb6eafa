import Mathlib.Data.List.Nodup
import Mathlib.Data.List.Perm.Subperm
import Tidbits.Libc.Memory
import Tidbits.Sequence.Probe
import Tidbits.Transition.Reach

/-!
# The hash table

A table is an array of elements of one size, each of which starts with its key.
One function finds the element with a key, starting at the hash of another key,
and makes a new entry if the two keys differ: the first is then the mark of an
empty element.

The search stops at a key, and an empty element in its way is not the end of it.
So an entry that is deleted leaves nothing to repair: `findInt_sound` is about all
runs of insertions, deletions and lookups.  The function for 64-bit keys reads
and writes an `int`, though, and `findUInt64_meets_iff` says that only the keys
that are one are found again.

A memory starts with the table, and a word in it with its lowest byte.
-/

namespace Tidbits.Potato

open Tidbits.Libc Tidbits.Sequence Tidbits.Transition

/-! ## The functions -/

/-- The size of a table, whose elements have room for a key of `keySize` bytes. -/
structure Layout (keySize : ℕ) where
  tableLen : ℕ
  elementSize : ℕ
  tableLen_pos : 0 < tableLen
  keySize_le : keySize ≤ elementSize
  total_lt : tableLen * elementSize < 2 ^ 32

/-- `*((int *) &ptr[i])`. -/
def loadInt (mem : Memory) (i : ℕ) : BitVec 32 := BitVec.ofNat 32 (decode (load mem i 4))

/-- `*((int *) &ptr[i]) = v`. -/
def storeInt (mem : Memory) (i : ℕ) (v : BitVec 32) : Memory := store mem i (encode 4 v.toNat)

/-- The loop over the elements; `none` if it takes more than so many. -/
def findElement (isKey : ℕ → Bool) (elementSize tableLen : ℕ) : ℕ → ℕ → Option ℕ
  | 0, _ => none
  | probes + 1, i =>
      if isKey i then some i
      else
        let i := (i + elementSize) % 2 ^ 32
        findElement isKey elementSize tableLen probes (if i = tableLen * elementSize then 0 else i)

/-- `poHT_findInt`: the memory afterwards, and the element. -/
def findInt (hash : BitVec 32 → ℕ) (mem : Memory) (elementSize : ℕ) (hkey ekey : BitVec 32)
    (tableLen probes : ℕ) : Option (Memory × ℕ) :=
  let i := hash hkey % tableLen * elementSize % 2 ^ 32
  (findElement (fun i ↦ loadInt mem i = ekey) elementSize tableLen probes i).map fun i ↦
    (if hkey ≠ ekey then storeInt mem i hkey else mem, i)

/-- `poHT_findUInt64`, which compares and stores an `int` as well. -/
def findUInt64 (hash : BitVec 64 → ℕ) (mem : Memory) (elementSize : ℕ) (hkey ekey : BitVec 64)
    (tableLen probes : ℕ) : Option (Memory × ℕ) :=
  let i := hash hkey % tableLen * elementSize % 2 ^ 32
  (findElement (fun i ↦ (loadInt mem i).signExtend 64 = ekey) elementSize tableLen probes i).map
    fun i ↦ (if hkey ≠ ekey then storeInt mem i (hkey.setWidth 32) else mem, i)

/-- The key of an empty element. -/
def empty : BitVec 32 := -1

/-! ## One element -/

section Elements

variable {keySize : ℕ} {L : Layout keySize} {mem : Memory} {i j k : ℕ} {v : BitVec 32}

namespace Layout

/-- Where an element is. -/
def element (L : Layout keySize) (j : ℕ) : ℕ := j * L.elementSize

theorem element_add_le (L : Layout keySize) (hj : j < L.tableLen) :
    L.element j + L.elementSize ≤ L.tableLen * L.elementSize := by
  rw [element, ← Nat.succ_mul]
  exact Nat.mul_le_mul_right _ hj

/-- Different elements are disjoint. -/
theorem element_disjoint (L : Layout keySize) (h : i ≠ j) :
    L.element i + L.elementSize ≤ L.element j ∨ L.element j + L.elementSize ≤ L.element i := by
  rcases Nat.lt_or_gt_of_ne h with hlt | hgt
  · left
    rw [element, ← Nat.succ_mul]
    exact Nat.mul_le_mul_right _ hlt
  · right
    rw [element, ← Nat.succ_mul]
    exact Nat.mul_le_mul_right _ hgt

theorem element_inj (L : Layout keySize) (hpos : 0 < keySize) :
    L.element i = L.element j ↔ i = j :=
  Nat.mul_left_inj (Nat.ne_of_gt (Nat.lt_of_lt_of_le hpos L.keySize_le))

end Layout

theorem loadInt_storeInt (mem : Memory) (i : ℕ) (v : BitVec 32) :
    loadInt (storeInt mem i v) i = v := by
  have hlt : v.toNat < 256 ^ 4 := v.isLt
  unfold loadInt storeInt
  rw [load_store (by rw [length_encode]), List.take_of_length_le (by rw [length_encode]),
    decode_encode, Nat.mod_eq_of_lt hlt, BitVec.ofNat_toNat, BitVec.setWidth_eq]

theorem storeInt_of_disjoint {a : ℕ} (h : a < i ∨ i + 4 ≤ a) : storeInt mem i v a = mem a := by
  refine store_of_disjoint ?_
  rw [length_encode]
  exact h

theorem loadInt_storeInt_of_ne (L : Layout keySize) (hkey : 4 ≤ keySize) (h : i ≠ j) :
    loadInt (storeInt mem (L.element i) v) (L.element j) = loadInt mem (L.element j) := by
  have hsize := hkey.trans L.keySize_le
  unfold loadInt storeInt
  rw [load_store_of_disjoint]
  rw [length_encode]
  rcases L.element_disjoint h with hle | hle
  · right
    omega
  · left
    omega

/-- The loop goes from one element to the next, and from the last to the first. -/
theorem findElement_eq_probe (L : Layout keySize) (hpos : 0 < keySize) (isKey : ℕ → Bool)
    {probes : ℕ} (hj : j < L.tableLen) :
    findElement isKey L.elementSize L.tableLen probes (L.element j) =
      (probe (fun j ↦ isKey (L.element j)) L.tableLen probes j).map L.element := by
  induction probes generalizing j with
  | zero => rfl
  | succ probes ih =>
      rw [findElement, probe]
      by_cases hkey : isKey (L.element j) = true
      · rw [if_pos hkey, if_pos hkey]
        rfl
      rw [if_neg hkey, if_neg hkey, ← ih (next_lt hj)]
      have hnext : (L.element j + L.elementSize) % 2 ^ 32 = L.element (j + 1) := by
        have hle := L.element_add_le hj
        rw [Nat.mod_eq_of_lt (Nat.lt_of_le_of_lt hle L.total_lt)]
        exact (Nat.succ_mul _ _).symm
      have hend : L.tableLen * L.elementSize = L.element L.tableLen := rfl
      dsimp only
      rw [hnext, hend]
      by_cases hlast : j + 1 = L.tableLen
      · rw [if_pos hlast, if_pos (congrArg L.element hlast), Layout.element, Nat.zero_mul]
      · rw [if_neg hlast, if_neg (mt (L.element_inj hpos).mp hlast)]

/-- The search starts at an element. -/
theorem start_eq (L : Layout keySize) (n : ℕ) :
    n % L.tableLen * L.elementSize % 2 ^ 32 = L.element (n % L.tableLen) := by
  have hlt : n % L.tableLen < L.tableLen := Nat.mod_lt n L.tableLen_pos
  exact Nat.mod_eq_of_lt (Nat.lt_of_le_of_lt
    ((Nat.le_add_right _ _).trans (L.element_add_le hlt)) L.total_lt)

end Elements

/-! ## The search for an `int` -/

/-- **A call finds an element with the key in one lap if there is one.** -/
theorem exists_findInt {keySize : ℕ} (L : Layout keySize) (hpos : 0 < keySize)
    (hash : BitVec 32 → ℕ) {mem : Memory} (hkey : BitVec 32) {ekey : BitVec 32}
    (h : ∃ j < L.tableLen, loadInt mem (L.element j) = ekey) :
    ∃ j < L.tableLen, loadInt mem (L.element j) = ekey ∧
      findInt hash mem L.elementSize hkey ekey L.tableLen L.tableLen =
        some (if hkey ≠ ekey then storeInt mem (L.element j) hkey else mem, L.element j) := by
  obtain ⟨j, hj, hload⟩ := h
  have hstart : hash hkey % L.tableLen < L.tableLen := Nat.mod_lt _ L.tableLen_pos
  obtain ⟨k, hk, hprobe, hfound⟩ := exists_probe
    (fun j ↦ loadInt mem (L.element j) = ekey) hstart hj (decide_eq_true hload)
  refine ⟨k, hk, of_decide_eq_true hfound, ?_⟩
  unfold findInt
  dsimp only
  rw [start_eq, findElement_eq_probe L hpos _ hstart, hprobe]
  rfl

/-- The table, and what its users know of it. -/
structure Table where
  mem : Memory
  /-- The element that a key was put in, as long as it is there. -/
  owner : BitVec 32 → Option ℕ
  /-- The element that the last call returned. -/
  returned : Option ℕ

/-- What is done with a table. -/
inductive Call where
  | insert (k : BitVec 32)
  | delete (k : BitVec 32)
  | lookup (k : BitVec 32)

/-- When a call is allowed. -/
def Allowed {keySize : ℕ} (L : Layout keySize) (s : Table) : Call → Prop
  | .insert k => 0 ≤ k.toInt ∧ s.owner k = none ∧
      ∃ j < L.tableLen, loadInt s.mem (L.element j) = empty
  | .delete k => s.owner k ≠ none
  | .lookup k => s.owner k ≠ none

/-- One call, which makes no more probes than there are elements.  It is the caller that marks an
element as empty. -/
def step {keySize : ℕ} (L : Layout keySize) (hash : BitVec 32 → ℕ) (s : Table) :
    Call → Option Table
  | .insert k =>
      (findInt hash s.mem L.elementSize k empty L.tableLen L.tableLen).map fun r ↦
        ⟨r.1, Function.update s.owner k (some r.2), some r.2⟩
  | .delete k =>
      (findInt hash s.mem L.elementSize k k L.tableLen L.tableLen).map fun r ↦
        ⟨storeInt r.1 r.2 empty, Function.update s.owner k none, some r.2⟩
  | .lookup k =>
      (findInt hash s.mem L.elementSize k k L.tableLen L.tableLen).map fun r ↦
        ⟨r.1, s.owner, some r.2⟩

/-- Every element is empty. -/
def IsEmpty {keySize : ℕ} (L : Layout keySize) (s : Table) : Prop :=
  (∀ k, s.owner k = none) ∧ ∀ j < L.tableLen, loadInt s.mem (L.element j) = empty

/-- The keys in the elements are those that own them. -/
structure Owned {keySize : ℕ} (L : Layout keySize) (s : Table) : Prop where
  loaded : ∀ {k i}, s.owner k = some i →
    k ≠ empty ∧ ∃ j < L.tableLen, i = L.element j ∧ loadInt s.mem (L.element j) = k
  owned : ∀ {j}, j < L.tableLen → loadInt s.mem (L.element j) ≠ empty →
    s.owner (loadInt s.mem (L.element j)) = some (L.element j)

namespace Owned

variable {keySize : ℕ} {L : Layout keySize} {hash : BitVec 32 → ℕ} {s : Table} {k : BitVec 32}
  {i j : ℕ}

theorem of_isEmpty (h : IsEmpty L s) : Owned L s where
  loaded hk := nomatch (h.1 _).symm.trans hk
  owned hj hne := absurd (h.2 _ hj) hne

/-- Different keys own different elements. -/
theorem owner_inj (hs : Owned L s) (hpos : 0 < keySize) {k' : BitVec 32}
    (hk : s.owner k = some i) (hk' : s.owner k' = some i) : k = k' := by
  obtain ⟨-, j, -, hi, hload⟩ := hs.loaded hk
  obtain ⟨-, j', -, hi', hload'⟩ := hs.loaded hk'
  have hj : j = j' := (L.element_inj hpos).mp (hi.symm.trans hi')
  rw [← hload, ← hload', hj]

/-- A key that is put into an empty element owns it. -/
theorem insert (hs : Owned L s) (hkey : 4 ≤ keySize) (hj : j < L.tableLen)
    (hempty : loadInt s.mem (L.element j) = empty) (hk : k ≠ empty) (hnew : s.owner k = none)
    (returned : Option ℕ) :
    Owned L ⟨storeInt s.mem (L.element j) k,
      Function.update s.owner k (some (L.element j)), returned⟩ where
  loaded {k' i} h := by
    dsimp only at h ⊢
    by_cases heq : k' = k
    · subst heq
      rw [Function.update_self] at h
      exact ⟨hk, j, hj, (Option.some.inj h).symm, loadInt_storeInt _ _ _⟩
    · rw [Function.update_of_ne heq] at h
      obtain ⟨hne, j', hj', hi, hload⟩ := hs.loaded h
      have hjj : j ≠ j' := by
        rintro rfl
        exact hne (hload.symm.trans hempty)
      exact ⟨hne, j', hj', hi, by rw [loadInt_storeInt_of_ne L hkey hjj, hload]⟩
  owned {j'} hj' hne := by
    dsimp only at hne ⊢
    by_cases hjj : j = j'
    · subst hjj
      rw [loadInt_storeInt, Function.update_self]
    · rw [loadInt_storeInt_of_ne L hkey hjj] at hne ⊢
      have howner := hs.owned hj' hne
      have hkk : loadInt s.mem (L.element j') ≠ k := by
        intro heq
        rw [heq, hnew] at howner
        cases howner
      rw [Function.update_of_ne hkk, howner]

/-- An element that is marked as empty has no owner. -/
theorem delete (hs : Owned L s) (hkey : 4 ≤ keySize)
    (hload : loadInt s.mem (L.element j) = k) (hk : s.owner k = some (L.element j))
    (returned : Option ℕ) :
    Owned L ⟨storeInt s.mem (L.element j) empty, Function.update s.owner k none, returned⟩ where
  loaded {k' i} h := by
    dsimp only at h ⊢
    have hkk : k' ≠ k := by
      rintro rfl
      rw [Function.update_self] at h
      cases h
    rw [Function.update_of_ne hkk] at h
    obtain ⟨hne, j', hj', hi, hload'⟩ := hs.loaded h
    have hjj : j ≠ j' := by
      rintro rfl
      exact hkk (hload'.symm.trans hload)
    exact ⟨hne, j', hj', hi, by rw [loadInt_storeInt_of_ne L hkey hjj, hload']⟩
  owned {j'} hj' hne := by
    dsimp only at hne ⊢
    have hjj : j ≠ j' := by
      rintro rfl
      exact hne (loadInt_storeInt _ _ _)
    rw [loadInt_storeInt_of_ne L hkey hjj] at hne ⊢
    have howner := hs.owned hj' hne
    have hkk : loadInt s.mem (L.element j') ≠ k := by
      intro heq
      rw [heq, hk] at howner
      exact hjj ((L.element_inj (Nat.lt_of_lt_of_le (by decide) hkey)).mp
        (Option.some.inj howner))
    rw [Function.update_of_ne hkk, howner]

/-! ### The three calls -/

/-- The search for a key that is there finds its element. -/
theorem findInt_eq (hs : Owned L s) (hpos : 0 < keySize) (hk : s.owner k = some i) :
    findInt hash s.mem L.elementSize k k L.tableLen L.tableLen = some (s.mem, i) := by
  obtain ⟨hne, j, hj, -, hload⟩ := hs.loaded hk
  obtain ⟨j', hj', hload', hfind⟩ := exists_findInt L hpos hash k ⟨j, hj, hload⟩
  have howner := hs.owned hj' (hload'.symm ▸ hne)
  rw [hload', hk] at howner
  rw [hfind, if_neg (not_not.mpr rfl), Option.some.inj howner]

/-- The step of an insertion. -/
theorem exists_insert (hs : Owned L s) (hkey : 4 ≤ keySize) (hash : BitVec 32 → ℕ) (hk : k ≠ empty)
    (hnew : s.owner k = none) (hroom : ∃ j < L.tableLen, loadInt s.mem (L.element j) = empty) :
    ∃ j < L.tableLen, loadInt s.mem (L.element j) = empty ∧
      findInt hash s.mem L.elementSize k empty L.tableLen L.tableLen =
        some (storeInt s.mem (L.element j) k, L.element j) ∧
      Owned L ⟨storeInt s.mem (L.element j) k,
        Function.update s.owner k (some (L.element j)), some (L.element j)⟩ := by
  have hpos : 0 < keySize := Nat.lt_of_lt_of_le (by decide) hkey
  obtain ⟨j, hj, hload, hfind⟩ := exists_findInt L hpos hash k hroom
  rw [if_pos hk] at hfind
  exact ⟨j, hj, hload, hfind, hs.insert hkey hj hload hk hnew _⟩

end Owned

theorem ne_empty_of_nonneg {k : BitVec 32} (h : 0 ≤ k.toInt) : k ≠ empty := by
  rintro rfl
  exact absurd h (by decide)

/-- What a call does to a table. -/
structure Serves {keySize : ℕ} (L : Layout keySize) (s : Table) (c : Call) (s' : Table)
    (j : ℕ) : Prop where
  lt : j < L.tableLen
  returned : s'.returned = some (L.element j)
  /-- The element is that of the key, and for a new key one that was empty. -/
  element : match c with
    | .insert k => loadInt s.mem (L.element j) = empty ∧ s'.owner k = some (L.element j)
    | .delete k => s.owner k = some (L.element j)
    | .lookup k => s.owner k = some (L.element j)
  /-- No other element changes. -/
  frame : ∀ a, a < L.element j ∨ L.element j + L.elementSize ≤ a → s'.mem a = s.mem a
  /-- Different keys have different elements. -/
  distinct : ∀ {k k' i}, s'.owner k = some i → s'.owner k' = some i → k = k'

section Runs

variable {keySize : ℕ} {L : Layout keySize} {hash : BitVec 32 → ℕ} {s : Table} {c : Call}

theorem storeInt_frame {j a : ℕ} {mem : Memory} {v : BitVec 32} (hkey : 4 ≤ keySize)
    (ha : a < L.element j ∨ L.element j + L.elementSize ≤ a) :
    storeInt mem (L.element j) v a = mem a := by
  have hsize := hkey.trans L.keySize_le
  refine storeInt_of_disjoint ?_
  omega

/-- **One call** ends within as many probes as there are elements. -/
theorem Owned.exists_step (hs : Owned L s) (hkey : 4 ≤ keySize) (hash : BitVec 32 → ℕ)
    (hc : Allowed L s c) : ∃ s' j, step L hash s c = some s' ∧ Owned L s' ∧ Serves L s c s' j := by
  have hpos : 0 < keySize := Nat.lt_of_lt_of_le (by decide) hkey
  cases c with
  | insert k =>
      obtain ⟨hnonneg, hnew, hroom⟩ := hc
      obtain ⟨j, hj, hempty, hfind, hs'⟩ :=
        hs.exists_insert hkey hash (ne_empty_of_nonneg hnonneg) hnew hroom
      refine ⟨_, j, ?_, hs', hj, rfl, ⟨hempty, Function.update_self _ _ _⟩, ?_, ?_⟩
      · rw [step, hfind]
        rfl
      · exact fun a ha ↦ storeInt_frame hkey ha
      · exact fun hk hk' ↦ hs'.owner_inj hpos hk hk'
  | delete k =>
      obtain ⟨i, hi⟩ := Option.ne_none_iff_exists'.mp hc
      obtain ⟨hne, j, hj, rfl, hload⟩ := hs.loaded hi
      have hs' := hs.delete hkey hload hi (some (L.element j))
      refine ⟨_, j, ?_, hs', hj, rfl, hi, ?_, ?_⟩
      · rw [step, hs.findInt_eq hpos hi]
        rfl
      · exact fun a ha ↦ storeInt_frame hkey ha
      · exact fun hk hk' ↦ hs'.owner_inj hpos hk hk'
  | lookup k =>
      obtain ⟨i, hi⟩ := Option.ne_none_iff_exists'.mp hc
      obtain ⟨-, j, hj, rfl, -⟩ := hs.loaded hi
      have hs' : Owned L ⟨s.mem, s.owner, some (L.element j)⟩ := ⟨hs.loaded, hs.owned⟩
      refine ⟨_, j, ?_, hs', hj, rfl, hi, fun a _ ↦ rfl, ?_⟩
      · rw [step, hs.findInt_eq hpos hi]
        rfl
      · exact fun hk hk' ↦ hs'.owner_inj hpos hk hk'

theorem owned_of_reach {s₀ : Table} (hkey : 4 ≤ keySize) (h₀ : IsEmpty L s₀)
    (hr : Reach (step L hash) (Allowed L) s₀ s) : Owned L s := by
  refine hr.invariant (Owned.of_isEmpty h₀) ?_
  intro t u c ht hc hstep
  obtain ⟨t', j, hstep', ht', -⟩ := ht.exists_step hkey hash hc
  rw [← Option.some.inj (hstep'.symm.trans hstep)]
  exact ht'

end Runs

/-- **The table of `int` keys is a map.**  After any insertions of new keys, deletions and lookups,
each call that is allowed ends within one lap, finds the element of its key and changes no other. -/
theorem findInt_sound (L : Layout 4) (hash : BitVec 32 → ℕ) {s₀ s : Table} {c : Call}
    (h₀ : IsEmpty L s₀) (hr : Reach (step L hash) (Allowed L) s₀ s) (hc : Allowed L s c) :
    ∃ s' j, step L hash s c = some s' ∧ Serves L s c s' j := by
  obtain ⟨s', j, hstep, -, hserves⟩ :=
    (owned_of_reach (Nat.le_refl 4) h₀ hr).exists_step (Nat.le_refl 4) hash hc
  exact ⟨s', j, hstep, hserves⟩

/-- A table of two elements that are no longer than a key. -/
def pair : Layout 4 := ⟨2, 4, by decide, by decide, by decide⟩

/-- The two elements are empty. -/
def emptyPair : Table := ⟨fun _ ↦ 255, fun _ ↦ none, none⟩

theorem isEmpty_emptyPair : IsEmpty pair emptyPair := ⟨fun _ ↦ rfl, by decide⟩

instance {keySize : ℕ} (L : Layout keySize) (s : Table) (c : Call) : Decidable (Allowed L s c) := by
  cases c <;> unfold Allowed <;> infer_instance

/-- The keys 5 and 7 have the same hash.  When 5 is deleted, 7 is found behind the empty element. -/
theorem findInt_sound_pair :
    ∃ s, Reach (step pair fun k ↦ k.toNat) (Allowed pair) emptyPair s ∧
      (s.owner 5 = none ∧ s.owner 7 = some 0 ∧ loadInt s.mem 4 = empty) ∧
      ∃ s' j, step pair (fun k ↦ k.toNat) s (.lookup 7) = some s' ∧
        Serves pair s (.lookup 7) s' j := by
  obtain ⟨s, hreach, hs⟩ :
      ∃ s, Reach (step pair fun k ↦ k.toNat) (Allowed pair) emptyPair s ∧
        (s.owner 5 = none ∧ s.owner 7 = some 0 ∧ loadInt s.mem 4 = empty) :=
    exists_reach_of_exec_decide [.insert 5, .insert 7, .delete 5] (by decide +kernel)
  have hallowed : Allowed pair s (.lookup 7) := fun hnone ↦ nomatch hnone.symm.trans hs.2.1
  exact ⟨s, hreach, hs, findInt_sound pair (fun k ↦ k.toNat) isEmpty_emptyPair hreach hallowed⟩

/-! ## Keys of 64 bits -/

/-- The key that an empty element is searched with. -/
def marker : BitVec 64 := -1

/-- The key is the value of an `int`, converted to `uint64_t`. -/
def IsInt (k : BitVec 64) : Prop := k.toNat < 2 ^ 31 ∨ 2 ^ 64 - 2 ^ 31 ≤ k.toNat

/-- One insertion after the other; the memory afterwards, and the elements. -/
def insertAll {keySize : ℕ} (L : Layout keySize) (hash : BitVec 64 → ℕ) (probes : ℕ) :
    Memory → List (BitVec 64) → Option (Memory × List ℕ)
  | mem, [] => some (mem, [])
  | mem, k :: keys => do
      let (mem, i) ← findUInt64 hash mem L.elementSize k marker L.tableLen probes
      let (mem, elements) ← insertAll L hash probes mem keys
      return (mem, i :: elements)

/-- The insertions end, the elements differ, and a key that was inserted is found in its own. -/
def MapsKeys {keySize : ℕ} (L : Layout keySize) (hash : BitVec 64 → ℕ) (mem : Memory)
    (keys : List (BitVec 64)) : Prop :=
  ∃ probes mem' elements, insertAll L hash probes mem keys = some (mem', elements) ∧
    elements.Nodup ∧
    List.Forall₂ (fun k i ↦ ∃ probes,
      findUInt64 hash mem' L.elementSize k k L.tableLen probes = some (mem', i)) keys elements

theorem isInt_iff {k : BitVec 64} : IsInt k ↔ (k.setWidth 32).signExtend 64 = k := by
  have hlt := k.isLt
  unfold IsInt
  rw [← BitVec.toInt_inj, BitVec.toInt_signExtend_of_le (by decide), BitVec.toInt_setWidth,
    BitVec.toInt_eq_toNat_bmod, Int.bmod_def, Int.bmod_def]
  push_cast
  split_ifs <;> omega

theorem setWidth_signExtend (v : BitVec 32) : (v.signExtend 64).setWidth 32 = v := by
  ext i hi
  have hi' : i < 64 := by omega
  rw [BitVec.getElem_setWidth, BitVec.getLsbD_signExtend]
  simp only [hi', hi, decide_true, Bool.true_and, if_true, BitVec.getLsbD_eq_getElem]

theorem isInt_marker : IsInt marker := .inr (by decide)

/-- A key is compared with the `int` in an element as an `int` if it is one. -/
theorem signExtend_eq_iff {k : BitVec 64} (hk : IsInt k) (v : BitVec 32) :
    v.signExtend 64 = k ↔ v = k.setWidth 32 := by
  constructor
  · rintro rfl
    exact (setWidth_signExtend v).symm
  · rintro rfl
    exact isInt_iff.mp hk

theorem setWidth_inj {k k' : BitVec 64} (hk : IsInt k) (hk' : IsInt k') :
    k.setWidth 32 = k'.setWidth 32 ↔ k = k' := by
  constructor
  · intro h
    rw [← isInt_iff.mp hk, h, isInt_iff.mp hk']
  · rintro rfl
    rfl

/-- **For keys that are an `int` the function does what that for `int` keys does.** -/
theorem findUInt64_eq_findInt (hash : BitVec 64 → ℕ) (mem : Memory) (elementSize : ℕ)
    {hkey ekey : BitVec 64} (hh : IsInt hkey) (he : IsInt ekey) (tableLen probes : ℕ) :
    findUInt64 hash mem elementSize hkey ekey tableLen probes =
      findInt (fun v ↦ hash (v.signExtend 64)) mem elementSize (hkey.setWidth 32)
        (ekey.setWidth 32) tableLen probes := by
  unfold findUInt64 findInt
  simp only [signExtend_eq_iff he, isInt_iff.mp hh, ne_eq, setWidth_inj hh he]

/-- A key that is no `int` is in no element, so that the search for it does not end. -/
theorem findUInt64_eq_none {keySize : ℕ} (L : Layout keySize) (hpos : 0 < keySize)
    (hash : BitVec 64 → ℕ) (mem : Memory) (hkey : BitVec 64) {ekey : BitVec 64}
    (he : ¬ IsInt ekey) (probes : ℕ) :
    findUInt64 hash mem L.elementSize hkey ekey L.tableLen probes = none := by
  have hstart : hash hkey % L.tableLen < L.tableLen := Nat.mod_lt _ L.tableLen_pos
  unfold findUInt64
  dsimp only
  rw [start_eq, findElement_eq_probe L hpos _ hstart, probe_eq_none hstart]
  · rfl
  · intro j _
    refine decide_eq_false fun heq ↦ he ?_
    rw [isInt_iff, ← heq, setWidth_signExtend]

section Insertions

variable {keySize : ℕ} {L : Layout keySize} {s : Table}

/-- There is an empty element as long as there are fewer keys than elements. -/
theorem Owned.exists_empty (hs : Owned L s) (hpos : 0 < keySize) {present : List (BitVec 32)}
    (hpresent : ∀ k, s.owner k ≠ none → k ∈ present) (hlt : present.length < L.tableLen) :
    ∃ j < L.tableLen, loadInt s.mem (L.element j) = empty := by
  by_contra hfull
  have howner : ∀ j < L.tableLen,
      s.owner (loadInt s.mem (L.element j)) = some (L.element j) :=
    fun j hj ↦ hs.owned hj fun heq ↦ hfull ⟨j, hj, heq⟩
  let loaded := (List.range L.tableLen).map fun j ↦ loadInt s.mem (L.element j)
  have hnodup : loaded.Nodup := by
    refine List.Nodup.map_on ?_ List.nodup_range
    intro i hi j hj heq
    have hi' := howner i (List.mem_range.mp hi)
    rw [heq, howner j (List.mem_range.mp hj)] at hi'
    exact ((L.element_inj hpos).mp (Option.some.inj hi')).symm
  have hsubset : loaded ⊆ present := by
    intro k hk
    obtain ⟨j, hj, rfl⟩ := List.mem_map.mp hk
    refine hpresent _ ?_
    rw [howner j (List.mem_range.mp hj)]
    exact Option.some_ne_none _
  have hle := (hnodup.subperm hsubset).length_le
  rw [List.length_map, List.length_range] at hle
  exact absurd hlt (Nat.not_lt_of_le hle)

/-- The step of an insertion, and the run of the insertions behind it. -/
theorem Owned.exists_insertAll (hs : Owned L s) (hkey : 4 ≤ keySize) (hash : BitVec 64 → ℕ)
    (present : List (BitVec 32)) (hpresent : ∀ k, s.owner k ≠ none → k ∈ present)
    {keys : List (BitVec 64)} (hlength : present.length + keys.length ≤ L.tableLen)
    (hnew : ∀ k ∈ keys, IsInt k ∧ k ≠ marker ∧ s.owner (k.setWidth 32) = none)
    (hnodup : keys.Nodup) :
    ∃ s' elements, insertAll L hash L.tableLen s.mem keys = some (s'.mem, elements) ∧ Owned L s' ∧
      List.Forall₂ (fun k i ↦ s'.owner (k.setWidth 32) = some i) keys elements ∧
      ∀ k i, s.owner k = some i → s'.owner k = some i := by
  have hpos : 0 < keySize := Nat.lt_of_lt_of_le (by decide) hkey
  induction keys generalizing s present with
  | nil => exact ⟨s, [], rfl, hs, .nil, fun _ _ h ↦ h⟩
  | cons key keys ih =>
      obtain ⟨⟨hint, hmarker, hnone⟩, hnew⟩ := List.forall_mem_cons.mp hnew
      obtain ⟨hnotMem, hnodup⟩ := List.nodup_cons.mp hnodup
      rw [List.length_cons] at hlength
      have hne : key.setWidth 32 ≠ empty :=
        fun heq ↦ hmarker ((setWidth_inj hint isInt_marker).mp heq)
      obtain ⟨j, hj, -, hfind, hs₁⟩ := hs.exists_insert hkey (fun v ↦ hash (v.signExtend 64)) hne
        hnone (hs.exists_empty hpos hpresent (by omega))
      have hpresent₁ : ∀ k,
          Function.update s.owner (key.setWidth 32) (some (L.element j)) k ≠ none →
            k ∈ key.setWidth 32 :: present := by
        intro k hk
        by_cases heq : k = key.setWidth 32
        · exact heq ▸ List.mem_cons_self
        · rw [Function.update_of_ne heq] at hk
          exact List.mem_cons_of_mem _ (hpresent k hk)
      have hnew₁ : ∀ k ∈ keys, IsInt k ∧ k ≠ marker ∧
          Function.update s.owner (key.setWidth 32) (some (L.element j)) (k.setWidth 32) =
            none := by
        intro k hk
        obtain ⟨hint', hmarker', hnone'⟩ := hnew k hk
        have hkk : k.setWidth 32 ≠ key.setWidth 32 := by
          intro heq
          exact hnotMem ((setWidth_inj hint' hint).mp heq ▸ hk)
        exact ⟨hint', hmarker', by rw [Function.update_of_ne hkk, hnone']⟩
      have hlength₁ : (key.setWidth 32 :: present).length + keys.length ≤ L.tableLen := by
        rw [List.length_cons]
        omega
      obtain ⟨s', elements, hall, hs', helements, hkept⟩ :=
        ih hs₁ (key.setWidth 32 :: present) hpresent₁ hlength₁ hnew₁ hnodup
      have hfind₁ : findUInt64 hash s.mem L.elementSize key marker L.tableLen L.tableLen =
          some (storeInt s.mem (L.element j) (key.setWidth 32), L.element j) := by
        rw [findUInt64_eq_findInt hash _ _ hint isInt_marker]
        exact hfind
      refine ⟨s', L.element j :: elements, ?_, hs', .cons ?_ helements, ?_⟩
      · rw [insertAll, hfind₁]
        dsimp only [Option.bind_eq_bind, Option.bind_some]
        rw [hall]
        rfl
      · exact hkept _ _ (Function.update_self _ _ _)
      · intro k i hk
        refine hkept k i ?_
        have hkk : k ≠ key.setWidth 32 := by
          rintro rfl
          exact nomatch hnone.symm.trans hk
        dsimp only
        rw [Function.update_of_ne hkk, hk]

end Insertions

/-- A key that is found again is the value of an `int`. -/
theorem isInt_of_mapsKeys {L : Layout 8} {hash : BitVec 64 → ℕ} {mem : Memory}
    {keys : List (BitVec 64)} (h : MapsKeys L hash mem keys) : ∀ k ∈ keys, IsInt k := by
  obtain ⟨-, mem', elements, -, -, hlookup⟩ := h
  intro k hk
  by_contra hint
  obtain ⟨n, hn, rfl⟩ := List.getElem_of_mem hk
  obtain ⟨probes, hfind⟩ := hlookup.get hn (hlookup.length_eq ▸ hn)
  rw [List.get_eq_getElem, findUInt64_eq_none L (by decide) hash mem' _ hint] at hfind
  cases hfind

/-- **When the table of 64-bit keys is a map.**  Every key that is inserted has to be the value of
an `int`. -/
theorem findUInt64_meets_iff (L : Layout 8) (hash : BitVec 64 → ℕ) (mem : Memory)
    (keys : List (BitVec 64)) (hempty : ∀ j < L.tableLen, loadInt mem (L.element j) = empty)
    (hnodup : keys.Nodup) (hmarker : marker ∉ keys) (hlength : keys.length ≤ L.tableLen) :
    MapsKeys L hash mem keys ↔ ∀ k ∈ keys, IsInt k := by
  constructor
  · exact isInt_of_mapsKeys
  · intro hint
    have hs : Owned L ⟨mem, fun _ ↦ none, none⟩ := Owned.of_isEmpty ⟨fun _ ↦ rfl, hempty⟩
    obtain ⟨s', elements, hall, hs', helements, -⟩ := hs.exists_insertAll (by decide) hash
      [] (fun k hk ↦ absurd rfl hk) (by simpa using hlength)
      (fun k hk ↦ ⟨hint k hk, fun heq ↦ hmarker (heq ▸ hk), rfl⟩) hnodup
    refine ⟨L.tableLen, s'.mem, elements, hall, ?_, ?_⟩
    · have hunique : Relator.BiUnique fun (k : BitVec 64) i ↦
          IsInt k ∧ s'.owner (k.setWidth 32) = some i := by
        refine ⟨?_, ?_⟩
        · intro k k' i hk hk'
          exact (setWidth_inj hk.1 hk'.1).mp (hs'.owner_inj (by decide) hk.2 hk'.2)
        · intro k i i' hk hk'
          exact Option.some.inj (hk.2.symm.trans hk'.2)
      refine (List.rel_nodup hunique ?_).mp hnodup
      exact List.forall₂_and_left _ _ |>.mpr ⟨hint, helements⟩
    · refine (List.forall₂_and_left _ _ |>.mpr ⟨hint, helements⟩).imp ?_
      rintro k i ⟨hk, howner⟩
      refine ⟨L.tableLen, ?_⟩
      rw [findUInt64_eq_findInt hash _ _ hk hk]
      exact hs'.findInt_eq (by decide) howner

/-- A table of two elements that are no longer than a key of 64 bits. -/
def pair64 : Layout 8 := ⟨2, 8, by decide, by decide, by decide⟩

/-- Two keys with the same hash. -/
theorem findUInt64_meets_pair64 : MapsKeys pair64 (fun k ↦ k.toNat) (fun _ ↦ 255) [5, 7] := by
  refine (findUInt64_meets_iff pair64 (fun k ↦ k.toNat) (fun _ ↦ 255) [5, 7] (by decide)
    (by decide) (by decide) (by decide)).mpr ?_
  intro k hk
  rcases List.mem_pair.mp hk with rfl | rfl
  · exact .inl (by decide)
  · exact .inl (by decide)

/-- The key `2^31` is stored as a negative `int`, and not found again. -/
theorem findUInt64_loses :
    ¬ ∀ (L : Layout 8) (hash : BitVec 64 → ℕ) (mem : Memory) (keys : List (BitVec 64)),
      (∀ j < L.tableLen, loadInt mem (L.element j) = empty) → keys.Nodup → marker ∉ keys →
      keys.length ≤ L.tableLen → MapsKeys L hash mem keys := by
  intro h
  have hmaps := h pair64 (fun k ↦ k.toNat) (fun _ ↦ 255) [2 ^ 31] (by decide) (by decide)
    (by decide) (by decide)
  exact absurd (isInt_of_mapsKeys hmaps (2 ^ 31) List.mem_cons_self) (by unfold IsInt; decide)

end Tidbits.Potato
