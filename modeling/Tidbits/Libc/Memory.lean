import Mathlib.Algebra.Group.Nat.Defs
import Mathlib.Data.List.Basic

/-!
# Bytes in memory

A memory gives a byte for every address, and `store` is `memcpy()` into it.  Words
are stored with the least significant byte first.

`load_store` and `load_store_of_disjoint` say what is read after a write, and
`decode_encode` that a word is what was written.
-/

namespace Tidbits.Libc

/-- What is at each address. -/
abbrev Memory := ℕ → UInt8

/-- The memory after `memcpy()` of these bytes to the address `a`. -/
def store (mem : Memory) (a : ℕ) (bytes : List UInt8) : Memory :=
  fun k ↦ if a ≤ k then bytes[k - a]?.getD (mem k) else mem k

/-- The `n` bytes from the address `a` on. -/
def load (mem : Memory) (a n : ℕ) : List UInt8 := (List.range n).map fun k ↦ mem (a + k)

variable {mem mem' : Memory} {a b n m : ℕ} {bytes : List UInt8}

/-! ## One address -/

theorem store_of_lt {k : ℕ} (h : k < a) : store mem a bytes k = mem k :=
  if_neg (Nat.not_le_of_lt h)

theorem store_of_le {k : ℕ} (h : a + bytes.length ≤ k) : store mem a bytes k = mem k := by
  unfold store
  split_ifs
  · rw [List.getElem?_eq_none (by omega)]
    rfl
  · rfl

theorem store_add {k : ℕ} (h : k < bytes.length) : store mem a bytes (a + k) = bytes[k] := by
  rw [store, if_pos (Nat.le_add_right _ _), Nat.add_sub_cancel_left, List.getElem?_eq_getElem h]
  rfl

/-- An address outside of what is written. -/
theorem store_of_disjoint {k : ℕ} (h : k < a ∨ a + bytes.length ≤ k) :
    store mem a bytes k = mem k :=
  h.elim store_of_lt store_of_le

/-! ## Many addresses -/

@[simp] theorem length_load (mem : Memory) (a n : ℕ) : (load mem a n).length = n := by
  simp [load]

theorem getElem_load {k : ℕ} (h : k < (load mem a n).length) :
    (load mem a n)[k] = mem (a + k) := by
  simp [load]

theorem load_congr (h : ∀ k < n, mem (a + k) = mem' (a + k)) : load mem a n = load mem' a n :=
  List.map_congr_left fun k hk ↦ h k (List.mem_range.mp hk)

theorem load_add (mem : Memory) (a m n : ℕ) :
    load mem a (m + n) = load mem a m ++ load mem (a + m) n := by
  rw [load, List.range_add, List.map_append, List.map_map]
  congr 1
  refine List.map_congr_left fun k _ ↦ ?_
  rw [Nat.add_assoc]
  rfl

/-- What was written is read. -/
theorem load_store (h : n ≤ bytes.length) : load (store mem a bytes) a n = bytes.take n := by
  refine List.ext_getElem (by rw [length_load, List.length_take_of_le h]) ?_
  intro k hk hk'
  rw [length_load] at hk
  rw [getElem_load, store_add (Nat.lt_of_lt_of_le hk h), List.getElem_take]

/-- What was not written does not change. -/
theorem load_store_of_disjoint (h : b + n ≤ a ∨ a + bytes.length ≤ b) :
    load (store mem a bytes) b n = load mem b n := by
  refine load_congr fun k hk ↦ store_of_disjoint ?_
  omega

/-! ## Words -/

/-- The lowest `n` bytes of a number. -/
def encode : ℕ → ℕ → List UInt8
  | 0, _ => []
  | n + 1, v => UInt8.ofNat v :: encode n (v / 256)

/-- The number of these bytes. -/
def decode : List UInt8 → ℕ
  | [] => 0
  | b :: bytes => b.toNat + 256 * decode bytes

@[simp] theorem length_encode (n v : ℕ) : (encode n v).length = n := by
  induction n generalizing v with
  | zero => rfl
  | succ n ih => rw [encode, List.length_cons, ih]

/-- A number is cut to the bytes that it is stored in. -/
theorem decode_encode (n v : ℕ) : decode (encode n v) = v % 256 ^ n := by
  induction n generalizing v with
  | zero => rw [Nat.pow_zero, Nat.mod_one, encode, decode]
  | succ n ih =>
      have hpow : 256 ^ (n + 1) = 256 * 256 ^ n := Nat.pow_succ'
      rw [encode, decode, ih, UInt8.toNat_ofNat', hpow]
      exact Nat.mod_mul.symm

theorem decode_lt (bytes : List UInt8) : decode bytes < 256 ^ bytes.length := by
  induction bytes with
  | nil => exact Nat.one_pos
  | cons b bytes ih =>
      have hb := b.toNat_lt
      rw [decode, List.length_cons, Nat.pow_succ']
      omega

/-- Bytes are those of the number that they store. -/
theorem encode_decode (bytes : List UInt8) : encode bytes.length (decode bytes) = bytes := by
  induction bytes with
  | nil => rfl
  | cons b bytes ih =>
      have hb := b.toNat_lt
      have hhead : UInt8.ofNat (b.toNat + 256 * decode bytes) = b := by
        refine UInt8.toNat_inj.mp ?_
        rw [UInt8.toNat_ofNat']
        omega
      have htail : (b.toNat + 256 * decode bytes) / 256 = decode bytes := by omega
      rw [decode, List.length_cons, encode, hhead, htail, ih]

end Tidbits.Libc
