import Tidbits.Potato.Random

/-!
# Strings that depend on a string

`poRandSequence_string` of `randSequence.c` makes a string of hexadecimal digits
from another string.  The test client and the test service both call it: the
service answers a message with the string that belongs to it, and the client
knows what to expect.

The generator is `nrand48()` of the C library, with 48 bits of state.
-/

namespace Tidbits.Potato

open Tidbits.Libc

/-- `PO_RANDSEQUENCE_MIN` and `PO_RANDSEQUENCE_RANGE`, within the bounds that are checked. -/
structure RandSequence where
  min : ℕ
  range : ℕ
  min_ge : 8 ≤ min
  range_pos : 1 ≤ range

namespace RandSequence

/-- `nrand48()`: the number, and the state afterwards. -/
def nrand48 (xsubi : ℕ) : ℕ × ℕ :=
  let x := (0x5DEECE66D * xsubi + 0xB) % 2 ^ 48
  (x / 2 ^ 17, x)

/-- `int2char`. -/
def int2char (i : ℕ) : UInt8 := if i < 10 then .ofNat (i + 48) else .ofNat (i + 55)

/-- The digit that the inner loop takes from the memory of `val`. -/
def digit (val j : ℕ) : UInt8 := int2char (val / 256 ^ (j / 2) % 256 / 2 ^ (4 * (j % 2)) % 16)

/-- The outer loop, with at most so many turns: the digits for the `len` characters that are left. -/
def turns : ℕ → ℕ → ℕ → List UInt8
  | 0, _, _ => []
  | n + 1, len, xsubi =>
      if len = 0 then []
      else
        let r := nrand48 xsubi
        (List.range (Nat.min len 6)).map (digit r.1) ++ turns n (len - 6) r.2

/-- The state of the generator that the first eight bytes of a string give. -/
def seed (ibuf : List UInt8) : ℕ :=
  let seed := [poMurmurHash (ibuf.take 4) 0x324A5234,
    poMurmurHash ((ibuf.drop 4).take 4) 0xF3245234]
  decode ((seed.flatMap fun s ↦ encode 4 s.toNat).take 6)

/-- The string that belongs to a string. -/
def string (c : RandSequence) (ibuf : List UInt8) : List UInt8 :=
  let r := nrand48 (seed ibuf)
  let len := c.min + r.1 % c.range
  turns len len r.2

/-- `poRandSequence_string`, on the memory.  What is read at `ibuf` is read before anything is
written at `buf`, so that the stores of one character after the other are one store of the text and
its terminator here.  The number is the length of the text, which is what `*rlen` is set to unless
`rlen` is `NULL`. -/
def poRandSequence_string (c : RandSequence) (mem : Memory) (ibuf buf : ℕ) : Memory × ℕ :=
  let text := c.string (load mem ibuf 8)
  (store mem buf (text ++ [0]), text.length)

/-- `0` to `9` and `A` to `F`. -/
def IsHexDigit (b : UInt8) : Prop := 48 ≤ b ∧ b ≤ 57 ∨ 65 ≤ b ∧ b ≤ 70

instance decidableIsHexDigit (b : UInt8) : Decidable (IsHexDigit b) :=
  inferInstanceAs (Decidable (_ ∨ _))

theorem isHexDigit_digit (val j : ℕ) : IsHexDigit (digit val j) := by
  have hall : ∀ i < 16, IsHexDigit (int2char i) := by decide
  exact hall _ (Nat.mod_lt _ (by decide))

/-- Enough turns give all characters, and each of them is a digit. -/
theorem turns_spec {n len : ℕ} (h : len ≤ n) (xsubi : ℕ) :
    (turns n len xsubi).length = len ∧ ∀ b ∈ turns n len xsubi, IsHexDigit b := by
  induction n generalizing len xsubi with
  | zero =>
      obtain rfl := Nat.le_zero.mp h
      exact ⟨rfl, fun b hb ↦ absurd hb List.not_mem_nil⟩
  | succ n ih =>
      rw [turns]
      split
      · rename_i hzero
        exact ⟨hzero.symm, fun b hb ↦ absurd hb List.not_mem_nil⟩
      · have hle : len - 6 ≤ n := by omega
        obtain ⟨hlen, hdigits⟩ := ih hle (nrand48 xsubi).2
        refine ⟨?_, fun b hb ↦ ?_⟩
        · rw [List.length_append, List.length_map, List.length_range, hlen]
          simp only [Nat.min_def]
          split <;> omega
        · rcases List.mem_append.mp hb with hb | hb
          · obtain ⟨j, -, rfl⟩ := List.mem_map.mp hb
            exact isHexDigit_digit _ j
          · exact hdigits b hb

/-- The string is as long as it was drawn to be. -/
theorem string_spec (c : RandSequence) (ibuf : List UInt8) :
    c.min ≤ (c.string ibuf).length ∧ (c.string ibuf).length < c.min + c.range ∧
      ∀ b ∈ c.string ibuf, IsHexDigit b := by
  unfold string
  generalize nrand48 (seed ibuf) = r
  obtain ⟨hlen, hdigits⟩ := turns_spec (Nat.le_refl (c.min + r.1 % c.range)) r.2
  have hlt := Nat.mod_lt r.1 c.range_pos
  refine ⟨?_, ?_, hdigits⟩
  · rw [hlen]
    exact Nat.le_add_right _ _
  · rw [hlen]
    omega

/-- **The string depends on eight bytes, and may take their place.**  Wherever the two buffers are,
`poRandSequence_string` writes a string of at least `PO_RANDSEQUENCE_MIN` and less than
`PO_RANDSEQUENCE_MIN + PO_RANDSEQUENCE_RANGE` hexadecimal digits with its terminator, and nothing
else; and it writes the same string for the same eight bytes, into whatever memory. -/
theorem poRandSequence_string_spec (c : RandSequence) (mem : Memory) (ibuf buf : ℕ) :
    let r := c.poRandSequence_string mem ibuf buf
    c.min ≤ r.2 ∧ r.2 < c.min + c.range ∧ (∀ k < r.2, IsHexDigit (r.1 (buf + k))) ∧
      r.1 (buf + r.2) = 0 ∧ (∀ a, a < buf ∨ buf + r.2 < a → r.1 a = mem a) ∧
      ∀ mem' ibuf' buf', load mem' ibuf' 8 = load mem ibuf 8 →
        (c.poRandSequence_string mem' ibuf' buf').2 = r.2 ∧
          load (c.poRandSequence_string mem' ibuf' buf').1 buf' (r.2 + 1) =
            load r.1 buf (r.2 + 1) := by
  obtain ⟨hmin, hmax, hdigits⟩ := c.string_spec (load mem ibuf 8)
  have hwrites : ∀ mem' ibuf' buf', load mem' ibuf' 8 = load mem ibuf 8 →
      c.poRandSequence_string mem' ibuf' buf' =
        (store mem' buf' (c.string (load mem ibuf 8) ++ [0]),
          (c.string (load mem ibuf 8)).length) := by
    intro mem' ibuf' buf' hsame
    rw [← hsame, poRandSequence_string]
  rw [hwrites mem ibuf buf rfl]
  -- from here on only what is written matters
  generalize c.string (load mem ibuf 8) = text at hmin hmax hdigits hwrites ⊢
  have hload : ∀ mem' buf',
      load (store mem' buf' (text ++ [0])) buf' (text.length + 1) = text ++ [0] := by
    intro mem' buf'
    rw [load_store (by simp), List.take_of_length_le (by simp)]
  refine ⟨hmin, hmax, fun k hk ↦ ?_, ?_, fun a ha ↦ ?_, fun mem' ibuf' buf' hsame ↦ ?_⟩
  · have hin : k < (text ++ [0]).length := by
      rw [List.length_append]
      exact Nat.lt_add_right _ hk
    dsimp only
    rw [store_add hin, List.getElem_append_left hk]
    exact hdigits _ (List.getElem_mem hk)
  · dsimp only
    rw [store_add (by simp), List.getElem_concat_length rfl]
  · refine store_of_disjoint (ha.imp_right fun hlt ↦ ?_)
    rw [List.length_append, List.length_singleton]
    dsimp only at hlt
    omega
  · rw [hwrites mem' ibuf' buf' hsame]
    exact ⟨rfl, (hload mem' buf').trans (hload mem buf).symm⟩

end RandSequence

end Tidbits.Potato
