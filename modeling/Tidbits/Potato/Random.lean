import Mathlib.Data.List.Range
import Tidbits.Libc.Memory
import Tidbits.Libc.Words

/-!
# Random numbers from the murmur hash

A generator hashes a counter with its seed.  The hash of a word loses nothing, so
a generator repeats a number only when its counter does
(`PORandom.full_period`).

`poMurmurHash` is the function for keys of every length: its loop over the words
of the key, and its `switch` over what is left of them.
-/

namespace Tidbits.Potato

open Tidbits.Libc

namespace MurmurHash

/-- `C1`. -/
def c1 : BitVec 32 := 0xcc9e2d51

/-- `C2`. -/
def c2 : BitVec 32 := 0x1b873593

/-- `R1`. -/
def r1 : ℕ := 15

/-- `R2`. -/
def r2 : ℕ := 13

/-- `(x << r) | (x >> (32 - r))`. -/
def rotate (x : BitVec 32) (r : ℕ) : BitVec 32 := x <<< r ||| x >>> (32 - r)

/-- What is made of a word of the key before the hash gets it. -/
def scramble (k : BitVec 32) : BitVec 32 :=
  let k := k * c1
  let k := rotate k r1
  k * c2

/-- One turn of the loop, with the word `k`. -/
def block (hash k : BitVec 32) : BitVec 32 :=
  let hash := hash ^^^ scramble k
  rotate hash r2 * 5 + 0xe6546b64

/-- `((const uint32_t *) key)[i]`. -/
def word (key : List UInt8) (i : ℕ) : BitVec 32 :=
  BitVec.ofNat 32 (decode ((key.drop (i * 4)).take 4))

/-- `tail[i]`. -/
def byte (tail : List UInt8) (i : ℕ) : BitVec 32 := (tail[i]?.getD 0).toBitVec.setWidth 32

/-- The `switch`, whose cases fall through. -/
def rest (hash : BitVec 32) (tail : List UInt8) : ℕ → BitVec 32
  | 3 => hash ^^^ scramble (0 ^^^ byte tail 2 <<< 16 ^^^ byte tail 1 <<< 8 ^^^ byte tail 0)
  | 2 => hash ^^^ scramble (0 ^^^ byte tail 1 <<< 8 ^^^ byte tail 0)
  | 1 => hash ^^^ scramble (0 ^^^ byte tail 0)
  | _ => hash

/-- The end of `poMurmurHash`, from `hash ^= len` on. -/
def final (hash len : BitVec 32) : BitVec 32 :=
  let hash := hash ^^^ len
  let hash := hash ^^^ hash >>> 16
  let hash := hash * 0x85ebca6b
  let hash := hash ^^^ hash >>> 13
  let hash := hash * 0xc2b2ae35
  hash ^^^ hash >>> 16

end MurmurHash

open MurmurHash

/-- `poMurmurHash` of the bytes of a key. -/
def poMurmurHash (key : List UInt8) (hash : BitVec 32) : BitVec 32 :=
  let nblocks := key.length / 4
  let hash := (List.range nblocks).foldl (fun hash i ↦ block hash (word key i)) hash
  let hash := rest hash (key.drop (nblocks * 4)) (key.length % 4)
  final hash (BitVec.ofNat 32 key.length)

/-- `struct PORandom`. -/
structure PORandom where
  seed : BitVec 32
  counter : BitVec 32
deriving DecidableEq, Repr

namespace PORandom

/-- `poRandom_init`. -/
def poRandom_init (seed : BitVec 32) : PORandom := ⟨seed, 0⟩

/-- `poRandom_get`: the number, and the generator afterwards. -/
def poRandom_get (r : PORandom) : BitVec 32 × PORandom :=
  let r := { r with counter := r.counter + 1 }
  (poMurmurHash (encode 4 r.counter.toNat) r.seed, r)

/-- The next `n` numbers. -/
def outputs : ℕ → PORandom → List (BitVec 32)
  | 0, _ => []
  | n + 1, r => r.poRandom_get.1 :: outputs n r.poRandom_get.2

end PORandom

/-! ## The hash of a word -/

namespace MurmurHash

theorem rotate_eq {r : ℕ} (h : r < 32) (x : BitVec 32) : rotate x r = x.rotateLeft r := by
  rw [BitVec.rotateLeft_def, Nat.mod_eq_of_lt h, rotate]

theorem scramble_injective : Function.Injective scramble := by
  have h : scramble = (· * c2) ∘ (BitVec.rotateLeft · r1) ∘ (· * c1) := by
    funext k
    exact congrArg (· * c2) (rotate_eq (by decide) (k * c1))
  rw [h]
  exact (mul_right_injective_of_odd (by decide)).comp
    ((rotateLeft_injective (by decide)).comp (mul_right_injective_of_odd (by decide)))

/-- A hash takes a word without loss. -/
theorem block_injective (hash : BitVec 32) : Function.Injective (block hash) := by
  have h : block hash = (· + 0xe6546b64) ∘ (· * 5) ∘ (BitVec.rotateLeft · r2) ∘ (hash ^^^ ·) ∘
      scramble := by
    funext k
    exact congrArg (· * 5 + 0xe6546b64) (rotate_eq (by decide) (hash ^^^ scramble k))
  rw [h]
  exact (add_right_injective _).comp ((mul_right_injective_of_odd (by decide)).comp
    ((rotateLeft_injective (by decide)).comp ((xor_left_injective hash).comp scramble_injective)))

theorem final_injective (len : BitVec 32) : Function.Injective fun hash ↦ final hash len := by
  have hshift : ∀ n, 0 < n → Function.Injective fun x : BitVec 32 ↦ x ^^^ x >>> n :=
    fun _ ↦ xor_ushiftRight_injective
  have hmul : ∀ c : BitVec 32, c.toNat % 2 = 1 → Function.Injective (· * c) :=
    fun _ ↦ mul_right_injective_of_odd
  exact (hshift 16 (by decide)).comp ((hmul 0xc2b2ae35 (by decide)).comp
    ((hshift 13 (by decide)).comp ((hmul 0x85ebca6b (by decide)).comp
      ((hshift 16 (by decide)).comp (xor_right_injective len)))))

end MurmurHash

/-- A key of one word is one turn of the loop. -/
theorem poMurmurHash_encode (k seed : BitVec 32) :
    poMurmurHash (encode 4 k.toNat) seed = final (block seed k) 4 := by
  have hword : word (encode 4 k.toNat) 0 = k := by
    have hlt : k.toNat < 256 ^ 4 := k.isLt
    rw [word, Nat.zero_mul, List.drop_zero, List.take_of_length_le (by rw [length_encode]),
      decode_encode, Nat.mod_eq_of_lt hlt, BitVec.ofNat_toNat, BitVec.setWidth_eq]
  rw [poMurmurHash, length_encode]
  show final (rest (block seed (word (encode 4 k.toNat) 0)) _ 0) 4 = _
  rw [hword]
  rfl

/-- The hash of a word determines the word. -/
theorem poMurmurHash_encode_injective (seed : BitVec 32) :
    Function.Injective fun k : BitVec 32 ↦ poMurmurHash (encode 4 k.toNat) seed := by
  simp only [poMurmurHash_encode]
  exact (final_injective 4).comp (block_injective seed)

/-! ## The generator -/

namespace PORandom

variable {r : PORandom}

theorem poRandom_get_injective (seed : BitVec 32) :
    Function.Injective fun counter ↦ (poRandom_get ⟨seed, counter⟩).1 :=
  (poMurmurHash_encode_injective seed).comp (add_right_injective 1)

theorem poRandom_get_snd (r : PORandom) : r.poRandom_get.2 = ⟨r.seed, r.counter + 1⟩ := rfl

/-- The numbers that follow are those of the counters that follow. -/
theorem outputs_eq (n : ℕ) (r : PORandom) :
    outputs n r = (List.range n).map fun i ↦
      (poRandom_get ⟨r.seed, r.counter + BitVec.ofNat 32 i⟩).1 := by
  induction n generalizing r with
  | zero => rfl
  | succ n ih =>
      have hnext : ∀ i,
          r.counter + 1 + BitVec.ofNat 32 i = r.counter + BitVec.ofNat 32 (i + 1) := by
        intro i
        rw [Nat.add_comm, BitVec.ofNat_add, BitVec.add_assoc]
        rfl
      rw [outputs, ih, poRandom_get_snd, List.range_succ_eq_map, List.map_cons, List.map_map,
        BitVec.add_zero]
      refine congrArg (List.cons _) (List.map_congr_left fun i _ ↦ ?_)
      rw [hnext, Function.comp_apply]

/-- **A generator has full period.**  Different counters give different numbers for every seed,
and `2 ^ 32` numbers in a row are all the numbers there are, each of them once. -/
theorem full_period :
    (∀ seed, Function.Injective fun counter ↦ (poRandom_get ⟨seed, counter⟩).1) ∧
      ∀ r, (outputs (2 ^ 32) r).Perm (words 32) := by
  refine ⟨poRandom_get_injective, fun r ↦ ?_⟩
  have hmap : outputs (2 ^ 32) r =
      (words 32).map fun i ↦ (poRandom_get ⟨r.seed, r.counter + i⟩).1 := by
    rw [outputs_eq, words, List.map_map]
    rfl
  rw [hmap]
  exact map_words_perm ((poRandom_get_injective r.seed).comp (add_left_injective r.counter))

example : outputs 1 (poRandom_init 0) = [0xfbf1402a] := by decide

end PORandom

end Tidbits.Potato
