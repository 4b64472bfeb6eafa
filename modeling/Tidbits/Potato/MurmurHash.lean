import Tidbits.Potato.Random

/-!
# What the murmur hash keeps apart

`poMurmurHash` loses what a hash has to lose, but no more: it takes a key word by
word, and each word, the last bytes, and the seed go in without loss.  So one
seed keeps apart two keys of the same length that differ in one word only, and
one key keeps apart any two seeds.
-/

namespace Tidbits.Potato

open Tidbits.Libc

namespace MurmurHash

/-- The hash before `hash ^= len`. -/
def body (hash : BitVec 32) (key : List UInt8) : BitVec 32 :=
  let nblocks := key.length / 4
  let hash := (List.range nblocks).foldl (fun hash i ↦ block hash (word key i)) hash
  rest hash (key.drop (nblocks * 4)) (key.length % 4)

theorem poMurmurHash_eq (key : List UInt8) (hash : BitVec 32) :
    poMurmurHash key hash = final (body hash key) (BitVec.ofNat 32 key.length) := rfl

theorem word_drop (key : List UInt8) (i : ℕ) : word (key.drop 4) i = word key (i + 1) := by
  rw [word, word, List.drop_drop, Nat.add_mul, Nat.one_mul, Nat.add_comm]

/-- A key starts with a word. -/
theorem body_of_le {key : List UInt8} (h : 4 ≤ key.length) (hash : BitVec 32) :
    body hash key = body (block hash (word key 0)) (key.drop 4) := by
  obtain ⟨n, hn⟩ : ∃ n, key.length / 4 = n + 1 := ⟨key.length / 4 - 1, by omega⟩
  have hlen : (key.drop 4).length / 4 = n := by
    rw [List.length_drop]
    omega
  have hmod : (key.drop 4).length % 4 = key.length % 4 := by
    rw [List.length_drop]
    omega
  unfold body
  simp only [hn, hlen, hmod, List.drop_drop, List.range_succ_eq_map, List.foldl_cons,
    List.foldl_map, word_drop]
  congr 2
  omega

/-- A word in front is one turn of the loop. -/
theorem body_append {p : List UInt8} (hp : p.length = 4) (key : List UInt8) (hash : BitVec 32) :
    body hash (p ++ key) = body (block hash (word p 0)) key := by
  have hword : word (p ++ key) 0 = word p 0 := by
    unfold word
    rw [Nat.zero_mul, List.drop_zero, List.drop_zero, List.take_append_of_le_length hp.ge]
  rw [body_of_le (by rw [List.length_append]; omega), hword, List.drop_left' hp]

/-- A key ends with what is left of a word. -/
theorem body_of_lt {key : List UInt8} (h : key.length < 4) (hash : BitVec 32) :
    body hash key = rest hash key key.length := by
  unfold body
  rw [Nat.div_eq_of_lt h, Nat.mod_eq_of_lt h]
  rfl

/-! ## The hash so far -/

/-- A turn of the loop keeps what the hash was. -/
theorem block_left_injective (k : BitVec 32) : Function.Injective fun hash ↦ block hash k := by
  have h : (fun hash ↦ block hash k) =
      (· + 0xe6546b64) ∘ (· * 5) ∘ (BitVec.rotateLeft · r2) ∘ (· ^^^ scramble k) := by
    funext hash
    exact congrArg (· * 5 + 0xe6546b64) (rotate_eq (by decide) (hash ^^^ scramble k))
  rw [h]
  exact (add_right_injective _).comp ((mul_right_injective_of_odd (by decide)).comp
    ((rotateLeft_injective (by decide)).comp (xor_right_injective _)))

theorem rest_left_injective (tail : List UInt8) (n : ℕ) :
    Function.Injective fun hash ↦ rest hash tail n := by
  unfold rest
  split
  · exact xor_right_injective _
  · exact xor_right_injective _
  · exact xor_right_injective _
  · exact Function.injective_id

/-- What is behind a part of the key keeps the hash of that part. -/
theorem body_left_injective (key : List UInt8) : Function.Injective fun hash ↦ body hash key := by
  -- induction on the length, a word at a time
  induction hn : key.length using Nat.strongRecOn generalizing key with
  | ind n ih =>
    by_cases h : 4 ≤ key.length
    · have hrest := ih (key.drop 4).length (by rw [List.length_drop]; omega) (key.drop 4) rfl
      simp only [body_of_le h]
      exact hrest.comp (block_left_injective (word key 0))
    · simp only [body_of_lt (Nat.lt_of_not_le h)]
      exact rest_left_injective key key.length

/-! ## The parts of the key -/

/-- Four bytes are a word. -/
theorem word_injective {d d' : List UInt8} (hd : d.length = 4) (hd' : d'.length = 4)
    (h : word d 0 = word d' 0) : d = d' := by
  have hlt := decode_lt d
  have hlt' := decode_lt d'
  rw [hd] at hlt
  rw [hd'] at hlt'
  unfold word at h
  rw [Nat.zero_mul, List.drop_zero, List.drop_zero, List.take_of_length_le hd.le,
    List.take_of_length_le hd'.le] at h
  have hdecode := congrArg BitVec.toNat h
  rw [BitVec.toNat_ofNat, BitVec.toNat_ofNat, Nat.mod_eq_of_lt (by exact hlt),
    Nat.mod_eq_of_lt (by exact hlt')] at hdecode
  rw [← encode_decode d, ← encode_decode d', hd, hd', hdecode]

/-- What the `switch` makes of three bytes. -/
def mix (a b c : BitVec 8) : BitVec 32 :=
  0 ^^^ c.setWidth 32 <<< 16 ^^^ b.setWidth 32 <<< 8 ^^^ a.setWidth 32

/-- Each byte has bits of its own. -/
theorem mix_inj {a b c a' b' c' : BitVec 8} (h : mix a b c = mix a' b' c') :
    a = a' ∧ b = b' ∧ c = c' := by
  have hlow : ∀ a b c, (mix a b c).setWidth 8 = a := fun a b c ↦ by
    ext i hi
    simp [mix]
  have hmid : ∀ a b c, (mix a b c >>> 8).setWidth 8 = b := fun a b c ↦ by
    ext i hi
    simp only [mix, BitVec.getElem_setWidth, BitVec.getLsbD_ushiftRight,
      BitVec.getLsbD_xor, BitVec.getLsbD_shiftLeft, BitVec.getLsbD_setWidth]
    grind
  have hhigh : ∀ a b c, (mix a b c >>> 16).setWidth 8 = c := fun a b c ↦ by
    ext i hi
    simp only [mix, BitVec.getElem_setWidth, BitVec.getLsbD_ushiftRight,
      BitVec.getLsbD_xor, BitVec.getLsbD_shiftLeft, BitVec.getLsbD_setWidth]
    grind
  refine ⟨?_, ?_, ?_⟩
  · rw [← hlow a b c, h, hlow]
  · rw [← hmid a b c, h, hmid]
  · rw [← hhigh a b c, h, hhigh]

/-- The last bytes go in without loss. -/
theorem rest_injective {d d' : List UInt8} (hlen : d'.length = d.length) (hd : d.length < 4)
    {hash : BitVec 32} (h : rest hash d d.length = rest hash d' d.length) : d = d' := by
  have hmix : ∀ {x y : BitVec 32}, hash ^^^ scramble x = hash ^^^ scramble y → x = y := fun h ↦
    scramble_injective (xor_left_injective hash h)
  match d, d', hlen with
  | [], [], _ => rfl
  | [a], [a'], _ =>
      have h : mix a.toBitVec 0 0 = mix a'.toBitVec 0 0 := by simpa [mix, byte] using hmix h
      rw [UInt8.toBitVec_inj.mp (mix_inj h).1]
  | [a, b], [a', b'], _ =>
      have h : mix a.toBitVec b.toBitVec 0 = mix a'.toBitVec b'.toBitVec 0 := by
        simpa [mix, byte] using hmix h
      obtain ⟨ha, hb, -⟩ := mix_inj h
      rw [UInt8.toBitVec_inj.mp ha, UInt8.toBitVec_inj.mp hb]
  | [a, b, c], [a', b', c'], _ =>
      have h : mix a.toBitVec b.toBitVec c.toBitVec = mix a'.toBitVec b'.toBitVec c'.toBitVec :=
        hmix h
      obtain ⟨ha, hb, hc⟩ := mix_inj h
      rw [UInt8.toBitVec_inj.mp ha, UInt8.toBitVec_inj.mp hb, UInt8.toBitVec_inj.mp hc]
  | _ :: _ :: _ :: _ :: l, _, _ => exact absurd hd (by simp)

/-- A part of the key that starts at a word and ends with it, or with the key, goes in without
loss. -/
theorem body_injective {p d d' s : List UInt8} {hash : BitVec 32} {n : ℕ}
    (hp : p.length = 4 * n) (hlen : d'.length = d.length)
    (hd : d.length = 4 ∨ d.length < 4 ∧ s = [])
    (h : body hash (p ++ d ++ s) = body hash (p ++ d' ++ s)) : d = d' := by
  induction n generalizing p hash with
  | zero =>
      obtain rfl := List.length_eq_zero_iff.mp hp
      simp only [List.nil_append] at h
      rcases hd with hfour | ⟨hlt, rfl⟩
      · have hfour' := hlen.trans hfour
        rw [body_append hfour, body_append hfour'] at h
        exact word_injective hfour hfour' (block_injective hash (body_left_injective s h))
      · rw [List.append_nil, List.append_nil, body_of_lt hlt, body_of_lt (by omega), hlen] at h
        exact rest_injective hlen hlt h
  | succ n ih =>
      have hfirst : (p.take 4).length = 4 := by
        rw [List.length_take]
        omega
      rw [← List.take_append_drop 4 p] at h
      simp only [List.append_assoc] at h
      rw [body_append hfirst, body_append hfirst] at h
      have hrest : (p.drop 4).length = 4 * n := by
        rw [List.length_drop]
        omega
      exact ih hrest (by simpa only [List.append_assoc] using h)

end MurmurHash

open MurmurHash

/-- **What the hash keeps apart.**  For one key no two seeds give the same hash; and for one seed no
two keys of the same length do that differ in one word only, or in the bytes behind the last
word only. -/
theorem poMurmurHash_injective :
    (∀ key, Function.Injective (poMurmurHash key)) ∧
      ∀ (seed : BitVec 32) (p d d' s : List UInt8), p.length % 4 = 0 → d'.length = d.length →
        d.length = 4 ∨ d.length < 4 ∧ s = [] → d ≠ d' →
          poMurmurHash (p ++ d ++ s) seed ≠ poMurmurHash (p ++ d' ++ s) seed := by
  refine ⟨fun key ↦ (final_injective _).comp (body_left_injective key), ?_⟩
  intro seed p d d' s hp hlen hd hne h
  have hlength : (p ++ d' ++ s).length = (p ++ d ++ s).length := by
    simp only [List.length_append, hlen]
  rw [poMurmurHash_eq, poMurmurHash_eq, hlength] at h
  exact hne (body_injective (n := p.length / 4) (by omega) hlen hd (final_injective _ h))

theorem poMurmurHash_injective_lastByte :
    poMurmurHash [1, 2, 3, 4, 5] 0 ≠ poMurmurHash [1, 2, 3, 4, 6] 0 :=
  poMurmurHash_injective.2 0 [1, 2, 3, 4] [5] [6] [] rfl rfl (.inr ⟨by decide, rfl⟩) (by decide)

end Tidbits.Potato
