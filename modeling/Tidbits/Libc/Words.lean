import Mathlib.Algebra.Group.Nat.Defs
import Mathlib.Data.BitVec
import Mathlib.Data.Fintype.EquivFin
import Mathlib.Data.List.Nodup
import Mathlib.Data.List.Range
import Mathlib.Data.Nat.ModEq
import Mathlib.Data.Nat.Prime.Basic
import Mathlib.Logic.Function.Basic

/-!
# Operations on words that lose nothing

Hash functions mix a word by operations that can be undone: a product with an
odd constant, a rotation, a shift that is added bit by bit.  Each of them is
injective, and so is what is composed of them; applied to all words it permutes
them (`map_words_perm`).
-/

namespace Tidbits.Libc

variable {w : ℕ}

/-- A number that is odd can be cancelled. -/
theorem mul_right_injective_of_odd {c : BitVec w} (h : c.toNat % 2 = 1) :
    Function.Injective fun x : BitVec w ↦ x * c := by
  intro x y hxy
  have hcop : Nat.Coprime (2 ^ w) c.toNat :=
    Nat.Coprime.pow_left w (Nat.coprime_two_left.mpr (Nat.odd_iff.mpr h))
  have hmod : x.toNat * c.toNat ≡ y.toNat * c.toNat [MOD 2 ^ w] := by
    have hnat : (x * c).toNat = (y * c).toNat := congrArg BitVec.toNat hxy
    rwa [BitVec.toNat_mul, BitVec.toNat_mul] at hnat
  have hcancel := Nat.ModEq.cancel_right_of_coprime hcop hmod
  exact BitVec.eq_of_toNat_eq (hcancel.eq_of_lt_of_lt x.isLt y.isLt)

/-- Where a rotation moves a bit to. -/
theorem getLsbD_rotateLeft_eq {r j : ℕ} (h : r < w) (hj : j < w) (x : BitVec w) :
    (x.rotateLeft r).getLsbD (if j + r < w then j + r else j + r - w) = x.getLsbD j := by
  rw [BitVec.getLsbD_rotateLeft_of_le h]
  by_cases hwrap : j + r < w
  · rw [if_pos hwrap, decide_eq_false (by omega), cond_false, decide_eq_true hwrap, Bool.true_and,
      Nat.add_sub_cancel]
  · rw [if_neg hwrap, decide_eq_true (by omega), cond_true,
      show w - r + (j + r - w) = j by omega]

theorem rotateLeft_injective {r : ℕ} (h : r < w) :
    Function.Injective fun x : BitVec w ↦ x.rotateLeft r := by
  intro x y hxy
  refine BitVec.eq_of_getLsbD_eq fun j hj ↦ ?_
  have hbit := congrArg (BitVec.getLsbD · (if j + r < w then j + r else j + r - w)) hxy
  simpa only [getLsbD_rotateLeft_eq h hj] using hbit

/-- The bits that a shift is added to are known from the top. -/
theorem xor_ushiftRight_injective {n : ℕ} (h : 0 < n) :
    Function.Injective fun x : BitVec w ↦ x ^^^ (x >>> n) := by
  intro x y hxy
  have hbit : ∀ i, (x ^^^ (x >>> n)).getLsbD i = (y ^^^ (y >>> n)).getLsbD i := fun i ↦
    congrArg (BitVec.getLsbD · i) hxy
  -- downwards: the bit above by `n` is the same already
  have hdown : ∀ k i, w ≤ i + k → x.getLsbD i = y.getLsbD i := by
    intro k
    induction k with
    | zero =>
        intro i hi
        rw [BitVec.getLsbD_of_ge x i hi, BitVec.getLsbD_of_ge y i hi]
    | succ k ih =>
        intro i hi
        have habove := ih (n + i) (by omega)
        have hhere := hbit i
        rw [BitVec.getLsbD_xor, BitVec.getLsbD_xor, BitVec.getLsbD_ushiftRight,
          BitVec.getLsbD_ushiftRight, habove] at hhere
        exact Bool.xor_left_inj.mp hhere
  exact BitVec.eq_of_getLsbD_eq fun i _ ↦ hdown w i (Nat.le_add_left w i)

theorem xor_right_injective (c : BitVec w) : Function.Injective fun x : BitVec w ↦ x ^^^ c :=
  fun _ _ h ↦ (BitVec.xor_left_inj c).mp h

theorem xor_left_injective (c : BitVec w) : Function.Injective fun x : BitVec w ↦ c ^^^ x :=
  fun _ _ h ↦ (BitVec.xor_right_inj c).mp h

theorem add_right_injective (c : BitVec w) : Function.Injective fun x : BitVec w ↦ x + c :=
  fun _ _ h ↦ (BitVec.add_left_inj c).mp h

theorem add_left_injective (c : BitVec w) : Function.Injective fun x : BitVec w ↦ c + x :=
  fun _ _ h ↦ (BitVec.add_right_inj c).mp h

/-! ## All words -/

instance finite_bitVec : Finite (BitVec w) := Finite.of_equiv _ BitVec.equivFin.symm.toEquiv

/-- Every word, once. -/
def words (w : ℕ) : List (BitVec w) := (List.range (2 ^ w)).map (BitVec.ofNat w)

theorem mem_words (x : BitVec w) : x ∈ words w :=
  List.mem_map.mpr ⟨x.toNat, List.mem_range.mpr x.isLt, (BitVec.ofNat_toNat w x).trans
    (BitVec.setWidth_eq x)⟩

theorem nodup_words (w : ℕ) : (words w).Nodup := by
  refine List.Nodup.map_on (fun i hi j hj hij ↦ ?_) List.nodup_range
  have hnat := congrArg BitVec.toNat hij
  rwa [BitVec.toNat_ofNat, BitVec.toNat_ofNat, Nat.mod_eq_of_lt (List.mem_range.mp hi),
    Nat.mod_eq_of_lt (List.mem_range.mp hj)] at hnat

/-- A function that loses nothing permutes the words. -/
theorem map_words_perm {f : BitVec w → BitVec w} (hf : Function.Injective f) :
    ((words w).map f).Perm (words w) := by
  refine (List.perm_ext_iff_of_nodup ((nodup_words w).map hf) (nodup_words w)).mpr fun x ↦ ?_
  obtain ⟨y, hy⟩ := Finite.injective_iff_surjective.mp hf x
  exact iff_of_true (List.mem_map.mpr ⟨y, mem_words y, hy⟩) (mem_words x)

end Tidbits.Libc
