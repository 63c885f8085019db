import Sagittarius.Bignum.Basic
import Sagittarius.Mp.Square

/-!
# Products of bignums

* `bignumMul_spec` : the product, by `mp_mul` into cleared words;
* `bignumMulSi_spec` : the product with a machine word;
* `sgBignumSquare_spec` : the square, by `mp_square`.
-/

namespace Sagittarius

open Bignum

/-- The product with a word. -/
def bignumMulWord (br x : Bignum) (y : Word) : Bignum :=
  br.setWords (mpMulUl br.words x.words x.size y).val

/-- The product, stored in `br`. -/
def bignumMulInt (g : Junk) (br x y : Bignum) : Bignum :=
  let br := { br with sign := x.sign * y.sign }
  br.setWords (mpMul g br.words br.size x.words x.size y.words y.size).val

/-- The product, in a new bignum. -/
def bignumMul (g : Junk) (x y : Bignum) : Bignum :=
  if x.size = 0 then x
  else if y.size = 0 then y
  else bignumMulInt (g.sub 1) (makeBignum g (x.size + y.size)) x y

/-- `bignum_mul_si`; `y` is a `long` and not `LONG_MIN`. -/
def bignumMulSi (g : Junk) (x : Bignum) (y : ℤ) : Bignum :=
  if y = 1 then x
  else if y = 0 then
    let br := makeBignum g 1
    { br with sign := 0, elements := Function.update br.elements 0 0 }
  else if y = -1 then
    let br := sgBignumCopy g x
    { br with sign := -x.sign }
  else
    let br := makeBignum g (x.size + 1)
    let yabs := BitVec.ofInt 64 (if y < 0 then -y else y)
    let br := bignumMulWord { br with sign := x.sign } x yabs
    if y < 0 then { br with sign := -br.sign } else br

/-- The product, normalized. -/
def sgBignumMul (g : Junk) (a b : Bignum) : Integer := sgNormalizeBignum (bignumMul g a b)

/-- The product with a `long`. -/
def sgBignumMulSI (g : Junk) (a : Bignum) (b : ℤ) : Integer := sgNormalizeBignum (bignumMulSi g a b)

/-- The square, normalized. -/
def sgBignumSquare (g : Junk) (x : Bignum) : Integer :=
  let br := makeBignum g (x.size <<< 1)
  let br := br.setWords (mpSquare (g.sub 1) br.words br.size x.words x.size).val
  sgNormalizeBignum { br with sign := 1 }

theorem bignumMulInt_spec (g g' : Junk) {x y : Bignum} (hx : 0 < x.size) (hy : 0 < y.size) :
    (bignumMulInt g (makeBignum g' (x.size + y.size)) x y).toInt = x.toInt * y.toInt := by
  obtain ⟨-, hval⟩ := mpMulRec_of_clean g
    ⟨(makeBignum g' (x.size + y.size)).elements, max (x.size + y.size) 1⟩ x.words y.words hx hy
    fun j hj => makeBignum_elements g' (hj.trans_le (mulNeed_le _ _))
  refine (congrArg (fun m : ℕ => ((x.sign * y.sign : SignType) : ℤ) * m) hval).trans ?_
  rw [SignType.coe_mul, Nat.cast_mul, toInt, toInt]
  exact mul_mul_mul_comm _ _ _ _

theorem bignumMul_spec (g : Junk) {x y : Bignum} (hx : x.Normal) (hy : y.Normal) :
    ((bignumMul g x y).sign ≠ 0 → 0 < (bignumMul g x y).size) ∧
      (bignumMul g x y).toInt = x.toInt * y.toInt := by
  rw [bignumMul]
  split_ifs with h0x h0y
  · rw [toInt_of_zero (hx.sign_eq_zero.2 h0x), Int.zero_mul]
    exact ⟨hx.size_pos, rfl⟩
  · rw [toInt_of_zero (hy.sign_eq_zero.2 h0y), Int.mul_zero]
    exact ⟨hy.size_pos, rfl⟩
  · have hpx := Nat.pos_of_ne_zero h0x
    exact ⟨fun _ => Nat.add_pos_left hpx _,
      bignumMulInt_spec _ _ hpx (Nat.pos_of_ne_zero h0y)⟩

theorem bignumMulSi_spec (g : Junk) {x : Bignum} (hx : x.Normal) {y : ℤ}
    (hy : -2 ^ 63 < y ∧ y < 2 ^ 63) :
    ((bignumMulSi g x y).sign ≠ 0 → 0 < (bignumMulSi g x y).size) ∧
      (bignumMulSi g x y).toInt = x.toInt * y := by
  rw [bignumMulSi]
  by_cases h1 : y = 1
  · rw [if_pos h1, h1, Int.mul_one]
    exact ⟨hx.size_pos, rfl⟩
  by_cases h0 : y = 0
  · rw [if_neg h1, if_pos h0, h0, Int.mul_zero]
    exact ⟨fun _ => Nat.one_pos, toInt_of_zero rfl⟩
  by_cases hm : y = -1
  · rw [if_neg h1, if_neg h0, if_pos hm, hm]
    refine ⟨fun h => hx.size_pos fun hz => h (by rw [hz]; rfl), ?_⟩
    change ((-x.sign : SignType) : ℤ) * ((sgBignumCopy g x).mag : ℤ) = _
    rw [sgBignumCopy_mag, SignType.coe_neg, toInt]
    ring
  by_cases hz : x.sign = 0
  · -- the words of the result do not matter
    rw [toInt_of_zero hz, Int.zero_mul]
    split_ifs
    · exact ⟨fun _ => Nat.succ_pos _, toInt_of_zero (by change -x.sign = 0; rw [hz]; rfl)⟩
    · exact ⟨fun _ => Nat.succ_pos _, toInt_of_zero hz⟩
  have hyabs : (BitVec.ofInt 64 (if y < 0 then -y else y)).toNat = y.natAbs := by
    rw [BitVec.toNat_ofInt]
    split_ifs <;> omega
  generalize BitVec.ofInt 64 (if y < 0 then -y else y) = w at hyabs ⊢
  obtain ⟨-, hval⟩ := mpMulUl_spec
    ⟨(makeBignum g (x.size + 1)).elements, max (x.size + 1) 1⟩ x.words (hx.size_pos hz) w
  rw [hyabs] at hval
  split_ifs with hneg
  · refine ⟨fun _ => Nat.succ_pos _,
      (congrArg (fun m : ℕ => ((-x.sign : SignType) : ℤ) * m) hval).trans ?_⟩
    change ((-x.sign : SignType) : ℤ) * ((x.mag * y.natAbs : ℕ) : ℤ) = _
    rw [SignType.coe_neg, Nat.cast_mul, toInt, show (y.natAbs : ℤ) = -y by omega]
    ring
  · refine ⟨fun _ => Nat.succ_pos _,
      (congrArg (fun m : ℕ => (x.sign : ℤ) * m) hval).trans ?_⟩
    change (x.sign : ℤ) * ((x.mag * y.natAbs : ℕ) : ℤ) = _
    rw [Nat.cast_mul, toInt, show (y.natAbs : ℤ) = y by omega]
    ring

/-- **The square of a bignum**, in canonical form. -/
theorem sgBignumSquare_spec (g : Junk) {x : Bignum} (h0 : 0 < x.size) (hs : x.sign ≠ 0) :
    (sgBignumSquare g x).Represents (x.toInt * x.toInt) := by
  have hlen : x.size <<< 1 = 2 * x.size := by rw [Nat.shiftLeft_eq, pow_one, Nat.mul_comm]
  obtain ⟨-, hval⟩ := mpSquareRec_spec (g.sub 1)
    ⟨(makeBignum g (2 * x.size)).elements, max (2 * x.size) 1⟩ x.words h0
  obtain ⟨hcanon, hint⟩ := sgNormalizeBignum_spec (b := ⟨1, 2 * x.size, (mpSquare (g.sub 1)
    ⟨(makeBignum g (2 * x.size)).elements, max (2 * x.size) 1⟩ (2 * x.size)
      x.words x.size).val.mem⟩)
    fun _ => (by omega : 0 < 2 * x.size)
  refine ⟨hcanon, hint.trans ?_⟩
  rw [toInt_of_pos rfl]
  refine (congrArg (fun m : ℕ => (m : ℤ)) hval).trans ?_
  have habs := natAbs_toInt hs
  change ((x.mag ^ 2 : ℕ) : ℤ) = _
  rw [← habs, Nat.cast_pow, Int.natCast_natAbs, sq_abs, sq]

end Sagittarius
