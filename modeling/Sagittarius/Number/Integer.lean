import Sagittarius.Bignum.AddSub
import Sagittarius.Bignum.Mul

/-!
# Exact integers: sums, differences and products

`Sg_Add`, `Sg_Sub`, `Sg_Mul` and `Sg_Square` on exact integers: which of the functions on fixnums
and bignums is called, and what it returns.

* `sgAdd_represents`, `sgSub_represents`, `sgMul_represents` : the canonical form of the result;
* `integer_arithmetic` : the three together;
* `square_agrees_mul` : squaring agrees with multiplying.
-/

namespace Sagittarius

open Integer Fixnum

/-! ### The functions -/

/-- `Sg_Add` on exact integers. -/
def sgAdd (g : Junk) : Integer → Integer → Integer
  | .fixnum m, .fixnum n => sgMakeInteger g (m.toInt + n.toInt)
  | .fixnum m, .bignum y => if m = 0 then .bignum y else sgBignumAddSI g y m.toInt
  | .bignum x, .fixnum n => if n = 0 then .bignum x else sgBignumAddSI g x n.toInt
  | .bignum x, .bignum y => sgBignumAdd g x y

/-- `Sg_Sub` on exact integers. -/
def sgSub (g : Junk) : Integer → Integer → Integer
  | .fixnum m, .fixnum n => sgMakeInteger g (m.toInt - n.toInt)
  | .fixnum m, .bignum y => sgBignumSub (g.sub 1) (sgMakeBignumFromSI g m.toInt) y
  | .bignum x, .fixnum n => if n = 0 then .bignum x else sgBignumSubSI g x n.toInt
  | .bignum x, .bignum y => sgBignumSub g x y

/-- The product of two fixnums in `Sg_Mul`: `k` is an unsigned double word that is assigned the
product of two `long`s, which wraps around here, and all it is compared with is converted. -/
def sgMulFixnum (g : Junk) (v0 v1 : ℤ) : Integer :=
  let k : DWord := BitVec.ofInt 128 (BitVec.ofInt 64 (v0 * v1)).toInt
  if (v1 ≠ 0 ∧ k / BitVec.ofInt 128 v1 ≠ BitVec.ofInt 128 v0) ∨
      ¬ (k ≥ BitVec.ofInt 128 sgIntMin ∧ k ≤ BitVec.ofInt 128 sgIntMax) then
    sgBignumMulSI (g.sub 1) (sgMakeBignumFromSI g v0) v1
  else sgMakeInteger g (lowWord k).toInt

/-- `Sg_Mul` on exact integers; `eq` is `SG_EQ (x, y)`, which holds if both operands are the same
object. -/
def sgMul (g : Junk) (eq : Bool) : Integer → Integer → Integer
  | .fixnum m, .fixnum n => sgMulFixnum g m.toInt n.toInt
  | .fixnum m, .bignum y =>
    if m = 0 then .fixnum m
    else if m = 1 then .bignum y
    else sgBignumMulSI g y m.toInt
  | .bignum x, .fixnum n => if n = 0 then .fixnum n else sgBignumMulSI g x n.toInt
  | .bignum x, .bignum y => if eq then sgBignumSquare g x else sgBignumMul g x y

/-- `Sg_Square` on exact integers. -/
def sgSquare (g : Junk) : Integer → Integer
  | .bignum x => sgBignumSquare g x
  | .fixnum n => sgMul g true (.fixnum n) (.fixnum n)

/-- `Sg_Negate` on exact integers. -/
def sgNegate (g : Junk) : Integer → Integer
  | .fixnum n => if n.toInt = sgIntMin then sgMakeInteger g (-n.toInt) else sgMakeInt (-n.toInt)
  | .bignum x => sgNormalizeBignum { sgBignumCopy g x with sign := -x.sign }

/-! ### Sums and differences -/

theorem Fixnum.bounds (n : Fixnum) : -2 ^ 61 ≤ n.toInt ∧ n.toInt < 2 ^ 61 :=
  (fixnumRange_iff _).1 (range n)

theorem natAbs_le_mag {b : Bignum} (h : (bignum b).Canonical) {n : ℤ}
    (hn : -2 ^ 61 ≤ n ∧ n ≤ 2 ^ 61) : n.natAbs ≤ b.mag := by
  obtain ⟨hsign, -, -, hrange⟩ := h
  rw [fixnumRange_iff] at hrange
  rcases sign_cases hsign with hb | hb
  · rw [Bignum.toInt_of_neg hb] at hrange
    omega
  · rw [Bignum.toInt_of_pos hb] at hrange
    omega

theorem sgBignumAddSI_represents (g : Junk) {b : Bignum} (h : (bignum b).Canonical) {n : ℤ}
    (hn : -2 ^ 61 ≤ n ∧ n ≤ 2 ^ 61) : (sgBignumAddSI g b n).Represents (b.toInt + n) := by
  obtain ⟨hsize, hval⟩ := bignumAddSi_spec g h.1 h.2.1 (by omega)
    fun _ => natAbs_le_mag h hn
  exact sgNormalizeBignum_represents ⟨fun _ => hsize, hval⟩

section

variable {x : Integer} (g : Junk) (hx : x.Canonical)

include hx

/-- **`Sg_Add` returns the canonical form of the sum.** -/
theorem sgAdd_represents {y : Integer} (hy : y.Canonical) :
    (sgAdd g x y).Represents (x.toInt + y.toInt) := by
  cases x with
  | fixnum m =>
    have hm := bounds m
    cases y with
    | fixnum n =>
      have hn := bounds n
      exact sgMakeInteger_spec g (by omega)
    | bignum b =>
      rw [sgAdd]
      split_ifs with h0
      · rw [h0]
        exact ⟨hy, (Int.zero_add _).symm⟩
      · rw [Int.add_comm]
        exact sgBignumAddSI_represents g hy (by omega)
  | bignum a =>
    cases y with
    | fixnum n =>
      have hn := bounds n
      rw [sgAdd]
      split_ifs with h0
      · rw [h0]
        exact ⟨hx, (Int.add_zero _).symm⟩
      · exact sgBignumAddSI_represents g hx (by omega)
    | bignum b =>
      exact sgNormalizeBignum_represents (bignumAdd_spec g hx.normal hy.normal)

theorem sgSub_represents {y : Integer} (hy : y.Canonical) :
    (sgSub g x y).Represents (x.toInt - y.toInt) := by
  cases x with
  | fixnum m =>
    have hm := bounds m
    have hm' : -2 ^ 63 ≤ m.toInt ∧ m.toInt < 2 ^ 63 := by omega
    cases y with
    | fixnum n =>
      have hn := bounds n
      exact sgMakeInteger_spec g (by omega)
    | bignum b =>
      have h := bignumSub_spec (g.sub 1) (sgMakeBignumFromSI_normal g hm') hy.normal
      rw [sgMakeBignumFromSI_toInt g hm'] at h
      exact sgNormalizeBignum_represents h
  | bignum a =>
    cases y with
    | fixnum n =>
      have hn := bounds n
      rw [sgSub]
      split_ifs with h0
      · rw [h0]
        exact ⟨hx, (Int.sub_zero _).symm⟩
      · exact sgBignumAddSI_represents g hx (by omega)
    | bignum b =>
      exact sgNormalizeBignum_represents (bignumSub_spec g hx.normal hy.normal)

theorem sgNegate_represents : (sgNegate g x).Represents (-x.toInt) := by
  cases x with
  | fixnum n =>
    have hn := bounds n
    rw [sgNegate]
    split_ifs with h
    · exact sgMakeInteger_spec g (by omega)
    · refine sgMakeInt_represents ((fixnumRange_iff _).2 ?_)
      rw [sgIntMin, sgIntMax] at h
      omega
  | bignum b =>
    have hval : ({ sgBignumCopy g b with sign := -b.sign } : Bignum).toInt = -b.toInt := by
      change ((-b.sign : SignType) : ℤ) * ((sgBignumCopy g b).mag : ℤ) = _
      rw [sgBignumCopy_mag, SignType.coe_neg, Bignum.toInt, Int.neg_mul]
    exact sgNormalizeBignum_represents ⟨fun _ => hx.2.1, hval⟩

end

/-! ### Products -/

theorem sgMulFixnum_eq (g : Junk) (v0 v1 : ℤ) :
    sgMulFixnum g v0 v1 = sgBignumMulSI (g.sub 1) (sgMakeBignumFromSI g v0) v1 := by
  refine if_pos (Or.inr fun ⟨hlo, hhi⟩ => ?_)
  have h : BitVec.ofInt 128 sgIntMin ≤ BitVec.ofInt 128 sgIntMax :=
    BitVec.le_def.2 ((BitVec.le_def.1 hlo).trans (BitVec.le_def.1 hhi))
  exact absurd h (by decide)

theorem sgBignumMulSI_represents (g : Junk) {b : Bignum} (h : b.Normal) {n : ℤ}
    (hn : -2 ^ 61 ≤ n ∧ n < 2 ^ 61) : (sgBignumMulSI g b n).Represents (b.toInt * n) :=
  sgNormalizeBignum_represents (bignumMulSi_spec g h (by omega))

theorem sgBignumMul_represents (g : Junk) {a b : Bignum} (ha : a.Normal) (hb : b.Normal) :
    (sgBignumMul g a b).Represents (a.toInt * b.toInt) :=
  sgNormalizeBignum_represents (bignumMul_spec g ha hb)

theorem sgMul_represents (g : Junk) {eq : Bool} {x y : Integer} (hx : x.Canonical)
    (hy : y.Canonical) (heq : eq = true → x = y) :
    (sgMul g eq x y).Represents (x.toInt * y.toInt) := by
  cases x with
  | fixnum m =>
    have hm := bounds m
    have hm' : -2 ^ 63 ≤ m.toInt ∧ m.toInt < 2 ^ 63 := by omega
    cases y with
    | fixnum n =>
      have h := sgBignumMulSI_represents (g.sub 1) (sgMakeBignumFromSI_normal g hm')
        (bounds n)
      rw [sgMakeBignumFromSI_toInt g hm'] at h
      rw [sgMul, sgMulFixnum_eq]
      exact h
    | bignum b =>
      rw [sgMul]
      split_ifs with h0 h1
      · rw [h0]
        exact ⟨trivial, (Int.zero_mul _).symm⟩
      · rw [h1]
        exact ⟨hy, (Int.one_mul _).symm⟩
      · rw [Int.mul_comm]
        exact sgBignumMulSI_represents g hy.normal hm
  | bignum a =>
    cases y with
    | fixnum n =>
      rw [sgMul]
      split_ifs with h0
      · rw [h0]
        exact ⟨trivial, (Int.mul_zero _).symm⟩
      · exact sgBignumMulSI_represents g hx.normal (bounds n)
    | bignum b =>
      rw [sgMul]
      split_ifs with h
      · obtain rfl : a = b := bignum.inj (heq h)
        exact sgBignumSquare_spec g hx.2.1 hx.1
      · exact sgBignumMul_represents g hx.normal hy.normal

/-- **Exact integer `+`, `-` and `*`** return the canonical form of the result, whichever of the
operands are fixnums and whether or not they are the same object. -/
theorem integer_arithmetic (g : Junk) (eq : Bool) (x y : Integer) (hx : x.Canonical)
    (hy : y.Canonical) (heq : eq = true → x = y) :
    (sgAdd g x y).Represents (x.toInt + y.toInt) ∧
      (sgSub g x y).Represents (x.toInt - y.toInt) ∧
      (sgMul g eq x y).Represents (x.toInt * y.toInt) :=
  ⟨sgAdd_represents g hx hy, sgSub_represents g hx hy, sgMul_represents g hx hy heq⟩

/-- The largest fixnum and the bignum `-2 ^ 64`. -/
theorem integer_arithmetic_mixed :
    let x := sgMakeInt sgIntMax
    let y : Integer := .bignum ⟨-1, 2, fun i => if i = 1 then 1 else 0⟩
    (sgAdd (fun _ _ => 0) x y).Represents (x.toInt + y.toInt) ∧
      (sgSub (fun _ _ => 0) x y).Represents (x.toInt - y.toInt) ∧
      (sgMul (fun _ _ => 0) false x y).Represents (x.toInt * y.toInt) :=
  integer_arithmetic (fun _ _ => 0) false (sgMakeInt sgIntMax)
    (.bignum ⟨-1, 2, fun i => if i = 1 then 1 else 0⟩) trivial
    (canonical_of_two_words (by decide) (by decide) (by decide))
    fun h => absurd h (by decide)

/-! ### Squares -/

/-- **Squaring agrees with multiplying**: `mp_square_rec` leaves the square in the result whatever
it held before, and what `Sg_Mul` of an object by itself and `Sg_Square` return is word for word
what `Sg_BignumMul` returns for equal numbers. -/
theorem square_agrees_mul (g : Junk) (rp xp : Ptr) (xsize : ℕ) (hx : 1 ≤ xsize) (g' : Junk)
    (a b : Bignum) (ha : (bignum a).Canonical) (hb : (bignum b).Canonical)
    (hab : a.toInt = b.toInt) :
    wval (mpSquareRec g rp (2 * xsize) xp xsize).val.mem 0 (2 * xsize) =
        wval xp.mem 0 xsize ^ 2 ∧
      (sgMul g true (.bignum a) (.bignum a)).Same (sgBignumMul g' a b) ∧
      (sgSquare g (.bignum a)).Same (sgBignumMul g' a b) := by
  obtain ⟨hmul, hmulval⟩ := sgBignumMul_represents g' ha.normal hb.normal
  obtain ⟨hsq, hsqval⟩ := sgBignumSquare_spec g ha.2.1 ha.1
  have hval : (sgBignumSquare g a).toInt = (sgBignumMul g' a b).toInt := by
    rw [hsqval, hmulval, hab]
  exact ⟨(mpSquareRec_spec g rp xp hx).2, hsq.same hmul hval, hsq.same hmul hval⟩

/-- The square of `2 ^ 64`, and of fifty words, which are split, into a hundred that are not
cleared. -/
theorem square_agrees_mul_fifty_words :
    let b : Bignum := ⟨1, 2, fun i => if i = 1 then 1 else 0⟩
    canKaratsubaSquare 50 = true ∧
      wval (mpSquareRec (fun _ _ => 0) ⟨fun _ => 7, 100⟩ 100 ⟨fun _ => 3, 50⟩ 50).val.mem 0 100 =
        wval (fun _ => 3) 0 50 ^ 2 ∧
      (sgMul (fun _ _ => 0) true (.bignum b) (.bignum b)).Same (sgBignumMul (fun _ _ => 0) b b) ∧
      (sgSquare (fun _ _ => 0) (.bignum b)).Same (sgBignumMul (fun _ _ => 0) b b) := by
  intro b
  have hb : (bignum b).Canonical := canonical_of_two_words (by decide) (by decide) (by decide)
  exact ⟨by decide, square_agrees_mul (fun _ _ => 0) ⟨fun _ => 7, 100⟩ ⟨fun _ => 3, 50⟩ 50
    (by decide) (fun _ _ => 0) b b hb hb rfl⟩

end Sagittarius
