import Sagittarius.Bignum.Logic
import Sagittarius.Number.Integer

/-!
# Bitwise operations on exact integers

`Sg_LogAnd`, `Sg_LogIor`, `Sg_LogXor` and `Sg_LogNot`.

* `sgLog_right` : the inputs on which the first and the third are right; the second always is;
* `sgLogNot_right` : so is the fourth;
* `AndLost`, `XorLost` : the inputs whose result needs one more word than is computed.
-/

namespace Sagittarius

open TwosComplement BitVec Bignum Integer

/-! ### The functions -/

/-- `SG_INT_VALUE` as the word of a `long`. -/
def sgIntValue (n : Fixnum) : Word := n.signExtend 64

/-- `SG_MAKE_INT` of the word of a `long`. -/
def sgMakeIntWord (w : Word) : Integer := .fixnum (w.setWidth 62)

/-- The complement. -/
def sgLogNot (g : Junk) : Integer → Integer
  | .fixnum n => sgMakeIntWord (~~~ sgIntValue n)
  | .bignum x => sgNegate (g.sub 1) (sgBignumAddSI g x 1)

/-- The branches of `Sg_LogAnd` for a fixnum and a bignum, which are the same for both orders. -/
def sgLogAndMixed (g : Junk) (n : Fixnum) (x : Bignum) : Integer :=
  if n.toInt ≥ 0 then
    if x.sign > 0 then sgMakeInteger g (sgIntValue n &&& x.elements 0).toInt
    else if x.sign = 0 then sgMakeInt 0
    else sgBignumLogAndSI g x n.toInt
  else sgBignumLogAndSI g x n.toInt

/-- The conjunction. -/
def sgLogAnd (g : Junk) : Integer → Integer → Integer
  | .fixnum m, .fixnum n => sgMakeIntWord (sgIntValue m &&& sgIntValue n)
  | .fixnum m, .bignum y => sgLogAndMixed g m y
  | .bignum x, .fixnum n => sgLogAndMixed g n x
  | .bignum x, .bignum y => sgBignumLogAnd g x y

/-- The disjunction. -/
def sgLogIor (g : Junk) : Integer → Integer → Integer
  | .fixnum m, .fixnum n => sgMakeIntWord (sgIntValue m ||| sgIntValue n)
  | .fixnum m, .bignum y => sgBignumLogIorSI g y m.toInt
  | .bignum x, .fixnum n => sgBignumLogIorSI g x n.toInt
  | .bignum x, .bignum y => sgBignumLogIor g x y

/-- The exclusive disjunction. -/
def sgLogXor (g : Junk) : Integer → Integer → Integer
  | .fixnum m, .fixnum n => sgMakeIntWord (sgIntValue m ^^^ sgIntValue n)
  | .fixnum m, .bignum y => sgBignumLogXorSI g y m.toInt
  | .bignum x, .fixnum n => sgBignumLogXorSI g x n.toInt
  | .bignum x, .bignum y => sgBignumLogXor g x y

/-! ### The inputs that lose a word -/

namespace Integer

/-- The words that an operand has as a bignum. -/
def count : Integer → ℕ
  | fixnum _ => 1
  | bignum b => b.size

/-- `SG_INTP`: tests for a fixnum. -/
def isFixnum : Integer → Bool
  | fixnum _ => true
  | bignum _ => false

end Integer

/-- Two negative operands, not both fixnums, without a common bit in the words of the longer
one. -/
def AndLost (x y : Integer) : Prop :=
  ¬ (x.isFixnum = true ∧ y.isFixnum = true) ∧ x.toInt < 0 ∧ y.toInt < 0 ∧
    residue x.toInt (max x.count y.count) &&& residue y.toInt (max x.count y.count) = 0

/-- Operands of different signs, not both fixnums, whose absolute values add up to the power of
the radix with one more word than the longer one. -/
def XorLost (x y : Integer) : Prop :=
  ¬ (x.isFixnum = true ∧ y.isFixnum = true) ∧ decide (x.toInt < 0) ≠ decide (y.toInt < 0) ∧
    x.toInt.natAbs + y.toInt.natAbs = radix ^ max x.count y.count

theorem andLost_comm {x y : Integer} : AndLost x y ↔ AndLost y x := by
  rw [AndLost, AndLost, max_comm, Nat.and_comm]
  tauto

theorem xorLost_comm {x y : Integer} : XorLost x y ↔ XorLost y x := by
  rw [XorLost, XorLost, max_comm, Nat.add_comm]
  tauto

/-! ### Fixnums -/

theorem getLsbD_sgIntValue (n : Fixnum) {i : ℕ} (hi : i < 64) :
    (sgIntValue n).getLsbD i = n.toInt.testBit i := by
  rw [sgIntValue, getLsbD_signExtend, decide_eq_true hi, Bool.true_and, testBit_toInt]

theorem testBit_fixnum_high (n : Fixnum) {i : ℕ} (hi : 62 ≤ i) :
    n.toInt.testBit i = n.toInt.testBit 61 := by
  rw [testBit_toInt, if_neg (by omega), testBit_toInt, if_pos (by decide),
    msb_eq_getLsbD_last]

theorem fixnum_bitwise (op : Word → Word → Word) (bop : Bool → Bool → Bool)
    (hop : ∀ v w j, j < 64 → (op v w).getLsbD j = bop (v.getLsbD j) (w.getLsbD j))
    (m n : Fixnum) :
    IsBitwise bop m.toInt n.toInt (sgMakeIntWord (op (sgIntValue m) (sgIntValue n))).toInt := by
  set r : Fixnum := (op (sgIntValue m) (sgIntValue n)).setWidth 62 with hr
  have hlow : ∀ i, i < 62 → r.toInt.testBit i = bop (m.toInt.testBit i) (n.toInt.testBit i) :=
    fun i hi => by
      rw [testBit_toInt, if_pos hi, hr, getLsbD_setWidth, decide_eq_true hi, Bool.true_and,
        hop _ _ _ (by omega), getLsbD_sgIntValue m (by omega), getLsbD_sgIntValue n (by omega)]
  intro i
  change r.toInt.testBit i = _
  rcases Nat.lt_or_ge i 62 with hi | hi
  · exact hlow i hi
  · rw [testBit_fixnum_high r hi, testBit_fixnum_high m hi, testBit_fixnum_high n hi]
    exact hlow 61 (by decide)

/-! ### Operands -/

/-- `b` is what the operations on bignums are called with for `x`. -/
structure Integer.AsOperand (x : Integer) (b : Bignum) : Prop extends Operand b where
  sign_ne_zero : b.sign ≠ 0
  toInt_eq : b.toInt = x.toInt
  size_eq : b.size = x.count

theorem Integer.Canonical.asOperand {b : Bignum} (h : (bignum b).Canonical) :
    (bignum b).AsOperand b :=
  ⟨⟨h.2.1, (radix_pow_pos _).trans_le (le_mag h.2.1 h.2.2.1)⟩, h.1, rfl, rfl⟩

theorem logOperandSI_of_ne (g : Junk) {y : ℤ} (h : y ≠ 0) :
    logOperandSI g y = sgMakeBignumFromSI g y := by
  rw [logOperandSI, sgMakeBignumFromSI, if_neg h, if_neg h]

theorem logOperandSI_asOperand (g : Junk) {n : Fixnum} (h : n.toInt ≠ 0) :
    (fixnum n).AsOperand (logOperandSI g n.toInt) := by
  have hn := Fixnum.bounds n
  have hr : -2 ^ 63 ≤ n.toInt ∧ n.toInt < 2 ^ 63 := by omega
  rw [logOperandSI_of_ne g h]
  obtain ⟨hsize, hsign, hmag⟩ := sgMakeBignumFromSI_mag g hr h
  exact ⟨⟨by omega, by rw [hmag]; exact Int.natAbs_pos.2 h⟩,
    by rwa [hsign, ne_eq, sign_eq_zero_iff], sgMakeBignumFromSI_toInt g hr, hsize⟩

section AsOperand

variable {x y : Integer} {a b : Bignum} (hx : x.AsOperand a) (hy : y.AsOperand b)

include hx

theorem Integer.AsOperand.sign_iff : a.sign = -1 ↔ x.toInt < 0 := by
  rw [← sign_toInt hx.mag_pos, sign_eq_neg_one_iff, hx.toInt_eq]

theorem Integer.AsOperand.mag_eq : a.mag = x.toInt.natAbs := by
  rw [← hx.toInt_eq, natAbs_toInt hx.sign_ne_zero]

include hy

variable (hfix : ¬ (x.isFixnum = true ∧ y.isFixnum = true))

include hfix

theorem andLost_iff : AndLost x y ↔ a.sign = -1 ∧ b.sign = -1 ∧
    residue a.toInt (max a.size b.size) &&& residue b.toInt (max a.size b.size) = 0 := by
  rw [hx.sign_iff, hy.sign_iff, hx.toInt_eq, hy.toInt_eq, hx.size_eq, hy.size_eq]
  exact and_iff_right hfix

theorem xorLost_iff :
    XorLost x y ↔ a.sign ≠ b.sign ∧ a.mag + b.mag = radix ^ max a.size b.size := by
  have hsign : a.sign ≠ b.sign ↔ decide (x.toInt < 0) ≠ decide (y.toInt < 0) := by
    rw [ne_eq, ne_eq, decide_eq_decide, ← hx.sign_iff, ← hy.sign_iff]
    rcases sign_cases hx.sign_ne_zero with h | h <;>
      rcases sign_cases hy.sign_ne_zero with h' | h' <;> rw [h, h'] <;> decide
  rw [hsign, hx.mag_eq, hy.mag_eq, hx.size_eq, hy.size_eq]
  exact and_iff_right hfix

theorem bignumLog_right (g : Junk) :
    ((sgBignumLogAnd g a b).Canonical ∧
        (IsBitwise and x.toInt y.toInt (sgBignumLogAnd g a b).toInt ↔ ¬ AndLost x y)) ∧
      ((sgBignumLogIor g a b).Canonical ∧
        IsBitwise or x.toInt y.toInt (sgBignumLogIor g a b).toInt) ∧
      ((sgBignumLogXor g a b).Canonical ∧
        (IsBitwise xor x.toInt y.toInt (sgBignumLogXor g a b).toInt ↔ ¬ XorLost x y)) := by
  rw [andLost_iff hx hy hfix, xorLost_iff hx hy hfix, ← hx.toInt_eq, ← hy.toInt_eq]
  exact ⟨sgBignumLogAnd_iff g hx.toOperand hy.toOperand hx.sign_ne_zero hy.sign_ne_zero,
    sgBignumLogIor_right g hx.toOperand hy.toOperand hx.sign_ne_zero hy.sign_ne_zero,
    sgBignumLogXor_iff g hx.toOperand hy.toOperand hx.sign_ne_zero hy.sign_ne_zero⟩

end AsOperand

/-! ### The operations -/

theorem sgMakeInteger_and_right (g : Junk) {n : Fixnum} (hn : 0 ≤ n.toInt) {b : Bignum}
    (hb : (bignum b).Canonical) (hs : b.sign = 1) :
    (sgMakeInteger g (sgIntValue n &&& b.elements 0).toInt).Canonical ∧
      IsBitwise and b.toInt n.toInt
        (sgMakeInteger g (sgIntValue n &&& b.elements 0).toInt).toInt := by
  set w := sgIntValue n &&& b.elements 0 with hw
  obtain ⟨hcanon, hval⟩ := sgMakeInteger_spec g
    ⟨by simpa using le_toInt w, by simpa using toInt_lt (x := w)⟩
  refine ⟨hcanon, fun i => ?_⟩
  have hmsb : n.msb = false := by rwa [msb_eq_toInt, decide_eq_false_iff_not, Int.not_lt]
  have hbit : ∀ j, 62 ≤ j → n.toInt.testBit j = false := fun j hj => by
    rw [testBit_toInt, if_neg (by omega), hmsb]
  rw [hval, testBit_toInt]
  split_ifs with hi
  · rw [hw, getLsbD_and, getLsbD_sgIntValue n hi, (expands_pos hs) i, logWord,
      if_pos (by rw [Nat.div_eq_of_lt hi]; exact hb.2.1), Nat.div_eq_of_lt hi, Nat.mod_eq_of_lt hi,
      Bool.and_comm]
  · rw [hbit i (by omega), Bool.and_false, msb_eq_getLsbD_last, hw, getLsbD_and,
      getLsbD_sgIntValue n (by decide), hbit _ (by decide), Bool.false_and]

theorem not_xorLost_zero {b : Bignum} (hb : (bignum b).Canonical) {n : Fixnum}
    (hn : n.toInt = 0) : ¬ XorLost (.bignum b) (.fixnum n) := fun h => by
  have hmag : b.toInt.natAbs = b.mag := Bignum.natAbs_toInt hb.1
  have hsum : b.toInt.natAbs + n.toInt.natAbs = radix ^ max b.size 1 := h.2.2
  have hlt := b.mag_lt.trans_le (Nat.pow_le_pow_right radix_pos (le_max_left b.size 1))
  rw [hn, hmag, Int.natAbs_zero, Nat.add_zero] at hsum
  omega

section Mixed

variable (g : Junk) {b : Bignum} (hb : (bignum b).Canonical) (n : Fixnum)

include hb

theorem bignumLogSI_right :
    ((sgBignumLogAndSI g b n.toInt).Canonical ∧
        (IsBitwise and b.toInt n.toInt (sgBignumLogAndSI g b n.toInt).toInt ↔
          ¬ AndLost (.bignum b) (.fixnum n))) ∧
      ((sgBignumLogIorSI g b n.toInt).Canonical ∧
        IsBitwise or b.toInt n.toInt (sgBignumLogIorSI g b n.toInt).toInt) ∧
      ((sgBignumLogXorSI g b n.toInt).Canonical ∧
        (IsBitwise xor b.toInt n.toInt (sgBignumLogXorSI g b n.toInt).toInt ↔
          ¬ XorLost (.bignum b) (.fixnum n))) := by
  by_cases h0 : n.toInt = 0
  · have hand : sgBignumLogAndSI g b 0 = sgMakeInt 0 := if_pos (.inr rfl)
    have hior : sgBignumLogIorSI g b 0 = sgNormalizeBignum b :=
      (if_pos (.inr rfl)).trans (if_pos hb.1)
    have hxor : sgBignumLogXorSI g b 0 = sgNormalizeBignum b :=
      (if_pos (.inr rfl)).trans (if_pos hb.1)
    have hlost : ¬ AndLost (.bignum b) (.fixnum n) := fun hc => by
      have := hc.2.2.1
      rw [toInt_fixnum] at this
      omega
    obtain ⟨hcanon, hval⟩ := sgNormalizeBignum_spec fun _ => hb.2.1
    rw [h0, hand, hior, hxor, hval, toInt_sgMakeInt (by decide)]
    refine ⟨⟨trivial, iff_of_true (fun i => ?_) hlost⟩, ⟨hcanon, fun i => ?_⟩, hcanon,
      iff_of_true (fun i => ?_) (not_xorLost_zero hb h0)⟩
    · rw [testBit_zero, Bool.and_false]
    · rw [testBit_zero, Bool.or_false]
    · rw [testBit_zero, Bool.xor_false]
  · exact bignumLog_right hb.asOperand (logOperandSI_asOperand g h0)
      (fun h => absurd h.1 Bool.false_ne_true) (g.sub 3)

theorem sgLogAndMixed_iff :
    (sgLogAndMixed g n b).Canonical ∧
      (IsBitwise and b.toInt n.toInt (sgLogAndMixed g n b).toInt ↔
        ¬ AndLost (.bignum b) (.fixnum n)) := by
  rw [sgLogAndMixed]
  split_ifs with hn hs hz
  · have h1 : b.sign = 1 := (sign_cases hb.1).resolve_left fun h => absurd (h ▸ hs) (by decide)
    obtain ⟨hcanon, hright⟩ := sgMakeInteger_and_right g hn hb h1
    exact ⟨hcanon, iff_of_true hright fun hc => absurd hc.2.2.1 (Int.not_lt.2 hn)⟩
  · exact absurd hz hb.1
  · exact (bignumLogSI_right g hb n).1
  · exact (bignumLogSI_right g hb n).1

end Mixed

section

variable {x : Integer} (g : Junk) (hx : x.Canonical)

include hx

/-- **`Sg_LogIor` is right, and `Sg_LogAnd` and `Sg_LogXor` are unless a word is lost.** -/
theorem sgLog_right {y : Integer} (hy : y.Canonical) :
    ((sgLogAnd g x y).Canonical ∧
        (IsBitwise and x.toInt y.toInt (sgLogAnd g x y).toInt ↔ ¬ AndLost x y)) ∧
      ((sgLogIor g x y).Canonical ∧ IsBitwise or x.toInt y.toInt (sgLogIor g x y).toInt) ∧
      ((sgLogXor g x y).Canonical ∧
        (IsBitwise xor x.toInt y.toInt (sgLogXor g x y).toInt ↔ ¬ XorLost x y)) := by
  cases x with
  | fixnum m =>
    cases y with
    | fixnum n =>
      have hand := fixnum_bitwise _ _ (fun _ _ _ _ => getLsbD_and) m n
      have hior := fixnum_bitwise _ _ (fun _ _ _ _ => getLsbD_or) m n
      have hxor := fixnum_bitwise _ _ (fun _ _ _ _ => getLsbD_xor) m n
      exact ⟨⟨trivial, iff_of_true hand fun h => h.1 ⟨rfl, rfl⟩⟩, ⟨trivial, hior⟩,
        trivial, iff_of_true hxor fun h => h.1 ⟨rfl, rfl⟩⟩
    | bignum b =>
      rw [IsBitwise.swap Bool.and_comm, IsBitwise.swap Bool.or_comm, IsBitwise.swap Bool.xor_comm,
        andLost_comm, xorLost_comm]
      exact ⟨sgLogAndMixed_iff g hy m, (bignumLogSI_right g hy m).2⟩
  | bignum a =>
    cases y with
    | fixnum n => exact ⟨sgLogAndMixed_iff g hx n, (bignumLogSI_right g hx n).2⟩
    | bignum b =>
      exact bignumLog_right hx.asOperand hy.asOperand (fun h => absurd h.1 Bool.false_ne_true) g

theorem sgLogNot_right :
    (sgLogNot g x).Canonical ∧ ∀ i, (sgLogNot g x).toInt.testBit i = !x.toInt.testBit i := by
  cases x with
  | fixnum n =>
    have hnot : ∀ (v : Word) j, j < 64 → (~~~ v).getLsbD j = !v.getLsbD j := fun v j hj => by
      rw [getLsbD_not, decide_eq_true hj, Bool.true_and]
    exact ⟨trivial, fixnum_bitwise (fun v _ => ~~~ v) (fun a _ => !a)
      (fun v _ j hj => hnot v j hj) n n⟩
  | bignum b =>
    obtain ⟨hadd, haddval⟩ := sgBignumAddSI_represents g hx (n := 1) (by decide)
    obtain ⟨hneg, hnegval⟩ := sgNegate_represents (g.sub 1) hadd
    refine ⟨hneg, fun i => ?_⟩
    rw [sgLogNot, hnegval, haddval, ← testBit_neg_sub_one, toInt_bignum, neg_add']

end

/-- **When the bitwise operations are right**: all four are, exactly if neither a conjunction nor a
symmetric difference loses a word. -/
theorem bitwise_right_iff (g : Junk) (x y : Integer) (hx : x.Canonical) (hy : y.Canonical) :
    (((sgLogAnd g x y).Canonical ∧ IsBitwise and x.toInt y.toInt (sgLogAnd g x y).toInt) ∧
      ((sgLogIor g x y).Canonical ∧ IsBitwise or x.toInt y.toInt (sgLogIor g x y).toInt) ∧
      ((sgLogXor g x y).Canonical ∧ IsBitwise xor x.toInt y.toInt (sgLogXor g x y).toInt) ∧
      ((sgLogNot g x).Canonical ∧ ∀ i, (sgLogNot g x).toInt.testBit i = !x.toInt.testBit i)) ↔
    ¬ AndLost x y ∧ ¬ XorLost x y := by
  obtain ⟨⟨hand, handiff⟩, hior, hxor, hxoriff⟩ := sgLog_right g hx hy
  constructor
  · rintro ⟨⟨-, h1⟩, -, ⟨-, h2⟩, -⟩
    exact ⟨handiff.1 h1, hxoriff.1 h2⟩
  · rintro ⟨h1, h2⟩
    exact ⟨⟨hand, handiff.2 h1⟩, hior, ⟨hxor, hxoriff.2 h2⟩, sgLogNot_right g hx⟩

/-- The fixnum `-5` and the bignum `-2 ^ 64`, both of which are complemented. -/
theorem bitwise_right_negative :
    let x := sgMakeInt (-5)
    let y : Integer := .bignum ⟨-1, 2, fun i => if i = 1 then 1 else 0⟩
    IsBitwise and x.toInt y.toInt (sgLogAnd (fun _ _ => 0) x y).toInt ∧
      IsBitwise or x.toInt y.toInt (sgLogIor (fun _ _ => 0) x y).toInt ∧
      IsBitwise xor x.toInt y.toInt (sgLogXor (fun _ _ => 0) x y).toInt := by
  obtain ⟨hand, hior, hxor, -⟩ := (bitwise_right_iff (fun _ _ => 0) (sgMakeInt (-5))
    (.bignum ⟨-1, 2, fun i => if i = 1 then 1 else 0⟩) trivial
    (canonical_of_two_words (by decide) (by decide) (by decide))).2
    ⟨fun h => absurd h.2.2.2 (by decide), fun h => absurd h.2.1 (by decide)⟩
  exact ⟨hand.2, hior.2, hxor.2⟩

/-- `-2 ^ 63` and `-(2 ^ 63 + 1)` should give `-2 ^ 64`, and `2 ^ 63` and `-2 ^ 63` a symmetric
difference of `-2 ^ 64`, but both results are `0`. -/
theorem bitwise_lost_word :
    let m : Integer := .bignum ⟨-1, 1, fun _ => 0x8000000000000000⟩
    let n : Integer := .bignum ⟨-1, 1, fun _ => 0x8000000000000001⟩
    let p : Integer := .bignum ⟨1, 1, fun _ => 0x8000000000000000⟩
    (m.Canonical ∧ n.Canonical ∧ p.Canonical) ∧
      ((sgLogAnd (fun _ _ => 0) m n).toInt = 0 ∧ IsBitwise and m.toInt n.toInt (-2 ^ 64)) ∧
      ((sgLogXor (fun _ _ => 0) p m).toInt = 0 ∧ IsBitwise xor p.toInt m.toInt (-2 ^ 64)) := by
  have hm : ∀ i, (-2 ^ 63 : ℤ).testBit i = if i < 64 then (2 ^ 63).testBit i else true :=
    fun i => by
    rw [← testBit_sub_two_pow (by decide)]
    rfl
  have hn : ∀ i, (-(2 ^ 63 + 1) : ℤ).testBit i = if i < 64 then (2 ^ 63 - 1).testBit i else true :=
    fun i => by
      rw [← testBit_sub_two_pow (by decide)]
      rfl
  have hp : ∀ i, 64 ≤ i → (2 ^ 63 : ℤ).testBit i = false := fun i hi =>
    Nat.testBit_lt_two_pow (Nat.pow_lt_pow_right (by decide) (by omega))
  refine ⟨⟨⟨by decide, by decide, by decide, by decide⟩,
    ⟨by decide, by decide, by decide, by decide⟩,
    ⟨by decide, by decide, by decide, by decide⟩⟩, ⟨by decide, ?_⟩, ⟨by decide, ?_⟩⟩
  · refine isBitwise_of_neg (w := 0) (n := 64) (by decide) (by decide) fun i hi => ?_
    change ((-2 ^ 63 : ℤ).testBit i && (-(2 ^ 63 + 1) : ℤ).testBit i) = true
    rw [hm, hn, if_neg (by omega), if_neg (by omega), Bool.and_true]
  · refine isBitwise_of_neg (w := 0) (n := 64) (by decide) (by decide) fun i hi => ?_
    change ((2 ^ 63 : ℤ).testBit i ^^ (-2 ^ 63 : ℤ).testBit i) = true
    rw [hm, hp i hi, if_neg (by omega), Bool.xor_true, Bool.not_false]

end Sagittarius
