import Sagittarius.Bignum.AddSub
import Sagittarius.Library.TwosComplement

/-!
# Bitwise operations on bignums

Negative operands are complemented into a fixed number of words and read as if ones stood above
them; a negative result is complemented back.

* `expands_pos`, `expands_neg` : the words read this way are the two's complement expansion;
* `log_nonneg` : a result that is not negative is right;
* `log_neg` : a negative result is right exactly if its words are not all zero before they are
  complemented back, since the number that is then lost needs one more word;
* `bignumLog_iff` : what this means for the operations, which have the choice of the number of words
  and of the sign in common;
* `sgBignumLogAnd_iff`, `sgBignumLogIor_right`, `sgBignumLogXor_iff` : when the three are right.
-/

namespace Sagittarius

open TwosComplement Bignum

/-! ### The functions -/

/-- The word `i` of an operand in `DEF_BIGNUM_LOG_OP`. -/
def logWord (x : Bignum) (x2sc : Bool) (i : ℕ) : Word :=
  if i < x.size then x.elements i else if x2sc then ulongMax else 0

/-- `DEF_BIGNUM_LOG_OP`; the words of the result do not depend on each other. -/
def bignumLogOp (op : Word → Word → Word) (z x y : Bignum) (x2sc y2sc : Bool) : Bignum :=
  { z with elements := fun i =>
      if i < z.size then op (logWord x x2sc i) (logWord y y2sc i) else z.elements i }

/-- The conjunction of words. -/
def bignumAnd : Bignum → Bignum → Bignum → Bool → Bool → Bignum := bignumLogOp (· &&& ·)

/-- The disjunction of words. -/
def bignumIor : Bignum → Bignum → Bignum → Bool → Bool → Bignum := bignumLogOp (· ||| ·)

/-- The exclusive disjunction of words. -/
def bignumXor : Bignum → Bignum → Bignum → Bool → Bool → Bignum := bignumLogOp (· ^^^ ·)

/-- A copy of `x` in two's complement. -/
def complementCopy (g : Junk) (x : Bignum) : Bignum := bignumTwoScmpl (sgBignumCopy g x)

/-- The result of words that are read as those of a negative number. -/
def negativeResult (z : Bignum) : Integer :=
  sgNormalizeBignum (bignumTwoScmpl { z with sign := -1 })

/-- Whether an operand that is not zero is complemented: it is not positive. -/
def Bignum.x2sc (x : Bignum) : Bool := ¬ x.sign > 0

/-- An operand, complemented in a copy if it is negative. -/
def logOperand (g : Junk) (x : Bignum) : Bignum := if x.x2sc then complementCopy g x else x

/-- What the three operations have in common: `zero` is the result if one of the operands is zero,
else it has `size` words, which are read as those of a negative number where `bop` of the signs
says so. -/
def bignumLog (op : Bignum → Bignum → Bignum → Bool → Bool → Bignum) (bop : Bool → Bool → Bool)
    (size : Bool → Bool → ℕ) (zero : Integer) (g : Junk) (x y : Bignum) : Integer :=
  if x.sign = 0 ∨ y.sign = 0 then zero
  else
    let xx := logOperand (g.sub 1) x
    let yy := logOperand (g.sub 2) y
    let z := op (makeBignum g (size x.x2sc y.x2sc)) xx yy x.x2sc y.x2sc
    if bop x.x2sc y.x2sc then negativeResult z else sgNormalizeBignum z

/-- `Sg_BignumLogAnd` has the words of a positive operand, of the shorter one if there are two. -/
def sgBignumLogAnd (g : Junk) (x y : Bignum) : Integer :=
  bignumLog bignumAnd and (fun xneg yneg =>
    if xneg then if yneg then max x.size y.size else y.size
    else if yneg then x.size else min x.size y.size) (sgMakeInt 0) g x y

/-- The result of `Sg_BignumLogIor` and `Sg_BignumLogXor` if one of the operands is zero. -/
def logZero (x y : Bignum) : Integer :=
  if x.sign ≠ 0 then sgNormalizeBignum x
  else if y.sign ≠ 0 then sgNormalizeBignum y
  else sgMakeInt 0

/-- `Sg_BignumLogIor` has the words of a negative operand, of the shorter one if there are two. -/
def sgBignumLogIor (g : Junk) (x y : Bignum) : Integer :=
  bignumLog bignumIor or (fun xneg yneg =>
    if xneg then if yneg then min x.size y.size else x.size
    else if yneg then y.size else max x.size y.size) (logZero x y) g x y

/-- `Sg_BignumLogXor` has as many words as the longer operand. -/
def sgBignumLogXor (g : Junk) (x y : Bignum) : Integer :=
  bignumLog bignumXor xor (fun _ _ => max x.size y.size) (logZero x y) g x y

/-- The second operand in `DEF_SI_LOGOP`; it has one word even if it is zero. -/
def logOperandSI (g : Junk) (y : ℤ) : Bignum :=
  let b := makeBignum g 1
  if y = 0 then { b with sign := 0 }
  else if y = longMin then
    { b with sign := -1, elements := Function.update b.elements 0 ((1 : Word) <<< 63) }
  else if y < 0 then
    { b with sign := -1, elements := Function.update b.elements 0 (BitVec.ofInt 64 (-y)) }
  else { b with sign := 1, elements := Function.update b.elements 0 (BitVec.ofInt 64 y) }

/-- The conjunction with a `long`. -/
def sgBignumLogAndSI (g : Junk) (x : Bignum) (y : ℤ) : Integer :=
  sgBignumLogAnd (g.sub 3) x (logOperandSI g y)

/-- The disjunction with a `long`. -/
def sgBignumLogIorSI (g : Junk) (x : Bignum) (y : ℤ) : Integer :=
  sgBignumLogIor (g.sub 3) x (logOperandSI g y)

/-- The exclusive disjunction with a `long`. -/
def sgBignumLogXorSI (g : Junk) (x : Bignum) (y : ℤ) : Integer :=
  sgBignumLogXor (g.sub 3) x (logOperandSI g y)

/-! ### Words and bits -/

theorem radix_pow_eq_two_pow (n : ℕ) : radix ^ n = 2 ^ (64 * n) := by rw [radix, ← pow_mul]

theorem testBit_wval (m : Mem) (n i : ℕ) :
    (wval m 0 n).testBit i = (decide (i < 64 * n) && (m (i / 64)).getLsbD (i % 64)) := by
  induction n with
  | zero => simp
  | succ n ih =>
    have hlt := wval_lt m 0 n
    rw [radix_pow_eq_two_pow] at hlt
    rw [wval_top, Nat.zero_add, radix_pow_eq_two_pow, Nat.add_comm,
      Nat.testBit_two_pow_mul_add _ hlt, ih, BitVec.testBit_toNat]
    by_cases h : i < 64 * n
    · simp [h, show i < 64 * (n + 1) by omega]
    · rw [if_neg h]
      by_cases h' : i < 64 * (n + 1)
      · simp [h', show i / 64 = n by omega, show i % 64 = i - 64 * n by omega]
      · rw [BitVec.getLsbD_of_ge _ _ (by omega)]
        simp [h']

/-- The `z` lowest words of the expansion of `n`, as a number. -/
def residue (n : ℤ) (z : ℕ) : ℕ := (n % (radix : ℤ) ^ z).toNat

theorem testBit_residue (n : ℤ) (z i : ℕ) :
    (residue n z).testBit i = (decide (i < 64 * z) && n.testBit i) := by
  have h : (radix : ℤ) ^ z = 2 ^ (64 * z) := by exact_mod_cast radix_pow_eq_two_pow z
  rw [residue, h, testBit_toNat_emod]

/-- The words of `b`, with zeros or ones above them, are the expansion of `x`. -/
def Expands (x : ℤ) (b : Bignum) (s : Bool) : Prop :=
  ∀ i, x.testBit i = (logWord b s (i / 64)).getLsbD (i % 64)

theorem getLsbD_sign (s : Bool) {j : ℕ} (hj : j < 64) :
    (if s then ulongMax else 0 : Word).getLsbD j = s := by
  cases s
  · simp
  · rw [if_pos rfl, show ulongMax = BitVec.allOnes 64 by decide, BitVec.getLsbD_allOnes,
      decide_eq_true hj]

theorem logWord_low {b : Bignum} (s : Bool) {i : ℕ} (h : i < 64 * b.size) :
    (logWord b s (i / 64)).getLsbD (i % 64) = b.mag.testBit i := by
  rw [mag, testBit_wval, logWord, if_pos (by omega), decide_eq_true h, Bool.true_and]

theorem logWord_high {b : Bignum} (s : Bool) {i : ℕ} (h : 64 * b.size ≤ i) :
    (logWord b s (i / 64)).getLsbD (i % 64) = s := by
  rw [logWord, if_neg (by omega)]
  exact getLsbD_sign s (Nat.mod_lt _ (by decide))

theorem Expands.high {x : ℤ} {b : Bignum} {s : Bool} (h : Expands x b s) {i : ℕ}
    (hi : 64 * b.size ≤ i) : x.testBit i = s := (h i).trans (logWord_high s hi)

theorem expands_pos {b : Bignum} (hs : b.sign = 1) : Expands b.toInt b false := fun i => by
  rw [Bignum.toInt_of_pos hs, testBit_natCast]
  rcases Nat.lt_or_ge i (64 * b.size) with hi | hi
  · exact (logWord_low false hi).symm
  · rw [logWord_high false hi, Bignum.mag, testBit_wval, decide_eq_false (Nat.not_lt.2 hi),
      Bool.false_and]

theorem complementCopy_size (g : Junk) (b : Bignum) : (complementCopy g b).size = b.size := rfl

theorem complementCopy_mag (g : Junk) {b : Bignum} (hm : 0 < b.mag) :
    (complementCopy g b).mag = radix ^ b.size - b.mag := by
  obtain ⟨-, hval⟩ := mpTwoScmpl_spec (sgBignumCopy g b).words b.size
  refine hval.trans ?_
  change (radix ^ b.size - (sgBignumCopy g b).mag) % _ = _
  rw [sgBignumCopy_mag, Nat.mod_eq_of_lt]
  have := b.mag_lt
  omega

theorem expands_neg (g : Junk) {b : Bignum} (hs : b.sign = -1) (hm : 0 < b.mag) :
    Expands b.toInt (complementCopy g b) true := fun i => by
  have hmag := complementCopy_mag g hm
  have hlt := (complementCopy g b).mag_lt
  rw [complementCopy_size, radix_pow_eq_two_pow] at hlt
  have hval : b.toInt = ((complementCopy g b).mag : ℤ) - 2 ^ (64 * b.size) := by
    rw [toInt_of_neg hs, hmag, Nat.cast_sub b.mag_lt.le, radix_pow_eq_two_pow]
    push_cast
    ring
  rw [hval, testBit_sub_two_pow hlt]
  split_ifs with hi
  · exact (logWord_low (b := complementCopy g b) true hi).symm
  · exact (logWord_high (b := complementCopy g b) true (Nat.not_lt.1 hi)).symm

/-! ### Results -/

section Result

variable {op : Word → Word → Word} {bop : Bool → Bool → Bool}
  (hop : ∀ v w j, (op v w).getLsbD j = bop (v.getLsbD j) (w.getLsbD j))
  {x y : ℤ} {a b : Bignum} {s t : Bool} (hx : Expands x a s) (hy : Expands y b t)

include hop hx hy

theorem testBit_bignumLogOp (z : Bignum) {i : ℕ} (hi : i < 64 * z.size) :
    (bignumLogOp op z a b s t).mag.testBit i = bop (x.testBit i) (y.testBit i) := by
  rw [mag, testBit_wval, hx i, hy i, ← hop]
  change (decide (i < 64 * z.size) && _) = _
  rw [decide_eq_true hi, Bool.true_and]
  change (if i / 64 < z.size then op _ _ else _).getLsbD (i % 64) = _
  rw [if_pos (by omega)]

theorem mag_bignumLogOp {nop : ℕ → ℕ → ℕ} (h0 : bop false false = false)
    (hnop : ∀ v w i, (nop v w).testBit i = bop (v.testBit i) (w.testBit i)) (z : Bignum) :
    (bignumLogOp op z a b s t).mag = nop (residue x z.size) (residue y z.size) := by
  refine Nat.eq_of_testBit_eq fun i => ?_
  rw [hnop, testBit_residue, testBit_residue]
  by_cases hi : i < 64 * z.size
  · rw [testBit_bignumLogOp hop hx hy z hi, decide_eq_true hi, Bool.true_and, Bool.true_and]
  · rw [mag, testBit_wval, decide_eq_false hi, Bool.false_and, Bool.false_and, h0]
    exact (congrArg (· && _) (decide_eq_false hi)).trans (Bool.false_and _)

theorem log_nonneg (g : Junk) {n : ℕ} (hn : 0 < n)
    (hhigh : ∀ i, 64 * n ≤ i → bop (x.testBit i) (y.testBit i) = false) {P : Prop} (hP : P) :
    let z := bignumLogOp op (makeBignum g n) a b s t
    (sgNormalizeBignum z).Canonical ∧ (IsBitwise bop x y (sgNormalizeBignum z).toInt ↔ P) := by
  intro z
  have hsign : z.sign = 1 := makeBignum_sign g hn
  obtain ⟨hcanon, hval⟩ := sgNormalizeBignum_spec (b := z) fun _ => hn
  refine ⟨hcanon, iff_of_true ?_ hP⟩
  rw [hval, toInt_of_pos hsign]
  have hlt := z.mag_lt
  rw [radix_pow_eq_two_pow] at hlt
  exact isBitwise_of_nonneg hlt (fun i hi => testBit_bignumLogOp hop hx hy (makeBignum g n) hi)
    hhigh

theorem log_neg (g : Junk) {n : ℕ} (hn : 0 < n)
    (hhigh : ∀ i, 64 * n ≤ i → bop (x.testBit i) (y.testBit i) = true) :
    let z := bignumLogOp op (makeBignum g n) a b s t
    (negativeResult z).Canonical ∧
      (IsBitwise bop x y (negativeResult z).toInt ↔ z.mag ≠ 0) := by
  intro z
  obtain ⟨hcanon, hval⟩ := sgNormalizeBignum_spec
    (b := bignumTwoScmpl { z with sign := -1 }) fun _ => hn
  refine ⟨hcanon, ?_⟩
  have hlt : z.mag < radix ^ n := z.mag_lt
  have hmag : (bignumTwoScmpl { z with sign := -1 }).mag = (radix ^ n - z.mag) % radix ^ n :=
    (mpTwoScmpl_spec z.words n).2
  rw [negativeResult, hval, toInt_of_neg rfl, hmag]
  by_cases h0 : z.mag = 0
  · refine iff_of_false ?_ (not_not.2 h0)
    rw [h0, Nat.sub_zero, Nat.mod_self, Nat.cast_zero, neg_zero]
    exact not_isBitwise_zero hhigh
  · refine iff_of_true ?_ h0
    rw [Nat.mod_eq_of_lt (by omega), Nat.cast_sub hlt.le, neg_sub, radix_pow_eq_two_pow]
    rw [radix_pow_eq_two_pow] at hlt
    exact isBitwise_of_neg hlt (fun i hi => testBit_bignumLogOp hop hx hy (makeBignum g n) hi)
      hhigh

end Result

/-! ### The three operations -/

section Operations

variable (g : Junk) {x y : Bignum}

/-- What the operations need of an operand that is not zero. -/
structure Operand (x : Bignum) : Prop where
  size_pos : 0 < x.size
  mag_pos : 0 < x.mag

theorem x2sc_iff (hs : x.sign ≠ 0) : x.x2sc = true ↔ x.sign = -1 := by
  rcases sign_cases hs with h | h <;> simp [x2sc, h]

theorem logOperand_size (x : Bignum) : (logOperand g x).size = x.size := by
  unfold logOperand
  split_ifs <;> rfl

theorem Operand.expands (hx : Operand x) (hs : x.sign ≠ 0) :
    Expands x.toInt (logOperand g x) x.x2sc := by
  unfold logOperand
  rcases sign_cases hs with h | h
  · simpa [x2sc, h] using expands_neg g h hx.mag_pos
  · simpa [x2sc, h] using expands_pos h

theorem Operand.high (hx : Operand x) (hs : x.sign ≠ 0) {i : ℕ} (hi : 64 * x.size ≤ i) :
    x.toInt.testBit i = x.x2sc :=
  (hx.expands (fun _ _ => 0) hs).high (by rwa [logOperand_size])

section

variable (hx : Operand x) (hy : Operand y) (hsx : x.sign ≠ 0) (hsy : y.sign ≠ 0)

include hx hy hsx hsy

/-- **What the operations have in common**: if above the words of the result all bits are the sign,
then it is right unless it is negative and its words are all zero. -/
theorem bignumLog_iff {op : Word → Word → Word} {bop : Bool → Bool → Bool} {nop : ℕ → ℕ → ℕ}
    (hop : ∀ v w j, (op v w).getLsbD j = bop (v.getLsbD j) (w.getLsbD j))
    (h0 : bop false false = false)
    (hnop : ∀ v w i, (nop v w).testBit i = bop (v.testBit i) (w.testBit i))
    {size : Bool → Bool → ℕ} {zero : Integer} {s t : Bool} (hs : x.x2sc = s) (ht : y.x2sc = t)
    (hn : 0 < size s t) (hhigh : ∀ i, 64 * size s t ≤ i →
      bop (x.toInt.testBit i) (y.toInt.testBit i) = bop s t) :
    let r := bignumLog (bignumLogOp op) bop size zero g x y
    r.Canonical ∧ (IsBitwise bop x.toInt y.toInt r.toInt ↔
      (bop s t = true → nop (residue x.toInt (size s t)) (residue y.toInt (size s t)) ≠ 0)) := by
  have ex := hx.expands (g.sub 1) hsx
  have ey := hy.expands (g.sub 2) hsy
  simp only [bignumLog, if_neg (not_or.2 ⟨hsx, hsy⟩)]
  rw [hs] at ex ⊢
  rw [ht] at ey ⊢
  cases hneg : bop s t <;> rw [hneg] at hhigh
  · exact log_nonneg hop ex ey g hn hhigh nofun
  · obtain ⟨hcanon, hiff⟩ := log_neg hop ex ey g hn hhigh
    refine ⟨hcanon, hiff.trans ?_⟩
    rw [mag_bignumLogOp hop ex ey h0 hnop]
    exact ⟨fun h _ => h, fun h => h rfl⟩

/-- **`Sg_BignumLogAnd` is right** unless both operands are negative and have no common bit in the
words of the longer one. -/
theorem sgBignumLogAnd_iff :
    (sgBignumLogAnd g x y).Canonical ∧
      (IsBitwise and x.toInt y.toInt (sgBignumLogAnd g x y).toInt ↔
        ¬ (x.sign = -1 ∧ y.sign = -1 ∧
          residue x.toInt (max x.size y.size) &&& residue y.toInt (max x.size y.size) = 0)) := by
  have hpos := hx.size_pos
  have hpos' := hy.size_pos
  have h := @bignumLog_iff g x y hx hy hsx hsy (· &&& ·) and (· &&& ·)
    (fun v w j => BitVec.getLsbD_and) rfl fun v w i => Nat.testBit_and v w i
  rw [← x2sc_iff hsx, ← x2sc_iff hsy]
  have hbit := fun i => hx.high (i := i) hsx
  have hbit' := fun i => hy.high (i := i) hsy
  cases hs : x.x2sc <;> cases ht : y.x2sc <;> rw [hs] at hbit <;> rw [ht] at hbit'
  · refine (h hs ht (lt_min hpos hpos') fun i hi => ?_).imp id fun h => h.trans (by simp)
    rcases Nat.le_total x.size y.size with hle | hle
    · rw [hbit i (by rwa [← Nat.min_eq_left hle]), Bool.false_and, Bool.false_and]
    · rw [hbit' i (by rwa [← Nat.min_eq_right hle]), Bool.and_false, Bool.and_false]
  · refine (h hs ht hpos fun i hi => ?_).imp id fun h => h.trans (by simp)
    rw [hbit i hi, Bool.false_and, Bool.false_and]
  · refine (h hs ht hpos' fun i hi => ?_).imp id fun h => h.trans (by simp)
    rw [hbit' i hi, Bool.and_false, Bool.and_false]
  · refine (h hs ht (lt_max_of_lt_left hpos) fun i hi => ?_).imp id fun h => h.trans (by simp)
    rw [hbit i (le_trans (by simp) hi), hbit' i (le_trans (by simp) hi)]

end

theorem residue_of_pos (hs : x.sign = 1) {z : ℕ} (hz : x.size ≤ z) :
    residue x.toInt z = x.mag := by
  have hlt := x.mag_lt.trans_le (Nat.pow_le_pow_right radix_pos hz)
  rw [residue, toInt_of_pos hs, Int.emod_eq_of_lt (by omega) (by exact_mod_cast hlt),
    Int.toNat_natCast]

theorem residue_of_neg (hs : x.sign = -1) (hm : 0 < x.mag) {z : ℕ} (hz : x.size ≤ z) :
    residue x.toInt z = radix ^ z - x.mag := by
  have hlt := x.mag_lt.trans_le (Nat.pow_le_pow_right radix_pos hz)
  have hcast : ((radix ^ z : ℕ) : ℤ) = (radix : ℤ) ^ z := Nat.cast_pow _ _
  rw [residue, toInt_of_neg hs, ← hcast, ← Int.add_emod_right,
    Int.emod_eq_of_lt (by omega) (by omega)]
  omega

theorem residue_size_ne_zero (hs : x.sign = -1) (hx : Operand x) :
    residue x.toInt x.size ≠ 0 := by
  rw [residue_of_neg hs hx.mag_pos le_rfl]
  have := x.mag_lt
  omega

/-- **`Sg_BignumLogIor` is right.** -/
theorem sgBignumLogIor_right (hx : Operand x) (hy : Operand y) (hsx : x.sign ≠ 0)
    (hsy : y.sign ≠ 0) :
    (sgBignumLogIor g x y).Canonical ∧
      IsBitwise or x.toInt y.toInt (sgBignumLogIor g x y).toInt := by
  have hpos := hx.size_pos
  have hpos' := hy.size_pos
  have h := @bignumLog_iff g x y hx hy hsx hsy (· ||| ·) or (· ||| ·)
    (fun v w j => BitVec.getLsbD_or) rfl fun v w i => Nat.testBit_or v w i
  -- one of the operands has a bit in the words of the result
  have hres : x.x2sc = true → residue x.toInt x.size ≠ 0 := fun hs =>
    residue_size_ne_zero ((x2sc_iff hsx).1 hs) hx
  have hres' : y.x2sc = true → residue y.toInt y.size ≠ 0 := fun ht =>
    residue_size_ne_zero ((x2sc_iff hsy).1 ht) hy
  have hbit := fun i => hx.high (i := i) hsx
  have hbit' := fun i => hy.high (i := i) hsy
  cases hs : x.x2sc <;> cases ht : y.x2sc <;> rw [hs] at hbit hres <;> rw [ht] at hbit' hres'
  · refine (h hs ht (lt_max_of_lt_left hpos) fun i hi => ?_).imp id fun h => h.2 nofun
    rw [hbit i (le_trans (by simp) hi), hbit' i (le_trans (by simp) hi)]
  · refine (h hs ht hpos' fun i hi => ?_).imp id fun h => h.2 fun _ => ?_
    · rw [hbit' i hi, Bool.or_true, Bool.or_true]
    · exact fun h0 => hres' rfl (Nat.or_eq_zero_iff.1 h0).2
  · refine (h hs ht hpos fun i hi => ?_).imp id fun h => h.2 fun _ => ?_
    · rw [hbit i hi, Bool.true_or, Bool.true_or]
    · exact fun h0 => hres rfl (Nat.or_eq_zero_iff.1 h0).1
  · refine (h hs ht (lt_min hpos hpos') fun i hi => ?_).imp id fun h => h.2 fun _ h0 => ?_
    · rcases Nat.le_total x.size y.size with hle | hle
      · rw [hbit i (by rwa [← Nat.min_eq_left hle]), Bool.true_or, Bool.true_or]
      · rw [hbit' i (by rwa [← Nat.min_eq_right hle]), Bool.or_true, Bool.or_true]
    · rw [Nat.or_eq_zero_iff] at h0
      rcases Nat.le_total x.size y.size with hle | hle
      · exact hres rfl (Nat.min_eq_left hle ▸ h0.1)
      · exact hres' rfl (Nat.min_eq_right hle ▸ h0.2)

theorem xor_residue_ne_zero (hsx : x.sign = 1) (hsy : y.sign = -1) (hy : Operand y) {z : ℕ}
    (hx' : x.size ≤ z) (hy' : y.size ≤ z) :
    residue x.toInt z ^^^ residue y.toInt z ≠ 0 ↔ x.mag + y.mag ≠ radix ^ z := by
  have hlt := y.mag_lt.trans_le (Nat.pow_le_pow_right radix_pos hy')
  rw [residue_of_pos hsx hx', residue_of_neg hsy hy.mag_pos hy', ne_eq, Nat.xor_eq_zero_iff]
  omega

/-- **`Sg_BignumLogXor` is right** unless the operands have different signs and their absolute
values add up to a power of the radix that has one more word than the longer one. -/
theorem sgBignumLogXor_iff (hx : Operand x) (hy : Operand y) (hsx : x.sign ≠ 0)
    (hsy : y.sign ≠ 0) :
    (sgBignumLogXor g x y).Canonical ∧
      (IsBitwise xor x.toInt y.toInt (sgBignumLogXor g x y).toInt ↔
        ¬ (x.sign ≠ y.sign ∧ x.mag + y.mag = radix ^ max x.size y.size)) := by
  have h := @bignumLog_iff g x y hx hy hsx hsy (· ^^^ ·) xor (· ^^^ ·)
    (fun v w j => BitVec.getLsbD_xor) rfl (fun v w i => Nat.testBit_xor v w i)
    (fun _ _ => max x.size y.size) (logZero x y) _ _ rfl rfl (lt_max_of_lt_left hx.size_pos)
    fun i hi => by rw [hx.high hsx (le_trans (by simp) hi), hy.high hsy (le_trans (by simp) hi)]
  refine h.imp id fun h => h.trans ?_
  rcases sign_cases hsx with hs | hs <;> rcases sign_cases hsy with ht | ht
  · simp [x2sc, hs, ht]
  · have hlost := xor_residue_ne_zero ht hs hx (le_max_right x.size y.size) (le_max_left _ _)
    rw [Nat.xor_comm, Nat.add_comm] at hlost
    simpa [x2sc, hs, ht] using hlost
  · have hlost := xor_residue_ne_zero hs ht hy (le_max_left x.size y.size) (le_max_right _ _)
    simpa [x2sc, hs, ht] using hlost
  · simp [x2sc, hs, ht]

end Operations

end Sagittarius
