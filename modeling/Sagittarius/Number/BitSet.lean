import Sagittarius.Number.Logic

/-!
# The test of a bit

`Sg_BitSetP`, and the test by `Sg_LogAnd` with a power of two from `Sg_Ash`.

* `sgAshOne_spec`, `sgLogAnd_sgAshOne` : the test by `Sg_LogAnd` is right;
* `bignumTestBit_eq` : `bignum_test_bit` tests a bit of the absolute value;
* `bit_set_p_iff` : **`Sg_BitSetP` is right** unless the number is a negative bignum and the
  position above its lowest bit that is set.
-/

namespace Sagittarius

open TwosComplement Bignum Integer

/-! ### The functions -/

/-- A bit of the absolute value. -/
def bignumTestBit (b : Bignum) (p : ℕ) : Bool :=
  let pos := p / 64
  if pos ≥ b.size then false
  else b.elements pos &&& 1#64 <<< (if pos ≠ 0 then p % 64 else p) != 0

/-- Tests a bit. -/
def sgBitSetP : Integer → ℕ → Bool
  | .fixnum x, n => if n ≥ 61 then x.toInt < 0 else (sgIntValue x).sshiftRight n &&& 1 != 0
  | .bignum b, n => bignumTestBit b n

/-- `Sg_BignumAshSI` of one by a positive count. -/
def sgBignumAshOne (g : Junk) (count : ℕ) : Integer :=
  let size := 1 + (count + 63) / 64
  let x := makeBignum g size
  sgNormalizeBignum ⟨x.sign, size, Function.update x.elements (count / 64) (1#64 <<< (count % 64))⟩

/-- `Sg_Ash` of one by a count that is not negative. -/
def sgAshOne (g : Junk) (count : ℕ) : Integer :=
  if count < 61 ∧ 1 < sgIntMax / 2 ^ count then sgMakeInteger g (2 ^ count)
  else sgBignumAshOne g count

/-! ### Powers of two -/

theorem getLsbD_one_shiftLeft (k j : ℕ) : (1#64 <<< k).getLsbD j = decide (j < 64 ∧ j = k) := by
  rw [BitVec.getLsbD_shiftLeft, BitVec.getLsbD_one, Bool.eq_iff_iff]
  simp only [Bool.and_eq_true, decide_eq_true_eq, Bool.not_eq_true', decide_eq_false_iff_not]
  omega

theorem sgBignumAshOne_spec (g : Junk) (count : ℕ) :
    (sgBignumAshOne g count).Represents (2 ^ count) := by
  obtain ⟨size, hsize⟩ : ∃ size, 1 + (count + 63) / 64 = size := ⟨_, rfl⟩
  unfold sgBignumAshOne
  rw [hsize]
  set words := Function.update (makeBignum g size).elements (count / 64) (1#64 <<< (count % 64))
    with hwords
  set b : Bignum := ⟨(makeBignum g size).sign, size, words⟩
  have hsign : b.sign = 1 := makeBignum_sign g (by omega)
  -- only the bit `count` is set
  have hmag : b.mag = 2 ^ count := by
    refine Nat.eq_of_testBit_eq ?_
    intro i
    rw [Nat.testBit_two_pow, show b.mag = wval words 0 size from rfl, testBit_wval, hwords]
    by_cases hi : i / 64 = count / 64
    · rw [hi, Function.update_self, getLsbD_one_shiftLeft]
      simp only [← Bool.decide_and]
      congr 1
      simp only [eq_iff_iff]
      omega
    · rw [Function.update_of_ne hi]
      by_cases hlt : i < 64 * size
      · have hzero : BitVec.getLsbD (0 : Word) (i % 64) = false := BitVec.getLsbD_zero
        rw [makeBignum_elements g (by omega), hzero, Bool.and_false]
        refine (decide_eq_false ?_).symm
        omega
      · rw [decide_eq_false hlt, Bool.false_and]
        refine (decide_eq_false ?_).symm
        omega
  have hspec := sgNormalizeBignum_spec (b := b) fun _ => by
    change 0 < size
    omega
  rw [toInt_of_pos hsign, hmag] at hspec
  exact_mod_cast hspec

theorem sgAshOne_spec (g : Junk) (count : ℕ) : (sgAshOne g count).Represents (2 ^ count) := by
  unfold sgAshOne
  split_ifs with h
  · have hlt : (2 : ℤ) ^ count < 2 ^ 61 := pow_lt_pow_right₀ (by decide) h.1
    have hpos : (0 : ℤ) < 2 ^ count := by positivity
    exact sgMakeInteger_spec g (by omega)
  · exact sgBignumAshOne_spec g count

theorem sgLogAnd_sgAshOne (g : Junk) {x : Integer} (hx : x.Canonical) (n : ℕ) :
    (sgLogAnd g x (sgAshOne g n)).toInt ≠ 0 ↔ x.toInt.testBit n = true := by
  obtain ⟨hcan, hval⟩ := sgAshOne_spec g n
  have hpow : (2 ^ n : ℤ) = ((2 ^ n : ℕ) : ℤ) := by push_cast; rfl
  have hbits := ((sgLog_right g hx hcan).1.2).2 fun hlost => by
    have := hlost.2.2.1
    rw [hval] at this
    exact absurd this (by positivity : (0 : ℤ) < 2 ^ n).not_gt
  rw [hval] at hbits
  have hbit : ∀ i, (sgLogAnd g x (sgAshOne g n)).toInt.testBit i =
      (x.toInt.testBit i && decide (n = i)) := by
    intro i
    rw [hbits i, hpow, testBit_natCast, Nat.testBit_two_pow]
  constructor
  · intro hne
    by_contra hc
    refine hne (eq_zero_of_testBit ?_)
    intro i
    rw [hbit]
    by_cases hi : n = i
    · rw [← hi, Bool.eq_false_of_not_eq_true hc, Bool.false_and]
    · rw [decide_eq_false hi, Bool.and_false]
  · intro hn h0
    have h := hbit n
    rw [h0, testBit_zero, hn, decide_eq_true rfl] at h
    cases h

/-! ### The bits of both representations -/

theorem and_one_shiftLeft (v : Word) {k : ℕ} (hk : k < 64) :
    (v &&& 1#64 <<< k != 0) = v.getLsbD k := by
  change (v &&& BitVec.twoPow 64 k != 0) = _
  rw [BitVec.and_twoPow]
  cases v.getLsbD k with
  | false => rfl
  | true =>
    rw [if_pos rfl, bne_iff_ne]
    intro h
    have hbit := congrArg (fun w : Word => w.getLsbD k) h
    simp [hk] at hbit

theorem bignumTestBit_eq (b : Bignum) (p : ℕ) : bignumTestBit b p = b.mag.testBit p := by
  rw [show b.mag = wval b.elements 0 b.size from rfl, testBit_wval]
  unfold bignumTestBit
  have hp : (if p / 64 ≠ 0 then p % 64 else p) = p % 64 := by
    split_ifs <;> omega
  simp only [hp]
  split_ifs with h
  · rw [decide_eq_false (by omega), Bool.false_and]
  · rw [decide_eq_true (by omega), Bool.true_and, and_one_shiftLeft _ (Nat.mod_lt _ (by decide))]

theorem sgBitSetP_fixnum (x : Fixnum) (n : ℕ) :
    sgBitSetP (.fixnum x) n = x.toInt.testBit n := by
  change (if n ≥ 61 then decide (x.toInt < 0) else (sgIntValue x).sshiftRight n &&& 1 != 0) = _
  split_ifs with hn
  · -- the bit of the sign, and all above it
    have hsign : x.toInt.testBit n = x.toInt.testBit 61 := by
      rcases eq_or_lt_of_le hn with h | h
      · rw [← h]
      · exact testBit_fixnum_high x h
    rw [hsign, testBit_toInt, if_pos (by decide), ← BitVec.msb_eq_toInt,
      BitVec.msb_eq_getLsbD_last]
  · have hone : (1 : Word) = 1#64 <<< 0 := rfl
    rw [hone, and_one_shiftLeft _ (by decide), BitVec.getLsbD_sshiftRight]
    rw [← getLsbD_sgIntValue x (by omega)]
    simp
    omega

/-- **`Sg_BitSetP`** tests a bit of the two's complement, as `Sg_LogAnd` does, exactly if the number
is not a negative bignum or all bits below the position are zero. -/
theorem bit_set_p_iff (g : Junk) (x : Integer) (hx : x.Canonical) (n : ℕ) :
    ((sgBitSetP x n = true ↔ x.toInt / 2 ^ n % 2 = 1) ∧
        (sgBitSetP x n = true ↔ (sgLogAnd g x (sgAshOne g n)).toInt ≠ 0)) ↔
      x.isFixnum = true ∨ 0 ≤ x.toInt ∨ 2 ^ n ∣ x.toInt := by
  rw [sgLogAnd_sgAshOne g hx, ← testBit_iff_ediv, and_self, ← Bool.eq_iff_iff]
  cases x with
  | fixnum m => exact iff_of_true (sgBitSetP_fixnum m n) (.inl rfl)
  | bignum b =>
    change bignumTestBit b n = _ ↔ _
    rw [bignumTestBit_eq]
    rcases sign_cases hx.1 with hs | hs
    · have hval : (bignum b).toInt = -b.mag := toInt_of_neg hs
      have hne : b.mag ≠ 0 := by
        intro h0
        refine hx.2.2.2 ?_
        rw [toInt_of_neg hs, h0]
        decide
      have hneg : ¬ 0 ≤ -(b.mag : ℤ) := by omega
      have hdvd : (2 ^ n : ℤ) ∣ -b.mag ↔ 2 ^ n ∣ b.mag := by
        rw [Int.dvd_neg]
        norm_cast
      rw [hval, eq_comm, testBit_neg_iff, ← hdvd]
      exact ⟨fun h => .inr (.inr h), fun h => (h.resolve_left nofun).resolve_left hneg⟩
    · have hval : (bignum b).toInt = b.mag := toInt_of_pos hs
      rw [hval]
      exact iff_of_true rfl (.inr (.inl (Int.natCast_nonneg _)))

/-- The lowest bit of `-2 ^ 64`. -/
theorem bit_set_p_lowest :
    let x : Integer := .bignum ⟨-1, 2, fun i => if i = 1 then 1 else 0⟩
    ((sgBitSetP x 0 = true ↔ x.toInt / 2 ^ 0 % 2 = 1) ∧
        (sgBitSetP x 0 = true ↔
          (sgLogAnd (fun _ _ => 0) x (sgAshOne (fun _ _ => 0) 0)).toInt ≠ 0)) ↔
      x.isFixnum = true ∨ 0 ≤ x.toInt ∨ 2 ^ 0 ∣ x.toInt :=
  bit_set_p_iff _ (.bignum ⟨-1, 2, fun i => if i = 1 then 1 else 0⟩)
    (canonical_of_two_words (by decide) (by decide) (by decide)) 0

/-- The bit `65` of `-2 ^ 64` is set, but not that of its absolute value. -/
theorem bit_set_p_negative :
    let x : Integer := .bignum ⟨-1, 2, fun i => if i = 1 then 1 else 0⟩
    x.Canonical ∧ sgBitSetP x 65 = false ∧ x.toInt / 2 ^ 65 % 2 = 1 :=
  ⟨canonical_of_two_words (by decide) (by decide) (by decide), by decide, by decide⟩

end Sagittarius
