import Sagittarius.Bignum.Basic
import Sagittarius.Library.Binary64
import Sagittarius.Mp.Bits
import Mathlib.Data.Nat.Size

/-!
# From a bignum to a double

`Sg_BignumToDouble`, with `Sg_BignumShiftRight` of a number that is not negative, and `lsb`.

* `sgBignumShiftRight_spec`, `lsb_lt_iff` : the shift is a division, and the lowest bit that is set
  tells whether it was exact;
* `roundedQuotient_isNearest` : the rounding by the guard bit, the parity and that bit is the
  rounding to the nearest multiple with ties to even;
* `bignum_to_double` : **the pattern is that of the nearest multiple** of the power of two that the
  length of the number gives, and of the infinity if that is beyond the largest double.

A double is its pattern.  The conversion of a 64 bit integer, which the hardware makes, is a
parameter.
-/

namespace Sagittarius

open Binary64 Nearest BitVec Nat Bignum

/-! ### The functions -/

/-- The loop of `lsb`, with `k` rounds left: the index and the last word that is read. -/
def lsbLoop (m : Mem) : ℕ → ℕ → Word → ℕ × Word
  | 0, i, l => (i, l)
  | k + 1, i, _ => if m i ≠ 0 then (i, m i) else lsbLoop m k (i + 1) (m i)

/-- The index of the lowest bit that is set. -/
def lsb (b : Bignum) : ℤ :=
  if b.size = 0 then -1
  else
    let (i, l) := lsbLoop b.elements b.size 0 0
    i * 64 + ntz l

/-- `Sg_Abs` of a bignum. -/
def sgBignumAbs (g : Junk) (b : Bignum) : Bignum :=
  if b.sign < 0 then { sgBignumCopy g b with sign := 1 } else b

/-- Shifts to the right. -/
def bignumRshift (br bx : Bignum) (amount : ℕ) : Bignum :=
  let r := (mpRshift br.words (.ptr bx.words) bx.size amount).val
  { sign := bx.sign, size := r.2, elements := r.1.mem }

/-- `Sg_BignumShiftRight` of a number that is not negative. -/
def sgBignumShiftRight (g : Junk) (b : Bignum) (shift : ℕ) : Integer :=
  let rsize : ℤ := b.size - (shift / 64 : ℕ)
  if rsize < 1 then sgMakeInt 0
  else sgNormalizeBignum (bignumRshift (makeBignum g rsize.toNat) b shift)

/-- `Sg_BignumToU64` with `SG_CLAMP_NONE`, which is `Sg_BignumToUI` where a `long` has 64 bits;
`none` is the error `argument out of range`. -/
def sgBignumToU64 (b : Bignum) : Option Word :=
  if b.sign ≥ 0 then if b.size ≥ 2 then none else some (b.elements 0) else none

/-- The length in bits. -/
def sgBignumBitSize (b : Bignum) : ℕ := if b.sign = 0 then 0 else mpBitSize b.elements b.size

/-- The value of `twiceSigFloor`.  The shifted number has 54 bits and is a fixnum, so that nothing
depends on the `0` for an error. -/
def twiceSigFloor (o : Integer) : Word :=
  match o with
  | .fixnum n => n.signExtend 64
  | .bignum b => (sgBignumToU64 b).getD 0

/-- The bits for an exponent between `63` and `1023`. -/
def doubleBits (g : Junk) (b : Bignum) (exponent : ℕ) : Word :=
  let shift := exponent - 53
  let ab := sgBignumAbs g b
  let twice := twiceSigFloor (sgBignumShiftRight g ab shift)
  let sigFloor := (twice >>> 1) &&& 0x000FFFFFFFFFFFFF
  let increment := twice &&& 1 ≠ 0 ∧ (sigFloor &&& 1 ≠ 0 ∨ lsb ab < shift)
  let sigRounded := if increment then sigFloor + 1 else sigFloor
  let bits := (BitVec.ofNat 64 (exponent + 1023) <<< 52) + sigRounded
  bits ||| (if b.sign < 0 then 0x8000000000000000 else 0)

/-- The bits of the double. -/
def sgBignumToDouble (s64ToDouble : Bignum → Word) (g : Junk) (b : Bignum) : Word :=
  if b.size = 0 then 0
  else
    let exponent : ℤ := sgBignumBitSize b - 1
    if exponent < 64 - 1 then s64ToDouble b
    else if exponent > 1023 then
      if b.sign > 0 then 0x7ff0000000000000 else 0xfff0000000000000
    else doubleBits g b exponent.toNat

/-! ### Shifts and the lowest bit -/

theorem sgBignumShiftRight_spec (g : Junk) {b : Bignum} (hs : b.sign = 1) {shift : ℕ}
    (h : shift / 64 < b.size) :
    (sgBignumShiftRight g b shift).Represents (b.mag / 2 ^ shift : ℕ) := by
  obtain ⟨hsize, -, hval⟩ :=
    mpRshift_spec (makeBignum g (b.size - shift / 64)).words (.ptr b.words) b.size shift h
  have hr : ((b.size : ℤ) - (shift / 64 : ℕ)).toNat = b.size - shift / 64 := by omega
  rw [sgBignumShiftRight]
  simp only [hr]
  rw [if_neg (by omega)]
  have hmag : (bignumRshift (makeBignum g (b.size - shift / 64)) b shift).mag =
      b.mag / 2 ^ shift := by
    rw [mag, bignumRshift]
    simp only [hsize]
    exact hval
  have hspec := sgNormalizeBignum_spec
    (b := bignumRshift (makeBignum g (b.size - shift / 64)) b shift) fun _ => by
      rw [bignumRshift]
      simp only [hsize]
      omega
  have hsign : (bignumRshift (makeBignum g (b.size - shift / 64)) b shift).sign = 1 := hs
  rwa [toInt_of_pos hsign, hmag] at hspec

theorem lsbLoop_spec (m : Mem) (k i : ℕ) (l : Word) (hnz : wval m i k ≠ 0) :
    ∃ j < k, lsbLoop m k i l = (i + j, m (i + j)) ∧ m (i + j) ≠ 0 ∧ wval m i j = 0 := by
  induction k generalizing i l with
  | zero => exact absurd rfl hnz
  | succ k ih =>
    rw [lsbLoop]
    by_cases h : m i = 0
    · rw [if_neg (not_not.2 h)]
      rw [wval_succ, h] at hnz
      obtain ⟨j, hj, hloop, hne, hzero⟩ := ih (i + 1) (m i) fun hz => hnz (by rw [hz]; rfl)
      rw [Nat.add_right_comm, Nat.add_assoc] at hloop hne
      refine ⟨j + 1, by omega, hloop, hne, ?_⟩
      rw [wval_succ, h, hzero]
      rfl
    · rw [if_pos h]
      exact ⟨0, succ_pos k, rfl, h, rfl⟩

/-- **The lowest bit that is set** is below `shift` if the division is not exact. -/
theorem lsb_lt_iff {b : Bignum} (hm : b.mag ≠ 0) (shift : ℕ) :
    lsb b < shift ↔ b.mag % 2 ^ shift ≠ 0 := by
  have hsize : b.size ≠ 0 := fun h => hm (by rw [mag, h]; rfl)
  obtain ⟨j, hj, hloop, hne, hzero⟩ := lsbLoop_spec b.elements b.size 0 0 hm
  rw [Nat.zero_add] at hloop hne
  obtain ⟨ht, q, hq⟩ := ntz_spec hne
  obtain ⟨u, hu⟩ : ∃ u, b.mag = 2 ^ (64 * j + ntz (b.elements j)) * (2 * u + 1) := by
    obtain ⟨n, hn⟩ : ∃ n, b.size = j + (n + 1) := ⟨b.size - j - 1, by omega⟩
    have hradix : radix = 2 ^ ntz (b.elements j) * (2 * 2 ^ (63 - ntz (b.elements j))) := by
      rw [← pow_succ', ← pow_add, radix]
      congr 1
      omega
    refine ⟨q + 2 ^ (63 - ntz (b.elements j)) * wval b.elements (j + 1) n, ?_⟩
    rw [mag, hn, wval_append, hzero, Nat.zero_add, Nat.zero_add, wval_succ, hq, pow_add,
      pow_mul, ← radix_eq]
    nth_rewrite 2 [hradix]
    ring
  have hlsb : lsb b = (64 * j + ntz (b.elements j) : ℕ) := by
    rw [lsb, if_neg hsize, hloop]
    push_cast
    ring
  rw [hlsb, cast_lt, hu, ne_eq, ← dvd_iff_mod_eq_zero]
  generalize 64 * j + ntz (b.elements j) = T
  constructor
  · intro hlt hdvd
    obtain ⟨c, hc⟩ := Nat.exists_eq_add_of_lt hlt
    rw [hc, Nat.add_assoc, pow_add, pow_succ'] at hdvd
    obtain ⟨e, he⟩ := Nat.dvd_of_mul_dvd_mul_left (Nat.two_pow_pos T) hdvd
    have : 2 * (2 ^ c * e) = 2 * u + 1 := by
      rw [he]
      ring
    omega
  · intro hdvd
    by_contra hge
    exact hdvd (Dvd.dvd.mul_right (pow_dvd_pow 2 (not_lt.1 hge)) _)

/-! ### Rounding -/

/-- The quotient by `2 * H`, rounded by the first bit of the remainder, the parity of the quotient
and the rest. -/
def roundedQuotient (N H : ℕ) : ℕ :=
  N / H / 2 + if N / H % 2 = 1 ∧ (N / H / 2 % 2 = 1 ∨ N % H ≠ 0) then 1 else 0

/-- **The guard bit, the parity and the rest decide as the midpoints do.** -/
theorem roundedQuotient_isNearest (N : ℕ) {H M : ℕ} (hH : 0 < H)
    (hM : roundedQuotient N H ≤ M) :
    IsNearest (fun s : ℕ => (s : ℚ) * (2 * H : ℕ)) M N (roundedQuotient N H) := by
  have hmono : StrictMono fun s : ℕ => (s : ℚ) * (2 * H : ℕ) := by
    intro a b hab
    have : (0 : ℚ) < (2 * H : ℕ) := by exact_mod_cast Nat.mul_pos Nat.two_pos hH
    exact mul_lt_mul_of_pos_right (by exact_mod_cast hab) this
  have hN : N = H * (2 * (N / H / 2) + N / H % 2) + N % H := by
    rw [div_add_mod, div_add_mod]
  have hlt := mod_lt N hH
  have hbit : N / H % 2 < 2 := mod_lt _ Nat.two_pos
  rw [isNearest_iff hmono, BelowMid, AboveMid]
  norm_cast
  rw [roundedQuotient] at hM ⊢
  rw [even_iff]
  generalize N / H / 2 = q at *
  generalize N / H % 2 = d at *
  generalize N % H = e at *
  subst hN
  obtain rfl | rfl : d = 0 ∨ d = 1 := by omega
  · rw [if_neg (by omega), Nat.add_zero] at hM ⊢
    refine ⟨hM, fun _ => .inl (by linarith), fun h0 => .inl ?_⟩
    obtain _ | q := q
    · omega
    rw [Nat.add_sub_cancel]
    nlinarith
  · split_ifs at hM ⊢ with hinc
    · refine ⟨hM, fun _ => .inl (by nlinarith), fun _ => ?_⟩
      rw [Nat.add_sub_cancel]
      by_cases he : e = 0
      · right
        refine ⟨?_, by omega⟩
        rw [he]
        ring
      · left
        have : 0 < e := Nat.pos_of_ne_zero he
        nlinarith
    · rw [Nat.add_zero] at hM ⊢
      have he : e = 0 ∧ q % 2 = 0 := by omega
      refine ⟨hM, fun _ => .inr ⟨?_, he.2⟩, fun h0 => .inl ?_⟩
      · rw [he.1]
        ring
      · obtain _ | q := q
        · omega
        rw [Nat.add_sub_cancel]
        nlinarith

/-! ### The pattern -/

theorem sgBignumAbs_spec (g : Junk) {b : Bignum} (hs : b.sign ≠ 0) :
    (sgBignumAbs g b).sign = 1 ∧ (sgBignumAbs g b).size = b.size ∧
      (sgBignumAbs g b).mag = b.mag := by
  rw [sgBignumAbs]
  split_ifs with h
  · exact ⟨rfl, rfl, sgBignumCopy_mag g b⟩
  · refine ⟨(sign_cases hs).resolve_left fun hneg => ?_, rfl, rfl⟩
    exact h (hneg ▸ (by decide))

theorem twiceSigFloor_toNat {o : Integer} {n : ℕ} (ho : o.Represents n) (hn : n < 2 ^ 61) :
    (twiceSigFloor o).toNat = n := by
  obtain ⟨hcan, hval⟩ := ho
  cases o with
  | fixnum f =>
    have hext : (f.signExtend 64).toInt = f.toInt := toInt_signExtend_of_le (by decide)
    rw [Integer.toInt_fixnum, ← hext, toInt_eq_toNat_cond] at hval
    rw [twiceSigFloor]
    split_ifs at hval <;> omega
  | bignum b =>
    refine absurd ?_ hcan.2.2.2
    rw [fixnumRange_iff, ← Integer.toInt_bignum, hval]
    omega

theorem size_bounds {n : ℕ} (hn : n ≠ 0) : 2 ^ (n.size - 1) ≤ n ∧ n < 2 ^ n.size := by
  have hpos : 0 < n.size := size_pos.2 (Nat.pos_of_ne_zero hn)
  exact ⟨lt_size.1 (by omega), lt_size_self n⟩

theorem roundedQuotient_bounds {N L : ℕ} (hL : 54 ≤ L) (hlow : 2 ^ (L - 1) ≤ N)
    (hhigh : N < 2 ^ L) :
    2 ^ 53 ≤ N / 2 ^ (L - 54) ∧ N / 2 ^ (L - 54) < 2 ^ 54 ∧
      2 ^ 52 ≤ roundedQuotient N (2 ^ (L - 54)) ∧ roundedQuotient N (2 ^ (L - 54)) ≤ 2 ^ 53 := by
  have h1 : 2 ^ 53 ≤ N / 2 ^ (L - 54) := by
    rw [le_div_iff_mul_le (Nat.two_pow_pos _), ← pow_add]
    rwa [show 53 + (L - 54) = L - 1 by omega]
  have h2 : N / 2 ^ (L - 54) < 2 ^ 54 := by
    refine Nat.div_lt_of_lt_mul ?_
    rw [← pow_add]
    rwa [show L - 54 + 54 = L by omega]
  refine ⟨h1, h2, ?_, ?_⟩ <;> rw [roundedQuotient] <;> split_ifs <;> omega

theorem and_one_ne_zero_iff (w : Word) : w &&& 1 ≠ 0 ↔ w.toNat % 2 = 1 := by
  have h : (w &&& 1).toNat = w.toNat % 2 := and_one_is_mod _
  rw [ne_eq, ← toNat_inj, h]
  change ¬ w.toNat % 2 = 0 ↔ _
  omega

theorem and_fraction_toNat (w : Word) : (w &&& 0x000FFFFFFFFFFFFF).toNat = w.toNat % 2 ^ 52 :=
  and_two_pow_sub_one_eq_mod _ 52

theorem or_sign_toNat {w : Word} (hw : w.toNat < 2 ^ 63) (c : Prop) [Decidable c] :
    (w ||| (if c then 0x8000000000000000 else 0)).toNat = (if c then 2 ^ 63 else 0) + w.toNat := by
  split_ifs
  · rw [toNat_or, Nat.or_comm]
    exact (two_pow_add_eq_or_of_lt hw 1).symm
  · rw [toNat_or]
    exact (or_zero _).trans (Nat.zero_add _).symm

theorem doubleBits_toNat (g : Junk) {b : Bignum} (hs : b.sign ≠ 0) {L : ℕ} (hL : b.mag.size = L)
    (h64 : 64 ≤ L) (h1024 : L ≤ 1024) (hsize : (L - 54) / 64 < b.size) :
    (doubleBits g b (L - 1)).toNat = (if b.sign < 0 then 2 ^ 63 else 0) +
      ((L + 1022) * 2 ^ 52 + (roundedQuotient b.mag (2 ^ (L - 54)) - 2 ^ 52)) := by
  obtain ⟨hasign, hasize, hamag⟩ := sgBignumAbs_spec g hs
  have hm : b.mag ≠ 0 := fun h => by
    rw [h, size_zero] at hL
    omega
  obtain ⟨hlow, hhigh⟩ := size_bounds hm
  rw [hL] at hlow hhigh
  obtain ⟨hq1, hq2, hr1, hr2⟩ := roundedQuotient_bounds (by omega) hlow hhigh
  have hshift : L - 1 - 53 = L - 54 := by omega
  have hwords : (L - 54) / 64 < (sgBignumAbs g b).size := by rwa [hasize]
  have htwice := twiceSigFloor_toNat (sgBignumShiftRight_spec g hasign hwords)
    (by rw [hamag]; omega)
  have hlsb := lsb_lt_iff (by rwa [hamag]) (L - 54)
  rw [hamag] at htwice hlsb
  rw [doubleBits]
  simp only [hshift, hlsb]
  generalize twiceSigFloor (sgBignumShiftRight g (sgBignumAbs g b) (L - 54)) = w at *
  have hsig : ((w >>> 1) &&& 0x000FFFFFFFFFFFFF).toNat = b.mag / 2 ^ (L - 54) / 2 - 2 ^ 52 := by
    rw [and_fraction_toNat, toNat_ushiftRight, shiftRight_eq_div_pow, htwice]
    omega
  generalize (w >>> 1) &&& 0x000FFFFFFFFFFFFF = sig at *
  set v := if w &&& 1 ≠ 0 ∧ (sig &&& 1 ≠ 0 ∨ b.mag % 2 ^ (L - 54) ≠ 0) then sig + 1 else sig with hv
  have hrounded : v.toNat = roundedQuotient b.mag (2 ^ (L - 54)) - 2 ^ 52 := by
    have hcond : (w &&& 1 ≠ 0 ∧ (sig &&& 1 ≠ 0 ∨ b.mag % 2 ^ (L - 54) ≠ 0)) ↔
        (b.mag / 2 ^ (L - 54) % 2 = 1 ∧
          (b.mag / 2 ^ (L - 54) / 2 % 2 = 1 ∨ b.mag % 2 ^ (L - 54) ≠ 0)) := by
      rw [and_one_ne_zero_iff, and_one_ne_zero_iff, hsig, htwice]
      omega
    simp only [hv, hcond, roundedQuotient]
    split_ifs
    · rw [toNat_add, hsig]
      change (_ + 1) % 2 ^ 64 = _
      omega
    · rw [hsig]
      omega
  have hexp : ((BitVec.ofNat 64 (L - 1 + 1023) : Word) <<< 52).toNat = (L + 1022) * 2 ^ 52 := by
    rw [toNat_shiftLeft, toNat_ofNat, Nat.shiftLeft_eq]
    omega
  have hbits : (((BitVec.ofNat 64 (L - 1 + 1023) : Word) <<< 52) + v).toNat =
      (L + 1022) * 2 ^ 52 + (roundedQuotient b.mag (2 ^ (L - 54)) - 2 ^ 52) := by
    rw [toNat_add, hexp, hrounded, mod_eq_of_lt (by omega)]
  rw [or_sign_toNat (by omega), hbits]

theorem value_pattern {r L : ℕ} (h54 : 54 ≤ L) (hr1 : 2 ^ 52 ≤ r) (hr2 : r ≤ 2 ^ 53) :
    value ((L + 1022) * 2 ^ 52 + (r - 2 ^ 52)) = r * 2 ^ (L - 53) := by
  have hpow : (2 : ℚ) ^ (L - 53) = 2 ^ ((L : ℤ) - 53) := by
    rw [← zpow_natCast, cast_sub (by omega)]
    rfl
  by_cases hr : r = 2 ^ 53
  · have hpair : IsPair (2 ^ 52) ((L : ℤ) - 53 + 1) := ⟨by decide, by omega, .inr le_rfl⟩
    have hidx : (L + 1022) * 2 ^ 52 + (r - 2 ^ 52) = index (2 ^ 52) ((L : ℤ) - 53 + 1) := by
      rw [index, hr]
      omega
    rw [hidx, value_index hpair, hpow, hr, zpow_add_one₀ (by norm_num)]
    ring
  · have hpair : IsPair r ((L : ℤ) - 53) := ⟨by omega, by omega, .inr hr1⟩
    have hidx : (L + 1022) * 2 ^ 52 + (r - 2 ^ 52) = index r ((L : ℤ) - 53) := by
      rw [index]
      omega
    rw [hidx, value_index hpair, hpow]

theorem mag_size {b : Bignum} (hb : b.Normal) (hs : b.sign ≠ 0) :
    sgBignumBitSize b = b.mag.size ∧ (b.mag.size - 54) / 64 < b.size := by
  have h0 := hb.size_pos hs
  obtain ⟨hpos, -, hle, hlow, hhigh⟩ := mpBitSize_spec h0 (hb.top_ne_zero h0)
  have hsize : b.mag.size = mpBitSize b.elements b.size := by
    have h1 := size_le.2 hhigh
    have h2 := lt_size.2 hlow
    rw [mag]
    omega
  rw [sgBignumBitSize, if_neg hs]
  exact ⟨hsize.symm, by omega⟩

/-- **`Sg_BignumToDouble`**: the sign, and the pattern of the nearest multiple of the power of two
that leaves 53 bits. -/
theorem bignum_to_double (s64ToDouble : Bignum → Word) (g : Junk) (b : Bignum) (hb : b.Normal)
    (h64 : 64 ≤ b.mag.size) (h1024 : b.mag.size ≤ 1024) :
    (sgBignumToDouble s64ToDouble g b).toNat / 2 ^ 63 = (if b.toInt < 0 then 1 else 0) ∧
      ∃ r : ℕ,
        (∀ M, r ≤ M → IsNearest (fun s : ℕ => (s : ℚ) * 2 ^ (b.mag.size - 53)) M b.mag r) ∧
        value ((sgBignumToDouble s64ToDouble g b).toNat % 2 ^ 63) = r * 2 ^ (b.mag.size - 53) ∧
        ((sgBignumToDouble s64ToDouble g b).toNat % 2 ^ 63 = infinity ↔
          (2 : ℚ) ^ 1024 ≤ r * 2 ^ (b.mag.size - 53)) ∧
        (sgBignumToDouble s64ToDouble g b).toNat % 2 ^ 63 ≤ infinity := by
  have hm : b.mag ≠ 0 := fun h => by
    rw [h, size_zero] at h64
    omega
  have hsize : b.size ≠ 0 := fun h => hm (by rw [mag, h]; rfl)
  have hs : b.sign ≠ 0 := fun h => hsize (hb.sign_eq_zero.1 h)
  obtain ⟨hbits, hwords⟩ := mag_size hb hs
  obtain ⟨hlow, hhigh⟩ := size_bounds hm
  obtain ⟨-, -, hr1, hr2⟩ := roundedQuotient_bounds (by omega) hlow hhigh
  have hneg : b.toInt < 0 ↔ b.sign < 0 := by
    rcases sign_cases hs with h | h
    · rw [toInt_of_neg h, h]
      exact iff_of_true (by omega) (by decide)
    · rw [toInt_of_pos h, h]
      exact iff_of_false (by omega) (by decide)
  have hcode : (sgBignumToDouble s64ToDouble g b).toNat = (if b.sign < 0 then 2 ^ 63 else 0) +
      ((b.mag.size + 1022) * 2 ^ 52 +
        (roundedQuotient b.mag (2 ^ (b.mag.size - 54)) - 2 ^ 52)) := by
    rw [sgBignumToDouble, if_neg hsize, hbits]
    rw [if_neg (by omega), if_neg (by omega),
      show ((b.mag.size : ℤ) - 1).toNat = b.mag.size - 1 by omega]
    exact doubleBits_toNat g hs rfl h64 h1024 hwords
  have hval := value_pattern (show 54 ≤ b.mag.size by omega) hr1 hr2
  have hnear := fun M =>
    roundedQuotient_isNearest b.mag (M := M) (Nat.two_pow_pos (b.mag.size - 54))
  have hdouble : 2 * 2 ^ (b.mag.size - 54) = 2 ^ (b.mag.size - 53) := by
    rw [← pow_succ']
    congr 1
    omega
  rw [hdouble] at hnear
  generalize roundedQuotient b.mag (2 ^ (b.mag.size - 54)) = r at *
  have hmod : (sgBignumToDouble s64ToDouble g b).toNat % 2 ^ 63 =
      (b.mag.size + 1022) * 2 ^ 52 + (r - 2 ^ 52) := by
    rw [hcode]
    split_ifs <;> omega
  rw [hmod, hval]
  refine ⟨?_, r, fun M hM => ?_, rfl, ?_, by rw [infinity]; omega⟩
  · rw [hcode]
    simp only [hneg]
    split_ifs <;> omega
  · have h := hnear M hM
    push_cast at h
    exact h
  · rw [← hval, ← value_infinity, value_strictMono.le_iff_le]
    have : (b.mag.size + 1022) * 2 ^ 52 + (r - 2 ^ 52) ≤ infinity := by
      rw [infinity]
      omega
    omega

/-- `-(2 ^ 64 + 1)` has 65 bits, of which the last twelve are rounded away. -/
theorem bignum_to_double_two_words :
    let d := (sgBignumToDouble (fun _ => 0) (fun _ _ => 0) ⟨-1, 2, fun _ => 1⟩).toNat
    d / 2 ^ 63 = 1 ∧ ∃ r : ℕ,
      (∀ M, r ≤ M → IsNearest (fun s : ℕ => (s : ℚ) * 2 ^ 12) M ((2 ^ 64 + 1 : ℕ) : ℚ) r) ∧
        value (d % 2 ^ 63) = r * 2 ^ 12 ∧ (d % 2 ^ 63 = infinity ↔ (2 : ℚ) ^ 1024 ≤ r * 2 ^ 12) ∧
        d % 2 ^ 63 ≤ infinity := by
  have hmag : (⟨-1, 2, fun _ => 1⟩ : Bignum).mag = 2 ^ 64 + 1 := by decide
  have hsize : (⟨-1, 2, fun _ => 1⟩ : Bignum).mag.size = 65 := by
    rw [hmag]
    exact le_antisymm (size_le.2 (by decide)) (lt_size.2 (by decide))
  have h := bignum_to_double (fun _ => 0) (fun _ _ => 0) ⟨-1, 2, fun _ => 1⟩
    ⟨by decide, by decide⟩ (by omega) (by omega)
  rw [hsize, hmag, if_pos (by decide)] at h
  exact h

end Sagittarius
