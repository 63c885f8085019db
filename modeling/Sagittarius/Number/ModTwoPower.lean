import Mathlib.Data.Nat.Totient
import Mathlib.FieldTheory.Finite.Basic
import Sagittarius.Number.EuclideanDivision

/-!
# Powers modulo a power of two

`bignum_mod2` cuts a number to its lowest `p` bits, and `bignum_mod_expt2` squares and multiplies
with it.

A number that has more bits is cut to words first, and the highest of them with a mask.  If `p` is
a multiple of the size of a word, the mask is made from a shift by a whole word.  C does not define
it; here it is what the processors do, which take the count modulo the size of a word, so that the
mask is zero and the word is lost.  Nothing is lost of a number that has no more bits, which is
returned as it is, with its sign, or whose word is zero in any case (`KeepsWord`).

* `bignumMod2_eq_iff` : `bignum_mod2` is right exactly on the numbers that keep their word;
* `bignumModExpt2_of_keeps` : the power is right if the numbers keep their word that squaring and
  multiplying reduces;
* `mod_two_power_iff` : both, for every number, exponent and `p`, and that otherwise a word is lost
  in the run;
* `bignumModExpt2_neg` : the sign of the number does not matter if the exponent is even.
-/

namespace Sagittarius

open Nat

/-! ### The functions -/

/-- The mask `(1UL << (WORD_BITS - excessBits)) - 1` for the highest word. -/
def excessMask (excessBits : ℕ) : Word := 1#64 <<< ((64 - excessBits) % 64) - 1

/-- `bignum_mod2` cuts a number to `p` bits; the sign is lost with the higher bits. -/
def bignumMod2 (x : ℤ) (p : ℕ) : ℤ :=
  if x.natAbs.size ≤ p then x
  else
    let numInts := (p + 63) / 64
    let excessBits := numInts * 64 - p
    let low := 2 ^ (64 * (numInts - 1))
    let word := BitVec.ofNat 64 (x.natAbs / low) &&& excessMask excessBits
    (x.natAbs % low + low * word.toNat : ℕ)

/-- The loop of `bignum_mod_expt2` from the bit `i` on, with `n` rounds left. -/
def modExpt2Loop (e p : ℕ) : ℕ → ℕ → ℤ → ℤ → ℤ
  | 0, _, _, result => result
  | n + 1, i, base, result =>
    modExpt2Loop e p n (i + 1) (if n = 0 then base else bignumMod2 (base * base) p)
      (if e.testBit i then bignumMod2 (result * base) p else result)

/-- The `limit` of `bignum_mod_expt2`: how many bits of the exponent it reads. -/
def expLimit (x : ℤ) (e p : ℕ) : ℕ := if x % 2 = 1 then min (p - 1) e.size else e.size

/-- `bignum_mod_expt2` raises `x` to the power `e` modulo `2 ^ p`. -/
def bignumModExpt2 (x : ℤ) (e p : ℕ) : ℤ :=
  modExpt2Loop e p (expLimit x e p) 0 (bignumMod2 x p) 1

/-! ### The mask -/

theorem toNat_and_excessMask (v : Word) {excessBits : ℕ} (h0 : 0 < excessBits) :
    (v &&& excessMask excessBits).toNat = v.toNat % 2 ^ (64 - excessBits) := by
  generalize hk : 64 - excessBits = k
  have hmask : (excessMask excessBits).toNat = 2 ^ k - 1 := by
    have hpow : 2 ^ k < 2 ^ 64 := Nat.pow_lt_pow_right (by decide) (by omega)
    have hpos : 0 < 2 ^ k := Nat.two_pow_pos _
    have hshift : (1#64 <<< k).toNat = 2 ^ k := by
      rw [BitVec.toNat_shiftLeft, shiftLeft_eq]
      change 1 * 2 ^ k % 2 ^ 64 = _
      rw [one_mul, mod_eq_of_lt hpow]
    rw [excessMask, hk, mod_eq_of_lt (show k < 64 by omega), BitVec.toNat_sub, hshift]
    change (2 ^ 64 - 1 + 2 ^ k) % 2 ^ 64 = _
    omega
  rw [BitVec.toNat_and, hmask, and_two_pow_sub_one_eq_mod]

theorem bignumMod2_natCast (x : ℕ) {p : ℕ} (hp : 0 < p) :
    bignumMod2 x p =
      (if 64 ∣ p ∧ ¬ x.size ≤ p then x % 2 ^ (p - 64) else x % 2 ^ p : ℕ) := by
  unfold bignumMod2
  rw [Int.natAbs_natCast]
  by_cases hsize : x.size ≤ p
  · rw [if_pos hsize, if_neg fun h => h.2 hsize, mod_eq_of_lt (size_le.1 hsize)]
  rw [if_neg hsize]
  refine congrArg Nat.cast ?_
  by_cases hdvd : 64 ∣ p
  · rw [if_pos ⟨hdvd, hsize⟩]
    obtain ⟨k, rfl⟩ := hdvd
    have hnum : (64 * k + 63) / 64 = k := by omega
    have hmask : excessMask (k * 64 - 64 * k) = 0 := by
      rw [show k * 64 - 64 * k = 0 by omega]
      rfl
    simp only [hnum, hmask]
    rw [show 64 * k - 64 = 64 * (k - 1) by omega]
    simp
  · rw [if_neg fun h => hdvd h.1]
    have hnum : (p + 63) / 64 - 1 = p / 64 := by omega
    have hexcess : 64 - ((p + 63) / 64 * 64 - p) = p % 64 := by omega
    simp only [hnum]
    rw [toNat_and_excessMask _ (by omega), hexcess, BitVec.toNat_ofNat,
      mod_mod_of_dvd _ (Nat.pow_dvd_pow 2 (mod_lt p (by decide)).le), ← mod_mul,
      ← pow_add, div_add_mod]

/-- Cutting `v` to `p` bits loses no word, or one that is zero. -/
def KeepsWord (p v : ℕ) : Prop := 64 ∣ p → v < 2 ^ p ∨ v / 2 ^ (p - 64) % 2 ^ 64 = 0

instance (p v : ℕ) : Decidable (KeepsWord p v) := inferInstanceAs (Decidable (_ → _))

theorem bignumMod2_eq_iff {p : ℕ} (hp : 0 < p) (v : ℕ) :
    bignumMod2 v p = v % 2 ^ p ↔ KeepsWord p v := by
  have hcast : ((v % 2 ^ p : ℕ) : ℤ) = v % 2 ^ p := by push_cast; rfl
  rw [bignumMod2_natCast v hp, ← hcast, Nat.cast_inj, KeepsWord, ← size_le]
  by_cases hdvd : 64 ∣ p
  · by_cases hsize : v.size ≤ p
    · simp [hsize]
    · have hword : v % 2 ^ p =
          v % 2 ^ (p - 64) + 2 ^ (p - 64) * (v / 2 ^ (p - 64) % 2 ^ 64) := by
        rw [← mod_mul, ← pow_add, Nat.sub_add_cancel (le_of_dvd hp hdvd)]
      have hpos := Nat.two_pow_pos (p - 64)
      rw [if_pos ⟨hdvd, hsize⟩, hword, left_eq_add, mul_eq_zero_iff_left hpos.ne']
      simp [hdvd, hsize]
  · simp [hdvd]

/-! ### The loop -/

section

variable (x e p : ℕ)

/-- The base before the bit `i` is looked at. -/
def powerBase (i : ℕ) : ℕ := x ^ 2 ^ i % 2 ^ p

/-- The result before the bit `i` is looked at. -/
def powerResult (i : ℕ) : ℕ := x ^ (e % 2 ^ i) % 2 ^ p

/-- The numbers that are reduced for the bit `i` keep their word. -/
def KeepsRound (limit i : ℕ) : Prop :=
  (e.testBit i → KeepsWord p (powerResult x e p i * powerBase x p i)) ∧
    (i + 1 < limit → KeepsWord p (powerBase x p i * powerBase x p i))

instance (limit i : ℕ) : Decidable (KeepsRound x e p limit i) :=
  inferInstanceAs (Decidable (_ ∧ _))

/-- The numbers that squaring and multiplying reduces keep their word: `x`, the products and the
squares. -/
def KeepsPower : Prop :=
  KeepsWord p x ∧ ∀ i < expLimit x e p, KeepsRound x e p (expLimit x e p) i

instance : Decidable (KeepsPower x e p) := inferInstanceAs (Decidable (_ ∧ _))

/-- All reductions in the loop of `bignum_mod_expt2` are right. -/
def LoopReduces : ℕ → ℕ → ℤ → ℤ → Prop
  | 0, _, _, _ => True
  | n + 1, i, base, result =>
    ((e.testBit i → bignumMod2 (result * base) p = result * base % 2 ^ p) ∧
      (n ≠ 0 → bignumMod2 (base * base) p = base * base % 2 ^ p)) ∧
    LoopReduces n (i + 1) (if n = 0 then base else bignumMod2 (base * base) p)
      (if e.testBit i then bignumMod2 (result * base) p else result)

/-- All reductions in `bignum_mod_expt2` are right. -/
def PowerReduces : Prop :=
  bignumMod2 x p = x % 2 ^ p ∧ LoopReduces e p (expLimit x e p) 0 (bignumMod2 x p) 1

end

variable {x e p : ℕ}

theorem powerBase_succ (i : ℕ) :
    powerBase x p (i + 1) = powerBase x p i * powerBase x p i % 2 ^ p := by
  rw [powerBase, powerBase, ← mul_mod, ← sq, ← pow_mul, ← pow_succ]

theorem powerResult_succ (i : ℕ) :
    powerResult x e p (i + 1) =
      if e.testBit i then powerResult x e p i * powerBase x p i % 2 ^ p
      else powerResult x e p i := by
  simp only [powerResult, powerBase]
  rw [mod_pow_succ, Nat.testBit_eq_decide_div_mod_eq]
  rcases mod_two_eq_zero_or_one (e / 2 ^ i) with h | h
  · simp [h]
  · simp [h, pow_add, mul_mod]

theorem loopReduces_iff (hp : 0 < p) (n i : ℕ) {base result : ℤ}
    (hbase : n ≠ 0 → base = powerBase x p i) (hresult : result = powerResult x e p i) :
    (LoopReduces e p n i base result ↔ ∀ j, i ≤ j → j < i + n → KeepsRound x e p (i + n) j) ∧
      (LoopReduces e p n i base result →
        modExpt2Loop e p n i base result = powerResult x e p (i + n)) := by
  induction n generalizing i base result with
  | zero => exact ⟨iff_of_true trivial fun j h1 h2 => by omega, fun _ => hresult⟩
  | succ n ih =>
    obtain rfl := hbase n.succ_ne_zero
    subst hresult
    have hround : ((e.testBit i → bignumMod2 (powerResult x e p i * powerBase x p i : ℤ) p =
          powerResult x e p i * powerBase x p i % 2 ^ p) ∧
        (n ≠ 0 → bignumMod2 (powerBase x p i * powerBase x p i : ℤ) p =
          powerBase x p i * powerBase x p i % 2 ^ p)) ↔ KeepsRound x e p (i + (n + 1)) i := by
      rw [KeepsRound, ← bignumMod2_eq_iff hp, ← bignumMod2_eq_iff hp, cast_mul, cast_mul,
        show i + 1 < i + (n + 1) ↔ n ≠ 0 by omega]
    have hsplit : (∀ j, i ≤ j → j < i + (n + 1) → KeepsRound x e p (i + (n + 1)) j) ↔
        KeepsRound x e p (i + (n + 1)) i ∧
          ∀ j, i + 1 ≤ j → j < i + 1 + n → KeepsRound x e p (i + 1 + n) j := by
      rw [show i + 1 + n = i + (n + 1) by omega]
      refine ⟨fun h => ⟨h i le_rfl (by omega), fun j hj => h j (by omega)⟩, ?_⟩
      rintro ⟨hi, h⟩ j hj
      rcases hj.eq_or_lt with rfl | hlt
      · exact fun _ => hi
      · exact h j hlt
    rw [LoopReduces, modExpt2Loop, hsplit, hround, show i + (n + 1) = i + 1 + n by omega]
    -- the numbers of the next round are right if the reductions of this one are
    have hnext : KeepsRound x e p (i + 1 + n) i → _ := fun hi =>
      @ih (i + 1)
        (if n = 0 then (powerBase x p i : ℤ) else bignumMod2 (powerBase x p i * powerBase x p i) p)
        (if e.testBit i then bignumMod2 (powerResult x e p i * powerBase x p i) p
          else powerResult x e p i)
        (fun hn => by
          rw [if_neg hn, (hround.2 (by rwa [← Nat.add_assoc, Nat.add_right_comm])).2 hn,
            powerBase_succ]
          push_cast
          rfl)
        (by
          rw [powerResult_succ]
          split_ifs with hbit
          · rw [(hround.2 (by rwa [← Nat.add_assoc, Nat.add_right_comm])).1 hbit]
            push_cast
            rfl
          · rfl)
    exact ⟨and_congr_right fun hi => (hnext hi).1, fun h => (hnext h.1).2 h.2⟩

theorem odd_pow_two_pow {x : ℤ} (hx : Odd x) (k : ℕ) : (2 : ℤ) ^ (k + 1) ∣ x ^ 2 ^ k - 1 := by
  induction k with
  | zero =>
    obtain ⟨t, rfl⟩ := hx
    exact ⟨t, by ring⟩
  | succ k ih =>
    have heven : (2 : ℤ) ∣ x ^ 2 ^ k + 1 := by
      obtain ⟨t, ht⟩ := hx.pow
      exact ⟨t + 1, by rw [ht]; ring⟩
    have hfactor : x ^ 2 ^ (k + 1) - 1 = (x ^ 2 ^ k - 1) * (x ^ 2 ^ k + 1) := by
      ring
    rw [hfactor, pow_succ]
    exact mul_dvd_mul ih heven

theorem odd_pow_mod {x : ℤ} (hx : x % 2 = 1) (hp : 0 < p) (e : ℕ) :
    x ^ (e % 2 ^ (p - 1)) ≡ x ^ e [ZMOD 2 ^ p] := by
  have hone : x ^ 2 ^ (p - 1) ≡ 1 [ZMOD 2 ^ p] := by
    have h := odd_pow_two_pow (Int.odd_iff.2 hx) (p - 1)
    rw [Nat.sub_add_cancel hp] at h
    exact (Int.modEq_iff_dvd.2 h).symm
  have h := (hone.pow (e / 2 ^ (p - 1))).mul_right (x ^ (e % 2 ^ (p - 1)))
  rw [one_pow, one_mul, ← pow_mul, ← pow_add, Nat.div_add_mod] at h
  exact h.symm

theorem powerResult_expLimit (hp : 0 < p) :
    (powerResult x e p (expLimit x e p) : ℤ) = x ^ e % 2 ^ p := by
  rw [powerResult]
  push_cast
  rw [expLimit]
  split_ifs with hodd
  · rcases le_total (p - 1) e.size with h | h
    · rw [min_eq_left h]
      exact odd_pow_mod hodd hp e
    · rw [min_eq_right h, mod_eq_of_lt (lt_size_self e)]
  · rw [mod_eq_of_lt (lt_size_self e)]

theorem powerReduces_iff (hp : 0 < p) :
    (PowerReduces x e p ↔ KeepsPower x e p) ∧
      (PowerReduces x e p → bignumModExpt2 x e p = x ^ e % 2 ^ p) := by
  have hloop : bignumMod2 x p = x % 2 ^ p → _ := fun hx =>
    @loopReduces_iff x e p hp (expLimit x e p) 0 (bignumMod2 x p) 1
      (fun _ => by rw [hx, powerBase, pow_zero, pow_one]; push_cast; rfl)
      (by rw [powerResult, pow_zero, mod_one, pow_zero, mod_eq_of_lt (Nat.one_lt_two_pow hp.ne')]
          rfl)
  simp only [zero_add, Nat.zero_le, true_implies] at hloop
  constructor
  · rw [PowerReduces, KeepsPower, ← bignumMod2_eq_iff hp]
    exact and_congr_right fun hx => (hloop hx).1
  · rintro ⟨hx, h⟩
    rw [bignumModExpt2, (hloop hx).2 h, powerResult_expLimit hp]

/-- **`bignum_mod_expt2`** is right if the numbers that it reduces keep their word. -/
theorem bignumModExpt2_of_keeps (hp : 0 < p) (h : KeepsPower x e p) :
    bignumModExpt2 x e p = x ^ e % 2 ^ p :=
  (powerReduces_iff hp).2 ((powerReduces_iff hp).1.2 h)

theorem bignumModExpt2_neg (he : Even e) (x : ℤ) :
    bignumModExpt2 (-x) e p = bignumModExpt2 x e p := by
  have hlimit : expLimit (-x) e p = expLimit x e p := by
    rw [expLimit, expLimit, Int.neg_emod_two]
  have hbit : e.testBit 0 = false := by
    rw [testBit_zero, even_iff.1 he]
    rfl
  have hsq : bignumMod2 (-x) p * bignumMod2 (-x) p = bignumMod2 x p * bignumMod2 x p := by
    simp only [bignumMod2, Int.natAbs_neg]
    split_ifs
    · rw [neg_mul_neg]
    · rfl
  rw [bignumModExpt2, bignumModExpt2, hlimit]
  cases expLimit x e p with
  | zero => rfl
  | succ n =>
    rw [modExpt2Loop, modExpt2Loop, hbit, hsq]
    cases n <;> rfl

/-- **When the residues and powers modulo `2 ^ p` are right**: a residue if the number keeps its
word; the reductions on the way to a power exactly if the numbers that are reduced do, and then the
power is right. -/
theorem mod_two_power_iff (x e p : ℕ) (hp : 0 < p) :
    (bignumMod2 x p = x % 2 ^ p ↔ KeepsWord p x) ∧
      (PowerReduces x e p ↔ KeepsPower x e p) ∧
      (KeepsPower x e p → bignumModExpt2 x e p = x ^ e % 2 ^ p) :=
  ⟨bignumMod2_eq_iff hp x, (powerReduces_iff hp).1, bignumModExpt2_of_keeps hp⟩

/-- `2 ^ 128 + 3` is cut to two words, of which the higher is zero. -/
theorem mod_two_power_cut :
    bignumMod2 (2 ^ 128 + 3 : ℕ) 128 = (2 ^ 128 + 3 : ℕ) % 2 ^ 128 ∧
      PowerReduces (2 ^ 128 + 3) 5 128 ∧
      bignumModExpt2 (2 ^ 128 + 3 : ℕ) 5 128 = (2 ^ 128 + 3 : ℕ) ^ 5 % 2 ^ 128 :=
  have h := mod_two_power_iff (2 ^ 128 + 3) 5 128 (by decide)
  ⟨h.1.2 (by decide), h.2.1.2 (by decide), h.2.2 (by decide)⟩

/-- `2 ^ 64 + 2 ^ 63` modulo `2 ^ 64`, and its first power. -/
theorem mod_two_power_word :
    bignumMod2 (2 ^ 64 + 2 ^ 63 : ℕ) 64 = 0 ∧ bignumModExpt2 (2 ^ 64 + 2 ^ 63 : ℕ) 1 64 = 0 ∧
      (2 ^ 64 + 2 ^ 63) ^ 1 % 2 ^ 64 = 2 ^ 63 := by
  decide

end Sagittarius
