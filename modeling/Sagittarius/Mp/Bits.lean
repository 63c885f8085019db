import Sagittarius.Mp.Memory
import Mathlib.Data.Nat.Bitwise
import Mathlib.Data.Nat.Factorization.Basic

/-!
# Counting bits and comparing words

The bit counts of `bits.h` that the bignums use, the bit size of a word array, and the comparison
of two of them.

* `nlz_spec`, `ntz_spec` : leading and trailing zeros of a word that is not zero;
* `mpBitSize_spec` : the position of the leading bit of a word array;
* `cmpWords_eq` : the comparison from the top word downwards is the sign of the difference.
-/

namespace Sagittarius

/-- One of the tests of `nlz64`: `t = x >> k; if (t) { n -= k; x = t; }`. -/
def nlzStep (k : ℕ) (s : ℕ × Word) : ℕ × Word :=
  let t := s.2 >>> k
  if t ≠ 0 then (s.1 - k, t) else s

/-- The number of leading zeros. -/
def nlz (x : Word) : ℕ :=
  let s := nlzStep 2 (nlzStep 4 (nlzStep 8 (nlzStep 16 (nlzStep 32 (64, x)))))
  if s.2 >>> 1 ≠ 0 then s.1 - 2 else s.1 - s.2.toNat

/-- The number of ones. -/
def nbits64 (x : Word) : ℕ :=
  let x := x - ((x >>> 1) &&& 0x5555555555555555)
  let t := (x >>> 2) &&& 0x3333333333333333
  let x := (x &&& 0x3333333333333333) + t
  let x := (x + (x >>> 4)) &&& 0x0F0F0F0F0F0F0F0F
  let x := x * 0x0101010101010101
  (x >>> 56).toNat

/-- The number of trailing zeros. -/
def ntz (x : Word) : ℕ := nbits64 (~~~ x &&& (x - 1))

/-- The length in bits. -/
def mpBitSize (x : Mem) (s : ℕ) : ℕ :=
  let last := s - 1
  if s = 0 then 0 else 64 * last + 64 - nlz (x last)

/-- The loop of the comparisons, from index `n - 1` downwards. -/
def cmpWords (x y : Mem) : ℕ → ℤ
  | 0 => 0
  | n + 1 => if x n < y n then -1 else if x n > y n then 1 else cmpWords x y n

/-! ### Leading zeros -/

/-- What `nlz` keeps: the bits it has shifted out, and how many bits can be left. -/
structure NlzInv (x : Word) (bits : ℕ) (s : ℕ × Word) : Prop where
  shifted : s.2.toNat = x.toNat / 2 ^ (64 - s.1)
  bits_le : bits ≤ s.1 ∧ s.1 ≤ 64
  ne_zero : s.2.toNat ≠ 0
  lt : s.2.toNat < 2 ^ bits

theorem NlzInv.step {x : Word} {k : ℕ} {s : ℕ × Word} (h : NlzInv x (2 * k) s) :
    NlzInv x k (nlzStep k s) := by
  obtain ⟨hval, ⟨hle, h64⟩, h0, hlt⟩ := h
  have hdiv : (s.2 >>> k).toNat = s.2.toNat / 2 ^ k := by
    rw [BitVec.toNat_ushiftRight, Nat.shiftRight_eq_div_pow]
  rw [nlzStep]
  split_ifs with hc
  · refine ⟨?_, ⟨by omega, by omega⟩, fun h => hc (BitVec.eq_of_toNat_eq h), ?_⟩
    · dsimp only
      rw [hdiv, hval, Nat.div_div_eq_div_mul, ← pow_add,
        show 64 - s.1 + k = 64 - (s.1 - k) by omega]
    · dsimp only
      rw [hdiv, Nat.div_lt_iff_lt_mul (Nat.two_pow_pos k), ← pow_add, ← two_mul]
      exact hlt
  · refine ⟨hval, ⟨by omega, h64⟩, h0, ?_⟩
    have h := congrArg BitVec.toNat (not_not.1 hc)
    rw [hdiv] at h
    exact (Nat.div_eq_zero_iff.1 h).resolve_left (Nat.two_pow_pos k).ne'

/-- **`nlz` counts the leading zeros.** -/
theorem nlz_spec {x : Word} (h0 : x ≠ 0) :
    nlz x ≤ 63 ∧ 2 ^ (63 - nlz x) ≤ x.toNat ∧ x.toNat < 2 ^ (64 - nlz x) := by
  have hx : x.toNat ≠ 0 := fun h => h0 (BitVec.eq_of_toNat_eq h)
  have h : NlzInv x (2 * 32) (64, x) := ⟨by simp, by omega, hx, x.isLt⟩
  obtain ⟨hval, ⟨hle, h64⟩, hne, hlt⟩ := h.step.step |>.step |>.step
    |>.step (k := 2)
  rw [nlz]
  generalize nlzStep 2 _ = s at *
  have hdiv : (s.2 >>> 1).toNat = s.2.toNat / 2 := by
    rw [BitVec.toNat_ushiftRight, Nat.shiftRight_eq_div_pow, pow_one]
  have hlow : ∀ a, a ≤ s.2.toNat ↔ a * 2 ^ (64 - s.1) ≤ x.toNat := fun a => by
    rw [hval, Nat.le_div_iff_mul_le (Nat.two_pow_pos _)]
  have hhigh : ∀ a, s.2.toNat < a ↔ x.toNat < a * 2 ^ (64 - s.1) := fun a => by
    rw [hval, Nat.div_lt_iff_lt_mul (Nat.two_pow_pos _)]
  split_ifs with hc
  · have h2 : 2 ≤ s.2.toNat := by
      by_contra hlt2
      exact hc (BitVec.eq_of_toNat_eq (by rw [hdiv]; simp; omega))
    refine ⟨by omega, ?_, ?_⟩
    · rw [show 63 - (s.1 - 2) = 1 + (64 - s.1) by omega, pow_add]
      exact (hlow 2).1 h2
    · rw [show 64 - (s.1 - 2) = 2 + (64 - s.1) by omega, pow_add]
      exact (hhigh 4).1 hlt
  · have h1 : s.2.toNat = 1 := by
      have h := congrArg BitVec.toNat (not_not.1 hc)
      rw [hdiv, show BitVec.toNat (0 : Word) = 0 from rfl] at h
      omega
    rw [h1]
    refine ⟨by omega, ?_, ?_⟩
    · rw [show 63 - (s.1 - 1) = 64 - s.1 by omega, ← Nat.one_mul (2 ^ _)]
      exact (hlow 1).1 h1.ge
    · rw [show 64 - (s.1 - 1) = 1 + (64 - s.1) by omega, pow_add]
      exact (hhigh 2).1 (by omega)

/-- **The bit size of a word array** whose top word is not zero. -/
theorem mpBitSize_spec {x : Mem} {s : ℕ} (hs : 0 < s) (htop : x (s - 1) ≠ 0) :
    0 < mpBitSize x s ∧ 64 * (s - 1) < mpBitSize x s ∧ mpBitSize x s ≤ 64 * s ∧
      2 ^ (mpBitSize x s - 1) ≤ wval x 0 s ∧ wval x 0 s < 2 ^ mpBitSize x s := by
  obtain _ | k := s
  · omega
  rw [Nat.add_sub_cancel] at htop
  obtain ⟨h63, hlow, hhigh⟩ := nlz_spec htop
  have hpow : radix ^ k = 2 ^ (64 * k) := by rw [radix, ← pow_mul]
  have hlt := wval_lt x 0 k
  rw [mpBitSize, if_neg (Nat.succ_ne_zero k), Nat.add_sub_cancel, wval_top, Nat.zero_add]
  generalize nlz (x k) = c at *
  refine ⟨by omega, by omega, by omega, ?_, ?_⟩
  · rw [show 64 * k + 64 - c - 1 = 64 * k + (63 - c) by omega, pow_add, ← hpow]
    exact (Nat.mul_le_mul_left _ hlow).trans (Nat.le_add_left _ _)
  · rw [show 64 * k + 64 - c = 64 * k + (64 - c) by omega, pow_add, ← hpow]
    calc _ < radix ^ k + radix ^ k * (x k).toNat := Nat.add_lt_add_right hlt _
      _ = radix ^ k * ((x k).toNat + 1) := by ring
      _ ≤ _ := Nat.mul_le_mul_left _ hhigh

/-! ### Trailing zeros -/

theorem not_and_sub_one {x : Word} {t q : ℕ}
    (hx : x.toNat = 2 ^ (t + 1) * q + 2 ^ t) : ~~~ x &&& (x - 1) = BitVec.ofNat 64 (2 ^ t - 1) := by
  have hpos := Nat.two_pow_pos t
  have hsub : (x - 1).toNat = 2 ^ (t + 1) * q + (2 ^ t - 1) := by
    rw [BitVec.toNat_sub, show (1 : Word).toNat = 1 from rfl]
    omega
  refine BitVec.eq_of_getLsbD_eq fun i hi => ?_
  rw [BitVec.getLsbD_and, BitVec.getLsbD_not, ← BitVec.testBit_toNat, ← BitVec.testBit_toNat, hx,
    hsub, BitVec.getLsbD_ofNat, decide_eq_true hi, Bool.true_and, Bool.true_and,
    Nat.testBit_two_pow_mul_add _ (by omega), Nat.testBit_two_pow_mul_add _ (by omega),
    Nat.testBit_two_pow_sub_one, Nat.testBit_two_pow]
  by_cases h : i < t + 1
  · rw [if_pos h, if_pos h]
    by_cases hit : t = i
    · simp [hit]
    · have : i < t := by omega
      simp [hit, this]
  · rw [if_neg h, if_neg h, Bool.not_and_self, eq_comm, decide_eq_false_iff_not]
    omega

theorem nbits64_mask : ∀ t, t < 64 → nbits64 (BitVec.ofNat 64 (2 ^ t - 1)) = t := by decide

theorem ntz_spec {x : Word} (h0 : x ≠ 0) :
    ntz x < 64 ∧ ∃ q, x.toNat = 2 ^ ntz x * (2 * q + 1) := by
  have hx : x.toNat ≠ 0 := fun h => h0 (BitVec.eq_of_toNat_eq h)
  obtain ⟨t, m, hm, hval⟩ := Nat.exists_eq_two_pow_mul_odd hx
  obtain ⟨q, rfl⟩ := hm
  have ht : t < 64 := by
    refine (Nat.pow_lt_pow_iff_right Nat.one_lt_two).1 (lt_of_le_of_lt ?_ x.isLt)
    rw [hval]
    exact Nat.le_mul_of_pos_right _ (Nat.succ_pos _)
  have hntz : ntz x = t := by
    rw [ntz, not_and_sub_one (q := q) (by rw [hval]; ring), nbits64_mask t ht]
  rw [hntz]
  exact ⟨ht, q, hval⟩

/-! ### Comparing -/

theorem cmpWords_eq (x y : Mem) (n : ℕ) :
    cmpWords x y n = Int.sign ((wval x 0 n : ℤ) - wval y 0 n) := by
  induction n with
  | zero => simp [cmpWords]
  | succ n ih =>
    have hx := wval_lt x 0 n
    have hy := wval_lt y 0 n
    rw [cmpWords, wval_top, wval_top, Nat.zero_add, ih]
    rcases Nat.lt_trichotomy (x n).toNat (y n).toNat with h | h | h
    · rw [if_pos (BitVec.lt_def.2 h), eq_comm, Int.sign_eq_neg_one_iff_neg]
      have := Nat.mul_le_mul_left (radix ^ n) h
      push_cast
      linarith
    · have hxy : x n = y n := BitVec.eq_of_toNat_eq h
      rw [if_neg (by rw [hxy]; exact BitVec.lt_irrefl _),
        if_neg (by rw [hxy]; exact BitVec.lt_irrefl _), hxy]
      push_cast
      rw [add_sub_add_right_eq_sub]
    · rw [if_neg (fun hc => absurd (BitVec.lt_def.1 hc) (by omega)),
        if_pos (BitVec.lt_def.2 h), eq_comm, Int.sign_eq_one_iff_pos]
      have := Nat.mul_le_mul_left (radix ^ n) h
      push_cast
      linarith

end Sagittarius
