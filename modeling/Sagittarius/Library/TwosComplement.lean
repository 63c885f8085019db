import Mathlib.Data.Int.Bitwise
import Mathlib.Tactic.Ring
import Mathlib.Tactic.NormNum

/-!
# The two's complement expansion of an integer

`Int.testBit` reads an integer as an infinite two's complement number.

* `IsBitwise op x y r` : the bits of `r` are the bits of `x` and `y` combined by `op`;
* `testBit_sub_two_pow` : the bits of `w - 2 ^ n`, those of `w` with ones above them;
* `testBit_neg_sub_one`, `testBit_toInt` : the bits of a complement and of a signed word;
* `testBit_toNat_emod` : the bits of a residue modulo `2 ^ n`;
* `isBitwise_of_nonneg`, `isBitwise_of_neg` : a result from its lower `n` bits, where all higher
  bits are the same.
-/

namespace Sagittarius.TwosComplement

open Int Nat

/-- The expansion of `r` is the expansions of `x` and `y` combined bit by bit. -/
def IsBitwise (op : Bool → Bool → Bool) (x y r : ℤ) : Prop :=
  ∀ i, r.testBit i = op (x.testBit i) (y.testBit i)

theorem IsBitwise.swap {op : Bool → Bool → Bool} (hop : ∀ a b, op a b = op b a) {x y r : ℤ} :
    IsBitwise op x y r ↔ IsBitwise op y x r :=
  forall_congr' fun i => by rw [hop]

theorem testBit_natCast (w i : ℕ) : (w : ℤ).testBit i = w.testBit i := rfl

@[simp] theorem testBit_zero (i : ℕ) : (0 : ℤ).testBit i = false := zero_testBit i

theorem eq_zero_of_testBit {x : ℤ} (h : ∀ i, x.testBit i = false) : x = 0 := by
  cases x with
  | ofNat m =>
    rw [zero_of_testBit_eq_false h]
    rfl
  | negSucc m =>
    -- far up a negative number has ones
    have hm : (!m.testBit m) = false := h m
    rw [testBit_lt_two_pow Nat.lt_two_pow_self] at hm
    cases hm

/-- The bits are the parities of the quotients by powers of two, rounded down. -/
theorem testBit_iff_ediv (x : ℤ) (n : ℕ) : x.testBit n = true ↔ x / 2 ^ n % 2 = 1 := by
  cases x with
  | ofNat m =>
    change m.testBit n = true ↔ (m : ℤ) / 2 ^ n % 2 = 1
    rw [testBit_eq_decide_div_mod_eq, decide_eq_true_iff]
    norm_cast
  | negSucc m =>
    change (!m.testBit n) = true ↔ _
    rw [negSucc_ediv m (by positivity), testBit_eq_decide_div_mod_eq, Bool.not_eq_true',
      decide_eq_false_iff_not]
    have hcast : (m : ℤ) / 2 ^ n = (m / 2 ^ n : ℕ) := by norm_cast
    have hdiv : ediv (m : ℤ) (2 ^ n) = (m / 2 ^ n : ℕ) := hcast
    omega

theorem testBit_neg_iff (m n : ℕ) : (-(m : ℤ)).testBit n = m.testBit n ↔ 2 ^ n ∣ m := by
  cases m with
  | zero => simp
  | succ k =>
    change (!k.testBit n) = (k + 1).testBit n ↔ 2 ^ n ∣ k + 1
    rw [testBit_eq_decide_div_mod_eq, testBit_eq_decide_div_mod_eq, Nat.succ_div, ← decide_not,
      decide_eq_decide]
    split_ifs with h
    · refine iff_of_true ?_ h
      omega
    · refine iff_of_false ?_ h
      omega

theorem testBit_sub_two_pow {w n : ℕ} (h : w < 2 ^ n) (i : ℕ) :
    ((w : ℤ) - 2 ^ n).testBit i = if i < n then w.testBit i else true := by
  have heq : (w : ℤ) - 2 ^ n = negSucc (2 ^ n - (w + 1)) := by
    rw [negSucc_eq, Nat.cast_sub (by omega)]
    push_cast
    ring
  rw [heq]
  change (!(2 ^ n - (w + 1)).testBit i) = _
  rw [testBit_two_pow_sub_succ h]
  by_cases hi : i < n <;> simp [hi]

theorem testBit_neg_sub_one (x : ℤ) (i : ℕ) : (-x - 1).testBit i = !x.testBit i := by
  cases x with
  | ofNat m =>
    rw [ofNat_eq_natCast, show -(m : ℤ) - 1 = negSucc m by rw [negSucc_eq]; ring]
    rfl
  | negSucc m =>
    rw [show -negSucc m - 1 = (m : ℤ) by rw [negSucc_eq]; ring]
    exact (Bool.not_not _).symm

theorem testBit_toInt {w : ℕ} (v : BitVec w) (i : ℕ) :
    v.toInt.testBit i = if i < w then v.getLsbD i else v.msb := by
  have hlow : ∀ i, v.toNat.testBit i = v.getLsbD i := fun i => BitVec.testBit_toNat v
  rw [BitVec.toInt_eq_msb_cond]
  cases hmsb : v.msb
  · rw [if_neg (by decide), testBit_natCast, hlow]
    split_ifs with hi
    · rfl
    · exact BitVec.getLsbD_of_ge _ _ (Nat.not_lt.1 hi)
  · rw [if_pos rfl, Nat.cast_pow, Nat.cast_ofNat, testBit_sub_two_pow v.isLt, hlow]

theorem testBit_toNat_emod (x : ℤ) (n i : ℕ) :
    (x % 2 ^ n).toNat.testBit i = (decide (i < n) && x.testBit i) := by
  have hpow : (2 ^ n : ℤ) = ((2 ^ n : ℕ) : ℤ) := by push_cast; rfl
  have hpos : 0 < 2 ^ n := Nat.two_pow_pos n
  cases x with
  | ofNat m =>
    rw [ofNat_eq_natCast, hpow, ← natCast_mod, toNat_natCast, testBit_mod_two_pow,
      testBit_natCast]
  | negSucc m =>
    have hmod : (negSucc m % 2 ^ n).toNat = 2 ^ n - (m % 2 ^ n + 1) := by
      rw [hpow, negSucc_emod _ (by exact_mod_cast hpos)]
      omega
    rw [hmod, testBit_two_pow_sub_succ (mod_lt _ hpos), testBit_mod_two_pow]
    change _ = (decide (i < n) && !m.testBit i)
    by_cases hi : i < n <;> simp [hi]

section Result

variable {op : Bool → Bool → Bool} {x y : ℤ} {n w : ℕ}

theorem isBitwise_of_nonneg (hw : w < 2 ^ n)
    (hlow : ∀ i, i < n → w.testBit i = op (x.testBit i) (y.testBit i))
    (hhigh : ∀ i, n ≤ i → op (x.testBit i) (y.testBit i) = false) : IsBitwise op x y w := by
  intro i
  rcases Nat.lt_or_ge i n with hi | hi
  · exact hlow i hi
  · rw [hhigh i hi]
    exact testBit_lt_two_pow (hw.trans_le (Nat.pow_le_pow_right Nat.two_pos hi))

theorem isBitwise_of_neg (hw : w < 2 ^ n)
    (hlow : ∀ i, i < n → w.testBit i = op (x.testBit i) (y.testBit i))
    (hhigh : ∀ i, n ≤ i → op (x.testBit i) (y.testBit i) = true) :
    IsBitwise op x y (w - 2 ^ n) := by
  intro i
  rw [testBit_sub_two_pow hw]
  split_ifs with hi
  · exact hlow i hi
  · exact (hhigh i (not_lt.1 hi)).symm

theorem not_isBitwise_zero (hhigh : ∀ i, n ≤ i → op (x.testBit i) (y.testBit i) = true) :
    ¬ IsBitwise op x y 0 := fun h => by
  have h0 := testBit_zero n
  rw [h n, hhigh n le_rfl] at h0
  exact absurd h0 (by decide)

end Result

end Sagittarius.TwosComplement
