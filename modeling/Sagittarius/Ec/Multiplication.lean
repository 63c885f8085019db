import Mathlib.AlgebraicGeometry.EllipticCurve.Affine.Point
import Sagittarius.Ec.Model
import Sagittarius.Library.TwosComplement

/-!
# Scalar multiplication

`ec-point-mul` doubles a point and adds it or its negation, as the bits of `3k` and `k` say, from
the top.

* `Implements` : the methods of a field compute in the group of a curve;
* `mulLoop_eq` : the loop computes a multiple of the point, `loopCoeff`;
* `loopCoeff_pos`, `loopCoeff_neg` : which multiple this is;
* `ecPointMul_iff` : the result is `k` times the point if and only if the point is not at infinity
  and `k` is positive, or `k` is negative and a certain multiple of the point, `negativeOffset`, is
  zero.
-/

namespace Sagittarius.Ec

open WeierstrassCurve.Affine TwosComplement

/-! ### Methods that compute in a group -/

section Implements

variable {K : Type} [Field K] [DecidableEq K] {W : WeierstrassCurve.Affine K} {C : Type}

/-- The vector that stands for a point of the curve. -/
def encodePoint (enc : K → C) : W.Point → EcPoint C
  | .zero => ecInfinityPoint
  | .some x y _ => makeEcPoint (enc x) (enc y)

/-- The methods compute in the group of the curve `W`, whose field elements are coded by `enc`, as
far as the sums are among those that are `safe`. -/
structure Implements (F : FieldMethods C) (W : WeierstrassCurve.Affine K) (enc : K → C)
    (safe : W.Point → W.Point → Prop) : Prop where
  injective : Function.Injective enc
  twice : ∀ x y h, safe (.some x y h) (.some x y h) → F.twice (enc x) (enc y) =
    .ok (encodePoint enc (.some x y h + .some x y h : W.Point))
  add : ∀ x₁ y₁ h₁ x₂ y₂ h₂, safe (.some x₁ y₁ h₁) (.some x₂ y₂ h₂) →
    F.add (enc x₁) (enc y₁) (enc x₂) (enc y₂) =
      .ok (encodePoint enc (.some x₁ y₁ h₁ + .some x₂ y₂ h₂ : W.Point))
  negate : ∀ x y h, F.negate (enc x) (enc y) =
    .ok (encodePoint enc (-.some x y h : W.Point))

variable {F : FieldMethods C} {enc : K → C} {safe : W.Point → W.Point → Prop}

omit [DecidableEq K] in
theorem encodePoint_injective (h : Function.Injective enc) :
    Function.Injective (encodePoint enc : W.Point → EcPoint C) := by
  intro P Q hPQ
  cases P with
  | zero =>
    cases Q with
    | zero => rfl
    | some x y _ => cases hPQ
  | some x y _ =>
    cases Q with
    | zero => cases hPQ
    | some x' y' _ =>
      simp only [encodePoint, makeEcPoint, EcPoint.mk.injEq, Option.some.injEq] at hPQ
      obtain rfl := h hPQ.1
      obtain rfl := h hPQ.2
      rfl

namespace Implements

theorem ecPointTwice_eq (hF : Implements F W enc safe) (P : W.Point) (hP : safe P P) :
    ecPointTwice F (encodePoint enc P) = .ok (encodePoint enc (P + P)) := by
  cases P with
  | zero => rfl
  | some x y h => exact hF.twice x y h hP

theorem ecPointAdd_eq (hF : Implements F W enc safe) (P Q : W.Point) (hPQ : safe P Q) :
    ecPointAdd F (encodePoint enc P) (encodePoint enc Q) = .ok (encodePoint enc (P + Q)) := by
  cases P with
  | zero =>
    change _ = Except.ok (encodePoint enc (0 + Q))
    cases Q <;> rfl
  | some x y h =>
    cases Q with
    | zero =>
      change _ = Except.ok (encodePoint enc (Point.some x y h + 0))
      rfl
    | some x' y' h' => exact hF.add x y h x' y' h' hPQ

theorem ecPointNegate_eq (hF : Implements F W enc safe) {P : W.Point} (hP : P ≠ 0) :
    ecPointNegate F (encodePoint enc P) = .ok (encodePoint enc (-P)) := by
  cases P with
  | zero => exact absurd rfl hP
  | some x y h => exact hF.negate x y h

end Implements

end Implements

/-! ### The loop -/

/-- The number that the loop multiplies the point with, when it starts with `c` times the point. -/
def loopCoeff (h k : ℤ) : ℕ → ℤ → ℤ
  | 0, c => c
  | i + 1, c => loopCoeff h k i
      (2 * c + ((bitwiseBitSet h (i + 1)).toInt - (bitwiseBitSet k (i + 1)).toInt))

section Loop

variable {K : Type} [Field K] [DecidableEq K] {W : WeierstrassCurve.Affine K} {C : Type}
  {F : FieldMethods C} {enc : K → C} {safe : W.Point → W.Point → Prop}

/-- The sums that the loop makes of multiples of the point are safe. -/
def LoopSafe (safe : W.Point → W.Point → Prop) (P : W.Point) (h k : ℤ) : ℕ → ℤ → Prop
  | 0, _ => True
  | i + 1, c =>
    safe (c • P) (c • P) ∧
    (bitwiseBitSet h (i + 1) ≠ bitwiseBitSet k (i + 1) →
      safe ((2 * c) • P) (if bitwiseBitSet h (i + 1) then P else -P)) ∧
    LoopSafe safe P h k i
      (2 * c + ((bitwiseBitSet h (i + 1)).toInt - (bitwiseBitSet k (i + 1)).toInt))

/-- **The loop computes a multiple of the point**: by induction on the rounds. -/
theorem mulLoop_eq (hF : Implements F W enc safe) (P : W.Point) (h k : ℤ) (i : ℕ) (c : ℤ)
    (hsafe : LoopSafe safe P h k i c) :
    mulLoop F (encodePoint enc P) (encodePoint enc (-P)) h k i (encodePoint enc (c • P)) =
      .ok (encodePoint enc (loopCoeff h k i c • P)) := by
  induction i generalizing c with
  | zero => rfl
  | succ i ih =>
    obtain ⟨htwice, hadd, hrest⟩ := hsafe
    have hdouble : c • P + c • P = (2 * c) • P := by rw [two_mul, add_smul]
    rw [mulLoop, hF.ecPointTwice_eq _ htwice, hdouble, loopCoeff, ← ih _ hrest]
    simp only [bind, Except.bind]
    cases hh : bitwiseBitSet h (i + 1) <;> cases hk : bitwiseBitSet k (i + 1)
    · simp
    · have hsum := hF.ecPointAdd_eq _ _ (hadd (by simp [hh, hk]))
      rw [hh, if_neg (by decide)] at hsum
      rw [if_neg (by decide), if_neg (by decide), hsum]
      simp [add_smul]
    · have hsum := hF.ecPointAdd_eq _ _ (hadd (by simp [hh, hk]))
      rw [hh, if_pos rfl] at hsum
      rw [if_neg (by decide), if_pos rfl, hsum]
      simp [add_smul]
    · simp

end Loop

/-! ### Which multiple the loop computes -/

/-- The number that the bits from 1 to `n` make. -/
def bitSum (b : ℕ → Bool) : ℕ → ℤ
  | 0 => 0
  | n + 1 => bitSum b n + (b (n + 1)).toInt * 2 ^ n

theorem loopCoeff_eq (h k : ℤ) (n : ℕ) (c : ℤ) :
    loopCoeff h k n c =
      c * 2 ^ n + (bitSum (bitwiseBitSet h) n - bitSum (bitwiseBitSet k) n) := by
  induction n generalizing c with
  | zero => simp [loopCoeff, bitSum]
  | succ n ih =>
    rw [loopCoeff, ih, bitSum, bitSum, pow_succ]
    ring

/-- The number whose bits are tested. -/
def bitValue (x : ℤ) : ℤ := if FixnumRange x then x else |x|

theorem bitwiseBitSet_eq (x : ℤ) (i : ℕ) : bitwiseBitSet x i = (bitValue x).testBit i := by
  rw [bitwiseBitSet, bitValue]
  split_ifs with h
  · rfl
  · rw [Int.abs_eq_natAbs, testBit_natCast]

theorem emod_eq_sub {x M q : ℤ} (h0 : q * M ≤ x) (h1 : x < q * M + M) : x % M = x - q * M := by
  have hM : 0 < M := by omega
  have h := (Int.ediv_emod_unique (q := q) (r := x - q * M) hM).2
    ⟨by ring, by omega, by omega⟩
  exact h.2

theorem bitSum_bitwiseBitSet (x : ℤ) (n : ℕ) :
    bitSum (bitwiseBitSet x) n = bitValue x % 2 ^ (n + 1) / 2 := by
  induction n with
  | zero =>
    rw [bitSum]
    omega
  | succ n ih =>
    have hbit : (bitwiseBitSet x (n + 1)).toInt = bitValue x / 2 ^ (n + 1) % 2 := by
      have := testBit_iff_ediv (bitValue x) (n + 1)
      rw [bitwiseBitSet_eq]
      cases h : (bitValue x).testBit (n + 1) <;> simp [h] at this ⊢ <;> omega
    -- one more bit of the remainder is the parity of the quotient
    have hmod : bitValue x % 2 ^ (n + 1 + 1) =
        bitValue x % 2 ^ (n + 1) + 2 ^ (n + 1) * (bitValue x / 2 ^ (n + 1) % 2) := by
      have hpos : (0 : ℤ) < 2 ^ (n + 1) := by positivity
      have h0 := Int.emod_nonneg (bitValue x) hpos.ne'
      have hlt := Int.emod_lt_of_pos (bitValue x) hpos
      have hx := Int.emod_add_mul_ediv (bitValue x) (2 ^ (n + 1))
      have hq := Int.emod_add_mul_ediv (bitValue x / 2 ^ (n + 1)) 2
      rw [pow_succ _ (n + 1), emod_eq_sub (q := bitValue x / 2 ^ (n + 1) / 2)]
      · linear_combination -hx - 2 ^ (n + 1) * hq
      all_goals rcases Int.emod_two_eq (bitValue x / 2 ^ (n + 1)) with h | h <;> nlinarith
    rw [bitSum, ih, hbit, hmod, pow_succ', Int.mul_assoc, Int.add_mul_ediv_left _ _ (by decide),
      Int.mul_comm (2 ^ n)]

theorem two_pow_size {n : ℕ} (h : 2 ≤ n) :
    2 ≤ n.size ∧ 2 ^ (n.size - 2 + 1) ≤ n ∧ n < 2 ^ (n.size - 2 + 2) := by
  have hsize : 1 < n.size := Nat.lt_size.2 (by simpa using h)
  refine ⟨hsize, ?_, ?_⟩
  · exact Nat.lt_size.1 (by omega)
  · have := Nat.lt_size_self n
    rwa [show n.size - 2 + 2 = n.size by omega]

theorem not_three_dvd_two_pow (n : ℕ) : ¬ (3 : ℤ) ∣ 2 ^ n := by
  intro h
  have := Int.Prime.dvd_pow' Nat.prime_three h
  omega

/-- With `T` for the weight of the index where the loop starts, `3k` is between `2T` and `4T`. -/
theorem exists_start_weight {k : ℤ} (hk : k ≠ 0) :
    ∃ T : ℤ, 0 < T ∧ 2 ≤ bitwiseLength (k * 3) ∧ 2 ^ (bitwiseLength (k * 3) - 2) = T ∧
      (0 < k → 2 * T ≤ k * 3 ∧ k * 3 < 4 * T) ∧
      (k < 0 → 2 * T < -(k * 3) ∧ -(k * 3) < 4 * T) := by
  have hpow : ∀ n : ℕ, (2 : ℤ) ^ (n + 1) = 2 * 2 ^ n ∧ (2 : ℤ) ^ (n + 2) = 4 * 2 ^ n := by
    intro n
    constructor <;> ring
  refine ⟨2 ^ (bitwiseLength (k * 3) - 2), by positivity, ?_, rfl, fun hpos => ?_, fun hneg => ?_⟩
  · rw [bitwiseLength]
    split_ifs with h
    · exact (two_pow_size (by omega)).1
    · exact (two_pow_size (by omega)).1
  · rw [bitwiseLength, if_pos (by omega)]
    obtain ⟨-, hlow, hhigh⟩ := two_pow_size (n := (k * 3).toNat) (by omega)
    obtain ⟨h1, h2⟩ := hpow ((k * 3).toNat.size - 2)
    zify at hlow hhigh
    omega
  · rw [bitwiseLength, if_neg (by omega)]
    obtain ⟨-, hlow, hhigh⟩ := two_pow_size (n := (-(k * 3) - 1).toNat) (by omega)
    obtain ⟨h1, h2⟩ := hpow ((-(k * 3) - 1).toNat.size - 2)
    have hne : -(k * 3) ≠ 2 ^ ((-(k * 3) - 1).toNat.size - 2 + 2) := by
      intro h
      exact not_three_dvd_two_pow _ ⟨-k, by rw [← h]; ring⟩
    zify at hlow hhigh
    omega

/-- What the multiple exceeds `k` by, if `k` is negative. -/
def negativeOffset (k : ℤ) : ℤ :=
  if FixnumRange (k * 3) then 2 ^ (bitwiseLength (k * 3) - 2 + 1)
  else if FixnumRange k then -(k * 3) - 2 ^ (bitwiseLength (k * 3) - 2)
  else -(2 * k)

theorem loopCoeff_pos {k : ℤ} (hk : 0 < k) :
    loopCoeff (k * 3) k (bitwiseLength (k * 3) - 2) 1 = k := by
  obtain ⟨T, hT, -, hn, hpos, -⟩ := exists_start_weight hk.ne'
  have hval : ∀ x : ℤ, 0 < x → bitValue x = x := by
    intro x hx
    rw [bitValue, abs_of_pos hx, ite_self]
  have h3 : k * 3 % (T * 2) = k * 3 - 1 * (T * 2) := emod_eq_sub (by omega) (by omega)
  have h1 : k % (T * 2) = k := Int.emod_eq_of_lt hk.le (by omega)
  rw [loopCoeff_eq, bitSum_bitwiseBitSet, bitSum_bitwiseBitSet, pow_succ, hn,
    hval _ (by omega), hval _ hk, h3, h1]
  omega

/-- For a negative `k` the sign bits of fixnums are tested as well, and bignums without their
sign. -/
theorem loopCoeff_neg {k : ℤ} (hk : k < 0) :
    loopCoeff (k * 3) k (bitwiseLength (k * 3) - 2) 1 = k + negativeOffset k := by
  obtain ⟨T, hT, -, hn, -, hneg⟩ := exists_start_weight hk.ne
  have hk3 : bitValue k % (T * 2) = if FixnumRange k then k + T * 2 else -k := by
    rw [bitValue]
    split_ifs with h
    · have := emod_eq_sub (x := k) (M := T * 2) (q := -1) (by omega) (by omega)
      omega
    · rw [abs_of_neg hk]
      exact Int.emod_eq_of_lt (by omega) (by omega)
  have hh3 : bitValue (k * 3) % (T * 2) =
      if FixnumRange (k * 3) then k * 3 + 4 * T else -(k * 3) - T * 2 := by
    rw [bitValue]
    split_ifs with h
    · have := emod_eq_sub (x := k * 3) (M := T * 2) (q := -2) (by omega) (by omega)
      omega
    · rw [abs_of_neg (by omega)]
      have := emod_eq_sub (x := -(k * 3)) (M := T * 2) (q := 1) (by omega) (by omega)
      omega
  rw [loopCoeff_eq, bitSum_bitwiseBitSet, bitSum_bitwiseBitSet, pow_succ, hn, hh3, hk3,
    negativeOffset, pow_succ, hn]
  have hfix : FixnumRange (k * 3) → FixnumRange k := by
    rw [fixnumRange_iff, fixnumRange_iff]
    omega
  split_ifs with h1 h2
  · omega
  · exact absurd (hfix h1) h2
  · omega
  · omega

/-! ### The result -/

section Result

variable {K : Type} [Field K] [DecidableEq K] {W : WeierstrassCurve.Affine K} {C : Type}
  {F : FieldMethods C} {enc : K → C} {safe : W.Point → W.Point → Prop}

/-- The multiple that `ec-point-mul` computes. -/
def multiple (k : ℤ) : ℤ := if 0 < k then k else k + negativeOffset k

/-- The sums that `ec-point-mul` makes are safe. -/
def RunSafe (safe : W.Point → W.Point → Prop) (P : W.Point) (k : ℤ) : Prop :=
  LoopSafe safe P (k * 3) k (bitwiseLength (k * 3) - 2) 1

theorem runSafe_of_forall (h : ∀ P Q, safe P Q) (P : W.Point) (k : ℤ) : RunSafe safe P k := by
  have hloop : ∀ i c, LoopSafe safe P (k * 3) k i c := by
    intro i
    induction i with
    | zero => exact fun _ => trivial
    | succ i ih => exact fun c => ⟨h _ _, fun _ => h _ _, ih _⟩
  exact hloop _ _

theorem ecPointMul_eq (hF : Implements F W enc safe) {P : W.Point} (hP : P ≠ 0) {k : ℤ}
    (hk : k ≠ 0) (hsafe : RunSafe safe P k) :
    ecPointMul F (encodePoint enc P) k = .ok (encodePoint enc (multiple k • P)) := by
  obtain ⟨T, -, hlen, -, -, -⟩ := exists_start_weight hk
  have hcoeff : loopCoeff (k * 3) k (bitwiseLength (k * 3) - 2) 1 = multiple k := by
    rw [multiple]
    split_ifs with hpos
    · exact loopCoeff_pos hpos
    · exact loopCoeff_neg (by omega)
  rw [ecPointMul, hF.ecPointNegate_eq hP]
  simp only [bind, Except.bind]
  rw [if_neg (by omega)]
  have hloop := mulLoop_eq hF P (k * 3) k (bitwiseLength (k * 3) - 2) 1 hsafe
  rw [one_smul, hcoeff] at hloop
  exact hloop

/-- **When the result is `k` times the point.** -/
theorem ecPointMul_iff (hF : Implements F W enc safe) (P : W.Point) (k : ℤ)
    (hsafe : RunSafe safe P k) :
    ecPointMul F (encodePoint enc P) k = .ok (encodePoint enc (k • P)) ↔
      P ≠ 0 ∧ k ≠ 0 ∧ (k < 0 → negativeOffset k • P = 0) := by
  by_cases hP : P = 0
  · subst hP
    rw [ecPointMul, show ecPointNegate F (encodePoint enc 0) = .error .wrongType from rfl]
    simp [bind, Except.bind]
  by_cases hk : k = 0
  · subst hk
    rw [ecPointMul, hF.ecPointNegate_eq hP]
    simp only [bind, Except.bind]
    rw [if_pos (by decide)]
    cases ecPointTwice F (encodePoint enc P) <;> simp [throw, throwThe, MonadExceptOf.throw]
  rw [ecPointMul_eq hF hP hk hsafe, Except.ok.injEq, (encodePoint_injective hF.injective).eq_iff,
    multiple]
  split_ifs with hpos
  · simp only [hP, hk, ne_eq, not_false_eq_true, true_and, true_iff]
    intro hneg
    omega
  · rw [add_smul, add_eq_left]
    have hneg : k < 0 := by omega
    simp [hP, hk, hneg]

end Result

end Sagittarius.Ec
