import Sagittarius.Number.ModExpt

/-!
# Modular inverses

`Sg_ModInverse` runs the extended algorithm of Euclid on the coefficients of `x` without their
signs, and counts the sign apart.  If `x` and the modulus are bignums, `bignum_mod_inverse` runs it
with the remainder of `bignum_mod`, which keeps the sign of the dividend, and a quotient whose sign
nobody sets; otherwise the remainder is `Sg_IntegerMod`, which is never negative.

* `inverseLoop_natCast` : on numbers that are not negative both loops are `modInverseLoop`;
* `inverseLoop_opposite` : from remainders of opposite signs the loop of `bignum_mod_inverse` makes
  one round too many and ends with the modulus, since `bignum_mod` gives the divisor for a
  remainder of zero;
* `mod_inverse_signs` : **the result is the inverse** unless `x` is a negative bignum and the
  modulus a bignum.
-/

namespace Sagittarius

open Int Option

/-! ### The functions -/

/-- The loops of `Sg_ModInverse` and `bignum_mod_inverse`, with their remainder and quotient, for
at most the given number of rounds. -/
def inverseLoop (mod : ℤ → ℤ → Option ℤ) (quo : ℤ → ℤ → ℤ) :
    ℕ → ℤ → ℤ → ℤ → ℤ → Bool → Option (ℤ × Bool)
  | 0, _, _, _, _, _ => none
  | n + 1, u1, v1, u3, v3, negative =>
    if v3 = 0 then some (u1, negative)
    else do
      let t3 ← mod u3 v3
      inverseLoop mod quo n v1 (u1 + quo u3 v3 * v1) v3 t3 !negative

/-- The quotient that `bignum_gdiv` leaves in a bignum with the sign one. -/
def bignumGdivQuotient (a b : ℤ) : ℤ := (a.natAbs / b.natAbs : ℕ)

/-- The loop of `bignum_mod_inverse`. -/
def bignumInverseLoop : ℕ → ℤ → ℤ → ℤ → ℤ → Bool → Option (ℤ × Bool) :=
  inverseLoop (fun a b => some (bignumMod a b)) bignumGdivQuotient

/-- The inverse from the coefficient and the sign, as both functions return it. -/
def inverseOfCoefficient (m : ℤ) (u : ℤ × Bool) : ℤ := if u.2 then m - u.1 else u.1

/-- `Sg_ModInverse`, for at most `n` rounds of the loop.  The modulus is not checked. -/
def sgModInverse (n : ℕ) (x m : ℤ) : Option ℤ :=
  if ¬ FixnumRange x ∧ ¬ FixnumRange m then
    (bignumInverseLoop n 1 0 x m false).map (inverseOfCoefficient m)
  else (inverseLoop sgIntegerMod quotient n 1 0 x m false).map (inverseOfCoefficient m)

/-- The inverse of `x` modulo `m`. -/
def IsModInverse (x m r : ℤ) : Prop := 0 < r ∧ r < m ∧ x * r ≡ 1 [ZMOD m]

/-! ### Numbers that are not negative -/

theorem inverseLoop_natCast (mod : ℤ → ℤ → Option ℤ) (quo : ℤ → ℤ → ℤ)
    (hmod : ∀ a b : ℕ, 0 < a → 0 < b → mod a b = some ((a % b : ℕ) : ℤ))
    (hquo : ∀ a b : ℕ, 0 < a → 0 < b → quo a b = ((a / b : ℕ) : ℤ))
    (u1 v1 u3 v3 : ℕ) (negative : Bool) (hpos : 0 < u3) (n : ℕ) (hn : v3 < n) :
    inverseLoop mod quo n u1 v1 u3 v3 negative =
      some (((modInverseLoop u1 v1 u3 v3 negative).1 : ℤ),
        (modInverseLoop u1 v1 u3 v3 negative).2) := by
  induction v3 using Nat.strong_induction_on generalizing u1 v1 u3 negative n with
  | _ v3 ih =>
    obtain _ | n := n
    · omega
    unfold modInverseLoop
    by_cases h0 : v3 = 0
    · subst h0
      rfl
    · have hv3 : 0 < v3 := Nat.pos_of_ne_zero h0
      have hlt : u3 % v3 < v3 := Nat.mod_lt _ hv3
      unfold inverseLoop
      rw [if_neg (by exact_mod_cast h0), hmod _ _ hpos hv3, hquo _ _ hpos hv3, dif_neg h0]
      have h := ih (u3 % v3) hlt v1 (u1 + u3 / v3 * v1) v3 (!negative) hv3 n (by omega)
      exact_mod_cast h

theorem bignumInverseLoop_natCast {x m : ℕ} (hx : 0 < x) {n : ℕ} (hn : m < n) :
    (bignumInverseLoop n 1 0 x m false).map (inverseOfCoefficient m) =
      some (bignumModInverse x m) := by
  have h := inverseLoop_natCast (fun a b => some (bignumMod a b)) bignumGdivQuotient
    (fun a b _ hb => by
      have hb' : (0 : ℤ) < b := by exact_mod_cast hb
      rw [bignumMod_of_nonneg (natCast_nonneg a) hb', natCast_emod])
    (fun a b _ _ => by rw [bignumGdivQuotient, natAbs_natCast, natAbs_natCast])
    1 0 x m false hx n hn
  unfold bignumInverseLoop
  rw [Nat.cast_one, Nat.cast_zero] at h
  rw [h]
  rfl

theorem sgInverseLoop_eq {x : ℤ} {m : ℕ} (hm : 0 < m) {n : ℕ} (hn : m < n) :
    (inverseLoop sgIntegerMod quotient (n + 1) 1 0 x m false).map (inverseOfCoefficient m) =
      some (bignumModInverse (x % m).toNat m) := by
  have hm' : (m : ℤ) ≠ 0 := by exact_mod_cast hm.ne'
  have hr : ((x % m).toNat : ℤ) = x % m := toNat_of_nonneg (emod_nonneg x hm')
  have hlt : (x % m).toNat < m := by
    have := emod_lt_of_pos x (show (0 : ℤ) < m by exact_mod_cast hm)
    omega
  have h := inverseLoop_natCast sgIntegerMod quotient
    (fun a b _ hb => by
      rw [sgIntegerMod_eq _ (by exact_mod_cast hb.ne'), natCast_emod])
    (fun a b ha _ => by rw [quotient_of_pos (by exact_mod_cast ha), natCast_ediv])
    0 1 m (x % m).toNat true hm n (by omega)
  have hnat : modInverseLoop 1 0 (x % m).toNat m false =
      modInverseLoop 0 1 m (x % m).toNat true := by
    rw [modInverseLoop, dif_neg hm.ne', mul_zero, add_zero, Nat.mod_eq_of_lt hlt]
    rfl
  unfold inverseLoop
  rw [if_neg hm', sgIntegerMod_eq x hm', bind_eq_bind, bind_some, mul_zero,
    add_zero, Bool.not_false, bignumModInverse, hnat]
  rw [Nat.cast_one, Nat.cast_zero, hr] at h
  rw [h]
  rfl

/-! ### Remainders of opposite signs -/

theorem bignumMod_self (a : ℤ) : bignumMod a a = 0 := by
  rw [bignumMod, tmod_self, if_neg]
  rintro ⟨-, h⟩
  exact absurd h (mul_self_nonneg _).not_gt

/-- Once the remainder is zero, `bignum_mod` gives the divisor instead, and the next round divides
it by itself: by induction on the rounds. -/
theorem inverseLoop_opposite {m : ℤ} (n : ℕ) (u1 v1 u3 v3 : ℤ) (negative : Bool)
    (hopp : u3 * v3 < 0) (hdet : u1 * v3.natAbs + v1 * u3.natAbs = m)
    (hgcd : u3.natAbs.gcd v3.natAbs = 1) {u : ℤ × Bool}
    (h : bignumInverseLoop n u1 v1 u3 v3 negative = some u) : u.1 = m := by
  induction n generalizing u1 v1 u3 v3 negative with
  | zero => cases h
  | succ n ih =>
    have hv3 : v3 ≠ 0 := by
      rintro rfl
      omega
    have hstep : bignumInverseLoop n v1 (u1 + bignumGdivQuotient u3 v3 * v1) v3
        (bignumMod u3 v3) (!negative) = some u := by
      unfold bignumInverseLoop inverseLoop at h
      rwa [if_neg hv3] at h
    by_cases hr : u3.tmod v3 = 0
    · have hself : bignumMod u3 v3 = v3 := by
        rw [bignumMod, hr, if_pos ⟨rfl, by rwa [← Int.sign_mul, sign_neg_iff]⟩, add_zero]
      have hone : v3.natAbs = 1 := by
        rw [← hgcd, Nat.gcd_eq_right (natAbs_dvd_natAbs.2 (dvd_of_tmod_eq_zero hr))]
      rw [hself] at hstep
      -- two rounds are left: the division of the divisor by itself, and the end
      cases n with
      | zero => cases hstep
      | succ n =>
        unfold bignumInverseLoop inverseLoop at hstep
        rw [if_neg hv3, bind_eq_bind, bind_some, bignumMod_self] at hstep
        cases n with
        | zero => cases hstep
        | succ n =>
          unfold inverseLoop at hstep
          rw [if_pos rfl, some.injEq] at hstep
          rw [← hstep, ← hdet, bignumGdivQuotient, hone, Nat.div_one]
          ring
    · have hmod : bignumMod u3 v3 = u3.tmod v3 := by
        rw [bignumMod, if_neg fun hc => hr hc.1]
      have habs : (u3.tmod v3).natAbs = u3.natAbs % v3.natAbs := natAbs_tmod u3 v3
      rw [hmod] at hstep
      refine ih _ _ _ _ _ ?_ ?_ ?_ hstep
      · -- the remainder has the sign of the dividend
        rcases mul_neg_iff.1 hopp with ⟨hu, hv⟩ | ⟨hu, hv⟩
        · exact mul_neg_of_neg_of_pos hv
            (lt_of_le_of_ne (tmod_nonneg v3 hu.le) (Ne.symm hr))
        · have hle : u3.tmod v3 ≤ 0 := by
            have := tmod_nonneg v3 (neg_nonneg.2 hu.le)
            rw [neg_tmod] at this
            omega
          exact mul_neg_of_pos_of_neg hv (lt_of_le_of_ne hle hr)
      · rw [habs, bignumGdivQuotient, ← hdet]
        have hdiv : (u3.natAbs : ℤ) =
            (u3.natAbs % v3.natAbs : ℕ) + v3.natAbs * (u3.natAbs / v3.natAbs : ℕ) := by
          exact_mod_cast (Nat.mod_add_div u3.natAbs v3.natAbs).symm
        rw [hdiv]
        ring
      · rw [habs, Nat.gcd_comm, ← Nat.gcd_rec, Nat.gcd_comm]
        exact hgcd

/-! ### The inverse -/

theorem IsModInverse.unique {x m r r' : ℤ} (h : IsModInverse x m r) (h' : IsModInverse x m r') :
    r' = r := by
  obtain ⟨hpos, hlt, hmul⟩ := h
  obtain ⟨hpos', hlt', hmul'⟩ := h'
  have hmod : r' ≡ r [ZMOD m] := calc
    r' = 1 * r' := (one_mul _).symm
    _ ≡ x * r * r' [ZMOD m] := (hmul.mul_right r').symm
    _ = x * r' * r := by ring
    _ ≡ 1 * r [ZMOD m] := hmul'.mul_right r
    _ = r := one_mul _
  rwa [Int.ModEq, emod_eq_of_lt hpos'.le hlt', emod_eq_of_lt hpos.le hlt] at hmod

theorem isModInverse_bignumModInverse {x m : ℕ} (hm : 1 < m) (hx : 0 < x) (hgcd : x.gcd m = 1) :
    IsModInverse x m (bignumModInverse x m) := by
  obtain ⟨h0, hle, hmul⟩ := bignumModInverse_spec hx (by omega) hgcd
  -- neither zero nor the modulus is an inverse
  have hne : ∀ r : ℤ, (m : ℤ) ∣ r → ¬ x * r ≡ 1 [ZMOD m] := by
    intro r hr hc
    have hdvd := (modEq_zero_iff_dvd.2 (hr.mul_left x)).symm.trans hc
    have hone := le_of_dvd one_pos (modEq_zero_iff_dvd.1 hdvd.symm)
    omega
  refine ⟨lt_of_le_of_ne h0 ?_, lt_of_le_of_ne hle ?_, hmul⟩
  · intro hc
    exact hne _ (hc ▸ dvd_zero _) hmul
  · intro hc
    exact hne _ (hc ▸ dvd_rfl) hmul

/-- **`Sg_ModInverse` of coprime numbers.**  The loop ends, and the result is the inverse, unless
`x` is a negative bignum and the modulus a bignum. -/
theorem mod_inverse_signs (x m : ℤ) (hm : 1 < m) (hgcd : x.gcd m = 1) :
    (∃ r, (∃ n, ∀ k, n ≤ k → sgModInverse k x m = some r) ∧ IsModInverse x m r ∧
        ∀ r', IsModInverse x m r' → r' = r) ↔
      0 ≤ x ∨ FixnumRange x ∨ FixnumRange m := by
  obtain ⟨m, rfl⟩ : ∃ k : ℕ, m = k := ⟨m.toNat, by omega⟩
  have hm1 : 1 < m := by exact_mod_cast hm
  constructor
  · rintro ⟨r, ⟨n, hn⟩, ⟨hpos, hlt, -⟩, -⟩
    by_contra hc
    simp only [not_or, not_le] at hc
    obtain ⟨hneg, hx, hm'⟩ := hc
    have h := hn n le_rfl
    rw [sgModInverse, if_pos ⟨hx, hm'⟩, map_eq_some_iff] at h
    obtain ⟨u, hu, hr⟩ := h
    have hum : u.1 = m := inverseLoop_opposite n 1 0 x m false
      (mul_neg_of_neg_of_pos hneg (by omega)) (by simp) hgcd hu
    rw [inverseOfCoefficient, hum] at hr
    split_ifs at hr <;> omega
  · intro h
    by_cases hbig : ¬ FixnumRange x ∧ ¬ FixnumRange (m : ℤ)
    · have hx : 0 ≤ x := h.resolve_right (not_or.2 hbig)
      obtain ⟨x, rfl⟩ := eq_ofNat_of_zero_le hx
      have hx0 : 0 < x := by
        refine Nat.pos_of_ne_zero ?_
        rintro rfl
        exact hbig.1 (by decide)
      have hinv := isModInverse_bignumModInverse hm1 hx0 (by exact_mod_cast hgcd)
      refine ⟨bignumModInverse x m, ⟨m + 1, ?_⟩, hinv, fun r' h' => hinv.unique h'⟩
      intro k hk
      rw [sgModInverse, if_pos hbig]
      exact bignumInverseLoop_natCast hx0 (by omega)
    · have hm0 : (m : ℤ) ≠ 0 := by omega
      have hr : ((x % m).toNat : ℤ) = x % m := toNat_of_nonneg (emod_nonneg x hm0)
      have hgcd' : (x % m).toNat.gcd m = 1 := by
        have hc : (x % m).gcd m = 1 := by rw [gcd_emod, hgcd]
        rw [← hr] at hc
        exact_mod_cast hc
      have hx0 : 0 < (x % m).toNat := by
        refine Nat.pos_of_ne_zero ?_
        intro hc
        rw [hc, Nat.gcd_zero_left] at hgcd'
        omega
      have hinv : IsModInverse x m (bignumModInverse (x % m).toNat m) := by
        obtain ⟨h0, hlt, hmul⟩ := isModInverse_bignumModInverse hm1 hx0 hgcd'
        rw [hr] at hmul
        exact ⟨h0, hlt, (((mod_modEq x m).mul_right _).symm).trans hmul⟩
      refine ⟨_, ⟨m + 2, ?_⟩, hinv, fun r' h' => hinv.unique h'⟩
      intro k hk
      obtain _ | k := k
      · omega
      rw [sgModInverse, if_neg hbig]
      exact sgInverseLoop_eq (by omega) (by omega)

theorem mod_inverse_signs_fixnum :
    (∃ r, (∃ n, ∀ k, n ≤ k → sgModInverse k (-3) 7 = some r) ∧ IsModInverse (-3) 7 r ∧
        ∀ r', IsModInverse (-3) 7 r' → r' = r) ↔
      (0 : ℤ) ≤ -3 ∨ FixnumRange (-3) ∨ FixnumRange 7 :=
  mod_inverse_signs (-3) 7 (by decide) (by decide)

/-- `-2 ^ 64` modulo `2 ^ 64 + 1` is one, and so is its inverse; the result is the modulus. -/
theorem mod_inverse_negative_bignum :
    sgModInverse 5 (-2 ^ 64) (2 ^ 64 + 1) = some (2 ^ 64 + 1) ∧
      ¬ IsModInverse (-2 ^ 64) (2 ^ 64 + 1) (2 ^ 64 + 1) ∧
      IsModInverse (-2 ^ 64) (2 ^ 64 + 1) 1 := by
  refine ⟨by decide +kernel, fun h => absurd h.2.1 (by decide), by decide, by decide, ?_⟩
  exact modEq_iff_dvd.2 ⟨1, by decide⟩

end Sagittarius
