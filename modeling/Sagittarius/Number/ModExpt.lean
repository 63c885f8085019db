import Sagittarius.Number.ModTwoPower

/-!
# Modular exponentiation

`Sg_ModExpt` for exponents that are not negative.  If the exponent and the modulus are fixnums, it
squares and multiplies; otherwise `bignum_mod_expt` works modulo an odd number with `odd_mod_expt`
and modulo a power of two with `bignum_mod_expt2`, and combines the two residues.

The exponentiation in the representation of Montgomery is a parameter, and for a positive base it
is assumed that `bignum_mod_expt2` is right on the reduced base (`TwoPartRight`).  A negative base
is not reduced: `bignum_mod` keeps its sign.  With an even exponent the sign does not matter, but a
word of the base may be lost; with an odd exponent `odd_mod_expt` loses the sign.

* `smallModExpt_eq`, `bignumModInverse_spec` : the loop on fixnums, and the inverses;
* `bignumModExpt_right` : `bignum_mod_expt` of a positive base or an even exponent;
* `mod_expt_dispatch` : **the result is right** on the path for fixnums but for `x ^ 0` modulo one,
  on the other path if `x` is positive or the exponent even and no word is lost, and in some more
  cases (`ModExptGood`).  In all other cases it is wrong, but where `x` is below `-1`, the modulus
  even and the exponent odd or a word lost, of which nothing is said (`ModExptOpen`).
-/

namespace Sagittarius

open Int

/-! ### The functions -/

/-- `BIGNUM_ONEP`, which does not look at the sign. -/
def bignumOnep (bn : ℤ) : Prop := bn.natAbs = 1

instance (bn : ℤ) : Decidable (bignumOnep bn) := inferInstanceAs (Decidable (_ = _))

/-- The remainder, corrected only if it is zero. -/
def bignumMod (a b : ℤ) : ℤ :=
  let r := a.tmod b
  if r = 0 ∧ a.sign * b.sign < 0 then b + r else r

/-- The loop of `bignum_mod_inverse`, on numbers that are not negative; the second result says that
the sign is negative. -/
def modInverseLoop (u1 v1 u3 v3 : ℕ) (negative : Bool) : ℕ × Bool :=
  if _h : v3 = 0 then (u1, negative)
  else modInverseLoop v1 (u1 + u3 / v3 * v1) v3 (u3 % v3) !negative
termination_by v3
decreasing_by exact Nat.mod_lt _ (Nat.pos_of_ne_zero _h)

/-- The inverse by Euclid's algorithm. -/
def bignumModInverse (x m : ℕ) : ℤ :=
  let (u1, negative) := modInverseLoop 1 0 x m false
  if negative then m - u1 else u1

section

variable (montgomery : ℕ → ℕ → ℕ → ℕ)

/-- `odd_mod_expt`.  The conversion to the representation of Montgomery reduces the magnitude. -/
def oddModExpt (x : ℤ) (exp mod : ℕ) : ℤ :=
  if exp = 1 then x
  else if x = 0 then x
  else montgomery (x.natAbs % mod) exp mod

/-- Splits an even modulus. -/
def bignumModExpt (bx : ℤ) (be bm : ℕ) : ℤ :=
  let base := if bx < 0 ∨ (bm : ℤ) ≤ bx then bignumMod bx bm else bx
  if bm % 2 = 1 then oddModExpt montgomery base be bm
  else
    let p := padicValNat 2 bm
    let m1 := bm >>> p
    let m2 := 1 <<< p
    let base2 := if bx.sign ≠ 0 ∨ (m1 : ℤ) ≤ bx then bignumMod bx m1 else bx
    let a1 := if m1 = 1 then 0 else oddModExpt montgomery base2 be m1
    let a2 := bignumModExpt2 base be p
    let y1 := bignumModInverse m2 m1
    let y2 := bignumModInverse m1 m2
    bignumMod (a1 * m2 * y1 + a2 * m1 * y2) bm

/-- Treats the trivial operands. -/
def sgBignumModExpt (bx : ℤ) (be bm : ℕ) : ℤ :=
  if be = 0 then if bm = 1 then 0 else 1
  else if bignumOnep bx then if bm = 1 then 0 else 1
  else if bx = 0 then if bm = 1 then 0 else 1
  else bignumModExpt montgomery bx be bm

/-- The loop on fixnum exponents. -/
def smallModExpt (m : ℤ) (n : ℕ) (x y : ℤ) : ℤ :=
  if _h : n = 0 then y
  else
    let y := if n % 2 = 1 then (sgIntegerMod (y * x) m).getD 0 else y
    let x := if n / 2 = 0 then x else (sgIntegerMod (x * x) m).getD 0
    smallModExpt m (n / 2) x y
termination_by n
decreasing_by exact Nat.div_lt_self (Nat.pos_of_ne_zero _h) (by decide)

/-- The power modulo `m`. -/
def sgModExpt (x : ℤ) (e m : ℕ) : ℤ :=
  if FixnumRange e ∧ FixnumRange m then smallModExpt m e x 1
  else sgBignumModExpt montgomery x e m

end

/-! ### The loop on fixnum exponents -/

theorem smallModExpt_eq {m : ℤ} (hm : m ≠ 0) (n : ℕ) (x y : ℤ) :
    smallModExpt m n x y = if n = 0 then y else y * x ^ n % m := by
  induction n using Nat.strong_induction_on generalizing x y with
  | _ n ih =>
    rw [smallModExpt]
    by_cases h0 : n = 0
    · rw [dif_pos h0, if_pos h0]
    rw [dif_neg h0, if_neg h0]
    simp only [sgIntegerMod_eq _ hm, Option.getD_some]
    rw [ih (n / 2) (Nat.div_lt_self (Nat.pos_of_ne_zero h0) (by decide))]
    by_cases hn : n / 2 = 0
    · rw [if_pos hn, if_pos (by omega), show n = 1 by omega, pow_one]
    rw [if_neg hn, if_neg hn]
    have hy : (if n % 2 = 1 then y * x % m else y) ≡ y * x ^ (n % 2) [ZMOD m] := by
      rcases Nat.mod_two_eq_zero_or_one n with h | h
      · rw [if_neg (by omega), h, pow_zero, mul_one]
      · rw [if_pos h, h, pow_one]
        exact mod_modEq _ _
    have hx : x * x % m ≡ x ^ 2 [ZMOD m] := by
      rw [sq]
      exact mod_modEq _ _
    have h := hy.mul (hx.pow (n / 2))
    rw [mul_assoc, ← pow_mul, ← pow_add, Nat.mod_add_div] at h
    exact h

/-! ### Inverses -/

theorem modInverseLoop_spec (x m : ℕ) (u1 v1 u3 v3 : ℕ) (negative : Bool) (hle : u1 ≤ m)
    (hpos : 0 < u3) (hdet : u1 * v3 + v1 * u3 = m) (hgcd : u3.gcd v3 = 1)
    (hu : (if negative then -(u1 : ℤ) else u1) * x ≡ u3 [ZMOD m])
    (hv : (if negative then (v1 : ℤ) else -v1) * x ≡ v3 [ZMOD m]) :
    ∃ u n, modInverseLoop u1 v1 u3 v3 negative = (u, n) ∧ u ≤ m ∧
      (if n then -(u : ℤ) else u) * x ≡ 1 [ZMOD m] := by
  induction v3 using Nat.strong_induction_on generalizing u1 v1 u3 negative with
  | _ v3 ih =>
    rw [modInverseLoop]
    split_ifs with h0
    · refine ⟨u1, negative, rfl, hle, ?_⟩
      rw [h0, Nat.gcd_zero_right] at hgcd
      rw [hgcd] at hu
      exact_mod_cast hu
    have hrem : ((u3 % v3 : ℕ) : ℤ) = u3 - (u3 / v3 : ℕ) * v3 := by
      have := Nat.mod_add_div u3 v3
      zify at this ⊢
      linarith
    refine ih (u3 % v3) (Nat.mod_lt _ (Nat.pos_of_ne_zero h0)) v1 (u1 + u3 / v3 * v1) v3 (!negative)
      ?_ (Nat.pos_of_ne_zero h0) ?_ ?_ ?_ ?_
    · have := Nat.le_mul_of_pos_right v1 hpos
      omega
    · calc v1 * (u3 % v3) + (u1 + u3 / v3 * v1) * v3
          = u1 * v3 + v1 * (u3 % v3 + v3 * (u3 / v3)) := by ring
        _ = m := by rw [Nat.mod_add_div, hdet]
    · rw [Nat.gcd_comm, ← Nat.gcd_rec, Nat.gcd_comm]
      exact hgcd
    · cases negative <;> exact hv
    · rw [hrem]
      have h := hu.sub (hv.mul_left (u3 / v3 : ℕ))
      convert h using 1
      cases negative
      · simp only [Bool.not_false, if_true, Bool.false_eq_true, if_false]
        push_cast
        ring
      · simp only [Bool.not_true, if_true, Bool.false_eq_true, if_false]
        push_cast
        ring

theorem bignumModInverse_spec {x m : ℕ} (hx : 0 < x) (hm : 0 < m) (h : x.gcd m = 1) :
    0 ≤ bignumModInverse x m ∧ bignumModInverse x m ≤ m ∧
      x * bignumModInverse x m ≡ 1 [ZMOD m] := by
  obtain ⟨u, n, heq, hle, hmod⟩ := modInverseLoop_spec x m 1 0 x m false hm hx (by ring) h
    (by simp) (by simpa using (modEq_zero_iff_dvd.2 dvd_rfl).symm)
  rw [bignumModInverse, heq]
  cases n with
  | false =>
    simp only [Bool.false_eq_true, if_false] at hmod ⊢
    exact ⟨by positivity, by exact_mod_cast hle, by rwa [mul_comm]⟩
  | true =>
    simp only [if_true] at hmod ⊢
    refine ⟨by omega, by omega, Int.ModEq.trans (modEq_iff_dvd.2 ⟨-x, ?_⟩) hmod⟩
    ring

/-! ### The path for bignums -/

theorem bignumMod_of_nonneg {a b : ℤ} (ha : 0 ≤ a) (hb : 0 < b) : bignumMod a b = a % b := by
  rw [bignumMod, tmod_eq_emod_of_nonneg ha, if_neg]
  rintro ⟨-, h⟩
  rw [sign_eq_one_of_pos hb, mul_one, sign_neg_iff] at h
  omega

theorem bignumMod_of_neg {a b : ℤ} (ha : a < 0) (hb : 0 < b) :
    bignumMod a b = if b ∣ a then b else -(-a % b) := by
  rw [bignumMod, show a.tmod b = -((-a).tmod b) by rw [neg_tmod, neg_neg],
    tmod_eq_emod_of_nonneg (by omega)]
  simp only [sign_eq_neg_one_of_neg ha, sign_eq_one_of_pos hb, neg_eq_zero,
    ← dvd_iff_emod_eq_zero, Int.dvd_neg]
  split_ifs with h1 h2 h2
  · rw [emod_eq_zero_of_dvd (by rwa [Int.dvd_neg])]
    ring
  · exact absurd h1.1 h2
  · exact absurd ⟨h2, by decide⟩ h1
  · rfl

theorem bignumMod_modEq (a b : ℤ) : bignumMod a b ≡ a [ZMOD b] := by
  have h : a.tmod b ≡ a [ZMOD b] :=
    modEq_iff_dvd.2 ⟨a.tdiv b, by have := mul_tdiv_add_tmod a b; omega⟩
  rw [bignumMod]
  split_ifs
  · exact Int.ModEq.trans (modEq_iff_dvd.2 ⟨-1, by ring⟩) h
  · exact h

section

variable {montgomery : ℕ → ℕ → ℕ → ℕ}

/-- The exponentiation modulo odd numbers is right on reduced numbers. -/
def MontgomeryRight (montgomery : ℕ → ℕ → ℕ → ℕ) : Prop :=
  ∀ b e m : ℕ, m % 2 = 1 → b < m → 2 ≤ e → montgomery b e m = b ^ e % m

variable {e m : ℕ}

theorem oddModExpt_eq (hmont : MontgomeryRight montgomery) (x : ℤ) (hm : m % 2 = 1) (he : 2 ≤ e) :
    oddModExpt montgomery x e m = |x| ^ e % m := by
  rw [oddModExpt, if_neg (by omega)]
  split_ifs with h0
  · rw [h0, abs_zero, zero_pow (by omega), zero_emod]
  · rw [hmont _ _ _ hm (Nat.mod_lt _ (by omega)) he, ← Nat.pow_mod]
    push_cast
    rfl

theorem chinese_remainder {m1 m2 : ℕ} (h1 : 0 < m1) (h2 : 0 < m2) (hcop : m1.gcd m2 = 1)
    {a1 a2 r : ℤ} (ha1 : a1 ≡ r [ZMOD m1]) (ha2 : a2 ≡ r [ZMOD m2]) :
    a1 * m2 * bignumModInverse m2 m1 + a2 * m1 * bignumModInverse m1 m2 ≡ r
      [ZMOD (m1 * m2 : ℕ)] := by
  obtain ⟨-, -, hy1⟩ := bignumModInverse_spec h2 h1 (by rwa [Nat.gcd_comm])
  obtain ⟨-, -, hy2⟩ := bignumModInverse_spec h1 h2 hcop
  rw [Nat.cast_mul]
  refine (modEq_and_modEq_iff_modEq_mul ?_).1 ⟨?_, ?_⟩
  · simpa [natAbs_natCast] using hcop
  · have hzero : a2 * m1 * bignumModInverse m1 m2 ≡ 0 [ZMOD m1] :=
      modEq_zero_iff_dvd.2 ⟨a2 * bignumModInverse m1 m2, by ring⟩
    have h := (hy1.mul_left a1).add hzero
    rw [mul_one, add_zero, ← mul_assoc] at h
    exact h.trans ha1
  · have hzero : a1 * m2 * bignumModInverse m2 m1 ≡ 0 [ZMOD m2] :=
      modEq_zero_iff_dvd.2 ⟨a1 * bignumModInverse m2 m1, by ring⟩
    have h := hzero.add (hy2.mul_left a2)
    rw [mul_one, zero_add, ← mul_assoc] at h
    exact h.trans ha2

variable {x : ℤ}

theorem bignumModExpt2_base (hx : x ≠ 0) (hm : 0 < m) (hmeven : m % 2 = 0) (h : 0 < x ∨ Even e)
    {p : ℕ} (hp : 0 < p) (hpow : 2 ^ p ∣ m) :
    bignumModExpt2 (if x < 0 ∨ (m : ℤ) ≤ x then bignumMod x m else x) e p =
      bignumModExpt2 (|x| % m) e p := by
  have hpos : (0 : ℤ) < m := by omega
  rcases lt_or_gt_of_ne hx with hneg | hx0
  · rw [if_pos (.inl hneg), bignumMod_of_neg hneg hpos, abs_of_neg hneg]
    split_ifs with hdvd
    · -- the base is the modulus itself, which is reduced to zero
      have hmod2 : bignumMod2 m p = bignumMod2 0 p := by
        have hword : 2 ^ (p - 64) ∣ m := (pow_dvd_pow 2 (Nat.sub_le p 64)).trans hpow
        rw [← Nat.cast_zero, bignumMod2_natCast m hp, bignumMod2_natCast 0 hp]
        simp [Nat.mod_eq_zero_of_dvd hword, Nat.mod_eq_zero_of_dvd hpow]
      have hlimit : expLimit m e p = expLimit 0 e p := by
        rw [expLimit, expLimit, if_neg (by omega), if_neg (by decide)]
      rw [emod_eq_zero_of_dvd (Int.dvd_neg.2 hdvd), bignumModExpt2, bignumModExpt2, hmod2, hlimit]
    · exact bignumModExpt2_neg (h.resolve_left hneg.not_gt) _
  · rw [abs_of_pos hx0]
    split_ifs with hc
    · rw [bignumMod_of_nonneg hx0.le hpos]
    · rw [emod_eq_of_lt hx0.le (by omega)]

section

variable (hmont : MontgomeryRight montgomery)

include hmont

theorem oddModExpt_right {b : ℤ} (he : e ≠ 0) (hm : m % 2 = 1) (h : 0 < x ∨ Even e)
    (hb : b ≡ x [ZMOD m]) (hpos : 0 < x → b = x % m) : oddModExpt montgomery b e m = x ^ e % m := by
  by_cases he1 : e = 1
  · subst he1
    rw [oddModExpt, if_pos rfl, hpos (h.resolve_right (by decide)), pow_one]
  · have habs : |b| ^ e = b ^ e := by
      rcases h with h | h
      · rw [abs_of_nonneg]
        rw [hpos h]
        exact emod_nonneg _ (by omega)
      · exact h.pow_abs b
    rw [oddModExpt_eq hmont b hm (by omega), habs]
    exact hb.pow e

/-- **`bignum_mod_expt`** for a positive base, or a negative base and an even exponent, if the part
modulo a power of two is right. -/
theorem bignumModExpt_right (hx : x ≠ 0) (he : e ≠ 0) (hm : 0 < m) (h : 0 < x ∨ Even e)
    (htwo : Even m → bignumModExpt2 (|x| % m) e (padicValNat 2 m) =
      (|x| % m) ^ e % 2 ^ padicValNat 2 m) :
    bignumModExpt montgomery x e m = x ^ e % m := by
  obtain ⟨base, hbase⟩ : ∃ b, (if x < 0 ∨ (m : ℤ) ≤ x then bignumMod x m else x) = b := ⟨_, rfl⟩
  have hmod : base ≡ x [ZMOD m] := by
    rw [← hbase]
    split_ifs
    · exact bignumMod_modEq _ _
    · rfl
  have hpos : 0 < x → base = x % m := by
    intro hx0
    rw [← hbase]
    split_ifs with hc
    · exact bignumMod_of_nonneg hx0.le (by omega)
    · exact (emod_eq_of_lt hx0.le (by omega)).symm
  rw [bignumModExpt, hbase]
  split_ifs with hodd
  · exact oddModExpt_right hmont he hodd h hmod hpos
  simp only
  -- the odd part and the power of two
  have hp : 0 < padicValNat 2 m :=
    Nat.pos_of_ne_zero ((dvd_iff_padicValNat_ne_zero hm.ne').1 (by omega))
  obtain ⟨hm1odd, hm1pos, -⟩ := shiftRight_padicValNat hm.ne'
  generalize hpe : padicValNat 2 m = p at *
  generalize hm1e : m >>> p = m1 at *
  have hm2 : 1 <<< p = 2 ^ p := Nat.one_shiftLeft p
  have hprod : m1 * 2 ^ p = m := by
    rw [← hm1e, Nat.shiftRight_eq_div_pow, Nat.div_mul_cancel (hpe ▸ pow_padicValNat_dvd)]
  have hcop : m1.gcd (2 ^ p) = 1 := (Nat.coprime_two_right.2 hm1odd).pow_right p
  have hsign : x.sign ≠ 0 := mt sign_eq_zero_iff_zero.1 hx
  have ha1 : (if m1 = 1 then 0 else oddModExpt montgomery
      (if x.sign ≠ 0 ∨ (m1 : ℤ) ≤ x then bignumMod x m1 else x) e m1) = x ^ e % m1 := by
    rw [if_pos (Or.inl hsign)]
    split_ifs with h1
    · rw [h1, Nat.cast_one, emod_one]
    · exact oddModExpt_right hmont he (Nat.odd_iff.1 hm1odd) h (bignumMod_modEq _ _)
        fun hx0 => bignumMod_of_nonneg hx0.le (by omega)
  have hpow : 2 ^ p ∣ m := ⟨m1, by rw [mul_comm, hprod]⟩
  have ha2 : bignumModExpt2 base e p = (|x| % m) ^ e % 2 ^ p := by
    rw [← hbase, bignumModExpt2_base hx hm (by omega) h hp hpow]
    exact htwo (Nat.even_iff.2 (by omega))
  have habs : |x| ^ e = x ^ e := h.elim (fun hx0 => by rw [abs_of_pos hx0]) fun he => he.pow_abs x
  have hres : x ^ e % m1 * (2 ^ p : ℕ) * bignumModInverse (2 ^ p) m1 +
      (|x| % m) ^ e % 2 ^ p * m1 * bignumModInverse m1 (2 ^ p) ≡ x ^ e [ZMOD m] := by
    have h1 : x ^ e % m1 ≡ x ^ e [ZMOD m1] := mod_modEq _ _
    have h2 : (|x| % m) ^ e % 2 ^ p ≡ x ^ e [ZMOD (2 ^ p : ℕ)] := by
      have hmodp : |x| % m ≡ |x| [ZMOD (2 ^ p : ℕ)] :=
        (mod_modEq _ _).of_dvd (by exact_mod_cast hpow)
      rw [← habs]
      exact (mod_modEq _ _).trans (hmodp.pow e)
    have hc := chinese_remainder hm1pos (by positivity) hcop h1 h2
    rwa [hprod] at hc
  obtain ⟨hy1, -⟩ := bignumModInverse_spec (by positivity : 0 < 2 ^ p) hm1pos
    (by rwa [Nat.gcd_comm])
  obtain ⟨hy2, -⟩ := bignumModInverse_spec hm1pos (by positivity : 0 < 2 ^ p) hcop
  rw [ha1, ha2, hm2, bignumMod_of_nonneg _ (by omega)]
  · exact hres
  · have h1 := emod_nonneg (x ^ e) (show (m1 : ℤ) ≠ 0 by omega)
    have h2 := emod_nonneg ((|x| % m) ^ e) (show (2 ^ p : ℤ) ≠ 0 by positivity)
    positivity

theorem bignumModExpt_odd_iff (hx : x < 0) (he : Odd e) (hm : m % 2 = 1) :
    bignumModExpt montgomery x e m = x ^ e % m ↔ e ≠ 1 ∧ (m : ℤ) ∣ x ^ e := by
  have hpos : (0 : ℤ) < m := by omega
  have hneg := bignumMod_of_neg hx hpos
  rw [bignumModExpt, if_pos (Or.inl hx), if_pos hm]
  by_cases he1 : e = 1
  · subst he1
    rw [oddModExpt, if_pos rfl, pow_one, hneg]
    split_ifs with hdvd
    · omega
    · have h1 := emod_nonneg (-x) hpos.ne'
      omega
  · have habs : |bignumMod x m| ≡ -x [ZMOD m] := by
      rw [hneg]
      split_ifs with hdvd
      · rw [Nat.abs_cast]
        exact (modEq_zero_iff_dvd.2 dvd_rfl).trans
          (modEq_zero_iff_dvd.2 (Int.dvd_neg.2 hdvd)).symm
      · rw [abs_neg, abs_of_nonneg (emod_nonneg _ hpos.ne')]
        exact mod_modEq _ _
    have hpow : |bignumMod x m| ^ e ≡ -x ^ e [ZMOD m] := by
      rw [← he.neg_pow]
      exact habs.pow e
    rw [oddModExpt_eq hmont _ hm (by have := he.pos; omega)]
    constructor
    · intro h
      refine ⟨he1, ?_⟩
      have htwo : (m : ℤ) ∣ 2 * x ^ e := by
        have := (hpow.symm.trans h).dvd
        rwa [sub_neg_eq_add, ← two_mul] at this
      have hcop : IsCoprime (m : ℤ) 2 :=
        Nat.isCoprime_iff_coprime.2 (Nat.coprime_two_right.2 (Nat.odd_iff.2 hm))
      exact hcop.dvd_of_dvd_mul_left htwo
    · rintro ⟨-, h⟩
      have hz : x ^ e ≡ 0 [ZMOD m] := modEq_zero_iff_dvd.2 h
      exact hpow.trans ((hz.neg.trans (by rw [neg_zero])).trans hz.symm)

end

/-! ### The dispatch -/

/-- The residue of the power. -/
def IsPowResidue (x : ℤ) (e m : ℕ) (r : ℤ) : Prop := 0 ≤ r ∧ r < m ∧ r ≡ x ^ e [ZMOD m]

theorem isPowResidue_iff {r : ℤ} (hm : 0 < m) : IsPowResidue x e m r ↔ r = x ^ e % m := by
  have hpos : (0 : ℤ) < m := by omega
  constructor
  · rintro ⟨h0, hlt, h⟩
    rw [← h, emod_eq_of_lt h0 hlt]
  · rintro rfl
    exact ⟨emod_nonneg _ hpos.ne', emod_lt_of_pos _ hpos, mod_modEq _ _⟩

/-- The path for bignums is taken. -/
def BignumPath (e m : ℕ) : Prop := ¬ (FixnumRange e ∧ FixnumRange m)

instance (e m : ℕ) : Decidable (BignumPath e m) := inferInstanceAs (Decidable (¬ _))

/-- `bignum_mod_expt2` is right for a positive base, on which it gets reduced arguments. -/
def TwoPartRight (x : ℤ) (e m : ℕ) : Prop :=
  0 < x → Even m →
    bignumModExpt2 (x % m) e (padicValNat 2 m) = (x % m) ^ e % 2 ^ padicValNat 2 m

/-- For an even modulus, no word of the magnitude and its powers is lost. -/
def TwoPartKeeps (x : ℤ) (e m : ℕ) : Prop :=
  Even m → KeepsPower (x.natAbs % m) e (padicValNat 2 m)

/-- Arguments on which the path for bignums is right. -/
def BignumPathGood (x : ℤ) (e m : ℕ) : Prop :=
  0 < x ∨ e = 0 ∨ (x = 0 ∧ m = 1) ∨ (x = -1 ∧ (Even e ∨ m ≤ 2)) ∨
    (x ≤ -2 ∧ Even e ∧ TwoPartKeeps x e m) ∨ (x ≤ -2 ∧ Odd m ∧ e ≠ 1 ∧ (m : ℤ) ∣ x ^ e)

/-- Arguments on which the result is right. -/
def ModExptGood (x : ℤ) (e m : ℕ) : Prop :=
  if BignumPath e m then BignumPathGood x e m else ¬ (e = 0 ∧ m = 1)

/-- The modulus is even, and the sign is lost in both of its parts or a word in one of them; what
is lost may come back in the sum. -/
def ModExptOpen (x : ℤ) (e m : ℕ) : Prop :=
  BignumPath e m ∧ x ≤ -2 ∧ Even m ∧ (Odd e ∨ ¬ TwoPartKeeps x e m)

theorem smallModExpt_one_iff (hm : 0 < m) :
    smallModExpt m e x 1 = x ^ e % m ↔ ¬ (e = 0 ∧ m = 1) := by
  rw [smallModExpt_eq (by omega), one_mul]
  split_ifs with h
  · subst h
    by_cases h1 : m = 1
    · simp [h1]
    · rw [pow_zero, emod_eq_of_lt (by decide) (by omega)]
      simp [h1]
  · simp [h]

theorem one_emod (m : ℕ) (hm : 0 < m) : (1 : ℤ) % m = if m = 1 then 0 else 1 := by
  split_ifs with h
  · rw [h, Nat.cast_one, emod_one]
  · exact emod_eq_of_lt (by decide) (by omega)

theorem neg_one_emod_eq_iff (hm : 0 < m) : (1 : ℤ) % m = -1 % m ↔ m ≤ 2 := by
  constructor
  · intro h
    have hdvd : (m : ℤ) ∣ 1 - -1 := (Int.ModEq.symm h).dvd
    have := le_of_dvd (by decide) hdvd
    omega
  · intro h
    interval_cases m <;> decide

theorem sgBignumModExpt_of_one_lt (he : e ≠ 0) (hx : 1 < x.natAbs) :
    sgBignumModExpt montgomery x e m = bignumModExpt montgomery x e m := by
  have hone : ¬ bignumOnep x := by
    rw [bignumOnep]
    omega
  rw [sgBignumModExpt, if_neg he, if_neg hone, if_neg (by omega)]

theorem sgBignumModExpt_of_one (hm : 0 < m) (he : e = 0 ∨ x.natAbs = 1) :
    sgBignumModExpt montgomery x e m = 1 % m := by
  rw [sgBignumModExpt, one_emod m hm]
  by_cases h : e = 0
  · rw [if_pos h]
  · rw [if_neg h, if_pos]
    exact he.resolve_left h

theorem twoPart_eq (htwo : TwoPartRight x e m) (hm : 0 < m) (h : 0 < x ∨ TwoPartKeeps x e m)
    (hmeven : Even m) :
    bignumModExpt2 (|x| % m) e (padicValNat 2 m) = (|x| % m) ^ e % 2 ^ padicValNat 2 m := by
  rcases h with hx | hkeeps
  · rw [abs_of_pos hx]
    exact htwo hx hmeven
  · have hp : 0 < padicValNat 2 m :=
      Nat.pos_of_ne_zero ((dvd_iff_padicValNat_ne_zero hm.ne').1 hmeven.two_dvd)
    have hcast : |x| % m = (x.natAbs % m : ℕ) := by
      push_cast
      rfl
    rw [hcast]
    exact bignumModExpt2_of_keeps hp (hkeeps hmeven)

theorem sgBignumModExpt_iff (hmont : MontgomeryRight montgomery) (htwo : TwoPartRight x e m)
    (hm : 0 < m) (hopen : ¬ (x ≤ -2 ∧ Even m ∧ (Odd e ∨ ¬ TwoPartKeeps x e m))) :
    sgBignumModExpt montgomery x e m = x ^ e % m ↔ BignumPathGood x e m := by
  rw [BignumPathGood]
  by_cases he : e = 0
  · rw [sgBignumModExpt_of_one hm (.inl he), he, pow_zero]
    simp
  by_cases h0 : x = 0
  · rw [sgBignumModExpt, if_neg he, if_neg (by rw [h0]; decide), if_pos h0, h0, zero_pow he,
      zero_emod]
    simp [he]
  by_cases h1 : x.natAbs = 1
  · rw [sgBignumModExpt_of_one hm (.inr h1)]
    rcases natAbs_eq_iff.1 h1 with rfl | rfl
    · rw [Nat.cast_one, one_pow]
      simp
    · rw [Nat.cast_one]
      rcases e.even_or_odd with heven | hodd
      · rw [heven.neg_pow, one_pow]
        simp [heven]
      · rw [hodd.neg_one_pow, neg_one_emod_eq_iff hm]
        simp [he, Nat.not_even_iff_odd.2 hodd]
  rw [sgBignumModExpt_of_one_lt he (by omega)]
  by_cases hright : 0 < x ∨ Even e
  · have hkeeps : 0 < x ∨ TwoPartKeeps x e m := by
      by_contra hnot
      rw [not_or] at hnot
      have hmeven : Even m := by
        by_contra hodd
        exact hnot.2 fun h => absurd h hodd
      exact hopen ⟨by omega, hmeven, .inr hnot.2⟩
    refine iff_of_true (bignumModExpt_right hmont h0 he hm hright
      (twoPart_eq htwo hm hkeeps)) ?_
    by_cases hx : 0 < x
    · exact .inl hx
    · have hle : x ≤ -2 := by omega
      simp [hle, hright.resolve_left hx, hkeeps.resolve_left hx]
  -- what is left is a negative base and an odd exponent
  rw [not_or, Nat.not_even_iff_odd] at hright
  obtain ⟨hneg, hodd⟩ := hright
  have hle : x ≤ -2 := by omega
  have hmodd : Odd m := by
    rw [← Nat.not_even_iff_odd]
    exact fun h => hopen ⟨hle, h, .inl hodd⟩
  rw [bignumModExpt_odd_iff hmont (by omega) hodd (Nat.odd_iff.1 hmodd)]
  have hone : x ≠ -1 := by omega
  simp [hneg, he, h0, hone, Nat.not_even_iff_odd.2 hodd, hle, hmodd]

/-- **`Sg_ModExpt`** returns the residue of the power on good arguments, and on no others outside
the open ones. -/
theorem mod_expt_dispatch (hmont : MontgomeryRight montgomery) (x : ℤ) (e m : ℕ)
    (htwo : TwoPartRight x e m) (hm : 0 < m) :
    (ModExptGood x e m → IsPowResidue x e m (sgModExpt montgomery x e m)) ∧
      (IsPowResidue x e m (sgModExpt montgomery x e m) →
        ModExptGood x e m ∨ ModExptOpen x e m) := by
  rw [isPowResidue_iff hm, sgModExpt, ModExptGood, ModExptOpen]
  by_cases hpath : FixnumRange e ∧ FixnumRange m
  · have hb : ¬ BignumPath e m := not_not.2 hpath
    rw [if_pos hpath, if_neg hb, smallModExpt_one_iff hm]
    exact ⟨id, .inl⟩
  have hb : BignumPath e m := hpath
  rw [if_neg hpath, if_pos hb]
  by_cases hopen : x ≤ -2 ∧ Even m ∧ (Odd e ∨ ¬ TwoPartKeeps x e m)
  · refine ⟨fun hgood => ?_, fun _ => .inr ⟨hb, hopen⟩⟩
    obtain ⟨hx, hmeven, hlost⟩ := hopen
    -- of the good arguments only those with the exponent zero are left
    have he : e = 0 := by
      rw [← Nat.not_even_iff_odd] at hlost
      rw [BignumPathGood, ← Nat.not_even_iff_odd] at hgood
      rcases hgood with h | h | h | h | h | h
      · omega
      · exact h
      · omega
      · omega
      · exact absurd h.2 (by tauto)
      · exact absurd hmeven h.2.1
    rw [sgBignumModExpt_of_one hm (.inl he), he, pow_zero]
  · have h := sgBignumModExpt_iff hmont htwo hm hopen
    exact ⟨h.2, fun hr => .inl (h.1 hr)⟩

end

/-- `3 ^ 5` modulo `2 ^ 62` and `(-3) ^ 4` modulo `2 ^ 64`, by the path for bignums; of `-3` the
sign is lost, but no word. -/
theorem mod_expt_dispatch_three :
    IsPowResidue 3 5 (2 ^ 62) (sgModExpt (fun b e m => b ^ e % m) 3 5 (2 ^ 62)) ∧
      IsPowResidue (-3) 4 (2 ^ 64) (sgModExpt (fun b e m => b ^ e % m) (-3) 4 (2 ^ 64)) := by
  have hp : ∀ k, padicValNat 2 (2 ^ k) = k := padicValNat.prime_pow
  have hkeeps : KeepsPower 3 4 64 := by decide
  constructor
  · refine (mod_expt_dispatch (fun _ _ _ _ _ _ => rfl) 3 5 (2 ^ 62) (fun _ _ => ?_)
      (by decide)).1 ?_
    · rw [hp]
      decide
    · rw [ModExptGood, if_pos (by decide)]
      exact .inl (by decide)
  · refine (mod_expt_dispatch (fun _ _ _ _ _ _ => rfl) (-3) 4 (2 ^ 64)
      (fun h => absurd h (by decide)) (by decide)).1 ?_
    rw [ModExptGood, if_pos (by decide), BignumPathGood, TwoPartKeeps, hp]
    exact .inr (.inr (.inr (.inr (.inl ⟨by decide, by decide, fun _ => hkeeps⟩))))

/-- On the path for bignums a power of zero is one; on the path for fixnums the power with the
exponent zero is one, also modulo one. -/
theorem mod_expt_of_zero :
    let pow := fun b e m => b ^ e % m
    sgModExpt pow 0 1 (2 ^ 62) = 1 ∧ ¬ IsPowResidue 0 1 (2 ^ 62) (sgModExpt pow 0 1 (2 ^ 62)) ∧
      sgModExpt pow 5 0 1 = 1 ∧ ¬ IsPowResidue 5 0 1 (sgModExpt pow 5 0 1) := by
  intro pow
  have hbig : sgModExpt pow 0 1 (2 ^ 62) = 1 := by
    rfl
  have hsmall : sgModExpt pow 5 0 1 = 1 := by
    rw [sgModExpt, if_pos (by decide), smallModExpt, dif_pos rfl]
  rw [hbig, hsmall, isPowResidue_iff (by decide), isPowResidue_iff (by decide)]
  decide

end Sagittarius
