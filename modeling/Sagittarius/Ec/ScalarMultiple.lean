import Sagittarius.Ec.BinaryField
import Sagittarius.Ec.PrimeField

/-!
# What `ec-point-mul` returns

* `ec_point_mul_iff` : **over prime and binary fields**, the result is `k` times the point if and
  only if the point is not at infinity, `k` is not zero and, for a negative `k`, a certain multiple
  of the point is zero.  Over a prime field whose size is not a fixnum this needs that the sums on
  the way to the multiple are made without squaring zero;
* `negative_one_fails` : the product with `-1` is the point itself;
* `ecdh_agree` : a key agreement gives one secret.
-/

namespace Sagittarius.Ec

open WeierstrassCurve.Affine

/-- **When the result is `k` times the point**, for every curve over a prime field or a binary
field. -/
theorem ec_point_mul_iff (k : ℤ) :
    (∀ (p : ℕ) [Fact p.Prime], 3 < p →
      ∀ montgomery : ℕ → ℕ → ℕ → ℕ, MontgomeryRight montgomery →
      ∀ modInverse : ℤ → ℤ → ℤ, InvertsModulo modInverse p →
      ∀ (a b : ℤ) (P : (fpCurve p a b).Point), RunSafe FpSafe P k →
        (ecPointMul (fpMethods montgomery modInverse p a) (encodePoint fpCode P) k =
            .ok (encodePoint fpCode (k • P)) ↔
          P ≠ 0 ∧ k ≠ 0 ∧ (k < 0 → negativeOffset k • P = 0))) ∧
    (∀ (f : F2mField) [Fact (Irreducible f.modulus)] [DecidableEq f.Elem], f.WellFormed →
      ∀ (a b : f.Elem) (P : (F2mField.curve a b).Point),
        ecPointMul (f2mMethods f (f.code a)) (encodePoint f.code P) k =
            .ok (encodePoint f.code (k • P)) ↔
          P ≠ 0 ∧ k ≠ 0 ∧ (k < 0 → negativeOffset k • P = 0)) := by
  constructor
  · intro p _ hp montgomery hmont modInverse hinv a b P hsafe
    exact ecPointMul_iff (fpImplements hp hmont hinv a b) P k hsafe
  · intro f _ _ hf a b P
    exact ecPointMul_iff (f2mImplements hf a b) P k (runSafe_of_forall (fun _ _ => trivial) P k)

/-! ### A small curve -/

instance factPrimeFive : Fact (Nat.Prime 5) := ⟨by decide⟩

/-- The inverses modulo five. -/
def inverseFive (x _p : ℤ) : ℤ := x ^ 3

theorem inverseFive_inverts : InvertsModulo inverseFive 5 := by
  have hfield : ∀ z : ZMod 5, z ≠ 0 → z * z ^ 3 - 1 = 0 := by decide
  intro x hx
  have h := hfield x (mt (ZMod.intCast_zmod_eq_zero_iff_dvd x 5).1 hx)
  apply (ZMod.intCast_zmod_eq_zero_iff_dvd _ 5).1
  rw [inverseFive]
  push_cast
  exact h

theorem nonsingular_zero_one : (fpCurve 5 1 1).Nonsingular 0 1 := by
  rw [nonsingular_iff, equation_iff]
  decide

/-- The point `(0, 1)` of `y² = x³ + x + 1` over the field of five elements. -/
def pointFive : (fpCurve 5 1 1).Point := .some 0 1 nonsingular_zero_one

/-- The methods of this field. -/
def methodsFive : FieldMethods ℤ := fpMethods (fun b e m => b ^ e % m) inverseFive 5 1

theorem montgomeryRight_pow : MontgomeryRight fun b e m => b ^ e % m := fun _ _ _ _ _ _ => rfl

theorem implementsFive : Implements methodsFive (fpCurve 5 1 1) fpCode FpSafe :=
  fpImplements (by decide) montgomeryRight_pow inverseFive_inverts 1 1

theorem runSafe_five (P : (fpCurve 5 1 1).Point) (k : ℤ) : RunSafe FpSafe P k :=
  runSafe_of_forall (fun _ _ => Or.inl (by decide)) P k

theorem nonsingular_four_two : (fpCurve 5 1 1).Nonsingular 4 2 := by
  rw [nonsingular_iff, equation_iff]
  decide

theorem two_smul_pointFive : (2 : ℤ) • pointFive = .some 4 2 nonsingular_four_two := by
  have hne : (1 : ZMod 5) ≠ (fpCurve 5 1 1).negY 0 1 := by decide
  have hslope : (fpCurve 5 1 1).slope 0 0 1 1 = 3 := by
    rw [slope_of_Y_ne rfl hne, div_eq_iff (by decide)]
    decide
  rw [two_zsmul, pointFive, Point.add_self_of_Y_ne hne, Point.some.injEq, hslope]
  decide

/-- Twice the point is `(4, 2)`. -/
theorem ec_point_mul_two :
    ecPointMul methodsFive (encodePoint fpCode pointFive) 2 = .ok (makeEcPoint 4 2) := by
  have hmul := ((ec_point_mul_iff 2).1 5 (by decide) _ montgomeryRight_pow _ inverseFive_inverts
    1 1 pointFive (runSafe_five pointFive 2)).2 (by decide)
  rw [two_smul_pointFive] at hmul
  exact hmul

/-- The product with `-1` is the point itself and not its negation, the product with zero and
products of the point at infinity fail. -/
theorem negative_one_fails :
    InvertsModulo inverseFive 5 ∧
    ecPointMul methodsFive (encodePoint fpCode pointFive) (-1) = .ok (makeEcPoint 0 1) ∧
    encodePoint fpCode ((-1 : ℤ) • pointFive) = makeEcPoint 0 4 ∧
    ecPointMul methodsFive (encodePoint fpCode pointFive) 0 = .error .negativeIndex ∧
    ecPointMul methodsFive (encodePoint fpCode (0 : (fpCurve 5 1 1).Point)) 1 =
      .error .wrongType := by
  have hmul := ecPointMul_eq implementsFive (P := pointFive) (by decide) (k := -1) (by decide)
    (runSafe_five _ _)
  exact ⟨inverseFive_inverts, hmul.trans (by decide), by decide, rfl, rfl⟩

/-! ### Key agreement -/

section

variable {K C : Type} [Field K] [DecidableEq K] {W : WeierstrassCurve.Affine K}

/-- `ecdh-calculate-agreement` returns the secret of the private key `du` and the public key `Qv`;
`none` is the error `invalid`. -/
def ecdhCalculateAgreement (F : FieldMethods C) (du : ℤ) (Qv : EcPoint C) :
    Except EcError (Option C) := do
  let P ← ecPointMul F Qv du
  return if P.infinity then none else P.x

variable {F : FieldMethods C} {enc : K → C} {safe : W.Point → W.Point → Prop}
  (hF : Implements F W enc safe)

include hF

theorem mul_of_pos {P : W.Point} (hP : P ≠ 0) {k : ℤ} (hk : 0 < k) (hsafe : RunSafe safe P k) :
    ecPointMul F (encodePoint enc P) k = .ok (encodePoint enc (k • P)) :=
  (ecPointMul_iff hF P k hsafe).2 ⟨hP, hk.ne', fun h => absurd h hk.not_gt⟩

/-- **Both parties get the same secret** from their private keys and the public key of the other, or
both get the error. -/
theorem ecdh_agree {G : W.Point} {u v : ℤ} (hu : 0 < u) (hv : 0 < v) (hQu : u • G ≠ 0)
    (hQv : v • G ≠ 0) (hGu : RunSafe safe G u) (hGv : RunSafe safe G v)
    (hsu : RunSafe safe (v • G) u) (hsv : RunSafe safe (u • G) v) :
    ∃ Qu Qv, ecPointMul F (encodePoint enc G) u = .ok Qu ∧
      ecPointMul F (encodePoint enc G) v = .ok Qv ∧
      ecdhCalculateAgreement F u Qv = .ok (encodePoint enc ((u * v) • G)).x ∧
      ecdhCalculateAgreement F v Qu = .ok (encodePoint enc ((u * v) • G)).x := by
  have hG : G ≠ 0 := fun h => hQu (by rw [h, smul_zero])
  have hrun {a : ℤ} {P : W.Point} (ha : 0 < a) (hP : P ≠ 0) (hsafe : RunSafe safe P a) :
      ecdhCalculateAgreement F a (encodePoint enc P) = .ok (encodePoint enc (a • P)).x := by
    rw [ecdhCalculateAgreement, mul_of_pos hF hP ha hsafe]
    cases a • P <;> rfl
  refine ⟨_, _, mul_of_pos hF hG hu hGu, mul_of_pos hF hG hv hGv, ?_, ?_⟩
  · rw [hrun hu hQv hsu, mul_smul]
  · rw [hrun hv hQu hsv, mul_smul, smul_comm]

end

/-- The private keys 2 and 3 on the small curve. -/
theorem ecdh_agree_five :
    ∃ Qu Qv, ecPointMul methodsFive (encodePoint fpCode pointFive) 2 = .ok Qu ∧
      ecPointMul methodsFive (encodePoint fpCode pointFive) 3 = .ok Qv ∧
      ecdhCalculateAgreement methodsFive 2 Qv =
        .ok (encodePoint fpCode ((2 * 3 : ℤ) • pointFive)).x ∧
      ecdhCalculateAgreement methodsFive 3 Qu =
        .ok (encodePoint fpCode ((2 * 3 : ℤ) • pointFive)).x := by
  have hthree : (3 : ℤ) • pointFive ≠ 0 := by
    rw [show (3 : ℤ) = 2 + 1 from rfl, add_zsmul, one_zsmul, two_smul_pointFive, Ne,
      add_eq_zero_iff_eq_neg]
    decide
  exact ecdh_agree implementsFive (by decide) (by decide) (by decide) hthree (runSafe_five _ _)
    (runSafe_five _ _) (runSafe_five _ _) (runSafe_five _ _)

end Sagittarius.Ec
