import Mathlib.Algebra.Field.ZMod
import Sagittarius.Ec.Multiplication

/-!
# Curves over prime fields

The methods of `ec-field-fp` compute in the group of the curve `y² = x³ + ax + b` over `ZMod p`.

`mod-mul` does not reduce its product.  What is kept by every operation is the residue, and the last
operation on each coordinate is one that reduces.

`mod-square` calls `mod-expt`, and this returns one for the base zero if the modulus is not a
fixnum.  So over a large field a sum is right if neither its slope nor, in a doubling, the
coordinate `x` is zero (`CleanSum`), or the sum is the point at infinity; in a smaller field all
sums are right.

* `fpCode` : the number from `0` to `p - 1` that stands for an element of the field;
* `intCast_modSquare` : when the square is right;
* `fpImplements` : **the methods compute in the group**, if `mod-inverse` computes inverses.
-/

namespace Sagittarius.Ec

open WeierstrassCurve.Affine

/-- `mod-inverse` computes inverses modulo `p`. -/
def InvertsModulo (modInverse : ℤ → ℤ → ℤ) (p : ℕ) : Prop :=
  ∀ x : ℤ, ¬ (p : ℤ) ∣ x → (p : ℤ) ∣ x * modInverse x p - 1

/-- `mod-expt` returns one for the base zero and a modulus that is not a fixnum. -/
theorem modSquare_zero (montgomery : ℕ → ℕ → ℕ → ℕ) {p : ℕ} (hp : 1 < p) (hfix : ¬ FixnumRange p) :
    modSquare montgomery 0 p = 1 := by
  rw [modSquare, Int.toNat_natCast, sgModExpt, if_neg fun h => hfix h.2, sgBignumModExpt,
    if_neg (by decide), if_neg (by decide), if_pos rfl, if_neg (by omega)]

section PrimeField

variable {p : ℕ} [Fact p.Prime]

/-- The number that stands for an element of the field. -/
def fpCode (x : ZMod p) : ℤ := x.val

/-- The curve `y² = x³ + ax + b`. -/
def fpCurve (p : ℕ) (a b : ℤ) : WeierstrassCurve.Affine (ZMod p) where
  a₁ := 0
  a₂ := 0
  a₃ := 0
  a₄ := a
  a₆ := b

/-! ### Residues -/

theorem fpCode_intCast (n : ℤ) : fpCode (n : ZMod p) = n % p := ZMod.val_intCast n

@[simp]
theorem intCast_fpCode (x : ZMod p) : ((fpCode x : ℤ) : ZMod p) = x := by
  rw [fpCode, Int.cast_natCast, ZMod.natCast_zmod_val]

theorem fpCode_injective : Function.Injective (fpCode : ZMod p → ℤ) := by
  intro x y h
  rw [← intCast_fpCode x, h, intCast_fpCode]

theorem fpCode_eq_zero {x : ZMod p} : fpCode x = 0 ↔ x = 0 := by
  rw [fpCode, Int.natCast_eq_zero, ZMod.val_eq_zero]

@[simp]
theorem intCast_modAdd (a b : ℤ) : ((modAdd a b p : ℤ) : ZMod p) = a + b := by
  rw [modAdd, ZMod.intCast_mod, Int.cast_add]

@[simp]
theorem intCast_modMul (a b : ℤ) : ((modMul a b p : ℤ) : ZMod p) = a * b := by
  rw [modMul, Int.cast_mul, ZMod.intCast_mod, ZMod.intCast_mod]

/-- The square of zero is right only in a field with a fixnum for its size. -/
theorem intCast_modSquare {montgomery : ℕ → ℕ → ℕ → ℕ} (hmont : MontgomeryRight montgomery)
    (hp : 3 < p) {x : ZMod p} (hx : FixnumRange p ∨ x ≠ 0) :
    ((modSquare montgomery (fpCode x) p : ℤ) : ZMod p) = x ^ 2 := by
  have hodd : p % 2 = 1 := (Fact.out : p.Prime).eq_two_or_odd.resolve_left (by omega)
  have hpow : modSquare montgomery (fpCode x) p = fpCode x ^ 2 % p := by
    rw [modSquare, Int.toNat_natCast, sgModExpt]
    by_cases hfix : FixnumRange p
    · rw [if_pos ⟨by decide, hfix⟩, smallModExpt_eq (by omega), if_neg (by decide), one_mul]
    · have hpos : 0 < fpCode x := by
        have h0 := mt fpCode_eq_zero.1 (hx.resolve_left hfix)
        rw [fpCode] at h0 ⊢
        omega
      rw [if_neg fun h => hfix h.2]
      refine (sgBignumModExpt_iff hmont (fun _ heven => ?_) (by omega) ?_).2 (Or.inl hpos)
      · exact absurd heven (Nat.not_even_iff.2 hodd)
      · rintro ⟨hneg, -⟩
        omega
  rw [hpow, ZMod.intCast_mod, Int.cast_pow, intCast_fpCode]

theorem modSub_eq (a b : ℤ) : modSub a b p = fpCode (a - b : ZMod p) := by
  rw [modSub, ← Int.cast_sub, fpCode_intCast]

theorem modNegate_eq (a : ℤ) : modNegate a p = fpCode (-a : ZMod p) := by
  rw [modNegate, ← Int.cast_neg, fpCode_intCast]

theorem intCast_modInverse {modInverse : ℤ → ℤ → ℤ} (hinv : InvertsModulo modInverse p) {x : ℤ}
    (hx : (x : ZMod p) ≠ 0) : (modInverse x p : ZMod p) = (x : ZMod p)⁻¹ := by
  have hdvd : ¬ (p : ℤ) ∣ x := by
    intro h
    exact hx ((ZMod.intCast_zmod_eq_zero_iff_dvd x p).2 h)
  have h := (ZMod.intCast_zmod_eq_zero_iff_dvd _ p).2 (hinv x hdvd)
  rw [Int.cast_sub, Int.cast_mul, Int.cast_one, sub_eq_zero] at h
  exact eq_inv_of_mul_eq_one_right h

theorem modDiv_eq {modInverse : ℤ → ℤ → ℤ} (hinv : InvertsModulo modInverse p) (a : ℤ) {b : ℤ}
    (hb : (b : ZMod p) ≠ 0) : modDiv modInverse a b p = fpCode (a / b : ZMod p) := by
  rw [div_eq_mul_inv, ← intCast_modInverse hinv hb, ← Int.cast_mul, fpCode_intCast, modDiv]

/-! ### The methods -/

variable {montgomery : ℕ → ℕ → ℕ → ℕ} {modInverse : ℤ → ℤ → ℤ} {a b : ℤ}

theorem fpCurve_negY (x y : ZMod p) : (fpCurve p a b).negY x y = -y := by
  simp [negY, fpCurve]

theorem fpCurve_addX (x₁ x₂ l : ZMod p) : (fpCurve p a b).addX x₁ x₂ l = l ^ 2 - x₁ - x₂ := by
  simp [addX, fpCurve]

theorem fpCurve_addY (x₁ x₂ y₁ l : ZMod p) :
    (fpCurve p a b).addY x₁ x₂ y₁ l = l * (x₁ - (l ^ 2 - x₁ - x₂)) - y₁ := by
  rw [addY, negAddY, fpCurve_negY, fpCurve_addX]
  ring

theorem eq_neg_self_iff_of_odd (hp : 3 < p) (y : ZMod p) : y = -y ↔ y = 0 := by
  have htwo : (2 : ZMod p) ≠ 0 := by
    intro h
    have hdvd := (ZMod.natCast_eq_zero_iff 2 p).1 (by exact_mod_cast h)
    have := Nat.le_of_dvd (by decide) hdvd
    omega
  rw [eq_neg_iff_add_eq_zero, ← two_mul, mul_eq_zero, or_iff_right htwo]

/-- The sum is made without squaring zero. -/
def CleanSum : (fpCurve p a b).Point → (fpCurve p a b).Point → Prop
  | .some x₁ y₁ h₁, .some x₂ y₂ h₂ =>
    (.some x₁ y₁ h₁ + .some x₂ y₂ h₂ : (fpCurve p a b).Point) = 0 ∨
      (fpCurve p a b).slope x₁ x₂ y₁ y₂ ≠ 0 ∧ (x₁ = x₂ → x₁ ≠ 0)
  | _, _ => True

/-- The size of the field is a fixnum, or the sum is made without squaring zero. -/
def FpSafe (P Q : (fpCurve p a b).Point) : Prop := FixnumRange p ∨ CleanSum P Q

section

variable (hp : 3 < p) (hmont : MontgomeryRight montgomery) (hinv : InvertsModulo modInverse p)

include hp hmont hinv

theorem fpTwice_eq (x y : ZMod p) (h : (fpCurve p a b).Nonsingular x y)
    (hsafe : FpSafe (.some x y h : (fpCurve p a b).Point) (.some x y h)) :
    fpTwice montgomery modInverse p a (fpCode x) (fpCode y) =
      encodePoint fpCode (.some x y h + .some x y h : (fpCurve p a b).Point) := by
  rw [fpTwice]
  by_cases hy : y = 0
  · rw [if_pos (fpCode_eq_zero.2 hy), Point.add_self_of_Y_eq (by rw [fpCurve_negY, hy, neg_zero])]
    rfl
  have hne : y ≠ (fpCurve p a b).negY x y := by
    rw [fpCurve_negY, Ne, eq_neg_self_iff_of_odd hp]
    exact hy
  have hclean : FixnumRange p ∨ (fpCurve p a b).slope x x y y ≠ 0 ∧ x ≠ 0 := by
    refine hsafe.imp_right fun hclean => ?_
    rw [CleanSum, Point.add_self_of_Y_ne hne] at hclean
    obtain ⟨hslope, hx⟩ := hclean.resolve_left (Point.some_ne_zero _)
    exact ⟨hslope, hx rfl⟩
  have hden : ((modMul (fpCode y) 2 p : ℤ) : ZMod p) ≠ 0 := by
    rw [intCast_modMul, intCast_fpCode, mul_comm, Int.cast_ofNat, two_mul, Ne,
      ← eq_neg_iff_add_eq_zero, eq_neg_self_iff_of_odd hp]
    exact hy
  have hgamma : modDiv modInverse (modAdd (modMul (modSquare montgomery (fpCode x) p) 3 p) a p)
      (modMul (fpCode y) 2 p) p = fpCode ((fpCurve p a b).slope x x y y) := by
    rw [modDiv_eq hinv _ hden, slope_of_Y_ne rfl hne, fpCurve_negY]
    simp only [fpCurve, intCast_modAdd, intCast_modMul, intCast_fpCode,
      intCast_modSquare hmont hp (hclean.imp_right And.right)]
    congr 2
    · push_cast
      ring
    · push_cast
      ring
  rw [if_neg (mt fpCode_eq_zero.1 hy), Point.add_self_of_Y_ne hne, hgamma]
  simp only [modSub_eq, encodePoint, intCast_modMul, intCast_fpCode,
    intCast_modSquare hmont hp (hclean.imp_right And.left)]
  congr 2
  · rw [fpCurve_addX]
    push_cast
    ring
  · rw [fpCurve_addY]
    push_cast
    ring

theorem fpAdd_eq (x₁ y₁ x₂ y₂ : ZMod p) (h₁ : (fpCurve p a b).Nonsingular x₁ y₁)
    (h₂ : (fpCurve p a b).Nonsingular x₂ y₂)
    (hsafe : FpSafe (.some x₁ y₁ h₁ : (fpCurve p a b).Point) (.some x₂ y₂ h₂)) :
    fpAdd montgomery modInverse p a (fpCode x₁) (fpCode y₁) (fpCode x₂) (fpCode y₂) =
      encodePoint fpCode (.some x₁ y₁ h₁ + .some x₂ y₂ h₂ : (fpCurve p a b).Point) := by
  rw [fpAdd]
  by_cases hx : x₁ = x₂
  · subst hx
    rw [if_pos rfl]
    by_cases hy : y₁ = y₂
    · subst hy
      rw [if_pos rfl]
      exact fpTwice_eq hp hmont hinv x₁ y₁ h₁ hsafe
    · have hneg : y₁ = (fpCurve p a b).negY x₁ y₂ :=
        (Y_eq_of_X_eq h₁.1 h₂.1 rfl).resolve_left hy
      rw [if_neg (mt (fun h => fpCode_injective h) hy), Point.add_of_Y_eq rfl hneg]
      rfl
  have hclean : FixnumRange p ∨ (fpCurve p a b).slope x₁ x₂ y₁ y₂ ≠ 0 := by
    refine hsafe.imp_right fun hclean => ?_
    rw [CleanSum, Point.add_of_X_ne hx] at hclean
    exact (hclean.resolve_left (Point.some_ne_zero _)).1
  have hden : ((modSub (fpCode x₂) (fpCode x₁) p : ℤ) : ZMod p) ≠ 0 := by
    rw [modSub_eq, intCast_fpCode, intCast_fpCode, intCast_fpCode, sub_ne_zero]
    exact Ne.symm hx
  have hgamma : modDiv modInverse (modSub (fpCode y₂) (fpCode y₁) p)
      (modSub (fpCode x₂) (fpCode x₁) p) p = fpCode ((fpCurve p a b).slope x₁ x₂ y₁ y₂) := by
    rw [modDiv_eq hinv _ hden, slope_of_X_ne hx]
    simp only [modSub_eq, intCast_fpCode]
    rw [← neg_sub y₁ y₂, ← neg_sub x₁ x₂, neg_div_neg_eq]
  rw [if_neg (mt (fun h => fpCode_injective h) hx), Point.add_of_X_ne hx, hgamma]
  simp only [modSub_eq, encodePoint, intCast_modMul, intCast_fpCode,
    intCast_modSquare hmont hp hclean]
  congr 2
  · rw [fpCurve_addX]
  · rw [fpCurve_addY]

/-- **The methods of `ec-field-fp` compute in the group of the curve.** -/
theorem fpImplements (a b : ℤ) :
    Implements (fpMethods montgomery modInverse p a) (fpCurve p a b) fpCode FpSafe where
  injective := fpCode_injective
  twice x y h hsafe := congrArg Except.ok (fpTwice_eq hp hmont hinv x y h hsafe)
  add x₁ y₁ h₁ x₂ y₂ h₂ hsafe :=
    congrArg Except.ok (fpAdd_eq hp hmont hinv x₁ y₁ x₂ y₂ h₁ h₂ hsafe)
  negate x y h := by
    rw [Point.neg_some]
    simp only [fpMethods, encodePoint, fpCurve_negY, modNegate_eq, intCast_fpCode]
    rfl

end

end PrimeField

end Sagittarius.Ec
