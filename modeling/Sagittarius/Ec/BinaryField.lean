import Mathlib.Algebra.Polynomial.SpecificDegree
import Mathlib.RingTheory.AdjoinRoot
import Sagittarius.Ec.Multiplication
import Sagittarius.Library.BinaryPolynomial

/-!
# Curves over binary fields

The methods of `ec-field-f2m` compute in the group of the curve `y² + xy = x³ + ax² + b` over the
field of polynomials modulo the reduction polynomial, a trinomial or a pentanomial.

* `F2mField.modulus` : the reduction polynomial;
* `F2mField.Codes` : a number below `2 ^ m` stands for an element of the field;
* `F2mField.codes_add`, `codes_mul`, `codes_inverse` : **the operations on numbers compute in the
  field**; `f2m-inverse` is the extended algorithm of Euclid, and its invariant is `Reduces`;
* `f2mImplements` : **the methods compute in the group**.
-/

namespace Sagittarius.Ec

open Polynomial BinaryPolynomial WeierstrassCurve.Affine AdjoinRoot

namespace F2mField

/-- The exponents of the reduction polynomial are different, and below `m`. -/
structure WellFormed (f : F2mField) : Prop where
  k1_pos : 0 < f.k1
  k1_lt : f.k1 < f.m
  pentanomial : f.ppb → f.k2 < f.m ∧ f.k3 < f.m ∧ f.k1 ≠ f.k2 ∧ f.k1 ≠ f.k3 ∧ f.k2 ≠ f.k3

/-- The reduction polynomial below its leading term. -/
noncomputable def tail (f : F2mField) : (ZMod 2)[X] :=
  if f.ppb then 1 + X ^ f.k1 + X ^ f.k2 + X ^ f.k3 else 1 + X ^ f.k1

/-- The reduction polynomial. -/
noncomputable def modulus (f : F2mField) : (ZMod 2)[X] := X ^ f.m + f.tail

variable {f : F2mField}

theorem ppb_iff : f.ppb ↔ f.k2 ≠ 0 ∧ f.k3 ≠ 0 := by
  simp [ppb]

theorem exists_toPoly_tail (hf : f.WellFormed) : ∃ n < 2 ^ f.m, toPoly n = f.tail := by
  have hpow : ∀ {k}, k < f.m → 1 <<< k < 2 ^ f.m := by
    intro k hk
    rw [Nat.one_shiftLeft]
    exact Nat.pow_lt_pow_right (by decide) hk
  have hone : 1 < 2 ^ f.m := Nat.one_lt_two_pow (by have := hf.k1_lt; omega)
  rw [tail]
  split_ifs with h
  · obtain ⟨h2, h3, -⟩ := hf.pentanomial h
    refine ⟨1 ^^^ (1 <<< f.k1) ^^^ (1 <<< f.k2) ^^^ (1 <<< f.k3), ?_, ?_⟩
    · exact Nat.xor_lt_two_pow (Nat.xor_lt_two_pow (Nat.xor_lt_two_pow hone (hpow hf.k1_lt))
        (hpow h2)) (hpow h3)
    · simp only [toPoly_xor, toPoly_one_shiftLeft, toPoly_one]
  · refine ⟨1 ^^^ (1 <<< f.k1), Nat.xor_lt_two_pow hone (hpow hf.k1_lt), ?_⟩
    simp only [toPoly_xor, toPoly_one_shiftLeft, toPoly_one]

theorem degree_tail_lt (hf : f.WellFormed) : f.tail.degree < f.m := by
  obtain ⟨n, hn, htail⟩ := exists_toPoly_tail hf
  rw [← htail]
  exact degree_toPoly_lt.2 hn

theorem modulus_monic (hf : f.WellFormed) : f.modulus.Monic := monic_X_pow_add (degree_tail_lt hf)

theorem degree_modulus (hf : f.WellFormed) : f.modulus.degree = f.m :=
  (degree_add_eq_left_of_degree_lt (by rw [degree_X_pow]; exact degree_tail_lt hf)).trans
    (degree_X_pow _)

theorem testBit_one_shiftLeft (k i : ℕ) : (1 <<< k).testBit i = decide (k = i) := by
  rw [Nat.one_shiftLeft, Nat.testBit_two_pow]

theorem testBit_one_pos {i : ℕ} (h : i ≠ 0) : Nat.testBit 1 i = false :=
  (testBit_one_shiftLeft 0 i).trans (decide_eq_false (Ne.symm h))

/-- The number that `f2m-inverse` makes is the reduction polynomial, as no two exponents are
equal. -/
theorem toPoly_reduction (hf : f.WellFormed) : toPoly f.reduction = f.modulus := by
  obtain ⟨h0, h1, h5⟩ := hf
  have hm : toPoly ((1 <<< f.m) ||| 1) = X ^ f.m + 1 := by
    have hbit : (1 <<< f.m).testBit 0 = false := by
      rw [testBit_one_shiftLeft, decide_eq_false_iff_not]
      omega
    rw [← toPoly_one_shiftLeft f.m, ← pow_zero (X : (ZMod 2)[X])]
    exact toPoly_or_shiftLeft hbit
  have hm1 : toPoly ((1 <<< f.m) ||| 1 ||| (1 <<< f.k1)) = X ^ f.m + 1 + X ^ f.k1 := by
    rw [toPoly_or_shiftLeft, hm]
    rw [Nat.testBit_or, testBit_one_shiftLeft, testBit_one_pos h0.ne', decide_eq_false h1.ne']
    rfl
  rw [reduction, modulus, tail]
  split_ifs with hp
  · obtain ⟨h2, h3, h12, h13, h23⟩ := h5 hp
    obtain ⟨h20, h30⟩ := ppb_iff.1 hp
    rw [toPoly_or_shiftLeft, toPoly_or_shiftLeft, hm1]
    · ring
    · simp only [Nat.testBit_or, testBit_one_shiftLeft, testBit_one_pos h20, h2.ne', h12,
        decide_false, Bool.or_false]
    · simp only [Nat.testBit_or, testBit_one_shiftLeft, testBit_one_pos h30, h3.ne', h13, h23,
        decide_false, Bool.or_false]
  · rw [Nat.or_zero, Nat.or_zero, hm1]
    ring

/-! ### Elements of the field -/

/-- The field of polynomials modulo the reduction polynomial. -/
abbrev Elem (f : F2mField) : Type := AdjoinRoot f.modulus

/-- The residue of the polynomial of a number. -/
noncomputable def value (f : F2mField) (n : ℕ) : f.Elem := AdjoinRoot.mk f.modulus (toPoly n)

/-- The number stands for the element. -/
def Codes (f : F2mField) (n : ℕ) (x : f.Elem) : Prop := n < 2 ^ f.m ∧ f.value n = x

/-- The number that stands for the element. -/
noncomputable def code (f : F2mField) (x : f.Elem) : ℕ :=
  Function.invFunOn f.value {n | n < 2 ^ f.m} x

theorem value_xor (a b : ℕ) : f.value (a ^^^ b) = f.value a + f.value b := by
  rw [value, toPoly_xor, map_add, value, value]

theorem value_shiftLeft (a j : ℕ) :
    f.value (a <<< j) = root f.modulus ^ j * f.value a := by
  rw [value, toPoly_shiftLeft, map_mul, map_pow, mk_X, value]

theorem value_one : f.value 1 = 1 := by
  rw [value, toPoly_one, map_one]

section

variable (hf : f.WellFormed)

include hf

theorem value_reduction : f.value f.reduction = 0 := by
  rw [value, toPoly_reduction hf, mk_self]

theorem value_injOn : Set.InjOn f.value {n | n < 2 ^ f.m} := by
  intro a ha b hb h
  have hdvd := AdjoinRoot.mk_eq_mk.1 h
  have hdeg : (toPoly a - toPoly b).degree < f.modulus.degree := by
    rw [degree_modulus hf]
    exact lt_of_le_of_lt (degree_sub_le _ _)
      (max_lt (degree_toPoly_lt.2 ha) (degree_toPoly_lt.2 hb))
  exact toPoly_injective (sub_eq_zero.1 (eq_zero_of_dvd_of_degree_lt hdvd hdeg))

theorem exists_codes (x : f.Elem) : ∃ n, f.Codes n x := by
  obtain ⟨g, rfl⟩ := mk_surjective x
  obtain ⟨n, hn⟩ := exists_toPoly_eq (g %ₘ f.modulus)
  refine ⟨n, degree_toPoly_lt.1 ?_, ?_⟩
  · rw [hn, ← degree_modulus hf]
    exact degree_modByMonic_lt g (modulus_monic hf)
  · rw [value, hn, ← modByMonicHom_mk (modulus_monic hf)]
    exact mk_leftInverse (modulus_monic hf) _

theorem codes_code (x : f.Elem) : f.Codes (f.code x) x :=
  Function.invFunOn_pos (exists_codes hf x)

theorem Codes.eq_code {n : ℕ} {x : f.Elem} (h : f.Codes n x) : n = f.code x :=
  value_injOn hf h.1 (codes_code hf x).1 (h.2.trans (codes_code hf x).2.symm)

theorem code_injective : Function.Injective f.code := by
  intro x y h
  rw [← (codes_code hf x).2, h, (codes_code hf y).2]

theorem Codes.eq_zero_iff {n : ℕ} {x : f.Elem} (h : f.Codes n x) : n = 0 ↔ x = 0 := by
  have hzero : f.Codes 0 0 := ⟨by positivity, by rw [value, toPoly_zero, map_zero]⟩
  constructor
  · rintro rfl
    exact h.2.symm.trans hzero.2
  · rintro rfl
    exact (h.eq_code hf).trans (hzero.eq_code hf).symm

end

/-! ### Sums and products -/

variable {x y : f.Elem}

theorem codes_xor {a b : ℕ} (ha : f.Codes a x) (hb : f.Codes b y) : f.Codes (a ^^^ b) (x + y) :=
  ⟨Nat.xor_lt_two_pow ha.1 hb.1, by rw [value_xor, ha.2, hb.2]⟩

theorem codes_add {a b : ℕ} (ha : f.Codes a x) (hb : f.Codes b y) : f.Codes (add a b) (x + y) := by
  rw [add]
  split_ifs with h
  · have := codes_xor ha hb
    rwa [h, Nat.xor_zero] at this
  · exact codes_xor ha hb

theorem codes_one_shiftLeft {k : ℕ} (h : k < f.m) :
    f.Codes (1 <<< k) (root f.modulus ^ k) := by
  refine ⟨?_, by rw [value_shiftLeft, value_one, mul_one]⟩
  rw [Nat.one_shiftLeft]
  exact Nat.pow_lt_pow_right (by decide) h

theorem codes_one (hf : f.WellFormed) : f.Codes 1 1 :=
  ⟨Nat.one_lt_two_pow (by have := hf.k1_lt; omega), value_one⟩

theorem and_mask {az m : ℕ} (hlt : az < 2 ^ (m + 1)) (hbit : az.testBit m) :
    az &&& ((1 <<< az.size) - 1 - (1 <<< m)) = az ^^^ (1 <<< m) ∧
      az ^^^ (1 <<< m) < 2 ^ m := by
  have hsize : az.size = m + 1 :=
    le_antisymm (Nat.size_le.2 hlt) (Nat.lt_size.2 (Nat.ge_two_pow_of_testBit hbit))
  have hmask : (1 <<< az.size) - 1 - (1 <<< m) = 2 ^ m - 1 := by
    rw [hsize, Nat.one_shiftLeft, Nat.one_shiftLeft, pow_succ]
    omega
  have hxor : az % 2 ^ m = az ^^^ (1 <<< m) := by
    apply Nat.eq_of_testBit_eq
    intro i
    rw [Nat.testBit_mod_two_pow, Nat.testBit_xor, testBit_one_shiftLeft]
    rcases lt_trichotomy i m with h | rfl | h
    · simp [h, h.ne']
    · simp [hbit]
    · rw [Nat.testBit_lt_two_pow (lt_of_lt_of_le hlt (Nat.pow_le_pow_right (by decide) h))]
      simp [h.ne]
  rw [hmask, Nat.and_two_pow_sub_one_eq_mod, ← hxor]
  exact ⟨rfl, Nat.mod_lt _ (Nat.two_pow_pos m)⟩

theorem codes_multZMod (hf : f.WellFormed) {a : ℕ} (ha : f.Codes a x) :
    f.Codes (f.multZMod a) (root f.modulus * x) := by
  have haz : f.value (a <<< 1) = root f.modulus * x := by
    rw [value_shiftLeft, pow_one, ha.2]
  have hlt : a <<< 1 < 2 ^ (f.m + 1) := by
    have := ha.1
    omega
  -- the root of the reduction polynomial, to the power `m`, is the rest of the polynomial
  have hzero : AdjoinRoot.root f.modulus ^ f.m + AdjoinRoot.mk f.modulus f.tail = 0 :=
    AdjoinRoot.mk_self
  rw [multZMod]
  simp only
  by_cases hbit : (a <<< 1).testBit f.m = true
  · obtain ⟨hmask, hxor⟩ := and_mask hlt hbit
    have hr : f.Codes ((a <<< 1) ^^^ (1 <<< f.m)) (root f.modulus * x +
        root f.modulus ^ f.m) :=
      ⟨hxor, by rw [value_xor, haz, value_shiftLeft, value_one, mul_one]⟩
    rw [if_pos hbit, hmask]
    split_ifs with hp
    · -- the pentanomial
      obtain ⟨h2, h3, -⟩ := hf.pentanomial hp
      rw [tail, if_pos hp, map_add, map_add, map_add, map_one, map_pow, map_pow, map_pow,
        AdjoinRoot.mk_X] at hzero
      have h := codes_xor (codes_xor (codes_xor (codes_xor hr (codes_one hf))
        (codes_one_shiftLeft hf.k1_lt)) (codes_one_shiftLeft h2)) (codes_one_shiftLeft h3)
      convert h using 1
      linear_combination -hzero
    · -- the trinomial
      rw [tail, if_neg hp, map_add, map_one, map_pow, AdjoinRoot.mk_X] at hzero
      have h := codes_xor (codes_xor hr (codes_one hf)) (codes_one_shiftLeft hf.k1_lt)
      convert h using 1
      linear_combination -hzero
  · rw [if_neg hbit]
    refine ⟨?_, haz⟩
    apply Nat.lt_pow_two_of_testBit
    intro i hi
    rcases Nat.eq_or_lt_of_le hi with rfl | h
    · simpa using hbit
    · exact Nat.testBit_lt_two_pow (lt_of_lt_of_le hlt (Nat.pow_le_pow_right (by decide) h))

/-- The polynomial of the bits below `i`. -/
noncomputable def lowBits (f : F2mField) (x i : ℕ) : f.Elem :=
  ∑ t ∈ Finset.range i, if x.testBit t then root f.modulus ^ t else 0

theorem value_eq_lowBits {x : ℕ} (hx : x < 2 ^ f.m) : f.value x = f.lowBits x f.m := by
  rw [value, toPoly_eq_sum hx, map_sum, lowBits]
  refine Finset.sum_congr rfl fun t _ => ?_
  split_ifs
  · rw [map_pow, mk_X]
  · exact map_zero _

/-- The loop adds up the products with the bits that are left: by induction on the rounds. -/
theorem codes_mulLoop (hf : f.WellFormed) (ax : ℕ) (y : f.Elem) (n i bx cz : ℕ)
    (hb : f.Codes bx (root f.modulus ^ i * y)) (hc : f.Codes cz (f.lowBits ax i * y)) :
    f.Codes (f.mulLoop ax n i bx cz) (f.lowBits ax (i + n) * y) := by
  induction n generalizing i bx cz with
  | zero => exact hc
  | succ n ih =>
    rw [mulLoop, show i + (n + 1) = i + 1 + n by omega]
    apply ih
    · rw [pow_succ', mul_assoc]
      exact codes_multZMod hf hb
    · rw [lowBits, Finset.sum_range_succ, add_mul]
      split_ifs with hbit
      · exact codes_xor hc hb
      · rw [zero_mul, add_zero]
        exact hc

theorem codes_mul (hf : f.WellFormed) {a b : ℕ} (ha : f.Codes a x)
    (hb : f.Codes b y) : f.Codes (f.mul a b) (x * y) := by
  have hm := hf.k1_lt
  have hx : x = f.lowBits a (1 + (f.m - 1)) := by
    rw [show 1 + (f.m - 1) = f.m by omega, ← value_eq_lowBits ha.1, ha.2]
  rw [mul, hx]
  apply codes_mulLoop hf
  · rw [pow_one]
    exact codes_multZMod hf hb
  · rw [lowBits, Finset.sum_range_one, pow_zero]
    split_ifs with hbit
    · rw [one_mul]
      exact hb
    · rw [zero_mul]
      exact ⟨by positivity, by rw [value, toPoly_zero, map_zero]⟩

/-! ### Inverses -/

/-- What holds before each round of `f2m-inverse`: the two polynomials are the products of `x` with
their cofactors, and have no common factor; the cofactors are not longer than the field allows. -/
structure Reduces (f : F2mField) (x : f.Elem) (u v g1 g2 : ℕ) : Prop where
  ne_zero : v ≠ 0
  value_u : f.value u = f.value g1 * x
  value_v : f.value v = f.value g2 * x
  coprime : IsCoprime (toPoly u) (toPoly v)
  size_left : g1.size + v.size ≤ f.m + 2
  size_right : g2.size + u.size ≤ f.m + 2
  last : v = 1 → g2 < 2 ^ f.m

theorem Reduces.swap {u v g1 g2 : ℕ} (h : f.Reduces x u v g1 g2) (hu : u ≠ 0)
    (hlt : u.size < v.size) : f.Reduces x v u g2 g1 where
  ne_zero := hu
  value_u := h.value_v
  value_v := h.value_u
  coprime := h.coprime.symm
  size_left := h.size_right
  size_right := h.size_left
  last := by
    rintro rfl
    have := h.size_left
    rw [Nat.size_one] at hlt
    exact Nat.size_le.1 (by omega)

theorem size_shiftLeft_le (a j : ℕ) : (a <<< j).size ≤ a.size + j := by
  rw [Nat.size_le, Nat.shiftLeft_eq, pow_add]
  exact Nat.mul_lt_mul_of_pos_right (Nat.lt_size_self a) (by positivity)

theorem Reduces.step {u v g1 g2 : ℕ} (h : f.Reduces x u v g1 g2) (hle : v.size ≤ u.size) :
    f.Reduces x (u ^^^ (v <<< (u.size - v.size))) v (g1 ^^^ (g2 <<< (u.size - v.size))) g2 ∧
      (u ^^^ (v <<< (u.size - v.size))).size < u.size := by
  have hv : 0 < v.size := Nat.size_pos.2 (Nat.pos_of_ne_zero h.ne_zero)
  have hu : u ≠ 0 := by
    rintro rfl
    rw [Nat.size_zero] at hle
    omega
  have hshort : (u ^^^ (v <<< (u.size - v.size))).size < u.size := by
    apply size_xor_lt hu
    rw [Nat.size_shiftLeft h.ne_zero]
    omega
  have hcof := size_xor_le g1 (g2 <<< (u.size - v.size))
  have hshift := size_shiftLeft_le g2 (u.size - v.size)
  have hleft := h.size_left
  have hright := h.size_right
  refine ⟨⟨h.ne_zero, ?_, h.value_v, ?_, by omega, by omega, h.last⟩, hshort⟩
  · rw [value_xor, value_xor, value_shiftLeft, value_shiftLeft, h.value_u, h.value_v]
    ring
  · rw [toPoly_xor, toPoly_shiftLeft]
    exact h.coprime.add_mul_right_left _

section Field

variable [Fact (Irreducible f.modulus)]

variable {x : f.Elem}

/-- **The loop comes to the inverse**: by induction on the rounds, of which there are as many as the
two numbers have bits. -/
theorem codes_inverseLoop (n u v g1 g2 : ℕ) (h : f.Reduces x u v g1 g2) (hn : u.size + v.size < n) :
    ∃ r, inverseLoop n u v g1 g2 = .ok r ∧ f.Codes r x⁻¹ := by
  induction n generalizing u v g1 g2 with
  | zero => omega
  | succ n ih =>
    rw [inverseLoop]
    split_ifs with hu hlt
    · subst hu
      have hunit := h.coprime
      rw [toPoly_zero, isCoprime_zero_left] at hunit
      obtain rfl := eq_one_of_isUnit hunit
      refine ⟨g2, rfl, h.last rfl, ?_⟩
      have hv := h.value_v
      rw [value_one] at hv
      exact eq_inv_of_mul_eq_one_left hv.symm
    · obtain ⟨hstep, hshort⟩ := (h.swap hu hlt).step hlt.le
      exact ih _ _ _ _ hstep (by omega)
    · obtain ⟨hstep, hshort⟩ := h.step (by omega)
      exact ih _ _ _ _ hstep (by omega)

theorem codes_inverse (hf : f.WellFormed) {a : ℕ} (ha : f.Codes a x) (hx : x ≠ 0) :
    ∃ r, f.inverse a = .ok r ∧ f.Codes r x⁻¹ := by
  have ha0 : a ≠ 0 := mt (ha.eq_zero_iff hf).1 hx
  have hcoprime : IsCoprime (toPoly a) (toPoly f.reduction) := by
    rw [toPoly_reduction hf]
    apply IsCoprime.symm
    rw [(Fact.out : Irreducible f.modulus).coprime_iff_not_dvd]
    intro hdvd
    have hdeg : (toPoly a).degree < f.modulus.degree := by
      rw [degree_modulus hf]
      exact degree_toPoly_lt.2 ha.1
    exact ha0 (toPoly_eq_zero.1 (eq_zero_of_dvd_of_degree_lt hdvd hdeg))
  have hlen : f.reduction.size ≤ f.m + 1 := by
    rw [Nat.size_le, ← degree_toPoly_lt, toPoly_reduction hf, degree_modulus hf]
    exact_mod_cast Nat.lt_succ_self _
  have hne : f.reduction ≠ 0 := by
    intro h
    have := (modulus_monic hf).ne_zero
    rw [← toPoly_reduction hf, h] at this
    exact this toPoly_zero
  have hsize : a.size ≤ f.m := Nat.size_le.2 ha.1
  rw [inverse, if_neg ha0]
  refine codes_inverseLoop _ _ _ _ _ ⟨hne, ?_, ?_, hcoprime, ?_, ?_, ?_⟩ (by omega)
  · rw [value_one, one_mul, ha.2]
  · rw [value_reduction hf, value, toPoly_zero, map_zero, zero_mul]
  · rw [Nat.size_one]
    omega
  · rw [Nat.size_zero]
    omega
  · intro _
    positivity

theorem codes_div (hf : f.WellFormed) {a b : ℕ} {y : f.Elem} (ha : f.Codes a x)
    (hb : f.Codes b y) (hy : y ≠ 0) : ∃ r, f.div a b = .ok r ∧ f.Codes r (x / y) := by
  obtain ⟨r, hr, hcode⟩ := codes_inverse hf hb hy
  refine ⟨f.mul a r, ?_, ?_⟩
  · rw [div, hr]
    rfl
  · rw [div_eq_mul_inv]
    exact codes_mul hf ha hcode

/-- **Multiplication and inversion are those of polynomials modulo the reduction polynomial.** -/
theorem f2m_arithmetic (f : F2mField) (hf : f.WellFormed) (hirr : Irreducible f.modulus) :
    (∀ x < 2 ^ f.m, ∀ y < 2 ^ f.m,
      f.mul x y < 2 ^ f.m ∧ f.modulus ∣ toPoly (f.mul x y) - toPoly x * toPoly y) ∧
    ∀ x < 2 ^ f.m, x ≠ 0 →
      ∃ z, f.inverse x = .ok z ∧ z < 2 ^ f.m ∧ f.modulus ∣ toPoly x * toPoly z - 1 := by
  have := Fact.mk hirr
  have hcodes : ∀ {x}, x < 2 ^ f.m → f.Codes x (f.value x) := fun h => ⟨h, rfl⟩
  refine ⟨fun x hx y hy => ?_, fun x hx h0 => ?_⟩
  · obtain ⟨hlt, hval⟩ := codes_mul hf (hcodes hx) (hcodes hy)
    refine ⟨hlt, AdjoinRoot.mk_eq_mk.1 ?_⟩
    exact hval
  · have hne : f.value x ≠ 0 := mt ((hcodes hx).eq_zero_iff hf).2 h0
    obtain ⟨z, hz, hlt, hval⟩ := codes_inverse hf (hcodes hx) hne
    refine ⟨z, hz, hlt, AdjoinRoot.mk_eq_mk.1 ?_⟩
    rw [map_mul, map_one, ← value, ← value, hval]
    exact mul_inv_cancel₀ hne

/-- The field with four elements, whose polynomial is `X ^ 2 + X + 1`. -/
theorem f2m_arithmetic_four :
    ∃ z, inverse ⟨2, 1, 0, 0⟩ 2 = .ok z ∧ z < 2 ^ 2 ∧
      modulus ⟨2, 1, 0, 0⟩ ∣ toPoly 2 * toPoly z - 1 := by
  have hf : WellFormed ⟨2, 1, 0, 0⟩ := ⟨by decide, by decide, by decide⟩
  have hdeg := natDegree_eq_of_degree_eq_some (degree_modulus hf)
  refine (f2m_arithmetic ⟨2, 1, 0, 0⟩ hf ?_).2 2 (by decide) (by decide)
  refine irreducible_of_degree_le_three_of_not_isRoot (hdeg ▸ by decide) fun a ha => ?_
  have hroot : a ^ 2 + (1 + a) = 0 := by simpa [IsRoot, modulus, tail, ppb] using ha
  exact (by decide : ∀ a : ZMod 2, a ^ 2 + (1 + a) ≠ 0) a hroot

/-! ### The methods -/

/-- The curve `y² + xy = x³ + ax² + b`. -/
noncomputable def curve (a b : f.Elem) : WeierstrassCurve.Affine f.Elem where
  a₁ := 1
  a₂ := a
  a₃ := 0
  a₄ := 0
  a₆ := b

variable {a b : f.Elem}

theorem two_eq_zero : (2 : f.Elem) = 0 := by
  have h : algebraMap (ZMod 2) f.Elem 2 = 0 := by
    rw [show (2 : ZMod 2) = 0 by decide, map_zero]
  rwa [map_ofNat] at h

theorem curve_negY (x y : f.Elem) : (curve a b).negY x y = x + y := by
  simp only [negY, curve]
  linear_combination (-(x + y)) * two_eq_zero (f := f)

theorem curve_addX (x₁ x₂ l : f.Elem) :
    (curve a b).addX x₁ x₂ l = l * l + l + (x₁ + x₂) + a := by
  simp only [addX, curve]
  linear_combination (-(a + x₁ + x₂)) * two_eq_zero (f := f)

theorem curve_addY (x₁ x₂ y₁ l : f.Elem) : (curve a b).addY x₁ x₂ y₁ l =
    l * (x₁ + (curve a b).addX x₁ x₂ l) + (curve a b).addX x₁ x₂ l + y₁ := by
  rw [addY, curve_negY, negAddY]
  linear_combination (-(l * x₁)) * two_eq_zero (f := f)

theorem eq_curve_negY_iff (x y : f.Elem) : y = (curve a b).negY x y ↔ x = 0 := by
  rw [curve_negY, eq_comm, add_eq_right]

variable [DecidableEq f.Elem]

theorem twice_eq (hf : f.WellFormed) (x y : f.Elem) (h : (curve a b).Nonsingular x y) :
    f.twice (f.code a) (f.code x) (f.code y) =
      .ok (encodePoint f.code (.some x y h + .some x y h : (curve a b).Point)) := by
  have hx := codes_code hf x
  have hy := codes_code hf y
  rw [twice]
  by_cases hx0 : x = 0
  · rw [if_pos ((hx.eq_zero_iff hf).2 hx0), Point.add_self_of_Y_eq ((eq_curve_negY_iff x y).2 hx0)]
    rfl
  have hne : y ≠ (curve a b).negY x y := mt (eq_curve_negY_iff x y).1 hx0
  have hslope : (curve a b).slope x x y y = y / x + x := by
    rw [slope_of_Y_ne rfl hne, curve_negY, div_eq_iff (by simpa [sub_eq_zero] using hx0)]
    simp only [curve]
    field_simp
    linear_combination (2 * x ^ 3 + a * x ^ 2) * two_eq_zero (f := f)
  have hlx : (curve a b).slope x x y y * x = y + x * x := by
    rw [hslope, add_mul, div_mul_cancel₀ _ hx0]
  have hX : (curve a b).slope x x y y * (curve a b).slope x x y y + (curve a b).slope x x y y + a =
      (curve a b).addX x x ((curve a b).slope x x y y) := by
    rw [curve_addX]
    linear_combination (-x) * two_eq_zero (f := f)
  have hY : x * x + (curve a b).slope x x y y * (curve a b).addX x x ((curve a b).slope x x y y) +
      (curve a b).addX x x ((curve a b).slope x x y y) =
      (curve a b).addY x x y ((curve a b).slope x x y y) := by
    rw [curve_addY]
    linear_combination (-1) * hlx - y * two_eq_zero (f := f)
  obtain ⟨r, hr, hdiv⟩ := codes_div hf hy hx hx0
  have hl := codes_add hdiv hx
  rw [← hslope] at hl
  have hx3 := codes_add (codes_add (codes_mul hf hl hl) hl) (codes_code hf a)
  rw [hX] at hx3
  have hy3 := codes_add (codes_add (codes_mul hf hx hx) (codes_mul hf hl hx3)) hx3
  rw [hY] at hy3
  rw [if_neg (mt (hx.eq_zero_iff hf).1 hx0), hr, Point.add_self_of_Y_ne hne]
  exact congrArg Except.ok (congrArg₂ makeEcPoint (hx3.eq_code hf) (hy3.eq_code hf))

theorem addPoints_eq (hf : f.WellFormed) (x₁ y₁ x₂ y₂ : f.Elem)
    (h₁ : (curve a b).Nonsingular x₁ y₁) (h₂ : (curve a b).Nonsingular x₂ y₂) :
    f.addPoints (f.code a) (f.code x₁) (f.code y₁) (f.code x₂) (f.code y₂) =
      .ok (encodePoint f.code (.some x₁ y₁ h₁ + .some x₂ y₂ h₂ : (curve a b).Point)) := by
  have hx₁ := codes_code hf x₁
  have hdx := codes_add hx₁ (codes_code hf x₂)
  have hdy := codes_add (codes_code hf y₁) (codes_code hf y₂)
  have hsum : ∀ x y : f.Elem, x + y = 0 ↔ x = y := by
    intro x y
    rw [← sub_eq_zero (b := y)]
    have : x + y = x - y := by linear_combination y * two_eq_zero (f := f)
    rw [this]
  rw [addPoints]
  by_cases hx : x₁ = x₂
  · rw [if_pos ((hdx.eq_zero_iff hf).2 ((hsum _ _).2 hx))]
    subst hx
    by_cases hy : y₁ = y₂
    · rw [if_pos ((hdy.eq_zero_iff hf).2 ((hsum _ _).2 hy))]
      subst hy
      exact twice_eq hf x₁ y₁ h₁
    · have hneg : y₁ = (curve a b).negY x₁ y₂ := (Y_eq_of_X_eq h₁.1 h₂.1 rfl).resolve_left hy
      rw [if_neg (mt ((hdy.eq_zero_iff hf).trans (hsum _ _)).1 hy), Point.add_of_Y_eq rfl hneg]
      rfl
  have hslope : (curve a b).slope x₁ x₂ y₁ y₂ = (y₁ + y₂) / (x₁ + x₂) := by
    rw [slope_of_X_ne hx, div_eq_div_iff (sub_ne_zero.2 hx) (mt (hsum _ _).1 hx)]
    linear_combination (y₁ * x₂ - y₂ * x₁) * two_eq_zero (f := f)
  obtain ⟨r, hr, hl⟩ := codes_div hf hdy hdx (mt (hsum _ _).1 hx)
  rw [← hslope] at hl
  have hx3 := codes_add (codes_add (codes_add (codes_mul hf hl hl) hl) hdx) (codes_code hf a)
  rw [← curve_addX] at hx3
  have hy3 := codes_add (codes_add (codes_mul hf hl (codes_add hx₁ hx3)) hx3) (codes_code hf y₁)
  rw [← curve_addY] at hy3
  rw [if_neg (mt ((hdx.eq_zero_iff hf).trans (hsum _ _)).1 hx), hr, Point.add_of_X_ne hx]
  exact congrArg Except.ok (congrArg₂ makeEcPoint (hx3.eq_code hf) (hy3.eq_code hf))

end Field

end F2mField

/-- **The methods of `ec-field-f2m` compute in the group of the curve.** -/
theorem f2mImplements {f : F2mField} [Fact (Irreducible f.modulus)] [DecidableEq f.Elem]
    (hf : f.WellFormed) (a b : f.Elem) :
    Implements (f2mMethods f (f.code a)) (F2mField.curve a b) f.code fun _ _ => True where
  injective := F2mField.code_injective hf
  twice x y h _ := F2mField.twice_eq hf x y h
  add x₁ y₁ h₁ x₂ y₂ h₂ _ := F2mField.addPoints_eq hf x₁ y₁ x₂ y₂ h₁ h₂
  negate x y h := by
    have hy := F2mField.codes_add (F2mField.codes_code hf x) (F2mField.codes_code hf y)
    rw [← F2mField.curve_negY] at hy
    exact congrArg Except.ok (congrArg (makeEcPoint (f.code x)) (hy.eq_code hf))

end Sagittarius.Ec
