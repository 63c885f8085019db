import Mathlib.Algebra.CharP.Two
import Mathlib.Algebra.Polynomial.Degree.Lemmas
import Mathlib.Algebra.Polynomial.FieldDivision
import Mathlib.Algebra.Field.ZMod
import Mathlib.Data.Nat.Size

/-!
# Polynomials over the field of two elements, as numbers

A number holds the coefficients of a polynomial in its bits.

* `toPoly` : the polynomial of a number; `toPoly_injective`, `exists_toPoly_eq` : every polynomial
  has one number;
* `toPoly_xor`, `toPoly_shiftLeft` : sums, and products with powers of the variable;
* `degree_toPoly_lt` : the degree is the length of the number;
* `size_xor_lt` : the sum of two polynomials of one degree has a smaller degree.
-/

namespace BinaryPolynomial

open Polynomial Nat

/-! ### Lengths -/

theorem testBit_size_sub_one {n : ℕ} (h : n ≠ 0) : n.testBit (n.size - 1) = true := by
  have hpos : 0 < n.size := Nat.size_pos.2 (Nat.pos_of_ne_zero h)
  have hlow : 2 ^ (n.size - 1) ≤ n := lt_size.1 (by omega)
  have hhigh : n < 2 ^ (n.size - 1 + 1) := by
    rw [show n.size - 1 + 1 = n.size by omega]
    exact lt_size_self n
  have hdiv : n / 2 ^ (n.size - 1) = 1 := by
    rw [Nat.div_eq_iff (by positivity)]
    omega
  rw [testBit, shiftRight_eq_div_pow, hdiv]
  rfl

theorem size_xor_le (a b : ℕ) : (a ^^^ b).size ≤ max a.size b.size := by
  rw [size_le]
  apply xor_lt_two_pow
  · exact size_le.1 (le_max_left _ _)
  · exact size_le.1 (le_max_right _ _)

theorem size_xor_lt {a b : ℕ} (ha : a ≠ 0) (h : a.size = b.size) : (a ^^^ b).size < a.size := by
  have hpos : 0 < a.size := Nat.size_pos.2 (Nat.pos_of_ne_zero ha)
  have hb : b ≠ 0 := by
    rintro rfl
    rw [h] at hpos
    exact absurd hpos (by decide)
  have hlt : a ^^^ b < 2 ^ (a.size - 1) := by
    apply lt_pow_two_of_testBit
    intro i hi
    rw [testBit_xor]
    rcases Nat.eq_or_lt_of_le hi with rfl | hlt
    · rw [testBit_size_sub_one ha, h, testBit_size_sub_one hb]
      rfl
    · rw [testBit_lt_two_pow (size_le.1 (by omega : a.size ≤ i)),
        testBit_lt_two_pow (size_le.1 (by omega : b.size ≤ i))]
      rfl
  have := size_le.2 hlt
  omega

/-! ### The polynomial of a number -/

/-- The polynomial whose coefficients are the bits of the number. -/
noncomputable def toPoly (n : ℕ) : (ZMod 2)[X] :=
  ∑ i ∈ Finset.range n.size, if n.testBit i then X ^ i else 0

theorem coeff_toPoly (n i : ℕ) : (toPoly n).coeff i = if n.testBit i then 1 else 0 := by
  have hterm : ∀ j, (if n.testBit j then (X ^ j : (ZMod 2)[X]) else 0).coeff i =
      if i = j then (if n.testBit i then 1 else 0) else 0 := by
    intro j
    by_cases hij : i = j
    · subst hij
      by_cases hbit : n.testBit i <;> simp [hbit]
    · by_cases hbit : n.testBit j <;> simp [hbit, hij, coeff_X_pow]
  rw [toPoly, finsetSum_coeff, Finset.sum_congr rfl fun j _ => hterm j, Finset.sum_ite_eq]
  by_cases hi : i < n.size
  · rw [if_pos (Finset.mem_range.2 hi)]
  · rw [if_neg (by simpa using hi), testBit_lt_two_pow (size_le.1 (by omega))]
    rfl

theorem toPoly_xor (a b : ℕ) : toPoly (a ^^^ b) = toPoly a + toPoly b := by
  ext i
  rw [coeff_add, coeff_toPoly, coeff_toPoly, coeff_toPoly, testBit_xor]
  cases a.testBit i <;> cases b.testBit i <;> decide

theorem toPoly_shiftLeft (a j : ℕ) : toPoly (a <<< j) = X ^ j * toPoly a := by
  ext i
  rw [coeff_X_pow_mul', coeff_toPoly, coeff_toPoly, testBit_shiftLeft]
  by_cases hj : j ≤ i <;> simp [hj]

@[simp]
theorem toPoly_zero : toPoly 0 = 0 := rfl

@[simp]
theorem toPoly_one : toPoly 1 = 1 := by
  ext i
  cases i with
  | zero => simp [coeff_toPoly]
  | succ i => simp [coeff_toPoly, coeff_one, testBit_succ]

theorem toPoly_one_shiftLeft (j : ℕ) : toPoly (1 <<< j) = X ^ j := by
  rw [toPoly_shiftLeft, toPoly_one, mul_one]

theorem toPoly_or_shiftLeft {a k : ℕ} (h : a.testBit k = false) :
    toPoly (a ||| (1 <<< k)) = toPoly a + X ^ k := by
  rw [← toPoly_one_shiftLeft, ← toPoly_xor]
  congr 1
  apply eq_of_testBit_eq
  intro i
  rw [testBit_or, testBit_xor, one_shiftLeft, testBit_two_pow]
  by_cases hi : k = i
  · subst hi
    simp [h]
  · simp [hi]

theorem toPoly_eq_sum {n m : ℕ} (h : n < 2 ^ m) :
    toPoly n = ∑ i ∈ Finset.range m, if n.testBit i then X ^ i else 0 := by
  apply Finset.sum_subset
  · exact Finset.range_subset_range.2 (size_le.2 h)
  · intro i _ hi
    rw [testBit_lt_two_pow (size_le.1 (by simpa using hi))]
    rfl

theorem toPoly_injective : Function.Injective toPoly := by
  intro a b h
  apply eq_of_testBit_eq
  intro i
  have hi := congrArg (fun q => q.coeff i) h
  simp only [coeff_toPoly] at hi
  cases ha : a.testBit i <;> cases hb : b.testBit i <;> simp_all

theorem toPoly_eq_zero {n : ℕ} : toPoly n = 0 ↔ n = 0 := by
  rw [← toPoly_zero, toPoly_injective.eq_iff]

theorem degree_toPoly_lt {n m : ℕ} : (toPoly n).degree < m ↔ n < 2 ^ m := by
  rw [degree_lt_iff_coeff_zero]
  constructor
  · intro h
    apply lt_pow_two_of_testBit
    intro i hi
    have := h i hi
    rw [coeff_toPoly] at this
    by_contra hbit
    simp [hbit] at this
  · intro h i hi
    rw [coeff_toPoly, testBit_lt_two_pow]
    · rfl
    · exact lt_of_lt_of_le h (Nat.pow_le_pow_right (by decide) hi)

/-- Every polynomial is the polynomial of a number: by induction on a bound of the degree. -/
theorem exists_toPoly_eq (q : (ZMod 2)[X]) : ∃ n, toPoly n = q := by
  induction q using Polynomial.induction_on' with
  | add q r hq hr =>
    obtain ⟨a, rfl⟩ := hq
    obtain ⟨b, rfl⟩ := hr
    exact ⟨a ^^^ b, toPoly_xor a b⟩
  | monomial i c =>
    have hc : c = 0 ∨ c = 1 := by
      revert c
      decide
    rcases hc with rfl | rfl
    · exact ⟨0, by simp⟩
    · exact ⟨1 <<< i, by rw [toPoly_one_shiftLeft, X_pow_eq_monomial]⟩

theorem eq_one_of_isUnit {n : ℕ} (h : IsUnit (toPoly n)) : n = 1 := by
  have hdeg : (toPoly n).degree < (1 : ℕ) := by
    rw [degree_eq_zero_of_isUnit h]
    exact_mod_cast Nat.one_pos
  have hlt := degree_toPoly_lt.1 hdeg
  have hne : n ≠ 0 := by
    rintro rfl
    exact not_isUnit_zero (toPoly_zero ▸ h)
  omega

end BinaryPolynomial
