import Mathlib.Algebra.Order.Field.Basic
import Mathlib.Algebra.Order.Group.Unbundled.Abs
import Mathlib.Algebra.Group.Nat.Even
import Mathlib.Tactic.Linarith
import Mathlib.Tactic.LinearCombination

/-!
# The nearest point of a grid

A grid is a strictly increasing function on the indices `0 … N`.

* `IsNearest g N v i` : `g i` is the point nearest to `v`, and of two such points that with the even
  index;
* `isNearest_iff` : the same by the midpoints to the two neighbours.
-/

namespace Sagittarius.Nearest

variable {K : Type*} [Field K] [LinearOrder K] [IsStrictOrderedRing K]

/-- `g i` is nearer to `v` than all other points, or as near and has the even index. -/
def IsNearest (g : ℕ → K) (N : ℕ) (v : K) (i : ℕ) : Prop :=
  i ≤ N ∧ ∀ j ≤ N, j ≠ i → |v - g i| < |v - g j| ∨ (|v - g i| = |v - g j| ∧ Even i)

/-- `v` is not above the midpoint of `a` and `b`, or on it and `i` is even. -/
def BelowMid (v a b : K) (i : ℕ) : Prop := 2 * v < a + b ∨ (2 * v = a + b ∧ Even i)

/-- `v` is not below the midpoint of `a` and `b`, or on it and `i` is even. -/
def AboveMid (v a b : K) (i : ℕ) : Prop := a + b < 2 * v ∨ (2 * v = a + b ∧ Even i)

theorem abs_sub_lt_iff_left {v a b : K} (h : a < b) : |v - a| < |v - b| ↔ 2 * v < a + b := by
  rw [← sq_lt_sq]
  constructor
  · intro hlt
    by_contra hc
    nlinarith
  · intro hlt
    nlinarith

theorem abs_sub_eq_iff {v a b : K} (h : a < b) : |v - a| = |v - b| ↔ 2 * v = a + b := by
  rw [← sq_eq_sq_iff_abs_eq_abs]
  constructor
  · intro heq
    have hzero : (b - a) * (2 * v - (a + b)) = 0 := by linear_combination heq
    rcases mul_eq_zero.1 hzero with h0 | h0
    · linarith
    · linarith
  · intro heq
    linear_combination (b - a) * heq

theorem abs_sub_lt_iff_right {v a b : K} (h : a < b) : |v - b| < |v - a| ↔ a + b < 2 * v := by
  rw [← sq_lt_sq]
  constructor
  · intro hlt
    by_contra hc
    nlinarith
  · intro hlt
    nlinarith

/-- The nearest point lies between the midpoints to its neighbours. -/
theorem isNearest_iff {g : ℕ → K} (hg : StrictMono g) {N : ℕ} {v : K} {i : ℕ} :
    IsNearest g N v i ↔ i ≤ N ∧ (i < N → BelowMid v (g i) (g (i + 1)) i) ∧
      (0 < i → AboveMid v (g (i - 1)) (g i) i) := by
  constructor
  · rintro ⟨hi, h⟩
    refine ⟨hi, fun hN => ?_, fun h0 => ?_⟩
    · have hlt := hg (Nat.lt_succ_self i)
      exact (h (i + 1) hN (by omega)).imp (abs_sub_lt_iff_left hlt).1
        (And.imp_left (abs_sub_eq_iff hlt).1)
    · have hlt := hg (show i - 1 < i by omega)
      refine (h (i - 1) (by omega) (by omega)).imp (abs_sub_lt_iff_right hlt).1
        (And.imp_left fun heq => (abs_sub_eq_iff hlt).1 heq.symm)
  · rintro ⟨hi, hup, hdown⟩
    refine ⟨hi, fun j hj hne => ?_⟩
    rcases Nat.lt_or_gt_of_ne hne with hlt | hlt
    · have hmono := hg hlt
      rw [abs_sub_lt_iff_right hmono, eq_comm, abs_sub_eq_iff hmono]
      rcases Nat.eq_or_lt_of_le (show j ≤ i - 1 by omega) with rfl | hfar
      · exact hdown (by omega)
      · have hj' := hg hfar
        rcases hdown (by omega) with h | ⟨h, -⟩
        · exact .inl (by linarith)
        · exact .inl (by linarith)
    · have hmono := hg hlt
      rw [abs_sub_lt_iff_left hmono, abs_sub_eq_iff hmono]
      rcases Nat.eq_or_lt_of_le (show i + 1 ≤ j by omega) with rfl | hfar
      · exact hup (by omega)
      · have hj' := hg hfar
        rcases hup (by omega) with h | ⟨h, -⟩
        · exact .inl (by linarith)
        · exact .inl (by linarith)

end Sagittarius.Nearest
