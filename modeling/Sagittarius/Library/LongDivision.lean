import Sagittarius.Library.Digits

/-!
# The digit estimate of long division

One step of long division in base `b` divides a number `U < b * V` by `V`.  The quotient digit is
estimated from the two leading digits of `U` (`uu`) and the leading digit `v₁` of `V`, and the
estimate `qq`, with remainder `rr`, is decreased as long as the next digits `u₂`, `v₂` show that
it is too large.  `P` is the weight of those digits.

* `lt_mul_of_test` : the test only fires on an estimate that is too large;
* `mul_lt_of_test` : an estimate that passes the test is too large by at most one;
* `mul_le_of_rem` : an estimate whose remainder has reached the base is not too large;
* `step_eq`, `step_lt` : the invariant of the division, digit by digit.
-/

namespace Sagittarius

namespace LongDivision

variable {b v₁ v₂ V P uu u₂ U qq rr : ℕ}

/-- An estimate that fails the test is too large. -/
theorem lt_mul_of_test (hV : (v₁ * b + v₂) * P ≤ V) (hU : U < (uu * b + u₂ + 1) * P)
    (hqr : qq * v₁ + rr = uu) (htest : rr * b + u₂ < qq * v₂) : U < qq * V :=
  calc U < (uu * b + u₂ + 1) * P := hU
    _ ≤ (qq * (v₁ * b + v₂)) * P := Nat.mul_le_mul_right _ (by
      rw [← hqr]
      calc (qq * v₁ + rr) * b + u₂ + 1 = qq * v₁ * b + (rr * b + u₂ + 1) := by ring
        _ ≤ qq * v₁ * b + qq * v₂ := Nat.add_le_add_left htest _
        _ = _ := by ring)
    _ = qq * ((v₁ * b + v₂) * P) := Nat.mul_assoc _ _ _
    _ ≤ _ := Nat.mul_le_mul_left _ hV

/-- An estimate that passes the test is too large by at most one. -/
theorem mul_lt_of_test (hV : V < (v₁ * b + v₂ + 1) * P) (hU : (uu * b + u₂) * P ≤ U)
    (hqr : qq * v₁ + rr = uu) (htest : qq * v₂ ≤ rr * b + u₂) (hqq : 0 < qq) (hle : qq * P ≤ V) :
    qq * V < U + V :=
  calc qq * V < qq * ((v₁ * b + v₂ + 1) * P) := Nat.mul_lt_mul_of_pos_left hV hqq
    _ = (qq * v₁ * b + qq * v₂) * P + qq * P := by ring
    _ ≤ (qq * v₁ * b + (rr * b + u₂)) * P + qq * P :=
      Nat.add_le_add_right (Nat.mul_le_mul_right _ (Nat.add_le_add_left htest _)) _
    _ = ((qq * v₁ + rr) * b + u₂) * P + qq * P := by ring
    _ ≤ _ := by rw [hqr]; exact Nat.add_le_add hU hle

theorem mul_le_of_rem (hV : V < (v₁ + 1) * P) (hU : uu * P ≤ U) (hqr : qq * v₁ + rr = uu)
    (hqq : qq < b) (hrr : b ≤ rr) : qq * V ≤ U :=
  calc qq * V ≤ qq * ((v₁ + 1) * P) := Nat.mul_le_mul_left _ hV.le
    _ = (qq * v₁ + qq) * P := by ring
    _ ≤ (qq * v₁ + rr) * P := Nat.mul_le_mul_right _ (by omega)
    _ ≤ _ := by rw [hqr]; exact hU

theorem estimate_bounds (hV : 0 < V) (hge : U / V ≤ qq) (hlt : qq * V < U + V) :
    qq = U / V ∨ qq = U / V + 1 := by
  have h : qq ≤ U / V + 1 := by
    rw [← Nat.add_div_right U hV]
    exact (Nat.le_div_iff_mul_le hV).2 hlt.le
  omega

theorem step_eq (p low W : ℕ) : low + p * W = p * (W / V) * V + (low + p * (W % V)) := by
  conv_lhs => rw [← Nat.mod_add_div W V]
  ring

theorem step_lt {p low W : ℕ} (hV : 0 < V) (hlow : low < p) : low + p * (W % V) < p * V := by
  have h : p * (W % V) + p ≤ p * V := Nat.mul_le_mul_left _ (Nat.mod_lt _ hV)
  omega

end LongDivision

end Sagittarius
