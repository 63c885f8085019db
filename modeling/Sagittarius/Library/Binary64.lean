import Sagittarius.Library.Nearest
import Mathlib.Algebra.Order.Field.Power
import Mathlib.Data.Rat.Cast.Order
import Mathlib.Tactic.NormNum
import Mathlib.Tactic.Ring

/-!
# Double precision numbers

The doubles that are not negative, in the order of their bit patterns: the double with the index `i`
is `significand i * 2 ^ exponent i`.  The index `infinity` is the pattern of the infinity; its value
here is `2 ^ 1024`, the next number if there were no bound, so that rounding to the nearest index
up to `infinity` is the rounding of IEEE 754.

* `index m k` : the index of `m * 2 ^ k`, for a canonical pair (`IsPair`);
* `value_succ` : the distance to the next double; `value_strictMono`.
-/

namespace Sagittarius.Binary64

/-- The pattern of the infinity. -/
def infinity : ℕ := 2047 * 2 ^ 52

/-- The significand, with the hidden bit. -/
def significand (i : ℕ) : ℕ := if i < 2 ^ 52 then i else 2 ^ 52 + i % 2 ^ 52

/-- The weight of the last bit. -/
def exponent (i : ℕ) : ℤ := if i < 2 ^ 52 then -1074 else (i / 2 ^ 52 : ℕ) - 1075

/-- The number. -/
def value (i : ℕ) : ℚ := significand i * 2 ^ exponent i

/-- The significand and the weight of a double. -/
structure IsPair (m : ℕ) (k : ℤ) : Prop where
  lt : m < 2 ^ 53
  low : -1074 ≤ k
  normal : k = -1074 ∨ 2 ^ 52 ≤ m

/-- The index of a pair. -/
def index (m : ℕ) (k : ℤ) : ℕ := m + (k + 1074).toNat * 2 ^ 52

theorem isPair_index (i : ℕ) : IsPair (significand i) (exponent i) := by
  rw [significand, exponent]
  by_cases h : i < 2 ^ 52
  · rw [if_pos h, if_pos h]
    exact ⟨by omega, le_rfl, .inl rfl⟩
  · rw [if_neg h, if_neg h]
    exact ⟨by omega, by omega, .inr (by omega)⟩

theorem index_pair (i : ℕ) : index (significand i) (exponent i) = i := by
  rw [index, significand, exponent]
  by_cases h : i < 2 ^ 52
  · rw [if_pos h, if_pos h]
    rfl
  · rw [if_neg h, if_neg h]
    omega

section

variable {m : ℕ} {k : ℤ} (h : IsPair m k)

include h

theorem significand_index : significand (index m k) = m := by
  obtain ⟨hlt, hlow, hnormal⟩ := h
  rw [significand, index]
  split_ifs <;> omega

theorem exponent_index : exponent (index m k) = k := by
  obtain ⟨hlt, hlow, hnormal⟩ := h
  rw [exponent, index]
  split_ifs <;> omega

theorem value_index : value (index m k) = m * 2 ^ k := by
  rw [value, significand_index h, exponent_index h]

end

/-! ### Neighbours -/

/-- **The next double** is one unit of the last place away. -/
theorem value_succ (i : ℕ) : value (i + 1) = value i + 2 ^ exponent i := by
  have hpair := isPair_index i
  generalize hm : significand i = m at hpair
  generalize hk : exponent i = k at hpair
  have hi : index m k = i := by rw [← hm, ← hk, index_pair]
  by_cases htop : m = 2 ^ 53 - 1
  · have hpair' : IsPair (2 ^ 52) (k + 1) := ⟨by decide, by have := hpair.low; omega, .inr le_rfl⟩
    have hidx : i + 1 = index (2 ^ 52) (k + 1) := by
      have := hpair.low
      rw [← hi, index, index, htop]
      omega
    rw [hidx, value_index hpair', ← hi, value_index hpair, htop, zpow_add_one₀ (by decide)]
    ring
  · have hlt := hpair.lt
    have hpair' : IsPair (m + 1) k :=
      ⟨by omega, hpair.low, hpair.normal.imp id fun h => by omega⟩
    have hidx : i + 1 = index (m + 1) k := by
      rw [← hi, index, index]
      omega
    rw [hidx, value_index hpair', ← hi, value_index hpair]
    push_cast
    ring

theorem value_strictMono : StrictMono value := by
  refine strictMono_nat_of_lt_succ fun i => ?_
  rw [value_succ]
  exact lt_add_of_pos_right _ (zpow_pos (by norm_num) _)

theorem value_infinity : value infinity = 2 ^ 1024 := by
  have hpair : IsPair (2 ^ 52) 972 := ⟨by decide, by decide, .inr le_rfl⟩
  have hidx : infinity = index (2 ^ 52) 972 := by decide
  have hpow : (2 : ℚ) ^ (972 : ℤ) = 2 ^ 972 := zpow_natCast 2 972
  rw [hidx, value_index hpair, hpow, Nat.cast_pow, Nat.cast_ofNat, ← pow_add]

end Sagittarius.Binary64
