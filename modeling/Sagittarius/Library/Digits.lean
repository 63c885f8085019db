import Mathlib.Algebra.Order.Ring.Nat
import Mathlib.Tactic.Ring
import Mathlib.Tactic.Linarith
import Mathlib.Tactic.LinearCombination
import Mathlib.Tactic.Positivity

/-!
# Segments of positional numbers

A number in positional notation is kept as a digit function `d : ℕ → ℕ` together with a base
`b`; `seg b d i k` is the value of the `k` digits `d i, …, d (i + k - 1)`, least significant
first.  A loop that walks over an array of digits is then described by one equation between
segments and a carry, and nothing has to be said about the digits the loop does not visit.

* `seg_append`, `seg_top` : splitting a segment, and splitting off its most significant digit;
* `seg_lt` : a segment of `k` digits is below `b ^ k`;
* `seg_inj` : digits below the base are determined by the value of the segment;
* `seg_pair` : pairs of digits are digits of the square of the base.
-/

namespace Sagittarius

namespace Digits

/-- The value of the `k` base-`b` digits of `d` from index `i` on, least significant first. -/
def seg (b : ℕ) (d : ℕ → ℕ) : ℕ → ℕ → ℕ
  | _, 0 => 0
  | i, k + 1 => d i + b * seg b d (i + 1) k

variable {b : ℕ} {d e : ℕ → ℕ}

@[simp] theorem seg_zero (i : ℕ) : seg b d i 0 = 0 := rfl

theorem seg_succ (i k : ℕ) : seg b d i (k + 1) = d i + b * seg b d (i + 1) k := rfl

@[simp] theorem seg_one (i : ℕ) : seg b d i 1 = d i := by simp [seg_succ]

theorem seg_congr {i k : ℕ} (h : ∀ j, i ≤ j → j < i + k → d j = e j) :
    seg b d i k = seg b e i k := by
  induction k generalizing i with
  | zero => rfl
  | succ k ih =>
    rw [seg_succ, seg_succ, h i le_rfl (by omega),
      ih fun j h1 h2 => h j (by omega) (by omega)]

theorem seg_append (i m n : ℕ) :
    seg b d i (m + n) = seg b d i m + b ^ m * seg b d (i + m) n := by
  induction m generalizing i with
  | zero => simp
  | succ m ih =>
    rw [Nat.add_right_comm, seg_succ, ih, seg_succ, Nat.add_right_comm i 1 m, ← Nat.add_assoc]
    ring

theorem seg_top (i k : ℕ) : seg b d i (k + 1) = seg b d i k + b ^ k * d (i + k) := by
  rw [seg_append, seg_one]

theorem seg_add (i k : ℕ) : seg b (fun j => d j + e j) i k = seg b d i k + seg b e i k := by
  induction k generalizing i with
  | zero => rfl
  | succ k ih =>
    rw [seg_succ, seg_succ, seg_succ, ih]
    ring

theorem seg_mul (c i k : ℕ) : seg b (fun j => d j * c) i k = seg b d i k * c := by
  induction k generalizing i with
  | zero => exact (Nat.zero_mul c).symm
  | succ k ih =>
    rw [seg_succ, seg_succ, ih]
    ring

theorem seg_ones (hb : 0 < b) (i k : ℕ) : seg b (fun _ => b - 1) i k + 1 = b ^ k := by
  induction k generalizing i with
  | zero => rfl
  | succ k ih =>
    rw [pow_succ', ← ih (i + 1), seg_succ, Nat.mul_add]
    omega

theorem seg_shift (n i k : ℕ) : seg b (fun j => d (n + j)) i k = seg b d (n + i) k := by
  induction k generalizing i with
  | zero => rfl
  | succ k ih => rw [seg_succ, seg_succ, ih, Nat.add_assoc]

theorem seg_lt (h : ∀ j, d j < b) (i k : ℕ) : seg b d i k < b ^ k := by
  induction k generalizing i with
  | zero => simp
  | succ k ih =>
    have h1 : b * seg b d (i + 1) k + b ≤ b * b ^ k := Nat.mul_le_mul_left _ (ih (i + 1))
    have h2 := h i
    rw [seg_succ, pow_succ, Nat.mul_comm _ b]
    omega

theorem seg_eq_zero {i k : ℕ} (h : ∀ j, i ≤ j → j < i + k → d j = 0) : seg b d i k = 0 := by
  rw [seg_congr h]
  clear h
  induction k generalizing i with
  | zero => rfl
  | succ k ih => simp [seg_succ, ih]

theorem seg_mod (hd : ∀ j, d j < b) (i m n : ℕ) :
    seg b d i (m + n) % b ^ m = seg b d i m := by
  rw [seg_append, Nat.add_mul_mod_self_left, Nat.mod_eq_of_lt (seg_lt hd i m)]

theorem seg_div (hb : 0 < b) (hd : ∀ j, d j < b) (i m n : ℕ) :
    seg b d i (m + n) / b ^ m = seg b d (i + m) n := by
  rw [seg_append, Nat.add_mul_div_left _ _ (Nat.pow_pos hb),
    Nat.div_eq_of_lt (seg_lt hd i m), Nat.zero_add]

/-- Two numbers split at the same place are equal iff both parts are. -/
theorem split_inj {p x y u v : ℕ} (hx : x < p) (hy : y < p) (h : x + p * u = y + p * v) :
    x = y ∧ u = v := by
  have hp : 0 < p := by omega
  obtain ⟨hu, hx⟩ := (Nat.div_mod_unique hp).2 ⟨h, hx⟩
  obtain ⟨hv, hy⟩ := (Nat.div_mod_unique hp).2 ⟨rfl, hy⟩
  exact ⟨hx.symm.trans hy, hu.symm.trans hv⟩

theorem seg_inj (hd : ∀ j, d j < b) (he : ∀ j, e j < b) {i k : ℕ}
    (h : seg b d i k = seg b e i k) : ∀ j, i ≤ j → j < i + k → d j = e j := by
  induction k generalizing i with
  | zero => intro j h1 h2; omega
  | succ k ih =>
    obtain ⟨h0, h⟩ := split_inj (hd i) (he i) h
    intro j h1 h2
    rcases Nat.eq_or_lt_of_le h1 with rfl | h1
    · exact h0
    · exact ih h j h1 (by omega)

/-- Pairs of base-`b` digits are the digits of the same number in base `b * b`. -/
theorem seg_pair (i k : ℕ) :
    seg (b * b) (fun j => d (2 * j) + b * d (2 * j + 1)) i k = seg b d (2 * i) (2 * k) := by
  induction k generalizing i with
  | zero => rfl
  | succ k ih =>
    rw [seg_succ, ih, show 2 * (k + 1) = 2 * k + 1 + 1 by ring, seg_succ, seg_succ,
      show 2 * (i + 1) = 2 * i + 1 + 1 by ring]
    ring

end Digits

end Sagittarius
