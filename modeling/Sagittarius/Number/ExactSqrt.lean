import Sagittarius.Number.Rational

/-!
# Exact integer square roots

The loop of `Sg_ExactIntegerSqrt`.  The estimate it starts from is made in floating point and is
any positive number here.

* `newtonStep_ge`, `newtonStep_lt` : a step never goes below the root, and goes down above it;
* `exact_integer_sqrt_loop` : **the loop ends with the root and the remainder**.
-/

namespace Sagittarius

/-- A step of Newton's method for the root of `k`. -/
def newtonStep (k s : ℤ) : ℤ := quotient (s * s + k) (2 * s)

/-- The loop of `Sg_ExactIntegerSqrt`, for a number of rounds. -/
def exactIntegerSqrtLoop (k : ℤ) : ℕ → ℤ → Option (ℤ × ℤ)
  | 0, _ => none
  | n + 1, s =>
    let s2 := s * s
    if k < s2 then exactIntegerSqrtLoop k n (newtonStep k s)
    else
      let s2p := s2 + 2 * s + 1
      if k < s2p then some (s, k - s2) else exactIntegerSqrtLoop k n (newtonStep k s)

section

variable {k s root : ℤ}

theorem exists_root (hk : 0 < k) :
    ∃ root, 0 < root ∧ root * root ≤ k ∧ k < (root + 1) * (root + 1) := by
  obtain ⟨k, rfl⟩ := Int.eq_ofNat_of_zero_le hk.le
  refine ⟨Nat.sqrt k, ?_, ?_, ?_⟩
  · exact_mod_cast Nat.sqrt_pos.2 (Int.natCast_pos.1 hk)
  · exact_mod_cast Nat.sqrt_le k
  · exact_mod_cast Nat.lt_succ_sqrt k

theorem newtonStep_eq (hk : 0 < k) (s : ℤ) : newtonStep k s = (s * s + k) / (2 * s) :=
  quotient_of_pos (Int.add_pos_of_nonneg_of_pos (mul_self_nonneg s) hk)

theorem newtonStep_ge (hk : 0 < k) (hs : 0 < s) (hroot : root * root ≤ k) :
    root ≤ newtonStep k s := by
  rw [newtonStep_eq hk, Int.le_ediv_iff_mul_le (by omega)]
  have hmean : 0 ≤ (s - root) * (s - root) := mul_self_nonneg _
  linarith

theorem newtonStep_lt (hk : 0 < k) (hs : 0 < s) (h : k < s * s) : newtonStep k s < s := by
  rw [newtonStep_eq hk]
  apply Int.ediv_lt_of_lt_mul (by omega)
  linarith

theorem loop_from_above (hk : 0 < k) (hpos : 0 < root) (hroot : root * root ≤ k)
    (hnext : k < (root + 1) * (root + 1)) (hs : root ≤ s) :
    ∃ n, ∀ n', n ≤ n' → exactIntegerSqrtLoop k n' s = some (root, k - root * root) := by
  induction hd : (s - root).toNat using Nat.strong_induction_on generalizing s with
  | _ d ih =>
    rcases hs.eq_or_lt with rfl | hlt
    · refine ⟨1, fun n' hn' => ?_⟩
      obtain ⟨n', rfl⟩ := Nat.exists_eq_add_of_le' hn'
      unfold exactIntegerSqrtLoop
      have hlast : k < root * root + 2 * root + 1 := by linarith
      simp only [if_neg hroot.not_gt, if_pos hlast]
    · have habove : k < s * s := hnext.trans_le (mul_self_le_mul_self (by omega) (by omega))
      have hge := newtonStep_ge hk (hpos.trans hlt) hroot
      have hless := newtonStep_lt hk (hpos.trans hlt) habove
      obtain ⟨n, hn⟩ := ih _ (by omega) hge rfl
      refine ⟨n + 1, fun n' hn' => ?_⟩
      obtain ⟨n', rfl⟩ := Nat.exists_eq_add_of_le' (Nat.le_of_add_left_le hn')
      unfold exactIntegerSqrtLoop
      rw [if_pos habove]
      exact hn n' (by omega)

end

/-- **The loop of `Sg_ExactIntegerSqrt` ends**, wherever it starts. -/
theorem exact_integer_sqrt_loop (k s : ℤ) (hk : 1 ≤ k) (hs : 1 ≤ s) :
    ∃ n root r, (∀ n', n ≤ n' → exactIntegerSqrtLoop k n' s = some (root, r)) ∧
      k = root ^ 2 + r ∧ 0 ≤ r ∧ r ≤ 2 * root := by
  obtain ⟨root, hpos, hroot, hnext⟩ := exists_root (show 0 < k by omega)
  suffices h : ∃ n, ∀ n', n ≤ n' →
      exactIntegerSqrtLoop k n' s = some (root, k - root * root) by
    obtain ⟨n, hn⟩ := h
    exact ⟨n, root, _, hn, by ring, by linarith, by linarith⟩
  rcases le_or_gt root s with hle | hlt
  · exact loop_from_above (by omega) hpos hroot hnext hle
  -- below the root the first step jumps over it
  · have hbelow : (s + 1) * (s + 1) ≤ root * root := mul_self_le_mul_self (by omega) (by omega)
    obtain ⟨n, hn⟩ := loop_from_above (by omega) hpos hroot hnext
      (newtonStep_ge (by omega) (show 0 < s by omega) hroot)
    refine ⟨n + 1, fun n' hn' => ?_⟩
    obtain ⟨n', rfl⟩ := Nat.exists_eq_add_of_le' (Nat.le_of_add_left_le hn')
    unfold exactIntegerSqrtLoop
    have hs2 : ¬ k < s * s := by linarith
    have hs2p : ¬ k < s * s + 2 * s + 1 := by linarith
    simp only [if_neg hs2, if_neg hs2p]
    exact hn n' (by omega)

/-- The root of 17, from the estimate one. -/
theorem exact_integer_sqrt_loop_one :
    ∃ n root r, (∀ n', n ≤ n' → exactIntegerSqrtLoop 17 n' 1 = some (root, r)) ∧
      17 = root ^ 2 + r ∧ 0 ≤ r ∧ r ≤ 2 * root :=
  exact_integer_sqrt_loop 17 1 (by decide) (by decide)

end Sagittarius
