import Mathlib.Data.Nat.Size
import Mathlib.NumberTheory.Padics.PadicVal.Basic
import Sagittarius.Bignum.Basic

/-!
# Greatest common divisors

`Sg_Gcd` on exact integers, with `Sg_BignumGcd` and `binary_gcd`.  From here on an exact integer is
its value; a fixnum is an integer in the range of the fixnums.

* `binaryGcd_eq` : Algorithm B comes to an end, with the greatest common divisor;
* `NegativeGcd` : the divisions of `Sg_BignumGcd` come out even at a remainder that is negative;
* `sgGcd_eq` : **the result is the greatest common divisor up to its sign**, which is wrong in the
  case of `GcdNegative` only.
-/

namespace Sagittarius

open Int Option Nat

/-! ### The functions -/

/-- `SG_BIGNUM_GET_COUNT` : the number of words of a bignum with this magnitude. -/
def wordCount (n : ℕ) : ℕ := (n.size + 63) / 64

/-- `Sg_GetIntegerClamp` is in range. -/
def FitsLong (n : ℤ) : Prop := -2 ^ 63 ≤ n ∧ n < 2 ^ 63

instance (n : ℤ) : Decidable (FitsLong n) := inferInstanceAs (Decidable (_ ∧ _))

/-- Euclid's algorithm. -/
def gcdFixfix (x y : ℕ) : ℕ :=
  if _h : y = 0 then x else gcdFixfix y (x % y)
termination_by y
decreasing_by exact mod_lt _ (Nat.pos_of_ne_zero _h)

/-- One division, then `gcd_fixfix`. -/
def gcdBigfix (x : ℤ) (y : ℕ) : ℕ := gcdFixfix y (x.tmod y).natAbs

/-- The loop of `binary_gcd`; `tu` says that `t` is `u`.  It is given a number of rounds. -/
def binaryGcdLoop (k : ℕ) : ℕ → ℕ → ℕ → Bool → Option ℤ
  | 0, _, _, _ => none
  | n + 1, u, v, tu =>
    let t := if tu then u else v
    if t = 0 then some ((u <<< k : ℕ) : ℤ)
    else
      let t := t >>> padicValNat 2 t
      let (u, v) := if tu then (t, v) else (u, t)
      if wordCount u < 2 ∧ wordCount v < 2 then
        some (((if v ≤ u then gcdFixfix u v else gcdFixfix v u) <<< k : ℕ) : ℤ)
      else if u = v then some ((u <<< k : ℕ) : ℤ)
      else if v < u then binaryGcdLoop k n (u - v) v true
      else binaryGcdLoop k n u (v - u) false

/-- `binary_gcd` : Algorithm B from Knuth section 4.5.2 -/
def binaryGcd (bx by' : ℤ) : Option ℤ :=
  let u := bx.natAbs
  let v := by'.natAbs
  let s1 := padicValNat 2 u
  let s2 := padicValNat 2 v
  let k := min s1 s2
  binaryGcdLoop k (u + v + 1) (u >>> k) (v >>> k) (k ≠ s1)

/-- `Sg_Gcd` of a bignum and a fixnum, as `Sg_BignumGcd` calls it. -/
def sgGcdFixnum (x t : ℤ) : ℤ :=
  if t = 0 then x
  else if FitsLong x then
    if t.natAbs ≤ x.natAbs then gcdFixfix x.natAbs t.natAbs else gcdFixfix t.natAbs x.natAbs
  else gcdBigfix x t.natAbs

/-- Divides until the lengths are close. -/
def sgBignumGcd (bx by' : ℤ) : Option ℤ :=
  if _h : by' = 0 then some bx
  else if ((wordCount bx.natAbs : ℤ) - wordCount by'.natAbs).natAbs < 2 then binaryGcd bx by'
  else if FixnumRange (bx.tmod by') then some (sgGcdFixnum by' (bx.tmod by'))
  else sgBignumGcd by' (bx.tmod by')
termination_by by'.natAbs
decreasing_by
  rw [natAbs_tmod]
  exact mod_lt _ (natAbs_pos.2 _h)

/-- Chooses by the size of the operands. -/
def sgGcd (x y : ℤ) : Option ℤ :=
  if x = 0 then some y
  else if y = 0 then some x
  else if FitsLong x ∧ FitsLong y then
    some ((if y.natAbs ≤ x.natAbs then gcdFixfix x.natAbs y.natAbs
      else gcdFixfix y.natAbs x.natAbs : ℕ) : ℤ)
  else if FitsLong y ∧ y ≠ -2 ^ 63 then some (gcdBigfix x y.natAbs : ℤ)
  else if FitsLong x ∧ x ≠ -2 ^ 63 then some (gcdBigfix y x.natAbs : ℤ)
  else sgBignumGcd x y

/-! ### The algorithm of Euclid on words -/

theorem gcdFixfix_eq (x y : ℕ) : gcdFixfix x y = x.gcd y := by
  induction y using Nat.strong_induction_on generalizing x with
  | _ y ih =>
    rw [gcdFixfix]
    split_ifs with h
    · rw [h, Nat.gcd_zero_right]
    · rw [ih (x % y) (mod_lt _ (Nat.pos_of_ne_zero h)), Nat.gcd_comm, ← gcd_rec,
        Nat.gcd_comm]

theorem gcdFixfix_ordered (x y : ℕ) :
    (if y ≤ x then gcdFixfix x y else gcdFixfix y x) = x.gcd y := by
  split_ifs
  · exact gcdFixfix_eq x y
  · rw [gcdFixfix_eq, Nat.gcd_comm]

theorem gcdBigfix_eq (x : ℤ) (y : ℕ) : gcdBigfix x y = x.natAbs.gcd y := by
  rw [gcdBigfix, gcdFixfix_eq, natAbs_tmod, natAbs_natCast, Nat.gcd_comm,
    ← gcd_rec, Nat.gcd_comm]

/-! ### Algorithm B -/

theorem shiftRight_padicValNat {t : ℕ} (ht : t ≠ 0) :
    Odd (t >>> padicValNat 2 t) ∧ 0 < t >>> padicValNat 2 t ∧ t >>> padicValNat 2 t ≤ t ∧
      ∀ o, Odd o → (t >>> padicValNat 2 t).gcd o = t.gcd o := by
  rw [Nat.shiftRight_eq_div_pow]
  have hdvd : 2 ^ padicValNat 2 t ∣ t := pow_padicValNat_dvd
  have hodd : Odd (t / 2 ^ padicValNat 2 t) := by
    rw [← Nat.not_even_iff_odd, even_iff_two_dvd]
    exact Nat.not_dvd_ordCompl Nat.prime_two ht
  refine ⟨hodd, hodd.pos, Nat.div_le_self _ _, fun o ho => ?_⟩
  have hcop : Nat.Coprime (2 ^ padicValNat 2 t) o :=
    Nat.Coprime.pow_left _ (Nat.coprime_two_left.2 ho)
  conv_rhs => rw [← Nat.mul_div_cancel' hdvd]
  rw [Nat.Coprime.gcd_mul_left_cancel _ hcop]

/-- **The loop of `binary_gcd`**: by induction on the rounds; the sum of the two numbers falls, and
the one that is not shifted is odd. -/
theorem binaryGcdLoop_eq (k n u v : ℕ) (tu : Bool) (hu : 0 < u) (hv : 0 < v)
    (hodd : Odd (if tu then v else u)) (hn : u + v < n) :
    binaryGcdLoop k n u v tu = some ((u.gcd v * 2 ^ k : ℕ) : ℤ) := by
  induction n generalizing u v tu with
  | zero => omega
  | succ n ih =>
    -- the two numbers after the shift
    have hround : ∃ u' v', (if tu then (u >>> padicValNat 2 u, v) else (u, v >>> padicValNat 2 v)) =
        (u', v') ∧ Odd u' ∧ Odd v' ∧ u' ≤ u ∧ v' ≤ v ∧ u'.gcd v' = u.gcd v := by
      cases tu with
      | true =>
        obtain ⟨h1, -, h3, h4⟩ := shiftRight_padicValNat hu.ne'
        exact ⟨_, _, rfl, h1, hodd, h3, le_rfl, h4 v hodd⟩
      | false =>
        obtain ⟨h1, -, h3, h4⟩ := shiftRight_padicValNat hv.ne'
        refine ⟨_, _, rfl, hodd, h1, le_rfl, h3, ?_⟩
        rw [Nat.gcd_comm, h4 u hodd, Nat.gcd_comm]
    obtain ⟨u', v', heq, hu', hv', hle, hle', hgcd⟩ := hround
    have ht : (if tu then u else v) ≠ 0 := by
      cases tu
      · exact hv.ne'
      · exact hu.ne'
    have hpair : (if tu then ((if tu then u else v) >>> padicValNat 2 (if tu then u else v), v)
        else (u, (if tu then u else v) >>> padicValNat 2 (if tu then u else v))) = (u', v') := by
      rw [← heq]
      cases tu <;> rfl
    rw [binaryGcdLoop]
    simp only [ht, if_false, hpair, gcdFixfix_ordered, Nat.shiftLeft_eq, hgcd]
    split_ifs with hword heq' hlt
    · rfl
    · rw [← hgcd, heq', Nat.gcd_self]
    · rw [ih _ _ true (by omega) hv'.pos hv' (by omega), Nat.gcd_sub_self_left hlt.le, hgcd]
    · rw [ih _ _ false hu'.pos (by omega) hu' (by omega), gcd_sub_self_right (by omega), hgcd]

theorem binaryGcd_eq {x y : ℤ} (hx : x ≠ 0) (hy : y ≠ 0) :
    binaryGcd x y = some (x.gcd y : ℤ) := by
  have hu : x.natAbs ≠ 0 := natAbs_ne_zero.2 hx
  have hv : y.natAbs ≠ 0 := natAbs_ne_zero.2 hy
  rw [binaryGcd]
  generalize hk : min (padicValNat 2 x.natAbs) (padicValNat 2 y.natAbs) = k
  have hdvd : 2 ^ k ∣ x.natAbs :=
    (pow_dvd_pow 2 (by omega)).trans (pow_padicValNat_dvd)
  have hdvd' : 2 ^ k ∣ y.natAbs :=
    (pow_dvd_pow 2 (by omega)).trans (pow_padicValNat_dvd)
  have hpow : 0 < 2 ^ k := by positivity
  rw [binaryGcdLoop_eq]
  · rw [Nat.shiftRight_eq_div_pow, Nat.shiftRight_eq_div_pow, Nat.gcd_div hdvd hdvd',
      Nat.div_mul_cancel (Nat.dvd_gcd hdvd hdvd'), Int.gcd]
  · rw [Nat.shiftRight_eq_div_pow]
    exact Nat.div_pos (Nat.le_of_dvd (Nat.pos_of_ne_zero hu) hdvd) hpow
  · rw [Nat.shiftRight_eq_div_pow]
    exact Nat.div_pos (Nat.le_of_dvd (Nat.pos_of_ne_zero hv) hdvd') hpow
  · by_cases h : k = padicValNat 2 x.natAbs
    · rw [if_neg (by simpa using h), h]
      exact (shiftRight_padicValNat hu).1
    · have h' : k = padicValNat 2 y.natAbs := by omega
      rw [if_pos (by simpa using h), h']
      exact (shiftRight_padicValNat hv).1
  · have h1 := Nat.div_le_self x.natAbs (2 ^ k)
    have h2 := Nat.div_le_self y.natAbs (2 ^ k)
    omega

/-! ### Magnitude and sign -/

theorem sgGcdFixnum_eq {x t : ℤ} (ht : t ≠ 0) : sgGcdFixnum x t = x.gcd t := by
  rw [sgGcdFixnum, if_neg ht]
  split_ifs
  · rw [gcdFixfix_eq, Int.gcd]
  · rw [gcdFixfix_eq, Nat.gcd_comm, Int.gcd]
  · rw [gcdBigfix_eq, Int.gcd]

theorem gcd_tmod (x y : ℤ) : y.gcd (x.tmod y) = x.gcd y := by
  rw [Int.gcd, Int.gcd, natAbs_tmod, Nat.gcd_comm, ← gcd_rec, Nat.gcd_comm]

/-- **The magnitude of the result**: by induction on the second argument. -/
theorem sgBignumGcd_natAbs (x y : ℤ) (hx : x ≠ 0) :
    ∃ g, sgBignumGcd x y = some g ∧ g.natAbs = x.gcd y := by
  induction hn : y.natAbs using Nat.strong_induction_on generalizing x y with
  | _ n ih =>
    subst hn
    rw [sgBignumGcd]
    split_ifs with h0 hgap hfix
    · exact ⟨x, rfl, by rw [h0, Int.gcd_zero_right]⟩
    · exact ⟨_, binaryGcd_eq hx h0, by simp⟩
    · refine ⟨_, rfl, ?_⟩
      by_cases hr : x.tmod y = 0
      · rw [sgGcdFixnum, if_pos hr, ← gcd_tmod, hr, Int.gcd_zero_right]
      · rw [sgGcdFixnum_eq hr, gcd_tmod, natAbs_natCast]
    · have hlt : (x.tmod y).natAbs < y.natAbs := by
        rw [natAbs_tmod]
        exact mod_lt _ (natAbs_pos.2 h0)
      obtain ⟨g, hg, habs⟩ := ih _ hlt y _ h0 rfl
      exact ⟨g, hg, by rw [habs, gcd_tmod]⟩

/-- The word counts of the two numbers differ by two or more. -/
def WideGap (a b : ℕ) : Prop := ¬ ((wordCount a : ℤ) - wordCount b).natAbs < 2

instance (a b : ℕ) : Decidable (WideGap a b) := inferInstanceAs (Decidable (¬ _))

/-- The successive remainders of `-a` and `b` come out even at one that is negative, and up to there
neighbours differ by two or more words and no remainder is a fixnum. -/
inductive NegativeGcd : ℕ → ℕ → Prop where
  | even {a b : ℕ} : WideGap a b → ¬ FixnumRange (-(a % b : ℕ)) → WideGap b (a % b) → a % b ∣ b →
      NegativeGcd a b
  | next {a b : ℕ} : WideGap a b → ¬ FixnumRange (-(a % b : ℕ)) → WideGap b (a % b) →
      ¬ FixnumRange (b % (a % b) : ℕ) → NegativeGcd (a % b) (b % (a % b)) → NegativeGcd a b

/-- **One division of `Sg_BignumGcd`**: a positive result of another function, a division that comes
out even, or the next one. -/
theorem sgBignumGcd_round {x y g : ℤ} (hx : x ≠ 0) (hy : y ≠ 0) (hg : sgBignumGcd x y = some g) :
    0 < g ∧ (WideGap x.natAbs y.natAbs → FixnumRange (x.tmod y) ∧ x.tmod y ≠ 0) ∨
      WideGap x.natAbs y.natAbs ∧ (x.tmod y = 0 ∧ g = y ∨
        ¬ FixnumRange (x.tmod y) ∧ sgBignumGcd y (x.tmod y) = some g) := by
  have hpos : ∀ {u v : ℤ}, v ≠ 0 → 0 < (u.gcd v : ℤ) := fun hv =>
    natCast_pos.2 (gcd_pos_of_ne_zero_right _ hv)
  rw [sgBignumGcd, dif_neg hy] at hg
  split_ifs at hg with hgap hfix
  · rw [binaryGcd_eq hx hy, some.injEq] at hg
    exact .inl ⟨hg ▸ hpos hy, fun h => absurd hgap h⟩
  · rw [some.injEq] at hg
    by_cases hr : x.tmod y = 0
    · rw [sgGcdFixnum, if_pos hr] at hg
      exact .inr ⟨hgap, .inl ⟨hr, hg.symm⟩⟩
    · rw [sgGcdFixnum_eq hr] at hg
      exact .inl ⟨hg ▸ hpos hr, fun _ => ⟨hfix, hr⟩⟩
  · exact .inr ⟨hgap, .inr ⟨hfix, hg⟩⟩

/-- **The sign of the result** for a negative and a positive number: by induction on the second, two
divisions at a time. -/
theorem sgBignumGcd_neg_iff (a b : ℕ) (ha : 0 < a) (hb : 0 < b) {g : ℤ}
    (hg : sgBignumGcd (-a) b = some g) : g < 0 ↔ NegativeGcd a b := by
  induction b using Nat.strong_induction_on generalizing a g with
  | _ b ih =>
    have hround := sgBignumGcd_round (by omega) (by omega) hg
    rw [natAbs_neg, natAbs_natCast, natAbs_natCast, neg_tmod, ← ofNat_tmod] at hround
    obtain ⟨hpos, h⟩ | ⟨hgap, ⟨hzero, rfl⟩ | ⟨hfix, hg⟩⟩ := hround
    · refine iff_of_false (by omega) ?_
      rintro (⟨hgap, hfix⟩ | ⟨hgap, hfix⟩) <;> exact hfix (h hgap).1
    · refine iff_of_false (by omega) ?_
      rintro (⟨-, hfix⟩ | ⟨-, hfix⟩) <;> exact hfix (hzero ▸ by decide)
    -- the second division, by the negative remainder
    have hr0 : (-(a % b : ℕ) : ℤ) ≠ 0 := fun h => hfix (h ▸ by decide)
    have hround := sgBignumGcd_round (by omega) hr0 hg
    rw [natAbs_neg, natAbs_natCast, natAbs_natCast, tmod_neg, ← ofNat_tmod] at hround
    obtain ⟨hpos, h⟩ | ⟨hgap', ⟨hzero, rfl⟩ | ⟨hfix', hg⟩⟩ := hround
    · refine iff_of_false (by omega) ?_
      rintro (⟨-, -, hgap', hdvd⟩ | ⟨-, -, hgap', hfix', -⟩)
      · exact (h hgap').2 (natCast_eq_zero.2 (mod_eq_zero_of_dvd hdvd))
      · exact hfix' (h hgap').1
    · exact iff_of_true (by omega)
        (.even hgap hfix hgap' (dvd_of_mod_eq_zero (natCast_eq_zero.1 hzero)))
    · have hne : b % (a % b) ≠ 0 := fun h => hfix' (h ▸ by decide)
      rw [ih _ ((mod_lt _ (by omega)).trans (mod_lt _ hb)) (a % b) (by omega) (by omega) hg]
      constructor
      · exact .next hgap hfix hgap' hfix'
      · rintro (⟨-, -, -, h⟩ | ⟨-, -, -, -, h⟩)
        · exact absurd (mod_eq_zero_of_dvd h) hne
        · exact h

theorem sgBignumGcd_pos (a b : ℕ) (ha : 0 < a) (hb : 0 < b) {g : ℤ}
    (hg : sgBignumGcd a b = some g) : 0 < g := by
  induction b using Nat.strong_induction_on generalizing a g with
  | _ b ih =>
    obtain ⟨hpos, -⟩ | ⟨-, ⟨-, rfl⟩ | ⟨hfix, hg⟩⟩ := sgBignumGcd_round (by omega) (by omega) hg
    · exact hpos
    · omega
    · rw [← ofNat_tmod] at hfix hg
      have hne : a % b ≠ 0 := fun h => hfix (h ▸ by decide)
      exact ih _ (mod_lt _ hb) b hb (by omega) hg

/-- The greatest common divisor of a numerator and a denominator is found with the wrong sign. -/
def GcdNegative (x y : ℤ) : Prop :=
  x < 0 ∧ ¬ (FitsLong x ∧ x ≠ -2 ^ 63) ∧ ¬ FitsLong y ∧ NegativeGcd x.natAbs y.natAbs

/-- **The result of `Sg_Gcd`** for a positive second argument. -/
theorem sgGcd_eq (x : ℤ) {y : ℤ} (hy : 0 < y) :
    ∃ g, sgGcd x y = some g ∧ g.natAbs = x.gcd y ∧ (g < 0 ↔ GcdNegative x y) := by
  have hy0 : y ≠ 0 := hy.ne'
  have hnat : ∀ n : ℕ, ¬ ((n : ℤ) < 0) := by
    intro n
    omega
  rw [sgGcd, gcdFixfix_ordered]
  split_ifs with hx h1 h2 h3
  · refine ⟨y, rfl, by rw [hx, Int.gcd_zero_left], iff_of_false (by omega) ?_⟩
    rintro ⟨h, -⟩
    omega
  · refine ⟨_, rfl, ?_, iff_of_false (hnat _) fun h => h.2.2.1 h1.2⟩
    rw [natAbs_natCast, Int.gcd]
  · refine ⟨_, rfl, ?_, iff_of_false (hnat _) fun h => h.2.2.1 h2.1⟩
    rw [gcdBigfix_eq, natAbs_natCast, Int.gcd]
  · refine ⟨_, rfl, ?_, iff_of_false (hnat _) fun h => h.2.1 h3⟩
    rw [gcdBigfix_eq, natAbs_natCast, Nat.gcd_comm, Int.gcd]
  · obtain ⟨g, hg, habs⟩ := sgBignumGcd_natAbs x y hx
    refine ⟨g, hg, habs, ?_⟩
    have hylong : ¬ FitsLong y := by
      intro h
      exact h2 ⟨h, by omega⟩
    rcases lt_or_gt_of_ne hx with hneg | hpos
    · have := sgBignumGcd_neg_iff x.natAbs y.natAbs (by omega) (by omega)
        (by rw [← hg]; congr 1 <;> omega)
      rw [this]
      exact ⟨fun h => ⟨hneg, h3, hylong, h⟩, fun h => h.2.2.2⟩
    · have := sgBignumGcd_pos x.natAbs y.natAbs (by omega) (by omega)
        (by rw [← hg]; congr 1 <;> omega)
      refine iff_of_false (by omega) ?_
      rintro ⟨h, -⟩
      omega

end Sagittarius
