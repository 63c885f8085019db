import Mathlib.Algebra.Order.Ring.Rat
import Mathlib.Tactic.FieldSimp
import Mathlib.Tactic.LinearCombination
import Sagittarius.Number.Division
import Sagittarius.Number.Gcd

/-!
# Exact rational numbers

`Sg_MakeRational` and the arithmetic on exact rational numbers.

* `Exact` : an exact integer or a ratio; `Exact.Canonical` : the ratio is in lowest terms, with a
  denominator above one;
* `sgMakeRational_spec` : the value is always right, and the form is canonical unless the greatest
  common divisor is found with the wrong sign;
* `rational_canonical_iff` : **the four operations** are exact, and canonical but for that case.
-/

namespace Sagittarius

open Int Option

/-! ### The functions -/

/-- An exact number. -/
inductive Exact where
  | integer (n : ℤ)
  | ratio (numerator denominator : ℤ)
  deriving DecidableEq, Repr

namespace Exact

/-- `set_nume_deno`: the numerator. -/
def numerator : Exact → ℤ
  | integer n => n
  | ratio n _ => n

@[inherit_doc numerator]
def denominator : Exact → ℤ
  | integer _ => 1
  | ratio _ d => d

/-- The number. -/
def value (x : Exact) : ℚ := x.numerator / x.denominator

/-- An integer, or a ratio in lowest terms with a denominator above one. -/
def Canonical : Exact → Prop
  | integer _ => True
  | ratio n d => 1 < d ∧ n.gcd d = 1

end Exact

/-- The value of `Sg_Quotient`. -/
def quotient (x y : ℤ) : ℤ := if QuotientOverflows x y then sgIntMin else x.tdiv y

/-- `Sg_ReduceRational` after the sign has been moved to the numerator; there is no result if it is
not an exact number. -/
def reduceTerms (numer denom : ℤ) : Option Exact :=
  if denom = 1 then some (.integer numer)
  else if denom = 0 then none
  else do
    let common ← sgGcd numer denom
    if common = 1 then return .ratio numer denom
    else if quotient denom common = 1 then return .integer (quotient numer common)
    else return .ratio (quotient numer common) (quotient denom common)

/-- Divides by the gcd. -/
def sgReduceRational : Exact → Option Exact
  | .integer n => some (.integer n)
  | .ratio n d => if d < 0 then reduceTerms (-n) (-d) else reduceTerms n d

/-- `Sg_MakeRational`; there is no result if it raises an error. -/
def sgMakeRational (numerator denominator : ℤ) : Option Exact :=
  if denominator = 0 then none
  else if denominator = 1 then some (.integer numerator)
  else if numerator = 0 then some (.integer 0)
  else sgReduceRational (.ratio numerator denominator)

/-- The sum or the difference. -/
def sgRationalAddSub (x y : Exact) (subtract : Bool) : Option Exact :=
  let nx := x.numerator
  let dx := x.denominator
  let ny := y.numerator
  let dy := y.denominator
  let finish (nx ny dr : ℤ) := sgMakeRational (if subtract then nx - ny else nx + ny) dr
  if dx = dy then finish nx ny dx
  else
    (if dx = 1 ∨ dy = 1 then some 1 else sgGcd dx dy).bind fun gcd =>
      if dx = gcd then finish (quotient dy dx * nx) ny dy
      else if dy = gcd then finish nx (quotient dx dy * ny) dx
      else
        let fx := quotient dx gcd
        let fy := quotient dy gcd
        finish (nx * fy) (ny * fx) (dx * fy)

/-- The product or the quotient. -/
def sgRationalMulDiv (x y : Exact) (divide : Bool) : Option Exact :=
  let (ny, dy) := if divide then (y.denominator, y.numerator) else (y.numerator, y.denominator)
  sgMakeRational (x.numerator * ny) (x.denominator * dy)

/-- `Sg_Div` on exact numbers. -/
def sgDiv : Exact → Exact → Option Exact
  | .integer x, .integer y =>
    if y = 0 then none
    else if x = 0 then some (.integer x)
    else if y = 1 then some (.integer x)
    else sgMakeRational x y
  | .integer x, .ratio ny dy => sgMakeRational (x * dy) ny
  | .ratio nx dx, .integer y =>
    if y = 0 then none
    else if y = 1 then some (.ratio nx dx)
    else sgMakeRational nx (dx * y)
  | .ratio nx dx, .ratio ny dy => sgRationalMulDiv (.ratio nx dx) (.ratio ny dy) true

/-! ### Reduction -/

/-- The greatest common divisor has the wrong sign when the fraction is reduced. -/
def ReducedWrong (n d : ℤ) : Prop := GcdNegative (if d < 0 then -n else n) d.natAbs

theorem le_gcd_of_negativeGcd {a b : ℕ} (h : NegativeGcd a b) : 2 ^ 61 ≤ a.gcd b := by
  induction h with
  | @even a b _ hfix _ hdvd =>
    rw [fixnumRange_iff] at hfix
    rw [Nat.gcd_comm, Nat.gcd_rec, Nat.gcd_comm, Nat.gcd_comm, Nat.gcd_eq_left hdvd]
    omega
  | @next a b _ _ _ _ _ ih =>
    rw [Nat.gcd_comm, Nat.gcd_rec, Nat.gcd_rec, Nat.gcd_comm]
    exact ih

theorem not_gcdNegative_of_gcd {x y : ℤ} (h : x.gcd y = 1) : ¬ GcdNegative x y := by
  rintro ⟨-, -, -, hneg⟩
  have := le_gcd_of_negativeGcd hneg
  rw [Int.gcd] at h
  omega

theorem quotient_mul_left {g a : ℤ} (hg : g ≠ 0) (h : ¬ QuotientOverflows (g * a) g) :
    quotient (g * a) g = a := by
  rw [quotient, if_neg h, mul_tdiv_cancel_left _ hg]

/-- What an operation returns: the number `q`, in canonical form unless `P`, in which case it has a
negative denominator. -/
def Returns (r : Option Exact) (q : ℚ) (P : Prop) : Prop :=
  ∃ z, r = some z ∧ z.value = q ∧ (¬ P → z.Canonical) ∧ (P → z.denominator < 0)

/-- **Reduction keeps the value**, and the result is canonical unless the greatest common divisor is
negative. -/
theorem reduceTerms_spec (n : ℤ) {d : ℤ} (hd : 0 < d) :
    Returns (reduceTerms n d) (n / d) (GcdNegative n d) := by
  rw [reduceTerms]
  split_ifs with h1 h0
  · refine ⟨_, rfl, ?_, fun _ => trivial, fun h => absurd ?_ h.2.2.1⟩
    · rw [h1]
      rfl
    · rw [h1]
      decide
  · omega
  obtain ⟨g, hg, habs, hneg⟩ := sgGcd_eq n hd
  obtain ⟨a, ha⟩ : g ∣ n := natAbs_dvd.1 (habs ▸ Int.gcd_dvd_left ..)
  obtain ⟨b, hb⟩ : g ∣ d := natAbs_dvd.1 (habs ▸ Int.gcd_dvd_right ..)
  have hg0 : g ≠ 0 := by
    rintro rfl
    omega
  have hcoprime : a.gcd b = 1 := by
    rw [ha, hb, Int.gcd_mul_left] at habs
    exact Nat.eq_of_mul_eq_mul_left (natAbs_pos.2 hg0) (by rw [← habs, mul_one])
  have hqn : quotient n g = a := by
    rw [ha]
    apply quotient_mul_left hg0
    rintro ⟨hmin, h⟩
    -- a negative divisor is found for long numerators only
    have hlong := (hneg.1 (by omega)).2.1
    rw [ha, hmin] at hlong
    exact hlong (by decide)
  have hqd : quotient d g = b := by
    rw [hb]
    apply quotient_mul_left hg0
    rintro ⟨hmin, -⟩
    rw [← hb, sgIntMin, sgIntMax] at hmin
    omega
  have hvalue : (a : ℚ) / b = n / d := by
    rw [ha, hb]
    push_cast
    rw [mul_div_mul_left _ _ (by exact_mod_cast hg0)]
  rw [hg]
  simp only [bind_eq_bind, bind_some, hqn, hqd]
  split_ifs with hone hquot
  · rw [hone, natAbs_one] at habs
    exact ⟨_, rfl, rfl, fun _ => ⟨by omega, habs.symm⟩,
      fun h => absurd h (not_gcdNegative_of_gcd habs.symm)⟩
  · rw [hquot, mul_one] at hb
    refine ⟨_, rfl, ?_, fun _ => trivial, fun h => absurd (hneg.2 h) (by omega)⟩
    rw [← hvalue, hquot]
    rfl
  · refine ⟨_, rfl, hvalue, fun h => ?_, fun h => ?_⟩
    · have hb0 : 0 < b := by
        rw [hb] at hd
        exact pos_of_mul_pos_right hd (not_lt.1 (mt hneg.1 h))
      exact ⟨by omega, hcoprime⟩
    · rw [hb] at hd
      exact neg_of_mul_pos_right hd (hneg.2 h).le

theorem Exact.Canonical.denominator_pos {x : Exact} (h : x.Canonical) : 0 < x.denominator := by
  cases x with
  | integer n => exact Int.one_pos
  | ratio n d => exact Int.zero_lt_one.trans h.1

theorem Exact.Canonical.coprime {x : Exact} (h : x.Canonical) :
    x.numerator.gcd x.denominator = 1 := by
  cases x with
  | integer n => exact Int.gcd_one_right n
  | ratio n d => exact h.2

theorem Exact.Canonical.returns {x : Exact} (h : x.Canonical) :
    Returns (some x) x.value (ReducedWrong x.numerator x.denominator) := by
  refine ⟨x, rfl, rfl, fun _ => h, fun hwrong => absurd hwrong ?_⟩
  rw [ReducedWrong, if_neg h.denominator_pos.not_gt, natAbs_of_nonneg h.denominator_pos.le]
  exact not_gcdNegative_of_gcd h.coprime

theorem sgMakeRational_spec (n : ℤ) {d : ℤ} (hd : d ≠ 0) :
    Returns (sgMakeRational n d) (n / d) (ReducedWrong n d) := by
  rw [sgMakeRational, if_neg hd]
  split_ifs with h1 h0
  · rw [h1]
    exact Exact.Canonical.returns (x := .integer n) trivial
  · refine ⟨_, rfl, by rw [h0]; simp [Exact.value, Exact.numerator], fun _ => trivial, ?_⟩
    rintro ⟨h, -⟩
    omega
  · rw [sgReduceRational, ReducedWrong]
    split_ifs with hneg
    · have h := reduceTerms_spec (-n) (by omega : 0 < -d)
      rw [cast_neg, cast_neg, neg_div_neg_eq] at h
      rwa [show (d.natAbs : ℤ) = -d by omega]
    · have h := reduceTerms_spec n (by omega : 0 < d)
      rwa [show (d.natAbs : ℤ) = d by omega]

/-! ### The operations -/

/-- An operation returns the number `q` in canonical form. -/
def ReturnsCanonical (r : Option Exact) (q : ℚ) : Prop :=
  ∃ z, r = some z ∧ z.value = q ∧ z.Canonical

theorem Returns.canonical_iff {r : Option Exact} {q : ℚ} {P : Prop} (h : Returns r q P) :
    ReturnsCanonical r q ↔ ¬ P := by
  obtain ⟨z, rfl, hval, hcan, hneg⟩ := h
  constructor
  · rintro ⟨z', heq, -, hc⟩ hP
    rw [← some.inj heq] at hc
    have := hc.denominator_pos
    have := hneg hP
    omega
  · exact fun hP => ⟨z, rfl, hval, hcan hP⟩

/-- The numerator of a sum or a difference over the least common multiple of the denominators. -/
def sumNumerator (x y : Exact) (subtract : Bool) : ℤ :=
  let l : ℤ := x.denominator.lcm y.denominator
  let nx := x.numerator * (l / x.denominator)
  let ny := y.numerator * (l / y.denominator)
  if subtract then nx - ny else nx + ny

theorem quotient_of_pos {x y : ℤ} (hx : 0 < x) : quotient x y = x / y := by
  rw [quotient, if_neg, tdiv_eq_ediv_of_nonneg hx.le]
  rintro ⟨h, -⟩
  rw [sgIntMin, sgIntMax] at h
  omega

theorem sgGcd_of_pos {x y : ℤ} (hx : 0 < x) (hy : 0 < y) : sgGcd x y = some (x.gcd y : ℤ) := by
  obtain ⟨g, hg, habs, hneg⟩ := sgGcd_eq x hy
  have hpos : ¬ g < 0 := by
    rw [hneg]
    rintro ⟨h, -⟩
    omega
  rw [hg, ← habs, natAbs_of_nonneg (by omega)]

/-- Over the least common multiple: `Sg_RationalAddSub` only avoids some of the products. -/
theorem sgRationalAddSub_eq {x y : Exact} (hx : x.Canonical) (hy : y.Canonical) (subtract : Bool) :
    sgRationalAddSub x y subtract =
      sgMakeRational (sumNumerator x y subtract) (x.denominator.lcm y.denominator) := by
  have hdx := hx.denominator_pos
  have hdy := hy.denominator_pos
  rw [sgRationalAddSub, sumNumerator]
  generalize x.denominator = dx at *
  generalize y.denominator = dy at *
  generalize x.numerator = nx
  generalize y.numerator = ny
  obtain ⟨G, hG⟩ : ∃ G : ℤ, (dx.gcd dy : ℤ) = G := ⟨_, rfl⟩
  obtain ⟨fx, hfx⟩ : G ∣ dx := hG ▸ Int.gcd_dvd_left ..
  obtain ⟨fy, hfy⟩ : G ∣ dy := hG ▸ Int.gcd_dvd_right ..
  have hGpos : 0 < G := by
    rw [← hG]
    exact_mod_cast gcd_pos_of_ne_zero_left dy hdx.ne'
  have hl : (dx.lcm dy : ℤ) = G * fx * fy := by
    have h := Int.gcd_mul_lcm dx dy
    zify at h
    rw [hG, abs_of_pos hdx, abs_of_pos hdy] at h
    apply mul_left_cancel₀ hGpos.ne'
    rw [h, hfx, hfy]
    ring
  have hlx : (dx.lcm dy : ℤ) / dx = fy := by
    rw [hl, hfx, mul_ediv_cancel_left _ (hfx ▸ hdx.ne')]
  have hly : (dx.lcm dy : ℤ) / dy = fx := by
    rw [hl, hfy, mul_right_comm, mul_ediv_cancel_left _ (hfy ▸ hdy.ne')]
  have hgcd : (if dx = 1 ∨ dy = 1 then some 1 else sgGcd dx dy) = some G := by
    rw [sgGcd_of_pos hdx hdy, hG]
    split_ifs with h
    · rw [← hG]
      rcases h with rfl | rfl <;> simp
    · rfl
  have hone : ∀ {d f : ℤ}, d = G * f → d = G → f = 1 := by
    intro d f h h'
    exact mul_left_cancel₀ hGpos.ne' (by rw [← h, h', mul_one])
  simp only [hlx, hly, hgcd, bind_some, quotient_of_pos hdx, quotient_of_pos hdy]
  by_cases heq : dx = dy
  · have hxG : dx = G := by
      rw [← hG, ← heq, gcd_self, natAbs_of_nonneg hdx.le]
    rw [if_pos heq, hl, hone hfx hxG, hone hfy (heq ▸ hxG)]
    simp only [mul_one, hxG]
  rw [if_neg heq]
  by_cases hxG : dx = G
  · rw [if_pos hxG, hl, hone hfx hxG, ← hxG, mul_one, mul_one, hfy, ← hxG,
      mul_ediv_cancel_left _ hdx.ne', mul_comm fy nx]
  rw [if_neg hxG]
  by_cases hyG : dy = G
  · rw [if_pos hyG, hl, hone hfy hyG, ← hyG, mul_one, mul_one, hfx, ← hyG,
      mul_ediv_cancel_left _ hdy.ne', mul_comm fx ny]
  rw [if_neg hyG, hl, hfx, hfy, mul_ediv_cancel_left _ hGpos.ne',
    mul_ediv_cancel_left _ hGpos.ne']

theorem sumNumerator_div {x y : Exact} (hx : x.Canonical) (hy : y.Canonical) (subtract : Bool) :
    (sumNumerator x y subtract : ℚ) / (x.denominator.lcm y.denominator : ℤ) =
      if subtract then x.value - y.value else x.value + y.value := by
  have hdx : (x.denominator : ℚ) ≠ 0 := by exact_mod_cast hx.denominator_pos.ne'
  have hdy : (y.denominator : ℚ) ≠ 0 := by exact_mod_cast hy.denominator_pos.ne'
  have hl : ((x.denominator.lcm y.denominator : ℤ) : ℚ) ≠ 0 := by
    exact_mod_cast lcm_ne_zero hx.denominator_pos.ne' hy.denominator_pos.ne'
  have hterm : ∀ {n d l : ℤ}, (d : ℚ) ≠ 0 → (l : ℚ) ≠ 0 → d ∣ l →
      ((n * (l / d) : ℤ) : ℚ) / l = n / d := by
    intro n d l hd hl hdvd
    rw [cast_mul, cast_div hdvd hd]
    field_simp
  have h1 := hterm (n := x.numerator) hdx hl (Int.dvd_lcm_left ..)
  have h2 := hterm (n := y.numerator) hdy hl (Int.dvd_lcm_right ..)
  rw [sumNumerator, Exact.value, Exact.value]
  split_ifs
  · rw [cast_sub, sub_div, h1, h2]
  · rw [cast_add, add_div, h1, h2]

theorem sgRationalDiv_spec {x y : Exact} (hx : x.Canonical) (hy0 : y.numerator ≠ 0) :
    Returns (sgRationalMulDiv x y true) (x.value / y.value)
      (ReducedWrong (x.numerator * y.denominator) (x.denominator * y.numerator)) := by
  have hspec := sgMakeRational_spec (x.numerator * y.denominator)
    (mul_ne_zero hx.denominator_pos.ne' hy0)
  rw [cast_mul, cast_mul, ← div_div_div_eq] at hspec
  exact hspec

theorem sgDiv_spec {x y : Exact} (hx : x.Canonical) (hy0 : y.numerator ≠ 0) :
    Returns (sgDiv x y) (x.value / y.value)
      (ReducedWrong (x.numerator * y.denominator) (x.denominator * y.numerator)) := by
  have hdiv := sgRationalDiv_spec hx hy0
  cases x with
  | integer m =>
    cases y with
    | integer n =>
      rw [sgDiv, if_neg (show n ≠ 0 from hy0)]
      split_ifs with h0 h1
      · refine ⟨_, rfl, ?_, fun _ => trivial, ?_⟩
        · rw [h0]
          simp [Exact.value, Exact.numerator]
        · rintro ⟨h, -⟩
          rw [h0] at h
          simp [Exact.numerator] at h
      · simpa [h1, Exact.value, Exact.numerator, Exact.denominator] using hx.returns
      · simpa [sgRationalMulDiv, Exact.numerator, Exact.denominator] using hdiv
    | ratio n d => simpa [sgDiv, sgRationalMulDiv, Exact.numerator, Exact.denominator] using hdiv
  | ratio m e =>
    cases y with
    | integer n =>
      rw [sgDiv, if_neg (show n ≠ 0 from hy0)]
      split_ifs with h1
      · simpa [h1, Exact.value, Exact.numerator, Exact.denominator] using hx.returns
      · simpa [sgRationalMulDiv, Exact.numerator, Exact.denominator] using hdiv
    | ratio n d => exact hdiv

/-- **The four operations** on canonical numbers are exact and canonical if and only if the fraction
that they reduce does not meet a negative greatest common divisor. -/
theorem rational_canonical_iff (x y : Exact) (hx : x.Canonical) (hy : y.Canonical) :
    (∀ subtract, ReturnsCanonical (sgRationalAddSub x y subtract)
        (if subtract then x.value - y.value else x.value + y.value) ↔
      ¬ ReducedWrong (sumNumerator x y subtract) (x.denominator.lcm y.denominator)) ∧
    (ReturnsCanonical (sgRationalMulDiv x y false) (x.value * y.value) ↔
      ¬ ReducedWrong (x.numerator * y.numerator) (x.denominator * y.denominator)) ∧
    (y.numerator ≠ 0 →
      (ReturnsCanonical (sgRationalMulDiv x y true) (x.value / y.value) ↔
        ¬ ReducedWrong (x.numerator * y.denominator) (x.denominator * y.numerator)) ∧
      (ReturnsCanonical (sgDiv x y) (x.value / y.value) ↔
        ¬ ReducedWrong (x.numerator * y.denominator) (x.denominator * y.numerator))) ∧
    ∀ n d : ℤ, d ≠ 0 →
      (ReturnsCanonical (sgMakeRational n d) (n / d) ↔ ¬ ReducedWrong n d) := by
  have hdx := hx.denominator_pos
  have hdy := hy.denominator_pos
  refine ⟨fun subtract => Returns.canonical_iff ?_, Returns.canonical_iff ?_, fun hy0 =>
    ⟨(sgRationalDiv_spec hx hy0).canonical_iff, (sgDiv_spec hx hy0).canonical_iff⟩,
    fun n d hd => (sgMakeRational_spec n hd).canonical_iff⟩
  · rw [sgRationalAddSub_eq hx hy, ← sumNumerator_div hx hy]
    exact sgMakeRational_spec _ (by exact_mod_cast lcm_ne_zero hdx.ne' hdy.ne')
  · have hval : x.value * y.value =
        (x.numerator * y.numerator : ℤ) / (x.denominator * y.denominator : ℤ) := by
      rw [Exact.value, Exact.value, div_mul_div_comm]
      push_cast
      rfl
    rw [hval]
    exact sgMakeRational_spec _ (mul_ne_zero hdx.ne' hdy.ne')

/-- One half and two thirds. -/
theorem rational_canonical_half :
    let x := Exact.ratio 1 2
    let y := Exact.ratio 2 3
    x.Canonical ∧ y.Canonical ∧
      (ReturnsCanonical (sgDiv x y) (x.value / y.value) ↔ ¬ ReducedWrong (1 * 3) (2 * 2)) :=
  ⟨⟨by decide, by decide⟩, ⟨by decide, by decide⟩,
    ((rational_canonical_iff (.ratio 1 2) (.ratio 2 3) ⟨by decide, by decide⟩
      ⟨by decide, by decide⟩).2.2.1 (by decide)).2⟩

theorem sgGcd_two_pow : sgGcd (-2 ^ 64) (2 ^ 256) = some (-2 ^ 64) := by
  have hcount : wordCount (2 ^ 64) = 2 ∧ wordCount (2 ^ 256) = 5 := by
    rw [wordCount, wordCount, Nat.size_pow, Nat.size_pow]
    decide
  have h1 : (-2 ^ 64 : ℤ).natAbs = 2 ^ 64 := by decide
  have h2 : (2 ^ 256 : ℤ).natAbs = 2 ^ 256 := by decide
  have hfirst : (-2 ^ 64 : ℤ).tmod (2 ^ 256) = -2 ^ 64 := by decide
  have hsecond : (2 ^ 256 : ℤ).tmod (-2 ^ 64) = 0 := by decide
  rw [sgGcd, if_neg (by decide), if_neg (by decide), if_neg (by decide), if_neg (by decide),
    if_neg (by decide), sgBignumGcd, dif_neg (by decide), hfirst, h1, h2, hcount.1, hcount.2,
    if_neg (by decide), if_neg (by decide), sgBignumGcd, dif_neg (by decide), hsecond, h1, h2,
    hcount.1, hcount.2, if_neg (by decide), if_pos (by decide), sgGcdFixnum, if_pos rfl]

theorem sgMakeRational_two_pow :
    sgMakeRational (-2 ^ 64) (2 ^ 256) = some (.ratio 1 (-2 ^ 192)) := by
  rw [sgMakeRational, if_neg (by decide), if_neg (by decide), if_neg (by decide), sgReduceRational,
    if_neg (by decide), reduceTerms, if_neg (by decide), if_neg (by decide), sgGcd_two_pow]
  decide

/-- `-2 ^ 64` divided by `2 ^ 256` gets a negative denominator. -/
theorem negative_denominator :
    sgMakeRational (-2 ^ 64) (2 ^ 256) = some (.ratio 1 (-2 ^ 192)) ∧
      ¬ (Exact.ratio 1 (-2 ^ 192)).Canonical :=
  ⟨sgMakeRational_two_pow, fun h => absurd h.1 (by decide)⟩

end Sagittarius
