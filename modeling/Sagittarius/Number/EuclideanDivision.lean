import Mathlib.Data.Rat.Floor
import Sagittarius.Number.Rational

/-!
# The division operators of R6RS

`Sg_IntegerDiv`, `Sg_IntegerMod`, `Sg_IntegerDiv0` and `Sg_IntegerMod0` on exact integers.

* `sgIntegerMod_eq`, `sgIntegerMod0_spec` : the remainders are always right;
* `sgIntegerDiv_eq` : **the quotient** comes by the floor of a ratio, which is one too large if the
  ratio has a negative denominator;
* `division_operators_iff` : when the four agree.
-/

namespace Sagittarius

open Int Exact Option

/-! ### The functions -/

/-- The modes of `Sg_Round`. -/
inductive RoundMode where
  | floor
  | ceil
  | trunc
  | round
  deriving DecidableEq, Repr

/-- `Sg_Round` on exact numbers. -/
def sgRound (num : Exact) (mode : RoundMode) : ℤ :=
  match num with
  | .integer n => n
  | .ratio n d =>
    let quot := quotient n d
    let rem := n.tmod d
    if rem = 0 then quot
    else
      let away := if n < 0 then -1 else 1
      let offset : ℤ :=
        match mode with
        | .floor => if n < 0 then -1 else 0
        | .ceil => if n < 0 then 0 else 1
        | .trunc => 0
        | .round =>
          let rem2 := |rem| * 2
          if rem2 < d then 0
          else if d < rem2 then away
          else if quot % 2 ≠ 0 then away
          else 0
      quot + offset

/-- `Sg_IntegerDiv` on exact integers. -/
def sgIntegerDiv (x y : ℤ) : Option ℤ :=
  if y = 0 then none
  else if FixnumRange x ∧ FixnumRange y then
    some (if x = 0 then 0
      else if 0 < x then x.tdiv y
      else if 0 < y then (x - y + 1).tdiv y
      else (x + y + 1).tdiv y)
  else if 0 < y then (sgDiv (.integer x) (.integer y)).map fun z => sgRound z .floor
  else (sgDiv (.integer x) (.integer (-y))).map fun z => -sgRound z .floor

/-- `Sg_IntegerDiv0` on exact integers. -/
def sgIntegerDiv0 (x y : ℤ) : Option ℤ := do
  let div ← sgIntegerDiv x y
  let mod := x - div * y
  let half ← sgDiv (.integer y) (.integer 2)
  if mod < |half.value| then return div
  else if 0 < y then return div + 1
  else return div - 1

/-- `Sg_IntegerMod` on exact integers. -/
def sgIntegerMod (x y : ℤ) : Option ℤ :=
  if y = 0 then none
  else if 0 < x then some (x.tmod y)
  else if x < 0 then
    let r := x.tmod y
    if r = 0 then some r
    else if 0 < y then some (r + y)
    else some (r - y)
  else some 0

/-- `Sg_IntegerMod0` on exact integers. -/
def sgIntegerMod0 (x y : ℤ) : Option ℤ :=
  if y = 0 then none
  else
    let r := x.tmod y
    if 0 ≤ x then
      if 0 < y then some (if y ≤ r * 2 then r - y else r)
      else some (if -y ≤ r * 2 then r + y else r)
    else
      if 0 < y then some (if r * 2 < -y then r + y else r)
      else some (if r * 2 < y then r - y else r)

/-! ### Remainders -/

variable {x y : ℤ}

theorem tmod_spec (x : ℤ) (hy : y ≠ 0) :
    y ∣ x - x.tmod y ∧ (0 ≤ x → 0 ≤ x.tmod y) ∧ (x ≤ 0 → x.tmod y ≤ 0) ∧
      (x.tmod y).natAbs < y.natAbs := by
  refine ⟨⟨x.tdiv y, ?_⟩, tmod_nonneg y, fun hx => ?_, ?_⟩
  · have := mul_tdiv_add_tmod x y
    omega
  · have h := tmod_nonneg y (a := -x) (by omega)
    rw [neg_tmod] at h
    omega
  · rw [natAbs_tmod]
    exact Nat.mod_lt _ (natAbs_pos.2 hy)

theorem emod_eq_of_dvd_sub {m : ℤ} (h : y ∣ x - m) (h0 : 0 ≤ m) (h1 : m < |y|) : x % y = m := by
  rw [← emod_abs, emod_eq_emod_iff_emod_sub_eq_zero.2
    (emod_eq_zero_of_dvd ((abs_dvd y _).2 h)), emod_eq_of_lt h0 h1]

theorem ediv_eq_of_bounds {q : ℤ} (hy : y ≠ 0) (h0 : 0 ≤ x - y * q) (h1 : x - y * q < |y|) :
    x / y = q := by
  have hmod := emod_eq_of_dvd_sub ⟨q, by ring⟩ h0 h1
  have hdiv := mul_ediv_add_emod x y
  exact mul_left_cancel₀ hy (by omega)

theorem sgIntegerMod_eq (x : ℤ) (hy : y ≠ 0) : sgIntegerMod x y = some (x % y) := by
  obtain ⟨⟨q, hq⟩, hpos, hneg, hlt⟩ := tmod_spec x hy
  have habs := natCast_natAbs y
  rw [sgIntegerMod, if_neg hy]
  simp only
  split_ifs with hx hx' hr hy'
  · rw [emod_eq_of_dvd_sub ⟨q, hq⟩ (hpos hx.le) (by omega)]
  · rw [emod_eq_of_dvd_sub ⟨q, hq⟩ (by omega) (by omega)]
  · rw [emod_eq_of_dvd_sub (m := x.tmod y + y) ⟨q - 1, by rw [mul_sub, ← hq]; ring⟩ (by omega)
      (by have := hneg hx'.le; omega)]
  · rw [emod_eq_of_dvd_sub (m := x.tmod y - y) ⟨q + 1, by rw [mul_add, ← hq]; ring⟩ (by omega)
      (by have := hneg hx'.le; omega)]
  · rw [show x = 0 by omega, zero_emod]

theorem sgIntegerMod0_spec (x : ℤ) (hy : y ≠ 0) :
    ∃ m, sgIntegerMod0 x y = some m ∧ y ∣ x - m ∧ -|y| ≤ 2 * m ∧ 2 * m < |y| := by
  obtain ⟨⟨q, hq⟩, hpos, hneg, hlt⟩ := tmod_spec x hy
  have habs := natCast_natAbs y
  have hsub : y ∣ x - (x.tmod y - y) := ⟨q + 1, by rw [mul_add, ← hq]; ring⟩
  have hadd : y ∣ x - (x.tmod y + y) := ⟨q - 1, by rw [mul_sub, ← hq]; ring⟩
  rw [sgIntegerMod0, if_neg hy]
  simp only
  split_ifs with hx hy' h h h h
  · exact ⟨_, rfl, hsub, by omega, by omega⟩
  · exact ⟨_, rfl, ⟨q, hq⟩, by have := hpos hx; omega, by omega⟩
  · exact ⟨_, rfl, hadd, by omega, by omega⟩
  · exact ⟨_, rfl, ⟨q, hq⟩, by have := hpos hx; omega, by omega⟩
  · exact ⟨_, rfl, hadd, by omega, by omega⟩
  · exact ⟨_, rfl, ⟨q, hq⟩, by omega, by have := hneg (by omega); omega⟩
  · exact ⟨_, rfl, hsub, by omega, by omega⟩
  · exact ⟨_, rfl, ⟨q, hq⟩, by omega, by have := hneg (by omega); omega⟩

/-! ### Quotients -/

theorem floor_intCast_div (a : ℤ) {b : ℤ} (hb : 0 < b) : ⌊(a : ℚ) / b⌋ = a / b := by
  obtain ⟨n, rfl⟩ := eq_ofNat_of_zero_le hb.le
  exact_mod_cast Rat.floor_intCast_div_natCast a n

theorem sgRound_floor_canonical {z : Exact} (hz : z.Canonical) : sgRound z .floor = ⌊z.value⌋ := by
  cases z with
  | integer n =>
    rw [sgRound, value, numerator, denominator, cast_one, div_one,
      floor_intCast]
  | ratio n d =>
    have hd : 0 < d := hz.denominator_pos
    have hquot : quotient n d = n.tdiv d := by
      rw [quotient, if_neg]
      rintro ⟨-, h⟩
      omega
    obtain ⟨-, hpos, hneg, hlt⟩ := tmod_spec n hd.ne'
    have heq := mul_tdiv_add_tmod n d
    have hunique : ∀ q : ℤ, d * q ≤ n → n < d * q + d → n / d = q := by
      intro q h1 h2
      exact ediv_eq_of_bounds hd.ne' (by omega) (by rw [abs_of_pos hd]; omega)
    rw [sgRound, value, numerator, denominator, floor_intCast_div n hd, hquot]
    simp only
    split_ifs with h0 hn
    · exact (hunique _ (by omega) (by omega)).symm
    · refine (hunique _ ?_ ?_).symm
      · rw [mul_add]
        omega
      · rw [mul_add]
        omega
    · refine (hunique _ ?_ ?_).symm
      · rw [add_zero]
        omega
      · rw [add_zero]
        omega

theorem sgRound_floor_negative {z : Exact} (hd : z.denominator < 0) (hval : z.value < 0) :
    sgRound z .floor = if z.denominator ∣ z.numerator then ⌊z.value⌋ else ⌊z.value⌋ + 1 := by
  cases z with
  | integer n => exact absurd hd (not_lt.2 Int.one_nonneg)
  | ratio n d =>
    change d < 0 at hd
    change (n : ℚ) / d < 0 at hval
    have hn : 0 < n := by
      have hd' : (d : ℚ) < 0 := by exact_mod_cast hd
      rcases div_neg_iff.1 hval with h | h
      · exact_mod_cast h.1
      · exact absurd h.2 (not_lt.2 hd'.le)
    have hquot : quotient n d = n.tdiv d := by
      rw [quotient, if_neg]
      rintro ⟨h, -⟩
      rw [sgIntMin, sgIntMax] at h
      omega
    obtain ⟨-, hpos, -, hlt⟩ := tmod_spec n hd.ne
    have heq := mul_tdiv_add_tmod n d
    have hfloor : ∀ q : ℤ, -d * q ≤ -n → -n < -d * q + -d → ⌊(n : ℚ) / d⌋ = q := by
      intro q h1 h2
      have h : -n / -d = q :=
        ediv_eq_of_bounds (by omega) (by omega) (by rw [abs_of_pos (by omega)]; omega)
      rw [← h, ← floor_intCast_div _ (by omega), cast_neg, cast_neg, neg_div_neg_eq]
    rw [sgRound, hquot]
    simp only [numerator, denominator, value, dvd_iff_tmod_eq_zero]
    split_ifs with h0 hneg
    · refine (hfloor _ ?_ ?_).symm
      · rw [neg_mul]
        omega
      · rw [neg_mul]
        omega
    · omega
    · have h := hpos hn.le
      rw [hfloor (n.tdiv d - 1) (by rw [mul_sub, neg_mul]; omega) (by rw [mul_sub, neg_mul]; omega)]
      ring

/-- The quotient of `Sg_IntegerDiv` is one too far from zero. -/
def DivWrong (x y : ℤ) : Prop := GcdNegative x y.natAbs ∧ ¬ y ∣ x

theorem fixnum_div (x : ℤ) (hy : y ≠ 0) :
    (if x = 0 then 0 else if 0 < x then x.tdiv y else if 0 < y then (x - y + 1).tdiv y
      else (x + y + 1).tdiv y) = x / y := by
  have habs := natCast_natAbs y
  symm
  split_ifs with h0 hx hy'
  · rw [h0, zero_ediv]
  · obtain ⟨-, hpos, -, hlt⟩ := tmod_spec x hy
    have heq := mul_tdiv_add_tmod x y
    exact ediv_eq_of_bounds hy (by omega) (by omega)
  · obtain ⟨-, -, hneg, hlt⟩ := tmod_spec (x - y + 1) hy
    have heq := mul_tdiv_add_tmod (x - y + 1) y
    exact ediv_eq_of_bounds hy (by omega) (by omega)
  · obtain ⟨-, -, hneg, hlt⟩ := tmod_spec (x + y + 1) hy
    have heq := mul_tdiv_add_tmod (x + y + 1) y
    exact ediv_eq_of_bounds hy (by omega) (by omega)

theorem dvd_iff_of_div_eq {a b : ℤ} (hb : b ≠ 0) (hy : y ≠ 0) (h : (a : ℚ) / b = x / y) :
    b ∣ a ↔ y ∣ x := by
  have hcross : a * y = x * b := by
    rw [div_eq_div_iff (by exact_mod_cast hb) (by exact_mod_cast hy)] at h
    exact_mod_cast h
  constructor
  · rintro ⟨t, rfl⟩
    exact ⟨t, mul_left_cancel₀ hb (by linear_combination -hcross)⟩
  · rintro ⟨t, rfl⟩
    exact ⟨t, mul_left_cancel₀ hy (by linear_combination hcross)⟩

theorem floor_sgDiv (x : ℤ) (hy : 0 < y) :
    ∃ z, sgDiv (.integer x) (.integer y) = some z ∧
      (¬ DivWrong x y → sgRound z .floor = x / y) ∧
      (DivWrong x y → sgRound z .floor = x / y + 1) := by
  obtain ⟨z, hz, hval, hcan, hneg⟩ :=
    sgDiv_spec (x := .integer x) (y := .integer y) trivial (show y ≠ 0 from hy.ne')
  have hwrong : ReducedWrong ((integer x).numerator * (integer y).denominator)
      ((integer x).denominator * (integer y).numerator) ↔ GcdNegative x y.natAbs := by
    simp only [numerator, denominator, mul_one, one_mul, ReducedWrong,
      if_neg (not_lt.2 hy.le)]
  rw [hwrong] at hcan hneg
  have hval' : z.value = x / y := by
    rw [hval]
    simp only [value, numerator, denominator, cast_one, div_one]
  refine ⟨z, hz, ?_⟩
  by_cases hg : GcdNegative x y.natAbs
  · have hd := hneg hg
    have hlt : z.value < 0 := by
      rw [hval']
      exact div_neg_of_neg_of_pos (by exact_mod_cast hg.1) (by exact_mod_cast hy)
    have hdvd := dvd_iff_of_div_eq hd.ne hy.ne' hval'
    have hround := sgRound_floor_negative hd hlt
    rw [hval', floor_intCast_div x hy] at hround
    constructor
    · intro h
      rw [hround, if_pos (hdvd.2 (not_not.1 fun hn => h ⟨hg, hn⟩))]
    · intro h
      rw [hround, if_neg (mt hdvd.1 h.2)]
  · rw [sgRound_floor_canonical (hcan hg), hval', floor_intCast_div x hy]
    exact ⟨fun _ => rfl, fun h => absurd h.1 hg⟩

open Classical in
theorem sgIntegerDiv_eq (x : ℤ) (hy : y ≠ 0) :
    sgIntegerDiv x y = some (if DivWrong x y then x / y + y.sign else x / y) := by
  have hlong : ∀ {n : ℤ}, FixnumRange n → FitsLong n := by
    intro n h
    rw [fixnumRange_iff] at h
    exact ⟨by omega, by omega⟩
  rw [sgIntegerDiv, if_neg hy]
  by_cases hfix : FixnumRange x ∧ FixnumRange y
  · rw [if_pos hfix, fixnum_div x hy, if_neg]
    rintro ⟨⟨-, h, -⟩, -⟩
    have hx := hfix.1
    rw [fixnumRange_iff] at hx
    exact h ⟨hlong hfix.1, by omega⟩
  rw [if_neg hfix]
  by_cases hpos : 0 < y
  · obtain ⟨z, hz, hright, hwrong⟩ := floor_sgDiv x hpos
    rw [if_pos hpos, hz, sign_eq_one_of_pos hpos]
    split_ifs with h
    · rw [map_some, hwrong h]
    · rw [map_some, hright h]
  · have hneg : DivWrong x y ↔ DivWrong x (-y) := by
      rw [DivWrong, DivWrong, natAbs_neg, neg_dvd]
    obtain ⟨z, hz, hright, hwrong⟩ := floor_sgDiv x (by omega : 0 < -y)
    rw [if_neg hpos, hz, hneg, sign_eq_neg_one_of_neg (by omega)]
    split_ifs with h
    · rw [map_some, hwrong h, ediv_neg]
      congr 1
      ring
    · rw [map_some, hright h, ediv_neg, neg_neg]

theorem sgIntegerDiv0_eq {d : ℤ} (hy : y ≠ 0) (hd : sgIntegerDiv x y = some d) :
    sgIntegerDiv0 x y = some (if 2 * (x - d * y) < |y| then d else d + y.sign) := by
  obtain ⟨z, hz, hval, -⟩ :=
    sgDiv_spec (x := .integer y) (y := .integer 2) trivial (show (2 : ℤ) ≠ 0 by decide)
  have hhalf : |z.value| = |(y : ℚ)| / 2 := by
    rw [hval]
    simp [value, numerator, denominator, abs_div]
  have hlt : ((x - d * y : ℤ) : ℚ) < |z.value| ↔ 2 * (x - d * y) < |y| := by
    rw [hhalf, lt_div_iff₀ two_pos, ← cast_abs, mul_comm]
    exact_mod_cast Iff.rfl
  rw [sgIntegerDiv0, hd, hz]
  simp only [bind_eq_bind, bind_some, hlt, pure_def]
  split_ifs with h hpos
  · rfl
  · rw [sign_eq_one_of_pos hpos]
  · rw [sign_eq_neg_one_of_neg (by omega)]
    rfl

/-! ### The laws of division -/

theorem mod0_unique {m m' : ℤ} (h : y ∣ x - m) (h' : y ∣ x - m') (hm : -|y| ≤ 2 * m)
    (hm1 : 2 * m < |y|) (hm' : -|y| ≤ 2 * m') (hm1' : 2 * m' < |y|) : m = m' := by
  have hdvd : y ∣ m - m' := by
    have := dvd_sub h' h
    rwa [sub_sub_sub_cancel_left] at this
  have hlt : |m - m'| < |y| := by
    rw [abs_lt]
    omega
  exact sub_eq_zero.1 (eq_zero_of_abs_lt_dvd ((abs_dvd y _).2 hdvd) hlt)

theorem div_law_iff {d : ℤ} (hy : y ≠ 0) (hd : sgIntegerDiv x y = some d) :
    (∃ d m, sgIntegerDiv x y = some d ∧ sgIntegerMod x y = some m ∧ x = y * d + m ∧ 0 ≤ m ∧
      m < |y|) ↔ 0 ≤ x - y * d ∧ x - y * d < |y| := by
  rw [hd, sgIntegerMod_eq x hy]
  constructor
  · rintro ⟨d, m, hd', -, hx, h0, h1⟩
    rw [some.inj hd']
    omega
  · rintro ⟨h0, h1⟩
    have hmod := emod_eq_of_dvd_sub ⟨d, by ring⟩ h0 h1
    exact ⟨d, x % y, rfl, rfl, by omega, by omega, by omega⟩

theorem div0_law_iff {d : ℤ} (hy : y ≠ 0) (hd : sgIntegerDiv0 x y = some d) :
    (∃ d m, sgIntegerDiv0 x y = some d ∧ sgIntegerMod0 x y = some m ∧ x = y * d + m ∧
      -|y| ≤ 2 * m ∧ 2 * m < |y|) ↔ -|y| ≤ 2 * (x - y * d) ∧ 2 * (x - y * d) < |y| := by
  rw [hd]
  constructor
  · rintro ⟨d, m, hd', -, hx, h0, h1⟩
    rw [some.inj hd', show x - y * d = m by omega]
    exact ⟨h0, h1⟩
  · rintro ⟨h0, h1⟩
    obtain ⟨m, hm, hdvd, hlow, hhigh⟩ := sgIntegerMod0_spec x hy
    have hdvd' : y ∣ x - (x - y * d) := ⟨d, by ring⟩
    have heq := mod0_unique hdvd hdvd' hlow hhigh h0 h1
    exact ⟨d, m, rfl, hm, by omega, hlow, hhigh⟩

open Classical in
/-- **The four operators**: `div` and `mod` satisfy the law of division unless the ratio gets a
negative denominator and is no integer; `div0` and `mod0` do so as well if the remainder is half of
the divisor or more. -/
theorem division_operators_iff (x y : ℤ) (hy : y ≠ 0) :
    ((∃ d m, sgIntegerDiv x y = some d ∧ sgIntegerMod x y = some m ∧ x = y * d + m ∧ 0 ≤ m ∧
        m < |y|) ↔ ¬ (GcdNegative x y.natAbs ∧ ¬ y ∣ x)) ∧
    ((∃ d m, sgIntegerDiv0 x y = some d ∧ sgIntegerMod0 x y = some m ∧ x = y * d + m ∧
        -|y| ≤ 2 * m ∧ 2 * m < |y|) ↔
      ¬ (GcdNegative x y.natAbs ∧ ¬ y ∣ x ∧ 2 * (x % y) < |y|)) := by
  have hdiv := sgIntegerDiv_eq x hy
  have hrem : x - y * (x / y) = x % y := by
    have := mul_ediv_add_emod x y
    omega
  have hmod0 := emod_nonneg x hy
  have hmod1 := emod_lt_abs x hy
  have hsign : y * y.sign = |y| := (mul_sign_self y).trans (natCast_natAbs y)
  by_cases hw : DivWrong x y
  · rw [if_pos hw] at hdiv
    have hrem' : x - y * (x / y + y.sign) = x % y - |y| := by
      rw [mul_add, hsign, ← hrem]
      ring
    have hdiv0 := sgIntegerDiv0_eq hy hdiv
    rw [mul_comm (x / y + y.sign) y, hrem', if_pos (by omega)] at hdiv0
    rw [div_law_iff hy hdiv, div0_law_iff hy hdiv0, hrem']
    refine ⟨iff_of_false (by omega) (not_not.2 hw), ?_⟩
    constructor
    · rintro ⟨h, -⟩ ⟨-, -, hlt⟩
      omega
    · intro h
      have hge : ¬ 2 * (x % y) < |y| := fun hlt => h ⟨hw.1, hw.2, hlt⟩
      omega
  · rw [if_neg hw] at hdiv
    have hdiv0 := sgIntegerDiv0_eq hy hdiv
    rw [mul_comm (x / y) y, hrem] at hdiv0
    rw [div_law_iff hy hdiv, div0_law_iff hy hdiv0, hrem]
    refine ⟨iff_of_true ⟨hmod0, hmod1⟩ hw, iff_of_true ?_ fun h => hw ⟨h.1, h.2.1⟩⟩
    split_ifs with hlt
    · rw [hrem]
      omega
    · rw [mul_add, hsign, ← sub_sub, hrem]
      omega

/-- Seven divided by minus two. -/
theorem division_operators_seven :
    ((∃ d m, sgIntegerDiv 7 (-2) = some d ∧ sgIntegerMod 7 (-2) = some m ∧ 7 = -2 * d + m ∧
        0 ≤ m ∧ m < |(-2 : ℤ)|) ↔ ¬ (GcdNegative 7 (-2 : ℤ).natAbs ∧ ¬ (-2 : ℤ) ∣ 7)) :=
  (division_operators_iff 7 (-2) (by decide)).1

/-- The quotient of `-2 ^ 64` by `2 ^ 256` is `0` and the remainder `2 ^ 256 - 2 ^ 64`. -/
theorem div_of_two_pow :
    sgIntegerDiv (-2 ^ 64) (2 ^ 256) = some 0 ∧
      sgIntegerMod (-2 ^ 64) (2 ^ 256) = some (2 ^ 256 - 2 ^ 64) ∧
      (-2 ^ 64 : ℤ) ≠ 2 ^ 256 * 0 + (2 ^ 256 - 2 ^ 64) := by
  refine ⟨?_, by decide, by decide⟩
  rw [sgIntegerDiv, if_neg (by decide), if_neg (by decide), if_pos (by decide), sgDiv,
    if_neg (by decide), if_neg (by decide), if_neg (by decide), sgMakeRational_two_pow]
  decide

end Sagittarius
