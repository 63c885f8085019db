import Sagittarius.Bignum.Division
import Sagittarius.Number.Integer

/-!
# Exact integers: truncating division

`Sg_Quotient` and `Sg_Modulo` on exact integers.  Each of the four combinations of fixnums and
bignums is divided by other code.

* `sgModulo_spec` : the remainders with the sign of the dividend and of the divisor;
* `sgQuotient_remainder` : the remainder of `Sg_Quotient` is always right;
* `sgQuotient_spec` : so is the quotient, unless two fixnums have a quotient that is none;
* `truncating_division_iff` : the laws of truncating division hold but for `SG_INT_MIN / -1`.
-/

namespace Sagittarius

open Integer Fixnum

/-! ### The functions -/

/-- `Sg_Quotient` on exact integers: the quotient, and the remainder stored through `rem`.  There
is none if it raises an error or traps in the division of a bignum by zero. -/
def sgQuotient (g : Junk) : Integer → Integer → Option (Integer × Integer)
  | .fixnum m, .fixnum n =>
    if m = 0 then some (sgMakeInt 0, sgMakeInt 0)
    else if n = 0 then none
    -- the quotient of two `long`s is put into a fixnum unchecked
    else some (sgMakeInt (m.toInt.tdiv n.toInt), sgMakeInt (m.toInt.tmod n.toInt))
  | .fixnum m, .bignum y =>
    if m = 0 then some (sgMakeInt 0, sgMakeInt 0)
    else some (sgBignumDivRem (g.sub 1) (sgMakeBignumFromSI g m.toInt) y)
  | .bignum x, .fixnum n =>
    if n = 0 then none
    else
      let (q, r) := sgBignumDivSI g x n.toInt
      some (q, sgMakeInt r)
  | .bignum x, .bignum y => some (sgBignumDivRem g x y)

/-- `Sg_Modulo` on exact integers. -/
def sgModulo (g : Junk) (x y : Integer) (remp : Bool) : Option Integer :=
  match x, y with
  | .fixnum m, .fixnum n =>
    if n = 0 then none
    else
      let r := m.toInt.tmod n.toInt
      if !remp ∧ r ≠ 0 ∧ ((m.toInt > 0 ∧ n.toInt < 0) ∨ (m.toInt < 0 ∧ n.toInt > 0)) then
        some (sgMakeInt (r + n.toInt))
      else some (sgMakeInt r)
  | .fixnum m, .bignum y =>
    some (sgBignumModulo (g.sub 1) (sgMakeBignumFromSI g m.toInt) y remp)
  | .bignum x, .fixnum n => if n = 0 then none else some (sgBignumModuloSI g x n.toInt remp)
  | .bignum x, .bignum y => some (sgBignumModulo g x y remp)

/-! ### Remainders -/

theorem Fixnum.fromSI_range (m : Fixnum) : -2 ^ 63 ≤ m.toInt ∧ m.toInt < 2 ^ 63 := by
  have := bounds m
  omega

theorem sgMakeInt_tmod (m : ℤ) {n : Fixnum} (hn : n ≠ 0) :
    (sgMakeInt (m.tmod n.toInt)).Represents (m.tmod n.toInt) := by
  have h := tmod_bounds (a := m) (toInt_ne_zero.2 hn) (bounds n)
  exact sgMakeInt_represents ((fixnumRange_iff _).2 (by omega))

theorem fmod_sign {a b : ℤ} (hb : b ≠ 0) :
    (a.fmod b).natAbs < b.natAbs ∧ (a.fmod b = 0 ∨ (a.fmod b).sign = b.sign) := by
  have hpos : ∀ {a b : ℤ}, 0 < b →
      (a.fmod b).natAbs < b.natAbs ∧ (a.fmod b = 0 ∨ (a.fmod b).sign = b.sign) := by
    intro a b h
    have h1 := Int.fmod_nonneg_of_pos a h
    have h2 := Int.fmod_lt_of_pos a h
    refine ⟨by omega, ?_⟩
    by_cases h0 : a.fmod b = 0
    · exact .inl h0
    · rw [Int.sign_eq_one_of_pos h, Int.sign_eq_one_of_pos (by omega)]
      exact .inr rfl
  rcases lt_or_gt_of_ne hb with h | h
  · have hneg := hpos (a := -a) (b := -b) (by omega)
    rw [Int.neg_fmod_neg, Int.natAbs_neg, Int.natAbs_neg, Int.sign_neg, Int.sign_neg,
      Int.neg_eq_zero, neg_inj] at hneg
    exact hneg
  · exact hpos h

variable (g : Junk) {x y : Integer}

/-- **`Sg_Modulo`** returns the remainder of truncating division with `remp`, and the remainder with
the sign of the divisor without it. -/
theorem sgModulo_spec (hx : x.Canonical) (hy : y.Canonical) (hy0 : y.toInt ≠ 0) (remp : Bool) :
    ∃ r, sgModulo g x y remp = some r ∧
      r.Represents (if remp then x.toInt.tmod y.toInt else x.toInt.fmod y.toInt) := by
  cases y with
  | fixnum n =>
    have hn : n ≠ 0 := toInt_ne_zero.1 hy0
    rw [toInt_fixnum] at hy0
    cases x with
    | fixnum m =>
      have hb := bounds n
      have hsign : ((m.toInt > 0 ∧ n.toInt < 0) ∨ (m.toInt < 0 ∧ n.toInt > 0)) ↔
          m.toInt.sign * n.toInt.sign < 0 := by
        rw [← Int.sign_mul, Int.sign_neg_iff, mul_neg_iff]
      rw [sgModulo, if_neg hn, toInt_fixnum, toInt_fixnum, modulo_eq_ite_tmod]
      simp only [hsign]
      split_ifs with hc
      · have hlt := (fmod_sign (a := m.toInt) hy0).1
        have hmod := modulo_eq_ite_tmod m.toInt n.toInt false
        rw [if_neg Bool.false_ne_true, if_pos ⟨rfl, hc.2⟩] at hmod
        rw [Int.add_comm]
        exact ⟨_, rfl, sgMakeInt_represents ((fixnumRange_iff _).2 (by omega))⟩
      · exact ⟨_, rfl, sgMakeInt_tmod _ hn⟩
    | bignum a =>
      exact ⟨_, if_neg hn, sgBignumModuloSI_spec g hx.normal hy0 (bounds n) remp⟩
  | bignum b =>
    cases x with
    | fixnum m =>
      have h := sgBignumModulo_spec (g.sub 1)
        (sgMakeBignumFromSI_normal g (fromSI_range m)) hy.normal hy.1 remp
      rw [sgMakeBignumFromSI_toInt g (fromSI_range m)] at h
      exact ⟨_, rfl, h⟩
    | bignum a => exact ⟨_, rfl, sgBignumModulo_spec g hx.normal hy.normal hy.1 remp⟩

/-! ### Quotients -/

/-- Two fixnums whose quotient is not a fixnum. -/
def QuotientOverflows (x y : ℤ) : Prop := x = sgIntMin ∧ y = -1

instance (x y : ℤ) : Decidable (QuotientOverflows x y) := inferInstanceAs (Decidable (_ ∧ _))

theorem tdiv_range {m n : ℤ} (hm : -2 ^ 61 ≤ m ∧ m < 2 ^ 61) (hn : n ≠ 0)
    (h : ¬ QuotientOverflows m n) : FixnumRange (m.tdiv n) := by
  rw [fixnumRange_iff]
  have habs : (m.tdiv n).natAbs = m.natAbs / n.natAbs := Int.natAbs_tdiv m n
  by_cases h1 : n = -1
  · rw [h1, Int.tdiv_neg, Int.tdiv_one]
    have hne : m ≠ -2 ^ 61 := fun hc => h ⟨by rw [hc]; rfl, h1⟩
    omega
  · by_cases h2 : n = 1
    · rw [h2, Int.tdiv_one]
      exact hm
    · have hle : m.natAbs / n.natAbs ≤ m.natAbs / 2 :=
        Nat.div_le_div_left (by omega) (by decide)
      omega

/-- **The remainder of `Sg_Quotient`** is always that of truncating division. -/
theorem sgQuotient_remainder (hx : x.Canonical) (hy : y.Canonical)
    (hy0 : y.toInt ≠ 0) : ∃ q r, sgQuotient g x y = some (q, r) ∧ q.Canonical ∧
      r.Represents (x.toInt.tmod y.toInt) ∧
      (¬ QuotientOverflows x.toInt y.toInt → q.Represents (x.toInt.tdiv y.toInt)) := by
  cases x with
  | fixnum m =>
    rw [toInt_fixnum]
    by_cases hm : m = 0
    · have h0 : (sgMakeInt 0).Represents 0 := sgMakeInt_represents (by decide)
      have hm0 : m.toInt = 0 := by
        rw [hm]
        rfl
      rw [hm0, Int.zero_tmod, Int.zero_tdiv]
      exact ⟨sgMakeInt 0, sgMakeInt 0, by cases y <;> exact if_pos hm, trivial, h0, fun _ => h0⟩
    · cases y with
      | fixnum n =>
        have hn : n ≠ 0 := toInt_ne_zero.1 hy0
        refine ⟨sgMakeInt (m.toInt.tdiv n.toInt), sgMakeInt (m.toInt.tmod n.toInt), ?_, trivial,
          sgMakeInt_tmod _ hn, fun h => sgMakeInt_represents
            (tdiv_range (bounds m) hy0 h)⟩
        rw [sgQuotient, if_neg hm, if_neg hn]
      | bignum b =>
        obtain ⟨hq, hr⟩ := sgBignumDivRem_spec (g.sub 1)
          (sgMakeBignumFromSI_normal g (fromSI_range m)) hy.normal hy.1
        rw [sgMakeBignumFromSI_toInt g (fromSI_range m)] at hq hr
        exact ⟨_, _, if_neg hm, hq.1, hr, fun _ => hq⟩
  | bignum a =>
    cases y with
    | fixnum n =>
      have hn : n ≠ 0 := toInt_ne_zero.1 hy0
      obtain ⟨hq, hr⟩ := sgBignumDivSI_spec g hx.1 hx.2.1 hy0 (fromSI_range n)
      refine ⟨(sgBignumDivSI g a n.toInt).1, sgMakeInt (sgBignumDivSI g a n.toInt).2,
        if_neg hn, hq.1, ?_, fun _ => hq⟩
      rw [toInt_fixnum] at hr
      rw [hr]
      exact sgMakeInt_tmod _ hn
    | bignum b =>
      obtain ⟨hq, hr⟩ := sgBignumDivRem_spec g hx.normal hy.normal hy.1
      exact ⟨_, _, rfl, hq.1, hr, fun _ => hq⟩

/-- **`Sg_Quotient` truncates**, unless two fixnums have a quotient that is none. -/
theorem sgQuotient_spec (hx : x.Canonical) (hy : y.Canonical)
    (hy0 : y.toInt ≠ 0) (h : ¬ QuotientOverflows x.toInt y.toInt) :
    ∃ q r, sgQuotient g x y = some (q, r) ∧ q.Represents (x.toInt.tdiv y.toInt) ∧
      r.Represents (x.toInt.tmod y.toInt) := by
  obtain ⟨q, r, heq, -, hr, hq⟩ := sgQuotient_remainder g hx hy hy0
  exact ⟨q, r, heq, hq h, hr⟩

theorem Integer.Canonical.eq_fixnum (h : x.Canonical) (hr : FixnumRange x.toInt) :
    x = sgMakeInt x.toInt := by
  cases x with
  | fixnum n => rw [toInt_fixnum, sgMakeInt, BitVec.ofInt_toInt]
  | bignum b => exact absurd hr h.2.2.2

theorem sgQuotient_overflow (hx : x.Canonical) (hy : y.Canonical)
    (h : QuotientOverflows x.toInt y.toInt) :
    sgQuotient g x y = some (sgMakeInt sgIntMin, sgMakeInt 0) := by
  rw [hx.eq_fixnum (by rw [h.1]; decide), hy.eq_fixnum (by rw [h.2]; decide), h.1, h.2]
  rfl

/-! ### The laws of truncating division -/

theorem tmod_sign (a b : ℤ) : a.tmod b = 0 ∨ (a.tmod b).sign = a.sign := by
  by_cases h : b ∣ a
  · exact .inl (Int.dvd_iff_tmod_eq_zero.1 h)
  · exact .inr (by rw [Int.sign_tmod, if_neg h])

/-- **Truncating division** of canonical integers: `Sg_Quotient` returns canonical `q` and `r` with
`x = q * y + r` and `r` smaller than `y` and of the sign of `x`, `Sg_Modulo` returns `r` with
`remp` and the remainder of the sign of `y` without it; all but when `SG_INT_MIN` is divided by
`-1`. -/
theorem truncating_division_iff (g g' g'' : Junk) (x y : Integer) (hx : x.Canonical)
    (hy : y.Canonical) (hy0 : y.toInt ≠ 0) :
    (∃ q r r' m, sgQuotient g x y = some (q, r) ∧ sgModulo g' x y true = some r' ∧
        sgModulo g'' x y false = some m ∧
        q.Canonical ∧ r.Canonical ∧ x.toInt = q.toInt * y.toInt + r.toInt ∧
        r.toInt.natAbs < y.toInt.natAbs ∧ (r.toInt = 0 ∨ r.toInt.sign = x.toInt.sign) ∧
        r'.Represents r.toInt ∧
        m.Canonical ∧ y.toInt ∣ x.toInt - m.toInt ∧ m.toInt.natAbs < y.toInt.natAbs ∧
        (m.toInt = 0 ∨ m.toInt.sign = y.toInt.sign)) ↔
      ¬ (x.toInt = sgIntMin ∧ y.toInt = -1) := by
  constructor
  · rintro ⟨q, r, r', m, hqr, -, -, -, -, heq, -⟩ h
    rw [sgQuotient_overflow g hx hy h, Option.some_inj, Prod.mk.injEq] at hqr
    rw [← hqr.1, ← hqr.2, h.1, h.2] at heq
    exact absurd heq (by decide)
  · intro h
    obtain ⟨q, r, hqr, ⟨hq, hqval⟩, hr, hrval⟩ := sgQuotient_spec g hx hy hy0 h
    obtain ⟨r', hr', hrem⟩ := sgModulo_spec g' hx hy hy0 true
    obtain ⟨m, hm, hmcan, hmval⟩ := sgModulo_spec g'' hx hy hy0 false
    refine ⟨q, r, r', m, hqr, hr', hm, hq, hr, ?_, ?_, ?_, ?_, hmcan, ?_, ?_⟩
    · rw [hqval, hrval, Int.mul_comm]
      exact (Int.mul_tdiv_add_tmod _ _).symm
    · rw [hrval, Int.natAbs_tmod]
      exact Nat.mod_lt _ (Int.natAbs_pos.2 hy0)
    · rw [hrval]
      exact tmod_sign _ _
    · rw [hrval]
      exact hrem
    · rw [hmval]
      exact Int.dvd_self_sub_fmod
    · rw [hmval]
      exact fmod_sign hy0

/-- The bignum `-2 ^ 64` divided by `7`. -/
theorem truncating_division_two_words :
    let x : Integer := .bignum ⟨-1, 2, fun i => if i = 1 then 1 else 0⟩
    (∃ q r r' m, sgQuotient (fun _ _ => 0) x (sgMakeInt 7) = some (q, r) ∧
        sgModulo (fun _ _ => 0) x (sgMakeInt 7) true = some r' ∧
        sgModulo (fun _ _ => 0) x (sgMakeInt 7) false = some m ∧
        q.Canonical ∧ r.Canonical ∧ x.toInt = q.toInt * (sgMakeInt 7).toInt + r.toInt ∧
        r.toInt.natAbs < (sgMakeInt 7).toInt.natAbs ∧
        (r.toInt = 0 ∨ r.toInt.sign = x.toInt.sign) ∧
        r'.Represents r.toInt ∧
        m.Canonical ∧ (sgMakeInt 7).toInt ∣ x.toInt - m.toInt ∧
        m.toInt.natAbs < (sgMakeInt 7).toInt.natAbs ∧
        (m.toInt = 0 ∨ m.toInt.sign = (sgMakeInt 7).toInt.sign)) ↔
      ¬ (x.toInt = sgIntMin ∧ (sgMakeInt 7).toInt = -1) :=
  truncating_division_iff (fun _ _ => 0) (fun _ _ => 0) (fun _ _ => 0)
    (.bignum ⟨-1, 2, fun i => if i = 1 then 1 else 0⟩) (sgMakeInt 7)
    (canonical_of_two_words (by decide) (by decide) (by decide)) trivial (by decide)

/-- `SG_INT_MIN / -1` is `SG_INT_MIN` again. -/
theorem sgQuotient_intMin_wraps :
    let x := sgMakeInt sgIntMin
    let y := sgMakeInt (-1)
    ∃ q r, sgQuotient (fun _ _ => 0) x y = some (q, r) ∧ q.toInt = sgIntMin ∧
      x.toInt ≠ q.toInt * y.toInt + r.toInt :=
  ⟨sgMakeInt sgIntMin, sgMakeInt 0, rfl, by decide, by decide⟩

end Sagittarius
