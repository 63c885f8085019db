import Sagittarius.Bignum.ToDouble
import Sagittarius.Number.ModExpt

/-!
# Values and words

From `Number.Gcd` on an exact integer is its value.  This module connects the values with the
fixnums and bignums of `Number.Integer` and `Number.Division`: what the functions there return is
the canonical form of the value that is computed here, and a test of the form is a test of the
value.

* `exists_fixnum_iff`, `wordCount_mag` : which integers are fixnums, and the words of a bignum;
* `sgQuotient_represents` : `quotient` is the value of `Sg_Quotient`;
* `integerModWords_rel` : `sgIntegerMod` is the value of `Sg_IntegerMod`;
* `smallModExptWords_represents` : `smallModExpt` is the value of the loop of `Sg_ModExpt`, in which
  every product and every remainder is a fixnum or a bignum.
-/

namespace Sagittarius

open Integer Option

variable (g : Junk) {x y : Integer}

/-! ### The form of an integer -/

theorem exists_fixnum_iff (hx : x.Canonical) : (∃ n, x = fixnum n) ↔ FixnumRange x.toInt := by
  refine ⟨?_, fun h => ⟨_, hx.eq_fixnum h⟩⟩
  rintro ⟨n, rfl⟩
  exact (fixnumRange_iff _).2 (Fixnum.bounds n)

theorem wordCount_mag {b : Bignum} (hb : b.Normal) (hs : b.sign ≠ 0) :
    wordCount b.mag = b.size := by
  have h0 := hb.size_pos hs
  obtain ⟨hpos, hlow, hle, -⟩ := mpBitSize_spec h0 (hb.top_ne_zero h0)
  rw [wordCount, ← (mag_size hb hs).1, sgBignumBitSize, if_neg hs]
  omega

/-! ### Division -/

theorem sgQuotient_represents (hx : x.Canonical) (hy : y.Canonical) (hy0 : y.toInt ≠ 0) :
    ∃ q r, sgQuotient g x y = some (q, r) ∧ q.Represents (quotient x.toInt y.toInt) ∧
      r.Represents (x.toInt.tmod y.toInt) := by
  rw [quotient]
  split_ifs with h
  · refine ⟨_, _, sgQuotient_overflow g hx hy h, sgMakeInt_represents (by decide), ?_⟩
    rw [h.1, h.2]
    exact sgMakeInt_represents (by decide)
  · exact sgQuotient_spec g hx hy hy0 h

/-- `Sg_IntegerMod` on fixnums and bignums; a canonical integer is `SG_MAKE_INT(0)` if its value is
zero. -/
def integerModWords (x y : Integer) : Option Integer :=
  if y.toInt = 0 then none
  else if 0 < x.toInt then sgModulo g x y true
  else if x.toInt < 0 then
    (sgModulo g x y true).map fun r =>
      if r.toInt = 0 then r else if 0 < y.toInt then sgAdd (g.sub 1) r y else sgSub (g.sub 1) r y
  else some (sgMakeInt 0)

theorem integerModWords_rel (hx : x.Canonical) (hy : y.Canonical) :
    Option.Rel Represents (integerModWords g x y) (sgIntegerMod x.toInt y.toInt) := by
  rw [integerModWords, sgIntegerMod]
  by_cases hy0 : y.toInt = 0
  · rw [if_pos hy0, if_pos hy0]
    exact .none
  obtain ⟨r, hr, hcan, hval⟩ := sgModulo_spec g hx hy hy0 true
  rw [if_pos rfl] at hval
  simp only [if_neg hy0, hr, map_some, ← hval]
  split_ifs
  · exact .some ⟨hcan, rfl⟩
  · exact .some ⟨hcan, rfl⟩
  · exact .some (sgAdd_represents _ hcan hy)
  · exact .some (sgSub_represents _ hcan hy)
  · exact .some (sgMakeInt_represents (by decide))

/-! ### The loop of `Sg_ModExpt` -/

/-- The loop on fixnum exponents, with the products and remainders as fixnums and bignums. -/
def smallModExptWords (m : Integer) (g : Junk) (n : ℕ) (x y : Integer) : Option Integer :=
  if _h : n = 0 then some y
  else
    (if n % 2 = 1 then integerModWords (g.sub 1) (sgMul g false y x) m else some y).bind fun y =>
      (if n / 2 = 0 then some x
        else integerModWords (g.sub 3) (sgMul (g.sub 2) true x x) m).bind fun x =>
          smallModExptWords m (g.sub 0) (n / 2) x y
termination_by n
decreasing_by exact Nat.div_lt_self (Nat.pos_of_ne_zero _h) (by decide)

theorem integerModWords_mul {m : Integer} (hm : m.Canonical) (hm0 : m.toInt ≠ 0) {eq : Bool}
    (heq : eq = true → x = y) (hx : x.Canonical) (hy : y.Canonical) (g' : Junk) :
    ∃ r, integerModWords g (sgMul g' eq x y) m = some r ∧
      r.Represents ((sgIntegerMod (x.toInt * y.toInt) m.toInt).getD 0) := by
  obtain ⟨hcan, hval⟩ := sgMul_represents g' hx hy heq
  have h := integerModWords_rel g hcan hm
  rw [hval, sgIntegerMod_eq _ hm0] at h
  cases hr : integerModWords g (sgMul g' eq x y) m with
  | none => rw [hr] at h; cases h
  | some r =>
    rw [hr] at h
    obtain ⟨hrep⟩ := h
    exact ⟨r, rfl, by rwa [sgIntegerMod_eq _ hm0]⟩

/-- **The loop of `Sg_ModExpt` on fixnums and bignums** returns the canonical form of what it
computes on values. -/
theorem smallModExptWords_represents {m : Integer} (hm : m.Canonical) (hm0 : m.toInt ≠ 0) (n : ℕ)
    (hx : x.Canonical) (hy : y.Canonical) :
    ∃ r, smallModExptWords m g n x y = some r ∧
      r.Represents (smallModExpt m.toInt n x.toInt y.toInt) := by
  induction n using Nat.strong_induction_on generalizing g x y with
  | _ n ih =>
    rw [smallModExptWords, smallModExpt]
    by_cases h0 : n = 0
    · rw [dif_pos h0, dif_pos h0]
      exact ⟨y, rfl, hy, rfl⟩
    rw [dif_neg h0, dif_neg h0]
    obtain ⟨y', hy', hycan, hyval⟩ : ∃ y',
        (if n % 2 = 1 then integerModWords (g.sub 1) (sgMul g false y x) m else some y) = some y' ∧
          y'.Represents (if n % 2 = 1 then (sgIntegerMod (y.toInt * x.toInt) m.toInt).getD 0
            else y.toInt) := by
      split_ifs
      · exact integerModWords_mul _ hm hm0 (absurd · Bool.false_ne_true) hy hx _
      · exact ⟨y, rfl, hy, rfl⟩
    obtain ⟨x', hx', hxcan, hxval⟩ : ∃ x',
        (if n / 2 = 0 then some x else integerModWords (g.sub 3) (sgMul (g.sub 2) true x x) m) =
            some x' ∧
          x'.Represents (if n / 2 = 0 then x.toInt
            else (sgIntegerMod (x.toInt * x.toInt) m.toInt).getD 0) := by
      split_ifs
      · exact ⟨x, rfl, hx, rfl⟩
      · exact integerModWords_mul _ hm hm0 (fun _ => rfl) hx hx _
    obtain ⟨r, hr, hrep⟩ := ih (n / 2) (Nat.div_lt_self (Nat.pos_of_ne_zero h0) (by decide))
      (g.sub 0) hxcan hycan
    rw [hxval, hyval] at hrep
    exact ⟨r, by rw [hy', bind_some, hx', bind_some, hr], hrep⟩

end Sagittarius
