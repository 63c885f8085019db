import Sagittarius.Bignum.Basic
import Sagittarius.Mp.Karatsuba

/-!
# Sums and differences of bignums

The magnitudes are added or subtracted in a cleared result of `mp_safe_size_for_add` words; a
difference that comes out negative is complemented and its sign is changed.

* `bignumAddInt_toInt`, `bignumSubInt_toInt` : the sum and the difference of the magnitudes, with
  the sign that the result had before;
* `bignumAdd_spec`, `bignumSub_spec` : the sum and the difference;
* `bignumAddSi_spec` : a machine word is added, if the bignum is not smaller.
-/

namespace Sagittarius

open Bignum SignType

/-- Words enough for the sum. -/
def bignumSafeSizeForAdd (x y : Bignum) : ℕ :=
  (mpSafeSizeForAdd x.words x.size y.words y.size).val

/-- Copies the first `size` words of `src`. -/
def copyWords (dst src : Mem) (size : ℕ) : Mem := fun i => if i < size then src i else dst i

/-- `bignum_2scmpl`: the complement, in place. -/
def bignumTwoScmpl (br : Bignum) : Bignum := br.setWords (mpTwoScmpl br.words br.size).val

/-- The sum, stored in `br`. -/
def bignumAddInt (br x y : Bignum) : Bignum :=
  if x.size = 0 then
    if y.size = 0 then { br with sign := 0, size := 0 }
    else { br with sign := y.sign, elements := copyWords br.elements y.elements y.size }
  else if y.size = 0 then
    { br with sign := x.sign, elements := copyWords br.elements x.elements x.size }
  else
    let (x, y) := if x.size < y.size then (y, x) else (x, y)
    br.setWords (mpAdd br.words br.size (.ptr x.words) x.size y.words y.size).val.1

/-- The difference, stored in `br`. -/
def bignumSubInt (br x y : Bignum) : Bignum :=
  if x.size = 0 then
    if y.size = 0 then { br with sign := 0, size := 0 }
    else { br with sign := y.sign, elements := copyWords br.elements y.elements y.size }
  else if y.size = 0 then
    { br with sign := x.sign, elements := copyWords br.elements x.elements x.size }
  else
    let flip := x.size < y.size
    let (x, y) := if flip then (y, x) else (x, y)
    let r := (mpSub br.words br.size (.ptr x.words) x.size y.words y.size).val
    let br := br.setWords r.1
    if flip ∨ r.2 ≠ 0 then
      let br := if r.2 ≠ 0 then bignumTwoScmpl br else br
      { br with sign := -br.sign }
    else br

/-- The sum, in a new bignum. -/
def bignumAdd (g : Junk) (x y : Bignum) : Bignum :=
  let br := { makeBignum g (bignumSafeSizeForAdd x y) with sign := x.sign }
  if x.sign = y.sign then bignumAddInt br x y else bignumSubInt br x y

/-- The difference, in a new bignum. -/
def bignumSub (g : Junk) (x y : Bignum) : Bignum :=
  let br := { makeBignum g (bignumSafeSizeForAdd x y) with sign := x.sign }
  if x.sign = y.sign then bignumSubInt br x y
  else
    let br := bignumAddInt br x y
    if x.sign = 0 then { br with sign := -y.sign } else br

/-- `bignum_add_si`; `y` is a `long` and not `LONG_MIN`. -/
def bignumAddSi (g : Junk) (x : Bignum) (y : ℤ) : Bignum :=
  if y = 0 then x
  else
    let yabs := BitVec.ofInt 64 (if y < 0 then -y else y)
    let ysign : SignType := if y < 0 then -1 else 1
    let br := { makeBignum g (x.size + 1) with sign := x.sign }
    if x.sign = ysign then br.setWords (mpAddUl br.words br.size (.ptr x.words) x.size yabs).val.1
    else br.setWords (mpSubUl br.words br.size x.words x.size yabs).val.1

/-- The sum, normalized. -/
def sgBignumAdd (g : Junk) (a b : Bignum) : Integer := sgNormalizeBignum (bignumAdd g a b)

/-- The sum with a `long`. -/
def sgBignumAddSI (g : Junk) (a : Bignum) (b : ℤ) : Integer := sgNormalizeBignum (bignumAddSi g a b)

/-- The difference, normalized. -/
def sgBignumSub (g : Junk) (a b : Bignum) : Integer := sgNormalizeBignum (bignumSub g a b)

/-- The difference with a `long`. -/
def sgBignumSubSI (g : Junk) (a : Bignum) (b : ℤ) : Integer :=
  sgNormalizeBignum (bignumAddSi g a (-b))

/-! ### Magnitudes -/

theorem bignumSafeSizeForAdd_bounds (x y : Bignum) :
    x.size ≤ bignumSafeSizeForAdd x y ∧ y.size ≤ bignumSafeSizeForAdd x y := by
  have := (mpSafeSizeForAdd_bounds x.words x.size y.words y.size).1
  exact ⟨(le_max_left _ _).trans this, (le_max_right _ _).trans this⟩

variable (g : Junk) (br : Bignum) {x y : Bignum}

theorem wval_copyWords (src : Mem) {n size : ℕ} (h : n ≤ size) :
    wval (copyWords (makeBignum g size).elements src n) 0 size = wval src 0 n := by
  obtain ⟨k, rfl⟩ := Nat.exists_eq_add_of_le h
  have hlow : wval (copyWords (makeBignum g (n + k)).elements src n) 0 n = wval src 0 n :=
    wval_congr fun j _ hj => if_pos (by omega)
  have hhigh : wval (copyWords (makeBignum g (n + k)).elements src n) n k = 0 :=
    wval_eq_zero fun j h1 h2 => (if_neg (by omega)).trans (makeBignum_elements g h2)
  rw [wval_append _ 0 n k, Nat.zero_add, hlow, hhigh, Nat.mul_zero, Nat.add_zero]

theorem bignumAddInt_toInt (hx : 0 < x.size) (hy : 0 < y.size)
    (hr : br.size = bignumSafeSizeForAdd x y) (h0 : br.elements (br.size - 1) = 0) :
    (bignumAddInt br x y).size = br.size ∧
      (bignumAddInt br x y).toInt = br.sign * ((x.mag : ℤ) + y.mag) := by
  rw [bignumAddInt, if_neg hx.ne', if_neg hy.ne']
  split_ifs with hlt
  · obtain ⟨-, hval⟩ := mpAdd_safe br.words y.words y.size x.words x.size hx hlt.le
      (hr.trans (mpSafeSizeForAdd_comm _ _ _ _)) h0
    refine ⟨rfl, ?_⟩
    rw [toInt, mag]
    simp only [setWords_elements, setWords_size, setWords_sign, hval,
      words_mem]
    rw [Nat.add_comm, Nat.cast_add]
    rfl
  · obtain ⟨-, hval⟩ := mpAdd_safe br.words x.words x.size y.words y.size hy (by omega) hr h0
    refine ⟨rfl, ?_⟩
    rw [toInt, mag]
    simp only [setWords_elements, setWords_size, setWords_sign, hval,
      words_mem]
    rfl

/-- The longer operand minus the shorter one: without a borrow it is the difference, with a borrow
its complement is the opposite of it. -/
theorem mpSub_mag (x y : Bignum) (hy : 0 < y.size) (hle : y.size ≤ x.size) (hr : x.size ≤ br.size) :
    let r := (mpSub br.words br.size (.ptr x.words) x.size y.words y.size).val
    (r.2 = 0 → y.mag ≤ x.mag ∧ (br.setWords r.1).mag = x.mag - y.mag) ∧
      (r.2 ≠ 0 → x.mag < y.mag ∧ (bignumTwoScmpl (br.setWords r.1)).mag = y.mag - x.mag) := by
  intro r
  obtain ⟨b, hb, hb2, -, hval⟩ := mpSub_spec br.words br.size (.ptr x.words) x.size y.words
    y.size hy hle hr
  change r.2 = _ at hb2
  change wval r.1.mem 0 br.size + y.mag = x.mag + radix ^ br.size * b at hval
  have hlt : wval r.1.mem 0 br.size < radix ^ br.size := wval_lt _ _ _
  constructor
  · intro h0
    obtain rfl : b = 0 := by omega
    refine ⟨by omega, ?_⟩
    change wval r.1.mem 0 br.size = _
    omega
  · intro h0
    obtain rfl : b = 1 := by omega
    obtain ⟨-, hneg⟩ := mpTwoScmpl_spec (br.setWords r.1).words br.size
    change wval (bignumTwoScmpl (br.setWords r.1)).elements 0 br.size =
      (radix ^ br.size - wval r.1.mem 0 br.size) % radix ^ br.size at hneg
    refine ⟨by omega, ?_⟩
    change wval (bignumTwoScmpl (br.setWords r.1)).elements 0 br.size = _
    have hmag : y.mag < radix ^ br.size :=
      y.mag_lt.trans_le (Nat.pow_le_pow_right radix_pos (hle.trans hr))
    rw [hneg, Nat.mod_eq_of_lt (by omega)]
    omega

theorem Bignum.mag_lt_of_size_lt (hy : y.Normal) (h : x.size < y.size) : x.mag < y.mag :=
  calc x.mag < radix ^ x.size := x.mag_lt
    _ ≤ radix ^ (y.size - 1) := Nat.pow_le_pow_right radix_pos (by omega)
    _ ≤ y.mag := le_mag (by omega) (hy.top_ne_zero (by omega))

theorem bignumSubInt_toInt (hx : 0 < x.size) (hy : 0 < y.size) (hny : y.Normal)
    (hrx : x.size ≤ br.size) (hry : y.size ≤ br.size) :
    (bignumSubInt br x y).size = br.size ∧
      (bignumSubInt br x y).toInt = br.sign * ((x.mag : ℤ) - y.mag) := by
  rw [bignumSubInt, if_neg hx.ne', if_neg hy.ne']
  by_cases hlt : x.size < y.size
  · simp only [hlt, if_true, true_or]
    obtain ⟨h0, h1⟩ := mpSub_mag br y x hx hlt.le hry
    have hmag := mag_lt_of_size_lt hny hlt
    have hc : (mpSub br.words br.size (.ptr y.words) y.size x.words x.size).val.2 = 0 := by
      by_contra hc
      exact absurd (h1 hc).1 (by omega)
    simp only [hc, ne_eq, not_true_eq_false, if_false]
    refine ⟨rfl, ?_⟩
    change ((-br.sign : SignType) : ℤ) * ((br.setWords _).mag : ℤ) = _
    rw [(h0 hc).2, coe_neg, Nat.cast_sub hmag.le]
    ring
  · simp only [hlt, if_false, false_or]
    obtain ⟨h0, h1⟩ := mpSub_mag br x y hy (by omega) hrx
    split_ifs with hc
    · refine ⟨rfl, ?_⟩
      change ((-br.sign : SignType) : ℤ) * ((bignumTwoScmpl _).mag : ℤ) = _
      rw [(h1 hc).2, coe_neg, Nat.cast_sub (h1 hc).1.le]
      ring
    · rw [not_not] at hc
      refine ⟨rfl, ?_⟩
      rw [toInt, (h0 hc).2, Nat.cast_sub (h0 hc).1]
      rfl

/-! ### Sums and differences -/

theorem toInt_copyWords (y : Bignum) {size : ℕ} (h : y.size ≤ size) (s : SignType) :
    (mk s size (copyWords (makeBignum g size).elements y.elements y.size)).toInt =
      s * y.mag := by
  rw [toInt, mag, wval_copyWords g y.elements h]
  rfl

theorem sign_eq_neg {s t : SignType} (hs : s ≠ 0) (ht : t ≠ 0) (h : s ≠ t) : t = -s := by
  revert s t
  decide

theorem bignumAdd_spec (hx : x.Normal) (hy : y.Normal) :
    ((bignumAdd g x y).sign ≠ 0 → 0 < (bignumAdd g x y).size) ∧
      (bignumAdd g x y).toInt = x.toInt + y.toInt := by
  obtain ⟨hbx, hby⟩ := bignumSafeSizeForAdd_bounds x y
  rw [bignumAdd]
  set n := bignumSafeSizeForAdd x y with hn
  by_cases h0x : x.sign = 0
  · have hsx := hx.sign_eq_zero.1 h0x
    rw [toInt_of_zero h0x, Int.zero_add]
    by_cases h0y : y.sign = 0
    · have hsy := hy.sign_eq_zero.1 h0y
      rw [if_pos (h0x.trans h0y.symm), bignumAddInt, if_pos hsx, if_pos hsy,
        toInt_of_zero h0y]
      exact ⟨fun h => absurd rfl h, toInt_of_zero rfl⟩
    · have hsy := hy.size_pos h0y
      rw [if_neg (fun h : x.sign = y.sign => h0y (h ▸ h0x)), bignumSubInt, if_pos hsx,
        if_neg hsy.ne']
      exact ⟨fun _ => hsy.trans_le hby, toInt_copyWords g y hby y.sign⟩
  · have hsx := hx.size_pos h0x
    by_cases h0y : y.sign = 0
    · have hsy := hy.sign_eq_zero.1 h0y
      rw [if_neg (fun h : x.sign = y.sign => h0x (h ▸ h0y)), bignumSubInt, if_neg hsx.ne',
        if_pos hsy, toInt_of_zero h0y, Int.add_zero]
      exact ⟨fun _ => hsx.trans_le hbx, toInt_copyWords g x hbx x.sign⟩
    · have hsy := hy.size_pos h0y
      split_ifs with heq
      · obtain ⟨hsize, hval⟩ := bignumAddInt_toInt ⟨x.sign, n, (makeBignum g n).elements⟩ hsx hsy
          hn (makeBignum_elements g (Nat.sub_lt (hsx.trans_le hbx) Nat.one_pos))
        refine ⟨fun _ => hsize ▸ hsx.trans_le hbx, hval.trans ?_⟩
        rw [toInt, toInt, ← heq]
        ring
      · obtain ⟨hsize, hval⟩ := bignumSubInt_toInt ⟨x.sign, n, (makeBignum g n).elements⟩ hsx hsy
          hy hbx hby
        refine ⟨fun _ => hsize ▸ hsx.trans_le hbx, hval.trans ?_⟩
        rw [toInt, toInt, sign_eq_neg h0x h0y heq, coe_neg]
        ring

theorem bignumSub_eq (hx : x.Normal) (hy : y.Normal) :
    bignumSub g x y = bignumAdd g x { y with sign := -y.sign } := by
  have hsize : bignumSafeSizeForAdd x { y with sign := -y.sign } = bignumSafeSizeForAdd x y := rfl
  simp only [bignumSub, bignumAdd, hsize]
  by_cases h0x : x.sign = 0 <;> by_cases h0y : y.sign = 0
  · simp [h0x, h0y, bignumSubInt, bignumAddInt, hx.sign_eq_zero.1 h0x, hy.sign_eq_zero.1 h0y]
  · have hsy := (hy.size_pos h0y).ne'
    simp [h0x, h0y, bignumSubInt, bignumAddInt, hx.sign_eq_zero.1 h0x, hsy,
      eq_comm]
  · have hsx := (hx.size_pos h0x).ne'
    simp [h0x, h0y, bignumSubInt, bignumAddInt, hy.sign_eq_zero.1 h0y, hsx]
  · have hsx := (hx.size_pos h0x).ne'
    have hsy := (hy.size_pos h0y).ne'
    by_cases heq : x.sign = y.sign
    · have hne : y.sign ≠ -y.sign := SignType.self_eq_neg_iff.not.2 h0y
      simp only [heq, if_true, if_neg hne, bignumSubInt, hsx, hsy, if_false]
      by_cases hlt : x.size < y.size <;> simp only [hlt, if_true, if_false] <;> rfl
    · rw [if_neg heq, if_neg h0x, if_pos (by rw [sign_eq_neg h0x h0y heq, neg_neg])]
      simp only [bignumAddInt, hsx, hsy, if_false]
      by_cases hlt : x.size < y.size <;> simp only [hlt, if_true, if_false] <;> rfl

theorem bignumSub_spec (hx : x.Normal) (hy : y.Normal) :
    ((bignumSub g x y).sign ≠ 0 → 0 < (bignumSub g x y).size) ∧
      (bignumSub g x y).toInt = x.toInt - y.toInt := by
  have hneg : ({ y with sign := -y.sign } : Bignum).toInt = -y.toInt := by
    rw [toInt, toInt, coe_neg, Int.neg_mul]
    rfl
  have hy' : ({ y with sign := -y.sign } : Bignum).Normal := ⟨by simpa using hy.1, hy.2⟩
  rw [bignumSub_eq g hx hy, Int.sub_eq_add_neg, ← hneg]
  exact bignumAdd_spec g hx hy'

/-! ### Adding a machine word -/

theorem mpAddUl_grow (rp xp : Ptr) {xsize : ℕ} (hx : 0 < xsize) (y : Word)
    (h0 : rp.mem xsize = 0) :
    wval (mpAddUl rp (xsize + 1) (.ptr xp) xsize y).val.1.mem 0 (xsize + 1) =
      wval xp.mem 0 xsize + y.toNat := by
  obtain ⟨c, hc, hc2, hout, hval⟩ := mpAddOne_spec rp (.ptr xp) hx y
  rw [Src.mem_ptr] at hval
  rw [mpAddUl_val, hc2, Nat.add_sub_cancel, wval_top, Nat.zero_add, ← hval]
  rcases Nat.le_one_iff_eq_zero_or_eq_one.1 hc with rfl | rfl
  · rw [if_neg (by simp), hout xsize (by omega), h0]
    rfl
  · rw [if_pos (by simp)]
    simp only [Ptr.wr_mem, Function.update_self]
    rw [wval_congr (p := (mpAddOne rp (.ptr xp) xsize y).val.1.mem)
      fun j _ hj => Function.update_of_ne (by omega) _ _]
    rfl

theorem mpSubUl_grow (rp xp : Ptr) {xsize : ℕ} (hx : 0 < xsize) (y : Word)
    (hle : y.toNat ≤ wval xp.mem 0 xsize) :
    wval (mpSubUl rp (xsize + 1) xp xsize y).val.1.mem 0 (xsize + 1) =
      wval xp.mem 0 xsize - y.toNat := by
  obtain ⟨r₀, c, hr, -, hc, hval⟩ := mpSubUl_spec rp (xsize + 1) xp hx y
  have hlt := wval_lt r₀.mem 0 xsize
  have hc0 : c.toNat = 0 := by
    rcases Nat.le_one_iff_eq_zero_or_eq_one.1 hc with h | h
    · exact h
    · rw [h, Nat.mul_one] at hval
      omega
  rw [hc0, Nat.mul_zero] at hval
  rw [hr, Nat.add_sub_cancel, wval_top, Nat.zero_add]
  simp only [Ptr.wr_mem, Function.update_self]
  rw [wval_congr (p := r₀.mem) fun j _ hj => Function.update_of_ne (by omega) _ _, hc0]
  omega

/-- **A bignum plus a machine word**, if the word is not larger than the bignum where the signs
differ. -/
theorem bignumAddSi_spec (hs : x.sign ≠ 0) (h0 : 0 < x.size) {y : ℤ}
    (hy : -2 ^ 63 < y ∧ y < 2 ^ 63) (hle : sign y = -x.sign → y.natAbs ≤ x.mag) :
    0 < (bignumAddSi g x y).size ∧ (bignumAddSi g x y).toInt = x.toInt + y := by
  rw [bignumAddSi]
  by_cases hz : y = 0
  · rw [if_pos hz, hz, Int.add_zero]
    exact ⟨h0, rfl⟩
  have hyabs : (BitVec.ofInt 64 (if y < 0 then -y else y)).toNat = y.natAbs := by
    rw [BitVec.toNat_ofInt]
    split_ifs <;> omega
  have hysign : (if y < 0 then -1 else 1 : SignType) = sign y := by
    split_ifs with h
    · exact (sign_neg h).symm
    · exact (sign_pos (by omega)).symm
  have hyval : (sign y : ℤ) * (y.natAbs : ℤ) = y := by
    rw [Int.natCast_natAbs]
    exact sign_mul_abs y
  have hsy : sign y ≠ 0 := by rwa [ne_eq, sign_eq_zero_iff]
  dsimp only
  rw [hysign]
  generalize BitVec.ofInt 64 (if y < 0 then -y else y) = w at hyabs ⊢
  split_ifs with heq
  · have hval := mpAddUl_grow ⟨(makeBignum g (x.size + 1)).elements, max (x.size + 1) 1⟩ x.words h0
      w (makeBignum_elements g (Nat.lt_succ_self _))
    refine ⟨Nat.succ_pos _, (congrArg (fun m : ℕ => (x.sign : ℤ) * m) hval).trans ?_⟩
    rw [hyabs, Nat.cast_add, Int.mul_add, words_mem, toInt]
    nth_rewrite 2 [heq]
    rw [hyval]
    rfl
  · have hneg := sign_eq_neg hs hsy heq
    have hval := mpSubUl_grow ⟨(makeBignum g (x.size + 1)).elements, max (x.size + 1) 1⟩ x.words h0
      w (hyabs.trans_le (hle hneg))
    refine ⟨Nat.succ_pos _, (congrArg (fun m : ℕ => (x.sign : ℤ) * m) hval).trans ?_⟩
    change (x.sign : ℤ) * ((x.mag - w.toNat : ℕ) : ℤ) = _
    rw [hneg, coe_neg] at hyval
    rw [hyabs, Nat.cast_sub (hle hneg), toInt]
    linarith

end Sagittarius
