import Sagittarius.Bignum.AddSub
import Sagittarius.Mp.Bits

/-!
# Comparing a sum with a number

`Sg_BignumCmp3U` compares `x + off` with `y`.  Most calls are decided by the sizes and the top
words; the sum is only made where a carry out of the lower words can matter.

* `earlyExit` : the exits before the addition, `earlyExit_eq` : they are right;
* `sgBignumCmp3U_eq` : the comparison is the sign of the difference.
-/

namespace Sagittarius

open Bignum Option

/-- The top word -/
def Bignum.top (b : Bignum) : Word := b.elements (b.size - 1)

/-- What `Sg_BignumCmp3U` returns before it makes the sum -/
def earlyExit (x off y : Bignum) : Option ℤ :=
  if x.size > y.size then some 1
  else if x.size < y.size then
    if off.size < y.size ∧ y.top > 1 then some (-1)
    else if off.size = y.size then
      if off.top > y.top then some 1
      else if off.top < y.top - 1 then some (-1)
      else none
    else none
  else if off.size > y.size then some 1
  else if x.top > y.top then some 1
  else if off.size < x.size then
    if x.top < y.top - 1 then some (-1) else none
  else if (uadd 0 x.top off.top).2 > 0 ∨ (uadd 0 x.top off.top).1 > y.top then some 1
  else if (uadd 0 x.top off.top).1 < y.top - 1 then some (-1)
  else none

/-- The loop that compares the sum, from index `n - 1` downwards; `y` has `ysize` words. -/
def cmpSum (br y : Mem) (ysize : ℕ) : ℕ → ℤ
  | 0 => 0
  | i + 1 =>
    if i ≥ ysize then if br i ≠ 0 then 1 else cmpSum br y ysize i
    else if br i < y i then -1
    else if br i > y i then 1
    else cmpSum br y ysize i

/-- Compares `x + off` with `y`. -/
def sgBignumCmp3U (g : Junk) (x off y : Bignum) : ℤ :=
  match earlyExit x off y with
  | some r => r
  | none =>
    let br := bignumAddInt (makeBignum g (bignumSafeSizeForAdd x off)) x off
    if br.size < y.size then -1 else cmpSum br.elements y.elements y.size br.size

/-! ### The exits -/

theorem Bignum.mag_eq {b : Bignum} (h : 0 < b.size) :
    ∃ low < radix ^ (b.size - 1), b.mag = low + radix ^ (b.size - 1) * b.top.toNat := by
  obtain ⟨k, hk⟩ := Nat.exists_eq_succ_of_ne_zero h.ne'
  refine ⟨wval b.elements 0 (b.size - 1), wval_lt .., ?_⟩
  rw [mag, top, hk, wval_top, Nat.zero_add]
  rfl

theorem Bignum.toNat_top_sub_one {b : Bignum} (h : b.top ≠ 0) :
    (b.top - 1).toNat = b.top.toNat - 1 := by
  have hpos : 0 < b.top.toNat := Nat.pos_of_ne_zero fun h0 => h (BitVec.eq_of_toNat_eq h0)
  bv_omega

variable {x off y : Bignum}

/-- **Every exit is right**, whatever the lower words are. -/
theorem earlyExit_eq (hx : x.Normal) (ho : off.Normal) (hy : y.Normal) (h0y : 0 < y.size) {r : ℤ}
    (h : earlyExit x off y = some r) : r = Int.sign ((x.mag : ℤ) + off.mag - y.mag) := by
  have hone : y.mag < x.mag + off.mag → (1 : ℤ) = Int.sign ((x.mag : ℤ) + off.mag - y.mag) :=
    fun hlt => (Int.sign_eq_one_of_pos (by omega)).symm
  have hneg : x.mag + off.mag < y.mag → (-1 : ℤ) = Int.sign ((x.mag : ℤ) + off.mag - y.mag) :=
    fun hlt => (Int.sign_eq_neg_one_of_neg (by omega)).symm
  -- a number with fewer words than `y` is below the weight of its top word
  have hshort : ∀ {b : Bignum}, b.size < y.size → b.mag < radix ^ (y.size - 1) := fun {b} hb =>
    b.mag_lt.trans_le (Nat.pow_le_pow_right radix_pos (Nat.le_sub_one_of_lt hb))
  have hsame : ∀ {b : Bignum}, b.size = y.size →
      ∃ low < radix ^ (y.size - 1), b.mag = low + radix ^ (y.size - 1) * b.top.toNat :=
    fun {b} hb => hb ▸ mag_eq (hb ▸ h0y)
  obtain ⟨ly, hly, hym⟩ := hsame rfl
  have hsub := toNat_top_sub_one (hy.top_ne_zero h0y)
  have hlong : ∀ {b : Bignum}, b.Normal → y.size < b.size → y.mag < b.mag := fun hb =>
    mag_lt_of_size_lt hb
  have hw := (uadd_spec 0 x.top off.top (Nat.zero_le 1)).2
  have hlt := toNat_lt_radix y.top
  generalize radix ^ (y.size - 1) = R at *
  have hmul : ∀ {a b : ℕ} (k : ℕ), a + k ≤ b → R * a + R * k ≤ R * b := fun {a b} k hab => by
    rw [← Nat.mul_add]
    exact Nat.mul_le_mul_left R hab
  have hzero : (0 : Word).toNat = 0 := rfl
  rw [hzero] at hw
  simp only [earlyExit, gt_iff_lt, BitVec.lt_def, hsub, hzero] at h
  rcases Nat.lt_trichotomy x.size y.size with hs | hs | hs
  · rw [if_neg hs.not_gt, if_pos hs] at h
    have hxm := hshort hs
    split_ifs at h with ho1 ho2 hgt hlt
    · obtain rfl := some.inj h
      have hom := hshort ho1.1
      have := hmul (a := 0) 2 ho1.2
      exact hneg (by omega)
    · obtain rfl := some.inj h
      obtain ⟨lo, -, hom⟩ := hsame ho2
      have := hmul 1 hgt
      exact hone (by omega)
    · obtain rfl := some.inj h
      obtain ⟨lo, hlo, hom⟩ := hsame ho2
      have := hmul (a := off.top.toNat) (b := y.top.toNat) 2 (by omega)
      exact hneg (by omega)
  · obtain ⟨lx, hlx, hxm⟩ := hsame hs
    rw [if_neg hs.not_gt, if_neg hs.not_lt] at h
    split_ifs at h with ho1 hgt ho2 hlt hgt' hlt'
    · obtain rfl := some.inj h
      have := hlong ho ho1
      exact hone (by omega)
    · obtain rfl := some.inj h
      have := hmul 1 hgt
      exact hone (by omega)
    · obtain rfl := some.inj h
      have hom := hshort (hs ▸ ho2)
      have := hmul (a := x.top.toNat) (b := y.top.toNat) 2 (by omega)
      exact hneg (by omega)
    · obtain rfl := some.inj h
      obtain ⟨lo, hlo, hom⟩ := hsame (b := off) (by omega)
      have hsum : y.top.toNat + 1 ≤ x.top.toNat + off.top.toNat := by
        rcases hgt' with hc | hgt'
        · have := Nat.mul_le_mul_left radix hc
          omega
        · omega
      have := hmul 1 hsum
      rw [Nat.mul_add] at this
      exact hone (by omega)
    · obtain rfl := some.inj h
      obtain ⟨lo, hlo, hom⟩ := hsame (b := off) (by omega)
      rw [not_or, Nat.not_lt, Nat.le_zero] at hgt'
      rw [hgt'.1] at hw
      have hsum : x.top.toNat + off.top.toNat + 2 ≤ y.top.toNat := by omega
      have := hmul 2 hsum
      rw [Nat.mul_add] at this
      exact hneg (by omega)
  · rw [if_pos hs] at h
    obtain rfl := some.inj h
    have := hlong hx hs
    exact hone (by omega)

/-! ### The sum -/

theorem cmpSum_eq (g : Junk) (br y : Mem) {ysize n : ℕ} (h : ysize ≤ n) :
    cmpSum br y ysize n = Int.sign ((wval br 0 n : ℤ) - wval y 0 ysize) := by
  rw [← wval_copyWords g y h, ← cmpWords_eq]
  suffices hle : ∀ i ≤ n,
      cmpSum br y ysize i = cmpWords br (copyWords (makeBignum g n).elements y ysize) i from
    hle n le_rfl
  intro i
  induction i with
  | zero => exact fun _ => rfl
  | succ i ih =>
    intro hi
    rw [cmpSum, cmpWords, ih (Nat.le_of_succ_le hi), copyWords]
    by_cases hy : i < ysize
    · rw [if_neg (Nat.not_le.2 hy), if_pos hy]
    · have hlt : ¬ br i < 0 := BitVec.not_lt_zero
      rw [if_pos (Nat.not_lt.1 hy), if_neg hy, makeBignum_elements g hi, if_neg hlt]
      exact if_congr (by bv_omega) rfl rfl

/-- **`Sg_BignumCmp3U` is the sign of `x + off - y`** for positive bignums without leading zero
words. -/
theorem sgBignumCmp3U_eq (g : Junk) (hx : x.Normal) (ho : off.Normal) (hy : y.Normal)
    (hsx : x.sign = 1) (hso : off.sign = 1) (hsy : y.sign = 1) :
    sgBignumCmp3U g x off y = Int.sign (x.toInt + off.toInt - y.toInt) := by
  have hpos : ∀ {b : Bignum}, b.Normal → b.sign = 1 → 0 < b.size := fun hb hs =>
    hb.size_pos (by rw [hs]; decide)
  rw [toInt_of_pos hsx, toInt_of_pos hso, toInt_of_pos hsy, sgBignumCmp3U]
  cases h : earlyExit x off y with
  | some r => exact earlyExit_eq hx ho hy (hpos hy hsy) h
  | none =>
    have h0x := hpos hx hsx
    have h0o := hpos ho hso
    have hsize := h0x.trans_le (bignumSafeSizeForAdd_bounds x off).1
    set br := bignumAddInt (makeBignum g (bignumSafeSizeForAdd x off)) x off with hbr
    have hval := (bignumAddInt_toInt (makeBignum g (bignumSafeSizeForAdd x off)) h0x h0o rfl
      (makeBignum_elements g (Nat.sub_lt hsize Nat.one_pos))).2
    have hsign : br.sign = 1 := by
      rw [hbr, bignumAddInt, if_neg h0x.ne', if_neg h0o.ne']
      exact makeBignum_sign g hsize
    rw [← hbr, toInt_of_pos hsign, makeBignum_sign g hsize, SignType.coe_one, one_mul] at hval
    change (if br.size < y.size then -1 else cmpSum br.elements y.elements y.size br.size) = _
    rw [← hval]
    split_ifs with hlt
    · have := mag_lt_of_size_lt hy hlt
      exact (Int.sign_eq_neg_one_of_neg (by omega)).symm
    · exact cmpSum_eq g _ _ (Nat.not_lt.1 hlt)

/-- `1 + 1` and `3`: the top words leave it open. -/
theorem sgBignumCmp3U_one_one_three :
    sgBignumCmp3U (fun _ _ => 0) ⟨1, 1, fun _ => 1⟩ ⟨1, 1, fun _ => 1⟩ ⟨1, 1, fun _ => 3⟩ =
      Int.sign (toInt ⟨1, 1, fun _ => 1⟩ + toInt ⟨1, 1, fun _ => 1⟩ -
        toInt ⟨1, 1, fun _ => 3⟩) :=
  sgBignumCmp3U_eq _ ⟨by decide, fun _ => by decide⟩ ⟨by decide, fun _ => by decide⟩
    ⟨by decide, fun _ => by decide⟩ rfl rfl rfl

end Sagittarius
