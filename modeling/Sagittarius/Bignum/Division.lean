import Sagittarius.Mp.Bits
import Sagittarius.Mp.Division
import Sagittarius.Bignum.AddSub

/-!
# Division of bignums

The divisions of `bignum.c`: by a bignum (`bignum_gdiv`, on `mp_div_rem`) and by a machine word
(`bignum_sdiv_rec`).  Both truncate, so the remainder has the sign of the dividend.

* `bignumNormalize_spec` : `bignum_normalize` keeps the number and drops leading zero words;
* `bignumGdiv_spec` : the remainder of `bignum_gdiv`;
* `bignumSdivRec_spec` : quotient and remainder by a word;
* `sgBignumCmp_eq` : the comparison of two bignums;
* `sgBignumDivRem_spec`, `sgBignumDivSI_spec` : quotient and remainder as exact integers;
* `sgBignumModulo_spec`, `sgBignumModuloSI_spec` : the remainder alone, of the sign of the dividend
  or of the divisor.
-/

namespace Sagittarius

open Function Int Nat Bignum Integer

/-! ### Comparing -/

/-- Compares the absolute values. -/
def sgBignumAbsCmp (x y : Bignum) : ℤ :=
  if x.size < y.size then -1
  else if x.size > y.size then 1
  else cmpWords x.elements y.elements x.size

/-- Compares, with the signs. -/
def sgBignumCmp (lhs rhs : Bignum) : ℤ :=
  if lhs.sign < rhs.sign then -1
  else if lhs.sign > rhs.sign then 1
  else if lhs.size < rhs.size then if lhs.sign > 0 then -1 else 1
  else if lhs.size > rhs.size then if lhs.sign > 0 then 1 else -1
  else
    let c := cmpWords lhs.elements rhs.elements lhs.size
    if lhs.sign > 0 then c else -c

/-! ### Dividing by a bignum -/

/-- Quotient, remainder and its size. -/
def mpDivRem (g : Junk) (qp : Option Mem) (rp : Option Ptr) (xp : Ptr) (xsize : ℕ) (yp : Ptr)
    (ysize : ℕ) : Option Mem × Ptr × ℕ :=
  mpDivRemKunuth g qp rp xp xsize yp ysize

/-- The quotient and the remainder, where they are asked for. -/
def bignumGdivRem (g : Junk) (dividend divisor : Bignum) (quotient remainder : Option Bignum) :
    Option Bignum × Option Bignum :=
  let r := mpDivRem g (quotient.map elements) (remainder.map words) dividend.words
    dividend.size divisor.words divisor.size
  (quotient.map fun b => { b with elements := r.1.getD b.elements },
    remainder.map fun _ => ⟨dividend.sign, r.2.2, r.2.1.mem⟩)

/-- The remainder, and the quotient if there is a bignum for it. -/
def bignumGdiv (g : Junk) (dividend divisor : Bignum) (quotient : Option Bignum) :
    Bignum × Option Bignum :=
  let u := makeBignum g (dividend.size + 1)
  let r := bignumGdivRem (g.sub 1) dividend divisor quotient (some u)
  (r.2.getD u, r.1)

/-! ### Dividing by a word -/

/-- The loop of `bignum_sdiv_rec` over the words below `n`. A word is read before it is written, so
the loop is the same where dividend and quotient share their words. -/
def sdivLoop (pu : Mem) (divisor : Word) : ℕ → Mem → DWord → Mem × DWord
  | 0, qu, rem => (qu, rem)
  | n + 1, qu, rem =>
    let e := (rem <<< 64) ||| udlong (pu n)
    let q := lowWord (e / udlong divisor)
    let rem := udlong (lowWord (e - udlong q * udlong divisor))
    sdivLoop pu divisor n (update qu n q) rem

/-- The words of the quotient, and the remainder. -/
def bignumSdivRec (qu : Mem) (dividend : Bignum) (divisor : Word) : Mem × Word :=
  let pu := dividend.elements
  if dividend.size = 1 then
    let de := udlong (pu 0)
    let q := lowWord (de / udlong divisor)
    let r := lowWord (de - udlong (q * divisor))
    (update qu 0 q, r)
  else
    let n := dividend.size - 1
    let rem := udlong (pu n)
    let top : Mem × DWord :=
      if rem < udlong divisor then (update qu n 0, rem)
      else
        let q := lowWord (rem / udlong divisor)
        (update qu n q, udlong (lowWord (rem - udlong q * udlong divisor)))
    let (qu, rem) := sdivLoop pu divisor n top.1 top.2
    (qu, lowWord (if nlz divisor > 0 then rem % udlong divisor else rem))

/-! ### Quotients and remainders -/

/-- The bignum zero. -/
def zero (g : Junk) : Bignum := sgMakeBignumFromSI g 0

/-- `bignum_div_rem`, called without buffers: the quotient and the remainder. -/
def bignumDivRem (g : Junk) (a b : Bignum) : Bignum × Bignum :=
  if sgBignumAbsCmp a b < 0 then (zero g, a)
  else
    let q := makeBignum (g.sub 1) (a.size - b.size + 1)
    let r := makeBignum (g.sub 2) (a.size + 1)
    let (q, r) :=
      if b.size = 1 then
        let d := bignumSdivRec q.elements a (b.elements 0)
        ({ q with elements := d.1 },
          { r with sign := a.sign, size := 1, elements := update r.elements 0 d.2 })
      else
        let d := bignumGdivRem (g.sub 3) a b (some q) (some r)
        (d.1.getD q, d.2.getD r)
    (bignumNormalize { q with sign := a.sign * b.sign }, bignumNormalize { r with sign := a.sign })

/-- Quotient and remainder. -/
def sgBignumDivRem (g : Junk) (a b : Bignum) : Integer × Integer :=
  let rr := bignumDivRem g a b
  (sgNormalizeBignum rr.1, sgNormalizeBignum rr.2)

/-- The remainder, or the modulo. -/
def sgBignumModulo (g : Junk) (a b : Bignum) (remp : Bool) : Integer :=
  let r := sgNormalizeBignum (bignumGdiv g a b none).1
  match r with
  | .bignum r' => if !remp ∧ a.sign * b.sign < 0 then sgBignumAdd (g.sub 1) b r' else r
  | .fixnum n =>
    if !remp ∧ n ≠ 0 ∧ a.sign * b.sign < 0 then sgBignumAddSI (g.sub 1) b n.toInt else r

/-- `Sg_MakeIntegerFromS64`, which is `Sg_MakeInteger` where a `long` has 64 bits. -/
def sgMakeIntegerFromS64 (g : Junk) (x : ℤ) : Integer := sgMakeInteger g x

/-- The loop of `Sg_BignumModuloSI`; `d` and the remainder are a `long`. -/
def moduloSILoop (m : Mem) (d : ℤ) : ℕ → ℤ → ℤ
  | 0, r => r
  | n + 1, r => moduloSILoop m d n ((r * 2 ^ 64 + (m n).toNat) % d)

/-- `Sg_BignumModuloSI`; `b` is a fixnum's `long`. -/
def sgBignumModuloSI (g : Junk) (a : Bignum) (b : ℤ) (remp : Bool) : Integer :=
  let d := if b < 0 then -b else b
  let sign : ℤ := a.sign
  let r := moduloSILoop a.elements d a.size 0 * sign
  if !remp ∧ r ≠ 0 ∧ sign * b < 0 then sgMakeIntegerFromS64 g (b + r) else sgMakeInteger g r

/-- The quotient and the remainder; `b` is a `long`. -/
def sgBignumDivSI (g : Junk) (a : Bignum) (b : ℤ) : Integer × ℤ :=
  let dd := BitVec.ofInt 64 (if b < 0 then -b else b)
  let dSign : SignType := if b < 0 then -1 else 1
  let q := sgBignumCopy g a
  let (qu, rr) := bignumSdivRec q.elements q dd
  (sgNormalizeBignum { q with sign := a.sign * dSign, elements := qu },
    if a.sign < 0 then -rr.toInt else rr.toInt)

/-! ### Comparisons are signs of differences -/

variable {b : Bignum}

theorem Bignum.mag_pos (hb : b.Normal) (hs : b.sign ≠ 0) : 0 < b.mag :=
  (radix_pow_pos _).trans_le (le_mag (hb.size_pos hs) (hb.top_ne_zero (hb.size_pos hs)))

theorem Bignum.mag_of_sign_zero (hb : b.Normal) (hs : b.sign = 0) : b.mag = 0 := by
  rw [mag, hb.sign_eq_zero.1 hs, wval_zero]

theorem Bignum.signType_toInt (h : b.Normal) : SignType.sign b.toInt = b.sign := by
  by_cases hs : b.sign = 0
  · rw [toInt_of_zero hs, hs]
    rfl
  · have hpos : (0 : ℤ) < b.mag := by exact_mod_cast mag_pos h hs
    rw [toInt, sign_mul (α := ℤ), sign_pos hpos, mul_one]
    rcases b.sign with _ | _ | _ <;> rfl

theorem Bignum.sign_toInt_eq (h : b.Normal) : b.toInt.sign = b.sign := by
  rw [sign_eq_sign, signType_toInt h]

theorem sgBignumAbsCmp_eq {x y : Bignum} (hx : x.Normal) (hy : y.Normal) :
    sgBignumAbsCmp x y = sign ((x.mag : ℤ) - y.mag) := by
  rw [sgBignumAbsCmp]
  split_ifs with h h'
  · have := mag_lt_of_size_lt hy h
    rw [eq_comm, sign_eq_neg_one_iff_neg]
    omega
  · have := mag_lt_of_size_lt hx h'
    rw [eq_comm, sign_eq_one_iff_pos]
    omega
  · rw [cmpWords_eq, mag, mag, show y.size = x.size by omega]

/-- **`Sg_BignumCmp` compares the numbers.** -/
theorem sgBignumCmp_eq {x y : Bignum} (hx : x.Normal) (hy : y.Normal) :
    sgBignumCmp x y = sign (x.toInt - y.toInt) := by
  have habs := sgBignumAbsCmp_eq hx hy
  have hsame : x.sign = y.sign → sgBignumCmp x y =
      if x.sign > 0 then sgBignumAbsCmp x y else -sgBignumAbsCmp x y := by
    intro h
    rw [sgBignumCmp, sgBignumAbsCmp, if_neg (by rw [h]; exact lt_irrefl _),
      if_neg (by rw [h]; exact lt_irrefl _)]
    split_ifs <;> rfl
  by_cases hs : x.sign = y.sign
  · rw [hsame hs, habs]
    by_cases h0 : y.sign = 0
    · rw [h0] at hs
      rw [toInt_of_zero hs, toInt_of_zero h0, mag_of_sign_zero hx hs,
        mag_of_sign_zero hy h0]
      simp
    · rcases sign_cases h0 with h1 | h1
      · rw [h1] at hs
        rw [if_neg (by rw [hs]; decide), toInt_of_neg hs, toInt_of_neg h1,
          ← sign_neg]
        congr 1
        ring
      · rw [h1] at hs
        rw [if_pos (by rw [hs]; decide), toInt_of_pos hs, toInt_of_pos h1]
  · -- different signs decide
    have hlt : ∀ {a b : Bignum}, a.Normal → b.Normal → a.sign < b.sign → a.toInt < b.toInt := by
      intro a b ha hb hab
      rw [← signType_toInt ha, ← signType_toInt hb] at hab
      exact SignType.sign.monotone.reflect_lt hab
    rw [sgBignumCmp]
    rcases lt_or_gt_of_ne hs with h | h
    · rw [if_pos h, eq_comm, sign_eq_neg_one_iff_neg]
      have := hlt hx hy h
      omega
    · rw [if_neg (not_lt_of_gt h), if_pos h, eq_comm, sign_eq_one_iff_pos]
      have := hlt hy hx h
      omega

/-- `-(2 ^ 64 + 1)` and `-(2 ^ 64 + 2)` are different in their low words. -/
theorem sgBignumCmp_two_words :
    sgBignumCmp ⟨-1, 2, fun _ => 1⟩ ⟨-1, 2, fun i => if i = 0 then 2 else 1⟩ = 1 :=
  (sgBignumCmp_eq ⟨by decide, by decide⟩ ⟨by decide, by decide⟩).trans (by decide)

/-! ### Normalising without conversion -/

/-- **`bignum_normalize`** keeps the number, of any bignum that has a sign exactly if it is not
zero or has words to spare. -/
theorem bignumNormalize_spec (h0 : b.sign = 0 → b.mag = 0) (h1 : b.sign ≠ 0 → 0 < b.size) :
    (bignumNormalize b).Normal ∧ (bignumNormalize b).mag = b.mag ∧
      (bignumNormalize b).toInt = b.toInt ∧ (bignumNormalize b).elements = b.elements ∧
      (bignumNormalize b).size ≤ b.size := by
  obtain ⟨hle, hpos, hval, htop⟩ := normalizeSize_spec b.elements b.size
  have hdef : bignumNormalize b =
      if normalizeSize b.elements b.size = 1 ∧ b.elements 0 = 0 then { b with sign := 0, size := 0 }
      else { b with size := normalizeSize b.elements b.size } := by
    rw [bignumNormalize, bignumNormalizeRec]
    simp only [Bool.false_eq_true, and_false, if_false]
    split_ifs <;> first | rfl | omega
  rw [hdef]
  generalize normalizeSize b.elements b.size = s at *
  split_ifs with hz
  · have hmag : b.mag = 0 := by rw [mag, ← hval, hz.1, wval_one, hz.2]; rfl
    refine ⟨⟨iff_of_true rfl rfl, fun h => absurd h (Nat.lt_irrefl 0)⟩, hmag.symm, ?_, rfl,
      Nat.zero_le _⟩
    rw [Bignum.toInt, Bignum.toInt, hmag]
    simp
  · have hmag : ({ b with size := s } : Bignum).mag = b.mag := hval
    have htop' : 0 < s → b.elements (s - 1) ≠ 0 := fun hs => by
      rcases Nat.lt_or_ge s 2 with h | h
      · obtain rfl : s = 1 := by omega
        exact fun hc => hz ⟨rfl, hc⟩
      · exact htop h
    refine ⟨⟨⟨fun hs => ?_, fun hs => ?_⟩, htop'⟩, hmag, ?_, rfl, hle⟩
    · by_contra hs0
      have h := le_mag (Nat.pos_of_ne_zero hs0)
        (htop' (Nat.pos_of_ne_zero hs0))
      rw [hmag, h0 hs] at h
      exact absurd h (Nat.not_le.2 (radix_pow_pos _))
    · by_contra hs0
      have := hpos (h1 hs0)
      change s = 0 at hs
      omega
    · rw [Bignum.toInt, Bignum.toInt, hmag]

theorem bignumNormalize_of_pos (hs : b.sign ≠ 0) (h : 0 < b.size) :
    (bignumNormalize b).Normal ∧ (bignumNormalize b).toInt = b.toInt := by
  obtain ⟨h1, -, h2, -⟩ := bignumNormalize_spec (fun hc => absurd hc hs) fun _ => h
  exact ⟨h1, h2⟩

/-! ### Dividing by a bignum -/

theorem tdiv_sign_mul {s t : SignType} (ht : t ≠ 0) (a b : ℕ) :
    ((s : ℤ) * a).tdiv (t * b) = ((s * t : SignType) : ℤ) * (a / b : ℕ) ∧
      ((s : ℤ) * a).tmod (t * b) = s * (a % b : ℕ) := by
  rcases s with _ | _ | _ <;> rcases t with _ | _ | _ <;>
    first
    | exact absurd rfl ht
    | simp [Int.tdiv_neg, Int.neg_tdiv, tmod_neg, neg_tmod,
        tmod_eq_emod_of_nonneg (natCast_nonneg a)]

theorem bignumGdiv_spec (g : Junk) (a : Bignum) (hb : 0 < b.size)
    (htop : b.elements (b.size - 1) ≠ 0) (q : Option Bignum) :
    (bignumGdiv g a b q).1.sign = a.sign ∧ (bignumGdiv g a b q).1.size = a.size + 1 ∧
      (bignumGdiv g a b q).1.mag = a.mag % b.mag := by
  have hu : (makeBignum g (a.size + 1)).elements a.size = 0 :=
    makeBignum_elements g (lt_succ_self _)
  obtain ⟨hsize, hval⟩ := mpDivRemKunuth_remainder (g.sub 1) (q.map elements)
    (makeBignum g (a.size + 1)).words a.words a.size b.words hb htop hu
  exact ⟨rfl, hsize, hval⟩

variable {a : Bignum}

theorem bignumGdiv_rem (g : Junk) (ha : a.Normal) (hb : b.Normal) (hs : b.sign ≠ 0)
    (q : Option Bignum) : let r := (bignumGdiv g a b q).1
    (r.sign = 0 → r.mag = 0) ∧ 0 < r.size ∧ r.toInt = a.toInt.tmod b.toInt := by
  obtain ⟨hsign, hsize, hmag⟩ := bignumGdiv_spec g a (hb.size_pos hs)
    (hb.top_ne_zero (hb.size_pos hs)) q
  refine ⟨fun h0 => ?_, by omega, ?_⟩
  · rw [hsign] at h0
    rw [hmag, mag_of_sign_zero ha h0, zero_mod]
  · rw [Bignum.toInt, hsign, hmag, Bignum.toInt, Bignum.toInt, (tdiv_sign_mul hs _ _).2]

/-! ### Dividing by a word -/

theorem sdiv_step {rem : DWord} {divisor : Word} (w : Word) (h : rem.toNat < divisor.toNat) :
    let e := (rem <<< 64) ||| udlong w
    let q := lowWord (e / udlong divisor)
    let rem' := udlong (lowWord (e - udlong q * udlong divisor))
    rem'.toNat < divisor.toNat ∧
      w.toNat + radix * rem.toNat = q.toNat * divisor.toNat + rem'.toNat := by
  intro e q rem'
  have hw := toNat_lt_radix w
  have hd := toNat_lt_radix divisor
  have he : e.toNat = w.toNat + radix * rem.toNat := by
    have hshift : (rem <<< 64).toNat = 2 ^ 64 * rem.toNat := by
      rw [BitVec.toNat_shiftLeft, Nat.shiftLeft_eq, mod_eq_of_lt, Nat.mul_comm]
      omega
    change ((rem <<< 64) ||| udlong w).toNat = _
    rw [BitVec.toNat_or, hshift, toNat_udlong, ← two_pow_add_eq_or_of_lt w.isLt, radix,
      Nat.add_comm]
  have hdpos : 0 < divisor.toNat := by omega
  have hlt : e.toNat < radix * divisor.toNat := by
    have := Nat.mul_le_mul_left radix h
    rw [mul_succ] at this
    omega
  have hq : q.toNat = e.toNat / divisor.toNat := by
    change (lowWord (e / udlong divisor)).toNat = _
    rw [toNat_lowWord, BitVec.toNat_udiv, toNat_udlong,
      mod_eq_of_lt ((Nat.div_lt_iff_lt_mul hdpos).2 hlt)]
  have hqd : (udlong q * udlong divisor).toNat = e.toNat / divisor.toNat * divisor.toNat := by
    rw [BitVec.toNat_mul, toNat_udlong, toNat_udlong, hq, mod_eq_of_lt]
    exact (div_mul_le_self _ _).trans_lt e.isLt
  have hmod := div_add_mod e.toNat divisor.toNat
  rw [Nat.mul_comm] at hmod
  have hrem : rem'.toNat = e.toNat % divisor.toNat := by
    change (udlong (lowWord (e - udlong q * udlong divisor))).toNat = _
    have hlt' := mod_lt e.toNat hdpos
    rw [toNat_udlong, toNat_lowWord,
      BitVec.toNat_sub_of_le (by rw [BitVec.le_def, hqd]; omega), hqd,
      mod_eq_of_lt (by omega)]
    omega
  rw [← he, hq, hrem, hmod]
  exact ⟨mod_lt _ hdpos, rfl⟩

theorem sdivLoop_spec (pu : Mem) (divisor : Word) (n : ℕ) (qu : Mem) {rem : DWord}
    (h : rem.toNat < divisor.toNat) :
    let r := sdivLoop pu divisor n qu rem
    r.2.toNat < divisor.toNat ∧ SameOutside qu r.1 0 n ∧
      wval pu 0 n + radix ^ n * rem.toNat = wval r.1 0 n * divisor.toNat + r.2.toNat := by
  induction n generalizing qu rem with
  | zero => exact ⟨h, .refl _ _ _, by simp [sdivLoop]⟩
  | succ n ih =>
    obtain ⟨hlt, hstep⟩ := sdiv_step (pu n) h
    set q := lowWord (((rem <<< 64) ||| udlong (pu n)) / udlong divisor)
    set rem' := udlong (lowWord (((rem <<< 64) ||| udlong (pu n)) - udlong q * udlong divisor))
    obtain ⟨h1, hout, hval⟩ := ih (update qu n q) hlt
    have hr : sdivLoop pu divisor (n + 1) qu rem =
        sdivLoop pu divisor n (update qu n q) rem' := rfl
    rw [hr]
    generalize sdivLoop pu divisor n (update qu n q) rem' = r at *
    refine ⟨h1, fun j hj => ?_, ?_⟩
    · rw [hout j (by omega), update_of_ne (by omega)]
    · have htop : r.1 n = q := by
        rw [hout n (by omega), update_self]
      rw [wval_top, wval_top, Nat.zero_add, htop]
      calc wval pu 0 n + radix ^ n * (pu n).toNat + radix ^ (n + 1) * rem.toNat =
            wval pu 0 n + radix ^ n * ((pu n).toNat + radix * rem.toNat) := by ring
        _ = wval pu 0 n + radix ^ n * rem'.toNat + radix ^ n * (q.toNat * divisor.toNat) := by
          rw [hstep]
          ring
        _ = (wval r.1 0 n + radix ^ n * q.toNat) * divisor.toNat + r.2.toNat := by
          rw [hval]
          ring

theorem bignumSdivRec_eq (qu : Mem) (ha : 0 < a.size) {divisor : Word} (hd : 0 < divisor.toNat) :
    bignumSdivRec qu a divisor =
      ((sdivLoop a.elements divisor a.size qu 0).1,
        lowWord (sdivLoop a.elements divisor a.size qu 0).2) := by
  obtain ⟨n, hn⟩ : ∃ n, a.size = n + 1 := ⟨a.size - 1, by omega⟩
  have hrem : (0 : DWord).toNat < divisor.toNat := hd
  have hlast := (sdivLoop_spec a.elements divisor a.size qu hrem).1
  obtain ⟨hlt, hstep⟩ := sdiv_step (a.elements n) hrem
  have hzero : ((0 : DWord) <<< 64) ||| udlong (a.elements n) = udlong (a.elements n) := by simp
  rw [show (0 : DWord).toNat = 0 from rfl, Nat.mul_zero, Nat.add_zero] at hstep
  rw [hn, sdivLoop] at hlast ⊢
  simp only [hzero] at hlt hstep hlast ⊢
  rw [bignumSdivRec, hn, Nat.add_sub_cancel]
  dsimp only
  set w := a.elements n
  set q := lowWord (udlong w / udlong divisor)
  set rem := udlong (lowWord (udlong w - udlong q * udlong divisor))
  obtain _ | n := n
  · have hprod : udlong (q * divisor) = udlong q * udlong divisor := by
      have hle : q.toNat * divisor.toNat < 2 ^ 64 := by
        have := w.isLt
        omega
      refine BitVec.eq_of_toNat_eq ?_
      rw [toNat_udlong, BitVec.toNat_mul, BitVec.toNat_mul, toNat_udlong, toNat_udlong,
        mod_eq_of_lt hle, mod_eq_of_lt (hle.trans (by decide))]
    rw [if_pos rfl, hprod]
    refine Prod.ext rfl (BitVec.eq_of_toNat_eq ?_)
    change _ = (lowWord (udlong (lowWord (udlong w - udlong q * udlong divisor)))).toNat
    rw [toNat_lowWord (udlong _), toNat_udlong, mod_eq_of_lt (toNat_lt_radix _)]
  · have htop : (if udlong w < udlong divisor then (update qu (n + 1) 0, udlong w)
        else (update qu (n + 1) q, rem)) = (update qu (n + 1) q, rem) := by
      split_ifs with hc
      · rw [BitVec.lt_def, toNat_udlong, toNat_udlong] at hc
        have hq : q = 0 := BitVec.eq_of_toNat_eq (Nat.eq_zero_of_not_pos fun hpos => by
          have := Nat.le_mul_of_pos_left divisor.toNat hpos
          omega)
        rw [hq] at hstep ⊢
        rw [show udlong w = rem from BitVec.eq_of_toNat_eq (by simpa using hstep)]
      · rfl
    simp only [htop, Nat.add_eq_right, add_one_ne_zero, if_false]
    generalize sdivLoop a.elements divisor (n + 1) _ _ = r at hlast ⊢
    split_ifs
    · rw [show r.2 % udlong divisor = r.2 from BitVec.eq_of_toNat_eq
        (by rw [BitVec.toNat_umod, toNat_udlong, mod_eq_of_lt hlast])]
    · rfl

theorem bignumSdivRec_spec (qu : Mem) (ha : 0 < a.size) {divisor : Word} (hd : divisor ≠ 0) :
    let r := bignumSdivRec qu a divisor
    r.2.toNat = a.mag % divisor.toNat ∧ SameOutside qu r.1 0 a.size ∧
      wval r.1 0 a.size = a.mag / divisor.toNat := by
  have hdpos : (0 : DWord).toNat < divisor.toNat :=
    Nat.pos_of_ne_zero fun h => hd (BitVec.eq_of_toNat_eq h)
  obtain ⟨hlt, hout, hval⟩ := sdivLoop_spec a.elements divisor a.size qu hdpos
  rw [bignumSdivRec_eq qu ha hdpos]
  generalize sdivLoop a.elements divisor a.size qu 0 = r at *
  rw [show (0 : DWord).toNat = 0 from rfl, Nat.mul_zero, Nat.add_zero, ← mag] at hval
  refine ⟨?_, hout, ?_⟩
  · rw [toNat_lowWord, mod_eq_of_lt (hlt.trans (toNat_lt_radix divisor)), hval, Nat.add_comm,
      add_mul_mod_self_right, mod_eq_of_lt hlt]
  · rw [hval, Nat.add_comm, add_mul_div_right _ _ hdpos, div_eq_of_lt hlt, Nat.zero_add]

/-! ### Quotients and remainders -/

theorem zero_spec (g : Junk) : (zero g).Normal ∧ (zero g).toInt = 0 :=
  ⟨sgMakeBignumFromSI_normal g (by decide), sgMakeBignumFromSI_toInt g (by decide)⟩

section

variable (g : Junk) (ha : a.Normal) (hb : b.Normal) (hs : b.sign ≠ 0)

include ha hb hs

theorem bignumDivRem_parts (hle : b.mag ≤ a.mag) :
    ∃ q r : Bignum, bignumDivRem g a b = (bignumNormalize q, bignumNormalize r) ∧
      q.sign = a.sign * b.sign ∧ r.sign = a.sign ∧ 0 < q.size ∧ 0 < r.size ∧
      q.mag = a.mag / b.mag ∧ r.mag = a.mag % b.mag := by
  have hbpos := hb.size_pos hs
  have htop := hb.top_ne_zero hbpos
  have hcmp : ¬ sgBignumAbsCmp a b < 0 := by
    rw [sgBignumAbsCmp_eq ha hb, sign_neg_iff]
    omega
  have hsize : b.size ≤ a.size := by
    by_contra hc
    have := mag_lt_of_size_lt hb (not_le.1 hc)
    omega
  rw [bignumDivRem, if_neg hcmp]
  by_cases h1 : b.size = 1
  · have hb0 : b.elements 0 ≠ 0 := by rwa [h1] at htop
    have hbmag : b.mag = (b.elements 0).toNat := by rw [mag, h1, wval_one]
    obtain ⟨hrem, -, hquo⟩ := bignumSdivRec_spec
      (makeBignum (g.sub 1) (a.size - b.size + 1)).elements (show 0 < a.size by omega) hb0
    simp only [if_pos h1]
    refine ⟨_, _, rfl, rfl, rfl, succ_pos _, Nat.one_pos, ?_, ?_⟩
    · change wval _ 0 (a.size - b.size + 1) = _
      rw [show a.size - b.size + 1 = a.size by omega, hbmag, ← hquo,
        show a.size - b.size + 1 = a.size by omega]
    · change wval (update _ 0 _) 0 1 = _
      rw [wval_one, update_self, hrem, hbmag]
  · have hu : (makeBignum (g.sub 2) (a.size + 1)).elements a.size = 0 :=
      makeBignum_elements _ (lt_succ_self _)
    set q := makeBignum (g.sub 1) (a.size - b.size + 1)
    set r := makeBignum (g.sub 2) (a.size + 1)
    obtain ⟨hsize', hval⟩ := mpDivRemKunuth_remainder (g.sub 3) (some q.elements) r.words a.words
      a.size b.words hbpos htop hu
    obtain ⟨m, hm, hquo⟩ := mpDivRemKunuth_quotient (g.sub 3) q.elements r.words a.words a.size
      b.words hbpos htop (show a.size + 1 - b.size ≤ a.size - b.size + 1 by omega)
      (fun i hi => makeBignum_elements _ hi) hu
    simp only [if_neg h1]
    refine ⟨_, _, rfl, rfl, rfl, succ_pos _, ?_, ?_, hval⟩
    · exact (succ_pos a.size).trans_eq hsize'.symm
    · change wval (Option.getD (mpDivRemKunuth (g.sub 3) (some q.elements) (some r.words) a.words
        a.size b.words b.size).1 q.elements) 0 (a.size - b.size + 1) = _
      rw [hm]
      exact hquo

/-- **Truncated division of bignums.** -/
theorem bignumDivRem_spec :
    (bignumDivRem g a b).1.Normal ∧ (bignumDivRem g a b).2.Normal ∧
      (bignumDivRem g a b).1.toInt = a.toInt.tdiv b.toInt ∧
      (bignumDivRem g a b).2.toInt = a.toInt.tmod b.toInt := by
  obtain ⟨hdiv, hmod⟩ := tdiv_sign_mul hs a.mag b.mag
  change a.toInt.tdiv b.toInt = _ at hdiv
  change a.toInt.tmod b.toInt = _ at hmod
  rcases Nat.lt_or_ge a.mag b.mag with hlt | hge
  · have hcmp : sgBignumAbsCmp a b < 0 := by
      rw [sgBignumAbsCmp_eq ha hb, sign_neg_iff]
      omega
    obtain ⟨hz, hz0⟩ := zero_spec g
    rw [bignumDivRem, if_pos hcmp, hdiv, hmod, div_eq_of_lt hlt, mod_eq_of_lt hlt]
    exact ⟨hz, ha, by rw [hz0]; simp, rfl⟩
  · obtain ⟨q, r, heq, hqs, hrs, hq0, hr0, hqm, hrm⟩ := bignumDivRem_parts g ha hb hs hge
    have hsa : a.sign ≠ 0 := fun h => by
      have := mag_of_sign_zero ha h
      have := Bignum.mag_pos hb hs
      omega
    obtain ⟨h1, h2⟩ := bignumNormalize_of_pos
      (by rw [hqs]; exact mul_ne_zero hsa hs) hq0
    obtain ⟨h3, h4⟩ := bignumNormalize_of_pos (by rw [hrs]; exact hsa) hr0
    rw [heq]
    refine ⟨h1, h3, ?_, ?_⟩
    · rw [h2, hdiv, Bignum.toInt, hqs, hqm]
    · rw [h4, hmod, Bignum.toInt, hrs, hrm]

/-- **Quotient and remainder of bignums as exact integers.** -/
theorem sgBignumDivRem_spec :
    (sgBignumDivRem g a b).1.Represents (a.toInt.tdiv b.toInt) ∧
      (sgBignumDivRem g a b).2.Represents (a.toInt.tmod b.toInt) := by
  obtain ⟨hq, hr, hdiv, hmod⟩ := bignumDivRem_spec g ha hb hs
  rw [← hdiv, ← hmod]
  exact ⟨sgNormalizeBignum_spec hq.size_pos, sgNormalizeBignum_spec hr.size_pos⟩

end

theorem modulo_eq_ite_tmod (a b : ℤ) (remp : Bool) :
    (if remp then a.tmod b else a.fmod b) =
      if !remp ∧ a.tmod b ≠ 0 ∧ a.sign * b.sign < 0 then b + a.tmod b else a.tmod b := by
  cases remp with
  | true => simp
  | false =>
    have hdvd := dvd_iff_tmod_eq_zero (a := b) (b := a)
    simp only [Bool.false_eq_true, if_false, Bool.not_false, true_and, fmod_eq_tmod]
    by_cases h : a.tmod b = 0
    · rw [if_pos (hdvd.2 h), if_neg fun hc => hc.1 h, Int.add_zero]
    · have ha : a ≠ 0 := fun h0 => h (by rw [h0, zero_tmod])
      have hsign : a.sign * b.sign < 0 ↔ 0 < a ∧ b < 0 ∨ a < 0 ∧ 0 < b := by
        rw [← sign_mul, sign_neg_iff, mul_neg_iff]
      simp only [hdvd, h, hsign, ne_eq, not_false_eq_true, true_and, if_false]
      split_ifs <;> omega

theorem Fixnum.toInt_ne_zero {n : Fixnum} : n.toInt ≠ 0 ↔ n ≠ 0 := by
  rw [← BitVec.toInt_zero, ne_eq, BitVec.toInt_inj]
  rfl

theorem sign_mul_neg_iff (s t : SignType) : (s : ℤ) * (t : ℤ) < 0 ↔ s * t < 0 := by
  rcases s with _ | _ | _ <;> rcases t with _ | _ | _ <;> decide

theorem sgBignumModulo_spec (g : Junk) (ha : a.Normal) (hb : b.Normal) (hs : b.sign ≠ 0)
    (remp : Bool) : (sgBignumModulo g a b remp).Represents
      (if remp then a.toInt.tmod b.toInt else a.toInt.fmod b.toInt) := by
  have hbpos := mag_pos hb hs
  have hb0 : b.toInt ≠ 0 := fun h => by
    have := natAbs_toInt hs
    omega
  have hlt : (a.toInt.tmod b.toInt).natAbs < b.mag := by
    rw [natAbs_tmod, natAbs_toInt hs]
    exact mod_lt _ hbpos
  obtain ⟨-, hsize, hval⟩ := bignumGdiv_rem g ha hb hs none
  obtain ⟨hcan, hrval⟩ := sgNormalizeBignum_represents ⟨fun _ => hsize, hval⟩
  rw [modulo_eq_ite_tmod, sign_toInt_eq ha, sign_toInt_eq hb, ← hrval, sgBignumModulo]
  simp only [sign_mul_neg_iff]
  generalize sgNormalizeBignum (bignumGdiv g a b none).1 = r at *
  cases r with
  | fixnum n =>
    have hn0 : n ≠ 0 ↔ (fixnum n).toInt ≠ 0 := Fixnum.toInt_ne_zero.symm
    simp only [hn0]
    split_ifs
    · have hn := (fixnumRange_iff _).1 (Fixnum.range n)
      obtain ⟨hsize', hsum⟩ := bignumAddSi_spec (g.sub 1) hs (hb.size_pos hs) (y := n.toInt)
        (by omega) fun _ => by
          rw [← hrval] at hlt
          exact hlt.le
      exact sgNormalizeBignum_represents ⟨fun _ => hsize', hsum⟩
    · exact ⟨hcan, rfl⟩
  | bignum r =>
    have hr0 : (bignum r).toInt ≠ 0 := fun h => by
      have := hcan.2.2.2
      rw [toInt_bignum] at h
      rw [h] at this
      exact this (by decide)
    simp only [hr0, ne_eq, not_false_eq_true, true_and]
    split_ifs
    · exact sgNormalizeBignum_represents (bignumAdd_spec (g.sub 1) hb hcan.normal)
    · exact ⟨hcan, rfl⟩

theorem moduloSILoop_spec (m : Mem) {d : ℤ} (hd : 0 < d) (n : ℕ) {r : ℤ} (hr : 0 ≤ r ∧ r < d) :
    moduloSILoop m d n r = (r * (radix : ℤ) ^ n + wval m 0 n) % d := by
  induction n generalizing r with
  | zero => simp [moduloSILoop, emod_eq_of_lt hr.1 hr.2]
  | succ n ih =>
    rw [moduloSILoop, ih ⟨emod_nonneg _ hd.ne', emod_lt_of_pos _ hd⟩, wval_top, Nat.zero_add]
    have hradix : (radix : ℤ) = 2 ^ 64 := rfl
    rw [add_emod, mul_emod, emod_emod, ← mul_emod, ← add_emod]
    push_cast
    rw [hradix]
    congr 1
    ring

theorem moduloSILoop_tmod (a : Bignum) {b : ℤ} (hb0 : b ≠ 0) :
    moduloSILoop a.elements (if b < 0 then -b else b) a.size 0 * (a.sign : ℤ) =
      a.toInt.tmod b := by
  have hd : (if b < 0 then -b else b) = b.natAbs := by
    split_ifs <;> omega
  have hpos : 0 < (b.natAbs : ℤ) := by omega
  have hmod := (tdiv_sign_mul (s := a.sign) (t := 1) (by decide) a.mag b.natAbs).2
  rw [SignType.coe_one, one_mul] at hmod
  have habs : a.toInt.tmod b = a.toInt.tmod b.natAbs := by
    rcases natAbs_eq b with h | h
    · rw [← h]
    · conv_lhs => rw [h]
      rw [tmod_neg]
  rw [hd, moduloSILoop_spec a.elements hpos a.size ⟨le_rfl, hpos⟩, zero_mul, zero_add,
    Int.mul_comm, habs, Bignum.toInt, hmod]
  rfl

theorem tmod_bounds {a b : ℤ} (hb0 : b ≠ 0) (hb : -2 ^ 61 ≤ b ∧ b < 2 ^ 61) :
    -2 ^ 61 < a.tmod b ∧ a.tmod b < 2 ^ 61 := by
  have h1 := natAbs_tmod a b
  have h2 := mod_lt a.natAbs (natAbs_pos.2 hb0)
  omega

theorem sgBignumModuloSI_spec (g : Junk) (ha : a.Normal) {b : ℤ} (hb0 : b ≠ 0)
    (hb : -2 ^ 61 ≤ b ∧ b < 2 ^ 61) (remp : Bool) : (sgBignumModuloSI g a b remp).Represents
      (if remp then a.toInt.tmod b else a.toInt.fmod b) := by
  have hbound := tmod_bounds (a := a.toInt) hb0 hb
  have hsign : (a.sign : ℤ) * b < 0 ↔ a.toInt.sign * b.sign < 0 := by
    have hcoe : ∀ s : SignType, (s : ℤ).sign = s := by decide
    rw [sign_toInt_eq ha, ← sign_neg_iff, sign_mul, hcoe]
  rw [sgBignumModuloSI, modulo_eq_ite_tmod]
  simp only [moduloSILoop_tmod a hb0, hsign]
  split_ifs
  · exact sgMakeInteger_spec g (by omega)
  · exact sgMakeInteger_spec g (by omega)

theorem sgBignumDivSI_spec (g : Junk) (hs : a.sign ≠ 0) (ha : 0 < a.size) {b : ℤ} (hb0 : b ≠ 0)
    (hb : -2 ^ 63 ≤ b ∧ b < 2 ^ 63) :
    (sgBignumDivSI g a b).1.Represents (a.toInt.tdiv b) ∧
      (sgBignumDivSI g a b).2 = a.toInt.tmod b := by
  have hbs : b = ((if b < 0 then -1 else 1 : SignType) : ℤ) * b.natAbs := by
    split_ifs
    · rw [show ((-1 : SignType) : ℤ) = -1 from rfl]
      omega
    · rw [show ((1 : SignType) : ℤ) = 1 from rfl]
      omega
  have hts : (if b < 0 then -1 else 1 : SignType) ≠ 0 := by split_ifs <;> decide
  have hdd : (BitVec.ofInt 64 (if b < 0 then -b else b)).toNat = b.natAbs := by
    rw [BitVec.toNat_ofInt]
    split_ifs <;> omega
  have hne : BitVec.ofInt 64 (if b < 0 then -b else b) ≠ 0 := fun h => by
    rw [h] at hdd
    exact hb0 (natAbs_eq_zero.1 hdd.symm)
  obtain ⟨hrem, -, hquo⟩ := bignumSdivRec_spec (sgBignumCopy g a).elements
    (a := sgBignumCopy g a) ha hne
  set d := bignumSdivRec (sgBignumCopy g a).elements (sgBignumCopy g a)
    (BitVec.ofInt 64 (if b < 0 then -b else b))
  rw [hdd, sgBignumCopy_mag] at hrem hquo
  obtain ⟨hdiv, hmod⟩ := tdiv_sign_mul hts a.mag b.natAbs
  rw [← hbs] at hdiv hmod
  change a.toInt.tdiv b = _ at hdiv
  change a.toInt.tmod b = _ at hmod
  rw [hdiv, hmod]
  constructor
  · rw [← hquo]
    exact sgNormalizeBignum_spec (b := ⟨a.sign * (if b < 0 then -1 else 1), a.size, d.1⟩)
      fun _ => ha
  · change (if a.sign < 0 then -d.2.toInt else d.2.toInt) = _
    have hlt := mod_lt a.mag (natAbs_pos.2 hb0)
    rw [BitVec.toInt_eq_toNat_of_lt (by rw [hrem]; omega), hrem]
    rcases sign_cases hs with h | h <;> rw [h] <;> simp

end Sagittarius
