import Sagittarius.Mp.Shift
import Mathlib.Data.Sign.Basic
import Mathlib.Data.Int.ConditionallyCompleteOrder

/-!
# Bignums, fixnums and their canonical form

A bignum is a sign, a count and words (`struct SgBignumRec`); an exact integer is a fixnum of 62
bits or a bignum.

* `Bignum.toInt`, `Integer.toInt` are the numbers they stand for;
* `Integer.Canonical` : a fixnum, or a bignum without leading zero words that is not in the range
  of the fixnums; `Integer.Canonical.same` : the canonical form is unique;
* `sgNormalizeBignum` drops leading zero words and makes a fixnum where it can;
  `sgNormalizeBignum_spec` : it returns the canonical form of its argument.
-/

namespace Sagittarius

open BitVec

/-- `struct SgBignumRec`.  The sign is a bit field of two bits that only ever holds `-1`, `0` and
`1`; the words from `size` on are not part of the number. -/
structure Bignum where
  sign : SignType
  /-- `size`, the number of words in use. -/
  size : ℕ
  elements : Mem

namespace Bignum

/-- `elements` as a pointer; at least one word is allocated. -/
def words (b : Bignum) : Ptr := ⟨b.elements, max b.size 1⟩

/-- `b` after a call that wrote to its `elements`. -/
def setWords (b : Bignum) (p : Ptr) : Bignum := { b with elements := p.mem }

/-- The absolute value. -/
def mag (b : Bignum) : ℕ := wval b.elements 0 b.size

/-- The number. -/
def toInt (b : Bignum) : ℤ := b.sign * b.mag

variable (b : Bignum)

@[simp] theorem words_mem : b.words.mem = b.elements := rfl
@[simp] theorem setWords_sign (p : Ptr) : (b.setWords p).sign = b.sign := rfl
@[simp] theorem setWords_size (p : Ptr) : (b.setWords p).size = b.size := rfl
@[simp] theorem setWords_elements (p : Ptr) : (b.setWords p).elements = p.mem := rfl

end Bignum

/-- Cleared words, and whatever the memory holds behind them. -/
def makeBignum (g : Junk) (size : ℕ) : Bignum where
  sign := if size = 0 then 0 else 1
  size := size
  elements := (g.zeros 0 (max size 1)).mem

@[simp] theorem makeBignum_size (g : Junk) (size : ℕ) : (makeBignum g size).size = size := rfl

theorem makeBignum_sign (g : Junk) {size : ℕ} (h : 0 < size) : (makeBignum g size).sign = 1 :=
  if_neg h.ne'

theorem makeBignum_elements (g : Junk) {size i : ℕ} (h : i < size) :
    (makeBignum g size).elements i = 0 :=
  Junk.zeros_mem g 0 (lt_max_of_lt_left h)

/-! ### Fixnums and exact integers -/

/-- The 62 bits of an object that hold a fixnum: `SG_MAKE_INT` shifts a `long` left by two and
`SG_INT_VALUE` shifts it back. -/
abbrev Fixnum := BitVec 62

/-- The greatest fixnum. -/
def sgIntMax : ℤ := 2 ^ 61 - 1

/-- The least fixnum. -/
def sgIntMin : ℤ := -sgIntMax - 1

/-- An exact integer. -/
inductive Integer where
  | fixnum (n : Fixnum)
  | bignum (b : Bignum)

/-- A fixnum. -/
def sgMakeInt (x : ℤ) : Integer := .fixnum (BitVec.ofInt 62 x)

/-- The range of the fixnums. -/
def FixnumRange (n : ℤ) : Prop := sgIntMin ≤ n ∧ n ≤ sgIntMax

instance (n : ℤ) : Decidable (FixnumRange n) := inferInstanceAs (Decidable (_ ∧ _))

theorem fixnumRange_iff (n : ℤ) : FixnumRange n ↔ -2 ^ 61 ≤ n ∧ n < 2 ^ 61 := by
  rw [FixnumRange, sgIntMin, sgIntMax]
  omega

theorem Fixnum.range (n : Fixnum) : FixnumRange n.toInt := by
  rw [fixnumRange_iff]
  exact ⟨by simpa using le_toInt n, by simpa using toInt_lt (x := n)⟩

theorem toInt_ofInt_fixnum {x : ℤ} (h : FixnumRange x) : (BitVec.ofInt 62 x).toInt = x := by
  rw [fixnumRange_iff] at h
  exact toInt_ofInt_eq_self (by decide) (by simpa using h.1) (by simpa using h.2)

namespace Integer

/-- The number. -/
def toInt : Integer → ℤ
  | fixnum n => n.toInt
  | bignum b => b.toInt

/-- The canonical form: a fixnum if the number is in its range, otherwise a bignum whose top word
is not zero. -/
def Canonical : Integer → Prop
  | fixnum _ => True
  | bignum b => b.sign ≠ 0 ∧ 0 < b.size ∧ b.elements (b.size - 1) ≠ 0 ∧ ¬ FixnumRange b.toInt

/-- `x` is the canonical form of `n`. -/
def Represents (x : Integer) (n : ℤ) : Prop := x.Canonical ∧ x.toInt = n

/-- Two objects that print the same: equal fixnums, or bignums of the same sign and words. -/
def Same : Integer → Integer → Prop
  | fixnum m, fixnum n => m = n
  | bignum a, bignum b =>
    a.sign = b.sign ∧ a.size = b.size ∧ ∀ i, i < a.size → a.elements i = b.elements i
  | _, _ => False

end Integer

/-! ### Making integers -/

/-- The least `long`. -/
def longMin : ℤ := -2 ^ 63

/-- The bignum of a `long`. -/
def sgMakeBignumFromSI (g : Junk) (value : ℤ) : Bignum :=
  if value = 0 then makeBignum g 0
  else
    let b := makeBignum g 1
    if value = longMin then
      { b with sign := -1, elements := Function.update b.elements 0 ((1 : Word) <<< 63) }
    else if value < 0 then
      { b with sign := -1, elements := Function.update b.elements 0 (BitVec.ofInt 64 (-value)) }
    else { b with sign := 1, elements := Function.update b.elements 0 (BitVec.ofInt 64 value) }

/-- A fixnum if it fits, else a bignum. -/
def sgMakeInteger (g : Junk) (x : ℤ) : Integer :=
  if x ≥ sgIntMin ∧ x ≤ sgIntMax then sgMakeInt x else .bignum (sgMakeBignumFromSI g x)

/-- A copy in new memory. -/
def sgBignumCopy (g : Junk) (b : Bignum) : Bignum where
  sign := b.sign
  size := b.size
  elements := fun i => if i < b.size then b.elements i else (makeBignum g b.size).elements i

/-- The size after `for (i = size - 1; i > 0; i--) { if (bn->elements[i] == 0) size--; else break;
}`; `i` is then this size minus one. -/
def normalizeSize (m : Mem) : ℕ → ℕ
  | 0 => 0
  | 1 => 1
  | n + 2 => if m (n + 1) = 0 then normalizeSize m (n + 1) else n + 2

/-- Drops leading zeros, and makes a fixnum if `convertp` says so. -/
def bignumNormalizeRec (bn : Bignum) (convertp : Bool) : Integer :=
  let size := normalizeSize bn.elements bn.size
  if bn.sign = 0 ∧ convertp then sgMakeInt 0
  else if size ≤ 1 then
    if convertp then
      if bn.sign = 0 ∨ (size = 1 ∧ bn.elements 0 = 0) then sgMakeInt 0
      else if bn.sign > 0 ∧ bn.elements 0 ≤ BitVec.ofInt 64 sgIntMax then
        sgMakeInt (bn.elements 0).toNat
      else if bn.sign < 0 ∧ bn.elements 0 ≤ BitVec.ofInt 64 (-sgIntMin) then
        sgMakeInt (-(bn.elements 0).toInt)
      else .bignum { bn with size := size }
    else if size = 1 ∧ bn.elements 0 = 0 then .bignum { bn with sign := 0, size := 0 }
    else .bignum { bn with size := size }
  else .bignum { bn with size := size }

/-- `bignum_normalize`, which never makes a fixnum. -/
def bignumNormalize (bn : Bignum) : Bignum :=
  match bignumNormalizeRec bn false with
  | .bignum b => b
  | .fixnum _ => bn

/-- The canonical integer. -/
def sgNormalizeBignum (bn : Bignum) : Integer := bignumNormalizeRec bn true

/-! ### The numbers -/

theorem sign_cases {s : SignType} (h : s ≠ 0) : s = -1 ∨ s = 1 := by
  cases s <;> simp_all

namespace Bignum

variable {b : Bignum}

theorem toInt_of_neg (h : b.sign = -1) : b.toInt = -b.mag := by
  rw [toInt, h]
  simp

theorem toInt_of_zero (h : b.sign = 0) : b.toInt = 0 := by
  rw [toInt, h]
  simp

theorem toInt_of_pos (h : b.sign = 1) : b.toInt = b.mag := by
  rw [toInt, h]
  simp

theorem natAbs_toInt (h : b.sign ≠ 0) : b.toInt.natAbs = b.mag := by
  rcases sign_cases h with hs | hs
  · rw [toInt_of_neg hs, Int.natAbs_neg, Int.natAbs_natCast]
  · rw [toInt_of_pos hs, Int.natAbs_natCast]

theorem le_mag (h0 : 0 < b.size) (htop : b.elements (b.size - 1) ≠ 0) :
    radix ^ (b.size - 1) ≤ b.mag := by
  obtain ⟨k, hk⟩ : ∃ k, b.size = k + 1 := ⟨b.size - 1, by omega⟩
  rw [hk, Nat.add_sub_cancel] at htop ⊢
  rw [mag, hk, wval_top, Nat.zero_add]
  have hpos : 0 < (b.elements k).toNat :=
    Nat.pos_of_ne_zero fun h => htop (eq_of_toNat_eq h)
  exact le_add_left (Nat.le_mul_of_pos_right _ hpos)

theorem sign_toInt (h : 0 < b.mag) : SignType.sign b.toInt = b.sign := by
  have h' : 0 < (b.mag : ℤ) := by exact_mod_cast h
  rcases hs : b.sign with _ | _ | _
  · rw [toInt_of_zero hs, sign_zero]
    rfl
  · rw [toInt_of_neg hs]
    exact sign_neg (by omega)
  · rw [toInt_of_pos hs]
    exact sign_pos h'

/-- A bignum that is zero exactly if it has no words, and has no leading zero words. -/
structure Normal (b : Bignum) : Prop where
  sign_eq_zero : b.sign = 0 ↔ b.size = 0
  top_ne_zero : 0 < b.size → b.elements (b.size - 1) ≠ 0

theorem Normal.size_pos (h : b.Normal) (hs : b.sign ≠ 0) : 0 < b.size :=
  Nat.pos_of_ne_zero fun h0 => hs (h.sign_eq_zero.2 h0)

theorem mag_lt (b : Bignum) : b.mag < radix ^ b.size := wval_lt _ _ _

end Bignum

namespace Integer

@[simp] theorem toInt_fixnum (n : Fixnum) : (fixnum n).toInt = n.toInt := rfl
@[simp] theorem toInt_bignum (b : Bignum) : (bignum b).toInt = b.toInt := rfl
theorem sgMakeInt_represents {x : ℤ} (h : FixnumRange x) : (sgMakeInt x).Represents x :=
  ⟨trivial, toInt_ofInt_fixnum h⟩

theorem toInt_sgMakeInt {x : ℤ} (h : FixnumRange x) : (sgMakeInt x).toInt = x :=
  toInt_ofInt_fixnum h

variable {b : Bignum}

theorem Canonical.normal (h : (bignum b).Canonical) : b.Normal :=
  ⟨iff_of_false h.1 h.2.1.ne', fun _ => h.2.2.1⟩

theorem canonical_of_two_words (hs : b.sign ≠ 0) (h2 : 2 ≤ b.size)
    (htop : b.elements (b.size - 1) ≠ 0) : (bignum b).Canonical := by
  have hmag : 2 ^ 61 < b.mag :=
    calc 2 ^ 61 < radix ^ 1 := by norm_num [radix]
      _ ≤ radix ^ (b.size - 1) := Nat.pow_le_pow_right radix_pos (by omega)
      _ ≤ b.mag := Bignum.le_mag (by omega) htop
  have hnat := Bignum.natAbs_toInt hs
  refine ⟨hs, by omega, htop, ?_⟩
  rw [fixnumRange_iff]
  omega

/-- **The canonical form is unique.** -/
theorem Canonical.same {x y : Integer} (hx : x.Canonical) (hy : y.Canonical)
    (h : x.toInt = y.toInt) : x.Same y := by
  cases x with
  | fixnum m =>
    cases y with
    | fixnum n => exact eq_of_toInt_eq h
    | bignum b =>
      have hr : FixnumRange b.toInt := by
        rw [← toInt_bignum, ← h]
        exact Fixnum.range m
      exact absurd hr hy.2.2.2
  | bignum a =>
    cases y with
    | fixnum n =>
      have hr : FixnumRange a.toInt := by
        rw [← toInt_bignum, h]
        exact Fixnum.range n
      exact absurd hr hx.2.2.2
    | bignum b =>
      obtain ⟨hsa, h0a, hta, -⟩ := hx
      obtain ⟨hsb, h0b, htb, -⟩ := hy
      have hmag : a.mag = b.mag := by
        rw [← Bignum.natAbs_toInt hsa, ← Bignum.natAbs_toInt hsb]
        exact congrArg Int.natAbs h
      -- the sizes are the numbers of words of equal absolute values
      have hle : ∀ {c d : Bignum}, 0 < c.size → c.elements (c.size - 1) ≠ 0 → c.mag = d.mag →
          c.size ≤ d.size := fun {c d} h0 ht he => by
        have h1 := (Bignum.le_mag h0 ht).trans_lt (he ▸ d.mag_lt)
        have := (Nat.pow_lt_pow_iff_right one_lt_radix).1 h1
        omega
      have hsize : a.size = b.size := (hle h0a hta hmag).antisymm (hle h0b htb hmag.symm)
      refine ⟨?_, hsize, fun i hi => wval_inj (k := a.size) ?_ i (Nat.zero_le i) (by omega)⟩
      · have hpos := (radix_pow_pos _).trans_le (Bignum.le_mag h0a hta)
        rw [← Bignum.sign_toInt hpos, ← Bignum.sign_toInt (hmag ▸ hpos)]
        exact congrArg SignType.sign h
      · rw [Bignum.mag, Bignum.mag, ← hsize] at hmag
        exact hmag

end Integer

/-! ### Normalisation -/

theorem normalizeSize_spec (m : Mem) (n : ℕ) :
    normalizeSize m n ≤ n ∧ (0 < n → 0 < normalizeSize m n) ∧
      wval m 0 (normalizeSize m n) = wval m 0 n ∧
      (2 ≤ normalizeSize m n → m (normalizeSize m n - 1) ≠ 0) := by
  fun_induction normalizeSize m n with
  | case1 | case2 => simp
  | case3 n h ih =>
    obtain ⟨h1, h2, h3, h4⟩ := ih
    refine ⟨by omega, fun _ => h2 (by omega), ?_, h4⟩
    rw [h3, wval_top m 0 (n + 1), Nat.zero_add, h]
    simp
  | case4 n h => exact ⟨le_rfl, fun h => h, rfl, fun _ => h⟩

/-- **Normalisation gives the canonical form**, of any bignum that has a word if it has a sign. -/
theorem sgNormalizeBignum_spec {b : Bignum} (h : b.sign ≠ 0 → 0 < b.size) :
    (sgNormalizeBignum b).Represents b.toInt := by
  obtain ⟨-, hpos, hval, htop⟩ := normalizeSize_spec b.elements b.size
  rw [sgNormalizeBignum, bignumNormalizeRec]
  by_cases h0 : b.sign = 0
  · rw [if_pos ⟨h0, rfl⟩, Bignum.toInt_of_zero h0]
    exact ⟨trivial, Integer.toInt_sgMakeInt (by decide)⟩
  have hpos := hpos (h h0)
  rw [if_neg (fun hc => h0 hc.1)]
  generalize hs : normalizeSize b.elements b.size = s at *
  have hb : ({ b with size := s } : Bignum).toInt = b.toInt := by
    rw [Bignum.toInt, Bignum.toInt, Bignum.mag, Bignum.mag, hval]
  by_cases h1 : s ≤ 1
  · obtain rfl : s = 1 := by omega
    have hmag : b.mag = (b.elements 0).toNat := by rw [Bignum.mag, ← hval, wval_one]
    rw [if_pos h1, if_pos rfl]
    by_cases hz : b.elements 0 = 0
    · rw [if_pos (Or.inr ⟨rfl, hz⟩), Bignum.toInt, hmag, hz]
      exact ⟨trivial, by simpa using Integer.toInt_sgMakeInt (by decide)⟩
    rw [if_neg (not_or.2 ⟨h0, fun h => hz h.2⟩)]
    have hcanon : ¬ FixnumRange b.toInt →
        (Integer.bignum { b with size := 1 }).Canonical :=
      fun hr => ⟨h0, Nat.one_pos, hz, by rwa [hb]⟩
    have hmax : b.elements 0 ≤ BitVec.ofInt 64 sgIntMax ↔ b.mag ≤ 2 ^ 61 - 1 := by
      rw [le_def, hmag]
      rfl
    have hmin : b.elements 0 ≤ BitVec.ofInt 64 (-sgIntMin) ↔ b.mag ≤ 2 ^ 61 := by
      rw [le_def, hmag]
      rfl
    rw [fixnumRange_iff] at hcanon
    rcases sign_cases h0 with hsign | hsign
    · have hneg := Bignum.toInt_of_neg hsign
      rw [if_neg (fun hc => absurd (hsign ▸ hc.1) (by decide))]
      split_ifs with hle
      · have hle := hmin.1 hle.2
        have hw : (b.elements 0).toInt = b.mag := by
          rw [toInt_eq_toNat_of_lt (by omega), hmag]
        rw [hw, ← hneg]
        exact ⟨trivial, Integer.toInt_sgMakeInt ((fixnumRange_iff _).2 (by omega))⟩
      · have hlt : ¬ b.mag ≤ 2 ^ 61 := fun hc => hle ⟨hsign ▸ (by decide), hmin.2 hc⟩
        exact ⟨hcanon (by omega), hb⟩
    · have hpos := Bignum.toInt_of_pos hsign
      split_ifs with hle hle'
      · have hle := hmax.1 hle.2
        rw [← hmag, ← hpos]
        exact ⟨trivial, Integer.toInt_sgMakeInt ((fixnumRange_iff _).2 (by omega))⟩
      · exact absurd (hsign ▸ hle'.1) (by decide)
      · have hlt : ¬ b.mag ≤ 2 ^ 61 - 1 := fun hc => hle ⟨hsign ▸ (by decide), hmax.2 hc⟩
        exact ⟨hcanon (by omega), hb⟩
  · rw [if_neg h1]
    exact ⟨Integer.canonical_of_two_words h0 (Nat.not_le.1 h1) (htop (by omega)), hb⟩

theorem sgNormalizeBignum_represents {b : Bignum} {n : ℤ}
    (h : (b.sign ≠ 0 → 0 < b.size) ∧ b.toInt = n) : (sgNormalizeBignum b).Represents n :=
  h.2 ▸ sgNormalizeBignum_spec h.1

/-! ### Integers from machine words, and copies -/

section

variable {x : ℤ} (g : Junk) (hx : -2 ^ 63 ≤ x ∧ x < 2 ^ 63)

include hx

theorem sgMakeBignumFromSI_mag (h0 : x ≠ 0) :
    (sgMakeBignumFromSI g x).size = 1 ∧ (sgMakeBignumFromSI g x).sign = SignType.sign x ∧
      (sgMakeBignumFromSI g x).mag = x.natAbs := by
  have hof : ∀ y : ℤ, 0 ≤ y → y < 2 ^ 64 → (BitVec.ofInt 64 y).toNat = y.natAbs :=
    fun y h1 h2 => by
      rw [toNat_ofInt]
      omega
  rw [sgMakeBignumFromSI, if_neg h0]
  dsimp only
  split_ifs with hmin hneg
  · rw [longMin] at hmin
    subst hmin
    refine ⟨rfl, (sign_neg (by norm_num)).symm, ?_⟩
    rw [Bignum.mag, makeBignum_size, wval_one]
    simp only [Function.update_self]
    decide
  · refine ⟨rfl, (sign_neg hneg).symm, ?_⟩
    rw [Bignum.mag, makeBignum_size, wval_one]
    simp only [Function.update_self]
    rw [hof _ (by omega) (by omega), Int.natAbs_neg]
  · refine ⟨rfl, (sign_pos (by omega)).symm, ?_⟩
    rw [Bignum.mag, makeBignum_size, wval_one]
    simp only [Function.update_self]
    exact hof _ (by omega) (by omega)

theorem sgMakeBignumFromSI_toInt : (sgMakeBignumFromSI g x).toInt = x := by
  by_cases h0 : x = 0
  · subst h0
    rfl
  · obtain ⟨-, hsign, hmag⟩ := sgMakeBignumFromSI_mag g hx h0
    rw [Bignum.toInt, hsign, hmag, Int.natCast_natAbs]
    exact sign_mul_abs x

theorem sgMakeBignumFromSI_normal : (sgMakeBignumFromSI g x).Normal := by
  by_cases h0 : x = 0
  · subst h0
    exact ⟨iff_of_true rfl rfl, fun h => absurd h (Nat.lt_irrefl 0)⟩
  · obtain ⟨hsize, hsign, hmag⟩ := sgMakeBignumFromSI_mag g hx h0
    refine ⟨iff_of_false (by rwa [hsign, sign_eq_zero_iff]) (by omega), fun _ hz => h0 ?_⟩
    rw [hsize] at hz
    rw [Bignum.mag, hsize, wval_one, hz] at hmag
    exact Int.natAbs_eq_zero.1 hmag.symm

theorem sgMakeInteger_spec : (sgMakeInteger g x).Represents x := by
  rw [sgMakeInteger]
  split_ifs with h
  · exact ⟨trivial, Integer.toInt_sgMakeInt h⟩
  · have h0 : x ≠ 0 := fun h0 => h (by subst h0; decide)
    obtain ⟨hsize, hsign, -⟩ := sgMakeBignumFromSI_mag g hx h0
    have hpos : 0 < (sgMakeBignumFromSI g x).size := by omega
    have hval := sgMakeBignumFromSI_toInt g hx
    exact ⟨⟨by rwa [hsign, ne_eq, sign_eq_zero_iff], hpos,
      (sgMakeBignumFromSI_normal g hx).top_ne_zero hpos, by rwa [hval]⟩, hval⟩

end

theorem sgBignumCopy_mag (g : Junk) (b : Bignum) : (sgBignumCopy g b).mag = b.mag :=
  wval_congr fun j _ hj => if_pos (by rwa [Nat.zero_add] at hj)

end Sagittarius
