import Sagittarius.Library.LongDivision
import Sagittarius.Mp.Bounds
import Mathlib.Data.Nat.Bitwise

/-!
# Long division on half words

`mp_div_rem_kunuth` divides with digits of 32 bits, two of which lie in a word.  Both operands
are shifted left until the divisor's leading digit has its top bit set; the quotient digits are
then found from the top down, each one estimated, corrected, and taken off the dividend, which
ends as the shifted remainder.

The macros that address half words read and write one digit (`digit`, `setDigit`) or two
neighbouring ones (`digit2`, `setDigit2`); `hdig m k` is digit `k` as a number, and the loops are
described by segments of digits.

* `estimateDigit_spec` : the estimate is the quotient digit or one more;
* `kunuthStep_spec` : one iteration takes the exact quotient digit off the dividend;
* `kunuthLoop_spec` : what the whole loop leaves;
* `mpDivRemKunuth_divides` : quotient and remainder, if the last word of the remainder buffer is
  zero;
* `mpDivRemKunuth_stale_remainder` : a division that goes wrong with another word there.
-/

namespace Sagittarius

open Function Digits BitVec Nat

/-! ### Half words -/

/-- The base of the digits. -/
def halfWord : Word := (1 : Word) <<< 32

/-- The mask of the lower half. -/
def loMask : Word := halfWord - 1

/-- The mask of the upper half. -/
def hiMask : Word := ~~~loMask

/-- `LO(word)`: the lower half. -/
def lo (w : Word) : Word := w &&& loMask

/-- `HI(word)`: the upper half. -/
def hi (w : Word) : Word := (w >>> 32) &&& loMask

/-- `DIGIT(num, n)`; the division and the remainder of C truncate, so that digit `-1` is the
upper half of the first word. -/
def digit (num : Mem) (n : ℤ) : Word :=
  if n.tmod 2 ≠ 0 then hi (num (n.tdiv 2).toNat) else lo (num (n.tdiv 2).toNat)

/-- `DIGIT2(num, n)`: two digits from `n` on. -/
def digit2 (num : Mem) (n : ℕ) : Word :=
  if n % 2 ≠ 0 then (lo (num (n / 2 + 1)) <<< 32) ||| hi (num (n / 2)) else num (n / 2)

/-- `SETDIGIT(num, n, v)`: sets a digit. -/
def setDigit (num : Mem) (n : ℕ) (v : Word) : Mem :=
  if n % 2 ≠ 0 then update num (n / 2) ((num (n / 2) &&& loMask) ||| (v <<< 32))
  else update num (n / 2) ((num (n / 2) &&& hiMask) ||| (v &&& loMask))

/-- `SETDIGIT2(num, n, v)`: sets two digits. -/
def setDigit2 (num : Mem) (n : ℕ) (v : Word) : Mem :=
  if n % 2 ≠ 0 then
    let num := update num (n / 2) (lo (num (n / 2)) ||| (v <<< 32))
    update num (n / 2 + 1) ((num (n / 2 + 1) &&& hiMask) ||| hi v)
  else update num (n / 2) v

/-! ### The functions -/

/-- The loop of `div_normalization_factor`, `k` rounds at most. -/
def divNormalizationLoop (w : Word) : ℕ → Word → ℕ → ℕ
  | 0, _, _ => 0
  | k + 1, b, c => if w &&& b ≠ 0 then c else divNormalizationLoop w k (b >>> 1) (c + 1)

/-- `div_normalization_factor`, which is not to be called with `0`. -/
def divNormalizationFactor (w : Word) : ℕ := divNormalizationLoop w 64 ((1 : Word) <<< 63) 0

/-- Lowers the estimate to a digit, with the remainder. -/
def clipEstimate (vn1 qq rr : Word) : Word × Word :=
  if _h : qq ≥ halfWord then clipEstimate vn1 (qq - 1) (rr + vn1) else (qq, rr)
termination_by qq.toNat
decreasing_by
  have h1 : (2 : ℕ) ^ 32 ≤ qq.toNat := _h
  rw [toNat_sub, show (1 : Word).toNat = 1 from rfl]
  omega

theorem pos_of_lt_mul {qq v w : Word} (h : qq * v > w) : 0 < qq.toNat := by
  refine Nat.pos_of_ne_zero fun h0 => ?_
  rw [eq_of_toNat_eq (y := 0) h0, gt_iff_lt, lt_def, toNat_mul] at h
  simp at h

/-- `while ((qq * vn_2 > (rr << HALF_BITS) + DIGIT(u, j + n - 2)) && (rr < HALF_WORD))`, where
`ud` is that digit. -/
def adjustEstimate (vn1 vn2 ud qq rr : Word) : Word × Word :=
  if _h : qq * vn2 > (rr <<< 32) + ud ∧ rr < halfWord then
    adjustEstimate vn1 vn2 ud (qq - 1) (rr + vn1)
  else (qq, rr)
termination_by qq.toNat
decreasing_by
  have h0 := pos_of_lt_mul _h.1
  rw [toNat_sub, show (1 : Word).toNat = 1 from rfl]
  omega

/-- `qq` and `rr` for digit `j` of the quotient, before `qq` is multiplied with anything. -/
def firstEstimate (u : Mem) (n : ℕ) (vn1 : Word) (j : ℕ) : Word × Word :=
  let uu := (digit u (j + n) <<< 32) + digit u (j + n - 1)
  clipEstimate vn1 (uu / vn1) (uu % vn1)

/-- The estimate `qq` of digit `j` of the quotient that is taken off the dividend. -/
def estimateDigit (u : Mem) (n : ℕ) (vn1 vn2 : Word) (j : ℕ) : Word :=
  let (qq, rr) := firstEstimate u n vn1 j
  (adjustEstimate vn1 vn2 (digit u (j + n - 2)) qq rr).1

/-- The loop that subtracts `qq` times the divisor, `c` more rounds from `k` on. -/
def mulSubLoop (v : Mem) (qq : Word) (j : ℕ) : ℕ → ℕ → Mem → Word → Mem × Word
  | 0, _, u, cy => (u, cy)
  | c + 1, k, u, cy =>
    let vv := qq * digit v k
    let uj := digit2 u (j + k)
    let uj2 := uj - vv - cy
    let cy := if uj2 > uj then halfWord else 0
    mulSubLoop v qq j c (k + 1) (setDigit2 u (j + k) uj2) cy

/-- The loop that adds the divisor back, `c` more rounds from `k` on. -/
def addBackLoop (v : Mem) (j : ℕ) : ℕ → ℕ → Mem → Word → Mem × Word
  | 0, _, u, cy => (u, cy)
  | c + 1, k, u, cy =>
    let vv := digit v k
    let uj := digit u (j + k) + vv + cy
    let cy := if uj ≥ halfWord then 1 else 0
    addBackLoop v j c (k + 1) (setDigit u (j + k) uj) cy

/-- What the iteration for digit `j` does to the dividend, and the quotient digit it finds. -/
def kunuthDigit (v : Mem) (n : ℕ) (vn1 vn2 : Word) (j : ℕ) (u : Mem) : Mem × Word :=
  let qq := estimateDigit u n vn1 vn2 j
  let (u, cy) := mulSubLoop v qq j n 0 u 0
  if cy ≠ 0 then
    let (u, cy) := addBackLoop v j n 0 u 0
    let uj := digit u (j + n) + cy
    (setDigit u (j + n) uj, qq - 1)
  else (u, qq)

/-- The iteration of the main loop for digit `j`. -/
def kunuthStep (v : Mem) (n : ℕ) (vn1 vn2 : Word) (j : ℕ) (s : Mem × Option Mem) :
    Mem × Option Mem :=
  let (u, qq) := kunuthDigit v n vn1 vn2 j s.1
  (u, s.2.map fun dp => setDigit dp j qq)

/-- The iterations of the main loop for the digits below `j`. -/
def kunuthLoop (v : Mem) (n : ℕ) (vn1 vn2 : Word) : ℕ → Mem × Option Mem → Mem × Option Mem
  | 0, s => s
  | j + 1, s => kunuthLoop v n vn1 vn2 j (kunuthStep v n vn1 vn2 j s)

/-- The number of digits of the divisor and the amount of the shift. -/
def kunuthShift (yp : Ptr) (ysize : ℕ) : ℕ × ℕ :=
  let d := divNormalizationFactor (yp.mem (ysize - 1))
  if d ≥ 32 then (ysize * 2 - 1, d - 32) else (ysize * 2, d)

/-- What `mp_div_rem_kunuth` has computed when its main loop starts: the number of digits of the
divisor, the number of quotient digits, the shift, and the two shifted operands. -/
structure KunuthSetup where
  /-- The number `n` of digits of the divisor. -/
  n : ℕ
  /-- The number of iterations, `m + 1` for the index `m` the loop starts from. -/
  iterations : ℕ
  /-- The shift `d`. -/
  d : ℕ
  u : Ptr
  v : Ptr

/-- `mp_div_rem_kunuth` up to its main loop.  Without a buffer for the remainder the dividend is
shifted into a cleared one. -/
def kunuthSetup (g : Junk) (rem : Option Ptr) (xp : Ptr) (xsize : ℕ) (yp : Ptr) (ysize : ℕ) :
    KunuthSetup :=
  let (n, d) := kunuthShift yp ysize
  let m : ℤ := xsize * 2 - n
  let u := (mpLshift (rem.getD (g.zeros 0 (xsize + 1))) (xsize + 1) (.ptr xp) xsize d).val
  let v := (mpLshift (g.zeros 1 ysize) ysize (.ptr yp) ysize d).val
  { n := n, iterations := (m + 1).toNat, d := d, u := u, v := v }

/-- The quotient buffer, the remainder buffer and the returned size. -/
def mpDivRemKunuth (g : Junk) (dp : Option Mem) (rem : Option Ptr) (xp : Ptr) (xsize : ℕ)
    (yp : Ptr) (ysize : ℕ) : Option Mem × Ptr × ℕ :=
  let s := kunuthSetup g rem xp xsize yp ysize
  let vn1 := digit s.v.mem (s.n - 1)
  let vn2 := digit s.v.mem (s.n - 2)
  let (u, dp) := kunuthLoop s.v.mem s.n vn1 vn2 s.iterations (s.u.mem, dp)
  let (u, size) := (mpRshift ⟨u, s.u.size⟩ .self (xsize + 1) s.d).val
  (dp, u, size)

/-! ### Digits as numbers -/

/-- The base of the digits. -/
def halfRadix : ℕ := 2 ^ 32

/-- Digit `k` as a number. -/
def hdig (m : Mem) (k : ℕ) : ℕ :=
  if k % 2 = 0 then (m (k / 2)).toNat % halfRadix else (m (k / 2)).toNat / halfRadix

/-- The number made by `k` digits from digit `i` on. -/
def hval (m : Mem) (i k : ℕ) : ℕ := seg halfRadix (hdig m) i k

theorem halfRadix_pos : 0 < halfRadix := by simp [halfRadix]

theorem hdig_lt (m : Mem) (k : ℕ) : hdig m k < halfRadix := by
  simp only [hdig, halfRadix]
  split_ifs <;> omega

theorem hval_lt (m : Mem) (i k : ℕ) : hval m i k < halfRadix ^ k := seg_lt (hdig_lt m) i k

theorem wval_eq_hval (m : Mem) (k : ℕ) : wval m 0 k = hval m 0 (2 * k) := by
  have h := seg_pair (b := halfRadix) (d := hdig m) 0 k
  rw [hval, ← Nat.mul_zero 2, ← h, wval, show radix = halfRadix * halfRadix by
    simp [radix, halfRadix]]
  refine seg_congr fun j _ _ => ?_
  simp only [hdig, mul_mod_right, ite_true, mul_add_mod, show (2 * j + 1) / 2 = j by omega,
    Nat.mul_div_cancel_left j (by norm_num : 0 < 2)]
  simp only [mod_succ, one_ne_zero, ite_false, mod_add_div]

theorem toNat_halfWord : halfWord.toNat = halfRadix := by decide

theorem mul_lt_word {a b : ℕ} (ha : a < halfRadix) (hb : b < halfRadix) : a * b < 2 ^ 64 :=
  calc a * b < halfRadix * halfRadix := mul_lt_mul'' ha hb
    _ = 2 ^ 64 := by simp [halfRadix]

theorem toNat_sub_one {w : Word} (h : 0 < w.toNat) : (w - 1).toNat = w.toNat - 1 := by
  rw [toNat_sub_of_le (by exact h)]
  rfl

variable (g : Junk) (w : Word)

theorem toNat_lo : (lo w).toNat = w.toNat % halfRadix := by
  rw [lo, toNat_and, show loMask.toNat = 2 ^ 32 - 1 by decide,
    and_two_pow_sub_one_eq_mod, halfRadix]

theorem toNat_hi : (hi w).toNat = w.toNat / halfRadix := by
  rw [hi, toNat_and, show loMask.toNat = 2 ^ 32 - 1 by decide,
    and_two_pow_sub_one_eq_mod, toNat_shr, halfRadix]
  omega

theorem div_halfRadix_lt : w.toNat / halfRadix < halfRadix := by
  rw [halfRadix]
  omega

theorem lo_lt : (lo w).toNat < halfRadix := by
  rw [toNat_lo]
  exact mod_lt _ halfRadix_pos

theorem toNat_join (h l : Word) (hl : l.toNat < halfRadix) :
    ((h <<< 32) ||| l).toNat = h.toNat % halfRadix * halfRadix + l.toNat := by
  have hh : (h <<< 32).toNat = (h.toNat % halfRadix) <<< 32 := by
    rw [toNat_shl, Nat.shiftLeft_eq, halfRadix, radix]
    omega
  rw [toNat_or, hh, ← shiftLeft_add_eq_or_of_lt (by rwa [halfRadix] at hl),
    Nat.shiftLeft_eq, halfRadix]

theorem and_hiMask : w &&& hiMask = (w >>> 32) <<< 32 := by
  rw [show hiMask = allOnes 64 <<< 32 by decide]
  ext i hi
  simp only [getElem_and, getElem_shiftLeft, getElem_ushiftRight,
    getElem_allOnes]
  by_cases h : i < 32
  · simp [h]
  · simp [h, show 32 + (i - 32) = i by omega, getLsbD_eq_getElem hi]

theorem digit_natCast (m : Mem) (k : ℕ) : (digit m k).toNat = hdig m k := by
  have h1 : ((k : ℤ).tdiv 2).toNat = k / 2 := by
    rw [Int.tdiv_eq_ediv_of_nonneg (by omega)]
    omega
  have h2 : (k : ℤ).tmod 2 ≠ 0 ↔ k % 2 ≠ 0 := by
    rw [Int.tmod_eq_emod_of_nonneg (by omega)]
    omega
  rw [digit, h1, hdig]
  by_cases h : k % 2 = 0
  · rw [if_neg (by rw [h2]; simpa using h), if_pos h, toNat_lo]
  · rw [if_pos (h2.2 h), if_neg h, toNat_hi]

theorem digit2_toNat (m : Mem) (k : ℕ) :
    (digit2 m k).toNat = hdig m k + halfRadix * hdig m (k + 1) := by
  rw [digit2, hdig, hdig]
  rcases mod_two_eq_zero_or_one k with h | h
  · rw [if_neg (by omega), if_pos h, if_neg (by omega), show (k + 1) / 2 = k / 2 by omega,
      mod_add_div]
  · have hlt : (hi (m (k / 2))).toNat < halfRadix := by
      rw [toNat_hi]
      exact div_halfRadix_lt _
    rw [if_pos (by omega), if_neg (by omega), if_pos (by omega), toNat_join _ _ hlt, toNat_lo,
      toNat_hi, mod_mod, show (k + 1) / 2 = k / 2 + 1 by omega]
    ring

theorem toNat_setHigh (v : Word) : ((w &&& loMask) ||| (v <<< 32)).toNat =
    w.toNat % halfRadix + halfRadix * (v.toNat % halfRadix) := by
  rw [BitVec.or_comm, show w &&& loMask = lo w from rfl, toNat_join _ _ (lo_lt w), toNat_lo]
  ring

theorem toNat_setLow (l : Word) (hl : l.toNat < halfRadix) : ((w &&& hiMask) ||| l).toNat =
    l.toNat + halfRadix * (w.toNat / halfRadix) := by
  rw [and_hiMask, toNat_join _ _ hl, toNat_shr, ← halfRadix,
    mod_eq_of_lt (div_halfRadix_lt w)]
  ring

variable {m : Mem}

theorem hdig_update {i a c : ℕ} {w : Word} (hw : w.toNat = a + halfRadix * c)
    (ha : a < halfRadix) (k : ℕ) :
    hdig (update m i w) k = if k = 2 * i then a else if k = 2 * i + 1 then c else hdig m k := by
  by_cases hk : k / 2 = i
  · rw [hdig, hk, update_self, hw, add_mul_mod_self_left, mod_eq_of_lt ha,
      add_mul_div_left _ _ halfRadix_pos, div_eq_of_lt ha, Nat.zero_add]
    obtain rfl | rfl : k = 2 * i ∨ k = 2 * i + 1 := by omega
    · rw [if_pos (by omega), if_pos rfl]
    · rw [if_neg (by omega), if_neg (by omega), if_pos rfl]
  · rw [if_neg (by omega), if_neg (by omega), hdig, hdig, update_of_ne hk]

section

variable (m : Mem) (n : ℕ) (v : Word) (k : ℕ)

theorem hdig_setDigit :
    hdig (setDigit m n v) k = if k = n then v.toNat % halfRadix else hdig m k := by
  rcases even_or_odd' n with ⟨i, rfl | rfl⟩
  · -- a lower half
    have hi : 2 * i / 2 = i := by omega
    have hlt : (v &&& loMask).toNat < halfRadix := lo_lt v
    rw [setDigit, if_neg (by omega), hi, hdig_update (toNat_setLow _ _ hlt) hlt, ← lo, toNat_lo]
    split_ifs with h0 h1
    · rfl
    · rw [h1, hdig, if_neg (by omega), show (2 * i + 1) / 2 = i by omega]
    · rfl
  · -- an upper half
    have hi : (2 * i + 1) / 2 = i := by omega
    rw [setDigit, if_pos (by omega), hi,
      hdig_update (toNat_setHigh _ _) (mod_lt _ halfRadix_pos)]
    split_ifs with h0 h1 h2
    · omega
    · rw [h0, hdig, if_pos (by omega), show 2 * i / 2 = i by omega]
    · rfl
    · rfl

theorem setDigit2_eq :
    hdig (setDigit2 m n v) k = hdig (setDigit (setDigit m n v) (n + 1) (hi v)) k := by
  rcases even_or_odd' n with ⟨i, rfl | rfl⟩
  · rw [hdig_setDigit, hdig_setDigit, toNat_hi, mod_eq_of_lt (div_halfRadix_lt v), setDigit2,
      if_neg (by omega), show 2 * i / 2 = i by omega,
      hdig_update (mod_add_div _ _).symm (mod_lt _ halfRadix_pos)]
    split_ifs <;> omega
  · -- the upper half of one word and the lower half of the next one
    have hset : setDigit2 m (2 * i + 1) v =
        setDigit (setDigit m (2 * i + 1) v) (2 * i + 1 + 1) (hi v) := by
      have hhi : hi v &&& loMask = hi v := by
        rw [hi, BitVec.and_assoc, BitVec.and_self]
      rw [setDigit2, if_pos (by omega), setDigit, if_neg (by omega), setDigit, if_pos (by omega),
        show (2 * i + 1) / 2 + 1 = (2 * i + 1 + 1) / 2 by omega, hhi]
      rfl
    rw [hset]

theorem hdig_setDigit2 :
    hdig (setDigit2 m n v) k =
      if k = n then v.toNat % halfRadix
      else if k = n + 1 then v.toNat / halfRadix else hdig m k := by
  rw [setDigit2_eq, hdig_setDigit, hdig_setDigit, toNat_hi,
    mod_eq_of_lt (div_halfRadix_lt v)]
  split_ifs <;> omega

end

/-! ### Segments of digits under the loops -/

theorem hval_succ (m : Mem) (i k : ℕ) :
    hval m i (k + 1) = hdig m i + halfRadix * hval m (i + 1) k := rfl

theorem hval_top (m : Mem) (i k : ℕ) :
    hval m i (k + 1) = hval m i k + halfRadix ^ k * hdig m (i + k) := seg_top i k

theorem hval_congr {m' : Mem} {i k : ℕ} (h : ∀ j, i ≤ j → j < i + k → hdig m j = hdig m' j) :
    hval m i k = hval m' i k := seg_congr h

theorem hval_append (m : Mem) (i j k : ℕ) :
    hval m i (j + k) = hval m i j + halfRadix ^ j * hval m (i + j) k := seg_append i j k

/-- One round of the subtraction: the borrow is carried as `HALF_WORD`, the weight of the next
digit. -/
theorem mulSub_round (uj : Word) {vv cy : Word} {c : ℕ} (hc : c ≤ 1)
    (hcy : cy.toNat = c * halfRadix)
    (hvv : vv.toNat ≤ (halfRadix - 1) * (halfRadix - 1)) :
    let uj2 := uj - vv - cy
    ∃ c', c' ≤ 1 ∧ (if uj2 > uj then halfWord else 0).toNat = c' * halfRadix ∧
      uj2.toNat + vv.toNat + c * halfRadix = uj.toNat + c' * halfRadix ^ 2 := by
  intro uj2
  rw [halfRadix] at hcy hvv ⊢
  have h2 : uj2.toNat = (2 ^ 65 + uj.toNat - vv.toNat - cy.toNat) % 2 ^ 64 := by
    simp only [uj2, toNat_sub]
    omega
  have hiff : uj2 > uj ↔ uj.toNat < vv.toNat + cy.toNat := by
    rw [gt_iff_lt, lt_def, h2]
    omega
  by_cases hlt : uj.toNat < vv.toNat + cy.toNat
  · refine ⟨1, le_rfl, by rw [if_pos (hiff.2 hlt)]; rfl, ?_⟩
    omega
  · refine ⟨0, zero_le _, by rw [if_neg (mt hiff.1 hlt)]; rfl, ?_⟩
    omega

/-- The subtraction loop takes `qq` times `c` digits of the divisor off `c + 1` digits of the
dividend. -/
theorem mulSubLoop_spec (v : Mem) (qq : Word) (hqq : qq.toNat < halfRadix) (j c k : ℕ) (u : Mem)
    (cy : Word) (b : ℕ) (hb : b ≤ 1) (hcy : cy.toNat = b * halfRadix) :
    let r := mulSubLoop v qq j c k u cy
    ∃ b', b' ≤ 1 ∧ r.2.toNat = b' * halfRadix ∧
      (∀ i, i < j + k ∨ j + k + (c + 1) ≤ i → hdig r.1 i = hdig u i) ∧
      hval r.1 (j + k) (c + 1) + qq.toNat * hval v k c + b * halfRadix =
        hval u (j + k) (c + 1) + b' * halfRadix ^ (c + 1) := by
  induction c generalizing k u cy b with
  | zero => exact ⟨b, hb, hcy, fun _ _ => rfl, by simp [mulSubLoop, hval]⟩
  | succ c ih =>
    simp only [mulSubLoop]
    have hv := hdig_lt v k
    -- the product of two digits does not overflow a word
    have hvv : (qq * digit v k).toNat = qq.toNat * hdig v k := by
      rw [toNat_mul, digit_natCast, mod_eq_of_lt (mul_lt_word hqq hv)]
    have hle : (qq * digit v k).toNat ≤ (halfRadix - 1) * (halfRadix - 1) := by
      rw [hvv]
      exact Nat.mul_le_mul (by omega) (by omega)
    obtain ⟨b₁, hb₁, hcy₁, hround⟩ := mulSub_round (digit2 u (j + k)) hb hcy hle
    set uj2 := digit2 u (j + k) - qq * digit v k - cy
    set cy₁ := if uj2 > digit2 u (j + k) then halfWord else 0
    set u' := setDigit2 u (j + k) uj2 with hu'
    obtain ⟨b', hb', hcy', hout, hval'⟩ := ih (k + 1) u' cy₁ b₁ hb₁ hcy₁
    set r := mulSubLoop v qq j c (k + 1) u' cy₁
    have hu0 : hdig u' (j + k) = uj2.toNat % halfRadix := by rw [hu', hdig_setDigit2, if_pos rfl]
    have hu1 : hdig u' (j + k + 1) = uj2.toNat / halfRadix := by
      rw [hu', hdig_setDigit2, if_neg (by omega), if_pos rfl]
    have hrest : ∀ i, i ≠ j + k → i ≠ j + k + 1 → hdig u' i = hdig u i := fun i h1 h2 => by
      rw [hu', hdig_setDigit2, if_neg h1, if_neg h2]
    refine ⟨b', hb', hcy', fun i hi => ?_, ?_⟩
    · rw [hout i (by omega), hrest i (by omega) (by omega)]
    · have hr0 : hdig r.1 (j + k) = uj2.toNat % halfRadix := by rw [hout _ (by omega), hu0]
      have htail : hval u' (j + k + 1 + 1) c = hval u (j + k + 1 + 1) c :=
        hval_congr fun i h1 _ => hrest i (by omega) (by omega)
      rw [← Nat.add_assoc j k 1, hval_succ u', hu1, htail] at hval'
      rw [digit2_toNat, hvv] at hround
      have hsplit := mod_add_div uj2.toNat halfRadix
      rw [hval_succ r.1, hval_succ v, hval_succ u, hval_succ u (j + k + 1), hr0]
      -- the lowest digit, and what is carried on to the others
      linear_combination hround + hsplit + halfRadix * hval'

theorem addBackLoop_spec (v : Mem) (j c k : ℕ) (u : Mem) (cy : Word) (hcy : cy.toNat ≤ 1) :
    let r := addBackLoop v j c k u cy
    r.2.toNat ≤ 1 ∧ (∀ i, i < j + k ∨ j + k + c ≤ i → hdig r.1 i = hdig u i) ∧
      hval r.1 (j + k) c + halfRadix ^ c * r.2.toNat =
        hval u (j + k) c + hval v k c + cy.toNat := by
  induction c generalizing k u cy with
  | zero => exact ⟨hcy, fun _ _ => rfl, by simp [addBackLoop, hval]⟩
  | succ c ih =>
    simp only [addBackLoop]
    have hu := hdig_lt u (j + k)
    have hv := hdig_lt v k
    have huj : (digit u (j + k) + digit v k + cy).toNat = hdig u (j + k) + hdig v k + cy.toNat := by
      have h1 := digit_natCast u (j + k)
      push_cast at h1
      simp only [toNat_add, h1, digit_natCast]
      rw [halfRadix] at hu hv
      omega
    set uj := digit u (j + k) + digit v k + cy with hujdef
    set cy₁ : Word := if uj ≥ halfWord then 1 else 0 with hcy₁
    have hcarry : cy₁.toNat ≤ 1 ∧ uj.toNat = uj.toNat % halfRadix + halfRadix * cy₁.toNat := by
      have hge : uj ≥ halfWord ↔ halfRadix ≤ uj.toNat := by
        rw [ge_iff_le, le_def, toNat_halfWord]
      rw [hcy₁, toNat_bit, if_congr hge rfl rfl, halfRadix]
      rw [halfRadix] at hu hv
      split_ifs <;> omega
    set u' := setDigit u (j + k) uj with hu'
    obtain ⟨hc, hout, hval'⟩ := ih (k + 1) u' cy₁ hcarry.1
    set r := addBackLoop v j c (k + 1) u' cy₁
    have hu0 : hdig u' (j + k) = uj.toNat % halfRadix := by rw [hu', hdig_setDigit, if_pos rfl]
    have hrest : ∀ i, i ≠ j + k → hdig u' i = hdig u i := fun i h1 => by
      rw [hu', hdig_setDigit, if_neg h1]
    refine ⟨hc, fun i hi => ?_, ?_⟩
    · rw [hout i (by omega), hrest i (by omega)]
    · have hr0 : hdig r.1 (j + k) = uj.toNat % halfRadix := by rw [hout _ (by omega), hu0]
      have htail : hval u' (j + k + 1) c = hval u (j + k + 1) c :=
        hval_congr fun i h1 _ => hrest i (by omega)
      rw [← Nat.add_assoc j k 1, htail] at hval'
      rw [hval_succ r.1, hval_succ v, hval_succ u, hr0]
      calc uj.toNat % halfRadix + halfRadix * hval r.1 (j + k + 1) c +
            halfRadix ^ (c + 1) * r.2.toNat
          = uj.toNat % halfRadix +
            halfRadix * (hval r.1 (j + k + 1) c + halfRadix ^ c * r.2.toNat) := by ring
        _ = (uj.toNat % halfRadix + halfRadix * cy₁.toNat) +
            halfRadix * (hval u (j + k + 1) c + hval v (k + 1) c) := by rw [hval']; ring
        _ = _ := by rw [← hcarry.2, huj]; ring

/-! ### The quotient digit -/

/-- A divisor of `n` digits whose leading digit is at least half the base.  If it has a single
digit then the upper half of its word is zero. -/
structure Normalized (v : Mem) (n : ℕ) : Prop where
  pos : 0 < n
  top : halfRadix ≤ 2 * hdig v (n - 1)
  one : n = 1 → hdig v 1 = 0

variable {v : Mem} {n : ℕ}

theorem Normalized.hval_pos (h : Normalized v n) : 0 < hval v 0 n := by
  obtain ⟨k, rfl⟩ : ∃ k, n = k + 1 := ⟨n - 1, by have := h.pos; omega⟩
  have htop := h.top
  rw [Nat.add_sub_cancel] at htop
  have := halfRadix_pos
  rw [hval_top, Nat.zero_add]
  have h2 : 0 < halfRadix ^ k * hdig v k := Nat.mul_pos (Nat.pow_pos halfRadix_pos) (by omega)
  omega

theorem clipEstimate_spec (vn1 qq rr : Word) {uu : ℕ} (huu : uu < 2 ^ 64)
    (h : qq.toNat * vn1.toNat + rr.toNat = uu) :
    let r := clipEstimate vn1 qq rr
    r.1.toNat < halfRadix ∧ r.1.toNat * vn1.toNat + r.2.toNat = uu ∧
      ∀ q, q ≤ qq.toNat → q < halfRadix → q ≤ r.1.toNat := by
  fun_induction clipEstimate vn1 qq rr with
  | case1 qq rr hge ih =>
    have h1 : halfRadix ≤ qq.toNat := hge
    have hpos := halfRadix_pos
    have hsub := toNat_sub_one (hpos.trans_le h1)
    have hmul : qq.toNat * vn1.toNat = (qq.toNat - 1) * vn1.toNat + vn1.toNat := by
      rw [← Nat.succ_mul, succ_eq_add_one, Nat.sub_add_cancel (by omega)]
    have hadd : (rr + vn1).toNat = rr.toNat + vn1.toNat := by
      rw [toNat_add, mod_eq_of_lt (by omega)]
    obtain ⟨h2, h3, h4⟩ := ih (by rw [hsub, hadd]; omega)
    exact ⟨h2, h3, fun q hq hlt => h4 q (by omega) hlt⟩
  | case2 qq rr hlt =>
    have h1 : qq.toNat < halfRadix := Nat.lt_of_not_le hlt
    exact ⟨h1, h, fun q hq _ => hq⟩

theorem adjust_test_iff (vn2 ud qq rr : Word) (hv : vn2.toNat < halfRadix)
    (hud : ud.toNat < halfRadix) (hqq : qq.toNat < halfRadix) :
    (qq * vn2 > (rr <<< 32) + ud ∧ rr < halfWord) ↔
      rr.toNat * halfRadix + ud.toNat < qq.toNat * vn2.toNat ∧ rr.toNat < halfRadix := by
  have hmul : (qq * vn2).toNat = qq.toNat * vn2.toNat := by
    rw [toNat_mul, mod_eq_of_lt (mul_lt_word hqq hv)]
  have hlt : rr < halfWord ↔ rr.toNat < halfRadix := by rw [lt_def, toNat_halfWord]
  rw [hlt]
  refine and_congr_left fun hrr => ?_
  have hadd : ((rr <<< 32) + ud).toNat = rr.toNat * halfRadix + ud.toNat := by
    rw [toNat_add, toNat_shl]
    rw [halfRadix] at *
    rw [radix]
    omega
  rw [gt_iff_lt, lt_def, hmul, hadd]

section Estimate

variable {v₁ v₂ u₂ V P W uu : ℕ}

/-- The second loop ends with the digit or one more, from an estimate that is not too small. -/
theorem adjustEstimate_spec (vn1 vn2 ud qq rr : Word) (h1 : vn1.toNat = v₁)
    (h2 : vn2.toNat = v₂) (hud : ud.toNat = u₂) (hv₂ : v₂ < halfRadix) (hu₂ : u₂ < halfRadix)
    (hv₁ : 0 < v₁) (hVlo : (v₁ * halfRadix + v₂) * P ≤ V)
    (hVhi : V < (v₁ * halfRadix + v₂ + 1) * P) (hWlo : (uu * halfRadix + u₂) * P ≤ W)
    (hWhi : W < (uu * halfRadix + u₂ + 1) * P) (hV : 0 < V) (huu : uu < 2 ^ 64)
    (hqr : qq.toNat * v₁ + rr.toNat = uu) (hqq : qq.toNat < halfRadix) (hge : W / V ≤ qq.toNat) :
    let r := adjustEstimate vn1 vn2 ud qq rr
    r.1.toNat ≤ qq.toNat ∧ W / V ≤ r.1.toNat ∧ r.1.toNat * V < W + V := by
  fun_induction adjustEstimate vn1 vn2 ud qq rr with
  | case1 qq rr htest ih =>
    rw [adjust_test_iff _ _ _ _ (h2 ▸ hv₂) (hud ▸ hu₂) hqq, h2, hud] at htest
    -- the estimate is too large
    have hbig := (Nat.div_lt_iff_lt_mul hV).2
      (LongDivision.lt_mul_of_test hVlo hWhi hqr htest.1)
    have hsub := toNat_sub_one (zero_lt_of_lt hbig)
    have hmul : qq.toNat * v₁ = (qq.toNat - 1) * v₁ + v₁ := by
      rw [← Nat.succ_mul, succ_eq_add_one, Nat.sub_add_cancel (one_le_of_lt hbig)]
    have hadd : (rr + vn1).toNat = rr.toNat + v₁ := by
      rw [toNat_add, h1, mod_eq_of_lt (by omega)]
    obtain ⟨h3, h4, h5⟩ := ih (by rw [hsub, hadd]; omega) (by rw [hsub]; omega)
      (by rw [hsub]; exact le_sub_one_of_lt hbig)
    exact ⟨by omega, h4, h5⟩
  | case2 qq rr htest =>
    rw [adjust_test_iff _ _ _ _ (h2 ▸ hv₂) (hud ▸ hu₂) hqq, h2, hud, not_and_or, not_lt,
      not_lt] at htest
    refine ⟨le_rfl, hge, ?_⟩
    rcases Nat.eq_zero_or_pos qq.toNat with h0 | hpos
    · rw [h0]
      omega
    rcases htest with htest | hrr
    · refine LongDivision.mul_lt_of_test hVhi hWlo hqr htest hpos ?_
      calc qq.toNat * P ≤ halfRadix * P := Nat.mul_le_mul_right _ hqq.le
        _ ≤ (v₁ * halfRadix + v₂) * P :=
          Nat.mul_le_mul_right _ ((Nat.le_mul_of_pos_left _ hv₁).trans (Nat.le_add_right _ _))
        _ ≤ V := hVlo
    · have hV' : V < (v₁ + 1) * (halfRadix * P) := hVhi.trans_le (by
        rw [← Nat.mul_assoc]
        refine Nat.mul_le_mul_right _ ?_
        rw [Nat.add_mul]
        omega)
      have hU' : uu * (halfRadix * P) ≤ W := (by
        rw [← Nat.mul_assoc]
        exact Nat.mul_le_mul_right _ (Nat.le_add_right _ _) :
          uu * (halfRadix * P) ≤ (uu * halfRadix + u₂) * P).trans hWlo
      have hle := LongDivision.mul_le_of_rem hV' hU' hqr hqq hrr
      exact hle.trans_lt (Nat.lt_add_of_pos_right hV)

end Estimate

theorem leading_toNat (u : Mem) (i : ℕ) :
    ((digit u ((i + 1 : ℕ) : ℤ) <<< 32) + digit u (i : ℤ)).toNat =
      hdig u (i + 1) * halfRadix + hdig u i := by
  have h1 := hdig_lt u (i + 1)
  have h0 := hdig_lt u i
  rw [toNat_add, toNat_shl, digit_natCast, digit_natCast]
  rw [halfRadix] at *
  rw [radix]
  omega

theorem firstEstimate_lt (u : Mem) (n : ℕ) (vn1 : Word) (j : ℕ) :
    (firstEstimate u n vn1 j).1.toNat < halfRadix := by
  set uu := (digit u (j + n) <<< 32) + digit u (j + n - 1) with huu
  exact (clipEstimate_spec vn1 (uu / vn1) (uu % vn1) uu.isLt
    (by rw [toNat_udiv, toNat_umod, Nat.mul_comm, div_add_mod])).1

theorem adjustEstimate_le (vn1 vn2 ud qq rr : Word) :
    (adjustEstimate vn1 vn2 ud qq rr).1.toNat ≤ qq.toNat := by
  fun_induction adjustEstimate vn1 vn2 ud qq rr with
  | case1 qq rr htest ih =>
    have hsub := toNat_sub_one (pos_of_lt_mul htest.1)
    omega
  | case2 => exact le_rfl

theorem digit_lt (m : Mem) (i : ℤ) : (digit m i).toNat < halfRadix := by
  rw [digit]
  split_ifs
  · rw [toNat_hi]
    exact div_halfRadix_lt _
  · exact lo_lt _

/-- **The estimate is below the base, and it is the quotient digit or one more.** -/
theorem estimateDigit_spec (hv : Normalized v n) (u : Mem) (j : ℕ)
    (hlt : hval u j (n + 1) < halfRadix * hval v 0 n) :
    let qq := (estimateDigit u n (digit v (n - 1)) (digit v (n - 2)) j).toNat
    qq < halfRadix ∧ hval u j (n + 1) / hval v 0 n ≤ qq ∧
      qq * hval v 0 n < hval u j (n + 1) + hval v 0 n := by
  have hVpos := hv.hval_pos
  have hq : hval u j (n + 1) / hval v 0 n < halfRadix := (Nat.div_lt_iff_lt_mul hVpos).2 hlt
  obtain ⟨k, rfl⟩ : ∃ k, n = k + 1 := ⟨n - 1, by have := hv.pos; omega⟩
  have hv1 : ((k + 1 : ℕ) : ℤ) - 1 = (k : ℤ) := by push_cast; ring
  have hu1 : (j : ℤ) + ((k + 1 : ℕ) : ℤ) = ((j + k + 1 : ℕ) : ℤ) := by push_cast; ring
  have hu2 : ((j + k + 1 : ℕ) : ℤ) - 1 = ((j + k : ℕ) : ℤ) := by push_cast; ring
  simp only [estimateDigit, firstEstimate, hv1, hu1, hu2]
  set uuw := (digit u ((j + k + 1 : ℕ) : ℤ) <<< 32) + digit u ((j + k : ℕ) : ℤ) with huuw
  have huu : uuw.toNat = hdig u (j + k + 1) * halfRadix + hdig u (j + k) := leading_toNat u (j + k)
  set vn1 := digit v (k : ℤ) with hvn1
  have hvn : vn1.toNat = hdig v k := digit_natCast v k
  have htop := hv.top
  rw [Nat.add_sub_cancel] at htop
  have hR := halfRadix_pos
  have hv0 : 0 < hdig v k := by omega
  obtain ⟨hc1, hc2, hc3⟩ := clipEstimate_spec vn1 (uuw / vn1) (uuw % vn1) uuw.isLt
    (by rw [toNat_udiv, toNat_umod, Nat.mul_comm, div_add_mod])
  set cl := clipEstimate vn1 (uuw / vn1) (uuw % vn1)
  -- the leading digits of both numbers, over the weight of the digits below
  have hVtop : hval v 0 (k + 1) = hval v 0 k + halfRadix ^ k * hdig v k := by
    rw [hval_top, Nat.zero_add]
  have hWtop : hval u j (k + 1 + 1) = hval u j k + halfRadix ^ k * uuw.toNat := by
    rw [hval, show k + 1 + 1 = k + 2 from rfl, seg_append, seg_succ, seg_one, huu]
    change hval u j k + _ = _
    rw [Nat.add_comm (hdig u (j + k + 1) * halfRadix), Nat.mul_comm halfRadix]
  have hWk := hval_lt u j k
  have hclip : hval u j (k + 1 + 1) / hval v 0 (k + 1) ≤ cl.1.toNat := by
    refine hc3 _ ?_ hq
    -- dividing only the leading digits never gives less
    rw [toNat_udiv, hvn, hVtop, hWtop]
    refine (div_le_div_left (Nat.le_add_left _ _) (by positivity)).trans ?_
    rw [← Nat.div_div_eq_div_mul, add_mul_div_left _ _ (Nat.pow_pos hR),
      div_eq_of_lt hWk, Nat.zero_add]
  rcases Nat.eq_zero_or_pos k with rfl | hk
  · -- a single digit: the estimate is exact and the second loop does nothing
    have hone := hv.one rfl
    have hz : digit v (((0 + 1 : ℕ) : ℤ) - 2) = 0 := by
      refine eq_of_toNat_eq ?_
      have h1 : (digit v (((0 + 1 : ℕ) : ℤ) - 2)).toNat = hdig v 1 := by
        rw [digit, hdig, if_pos (by decide), if_neg (by decide), toNat_hi]
        rfl
      rw [h1, hone]
      rfl
    have hstop : adjustEstimate vn1 (digit v (((0 + 1 : ℕ) : ℤ) - 2))
        (digit u (((j + 0 + 1 : ℕ) : ℤ) - 2)) cl.1 cl.2 = cl := by
      rw [adjustEstimate, hz, dif_neg]
      rintro ⟨h, -⟩
      simp [lt_def] at h
    rw [hstop]
    refine ⟨hc1, hclip, ?_⟩
    have h0 : hval v 0 (0 + 1) = hdig v 0 := by simp [hval]
    have h1 : hval u j (0 + 1 + 1) = uuw.toNat := by rw [hWtop]; simp [hval]
    rw [h0, h1, ← hvn]
    omega
  · obtain _ | l := k
    · omega
    have hv2 : ((l + 1 + 1 : ℕ) : ℤ) - 2 = (l : ℤ) := by push_cast; ring
    have hu3 : ((j + (l + 1) + 1 : ℕ) : ℤ) - 2 = ((j + l : ℕ) : ℤ) := by push_cast; ring
    rw [hv2, hu3]
    have hV' : hval v 0 (l + 1 + 1) =
        hval v 0 l + (hdig v (l + 1) * halfRadix + hdig v l) * halfRadix ^ l := by
      rw [hVtop, hval_top, Nat.zero_add]
      ring
    have hW' : hval u j (l + 1 + 1 + 1) =
        hval u j l + (uuw.toNat * halfRadix + hdig u (j + l)) * halfRadix ^ l := by
      rw [hWtop, hval_top]
      ring
    have h1 := hval_lt v 0 l
    have h2 := hval_lt u j l
    obtain ⟨h3, h4, h5⟩ := adjustEstimate_spec vn1 (digit v (l : ℤ)) (digit u ((j + l : ℕ) : ℤ))
      cl.1 cl.2 hvn (digit_natCast v l) (digit_natCast u (j + l)) (hdig_lt _ _) (hdig_lt _ _) hv0
      (by rw [hV']; exact Nat.le_add_left _ _)
      (by rw [hV', Nat.add_mul _ 1]; omega) (by rw [hW']; exact Nat.le_add_left _ _)
      (by rw [hW', Nat.add_mul _ 1]; omega) hVpos uuw.isLt (by rw [← hvn]; exact hc2) hc1 hclip
    exact ⟨by omega, h4, h5⟩

/-! ### One iteration -/

variable {vn1 vn2 : Word}

theorem kunuthDigit_of_borrow {j : ℕ} {u : Mem}
    (h : (mulSubLoop v (estimateDigit u n vn1 vn2 j) j n 0 u 0).2 ≠ 0) :
    kunuthDigit v n vn1 vn2 j u =
      let t := addBackLoop v j n 0 (mulSubLoop v (estimateDigit u n vn1 vn2 j) j n 0 u 0).1 0
      (setDigit t.1 (j + n) (digit t.1 (j + n) + t.2), estimateDigit u n vn1 vn2 j - 1) :=
  if_pos h

theorem addBack_spec (v : Mem) (n j : ℕ) (u : Mem) :
    let t := addBackLoop v j n 0 u 0
    let r := setDigit t.1 (j + n) (digit t.1 (j + n) + t.2)
    (∀ i, i < j ∨ j + (n + 1) ≤ i → hdig r i = hdig u i) ∧
      hval r j (n + 1) = (hval u j (n + 1) + hval v 0 n) % halfRadix ^ (n + 1) := by
  intro t r
  obtain ⟨hc, hout, hval'⟩ := addBackLoop_spec v j n 0 u 0 (by decide)
  rw [show (0 : Word).toNat = 0 from rfl] at hval'
  simp only [Nat.add_zero] at hout hval'
  have hdig_t := hdig_lt t.1 (j + n)
  have hsum : (digit t.1 (j + n) + t.2).toNat = hdig t.1 (j + n) + t.2.toNat := by
    have h := digit_natCast t.1 (j + n)
    push_cast at h
    rw [toNat_add, h, mod_eq_of_lt]
    rw [halfRadix] at hdig_t
    have : t.2.toNat ≤ 1 := hc
    omega
  have hr : ∀ i, hdig r i =
      if i = j + n then (hdig t.1 (j + n) + t.2.toNat) % halfRadix else hdig t.1 i := fun i => by
    rw [hdig_setDigit, hsum]
  have htop : hdig t.1 (j + n) = hdig u (j + n) := hout _ (by omega)
  refine ⟨fun i hi => ?_, ?_⟩
  · rw [hr, if_neg (by omega), hout i (by omega)]
  · have hlow : hval r j n = hval t.1 j n := hval_congr fun i h1 h2 => by
      rw [hr, if_neg (by omega)]
    have hlt := hval_lt t.1 j n
    rw [hval_top, hlow, hr, if_pos rfl, hval_top, ← htop]
    change hval t.1 j n + halfRadix ^ n * t.2.toNat = _ at hval'
    have hsum' : hval u j n + halfRadix ^ n * hdig t.1 (j + n) + hval v 0 n =
        hval t.1 j n + halfRadix ^ n * (hdig t.1 (j + n) + t.2.toNat) := by
      calc _ = (hval u j n + hval v 0 n) + halfRadix ^ n * hdig t.1 (j + n) := by ring
        _ = _ := by rw [← hval']; ring
    rw [hsum', pow_succ, mod_mul, add_mul_mod_self_left, mod_eq_of_lt hlt,
      add_mul_div_left _ _ (Nat.pow_pos halfRadix_pos), div_eq_of_lt hlt, Nat.zero_add]

/-- **One iteration finds the exact quotient digit** and leaves the remainder in its digits of
the dividend. -/
theorem kunuthDigit_spec (hv : Normalized v n) (u : Mem) (j : ℕ)
    (hlt : hval u j (n + 1) < halfRadix * hval v 0 n) :
    let r := kunuthDigit v n (digit v (n - 1)) (digit v (n - 2)) j u
    r.2.toNat = hval u j (n + 1) / hval v 0 n ∧
      (∀ i, i < j ∨ j + (n + 1) ≤ i → hdig r.1 i = hdig u i) ∧
      hval r.1 j (n + 1) = hval u j (n + 1) % hval v 0 n := by
  obtain ⟨hq, hge, hup⟩ := estimateDigit_spec hv u j hlt
  set qq := estimateDigit u n (digit v (n - 1)) (digit v (n - 2)) j
  obtain ⟨b, hb, hcy, hout, hsub⟩ := mulSubLoop_spec v qq hq j n 0 u 0 0 (Nat.zero_le _) rfl
  simp only [Nat.add_zero, Nat.zero_mul] at hout hsub
  set s := mulSubLoop v qq j n 0 u 0
  set W := hval u j (n + 1)
  set V := hval v 0 n
  have hVpos : 0 < V := hv.hval_pos
  have hslt : hval s.1 j (n + 1) < halfRadix ^ (n + 1) := hval_lt s.1 j (n + 1)
  have hVlt : V < halfRadix ^ n := hval_lt v 0 n
  have hdm := div_add_mod W V
  have hmod := mod_lt W hVpos
  rw [Nat.mul_comm] at hdm
  have hest := LongDivision.estimate_bounds hVpos hge hup
  rcases Nat.eq_zero_or_pos b with rfl | hbpos
  · -- no borrow: the estimate was exact
    have hs0 : ¬ s.2 ≠ 0 := by
      rw [Classical.not_not]
      exact eq_of_toNat_eq (by simpa using hcy)
    rw [show kunuthDigit v n (digit v (n - 1)) (digit v (n - 2)) j u = (s.1, qq) from if_neg hs0]
    have hexact : qq.toNat = W / V := by
      rcases hest with h | h
      · exact h
      · rw [h, Nat.add_mul, Nat.one_mul] at hsub
        omega
    refine ⟨hexact, hout, ?_⟩
    change hval s.1 j (n + 1) = W % V
    rw [hexact] at hsub
    omega
  · obtain rfl : b = 1 := by omega
    have hs1 : s.2 ≠ 0 := fun h => by
      rw [h] at hcy
      simp [halfRadix] at hcy
    rw [kunuthDigit_of_borrow hs1]
    -- the estimate was one too large
    have hexact : qq.toNat = W / V + 1 := by
      rcases hest with h | h
      · rw [h] at hsub
        omega
      · exact h
    obtain ⟨hout', hback⟩ := addBack_spec v n j s.1
    refine ⟨?_, fun i hi => ?_, ?_⟩
    · change (qq - 1).toNat = _
      rw [toNat_sub_one (hexact ▸ succ_pos _), hexact, Nat.add_sub_cancel]
    · exact (hout' i hi).trans (hout i hi)
    · refine hback.trans ?_
      have hpow : halfRadix ^ n ≤ halfRadix ^ (n + 1) :=
        Nat.pow_le_pow_right halfRadix_pos (le_succ n)
      rw [hexact, Nat.add_mul, Nat.one_mul, Nat.one_mul] at hsub
      have hsum : hval s.1 j (n + 1) + V = W % V + halfRadix ^ (n + 1) := by omega
      rw [hsum, add_mod_right, mod_eq_of_lt (by omega)]

/-! ### The main loop -/

/-- `P` holds at the start of every iteration of the main loop for the digits below `j`. -/
def EveryIteration (P : ℕ → Mem → Prop) (v : Mem) (n : ℕ) (vn1 vn2 : Word) :
    ℕ → Mem × Option Mem → Prop
  | 0, _ => True
  | j + 1, s => P j s.1 ∧ EveryIteration P v n vn1 vn2 j (kunuthStep v n vn1 vn2 j s)

/-- With a divisor `v`, the main loop for the digits below `J` divides the number that `value` reads
in the dividend, and in every iteration the digit's lemma applies. -/
def LoopDivides (value : Mem → ℕ) (v : Mem) (n J : ℕ) (u : Mem) (dp : Option Mem) : Prop :=
  let r := kunuthLoop v n (digit v (n - 1)) (digit v (n - 2)) J (u, dp)
  EveryIteration (fun j u => hval u j (n + 1) < halfRadix * hval v 0 n) v n (digit v (n - 1))
      (digit v (n - 2)) J (u, dp) ∧
    value r.1 < hval v 0 n ∧
    ∃ Q, value u = Q * hval v 0 n + value r.1 ∧
      ∀ p, dp = some p → ∃ p', r.2 = some p' ∧ hval p' 0 J = Q ∧
        ∀ i, J ≤ i → hdig p' i = hdig p i

/-- **The main loop**: `J` quotient digits and the rest of the dividend. -/
theorem kunuthLoop_spec (hv : Normalized v n) (J : ℕ) (u : Mem) (dp : Option Mem)
    (hlt : hval u 0 (J + n) < halfRadix ^ J * hval v 0 n) :
    LoopDivides (hval · 0 (J + n)) v n J u dp ∧ ∀ i, J + n ≤ i →
      hdig (kunuthLoop v n (digit v (n - 1)) (digit v (n - 2)) J (u, dp)).1 i = hdig u i := by
  induction J generalizing u dp with
  | zero =>
    refine ⟨⟨trivial, by simpa [kunuthLoop] using hlt, 0, by simp [kunuthLoop], fun p hp => ?_⟩,
      fun _ _ => rfl⟩
    exact ⟨p, by rw [kunuthLoop, hp], rfl, fun _ _ => rfl⟩
  | succ J ih =>
    have hVpos := hv.hval_pos
    have hsplit : ∀ m : Mem, hval m 0 (J + 1 + n) =
        hval m 0 J + halfRadix ^ J * hval m J (n + 1) := fun m => by
      rw [Nat.add_right_comm, Nat.add_assoc, hval_append, Nat.zero_add]
    -- the digits that the iteration works on
    have hW : hval u J (n + 1) < halfRadix * hval v 0 n := by
      rw [hsplit, pow_succ, Nat.mul_assoc] at hlt
      exact Nat.lt_of_mul_lt_mul_left (lt_of_le_of_lt (le_add_left _ _) hlt)
    obtain ⟨hq, hout, hrem⟩ := kunuthDigit_spec hv u J hW
    simp only [LoopDivides, kunuthLoop, kunuthStep]
    set k := kunuthDigit v n (digit v (n - 1)) (digit v (n - 2)) J u with hk
    set W := hval u J (n + 1)
    set V := hval v 0 n
    have hVlt : V < halfRadix ^ n := hval_lt v 0 n
    -- the top digit of the remainder is zero
    have htop : hval k.1 J n = W % V ∧ hdig k.1 (J + n) = 0 := by
      have h1 : hval k.1 J n + halfRadix ^ n * hdig k.1 (J + n) = W % V + halfRadix ^ n * 0 := by
        rw [Nat.mul_zero, Nat.add_zero, ← hrem, hval_top]
      exact split_inj (hval_lt _ _ _) ((mod_lt W hVpos).trans hVlt) h1
    have hlow : hval k.1 0 J = hval u 0 J := hval_congr fun i _ hi => hout i (by omega)
    have hnew : hval k.1 0 (J + n) = hval u 0 J + halfRadix ^ J * (W % V) := by
      rw [hval_append, Nat.zero_add, hlow, htop.1]
    obtain ⟨⟨hevery, hlt', Q, hQ, hdp⟩, hout'⟩ := ih k.1 (dp.map fun p => setDigit p J k.2)
      (by rw [hnew]; exact LongDivision.step_lt hVpos (hval_lt u 0 J))
    dsimp only at hQ
    set r := kunuthLoop v n (digit v (n - 1)) (digit v (n - 2)) J
      (k.1, dp.map fun p => setDigit p J k.2)
    have hrtop : hval r.1 0 (J + 1 + n) = hval r.1 0 (J + n) := by
      rw [Nat.add_right_comm, hval_top, Nat.zero_add, hout' _ le_rfl, htop.2, Nat.mul_zero,
        Nat.add_zero]
    refine ⟨⟨⟨hW, hevery⟩, ?_, Q + halfRadix ^ J * (W / V), ?_, fun p hp => ?_⟩, fun i hi => ?_⟩
    · rw [hrtop]
      exact hlt'
    · rw [hrtop, hsplit u, LongDivision.step_eq, ← hnew, hQ]
      ring
    · obtain ⟨p', hp', hval', hkeep⟩ := hdp (setDigit p J k.2) (by rw [hp]; rfl)
      refine ⟨p', hp', ?_, fun i hi => ?_⟩
      · rw [hval_top, Nat.zero_add, hkeep J le_rfl, hdig_setDigit, if_pos rfl, hq,
          mod_eq_of_lt ((div_lt_iff_lt_mul hVpos).2 hW), hval']
      · rw [hkeep i (by omega), hdig_setDigit, if_neg (by omega)]
    · rw [hout' i (by omega), hout i (by omega)]

/-! ### Normalization -/

theorem toNat_one_shl {k : ℕ} (hk : k < 64) : ((1 : Word) <<< k).toNat = 2 ^ k := by
  rw [toNat_shl, show (1 : Word).toNat = 1 from rfl, Nat.one_mul, radix,
    mod_eq_of_lt (Nat.pow_lt_pow_right (by norm_num) hk)]

theorem divNormalizationLoop_spec (k c : ℕ) (hk : k + c = 64)
    (hw : w.toNat < 2 ^ k) (h0 : w.toNat ≠ 0) :
    let d := divNormalizationLoop w k ((1 : Word) <<< (k - 1)) c
    d < 64 ∧ 2 ^ 63 ≤ w.toNat * 2 ^ d ∧ w.toNat * 2 ^ d < 2 ^ 64 := by
  induction k generalizing c with
  | zero => omega
  | succ k ih =>
    simp only [divNormalizationLoop, Nat.add_sub_cancel]
    have hbit : w &&& ((1 : Word) <<< k) ≠ 0 ↔ 2 ^ k ≤ w.toNat := by
      have hnat : (w &&& ((1 : Word) <<< k)).toNat = w.toNat &&& 2 ^ k := by
        rw [toNat_and, toNat_one_shl (by omega)]
      rw [ne_eq, ← toNat_inj, hnat, and_two_pow]
      rcases Nat.lt_or_ge w.toNat (2 ^ k) with h | h
      · simp [testBit_lt_two_pow h, h]
      · simp [testBit_of_two_pow_le_and_two_pow_add_one_gt h hw, h]
    by_cases h : 2 ^ k ≤ w.toNat
    · rw [if_pos (hbit.2 h)]
      have hpow : 2 ^ k * 2 ^ c = 2 ^ 63 := by rw [← pow_add]; congr 1; omega
      have hpow' : 2 ^ (k + 1) * 2 ^ c = 2 ^ 64 := by rw [← pow_add]; congr 1
      refine ⟨by omega, ?_, ?_⟩
      · rw [← hpow]
        exact mul_le_mul_right _ h
      · rw [← hpow']
        exact Nat.mul_lt_mul_of_pos_right hw (by positivity)
    · rw [if_neg (mt hbit.1 h)]
      obtain _ | l := k
      · rw [pow_zero] at h
        omega
      have hshift : (1 : Word) <<< (l + 1) >>> 1 = (1 : Word) <<< l := by
        refine eq_of_toNat_eq ?_
        rw [toNat_shr, toNat_one_shl (by omega), toNat_one_shl (by omega), pow_one, pow_succ,
          Nat.mul_div_cancel _ (by norm_num)]
      rw [hshift]
      exact ih (c + 1) (by omega) (by omega)

theorem divNormalizationFactor_spec {w : Word} (h : w ≠ 0) :
    divNormalizationFactor w < 64 ∧ 2 ^ 63 ≤ w.toNat * 2 ^ divNormalizationFactor w ∧
      w.toNat * 2 ^ divNormalizationFactor w < 2 ^ 64 :=
  divNormalizationLoop_spec w 64 0 rfl w.isLt fun h0 => h (eq_of_toNat_eq h0)

theorem radix_eq_sq : radix = halfRadix ^ 2 := by simp [radix, halfRadix]

theorem radix_pow_eq (k : ℕ) : radix ^ k = halfRadix ^ (2 * k) := by rw [radix_eq_sq, pow_mul]

variable {ysize d : ℕ}

/-- The shift makes the divisor a normalized number of `n` digits. -/
theorem kunuthShift_spec (yp : Ptr) (hy : 0 < ysize) (htop : yp.mem (ysize - 1) ≠ 0)
    (hs : kunuthShift yp ysize = (n, d)) :
    0 < n ∧ n ≤ 2 * ysize ∧ 2 * ysize ≤ n + 1 ∧ d < 32 ∧
      halfRadix ^ n ≤ 2 * (wval yp.mem 0 ysize * 2 ^ d) ∧
      wval yp.mem 0 ysize * 2 ^ d < halfRadix ^ n := by
  obtain ⟨hd, hlo, hhi⟩ := divNormalizationFactor_spec htop
  set f := divNormalizationFactor (yp.mem (ysize - 1)) with hf
  obtain _ | k := ysize
  · omega
  set w := (yp.mem k).toNat
  set Y := wval yp.mem 0 (k + 1) with hYdef
  have hY : Y = wval yp.mem 0 k + radix ^ k * w := by rw [hYdef, wval_top, Nat.zero_add]
  have hlow := wval_lt yp.mem 0 k
  -- the shifted number, between half a power of the base and the power
  have hge : radix ^ k * 2 ^ 63 ≤ Y * 2 ^ f := by
    calc radix ^ k * 2 ^ 63 ≤ radix ^ k * (w * 2 ^ f) := mul_le_mul_left _ hlo
      _ = radix ^ k * w * 2 ^ f := (Nat.mul_assoc _ _ _).symm
      _ ≤ _ := mul_le_mul_right _ (by omega)
  have hlt : Y * 2 ^ f < radix ^ k * 2 ^ 64 := by
    -- the top word shifted is a multiple of `2 ^ f`, so that there is room below it
    have hroom : (w + 1) * 2 ^ f ≤ 2 ^ 64 := by
      have hdvd : 2 ^ 64 = 2 ^ (64 - f) * 2 ^ f := by rw [← pow_add]; congr 1; omega
      rw [hdvd] at hhi ⊢
      exact mul_le_mul_right _ (Nat.lt_of_mul_lt_mul_right hhi)
    calc Y * 2 ^ f < (radix ^ k * (w + 1)) * 2 ^ f :=
          Nat.mul_lt_mul_of_pos_right (by rw [hY, Nat.mul_add]; omega) (by positivity)
      _ = radix ^ k * ((w + 1) * 2 ^ f) := Nat.mul_assoc _ _ _
      _ ≤ _ := mul_le_mul_left _ hroom
  change (if f ≥ 32 then ((k + 1) * 2 - 1, f - 32) else ((k + 1) * 2, f)) = (n, d) at hs
  split_ifs at hs with h32 <;> obtain ⟨rfl, rfl⟩ := Prod.mk.inj hs
  · have hpow : 2 ^ f = 2 ^ (f - 32) * 2 ^ 32 := by rw [← pow_add]; congr 1; omega
    have hn : halfRadix ^ ((k + 1) * 2 - 1) = radix ^ k * 2 ^ 32 := by
      rw [show (k + 1) * 2 - 1 = 2 * k + 1 by omega, pow_succ, ← radix_pow_eq, halfRadix]
    rw [hpow, ← Nat.mul_assoc] at hge hlt
    rw [hn]
    omega
  · have hn : halfRadix ^ ((k + 1) * 2) = radix ^ k * 2 ^ 64 := by
      rw [Nat.mul_comm, ← radix_pow_eq, pow_succ, radix]
    rw [hn]
    omega

theorem kunuth_divisor (yp : Ptr) (hy : 0 < ysize) (htop : yp.mem (ysize - 1) ≠ 0)
    (hs : kunuthShift yp ysize = (n, d)) :
    let v := (mpLshift (g.zeros 1 ysize) ysize (.ptr yp) ysize d).val
    Normalized v.mem n ∧ hval v.mem 0 n = wval yp.mem 0 ysize * 2 ^ d := by
  intro v
  obtain ⟨hn, hn2, hn2', hd, hlo, hhi⟩ := kunuthShift_spec yp hy htop hs
  obtain ⟨-, hval'⟩ := mpLshift_spec (g.zeros 1 ysize) ysize (.ptr yp)
    ysize d hy (by omega)
  rw [show mpLshiftLen ysize ysize d = ysize by rw [mpLshiftLen]; omega, Src.mem_ptr,
    radix_pow_eq, mod_eq_of_lt (hhi.trans_le (Nat.pow_le_pow_right halfRadix_pos hn2)),
    wval_eq_hval] at hval'
  set V := wval yp.mem 0 ysize * 2 ^ d
  -- the digits above the `n`-th are zero
  obtain ⟨k, hk⟩ := Nat.exists_eq_add_of_le hn2
  have hsplit : hval v.mem 0 n + halfRadix ^ n * hval v.mem n k = V + halfRadix ^ n * 0 := by
    rw [Nat.mul_zero, Nat.add_zero, ← hval', hk, hval_append, Nat.zero_add]
  obtain ⟨hV, hzero⟩ := split_inj (hval_lt _ _ _) hhi hsplit
  refine ⟨⟨hn, ?_, fun h1 => ?_⟩, hV⟩
  · obtain ⟨l, hl⟩ : ∃ l, n = l + 1 := ⟨n - 1, by omega⟩
    rw [hl] at hV hlo ⊢
    have hlt := hval_lt v.mem 0 l
    rw [Nat.add_sub_cancel]
    rw [← hV, hval_top, Nat.zero_add, pow_succ] at hlo
    have h2 : halfRadix ^ l * halfRadix < halfRadix ^ l * (2 * (hdig v.mem l + 1)) := by
      calc _ ≤ _ := hlo
        _ < 2 * (halfRadix ^ l + halfRadix ^ l * hdig v.mem l) := by omega
        _ = _ := by ring
    have h3 := Nat.lt_of_mul_lt_mul_left h2
    rw [halfRadix] at *
    omega
  · obtain rfl : k = 1 := by omega
    rw [h1] at hzero
    simpa [hval] using hzero

/-! ### The whole division -/

theorem EveryIteration.mono {P Q : ℕ → Mem → Prop} (himp : ∀ j u, P j u → Q j u) {J : ℕ}
    {s : Mem × Option Mem} (h : EveryIteration P v n vn1 vn2 J s) :
    EveryIteration Q v n vn1 vn2 J s := by
  induction J generalizing s with
  | zero => trivial
  | succ J ih => exact ⟨himp _ _ h.1, ih h.2⟩

theorem kunuthLoop_words (hv : Normalized v n) (xsize : ℕ) (u : Mem) (dp : Option Mem)
    (hlt : wval u 0 (xsize + 1) < halfRadix ^ (2 * xsize + 1 - n) * hval v 0 n)
    (htop : wval u 0 (xsize + 1) < halfRadix ^ (2 * xsize + 1)) :
    LoopDivides (wval · 0 (xsize + 1)) v n (2 * xsize + 1 - n) u dp := by
  set J := 2 * xsize + 1 - n
  rcases Nat.lt_or_ge (2 * xsize + 1) n with hshort | hlong
  · -- the dividend has fewer digits than the divisor
    have hJ : J = 0 := by omega
    have hlt' : wval u 0 (xsize + 1) < hval v 0 n := by
      rwa [hJ, pow_zero, Nat.one_mul] at hlt
    rw [hJ]
    exact ⟨trivial, hlt', 0, by simp [kunuthLoop], fun p hp =>
      ⟨p, by rw [kunuthLoop, hp], rfl, fun _ _ => rfl⟩⟩
  · have hJ : J + n = 2 * xsize + 1 := by omega
    have hsplit : ∀ m : Mem, wval m 0 (xsize + 1) = hval m 0 (J + n) +
        halfRadix ^ (J + n) * hdig m (J + n) := fun m => by
      rw [wval_eq_hval, show 2 * (xsize + 1) = J + n + 1 by omega, hval_top, Nat.zero_add]
    obtain ⟨hU, hzero⟩ : hval u 0 (J + n) = wval u 0 (xsize + 1) ∧ hdig u (J + n) = 0 :=
      split_inj (hval_lt _ _ _) (by rwa [hJ]) (by rw [← hsplit, Nat.mul_zero]; rfl)
    obtain ⟨⟨hevery, hrem, Q, hQ, hdp⟩, hout⟩ := kunuthLoop_spec hv J u dp (by rw [hU]; exact hlt)
    have hend := hsplit (kunuthLoop v n (digit v (n - 1)) (digit v (n - 2)) J (u, dp)).1
    rw [hout _ le_rfl, hzero, Nat.mul_zero, Nat.add_zero] at hend
    refine ⟨hevery, hend.trans_lt hrem, Q, ?_, hdp⟩
    dsimp only
    rw [← hU, hend]
    exact hQ

theorem kunuth_dividend (rem xp : Ptr) (xsize : ℕ) {d : ℕ} (hd : d < 32)
    (hrem : rem.mem xsize = 0) :
    wval (mpLshift rem (xsize + 1) (.ptr xp) xsize d).val.mem 0 (xsize + 1) =
      wval xp.mem 0 xsize * 2 ^ d := by
  rcases Nat.eq_zero_or_pos xsize with rfl | hx
  · simp [mpLshift, hrem]
  obtain ⟨hout, hval'⟩ := mpLshift_spec rem (xsize + 1) (.ptr xp) xsize d
    hx (by omega)
  rw [Src.mem_ptr] at hval'
  rcases Nat.eq_zero_or_pos d with rfl | hpos
  · rw [show mpLshiftLen (xsize + 1) xsize 0 = xsize by rw [mpLshiftLen]; omega] at hout hval'
    rw [wval_top, Nat.zero_add, hval', hout xsize (by omega), hrem, pow_zero, Nat.mul_one,
      mod_eq_of_lt (wval_lt _ _ _)]
    simp
  · rw [show mpLshiftLen (xsize + 1) xsize d = xsize + 1 by rw [mpLshiftLen]; omega] at hval'
    rw [hval', mod_eq_of_lt]
    calc _ < radix ^ xsize * radix := Nat.mul_lt_mul_of_lt_of_le (wval_lt _ _ _)
          (by rw [radix]; exact Nat.pow_le_pow_right (by norm_num) (by omega)) radix_pos
      _ = _ := (pow_succ _ _).symm

theorem kunuthSetup_iterations (rem : Option Ptr) (xp : Ptr) (xsize : ℕ) (yp : Ptr)
    (ysize : ℕ) : (kunuthSetup g rem xp xsize yp ysize).iterations =
      2 * xsize + 1 - (kunuthShift yp ysize).1 := by
  change ((xsize * 2 - (kunuthShift yp ysize).1 + 1 : ℤ)).toNat = _
  omega

theorem kunuth_reach {U V xsize : ℕ} (hV : halfRadix ^ n ≤ 2 * V)
    (hU : 2 * U < halfRadix ^ (2 * xsize + 1)) : U < halfRadix ^ (2 * xsize + 1 - n) * V := by
  rcases Nat.lt_or_ge (2 * xsize + 1) n with hshort | hlong
  · have := Nat.pow_le_pow_right halfRadix_pos hshort.le
    rw [show 2 * xsize + 1 - n = 0 by omega, pow_zero, Nat.one_mul]
    omega
  · have h : halfRadix ^ (2 * xsize + 1) ≤ 2 * (halfRadix ^ (2 * xsize + 1 - n) * V) := by
      calc _ = halfRadix ^ (2 * xsize + 1 - n) * halfRadix ^ n := by
            rw [← pow_add, Nat.sub_add_cancel hlong]
        _ ≤ halfRadix ^ (2 * xsize + 1 - n) * (2 * V) := mul_le_mul_left _ hV
        _ = _ := by ring
    omega

variable {words : ℕ}

theorem kunuth_quotient {p p' : Mem} {J Q : ℕ} (hJ : J ≤ 2 * words) (hp : ∀ i, i < words → p i = 0)
    (hQ : hval p' 0 J = Q) (hkeep : ∀ i, J ≤ i → hdig p' i = hdig p i) : wval p' 0 words = Q := by
  obtain ⟨k, hk⟩ := Nat.exists_eq_add_of_le hJ
  have hzero : hval p' J k = 0 := seg_eq_zero fun i h1 h2 => by
    rw [hkeep i h1, hdig, hp (i / 2) (by omega)]
    split_ifs <;> simp
  rw [wval_eq_hval, hk, hval_append, Nat.zero_add, hzero, Nat.mul_zero, Nat.add_zero, hQ]

/-- The division of whatever number `mp_lshift` left in the remainder buffer. -/
theorem mpDivRemKunuth_of_dividend (dp : Mem) (rem xp : Ptr) (xsize : ℕ) (yp : Ptr)
    (hy : 1 ≤ ysize) (htop : yp.mem (ysize - 1) ≠ 0) (hwords : xsize + 1 - ysize ≤ words)
    (hdp : ∀ i, i < words → dp i = 0) {X : ℕ} : let s := kunuthSetup g (some rem) xp xsize yp ysize
    let vn1 := digit s.v.mem (s.n - 1)
    let vn2 := digit s.v.mem (s.n - 2)
    let r := mpDivRemKunuth g (some dp) (some rem) xp xsize yp ysize
    wval s.u.mem 0 (xsize + 1) = X * 2 ^ s.d →
    2 * (X * 2 ^ s.d) < halfRadix ^ (2 * xsize + 1) →
    r.2.2 = xsize + 1 ∧
    (∃ q, r.1 = some q ∧
      X = wval q 0 words * wval yp.mem 0 ysize + wval r.2.1.mem 0 r.2.2 ∧
      wval r.2.1.mem 0 r.2.2 < wval yp.mem 0 ysize) ∧
    EveryIteration (fun j u => hval u j (s.n + 1) < halfRadix * hval s.v.mem 0 s.n)
      s.v.mem s.n vn1 vn2 s.iterations (s.u.mem, some dp) := by
  intro s vn1 vn2 r hU hX
  have hs : kunuthShift yp ysize = (s.n, s.d) := rfl
  obtain ⟨-, -, hn2, hd, hlo, -⟩ := kunuthShift_spec yp hy htop hs
  obtain ⟨hnorm, hV⟩ : Normalized s.v.mem s.n ∧ hval s.v.mem 0 s.n =
      wval yp.mem 0 ysize * 2 ^ s.d :=
    kunuth_divisor g yp hy htop hs
  have hit : s.iterations = 2 * xsize + 1 - s.n := kunuthSetup_iterations _ _ _ _ _ _
  rw [← hV] at hlo
  rw [← hU] at hX
  obtain ⟨hevery, hRlt, Q, hQ, hq⟩ := kunuthLoop_words hnorm xsize s.u.mem (some dp)
    (kunuth_reach hlo hX) (by omega)
  dsimp only at hRlt hQ
  obtain ⟨q, hq1, hq2, hq3⟩ := hq dp rfl
  -- the remainder is shifted back
  set l := kunuthLoop s.v.mem s.n vn1 vn2 (2 * xsize + 1 - s.n) (s.u.mem, some dp) with hl
  have hr : r = (l.2, (mpRshift ⟨l.1, s.u.size⟩ .self (xsize + 1) s.d).val) := by
    rw [hl, ← hit]
    rfl
  obtain ⟨hsize, -, hval'⟩ := mpRshift_spec ⟨l.1, s.u.size⟩ .self (xsize + 1)
    s.d (by omega)
  rw [show s.d / 64 = 0 by omega, Nat.sub_zero] at hsize hval'
  refine ⟨by rw [hr]; exact hsize, ⟨q, ?_⟩, by rw [hit]; exact hevery⟩
  rw [hr]
  refine ⟨hq1, ?_⟩
  simp only [hsize, hval', Src.mem_self]
  rw [kunuth_quotient (by omega) hdp hq2 hq3]
  -- dividend, divisor and remainder are multiples of the shift
  have hpow : 0 < 2 ^ s.d := by positivity
  rw [hU, hV, ← Nat.mul_assoc] at hQ
  rw [hV] at hRlt
  set R := wval l.1 0 (xsize + 1)
  change X * 2 ^ s.d = Q * wval yp.mem 0 ysize * 2 ^ s.d + R at hQ
  change R < wval yp.mem 0 ysize * 2 ^ s.d at hRlt
  refine ⟨?_, (div_lt_iff_lt_mul hpow).2 hRlt⟩
  have h := congrArg (· / 2 ^ s.d) hQ
  simp only [Nat.mul_div_cancel _ hpow] at h
  rw [h, Nat.add_comm, add_mul_div_right _ _ hpow, Nat.add_comm]

theorem kunuth_dividend_lt (xp : Ptr) (xsize : ℕ) {d : ℕ} (hd : d < 32) :
    2 * (wval xp.mem 0 xsize * 2 ^ d) < halfRadix ^ (2 * xsize + 1) := by
  have hpow : 2 * 2 ^ d ≤ halfRadix := by
    rw [← pow_succ', halfRadix]
    exact Nat.pow_le_pow_right (by norm_num) hd
  calc _ = wval xp.mem 0 xsize * (2 * 2 ^ d) := by ring
    _ ≤ wval xp.mem 0 xsize * halfRadix := mul_le_mul_left _ hpow
    _ < radix ^ xsize * halfRadix := Nat.mul_lt_mul_of_pos_right (wval_lt _ _ _) halfRadix_pos
    _ = _ := by rw [radix_pow_eq, pow_succ]

theorem kunuthLoop_fst (v : Mem) (n : ℕ) (vn1 vn2 : Word) (J : ℕ) (u : Mem)
    (dp dp' : Option Mem) :
    (kunuthLoop v n vn1 vn2 J (u, dp)).1 = (kunuthLoop v n vn1 vn2 J (u, dp')).1 := by
  induction J generalizing u dp dp' with
  | zero => rfl
  | succ J ih => exact ih _ _ _

theorem mpDivRemKunuth_snd (dp dp' : Option Mem) (rem : Option Ptr) (xp : Ptr)
    (xsize : ℕ) (yp : Ptr) (ysize : ℕ) :
    (mpDivRemKunuth g dp rem xp xsize yp ysize).2 =
      (mpDivRemKunuth g dp' rem xp xsize yp ysize).2 := by
  simp only [mpDivRemKunuth]
  rw [kunuthLoop_fst _ _ _ _ _ _ dp dp']

theorem mpDivRemKunuth_quotient (dp : Mem) (rem xp : Ptr) (xsize : ℕ) (yp : Ptr)
    (hy : 1 ≤ ysize) (htop : yp.mem (ysize - 1) ≠ 0) (hwords : xsize + 1 - ysize ≤ words)
    (hdp : ∀ i, i < words → dp i = 0) (hrem : rem.mem xsize = 0) :
    ∃ q, (mpDivRemKunuth g (some dp) (some rem) xp xsize yp ysize).1 = some q ∧
      wval q 0 words = wval xp.mem 0 xsize / wval yp.mem 0 ysize := by
  obtain ⟨-, -, -, hd, -⟩ := kunuthShift_spec yp hy htop rfl
  obtain ⟨-, ⟨q, hq, hX, hlt⟩, -⟩ := mpDivRemKunuth_of_dividend g dp rem xp xsize yp hy htop hwords
    hdp (kunuth_dividend rem xp xsize hd hrem) (kunuth_dividend_lt xp xsize hd)
  refine ⟨q, hq, ?_⟩
  rw [hX, Nat.add_comm, add_mul_div_right _ _ (by omega), div_eq_of_lt hlt, Nat.zero_add]

theorem mpDivRemKunuth_remainder (dp : Option Mem) (rem xp : Ptr) (xsize : ℕ) (yp : Ptr)
    (hy : 1 ≤ ysize) (htop : yp.mem (ysize - 1) ≠ 0) (hrem : rem.mem xsize = 0) :
    let r := mpDivRemKunuth g dp (some rem) xp xsize yp ysize
    r.2.2 = xsize + 1 ∧ wval r.2.1.mem 0 r.2.2 = wval xp.mem 0 xsize % wval yp.mem 0 ysize := by
  intro r
  obtain ⟨-, -, -, hd, -⟩ := kunuthShift_spec yp hy htop rfl
  obtain ⟨hsize, ⟨q, -, hX, hlt⟩, -⟩ := mpDivRemKunuth_of_dividend g (fun _ => 0) rem xp xsize yp hy
    htop le_rfl (fun _ _ => rfl) (kunuth_dividend rem xp xsize hd hrem)
    (kunuth_dividend_lt xp xsize hd)
  have hr : r.2 = _ := mpDivRemKunuth_snd g dp (some fun _ => 0) (some rem) xp xsize yp ysize
  rw [hr]
  refine ⟨hsize, ?_⟩
  rw [hX, Nat.add_comm, add_mul_mod_self_right, mod_eq_of_lt hlt]

/-- **`mp_div_rem_kunuth` divides**, for any lengths, if the quotient buffer and the last word of
the remainder buffer are zero; in every iteration the digit is exact and the products of the
estimate with digits of the divisor fit into a word. -/
theorem mpDivRemKunuth_divides (g : Junk) (dp : Mem) (rem xp : Ptr) (xsize : ℕ) (yp : Ptr)
    (ysize : ℕ) (hy : 1 ≤ ysize) (htop : yp.mem (ysize - 1) ≠ 0)
    (hdp : ∀ i, i < xsize + 1 - ysize → dp i = 0) (hrem : rem.mem xsize = 0) :
    let s := kunuthSetup g (some rem) xp xsize yp ysize
    let vn1 := digit s.v.mem (s.n - 1)
    let vn2 := digit s.v.mem (s.n - 2)
    let r := mpDivRemKunuth g (some dp) (some rem) xp xsize yp ysize
    (∃ q, r.1 = some q ∧
      wval xp.mem 0 xsize =
        wval q 0 (xsize + 1 - ysize) * wval yp.mem 0 ysize + wval r.2.1.mem 0 r.2.2 ∧
      wval r.2.1.mem 0 r.2.2 < wval yp.mem 0 ysize) ∧
    EveryIteration (fun j u =>
      (kunuthDigit s.v.mem s.n vn1 vn2 j u).2.toNat =
        hval u j (s.n + 1) / hval s.v.mem 0 s.n ∧
      (estimateDigit u s.n vn1 vn2 j).toNat ≤ (firstEstimate u s.n vn1 j).1.toNat ∧
      ∀ q, q ≤ (firstEstimate u s.n vn1 j).1.toNat →
        q * vn2.toNat < 2 ^ 64 ∧ ∀ k, q * hdig s.v.mem k < 2 ^ 64)
      s.v.mem s.n vn1 vn2 s.iterations (s.u.mem, some dp) := by
  intro s vn1 vn2 r
  obtain ⟨-, -, -, hd, -⟩ := kunuthShift_spec yp hy htop rfl
  obtain ⟨hnorm, -⟩ := kunuth_divisor g yp hy htop rfl
  obtain ⟨-, hdiv, hevery⟩ := mpDivRemKunuth_of_dividend g dp rem xp xsize yp hy htop le_rfl hdp
    (kunuth_dividend rem xp xsize hd hrem) (kunuth_dividend_lt xp xsize hd)
  refine ⟨hdiv, hevery.mono fun j u hju => ⟨(kunuthDigit_spec hnorm u j hju).1,
    adjustEstimate_le _ _ _ _ _, fun q hq => ?_⟩⟩
  have hb : q < halfRadix := hq.trans_lt (firstEstimate_lt u s.n vn1 j)
  exact ⟨mul_lt_word hb (digit_lt _ _), fun k => mul_lt_word hb (hdig_lt _ _)⟩

/-- Two words by one, with a divisor below `2 ^ 32`. -/
theorem mpDivRemKunuth_divides_two_by_one :
    let r := mpDivRemKunuth (fun _ _ => 0) (some fun _ => 0) (some ⟨fun _ => 0, 3⟩)
      ⟨fun i => if i = 0 then 5 else 7, 2⟩ 2 ⟨fun _ => 3, 1⟩ 1
    ∃ q, r.1 = some q ∧
      wval (fun i => if i = 0 then 5 else 7) 0 2 =
        wval q 0 2 * wval (fun _ => 3) 0 1 + wval r.2.1.mem 0 r.2.2 ∧
      wval r.2.1.mem 0 r.2.2 < wval (fun _ => 3) 0 1 :=
  (mpDivRemKunuth_divides (fun _ _ => 0) (fun _ => 0) ⟨fun _ => 0, 3⟩
    ⟨fun i => if i = 0 then 5 else 7, 2⟩ 2 ⟨fun _ => 3, 1⟩ 1 (by decide) (by decide)
    (fun _ _ => rfl) rfl).1

/-- A divisor with its top bit set is not shifted, and `mp_lshift` leaves the last word of the
remainder buffer alone: with a `1` in there the dividend `0` is divided as `2 ^ 64`. -/
theorem mpDivRemKunuth_stale_remainder :
    let r := mpDivRemKunuth (fun _ _ => 0) (some fun _ => 0)
      (some ⟨fun i => if i = 1 then 1 else 0, 2⟩) ⟨fun _ => 0, 1⟩ 1
      ⟨fun _ => 0x8000000000000000, 1⟩ 1
    wval (fun _ => 0) 0 1 = 0 ∧
      ∃ q, r.1 = some q ∧
        wval q 0 1 * wval (fun _ => 0x8000000000000000) 0 1 + wval r.2.1.mem 0 r.2.2 =
          2 ^ 64 := by
  intro r
  set yp : Ptr := ⟨fun _ => 0x8000000000000000, 1⟩
  set xp : Ptr := ⟨fun _ => 0, 1⟩
  set rem : Ptr := ⟨fun i => if i = 1 then 1 else 0, 2⟩
  have hu : wval (kunuthSetup (fun _ _ => 0) (some rem) xp 1 yp 1).u.mem 0 2 = 2 ^ 64 := by decide
  have hd : (kunuthSetup (fun _ _ => 0) (some rem) xp 1 yp 1).d = 0 := by decide
  obtain ⟨-, ⟨q, hq, hval', -⟩, -⟩ := mpDivRemKunuth_of_dividend (fun _ _ => 0) (fun _ => 0) rem
    xp 1 yp le_rfl (by decide) (show 1 + 1 - 1 ≤ 1 from le_rfl) (fun _ _ => rfl)
    (by rw [hd, hu, pow_zero, Nat.mul_one]) (by rw [hd]; norm_num [halfRadix])
  have hr : r = mpDivRemKunuth (fun _ _ => 0) (some fun _ => 0) (some rem) xp 1 yp 1 := rfl
  rw [← hr] at hq hval'
  exact ⟨by simp, q, hq, hval'.symm⟩

end Sagittarius
