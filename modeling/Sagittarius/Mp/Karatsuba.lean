import Sagittarius.Mp.Mul

/-!
# Karatsuba multiplication

`mp_mul_rec` and the mutually recursive `karatsuba`.  Operands that are long enough and not too
different in length are split at half the longer length, the upper parts are multiplied right
into the result, and the two other products are made in temporary buffers.

`karatsuba` never clears the result: the words below the product of the upper parts have to be
zero when it is called, and so have, in the part handed to the recursive call, the words that
call needs to be zero.  `mulNeed` counts those words.

* `karatsubaCombine_spec` : the subtractions and additions after the three multiplications;
* `karatsuba_spec` : one level of the recursion adds the product to the low words of the result;
* `mpMulRec_of_clean` : the product is right if the `mulNeed` lowest words are zero;
* `mpMulRec_eq_longMul` : on a cleared result `mp_mul_rec` does what `long_mul` does.
-/

namespace Sagittarius

open Function Sagittarius.Acc Ptr

/-! ### The functions -/

/-- The least length for Karatsuba's method. -/
def karatsubaLowLimit : ℕ := (1600 >>> 3) / 8

/-- Both operands are long enough. -/
def canKaratsuba (xlen ylen : ℕ) : Bool :=
  if xlen < karatsubaLowLimit ∨ ylen < karatsubaLowLimit then false
  else
    let n := max xlen ylen / 2
    decide (n < xlen ∧ n < ylen)

theorem canKaratsuba_iff {xlen ylen : ℕ} : canKaratsuba xlen ylen = true ↔
    25 ≤ xlen ∧ 25 ≤ ylen ∧ max xlen ylen / 2 < xlen ∧ max xlen ylen / 2 < ylen := by
  rw [canKaratsuba, show karatsubaLowLimit = 25 by decide]
  split_ifs with h
  · simp only [false_iff]
    omega
  · rw [decide_eq_true_iff]
    omega

section

variable (xp : Ptr) (xsize : ℕ) (yp : Ptr) (ysize : ℕ)

theorem mpSafeSizeForAdd_bounds :
    max xsize ysize ≤ (mpSafeSizeForAdd xp xsize yp ysize).val ∧
      (mpSafeSizeForAdd xp xsize yp ysize).val ≤ max xsize ysize + 1 := by
  rw [mpSafeSizeForAdd_val]
  split_ifs <;> omega

theorem mpSafeSizeForAdd_comm :
    (mpSafeSizeForAdd xp xsize yp ysize).val = (mpSafeSizeForAdd yp ysize xp xsize).val := by
  rw [mpSafeSizeForAdd_val, mpSafeSizeForAdd_val]
  split_ifs <;> omega

end

/-- The sum of the halves `a` and `b` of an operand, in a buffer of `len` words of which only
the last one is cleared. -/
def karatsubaSum (buf : Ptr) (len : ℕ) (a : Ptr) (alen : ℕ) (b : Ptr) (n : ℕ) : Acc Ptr := do
  let s ← buf.wr (len - 1) 0
  let (s, _) ← if alen ≥ n then mpAdd s len (.ptr a) alen b n else mpAdd s len (.ptr b) n a alen
  return s

/-- The statements of `karatsuba` after the three multiplications. -/
def karatsubaCombine (rp : Ptr) (rsize n2 aclen : ℕ) (adbc : Ptr) (n adbclen : ℕ) (bd : Ptr) :
    Acc Ptr := do
  -- 3 - 1 - 2
  let (q, _) ← mpSub (adbc.off n) adbclen .self adbclen (rp.off n2) aclen
  let adbc := adbc.putBack n q
  let (q, _) ← mpSub (adbc.off n) adbclen .self adbclen bd n2
  let adbc := adbc.putBack n q
  -- combine
  let (rp, _) ← mpAdd rp rsize .self (aclen + n2) adbc (adbclen + n)
  let (rp, _) ← mpAdd rp rsize .self rsize bd n2
  return rp

mutual

/-- Three products of halves. -/
def karatsuba (g : Junk) (rp : Ptr) (rsize : ℕ) (xp : Ptr) (xsize : ℕ) (yp : Ptr) (ysize : ℕ)
    (_h : canKaratsuba xsize ysize = true) : Acc Ptr := do
  let n := max xsize ysize / 2
  let n2 := 2 * n
  let alen := xsize - n
  let clen := ysize - n
  let a := xp.off n
  let b := xp
  let c := yp.off n
  let d := yp
  let apblen ← (mpSafeSizeForAdd a alen b n).attach
  let cpdlen ← (mpSafeSizeForAdd c clen d n).attach
  let adbclen := apblen.1 + cpdlen.1
  let aclen := alen + clen
  let adbc := g.zeros 0 (adbclen + n)
  let bd := g.zeros 1 n2
  let apb ← karatsubaSum (g.buf 2 apblen.1) apblen.1 a alen b n
  let cpd ← karatsubaSum (g.buf 3 cpdlen.1) cpdlen.1 c clen d n
  let ac ← mpMulRec (g.sub 4) (rp.off n2) aclen a alen c clen
  let rp := rp.putBack n2 ac
  let bd ← mpMulRec (g.sub 5) bd n2 b n d n
  let q ← mpMulRec (g.sub 6) (adbc.off n) adbclen apb apblen.1 cpd cpdlen.1
  let adbc := adbc.putBack n q
  karatsubaCombine rp rsize n2 aclen adbc n adbclen bd
termination_by (xsize + ysize, 0)
decreasing_by
  all_goals
    have h1 := mpSafeSizeForAdd_bounds a alen b n
    have h2 := mpSafeSizeForAdd_bounds c clen d n
    have h3 := apblen.2
    have h4 := cpdlen.2
    rw [canKaratsuba_iff] at _h
    omega

/-- The product by Karatsuba's or the school method. -/
def mpMulRec (g : Junk) (rp : Ptr) (rsize : ℕ) (xp : Ptr) (xsize : ℕ) (yp : Ptr) (ysize : ℕ) :
    Acc Ptr :=
  if h : canKaratsuba xsize ysize = true then karatsuba g rp rsize xp xsize yp ysize h
  else longMul rp xp xsize yp ysize
termination_by (xsize + ysize, 1)

end

/-- `mp_mul`; how much stack is left only decides where the buffers are allocated. -/
def mpMul (g : Junk) (rp : Ptr) (rsize : ℕ) (xp : Ptr) (xsize : ℕ) (yp : Ptr) (ysize : ℕ) :
    Acc Ptr :=
  mpMulRec g rp rsize xp xsize yp ysize

/-- How many of the lowest words of the result have to be zero for `mp_mul_rec`. -/
def mulNeed (xlen ylen : ℕ) : ℕ :=
  if _h : canKaratsuba xlen ylen = true then
    let n := max xlen ylen / 2
    2 * n + mulNeed (xlen - n) (ylen - n)
  else 0
termination_by xlen + ylen
decreasing_by
  rw [canKaratsuba_iff] at _h
  omega

theorem mulNeed_le (xlen ylen : ℕ) : mulNeed xlen ylen ≤ xlen + ylen := by
  fun_induction mulNeed xlen ylen with
  | case1 x y h n ih =>
    rw [canKaratsuba_iff] at h
    omega
  | case2 => omega

/-! ### Sums of halves -/

theorem karatsubaSum_val (buf : Ptr) (len : ℕ) (a : Ptr) (alen : ℕ) (b : Ptr) (n : ℕ) :
    (karatsubaSum buf len a alen b n).val =
      if alen ≥ n then (mpAdd (buf.wr (len - 1) 0).val len (.ptr a) alen b n).val.1
      else (mpAdd (buf.wr (len - 1) 0).val len (.ptr b) n a alen).val.1 := by
  simp only [karatsubaSum, val_bind, val_pure, val_ite]

theorem karatsubaSum_spec (buf a : Ptr) (alen : ℕ) (b : Ptr) (n : ℕ) {len : ℕ} (ha : 0 < alen)
    (hn : 0 < n) (hlen : len = (mpSafeSizeForAdd a alen b n).val) :
    wval (karatsubaSum buf len a alen b n).val.mem 0 len =
        wval a.mem 0 alen + wval b.mem 0 n := by
  have h0 : (buf.wr (len - 1) 0).val.mem (len - 1) = 0 := by simp
  rw [karatsubaSum_val]
  split_ifs with h
  · exact (mpAdd_safe (buf.wr (len - 1) 0).val a alen b n hn h hlen h0).2
  · obtain ⟨-, hval⟩ := mpAdd_safe (buf.wr (len - 1) 0).val b n a alen ha (by omega)
      (hlen.trans (mpSafeSizeForAdd_comm _ _ _ _)) h0
    exact hval.trans (Nat.add_comm _ _)

/-! ### Putting the three products together -/

theorem mpSub_putBack (p : Ptr) (n : ℕ) {len : ℕ} (yp : Ptr) {ysize : ℕ} (hy : 0 < ysize)
    (hle : ysize ≤ len) :
    let r := p.putBack n (mpSub (p.off n) len .self len yp ysize).val.1
    ∃ b, SameOutside p.mem r.mem n len ∧
      wval r.mem n len + wval yp.mem 0 ysize = wval p.mem n len + radix ^ len * b := by
  obtain ⟨b, -, -, hout, hval⟩ := mpSub_spec (p.off n) len .self len yp ysize hy hle le_rfl
  refine ⟨b, sameOutside_putBack hout, ?_⟩
  rw [wval_putBack, hval, Src.mem_self, wval_off]

/-- An addition in place that fits into the operand, also of a number that is written with more
words than it needs. -/
theorem mpAdd_self_fits {xsize ysize : ℕ} (rp : Ptr) (rsize : ℕ) (yp : Ptr) (hy : 0 < ysize)
    (hfit : wval rp.mem 0 xsize + wval yp.mem 0 ysize < radix ^ xsize) :
    SameOutside rp.mem (mpAdd rp rsize .self xsize yp ysize).val.1.mem 0 xsize ∧
      wval (mpAdd rp rsize .self xsize yp ysize).val.1.mem 0 xsize =
        wval rp.mem 0 xsize + wval yp.mem 0 ysize := by
  rcases Nat.lt_or_ge xsize ysize with hlt | hge
  · exact mpAdd_self_of_lt rp rsize yp hlt hfit
  · exact (mpAdd_noCarry rp rsize .self yp hy hge hfit).2

/-- What the statements after the three multiplications leave: `A` is `3 - 1 - 2` modulo a power of
the radix, and `W` what the words of the result below the first product hold before. -/
theorem karatsubaCombine_spec (rp : Ptr) (rsize n2 aclen : ℕ) (adbc : Ptr) (n adbclen : ℕ)
    (bd : Ptr) {W P Q S A k : ℕ} (hn2 : 0 < n2) (hac : 0 < aclen) (hsum : aclen + n2 = rsize)
    (hac' : aclen ≤ adbclen) (hn2' : n2 ≤ adbclen)
    (hlow : wval rp.mem 0 n2 = W) (hP : wval rp.mem n2 aclen = P)
    (hQ : wval bd.mem 0 n2 = Q) (hadbc : ∀ j, j < n → adbc.mem j = 0)
    (hS : wval adbc.mem n adbclen = S) (hA : A + P + Q = S + radix ^ adbclen * k)
    (hAlt : A < radix ^ adbclen)
    (hfit : W + radix ^ n2 * P + radix ^ n * A + Q < radix ^ rsize) :
    let r := (karatsubaCombine rp rsize n2 aclen adbc n adbclen bd).val
    SameOutside rp.mem r.mem 0 rsize ∧
      wval r.mem 0 rsize = W + radix ^ n2 * P + radix ^ n * A + Q := by
  simp only [karatsubaCombine, val_bind, val_pure]
  have hPoff : wval (rp.off n2).mem 0 aclen = P := by rw [wval_off, hP]
  -- 3 - 1
  obtain ⟨b1, hout1, hval1⟩ := mpSub_putBack adbc n (rp.off n2) hac hac'
  set adbc₁ := adbc.putBack n (mpSub (adbc.off n) adbclen .self adbclen (rp.off n2) aclen).val.1
  -- 3 - 1 - 2
  obtain ⟨b2, hout2, hval2⟩ := mpSub_putBack adbc₁ n bd hn2 hn2'
  set adbc₂ := adbc₁.putBack n (mpSub (adbc₁.off n) adbclen .self adbclen bd n2).val.1
  have hval3 : wval adbc₂.mem n adbclen = A := by
    -- both are below the power of the radix
    have hlt := wval_lt adbc₂.mem n adbclen
    have heq : wval adbc₂.mem n adbclen + radix ^ adbclen * k =
        A + radix ^ adbclen * (b1 + b2) := by
      rw [Nat.mul_add]
      omega
    have h := congrArg (· % radix ^ adbclen) heq
    simpa [Nat.add_mul_mod_self_left, Nat.mod_eq_of_lt hlt, Nat.mod_eq_of_lt hAlt] using h
  have hadbc2 : wval adbc₂.mem 0 (adbclen + n) = radix ^ n * A := by
    rw [Nat.add_comm, wval_cleared_append fun j hj => ?_, hval3, Nat.mul_comm]
    rw [hout2 j (by omega), hout1 j (by omega), hadbc j hj]
  have hrp : wval rp.mem 0 (aclen + n2) = W + radix ^ n2 * P := by
    rw [Nat.add_comm, wval_append, hlow, Nat.zero_add, hP]
  -- the two additions
  have hfit1 : wval rp.mem 0 (aclen + n2) + wval adbc₂.mem 0 (adbclen + n) <
      radix ^ (aclen + n2) := by
    rw [hrp, hadbc2, hsum]
    omega
  obtain ⟨hout3, hval3⟩ := mpAdd_self_fits rp rsize adbc₂ (by omega) hfit1
  set rp₁ := (mpAdd rp rsize .self (aclen + n2) adbc₂ (adbclen + n)).val.1
  rw [hrp, hadbc2] at hval3
  rw [hsum] at hval3 hout3
  have hfit2 : wval rp₁.mem 0 rsize + wval bd.mem 0 n2 < radix ^ rsize := by rwa [hval3, hQ]
  obtain ⟨hout4, hval4⟩ := mpAdd_self_fits rp₁ rsize bd hn2 hfit2
  refine ⟨hout3.trans hout4, ?_⟩
  rw [hval4, hval3, hQ]

/-! ### The size of a buffer does not change -/

section Sizes

variable (rp : Ptr) (xp : Src) (yp inp : Ptr)

variable (k len i : ℕ)

@[simp] theorem mpAddNLoop_size (t : DWord) :
    (mpAddNLoop xp yp k i rp t).val.1.size = rp.size := by
  induction k generalizing i rp t with
  | zero => rfl
  | succ k ih => simp [mpAddNLoop, ih]

@[simp] theorem mpAddN_size : (mpAddN rp xp yp len).val.1.size = rp.size := by
  simp [mpAddN]

@[simp] theorem mpAddCarry_size (c : Int) :
    (mpAddCarry xp k i rp c).val.1.size = rp.size := by
  induction k generalizing i rp c with
  | zero => rfl
  | succ k ih =>
    rw [mpAddCarry, val_ite]
    split_ifs <;> simp [ih]

@[simp] theorem mpCopy_size : (mpCopy xp k i rp).val.size = rp.size := by
  induction k generalizing i rp with
  | zero => rfl
  | succ k ih => simp [mpCopy, ih]

@[simp] theorem mpAddWords_size (xsize ysize : ℕ) :
    (mpAddWords rp xp xsize yp ysize).val.1.size = rp.size := by
  simp [mpAddWords]

@[simp] theorem mpAdd_val_size (rsize xsize ysize : ℕ) :
    (mpAdd rp rsize xp xsize yp ysize).val.1.size = rp.size := by
  rw [mpAdd_val]
  split_ifs <;> simp

@[simp] theorem mpSubNLoop_size (t : DWord) :
    (mpSubNLoop xp yp k i rp t).val.1.size = rp.size := by
  induction k generalizing i rp t with
  | zero => rfl
  | succ k ih => simp [mpSubNLoop, ih]

@[simp] theorem mpSubN_size : (mpSubN rp xp yp len).val.1.size = rp.size := by
  simp [mpSubN]

@[simp] theorem mpSubBorrow_size (c : Int) :
    (mpSubBorrow xp k i rp c).val.1.size = rp.size := by
  induction k generalizing i rp c with
  | zero => rfl
  | succ k ih =>
    rw [mpSubBorrow, val_ite]
    split_ifs <;> simp [ih]

@[simp] theorem mpMulUlLoop_size (y : Word) (k i : ℕ) (p : DWord) :
    (mpMulUlLoop inp y k i rp p).val.1.size = rp.size := by
  induction k generalizing i rp p with
  | zero => rfl
  | succ k ih => simp [mpMulUlLoop, ih]

@[simp] theorem mpMulUl_size (xsize : ℕ) (y : Word) :
    (mpMulUl rp inp xsize y).val.size = rp.size := by
  simp [mpMulUl]

@[simp] theorem longMulLoop_size (xsize n i : ℕ) :
    (longMulLoop inp xsize yp n i rp).val.size = rp.size := by
  induction n generalizing i rp with
  | zero => rfl
  | succ n ih => simp [longMulLoop, ih]

@[simp] theorem karatsubaSum_size (a : Ptr) (alen : ℕ) (b : Ptr) (n : ℕ) :
    (karatsubaSum rp len a alen b n).val.size = rp.size := by
  rw [karatsubaSum_val]
  split_ifs <;> simp

@[simp] theorem mpMulRec_size (g : Junk) (rsize : ℕ) (xp : Ptr) (xsize ysize : ℕ) :
    (mpMulRec g rp rsize xp xsize yp ysize).val.size = rp.size := by
  rw [mpMulRec]
  split_ifs with h
  · rw [karatsuba]
    simp [karatsubaCombine]
  · simp [longMul]

end Sizes

/-! ### The product -/

/-- What `mp_mul_rec` is to do on operands of given lengths. -/
def MulCorrect (xsize ysize : ℕ) : Prop :=
  ∀ (g : Junk) (rp xp yp : Ptr), (∀ j, j < mulNeed xsize ysize → rp.mem j = 0) →
    let r := (mpMulRec g rp (xsize + ysize) xp xsize yp ysize).val
    r.size = rp.size ∧ SameOutside rp.mem r.mem 0 (xsize + ysize) ∧
      wval r.mem 0 (xsize + ysize) = wval xp.mem 0 xsize * wval yp.mem 0 ysize

theorem karatsuba_product (xp yp : Ptr) (n alen clen : ℕ) :
    radix ^ (2 * n) * (wval xp.mem n alen * wval yp.mem n clen) +
        radix ^ n * (wval xp.mem n alen * wval yp.mem 0 n + wval xp.mem 0 n * wval yp.mem n clen) +
        wval xp.mem 0 n * wval yp.mem 0 n =
      wval xp.mem 0 (n + alen) * wval yp.mem 0 (n + clen) := by
  rw [wval_append xp.mem, wval_append yp.mem, Nat.zero_add]
  ring

theorem karatsuba_of_upper {n alen clen : ℕ} (hn : max (n + alen) (n + clen) / 2 = n)
    (h : canKaratsuba (n + alen) (n + clen) = true)
    (ih : ∀ x y, 0 < x → 0 < y → x + y < n + alen + (n + clen) → MulCorrect x y) (g : Junk)
    (rp xp yp : Ptr) {W P A k : ℕ} (hlow : wval rp.mem 0 (2 * n) = W)
    (hout : SameOutside (rp.off (2 * n)).mem (mpMulRec (g.sub 4) (rp.off (2 * n)) (alen + clen)
      (xp.off n) alen (yp.off n) clen).val.mem 0 (alen + clen))
    (hP : wval (mpMulRec (g.sub 4) (rp.off (2 * n)) (alen + clen) (xp.off n) alen (yp.off n)
      clen).val.mem 0 (alen + clen) = P)
    (hA : A + P + wval xp.mem 0 n * wval yp.mem 0 n =
      (wval xp.mem n alen + wval xp.mem 0 n) * (wval yp.mem n clen + wval yp.mem 0 n) +
        radix ^ ((mpSafeSizeForAdd (xp.off n) alen xp n).val +
          (mpSafeSizeForAdd (yp.off n) clen yp n).val) * k)
    (hAlt : A < radix ^ ((mpSafeSizeForAdd (xp.off n) alen xp n).val +
      (mpSafeSizeForAdd (yp.off n) clen yp n).val))
    (hfit : W + radix ^ (2 * n) * P + radix ^ n * A + wval xp.mem 0 n * wval yp.mem 0 n <
      radix ^ (n + alen + (n + clen))) :
    let r := (karatsuba g rp (n + alen + (n + clen)) xp (n + alen) yp (n + clen) h).val
    SameOutside rp.mem r.mem 0 (n + alen + (n + clen)) ∧
      wval r.mem 0 (n + alen + (n + clen)) =
        W + radix ^ (2 * n) * P + radix ^ n * A + wval xp.mem 0 n * wval yp.mem 0 n := by
  rw [karatsuba]
  simp only [val_bind, val_attach, hn, Nat.add_sub_cancel_left]
  rw [canKaratsuba_iff] at h
  have hba := mpSafeSizeForAdd_bounds (xp.off n) alen xp n
  have hbc := mpSafeSizeForAdd_bounds (yp.off n) clen yp n
  -- the sums of the halves
  have hapb := karatsubaSum_spec (g.buf 2 (mpSafeSizeForAdd (xp.off n) alen xp n).val) (xp.off n)
    alen xp n (by omega) (by omega) rfl
  have hcpd := karatsubaSum_spec (g.buf 3 (mpSafeSizeForAdd (yp.off n) clen yp n).val) (yp.off n)
    clen yp n (by omega) (by omega) rfl
  set apblen := (mpSafeSizeForAdd (xp.off n) alen xp n).val
  set cpdlen := (mpSafeSizeForAdd (yp.off n) clen yp n).val
  set apb := (karatsubaSum (g.buf 2 apblen) apblen (xp.off n) alen xp n).val
  set cpd := (karatsubaSum (g.buf 3 cpdlen) cpdlen (yp.off n) clen yp n).val
  rw [wval_off] at hapb hcpd
  -- the two products in cleared buffers
  obtain ⟨-, -, hbd⟩ := ih n n (by omega) (by omega) (by omega) (g.sub 5)
    (g.zeros 1 (2 * n)) xp yp
    (fun j hj => g.zeros_mem 1 (hj.trans_le ((mulNeed_le n n).trans (by omega))))
  obtain ⟨-, -, hq⟩ := ih apblen cpdlen (by omega) (by omega) (by omega) (g.sub 6)
    ((g.zeros 0 (apblen + cpdlen + n)).off n) apb cpd
    (fun j hj => g.zeros_mem 0 (by have := mulNeed_le apblen cpdlen; omega))
  rw [← two_mul] at hbd
  rw [hapb, hcpd] at hq
  set ac := (mpMulRec (g.sub 4) (rp.off (2 * n)) (alen + clen) (xp.off n) alen (yp.off n) clen).val
  set bd := (mpMulRec (g.sub 5) (g.zeros 1 (2 * n)) (2 * n) xp n yp n).val
  set q := (mpMulRec (g.sub 6) ((g.zeros 0 (apblen + cpdlen + n)).off n) (apblen + cpdlen)
    apb apblen cpd cpdlen).val
  obtain ⟨hout', hval⟩ := karatsubaCombine_spec (rp.putBack (2 * n) ac)
    (n + alen + (n + clen)) (2 * n) (alen + clen)
    ((g.zeros 0 (apblen + cpdlen + n)).putBack n q) n (apblen + cpdlen) bd
    (by omega) (by omega) (by omega) (by omega) (by omega)
    ((wval_putBack_lt _ _ _ _ (by omega)).trans hlow)
    ((wval_putBack _ _ _ _).trans hP) hbd
    (fun j hj => by rw [putBack_mem_lt _ _ _ _ hj]; exact g.zeros_mem 0 (by omega))
    ((wval_putBack _ _ _ _).trans hq) hA hAlt hfit
  refine ⟨fun j hj => ?_, hval⟩
  rw [hout' j hj, sameOutside_putBack hout j (by omega)]

/-- One level of the recursion adds the product to the words below the upper product, which need
not be zero. -/
theorem karatsuba_spec {xsize ysize : ℕ} (h : canKaratsuba xsize ysize = true)
    (ih : ∀ x y, 0 < x → 0 < y → x + y < xsize + ysize → MulCorrect x y) (g : Junk)
    (rp xp yp : Ptr)
    (hclean : ∀ j, 2 * (max xsize ysize / 2) ≤ j → j < mulNeed xsize ysize → rp.mem j = 0)
    (hfit : wval rp.mem 0 (2 * (max xsize ysize / 2)) + wval xp.mem 0 xsize * wval yp.mem 0 ysize <
      radix ^ (xsize + ysize)) :
    let r := (karatsuba g rp (xsize + ysize) xp xsize yp ysize h).val
    SameOutside rp.mem r.mem 0 (xsize + ysize) ∧
      wval r.mem 0 (xsize + ysize) = wval rp.mem 0 (2 * (max xsize ysize / 2)) +
        wval xp.mem 0 xsize * wval yp.mem 0 ysize := by
  rw [mulNeed, dif_pos h] at hclean
  have hk := canKaratsuba_iff.1 h
  obtain ⟨n, hn⟩ : ∃ n, max xsize ysize / 2 = n := ⟨_, rfl⟩
  rw [hn] at hk hclean hfit ⊢
  obtain ⟨alen, rfl⟩ : ∃ alen, xsize = n + alen := ⟨xsize - n, by omega⟩
  obtain ⟨clen, rfl⟩ : ∃ clen, ysize = n + clen := ⟨ysize - n, by omega⟩
  simp only [Nat.add_sub_cancel_left] at hclean
  obtain ⟨-, hout, hac⟩ := ih alen clen (by omega) (by omega) (by omega) (g.sub 4)
    (rp.off (2 * n)) (xp.off n) (yp.off n) (fun j hj => hclean _ (by omega) (by omega))
  rw [wval_off, wval_off] at hac
  have hprod := karatsuba_product xp yp n alen clen
  -- the middle product fits without a borrow
  have hAlt : wval xp.mem n alen * wval yp.mem 0 n + wval xp.mem 0 n * wval yp.mem n clen <
      radix ^ ((mpSafeSizeForAdd (xp.off n) alen xp n).val +
        (mpSafeSizeForAdd (yp.off n) clen yp n).val) := by
    have hapb := karatsubaSum_spec (g.buf 2 0) (xp.off n) alen xp n (by omega) (by omega) rfl
    have hcpd := karatsubaSum_spec (g.buf 3 0) (yp.off n) clen yp n (by omega) (by omega) rfl
    rw [wval_off] at hapb hcpd
    calc _ ≤ (wval xp.mem n alen + wval xp.mem 0 n) * (wval yp.mem n clen + wval yp.mem 0 n) := by
          nlinarith
      _ < _ := by
        rw [← hapb, ← hcpd, pow_add]
        exact Nat.mul_lt_mul'' (wval_lt _ _ _) (wval_lt _ _ _)
  rw [← hprod] at hfit ⊢
  obtain ⟨h2, h3⟩ := karatsuba_of_upper (k := 0) hn h ih g rp xp yp rfl hout hac
    (by ring) hAlt (by omega)
  exact ⟨h2, h3.trans (by ring)⟩

theorem mulCorrect_all (xsize ysize : ℕ) (hx : 0 < xsize) (hy : 0 < ysize) :
    MulCorrect xsize ysize := by
  induction hs : xsize + ysize using Nat.strong_induction_on generalizing xsize ysize with
  | _ s ih =>
    subst hs
    intro g rp xp yp hclean
    refine ⟨mpMulRec_size _ _ _ _ _ _ _, ?_⟩
    rw [mpMulRec]
    split_ifs with h
    · have hzero : wval rp.mem 0 (2 * (max xsize ysize / 2)) = 0 :=
        wval_eq_zero fun j _ hj => hclean j (by
          rw [mulNeed, dif_pos h]
          dsimp only
          omega)
      have hfit : wval xp.mem 0 xsize * wval yp.mem 0 ysize < radix ^ (xsize + ysize) := by
        rw [pow_add]
        exact Nat.mul_lt_mul'' (wval_lt _ _ _) (wval_lt _ _ _)
      have hspec := karatsuba_spec h (fun x y hx hy hlt => ih _ hlt x y hx hy rfl) g rp xp yp
        (fun j _ hj => hclean j hj) (by rwa [hzero, Nat.zero_add])
      rwa [hzero, Nat.zero_add] at hspec
    · exact longMul_spec rp xp hx yp hy

/-- **`mp_mul_rec`** leaves the product if the words it needs to be zero are zero. -/
theorem mpMulRec_of_clean (g : Junk) (rp xp : Ptr) {xsize : ℕ} (yp : Ptr) {ysize : ℕ}
    (hx : 0 < xsize) (hy : 0 < ysize) (hclean : ∀ j, j < mulNeed xsize ysize → rp.mem j = 0) :
    SameOutside rp.mem (mpMulRec g rp (xsize + ysize) xp xsize yp ysize).val.mem 0
        (xsize + ysize) ∧
      wval (mpMulRec g rp (xsize + ysize) xp xsize yp ysize).val.mem 0 (xsize + ysize) =
        wval xp.mem 0 xsize * wval yp.mem 0 ysize :=
  (mulCorrect_all xsize ysize hx hy g rp xp yp hclean).2

/-- **On a cleared result of `xsize + ysize` words `mp_mul_rec` leaves the product**, word for
word what `long_mul` leaves. -/
theorem mpMulRec_eq_longMul (g : Junk) (rp xp : Ptr) (xsize : ℕ) (yp : Ptr) (ysize : ℕ)
    (hx : 1 ≤ xsize) (hy : 1 ≤ ysize) (hsize : rp.size = xsize + ysize)
    (hzero : ∀ i, i < rp.size → rp.mem i = 0) :
    wval (mpMulRec g rp (xsize + ysize) xp xsize yp ysize).val.mem 0 (xsize + ysize) =
        wval xp.mem 0 xsize * wval yp.mem 0 ysize ∧
      ∀ i, (mpMulRec g rp (xsize + ysize) xp xsize yp ysize).val.mem i =
        (longMul rp xp xsize yp ysize).val.mem i := by
  obtain ⟨hout, hval⟩ := mpMulRec_of_clean g rp xp yp hx hy fun j hj =>
    hzero j (by have := mulNeed_le xsize ysize; omega)
  obtain ⟨hout', hval'⟩ := longMul_spec rp xp hx yp hy
  refine ⟨hval, fun i => ?_⟩
  by_cases hi : i < xsize + ysize
  · exact wval_inj (hval.trans hval'.symm) i (Nat.zero_le _) (by omega)
  · rw [hout i (by omega), hout' i (by omega)]

/-- The product of `1` and `1` written with 25 words each, on cleared words. -/
theorem mpMulRec_eq_longMul_ones :
    let x : Ptr := ⟨fun i => if i = 0 then 1 else 0, 25⟩
    wval (mpMulRec (fun _ _ => 0) ⟨fun _ => 0, 50⟩ 50 x 25 x 25).val.mem 0 50 = 1 := by
  intro x
  have hone : wval x.mem 0 25 = 1 := by decide
  exact (mpMulRec_eq_longMul (fun _ _ => 0) ⟨fun _ => 0, 50⟩ x 25 x 25 (by decide) (by decide) rfl
    fun _ _ => rfl).1.trans (by rw [hone])

end Sagittarius
