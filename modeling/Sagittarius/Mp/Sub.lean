import Sagittarius.Mp.Add

/-!
# Word subtraction and two's complement

The subtractions of `bignum.inc`, and `mp_2scmpl`, which negates a number modulo its length.
A borrow is returned as `-1`, the high word of the double-word difference, and `mp_sub` fills
the words of the result behind the longer operand with it: a negative difference comes out in
two's complement of the result's length.

* `mpSub_spec` : the difference in `rsize` words, with the borrow;
* `mpSub_noBorrow` : the difference of a number and a smaller one;
* `mpSubUl_spec` : subtracting one word;
* `mpTwoScmpl_spec` : negation modulo `radix ^ s`.
-/

namespace Sagittarius

open Digits Function Sagittarius.Acc
open BitVec hiding and_assoc

/-! ### The carry and borrow macros of `arith.h` -/

/-- `UADD(r, c, x, y)`: the new `r` and `c`. -/
def uadd (c x y : Word) : Word × Word :=
  let r := x + y + c
  (r, if r < x ∨ (r = x ∧ (y > 0 ∨ c > 0)) then 1 else 0)

/-- `USUB(r, c, x, y)`: the new `r` and `c`. -/
def usub (c x y : Word) : Word × Word :=
  let r := x - y - c
  (r, if r > x ∨ (r = x ∧ (y > 0 ∨ c > 0)) then 1 else 0)

theorem toNat_bit (p : Prop) [Decidable p] :
    (if p then (1 : Word) else 0).toNat = if p then 1 else 0 := by
  split_ifs <;> rfl

theorem uadd_spec (c x y : Word) (hc : c.toNat ≤ 1) :
    (uadd c x y).2.toNat ≤ 1 ∧
      (uadd c x y).1.toNat + radix * (uadd c x y).2.toNat = x.toNat + y.toNat + c.toNat := by
  have hr : (x + y + c).toNat = (x.toNat + y.toNat + c.toNat) % 2 ^ 64 := by
    simp [toNat_add]
  have hcond : (x + y + c < x ∨ (x + y + c = x ∧ (y > 0 ∨ c > 0))) ↔
      2 ^ 64 ≤ x.toNat + y.toNat + c.toNat := by
    simp only [lt_def, gt_iff_lt, ← toNat_inj, hr, ofNat_eq_ofNat,
      toNat_ofNat]
    omega
  simp only [uadd, toNat_bit, hcond, hr, radix]
  split_ifs <;> omega

theorem usub_spec (c x y : Word) (hc : c.toNat ≤ 1) :
    (usub c x y).2.toNat ≤ 1 ∧
      (usub c x y).1.toNat + y.toNat + c.toNat = x.toNat + radix * (usub c x y).2.toNat := by
  have hr : (x - y - c).toNat = (2 ^ 65 + x.toNat - y.toNat - c.toNat) % 2 ^ 64 := by
    simp only [toNat_sub]
    omega
  have hcond : (x - y - c > x ∨ (x - y - c = x ∧ (y > 0 ∨ c > 0))) ↔
      x.toNat < y.toNat + c.toNat := by
    simp only [lt_def, gt_iff_lt, ← toNat_inj, hr, ofNat_eq_ofNat,
      toNat_ofNat]
    omega
  simp only [usub, toNat_bit, hcond, hr, radix]
  split_ifs <;> omega

/-! ### The functions -/

/-- `(ulong)-(t >> WORD_BITS)`, the borrow kept in the high word of a difference. -/
def borrow (t : DWord) : Word := lowWord (-(t >>> 64))

/-- The loop of `mp_sub_n` (`k` more rounds from index `i` on). -/
def mpSubNLoop (xp : Src) (yp : Ptr) : ℕ → ℕ → Ptr → DWord → Acc (Ptr × DWord)
  | 0, _, rp, t => pure (rp, t)
  | k + 1, i, rp, t => do
    let x ← xp.rd rp i
    let y ← yp.rd i
    let t := udlong x - udlong y - udlong (borrow t)
    let rp ← rp.wr i (lowWord t)
    mpSubNLoop xp yp k (i + 1) rp t

/-- Subtracts numbers of the same length. -/
def mpSubN (rp : Ptr) (xp : Src) (yp : Ptr) (len : ℕ) : Acc (Ptr × Int) := do
  let x ← xp.rd rp 0
  let y ← yp.rd 0
  let t := udlong x - udlong y
  let rp ← rp.wr 0 (lowWord t)
  let (rp, t) ← mpSubNLoop xp yp (len - 1) 1 rp t
  return (rp, (highWord t).toInt)

/-- The borrow loop of `mp_sub`: `for (i = ysize; i < xsize && c; i++)`, `k` rounds at most. -/
def mpSubBorrow (xp : Src) : ℕ → ℕ → Ptr → Int → Acc (Ptr × ℕ × Int)
  | 0, i, rp, c => pure (rp, i, c)
  | k + 1, i, rp, c =>
    if c ≠ 0 then do
      let x ← xp.rd rp i
      let rp ← rp.wr i (x - 1)
      let r ← rp.rd i
      mpSubBorrow xp k (i + 1) rp (if r = ulongMax then -1 else 0)
    else pure (rp, i, c)

/-- `for (; i < rsize; i++) rp[i] = w`, `k` rounds. -/
def mpFill (w : Word) : ℕ → ℕ → Ptr → Acc Ptr
  | 0, _, rp => pure rp
  | k + 1, i, rp => do
    let rp ← rp.wr i w
    mpFill w k (i + 1) rp

/-- Subtracts a shorter number. -/
def mpSub (rp : Ptr) (rsize : ℕ) (xp : Src) (xsize : ℕ) (yp : Ptr) (ysize : ℕ) :
    Acc (Ptr × Int) := do
  let (rp, c) ← mpSubN rp xp yp ysize
  let (rp, i, c) ← mpSubBorrow xp (xsize - ysize) ysize rp c
  let rp ← mpCopy xp (xsize - i) i rp
  -- padding carry
  let rp ← mpFill (BitVec.ofInt 64 c) (rsize - max i xsize) (max i xsize) rp
  return (rp, c)

/-- The loop of `mp_sub_ul` (`k` more rounds from index `i` on). -/
def mpSubUlLoop (xp : Ptr) : ℕ → ℕ → Ptr → Word → Acc (Ptr × Word)
  | 0, _, rp, c => pure (rp, c)
  | k + 1, i, rp, c => do
    let x ← xp.rd i
    let rp ← rp.wr i (usub c x 0).1
    mpSubUlLoop xp k (i + 1) rp (usub c x 0).2

/-- `mp_sub_ul`.  No caller aliases the operand with the result. -/
def mpSubUl (rp : Ptr) (rsize : ℕ) (xp : Ptr) (xsize : ℕ) (y : Word) : Acc (Ptr × Word) := do
  let x ← xp.rd 0
  let rp ← rp.wr 0 (usub 0 x y).1
  let (rp, c) ← mpSubUlLoop xp (xsize - 1) 1 rp (usub 0 x y).2
  let rp ← rp.wr (rsize - 1) c
  return (rp, c)

/-- The loop of `mp_2scmpl` (`k` more rounds from index `i` on). -/
def mpTwoScmplLoop : ℕ → ℕ → Ptr → Word → Acc (Ptr × Word)
  | 0, _, p, c => pure (p, c)
  | k + 1, i, p, c => do
    let x ← p.rd i
    let p ← p.wr i (uadd c (~~~x) 0).1
    mpTwoScmplLoop k (i + 1) p (uadd c (~~~x) 0).2

/-- `mp_2scmpl`: negates in place. -/
def mpTwoScmpl (p : Ptr) (s : ℕ) : Acc Ptr := do
  let (p, _) ← mpTwoScmplLoop s 0 p 1
  return p

/-! ### Subtracting numbers of the same length -/

theorem toNat_borrow (t : DWord) : (borrow t).toNat = (2 ^ 128 - t.toNat / 2 ^ 64) % 2 ^ 64 := by
  simp only [borrow, toNat_lowWord, toNat_neg, toNat_ushiftRight,
    Nat.shiftRight_eq_div_pow, radix]
  omega

/-- One round of the subtraction loop: the borrow coming out is a bit, and is the sign of the
high word. -/
theorem subRound_spec (x y w : Word) (hw : w.toNat ≤ 1) :
    let t := udlong x - udlong y - udlong w
    (borrow t).toNat ≤ 1 ∧ (highWord t).toInt = -((borrow t).toNat : Int) ∧
      (lowWord t).toNat + y.toNat + w.toNat = x.toNat + radix * (borrow t).toNat := by
  intro t
  have ht : t.toNat = (2 ^ 129 + x.toNat - y.toNat - w.toNat) % 2 ^ 128 := by
    simp only [t, toNat_sub, toNat_udlong]
    omega
  have hb : (borrow t).toNat = if x.toNat < y.toNat + w.toNat then 1 else 0 := by
    rw [toNat_borrow, ht]
    split_ifs <;> omega
  have hh : (highWord t).toNat = if x.toNat < y.toNat + w.toNat then 2 ^ 64 - 1 else 0 := by
    rw [toNat_highWord, ht, radix]
    split_ifs <;> omega
  rw [toInt_eq_toNat_cond, hh, hb, toNat_lowWord, ht, radix]
  split_ifs <;> omega

theorem mpSubNLoop_spec (xp : Src) (yp : Ptr) (X : Mem) (k i : ℕ) (rp : Ptr) (t : DWord)
    (hX : ∀ j, i ≤ j → xp.mem rp j = X j) (ht : (borrow t).toNat ≤ 1)
    (hs : (highWord t).toInt = -((borrow t).toNat : Int)) :
    let r := (mpSubNLoop xp yp k i rp t).val
    SameOutside rp.mem r.1.mem i k ∧ (borrow r.2).toNat ≤ 1 ∧
      (highWord r.2).toInt = -((borrow r.2).toNat : Int) ∧
      wval r.1.mem i k + wval yp.mem i k + (borrow t).toNat =
        wval X i k + radix ^ k * (borrow r.2).toNat := by
  have hL : WordLoop xp (fun k i rp t => (mpSubNLoop xp yp k i rp t).val)
      (fun i x t => udlong x - udlong (yp.mem i) - udlong (borrow t)) lowWord id :=
    ⟨fun _ _ _ => rfl, fun k i rp t => by simp [mpSubNLoop]⟩
  have h := hL.spec (U := 0)
    (Q := fun t => (borrow t).toNat ≤ 1 ∧ (highWord t).toInt = -((borrow t).toNat : Int))
    (fun i t ht => by simpa [and_assoc] using subRound_spec (X i) (yp.mem i) (borrow t) ht.1)
    k i rp t hX ⟨ht, hs⟩
  simpa [and_assoc, wval] using h

theorem mpSubN_spec (rp : Ptr) (xp : Src) (yp : Ptr) {len : ℕ} (hlen : 0 < len) :
    ∃ b : ℕ, b ≤ 1 ∧ (mpSubN rp xp yp len).val.2 = -(b : Int) ∧
      SameOutside rp.mem (mpSubN rp xp yp len).val.1.mem 0 len ∧
      wval (mpSubN rp xp yp len).val.1.mem 0 len + wval yp.mem 0 len =
        wval (xp.mem rp) 0 len + radix ^ len * b := by
  obtain _ | k := len
  · omega
  -- the first word is a round of the loop without a borrow coming in
  have hfirst : (mpSubN rp xp yp (k + 1)).val =
      (fun r : Ptr × DWord => (r.1, (highWord r.2).toInt))
        (mpSubNLoop xp yp (k + 1) 0 rp 0).val := by
    have h0 : ∀ t : DWord, t - udlong (borrow 0) = t := fun t => by
      rw [show udlong (borrow 0) = 0 by decide]
      simp
    simp only [mpSubN, mpSubNLoop, val_bind, val_pure, Src.rd_val, Ptr.rd_val, h0,
      Nat.add_sub_cancel]
  obtain ⟨hout, hb, hs, hval⟩ :=
    mpSubNLoop_spec xp yp (xp.mem rp) (k + 1) 0 rp 0 (fun _ _ => rfl) (by decide) (by decide)
  rw [hfirst]
  refine ⟨_, hb, hs, hout, ?_⟩
  rwa [show (borrow 0).toNat = 0 by decide, Nat.add_zero] at hval

/-! ### Passing the borrow on -/

theorem mpFill_spec (w : Word) (k i : ℕ) (rp : Ptr) :
    SameOutside rp.mem (mpFill w k i rp).val.mem i k ∧
      ∀ j, i ≤ j → j < i + k → (mpFill w k i rp).val.mem j = w := by
  have h := writes_up .self (L := fun k i rp => (mpFill w k i rp).val) (fun _ _ => w)
    (fun _ _ => rfl) (fun _ _ _ => rfl) (fun _ _ _ _ => rfl) k i rp
  exact ⟨h.1, h.2.2⟩

theorem borrow_sub_one (w : Word) : ∃ d : ℕ, d ≤ 1 ∧
    (if w - 1 = ulongMax then (-1 : Int) else 0) = -(d : Int) ∧
      (w - 1).toNat + 1 = w.toNat + radix * d := by
  have hsub : (w - 1).toNat = (2 ^ 64 - 1 + w.toNat) % 2 ^ 64 := by simp [toNat_sub]
  have hcond : w - 1 = ulongMax ↔ w.toNat = 0 := by
    rw [← toNat_inj, hsub, toNat_ulongMax, radix]
    omega
  by_cases h : w - 1 = ulongMax
  · refine ⟨1, le_rfl, by rw [if_pos h]; rfl, ?_⟩
    have := hcond.1 h
    rw [radix]
    omega
  · refine ⟨0, Nat.zero_le _, by rw [if_neg h]; rfl, ?_⟩
    have := mt hcond.2 h
    omega

theorem mpSubBorrow_spec (xp : Src) (X : Mem) (k i : ℕ) (rp : Ptr) (b : ℕ) (hb : b ≤ 1)
    (hX : ∀ j, i ≤ j → xp.mem rp j = X j) :
    let s := (mpSubBorrow xp k i rp (-(b : Int))).val
    let r := (mpCopy xp (i + k - s.2.1) s.2.1 s.1).val
    ∃ b' : ℕ, b' ≤ 1 ∧ s.2.2 = -(b' : Int) ∧ SameOutside rp.mem r.mem i k ∧
      wval r.mem i k + b = wval X i k + radix ^ k * b' := by
  have hL : WordLoop xp (fun k i rp (c : Int) =>
      let s := (mpSubBorrow xp k i rp c).val
      ((mpCopy xp (i + k - s.2.1) s.2.1 s.1).val, s.2.2))
      (fun _ x c => if c = 0 then (x, 0) else (x - 1, if x - 1 = ulongMax then -1 else 0))
      Prod.fst Prod.snd := by
    refine ⟨fun i rp c => by simp [mpSubBorrow, mpCopy], fun k i rp c => ?_⟩
    by_cases hc : c = 0
    · cases k <;> simp [mpSubBorrow, mpCopy, hc]
    · simp [mpSubBorrow, hc, Nat.add_comm, Nat.add_left_comm]
  obtain ⟨hout, hQ, hval⟩ := hL.spec (A := fun j => (X j).toNat) (B := 0) (U := 0)
    (D := fun c => (-c).toNat) (Q := fun c => c = 0 ∨ c = -1) (fun i c hc => by
      rcases hc with rfl | rfl
      · simp
      · obtain ⟨d, hd, hdc, hword⟩ := borrow_sub_one (X i)
        simp only [neg_eq_zero, one_ne_zero, if_false, hdc]
        exact ⟨by omega, by simpa using hword⟩) k i rp (-b) hX (by omega)
  dsimp only at hQ
  exact ⟨(-(mpSubBorrow xp k i rp (-b)).val.2.2).toNat, by omega, by omega, hout,
    by simpa [seg_eq_zero, wval] using hval⟩

theorem mpSubBorrow_index (xp : Src) (k i : ℕ) (rp : Ptr) (c : Int) :
    (mpSubBorrow xp k i rp c).val.2.1 ≤ i + k := by
  induction k generalizing i rp c with
  | zero => exact le_rfl
  | succ k ih =>
    rw [mpSubBorrow]
    split_ifs
    · exact (ih _ _ _).trans (by omega)
    · exact Nat.le_add_right _ _

theorem wval_fill_borrow {m : Mem} {i k b : ℕ} (hb : b ≤ 1)
    (h : ∀ j, i ≤ j → j < i + k → m j = BitVec.ofInt 64 (-(b : Int))) :
    wval m i k + b = radix ^ k * b := by
  induction k generalizing i with
  | zero => simp
  | succ k ih =>
    have hw : (m i).toNat + b = radix * b := by
      rw [h i le_rfl (by omega)]
      rcases Nat.le_one_iff_eq_zero_or_eq_one.1 hb with rfl | rfl <;> simp [radix]
    rw [wval_succ]
    calc _ = ((m i).toNat + b) + radix * wval m (i + 1) k := by ring
      _ = radix * (wval m (i + 1) k + b) := by rw [hw]; ring
      _ = _ := by rw [ih fun j h1 h2 => h j (by omega) (by omega)]; ring

section

variable (rp : Ptr) (rsize : ℕ) (xp : Src) (xsize : ℕ) (yp : Ptr) (ysize : ℕ) (hy : 0 < ysize)
  (hle : ysize ≤ xsize) (hr : xsize ≤ rsize)

include hy hle hr

/-- **`mp_sub`** leaves the difference of a number and one that is not longer, in two's
complement of `rsize` words if it is negative, and returns the borrow as `0` or `-1`. -/
theorem mpSub_spec :
    ∃ b : ℕ, b ≤ 1 ∧ (mpSub rp rsize xp xsize yp ysize).val.2 = -(b : Int) ∧
      SameOutside rp.mem (mpSub rp rsize xp xsize yp ysize).val.1.mem 0 rsize ∧
      wval (mpSub rp rsize xp xsize yp ysize).val.1.mem 0 rsize + wval yp.mem 0 ysize =
        wval (xp.mem rp) 0 xsize + radix ^ rsize * b := by
  obtain ⟨k, rfl⟩ := Nat.exists_eq_add_of_le hle
  obtain ⟨l, rfl⟩ := Nat.exists_eq_add_of_le hr
  obtain ⟨b, hb, hb2, hout, hval⟩ := mpSubN_spec rp xp yp hy
  simp only [mpSub, val_bind, val_pure, hb2, Nat.add_sub_cancel_left]
  set rp₁ := (mpSubN rp xp yp ysize).val.1
  have hX : ∀ j, ysize ≤ j → xp.mem rp₁ j = xp.mem rp j := by
    intro j hj
    cases xp with
    | self => exact hout j (by omega)
    | ptr p => rfl
  obtain ⟨b', hb', hs, hout', hval'⟩ :=
    mpSubBorrow_spec xp (xp.mem rp) k ysize rp₁ b hb hX
  rw [hs, max_eq_right (mpSubBorrow_index _ _ _ _ _), Nat.add_sub_cancel_left]
  set rp₂ := (mpCopy xp (ysize + k - (mpSubBorrow xp k ysize rp₁ (-(b : Int))).val.2.1)
    (mpSubBorrow xp k ysize rp₁ (-(b : Int))).val.2.1
    (mpSubBorrow xp k ysize rp₁ (-(b : Int))).val.1).val
  obtain ⟨hout'', hfill⟩ := mpFill_spec (BitVec.ofInt 64 (-(b' : Int))) l (ysize + k) rp₂
  set r := (mpFill (BitVec.ofInt 64 (-(b' : Int))) l (ysize + k) rp₂).val
  refine ⟨b', hb', rfl, fun j hj => ?_, ?_⟩
  · rw [hout'' j (by omega), hout' j (by omega), hout j (by omega)]
  · have htop := wval_fill_borrow hb' hfill
    rw [wval_append r.mem 0 (ysize + k) l, wval_append (xp.mem rp), Nat.zero_add, Nat.zero_add,
      hout''.wval_eq (by omega), wval_append rp₂.mem, Nat.zero_add,
      hout'.wval_eq (by omega)]
    -- add the three parts: operands, borrow chain, padding
    have h1 := congrArg (radix ^ ysize * ·) hval'
    have h2 := congrArg (radix ^ (ysize + k) * ·) htop
    simp only [Nat.mul_add, ← Nat.mul_assoc, ← pow_add] at h1 h2 ⊢
    omega

theorem mpSub_noBorrow (hge : wval yp.mem 0 ysize ≤ wval (xp.mem rp) 0 xsize) :
    (mpSub rp rsize xp xsize yp ysize).val.2 = 0 ∧
      SameOutside rp.mem (mpSub rp rsize xp xsize yp ysize).val.1.mem 0 rsize ∧
      wval (mpSub rp rsize xp xsize yp ysize).val.1.mem 0 rsize =
        wval (xp.mem rp) 0 xsize - wval yp.mem 0 ysize := by
  obtain ⟨b, hb, hb2, hout, hval⟩ := mpSub_spec rp rsize xp xsize yp ysize hy hle hr
  have hlt := wval_lt (mpSub rp rsize xp xsize yp ysize).val.1.mem 0 rsize
  obtain rfl : b = 0 := carry_eq_zero (k := rsize)
    (n := wval (xp.mem rp) 0 xsize - wval yp.mem 0 ysize) (by omega)
  exact ⟨by simpa using hb2, hout, by omega⟩

end

/-! ### Subtracting one word -/

theorem mpSubUlLoop_spec (xp : Ptr) (k i : ℕ) (rp : Ptr) (c : Word) (hc : c.toNat ≤ 1) :
    let r := (mpSubUlLoop xp k i rp c).val
    SameOutside rp.mem r.1.mem i k ∧ r.2.toNat ≤ 1 ∧
      wval r.1.mem i k + c.toNat = wval xp.mem i k + radix ^ k * r.2.toNat := by
  have hL : WordLoop (.ptr xp) (fun k i rp c => (mpSubUlLoop xp k i rp c).val)
      (fun _ x c => usub c x 0) Prod.fst Prod.snd := ⟨fun _ _ _ => rfl, fun _ _ _ _ => rfl⟩
  have h := hL.spec (U := 0) (B := 0)
    (fun i c hc => by simpa using usub_spec c (xp.mem i) 0 hc) k i rp c (fun _ _ => rfl) hc
  simpa [seg_eq_zero, wval] using h

theorem mpSubUl_spec (rp : Ptr) (rsize : ℕ) (xp : Ptr) {xsize : ℕ} (hx : 0 < xsize) (y : Word) :
    ∃ (r₀ : Ptr) (c : Word), (mpSubUl rp rsize xp xsize y).val = ((r₀.wr (rsize - 1) c).val, c) ∧
      SameOutside rp.mem r₀.mem 0 xsize ∧ c.toNat ≤ 1 ∧
      wval r₀.mem 0 xsize + y.toNat = wval xp.mem 0 xsize + radix ^ xsize * c.toNat := by
  obtain _ | k := xsize
  · omega
  obtain ⟨hc, hword⟩ := usub_spec 0 (xp.mem 0) y (by decide)
  set u := usub 0 (xp.mem 0) y with hu
  obtain ⟨hout, hc', hval⟩ := mpSubUlLoop_spec xp k 1 (rp.wr 0 u.1).val u.2 hc
  set r := (mpSubUlLoop xp k 1 (rp.wr 0 u.1).val u.2).val with hr
  have h0 : r.1.mem 0 = u.1 := by rw [hout 0 (by omega)]; simp
  refine ⟨r.1, r.2, ?_, fun j hj => ?_, hc', ?_⟩
  · simp only [mpSubUl, val_bind, val_pure, Ptr.rd_val, Nat.add_sub_cancel, ← hu, ← hr]
  · rw [hout j (by omega), Ptr.wr_mem, update_of_ne (by omega)]
  · rw [show (0 : Word).toNat = 0 from rfl, Nat.add_zero] at hword
    rw [wval_succ, wval_succ, h0]
    calc _ = (u.1.toNat + y.toNat) + radix * wval r.1.mem 1 k := by ring
      _ = (xp.mem 0).toNat + radix * (wval r.1.mem 1 k + u.2.toNat) := by rw [hword]; ring
      _ = _ := by rw [hval]; ring

/-! ### Two's complement -/

theorem mpTwoScmplLoop_spec (k i : ℕ) (p : Ptr) (c : Word) (hc : c.toNat ≤ 1) :
    let r := (mpTwoScmplLoop k i p c).val
    SameOutside p.mem r.1.mem i k ∧ r.2.toNat ≤ 1 ∧
      wval r.1.mem i k + wval p.mem i k + 1 + radix ^ k * r.2.toNat = radix ^ k + c.toNat := by
  have hL : WordLoop .self (fun k i p c => (mpTwoScmplLoop k i p c).val)
      (fun _ x c => uadd c (~~~x) 0) Prod.fst Prod.snd := ⟨fun _ _ _ => rfl, fun _ _ _ _ => rfl⟩
  have h := hL.spec (X := p.mem) (U := BitVec.toNat) (D := 0) (A := fun _ => radix - 1)
    (B := fun j => (p.mem j).toNat) (fun i c hc => by
      obtain ⟨hc', hword⟩ := uadd_spec c (~~~(p.mem i)) 0 hc
      rw [toNat_not, show (0 : Word).toNat = 0 from rfl, radix] at hword
      refine ⟨hc', ?_⟩
      simp only [Pi.zero_apply, radix]
      omega) k i p c (fun _ _ => rfl) hc
  have hones := seg_ones radix_pos i k
  refine h.imp_right (And.imp_right fun hval => ?_)
  simp only [Pi.zero_apply, ← wval.eq_1] at hval
  omega

/-- **`mp_2scmpl`** negates a number modulo `radix ^ s`. -/
theorem mpTwoScmpl_spec (p : Ptr) (s : ℕ) :
    SameOutside p.mem (mpTwoScmpl p s).val.mem 0 s ∧
      wval (mpTwoScmpl p s).val.mem 0 s = (radix ^ s - wval p.mem 0 s) % radix ^ s := by
  obtain ⟨hout, hc, hval⟩ := mpTwoScmplLoop_spec s 0 p 1 (by decide)
  refine ⟨hout, ?_⟩
  change wval (mpTwoScmplLoop s 0 p 1).val.1.mem 0 s = _
  set r := (mpTwoScmplLoop s 0 p 1).val
  rw [show (1 : Word).toNat = 1 from rfl] at hval
  have h1 := wval_lt r.1.mem 0 s
  rcases Nat.eq_zero_or_pos r.2.toNat with hz | hpos
  · rw [hz] at hval
    rw [Nat.mod_eq_of_lt (by omega)]
    omega
  · -- a carry out of the last word means that the number was zero
    rw [show r.2.toNat = 1 by omega] at hval
    have h3 : wval r.1.mem 0 s = 0 := by omega
    have h4 : wval p.mem 0 s = 0 := by omega
    rw [h3, h4, Nat.sub_zero, Nat.mod_self]

end Sagittarius
