import Sagittarius.Mp.Memory

/-!
# Word addition

The additions of `bignum.inc`.  `mpAddN` and `mpAdd` return the carry, `mpAdd` also stores it in
the last word of a result that is longer than its operands.

* `mpAddN_spec` : the sum of two numbers of the same length, with the carry;
* `mpAddWords_spec` : `mpAdd` without its last statement is the exact sum with the carry;
* `mpAdd_noCarry` : a sum that fits into the longer operand's length changes nothing else, even
  when the operands are handed over in the wrong order (`xsize < ysize`);
* `mpAdd_safe` : with a result of `mpSafeSizeForAdd` words the sum always fits.
-/

namespace Sagittarius

open Digits Function Sagittarius.Acc

/-- `SG_ULONG_MAX`: the word of all ones. -/
def ulongMax : Word := BitVec.allOnes 64

@[simp] theorem toNat_ulongMax : ulongMax.toNat = radix - 1 := by simp [ulongMax, radix]

/-- Words enough for the sum. -/
def mpSafeSizeForAdd (xp : Ptr) (xsize : ℕ) (yp : Ptr) (ysize : ℕ) : Acc ℕ :=
  if xsize > ysize then do
    let top ← xp.rd (xsize - 1)
    if top = ulongMax then return xsize + 1 else return xsize
  else if xsize < ysize then do
    let top ← yp.rd (ysize - 1)
    if top = ulongMax then return ysize + 1 else return ysize
  else return xsize + 1

/-- The loop of `mp_add_n` (`k` more rounds from index `i` on). -/
def mpAddNLoop (xp : Src) (yp : Ptr) : ℕ → ℕ → Ptr → DWord → Acc (Ptr × DWord)
  | 0, _, rp, t => pure (rp, t)
  | k + 1, i, rp, t => do
    let x ← xp.rd rp i
    let y ← yp.rd i
    let t := udlong x + udlong y + udlong (highWord t)
    let rp ← rp.wr i (lowWord t)
    mpAddNLoop xp yp k (i + 1) rp t

/-- Adds numbers of the same length. -/
def mpAddN (rp : Ptr) (xp : Src) (yp : Ptr) (len : ℕ) : Acc (Ptr × Int) := do
  let x ← xp.rd rp 0
  let y ← yp.rd 0
  let t := udlong x + udlong y
  let rp ← rp.wr 0 (lowWord t)
  let (rp, t) ← mpAddNLoop xp yp (len - 1) 1 rp t
  return (rp, (highWord t).toInt)

/-- The carry loop of `mp_add`: `for (i = ysize; i < xsize && c; i++)`, `k` rounds at most. -/
def mpAddCarry (xp : Src) : ℕ → ℕ → Ptr → Int → Acc (Ptr × ℕ × Int)
  | 0, i, rp, c => pure (rp, i, c)
  | k + 1, i, rp, c =>
    if c ≠ 0 then do
      let x ← xp.rd rp i
      let rp ← rp.wr i (x + 1)
      let r ← rp.rd i
      mpAddCarry xp k (i + 1) rp (if r = 0 then 1 else 0)
    else pure (rp, i, c)

/-- `for (; i < xsize; i++) rp[i] = xp[i]`, `k` rounds. -/
def mpCopy (xp : Src) : ℕ → ℕ → Ptr → Acc Ptr
  | 0, _, rp => pure rp
  | k + 1, i, rp => do
    let x ← xp.rd rp i
    let rp ← rp.wr i x
    mpCopy xp k (i + 1) rp

/-- `mp_add` up to its last statement. -/
def mpAddWords (rp : Ptr) (xp : Src) (xsize : ℕ) (yp : Ptr) (ysize : ℕ) : Acc (Ptr × Int) := do
  let (rp, c) ← mpAddN rp xp yp ysize
  let (rp, i, c) ← mpAddCarry xp (xsize - ysize) ysize rp c
  let rp ← mpCopy xp (xsize - i) i rp
  return (rp, c)

/-- Adds a shorter number, and stores the carry. -/
def mpAdd (rp : Ptr) (rsize : ℕ) (xp : Src) (xsize : ℕ) (yp : Ptr) (ysize : ℕ) :
    Acc (Ptr × Int) := do
  let (rp, c) ← mpAddWords rp xp xsize yp ysize
  if c ≠ 0 then do
    let rp ← rp.wr (rsize - 1) 1
    return (rp, c)
  else return (rp, c)

/-- The carry loop of `mp_add_one`, which stops at the first word that does not wrap. -/
def mpAddOneCarry : ℕ → ℕ → Ptr → Acc (Ptr × Int)
  | 0, _, rp => pure (rp, 1)
  | k + 1, i, rp => do
    let r ← rp.rd i
    let rp ← rp.wr i (r + 1)
    if r + 1 ≠ 0 then return (rp, 0) else mpAddOneCarry k (i + 1) rp

/-- The copy of `mp_add_one`, made if this is not a self destructive operation. -/
def mpAddOneCopy (xp : Src) (xsize : ℕ) (rp : Ptr) : Acc Ptr :=
  match xp with
  | .self => pure rp
  | .ptr _ => mpCopy xp (xsize - 1) 1 rp

/-- Adds a word. -/
def mpAddOne (rp : Ptr) (xp : Src) (xsize : ℕ) (y : Word) : Acc (Ptr × Int) := do
  let x ← xp.rd rp 0
  let t := udlong x + udlong y
  let rp ← rp.wr 0 (lowWord t)
  let rp ← mpAddOneCopy xp xsize rp
  if highWord t = 0 then return (rp, 0) else mpAddOneCarry (xsize - 1) 1 rp

/-- Adds a word, and stores the carry. -/
def mpAddUl (rp : Ptr) (rsize : ℕ) (xp : Src) (xsize : ℕ) (y : Word) : Acc (Ptr × Int) := do
  let (rp, c) ← mpAddOne rp xp xsize y
  if c ≠ 0 then do
    let rp ← rp.wr (rsize - 1) (BitVec.ofInt 64 c)
    return (rp, c)
  else return (rp, c)

/-! ### One round -/

theorem toNat_addRound (x y h : Word) (hh : h.toNat ≤ 1) :
    (udlong x + udlong y + udlong h).toNat = x.toNat + y.toNat + h.toNat := by
  simp only [BitVec.toNat_add, toNat_udlong]
  omega

theorem highWord_addRound (x y h : Word) (hh : h.toNat ≤ 1) :
    (highWord (udlong x + udlong y + udlong h)).toNat ≤ 1 := by
  rw [toNat_highWord, toNat_addRound x y h hh, radix]
  omega

theorem carry_add_one (w : Word) : ∃ d : ℕ, d ≤ 1 ∧
    (if w + 1 = 0 then (1 : Int) else 0) = d ∧ (w + 1).toNat + radix * d = w.toNat + 1 := by
  have hadd : (w + 1).toNat = (w.toNat + 1) % 2 ^ 64 := by
    simp [BitVec.toNat_add]
  by_cases h : w + 1 = 0
  · refine ⟨1, le_rfl, by rw [if_pos h]; rfl, ?_⟩
    have h0 : (w + 1).toNat = 0 := by rw [h]; rfl
    rw [radix]
    omega
  · refine ⟨0, Nat.zero_le _, by rw [if_neg h]; rfl, ?_⟩
    have h0 : (w + 1).toNat ≠ 0 := fun h0 => h (BitVec.eq_of_toNat_eq h0)
    omega

theorem toInt_of_le_one {w : Word} (h : w.toNat ≤ 1) : w.toInt = w.toNat := by
  rw [BitVec.toInt_eq_toNat_cond]
  split_ifs <;> omega

/-! ### Adding two numbers of the same length -/

variable (xp : Src) (k : ℕ) (rp : Ptr) (rsize : ℕ) {xsize : ℕ} (i : ℕ) {ysize : ℕ}

theorem mpAddNLoop_spec (yp : Ptr) (X : Mem) (k i : ℕ) (rp : Ptr) (t : DWord)
    (hX : ∀ j, i ≤ j → xp.mem rp j = X j) (ht : (highWord t).toNat ≤ 1) :
    let r := (mpAddNLoop xp yp k i rp t).val
    SameOutside rp.mem r.1.mem i k ∧ (highWord r.2).toNat ≤ 1 ∧
      wval r.1.mem i k + radix ^ k * (highWord r.2).toNat =
        wval X i k + wval yp.mem i k + (highWord t).toNat := by
  have hL : WordLoop xp (fun k i rp t => (mpAddNLoop xp yp k i rp t).val)
      (fun i x t => udlong x + udlong (yp.mem i) + udlong (highWord t)) lowWord id :=
    ⟨fun _ _ _ => rfl, fun k i rp t => by simp [mpAddNLoop]⟩
  have h := hL.sum (fun i t ht =>
    ⟨highWord_addRound _ _ _ ht, toNat_addRound _ _ _ ht⟩) k i rp t hX ht
  rwa [seg_add] at h

theorem mpAddN_spec (xp : Src) (yp : Ptr) (len : ℕ) (hlen : 0 < len) :
    ∃ c : ℕ, c ≤ 1 ∧ (mpAddN rp xp yp len).val.2 = c ∧
      SameOutside rp.mem (mpAddN rp xp yp len).val.1.mem 0 len ∧
      wval (mpAddN rp xp yp len).val.1.mem 0 len + radix ^ len * c =
        wval (xp.mem rp) 0 len + wval yp.mem 0 len := by
  obtain _ | k := len
  · omega
  -- the first word is a round of the loop without a carry coming in
  have hfirst : (mpAddN rp xp yp (k + 1)).val =
      (fun r : Ptr × DWord => (r.1, (highWord r.2).toInt))
        (mpAddNLoop xp yp (k + 1) 0 rp 0).val := by
    simp only [mpAddN, mpAddNLoop, val_bind, val_pure, Src.rd_val, Ptr.rd_val,
      add_highWord_zero, Nat.add_sub_cancel]
  obtain ⟨hout, hcarry, hval⟩ :=
    mpAddNLoop_spec xp yp (xp.mem rp) (k + 1) 0 rp 0 (fun _ _ => rfl) (by decide)
  rw [hfirst]
  refine ⟨_, hcarry, toInt_of_le_one hcarry, hout, ?_⟩
  rw [hval, show (highWord 0).toNat = 0 by decide, Nat.add_zero]

/-! ### Passing the carry on -/

theorem mpCopy_spec (rp : Ptr) :
    SameOutside rp.mem (mpCopy xp k i rp).val.mem i k ∧
      ∀ j, i ≤ j → j < i + k → (mpCopy xp k i rp).val.mem j = xp.mem rp j := by
  have h := writes_up xp (L := fun k i rp => (mpCopy xp k i rp).val) (fun i X => X i)
    (fun _ _ => rfl) (fun k i rp => by simp [mpCopy]) (fun i X Y h => h i le_rfl) k i rp
  exact ⟨h.1, h.2.2⟩

/-- The carry loop followed by the copy of the remaining words adds the carry. -/
theorem mpAddCarry_spec (X : Mem) (k i : ℕ) (rp : Ptr) (c : ℕ) (hc : c ≤ 1)
    (hX : ∀ j, i ≤ j → xp.mem rp j = X j) :
    let s := (mpAddCarry xp k i rp c).val
    let r := (mpCopy xp (i + k - s.2.1) s.2.1 s.1).val
    ∃ c' : ℕ, c' ≤ 1 ∧ s.2.2 = c' ∧ SameOutside rp.mem r.mem i k ∧
      wval r.mem i k + radix ^ k * c' = wval X i k + c := by
  have hL : WordLoop xp (fun k i rp (c : Int) =>
      let s := (mpAddCarry xp k i rp c).val
      ((mpCopy xp (i + k - s.2.1) s.2.1 s.1).val, s.2.2))
      (fun _ x c => if c = 0 then (x, 0) else (x + 1, if x + 1 = 0 then 1 else 0))
      Prod.fst Prod.snd := by
    refine ⟨fun i rp c => by simp [mpAddCarry, mpCopy], fun k i rp c => ?_⟩
    by_cases hc : c = 0
    · cases k <;> simp [mpAddCarry, mpCopy, hc]
    · simp [mpAddCarry, hc, Nat.add_comm, Nat.add_left_comm]
  obtain ⟨hout, hQ, hval⟩ := hL.spec (A := fun j => (X j).toNat) (B := 0) (U := Int.toNat)
    (D := 0) (Q := fun c => c = 0 ∨ c = 1) (fun i c hc => by
      rcases hc with rfl | rfl
      · simp
      · obtain ⟨d, hd, hdc, hword⟩ := carry_add_one (X i)
        simp only [one_ne_zero, if_false, hdc]
        exact ⟨by omega, by simpa using hword⟩) k i rp c hX (by omega)
  dsimp only at hQ
  exact ⟨_, by omega, (Int.toNat_of_nonneg (by omega)).symm, hout,
    by simpa [seg_eq_zero, wval] using hval⟩

/-- **`mp_add` up to its last statement** leaves the sum of a number and a shorter one in the
longer one's length, and returns the carry. -/
theorem mpAddWords_spec (xp : Src) (yp : Ptr) (hy : 0 < ysize) (hle : ysize ≤ xsize) :
    ∃ c : ℕ, c ≤ 1 ∧ (mpAddWords rp xp xsize yp ysize).val.2 = c ∧
      SameOutside rp.mem (mpAddWords rp xp xsize yp ysize).val.1.mem 0 xsize ∧
      wval (mpAddWords rp xp xsize yp ysize).val.1.mem 0 xsize + radix ^ xsize * c =
        wval (xp.mem rp) 0 xsize + wval yp.mem 0 ysize := by
  obtain ⟨k, rfl⟩ := Nat.exists_eq_add_of_le hle
  obtain ⟨c, hc, hc2, hout, hval⟩ := mpAddN_spec rp xp yp ysize hy
  set rp₁ := (mpAddN rp xp yp ysize).val.1
  have hX : ∀ j, ysize ≤ j → xp.mem rp₁ j = xp.mem rp j := by
    intro j hj
    cases xp with
    | self => exact hout j (by omega)
    | ptr p => rfl
  obtain ⟨c', hc', hs, hout', hval'⟩ :=
    mpAddCarry_spec xp (xp.mem rp) k ysize rp₁ c hc hX
  simp only [mpAddWords, val_bind, val_pure, hc2, Nat.add_sub_cancel_left]
  refine ⟨c', hc', hs, fun j hj => ?_, ?_⟩
  · rw [hout' j (by omega), hout j (by omega)]
  · rw [wval_append, wval_append, Nat.zero_add,
      hout'.wval_eq (by omega)]
    calc _ = wval rp₁.mem 0 ysize + radix ^ ysize * (wval _ ysize k + radix ^ k * c') := by ring
      _ = (wval rp₁.mem 0 ysize + radix ^ ysize * c) +
          radix ^ ysize * wval (xp.mem rp) ysize k := by
        rw [hval']; ring
      _ = _ := by rw [hval]; ring

/-! ### The stored carry -/

theorem carry_eq_zero {n k c : ℕ} (h : n + radix ^ k * c < radix ^ k) : c = 0 := by
  rcases Nat.eq_zero_or_pos c with hc | hc
  · exact hc
  · have : radix ^ k ≤ radix ^ k * c := Nat.le_mul_of_pos_right _ hc
    omega

theorem mpAdd_val (xp : Src) (xsize : ℕ) (yp : Ptr) (ysize : ℕ) :
    (mpAdd rp rsize xp xsize yp ysize).val =
      if (mpAddWords rp xp xsize yp ysize).val.2 ≠ 0 then
        (((mpAddWords rp xp xsize yp ysize).val.1.wr (rsize - 1) 1).val,
          (mpAddWords rp xp xsize yp ysize).val.2)
      else (mpAddWords rp xp xsize yp ysize).val := by
  simp only [mpAdd, val_bind]
  split_ifs <;> rfl

theorem mpAdd_noCarry (xp : Src) (yp : Ptr) (hy : 0 < ysize) (hle : ysize ≤ xsize)
    (hlt : wval (xp.mem rp) 0 xsize + wval yp.mem 0 ysize < radix ^ xsize) :
    (mpAdd rp rsize xp xsize yp ysize).val.2 = 0 ∧
      SameOutside rp.mem (mpAdd rp rsize xp xsize yp ysize).val.1.mem 0 xsize ∧
      wval (mpAdd rp rsize xp xsize yp ysize).val.1.mem 0 xsize =
        wval (xp.mem rp) 0 xsize + wval yp.mem 0 ysize := by
  obtain ⟨c, -, hc2, hout, hval⟩ := mpAddWords_spec rp xp yp hy hle
  obtain rfl := carry_eq_zero (hval.trans_lt hlt)
  rw [mpAdd_val, if_neg (by simp [hc2])]
  exact ⟨hc2, hout, by simpa using hval⟩

/-- An in-place sum handed over in the wrong order still changes only the first `xsize` words, if it
fits into them: the surplus words of the second operand are then zero. -/
theorem mpAdd_self_of_lt (yp : Ptr)
    (hlt : xsize < ysize) (hfit : wval rp.mem 0 xsize + wval yp.mem 0 ysize < radix ^ xsize) :
    SameOutside rp.mem (mpAdd rp rsize .self xsize yp ysize).val.1.mem 0 xsize ∧
      wval (mpAdd rp rsize .self xsize yp ysize).val.1.mem 0 xsize =
        wval rp.mem 0 xsize + wval yp.mem 0 ysize := by
  obtain ⟨k, rfl⟩ := Nat.exists_eq_add_of_lt hlt
  rw [Nat.add_assoc] at hfit ⊢
  obtain ⟨c, -, hc2, hout, hval⟩ := mpAddN_spec rp .self yp (xsize + (k + 1)) (by omega)
  have hwords : (mpAddWords rp .self xsize yp (xsize + (k + 1))).val =
      (mpAddN rp .self yp (xsize + (k + 1))).val := by
    simp [mpAddWords, mpAddCarry, mpCopy, show xsize - (xsize + (k + 1)) = 0 by omega]
  set r := (mpAddN rp .self yp (xsize + (k + 1))).val
  rw [Src.mem_self, wval_append r.1.mem, wval_append rp.mem, Nat.zero_add] at hval
  -- split the equation at `xsize`: low words, words above, carry
  have hsplit : wval r.1.mem 0 xsize + radix ^ xsize *
        (wval r.1.mem xsize (k + 1) + radix ^ (k + 1) * c) =
      (wval rp.mem 0 xsize + wval yp.mem 0 (xsize + (k + 1))) +
        radix ^ xsize * wval rp.mem xsize (k + 1) := by
    calc _ = wval r.1.mem 0 xsize + radix ^ xsize * wval r.1.mem xsize (k + 1) +
          radix ^ (xsize + (k + 1)) * c := by ring
      _ = _ := by rw [hval]; ring
  obtain ⟨hlow, hhigh⟩ := Digits.split_inj (wval_lt _ _ _) hfit hsplit
  obtain ⟨hsame, rfl⟩ := Digits.split_inj (v := 0) (wval_lt r.1.mem xsize (k + 1))
    (wval_lt rp.mem xsize (k + 1)) (by simpa using hhigh)
  rw [mpAdd_val, hwords, if_neg (by simp [hc2])]
  refine ⟨fun j hj => ?_, hlow⟩
  by_cases hj' : j < xsize + (k + 1)
  · exact wval_inj hsame j (by omega) (by omega)
  · exact hout j (by omega)

theorem mpSafeSizeForAdd_val (xp : Ptr) (xsize : ℕ) (yp : Ptr) (ysize : ℕ) :
    (mpSafeSizeForAdd xp xsize yp ysize).val =
      if xsize > ysize then if xp.mem (xsize - 1) = ulongMax then xsize + 1 else xsize
      else if xsize < ysize then if yp.mem (ysize - 1) = ulongMax then ysize + 1 else ysize
      else xsize + 1 := by
  unfold mpSafeSizeForAdd
  split_ifs <;> simp_all

/-- **A result of `mp_safe_size_for_add` words holds the sum**, if its last word was cleared. -/
theorem mpAdd_safe (xp : Ptr) (xsize : ℕ) (yp : Ptr) (ysize : ℕ) {rsize : ℕ} (hy : 0 < ysize)
    (hle : ysize ≤ xsize) (hr : rsize = (mpSafeSizeForAdd xp xsize yp ysize).val)
    (h0 : rp.mem (rsize - 1) = 0) :
    SameOutside rp.mem (mpAdd rp rsize (.ptr xp) xsize yp ysize).val.1.mem 0 rsize ∧
      wval (mpAdd rp rsize (.ptr xp) xsize yp ysize).val.1.mem 0 rsize =
        wval xp.mem 0 xsize + wval yp.mem 0 ysize := by
  have hcases : rsize = xsize + 1 ∨
      (rsize = xsize ∧ ysize < xsize ∧ xp.mem (xsize - 1) ≠ ulongMax) := by
    rw [mpSafeSizeForAdd_val] at hr
    split_ifs at hr with h hm
    · exact .inl hr
    · exact .inr ⟨hr, h, hm⟩
    · omega
    · omega
    · exact .inl hr
  rcases hcases with rfl | ⟨rfl, hlt, htop⟩
  · obtain ⟨c, hc, hc2, hout, hval⟩ := mpAddWords_spec rp (.ptr xp) yp hy hle
    have hxs := hout xsize (by omega)
    rw [mpAdd_val]
    rw [Nat.add_sub_cancel] at h0 ⊢
    rw [Src.mem_ptr] at hval
    split_ifs with hne
    · obtain rfl : c = 1 := by
        omega
      refine ⟨(hout.mono le_rfl (by omega)).update (by omega) (by omega), ?_⟩
      rw [wval_top, Ptr.wr_mem, Nat.zero_add, update_self, ← hval]
      congr 1
      exact wval_congr fun j _ hj => update_of_ne (by omega) _ _
    · obtain rfl : c = 0 := by simpa [hc2] using hne
      refine ⟨hout.mono le_rfl (by omega), ?_⟩
      rw [wval_top, Nat.zero_add, hxs, h0, ← hval]
      simp
  · obtain _ | k := rsize
    · omega
    have hx : wval xp.mem 0 (k + 1) + radix ^ k < radix ^ (k + 1) + 1 := by
      rw [Nat.add_sub_cancel] at htop
      have h1 : (xp.mem k).toNat + 1 < radix := by
        have := toNat_lt_radix (xp.mem k)
        have hne : (xp.mem k).toNat ≠ radix - 1 := fun h =>
          htop (BitVec.eq_of_toNat_eq (by rw [toNat_ulongMax, h]))
        omega
      have h2 : radix ^ k * ((xp.mem k).toNat + 2) ≤ radix ^ k * radix := Nat.mul_le_mul_left _ h1
      have h3 := wval_lt xp.mem 0 k
      rw [wval_top, Nat.zero_add, pow_succ]
      rw [Nat.mul_add] at h2
      omega
    have hylt : wval yp.mem 0 ysize < radix ^ k :=
      (wval_lt yp.mem 0 ysize).trans_le (Nat.pow_le_pow_right radix_pos (by omega))
    exact (mpAdd_noCarry rp (k + 1) (.ptr xp) yp hy hle (by rw [Src.mem_ptr]; omega)).2

/-! ### Adding one word -/

theorem mpCopy_self (rp : Ptr) : (mpCopy .self k i rp).val = rp := by
  induction k generalizing i with
  | zero => rfl
  | succ k ih =>
    have hsame : (rp.wr i (rp.mem i)).val = rp := by simp [Ptr.wr]
    simp [mpCopy, hsame, ih]

theorem mpAddOneCarry_val (rp : Ptr) : (mpAddOneCarry k i rp).val =
    ((mpAddCarry .self k i rp 1).val.1, (mpAddCarry .self k i rp 1).val.2.2) := by
  induction k generalizing i rp with
  | zero => rfl
  | succ k ih =>
    have hstop : ∀ rp, (mpAddCarry .self k (i + 1) rp 0).val = (rp, i + 1, 0) := by
      cases k <;> simp [mpAddCarry]
    by_cases h : rp.mem i + 1#64 = 0#64
    · simp [mpAddOneCarry, mpAddCarry, h, ih]
    · simp [mpAddOneCarry, mpAddCarry, h, hstop]

theorem mpAddOneCarry_of_le_one (rp : Ptr) {h : Word} (hh : h.toNat ≤ 1) :
    (if h = 0 then (rp, 0) else (mpAddOneCarry k i rp).val) =
      ((mpAddCarry .self k i rp h.toNat).val.1, (mpAddCarry .self k i rp h.toNat).val.2.2) := by
  split_ifs with h0
  · cases k <;> simp [mpAddCarry, h0]
  · have h1 : h.toNat ≠ 0 := fun h' => h0 (BitVec.eq_of_toNat_eq h')
    rw [mpAddOneCarry_val, show h.toNat = 1 by omega, Nat.cast_one]

theorem mpAddOneCopy_spec (w : Word) :
    let r := (mpAddOneCopy xp (k + 1) (rp.wr 0 w).val).val
    SameOutside rp.mem r.mem 0 (k + 1) ∧ r.mem 0 = w ∧
      wval r.mem 1 k = wval (xp.mem rp) 1 k := by
  cases xp with
  | self =>
    refine ⟨(SameOutside.refl _ _ _).update le_rfl (by omega), by simp [mpAddOneCopy], ?_⟩
    exact wval_congr fun j h1 _ => by simp [mpAddOneCopy, update_of_ne (show j ≠ 0 by omega)]
  | ptr p =>
    obtain ⟨h2, h3⟩ := mpCopy_spec (.ptr p) k 1 (rp.wr 0 w).val
    refine ⟨fun j hj => ?_, (h2 0 (by omega)).trans (by simp), wval_congr h3⟩
    exact (h2 j (by omega)).trans (by rw [Ptr.wr_mem, update_of_ne (by omega)])

theorem mpAddOne_spec (xp : Src) (hx : 0 < xsize) (y : Word) :
    ∃ c : ℕ, c ≤ 1 ∧ (mpAddOne rp xp xsize y).val.2 = c ∧
      SameOutside rp.mem (mpAddOne rp xp xsize y).val.1.mem 0 xsize ∧
      wval (mpAddOne rp xp xsize y).val.1.mem 0 xsize + radix ^ xsize * c =
        wval (xp.mem rp) 0 xsize + y.toNat := by
  obtain _ | k := xsize
  · omega
  set t := udlong (xp.mem rp 0) + udlong y with ht
  have hround : t.toNat = (xp.mem rp 0).toNat + y.toNat := by
    simpa [ht, udlong] using toNat_addRound (xp.mem rp 0) y 0 (by decide)
  have hhigh : (highWord t).toNat ≤ 1 := by
    simpa [ht, udlong] using highWord_addRound (xp.mem rp 0) y 0 (by decide)
  obtain ⟨hout, h0, htail⟩ := mpAddOneCopy_spec xp k rp (lowWord t)
  set rp₁ := (mpAddOneCopy xp (k + 1) (rp.wr 0 (lowWord t)).val).val with hrp₁
  have hval : (mpAddOne rp xp (k + 1) y).val =
      if highWord t = 0 then (rp₁, 0) else (mpAddOneCarry k 1 rp₁).val := by
    rw [hrp₁, ht, ← xp.rd_val]
    exact val_ite _ _
  obtain ⟨c, hc, hc2, hout', hval'⟩ :=
    mpAddCarry_spec .self rp₁.mem k 1 rp₁ _ hhigh fun _ _ => rfl
  simp only [mpCopy_self] at hout' hval'
  rw [hval, mpAddOneCarry_of_le_one k 1 rp₁ hhigh]
  refine ⟨c, hc, hc2, fun j hj => ?_, ?_⟩
  · rw [hout' j (by omega), hout j hj]
  · rw [wval_succ, wval_succ (xp.mem rp), hout' 0 (by omega), h0, Nat.zero_add, ← htail]
    calc _ = (lowWord t).toNat + radix * (wval _ 1 k + radix ^ k * c) := by ring
      _ = ((lowWord t).toNat + radix * (highWord t).toNat) + radix * wval rp₁.mem 1 k := by
        rw [hval']; ring
      _ = _ := by rw [lowWord_add_highWord, hround]; ring

theorem mpAddUl_val (xp : Src) (xsize : ℕ) (y : Word) :
    (mpAddUl rp rsize xp xsize y).val =
      if (mpAddOne rp xp xsize y).val.2 ≠ 0 then
        (((mpAddOne rp xp xsize y).val.1.wr (rsize - 1)
          (BitVec.ofInt 64 (mpAddOne rp xp xsize y).val.2)).val, (mpAddOne rp xp xsize y).val.2)
      else (mpAddOne rp xp xsize y).val := by
  simp only [mpAddUl, val_bind]
  split_ifs <;> rfl

theorem mpAddUl_noCarry (xp : Src) (hx : 0 < xsize) (y : Word)
    (hlt : wval (xp.mem rp) 0 xsize + y.toNat < radix ^ xsize) :
    (mpAddUl rp rsize xp xsize y).val.2 = 0 ∧
      SameOutside rp.mem (mpAddUl rp rsize xp xsize y).val.1.mem 0 xsize ∧
      wval (mpAddUl rp rsize xp xsize y).val.1.mem 0 xsize =
        wval (xp.mem rp) 0 xsize + y.toNat := by
  obtain ⟨c, hc, hc2, hout, hval⟩ := mpAddOne_spec rp xp hx y
  obtain rfl := carry_eq_zero (hval.trans_lt hlt)
  rw [mpAddUl_val, if_neg (by rw [hc2]; simp)]
  exact ⟨hc2, hout, by simpa using hval⟩

end Sagittarius
