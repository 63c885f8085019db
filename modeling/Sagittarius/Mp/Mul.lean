import Sagittarius.Mp.Shift

/-!
# Grade-school multiplication

`mp_mul_ul` multiplies by one word, `mp_mul_add` adds such a product to a number in place, and
`long_mul` makes the product of two numbers out of them.  None of them reads a word of the
result before it has written it, apart from the words that `mp_mul_add` adds to.

* `mpMulAdd_spec`, `mpMulAdd_off` : the sum in place, with the carry that is returned;
* `longMul_spec` : the product, whatever the result buffer held before.
-/

namespace Sagittarius

open Digits Function Sagittarius.Acc Ptr

/-! ### The functions -/

/-- The loop of `mp_mul_ul` (`k` more rounds from index `i` on). -/
def mpMulUlLoop (xp : Ptr) (y : Word) : ℕ → ℕ → Ptr → DWord → Acc (Ptr × DWord)
  | 0, _, rp, p => pure (rp, p)
  | k + 1, i, rp, p => do
    let x ← xp.rd i
    let p := udlong x * udlong y + udlong (highWord p)
    let rp ← rp.wr i (lowWord p)
    mpMulUlLoop xp y k (i + 1) rp p

/-- `mp_mul_ul`.  The length of the result is not used when `USE_DLONG` is defined. -/
def mpMulUl (rp xp : Ptr) (xsize : ℕ) (y : Word) : Acc Ptr := do
  let x ← xp.rd 0
  let p := udlong x * udlong y
  let rp ← rp.wr 0 (lowWord p)
  let (rp, p) ← mpMulUlLoop xp y (xsize - 1) 1 rp p
  rp.wr (max 1 xsize) (highWord p)

/-- The loop of `mp_mul_add` (`n` more rounds from index `i` on). -/
def mpMulAddLoop (inp : Ptr) (k : Word) : ℕ → ℕ → Ptr → DWord → Acc (Ptr × DWord)
  | 0, _, out, p => pure (out, p)
  | n + 1, i, out, p => do
    let x ← inp.rd i
    let o ← out.rd i
    let p := udlong x * udlong k + udlong (highWord p) + udlong o
    let out ← out.wr i (lowWord p)
    mpMulAddLoop inp k n (i + 1) out p

/-- Adds a multiple, and returns the carry. -/
def mpMulAdd (out inp : Ptr) (len : ℕ) (k : Word) : Acc (Ptr × Word) := do
  let x ← inp.rd 0
  let o ← out.rd 0
  let p := udlong x * udlong k + udlong o
  let out ← out.wr 0 (lowWord p)
  let (out, p) ← mpMulAddLoop inp k (len - 1) 1 out p
  return (out, highWord p)

/-- The loop of `long_mul` (`n` more rounds from index `i` on). -/
def longMulLoop (xp : Ptr) (xsize : ℕ) (yp : Ptr) : ℕ → ℕ → Ptr → Acc Ptr
  | 0, _, rp => pure rp
  | n + 1, i, rp => do
    let y ← yp.rd i
    let (out, c) ← mpMulAdd (rp.off i) xp xsize y
    let rp ← (rp.putBack i out).wr (xsize + i) c
    longMulLoop xp xsize yp n (i + 1) rp

/-- Multiplies by the school method. -/
def longMul (rp xp : Ptr) (xsize : ℕ) (yp : Ptr) (ysize : ℕ) : Acc Ptr := do
  -- multiply first word
  let y ← yp.rd 0
  let rp ← mpMulUl rp xp xsize y
  -- add in subsequent words
  longMulLoop xp xsize yp (ysize - 1) 1 rp

/-! ### One word times a number -/

theorem toNat_mulRound (x y h o : Word) :
    (udlong x * udlong y + udlong h + udlong o).toNat =
      x.toNat * y.toNat + h.toNat + o.toNat := by
  have hxy : x.toNat * y.toNat ≤ (2 ^ 64 - 1) * (2 ^ 64 - 1) :=
    Nat.mul_le_mul (by omega) (by omega)
  simp only [BitVec.toNat_add, BitVec.toNat_mul, toNat_udlong]
  omega

theorem mpMulAddLoop_spec (inp : Ptr) (k : Word) (n i : ℕ) (out : Ptr) (p : DWord) :
    let r := (mpMulAddLoop inp k n i out p).val
    SameOutside out.mem r.1.mem i n ∧
      wval r.1.mem i n + radix ^ n * (highWord r.2).toNat =
        wval out.mem i n + wval inp.mem i n * k.toNat + (highWord p).toNat := by
  have hL : WordLoop .self (fun n i out p => (mpMulAddLoop inp k n i out p).val)
      (fun i x p => udlong (inp.mem i) * udlong k + udlong (highWord p) + udlong x) lowWord id :=
    ⟨fun _ _ _ => rfl, fun _ _ _ _ => rfl⟩
  have h := hL.sum (Q := fun _ => True) (fun i p _ => ⟨trivial, by
    rw [toNat_mulRound, Nat.add_right_comm, Nat.add_comm (_ * _)]⟩) n i out p (fun _ _ => rfl)
    trivial
  rw [seg_add, seg_mul] at h
  exact ⟨h.1, h.2.2⟩

/-- **`mp_mul_add`** adds a multiple of one number to another one in place. -/
theorem mpMulAdd_spec (out inp : Ptr) {len : ℕ} (hlen : 0 < len) (k : Word) :
    let r := (mpMulAdd out inp len k).val
    SameOutside out.mem r.1.mem 0 len ∧
      wval r.1.mem 0 len + radix ^ len * r.2.toNat =
        wval out.mem 0 len + wval inp.mem 0 len * k.toNat := by
  obtain _ | n := len
  · omega
  -- the first word is a round of the loop with nothing carried in
  have hfirst : (mpMulAdd out inp (n + 1) k).val =
      (fun r : Ptr × DWord => (r.1, highWord r.2)) (mpMulAddLoop inp k (n + 1) 0 out 0).val := by
    simp only [mpMulAdd, mpMulAddLoop, val_bind, val_pure, Ptr.rd_val, add_highWord_zero,
      Nat.add_sub_cancel]
  rw [hfirst]
  exact mpMulAddLoop_spec inp k (n + 1) 0 out 0

theorem mpMulAdd_off (rp inp : Ptr) (len : ℕ) (hlen : 0 < len) (i : ℕ) (k : Word) :
    let q := (mpMulAdd (rp.off i) inp len k).val
    let r := rp.putBack i q.1
    SameOutside rp.mem r.mem i len ∧
      wval r.mem i len + radix ^ len * q.2.toNat =
        wval rp.mem i len + wval inp.mem 0 len * k.toNat := by
  obtain ⟨hout, hval⟩ := mpMulAdd_spec (rp.off i) inp hlen k
  refine ⟨sameOutside_putBack hout, ?_⟩
  rw [wval_putBack, hval, wval_off]

theorem mpMulUlLoop_spec (xp : Ptr) (y : Word) (k i : ℕ) (rp : Ptr) (p : DWord) :
    let r := (mpMulUlLoop xp y k i rp p).val
    SameOutside rp.mem r.1.mem i k ∧
      wval r.1.mem i k + radix ^ k * (highWord r.2).toNat =
        wval xp.mem i k * y.toNat + (highWord p).toNat := by
  have hL : WordLoop (.ptr xp) (fun k i rp p => (mpMulUlLoop xp y k i rp p).val)
      (fun _ x p => udlong x * udlong y + udlong (highWord p)) lowWord id :=
    ⟨fun _ _ _ => rfl, fun _ _ _ _ => rfl⟩
  have h := hL.sum (Q := fun _ => True) (fun i p _ => by
    have h0 := toNat_mulRound (xp.mem i) y (highWord p) 0
    rw [show udlong 0 = 0#128 from rfl, BitVec.add_zero] at h0
    exact ⟨trivial, h0⟩) k i rp p (fun _ _ => rfl) trivial
  rw [seg_mul] at h
  exact ⟨h.1, h.2.2⟩

theorem mpMulUl_spec (rp xp : Ptr) {xsize : ℕ} (hx : 0 < xsize) (y : Word) :
    SameOutside rp.mem (mpMulUl rp xp xsize y).val.mem 0 (xsize + 1) ∧
      wval (mpMulUl rp xp xsize y).val.mem 0 (xsize + 1) = wval xp.mem 0 xsize * y.toNat := by
  obtain _ | k := xsize
  · omega
  have hfirst : (mpMulUl rp xp (k + 1) y).val =
      (fun r : Ptr × DWord => (r.1.wr (k + 1) (highWord r.2)).val)
        (mpMulUlLoop xp y (k + 1) 0 rp 0).val := by
    simp only [mpMulUl, mpMulUlLoop, val_bind, Ptr.rd_val, add_highWord_zero,
      Nat.add_sub_cancel, max_eq_right (Nat.le_add_left 1 k)]
  rw [hfirst]
  obtain ⟨hout, hval⟩ := mpMulUlLoop_spec xp y (k + 1) 0 rp 0
  set r := (mpMulUlLoop xp y (k + 1) 0 rp 0).val
  refine ⟨fun j hj => ?_, ?_⟩
  · rw [wr_mem, update_of_ne (by omega), hout j (by omega)]
  · rw [wval_top, Nat.zero_add, wr_mem, update_self,
      wval_congr (p := r.1.mem) fun j _ h2 => update_of_ne (by omega) _ _, hval]
    simp

/-! ### The product of two numbers -/

theorem longMulLoop_spec (xp : Ptr) {xsize : ℕ} (hx : 0 < xsize) (yp : Ptr) (n i : ℕ) (rp : Ptr)
    (hrp : wval rp.mem 0 (xsize + i) = wval xp.mem 0 xsize * wval yp.mem 0 i) :
    let r := (longMulLoop xp xsize yp n i rp).val
    SameOutside rp.mem r.mem 0 (xsize + (i + n)) ∧
      wval r.mem 0 (xsize + (i + n)) = wval xp.mem 0 xsize * wval yp.mem 0 (i + n) := by
  induction n generalizing i rp with
  | zero => exact ⟨.refl _ _ _, hrp⟩
  | succ n ih =>
    simp only [longMulLoop, val_bind, Ptr.rd_val]
    obtain ⟨hout, hval⟩ := mpMulAdd_off rp xp xsize hx i (yp.mem i)
    set q := (mpMulAdd (rp.off i) xp xsize (yp.mem i)).val
    set rp' := rp.putBack i q.1 with hrp'
    -- the invariant for one more word of `y`
    have hstep : wval (rp'.wr (xsize + i) q.2).val.mem 0 (xsize + (i + 1)) =
        wval xp.mem 0 xsize * wval yp.mem 0 (i + 1) := by
      rw [← Nat.add_assoc, wval_top, Nat.zero_add, wr_mem, update_self,
        wval_congr (p := rp'.mem) fun j _ h2 => update_of_ne (by omega) _ _, wval_top yp.mem,
        Nat.mul_add, ← hrp, Nat.add_comm xsize i, wval_append, wval_append rp.mem, Nat.zero_add,
        hout.wval_eq (by omega), pow_add]
      calc _ = wval rp.mem 0 i + radix ^ i * (wval rp'.mem i xsize + radix ^ xsize * q.2.toNat) :=
            by ring
        _ = _ := by rw [hval]; ring
    obtain ⟨hout', hval'⟩ := ih (i + 1) _ hstep
    rw [show i + 1 + n = i + (n + 1) by ring] at hout' hval'
    refine ⟨fun j hj => ?_, hval'⟩
    rw [hout' j hj, wr_mem, update_of_ne (by omega), hout j (by omega)]

/-- **`long_mul`** leaves the product, whatever the result held before. -/
theorem longMul_spec (rp xp : Ptr) {xsize : ℕ} (hx : 0 < xsize) (yp : Ptr) {ysize : ℕ}
    (hy : 0 < ysize) :
    SameOutside rp.mem (longMul rp xp xsize yp ysize).val.mem 0 (xsize + ysize) ∧
      wval (longMul rp xp xsize yp ysize).val.mem 0 (xsize + ysize) =
        wval xp.mem 0 xsize * wval yp.mem 0 ysize := by
  obtain ⟨n, rfl⟩ : ∃ n, ysize = 1 + n := ⟨ysize - 1, by omega⟩
  obtain ⟨hout, hval⟩ := mpMulUl_spec rp xp hx (yp.mem 0)
  simp only [longMul, val_bind, Ptr.rd_val, Nat.add_sub_cancel_left]
  obtain ⟨hout', hval'⟩ := longMulLoop_spec xp hx yp n 1 _ (by rw [hval, wval_one])
  exact ⟨(hout.mono le_rfl (by omega)).trans hout', hval'⟩

end Sagittarius
