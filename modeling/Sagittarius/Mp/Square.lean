import Sagittarius.Mp.Karatsuba

/-!
# Squaring

`mp_base_square` stores the squares of the words shifted right by one bit, adds the products of
different words once, and shifts the whole back.  `karatsuba_square` splits its operand in two
and squares the halves and their sum; it works in the uncleared result buffer, where it shifts
and adds in place.

The last addition of `karatsuba_square` is called with a length that is one more than that of
the result: the word behind the result is read and written back unchanged.

* `mpBaseSquare_spec` : the square, with all the off-diagonal sums in place;
* `mpSquareRec_spec` : `mp_square_rec` leaves the square, whatever the result held before.
-/

namespace Sagittarius

open Function Digits Nat Sagittarius.Acc Ptr Src

/-! ### The functions -/

/-- The first loop of `mp_base_square`, for the `k` lowest words: the squares, shifted right by
one bit. -/
def baseSquareDiag (xp : Ptr) : ℕ → Ptr → Word → Acc Ptr
  | 0, rp, _ => pure rp
  | k + 1, rp, last => do
    let t ← xp.rd k
    let p := udlong t * udlong t
    let rp ← rp.wr (2 * k + 1) ((last <<< 63) ||| lowWord (p >>> 65))
    let rp ← rp.wr (2 * k) (lowWord (p >>> 1))
    baseSquareDiag xp k rp (lowWord (p &&& 1))

/-- The second loop of `mp_base_square`, from word `i` on: the off-diagonal sums. -/
def baseSquareOff (xp : Ptr) (rsize : ℕ) : ℕ → ℕ → Ptr → Acc Ptr
  | 0, _, rp => pure rp
  | l + 1, i, rp => do
    let xlen := l + 1
    let j := 2 * i + 1
    let t ← xp.rd i
    let ts := xlen + j
    let (q, t) ← mpMulAdd (rp.off j) (xp.off (i + 1)) xlen t
    let rp := rp.putBack j q
    let (q, _) ← mpAddUl (rp.off ts) (rsize - ts) .self (xlen + 1) t
    let rp := rp.putBack ts q
    baseSquareOff xp rsize l (i + 1) rp

/-- The square by the school method. -/
def mpBaseSquare (rp : Ptr) (rsize : ℕ) (xp : Ptr) (xsize : ℕ) : Acc Ptr := do
  let rp ← baseSquareDiag xp xsize rp 0
  let rp ← baseSquareOff xp rsize (xsize - 1) 0 rp
  let rp ← mpLshift rp rsize .self (2 * xsize) 1
  let x ← xp.rd 0
  let r ← rp.rd 0
  rp.wr 0 (r ||| (x &&& 1))

/-- The least length for squares. -/
def karatsubaSquareLowLimit : ℕ := (2880 >>> 3) / 8

/-- The operand is long enough. -/
def canKaratsubaSquare (len : ℕ) : Bool := decide (len ≥ karatsubaSquareLowLimit)

theorem canKaratsubaSquare_iff {len : ℕ} : canKaratsubaSquare len = true ↔ 45 ≤ len := by
  rw [canKaratsubaSquare, decide_eq_true_iff, show karatsubaSquareLowLimit = 45 by decide,
    ge_iff_le]

/-- The statements of `karatsuba_square` after the subtraction. -/
def karatsubaSquareCombine (rp : Ptr) (rsize a2len n : ℕ) (apb2 : Ptr) (apb2len : ℕ) (b2 : Ptr)
    (n2 : ℕ) : Acc Ptr := do
  let a2Ext := (n * 64 + 64 - 1) / 64
  let apb2Ext := (n * 64 + 64 - 1) / 64
  let rp ← mpLshift rp (a2len + a2Ext) .self a2len (n * 64)
  let (rp, _) ← mpAdd rp rsize .self (a2len + a2Ext) apb2 apb2len
  -- +1 in case of carry
  let rlen := a2len + a2Ext
  let rlen := if rsize = rlen then rlen else rlen + 1
  let rp ← mpLshift rp rsize .self rlen (n * 64)
  let (rp, _) ← mpAdd rp rsize .self (rlen + apb2Ext) b2 n2
  return rp

mutual

/-- Three squares of halves. -/
def karatsubaSquare (g : Junk) (rp : Ptr) (rsize : ℕ) (xp : Ptr) (xsize : ℕ)
    (_h : canKaratsubaSquare xsize = true) : Acc Ptr := do
  let n := xsize / 2
  let n2 := 2 * n
  let alen := xsize - n
  let a := xp.off n
  let b := xp
  let a2len := 2 * alen
  let apblen ← (mpSafeSizeForAdd a alen b n).attach
  let apb2len := 2 * apblen.1
  let b2 := g.buf 0 n2
  let apb := g.buf 1 apblen.1
  let apb2 := g.buf 2 apb2len
  let apb ← apb.wr (apblen.1 - 1) 0
  let rp ← mpSquareRec (g.sub 4) rp a2len a alen
  let b2 ← mpSquareRec (g.sub 5) b2 n2 b n
  let a2pb2len ← mpSafeSizeForAdd rp a2len b2 n2
  let a2pb2 ← (g.buf 3 a2pb2len).wr (a2pb2len - 1) 0
  let (apb, _) ← mpAdd apb apblen.1 (.ptr a) alen b n
  let apb2 ← mpSquareRec (g.sub 6) apb2 apb2len apb apblen.1
  let (a2pb2, _) ← mpAdd a2pb2 a2pb2len (.ptr rp) a2len b2 n2
  let (apb2, _) ← mpSub apb2 apb2len .self apb2len a2pb2 a2pb2len
  karatsubaSquareCombine rp rsize a2len n apb2 apb2len b2 n2
termination_by (xsize, 0)
decreasing_by
  all_goals
    have h1 := mpSafeSizeForAdd_bounds a alen b n
    have h2 := apblen.2
    rw [canKaratsubaSquare_iff] at _h
    omega

/-- The square by one of the two methods. -/
def mpSquareRec (g : Junk) (rp : Ptr) (rsize : ℕ) (xp : Ptr) (xsize : ℕ) : Acc Ptr :=
  if xsize = 0 then pure rp
  else if h : canKaratsubaSquare xsize = true then karatsubaSquare g rp rsize xp xsize h
  else mpBaseSquare rp rsize xp xsize
termination_by (xsize, 1)

end

/-- Clears the result, and squares. -/
def mpSquare (g : Junk) (rp : Ptr) (rsize : ℕ) (xp : Ptr) (xsize : ℕ) : Acc Ptr :=
  mpSquareRec g rp rsize xp xsize

/-! ### The squares of the words -/

/-- The squares of `k` words from index `i` on, each in its place. -/
def diagSum (m : Mem) (i k : ℕ) : ℕ := seg (radix ^ 2) (fun j => (m j).toNat ^ 2) i k

/-- The products of different words among the `k` words from index `i` on, each once. -/
def offSum (m : Mem) : ℕ → ℕ → ℕ
  | _, 0 => 0
  | i, k + 1 =>
    radix * ((m i).toNat * wval m (i + 1) k) + radix ^ 2 * offSum m (i + 1) k

theorem wval_sq (m : Mem) (i k : ℕ) : wval m i k ^ 2 = diagSum m i k + 2 * offSum m i k := by
  induction k generalizing i with
  | zero => rfl
  | succ k ih =>
    have hd : diagSum m i (k + 1) = (m i).toNat ^ 2 + radix ^ 2 * diagSum m (i + 1) k := rfl
    rw [wval_succ, hd, offSum]
    calc _ = (m i).toNat ^ 2 + 2 * (radix * ((m i).toNat * wval m (i + 1) k)) +
          radix ^ 2 * wval m (i + 1) k ^ 2 := by ring
      _ = _ := by rw [ih]; ring

theorem diagWords (x last : Word) (hl : last.toNat ≤ 1) :
    let p := udlong x * udlong x
    (lowWord (p &&& 1)).toNat ≤ 1 ∧
      2 * ((lowWord (p >>> 1)).toNat +
          radix * ((last <<< 63) ||| lowWord (p >>> 65)).toNat) + (lowWord (p &&& 1)).toNat =
        x.toNat ^ 2 + radix ^ 2 * last.toNat := by
  intro p
  have hp : p.toNat = x.toNat ^ 2 := by
    have h := toNat_mulRound x x 0 0
    rw [show udlong 0 = 0#128 from rfl, BitVec.add_zero, BitVec.add_zero] at h
    rw [show p = udlong x * udlong x from rfl, h, pow_two]
    rfl
  have hlow : (lowWord (p &&& 1)).toNat = p.toNat % 2 := by
    rw [toNat_lowWord, BitVec.toNat_and, show (1 : DWord).toNat = 1 from rfl, and_one_is_mod,
      radix]
    omega
  have h1 : (lowWord (p >>> 1)).toNat = p.toNat / 2 % radix := by
    rw [toNat_lowWord, BitVec.toNat_ushiftRight, shiftRight_eq_div_pow, pow_one]
  have h65 : (lowWord (p >>> 65)).toNat = p.toNat / 2 ^ 65 := by
    rw [toNat_lowWord, BitVec.toNat_ushiftRight, shiftRight_eq_div_pow, radix]
    omega
  -- the bit of the word above and the rest of the square do not overlap
  have hor : ((last <<< 63) ||| lowWord (p >>> 65)).toNat =
      last.toNat * 2 ^ 63 + p.toNat / 2 ^ 65 := by
    have hlast : (last <<< 63).toNat = last.toNat <<< 63 := by
      rw [toNat_shl, shiftLeft_eq, radix]
      omega
    rw [BitVec.toNat_or, hlast, h65, ← shiftLeft_add_eq_or_of_lt (by omega),
      shiftLeft_eq]
  rw [hlow, h1, hor, ← hp, radix]
  omega

theorem baseSquareDiag_spec (xp : Ptr) (k : ℕ) (rp : Ptr) (last : Word) (hl : last.toNat ≤ 1) :
    let r := (baseSquareDiag xp k rp last).val
    SameOutside rp.mem r.mem 0 (2 * k) ∧ ∃ b, b ≤ 1 ∧
      2 * wval r.mem 0 (2 * k) + b = diagSum xp.mem 0 k + radix ^ (2 * k) * last.toNat := by
  induction k generalizing rp last with
  | zero => exact ⟨.refl _ _ _, last.toNat, hl, by simp [diagSum]⟩
  | succ k ih =>
    simp only [baseSquareDiag, val_bind, Ptr.rd_val]
    obtain ⟨hl', hwords⟩ := diagWords (xp.mem k) last hl
    set p := udlong (xp.mem k) * udlong (xp.mem k)
    set w₁ := (last <<< 63) ||| lowWord (p >>> 65)
    set w₀ := lowWord (p >>> 1)
    obtain ⟨hout, b, hb, hval⟩ :=
      ih ((rp.wr (2 * k + 1) w₁).val.wr (2 * k) w₀).val (lowWord (p &&& 1)) hl'
    set r := (baseSquareDiag xp k ((rp.wr (2 * k + 1) w₁).val.wr (2 * k) w₀).val
      (lowWord (p &&& 1))).val
    have h0 : r.mem (2 * k) = w₀ := by rw [hout _ (by omega)]; simp
    have h1 : r.mem (2 * k + 1) = w₁ := by
      rw [hout _ (by omega), wr_mem, update_of_ne (by omega)]
      simp
    refine ⟨fun j hj => ?_, b, hb, ?_⟩
    · rw [hout j (by omega), wr_mem, update_of_ne (by omega), wr_mem,
        update_of_ne (by omega)]
    · have hd : diagSum xp.mem 0 (k + 1) =
          diagSum xp.mem 0 k + radix ^ (2 * k) * (xp.mem k).toNat ^ 2 := by
        rw [diagSum, seg_top, Nat.zero_add, ← pow_mul]
        rfl
      rw [show 2 * (k + 1) = 2 * k + 1 + 1 by ring, wval_top, wval_top, Nat.zero_add,
        Nat.zero_add, h0, h1, hd]
      calc _ = 2 * wval r.mem 0 (2 * k) + b +
            radix ^ (2 * k) * (2 * (w₀.toNat + radix * w₁.toNat)) := by ring
        _ = diagSum xp.mem 0 k + radix ^ (2 * k) * (2 * (w₀.toNat + radix * w₁.toNat) +
            (lowWord (p &&& 1)).toNat) := by rw [hval]; ring
        _ = _ := by rw [hwords]; ring

/-! ### The off-diagonal sums -/

theorem mpAddUl_off (rp : Ptr) (rsize i : ℕ) {len : ℕ} (hlen : 0 < len) (y : Word)
    (hlt : wval rp.mem i len + y.toNat < radix ^ len) :
    let r := rp.putBack i (mpAddUl (rp.off i) rsize .self len y).val.1
    SameOutside rp.mem r.mem i len ∧ wval r.mem i len = wval rp.mem i len + y.toNat := by
  obtain ⟨-, hout, hval⟩ := mpAddUl_noCarry (rp.off i) rsize .self hlen y
    (by rwa [mem_self, wval_off])
  refine ⟨sameOutside_putBack hout, ?_⟩
  rw [wval_putBack, hval, mem_self, wval_off]

/-- The invariant of the loop: what the result holds and what is still to be added make up a
total `T` that fits into it. -/
theorem baseSquareOff_spec (xp : Ptr) (rsize : ℕ) (l i : ℕ) (rp : Ptr) (T : ℕ)
    (hT : wval rp.mem 0 (2 * (i + (l + 1))) + radix ^ (2 * i) * offSum xp.mem i (l + 1) = T)
    (hfit : T < radix ^ (2 * (i + (l + 1)))) :
    let r := (baseSquareOff xp rsize l i rp).val
    SameOutside rp.mem r.mem 0 (2 * (i + (l + 1))) ∧
      wval r.mem 0 (2 * (i + (l + 1))) = T := by
  induction l generalizing i rp with
  | zero => exact ⟨.refl _ _ _, by simpa [baseSquareOff, offSum] using hT⟩
  | succ l ih =>
    simp only [baseSquareOff, val_bind, Ptr.rd_val]
    rw [show 2 * (i + (l + 1 + 1)) = 2 * i + 1 + (l + 1 + (l + 2)) by ring] at hT hfit ⊢
    set N := 2 * i + 1 + (l + 1 + (l + 2)) with hN
    -- the product of word `i` with the words above it
    obtain ⟨hout1, hval1⟩ :=
      mpMulAdd_off rp (xp.off (i + 1)) (l + 1) (by omega) (2 * i + 1) (xp.mem i)
    set q := (mpMulAdd (rp.off (2 * i + 1)) (xp.off (i + 1)) (l + 1) (xp.mem i)).val
    set rp₁ := rp.putBack (2 * i + 1) q.1 with hrp₁
    rw [wval_off] at hval1
    -- its carry, which goes into the words up to the end
    set ts := l + 1 + (2 * i + 1) with hts
    have hsum : wval rp₁.mem 0 N + radix ^ ts * q.2.toNat +
        radix ^ (2 * (i + 1)) * offSum xp.mem (i + 1) (l + 1) = T := by
      have hoff : offSum xp.mem i (l + 1 + 1) = radix * ((xp.mem i).toNat *
          wval xp.mem (i + 1) (l + 1)) + radix ^ 2 * offSum xp.mem (i + 1) (l + 1) := rfl
      rw [hoff] at hT
      linear_combination hout1.wval_frame (Nat.zero_add _).symm + radix ^ (2 * i + 1) * hval1 + hT
    have hcarry : wval rp₁.mem ts (l + 2) + q.2.toNat < radix ^ (l + 2) := by
      have h : radix ^ ts * (wval rp₁.mem ts (l + 2) + q.2.toNat) <
          radix ^ ts * radix ^ (l + 2) := by
        have hle : radix ^ ts * wval rp₁.mem ts (l + 2) ≤ wval rp₁.mem 0 N := by
          rw [show N = ts + (l + 2) by omega, wval_append rp₁.mem 0 ts (l + 2), Nat.zero_add]
          omega
        rw [Nat.mul_add, ← pow_add, show ts + (l + 2) = N by omega]
        omega
      exact Nat.lt_of_mul_lt_mul_left h
    obtain ⟨hout2, hval2⟩ := mpAddUl_off rp₁ (rsize - ts) ts (by omega) q.2 hcarry
    set rp₂ := rp₁.putBack ts (mpAddUl (rp₁.off ts) (rsize - ts) .self (l + 2) q.2).val.1
    have hT' : wval rp₂.mem 0 N + radix ^ (2 * (i + 1)) * offSum xp.mem (i + 1) (l + 1) = T := by
      have hframe := hout2.wval_frame (b := 0) (Nat.zero_add ts).symm
      rw [show ts + (l + 2 + 0) = N by omega, hval2] at hframe
      linear_combination hframe + hsum
    rw [show N = 2 * (i + 1 + (l + 1)) by omega] at hT' hfit ⊢
    obtain ⟨hout, hval⟩ := ih (i + 1) rp₂ hT' hfit
    refine ⟨fun j hj => ?_, hval⟩
    rw [hout j hj, hout2 j (by omega), hout1 j (by omega)]

variable {xsize : ℕ}

/-- **`mp_base_square`** leaves the square, whatever the result held before. -/
theorem mpBaseSquare_spec (rp xp : Ptr) (hx : 0 < xsize) :
    let r := (mpBaseSquare rp (2 * xsize) xp xsize).val
    SameOutside rp.mem r.mem 0 (2 * xsize) ∧
      wval r.mem 0 (2 * xsize) = wval xp.mem 0 xsize ^ 2 := by
  obtain _ | l := xsize
  · omega
  simp only [mpBaseSquare, val_bind, Ptr.rd_val, Nat.add_sub_cancel]
  -- the squares
  obtain ⟨hout1, b, hb, hval1⟩ := baseSquareDiag_spec xp (l + 1) rp 0 (by decide)
  set rp₁ := (baseSquareDiag xp (l + 1) rp 0).val
  rw [show (0 : Word).toNat = 0 from rfl, Nat.mul_zero, Nat.add_zero] at hval1
  have hsq := wval_sq xp.mem 0 (l + 1)
  have hlt : wval xp.mem 0 (l + 1) ^ 2 < radix ^ (2 * (l + 1)) := by
    rw [Nat.mul_comm, pow_mul]
    exact Nat.pow_lt_pow_left (wval_lt _ _ _) (by omega)
  -- the off-diagonal sums
  obtain ⟨hout2, hval2⟩ := baseSquareOff_spec xp (2 * (l + 1)) l 0 rp₁
    (wval rp₁.mem 0 (2 * (l + 1)) + offSum xp.mem 0 (l + 1)) (by simp) (by
      rw [Nat.zero_add]; omega)
  rw [Nat.zero_add] at hout2 hval2
  set rp₂ := (baseSquareOff xp (2 * (l + 1)) l 0 rp₁).val
  -- shifted back
  obtain ⟨hout3, hval3⟩ := mpLshift_spec rp₂ (2 * (l + 1)) .self
    (2 * (l + 1)) 1 (by omega) (by omega)
  rw [show mpLshiftLen (2 * (l + 1)) (2 * (l + 1)) 1 = 2 * (l + 1) by rw [mpLshiftLen]; omega]
    at hout3 hval3
  set rp₃ := (mpLshift rp₂ (2 * (l + 1)) .self (2 * (l + 1)) 1).val
  rw [mem_self, hval2, pow_one, mod_eq_of_lt (by omega)] at hval3
  -- and the lowest bit
  have hfirst : ∀ m : Mem, wval m 0 (2 * (l + 1)) =
      (m 0).toNat + radix * wval m 1 (2 * l + 1) := fun m => wval_succ m 0 (2 * l + 1)
  have heven : (rp₃.mem 0).toNat % 2 = 0 := by
    rw [hfirst rp₃.mem, radix] at hval3
    omega
  have hodd : b = (xp.mem 0).toNat % 2 := by
    have hmod : wval xp.mem 0 (l + 1) ^ 2 % 2 = (xp.mem 0).toNat % 2 := by
      rw [wval_succ, pow_mod, add_mod, mul_mod, radix]
      rcases mod_two_eq_zero_or_one (xp.mem 0).toNat with h | h <;> simp [h]
    omega
  have hor : (rp₃.mem 0 ||| (xp.mem 0 &&& 1)).toNat = (rp₃.mem 0).toNat + b := by
    have h : ((rp₃.mem 0).toNat / 2) <<< 1 = (rp₃.mem 0).toNat := by
      omega
    rw [BitVec.toNat_or, BitVec.toNat_and, show (1 : Word).toNat = 1 from rfl, and_one_is_mod,
      ← hodd, ← h, shiftLeft_add_eq_or_of_lt (by omega)]
  refine ⟨fun j hj => ?_, ?_⟩
  · rw [wr_mem, update_of_ne (by omega), hout3 j hj, hout2 j hj, hout1 j hj]
  · rw [hfirst, wr_mem, update_self, hor,
      wval_congr (p := rp₃.mem) fun j h1 _ => update_of_ne (by omega) _ _]
    rw [hfirst rp₃.mem] at hval3
    omega

/-! ### Squaring by halves -/

theorem two_pow_words (n : ℕ) : 2 ^ (n * 64) = radix ^ n := by rw [radix, ← pow_mul, Nat.mul_comm]

/-- An addition in place whose length is one word more than the number: that word is written
back as it was. -/
theorem mpAdd_self_past_end (rp : Ptr) (rsize len : ℕ) (yp : Ptr) (ysize : ℕ)
    (hy : 0 < ysize) (hle : ysize ≤ len)
    (hfit : wval rp.mem 0 len + wval yp.mem 0 ysize < radix ^ len) :
    let r := (mpAdd rp rsize .self (len + 1) yp ysize).val.1
    SameOutside rp.mem r.mem 0 len ∧
      wval r.mem 0 len = wval rp.mem 0 len + wval yp.mem 0 ysize := by
  have hword := toNat_lt_radix (rp.mem len)
  have hlong : wval rp.mem 0 (len + 1) + wval yp.mem 0 ysize < radix ^ (len + 1) := by
    rw [wval_top, Nat.zero_add]
    calc _ = (wval rp.mem 0 len + wval yp.mem 0 ysize) + radix ^ len * (rp.mem len).toNat := by
          ring
      _ < radix ^ len + radix ^ len * (rp.mem len).toNat := by omega
      _ = radix ^ len * ((rp.mem len).toNat + 1) := by ring
      _ ≤ radix ^ len * radix := mul_le_mul_left _ hword
      _ = _ := (pow_succ _ _).symm
  obtain ⟨-, hout, hval⟩ := mpAdd_noCarry rp rsize .self yp hy (by omega) hlong
  set r := (mpAdd rp rsize .self (len + 1) yp ysize).val.1
  rw [mem_self, wval_top, wval_top rp.mem, Nat.zero_add, Nat.add_right_comm] at hval
  obtain ⟨hlow, htop⟩ := split_inj (wval_lt r.mem 0 len) hfit hval
  refine ⟨fun j hj => ?_, hlow⟩
  rcases Nat.lt_or_ge len j with h | h
  · exact hout j (by omega)
  · obtain rfl : j = len := by omega
    exact BitVec.eq_of_toNat_eq htop

theorem karatsubaSquareCombine_spec (rp : Ptr) (a2len n : ℕ) (apb2 : Ptr) (apb2len : ℕ)
    (b2 : Ptr) {P M Q : ℕ} (hn : 0 < n) (ha2 : 0 < a2len) (hapb2 : 0 < apb2len)
    (hle : apb2len ≤ a2len + n) (hP : wval rp.mem 0 a2len = P)
    (hM : wval apb2.mem 0 apb2len = M) (hQ : wval b2.mem 0 (2 * n) = Q)
    (hfit : radix ^ n * (radix ^ n * P + M) + Q < radix ^ (a2len + 2 * n)) :
    let r := (karatsubaSquareCombine rp (a2len + 2 * n) a2len n apb2 apb2len b2 (2 * n)).val
    SameOutside rp.mem r.mem 0 (a2len + 2 * n) ∧
      wval r.mem 0 (a2len + 2 * n) = radix ^ n * (radix ^ n * P + M) + Q := by
  simp only [karatsubaSquareCombine, val_bind, val_pure,
    show (n * 64 + 64 - 1) / 64 = n by omega, show ¬ a2len + 2 * n = a2len + n by omega, ite_false]
  -- the upper square, moved up by `n` words
  obtain ⟨hout1, hval1⟩ := mpLshift_spec rp (a2len + n) .self a2len (n * 64)
    ha2 (by omega)
  rw [show mpLshiftLen (a2len + n) a2len (n * 64) = a2len + n by rw [mpLshiftLen]; omega]
    at hout1 hval1
  set rp₁ := (mpLshift rp (a2len + n) .self a2len (n * 64)).val
  rw [two_pow_words, mem_self, pow_add, mul_mod_mul_right, mod_eq_of_lt (wval_lt _ _ _), hP,
    Nat.mul_comm] at hval1
  -- the middle term added
  have hpow : radix ^ (a2len + 2 * n) = radix ^ n * radix ^ (a2len + n) := by ring
  have hmid : radix ^ n * P + M < radix ^ (a2len + n) := by
    refine Nat.lt_of_mul_lt_mul_left (a := radix ^ n) ?_
    omega
  obtain ⟨-, hout2, hval2⟩ := mpAdd_noCarry rp₁ (a2len + 2 * n) .self apb2 hapb2 hle
    (by rwa [mem_self, hval1, hM])
  set rp₂ := (mpAdd rp₁ (a2len + 2 * n) .self (a2len + n) apb2 apb2len).val.1
  rw [mem_self, hval1, hM] at hval2
  -- moved up again, together with a word that falls off the end
  obtain ⟨hout3, hval3⟩ := mpLshift_spec rp₂ (a2len + 2 * n) .self
    (a2len + n + 1) (n * 64) (by omega) (by omega)
  rw [show mpLshiftLen (a2len + 2 * n) (a2len + n + 1) (n * 64) = a2len + 2 * n by
    rw [mpLshiftLen]; omega] at hout3 hval3
  set rp₃ := (mpLshift rp₂ (a2len + 2 * n) .self (a2len + n + 1) (n * 64)).val
  rw [two_pow_words, mem_self, hpow, Nat.mul_comm (radix ^ n), mul_mod_mul_right, wval_mod, hval2,
    Nat.mul_comm (radix ^ n * P + M)] at hval3
  -- the lower square added
  rw [show a2len + n + 1 + n = a2len + 2 * n + 1 by ring]
  obtain ⟨hout4, hval4⟩ := mpAdd_self_past_end rp₃ (a2len + 2 * n) (a2len + 2 * n)
    b2 (2 * n) (by omega) (by omega) (by rwa [hval3, hQ])
  refine ⟨fun j hj => ?_, ?_⟩
  · rw [hout4 j hj, hout3 j hj, hout2 j (by omega), hout1 j (by omega)]
  · rw [hval4, hval3, hQ]

/-- What `mp_square_rec` is to do on operands of a given length. -/
def SquareCorrect (xsize : ℕ) : Prop :=
  ∀ (g : Junk) (rp xp : Ptr),
    let r := (mpSquareRec g rp (2 * xsize) xp xsize).val
    r.size = rp.size ∧ SameOutside rp.mem r.mem 0 (2 * xsize) ∧
      wval r.mem 0 (2 * xsize) = wval xp.mem 0 xsize ^ 2

theorem top_of_square {m p : Mem} {k : ℕ} (h : wval p 0 (2 * (k + 1)) = wval m 0 (k + 1) ^ 2)
    (htop : p (2 * (k + 1) - 1) = ulongMax) : m k = ulongMax := by
  refine BitVec.eq_of_toNat_eq ?_
  rw [toNat_ulongMax]
  by_contra hne
  have hlt := toNat_lt_radix (m k)
  -- the number is less than `(radix - 1) * radix ^ k`
  have hsmall : wval m 0 (k + 1) < radix ^ k * (radix - 1) := by
    have h1 := wval_lt m 0 k
    rw [wval_top, Nat.zero_add]
    calc _ < radix ^ k + radix ^ k * (m k).toNat := by omega
      _ = radix ^ k * ((m k).toNat + 1) := by ring
      _ ≤ _ := mul_le_mul_left _ (by omega)
  have hbig : radix ^ (2 * k + 1) * (radix - 1) ≤ wval p 0 (2 * (k + 1)) := by
    rw [show 2 * (k + 1) = 2 * k + 1 + 1 by ring, wval_top, Nat.zero_add,
      show 2 * k + 1 = 2 * (k + 1) - 1 by omega, htop, toNat_ulongMax]
    omega
  have hsq : wval m 0 (k + 1) ^ 2 < (radix ^ k * (radix - 1)) ^ 2 :=
    Nat.pow_lt_pow_left hsmall (by omega)
  have hle : (radix ^ k * (radix - 1)) ^ 2 ≤ radix ^ (2 * k + 1) * (radix - 1) := by
    calc _ = radix ^ (2 * k) * ((radix - 1) * (radix - 1)) := by ring
      _ ≤ radix ^ (2 * k) * (radix * (radix - 1)) :=
        mul_le_mul_left _ (mul_le_mul_right _ (by omega))
      _ = _ := by ring
  omega

theorem karatsubaSquare_identity (a b u : ℕ) :
    u * (u * a ^ 2 + ((a + b) ^ 2 - (a ^ 2 + b ^ 2))) + b ^ 2 = (b + u * a) ^ 2 := by
  have h : (a + b) ^ 2 - (a ^ 2 + b ^ 2) = 2 * (a * b) := by
    rw [Nat.sub_eq_iff_eq_add (by nlinarith [zero_le (a * b)])]
    ring
  rw [h]
  ring

theorem karatsubaSquare_spec (h : canKaratsubaSquare xsize = true)
    (ih : ∀ x, 0 < x → x < xsize → SquareCorrect x) (g : Junk) (rp xp : Ptr) :
    let r := (karatsubaSquare g rp (2 * xsize) xp xsize h).val
    SameOutside rp.mem r.mem 0 (2 * xsize) ∧
      wval r.mem 0 (2 * xsize) = wval xp.mem 0 xsize ^ 2 := by
  rw [karatsubaSquare]
  simp only [val_bind, val_attach]
  rw [canKaratsubaSquare_iff] at h
  set n := xsize / 2 with hn
  clear_value n
  obtain ⟨k, rfl⟩ : ∃ k, xsize = n + (k + 1) := ⟨xsize - n - 1, by omega⟩
  simp only [Nat.add_sub_cancel_left]
  have hbound := mpSafeSizeForAdd_bounds (xp.off n) (k + 1) xp n
  have hapbval := mpSafeSizeForAdd_val (xp.off n) (k + 1) xp n
  set apblen := (mpSafeSizeForAdd (xp.off n) (k + 1) xp n).val with hapblen
  -- the two squares
  obtain ⟨-, hout1, hval1⟩ := ih (k + 1) (by omega) (by omega) (g.sub 4) rp (xp.off n)
  obtain ⟨-, -, hval2⟩ := ih n (by omega) (by omega) (g.sub 5) (g.buf 0 (2 * n)) xp
  set rp₁ := (mpSquareRec (g.sub 4) rp (2 * (k + 1)) (xp.off n) (k + 1)).val
  set b2 := (mpSquareRec (g.sub 5) (g.buf 0 (2 * n)) (2 * n) xp n).val
  -- the sum of the halves and its square
  obtain ⟨-, hapb⟩ := mpAdd_safe ((g.buf 1 apblen).wr (apblen - 1) 0).val (xp.off n)
    (k + 1) xp n (by omega) (by omega) hapblen (by simp)
  set apb := (mpAdd ((g.buf 1 apblen).wr (apblen - 1) 0).val apblen (.ptr (xp.off n)) (k + 1) xp
    n).val.1
  obtain ⟨-, -, hval3⟩ := ih apblen (by omega) (by omega) (g.sub 6) (g.buf 2 (2 * apblen)) apb
  set apb2 := (mpSquareRec (g.sub 6) (g.buf 2 (2 * apblen)) (2 * apblen) apb apblen).val
  -- the sum of the squares
  have hbound' := mpSafeSizeForAdd_bounds rp₁ (2 * (k + 1)) b2 (2 * n)
  have hlen := mpSafeSizeForAdd_val rp₁ (2 * (k + 1)) b2 (2 * n)
  set s := (mpSafeSizeForAdd rp₁ (2 * (k + 1)) b2 (2 * n)).val with hs
  obtain ⟨-, hval4⟩ := mpAdd_safe ((g.buf 3 s).wr (s - 1) 0).val rp₁ (2 * (k + 1))
    b2 (2 * n) (by omega) (by omega) hs (by simp)
  set a2pb2 := (mpAdd ((g.buf 3 s).wr (s - 1) 0).val s (.ptr rp₁) (2 * (k + 1)) b2 (2 * n)).val.1
  rw [wval_off] at hval1 hapb
  -- the assertion `apb2len >= a2pb2len` of the source
  have hassert : s ≤ 2 * apblen := by
    by_cases htop : rp₁.mem (2 * (k + 1) - 1) = ulongMax
    · have := top_of_square (m := (xp.off n).mem)
        (by rw [hval1, wval_off]) htop
      have hap : n + 1 ≤ apblen ∧ k + 2 ≤ apblen := by
        rw [hapbval, Nat.add_sub_cancel, if_pos this]
        split_ifs <;> omega
      omega
    · rw [if_neg htop] at hlen
      split_ifs at hlen hapbval <;> omega
  rw [hval1, hval2] at hval4
  rw [hapb] at hval3
  obtain ⟨-, -, hval5⟩ := mpSub_noBorrow apb2 (2 * apblen) .self (2 * apblen)
    a2pb2 s (by omega) hassert le_rfl (by
      rw [mem_self, hval4, hval3, add_sq]
      omega)
  rw [mem_self, hval3, hval4] at hval5
  have hx : wval xp.mem 0 (n + (k + 1)) ^ 2 = radix ^ n * (radix ^ n * wval xp.mem n (k + 1) ^ 2 +
      ((wval xp.mem n (k + 1) + wval xp.mem 0 n) ^ 2 -
        (wval xp.mem n (k + 1) ^ 2 + wval xp.mem 0 n ^ 2))) + wval xp.mem 0 n ^ 2 := by
    rw [karatsubaSquare_identity, wval_append, Nat.zero_add]
  have hlt : wval xp.mem 0 (n + (k + 1)) ^ 2 < radix ^ (2 * (k + 1) + 2 * n) := by
    rw [show 2 * (k + 1) + 2 * n = (n + (k + 1)) * 2 by ring, pow_mul]
    exact Nat.pow_lt_pow_left (wval_lt _ _ _) (by omega)
  rw [show 2 * (n + (k + 1)) = 2 * (k + 1) + 2 * n by ring, hx] at *
  obtain ⟨hout, hval⟩ := karatsubaSquareCombine_spec rp₁ (2 * (k + 1)) n
    (mpSub apb2 (2 * apblen) .self (2 * apblen) a2pb2 s).val.1 (2 * apblen) b2
    (by omega) (by omega) (by omega) (by omega) hval1 hval5 hval2 hlt
  exact ⟨(hout1.mono le_rfl (by omega)).trans hout, hval⟩

section SquareSizes

variable (rp : Ptr) (xp : Src) (inp : Ptr)

variable (rsize xsize nwords k : ℕ)

@[simp] theorem mpAddOneCarry_size (i : ℕ) : (mpAddOneCarry k i rp).val.1.size = rp.size := by
  rw [mpAddOneCarry_val, mpAddCarry_size]

@[simp] theorem mpAddOneCopy_size :
    (mpAddOneCopy xp xsize rp).val.size = rp.size := by
  cases xp <;> simp [mpAddOneCopy]

@[simp] theorem mpAddOne_size (y : Word) :
    (mpAddOne rp xp xsize y).val.1.size = rp.size := by
  simp only [mpAddOne, val_bind, val_ite]
  split_ifs <;> simp

@[simp] theorem mpClearDown_size : (mpClearDown k rp).val.size = rp.size := by
  induction k generalizing rp with
  | zero => rfl
  | succ k ih => simp [mpClearDown, ih]

@[simp] theorem mpLshiftWords_size :
    (mpLshiftWords rsize xp nwords k rp).val.size = rp.size := by
  induction k generalizing rp with
  | zero => rfl
  | succ k ih => simp [mpLshiftWords, ih, wrBelow_size]

@[simp] theorem mpLshiftBits_size (nbits k : ℕ) :
    (mpLshiftBits rsize xp nwords nbits k rp).val.size = rp.size := by
  induction k generalizing rp with
  | zero => rfl
  | succ k ih => simp [mpLshiftBits, ih, wrBelow_size]

@[simp] theorem mpLshiftTop_size (nbits : ℕ) :
    (mpLshiftTop rp rsize xp xsize nwords nbits).val.size = rp.size := by
  rw [mpLshiftTop, val_ite]
  split_ifs <;> rfl

@[simp] theorem mpLshift_size (amount : ℕ) :
    (mpLshift rp rsize xp xsize amount).val.size = rp.size := by
  rcases Nat.eq_zero_or_pos xsize with rfl | hx
  · simp [mpLshift]
  · rw [mpLshift_val _ _ _ hx]
    split_ifs <;> simp

@[simp] theorem baseSquareDiag_size (last : Word) :
    (baseSquareDiag inp k rp last).val.size = rp.size := by
  induction k generalizing rp last with
  | zero => rfl
  | succ k ih => simp [baseSquareDiag, ih]

@[simp] theorem baseSquareOff_size (l i : ℕ) :
    (baseSquareOff inp rsize l i rp).val.size = rp.size := by
  induction l generalizing i rp with
  | zero => rfl
  | succ l ih => simp [baseSquareOff, ih]

@[simp] theorem mpSquareRec_size (g : Junk) (rsize xsize : ℕ) :
    (mpSquareRec g rp rsize inp xsize).val.size = rp.size := by
  induction xsize using Nat.strong_induction_on generalizing rp inp g rsize with
  | _ xsize ih =>
    rw [mpSquareRec]
    split_ifs with h0 h
    · rfl
    · rw [karatsubaSquare]
      rw [canKaratsubaSquare_iff] at h
      simp only [val_bind, karatsubaSquareCombine, val_pure, mpAdd_val_size,
        mpLshift_size]
      exact ih _ (by omega) _ _ _ _
    · simp [mpBaseSquare]

end SquareSizes

theorem squareCorrect_all (xsize : ℕ) (hx : 0 < xsize) : SquareCorrect xsize := by
  induction xsize using Nat.strong_induction_on with
  | _ xsize ih =>
    intro g rp xp
    refine ⟨mpSquareRec_size _ _ _ _ _, ?_⟩
    rw [mpSquareRec, if_neg (by omega)]
    split_ifs with h
    · exact karatsubaSquare_spec h (fun x hx hlt => ih x hlt hx) g rp xp
    · exact mpBaseSquare_spec rp xp hx

/-- **`mp_square_rec`** leaves the square, whatever the result held before. -/
theorem mpSquareRec_spec (g : Junk) (rp xp : Ptr) (hx : 0 < xsize) :
    SameOutside rp.mem (mpSquareRec g rp (2 * xsize) xp xsize).val.mem 0 (2 * xsize) ∧
      wval (mpSquareRec g rp (2 * xsize) xp xsize).val.mem 0 (2 * xsize) =
        wval xp.mem 0 xsize ^ 2 :=
  (squareCorrect_all xsize hx g rp xp).2

end Sagittarius
