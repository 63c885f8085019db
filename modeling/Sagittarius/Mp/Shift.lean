import Sagittarius.Mp.Sub

/-!
# Shifts

`mp_lshift` and `mp_rshift`.  Both may work in place: the left shift runs from the top word
down, the right shift from the lowest word up, so that a word is read before it is overwritten.

* `mpLshift_spec` : the words written hold the shifted number, modulo the length of the result;
  words of the result above them are left as they are;
* `mpRshift_spec` : the words of the result up to the returned size hold the quotient.
-/

namespace Sagittarius

open Function Nat Sagittarius.Acc Ptr

/-! ### The functions -/

/-- Clears `k` words, from the top. -/
def mpClearDown : ℕ → Ptr → Acc Ptr
  | 0, rp => pure rp
  | k + 1, rp => do
    let rp ← rp.wr k 0
    mpClearDown k rp

/-- Writes a word of the result, if it has that many. -/
def wrBelow (rp : Ptr) (rsize i : ℕ) (v : Word) : Acc Ptr :=
  if rsize > i then rp.wr i v else pure rp

/-- The loop of `mp_lshift` over the `k` lowest words, for a shift by whole words. -/
def mpLshiftWords (rsize : ℕ) (xp : Src) (nwords : ℕ) : ℕ → Ptr → Acc Ptr
  | 0, rp => pure rp
  | k + 1, rp => do
    let x ← xp.rd rp k
    let rp ← wrBelow rp rsize (k + nwords) x
    mpLshiftWords rsize xp nwords k rp

/-- The word above the operand, `if (rsize > xsize + nwords)`. -/
def mpLshiftTop (rp : Ptr) (rsize : ℕ) (xp : Src) (xsize nwords nbits : ℕ) : Acc Ptr :=
  if rsize > xsize + nwords then do
    let x ← xp.rd rp (xsize - 1)
    rp.wr (xsize + nwords) (x >>> (64 - nbits))
  else pure rp

/-- The loop of `mp_lshift` over the words `1 … k`, for a shift with `nbits > 0`. -/
def mpLshiftBits (rsize : ℕ) (xp : Src) (nwords nbits : ℕ) : ℕ → Ptr → Acc Ptr
  | 0, rp => pure rp
  | k + 1, rp => do
    let x₁ ← xp.rd rp (k + 1)
    let x₀ ← xp.rd rp k
    let rp ← wrBelow rp rsize (k + 1 + nwords) ((x₁ <<< nbits) ||| (x₀ >>> (64 - nbits)))
    mpLshiftBits rsize xp nwords nbits k rp

/-- Shifts to the left. -/
def mpLshift (rp : Ptr) (rsize : ℕ) (xp : Src) (xsize amount : ℕ) : Acc Ptr :=
  let nwords := amount / 64
  let nbits := amount % 64
  if xsize = 0 then pure rp
  else if nbits = 0 then do
    let rp ← mpLshiftWords rsize xp nwords xsize rp
    mpClearDown nwords rp
  else do
    let rp ← mpLshiftTop rp rsize xp xsize nwords nbits
    let rp ← mpLshiftBits rsize xp nwords nbits (xsize - 1) rp
    let x ← xp.rd rp 0
    let rp ← rp.wr nwords (x <<< nbits)
    mpClearDown nwords rp

/-- `for (i = nwords + j; …; i++) rp[i - nwords] = xp[i]`, `k` rounds. -/
def mpRshiftWords (xp : Src) (nwords : ℕ) : ℕ → ℕ → Ptr → Acc Ptr
  | 0, _, rp => pure rp
  | k + 1, j, rp => do
    let x ← xp.rd rp (nwords + j)
    let rp ← rp.wr j x
    mpRshiftWords xp nwords k (j + 1) rp

/-- The loop of `mp_rshift` for a shift with `nbits > 0`, `k` rounds from `i = nwords + j` on. -/
def mpRshiftBits (xp : Src) (nwords nbits : ℕ) : ℕ → ℕ → Ptr → Acc Ptr
  | 0, _, rp => pure rp
  | k + 1, j, rp => do
    let x₁ ← xp.rd rp (nwords + j + 1)
    let x₀ ← xp.rd rp (nwords + j)
    let rp ← rp.wr j ((x₁ <<< (64 - nbits)) ||| (x₀ >>> nbits))
    mpRshiftBits xp nwords nbits k (j + 1) rp

/-- Shifts to the right, and returns the size. -/
def mpRshift (rp : Ptr) (xp : Src) (xsize amount : ℕ) : Acc (Ptr × ℕ) :=
  let nwords := amount / 64
  let nbits := amount % 64
  if xsize ≤ nwords then do
    let rp ← rp.wr 0 0
    return (rp, 0)
  else if nbits = 0 then do
    let rp ← mpRshiftWords xp nwords (xsize - nwords) 0 rp
    return (rp, xsize - nwords)
  else do
    let rp ← mpRshiftBits xp nwords nbits (xsize - nwords - 1) 0 rp
    let x ← xp.rd rp (xsize - 1)
    let rp ← rp.wr (xsize - 1 - nwords) (x >>> nbits)
    return (rp, xsize - nwords)

/-! ### Shifted words -/

variable (xp : Src) (a : Word) {n xsize : ℕ}

theorem toNat_shl (n : ℕ) : (a <<< n).toNat = a.toNat * 2 ^ n % radix := by
  rw [BitVec.toNat_shiftLeft, shiftLeft_eq, radix]

theorem toNat_shr (n : ℕ) : (a >>> n).toNat = a.toNat / 2 ^ n := by
  rw [BitVec.toNat_ushiftRight, shiftRight_eq_div_pow]

/-- The upper bits of one word joined with the lower bits of the next one do not overlap. -/
theorem toNat_shl_or_shr (b : Word) (hn : n ≤ 64) :
    ((a <<< n) ||| (b >>> (64 - n))).toNat =
      a.toNat * 2 ^ n % radix + b.toNat / 2 ^ (64 - n) := by
  have hb : b.toNat / 2 ^ (64 - n) < 2 ^ n := by
    rw [Nat.div_lt_iff_lt_mul (by positivity), ← pow_add, Nat.add_sub_cancel' hn]
    exact b.isLt
  have ha : a.toNat * 2 ^ n % radix = a.toNat % 2 ^ (64 - n) * 2 ^ n := by
    rw [← mul_mod_mul_right, ← pow_add, Nat.sub_add_cancel hn, radix]
  rw [BitVec.toNat_or, toNat_shl, toNat_shr, ha, ← shiftLeft_eq,
    shiftLeft_add_eq_or_of_lt hb]

theorem mul_two_pow_eq (hn : n ≤ 64) :
    a.toNat * 2 ^ n = a.toNat * 2 ^ n % radix + radix * (a.toNat / 2 ^ (64 - n)) := by
  have h : a.toNat * 2 ^ n / radix = a.toNat / 2 ^ (64 - n) := by
    rw [radix, show (2 : ℕ) ^ 64 = 2 ^ (64 - n) * 2 ^ n by
      rw [← pow_add, Nat.sub_add_cancel hn]]
    exact Nat.mul_div_mul_right _ _ (by positivity)
  rw [← h, mod_add_div]

theorem wval_shl {m X : Mem} (hn : n ≤ 64) (i k : ℕ) (h0 : m i = X 0 <<< n)
    (hs : ∀ j, j < k → m (i + (j + 1)) = (X (j + 1) <<< n) ||| (X j >>> (64 - n))) :
    wval m i (k + 1) + radix ^ (k + 1) * ((X k).toNat / 2 ^ (64 - n)) =
      wval X 0 (k + 1) * 2 ^ n := by
  induction k with
  | zero =>
    simp only [Nat.zero_add, wval_one, pow_one]
    rw [h0, toNat_shl, ← mul_two_pow_eq _ hn]
  | succ k ih =>
    have ih := ih fun j hj => hs j (by omega)
    have hword := mul_two_pow_eq (X (k + 1)) hn
    rw [wval_top m, wval_top X 0 (k + 1), hs k (by omega), toNat_shl_or_shr _ _ hn, Nat.zero_add]
    set lo := (X (k + 1)).toNat * 2 ^ n % radix
    rw [Nat.add_mul, ← ih, Nat.mul_assoc, hword]
    ring

theorem wval_shr {m X : Mem} (hn : n ≤ 64) (i k : ℕ) (htop : m k = X (i + k) >>> n)
    (hs : ∀ j, j < k → m j = (X (i + j + 1) <<< (64 - n)) ||| (X (i + j) >>> n)) :
    wval m 0 (k + 1) = wval X i (k + 1) / 2 ^ n := by
  induction k generalizing i m with
  | zero => rw [wval_one, wval_one, htop, toNat_shr, Nat.add_zero]
  | succ k ih =>
    have ih := ih (m := fun j => m (1 + j)) (i + 1)
      (by rw [Nat.add_comm 1 k, htop, show i + (k + 1) = i + 1 + k by ring])
      (fun j hj => by rw [Nat.add_comm 1 j, hs (j + 1) (by omega),
        show i + (j + 1) = i + 1 + j by ring])
    rw [wval_shift, Nat.add_zero] at ih
    have h := toNat_shl_or_shr (X (i + 1)) (X i) (sub_le 64 n)
    rw [show 64 - (64 - n) = n by omega] at h
    have hs0 : m 0 = (X (i + 1) <<< (64 - n)) ||| (X i >>> n) := hs 0 (by omega)
    rw [wval_succ m, Nat.zero_add, ih, hs0, h, wval_succ X i, wval_succ X (i + 1)]
    set a := (X i).toNat
    set b := (X (i + 1)).toNat
    set t := wval X (i + 1 + 1) k
    -- radix is a multiple of `2 ^ n`
    obtain ⟨q, hq, hR⟩ : ∃ q, q = 2 ^ (64 - n) ∧ radix = 2 ^ n * q :=
      ⟨_, rfl, by rw [← pow_add, Nat.add_sub_cancel' hn, radix]⟩
    have hpos : 0 < 2 ^ n := by positivity
    have e1 : (a + radix * (b + radix * t)) / 2 ^ n = a / 2 ^ n + q * (b + radix * t) := by
      rw [hR, Nat.mul_assoc, add_mul_div_left _ _ hpos]
    have e2 : (b + radix * t) / 2 ^ n = b / 2 ^ n + q * t := by
      rw [hR, Nat.mul_assoc, add_mul_div_left _ _ hpos]
    have e3 : b * q % radix = b % 2 ^ n * q := by
      rw [hR, mul_mod_mul_right]
    have e4 : b % 2 ^ n + 2 ^ n * (b / 2 ^ n) = b := mod_add_div _ _
    rw [e1, e2, ← hq, e3]
    calc _ = a / 2 ^ n + (b % 2 ^ n * q + radix * (b / 2 ^ n) + radix * (q * t)) := by ring
      _ = a / 2 ^ n + ((b % 2 ^ n + 2 ^ n * (b / 2 ^ n)) * q + radix * (q * t)) := by
        rw [Nat.add_mul, Nat.mul_right_comm (2 ^ n), ← hR]
      _ = _ := by rw [e4]; ring

/-! ### Left shift -/

theorem mpClearDown_spec (k : ℕ) (rp : Ptr) :
    SameOutside rp.mem (mpClearDown k rp).val.mem 0 k ∧
      ∀ j, j < k → (mpClearDown k rp).val.mem j = 0 := by
  induction k generalizing rp with
  | zero => exact ⟨.refl _ _ _, fun j hj => by omega⟩
  | succ k ih =>
    obtain ⟨hout, hval⟩ := ih (rp.wr k 0).val
    refine ⟨fun j hj => ?_, fun j hj => ?_⟩
    · refine (hout j (by omega)).trans ?_
      rw [wr_mem, update_of_ne (by omega)]
    · rcases Nat.lt_succ_iff_lt_or_eq.1 hj with h | rfl
      · exact hval j h
      · exact (hout j (by omega)).trans (by simp)

section

variable (rp : Ptr) (rsize i : ℕ) (v : Word)

theorem wrBelow_val :
    (wrBelow rp rsize i v).val = if i < rsize then (rp.wr i v).val else rp := Acc.val_ite _ _

theorem wrBelow_size : (wrBelow rp rsize i v).val.size = rp.size := by
  rw [wrBelow_val]
  split_ifs <;> rfl

theorem wrBelow_of_ne {j : ℕ} (h : j ≠ i ∨ rsize ≤ j) :
    (wrBelow rp rsize i v).val.mem j = rp.mem j := by
  rw [wrBelow_val]
  split_ifs with hi
  · rw [wr_mem, update_of_ne (by omega)]
  · rfl

end

theorem wrBelow_self (rp : Ptr) {rsize i : ℕ} (v : Word) (h : i < rsize) :
    (wrBelow rp rsize i v).val.mem i = v := by
  rw [wrBelow_val, if_pos h]
  simp

theorem Src.mem_wrBelow (rp : Ptr) (rsize i : ℕ) (v : Word) {j : ℕ} (h : j < i) :
    xp.mem (wrBelow rp rsize i v).val j = xp.mem rp j := by
  cases xp with
  | self => exact wrBelow_of_ne rp rsize i v (by omega)
  | ptr p => rfl

theorem mpLshiftWords_spec (rsize : ℕ) (xp : Src) (nwords : ℕ) (X : Mem) (k : ℕ) (rp : Ptr)
    (hX : ∀ j, j < k → xp.mem rp j = X j) :
    let r := (mpLshiftWords rsize xp nwords k rp).val
    (∀ j, j < nwords ∨ nwords + k ≤ j ∨ rsize ≤ j → r.mem j = rp.mem j) ∧
      ∀ j, j < k → nwords + j < rsize → r.mem (nwords + j) = X j := by
  induction k generalizing rp with
  | zero => exact ⟨fun _ _ => rfl, fun j hj => by omega⟩
  | succ k ih =>
    simp only [mpLshiftWords, val_bind, Src.rd_val, hX k (by omega)]
    obtain ⟨hout, hval⟩ := ih (wrBelow rp rsize (k + nwords) (X k)).val (fun j hj => by
      rw [xp.mem_wrBelow _ _ _ _ (by omega)]; exact hX j (by omega))
    refine ⟨fun j hj => ?_, fun j hj hr => ?_⟩
    · rw [hout j (by omega), wrBelow_of_ne _ _ _ _ (by omega)]
    · rcases Nat.lt_succ_iff_lt_or_eq.1 hj with h | rfl
      · exact hval j h hr
      · rw [hout _ (by omega), Nat.add_comm, wrBelow_self _ _ (by omega)]

theorem mpLshiftBits_spec (rsize : ℕ) (xp : Src) (nwords nbits : ℕ) (X : Mem) (k : ℕ) (rp : Ptr)
    (hX : ∀ j, j ≤ k → xp.mem rp j = X j) :
    let r := (mpLshiftBits rsize xp nwords nbits k rp).val
    xp.mem r 0 = X 0 ∧
      (∀ j, j ≤ nwords ∨ nwords + k < j ∨ rsize ≤ j → r.mem j = rp.mem j) ∧
      ∀ j, j < k → nwords + (j + 1) < rsize →
        r.mem (nwords + (j + 1)) = (X (j + 1) <<< nbits) ||| (X j >>> (64 - nbits)) := by
  induction k generalizing rp with
  | zero => exact ⟨hX 0 le_rfl, fun _ _ => rfl, fun j hj => by omega⟩
  | succ k ih =>
    simp only [mpLshiftBits, val_bind, Src.rd_val, hX (k + 1) le_rfl, hX k (by omega)]
    set v := (X (k + 1) <<< nbits) ||| (X k >>> (64 - nbits)) with hv
    obtain ⟨hx0, hout, hval⟩ := ih (wrBelow rp rsize (k + 1 + nwords) v).val (fun j hj => by
      rw [xp.mem_wrBelow _ _ _ _ (by omega)]; exact hX j (by omega))
    refine ⟨hx0, fun j hj => ?_, fun j hj hr => ?_⟩
    · rw [hout j (by omega), wrBelow_of_ne _ _ _ _ (by omega)]
    · rcases Nat.lt_succ_iff_lt_or_eq.1 hj with h | rfl
      · exact hval j h hr
      · rw [hout _ (by omega), Nat.add_comm, wrBelow_self _ _ (by omega)]

theorem mpLshiftTop_spec (rp : Ptr) (rsize : ℕ) (xp : Src) (xsize nwords nbits : ℕ) :
    let r := (mpLshiftTop rp rsize xp xsize nwords nbits).val
    (∀ j, j < xsize → xp.mem r j = xp.mem rp j) ∧
      (∀ j, j ≠ xsize + nwords ∨ rsize ≤ j → r.mem j = rp.mem j) ∧
      (xsize + nwords < rsize →
        r.mem (xsize + nwords) = xp.mem rp (xsize - 1) >>> (64 - nbits)) := by
  have hval : (mpLshiftTop rp rsize xp xsize nwords nbits).val =
      if xsize + nwords < rsize then
        (rp.wr (xsize + nwords) (xp.mem rp (xsize - 1) >>> (64 - nbits))).val else rp := by
    rw [mpLshiftTop, val_ite]
    simp
  simp only [hval]
  split_ifs with h
  · refine ⟨fun j hj => xp.mem_wr rp _ (by omega), fun j hj => ?_, fun _ => by simp⟩
    rw [wr_mem, update_of_ne (by omega)]
  · exact ⟨fun _ _ => rfl, fun _ _ => rfl, fun h' => absurd h' h⟩

theorem wval_cleared_append {m : Mem} {k : ℕ} (h : ∀ j, j < n → m j = 0) :
    wval m 0 (n + k) = wval m n k * radix ^ n := by
  rw [wval_append, wval_eq_zero fun j _ hj => h j (by omega), Nat.zero_add, Nat.zero_add,
    Nat.mul_comm]

theorem two_pow_eq_radix (amount : ℕ) :
    2 ^ amount = 2 ^ (amount % 64) * radix ^ (amount / 64) := by
  rw [radix, ← pow_mul, ← pow_add, mod_add_div]

theorem mpLshift_val (rp : Ptr) (rsize : ℕ) (xp : Src) (hx : 0 < xsize)
    (amount : ℕ) : (mpLshift rp rsize xp xsize amount).val =
      if amount % 64 = 0 then
        (mpClearDown (amount / 64) (mpLshiftWords rsize xp (amount / 64) xsize rp).val).val
      else
        let s := (mpLshiftBits rsize xp (amount / 64) (amount % 64) (xsize - 1)
          (mpLshiftTop rp rsize xp xsize (amount / 64) (amount % 64)).val).val
        (mpClearDown (amount / 64)
          (s.wr (amount / 64) (xp.mem s 0 <<< (amount % 64))).val).val := by
  rw [mpLshift, if_neg (by omega), val_ite]
  simp only [val_bind, Src.rd_val]

/-- How many words of the result `mp_lshift` writes. -/
def mpLshiftLen (rsize xsize amount : ℕ) : ℕ := min rsize (xsize + (amount + 63) / 64)

/-- The shifted number of `xsize` words of `X`, in the words that are written over `m`. -/
structure Lshifted (m X : Mem) (rsize xsize amount : ℕ) (r : Mem) : Prop where
  out : SameOutside m r 0 (mpLshiftLen rsize xsize amount)
  val : wval r 0 (mpLshiftLen rsize xsize amount) =
    wval X 0 xsize * 2 ^ amount % radix ^ mpLshiftLen rsize xsize amount

theorem mpLshift_words_spec (rp : Ptr) {rsize : ℕ} (xp : Src) {amount : ℕ}
    (hx : 0 < xsize) (hr : amount / 64 < rsize) (h0 : amount % 64 = 0) :
    Lshifted rp.mem (xp.mem rp) rsize xsize amount (mpLshift rp rsize xp xsize amount).val.mem := by
  set n := amount / 64 with hn
  rw [mpLshift_val rp rsize xp hx, if_pos h0, ← hn]
  obtain ⟨hout, hval⟩ := mpLshiftWords_spec rsize xp n (xp.mem rp) xsize rp (fun _ _ => rfl)
  set s := (mpLshiftWords rsize xp n xsize rp).val
  obtain ⟨hout', hclear⟩ := mpClearDown_spec n s
  set r := (mpClearDown n s).val
  obtain ⟨k, hk, hkx, hklen⟩ : ∃ k, mpLshiftLen rsize xsize amount = n + k ∧ k ≤ xsize ∧
      n + k ≤ rsize := ⟨min (rsize - n) xsize, by rw [mpLshiftLen]; omega, by omega, by omega⟩
  have hmax : k = xsize ∨ n + k = rsize := by rw [mpLshiftLen] at hk; omega
  refine ⟨fun j hj => ?_, ?_⟩ <;> rw [hk] at *
  · rw [hout' j (by omega), hout j (by omega)]
  · have hw : wval r.mem n k = wval (xp.mem rp) 0 k := by
      rw [← Nat.add_zero n, ← wval_shift r.mem]
      exact wval_congr fun j _ h2 => by
        rw [hout' _ (by omega), hval j (by omega) (by omega)]
    obtain ⟨l, rfl⟩ := Nat.exists_eq_add_of_le hkx
    rw [wval_cleared_append hclear, hw, two_pow_eq_radix, h0, pow_zero, Nat.one_mul, ← hn,
      Nat.add_comm n k, pow_add, mul_mod_mul_right, wval_mod]

theorem mpLshift_bits_spec (rp : Ptr) {rsize : ℕ} (xp : Src) {amount : ℕ}
    (hx : 0 < xsize) (hr : amount / 64 < rsize) (h0 : amount % 64 ≠ 0) :
    Lshifted rp.mem (xp.mem rp) rsize xsize amount (mpLshift rp rsize xp xsize amount).val.mem := by
  set n := amount / 64 with hn
  set b := amount % 64 with hb
  have hb64 : b ≤ 64 := by omega
  rw [mpLshift_val rp rsize xp hx, if_neg h0, ← hn, ← hb]
  obtain ⟨hxt, hout, htop⟩ := mpLshiftTop_spec rp rsize xp xsize n b
  set t := (mpLshiftTop rp rsize xp xsize n b).val
  obtain ⟨hx0, hout', hbits⟩ := mpLshiftBits_spec rsize xp n b (xp.mem rp) (xsize - 1) t
    (fun j hj => hxt j (by omega))
  set s := (mpLshiftBits rsize xp n b (xsize - 1) t).val
  simp only [hx0]
  obtain ⟨hout'', hclear⟩ := mpClearDown_spec n (s.wr n (xp.mem rp 0 <<< b)).val
  set r := (mpClearDown n (s.wr n (xp.mem rp 0 <<< b)).val).val
  set X := xp.mem rp
  -- the words above the cleared ones
  have hr0 : r.mem n = X 0 <<< b := by rw [hout'' _ (by omega)]; simp
  have hrs : ∀ j, n < j → r.mem j = s.mem j := fun j hj => by
    rw [hout'' _ (by omega), wr_mem, update_of_ne (by omega)]
  have hlen : mpLshiftLen rsize xsize amount = min rsize (n + xsize + 1) := by
    rw [mpLshiftLen]; omega
  have hrbits : ∀ j, j < xsize - 1 → n + (j + 1) < rsize →
      r.mem (n + (j + 1)) = (X (j + 1) <<< b) ||| (X j >>> (64 - b)) := fun j hj hj' => by
    rw [hrs _ (by omega), hbits j hj hj']
  refine ⟨fun j hj => ?_, ?_⟩
  · rw [hlen] at hj
    rw [hrs j (by omega), hout' j (by omega), hout j (by omega)]
  · rw [hlen, two_pow_eq_radix, ← hn, ← hb]
    rcases Nat.lt_or_ge (n + xsize) rsize with hlt | hge
    · -- there is room for the bits shifted out of the top word
      obtain _ | k := xsize
      · omega
      rw [min_eq_right (by omega), Nat.add_assoc, wval_cleared_append hclear, ← Nat.mul_assoc,
        Nat.add_comm n, pow_add, mul_mod_mul_right, wval_top]
      have hshl := wval_shl hb64 n k hr0 fun j hj => hrbits j hj (by omega)
      have htop' : (r.mem (n + (k + 1))).toNat = (X k).toNat / 2 ^ (64 - b) := by
        rw [hrs _ (by omega), hout' _ (by omega), Nat.add_comm n, htop (by omega), toNat_shr,
          Nat.add_sub_cancel]
      rw [htop', hshl, mod_eq_of_lt]
      calc _ < radix ^ (k + 1) * radix :=
            Nat.mul_lt_mul_of_lt_of_le (wval_lt _ _ _)
              (by rw [radix]; exact Nat.pow_le_pow_right (by omega) hb64) (by simp [radix])
        _ = radix ^ (k + 1 + 1) := (pow_succ _ _).symm
    · obtain ⟨k, rfl⟩ : ∃ k, rsize = n + (k + 1) := ⟨rsize - n - 1, by omega⟩
      obtain ⟨l, rfl⟩ : ∃ l, xsize = (k + 1) + l := ⟨xsize - (k + 1), by omega⟩
      rw [min_eq_left (by omega), wval_cleared_append hclear, ← Nat.mul_assoc, Nat.add_comm n,
        pow_add, mul_mod_mul_right]
      have hshl := wval_shl hb64 n k hr0 fun j hj => hrbits j (by omega) (by omega)
      have hlt := wval_lt r.mem n (k + 1)
      rw [wval_append X, Nat.add_mul, ← hshl, Nat.mul_assoc, Nat.add_assoc, ← Nat.mul_add,
        add_mul_mod_self_left, mod_eq_of_lt hlt]

/-- **`mp_lshift`** leaves the shifted number in the words it writes, modulo their number. -/
theorem mpLshift_spec (rp : Ptr) (rsize : ℕ) (xp : Src) (xsize amount : ℕ)
    (hx : 0 < xsize) (hr : amount / 64 < rsize) :
    Lshifted rp.mem (xp.mem rp) rsize xsize amount (mpLshift rp rsize xp xsize amount).val.mem := by
  by_cases h0 : amount % 64 = 0
  · exact mpLshift_words_spec rp xp hx hr h0
  · exact mpLshift_bits_spec rp xp hx hr h0

/-! ### Right shift -/

theorem mpRshiftWords_spec (nwords k j : ℕ) (rp : Ptr) :
    SameOutside rp.mem (mpRshiftWords xp nwords k j rp).val.mem j k ∧
      ∀ i, j ≤ i → i < j + k →
        (mpRshiftWords xp nwords k j rp).val.mem i = xp.mem rp (nwords + i) := by
  have h := writes_up xp (L := fun k j rp => (mpRshiftWords xp nwords k j rp).val)
    (fun j X => X (nwords + j)) (fun _ _ => rfl) (fun k j rp => by simp [mpRshiftWords])
    (fun j X Y h => h _ (by omega)) k j rp
  exact ⟨h.1, h.2.2⟩

theorem mpRshiftBits_spec (nwords nbits k j : ℕ) (rp : Ptr) :
    let r := (mpRshiftBits xp nwords nbits k j rp).val
    SameOutside rp.mem r.mem j k ∧ (∀ i, j + k ≤ i → xp.mem r i = xp.mem rp i) ∧
      ∀ i, j ≤ i → i < j + k → r.mem i =
        (xp.mem rp (nwords + i + 1) <<< (64 - nbits)) ||| (xp.mem rp (nwords + i) >>> nbits) :=
  writes_up xp (L := fun k j rp => (mpRshiftBits xp nwords nbits k j rp).val)
    (fun j X => (X (nwords + j + 1) <<< (64 - nbits)) ||| (X (nwords + j) >>> nbits))
    (fun _ _ => rfl) (fun k j rp => by simp [mpRshiftBits])
    (fun j X Y h => by rw [h _ (by omega), h _ (by omega)]) k j rp

theorem mpRshift_val (rp : Ptr) (xp : Src) {amount : ℕ} (hx : amount / 64 < xsize) :
    (mpRshift rp xp xsize amount).val =
      if amount % 64 = 0 then
        ((mpRshiftWords xp (amount / 64) (xsize - amount / 64) 0 rp).val, xsize - amount / 64)
      else
        let s := (mpRshiftBits xp (amount / 64) (amount % 64) (xsize - amount / 64 - 1) 0 rp).val
        ((s.wr (xsize - 1 - amount / 64) (xp.mem s (xsize - 1) >>> (amount % 64))).val,
          xsize - amount / 64) := by
  rw [mpRshift, if_neg (by omega), val_ite]
  simp only [val_bind, val_pure, Src.rd_val]

/-- **`mp_rshift`** leaves the shifted number in the words it returns the number of. -/
theorem mpRshift_spec (rp : Ptr) (xp : Src) (xsize amount : ℕ) (hx : amount / 64 < xsize) :
    let r := (mpRshift rp xp xsize amount).val
    r.2 = xsize - amount / 64 ∧ SameOutside rp.mem r.1.mem 0 (xsize - amount / 64) ∧
      wval r.1.mem 0 (xsize - amount / 64) = wval (xp.mem rp) 0 xsize / 2 ^ amount := by
  set n := amount / 64 with hn
  set b := amount % 64 with hb
  obtain ⟨k, rfl⟩ : ∃ k, xsize = n + (k + 1) := ⟨xsize - n - 1, by omega⟩
  have hdiv : wval (xp.mem rp) 0 (n + (k + 1)) / 2 ^ amount =
      wval (xp.mem rp) n (k + 1) / 2 ^ b := by
    rw [two_pow_eq_radix, ← hn, ← hb, Nat.mul_comm, ← Nat.div_div_eq_div_mul, wval_div,
      Nat.zero_add]
  rw [mpRshift_val rp xp hx, ← hn, ← hb, hdiv, Nat.add_sub_cancel_left]
  split_ifs with h0
  · obtain ⟨hout, hval⟩ := mpRshiftWords_spec xp n (k + 1) 0 rp
    refine ⟨rfl, hout, ?_⟩
    rw [h0, pow_zero, Nat.div_one, ← Nat.add_zero n, ← wval_shift]
    exact wval_congr fun j h1 h2 => hval j h1 h2
  · obtain ⟨hout, hX, hval⟩ := mpRshiftBits_spec xp n b k 0 rp
    simp only [Nat.add_sub_cancel, show n + (k + 1) - 1 = n + k by omega,
      Nat.add_sub_cancel_left]
    rw [hX (n + k) (by omega)]
    refine ⟨trivial, fun j hj => ?_, wval_shr (by omega) n k (by simp) fun j hj => ?_⟩
    · rw [wr_mem, update_of_ne (by omega), hout j (by omega)]
    · rw [wr_mem, update_of_ne (by omega), hval j (by omega) (by omega)]

end Sagittarius
