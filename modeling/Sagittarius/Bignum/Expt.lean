import Mathlib.Data.Nat.Bitwise
import Sagittarius.Bignum.Mul

/-!
# Powers of bignums

`Sg_BignumExpt` squares and multiplies between two buffers: bit by bit for exponents below 512,
and with windows of two bits (three from `2 ^ 25` on) for larger ones.

* `PingPong.square_spec`, `PingPong.mulBy_spec` : one squaring and one multiplication, from one
  buffer into the other;
* `lrRun_spec` : bit by bit, the power and the size that is computed in advance;
* `swRun_spec` : with windows, the power of what the windows add up to, and its size;
* `swExponent_two`, `swExponent_three` : what the windows add up to;
* `sgBignumExpt_iff` : when the power is right.
-/

namespace Sagittarius

/-! ### Counting bits -/

/-- One of the four tests of `bfffo`. -/
def bfffoStep (k : ℕ) (mask : Word) (s : ℕ × Word) : ℕ × Word :=
  if s.2 &&& ~~~ mask ≠ 0 then (s.1 - k, s.2 >>> k) else s

/-- The leading zeros of four bits. -/
def tabshi : List ℕ := [4, 3, 2, 2, 1, 1, 1, 1, 0, 0, 0, 0, 0, 0, 0, 0]

/-- The number of leading zeros. -/
def bfffo (x : Word) : ℕ :=
  let s := bfffoStep 32 0xffffffff (60, x)
  let s := bfffoStep 16 0xffff s
  let s := bfffoStep 8 0xff s
  let s := bfffoStep 4 0xf s
  s.1 + tabshi.getD s.2.toNat 0

/-- `tab` of `vals` -/
def valsTab : List ℤ :=
  [-1, 0, 1, 12, 2, 6, -1, 13, 3, -1, 7, -1, -1, -1, -1, 14,
   10, 4, -1, -1, 8, -1, -1, 25, -1, -1, -1, -1, -1, 21, 27, 15,
   31, 11, 5, -1, -1, -1, -1, -1, 9, -1, -1, 24, -1, -1, 20, 26,
   30, -1, -1, -1, -1, 23, -1, 19, 29, -1, 22, 18, 28, 17, 16, -1]

/-- The number of trailing zeros, of the few bits it is called with. -/
def vals (z : Word) : ℤ :=
  if z = 0 then -1
  else
    let z := z ||| (~~~ z + 1)
    let z := z + (z <<< 4)
    let z := z + (z <<< 6)
    let z := z ^^^ (z <<< 16)
    valsTab.getD (z >>> 26).toNat 0

/-! ### Two buffers -/

/-- `ALLOC_TEMP_BIGNUM_REC`, which does not clear the words. -/
def allocTempBignumRec (g : Junk) (size : ℕ) : Bignum := ⟨1, size, g []⟩

/-- Two buffers, one of which holds a number of `len` words. -/
structure PingPong where
  /-- The buffers; the result is returned in `buf false`. -/
  buf : Bool → Bignum
  /-- The one that holds the number. -/
  cur : Bool
  /-- The words of the number. -/
  len : ℕ

namespace PingPong

/-- The number. -/
def value (p : PingPong) : ℕ := wval (p.buf p.cur).elements 0 p.len

/-- The buffers change places, and the other one is now `b`. -/
def swap (p : PingPong) (b : Bignum) (len : ℕ) : PingPong where
  buf := Function.update p.buf (!p.cur) b
  cur := !p.cur
  len := len

/-- `mp_square` into the other buffer, whose count is set. -/
def square (g : Junk) (p : PingPong) : PingPong :=
  let prod := p.buf (!p.cur)
  let words := (mpSquare g prod.words (p.len <<< 1) (p.buf p.cur).words p.len).val
  p.swap { prod.setWords words with size := p.len <<< 1 } (p.len <<< 1)

/-- `bignum_mul_int` into the other buffer; its count is set if `count` says so. -/
def mulBy (g : Junk) (count : Bool) (p : PingPong) (b : Bignum) : PingPong :=
  let prod := bignumMulInt g (p.buf (!p.cur)) (p.buf p.cur) b
  let len := p.len + b.size
  p.swap (if count then { prod with size := len } else prod) len

/-- `for (i = 1; i <= k; i++)` around a squaring. -/
def squares : Junk → ℕ → PingPong → PingPong
  | _, 0, p => p
  | g, k + 1, p => squares (g.sub 0) k (p.square g)

/-- Copies the words to `r` if they are in `z`, and sets the size. -/
def result (p : PingPong) (size : ℕ) : Bignum :=
  let r := p.buf false
  if p.cur then
    { r with size := size, elements := fun i =>
        if i < size then (p.buf true).elements i else r.elements i }
  else { r with size := size }

end PingPong

/-! ### Bit by bit -/

/-- The words of the power. -/
def computeLrBinarySize : ℕ → Word → ℕ → ℕ → ℕ
  | 0, _, _, r => r
  | j + 1, m, len, r =>
    let r := r <<< 1
    computeLrBinarySize j (m <<< 1) len (if m.msb then r + len else r)

/-- The loop of `leftright_binray_expt`. -/
def lrLoop (b : Bignum) : Junk → ℕ → Word → PingPong → PingPong
  | _, 0, _, p => p
  | g, j + 1, m, p =>
    let p := p.square g
    let p := if m.msb then p.mulBy (g.sub 1) false b else p
    lrLoop b (g.sub 0) j (m <<< 1) p

/-- The buffers and the loop of `leftright_binray_expt`; the size of the result is computed
first. -/
def lrRun (g : Junk) (b : Bignum) (e : ℕ) : ℕ × PingPong :=
  let m := BitVec.ofNat 64 e
  let j := 1 + bfffo m
  let m := m <<< j
  let j := 64 - j
  let size := computeLrBinarySize j m b.size b.size
  let y := makeBignum g size
  let y : Bignum := ⟨b.sign, b.size, fun i => if i < b.size then b.elements i else y.elements i⟩
  let prod := allocTempBignumRec (g.sub 1) size
  (size, lrLoop b (g.sub 2) j m ⟨fun c => if c then prod else y, false, b.size⟩)

/-- The power, bit by bit. -/
def leftrightBinrayExpt (g : Junk) (b : Bignum) (e : ℕ) : Bignum :=
  let p := (lrRun g b e).2
  p.result p.len

/-! ### Windows -/

/-- `BIGNUM_CLEAR_LEFT (bn, 2)`: clears the two top words. -/
def bignumClearLeft (bn : Bignum) : Bignum :=
  let top := Function.update bn.elements (bn.size - 1) 0
  { bn with elements := Function.update top (bn.size - 1 - 1) 0 }

/-- `x2` of `setup_table`: the square of `b`. -/
def setupSquare (g : Junk) (b : Bignum) : Bignum :=
  let x2 := bignumClearLeft (allocTempBignumRec g (b.size <<< 1))
  x2.setWords (mpSquare (g.sub 1) x2.words (b.size <<< 1) b.words b.size).val

/-- The odd powers of `b`. -/
def setupTable (g : Junk) (b : Bignum) : ℕ → Bignum
  | 0 => b
  | i + 1 =>
    let last := setupTable g b i
    let x2 := setupSquare g b
    bignumMulInt (g.sub (2 * i + 2))
      (bignumClearLeft (allocTempBignumRec (g.sub (2 * i + 3)) (last.size + b.size <<< 1))) last x2

/-- A window of the exponent `n`, of which `k` bits are left: the clipped width, the window, the
zeros at its end, the index into the table, and the bits that are left. -/
structure Window where
  e : ℕ
  w : ℕ
  v : ℤ
  /-- The index `w >> (v + 1)`. -/
  index : ℕ
  /-- `l + 1` after the window. -/
  k : ℕ

/-- `if (e > l+1) e = l + 1; w = (n >> (l+1-e)) & ((1UL<<2)-1); v = vals (w); l -= e;`, where `k`
is `l + 1`. -/
def window (n e k : ℕ) : Window :=
  let e := if e > k then k else e
  let w := (n >>> (k - e)) &&& ((1 <<< 2) - 1)
  let v := vals (BitVec.ofNat 64 w)
  { e := e, w := w, v := v, index := w >>> (v + 1).toNat, k := k - e }

/-- `while (l >= 0) { if (n & (1UL<<l)) break; ...; l--; }`: the zeros that are squared away, and
`l + 1` after them. -/
def skipZeros (n : ℕ) : ℕ → ℕ × ℕ
  | 0 => (0, 0)
  | k + 1 => if n &&& (1 <<< k) ≠ 0 then (0, k + 1) else ((skipZeros n k).1 + 1, (skipZeros n k).2)

theorem skipZeros_le (n k : ℕ) : (skipZeros n k).2 ≤ k := by
  induction k with
  | zero => exact le_rfl
  | succ k ih =>
    rw [skipZeros]
    split_ifs
    · exact le_rfl
    · exact ih.trans (Nat.le_succ k)

variable {n e k : ℕ}

theorem window_e_pos (he : 0 < e) (hk : ¬ k = 0) : 0 < (window n e k).e := by
  change 0 < if e > k then k else e
  split_ifs <;> omega

theorem window_k_lt (he : 0 < e) (hk : ¬ k = 0) : (window n e k).k < k := by
  change k - (if e > k then k else e) < k
  split_ifs <;> omega

/-- `compute_sw_size`, with `k` for `l + 1`. -/
def computeSwSize (n : ℕ) (table : ℕ → Bignum) (e k : ℕ) (he : 0 < e) (z : ℕ) : ℕ :=
  if hk : k = 0 then z
  else
    let win := window n e k
    let tw := (table win.index).size
    let z := if z ≠ 0 then z <<< (win.e - win.v).toNat + tw else tw
    let z := z <<< win.v.toNat
    let zeros := skipZeros n win.k
    computeSwSize n table win.e zeros.2 (window_e_pos he hk) (z <<< zeros.1)
termination_by k
decreasing_by exact (skipZeros_le _ _).trans_lt (window_k_lt he hk)

/-- The first window: the power is copied into the buffer that is returned. -/
def PingPong.load (p : PingPong) (tw : Bignum) : PingPong where
  buf := Function.update p.buf false { p.buf false with
    size := tw.size, elements := fun i =>
      if i < tw.size then tw.elements i else (p.buf false).elements i }
  cur := false
  len := tw.size

/-- The loop of `sliding_window_expt`, with `k` for `l + 1`; `z` says that `z` is not `NULL`. -/
def swLoop (n : ℕ) (table : ℕ → Bignum) (g : Junk) (e k : ℕ) (he : 0 < e) (z : Bool)
    (p : PingPong) : PingPong :=
  if hk : k = 0 then p
  else
    let win := window n e k
    let tw := table win.index
    let p :=
      if z then (p.squares (g.sub 1) (win.e - win.v).toNat).mulBy (g.sub 2) true tw else p.load tw
    let p := p.squares (g.sub 3) win.v.toNat
    let zeros := skipZeros n win.k
    let p := p.squares (g.sub 4) zeros.1
    swLoop n table (g.sub 0) win.e zeros.2 (window_e_pos he hk) true p
termination_by k
decreasing_by exact (skipZeros_le _ _).trans_lt (window_k_lt he hk)

/-- The buffers and the loop of `sliding_window_expt`; the size of the result is computed first. -/
def swRun (g : Junk) (b : Bignum) (n e : ℕ) (he : 0 < e) : ℕ × PingPong :=
  let k := 64 - bfffo (BitVec.ofNat 64 n)
  let table := setupTable (g.sub 1) b
  let zsize := computeSwSize n table e k he 0
  let r : Bignum := ⟨1, zsize, g []⟩
  let prod2 := allocTempBignumRec (g.sub 2) zsize
  (zsize, swLoop n table (g.sub 3) e k he false ⟨fun c => if c then prod2 else r, false, 0⟩)

/-- The power, by windows of bits. -/
def slidingWindowExpt (g : Junk) (b : Bignum) (n e : ℕ) (he : 0 < e) : Bignum :=
  let r := swRun g b n e he
  r.2.result r.1

/-! ### Powers -/

/-- The power, by one of the two methods. -/
def bignumExpt (g : Junk) (b : Bignum) (exponent : ℕ) : Bignum :=
  let l := 63 - bfffo (BitVec.ofNat 64 exponent)
  if l ≤ 8 then leftrightBinrayExpt g b exponent
  else if l ≤ 24 then slidingWindowExpt g b exponent 2 (by decide)
  else slidingWindowExpt g b exponent 3 (by decide)

/-- The power, normalized. -/
def sgBignumExpt (g : Junk) (b : Bignum) (exponent : ℕ) : Integer :=
  if b.sign = 0 then sgMakeInt 0
  else if exponent = 0 then sgMakeInt 1
  else if exponent = 1 then .bignum b
  else sgNormalizeBignum (bignumExpt g b exponent)

/-! ### Leading zeros -/

theorem and_not_mask_ne_zero (x : Word) (hk : k ≤ 32) :
    x &&& ~~~ BitVec.ofNat 64 (2 ^ k - 1) ≠ 0 ↔ 2 ^ k ≤ x.toNat := by
  have hpow : 2 ^ k ≤ 2 ^ 32 := Nat.pow_le_pow_right Nat.two_pos hk
  have hbelow : ∀ m : Word, x &&& ~~~ m = 0 ↔ x &&& m = x := by
    intro m
    simp only [BitVec.eq_of_getLsbD_eq_iff, BitVec.getLsbD_and, BitVec.getLsbD_not]
    refine forall₂_congr fun i hi => ?_
    cases x.getLsbD i <;> cases m.getLsbD i <;> simp [hi]
  rw [ne_eq, hbelow, ← BitVec.toNat_inj, BitVec.toNat_and, BitVec.toNat_ofNat,
    Nat.mod_eq_of_lt (by omega), Nat.and_two_pow_sub_one_eq_mod,
    Nat.mod_eq_iff_lt (Nat.two_pow_pos k).ne', Nat.not_lt]

/-- What `bfffo` keeps: the bits it has shifted out, and how many bits can be left. -/
structure BfffoInv (x : Word) (bits : ℕ) (s : ℕ × Word) : Prop where
  shifted : ∃ t, s.1 + t = 60 ∧ s.2.toNat = x.toNat / 2 ^ t ∧ t + bits ≤ 64
  ne_zero : s.2.toNat ≠ 0
  lt : s.2.toNat < 2 ^ bits

theorem BfffoInv.step {x : Word} {s : ℕ × Word} (hk : 4 ≤ k) (hk' : k ≤ 32)
    (h : BfffoInv x (2 * k) s) : BfffoInv x k (bfffoStep k (BitVec.ofNat 64 (2 ^ k - 1)) s) := by
  obtain ⟨⟨t, ht, hval, hle⟩, h0, hlt⟩ := h
  rw [bfffoStep]
  split_ifs with hc
  · rw [and_not_mask_ne_zero _ hk'] at hc
    have hdiv : (s.2 >>> k).toNat = s.2.toNat / 2 ^ k := by
      rw [BitVec.toNat_ushiftRight, Nat.shiftRight_eq_div_pow]
    refine ⟨⟨t + k, by dsimp only; omega, ?_, by omega⟩, ?_, ?_⟩
    · dsimp only
      rw [hdiv, hval, Nat.div_div_eq_div_mul, pow_add]
    · dsimp only
      rw [hdiv]
      exact (Nat.div_pos hc (Nat.two_pow_pos k)).ne'
    · dsimp only
      rw [hdiv, Nat.div_lt_iff_lt_mul (Nat.two_pow_pos k), ← pow_add, ← two_mul]
      exact hlt
  · rw [and_not_mask_ne_zero _ hk', Nat.not_le] at hc
    exact ⟨⟨t, ht, hval, by omega⟩, h0, hc⟩

theorem BfffoInv.count {x : Word} {s : ℕ × Word} (h : BfffoInv x 4 s) :
    let c := s.1 + tabshi.getD s.2.toNat 0
    c ≤ 63 ∧ 2 ^ (63 - c) ≤ x.toNat ∧ x.toNat < 2 ^ (64 - c) := by
  obtain ⟨⟨t, ht, hval, -⟩, hne, hlt⟩ := h
  have htab : ∀ w, w < 16 → w ≠ 0 → tabshi.getD w 0 ≤ 3 ∧ 2 ^ (3 - tabshi.getD w 0) ≤ w ∧
      w < 2 ^ (4 - tabshi.getD w 0) := by decide
  obtain ⟨h3, hlow, hhigh⟩ := htab _ hlt hne
  dsimp only
  generalize tabshi.getD s.2.toNat 0 = c at *
  rw [hval] at hlow hhigh
  rw [Nat.le_div_iff_mul_le (Nat.two_pow_pos t), ← pow_add] at hlow
  rw [Nat.div_lt_iff_lt_mul (Nat.two_pow_pos t), ← pow_add] at hhigh
  rw [show 63 - (s.1 + c) = 3 - c + t by omega, show 64 - (s.1 + c) = 4 - c + t by omega]
  exact ⟨by omega, hlow, hhigh⟩

theorem bfffo_spec {x : Word} (h0 : x ≠ 0) :
    bfffo x ≤ 63 ∧ 2 ^ (63 - bfffo x) ≤ x.toNat ∧ x.toNat < 2 ^ (64 - bfffo x) := by
  have hx : x.toNat ≠ 0 := fun h => h0 (BitVec.eq_of_toNat_eq h)
  have h : BfffoInv x 64 (60, x) := ⟨⟨0, rfl, by simp, by omega⟩, hx, x.isLt⟩
  exact ((((h.step (by decide) le_rfl).step (by decide) (by decide)).step
    (by decide) (by decide)).step le_rfl (by decide)).count

/-! ### Between two buffers -/

namespace PingPong

/-- The buffers hold the power `x` of `b`, and both have the sign of a positive number. -/
structure Holds (p : PingPong) (b : Bignum) (x : ℕ) : Prop where
  value_eq : p.value = b.mag ^ x
  len_eq : p.len = b.size * x
  sign_eq : ∀ c, (p.buf c).sign = 1

/-- The count of the number has been set. -/
def Counted (p : PingPong) : Prop := (p.buf p.cur).size = p.len

theorem swap_buf_cur (p : PingPong) (b : Bignum) (len : ℕ) :
    (p.swap b len).buf (p.swap b len).cur = b := Function.update_self _ _ _

theorem swap_value (p : PingPong) (b : Bignum) (len : ℕ) :
    (p.swap b len).value = wval b.elements 0 len := by
  rw [value, swap_buf_cur]
  rfl

theorem swap_counted (p : PingPong) {b : Bignum} {len : ℕ} (h : b.size = len) :
    (p.swap b len).Counted := by
  rw [Counted, swap_buf_cur, h]
  rfl

theorem swap_sign {p : PingPong} (h : ∀ c, (p.buf c).sign = 1) {b : Bignum} (hb : b.sign = 1)
    (len : ℕ) (c : Bool) : ((p.swap b len).buf c).sign = 1 := by
  change (Function.update p.buf (!p.cur) b c).sign = 1
  rw [Function.update_apply]
  split_ifs
  · exact hb
  · exact h c

variable {b : Bignum} {x : ℕ} {p : PingPong}

theorem shiftLeft_one (n : ℕ) : n <<< 1 = 2 * n := by rw [Nat.shiftLeft_eq, pow_one, Nat.mul_comm]

theorem Holds.len_pos (h : p.Holds b x) (hb : 0 < b.size) (hx : 0 < x) : 0 < p.len := by
  rw [h.len_eq]
  exact Nat.mul_pos hb hx

theorem square_spec (g : Junk) (h : p.Holds b x) (hlen : 0 < p.len) :
    (p.square g).Holds b (2 * x) ∧ (p.square g).Counted ∧ 0 < (p.square g).len := by
  have hshift := shiftLeft_one p.len
  obtain ⟨-, hval⟩ := mpSquareRec_spec g (p.buf (!p.cur)).words (p.buf p.cur).words hlen
  refine ⟨⟨?_, ?_, ?_⟩, ?_, ?_⟩
  · rw [square, swap_value, hshift]
    refine hval.trans ?_
    change p.value ^ 2 = _
    rw [h.value_eq, ← pow_mul, Nat.mul_comm]
  · change p.len <<< 1 = _
    rw [hshift, h.len_eq]
    ring
  · rw [square]
    refine swap_sign h.sign_eq ?_ _
    exact h.sign_eq (!p.cur)
  · exact swap_counted _ rfl
  · change 0 < p.len <<< 1
    omega

theorem squares_spec (g : Junk) (k : ℕ) (h : p.Holds b x) (hlen : 0 < p.len) :
    (p.squares g k).Holds b (x * 2 ^ k) ∧ (p.Counted ∨ 0 < k → (p.squares g k).Counted) := by
  induction k generalizing g p x with
  | zero =>
    rw [pow_zero, Nat.mul_one]
    exact ⟨h, fun hc => hc.resolve_right (Nat.lt_irrefl 0)⟩
  | succ k ih =>
    obtain ⟨hsq, hcount, hpos⟩ := square_spec g h hlen
    obtain ⟨h1, h2⟩ := ih (g.sub 0) hsq hpos
    rw [show x * 2 ^ (k + 1) = 2 * x * 2 ^ k by ring]
    exact ⟨h1, fun _ => h2 (.inl hcount)⟩

theorem bignumMulInt_long (g : Junk) (br : Bignum) {x y : Bignum} (hx : 0 < x.size)
    (hy : 0 < y.size) (hkar : ¬ canKaratsuba x.size y.size = true) :
    wval (bignumMulInt g br x y).elements 0 (x.size + y.size) = x.mag * y.mag := by
  obtain ⟨-, hlong⟩ := longMul_spec ({ br with sign := x.sign * y.sign } : Bignum).words x.words hx
    y.words hy
  change wval (mpMulRec g _ _ x.words x.size y.words y.size).val.mem 0 _ = _
  rw [mpMulRec, dif_neg hkar]
  exact hlong

theorem mulBy_spec (g : Junk) (count : Bool) (h : p.Holds b x) (hcount : p.Counted)
    {tw : Bignum} {y : ℕ} (hb : 0 < b.size) (hy : 0 < y) (hmag : tw.mag = b.mag ^ y)
    (hsize : tw.size = b.size * y) (hsign : tw.sign = 1) (hle : 2 * y ≤ x) :
    (p.mulBy g count tw).Holds b (x + y) ∧ (count = true → (p.mulBy g count tw).Counted) := by
  have hcount : (p.buf p.cur).size = p.len := hcount
  have hlen := h.len_eq
  have hpos : 0 < b.size * y := Nat.mul_pos hb hy
  have hle' : 2 * (b.size * y) ≤ b.size * x := by
    calc 2 * (b.size * y) = b.size * (2 * y) := by ring
      _ ≤ b.size * x := Nat.mul_le_mul_left _ hle
  have hkar : ¬ canKaratsuba (p.buf p.cur).size tw.size = true := by
    rw [canKaratsuba_iff, hcount, hlen, hsize]
    omega
  set prod := bignumMulInt g (p.buf (!p.cur)) (p.buf p.cur) tw with hprod
  have hval : wval prod.elements 0 (p.len + tw.size) = p.value * tw.mag := by
    rw [value, ← hcount]
    exact bignumMulInt_long g _ (by omega) (by omega) hkar
  have hprodsign : prod.sign = 1 := by
    change (p.buf p.cur).sign * tw.sign = 1
    rw [h.sign_eq, hsign]
    rfl
  refine ⟨⟨?_, ?_, ?_⟩, ?_⟩
  · rw [mulBy, swap_value]
    have : (if count then { prod with size := p.len + tw.size } else prod).elements =
        prod.elements := by split_ifs <;> rfl
    rw [this, hval, h.value_eq, hmag, pow_add]
  · change p.len + tw.size = _
    rw [hlen, hsize]
    ring
  · refine swap_sign h.sign_eq ?_ _
    split_ifs <;> exact hprodsign
  · intro hc
    rw [mulBy, if_pos hc]
    exact swap_counted _ rfl

theorem result_spec (h : p.Holds b x) :
    (p.result p.len).sign = 1 ∧ (p.result p.len).size = p.len ∧
      (p.result p.len).mag = b.mag ^ x := by
  rw [result]
  have hval := h.value_eq
  rw [value] at hval
  cases hc : p.cur with
  | false =>
    rw [hc] at hval
    exact ⟨h.sign_eq _, rfl, hval⟩
  | true =>
    rw [hc] at hval
    refine ⟨h.sign_eq _, rfl, Eq.trans ?_ hval⟩
    exact wval_congr fun j _ hj => if_pos (by simpa using hj)

end PingPong

/-! ### Bit by bit -/

variable {b : Bignum} {p : PingPong} {x : ℕ}

theorem lrLoop_len (g : Junk) (j : ℕ) (m : Word) (p : PingPong) :
    (lrLoop b g j m p).len = computeLrBinarySize j m b.size p.len := by
  induction j generalizing g m p with
  | zero => rfl
  | succ j ih =>
    rw [lrLoop, computeLrBinarySize, ih]
    split_ifs <;> rfl

theorem msb_shiftLeft (e : ℕ) {j : ℕ} (hj : j < 64) :
    (BitVec.ofNat 64 e <<< (64 - (j + 1))).msb = e.testBit j := by
  rw [BitVec.msb_shiftLeft, BitVec.getMsbD_eq_getLsbD, BitVec.getLsbD_ofNat,
    show 64 - 1 - (64 - (j + 1)) = j by omega]
  simp only [hj, show 64 - (j + 1) < 64 by omega, decide_true, Bool.true_and]

/-- The loop over the bits of the exponent: the power it holds is that of the bits so far. -/
theorem lrLoop_spec (hb : 0 < b.size) (hs : b.sign = 1) (g : Junk) {j : ℕ} (hj : j ≤ 63)
    (hx : 0 < e / 2 ^ j) (h : p.Holds b (e / 2 ^ j)) :
    (lrLoop b g j (BitVec.ofNat 64 e <<< (64 - j)) p).Holds b e := by
  induction j generalizing g p with
  | zero => rwa [pow_zero, Nat.div_one] at h
  | succ j ih =>
    obtain ⟨hsq, hcount, -⟩ := PingPong.square_spec g h (h.len_pos hb hx)
    rw [lrLoop, msb_shiftLeft e (by omega), ← BitVec.shiftLeft_add,
      show 64 - (j + 1) + 1 = 64 - j by omega]
    have hbit := Nat.toNat_testBit e j
    have hhalf : e / 2 ^ (j + 1) = e / 2 ^ j / 2 := by rw [pow_succ, Nat.div_div_eq_div_mul]
    refine ih (g.sub 0) (by omega) (by omega) ?_
    rw [hhalf] at hsq hx
    cases hb' : e.testBit j with
    | false =>
      rw [hb', Bool.toNat_false] at hbit
      rwa [show 2 * (e / 2 ^ j / 2) = e / 2 ^ j by omega] at hsq
    | true =>
      rw [hb', Bool.toNat_true] at hbit
      rw [show e / 2 ^ j = 2 * (e / 2 ^ j / 2) + 1 by omega]
      exact (PingPong.mulBy_spec (g.sub 1) false hsq hcount hb Nat.one_pos (pow_one _).symm
        (Nat.mul_one _).symm hs (by omega)).1

theorem bfffo_split (h0 : 0 < e) (hlt : e < 2 ^ 63) : let c := bfffo (BitVec.ofNat 64 e)
    c ≤ 63 ∧ 2 ^ (63 - c) ≤ e ∧ e < 2 ^ (64 - c) ∧ e / 2 ^ (63 - c) = 1 := by
  intro c
  have hval : (BitVec.ofNat 64 e).toNat = e := by
    rw [BitVec.toNat_ofNat]
    omega
  have hne : BitVec.ofNat 64 e ≠ 0 := fun h => by
    rw [h] at hval
    exact h0.ne hval
  obtain ⟨h63, hlow, hhigh⟩ := bfffo_spec hne
  rw [hval] at hlow hhigh
  refine ⟨h63, hlow, hhigh, Nat.div_eq_of_lt_le (by rwa [Nat.one_mul]) ?_⟩
  rwa [show 1 + 1 = 2 from rfl, ← pow_succ', show 63 - c + 1 = 64 - c by omega]

variable (g : Junk)

/-- **Bit by bit**: the power, and the size that is computed in advance. -/
theorem lrRun_spec (hb : 0 < b.size) (hs : b.sign = 1) (h0 : 0 < e) (hlt : e < 2 ^ 63) :
    (lrRun g b e).1 = (lrRun g b e).2.len ∧ (lrRun g b e).2.Holds b e := by
  obtain ⟨h63, -, -, hone⟩ := bfffo_split h0 hlt
  simp only [lrRun]
  refine ⟨by rw [lrLoop_len], ?_⟩
  generalize bfffo (BitVec.ofNat 64 e) = c at *
  rw [show 64 - (1 + c) = 63 - c by omega, show 1 + c = 64 - (63 - c) by omega]
  refine lrLoop_spec hb hs _ (by omega) (by omega) ⟨?_, ?_, fun d => ?_⟩
  · rw [hone, pow_one]
    exact wval_congr fun i _ hi => if_pos (by simpa using hi)
  · rw [hone, Nat.mul_one]
  · cases d
    · exact hs
    · rfl

/-! ### The table of odd powers -/

theorem setupSquare_mag (hb : 0 < b.size) : (setupSquare g b).mag = b.mag ^ 2 := by
  obtain ⟨-, hval⟩ := mpSquareRec_spec (g.sub 1)
    (bignumClearLeft (allocTempBignumRec g (2 * b.size))).words b.words hb
  exact hval

theorem setupTable_size (b : Bignum) (i : ℕ) : (setupTable g b i).size = b.size * (2 * i + 1) := by
  induction i with
  | zero => exact (Nat.mul_one _).symm
  | succ i ih =>
    change (setupTable g b i).size + b.size <<< 1 = _
    rw [ih, PingPong.shiftLeft_one]
    ring

theorem setupTable_spec (hb : 0 < b.size) (hs : b.sign = 1) {i : ℕ} (hi : i ≤ 1) :
    (setupTable g b i).mag = b.mag ^ (2 * i + 1) ∧ (setupTable g b i).sign = 1 := by
  rcases Nat.le_one_iff_eq_zero_or_eq_one.1 hi with rfl | rfl
  · exact ⟨(pow_one _).symm, hs⟩
  · have hx2 : (setupSquare g b).size = 2 * b.size := PingPong.shiftLeft_one _
    have hkar : ¬ canKaratsuba b.size (setupSquare g b).size = true := by
      rw [canKaratsuba_iff, hx2]
      omega
    constructor
    · refine (PingPong.bignumMulInt_long (g.sub 2) _ hb (by omega) hkar).trans ?_
      rw [setupSquare_mag g hb]
      ring
    · change b.sign * 1 = 1
      rw [hs]
      rfl

/-! ### The windows of the exponent -/

/-- What the windows add up to when `x` is the exponent so far. -/
def swExponent (n e k : ℕ) (he : 0 < e) (x : ℕ) : ℕ :=
  if hk : k = 0 then x
  else
    let win := window n e k
    let x := (x * 2 ^ (win.e - win.v).toNat + (2 * win.index + 1)) * 2 ^ win.v.toNat
    let zeros := skipZeros n win.k
    swExponent n win.e zeros.2 (window_e_pos he hk) (x * 2 ^ zeros.1)
termination_by k
decreasing_by exact (skipZeros_le _ _).trans_lt (window_k_lt he hk)

theorem window_w (n e k : ℕ) : (window n e k).w = n / 2 ^ (window n e k).k % 4 := by
  change (n >>> (k - if e > k then k else e)) &&& (2 ^ 2 - 1) = _
  rw [Nat.and_two_pow_sub_one_eq_mod, Nat.shiftRight_eq_div_pow]
  rfl

theorem window_cases (n e k : ℕ) :
    let win := window n e k
    win.w = 0 ∧ win.v = -1 ∧ win.index = 0 ∨ win.w = 1 ∧ win.v = 0 ∧ win.index = 0 ∨
      win.w = 2 ∧ win.v = 1 ∧ win.index = 0 ∨ win.w = 3 ∧ win.v = 0 ∧ win.index = 1 := by
  intro win
  have hlt : win.w < 4 := by
    rw [window_w]
    exact Nat.mod_lt _ (by decide)
  have hv : win.v = vals (BitVec.ofNat 64 win.w) := rfl
  have hindex : win.index = win.w >>> (win.v + 1).toNat := rfl
  have htab : ∀ w, w < 4 → w = 0 ∧ vals (BitVec.ofNat 64 w) = -1 ∨
      w = 1 ∧ vals (BitVec.ofNat 64 w) = 0 ∨ w = 2 ∧ vals (BitVec.ofNat 64 w) = 1 ∨
      w = 3 ∧ vals (BitVec.ofNat 64 w) = 0 := by decide
  rcases htab _ hlt with ⟨hw, h⟩ | ⟨hw, h⟩ | ⟨hw, h⟩ | ⟨hw, h⟩ <;>
    rw [← hv] at h <;> rw [hindex, hw, h] <;> decide

theorem window_index_le (n e k : ℕ) : (window n e k).index ≤ 1 := by
  rcases window_cases n e k with ⟨-, -, hi⟩ | ⟨-, -, hi⟩ | ⟨-, -, hi⟩ | ⟨-, -, hi⟩ <;> omega

theorem window_e_add_k : (window n e k).e + (window n e k).k = k := by
  change (if e > k then k else e) + (k - if e > k then k else e) = k
  split_ifs <;> omega

theorem window_squarings (h : 0 < (window n e k).e) : let win := window n e k
    win.w = 0 ∧ win.v.toNat = 0 ∧ win.index = 0 ∧ (win.e - win.v).toNat = win.e + 1 ∨
      win.w = 1 ∧ win.v.toNat = 0 ∧ win.index = 0 ∧ (win.e - win.v).toNat = win.e ∨
      win.w = 2 ∧ win.v.toNat = 1 ∧ win.index = 0 ∧ (win.e - win.v).toNat + 1 = win.e ∨
      win.w = 3 ∧ win.v.toNat = 0 ∧ win.index = 1 ∧ (win.e - win.v).toNat = win.e := by
  dsimp only
  rcases window_cases n e k with ⟨hw, hv, hi⟩ | ⟨hw, hv, hi⟩ | ⟨hw, hv, hi⟩ | ⟨hw, hv, hi⟩ <;>
    rw [hv]
  · exact .inl ⟨hw, rfl, hi, by omega⟩
  · exact .inr (.inl ⟨hw, rfl, hi, by omega⟩)
  · exact .inr (.inr (.inl ⟨hw, rfl, hi, by omega⟩))
  · exact .inr (.inr (.inr ⟨hw, rfl, hi, by omega⟩))

theorem swExponent_step (h : 0 < (window n e k).e) (x : ℕ) : let win := window n e k
    (x * 2 ^ (win.e - win.v).toNat + (2 * win.index + 1)) * 2 ^ win.v.toNat =
      if win.w = 0 then x * 2 ^ (win.e + 1) + 1 else x * 2 ^ win.e + win.w := by
  dsimp only
  rcases window_squarings h with ⟨hw, hv, hi, hd⟩ | ⟨hw, hv, hi, hd⟩ | ⟨hw, hv, hi, hd⟩ |
    ⟨hw, hv, hi, hd⟩ <;> rw [hw, hv, hi]
  · simp [hd]
  · simp [hd]
  · have hpow := congrArg (2 ^ ·) hd
    rw [if_neg (by decide), ← hpow]
    ring
  · simp [hd]

theorem swExponent_half (h : 0 < (window n e k).e) (hx : 6 ≤ x * 2 ^ (window n e k).e) :
    let win := window n e k
    2 * (2 * win.index + 1) ≤ x * 2 ^ (win.e - win.v).toNat := by
  dsimp only
  rcases window_squarings h with ⟨-, -, hi, hd⟩ | ⟨-, -, hi, hd⟩ | ⟨-, -, hi, hd⟩ |
    ⟨-, -, hi, hd⟩ <;> rw [hi]
  · rw [hd, pow_succ, ← Nat.mul_assoc]
    omega
  · rw [hd]
    omega
  · rw [← hd, pow_succ, ← Nat.mul_assoc] at hx
    omega
  · rw [hd]
    omega

theorem skipZeros_add (n k : ℕ) : (skipZeros n k).1 + (skipZeros n k).2 = k := by
  induction k with
  | zero => rfl
  | succ k ih =>
    rw [skipZeros]
    split_ifs
    · exact Nat.zero_add _
    · change (skipZeros n k).1 + 1 + (skipZeros n k).2 = k + 1
      omega

theorem bit_set_iff (n k : ℕ) : n &&& 1 <<< k ≠ 0 ↔ n.testBit k = true := by
  rw [Nat.one_shiftLeft, Nat.and_two_pow]
  cases n.testBit k <;> simp

theorem skipZeros_bits (n k : ℕ) :
    (∀ i, (skipZeros n k).2 ≤ i → i < k → n.testBit i = false) ∧
      (0 < (skipZeros n k).2 → n.testBit ((skipZeros n k).2 - 1) = true) := by
  induction k with
  | zero => exact ⟨fun i _ hi => absurd hi (Nat.not_lt_zero i), fun h => absurd h (Nat.lt_irrefl 0)⟩
  | succ k ih =>
    rw [skipZeros]
    split_ifs with h
    · exact ⟨fun i hi hlt => absurd hi (Nat.not_le.2 hlt), fun _ => (bit_set_iff n k).1 h⟩
    · refine ⟨fun i hi hlt => ?_, ih.2⟩
      rcases Nat.lt_succ_iff_lt_or_eq.1 hlt with hlt | rfl
      · exact ih.1 i hi hlt
      · exact Bool.eq_false_iff.2 fun hc => h ((bit_set_iff n _).2 hc)

theorem skipZeros_div (n k : ℕ) :
    n / 2 ^ k * 2 ^ (skipZeros n k).1 = n / 2 ^ (skipZeros n k).2 := by
  induction k with
  | zero => exact Nat.mul_one _
  | succ k ih =>
    rw [skipZeros]
    split_ifs with h
    · exact Nat.mul_one _
    · have h0 : n.testBit k = false := Bool.eq_false_iff.2 fun hc => h ((bit_set_iff n _).2 hc)
      have hdiv : n / 2 ^ (k + 1) * 2 = n / 2 ^ k := by
        rw [Nat.testBit_eq_decide_div_mod_eq, decide_eq_false_iff_not] at h0
        rw [pow_succ, ← Nat.div_div_eq_div_mul]
        omega
      change n / 2 ^ (k + 1) * 2 ^ ((skipZeros n k).1 + 1) = n / 2 ^ (skipZeros n k).2
      rw [← ih, ← hdiv, pow_succ]
      ring

/-- **The size that is computed in advance** is that of the power the windows add up to. -/
theorem computeSwSize_eq (hb : 0 < b.size) (n e k : ℕ) (he : 0 < e) (x : ℕ) :
    computeSwSize n (setupTable g b) e k he (b.size * x) = b.size * swExponent n e k he x := by
  induction k using Nat.strong_induction_on generalizing e x with
  | _ k ih =>
    rw [computeSwSize, swExponent]
    by_cases hk : k = 0
    · rw [dif_pos hk, dif_pos hk]
    · rw [dif_neg hk, dif_neg hk]
      dsimp only
      rw [← ih _ ((skipZeros_le _ _).trans_lt (window_k_lt he hk))]
      congr 1
      rw [setupTable_size]
      simp only [Nat.shiftLeft_eq]
      by_cases hx : x = 0
      · rw [hx, if_neg (fun h => h (Nat.mul_zero _))]
        ring
      · rw [if_pos (Nat.mul_ne_zero hb.ne' hx)]
        ring

/-- **The loop over the windows** holds the power they add up to. The two bounds keep the entry of
the table short, also in the last window, which is clipped. -/
theorem swLoop_spec (g' : Junk) (hb : 0 < b.size) (hs : b.sign = 1) (g : Junk) (n e k : ℕ)
    (he : 0 < e) (hxe : 6 ≤ x * 2 ^ e) (hxk : 6 ≤ x * 2 ^ k) (h : p.Holds b x)
    (hcount : p.Counted) :
    (swLoop n (setupTable g' b) g e k he true p).Holds b (swExponent n e k he x) := by
  induction k using Nat.strong_induction_on generalizing e x g p with
  | _ k ih =>
    rw [swLoop, swExponent]
    by_cases hk : k = 0
    · rw [dif_pos hk, dif_pos hk]
      exact h
    rw [dif_neg hk, dif_neg hk]
    dsimp only
    have hpos := window_e_pos (n := n) he hk
    have hx0 : 0 < x := Nat.pos_of_ne_zero fun h0 => by
      rw [h0, Nat.zero_mul] at hxe
      omega
    have hwin : 6 ≤ x * 2 ^ (window n e k).e := by
      change 6 ≤ x * 2 ^ (if e > k then k else e)
      split_ifs
      · exact hxk
      · exact hxe
    have hhalf := swExponent_half hpos hwin
    have hstep := swExponent_step hpos x
    have hadd := window_e_add_k (n := n) (e := e) (k := k)
    have hlt := window_k_lt (n := n) he hk
    have hindex := window_index_le n e k
    generalize_proofs hpos'
    generalize window n e k = win at *
    have hgrow : x * 2 ^ win.e ≤
        (x * 2 ^ (win.e - win.v).toNat + (2 * win.index + 1)) * 2 ^ win.v.toNat := by
      rw [hstep]
      split_ifs
      · rw [pow_succ, ← Nat.mul_assoc]
        omega
      · exact Nat.le_add_right _ _
    obtain ⟨hmag, hsign⟩ := setupTable_spec g' hb hs hindex
    generalize hy : x * 2 ^ (win.e - win.v).toNat + (2 * win.index + 1) = y at hgrow ⊢
    -- the squarings of the window and its multiplication
    obtain ⟨h1, hc1⟩ := PingPong.squares_spec (g.sub 1) (win.e - win.v).toNat h (h.len_pos hb hx0)
    obtain ⟨h2, hc2⟩ := PingPong.mulBy_spec (g.sub 2) true h1 (hc1 (.inl hcount)) hb
      (Nat.succ_pos _) hmag (setupTable_size _ _ _) hsign hhalf
    rw [hy] at h2
    have hy0 : 0 < y := by omega
    -- the squarings for the zeros at the end of the window, and for those behind it
    obtain ⟨h3, hc3⟩ := PingPong.squares_spec (g.sub 3) win.v.toNat h2 (h2.len_pos hb hy0)
    have hy1 : 0 < y * 2 ^ win.v.toNat := Nat.mul_pos hy0 (Nat.two_pow_pos _)
    obtain ⟨h4, hc4⟩ := PingPong.squares_spec (g.sub 4) (skipZeros n win.k).1 h3 (h3.len_pos hb hy1)
    have hk' : 2 ^ (skipZeros n win.k).1 * 2 ^ (skipZeros n win.k).2 = 2 ^ win.k := by
      rw [← pow_add, skipZeros_add]
    refine ih _ ((skipZeros_le _ _).trans_lt hlt) _ _ _ ?_ ?_ h4
      (hc4 (.inl (hc3 (.inl (hc2 rfl)))))
    · calc 6 ≤ x * 2 ^ win.e := hwin
        _ ≤ y * 2 ^ win.v.toNat := hgrow
        _ ≤ y * 2 ^ win.v.toNat * 2 ^ (skipZeros n win.k).1 * 2 ^ win.e := by
          rw [Nat.mul_assoc]
          exact Nat.le_mul_of_pos_right _ (by positivity)
    · calc 6 ≤ x * 2 ^ k := hxk
        _ = x * 2 ^ win.e * 2 ^ win.k := by
          rw [Nat.mul_assoc, ← pow_add, hadd]
        _ ≤ y * 2 ^ win.v.toNat * 2 ^ win.k := Nat.mul_le_mul_right _ hgrow
        _ = y * 2 ^ win.v.toNat * 2 ^ (skipZeros n win.k).1 * 2 ^ (skipZeros n win.k).2 := by
          rw [Nat.mul_assoc (_ * _), hk']

theorem PingPong.load_spec (hp : ∀ c, (p.buf c).sign = 1) {tw : Bignum} {y : ℕ}
    (hmag : tw.mag = b.mag ^ y) (hsize : tw.size = b.size * y) :
    (p.load tw).Holds b y ∧ (p.load tw).Counted := by
  refine ⟨⟨Eq.trans ?_ hmag, hsize, fun c => ?_⟩, rfl⟩
  · exact wval_congr fun j _ hj => if_pos (by rwa [Nat.zero_add] at hj)
  · cases c
    · exact hp false
    · exact hp true

theorem window_top (hk : 2 ≤ k) (hn : 2 ^ (k - 1) ≤ n) (hlt : n < 2 ^ k) :
    (window n 2 k).w = n / 2 ^ (k - 2) ∧ 2 ≤ (window n 2 k).w := by
  have hwk : (window n 2 k).k = k - 2 := by
    change k - (if 2 > k then k else 2) = k - 2
    rw [if_neg (by omega)]
  have hpow : 2 ^ (k - 1) = 2 * 2 ^ (k - 2) ∧ 2 ^ k = 4 * 2 ^ (k - 2) := by
    obtain ⟨d, rfl⟩ := Nat.exists_eq_add_of_le hk
    rw [show 2 + d - 1 = d + 1 by omega, show 2 + d - 2 = d by omega]
    constructor <;> ring
  have h2 : 2 ≤ n / 2 ^ (k - 2) := (Nat.le_div_iff_mul_le (Nat.two_pow_pos _)).2 (by omega)
  have h4 : n / 2 ^ (k - 2) < 4 := (Nat.div_lt_iff_lt_mul (Nat.two_pow_pos _)).2 (by omega)
  rw [window_w, hwk, Nat.mod_eq_of_lt h4]
  exact ⟨rfl, h2⟩

/-- **With windows**: the power they add up to, and the size that is computed in advance. -/
theorem swRun_spec (hb : 0 < b.size) (hs : b.sign = 1) (he : 0 < e) (he' : e = 2 ∨ e = 3)
    (hn : 512 ≤ n) (hlt : n < 2 ^ 63) :
    (swRun g b n e he).1 = (swRun g b n e he).2.len ∧
      (swRun g b n e he).2.Holds b
        (swExponent n e (64 - bfffo (BitVec.ofNat 64 n)) he 0) := by
  obtain ⟨h63, hlow, hhigh, -⟩ := bfffo_split (by omega) hlt
  simp only [swRun]
  generalize bfffo (BitVec.ofNat 64 n) = c at *
  obtain ⟨k, hk⟩ : ∃ k, 64 - c = k := ⟨_, rfl⟩
  rw [show 63 - c = k - 1 by omega] at hlow
  rw [hk] at hhigh ⊢
  have hk10 : 10 ≤ k := by
    by_contra hc
    have : 2 ^ k ≤ 2 ^ 9 := Nat.pow_le_pow_right Nat.two_pos (by omega)
    omega
  have hk0 : ¬ k = 0 := by omega
  have hwe : (window n e k).e = e := by
    change (if e > k then k else e) = e
    rw [if_neg (by omega)]
  have hsize := computeSwSize_eq (g.sub 1) hb n e k he 0
  rw [Nat.mul_zero] at hsize
  rw [hsize]
  suffices h : (swLoop n (setupTable (g.sub 1) b) (g.sub 3) e k he false
      ⟨fun d => if d then allocTempBignumRec (g.sub 2) (b.size * swExponent n e k he 0) else
        ⟨1, b.size * swExponent n e k he 0, g []⟩, false, 0⟩).Holds b (swExponent n e k he 0) from
    ⟨h.len_eq.symm, h⟩
  generalize b.size * swExponent n e k he 0 = size
  have hpos := window_e_pos (n := n) he hk0
  have hstep := swExponent_step hpos 0
  rw [swLoop, dif_neg hk0, swExponent, dif_neg hk0]
  dsimp only at hstep ⊢
  rw [if_neg (by decide), Nat.zero_mul, Nat.zero_add]
  rw [Nat.zero_mul, Nat.zero_add, Nat.zero_mul, Nat.zero_mul, Nat.zero_add, Nat.zero_add] at hstep
  obtain ⟨hmag, -⟩ := setupTable_spec (g.sub 1) hb hs (window_index_le n e k)
  obtain ⟨h1, hc1⟩ := PingPong.load_spec (p := ⟨fun d => if d then allocTempBignumRec (g.sub 2) size
    else ⟨1, size, g []⟩, false, 0⟩) (fun d => by cases d <;> rfl) hmag (setupTable_size _ _ _)
  obtain ⟨h2, hc2⟩ := PingPong.squares_spec ((g.sub 3).sub 3) (window n e k).v.toNat h1
    (h1.len_pos hb (Nat.succ_pos _))
  obtain ⟨h3, hc3⟩ := PingPong.squares_spec ((g.sub 3).sub 4) (skipZeros n (window n e k).k).1 h2
    (h2.len_pos hb (by positivity))
  have hw : 6 ≤ (if (window n e k).w = 0 then 1 else (window n e k).w) * 2 ^ e := by
    rcases he' with rfl | rfl
    · have h2w := (window_top (by omega) hlow hhigh).2
      rw [if_neg (by omega)]
      omega
    · split_ifs <;> omega
  refine swLoop_spec (g.sub 1) hb hs _ n _ _ _ ?_ ?_ h3 (hc3 (.inl (hc2 (.inl hc1))))
  · rw [hstep, hwe]
    refine hw.trans ?_
    exact Nat.mul_le_mul_right _ (Nat.le_mul_of_pos_right _ (Nat.two_pow_pos _))
  · rw [hstep, Nat.mul_assoc, ← pow_add, skipZeros_add]
    have hwk : 3 ≤ (window n e k).k := by
      have := window_e_add_k (n := n) (e := e) (k := k)
      omega
    calc 6 ≤ 1 * 2 ^ 3 := by decide
      _ ≤ (if (window n e k).w = 0 then 1 else (window n e k).w) * 2 ^ (window n e k).k :=
        Nat.mul_le_mul (by split_ifs <;> omega) (Nat.pow_le_pow_right Nat.two_pos hwk)

/-! ### The exponent -/

/-- The ones at the end of `n`. -/
def trailingOnes (n : ℕ) : ℕ := if n % 2 = 1 then trailingOnes (n / 2) + 1 else 0

theorem trailingOnes_spec (n : ℕ) :
    (∀ i, i < trailingOnes n → n.testBit i = true) ∧ n.testBit (trailingOnes n) = false := by
  induction n using Nat.strong_induction_on with
  | _ n ih =>
    rw [trailingOnes]
    split_ifs with h
    · obtain ⟨hones, hzero⟩ := ih (n / 2) (by omega)
      refine ⟨fun i hi => ?_, by rw [Nat.testBit_succ]; exact hzero⟩
      cases i with
      | zero => rw [Nat.testBit_zero, decide_eq_true h]
      | succ i =>
        rw [Nat.testBit_succ]
        exact hones i (by omega)
    · exact ⟨fun i hi => absurd hi (Nat.not_lt_zero i), by rw [Nat.testBit_zero, decide_eq_false h]⟩

theorem swExponent_zero (n e : ℕ) (he : 0 < e) (x : ℕ) : swExponent n e 0 he x = x := by
  rw [swExponent, dif_pos rfl]

variable {j : ℕ}

theorem div_two_pow_sub (n : ℕ) (h : j ≤ k) : n / 2 ^ k = n / 2 ^ (k - j) / 2 ^ j := by
  rw [Nat.div_div_eq_div_mul, ← pow_add, Nat.sub_add_cancel h]

theorem testBit_pred (h : n.testBit (k - 1) = true) (hj : 0 < j) (hjk : j ≤ k) :
    n / 2 ^ (k - j) / 2 ^ (j - 1) % 2 = 1 := by
  rw [Nat.testBit_eq_decide_div_mod_eq, decide_eq_true_eq] at h
  rwa [div_two_pow_sub n (show j - 1 ≤ k - 1 by omega), show k - 1 - (j - 1) = k - j by omega] at h

theorem swExponent_succ (he : 0 < e) (hk : 0 < k) (hj : j = if e > k then k else e) (x : ℕ) :
    ∃ h : 0 < j, swExponent n e k he x =
      swExponent n j (skipZeros n (k - j)).2 h
        ((if n / 2 ^ (k - j) % 4 = 0 then x * 2 ^ (j + 1) + 1
            else x * 2 ^ j + n / 2 ^ (k - j) % 4) * 2 ^ (skipZeros n (k - j)).1) := by
  have hpos := window_e_pos (n := n) he hk.ne'
  have hwe : (window n e k).e = j := hj.symm
  have hwk : (window n e k).k = k - j := by
    have := window_e_add_k (n := n) (e := e) (k := k)
    omega
  have hstep := swExponent_step hpos x
  have hw := window_w n e k
  rw [swExponent, dif_neg hk.ne']
  dsimp only at hstep ⊢
  rw [hstep, hw]
  subst hwe
  exact ⟨hpos, rfl⟩

/-- The windows of two bits add up to the exponent, except that a clipped last window takes two bits
for one, as its mask is not clipped. The loop arrives at one exactly if the number of ones at the
end is odd. -/
theorem swExponent_two {t : ℕ} (hones : ∀ i, i < t → n.testBit i = true)
    (hzero : n.testBit t = false) (e k : ℕ) (he : 0 < e) (he2 : e = 2)
    (hbit : 0 < k → n.testBit (k - 1) = true) (hhead : t < k ∨ k ≤ t ∧ k % 2 = t % 2) :
    swExponent n e k he (n / 2 ^ k) = n + if t % 2 = 1 ∧ 3 ≤ t then 2 else 0 := by
  induction k using Nat.strong_induction_on generalizing e with
  | _ k ih =>
    rcases Nat.lt_or_ge k 2 with hk | hk
    · obtain rfl | rfl : k = 0 ∨ k = 1 := by omega
      · rw [swExponent_zero, if_neg (by omega), pow_zero, Nat.div_one, Nat.add_zero]
      · -- the clipped window
        obtain ⟨h, heq⟩ := swExponent_succ he Nat.one_pos
          (by rw [if_pos (by omega)]) (n / 2 ^ 1)
        rw [heq, Nat.sub_self, pow_zero, Nat.div_one]
        have h0 : n.testBit 0 = true := hbit Nat.one_pos
        have h1 : n.testBit 1 = decide (3 ≤ t) := by
          rcases Nat.lt_or_ge t 3 with ht | ht
          · rw [decide_eq_false (by omega)]
            have : t = 1 := by
              rcases hhead with ht0 | ht0
              · have : t = 0 := by omega
                rw [this, h0] at hzero
                exact absurd hzero (by decide)
              · omega
            exact this ▸ hzero
          · rw [decide_eq_true ht]
            exact hones 1 (by omega)
        rw [Nat.testBit_eq_decide_div_mod_eq, decide_eq_true_eq] at h0
        rw [Nat.testBit_eq_decide_div_mod_eq, decide_eq_decide] at h1
        change swExponent n 1 0 h _ = _
        rw [swExponent_zero, if_neg (by omega)]
        change (n / 2 ^ 1 * 2 ^ 1 + n % 4) * 2 ^ 0 = _
        split_ifs <;> omega
    · obtain ⟨h, heq⟩ := swExponent_succ he (show 0 < k by omega)
        (by rw [he2, if_neg (by omega)]) (n / 2 ^ k)
      have hbit := hbit (by omega)
      have hdiv := div_two_pow_sub n hk
      have htop := testBit_pred hbit Nat.two_pos hk
      have hnext : (if n / 2 ^ (k - 2) % 4 = 0 then n / 2 ^ k * 2 ^ (2 + 1) + 1
          else n / 2 ^ k * 2 ^ 2 + n / 2 ^ (k - 2) % 4) = n / 2 ^ (k - 2) := by
        rw [if_neg (by omega)]
        omega
      rw [heq, hnext, skipZeros_div]
      obtain ⟨hskip, hset⟩ := skipZeros_bits n (k - 2)
      have hle := skipZeros_le n (k - 2)
      refine ih _ (by omega) _ _ rfl hset ?_
      generalize (skipZeros n (k - 2)).2 = k' at *
      rcases hhead with ht | ⟨ht, hpar⟩
      · have hne : k - 1 ≠ t := fun hc => by
          rw [hc, hzero] at hbit
          exact absurd hbit (by decide)
        by_cases hlt : t < k'
        · exact .inl hlt
        · right
          have : ¬ k' < t := fun hc => by
            have := hskip k' le_rfl (by omega)
            rw [hones k' hc] at this
            exact absurd this (by decide)
          omega
      · right
        have : ¬ k' < k - 2 := fun hc => by
          have := hskip (k - 3) (by omega) (by omega)
          rw [hones (k - 3) (by omega)] at this
          exact absurd this (by decide)
        omega

theorem ne_mul_two_pow {a : ℕ} (h : a ≠ x ∧ a ≠ x + 1) (c : ℕ) :
    a * 2 ^ c ≠ x * 2 ^ c ∧ a * 2 ^ c ≠ x * 2 ^ c + 1 := by
  cases c with
  | zero => simpa using h
  | succ c =>
    refine ⟨fun heq => h.1 (Nat.eq_of_mul_eq_mul_right (Nat.two_pow_pos _) heq), fun heq => ?_⟩
    rw [pow_succ, ← Nat.mul_assoc, ← Nat.mul_assoc] at heq
    omega

/-- Windows of three bits lose their first bit to the mask, and the last window, which may be
clipped, does not bring it back. -/
theorem swExponent_three (e k : ℕ) (he : 0 < e) (he3 : e = 3)
    (hbit : 0 < k → n.testBit (k - 1) = true) (hdiff : 3 ≤ k ∨ n / 2 ^ k ≠ x ∧ n / 2 ^ k ≠ x + 1) :
    swExponent n e k he x ≠ n := by
  induction k using Nat.strong_induction_on generalizing e x with
  | _ k ih =>
    rcases Nat.lt_or_ge k 3 with hk | hk
    · replace hdiff := hdiff.resolve_left (Nat.not_le.2 hk)
      rcases Nat.eq_zero_or_pos k with rfl | hk0
      · rw [swExponent_zero]
        simpa using hdiff.1.symm
      · -- a clipped window
        obtain ⟨h, heq⟩ := swExponent_succ he hk0 (by rw [if_pos (by omega)]) x
        have htop := testBit_pred (hbit hk0) hk0 le_rfl
        rw [Nat.sub_self, pow_zero, Nat.div_one] at heq htop
        change swExponent n e k he x = swExponent n k 0 h (_ * 2 ^ 0) at heq
        rw [heq, swExponent_zero, pow_zero, Nat.mul_one]
        obtain rfl | rfl : k = 1 ∨ k = 2 := by omega
        · rw [if_neg (by omega)]
          omega
        · rw [if_neg (by omega)]
          omega
    · obtain ⟨h, heq⟩ := swExponent_succ he (show 0 < k by omega)
        (by rw [he3, if_neg (by omega)]) x
      have htop := testBit_pred (hbit (by omega)) (show 0 < 3 by omega) hk
      have hstep : n / 2 ^ (k - 3) ≠ (if n / 2 ^ (k - 3) % 4 = 0 then x * 2 ^ (3 + 1) + 1
          else x * 2 ^ 3 + n / 2 ^ (k - 3) % 4) ∧
          n / 2 ^ (k - 3) ≠ (if n / 2 ^ (k - 3) % 4 = 0 then x * 2 ^ (3 + 1) + 1
          else x * 2 ^ 3 + n / 2 ^ (k - 3) % 4) + 1 := by
        split_ifs <;> omega
      have hnext := ne_mul_two_pow hstep (skipZeros n (k - 3)).1
      rw [skipZeros_div] at hnext
      rw [heq]
      have hle := skipZeros_le n (k - 3)
      exact ih _ (by omega) _ _ rfl (skipZeros_bits n (k - 3)).2 (.inr hnext)

/-! ### The power -/

/-- The exponent of the power that `bignum_expt` computes. -/
def exptExponent (n : ℕ) : ℕ :=
  let k := 64 - bfffo (BitVec.ofNat 64 n)
  if n < 512 then n
  else if n < 2 ^ 25 then swExponent n 2 k (by decide) 0
  else swExponent n 3 k (by decide) 0

theorem PingPong.Holds.result_represents (h : p.Holds b x) (hb : 0 < b.size) (hx : 0 < x) :
    (sgNormalizeBignum (p.result p.len)).Represents ((b.mag : ℤ) ^ x) := by
  obtain ⟨hsign, hsize, hmag⟩ := result_spec h
  have hspec := sgNormalizeBignum_spec fun _ => by
    rw [hsize]
    exact h.len_pos hb hx
  rw [Bignum.toInt_of_pos hsign, hmag] at hspec
  exact_mod_cast hspec

theorem swExponent_pos (n e k : ℕ) (he : 0 < e) (h : 0 < x ∨ 0 < k) :
    0 < swExponent n e k he x := by
  induction k using Nat.strong_induction_on generalizing e x with
  | _ k ih =>
    rw [swExponent]
    by_cases hk : k = 0
    · rw [dif_pos hk]
      omega
    · rw [dif_neg hk]
      exact ih _ ((skipZeros_le _ _).trans_lt (window_k_lt he hk)) _ _ (.inl (by positivity))

theorem bignumExpt_cases (b : Bignum) (h0 : 0 < n) (hlt : n < 2 ^ 63) :
    bignumExpt g b n =
      if n < 512 then leftrightBinrayExpt g b n
      else if n < 2 ^ 25 then slidingWindowExpt g b n 2 (by decide)
      else slidingWindowExpt g b n 3 (by decide) := by
  obtain ⟨h63, hlow, hhigh, -⟩ := bfffo_split h0 hlt
  rw [bignumExpt]
  have hiff : ∀ j, 63 - bfffo (BitVec.ofNat 64 n) ≤ j ↔ n < 2 ^ (j + 1) := by
    intro j
    constructor
    · intro hj
      exact hhigh.trans_le (Nat.pow_le_pow_right Nat.two_pos (by omega))
    · intro hj
      by_contra hc
      have := Nat.pow_le_pow_right Nat.two_pos (Nat.not_le.1 hc)
      omega
  exact if_congr (hiff 8) rfl (if_congr (hiff 24) rfl rfl)

theorem sgBignumExpt_represents (hb : 0 < b.size) (hs : b.sign = 1) (h2 : 2 ≤ n)
    (hlt : n < 2 ^ 63) : (sgBignumExpt g b n).Represents ((b.mag : ℤ) ^ exptExponent n) := by
  have hsign : ¬ b.sign = 0 := by
    rw [hs]
    decide
  rw [sgBignumExpt, if_neg hsign, if_neg (by omega), if_neg (by omega),
    bignumExpt_cases g b (by omega) hlt, exptExponent]
  have hk : 0 < 64 - bfffo (BitVec.ofNat 64 n) := by
    have := (bfffo_split (show 0 < n by omega) hlt).1
    omega
  have hsw : ∀ e (he : 0 < e), e = 2 ∨ e = 3 → ¬ n < 512 →
      (sgNormalizeBignum (slidingWindowExpt g b n e he)).Represents
        ((b.mag : ℤ) ^ swExponent n e (64 - bfffo (BitVec.ofNat 64 n)) he 0) := by
    intro e he he' h9
    obtain ⟨hsize, hholds⟩ := swRun_spec g hb hs he he' (Nat.not_lt.1 h9) hlt
    rw [slidingWindowExpt]
    rw [hsize]
    exact hholds.result_represents hb (swExponent_pos _ _ _ _ (.inr hk))
  split_ifs with h9 h25
  · exact (lrRun_spec g hb hs (by omega) hlt).2.result_represents hb (by omega)
  · exact hsw 2 _ (.inl rfl) h9
  · exact hsw 3 _ (.inr rfl) h9

/-- The exponent is right for single bits, and for windows of two bits if no window takes a bit
twice. -/
theorem exptExponent_eq_iff (h0 : 0 < n) (hlt : n < 2 ^ 63) :
    exptExponent n = n ↔
      n < 512 ∨ n < 2 ^ 25 ∧ ¬ (trailingOnes n % 2 = 1 ∧ 3 ≤ trailingOnes n) := by
  obtain ⟨h63, -, hhigh, hone⟩ := bfffo_split h0 hlt
  rw [exptExponent]
  obtain ⟨k, hk⟩ : ∃ k, 64 - bfffo (BitVec.ofNat 64 n) = k := ⟨_, rfl⟩
  rw [show 63 - bfffo (BitVec.ofNat 64 n) = k - 1 by omega] at hone
  rw [hk] at hhigh ⊢
  have hbit : 0 < k → n.testBit (k - 1) = true := fun _ => by
    rw [Nat.testBit_eq_decide_div_mod_eq, hone]
    rfl
  by_cases h9 : n < 512
  · rw [if_pos h9]
    exact iff_of_true rfl (.inl h9)
  · rw [if_neg h9]
    by_cases h25 : n < 2 ^ 25
    · rw [if_pos h25]
      obtain ⟨hones, hzero⟩ := trailingOnes_spec n
      have htk : ¬ k < trailingOnes n := fun hc => by
        have := hones k hc
        rw [Nat.testBit_lt_two_pow hhigh] at this
        exact absurd this (by decide)
      have h := swExponent_two hones hzero 2 k (by decide) rfl hbit (by omega)
      rw [Nat.div_eq_of_lt hhigh] at h
      rw [h]
      split_ifs with hodd <;> omega
    · rw [if_neg h25]
      have hk3 : 3 ≤ k := by
        by_contra hc
        have := Nat.pow_le_pow_right Nat.two_pos (show k ≤ 2 by omega)
        omega
      exact iff_of_false (swExponent_three 3 k _ rfl hbit (.inl hk3)) (by omega)

/-- **Powers of bignums.** The size of the result is always computed right. The power is right for
exponents below 512 (one bit at a time); with windows of two bits it is right unless the exponent
ends with an odd number of ones, at least three; with windows of three bits it never is. -/
theorem sgBignumExpt_iff (g : Junk) (b : Bignum) (hs : b.sign = 1) (hmag : 0 < b.mag) (n : ℕ)
    (h2 : 2 ≤ n) (hlt : n < 2 ^ 63) :
    ((lrRun g b n).1 = (lrRun g b n).2.len ∧
      (512 ≤ n → (swRun g b n 2 Nat.two_pos).1 = (swRun g b n 2 Nat.two_pos).2.len)) ∧
    ((sgBignumExpt g b n).Represents (b.toInt ^ n) ↔
      b.mag = 1 ∨ n < 512 ∨
        n < 2 ^ 25 ∧ ¬ (trailingOnes n % 2 = 1 ∧ 3 ≤ trailingOnes n)) := by
  have hb : 0 < b.size := Nat.pos_of_ne_zero fun h => by
    rw [Bignum.mag, h] at hmag
    exact absurd hmag (Nat.lt_irrefl 0)
  refine ⟨⟨(lrRun_spec g hb hs (by omega) hlt).1,
    fun h9 => (swRun_spec g hb hs _ (.inl rfl) h9 hlt).1⟩, ?_⟩
  have hspec := sgBignumExpt_represents g hb hs h2 hlt
  rw [← exptExponent_eq_iff (by omega) hlt, Bignum.toInt_of_pos hs]
  constructor
  · intro h
    have heq : b.mag ^ exptExponent n = b.mag ^ n := by
      exact_mod_cast hspec.2.symm.trans h.2
    rcases Nat.eq_or_lt_of_le (Nat.succ_le_of_lt hmag) with h1 | h1
    · exact .inl h1.symm
    · exact .inr (Nat.pow_right_injective h1 heq)
  · rintro (h1 | heq)
    · rw [h1, Nat.cast_one, one_pow] at hspec ⊢
      exact hspec
    · rwa [heq] at hspec

theorem sgBignumExpt_iff_thousand :
    (sgBignumExpt (fun _ _ => 0) ⟨1, 2, fun _ => 1⟩ 1000).Represents ((2 ^ 64 + 1) ^ 1000) := by
  have hval : (⟨1, 2, fun _ => 1⟩ : Bignum).toInt = 2 ^ 64 + 1 := by decide
  refine (sgBignumExpt_iff _ _ rfl (by decide) 1000 (by decide) (by decide)).2.2 ?_
  refine .inr (.inr ⟨by decide, by rw [trailingOnes]; decide⟩)

/-- The exponent 519 ends with three ones; the power is the one of 521. -/
theorem sgBignumExpt_seven_at_end :
    let b : Bignum := ⟨1, 2, fun _ => 1⟩
    (sgBignumExpt (fun _ _ => 0) b 519).Represents ((2 ^ 64 + 1) ^ 521) ∧
      ¬ (sgBignumExpt (fun _ _ => 0) b 519).Represents ((2 ^ 64 + 1) ^ 519) := by
  intro b
  have hexp : exptExponent 519 = 521 := by decide +kernel
  have hval : b.mag = 2 ^ 64 + 1 := by decide
  have hspec := sgBignumExpt_represents (fun _ _ => 0) (b := b) (by decide) rfl (n := 519)
    (by decide) (by decide)
  rw [hexp, hval] at hspec
  have hspec' : (sgBignumExpt (fun _ _ => 0) b 519).Represents ((2 ^ 64 + 1) ^ 521) := by
    exact_mod_cast hspec
  refine ⟨hspec', fun h => ?_⟩
  have heq : ((2 : ℤ) ^ 64 + 1) ^ 521 = (2 ^ 64 + 1) ^ 519 := hspec'.2.symm.trans h.2
  exact absurd (pow_right_injective₀ (by norm_num) (by norm_num) heq) (by decide)

end Sagittarius
