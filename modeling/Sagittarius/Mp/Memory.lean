import Sagittarius.Library.Digits
import Mathlib.Logic.Function.Basic

/-!
# Words, buffers and recorded accesses

The functions of `bignum.inc` work on arrays of `ulong` given by a pointer and a length.  The
model keeps that interface:

* `Word` and `DWord` are the C types `ulong` and `udlong` (64 and 128 bits, wrapping);
* `Ptr` is a pointer into an object: the words of memory from the pointer on, and how many of
  them still belong to the object.  Memory goes on behind the object, so an access past its end
  hits whatever lies there;
* `Acc` is a computation together with the record whether every index it read or wrote lay
  inside the object it addressed.  The value of a computation never depends on that record;
* `Src` is the first operand of a word loop, which several callers alias with the destination
  (`mp_add(rp, rsize, rp, …)`): an aliased operand is read from the destination as it is at that
  moment;
* `Junk` is what temporary buffers hold that are allocated without being cleared, and what lies
  behind them.

Lengths are natural numbers: allocation is taken to succeed, and the arithmetic on lengths,
which the source does in `int` and `uint`, is taken not to overflow.

`wval m i k` is the number held by the `k` words of `m` from index `i` on.

Here and in all modules definitions have the source's names, in camel case; a docstring gives a
name where it is another.
-/

namespace Sagittarius

open Digits Function

/-- `ulong`: a machine word. -/
abbrev Word := BitVec 64

/-- `udlong`: a double word. -/
abbrev DWord := BitVec 128

/-- Memory from some address on. -/
abbrev Mem := ℕ → Word

/-- `2 ^ WORD_BITS`, the base of the word arrays. -/
def radix : ℕ := 2 ^ 64

theorem radix_eq : radix = 2 ^ 64 := rfl

theorem radix_pos : 0 < radix := by simp [radix]

theorem one_lt_radix : 1 < radix := by simp [radix]

theorem toNat_lt_radix (w : Word) : w.toNat < radix := w.isLt

theorem radix_pow_pos (k : ℕ) : 0 < radix ^ k := Nat.pow_pos radix_pos

/-! ### Double words -/

/-- `(udlong)w`: a word, extended. -/
def udlong (w : Word) : DWord := w.setWidth 128

/-- `(ulong)t`: the lower word. -/
def lowWord (t : DWord) : Word := t.setWidth 64

/-- `(ulong)(t >> WORD_BITS)`: the upper word. -/
def highWord (t : DWord) : Word := (t >>> 64).setWidth 64

@[simp] theorem toNat_udlong (w : Word) : (udlong w).toNat = w.toNat := by
  simp only [udlong, BitVec.toNat_setWidth]
  omega

variable (t : DWord)

@[simp] theorem toNat_lowWord : (lowWord t).toNat = t.toNat % radix := by
  simp [lowWord, radix]

@[simp] theorem toNat_highWord : (highWord t).toNat = t.toNat / radix := by
  simp only [highWord, BitVec.toNat_setWidth, BitVec.toNat_ushiftRight,
    Nat.shiftRight_eq_div_pow, radix]
  omega

theorem add_highWord_zero : t + udlong (highWord 0) = t :=
  BitVec.add_zero t

theorem lowWord_add_highWord : (lowWord t).toNat + radix * (highWord t).toNat = t.toNat := by
  rw [toNat_lowWord, toNat_highWord, Nat.mod_add_div]

/-! ### Numbers held by words -/

/-- The number held by the `k` words of `m` from index `i` on. -/
def wval (m : Mem) (i k : ℕ) : ℕ := seg radix (fun j => (m j).toNat) i k

theorem wval_succ (m : Mem) (i k : ℕ) :
    wval m i (k + 1) = (m i).toNat + radix * wval m (i + 1) k := rfl

@[simp] theorem wval_zero (m : Mem) (i : ℕ) : wval m i 0 = 0 := rfl

@[simp] theorem wval_one (m : Mem) (i : ℕ) : wval m i 1 = (m i).toNat := by simp [wval]

theorem wval_append (m : Mem) (i j k : ℕ) :
    wval m i (j + k) = wval m i j + radix ^ j * wval m (i + j) k := seg_append i j k

theorem wval_top (m : Mem) (i k : ℕ) :
    wval m i (k + 1) = wval m i k + radix ^ k * (m (i + k)).toNat := seg_top i k

theorem wval_lt (m : Mem) (i k : ℕ) : wval m i k < radix ^ k :=
  seg_lt (fun _ => toNat_lt_radix _) i k

theorem wval_congr {m p : Mem} {i k : ℕ} (h : ∀ j, i ≤ j → j < i + k → m j = p j) :
    wval m i k = wval p i k :=
  seg_congr fun j h1 h2 => by rw [h j h1 h2]

theorem wval_shift (m : Mem) (n i k : ℕ) :
    wval (fun j => m (n + j)) i k = wval m (n + i) k :=
  seg_shift (d := fun j => (m j).toNat) n i k

theorem wval_eq_zero {m : Mem} {i k : ℕ} (h : ∀ j, i ≤ j → j < i + k → m j = 0) :
    wval m i k = 0 :=
  seg_eq_zero fun j h1 h2 => by rw [h j h1 h2]; rfl

theorem wval_inj {m m' : Mem} {i k : ℕ} (h : wval m i k = wval m' i k) :
    ∀ j, i ≤ j → j < i + k → m j = m' j := fun j h1 h2 =>
  BitVec.eq_of_toNat_eq
    (seg_inj (fun _ => toNat_lt_radix _) (fun _ => toNat_lt_radix _) h j h1 h2)

theorem wval_mod (m : Mem) (i j k : ℕ) : wval m i (j + k) % radix ^ j = wval m i j :=
  seg_mod (fun _ => toNat_lt_radix _) i j k

theorem wval_div (m : Mem) (i j k : ℕ) : wval m i (j + k) / radix ^ j = wval m (i + j) k :=
  seg_div radix_pos (fun _ => toNat_lt_radix _) i j k

/-- Memory `m'` is `m` except possibly for the `k` words from index `i` on. -/
def SameOutside (m m' : Mem) (i k : ℕ) : Prop := ∀ j, j < i ∨ i + k ≤ j → m' j = m j

theorem SameOutside.refl (m : Mem) (i k : ℕ) : SameOutside m m i k := fun _ _ => rfl

section

variable {m m' : Mem} {i k : ℕ} (h : SameOutside m m' i k)

include h

theorem SameOutside.trans {m'' : Mem} (h' : SameOutside m' m'' i k) : SameOutside m m'' i k :=
  fun j hj => (h' j hj).trans (h j hj)

theorem SameOutside.mono {i' k' : ℕ} (h1 : i' ≤ i) (h2 : i + k ≤ i' + k') :
    SameOutside m m' i' k' :=
  fun j hj => h j (by omega)

theorem SameOutside.update {n : ℕ} {v : Word} (h1 : i ≤ n) (h2 : n < i + k) :
    SameOutside m (update m' n v) i k := fun j hj => by
  rw [update_of_ne (by omega), h j hj]

theorem SameOutside.wval_eq {p n : ℕ} (hd : p + n ≤ i ∨ i + k ≤ p) : wval m' p n = wval m p n :=
  wval_congr fun j h1 h2 => h j (by omega)

theorem SameOutside.wval_frame {p n b : ℕ} (hi : i = p + n) :
    wval m' p (n + (k + b)) + radix ^ n * wval m i k =
      wval m p (n + (k + b)) + radix ^ n * wval m' i k := by
  subst hi
  rw [wval_append, wval_append m', wval_append m, wval_append m, h.wval_eq (.inl le_rfl),
    h.wval_eq (.inr le_rfl)]
  ring

end

/-! ### Computations and their accesses -/

/-- A computation, and whether every access it made was inside the object it addressed. -/
structure Acc (α : Type) where
  val : α
  /-- No access was outside its object. -/
  inBounds : Bool

namespace Acc

instance : Monad Acc where
  pure a := ⟨a, true⟩
  bind x f := ⟨(f x.val).val, x.inBounds && (f x.val).inBounds⟩

variable {α β : Type}

@[simp] theorem val_pure (a : α) : (pure a : Acc α).val = a := rfl

variable (x : Acc α)

@[simp] theorem val_bind (f : α → Acc β) : (x >>= f).val = (f x.val).val := rfl

@[simp] theorem inBounds_pure (a : α) : (pure a : Acc α).inBounds = true := rfl

@[simp] theorem inBounds_bind (f : α → Acc β) :
    (x >>= f).inBounds = true ↔ x.inBounds = true ∧ (f x.val).inBounds = true :=
  Bool.and_eq_true_iff

/-- A computation whose result carries the proof that it is the result. -/
def attach (x : Acc α) : Acc { a // a = x.val } := ⟨⟨x.val, rfl⟩, x.inBounds⟩

@[simp] theorem val_attach : x.attach.val = ⟨x.val, rfl⟩ := rfl

@[simp] theorem inBounds_attach : x.attach.inBounds = x.inBounds := rfl

theorem val_ite {c : Prop} [Decidable c] (y : Acc α) :
    (if c then x else y).val = if c then x.val else y.val := by split_ifs <;> rfl

theorem inBounds_ite {c : Prop} [Decidable c] (y : Acc α) :
    (if c then x else y).inBounds = true ↔ if c then x.inBounds = true else y.inBounds = true := by
  split_ifs <;> rfl

end Acc

/-! ### Pointers -/

/-- A pointer into an object. -/
structure Ptr where
  /-- The words of memory from the pointer on. -/
  mem : Mem
  /-- How many of them belong to the object. -/
  size : ℕ

namespace Ptr

/-- `p[i]`: reads a word. -/
def rd (p : Ptr) (i : ℕ) : Acc Word := ⟨p.mem i, decide (i < p.size)⟩

/-- `p[i] = v`: writes a word. -/
def wr (p : Ptr) (i : ℕ) (v : Word) : Acc Ptr :=
  ⟨{ p with mem := update p.mem i v }, decide (i < p.size)⟩

/-- `p + n`: the memory behind `n` words. -/
def off (p : Ptr) (n : ℕ) : Ptr := ⟨fun i => p.mem (n + i), p.size - n⟩

/-- The object seen from `p` after a function that was handed `p + n` left it as `q`. -/
def putBack (p : Ptr) (n : ℕ) (q : Ptr) : Ptr :=
  ⟨fun i => if i < n then p.mem i else q.mem (i - n), p.size⟩

variable (p q : Ptr) (i n : ℕ) (v : Word)

@[simp] theorem rd_val : (p.rd i).val = p.mem i := rfl
@[simp] theorem rd_inBounds : (p.rd i).inBounds = true ↔ i < p.size := decide_eq_true_iff
@[simp] theorem wr_mem : (p.wr i v).val.mem = update p.mem i v := rfl
@[simp] theorem wr_size : (p.wr i v).val.size = p.size := rfl
@[simp] theorem wr_inBounds : (p.wr i v).inBounds = true ↔ i < p.size := decide_eq_true_iff
@[simp] theorem off_mem : (p.off n).mem i = p.mem (n + i) := rfl
@[simp] theorem off_size : (p.off n).size = p.size - n := rfl
@[simp] theorem putBack_size : (p.putBack n q).size = p.size := rfl

theorem putBack_mem_lt (h : i < n) : (p.putBack n q).mem i = p.mem i := by
  simp [putBack, h]

@[simp] theorem putBack_mem_add : (p.putBack n q).mem (n + i) = q.mem i := by
  simp [putBack]

theorem wval_off (k : ℕ) : wval (p.off n).mem 0 k = wval p.mem n k := wval_shift p.mem n 0 k

theorem wval_putBack (k : ℕ) : wval (p.putBack n q).mem n k = wval q.mem 0 k := by
  rw [← wval_off]
  exact wval_congr fun j _ _ => by simp

theorem wval_putBack_lt {k : ℕ} (h : i + k ≤ n) :
    wval (p.putBack n q).mem i k = wval p.mem i k :=
  wval_congr fun j _ h2 => putBack_mem_lt p q j n (by omega)

theorem sameOutside_putBack {p q : Ptr} {n k : ℕ} (h : SameOutside (p.off n).mem q.mem 0 k) :
    SameOutside p.mem (p.putBack n q).mem n k := fun j hj => by
  by_cases hjn : j < n
  · exact putBack_mem_lt p q j n hjn
  · obtain ⟨l, rfl⟩ : ∃ l, j = n + l := ⟨j - n, by omega⟩
    rw [putBack_mem_add, h l (by omega), off_mem]

end Ptr

/-! ### Aliased operands -/

/-- The first operand of a word loop: the destination itself, or another buffer. -/
inductive Src where
  /-- The operand is the destination. -/
  | self
  /-- The operand is another buffer. -/
  | ptr (p : Ptr)

namespace Src

/-- `xp[i]`, where the destination is `rp` at that moment. -/
def rd : Src → Ptr → ℕ → Acc Word
  | self, rp, i => rp.rd i
  | ptr p, _, i => p.rd i

/-- The words of the operand. -/
def mem : Src → Ptr → Mem
  | self, rp => rp.mem
  | ptr p, _ => p.mem

/-- How many words belong to the operand's object. -/
def size : Src → Ptr → ℕ
  | self, rp => rp.size
  | ptr p, _ => p.size

variable (x : Src) (rp : Ptr)

@[simp] theorem rd_val (i : ℕ) : (x.rd rp i).val = x.mem rp i := by
  cases x <;> rfl

@[simp] theorem rd_inBounds (i : ℕ) :
    (x.rd rp i).inBounds = true ↔ i < x.size rp := by
  cases x <;> exact decide_eq_true_iff

@[simp] theorem mem_self : self.mem rp = rp.mem := rfl
@[simp] theorem mem_ptr (p rp : Ptr) : (ptr p).mem rp = p.mem := rfl
@[simp] theorem size_self : self.size rp = rp.size := rfl
@[simp] theorem size_ptr (p rp : Ptr) : (ptr p).size rp = p.size := rfl

theorem mem_wr {i j : ℕ} (v : Word) (h : j ≠ i) : x.mem (rp.wr i v).val j = x.mem rp j := by
  cases x with
  | self => simp [update_of_ne h]
  | ptr p => rfl

@[simp] theorem size_wr (i : ℕ) (v : Word) :
    x.size (rp.wr i v).val = x.size rp := by
  cases x <;> rfl

end Src

/-! ### Temporary buffers -/

/-- The memory in which a call finds its temporary buffers.  The path says which recursive call
of the call allocates. -/
abbrev Junk := List ℕ → ℕ → Word

namespace Junk

/-- The contents for the recursive call number `k`. -/
def sub (g : Junk) (k : ℕ) : Junk := fun path => g (k :: path)

/-- A fresh buffer of `n` words with arbitrary contents. -/
def buf (g : Junk) (k n : ℕ) : Ptr := ⟨g [k], n⟩

/-- A fresh buffer of `n` words that has been cleared. -/
def zeros (g : Junk) (k n : ℕ) : Ptr := ⟨fun i => if i < n then 0 else g [k] i, n⟩

@[simp] theorem buf_size (g : Junk) (k n : ℕ) : (g.buf k n).size = n := rfl
@[simp] theorem zeros_size (g : Junk) (k n : ℕ) : (g.zeros k n).size = n := rfl

theorem zeros_mem (g : Junk) (k : ℕ) {n i : ℕ} (h : i < n) : (g.zeros k n).mem i = 0 := if_pos h

end Junk

/-! ### Word loops -/

/-- **The rule for a loop that writes words upwards**: the word at an index comes from the words of
the operand from there on, which it has not written over. -/
theorem writes_up (src : Src) {L : ℕ → ℕ → Ptr → Ptr} (w : ℕ → Mem → Word)
    (hzero : ∀ i rp, L 0 i rp = rp)
    (hsucc : ∀ k i rp, L (k + 1) i rp = L k (i + 1) (rp.wr i (w i (src.mem rp))).val)
    (hw : ∀ i X Y, (∀ j, i ≤ j → X j = Y j) → w i X = w i Y) (k i : ℕ) (rp : Ptr) :
    SameOutside rp.mem (L k i rp).mem i k ∧
      (∀ j, i + k ≤ j → src.mem (L k i rp) j = src.mem rp j) ∧
      ∀ j, i ≤ j → j < i + k → (L k i rp).mem j = w j (src.mem rp) := by
  induction k generalizing i rp with
  | zero => exact ⟨by simp [hzero, SameOutside], by simp [hzero], by omega⟩
  | succ k ih =>
    obtain ⟨hout, hsrc, hval⟩ := ih (i + 1) (rp.wr i (w i (src.mem rp))).val
    rw [hsucc]
    have hrest : ∀ j, i + 1 ≤ j → src.mem (rp.wr i (w i (src.mem rp))).val j = src.mem rp j :=
      fun j hj => src.mem_wr rp _ (by omega)
    refine ⟨fun j hj => ?_, fun j hj => ?_, fun j h1 h2 => ?_⟩
    · rw [hout j (by omega), Ptr.wr_mem, update_of_ne (by omega)]
    · rw [hsrc j (by omega), hrest j (by omega)]
    · rcases Nat.eq_or_lt_of_le h1 with rfl | h1
      · rw [hout i (by omega), Ptr.wr_mem, update_self]
      · rw [hval j h1 (by omega), hw j _ _ fun l hl => hrest l (by omega)]

section

variable {σ τ : Type} {src : Src} {L : ℕ → ℕ → Ptr → σ → Ptr × σ} {f : ℕ → Word → σ → τ}
  {out : τ → Word} {next : τ → σ}

/-- A loop that writes the words from an index on: `f` finds what to write and the next state from
the index, the word of the operand there and the state. -/
structure WordLoop (src : Src) (L : ℕ → ℕ → Ptr → σ → Ptr × σ) (f : ℕ → Word → σ → τ)
    (out : τ → Word) (next : τ → σ) : Prop where
  zero : ∀ i rp s, L 0 i rp s = (rp, s)
  succ : ∀ k i rp s, L (k + 1) i rp s =
    L k (i + 1) (rp.wr i (out (f i (src.mem rp i) s))).val (next (f i (src.mem rp i) s))

/-- **The rule for a word loop**: if every round adds the digit of `A` and takes away that of `B`,
with a carry `U` and a borrow `D`, then so does the loop with the numbers. -/
theorem WordLoop.spec (hL : WordLoop src L f out next) {X : Mem} {Q : σ → Prop} {U D : σ → ℕ}
    {A B : ℕ → ℕ} (hf : ∀ i s, Q s → Q (next (f i (X i) s)) ∧
      (out (f i (X i) s)).toNat + B i + radix * U (next (f i (X i) s)) + D s =
        A i + U s + radix * D (next (f i (X i) s)))
    (k i : ℕ) (rp : Ptr) (s : σ) (hX : ∀ j, i ≤ j → src.mem rp j = X j) (hs : Q s) :
    SameOutside rp.mem (L k i rp s).1.mem i k ∧ Q (L k i rp s).2 ∧
      wval (L k i rp s).1.mem i k + seg radix B i k + radix ^ k * U (L k i rp s).2 + D s =
        seg radix A i k + U s + radix ^ k * D (L k i rp s).2 := by
  induction k generalizing i rp s with
  | zero => simp [hL.zero, hs, SameOutside]
  | succ k ih =>
    rw [hL.succ, hX i le_rfl]
    obtain ⟨hs', hround⟩ := hf i s hs
    set u := f i (X i) s
    obtain ⟨hout, hQ, hval⟩ := ih (i + 1) (rp.wr i (out u)).val (next u)
      (fun j hj => by rw [src.mem_wr rp _ (by omega)]; exact hX j (by omega)) hs'
    refine ⟨fun j hj => ?_, hQ, ?_⟩
    · rw [hout j (by omega), Ptr.wr_mem, update_of_ne (by omega)]
    · rw [wval_succ, seg_succ, seg_succ, hout i (by omega), Ptr.wr_mem, update_self]
      have hrest := congrArg (radix * ·) hval
      simp only [Nat.mul_add, ← Nat.mul_assoc, ← pow_succ'] at hrest ⊢
      omega

end

/-- The rule for a loop that keeps a double word with the word to write and the carry. -/
theorem WordLoop.sum {src : Src} {L : ℕ → ℕ → Ptr → DWord → Ptr × DWord}
    {f : ℕ → Word → DWord → DWord} (hL : WordLoop src L f lowWord id) {X : Mem} {Q : DWord → Prop}
    {A : ℕ → ℕ} (hf : ∀ i t, Q t → Q (f i (X i) t) ∧
      (f i (X i) t).toNat = A i + (highWord t).toNat)
    (k i : ℕ) (rp : Ptr) (t : DWord) (hX : ∀ j, i ≤ j → src.mem rp j = X j) (ht : Q t) :
    SameOutside rp.mem (L k i rp t).1.mem i k ∧ Q (L k i rp t).2 ∧
      wval (L k i rp t).1.mem i k + radix ^ k * (highWord (L k i rp t).2).toNat =
        seg radix A i k + (highWord t).toNat := by
  have h := hL.spec (U := fun t => (highWord t).toNat) (D := 0) (B := 0) (fun i t ht => by
    obtain ⟨hQ, hval⟩ := hf i t ht
    exact ⟨hQ, by simpa [hval] using lowWord_add_highWord (f i (X i) t)⟩) k i rp t hX ht
  simpa [seg_eq_zero] using h

end Sagittarius
