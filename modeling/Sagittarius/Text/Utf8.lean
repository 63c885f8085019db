import Mathlib.Data.List.Basic
import Mathlib.Order.Lattice
import Mathlib.Algebra.GroupWithZero.Nat

/-!
# UTF-8

The encoder and the decoder of `unicode.c`.  The decoder is a macro over a function that reads a
byte or takes the last one back, so it is modelled over an arbitrary `ByteReader`.

* `sgConvertUcs4ToUtf8`, `utf8Reader`, `sgConvertUtf8BufferToUcs4` : the source;
* `utf8Attempt_of_encoded`, `encoded_of_utf8Attempt` : what one attempt to read a character does;
* `utf8_exact` : decoding and encoding are inverse to each other, and decoding raises an error
  exactly for ill-formed buffers;
* `utf8_progress_iff` : when decoding consumes a byte for every character.

What UTF-8 is supposed to be is `String.utf8EncodeChar` of the standard library.
-/

namespace Sagittarius.Text

open List Nat Option
open String (utf8EncodeChar)

/-- A code point. -/
abbrev SgChar := ℕ

/-- What to do with bad input. -/
inductive ErrorHandlingMode
  | raise
  | replace
  | ignore
deriving DecidableEq

/-! ### The encoder -/

/-- `Sg_ConvertUcs4ToUtf8`; `none` is `SG_IO_ENCODE_ERROR`. -/
def sgConvertUcs4ToUtf8 (ucs4 : ℕ) (mode : ErrorHandlingMode) : Option (List UInt8) :=
  if ucs4 < 0x80 then some [.ofNat ucs4]
  else if ucs4 < 0x800 then
    some [.ofNat ((ucs4 >>> 6) &&& 0x1f ||| 0xc0), .ofNat (ucs4 &&& 0x3f ||| 0x80)]
  else if ucs4 < 0x10000 then
    some [.ofNat ((ucs4 >>> 12) &&& 0x0f ||| 0xe0), .ofNat ((ucs4 >>> 6) &&& 0x3f ||| 0x80),
      .ofNat (ucs4 &&& 0x3f ||| 0x80)]
  else if ucs4 < 0x200000 then
    some [.ofNat ((ucs4 >>> 18) &&& 0x07 ||| 0xf0), .ofNat ((ucs4 >>> 12) &&& 0x3f ||| 0x80),
      .ofNat ((ucs4 >>> 6) &&& 0x3f ||| 0x80), .ofNat (ucs4 &&& 0x3f ||| 0x80)]
  else
    match mode with
    | .raise => none
    | .replace => some [0xff, 0xfd]
    | .ignore => some []

/-! ### The decoder -/

/-- The `u8reader` of the macros: it reads a byte (`none` is `EOF`) or takes one back. -/
structure ByteReader (σ : Type) where
  /-- `u8reader(data, TRUE)` -/
  get : σ → Option UInt8 × σ
  /-- `u8reader(data, FALSE)` -/
  unget : σ → σ

/-- A continuation byte. -/
def isUtf8Tail (b : UInt8) : Bool := 0x80 ≤ b && b ≤ 0xbf

/-- A byte that was read, converted to `uint8_t`. -/
def asByte (b : Option UInt8) : UInt8 := b.getD 0xff

/-- A byte that was read, as an `int` between two bounds. -/
def within (lo hi : UInt8) (b : Option UInt8) : Bool := b.any fun b => lo ≤ b && b ≤ hi

/-- What one attempt to read a character comes to. -/
inductive Attempt (σ : Type)
  | eof (s : σ)
  | char (c : SgChar) (s : σ)
  /-- `decodeError` -/
  | invalid (s : σ)

section

variable {σ τ : Type} (R : ByteReader σ)

/-- Take a byte back, if there was one. -/
def ByteReader.ungetIf (b : Option UInt8) (s : σ) : σ := if b.isSome then R.unget s else s

/-- The body of `utf8_reader` -/
def utf8Attempt (s : σ) : Attempt σ :=
  match R.get s with
  | (none, s) => .eof s
  | (some first, s) =>
    if first < 0x80 then .char first.toNat s
    else if 0xc2 ≤ first && first ≤ 0xdf then
      let (second, s) := R.get s
      if isUtf8Tail (asByte second) then
        .char ((first.toNat &&& 0x1f) <<< 6 ||| (asByte second).toNat &&& 0x3f) s
      else .invalid (R.unget s)
    else if 0xe0 ≤ first && first ≤ 0xef then
      let (second, s) := R.get s
      let (third, s) := R.get s
      if isUtf8Tail (asByte third) &&
          (0xe0 == first && within 0xa0 0xbf second || 0xed == first && within 0x80 0x9f second ||
            0xe1 ≤ first && first ≤ 0xec && isUtf8Tail (asByte second) ||
            (0xee == first || 0xef == first) && isUtf8Tail (asByte second)) then
        .char ((first.toNat &&& 0xf) <<< 12 ||| ((asByte second).toNat &&& 0x3f) <<< 6 |||
          (asByte third).toNat &&& 0x3f) s
      else .invalid (R.ungetIf third (R.ungetIf second s))
    else if 0xf0 ≤ first && first ≤ 0xf4 then
      let (second, s) := R.get s
      let (third, s) := R.get s
      let (fourth, s) := R.get s
      if isUtf8Tail (asByte third) && isUtf8Tail (asByte fourth) &&
          (0xf0 == first && within 0x90 0xbf second || 0xf4 == first && within 0x80 0x8f second ||
            0xf1 ≤ first && first ≤ 0xf3 && isUtf8Tail (asByte second)) then
        .char ((first.toNat &&& 0x7) <<< 18 ||| ((asByte second).toNat &&& 0x3f) <<< 12 |||
          ((asByte third).toNat &&& 0x3f) <<< 6 ||| (asByte fourth).toNat &&& 0x3f) s
      else .invalid (R.ungetIf fourth (R.ungetIf third (R.ungetIf second s)))
    else .invalid s

/-- What `utf8_reader` returns. -/
inductive Read
  | eof
  | char (c : SgChar)
  /-- `SG_IO_DECODE_ERROR` is raised -/
  | raised
deriving DecidableEq

/-- `decodeError`, where `retry` is what happens from the label on. -/
def decodeError (mode : ErrorHandlingMode) (s : τ) (retry : Option (Read × τ)) :
    Option (Read × τ) :=
  match mode with
  | .raise => some (.raised, s)
  | .replace => some (.char 0xFFFD, s)
  | .ignore => retry

/-- `utf8_reader`; when errors are ignored it tries again, `n` times at most. -/
def utf8Reader (mode : ErrorHandlingMode) : ℕ → σ → Option (Read × σ)
  | 0, _ => none
  | n + 1, s =>
    match utf8Attempt R s with
    | .eof s => some (.eof, s)
    | .char c s => some (.char c, s)
    | .invalid s => decodeError mode s (utf8Reader mode n s)

/-- The loop of `DEFINE_BUFFER_CONVERTOR`, for `size` characters at most: the characters written,
or `none` if an error was raised, and the reader afterwards. -/
def bufferConvertor (charReader : τ → Option (Read × τ)) :
    ℕ → τ → Option (Option (List SgChar) × τ)
  | 0, s => some (some [], s)
  | size + 1, s =>
    match charReader s with
    | none => none
    | some (.eof, s) => some (some [], s)
    | some (.raised, s) => some (none, s)
    | some (.char c, s) =>
      (bufferConvertor charReader size s).map fun r => (r.1.map (c :: ·), r.2)

end

/-- `buffer_u8_reader` without a port; the state is `pos`. -/
def bufferU8Reader (buf : List UInt8) : ByteReader ℕ where
  get pos := if pos < buf.length then (buf[pos]?, pos + 1) else (none, pos)
  unget pos := pos - 1

/-- `Sg_ConvertUtf8BufferToUcs4` without a port -/
def sgConvertUtf8BufferToUcs4 (u8buf : List UInt8) (size : ℕ) (mode : ErrorHandlingMode) (n : ℕ) :
    Option (Option (List SgChar) × ℕ) :=
  bufferConvertor (utf8Reader (bufferU8Reader u8buf) mode n) size 0

/-! ### Bits and numbers -/

theorem mask_or {i m t : ℕ} (a x : ℕ) (hm : m = 2 ^ i - 1) (ht : t = a <<< i) :
    x &&& m ||| t = x % 2 ^ i + t := by
  rw [hm, ht, and_two_pow_sub_one_eq_mod, Nat.or_comm, Nat.add_comm]
  exact (shiftLeft_add_eq_or_of_lt (mod_lt x (Nat.two_pow_pos i)) a).symm

theorem shift_or {i b : ℕ} (a : ℕ) (h : b < 2 ^ i) : a <<< i ||| b = a * 2 ^ i + b := by
  rw [← shiftLeft_add_eq_or_of_lt h, shiftLeft_eq]

theorem mask_0x3f (x : ℕ) : x &&& 0x3f = x % 64 := and_two_pow_sub_one_eq_mod x 6

theorem join_two (a b : ℕ) : (a &&& 0x1f) <<< 6 ||| b &&& 0x3f = a % 32 * 64 + b % 64 := by
  rw [show a &&& 0x1f = a % 32 from and_two_pow_sub_one_eq_mod a 5, mask_0x3f]
  exact shift_or _ (mod_lt b (by decide))

theorem join_three (a b c : ℕ) :
    (a &&& 0xf) <<< 12 ||| (b &&& 0x3f) <<< 6 ||| c &&& 0x3f =
      a % 16 * 4096 + b % 64 * 64 + c % 64 := by
  have hc : c % 64 < 2 ^ 6 := mod_lt c (by decide)
  have hb : b % 64 * 2 ^ 6 + c % 64 < 2 ^ 12 := by omega
  rw [show a &&& 0xf = a % 16 from and_two_pow_sub_one_eq_mod a 4, mask_0x3f, mask_0x3f,
    Nat.or_assoc, shift_or _ hc, shift_or _ hb]
  omega

theorem join_four (a b c d : ℕ) :
    (a &&& 0x7) <<< 18 ||| (b &&& 0x3f) <<< 12 ||| (c &&& 0x3f) <<< 6 ||| d &&& 0x3f =
      a % 8 * 262144 + b % 64 * 4096 + c % 64 * 64 + d % 64 := by
  have hd : d % 64 < 2 ^ 6 := mod_lt d (by decide)
  have hc : c % 64 * 2 ^ 6 + d % 64 < 2 ^ 12 := by omega
  have hb : b % 64 * 2 ^ 12 + (c % 64 * 2 ^ 6 + d % 64) < 2 ^ 18 := by omega
  rw [show a &&& 0x7 = a % 8 from and_two_pow_sub_one_eq_mod a 3, mask_0x3f, mask_0x3f,
    mask_0x3f, Nat.or_assoc, Nat.or_assoc, shift_or _ hd, shift_or _ hc, shift_or _ hb]
  omega

/-! ### The encoder is that of the standard -/

theorem sgConvertUcs4ToUtf8_char (c : Char) (mode : ErrorHandlingMode) :
    sgConvertUcs4ToUtf8 c.toNat mode = some (utf8EncodeChar c) := by
  have hc : c.val.toNat < 0xd800 ∨ 0xdfff < c.val.toNat ∧ c.val.toNat < 0x110000 := c.valid
  simp only [sgConvertUcs4ToUtf8, utf8EncodeChar, shiftRight_eq_div_pow, Char.toNat,
    mask_or 6 _ (show 0x1f = 2 ^ 5 - 1 by rfl) (show 0xc0 = 6 <<< 5 by rfl),
    mask_or 14 _ (show 0x0f = 2 ^ 4 - 1 by rfl) (show 0xe0 = 14 <<< 4 by rfl),
    mask_or 30 _ (show 0x07 = 2 ^ 3 - 1 by rfl) (show 0xf0 = 30 <<< 3 by rfl),
    mask_or 2 _ (show 0x3f = 2 ^ 6 - 1 by rfl) (show 0x80 = 2 <<< 6 by rfl), reducePow]
  split_ifs <;> first | rfl | omega

/-! ### The decoder on well-formed bytes -/

section

variable {σ : Type} {R : ByteReader σ} {view : σ → List UInt8}

/-- A reader gives the bytes of `view` one after the other. -/
structure ByteReader.Streams (R : ByteReader σ) (view : σ → List UInt8) : Prop where
  head : ∀ s, (R.get s).1 = (view s).head?
  tail : ∀ s, view (R.get s).2 = (view s).tail

theorem ByteReader.Streams.get_eq (h : R.Streams view) {s : σ} {l : List UInt8}
    (hs : view s = l) : ∃ s', R.get s = (l.head?, s') ∧ view s' = l.tail := by
  subst hs
  exact ⟨_, Prod.ext (h.head s) rfl, h.tail s⟩

theorem ByteReader.Streams.get_cons (h : R.Streams view) {s : σ} {b : UInt8} {l : List UInt8}
    (hs : view s = b :: l) : ∃ s', R.get s = (some b, s') ∧ view s' = l := h.get_eq hs

theorem ByteReader.Streams.get_nil (h : R.Streams view) {s : σ} (hs : view s = []) :
    ∃ s', R.get s = (none, s') ∧ view s' = [] := h.get_eq hs

theorem ByteReader.Streams.get_ofNat (h : R.Streams view) {s : σ} {n : ℕ} {l : List UInt8}
    (hs : view s = .ofNat n :: l) (hn : n < 256) :
    ∃ b s', R.get s = (some b, s') ∧ b.toNat = n ∧ view s' = l := by
  obtain ⟨s', hget, hview⟩ := h.get_cons hs
  exact ⟨_, s', hget, by simp [mod_eq_of_lt hn], hview⟩

end

/-! ### The branches of the decoder -/

/-- `b` was read and is in a range. -/
def InRange (lo hi : ℕ) (b : Option UInt8) : Prop := ∃ c, b = some c ∧ lo ≤ c.toNat ∧ c.toNat ≤ hi

instance (lo hi : ℕ) (b : Option UInt8) : Decidable (InRange lo hi b) :=
  inferInstanceAs (Decidable (∃ c ∈ b, lo ≤ c.toNat ∧ c.toNat ≤ hi))

theorem isUtf8Tail_iff (b : Option UInt8) : isUtf8Tail (asByte b) ↔ InRange 0x80 0xbf b := by
  cases b with
  | none => simp [asByte, isUtf8Tail, InRange]
  | some c => simp [asByte, isUtf8Tail, InRange, UInt8.le_iff_toNat_le]

theorem within_iff (lo hi : UInt8) (b : Option UInt8) :
    within lo hi b ↔ InRange lo.toNat hi.toNat b := by
  cases b with
  | none => simp [within, InRange]
  | some c => simp [within, InRange, UInt8.le_iff_toNat_le]

/-- What must follow the first of three bytes. -/
def ThreeOk (a : ℕ) (second third : Option UInt8) : Prop :=
  InRange (if a = 0xe0 then 0xa0 else 0x80) (if a = 0xed then 0x9f else 0xbf) second ∧
    InRange 0x80 0xbf third

/-- What must follow the first of four bytes. -/
def FourOk (a : ℕ) (second third fourth : Option UInt8) : Prop :=
  InRange (if a = 0xf0 then 0x90 else 0x80) (if a = 0xf4 then 0x8f else 0xbf) second ∧
    InRange 0x80 0xbf third ∧ InRange 0x80 0xbf fourth

instance (a : ℕ) (second third : Option UInt8) : Decidable (ThreeOk a second third) :=
  inferInstanceAs (Decidable (_ ∧ _))

instance (a : ℕ) (second third fourth : Option UInt8) :
    Decidable (FourOk a second third fourth) :=
  inferInstanceAs (Decidable (_ ∧ _))

theorem byte_range (lo hi a : UInt8) :
    (lo ≤ a && a ≤ hi) = true ↔ lo.toNat ≤ a.toNat ∧ a.toNat ≤ hi.toNat := by
  simp [UInt8.le_iff_toNat_le]

section

variable {σ : Type} {R : ByteReader σ} {s s₁ s₂ s₃ s₄ : σ} {a : UInt8}
  {second third fourth : Option UInt8}

theorem utf8Attempt_none (h₁ : R.get s = (none, s₁)) : utf8Attempt R s = .eof s₁ := by
  simp only [utf8Attempt, h₁]

theorem utf8Attempt_some (h₁ : R.get s = (some a, s₁)) (h₂ : R.get s₁ = (second, s₂))
    (h₃ : R.get s₂ = (third, s₃)) (h₄ : R.get s₃ = (fourth, s₄)) :
    utf8Attempt R s =
      if a.toNat < 0x80 then .char a.toNat s₁
      else if 0xc2 ≤ a.toNat ∧ a.toNat ≤ 0xdf then
        if InRange 0x80 0xbf second then
          .char (a.toNat % 32 * 64 + (asByte second).toNat % 64) s₂
        else .invalid (R.unget s₂)
      else if 0xe0 ≤ a.toNat ∧ a.toNat ≤ 0xef then
        if ThreeOk a.toNat second third then
          .char (a.toNat % 16 * 4096 + (asByte second).toNat % 64 * 64 +
            (asByte third).toNat % 64) s₃
        else .invalid (R.ungetIf third (R.ungetIf second s₃))
      else if 0xf0 ≤ a.toNat ∧ a.toNat ≤ 0xf4 then
        if FourOk a.toNat second third fourth then
          .char (a.toNat % 8 * 262144 + (asByte second).toNat % 64 * 4096 +
            (asByte third).toNat % 64 * 64 + (asByte fourth).toNat % 64) s₄
        else .invalid (R.ungetIf fourth (R.ungetIf third (R.ungetIf second s₄)))
      else .invalid s₁ := by
  simp only [utf8Attempt, h₁, h₂, h₃, h₄, join_two, join_three, join_four]
  refine ite_congr (propext UInt8.lt_iff_toNat_lt) (fun _ => rfl) fun _ => ?_
  refine ite_congr (propext (byte_range _ _ a)) (fun _ => ?_) fun _ => ?_
  · exact if_congr (isUtf8Tail_iff second) rfl rfl
  refine ite_congr (propext (byte_range _ _ a)) (fun ha => if_congr ?_ rfl rfl) fun _ => ?_
  · simp only [Bool.and_eq_true, Bool.or_eq_true, isUtf8Tail_iff, within_iff, beq_iff_eq,
      decide_eq_true_iff, UInt8.le_iff_toNat_le, ← UInt8.toNat_inj, UInt8.reduceToNat, ThreeOk]
    split_ifs <;> grind
  refine ite_congr (propext (byte_range _ _ a)) (fun ha => if_congr ?_ rfl rfl) fun _ => rfl
  simp only [Bool.and_eq_true, Bool.or_eq_true, isUtf8Tail_iff, within_iff, beq_iff_eq,
    decide_eq_true_iff, UInt8.le_iff_toNat_le, ← UInt8.toNat_inj, UInt8.reduceToNat, FourOk]
  split_ifs <;> grind

end

/-! ### Characters that are decoded -/

theorem exists_char {v : ℕ} (h : v < 0xd800 ∨ 0xdfff < v ∧ v < 0x110000) :
    ∃ c : Char, c.toNat = v :=
  ⟨Char.ofNatAux v h, rfl⟩

variable {mode : ErrorHandlingMode} {n : ℕ}

theorem ofNat_eq {a : UInt8} (h : n = a.toNat) : UInt8.ofNat n = a := by
  rw [h, UInt8.ofNat_toNat]

section

variable {σ : Type} {R : ByteReader σ} {view : σ → List UInt8} {s s' : σ}

/-- **A character that was encoded is decoded.** -/
theorem utf8Attempt_of_encoded (h : R.Streams view) {c : Char} {rest : List UInt8}
    (hs : view s = utf8EncodeChar c ++ rest) :
    ∃ s', utf8Attempt R s = .char c.toNat s' ∧ view s' = rest := by
  have hc : c.toNat < 0xd800 ∨ 0xdfff < c.toNat ∧ c.toNat < 0x110000 := c.valid
  simp only [utf8EncodeChar, Char.toNat_val] at hs
  split_ifs at hs with h1 h2 h3
  · obtain ⟨a, s₁, hg₁, e₁, hs⟩ := h.get_ofNat hs (by omega)
    refine ⟨s₁, ?_, hs⟩
    rw [utf8Attempt_some hg₁ rfl rfl rfl, e₁, if_pos (by omega)]
  · obtain ⟨a, s₁, hg₁, e₁, hs⟩ := h.get_ofNat hs (by omega)
    obtain ⟨b, s₂, hg₂, e₂, hs⟩ := h.get_ofNat hs (by omega)
    refine ⟨s₂, ?_, hs⟩
    rw [utf8Attempt_some hg₁ hg₂ rfl rfl, if_neg (by omega), if_pos (by omega),
      if_pos ⟨b, rfl, by omega⟩, asByte, getD_some, e₁, e₂]
    exact congrArg (Attempt.char · s₂) (show (_ : ℕ) = _ by omega)
  · obtain ⟨a, s₁, hg₁, e₁, hs⟩ := h.get_ofNat hs (by omega)
    obtain ⟨b, s₂, hg₂, e₂, hs⟩ := h.get_ofNat hs (by omega)
    obtain ⟨d, s₃, hg₃, e₃, hs⟩ := h.get_ofNat hs (by omega)
    refine ⟨s₃, ?_, hs⟩
    rw [utf8Attempt_some hg₁ hg₂ hg₃ rfl, if_neg (by omega), if_neg (by omega), if_pos (by omega),
      if_pos ⟨⟨b, rfl, by split_ifs <;> omega⟩, d, rfl, by omega⟩, asByte, asByte, getD_some,
      getD_some, e₁, e₂, e₃]
    exact congrArg (Attempt.char · s₃) (show (_ : ℕ) = _ by omega)
  · obtain ⟨a, s₁, hg₁, e₁, hs⟩ := h.get_ofNat hs (by omega)
    obtain ⟨b, s₂, hg₂, e₂, hs⟩ := h.get_ofNat hs (by omega)
    obtain ⟨d, s₃, hg₃, e₃, hs⟩ := h.get_ofNat hs (by omega)
    obtain ⟨e, s₄, hg₄, e₄, hs⟩ := h.get_ofNat hs (by omega)
    refine ⟨s₄, ?_, hs⟩
    rw [utf8Attempt_some hg₁ hg₂ hg₃ hg₄, if_neg (by omega), if_neg (by omega), if_neg (by omega),
      if_pos (by omega), if_pos ⟨⟨b, rfl, by split_ifs <;> omega⟩, ⟨d, rfl, by omega⟩, e, rfl,
      by omega⟩, asByte, asByte, asByte, getD_some, getD_some, getD_some, e₁, e₂, e₃, e₄]
    exact congrArg (Attempt.char · s₄) (show (_ : ℕ) = _ by omega)

theorem ByteReader.Streams.get_some (h : R.Streams view) {b : UInt8} (hg : R.get s = (some b, s')) :
    view s = b :: view s' := by
  have hhead := h.head s
  have htail := h.tail s
  rw [hg] at hhead htail
  cases hs : view s with
  | nil => rw [hs] at hhead; cases hhead
  | cons b' l =>
    rw [hs] at hhead htail
    rw [htail, some.inj hhead]
    rfl

/-- **A character that was decoded was encoded** by the bytes that were read. -/
theorem encoded_of_utf8Attempt (h : R.Streams view) {v : ℕ} (hs : utf8Attempt R s = .char v s') :
    ∃ c : Char, c.toNat = v ∧ view s = utf8EncodeChar c ++ view s' := by
  obtain ⟨first, s₁, hg₁⟩ : ∃ first s₁, R.get s = (first, s₁) := ⟨_, _, rfl⟩
  obtain ⟨second, s₂, hg₂⟩ : ∃ second s₂, R.get s₁ = (second, s₂) := ⟨_, _, rfl⟩
  obtain ⟨third, s₃, hg₃⟩ : ∃ third s₃, R.get s₂ = (third, s₃) := ⟨_, _, rfl⟩
  obtain ⟨fourth, s₄, hg₄⟩ : ∃ fourth s₄, R.get s₃ = (fourth, s₄) := ⟨_, _, rfl⟩
  cases first with
  | none => rw [utf8Attempt_none hg₁] at hs; cases hs
  | some a =>
    rw [h.get_some hg₁]
    rw [utf8Attempt_some hg₁ hg₂ hg₃ hg₄] at hs
    split_ifs at hs with ha ha' htwo ha' hthree ha' hfour <;>
      obtain ⟨rfl, rfl⟩ := Attempt.char.inj hs
    · obtain ⟨c, hc⟩ := exists_char (v := a.toNat) (by omega)
      refine ⟨c, hc, ?_⟩
      simp only [utf8EncodeChar, Char.toNat_val, hc]
      rw [if_pos (by omega), ofNat_eq rfl]
      rfl
    · obtain ⟨b, rfl, hb⟩ := htwo
      obtain ⟨c, hc⟩ := exists_char (v := a.toNat % 32 * 64 + b.toNat % 64) (by omega)
      refine ⟨c, hc, ?_⟩
      simp only [utf8EncodeChar, Char.toNat_val, hc]
      rw [if_neg (by omega), if_pos (by omega), ofNat_eq (a := a) (by omega),
        ofNat_eq (a := b) (by omega), h.get_some hg₂]
      rfl
    · obtain ⟨⟨b, rfl, hb⟩, c, rfl, hc⟩ := hthree
      obtain ⟨x, hx⟩ := exists_char (v := a.toNat % 16 * 4096 + b.toNat % 64 * 64 + c.toNat % 64)
        (by split_ifs at hb <;> omega)
      refine ⟨x, hx, ?_⟩
      simp only [utf8EncodeChar, Char.toNat_val, hx]
      rw [if_neg (by split_ifs at hb <;> omega), if_neg (by split_ifs at hb <;> omega),
        if_pos (by omega), ofNat_eq (a := a) (by split_ifs at hb <;> omega),
        ofNat_eq (a := b) (by split_ifs at hb <;> omega), ofNat_eq (a := c) (by omega),
        h.get_some hg₂, h.get_some hg₃]
      rfl
    · obtain ⟨⟨b, rfl, hb⟩, ⟨c, rfl, hc⟩, d, rfl, hd⟩ := hfour
      obtain ⟨x, hx⟩ := exists_char (v := a.toNat % 8 * 262144 + b.toNat % 64 * 4096 +
        c.toNat % 64 * 64 + d.toNat % 64) (by split_ifs at hb <;> omega)
      refine ⟨x, hx, ?_⟩
      simp only [utf8EncodeChar, Char.toNat_val, hx]
      rw [if_neg (by split_ifs at hb <;> omega), if_neg (by split_ifs at hb <;> omega),
        if_neg (by split_ifs at hb <;> omega), ofNat_eq (a := a) (by split_ifs at hb <;> omega),
        ofNat_eq (a := b) (by split_ifs at hb <;> omega), ofNat_eq (a := c) (by omega),
        ofNat_eq (a := d) (by omega), h.get_some hg₂, h.get_some hg₃, h.get_some hg₄]
      rfl

theorem utf8Attempt_nil (h : R.Streams view) (hs : view s = []) :
    ∃ s', utf8Attempt R s = .eof s' ∧ view s' = [] := by
  obtain ⟨s', hg, hs'⟩ := h.get_nil hs
  exact ⟨s', utf8Attempt_none hg, hs'⟩

end

/-! ### Decoding and encoding -/

/-- The concatenated outputs of `Sg_ConvertUcs4ToUtf8`. -/
def encodeAll (mode : ErrorHandlingMode) (s : List SgChar) : Option (List UInt8) :=
  (s.mapM fun c => sgConvertUcs4ToUtf8 c mode).map List.flatten

theorem encodeAll_chars (mode : ErrorHandlingMode) (s : List Char) :
    encodeAll mode (s.map Char.toNat) = some (s.flatMap utf8EncodeChar) := by
  have hmap : (s.map Char.toNat).mapM (fun c => sgConvertUcs4ToUtf8 c mode) =
      some (s.map utf8EncodeChar) := by
    induction s with
    | nil => rfl
    | cons c s ih => simp [ih, sgConvertUcs4ToUtf8_char]
  rw [encodeAll, hmap, map_some, flatMap_def]

section

variable {σ : Type} {R : ByteReader σ} {view : σ → List UInt8} {st : σ}

theorem utf8EncodeChar_pos (c : Char) : 0 < (utf8EncodeChar c).length := by
  simp only [utf8EncodeChar]
  split_ifs <;> simp

theorem length_le_encoded (s : List Char) :
    s.length ≤ (s.flatMap utf8EncodeChar).length := by
  induction s with
  | nil => exact le_rfl
  | cons c s ih =>
    have := utf8EncodeChar_pos c
    rw [flatMap_cons, length_append, length_cons]
    omega

theorem char_keeps {I : σ → Prop}
    (hget : ∀ s, I s → I (R.get s).2) {s s' : σ} {c : SgChar}
    (h : utf8Attempt R s = .char c s') (hs : I s) : I s' := by
  have h₁ := hget s hs
  have h₂ := hget _ h₁
  have h₃ := hget _ h₂
  have h₄ := hget _ h₃
  unfold utf8Attempt at h
  split at h
  · cases h
  · rename_i first s₁ hg
    rw [hg] at h₁ h₂ h₃ h₄
    dsimp only at h h₁ h₂ h₃ h₄
    split_ifs at h <;> obtain ⟨-, rfl⟩ := Attempt.char.inj h <;> assumption

theorem bufferConvertor_take (h : R.Streams view) (mode : ErrorHandlingMode) (n size : ℕ)
    {r : List Char} (hst : view st = r.flatMap utf8EncodeChar) {I : σ → Prop}
    (hI : ∀ s, I s → I (R.get s).2) (hIst : I st) :
    ∃ st', bufferConvertor (utf8Reader R mode (n + 1)) size st =
        some (some ((r.take size).map Char.toNat), st') ∧
      view st' = (r.drop size).flatMap utf8EncodeChar ∧ I st' := by
  induction size generalizing st r with
  | zero => exact ⟨st, rfl, hst, hIst⟩
  | succ size ih =>
    cases r with
    | nil =>
      obtain ⟨st', hget, hview⟩ := h.get_nil hst
      have hI' := hI st hIst
      rw [hget] at hI'
      exact ⟨st', by simp [bufferConvertor, utf8Reader, utf8Attempt_none hget], hview, hI'⟩
    | cons c r =>
      obtain ⟨st₁, hatt, hst₁⟩ := utf8Attempt_of_encoded h hst
      obtain ⟨st', hloop, hview, hI'⟩ := ih hst₁ (char_keeps hI hatt hIst)
      have hread : utf8Reader R mode (n + 1) st = some (.char c.toNat, st₁) := by
        rw [utf8Reader, hatt]
      exact ⟨st', by simp [bufferConvertor, hread, hloop], hview, hI'⟩

theorem view_eq_nil_of_eof (h : R.Streams view) {st' : σ} (hatt : utf8Attempt R st = .eof st') :
    view st = [] := by
  cases hs : view st with
  | nil => rfl
  | cons b l =>
    obtain ⟨s₁, hg, -⟩ := h.get_cons hs
    rw [utf8Attempt, hg] at hatt
    simp only at hatt
    split_ifs at hatt

/-- Decoding that raises errors ends, and what it returns was encoded. -/
theorem bufferConvertor_raise (h : R.Streams view) (n : ℕ) {size : ℕ}
    (hsize : (view st).length ≤ size) :
    ∃ result st', bufferConvertor (utf8Reader R .raise (n + 1)) size st = some (result, st') ∧
      ∀ chars, result = some chars → ∃ s : List Char, chars = s.map Char.toNat ∧
        view st = s.flatMap utf8EncodeChar := by
  induction size generalizing st with
  | zero =>
    have hnil : view st = [] := eq_nil_of_length_eq_zero (by omega)
    exact ⟨some [], st, rfl, fun chars hchars => ⟨[], (some.inj hchars).symm, hnil⟩⟩
  | succ size ih =>
    rw [bufferConvertor, utf8Reader]
    cases hatt : utf8Attempt R st with
    | eof st' =>
      refine ⟨some [], st', rfl, fun chars hchars => ⟨[], ?_, view_eq_nil_of_eof h hatt⟩⟩
      exact (some.inj hchars).symm
    | invalid st' => exact ⟨none, st', rfl, nofun⟩
    | char v st₁ =>
      obtain ⟨c, rfl, hview⟩ := encoded_of_utf8Attempt h hatt
      have hpos := utf8EncodeChar_pos c
      have hlen := congrArg length hview
      rw [length_append] at hlen
      obtain ⟨result, st', hloop, hresult⟩ := ih (show (view st₁).length ≤ size by omega)
      refine ⟨result.map (c.toNat :: ·), st', by simp [hloop], fun chars hchars => ?_⟩
      obtain ⟨chars', rfl, rfl⟩ := map_eq_some_iff.1 hchars
      obtain ⟨s, rfl, hs⟩ := hresult chars' rfl
      exact ⟨c :: s, rfl, by rw [hview, hs, flatMap_cons]⟩

end

theorem bufferU8Reader_streams (buf : List UInt8) :
    (bufferU8Reader buf).Streams fun pos => buf.drop pos where
  head pos := by
    by_cases h : pos < buf.length <;> simp [bufferU8Reader, h]
  tail pos := by
    by_cases h : pos < buf.length
    · simp [bufferU8Reader, h]
    · have hle : buf.length ≤ pos := Nat.le_of_not_lt h
      simp [bufferU8Reader, h, hle, hle.trans (le_succ pos)]

theorem convert_encoded (s : List Char) (mode : ErrorHandlingMode) (n : ℕ) {size : ℕ}
    (hsize : s.length ≤ size) :
    ∃ pos, sgConvertUtf8BufferToUcs4 (s.flatMap utf8EncodeChar) size mode (n + 1) =
      some (some (s.map Char.toNat), pos) := by
  obtain ⟨pos, h, -⟩ := bufferConvertor_take (bufferU8Reader_streams _) mode n size drop_zero
    (I := fun _ => True) (fun _ _ => trivial) trivial
  rw [take_of_length_le hsize] at h
  exact ⟨pos, h⟩

/-- **UTF-8 is decoded exactly**: what was encoded is decoded again, in every mode; and decoding
that raises errors succeeds exactly for well-formed buffers, whose characters give the buffer when
they are encoded. -/
theorem utf8_exact :
    (∀ (s : List Char) (mode mode' : ErrorHandlingMode) (extra n : ℕ), ∃ buf pos,
      encodeAll mode (s.map Char.toNat) = some buf ∧
      sgConvertUtf8BufferToUcs4 buf (s.length + extra) mode' (n + 1) =
        some (some (s.map Char.toNat), pos)) ∧
    ∀ (buf : List UInt8) (extra n : ℕ), ∃ result pos,
      sgConvertUtf8BufferToUcs4 buf (buf.length + extra) .raise (n + 1) = some (result, pos) ∧
      (result.isSome ↔ ∃ s : List Char, buf = s.flatMap utf8EncodeChar) ∧
      ∀ chars, result = some chars → encodeAll .raise chars = some buf := by
  constructor
  · intro s mode mode' extra n
    obtain ⟨pos, h⟩ := convert_encoded s mode' n (le_add_right s.length extra)
    exact ⟨_, pos, encodeAll_chars mode s, h⟩
  · intro buf extra n
    obtain ⟨result, pos, hrun, hresult⟩ := bufferConvertor_raise (bufferU8Reader_streams buf) n
      (show (buf.drop 0).length ≤ buf.length + extra by simp)
    refine ⟨result, pos, hrun, ⟨fun hsome => ?_, ?_⟩, fun chars hchars => ?_⟩
    · obtain ⟨chars, rfl⟩ := isSome_iff_exists.1 hsome
      obtain ⟨s, -, hs⟩ := hresult chars rfl
      exact ⟨s, hs⟩
    · rintro ⟨s, rfl⟩
      obtain ⟨pos', h⟩ := convert_encoded s .raise n
        ((length_le_encoded s).trans (le_add_right _ extra))
      rw [sgConvertUtf8BufferToUcs4, hrun] at h
      obtain ⟨rfl, -⟩ := Prod.mk.inj (some.inj h)
      rfl
    · obtain ⟨s, rfl, hs⟩ := hresult chars hchars
      rw [encodeAll_chars, ← hs]
      rfl

/-! ### Progress -/

section

variable {buf : List UInt8} {pos pos' : ℕ}

theorem bufferU8Reader_get_of_lt (h : pos < buf.length) :
    (bufferU8Reader buf).get pos = (some buf[pos], pos + 1) := by
  simp [bufferU8Reader, h]

theorem bufferU8Reader_get_of_le (h : buf.length ≤ pos) :
    (bufferU8Reader buf).get pos = (none, pos) := by
  simp [bufferU8Reader, not_lt.2 h]

theorem bufferU8Reader_get (buf : List UInt8) (pos : ℕ) :
    ∃ b, (bufferU8Reader buf).get pos = (b, pos + b.isSome.toNat) ∧
      (b.isSome ↔ pos < buf.length) := by
  by_cases h : pos < buf.length
  · exact ⟨_, bufferU8Reader_get_of_lt h, by simp [h]⟩
  · exact ⟨none, bufferU8Reader_get_of_le (Nat.le_of_not_lt h), by simp [h]⟩

theorem bufferU8Reader_ungetIf (b : Option UInt8) (pos : ℕ) :
    (bufferU8Reader buf).ungetIf b pos = pos - b.isSome.toNat := by
  cases b <;> rfl

/-- The buffer ends with the first of two bytes. -/
def EndsWithLead (buf : List UInt8) : Prop :=
  ∃ b, buf.getLast? = some b ∧ 0xc2 ≤ b.toNat ∧ b.toNat ≤ 0xdf

theorem endsWithLead_iff (hpos : pos < buf.length) (hend : pos + 1 = buf.length) :
    EndsWithLead buf ↔ 0xc2 ≤ (buf[pos]).toNat ∧ (buf[pos]).toNat ≤ 0xdf := by
  have : buf.getLast? = some buf[pos] := by
    rw [getLast?_eq_getElem?, ← hend, Nat.add_sub_cancel, getElem?_eq_getElem hpos]
  simp [EndsWithLead, this]

/-- An error takes back all but the first byte; but at the end of the buffer the first of two bytes
is taken back, too. -/
theorem invalid_position (h : utf8Attempt (bufferU8Reader buf) pos = .invalid pos') :
    pos < buf.length ∧ (pos' = pos + 1 ∧ ¬ (pos + 1 = buf.length ∧ EndsWithLead buf) ∨
      pos' = pos ∧ pos + 1 = buf.length ∧ EndsWithLead buf) := by
  have hpos : pos < buf.length := by
    by_contra hlt
    rw [utf8Attempt_none (bufferU8Reader_get_of_le (Nat.le_of_not_lt hlt))] at h
    cases h
  have hg := bufferU8Reader_get_of_lt hpos
  obtain ⟨second, hg₂, hsecond⟩ := bufferU8Reader_get buf (pos + 1)
  obtain ⟨third, hg₃, -⟩ := bufferU8Reader_get buf (pos + 1 + second.isSome.toNat)
  obtain ⟨fourth, hg₄, -⟩ :=
    bufferU8Reader_get buf (pos + 1 + second.isSome.toNat + third.isSome.toNat)
  -- the branches that take back what they have read
  have hback : ¬ (0xc2 ≤ (buf[pos]).toNat ∧ (buf[pos]).toNat ≤ 0xdf) → pos' = pos + 1 →
      pos' = pos + 1 ∧ ¬ (pos + 1 = buf.length ∧ EndsWithLead buf) := fun hlead hpos' =>
    ⟨hpos', fun ⟨hend, hlast⟩ => hlead ((endsWithLead_iff hpos hend).1 hlast)⟩
  refine ⟨hpos, ?_⟩
  rw [utf8Attempt_some hg hg₂ hg₃ hg₄] at h
  split_ifs at h with ha ha' htwo ha' hthree ha' hfour <;> have hpos' := Attempt.invalid.inj h
  · cases hsome : second.isSome with
    | true =>
      rw [hsome] at hpos'
      exact .inl ⟨hpos'.symm, fun hend => by have := hsecond.1 hsome; omega⟩
    | false =>
      have hend : pos + 1 = buf.length := by
        have : ¬ pos + 1 < buf.length := fun hlt => by simp [hsecond.2 hlt] at hsome
        omega
      rw [hsome] at hpos'
      exact .inr ⟨hpos'.symm, hend, (endsWithLead_iff hpos hend).2 ha'⟩
  · rw [bufferU8Reader_ungetIf, bufferU8Reader_ungetIf] at hpos'
    exact .inl (hback (by omega) (by omega))
  · rw [bufferU8Reader_ungetIf, bufferU8Reader_ungetIf, bufferU8Reader_ungetIf] at hpos'
    exact .inl (hback (by omega) (by omega))
  · exact .inl (hback (by omega) hpos'.symm)

theorem not_endsWithLead_append (l : List UInt8) (c : Char) :
    ¬ EndsWithLead (l ++ utf8EncodeChar c) := by
  rintro ⟨b, hb, hlead⟩
  have hne : utf8EncodeChar c ≠ [] := ne_nil_of_length_pos (utf8EncodeChar_pos c)
  rw [getLast?_append_of_ne_nil _ hne] at hb
  simp only [utf8EncodeChar, Char.toNat_val] at hb
  split_ifs at hb
  all_goals
    simp only [getLast?_cons_cons, getLast?_singleton, some.injEq] at hb
    rw [← hb, UInt8.toNat_ofNat_of_lt' (show _ < 256 by omega)] at hlead
    omega

theorem char_position {c : SgChar} (h : utf8Attempt (bufferU8Reader buf) pos = .char c pos')
    (hpos : pos ≤ buf.length) :
    pos < pos' ∧ pos' ≤ buf.length ∧ (EndsWithLead buf → pos' < buf.length) := by
  have hle : pos' ≤ buf.length := by
    refine char_keeps (I := (· ≤ buf.length)) (fun p hp => ?_) h hpos
    by_cases hlt : p < buf.length
    · rw [bufferU8Reader_get_of_lt hlt]
      exact hlt
    · rw [bufferU8Reader_get_of_le (Nat.le_of_not_lt hlt)]
      exact hp
  obtain ⟨c, -, hview⟩ := encoded_of_utf8Attempt (bufferU8Reader_streams buf) h
  have hlen := congrArg length hview
  have hc := utf8EncodeChar_pos c
  simp only [length_append, length_drop] at hlen
  refine ⟨by omega, hle, fun hlast => lt_of_le_of_ne hle ?_⟩
  rintro rfl
  rw [drop_length, append_nil] at hview
  rw [← take_append_drop pos buf, hview] at hlast
  exact not_endsWithLead_append _ c hlast

theorem length_le_of_eof (h : utf8Attempt (bufferU8Reader buf) pos = .eof pos') :
    buf.length ≤ pos := by
  have hnil := view_eq_nil_of_eof (bufferU8Reader_streams buf) h
  exact drop_eq_nil_iff.1 hnil

/-- One call of the reader, if the buffer does not end with the first of two bytes: it comes to the
end, or a character moves on. -/
theorem utf8Reader_progress (hlast : ¬ EndsWithLead buf)
    (hmode : mode ≠ .raise) (hpos : pos ≤ buf.length) (hn : buf.length - pos < n) :
    ∃ r pos', utf8Reader (bufferU8Reader buf) mode n pos = some (r, pos') ∧ pos' ≤ buf.length ∧
      pos ≤ pos' ∧ (r = .eof ∨ ∃ c, r = .char c ∧ pos < pos') := by
  induction n generalizing pos with
  | zero => omega
  | succ n ih =>
    rw [utf8Reader]
    cases hatt : utf8Attempt (bufferU8Reader buf) pos with
    | eof pos' =>
      have hpos' : pos' = pos := by
        rw [utf8Attempt_none (bufferU8Reader_get_of_le (length_le_of_eof hatt))] at hatt
        exact (Attempt.eof.inj hatt).symm
      exact ⟨.eof, pos', rfl, by omega, by omega, .inl rfl⟩
    | char c pos' =>
      obtain ⟨hlt, hle, -⟩ := char_position hatt hpos
      exact ⟨.char c, pos', rfl, hle, hlt.le, .inr ⟨c, rfl, hlt⟩⟩
    | invalid pos' =>
      obtain ⟨hlt, ⟨rfl, -⟩ | ⟨-, -, hlead⟩⟩ := invalid_position hatt
      · cases mode with
        | raise => exact absurd rfl hmode
        | replace => exact ⟨.char 0xfffd, pos + 1, rfl, hlt, by omega, .inr ⟨_, rfl, by omega⟩⟩
        | ignore =>
          obtain ⟨r, pos', hrun, hle, hge, hr⟩ := ih hlt (by omega)
          refine ⟨r, pos', hrun, hle, by omega, hr.imp_right ?_⟩
          rintro ⟨c, rfl, hc⟩
          exact ⟨c, rfl, by omega⟩
      · exact absurd hlead hlast

theorem bufferConvertor_progress (hlast : ¬ EndsWithLead buf)
    (hmode : mode ≠ .raise) (size : ℕ) (hpos : pos ≤ buf.length) :
    ∃ chars pos', bufferConvertor (utf8Reader (bufferU8Reader buf) mode (buf.length + 1)) size pos =
      some (some chars, pos') ∧ pos + chars.length ≤ pos' ∧ pos' ≤ buf.length := by
  induction size generalizing pos with
  | zero => exact ⟨[], pos, rfl, le_rfl, hpos⟩
  | succ size ih =>
    obtain ⟨r, pos₁, hrun, hle, hge, rfl | ⟨c, rfl, hlt⟩⟩ :=
      utf8Reader_progress hlast hmode (n := buf.length + 1) hpos (by omega)
    · exact ⟨[], pos₁, by simp [bufferConvertor, hrun], hge, hle⟩
    · obtain ⟨chars, pos', hloop, hchars, hpos'⟩ := ih hle
      refine ⟨c :: chars, pos', by simp [bufferConvertor, hrun, hloop], ?_, hpos'⟩
      rw [length_cons]
      omega

/-- If the buffer ends with the first of two bytes, this byte is never consumed. -/
theorem utf8Reader_stuck (hlast : EndsWithLead buf)
    (hmode : mode ≠ .raise) {r : Read} (hpos : pos < buf.length)
    (h : utf8Reader (bufferU8Reader buf) mode n pos = some (r, pos')) :
    pos' < buf.length ∧ ∃ c, r = .char c := by
  induction n generalizing pos with
  | zero => cases h
  | succ n ih =>
    rw [utf8Reader] at h
    cases hatt : utf8Attempt (bufferU8Reader buf) pos with
    | eof p => exact absurd (length_le_of_eof hatt) (not_le.2 hpos)
    | char c p =>
      rw [hatt] at h
      obtain ⟨rfl, rfl⟩ := Prod.mk.inj (some.inj h)
      exact ⟨(char_position hatt hpos.le).2.2 hlast, c, rfl⟩
    | invalid p =>
      have hp : p < buf.length := by
        obtain ⟨-, ⟨rfl, hnot⟩ | ⟨rfl, -⟩⟩ := invalid_position hatt
        · have : pos + 1 ≠ buf.length := fun hend => hnot ⟨hend, hlast⟩
          omega
        · exact hpos
      rw [hatt] at h
      cases mode with
      | raise => exact absurd rfl hmode
      | replace =>
        obtain ⟨rfl, rfl⟩ := Prod.mk.inj (some.inj h)
        exact ⟨hp, _, rfl⟩
      | ignore => exact ih hp h

theorem bufferConvertor_stuck (hlast : EndsWithLead buf)
    (hmode : mode ≠ .raise) {size : ℕ} {chars : List SgChar} (hpos : pos < buf.length)
    (h : bufferConvertor (utf8Reader (bufferU8Reader buf) mode n) size pos =
      some (some chars, pos')) :
    chars.length = size := by
  induction size generalizing pos chars with
  | zero =>
    obtain ⟨hchars, -⟩ := Prod.mk.inj (some.inj h)
    rw [← some.inj hchars]
    rfl
  | succ size ih =>
    rw [bufferConvertor] at h
    cases hread : utf8Reader (bufferU8Reader buf) mode n pos with
    | none => rw [hread] at h; cases h
    | some r =>
      obtain ⟨r, p⟩ := r
      obtain ⟨hp, c, rfl⟩ := utf8Reader_stuck hlast hmode hpos hread
      rw [hread] at h
      obtain ⟨⟨rest, p'⟩, hloop, heq⟩ := map_eq_some_iff.1 h
      obtain ⟨hrest, rfl⟩ := Prod.mk.inj heq
      obtain ⟨chars', rfl, rfl⟩ := map_eq_some_iff.1 hrest
      rw [length_cons, ih hp hloop]

end

/-- Decoding ends, for every size of the result, and consumes a byte for every character. -/
def MakesProgress (buf : List UInt8) (mode : ErrorHandlingMode) : Prop :=
  ∀ size, ∃ n chars pos, sgConvertUtf8BufferToUcs4 buf size mode n = some (some chars, pos) ∧
    chars.length ≤ pos ∧ pos ≤ buf.length

/-- **Decoding makes progress** exactly if the buffer does not end with the first of two bytes. -/
theorem utf8_progress_iff (buf : List UInt8) (mode : ErrorHandlingMode) (hmode : mode ≠ .raise) :
    MakesProgress buf mode ↔ ¬ EndsWithLead buf := by
  constructor
  · rintro h ⟨b, hb, hlead⟩
    have hpos : 0 < buf.length := length_pos_of_mem (mem_of_getLast? hb)
    obtain ⟨n, chars, pos, hrun, hchars, hle⟩ := h (buf.length + 1)
    have := bufferConvertor_stuck ⟨b, hb, hlead⟩ hmode hpos hrun
    omega
  · intro hlast size
    obtain ⟨chars, pos, hrun, hchars, hle⟩ :=
      bufferConvertor_progress hlast hmode size (zero_le buf.length)
    exact ⟨buf.length + 1, chars, pos, hrun, by omega, hle⟩

/-- Ill-formed bytes, with the mode that replaces them. -/
theorem utf8_progress_invalid : MakesProgress [0xe3, 0x81, 0xc2, 0x41, 0xf0, 0x9f] .replace :=
  (utf8_progress_iff _ _ (by decide)).2 (by
    rintro ⟨b, hb, hlead⟩
    obtain rfl := some.inj hb
    revert hlead
    decide)

/-- **The first of two bytes at the end**: replaced for ever, or tried again for ever. -/
theorem utf8_stuck_lead :
    (∀ n size, sgConvertUtf8BufferToUcs4 [0xc3] size .replace (n + 1) =
      some (some (List.replicate size 0xfffd), 0)) ∧
    ∀ n size, sgConvertUtf8BufferToUcs4 [0xc3] (size + 1) .ignore n = none := by
  have hatt : utf8Attempt (bufferU8Reader [0xc3]) 0 = .invalid 0 := rfl
  constructor
  · intro n size
    rw [sgConvertUtf8BufferToUcs4]
    induction size with
    | zero => rfl
    | succ size ih =>
      have hread : utf8Reader (bufferU8Reader [0xc3]) .replace (n + 1) 0 =
          some (.char 0xfffd, 0) := by
        simp [utf8Reader, hatt, decodeError]
      simp [bufferConvertor, hread, ih, replicate_succ]
  · intro n size
    have hread : utf8Reader (bufferU8Reader [0xc3]) .ignore n 0 = none := by
      induction n with
      | zero => rfl
      | succ n ih => simp [utf8Reader, decodeError, hatt, ih]
    simp [sgConvertUtf8BufferToUcs4, bufferConvertor, hread]

end Sagittarius.Text
