import Sagittarius.Text.Utf8

/-!
# UTF-16

The encoder and the decoder of `unicode.c` for UTF-16 of either byte order.

* `sgConvertUcs4ToUtf16`, `utf16Reader`, `sgConvertUtf16BufferToUcs4` : the source;
* `segments` : how the decoder cuts a buffer: a unit that is no surrogate stands alone, a surrogate
  takes the unit after it, whatever that is;
* `utf16Reader_segment` : what one call of the decoder makes of a segment;
* `utf16_exact_iff` : **the decoder is exact only for some buffers**: it joins a surrogate with any
  unit after it and looks at nothing but the range of the result.

What UTF-16 is supposed to be is `WellFormedUtf16`.
-/

namespace Sagittarius.Text

open List Option

/-- The byte order of a codec. -/
inductive Endianness
  | utf16Be
  | utf16Le
  | utf16CheckBom
  | utf32Be
  | utf32Le
  | noBom
deriving DecidableEq

/-- The fields `endian` and `littlep` of a builtin codec. -/
structure BuiltinCodec where
  endian : Endianness
  littlep : Bool

/-- The codec of a byte order. -/
def sgMakeUtf16Codec (endian : Endianness) : BuiltinCodec := ⟨endian, endian == .utf16Le⟩

/-! ### The encoder -/

/-- The bytes of a unit. -/
def put2byte (littlep : Bool) (x : ℕ) : List UInt8 :=
  if littlep then [.ofNat x, .ofNat (x >>> 8)] else [.ofNat (x >>> 8), .ofNat x]

/-- `Sg_ConvertUcs4ToUtf16`; `none` is `SG_IO_ENCODE_ERROR`. -/
def sgConvertUcs4ToUtf16 (ucs4 : SgChar) (mode : ErrorHandlingMode) (littlep : Bool) :
    Option (List UInt8) :=
  if ucs4 > 0x10FFFF then
    match mode with
    | .raise => none
    | .replace => some [0xff, 0xfd]
    | .ignore => some []
  else if ucs4 < 0x10000 then some (put2byte littlep ucs4)
  else
    let x := ucs4 % 0x10000
    let u := (ucs4 >>> 16) &&& 0x1f
    let w := u - 1
    let hiSurrogate := 0xD800 ||| w <<< 6 ||| x >>> 10
    let loSurrogate := 0xDC00 ||| x &&& 0x3ff
    some (put2byte littlep hiSurrogate ++ put2byte littlep loSurrogate)

/-! ### The decoder -/

/-- `val1` and `val2`: two bytes as a number. -/
def unit16 (littlep : Bool) (a b : UInt8) : ℕ :=
  if littlep then b.toNat <<< 8 ||| a.toNat else a.toNat <<< 8 ||| b.toNat

/-- What `utf16_reader` changes: `littlep` of the codec, `checkBOMNow` and the byte reader. -/
structure Utf16Ctx (σ : Type) where
  littlep : Bool
  checkBOMNow : Bool
  data : σ

section

variable {σ : Type} (R : ByteReader σ)

/-- `utf16_reader` after the first unit: the character, or `none` for an error. -/
def utf16Second (littlep : Bool) (val1 : ℕ) (s : σ) : Option SgChar × σ :=
  if val1 < 0xD800 ∨ 0xDFFF < val1 then (some val1, s)
  else
    match R.get s with
    | (none, s) => (none, s)
    | (some c, s) =>
      match R.get s with
      | (none, s) => (none, s)
      | (some d, s) =>
        let val2 := unit16 littlep c d
        let C : ℤ := ((val1 - 0xD800) <<< 10 : ℕ) + ((val2 : ℤ) - 0xDC00) + 0x010000
        if 0x10FFFF < C ∨ 0xD800 ≤ C ∧ C ≤ 0xDFFF then (none, s) else (some C.toNat, s)

/-- `utf16_reader`, with `n` jumps to `retry` at most -/
def utf16Reader (endian : Endianness) (mode : ErrorHandlingMode) :
    ℕ → Utf16Ctx σ → Option (Read × Utf16Ctx σ)
  | 0, _ => none
  | n + 1, ctx =>
    let (a, s) := R.get ctx.data
    let (b, s) := R.get s
    match a, b with
    | none, _ => some (.eof, { ctx with data := s })
    | some _, none =>
      let ctx := { ctx with data := s }
      decodeError mode ctx (utf16Reader endian mode n ctx)
    | some a, some b =>
      let check := ctx.checkBOMNow && endian == .utf16CheckBom
      if check && a == 0xFE && b == 0xFF then utf16Reader endian mode n ⟨false, false, s⟩
      else if check && a == 0xFF && b == 0xFE then utf16Reader endian mode n ⟨true, false, s⟩
      else
        let littlep := if check then false else ctx.littlep
        let (r, s) := utf16Second R littlep (unit16 littlep a b) s
        let ctx := ⟨littlep, ctx.checkBOMNow, s⟩
        match r with
        | some c => some (.char c, ctx)
        | none => decodeError mode ctx (utf16Reader endian mode n ctx)

end

/-- `Sg_ConvertUtf16BufferToUcs4` without a port.  Every jump to `retry` has read a byte. -/
def sgConvertUtf16BufferToUcs4 (codec : BuiltinCodec) (u8buf : List UInt8) (size : ℕ)
    (mode : ErrorHandlingMode) (checkBOM : Bool) :
    Option (Option (List SgChar) × Utf16Ctx ℕ) :=
  bufferConvertor
    (utf16Reader (bufferU8Reader u8buf) codec.endian mode (u8buf.length + 1)) size
    ⟨codec.littlep, checkBOM, 0⟩

/-! ### What UTF-16 is -/

/-- A high surrogate. -/
def IsHigh (u : ℕ) : Prop := 0xD800 ≤ u ∧ u ≤ 0xDBFF

/-- A low surrogate. -/
def IsLow (u : ℕ) : Prop := 0xDC00 ≤ u ∧ u ≤ 0xDFFF

instance (u : ℕ) : Decidable (IsHigh u) := inferInstanceAs (Decidable (_ ∧ _))

instance (u : ℕ) : Decidable (IsLow u) := inferInstanceAs (Decidable (_ ∧ _))

/-- Well-formed UTF-16: units of two bytes, every high surrogate followed by a low one, and no low
surrogate elsewhere. -/
inductive WellFormedUtf16 (littlep : Bool) : List UInt8 → Prop
  | nil : WellFormedUtf16 littlep []
  | unit {a b : UInt8} {rest : List UInt8} :
    ¬ IsHigh (unit16 littlep a b) → ¬ IsLow (unit16 littlep a b) →
    WellFormedUtf16 littlep rest → WellFormedUtf16 littlep (a :: b :: rest)
  | pair {a b c d : UInt8} {rest : List UInt8} :
    IsHigh (unit16 littlep a b) → IsLow (unit16 littlep c d) →
    WellFormedUtf16 littlep rest → WellFormedUtf16 littlep (a :: b :: c :: d :: rest)

/-! ### Segments -/

/-- What the decoder takes together. -/
inductive Segment
  /-- a unit that is no surrogate -/
  | unit (a b : UInt8)
  /-- a surrogate and the unit after it -/
  | pair (a b c d : UInt8)
  /-- what is left when the buffer ends inside one of the above -/
  | cut (w : List UInt8)
deriving DecidableEq

/-- The buffer as the decoder cuts it. -/
def segments (littlep : Bool) : List UInt8 → List Segment
  | [] => []
  | [a] => [.cut [a]]
  | a :: b :: rest =>
    if unit16 littlep a b < 0xD800 ∨ 0xDFFF < unit16 littlep a b then
      .unit a b :: segments littlep rest
    else
      match rest with
      | [] => [.cut [a, b]]
      | [c] => [.cut [a, b, c]]
      | c :: d :: rest => .pair a b c d :: segments littlep rest

/-- The bytes of a segment. -/
def Segment.bytes : Segment → List UInt8
  | .unit a b => [a, b]
  | .pair a b c d => [a, b, c, d]
  | .cut w => w

/-- A surrogate and the unit after it as one number, counted from the first of all pairs. -/
def pairWeight (u v : ℕ) : ℕ := (u - 0xD800) * 0x400 + v

/-- The pairs whose number is beyond the code space or a surrogate. -/
def Refused (u v : ℕ) : Prop :=
  0x10DC00 ≤ pairWeight u v ∨ 0xB400 ≤ pairWeight u v ∧ pairWeight u v ≤ 0xBBFF

instance (u v : ℕ) : Decidable (Refused u v) := inferInstanceAs (Decidable (_ ∨ _))

/-- The character a segment is decoded to. -/
def Segment.char (littlep : Bool) : Segment → Option SgChar
  | .unit a b => some (unit16 littlep a b)
  | .pair a b c d =>
    let u := unit16 littlep a b
    let v := unit16 littlep c d
    if Refused u v then none else some (pairWeight u v + 0x2400)
  | .cut _ => none

/-- The segment is well formed. -/
def Segment.Right (littlep : Bool) : Segment → Prop
  | .unit _ _ => True
  | .pair a b c d => IsHigh (unit16 littlep a b) ∧ IsLow (unit16 littlep c d)
  | .cut _ => False

/-- The segment has no character. -/
def Segment.IsRefused (littlep : Bool) : Segment → Prop
  | .unit _ _ => False
  | .pair a b c d => Refused (unit16 littlep a b) (unit16 littlep c d)
  | .cut _ => True

/-- The segment is an ill-formed pair whose number is that of the replacement character. -/
def Segment.LooksReplaced (littlep : Bool) : Segment → Prop
  | .pair a b c d =>
    ¬ (IsHigh (unit16 littlep a b) ∧ IsLow (unit16 littlep c d)) ∧
      pairWeight (unit16 littlep a b) (unit16 littlep c d) = 0xDBFD
  | _ => False

/-! ### Units -/

section

variable (littlep : Bool) (a b : UInt8)

theorem unit16_eq :
    unit16 littlep a b = if littlep then b.toNat * 256 + a.toNat else a.toNat * 256 + b.toNat := by
  have ha : a.toNat < 2 ^ 8 := a.toNat_lt
  have hb : b.toNat < 2 ^ 8 := b.toNat_lt
  simp only [unit16, shift_or _ ha, shift_or _ hb, Nat.reducePow]

theorem unit16_lt : unit16 littlep a b < 0x10000 := by
  have ha := a.toNat_lt
  have hb := b.toNat_lt
  rw [unit16_eq]
  split_ifs <;> omega

theorem put2byte_unit16 : put2byte littlep (unit16 littlep a b) = [a, b] := by
  have hlow : ∀ x y : UInt8, UInt8.ofNat (x.toNat * 256 + y.toNat) = y := by
    intro x y
    simp
  have hhigh : ∀ x y : UInt8, UInt8.ofNat ((x.toNat * 256 + y.toNat) >>> 8) = x := by
    intro x y
    have hy := y.toNat_lt
    exact ofNat_eq (by omega)
  rw [unit16_eq, put2byte]
  cases littlep <;> simp [hlow, hhigh]

end

/-! ### The encoder on the two kinds of characters -/

theorem sgConvertUcs4ToUtf16_unit (mode : ErrorHandlingMode) (littlep : Bool) (a b : UInt8) :
    sgConvertUcs4ToUtf16 (unit16 littlep a b) mode littlep = some [a, b] := by
  have hlt := unit16_lt littlep a b
  have hle : ¬ unit16 littlep a b > 0x10FFFF := by omega
  simp only [sgConvertUcs4ToUtf16, if_neg hle, if_pos hlt, put2byte_unit16]

theorem hiSurrogate_eq {w x : ℕ} (hw : w < 16) (hx : x < 64) :
    0xD800 ||| w <<< 6 ||| x = 0xD800 + w * 64 + x := by
  have hlt : w <<< 6 < 2 ^ 10 := by rw [Nat.shiftLeft_eq]; omega
  calc 0xD800 ||| w <<< 6 ||| x
      = 0x36 <<< 10 ||| w <<< 6 ||| x := rfl
    _ = (0x360 + w) <<< 6 ||| x := by
      rw [shift_or _ hlt, Nat.shiftLeft_eq, Nat.shiftLeft_eq]
      congr 1
      omega
    _ = 0xD800 + w * 64 + x := by rw [shift_or _ hx]; omega

theorem loSurrogate_eq (x : ℕ) : 0xDC00 ||| x &&& 0x3ff = 0xDC00 + x % 0x400 := by
  rw [Nat.and_two_pow_sub_one_eq_mod x 10]
  exact shift_or (i := 10) 0x37 (Nat.mod_lt x (by decide))

theorem sgConvertUcs4ToUtf16_pair (mode : ErrorHandlingMode) {littlep : Bool} {a b c d : UInt8}
    (hu : IsHigh (unit16 littlep a b)) (hv : IsLow (unit16 littlep c d)) :
    sgConvertUcs4ToUtf16 (pairWeight (unit16 littlep a b) (unit16 littlep c d) + 0x2400) mode
      littlep = some [a, b, c, d] := by
  obtain ⟨hu, hu'⟩ := hu
  obtain ⟨hv, hv'⟩ := hv
  -- the ten low bits of each surrogate
  obtain ⟨h, hh⟩ : ∃ h, unit16 littlep a b = 0xD800 + h := ⟨_, (Nat.add_sub_cancel' hu).symm⟩
  obtain ⟨l, hl⟩ : ∃ l, unit16 littlep c d = 0xDC00 + l := ⟨_, (Nat.add_sub_cancel' hv).symm⟩
  have hucs4 : pairWeight (unit16 littlep a b) (unit16 littlep c d) + 0x2400 =
      0x10000 + h * 0x400 + l := by
    rw [pairWeight]
    omega
  have hU : ((0x10000 + h * 0x400 + l) >>> 16 &&& 0x1f) - 1 = h / 64 := by
    rw [Nat.and_two_pow_sub_one_eq_mod _ 5, Nat.shiftRight_eq_div_pow]
    omega
  have hX : ((0x10000 + h * 0x400 + l) % 0x10000) >>> 10 = h % 64 := by
    omega
  have hhi : 0xD800 + h / 64 * 64 + h % 64 = unit16 littlep a b := by omega
  have hlo : 0xDC00 + (0x10000 + h * 0x400 + l) % 0x10000 % 0x400 = unit16 littlep c d := by omega
  have hle : ¬ 0x10000 + h * 0x400 + l > 0x10FFFF := by omega
  have hnlt : ¬ 0x10000 + h * 0x400 + l < 0x10000 := by omega
  rw [hucs4]
  simp only [sgConvertUcs4ToUtf16, if_neg hle, if_neg hnlt, hU, hX, loSurrogate_eq]
  rw [hiSurrogate_eq (by omega) (Nat.mod_lt h (by decide)), hhi, hlo, put2byte_unit16,
    put2byte_unit16]
  rfl

theorem Segment.Right.encoded {littlep : Bool} {seg : Segment} (h : seg.Right littlep) :
    ∃ c, seg.char littlep = some c ∧ sgConvertUcs4ToUtf16 c .raise littlep = some seg.bytes := by
  cases seg with
  | unit a b => exact ⟨_, rfl, sgConvertUcs4ToUtf16_unit .raise littlep a b⟩
  | cut w => exact h.elim
  | pair a b c d =>
    obtain ⟨hu, hv⟩ := h
    refine ⟨_, if_neg ?_, sgConvertUcs4ToUtf16_pair .raise hu hv⟩
    simp only [Refused, pairWeight, IsHigh, IsLow] at *
    omega

theorem Segment.char_eq_none_iff (littlep : Bool) (seg : Segment) :
    seg.char littlep = none ↔ seg.IsRefused littlep := by
  cases seg <;> simp [Segment.char, Segment.IsRefused]

/-! ### How a buffer is cut -/

theorem segments_unit {littlep : Bool} {a b : UInt8} (rest : List UInt8)
    (h : unit16 littlep a b < 0xD800 ∨ 0xDFFF < unit16 littlep a b) :
    segments littlep (a :: b :: rest) = .unit a b :: segments littlep rest := by
  rw [segments.eq_def]
  exact if_pos h

theorem segments_pair {littlep : Bool} {a b : UInt8} (c d : UInt8) (rest : List UInt8)
    (h : ¬ (unit16 littlep a b < 0xD800 ∨ 0xDFFF < unit16 littlep a b)) :
    segments littlep (a :: b :: c :: d :: rest) = .pair a b c d :: segments littlep rest := by
  rw [segments, if_neg h]

theorem segments_bytes (littlep : Bool) (l : List UInt8) :
    (segments littlep l).flatMap Segment.bytes = l := by
  fun_induction segments littlep l <;> simp_all [Segment.bytes]

theorem segments_length_le (littlep : Bool) (l : List UInt8) :
    (segments littlep l).length ≤ l.length := by
  fun_induction segments littlep l <;> simp_all <;> omega

theorem segments_of_mem {littlep : Bool} {l : List UInt8} {seg : Segment}
    (h : seg ∈ segments littlep l) : segments littlep seg.bytes = [seg] := by
  fun_induction segments littlep l with
  | case1 => cases h
  | case2 a =>
    rw [mem_singleton.1 h]
    rfl
  | case3 a b rest hunit ih =>
    obtain rfl | h := mem_cons.1 h
    · exact segments_unit [] hunit
    · exact ih h
  | case4 a b hunit | case5 a b hunit c =>
    rw [mem_singleton.1 h, Segment.bytes, segments, if_neg hunit]
  | case6 a b hunit c d rest ih =>
    obtain rfl | h := mem_cons.1 h
    · exact segments_pair c d [] hunit
    · exact ih h

/-- **Well-formed buffers** are those whose segments are well formed. -/
theorem wellFormedUtf16_iff (littlep : Bool) (l : List UInt8) :
    WellFormedUtf16 littlep l ↔ ∀ seg ∈ segments littlep l, seg.Right littlep := by
  constructor
  · intro h
    induction h with
    | nil => nofun
    | @unit a b rest hhigh hlow _ ih =>
      have hunit : unit16 littlep a b < 0xD800 ∨ 0xDFFF < unit16 littlep a b := by
        simp only [IsHigh, IsLow] at hhigh hlow
        omega
      rw [segments_unit rest hunit]
      exact forall_mem_cons.2 ⟨trivial, ih⟩
    | @pair a b c d rest hhigh hlow _ ih =>
      have hunit : ¬ (unit16 littlep a b < 0xD800 ∨ 0xDFFF < unit16 littlep a b) := by
        simp only [IsHigh] at hhigh
        omega
      rw [segments_pair c d rest hunit]
      exact forall_mem_cons.2 ⟨⟨hhigh, hlow⟩, ih⟩
  · fun_induction segments littlep l with
    | case1 => exact fun _ => .nil
    | case3 a b rest hunit ih =>
      intro h
      refine .unit ?_ ?_ (ih (forall_mem_cons.1 h).2) <;> simp only [IsHigh, IsLow] <;> omega
    | case2 a | case4 a b hunit | case5 a b hunit c => exact fun h => (h _ mem_cons_self).elim
    | case6 a b hunit c d rest ih =>
      intro h
      obtain ⟨⟨hhigh, hlow⟩, h⟩ := forall_mem_cons.1 h
      exact .pair hhigh hlow (ih h)

/-! ### The decoder on a segment -/

section

variable {σ : Type} {R : ByteReader σ} {view : σ → List UInt8} {endian : Endianness}
  {mode : ErrorHandlingMode} {ctx : Utf16Ctx σ}

theorem utf16Second_pair (h : R.Streams view) {littlep : Bool} {val1 : ℕ} {s : σ} {c d : UInt8}
    {rest : List UInt8} (hval1 : ¬ (val1 < 0xD800 ∨ 0xDFFF < val1))
    (hs : view s = c :: d :: rest) :
    ∃ s', view s' = rest ∧ utf16Second R littlep val1 s =
      (if Refused val1 (unit16 littlep c d) then none
        else some (pairWeight val1 (unit16 littlep c d) + 0x2400), s') := by
  obtain ⟨s₁, hg₁, hs⟩ := h.get_cons hs
  obtain ⟨s₂, hg₂, hs⟩ := h.get_cons hs
  refine ⟨s₂, hs, ?_⟩
  simp only [utf16Second, if_neg hval1, hg₁, hg₂]
  rw [show (((val1 - 0xD800) <<< 10 : ℕ) + ((unit16 littlep c d : ℤ) - 0xDC00) + 0x010000 : ℤ) =
      (pairWeight val1 (unit16 littlep c d) + 0x2400 : ℕ) by
    rw [Nat.shiftLeft_eq, pairWeight]
    omega]
  by_cases hr : Refused val1 (unit16 littlep c d)
  · rw [if_pos hr, if_pos (by simp only [Refused] at hr; omega)]
  · rw [if_neg hr, if_neg (by simp only [Refused] at hr; omega), Int.toNat_natCast]

theorem utf16Second_cut (h : R.Streams view) (littlep : Bool) {val1 : ℕ} {s : σ}
    (hval1 : ¬ (val1 < 0xD800 ∨ 0xDFFF < val1)) (hs : (view s).length < 2) :
    ∃ s', view s' = [] ∧ utf16Second R littlep val1 s = (none, s') := by
  simp only [utf16Second, if_neg hval1]
  cases hview : view s with
  | nil =>
    obtain ⟨s₁, hg₁, hs₁⟩ := h.get_nil hview
    exact ⟨s₁, hs₁, by simp only [hg₁]⟩
  | cons c l =>
    rw [hview, length_cons] at hs
    obtain rfl : l = [] := eq_nil_of_length_eq_zero (by omega)
    obtain ⟨s₁, hg₁, hs₁⟩ := h.get_cons hview
    obtain ⟨s₂, hg₂, hs₂⟩ := h.get_nil hs₁
    exact ⟨s₂, hs₂, by simp only [hg₁, hg₂]⟩

/-- What a call of the decoder comes to, for a segment that was read. -/
def readSegment (R : ByteReader σ) (endian : Endianness) (mode : ErrorHandlingMode) (n : ℕ)
    (ctx : Utf16Ctx σ) (c : Option SgChar) : Option (Read × Utf16Ctx σ) :=
  match c with
  | some c => some (.char c, ctx)
  | none => decodeError mode ctx (utf16Reader R endian mode n ctx)

theorem utf16Reader_two (hendian : endian ≠ .utf16CheckBom) (n : ℕ) {a b : UInt8} {s₁ s₂ s₃ : σ}
    {r : Option SgChar} (hg₁ : R.get ctx.data = (some a, s₁)) (hg₂ : R.get s₁ = (some b, s₂))
    (hsecond : utf16Second R ctx.littlep (unit16 ctx.littlep a b) s₂ = (r, s₃)) :
    utf16Reader R endian mode (n + 1) ctx =
      readSegment R endian mode n { ctx with data := s₃ } r := by
  have hcheck : (ctx.checkBOMNow && endian == .utf16CheckBom) = false := by simp [hendian]
  simp only [utf16Reader, hg₁, hg₂, hcheck, Bool.false_and, Bool.false_eq_true, if_false, hsecond]
  cases r <;> rfl

/-- **One call of the decoder takes one segment.** -/
theorem utf16Reader_segment (h : R.Streams view) (mode : ErrorHandlingMode)
    (hendian : endian ≠ .utf16CheckBom) (n : ℕ) {seg : Segment} {segs : List Segment}
    (hs : segments ctx.littlep (view ctx.data) = seg :: segs) :
    ∃ s', segments ctx.littlep (view s') = segs ∧ utf16Reader R endian mode (n + 1) ctx =
      readSegment R endian mode n { ctx with data := s' } (seg.char ctx.littlep) := by
  match hview : view ctx.data with
  | [] => rw [hview] at hs; cases hs
  | [a] =>
    rw [hview] at hs
    obtain ⟨rfl, rfl⟩ := cons.inj hs
    obtain ⟨s₁, hg₁, hs₁⟩ := h.get_cons hview
    obtain ⟨s₂, hg₂, hs₂⟩ := h.get_nil hs₁
    refine ⟨s₂, by rw [hs₂]; rfl, ?_⟩
    simp only [utf16Reader, hg₁, hg₂]
    rfl
  | a :: b :: rest =>
    obtain ⟨s₁, hg₁, hs₁⟩ := h.get_cons hview
    obtain ⟨s₂, hg₂, hs₂⟩ := h.get_cons hs₁
    rw [hview] at hs
    by_cases hunit : unit16 ctx.littlep a b < 0xD800 ∨ 0xDFFF < unit16 ctx.littlep a b
    · rw [segments_unit rest hunit] at hs
      obtain ⟨rfl, rfl⟩ := cons.inj hs
      have hsecond : utf16Second R ctx.littlep (unit16 ctx.littlep a b) s₂ =
          (some (unit16 ctx.littlep a b), s₂) := if_pos hunit
      exact ⟨s₂, by rw [hs₂], utf16Reader_two hendian n hg₁ hg₂ hsecond⟩
    · match rest with
      | c :: d :: rest =>
        rw [segments_pair c d rest hunit] at hs
        obtain ⟨rfl, rfl⟩ := cons.inj hs
        obtain ⟨s₃, hs₃, hsecond⟩ := utf16Second_pair h hunit hs₂
        exact ⟨s₃, by rw [hs₃], utf16Reader_two hendian n hg₁ hg₂ hsecond⟩
      | [] | [c] =>
        rw [segments, if_neg hunit] at hs
        obtain ⟨rfl, rfl⟩ := cons.inj hs
        obtain ⟨s₃, hs₃, hsecond⟩ := utf16Second_cut h ctx.littlep hunit (by rw [hs₂]; simp)
        exact ⟨s₃, by rw [hs₃]; rfl, utf16Reader_two hendian n hg₁ hg₂ hsecond⟩

theorem utf16Reader_nil (h : R.Streams view) (endian : Endianness) (mode : ErrorHandlingMode)
    (n : ℕ) (hs : view ctx.data = []) :
    ∃ s', view s' = [] ∧
      utf16Reader R endian mode (n + 1) ctx = some (.eof, { ctx with data := s' }) := by
  obtain ⟨s₁, hg₁, hs₁⟩ := h.get_nil hs
  obtain ⟨s₂, hg₂, hs₂⟩ := h.get_nil hs₁
  exact ⟨s₂, hs₂, by simp only [utf16Reader, hg₁, hg₂]⟩

/-! ### The decoder on a buffer -/

theorem eq_nil_of_segments {littlep : Bool} {l : List UInt8} (h : segments littlep l = []) :
    l = [] := by
  have := segments_bytes littlep l
  rw [h] at this
  exact this.symm

/-- The decoder on a buffer takes one segment for every character, up to the first error that is
raised; `o` is what comes out for a segment. -/
theorem bufferConvertor_segments (h : R.Streams view) (hendian : endian ≠ .utf16CheckBom) (n : ℕ)
    {o : Segment → Option SgChar} (ho : ∀ ctx' seg,
      readSegment R endian mode n ctx' (seg.char ctx.littlep) =
        some ((o seg).elim .raised .char, ctx')) (size : ℕ) {segs : List Segment}
    (hs : segments ctx.littlep (view ctx.data) = segs) :
    ∃ s', bufferConvertor (utf16Reader R endian mode (n + 1)) size ctx =
        some ((segs.take size).mapM o, { ctx with data := s' }) ∧
      ((∀ seg, o seg ≠ none) → view s' = (segs.drop size).flatMap Segment.bytes) := by
  induction size generalizing ctx segs with
  | zero => exact ⟨ctx.data, rfl, fun _ => by rw [← hs]; exact (segments_bytes _ _).symm⟩
  | succ size ih =>
    cases segs with
    | nil =>
      obtain ⟨s', hs', hread⟩ := utf16Reader_nil h endian mode n (eq_nil_of_segments hs)
      exact ⟨s', by rw [bufferConvertor, hread]; rfl, fun _ => hs'⟩
    | cons seg segs =>
      obtain ⟨s₁, hs₁, hread⟩ := utf16Reader_segment h mode hendian n hs
      obtain ⟨s', hrest, hs'⟩ := @ih { ctx with data := s₁ } ho segs hs₁
      rw [bufferConvertor, hread, ho]
      cases hc : o seg with
      | none => exact ⟨s₁, by simp [hc], fun hall => absurd hc (hall seg)⟩
      | some c =>
        refine ⟨s', ?_, hs'⟩
        simp only [elim_some, hrest, take_succ_cons, mapM_cons, hc]
        cases (segs.take size).mapM o <;> rfl

end

/-! ### When the decoder is exact -/

/-- The codec of one byte order. -/
def utf16Codec (littlep : Bool) : BuiltinCodec :=
  sgMakeUtf16Codec (if littlep then .utf16Le else .utf16Be)

/-- The concatenated outputs of `Sg_ConvertUcs4ToUtf16`. -/
def encodeAllUtf16 (littlep : Bool) (s : List SgChar) : Option (List UInt8) :=
  (s.mapM fun c => sgConvertUcs4ToUtf16 c .raise littlep).map flatten

/-- The buffer is decoded exactly. -/
structure Utf16Exact (littlep checkBOM : Bool) (bytes : List UInt8) : Prop where
  /-- Decoding that raises errors succeeds for well-formed buffers and gives them back when the
  characters are encoded again. -/
  raises : ∀ size ≥ bytes.length, ∃ result ctx,
    sgConvertUtf16BufferToUcs4 (utf16Codec littlep) bytes size .raise checkBOM =
      some (result, ctx) ∧
    (result.isSome ↔ WellFormedUtf16 littlep bytes) ∧
    ∀ chars, result = some chars → encodeAllUtf16 littlep chars = some bytes
  /-- When errors are replaced and `w` are the bytes read for the character after the first
  `size`, then it is U+FFFD unless they are well formed. -/
  replaces : ∀ size chars c ctx ctx' w,
    sgConvertUtf16BufferToUcs4 (utf16Codec littlep) bytes size .replace checkBOM =
      some (some chars, ctx) →
    sgConvertUtf16BufferToUcs4 (utf16Codec littlep) bytes (size + 1) .replace checkBOM =
      some (some (chars ++ [c]), ctx') →
    bytes.drop ctx.data = w ++ bytes.drop ctx'.data →
    ¬ WellFormedUtf16 littlep w → c = 0xFFFD

/-- A surrogate stands before a unit only if the two are a high and a low surrogate, or their
number is no character or U+FFFD; and if it is U+FFFD, then something else is refused. -/
structure PairsFit (littlep : Bool) (bytes : List UInt8) : Prop where
  pairs : ∀ seg ∈ segments littlep bytes,
    seg.Right littlep ∨ seg.IsRefused littlep ∨ seg.LooksReplaced littlep
  replaced : (∃ seg ∈ segments littlep bytes, seg.LooksReplaced littlep) →
    ∃ seg ∈ segments littlep bytes, seg.IsRefused littlep

section

variable {littlep checkBOM : Bool} {bytes : List UInt8}

@[simp] theorem utf16Codec_littlep (littlep : Bool) : (utf16Codec littlep).littlep = littlep := by
  cases littlep <;> rfl

theorem utf16Codec_endian (littlep : Bool) : (utf16Codec littlep).endian ≠ .utf16CheckBom := by
  cases littlep <;> nofun

theorem mapM_char_isSome (littlep : Bool) (segs : List Segment) :
    (segs.mapM (Segment.char littlep)).isSome ↔ ∀ seg ∈ segs, ¬ seg.IsRefused littlep := by
  induction segs with
  | nil => simp
  | cons seg segs ih =>
    rw [forall_mem_cons, ← ih, ← Segment.char_eq_none_iff, mapM_cons]
    cases seg.char littlep <;> cases segs.mapM (Segment.char littlep) <;> simp

theorem mapM_char_of_right {segs : List Segment} (h : ∀ seg ∈ segs, seg.Right littlep) :
    ∃ chars, segs.mapM (Segment.char littlep) = some chars ∧
      encodeAllUtf16 littlep chars = some (segs.flatMap Segment.bytes) := by
  induction segs with
  | nil => exact ⟨[], rfl, rfl⟩
  | cons seg segs ih =>
    obtain ⟨hseg, h⟩ := forall_mem_cons.1 h
    obtain ⟨c, hc, hbytes⟩ := hseg.encoded
    obtain ⟨chars, hchars, hrest⟩ := ih h
    refine ⟨c :: chars, by simp [hc, hchars], ?_⟩
    obtain ⟨parts, hparts, hflat⟩ := map_eq_some_iff.1 hrest
    simp [encodeAllUtf16, hbytes, hparts, hflat]

theorem Segment.Right.not_isRefused {seg : Segment} (h : seg.Right littlep) :
    ¬ seg.IsRefused littlep := by
  obtain ⟨c, hc, -⟩ := h.encoded
  rw [← seg.char_eq_none_iff, hc]
  nofun

theorem Segment.LooksReplaced.not_right {seg : Segment} (h : seg.LooksReplaced littlep) :
    ¬ seg.Right littlep := by
  cases seg with
  | unit a b => exact h.elim
  | pair a b c d => exact h.1
  | cut w => exact h.elim

/-- An ill-formed segment comes out as U+FFFD if it is refused, or by chance. -/
theorem Segment.getD_char_iff {seg : Segment} (h : ¬ seg.Right littlep) :
    (seg.char littlep).getD 0xFFFD = 0xFFFD ↔
      seg.IsRefused littlep ∨ seg.LooksReplaced littlep := by
  cases seg with
  | unit a b => exact (h trivial).elim
  | cut w => simp [Segment.char, Segment.IsRefused]
  | pair a b c d =>
    have hpair : ¬ (IsHigh (unit16 littlep a b) ∧ IsLow (unit16 littlep c d)) := h
    simp only [Segment.char, Segment.IsRefused, Segment.LooksReplaced, hpair, not_false_eq_true,
      true_and]
    split_ifs with hr
    · simp [hr]
    · simp only [hr, false_or, getD_some]
      exact Nat.add_left_inj

section

variable (littlep checkBOM : Bool)

theorem sgConvertUtf16BufferToUcs4_raise {size : ℕ} (hsize : bytes.length ≤ size) :
    ∃ ctx, sgConvertUtf16BufferToUcs4 (utf16Codec littlep) bytes size .raise checkBOM =
      some ((segments littlep bytes).mapM (Segment.char littlep), ctx) := by
  obtain ⟨pos, hrun, -⟩ := @bufferConvertor_segments ℕ _ _ _ .raise
    ⟨(utf16Codec littlep).littlep, checkBOM, 0⟩ (bufferU8Reader_streams bytes)
    (utf16Codec_endian littlep) bytes.length (Segment.char littlep)
    (fun _ seg => by rw [utf16Codec_littlep]; cases seg.char littlep <;> rfl) size
    (segments littlep bytes) (by simp)
  rw [take_of_length_le ((segments_length_le littlep bytes).trans hsize)] at hrun
  exact ⟨_, hrun⟩

theorem sgConvertUtf16BufferToUcs4_replace (bytes : List UInt8) (size : ℕ) :
    ∃ pos, bytes.drop pos = ((segments littlep bytes).drop size).flatMap Segment.bytes ∧
      sgConvertUtf16BufferToUcs4 (utf16Codec littlep) bytes size .replace checkBOM =
      some (some (((segments littlep bytes).take size).map
        fun seg => (seg.char littlep).getD 0xFFFD), ⟨littlep, checkBOM, pos⟩) := by
  obtain ⟨pos, hrun, hpos⟩ := @bufferConvertor_segments ℕ _ _ _ .replace
    ⟨(utf16Codec littlep).littlep, checkBOM, 0⟩ (bufferU8Reader_streams bytes)
    (utf16Codec_endian littlep) bytes.length (fun seg => pure ((seg.char littlep).getD 0xFFFD))
    (fun _ seg => by rw [utf16Codec_littlep]; cases seg.char littlep <;> rfl) size
    (segments littlep bytes) (by simp)
  refine ⟨pos, hpos fun _ => some_ne_none _, ?_⟩
  rw [mapM_pure] at hrun
  simpa [sgConvertUtf16BufferToUcs4] using hrun

end

theorem Utf16Exact.right_of_accepted (h : Utf16Exact littlep checkBOM bytes)
    (hno : ∀ seg ∈ segments littlep bytes, ¬ seg.IsRefused littlep) :
    ∀ seg ∈ segments littlep bytes, seg.Right littlep := by
  obtain ⟨result, ctx, hrun, hsome, -⟩ := h.raises bytes.length le_rfl
  obtain ⟨ctx', hrun'⟩ := sgConvertUtf16BufferToUcs4_raise littlep checkBOM (le_refl bytes.length)
  obtain ⟨rfl, -⟩ := Prod.mk.inj (some.inj (hrun.symm.trans hrun'))
  rw [← wellFormedUtf16_iff]
  exact hsome.1 ((mapM_char_isSome ..).2 hno)

theorem wellFormedUtf16_bytes_iff {seg : Segment} (h : seg ∈ segments littlep bytes) :
    WellFormedUtf16 littlep seg.bytes ↔ seg.Right littlep := by
  rw [wellFormedUtf16_iff, segments_of_mem h, forall_mem_singleton]

theorem Utf16Exact.replaced (h : Utf16Exact littlep checkBOM bytes) {seg : Segment}
    (hseg : seg ∈ segments littlep bytes) (hright : ¬ seg.Right littlep) :
    (seg.char littlep).getD 0xFFFD = 0xFFFD := by
  obtain ⟨size, hsize, rfl⟩ := getElem_of_mem hseg
  obtain ⟨pos, hpos, hrun⟩ := sgConvertUtf16BufferToUcs4_replace littlep checkBOM bytes size
  obtain ⟨pos', hpos', hrun'⟩ :=
    sgConvertUtf16BufferToUcs4_replace littlep checkBOM bytes (size + 1)
  rw [take_succ_eq_append_getElem hsize, map_append] at hrun'
  refine h.replaces size _ _ _ _ _ hrun hrun' ?_ (mt (wellFormedUtf16_bytes_iff hseg).1 hright)
  rw [hpos, hpos', drop_eq_getElem_cons hsize, flatMap_cons]

theorem utf16Exact_of_segments (hraise : (∀ seg ∈ segments littlep bytes, ¬ seg.IsRefused littlep) →
      ∀ seg ∈ segments littlep bytes, seg.Right littlep)
    (hreplace : ∀ seg ∈ segments littlep bytes, ¬ seg.Right littlep →
      (seg.char littlep).getD 0xFFFD = 0xFFFD) : Utf16Exact littlep checkBOM bytes := by
  refine ⟨fun size hsize => ?_, fun size chars c ctx ctx' w hrun hrun' hw hill => ?_⟩
  · obtain ⟨ctx, hrun⟩ := sgConvertUtf16BufferToUcs4_raise littlep checkBOM hsize
    have hsome : ((segments littlep bytes).mapM (Segment.char littlep)).isSome ↔
        WellFormedUtf16 littlep bytes := by
      rw [mapM_char_isSome, wellFormedUtf16_iff]
      exact ⟨hraise, fun h' seg hseg => (h' seg hseg).not_isRefused⟩
    refine ⟨_, ctx, hrun, hsome, fun chars hchars => ?_⟩
    have hright := (wellFormedUtf16_iff littlep bytes).1 (hsome.1 (by rw [hchars]; rfl))
    obtain ⟨chars', hchars', hbytes⟩ := mapM_char_of_right hright
    rw [segments_bytes] at hbytes
    rwa [some.inj (hchars.symm.trans hchars')]
  · obtain ⟨pos, hpos, hrep⟩ := sgConvertUtf16BufferToUcs4_replace littlep checkBOM bytes size
    obtain ⟨pos', hpos', hrep'⟩ :=
      sgConvertUtf16BufferToUcs4_replace littlep checkBOM bytes (size + 1)
    obtain ⟨hchars, rfl⟩ := Prod.mk.inj (some.inj (hrep.symm.trans hrun))
    obtain ⟨hchars', rfl⟩ := Prod.mk.inj (some.inj (hrep'.symm.trans hrun'))
    by_cases hsize : size < (segments littlep bytes).length
    · have hseg := getElem_mem hsize
      rw [take_succ_eq_append_getElem hsize, map_append, ← some.inj hchars]
        at hchars'
      have hc := append_cancel_left (some.inj hchars')
      rw [hpos, hpos', drop_eq_getElem_cons hsize, flatMap_cons] at hw
      rw [← append_cancel_right hw] at hill
      rw [← singleton_inj.1 hc]
      exact hreplace _ hseg (mt (wellFormedUtf16_bytes_iff hseg).2 hill)
    · -- then both runs read all of the buffer
      rw [take_of_length_le (by omega)] at hchars hchars'
      have := congrArg length (some.inj (hchars.symm.trans hchars'))
      simp at this

end

/-- **The decoder is exact exactly for the buffers whose pairs fit.** -/
theorem utf16_exact_iff (littlep checkBOM : Bool) (bytes : List UInt8) :
    Utf16Exact littlep checkBOM bytes ↔ PairsFit littlep bytes := by
  constructor
  · intro h
    refine ⟨fun seg hseg => ?_, fun ⟨seg, hseg, hlooks⟩ => ?_⟩
    · by_cases hright : seg.Right littlep
      · exact .inl hright
      · exact .inr ((Segment.getD_char_iff hright).1 (h.replaced hseg hright))
    · by_contra hno
      refine hlooks.not_right (h.right_of_accepted (fun seg' hseg' hrefused => hno ?_) seg hseg)
      exact ⟨seg', hseg', hrefused⟩
  · rintro ⟨hpairs, hlooks⟩
    refine utf16Exact_of_segments (fun hno seg hseg => ?_) fun seg hseg hright => ?_
    · obtain hright | hrefused | hreplaced := hpairs seg hseg
      · exact hright
      · exact (hno seg hseg hrefused).elim
      · obtain ⟨seg', hseg', hrefused⟩ := hlooks ⟨seg, hseg, hreplaced⟩
        exact (hno seg' hseg' hrefused).elim
    · exact (Segment.getD_char_iff hright).2 ((hpairs seg hseg).resolve_left hright)

/-- A high surrogate before the letter A is decoded to U+2441, where an error should be raised. -/
theorem surrogate_joins_letter :
    let buf : List UInt8 := [0xD8, 0x00, 0x00, 0x41]
    (sgConvertUtf16BufferToUcs4 (utf16Codec false) buf 4 .raise false).map Prod.fst =
      some (some [0x2441]) ∧ ¬ WellFormedUtf16 false buf ∧ ¬ Utf16Exact false false buf := by
  intro buf
  have hrun : (sgConvertUtf16BufferToUcs4 (utf16Codec false) buf 4 .raise false).map Prod.fst =
      some (some [0x2441]) := by decide
  have hill : ¬ WellFormedUtf16 false buf := by
    intro h
    unfold buf at h
    cases h with
    | unit hhigh => exact hhigh (by decide)
    | pair _ hlow => exact absurd hlow (by decide)
  refine ⟨hrun, hill, fun h => ?_⟩
  obtain ⟨result, ctx, hres, hsome, -⟩ := h.raises 4 le_rfl
  rw [hres] at hrun
  obtain rfl : result = some [0x2441] := some.inj hrun
  exact hill (hsome.1 rfl)

end Sagittarius.Text
