import Sagittarius.Text.Transcoder
import Sagittarius.Text.Utf16

/-!
# The writers of the codecs

`write_utf8`, `write_utf16`, `write_utf32` and `write_latin1` of `codec.c` collect the encoded
characters of a string in a buffer of `TMP_BUF_SIZE` bytes, which is flushed when there is little
room left.

* `writeLoop` : the loop they share, with the number of bytes from which on the buffer is flushed;
* `writeLoop_of_fits` : the loop writes what it should as long as every character fits;
* `writer_right_iff` : **the writers stay inside the buffer**, but for `write_utf16`, which flushes
  only a full buffer: a character of four bytes after 1022 is stored across the end.
-/

namespace Sagittarius.Text

open List

/-! ### The source -/

/-- The mark that `PUT_BOM` writes. -/
def bom (codec : BuiltinCodec) (port : OutPort) : List UInt8 :=
  if port.position == 0 && codec.endian == .utf16CheckBom then
    if codec.littlep then [0xff, 0xfe] else [0xfe, 0xff]
  else []

/-- Writes through a buffer. -/
def writeUtf16 (codec : BuiltinCodec) (mode : ErrorHandlingMode) (str : List SgChar)
    (port : OutPort) : Written :=
  writeLoop (sgConvertUcs4ToUtf16 · mode codec.littlep) tmpBufSize str []
    (port.writeb (bom codec port))

/-- Four bytes, in spite of its name. -/
def charToUtf8Array (codec : BuiltinCodec) (u : SgChar) : List UInt8 :=
  if codec.endian == .utf32Le then
    [.ofNat u, .ofNat (u >>> 8), .ofNat (u >>> 16), .ofNat (u >>> 24)]
  else [.ofNat (u >>> 24), .ofNat (u >>> 16), .ofNat (u >>> 8), .ofNat u]

/-- Writes the characters. -/
def writeUtf32 (codec : BuiltinCodec) (s : List SgChar) (port : OutPort) : Written :=
  writeLoop (fun c => some (charToUtf8Array codec c)) tmpBufSize s [] port

/-- One byte, if it fits. -/
def convertLatin1 (c : SgChar) (mode : ErrorHandlingMode) : Option (List UInt8) :=
  if c ≤ 0xFF then some [.ofNat c]
  else
    match mode with
    | .raise => none
    | .replace => some [0x3f]
    | .ignore => some []

/-- Writes through a buffer. -/
def writeLatin1 (mode : ErrorHandlingMode) (s : List SgChar) (port : OutPort) : Written :=
  writeLoop (convertLatin1 · mode) tmpBufSize s [] port

/-! ### What a writer is for -/

/-- The codecs with a writer of their own. -/
inductive Writer
  | utf8
  | utf16 (codec : BuiltinCodec)
  | utf32 (codec : BuiltinCodec)
  | latin1

/-- The writer of the source. -/
def Writer.write (w : Writer) (mode : ErrorHandlingMode) (s : List SgChar) (port : OutPort) :
    Written :=
  match w with
  | .utf8 => writeUtf8 mode s port
  | .utf16 codec => writeUtf16 codec mode s port
  | .utf32 codec => writeUtf32 codec s port
  | .latin1 => writeLatin1 mode s port

/-- The encoding of a character. -/
def Writer.encode (w : Writer) (mode : ErrorHandlingMode) (c : SgChar) : Option (List UInt8) :=
  match w with
  | .utf8 => sgConvertUcs4ToUtf8 c mode
  | .utf16 codec => sgConvertUcs4ToUtf16 c mode codec.littlep
  | .utf32 codec => some (charToUtf8Array codec c)
  | .latin1 => convertLatin1 c mode

/-- The byte order mark before the characters. -/
def Writer.mark (w : Writer) (port : OutPort) : List UInt8 :=
  match w with
  | .utf16 codec => bom codec port
  | _ => []

/-- The outcome is that the encodings of all characters are written after `mark`, or an error if
a character has none. -/
def WritesAll (encode : SgChar → Option (List UInt8)) (mark : List UInt8) (s : List SgChar)
    (port : OutPort) (out : Written) : Prop :=
  match s.mapM encode with
  | some parts => out = .done (port.writeb (mark ++ parts.flatten))
  | none => ∃ port', out = .raised port'

/-- The number of bytes of a string in UTF-16. -/
def utf16Length (s : List Char) : ℕ := (s.map fun c => if c.toNat < 0x10000 then 2 else 4).sum

/-- No character of four bytes comes when there is room for two in the buffer. -/
def Aligned (s : List Char) : Prop :=
  ∀ before c after, s = before ++ c :: after → 0x10000 ≤ c.toNat →
    utf16Length before % tmpBufSize ≠ tmpBufSize - 2

/-- What a string must be to be written with a writer. -/
def Writer.Fits (w : Writer) (s : List Char) : Prop :=
  match w with
  | .utf16 _ => Aligned s
  | _ => True

/-! ### The loop -/

@[simp] theorem OutPort.writeb_nil (port : OutPort) : port.writeb [] = port := by
  simp [OutPort.writeb]

theorem OutPort.writeb_append (port : OutPort) (a b : List UInt8) :
    (port.writeb a).writeb b = port.writeb (a ++ b) := by
  simp [OutPort.writeb, Nat.add_assoc]

section

variable {convert : SgChar → Option (List UInt8)} {limit : ℕ}

theorem writeLoop_nil (tmp : List UInt8) (port : OutPort) :
    writeLoop convert limit [] tmp port = .done (port.writeb tmp) := by
  rw [writeLoop]
  cases tmp with
  | nil | cons b tmp => simp

variable {s : List SgChar} {tmp : List UInt8}

theorem WritesAll.cons {c : SgChar} {w tmp' : List UInt8}
    {port port' : OutPort} {out : Written} (hc : convert c = some w)
    (hport : port'.writeb tmp' = port.writeb (tmp ++ w)) (h : WritesAll convert tmp' s port' out) :
    WritesAll convert tmp (c :: s) port out := by
  rw [WritesAll] at h ⊢
  rw [mapM_cons, hc]
  cases hs : s.mapM convert with
  | none =>
    rw [hs] at h
    exact h
  | some parts =>
    rw [hs] at h
    refine h.trans ?_
    rw [← OutPort.writeb_append, hport, OutPort.writeb_append]
    simp

theorem WritesAll.ne_overflow {port : OutPort} {out : Written}
    (h : WritesAll convert tmp s port out) : out ≠ .overflow := by
  rw [WritesAll] at h
  split at h
  · rw [h]
    nofun
  · obtain ⟨port', rfl⟩ := h
    nofun

theorem writeLoop_cons {c : SgChar} {w : List UInt8} (port : OutPort)
    (hc : convert c = some w) (hle : tmp.length + w.length ≤ tmpBufSize) :
    writeLoop convert limit (c :: s) tmp port =
      if limit ≤ tmp.length + w.length then writeLoop convert limit s [] (port.writeb (tmp ++ w))
      else writeLoop convert limit s (tmp ++ w) port := by
  rw [writeLoop]
  simp only [hc, length_append]
  exact if_neg (Nat.not_lt.2 hle)

/-- **The loop writes all characters** if each of them fits where the buffer is as full as `Room`
says. -/
theorem writeLoop_of_fits (Room : ℕ → Prop) (hzero : Room 0)
    (hfits : ∀ n c w, Room n → convert c = some w → n + w.length ≤ tmpBufSize ∧
      (n + w.length < limit → Room (n + w.length)))
    (s : List SgChar) (htmp : Room tmp.length) (port : OutPort) :
    WritesAll convert tmp s port (writeLoop convert limit s tmp port) := by
  induction s generalizing tmp port with
  | nil =>
    change writeLoop convert limit [] tmp port = .done (port.writeb (tmp ++ []))
    rw [writeLoop_nil, append_nil]
  | cons c s ih =>
    cases hc : convert c with
    | none => simp [WritesAll, writeLoop, hc]
    | some w =>
      obtain ⟨hle, hroom⟩ := hfits _ c w htmp hc
      rw [writeLoop_cons port hc hle]
      split_ifs with hfull
      · exact .cons hc (OutPort.writeb_nil _) (ih (show Room ([] : List UInt8).length from hzero) _)
      · refine .cons hc rfl (ih ?_ _)
        rw [length_append]
        exact hroom (by omega)

end

/-! ### The writers with room to spare -/

theorem length_sgConvertUcs4ToUtf8 {c : SgChar} {mode : ErrorHandlingMode} {w : List UInt8}
    (h : sgConvertUcs4ToUtf8 c mode = some w) : w.length ≤ 4 := by
  unfold sgConvertUcs4ToUtf8 at h
  split_ifs at h
  on_goal 5 => cases mode
  all_goals cases h
  all_goals simp

variable (mode : ErrorHandlingMode)

theorem writeUtf8_right (s : List SgChar) (port : OutPort) :
    WritesAll (sgConvertUcs4ToUtf8 · mode) [] s port (writeUtf8 mode s port) := by
  refine writeLoop_of_fits (fun n => n < tmpBufSize - maxUtf8Size) (by decide) ?_ s
    (by decide) port
  intro n c w hn hw
  have := length_sgConvertUcs4ToUtf8 hw
  simp only [tmpBufSize, maxUtf8Size] at *
  omega

theorem writeUtf32_right (codec : BuiltinCodec) (s : List SgChar) (port : OutPort) :
    WritesAll (fun c => some (charToUtf8Array codec c)) [] s port (writeUtf32 codec s port) := by
  refine writeLoop_of_fits (fun n => n < tmpBufSize ∧ n % 4 = 0) (by decide) ?_ s
    (by decide) port
  intro n c w hn hw
  have hlen : w.length = 4 := by
    rw [← Option.some.inj hw, charToUtf8Array]
    split_ifs <;> rfl
  simp only [tmpBufSize] at *
  omega

theorem writeLatin1_right (s : List SgChar) (port : OutPort) :
    WritesAll (convertLatin1 · mode) [] s port (writeLatin1 mode s port) := by
  refine writeLoop_of_fits (fun n => n < tmpBufSize) (by decide) ?_ s (by decide) port
  intro n c w hn hw
  have hlen : w.length ≤ 1 := by
    unfold convertLatin1 at hw
    split_ifs at hw
    · cases hw
      simp
    · cases mode <;> cases hw <;> simp
  omega

/-! ### The writer of UTF-16 -/

theorem sgConvertUcs4ToUtf16_char (c : Char) (mode : ErrorHandlingMode) (littlep : Bool) :
    ∃ w, sgConvertUcs4ToUtf16 c.toNat mode littlep = some w ∧
      w.length = if c.toNat < 0x10000 then 2 else 4 := by
  have hc : c.toNat < 0xd800 ∨ 0xdfff < c.toNat ∧ c.toNat < 0x110000 := c.valid
  have hle : ¬ c.toNat > 0x10FFFF := by omega
  have hput : ∀ x, (put2byte littlep x).length = 2 := by
    intro x
    cases littlep <;> rfl
  simp only [sgConvertUcs4ToUtf16, if_neg hle]
  split_ifs with hbmp
  · exact ⟨_, rfl, hput _⟩
  · exact ⟨_, rfl, by rw [length_append, hput, hput]⟩

/-- `Aligned`, after `p` bytes. -/
def AlignedFrom (p : ℕ) (s : List Char) : Prop :=
  ∀ before c after, s = before ++ c :: after → 0x10000 ≤ c.toNat →
    (p + utf16Length before) % tmpBufSize ≠ tmpBufSize - 2

theorem alignedFrom_cons {p : ℕ} {c : Char} {s : List Char} :
    AlignedFrom p (c :: s) ↔ (0x10000 ≤ c.toNat → p % tmpBufSize ≠ tmpBufSize - 2) ∧
      AlignedFrom (p + if c.toNat < 0x10000 then 2 else 4) s := by
  constructor
  · intro h
    refine ⟨h [] c s rfl, fun before d after hs hd => ?_⟩
    have := h (c :: before) d after (by rw [hs]; rfl) hd
    rwa [utf16Length, map_cons, sum_cons, ← utf16Length, ← Nat.add_assoc] at this
  · rintro ⟨hc, h⟩ before d after hs hd
    cases before with
    | nil =>
      obtain ⟨rfl, -⟩ := List.cons.inj hs
      exact hc hd
    | cons x before =>
      obtain ⟨rfl, hs'⟩ := List.cons.inj hs
      rw [utf16Length, map_cons, sum_cons, ← utf16Length, ← Nat.add_assoc]
      exact h before d after hs' hd

/-- The buffer holds what was converted, modulo its size, until a character does not fit. -/
theorem writeLoop_utf16 (convert : SgChar → Option (List UInt8))
    (hconvert : ∀ c : Char, ∃ w, convert c.toNat = some w ∧
      w.length = if c.toNat < 0x10000 then 2 else 4)
    (s : List Char) {p : ℕ} {tmp : List UInt8} (htmp : tmp.length = p % tmpBufSize)
    (heven : p % 2 = 0) (port : OutPort) :
    let out := writeLoop convert tmpBufSize (s.map Char.toNat) tmp port
    (AlignedFrom p s → WritesAll convert tmp (s.map Char.toNat) port out) ∧
    (¬ AlignedFrom p s → out = .overflow) := by
  induction s generalizing p tmp port with
  | nil =>
    refine ⟨fun _ => ?_, fun h => (h fun before c after hs => ?_).elim⟩
    · change writeLoop _ _ [] tmp port = .done (port.writeb (tmp ++ []))
      rw [writeLoop_nil, append_nil]
    · simp at hs
  | cons c s ih =>
    obtain ⟨w, hc, hw⟩ := hconvert c
    have hlen : w.length = 2 ∨ w.length = 4 := by split_ifs at hw <;> simp [hw]
    rw [alignedFrom_cons, map_cons, ← hw]
    by_cases hle : tmp.length + w.length ≤ tmpBufSize
    · have hfits : 0x10000 ≤ c.toNat → p % tmpBufSize ≠ tmpBufSize - 2 := by
        intro hsup
        rw [if_neg (by omega)] at hw
        omega
      rw [and_iff_right hfits, writeLoop_cons port hc hle]
      split_ifs with hfull
      · have hnext : ([] : List UInt8).length = (p + w.length) % tmpBufSize := by
          simp only [length_nil, tmpBufSize] at *
          omega
        obtain ⟨hyes, hno⟩ := ih hnext (by omega) (port.writeb (tmp ++ w))
        exact ⟨fun h => .cons hc (OutPort.writeb_nil _) (hyes h), hno⟩
      · have hnext : (tmp ++ w).length = (p + w.length) % tmpBufSize := by
          rw [length_append]
          simp only [tmpBufSize] at *
          omega
        obtain ⟨hyes, hno⟩ := ih hnext (by omega) port
        exact ⟨fun h => .cons hc rfl (hyes h), hno⟩
    · -- only a character of four bytes does not fit where an even number of bytes is left
      have hbad : 0x10000 ≤ c.toNat ∧ p % tmpBufSize = tmpBufSize - 2 := by
        simp only [tmpBufSize] at *
        split_ifs at hw <;> omega
      refine ⟨fun h => (h.1 hbad.1 hbad.2).elim, fun _ => ?_⟩
      rw [writeLoop]
      simp only [hc]
      exact if_pos (Nat.lt_of_not_le hle)

theorem writeUtf16_right_iff (codec : BuiltinCodec) (mode : ErrorHandlingMode) (s : List Char)
    (port : OutPort) :
    WritesAll (sgConvertUcs4ToUtf16 · mode codec.littlep) (bom codec port) (s.map Char.toNat) port
      (writeUtf16 codec mode (s.map Char.toNat) port) ↔ Aligned s := by
  have hfrom : AlignedFrom 0 s ↔ Aligned s := by simp only [AlignedFrom, Aligned, Nat.zero_add]
  obtain ⟨hyes, hno⟩ := writeLoop_utf16 (sgConvertUcs4ToUtf16 · mode codec.littlep)
    (fun c => sgConvertUcs4ToUtf16_char c mode codec.littlep) s
    (show ([] : List UInt8).length = 0 % tmpBufSize from rfl) rfl (port.writeb (bom codec port))
  rw [← hfrom]
  constructor
  · intro h
    by_contra hunaligned
    exact h.ne_overflow (hno hunaligned)
  · intro h
    have := hyes h
    rw [WritesAll] at this ⊢
    simp only [OutPort.writeb_append, nil_append] at this
    exact this

/-- **The writers stay inside their buffer and write the encodings of all characters**, in every
mode and at every position of the port, exactly if the string fits. -/
theorem writer_right_iff (w : Writer) (mode : ErrorHandlingMode) (s : List Char) (port : OutPort) :
    WritesAll (w.encode mode) (w.mark port) (s.map Char.toNat) port
      (w.write mode (s.map Char.toNat) port) ↔ w.Fits s := by
  cases w with
  | utf8 => exact iff_of_true (writeUtf8_right mode _ port) trivial
  | utf16 codec => exact writeUtf16_right_iff codec mode s port
  | utf32 codec => exact iff_of_true (writeUtf32_right codec _ port) trivial
  | latin1 => exact iff_of_true (writeLatin1_right mode _ port) trivial

/-- After 511 letters, the buffer has room for two bytes of a character of four. -/
theorem writeUtf16_overflow :
    writeUtf16 (sgMakeUtf16Codec .utf16Be) .raise (List.replicate 511 0x41 ++ [0x1F600]) ⟨0, []⟩ =
      .overflow := by
  decide +kernel

end Sagittarius.Text
