import Sagittarius.Text.Transcoder

/-!
# The UTF-8 codec on a valid source

What is left to read of a binary port, as a list of characters, and what the two functions of the
codec do to it.

* `Left` : the bytes that the port has not read yet are the encoding of these characters;
* `Left.getUtf8Char` : the next character;
* `Left.readUtf8` : the next characters, as many as were asked for, however the port is read.
-/

namespace Sagittarius.Text

open List

variable {src : Source} {p p' : BinaryPort} {r : List Char}

/-- The bytes that the port has not read yet are the encoding of these characters. -/
def Left (src : Source) (p : BinaryPort) (r : List Char) : Prop :=
  src.unread p = r.flatMap String.utf8EncodeChar

/-! ### One character -/

theorem portU8Reader_streams (src : Source) : (portU8Reader src).Streams src.unread where
  head p := by
    obtain ⟨p', hgetb, -⟩ := src.getb_eq p
    exact congrArg Prod.fst hgetb
  tail p := by
    obtain ⟨p', hgetb, hp'⟩ := src.getb_eq p
    exact (congrArg (fun r => src.unread r.2) hgetb).trans hp'

theorem Left.getUtf8Char (h : Left src p r) (mode : ErrorHandlingMode) (n : ℕ) :
    ∃ p', getUtf8Char src mode (n + 1) p = some (r.head?.map Char.toNat, p') ∧
      Left src p' r.tail := by
  cases r with
  | nil =>
    obtain ⟨p', hatt, hleft⟩ := utf8Attempt_nil (portU8Reader_streams src) h
    exact ⟨p', by simp [getUtf8Char, utf8Reader, hatt], hleft⟩
  | cons c r =>
    obtain ⟨p', hatt, hleft⟩ := utf8Attempt_of_encoded (portU8Reader_streams src) h
    exact ⟨p', by simp [getUtf8Char, utf8Reader, hatt], hleft⟩

/-! ### Several characters -/

section

variable (buf : List UInt8)

/-- The bytes of the buffer and of the port -/
def ctxUnread (src : Source) (ctx : ℕ × BinaryPort) : List UInt8 :=
  buf.drop ctx.1 ++ src.unread ctx.2

theorem ctxU8Reader_streams (src : Source) : (ctxU8Reader src buf).Streams (ctxUnread buf src) where
  head ctx := by
    by_cases hlt : ctx.1 < buf.length
    · simp [ctxU8Reader, hlt, ctxUnread, head?_append, head?_drop]
    · have hdrop : buf.drop ctx.1 = [] := drop_eq_nil_of_le (Nat.le_of_not_lt hlt)
      simp only [ctxU8Reader, hlt, if_false, ctxUnread, hdrop, nil_append]
      exact (portU8Reader_streams src).head ctx.2
  tail ctx := by
    by_cases hlt : ctx.1 < buf.length
    · simp only [ctxU8Reader, hlt, if_true, ctxUnread]
      rw [drop_eq_getElem_cons hlt]
      rfl
    · have hdrop : buf.drop ctx.1 = [] := drop_eq_nil_of_le (Nat.le_of_not_lt hlt)
      simp only [ctxU8Reader, hlt, if_false, ctxUnread, hdrop, nil_append]
      exact (portU8Reader_streams src).tail ctx.2

/-- The port is read only after the whole buffer. -/
def CtxInv (p : BinaryPort) (ctx : ℕ × BinaryPort) : Prop :=
  ctx.1 < buf.length ∧ ctx.2 = p ∨ ctx.1 = buf.length

theorem CtxInv.get {ctx : ℕ × BinaryPort} (h : CtxInv buf p ctx) :
    CtxInv buf p ((ctxU8Reader src buf).get ctx).2 := by
  rcases h with ⟨hlt, hp⟩ | heq
  · simp only [ctxU8Reader, hlt, if_true]
    rcases Nat.lt_or_eq_of_le hlt with hlt' | heq
    · exact .inl ⟨hlt', hp⟩
    · exact .inr heq
  · simp only [ctxU8Reader, heq, lt_irrefl, if_false]
    exact .inr rfl

end

/-- One round of `read_utf8`: a buffer that is not longer than the number of the characters -/
theorem Left.convert (h : Left src p r) (mode : ErrorHandlingMode) (n : ℕ) {size rest : ℕ}
    (hle : size ≤ rest) :
    ∃ q, bufferConvertor (utf8Reader (ctxU8Reader src (src.readb p size).1) mode (n + 1)) rest
        (0, (src.readb p size).2) = some (some ((r.take rest).map Char.toNat), q) ∧
      Left src q.2 (r.drop rest) := by
  set buf := (src.readb p size).1 with hbuf
  set p₁ := (src.readb p size).2 with hp₁
  have hunread : buf ++ src.unread p₁ = src.unread p := src.unread_readb p size
  have hlen : buf.length ≤ size := src.length_readb_le p size
  have hview : ctxUnread buf src (0, p₁) = r.flatMap String.utf8EncodeChar := by
    rw [ctxUnread, drop_zero, hunread, h]
  have hinit : CtxInv buf p₁ (0, p₁) := by
    rcases Nat.eq_zero_or_pos buf.length with hzero | hpos
    · exact .inr hzero.symm
    · exact .inl ⟨hpos, rfl⟩
  obtain ⟨q, hloop, hq, hinv⟩ := bufferConvertor_take (ctxU8Reader_streams buf src)
    mode n rest hview
    (fun _ => CtxInv.get buf) hinit
  refine ⟨q, hloop, ?_⟩
  -- the buffer has been used up, since every character took a byte of it
  have hend : q.1 = buf.length := by
    rcases hinv with ⟨hlt, hp⟩ | heq
    · exfalso
      have hqlen := congrArg length hq
      have hrlen := congrArg length hview
      have htake := length_le_encoded (r.take rest)
      rw [length_take] at htake
      rw [ctxUnread, hp, length_append, length_drop] at hqlen
      rw [ctxUnread, drop_zero, length_append, ← take_append_drop rest r,
        flatMap_append, length_append] at hrlen
      dsimp only at hrlen
      rcases Nat.le_total rest r.length with hr | hr
      · rw [Nat.min_eq_left hr] at htake
        omega
      · rw [drop_eq_nil_of_le hr, flatMap_nil, length_nil] at hqlen
        omega
    · exact heq
  rw [ctxUnread, hend, drop_length, nil_append] at hq
  exact hq

theorem readUtf8Loop_nil (h : Left src p []) (mode : ErrorHandlingMode) (n k readingSize rest : ℕ) :
    ∃ p', readUtf8Loop src mode n (k + 1) readingSize rest p = some ([], p') ∧ Left src p' [] := by
  have hnil := Source.readb_of_unread_nil h readingSize
  have happ := src.unread_readb p readingSize
  rw [hnil, nil_append, h] at happ
  refine ⟨(src.readb p readingSize).2, ?_, happ⟩
  simp [readUtf8Loop, hnil]

/-- **`read_utf8` reads as many characters as it was asked for, or all that there are.** -/
theorem Left.readUtf8 (h : Left src p r) (mode : ErrorHandlingMode) (n : ℕ) {size : ℕ}
    (hsize : 0 < size) :
    ∃ p', Text.readUtf8 src mode (n + 2) size p = some ((r.take size).map Char.toNat, p') ∧
      Left src p' (r.drop size) := by
  rw [Text.readUtf8]
  set readingSize := if size > tmpBufSize then tmpBufSize else size with hreading
  have hpos : 0 < readingSize := by
    rw [hreading]
    split
    · decide
    · exact hsize
  have hle : readingSize ≤ size := by
    rw [hreading]
    split
    · rename_i hgt
      exact hgt.le
    · exact le_rfl
  by_cases hnil : (src.readb p readingSize).1 = []
  · have hr : r = [] := by
      have hunread := Source.readb_eq_nil hpos hnil
      have hlen := length_le_encoded r
      rw [← h, hunread] at hlen
      exact eq_nil_of_length_eq_zero (Nat.le_zero.1 hlen)
    subst hr
    obtain ⟨p', hrun, hleft⟩ := readUtf8Loop_nil h mode (n + 2) (n + 1) readingSize size
    exact ⟨p', by simpa using hrun, by simpa using hleft⟩
  obtain ⟨q, hloop, hq⟩ := h.convert mode (n + 1) hle
  have hlen : (src.readb p readingSize).1.length ≠ 0 := fun h0 => hnil (length_eq_zero_iff.1 h0)
  rw [readUtf8Loop]
  simp only [hlen, if_false, hloop]
  by_cases hshort : (src.readb p readingSize).1.length < readingSize
  · exact ⟨q.2, if_pos hshort, hq⟩
  rw [if_neg hshort]
  by_cases hfull : ((r.take size).map Char.toNat).length = size
  · exact ⟨q.2, if_pos hfull, hq⟩
  -- the end has been reached, and another round reads nothing
  have hr : r.length ≤ size := by
    rw [length_map, length_take] at hfull
    omega
  rw [drop_eq_nil_of_le hr] at hq ⊢
  obtain ⟨p', hrun, hleft⟩ := readUtf8Loop_nil hq mode (n + 2) n
    (if size - ((r.take size).map Char.toNat).length < readingSize then
      size - ((r.take size).map Char.toNat).length else readingSize)
    (size - ((r.take size).map Char.toNat).length)
  refine ⟨p', ?_, hleft⟩
  rw [if_neg hfull, hrun]
  simp

end Sagittarius.Text
