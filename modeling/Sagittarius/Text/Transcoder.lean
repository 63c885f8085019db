import Sagittarius.Text.Port
import Sagittarius.Text.Utf8

/-!
# Transcoded ports

Textual input ports over a binary port, with the UTF-8 codec: `transcoder.c`, the reader of
`codec.c`, and the functions of `port.c` that requests for characters go through.

A function returns `none` if it raises an error, or if a loop does not end within the fuel that it
was given.
-/

namespace Sagittarius.Text

/-- How lines end. -/
inductive EolStyle
  | lf | cr | nel | ls | crnel | crlf | none
deriving DecidableEq

/-- Line feed. -/
def LF : SgChar := 0x0a

/-- Carriage return. -/
def CR : SgChar := 0x0d

/-- Next line. -/
def NEL : SgChar := 0x85

/-- Line separator. -/
def LS : SgChar := 0x2028

/-! ### The codec -/

variable (src : Source)

/-- `port_u8_reader` reads from the port; only some ports can go back. -/
def portU8Reader : ByteReader BinaryPort where
  get := src.getb
  unget p := if src.hasSetPortPosition then p.back else p

/-- `buffer_u8_reader` with a port: after the buffer it reads from the port. -/
def ctxU8Reader (buf : List UInt8) : ByteReader (ℕ × BinaryPort) where
  get ctx :=
    if ctx.1 < buf.length then (buf[ctx.1]?, ctx.1 + 1, ctx.2)
    else ((src.getb ctx.2).1, ctx.1, (src.getb ctx.2).2)
  unget ctx :=
    if ctx.1 = buf.length ∧ src.hasSetPortPosition = true then (ctx.1, ctx.2.back)
    else (ctx.1 - 1, ctx.2)

/-- `get_utf8_char`; `none` inside is `EOF`. -/
def getUtf8Char (mode : ErrorHandlingMode) (n : ℕ) (p : BinaryPort) :
    Option (Option SgChar × BinaryPort) :=
  match utf8Reader (portU8Reader src) mode n p with
  | some (.eof, p) => some (none, p)
  | some (.char c, p) => some (some c, p)
  | _ => none

/-- The length of the buffers. -/
def tmpBufSize : ℕ := 1024

/-- The loop of `read_utf8`: the characters that it adds -/
def readUtf8Loop (mode : ErrorHandlingMode) (n : ℕ) :
    ℕ → ℕ → ℕ → BinaryPort → Option (List SgChar × BinaryPort)
  | 0, _, _, _ => none
  | k + 1, readingSize, rest, p =>
    let (readBuf, p) := src.readb p readingSize
    if readBuf.length = 0 then some ([], p)
    else
      match bufferConvertor (utf8Reader (ctxU8Reader src readBuf) mode n) rest (0, p) with
      | some (some conved, (_, p)) =>
        if readBuf.length < readingSize then some (conved, p)
        else if conved.length = rest then some (conved, p)
        else
          let rest := rest - conved.length
          (readUtf8Loop mode n k (if rest < readingSize then rest else readingSize) rest p).map
            fun (more, p) => (conved ++ more, p)
      | _ => none

/-- Reads through a buffer. -/
def readUtf8 (mode : ErrorHandlingMode) (n : ℕ) (size : ℕ) (p : BinaryPort) :
    Option (List SgChar × BinaryPort) :=
  readUtf8Loop src mode n n (if size > tmpBufSize then tmpBufSize else size) size p

/-! ### The transcoder -/

/-- `SgTranscoder`, with the UTF-8 codec -/
structure Transcoder where
  eolStyle : EolStyle
  mode : ErrorHandlingMode

/-- A transcoded port: the port that it reads, and `SG_PORT_CHAR_AHEAD` -/
structure TextPort where
  port : BinaryPort
  ahead : Option SgChar

/-- `Sg_UngetcUnsafe`; what is pushed back may be `EOF`. -/
def TextPort.ungetc (t : TextPort) (ch : Option SgChar) : Option TextPort :=
  match t.ahead with
  | none => some { t with ahead := ch }
  | some _ => none

variable (tran : Transcoder) (n : ℕ)

/-- Decodes a character. -/
def getCharInternal (t : TextPort) : Option (Option SgChar × TextPort) :=
  (getUtf8Char src tran.mode n t.port).map fun (c, p) => (c, { t with port := p })

/-- `Sg_TranscoderGetc`: a character, a line end as `LF`. -/
def transcoderGetc (t : TextPort) : Option (Option SgChar × TextPort) := do
  let (c, t) ← getCharInternal src tran n t
  if tran.eolStyle = .none then some (c, t)
  else if c = some LF ∨ c = some NEL ∨ c = some LS then some (some LF, t)
  else if c = some CR then do
    let (c₂, t) ← getCharInternal src tran n t
    if c₂ = some LF ∨ c₂ = some NEL then some (some LF, t)
    else do
      let t ← t.ungetc c₂
      some (some LF, t)
  else some (c, t)

/-- Memory for characters, at and behind the buffer of a request -/
abbrev Memory := ℕ → SgChar

/-- Characters are written from an address on. -/
def Memory.write (mem : Memory) (a : ℕ) (l : List SgChar) : Memory :=
  fun k => if a ≤ k then (l[k - a]?).getD (mem k) else mem k

/-- The loop of `resolve_eol`, which is executed at most as often as there are characters up to
`stop`: the memory, and `diff` -/
def resolveEolLoop (eolStyle : EolStyle) (stop : ℕ) :
    ℕ → Memory → (dst src i count diff : ℕ) → Memory × ℕ
  | 0, mem, _, _, _, _, diff => (mem, diff)
  | k + 1, mem, dst, src, i, count, diff =>
    if i < count ∧ src < stop then
      if eolStyle = .none then
        resolveEolLoop eolStyle stop k (Function.update mem dst (mem src)) (dst + 1) (src + 1)
          (i + 1) count diff
      else if mem src = LF ∨ mem src = NEL ∨ mem src = LS then
        resolveEolLoop eolStyle stop k (Function.update mem dst LF) (dst + 1) (src + 1)
          (i + 1) count
          diff
      else if mem src = CR then
        if mem (src + 1) = LF ∨ mem (src + 1) = NEL then
          resolveEolLoop eolStyle stop k (Function.update mem dst LF) (dst + 1) (src + 2) (i + 1)
            (count + 1) (diff + 1)
        else
          resolveEolLoop eolStyle stop k (Function.update mem dst LF) (dst + 1) (src + 1) (i + 1)
            count diff
      else
        resolveEolLoop eolStyle stop k (Function.update mem dst (mem src)) (dst + 1) (src + 1)
          (i + 1) count diff
    else (mem, diff)

/-- `resolve_eol`, in place -/
def resolveEol (eolStyle : EolStyle) (mem : Memory) (a count : ℕ) : Memory × ℕ :=
  resolveEolLoop eolStyle (a + count) count mem a a 0 count 0

/-- The loop of `Sg_TranscoderRead`, from `retry` on -/
def transcoderReadLoop (size : ℕ) :
    ℕ → Memory → ℕ → TextPort → Option (Memory × ℕ × TextPort)
  | 0, _, _, _ => none
  | k + 1, mem, read, t => do
    let (chars, p) ← readUtf8 src tran.mode n (size - read) t.port
    let t := { t with port := p }
    if chars.length = 0 then some (mem, read, t)
    else
      let (mem, diff) := resolveEol tran.eolStyle (mem.write read chars) read chars.length
      let read := read + (chars.length - diff)
      if read ≠ size then transcoderReadLoop size k mem read t else some (mem, read, t)

/-- `Sg_TranscoderRead`: fills `size` cells. -/
def transcoderRead (mem : Memory) (size : ℕ) (t : TextPort) : Option (Memory × ℕ × TextPort) :=
  if t.port.position = 0 then do
    let (c, t) ← transcoderGetc src tran n t
    match c with
    | none => some (mem, 0, t)
    | some c =>
      let mem := mem.write 0 [c]
      if 1 = size then some (mem, 1, t) else transcoderReadLoop src tran n size n mem 1 t
  else if 0 = size then some (mem, 0, t)
  else transcoderReadLoop src tran n size n mem 0 t

/-! ### Requests -/

/-- The memory, and the number of the characters. -/
def transGetString (mem : Memory) (size : ℕ) (t : TextPort) : Option (Memory × ℕ × TextPort) :=
  if size = 0 then some (mem, 0, t)
  else if size = 1 then do
    let (c, t) ← transcoderGetc src tran n t
    match c with
    | none => some (mem, 0, t)
    | some c => some (mem.write 0 [c], 1, t)
  else transcoderRead src tran n mem size t

/-- The characters that it returns. `mem` is what the memory holds before. -/
def sgReadsUnsafe (mem : Memory) (count : ℕ) (t : TextPort) : Option (List SgChar × TextPort) :=
  if count = 0 then some ([], t)
  else
    match t.ahead with
    | some c =>
      let t := { t with ahead := none }
      if count = 1 then some ([c], t)
      else (transGetString src tran n (fun k => mem (k + 1)) (count - 1) t).map
        fun (mem, r, t) => (c :: (List.range r).map mem, t)
    | none => (transGetString src tran n mem count t).map
        fun (mem, r, t) => ((List.range r).map mem, t)

/-! ### Writing -/

/-- A binary output port: its position, and the bytes that were written. -/
structure OutPort where
  position : ℕ
  bytes : List UInt8
deriving DecidableEq

/-- `Sg_WritebUnsafe`: writes bytes. -/
def OutPort.writeb (port : OutPort) (b : List UInt8) : OutPort :=
  ⟨port.position + b.length, port.bytes ++ b⟩

/-- How the call of a writer ends. -/
inductive Written
  /-- it returns -/
  | done (port : OutPort)
  /-- `SG_IO_ENCODE_ERROR` -/
  | raised (port : OutPort)
  /-- a byte was stored behind the end of the buffer -/
  | overflow
deriving DecidableEq

/-- The most bytes of one character. -/
def maxUtf8Size : ℕ := 6

/-- The loop of the writers: `tmp` are the bytes in the buffer, which are flushed if there are
`limit` of them. -/
def writeLoop (convert : SgChar → Option (List UInt8)) (limit : ℕ) :
    List SgChar → List UInt8 → OutPort → Written
  | [], tmp, port => .done (if tmp.length ≠ 0 then port.writeb tmp else port)
  | c :: s, tmp, port =>
    match convert c with
    | none => .raised port
    | some w =>
      if tmpBufSize < tmp.length + w.length then .overflow
      else if limit ≤ (tmp ++ w).length then writeLoop convert limit s [] (port.writeb (tmp ++ w))
      else writeLoop convert limit s (tmp ++ w) port

/-- Writes through a buffer. -/
def writeUtf8 (mode : ErrorHandlingMode) (str : List SgChar) (port : OutPort) : Written :=
  writeLoop (sgConvertUcs4ToUtf8 · mode) (tmpBufSize - maxUtf8Size) str [] port

/-- What `Sg_TranscoderWrite` makes of a character -/
def eolChars (style : EolStyle) (c : SgChar) : List SgChar :=
  if c = LF then
    match style with
    | .lf | .none => [LF]
    | .nel => [NEL]
    | .ls => [LS]
    | .cr => [CR]
    | .crlf => [CR, LF]
    | .crnel => [CR, NEL]
  else [c]

/-- Translates line ends, and encodes. -/
def sgTranscoderWrite (tran : Transcoder) (s : List SgChar) (port : OutPort) : Written :=
  writeUtf8 tran.mode (s.flatMap (eolChars tran.eolStyle)) port

end Sagittarius.Text
