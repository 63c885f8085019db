import Mathlib.Data.List.Basic
import Mathlib.Data.Nat.Log
import Mathlib.Algebra.Group.Nat.Defs

/-!
# Header compression for HTTP/2

The encoder and the decoder of `(rfc http2 hpack)`.  Both keep a **dynamic table** of headers, the
last one first; a header that is in the table, or in the static table of the format, is sent as an
index.

* `DynamicTable`, `dynamicEntryPut`, `evictTableEntries` : the dynamic table;
* `writeHpackInteger`, `writeHpackString`, `writeHpack` : the encoder;
* `readHpackInteger`, `readHpackString`, `readHpack` : the decoder.

The Huffman code is a parameter: `HuffmanCoder`.  The list of the headers that a context has seen is
left out; nothing reads it.
-/

namespace Sagittarius.Hpack

/-- The bytes of a bytevector or of a port. -/
abbrev Bytevector := List ℕ

/-- An entry of a table: the name and the value of a header. -/
structure Entry where
  name : Bytevector
  value : Bytevector
  deriving DecidableEq, Repr

/-- The ways in which reading can fail. -/
inductive HpackError where
  /-- the port is at its end where a byte is needed -/
  | eof
  /-- `list-queue-remove-back!` of an empty queue, or `car` of the empty list -/
  | emptyList
  /-- an end-of-file object where a bytevector is needed -/
  | notBytevector
  /-- `[INTERNAL] invalid static table` -/
  | invalidStaticTable
  /-- `New dynamic table size is bigger than current size` -/
  | biggerTableSize (size : ℕ)
  /-- `unknown HPACK type` -/
  | unknownType (b : ℕ)
  /-- the Huffman decoder fails -/
  | huffman
  deriving DecidableEq, Repr

/-! ### Tables -/

/-- The bytes of an ASCII text. -/
def ascii (text : String) : Bytevector := text.toList.map Char.toNat

/-- Names and values, given as texts; the entry with the index `i` is the `i`-th. -/
def rawStaticTable : List Entry :=
  [(":authority", ""), (":method", "GET"), (":method", "POST"), (":path", "/"),
   (":path", "/index.html"), (":scheme", "http"), (":scheme", "https"), (":status", "200"),
   (":status", "204"), (":status", "206"), (":status", "304"), (":status", "400"),
   (":status", "404"), (":status", "500"), ("accept-charset", ""),
   ("accept-encoding", "gzip, deflate"), ("accept-language", ""), ("accept-ranges", ""),
   ("accept", ""), ("access-control-allow-origin", ""), ("age", ""), ("allow", ""),
   ("authorization", ""), ("cache-control", ""), ("content-disposition", ""),
   ("content-encoding", ""), ("content-language", ""), ("content-length", ""),
   ("content-location", ""), ("content-range", ""), ("content-type", ""), ("cookie", ""),
   ("date", ""), ("etag", ""), ("expect", ""), ("expires", ""), ("from", ""), ("host", ""),
   ("if-match", ""), ("if-modified-since", ""), ("if-none-match", ""), ("if-range", ""),
   ("if-unmodified-since", ""), ("last-modified", ""), ("link", ""), ("location", ""),
   ("max-forwards", ""), ("proxy-authenticate", ""), ("proxy-authorization", ""), ("range", ""),
   ("referer", ""), ("refresh", ""), ("retry-after", ""), ("server", ""), ("set-cookie", ""),
   ("strict-transport-security", ""), ("transfer-encoding", ""), ("user-agent", ""), ("vary", ""),
   ("via", ""), ("www-authenticate", "")].map fun e => ⟨ascii e.1, ascii e.2⟩

/-- The length of the static table. -/
def staticTableSize : ℕ := 61

theorem length_rawStaticTable : rawStaticTable.length = staticTableSize := rfl

/-- `(assv index static-decode-table)`: an entry by its index. -/
def staticDecode (index : ℕ) : Option Entry :=
  if index = 0 then none else rawStaticTable[index - 1]?

/-- `static-encode-kv-table`: the index of a header with a value.  A later entry would replace an
earlier one. -/
def staticEncodeKv (e : Entry) : Option ℕ :=
  ((rawStaticTable.zipIdx 1).reverse.find? fun p => p.1.value ≠ [] ∧ p.1 = e).map Prod.snd

/-- `static-encode-v-table`: the first index of a name. -/
def staticEncodeV (name : Bytevector) : Option ℕ :=
  ((rawStaticTable.zipIdx 1).find? fun p => p.1.name = name).map Prod.snd

/-- The fields, newest first, and the sizes. -/
structure DynamicTable where
  headerFields : List Entry
  maxSize : ℕ
  currentSize : ℕ
  deriving DecidableEq, Repr

/-- An empty table. -/
def makeDynamicTable (maxSize : ℕ) : DynamicTable := ⟨[], maxSize, 0⟩

/-- The bytes, and 32 more. -/
def computeEntrySize (e : Entry) : ℕ := e.name.length + e.value.length + 32

/-- The loop of `evict-table-entries!`, over the fields from the back.  The last field is removed
before the size is looked at. -/
def evictLoop (maxSize newEntrySize : ℕ) :
    List Entry → ℕ → Except HpackError (List Entry × ℕ)
  | [], size => if size = 0 then pure ([], 0) else throw .emptyList
  | e :: fields, size =>
    if size = 0 then pure (e :: fields, 0)
    else
      let newSize := size - computeEntrySize e
      if newSize + newEntrySize ≤ maxSize then pure (fields, newSize)
      else evictLoop maxSize newEntrySize fields newSize

/-- Makes room for an entry. -/
def evictTableEntries (table : DynamicTable) (newEntrySize : ℕ) :
    Except HpackError DynamicTable := do
  let r ← evictLoop table.maxSize newEntrySize table.headerFields.reverse table.currentSize
  return { table with headerFields := r.1.reverse, currentSize := r.2 }

/-- Adds an entry. -/
def dynamicEntryPut (table : DynamicTable) (e : Entry) : Except HpackError DynamicTable := do
  let table ←
    if table.maxSize < table.currentSize + computeEntrySize e then
      evictTableEntries table (computeEntrySize e)
    else pure table
  return { table with
    headerFields := e :: table.headerFields
    currentSize := table.currentSize + computeEntrySize e }

/-- Sets the maximal size. -/
def updateHpackTableSize (table : DynamicTable) (size : ℕ) : Except HpackError DynamicTable :=
  evictTableEntries { table with maxSize := size } 0

/-- An entry by its index. -/
def lookupDecodeTable (table : DynamicTable) (index : ℕ) : Except HpackError Entry :=
  if staticTableSize < index then
    match table.headerFields[index - staticTableSize - 1]? with
    | some e => pure e
    | none => throw .emptyList
  else
    match staticDecode index with
    | some e => pure e
    | none => throw .invalidStaticTable

/-- How `lookup-encode-table` finds a header. -/
inductive IndexingType where
  | indexed
  | name
  deriving DecidableEq, Repr

/-- The index of an entry, or of its name. -/
def lookupEncodeTable (table : DynamicTable) (e : Entry) : Option (ℕ × IndexingType) :=
  match table.headerFields.idxOf? e with
  | some i => some (1 + staticTableSize + i, .indexed)
  | none =>
    match staticEncodeKv e with
    | some i => some (i, .indexed)
    | none => (staticEncodeV e.name).map fun i => (i, .name)

/-! ### Strings -/

/-- A Huffman code that can be decoded. -/
structure HuffmanCoder where
  encode : Bytevector → Bytevector
  decode : Bytevector → Option Bytevector
  decode_encode : ∀ v, decode (encode v) = some v

/-- The loop of `write-variable-length`. -/
def writeContinuation (I : ℕ) : Bytevector :=
  if I < 128 then [I] else (I % 128 + 128) :: writeContinuation (I / 128)

/-- `bitwise-length` of a number that is not negative. -/
def bitwiseLength (n : ℕ) : ℕ := if n = 0 then 0 else n.log2 + 1

/-- `write-hpack-integer`: `pre` is the part of the first byte that is not the integer. -/
def writeHpackInteger (n pre bits : ℕ) : Bytevector :=
  if bits < bitwiseLength n then (pre ||| (2 ^ bits - 1)) :: writeContinuation (n - (2 ^ bits - 1))
  else [pre ||| (n &&& (2 ^ bits - 1))]

/-- Reads the bytes behind a full first one. -/
def readVariableInteger : Bytevector → ℕ → ℕ → Except HpackError (ℕ × Bytevector)
  | [], _, _ => throw .eof
  | B :: port, M, I =>
    let i := I + (B &&& 127) * 2 ^ M
    if B &&& 128 = 128 then readVariableInteger port (M + 7) i else pure (i, port)

/-- `read-hpack-integer`: `mask` is the part of the first byte that holds the integer. -/
def readHpackInteger (port : Bytevector) (firstByte mask : ℕ) :
    Except HpackError (ℕ × Bytevector) :=
  let v := firstByte &&& mask
  if v = mask then readVariableInteger port 0 mask else pure (v, port)

variable (huffman : HuffmanCoder)

/-- The bytes of a string as they are sent. -/
def codedString (value : Bytevector) (noHuffman : Bool) : Bytevector :=
  if noHuffman then value else huffman.encode value

/-- The length and the bytes. -/
def writeHpackString (value : Bytevector) (noHuffman : Bool) : Bytevector :=
  let bv := codedString huffman value noHuffman
  writeHpackInteger bv.length (if noHuffman then 0x00 else 0x80) 7 ++ bv

/-- `get-bytevector-n`; `none` is the end-of-file object. -/
def getBytevectorN (port : Bytevector) (n : ℕ) : Option Bytevector × Bytevector :=
  if n ≠ 0 ∧ port = [] then (none, []) else (some (port.take n), port.drop n)

/-- The length, then the bytes. -/
def readHpackString : Bytevector → Except HpackError (Option Bytevector × Bytevector)
  | [] => throw .eof
  | b :: port => do
    let (len, port) ← readHpackInteger port b 0x7F
    if b &&& 0x80 = 0x80 then
      match huffman.decode (port.take len) with
      | some v => return (some v, port.drop len)
      | none => throw .huffman
    else return getBytevectorN port len

/-! ### The encoder -/

/-- The attributes of a header. -/
inductive Attr where
  | noIndexing
  | neverIndexed
  | noHuffman
  deriving DecidableEq, Repr

/-- An element of what is written. -/
inductive Element where
  | header (e : Entry) (attrs : List Attr)
  | tableSizeUpdate (n : ℕ)
  deriving DecidableEq, Repr

/-- `prefix&bits`: the first byte of a literal. -/
def prefixAndBits (attrs : List Attr) : ℕ × ℕ :=
  if .noIndexing ∈ attrs then (0x0, 4)
  else if .neverIndexed ∈ attrs then (0x1, 4)
  else (0x40, 6)

/-- `dynamic-table-put!`, unless the table contains the header. -/
def putNew (table : DynamicTable) (e : Entry) : Except HpackError DynamicTable :=
  if e ∈ table.headerFields then pure table else dynamicEntryPut table e

/-- One element of `%write-hpack`. -/
def writeElement (table : DynamicTable) :
    Element → Except HpackError (Bytevector × DynamicTable)
  | .tableSizeUpdate n => pure (writeHpackInteger n 0x20 5, table)
  | .header e attrs =>
    let pb := prefixAndBits attrs
    let noHuffman := decide (.noHuffman ∈ attrs)
    match lookupEncodeTable table e with
    | some (index, .indexed) => pure (writeHpackInteger index 0x80 7, table)
    | some (index, .name) => do
      let table ← if pb.1 = 0x40 then putNew table e else pure table
      return (writeHpackInteger index pb.1 pb.2 ++ writeHpackString huffman e.value noHuffman,
        table)
    | none => do
      let table ← putNew table e
      return (writeHpackInteger 0 pb.1 pb.2 ++ (writeHpackString huffman e.name noHuffman ++
        writeHpackString huffman e.value noHuffman), table)

/-- Writes a header block. -/
def writeHpack (table : DynamicTable) :
    List Element → Except HpackError (Bytevector × DynamicTable)
  | [] => pure ([], table)
  | x :: hpack => do
    let (bytes, table) ← writeElement huffman table x
    let (rest, table) ← writeHpack table hpack
    return (bytes ++ rest, table)

/-! ### The decoder -/

/-- A header that was read; an end-of-file object can stand for a string. -/
structure ReadHeader where
  name : Option Bytevector
  value : Option Bytevector
  attr : Option Attr
  deriving DecidableEq, Repr

/-- `read-name&value`: the strings of a literal. -/
def readNameAndValue (table : DynamicTable) (port : Bytevector) (index : ℕ) :
    Except HpackError (Option Bytevector × Option Bytevector × Bytevector) := do
  let (name, port) ←
    if index = 0 then readHpackString huffman port
    else do
      let e ← lookupDecodeTable table index
      pure (some e.name, port)
  let (value, port) ← readHpackString huffman port
  return (name, value, port)

/-- A header is put in the table of the decoder. -/
def putRead (table : DynamicTable) (name value : Option Bytevector) :
    Except HpackError DynamicTable :=
  match name, value with
  | some name, some value => dynamicEntryPut table ⟨name, value⟩
  | _, _ => throw .notBytevector

/-- What the loop of `read-hpack` does with the first byte `b` of a representation. -/
def readElement (table : DynamicTable) (b : ℕ) (port : Bytevector) :
    Except HpackError (Option ReadHeader × DynamicTable × Bytevector) :=
  if b &&& 0x80 = 0x80 then do
    let (index, port) ← readHpackInteger port b 0x7F
    let e ← lookupDecodeTable table index
    return (some ⟨some e.name, some e.value, none⟩, table, port)
  else if b &&& 0x40 = 0x40 then do
    let (index, port) ← readHpackInteger port b 0x3F
    let (name, value, port) ← readNameAndValue huffman table port index
    let table ← putRead table name value
    return (some ⟨name, value, none⟩, table, port)
  else if b &&& 0x20 = 0x20 then do
    let (newSize, port) ← readHpackInteger port b 0x1F
    if table.maxSize < newSize then throw (.biggerTableSize newSize)
    let table ← updateHpackTableSize table newSize
    return (none, table, port)
  else do
    let (index, port) ← readHpackInteger port b 0x0F
    if b &&& 0xF0 = 0 then
      let (name, value, port) ← readNameAndValue huffman table port index
      return (some ⟨name, value, some .noIndexing⟩, table, port)
    else if b &&& 0xF0 = 0x10 then
      let (name, value, port) ← readNameAndValue huffman table port index
      return (some ⟨name, value, some .neverIndexed⟩, table, port)
    else throw (.unknownType b)

/-- The loop of `read-hpack`.  Each round takes a byte from the port, so that there are at most as
many rounds as bytes. -/
def readLoop : ℕ → DynamicTable → Bytevector → Except HpackError (List ReadHeader × DynamicTable)
  | _, table, [] => pure ([], table)
  | 0, _, _ :: _ => throw .eof
  | n + 1, table, b :: port => do
    let (header, table, port) ← readElement huffman table b port
    let (headers, table) ← readLoop n table port
    return (header.toList ++ headers, table)

/-- Reads a header block. -/
def readHpack (table : DynamicTable) (port : Bytevector) :
    Except HpackError (List ReadHeader × DynamicTable) :=
  readLoop huffman port.length table port

end Sagittarius.Hpack
