import Mathlib.Data.List.Induction
import Sagittarius.Hpack.Strings
import Sagittarius.Library.BoundedQueue

/-!
# Header blocks that are read back

Blocks that an encoder writes are read by a decoder whose table has the same size.  The decoder gets
the same headers and has the same table after each block as long as each element is `Safe` with the
table that it meets.

* `dynamicEntryPut_spec` : the table after a header was put in, as a queue of bounded weight;
* `readElement_writeElement` : one element;
* `blocks_round_trip` : sequences of blocks.

What is not safe (`round_trip_fails`): an update of the table size, which the encoder writes and
does not carry out; a header without indexing whose name is not in the static table, which the
encoder puts in its table; a header that is never to be indexed whose index is even, as the bit of
the representation is put in the wrong place; an integer whose bits are all ones.
-/

namespace Sagittarius.Hpack

open List Option

/-! ### The dynamic table -/

theorem computeEntrySize_pos (e : Entry) : 0 < computeEntrySize e := by
  rw [computeEntrySize]
  omega

theorem evictLoop_spec {maxSize new : ℕ} {fields : List Entry}
    (h : maxSize < totalWeight computeEntrySize fields + new) :
    evictLoop maxSize new fields.reverse (totalWeight computeEntrySize fields) =
      .ok ((fit computeEntrySize (maxSize - new) fields).reverse,
        totalWeight computeEntrySize (fit computeEntrySize (maxSize - new) fields)) := by
  induction fields using reverseRecOn with
  | nil => rfl
  | append_singleton fields e ih =>
    have hpos := computeEntrySize_pos e
    rw [totalWeight_append, totalWeight_cons, totalWeight_nil] at h ⊢
    rw [reverse_append, reverse_singleton, singleton_append, evictLoop,
      if_neg (by omega)]
    simp only [Nat.add_zero, Nat.add_sub_cancel]
    split_ifs with hroom
    · rw [fit_append_single]
      · rfl
      · omega
      · rw [totalWeight_append, totalWeight_cons, totalWeight_nil]
        omega
    · rw [ih (by omega)]
      by_cases hlt : maxSize - new < totalWeight computeEntrySize fields
      · rw [fit_append_of_lt computeEntrySize hlt]
      · -- nothing is left, and still there is no room
        have hzero : totalWeight computeEntrySize fields = 0 := by omega
        obtain rfl := (totalWeight_eq_zero_iff computeEntrySize_pos).1 hzero
        rw [nil_append, fit, fit, if_neg (by omega)]

/-- The fields after `e` was put in front. -/
def fieldsAfterPut (maxSize : ℕ) (fields : List Entry) (e : Entry) : List Entry :=
  e :: fit computeEntrySize (maxSize - computeEntrySize e) fields

/-- A consistent table with these fields. -/
def tableOf (maxSize : ℕ) (fields : List Entry) : DynamicTable :=
  ⟨fields, maxSize, totalWeight computeEntrySize fields⟩

/-- **The table after a header was put in.** -/
theorem dynamicEntryPut_spec (maxSize : ℕ) (fields : List Entry) (e : Entry) :
    dynamicEntryPut (tableOf maxSize fields) e =
      .ok (tableOf maxSize (fieldsAfterPut maxSize fields e)) := by
  rw [dynamicEntryPut]
  split_ifs with h
  · simp only [tableOf] at h
    simp only [evictTableEntries, tableOf]
    rw [evictLoop_spec h]
    simp only [bind, Except.bind, pure, Except.pure, reverse_reverse, fieldsAfterPut,
      totalWeight_cons, Nat.add_comm (computeEntrySize e)]
  · simp only [tableOf] at h
    simp only [bind, Except.bind, pure, Except.pure, tableOf, fieldsAfterPut, totalWeight_cons]
    rw [fit_of_le computeEntrySize (by omega), Nat.add_comm (computeEntrySize e)]

/-! ### Looking up -/

variable {e : Entry} {i : ℕ}

theorem staticDecode_of_mem (h : (e, i) ∈ rawStaticTable.zipIdx 1) :
    1 ≤ i ∧ i ≤ staticTableSize ∧ staticDecode i = some e := by
  obtain ⟨h1, h2, -⟩ := mem_zipIdx h
  rw [length_rawStaticTable] at h2
  rw [mk_mem_zipIdx_iff_le_and_getElem?_sub] at h
  refine ⟨h1, by omega, ?_⟩
  rw [staticDecode, if_neg (by omega)]
  exact h.2

theorem staticEncodeKv_eq_some (h : staticEncodeKv e = some i) :
    i ≤ staticTableSize ∧ staticDecode i = some e := by
  rw [staticEncodeKv, map_eq_some_iff] at h
  obtain ⟨⟨e', i'⟩, hfind, rfl⟩ := h
  have hmem := mem_reverse.1 (mem_of_find?_eq_some hfind)
  have heq := find?_some hfind
  simp only [decide_eq_true_eq] at heq
  obtain ⟨-, rfl⟩ := heq
  exact (staticDecode_of_mem hmem).2

theorem staticEncodeV_eq_some {name : Bytevector} (h : staticEncodeV name = some i) :
    1 ≤ i ∧ i ≤ staticTableSize ∧ ∃ value, staticDecode i = some ⟨name, value⟩ := by
  rw [staticEncodeV, map_eq_some_iff] at h
  obtain ⟨⟨⟨name', value⟩, i'⟩, hfind, rfl⟩ := h
  have hmem := staticDecode_of_mem (mem_of_find?_eq_some hfind)
  have heq := find?_some hfind
  simp only [decide_eq_true_eq] at heq
  subst heq
  exact ⟨hmem.1, hmem.2.1, value, hmem.2.2⟩

variable {t : DynamicTable}

theorem lookupDecodeTable_static (hi : i ≤ staticTableSize) (h : staticDecode i = some e) :
    lookupDecodeTable t i = .ok e := by
  rw [lookupDecodeTable, if_neg (by omega), h]
  rfl

theorem lookupDecodeTable_dynamic (h : t.headerFields[i]? = some e) :
    lookupDecodeTable t (1 + staticTableSize + i) = .ok e := by
  rw [lookupDecodeTable, if_pos (by omega),
    show 1 + staticTableSize + i - staticTableSize - 1 = i by omega, h]
  rfl

/-! ### What can be written -/

section

variable (huffman : HuffmanCoder)

/-- The header is not in the dynamic table, and not with a value in the static table: it is sent as
a literal. -/
def IsLiteral (fields : List Entry) (e : Entry) : Prop :=
  e ∉ fields ∧ ¬ (e ∈ rawStaticTable ∧ e.value ≠ [])

/-- The header is to be put in the dynamic table. -/
def IsIndexing (attrs : List Attr) : Prop := .noIndexing ∉ attrs ∧ .neverIndexed ∉ attrs

instance (fields : List Entry) (e : Entry) : Decidable (IsLiteral fields e) :=
  inferInstanceAs (Decidable (_ ∧ _))

instance (attrs : List Attr) : Decidable (IsIndexing attrs) := inferInstanceAs (Decidable (_ ∧ _))

/-- A literal that can be read back.  Its strings do not take 127 bytes.  If its name is in the
static table, with the index `i`, and it is not to be indexed, then `i` is not 15; if it is never to
be indexed, then `i` is also odd or above 15.  Otherwise it is to be indexed. -/
structure LiteralSafe (e : Entry) (attrs : List Attr) : Prop where
  value : (codedString huffman e.value (.noHuffman ∈ attrs)).length ≠ 127
  name : staticEncodeV e.name = none →
    (codedString huffman e.name (.noHuffman ∈ attrs)).length ≠ 127 ∧ IsIndexing attrs
  noIndexing : ∀ i, staticEncodeV e.name = some i → .noIndexing ∈ attrs → i ≠ 15
  neverIndexed : ∀ i, staticEncodeV e.name = some i → .neverIndexed ∈ attrs →
    .noIndexing ∉ attrs → i ≠ 15 ∧ (i % 2 = 1 ∨ 15 < i)

/-- An element that can be read back when the dynamic table has these fields: no update of the table
size, no header that is the 66th of the table (its index would be 127), and no literal that is not
safe. -/
def Safe (fields : List Entry) : Element → Prop
  | .tableSizeUpdate _ => False
  | .header e attrs =>
    fields.idxOf? e ≠ some 65 ∧ (IsLiteral fields e → LiteralSafe huffman e attrs)

/-- The fields of the dynamic table after an element. -/
def fieldsAfter (maxSize : ℕ) (fields : List Entry) : Element → List Entry
  | .tableSizeUpdate _ => fields
  | .header e attrs =>
    if IsLiteral fields e ∧ IsIndexing attrs then fieldsAfterPut maxSize fields e else fields

end

theorem staticEncodeKv_eq_none_iff :
    staticEncodeKv e = none ↔ ¬ (e ∈ rawStaticTable ∧ e.value ≠ []) := by
  rw [staticEncodeKv, map_eq_none_iff, find?_eq_none]
  simp only [mem_reverse, decide_eq_true_eq, not_and]
  constructor
  · intro h he hv
    obtain ⟨i, hi⟩ := mem_iff_getElem?.1 he
    have hmem : (e, i + 1) ∈ rawStaticTable.zipIdx 1 := by
      rw [mk_mem_zipIdx_iff_le_and_getElem?_sub]
      exact ⟨by omega, hi⟩
    exact h _ hmem hv rfl
  · rintro h ⟨e', i⟩ hmem hv rfl
    rw [mk_mem_zipIdx_iff_le_and_getElem?_sub] at hmem
    exact h (mem_of_getElem? hmem.2) hv

theorem lookupEncodeTable_cases (maxSize : ℕ) (fields : List Entry) (e : Entry) :
    (∃ i, fields.idxOf? e = some i ∧ fields[i]? = some e ∧
        lookupEncodeTable (tableOf maxSize fields) e = some (1 + staticTableSize + i, .indexed)) ∨
      (¬ IsLiteral fields e ∧ ∃ i, staticEncodeKv e = some i ∧
        lookupEncodeTable (tableOf maxSize fields) e = some (i, .indexed)) ∨
      (IsLiteral fields e ∧ lookupEncodeTable (tableOf maxSize fields) e =
        (staticEncodeV e.name).map fun i => (i, .name)) := by
  simp only [lookupEncodeTable, tableOf]
  cases hidx : fields.idxOf? e with
  | some i =>
    obtain ⟨hi, heq, -⟩ := idxOf?_eq_some_iff.1 hidx
    exact .inl ⟨i, rfl, by rw [getElem?_eq_getElem hi, heq], rfl⟩
  | none =>
    have hnot := idxOf?_eq_none_iff.1 hidx
    cases hkv : staticEncodeKv e with
    | some i =>
      refine .inr (.inl ⟨fun h => ?_, i, rfl, rfl⟩)
      rw [staticEncodeKv_eq_none_iff.2 h.2] at hkv
      cases hkv
    | none => exact .inr (.inr ⟨⟨hnot, staticEncodeKv_eq_none_iff.1 hkv⟩, rfl⟩)

/-! ### One element -/

section

variable {huffman : HuffmanCoder} {t t' : DynamicTable} {e : Entry} {index : ℕ}
  {strings : Bytevector}

/-- The decoder reads the header `e` from these bytes, whatever follows, and then has the table
`t'`. -/
def ReadsAs (huffman : HuffmanCoder) (t t' : DynamicTable) (bytes : Bytevector) (e : Entry) :
    Prop :=
  ∃ b tail attr, bytes = b :: tail ∧ ∀ rest, readElement huffman t b (tail ++ rest) =
    .ok (some ⟨some e.name, some e.value, attr⟩, t', rest)

/-- The strings of a literal are read as the name and the value of `e`. -/
def StringsOf (huffman : HuffmanCoder) (t : DynamicTable) (index : ℕ) (strings : Bytevector)
    (e : Entry) : Prop :=
  ∀ rest, readNameAndValue huffman t (strings ++ rest) index =
    .ok (some e.name, some e.value, rest)

theorem stringsOf_name {value : Bytevector} {noHuffman : Bool} (hpos : 1 ≤ index)
    (hname : lookupDecodeTable t index = .ok ⟨e.name, value⟩)
    (hvalue : (codedString huffman e.value noHuffman).length ≠ 127) :
    StringsOf huffman t index (writeHpackString huffman e.value noHuffman) e := by
  intro rest
  rw [readNameAndValue, if_neg (by omega), hname]
  simp only [bind, Except.bind, pure, Except.pure]
  rw [readHpackString_write hvalue]

theorem stringsOf_literal {noHuffman : Bool}
    (hname : (codedString huffman e.name noHuffman).length ≠ 127)
    (hvalue : (codedString huffman e.value noHuffman).length ≠ 127) :
    StringsOf huffman t 0
      (writeHpackString huffman e.name noHuffman ++ writeHpackString huffman e.value noHuffman)
      e := by
  intro rest
  rw [readNameAndValue, if_pos rfl, append_assoc, readHpackString_write hname]
  simp only [bind, Except.bind, pure, Except.pure]
  rw [readHpackString_write hvalue]

theorem readsAs_indexed (h : lookupDecodeTable t index = .ok e) (hindex : index ≠ 127) :
    ReadsAs huffman t t (writeHpackInteger index 0x80 7) e := by
  obtain ⟨k, tail, hk, hw, -, -, hread⟩ :=
    exists_writeHpackInteger 0x80 7 rfl hindex
  obtain ⟨-, -, h80, hmask⟩ := string_bits k hk
  refine ⟨_, _, none, hw, fun rest => ?_⟩
  rw [readElement, if_pos h80]
  rw [hread _ _ hmask]
  simp only [bind, Except.bind, h]
  rfl

theorem incremental_bits : ∀ k < 0x3F + 1, (0x40 ||| k) &&& 0x80 ≠ 0x80 ∧
    (0x40 ||| k) &&& 0x40 = 0x40 ∧ (0x40 ||| k) &&& 0x3F = k := by
  decide

theorem readsAs_incremental (hindex : index ≠ 63) (hs : StringsOf huffman t index strings e)
    (hput : dynamicEntryPut t e = .ok t') :
    ReadsAs huffman t t' (writeHpackInteger index 0x40 6 ++ strings) e := by
  obtain ⟨k, tail, hk, hw, -, -, hread⟩ :=
    exists_writeHpackInteger 0x40 6 rfl hindex
  obtain ⟨h80, h40, hmask⟩ := incremental_bits k hk
  refine ⟨_, tail ++ strings, none, by rw [hw]; rfl, fun rest => ?_⟩
  rw [readElement, if_neg h80, if_pos h40, append_assoc]
  rw [hread _ _ hmask]
  simp only [bind, Except.bind]
  rw [hs rest]
  simp only [putRead, hput]
  rfl

theorem plain_bits : ∀ k < 0x0F + 1, k &&& 0x80 ≠ 0x80 ∧ k &&& 0x40 ≠ 0x40 ∧ k &&& 0x20 ≠ 0x20 ∧
    k &&& 0xF0 = 0 ∧ k &&& 0x0F = k ∧ 0 ||| k = k ∧ (k % 2 = 1 → 1 ||| k = k) := by
  decide

/-- A literal without indexing.  The bit that should tell that it is never to be indexed is lost, if
it does no harm to the index. -/
theorem readsAs_plain {pre : ℕ} (hindex : index ≠ 15)
    (hpre : pre = 0 ∨ pre = 1 ∧ (index % 2 = 1 ∨ 15 < index))
    (hs : StringsOf huffman t index strings e) :
    ReadsAs huffman t t (writeHpackInteger index pre 4 ++ strings) e := by
  obtain ⟨k, tail, hk, hw, hsmall, hbig, hread⟩ :=
    exists_writeHpackInteger pre 4 rfl hindex
  obtain ⟨h80, h40, h20, hF0, hmask, h0, h1⟩ := plain_bits k hk
  have hfirst : pre ||| k = k := by
    rcases hpre with rfl | ⟨rfl, hodd⟩
    · exact h0
    · apply h1
      by_cases hle : index ≤ 15
      · rw [hsmall hle]
        omega
      · rw [hbig (Nat.lt_of_not_le hle)]
  refine ⟨k, tail ++ strings, some .noIndexing, by rw [hw, hfirst]; rfl, fun rest => ?_⟩
  rw [readElement, if_neg h80, if_neg h40, if_neg h20, append_assoc]
  rw [hread _ _ hmask]
  simp only [bind, Except.bind, hF0, if_true]
  rw [hs rest]
  rfl

variable {attrs : List Attr}

theorem prefixAndBits_of_indexing (h : IsIndexing attrs) : prefixAndBits attrs = (0x40, 6) := by
  rw [prefixAndBits, if_neg h.1, if_neg h.2]

variable {maxSize : ℕ} {fields : List Entry}

theorem putNew_of_literal (h : IsLiteral fields e) :
    putNew (tableOf maxSize fields) e =
      .ok (tableOf maxSize (fieldsAfterPut maxSize fields e)) := by
  rw [putNew, if_neg (show e ∉ (tableOf maxSize fields).headerFields from h.1),
    dynamicEntryPut_spec]

/-- **An element that is safe is read back**, and both tables are the same afterwards. -/
theorem readElement_writeElement (h : Safe huffman fields (.header e attrs)) :
    ∃ bytes, writeElement huffman (tableOf maxSize fields) (.header e attrs) =
        .ok (bytes, tableOf maxSize (fieldsAfter maxSize fields (.header e attrs))) ∧
      ReadsAs huffman (tableOf maxSize fields)
        (tableOf maxSize (fieldsAfter maxSize fields (.header e attrs))) bytes e := by
  obtain ⟨h65, hlit⟩ := h
  rw [writeElement]
  obtain ⟨i, hidx, hget, hlook⟩ | ⟨hnot, i, hkv, hlook⟩ | ⟨hl, hlook⟩ :=
    lookupEncodeTable_cases maxSize fields e
  · -- the header is in the dynamic table
    have hnot : ¬ IsLiteral fields e := fun hl => hl.1 (mem_of_getElem? hget)
    rw [hlook, fieldsAfter, if_neg fun hc => hnot hc.1]
    refine ⟨_, rfl, readsAs_indexed (lookupDecodeTable_dynamic hget) ?_⟩
    rintro h127
    rw [staticTableSize] at h127
    exact h65 (by rw [hidx, show i = 65 by omega])
  · -- the header is in the static table
    obtain ⟨hi, hdec⟩ := staticEncodeKv_eq_some hkv
    rw [hlook, fieldsAfter, if_neg fun hc => hnot hc.1]
    refine ⟨_, rfl, readsAs_indexed (lookupDecodeTable_static hi hdec) ?_⟩
    rw [staticTableSize] at hi
    omega
  · have hsafe := hlit hl
    rw [hlook]
    cases hv : staticEncodeV e.name with
    | none =>
      -- both strings are sent
      obtain ⟨hname, hind⟩ := hsafe.name hv
      rw [fieldsAfter, if_pos ⟨hl, hind⟩]
      simp only [map_none, prefixAndBits_of_indexing hind, putNew_of_literal hl, bind,
        Except.bind, pure, Except.pure]
      exact ⟨_, rfl, readsAs_incremental (by decide) (stringsOf_literal hname hsafe.value)
        (dynamicEntryPut_spec maxSize fields e)⟩
    | some i =>
      -- the name is sent as an index
      obtain ⟨hpos, hi, value, hdec⟩ := staticEncodeV_eq_some hv
      have hs := stringsOf_name hpos
        (lookupDecodeTable_static (t := tableOf maxSize fields) hi hdec) hsafe.value
      rw [staticTableSize] at hi
      by_cases hind : IsIndexing attrs
      · rw [fieldsAfter, if_pos ⟨hl, hind⟩]
        simp only [prefixAndBits_of_indexing hind, putNew_of_literal hl, if_true, bind,
          Except.bind, pure, Except.pure]
        exact ⟨_, rfl, readsAs_incremental (by omega) hs (dynamicEntryPut_spec maxSize fields e)⟩
      · rw [fieldsAfter, if_neg fun hc => hind hc.2]
        by_cases hno : .noIndexing ∈ attrs
        · have hpb : prefixAndBits attrs = (0x0, 4) := by rw [prefixAndBits, if_pos hno]
          simp only [hpb, if_neg (show ¬ 0x0 = 0x40 by decide), bind, Except.bind, pure,
            Except.pure]
          exact ⟨_, rfl, readsAs_plain (hsafe.noIndexing i hv hno) (.inl rfl) hs⟩
        · have hnever : .neverIndexed ∈ attrs := by
            by_contra hc
            exact hind ⟨hno, hc⟩
          have hpb : prefixAndBits attrs = (0x1, 4) := by
            rw [prefixAndBits, if_neg hno, if_pos hnever]
          obtain ⟨h15, hodd⟩ := hsafe.neverIndexed i hv hnever hno
          simp only [hpb, if_neg (show ¬ 0x1 = 0x40 by decide), bind, Except.bind, pure,
            Except.pure]
          exact ⟨_, rfl, readsAs_plain h15 (.inr ⟨rfl, hodd⟩) hs⟩

end

/-! ### Blocks -/

section

variable (huffman : HuffmanCoder)

/-- The headers of a block. -/
def headersOf (block : List Element) : List Entry :=
  block.filterMap fun
    | .header e _ => some e
    | .tableSizeUpdate _ => none

/-- Each element of the block is safe with the table that it meets. -/
def SafeBlock (maxSize : ℕ) : List Entry → List Element → Prop
  | _, [] => True
  | fields, x :: block =>
    Safe huffman fields x ∧ SafeBlock maxSize (fieldsAfter maxSize fields x) block

/-- Each block is safe with the table that it meets. -/
def SafeBlocks (maxSize : ℕ) : List Entry → List (List Element) → Prop
  | _, [] => True
  | fields, block :: blocks =>
    SafeBlock huffman maxSize fields block ∧
      SafeBlocks maxSize (block.foldl (fieldsAfter maxSize) fields) blocks

/-- The names and values that were read are those of the block. -/
def SameHeaders (headers : List ReadHeader) (block : List Element) : Prop :=
  headers.map (fun h => (h.name, h.value)) =
    (headersOf block).map fun e => (some e.name, some e.value)

/-- The blocks are written with the table `w` and read with the table `r`, one after the other: the
same headers are read, and after each block the tables have the same entries. -/
def RoundTrips : List (List Element) → DynamicTable → DynamicTable → Prop
  | [], _, _ => True
  | block :: blocks, w, r =>
    ∃ bytes w' headers r', writeHpack huffman w block = .ok (bytes, w') ∧
      readHpack huffman r bytes = .ok (headers, r') ∧ SameHeaders headers block ∧
      w'.headerFields = r'.headerFields ∧ RoundTrips blocks w' r'

variable {huffman}

/-- One block: by induction on its elements, with the same table on both sides. -/
theorem block_round_trip (maxSize : ℕ) {block : List Element} :
    ∀ {fields : List Entry}, SafeBlock huffman maxSize fields block →
      ∃ bytes headers, writeHpack huffman (tableOf maxSize fields) block =
          .ok (bytes, tableOf maxSize (block.foldl (fieldsAfter maxSize) fields)) ∧
        (∀ n, bytes.length ≤ n → readLoop huffman n (tableOf maxSize fields) bytes =
          .ok (headers, tableOf maxSize (block.foldl (fieldsAfter maxSize) fields))) ∧
        SameHeaders headers block := by
  induction block with
  | nil =>
    intro fields _
    refine ⟨[], [], rfl, fun n _ => ?_, rfl⟩
    cases n with
    | zero | succ n => rfl
  | cons x block ih =>
    intro fields h
    obtain ⟨hx, hblock⟩ := h
    cases x with
    | tableSizeUpdate n => exact hx.elim
    | header e attrs =>
      obtain ⟨bytes, hwrite, b, tail, attr, rfl, hread⟩ := readElement_writeElement hx
      obtain ⟨rest, headers, hwrites, hreads, hsame⟩ := ih hblock
      refine ⟨b :: tail ++ rest, ⟨some e.name, some e.value, attr⟩ :: headers, ?_, ?_, ?_⟩
      · rw [writeHpack, hwrite]
        simp only [bind, Except.bind]
        rw [hwrites]
        rfl
      · intro n hn
        obtain ⟨n, rfl⟩ : ∃ m, n = m + 1 := ⟨n - 1, by simp at hn; omega⟩
        rw [cons_append, readLoop, hread rest]
        simp only [bind, Except.bind]
        rw [hreads n (by simp at hn; omega)]
        rfl
      · simp only [SameHeaders, headersOf, map_cons, filterMap_cons] at hsame ⊢
        rw [hsame]

/-- **Safe blocks are read back.**  With contexts of the same table size, what one writes the other
reads, block after block, and after each block the dynamic tables are the same. -/
theorem blocks_round_trip (huffman : HuffmanCoder) (maxSize : ℕ) (blocks : List (List Element))
    (h : SafeBlocks huffman maxSize [] blocks) :
    RoundTrips huffman blocks (makeDynamicTable maxSize) (makeDynamicTable maxSize) := by
  have hall : ∀ fields, SafeBlocks huffman maxSize fields blocks →
      RoundTrips huffman blocks (tableOf maxSize fields) (tableOf maxSize fields) := by
    clear h
    induction blocks with
    | nil =>
      intro fields _
      exact trivial
    | cons block blocks ih =>
      rintro fields ⟨hblock, hblocks⟩
      obtain ⟨bytes, headers, hwrite, hread, hsame⟩ := block_round_trip maxSize hblock
      exact ⟨bytes, _, headers, _, hwrite, hread _ (Nat.le_refl _), hsame, rfl, ih _ hblocks⟩
  exact hall [] h

end

/-- The code that leaves the bytes as they are. -/
def plainCoder : HuffmanCoder := ⟨id, some, fun _ => rfl⟩

/-- A header of the static table, a literal that is put in the dynamic table, and the same header
again in the next block. -/
def sampleBlocks : List (List Element) :=
  [[.header ⟨[58, 112, 97, 116, 104], [47]⟩ [], .header ⟨[120], [121]⟩ [.noHuffman]],
    [.header ⟨[120], [121]⟩ [.noIndexing]]]

theorem blocks_round_trip_sample :
    SafeBlocks plainCoder 4096 [] sampleBlocks ∧
      RoundTrips plainCoder sampleBlocks (makeDynamicTable 4096) (makeDynamicTable 4096) := by
  have hsafe : SafeBlocks plainCoder 4096 [] sampleBlocks := by
    refine ⟨⟨⟨by decide, fun h => ?_⟩, ⟨by decide, fun _ => ⟨by decide, fun _ => ?_, ?_, ?_⟩⟩,
      trivial⟩, ⟨⟨by decide, fun h => ?_⟩, trivial⟩, trivial⟩
    · exact absurd h (by decide)
    · exact ⟨by decide, by decide⟩
    · exact fun i _ h => absurd h (by decide)
    · exact fun i _ h => absurd h (by decide)
    · exact absurd h (by decide)
  exact ⟨hsafe, blocks_round_trip plainCoder 4096 _ hsafe⟩

theorem writeElement_short {huffman : HuffmanCoder} {t' : DynamicTable} {attrs : List Attr}
    (hlook : lookupEncodeTable t e = none) (hput : putNew t e = .ok t')
    (hattrs : .noHuffman ∈ attrs) (hname : e.name.length < 2 ^ 7)
    (hvalue : e.value.length < 2 ^ 7) :
    writeElement huffman t (.header e attrs) =
      .ok ((prefixAndBits attrs).1 :: e.name.length :: (e.name ++ e.value.length :: e.value),
        t') := by
  simp only [writeElement, hlook, hput, hattrs, decide_true, writeHpackString_short hname,
    writeHpackString_short hvalue, writeHpackInteger_of_lt _ (Nat.two_pow_pos _), Nat.or_zero]
  rfl

set_option maxRecDepth 4000 in
/-- **Blocks that are not read back**, whatever the Huffman code: a header without indexing, of
which only the encoder keeps an entry; a header that is never to be indexed, which is read as
another; a value of 127 bytes; and an update of the table size, which only the decoder carries
out. -/
theorem round_trip_fails :
    let t := makeDynamicTable 4096
    (∀ huffman, ¬ RoundTrips huffman [[.header ⟨[120], [121]⟩ [.noIndexing, .noHuffman]]] t t) ∧
      (∀ huffman, ¬ RoundTrips huffman [[.header ⟨[120], [121]⟩ [.neverIndexed, .noHuffman]]] t t) ∧
      (∀ huffman, ¬ RoundTrips huffman [[.header ⟨[120], replicate 127 97⟩ [.noHuffman]]] t t) ∧
      ∀ huffman, ¬ RoundTrips huffman
        [[.header ⟨[120], [121]⟩ [.noHuffman], .tableSizeUpdate 30]] t t := by
  intro t
  refine ⟨fun huffman => ?_, fun huffman => ?_, fun huffman => ?_, fun huffman => ?_⟩
  · rintro ⟨bytes, w, headers, r, hw, hr, -, htable, -⟩
    rw [writeHpack, writeElement_short rfl rfl (by decide) (by decide) (by decide)] at hw
    cases hw
    have hread : readHpack huffman t [0, 1, 120, 1, 121] =
        .ok ([⟨some [120], some [121], some .noIndexing⟩], ⟨[], 4096, 0⟩) := rfl
    cases hread.symm.trans hr
    cases htable
  · rintro ⟨bytes, w, headers, r, hw, hr, hsame, -, -⟩
    rw [writeHpack, writeElement_short rfl rfl (by decide) (by decide) (by decide)] at hw
    cases hw
    have hread : readHpack huffman t [1, 1, 120, 1, 121] =
        .ok ([⟨some (ascii ":authority"), some [120], some .noIndexing⟩,
          ⟨some (ascii ":authority"), none, some .noIndexing⟩], ⟨[], 4096, 0⟩) := rfl
    cases hread.symm.trans hr
    cases hsame
  · rintro ⟨bytes, w, headers, r, hw, hr, hsame, -, -⟩
    rw [writeHpack, writeElement_short rfl rfl (by decide) (by decide) (by simp)] at hw
    cases hw
    have hread : readHpack huffman t (64 :: 1 :: 120 :: 127 :: replicate 127 97) =
        .ok ([⟨some [120], some (replicate 126 97), none⟩],
          ⟨[⟨[120], replicate 126 97⟩], 4096, 159⟩) := rfl
    cases hread.symm.trans hr
    simp [SameHeaders, headersOf] at hsame
  · rintro ⟨bytes, w, headers, r, hw, hr, -, htable, -⟩
    rw [writeHpack, writeElement_short rfl rfl (by decide) (by decide) (by decide)] at hw
    cases hw
    have hread : readHpack huffman t [64, 1, 120, 1, 121, 62] =
        .ok ([⟨some [120], some [121], none⟩], ⟨[], 30, 0⟩) := rfl
    cases hread.symm.trans hr
    cases htable

end Sagittarius.Hpack
