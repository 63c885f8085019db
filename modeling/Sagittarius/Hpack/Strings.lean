import Sagittarius.Hpack.Model

/-!
# Integers and strings of header blocks

What `read-hpack-integer` and `read-hpack-string` read of what the encoder wrote.  An integer that
fills its bits with ones is written in these bits alone, while the reader expects more bytes after
them; all other integers can be read back.

* `exists_writeHpackInteger` : an integer, with the first byte described;
* `readsBack_iff` : which integers are read back;
* `readHpackString_write` : a string whose length is not 127.
-/

namespace Sagittarius.Hpack

open List

theorem continuation_bits : ∀ x < 128,
    (x + 128) &&& 127 = x ∧ (x + 128) &&& 128 = 128 ∧ x &&& 127 = x ∧ x &&& 128 ≠ 128 := by
  decide

theorem readVariableInteger_write (I M A : ℕ) (rest : Bytevector) :
    readVariableInteger (writeContinuation I ++ rest) M A = .ok (A + I * 2 ^ M, rest) := by
  induction I using Nat.strongRecOn generalizing M A with
  | _ I ih =>
  rw [writeContinuation]
  split_ifs with h
  · obtain ⟨-, -, h1, h2⟩ := continuation_bits I h
    simp only [cons_append, nil_append, readVariableInteger, h1, if_neg h2]
    rfl
  · obtain ⟨h1, h2, -, -⟩ := continuation_bits (I % 128) (Nat.mod_lt _ (by decide))
    simp only [cons_append, readVariableInteger, h1, h2, if_true]
    rw [ih (I / 128) (Nat.div_lt_self (by omega) (by decide))]
    have hI : I * 2 ^ M = I % 128 * 2 ^ M + I / 128 * 2 ^ (M + 7) := by
      rw [Nat.pow_add, Nat.mul_comm (2 ^ M) (2 ^ 7), ← Nat.mul_assoc, ← Nat.add_mul]
      congr 1
      omega
    rw [hI, Nat.add_assoc]

theorem lt_bitwiseLength_iff {bits n : ℕ} : bits < bitwiseLength n ↔ 2 ^ bits ≤ n := by
  rw [bitwiseLength]
  split_ifs with h
  · subst h
    have := Nat.two_pow_pos bits
    omega
  · rw [Nat.lt_succ_iff, Nat.le_log2 h]

theorem exists_writeHpackInteger {n mask : ℕ} (pre bits : ℕ) (hmask : 2 ^ bits = mask + 1)
    (h : n ≠ mask) :
    ∃ k tail, k < mask + 1 ∧ writeHpackInteger n pre bits = (pre ||| k) :: tail ∧
      (n ≤ mask → k = n) ∧ (mask < n → k = mask) ∧
      ∀ firstByte rest, firstByte &&& mask = k →
        readHpackInteger (tail ++ rest) firstByte mask = .ok (n, rest) := by
  have hones : 2 ^ bits - 1 = mask := by omega
  rw [writeHpackInteger, hones]
  split_ifs with hsize
  · have hn : mask < n := by
      have := lt_bitwiseLength_iff.1 hsize
      omega
    refine ⟨mask, _, by omega, rfl, fun h' => ?_, fun _ => rfl, ?_⟩
    · omega
    · intro firstByte rest hb
      rw [readHpackInteger, hb, if_pos rfl, readVariableInteger_write]
      congr 2
      omega
  · have hn : n < mask + 1 := by
      have := mt lt_bitwiseLength_iff.2 hsize
      omega
    refine ⟨n, [], hn, ?_, fun _ => rfl, fun h' => ?_, ?_⟩
    · rw [← hones, Nat.and_two_pow_sub_one_eq_mod, Nat.mod_eq_of_lt (hmask ▸ hn)]
    · omega
    · intro firstByte rest hb
      rw [readHpackInteger, hb, if_neg h]
      rfl

theorem writeHpackInteger_of_lt {n bits : ℕ} (pre : ℕ) (h : n < 2 ^ bits) :
    writeHpackInteger n pre bits = [pre ||| n] := by
  rw [writeHpackInteger, if_neg (mt lt_bitwiseLength_iff.1 (Nat.not_le_of_lt h)),
    Nat.and_two_pow_sub_one_eq_mod, Nat.mod_eq_of_lt h]

/-- An integer is read back from its bytes, and what follows them is left. -/
def ReadsBack (n pre bits : ℕ) : Prop :=
  ∀ rest, ∃ firstByte port, writeHpackInteger n pre bits ++ rest = firstByte :: port ∧
    readHpackInteger port firstByte (2 ^ bits - 1) = .ok (n, rest)

/-- **An integer is read back exactly if it does not fill its bits with ones.** -/
theorem readsBack_iff (n flags bits : ℕ) :
    ReadsBack n (flags * 2 ^ bits) bits ↔ n ≠ 2 ^ bits - 1 := by
  have hpos := Nat.two_pow_pos bits
  have hbits : ∀ k < 2 ^ bits, (flags * 2 ^ bits ||| k) &&& (2 ^ bits - 1) = k := by
    intro k hk
    rw [Nat.and_two_pow_sub_one_eq_mod, Nat.or_mod_two_pow, Nat.mul_mod_left, Nat.zero_or,
      Nat.mod_eq_of_lt hk]
  constructor
  · intro h hn
    obtain ⟨firstByte, port, hwrite, hread⟩ := h []
    rw [writeHpackInteger_of_lt _ (by omega), hn] at hwrite
    cases hwrite
    rw [readHpackInteger, hbits _ (by omega), if_pos rfl] at hread
    cases hread
  · intro h rest
    obtain ⟨k, tail, hk, hwrite, -, -, hread⟩ :=
      exists_writeHpackInteger (flags * 2 ^ bits) bits (by omega : _ = 2 ^ bits - 1 + 1) h
    rw [hwrite]
    exact ⟨_, _, rfl, hread _ rest (hbits k (by omega))⟩

/-- The index 127 is written as one byte, after which the reader expects another one. -/
theorem readsBack_ones : ¬ ReadsBack 127 0x80 7 := by
  intro h
  obtain ⟨firstByte, port, hwrite, hread⟩ := h []
  cases hwrite
  cases hread

/-! ### Strings -/

theorem string_bits : ∀ k < 0x7F + 1,
    (0 ||| k) &&& 0x80 ≠ 0x80 ∧ (0 ||| k) &&& 0x7F = k ∧
      (0x80 ||| k) &&& 0x80 = 0x80 ∧ (0x80 ||| k) &&& 0x7F = k := by
  decide

theorem getBytevectorN_append (bv rest : Bytevector) :
    getBytevectorN (bv ++ rest) bv.length = (some bv, rest) := by
  rw [getBytevectorN, if_neg, take_left', drop_left']
  · rfl
  · rfl
  · rintro ⟨hlen, hnil⟩
    rw [append_eq_nil_iff] at hnil
    exact hlen (by rw [hnil.1]; rfl)

variable {huffman : HuffmanCoder}

theorem writeHpackString_short {value : Bytevector} (h : value.length < 2 ^ 7) :
    writeHpackString huffman value true = value.length :: value := by
  simp only [writeHpackString, codedString, if_true]
  rw [writeHpackInteger_of_lt _ h, Nat.zero_or]
  rfl

/-- **A string is read back**, unless its bytes are 127. -/
theorem readHpackString_write {value : Bytevector} {noHuffman : Bool}
    (h : (codedString huffman value noHuffman).length ≠ 127) (rest : Bytevector) :
    readHpackString huffman (writeHpackString huffman value noHuffman ++ rest) =
      .ok (some value, rest) := by
  cases noHuffman with
  | true =>
    obtain ⟨k, tail, hk, hw, -, -, hread⟩ := exists_writeHpackInteger 0x00 7 rfl h
    obtain ⟨h1, h2, -, -⟩ := string_bits k hk
    simp only [writeHpackString, if_true]
    rw [hw]
    simp only [cons_append, append_assoc, readHpackString]
    rw [hread _ _ h2]
    simp only [bind, Except.bind, h1, if_false, pure, Except.pure]
    rw [getBytevectorN_append]
    rfl
  | false =>
    obtain ⟨k, tail, hk, hw, -, -, hread⟩ := exists_writeHpackInteger 0x80 7 rfl h
    obtain ⟨-, -, h1, h2⟩ := string_bits k hk
    simp only [writeHpackString, Bool.false_eq_true, if_false]
    rw [hw]
    simp only [cons_append, append_assoc, readHpackString]
    rw [hread _ _ h2]
    simp only [bind, Except.bind, h1, if_true, pure, Except.pure]
    rw [take_left' rfl, drop_left' rfl]
    simp only [codedString, Bool.false_eq_true, if_false, huffman.decode_encode]

end Sagittarius.Hpack
