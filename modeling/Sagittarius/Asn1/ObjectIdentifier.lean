import Mathlib.Data.List.ModifyLast
import Mathlib.Data.Nat.Size
import Mathlib.Tactic.Ring

/-!
# Object identifiers

An object identifier is a dotted string of numbers, its arcs.  `der-encode` writes the first two
arcs as one number, and each number with seven bits to a byte; `make-der-object-identifier` of the
bytes makes the string again.

* `validIdentifier` : the strings that are accepted;
* `decode_writeField` : a number is read back;
* `object_identifier_iff` : **an identifier is read back exactly if its second arc is below 40, or
  its first arc is 2**, and these identifiers have different encodings.
-/

namespace Sagittarius.Asn1

open List Nat

/-! ### The functions -/

/-- The loop of `valid-identifier?`, over the characters from the last one on. -/
def validLoop : List Char → Bool → Bool
  | [], periodAllowed => periodAllowed
  | ch :: s, periodAllowed =>
    if ch.isDigit then validLoop s true
    else if ch = '.' then periodAllowed && validLoop s false
    else false

/-- `valid-identifier?` on the characters of a text. -/
def validIdentifier : List Char → Bool
  | c :: p :: s => s ≠ [] && p = '.' && ('0' ≤ c && c ≤ '2') && validLoop s.reverse false
  | _ => false

/-- The tokens of an `<oid-tokenizer>`. -/
def tokens (oid : List Char) : List (List Char) := oid.splitOn '.'

/-- `string->number` of a token. -/
def stringToNumber (token : List Char) : Option ℕ :=
  if token ≠ [] ∧ token.all Char.isDigit then some (ofDigitChars 10 token 0) else none

/-- The loop of `write-field`, which fills `tmp` from its end. -/
def fieldLoop : ℕ → ℕ → List ℕ → List ℕ
  | 0, _, tmp => tmp
  | i + 1, f, tmp => fieldLoop i (f >>> 7) ((f &&& 0x7f ||| 0x80) :: tmp)

/-- The bytes of an arc. -/
def writeField (f : ℕ) : List ℕ :=
  let byteCount := (f.size + 6) / 7
  if byteCount = 0 then [0] else (fieldLoop byteCount f []).modifyLast (· &&& 0x7f)

/-- The content that `der-encode` writes. -/
def derContent (oid : List Char) : Option (List ℕ) :=
  match tokens oid with
  | first :: second :: rest => do
    let first ← stringToNumber first
    let second ← stringToNumber second
    let rest ← rest.mapM stringToNumber
    return writeField (first * 40 + second) ++ rest.flatMap writeField
  | _ => none

/-- `size` of `write-length` -/
def lengthSize (len : ℕ) : ℕ := if len / 256 = 0 then 1 else lengthSize (len / 256) + 1

/-- The length octets of DER. -/
def writeLength (len : ℕ) : List ℕ :=
  if len > 127 then
    (lengthSize len ||| 0x80) ::
      (range (lengthSize len)).reverse.map fun i => (len >>> (i * 8)) &&& 0xff
  else [len]

/-- `der-encode`, with `der-write-encoded`. -/
def derEncode (oid : List Char) : Option (List ℕ) :=
  (derContent oid).map fun bytes => 0x06 :: (writeLength bytes.length ++ bytes)

/-- The first arc and the second one, when `value` is the first number. -/
def splitFirst (value : ℕ) : Char × ℕ :=
  if value / 40 = 0 then ('0', value)
  else if value / 40 = 1 then ('1', value - 40)
  else ('2', value - 80)

/-- The loop of `make-der-object-identifier`. -/
def decodeLoop : List ℕ → ℕ → Bool → List Char
  | [], _, _ => []
  | b :: bytes, value, first =>
    let value := value * 128 + (b &&& 0x7f)
    if b &&& 0x80 = 0 then
      (if first then (splitFirst value).1 :: '.' :: toDigits 10 (splitFirst value).2
        else '.' :: toDigits 10 value) ++ decodeLoop bytes 0 false
    else decodeLoop bytes value first

/-- `make-der-object-identifier` of bytes -/
def decode (bytes : List ℕ) : List Char := decodeLoop bytes 0 true

/-! ### Numbers -/

variable {f v : ℕ} {first : Bool}

theorem byte_bits : ∀ x < 128, (x ||| 0x80) &&& 0x7f = x ∧ (x ||| 0x80) &&& 0x80 ≠ 0 ∧
    x &&& 0x7f = x ∧ x &&& 0x80 = 0 := by decide

theorem decodeLoop_fieldLoop (i f : ℕ) (tmp : List ℕ) (v : ℕ) (first : Bool) :
    decodeLoop (fieldLoop i f tmp) v first =
      decodeLoop tmp (v * 128 ^ i + f % 128 ^ i) first := by
  induction i generalizing f tmp with
  | zero => simp [fieldLoop, mod_one]
  | succ i ih =>
    have hlow : f &&& 0x7f = f % 128 := and_two_pow_sub_one_eq_mod f 7
    obtain ⟨h1, h2, -⟩ := byte_bits (f % 128) (mod_lt _ (by decide))
    rw [fieldLoop, ih, decodeLoop, hlow, if_neg h2, h1, shiftRight_eq_div_pow,
      Nat.pow_succ' (m := 128), mod_mul]
    congr 1
    ring

theorem fieldLoop_append (i f : ℕ) (tmp tmp' : List ℕ) :
    fieldLoop i f (tmp ++ tmp') = fieldLoop i f tmp ++ tmp' := by
  induction i generalizing f tmp with
  | zero => rfl
  | succ i ih => exact ih (f >>> 7) (_ :: tmp)

theorem decode_writeField (f : ℕ) (rest : List ℕ) (first : Bool) :
    decodeLoop (writeField f ++ rest) 0 first =
      (if first then (splitFirst f).1 :: '.' :: toDigits 10 (splitFirst f).2
        else '.' :: toDigits 10 f) ++ decodeLoop rest 0 false := by
  rw [writeField]
  cases hn : (f.size + 6) / 7 with
  | zero =>
    obtain rfl : f = 0 := size_eq_zero.1 (by omega)
    rfl
  | succ n =>
    obtain ⟨h1, -, h2, h3⟩ := byte_bits (f % 128) (mod_lt _ (by decide))
    have hlow : f &&& 0x7f = f % 128 := and_two_pow_sub_one_eq_mod f 7
    have hlast : (fieldLoop (n + 1) f []).modifyLast (· &&& 0x7f) =
        fieldLoop n (f >>> 7) [f % 128] := by
      rw [fieldLoop, hlow, ← nil_append [_], fieldLoop_append, modifyLast_concat, h1,
        ← fieldLoop_append]
      rfl
    -- the number has no more bits than the bytes
    have hf : f >>> 7 < 128 ^ n := by
      have hlt : f < 2 ^ (7 * n + 7) :=
        (lt_size_self f).trans_le (Nat.pow_le_pow_right two_pos (by omega))
      rw [shiftRight_eq_div_pow, div_lt_iff_lt_mul (by decide), show 128 = 2 ^ 7 from rfl,
        ← pow_mul, ← pow_add]
      exact hlt
    rw [if_neg (succ_ne_zero n), hlast, ← fieldLoop_append, decodeLoop_fieldLoop, mod_eq_of_lt hf,
      singleton_append, decodeLoop, h2, if_pos h3, Nat.zero_mul, Nat.zero_add,
      shiftRight_eq_div_pow, div_add_mod']

/-! ### Identifiers -/

/-- The string with the given arcs. -/
def dotted (arcs : List ℕ) : List Char := ['.'].intercalate (arcs.map (toDigits 10))

/-- The identifiers that are read back. -/
def Allowed : List ℕ → Prop
  | a :: b :: _ => a = 2 ∨ b < 40
  | _ => False

theorem tokens_dotted {arcs : List ℕ} (h : arcs ≠ []) :
    tokens (dotted arcs) = arcs.map (toDigits 10) := by
  refine splitOn_intercalate '.' ?_ (by simpa using h)
  intro l hl
  obtain ⟨n, -, rfl⟩ := mem_map.1 hl
  intro hdot
  cases isDigit_of_mem_toDigits (by decide) (by decide) hdot

theorem stringToNumber_toDigits (n : ℕ) : stringToNumber (toDigits 10 n) = some n := by
  have hall : (toDigits 10 n).all Char.isDigit = true :=
    all_eq_true.2 fun c hc => isDigit_of_mem_toDigits (by decide) (by decide) hc
  rw [stringToNumber, if_pos ⟨toDigits_ne_nil, hall⟩, ofDigitChars_ten_toDigits]

theorem derContent_dotted (a b : ℕ) (arcs : List ℕ) :
    derContent (dotted (a :: b :: arcs)) =
      some (writeField (a * 40 + b) ++ arcs.flatMap writeField) := by
  have hrest : (arcs.map (toDigits 10)).mapM stringToNumber = some arcs := by
    induction arcs with
    | nil => rfl
    | cons n arcs ih => simp [stringToNumber_toDigits, ih]
  rw [derContent, tokens_dotted (cons_ne_nil _ _)]
  simp [stringToNumber_toDigits, hrest]

theorem dotted_cons (a : ℕ) (arcs : List ℕ) :
    dotted (a :: arcs) = toDigits 10 a ++ arcs.flatMap fun n => '.' :: toDigits 10 n := by
  induction arcs generalizing a with
  | nil => simp [dotted]
  | cons b arcs ih =>
    rw [flatMap_cons, cons_append, ← ih b, append_cons]
    exact intercalate_cons_cons

/-- An identifier that is accepted has two arcs, the first of which is at most 2. -/
theorem exists_of_valid {arcs : List ℕ} (h : validIdentifier (dotted arcs) = true) :
    ∃ a b rest, arcs = a :: b :: rest ∧ a ≤ 2 := by
  cases arcs with
  | nil => cases h
  | cons a arcs =>
    have hvalue := ofDigitChars_ten_toDigits (n := a)
    have hdigit : ∀ c ∈ toDigits 10 a, c.isDigit = true := fun c hc =>
      isDigit_of_mem_toDigits (by decide) (by decide) hc
    rw [dotted_cons] at h
    match hd : toDigits 10 a with
    | [] => exact absurd hd toDigits_ne_nil
    | c :: d :: ds =>
      rw [hd] at h hdigit
      simp only [cons_append, validIdentifier, Bool.and_eq_true, decide_eq_true_eq] at h
      have := hdigit d (by simp)
      rw [h.1.1.2] at this
      cases this
    | [c] =>
      rw [hd] at h hvalue
      cases arcs with
      | nil => cases h
      | cons b rest =>
        refine ⟨a, b, rest, rfl, ?_⟩
        simp only [flatMap_cons, cons_append, nil_append, validIdentifier, Bool.and_eq_true,
          decide_eq_true_eq] at h
        have hle : c.toNat ≤ 50 := h.1.2.2
        simp only [ofDigitChars_cons, ofDigitChars_nil] at hvalue
        simp at hvalue
        omega

theorem decode_fields (arcs : List ℕ) :
    decodeLoop (arcs.flatMap writeField) 0 false = arcs.flatMap fun n => '.' :: toDigits 10 n := by
  induction arcs with
  | nil => rfl
  | cons n arcs ih => rw [flatMap_cons, decode_writeField, ih, flatMap_cons, if_neg (by decide)]

theorem splitFirst_iff {a : ℕ} (b : ℕ) (ha : a ≤ 2) :
    splitFirst (a * 40 + b) = (digitChar a, b) ↔ a = 2 ∨ b < 40 := by
  rw [splitFirst]
  obtain rfl | rfl | rfl : a = 0 ∨ a = 1 ∨ a = 2 := by omega
  all_goals
    split_ifs <;> simp [digitChar] <;> omega

theorem exists_derContent {arcs : List ℕ} (h : validIdentifier (dotted arcs) = true) :
    ∃ bytes, derContent (dotted arcs) = some bytes ∧
      (decode bytes = dotted arcs ↔ Allowed arcs) := by
  obtain ⟨a, b, rest, rfl, ha⟩ := exists_of_valid h
  refine ⟨_, derContent_dotted a b rest, ?_⟩
  have hdigit : toDigits 10 a = [digitChar a] := toDigits_of_lt_base (by omega)
  rw [decode, decode_writeField, decode_fields, if_pos rfl, dotted_cons, flatMap_cons, hdigit,
    Allowed, ← splitFirst_iff b ha]
  constructor
  · intro heq
    simp only [cons_append, nil_append, cons.injEq, true_and, append_left_inj] at heq
    refine Prod.ext heq.1 ?_
    have := congrArg (ofDigitChars 10 · 0) heq.2
    simpa using this
  · intro heq
    rw [heq]
    rfl

/-! ### Lengths -/

theorem lengthSize_mono {m n : ℕ} (h : m ≤ n) : lengthSize m ≤ lengthSize n := by
  fun_induction lengthSize n generalizing m with
  | case1 n hn =>
    rw [lengthSize, if_pos (by omega)]
  | case2 n hn ih =>
    rw [lengthSize]
    split_ifs
    · omega
    · exact Nat.add_le_add_right (ih (Nat.div_le_div_right h)) 1

theorem length_writeLength_mono {m n : ℕ} (h : m ≤ n) :
    (writeLength m).length ≤ (writeLength n).length := by
  have := lengthSize_mono h
  rw [writeLength, writeLength]
  split_ifs <;> simp <;> omega

theorem writeLength_append_inj {c c' : List ℕ}
    (h : writeLength c.length ++ c = writeLength c'.length ++ c') : c = c' := by
  have hlen := congrArg length h
  rw [length_append, length_append] at hlen
  refine append_inj_right' h ?_
  rcases le_total c.length c'.length with hle | hle
  · have := length_writeLength_mono hle
    omega
  · have := length_writeLength_mono hle
    omega

/-- **An identifier that is accepted is read back exactly if its second arc is below 40 or its first
arc is 2, and no two of these have the same encoding.** -/
theorem object_identifier_iff (arcs : List ℕ) (h : validIdentifier (dotted arcs) = true) :
    (∃ bytes, derContent (dotted arcs) = some bytes ∧
      (decode bytes = dotted arcs ↔ Allowed arcs)) ∧
    ∀ arcs', validIdentifier (dotted arcs') = true → Allowed arcs → Allowed arcs' →
      derEncode (dotted arcs) = derEncode (dotted arcs') → dotted arcs = dotted arcs' := by
  refine ⟨exists_derContent h, fun arcs' h' ha ha' heq => ?_⟩
  obtain ⟨bytes, hbytes, hiff⟩ := exists_derContent h
  obtain ⟨bytes', hbytes', hiff'⟩ := exists_derContent h'
  rw [derEncode, derEncode, hbytes, hbytes'] at heq
  have hcontent := writeLength_append_inj (cons.inj (Option.some.inj heq)).2
  rw [← hiff.2 ha, ← hiff'.2 ha', hcontent]

theorem object_identifier_rsa : validIdentifier (dotted [1, 2, 840, 113549]) = true ∧
    ∃ bytes, derContent (dotted [1, 2, 840, 113549]) = some bytes ∧
      (decode bytes = dotted [1, 2, 840, 113549] ↔ Allowed [1, 2, 840, 113549]) :=
  ⟨by decide, (object_identifier_iff [1, 2, 840, 113549] (by decide)).1⟩

/-- `0.40` is accepted and has the encoding of `1.0`, as which it is read back. -/
theorem object_identifier_clash : validIdentifier ['0', '.', '4', '0'] = true ∧
    validIdentifier ['1', '.', '0'] = true ∧
    derEncode ['0', '.', '4', '0'] = derEncode ['1', '.', '0'] ∧
    (derContent ['0', '.', '4', '0']).map decode = some ['1', '.', '0'] := by
  decide

end Sagittarius.Asn1
