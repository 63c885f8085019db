import Sagittarius.Text.Transcoder

/-!
# Line ends

What `resolve_eol` does to a chunk of characters, compared with the text that a port with an end of
line style is for.

* `normaliseEol` : every line end is replaced by one `LF`;
* `resolveEol_spec` : `resolve_eol` replaces the line ends of the chunk.  For a `CR` at the end of
  the chunk it looks at the cell behind it, and takes away a character that is not part of the
  chunk.
-/

namespace Sagittarius.Text

open List Function Nat

/-! ### Specification -/

/-- A character that is a line end, alone or with another one behind it -/
def isEol (c : SgChar) : Prop := c = LF ∨ c = NEL ∨ c = LS ∨ c = CR

instance (c : SgChar) : Decidable (isEol c) := inferInstanceAs (Decidable (_ ∨ _))

/-- The second half of `CR LF` and `CR NEL` -/
def isSecond (c : SgChar) : Prop := c = LF ∨ c = NEL

instance (c : SgChar) : Decidable (isSecond c) := inferInstanceAs (Decidable (_ ∨ _))

/-- A line end that is one character -/
def eolChar (c : SgChar) : SgChar := if isEol c then LF else c

/-- Every `LF`, `NEL`, `LS`, `CR`, `CR LF` and `CR NEL` is replaced by one `LF`. -/
def normaliseEol : List SgChar → List SgChar
  | [] => []
  | [c] => [eolChar c]
  | c :: d :: l =>
    if c = CR ∧ isSecond d then LF :: normaliseEol l else eolChar c :: normaliseEol (d :: l)

/-- The text that a port with an end of line style is for -/
def portText (eolStyle : EolStyle) (s : List SgChar) : List SgChar :=
  if eolStyle = .none then s else normaliseEol s

theorem isEol_CR : isEol CR := .inr (.inr (.inr rfl))

theorem eolChar_CR : eolChar CR = LF := if_pos isEol_CR

theorem isEol_iff {c : SgChar} (hc : c ≠ CR) : isEol c ↔ c = LF ∨ c = NEL ∨ c = LS := by
  simp [isEol, hc]

theorem normaliseEol_cons {c : SgChar} (hc : c ≠ CR) (l : List SgChar) :
    normaliseEol (c :: l) = eolChar c :: normaliseEol l := by
  cases l with
  | nil => rfl
  | cons d l => rw [normaliseEol, if_neg fun h => hc h.1]

theorem normaliseEol_pair {d : SgChar} (hd : isSecond d) (l : List SgChar) :
    normaliseEol (CR :: d :: l) = LF :: normaliseEol l := by
  rw [normaliseEol, if_pos ⟨rfl, hd⟩]

theorem normaliseEol_of_not_mem {l : List SgChar} (hl : CR ∉ l) :
    normaliseEol l = l.map eolChar := by
  induction l with
  | nil => rfl
  | cons c l ih =>
    rw [mem_cons, not_or] at hl
    rw [normaliseEol_cons (Ne.symm hl.1), ih hl.2, map_cons]

theorem ne_of_isSecond {d : SgChar} (hd : isSecond d) : d ≠ CR := by
  rcases hd with rfl | rfl
  · decide
  · decide

theorem length_normaliseEol_le (l : List SgChar) : (normaliseEol l).length ≤ l.length := by
  induction l using normaliseEol.induct with
  | case1 | case2 c => exact le_rfl
  | case3 c d l hpair ih =>
    rw [normaliseEol, if_pos hpair]
    exact succ_le_succ (ih.trans (le_succ _))
  | case4 c d l hpair ih =>
    rw [normaliseEol, if_neg hpair]
    exact succ_le_succ ih

theorem length_portText_le (eolStyle : EolStyle) (s : List SgChar) :
    (portText eolStyle s).length ≤ s.length := by
  unfold portText
  split
  · exact le_rfl
  · exact length_normaliseEol_le s

@[simp] theorem portText_nil (eolStyle : EolStyle) : portText eolStyle [] = [] := by
  unfold portText
  split
  · rfl
  · rfl

theorem length_normaliseEol_le_cons (c : SgChar) (l : List SgChar) :
    (normaliseEol l).length ≤ (normaliseEol (c :: l)).length := by
  cases l with
  | nil => exact Nat.zero_le _
  | cons d l =>
    by_cases h : c = CR ∧ isSecond d
    · rw [h.1, normaliseEol_pair h.2, normaliseEol_cons (ne_of_isSecond h.2)]
      exact le_rfl
    · rw [normaliseEol, if_neg h]
      exact le_succ _

theorem normaliseEol_snoc {l : List SgChar} (hl : CR ∉ l) :
    normaliseEol (l ++ [CR]) = l.map eolChar ++ [LF] := by
  induction l with
  | nil => rfl
  | cons c l ih =>
    rw [mem_cons, not_or] at hl
    rw [cons_append, normaliseEol_cons (Ne.symm hl.1), ih hl.2]
    rfl

theorem eq_of_mem_normaliseEol {l : List SgChar} {c : SgChar} (hc : c ∈ normaliseEol l)
    (heol : isEol c) : c = LF := by
  have hone : ∀ d, c = eolChar d → c = LF := by
    rintro d rfl
    by_cases hd : isEol d
    · exact if_pos hd
    · rw [eolChar, if_neg hd] at heol
      exact (hd heol).elim
  induction l using normaliseEol.induct with
  | case1 => cases hc
  | case2 d => exact hone d (mem_singleton.1 hc)
  | case3 d e l hpair ih =>
    rw [normaliseEol, if_pos hpair] at hc
    exact (mem_cons.1 hc).elim id ih
  | case4 d e l hpair ih =>
    rw [normaliseEol, if_neg hpair] at hc
    exact (mem_cons.1 hc).elim (hone d) ih

/-! ### Memory -/

/-- The memory holds the characters from an address on. -/
def Cells (mem : Memory) : ℕ → List SgChar → Prop
  | _, [] => True
  | a, c :: l => mem a = c ∧ Cells mem (a + 1) l

variable {mem mem' : Memory} {a : ℕ} {l l' : List SgChar}

theorem Cells.congr (h : Cells mem a l) (hmem : ∀ k, a ≤ k → k < a + l.length → mem' k = mem k) :
    Cells mem' a l := by
  induction l generalizing a with
  | nil => trivial
  | cons c l ih =>
    rw [length_cons] at hmem
    refine ⟨(hmem a le_rfl (by omega)).trans h.1, ih h.2 fun k hk hlt => hmem k ?_ ?_⟩
    · exact le_of_succ_le hk
    · omega

theorem cells_append : Cells mem a (l ++ l') ↔ Cells mem a l ∧ Cells mem (a + l.length) l' := by
  induction l generalizing a with
  | nil => simp [Cells]
  | cons c l ih =>
    rw [cons_append, Cells, Cells, ih, and_assoc, length_cons, Nat.add_comm l.length,
      Nat.add_assoc]

theorem cells_iff_getElem : Cells mem a l ↔ ∀ k, (hk : k < l.length) → mem (a + k) = l[k] := by
  induction l generalizing a with
  | nil => exact ⟨fun _ k hk => (Nat.not_lt_zero k hk).elim, fun _ => trivial⟩
  | cons c l ih =>
    rw [Cells, ih]
    constructor
    · rintro ⟨hc, hl⟩ k hk
      cases k with
      | zero => exact hc
      | succ k =>
        rw [← succ_add_eq_add_succ]
        exact hl k (lt_of_succ_lt_succ hk)
    · intro h
      refine ⟨h 0 (zero_lt_succ _), fun k hk => ?_⟩
      rw [succ_add_eq_add_succ]
      exact h (k + 1) (succ_lt_succ hk)

theorem cells_write (mem : Memory) (a : ℕ) (l : List SgChar) : Cells (mem.write a l) a l := by
  refine cells_iff_getElem.2 fun k hk => ?_
  simp [Memory.write, hk]

variable {k : ℕ}

theorem write_of_lt (h : k < a) : mem.write a l k = mem k := if_neg (Nat.not_le.2 h)

theorem write_of_le (h : a + l.length ≤ k) : mem.write a l k = mem k := by
  rw [Memory.write]
  split
  · rw [getElem?_eq_none (by omega)]
    rfl
  · rfl

theorem Cells.map_range (h : Cells mem 0 l) : (List.range l.length).map mem = l := by
  refine ext_getElem (by simp) fun k _ hk => ?_
  rw [getElem_map, getElem_range, ← cells_iff_getElem.1 h k hk, Nat.zero_add]

/-! ### `resolve_eol` -/

variable {eolStyle : EolStyle} {stop dst src i count diff : ℕ}

theorem resolveEolLoop_one (hstyle : eolStyle ≠ .none) (hi : i < count) (hsrc : src < stop)
    (hpair : ¬ (mem src = CR ∧ isSecond (mem (src + 1)))) :
    resolveEolLoop eolStyle stop (k + 1) mem dst src i count diff =
      resolveEolLoop eolStyle stop k (update mem dst (eolChar (mem src))) (dst + 1)
        (src + 1) (i + 1) count diff := by
  rw [resolveEolLoop, if_pos ⟨hi, hsrc⟩, if_neg hstyle]
  by_cases hcr : mem src = CR
  · have hone : ¬ (CR = LF ∨ CR = NEL ∨ CR = LS) := by decide
    have hsecond : ¬ (mem (src + 1) = LF ∨ mem (src + 1) = NEL) := fun h => hpair ⟨hcr, h⟩
    rw [hcr, if_neg hone, if_pos rfl, if_neg hsecond, eolChar_CR]
  · by_cases heol : isEol (mem src)
    · rw [if_pos ((isEol_iff hcr).1 heol), eolChar, if_pos heol]
    · rw [if_neg (mt (isEol_iff hcr).2 heol), if_neg hcr, eolChar, if_neg heol]

theorem resolveEolLoop_two (hstyle : eolStyle ≠ .none) (hi : i < count) (hsrc : src < stop)
    (hcr : mem src = CR) (hsecond : isSecond (mem (src + 1))) :
    resolveEolLoop eolStyle stop (k + 1) mem dst src i count diff =
      resolveEolLoop eolStyle stop k (update mem dst LF) (dst + 1) (src + 2) (i + 1)
        (count + 1) (diff + 1) := by
  have hone : ¬ (mem src = LF ∨ mem src = NEL ∨ mem src = LS) := by
    rw [hcr]
    decide
  rw [resolveEolLoop, if_pos ⟨hi, hsrc⟩, if_neg hstyle, if_neg hone, if_pos hcr]
  exact if_pos hsecond

theorem resolveEolLoop_done (hsrc : stop ≤ src) (k : ℕ) (mem : Memory) (i count diff : ℕ) :
    resolveEolLoop eolStyle stop k mem dst src i count diff = (mem, diff) := by
  cases k with
  | zero => rfl
  | succ k => rw [resolveEolLoop, if_neg fun h => Nat.not_le.2 h.2 hsrc]

theorem Cells.update (h : Cells mem a l) (hdst : dst < a) (v : SgChar) :
    Cells (update mem dst v) a l :=
  h.congr fun _ hk _ => update_of_ne (hdst.trans_le hk).ne' _ _

/-- What the loop writes and what it counts, if `u` is left and `next` is the cell behind it -/
structure Resolved (mem : Memory) (dst : ℕ) (u : List SgChar) (stop diff : ℕ)
    (res : Memory × ℕ) : Prop where
  cells : Cells res.1 dst (normaliseEol u)
  before : ∀ k < dst, res.1 k = mem k
  behind : ∀ k, stop ≤ k → res.1 k = mem k
  diff_eq : res.2 + (normaliseEol u).length =
    diff + u.length + if u.getLast? = some CR ∧ isSecond (mem stop) then 1 else 0

theorem Resolved.cons {diff' : ℕ} {u u' : List SgChar} {v : SgChar} {res : Memory × ℕ}
    (h : Resolved (update mem dst v) (dst + 1) u' stop diff' res) (hstop : dst < stop)
    (hnorm : normaliseEol u = v :: normaliseEol u')
    (hlast : u.getLast? = some CR ∧ isSecond (mem stop) ↔ u'.getLast? = some CR ∧ isSecond (mem
      stop))
    (hdiff : diff' + u'.length + 1 = diff + u.length) :
    Resolved mem dst u stop diff res where
  cells := by
    rw [hnorm]
    exact ⟨(h.before dst (lt_succ_self _)).trans (update_self ..), h.cells⟩
  before k hk := by
    rw [h.before k (hk.trans (lt_succ_self _)), update_of_ne hk.ne]
  behind k hk := by
    rw [h.behind k hk, update_of_ne (hstop.trans_le hk).ne']
  diff_eq := by
    have heq := h.diff_eq
    rw [update_of_ne hstop.ne'] at heq
    rw [hnorm, length_cons, if_congr hlast rfl rfl]
    omega

theorem resolveEolLoop_spec (hstyle : eolStyle ≠ .none) (u : List SgChar) (hu : Cells mem src u)
    (hdst : dst ≤ src) (hk : u.length ≤ k) (hcount : i + u.length ≤ count) :
    Resolved mem dst u (src + u.length) diff
      (resolveEolLoop eolStyle (src + u.length) k mem dst src i count diff) := by
  induction u using normaliseEol.induct generalizing mem k dst src i count diff with
  | case1 =>
    rw [length_nil, Nat.add_zero, resolveEolLoop_done le_rfl]
    exact ⟨trivial, fun _ _ => rfl, fun _ _ => rfl, by simp [normaliseEol]⟩
  | case2 c =>
    obtain ⟨k, rfl⟩ : ∃ m, k = m + 1 := ⟨k - 1, (succ_pred_eq_of_pos hk).symm⟩
    have hsrc : src < src + 1 := lt_succ_self _
    have hi : i < count := hcount
    have hlen : [c].length = 1 := rfl
    rw [hlen]
    by_cases hpair : mem src = CR ∧ isSecond (mem (src + 1))
    · -- the cell behind the chunk counts as the second half of the line end
      have hc : c = CR := hu.1.symm.trans hpair.1
      rw [resolveEolLoop_two hstyle hi hsrc hpair.1 hpair.2,
        resolveEolLoop_done (le_succ _)]
      have hne : ∀ j, j ≠ dst → update mem dst LF j = mem j := fun j hj =>
        update_of_ne hj _ _
      refine ⟨⟨?_, trivial⟩, fun j hj => hne j hj.ne, fun j hj => hne j (by omega), ?_⟩
      · rw [hc, eolChar_CR]
        exact update_self ..
      · rw [if_pos ⟨by rw [hc]; rfl, hpair.2⟩]
        rfl
    · rw [resolveEolLoop_one hstyle hi hsrc hpair, resolveEolLoop_done le_rfl, hu.1]
      have hne : ∀ j, j ≠ dst → update mem dst (eolChar c) j = mem j := fun j hj =>
        update_of_ne hj _ _
      refine ⟨⟨update_self .., trivial⟩, fun j hj => hne j hj.ne,
        fun j hj => hne j (by omega), ?_⟩
      rw [if_neg fun h => hpair ⟨hu.1.trans (Option.some.inj h.1), h.2⟩]
      rfl
  | case3 c d l hpair ih =>
    obtain ⟨k, rfl⟩ : ∃ m, k = m + 1 := ⟨k - 1, by rw [length_cons] at hk; omega⟩
    obtain ⟨hc, hd, hl⟩ := hu
    have hlen : src + (c :: d :: l).length = src + 2 + l.length := by
      simp only [length_cons]
      omega
    rw [hlen, resolveEolLoop_two hstyle (by omega) (by omega) (hc.trans hpair.1)
      (hd.symm ▸ hpair.2)]
    refine Resolved.cons (ih (hl.update (by omega) LF) (by omega) (by omega) (by omega)) (by omega)
      ?_ ?_ (by simp only [length_cons]; omega)
    · rw [normaliseEol, if_pos hpair]
    · refine and_congr_left fun _ => ?_
      cases l with
      | nil =>
        have hne := ne_of_isSecond hpair.2
        simp [hne]
      | cons e l => simp
  | case4 c d l hpair ih =>
    obtain ⟨k, rfl⟩ : ∃ m, k = m + 1 := ⟨k - 1, by rw [length_cons] at hk; omega⟩
    simp only [length_cons] at hk hcount
    obtain ⟨hc, hdl⟩ := hu
    have hd : mem (src + 1) = d := hdl.1
    have hlen : src + (c :: d :: l).length = src + 1 + (d :: l).length := by
      simp only [length_cons]
      omega
    rw [hlen, resolveEolLoop_one hstyle (by omega) (by simp only [length_cons]; omega)
      (by rwa [hc, hd]), hc]
    refine Resolved.cons (ih (hdl.update (by omega) _) (by omega)
      (by simp only [length_cons]; omega) (by simp only [length_cons]; omega))
      (by simp only [length_cons]; omega) ?_ ?_
      (by simp only [length_cons]; omega)
    · rw [normaliseEol, if_neg hpair]
    · simp

theorem resolveEolLoop_none (k : ℕ) (mem : Memory) (src i count diff : ℕ) :
    resolveEolLoop .none stop k mem src src i count diff = (mem, diff) := by
  induction k generalizing src i with
  | zero => rfl
  | succ k ih =>
    rw [resolveEolLoop]
    split
    · rw [if_pos rfl, update_eq_self]
      exact ih (src + 1) (i + 1)
    · rfl

/-- **`resolve_eol` on a chunk**: the line ends are replaced, and a `CR` at the end is lost if there
happens to be the second half of a line end in the cell behind the chunk. -/
theorem resolveEol_spec (hstyle : eolStyle ≠ .none) {u : List SgChar} (hu : Cells mem a u) :
    Resolved mem a u (a + u.length) 0 (resolveEol eolStyle mem a u.length) :=
  resolveEolLoop_spec hstyle u hu le_rfl le_rfl (Nat.zero_add _).le

end Sagittarius.Text
