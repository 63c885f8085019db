import Sagittarius.Text.Codec
import Sagittarius.Text.EndOfLine
import Sagittarius.Text.Writers

/-!
# Requests for characters

A transcoded port is read by requests of any sizes.

* `Ready`, `Ready.serve` : without a `CR` in what is left to read, a request returns the next
  characters of the text;
* `requests_iff` : the requests together return the text, however it is split, exactly if the end of
  line style is none, or there is no `CR` in the text but at its beginning, before a character that
  can be read late;
* `written_reads_back` : what has been written is read back.
-/

namespace Sagittarius.Text

open List Nat Option

/-- A request for characters, with what the memory holds before -/
structure Request where
  size : ℕ
  pos : 0 < size
  mem : Memory

variable (src : Source) (tran : Transcoder) (n : ℕ)

/-- A transcoded port that has not been read -/
def TextPort.init : TextPort := ⟨⟨0, 0⟩, none⟩

/-- What the first `k` requests return -/
def reads (req : ℕ → Request) : ℕ → Option (List SgChar × TextPort)
  | 0 => some ([], .init)
  | k + 1 => do
    let (l, t) ← reads req k
    let (l', t) ← sgReadsUnsafe src tran n (req k).mem (req k).size t
    some (l ++ l', t)

variable {src tran n} {t t' : TextPort} {c : Char} {r : List Char} {k : ℕ}

/-! ### One character -/

/-- What becomes of a character that is not `CR` -/
def portChar (eolStyle : EolStyle) (c : SgChar) : SgChar :=
  if eolStyle = .none then c else eolChar c

/-- The characters of the rest of the text, as numbers -/
def codes (r : List Char) : List SgChar := r.map Char.toNat

/-- There is no `CR` that matters. -/
def Plain (eolStyle : EolStyle) (s : List SgChar) : Prop := eolStyle = .none ∨ CR ∉ s

theorem portText_of_plain {eolStyle : EolStyle} {s : List SgChar} (h : Plain eolStyle s) :
    portText eolStyle s = s.map (portChar eolStyle) := by
  unfold portText portChar
  split
  · exact (map_id' s).symm
  · rename_i hstyle
    exact normaliseEol_of_not_mem (h.resolve_left hstyle)

theorem Plain.sublist {eolStyle : EolStyle} {s s' : List SgChar} (h : Plain eolStyle s)
    (hs : s'.Sublist s) : Plain eolStyle s' :=
  h.imp id fun hs' hmem => hs' (hs.subset hmem)

theorem Left.getCharInternal (h : Left src t.port r) (tran : Transcoder) (n : ℕ) :
    ∃ p, Text.getCharInternal src tran (n + 1) t =
        some (r.head?.map Char.toNat, { t with port := p }) ∧ Left src p r.tail := by
  obtain ⟨p, hget, hleft⟩ := h.getUtf8Char tran.mode n
  exact ⟨p, by simp [Text.getCharInternal, hget], hleft⟩

theorem Left.getc_plain (h : Left src t.port r)
    (hc : tran.eolStyle = .none ∨ ∀ c ∈ r.head?, c.toNat ≠ CR) :
    ∃ p, transcoderGetc src tran (n + 1) t =
        some (r.head?.map fun c => portChar tran.eolStyle c.toNat, { t with port := p }) ∧
      Left src p r.tail := by
  obtain ⟨p, hget, hleft⟩ := h.getCharInternal tran n
  refine ⟨p, ?_, hleft⟩
  unfold transcoderGetc portChar
  rw [hget]
  by_cases hstyle : tran.eolStyle = .none
  · simp [hstyle]
  cases r with
  | nil => simp
  | cons c r =>
    have hcr := hc.resolve_left hstyle c rfl
    by_cases heol : isEol c.toNat
    · simp [hstyle, eolChar, heol, (isEol_iff hcr).1 heol]
    · simp [hstyle, eolChar, heol, mt (isEol_iff hcr).2 heol, hcr]

theorem Left.getc_CR (h : Left src t.port (c :: r)) (hstyle : tran.eolStyle ≠ .none)
    (hc : c.toNat = CR) (hahead : t.ahead = none) :
    ∃ t' r', transcoderGetc src tran (n + 1) t = some (some LF, t') ∧ Left src t'.port r' ∧
      ((∃ d, r = d :: r' ∧ isSecond d.toNat ∧ t'.ahead = none) ∨
        (r = [] ∧ r' = [] ∧ t'.ahead = none) ∨
        ∃ d, r = d :: r' ∧ ¬ isSecond d.toNat ∧ t'.ahead = some d.toNat) := by
  obtain ⟨port, ahead⟩ := t
  subst hahead
  obtain ⟨p, hget, hleft⟩ := h.getCharInternal tran n
  obtain ⟨p', hget', hleft'⟩ := Left.getCharInternal (t := ⟨p, none⟩) hleft tran n
  have hone : ¬ (CR = LF ∨ CR = NEL ∨ CR = LS) := by decide
  unfold transcoderGetc
  rw [hget]
  cases r with
  | nil =>
    refine ⟨⟨p', none⟩, [], ?_, hleft', .inr (.inl ⟨rfl, rfl, rfl⟩)⟩
    simp [hstyle, hc, hone, hget', TextPort.ungetc]
  | cons d r =>
    by_cases hd : isSecond d.toNat
    · refine ⟨⟨p', none⟩, r, ?_, hleft', .inl ⟨d, rfl, hd, rfl⟩⟩
      have hd' : d.toNat = LF ∨ d.toNat = NEL := hd
      simp [hstyle, hc, hone, hget', hd']
    · refine ⟨⟨p', some d.toNat⟩, r, ?_, hleft', .inr (.inr ⟨d, rfl, hd, rfl⟩)⟩
      have hd' : ¬ (d.toNat = LF ∨ d.toNat = NEL) := hd
      simp [hstyle, hc, hone, hget', hd', TextPort.ungetc]

/-! ### Chunks -/

/-- The number of characters that `resolve_eol` takes away at the end of a chunk -/
def cut (eolStyle : EolStyle) (u : List SgChar) (next : SgChar) : ℕ :=
  if eolStyle ≠ .none ∧ u.getLast? = some CR ∧ isSecond next then 1 else 0

theorem resolveEol_portText (eolStyle : EolStyle) {mem : Memory} {a : ℕ} {u : List SgChar}
    (hu : Cells mem a u) :
    Cells (resolveEol eolStyle mem a u.length).1 a (portText eolStyle u) ∧
      (∀ j, j < a ∨ a + u.length ≤ j → (resolveEol eolStyle mem a u.length).1 j = mem j) ∧
      u.length - (resolveEol eolStyle mem a u.length).2 =
        (portText eolStyle u).length - cut eolStyle u (mem (a + u.length)) := by
  by_cases hstyle : eolStyle = .none
  · subst hstyle
    rw [resolveEol, resolveEolLoop_none]
    exact ⟨hu, fun _ _ => rfl, rfl⟩
  · have hspec := resolveEol_spec hstyle hu
    have hdiff := hspec.diff_eq
    rw [portText, if_neg hstyle, cut]
    refine ⟨hspec.cells, fun j hj => hj.elim (hspec.before j) (hspec.behind j), ?_⟩
    simp only [ne_eq, hstyle, not_false_eq_true, true_and]
    omega

section

variable {mem : Memory} {out : List SgChar} {size : ℕ}

theorem Left.chunk (h : Left src t.port r) (tran : Transcoder) (hr : r ≠ [])
    (hout : Cells mem 0 out)
    (hsize : out.length < size) {u : List SgChar} (hu : u = codes (r.take (size - out.length))) :
    ∃ mem' p, Cells mem' 0 (out ++ portText tran.eolStyle u) ∧
      (∀ j, out.length + u.length ≤ j → mem' j = mem j) ∧
      Left src p (r.drop (size - out.length)) ∧
      let read := out.length + ((portText tran.eolStyle u).length -
        cut tran.eolStyle u (mem (out.length + u.length)))
      transcoderReadLoop src tran (n + 2) size (k + 1) mem out.length t =
        if read ≠ size then
          transcoderReadLoop src tran (n + 2) size k mem' read { t with port := p }
        else some (mem', read, { t with port := p }) := by
  obtain ⟨p, hread, hleft⟩ := h.readUtf8 tran.mode n (Nat.sub_pos_of_lt hsize)
  rw [← codes, ← hu] at hread
  have hne : u.length ≠ 0 := by
    rw [hu, codes, length_map, length_take]
    have := length_pos_of_ne_nil hr
    omega
  obtain ⟨hcells, hsame, hlen⟩ := resolveEol_portText tran.eolStyle
    (cells_write mem out.length u)
  rw [write_of_le le_rfl] at hlen
  refine ⟨_, p, cells_append.2 ⟨hout.congr fun j _ hj => ?_, by rwa [Nat.zero_add]⟩,
    fun j hj => ?_, hleft, ?_⟩
  · rw [Nat.zero_add] at hj
    rw [hsame j (.inl hj), write_of_lt hj]
  · rw [hsame j (.inr hj), write_of_le hj]
  · rw [transcoderReadLoop, hread]
    simp only [bind_eq_bind, bind_some, hne, if_false, hlen]

theorem Left.chunk_nil (h : Left src t.port []) (tran : Transcoder) (mem : Memory)
    (hsize : out.length < size) :
    ∃ p, transcoderReadLoop src tran (n + 2) size (k + 1) mem out.length t =
        some (mem, out.length, { t with port := p }) ∧ Left src p [] := by
  obtain ⟨p, hread, hleft⟩ := h.readUtf8 tran.mode n (Nat.sub_pos_of_lt hsize)
  rw [drop_nil] at hleft
  refine ⟨p, ?_, hleft⟩
  rw [transcoderReadLoop, hread]
  simp

/-- A run that fills the memory with `l` and leaves `r` to be read -/
def Fills (src : Source) (run : Option (Memory × ℕ × TextPort)) (l : List SgChar) (t : TextPort)
    (r : List Char) : Prop :=
  ∃ mem p, run = some (mem, l.length, { t with port := p }) ∧ Cells mem 0 l ∧ Left src p r

theorem Left.read_chunk (h : Left src t.port r) (tran : Transcoder) (hout : Cells mem 0 out)
    (hsize : out.length < size) {u : List SgChar} (hu : u = codes (r.take (size - out.length)))
    (hcut : cut tran.eolStyle u (mem (out.length + u.length)) = 0)
    (hall : r.length ≤ size - out.length ∨ (portText tran.eolStyle u).length = u.length) :
    Fills src (transcoderReadLoop src tran (n + 2) size (k + 2) mem out.length t)
      (out ++ portText tran.eolStyle u) t (r.drop (size - out.length)) := by
  by_cases hr : r = []
  · subst hr
    obtain ⟨p, hrun, hleft⟩ := h.chunk_nil tran mem hsize
    subst hu
    refine ⟨mem, p, ?_, ?_, ?_⟩
    · simpa [codes] using hrun
    · simpa [codes] using hout
    · simpa using hleft
  obtain ⟨mem', p, hcells, -, hleft, hrun⟩ := h.chunk tran hr hout
    hsize hu
  rw [hcut, Nat.sub_zero, ← length_append] at hrun
  dsimp only at hrun
  by_cases hfull : (out ++ portText tran.eolStyle u).length = size
  · rw [if_neg (not_not.2 hfull)] at hrun
    exact ⟨mem', p, hrun, hcells, hleft⟩
  -- the text has come to its end
  rw [if_pos hfull] at hrun
  have hulen : u.length = min (size - out.length) r.length := by
    rw [hu, codes, length_map, length_take]
  have htext := length_portText_le tran.eolStyle u
  rw [length_append] at hfull
  have hle : r.length ≤ size - out.length := by
    refine hall.elim id fun hlen => ?_
    omega
  have hlt : (out ++ portText tran.eolStyle u).length < size := by
    rw [length_append]
    omega
  rw [drop_eq_nil_of_le hle] at hleft ⊢
  obtain ⟨p', hrun', hleft'⟩ := Left.chunk_nil (t := { t with port := p })
    hleft tran mem' hlt
  exact ⟨mem', p', hrun.trans hrun', hcells, hleft'⟩

theorem Left.read_plain (h : Left src t.port r) (hplain : Plain tran.eolStyle (codes r))
    (hout : Cells mem 0 out) (hsize : out.length < size) :
    Fills src (transcoderReadLoop src tran (n + 2) size (k + 2) mem out.length t)
      (out ++ (codes (r.take (size - out.length))).map (portChar tran.eolStyle)) t
      (r.drop (size - out.length)) := by
  have hsub : Plain tran.eolStyle (codes (r.take (size - out.length))) :=
    hplain.sublist ((take_sublist _ _).map _)
  have hcut : ∀ next, cut tran.eolStyle (codes (r.take (size - out.length))) next = 0 := by
    intro next
    refine if_neg fun hc => ?_
    exact hsub.elim hc.1 fun hnot => hnot (mem_of_getLast? hc.2.1)
  rw [← portText_of_plain hsub]
  refine h.read_chunk tran hout hsize rfl (hcut _) (.inr ?_)
  rw [portText_of_plain hsub, length_map]

theorem Left.read_start (hpos : t.port.position = 0) {c : SgChar}
    (hgetc : transcoderGetc src tran (n + 2) t = some (some c, t')) (h : Left src t'.port r)
    (hplain : Plain tran.eolStyle (codes r)) (mem : Memory) (hsize : 0 < size) :
    Fills src (transGetString src tran (n + 2) mem size t)
      (c :: (codes (r.take (size - 1))).map (portChar tran.eolStyle)) t' (r.drop (size - 1)) := by
  have hc : Cells (mem.write 0 [c]) 0 [c] := cells_write mem 0 [c]
  rcases Nat.lt_or_eq_of_le hsize with hlt | rfl
  · obtain ⟨mem', p, hrun, hcells, hleft⟩ := h.read_plain hplain hc hlt
    refine ⟨mem', p, ?_, hcells, hleft⟩
    rw [transGetString, if_neg hsize.ne', if_neg hlt.ne', transcoderRead, if_pos hpos, hgetc]
    simp only [bind_eq_bind, bind_some]
    rw [if_neg hlt.ne]
    exact hrun
  · refine ⟨mem.write 0 [c], t'.port, ?_, by simpa [codes] using hc, by simpa using h⟩
    simp [transGetString, hgetc, codes]

end

/-! ### Requests without `CR` -/

/-- What is left of the text, with the character that has been pushed back, has no `CR`. -/
def Ready (src : Source) (eolStyle : EolStyle) (t : TextPort) (l : List SgChar) : Prop :=
  ∃ r, Left src t.port r ∧ Plain eolStyle (codes r) ∧
    l = t.ahead.toList ++ (codes r).map (portChar eolStyle)

theorem Left.get_plain (h : Left src t.port r) (hplain : Plain tran.eolStyle (codes r))
    (mem : Memory) {size : ℕ} (hsize : 0 < size) :
    Fills src (transGetString src tran (n + 2) mem size t)
      ((codes (r.take size)).map (portChar tran.eolStyle)) t (r.drop size) := by
  by_cases hstart : size = 1 ∨ t.port.position = 0
  · have hc : tran.eolStyle = .none ∨ ∀ c ∈ r.head?, c.toNat ≠ CR :=
      hplain.imp id fun hnot c hc hcr => hnot (hcr ▸ mem_map_of_mem (mem_of_mem_head? hc))
    obtain ⟨p, hgetc, hleft⟩ := h.getc_plain (n := n + 1) hc
    cases r with
    | nil =>
      refine ⟨mem, p, ?_, by simp [codes, Cells], by simpa using hleft⟩
      rcases hstart with rfl | hpos
      · simp [transGetString, hgetc, codes]
      · by_cases hone : size = 1
        · simp [transGetString, hgetc, codes, hone]
        · simp [transGetString, transcoderRead, hgetc, codes, hone, hpos, hsize.ne']
    | cons c r =>
      have hplain' : Plain tran.eolStyle (codes r) := hplain.sublist (sublist_cons_self ..)
      obtain ⟨m, rfl⟩ : ∃ m, size = m + 1 := ⟨size - 1, (succ_pred_eq_of_pos hsize).symm⟩
      by_cases hpos : t.port.position = 0
      · exact Left.read_start hpos hgetc hleft hplain' mem hsize
      · obtain rfl : m = 0 := succ_injective (hstart.resolve_right hpos)
        refine ⟨mem.write 0 [portChar tran.eolStyle c.toNat], p, ?_, cells_write mem 0 _, hleft⟩
        simp [transGetString, hgetc, codes]
  · rw [not_or] at hstart
    obtain ⟨mem', p, hrun, hcells, hleft⟩ :=
      h.read_plain hplain (show Cells mem 0 [] from trivial) hsize
    refine ⟨mem', p, ?_, hcells, hleft⟩
    rw [transGetString, if_neg hsize.ne', if_neg hstart.1, transcoderRead, if_neg hstart.2,
      if_neg hsize.ne]
    exact hrun

variable {req : ℕ → Request} {l : List SgChar}

theorem sgReadsUnsafe_of_get {mem mem' : Memory} {size : ℕ} (hsize : t.ahead.toList.length < size)
    (hget : transGetString src tran n (fun k => mem (k + t.ahead.toList.length))
      (size - t.ahead.toList.length) ⟨t.port, none⟩ = some (mem', l.length, t'))
    (hcells : Cells mem' 0 l) :
    sgReadsUnsafe src tran n mem size t = some (t.ahead.toList ++ l, t') := by
  rw [sgReadsUnsafe, if_neg (zero_lt_of_lt hsize).ne']
  obtain ⟨port, _ | d⟩ := t
  · refine (congrArg (Option.map _) hget).trans ?_
    exact congrArg (fun l => some (l, t')) hcells.map_range
  · refine (if_neg hsize.ne').trans ((congrArg (Option.map _) hget).trans ?_)
    exact congrArg (fun l => some (d :: l, t')) hcells.map_range

theorem map_codes_take_append_drop (f : SgChar → SgChar) (r : List Char) (m : ℕ) :
    (codes (r.take m)).map f ++ (codes (r.drop m)).map f = (codes r).map f := by
  rw [← map_append, codes, codes, codes, ← map_append, take_append_drop]

/-- **A request returns the next characters**, if there is no `CR` in what is left. -/
theorem Ready.serve (h : Ready src tran.eolStyle t l) (q : Request) :
    ∃ o t' l', sgReadsUnsafe src tran (n + 2) q.mem q.size t = some (o, t') ∧ l = o ++ l' ∧
      Ready src tran.eolStyle t' l' ∧ (o = [] → l = []) := by
  obtain ⟨r, hleft, hplain, rfl⟩ := h
  by_cases hmore : t.ahead.toList.length < q.size
  · have hpos := Nat.sub_pos_of_lt hmore
    obtain ⟨mem', p, hrun, hcells, hleft'⟩ := Left.get_plain (t := ⟨t.port, none⟩) hleft
      hplain (fun k => q.mem (k + t.ahead.toList.length)) hpos
    refine ⟨_, ⟨p, none⟩, _, sgReadsUnsafe_of_get hmore hrun hcells, ?_,
      ⟨_, hleft', hplain.sublist ((drop_sublist _ _).map _), rfl⟩, fun hnil => ?_⟩
    · rw [toList_none, nil_append, append_assoc, map_codes_take_append_drop]
    · simp only [codes, append_eq_nil_iff, map_eq_nil_iff, take_eq_nil_iff, hpos.ne',
        false_or] at hnil
      rw [hnil.1, hnil.2]
      rfl
  · -- only the character that has been pushed back is wanted
    obtain ⟨port, _ | c⟩ := t
    · exact (hmore q.pos).elim
    · have hone : q.size = 1 := le_antisymm (not_lt.1 hmore) q.pos
      exact ⟨[c], ⟨port, none⟩, _, by simp [sgReadsUnsafe, hone], rfl, ⟨r, hleft, hplain, rfl⟩,
        nofun⟩

/-! ### Sequences of requests -/

/-- If every request returns the beginning of what is due, and something if anything is due, then
the requests return all of it. -/
theorem reads_of_step {I : TextPort → List SgChar → Prop}
    (hstep : ∀ t l, I t l → ∀ q : Request, ∃ o t' l',
      sgReadsUnsafe src tran n q.mem q.size t = some (o, t') ∧ l = o ++ l' ∧ I t' l' ∧
        (o = [] → l = [])) {m : ℕ} {out : List SgChar} (hm : reads src tran n req m = some (out, t))
    (hI : I t l) (k : ℕ) (hk : l.length ≤ k) :
    ∃ t', reads src tran n req (m + k) = some (out ++ l, t') := by
  have hrun : ∀ j, ∃ o t' l', reads src tran n req (m + j) = some (out ++ o, t') ∧ l = o ++ l' ∧
      I t' l' ∧ (l' = [] ∨ j ≤ o.length) := by
    intro j
    induction j with
    | zero => exact ⟨[], t, l, by simpa using hm, rfl, hI, .inr le_rfl⟩
    | succ j ih =>
      obtain ⟨o, t₁, l₁, hrun, rfl, hI₁, hlen⟩ := ih
      obtain ⟨o', t', l', hserve, rfl, hI', hnil⟩ := hstep t₁ l₁ hI₁ (req (m + j))
      refine ⟨o ++ o', t', l', ?_, (append_assoc ..).symm, hI', ?_⟩
      · rw [← Nat.add_assoc, reads, hrun]
        simp [hserve]
      · by_cases ho : o' = []
        · exact .inl (append_eq_nil_iff.1 (hnil ho)).2
        · have hpos := length_pos_of_ne_nil ho
          refine hlen.imp (fun h => ?_) fun h => ?_
          · exact (ho (append_eq_nil_iff.1 h).1).elim
          · rw [length_append]
            omega
  obtain ⟨o, t', l', hreads, rfl, -, hlen⟩ := hrun k
  have hl' : l' = [] := by
    refine hlen.elim id fun hle => ?_
    rw [length_append] at hk
    exact eq_nil_of_length_eq_zero (by omega)
  subst hl'
  exact ⟨t', by rw [hreads, append_nil]⟩

theorem Ready.reads {m : ℕ} {out : List SgChar}
    (hm : reads src tran (n + 2) req m = some (out, t)) (h : Ready src tran.eolStyle t l) (k : ℕ)
    (hk : l.length ≤ k) : ∃ t', Text.reads src tran (n + 2) req (m + k) = some (out ++ l, t') :=
  reads_of_step (fun _ _ hl q => hl.serve q) hm h k hk

theorem reads_extends {m : ℕ} {out : List SgChar} (j : ℕ)
    (hm : reads src tran n req m = some (out, t))
    (hj : reads src tran n req (m + j) = some (l, t')) : out <+: l := by
  induction j generalizing l t' with
  | zero =>
    rw [Nat.add_zero, hm] at hj
    obtain ⟨rfl, -⟩ := Prod.mk.inj (some.inj hj)
    exact prefix_refl _
  | succ j ih =>
    rw [← Nat.add_assoc, reads, bind_eq_bind, bind_eq_some_iff] at hj
    obtain ⟨⟨l₁, t₁⟩, hrun, hrest⟩ := hj
    simp only [bind_eq_some_iff] at hrest
    obtain ⟨⟨l₂, t₂⟩, -, heq⟩ := hrest
    obtain ⟨rfl, -⟩ := Prod.mk.inj (some.inj heq)
    exact (ih hrun).trans (prefix_append _ _)

/-- The source with the text, which can be read in any pieces -/
def Source.ofText (s : List Char) (avail : ℕ → ℕ) (hasSetPortPosition : Bool) : Source where
  bytes := s.flatMap String.utf8EncodeChar
  avail := avail
  hasSetPortPosition := hasSetPortPosition

/-- The requests together return the text of the port. -/
def ReadsText (src : Source) (tran : Transcoder) (n : ℕ) (text : List SgChar) : Prop :=
  ∀ req, ∃ k₀, ∀ k, k₀ ≤ k →
    (reads src tran n req k).map Prod.fst = some (portText tran.eolStyle text)

/-- There is no `CR` that matters, or only one at the beginning, before the second half of a line
end or before copies of one other character. -/
def ChunkSafe (eolStyle : EolStyle) (text : List SgChar) : Prop :=
  Plain eolStyle text ∨ ∃ rest, text = CR :: rest ∧ CR ∉ rest ∧
    ((∃ d ∈ rest.head?, isSecond d) ∨ ∃ k x, rest = replicate k x ∧ x ≠ LS)

section

variable {s : List Char} {avail : ℕ → ℕ} {hs : Bool}

theorem left_init (s : List Char) (avail : ℕ → ℕ) (hs : Bool) :
    Left (.ofText s avail hs) TextPort.init.port s := rfl

theorem Left.position_ne_zero {p : BinaryPort} (h : Left (.ofText s avail hs) p r) {l : List Char}
    (hl : l ≠ []) (hs' : s = l ++ r) : p.position ≠ 0 := by
  intro hpos
  have hlen := congrArg length h
  rw [Source.unread, hpos, drop_zero, Source.ofText, hs', flatMap_append,
    length_append] at hlen
  have hle := length_le_encoded l
  have := length_pos_of_ne_nil hl
  omega

theorem Left.serve_first {x : SgChar}
    (hgetc : transcoderGetc src tran (n + 2) .init = some (some x, t)) (h : Left src t.port r)
    (hplain : Plain tran.eolStyle (codes r)) (q : Request) :
    ∃ p, sgReadsUnsafe src tran (n + 2) q.mem q.size .init =
        some (x :: (codes (r.take (q.size - 1))).map (portChar tran.eolStyle),
          { t with port := p }) ∧
      Left src p (r.drop (q.size - 1)) := by
  obtain ⟨mem', p, hrun, hcells, hleft⟩ := Left.read_start rfl hgetc h hplain q.mem q.pos
  exact ⟨p, sgReadsUnsafe_of_get q.pos hrun hcells, hleft⟩

/-! ### Texts that are read right -/

theorem serve_start_CR (avail : ℕ → ℕ) (hs : Bool) (hstyle : tran.eolStyle ≠ .none)
    (hc : c.toNat = CR) (hr : CR ∉ codes r)
    (hsafe : (∃ d ∈ (codes r).head?, isSecond d) ∨
      ∃ k x, codes r = replicate k x ∧ x ≠ LS) (q : Request) :
    ∃ o t' l', sgReadsUnsafe (.ofText (c :: r) avail hs) tran (n + 2) q.mem q.size .init =
        some (o, t') ∧ normaliseEol (CR :: codes r) = o ++ l' ∧
      Ready (.ofText (c :: r) avail hs) tran.eolStyle t' l' ∧ o ≠ [] := by
  have hchar : portChar tran.eolStyle = eolChar := by
    funext d
    exact if_neg hstyle
  obtain ⟨t₁, r', hgetc, hleft, hcases⟩ :=
    (left_init (c :: r) avail hs).getc_CR (n := n + 1) hstyle hc rfl
  have hr' : CR ∉ codes r' := by
    intro hmem
    rcases hcases with ⟨d, rfl, -⟩ | ⟨-, rfl, -⟩ | ⟨d, rfl, -⟩
    · exact hr (mem_cons_of_mem _ hmem)
    · cases hmem
    · exact hr (mem_cons_of_mem _ hmem)
  obtain ⟨p, hserve, hleft'⟩ := hleft.serve_first hgetc (.inr hr') q
  rw [hchar] at hserve
  refine ⟨LF :: (codes (r'.take (q.size - 1))).map eolChar, { t₁ with port := p },
    t₁.ahead.toList ++ (codes (r'.drop (q.size - 1))).map eolChar, hserve, ?_,
    ⟨r'.drop (q.size - 1), hleft', .inr fun hmem => hr' ?_, by rw [hchar]⟩, nofun⟩
  · have hsplit : (codes (r'.take (q.size - 1))).map eolChar ++
        (codes (r'.drop (q.size - 1))).map eolChar = normaliseEol (codes r') := by
      rw [normaliseEol_of_not_mem hr', map_codes_take_append_drop]
    rcases hcases with ⟨d, rfl, hd, hahead⟩ | ⟨rfl, rfl, hahead⟩ | ⟨d, rfl, hd, hahead⟩
    · rw [hahead, codes, map_cons, normaliseEol_pair hd]
      exact congrArg (LF :: ·) hsplit.symm
    · rw [hahead]
      simp [codes, normaliseEol, eolChar_CR]
    · -- all other characters are the same, so that their order does not matter
      obtain ⟨k, x, hrep, hLS⟩ : ∃ k x, codes (d :: r') = replicate k x ∧ x ≠ LS := by
        refine hsafe.resolve_left ?_
        rintro ⟨e, he, hsecond⟩
        exact hd (mem_some_iff.1 he ▸ hsecond)
      obtain ⟨k, rfl⟩ : ∃ m, k = m + 1 := by
        refine exists_eq_succ_of_ne_zero ?_
        rintro rfl
        cases hrep
      obtain ⟨rfl, hrep⟩ := cons.inj hrep
      have hplain : ¬ isEol d.toNat := by
        rintro (h | h | h | h)
        · exact hd (.inl h)
        · exact hd (.inr h)
        · exact hLS h
        · exact hr (h ▸ mem_cons_self ..)
      have hd' : eolChar d.toNat = d.toNat := if_neg hplain
      have hcr : CR ∉ codes (d :: r') := hr
      have hnorm : normaliseEol (CR :: codes (d :: r')) =
          LF :: replicate (k + 1) d.toNat := by
        rw [codes, map_cons, normaliseEol, if_neg fun h => hd h.2, eolChar_CR,
          ← map_cons, ← codes, normaliseEol_of_not_mem hcr, codes, map_cons, hrep,
          ← replicate_succ, map_replicate, hd']
      rw [hnorm, hahead, codes, codes, map_take, map_drop, hrep, take_replicate,
        drop_replicate, map_replicate, map_replicate, hd', toList_some,
        singleton_append, ← replicate_succ, cons_append, replicate_append_replicate]
      congr 2
      omega
  · exact ((drop_sublist _ _).map _).subset hmem

theorem readsText_of_safe (h : ChunkSafe tran.eolStyle (codes s)) :
    ReadsText (.ofText s avail hs) tran (n + 2) (codes s) := by
  intro req
  by_cases hplain : Plain tran.eolStyle (codes s)
  · have hready : Ready (.ofText s avail hs) tran.eolStyle .init
        (portText tran.eolStyle (codes s)) :=
      ⟨s, left_init s avail hs, hplain, portText_of_plain hplain⟩
    refine ⟨(portText tran.eolStyle (codes s)).length, fun k hk => ?_⟩
    obtain ⟨t', hreads⟩ :=
      hready.reads (show reads _ tran (n + 2) req 0 = some ([], .init) from rfl) k hk
    rw [Nat.zero_add] at hreads
    rw [hreads]
    rfl
  · obtain ⟨rest, htext, hrest, hsafe⟩ := h.resolve_left hplain
    have hstyle : tran.eolStyle ≠ .none := fun h => hplain (.inl h)
    obtain ⟨c, r, rfl⟩ : ∃ c r, s = c :: r := by
      refine exists_cons_of_ne_nil ?_
      rintro rfl
      cases htext
    obtain ⟨hc, rfl⟩ := cons.inj htext
    obtain ⟨o, t, l, hserve, htotal, hready, -⟩ := serve_start_CR (n := n) avail hs
      hstyle hc hrest hsafe (req 0)
    have hone : reads (.ofText (c :: r) avail hs) tran (n + 2) req 1 = some (o, t) := by
      simp [reads, hserve]
    refine ⟨1 + l.length, fun k hk => ?_⟩
    obtain ⟨j, rfl⟩ := Nat.exists_eq_add_of_le hk
    obtain ⟨t', hreads⟩ := hready.reads hone (l.length + j) (le_add_right _ _)
    rw [Nat.add_assoc, hreads, portText, if_neg hstyle, codes, map_cons, hc, ← codes, htotal]
    rfl

/-! ### Texts that are not -/

theorem ReadsText.begins {text : List SgChar} (h : ReadsText src tran n text) {req : ℕ → Request}
    {m : ℕ} {out : List SgChar} (hm : reads src tran n req m = some (out, t)) :
    out <+: portText tran.eolStyle text := by
  obtain ⟨k₀, hk₀⟩ := h req
  obtain ⟨⟨l, t'⟩, hl, heq⟩ := map_eq_some_iff.1 (hk₀ (m + k₀) (le_add_left _ _))
  rw [← heq]
  exact reads_extends k₀ hm hl

theorem Left.serve_all (h : Left src t.port r) (hstyle : tran.eolStyle ≠ .none)
    (hpos : t.port.position ≠ 0) :
    ∃ t', sgReadsUnsafe src tran (n + 2) (fun _ => 0) (r.length + 3) t =
        some (t.ahead.toList ++ normaliseEol (codes r), t') ∧ t'.ahead = none ∧
      Left src t'.port [] := by
  have hone : t.ahead.toList.length ≤ 1 := by
    cases t.ahead <;> simp
  have hle : r.length ≤ r.length + 3 - t.ahead.toList.length := by omega
  have htake : codes r = codes (r.take (r.length + 3 - t.ahead.toList.length - 0)) := by
    rw [Nat.sub_zero, take_of_length_le hle]
  obtain ⟨mem', p, hrun, hcells, hleft⟩ := Left.read_chunk (t := ⟨t.port, none⟩) h
    tran (show Cells (fun _ => 0) 0 [] from trivial) (by rw [length_nil]; omega) htake
    (if_neg fun hc => absurd hc.2.2 (by decide)) (.inl hle)
  rw [portText, if_neg hstyle] at hrun hcells
  rw [length_nil, Nat.sub_zero, drop_eq_nil_of_le hle] at hleft
  refine ⟨⟨p, none⟩, sgReadsUnsafe_of_get (by omega) ?_ hcells, rfl, hleft⟩
  rw [transGetString, if_neg (by omega), if_neg (by omega), transcoderRead, if_neg hpos,
    if_neg (by omega)]
  exact hrun

theorem ReadsText.total {text : List SgChar} (h : ReadsText src tran (n + 2) text)
    (hstyle : tran.eolStyle ≠ .none) {q : Request} {o : List SgChar}
    (hq : sgReadsUnsafe src tran (n + 2) q.mem q.size .init = some (o, t))
    (hleft : Left src t.port r) (hpos : t.port.position ≠ 0) :
    normaliseEol text = o ++ (t.ahead.toList ++ normaliseEol (codes r)) := by
  obtain ⟨t', hall, hahead, hend⟩ := hleft.serve_all (n := n) hstyle hpos
  have htwo : reads src tran (n + 2)
      (fun k => if k = 0 then q else ⟨r.length + 3, succ_pos _, fun _ => 0⟩) 2 =
        some (o ++ (t.ahead.toList ++ normaliseEol (codes r)), t') := by
    simp [reads, hq, hall]
  have hready : Ready src tran.eolStyle t' [] :=
    ⟨[], hend, .inr not_mem_nil, by simp [hahead, codes]⟩
  obtain ⟨k₀, hk₀⟩ := h (fun k => if k = 0 then q else ⟨r.length + 3, succ_pos _, fun _ => 0⟩)
  obtain ⟨t'', hreads⟩ := hready.reads htwo k₀ (zero_le _)
  have heq := hk₀ (2 + k₀) (le_add_left _ _)
  rw [hreads, portText, if_neg hstyle, append_nil] at heq
  exact (some.inj heq).symm

/-- Rounds for one character, in memory where the second half of a line end is behind the buffer:
each `CR` is lost. -/
theorem Left.read_losing (h : Left src t.port r) (hstyle : tran.eolStyle ≠ .none) {mem : Memory}
    {out : List SgChar} (hout : Cells mem 0 out) (hmem : mem (out.length + 1) = LF)
    (hk : r.length < k) :
    ∃ o l r', Fills src (transcoderReadLoop src tran (n + 2) (out.length + 1) k mem out.length t)
        (out ++ o) t r' ∧ r = l ++ r' ∧
      o.length + (normaliseEol (codes r')).length ≤ (normaliseEol (codes r)).length := by
  induction r generalizing t mem k with
  | nil =>
    obtain _ | k := k
    · cases hk
    obtain ⟨p, hrun, hleft⟩ := h.chunk_nil tran mem
      (lt_succ_self out.length)
    exact ⟨[], [], [], ⟨mem, p, by simpa using hrun, by simpa using hout, hleft⟩, rfl, le_rfl⟩
  | cons c r ih =>
    obtain _ | k := k
    · cases hk
    have hone : out.length + 1 - out.length = 1 := Nat.add_sub_cancel_left _ _
    obtain ⟨mem', p, hcells, hsame, hleft, hrun⟩ := h.chunk (k := k)
      (u := [c.toNat]) tran (cons_ne_nil _ _) hout (lt_succ_self _) (by rw [hone]; rfl)
    have htext : portText tran.eolStyle [c.toNat] = [eolChar c.toNat] := if_neg hstyle
    rw [hone] at hleft
    rw [htext, length_singleton, length_singleton, hmem] at hrun
    dsimp only at hrun
    rw [htext] at hcells
    by_cases hc : c.toNat = CR
    · have hcut : cut tran.eolStyle [c.toNat] LF = 1 := by
        refine if_pos ⟨hstyle, ?_, .inl rfl⟩
        rw [hc]
        rfl
      rw [hcut, Nat.sub_self, Nat.add_zero, if_pos (lt_succ_self _).ne] at hrun
      obtain ⟨o, l, r', ⟨mem'', p', hrun', hfills⟩, rfl, hlen⟩ := ih
        (t := { t with port := p }) hleft (cells_append.1 hcells).1
        ((hsame _ le_rfl).trans hmem) (lt_of_succ_lt_succ hk)
      exact ⟨o, c :: l, r', ⟨mem'', p', hrun.trans hrun', hfills⟩, rfl,
        hlen.trans (length_normaliseEol_le_cons _ _)⟩
    · have hcut : cut tran.eolStyle [c.toNat] LF = 0 :=
        if_neg fun h => hc (some.inj h.2.1)
      rw [hcut, Nat.sub_zero, if_neg (not_not.2 rfl)] at hrun
      refine ⟨[eolChar c.toNat], [c], r, ⟨mem', p, ?_, hcells, hleft⟩, rfl, ?_⟩
      · rw [hrun, length_append, length_singleton]
      · rw [codes, codes, map_cons, normaliseEol_cons hc, length_cons, Nat.add_comm]
        rfl

theorem serve_start {q : Request} (hq : 1 < q.size) {c : SgChar} {mem' : Memory} {l : List SgChar}
    (hgetc : transcoderGetc src tran n .init = some (some c, t))
    (hrun : transcoderReadLoop src tran n q.size n (q.mem.write 0 [c]) 1 t =
      some (mem', l.length, t')) (hcells : Cells mem' 0 l) :
    sgReadsUnsafe src tran n q.mem q.size .init = some (l, t') := by
  have hget : transGetString src tran n q.mem q.size .init = some (mem', l.length, t') := by
    have hpos : TextPort.init.port.position = 0 := rfl
    rw [transGetString, if_neg (by omega), if_neg hq.ne', transcoderRead, if_pos hpos, hgetc]
    simp only [bind_eq_bind, bind_some]
    rw [if_neg hq.ne]
    exact hrun
  exact sgReadsUnsafe_of_get q.pos hget hcells

section

variable {x : SgChar} {a b : List Char}

theorem codes_append (r r' : List Char) : codes (r ++ r') = codes r ++ codes r' := map_append

theorem chunk_eq (hstyle : tran.eolStyle ≠ .none) (hc : c.toNat = CR) (ha : CR ∉ codes a)
    (b : List Char) :
    codes a ++ [CR] = codes ((a ++ c :: b).take (a.length + 2 - 1)) ∧
      (a ++ c :: b).drop (a.length + 2 - 1) = b ∧
      portText tran.eolStyle (codes a ++ [CR]) = (codes a).map eolChar ++ [LF] := by
  have hlen : (a ++ [c]).length = a.length + 2 - 1 := length_append
  rw [portText, if_neg hstyle, normaliseEol_snoc ha, append_cons a c b, take_left' hlen,
    codes_append, ← hc, drop_left' hlen]
  exact ⟨rfl, rfl, rfl⟩

section

variable (hstyle : tran.eolStyle ≠ .none)
  (hgetc : transcoderGetc src tran (n + 2) .init = some (some x, t))
  (hleft : Left src t.port (a ++ c :: b)) (hc : c.toNat = CR) (ha : CR ∉ codes a)

include hstyle hgetc hleft hc ha

theorem serve_clear :
    ∃ p, sgReadsUnsafe src tran (n + 2) (fun _ => 0) (a.length + 2) .init =
        some (x :: (codes a).map eolChar ++ [LF], { t with port := p }) ∧ Left src p b := by
  obtain ⟨hu, hdrop, htext⟩ := chunk_eq hstyle hc ha b
  have hsize : [x].length < a.length + 2 := Nat.lt_add_of_pos_left (succ_pos _)
  have hnext : Memory.write (fun _ => 0) 0 [x] (1 + (codes a ++ [CR]).length) = 0 :=
    write_of_le (le_add_right _ _)
  obtain ⟨mem', p, hrun, hcells, hleft'⟩ := hleft.read_chunk tran
    (cells_write (fun _ => 0) 0 [x]) hsize hu
    (if_neg fun h => absurd (hnext ▸ h.2.2) (by decide)) (.inr (by simp [htext]))
  rw [htext] at hrun hcells
  refine ⟨p, ?_, hdrop ▸ hleft'⟩
  exact serve_start (q := ⟨a.length + 2, succ_pos _, fun _ => 0⟩)
    hsize hgetc hrun hcells

/-- A chunk that ends with `CR`, in memory where `LF` is behind it: the `CR` is lost. -/
theorem serve_losing (hn : b.length ≤ n) :
    ∃ p o l b', sgReadsUnsafe src tran (n + 2) (fun _ => LF) (a.length + 2) .init =
        some (x :: (codes a).map eolChar ++ o, { t with port := p }) ∧
      Left src p b' ∧ b = l ++ b' ∧
      o.length + (normaliseEol (codes b')).length ≤ (normaliseEol (codes b)).length := by
  obtain ⟨hu, hdrop, htext⟩ := chunk_eq hstyle hc ha b
  have hsize : [x].length < a.length + 2 := Nat.lt_add_of_pos_left (succ_pos _)
  have hlen : (x :: (codes a).map eolChar).length = a.length + 1 := by simp [codes]
  have hnext : Memory.write (fun _ => LF) 0 [x] (1 + (codes a ++ [CR]).length) = LF :=
    write_of_le (le_add_right _ _)
  have hcut : cut tran.eolStyle (codes a ++ [CR]) LF = 1 :=
    if_pos ⟨hstyle, getLast?_concat, .inl rfl⟩
  have hne : a ++ c :: b ≠ [] := append_ne_nil_of_right_ne_nil _ (cons_ne_nil _ _)
  obtain ⟨mem₁, p₁, hcells, hsame, hleft₁, hrun⟩ := hleft.chunk (n := n) (k := n + 1) tran
    hne (cells_write (fun _ => LF) 0 [x]) hsize hu
  have hread : 1 + (((codes a).map eolChar ++ [LF]).length - 1) =
      (x :: (codes a).map eolChar).length := by
    rw [length_append, length_singleton, Nat.add_sub_cancel, length_cons, Nat.add_comm]
  simp only [length_singleton] at hleft₁ hsame hrun
  rw [hdrop] at hleft₁
  rw [htext, hnext, hcut, hread, if_pos (by rw [hlen]; omega)] at hrun
  rw [htext, ← append_assoc] at hcells
  have hmem : mem₁ ((x :: (codes a).map eolChar).length + 1) = LF := by
    refine (hsame _ ?_).trans (write_of_le ?_)
    · simp [codes]
      omega
    · simp
  have hout : Cells mem₁ 0 (x :: (codes a).map eolChar) := (cells_append.1 hcells).1
  obtain ⟨o, l, b', ⟨mem', p, hrun', hcells', hleft'⟩, rfl, hle⟩ := Left.read_losing
    (t := { t with port := p₁ }) (n := n) hleft₁ hstyle hout hmem (lt_succ_of_le hn)
  refine ⟨p, o, l, b', ?_, hleft', rfl, hle⟩
  rw [hlen] at hrun hrun'
  exact serve_start (q := ⟨a.length + 2, succ_pos _, fun _ => LF⟩)
    hsize hgetc (hrun.trans hrun') hcells'

end

end

/-- A text is not read right if there is a `CR` behind what the first call to `Sg_TranscoderGetc`
reads: where a chunk ends there, the memory behind it matters. -/
theorem not_readsText_of_mem (hstyle : tran.eolStyle ≠ .none) {x : SgChar} {l : List Char}
    (hgetc : transcoderGetc (.ofText s avail hs) tran (n + 2) .init = some (some x, t))
    (hleft : Left (.ofText s avail hs) t.port r) (hs' : s = l ++ r)
    (hr : CR ∈ codes r) (hn : s.length ≤ n) :
    ¬ ReadsText (.ofText s avail hs) tran (n + 2) (codes s) := by
  intro hreads
  -- the first `CR`
  obtain ⟨a, c, b, rfl, hc, ha⟩ : ∃ a c b, r = a ++ c :: b ∧ c.toNat = CR ∧ CR ∉ codes a := by
    obtain ⟨a', b', hab, ha'⟩ := eq_append_cons_of_mem hr
    obtain ⟨a, b, rfl, rfl, hb⟩ := map_eq_append_iff.1 hab
    obtain ⟨c, b, rfl, hc, -⟩ := map_eq_cons_iff.1 hb
    exact ⟨a, c, b, rfl, hc, ha'⟩
  have hb : b.length ≤ n := by
    have hlen := congrArg length hs'
    rw [length_append, length_append, length_cons] at hlen
    omega
  obtain ⟨p, hclear, hleftp⟩ := serve_clear hstyle hgetc hleft hc ha
  obtain ⟨p', o, l', b', hlosing, hleftp', rfl, hle⟩ := serve_losing hstyle hgetc hleft hc ha hb
  have hpos := hleftp.position_ne_zero (l := l ++ (a ++ [c])) (by simp) (by simp [hs'])
  have hpos' := hleftp'.position_ne_zero (l := l ++ (a ++ c :: l')) (by simp) (by simp [hs'])
  -- the text would be both of these, but one of them is longer
  have hone := hreads.total (q := ⟨a.length + 2, succ_pos _, fun _ => 0⟩) hstyle hclear hleftp hpos
  have htwo := hreads.total (q := ⟨a.length + 2, succ_pos _, fun _ => LF⟩) hstyle hlosing hleftp'
    hpos'
  have hlen := congrArg length (hone.symm.trans htwo)
  simp only [length_append, length_cons, length_nil] at hlen
  omega

theorem reads_two (hgetc : transcoderGetc src tran n .init = some (some LF, t)) {x : SgChar}
    (hahead : t.ahead = some x) :
    ∃ t', reads src tran n (fun _ => ⟨1, Nat.one_pos, fun _ => 0⟩) 2 = some ([LF, x], t') := by
  have hfirst : sgReadsUnsafe src tran n (fun _ => 0) 1 .init = some ([LF], t) := by
    simp only [sgReadsUnsafe, transGetString, TextPort.init] at hgetc ⊢
    simp [hgetc, Memory.write]
  have hsecond : sgReadsUnsafe src tran n (fun _ => 0) 1 t =
      some ([x], { t with ahead := none }) := by
    simp [sgReadsUnsafe, hahead]
  exact ⟨{ t with ahead := none }, by simp [reads, hfirst, hsecond]⟩

theorem eq_of_cons_eq_concat {α : Type} {d y : α} {l : List α} (h : d :: l = l ++ [d])
    (hy : y ∈ l) :
    y = d := by
  induction l with
  | nil => cases hy
  | cons x l ih =>
    obtain ⟨rfl, htail⟩ := cons.inj h
    rcases mem_cons.1 hy with rfl | hy
    · rfl
    · exact ih htail hy

/-- A text is not read right if the character that is pushed back after `CR` is a line end, which it
stays then, or if another character follows it, which may be read first. -/
theorem not_readsText_of_ahead (hstyle : tran.eolStyle ≠ .none) (hc : c.toNat = CR) {d : Char}
    (hgetc : transcoderGetc (.ofText (c :: d :: r) avail hs) tran (n + 2) .init = some (some LF, t))
    (hahead : t.ahead = some d.toNat) (hleft : Left (.ofText (c :: d :: r) avail hs) t.port r)
    (hd : ¬ isSecond d.toNat) (hr : CR ∉ codes r)
    (hbad : isEol d.toNat ∨ ∃ y ∈ codes r, y ≠ d.toNat) :
    ¬ ReadsText (.ofText (c :: d :: r) avail hs) tran (n + 2) (codes (c :: d :: r)) := by
  intro hreads
  by_cases heol : isEol d.toNat
  · obtain ⟨t', htwo⟩ := reads_two hgetc hahead
    have hmem : d.toNat ∈ portText tran.eolStyle (codes (c :: d :: r)) :=
      (hreads.begins htwo).subset (by simp)
    rw [portText, if_neg hstyle] at hmem
    exact hd (.inl (eq_of_mem_normaliseEol hmem heol))
  · obtain ⟨y, hy, hne⟩ := hbad.resolve_left heol
    have hchar : portChar tran.eolStyle = eolChar := by
      funext x
      exact if_neg hstyle
    have hd' : eolChar d.toNat = d.toNat := if_neg heol
    have hdCR : d.toNat ≠ CR := fun h => heol (h ▸ isEol_CR)
    obtain ⟨p, hserve, hleft'⟩ := hleft.serve_first hgetc (.inr hr)
      ⟨r.length + 1, succ_pos _, fun _ => 0⟩
    rw [Nat.add_sub_cancel, take_length, hchar] at hserve
    rw [Nat.add_sub_cancel, drop_length] at hleft'
    have hpos := hleft'.position_ne_zero (l := c :: d :: r) (by simp) (by simp)
    have htotal := hreads.total hstyle hserve
      hleft' hpos
    -- the character that was pushed back comes last
    have hlast : d.toNat :: (codes r).map eolChar = (codes r).map eolChar ++ [d.toNat] := by
      rw [codes, map_cons, map_cons, hc, normaliseEol, if_neg fun h => hd h.2,
        normaliseEol_cons hdCR, ← codes, normaliseEol_of_not_mem hr, hd', eolChar_CR,
        hahead] at htotal
      exact (cons.inj htotal).2
    have heq := eq_of_cons_eq_concat hlast (mem_map_of_mem hy)
    unfold eolChar at heq
    split at heq
    · exact heol (heq ▸ .inl rfl)
    · exact hne heq

/-- **Text input depends on how it is split into requests**, unless the end of line style is none or
the only `CR` is at the beginning, before the second half of a line end or copies of one other
character. -/
theorem requests_iff (tran : Transcoder) (s : List Char) (avail : ℕ → ℕ) (hs : Bool) :
    ∃ k, ∀ n, k ≤ n →
      (ReadsText (.ofText s avail hs) tran n (codes s) ↔ ChunkSafe tran.eolStyle (codes s)) := by
  refine ⟨s.length + 2, fun n hn => ?_⟩
  obtain ⟨n, rfl⟩ := Nat.exists_eq_add_of_le' (le_of_add_left_le hn)
  refine ⟨fun hreads => ?_, readsText_of_safe⟩
  by_contra hunsafe
  have hn : s.length ≤ n := Nat.le_of_add_le_add_right hn
  rw [ChunkSafe, not_or, Plain, not_or, not_not] at hunsafe
  obtain ⟨⟨hstyle, hmem⟩, hfirst⟩ := hunsafe
  cases s with
  | nil => cases hmem
  | cons c r =>
    by_cases hc : c.toNat = CR
    · obtain ⟨t, r', hgetc, hleft, hcases⟩ :=
        (left_init (c :: r) avail hs).getc_CR hstyle hc rfl
      by_cases hr : CR ∈ codes r'
      · rcases hcases with ⟨d, rfl, -⟩ | ⟨-, rfl, -⟩ | ⟨d, rfl, -⟩
        · exact not_readsText_of_mem (l := [c, d]) hstyle hgetc hleft rfl hr hn hreads
        · cases hr
        · exact not_readsText_of_mem (l := [c, d]) hstyle hgetc hleft rfl hr hn hreads
      · have hnot := not_exists.1 hfirst (codes r)
        rcases hcases with ⟨d, rfl, hd, -⟩ | ⟨rfl, -, -⟩ | ⟨d, rfl, hd, hahead⟩
        · refine hnot ⟨congrArg (· :: codes (d :: r')) hc, ?_, .inl ⟨d.toNat, rfl, hd⟩⟩
          exact fun h => (mem_cons.1 h).elim (ne_of_isSecond hd).symm hr
        · exact hnot ⟨congrArg (· :: []) hc, not_mem_nil, .inr ⟨0, 0, rfl, by decide⟩⟩
        · refine not_readsText_of_ahead hstyle hc hgetc hahead hleft hd hr ?_ hreads
          by_contra hgood
          rw [not_or] at hgood
          have hall : ∀ y ∈ codes r', y = d.toNat := by simpa using hgood.2
          refine hnot ⟨congrArg (· :: codes (d :: r')) hc, ?_,
            .inr ⟨r'.length + 1, d.toNat, ?_, ?_⟩⟩
          · exact fun h => (mem_cons.1 h).elim (fun h => hgood.1 (h ▸ isEol_CR)) hr
          · refine eq_replicate_iff.2 ⟨by simp [codes], fun y hy => ?_⟩
            exact (mem_cons.1 hy).elim id (hall y)
          · exact fun h => hgood.1 (.inr (.inr (.inl h)))
    · have hr : CR ∈ codes r := (mem_cons.1 hmem).resolve_left (Ne.symm hc)
      obtain ⟨p, hgetc, hleft⟩ := (left_init (c :: r) avail hs).getc_plain
        (.inr fun d hd => mem_some_iff.1 hd ▸ hc)
      exact not_readsText_of_mem (l := [c]) hstyle hgetc hleft rfl hr hn hreads

/-- With requests for two characters, the line end of `a CR LF` becomes two. -/
theorem line_end_doubled :
    (reads (.ofText ['a', '\r', '\n'] (fun _ => 0) true) ⟨.lf, .raise⟩ 5
        (fun _ => ⟨2, Nat.two_pos, fun _ => 0⟩) 3).map Prod.fst = some [97, LF, LF] ∧
      portText .lf (codes ['a', '\r', '\n']) = [97, LF] := by
  decide +kernel

theorem sgTranscoderWrite_eq (tran : Transcoder) (s : List Char) :
    ∃ s', codes s' = (codes s).flatMap (eolChars tran.eolStyle) ∧
      sgTranscoderWrite tran (codes s) ⟨0, []⟩ =
        .done (OutPort.writeb ⟨0, []⟩ (s'.flatMap String.utf8EncodeChar)) := by
  obtain ⟨s', hs'⟩ : ∃ s', codes s' = (codes s).flatMap (eolChars tran.eolStyle) := by
    refine ⟨s.flatMap fun c => (eolChars tran.eolStyle c.toNat).map Char.ofNat, ?_⟩
    rw [codes, map_flatMap, codes, flatMap_map]
    refine flatMap_congr fun c _ => ?_
    unfold eolChars
    split
    · cases tran.eolStyle <;> rfl
    · simp
  obtain ⟨parts, hparts, hflat⟩ := map_eq_some_iff.1 (encodeAll_chars tran.mode s')
  have hall := writeUtf8_right tran.mode (codes s') ⟨0, []⟩
  rw [WritesAll, codes, hparts] at hall
  refine ⟨s', hs', ?_⟩
  rw [sgTranscoderWrite, ← hs', ← hflat]
  exact hall

/-- **What is written through a transcoder is read back through it** by any requests, if line ends
are not written with `CR`. -/
theorem written_reads_back (hstyle : tran.eolStyle ∉ [.cr, .crlf, .crnel])
    (heol : ∀ c ∈ codes s, isEol c → c = LF) :
    ∃ port, sgTranscoderWrite tran (codes s) ⟨0, []⟩ = .done port ∧ ∀ req, ∃ k₀, ∀ k, k₀ ≤ k →
      (reads ⟨port.bytes, avail, hs⟩ tran (n + 2) req k).map Prod.fst = some (codes s) := by
  obtain ⟨s', hs', hwrite⟩ := sgTranscoderWrite_eq tran s
  have hchar : ∀ c ∈ codes s, CR ∉ eolChars tran.eolStyle c ∧
      (eolChars tran.eolStyle c).map (portChar tran.eolStyle) = [c] := by
    intro c hc
    unfold eolChars portChar
    split
    · subst c
      revert hstyle
      cases tran.eolStyle <;> decide
    · have hc : ¬ isEol c := mt (heol c hc) ‹_›
      exact ⟨fun h => hc (mem_singleton.1 h ▸ isEol_CR), by simp [eolChar, hc]⟩
  have hplain : CR ∉ codes s' := by
    simpa [hs'] using fun c hc => (hchar c hc).1
  have htext : portText tran.eolStyle (codes s') = codes s := by
    rw [portText_of_plain (.inr hplain), hs', map_flatMap]
    exact (flatMap_congr fun c hc => (hchar c hc).2).trans (flatMap_singleton' _)
  refine ⟨_, hwrite, ?_⟩
  rw [← htext]
  exact readsText_of_safe (.inl (.inr hplain))

theorem written_reads_back_line :
    ∃ port, sgTranscoderWrite ⟨.nel, .raise⟩ (codes ['a', '\n', 'é']) ⟨0, []⟩ = .done port ∧
      ∀ req, ∃ k₀, ∀ k, k₀ ≤ k →
        (reads ⟨port.bytes, id, true⟩ ⟨.nel, .raise⟩ 2 req k).map Prod.fst = some [97, LF, 233] :=
  @written_reads_back ⟨.nel, .raise⟩ 0 ['a', '\n', 'é'] id true (by decide) (by decide)

end

end Sagittarius.Text
