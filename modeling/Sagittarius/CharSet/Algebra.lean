import Sagittarius.CharSet.Complement

/-!
# The algebra of character sets

What `Sg_CharSetContains` says about the results of `Sg_CharSetAddRange`, `Sg_CharSetAdd` and
`Sg_CharSetComplement` on sets in canonical form.

The tree maps that hold the ranges move the contents of an entry when the one before it is deleted
and has two children.  Both loops read the entry that they have just deleted; so the results are
right exactly when this never happens.
-/

namespace Sagittarius.CharSet

open TreeMap List
open Option (bind_eq_bind bind_some map_some)

variable {cs : SgCharSet} {t : Tree (Entry ℕ ℕ)} {l r : List (Entry ℕ ℕ)} {n start stop : ℕ}

/-- The set is in canonical form. -/
def IsCanonical (cs : SgCharSet) : Prop := ∃ t, Shows cs.large t

/-! ### `Sg_CharSetContains` -/

/-- The character is in the set. -/
def Has (cs : SgCharSet) (t : Tree (Entry ℕ ℕ)) (c : ℕ) : Prop :=
  if c < smallChars then cs.small c = true else Covers (contents t.inorder) c

instance (cs : SgCharSet) (t : Tree (Entry ℕ ℕ)) (c : ℕ) : Decidable (Has cs t c) :=
  inferInstanceAs (Decidable (if c < smallChars then _ else _))

theorem covers_iff_of_split {x : Entry ℕ ℕ} {c : ℕ}
    (hcan : Canonical smallChars charMax (contents (l ++ [x] ++ r))) (hx : x.key < c)
    (hr : ∀ y ∈ r, c < y.key) : Covers (contents (l ++ [x] ++ r)) c ↔ c ≤ x.value := by
  have hl := canonical_lt_key_of_mem (canonical_append.1 (contents_append _ r ▸ hcan)).1
  have hleft : ¬ Covers (contents l) c := by
    rintro ⟨y, hy, -, hle⟩
    obtain ⟨z, hz, rfl⟩ := mem_map.1 hy
    have := hl z hz
    omega
  have hright : ¬ Covers (contents r) c := by
    rintro ⟨y, hy, hle, -⟩
    obtain ⟨z, hz, rfl⟩ := mem_map.1 hy
    exact (hr z hz).not_ge hle
  simp only [contents_append, contents_cons, covers_append, covers_cons, hleft, hright, hx.le,
    true_and, false_or, or_false, show contents ([] : List (Entry ℕ ℕ)) = [] from rfl, covers_nil]

theorem Shows.contains (h : Shows cs.large t) (hn : 2 * t.inorder.length < n) (c : ℕ) :
    contains n cs c = some (decide (Has cs t c)) := by
  rw [CharSet.contains]
  by_cases hc : c < smallChars
  · simp [Has, hc]
  have hiff : Has cs t c ↔ Covers (contents t.inorder) c := by rw [Has, if_neg hc]
  rw [if_neg hc, decide_eq_decide.2 hiff]
  obtain ⟨hholds, hcan⟩ := h
  by_cases hkey : ∃ x ∈ t.inorder, x.key = c
  · obtain ⟨x, hx, rfl⟩ := hkey
    have hmem : (x.key, x.value) ∈ contents t.inorder := mem_map.2 ⟨x, hx, rfl⟩
    have hcov : Covers (contents t.inorder) x.key :=
      ⟨_, hmem, le_rfl, (hcan.bounds _ hmem).2.1⟩
    rw [hholds.getEntry_of_mem hx (by omega), decide_eq_true hcov]
    rfl
  · push Not at hkey
    obtain ⟨l, r, hin, hl, hr⟩ := hholds.sorted.exists_split c
    have hr' : ∀ x ∈ r, c < x.key := fun x hx =>
      lt_of_le_of_ne (hr x hx) (hkey x (by rw [hin]; exact mem_append_right _ hx)).symm
    rw [hholds.getEntry_of_not hkey (by omega)]
    simp only [bind_eq_bind, bind_some, hholds.getLowerEntry hin hl hr hn]
    rcases l.eq_nil_or_concat with rfl | ⟨l, x, rfl⟩
    · have hcov : ¬ Covers (contents t.inorder) c := by
        rintro ⟨y, hy, hle, -⟩
        obtain ⟨z, hz, rfl⟩ := mem_map.1 hy
        rw [hin] at hz
        exact (hr' z hz).not_ge hle
      rw [decide_eq_false hcov]
      rfl
    · rw [concat_eq_append] at hin hl ⊢
      obtain ⟨m, hm, -, hval⟩ := hholds.mem (e := x) (by rw [hin]; simp)
      have hcov : Covers (contents t.inorder) c ↔ c ≤ x.value := by
        rw [hin]
        exact covers_iff_of_split (hin ▸ hcan) (hl x (by simp)) hr'
      simp [hm, hval, hcov]

theorem contains_of_key (cs : SgCharSet) (h : Holds cs.large t) {x : Entry ℕ ℕ}
    (hx : x ∈ t.inorder) (hkey : smallChars ≤ x.key) (hn : t.inorder.length < n) :
    contains n cs x.key = some true := by
  rw [contains, if_neg hkey.not_gt, h.getEntry_of_mem hx hn]
  rfl

/-! ### `Sg_CharSetAddRange` -/

/-- The range above 128, if there is one, is added without deleting an entry that has two
children. -/
def RangeAddsCleanly (cs : SgCharSet) (t : Tree (Entry ℕ ℕ)) (start stop : ℕ) : Prop :=
  smallChars ≤ stop → AddsCleanly (max start smallChars) stop cs.large.fresh t

/-- The result has the characters of the range in addition, and is canonical. -/
def AddRangeRight (n : ℕ) (cs : SgCharSet) (start stop : ℕ) : Prop :=
  ∃ cs', addRange n cs start stop = some cs' ∧ IsCanonical cs' ∧
    ∀ c, contains n cs' c =
      (contains n cs c).map fun b => b || decide (start ≤ c ∧ c ≤ stop)

theorem bitFill_eq_true {small : ℕ → Bool} {c : ℕ} :
    bitFill small start stop c = true ↔ small c = true ∨ (start ≤ c ∧ c < stop) := by
  rw [bitFill]
  split_ifs with h
  · simp [h]
  · simp [h]

theorem addRange_eq (hle : start ≤ stop) :
    addRange n cs start stop =
      if stop < smallChars then some { cs with small := bitFill cs.small start (stop + 1) }
      else (addLarge n cs.large (max start smallChars) stop).map fun tm =>
        ⟨bitFill cs.small start smallChars, tm⟩ := by
  rw [addRange, if_neg hle.not_gt]
  by_cases hs : start < smallChars
  · rw [if_pos hs, max_eq_right hs.le]
  · rw [not_lt] at hs
    have hfill : bitFill cs.small start smallChars = cs.small := by
      funext i
      exact if_neg (by omega)
    rw [if_neg hs.not_gt, if_neg (hs.trans hle).not_gt, max_eq_left hs, hfill]

theorem Shows.addRange (h : Shows cs.large t) (hle : start ≤ stop) (hstop : stop ≤ charMax)
    (hclean : RangeAddsCleanly cs t start stop) (hn : 2 * t.inorder.length + 2 < n) :
    ∃ cs' t', addRange n cs start stop = some cs' ∧ Shows cs'.large t' ∧
      t'.inorder.length ≤ t.inorder.length + 1 ∧
      ∀ c, Has cs' t' c ↔ Has cs t c ∨ (start ≤ c ∧ c ≤ stop) := by
  rw [addRange_eq hle]
  by_cases hsmall : stop < smallChars
  · rw [if_pos hsmall]
    refine ⟨_, t, rfl, h, Nat.le_succ _, fun c => ?_⟩
    simp only [Has]
    split_ifs with hc
    · rw [bitFill_eq_true, Nat.lt_succ_iff]
    · rw [iff_self_or]
      omega
  · rw [not_lt] at hsmall
    obtain ⟨tm', t', hrun, -, hadds, -⟩ := h.addLarge (le_max_right start smallChars)
      (max_le hle hsmall) hstop hn
    obtain ⟨h', hlen, hcov⟩ := hadds (hclean hsmall)
    rw [if_neg hsmall.not_gt, hrun]
    refine ⟨_, t', rfl, h', hlen, fun c => ?_⟩
    simp only [Has]
    split_ifs with hc
    · rw [bitFill_eq_true]
      refine or_congr_right ?_
      omega
    · rw [hcov]
      refine or_congr_right ?_
      omega

/-- **A range is added as it should be exactly if no entry with two children is deleted.** -/
theorem Shows.addRange_iff (h : Shows cs.large t) (hle : start ≤ stop) (hstop : stop ≤ charMax)
    (hn : 2 * t.inorder.length + 2 < n) :
    AddRangeRight n cs start stop ↔ RangeAddsCleanly cs t start stop := by
  constructor
  · rintro ⟨cs', hrun, ⟨t', h'⟩, -⟩ hsmall
    by_contra hclean
    obtain ⟨tm', t₁, hrun', h₁, -, hnot⟩ := h.addLarge (le_max_right start smallChars)
      (max_le hle hsmall) hstop hn
    rw [addRange_eq hle, if_neg hsmall.not_gt, hrun'] at hrun
    obtain rfl := Option.some.inj hrun
    obtain rfl := h₁.unique h'.holds
    exact hnot hclean h'
  · intro hclean
    obtain ⟨cs', t', hrun, h', hlen, hhas⟩ := h.addRange hle hstop hclean hn
    refine ⟨cs', hrun, ⟨t', h'⟩, fun c => ?_⟩
    rw [h'.contains (by omega), h.contains (by omega), map_some, decide_eq_decide.2 (hhas c),
      Bool.decide_or]

/-! ### `Sg_CharSetAdd` -/

/-- The ranges are added one after the other, each of them without deleting an entry that has two
children. -/
def RangesAddCleanly (n : ℕ) : List (ℕ × ℕ) → SgCharSet → Prop
  | [], _ => True
  | (k, v) :: rs, cs =>
    (∀ t, Holds cs.large t → RangeAddsCleanly cs t k v) ∧
      ∀ cs', addRange n cs k v = some cs' → RangesAddCleanly n rs cs'

theorem Shows.addLoop {src : SgTreeMap ℕ ℕ} {ts : Tree (Entry ℕ ℕ)} {iter : SgTreeIter} {k : ℕ}
    (h : Shows cs.large t) (hsrc : Shows src ts) (hin : ts.inorder = l ++ r)
    (hiter : iter.After l) (hclean : RangesAddCleanly n (contents r) cs)
    (hn : 2 * (t.inorder.length + r.length) + 2 < n) (hns : ts.inorder.length < n)
    (hk : r.length < k) :
    ∃ cs' t', addLoop n src k cs iter = some cs' ∧ Shows cs'.large t' ∧
      2 * t'.inorder.length < n ∧
      ∀ c, Has cs' t' c ↔ Has cs t c ∨ Covers (contents r) c := by
  induction r generalizing cs t iter l k with
  | nil =>
    obtain _ | k := k
    · cases hk
    obtain ⟨iter', hnext, -⟩ := hsrc.holds.iterNext hns hin hiter
    rw [addLoop, hnext]
    refine ⟨cs, t, rfl, h, ?_, fun c => ?_⟩
    · rw [length_nil] at hn
      omega
    · rw [show contents ([] : List (Entry ℕ ℕ)) = [] from rfl]
      simp
  | cons x r ih =>
    obtain _ | k := k
    · cases hk
    obtain ⟨iter', hnext, hafter⟩ := hsrc.holds.iterNext hns hin hiter
    obtain ⟨m, hm, hmkey, hmval⟩ := hsrc.holds.mem (e := x) (by rw [hin]; simp)
    have hx := hsrc.canonical.bounds (x.key, x.value)
      (mem_map.2 ⟨x, by rw [hin]; simp, rfl⟩)
    rw [length_cons] at hn hk
    obtain ⟨cs₁, t₁, hrun, h₁, hlen, hhas⟩ := h.addRange (n := n) hx.2.1 hx.2.2
      (hclean.1 t h.holds) (by omega)
    obtain ⟨cs', t', hrun', h', hn', hhas'⟩ := ih (k := k) h₁ (by rw [hin, append_cons])
      (hafter x r rfl) (hclean.2 cs₁ hrun) (by omega) (by omega)
    refine ⟨cs', t', ?_, h', hn', fun c => ?_⟩
    · rw [addLoop, hnext]
      simp only [head?_cons, map_some, bind_eq_bind, bind_some, hm, hmkey,
        hmval, hrun, hrun']
    · rw [hhas', hhas, contents_cons, covers_cons, or_assoc]

theorem Shows.add {src : SgCharSet} {ts : Tree (Entry ℕ ℕ)} (h : Shows cs.large t)
    (hsrc : Shows src.large ts)
    (hclean : RangesAddCleanly n (contents ts.inorder)
      { cs with small := fun i => cs.small i || src.small i })
    (hn : 2 * (t.inorder.length + ts.inorder.length) + 2 < n) :
    ∃ cs' t', add n cs src = some cs' ∧ Shows cs'.large t' ∧ 2 * t'.inorder.length < n ∧
      ∀ c, Has cs' t' c ↔ Has cs t c ∨ Has src ts c := by
  have hdest :
      Shows ({ cs with small := fun i => cs.small i || src.small i } : SgCharSet).large t :=
    h
  have hinit : SgTreeIter.init.After ([] : List (Entry ℕ ℕ)) := rfl
  obtain ⟨cs', t', hrun, h', hn', hhas⟩ :=
    hdest.addLoop (k := n) hsrc (nil_append _).symm hinit hclean hn (by omega) (by omega)
  refine ⟨cs', t', hrun, h', hn', fun c => ?_⟩
  rw [hhas]
  simp only [Has]
  split_ifs with hc
  · have hnot : ¬ Covers (contents ts.inorder) c := fun hcov =>
      (hsrc.canonical.le_of_covers hcov).1.not_gt hc
    simp [hnot]
  · rfl

/-! ### `Sg_CharSetComplement` -/

/-- The result has exactly the other characters, and is canonical. -/
def ComplementRight (n : ℕ) (cs : SgCharSet) : Prop :=
  ∃ cs', complement n cs = some cs' ∧ IsCanonical cs' ∧
    ∀ c ≤ charMax, contains n cs' c = (contains n cs c).map fun b => !b

theorem complement_eq {tm' : SgTreeMap ℕ ℕ} {t' : Tree (Entry ℕ ℕ)} {last : ℕ}
    (hrun : complementLoop n n cs.large (smallChars - 1) = some (tm', last)) (h : Holds tm' t')
    (hlast : ∀ x ∈ t'.inorder, x.key ≤ last) (hn : t'.inorder.length < n) :
    ∃ tm'' t'' g, complement n cs = some ⟨fun i => !cs.small i, tm''⟩ ∧ Holds tm'' t'' ∧
      t''.inorder = t'.inorder ++ g ∧ contents g = rangeOf (last + 1) charMax := by
  obtain ⟨tm'', g, hgap, h', -, hin, hg⟩ := addGap_spec h
    (append_nil _).symm hlast nofun hn charMax
  rw [append_nil] at hin
  refine ⟨tm'', _, g, ?_, h', hin, hg⟩
  rw [complement, hrun]
  simp only [bind_eq_bind, bind_some, hgap]

theorem Shows.complement (h : Shows cs.large t)
    (hclean : ComplementsCleanly (contents t.inorder) (smallChars - 1) cs.large.fresh t)
    (hn : 2 * t.inorder.length < n) :
    ∃ cs' t', complement n cs = some cs' ∧ Shows cs'.large t' ∧
      t'.inorder.length ≤ t.inorder.length + 1 ∧
      ∀ c ≤ charMax, Has cs' t' c ↔ ¬ Has cs t c := by
  have hcan : Canonical (smallChars - 1 + 1) charMax (contents t.inorder) := h.canonical
  obtain ⟨tm₁, t₁, last, hrun, h₁, hlast, hlen, -, hcon, -⟩ := complementLoop_spec (d := [])
    (k := n) h.holds rfl nofun hcan hn (by omega)
  obtain ⟨tm₂, t₂, g, hrun₂, h₂, hin₂, hg⟩ := complement_eq hrun h₁ hlast (by omega)
  have hgaps : contents t₂.inorder = gapsFrom charMax (smallChars - 1) (contents t.inorder) := by
    rw [hin₂, contents_append, hg, hcon hclean]
    rfl
  have hone := length_le_of_contents hg
  refine ⟨_, t₂, hrun₂, ⟨h₂, ?_⟩, ?_, fun c hc => ?_⟩
  · rw [hgaps]
    exact canonical_gapsFrom hcan
  · rw [hin₂, length_append]
    omega
  · simp only [Has]
    split_ifs with hsmall
    · simp
    · rw [hgaps, covers_gapsFrom hcan hc]
      have : smallChars - 1 < c := by
        have : 0 < smallChars := by decide
        omega
      simp [this]

/-- **The complement is as it should be exactly if no entry with two children is deleted.** -/
theorem Shows.complement_iff (h : Shows cs.large t) (hn : 2 * t.inorder.length + 2 < n) :
    ComplementRight n cs ↔
      ComplementsCleanly (contents t.inorder) (smallChars - 1) cs.large.fresh t := by
  constructor
  · rintro ⟨cs', hrun', -, hright⟩
    by_contra hclean
    have hcan : Canonical (smallChars - 1 + 1) charMax (contents t.inorder) := h.canonical
    obtain ⟨tm₁, t₁, last, hrun, h₁, hlast, hlen, -, -, hstays⟩ := complementLoop_spec
      (d := []) (n := n) (k := n) h.holds rfl nofun hcan (by omega) (by omega)
    obtain ⟨x, hx, y, hy, hkey⟩ := hstays hclean
    obtain ⟨tm₂, t₂, g, hrun₂, h₂, hin₂, hg⟩ := complement_eq hrun h₁ hlast (by omega)
    have hone := length_le_of_contents hg
    obtain rfl := Option.some.inj (hrun'.symm.trans hrun₂)
    have hbounds := h.canonical.bounds (y.key, y.value) (mem_map.2 ⟨y, hy, rfl⟩)
    have hx₂ : x ∈ t₂.inorder := by
      rw [hin₂]
      exact mem_append_left _ hx
    have hnew := contains_of_key (n := n) ⟨fun i => !cs.small i, tm₂⟩ h₂ hx₂ (by omega)
      (by rw [hin₂, length_append]; omega)
    have hold := contains_of_key (n := n) cs h.holds hy hbounds.1 (by omega)
    have := hright y.key (by omega)
    rw [hkey] at hnew
    rw [hnew, hold] at this
    cases this
  · intro hclean
    obtain ⟨cs', t', hrun, h', hlen, hhas⟩ := h.complement (n := n) hclean (by omega)
    refine ⟨cs', hrun, ⟨t', h'⟩, fun c hc => ?_⟩
    rw [h'.contains (by omega), h.contains (by omega), map_some,
      decide_eq_decide.2 (hhas c hc), decide_not]

/-! ### The algebra -/

/-- **The operations of the algebra are right if, and for ranges and complements only if, no entry
that they delete has two children at that time.** -/
theorem charset_algebra_iff (h : Shows cs.large t) :
    (∃ n₀, ∀ n ≥ n₀, ∀ start stop, start ≤ stop → stop ≤ charMax →
      (AddRangeRight n cs start stop ↔ RangeAddsCleanly cs t start stop)) ∧
    (∀ src ts, Shows src.large ts → ∃ n₀, ∀ n ≥ n₀,
      RangesAddCleanly n (contents ts.inorder)
        { cs with small := fun i => cs.small i || src.small i } →
      ∃ cs', add n cs src = some cs' ∧ IsCanonical cs' ∧ ∀ c, contains n cs' c =
        (contains n cs c).bind fun a => (contains n src c).map fun b => a || b) ∧
    (∃ n₀, ∀ n ≥ n₀, (ComplementRight n cs ↔
      ComplementsCleanly (contents t.inorder) (smallChars - 1) cs.large.fresh t)) ∧
    ∃ n₀, ∀ n ≥ n₀, ∀ cs' t', complement n cs = some cs' → Holds cs'.large t' →
      ComplementsCleanly (contents t.inorder) (smallChars - 1) cs.large.fresh t →
      ComplementsCleanly (contents t'.inorder) (smallChars - 1) cs'.large.fresh t' →
      ∃ cs'', complement n cs' = some cs'' ∧
        ∀ c ≤ charMax, contains n cs'' c = contains n cs c := by
  refine ⟨⟨2 * t.inorder.length + 3, fun n hn start stop hle hstop => h.addRange_iff hle hstop hn⟩,
    ?_, ⟨2 * t.inorder.length + 3, fun n hn => h.complement_iff hn⟩, ?_⟩
  · intro src ts hsrc
    refine ⟨2 * (t.inorder.length + ts.inorder.length) + 3, fun n hn hclean => ?_⟩
    obtain ⟨cs', t', hrun, h', hn', hhas⟩ := h.add hsrc hclean hn
    refine ⟨cs', hrun, ⟨t', h'⟩, fun c => ?_⟩
    rw [h'.contains hn', h.contains (by omega), hsrc.contains (by omega), bind_some,
      map_some, decide_eq_decide.2 (hhas c), Bool.decide_or]
  · refine ⟨2 * t.inorder.length + 5, fun n hn cs' t' hrun hholds hclean hclean' => ?_⟩
    obtain ⟨cs₁, t₁, hrun₁, h₁, hlen₁, hhas₁⟩ := h.complement (n := n) hclean (by omega)
    obtain rfl := Option.some.inj (hrun.symm.trans hrun₁)
    obtain rfl := hholds.unique h₁.holds
    obtain ⟨cs₂, t₂, hrun₂, h₂, hlen₂, hhas₂⟩ := h₁.complement (n := n) hclean' (by omega)
    refine ⟨cs₂, hrun₂, fun c hc => ?_⟩
    rw [h₂.contains (by omega), h.contains (by omega), Option.some.injEq, decide_eq_decide,
      hhas₂ c hc, hhas₁ c hc, not_not]

/-- A set with the range from 200 to 300 -/
def oneRange : SgCharSet where
  small _ := false
  large :=
    { mem := fun a => if a = 0 then some ⟨200, 300, .black, none, fun _ => none⟩ else none
      fresh := 1
      root := some 0
      entryCount := 1 }

theorem shows_oneRange : Shows oneRange.large (.node .black ⟨0, 200, 300⟩ fun _ => .leaf) where
  holds :=
    { held := ⟨⟨rfl, fun _ => trivial⟩, rfl, .refl _, nodup_singleton _⟩
      sorted := pairwise_singleton _ _
      fresh := by simp [addrs, Tree.inorder, oneRange]
      count := rfl }
  canonical := ⟨by decide, pairwise_singleton _ _⟩

/-- With one range, both kinds of results are right. -/
theorem charset_algebra_oneRange : ∃ n₀, ∀ n ≥ n₀,
    ComplementRight n oneRange ∧ AddRangeRight n oneRange 150 350 := by
  obtain ⟨⟨n₁, hadd⟩, -, ⟨n₂, hcomp⟩, -⟩ := charset_algebra_iff shows_oneRange
  refine ⟨max n₁ n₂, fun n hn => ⟨(hcomp n (le_of_max_le_right hn)).2 ?_,
    (hadd n (le_of_max_le_left hn) 150 350 (by decide) (by decide)).2 ?_⟩⟩
  · exact ⟨fun hboth => hboth.1 rfl, trivial⟩
  · intro _
    decide +kernel

/-- The set of the characters 200, 300 and 400; the range of 300 is at the root of the tree. -/
def threeRanges : Option SgCharSet := do
  let cs ← addRange 9 .empty 200 200
  let cs ← addRange 9 cs 300 300
  addRange 9 cs 400 400

theorem ext_child {f g : Side → Option ℕ} (hl : f .left = g .left) (hr : f .right = g .right) :
    f = g := by
  funext d
  cases d
  · exact hl
  · exact hr

/-- The range from 150 to 350 is added, and the character 380 gets into the set; the complement
still has 300 and 400. -/
theorem charset_entry_overwritten : ∃ cs t, threeRanges = some cs ∧ Shows cs.large t ∧
    contains 9 cs 380 = some false ∧
    (do contains 9 (← addRange 9 cs 150 350) 380) = some true ∧
    contains 9 cs 300 = some true ∧
    (do contains 9 (← complement 9 cs) 300) = some true := by
  refine ⟨_, .node .black ⟨1, 300, 300⟩ (pick .left (.node .red ⟨0, 200, 200⟩ fun _ => .leaf)
    (.node .red ⟨2, 400, 400⟩ fun _ => .leaf)), rfl, ?_, ?_⟩
  · refine ⟨⟨⟨⟨?_, fun d => ?_⟩, rfl, .refl _, by decide⟩, ?_, by decide, rfl⟩, by decide,
      by decide⟩
    · exact congrArg (fun c => some (Node.mk 300 300 Color.black none c)) (ext_child rfl rfl)
    · cases d
      · exact ⟨congrArg (fun c => some (Node.mk 200 200 Color.red (some 1) c)) (ext_child rfl rfl),
          fun _ => trivial⟩
      · exact ⟨congrArg (fun c => some (Node.mk 400 400 Color.red (some 1) c)) (ext_child rfl rfl),
          fun _ => trivial⟩
    · simp [Sorted, Tree.inorder, pick]
  · decide +kernel

end Sagittarius.CharSet
