import Sagittarius.CharSet.Addition

/-!
# The complement of a character set

`Sg_CharSetComplement` deletes the ranges one after the other, and then reads the key and the value
of the entry that it has deleted.

* `ComplementsCleanly` : no range has two children when it is deleted;
* `complementLoop_spec` : then the loop leaves the gaps between the ranges, and otherwise some range
  stays in the tree.
-/

namespace Sagittarius.CharSet

open TreeMap List

variable {tm : SgTreeMap ℕ ℕ} {t : Tree (Entry ℕ ℕ)} {d r : List (Entry ℕ ℕ)}
  {n k last stop : ℕ}

/-! ### A gap -/

/-- The next free address, and the tree with a range from `last + 1` to `stop` -/
def gapTree (last stop a : ℕ) (t : Tree (Entry ℕ ℕ)) : ℕ × Tree (Entry ℕ ℕ) :=
  if last < stop then (a + 1, coreSetTree (last + 1) stop a t) else (a, t)

theorem addGap_spec (h : Holds tm t) (hin : t.inorder = d ++ r) (hd : ∀ x ∈ d, x.key ≤ last)
    (hr : ∀ x ∈ r, last + 1 < x.key) (hn : t.inorder.length < n) (stop : ℕ) :
    let gt := gapTree last stop tm.fresh t
    ∃ tm' g, addGap n tm last stop = some tm' ∧ Holds tm' gt.2 ∧ tm'.fresh = gt.1 ∧
      gt.2.inorder = d ++ (g ++ r) ∧ contents g = rangeOf (last + 1) stop := by
  by_cases hlt : last < stop
  · obtain ⟨tm', hrun, h', hfresh, hin'⟩ := treeMapCoreSet_spec h hin
      (fun x hx => Nat.lt_succ_of_le (hd x hx)) hr hn stop
    refine ⟨tm', [⟨tm.fresh, last + 1, stop⟩], ?_, ?_⟩
    · rw [addGap, if_pos hlt, hrun]
      rfl
    · rw [gapTree, if_pos hlt, rangeOf, if_pos (Nat.succ_le_of_lt hlt)]
      exact ⟨h', hfresh, hin', rfl⟩
  · refine ⟨tm, [], ?_, ?_⟩
    · rw [addGap, if_neg hlt]
    · rw [gapTree, if_neg hlt, rangeOf, if_neg (mt Nat.lt_of_succ_le hlt)]
      exact ⟨h, rfl, hin, rfl⟩

/-! ### The loop -/

/-- The ranges are deleted one after the other, and gaps are filled in; none of the ranges has two
children at its turn.  The next free address is `a`. -/
def ComplementsCleanly : List (ℕ × ℕ) → ℕ → ℕ → Tree (Entry ℕ ℕ) → Prop
  | [], _, _, _ => True
  | (k, v) :: rs, last, a, t =>
    ¬ HasTwoChildren k t ∧
      ComplementsCleanly rs v (gapTree last (k - 1) a (deleteTree k t)).1
        (gapTree last (k - 1) a (deleteTree k t)).2

theorem canonical_lt_key {es : List (Entry ℕ ℕ)}
    (h : Canonical (last + 1) charMax (contents es)) : ∀ x ∈ es, last < x.key :=
  forall_mem_contents.1 fun x hx => (h.bounds x hx).1

theorem canonical_tail {x : Entry ℕ ℕ} {es : List (Entry ℕ ℕ)}
    (h : Canonical (last + 1) charMax (contents (x :: es))) :
    last < x.key ∧ x.key ≤ x.value ∧ Canonical (x.value + 1) charMax (contents es) := by
  have hx := (canonical_cons.1 h).1
  exact ⟨hx.1, hx.2.1, h.tail⟩

theorem complementLoop_nil (h : Holds tm t) (hd : ∀ x ∈ t.inorder, x.key ≤ last)
    (hn : 2 * t.inorder.length < n) : complementLoop n (k + 1) tm last = some (tm, last) := by
  rw [complementLoop, h.getHigherEntry (append_nil _).symm hd nofun hn]
  rfl

theorem complementLoop_step {x : Entry ℕ ℕ} {tm' tm'' : SgTreeMap ℕ ℕ} {p : Option ℕ}
    {m : Node ℕ ℕ} (h : Holds tm t) (hin : t.inorder = d ++ x :: r)
    (hd : ∀ x ∈ d, x.key ≤ last) (hr : ∀ y ∈ x :: r, last < y.key)
    (hn : 2 * t.inorder.length < n) (hrun : tm.rbDelete n x.key = some (tm', p))
    (hm : tm'.mem x.addr = some m) (hgap : addGap n tm' last (m.key - 1) = some tm'') :
    complementLoop n (k + 1) tm last = complementLoop n k tm'' m.value := by
  obtain ⟨mx, hmx, hkey, -⟩ := h.mem (e := x) (by rw [hin]; simp)
  rw [complementLoop, h.getHigherEntry hin hd hr hn]
  simp only [head?_cons, Option.map_some, Option.bind_eq_bind, Option.bind_some, hmx, hkey,
    hrun, hm, hgap]

theorem length_le_of_contents {g : List (Entry ℕ ℕ)} (hg : contents g = rangeOf (last + 1) stop) :
    g.length ≤ 1 := by
  have hlen := congrArg length hg
  rw [contents, length_map] at hlen
  rw [hlen, rangeOf]
  split_ifs <;> simp

theorem key_le_of_contents {g : List (Entry ℕ ℕ)} (hg : contents g = rangeOf (last + 1) stop) :
    ∀ x ∈ g, x.key ≤ stop := by
  intro x hx
  have hmem : (x.key, x.value) ∈ contents g := mem_map.2 ⟨x, hx, rfl⟩
  rw [hg] at hmem
  obtain ⟨heq, hle⟩ := mem_rangeOf hmem
  rwa [(Prod.mk.inj heq).1]

/-- A range is replaced by the gap before it; if it has two children, the one behind it stays in
the tree. -/
theorem complementLoop_cons {x : Entry ℕ ℕ} (h : Holds tm t) (hin : t.inorder = d ++ x :: r)
    (hd : ∀ y ∈ d, y.key ≤ last) (hcan : Canonical (last + 1) charMax (contents (x :: r)))
    (hn : 2 * t.inorder.length < n) :
    ∃ tm' t' s g q r', Leaves t x r s q r' ∧
      complementLoop n (k + 1) tm last = complementLoop n k tm' s.value ∧ Holds tm' t' ∧
      t'.inorder = (d ++ (g ++ q)) ++ r' ∧ t'.inorder.length ≤ t.inorder.length ∧
      (∀ y ∈ d ++ (g ++ q), y.key ≤ s.value) ∧ Canonical (s.value + 1) charMax (contents r') ∧
      contents g = rangeOf (last + 1) (s.key - 1) ∧
      (tm'.fresh, t') = gapTree last (s.key - 1) tm.fresh (deleteTree x.key t) := by
  obtain ⟨hlt, hle, hcan'⟩ := canonical_tail hcan
  obtain ⟨tm₁, s, q, r', hleaves, hrun₁, h₁, hfresh₁, hin₁, m, hm, hmkey, hmval⟩ :=
    h.deleteAt (n := n) hin (by omega)
  obtain ⟨hs, hq, hcan₁, hlen₁⟩ : (last < s.key ∧ s.key ≤ s.value) ∧
      (∀ y ∈ q, y.key = s.key ∧ last + 1 < s.key) ∧
      Canonical (s.value + 1) charMax (contents r') ∧ (q ++ r').length ≤ r.length := by
    cases hleaves with
    | one => exact ⟨⟨hlt, hle⟩, nofun, hcan', le_rfl⟩
    | both =>
      obtain ⟨hxs, hsle, hcan₁⟩ := canonical_tail hcan'
      exact ⟨⟨by omega, hsle⟩, by simp; omega, hcan₁, le_rfl⟩
  have hr : ∀ y ∈ q ++ r', last + 1 < y.key := by
    refine forall_mem_append.2 ⟨fun y hy => ?_, fun y hy => ?_⟩
    · rw [(hq y hy).1]
      exact (hq y hy).2
    · have := canonical_lt_key hcan₁ y hy
      omega
  rw [hin, length_append, length_cons] at hn
  obtain ⟨tm₂, g, hrun₂, h₂, hfresh₂, hin₂, hg⟩ := addGap_spec (n := n) h₁ hin₁ hd hr
    (by rw [hin₁, length_append]; omega) (s.key - 1)
  rw [hfresh₁] at h₂ hfresh₂ hin₂
  have hlen := length_le_of_contents hg
  refine ⟨tm₂, _, s, g, q, r', hleaves, ?_, h₂, by rw [hin₂]; simp only [append_assoc], ?_, ?_,
    hcan₁, hg, Prod.ext hfresh₂ rfl⟩
  · rw [complementLoop_step h hin hd (canonical_lt_key hcan)
      (by rw [hin, length_append, length_cons]; omega) hrun₁ hm (hmkey ▸ hrun₂), hmval]
  · simp only [hin, hin₂, length_append, length_cons] at hlen₁ ⊢
    omega
  · intro y hy
    simp only [mem_append] at hy
    rcases hy with hy | hy | hy
    · have := hd y hy
      omega
    · have := key_le_of_contents hg y hy
      omega
    · exact (hq y hy).1.le.trans hs.2

/-- The loop comes to its end at a tree that is not larger and of which `P` holds, with all keys
behind it. -/
def LoopEnds (n k : ℕ) (tm : SgTreeMap ℕ ℕ) (last : ℕ) (t : Tree (Entry ℕ ℕ))
    (P : List (Entry ℕ ℕ) → ℕ → Prop) : Prop :=
  ∃ tm' t' last', complementLoop n k tm last = some (tm', last') ∧ Holds tm' t' ∧
    (∀ x ∈ t'.inorder, x.key ≤ last') ∧ t'.inorder.length ≤ t.inorder.length ∧
    P t'.inorder last'

/-- **The loop leaves the gaps if no range has two children at its turn, and some range stays in
the tree otherwise**, as all that it has passed does. -/
theorem complementLoop_spec (h : Holds tm t) (hin : t.inorder = d ++ r)
    (hd : ∀ x ∈ d, x.key ≤ last) (hcan : Canonical (last + 1) charMax (contents r))
    (hn : 2 * t.inorder.length < n) (hk : r.length < k) :
    LoopEnds n k tm last t fun es last' => d ⊆ es ∧
      (ComplementsCleanly (contents r) last tm.fresh t →
        contents es ++ rangeOf (last' + 1) charMax =
          contents d ++ gapsFrom charMax last (contents r)) ∧
      (¬ ComplementsCleanly (contents r) last tm.fresh t → ∃ x ∈ es, ∃ y ∈ r, x.key = y.key) := by
  induction k generalizing tm t d r last with
  | zero => cases hk
  | succ k ih =>
    obtain _ | ⟨x, r⟩ := r
    · rw [append_nil] at hin
      subst hin
      exact ⟨tm, t, last, complementLoop_nil h hd hn, h, hd, le_rfl, List.Subset.refl _,
        fun _ => rfl, fun hnot => (hnot trivial).elim⟩
    obtain ⟨tm₁, t₁, s, g, q, r₁, hleaves, hstep, h₁, hin₁, hlen, hd₁, hcan₁, hg, hgap⟩ :=
      complementLoop_cons (k := k) h hin hd hcan hn
    have hk₁ : r₁.length < k := by
      rw [length_cons] at hk
      cases hleaves with
      | one => omega
      | both =>
        rw [length_cons] at hk
        omega
    obtain ⟨tm', t', last', hrun, h', hlast, hlen', hsub, hcon, hstay⟩ :=
      ih h₁ hin₁ hd₁ hcan₁ (by omega) hk₁
    refine ⟨tm', t', last', hstep.trans hrun, h', hlast, hlen'.trans hlen,
      List.Subset.trans (subset_append_left _ _) hsub, ?_⟩
    cases hleaves with
    | one hnot =>
      have hclean : ComplementsCleanly (contents (x :: r)) last tm.fresh t ↔
          ComplementsCleanly (contents r) x.value tm₁.fresh t₁ := by
        rw [contents_cons, ComplementsCleanly, ← hgap]
        exact and_iff_right hnot
      rw [hclean]
      refine ⟨fun hc => ?_, fun hc => ?_⟩
      · rw [hcon hc, contents_append, append_nil, hg, append_assoc, contents_cons, gapsFrom]
      · obtain ⟨y, hy, z, hz, heq⟩ := hstay hc
        exact ⟨y, hy, z, mem_cons_of_mem _ hz, heq⟩
    | both hboth =>
      exact ⟨fun hc => (hc.1 hboth).elim, fun _ =>
        ⟨⟨x.addr, s.key, s.value⟩, hsub (by simp), s, by simp, rfl⟩⟩

end Sagittarius.CharSet
