import Sagittarius.Library.RedBlack
import Sagittarius.TreeMap.FiniteMap

/-!
# Balance

Insertion keeps red-black trees.  Deletion does so for some deletions only: the loop of the source
does not paint the sibling of a left child red, and the node at which it stops is not painted black.

* `RedBlack.insertTree` : insertion keeps red-black trees;
* `redBlack_fixDeletion_iff`, `FixOk` : the paths on which the loop of the deletion restores the
  balance;
* `redBlack_deleteTree_iff`, `Benign` : the deletions that keep red-black trees.
-/

namespace Sagittarius.TreeMap

open Sagittarius.Tree

section tree

variable {α : Type*} {t : Tree α} {ctx : List (Frame α)} {f : Frame α} {n : ℕ}

/-! ### Insertion -/

theorem RedBlack.paint_black {t : Tree α} (h : RedBlack t) : RedBlack (t.paint .black) := by
  have ht : t.paint .black = t := by
    cases t with
    | leaf => rfl
    | node c e kids =>
      obtain rfl : c = .black := h.1
      rfl
  rwa [ht]

variable {e : α} {kids : Side → Tree α}

theorem balanced_straighten {d : Side} {t' : Tree α} {f' : Frame α}
    (hs : straighten d (.node .red e kids) f = (t', f')) (ht : Balanced n (.node .red e kids))
    (hf : f.color = .red) (hsib : f.sibling.color = .black) (hsib' : Balanced n f.sibling) :
    Balanced n t' ∧ f'.sibling.color = .black ∧ Balanced n f'.sibling := by
  by_cases hd : f.side = d
  · rw [straighten, if_pos hd] at hs
    obtain ⟨rfl, rfl⟩ := Prod.mk.inj hs
    exact ⟨ht, hsib, hsib'⟩
  · rw [straighten, if_neg hd] at hs
    obtain ⟨rfl, rfl⟩ := Prod.mk.inj hs
    obtain ⟨hred, m, rfl, hkids⟩ := ht
    simp only [Color.weight, Nat.zero_add] at hsib' ⊢
    refine ⟨?_, hred rfl _, hkids _⟩
    rw [hf, balanced_pick]
    exact ⟨fun _ => ⟨hsib, hred rfl d⟩, m, by simp [Color.weight], hsib', hkids d⟩

theorem fits_red_parent {g : Frame α} (h : Fits (f :: g :: ctx) .black n) (hf : f.color = .red) :
    f.sibling.color = .black ∧ Balanced n f.sibling ∧ g.color = .black ∧ Balanced n g.sibling ∧
      Fits ctx .black (n + 1) := by
  obtain ⟨hred, hsib, hredg, hsibg, hfit⟩ := h
  have hg : g.color = .black := Color.eq_black_of_ne fun hg => by
    cases hf.symm.trans (hredg hg).1
  rw [hf, Color.weight, Nat.zero_add] at hsibg hfit
  rw [hg, Color.weight, Nat.add_comm] at hfit
  exact ⟨(hred hf).2, hsib, hg, hsibg, hfit⟩

/-- **The loop of the insertion restores the balance**: only a red parent of the red subtree is
allowed. -/
theorem redBlack_fixInsertion (ht : Balanced n (.node .red e kids)) (hfit : Fits ctx .black n) :
    RedBlack ((fixInsertion (.node .red e kids) ctx).paint .black) := by
  generalize hT : Tree.node .red e kids = T at ht ⊢
  fun_induction fixInsertion T ctx generalizing e kids n with
  | case1 T =>
    subst hT
    exact ⟨rfl, n + 1, ht.paint_black rfl⟩
  | case2 T f hf =>
    cases hf.symm.trans hfit.2.2
  | case3 T f hf =>
    subst hT
    refine RedBlack.paint_black ?_
    rw [show f.fill _ = plug _ [f] from rfl, redBlack_plug_iff]
    exact ⟨n, ht, fun hred => (hf hred).elim, hfit.2⟩
  | case4 T f g ctx hf hg ih =>
    obtain ⟨hfsib, hf', hgblack, hg', hfit'⟩ := fits_red_parent hfit hf
    refine ih (n := n + 1) hfit' rfl ?_
    rw [Frame.fill, balanced_pick]
    have hparent : Balanced (n + 1) ({ f with color := .black }.fill T) := by
      rw [Frame.fill, balanced_pick]
      exact ⟨by simp, n, Nat.add_comm .., ht, hf'⟩
    have huncle : (g.sibling.paint .black).color = .black := by
      obtain ⟨e', kids', hs⟩ := eq_node_of_color hg
      rw [hs]
      rfl
    exact ⟨fun _ => ⟨rfl, huncle⟩, n + 1, by simp [Color.weight], hparent, hg'.paint_black hg⟩
  | case5 T f g ctx hf hg t' f' hs =>
    subst hT
    obtain ⟨hfsib, hf', hgblack, hg', hfit'⟩ := fits_red_parent hfit hf
    obtain ⟨ht', hsib, hsib'⟩ := balanced_straighten hs ht hf hfsib hf'
    refine RedBlack.paint_black ?_
    rw [redBlack_plug_iff]
    refine ⟨n, ht', by simp, ?_, ?_⟩
    · rw [balanced_pick]
      exact ⟨fun _ => ⟨hsib, Color.eq_black_of_ne hg⟩, n, by simp [Color.weight], hsib', hg'⟩
    · simpa [Color.weight, Nat.add_comm] using hfit'
  | case6 T f g ctx hf =>
    subst hT
    refine RedBlack.paint_black ?_
    rw [redBlack_plug_iff]
    exact ⟨n, ht, fun hred => (hf hred).elim, hfit.2⟩

/-! ### Deletion -/

/-- The paths on which the loop of the deletion restores the balance: it has to find a red child of
a sibling, and may only go up from a right child whose parent is black. -/
def FixOk : List (Frame α) → Prop
  | [] => True
  | f :: ctx =>
    match f.sibling with
    | .node .red _ kids => ¬ blackNephews ⟨f.side, .red, f.entry, kids f.side⟩
    | _ => ¬ blackNephews f ∨ f.side = .right ∧ f.color = .black ∧ FixOk ctx

theorem not_blackNephews_iff {c : Color} {s : α} {cf : Color} (d : Side) :
    ¬ blackNephews ⟨d, cf, e, .node c s kids⟩ ↔
      (kids d).color = .red ∨ (kids d.opp).color = .red := by
  have hred : ∀ c : Color, c = .black ↔ c ≠ .red := by
    intro c
    cases c <;> decide
  simp only [blackNephews, hred]
  cases d
  · simp only [Side.opp]
    tauto
  · simp only [Side.opp]
    tauto

theorem balanced_outerNephew {d : Side} {s : α} (h : Balanced (n + 1) (.node .black s kids))
    (hred : (kids d).color = .red ∨ (kids d.opp).color = .red) :
    ∃ c' s' kids', outerNephew d (.node .black s kids) = .node c' s' kids' ∧
      Balanced n (kids' d) ∧ (kids' d.opp).color = .red ∧ Balanced n (kids' d.opp) := by
  obtain ⟨-, m, hm, hkids⟩ := h
  obtain rfl : n = m := by simpa [Color.weight, Nat.add_comm] using hm
  by_cases hfar : (kids d.opp).color = .red
  · refine ⟨.black, s, kids, ?_, hkids d, hfar, hkids d.opp⟩
    simp only [outerNephew, hfar]
  · have hblack := Color.eq_black_of_ne hfar
    obtain ⟨m, mkids, hm⟩ := eq_node_of_color (hred.resolve_right hfar)
    have hnear := hkids d
    rw [hm] at hnear
    obtain ⟨hmred, k, hk, hmkids⟩ := hnear
    obtain rfl : n = k := by simpa [Color.weight] using hk
    refine ⟨.black, m, pick d (mkids d) (.node .red s (pick d (mkids d.opp) (kids d.opp))), ?_, ?_,
      ?_, ?_⟩
    · simp only [outerNephew, hblack, hm]
    · rw [pick_self]
      exact hmkids d
    · rw [pick_opp]
      rfl
    · rw [pick_opp, balanced_pick]
      exact ⟨fun _ => ⟨hmred rfl _, hblack⟩, n, by simp [Color.weight], hmkids _, hkids _⟩

theorem fits_rotateNephew (hf : ¬ blackNephews f) (hsib : f.sibling.color = .black)
    (hfit : Fits (f :: ctx) .black (n + 1)) : Fits (rotateNephew f ++ ctx) .black n := by
  obtain ⟨d, cf, e, sib⟩ := f
  obtain ⟨-, hbal, hfit⟩ := hfit
  cases sib with
  | leaf => exact (hf trivial).elim
  | node c s kids =>
    obtain rfl : c = .black := hsib
    obtain ⟨c', s', kids', hout, hnear, hred, hfar⟩ :=
      balanced_outerNephew hbal ((not_blackNephews_iff d).1 hf)
    have hpaint : ((kids' d.opp).paint .black).color = .black := by
      obtain ⟨m, mkids, hm⟩ := eq_node_of_color hred
      rw [hm]
      rfl
    rw [rotateNephew]
    simp only [hout]
    refine ⟨by simp, hnear, fun _ => ⟨rfl, hpaint⟩, ?_, ?_⟩
    · rw [Color.weight, Nat.add_comm]
      exact hfar.paint_black hred
    · rwa [Color.weight, Nat.add_comm 1 n]

theorem Balanced.not_leaf (h : Balanced (n + 1) t) : ∃ c e kids, t = .node c e kids := by
  cases t with
  | leaf => cases h
  | node c e kids => exact ⟨c, e, kids, rfl⟩

theorem redBlack_plug_iff_fits (h : Balanced n t) :
    RedBlack (plug t ctx) ↔ Fits ctx t.color n := by
  rw [redBlack_plug_iff]
  constructor
  · rintro ⟨m, hm, hfit⟩
    rwa [hm.unique h] at hfit
  · intro hfit
    exact ⟨n, h, hfit⟩

/-- **The loop of the deletion restores the balance on these paths only**: `t` has one black node
less on every path than the path `ctx` needs. -/
theorem redBlack_fixDeletion_iff (ht : Balanced n t) (hcolor : t.color = .black)
    (hfit : Fits ctx .black (n + 1)) :
    RedBlack (plug t (fixDeletion .black ctx)) ↔ FixOk ctx := by
  induction ctx generalizing t n with
  | nil => exact ⟨fun _ => trivial, fun _ => ⟨hcolor, n, ht⟩⟩
  | cons f ctx ih =>
    obtain ⟨d, cf, e, sib⟩ := f
    obtain ⟨hred, hsib, hrest⟩ := hfit
    obtain ⟨cs, s, kids, rfl⟩ := Balanced.not_leaf hsib
    cases cs with
    | red =>
      -- the parent is black; after the rotation it is red, with a black sibling
      obtain ⟨hblack, m, hm, hkids⟩ := hsib
      obtain rfl : n + 1 = m := by simpa [Color.weight] using hm
      obtain rfl : cf = .black := Color.eq_black_of_ne fun h => by cases (hred h).2
      rw [fixDeletion, FixOk]
      by_cases hb : blackNephews ⟨d, .red, e, kids d⟩
      · simp only [hb, if_true, not_true, iff_false]
        rw [redBlack_plug_iff_fits ht, hcolor]
        rintro ⟨hcolors, hbal, -⟩
        cases d with
        | left => exact absurd (hbal.unique (hkids .left)) (Nat.ne_of_lt (Nat.lt_succ_self n))
        | right =>
          obtain ⟨c', s', kids', hnode⟩ := Balanced.not_leaf (hkids .right)
          have := (hcolors rfl).2
          rw [recolour, hnode] at this
          cases this
      · simp only [hb, if_false, not_false_eq_true, iff_true]
        rw [redBlack_plug_iff_fits ht, hcolor]
        refine fits_rotateNephew hb (hblack rfl d) ⟨fun _ => ⟨rfl, hblack rfl d⟩, hkids d, ?_⟩
        refine ⟨by simp, by simpa [Color.weight] using hkids d.opp, ?_⟩
        simpa [Color.weight] using hrest
    | black =>
      rw [fixDeletion, FixOk]
      by_cases hb : blackNephews ⟨d, cf, e, .node .black s kids⟩
      · simp only [hb, if_true, not_true, false_or]
        rw [plug]
        cases d with
        | left =>
          -- the subtrees of the parent differ by one black node
          refine iff_of_false ?_ fun h => by cases h.1
          rw [redBlack_plug_iff]
          rintro ⟨m, hm, -⟩
          obtain ⟨-, k, -, hk, hk'⟩ := balanced_pick.1 hm
          exact absurd ((hk.unique ht).symm.trans (hk'.unique hsib))
            (Nat.ne_of_lt (Nat.lt_succ_self n))
        | right =>
          cases cf with
          | red =>
            refine iff_of_false ?_ fun h => by cases h.2.1
            rw [redBlack_plug_iff]
            rintro ⟨m, hm, -⟩
            cases ((balanced_pick.1 hm).1 rfl).2
          | black =>
            obtain ⟨-, m, hm, hkids⟩ := hsib
            obtain rfl : n = m := by simpa [Color.weight, Nat.add_comm] using hm
            have hsib' : Balanced n (.node .red s kids) :=
              ⟨fun _ d => by cases d; exacts [hb.1, hb.2], n, by simp [Color.weight], hkids⟩
            have hup : Balanced (n + 1) (.node .black e (pick .right t (.node .red s kids))) :=
              balanced_pick.2 ⟨by simp, n, by simp [Color.weight, Nat.add_comm], ht, hsib'⟩
            rw [show Frame.fill (recolour _) t = .node .black e (pick .right t (.node .red s kids))
              from rfl, ih hup rfl (by simpa [Color.weight, Nat.add_comm] using hrest)]
            simp
      · simp only [hb, if_false, not_false_eq_true, true_or, iff_true]
        rw [redBlack_plug_iff_fits ht, hcolor]
        exact fits_rotateNephew hb rfl ⟨hred, hsib, hrest⟩

end tree

/-! ### The node that is taken out -/

variable {κ ν : Type}

variable {c : Color}

theorem fits_only_child {α : Type*} {e : α} {d : Side} {rep : Tree α} {ctx : List (Frame α)}
    (h : RedBlack (plug (.node c e (pick d rep .leaf)) ctx)) :
    (c = .red → rep.color = .black) ∧ Balanced 0 rep ∧ Fits ctx c c.weight := by
  obtain ⟨n, hn, hfit⟩ := redBlack_plug_iff.1 h
  obtain ⟨hred, m, rfl, hrep, hleaf⟩ := balanced_pick.1 hn
  obtain rfl : m = 0 := hleaf
  exact ⟨fun hc => (hred hc).1, hrep, hfit⟩

theorem eq_leaf_of_balanced {α : Type*} {t : Tree α} (h : Balanced 0 t) (ht : t.color = .black) :
    t = .leaf := by
  cases t with
  | leaf => rfl
  | node c e kids =>
    obtain rfl : c = .black := ht
    obtain ⟨-, m, hm, -⟩ := h
    simp [Color.weight] at hm
    omega

theorem fixDeletion_red {α : Type*} (ctx : List (Frame α)) : fixDeletion .red ctx = ctx := by
  cases ctx <;> rfl

variable {n : ℕ}

theorem not_fits_short {α : Type*} {ctx : List (Frame α)} {m : ℕ} (h : Fits ctx .black n)
    (h' : Fits ctx .red m) (hnm : n = m + 1) : False := by
  cases ctx with
  | nil => cases h'
  | cons f ctx =>
    have := h.2.1.unique h'.2.1
    omega

theorem fits_removal {e : Entry κ ν} {kids : Side → Tree (Entry κ ν)}
    {ctx : List (Frame (Entry κ ν))} (h : RedBlack (plug (.node c e kids) ctx))
    {r : Removal (Entry κ ν)} (hr : removal c e kids ctx = r) :
    (r.color = .red → r.rep.color = .black) ∧ Balanced 0 r.rep ∧
      Fits r.path r.color r.color.weight := by
  rcases removal_cases c e kids ctx with ⟨d, rep, rfl, heq⟩ |
    ⟨-, cs, s, rep, path, -, hplug, -, heq⟩
  · obtain rfl := heq.symm.trans hr
    exact fits_only_child h
  · obtain rfl := heq.symm.trans hr
    have hdown : RedBlack (plug (.node c ⟨e.addr, s.key, s.value⟩ kids) ctx) := by
      rwa [redBlack_plug_iff] at h ⊢
    rw [← plug_kid c _ kids .right, ← hplug, ← plug_append] at hdown
    exact fits_only_child hdown

/-! ### The operations -/

variable [LinearOrder κ] {tm : SgTreeMap κ ν} {t t' : Tree (Entry κ ν)}

/-- **Insertion keeps red-black trees.** -/
theorem redBlack_insertTree [Inhabited ν] (h : RedBlack t) (key : κ) (a : ℕ) :
    RedBlack (insertTree key a t) := by
  have hplug := plug_descend key t []
  rw [insertTree]
  rcases hd : descend key t [] with ⟨_ | ⟨c, e, kids⟩, ctx⟩
  · rw [hd] at hplug
    obtain rfl : plug .leaf ctx = t := hplug
    obtain ⟨n, hn, hfit⟩ := redBlack_plug_iff.1 h
    obtain rfl : n = 0 := hn
    exact redBlack_fixInsertion ⟨fun _ _ => rfl, 0, rfl, fun _ => rfl⟩ hfit
  · exact h

/-- The deletions that keep red-black trees: the node that is taken out is red, or it is a black
node without children, from which the loop restores the balance. -/
def Benign (key : κ) (t : Tree (Entry κ ν)) : Prop :=
  match descend key t [] with
  | (.leaf, _) => True
  | (.node c e kids, ctx) => (removal c e kids ctx).color = .red ∨
      (removal c e kids ctx).rep = .leaf ∧ FixOk (removal c e kids ctx).path

/-- **Exactly these deletions keep red-black trees.** -/
theorem redBlack_deleteTree_iff (h : RedBlack t) (key : κ) :
    RedBlack (deleteTree key t) ↔ Benign key t := by
  have hplug := plug_descend key t []
  rw [deleteTree, Benign]
  rcases hd : descend key t [] with ⟨_ | ⟨c, e, kids⟩, ctx⟩
  · exact iff_of_true h trivial
  · rw [hd] at hplug
    obtain rfl : plug (.node c e kids) ctx = t := hplug
    simp only
    obtain ⟨hred, hrep, hfit⟩ := fits_removal h rfl
    generalize removal c e kids ctx = r at hred hrep hfit ⊢
    obtain ⟨c', e', rep, path⟩ := r
    cases c' with
    | red =>
      obtain rfl := eq_leaf_of_balanced hrep (hred rfl)
      refine iff_of_true ?_ (.inl rfl)
      exact (redBlack_plug_iff_fits hrep).2 hfit.black
    | black =>
      rcases hcolor : rep.color with _ | _
      · refine iff_of_false ?_ ?_
        · rw [Removal.fixed, fixedPath, if_pos rfl, hcolor, fixDeletion_red,
            redBlack_plug_iff_fits hrep, hcolor]
          exact fun hfit' => not_fits_short hfit hfit' rfl
        · rintro (h | ⟨rfl, -⟩)
          · cases h
          · cases hcolor
      · obtain rfl := eq_leaf_of_balanced hrep hcolor
        exact (redBlack_fixDeletion_iff hrep rfl hfit).trans (by simp)

/-! ### Runs -/

/-- The operation keeps red-black trees. -/
def Op.Benign (t : Tree (Entry κ ν)) : Op κ ν → Prop
  | .delete key => TreeMap.Benign key t
  | _ => True

theorem Op.Changes.redBlack_iff [Inhabited ν] {op : Op κ ν} {a : ℕ} (h : op.Changes a t t')
    (ht : RedBlack t) : RedBlack t' ↔ op.Benign t := by
  cases op with
  | set key value =>
    have hins := redBlack_insertTree ht key a
    cases value with
    | none =>
      obtain rfl : t' = _ := h
      exact iff_of_true hins trivial
    | some v =>
      obtain ⟨e, -, -, rfl⟩ := h
      exact iff_of_true ((redBlack_map _).2 hins) trivial
  | delete key =>
    obtain rfl : t' = _ := h
    exact redBlack_deleteTree_iff ht key
  | copy =>
    refine iff_of_true ?_ trivial
    rw [← redBlack_map Entry.pair, show t'.map Entry.pair = _ from h, redBlack_map]
    exact ht

/-- After the operations the memory holds the tree `t`. -/
structure Reaches [Inhabited ν] (n : ℕ) (ops : List (Op κ ν)) (tm : SgTreeMap κ ν)
    (t : Tree (Entry κ ν)) : Prop where
  run : ops.foldlM (Op.run n) SgTreeMap.empty = some tm
  root : tm.root = ptr t
  stored : Stored tm.mem none t

theorem Represents.reaches [Inhabited ν] (ops : List (Op κ ν)) (hn : ops.length < n) :
    ∃ tm t, Reaches n ops tm t ∧ Holds tm t ∧ t.inorder.length < n := by
  obtain ⟨tm, t, hrun, ht, -, hle⟩ := exists_holds ops hn
  exact ⟨tm, t, ⟨hrun, ht.held.path, ht.held.tree⟩, ht, lt_of_le_of_lt hle hn⟩

variable {ops : List (Op κ ν)}

theorem Reaches.unique [Inhabited ν] {tm' : SgTreeMap κ ν} (h : Reaches n ops tm t)
    (h' : Reaches n ops tm' t') : tm = tm' ∧ t = t' := by
  obtain rfl : tm = tm' := Option.some.inj (h.run.symm.trans h'.run)
  exact ⟨rfl, h.stored.unique h'.stored (h.root.symm.trans h'.root)⟩

theorem Reaches.snoc [Inhabited ν] (h : Reaches n ops tm t) (hn : ops.length < n) (op : Op κ ν) :
    ∃ tm' t', Reaches n (ops ++ [op]) tm' t' ∧ Holds tm' t' ∧ op.Changes tm.fresh t t' := by
  obtain ⟨tm₀, t₀, h₀, ht, hsize⟩ := Represents.reaches ops hn
  obtain ⟨rfl, rfl⟩ := h.unique h₀
  obtain ⟨tm', t', hrun, ht', hop⟩ := ht.run op hsize
  refine ⟨tm', t', ⟨?_, ht'.held.path, ht'.held.tree⟩, ht', hop⟩
  rw [List.foldlM_append, h.run]
  simp [hrun]

theorem Reaches.height_le [Inhabited ν] (h : Reaches n ops tm t) (hn : ops.length < n)
    (ht : RedBlack t) : 2 ^ t.height ≤ (tm.entryCount + 1) ^ 2 := by
  obtain ⟨tm₀, t₀, h₀, hold, -⟩ := Represents.reaches ops hn
  obtain ⟨rfl, rfl⟩ := h.unique h₀
  rw [hold.count]
  exact_mod_cast ht.two_pow_height_le

/-- **Tree maps stay balanced as long as every deletion is benign, and no longer.** -/
theorem rb_balance_iff [Inhabited ν] (ops : List (Op κ ν)) (spare : ℕ) :
    (∀ pre tm t, pre <+: ops → Reaches (ops.length + 1 + spare) pre tm t →
      RedBlack t ∧ 2 ^ t.height ≤ (tm.entryCount + 1) ^ 2) ↔
    ∀ pre key tm t, pre ++ [.delete key] <+: ops → Reaches (ops.length + 1 + spare) pre tm t →
      Benign key t := by
  constructor
  · intro h pre key tm t hpre hreach
    have hlen := hpre.length_le
    rw [List.length_append, List.length_singleton] at hlen
    have hpre' : pre <+: ops := (List.prefix_append _ _).trans hpre
    obtain ⟨tm', t', hreach', -, hop⟩ := hreach.snoc (by omega) (.delete key)
    exact (hop.redBlack_iff (h pre tm t hpre' hreach).1).1 (h _ tm' t' hpre hreach').1
  · intro h pre
    have hred : ∀ tm t, pre <+: ops → Reaches (ops.length + 1 + spare) pre tm t → RedBlack t := by
      induction pre using List.reverseRecOn with
      | nil =>
        rintro tm t - hreach
        obtain rfl : SgTreeMap.empty = tm := Option.some.inj hreach.run
        obtain rfl : t = .leaf := by
          cases t with
          | leaf => rfl
          | node => cases hreach.root
        exact ⟨rfl, 0, rfl⟩
      | append_singleton pre op ih =>
        intro tm t hpre hreach
        have hlen := hpre.length_le
        rw [List.length_append, List.length_singleton] at hlen
        have hpre' : pre <+: ops := (List.prefix_append _ _).trans hpre
        obtain ⟨tm₀, t₀, h₀, -⟩ := Represents.reaches pre (n := ops.length + 1 + spare) (by omega)
        obtain ⟨tm', t', hreach', -, hop⟩ := h₀.snoc (by omega) op
        obtain ⟨rfl, rfl⟩ := hreach.unique hreach'
        refine (hop.redBlack_iff (ih tm₀ t₀ hpre' h₀)).2 ?_
        cases op with
        | delete key => exact h pre key tm₀ t₀ hpre h₀
        | set key value | copy => trivial
    intro tm t hpre hreach
    have hlen := hpre.length_le
    exact ⟨hred tm t hpre hreach, hreach.height_le (by omega) (hred tm t hpre hreach)⟩

/-- Deleting the smaller one of two keys leaves a red root. -/
theorem rb_delete_red_root : ∃ (tm : SgTreeMap ℕ Unit) (t : Tree (Entry ℕ Unit)),
    Reaches 4 [.set 1 none, .set 2 none, .delete 1] tm t ∧ ¬ RedBlack t := by
  refine ⟨_, .node .red ⟨1, 2, ()⟩ fun _ => .leaf, ⟨rfl, rfl, ?_, fun _ => trivial⟩, ?_⟩
  · rfl
  · rintro ⟨hcolor, -⟩
    cases hcolor

end Sagittarius.TreeMap
