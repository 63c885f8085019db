import Sagittarius.TreeMap.Stored

/-!
# Insertion

`fix_after_insertion` on trees, and that the loop of the source computes it.

* `fixInsertion` : the same rounds on a subtree and the path to it, two frames at a time;
* `At.fixAfterInsertion` : from memory that holds a tree, the source ends with memory that holds
  the fixed tree, whatever the colours are;
* `inorder_fixInsertion` : the entries stay as they are.
-/

namespace Sagittarius.TreeMap

open SgTreeMap Sagittarius.Tree Option

section tree

variable {α : Type*}

/-- Rotates an inner grandchild outwards: the result is on the side `d` of its parent. -/
def straighten (d : Side) (t : Tree α) (f : Frame α) : Tree α × Frame α :=
  match t with
  | .leaf => (t, f)
  | .node c e kids =>
    if f.side = d then (t, f)
    else (.node f.color f.entry (pick d f.sibling (kids d)), ⟨d, c, e, kids d.opp⟩)

/-- The loop of `fix_after_insertion` -/
def fixInsertion (t : Tree α) : List (Frame α) → Tree α
  | [] => t
  | [f] =>
    if f.color = .red then
      -- a red root: the source takes the branch for a parent on the right
      let (t, f) := straighten .right t f
      { f with color := .black }.fill t
    else f.fill t
  | f :: g :: ctx =>
    if f.color = .red then
      if g.sibling.color = .red then
        fixInsertion (Frame.fill ⟨g.side, .red, g.entry, g.sibling.paint .black⟩
          ({ f with color := .black }.fill t)) ctx
      else
        let (t, f) := straighten g.side t f
        plug t (⟨f.side, .black, f.entry, .node .red g.entry (pick g.side f.sibling g.sibling)⟩ ::
          ctx)
    else plug t (f :: g :: ctx)

theorem straighten_side (d : Side) (c : Color) (e : α) (kids : Side → Tree α) (f : Frame α) :
    (straighten d (.node c e kids) f).2.side = d := by
  by_cases h : f.side = d
  · simp [straighten, h]
  · simp [straighten, h]

theorem straighten_node (d : Side) (c : Color) (e : α) (kids : Side → Tree α) (f : Frame α) :
    ∃ c' e' kids', (straighten d (.node c e kids) f).1 = .node c' e' kids' := by
  by_cases h : f.side = d
  · exact ⟨c, e, kids, by simp [straighten, h]⟩
  · exact ⟨_, _, _, by rw [straighten, if_neg h]⟩

theorem inorder_straighten (d : Side) (t : Tree α) (f : Frame α) :
    ((straighten d t f).2.fill (straighten d t f).1).inorder = (f.fill t).inorder := by
  cases t with
  | leaf => rfl
  | node c e kids =>
    by_cases h : f.side = d
    · simp [straighten, h]
    · obtain ⟨side, cf, ef, sib⟩ := f
      obtain rfl := Side.eq_opp_of_ne h
      rw [straighten, if_neg h]
      simp only [Frame.fill]
      rw [pick_opp_left, inorder_pick, inorder_pick, inorder_pick, Tree.join_join,
        ← inorder_node]

/-- **The loop keeps the entries.** -/
theorem inorder_fixInsertion (c : Color) (e : α) (kids : Side → Tree α) (ctx : List (Frame α)) :
    (fixInsertion (.node c e kids) ctx).inorder = (plug (.node c e kids) ctx).inorder := by
  generalize ht : Tree.node c e kids = t
  fun_induction fixInsertion t ctx generalizing c e kids with
  | case1 t => rfl
  | case2 t f hf t' f' hs =>
    have hin := inorder_straighten .right t f
    rw [hs] at hin
    rw [Frame.inorder_fill_color, hin]
    rfl
  | case3 t f hf => rfl
  | case4 t f g ctx hf hg ih =>
    rw [ih _ _ _ rfl]
    refine inorder_plug_congr ?_ ctx
    simp only [Frame.fill, inorder_pick, inorder_paint]
  | case5 t f g ctx hf hg t' f' hs =>
    subst ht
    have hin := inorder_straighten g.side (.node c e kids) f
    have hside := straighten_side g.side c e kids f
    rw [hs] at hin hside
    refine inorder_plug_congr ?_ ctx
    have hg : (g.fill (f.fill (.node c e kids))).inorder = (g.fill (f'.fill t')).inorder :=
      g.inorder_fill_congr hin.symm
    rw [hg]
    simp only [Frame.fill, inorder_pick, show f'.side = g.side from hside, Tree.join_join]
  | case6 t f g ctx hf => rfl

end tree

/-! ### The loop of the source -/

variable {κ ν : Type} {tm : SgTreeMap κ ν} {L : List ℕ} {c : Color} {e : Entry κ ν}
  {kids : Side → Tree (Entry κ ν)} {f g : Frame (Entry κ ν)} {ctx : List (Frame (Entry κ ν))}

variable {t' : Tree (Entry κ ν)} {f' : Frame (Entry κ ν)}

theorem At.straighten (h : At tm L (.node c e kids) (f :: ctx))
    {d : Side} (hs : straighten d (.node c e kids) f = (t', f')) :
    ∃ tm', tm.turnOutwards d (some e.addr) = some (tm', ptr t') ∧
      At tm' L t' (f' :: ctx) ∧ Rewrites L tm tm' := by
  have hchild := h.childOf_up d.opp
  rw [turnOutwards, h.parentOf, up_cons]
  by_cases hd : f.side = d
  · have hne : some e.addr ≠ tm.childOf d.opp (some f.entry.addr) := by
      rw [hchild, hd, pick_opp]
      exact (h.ptr_ne_sibling rfl).symm
    rw [TreeMap.straighten, if_pos hd] at hs
    obtain ⟨rfl, rfl⟩ := Prod.mk.inj hs
    exact ⟨tm, if_neg hne, h, .refl _ _⟩
  · rw [TreeMap.straighten, if_neg hd] at hs
    obtain ⟨rfl, rfl⟩ := Prod.mk.inj hs
    obtain ⟨side, cf, ef, sib⟩ := f
    obtain rfl := Side.eq_opp_of_ne hd
    obtain ⟨tm', hrun, hat, hrw⟩ := h.rotate_up
    refine ⟨tm', ?_, hat, hrw⟩
    rw [hchild, pick_self, ptr_node, if_pos rfl, hrun]
    rfl

theorem At.insertionRound_red (h : At tm L (.node c e kids) (f :: g :: ctx))
    (hg : g.sibling.color = .red) :
    ∃ tm', tm.insertionRound g.side (some e.addr) = some (tm', some g.entry.addr) ∧
      At tm' L (Frame.fill ⟨g.side, .red, g.entry, g.sibling.paint .black⟩
        ({ f with color := .black }.fill (.node c e kids))) ctx ∧ Rewrites L tm tm' := by
  obtain ⟨h₁, hrw₁⟩ := h.setColor_up .black
  obtain ⟨h₂, hrw₂⟩ := h₁.up.setColor_sibling .black
  obtain ⟨h₃, hrw₃⟩ := h₂.setColor_up .red
  refine ⟨_, ?_, h₃.up, (hrw₁.trans hrw₂).trans hrw₃⟩
  have hy : tm.childOf g.side.opp (some g.entry.addr) = ptr g.sibling := by
    rw [h.up.childOf_up, pick_opp]
  have hp₂ := (At.up_iff.2 h₂).parentOf
  have hp₃ := (At.up_iff.2 h₃).parentOf
  have hg₃ := h₃.parentOf
  simp only [insertionRound, h.parentOf, h.parentOf_up, hy, h.up.colorOf_sibling, hg,
    if_true, up_cons, hp₂, h₂.parentOf, hp₃, hg₃]

theorem At.insertionRound_black (h : At tm L (.node c e kids) (f :: g :: ctx))
    (hg : g.sibling.color ≠ .red) (hs : TreeMap.straighten g.side (.node c e kids) f = (t', f')) :
    ∃ tm', tm.insertionRound g.side (some e.addr) = some (tm', ptr t') ∧
      At tm' L t' (⟨f'.side, .black, f'.entry,
        .node .red g.entry (pick g.side f'.sibling g.sibling)⟩ :: ctx) ∧ Rewrites L tm tm' := by
  have hside := straighten_side g.side c e kids f
  obtain ⟨c', e', kids', ht'⟩ := straighten_node g.side c e kids f
  obtain ⟨tm₁, hrun₁, h₁, hrw₁⟩ := h.straighten hs
  rw [hs] at hside ht'
  obtain rfl : t' = _ := ht'
  obtain ⟨d, cf, ef, sib⟩ := f'
  obtain rfl : d = g.side := hside
  obtain ⟨h₂, hrw₂⟩ := h₁.setColor_up .black
  obtain ⟨h₃, hrw₃⟩ := h₂.up.setColor_up .red
  obtain ⟨tm₄, hrun₄, h₄, hrw₄⟩ := (At.up_iff.2 h₃).rotate_grandparent
  refine ⟨tm₄, ?_, h₄, ((hrw₁.trans hrw₂).trans hrw₃).trans hrw₄⟩
  have hy : tm.childOf g.side.opp (some g.entry.addr) = ptr g.sibling := by
    rw [h.up.childOf_up, pick_opp]
  have hp₃ := (At.up_iff.2 h₃).parentOf
  have hg₃ := h₃.parentOf
  simp only [insertionRound, h.parentOf, h.parentOf_up, hy, h.up.colorOf_sibling, hg,
    if_false, up_cons, hrun₁, bind_eq_bind, bind_some, ptr_node, h₁.parentOf,
    h₂.parentOf, h₂.parentOf_up, hp₃, hg₃, hrun₄]

theorem At.insertionRound_root (h : At tm L (.node c e kids) [f])
    (hs : TreeMap.straighten .right (.node c e kids) f = (t', f')) :
    ∃ tm', tm.insertionRound .right (some e.addr) = some (tm', ptr t') ∧
      At tm' L t' [{ f' with color := .black }] ∧ Rewrites L tm tm' := by
  obtain ⟨c', e', kids', ht'⟩ := straighten_node .right c e kids f
  obtain ⟨tm₁, hrun₁, h₁, hrw₁⟩ := h.straighten hs
  rw [hs] at ht'
  obtain rfl : t' = _ := ht'
  obtain ⟨h₂, hrw₂⟩ := h₁.setColor_up .black
  refine ⟨_, ?_, h₂, hrw₁.trans hrw₂⟩
  have hblack : Color.black ≠ .red := by decide
  simp only [insertionRound, h.parentOf, h.parentOf_up, childOf_none, colorOf_none,
    hblack, if_false, up_cons, up_nil, hrun₁, bind_eq_bind, bind_some, ptr_node,
    h₁.parentOf, h₂.parentOf, h₂.parentOf_up, setColor_none, rotate_none]

theorem At.insertionBranch (h : At tm L (.node c e kids) (f :: g :: ctx)) :
    tm.insertionBranch (some e.addr) = tm.insertionRound g.side (some e.addr) := by
  rw [SgTreeMap.insertionBranch, h.parentOf, up_cons, h.parentOf_up, up_cons, h.up.childOf_up]
  cases hd : g.side with
  | left => rw [pick_self, Frame.fill, ptr_node, if_pos rfl]
  | right =>
    have hne : ptr g.sibling ≠ some f.entry.addr := h.up.ptr_ne_sibling rfl
    rw [show Side.left = Side.right.opp from rfl, pick_opp, if_neg hne.symm]

theorem At.insertionBranch_root (h : At tm L (.node c e kids) [f]) :
    tm.insertionBranch (some e.addr) = tm.insertionRound .right (some e.addr) := by
  rw [SgTreeMap.insertionBranch, h.parentOf, up_cons, h.parentOf_up, up_nil, childOf_none,
    if_neg (some_ne_none _)]

theorem At.insertionLoop_cons (h : At tm L (.node c e kids) (f :: ctx)) (n : ℕ) :
    tm.insertionLoop (n + 1) (some e.addr) =
      if f.color = .red then
        (tm.insertionBranch (some e.addr)).bind fun r => r.1.insertionLoop n r.2
      else some tm := by
  rw [insertionLoop, if_neg (h.root_ne rfl)]
  simp only [h.mem_root, h.mem_up, nodeOf_parent, nodeOf_color, up_cons, bind_eq_bind,
    bind_some]
  rfl

theorem At.insertionLoop_black {t : Tree (Entry κ ν)} (h : At tm L t (f :: ctx)) {n : ℕ}
    (ht : ∃ c e kids, t = .node c e kids) (hf : f.color = .black) (hn : 0 < n) :
    tm.insertionLoop n (ptr t) = some tm := by
  obtain ⟨c, e, kids, rfl⟩ := ht
  obtain ⟨k, rfl⟩ := Nat.exists_eq_succ_of_ne_zero hn.ne'
  rw [ptr_node, h.insertionLoop_cons, hf]
  rfl

/-- **The loop of the source ends, with the fixed tree.** -/
theorem At.insertionLoop (h : At tm L (.node c e kids) ctx) {n : ℕ} (hn : ctx.length < n) :
    ∃ tm', tm.insertionLoop n (some e.addr) = some tm' ∧
      At tm' L (fixInsertion (.node c e kids) ctx) [] ∧ Rewrites L tm tm' := by
  generalize ht : Tree.node c e kids = t at h ⊢
  obtain _ | n := n
  · omega
  fun_induction fixInsertion t ctx generalizing tm c e kids n with
  | case1 t =>
    subst ht
    exact ⟨tm, if_pos h.path, h, .refl _ _⟩
  | case2 t f hf t' f' hs =>
    subst ht
    have hnode := straighten_node .right c e kids f
    rw [hs] at hnode
    obtain ⟨tm', hrun, hat, hrw⟩ := h.insertionRound_root hs
    refine ⟨tm', ?_, hat.up, hrw⟩
    rw [h.insertionLoop_cons, if_pos hf, h.insertionBranch_root, hrun]
    exact hat.insertionLoop_black hnode rfl (by simpa using hn)
  | case3 t f hf =>
    subst ht
    refine ⟨tm, ?_, h.up, .refl _ _⟩
    rw [h.insertionLoop_cons, if_neg hf]
  | case4 t f g ctx hf hg ih =>
    subst ht
    simp only [List.length_cons] at hn
    obtain _ | k := n
    · omega
    obtain ⟨tm₁, hrun₁, hat₁, hrw₁⟩ := h.insertionRound_red hg
    obtain ⟨tm', hrun, hat, hrw⟩ := ih rfl hat₁ k (by omega)
    refine ⟨tm', ?_, hat, hrw₁.trans hrw⟩
    rw [h.insertionLoop_cons, if_pos hf, h.insertionBranch, hrun₁]
    exact hrun
  | case5 t f g ctx hf hg t' f' hs =>
    subst ht
    have hnode := straighten_node g.side c e kids f
    rw [hs] at hnode
    simp only [List.length_cons] at hn
    obtain ⟨tm', hrun, hat, hrw⟩ := h.insertionRound_black hg hs
    refine ⟨tm', ?_, At.plug_iff.1 hat, hrw⟩
    rw [h.insertionLoop_cons, if_pos hf, h.insertionBranch, hrun]
    exact hat.insertionLoop_black hnode rfl (by omega)
  | case6 t f g ctx hf =>
    subst ht
    refine ⟨tm, ?_, At.plug_iff.1 h, .refl _ _⟩
    rw [h.insertionLoop_cons, if_neg hf]

/-- **`fix_after_insertion` ends, with the fixed tree and a black root.** -/
theorem At.fixAfterInsertion (h : At tm L (.node c e kids) ctx) {n : ℕ} (hn : ctx.length < n) :
    ∃ tm', tm.fixAfterInsertion n e.addr = some tm' ∧
      At tm' L ((fixInsertion (.node .red e kids) ctx).paint .black) [] ∧ Rewrites L tm tm' := by
  obtain ⟨h₁, hrw₁⟩ := h.setColor .red
  obtain ⟨tm₂, hrun₂, h₂, hrw₂⟩ := h₁.insertionLoop hn
  obtain ⟨h₃, hrw₃⟩ := h₂.setColor .black
  refine ⟨_, ?_, h₃, (hrw₁.trans hrw₂).trans hrw₃⟩
  obtain ⟨r, hr⟩ : ∃ r, ptr (fixInsertion (.node .red e kids) ctx) = some r := by
    have hin := inorder_fixInsertion .red e kids ctx
    cases hT : fixInsertion (.node .red e kids) ctx with
    | leaf => simp [hT, inorder_plug, inorder] at hin
    | node c' r kids' => exact ⟨r.addr, rfl⟩
  have hroot : tm₂.root = some r := h₂.path.trans hr
  have hrun : SgTreeMap.insertionLoop n (tm.setColor (some e.addr) .red) (some e.addr) = some tm₂ :=
    hrun₂
  simp only [SgTreeMap.fixAfterInsertion, hrun, hroot, hr, bind_eq_bind, bind_some]

end Sagittarius.TreeMap
