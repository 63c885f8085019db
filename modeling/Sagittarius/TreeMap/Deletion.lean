import Sagittarius.TreeMap.Stored

/-!
# Deletion

`fix_after_deletion` on paths, and that the loop of the source computes it.  The loop looks at the
colour of the node that it starts at, and never below it: it is a function on the path.

* `fixDeletion` : the rounds of the source, as the source has them;
* `At.fixAfterDeletion` : the loop ends and computes this, whatever the colours are;
* `inorder_fixDeletion` : the entries stay as they are.
-/

namespace Sagittarius.TreeMap

open SgTreeMap Sagittarius.Tree Option

section tree

variable {α : Type*}

/-- Both children of the sibling are black. -/
def blackNephews (f : Frame α) : Prop :=
  match f.sibling with
  | .leaf => True
  | .node _ _ kids => (kids .left).color = .black ∧ (kids .right).color = .black

instance (f : Frame α) : Decidable (blackNephews f) := by
  unfold blackNephews
  split <;> infer_instance

/-- The sibling of a right child becomes red; the one of a left child keeps its colour. -/
def recolour (f : Frame α) : Frame α :=
  match f.side with
  | .left => f
  | .right => { f with sibling := f.sibling.paint .red }

/-- The red child of the sibling is brought to the side opposite to `d`. -/
def outerNephew (d : Side) : Tree α → Tree α
  | .leaf => .leaf
  | .node c s kids =>
    match (kids d.opp).color, kids d with
    | .black, .node _ m mkids =>
      .node .black m (pick d (mkids d) (.node .red s (pick d (mkids d.opp) (kids d.opp))))
    | _, _ => .node c s kids

/-- The last part of a round. -/
def rotateNephew (f : Frame α) : List (Frame α) :=
  match outerNephew f.side f.sibling with
  | .leaf => [f]
  | .node _ s kids =>
    [⟨f.side, .black, f.entry, kids f.side⟩,
      ⟨f.side, f.color, s, (kids f.side.opp).paint .black⟩]

/-- `fix_after_deletion`, from a node of the colour `c` on -/
def fixDeletion : Color → List (Frame α) → List (Frame α)
  | _, [] => []
  | .red, ctx => ctx
  | .black, f :: ctx =>
    match f.sibling with
    | .node .red s kids =>
      let f' : Frame α := ⟨f.side, .red, f.entry, kids f.side⟩
      let g : Frame α := ⟨f.side, .black, s, kids f.side.opp⟩
      if blackNephews f' then recolour f' :: g :: ctx else rotateNephew f' ++ g :: ctx
    | _ =>
      if blackNephews f then recolour f :: fixDeletion f.color ctx else rotateNephew f ++ ctx

/-! ### The entries stay as they are -/

theorem inorder_outerNephew (d : Side) (t : Tree α) : (outerNephew d t).inorder = t.inorder := by
  cases t with
  | leaf => rfl
  | node c s kids =>
    rw [outerNephew]
    split
    · rename_i mc m mkids hc hm
      rw [inorder_node d c s kids, hm, inorder_node d mc m mkids, inorder_pick,
        inorder_pick, Tree.join_join]
    · rfl

theorem inorder_rotateNephew (f : Frame α) (t : Tree α) :
    (plug t (rotateNephew f)).inorder = (f.fill t).inorder := by
  have hin := inorder_outerNephew f.side f.sibling
  rw [rotateNephew]
  split
  · rfl
  · rename_i c s kids hs
    rw [hs, inorder_node f.side] at hin
    rw [Frame.fill, inorder_pick, ← hin]
    simp only [plug, Frame.fill, inorder_pick, Tree.join_join, inorder_paint]

@[simp] theorem recolour_color (f : Frame α) : (recolour f).color = f.color := by
  rw [recolour]
  split <;> rfl

@[simp] theorem recolour_entry (f : Frame α) : (recolour f).entry = f.entry := by
  rw [recolour]
  split <;> rfl

theorem inorder_recolour (f : Frame α) (t : Tree α) :
    ((recolour f).fill t).inorder = (f.fill t).inorder := by
  obtain ⟨side, c, e, sib⟩ := f
  cases side with
  | left => rfl
  | right => simp only [recolour, Frame.fill, inorder_pick, inorder_paint]

/-- **The loop keeps the entries.** -/
theorem inorder_fixDeletion (c : Color) (ctx : List (Frame α)) (t : Tree α) :
    (plug t (fixDeletion c ctx)).inorder = (plug t ctx).inorder := by
  induction ctx generalizing c t with
  | nil => cases c <;> rfl
  | cons f ctx ih =>
    cases c with
    | red => rfl
    | black =>
      rw [fixDeletion]
      split
      · rename_i s kids hs
        -- the rotation that brings the red sibling up
        have hrot : ∀ c₁ c₂ : Color, ((Frame.mk f.side c₁ s (kids f.side.opp)).fill
            ((Frame.mk f.side c₂ f.entry (kids f.side)).fill t)).inorder = (f.fill t).inorder := by
          intro c₁ c₂
          simp only [Frame.fill, inorder_pick, Tree.join_join, hs]
          rw [inorder_node f.side]
        dsimp only
        split
        · refine inorder_plug_congr ?_ ctx
          rw [← hrot .black .red]
          exact Frame.inorder_fill_congr _ (inorder_recolour _ t)
        · rw [plug_append]
          refine inorder_plug_congr ?_ ctx
          rw [← hrot .black .red]
          exact Frame.inorder_fill_congr _ (inorder_rotateNephew _ t)
      · split
        · rw [plug, ih]
          exact inorder_plug_congr (inorder_recolour f t) ctx
        · rw [plug_append]
          exact inorder_plug_congr (inorder_rotateNephew f t) ctx

theorem fixDeletion_cons (c : Color) (f : Frame α) (ctx : List (Frame α)) :
    ∃ g ctx', fixDeletion c (f :: ctx) = g :: ctx' := by
  cases c with
  | red => exact ⟨f, ctx, rfl⟩
  | black =>
    have hrot : ∀ (f : Frame α) ctx, ∃ g ctx', rotateNephew f ++ ctx = g :: ctx' := by
      intro f ctx
      rw [rotateNephew]
      split
      · exact ⟨_, _, rfl⟩
      · exact ⟨_, _, rfl⟩
    rw [fixDeletion]
    split
    · dsimp only
      split
      · exact ⟨_, _, rfl⟩
      · exact hrot _ _
    · split
      · exact ⟨_, _, rfl⟩
      · exact hrot _ _

end tree

/-! ### The loop of the source -/

variable {κ ν : Type} {tm : SgTreeMap κ ν} {L : List ℕ} {c : Color} {e : Entry κ ν}
  {kids : Side → Tree (Entry κ ν)} {f : Frame (Entry κ ν)} {ctx : List (Frame (Entry κ ν))}

section

variable (h : At tm L (.node c e kids) (f :: ctx))

include h

theorem At.childOf_sibling : tm.childOf f.side.opp (tm.parentOf (some e.addr)) = ptr f.sibling := by
  rw [h.parentOf, up_cons, h.childOf_up, pick_opp]

theorem At.redSibling_black (hs : f.sibling.color ≠ .red) :
    tm.redSibling f.side (some e.addr) = some (tm, ptr f.sibling) := by
  rw [redSibling]
  rw [h.childOf_sibling, h.colorOf_sibling, if_neg hs]

theorem At.redSibling_red {s : Entry κ ν} {skids : Side → Tree (Entry κ ν)}
    (hs : f.sibling = .node .red s skids) :
    ∃ tm', tm.redSibling f.side (some e.addr) = some (tm', ptr (skids f.side)) ∧
      At tm' L (.node c e kids) (⟨f.side, .red, f.entry, skids f.side⟩ ::
        ⟨f.side, .black, s, skids f.side.opp⟩ :: ctx) ∧ Rewrites L tm tm' := by
  obtain ⟨d, cf, ef, sib⟩ := f
  subst hs
  obtain ⟨h₁, hrw₁⟩ := h.setColor_sibling .black
  rw [ptr_node] at h₁ hrw₁
  obtain ⟨h₂, hrw₂⟩ := h₁.setColor_up .red
  obtain ⟨tm₃, hrun₃, h₃, hrw₃⟩ := h₂.rotate_sibling
  refine ⟨tm₃, ?_, h₃, (hrw₁.trans hrw₂).trans hrw₃⟩
  have hsib : tm.childOf d.opp (tm.parentOf (some e.addr)) = some s.addr := h.childOf_sibling
  have hsib₃ : tm₃.childOf d.opp (tm₃.parentOf (some e.addr)) = ptr (skids d) := h₃.childOf_sibling
  have hred : tm.colorOf (some s.addr) = .red := h.colorOf_sibling
  simp only [redSibling, hsib, hred, if_true, h₁.parentOf, up_cons, h₂.parentOf, hrun₃,
    bind_eq_bind, bind_some, hsib₃]

theorem At.blackNephews_iff (d : Side) :
    tm.colorOf (tm.childOf d (ptr f.sibling)) = .black ∧
      tm.colorOf (tm.childOf d.opp (ptr f.sibling)) = .black ↔ blackNephews f := by
  obtain ⟨side, cf, ef, sib⟩ := f
  cases sib with
  | leaf => simp [blackNephews]
  | node cs s skids =>
    have hs : At tm L (.node cs s skids) _ := h.flip
    simp only [blackNephews, ptr_node, hs.colorOf_kid]
    cases d
    · rfl
    · exact and_comm

theorem At.innerNephew (hf : ¬ blackNephews f) :
    ∃ tm', tm.innerNephew f.side (some e.addr) (ptr f.sibling) =
        some (tm', ptr (outerNephew f.side f.sibling)) ∧
      At tm' L (.node c e kids) ({ f with sibling := outerNephew f.side f.sibling } :: ctx) ∧
      Rewrites L tm tm' := by
  obtain ⟨d, cf, ef, sib⟩ := f
  cases sib with
  | leaf => exact (hf trivial).elim
  | node cs s skids =>
    have hs := h.flip
    by_cases hfar : (skids d.opp).color = .black
    · obtain ⟨m, mkids, hm⟩ : ∃ m mkids, skids d = .node .red m mkids := by
        refine eq_node_of_color (Color.eq_red_of_ne fun hnear => hf ?_)
        refine (h.blackNephews_iff d).1 ?_
        rw [ptr_node, hs.colorOf_kid, hs.colorOf_kid]
        exact ⟨hnear, hfar⟩
      have h₀ := hs.kid d
      rw [hm] at h₀
      obtain ⟨h₁, hrw₁⟩ := h₀.setColor .black
      obtain ⟨h₂, hrw₂⟩ := h₁.setColor_up .red
      obtain ⟨tm₃, hrun₃, h₃, hrw₃⟩ := At.rotate_opp_up h₂
      have h₃' := h₃.flip
      rw [Side.opp_opp] at h₃'
      refine ⟨tm₃, ?_, ?_, (hrw₁.trans hrw₂).trans hrw₃⟩
      · have hsib := h₃'.childOf_sibling
        rw [ptr_node, innerNephew, hs.colorOf_kid, if_pos hfar, hs.childOf]
        simp only [hm, hrun₃, bind_eq_bind, bind_some, outerNephew, hfar, hsib]
      · simp only [outerNephew, hfar, hm]
        exact h₃'
    · have hsame : outerNephew d (.node cs s skids) = .node cs s skids := by
        simp only [outerNephew, Color.eq_red_of_ne hfar]
      refine ⟨tm, ?_, ?_, .refl _ _⟩
      · rw [ptr_node, innerNephew, hs.colorOf_kid, if_neg hfar, hsame, ptr_node]
      · rw [hsame]
        exact h

theorem At.redNephew (hf : ¬ blackNephews f) :
    ∃ tm', tm.redNephew f.side (some e.addr) (ptr f.sibling) = some (tm', tm'.root) ∧
      At tm' L (.node c e kids) (rotateNephew f ++ ctx) ∧ Rewrites L tm tm' := by
  obtain ⟨tm₁, hrun₁, h₁, hrw₁⟩ := h.innerNephew hf
  obtain ⟨cs, s, skids, hs⟩ : ∃ cs s skids, outerNephew f.side f.sibling = .node cs s skids := by
    cases hs : outerNephew f.side f.sibling with
    | leaf =>
      have hleaf := inorder_outerNephew f.side f.sibling
      rw [hs] at hleaf
      cases hsib : f.sibling with
      | leaf => exact (hf (by rw [blackNephews, hsib]; trivial)).elim
      | node cs s skids => simp [hsib, inorder] at hleaf
    | node cs s skids => exact ⟨cs, s, skids, rfl⟩
  rw [rotateNephew]
  rw [hs] at hrun₁ h₁ ⊢
  obtain ⟨d, cf, ef, sib⟩ := f
  obtain ⟨h₂, hrw₂⟩ := h₁.setColor_sibling cf
  obtain ⟨h₃, hrw₃⟩ := h₂.setColor_up .black
  obtain ⟨h₄, hrw₄⟩ := h₃.setColor_nephew d.opp .black
  rw [pick_opp_left, Side.opp_opp] at h₄
  obtain ⟨tm₅, hrun₅, h₅, hrw₅⟩ := h₄.rotate_sibling
  rw [pick_self, pick_opp] at h₅
  refine ⟨tm₅, ?_, h₅, (((hrw₁.trans hrw₂).trans hrw₃).trans hrw₄).trans hrw₅⟩
  rw [ptr_node] at h₂ h₃ h₄ hrun₅
  have hcolor : tm₁.colorOf (some ef.addr) = cf := h₁.up.colorOf
  have hkid : ((tm₁.setColor (some s.addr) cf).setColor (some ef.addr) .black).childOf d.opp
      (some s.addr) = ptr (skids d.opp) := h₃.flip.childOf d.opp
  simp only [redNephew, hrun₁, bind_eq_bind, bind_some, h₁.parentOf,
    up_cons, hcolor, ptr_node, h₂.parentOf, hkid, h₄.parentOf, hrun₅]

theorem At.nephews_black (hf : blackNephews f) :
    ∃ tm', tm.nephews f.side (some e.addr) (ptr f.sibling) = some (tm', some f.entry.addr) ∧
      At tm' L (.node c e kids) (recolour f :: ctx) ∧ Rewrites L tm tm' := by
  have hblack := h.blackNephews_iff f.side
  obtain ⟨d, cf, ef, sib⟩ := f
  cases d with
  | left =>
    refine ⟨tm, ?_, h, .refl _ _⟩
    refine (if_pos (hblack.2 hf)).trans ?_
    rw [h.parentOf, up_cons]
  | right =>
    obtain ⟨h₁, hrw₁⟩ := h.setColor_sibling .red
    refine ⟨_, ?_, h₁, hrw₁⟩
    refine (if_pos (hblack.2 hf)).trans ?_
    simp only [h₁.parentOf, up_cons]

theorem At.nephews_red (hf : ¬ blackNephews f) :
    ∃ tm', tm.nephews f.side (some e.addr) (ptr f.sibling) = some (tm', tm'.root) ∧
      At tm' L (.node c e kids) (rotateNephew f ++ ctx) ∧ Rewrites L tm tm' := by
  obtain ⟨tm', hrun, hat⟩ := h.redNephew hf
  refine ⟨tm', ?_, hat⟩
  have hblack := h.blackNephews_iff f.side
  obtain ⟨d, cf, ef, sib⟩ := f
  cases d with
  | left | right => exact (if_neg fun hb => hf (hblack.1 hb)).trans hrun

theorem At.deletionBranch :
    tm.deletionBranch (some e.addr) = tm.deletionRound f.side (some e.addr) := by
  rw [SgTreeMap.deletionBranch, h.parentOf, up_cons, h.childOf_up]
  cases hd : f.side with
  | left => rw [pick_self, ptr_node, if_pos rfl]
  | right =>
    have hne : ptr f.sibling ≠ some e.addr := h.ptr_ne_sibling rfl
    rw [show Side.left = Side.right.opp from rfl, pick_opp, if_neg hne.symm]

end

theorem fixAfterDeletion_root (tm : SgTreeMap κ ν) {n : ℕ} (hn : 0 < n) :
    tm.fixAfterDeletion n tm.root = some tm := by
  obtain ⟨k, rfl⟩ := Nat.exists_eq_succ_of_ne_zero hn.ne'
  exact if_neg fun h => h.1 rfl

theorem At.fixAfterDeletion_red {t : Tree (Entry κ ν)} (h : At tm L t ctx) (ht : t.color = .red)
    {n : ℕ} (hn : 0 < n) : tm.fixAfterDeletion n (ptr t) = some tm := by
  obtain ⟨k, rfl⟩ := Nat.exists_eq_succ_of_ne_zero hn.ne'
  rw [fixAfterDeletion, h.colorOf, ht, if_neg fun h => absurd h.2 (by decide)]

theorem At.fixAfterDeletion_black (h : At tm L (.node .black e kids) (f :: ctx)) (n : ℕ) :
    tm.fixAfterDeletion (n + 1) (some e.addr) =
      (tm.deletionRound f.side (some e.addr)).bind fun r => r.1.fixAfterDeletion n r.2 := by
  have hblack : tm.colorOf (some e.addr) = .black := h.colorOf
  rw [fixAfterDeletion, if_pos ⟨(h.root_ne rfl).symm, hblack⟩, h.deletionBranch]
  rfl

/-- **`fix_after_deletion` ends, with the fixed path.** -/
theorem At.fixAfterDeletion (h : At tm L (.node c e kids) ctx) {n : ℕ} (hn : ctx.length < n) :
    ∃ tm', tm.fixAfterDeletion n (some e.addr) = some tm' ∧
      At tm' L (.node c e kids) (fixDeletion c ctx) ∧ Rewrites L tm tm' := by
  induction ctx generalizing tm c e kids n with
  | nil =>
    refine ⟨tm, ?_, ?_, .refl _ _⟩
    · have hroot := fixAfterDeletion_root tm (by omega)
      rwa [show tm.root = some e.addr from h.path] at hroot
    · cases c <;> exact h
  | cons f ctx ih =>
    rw [List.length_cons] at hn
    obtain ⟨k, rfl⟩ : ∃ k, n = k + 2 := ⟨n - 2, by omega⟩
    cases c with
    | red => exact ⟨tm, h.fixAfterDeletion_red rfl (by omega), h, .refl _ _⟩
    | black =>
      rw [fixDeletion, h.fixAfterDeletion_black, deletionRound]
      split
      · rename_i s skids hs
        obtain ⟨tm₁, hrun₁, h₁, hrw₁⟩ := h.redSibling_red hs
        simp only [hrun₁, bind_eq_bind, bind_some]
        split
        · rename_i hf
          obtain ⟨tm₂, hrun₂, h₂, hrw₂⟩ := h₁.nephews_black hf
          refine ⟨tm₂, ?_, h₂, hrw₁.trans hrw₂⟩
          rw [hrun₂]
          -- the parent is red now, so the next round is the last one
          have hstop := h₂.up.fixAfterDeletion_red (recolour_color _) (n := k + 1) (by omega)
          rwa [Frame.fill, ptr_node, recolour_entry] at hstop
        · rename_i hf
          obtain ⟨tm₂, hrun₂, h₂, hrw₂⟩ := h₁.nephews_red hf
          refine ⟨tm₂, ?_, h₂, hrw₁.trans hrw₂⟩
          rw [hrun₂]
          exact fixAfterDeletion_root tm₂ (by omega)
      · rename_i hs
        have hsib : f.sibling.color ≠ .red := by
          intro hred
          obtain ⟨s, skids, hred⟩ := eq_node_of_color hred
          exact hs s skids hred
        simp only [h.redSibling_black hsib, bind_eq_bind, bind_some]
        split
        · rename_i hf
          obtain ⟨tm₂, hrun₂, h₂, hrw₂⟩ := h.nephews_black hf
          obtain ⟨tm₃, hrun₃, h₃, hrw₃⟩ := ih h₂.up (n := k + 1) (by omega)
          have h₃' := At.up_iff.2 h₃
          rw [recolour_color] at h₃'
          rw [recolour_entry] at hrun₃
          refine ⟨tm₃, ?_, h₃', hrw₂.trans hrw₃⟩
          rw [hrun₂]
          exact hrun₃
        · rename_i hf
          obtain ⟨tm₂, hrun₂, h₂, hrw₂⟩ := h.nephews_red hf
          refine ⟨tm₂, ?_, h₂, hrw₂⟩
          rw [hrun₂]
          exact fixAfterDeletion_root tm₂ (by omega)

end Sagittarius.TreeMap
