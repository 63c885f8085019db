import Mathlib.Data.List.Basic
import Mathlib.Order.Lattice

/-!
# Coloured binary trees and paths in them

Binary trees with a colour at every node.  The children are a function on the two sides, so that a
statement about one side is also one about the other: `pick d a b` has `a` on the side `d`.

* `Tree.inorder` lists the entries from left to right;
* `Frame` is a node without one of its subtrees, a list of frames is the path from a subtree up to
  the root, and `plug` puts the subtree back;
* `inorder_plug` : what stands before and behind the subtree depends on the path only.
-/

namespace Sagittarius

/-- A side of a node. -/
inductive Side
  | left
  | right
deriving DecidableEq

namespace Side

/-- The other side. -/
def opp : Side → Side
  | left => right
  | right => left

variable (d : Side)

@[simp] theorem opp_opp : d.opp.opp = d := by cases d <;> rfl

@[simp] theorem opp_ne : d.opp ≠ d := by cases d <;> decide

@[simp] theorem ne_opp : d ≠ d.opp := by cases d <;> decide

theorem eq_or_eq_opp (d' : Side) : d' = d ∨ d' = d.opp := by
  cases d <;> cases d' <;> simp [opp]

theorem eq_opp_of_ne {d d' : Side} (h : d' ≠ d) : d' = d.opp := (eq_or_eq_opp d d').resolve_left h

end Side

section pick

variable {α β : Type*}

/-- `a` on the side `d`, and `b` on the other one. -/
def pick (d : Side) (a b : α) (d' : Side) : α := if d' = d then a else b

variable (d : Side)

@[simp] theorem pick_self (a b : α) : pick d a b d = a := if_pos rfl

@[simp] theorem pick_opp (a b : α) : pick d a b d.opp = b := if_neg d.opp_ne

theorem pick_opp_left (a b : α) : pick d.opp a b = pick d b a := by
  funext d'
  rcases d.eq_or_eq_opp d' with rfl | rfl
  · simp [pick]
  · simp [pick]

theorem pick_eta (f : Side → α) : pick d (f d) (f d.opp) = f := by
  funext d'
  rcases d.eq_or_eq_opp d' with rfl | rfl
  · exact pick_self _ _ _
  · exact pick_opp _ _ _

theorem comp_pick (g : α → β) (d : Side) (a b : α) :
    (fun d' => g (pick d a b d')) = pick d (g a) (g b) := by
  funext d'
  exact apply_ite g _ _ _

theorem forall_pick {p : α → Prop} {d : Side} {a b : α} :
    (∀ d', p (pick d a b d')) ↔ p a ∧ p b := by
  constructor
  · intro h
    exact ⟨by simpa using h d, by simpa using h d.opp⟩
  · rintro ⟨ha, hb⟩ d'
    rcases d.eq_or_eq_opp d' with rfl | rfl
    · simpa using ha
    · simpa using hb

end pick

/-- A colour. -/
inductive Color
  | red
  | black
deriving DecidableEq

theorem Color.eq_black_of_ne {c : Color} (h : c ≠ .red) : c = .black := by
  cases c
  · exact (h rfl).elim
  · rfl

theorem Color.eq_red_of_ne {c : Color} (h : c ≠ .black) : c = .red := by
  cases c
  · rfl
  · exact (h rfl).elim

/-- A binary tree with coloured nodes. -/
inductive Tree (α : Type*)
  | leaf
  | node (color : Color) (entry : α) (kids : Side → Tree α)

namespace Tree

variable {α : Type*}

/-- The entries from left to right. -/
def inorder : Tree α → List α
  | leaf => []
  | node _ e kids => inorder (kids .left) ++ e :: inorder (kids .right)

/-- The tree with other entries. -/
def map {β : Type*} (g : α → β) : Tree α → Tree β
  | leaf => leaf
  | node c e kids => node c (g e) fun d => map g (kids d)

theorem inorder_map {β : Type*} (g : α → β) (t : Tree α) :
    (t.map g).inorder = t.inorder.map g := by
  induction t with
  | leaf => rfl
  | node c e kids ih => simp [map, inorder, ih]

theorem map_eq_self {g : α → α} {t : Tree α} (h : ∀ x ∈ t.inorder, g x = x) : t.map g = t := by
  induction t with
  | leaf => rfl
  | node c e kids ih =>
    simp only [inorder, List.mem_append, List.mem_cons] at h
    rw [map, h e (.inr (.inl rfl))]
    congr
    funext d
    cases d
    · exact ih .left fun x hx => h x (.inl hx)
    · exact ih .right fun x hx => h x (.inr (.inr hx))

/-- The colour of the root; a leaf is black. -/
def color : Tree α → Color
  | leaf => .black
  | node c _ _ => c

/-- The tree with another colour at the root. -/
def paint (c : Color) : Tree α → Tree α
  | leaf => leaf
  | node _ e kids => node c e kids

@[simp] theorem inorder_paint (c : Color) (t : Tree α) : (t.paint c).inorder = t.inorder := by
  cases t <;> rfl

theorem eq_node_of_color {t : Tree α} (h : t.color = .red) : ∃ e kids, t = node .red e kids := by
  cases t with
  | leaf => cases h
  | node c e kids =>
    obtain rfl : c = .red := h
    exact ⟨e, kids, rfl⟩

/-- `x`, `e` and `y` from the side `d` to the other one. -/
def join (d : Side) (x : List α) (e : α) (y : List α) : List α :=
  match d with
  | .left => x ++ e :: y
  | .right => y ++ e :: x

theorem inorder_pick (d : Side) (c : Color) (a b : Tree α) (e : α) :
    (node c e (pick d a b)).inorder = join d a.inorder e b.inorder := by
  cases d <;> rfl

theorem inorder_node (d : Side) (c : Color) (e : α) (kids : Side → Tree α) :
    (node c e kids).inorder = join d (kids d).inorder e (kids d.opp).inorder := by
  cases d <;> rfl

/-- **A rotation keeps the order.** -/
theorem join_join (d : Side) (x y z : List α) (p r : α) :
    join d (join d x p y) r z = join d x p (join d y r z) := by
  cases d <;> simp [join]

end Tree

/-- A node without its subtree on one side. -/
structure Frame (α : Type*) where
  /-- the side of the missing subtree -/
  side : Side
  color : Color
  entry : α
  /-- the subtree on the other side -/
  sibling : Tree α

namespace Frame

variable {α : Type*}

/-- Put the missing subtree back. -/
def fill (f : Frame α) (t : Tree α) : Tree α := .node f.color f.entry (pick f.side t f.sibling)

/-- What stands before the missing subtree. -/
def before (f : Frame α) : List α :=
  match f.side with
  | .left => []
  | .right => f.sibling.inorder ++ [f.entry]

/-- What stands behind the missing subtree. -/
def after (f : Frame α) : List α :=
  match f.side with
  | .left => f.entry :: f.sibling.inorder
  | .right => []

variable (f : Frame α)

theorem inorder_fill (t : Tree α) : (f.fill t).inorder = f.before ++ t.inorder ++ f.after := by
  obtain ⟨side, c, e, sib⟩ := f
  cases side
  · simp [fill, Tree.inorder, pick, before, after]
  · simp [fill, Tree.inorder, pick, before, after]

theorem inorder_fill_congr {t t' : Tree α} (h : t.inorder = t'.inorder) :
    (f.fill t).inorder = (f.fill t').inorder := by
  rw [inorder_fill, inorder_fill, h]

theorem inorder_fill_color (c : Color) (t : Tree α) :
    ({ f with color := c }.fill t).inorder = (f.fill t).inorder := rfl

end Frame

section plug

variable {α : Type*}

/-- Put a subtree back at the end of a path, which is given from the subtree up. -/
def plug (t : Tree α) : List (Frame α) → Tree α
  | [] => t
  | f :: ctx => plug (f.fill t) ctx

/-- What stands before a subtree. -/
def before : List (Frame α) → List α
  | [] => []
  | f :: ctx => before ctx ++ f.before

/-- What stands behind a subtree. -/
def after : List (Frame α) → List α
  | [] => []
  | f :: ctx => f.after ++ after ctx

variable (t : Tree α) (ctx ctx' : List (Frame α))

theorem plug_append : plug t (ctx ++ ctx') = plug (plug t ctx) ctx' := by
  induction ctx generalizing t with
  | nil => rfl
  | cons f ctx ih => exact ih _

theorem before_append : before (ctx ++ ctx') = before ctx' ++ before ctx := by
  induction ctx with
  | nil => simp [before]
  | cons f ctx ih => simp [before, ih]

theorem after_append : after (ctx ++ ctx') = after ctx ++ after ctx' := by
  induction ctx with
  | nil => rfl
  | cons f ctx ih => simp [after, ih]

/-- **What stands around a subtree is given by its path.** -/
theorem inorder_plug : (plug t ctx).inorder = before ctx ++ t.inorder ++ after ctx := by
  induction ctx generalizing t with
  | nil => simp [plug, before, after]
  | cons f ctx ih => simp [plug, ih, before, after, f.inorder_fill]

theorem inorder_plug_congr {t t' : Tree α} (h : t.inorder = t'.inorder) (ctx : List (Frame α)) :
    (plug t ctx).inorder = (plug t' ctx).inorder := by
  rw [inorder_plug, inorder_plug, h]

theorem length_le_inorder_plug : ctx.length + t.inorder.length ≤ (plug t ctx).inorder.length := by
  induction ctx generalizing t with
  | nil => simp [plug]
  | cons f ctx ih =>
    have := ih (f.fill t)
    have hfill : t.inorder.length + 1 ≤ (f.fill t).inorder.length := by
      obtain ⟨side, c, e, sib⟩ := f
      rw [Frame.fill, Tree.inorder_pick]
      cases side <;> simp [Tree.join]
    rw [List.length_cons, plug]
    omega

end plug

section walk

variable {α : Type*}

/-- The entries from the side `d` to the other one. -/
def Tree.walk (d : Side) (t : Tree α) : List α :=
  match d with
  | .left => t.inorder
  | .right => t.inorder.reverse

/-- What comes behind a subtree on such a walk. -/
def ahead (d : Side) (ctx : List (Frame α)) : List α :=
  match d with
  | .left => after ctx
  | .right => (before ctx).reverse

variable (d : Side) (c : Color)

theorem Tree.walk_node (e : α) (kids : Side → Tree α) :
    (node c e kids).walk d = (kids d).walk d ++ e :: (kids d.opp).walk d := by
  cases d
  · rfl
  · simp [walk, inorder, Side.opp]

theorem Tree.walk_leaf : (leaf : Tree α).walk d = [] := by cases d <;> rfl

@[simp] theorem Tree.mem_walk {d : Side} {t : Tree α} {x : α} : x ∈ t.walk d ↔ x ∈ t.inorder := by
  cases d
  · rfl
  · exact List.mem_reverse

theorem ahead_cons (e : α) (sib : Tree α) (ctx : List (Frame α)) :
    ahead d (⟨d, c, e, sib⟩ :: ctx) = e :: (sib.walk d ++ ahead d ctx) := by
  cases d
  · rfl
  · simp [ahead, before, Frame.before, Tree.walk]

theorem ahead_cons_opp (e : α) (sib : Tree α) (ctx : List (Frame α)) :
    ahead d (⟨d.opp, c, e, sib⟩ :: ctx) = ahead d ctx := by
  cases d
  · rfl
  · simp [ahead, before, Frame.before, Side.opp]

end walk

end Sagittarius
