import Sagittarius.Library.BinaryTree
import Mathlib.Algebra.Group.Nat.Defs

/-!
# Red-black trees

* `Balanced n t` : no red node of `t` has a red child, and every path to a leaf has `n` black nodes;
* `RedBlack` : the same for some `n`, and a black root;
* `Fits ctx c n` : a path that a subtree of the colour `c` with `n` black nodes can stand at;
* `redBlack_plug_iff` : a tree is a red-black tree if a subtree is balanced and fits its path;
* `RedBlack.two_pow_height_le` : the height is at most twice the logarithm of the size.
-/

namespace Sagittarius

variable {α β : Type*}

/-- How much a node adds to the number of black nodes. -/
def Color.weight : Color → ℕ
  | red => 0
  | black => 1

namespace Tree

/-- The number of nodes on the longest path. -/
def height : Tree α → ℕ
  | leaf => 0
  | node _ _ kids => max (height (kids .left)) (height (kids .right)) + 1

/-- No red node has a red child, and there are `n` black nodes on every path to a leaf. -/
def Balanced : ℕ → Tree α → Prop
  | n, leaf => n = 0
  | n, node c _ kids => (c = .red → ∀ d, (kids d).color = .black) ∧
      ∃ m, n = c.weight + m ∧ ∀ d, Balanced m (kids d)

/-- A red-black tree. -/
def RedBlack (t : Tree α) : Prop := t.color = .black ∧ ∃ n, Balanced n t

variable {t : Tree α} {m n : ℕ} {c : Color} {e : α} {d : Side} {a b : Tree α}

theorem balanced_pick : Balanced n (node c e (pick d a b)) ↔
    (c = .red → a.color = .black ∧ b.color = .black) ∧
      ∃ m, n = c.weight + m ∧ Balanced m a ∧ Balanced m b := by
  have hcolor := forall_pick (p := fun t : Tree α => t.color = .black) (d := d) (a := a) (b := b)
  have hkids := fun m => forall_pick (p := Balanced m) (d := d) (a := a) (b := b)
  rw [Balanced, hcolor]
  simp only [hkids]

theorem Balanced.unique (h : Balanced n t) (h' : Balanced m t) : n = m := by
  induction t generalizing n m with
  | leaf => exact h.trans h'.symm
  | node c e kids ih =>
    obtain ⟨-, k, rfl, hk⟩ := h
    obtain ⟨-, k', rfl, hk'⟩ := h'
    rw [ih .left (hk .left) (hk' .left)]

theorem Balanced.paint_black (h : Balanced n t) (ht : t.color = .red) :
    Balanced (n + 1) (t.paint .black) := by
  obtain ⟨e, kids, rfl⟩ := eq_node_of_color ht
  obtain ⟨-, k, rfl, hk⟩ := h
  exact ⟨nofun, k, by simp [Color.weight]; omega, hk⟩

@[simp] theorem color_map (g : α → β) (t : Tree α) : (t.map g).color = t.color := by
  cases t <;> rfl

theorem balanced_map (g : α → β) : Balanced n (t.map g) ↔ Balanced n t := by
  induction t generalizing n with
  | leaf => rfl
  | node c e kids ih => simp [map, Balanced, ih]

theorem redBlack_map (g : α → β) : RedBlack (t.map g) ↔ RedBlack t := by
  simp [RedBlack, balanced_map]

/-! ### The height -/

theorem Balanced.two_pow_le (h : Balanced n t) : 2 ^ n ≤ t.inorder.length + 1 := by
  induction t generalizing n with
  | leaf =>
    obtain rfl := h
    exact le_rfl
  | node c e kids ih =>
    obtain ⟨-, k, rfl, hk⟩ := h
    have hl := ih .left (hk .left)
    have hr := ih .right (hk .right)
    have hweight : c.weight ≤ 1 := by cases c <;> decide
    have hle : 2 ^ (c.weight + k) ≤ 2 * 2 ^ k := by
      rw [← Nat.pow_succ', Nat.succ_eq_one_add]
      exact Nat.pow_le_pow_right Nat.two_pos (Nat.add_le_add_right hweight k)
    simp only [inorder, List.length_append, List.length_cons]
    omega

theorem Balanced.height_le (h : Balanced n t) :
    t.height ≤ 2 * n + (if t.color = .red then 1 else 0) := by
  induction t generalizing n with
  | leaf => exact Nat.zero_le _
  | node c e kids ih =>
    obtain ⟨hred, k, rfl, hk⟩ := h
    have hl := ih .left (hk .left)
    have hr := ih .right (hk .right)
    rw [height]
    cases c with
    | red =>
      rw [hred rfl] at hl hr
      simp [Color.weight, color] at hl hr ⊢
      omega
    | black =>
      have hif : ∀ c : Color, (if c = .red then 1 else 0) ≤ 1 := by
        intro c
        split <;> omega
      have := hif (kids .left).color
      have := hif (kids .right).color
      simp only [Color.weight, color]
      omega

/-- **The height is at most `2 * log2 (size + 1)`.** -/
theorem RedBlack.two_pow_height_le (h : RedBlack t) :
    2 ^ t.height ≤ (t.inorder.length + 1) ^ 2 := by
  obtain ⟨hcolor, n, hn⟩ := h
  have hheight := hn.height_le
  rw [hcolor, if_neg (by decide), Nat.add_zero] at hheight
  calc 2 ^ t.height ≤ 2 ^ (2 * n) := Nat.pow_le_pow_right (by decide) hheight
    _ = (2 ^ n) ^ 2 := by rw [Nat.mul_comm, Nat.pow_mul]
    _ ≤ (t.inorder.length + 1) ^ 2 := Nat.pow_le_pow_left hn.two_pow_le 2

end Tree

/-! ### Paths -/

section

variable {t : Tree α} {ctx : List (Frame α)} {f : Frame α} {n : ℕ} {c : Color}

/-- A subtree of the colour `c` with `n` black nodes on every path can stand here. -/
def Fits : List (Frame α) → Color → ℕ → Prop
  | [], c, _ => c = .black
  | f :: ctx, c, n => (f.color = .red → c = .black ∧ f.sibling.color = .black) ∧
      f.sibling.Balanced n ∧ Fits ctx f.color (f.color.weight + n)

theorem Fits.black (h : Fits ctx c n) : Fits ctx .black n := by
  cases ctx with
  | nil => rfl
  | cons f ctx => exact ⟨fun hf => ⟨rfl, (h.1 hf).2⟩, h.2⟩

/-- **A tree is a red-black tree if a subtree is balanced and fits its path.** -/
theorem redBlack_plug_iff :
    (plug t ctx).RedBlack ↔ ∃ n, t.Balanced n ∧ Fits ctx t.color n := by
  induction ctx generalizing t with
  | nil =>
    constructor
    · rintro ⟨hcolor, n, hn⟩
      exact ⟨n, hn, hcolor⟩
    · rintro ⟨n, hn, hcolor⟩
      exact ⟨hcolor, n, hn⟩
  | cons f ctx ih =>
    rw [plug, ih]
    simp only [Frame.fill, Tree.balanced_pick]
    constructor
    · rintro ⟨_, ⟨hred, m, rfl, ht, hs⟩, hfit⟩
      exact ⟨m, ht, hred, hs, hfit⟩
    · rintro ⟨m, ht, hred, hs, hfit⟩
      exact ⟨_, ⟨hred, m, rfl, ht, hs⟩, hfit⟩

end

end Sagittarius
