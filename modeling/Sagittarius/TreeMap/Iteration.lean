import Sagittarius.TreeMap.Cursor

/-!
# Iterators

`rb_iter` in ascending and in descending order: from the end of a tree, or behind an entry of it.

* `SgTreeMap.iterNext`, `SgTreeMap.iterReverseNext` : `rb_iter_next` and `rb_iter_reverse_next`;
* `Holds.iterStep` : an iterator that has returned some of the entries returns the next one;
* `Holds.visit` : the entries that an iterator returns before it ends;
* `rb_navigation` : searches for neighbours and iterators, in every tree that the operations build.
-/

namespace Sagittarius.TreeMap

open List Sagittarius.Tree Option

variable {κ ν : Type}

/-- `SgTreeIter`, for a tree that is not changed meanwhile -/
structure SgTreeIter where
  /-- current entry of this iterator -/
  e : Option ℕ
  /-- if this iterator is at end or not -/
  atEnd : Bool

/-- `rb_iter` without a starting point -/
def SgTreeIter.init : SgTreeIter := ⟨none, false⟩

namespace SgTreeMap

/-- The outermost entry of the tree on a side. -/
def firstEntry (d : Side) (n : ℕ) (tm : SgTreeMap κ ν) : Option (Option ℕ) :=
  match tm.root with
  | none => some none
  | some p => (tm.outermost d n p).map some

/-- The least entry. -/
def getFirstLeftEntry : ℕ → SgTreeMap κ ν → Option (Option ℕ) := firstEntry .left

/-- The greatest entry. -/
def getFirstRightEntry : ℕ → SgTreeMap κ ν → Option (Option ℕ) := firstEntry .right

/-- One step of an iterator: it goes on behind its entry, or with the first one. -/
def iterStep (next : ℕ → Option (Option ℕ)) (first : Option (Option ℕ)) (iter : SgTreeIter) :
    Option (SgTreeIter × Option ℕ) :=
  if iter.atEnd then some (iter, none)
  else
    (match iter.e with
      | some e => next e
      | none => first).map fun e => (⟨e, e.isNone⟩, e)

/-- `rb_iter_next`: goes up. -/
def iterNext (n : ℕ) (tm : SgTreeMap κ ν) : SgTreeIter → Option (SgTreeIter × Option ℕ) :=
  iterStep (tm.successor n) (tm.getFirstLeftEntry n)

/-- `rb_iter_reverse_next`: goes down. -/
def iterReverseNext (n : ℕ) (tm : SgTreeMap κ ν) : SgTreeIter → Option (SgTreeIter × Option ℕ) :=
  iterStep (tm.predecessor n) (tm.getFirstRightEntry n)

/-- `rb_iter`; `none` also if `Sg_Error` is called. -/
def rbIter [LinearOrder κ] (n : ℕ) (tm : SgTreeMap κ ν) (start : Option ℕ) : Option SgTreeIter :=
  match start with
  | none => some .init
  | some a => do
    let m ← tm.mem a
    if (← tm.getEntry n m.key) = some a then some ⟨some a, false⟩ else none

end SgTreeMap

/-- The entries that the calls of `next` return before they return `NULL`. -/
def visit (next : SgTreeIter → Option (SgTreeIter × Option ℕ)) :
    ℕ → SgTreeIter → Option (List ℕ)
  | 0, _ => none
  | n + 1, iter => do
    match ← next iter with
    | (_, none) => some []
    | (iter, some e) => (visit next n iter).map (e :: ·)

variable {tm : SgTreeMap κ ν} {L : List ℕ} {e : Entry κ ν} {t : Tree (Entry κ ν)}
  {ctx : List (Frame (Entry κ ν))} {es es' : List (Entry κ ν)} {iter : SgTreeIter} {n : ℕ}

theorem At.outermost (h : At tm L t ctx) (d : Side) {a : ℕ} (ht : ptr t = some a)
    (hn : t.inorder.length ≤ n) :
    (tm.outermost d n a).map some = some ((t.walk d).head?.map Entry.addr) := by
  induction t generalizing ctx a n with
  | leaf => cases ht
  | node c e kids ih =>
    simp only [inorder, length_append, length_cons] at hn
    obtain _ | k := n
    · omega
    obtain rfl := some.inj ht
    rw [SgTreeMap.outermost, h.mem_root, walk_node]
    simp only [bind_eq_bind, bind_some, nodeOf_child]
    cases hk : kids d with
    | leaf =>
      rw [walk_leaf]
      rfl
    | node ck ek kkids =>
      have hlen : (kids d).inorder.length ≤ k := by cases d <;> omega
      have hrun := ih d (h.kid d) (by rw [hk]; rfl) hlen
      rw [hk] at hrun
      rw [ptr_node, head?_append_of_ne_nil _ (by rw [walk_node]; simp)]
      exact hrun

theorem At.firstEntry (h : At tm L t []) (d : Side) (hn : t.inorder.length ≤ n) :
    tm.firstEntry d n = some ((t.walk d).head?.map Entry.addr) := by
  rw [SgTreeMap.firstEntry, show tm.root = ptr t from h.path]
  cases t with
  | leaf =>
    rw [walk_leaf]
    rfl
  | node c e kids => exact h.outermost d rfl hn

variable [LinearOrder κ]

theorem Sorted.descend_walk (h : Sorted t.inorder) {d : Side} (hin : t.walk d = es ++ e :: es') :
    ∃ c kids ctx, TreeMap.descend e.key t [] = (.node c e kids, ctx) ∧
      es' = (kids d.opp).walk d ++ ahead d ctx := by
  cases d with
  | left =>
    obtain ⟨c, kids, ctx, hd, -, hes'⟩ := h.descend_eq hin
    exact ⟨c, kids, ctx, hd, hes'⟩
  | right =>
    have hin' : t.inorder = es'.reverse ++ e :: es.reverse := by
      rw [← t.inorder.reverse_reverse, show t.inorder.reverse = _ from hin]
      simp
    obtain ⟨c, kids, ctx, hd, hes', -⟩ := h.descend_eq hin'
    refine ⟨c, kids, ctx, hd, ?_⟩
    rw [← es'.reverse_reverse, hes', reverse_append]
    rfl

/-- The iterator has returned the entries `es`. -/
def SgTreeIter.After (es : List (Entry κ ν)) (iter : SgTreeIter) : Prop :=
  iter = ⟨es.getLast?.map Entry.addr, false⟩

section

variable (h : Holds tm t) {d : Side} (hn : t.inorder.length < n)

include h hn

theorem Holds.adjacent (hin : t.walk d = es ++ e :: es') :
    tm.adjacent d n e.addr = some (es'.head?.map Entry.addr) := by
  obtain ⟨c, kids, ctx, hd, rfl⟩ := h.sorted.descend_walk hin
  have hat : At tm (addrs t) (.node c e kids) ctx := by
    have := h.held.descend e.key
    rwa [hd] at this
  have hlen := hat.length_le
  rw [addrs, length_map] at hlen
  simp only [inorder, length_append, length_cons] at hlen
  rw [SgTreeMap.adjacent, hat.mem_root]
  simp only [bind_eq_bind, bind_some, nodeOf_child, nodeOf_parent]
  cases hk : kids d.opp with
  | leaf =>
    rw [walk_leaf]
    exact hat.climb d rfl (by omega)
  | node ck ek kkids =>
    have hlen : (kids d.opp).inorder.length ≤ n := by cases d <;> simp only [Side.opp] <;> omega
    have hrun := (hat.kid d.opp).outermost d (by rw [hk]; rfl) hlen
    rw [hk] at hrun
    rw [ptr_node, head?_append_of_ne_nil _ (by rw [walk_node]; simp)]
    exact hrun

/-- **An iterator returns the next entry, or ends.** -/
theorem Holds.iterStep (hin : t.walk d = es ++ es') (hiter : iter.After es) :
    ∃ iter', SgTreeMap.iterStep (tm.adjacent d n) (tm.firstEntry d n) iter =
        some (iter', es'.head?.map Entry.addr) ∧
      ∀ x es'', es' = x :: es'' → iter'.After (es ++ [x]) := by
  have hnext : SgTreeMap.iterStep (tm.adjacent d n) (tm.firstEntry d n) iter =
      some (⟨es'.head?.map Entry.addr, (es'.head?.map Entry.addr).isNone⟩,
        es'.head?.map Entry.addr) := by
    subst hiter
    rw [SgTreeMap.iterStep, if_neg (by simp)]
    rcases es.eq_nil_or_concat with rfl | ⟨l, x, rfl⟩
    · rw [nil_append] at hin
      simp only [getLast?_nil, map_none, h.held.firstEntry d hn.le, hin,
        map_some]
    · rw [concat_eq_append, append_assoc, singleton_append] at hin
      simp only [concat_eq_append, getLast?_append, getLast?_singleton,
        some_or, map_some, h.adjacent hn hin]
  refine ⟨_, hnext, ?_⟩
  rintro x es'' rfl
  simp [SgTreeIter.After]

theorem Holds.iterNext (hin : t.inorder = es ++ es') (hiter : iter.After es) :
    ∃ iter', tm.iterNext n iter = some (iter', es'.head?.map Entry.addr) ∧
      ∀ x es'', es' = x :: es'' → iter'.After (es ++ [x]) :=
  h.iterStep hn (d := .left) hin hiter

/-- **An iterator returns the entries that it has not returned yet**, in the order of the walk. -/
theorem Holds.visit {k : ℕ} (hin : t.walk d = es ++ es') (hiter : iter.After es)
    (hk : es'.length < k) :
    visit (SgTreeMap.iterStep (tm.adjacent d n) (tm.firstEntry d n)) k iter =
      some (es'.map Entry.addr) := by
  induction es' generalizing es iter k with
  | nil =>
    obtain _ | k := k
    · cases hk
    obtain ⟨iter', hnext, -⟩ := h.iterStep hn hin hiter
    rw [TreeMap.visit, hnext]
    rfl
  | cons x es' ih =>
    obtain _ | k := k
    · cases hk
    obtain ⟨iter', hnext, hafter⟩ := h.iterStep hn hin hiter
    have hrest := ih (by rw [hin, append_cons]) (hafter x es' rfl)
      (Nat.lt_of_succ_lt_succ hk)
    rw [TreeMap.visit, hnext]
    simp only [head?_cons, map_some, bind_eq_bind, bind_some, hrest,
      map_cons]

theorem Holds.rbIter (he : e ∈ t.inorder) :
    tm.rbIter n (some e.addr) = some ⟨some e.addr, false⟩ := by
  obtain ⟨m, hm, hkey, -⟩ := h.mem he
  rw [SgTreeMap.rbIter]
  simp only [hm, hkey, bind_eq_bind, bind_some, h.getEntry_of_mem he hn, if_true]

end

/-- **Neighbours and iterators**: in every tree that the operations build, the searches find the
entries with the next greater and the next smaller key. An iterator without a starting point returns
all entries once, in ascending or descending order; one that starts at an entry returns those behind
it, but not the entry itself. -/
theorem rb_navigation [Inhabited ν] (ops : List (Op κ ν)) (spare : ℕ) :
    let n := 2 * ops.length + 1 + spare
    ∃ (tm : SgTreeMap κ ν) (t : Tree (Entry κ ν)),
      ops.foldlM (Op.run n) SgTreeMap.empty = some tm ∧
      tm.root = ptr t ∧ Stored tm.mem none t ∧ (addrs t).Nodup ∧ Sorted t.inorder ∧
      Agrees t (ops.foldl Op.update ∅) ∧
      (∀ key, tm.getHigherEntry n key = some ((t.inorder.find? (key < ·.key)).map Entry.addr) ∧
        tm.getLowerEntry n key =
          some ((t.inorder.reverse.find? (·.key < key)).map Entry.addr)) ∧
      (∃ iter, tm.rbIter n none = some iter ∧
        visit (tm.iterNext n) n iter = some (t.inorder.map Entry.addr) ∧
        visit (tm.iterReverseNext n) n iter = some (t.inorder.reverse.map Entry.addr)) ∧
      ∀ l e r, t.inorder = l ++ e :: r → ∃ iter, tm.rbIter n (some e.addr) = some iter ∧
        visit (tm.iterNext n) n iter = some (r.map Entry.addr) ∧
        visit (tm.iterReverseNext n) n iter = some (l.reverse.map Entry.addr) := by
  intro n
  obtain ⟨tm, t, hrun, ht, hm, hle⟩ := exists_holds ops (n := n) (by omega)
  have hn : 2 * (addrs t).length < n := by
    rw [addrs, length_map]
    omega
  refine ⟨tm, t, hrun, ht.held.path, ht.held.tree, ht.held.nodup, ht.sorted, hm, fun key =>
    ⟨ht.held.getHigherEntry ht.sorted key hn, ht.held.getLowerEntry ht.sorted key hn⟩,
    ⟨.init, rfl, ?_, ?_⟩, fun l e r hin => ⟨_, ht.rbIter (by omega) (by rw [hin]; simp), ?_, ?_⟩⟩
  · exact ht.visit (by omega) (show t.walk .left = [] ++ t.inorder from rfl) rfl (by omega)
  · exact ht.visit (by omega) (show t.walk .right = [] ++ t.inorder.reverse from rfl) rfl
      (by rw [length_reverse]; omega)
  · have hlen := congrArg length hin
    rw [length_append, length_cons] at hlen
    have hwalk : t.walk .left = (l ++ [e]) ++ r := hin.trans (append_cons ..)
    exact ht.visit (by omega) hwalk (by simp [SgTreeIter.After]) (by omega)
  · have hlen := congrArg length hin
    rw [length_append, length_cons] at hlen
    have hwalk : t.walk .right = (r.reverse ++ [e]) ++ l.reverse := by
      rw [Tree.walk, hin]
      simp
    exact ht.visit (by omega) hwalk (by simp [SgTreeIter.After]) (by rw [length_reverse]; omega)

/-- An iterator that starts at the entry `0` of `{0, 1}` does not return it. -/
theorem rb_iter_skips_start :
    ([.set 0 none, .set 1 none].foldlM (Op.run 5) (SgTreeMap.empty : SgTreeMap ℕ ℕ)).bind (fun tm =>
      do
        let start ← tm.getEntry 5 0
        let iter ← tm.rbIter 5 start
        return (start, ← visit (tm.iterNext 5) 5 iter)) = some (some 0, [1]) := by
  decide

end Sagittarius.TreeMap
