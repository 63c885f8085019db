import Sagittarius.TreeMap.FiniteMap

/-!
# Places between entries

What the operations do at a place in the list of the entries, when `l` stands before the place and
`r` behind it.

* `Holds.getHigherEntry`, `Holds.getLowerEntry` : the neighbours of the place;
* `Holds.insertAt` : a new entry is inserted there;
* `Holds.deleteAt` : the entry behind the place is deleted.  What the memory holds at its address
  afterwards depends on the number of its children;
* `Holds.writeAt` : a value is written into the entry behind the place.
-/

namespace Sagittarius.TreeMap

open List

variable {κ ν : Type} {tm : SgTreeMap κ ν} {t : Tree (Entry κ ν)} {e : Entry κ ν}
  {l r : List (Entry κ ν)} {key : κ} {n : ℕ}

theorem Keeps.mem {mem : ℕ → Option (Node κ ν)} (h : Keeps mem e) :
    ∃ m, mem e.addr = some m ∧ m.key = e.key ∧ m.value = e.value := by
  obtain ⟨c, par, child, hmem⟩ := h
  exact ⟨_, hmem, rfl, rfl⟩

theorem map_writeValue_of_not_mem {a : ℕ} (v : ν) (h : a ∉ l.map Entry.addr) :
    l.map (writeValue a v) = l := by
  rw [map_congr_left, map_id]
  intro x hx
  exact if_neg fun hxa => h (mem_map.2 ⟨x, hx, hxa⟩)

variable [LinearOrder κ]

/-! ### Searches -/

theorem Sorted.exists_split {es : List (Entry κ ν)} (h : Sorted es) (key : κ) :
    ∃ l r, es = l ++ r ∧ (∀ x ∈ l, x.key < key) ∧ ∀ x ∈ r, key ≤ x.key := by
  induction es with
  | nil => exact ⟨[], [], rfl, nofun, nofun⟩
  | cons x es ih =>
    obtain ⟨hx, hes⟩ := pairwise_cons.1 h
    by_cases hlt : x.key < key
    · obtain ⟨l, r, rfl, hl, hr⟩ := ih hes
      exact ⟨x :: l, r, rfl, forall_mem_cons.2 ⟨hlt, hl⟩, hr⟩
    · rw [not_lt] at hlt
      exact ⟨[], x :: es, rfl, nofun,
        forall_mem_cons.2 ⟨hlt, fun y hy => hlt.trans (hx y hy).le⟩⟩

section

variable (h : Holds tm t)

include h

theorem Holds.getHigherEntry (hin : t.inorder = l ++ r) (hl : ∀ x ∈ l, x.key ≤ key)
    (hr : ∀ x ∈ r, key < x.key) (hn : 2 * t.inorder.length < n) :
    tm.getHigherEntry n key = some (r.head?.map Entry.addr) := by
  rw [h.held.getHigherEntry h.sorted key (by rwa [addrs, length_map]), hin,
    find_append_of_not fun x hx => decide_eq_false (hl x hx).not_gt,
    find_eq_head fun x hx => decide_eq_true (hr x hx)]

theorem Holds.getLowerEntry (hin : t.inorder = l ++ r) (hl : ∀ x ∈ l, x.key < key)
    (hr : ∀ x ∈ r, key ≤ x.key) (hn : 2 * t.inorder.length < n) :
    tm.getLowerEntry n key = some (l.getLast?.map Entry.addr) := by
  rw [h.held.getLowerEntry h.sorted key (by rwa [addrs, length_map]), hin,
    reverse_append,
    find_append_of_not fun x hx => decide_eq_false (hr x (mem_reverse.1 hx)).not_gt,
    find_eq_head fun x hx => decide_eq_true (hl x (mem_reverse.1 hx)), head?_reverse]

theorem Holds.getEntry_of_mem (he : e ∈ t.inorder) (hn : t.inorder.length < n) :
    tm.getEntry n e.key = some (some e.addr) := by
  rw [h.held.getEntry h.sorted e.key (by rwa [addrs, length_map]), h.sorted.find_of_mem he]
  rfl

theorem Holds.getEntry_of_not (hkey : ∀ x ∈ t.inorder, x.key ≠ key) (hn : t.inorder.length < n) :
    tm.getEntry n key = some none := by
  rw [h.held.getEntry h.sorted key (by rwa [addrs, length_map]),
    find?_eq_none.2 (by simpa using hkey)]
  rfl

theorem Holds.mem (he : e ∈ t.inorder) :
    ∃ m, tm.mem e.addr = some m ∧ m.key = e.key ∧ m.value = e.value :=
  (h.held.tree.keeps he).mem

end

/-! ### Changes -/

theorem Sorted.split_eq {l' r' : List (Entry κ ν)} (hl : ∀ x ∈ l, x.key < key)
    (hr : ∀ x ∈ r, key < x.key) (hl' : ∀ x ∈ l', x.key < key) (hr' : ∀ x ∈ r', key < x.key)
    (h : l ++ r = l' ++ r') : l = l' ∧ r = r' := by
  induction l generalizing l' with
  | nil =>
    cases l' with
    | nil => exact ⟨rfl, h⟩
    | cons x l' =>
      obtain rfl : r = x :: (l' ++ r') := h
      exact ((hl' x (mem_cons_self ..)).asymm (hr x (mem_cons_self ..))).elim
  | cons x l ih =>
    cases l' with
    | nil =>
      obtain rfl : x :: (l ++ r) = r' := h
      exact ((hl x (mem_cons_self ..)).asymm (hr' x (mem_cons_self ..))).elim
    | cons y l' =>
      obtain ⟨rfl, htail⟩ := List.cons.inj h
      obtain ⟨rfl, rfl⟩ := ih (fun z hz => hl z (mem_cons_of_mem _ hz))
        (fun z hz => hl' z (mem_cons_of_mem _ hz)) htail
      exact ⟨rfl, rfl⟩

theorem Sorted.inorder_insertTree [Inhabited ν] (h : Sorted t.inorder) (hin : t.inorder = l ++ r)
    (hl : ∀ x ∈ l, x.key < key) (hr : ∀ x ∈ r, key < x.key) (a : ℕ) :
    (TreeMap.insertTree key a t).inorder = l ++ ⟨a, key, default⟩ :: r := by
  rcases hd : descend key t [] with ⟨_ | ⟨c, e, kids⟩, ctx⟩
  · obtain ⟨hsplit, hbetween⟩ := h.split_of_leaf hd
    obtain ⟨rfl, rfl⟩ := Sorted.split_eq hl hr hbetween.before hbetween.after
      (hin.symm.trans hsplit)
    exact TreeMap.inorder_insertTree a hd
  · obtain ⟨es, es', hes, hkey, -⟩ := contents_deleteTree hd
    have he : e ∈ l ++ r := by
      rw [← hin, hes]
      simp
    rcases mem_append.1 he with he | he
    · exact ((hl e he).ne hkey).elim
    · exact ((hr e he).ne' hkey).elim

/-- What is left of the entry `e` before `r` when it is deleted: its node has the contents of `s`.
If it had two children, this is the next entry, and stays in the tree, at that node. -/
inductive Leaves (t : Tree (Entry κ ν)) (e : Entry κ ν) :
    List (Entry κ ν) → Entry κ ν → List (Entry κ ν) → List (Entry κ ν) → Prop
  | one {r : List (Entry κ ν)} (hnot : ¬ HasTwoChildren e.key t) : Leaves t e r e [] r
  | both {s : Entry κ ν} {r : List (Entry κ ν)} (hboth : HasTwoChildren e.key t) :
    Leaves t e (s :: r) s [⟨e.addr, s.key, s.value⟩] r

section

variable (h : Holds tm t)

include h

theorem Holds.insertAt [Inhabited ν] (hin : t.inorder = l ++ r) (hl : ∀ x ∈ l, x.key < key)
    (hr : ∀ x ∈ r, key < x.key) (hn : t.inorder.length < n) :
    ∃ tm', tm.rbSet n key = some (tm', tm.fresh) ∧
      Holds tm' (TreeMap.insertTree key tm.fresh t) ∧ tm'.fresh = tm.fresh + 1 := by
  obtain ⟨tm', a, hrun, h', ⟨x, hx, hxkey, rfl⟩, hfresh⟩ := h.rbSet key hn
  have hins := h.sorted.inorder_insertTree hin hl hr tm.fresh
  have hnew : (⟨tm.fresh, key, default⟩ : Entry κ ν) ∈
      (TreeMap.insertTree key tm.fresh t).inorder := by
    rw [hins]
    simp
  obtain rfl := h'.sorted.eq_of_key hx hnew hxkey
  refine ⟨tm', hrun, h', hfresh.resolve_right fun hsame => ?_⟩
  rw [hsame, hin] at hins
  have := congrArg length hins
  rw [length_append, length_append, length_cons] at this
  omega

/-- **The entry behind the place is deleted.** -/
theorem Holds.deleteAt (hin : t.inorder = l ++ e :: r) (hn : t.inorder.length < n) :
    ∃ tm' s q r', Leaves t e r s q r' ∧ tm.rbDelete n e.key = some (tm', some e.addr) ∧
      Holds tm' (deleteTree e.key t) ∧ tm'.fresh = tm.fresh ∧
      (deleteTree e.key t).inorder = l ++ (q ++ r') ∧
      ∃ m, tm'.mem e.addr = some m ∧ m.key = s.key ∧ m.value = s.value := by
  have he : e ∈ t.inorder := by
    rw [hin]
    simp
  obtain ⟨tm', hrun, h', hfresh, hkeep⟩ := h.rbDelete e.key hn
  rw [h.sorted.find_of_mem he] at hrun
  by_cases hboth : HasTwoChildren e.key t
  · obtain ⟨s, r', rfl, hdel⟩ := h.sorted.inorder_deleteTree_of_both hin hboth
    refine ⟨tm', s, _, r', .both hboth, hrun, h', hfresh, hdel, ?_⟩
    exact h'.mem (e := ⟨e.addr, s.key, s.value⟩) (by rw [hdel]; simp)
  · exact ⟨tm', e, [], r, .one hboth, hrun, h', hfresh,
      h.sorted.inorder_deleteTree_of_not hin hboth, (hkeep hboth e he rfl).mem⟩

/-- **A value is written into the entry behind the place.** -/
theorem Holds.writeAt (hin : t.inorder = l ++ e :: r) (v : ν) :
    Holds (tm.modify e.addr fun n => { n with value := v }) (t.map (TreeMap.writeValue e.addr v)) ∧
      (t.map (TreeMap.writeValue e.addr v)).inorder = l ++ { e with value := v } :: r := by
  have hnodup := h.held.nodup
  rw [addrs, hin, map_append, map_cons, nodup_append, nodup_cons] at hnodup
  obtain ⟨-, ⟨hr, -⟩, hdisj⟩ := hnodup
  have hl : e.addr ∉ l.map Entry.addr := fun hmem =>
    hdisj _ hmem _ (mem_cons_self ..) rfl
  refine ⟨h.writeValue e.addr v, ?_⟩
  rw [Tree.inorder_map, hin, map_append, map_cons, map_writeValue_of_not_mem v hl,
    map_writeValue_of_not_mem v hr, TreeMap.writeValue, if_pos rfl]

theorem Holds.unique {t' : Tree (Entry κ ν)} (h' : Holds tm t') : t = t' :=
  h.held.tree.unique h'.held.tree (h.held.path.symm.trans h'.held.path)

end

end Sagittarius.TreeMap
