import Mathlib.Order.CountableDenseLinearOrder
import Sagittarius.TreeMap.Stored

/-!
# Searches

The searches of the source in a tree whose keys ascend from left to right.

* `descend` : the subtree at which the search for a key ends;
* `At.getEntry` : `get_entry` finds the entry with the key;
* `At.getHigherEntry` : `get_higher_entry` finds the first entry with a greater key;
* `At.getLowerEntry` : `get_lower_entry` finds the last entry with a smaller key.
-/

namespace Sagittarius.TreeMap

open List Sagittarius.Tree Option

variable {κ ν : Type} {tm : SgTreeMap κ ν} {L : List ℕ} {c : Color} {e : Entry κ ν}
  {t : Tree (Entry κ ν)} {ctx : List (Frame (Entry κ ν))}

theorem plug_kid (c : Color) (e : Entry κ ν) (kids : Side → Tree (Entry κ ν)) (d : Side)
    (ctx : List (Frame (Entry κ ν))) :
    plug (kids d) (⟨d, c, e, kids d.opp⟩ :: ctx) = plug (.node c e kids) ctx := by
  exact congrArg (fun k => plug (.node c e k) ctx) (pick_eta d kids)

theorem At.climb (h : At tm L t ctx) (d : Side) {a n : ℕ} (ht : ptr t = some a)
    (hn : ctx.length < n) :
    tm.climb d.opp n a (TreeMap.up ctx) = some ((ahead d ctx).head?.map Entry.addr) := by
  induction ctx generalizing t a n with
  | nil =>
    obtain _ | k := n
    · cases hn
    cases d <;> rfl
  | cons f ctx ih =>
    obtain _ | k := n
    · cases hn
    rw [length_cons] at hn
    obtain ⟨side, cf, ef, sib⟩ := f
    have hsib : ptr sib ≠ some a := h.ptr_ne_sibling ht
    rw [up_cons, SgTreeMap.climb, h.mem_up]
    simp only [bind_eq_bind, bind_some, nodeOf_child, nodeOf_parent]
    rcases d.eq_or_eq_opp side with rfl | rfl
    · simp only [pick_opp, hsib.symm, if_false, ahead_cons]
      rfl
    · simp only [pick_self, ht, if_true, ahead_cons_opp]
      exact ih h.up rfl (by omega)

theorem find_append_of_not {p : Entry κ ν → Bool} {l l' : List (Entry κ ν)}
    (h : ∀ x ∈ l, p x = false) : (l ++ l').find? p = l'.find? p := by
  rw [find?_append, find?_eq_none.2 (by simpa using h), none_or]

theorem find_eq_head {p : Entry κ ν → Bool} {l : List (Entry κ ν)} (h : ∀ x ∈ l, p x = true) :
    l.find? p = l.head? := by
  cases l with
  | nil => rfl
  | cons x l => exact find?_cons_of_pos (h x (mem_cons_self ..))

section

variable [LinearOrder κ]

/-- The keys ascend. -/
def Sorted (es : List (Entry κ ν)) : Prop := es.Pairwise fun a b => a.key < b.key

/-- The subtree at which the search for a key ends, and the path to it. -/
def descend (key : κ) : Tree (Entry κ ν) → List (Frame (Entry κ ν)) →
    Tree (Entry κ ν) × List (Frame (Entry κ ν))
  | .leaf, ctx => (.leaf, ctx)
  | .node c e kids, ctx =>
    match cmp key e.key with
    | .lt => descend key (kids .left) (⟨.left, c, e, kids .right⟩ :: ctx)
    | .gt => descend key (kids .right) (⟨.right, c, e, kids .left⟩ :: ctx)
    | .eq => (.node c e kids, ctx)

theorem plug_descend (key : κ) (t : Tree (Entry κ ν)) (ctx : List (Frame (Entry κ ν))) :
    plug (descend key t ctx).1 (descend key t ctx).2 = plug t ctx := by
  induction t generalizing ctx with
  | leaf => rfl
  | node c e kids ih =>
    rw [descend]
    cases cmp key e.key with
    | lt => exact (ih .left _).trans (plug_kid c e kids .left ctx)
    | gt => exact (ih .right _).trans (plug_kid c e kids .right ctx)
    | eq => rfl

theorem At.descend (h : At tm L t ctx) (key : κ) :
    At tm L (descend key t ctx).1 (descend key t ctx).2 := by
  rw [At.plug_iff, plug_descend, ← At.plug_iff]
  exact h

variable {key : κ} {kids : Side → Tree (Entry κ ν)}

theorem key_of_descend {ctx' : List (Frame (Entry κ ν))}
    (h : descend key t ctx = (.node c e kids, ctx')) : e.key = key := by
  induction t generalizing ctx with
  | leaf => cases h
  | node c' e' kids' ih =>
    rw [descend] at h
    generalize hcmp : cmp key e'.key = o at h
    cases o with
    | lt | gt => exact ih _ h
    | eq =>
      obtain ⟨-, rfl, -⟩ := Tree.node.inj (Prod.mk.inj h).1
      exact ((cmp_eq_eq_iff _ _).1 hcmp).symm

theorem Sorted.node (h : Sorted (plug (.node c e kids) ctx).inorder) :
    (∀ x ∈ (kids .left).inorder, x.key < e.key) ∧ ∀ x ∈ (kids .right).inorder, e.key < x.key := by
  rw [Sorted, inorder_plug, inorder] at h
  simp only [pairwise_append, pairwise_cons, mem_cons] at h
  obtain ⟨⟨-, ⟨-, ⟨hright, -⟩, hleft⟩, -⟩, -⟩ := h
  exact ⟨fun x hx => hleft x hx e (.inl rfl), hright⟩

/-- The key stands between what is before and what is behind the end of a path. -/
structure Between (key : κ) (ctx : List (Frame (Entry κ ν))) : Prop where
  before : ∀ x ∈ before ctx, x.key < key
  after : ∀ x ∈ after ctx, key < x.key

theorem Between.left (h : Between key ctx) (hsort : Sorted (plug (.node c e kids) ctx).inorder)
    (hlt : key < e.key) : Between key (⟨.left, c, e, kids .right⟩ :: ctx) := by
  refine ⟨fun x hx => h.before x (by simpa [Sagittarius.before, Frame.before] using hx), ?_⟩
  simp only [Sagittarius.after, Frame.after, cons_append, mem_cons, mem_append]
  rintro x (rfl | hx | hx)
  · exact hlt
  · exact hlt.trans (hsort.node.2 x hx)
  · exact h.after x hx

theorem Between.right (h : Between key ctx) (hsort : Sorted (plug (.node c e kids) ctx).inorder)
    (hlt : e.key < key) : Between key (⟨.right, c, e, kids .left⟩ :: ctx) := by
  refine ⟨?_, fun x hx => h.after x (by simpa [Sagittarius.after, Frame.after] using hx)⟩
  simp only [Sagittarius.before, Frame.before, mem_append, mem_singleton]
  rintro x (hx | hx | rfl)
  · exact h.before x hx
  · exact (hsort.node.1 x hx).trans hlt
  · exact hlt

theorem Between.descend (h : Between key ctx) (hsort : Sorted (plug t ctx).inorder) :
    Between key (descend key t ctx).2 := by
  induction t generalizing ctx with
  | leaf => exact h
  | node c e kids ih =>
    rw [descend]
    cases hcmp : cmp key e.key with
    | lt =>
      refine ih .left (h.left hsort ((cmp_eq_lt_iff _ _).1 hcmp)) ?_
      rwa [show kids .right = kids Side.left.opp from rfl, plug_kid]
    | gt =>
      refine ih .right (h.right hsort ((cmp_eq_gt_iff _ _).1 hcmp)) ?_
      rwa [show kids .left = kids Side.right.opp from rfl, plug_kid]
    | eq => exact h

/-! ### `get_entry` -/

variable {n : ℕ}

theorem At.getEntryFrom (h : At tm L t ctx) (key : κ) (hn : t.inorder.length < n)
    (ctx' : List (Frame (Entry κ ν))) :
    tm.getEntryFrom key n (ptr t) = some (ptr (TreeMap.descend key t ctx').1) := by
  induction t generalizing ctx ctx' n with
  | leaf =>
    obtain _ | k := n
    · cases hn
    rfl
  | node c e kids ih =>
    obtain _ | k := n
    · cases hn
    simp only [inorder, length_append, length_cons] at hn
    rw [ptr_node, SgTreeMap.getEntryFrom, h.mem_root, TreeMap.descend]
    dsimp only [bind_eq_bind, bind_some, nodeOf_key, nodeOf_child]
    cases cmp key e.key with
    | lt => exact ih .left (h.kid .left) (by omega) _
    | gt => exact ih .right (h.kid .right) (by omega) _
    | eq => rfl

variable {es : List (Entry κ ν)}

theorem Sorted.find_of_mem (h : Sorted es) (he : e ∈ es) : es.find? (·.key = e.key) = some e := by
  induction es with
  | nil => cases he
  | cons x es ih =>
    obtain ⟨hx, hsort⟩ := pairwise_cons.1 h
    rcases mem_cons.1 he with rfl | he
    · simp
    · rw [find?_cons_of_neg (by simpa using (hx e he).ne)]
      exact ih hsort he

theorem Sorted.eq_of_key (h : Sorted es) {x y : Entry κ ν} (hx : x ∈ es) (hy : y ∈ es)
    (hkey : x.key = y.key) : x = y := by
  have hfind := h.find_of_mem hx
  rw [hkey, h.find_of_mem hy] at hfind
  exact (some.inj hfind).symm

theorem Sorted.find_eq (h : Sorted t.inorder) (key : κ) :
    (t.inorder.find? (·.key = key)).map Entry.addr = ptr (descend key t []).1 := by
  have hplug := plug_descend key t []
  have hbetween := (show Between key ([] : List (Frame (Entry κ ν))) from ⟨nofun, nofun⟩).descend h
  have hin := congrArg inorder hplug
  rw [inorder_plug] at hin
  rcases hd : descend key t [] with ⟨_ | ⟨c, e, kids⟩, ctx⟩
  · rw [hd] at hin hbetween
    rw [← show _ = t.inorder from hin, find?_eq_none.2]
    · rfl
    · simp only [inorder, append_nil, mem_append, decide_eq_true_eq]
      rintro x (hx | hx)
      · exact (hbetween.before x hx).ne
      · exact (hbetween.after x hx).ne'
  · have hkey := key_of_descend hd
    have he : e ∈ t.inorder := by
      rw [← show _ = t.inorder from hin, hd]
      simp [inorder]
    rw [← hkey, h.find_of_mem he]
    rfl

theorem Sorted.descend_eq (h : Sorted t.inorder) {es' : List (Entry κ ν)}
    (hin : t.inorder = es ++ e :: es') :
    ∃ c kids ctx, descend e.key t [] = (.node c e kids, ctx) ∧
      es = before ctx ++ (kids .left).inorder ∧ es' = (kids .right).inorder ++ after ctx := by
  have he : e ∈ t.inorder := by
    rw [hin]
    simp
  have hfind := h.find_eq e.key
  rw [h.find_of_mem he] at hfind
  have hplug := congrArg inorder (plug_descend e.key t [])
  rcases hd : descend e.key t [] with ⟨_ | ⟨c, e', kids⟩, ctx⟩
  · rw [hd] at hfind
    cases hfind
  · rw [hd, inorder_plug, plug] at hplug
    simp only [inorder, append_assoc, cons_append] at hplug
    have he' : e' ∈ t.inorder := by
      rw [← hplug]
      simp
    obtain rfl := h.eq_of_key he' he (key_of_descend hd)
    rw [hin, ← append_assoc] at hplug
    have hsort := h
    rw [Sorted, hin, pairwise_append, pairwise_cons] at hsort
    obtain ⟨-, ⟨hafter, -⟩, hbefore⟩ := hsort
    have hnot : e' ∉ es := fun hmem => (hbefore e' hmem e' (mem_cons_self ..)).false
    have hnot' : e' ∉ es' := fun hmem => (hafter e' hmem).false
    obtain ⟨rfl, -, rfl⟩ := (append_cons_inj_of_notMem hnot hnot').1 hplug.symm
    exact ⟨c, kids, ctx, rfl, rfl, rfl⟩

/-- **`get_entry` finds the entry with the key.** -/
theorem At.getEntry (h : At tm L t []) (hsort : Sorted t.inorder) (key : κ) (hn : L.length < n) :
    tm.getEntry n key = some ((t.inorder.find? (·.key = key)).map Entry.addr) := by
  have hlen := h.length_le
  rw [SgTreeMap.getEntry, show tm.root = ptr t from h.path,
    h.getEntryFrom key (lt_of_le_of_lt (by simpa using hlen) hn) [], hsort.find_eq]

/-! ### Neighbours -/

/-- `a` comes before `b` on the walk from the side `d`. -/
def sideLt (d : Side) (a b : κ) : Prop :=
  match d with
  | .left => a < b
  | .right => b < a

theorem sideLt_trans {d : Side} {a b x : κ} (h : sideLt d a b) (h' : sideLt d b x) :
    sideLt d a x := by
  cases d
  · exact lt_trans h h'
  · exact lt_trans h' h

theorem cmp_eq_iff_sideLt (d : Side) (a b : κ) :
    cmp a b = pick .left .lt .gt d ↔ sideLt d a b := by
  cases d
  · exact cmp_eq_lt_iff a b
  · exact cmp_eq_gt_iff a b

theorem Sorted.node_walk (d : Side) (h : Sorted (plug (.node c e kids) ctx).inorder) :
    (∀ x ∈ (kids d).walk d, sideLt d x.key e.key) ∧
      ∀ x ∈ (kids d.opp).walk d, sideLt d e.key x.key := by
  simp only [mem_walk]
  cases d
  · exact h.node
  · exact h.node.symm

theorem At.neighbourFrom (h : At tm L t ctx) (d : Side) (key : κ) (ht : t ≠ .leaf)
    (hn : 2 * t.inorder.length + ctx.length < n) (hsort : Sorted (plug t ctx).inorder)
    (hahead : ∀ x ∈ ahead d ctx, sideLt d key x.key) :
    tm.neighbourFrom d key n (ptr t) =
      some (((t.walk d ++ ahead d ctx).find? fun x =>
        cmp key x.key = pick .left .lt .gt d).map Entry.addr) := by
  induction t generalizing ctx n with
  | leaf => exact (ht rfl).elim
  | node c e kids ih =>
    obtain _ | k := n
    · cases hn
    simp only [inorder, length_append, length_cons] at hn
    obtain ⟨hfirst, hsecond⟩ := hsort.node_walk d
    have hlen : ∀ d', (kids d').inorder.length ≤
        (kids .left).inorder.length + (kids .right).inorder.length := by
      intro d'
      cases d' <;> omega
    rw [ptr_node, SgTreeMap.neighbourFrom, h.mem_root, walk_node]
    dsimp only [bind_eq_bind, bind_some, nodeOf_key, nodeOf_child, nodeOf_parent]
    by_cases hcmp : cmp key e.key = pick .left .lt .gt d
    · refine (if_pos hcmp).trans ?_
      have hlt := (cmp_eq_iff_sideLt d key e.key).1 hcmp
      cases hk : kids d with
      | leaf =>
        rw [walk_leaf, nil_append, cons_append,
          find?_cons_of_pos (by simpa using hcmp)]
        rfl
      | node ck ek kkids =>
        have := ih d (h.kid d) (n := k) (by simp [hk])
          (by rw [length_cons]; have := hlen d; omega) (by rwa [plug_kid]) (by
            rw [ahead_cons]
            intro x hx
            rcases mem_cons.1 hx with rfl | hx
            · exact hlt
            rcases mem_append.1 hx with hx | hx
            · exact sideLt_trans hlt (hsecond x hx)
            · exact hahead x hx)
        rw [ahead_cons, hk] at this
        rwa [append_assoc, cons_append]
    · refine (if_neg hcmp).trans ?_
      have hskip : ∀ x ∈ (kids d).walk d ++ [e], decide (cmp key x.key = pick .left .lt .gt d) =
          false := by
        intro x hx
        rw [decide_eq_false_iff_not]
        rcases mem_append.1 hx with hx | hx
        · intro hlt
          exact hcmp ((cmp_eq_iff_sideLt d key e.key).2
            (sideLt_trans ((cmp_eq_iff_sideLt d key x.key).1 hlt) (hfirst x hx)))
        · rwa [mem_singleton.1 hx]
      rw [append_assoc, cons_append, append_cons, find_append_of_not hskip]
      cases hk : kids d.opp with
      | leaf =>
        rw [walk_leaf, nil_append, find_eq_head fun x hx =>
          decide_eq_true ((cmp_eq_iff_sideLt d key x.key).2 (hahead x hx))]
        exact h.climb d rfl (by omega)
      | node ck ek kkids =>
        have := ih d.opp (h.kid d.opp) (n := k) (by simp [hk])
          (by rw [length_cons]; have := hlen d.opp; omega) (by rwa [plug_kid])
          (by rwa [ahead_cons_opp])
        rwa [ahead_cons_opp, hk] at this

theorem At.neighbour (h : At tm L t []) (d : Side) (hsort : Sorted t.inorder) (key : κ)
    (hn : 2 * L.length < n) :
    tm.neighbourFrom d key n tm.root = some (((t.walk d).find? fun x =>
      cmp key x.key = pick .left .lt .gt d).map Entry.addr) := by
  rw [show tm.root = ptr t from h.path]
  cases t with
  | leaf =>
    obtain _ | k := n
    · cases hn
    rw [walk_leaf]
    rfl
  | node c e kids =>
    have hlen := h.length_le
    have hempty : ahead d ([] : List (Frame (Entry κ ν))) = [] := by cases d <;> rfl
    rw [h.neighbourFrom d key nofun (by rw [length_nil] at hlen ⊢; omega) hsort
      (by rw [hempty]; nofun), hempty, append_nil]

/-- **`get_higher_entry` finds the first entry with a greater key.** -/
theorem At.getHigherEntry (h : At tm L t []) (hsort : Sorted t.inorder) (key : κ)
    (hn : 2 * L.length < n) :
    tm.getHigherEntry n key = some ((t.inorder.find? (key < ·.key)).map Entry.addr) := by
  rw [SgTreeMap.getHigherEntry, h.neighbour .left hsort key hn]
  simp [Tree.walk, pick, cmp_eq_lt_iff]

theorem At.getLowerEntry (h : At tm L t []) (hsort : Sorted t.inorder) (key : κ)
    (hn : 2 * L.length < n) :
    tm.getLowerEntry n key = some ((t.inorder.reverse.find? (·.key < key)).map Entry.addr) := by
  rw [SgTreeMap.getLowerEntry, h.neighbour .right hsort key hn]
  simp [Tree.walk, pick, cmp_eq_gt_iff]

end

end Sagittarius.TreeMap
