import Sagittarius.TreeMap.Deletion

/-!
# Nodes that leave the tree

`delete_entry`: an entry with two children gets the contents of the entry behind it, and the node of
that one is taken out; a node with at most one child is replaced by it.

* `removal` : which node leaves the tree, and where;
* `At.deleteEntry` : the source takes this node out, and fixes the path to it;
* `contents_removal` : exactly the entry that was to be deleted has disappeared.
-/

namespace Sagittarius.TreeMap

open List SgTreeMap Sagittarius.Tree Option

variable {κ ν : Type} {tm : SgTreeMap κ ν} {L : List ℕ} {c : Color} {e : Entry κ ν}
  {kids : Side → Tree (Entry κ ν)} {f : Frame (Entry κ ν)} {ctx : List (Frame (Entry κ ν))}

/-! ### Leaving the tree -/

/-- The node has the contents of the entry, wherever it points to. -/
def Keeps (mem : ℕ → Option (Node κ ν)) (e : Entry κ ν) : Prop :=
  ∃ c par child, mem e.addr = some (nodeOf c e par child)

theorem Stored.keeps {mem : ℕ → Option (Node κ ν)} {par : Option ℕ} {t : Tree (Entry κ ν)}
    (h : Stored mem par t) (he : e ∈ t.inorder) : Keeps mem e := by
  induction t generalizing par with
  | leaf => cases he
  | node c' e' kids ih =>
    simp only [inorder, mem_append, mem_cons] at he
    rcases he with he | rfl | he
    · exact ih .left (h.2 .left) he
    · exact ⟨_, _, _, h.1⟩
    · exact ih .right (h.2 .right) he

variable {d : Side} {n : ℕ} {α : Type*}

theorem perm_erase_addr {rep : Tree (Entry κ ν)} (h : At tm L (.node c e (pick d rep .leaf)) ctx) :
    (addrs rep ++ pathAddrs ctx).Perm (L.erase e.addr) := by
  have hperm := ((perm_addrs_pick c e d rep .leaf).append_right (pathAddrs ctx)).symm.trans h.perm
  have := hperm.erase e.addr
  simpa [addrs, inorder] using this

theorem At.lift {r : Entry κ ν} {cr : Color} {rkids : Side → Tree (Entry κ ν)}
    (h : At tm L (.node c e (pick d (.node cr r rkids) .leaf)) ctx) :
    ∃ tm', (tm.setParent r.addr (TreeMap.up ctx)).replaceChild .left (TreeMap.up ctx) e.addr
        (some r.addr) = some tm' ∧
      At (tm'.isolate e.addr) (L.erase e.addr) (.node cr r rkids) ctx ∧
      Keeps (tm'.isolate e.addr).mem e ∧ Rewrites L tm (tm'.isolate e.addr) := by
  have hnodup := h.nodup_pick
  obtain ⟨hr, -⟩ := forall_pick.1 h.tree.2
  simp only [nodup_cons, nodup_append, mem_append, not_or] at hnodup
  obtain ⟨⟨hne, -, hnc⟩, hnr, ⟨-, hnctx, -⟩, hdisj⟩ := hnodup
  set tm₁ := tm.setParent r.addr (TreeMap.up ctx) with htm₁
  have hr₁ : Stored tm₁.mem (TreeMap.up ctx) (.node cr r rkids) := hr.reparent hnr _
  have hrmem : r.addr ∈ addrs (.node cr r rkids) := ptr_mem_addrs rfl
  have hpath₁ : StoredPath tm₁.mem tm₁.root ctx (some e.addr) :=
    h.path.congr fun a ha => if_neg fun har => hdisj r.addr hrmem a (.inr ha) har.symm
  obtain ⟨tm₂, hrun, hpath₂, hrw⟩ := hpath₁.replaceChild
    (fun f ctx' hctx => by subst hctx; exact h.ptr_ne_sibling rfl) hnctx
  have hr₂ : Stored tm₂.mem (TreeMap.up ctx) (.node cr r rkids) :=
    hr₁.congr fun a ha => hrw.outside a fun hac => hdisj a ha a (.inr hac) rfl
  have he₂ : tm₂.mem e.addr = tm.mem e.addr := by
    rw [hrw.outside _ hnc, htm₁, setParent, modify_mem,
      if_neg (ne_of_mem_of_not_mem hrmem hne).symm]
  refine ⟨tm₂, hrun, ⟨?_, ?_, perm_erase_addr h, h.nodup.erase _⟩, ⟨c, none, fun _ => none, ?_⟩, ?_⟩
  · exact hr₂.congr fun a ha => if_neg (ne_of_mem_of_not_mem ha hne)
  · exact hpath₂.congr fun a ha => if_neg (ne_of_mem_of_not_mem ha hnc)
  · rw [isolate, modify_mem, if_pos rfl, he₂, h.mem_root]
    rfl
  · have hrL : r.addr ∈ L := h.down.addr_mem
    have hctxL : pathAddrs ctx ⊆ L := fun a ha => h.perm.subset (mem_append_right _ ha)
    exact ((Rewrites.modify tm hrL _).trans (hrw.mono hctxL)).trans (.modify _ h.addr_mem _)

theorem At.unlink_eq (h : At tm L (.node c e kids) (f :: ctx)) :
    tm.unlink e.addr = (tm.setChild f.entry.addr f.side none).setParent e.addr none := by
  have hsib : ptr f.sibling ≠ some e.addr := h.ptr_ne_sibling rfl
  simp only [unlink, h.parentOf, up_cons, h.childOf_up, ptr_node]
  cases f.side with
  | left => rw [pick_self, if_pos rfl]
  | right =>
    rw [show Side.left = Side.right.opp from rfl, pick_opp, pick_self, if_neg hsib.symm, if_pos rfl]

theorem At.unlink (h : At tm L (.node c e (pick d .leaf .leaf)) (f :: ctx)) :
    At (tm.unlink e.addr) (L.erase e.addr) .leaf (f :: ctx) ∧ Keeps (tm.unlink e.addr).mem e ∧
      Rewrites L tm (tm.unlink e.addr) := by
  have hnodup := h.nodup_pick
  simp only [addrs_leaf, nil_append, pathAddrs, nodup_cons, mem_append,
    mem_cons, not_or] at hnodup
  obtain ⟨⟨hef, hes, hec⟩, ⟨hfs, hfc⟩, -⟩ := hnodup
  have hmem : ∀ a, a ≠ e.addr → a ≠ f.entry.addr → (tm.unlink e.addr).mem a = tm.mem a := by
    intro a hae haf
    rw [h.unlink_eq]
    exact (if_neg hae).trans (if_neg haf)
  obtain ⟨hself, hsib, hpath⟩ := h.path
  refine ⟨⟨trivial, ⟨?_, ?_, ?_⟩, perm_erase_addr h, h.nodup.erase _⟩,
    ⟨c, none, pick d none none, ?_⟩, ?_⟩
  · rw [h.unlink_eq, setParent, modify_mem, if_neg (Ne.symm hef), setChild,
      modify_mem, if_pos rfl, hself]
    simp [nodeOf]
  · exact hsib.congr fun a ha =>
      hmem a (ne_of_mem_of_not_mem ha hes) (ne_of_mem_of_not_mem ha hfs)
  · rw [h.unlink_eq] at hmem ⊢
    exact hpath.congr fun a ha =>
      hmem a (ne_of_mem_of_not_mem ha hec) (ne_of_mem_of_not_mem ha hfc)
  · rw [h.unlink_eq, setParent, modify_mem, if_pos rfl, setChild, modify_mem,
      if_neg hef, h.mem_root, comp_pick]
    rfl
  · rw [h.unlink_eq]
    exact (Rewrites.modify tm h.up.addr_mem _).trans (.modify _ h.addr_mem _)

theorem At.fixIfBlack (h : At tm L (.node c e kids) ctx) (hn : ctx.length < n) (color : Color) :
    ∃ tm', tm.fixIfBlack n color e.addr = some tm' ∧
      At tm' L (.node c e kids) (if color = .black then fixDeletion c ctx else ctx) ∧
      Rewrites L tm tm' := by
  by_cases hc : color = .black
  · obtain ⟨tm', hrun, hat⟩ := h.fixAfterDeletion hn
    exact ⟨tm', (if_pos hc).trans hrun, by rwa [if_pos hc]⟩
  · exact ⟨tm, if_neg hc, by rwa [if_neg hc], .refl _ _⟩

/-- The path to `rep`, which takes the place of a node of the colour `c`. -/
def fixedPath {α : Type*} (c : Color) (rep : Tree α) (ctx : List (Frame α)) : List (Frame α) :=
  if c = .black then fixDeletion rep.color ctx else ctx

/-- **A node with at most one child leaves the tree**; its own contents stay in memory. -/
theorem At.splice {rep : Tree (Entry κ ν)}
    (h : At tm L (.node c e (pick d rep .leaf)) ctx) (hn : ctx.length < n) :
    ∃ tm', tm.splice n e.addr = some tm' ∧ At tm' (L.erase e.addr) rep (fixedPath c rep ctx) ∧
      Keeps tm'.mem e ∧ Rewrites L tm tm' := by
  have hmem := h.mem_root
  rw [comp_pick] at hmem
  have hor : (pick d (ptr rep) none .left).or (pick d (ptr rep) none .right) = ptr rep := by
    cases d
    · exact or_none
    · rfl
  rw [SgTreeMap.splice, hmem, bind_eq_bind, bind_some, nodeOf_child, ptr_leaf, hor]
  cases rep with
  | node cr r rkids =>
    obtain ⟨tm₁, hrun₁, h₁, hkeep, hrw₁⟩ := h.lift
    obtain ⟨tm₂, hrun₂, h₂, hrw₂⟩ := h₁.fixIfBlack hn c
    refine ⟨tm₂, ?_, h₂, ?_, hrw₁.trans (hrw₂.mono (L.erase_subset ..))⟩
    · simp only [ptr_node, nodeOf_parent, nodeOf_color, hrun₁, bind_eq_bind, bind_some, hrun₂]
    · obtain ⟨c', par, child, hself⟩ := hkeep
      exact ⟨c', par, child, (hrw₂.outside _ h.nodup.not_mem_erase).trans hself⟩
  | leaf =>
    cases ctx with
    | nil =>
      have hpath : fixedPath c (.leaf : Tree (Entry κ ν)) [] = [] := by cases c <;> rfl
      refine ⟨{ tm with root := none }, if_pos rfl, ?_, ⟨_, _, _, hmem⟩, fun _ _ => rfl, rfl, rfl⟩
      rw [hpath]
      exact ⟨trivial, rfl, perm_erase_addr h, h.nodup.erase _⟩
    | cons f ctx =>
      obtain ⟨tm₁, hrun₁, h₁, hrw₁⟩ := h.fixIfBlack hn c
      have hpath : (if c = .black then fixDeletion c (f :: ctx) else f :: ctx) =
          fixedPath c .leaf (f :: ctx) := by cases c <;> rfl
      obtain ⟨g, ctx', hg⟩ : ∃ g ctx', fixedPath c .leaf (f :: ctx) = g :: ctx' := by
        rw [← hpath]
        split
        · exact fixDeletion_cons c f ctx
        · exact ⟨f, ctx, rfl⟩
      rw [hpath, hg] at h₁
      obtain ⟨h₂, hkeep, hrw₂⟩ := h₁.unlink
      refine ⟨tm₁.unlink e.addr, ?_, ?_, hkeep, hrw₁.trans hrw₂⟩
      · simp only [ptr_leaf, nodeOf_parent, up_cons, nodeOf_color, hrun₁, map_some]
        exact if_neg (some_ne_none _)
      · rw [hg]
        exact h₂

/-! ### The node that leaves the tree -/

/-- The leftmost node of a tree, and the path to it. -/
def leftmostNode {α : Type*} : Tree α → List (Frame α) → Tree α × List (Frame α)
  | .leaf, ctx => (.leaf, ctx)
  | .node c e kids, ctx =>
    match kids .left with
    | .leaf => (.node c e kids, ctx)
    | .node .. => leftmostNode (kids .left) (⟨.left, c, e, kids .right⟩ :: ctx)

theorem leftmostNode_of_leaf {c : Color} {e : α} {kids : Side → Tree α}
    (h : kids .left = .leaf) (ctx : List (Frame α)) :
    leftmostNode (.node c e kids) ctx = (.node c e kids, ctx) := by
  rw [leftmostNode, h]

theorem leftmostNode_of_node {c cl : Color} {e l : α} {kids lkids : Side → Tree α}
    (h : kids .left = .node cl l lkids) (ctx : List (Frame α)) :
    leftmostNode (.node c e kids) ctx =
      leftmostNode (kids .left) (⟨.left, c, e, kids .right⟩ :: ctx) := by
  rw [leftmostNode]
  split
  · rename_i hleaf
    cases hleaf.symm.trans h
  · rfl

theorem leftmostNode_spec {t : Tree α} (ht : t ≠ .leaf) (ctx : List (Frame α)) :
    ∃ cs s rep path,
      leftmostNode t ctx = (.node cs s (pick .right rep .leaf), path ++ ctx) ∧
      plug (.node cs s (pick .right rep .leaf)) path = t ∧ before path = [] := by
  induction t generalizing ctx with
  | leaf => exact (ht rfl).elim
  | node c e kids ih =>
    cases hl : kids .left with
    | leaf =>
      have hkids : pick .right (kids .right) .leaf = kids := by
        rw [← hl]
        exact pick_eta .right kids
      refine ⟨c, e, kids .right, [], ?_, ?_, rfl⟩
      · rw [leftmostNode_of_leaf hl, hkids, nil_append]
      · rw [hkids, plug]
    | node cl l lkids =>
      obtain ⟨cs, s, rep, path, hrun, hplug, hbefore⟩ :=
        ih .left (by simp [hl]) (⟨.left, c, e, kids .right⟩ :: ctx)
      refine ⟨cs, s, rep, path ++ [⟨.left, c, e, kids .right⟩], ?_, ?_, ?_⟩
      · rw [leftmostNode_of_node hl, hrun, append_assoc, singleton_append]
      · rw [plug_append, hplug]
        exact congrArg (Tree.node c e) (pick_eta .left kids)
      · rw [before_append, hbefore]
        rfl

theorem At.leftmost {t : Tree (Entry κ ν)} (h : At tm L t ctx) {a : ℕ} (ht : ptr t = some a)
    (hn : t.inorder.length ≤ n) (ctx' : List (Frame (Entry κ ν))) :
    tm.outermost .left n a = ptr (leftmostNode t ctx').1 := by
  induction t generalizing ctx ctx' a n with
  | leaf => cases ht
  | node c e kids ih =>
    obtain rfl := some.inj ht
    obtain ⟨k, rfl⟩ : ∃ k, n = k + 1 := ⟨n - 1, by simp [inorder] at hn; omega⟩
    rw [outermost, h.mem_root]
    simp only [bind_eq_bind, bind_some, nodeOf_child]
    cases hl : kids .left with
    | leaf => rw [leftmostNode_of_leaf hl, ptr_leaf, ptr_node]
    | node cl l lkids =>
      rw [leftmostNode_of_node hl, ptr_node]
      refine ih .left (h.kid .left) (by rw [hl]; rfl) ?_ _
      simp only [inorder, length_append, length_cons, hl] at hn ⊢
      omega

/-- What `delete_entry` takes out of the tree: a node of a colour, its only child, and the path. -/
structure Removal (α : Type*) where
  color : Color
  entry : α
  rep : Tree α
  path : List (Frame α)

/-- The node that `delete_entry` takes out of the tree for the entry `e`.  If `e` has two children,
this is the node behind it, whose contents are moved to the node of `e`. -/
def removal (c : Color) (e : Entry κ ν) (kids : Side → Tree (Entry κ ν))
    (ctx : List (Frame (Entry κ ν))) : Removal (Entry κ ν) :=
  match kids .left, kids .right with
  | .leaf, rep => ⟨c, e, rep, ctx⟩
  | .node cl l lkids, .leaf => ⟨c, e, .node cl l lkids, ctx⟩
  | .node cl l lkids, .node cr r rkids =>
    match leftmostNode (.node cr r rkids) [] with
    | (.leaf, _) => ⟨c, e, .leaf, ctx⟩
    | (.node cs s skids, path) =>
      ⟨cs, s, skids .right,
        path ++ ⟨.right, c, ⟨e.addr, s.key, s.value⟩, .node cl l lkids⟩ :: ctx⟩

/-- The path to what is in the place of the node that was taken out. -/
def Removal.fixed {α : Type*} (r : Removal α) : List (Frame α) := fixedPath r.color r.rep r.path

/-- A node with these subtrees has two children. -/
def HasBoth {α : Type*} (kids : Side → Tree α) : Prop := kids .left ≠ .leaf ∧ kids .right ≠ .leaf

instance {α : Type*} : (t : Tree α) → Decidable (t = .leaf)
  | .leaf => isTrue rfl
  | .node .. => isFalse nofun

instance {α : Type*} (kids : Side → Tree α) : Decidable (HasBoth kids) :=
  inferInstanceAs (Decidable (kids .left ≠ .leaf ∧ kids .right ≠ .leaf))

theorem removal_cases (c : Color) (e : Entry κ ν) (kids : Side → Tree (Entry κ ν))
    (ctx : List (Frame (Entry κ ν))) :
    (∃ d rep, kids = pick d rep .leaf ∧ removal c e kids ctx = ⟨c, e, rep, ctx⟩) ∨
    HasBoth kids ∧ ∃ cs s rep path,
      leftmostNode (kids .right) [] = (.node cs s (pick .right rep .leaf), path) ∧
      plug (.node cs s (pick .right rep .leaf)) path = kids .right ∧ before path = [] ∧
      removal c e kids ctx =
        ⟨cs, s, rep, path ++ ⟨.right, c, ⟨e.addr, s.key, s.value⟩, kids .left⟩ :: ctx⟩ := by
  cases hl : kids .left with
  | leaf =>
    refine .inl ⟨.right, kids .right, ?_, by rw [removal, hl]⟩
    rw [← hl]
    exact (pick_eta .right kids).symm
  | node cl l lkids =>
    cases hr : kids .right with
    | leaf =>
      refine .inl ⟨.left, kids .left, ?_, by rw [removal, hr, hl]⟩
      rw [← hr]
      exact (pick_eta .left kids).symm
    | node cr r rkids =>
      obtain ⟨cs, s, rep, path, hleft, hplug, hbefore⟩ := leftmostNode_spec
        (t := .node cr r rkids) nofun []
      rw [append_nil] at hleft
      refine .inr ⟨⟨by rw [hl]; nofun, by rw [hr]; nofun⟩, cs, s, rep, path, hleft, hplug, hbefore,
        ?_⟩
      rw [removal, hl, hr]
      simp only [hleft, pick_self]

theorem ptr_isSome_iff {t : Tree (Entry κ ν)} : (ptr t).isSome ↔ t ≠ .leaf := by
  cases t <;> simp [ptr]

/-- **`delete_entry` ends, and one node has left the tree.** -/
theorem At.deleteEntry (h : At tm L (.node c e kids) ctx) (hn : L.length ≤ n)
    {r : Removal (Entry κ ν)} (hr : removal c e kids ctx = r) :
    ∃ tm', tm.deleteEntry n e.addr = some tm' ∧ At tm' (L.erase r.entry.addr) r.rep r.fixed ∧
      Keeps tm'.mem r.entry ∧ Rewrites L { tm with entryCount := tm.entryCount - 1 } tm' := by
  set tm₀ : SgTreeMap κ ν := { tm with entryCount := tm.entryCount - 1 } with htm₀
  have h₀ : At tm₀ L (.node c e kids) ctx := ⟨h.tree, h.path, h.perm, h.nodup⟩
  have hlen : ctx.length < n := by
    have := h.length_le
    simp only [inorder, length_append, length_cons] at this
    omega
  have hrun : tm.deleteEntry n e.addr =
      if (ptr (kids .left)).isSome ∧ (ptr (kids .right)).isSome then do
        let s ← (← tm₀.successor n e.addr)
        let sm ← tm₀.mem s
        SgTreeMap.splice n
          (tm₀.modify e.addr fun n => { n with key := sm.key, value := sm.value }) s
      else tm₀.splice n e.addr := by
    rw [SgTreeMap.deleteEntry, ← htm₀, h₀.mem_root]
    rfl
  rw [hrun]
  rcases removal_cases c e kids ctx with ⟨d, rep, rfl, heq⟩ |
    ⟨hboth, cs, s, rep, path, hleft, hplug, -, heq⟩
  · obtain rfl := heq.symm.trans hr
    obtain ⟨tm', hrun', hat⟩ := h₀.splice hlen
    refine ⟨tm', (if_neg ?_).trans hrun', hat⟩
    cases d <;> simp [pick]
  · obtain rfl := heq.symm.trans hr
    have hsome := ptr_isSome_iff.2 hboth.2
    obtain ⟨b, hb⟩ := isSome_iff_exists.1 hsome
    have hdown : ∀ {tm' : SgTreeMap κ ν} {e' : Entry κ ν}, At tm' L (.node c e' kids) ctx →
        At tm' L (.node cs s (pick .right rep .leaf))
          (path ++ ⟨.right, c, e', kids .left⟩ :: ctx) := by
      intro tm' e' h'
      have := h'.kid .right
      rw [← hplug] at this
      exact (At.append_iff path).2 this
    have hsucc : tm₀.successor n e.addr = some (some s.addr) := by
      have hsize := h.length_le
      have hmost := (h₀.kid .right).leftmost (n := n) hb
        (by simp only [inorder, length_append, length_cons] at hsize; omega) []
      rw [hleft, ptr_node] at hmost
      rw [successor, adjacent, h₀.mem_root]
      simp only [bind_eq_bind, bind_some, nodeOf_child, Side.opp, hb, hmost, map_some]
    have h₁ : At (tm₀.modify e.addr fun n => { n with key := s.key, value := s.value }) L
        (.node c ⟨e.addr, s.key, s.value⟩ kids) ctx := by
      have hroot := h₀.mem_root
      rw [← pick_eta .left kids] at h₀ hroot ⊢
      refine h₀.of_root rfl ?_ (fun x hx => if_neg hx) rfl
      rw [modify_mem, if_pos rfl, hroot, comp_pick]
      rfl
    have hsize := (hdown h₁).length_le
    rw [inorder_pick] at hsize
    obtain ⟨tm', hrun', hat, hkeep, hrw⟩ := (hdown h₁).splice (n := n) (by
      simp [Tree.join] at hsize ⊢
      omega)
    refine ⟨tm', ?_, ?_, hkeep, (Rewrites.modify tm₀ h.addr_mem _).trans hrw⟩
    · rw [if_pos ⟨ptr_isSome_iff.2 hboth.1, hsome⟩]
      simp only [hsucc, bind_eq_bind, bind_some, (hdown h₀).mem_root]
      exact hrun'
    · simpa [Removal.fixed] using hat

theorem inorder_fixedPath (c : Color) (rep : Tree α) (ctx : List (Frame α)) :
    (plug rep (fixedPath c rep ctx)).inorder = (plug rep ctx).inorder := by
  rw [fixedPath]
  split
  · exact inorder_fixDeletion _ _ _
  · rfl

/-- The keys and values from left to right. -/
def contents (es : List (Entry κ ν)) : List (κ × ν) := es.map fun e => (e.key, e.value)

theorem inorder_removal_of_not (h : ¬ HasBoth kids) :
    (removal c e kids ctx).entry = e ∧
      (plug (removal c e kids ctx).rep (removal c e kids ctx).fixed).inorder =
        before ctx ++ ((kids .left).inorder ++ (kids .right).inorder) ++ after ctx := by
  rw [Removal.fixed, inorder_fixedPath, inorder_plug]
  rcases removal_cases c e kids ctx with ⟨d, rep, rfl, heq⟩ | ⟨hboth, -⟩
  · rw [heq]
    cases d <;> simp [pick, inorder]
  · exact (h hboth).elim

theorem inorder_removal_of_both (c : Color) (e : Entry κ ν) (ctx : List (Frame (Entry κ ν)))
    (h : HasBoth kids) :
    ∃ s rest, (kids .right).inorder = s :: rest ∧
      (plug (removal c e kids ctx).rep (removal c e kids ctx).fixed).inorder =
        before ctx ++ ((kids .left).inorder ++ ⟨e.addr, s.key, s.value⟩ :: rest) ++ after ctx := by
  rcases removal_cases c e kids ctx with ⟨d, rep, rfl, -⟩ |
    ⟨-, cs, s, rep, path, -, hplug, hbefore, heq⟩
  · cases d
    · exact (h.2 rfl).elim
    · exact (h.1 rfl).elim
  · refine ⟨s, rep.inorder ++ after path, ?_, ?_⟩
    · rw [← hplug, inorder_plug, hbefore, inorder_pick]
      rfl
    · rw [Removal.fixed, inorder_fixedPath, inorder_plug, heq]
      simp [before_append, after_append, before, after, Frame.before, Frame.after, hbefore]

/-- **Exactly the entry that is deleted disappears.** -/
theorem contents_removal (c : Color) (e : Entry κ ν) (kids : Side → Tree (Entry κ ν))
    (ctx : List (Frame (Entry κ ν))) {r : Removal (Entry κ ν)} (hr : removal c e kids ctx = r) :
    contents (plug r.rep r.fixed).inorder =
      contents (before ctx ++ ((kids .left).inorder ++ (kids .right).inorder) ++ after ctx) := by
  subst hr
  by_cases h : HasBoth kids
  · obtain ⟨s, rest, hright, hin⟩ := inorder_removal_of_both c e ctx h
    rw [hin, hright]
    simp [contents]
  · rw [(inorder_removal_of_not h).2]

end Sagittarius.TreeMap
