import Sagittarius.TreeMap.Model

/-!
# Trees in memory

What it means that the memory holds a tree: every node has the contents of the tree, points to its
children and to its parent, and no node occurs twice.

* `SgTreeMap.At` : the memory holds a subtree and the path to it;
* `At.up`, `At.down`, `At.flip` : the same tree, seen from another node;
* `At.setColor`, `At.rotate` : what painting a node and a rotation do.

So the functions of the source that only paint and rotate can be followed on trees.
-/

namespace Sagittarius.TreeMap

open List SgTreeMap Sagittarius.Tree Option

variable {κ ν : Type}

/-- An entry of a tree and the address of its node. -/
structure Entry (κ ν : Type) where
  addr : ℕ
  key : κ
  value : ν

variable {t : Tree (Entry κ ν)} {ctx : List (Frame (Entry κ ν))} {e : Entry κ ν} {c : Color}
  {d : Side} {par : Option ℕ} {mem mem' : ℕ → Option (Node κ ν)}

/-- The address of the root. -/
def ptr : Tree (Entry κ ν) → Option ℕ
  | .leaf => none
  | .node _ e _ => some e.addr

/-- The addresses of all nodes. -/
def addrs (t : Tree (Entry κ ν)) : List ℕ := t.inorder.map Entry.addr

/-- The node of an entry. -/
def nodeOf (c : Color) (e : Entry κ ν) (par : Option ℕ) (child : Side → Option ℕ) : Node κ ν :=
  ⟨e.key, e.value, c, par, child⟩

@[simp] theorem ptr_leaf : ptr (.leaf : Tree (Entry κ ν)) = none := rfl

@[simp] theorem ptr_node (c : Color) (e : Entry κ ν) (kids : Side → Tree (Entry κ ν)) :
    ptr (.node c e kids) = some e.addr := rfl

section

variable (child : Side → Option ℕ)

@[simp] theorem nodeOf_key : (nodeOf c e par child).key = e.key := rfl

@[simp] theorem nodeOf_child : (nodeOf c e par child).child = child := rfl

@[simp] theorem nodeOf_parent : (nodeOf c e par child).parent = par := rfl

@[simp] theorem nodeOf_color : (nodeOf c e par child).color = c := rfl

end

/-- The memory holds a tree below the parent `par`. -/
def Stored (mem : ℕ → Option (Node κ ν)) (par : Option ℕ) : Tree (Entry κ ν) → Prop
  | .leaf => True
  | .node c e kids => mem e.addr = some (nodeOf c e par fun d => ptr (kids d)) ∧
      ∀ d, Stored mem (some e.addr) (kids d)

/-- The address of the last node of a path. -/
def up : List (Frame (Entry κ ν)) → Option ℕ
  | [] => none
  | f :: _ => some f.entry.addr

@[simp] theorem up_nil : up ([] : List (Frame (Entry κ ν))) = none := rfl

@[simp] theorem up_cons (f : Frame (Entry κ ν)) : up (f :: ctx) = some f.entry.addr := rfl

/-- The addresses of the nodes on a path and beside it. -/
def pathAddrs : List (Frame (Entry κ ν)) → List ℕ
  | [] => []
  | f :: ctx => f.entry.addr :: (addrs f.sibling ++ pathAddrs ctx)

/-- The memory holds the path to a subtree with the root `p`. -/
def StoredPath (mem : ℕ → Option (Node κ ν)) (root : Option ℕ) :
    List (Frame (Entry κ ν)) → Option ℕ → Prop
  | [], p => root = p
  | f :: ctx, p =>
    mem f.entry.addr = some (nodeOf f.color f.entry (up ctx) (pick f.side p (ptr f.sibling))) ∧
      Stored mem (some f.entry.addr) f.sibling ∧ StoredPath mem root ctx (some f.entry.addr)

@[simp] theorem addrs_leaf : addrs (.leaf : Tree (Entry κ ν)) = [] := rfl

variable {a b : Tree (Entry κ ν)}

theorem mem_addrs_pick {x : ℕ} :
    x ∈ addrs (.node c e (pick d a b)) ↔ x = e.addr ∨ x ∈ addrs a ∨ x ∈ addrs b := by
  rw [addrs, inorder_pick]
  cases d <;> simp [Tree.join, addrs] <;> grind

theorem ptr_mem_addrs {x : ℕ} (h : ptr t = some x) : x ∈ addrs t := by
  cases t with
  | leaf => cases h
  | node c e kids =>
    obtain rfl := some.inj h
    simp [addrs, inorder]

/-! ### What is not written does not change -/

theorem Stored.congr (h : Stored mem par t) (hmem : ∀ a ∈ addrs t, mem' a = mem a) :
    Stored mem' par t := by
  induction t generalizing par with
  | leaf => trivial
  | node c e kids ih =>
    have hsub : ∀ d, ∀ a ∈ addrs (kids d), mem' a = mem a := fun d a ha =>
      hmem a (by cases d <;> simp [addrs, inorder] at ha ⊢ <;> grind)
    refine ⟨?_, fun d => ih d (h.2 d) (hsub d)⟩
    rw [hmem e.addr (by simp [addrs, inorder])]
    exact h.1

variable {p : Option ℕ}

theorem StoredPath.congr {root : Option ℕ} (h : StoredPath mem root ctx p)
    (hmem : ∀ a ∈ pathAddrs ctx, mem' a = mem a) : StoredPath mem' root ctx p := by
  induction ctx generalizing p with
  | nil => exact h
  | cons f ctx ih =>
    simp only [pathAddrs, mem_cons, mem_append] at hmem
    exact ⟨by rw [hmem _ (.inl rfl)]; exact h.1, h.2.1.congr fun a ha => hmem a (.inr (.inl ha)),
      ih h.2.2 fun a ha => hmem a (.inr (.inr ha))⟩

/-- The memory determines the tree. -/
theorem Stored.unique {t' : Tree (Entry κ ν)} (h : Stored mem par t) (h' : Stored mem par t')
    (hp : ptr t = ptr t') : t = t' := by
  induction t generalizing par t' with
  | leaf =>
    cases t' with
    | leaf => rfl
    | node => cases hp
  | node c e kids ih =>
    cases t' with
    | leaf => cases hp
    | node c' e' kids' =>
      obtain ⟨a, k, v⟩ := e
      obtain ⟨a', k', v'⟩ := e'
      obtain rfl : a = a' := some.inj hp
      have hnode := some.inj (h.1.symm.trans h'.1)
      simp only [nodeOf, Node.mk.injEq, true_and] at hnode
      obtain ⟨rfl, rfl, rfl, hkids⟩ := hnode
      have hsame : kids = kids' := funext fun d => ih d (h.2 d) (h'.2 d) (congrFun hkids d)
      rw [hsame]

/-! ### Seeing the tree from a node -/

/-- The memory holds a subtree and the path to it; `L` are the addresses of all nodes. -/
structure At (tm : SgTreeMap κ ν) (L : List ℕ) (t : Tree (Entry κ ν))
    (ctx : List (Frame (Entry κ ν))) : Prop where
  tree : Stored tm.mem (up ctx) t
  path : StoredPath tm.mem tm.root ctx (ptr t)
  perm : (addrs t ++ pathAddrs ctx).Perm L
  nodup : L.Nodup

variable {tm tm' tm'' : SgTreeMap κ ν} {L : List ℕ} {f : Frame (Entry κ ν)}

theorem perm_addrs_pick (c : Color) (e : Entry κ ν) (d : Side) (a b : Tree (Entry κ ν)) :
    (addrs (.node c e (pick d a b))).Perm (e.addr :: (addrs a ++ addrs b)) := by
  rw [addrs, inorder_pick]
  cases d
  · simp [Tree.join, addrs]
  · simp only [Tree.join, addrs, map_append, map_cons]
    exact List.perm_middle.trans (List.perm_append_comm.cons _)

/-- **The tree can be seen from the parent.** -/
theorem At.up_iff : At tm L t (f :: ctx) ↔ At tm L (f.fill t) ctx := by
  have hperm : (addrs (f.fill t) ++ pathAddrs ctx).Perm (addrs t ++ pathAddrs (f :: ctx)) := by
    refine ((perm_addrs_pick _ _ _ _ _).append_right _).trans ?_
    rw [pathAddrs, cons_append, append_assoc]
    exact List.perm_middle.symm
  constructor
  · intro h
    refine ⟨⟨?_, ?_⟩, h.path.2.2, hperm.trans h.perm, h.nodup⟩
    · rw [comp_pick]
      exact h.path.1
    · exact forall_pick.2 ⟨h.tree, h.path.2.1⟩
  · intro h
    obtain ⟨hself, hkids⟩ := h.tree
    obtain ⟨ht, hsib⟩ := forall_pick.1 hkids
    rw [comp_pick] at hself
    exact ⟨ht, ⟨hself, hsib, h.path⟩, hperm.symm.trans h.perm, h.nodup⟩

theorem At.up (h : At tm L t (f :: ctx)) : At tm L (f.fill t) ctx := At.up_iff.1 h

theorem At.down (h : At tm L (.node c e (pick d a b)) ctx) : At tm L a (⟨d, c, e, b⟩ :: ctx) :=
  At.up_iff.2 h

theorem At.flip (h : At tm L a (⟨d, c, e, b⟩ :: ctx)) : At tm L b (⟨d.opp, c, e, a⟩ :: ctx) := by
  refine At.up_iff.2 ?_
  rw [Frame.fill, pick_opp_left]
  exact h.up

theorem At.append_iff (path : List (Frame (Entry κ ν))) :
    At tm L t (path ++ ctx) ↔ At tm L (plug t path) ctx := by
  induction path generalizing t with
  | nil => rfl
  | cons f path ih => rw [cons_append, At.up_iff, ih, plug]

theorem At.plug_iff : At tm L t ctx ↔ At tm L (plug t ctx) [] := by
  rw [← At.append_iff, append_nil]

theorem At.length_le (h : At tm L t ctx) : ctx.length + t.inorder.length ≤ L.length := by
  have hperm := (At.plug_iff.1 h).perm.length_eq
  rw [pathAddrs, append_nil, addrs, length_map] at hperm
  rw [← hperm]
  exact length_le_inorder_plug t ctx

theorem At.own (h : At tm L t []) : At tm (addrs t) t [] := by
  have hperm : L.Perm (addrs t) := by simpa [pathAddrs] using h.perm.symm
  exact ⟨h.tree, h.path, h.perm.trans hperm, hperm.nodup_iff.1 h.nodup⟩

/-! ### What the functions read -/

section read

variable {kids : Side → Tree (Entry κ ν)}

theorem At.mem_root (h : At tm L (.node c e kids) ctx) :
    tm.mem e.addr = some (nodeOf c e (TreeMap.up ctx) fun d => ptr (kids d)) :=
  h.tree.1

theorem At.colorOf (h : At tm L t ctx) : tm.colorOf (ptr t) = t.color := by
  cases t with
  | leaf => rfl
  | node c e kids => simp [colorOf, h.mem_root, color]

section

variable (h : At tm L (.node c e kids) ctx)

include h

theorem At.childOf (d : Side) : tm.childOf d (some e.addr) = ptr (kids d) := by
  simp [SgTreeMap.childOf, h.mem_root]

theorem At.kid (d : Side) : At tm L (kids d) (⟨d, c, e, kids d.opp⟩ :: ctx) := by
  rw [← pick_eta d kids] at h
  exact h.down

theorem At.colorOf_kid (d : Side) : tm.colorOf (tm.childOf d (some e.addr)) = (kids d).color := by
  rw [h.childOf]
  exact (h.kid d).colorOf

theorem At.parentOf : tm.parentOf (some e.addr) = TreeMap.up ctx := by
  simp [SgTreeMap.parentOf, h.mem_root]

end

theorem At.ptr_ne_sibling {x : ℕ} (h : At tm L t (f :: ctx)) (ht : ptr t = some x) :
    ptr f.sibling ≠ some x := by
  intro hsib
  have hnodup := h.perm.nodup_iff.2 h.nodup
  have hdisj := (nodup_append.1 hnodup).2.2
  exact hdisj x (ptr_mem_addrs ht) x
    (mem_cons_of_mem _ (mem_append_left _ (ptr_mem_addrs hsib))) rfl

theorem StoredPath.root_mem {root p : Option ℕ} (h : StoredPath mem root (f :: ctx) p) :
    ∃ a ∈ pathAddrs (f :: ctx), root = some a := by
  induction ctx generalizing f p with
  | nil => exact ⟨f.entry.addr, mem_cons_self .., h.2.2⟩
  | cons g ctx ih =>
    obtain ⟨a, ha, hroot⟩ := ih h.2.2
    exact ⟨a, mem_cons_of_mem _ (mem_append_right _ ha), hroot⟩

theorem At.root_ne {x : ℕ} (h : At tm L t (f :: ctx)) (ht : ptr t = some x) :
    tm.root ≠ some x := by
  intro hroot
  obtain ⟨a, ha, hroot'⟩ := h.path.root_mem
  obtain rfl : a = x := some.inj (hroot'.symm.trans hroot)
  exact (nodup_append.1 (h.perm.nodup_iff.2 h.nodup)).2.2 a (ptr_mem_addrs ht) a ha rfl

end read

/-- Only nodes in `L` have been written. -/
structure Rewrites (L : List ℕ) (tm tm' : SgTreeMap κ ν) : Prop where
  outside : ∀ a, a ∉ L → tm'.mem a = tm.mem a
  fresh : tm'.fresh = tm.fresh
  entryCount : tm'.entryCount = tm.entryCount

theorem Rewrites.refl (L : List ℕ) (tm : SgTreeMap κ ν) : Rewrites L tm tm :=
  ⟨fun _ _ => rfl, rfl, rfl⟩

theorem Rewrites.trans (h : Rewrites L tm tm') (h' : Rewrites L tm' tm'') : Rewrites L tm tm'' :=
  ⟨fun a ha => (h'.outside a ha).trans (h.outside a ha), h'.fresh.trans h.fresh,
    h'.entryCount.trans h.entryCount⟩

@[simp] theorem modify_mem (tm : SgTreeMap κ ν) (p a : ℕ) (g : Node κ ν → Node κ ν) :
    (tm.modify p g).mem a = if a = p then (tm.mem p).map g else tm.mem a := rfl

@[simp] theorem setColor_none (tm : SgTreeMap κ ν) (c : Color) : tm.setColor none c = tm := rfl

@[simp] theorem rotate_none (d : Side) (tm : SgTreeMap κ ν) :
    rotate d tm none = some tm := rfl

@[simp] theorem childOf_none (d : Side) (tm : SgTreeMap κ ν) : tm.childOf d none = none := rfl

@[simp] theorem colorOf_none (tm : SgTreeMap κ ν) : tm.colorOf none = .black := rfl

theorem Rewrites.modify (tm : SgTreeMap κ ν) {p : ℕ} (hp : p ∈ L) (g : Node κ ν → Node κ ν) :
    Rewrites L tm (tm.modify p g) :=
  ⟨fun _ ha => if_neg (ne_of_mem_of_not_mem hp ha).symm, rfl, rfl⟩

theorem At.addr_mem {kids : Side → Tree (Entry κ ν)} (h : At tm L (.node c e kids) ctx) :
    e.addr ∈ L :=
  h.perm.subset (mem_append_left _ (ptr_mem_addrs rfl))

theorem At.nodup_pick (h : At tm L (.node c e (pick d a b)) ctx) :
    (e.addr :: (addrs a ++ (addrs b ++ pathAddrs ctx))).Nodup := by
  rw [← append_assoc]
  exact (((perm_addrs_pick _ _ _ _ _).append_right _).symm.trans h.perm).nodup_iff.2 h.nodup

theorem At.of_root {c' : Color} {e' : Entry κ ν} (h : At tm L (.node c e (pick d a b)) ctx)
    (he : e'.addr = e.addr)
    (hself : tm'.mem e.addr = some (nodeOf c' e' (TreeMap.up ctx) (pick d (ptr a) (ptr b))))
    (hother : ∀ x, x ≠ e.addr → tm'.mem x = tm.mem x) (hroot : tm'.root = tm.root) :
    At tm' L (.node c' e' (pick d a b)) ctx := by
  have hnodup := h.nodup_pick
  obtain ⟨hnot, -⟩ := nodup_cons.1 hnodup
  simp only [mem_append, not_or] at hnot
  obtain ⟨ha, hb⟩ := forall_pick.1 h.tree.2
  refine ⟨⟨?_, forall_pick.2 ⟨?_, ?_⟩⟩, ?_, ?_, h.nodup⟩
  · rw [comp_pick, he]
    exact hself
  · rw [he]
    exact ha.congr fun x hx => hother x fun hxe => hnot.1 (hxe ▸ hx)
  · rw [he]
    exact hb.congr fun x hx => hother x fun hxe => hnot.2.1 (hxe ▸ hx)
  · have := h.path
    rw [hroot]
    rw [ptr, he]
    exact this.congr fun x hx => hother x fun hxe => hnot.2.2 (hxe ▸ hx)
  · refine .trans ?_ h.perm
    rw [addrs, addrs, inorder_pick, inorder_pick]
    cases d <;> simp [Tree.join, he]

/-- **Painting the root of a subtree.** -/
theorem At.setColor (h : At tm L t ctx) (c' : Color) :
    At (tm.setColor (ptr t) c') L (t.paint c') ctx ∧ Rewrites L tm (tm.setColor (ptr t) c') := by
  cases t with
  | leaf => exact ⟨h, .refl _ _⟩
  | node c e kids =>
    refine ⟨?_, .modify tm h.addr_mem _⟩
    have h' := h
    rw [← pick_eta .left kids] at h' ⊢
    refine h'.of_root rfl ?_ (fun x hx => if_neg hx) rfl
    rw [ptr_node, setColor, modify_mem, if_pos rfl, h'.mem_root, comp_pick]
    rfl

/-! ### Rotations -/

theorem reparent_mem_of_ne {q : Option ℕ} {a : ℕ} (h : p ≠ some a) :
    (tm.reparent p q).mem a = tm.mem a := by
  cases p with
  | none => rfl
  | some p => exact if_neg fun hap => h (congrArg some hap.symm)

@[simp] theorem reparent_root (tm : SgTreeMap κ ν) (p q : Option ℕ) :
    (tm.reparent p q).root = tm.root := by
  cases p <;> rfl

theorem Rewrites.mono {L' : List ℕ} (h : Rewrites L tm tm') (hL : L ⊆ L') : Rewrites L' tm tm' :=
  ⟨fun a ha => h.outside a fun ha' => ha (hL ha'), h.fresh, h.entryCount⟩

theorem Rewrites.reparent (tm : SgTreeMap κ ν) (q : Option ℕ) (hp : ∀ a, p = some a → a ∈ L) :
    Rewrites L tm (tm.reparent p q) := by
  cases p with
  | none => exact .refl _ _
  | some p => exact .modify tm (hp p rfl) _

theorem Stored.reparent (h : Stored tm.mem par t) (hnodup : (addrs t).Nodup) (q : Option ℕ) :
    Stored (tm.reparent (ptr t) q).mem q t := by
  cases t with
  | leaf => trivial
  | node c e kids =>
    obtain ⟨hself, hkids⟩ := h
    refine ⟨?_, fun d => (hkids d).congr fun a ha => reparent_mem_of_ne ?_⟩
    · rw [ptr_node, reparent, setParent, modify_mem, if_pos rfl, hself]
      rfl
    · intro hea
      obtain rfl := some.inj hea
      rw [← pick_eta d kids] at hnodup
      have := ((perm_addrs_pick c e d _ _).nodup_iff.1 hnodup)
      exact (nodup_cons.1 this).1 (mem_append_left _ ha)

theorem StoredPath.replaceChild {p : ℕ} {r : Option ℕ} (h : StoredPath tm.mem tm.root ctx (some p))
    (hsib : ∀ f ctx', ctx = f :: ctx' → ptr f.sibling ≠ some p) (hnodup : (pathAddrs ctx).Nodup) :
    ∃ tm', tm.replaceChild d (up ctx) p r = some tm' ∧
      StoredPath tm'.mem tm'.root ctx r ∧ Rewrites (pathAddrs ctx) tm tm' := by
  cases ctx with
  | nil => exact ⟨{ tm with root := r }, rfl, rfl, fun _ _ => rfl, rfl, rfl⟩
  | cons f ctx =>
    obtain ⟨hself, hstored, hpath⟩ := h
    have hside : (if (nodeOf f.color f.entry (up ctx)
        (pick f.side (some p) (ptr f.sibling))).child d = some p then d else d.opp) = f.side := by
      rcases f.side.eq_or_eq_opp d with rfl | rfl
      · exact if_pos (pick_self ..)
      · rw [Side.opp_opp]
        refine if_neg fun hp => hsib f ctx rfl ?_
        rwa [nodeOf_child, pick_opp] at hp
    obtain ⟨hnot, -⟩ := nodup_cons.1 hnodup
    rw [mem_append, not_or] at hnot
    have hother : ∀ a, a ≠ f.entry.addr →
        (tm.setChild f.entry.addr f.side r).mem a = tm.mem a := fun a ha => if_neg ha
    refine ⟨tm.setChild f.entry.addr f.side r, ?_, ⟨?_, ?_, ?_⟩,
      .modify tm (mem_cons_self ..) _⟩
    · rw [up_cons, replaceChild, hself, bind_eq_bind, bind_some, hside]
    · rw [setChild, modify_mem, if_pos rfl, hself]
      simp [nodeOf]
    · exact hstored.congr fun a ha => hother a fun h => hnot.1 (h ▸ ha)
    · exact hpath.congr fun a ha => hother a fun h => hnot.2 (h ▸ ha)

theorem perm_addrs_rotate (d : Side) (a b x : Tree (Entry κ ν)) (p r : Entry κ ν) (cp cr : Color) :
    (addrs (.node cp p (pick d a (.node cr r (pick d b x))))).Perm
      (p.addr :: r.addr :: (addrs a ++ (addrs b ++ addrs x))) := by
  refine (perm_addrs_pick ..).trans (.cons _ ?_)
  refine ((perm_addrs_pick ..).append_left _).trans ?_
  exact perm_middle

/-- **A rotation**: the child `r` on the side opposite to `d` takes the place of `p`. -/
theorem At.rotate {x : Tree (Entry κ ν)} {p r : Entry κ ν} {cp cr : Color}
    (h : At tm L (.node cp p (pick d a (.node cr r (pick d b x)))) ctx) :
    ∃ tm', SgTreeMap.rotate d tm (some p.addr) = some tm' ∧
      At tm' L (.node cr r (pick d (.node cp p (pick d a b)) x)) ctx ∧ Rewrites L tm tm' := by
  have hr := h.down.flip
  have hp_mem := h.mem_root
  have hr_mem := hr.mem_root
  obtain ⟨ha, -⟩ := forall_pick.1 h.tree.2
  obtain ⟨hb, hx⟩ := forall_pick.1 hr.tree.2
  rw [comp_pick] at hp_mem hr_mem
  have hL := (((perm_addrs_rotate d a b x p r cp cr).append_right _).symm.trans h.perm)
  have hnodup := hL.nodup_iff.2 h.nodup
  simp only [cons_append, append_assoc, nodup_cons, nodup_append,
    mem_cons, mem_append, not_or] at hnodup
  obtain ⟨⟨hpr, hpa, hpb, hpx, hpc⟩, ⟨hra, hrb, hrx, hrc⟩, -, ⟨hnb, ⟨-, hnc, hxc⟩, hbxc⟩, habxc⟩ :=
    hnodup
  have hpr' : r.addr ≠ p.addr := fun h => hpr h.symm
  have hb_ptr : ∀ y, y ∉ addrs b → ptr b ≠ some y := fun y hy h => hy (ptr_mem_addrs h)
  -- the three assignments before `r` is linked to the parent of `p`
  set tm₂ := (tm.setChild p.addr d.opp (ptr b)).reparent (ptr b) (some p.addr) with htm₂
  set tm₃ := tm₂.setParent r.addr (TreeMap.up ctx) with htm₃
  have hrw₃ : Rewrites (p.addr :: r.addr :: addrs b) tm tm₃ :=
    ((Rewrites.modify tm (by simp) _).trans
      (.reparent _ _ fun y hy => by simp [ptr_mem_addrs hy])).trans (.modify _ (by simp) _)
  have hp₂ : tm₂.mem p.addr = some (nodeOf cp p (TreeMap.up ctx) (pick d (ptr a) (ptr b))) := by
    rw [htm₂, reparent_mem_of_ne (hb_ptr _ hpb), setChild, modify_mem, if_pos rfl,
      hp_mem]
    simp [nodeOf, pick_opp_left]
  have hp₃ : tm₃.mem p.addr = some (nodeOf cp p (TreeMap.up ctx) (pick d (ptr a) (ptr b))) :=
    (if_neg hpr).trans hp₂
  have hr₃ : tm₃.mem r.addr = some (nodeOf cr r (TreeMap.up ctx) (pick d (ptr b) (ptr x))) := by
    rw [htm₃, setParent, modify_mem, if_pos rfl, htm₂, reparent_mem_of_ne (hb_ptr _ hrb),
      setChild, modify_mem, if_neg hpr', hr_mem]
    rfl
  have hb₂ : Stored tm₂.mem (some p.addr) b :=
    (hb.congr fun y hy => if_neg (ne_of_mem_of_not_mem hy hpb)).reparent hnb _
  have hb₃ : Stored tm₃.mem (some p.addr) b :=
    hb₂.congr fun y hy => if_neg (ne_of_mem_of_not_mem hy hrb)
  have hpath₃ : StoredPath tm₃.mem tm₃.root ctx (some p.addr) := by
    have hroot : tm₃.root = tm.root := reparent_root _ _ _
    rw [hroot]
    exact h.path.congr fun y hy => hrw₃.outside y (by grind)
  obtain ⟨tm₄, hrun, hpath₄, hrw⟩ := hpath₃.replaceChild (d := d) (r := some r.addr)
    (fun f ctx' hctx => by subst hctx; exact h.ptr_ne_sibling rfl) hnc
  set tm₆ := (tm₄.setChild r.addr d (some p.addr)).setParent p.addr (some r.addr) with htm₆
  have hrw₆ : Rewrites [p.addr, r.addr] tm₄ tm₆ :=
    (Rewrites.modify tm₄ (by simp) _).trans (.modify _ (by simp) _)
  have hp₆ : tm₆.mem p.addr = some (nodeOf cp p (some r.addr) (pick d (ptr a) (ptr b))) := by
    rw [htm₆, setParent, modify_mem, if_pos rfl, setChild, modify_mem,
      if_neg hpr, hrw.outside _ hpc, hp₃]
    rfl
  have hr₆ : tm₆.mem r.addr =
      some (nodeOf cr r (TreeMap.up ctx) (pick d (some p.addr) (ptr x))) := by
    rw [htm₆, setParent, modify_mem, if_neg hpr', setChild, modify_mem,
      if_pos rfl, hrw.outside _ hrc, hr₃]
    simp [nodeOf]
  have hkeep : Rewrites (p.addr :: r.addr :: pathAddrs ctx) tm₃ tm₆ :=
    (hrw.mono (by grind)).trans (hrw₆.mono (by grind))
  refine ⟨tm₆, ?_, ⟨⟨?_, forall_pick.2 ⟨⟨?_, forall_pick.2 ⟨?_, ?_⟩⟩, ?_⟩⟩, ?_, ?_, h.nodup⟩, ?_⟩
  · have hpar : ∀ tm' : SgTreeMap κ ν,
        tm'.mem p.addr = some (nodeOf cp p (TreeMap.up ctx) (pick d (ptr a) (ptr b))) →
        tm'.parentOf (some p.addr) = TreeMap.up ctx := by
      intro tm' h'
      simp [SgTreeMap.parentOf, h']
    simp only [SgTreeMap.rotate, hp_mem, hr_mem, bind_eq_bind, bind_some,
      nodeOf_child, pick_opp, pick_self, ptr_node, ← htm₂, hpar _ hp₂, ← htm₃, hpar _ hp₃, hrun]
    rfl
  · rw [comp_pick]
    exact hr₆
  · rw [comp_pick]
    exact hp₆
  · exact ha.congr fun y hy =>
      (hkeep.outside y (by grind)).trans (hrw₃.outside y (by grind))
  · exact hb₃.congr fun y hy => hkeep.outside y (by grind)
  · exact hx.congr fun y hy =>
      (hkeep.outside y (by grind)).trans (hrw₃.outside y (by grind))
  · exact hpath₄.congr fun y hy => hrw₆.outside y (by grind)
  · have hperm := h.perm
    simp only [addrs, inorder_pick, Tree.join_join] at hperm ⊢
    exact hperm
  · have hsub := hL.subset
    simp only [cons_append, append_assoc, cons_subset, append_subset] at hsub
    exact (hrw₃.mono (by simp [hsub])).trans (hkeep.mono (by simp [hsub]))

/-! ### Seen from a node below -/

section below

section

variable (h : At tm L t (f :: ctx))

include h

theorem At.mem_up : tm.mem f.entry.addr =
    some (nodeOf f.color f.entry (TreeMap.up ctx) (pick f.side (ptr t) (ptr f.sibling))) :=
  h.path.1

theorem At.childOf_up (d : Side) :
    tm.childOf d (some f.entry.addr) = pick f.side (ptr t) (ptr f.sibling) d := by
  simp [SgTreeMap.childOf, h.mem_up]

theorem At.parentOf_up : tm.parentOf (some f.entry.addr) = TreeMap.up ctx :=
  h.up.parentOf

theorem At.colorOf_sibling : tm.colorOf (ptr f.sibling) = f.sibling.color :=
  h.flip.colorOf

end

variable {sib : Tree (Entry κ ν)}

theorem At.setColor_up (h : At tm L t (⟨d, c, e, sib⟩ :: ctx)) (c' : Color) :
    At (tm.setColor (some e.addr) c') L t (⟨d, c', e, sib⟩ :: ctx) ∧
      Rewrites L tm (tm.setColor (some e.addr) c') := by
  obtain ⟨hat, hrw⟩ := h.up.setColor c'
  exact ⟨At.up_iff.2 hat, hrw⟩

theorem At.setColor_sibling (h : At tm L t (⟨d, c, e, sib⟩ :: ctx)) (c' : Color) :
    At (tm.setColor (ptr sib) c') L t (⟨d, c, e, sib.paint c'⟩ :: ctx) ∧
      Rewrites L tm (tm.setColor (ptr sib) c') := by
  obtain ⟨hat, hrw⟩ := h.flip.setColor c'
  have := hat.flip
  rw [Side.opp_opp] at this
  exact ⟨this, hrw⟩

variable {kids : Side → Tree (Entry κ ν)}

theorem At.setColor_nephew {s : Entry κ ν} {cs : Color}
    (h : At tm L t (⟨d, c, e, .node cs s kids⟩ :: ctx)) (d' : Side) (c' : Color) :
    At (tm.setColor (ptr (kids d')) c') L t
        (⟨d, c, e, .node cs s (pick d' ((kids d').paint c') (kids d'.opp))⟩ :: ctx) ∧
      Rewrites L tm (tm.setColor (ptr (kids d')) c') := by
  obtain ⟨hat, hrw⟩ := (h.flip.kid d').setColor c'
  have := hat.up.flip
  rw [Side.opp_opp] at this
  exact ⟨this, hrw⟩

variable {p : Entry κ ν} {cp : Color}

theorem At.rotate_up (h : At tm L (.node c e kids) (⟨d.opp, cp, p, sib⟩ :: ctx)) :
    ∃ tm', SgTreeMap.rotate d tm (some p.addr) = some tm' ∧
      At tm' L (.node cp p (pick d sib (kids d))) (⟨d, c, e, kids d.opp⟩ :: ctx) ∧
      Rewrites L tm tm' := by
  have hup := h.up
  rw [Frame.fill, pick_opp_left, ← pick_eta d kids] at hup
  obtain ⟨tm', hrun, hat, hrw⟩ := hup.rotate
  exact ⟨tm', hrun, hat.down, hrw⟩

theorem At.rotate_opp_up (h : At tm L (.node c e kids) (⟨d, cp, p, sib⟩ :: ctx)) :
    ∃ tm', SgTreeMap.rotate d.opp tm (some p.addr) = some tm' ∧
      At tm' L (.node c e (pick d (kids d) (.node cp p (pick d (kids d.opp) sib)))) ctx ∧
      Rewrites L tm tm' := by
  obtain ⟨tm', hrun, hat, hrw⟩ := At.rotate_up (by rw [Side.opp_opp]; exact h)
  refine ⟨tm', hrun, ?_, hrw⟩
  have hup := hat.up
  rwa [Frame.fill, Side.opp_opp, pick_opp_left, pick_opp_left] at hup

theorem At.rotate_sibling {s : Entry κ ν} {cs : Color}
    (h : At tm L t (⟨d, cp, p, .node cs s kids⟩ :: ctx)) :
    ∃ tm', SgTreeMap.rotate d tm (some p.addr) = some tm' ∧
      At tm' L t (⟨d, cp, p, kids d⟩ :: ⟨d, cs, s, kids d.opp⟩ :: ctx) ∧ Rewrites L tm tm' := by
  have hup := h.up
  rw [Frame.fill, ← pick_eta d kids] at hup
  obtain ⟨tm', hrun, hat, hrw⟩ := hup.rotate
  exact ⟨tm', hrun, hat.down.down, hrw⟩

theorem At.rotate_grandparent {g : Entry κ ν} {cg : Color} {sp sg : Tree (Entry κ ν)}
    (h : At tm L t (⟨d, cp, p, sp⟩ :: ⟨d, cg, g, sg⟩ :: ctx)) :
    ∃ tm', SgTreeMap.rotate d.opp tm (some g.addr) = some tm' ∧
      At tm' L t (⟨d, cp, p, .node cg g (pick d sp sg)⟩ :: ctx) ∧ Rewrites L tm tm' := by
  have hup := h.up.up
  rw [Frame.fill, Frame.fill, ← pick_opp_left, ← pick_opp_left d] at hup
  obtain ⟨tm', hrun, hat, hrw⟩ := hup.rotate
  rw [pick_opp_left, pick_opp_left] at hat
  exact ⟨tm', hrun, hat.down, hrw⟩

end below

end Sagittarius.TreeMap
