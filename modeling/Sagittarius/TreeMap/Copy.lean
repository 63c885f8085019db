import Sagittarius.TreeMap.Stored

/-!
# Copies

`copy_tree` makes nodes of its own: the copy has the shape, the colours and the contents of the
tree, and the nodes that were there before do not change.

* `Extends` : memory has only been allocated;
* `CopyOf` : the new nodes hold a copy;
* `copies`, `At.rbCopy` : `copy_tree` and `rb_copy` make one.
-/

namespace Sagittarius.TreeMap

variable {κ ν : Type} {tm tm' tm'' : SgTreeMap κ ν} {t t' : Tree (Entry κ ν)} {par : Option ℕ}

/-- The key and the value of an entry. -/
def Entry.pair (e : Entry κ ν) : κ × ν := (e.key, e.value)

/-- Only new nodes have been written. -/
structure Extends (tm tm' : SgTreeMap κ ν) : Prop where
  fresh : tm.fresh ≤ tm'.fresh
  below : ∀ a < tm.fresh, tm'.mem a = tm.mem a
  root : tm'.root = tm.root
  entryCount : tm'.entryCount = tm.entryCount

/-- The nodes allocated from `tm` to `tm'` hold a copy of `t` below the parent `par`. -/
structure CopyOf (tm tm' : SgTreeMap κ ν) (par : Option ℕ) (t t' : Tree (Entry κ ν)) : Prop where
  stored : Stored tm'.mem par t'
  pairs : t'.map Entry.pair = t.map Entry.pair
  nodup : (addrs t').Nodup
  above : ∀ a ∈ addrs t', tm.fresh ≤ a ∧ a < tm'.fresh

variable [Inhabited ν]

/-- What `copy_tree` does with a tree. -/
def Copies (n : ℕ) (t : Tree (Entry κ ν)) : Prop :=
  ∀ (tm : SgTreeMap κ ν) (par par' : Option ℕ) (a : ℕ), Stored tm.mem par t → ptr t = some a →
    (∀ x ∈ addrs t, x < tm.fresh) →
    ∃ tm' t' c, tm.copyTree n par' a = some (tm', c) ∧ Extends tm tm' ∧
      CopyOf tm tm' par' t t' ∧ ptr t' = some c

theorem Copies.copyChild {n e : ℕ} {nd : Node κ ν} (h : Copies n t) (hst : Stored tm.mem par t)
    (ht : ∀ x ∈ addrs t, x < tm.fresh) (he : e < tm.fresh) (hnd : tm.mem e = some nd) (d : Side)
    (hnone : nd.child d = none) :
    ∃ tm' t', tm.copyChild (SgTreeMap.copyTree n) d (ptr t) e = some tm' ∧
      tm.fresh ≤ tm'.fresh ∧ (∀ a < tm.fresh, a ≠ e → tm'.mem a = tm.mem a) ∧
      tm'.root = tm.root ∧ tm'.entryCount = tm.entryCount ∧
      tm'.mem e = some { nd with child := pick d (ptr t') (nd.child d.opp) } ∧
      CopyOf tm tm' (some e) t t' := by
  cases hp : ptr t with
  | none =>
    cases t with
    | node => cases hp
    | leaf =>
      refine ⟨tm, .leaf, rfl, le_rfl, fun _ _ _ => rfl, rfl, rfl, ?_, trivial, rfl,
        List.nodup_nil, nofun⟩
      rw [hnd, ptr_leaf, ← hnone, pick_eta]
  | some a =>
    obtain ⟨tm₁, t', c, hrun, hext, hcopy, hc⟩ := h tm par (some e) a hst hp ht
    have hne : ∀ x ∈ addrs t', x ≠ e := fun x hx => ((hcopy.above x hx).1.trans_lt' he).ne'
    refine ⟨tm₁.setChild e d (some c), t', ?_, hext.fresh, ?_, hext.root, hext.entryCount, ?_,
      ?_, hcopy.pairs, hcopy.nodup, hcopy.above⟩
    · rw [SgTreeMap.copyChild, hrun]
      rfl
    · intro x hx hxe
      exact (if_neg hxe).trans (hext.below x hx)
    · rw [SgTreeMap.setChild, modify_mem, if_pos rfl, hext.below e he, hnd, hc]
      rfl
    · exact hcopy.stored.congr fun x hx => if_neg (hne x hx)

theorem copies_succ {n : ℕ} {c : Color} {e : Entry κ ν} {kids : Side → Tree (Entry κ ν)}
    (h : ∀ d, Copies n (kids d)) : Copies (n + 1) (.node c e kids) := by
  rintro tm par par' a ⟨hself, hkids⟩ ha hfresh
  obtain rfl : e.addr = a := Option.some.inj ha
  have hold : ∀ d, ∀ x ∈ addrs (kids d), x < tm.fresh := by
    intro d x hx
    refine hfresh x ?_
    rw [← pick_eta d kids, mem_addrs_pick]
    exact .inr (.inl hx)
  -- the node of the copy, still without children
  set tm₁ := (tm.newNode e.key par').1.modify tm.fresh fun m =>
    { m with value := e.value, color := c } with htm₁
  have hmem₁ : ∀ x < tm.fresh, tm₁.mem x = tm.mem x := fun x hx =>
    (if_neg hx.ne).trans (if_neg hx.ne)
  have hnew₁ : tm₁.mem tm.fresh =
      some (nodeOf c ⟨tm.fresh, e.key, e.value⟩ par' fun _ => none) := by
    rw [htm₁, modify_mem, if_pos rfl, show (tm.newNode e.key par').1.mem tm.fresh = _ from
      if_pos rfl]
    rfl
  obtain ⟨tm₂, l, hrun₂, hle₂, hmem₂, hroot₂, hcount₂, hnew₂, hl⟩ :=
    (h .left).copyChild ((hkids .left).congr fun x hx => hmem₁ x (hold .left x hx))
      (fun x hx => Nat.lt_succ_of_lt (hold .left x hx)) (Nat.lt_succ_self _) hnew₁ .left rfl
  have hkeep₂ : ∀ x < tm.fresh, tm₂.mem x = tm.mem x := fun x hx =>
    (hmem₂ x (Nat.lt_succ_of_lt hx) hx.ne).trans (hmem₁ x hx)
  obtain ⟨tm₃, r, hrun₃, hle₃, hmem₃, hroot₃, hcount₃, hnew₃, hr⟩ :=
    (h .right).copyChild ((hkids .right).congr fun x hx => hkeep₂ x (hold .right x hx))
      (fun x hx => lt_of_lt_of_le (Nat.lt_succ_of_lt (hold .right x hx)) hle₂)
      (lt_of_lt_of_le (Nat.lt_succ_self _) hle₂) hnew₂ .right rfl
  have hlfresh : ∀ x ∈ addrs l, tm.fresh < x ∧ x < tm₂.fresh := hl.above
  have hrfresh : ∀ x ∈ addrs r, tm₂.fresh ≤ x ∧ x < tm₃.fresh := hr.above
  have hnew_lt : tm.fresh < tm₂.fresh := lt_of_lt_of_le (Nat.lt_succ_self _) hle₂
  refine ⟨tm₃, .node c ⟨tm.fresh, e.key, e.value⟩ (pick .left l r), tm.fresh, ?_,
    ⟨?_, ?_, ?_, ?_⟩, ⟨⟨?_, forall_pick.2 ⟨?_, hr.stored⟩⟩, ?_, ?_, ?_⟩, rfl⟩
  · rw [SgTreeMap.copyTree, hself]
    exact (congrArg (Option.bind · _) hrun₂).trans (congrArg (Option.bind · _) hrun₃)
  · exact (Nat.le_succ _).trans (hle₂.trans hle₃)
  · intro x hx
    exact (hmem₃ x (hx.trans hnew_lt) hx.ne).trans (hkeep₂ x hx)
  · exact hroot₃.trans hroot₂
  · exact hcount₃.trans hcount₂
  · rw [comp_pick, hnew₃]
    have hchild : pick Side.left.opp (ptr r) (pick .left (ptr l) none .left) =
        pick .left (ptr l) (ptr r) := by
      rw [pick_self, pick_opp_left]
    exact congrArg (fun k => some (nodeOf c ⟨tm.fresh, e.key, e.value⟩ par' k)) hchild
  · exact hl.stored.congr fun x hx => hmem₃ x (hlfresh x hx).2 (hlfresh x hx).1.ne'
  · rw [Tree.map, comp_pick, hl.pairs, hr.pairs, Tree.map]
    exact congrArg _ (pick_eta .left fun d => (kids d).map Entry.pair)
  · rw [(perm_addrs_pick ..).nodup_iff, List.nodup_cons, List.nodup_append, List.mem_append]
    have hl_nodup := hl.nodup
    have hr_nodup := hr.nodup
    grind
  · intro x hx
    rw [mem_addrs_pick] at hx
    dsimp only at hx
    grind

/-- **`copy_tree` makes a copy.** -/
theorem copies {n : ℕ} (t : Tree (Entry κ ν)) (hn : t.inorder.length ≤ n) : Copies n t := by
  induction t generalizing n with
  | leaf => rintro tm par par' a - ⟨⟩
  | node c e kids ih =>
    simp only [Tree.inorder, List.length_append, List.length_cons] at hn
    obtain _ | k := n
    · omega
    refine copies_succ fun d => ih d ?_
    cases d <;> omega

/-- **`rb_copy` makes a copy of the map.** -/
theorem At.rbCopy {L : List ℕ} (h : At tm L t []) (hfresh : ∀ a ∈ addrs t, a < tm.fresh) {n : ℕ}
    (hn : t.inorder.length ≤ n) :
    ∃ tm' t', tm.rbCopy n = some tm' ∧ At tm' (addrs t') t' [] ∧
      t'.map Entry.pair = t.map Entry.pair ∧ (∀ a ∈ addrs t', a < tm'.fresh) ∧
      tm'.entryCount = tm.entryCount := by
  cases hp : ptr t with
  | none =>
    refine ⟨tm, t, ?_, h.own, rfl, hfresh, rfl⟩
    rw [SgTreeMap.rbCopy, show tm.root = none from h.path.trans hp]
  | some a =>
    obtain ⟨tm₁, t', c, hrun, hext, hcopy, hc⟩ := copies t hn tm none none a h.tree hp hfresh
    refine ⟨{ tm₁ with root := some c }, t', ?_, ⟨hcopy.stored, hc.symm, ?_, hcopy.nodup⟩,
      hcopy.pairs, fun x hx => (hcopy.above x hx).2, hext.entryCount⟩
    · rw [SgTreeMap.rbCopy, show tm.root = some a from h.path.trans hp]
      simp only [hrun, Option.bind_eq_bind, Option.bind_some]
    · simp [pathAddrs]

end Sagittarius.TreeMap
