import Sagittarius.Library.Entries
import Sagittarius.TreeMap.Copy
import Sagittarius.TreeMap.Insertion
import Sagittarius.TreeMap.Removal
import Sagittarius.TreeMap.Search

/-!
# Tree maps are finite maps

Sequences of `rb_set`, `rb_delete` and `rb_copy` from the empty tree, compared with finite maps.

* `Op` : the operations, on trees and on finite maps;
* `Represents` : the memory holds a tree with ascending keys that has the entries of a finite map;
* `Represents.run` : every operation keeps this.
-/

namespace Sagittarius.TreeMap

open List Sagittarius.Tree Finmap Entries

variable {κ ν : Type} {tm tm' : SgTreeMap κ ν} {L : List ℕ} {c : Color} {e : Entry κ ν}
  {t : Tree (Entry κ ν)} {ctx : List (Frame (Entry κ ν))}

/-! ### Insertion of a node -/

section

variable [LinearOrder κ]

/-- What the loop of `rb_set` returns. -/
def pointOf : Tree (Entry κ ν) × List (Frame (Entry κ ν)) → Option (ℕ ⊕ ℕ × Side)
  | (.node _ e _, _) => some (.inl e.addr)
  | (.leaf, f :: _) => some (.inr (f.entry.addr, f.side))
  | (.leaf, []) => none

theorem At.insertionPoint (h : At tm L t ctx) (key : κ) {a n : ℕ} (ht : ptr t = some a)
    (hn : t.inorder.length < n) (ctx' : List (Frame (Entry κ ν))) :
    tm.insertionPoint key n a = pointOf (TreeMap.descend key t ctx') := by
  induction t generalizing ctx ctx' a n with
  | leaf => cases ht
  | node c e kids ih =>
    obtain _ | k := n
    · cases hn
    simp only [inorder, length_append, length_cons] at hn
    obtain rfl := Option.some.inj ht
    rw [SgTreeMap.insertionPoint, h.mem_root, TreeMap.descend]
    dsimp only [Option.bind_eq_bind, Option.bind_some, nodeOf_key, nodeOf_child]
    have hend : ∀ d, ptr (kids d) = none → some (.inr (e.addr, d)) =
        pointOf (TreeMap.descend key (kids d) (⟨d, c, e, kids d.opp⟩ :: ctx')) := fun d hk => by
      cases hkid : kids d with
      | leaf => rfl
      | node ck ek kkids => simp [hkid] at hk
    have hlen : ∀ d, (kids d).inorder.length < k := fun d => by cases d <;> omega
    cases cmp key e.key with
    | lt | gt =>
      dsimp only
      split
      · exact hend _ ‹_›
      · exact ih _ (h.kid _) ‹_› (hlen _) _
    | eq => rfl

end

theorem At.newNode [Inhabited ν] {f : Frame (Entry κ ν)} (h : At tm L .leaf (f :: ctx))
    (hfresh : ∀ a ∈ L, a < tm.fresh) (key : κ) :
    At ((tm.newNode key (some f.entry.addr)).1.setChild f.entry.addr f.side (some tm.fresh))
      (tm.fresh :: L) (.node .black ⟨tm.fresh, key, default⟩ fun _ => .leaf) (f :: ctx) := by
  have hnodup := h.perm.nodup_iff.2 h.nodup
  rw [addrs_leaf, nil_append, pathAddrs, nodup_cons] at hnodup
  have hL : ∀ a ∈ f.entry.addr :: (addrs f.sibling ++ pathAddrs ctx), a ≠ tm.fresh :=
    fun a ha => (hfresh a (h.perm.subset ha)).ne
  obtain ⟨hself, hsib, hpath⟩ := h.path
  have hf : f.entry.addr ≠ tm.fresh := hL _ (mem_cons_self ..)
  have hmem : ∀ a ∈ addrs f.sibling ++ pathAddrs ctx,
      ((tm.newNode key (some f.entry.addr)).1.setChild f.entry.addr f.side (some tm.fresh)).mem a =
        tm.mem a := by
    intro a ha
    exact (if_neg (ne_of_mem_of_not_mem ha hnodup.1)).trans
      (if_neg (hL a (mem_cons_of_mem _ ha)))
  refine ⟨⟨?_, fun _ => trivial⟩, ⟨?_, ?_, ?_⟩, ?_, ?_⟩
  · exact (if_neg hf.symm).trans (if_pos rfl)
  · refine (if_pos rfl).trans ?_
    rw [show (tm.newNode key (some f.entry.addr)).1.mem f.entry.addr = tm.mem f.entry.addr from
      if_neg hf, hself]
    simp [nodeOf]
  · exact hsib.congr fun a ha => hmem a (mem_append_left _ ha)
  · exact hpath.congr fun a ha => hmem a (mem_append_right _ ha)
  · exact h.perm.cons _
  · exact nodup_cons.2 ⟨fun hmem => (hfresh _ hmem).ne rfl, h.nodup⟩

/-! ### Values -/

/-- The entries of a tree with another value at an address. -/
def writeValue (a : ℕ) (v : ν) (e : Entry κ ν) : Entry κ ν :=
  if e.addr = a then { e with value := v } else e

section

variable (a : ℕ) (v : ν)

@[simp] theorem writeValue_addr (e : Entry κ ν) : (writeValue a v e).addr = e.addr := by
  rw [writeValue]
  split <;> rfl

@[simp] theorem writeValue_key (e : Entry κ ν) : (writeValue a v e).key = e.key := by
  rw [writeValue]
  split <;> rfl

@[simp] theorem ptr_map_writeValue (t : Tree (Entry κ ν)) :
    ptr (t.map (writeValue a v)) = ptr t := by
  cases t with
  | leaf => rfl
  | node c e kids => simp [Tree.map]

theorem addrs_map_writeValue (t : Tree (Entry κ ν)) : addrs (t.map (writeValue a v)) = addrs t := by
  simp [addrs, inorder_map]

end

theorem Stored.writeValue {par : Option ℕ} (h : Stored tm.mem par t) (a : ℕ) (v : ν) :
    Stored (tm.modify a fun n => { n with value := v }).mem par
      (t.map (TreeMap.writeValue a v)) := by
  induction t generalizing par with
  | leaf => trivial
  | node c e kids ih =>
    obtain ⟨hself, hkids⟩ := h
    refine ⟨?_, fun d => ?_⟩
    · rw [writeValue_addr, modify_mem]
      by_cases hea : e.addr = a
      · subst hea
        simp [hself, TreeMap.writeValue, nodeOf]
      · simp [hself, TreeMap.writeValue, nodeOf, hea]
    · rw [writeValue_addr]
      exact ih d (hkids d)

theorem At.writeValue (h : At tm L t []) (a : ℕ) (v : ν) :
    At (tm.modify a fun n => { n with value := v }) L (t.map (writeValue a v)) [] := by
  refine ⟨h.tree.writeValue a v, ?_, ?_, h.nodup⟩
  · rw [ptr_map_writeValue]
    exact h.path
  · rw [addrs_map_writeValue]
    exact h.perm

theorem mem_contents {es : List (Entry κ ν)} {k : κ} {v : ν} :
    (k, v) ∈ contents es ↔ ∃ x ∈ es, x.key = k ∧ x.value = v := by
  simp [contents]

theorem contents_eq_of_pairs {t' : Tree (Entry κ ν)}
    (h : t'.map Entry.pair = t.map Entry.pair) :
    contents t'.inorder = contents t.inorder := by
  have hin := congrArg inorder h
  rwa [inorder_map, inorder_map] at hin

/-! ### What the operations do to trees -/

section

variable [LinearOrder κ]

/-- The memory holds a tree with ascending keys, and its entries are counted. -/
structure Holds (tm : SgTreeMap κ ν) (t : Tree (Entry κ ν)) : Prop where
  held : At tm (addrs t) t []
  sorted : Sorted t.inorder
  fresh : ∀ a ∈ addrs t, a < tm.fresh
  count : tm.entryCount = t.inorder.length

/-- `rb_set` on trees -/
def insertTree [Inhabited ν] (key : κ) (a : ℕ) (t : Tree (Entry κ ν)) : Tree (Entry κ ν) :=
  match descend key t [] with
  | (.leaf, ctx) =>
    (fixInsertion (.node .red ⟨a, key, default⟩ fun _ => .leaf) ctx).paint .black
  | (.node .., _) => t

/-- `rb_delete` on trees -/
def deleteTree (key : κ) (t : Tree (Entry κ ν)) : Tree (Entry κ ν) :=
  match descend key t [] with
  | (.leaf, _) => t
  | (.node c e kids, ctx) => plug (removal c e kids ctx).rep (removal c e kids ctx).fixed

variable {key : κ}

theorem Sorted.split_of_leaf (h : Sorted t.inorder) {ctx : List (Frame (Entry κ ν))}
    (hd : descend key t [] = (.leaf, ctx)) :
    t.inorder = before ctx ++ after ctx ∧ Between key ctx := by
  have hplug := congrArg inorder (plug_descend key t [])
  have hbetween := (show Between key ([] : List (Frame (Entry κ ν))) from ⟨nofun, nofun⟩).descend h
  rw [hd] at hplug hbetween
  rw [inorder_plug] at hplug
  exact ⟨by simpa [inorder, plug] using hplug.symm, hbetween⟩

theorem Sorted.ne_of_leaf (h : Sorted t.inorder) (hd : descend key t [] = (.leaf, ctx)) :
    ∀ x ∈ t.inorder, x.key ≠ key := by
  obtain ⟨hsplit, hbetween⟩ := h.split_of_leaf hd
  rw [hsplit]
  intro x hx
  rcases mem_append.1 hx with hx | hx
  · exact (hbetween.before x hx).ne
  · exact (hbetween.after x hx).ne'

theorem inorder_insertTree [Inhabited ν] {ctx : List (Frame (Entry κ ν))} (a : ℕ)
    (hd : descend key t [] = (.leaf, ctx)) :
    (insertTree key a t).inorder = before ctx ++ ⟨a, key, default⟩ :: after ctx := by
  rw [insertTree, hd]
  simp only [inorder_paint, inorder_fixInsertion, inorder_plug, inorder]
  simp

theorem Sorted.insert (hsort : Sorted (before ctx ++ after ctx)) (h : Between key ctx) (a : ℕ)
    (v : ν) : Sorted (before ctx ++ ⟨a, key, v⟩ :: after ctx) := by
  rw [Sorted, pairwise_append] at hsort ⊢
  obtain ⟨hb, ha, hba⟩ := hsort
  refine ⟨hb, pairwise_cons.2 ⟨h.after, ha⟩, ?_⟩
  intro x hx y hy
  rcases mem_cons.1 hy with rfl | hy
  · exact h.before x hx
  · exact hba x hx y hy

theorem Sorted.insertTree [Inhabited ν] (h : Sorted t.inorder) (key : κ) (a : ℕ) :
    Sorted (TreeMap.insertTree key a t).inorder := by
  rcases hd : descend key t [] with ⟨_ | ⟨c, e, kids⟩, ctx⟩
  · obtain ⟨hsplit, hbetween⟩ := h.split_of_leaf hd
    rw [inorder_insertTree a hd]
    exact Sorted.insert (hsplit ▸ h) hbetween _ _
  · rwa [TreeMap.insertTree, hd]

theorem Holds.insertTree [Inhabited ν] (h : Holds tm t) (hd : descend key t [] = (.leaf, ctx))
    (hat : At tm' L (insertTree key tm.fresh t) []) (hfresh : tm'.fresh = tm.fresh + 1)
    (hcount : tm'.entryCount = tm.entryCount + 1) : Holds tm' (insertTree key tm.fresh t) := by
  have hin := inorder_insertTree (ν := ν) tm.fresh hd
  have hsplit := (h.sorted.split_of_leaf hd).1
  refine ⟨hat.own, h.sorted.insertTree key _, ?_, ?_⟩
  · intro a ha
    have hold := h.fresh
    rw [addrs, hin] at ha
    rw [addrs, hsplit] at hold
    simp only [map_append, map_cons, mem_append, mem_cons] at ha hold
    rw [hfresh]
    rcases ha with ha | rfl | ha
    · exact (hold a (.inl ha)).trans (Nat.lt_succ_self _)
    · exact Nat.lt_succ_self _
    · exact (hold a (.inr ha)).trans (Nat.lt_succ_self _)
  · rw [hin, hcount, h.count, hsplit]
    simp
    omega

variable {n : ℕ}

/-- **`rb_set` inserts an entry, or finds the one that is there.** -/
theorem Holds.rbSet [Inhabited ν] (h : Holds tm t) (key : κ) (hn : t.inorder.length < n) :
    ∃ tm' a, tm.rbSet n key = some (tm', a) ∧ Holds tm' (TreeMap.insertTree key tm.fresh t) ∧
      (∃ e ∈ (TreeMap.insertTree key tm.fresh t).inorder, e.key = key ∧ e.addr = a) ∧
      (tm'.fresh = tm.fresh + 1 ∨ TreeMap.insertTree key tm.fresh t = t) := by
  have hplug := plug_descend key t []
  have hat := h.held.descend key
  rcases hd : descend key t [] with ⟨_ | ⟨c, e, kids⟩, ctx⟩
  · rw [hd] at hplug hat
    have hnew : (⟨tm.fresh, key, default⟩ : Entry κ ν) ∈
        (TreeMap.insertTree key tm.fresh t).inorder := by
      rw [inorder_insertTree _ hd]
      simp
    have htree : TreeMap.insertTree key tm.fresh t =
        (fixInsertion (.node .red ⟨tm.fresh, key, default⟩ fun _ => .leaf) ctx).paint .black := by
      rw [TreeMap.insertTree, hd]
    cases ctx with
    | nil =>
      obtain rfl : t = .leaf := hplug.symm
      refine ⟨{ (tm.newNode key none).1 with
          root := some tm.fresh
          entryCount := tm.entryCount + 1 }, tm.fresh, ?_,
        h.insertTree hd (L := [tm.fresh]) ?_ rfl rfl, ⟨_, hnew, rfl, rfl⟩, .inl rfl⟩
      · rw [SgTreeMap.rbSet, show tm.root = none from h.held.path]
        rfl
      · rw [htree]
        exact ⟨⟨if_pos rfl, fun _ => trivial⟩, rfl, .refl _, nodup_singleton _⟩
    | cons f ctx =>
      obtain ⟨r, hr⟩ : ∃ r, ptr t = some r := by
        cases t with
        | leaf => cases hd
        | node c e kids => exact ⟨e.addr, rfl⟩
      have h₁ := hat.newNode h.fresh key
      have hlen := hat.length_le
      rw [addrs, length_map] at hlen
      obtain ⟨tm₂, hrun₂, h₂, hrw₂⟩ := h₁.fixAfterInsertion (n := n) (by
        simp only [inorder, length_nil, length_cons] at hlen ⊢
        omega)
      refine ⟨{ tm₂ with entryCount := tm₂.entryCount + 1 }, tm.fresh, ?_,
        h.insertTree hd (L := tm.fresh :: addrs t) ?_ hrw₂.fresh ?_, ⟨_, hnew, rfl, rfl⟩,
        .inl hrw₂.fresh⟩
      · have hpoint := h.held.insertionPoint key hr hn []
        rw [hd] at hpoint
        rw [SgTreeMap.rbSet, show tm.root = some r from h.held.path.trans hr]
        simp only [hpoint, pointOf, Option.bind_eq_bind, Option.bind_some,
          show (tm.newNode key (some f.entry.addr)).2 = tm.fresh from rfl, hrun₂]
      · rw [htree]
        exact ⟨h₂.tree, h₂.path, h₂.perm, h₂.nodup⟩
      · exact congrArg (· + 1) hrw₂.entryCount
  · have hkey : e.key = key := key_of_descend hd
    have hsame : TreeMap.insertTree key tm.fresh t = t := by rw [TreeMap.insertTree, hd]
    rw [hd] at hplug
    have he : e ∈ t.inorder := by
      rw [← show _ = t from hplug, inorder_plug]
      simp [inorder]
    refine ⟨tm, e.addr, ?_, by rwa [hsame], ⟨e, by rwa [hsame], hkey, rfl⟩, .inr hsame⟩
    cases ht : ptr t with
    | none =>
      cases t with
      | leaf => cases he
      | node => cases ht
    | some a =>
      rw [SgTreeMap.rbSet, show tm.root = some a from h.held.path.trans ht]
      simp only [h.held.insertionPoint key ht hn [], hd, pointOf]
      rfl

theorem Holds.writeValue (h : Holds tm t) (a : ℕ) (v : ν) :
    Holds (tm.modify a fun n => { n with value := v }) (t.map (writeValue a v)) := by
  refine ⟨(h.held.writeValue a v).own, ?_, ?_, ?_⟩
  · rw [inorder_map, Sorted, pairwise_map]
    simp only [writeValue_key]
    exact h.sorted
  · rw [addrs_map_writeValue]
    exact h.fresh
  · rw [inorder_map, length_map]
    exact h.count

theorem sorted_iff {es : List (Entry κ ν)} :
    Sorted es ↔ (contents es).Pairwise fun a b => a.1 < b.1 := by
  rw [Sorted, contents, pairwise_map]

/-- The node of the key has two children. -/
def HasTwoChildren (key : κ) (t : Tree (Entry κ ν)) : Prop :=
  match descend key t [] with
  | (.leaf, _) => False
  | (.node _ _ kids, _) => HasBoth kids

instance (key : κ) (t : Tree (Entry κ ν)) : Decidable (HasTwoChildren key t) := by
  unfold HasTwoChildren
  split
  · exact inferInstanceAs (Decidable False)
  · exact inferInstanceAs (Decidable (HasBoth _))

theorem contents_deleteTree {kids : Side → Tree (Entry κ ν)}
    (hd : descend key t [] = (.node c e kids, ctx)) :
    ∃ es es', t.inorder = es ++ e :: es' ∧ e.key = key ∧
      contents (deleteTree key t).inorder = contents (es ++ es') := by
  have hplug := congrArg inorder (plug_descend key t [])
  rw [hd, inorder_plug] at hplug
  refine ⟨before ctx ++ (kids .left).inorder, (kids .right).inorder ++ after ctx, ?_,
    key_of_descend hd, ?_⟩
  · rw [← show _ = t.inorder from hplug]
    simp [inorder]
  · rw [deleteTree, hd]
    simp only [contents_removal c e kids ctx rfl, append_assoc]

section

variable {es es' : List (Entry κ ν)}

theorem Sorted.inorder_deleteTree_of_not (h : Sorted t.inorder) (hin : t.inorder = es ++ e :: es')
    (hnot : ¬ HasTwoChildren e.key t) : (deleteTree e.key t).inorder = es ++ es' := by
  obtain ⟨c, kids, ctx, hd, rfl, rfl⟩ := h.descend_eq hin
  rw [HasTwoChildren, hd] at hnot
  rw [deleteTree, hd]
  simp only [(inorder_removal_of_not hnot).2, append_assoc]

theorem Sorted.inorder_deleteTree_of_both (h : Sorted t.inorder) (hin : t.inorder = es ++ e :: es')
    (hboth : HasTwoChildren e.key t) :
    ∃ s rest, es' = s :: rest ∧
      (deleteTree e.key t).inorder = es ++ ⟨e.addr, s.key, s.value⟩ :: rest := by
  obtain ⟨c, kids, ctx, hd, rfl, rfl⟩ := h.descend_eq hin
  rw [HasTwoChildren, hd] at hboth
  obtain ⟨s, rest, hright, hdel⟩ := inorder_removal_of_both c e ctx hboth
  refine ⟨s, rest ++ after ctx, by rw [hright, cons_append], ?_⟩
  rw [deleteTree, hd]
  simp only [hdel, append_assoc, cons_append]

end

/-- **`rb_delete` takes an entry out, if it is there.**  What the node of the entry holds stays in
memory if it had at most one child. -/
theorem Holds.rbDelete (h : Holds tm t) (key : κ) (hn : t.inorder.length < n) :
    ∃ tm', tm.rbDelete n key =
        some (tm', (t.inorder.find? (·.key = key)).map Entry.addr) ∧
      Holds tm' (deleteTree key t) ∧ tm'.fresh = tm.fresh ∧
      (¬ HasTwoChildren key t → ∀ e ∈ t.inorder, e.key = key → Keeps tm'.mem e) := by
  have hplug := plug_descend key t []
  have hat := h.held.descend key
  have hget := h.held.getEntry h.sorted key (by rwa [addrs, length_map])
  have hfind := h.sorted.find_eq key
  rcases hd : descend key t [] with ⟨_ | ⟨c, e, kids⟩, ctx⟩
  · rw [hd, ptr_leaf] at hfind
    rw [hfind] at hget ⊢
    refine ⟨tm, ?_, by rwa [deleteTree, hd], rfl, fun _ e he _ => h.held.tree.keeps he⟩
    rw [SgTreeMap.rbDelete, hget]
    rfl
  · rw [hd] at hplug hat
    rw [hd, ptr_node] at hfind
    rw [hfind] at hget ⊢
    obtain ⟨tm', hrun, hat', hkeep, hrw⟩ := hat.deleteEntry (n := n)
      (by rw [addrs, length_map]; omega) rfl
    obtain ⟨es, es', hin, hkey, hdel⟩ := contents_deleteTree hd
    refine ⟨tm', ?_, ?_, hrw.fresh, ?_⟩
    · rw [SgTreeMap.rbDelete, hget]
      simp only [Option.bind_eq_bind, Option.bind_some, hrun, Option.map_some]
    · have hsort := sorted_iff.1 h.sorted
      have hcount := h.count
      rw [hin] at hsort hcount
      have htree : deleteTree key t =
          plug (removal c e kids ctx).rep (removal c e kids ctx).fixed := by
        rw [deleteTree, hd]
      rw [At.plug_iff, ← htree] at hat'
      refine ⟨hat'.own, ?_, ?_, ?_⟩
      · rw [sorted_iff, hdel]
        refine hsort.sublist (List.Sublist.map _ ?_)
        exact (sublist_cons_self e es').append_left es
      · intro a ha
        rw [hrw.fresh]
        have := hat'.perm.subset (mem_append_left _ ha)
        exact h.fresh a (mem_of_mem_erase this)
      · rw [hrw.entryCount]
        have := congrArg length hdel
        simp [contents] at this hcount ⊢
        omega
    · intro hnot x hx hxkey
      rw [HasTwoChildren, hd] at hnot
      have he : e ∈ t.inorder := by
        rw [hin]
        simp
      obtain rfl := h.sorted.eq_of_key hx he (hxkey.trans hkey.symm)
      rwa [(inorder_removal_of_not hnot).1] at hkeep

/-- **`rb_copy` keeps everything but the addresses.** -/
theorem Holds.rbCopy [Inhabited ν] (h : Holds tm t) (hn : t.inorder.length ≤ n) :
    ∃ tm' t', tm.rbCopy n = some tm' ∧ Holds tm' t' ∧ t'.map Entry.pair = t.map Entry.pair := by
  obtain ⟨tm', t', hrun, hat, hpairs, hfresh, hcount⟩ := h.held.rbCopy h.fresh hn
  have hcontents := contents_eq_of_pairs hpairs
  refine ⟨tm', t', hrun, ⟨hat, ?_, hfresh, ?_⟩, hpairs⟩
  · rw [sorted_iff, hcontents, ← sorted_iff]
    exact h.sorted
  · have hlen := congrArg length hcontents
    rw [contents, contents, length_map, length_map] at hlen
    rw [hcount, h.count, hlen]

/-! ### Finite maps -/

/-- An operation: `rb_set`, after which the caller may store a value in the entry, `rb_delete`, or
going on with what `rb_copy` returns. -/
inductive Op (κ ν : Type)
  | set (key : κ) (value : Option ν)
  | delete (key : κ)
  | copy

/-- The operation on a tree map. -/
def Op.run [Inhabited ν] (n : ℕ) (tm : SgTreeMap κ ν) : Op κ ν → Option (SgTreeMap κ ν)
  | .set key value => do
    let (tm, e) ← tm.rbSet n key
    some (match value with
      | none => tm
      | some v => tm.modify e fun n => { n with value := v })
  | .delete key => (tm.rbDelete n key).map Prod.fst
  | .copy => tm.rbCopy n

/-- The operation on a finite map; an entry that nothing has been stored in has the value of cleared
memory. -/
def Op.update [Inhabited ν] (m : Finmap fun _ : κ => ν) : Op κ ν → Finmap fun _ : κ => ν
  | .set key value => m.insert key (value.getD ((m.lookup key).getD default))
  | .delete key => m.erase key
  | .copy => m

/-- What the operation does to the tree; a new node has the address `a`. -/
def Op.Changes [Inhabited ν] (a : ℕ) (t t' : Tree (Entry κ ν)) : Op κ ν → Prop
  | .set key none => t' = insertTree key a t
  | .set key (some v) => ∃ e ∈ (insertTree key a t).inorder, e.key = key ∧
      t' = (insertTree key a t).map (writeValue e.addr v)
  | .delete key => t' = deleteTree key t
  | .copy => t'.map Entry.pair = t.map Entry.pair

/-- **Every operation ends, and changes the tree as described.** -/
theorem Holds.run [Inhabited ν] (h : Holds tm t) (op : Op κ ν) (hn : t.inorder.length < n) :
    ∃ tm' t', op.run n tm = some tm' ∧ Holds tm' t' ∧ op.Changes tm.fresh t t' := by
  cases op with
  | set key value =>
    obtain ⟨tm₁, a, hrun, h₁, ⟨e, he, rfl, rfl⟩, -⟩ := h.rbSet key hn
    cases value with
    | none => exact ⟨tm₁, _, by rw [Op.run, hrun]; rfl, h₁, rfl⟩
    | some v =>
      exact ⟨_, _, by rw [Op.run, hrun]; rfl, h₁.writeValue e.addr v, e, he, rfl, rfl⟩
  | delete key =>
    obtain ⟨tm₁, hrun, h₁, -⟩ := h.rbDelete key hn
    exact ⟨tm₁, _, by rw [Op.run, hrun]; rfl, h₁, rfl⟩
  | copy =>
    obtain ⟨tm₁, t', hrun, h₁, hpairs⟩ := h.rbCopy hn.le
    exact ⟨tm₁, t', hrun, h₁, hpairs⟩

/-- A lookup: `get_entry`, and the value of the entry. -/
def ref (n : ℕ) (tm : SgTreeMap κ ν) (key : κ) : Option (Option ν) := do
  match ← tm.getEntry n key with
  | none => some none
  | some p => (tm.mem p).map fun n => some n.value

/-- The tree has the entries of the finite map. -/
def Agrees (t : Tree (Entry κ ν)) (m : Finmap fun _ : κ => ν) : Prop :=
  ∀ k v, m.lookup k = some v ↔ (k, v) ∈ contents t.inorder

variable {m : Finmap fun _ : κ => ν}

section

variable (h : Agrees t m)

include h

theorem Agrees.lookup_of_mem (he : e ∈ t.inorder) : m.lookup e.key = some e.value :=
  (h _ _).2 (mem_contents.2 ⟨e, he, rfl, rfl⟩)

variable (hsort : Sorted t.inorder)

include hsort

theorem Agrees.lists : Lists (contents t.inorder) m := by
  refine ⟨?_, h⟩
  rw [contents, map_map]
  exact (pairwise_map.2 hsort).imp fun hlt => hlt.ne

theorem Agrees.notMem {key : κ} (hkey : ∀ x ∈ t.inorder, x.key ≠ key) : key ∉ m := by
  rw [(h.lists hsort).mem_iff, contents, map_map, mem_map]
  rintro ⟨x, hx, rfl⟩
  exact hkey x hx rfl

theorem Agrees.lists_cons {es es' : List (Entry κ ν)} (hin : t.inorder = es ++ e :: es') :
    Lists (e.pair :: contents (es ++ es')) m := by
  have hl := h.lists hsort
  rw [hin] at hl
  exact hl.perm (perm_middle.map _)

omit h hsort in
theorem agrees_of_lists {es es' : List (Entry κ ν)} (hin : t.inorder = es ++ e :: es')
    (hl : Lists (e.pair :: contents (es ++ es')) m) : Agrees t m := by
  rw [Agrees, hin]
  exact (hl.perm (perm_middle.symm.map Entry.pair)).lookup

theorem Agrees.insertTree [Inhabited ν] (key : κ) (a : ℕ) :
    Agrees (TreeMap.insertTree key a t) (m.insert key ((m.lookup key).getD default)) := by
  rcases hd : descend key t [] with ⟨_ | ⟨c, e, kids⟩, ctx⟩
  · have hnot := h.notMem hsort (hsort.ne_of_leaf hd)
    have hl := h.lists hsort
    rw [(hsort.split_of_leaf hd).1, ← erase_of_notMem hnot] at hl
    rw [lookup_eq_none.2 hnot]
    exact agrees_of_lists (inorder_insertTree a hd) (hl.insert default)
  · obtain ⟨es, es', hin, rfl, -⟩ := contents_deleteTree hd
    have hl := h.lists_cons hsort hin
    rw [TreeMap.insertTree, hd, (hl.lookup e.key e.value).2 (mem_cons_self ..)]
    exact agrees_of_lists hin (hl.erase.insert e.value)

theorem Agrees.writeValue (hnodup : (addrs t).Nodup) (he : e ∈ t.inorder) (v : ν) :
    Agrees (t.map (TreeMap.writeValue e.addr v)) (m.insert e.key v) := by
  obtain ⟨es, es', hin⟩ := append_of_mem he
  rw [addrs, hin, (perm_middle.map _).nodup_iff, map_cons, nodup_cons] at hnodup
  have hsame : ∀ x ∈ es ++ es', TreeMap.writeValue e.addr v x = x :=
    fun x hx => if_neg fun haddr => hnodup.1 (mem_map.2 ⟨x, hx, haddr⟩)
  have hwrite : (t.map (TreeMap.writeValue e.addr v)).inorder =
      es ++ { e with value := v } :: es' := by
    rw [forall_mem_append] at hsame
    rw [inorder_map, hin, map_append, map_cons, map_congr_left hsame.1, map_congr_left hsame.2,
      map_id', map_id', TreeMap.writeValue, if_pos rfl]
  exact agrees_of_lists hwrite ((h.lists_cons hsort hin).erase.insert v)

theorem Agrees.deleteTree (key : κ) : Agrees (TreeMap.deleteTree key t) (m.erase key) := by
  rcases hd : descend key t [] with ⟨_ | ⟨c, e, kids⟩, ctx⟩
  · rwa [TreeMap.deleteTree, hd, erase_of_notMem (h.notMem hsort (hsort.ne_of_leaf hd))]
  · obtain ⟨es, es', hin, rfl, hdel⟩ := contents_deleteTree hd
    rw [Agrees, hdel]
    exact (h.lists_cons hsort hin).erase.lookup

end

/-- The memory holds the entries of the finite map. -/
def Represents (tm : SgTreeMap κ ν) (m : Finmap fun _ : κ => ν) : Prop :=
  ∃ t, Holds tm t ∧ Agrees t m

theorem Agrees.card (h : Agrees t m) (hsort : Sorted t.inorder) :
    m.keys.card = t.inorder.length := by
  rw [← (h.lists hsort).length_eq, contents, length_map]

/-- **A lookup gives what the finite map has.** -/
theorem Holds.ref (h : Holds tm t) (hm : Agrees t m) (key : κ) (hn : t.inorder.length < n) :
    TreeMap.ref n tm key = some (m.lookup key) := by
  have hget := h.held.getEntry h.sorted key (by rwa [addrs, length_map])
  rw [TreeMap.ref, hget]
  cases hfind : t.inorder.find? (·.key = key) with
  | none =>
    have hnone : m.lookup key = none := by
      refine lookup_eq_none.2 (hm.notMem h.sorted fun x hx => ?_)
      simpa using find?_eq_none.1 hfind x hx
    rw [hnone]
    rfl
  | some e =>
    have he := mem_of_find?_eq_some hfind
    obtain rfl : e.key = key := by simpa using find?_some hfind
    obtain ⟨c, par, child, hmem⟩ := h.held.tree.keeps he
    rw [hm.lookup_of_mem he]
    simp [hmem, nodeOf]

/-- **Every operation does what it does on finite maps.** -/
theorem Agrees.changes [Inhabited ν] {t' : Tree (Entry κ ν)} {op : Op κ ν} {a : ℕ} (h : Agrees t m)
    (hsort : Sorted t.inorder) (hnodup : (addrs t').Nodup) (hop : op.Changes a t t') :
    Agrees t' (op.update m) := by
  cases op with
  | set key value =>
    have hins := h.insertTree hsort key a
    cases value with
    | none =>
      obtain rfl : t' = _ := hop
      exact hins
    | some v =>
      obtain ⟨e, he, rfl, rfl⟩ := hop
      rw [addrs_map_writeValue] at hnodup
      have hwrite := hins.writeValue (hsort.insertTree e.key a) hnodup he v
      rwa [insert_insert] at hwrite
  | delete key =>
    obtain rfl : t' = _ := hop
    exact h.deleteTree hsort key
  | copy =>
    intro k v
    rw [contents_eq_of_pairs hop]
    exact h k v

theorem Represents.run [Inhabited ν] (h : Represents tm m) (op : Op κ ν) (hn : m.keys.card < n) :
    ∃ tm', op.run n tm = some tm' ∧ Represents tm' (op.update m) := by
  obtain ⟨t, ht, hm⟩ := h
  rw [hm.card ht.sorted] at hn
  obtain ⟨tm', t', hrun, ht', hop⟩ := ht.run op hn
  exact ⟨tm', hrun, t', ht', hm.changes ht.sorted ht'.held.nodup hop⟩

theorem Op.card_update_le [Inhabited ν] (m : Finmap fun _ : κ => ν) (op : Op κ ν) :
    (op.update m).keys.card ≤ m.keys.card + 1 := by
  cases op with
  | set key value =>
    refine (Finset.card_le_card ?_).trans (Finset.card_insert_le key m.keys)
    intro k hk
    rw [Finmap.mem_keys, Op.update, mem_insert] at hk
    rwa [Finset.mem_insert, Finmap.mem_keys]
  | delete key =>
    refine (Finset.card_le_card fun k hk => ?_).trans (Nat.le_succ _)
    rw [Finmap.mem_keys, Op.update, mem_erase] at hk
    exact hk.2
  | copy => exact Nat.le_succ _

theorem Op.card_foldl_le [Inhabited ν] (ops : List (Op κ ν)) (m : Finmap fun _ : κ => ν) :
    (ops.foldl Op.update m).keys.card ≤ m.keys.card + ops.length := by
  induction ops generalizing m with
  | nil => exact le_rfl
  | cons op ops ih =>
    rw [foldl_cons, length_cons]
    have := ih (op.update m)
    have := op.card_update_le m
    omega

theorem Represents.foldlM [Inhabited ν] (h : Represents tm m) (ops : List (Op κ ν))
    (hn : m.keys.card + ops.length < n) :
    ∃ tm', ops.foldlM (Op.run n) tm = some tm' ∧ Represents tm' (ops.foldl Op.update m) := by
  induction ops generalizing tm m with
  | nil => exact ⟨tm, rfl, h⟩
  | cons op ops ih =>
    rw [length_cons] at hn
    obtain ⟨tm₁, hrun, h₁⟩ := h.run op (n := n) (by omega)
    have hcard := op.card_update_le m
    obtain ⟨tm₂, hruns, h₂⟩ := ih h₁ (by omega)
    refine ⟨tm₂, ?_, h₂⟩
    rw [foldlM_cons, hrun]
    exact hruns

theorem represents_empty : Represents (SgTreeMap.empty : SgTreeMap κ ν) ∅ :=
  ⟨.leaf, ⟨⟨trivial, rfl, .refl _, nodup_nil⟩, List.Pairwise.nil, nofun, rfl⟩, fun k v => by
    simp [contents, inorder]⟩

theorem exists_holds [Inhabited ν] (ops : List (Op κ ν)) (hn : ops.length < n) :
    ∃ (tm : SgTreeMap κ ν) (t : Tree (Entry κ ν)),
      ops.foldlM (Op.run n) SgTreeMap.empty = some tm ∧ Holds tm t ∧
      Agrees t (ops.foldl Op.update ∅) ∧ t.inorder.length ≤ ops.length := by
  obtain ⟨tm, hrun, t, ht, hm⟩ := represents_empty.foldlM ops (by
    rwa [keys_empty, Finset.card_empty, Nat.zero_add])
  have hle := Op.card_foldl_le ops (∅ : Finmap fun _ : κ => ν)
  rw [keys_empty, Finset.card_empty, Nat.zero_add, hm.card ht.sorted] at hle
  exact ⟨tm, t, hrun, ht, hm, hle⟩

/-- **Tree maps are finite maps**: with more fuel than there are operations, a sequence of
operations on the empty tree never dereferences `NULL`, its loops end, the memory holds a tree with
consistent links and ascending keys, and lookups and the entry count are those of the finite map. -/
theorem rb_is_finite_map [Inhabited ν] (ops : List (Op κ ν)) (spare : ℕ) :
    ∃ (tm : SgTreeMap κ ν) (t : Tree (Entry κ ν)),
      ops.foldlM (Op.run (ops.length + 1 + spare)) SgTreeMap.empty = some tm ∧
      tm.root = ptr t ∧ Stored tm.mem none t ∧ (addrs t).Nodup ∧
      (t.inorder.map Entry.key).Pairwise (· < ·) ∧
      tm.entryCount = (ops.foldl Op.update ∅).keys.card ∧
      ∀ key, ref (ops.length + 1 + spare) tm key = some ((ops.foldl Op.update ∅).lookup key) := by
  obtain ⟨tm, t, hrun, ht, hm, hle⟩ := exists_holds ops (n := ops.length + 1 + spare) (by omega)
  exact ⟨tm, t, hrun, ht.held.path, ht.held.tree, ht.held.nodup, pairwise_map.2 ht.sorted,
    by rw [ht.count, hm.card ht.sorted], fun key => ht.ref hm key (by omega)⟩

end

end Sagittarius.TreeMap
