import Mathlib.Data.Finset.Card
import Mathlib.Data.Finset.SDiff
import Sagittarius.Library.Recursion

/-!
# Depth-first search in order of preference

A graph whose nodes have successors in an order of preference; a label is passed along the edges.
The interesting nodes are its leaves.

* `paths` lists the leaves that the simple paths from a node end in, with the label each path
  arrives with, the preferred path first;
* `dfs` is depth-first search with a queue of the nodes that were seen, which finds each leaf at
  most once;
* `dfs_spec` : the search finds every leaf with the label of the preferred path to it, in the order
  of these paths.
-/

namespace Sagittarius

open List Prod

/-- Ordered successors, and labels that are passed along but do not influence where an edge goes. -/
structure OrderedGraph (ν σ : Type*) where
  /-- the successors of a node that are reached with a label -/
  next : ν → σ → List (ν × σ)
  /-- the nodes a path ends in -/
  leaf : ν → Bool
  /-- all nodes with successors -/
  inner : Finset ν
  next_fst : ∀ v s t, (next v s).map fst = (next v t).map fst
  mem_inner : ∀ v s, next v s ≠ [] → v ∈ inner

/-- `l`, and the elements of `l'` whose key is not in it yet. -/
def extendBy {ν σ : Type*} [DecidableEq ν] (l l' : List (ν × σ)) : List (ν × σ) :=
  l'.foldl (fun l e => if e.1 ∈ l.map fst then l else l ++ [e]) l

section extendBy

variable {ν σ : Type*} [DecidableEq ν] {l l' l'' : List (ν × σ)}

theorem extendBy_nil : extendBy l [] = l := rfl

theorem extendBy_cons (e : ν × σ) :
    extendBy l (e :: l') = extendBy (if e.1 ∈ l.map fst then l else l ++ [e]) l' := rfl

theorem extendBy_append : extendBy l (l' ++ l'') = extendBy (extendBy l l') l'' :=
  foldl_append

theorem extendBy_eq_self (h : ∀ v ∈ l'.map fst, v ∈ l.map fst) : extendBy l l' = l := by
  induction l' with
  | nil => rfl
  | cons e l' ih =>
    rw [map_cons, forall_mem_cons] at h
    rw [extendBy_cons, if_pos h.1, ih h.2]

theorem mem_extendBy {v : ν} :
    v ∈ (extendBy l l').map fst ↔ v ∈ l.map fst ∨ v ∈ l'.map fst := by
  induction l' generalizing l with
  | nil => simp [extendBy_nil]
  | cons e l' ih =>
    rw [extendBy_cons, ih, map_cons, mem_cons]
    split_ifs with he
    · constructor
      · tauto
      · rintro (h | rfl | h)
        exacts [.inl h, .inl he, .inr h]
    · rw [map_append, mem_append, map_singleton, mem_singleton, or_assoc]

theorem mem_of_mem_extendBy {e : ν × σ} (h : e ∈ extendBy l l') : e ∈ l ∨ e ∈ l' := by
  induction l' generalizing l with
  | nil => exact .inl h
  | cons a l' ih =>
    rw [extendBy_cons] at h
    rcases ih h with h | h
    · split_ifs at h
      · exact .inl h
      · rcases mem_append.1 h with h | h
        · exact .inl h
        · exact .inr (mem_singleton.1 h ▸ mem_cons_self ..)
    · exact .inr (mem_cons_of_mem _ h)

theorem extendBy_extendBy : extendBy l (extendBy l' l'') = extendBy (extendBy l l') l'' := by
  induction l'' generalizing l' with
  | nil => rfl
  | cons e l'' ih =>
    rw [extendBy_cons, ih]
    split_ifs with he
    · rw [extendBy_cons, if_pos (mem_extendBy.2 (.inr he))]
    · rw [extendBy_append]
      rfl

/-- Only the first entry for each key counts. -/
theorem extendBy_congr {k k' : List (ν × σ)} (h : extendBy [] k = extendBy [] k') :
    extendBy l k = extendBy l k' := by
  have := congrArg (extendBy l) h
  rwa [extendBy_extendBy, extendBy_extendBy] at this

end extendBy

namespace OrderedGraph

variable {ν σ : Type*} [DecidableEq ν] (G : OrderedGraph ν σ)

/-- The leaves at the ends of the paths of at most `n` nodes that avoid `S` and visit no node
twice, the preferred path first. -/
def paths : ℕ → List ν → ν → σ → List (ν × σ)
  | 0, _, _, _ => []
  | n + 1, S, v, s =>
    if v ∈ S then []
    else if G.leaf v then [(v, s)]
    else (G.next v s).flatMap fun w => paths n (v :: S) w.1 w.2

/-- Depth-first search, `n` nodes deep, with the queue of the nodes that were seen; the leaves among
them have their labels. -/
def dfs : ℕ → ν × σ → List (ν × Option σ) → List (ν × Option σ)
  | 0, _, q => q
  | n + 1, (v, s), q =>
    if v ∈ q.map fst then q
    else if G.leaf v then q ++ [(v, some s)]
    else (G.next v s).foldl (fun q w => dfs n w q) (q ++ [(v, none)])

/-- The leaves of a queue. -/
def leaves (q : List (ν × Option σ)) : List (ν × σ) :=
  q.filterMap fun e => e.2.map fun s => (e.1, s)

/-- The leaf `t` can be reached from `v` along nodes that are not in `S`. -/
inductive Reach (S : List ν) : ν → ν → Prop
  | leaf {v : ν} : v ∉ S → G.leaf v → Reach S v v
  | step {v w t : ν} {s : σ} : v ∉ S → G.leaf v = false → w ∈ (G.next v s).map fst →
    Reach S w t → Reach S v t

variable {G} {S : List ν} {u v t : ν}

omit [DecidableEq ν] in
theorem Reach.not_mem (h : G.Reach S v t) : v ∉ S := by
  cases h <;> assumption

omit [DecidableEq ν] in
theorem Reach.mono {S' : List ν} (h : G.Reach S' v t) (hS : ∀ u ∈ S, u ∈ S') : G.Reach S v t := by
  induction h with
  | leaf hv hl => exact .leaf (fun h => hv (hS _ h)) hl
  | step hv hl hw _ ih => exact .step (fun h => hv (hS _ h)) hl hw ih

/-- A path either avoids `v` or has a last part that starts at `v` and does not come back. -/
theorem Reach.avoid (h : G.Reach S u t) (v : ν) :
    G.Reach (v :: S) u t ∨ (G.leaf v ∧ t = v) ∨
      G.leaf v = false ∧ ∃ w, (∃ s, w ∈ (G.next v s).map fst) ∧ G.Reach (v :: S) w t := by
  induction h with
  | @leaf u hu hl =>
    by_cases hv : u = v
    · subst hv
      exact .inr (.inl ⟨hl, rfl⟩)
    · exact .inl (.leaf (by simp [hv, hu]) hl)
  | @step u w t s hu hl hw _ ih =>
    rcases ih with h | h
    · by_cases hv : u = v
      · subst hv
        exact .inr (.inr ⟨hl, w, ⟨s, hw⟩, h⟩)
      · exact .inl (.step (by simp [hv, hu]) hl hw h)
    · exact .inr h

/-- The nodes with successors that are not in `S`. -/
def remaining (G : OrderedGraph ν σ) (S : List ν) : ℕ := (G.inner \ S.toFinset).card

theorem remaining_le {S S' : List ν} (h : ∀ u ∈ S, u ∈ S') : G.remaining S' ≤ G.remaining S :=
  Finset.card_le_card (Finset.sdiff_subset_sdiff le_rfl fun u => by simpa using h u)

theorem remaining_cons_lt (hv : v ∈ G.inner) (hS : v ∉ S) :
    G.remaining (v :: S) < G.remaining S := by
  refine Finset.card_lt_card (Finset.ssubset_iff_of_subset ?_ |>.2 ⟨v, ?_, ?_⟩)
  · exact Finset.sdiff_subset_sdiff le_rfl fun u => by simpa using .inr
  · simp [hv, hS]
  · simp

theorem paths_fst (n : ℕ) (S : List ν) (v : ν) (s t : σ) :
    (G.paths n S v s).map fst = (G.paths n S v t).map fst := by
  induction n generalizing S v s t with
  | zero => rfl
  | succ n ih =>
    rw [paths, paths]
    split_ifs
    · rfl
    · rfl
    · have hflat : ∀ ws : List (ν × σ),
          (ws.flatMap fun w => G.paths n (v :: S) w.1 w.2).map fst =
            (ws.map fst).flatMap fun w => (G.paths n (v :: S) w s).map fst := by
        intro ws
        rw [map_flatMap, flatMap_map]
        exact flatMap_congr fun w _ => ih _ _ _ _
      rw [hflat, hflat, G.next_fst v s t]

theorem mem_paths {n : ℕ} {s : σ} (hn : G.remaining S < n) :
    t ∈ (G.paths n S v s).map fst ↔ G.Reach S v t := by
  induction n generalizing S v s with
  | zero => omega
  | succ n ih =>
    rw [paths]
    split_ifs with hS hl
    · exact ⟨nofun, fun h => absurd hS h.not_mem⟩
    · simp only [map_singleton, mem_singleton]
      constructor
      · rintro rfl
        exact .leaf hS hl
      · intro h
        cases h with
        | leaf => rfl
        | step _ hl' => simp [hl] at hl'
    · rw [map_flatMap, mem_flatMap]
      have hlt : ∀ s, G.next v s ≠ [] → G.remaining (v :: S) < n := fun s h => by
        have := remaining_cons_lt (G.mem_inner v s h) hS
        omega
      constructor
      · rintro ⟨w, hw, ht⟩
        refine .step hS (by simpa using hl) (mem_map_of_mem hw) ?_
        exact ((ih (hlt s (ne_nil_of_mem hw))).1 ht).mono fun u => mem_cons_of_mem v
      · intro h
        obtain h | ⟨hl', -⟩ | ⟨-, w, ⟨s', hw⟩, hr⟩ := h.avoid v
        · exact absurd (mem_cons_self ..) h.not_mem
        · exact absurd hl' hl
        · rw [G.next_fst v s' s] at hw
          obtain ⟨e, he, rfl⟩ := mem_map.1 hw
          exact ⟨e, he, (ih (hlt s (ne_nil_of_mem he))).2 hr⟩

/-! ### The search -/

variable {q : List (ν × Option σ)} {n k : ℕ}

/-- The leaves that can be reached from a node that was seen, and is not on the path `S` that is
being explored, have been found. -/
def Closed (G : OrderedGraph ν σ) (S : List ν) (q : List (ν × Option σ)) : Prop :=
  ∀ u ∈ q.map fst, u ∉ S → ∀ t, G.Reach S u t → t ∈ (leaves q).map fst

omit [DecidableEq ν] in
theorem leaves_fst_subset (h : v ∈ (leaves q).map fst) : v ∈ q.map fst := by
  simp only [leaves, mem_map, mem_filterMap, Option.map_eq_some_iff] at h ⊢
  obtain ⟨e, ⟨a, ha, s, -, rfl⟩, rfl⟩ := h
  exact ⟨a, ha, rfl⟩

/-- The search from a node, or from several nodes one after the other, does what `paths` lists. -/
structure Searched (G : OrderedGraph ν σ) (S : List ν) (q q' : List (ν × Option σ))
    (found : List (ν × σ)) : Prop where
  leaves_eq : leaves q' = extendBy (leaves q) found
  closed : G.Closed S q'
  seen : ∀ u ∈ q.map fst, u ∈ q'.map fst

theorem Searched.refl (hq : G.Closed S q) : Searched G S q q [] := ⟨rfl, hq, fun _ => id⟩

theorem Searched.trans {q' q'' : List (ν × Option σ)} {l l' : List (ν × σ)}
    (h : Searched G S q q' l) (h' : Searched G S q' q'' l') : Searched G S q q'' (l ++ l') where
  leaves_eq := by rw [h'.leaves_eq, h.leaves_eq, extendBy_append]
  closed := h'.closed
  seen u hu := h'.seen u (h.seen u hu)

theorem Searched.congr {q' : List (ν × Option σ)} {l l' : List (ν × σ)} (h : Searched G S q q' l)
    (hl : extendBy [] l = extendBy [] l') : Searched G S q q' l' :=
  ⟨h.leaves_eq.trans (extendBy_congr hl), h.closed, h.seen⟩

theorem searched_foldl {f : ν × σ → List (ν × Option σ) → List (ν × Option σ)}
    {found : ν × σ → List (ν × σ)} (ws : List (ν × σ)) (hq : G.Closed S q)
    (h : ∀ w ∈ ws, ∀ q', (∀ u ∈ q.map fst, u ∈ q'.map fst) → G.Closed S q' →
      Searched G S q' (f w q') (found w)) :
    Searched G S q (ws.foldl (fun q w => f w q) q) (ws.flatMap found) := by
  induction ws generalizing q with
  | nil => exact .refl hq
  | cons w ws ih =>
    have hw := h w (mem_cons_self ..) q (fun _ => id) hq
    exact hw.trans (ih hw.closed fun x hx q' hq' => h x (mem_cons_of_mem _ hx) q' fun u hu =>
      hq' u (hw.seen u hu))

variable (s : σ) (w : ν × σ)

/-- **Depth-first search finds each leaf on the preferred path**: with the nodes of `S` on the path
so far, and all their leaves found for the other nodes that were seen, the leaves that are found
are the first ones that `paths` lists. -/
theorem dfs_spec (hS : ∀ u ∈ S, u ∈ q.map fst) (hq : G.Closed S q)
    (hn : G.remaining (q.map fst) < n) (hk : G.remaining S < k) :
    Searched G S q (G.dfs n (v, s) q) (G.paths k S v s) := by
  induction n generalizing S v s q k with
  | zero => omega
  | succ n ih =>
    rw [dfs]
    split_ifs with hv hl
    · -- a node that was seen before: nothing is left to be found
      refine ⟨(extendBy_eq_self fun t ht => ?_).symm, hq, fun _ => id⟩
      have hr := (mem_paths hk).1 ht
      exact hq v hv hr.not_mem t hr
    · obtain _ | k := k
      · cases hk
      have hvS : v ∉ S := fun h => hv (hS v h)
      have hleaf : leaves (q ++ [(v, some s)]) = leaves q ++ [(v, s)] := filterMap_append
      refine ⟨?_, fun u hu huS t ht => ?_, fun u hu => by simp [hu]⟩
      · rw [hleaf, paths, if_neg hvS, if_pos hl, extendBy_cons,
          if_neg fun h => hv (leaves_fst_subset h), extendBy_nil]
      · rw [hleaf, map_append, mem_append]
        rw [map_append, mem_append, map_singleton, mem_singleton] at hu
        rcases hu with hu | rfl
        · exact .inl (hq u hu huS t ht)
        · cases ht with
          | leaf => exact .inr (mem_singleton_self _)
          | step _ hl' => simp [hl] at hl'
    · obtain _ | k := k
      · cases hk
      have hvS : v ∉ S := fun h => hv (hS v h)
      have hkeys : ∀ u, u ∈ (q ++ [(v, none)]).map fst ↔ u ∈ q.map fst ∨ u = v := by simp
      have hleaf : leaves (q ++ [(v, none)]) = leaves q := by simp [leaves]
      have hclosed : G.Closed (v :: S) (q ++ [(v, none)]) := by
        intro u hu huS t ht
        rw [mem_cons, not_or] at huS
        rw [hleaf]
        exact hq u (((hkeys u).1 hu).resolve_right huS.1) huS.2 t
          (ht.mono fun x => mem_cons_of_mem v)
      have hsearch : Searched G (v :: S) (q ++ [(v, none)])
          ((G.next v s).foldl (fun q w => G.dfs n w q) (q ++ [(v, none)]))
          ((G.next v s).flatMap fun w => G.paths k (v :: S) w.1 w.2) := by
        refine searched_foldl _ hclosed fun w hw q' hq' hc => ih w.2 ?_ hc ?_ ?_
        · exact fun u hu => hq' u ((hkeys u).2 ((mem_cons.1 hu).symm.imp (hS u) id))
        · have hin := G.mem_inner v s (ne_nil_of_mem hw)
          have h1 := remaining_cons_lt hin hv
          have h2 : G.remaining (q'.map fst) ≤ G.remaining (v :: q.map fst) :=
            remaining_le fun u hu => hq' u ((hkeys u).2 (mem_cons.1 hu).symm)
          omega
        · have := remaining_cons_lt (G.mem_inner v s (ne_nil_of_mem hw)) hvS
          omega
      refine ⟨?_, fun u hu huS t ht => ?_, fun u hu => hsearch.seen u ((hkeys u).2 (.inl hu))⟩
      · rw [hsearch.leaves_eq, hleaf, paths, if_neg hvS, if_neg hl]
      · -- a leaf below `u` is found below `u` without `v`, or below `v`
        obtain h | ⟨hl', -⟩ | ⟨-, w, ⟨s', hw⟩, hr⟩ := ht.avoid v
        · exact hsearch.closed u hu h.not_mem t h
        · exact absurd hl' hl
        · rw [G.next_fst v s' s] at hw
          obtain ⟨e, he, rfl⟩ := mem_map.1 hw
          have hlt := remaining_cons_lt (G.mem_inner v s (ne_nil_of_mem he)) hvS
          have hmem : t ∈ (G.paths k (v :: S) e.1 e.2).map fst := (mem_paths (by omega)).2 hr
          rw [hsearch.leaves_eq, mem_extendBy]
          right
          rw [map_flatMap, mem_flatMap]
          exact ⟨e, he, hmem⟩

/-! ### Depth -/

omit [DecidableEq ν] in
theorem mem_foldl {f : ν × σ → List (ν × Option σ) → List (ν × Option σ)}
    (hf : ∀ w q, u ∈ q.map fst → u ∈ (f w q).map fst) (ws : List (ν × σ))
    (h : u ∈ q.map fst) : u ∈ (ws.foldl (fun q w => f w q) q).map fst := by
  induction ws generalizing q with
  | nil => exact h
  | cons w ws ih => exact ih (hf w q h)

theorem mem_dfs (h : u ∈ q.map fst) : u ∈ (G.dfs n w q).map fst := by
  induction n generalizing w q with
  | zero => exact h
  | succ n ih =>
    rw [dfs]
    split_ifs
    · exact h
    · simp [h]
    · exact mem_foldl (fun w q hq => ih w hq) _ (by simp [h])

theorem foldl_dfs_succ
    (ih : ∀ (w : ν × σ) {q : List (ν × Option σ)}, G.remaining (q.map fst) < n →
      G.dfs (n + 1) w q = G.dfs n w q) (ws : List (ν × σ)) (q : List (ν × Option σ))
    (hq : ws ≠ [] → G.remaining (q.map fst) < n) :
    ws.foldl (fun q w => G.dfs (n + 1) w q) q = ws.foldl (fun q w => G.dfs n w q) q := by
  induction ws generalizing q with
  | nil => rfl
  | cons w ws ihs =>
    have hlt := hq (cons_ne_nil _ _)
    rw [foldl_cons, foldl_cons, ih w hlt]
    exact ihs _ fun _ => (remaining_le fun u hu => mem_dfs w hu).trans_lt hlt

theorem remaining_snoc (v : ν) :
    G.remaining ((q ++ [(v, none)]).map fst) ≤ G.remaining (v :: q.map fst) :=
  remaining_le fun u hu => by simpa [or_comm] using hu

/-- The search does not go deeper than there are nodes left. -/
theorem dfs_succ (hn : G.remaining (q.map fst) < n) : G.dfs (n + 1) w q = G.dfs n w q := by
  induction n generalizing w q with
  | zero => omega
  | succ n ih =>
    rw [dfs, dfs]
    split_ifs with hv hl
    · rfl
    · rfl
    · refine foldl_dfs_succ (fun w _ h => ih w h) _ _ fun hne => ?_
      have h1 := remaining_cons_lt (G.mem_inner _ _ hne) hv
      have h2 := remaining_snoc (G := G) (q := q) w.1
      omega

/-! ### All leaves -/

/-- The leaves at the ends of all simple paths from a node. -/
def allPaths (G : OrderedGraph ν σ) (v : ν) (s : σ) : List (ν × σ) :=
  G.paths (G.inner.card + 1) [] v s

/-- Depth-first search to any depth. -/
def search (G : OrderedGraph ν σ) (w : ν × σ) (q : List (ν × Option σ)) : List (ν × Option σ) :=
  G.dfs (G.inner.card + 1) w q

theorem remaining_lt (S : List ν) : G.remaining S < G.inner.card + 1 :=
  Nat.lt_succ_of_le (Finset.card_le_card Finset.sdiff_subset)

/-! ### Without cycles -/

/-- An edge from a node that is no leaf. -/
def Leads (G : OrderedGraph ν σ) (v w : ν) : Prop :=
  G.leaf v = false ∧ ∃ s, w ∈ (G.next v s).map fst

/-- No endless path starts at a node. -/
def Grounded (G : OrderedGraph ν σ) (v : ν) : Prop :=
  Acc (fun w v => G.Leads v w) v

/-- The part of a path behind `v`, where the nodes in `S` are before it. -/
theorem paths_behind (hS : ∀ u ∈ S, Relation.TransGen G.Leads u v) (hv : v ∉ S)
    (hn : G.remaining S < n + 1) (hl : G.leaf v = false) {s : σ} {w : ν × σ} (hw : w ∈ G.next v s)
    (h : ∀ {S' n'}, (∀ u ∈ S', Relation.TransGen G.Leads u w.1) → G.remaining S' < n' →
      G.paths n' S' w.1 w.2 = G.allPaths w.1 w.2) :
    G.paths n (v :: S) w.1 w.2 = G.allPaths w.1 w.2 := by
  have hlead : G.Leads v w.1 := ⟨hl, s, mem_map_of_mem hw⟩
  refine h (fun u hu => ?_) ?_
  · rcases mem_cons.1 hu with rfl | hu
    · exact .single hlead
    · exact (hS u hu).tail hlead
  · exact (remaining_cons_lt (G.mem_inner v s (ne_nil_of_mem hw)) hv).trans_le
      (Nat.lt_succ_iff.1 hn)

/-- Where there is no endless path, none has to be cut off. -/
theorem paths_of_grounded (h : G.Grounded v)
    (hS : ∀ u ∈ S, Relation.TransGen G.Leads u v) (hn : G.remaining S < n) (s : σ) :
    G.paths n S v s = G.allPaths v s := by
  induction h generalizing n S s with
  | intro v hacc ih =>
    have hv : v ∉ S := fun hv => not_transGen_of_acc (Acc.intro v hacc) (hS v hv)
    obtain _ | n := n
    · cases hn
    rw [allPaths, paths, paths, if_neg hv, if_neg not_mem_nil]
    split_ifs with hl
    · rfl
    · rw [Bool.not_eq_true] at hl
      refine flatMap_congr fun w hw => ?_
      have hih {S' : List ν} {n' : ℕ} := @ih w.1 ⟨hl, s, mem_map_of_mem hw⟩ S' n'
      rw [paths_behind hS hv hn hl hw fun h h' => hih h h' _,
        paths_behind nofun not_mem_nil (remaining_lt []) hl hw fun h h' => hih h h' _]

theorem allPaths_of_grounded (h : G.Grounded v) (hl : G.leaf v = false) (s : σ) :
    G.allPaths v s = (G.next v s).flatMap fun w => G.allPaths w.1 w.2 := by
  rw [allPaths, paths, if_neg not_mem_nil, if_neg (by simp [hl])]
  refine flatMap_congr fun w hw => paths_behind nofun not_mem_nil (remaining_lt []) hl hw ?_
  exact fun hS hn => paths_of_grounded (Acc.inv h ⟨hl, s, mem_map_of_mem hw⟩) hS hn _

theorem search_of_mem (hv : v ∈ q.map fst) : G.search (v, s) q = q := by
  rw [search, dfs, if_pos hv]

theorem search_leaf (hv : v ∉ q.map fst) (hl : G.leaf v) :
    G.search (v, s) q = q ++ [(v, some s)] := by
  rw [search, dfs, if_neg hv, if_pos hl]

theorem search_inner (hv : v ∉ q.map fst) (hl : G.leaf v = false) :
    G.search (v, s) q =
      (G.next v s).foldl (fun q w => G.search w q) (q ++ [(v, none)]) := by
  rw [search, dfs, if_neg hv, if_neg (by simp [hl])]
  refine (foldl_dfs_succ (fun w q h => dfs_succ w h) _ _ fun hne => ?_).symm
  have h1 := remaining_cons_lt (G.mem_inner _ _ hne) hv
  have h2 := remaining_snoc (G := G) (q := q) v
  have h3 := remaining_lt (G := G) (q.map fst)
  omega

theorem mem_search_self : w.1 ∈ (G.search w q).map fst := by
  by_cases hv : w.1 ∈ q.map fst
  · exact mem_dfs w hv
  · cases hl : G.leaf w.1
    · rw [search, dfs, if_neg hv, if_neg (by simp [hl])]
      exact mem_foldl (fun w q hq => mem_dfs w hq) _ (by simp)
    · rw [search_leaf w.2 hv hl]
      simp

theorem search_spec (hq : G.Closed [] q) : Searched G [] q (G.search w q) (G.allPaths w.1 w.2) :=
  dfs_spec w.2 nofun hq (remaining_lt _) (remaining_lt _)

end OrderedGraph

end Sagittarius
