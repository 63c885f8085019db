import Sagittarius.CharSet.Model
import Sagittarius.Library.Ranges

/-!
# Adding a range to a character set

`Sg_CharSetAddRange` deletes the entries that the new range meets, and then reads the key and the
value of the entry that it has deleted.

* `Shows` : the tree of a character set in canonical form;
* `AddsCleanly` : none of the entries that the new range swallows has two children at its turn;
* `Shows.addLarge` : then the tree gets the new range, and is canonical; otherwise it is not.
-/

namespace Sagittarius.CharSet

open TreeMap List
open Option (bind_eq_bind bind_some map_some)

variable {tm : SgTreeMap ℕ ℕ} {t : Tree (Entry ℕ ℕ)} {e : Entry ℕ ℕ} {l r : List (Entry ℕ ℕ)}
  {n : ℕ}

/-- The memory holds disjoint, non-adjacent ascending ranges at or above 128. -/
structure Shows (tm : SgTreeMap ℕ ℕ) (t : Tree (Entry ℕ ℕ)) : Prop where
  holds : Holds tm t
  canonical : Canonical smallChars charMax (contents t.inorder)

@[simp] theorem contents_append (es es' : List (Entry ℕ ℕ)) :
    contents (es ++ es') = contents es ++ contents es' := List.map_append

@[simp] theorem contents_cons (e : Entry ℕ ℕ) (es : List (Entry ℕ ℕ)) :
    contents (e :: es) = (e.key, e.value) :: contents es := rfl

variable {es : List (Entry ℕ ℕ)}

theorem forall_mem_contents {p : ℕ × ℕ → Prop} :
    (∀ x ∈ contents es, p x) ↔ ∀ x ∈ es, p (x.key, x.value) := by
  simp [contents]

/-! ### What is deleted -/

/-- The keys are deleted one after the other, and none of them has two children at its turn. -/
def DeletesCleanly : List ℕ → Tree (Entry ℕ ℕ) → Prop
  | [], _ => True
  | k :: ks, t => ¬ HasTwoChildren k t ∧ DeletesCleanly ks (deleteTree k t)

instance decidableDeletesCleanly : ∀ ks t, Decidable (DeletesCleanly ks t)
  | [], _ => isTrue trivial
  | k :: ks, t =>
    have := decidableDeletesCleanly ks (deleteTree k t)
    inferInstanceAs (Decidable (¬ HasTwoChildren k t ∧ DeletesCleanly ks (deleteTree k t)))

/-- The entries that a range from `start` to `stop` meets behind its beginning -/
def swallowed (start stop : ℕ) (es : List (Entry ℕ ℕ)) : List ℕ :=
  (es.map Entry.key).filter fun k => start < k ∧ k ≤ stop + 1

/-- Some range has `start`, or ends just before it. -/
def Reached (start : ℕ) (t : Tree (Entry ℕ ℕ)) : Prop :=
  ∃ r ∈ contents t.inorder, r.1 ≤ start ∧ start ≤ r.2 + 1

instance (start : ℕ) (t : Tree (Entry ℕ ℕ)) : Decidable (Reached start t) :=
  inferInstanceAs (Decidable (∃ r ∈ contents t.inorder, r.1 ≤ start ∧ start ≤ r.2 + 1))

/-- The tree with an entry for the lower bound; a new one has the address `a`. -/
def lowerBoundTree (start a : ℕ) (t : Tree (Entry ℕ ℕ)) : Tree (Entry ℕ ℕ) :=
  if Reached start t then t else TreeMap.insertTree start a t

/-- None of the entries that the new range swallows has two children at its turn. -/
def AddsCleanly (start stop a : ℕ) (t : Tree (Entry ℕ ℕ)) : Prop :=
  DeletesCleanly (swallowed start stop t.inorder) (lowerBoundTree start a t)

instance (start stop a : ℕ) (t : Tree (Entry ℕ ℕ)) : Decidable (AddsCleanly start stop a t) :=
  inferInstanceAs (Decidable (DeletesCleanly _ _))

/-! ### The upper bound -/

/-- The address `hi` still holds the key `k`, which stands between `l` and `r`. -/
structure Cursor (tm : SgTreeMap ℕ ℕ) (hi : ℕ) (l r : List (Entry ℕ ℕ)) : Prop where
  mem : ∃ m, tm.mem hi = some m ∧ (∀ x ∈ l, x.key ≤ m.key) ∧ ∀ x ∈ r, m.key < x.key

variable {x : Entry ℕ ℕ}

theorem Cursor.of_sorted {a : ℕ} (h : Sorted (l ++ x :: r))
    (hmem : ∃ m, tm.mem a = some m ∧ m.key = x.key) : Cursor tm a (l ++ [x]) r := by
  obtain ⟨m, hm, hkey⟩ := hmem
  rw [Sorted, pairwise_append, pairwise_cons] at h
  obtain ⟨-, ⟨hxr, -⟩, hlx⟩ := h
  refine ⟨m, hm, fun y hy => ?_, ?_⟩
  · rcases mem_append.1 hy with hy | hy
    · rw [hkey]
      exact (hlx y hy x (mem_cons_self ..)).le
    · rw [mem_singleton.1 hy, hkey]
  · rwa [hkey]

theorem Cursor.of_holds (h : Holds tm t) (hin : t.inorder = l ++ x :: r) :
    Cursor tm x.addr (l ++ [x]) r := by
  obtain ⟨m, hm, hkey, -⟩ := h.mem (e := x) (by rw [hin]; simp)
  exact .of_sorted (hin ▸ h.sorted) ⟨m, hm, hkey⟩

theorem Cursor.append_left {q : List (Entry ℕ ℕ)} {a : ℕ} (h : Cursor tm a (l ++ q) r) :
    Cursor tm a l r := by
  obtain ⟨m, hm, hl, hr⟩ := h.mem
  exact ⟨m, hm, fun y hy => hl y (mem_append_left _ hy), hr⟩

/-- `swallowed` for the entries behind the beginning of the range -/
def met (stop : ℕ) (es : List (Entry ℕ ℕ)) : List ℕ :=
  (es.map Entry.key).filter fun k => k ≤ stop + 1

variable {stop : ℕ}

theorem met_cons_of_le (h : x.key ≤ stop + 1) (es : List (Entry ℕ ℕ)) :
    met stop (x :: es) = x.key :: met stop es := by
  simp [met, h]

theorem met_eq_nil (h : ∀ x ∈ es, stop + 1 < x.key) : met stop es = [] := by
  simpa [met] using h

theorem absorb_of_head (h : Canonical smallChars charMax (contents es))
    (hhead : ∀ x ∈ es.head?, stop + 1 < x.key) :
    met stop es = [] ∧ absorb stop (contents es) = (stop, contents es) := by
  cases es with
  | nil => exact ⟨rfl, rfl⟩
  | cons x es =>
    have hx : stop + 1 < x.key := hhead x rfl
    rw [contents_cons, canonical_cons, forall_mem_contents] at h
    obtain ⟨hle, hnext, -⟩ := h
    refine ⟨met_eq_nil (forall_mem_cons.2 ⟨hx, fun y hy => ?_⟩), if_pos hx⟩
    have := hnext y hy
    omega

theorem setValue_spec (h : Holds tm t) (hin : t.inorder = l ++ e :: r) (v : ℕ) :
    ∃ t', Holds (setValue tm e.addr v) t' ∧
      contents t'.inorder = contents l ++ (e.key, v) :: contents r := by
  obtain ⟨h', hin'⟩ := h.writeAt hin v
  exact ⟨_, h', by rw [hin']; simp⟩

section

variable {hi stop k : ℕ}

section

variable (h : Holds tm t)

include h

theorem upperBoundLoop_stop (hin : t.inorder = l ++ r) (hcur : Cursor tm hi l r)
    (hn : 2 * t.inorder.length < n) (a : ℕ) (hr : ∀ x ∈ r.head?, stop + 1 < x.key) :
    upperBoundLoop n a stop (k + 1) tm hi = some (setValue tm a stop) := by
  obtain ⟨m, hm, hl, hlt⟩ := hcur.mem
  rw [upperBoundLoop, hm, bind_eq_bind, bind_some, h.getHigherEntry hin hl hlt hn]
  cases r with
  | nil => rfl
  | cons x r =>
    obtain ⟨mx, hmx, hkey, -⟩ := h.mem (e := x) (by rw [hin]; simp)
    simp only [head?_cons, map_some, bind_eq_bind, bind_some, hmx, hkey]
    exact if_pos (hr x rfl)

theorem upperBoundLoop_step {x : Entry ℕ ℕ} {tm' : SgTreeMap ℕ ℕ} {p : Option ℕ} {m : Node ℕ ℕ}
    (hin : t.inorder = l ++ x :: r) (hcur : Cursor tm hi l (x :: r)) (hn : 2 * t.inorder.length < n)
    (a : ℕ) (hkey : x.key ≤ stop + 1) (hrun : tm.rbDelete n x.key = some (tm', p))
    (hm : tm'.mem x.addr = some m) :
    upperBoundLoop n a stop (k + 1) tm hi =
      if m.value > stop then some (setValue tm' a m.value)
      else upperBoundLoop n a stop k tm' x.addr := by
  obtain ⟨m₀, hm₀, hl, hlt⟩ := hcur.mem
  obtain ⟨mx, hmx, hmkey, -⟩ := h.mem (e := x) (by rw [hin]; simp)
  rw [upperBoundLoop, hm₀, bind_eq_bind, bind_some, h.getHigherEntry hin hl hlt hn]
  simp only [head?_cons, map_some, bind_eq_bind, bind_some, hmx, hmkey,
    hkey.not_gt, if_false, hrun, hm]

/-- **The loop absorbs what it meets** if no entry has two children at its turn; otherwise the one
behind such an entry stays in the tree, inside of the new range.  The entries `q` have been left
behind the cursor. -/
theorem upperBoundLoop_spec {q : List (Entry ℕ ℕ)} (hin : t.inorder = l ++ e :: (q ++ r))
    (hcur : Cursor tm hi (l ++ e :: q) r) (hcan : Canonical smallChars charMax (contents r))
    (hn : 2 * t.inorder.length < n) (hk : r.length < k) :
    ∃ tm' t' v rs, upperBoundLoop n e.addr stop k tm hi = some tm' ∧ Holds tm' t' ∧
      contents t'.inorder = contents l ++ (e.key, v) :: (contents q ++ rs) ∧ stop ≤ v ∧
      (DeletesCleanly (met stop r) t → absorb stop (contents r) = (v, rs)) ∧
      (¬ DeletesCleanly (met stop r) t → ∃ y ∈ rs, y.1 ≤ v) := by
  induction k generalizing tm t hi q r with
  | zero => cases hk
  | succ k ih =>
    have hin' : t.inorder = (l ++ e :: q) ++ r := by
      rw [hin, append_assoc, cons_append]
    by_cases hstop : ∀ x ∈ r.head?, stop + 1 < x.key
    · obtain ⟨t', h', hcon⟩ := setValue_spec h hin stop
      refine ⟨_, t', stop, contents r, upperBoundLoop_stop h hin' hcur hn _ hstop, h', ?_, le_rfl,
        ?_⟩
      · rw [hcon, contents_append]
      obtain ⟨hmet, habsorb⟩ := absorb_of_head hcan hstop
      rw [hmet]
      exact ⟨fun _ => habsorb, fun hnot => (hnot trivial).elim⟩
    obtain _ | ⟨x, r⟩ := r
    · exact (hstop nofun).elim
    have hkey : x.key ≤ stop + 1 := by simpa using hstop
    obtain ⟨tm₁, s, q₁, r₁, hleaves, hrun₁, h₁, -, hin₁, m, hm, hmkey, hmval⟩ :=
      h.deleteAt (n := n) hin' (by omega)
    rw [upperBoundLoop_step h hin' hcur hn _ hkey hrun₁ hm, hmval, met_cons_of_le hkey]
    rw [contents_cons, canonical_cons, forall_mem_contents] at hcan
    obtain ⟨-, hnext, hcan'⟩ := hcan
    rw [length_cons] at hk
    obtain ⟨hcur₁, hcan₁, hlen⟩ : Cursor tm₁ x.addr ((l ++ e :: q) ++ q₁) r₁ ∧
        Canonical smallChars charMax (contents r₁) ∧ q₁.length + r₁.length = r.length := by
      cases hleaves with
      | one =>
        rw [append_nil]
        exact ⟨(Cursor.of_sorted (hin' ▸ h.sorted) ⟨m, hm, hmkey⟩).append_left, hcan',
          Nat.zero_add _⟩
      | both =>
        exact ⟨.of_sorted (hin₁ ▸ h₁.sorted) ⟨m, hm, hmkey⟩, (canonical_cons.1 hcan').2.2,
          Nat.add_comm 1 _⟩
    rw [append_assoc, cons_append] at hcur₁ hin₁
    rw [← append_assoc] at hin₁
    split_ifs with hval
    · obtain ⟨t', h', hcon⟩ := setValue_spec h₁ hin₁ s.value
      refine ⟨_, t', s.value, contents (q₁ ++ r₁), rfl, h', ?_, hval.le, ?_⟩
      · simp only [hcon, contents_append, append_assoc]
      cases hleaves with
      | one hnot =>
        have hmet : met stop r = [] := by
          refine met_eq_nil fun y hy => ?_
          have := hnext y hy
          omega
        rw [hmet, contents_cons, absorb, if_neg hkey.not_gt, if_pos hval]
        exact ⟨fun _ => rfl, fun hc => (hc ⟨hnot, trivial⟩).elim⟩
      | both hboth =>
        exact ⟨fun hc => (hc.1 hboth).elim, fun _ => ⟨_, mem_cons_self ..,
          (hcan'.bounds _ (mem_cons_self ..)).2.1⟩⟩
    · obtain ⟨tm', t', v, rs, hrun, h', hcon, hv, hclean, hstays⟩ := ih h₁ hin₁ hcur₁ hcan₁
        (by
          simp only [hin₁, hin', length_append, length_cons] at hn ⊢
          omega)
        (by omega)
      refine ⟨tm', t', v, contents q₁ ++ rs, hrun, h', ?_, hv, ?_⟩
      · rw [hcon, contents_append, append_assoc]
      cases hleaves with
      | one hnot =>
        rw [contents_cons, absorb, if_neg hkey.not_gt, if_neg hval]
        exact ⟨fun hc => hclean hc.2, fun hnc => hstays fun hc => hnc ⟨hnot, hc⟩⟩
      | both hboth =>
        refine ⟨fun hc => (hc.1 hboth).elim, fun _ => ⟨(s.key, s.value), mem_cons_self .., ?_⟩⟩
        have := (hcan'.bounds _ (mem_cons_self ..)).2.1
        dsimp only at this ⊢
        omega

end

end

/-! ### The lower bound -/

/-- `Sg_TreeMapCoreSet` on trees, for a new key -/
def coreSetTree (key v a : ℕ) (t : Tree (Entry ℕ ℕ)) : Tree (Entry ℕ ℕ) :=
  (TreeMap.insertTree key a t).map (writeValue a v)

theorem treeMapCoreSet_spec (h : Holds tm t) (hin : t.inorder = l ++ r) {key : ℕ}
    (hl : ∀ x ∈ l, x.key < key) (hr : ∀ x ∈ r, key < x.key) (hn : t.inorder.length < n) (v : ℕ) :
    ∃ tm', treeMapCoreSet n tm key v = some (tm', tm.fresh) ∧
      Holds tm' (coreSetTree key v tm.fresh t) ∧ tm'.fresh = tm.fresh + 1 ∧
      (coreSetTree key v tm.fresh t).inorder = l ++ ⟨tm.fresh, key, v⟩ :: r := by
  obtain ⟨tm₁, hrun, h₁, hfresh⟩ := h.insertAt hin hl hr hn
  have hin₁ := h.sorted.inorder_insertTree hin hl hr tm.fresh
  obtain ⟨h₂, hin₂⟩ := h₁.writeAt hin₁ v
  refine ⟨setValue tm₁ tm.fresh v, ?_, h₂, hfresh, hin₂⟩
  rw [treeMapCoreSet, hrun]
  rfl

theorem coreSetTree_zero (h : Holds tm t) (hin : t.inorder = l ++ r) {key : ℕ}
    (hl : ∀ x ∈ l, x.key < key) (hr : ∀ x ∈ r, key < x.key) :
    coreSetTree key 0 tm.fresh t = TreeMap.insertTree key tm.fresh t := by
  refine Tree.map_eq_self fun x hx => ?_
  rw [h.sorted.inorder_insertTree hin hl hr tm.fresh] at hx
  have hold : ∀ y ∈ l ++ r, writeValue tm.fresh 0 y = y := by
    intro y hy
    rw [← hin] at hy
    exact if_neg (h.fresh y.addr (mem_map.2 ⟨y, hy, rfl⟩)).ne
  simp only [mem_append, mem_cons] at hx
  rcases hx with hx | rfl | hx
  · exact hold x (mem_append_left _ hx)
  · exact if_pos rfl
  · exact hold x (mem_append_right _ hx)

/-- What is known about the entry that has the lower bound: a range that reaches `start`, or a new
entry at a place that no range reaches. -/
inductive Bound (start : ℕ) (es l r : List (Entry ℕ ℕ)) (e : Entry ℕ ℕ) : Prop
  | found (hin : es = l ++ e :: r) (hkey : e.key ≤ start) (hval : start ≤ e.value + 1)
  | new (hin : es = l ++ r) (hkey : e.key = start) (hval : e.value = 0)
    (hl : ∀ x ∈ l, x.value + 1 < start)

theorem canonical_lt_key_of_mem (h : Canonical smallChars charMax (contents (es ++ [x]))) :
    ∀ y ∈ es, y.value + 1 < x.key := by
  intro y hy
  rw [contents_append] at h
  exact (canonical_append.1 h).2.2 (y.key, y.value) (mem_map.2 ⟨y, hy, rfl⟩) (x.key, x.value)
    (mem_singleton.2 rfl)

variable {start : ℕ}

theorem not_reached (hin : t.inorder = l ++ r) (hl : ∀ x ∈ l, x.value + 1 < start)
    (hr : ∀ x ∈ r, start < x.key) : ¬ Reached start t := by
  rintro ⟨y, hy, hle, hge⟩
  obtain ⟨x, hx, rfl⟩ := mem_map.1 hy
  rw [hin] at hx
  rcases mem_append.1 hx with hx | hx
  · exact (hl x hx).not_ge hge
  · exact (hr x hx).not_ge hle

theorem lowerBound_spec (h : Shows tm t) (hstart : smallChars ≤ start)
    (hn : 2 * t.inorder.length < n) :
    ∃ tm' l r e, lowerBound n tm start = some (tm', e.addr) ∧
      Holds tm' (lowerBoundTree start tm.fresh t) ∧
      (lowerBoundTree start tm.fresh t).inorder = l ++ e :: r ∧ (∀ x ∈ r, start < x.key) ∧
      Bound start t.inorder l r e := by
  obtain ⟨hholds, hcan⟩ := h
  obtain ⟨l, r, hin, hl, hr⟩ := hholds.sorted.exists_split start
  have hsort := hholds.sorted
  have hlower := hholds.getLowerEntry hin hl hr hn
  by_cases hstrict : ∀ x ∈ r, start < x.key
  · have hget : tm.getEntry n start = some none := by
      refine hholds.getEntry_of_not (fun x hx => ?_) (by omega)
      rw [hin] at hx
      rcases mem_append.1 hx with hx | hx
      · exact (hl x hx).ne
      · exact (hstrict x hx).ne'
    have hnew : (∀ x ∈ l, x.value + 1 < start) →
        ∃ tm', treeMapCoreSet n tm start 0 = some (tm', tm.fresh) ∧
          Holds tm' (lowerBoundTree start tm.fresh t) ∧
          (lowerBoundTree start tm.fresh t).inorder = l ++ ⟨tm.fresh, start, 0⟩ :: r := by
      intro hlv
      rw [lowerBoundTree, if_neg (not_reached hin hlv hstrict)]
      obtain ⟨tm', hrun, h', -, hin'⟩ := treeMapCoreSet_spec hholds hin hl hstrict (n := n)
        (by omega) 0
      rw [coreSetTree_zero hholds hin hl hstrict] at h' hin'
      exact ⟨tm', hrun, h', hin'⟩
    rw [lowerBound, hget, hlower]
    rcases l.eq_nil_or_concat with rfl | ⟨l, x, rfl⟩
    · obtain ⟨tm', hrun, h', hin'⟩ := hnew nofun
      exact ⟨tm', [], r, ⟨tm.fresh, start, 0⟩, hrun, h', hin', hstrict, .new hin rfl rfl nofun⟩
    · rw [concat_eq_append] at *
      obtain ⟨m, hm, -, hmval⟩ := hholds.mem (e := x) (by rw [hin]; simp)
      have hx : x.key < start := hl x (by simp)
      have hlx : ∀ y ∈ l, y.value + 1 < x.key := by
        refine canonical_lt_key_of_mem ?_
        rw [hin, contents_append] at hcan
        exact (canonical_append.1 hcan).1
      simp only [getLast?_append, getLast?_singleton, Option.some_or, map_some,
        bind_eq_bind, bind_some, newLowerBound, hm, hmval]
      split_ifs with hval
      · have hlv : ∀ y ∈ l ++ [x], y.value + 1 < start := by
          intro y hy
          rcases mem_append.1 hy with hy | hy
          · exact (hlx y hy).trans hx
          · rw [mem_singleton.1 hy]
            omega
        obtain ⟨tm', hrun, h', hin'⟩ := hnew hlv
        exact ⟨tm', l ++ [x], r, ⟨tm.fresh, start, 0⟩, hrun, h', hin', hstrict,
          .new hin rfl rfl hlv⟩
      · have hreached : Reached start t := by
          refine ⟨(x.key, x.value), mem_map.2 ⟨x, by rw [hin]; simp, rfl⟩, hx.le, ?_⟩
          omega
        rw [← append_cons] at hin
        rw [lowerBoundTree, if_pos hreached]
        exact ⟨tm, l, r, x, rfl, hholds, hin, hstrict, .found hin hx.le (by omega)⟩
  · obtain _ | ⟨x, r⟩ := r
    · exact (hstrict nofun).elim
    rw [hin, Sorted, pairwise_append, pairwise_cons] at hsort
    obtain ⟨-, ⟨hxr, -⟩, -⟩ := hsort
    have hx : x.key = start := by
      refine le_antisymm ?_ (hr x (mem_cons_self ..))
      by_contra hlt
      rw [not_le] at hlt
      exact hstrict (forall_mem_cons.2 ⟨hlt, fun y hy => hlt.trans (hxr y hy)⟩)
    subst hx
    have hmem : x ∈ t.inorder := by
      rw [hin]
      simp
    have hval : x.key ≤ x.value :=
      (hcan.bounds _ (mem_map.2 ⟨x, hmem, rfl⟩)).2.1
    have hreached : Reached x.key t :=
      ⟨_, mem_map.2 ⟨x, hmem, rfl⟩, le_rfl, hval.trans (Nat.le_succ _)⟩
    rw [lowerBoundTree, if_pos hreached, lowerBound, hholds.getEntry_of_mem hmem (by omega), hlower]
    exact ⟨tm, l, r, x, rfl, hholds, hin, hxr, .found hin le_rfl (by omega)⟩

/-! ### The tree with the new range -/

theorem swallowed_eq_met (hl : ∀ x ∈ l, x.key ≤ start) (hr : ∀ x ∈ r, start < x.key) :
    swallowed start stop (l ++ r) = met stop r := by
  have hnil : (l.map Entry.key).filter (fun k => start < k ∧ k ≤ stop + 1) = [] := by
    simp only [filter_eq_nil_iff, forall_mem_map, decide_eq_true_eq]
    exact fun x hx h => (hl x hx).not_gt h.1
  rw [swallowed, map_append, filter_append, hnil, nil_append, met]
  refine filter_congr fun k hk => ?_
  obtain ⟨x, hx, rfl⟩ := mem_map.1 hk
  simp [hr x hx]

section

variable {start stop : ℕ}

section

variable (hb : Bound start t.inorder l r e)

include hb

theorem Bound.swallowed_eq (hsort : Sorted (l ++ e :: r)) (hr : ∀ x ∈ r, start < x.key) :
    swallowed start stop t.inorder = met stop r := by
  rw [Sorted, pairwise_append] at hsort
  have hl : ∀ x ∈ l, x.key < e.key := fun x hx => hsort.2.2 x hx e (mem_cons_self ..)
  cases hb with
  | found hin hkey =>
    rw [hin, append_cons]
    refine swallowed_eq_met (fun x hx => ?_) hr
    rcases mem_append.1 hx with hx | hx
    · exact (hl x hx).le.trans hkey
    · rwa [mem_singleton.1 hx]
  | new hin hkey =>
    rw [hin]
    exact swallowed_eq_met (fun x hx => (hl x hx).le.trans hkey.le) hr

theorem Bound.covers (hval : e.value < stop) (c : ℕ) :
    Covers (contents t.inorder) c ∨ (start ≤ c ∧ c ≤ stop) ↔
      Covers (contents l ++ contents r) c ∨ (e.key ≤ c ∧ c ≤ stop) := by
  cases hb with
  | found hin hkey hreach =>
    rw [hin, contents_append, contents_cons, covers_append, covers_append, covers_cons]
    by_cases hc : Covers (contents l) c ∨ Covers (contents r) c
    · tauto
    · have : (e.key ≤ c ∧ c ≤ e.value) ∨ (start ≤ c ∧ c ≤ stop) ↔ e.key ≤ c ∧ c ≤ stop := by omega
      tauto
  | new hin hkey =>
    rw [hin, contents_append, hkey]

/-- The new range is separated from what is before it, and begins before what is behind it. -/
theorem Bound.separated (hcan : Canonical smallChars charMax (contents t.inorder))
    (hstart : smallChars ≤ start) (hr : ∀ x ∈ r, start < x.key) :
    Canonical smallChars charMax (contents l ++ contents r) ∧ smallChars ≤ e.key ∧
      e.key ≤ start ∧ (∀ x ∈ contents l, x.2 + 1 < e.key) ∧ ∀ x ∈ contents r, e.key < x.1 := by
  cases hb with
  | found hin hkey =>
    rw [hin, contents_append, contents_cons, canonical_append, canonical_cons] at hcan
    obtain ⟨hl, ⟨he, -, hcr⟩, hgap⟩ := hcan
    refine ⟨canonical_append.2 ⟨hl, hcr, fun x hx y hy => hgap x hx y (mem_cons_of_mem _ hy)⟩,
      he.1, hkey, fun x hx => hgap x hx _ (mem_cons_self ..), ?_⟩
    exact forall_mem_contents.2 fun x hx => hkey.trans_lt (hr x hx)
  | new hin hkey hval hl =>
    rw [hin, contents_append] at hcan
    rw [hkey]
    exact ⟨hcan, hstart, le_rfl, forall_mem_contents.2 hl, forall_mem_contents.2 hr⟩

theorem Bound.length_le : (l ++ e :: r).length ≤ t.inorder.length + 1 := by
  cases hb with
  | found hin =>
    rw [← hin]
    exact Nat.le_succ _
  | new hin =>
    rw [hin, length_append, length_append, length_cons, Nat.add_assoc]

theorem Bound.met_eq_nil (hcan : Canonical smallChars charMax (contents t.inorder))
    (hstart : smallChars ≤ start) (hle : start ≤ stop) (hval : stop ≤ e.value) :
    met stop r = [] := by
  cases hb with
  | found hin hkey =>
    rw [hin, contents_append, contents_cons, canonical_append, canonical_cons] at hcan
    obtain ⟨-, ⟨-, hnext, -⟩, -⟩ := hcan
    rw [forall_mem_contents] at hnext
    refine CharSet.met_eq_nil fun x hx => ?_
    have := hnext x hx
    omega
  | new hin hkey hzero =>
    have : 0 < smallChars := by decide
    omega

end

theorem addLarge_eq {tm' : SgTreeMap ℕ ℕ} (hrun : lowerBound n tm start = some (tm', e.addr))
    (h : Holds tm' t) (hin : t.inorder = l ++ e :: r) :
    addLarge n tm start stop =
      if e.value ≥ stop then some tm' else upperBoundLoop n e.addr stop n tm' e.addr := by
  obtain ⟨m, hm, -, hval⟩ := h.mem (e := e) (by rw [hin]; simp)
  rw [addLarge, hrun]
  simp only [bind_eq_bind, bind_some, hm, hval]

/-- **The tree gets the new range** if none of the entries that it swallows has two children;
otherwise the result is not canonical. -/
theorem Shows.addLarge (h : Shows tm t) (hstart : smallChars ≤ start) (hle : start ≤ stop)
    (hstop : stop ≤ charMax) (hn : 2 * t.inorder.length + 2 < n) :
    ∃ tm' t', CharSet.addLarge n tm start stop = some tm' ∧ Holds tm' t' ∧
      (AddsCleanly start stop tm.fresh t → Shows tm' t' ∧
        t'.inorder.length ≤ t.inorder.length + 1 ∧ ∀ c, Covers (contents t'.inorder) c ↔
          Covers (contents t.inorder) c ∨ (start ≤ c ∧ c ≤ stop)) ∧
      (¬ AddsCleanly start stop tm.fresh t → ¬ Shows tm' t') := by
  obtain ⟨tm₁, l, r, e, hrun, h₁, hin₁, hr, hb⟩ := lowerBound_spec h hstart (n := n) (by omega)
  have hlen := hb.length_le
  rw [addLarge_eq hrun h₁ hin₁, AddsCleanly, hb.swallowed_eq (hin₁ ▸ h₁.sorted) hr]
  split_ifs with hval
  · rw [hb.met_eq_nil h.canonical hstart hle hval]
    refine ⟨tm₁, _, rfl, h₁, fun _ => ?_, fun hnot => (hnot trivial).elim⟩
    cases hb with
    | found hin hkey hreach =>
      refine ⟨⟨h₁, ?_⟩, hin₁ ▸ hlen, fun c => ?_⟩
      · rw [hin₁, ← hin]
        exact h.canonical
      · rw [hin₁, ← hin, iff_self_or, hin]
        intro hc
        rw [contents_append, contents_cons, covers_append, covers_cons]
        exact .inr (.inl ⟨hkey.trans hc.1, hc.2.trans hval⟩)
    | new hin hkey hzero =>
      have : 0 < smallChars := by decide
      omega
  · obtain ⟨hcan, hlo, hkey, hlv, hrk⟩ := hb.separated h.canonical hstart hr
    rw [not_le] at hval
    obtain ⟨tm', t', v, rs, hrun', h', hcon, -, hclean, hstays⟩ := upperBoundLoop_spec (n := n)
      (k := n) (q := []) h₁ hin₁ (.of_holds h₁ hin₁) (canonical_append.1 hcan).2.1
      (by rw [hin₁]; omega) (by simp at hlen; omega)
    refine ⟨tm', t', hrun', h', fun hc => ?_, fun hc h'' => ?_⟩
    · obtain ⟨rfl, rfl⟩ := Prod.mk.inj (hclean hc).symm
      refine ⟨⟨h', ?_⟩, ?_, fun c => ?_⟩
      · rw [hcon]
        exact canonical_absorb hcan hlo (hkey.trans hle) hstop hlv
      · have hlen' := congrArg length hcon
        have hsub := (absorb_sublist stop (contents r)).length_le
        simp only [contents, length_append, length_cons, length_map, length_nil] at hlen' hsub hlen
        omega
      · rw [hcon]
        exact (covers_absorb hcan hstop hrk c).trans (hb.covers hval c).symm
    · obtain ⟨y, hy, hyv⟩ := hstays hc
      have hcan' := h''.canonical
      rw [hcon, canonical_append, canonical_cons] at hcan'
      have := hcan'.2.1.2.1 y hy
      omega

end

end Sagittarius.CharSet
