import Mathlib.Data.List.Forall2
import Mathlib.Data.Set.Finite.Lattice
import Sagittarius.HashTable.Table

/-!
# Hash tables and finite maps

Any sequence of operations on any number of tables, which may be copies of each other, against the
same operations on finite maps.

* `Represents` : the tables in memory, with their sheets, have no cell in common;
* `Represents.step` : an operation on the tables does what it does to the finite maps;
* `tables_are_maps_iff` : all tables answer as their finite maps, exactly if no table grows that
  has copied entries which do not belong in the bucket of the hash value zero.
-/

namespace Sagittarius.HashTable

open List

variable {κ ν : Type}

/-! ### Specification -/

/-- What the operation does to the sheets of the tables -/
def Op.spec (h : Hashing κ) (sheets : List (Sheet h ν)) : Op κ ν → List (Sheet h ν)
  | .create initSize => sheets ++ [.init h ν initSize]
  | .set t key value => sheets.modify t fun s => s.set (h.cls key) value
  | .delete t key => sheets.modify t fun s => s.delete (h.cls key)
  | .clear t k => sheets.modify t fun s => s.clear k
  | .copy t => sheets ++ (sheets[t]?.map Sheet.copy).toList

/-- The operation moves no entry away from its bucket. -/
def Op.Safe (h : Hashing κ) (sheets : List (Sheet h ν)) : Op κ ν → Prop
  | .set t key _ => ∀ s, sheets[t]? = some s → s.SafeSet (h.cls key)
  | _ => True

/-- The sheets after a sequence of operations -/
def sheetsAfter (h : Hashing κ) (ops : List (Op κ ν)) : List (Sheet h ν) :=
  ops.foldl (Op.spec h) []

/-- None of the operations moves an entry away from its bucket. -/
def Safe (h : Hashing κ) (ops : List (Op κ ν)) : Prop :=
  ∀ pre op, pre ++ [op] <+: ops → op.Safe h (sheetsAfter h pre)

/-- A table answers as the finite map of its sheet: lookups, the number of entries, and the entries
that an iterator visits. -/
structure Answers [Inhabited ν] (h : Hashing κ) (n : ℕ) (heap : Heap κ ν) (core : SgHashCore)
    (sheet : Sheet h ν) : Prop where
  ref : ∀ key, hashTableRef h n heap core key = some (sheet.map.lookup (h.cls key))
  entryCount : core.entryCount = sheet.map.keys.card
  iterate : ∃ es, iterate heap core n (hashIterInit core) = some es ∧
    (es.map fun e => h.cls e.1).Nodup ∧
    ∀ q v, sheet.map.lookup q = some v ↔ ∃ e ∈ es, h.cls e.1 = q ∧ e.2 = v

/-- After the operations all tables answer as their finite maps. -/
def Right [Inhabited ν] (h : Hashing κ) (n : ℕ) (ops : List (Op κ ν)) : Prop :=
  ∃ s, run h n ops = some s ∧ List.Forall₂ (Answers h n s.heap) s.tables (sheetsAfter h ops)

variable {h : Hashing κ} {heap heap' : Heap κ ν} {n t : ℕ} {x x' : Held h ν}
  {xs : List (Held h ν)} {s : Store κ ν}

/-! ### One table -/

theorem Rep.answers_iff [Inhabited ν] (hx : Rep heap x) (hn : x.all.length < n) :
    Answers h n heap x.core x.sheet ↔ Placed x := by
  refine ⟨fun ha => (hx.placed_iff hn).1 ha.ref, fun hp => ⟨(hx.placed_iff hn).2 hp, ?_, ?_⟩⟩
  · rw [hx.entries, hx.contents.length_eq]
  · have hlater : Later heap x.core x.cells 0 := fun j _ hj =>
      ⟨hx.holds.bucket j hj, hx.holds.chain j hj⟩
    refine ⟨_, hlater.init.iterate hn, ?_, fun q v => ?_⟩
    · rw [map_map]
      exact hx.contents.keys
    · rw [hx.contents.lookup]
      simp only [mem_map, exists_exists_and_eq_and]
      rfl

theorem Rep.congr {L : List ℕ} (hx : Rep heap x) (hrw : Rewrites L heap heap')
    (hL : ∀ a ∈ addrs x.all, a ∉ L) : Rep heap' x where
  holds := hx.holds.congr hrw.fresh fun a ha => hrw.outside a (hL a ha) (hx.holds.fresh a ha)
  pos := hx.pos
  count := hx.count
  bits := hx.bits
  entries := hx.entries
  contents := hx.contents

/-! ### All tables -/

/-- The tables in memory, which have no cell in common -/
structure Represents (s : Store κ ν) (xs : List (Held h ν)) : Prop where
  tables : s.tables = xs.map Held.core
  rep : ∀ x ∈ xs, Rep s.heap x
  apart : ∀ (i j : ℕ) (x y : Held h ν), i ≠ j → xs[i]? = some x → xs[j]? = some y →
    ∀ a ∈ addrs x.all, a ∉ addrs y.all

theorem Represents.getElem? (hs : Represents s xs) (t : ℕ) :
    s.tables[t]? = xs[t]?.map Held.core := by
  rw [hs.tables, getElem?_map]

theorem Represents.put {l : List (Cell κ ν)} {xs' : List (Held h ν)} (hs : Represents s xs)
    (hx' : Rep heap' x') (hf : Frame s.heap heap' l x'.all)
    (hl : ∀ j y, j ≠ t → xs[j]? = some y → ∀ a ∈ addrs y.all, a ∉ addrs l)
    (hget : ∀ j y, xs'[j]? = some y → (j = t ∧ y = x') ∨ (j ≠ t ∧ xs[j]? = some y)) :
    Represents ⟨heap', xs'.map Held.core⟩ xs' := by
  -- what stays is apart from the new table
  have hother : ∀ j y, j ≠ t → xs[j]? = some y → ∀ a ∈ addrs y.all, a ∉ addrs x'.all := by
    intro j y hne hy a ha hax'
    rcases hf.new a hax' with hmem | hge
    · exact hl j y hne hy a ha hmem
    · exact absurd ((hs.rep y (mem_of_getElem? hy)).holds.fresh a ha) hge.not_gt
  refine ⟨rfl, fun y hy => ?_, fun i j y z hij hy hz a ha => ?_⟩
  · obtain ⟨j, hj⟩ := mem_iff_getElem?.1 hy
    rcases hget j y hj with ⟨-, rfl⟩ | ⟨hne, hyj⟩
    · exact hx'
    · exact (hs.rep y (mem_of_getElem? hyj)).congr hf.rewrites (hl j y hne hyj)
  · rcases hget i y hy with ⟨rfl, rfl⟩ | ⟨hi, hy'⟩ <;>
      rcases hget j z hz with ⟨rfl, rfl⟩ | ⟨hj, hz'⟩
    · exact (hij rfl).elim
    · exact fun haz => hother j z hj hz' a haz ha
    · exact hother i y hi hy' a ha
    · exact hs.apart i j y z hij hy' hz' a ha

theorem Represents.set (hs : Represents s xs) (ht : xs[t]? = some x) (hx' : Rep heap' x')
    (hf : Frame s.heap heap' x.all x'.all) :
    Represents ⟨heap', s.tables.set t x'.core⟩ (xs.set t x') := by
  rw [hs.tables, ← map_set]
  refine hs.put hx' hf (fun j y hne hy => hs.apart j t y x hne hy ht) fun j y hy => ?_
  rw [getElem?_set] at hy
  split at hy
  · rename_i htj
    split at hy
    · exact .inl ⟨htj.symm, (Option.some.inj hy).symm⟩
    · cases hy
  · rename_i htj
    exact .inr ⟨Ne.symm htj, hy⟩

theorem Represents.snoc (hs : Represents s xs) (hx' : Rep heap' x')
    (hf : Frame s.heap heap' [] x'.all) :
    Represents ⟨heap', s.tables ++ [x'.core]⟩ (xs ++ [x']) := by
  have htables : s.tables ++ [x'.core] = (xs ++ [x']).map Held.core := by
    rw [hs.tables, map_append]
    rfl
  rw [htables]
  refine hs.put (t := xs.length) hx' hf (fun _ _ _ _ _ _ => not_mem_nil) fun j y hy => ?_
  rw [getElem?_append] at hy
  split at hy
  · rename_i hj
    exact .inr ⟨hj.ne, hy⟩
  · rename_i hj
    rw [getElem?_singleton] at hy
    split at hy
    · exact .inl ⟨by omega, (Option.some.inj hy).symm⟩
    · cases hy

theorem forall_mem_set_iff (ht : xs[t]? = some x) (hp : ∀ y ∈ xs, Placed y) :
    (∀ y ∈ xs.set t x', Placed y) ↔ Placed x' := by
  obtain ⟨hlt, -⟩ := List.getElem?_eq_some_iff.1 ht
  refine ⟨fun hall => hall x' (mem_set hlt x'), fun hx' y hy => ?_⟩
  rcases mem_or_eq_of_mem_set hy with hy | rfl
  · exact hp y hy
  · exact hx'

theorem Represents.update (hs : Represents s xs) (hp : ∀ y ∈ xs, Placed y) (t : ℕ)
    (f : ℕ → Heap κ ν → SgHashCore → Option (Heap κ ν × SgHashCore)) (g : Sheet h ν → Sheet h ν)
    (P : Sheet h ν → Prop)
    (hf : ∀ x ∈ xs, ∃ heap' x',
      (∀ n > x.all.length + 1, f n s.heap x.core = some (heap', x'.core)) ∧
      x'.sheet = g x.sheet ∧ Rep heap' x' ∧ Frame s.heap heap' x.all x'.all ∧
      (Placed x' ↔ P x.sheet)) :
    ∃ k s' xs', (∀ n > k, s.update t (f n) = some s') ∧ Represents s' xs' ∧
      xs'.map Held.sheet = (xs.map Held.sheet).modify t g ∧
      ((∀ y ∈ xs', Placed y) ↔ ∀ sheet, (xs.map Held.sheet)[t]? = some sheet → P sheet) := by
  unfold Store.update
  rw [hs.getElem?, getElem?_map]
  cases ht : xs[t]? with
  | none =>
    refine ⟨0, s, xs, fun _ _ => rfl, hs, ?_, iff_of_true hp nofun⟩
    rw [modify_eq_self]
    simpa using ht
  | some x =>
    obtain ⟨heap', x', hrun, hsheet, hx', hframe, hplaced⟩ := hf x (mem_of_getElem? ht)
    refine ⟨x.all.length + 1, ⟨heap', s.tables.set t x'.core⟩, xs.set t x', fun n hn => ?_,
      hs.set ht hx' hframe, ?_, ?_⟩
    · simp [hrun n hn]
    · rw [modify_eq_set_getElem?, getElem?_map, ht, map_set, hsheet]
      rfl
    · rw [forall_mem_set_iff ht hp, hplaced]
      simp

/-- **An operation on the tables does what it does to the finite maps.** -/
theorem Represents.step [Inhabited ν] (hs : Represents s xs) (hp : ∀ y ∈ xs, Placed y)
    (op : Op κ ν) :
    ∃ k s' xs', (∀ n > k, op.run h n s = some s') ∧ Represents s' xs' ∧
      xs'.map Held.sheet = op.spec h (xs.map Held.sheet) ∧
      ((∀ y ∈ xs', Placed y) ↔ op.Safe h (xs.map Held.sheet)) := by
  cases op with
  | create initSize =>
    have hx' : Rep s.heap (⟨hashCoreInit initSize, fun _ => [], .init h ν initSize⟩ : Held h ν) :=
      rep_init s.heap initSize
    have hempty : (⟨hashCoreInit initSize, fun _ => [], .init h ν initSize⟩ : Held h ν).all = [] :=
      allCells_empty _
    refine ⟨0, _, _, fun _ _ => rfl, hs.snoc hx' ⟨.refl _ _, by simp [hempty]⟩, by simp [Op.spec],
      iff_of_true (forall_mem_append.2 ⟨hp, ?_⟩) trivial⟩
    rw [forall_mem_singleton]
    exact fun _ _ _ hc => nomatch hc
  | set t key value =>
    exact hs.update hp t (fun n heap table => hashTableSet h n heap table key value)
      (fun sheet => sheet.set (h.cls key) value) (fun sheet => sheet.SafeSet (h.cls key))
      fun x hx => (hs.rep x hx).hashTableSet (hp x hx) key value
  | delete t key =>
    obtain ⟨k, s', xs', hrun, hs', hsheets, hplaced⟩ :=
      hs.update hp t (fun n heap table => hashTableDelete h n heap table key)
        (fun sheet => sheet.delete (h.cls key)) (fun _ => True) fun x hx => by
          obtain ⟨heap', x', hrun, hsheet, hx', hframe, hp'⟩ :=
            (hs.rep x hx).hashTableDelete (hp x hx) key
          exact ⟨heap', x', fun n hn => hrun n (Nat.lt_of_succ_lt hn), hsheet, hx', hframe,
            iff_of_true hp' trivial⟩
    exact ⟨k, s', xs', hrun, hs', hsheets, hplaced.trans (iff_of_true (fun _ _ => trivial) trivial)⟩
  | clear t size =>
    obtain ⟨k, s', xs', hrun, hs', hsheets, hplaced⟩ :=
      hs.update hp t (fun _ heap table => some (heap, hashCoreClear table size))
        (fun sheet => sheet.clear size) (fun _ => True) fun x hx => by
          have hempty :
              (⟨hashCoreClear x.core size, fun _ => [], x.sheet.clear size⟩ : Held h ν).all = [] :=
            allCells_empty _
          exact ⟨s.heap, _, fun _ _ => rfl, rfl, (hs.rep x hx).clear size,
            ⟨.refl _ _, by simp [hempty]⟩, iff_of_true (fun _ _ _ hc => nomatch hc) trivial⟩
    exact ⟨k, s', xs', hrun, hs', hsheets, hplaced.trans (iff_of_true (fun _ _ => trivial) trivial)⟩
  | copy t =>
    simp only [Op.run, Op.spec, Op.Safe, hs.getElem?, getElem?_map]
    cases ht : xs[t]? with
    | none => exact ⟨0, s, xs, fun _ _ => rfl, hs, by simp, iff_of_true hp trivial⟩
    | some x =>
      have hx := mem_of_getElem? ht
      obtain ⟨heap', x', hrun, hsheet, hx', hframe, hp'⟩ :=
        (hs.rep x hx).hashCoreCopy (hp x hx)
      refine ⟨x.all.length, ⟨heap', s.tables ++ [x'.core]⟩, xs ++ [x'], fun n hn => ?_,
        hs.snoc hx' hframe, ?_, iff_of_true (forall_mem_append.2 ⟨hp, ?_⟩) trivial⟩
      · simp [hrun n hn]
      · simp [hsheet]
      · rwa [forall_mem_singleton]

/-! ### Sequences of operations -/

theorem sheetsAfter_concat (h : Hashing κ) (ops : List (Op κ ν)) (op : Op κ ν) :
    sheetsAfter h (ops ++ [op]) = op.spec h (sheetsAfter h ops) := by
  rw [sheetsAfter, foldl_append]
  rfl

theorem safe_concat (ops : List (Op κ ν)) (op : Op κ ν) :
    Safe h (ops ++ [op]) ↔ Safe h ops ∧ op.Safe h (sheetsAfter h ops) := by
  constructor
  · intro hs
    exact ⟨fun pre o hpre => hs pre o (hpre.trans (List.prefix_append _ _)),
      hs ops op (prefix_refl _)⟩
  · rintro ⟨hs, hop⟩ pre o hpre
    rcases prefix_concat_iff.1 hpre with heq | hpre
    · obtain ⟨rfl, ho⟩ := append_inj' heq rfl
      rw [singleton_inj.1 ho]
      exact hop
    · exact hs pre o hpre

/-- With more fuel than `k` the operations lead to these tables, which have the entries of their
finite maps. -/
structure Reached [Inhabited ν] (n : ℕ) (ops : List (Op κ ν)) (s : Store κ ν)
    (xs : List (Held h ν)) : Prop where
  run_eq : run h n ops = some s
  represents : Represents s xs
  sheets : xs.map Held.sheet = sheetsAfter h ops

section

variable [Inhabited ν] {ops : List (Op κ ν)} {k : ℕ}

section

variable (hr : ∀ n > k, Reached n ops s xs)

include hr

theorem right_iff_of_reached : ∃ k', ∀ n > k', (Right h n ops ↔ ∀ y ∈ xs, Placed y) := by
  obtain ⟨b, hb⟩ := (finite_toSet (xs.map fun y => y.all.length)).bddAbove
  refine ⟨max k b, fun n hn => ?_⟩
  have hr := hr n ((le_max_left _ _).trans_lt hn)
  have hanswers : List.Forall₂ (Answers h n s.heap) s.tables (sheetsAfter h ops) ↔
      ∀ y ∈ xs, Answers h n s.heap y.core y.sheet := by
    rw [hr.represents.tables, ← hr.sheets, forall₂_map_left_iff, forall₂_map_right_iff,
      forall₂_same]
  unfold Right
  simp only [hr.run_eq, Option.some.injEq, exists_eq_left', hanswers]
  refine forall₂_congr fun y hy => ?_
  have hle : y.all.length ≤ b := hb (mem_map.2 ⟨y, hy, rfl⟩)
  exact (hr.represents.rep y hy).answers_iff (hle.trans_lt ((le_max_right _ _).trans_lt hn))

theorem reached_concat (hp : ∀ y ∈ xs, Placed y) (op : Op κ ν) :
    ∃ k' s', ∃ xs' : List (Held h ν), (∀ n > k', Reached n (ops ++ [op]) s' xs') ∧
      ((∀ y ∈ xs', Placed y) ↔ op.Safe h (sheetsAfter h ops)) := by
  obtain ⟨-, hs, hsheet⟩ := hr (k + 1) k.lt_succ_self
  obtain ⟨b, s', xs', hrun, hs', hsheets, hplaced⟩ := hs.step hp op
  rw [hsheet] at hsheets hplaced
  refine ⟨max k b, s', xs', fun n hn => ⟨?_, hs', ?_⟩, hplaced⟩
  · rw [run, foldlM_append,
      show foldlM _ _ ops = some s from (hr n ((le_max_left _ _).trans_lt hn)).run_eq]
    simpa using hrun n ((le_max_right _ _).trans_lt hn)
  · rw [hsheets, sheetsAfter_concat]

end

theorem exists_reached (ops : List (Op κ ν)) (hsafe : Safe h ops) :
    ∃ k s, ∃ xs : List (Held h ν), (∀ n > k, Reached n ops s xs) ∧ ∀ y ∈ xs, Placed y := by
  induction ops using reverseRecOn with
  | nil =>
    exact ⟨0, .empty, [], fun _ _ => ⟨rfl, ⟨rfl, nofun, fun _ _ _ _ _ hx => nomatch hx⟩, rfl⟩,
      nofun⟩
  | append_singleton ops op ih =>
    obtain ⟨hops, hop⟩ := (safe_concat ops op).1 hsafe
    obtain ⟨k, s, xs, hr, hp⟩ := ih hops
    obtain ⟨k', s', xs', hr', hplaced⟩ := reached_concat hr hp op
    exact ⟨k', s', xs', hr', hplaced.2 hop⟩

theorem right_concat_iff (ops : List (Op κ ν)) (op : Op κ ν) (hsafe : Safe h ops) :
    ∃ k, ∀ n > k, (Right h n (ops ++ [op]) ↔ op.Safe h (sheetsAfter h ops)) := by
  obtain ⟨k, s, xs, hr, hp⟩ := exists_reached ops hsafe
  obtain ⟨k', s', xs', hr', hplaced⟩ := reached_concat hr hp op
  rw [← hplaced]
  exact right_iff_of_reached hr'

end

/-- **Hash tables are finite maps**, after each of any operations on any number of tables, exactly
if no operation makes a table grow that has copied entries which do not belong in the bucket of the
hash value zero. -/
theorem tables_are_maps_iff [Inhabited ν] (h : Hashing κ) (ops : List (Op κ ν)) :
    ∃ k, ∀ n, k ≤ n → ((∀ pre, pre <+: ops → Right h n pre) ↔ Safe h ops) := by
  induction ops using reverseRecOn with
  | nil =>
    refine ⟨0, fun n _ => ⟨?_, ?_⟩⟩
    · rintro - pre op hpre
      simp at hpre
    · intro _ pre hpre
      rw [prefix_nil.1 hpre]
      exact ⟨.empty, rfl, .nil⟩
  | append_singleton ops op ih =>
    obtain ⟨k, hk⟩ := ih
    rw [safe_concat]
    by_cases hsafe : Safe h ops
    · obtain ⟨k', hk'⟩ := right_concat_iff ops op hsafe
      refine ⟨max k (k' + 1), fun n hn => ?_⟩
      have hops := hk n ((le_max_left _ _).trans hn)
      rw [← hk' n ((le_max_right _ _).trans hn)]
      constructor
      · intro hright
        exact ⟨hsafe, hright _ (prefix_refl _)⟩
      · rintro ⟨-, hop⟩ pre hpre
        rcases prefix_concat_iff.1 hpre with rfl | hpre
        · exact hop
        · exact hops.2 hsafe pre hpre
    · refine ⟨k, fun n hn => iff_of_false (fun hright => hsafe ?_) fun hs => hsafe hs.1⟩
      exact (hk n hn).1 fun pre hpre => hright pre (hpre.trans (List.prefix_append _ _))

/-- Natural numbers, with a hash function that takes their last 32 bits -/
def natHashing : Hashing ℕ where
  hasher := UInt32.ofNat
  compare a b := decide (a = b)
  refl _ := decide_eq_true rfl
  symm hab := decide_eq_true (of_decide_eq_true hab).symm
  trans hab hbc := decide_eq_true ((of_decide_eq_true hab).trans (of_decide_eq_true hbc))
  hash_eq hab := congrArg UInt32.ofNat (of_decide_eq_true hab)

/-- The copy of a table with three entries grows with the fourth; then an entry is not found any
more, which the table that was copied still has. -/
theorem copied_entry_lost :
    (run natHashing 9 [.create 1, .set 0 1 10, .set 0 2 20, .set 0 3 30, .copy 0, .set 1 4 40]).map
        (fun s => s.tables.map fun table => hashTableRef natHashing 9 s.heap table 1) =
      some [some (some 10), some none] := by
  decide +kernel

end Sagittarius.HashTable
