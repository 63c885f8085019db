import Mathlib.Data.List.Nodup
import Sagittarius.Import.Model

/-!
# Imported names are resolved

What an import set means is told forwards: every clause keeps, drops or renames the names that the
set inside of it imports (`ImportSet.imports`, which is `none` for sets that are a syntax
violation).  The lookup runs backwards.

* `unrenameVariable_sound` : a name that is found is one of the import set;
* `unrenameVariable_iff` : which names of the import set are found;
* `import_right_iff` : **lookup is the inverse of the import set** exactly if no `rename` clause
  gives away a name that it also takes, as it does when it exchanges two names, unless the clauses
  around it drop that name.
-/

namespace Sagittarius.Import

open Option
open Prod (fst snd)

/-! ### What an import set means -/

/-- What a clause makes of the pairs of exported and imported names. -/
def Clause.image (clause : Clause) (m : List (Name × Name)) : List (Name × Name) :=
  m.filterMap fun p => (clause.forward p.2).map fun k => (p.1, k)

/-- The clause may stand around a set with these pairs of exported and imported names: the names
it mentions are imported, and it gives no name to two of them. -/
def Clause.Allowed (clause : Clause) (m : List (Name × Name)) : Prop :=
  match clause with
  | .only ids => ∀ id ∈ ids, id ∈ m.map snd
  | .except ids => ∀ id ∈ ids, id ∈ m.map snd
  | .rename renames =>
    (renames.map fst).Nodup ∧ (∀ old ∈ renames.map fst, old ∈ m.map snd) ∧
      ∀ p ∈ clause.image m, ∀ q ∈ clause.image m, p.2 = q.2 → p.1 = q.1
  | .withPrefix _ => True
  | .forPhase => True

instance : (clause : Clause) → (m : List (Name × Name)) → Decidable (clause.Allowed m)
  | .only ids, m => inferInstanceAs (Decidable (∀ id ∈ ids, id ∈ m.map snd))
  | .except ids, m => inferInstanceAs (Decidable (∀ id ∈ ids, id ∈ m.map snd))
  | .rename _, _ => inferInstanceAs (Decidable (_ ∧ _ ∧ _))
  | .withPrefix _, _ => inferInstanceAs (Decidable True)
  | .forPhase, _ => inferInstanceAs (Decidable True)

/-- The pairs of exported and imported names of an import set, or `none` for a syntax violation. -/
def ImportSet.imports (external : List Name) : ImportSet → Option (List (Name × Name))
  | .library => some (external.map fun n => (n, n))
  | .modified clause set =>
    (set.imports external).bind fun m => if clause.Allowed m then some (clause.image m) else none

/-- An export list, with the names that are exported as they are and the pairs of a name and
another one it is exported under. -/
structure ExportList where
  names : List Name
  renames : List (Name × Name)
  distinct : (names ++ renames.map snd).Nodup

/-- The exported names. -/
def ExportList.external (e : ExportList) : List Name := e.names ++ e.renames.map snd

/-- `b` is exported under the name `n`. -/
def ExportList.Exports (e : ExportList) (b n : Name) : Prop :=
  b = n ∧ n ∈ e.names ∨ (b, n) ∈ e.renames

/-- The export list as the library keeps it. -/
def ExportList.exported (e : ExportList) : Exported := ⟨e.names.map .name, e.renames⟩

/-- `tolib` has no imports yet and does not define `k`, and `fromlib` exports `e`. -/
structure Importable {ι : Type} (libs : ι → SgLibrary ι) (tolib fromlib : ι) (e : ExportList)
    (k : Name) : Prop where
  parents : (libs tolib).parents = []
  undefined : (libs tolib).table k = false
  exported : (libs fromlib).exported = some e.exported

/-- Lookup is the inverse of an import set that means `m`. -/
structure ImportRight (e : ExportList) (set : ImportSet) (m : List (Name × Name)) : Prop where
  /-- Running the clauses backwards inverts the renaming, and only that. -/
  inverse : ∀ k n, unrenameVariable k set.parseSpec.reverse = some n ∧ n ∈ e.external ↔ (n, k) ∈ m
  /-- An imported name is bound to what the name it stands for is bound to in the library that
  exports it, which may have imported it. -/
  follows : ∀ {ι : Type} [DecidableEq ι] (libs : ι → SgLibrary ι) (tolib fromlib : ι) (fuel : ℕ)
    (k n b : Name), Importable libs tolib fromlib e k → (n, k) ∈ m → e.Exports b n →
    findBinding (pass1Import libs tolib fromlib set) (fuel + 1) tolib k =
      findBinding (pass1Import libs tolib fromlib set) fuel fromlib b
  /-- If that library defines what it exports, this is its own binding, and no other name has it. -/
  resolves : ∀ {ι : Type} [DecidableEq ι] (libs : ι → SgLibrary ι) (tolib fromlib : ι) (fuel : ℕ)
    (k b : Name), Importable libs tolib fromlib e k →
    (∀ b n, e.Exports b n → (libs fromlib).table b) →
    (findBinding (pass1Import libs tolib fromlib set) (fuel + 2) tolib k =
        some (some (fromlib, b)) ↔ ∃ n, (n, k) ∈ m ∧ e.Exports b n)
  /-- A name that is not imported has no binding. -/
  excludes : ∀ {ι : Type} [DecidableEq ι] (libs : ι → SgLibrary ι) (tolib fromlib : ι) (fuel : ℕ)
    (k : Name), Importable libs tolib fromlib e k → (∀ n, (n, k) ∉ m) →
    findBinding (pass1Import libs tolib fromlib set) (fuel + 2) tolib k = some none

/-- What the clauses make of a name, the innermost first. -/
def forwardAll : List Clause → Name → Option Name
  | [], k => some k
  | clause :: clauses, k => (clause.forward k).bind (forwardAll clauses)

/-- A `rename` clause takes a name and gives it to another one. -/
def Clause.Exchanges (clause : Clause) (k : Name) : Prop :=
  match clause with
  | .rename renames => k ∈ renames.map fst ∧ k ∈ renames.map snd
  | _ => False

/-- A name that a clause takes and gives is dropped by the clauses around it; `outer` are those
around the whole set. -/
def ImportSet.NoExchange : ImportSet → List Clause → Prop
  | .library, _ => True
  | .modified clause set, outer =>
    (∀ k, clause.Exchanges k → forwardAll outer k = none) ∧ set.NoExchange (clause :: outer)

/-! ### Renamings -/

variable {l : List (Name × Name)}

theorem assq_eq_none {k : Name} : assq k l = none ↔ k ∉ l.map fst := by
  simp only [assq, List.find?_eq_none, beq_iff_eq, List.mem_map, not_exists, not_and]

theorem cadrAssq_eq_none {k : Name} : cadrAssq k l = none ↔ k ∉ l.map snd := by
  simp only [cadrAssq, List.find?_eq_none, beq_iff_eq, List.mem_map, not_exists, not_and]

theorem assq_mem {o : Name} {slot : Name × Name} (h : assq o l = some slot) : (o, slot.2) ∈ l := by
  have ho := List.find?_some h
  simp only [beq_iff_eq] at ho
  exact ho ▸ List.mem_of_find?_eq_some h

theorem cadrAssq_mem {k : Name} {slot : Name × Name}
    (h : cadrAssq k l = some slot) : (slot.1, k) ∈ l := by
  have hk := List.find?_some h
  simp only [beq_iff_eq] at hk
  exact hk ▸ List.mem_of_find?_eq_some h

section

variable {renames : List (Name × Name)} {j k o : Name}

theorem forward_rename_of_mem (h : (renames.map fst).Nodup) (hmem : (o, k) ∈ renames) :
    (Clause.rename renames).forward o = some k := by
  rw [Clause.forward]
  cases hassq : assq o renames with
  | none => exact absurd (List.mem_map_of_mem hmem) (assq_eq_none.1 hassq)
  | some slot =>
    have := List.inj_on_of_nodup_map h (assq_mem hassq) hmem rfl
    exact congrArg some (Prod.mk.inj this).2

theorem forward_rename_cases (h : (Clause.rename renames).forward j = some k) :
    (j, k) ∈ renames ∨ j ∉ renames.map fst ∧ k = j := by
  rw [Clause.forward] at h
  cases hassq : assq j renames with
  | none =>
    rw [hassq] at h
    exact .inr ⟨assq_eq_none.1 hassq, (some.inj h).symm⟩
  | some slot =>
    rw [hassq] at h
    obtain rfl : slot.2 = k := some.inj h
    exact .inl (assq_mem hassq)

theorem unrenameClause_rename (h : k ∉ renames.map fst) :
    unrenameClause k (.rename renames) = some (((cadrAssq k renames).map fst).getD k) := by
  rw [unrenameClause, assq_eq_none.2 h]
  cases cadrAssq k renames <;> rfl

theorem unrenameClause_exchanged (h : k ∈ renames.map fst) :
    unrenameClause k (.rename renames) = none := by
  rw [unrenameClause]
  cases hassq : assq k renames with
  | none => exact absurd h (assq_eq_none.1 hassq)
  | some slot => rfl

end

/-! ### One clause forwards and backwards -/

section

variable {clause : Clause} {m : List (Name × Name)} {j k n : Name}

theorem mem_image : (n, k) ∈ clause.image m ↔ ∃ j, (n, j) ∈ m ∧ clause.forward j = some k := by
  simp only [Clause.image, List.mem_filterMap, map_eq_some_iff, Prod.mk.injEq]
  constructor
  · rintro ⟨⟨n', j⟩, hmem, k', hk, rfl, rfl⟩
    exact ⟨j, hmem, hk⟩
  · rintro ⟨j, hmem, hk⟩
    exact ⟨(n, j), hmem, k, hk, rfl, rfl⟩

theorem unrenameClause_sound (hallowed : clause.Allowed m)
    (h : unrenameClause k clause = some j) : clause.forward j = some k := by
  cases clause with
  | only ids =>
    rw [unrenameClause] at h
    split_ifs at h with hk
    obtain rfl := some.inj h
    exact if_pos hk
  | except ids =>
    rw [unrenameClause] at h
    split_ifs at h with hk
    obtain rfl := some.inj h
    exact if_neg hk
  | withPrefix id =>
    rw [unrenameClause] at h
    split_ifs at h with hlen hid
    obtain rfl := some.inj h
    rw [Clause.forward]
    nth_rewrite 1 [← hid]
    rw [List.take_append_drop]
  | forPhase => exact h.symm
  | rename renames =>
    by_cases hk : k ∈ renames.map fst
    · rw [unrenameClause_exchanged hk] at h
      cases h
    · rw [unrenameClause_rename hk] at h
      cases hcadr : cadrAssq k renames with
      | none =>
        rw [hcadr] at h
        obtain rfl : k = j := some.inj h
        rw [Clause.forward, assq_eq_none.2 hk]
        rfl
      | some slot =>
        rw [hcadr] at h
        obtain rfl : slot.1 = j := some.inj h
        exact forward_rename_of_mem hallowed.1 (cadrAssq_mem hcadr)

theorem forward_rename_inj {renames : List (Name × Name)}
    (hallowed : (Clause.rename renames).Allowed m)
    (hm : ∀ n j j', (n, j) ∈ m → (n, j') ∈ m → j = j') {j' : Name}
    (hj : j ∈ m.map snd) (hj' : j' ∈ m.map snd)
    (h : (Clause.rename renames).forward j = some k)
    (h' : (Clause.rename renames).forward j' = some k) : j = j' := by
  obtain ⟨⟨n, j⟩, hnj, rfl⟩ := List.mem_map.1 hj
  obtain ⟨⟨n', j'⟩, hnj', rfl⟩ := List.mem_map.1 hj'
  obtain rfl : n = n' := hallowed.2.2 (n, k) (mem_image.2 ⟨j, hnj, h⟩) (n', k)
    (mem_image.2 ⟨j', hnj', h'⟩) rfl
  exact hm n j j' hnj hnj'

theorem unrenameClause_of_exchanges (h : clause.Exchanges k) : unrenameClause k clause = none := by
  cases clause with
  | rename renames => exact unrenameClause_exchanged h.1
  | only ids | except ids | withPrefix id | forPhase => exact h.elim

/-- One round backwards undoes a clause, but for names that it takes and gives. -/
theorem unrenameClause_of_forward (hallowed : clause.Allowed m)
    (hm : ∀ n j j', (n, j) ∈ m → (n, j') ∈ m → j = j') (hmem : (n, j) ∈ m)
    (h : clause.forward j = some k) (hk : ¬ clause.Exchanges k) :
    unrenameClause k clause = some j := by
  cases clause with
  | only ids =>
    rw [Clause.forward] at h
    split_ifs at h with hj
    obtain rfl := some.inj h
    exact if_pos hj
  | except ids =>
    rw [Clause.forward] at h
    split_ifs at h with hj
    obtain rfl := some.inj h
    exact if_neg hj
  | withPrefix id =>
    obtain rfl : id ++ j = k := some.inj h
    simp [unrenameClause]
  | forPhase => exact h.symm
  | rename renames =>
    have hj : j ∈ m.map snd := List.mem_map_of_mem hmem
    have hold : k ∉ renames.map fst := by
      obtain hjk | ⟨hj', rfl⟩ := forward_rename_cases h
      · exact fun hk' => hk ⟨hk', List.mem_map_of_mem hjk⟩
      · exact hj'
    rw [unrenameClause_rename hold]
    cases hcadr : cadrAssq k renames with
    | none =>
      -- nothing is renamed to `k`, so it is the same name
      obtain hjk | ⟨-, rfl⟩ := forward_rename_cases h
      · exact absurd (List.mem_map_of_mem hjk) (cadrAssq_eq_none.1 hcadr)
      · rfl
    | some slot =>
      have hslot := cadrAssq_mem hcadr
      have hin : slot.1 ∈ m.map snd := hallowed.2.1 _ (List.mem_map.2 ⟨_, hslot, rfl⟩)
      exact congrArg some
        (forward_rename_inj hallowed hm hin hj (forward_rename_of_mem hallowed.1 hslot) h)

end

/-! ### All clauses -/

section

variable {external : List Name} {set : ImportSet} {m : List (Name × Name)} {k n : Name}

theorem forwardAll_append (a b : List Clause) (k : Name) :
    forwardAll (a ++ b) k = (forwardAll a k).bind (forwardAll b) := by
  induction a generalizing k with
  | nil => rfl
  | cons clause a ih =>
    rw [List.cons_append, forwardAll, forwardAll, bind_assoc]
    exact congrArg _ (funext ih)

theorem forwardAll_concat (a : List Clause) (clause : Clause) (k : Name) :
    forwardAll (a ++ [clause]) k = (forwardAll a k).bind clause.forward := by
  rw [forwardAll_append]
  congr 1
  funext j
  rw [forwardAll]
  cases clause.forward j <;> rfl

theorem imports_modified {clause : Clause}
    (h : (ImportSet.modified clause set).imports external = some m) :
    ∃ m', set.imports external = some m' ∧ clause.Allowed m' ∧ m = clause.image m' := by
  obtain ⟨m', hm', h⟩ := bind_eq_some_iff.1 h
  split_ifs at h with hallowed
  exact ⟨m', hm', hallowed, (some.inj h).symm⟩

theorem mem_imports (h : set.imports external = some m) :
    (n, k) ∈ m ↔ n ∈ external ∧ forwardAll set.parseSpec n = some k := by
  induction set generalizing m k with
  | library =>
    obtain rfl := some.inj h
    simp only [List.mem_map, Prod.mk.injEq, ImportSet.parseSpec, forwardAll, some.injEq]
    constructor
    · rintro ⟨n', hn, rfl, rfl⟩
      exact ⟨hn, rfl⟩
    · rintro ⟨hn, rfl⟩
      exact ⟨n, hn, rfl, rfl⟩
  | modified clause set ih =>
    obtain ⟨m', hm', -, rfl⟩ := imports_modified h
    rw [mem_image, ImportSet.parseSpec, forwardAll_concat, bind_eq_some_iff]
    simp only [ih hm', and_assoc, exists_and_left]

theorem imports_functional (h : set.imports external = some m) (n j j' : Name) (hj : (n, j) ∈ m)
    (hj' : (n, j') ∈ m) : j = j' :=
  some.inj (((mem_imports h).1 hj).2.symm.trans ((mem_imports h).1 hj').2)

theorem unrenameVariable_modified (clause : Clause) (set : ImportSet) (k : Name) :
    unrenameVariable k (ImportSet.modified clause set).parseSpec.reverse =
      (unrenameClause k clause).bind fun j => unrenameVariable j set.parseSpec.reverse := by
  rw [ImportSet.parseSpec, List.reverse_append]
  rfl

/-- **A name that is found is one of the import set.** -/
theorem unrenameVariable_sound (h : set.imports external = some m)
    (hk : unrenameVariable k set.parseSpec.reverse = some n) (hn : n ∈ external) : (n, k) ∈ m := by
  induction set generalizing m k with
  | library =>
    obtain rfl : k = n := some.inj hk
    exact (mem_imports h).2 ⟨hn, rfl⟩
  | modified clause set ih =>
    obtain ⟨m', hm', hallowed, rfl⟩ := imports_modified h
    rw [unrenameVariable_modified] at hk
    obtain ⟨j, hj, hk⟩ := bind_eq_some_iff.1 hk
    exact mem_image.2 ⟨j, ih hm' hk, unrenameClause_sound hallowed hj⟩

/-- An exported name becomes on its way through the clauses none that a clause takes and gives. -/
def ImportSet.Passes (n : Name) : ImportSet → Prop
  | .library => True
  | .modified clause set =>
    set.Passes n ∧ ∀ j, forwardAll (set.parseSpec ++ [clause]) n = some j → ¬ clause.Exchanges j

section

variable (h : set.imports external = some m)

include h

theorem unrenameVariable_iff (hk : (n, k) ∈ m) :
    unrenameVariable k set.parseSpec.reverse = some n ↔ set.Passes n := by
  induction set generalizing m k with
  | library =>
    obtain ⟨-, hk⟩ := (mem_imports h).1 hk
    exact iff_of_true (congrArg some (some.inj hk).symm) trivial
  | modified clause set ih =>
    obtain ⟨m', hm', hallowed, rfl⟩ := imports_modified h
    obtain ⟨-, hforward⟩ := (mem_imports h).1 hk
    obtain ⟨j, hj, hjk⟩ := mem_image.1 hk
    rw [unrenameVariable_modified, ImportSet.Passes]
    by_cases hex : clause.Exchanges k
    · rw [unrenameClause_of_exchanges hex]
      exact iff_of_false nofun fun hpass => hpass.2 k hforward hex
    · rw [unrenameClause_of_forward hallowed (imports_functional hm') hj hjk hex,
        bind_some, ih hm' hj]
      refine (and_iff_left fun k' hk' => ?_).symm
      obtain rfl := some.inj (hforward.symm.trans hk')
      exact hex

theorem exists_of_exchanges {clause : Clause} (hallowed : clause.Allowed m)
    (hk : clause.Exchanges k) :
    ∃ n ∈ external, forwardAll (set.parseSpec ++ [clause]) n = some k := by
  cases clause with
  | rename renames =>
    obtain ⟨⟨o, k⟩, hok, rfl⟩ := List.mem_map.1 hk.2
    obtain ⟨⟨n, o⟩, hno, rfl⟩ := List.mem_map.1 (hallowed.2.1 o (List.mem_map_of_mem hok))
    obtain ⟨hn, hforward⟩ := (mem_imports h).1 hno
    refine ⟨n, hn, ?_⟩
    rw [forwardAll_concat, hforward]
    exact forward_rename_of_mem hallowed.1 hok
  | only ids | except ids | withPrefix id | forPhase => exact hk.elim

/-- All names come through exactly if those that are taken and given are dropped. -/
theorem passes_iff (outer : List Clause) :
    (∀ n ∈ external, (forwardAll (set.parseSpec ++ outer) n).isSome → set.Passes n) ↔
      set.NoExchange outer := by
  induction set generalizing m outer with
  | library => exact iff_of_true (fun _ _ _ => trivial) trivial
  | modified clause set ih =>
    obtain ⟨m', hm', hallowed, -⟩ := imports_modified h
    rw [ImportSet.NoExchange, ← ih hm']
    simp only [ImportSet.parseSpec, ImportSet.Passes, List.append_assoc, List.singleton_append]
    constructor
    · intro hpass
      refine ⟨fun k hk => ?_, fun n hn hsome => (hpass n hn hsome).1⟩
      obtain ⟨n, hn, hforward⟩ := exists_of_exchanges hm' hallowed hk
      by_contra hne
      refine (hpass n hn ?_).2 k hforward hk
      rw [List.append_cons, forwardAll_append, hforward]
      exact isSome_iff_ne_none.2 hne
    · rintro ⟨hdrop, hpass⟩ n hn hsome
      refine ⟨hpass n hn hsome, fun k hk hex => ?_⟩
      rw [List.append_cons, forwardAll_append, hk, bind_some, hdrop k hex] at hsome
      cases hsome

end

end

/-! ### Bindings -/

section

variable {ι : Type} [DecidableEq ι] {libs : ι → SgLibrary ι} {tolib fromlib : ι} {e : ExportList}
  {set : ImportSet} {b k n : Name}

theorem twoMemq_names (names : List Name) (n : Name) :
    twoMemq n (names.map .name) = if n ∈ names then some (.name n) else none := by
  induction names with
  | nil => rfl
  | cons x names ih =>
    rw [twoMemq] at ih ⊢
    rw [List.map_cons, List.find?_cons, ih]
    by_cases hx : x = n
    · simp [hx]
    · have hname : (ExportItem.name x == .name n) = false :=
        beq_false_of_ne fun h => hx (ExportItem.name.inj h)
      have hall : (ExportItem.name x == .all) = false := beq_false_of_ne nofun
      simp [hname, hall, Ne.symm hx]

theorem ExportList.exports_iff (e : ExportList) (b n : Name) :
    e.Exports b n ↔ exportLookup (some e.exported) n = .plain ∧ b = n ∨
      exportLookup (some e.exported) n = .renamed b := by
  have hdistinct := List.nodup_append'.1 e.distinct
  rw [exportLookup, ExportList.exported]
  simp only [twoMemq_names]
  split_ifs with hn
  · have hno : (b, n) ∉ e.renames := fun hmem =>
      List.disjoint_left.1 hdistinct.2.2 hn (List.mem_map_of_mem hmem)
    simp [ExportList.Exports, hn, hno]
  · cases hcadr : cadrAssq n e.renames with
    | none =>
      have hno : (b, n) ∉ e.renames := fun hmem =>
        cadrAssq_eq_none.1 hcadr (List.mem_map_of_mem hmem)
      simp [ExportList.Exports, hn, hno]
    | some slot =>
      have hslot := cadrAssq_mem hcadr
      have hmem : (b, n) ∈ e.renames ↔ slot.1 = b := by
        refine ⟨fun hmem => ?_, fun hb => hb ▸ hslot⟩
        exact (Prod.mk.inj (List.inj_on_of_nodup_map hdistinct.2.1 hslot hmem rfl)).1
      simp [ExportList.Exports, hn, hmem]

theorem ExportList.mem_external (e : ExportList) (n : Name) :
    n ∈ e.external ↔ ∃ b, e.Exports b n := by
  simp only [ExportList.external, List.mem_append, List.mem_map, ExportList.Exports]
  constructor
  · rintro (hn | ⟨⟨b, n⟩, hmem, rfl⟩)
    · exact ⟨n, .inl ⟨rfl, hn⟩⟩
    · exact ⟨b, .inr hmem⟩
  · rintro ⟨b, ⟨-, hn⟩ | hmem⟩
    · exact .inl hn
    · exact .inr ⟨(b, n), hmem, rfl⟩

section

variable {find : ι → Name → Option (Option (ι × Name))} {spec : List Clause}
  (hexported : (libs fromlib).exported = some e.exported)

include hexported

omit [DecidableEq ι] in
theorem searchParents_found (parents : List (ι × List Clause))
    (hk : unrenameVariable k spec = some n) (hb : e.Exports b n) :
    searchParents libs find k ((fromlib, spec) :: parents) = find fromlib b := by
  rw [searchParents, hk]
  simp only [hexported]
  obtain ⟨hlookup, rfl⟩ | hlookup := (e.exports_iff b n).1 hb <;> rw [hlookup]

omit [DecidableEq ι] in
theorem searchParents_missing {parents : List (ι × List Clause)}
    (hparents : ∀ parent ∈ parents, parent = (fromlib, spec))
    (hk : ∀ n ∈ e.external, unrenameVariable k spec ≠ some n) :
    searchParents libs find k parents = some none := by
  induction parents with
  | nil => rfl
  | cons parent parents ih =>
    obtain ⟨rfl, hrest⟩ := List.forall_mem_cons.1 hparents
    rw [searchParents]
    cases hunrenamed : unrenameVariable k spec with
    | none => exact ih hrest
    | some n =>
      -- the name is not exported, so every other outcome of the lookup is excluded
      have hnot : ∀ b, ¬ e.Exports b n := fun b hb =>
        hk n ((e.mem_external n).2 ⟨b, hb⟩) hunrenamed
      simp only [hexported]
      cases hlookup : exportLookup (some e.exported) n with
      | missing => exact ih hrest
      | renamed org => exact (hnot org ((e.exports_iff org n).2 (.inr hlookup))).elim
      | plain => exact (hnot n ((e.exports_iff n n).2 (.inl ⟨hlookup, rfl⟩))).elim
      | all =>
        rw [exportLookup, ExportList.exported] at hlookup
        simp only [twoMemq_names] at hlookup
        split_ifs at hlookup
        cases hcadr : cadrAssq n e.renames <;> rw [hcadr] at hlookup <;> cases hlookup

end

theorem pass1Import_frame (libs : ι → SgLibrary ι) (tolib fromlib : ι) (set : ImportSet) (lib : ι) :
    (pass1Import libs tolib fromlib set lib).table = (libs lib).table ∧
      (pass1Import libs tolib fromlib set lib).exported = (libs lib).exported := by
  rw [pass1Import, sgImportLibraryFullSpec, Function.update_apply]
  split_ifs with h
  · rw [h]
    exact ⟨rfl, rfl⟩
  · exact ⟨rfl, rfl⟩

theorem pass1Import_parents (fromlib : ι) (set : ImportSet) (h : (libs tolib).parents = []) :
    ∃ parents, (pass1Import libs tolib fromlib set tolib).parents =
      (fromlib, set.parseSpec.reverse) :: parents ∧
      ∀ parent ∈ parents, parent = (fromlib, set.parseSpec.reverse) := by
  refine ⟨importParents libs fromlib set.parseSpec.reverse, ?_, fun parent hmem => ?_⟩
  · rw [pass1Import, sgImportLibraryFullSpec, Function.update_self, h, List.append_nil]
  · obtain ⟨p, hp, rfl⟩ := List.mem_map.1 hmem
    rw [eq_of_beq (List.mem_filter.1 hp).2]

/-- **What `find_binding` finds** in a library with one import. -/
theorem findBinding_imported (set : ImportSet) (h : Importable libs tolib fromlib e k) (fuel : ℕ) :
    (∀ n b, unrenameVariable k set.parseSpec.reverse = some n → e.Exports b n →
      findBinding (pass1Import libs tolib fromlib set) (fuel + 1) tolib k =
        findBinding (pass1Import libs tolib fromlib set) fuel fromlib b) ∧
    ((∀ n ∈ e.external, unrenameVariable k set.parseSpec.reverse ≠ some n) →
      findBinding (pass1Import libs tolib fromlib set) (fuel + 1) tolib k = some none) := by
  obtain ⟨parents, hparents, hsame⟩ := pass1Import_parents fromlib set h.parents
  have hexported := (pass1Import_frame libs tolib fromlib set fromlib).2
  have hundefined : ¬ (pass1Import libs tolib fromlib set tolib).table k = true := by
    rw [(pass1Import_frame ..).1, h.undefined]
    exact Bool.false_ne_true
  rw [findBinding, if_neg hundefined, hparents]
  rw [h.exported] at hexported
  exact ⟨fun n b hn hb => searchParents_found hexported parents hn hb,
    searchParents_missing hexported (List.forall_mem_cons.2 ⟨rfl, hsame⟩)⟩

end

/-! ### When lookup is the inverse of an import set -/

/-- **Lookup is the inverse of the import set** exactly if no clause exchanges names that are
imported. -/
theorem import_right_iff (e : ExportList) (set : ImportSet) (m : List (Name × Name))
    (h : set.imports e.external = some m) : ImportRight e set m ↔ set.NoExchange [] := by
  rw [← passes_iff h, List.append_nil]
  have hpasses : (∀ n ∈ e.external, (forwardAll set.parseSpec n).isSome → set.Passes n) ↔
      ∀ k n, unrenameVariable k set.parseSpec.reverse = some n ∧ n ∈ e.external ↔ (n, k) ∈ m := by
    constructor
    · intro hpass k n
      refine ⟨fun hk => unrenameVariable_sound h hk.1 hk.2, fun hmem => ?_⟩
      obtain ⟨hn, hforward⟩ := (mem_imports h).1 hmem
      exact ⟨(unrenameVariable_iff h hmem).2 (hpass n hn (by rw [hforward]; rfl)), hn⟩
    · intro hinverse n hn hsome
      obtain ⟨k, hk⟩ := isSome_iff_exists.1 hsome
      have hmem := (mem_imports h).2 ⟨hn, hk⟩
      exact (unrenameVariable_iff h hmem).1 ((hinverse k n).2 hmem).1
  rw [hpasses]
  refine ⟨fun hright => hright.inverse, fun hinverse => ⟨hinverse, ?_, ?_, ?_⟩⟩
  · intro ι _ libs tolib fromlib fuel k n b himport hmem
    exact (findBinding_imported set himport fuel).1 n b ((hinverse k n).2 hmem).1
  · intro ι _ libs tolib fromlib fuel k b himport hdefined
    obtain ⟨hfollows, hmissing⟩ := findBinding_imported set himport (fuel + 1)
    have hfound : ∀ n b, unrenameVariable k set.parseSpec.reverse = some n → e.Exports b n →
        findBinding (pass1Import libs tolib fromlib set) (fuel + 2) tolib k =
          some (some (fromlib, b)) := by
      intro n b hk hb
      rw [hfollows n b hk hb, findBinding, (pass1Import_frame ..).1, if_pos (hdefined b n hb)]
    constructor
    · intro hfind
      by_contra hno
      have hnone : ∀ n ∈ e.external, unrenameVariable k set.parseSpec.reverse ≠ some n := by
        intro n hn hk
        obtain ⟨b', hb'⟩ := (e.mem_external n).1 hn
        rw [hfound n b' hk hb'] at hfind
        obtain rfl : b' = b := (Prod.mk.inj (some.inj (some.inj hfind))).2
        exact hno ⟨n, (hinverse k n).1 ⟨hk, hn⟩, hb'⟩
      rw [hmissing hnone] at hfind
      cases hfind
    · rintro ⟨n, hmem, hb⟩
      exact hfound n b ((hinverse k n).2 hmem).1 hb
  · intro ι _ libs tolib fromlib fuel k himport hno
    refine (findBinding_imported set himport (fuel + 1)).2 fun n hn hk => ?_
    exact hno n ((hinverse k n).1 ⟨hk, hn⟩)

/-- Two names that are imported under new names are found. -/
theorem import_right_renamed :
    ImportRight ⟨[['a'], ['b']], [], by decide⟩
      (.modified (.withPrefix ['p']) (.modified (.rename [(['a'], ['c'])]) .library))
      [(['a'], ['p', 'c']), (['b'], ['p', 'b'])] := by
  refine (import_right_iff _ _ _ (by decide)).2 ⟨nofun, ?_, trivial⟩
  rintro k ⟨hold, hnew⟩
  rw [List.mem_singleton.1 hold] at hnew
  exact absurd hnew (by decide)

/-- When two names are exchanged, neither of them is found. -/
theorem exchanged_names_lost :
    let set := ImportSet.modified (.rename [(['a'], ['b']), (['b'], ['a'])]) .library
    let e : ExportList := ⟨[['a'], ['b']], [], by decide⟩
    set.imports e.external = some [(['a'], ['b']), (['b'], ['a'])] ∧
    unrenameVariable ['b'] set.parseSpec.reverse = none ∧
    ¬ ImportRight e set [(['a'], ['b']), (['b'], ['a'])] := by
  refine ⟨by decide, by decide, fun h => ?_⟩
  have := ((h.inverse ['b'] ['a']).2 (by decide)).1
  exact absurd this (by decide)

end Sagittarius.Import
