import Mathlib.Data.List.Nodup
import Mathlib.Data.List.TakeWhile
import Sagittarius.Compiler.IForm

/-!
# The definitions of a library that may be inlined

`pass1/scan-inlinable` goes through the body of a library and returns the definitions that `pass2`
may inline.  It leaves out the definitions that are exported, made twice, assigned, that refer to
themselves, and those of two definitions that refer to each other.

* `scanInlinable` : the function, with its tables;
* `scanRefs_eq` : the scan of an expression walks through what the expression mentions, and stops
  at a reference to the definition itself or an assignment to a candidate;
* `mem_scanInlinable` : what is returned, in terms of the library body.
-/

namespace Sagittarius.Compiler

open List IForm

/-- What the compiler knows of a library: the names it exports and the pairs of its `rename`
clauses. -/
structure Library where
  ref : LibraryRef
  exports : List Symbol
  renames : List (Symbol × Symbol)

/-- A `$define` node. -/
structure Definition where
  id : Identifier
  expr : IForm

/-- The library exports the name. -/
def Library.exported (lib : Library) (name : Symbol) : Bool :=
  lib.exports.contains name || (lib.renames.map Prod.fst).contains name

/-- A definition that is not exported. -/
def possiblyTarget (lib : Library) : IForm → Option Definition
  | .define id expr => if lib.exported id.name then none else some ⟨id, expr⟩
  | _ => none

/-! ### Association tables -/

/-- The tables of `pass1/scan-inlinable`, which are keyed by identifiers. -/
abbrev AssocTable (α : Type) := List (Identifier × α)

variable {α : Type}

/-- Looks up a key. -/
def assocTableRef (table : AssocTable α) (key : Identifier) (fallback : α) : α :=
  (table.lookup key).getD fallback

/-- Sets the value of a key. -/
def assocTableSet (key : Identifier) (value : α) : AssocTable α → AssocTable α
  | [] => [(key, value)]
  | (k, v) :: table =>
    if k = key then (k, value) :: table else (k, v) :: assocTableSet key value table

/-- The keys. -/
def assocTableKeysList (table : AssocTable α) : List Identifier := table.map Prod.fst

variable {k : Identifier}

theorem mem_keys_assocTableSet {key : Identifier} {value : α} {table : AssocTable α} :
    k ∈ assocTableKeysList (assocTableSet key value table) ↔
      k = key ∨ k ∈ assocTableKeysList table := by
  induction table with
  | nil => simp [assocTableSet, assocTableKeysList]
  | cons e table ih =>
    obtain ⟨k', v⟩ := e
    simp only [assocTableKeysList] at ih
    rw [assocTableSet]
    split_ifs with h
    · subst h
      simp [assocTableKeysList]
    · simp only [assocTableKeysList, map_cons, mem_cons, ih]
      tauto

theorem assocTableRef_set {key : Identifier} {value fallback : α} {table : AssocTable α} :
    assocTableRef (assocTableSet key value table) k fallback =
      if k = key then value else assocTableRef table k fallback := by
  induction table with
  | nil =>
    simp only [assocTableSet, assocTableRef, lookup_cons, lookup_nil]
    split_ifs with h
    · simp [h]
    · simp [beq_false_of_ne h]
  | cons e table ih =>
    obtain ⟨k', v⟩ := e
    rw [assocTableSet]
    by_cases hk : k' = key
    · subst hk
      by_cases hkk : k = k'
      · simp [assocTableRef, hkk]
      · simp [assocTableRef, lookup_cons, hkk, beq_false_of_ne hkk]
    · rw [if_neg hk]
      by_cases hkk : k = k'
      · subst hkk
        simp [assocTableRef, hk]
      · simp only [assocTableRef, lookup_cons, beq_false_of_ne hkk]
        exact ih

theorem mem_keys_of_ref {table : AssocTable (List α)} {a : α}
    (h : a ∈ assocTableRef table k []) : k ∈ assocTableKeysList table := by
  induction table with
  | nil => simp [assocTableRef] at h
  | cons e table ih =>
    obtain ⟨k', v⟩ := e
    simp only [assocTableKeysList, map_cons, mem_cons] at ih ⊢
    by_cases hk : k = k'
    · exact .inl hk
    · simp only [assocTableRef, lookup_cons, beq_false_of_ne hk] at h
      exact .inr (ih h)

/-! ### The scan -/

mutual

/-- `rec` of `pass1/scan-inlinable` without `ids`: every assigned identifier gets an entry. -/
def collectGsets : IForm → AssocTable Unit → AssocTable Unit
  | .undef, t | .it, t | .library _, t | .lref _, t | .const _, t | .gref _, t => t
  | .define _ expr, t => collectGsets expr t
  | .lset _ expr, t => collectGsets expr t
  | .gset id expr, t => collectGsets expr (assocTableSet id () t)
  | .letForm _ _ inits body, t => collectGsets body (collectGsetsAll inits t)
  | .lambda _ _ _ _ body, t => collectGsets body t
  | .receive _ _ _ expr body, t => collectGsets body (collectGsets expr t)
  | .call proc args, t => collectGsets proc (collectGsetsAll args t)
  | .seq body, t => collectGsetsAll body t
  | .ifForm test thenForm elseForm, t =>
    collectGsets elseForm (collectGsets thenForm (collectGsets test t))
  | .asm _ args, t => collectGsetsAll args t
  | .list args, t => collectGsetsAll args t

/-- The same for a list of IForms. -/
def collectGsetsAll : List IForm → AssocTable Unit → AssocTable Unit
  | [], t => t
  | x :: xs, t => collectGsetsAll xs (collectGsets x t)

end

/-- Who refers to an identifier. -/
abbrev RefTable := AssocTable (List Identifier)

/-- `(and a b)` for two steps of the scan. -/
def andAlso (r : Bool × RefTable) (k : RefTable → Bool × RefTable) : Bool × RefTable :=
  if r.1 then k r.2 else r

/-- The scan comes to a reference: it is noted if the identifier is a candidate, and the definition
must not refer to itself. -/
def noteRef (id : Identifier) (ids : List Identifier) (gid : Identifier) (seen : RefTable) :
    Bool × RefTable :=
  let seen :=
    if gid ∈ ids ∧ id ≠ gid then assocTableSet gid (id :: assocTableRef seen gid []) seen
    else seen
  (decide (id ≠ gid), seen)

mutual

/-- `rec` of `pass1/scan-inlinable` with `ids`, for the expression of the definition `id`. -/
def scanRefs (id : Identifier) (ids : List Identifier) : IForm → RefTable → Bool × RefTable
  | .undef, t | .it, t | .library _, t | .lref _, t | .const _, t => (true, t)
  | .define _ expr, t => scanRefs id ids expr t
  | .gref gid, t => noteRef id ids gid t
  | .lset _ expr, t => scanRefs id ids expr t
  | .gset gid expr, t => if gid ∈ ids then (false, t) else scanRefs id ids expr t
  | .letForm _ _ inits body, t => andAlso (scanRefsAll id ids inits t) (scanRefs id ids body)
  | .lambda _ _ _ _ body, t => scanRefs id ids body t
  | .receive _ _ _ expr body, t => andAlso (scanRefs id ids expr t) (scanRefs id ids body)
  | .call proc args, t => andAlso (scanRefsAll id ids args t) (scanRefs id ids proc)
  | .seq body, t => scanRefsAll id ids body t
  | .ifForm test thenForm elseForm, t =>
    andAlso (scanRefs id ids test t) fun t =>
      andAlso (scanRefs id ids thenForm t) (scanRefs id ids elseForm)
  | .asm _ args, t => scanRefsAll id ids args t
  | .list args, t => scanRefsAll id ids args t

/-- `args-rec`: the same for a list of IForms. -/
def scanRefsAll (id : Identifier) (ids : List Identifier) :
    List IForm → RefTable → Bool × RefTable
  | [], t => (true, t)
  | x :: xs, t => andAlso (scanRefs id ids x t) (scanRefsAll id ids xs)

end

/-- The identifiers that have occurred before. -/
def collectDuplicateIds : List Identifier → List Identifier → List Identifier
  | [], _ => []
  | id :: ids, seen =>
    if id ∈ seen then id :: collectDuplicateIds ids seen
    else collectDuplicateIds ids (id :: seen)

/-- The filter over the definitions: the tables of who refers to whom are filled on the way, also
by the definitions that are left out. -/
def scanTargets (ids duplicates : List Identifier) :
    List Definition → RefTable → List Definition × RefTable
  | [], seen => ([], seen)
  | d :: ds, seen =>
    if d.id ∈ duplicates then scanTargets ids duplicates ds seen
    else
      let r := scanRefs d.id ids d.expr seen
      let rest := scanTargets ids duplicates ds r.2
      (if r.1 then d :: rest.1 else rest.1, rest.2)

/-- The loop of `check-refers&gsets`: no key refers to `id` and is referred to by it. -/
def noMutualRef (seen : RefTable) (id : Identifier) : Bool :=
  (assocTableKeysList seen).all fun key =>
    !(assocTableRef seen key []).contains id || !(assocTableRef seen id []).contains key

/-- The definitions of the body that are not exported. -/
def targets (lib : Library) (iforms : List IForm) : List Definition :=
  iforms.filterMap (possiblyTarget lib)

/-- The identifiers of these definitions, the last one first. -/
def targetIds (lib : Library) (iforms : List IForm) : List Identifier :=
  ((targets lib iforms).map Definition.id).reverse

/-- The table of the assigned identifiers. -/
def gsetsOf (iforms : List IForm) : AssocTable Unit := collectGsetsAll iforms []

/-- `pass1/scan-inlinable`: the definitions to inline. -/
def scanInlinable (lib : Library) (iforms : List IForm) : List Definition :=
  let gsets := gsetsOf iforms
  let ids := targetIds lib iforms
  let duplicates := collectDuplicateIds ids []
  let scanned := scanTargets ids duplicates (targets lib iforms) []
  scanned.1.filter fun d => !(assocTableKeysList gsets).contains d.id && noMutualRef scanned.2 d.id

/-! ### What the scan records -/

variable {id : Identifier} {ids : List Identifier} {t : RefTable}

/-- The scan of the definition `id` stops here. -/
def Stops (id : Identifier) (ids : List Identifier) : Mention → Bool
  | .ref gid => gid = id
  | .assign gid => gid ∈ ids

@[simp] theorem stops_ref {gid : Identifier} :
    Stops id ids (.ref gid) = decide (gid = id) := rfl

@[simp] theorem stops_assign {gid : Identifier} :
    Stops id ids (.assign gid) = decide (gid ∈ ids) := rfl

/-- The scan as a walk through the mentions of an expression. -/
def walk (id : Identifier) (ids : List Identifier) : List Mention → RefTable → Bool × RefTable
  | [], t => (true, t)
  | .ref gid :: ms, t => andAlso (noteRef id ids gid t) (walk id ids ms)
  | .assign gid :: ms, t => if gid ∈ ids then (false, t) else walk id ids ms t

theorem walk_append (id : Identifier) (ids : List Identifier) (ms ns : List Mention)
    (t : RefTable) : walk id ids (ms ++ ns) t = andAlso (walk id ids ms t) (walk id ids ns) := by
  induction ms generalizing t with
  | nil => rfl
  | cons m ms ih =>
    cases m with
    | ref gid =>
      simp only [cons_append, walk, andAlso]
      split_ifs with h1 h2
      · rw [ih, andAlso, if_pos h2]
      · rw [ih, andAlso, if_neg h2]
      · rfl
    | assign gid =>
      simp only [cons_append, walk]
      split_ifs with h
      · rfl
      · exact ih t

mutual

/-- The scan goes through what the expression mentions, in this order. -/
theorem scanRefs_eq (id : Identifier) (ids : List Identifier) (x : IForm) (t : RefTable) :
    scanRefs id ids x t = walk id ids x.mentions t := by
  cases x with
  | undef | it | library _ | lref _ | const _ => rfl
  | gref gid =>
    simp only [scanRefs, mentions, walk, andAlso]
    split_ifs with h
    · rw [← h]
    · rfl
  | define _ body | lset _ body | lambda _ _ _ _ body => exact scanRefs_eq id ids body t
  | gset gid expr => simp only [scanRefs, mentions, walk, scanRefs_eq id ids expr]
  | letForm _ _ args body | call body args =>
    rw [scanRefs, mentions, walk_append, scanRefsAll_eq id ids args,
      funext (scanRefs_eq id ids body)]
  | receive _ _ _ expr body =>
    rw [scanRefs, mentions, walk_append, scanRefs_eq id ids expr,
      funext (scanRefs_eq id ids body)]
  | ifForm test thenForm elseForm =>
    rw [scanRefs, mentions, walk_append, scanRefs_eq id ids test]
    congr 1
    funext t'
    rw [walk_append, scanRefs_eq id ids thenForm, funext (scanRefs_eq id ids elseForm)]
  | seq args | asm _ args | list args => exact scanRefsAll_eq id ids args t

theorem scanRefsAll_eq (id : Identifier) (ids : List Identifier) (xs : List IForm) (t : RefTable) :
    scanRefsAll id ids xs t = walk id ids (mentionsAll xs) t := by
  cases xs with
  | nil => rfl
  | cons x xs =>
    rw [scanRefsAll, mentionsAll, walk_append, scanRefs_eq id ids x,
      funext (scanRefsAll_eq id ids xs)]

end

/-- What the scan of `id` comes to before it stops. -/
def reached (id : Identifier) (ids : List Identifier) (ms : List Mention) : List Mention :=
  ms.takeWhile fun m => !Stops id ids m

theorem walk_fst (id : Identifier) (ids : List Identifier) (ms : List Mention) (t : RefTable) :
    (walk id ids ms t).1 = true ↔ ∀ m ∈ ms, Stops id ids m = false := by
  induction ms generalizing t with
  | nil => simp [walk]
  | cons m ms ih =>
    cases m with
    | ref gid =>
      simp only [walk, andAlso, noteRef, forall_mem_cons, stops_ref, decide_eq_true_eq,
        decide_eq_false_iff_not]
      by_cases h : id = gid
      · simp [h]
      · rw [if_pos h, ih]
        exact ⟨fun hm => ⟨fun e => h e.symm, hm⟩, fun hm => hm.2⟩
    | assign gid =>
      simp only [walk, forall_mem_cons, stops_assign, decide_eq_false_iff_not]
      split_ifs with h
      · simp [h]
      · simp [h, ih]

/-- The entries that the scan of `id` adds: it notes itself with the candidates that it comes to. -/
theorem mem_ref_walk {ms : List Mention} {i : Identifier} :
    i ∈ assocTableRef (walk id ids ms t).2 k [] ↔
      i ∈ assocTableRef t k [] ∨ i = id ∧ k ∈ ids ∧ .ref k ∈ reached id ids ms := by
  induction ms generalizing t with
  | nil => simp [walk, reached]
  | cons m ms ih =>
    cases m with
    | ref gid =>
      by_cases hg : id = gid
      · -- the definition refers to itself
        subst hg
        simp [walk, andAlso, noteRef, reached]
      · have hg' : ¬ gid = id := fun e => hg e.symm
        simp only [walk, andAlso, noteRef, ne_eq, hg, not_false_eq_true, decide_true, if_true,
          and_true, ih, reached, takeWhile_cons, stops_ref, hg', decide_false, Bool.not_false,
          mem_cons, Mention.ref.injEq]
        by_cases hk : k = gid
        · subst hk
          split_ifs with hids
          · rw [assocTableRef_set, if_pos rfl, mem_cons]
            tauto
          · tauto
        · split_ifs with hids
          · rw [assocTableRef_set, if_neg hk]
            tauto
          · tauto
    | assign gid =>
      by_cases hg : gid ∈ ids
      · simp [walk, hg, reached]
      · simp [walk, hg, reached, ih]

mutual

theorem mem_keys_collectGsets {k : Identifier} (x : IForm) (t : AssocTable Unit) :
    k ∈ assocTableKeysList (collectGsets x t) ↔
      k ∈ assocTableKeysList t ∨ .assign k ∈ x.mentions := by
  cases x with
  | undef | it | library _ | lref _ | const _ | gref _ => simp [collectGsets, mentions]
  | define _ body | lset _ body | lambda _ _ _ _ body => exact mem_keys_collectGsets body t
  | gset gid expr =>
    rw [collectGsets, mentions, mem_keys_collectGsets expr, mem_keys_assocTableSet,
      mem_cons, Mention.assign.injEq]
    tauto
  | letForm _ _ args body | call body args =>
    rw [collectGsets, mentions, mem_keys_collectGsets body, mem_keys_collectGsetsAll args,
      mem_append, or_assoc]
  | receive _ _ _ expr body =>
    rw [collectGsets, mentions, mem_keys_collectGsets body, mem_keys_collectGsets expr,
      mem_append, or_assoc]
  | ifForm test thenForm elseForm =>
    rw [collectGsets, mentions, mem_keys_collectGsets elseForm,
      mem_keys_collectGsets thenForm, mem_keys_collectGsets test, mem_append,
      mem_append, or_assoc, or_assoc]
  | seq args | asm _ args | list args => exact mem_keys_collectGsetsAll args t

theorem mem_keys_collectGsetsAll {k : Identifier} (xs : List IForm) (t : AssocTable Unit) :
    k ∈ assocTableKeysList (collectGsetsAll xs t) ↔
      k ∈ assocTableKeysList t ∨ .assign k ∈ mentionsAll xs := by
  cases xs with
  | nil => simp [collectGsetsAll, mentionsAll]
  | cons x xs =>
    rw [collectGsetsAll, mentionsAll, mem_keys_collectGsetsAll xs, mem_keys_collectGsets x,
      mem_append, or_assoc]

end

theorem mem_keys_gsetsOf {iforms : List IForm} :
    k ∈ assocTableKeysList (gsetsOf iforms) ↔ .assign k ∈ mentionsAll iforms := by
  rw [gsetsOf, mem_keys_collectGsetsAll]
  simp [assocTableKeysList]

theorem mem_collectDuplicateIds {seen : List Identifier} :
    k ∈ collectDuplicateIds ids seen ↔ k ∈ ids ∧ k ∈ seen ∨ 2 ≤ ids.count k := by
  induction ids generalizing seen with
  | nil => simp [collectDuplicateIds]
  | cons id ids ih =>
    rw [collectDuplicateIds]
    have hpos : k ∈ ids ↔ 1 ≤ ids.count k := List.one_le_count_iff.symm
    by_cases hk : k = id
    · subst hk
      rw [count_cons_self]
      split_ifs with h
      · simp [h]
      · rw [ih, hpos]
        simp only [mem_cons, true_or, and_true, h, and_false, false_or]
        omega
    · rw [count_cons_of_ne (Ne.symm hk)]
      split_ifs <;> simp only [ih, mem_cons, hk, false_or]

theorem scanTargets_fst (ids dups : List Identifier) (ds : List Definition) (t : RefTable) :
    (scanTargets ids dups ds t).1 = ds.filter fun d =>
      d.id ∉ dups ∧ ∀ m ∈ d.expr.mentions, Stops d.id ids m = false := by
  induction ds generalizing t with
  | nil => rfl
  | cons d ds ih =>
    rw [scanTargets, scanRefs_eq, filter_cons]
    by_cases hdup : d.id ∈ dups
    · simp [hdup, ih]
    · simp only [hdup, if_false, ih, walk_fst, not_false_eq_true, true_and, decide_eq_true_eq]

theorem mem_ref_scanTargets {dups : List Identifier} {ds : List Definition} {i : Identifier} :
    i ∈ assocTableRef (scanTargets ids dups ds t).2 k [] ↔
      i ∈ assocTableRef t k [] ∨
        ∃ d ∈ ds, d.id ∉ dups ∧ i = d.id ∧ k ∈ ids ∧
          .ref k ∈ reached d.id ids d.expr.mentions := by
  induction ds generalizing t with
  | nil => simp [scanTargets]
  | cons e ds ih =>
    rw [scanTargets, scanRefs_eq]
    split_ifs with hdup
    · rw [ih, exists_mem_cons_iff]
      simp [hdup]
    · simp only
      rw [ih, exists_mem_cons_iff, mem_ref_walk, or_assoc]
      simp [hdup]

/-! ### The result -/

theorem mem_targetIds {lib : Library} {iforms : List IForm} :
    k ∈ targetIds lib iforms ↔ ∃ d ∈ targets lib iforms, d.id = k := by
  simp [targetIds]

/-- There is one definition of `k` among those that are not exported. -/
def DefinedOnce (lib : Library) (iforms : List IForm) (k : Identifier) : Prop :=
  (targetIds lib iforms).count k = 1

/-- The definition is not exported, there is no other with its name, nothing in the library assigns
it, and its expression neither refers to it nor assigns a definition that is not exported. -/
structure Candidate (lib : Library) (iforms : List IForm) (d : Definition) : Prop where
  target : d ∈ targets lib iforms
  once : DefinedOnce lib iforms d.id
  unassigned : .assign d.id ∉ mentionsAll iforms
  noSelf : .ref d.id ∉ d.expr.mentions
  assignsNone : ∀ e ∈ targets lib iforms, .assign e.id ∉ d.expr.mentions

/-- The expression of `d` refers to `e`. -/
def Refers (d e : Definition) : Prop := .ref e.id ∈ d.expr.mentions

/-- `d` refers to a definition whose scan comes to a reference to `d`. -/
def Paired (lib : Library) (iforms : List IForm) (d : Definition) : Prop :=
  ∃ e ∈ targets lib iforms, DefinedOnce lib iforms e.id ∧ Refers d e ∧
    .ref d.id ∈ reached e.id (targetIds lib iforms) e.expr.mentions

variable {lib : Library} {iforms : List IForm} {d e : Definition}

theorem DefinedOnce.unique (h : DefinedOnce lib iforms d.id) (hd : d ∈ targets lib iforms)
    (he : e ∈ targets lib iforms) (hid : d.id = e.id) : d = e := by
  rw [DefinedOnce, targetIds, count_reverse, List.count, countP_map,
    countP_eq_length_filter, length_eq_one_iff] at h
  obtain ⟨c, hc⟩ := h
  have h1 : d ∈ [c] := by
    rw [← hc]
    simp [hd]
  have h2 : e ∈ [c] := by
    rw [← hc]
    simp [he, hid]
  rw [mem_singleton] at h1 h2
  rw [h1, h2]

theorem not_duplicate_iff (hd : d ∈ targets lib iforms) :
    d.id ∉ collectDuplicateIds (targetIds lib iforms) [] ↔ DefinedOnce lib iforms d.id := by
  have hpos : 1 ≤ (targetIds lib iforms).count d.id :=
    one_le_count_iff.2 (mem_targetIds.2 ⟨d, hd, rfl⟩)
  rw [mem_collectDuplicateIds, DefinedOnce]
  simp only [not_mem_nil, and_false, false_or]
  omega

theorem forall_stops_iff {d : Definition} :
    (∀ m ∈ d.expr.mentions, Stops d.id (targetIds lib iforms) m = false) ↔
      .ref d.id ∉ d.expr.mentions ∧ ∀ e ∈ targets lib iforms, .assign e.id ∉ d.expr.mentions := by
  constructor
  · intro h
    refine ⟨fun hm => ?_, fun e he hm => ?_⟩
    · simpa using h _ hm
    · have := h _ hm
      rw [stops_assign, decide_eq_false_iff_not] at this
      exact this (mem_targetIds.2 ⟨e, he, rfl⟩)
  · rintro ⟨hself, hassign⟩ (gid | gid) hm
    · rw [stops_ref, decide_eq_false_iff_not]
      rintro rfl
      exact hself hm
    · rw [stops_assign, decide_eq_false_iff_not]
      intro hgid
      obtain ⟨e, he, rfl⟩ := mem_targetIds.1 hgid
      exact hassign e he hm

theorem Candidate.reached_eq (h : Candidate lib iforms d) :
    reached d.id (targetIds lib iforms) d.expr.mentions = d.expr.mentions := by
  rw [reached, takeWhile_eq_self_iff]
  intro m hm
  rw [forall_stops_iff.2 ⟨h.noSelf, h.assignsNone⟩ m hm]
  rfl

theorem noMutualRef_iff (hd : Candidate lib iforms d) :
    noMutualRef (scanTargets (targetIds lib iforms)
        (collectDuplicateIds (targetIds lib iforms) []) (targets lib iforms) []).2 d.id = true ↔
      ¬ Paired lib iforms d := by
  set dups := collectDuplicateIds (targetIds lib iforms) []
  set seen := (scanTargets (targetIds lib iforms) dups (targets lib iforms) []).2
  -- who is noted under `k`
  have hseen : ∀ k i, i ∈ assocTableRef seen k [] ↔
      ∃ e ∈ targets lib iforms, e.id ∉ dups ∧ i = e.id ∧ k ∈ targetIds lib iforms ∧
        .ref k ∈ reached e.id (targetIds lib iforms) e.expr.mentions := by
    intro k i
    rw [mem_ref_scanTargets]
    simp [assocTableRef]
  have hself := hd.reached_eq
  have hdup := (not_duplicate_iff hd.target).2 hd.once
  have hid : d.id ∈ targetIds lib iforms := mem_targetIds.2 ⟨d, hd.target, rfl⟩
  simp only [noMutualRef, all_eq_true, Bool.or_eq_true, Bool.not_eq_true',
    contains_eq_mem, decide_eq_false_iff_not]
  constructor
  · rintro hall ⟨e, he, honce, href, hback⟩
    have h1 : d.id ∈ assocTableRef seen e.id [] :=
      (hseen _ _).2 ⟨d, hd.target, hdup, rfl, mem_targetIds.2 ⟨e, he, rfl⟩, hself.symm ▸ href⟩
    have h2 : e.id ∈ assocTableRef seen d.id [] :=
      (hseen _ _).2 ⟨e, he, (not_duplicate_iff he).2 honce, rfl, hid, hback⟩
    rcases hall e.id (mem_keys_of_ref h1) with h | h
    · exact h h1
    · exact h h2
  · intro hpair key _
    by_contra hboth
    simp only [not_or, not_not] at hboth
    obtain ⟨d', hd', -, hid', -, href⟩ := (hseen _ _).1 hboth.1
    obtain ⟨e, he, hnodup, rfl, -, hback⟩ := (hseen _ _).1 hboth.2
    obtain rfl := hd.once.unique hd.target hd' hid'
    rw [hself] at href
    exact hpair ⟨e, he, (not_duplicate_iff he).1 hnodup, href, hback⟩

/-- **What `pass1/scan-inlinable` returns**: the candidates that are not paired. -/
theorem mem_scanInlinable :
    d ∈ scanInlinable lib iforms ↔ Candidate lib iforms d ∧ ¬ Paired lib iforms d := by
  simp only [scanInlinable]
  rw [mem_filter, scanTargets_fst, mem_filter, decide_eq_true_eq, forall_stops_iff]
  simp only [Bool.and_eq_true, Bool.not_eq_true', contains_eq_mem, decide_eq_false_iff_not,
    mem_keys_gsetsOf]
  constructor
  · rintro ⟨⟨ht, hdup, hself, hassign⟩, hgset, hmutual⟩
    have hd : Candidate lib iforms d := ⟨ht, (not_duplicate_iff ht).1 hdup, hgset, hself, hassign⟩
    exact ⟨hd, (noMutualRef_iff hd).1 hmutual⟩
  · rintro ⟨hd, hpair⟩
    exact ⟨⟨hd.target, (not_duplicate_iff hd.target).2 hd.once, hd.noSelf, hd.assignsNone⟩,
      hd.unassigned, (noMutualRef_iff hd).2 hpair⟩

end Sagittarius.Compiler
