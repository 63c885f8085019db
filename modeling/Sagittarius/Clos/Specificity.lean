import Mathlib.Data.List.Lex
import Mathlib.Data.List.Nodup
import Sagittarius.Clos.Model

/-!
# Methods in the order of their specificity

A method is more specific than another one if its first specializer that is different comes before
the other one in the precedence list of the argument's class (`specificity`).

* `methodMoreSpecific_iff` : `method_more_specific` compares the specificity of methods, but for
  two methods that are first different in specializers made by `eql`, where it compares nothing;
* `sortPrimaryMethods_eq` : methods that can be compared are sorted by their specificity;
* `sortPrimaryMethods_iff` : when the comparison stays inside the arrays of specializers.
-/

namespace Sagittarius.Clos

open List

variable {α κ σ : Type} {n : ℕ} [DecidableEq κ] (C : Classes α κ)

/-! ### Specificity -/

/-- How specific a specializer is, for an argument; less is more. -/
def rank (arg : Obj α) : Specializer α κ → ℕ
  | .eql _ _ => 0
  | .cls c => (C.classOf arg :: C.cpa (C.classOf arg)).idxOf c + 1

/-- How specific a parameter without specializer is. -/
def restRank (arg : Obj α) : ℕ := (C.cpa (C.classOf arg)).length + 2

/-- How specific some specializers are, one after the other. -/
def ranks : Args α → List (Specializer α κ) → List ℕ
  | [], _ => []
  | arg :: args, [] => restRank C arg :: ranks args []
  | arg :: args, s :: specs => rank C arg s :: ranks args specs

/-- How specific a method is; the lists are compared lexicographically. -/
def specificity (args : Args α) (m : SgMethod α κ σ n) : List ℕ :=
  ranks C args m.specializers ++ [if m.optional then 1 else 0]

/-- Methods, the most specific one first. -/
def bySpecificity (args : Args α) (methods : Methods α κ σ n) :
    Methods α κ σ n :=
  methods.insertionSort fun m m' => specificity C args m ≤ specificity C args m'

/-- Where the lists are different for the first time, there are two specializers made by `eql`. -/
def EqlTied : List (Specializer α κ) → List (Specializer α κ) → Prop
  | s1 :: l1, s2 :: l2 =>
    s1 = s2 ∧ EqlTied l1 l2 ∨
      s1 ≠ s2 ∧ ∃ a1 o1 a2 o2, s1 = .eql a1 o1 ∧ s2 = .eql a2 o2
  | _, _ => False

/-- Any two methods of the list can be compared: they are not the same but for their bodies, and
have no different `eql` where they are different for the first time. -/
def Comparable (methods : Methods α κ σ n) : Prop :=
  methods.Pairwise fun m m' =>
    (m.specializers ≠ m'.specializers ∨ m.optional ≠ m'.optional) ∧
      ¬ EqlTied m.specializers m'.specializers

/-! ### The comparison of the source -/

section

variable {C}

theorem moreSpecificLoop_iff {c1 c2 : κ} (hne : c1 ≠ c2) {l : List κ} (h2 : c2 ∈ l) :
    moreSpecificLoop c1 c2 l = true ↔ l.idxOf c1 < l.idxOf c2 := by
  induction l with
  | nil => cases h2
  | cons c l ih =>
    rw [moreSpecificLoop]
    by_cases h1 : c1 = c
    · rw [if_pos h1, h1, idxOf_cons_self, idxOf_cons_ne _ (h1 ▸ hne)]
      exact iff_of_true rfl (Nat.succ_pos _)
    · rw [if_neg h1, idxOf_cons_ne _ (Ne.symm h1)]
      by_cases hc : c2 = c
      · rw [if_pos hc, hc, idxOf_cons_self]
        exact iff_of_false Bool.false_ne_true (Nat.not_lt_zero _)
      · rw [if_neg hc, idxOf_cons_ne _ (Ne.symm hc),
          ih ((mem_cons.1 h2).resolve_left hc)]
        exact Nat.succ_lt_succ_iff.symm

theorem mem_of_typeP {obj : Obj α} {c : κ} (h : typeP C obj c = true) :
    c ∈ C.classOf obj :: C.cpa (C.classOf obj) := by
  simpa [typeP] using h

theorem rank_lt_restRank {obj : Obj α} {s : Specializer α κ} (h : specializerMatch C s obj = true) :
    rank C obj s < restRank C obj := by
  cases s with
  | eql address object => exact Nat.succ_pos _
  | cls c =>
    have := idxOf_lt_length_of_mem (mem_of_typeP h)
    exact Nat.succ_lt_succ this

theorem moreSpecificP_iff {obj : Obj α} {s1 s2 : Specializer α κ} (hne : s1 ≠ s2)
    (h1 : specializerMatch C s1 obj = true) (h2 : specializerMatch C s2 obj = true)
    (heql : ¬ ∃ a1 o1 a2 o2, s1 = .eql a1 o1 ∧ s2 = .eql a2 o2) :
    rank C obj s1 ≠ rank C obj s2 ∧
      (moreSpecificP C s1 s2 (C.classOf obj) = true ↔ rank C obj s1 < rank C obj s2) := by
  cases s2 with
  | eql a2 o2 =>
    cases s1 with
    | eql a1 o1 => exact (heql ⟨a1, o1, a2, o2, rfl, rfl⟩).elim
    | cls c1 => exact ⟨nofun, iff_of_false Bool.false_ne_true (Nat.not_lt_zero _)⟩
  | cls c2 =>
    cases s1 with
    | eql a1 o1 => exact ⟨nofun, iff_of_true rfl (Nat.succ_pos _)⟩
    | cls c1 =>
      have hc : c1 ≠ c2 := fun h => hne (congrArg _ h)
      have hm1 := mem_of_typeP h1
      have hm2 := mem_of_typeP h2
      refine ⟨fun h => hc ((idxOf_inj hm1).1 (Nat.succ.inj h)), ?_⟩
      rw [rank, rank, Nat.succ_lt_succ_iff, ← moreSpecificLoop_iff hc hm2]
      exact Iff.rfl

theorem ranks_length (args : Args α) (l : List (Specializer α κ)) :
    (ranks C args l).length = args.length := by
  induction args generalizing l with
  | nil => rfl
  | cons arg args ih => cases l <;> simp [ranks, ih]

theorem append_lt_append_iff {l l' : List ℕ} (h : l.length = l'.length) (x x' : ℕ) :
    l ++ [x] < l' ++ [x'] ↔ l < l' ∨ l = l' ∧ x < x' := by
  induction l generalizing l' with
  | nil =>
    obtain rfl : l' = [] := eq_nil_of_length_eq_zero h.symm
    simp [cons_lt_cons_iff]
  | cons y l ih =>
    cases l' with
    | nil => cases h
    | cons y' l' =>
      rw [cons_append, cons_append, cons_lt_cons_iff, cons_lt_cons_iff,
        ih (Nat.succ.inj h), cons.injEq]
      tauto

omit [DecidableEq κ] in
theorem eqlTied_comm {l l' : List (Specializer α κ)} (h : EqlTied l l') : EqlTied l' l := by
  induction l generalizing l' with
  | nil => cases h
  | cons s l ih =>
    cases l' with
    | nil => cases h
    | cons s' l' =>
      obtain ⟨hs, h⟩ | ⟨hs, a, o, a', o', rfl, rfl⟩ := h
      · exact .inl ⟨hs.symm, ih h⟩
      · exact .inr ⟨hs.symm, a', o', a, o, rfl, rfl⟩

variable [DecidableEq α]

theorem specializersMoreSpecific_spec {args : Args α} {l1 l2 : List (Specializer α κ)}
    (h1 : specializersMatch C l1 args = true) (h2 : specializersMatch C l2 args = true)
    (htied : ¬ EqlTied l1 l2) :
    (∃ b, specializersMoreSpecific C (args.map C.classOf) l1 l2 = some b ∧
      ranks C args l1 ≠ ranks C args l2 ∧ (b = true ↔ ranks C args l1 < ranks C args l2)) ∨
    specializersMoreSpecific C (args.map C.classOf) l1 l2 = none ∧
      (l1 = l2 ∨ l1.length > l2.length ∧ ranks C args l1 < ranks C args l2 ∨
        l1.length < l2.length ∧ ranks C args l2 < ranks C args l1) := by
  induction args generalizing l1 l2 with
  | nil =>
    cases l1 with
    | cons s1 l1 => cases h1
    | nil =>
      cases l2 with
      | cons s2 l2 => cases h2
      | nil => exact .inr ⟨rfl, .inl rfl⟩
  | cons arg args ih =>
    cases l1 with
    | nil =>
      cases l2 with
      | nil => exact .inr ⟨rfl, .inl rfl⟩
      | cons s2 l2 =>
        obtain ⟨hs2, -⟩ := Bool.and_eq_true_iff.1 h2
        refine .inr ⟨rfl, .inr (.inr ⟨Nat.succ_pos _, ?_⟩)⟩
        exact cons_lt_cons_iff.2 (.inl (rank_lt_restRank hs2))
    | cons s1 l1 =>
      obtain ⟨hs1, h1⟩ := Bool.and_eq_true_iff.1 h1
      cases l2 with
      | nil =>
        refine .inr ⟨rfl, .inr (.inl ⟨Nat.succ_pos _, ?_⟩)⟩
        exact cons_lt_cons_iff.2 (.inl (rank_lt_restRank hs1))
      | cons s2 l2 =>
        obtain ⟨hs2, h2'⟩ := Bool.and_eq_true_iff.1 h2
        rw [EqlTied, not_or] at htied
        rw [map_cons, specializersMoreSpecific]
        by_cases hs : s1 = s2
        · subst hs
          rw [if_neg (not_not.2 rfl)]
          have hcons : ∀ {l l' : List ℕ}, rank C arg s1 :: l < rank C arg s1 :: l' ↔ l < l' :=
            fun {l l'} => by simp
          obtain ⟨b, hb, hne, hiff⟩ | ⟨hnone, hcases⟩ := ih h1 h2' fun h => htied.1 ⟨rfl, h⟩
          · refine .inl ⟨b, hb, fun h => hne (cons.inj h).2, ?_⟩
            rw [ranks, ranks, hcons, hiff]
          · refine .inr ⟨hnone, ?_⟩
            rw [ranks, ranks, hcons, hcons, length_cons, length_cons]
            obtain rfl | ⟨hlen, hlt⟩ | ⟨hlen, hlt⟩ := hcases
            · exact .inl rfl
            · exact .inr (.inl ⟨Nat.succ_lt_succ hlen, hlt⟩)
            · exact .inr (.inr ⟨Nat.succ_lt_succ hlen, hlt⟩)
        · rw [if_pos hs]
          obtain ⟨hne, hiff⟩ := moreSpecificP_iff hs hs1 hs2 fun h => htied.2 ⟨hs, h⟩
          refine .inl ⟨_, rfl, fun h => hne (cons.inj h).1, ?_⟩
          rw [ranks, ranks, cons_lt_cons_iff, hiff, or_iff_left fun h => hne h.1]

/-- **The comparison of the source is that of the specificity.** -/
theorem methodMoreSpecific_iff {args : Args α} {m m' : SgMethod α κ σ n}
    (h : specializersMatch C m.specializers args = true)
    (h' : specializersMatch C m'.specializers args = true)
    (hne : m.specializers ≠ m'.specializers ∨ m.optional ≠ m'.optional)
    (htied : ¬ EqlTied m.specializers m'.specializers) :
    specificity C args m ≠ specificity C args m' ∧
      (methodMoreSpecific C (args.map C.classOf) m m' = true ↔
        specificity C args m < specificity C args m') := by
  have hlen : (ranks C args m.specializers).length = (ranks C args m'.specializers).length := by
    rw [ranks_length, ranks_length]
  have hdiff : ranks C args m.specializers ≠ ranks C args m'.specializers →
      specificity C args m ≠ specificity C args m' := fun hr heq =>
    hr (append_inj_left heq hlen)
  rw [methodMoreSpecific, specificity, specificity, append_lt_append_iff hlen]
  obtain ⟨b, hb, hr, hiff⟩ | ⟨hnone, hspec | ⟨hl, hlt⟩ | ⟨hl, hlt⟩⟩ :=
    specializersMoreSpecific_spec h h' htied
  · rw [hb]
    exact ⟨hdiff hr, by rw [or_iff_left fun h => hr h.1, hiff]⟩
  · have hopt : m.optional ≠ m'.optional := hne.resolve_left (not_not.2 hspec)
    have hreq : m.required = m'.required := congrArg length hspec
    cases hm : m.optional <;> cases hm' : m'.optional <;> simp_all
  · have hreq : m.required > m'.required := hl
    rw [hnone]
    simp only [if_pos hreq]
    exact ⟨hdiff hlt.ne, iff_of_true trivial (.inl hlt)⟩
  · have hreq : m.required < m'.required := hl
    rw [hnone]
    simp only [if_neg (Nat.not_lt.2 hreq.le), if_pos hreq]
    exact ⟨hdiff hlt.ne', iff_of_false Bool.false_ne_true (by
      rintro (h | ⟨h, -⟩)
      · exact lt_asymm h hlt
      · exact hlt.ne' h)⟩

theorem range_map_getD {β : Type} (l : List β) (d : β) :
    (range l.length).map (fun i => l.getD i d) = l := by
  refine ext_getElem (by simp) fun i h h' => ?_
  simp [getD_eq_getElem?_getD, h']

section

variable {args : Args α} {methods : Methods α κ σ n}
  (hmatch : ∀ m ∈ methods, specializersMatch C m.specializers args = true)
  (hcomp : Comparable methods)

include hmatch hcomp

theorem keyed_of_comparable (d : SgMethod α κ σ n) :
    Keyed (methodMoreSpecific C (args.map C.classOf)) (specificity C args) methods.length
      fun i => methods.getD i d := by
  intro i hi j hj hij
  simp only [getD_eq_getElem?_getD, getElem?_eq_getElem hi, getElem?_eq_getElem hj,
    Option.getD_some]
  have hpair : (methods[i].specializers ≠ methods[j].specializers ∨
      methods[i].optional ≠ methods[j].optional) ∧
      ¬ EqlTied methods[i].specializers methods[j].specializers := by
    obtain hlt | hlt := Nat.lt_or_gt_of_ne hij
    · exact pairwise_iff_getElem.1 hcomp i j hi hj hlt
    · obtain ⟨hne, htied⟩ := pairwise_iff_getElem.1 hcomp j i hj hi hlt
      exact ⟨hne.imp Ne.symm Ne.symm, fun h => htied (eqlTied_comm h)⟩
  exact methodMoreSpecific_iff (hmatch _ (getElem_mem hi)) (hmatch _ (getElem_mem hj))
    hpair.1 hpair.2

/-- **Methods that can be compared are sorted by their specificity.** -/
theorem sortPrimaryMethods_eq :
    sortPrimaryMethods C methods args = bySpecificity C args methods := by
  cases hmethods : methods with
  | nil => rfl
  | cons d ms =>
    have hkeyed := keyed_of_comparable hmatch hcomp d
    rw [hmethods] at hkeyed
    rw [sortPrimaryMethods, bySpecificity]
    have hlist := range_map_getD (d :: ms) d
    set array := fun i => (d :: ms).getD i d
    have hperm := shellSort_perm (methodMoreSpecific C (args.map C.classOf)) (d :: ms).length array
    have hsorted := shellSort_sorted hkeyed
    have hkeyed := hkeyed.permuted hperm
    have hperm := hperm.list_perm
    rw [hlist] at hperm
    refine List.Perm.eq_of_pairwise ?_ (pairwise_map.2 ?_) (pairwise_insertionSort _ _)
      (hperm.trans (perm_insertionSort _ _).symm)
    · intro m m' hm hm' hle hge
      rw [mem_insertionSort, ← hperm.mem_iff] at hm'
      obtain ⟨i, hi, rfl⟩ := mem_map.1 hm
      obtain ⟨j, hj, rfl⟩ := mem_map.1 hm'
      by_contra hne
      refine (hkeyed i (mem_range.1 hi) j (mem_range.1 hj) fun h => hne ?_).1
        (le_antisymm hle hge)
      rw [h]
    · refine pairwise_iff_getElem.2 fun i j hi hj hij => ?_
      rw [length_range] at hj
      simpa using (hsorted i j hij hj).le

end

omit [DecidableEq α] in
theorem EqlTied.exists_eqvP {args : Args α} {l l' : List (Specializer α κ)}
    (h : specializersMatch C l args = true) (h' : specializersMatch C l' args = true)
    (htied : EqlTied l l') : ∃ a o a' o' obj, .eql a o ∈ l ∧ .eql a' o' ∈ l' ∧
      C.eqvP obj o = true ∧ C.eqvP obj o' = true := by
  induction args generalizing l l' with
  | nil =>
    cases l with
    | nil => cases htied
    | cons s l => cases h
  | cons arg args ih =>
    cases l with
    | nil => cases htied
    | cons s l =>
      cases l' with
      | nil => cases htied
      | cons s' l' =>
        obtain ⟨hs, h⟩ := Bool.and_eq_true_iff.1 h
        obtain ⟨hs', h'⟩ := Bool.and_eq_true_iff.1 h'
        obtain ⟨-, htied⟩ | ⟨-, a, o, a', o', rfl, rfl⟩ := htied
        · obtain ⟨a, o, a', o', obj, hmem, hmem', heqv⟩ := ih h h' htied
          exact ⟨a, o, a', o', obj, mem_cons_of_mem _ hmem, mem_cons_of_mem _ hmem', heqv⟩
        · exact ⟨a, o, a', o', arg, mem_cons_self, mem_cons_self, hs, hs'⟩

end

/-! ### The arrays of specializers -/

section Arrays

variable [DecidableEq α]

/-- The cells of the array of a method: its specializers and a null. -/
def cells (l : List (Specializer α κ)) : List (Option (Specializer α κ)) := l.map some ++ [none]

/-- The loop of `method_more_specific` on what is left of the arrays; no result is a read behind
the end of one. -/
def readLoop : List κ → List (Option (Specializer α κ)) → List (Option (Specializer α κ)) →
    Option (Option Bool)
  | [], _, _ => some none
  | targ :: targv, some s1 :: spec1, some s2 :: spec2 =>
    if s1 ≠ s2 then some (some (moreSpecificP C s1 s2 targ)) else readLoop targv spec1 spec2
  | _ :: targv, _ :: spec1, _ :: spec2 => readLoop targv spec1 spec2
  | _ :: _, _, _ => none

/-- The loop stays inside the arrays, and compares the specializers. -/
def ReadsInside (targv : List κ) (l l' : List (Specializer α κ)) : Prop :=
  readLoop C targv (cells l) (cells l') = some (specializersMoreSpecific C targv l l')

variable {C}

theorem readsInside_iff {targv : List κ} {l l' : List (Specializer α κ)} :
    ReadsInside C targv l l' ↔
      ¬ ((l <+: l' ∨ l' <+: l) ∧ min l.length l'.length + 2 ≤ targv.length) := by
  unfold ReadsInside
  induction targv generalizing l l' with
  | nil => simp [readLoop, specializersMoreSpecific]
  | cons targ targv ih =>
    cases l with
    | nil => cases l' <;> cases targv <;> simp [cells, readLoop, specializersMoreSpecific]
    | cons s l =>
      cases l' with
      | nil => cases targv <;> simp [cells, readLoop, specializersMoreSpecific]
      | cons s' l' =>
        by_cases hs : s = s'
        · subst hs
          simpa [cells, readLoop, specializersMoreSpecific, Nat.add_right_comm] using ih
        · simp [cells, readLoop, specializersMoreSpecific, hs, Ne.symm hs]

/-- **Applicable methods are sorted by their specificity, without reading behind an array, exactly
if no two of them are equal up to the end of one that is followed by two more arguments.** -/
theorem sortPrimaryMethods_iff (C : Classes α κ) (methods : Methods α κ σ n)
    (args : Args α) :
    let applicable := computeApplicableMethods C methods args
    applicable.Pairwise (fun m m' => m.specializers ≠ m'.specializers ∨ m.optional ≠ m'.optional) →
    applicable.Pairwise (fun m m' => ∀ a o a' o' obj, .eql a o ∈ m.specializers →
      .eql a' o' ∈ m'.specializers → ¬ (C.eqvP obj o = true ∧ C.eqvP obj o' = true)) →
    ((sortPrimaryMethods C applicable args).Perm applicable ∧
        (sortPrimaryMethods C applicable args).Pairwise
          (fun m m' => specificity C args m ≤ specificity C args m') ∧
        applicable.Pairwise (fun m m' =>
          ReadsInside C (args.map C.classOf) m.specializers m'.specializers ∧
            ReadsInside C (args.map C.classOf) m'.specializers m.specializers) ↔
      applicable.Pairwise fun m m' =>
        ¬ ((m.specializers <+: m'.specializers ∨ m'.specializers <+: m.specializers) ∧
          min m.required m'.required + 2 ≤ args.length)) := by
  intro applicable hdiff heql
  have hmatch : ∀ m ∈ applicable, specializersMatch C m.specializers args = true := by
    intro m hm
    exact (Bool.and_eq_true_iff.1 (mem_filter.1 hm).2).2
  have hcomp : Comparable applicable := by
    refine (hdiff.and heql).imp_of_mem fun {m m'} hm hm' h => ⟨h.1, fun htied => ?_⟩
    obtain ⟨a, o, a', o', obj, hmem, hmem', heqv⟩ :=
      htied.exists_eqvP (hmatch m hm) (hmatch m' hm')
    exact h.2 a o a' o' obj hmem hmem' heqv
  rw [sortPrimaryMethods_eq hmatch hcomp]
  have hsorted : (bySpecificity C args applicable).Perm applicable ∧
      (bySpecificity C args applicable).Pairwise
        (fun m m' => specificity C args m ≤ specificity C args m') :=
    ⟨perm_insertionSort _ _, pairwise_insertionSort _ _⟩
  have hboth : ∀ m m' : SgMethod α κ σ n,
      ReadsInside C (args.map C.classOf) m.specializers m'.specializers ∧
        ReadsInside C (args.map C.classOf) m'.specializers m.specializers ↔
      ¬ ((m.specializers <+: m'.specializers ∨ m'.specializers <+: m.specializers) ∧
        min m.required m'.required + 2 ≤ args.length) := by
    intro m m'
    rw [readsInside_iff, readsInside_iff, or_comm,
      Nat.min_comm m'.specializers.length, and_self, length_map]
    rfl
  simp only [hsorted, true_and, hboth]

/-- One class, and methods that take any objects. -/
def anyObjects : Classes Unit Unit := ⟨fun _ => (), fun _ => [], fun _ _ => false⟩

/-- A method with `required` parameters, and a rest. -/
def restMethod (required : ℕ) : SgMethod Unit Unit Unit 0 :=
  ⟨required, .primary, replicate required (.cls ()), true, fun _ => .fail⟩

theorem sortPrimaryMethods_two :
    let methods := [restMethod 1, restMethod 2]
    let sorted := sortPrimaryMethods anyObjects methods [.nil, .nil]
    sorted.Perm methods ∧
      sorted.Pairwise (fun m m' =>
        specificity anyObjects [.nil, .nil] m ≤ specificity anyObjects [.nil, .nil] m') ∧
      methods.Pairwise fun m m' =>
        ReadsInside anyObjects [(), ()] m.specializers m'.specializers ∧
          ReadsInside anyObjects [(), ()] m'.specializers m.specializers :=
  (sortPrimaryMethods_iff anyObjects [restMethod 1, restMethod 2] [.nil, .nil]
    (by decide) (pairwise_of_forall fun _ _ _ _ _ _ _ _ _ h => nomatch h.1)).2 (by decide)

/-- With three arguments, the comparison of the methods reads behind the array of the first one. -/
theorem readLoop_three :
    computeApplicableMethods anyObjects [restMethod 1, restMethod 2] [.nil, .nil, .nil] =
        [restMethod 1, restMethod 2] ∧
      readLoop anyObjects [(), (), ()] (cells (restMethod 1).specializers)
        (cells (restMethod 2).specializers) = none := by
  exact ⟨rfl, rfl⟩

end Arrays

end Sagittarius.Clos
