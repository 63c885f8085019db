import Mathlib.Algebra.Order.Group.Nat
import Mathlib.Tactic.Common

/-!
# Sets as lists of ranges

A set of numbers as a list of ranges that ascend, with a gap between two of them.

* `Canonical lo hi rs` : such a list, of ranges between `lo` and `hi`;
* `absorb` : which ranges a new one swallows, and where it ends then;
* `canonical_absorb`, `covers_absorb` : a range is added to a set;
* `gapsFrom` : the ranges that are missing; `canonical_gapsFrom`, `covers_gapsFrom`.
-/

namespace Sagittarius

/-- Some range has the number. -/
def Covers (rs : List (ℕ × ℕ)) (c : ℕ) : Prop := ∃ r ∈ rs, r.1 ≤ c ∧ c ≤ r.2

instance (rs : List (ℕ × ℕ)) (c : ℕ) : Decidable (Covers rs c) :=
  inferInstanceAs (Decidable (∃ r ∈ rs, r.1 ≤ c ∧ c ≤ r.2))

/-- Disjoint, non-adjacent ascending ranges between two bounds. -/
structure Canonical (lo hi : ℕ) (rs : List (ℕ × ℕ)) : Prop where
  bounds : ∀ r ∈ rs, lo ≤ r.1 ∧ r.1 ≤ r.2 ∧ r.2 ≤ hi
  gaps : rs.Pairwise fun a b => a.2 + 1 < b.1

@[simp] theorem covers_nil (c : ℕ) : ¬ Covers [] c := by
  simp [Covers]

@[simp] theorem covers_cons (r : ℕ × ℕ) (rs : List (ℕ × ℕ)) (c : ℕ) :
    Covers (r :: rs) c ↔ (r.1 ≤ c ∧ c ≤ r.2) ∨ Covers rs c := by
  simp [Covers]

@[simp] theorem covers_append (rs rs' : List (ℕ × ℕ)) (c : ℕ) :
    Covers (rs ++ rs') c ↔ Covers rs c ∨ Covers rs' c := by
  simp [Covers, or_and_right, exists_or]

variable {lo hi : ℕ} {r : ℕ × ℕ} {rs rs' : List (ℕ × ℕ)}

theorem canonical_nil : Canonical lo hi [] := ⟨nofun, .nil⟩

theorem canonical_cons :
    Canonical lo hi (r :: rs) ↔
      (lo ≤ r.1 ∧ r.1 ≤ r.2 ∧ r.2 ≤ hi) ∧ (∀ x ∈ rs, r.2 + 1 < x.1) ∧ Canonical lo hi rs := by
  constructor
  · rintro ⟨hb, hg⟩
    rw [List.forall_mem_cons] at hb
    rw [List.pairwise_cons] at hg
    exact ⟨hb.1, hg.1, hb.2, hg.2⟩
  · rintro ⟨hr, hnext, hb, hg⟩
    exact ⟨List.forall_mem_cons.2 ⟨hr, hb⟩, List.pairwise_cons.2 ⟨hnext, hg⟩⟩

theorem canonical_append :
    Canonical lo hi (rs ++ rs') ↔
      Canonical lo hi rs ∧ Canonical lo hi rs' ∧ ∀ x ∈ rs, ∀ y ∈ rs', x.2 + 1 < y.1 := by
  constructor
  · rintro ⟨hb, hg⟩
    rw [List.forall_mem_append] at hb
    rw [List.pairwise_append] at hg
    exact ⟨⟨hb.1, hg.1⟩, ⟨hb.2, hg.2.1⟩, hg.2.2⟩
  · rintro ⟨⟨hb, hg⟩, ⟨hb', hg'⟩, hgap⟩
    exact ⟨List.forall_mem_append.2 ⟨hb, hb'⟩, List.pairwise_append.2 ⟨hg, hg', hgap⟩⟩

theorem Canonical.tail (h : Canonical lo hi (r :: rs)) : Canonical (r.2 + 1) hi rs := by
  obtain ⟨-, hnext, hrs⟩ := canonical_cons.1 h
  exact ⟨fun x hx => ⟨(hnext x hx).le, (hrs.bounds x hx).2⟩, hrs.gaps⟩

theorem Canonical.sublist (h : Canonical lo hi rs) (hsub : rs'.Sublist rs) :
    Canonical lo hi rs' :=
  ⟨fun x hx => h.bounds x (hsub.subset hx), h.gaps.sublist hsub⟩

theorem Canonical.le_of_covers (h : Canonical lo hi rs) {c : ℕ} (hc : Covers rs c) :
    lo ≤ c ∧ c ≤ hi := by
  obtain ⟨x, hx, hle, hge⟩ := hc
  have := h.bounds x hx
  omega

/-! ### Adding a range -/

/-- The end of a range that goes up to `stop` at least, after it has swallowed the ranges that it
meets, and the ranges that are left. -/
def absorb (stop : ℕ) : List (ℕ × ℕ) → ℕ × List (ℕ × ℕ)
  | [] => (stop, [])
  | (k, v) :: rs =>
    if stop + 1 < k then (stop, (k, v) :: rs)
    else if stop < v then (v, rs)
    else absorb stop rs

theorem absorb_sublist (stop : ℕ) (rs : List (ℕ × ℕ)) : (absorb stop rs).2.Sublist rs := by
  induction rs with
  | nil => exact .slnil
  | cons r rs ih =>
    rw [absorb]
    split_ifs
    · exact .refl _
    · exact List.sublist_cons_self _ _
    · exact ih.cons _

theorem absorb_spec (h : Canonical lo hi rs) {stop : ℕ} (hstop : stop ≤ hi) :
    stop ≤ (absorb stop rs).1 ∧ (absorb stop rs).1 ≤ hi ∧
      (∀ x ∈ (absorb stop rs).2, (absorb stop rs).1 + 1 < x.1) ∧
      ∀ c, (c ≤ (absorb stop rs).1 ∨ Covers (absorb stop rs).2 c) ↔ (c ≤ stop ∨ Covers rs c) := by
  induction rs with
  | nil => simp [absorb, hstop]
  | cons r rs ih =>
    obtain ⟨hr, hnext, hrs⟩ := canonical_cons.1 h
    rw [absorb]
    split_ifs with hkey hval
    · refine ⟨le_rfl, hstop, ?_, fun c => Iff.rfl⟩
      rintro x (_ | ⟨_, hx⟩)
      · exact hkey
      · have := hnext x hx
        omega
    · refine ⟨hval.le, hr.2.2, hnext, fun c => ?_⟩
      rw [covers_cons, ← or_assoc]
      refine or_congr_left ?_
      omega
    · obtain ⟨hle, hhi, hrest, hcov⟩ := ih hrs
      refine ⟨hle, hhi, hrest, fun c => ?_⟩
      rw [hcov, covers_cons, ← or_assoc]
      refine or_congr_left ?_
      omega

section

variable {k stop : ℕ}

/-- **A range that swallows what it meets is separated from what is left.** -/
theorem canonical_absorb (h : Canonical lo hi (rs ++ rs')) (hlo : lo ≤ k) (hk : k ≤ stop)
    (hstop : stop ≤ hi) (hrs : ∀ x ∈ rs, x.2 + 1 < k) :
    Canonical lo hi (rs ++ (k, (absorb stop rs').1) :: (absorb stop rs').2) := by
  obtain ⟨h₁, h₂, hgap⟩ := canonical_append.1 h
  obtain ⟨hle, hhi, hrest, -⟩ := absorb_spec h₂ hstop
  have hsub := absorb_sublist stop rs'
  refine canonical_append.2 ⟨h₁, canonical_cons.2 ⟨⟨hlo, hk.trans hle, hhi⟩, hrest,
    h₂.sublist hsub⟩, ?_⟩
  rintro x hx y (_ | ⟨_, hy⟩)
  · exact hrs x hx
  · exact hgap x hx y (hsub.subset hy)

/-- **The set has the numbers of the new range in addition.** -/
theorem covers_absorb (h : Canonical lo hi (rs ++ rs')) (hstop : stop ≤ hi)
    (hrs' : ∀ x ∈ rs', k < x.1) (c : ℕ) :
    Covers (rs ++ (k, (absorb stop rs').1) :: (absorb stop rs').2) c ↔
      Covers (rs ++ rs') c ∨ (k ≤ c ∧ c ≤ stop) := by
  obtain ⟨hle, -, -, hcov⟩ := absorb_spec (canonical_append.1 h).2.1 hstop
  have hbig : ∀ {l : List (ℕ × ℕ)}, (∀ x ∈ l, k < x.1) → Covers l c → k ≤ c := by
    rintro l hl ⟨x, hx, hxc, -⟩
    have := hl x hx
    omega
  have hrest := hbig fun x hx => hrs' x ((absorb_sublist stop rs').subset hx)
  have hc := hcov c
  rw [covers_append, covers_append, covers_cons]
  by_cases hkc : k ≤ c <;> tauto

end

/-! ### The ranges that are missing -/

/-- The range from `a` to `b`, if it is not empty. -/
def rangeOf (a b : ℕ) : List (ℕ × ℕ) := if a ≤ b then [(a, b)] else []

theorem covers_rangeOf (a b c : ℕ) : Covers (rangeOf a b) c ↔ a ≤ c ∧ c ≤ b := by
  rw [rangeOf]
  split_ifs with h
  · simp
  · simp only [covers_nil, false_iff]
    omega

theorem mem_rangeOf {a b : ℕ} (h : r ∈ rangeOf a b) : r = (a, b) ∧ a ≤ b := by
  rw [rangeOf] at h
  split_ifs at h with hab
  · exact ⟨List.mem_singleton.1 h, hab⟩
  · cases h

/-- The gaps of a set behind the number `last`. -/
def gapsFrom (hi : ℕ) (last : ℕ) : List (ℕ × ℕ) → List (ℕ × ℕ)
  | [] => rangeOf (last + 1) hi
  | (k, v) :: rs => rangeOf (last + 1) (k - 1) ++ gapsFrom hi v rs

theorem covers_gapsFrom {last c : ℕ} (h : Canonical (last + 1) hi rs) (hc : c ≤ hi) :
    Covers (gapsFrom hi last rs) c ↔ last < c ∧ ¬ Covers rs c := by
  induction rs generalizing last with
  | nil =>
    rw [gapsFrom, covers_rangeOf]
    simp only [covers_nil, not_false_eq_true, and_true]
    omega
  | cons r rs ih =>
    have hr := (canonical_cons.1 h).1
    have hbig : Covers rs c → r.2 < c := fun hcov => (h.tail.le_of_covers hcov).1
    rw [gapsFrom, covers_append, covers_rangeOf, ih h.tail, covers_cons]
    by_cases hcov : Covers rs c
    · have := hbig hcov
      simp only [hcov, not_true, and_false, or_false, or_true, iff_false]
      omega
    · simp only [hcov, or_false, not_false_eq_true, and_true]
      omega

theorem canonical_gapsFrom {last : ℕ} (h : Canonical (last + 1) hi rs) :
    Canonical (last + 1) hi (gapsFrom hi last rs) := by
  induction rs generalizing last with
  | nil =>
    rw [gapsFrom]
    refine ⟨fun r hr => ?_, ?_⟩
    · obtain ⟨rfl, hle⟩ := mem_rangeOf hr
      exact ⟨le_rfl, hle, le_rfl⟩
    · rw [rangeOf]
      split_ifs
      · exact List.pairwise_singleton _ _
      · exact .nil
  | cons r rs ih =>
    have hr := (canonical_cons.1 h).1
    have htail := ih h.tail
    rw [gapsFrom, canonical_append]
    refine ⟨?_, ⟨fun x hx => ?_, htail.gaps⟩, ?_⟩
    · rw [rangeOf]
      split_ifs
      · refine ⟨fun x hx => ?_, List.pairwise_singleton _ _⟩
        obtain rfl := List.mem_singleton.1 hx
        omega
      · exact canonical_nil
    · have := htail.bounds x hx
      omega
    · intro x hx y hy
      obtain ⟨rfl, -⟩ := mem_rangeOf hx
      have := htail.bounds y hy
      omega

end Sagittarius
