import Mathlib.Data.List.Sort
import Mathlib.Logic.Equiv.Basic

/-!
# Shell sort

An array is sorted in passes.  A pass with distance `step` lets every element sink past the ones
`step`, `2 * step`, ... places before it, until one of them is smaller.  The distance is halved
after each pass, so the last pass is insertion sort.

* `shellSort_perm` : the result is a permutation of the array, whatever the comparison does;
* `shellSort_sorted` : it is sorted if the comparison is the order of keys that are different for
  different elements.  Only the last pass matters for this.

An array of length `len` is a function on the natural numbers, read below `len`.
-/

namespace Sagittarius

open List Equiv

variable {α : Type*} (lt : α → α → Bool)

/-- The element at `p` sinks, `step` places at a time; `fuel` bounds the number of moves. -/
def sink (step : ℕ) : ℕ → ℕ → (ℕ → α) → ℕ → α
  | 0, _, a => a
  | fuel + 1, p, a =>
    if p < step then a
    else if lt (a (p - step)) (a p) then a
    else sink step fuel (p - step) (a ∘ swap (p - step) p)

/-- A pass with distance `step`. -/
def shellPass (len step : ℕ) (a : ℕ → α) : ℕ → α :=
  (range' step (len - step)).foldl (fun a i => sink lt step i i a) a

/-- The passes, from distance `step` on; `fuel` bounds their number. -/
def shellLoop (len : ℕ) : ℕ → ℕ → (ℕ → α) → ℕ → α
  | 0, _, a => a
  | fuel + 1, step, a =>
    if step = 0 then a else shellLoop len fuel (step / 2) (shellPass lt len step a)

/-- The array after all passes. -/
def shellSort (len : ℕ) (a : ℕ → α) : ℕ → α := shellLoop lt len len (len / 2) a

/-! ### The elements are permuted -/

/-- `b` has the elements of `a` below `len`, in another order. -/
def Permuted (len : ℕ) (a b : ℕ → α) : Prop :=
  ∃ σ : Equiv.Perm ℕ, (∀ i, len ≤ i → σ i = i) ∧ b = a ∘ σ

section

variable {len : ℕ} {a b c : ℕ → α}

theorem Permuted.refl (len : ℕ) (a : ℕ → α) : Permuted len a a :=
  ⟨Equiv.refl ℕ, fun _ _ => rfl, rfl⟩

theorem Permuted.trans (h : Permuted len a b) (h' : Permuted len b c) : Permuted len a c := by
  obtain ⟨σ, hσ, rfl⟩ := h
  obtain ⟨τ, hτ, rfl⟩ := h'
  refine ⟨τ.trans σ, fun i hi => ?_, rfl⟩
  rw [trans_apply, hτ i hi, hσ i hi]

theorem permuted_swap {i j : ℕ} (hi : i < len) (hj : j < len) :
    Permuted len a (a ∘ swap i j) :=
  ⟨swap i j, fun k hk => swap_apply_of_ne_of_ne (by omega) (by omega), rfl⟩

theorem Permuted.lt_iff {σ : Equiv.Perm ℕ} (hσ : ∀ i, len ≤ i → σ i = i) (i : ℕ) :
    σ i < len ↔ i < len := by
  constructor
  · intro h
    by_contra hi
    rw [hσ i (Nat.le_of_not_lt hi)] at h
    exact hi h
  · intro h
    by_contra hi
    have := σ.injective (hσ (σ i) (Nat.le_of_not_lt hi))
    omega

theorem Permuted.list_perm (h : Permuted len a b) :
    ((range len).map b).Perm ((range len).map a) := by
  obtain ⟨σ, hσ, rfl⟩ := h
  rw [← map_map]
  refine List.Perm.map a ?_
  rw [perm_ext_iff_of_nodup (nodup_range.map σ.injective) nodup_range]
  intro i
  simp only [mem_map, mem_range]
  constructor
  · rintro ⟨j, hj, rfl⟩
    exact (Permuted.lt_iff hσ j).2 hj
  · intro hi
    refine ⟨σ.symm i, ?_, σ.apply_symm_apply i⟩
    rwa [← Permuted.lt_iff hσ, σ.apply_symm_apply]

theorem sink_perm (step fuel : ℕ) {p : ℕ} (hp : p < len) (a : ℕ → α) :
    Permuted len a (sink lt step fuel p a) := by
  induction fuel generalizing p a with
  | zero => exact .refl len a
  | succ fuel ih =>
    rw [sink]
    split_ifs
    · exact .refl len a
    · exact .refl len a
    · exact (permuted_swap (by omega) hp).trans (ih (by omega) _)

theorem shellPass_perm (step : ℕ) (a : ℕ → α) : Permuted len a (shellPass lt len step a) := by
  rw [shellPass]
  have hmem : ∀ i ∈ range' step (len - step), i < len := by
    intro i hi
    rw [mem_range'_1] at hi
    omega
  generalize range' step (len - step) = l at hmem
  induction l generalizing a with
  | nil => exact .refl len a
  | cons i l ih =>
    obtain ⟨hi, hl⟩ := forall_mem_cons.1 hmem
    exact (sink_perm lt step i hi a).trans (ih _ hl)

theorem shellLoop_perm (fuel step : ℕ) (a : ℕ → α) :
    Permuted len a (shellLoop lt len fuel step a) := by
  induction fuel generalizing step a with
  | zero => exact .refl len a
  | succ fuel ih =>
    rw [shellLoop]
    split_ifs
    · exact .refl len a
    · exact (shellPass_perm lt step a).trans (ih _ _)

theorem shellSort_perm (len : ℕ) (a : ℕ → α) : Permuted len a (shellSort lt len a) :=
  shellLoop_perm lt _ _ a

end

/-! ### The last pass sorts -/

section

variable {β : Type*} [LinearOrder β] {key : α → β} {len : ℕ} {a b : ℕ → α}

/-- The elements of an array have different keys, and `lt` compares the keys. -/
def Keyed (key : α → β) (len : ℕ) (a : ℕ → α) : Prop :=
  ∀ i < len, ∀ j < len, i ≠ j →
    key (a i) ≠ key (a j) ∧ (lt (a i) (a j) = true ↔ key (a i) < key (a j))

variable {lt}

theorem Keyed.permuted (h : Keyed lt key len a) (hb : Permuted len a b) : Keyed lt key len b := by
  obtain ⟨σ, hσ, rfl⟩ := hb
  intro i hi j hj hij
  exact h _ ((Permuted.lt_iff hσ i).2 hi) _ ((Permuted.lt_iff hσ j).2 hj) (σ.injective.ne hij)

/-- The elements below `n` are sorted. -/
def SortedBelow (key : α → β) (n : ℕ) (a : ℕ → α) : Prop :=
  ∀ i j, i < j → j < n → key (a i) < key (a j)

/-- The elements below `n` are sorted but for the one at `p`, which is below those after it. -/
structure SinkingAt (key : α → β) (n p : ℕ) (a : ℕ → α) : Prop where
  others : ∀ i j, i < j → j < n → i ≠ p → j ≠ p → key (a i) < key (a j)
  below : ∀ j, p < j → j < n → key (a p) < key (a j)

theorem sink_sorted {n p fuel : ℕ} (hn : n ≤ len) (hp : p < n) (hfuel : p ≤ fuel)
    (hkeyed : Keyed lt key len a) (ha : SinkingAt key n p a) :
    SortedBelow key n (sink lt 1 fuel p a) := by
  induction fuel generalizing p a with
  | zero =>
    obtain rfl : p = 0 := Nat.le_zero.1 hfuel
    intro i j hij hj
    by_cases hi : i = 0
    · rw [hi] at hij ⊢
      exact ha.below j hij hj
    · exact ha.others i j hij hj hi (by omega)
  | succ fuel ih =>
    rw [sink]
    split_ifs with hzero hlt
    · obtain rfl : p = 0 := by omega
      intro i j hij hj
      by_cases hi : i = 0
      · rw [hi] at hij ⊢
        exact ha.below j hij hj
      · exact ha.others i j hij hj hi (by omega)
    · -- the element before `p` is smaller, and so are those before it
      have hbefore := ((hkeyed (p - 1) (by omega) p (by omega) (by omega)).2).1 hlt
      intro i j hij hj
      by_cases hi : i = p
      · rw [hi] at hij ⊢
        exact ha.below j hij hj
      · by_cases hj' : j = p
        · rw [hj'] at hij ⊢
          by_cases hi' : i = p - 1
          · rwa [hi']
          · exact (ha.others i (p - 1) (by omega) (by omega) hi (by omega)).trans hbefore
        · exact ha.others i j hij hj hi hj'
    · have hafter : key (a p) < key (a (p - 1)) := by
        obtain ⟨hne, hiff⟩ := hkeyed (p - 1) (by omega) p (by omega) (by omega)
        exact lt_of_le_of_ne (not_lt.1 (mt hiff.2 hlt)) hne.symm
      have hswap : ∀ i, i ≠ p - 1 → i ≠ p → (a ∘ swap (p - 1) p) i = a i := fun i hi hi' =>
        congrArg a (swap_apply_of_ne_of_ne hi hi')
      have hleft : (a ∘ swap (p - 1) p) (p - 1) = a p :=
        congrArg a (swap_apply_left (p - 1) p)
      have hright : (a ∘ swap (p - 1) p) p = a (p - 1) :=
        congrArg a (swap_apply_right (p - 1) p)
      refine ih (by omega) (by omega) (hkeyed.permuted (permuted_swap (by omega) (by omega))) ?_
      refine ⟨fun i j hij hj hi hj' => ?_, fun j hij hj => ?_⟩
      · by_cases hip : i = p
        · rw [hip, hright, hswap j (by omega) (by omega)]
          exact ha.others (p - 1) j (by omega) hj (by omega) (by omega)
        · rw [hswap i hi hip]
          by_cases hjp : j = p
          · rw [hjp, hright]
            exact ha.others i (p - 1) (by omega) (by omega) hip (by omega)
          · rw [hswap j hj' hjp]
            exact ha.others i j hij hj hip hjp
      · rw [hleft]
        by_cases hjp : j = p
        · rw [hjp, hright]
          exact hafter
        · rw [hswap j (by omega) hjp]
          exact ha.below j (by omega) hj

theorem shellPass_one_sorted (hkeyed : Keyed lt key len a) :
    SortedBelow key len (shellPass lt len 1 a) := by
  have hrun : ∀ n, n + 1 ≤ len → SortedBelow key (n + 1)
      ((range' 1 n).foldl (fun a i => sink lt 1 i i a) a) ∧
      Permuted len a ((range' 1 n).foldl (fun a i => sink lt 1 i i a) a) := by
    intro n hn
    induction n with
    | zero => exact ⟨fun i j hij hj => by omega, .refl len a⟩
    | succ n ih =>
      obtain ⟨hsorted, hperm⟩ := ih (by omega)
      rw [range'_1_concat, foldl_append, foldl_cons, foldl_nil,
        Nat.add_comm 1 n]
      refine ⟨sink_sorted hn (Nat.lt_succ_self _) le_rfl (hkeyed.permuted hperm)
        ⟨fun i j hij hj hi hj' => hsorted i j hij (by omega), fun j hj hj' => by omega⟩, ?_⟩
      exact hperm.trans (sink_perm lt 1 (n + 1) (by omega) _)
  cases len with
  | zero => exact fun i j _ hj => absurd hj (Nat.not_lt_zero j)
  | succ n => exact (hrun n le_rfl).1

theorem shellLoop_sorted {fuel step : ℕ} (hstep : 0 < step) (hfuel : step ≤ fuel)
    (hkeyed : Keyed lt key len a) : SortedBelow key len (shellLoop lt len fuel step a) := by
  induction fuel generalizing step a with
  | zero => omega
  | succ fuel ih =>
    rw [shellLoop, if_neg hstep.ne']
    have hpass := hkeyed.permuted (shellPass_perm lt step a)
    by_cases hone : step = 1
    · rw [hone] at hpass ⊢
      have hlast : shellLoop lt len fuel (1 / 2) (shellPass lt len 1 a) = shellPass lt len 1 a := by
        cases fuel <;> rfl
      rw [hlast]
      exact shellPass_one_sorted hkeyed
    · exact ih (by omega) (by omega) hpass

/-- **Shell sort sorts.** -/
theorem shellSort_sorted (hkeyed : Keyed lt key len a) :
    SortedBelow key len (shellSort lt len a) := by
  by_cases hlen : len < 2
  · intro i j hij hj
    omega
  · exact shellLoop_sorted (by omega) (by omega) hkeyed

end

end Sagittarius
