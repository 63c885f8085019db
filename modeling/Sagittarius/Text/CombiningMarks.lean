import Mathlib.Data.List.Chain
import Mathlib.Data.List.Sort

/-!
# The order of combining marks

`sort_combining_marks` of `unicode.c` walks over a decomposed string and exchanges a character with
the next one if both have a combining class and the first one's is greater; after an exchange it
goes one step back.

* `sortCombiningMarks_eq` : each run of characters that have a class is sorted, and is stable.
-/

namespace Sagittarius.Text

open List

variable {α : Type} (cc : α → ℕ)

/-- What an exchange lessens: the classes, with the number of characters from there on. -/
def weight : List α → ℕ
  | [] => 0
  | c :: l => cc c * (l.length + 1) + weight l

theorem weight_exchange {a b : α} (h : cc b < cc a) (l r : List α) :
    weight cc (l ++ b :: a :: r) < weight cc (l ++ a :: b :: r) := by
  induction l with
  | nil =>
    simp only [weight, nil_append, length_cons, Nat.mul_succ]
    omega
  | cons c l ih =>
    simp only [weight, cons_append, length_append, length_cons]
    omega

/-- The loop of `sort_combining_marks` at a position: the characters before it, the nearest one
first, and those from it on. -/
def sortCombiningMarks (before after : List α) : List α :=
  match after with
  | this :: next :: rest =>
    if _h : cc this > 0 ∧ cc next > 0 ∧ cc this > cc next then
      match before with
      | prev :: before => sortCombiningMarks before (prev :: next :: this :: rest)
      | [] => sortCombiningMarks [next] (this :: rest)
    else sortCombiningMarks (this :: before) (next :: rest)
  | rest => before.reverse ++ rest
termination_by (weight cc (before.reverse ++ after), after.length)
decreasing_by
  · refine .left _ _ ?_
    simpa using weight_exchange cc _h.2.2 (before.reverse ++ [prev]) rest
  · exact .left _ _ (weight_exchange cc _h.2.2 [] rest)
  · simp only [reverse_cons, append_assoc, singleton_append]
    exact .right _ (Nat.lt_succ_self _)

/-- A run sorted by class; characters of one class stay in their order. -/
def sortRun (run : List α) : List α := run.insertionSort fun a b => cc a ≤ cc b

/-- Every maximal run of characters that have a class is sorted; `run` is what has been seen of the
current one. -/
def canonicalOrder (run : List α) : List α → List α
  | [] => sortRun cc run
  | c :: l =>
    if cc c = 0 then sortRun cc run ++ c :: canonicalOrder [] l else canonicalOrder (run ++ [c]) l

variable {cc}

theorem orderedInsert_comm {a b : α} (h : cc b < cc a) (l : List α) :
    (l.orderedInsert (fun a b => cc a ≤ cc b) b).orderedInsert (fun a b => cc a ≤ cc b) a =
      (l.orderedInsert (fun a b => cc a ≤ cc b) a).orderedInsert (fun a b => cc a ≤ cc b) b := by
  induction l with
  | nil => simp [h.le, h.not_ge]
  | cons c l ih =>
    by_cases hb : cc b ≤ cc c
    · by_cases ha : cc a ≤ cc c <;> simp [ha, hb, h.le, h.not_ge]
    · simp [hb, show ¬ cc a ≤ cc c by omega, ih]

theorem sortRun_exchange {a b : α} (h : cc b < cc a) (run l : List α) :
    sortRun cc (run ++ a :: b :: l) = sortRun cc (run ++ b :: a :: l) := by
  induction run with
  | nil => exact orderedInsert_comm h _
  | cons c run ih => exact congrArg (orderedInsert _ c) ih

theorem canonicalOrder_congr {p q : List α} (h : ∀ s, sortRun cc (p ++ s) = sortRun cc (q ++ s))
    (l : List α) : canonicalOrder cc p l = canonicalOrder cc q l := by
  induction l generalizing p q with
  | nil => simpa [canonicalOrder] using h []
  | cons c l ih =>
    have hrun : sortRun cc p = sortRun cc q := by simpa using h []
    have hnext : canonicalOrder cc (p ++ [c]) l = canonicalOrder cc (q ++ [c]) l :=
      ih fun s => by simpa using h (c :: s)
    rw [canonicalOrder, canonicalOrder, hrun, hnext]

theorem canonicalOrder_exchange {a b : α} (hb : 0 < cc b) (h : cc b < cc a) (run l r : List α) :
    canonicalOrder cc run (l ++ a :: b :: r) = canonicalOrder cc run (l ++ b :: a :: r) := by
  induction l generalizing run with
  | nil =>
    simp only [nil_append, canonicalOrder, if_neg hb.ne', if_neg (hb.trans h).ne']
    exact canonicalOrder_congr (fun s => by simpa using sortRun_exchange h run s) r
  | cons c l ih => simp only [cons_append, canonicalOrder, ih]

/-- A string without characters to be exchanged. -/
def InOrder (cc : α → ℕ) : List α → Prop := IsChain fun a b => 0 < cc b → cc a ≤ cc b

theorem canonicalOrder_of_inOrder {run l : List α} (hrun : IsChain (fun a b => cc a ≤ cc b) run)
    (h : InOrder cc (run ++ l)) : canonicalOrder cc run l = run ++ l := by
  induction l generalizing run with
  | nil =>
    rw [canonicalOrder, append_nil]
    exact (isChain_iff_pairwise.1 hrun).insertionSort_eq
  | cons c l ih =>
    obtain ⟨-, hl, hlast⟩ := isChain_append.1 h
    rw [canonicalOrder]
    split_ifs with hc
    · rw [sortRun, (isChain_iff_pairwise.1 hrun).insertionSort_eq, ih .nil hl.tail, nil_append]
    · rw [ih, append_assoc, singleton_append]
      · refine isChain_append.2 ⟨hrun, .singleton c, ?_⟩
        rintro x hx _ ⟨⟩
        exact hlast x hx c rfl (Nat.pos_of_ne_zero hc)
      · rwa [append_assoc]

theorem sortCombiningMarks_spec (before after : List α)
    (h : InOrder cc (before.reverse ++ after.head?.toList)) :
    sortCombiningMarks cc before after = canonicalOrder cc [] (before.reverse ++ after) := by
  fun_induction sortCombiningMarks cc before after with
  | case1 this next rest hex prev before ih =>
    rw [reverse_cons] at h ⊢
    rw [ih (isChain_append.1 h).1, canonicalOrder_exchange hex.2.1 hex.2.2, append_assoc,
      singleton_append]
  | case2 this next rest hex ih =>
    rw [ih (isChain_pair.2 fun _ => hex.2.2.le)]
    exact (canonicalOrder_exchange hex.2.1 hex.2.2 [] [] rest).symm
  | case3 before this next rest hex ih =>
    rw [ih, reverse_cons, append_assoc, singleton_append]
    have hnext : 0 < cc next → cc this ≤ cc next := by omega
    simp only [InOrder, reverse_cons]
    refine isChain_append.2 ⟨h, .singleton next, ?_⟩
    simpa using hnext
  | case4 before rest hrest =>
    have hhead : rest.head?.toList = rest := by
      cases rest with
      | nil => rfl
      | cons c rest =>
        cases rest with
        | nil => rfl
        | cons d rest => exact (hrest c d rest rfl).elim
    rw [hhead] at h
    exact (canonicalOrder_of_inOrder .nil h).symm

/-- **Each maximal run of characters that have a class is sorted**, and the other characters stay
in their places. -/
theorem sortCombiningMarks_eq (cc : α → ℕ) (bv : List α) :
    sortCombiningMarks cc [] bv = canonicalOrder cc [] bv := by
  refine sortCombiningMarks_spec [] bv ?_
  cases bv with
  | nil => exact .nil
  | cons c bv => exact .singleton c

end Sagittarius.Text
