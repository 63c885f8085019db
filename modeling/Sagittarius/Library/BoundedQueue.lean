import Mathlib.Algebra.Order.BigOperators.Group.List
import Mathlib.Algebra.GroupWithZero.Nat

/-!
# Queues of bounded weight

The elements of a queue have weights, and the total weight is bounded.  Before an element is put in
front, elements are removed at the back until there is room for it.

* `fit` : the elements from the front on for which there is room;
* `fit_append_of_lt`, `fit_append_single` : what is left can be found from the back as well.
-/

namespace Sagittarius

variable {α : Type*} (w : α → ℕ)

/-- The weight of a list. -/
def totalWeight (l : List α) : ℕ := (l.map w).sum

@[simp] theorem totalWeight_nil : totalWeight w [] = 0 := rfl

@[simp] theorem totalWeight_cons (a : α) (l : List α) :
    totalWeight w (a :: l) = w a + totalWeight w l := by
  simp [totalWeight]

@[simp] theorem totalWeight_append (l l' : List α) :
    totalWeight w (l ++ l') = totalWeight w l + totalWeight w l' := by
  simp [totalWeight]

variable {room : ℕ} {l : List α}

theorem totalWeight_eq_zero_iff {w : α → ℕ} (hw : ∀ a, 0 < w a) : totalWeight w l = 0 ↔ l = [] := by
  cases l with
  | nil => simp
  | cons a l =>
    have := hw a
    rw [totalWeight_cons]
    constructor
    · intro h
      omega
    · intro h
      cases h

/-- The elements, from the front on, whose weights are together at most `room`. -/
def fit : ℕ → List α → List α
  | _, [] => []
  | room, a :: l => if w a ≤ room then a :: fit (room - w a) l else []

theorem totalWeight_fit_le (l : List α) : totalWeight w (fit w room l) ≤ room := by
  induction l generalizing room with
  | nil => exact Nat.zero_le _
  | cons a l ih =>
    rw [fit]
    split_ifs with ha
    · rw [totalWeight_cons]
      exact Nat.add_le_of_le_sub' ha ih
    · exact Nat.zero_le _

theorem fit_of_le (h : totalWeight w l ≤ room) : fit w room l = l := by
  induction l generalizing room with
  | nil => rfl
  | cons a l ih =>
    rw [totalWeight_cons] at h
    rw [fit, if_pos (by omega), ih (by omega)]

theorem fit_append_of_lt (h : room < totalWeight w l) (l' : List α) :
    fit w room (l ++ l') = fit w room l := by
  induction l generalizing room with
  | nil => simp at h
  | cons a l ih =>
    rw [totalWeight_cons] at h
    rw [List.cons_append, fit, fit]
    split_ifs with ha
    · rw [ih (by omega)]
    · rfl

/-- If all but the last fit, and the last does not, then the last is left out. -/
theorem fit_append_single {a : α} (h : totalWeight w l ≤ room)
    (ha : room < totalWeight w (l ++ [a])) : fit w room (l ++ [a]) = l := by
  induction l generalizing room with
  | nil =>
    rw [List.nil_append, totalWeight_cons, totalWeight_nil] at ha
    rw [List.nil_append, fit, if_neg (by omega)]
  | cons b l ih =>
    rw [totalWeight_cons] at h
    rw [List.cons_append, totalWeight_cons] at ha
    rw [List.cons_append, fit, if_pos (by omega), ih (by omega) (by omega)]

end Sagittarius
