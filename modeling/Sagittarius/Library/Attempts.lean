import Mathlib.Data.List.Basic

/-!
# Ordered attempts

A computation that can succeed in several ways is a function from states to the list of the states
it can end in, the preferred one first.  Backtracking takes the head of the list.

* `andThen`, `orElse`, `seqAll`, `oneOf` : sequences and choices;
* `times`, `upTo`, `star` : repetition, a fixed number of times, at most so often and without a
  bound; a round of `star` that makes no progress is not repeated;
* `andThen_assoc`, `seqAll_append` : what regrouping sequences does.
-/

namespace Sagittarius

/-- The ways in which a computation can succeed, in the order of preference. -/
abbrev Attempts (σ : Type*) := σ → List σ

namespace Attempts

variable {σ : Type*} (f g h : Attempts σ)

/-- Do nothing. -/
def succeed : Attempts σ := fun s => [s]

/-- Fail. -/
def fail : Attempts σ := fun _ => []

/-- First `f`, then `g`. -/
def andThen : Attempts σ := fun s => (f s).flatMap g

/-- `f`, or else `g`. -/
def orElse : Attempts σ := fun s => f s ++ g s

/-- One after the other. -/
def seqAll (fs : List (Attempts σ)) : Attempts σ := fs.foldr andThen succeed

/-- One of them, the first preferred. -/
def oneOf (fs : List (Attempts σ)) : Attempts σ := fs.foldr orElse fail

/-- `f`, `n` times. -/
def times : ℕ → Attempts σ
  | 0 => succeed
  | n + 1 => andThen f (times n)

/-- `f` or nothing; a greedy choice prefers `f`. -/
def maybe (greedy : Bool) : Attempts σ := if greedy then orElse f succeed else orElse succeed f

/-- `f`, at most `n` times. -/
def upTo (greedy : Bool) : ℕ → Attempts σ
  | 0 => succeed
  | n + 1 => maybe (andThen f (upTo greedy n)) greedy

/-- `f`, any number of times up to `n`, where a round has to make progress. -/
def star (progress : σ → σ → Bool) (greedy : Bool) : ℕ → Attempts σ
  | 0 => succeed
  | n + 1 => maybe (andThen (fun s => (f s).filter (progress s)) (star progress greedy n)) greedy

@[simp] theorem succeed_andThen : andThen succeed f = f := by
  funext s
  simp [andThen, succeed]

@[simp] theorem andThen_succeed : andThen f succeed = f := by
  funext s
  exact List.flatMap_singleton' _

@[simp] theorem orElse_fail : orElse f fail = f := by
  funext s
  exact List.append_nil _

theorem andThen_assoc : andThen (andThen f g) h = andThen f (andThen g h) := by
  funext s
  exact List.flatMap_assoc

@[simp] theorem seqAll_nil : seqAll ([] : List (Attempts σ)) = succeed := rfl

@[simp] theorem seqAll_cons (fs : List (Attempts σ)) :
    seqAll (f :: fs) = andThen f (seqAll fs) := rfl

theorem seqAll_append (fs gs : List (Attempts σ)) :
    seqAll (fs ++ gs) = andThen (seqAll fs) (seqAll gs) := by
  induction fs with
  | nil => simp
  | cons f fs ih => rw [List.cons_append, seqAll_cons, ih, seqAll_cons, andThen_assoc]

end Attempts

end Sagittarius
