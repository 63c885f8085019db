import Mathlib.Order.Basic

/-!
# Runs that track each other until they are apart

Two computations with state and errors are compared.  Each of them may only let its state grow.
They go on in the same way, in related states, or they are **apart**: whatever they do afterwards,
it can be told from their final states that they went different ways.

* `Tracks` : from related states, two computations end in the same way or apart;
* `Tracks.bind` : the rule for one computation after the other.
-/

namespace Sagittarius

variable {ε S S' α β : Type}

/-- The state in which a computation ends. -/
def finalState : EStateM.Result ε S α → S
  | .ok _ s => s
  | .error _ s => s

/-- A computation ends with an error. -/
def failed : EStateM.Result ε S α → Bool
  | .ok _ _ => false
  | .error _ _ => true

/-- A computation lets the state grow. -/
def Grows (le : S → S → Prop) (x : EStateM ε S α) : Prop := ∀ s, le s (finalState (x s))

section

variable {le : S → S → Prop}

theorem Grows.pure (hrefl : ∀ s, le s s) (a : α) : Grows le (Pure.pure a : EStateM ε S α) := hrefl

theorem Grows.throw (hrefl : ∀ s, le s s) (e : ε) : Grows le (throw e : EStateM ε S α) := hrefl

theorem Grows.bind (htrans : ∀ s t u, le s t → le t u → le s u) {x : EStateM ε S α}
    {f : α → EStateM ε S β} (hx : Grows le x) (hf : ∀ a, Grows le (f a)) : Grows le (x >>= f) := by
  intro s
  have hs := hx s
  change le s (finalState (EStateM.bind x f s))
  rw [EStateM.bind]
  cases h : x s with
  | ok a t =>
    rw [h] at hs
    exact htrans s t _ hs (hf a t)
  | error e t =>
    rw [h] at hs
    exact hs

theorem Grows.modify {f : S → S} (h : ∀ s, le s (f s)) :
    Grows le (modify f : EStateM ε S PUnit) := h

theorem get_bind_apply (f : S → EStateM ε S β) (s : S) : (get >>= f) s = f s s := rfl

theorem Grows.get_bind (htrans : ∀ s t u, le s t → le t u → le s u) (hrefl : ∀ s, le s s)
    {f : S → EStateM ε S β} (hf : ∀ a, Grows le (f a)) : Grows le (get >>= f) :=
  Grows.bind htrans (show Grows le (get : EStateM ε S S) from hrefl) hf

end

/-- How the states of two computations are compared. -/
structure Comparison (S S' : Type) where
  /-- how the states of the first one grow -/
  le : S → S → Prop
  /-- how the states of the second one grow -/
  le' : S' → S' → Prop
  /-- both have ended with the same error -/
  same : S → S' → Prop
  /-- they are apart; the first one may have ended with an error -/
  apart : Bool → S → S' → Prop
  apart_left : ∀ {s t s' b}, apart false s s' → le s t → apart b t s'
  apart_right : ∀ {s s' t' b}, apart b s s' → le' s' t' → apart b s t'

variable (T : Comparison S S')

/-- The two computations end in the same way, with `Q`. -/
def Comparison.EndsSame (Q : α → S → S' → Prop) :
    EStateM.Result ε S α → EStateM.Result ε S' α → Prop
  | .ok a t, .ok a' t' => a = a' ∧ Q a t t'
  | .error e t, .error e' t' => e = e' ∧ T.same t t'
  | _, _ => False

/-- The two computations end apart. -/
def Comparison.EndsApart (r : EStateM.Result ε S α) (r' : EStateM.Result ε S' β) : Prop :=
  T.apart (failed r) (finalState r) (finalState r')

/-- From states in `P`, two computations end in the same way, with `Q`, or apart. -/
def Tracks (P : S → S' → Prop) (x : EStateM ε S α) (y : EStateM ε S' α)
    (Q : α → S → S' → Prop) : Prop :=
  ∀ s s', P s s' → T.EndsSame Q (x s) (y s') ∨ T.EndsApart (x s) (y s')

section

variable {T} {P P' : S → S' → Prop} {x : EStateM ε S α} {y : EStateM ε S' α}
  {Q : α → S → S' → Prop} {R : β → S → S' → Prop}

theorem Tracks.pure {a : α} (h : ∀ s s', P s s' → Q a s s') :
    Tracks T P (Pure.pure a : EStateM ε S α) (Pure.pure a) Q :=
  fun s s' hP => .inl ⟨rfl, h s s' hP⟩

theorem Tracks.throw (e : ε) (h : ∀ s s', P s s' → T.same s s') :
    Tracks T P (throw e : EStateM ε S α) (throw e) Q :=
  fun s s' hP => .inl ⟨rfl, h s s' hP⟩

theorem Tracks.mono {Q' : α → S → S' → Prop} (h : Tracks T P x y Q)
    (hQ : ∀ a s s', Q a s s' → Q' a s s') : Tracks T P x y Q' := by
  intro s s' hP
  refine (h s s' hP).imp_left fun hsame => ?_
  revert hsame
  cases x s <;> cases y s' <;> simp only [Comparison.EndsSame, imp_self]
  exact fun ⟨ha, hq⟩ => ⟨ha, hQ _ _ _ hq⟩

theorem Comparison.EndsApart.bind {f : α → EStateM ε S β} {g : α → EStateM ε S' β} {s : S} {s' : S'}
    (h : T.EndsApart (x s) (y s')) (hf : ∀ a, Grows T.le (f a)) (hg : ∀ a, Grows T.le' (g a)) :
    T.EndsApart ((x >>= f) s) ((y >>= g) s') := by
  change T.EndsApart (EStateM.bind x f s) (EStateM.bind y g s')
  rw [EStateM.bind, EStateM.bind]
  cases hx : x s with
  | error e t =>
    cases hy : y s' with
    | error e' t' => rwa [hx, hy] at h
    | ok a' t' =>
      rw [hx, hy] at h
      exact T.apart_right h (hg a' t')
  | ok a t =>
    cases hy : y s' with
    | error e' t' =>
      rw [hx, hy] at h
      exact T.apart_left h (hf a t)
    | ok a' t' =>
      rw [hx, hy] at h
      exact T.apart_right (T.apart_left h (hf a t)) (hg a' t')

/-- **One computation after the other.** -/
theorem Tracks.bind {f : α → EStateM ε S β} {g : α → EStateM ε S' β} (hxy : Tracks T P x y Q)
    (hfg : ∀ a, Tracks T (Q a) (f a) (g a) R) (hf : ∀ a, Grows T.le (f a))
    (hg : ∀ a, Grows T.le' (g a)) : Tracks T P (x >>= f) (y >>= g) R := by
  intro s s' hP
  obtain hsame | hapart := hxy s s' hP
  · change T.EndsSame R (EStateM.bind x f s) (EStateM.bind y g s') ∨
      T.EndsApart (EStateM.bind x f s) (EStateM.bind y g s')
    rw [EStateM.bind, EStateM.bind]
    cases hx : x s with
    | error e t =>
      cases hy : y s' with
      | error e' t' =>
        rw [hx, hy] at hsame
        exact .inl hsame
      | ok a' t' =>
        rw [hx, hy] at hsame
        exact hsame.elim
    | ok a t =>
      cases hy : y s' with
      | error e' t' =>
        rw [hx, hy] at hsame
        exact hsame.elim
      | ok a' t' =>
        rw [hx, hy] at hsame
        obtain ⟨rfl, hQ⟩ := hsame
        exact hfg a t t' hQ
  · exact .inr (hapart.bind hf hg)

theorem Tracks.modify_bind {u : S → S} {u' : S' → S'} {f : EStateM ε S β} {g : EStateM ε S' β}
    (h : ∀ s s', P s s' → P' (u s) (u' s')) (hfg : Tracks T P' f g R) :
    Tracks T P (modify u >>= fun _ => f) (modify u' >>= fun _ => g) R :=
  fun s s' hP => hfg (u s) (u' s') (h s s' hP)

end

end Sagittarius
