import Mathlib.Data.List.Basic

/-!
# Computations with fuel

A computation with state and errors that may run for ever is given fuel; it stops with `none` when
the fuel is used up.  It **settles** if it comes to the same end with every amount of fuel from some
point on.

* `Settles` : from a state, the computation settles, and what it returns satisfies a postcondition;
* `Settles.pure`, `Settles.bind`, `Settles.mapM`, … : the rules, one for each way in which a
  computation is built.
-/

namespace Sagittarius

/-- A computation with state and errors, which may run out of fuel. -/
abbrev FuelM (σ ε : Type) := StateT σ (ExceptT ε Option)

variable {σ ε α β : Type}

/-- How a computation ends from a state; `none` if it runs out of fuel. -/
def FuelM.outcome (x : FuelM σ ε α) (s : σ) : Option (Except ε (α × σ)) := x s

/-- There is no fuel left. -/
def outOfFuel : FuelM σ ε α := fun _ => (none : Option (Except ε (α × σ)))

@[simp] theorem outcome_pure (a : α) (s : σ) :
    FuelM.outcome (pure a : FuelM σ ε α) s = some (.ok (a, s)) := rfl

@[simp] theorem outcome_modify (f : σ → σ) (s : σ) :
    FuelM.outcome (modify f : FuelM σ ε PUnit) s = some (.ok (⟨⟩, f s)) := rfl

@[simp] theorem outcome_get (s : σ) :
    FuelM.outcome (get : FuelM σ ε σ) s = some (.ok (s, s)) := rfl

theorem outcome_bind (x : FuelM σ ε α) (f : α → FuelM σ ε β) (s : σ) :
    FuelM.outcome (x >>= f) s =
      match FuelM.outcome x s with
      | none => none
      | some (.error e) => some (.error e)
      | some (.ok (a, t)) => FuelM.outcome (f a) t := by
  simp only [FuelM.outcome, bind, StateT.bind, ExceptT.bind, ExceptT.mk]
  cases x s with
  | none => rfl
  | some r =>
    cases r with
    | error e | ok p => rfl

/-- From `s` the computation comes to the same end with all fuel from some point on; if it returns,
what it returns and the new state satisfy `P`. -/
def Settles (f : ℕ → FuelM σ ε α) (s : σ) (P : α → σ → Prop) : Prop :=
  ∃ n r, (∀ m, n ≤ m → (f m).outcome s = some r) ∧ ∀ a t, r = .ok (a, t) → P a t

namespace Settles

variable {f : ℕ → FuelM σ ε α} {s : σ} {P Q : α → σ → Prop}

theorem mono (h : Settles f s P) (hPQ : ∀ a t, P a t → Q a t) : Settles f s Q := by
  obtain ⟨n, r, hr, hP⟩ := h
  exact ⟨n, r, hr, fun a t he => hPQ a t (hP a t he)⟩

theorem pure {a : α} (h : P a s) : Settles (fun _ => (Pure.pure a : FuelM σ ε α)) s P := by
  refine ⟨0, .ok (a, s), fun _ _ => rfl, ?_⟩
  intro b t he
  cases he
  exact h

theorem throw (e : ε) : Settles (fun _ => (MonadExcept.throw e : FuelM σ ε α)) s P := by
  refine ⟨0, .error e, fun _ _ => rfl, ?_⟩
  intro b t he
  cases he

theorem bind {g : ℕ → α → FuelM σ ε β} {R : β → σ → Prop} (h : Settles f s P)
    (hg : ∀ a t, P a t → Settles (fun n => g n a) t R) :
    Settles (fun n => f n >>= g n) s R := by
  obtain ⟨n, r, hr, hP⟩ := h
  cases r with
  | error e =>
    refine ⟨n, .error e, fun m hm => ?_, ?_⟩
    · rw [outcome_bind, hr m hm]
    · intro b t he
      cases he
  | ok p =>
    obtain ⟨a, t⟩ := p
    obtain ⟨n', r', hr', hR⟩ := hg a t (hP a t rfl)
    refine ⟨max n n', r', fun m hm => ?_, hR⟩
    rw [outcome_bind, hr m (Nat.le_trans (Nat.le_max_left n n') hm)]
    exact hr' m (Nat.le_trans (Nat.le_max_right n n') hm)

theorem get_bind {g : ℕ → σ → FuelM σ ε α} (h : Settles (fun n => g n s) s P) :
    Settles (fun n => get >>= g n) s P := by
  obtain ⟨n, r, hr, hP⟩ := h
  refine ⟨n, r, fun m hm => ?_, hP⟩
  exact hr m hm

theorem modify_bind {u : σ → σ} {g : ℕ → PUnit → FuelM σ ε α}
    (h : Settles (fun n => g n ⟨⟩) (u s) P) : Settles (fun n => modify u >>= g n) s P := by
  obtain ⟨n, r, hr, hP⟩ := h
  refine ⟨n, r, fun m hm => ?_, hP⟩
  exact hr m hm

theorem succ {g : ℕ → FuelM σ ε α} (hg : ∀ n, g (n + 1) = f n) (h : Settles f s P) :
    Settles g s P := by
  obtain ⟨n, r, hr, hP⟩ := h
  refine ⟨n + 1, r, fun m hm => ?_, hP⟩
  obtain _ | k := m
  · omega
  rw [hg]
  exact hr k (by omega)

theorem mapM {g : ℕ → α → FuelM σ ε β} {I : σ → Prop} {R : β → Prop} {xs : List α}
    (h : ∀ x ∈ xs, ∀ t, I t → Settles (fun n => g n x) t fun y t' => R y ∧ I t') :
    ∀ t, I t → Settles (fun n => xs.mapM (g n)) t fun ys t' => (∀ y ∈ ys, R y) ∧ I t' := by
  induction xs with
  | nil =>
    intro t ht
    exact pure ⟨List.forall_mem_nil _, ht⟩
  | cons x xs ih =>
    intro t ht
    simp only [List.mapM_cons]
    refine (h x List.mem_cons_self t ht).bind ?_
    rintro y t₁ ⟨hy, ht₁⟩
    refine (ih (fun x' hx' => h x' (List.mem_cons_of_mem _ hx')) t₁ ht₁).bind ?_
    rintro ys t₂ ⟨hys, ht₂⟩
    exact pure ⟨List.forall_mem_cons.2 ⟨hy, hys⟩, ht₂⟩

end Settles

end Sagittarius
