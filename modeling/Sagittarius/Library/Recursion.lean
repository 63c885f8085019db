import Mathlib.Data.Set.Card
import Mathlib.Logic.Relation
import Mathlib.Order.CompletePartialOrder

/-!
# General recursion

A recursive procedure is given by what it does with one argument: it asks for the results of other
calls, one after the other, and what it asks for next depends on the results it has; in the end it
answers.  Such a computation is a tree (`Asking`), and the procedure is run with fuel for the depth
of the recursion (`run`).

* `Calls` : a call makes another one, after those before it have returned;
* `halts_iff_acc` : a call returns iff there is no endless sequence of calls inside of calls;
* `acc_iff_not_cyclic` : where only finitely many calls make others, this is so iff no call is made
  again inside of itself;
* `Keeps` : what arguments and results have to satisfy all the time.
-/

namespace Sagittarius

open Relation

/-! ### Cycles -/

section

variable {α : Type*} {r : α → α → Prop} {a b : α}

/-- What can be reached from `a` and leads further. -/
def onward (r : α → α → Prop) (a : α) : Set α := {b | ReflTransGen r a b ∧ ∃ c, r b c}

theorem onward_ssubset (hab : r a b) (hcycle : ¬ TransGen r a a) : onward r b ⊂ onward r a := by
  refine ⟨fun c hc => ⟨hc.1.head hab, hc.2⟩, fun hsub => hcycle ?_⟩
  exact TransGen.head' hab (hsub ⟨.refl, b, hab⟩).1

theorem not_transGen_of_acc (h : Acc (fun b a => r a b) a) : ¬ TransGen r a a := by
  induction h with
  | intro a _ ih =>
    intro hcycle
    obtain ⟨b, hab, hba⟩ := TransGen.head'_iff.1 hcycle
    exact ih b hab (TransGen.tail' hba hab)

/-- Where only finitely many elements lead further, an endless sequence comes back to one. -/
theorem acc_iff_not_cyclic (hfin : (onward r a).Finite) :
    Acc (fun b a => r a b) a ↔ ∀ b, ReflTransGen r a b → ¬ TransGen r b b := by
  constructor
  · intro hacc b hab
    refine not_transGen_of_acc ?_
    induction hab with
    | refl => exact hacc
    | tail _ hbc ih => exact ih.inv hbc
  · intro hcycle
    -- by induction on how many elements are left that lead further
    induction hn : (onward r a).ncard using Nat.strong_induction_on generalizing a with
    | h n ih =>
      refine ⟨a, fun b hab => ?_⟩
      have hsub := onward_ssubset hab (hcycle a .refl)
      exact ih _ (hn ▸ Set.ncard_lt_ncard hsub hfin) (hfin.subset hsub.subset)
        (fun c hc => hcycle c (hc.head hab)) rfl

end

/-! ### Procedures -/

/-- A computation that asks for results of calls before it answers. -/
inductive Asking (ι ρ : Type*)
  | answer (r : ρ)
  | ask (q : ι) (next : ρ → Asking ι ρ)

namespace Asking

variable {ι ρ : Type*} {body : ι → Asking ι ρ} {c d : ι} {r : ρ} {t : Asking ι ρ} {n : ℕ}

/-- The answer, if `step` has a result for every call. -/
def eval (step : ι → Option ρ) : Asking ι ρ → Option ρ
  | answer r => some r
  | ask q next => (step q).bind fun r => eval step (next r)

/-- The result of a call with fuel for `n` calls inside of each other. -/
def run (body : ι → Asking ι ρ) : ℕ → ι → Option ρ
  | 0, _ => none
  | n + 1, c => (body c).eval (run body n)

theorem eval_mono {step step' : ι → Option ρ} (h : ∀ q r, step q = some r → step' q = some r)
    (ht : t.eval step = some r) : t.eval step' = some r := by
  induction t with
  | answer _ => exact ht
  | ask q next ih =>
    obtain ⟨a, ha, ht⟩ := Option.bind_eq_some_iff.1 ht
    exact Option.bind_eq_some_iff.2 ⟨a, h q a ha, ih a ht⟩

theorem run_mono {n' : ℕ} (hn : n ≤ n') (h : run body n c = some r) : run body n' c = some r := by
  induction n generalizing c r n' with
  | zero => cases h
  | succ n ih =>
    obtain _ | n' := n'
    · omega
    · exact eval_mono (fun q r hq => ih (by omega) hq) h

/-- A call has this result. -/
def Yields (body : ι → Asking ι ρ) (c : ι) (r : ρ) : Prop := ∃ n, run body n c = some r

theorem Yields.unique {r' : ρ} (h : Yields body c r) (h' : Yields body c r') : r = r' := by
  obtain ⟨n, hn⟩ := h
  obtain ⟨n', hn'⟩ := h'
  have := run_mono (le_max_left n n') hn
  rw [run_mono (le_max_right n n') hn'] at this
  exact (Option.some.inj this).symm

/-- A computation asks for the call `d`, after it has got the results it asked for before. -/
inductive Asks (body : ι → Asking ι ρ) : Asking ι ρ → ι → Prop
  | first {q : ι} {next : ρ → Asking ι ρ} : Asks body (ask q next) q
  | later {q d : ι} {next : ρ → Asking ι ρ} {r : ρ} : Yields body q r → Asks body (next r) d →
    Asks body (ask q next) d

/-- The call `c` makes the call `d`. -/
def Calls (body : ι → Asking ι ρ) (c d : ι) : Prop := Asks body (body c) d

theorem Asks.run_isSome (hd : Asks body t d) (ht : t.eval (run body n) = some r) :
    ∃ r', run body n d = some r' := by
  induction hd with
  | first =>
    obtain ⟨a, ha, -⟩ := Option.bind_eq_some_iff.1 ht
    exact ⟨a, ha⟩
  | later hq _ ih =>
    obtain ⟨a, ha, ht⟩ := Option.bind_eq_some_iff.1 ht
    obtain rfl := hq.unique ⟨n, ha⟩
    exact ih ht

theorem acc_of_run (h : run body n c = some r) : Acc (fun d c => Calls body c d) c := by
  induction n generalizing c r with
  | zero => cases h
  | succ n ih =>
    refine ⟨c, fun d hd => ?_⟩
    obtain ⟨r', hr'⟩ := hd.run_isSome h
    exact ih hr'

theorem exists_eval (h : ∀ d, Asks body t d → ∃ r, Yields body d r) :
    ∃ n r, t.eval (run body n) = some r := by
  induction t with
  | answer r => exact ⟨0, r, rfl⟩
  | ask q next ih =>
    obtain ⟨a, n, hn⟩ := h q .first
    obtain ⟨n', r, hn'⟩ := ih a fun d hd => h d (.later ⟨n, hn⟩ hd)
    refine ⟨max n n', r, Option.bind_eq_some_iff.2 ⟨a, run_mono (le_max_left ..) hn, ?_⟩⟩
    exact eval_mono (fun q r hq => run_mono (le_max_right ..) hq) hn'

/-- **A call returns iff calls inside of calls come to an end.** -/
theorem halts_iff_acc : (∃ r, Yields body c r) ↔ Acc (fun d c => Calls body c d) c := by
  constructor
  · rintro ⟨r, n, hn⟩
    exact acc_of_run hn
  · intro hacc
    induction hacc with
    | intro c _ ih =>
      obtain ⟨n, r, hn⟩ := exists_eval (t := body c) ih
      exact ⟨r, n + 1, hn⟩

/-! ### Invariants -/

variable {C : ι → Prop} {R : ρ → Prop}

/-- All calls of the computation satisfy `C` and its answer satisfies `R`, if the results of the
calls do. -/
def Keeps (C : ι → Prop) (R : ρ → Prop) : Asking ι ρ → Prop
  | answer r => R r
  | ask q next => C q ∧ ∀ r, R r → (next r).Keeps C R

theorem Keeps.eval {step : ι → Option ρ} (hstep : ∀ q r, C q → step q = some r → R r)
    (ht : t.Keeps C R) (h : t.eval step = some r) : R r := by
  induction t with
  | answer _ =>
    obtain rfl := Option.some.inj h
    exact ht
  | ask q next ih =>
    obtain ⟨a, ha, h⟩ := Option.bind_eq_some_iff.1 h
    exact ih a (ht.2 a (hstep q a ht.1 ha)) h

section

variable (hbody : ∀ c, C c → (body c).Keeps C R)

include hbody

theorem Yields.keeps (hc : C c) (h : Yields body c r) : R r := by
  obtain ⟨n, h⟩ := h
  induction n generalizing c r with
  | zero => cases h
  | succ n ih => exact (hbody c hc).eval (fun q r hq hr => ih hq hr) h

theorem Asks.keeps (ht : t.Keeps C R) (h : Asks body t d) : C d := by
  induction h with
  | first => exact ht.1
  | later hq _ ih => exact ih (ht.2 _ (hq.keeps hbody ht.1))

theorem keeps_of_calls (hc : C c) (h : ReflTransGen (Calls body) c d) : C d := by
  induction h with
  | refl => exact hc
  | tail _ hd ih => exact hd.keeps hbody (hbody _ ih)

end

end Asking

end Sagittarius
