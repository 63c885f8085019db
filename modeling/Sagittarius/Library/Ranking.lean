import Mathlib.Data.Finset.Card
import Mathlib.Data.List.Chain
import Mathlib.Logic.Relation

/-!
# Finite graphs without cycles

A relation has no cycles if nothing reaches itself.

* `Acyclic.exists_rank` : over finitely many nodes, the nodes can then be ranked so that the rank
  goes down along each edge;
* `transGen_self_iff_ring` : a cycle as the list of its nodes.
-/

namespace Sagittarius

open List

variable {α : Type*} {r : α → α → Prop}

/-- Nothing reaches itself. -/
def Acyclic (r : α → α → Prop) : Prop := ∀ a, ¬ Relation.TransGen r a a

theorem Acyclic.exists_rank (h : Acyclic r) (nodes : Finset α)
    (hr : ∀ a b, r a b → b ∈ nodes) : ∃ rank : α → ℕ, ∀ a b, r a b → rank b < rank a := by
  classical
  refine ⟨fun a => (nodes.filter fun b => Relation.TransGen r a b).card, fun a b hab => ?_⟩
  apply Finset.card_lt_card
  constructor
  · intro c hc
    rw [Finset.mem_filter] at hc ⊢
    exact ⟨hc.1, Relation.TransGen.head hab hc.2⟩
  · intro hsub
    have hb : b ∈ nodes.filter fun c => Relation.TransGen r a c :=
      Finset.mem_filter.2 ⟨hr a b hab, .single hab⟩
    exact h b (Finset.mem_filter.1 (hsub hb)).2

theorem transGen_self_iff_ring (a : α) :
    Relation.TransGen r a a ↔ ∃ l : List α, List.IsChain r (a :: (l ++ [a])) := by
  constructor
  · intro h
    obtain ⟨b, hab, hba⟩ := Relation.TransGen.tail'_iff.1 h
    obtain ⟨l, hl, hlast⟩ := exists_isChain_cons_of_relationReflTransGen hab
    refine ⟨l, ?_⟩
    rw [← cons_append, isChain_append]
    refine ⟨hl, .singleton _, ?_⟩
    intro x hx y hy
    rw [getLast?_eq_some_getLast (by simp), Option.mem_some_iff] at hx
    simp only [head?_cons, Option.mem_some_iff] at hy
    rw [← hx, ← hy, hlast]
    exact hba
  · rintro ⟨l, hl⟩
    rw [← cons_append, isChain_append] at hl
    obtain ⟨hl, -, hlast⟩ := hl
    have hab := relationReflTransGen_of_exists_isChain_cons l hl rfl
    refine Relation.TransGen.tail' hab (hlast _ ?_ _ rfl)
    rfl

end Sagittarius
