import Mathlib.Data.Finmap

/-!
# Lists of entries

The entries of a finite map as a list, in any order.

* `Lists` : the list has the entries of the finite map, each of them once;
* `Lists.erase`, `Lists.insert` : an entry is taken from the list or put on it.
-/

namespace Sagittarius.Entries

open List Finmap

variable {κ ν : Type} {es es' : List (κ × ν)} {m : Finmap fun _ : κ => ν} {k : κ} {v : ν}

/-- The list has the entries of the finite map, each of them once. -/
structure Lists [DecidableEq κ] (es : List (κ × ν)) (m : Finmap fun _ : κ => ν) : Prop where
  nodup : (es.map Prod.fst).Nodup
  lookup : ∀ k v, m.lookup k = some v ↔ (k, v) ∈ es

namespace Lists

variable [DecidableEq κ]

theorem nil : Lists ([] : List (κ × ν)) ∅ := ⟨nodup_nil, by simp⟩

theorem perm (h : Lists es m) (hp : es.Perm es') : Lists es' m :=
  ⟨(hp.map _).nodup_iff.1 h.nodup, fun k v => (h.lookup k v).trans hp.mem_iff⟩

theorem mem_iff (h : Lists es m) : k ∈ m ↔ k ∈ es.map Prod.fst := by
  simp [Finmap.mem_iff, h.lookup]

theorem length_eq (h : Lists es m) : es.length = m.keys.card := by
  have hkeys : m.keys = (es.map Prod.fst).toFinset := by
    ext k
    rw [Finmap.mem_keys, h.mem_iff, mem_toFinset]
  rw [hkeys, toFinset_card_of_nodup h.nodup, length_map]

theorem erase (h : Lists ((k, v) :: es) m) : Lists es (m.erase k) := by
  obtain ⟨hk, hnodup⟩ := nodup_cons.1 h.nodup
  refine ⟨hnodup, fun q w => ?_⟩
  by_cases hq : q = k
  · subst hq
    rw [lookup_erase]
    exact ⟨nofun, fun hmem => (hk (mem_map.2 ⟨_, hmem, rfl⟩)).elim⟩
  · rw [lookup_erase_ne hq, h.lookup]
    simp [hq]

theorem insert (h : Lists es (m.erase k)) (v : ν) : Lists ((k, v) :: es) (m.insert k v) := by
  have hk : k ∉ es.map Prod.fst := h.mem_iff.not.1 notMem_erase_self
  refine ⟨nodup_cons.2 ⟨hk, h.nodup⟩, fun q w => ?_⟩
  by_cases hq : q = k
  · subst hq
    have hw : (q, w) ∉ es := fun hmem => hk (mem_map.2 ⟨_, hmem, rfl⟩)
    simp [hw, eq_comm]
  · rw [lookup_insert_of_ne _ hq, ← lookup_erase_ne hq, h.lookup]
    simp [hq]

end Lists

theorem erase_of_notMem [DecidableEq κ] (hk : k ∉ m) : m.erase k = m := by
  refine ext_lookup fun q => ?_
  by_cases hq : q = k
  · subst hq
    rw [lookup_erase, lookup_eq_none.2 hk]
  · rw [lookup_erase_ne hq]

end Sagittarius.Entries
