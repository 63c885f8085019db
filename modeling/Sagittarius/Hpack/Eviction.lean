import Sagittarius.Hpack.RoundTrip

/-!
# The dynamic table over its history

Headers are put into the dynamic table and its size is changed.  The standard asks for the fields,
from the last one put in, that fit into the table: `standardStep`.

* `changes_right_iff` : **the histories in which the table is always right**.  No header may be
  larger than the table, since it is put in all the same; and a change of the size must find an
  empty table or one that is too large, since it removes a header in any case.
-/

namespace Sagittarius.Hpack

open List

/-- What happens to a dynamic table. -/
inductive Change where
  | put (e : Entry)
  | resize (size : ℕ)
  deriving DecidableEq

/-- A change as the source makes it. -/
def makeChange (table : DynamicTable) : Change → Except HpackError DynamicTable
  | .put e => dynamicEntryPut table e
  | .resize size => updateHpackTableSize table size

/-- The size and the fields of the table as the standard asks for them: the oldest fields are
removed only while there is no room. -/
def standardStep (s : ℕ × List Entry) : Change → ℕ × List Entry
  | .put e => (s.1, fit computeEntrySize s.1 (e :: s.2))
  | .resize size => (size, fit computeEntrySize size s.2)

/-- After the history the table is the one that the standard asks for, and its recorded size is that
of its fields and within the limit. -/
def Right (maxSize : ℕ) (history : List Change) : Prop :=
  let s := history.foldl standardStep (maxSize, [])
  ∃ t, history.foldlM makeChange (makeDynamicTable maxSize) = .ok t ∧ t.maxSize = s.1 ∧
    t.headerFields = s.2 ∧ t.currentSize = totalWeight computeEntrySize t.headerFields ∧
    t.currentSize ≤ t.maxSize

/-- A change that the source makes right. -/
def Fits (s : ℕ × List Entry) : Change → Prop
  | .put e => computeEntrySize e ≤ s.1
  | .resize size => s.2 = [] ∨ size < totalWeight computeEntrySize s.2

variable {s : ℕ × List Entry} {c : Change}

theorem updateHpackTableSize_of_lt {maxSize size : ℕ} {fields : List Entry}
    (h : fields = [] ∨ size < totalWeight computeEntrySize fields) :
    updateHpackTableSize (tableOf maxSize fields) size =
      .ok (tableOf size (fit computeEntrySize size fields)) := by
  obtain rfl | h := h
  · rfl
  · simp only [updateHpackTableSize, evictTableEntries, tableOf]
    rw [evictLoop_spec (by simpa using h), Nat.sub_zero]
    simp only [bind, Except.bind, pure, Except.pure, reverse_reverse]

theorem updateHpackTableSize_of_le {maxSize size : ℕ} {fields : List Entry} {e : Entry}
    (h : totalWeight computeEntrySize (fields ++ [e]) ≤ size) :
    updateHpackTableSize (tableOf maxSize (fields ++ [e])) size = .ok (tableOf size fields) := by
  have hpos := computeEntrySize_pos e
  simp only [totalWeight_append, totalWeight_cons, totalWeight_nil] at h
  simp only [updateHpackTableSize, evictTableEntries, tableOf, reverse_append, reverse_singleton,
    singleton_append, totalWeight_append, totalWeight_cons, totalWeight_nil]
  rw [evictLoop, if_neg (by omega)]
  simp only [Nat.add_zero, Nat.add_sub_cancel]
  rw [if_pos (by omega)]
  simp only [bind, Except.bind, pure, Except.pure, reverse_reverse]

theorem makeChange_eq_iff : makeChange (tableOf s.1 s.2) c =
    .ok (tableOf (standardStep s c).1 (standardStep s c).2) ↔ Fits s c := by
  obtain ⟨maxSize, fields⟩ := s
  cases c with
  | put e =>
    simp only [makeChange, standardStep, Fits, dynamicEntryPut_spec, fieldsAfterPut, fit]
    constructor
    · intro h
      by_contra hlt
      rw [if_neg hlt] at h
      cases h
    · intro h
      rw [if_pos h]
  | resize size =>
    simp only [makeChange, standardStep, Fits]
    refine ⟨fun h => ?_, updateHpackTableSize_of_lt⟩
    by_contra hnot
    obtain ⟨hne, hle⟩ := not_or.1 hnot
    obtain ⟨fields, e, rfl⟩ := (eq_nil_or_concat' fields).resolve_left hne
    rw [Nat.not_lt] at hle
    rw [updateHpackTableSize_of_le hle, fit_of_le computeEntrySize hle] at h
    have := congrArg length (congrArg DynamicTable.headerFields (Except.ok.inj h))
    simp [tableOf] at this

theorem totalWeight_standard_le (maxSize : ℕ) (history : List Change) :
    let s := history.foldl standardStep (maxSize, [])
    totalWeight computeEntrySize s.2 ≤ s.1 := by
  induction history using reverseRecOn with
  | nil => exact Nat.zero_le _
  | append_singleton history c ih =>
    rw [foldl_append]
    cases c with
    | put e | resize size => exact totalWeight_fit_le _ _

theorem right_iff (maxSize : ℕ) (history : List Change) :
    Right maxSize history ↔ history.foldlM makeChange (makeDynamicTable maxSize) =
      .ok (tableOf (history.foldl standardStep (maxSize, [])).1
        (history.foldl standardStep (maxSize, [])).2) := by
  constructor
  · rintro ⟨⟨fields, max, current⟩, hrun, hmax, hfields, hcurrent, -⟩
    dsimp only at hmax hfields hcurrent
    rw [hrun, hcurrent, hmax, hfields]
    rfl
  · exact fun h => ⟨_, h, rfl, rfl, rfl, totalWeight_standard_le maxSize history⟩

/-- **When the dynamic table is right after every part of a history.** -/
theorem changes_right_iff (maxSize : ℕ) (history : List Change) :
    (∀ part, part <+: history → Right maxSize part) ↔
      ∀ part c, part ++ [c] <+: history → Fits (part.foldl standardStep (maxSize, [])) c := by
  constructor
  · intro h part c hpart
    have hlast := (right_iff _ _).1 (h _ hpart)
    have hrun := (right_iff _ _).1 (h part ((prefix_append _ _).trans hpart))
    rw [foldlM_append, hrun, foldl_append] at hlast
    exact makeChange_eq_iff.1 ((bind_pure _).symm.trans hlast)
  · intro h part hpart
    rw [right_iff]
    induction part using reverseRecOn with
    | nil => rfl
    | append_singleton part c ih =>
      rw [foldlM_append, ih ((prefix_append _ _).trans hpart), foldl_append]
      exact (bind_pure _).trans (makeChange_eq_iff.2 (h part c hpart))

/-- A table of 4096 bytes that is to have 4096 bytes loses its header, and a header that is larger
than its table is put in. -/
theorem changes_wrong : ¬ Right 4096 [.put ⟨[97], [98]⟩, .resize 4096] ∧
    ¬ Right 32 [.put ⟨[97], [98]⟩] := by
  rw [right_iff, right_iff]
  decide

end Sagittarius.Hpack
