import Sagittarius.HashTable.Buckets
import Sagittarius.Library.Entries

/-!
# What a table contains

Finite maps on the classes of equivalent keys, and lists of cells that have their entries.

* `Sheet` : the finite map of a table, the number of its buckets, and which of its entries have come
  from another table;
* `Contents` : the cells have the entries of the finite map.  A cell that has been copied has lost
  its hash value.
-/

namespace Sagittarius.HashTable

open List Finmap Entries

variable {κ ν : Type}

namespace Hashing

/-- Equivalent keys -/
def setoid (h : Hashing κ) : Setoid κ where
  r a b := h.compare a b = true
  iseqv := ⟨h.refl, h.symm, h.trans⟩

/-- Classes of equivalent keys -/
def Class (h : Hashing κ) : Type := Quotient h.setoid

/-- The class of a key -/
def cls (h : Hashing κ) (key : κ) : h.Class := Quotient.mk h.setoid key

theorem cls_eq {h : Hashing κ} {a b : κ} : h.cls a = h.cls b ↔ h.compare a b = true := Quotient.eq

instance (h : Hashing κ) : DecidableEq h.Class :=
  @Quotient.decidableEq κ h.setoid fun a b => inferInstanceAs (Decidable (h.compare a b = true))

/-- The hash value of a class -/
def hashClass (h : Hashing κ) : h.Class → UInt32 := Quotient.lift h.hasher fun _ _ => h.hash_eq

@[simp] theorem hashClass_cls (h : Hashing κ) (key : κ) : h.hashClass (h.cls key) = h.hasher key :=
  rfl

end Hashing

/-- What there is to know about a table: its entries, which of them have been copied from another
table, and its size -/
structure Sheet (h : Hashing κ) (ν : Type) where
  map : Finmap fun _ : h.Class => ν
  copied : Finset h.Class
  bucketCount : ℕ
  bits : ℕ

namespace Sheet

variable {h : Hashing κ}

/-- The sheet of a new table -/
def init (h : Hashing κ) (ν : Type) (initSize : ℕ) : Sheet h ν where
  map := ∅
  copied := ∅
  bucketCount := (hashCoreInit initSize).bucketCount
  bits := (hashCoreInit initSize).bucketsLog2Count

/-- The table grows if the key is set. -/
def Grows (s : Sheet h ν) (q : h.Class) : Prop :=
  q ∉ s.map ∧ s.bucketCount * maxAvgChainLimits < s.map.keys.card + 1

instance (s : Sheet h ν) (q : h.Class) : Decidable (s.Grows q) :=
  inferInstanceAs (Decidable (_ ∧ _))

/-- A key is set. -/
def set (s : Sheet h ν) (q : h.Class) (v : ν) : Sheet h ν :=
  if s.Grows q then
    ⟨s.map.insert q v, s.copied, s.bucketCount <<< extendBits, s.bits + extendBits⟩
  else { s with map := s.map.insert q v }

/-- A key is deleted. -/
def delete (s : Sheet h ν) (q : h.Class) : Sheet h ν :=
  { s with map := s.map.erase q, copied := s.copied.erase q }

/-- All keys are deleted; the table gets another size if `k` is positive. -/
def clear (s : Sheet h ν) (k : ℕ) : Sheet h ν :=
  if k > 0 then ⟨∅, ∅, round2up k, (round2up k).log2⟩ else { s with map := ∅, copied := ∅ }

/-- The sheet of a copy -/
def copy (s : Sheet h ν) : Sheet h ν := { s with copied := s.map.keys }

/-- If the table grows when the key is set, then the keys that have been copied belong in the bucket
of the hash value zero. -/
def SafeSet (s : Sheet h ν) (q : h.Class) : Prop :=
  s.Grows q → ∀ p ∈ s.copied,
    hash2index (s.bucketCount <<< extendBits) (s.bits + extendBits) (h.hashClass p) =
      hash2index (s.bucketCount <<< extendBits) (s.bits + extendBits) 0

end Sheet

variable {h : Hashing κ} {m : Finmap fun _ : h.Class => ν} {copied : Finset h.Class}
  {l l' : List (Cell κ ν)} {c : Cell κ ν}

/-- The cells have the entries of the finite map. -/
structure Contents (h : Hashing κ) (l : List (Cell κ ν)) (m : Finmap fun _ : h.Class => ν)
    (copied : Finset h.Class) : Prop where
  keys : (l.map fun c => h.cls c.key).Nodup
  lookup : ∀ q v, m.lookup q = some v ↔ ∃ c ∈ l, h.cls c.key = q ∧ c.value = v
  cached : ∀ c ∈ l, c.hashValue = if h.cls c.key ∈ copied then 0 else h.hasher c.key
  subset : copied ⊆ m.keys

/-- The entry of a cell -/
def Cell.pair (h : Hashing κ) (c : Cell κ ν) : h.Class × ν := (h.cls c.key, c.value)

namespace Contents

theorem lists (hc : Contents h l m copied) : Lists (l.map (Cell.pair h)) m :=
  ⟨by simpa [Cell.pair, Function.comp_def] using hc.keys,
    fun q v => by simp [Cell.pair, hc.lookup]⟩

theorem of_lists (hl : Lists (l.map (Cell.pair h)) m)
    (hcached : ∀ c ∈ l, c.hashValue = if h.cls c.key ∈ copied then 0 else h.hasher c.key)
    (hsubset : copied ⊆ m.keys) : Contents h l m copied :=
  ⟨by simpa [Cell.pair, Function.comp_def] using hl.nodup,
    fun q v => by simp [Cell.pair, hl.lookup], hcached, hsubset⟩

theorem perm (hc : Contents h l m copied) (hp : l.Perm l') : Contents h l' m copied :=
  of_lists (hc.lists.perm (hp.map _)) (fun c hmem => hc.cached c (hp.mem_iff.2 hmem)) hc.subset

theorem mem_map_iff (hc : Contents h l m copied) (q : h.Class) :
    q ∈ m ↔ ∃ c ∈ l, h.cls c.key = q := by
  simp [hc.lists.mem_iff, Cell.pair]

theorem length_eq (hc : Contents h l m copied) : l.length = m.keys.card := by
  rw [← hc.lists.length_eq, length_map]

theorem nil : Contents h ([] : List (Cell κ ν)) ∅ ∅ := of_lists .nil nofun (Finset.empty_subset _)

theorem subset_insert (hc : Contents h l m copied) (q : h.Class) (v : ν) :
    copied ⊆ (m.insert q v).keys := by
  intro p hp
  rw [Finmap.mem_keys, mem_insert]
  exact .inr (Finmap.mem_keys.1 (hc.subset hp))

theorem cons (hc : Contents h l m copied) (hnew : h.cls c.key ∉ m)
    (hhash : c.hashValue = h.hasher c.key) :
    Contents h (c :: l) (m.insert (h.cls c.key) c.value) copied := by
  refine of_lists (.insert ?_ c.value) ?_ (hc.subset_insert ..)
  · rw [erase_of_notMem hnew]
    exact hc.lists
  · refine forall_mem_cons.2 ⟨?_, hc.cached⟩
    rw [if_neg fun hmem => hnew (mem_keys.1 (hc.subset hmem)), hhash]

theorem write (hc : Contents h (c :: l) m copied) (v : ν) :
    Contents h ({ c with value := v } :: l) (m.insert (h.cls c.key) v) copied :=
  of_lists (hc.lists.erase.insert v) (forall_mem_cons.2 (forall_mem_cons.1 hc.cached))
    (hc.subset_insert ..)

theorem erase (hc : Contents h (c :: l) m copied) :
    Contents h l (m.erase (h.cls c.key)) (copied.erase (h.cls c.key)) := by
  refine of_lists hc.lists.erase (fun d hd => ?_) ?_
  · have hne : h.cls d.key ≠ h.cls c.key :=
      fun heq => (nodup_cons.1 hc.keys).1 (mem_map.2 ⟨d, hd, heq⟩)
    rw [hc.cached d (mem_cons_of_mem _ hd)]
    exact if_congr (by simp [hne]) rfl rfl
  · rw [keys_erase]
    exact Finset.erase_subset_erase _ hc.subset

theorem copy (hc : Contents h l m copied) (hpairs : l'.map (Cell.pair h) = l.map (Cell.pair h))
    (hzero : ∀ c ∈ l', c.hashValue = 0) : Contents h l' m m.keys := by
  have hlists : Lists (l'.map (Cell.pair h)) m := by
    rw [hpairs]
    exact hc.lists
  refine of_lists hlists (fun c hmem => ?_) (Finset.Subset.refl _)
  have hin : h.cls c.key ∈ m.keys := by
    rw [Finmap.mem_keys, hlists.mem_iff, map_map]
    exact mem_map_of_mem hmem
  rw [if_pos hin, hzero c hmem]

end Contents

end Sagittarius.HashTable
