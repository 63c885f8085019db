import Mathlib.Data.List.Nodup
import Sagittarius.HashTable.Model

/-!
# Chains of entries

The linked entries of a bucket, as lists of cells.

* `Seg` : the memory holds the cells one after the other;
* `search_append` : the loop of `general_access` goes past other keys;
* `Seg.unlink` : a cell leaves its chain;
* `Seg.copyChain` : a chain is copied, but for the hash values.
-/

namespace Sagittarius.HashTable

open List Option

variable {κ ν : Type}

/-- An entry, and where it is -/
structure Cell (κ ν : Type) where
  addr : ℕ
  key : κ
  value : ν
  hashValue : UInt32

/-- The entry of a cell, with the pointer to the next one -/
def Cell.entry (c : Cell κ ν) (next : Option ℕ) : Entry κ ν := ⟨c.key, c.value, next, c.hashValue⟩

/-- What points to a list of cells -/
def ptr (l : List (Cell κ ν)) : Option ℕ := l.head?.map Cell.addr

/-- The addresses of cells -/
def addrs (l : List (Cell κ ν)) : List ℕ := l.map Cell.addr

/-- The memory holds the cells; the last one points to `q`. -/
def Seg (mem : ℕ → Option (Entry κ ν)) (q : Option ℕ) : List (Cell κ ν) → Prop
  | [] => True
  | c :: l => mem c.addr = some (c.entry ((ptr l).or q)) ∧ Seg mem q l

variable {mem mem' : ℕ → Option (Entry κ ν)} {heap heap' : Heap κ ν} {q : Option ℕ}
  {c d : Cell κ ν} {l l' : List (Cell κ ν)}

@[simp] theorem ptr_nil : ptr ([] : List (Cell κ ν)) = none := rfl

@[simp] theorem ptr_cons (c : Cell κ ν) (l : List (Cell κ ν)) : ptr (c :: l) = some c.addr := rfl

theorem ptr_append (l l' : List (Cell κ ν)) : ptr (l ++ l') = (ptr l).or (ptr l') := by
  cases l with
  | nil | cons c l => rfl

@[simp] theorem addrs_append (l l' : List (Cell κ ν)) : addrs (l ++ l') = addrs l ++ addrs l' :=
  map_append

@[simp] theorem addrs_cons (c : Cell κ ν) (l : List (Cell κ ν)) :
    addrs (c :: l) = c.addr :: addrs l := rfl

@[simp] theorem addrs_nil : addrs ([] : List (Cell κ ν)) = [] := rfl

theorem addr_mem_addrs (hc : c ∈ l) : c.addr ∈ addrs l := mem_map.2 ⟨c, hc, rfl⟩

theorem Seg.congr (h : Seg mem q l) (hmem : ∀ a ∈ addrs l, mem' a = mem a) : Seg mem' q l := by
  induction l with
  | nil => trivial
  | cons c l ih =>
    refine ⟨?_, ih h.2 fun a ha => hmem a (mem_cons_of_mem _ ha)⟩
    rw [hmem c.addr (mem_cons_self ..), h.1]

theorem seg_append : Seg mem q (l ++ l') ↔ Seg mem ((ptr l').or q) l ∧ Seg mem q l' := by
  induction l with
  | nil => simp [Seg]
  | cons c l ih =>
    rw [cons_append, Seg, Seg, ih, ptr_append, Option.or_assoc, and_assoc]

theorem Seg.mem_of_mem (h : Seg mem q l) (hc : c ∈ l) :
    ∃ next, mem c.addr = some (c.entry next) := by
  induction l with
  | nil => cases hc
  | cons x l ih =>
    rcases mem_cons.1 hc with rfl | hc
    · exact ⟨_, h.1⟩
    · exact ih h.2 hc

/-! ### Writes -/

theorem setNext_mem (heap : Heap κ ν) (p : ℕ) (q : Option ℕ) (a : ℕ) :
    (heap.setNext p q).mem a =
      if a = p then (heap.mem p).map fun e => { e with next := q } else heap.mem a := rfl

theorem Seg.setNext (h : Seg heap.mem q l) {p : ℕ} (hp : p ∉ addrs l) (r : Option ℕ) :
    Seg (heap.setNext p r).mem q l := by
  refine h.congr fun a ha => ?_
  rw [setNext_mem, if_neg (ne_of_mem_of_not_mem ha hp)]

theorem Seg.setNext_last (h : Seg heap.mem q (l ++ [d])) (hd : d.addr ∉ addrs l) (r : Option ℕ) :
    Seg (heap.setNext d.addr r).mem r (l ++ [d]) := by
  obtain ⟨hl, hlast, -⟩ := seg_append.1 h
  refine seg_append.2 ⟨hl.setNext hd r, ?_, trivial⟩
  rw [setNext_mem, if_pos rfl, hlast]
  rfl

theorem Seg.alloc (h : Seg heap.mem q l) (hl : ∀ a ∈ addrs l, a < heap.fresh) (e : Entry κ ν) :
    Seg (heap.alloc e).mem q l :=
  h.congr fun a ha => if_neg (hl a ha).ne

/-- What has been allocated is changed at some addresses only. -/
structure Rewrites (L : List ℕ) (heap heap' : Heap κ ν) : Prop where
  outside : ∀ a, a ∉ L → a < heap.fresh → heap'.mem a = heap.mem a
  fresh : heap.fresh ≤ heap'.fresh

theorem Rewrites.refl (L : List ℕ) (heap : Heap κ ν) : Rewrites L heap heap :=
  ⟨fun _ _ _ => rfl, le_rfl⟩

theorem Rewrites.trans {L : List ℕ} {heap'' : Heap κ ν} (h : Rewrites L heap heap')
    (h' : Rewrites L heap' heap'') : Rewrites L heap heap'' :=
  ⟨fun a ha hlt => (h'.outside a ha (hlt.trans_le h.fresh)).trans (h.outside a ha hlt),
    h.fresh.trans h'.fresh⟩

theorem Rewrites.mono {L L' : List ℕ} (h : Rewrites L heap heap') (hsub : L ⊆ L') :
    Rewrites L' heap heap' :=
  ⟨fun a ha hlt => h.outside a (fun hmem => ha (hsub hmem)) hlt, h.fresh⟩

theorem Rewrites.modify {L : List ℕ} {p : ℕ} (hp : p ∈ L) (heap : Heap κ ν)
    (f : Entry κ ν → Entry κ ν) : Rewrites L heap (heap.modify p f) :=
  ⟨fun _ ha _ => if_neg (ne_of_mem_of_not_mem hp ha).symm, le_rfl⟩

theorem Rewrites.alloc (L : List ℕ) (heap : Heap κ ν) (e : Entry κ ν) :
    Rewrites L heap (heap.alloc e) :=
  ⟨fun _ _ hlt => if_neg hlt.ne, Nat.le_succ _⟩

/-! ### Searches -/

section

variable {h : Hashing κ} {key : κ} {n : ℕ}

theorem search_append (hseg : Seg heap.mem none (l ++ l'))
    (hl : ∀ x ∈ l, h.compare key x.key = false) (p : Option ℕ) :
    search h heap key (n + l.length) (ptr (l ++ l')) p =
      search h heap key n (ptr l') ((l.getLast?.map Cell.addr).or p) := by
  induction l generalizing p with
  | nil => rfl
  | cons x l ih =>
    rw [forall_mem_cons] at hl
    rw [cons_append] at hseg ⊢
    rw [ptr_cons, length_cons, ← Nat.add_assoc, search, hseg.1]
    simp only [bind_eq_bind, bind_some, Cell.entry, hl.1, or_none]
    refine (ih hseg.2 hl.2 _).trans ?_
    rw [getLast?_cons]
    cases l.getLast? <;> rfl

end

/-! ### Deletions -/

/-- A cell leaves its chain; `p` is the one before it. -/
theorem Seg.unlink {p : Cell κ ν} (hseg : Seg heap.mem none (l ++ p :: c :: l'))
    (hnodup : (addrs (l ++ p :: c :: l')).Nodup) :
    Seg ((heap.setNext p.addr (ptr l')).setNext c.addr none).mem none (l ++ p :: l') := by
  simp only [addrs_append, addrs_cons, nodup_append, nodup_cons, mem_cons,
    not_or] at hnodup
  obtain ⟨-, ⟨⟨hpc, hpl'⟩, hcl', -⟩, hdisj⟩ := hnodup
  have hpl : p.addr ∉ addrs l := fun hmem => hdisj _ hmem _ (.inl rfl) rfl
  have hcl : c.addr ∉ addrs l := fun hmem => hdisj _ hmem _ (.inr (.inl rfl)) rfl
  obtain ⟨hl, hp, hc, htail⟩ := seg_append.1 hseg
  refine seg_append.2 ⟨(hl.setNext hpl _).setNext hcl _, ?_, (htail.setNext hpl' _).setNext hcl' _⟩
  rw [setNext_mem, if_neg hpc, setNext_mem, if_pos rfl, hp]
  simp [Cell.entry]

/-! ### Copies -/

/-- The copies of cells, from an address on -/
def copyCells : ℕ → List (Cell κ ν) → List (Cell κ ν)
  | _, [] => []
  | a, c :: l => ⟨a, c.key, c.value, 0⟩ :: copyCells (a + 1) l

theorem addrs_copyCells (a : ℕ) (l : List (Cell κ ν)) :
    addrs (copyCells a l) = range' a l.length := by
  induction l generalizing a with
  | nil => rfl
  | cons c l ih => rw [copyCells, addrs_cons, ih, length_cons, range'_succ]

theorem mem_copyCells {a : ℕ} (hc : c ∈ copyCells a l) :
    c.hashValue = 0 ∧ ∃ d ∈ l, d.key = c.key ∧ d.value = c.value := by
  induction l generalizing a with
  | nil => cases hc
  | cons x l ih =>
    rcases mem_cons.1 hc with rfl | hc
    · exact ⟨rfl, x, mem_cons_self .., rfl, rfl⟩
    · obtain ⟨hz, d, hd, heq⟩ := ih hc
      exact ⟨hz, d, mem_cons_of_mem _ hd, heq⟩

theorem map_copyCells {β : Type*} (g : κ → ν → β) (a : ℕ) (l : List (Cell κ ν)) :
    (copyCells a l).map (fun c => g c.key c.value) = l.map fun c => g c.key c.value := by
  induction l generalizing a with
  | nil => rfl
  | cons c l ih => rw [copyCells, map_cons, map_cons, ih]

theorem Seg.snoc (h : Seg heap.mem none (l ++ [d])) (hl : ∀ a ∈ addrs (l ++ [d]), a < heap.fresh)
    (hnodup : (addrs (l ++ [d])).Nodup) (k : κ) (v : ν) :
    Seg ((heap.alloc ⟨k, v, none, 0⟩).setNext d.addr (some heap.fresh)).mem none
      (l ++ [d] ++ [⟨heap.fresh, k, v, 0⟩]) := by
  have hd : d.addr ∉ addrs l := by
    rw [addrs_append, nodup_append] at hnodup
    exact fun hmem => hnodup.2.2 _ hmem _ (mem_cons_self ..) rfl
  have hfresh : heap.fresh ≠ d.addr := (hl d.addr (by simp)).ne'
  refine seg_append.2 ⟨(h.alloc hl _).setNext_last hd _, ?_, trivial⟩
  rw [setNext_mem, if_neg hfresh]
  exact if_pos rfl

/-- **A chain is copied**, behind the copies `b` that are there, the first of them at `start`. -/
theorem Seg.copyChain {b : List (Cell κ ν)} {start : ℕ} (h : Seg heap.mem none l)
    (hl : ∀ a ∈ addrs l, a < start) (hb : Seg heap.mem none b)
    (haddrs : addrs b = range' start b.length) (hfresh : heap.fresh = start + b.length) :
    ∃ heap', (∀ n > l.length, copyChain n heap (ptr b) (b.getLast?.map Cell.addr)
        (ptr l) = some (heap', ptr (b ++ copyCells heap.fresh l))) ∧
      Seg heap'.mem none (b ++ copyCells heap.fresh l) ∧
      heap'.fresh = heap.fresh + l.length ∧ ∀ a < start, heap'.mem a = heap.mem a := by
  induction l generalizing heap b with
  | nil =>
    rw [copyCells, append_nil]
    refine ⟨heap, fun n hn => ?_, hb, rfl, fun _ _ => rfl⟩
    obtain _ | k := n
    · cases hn
    rfl
  | cons c l ih =>
    set x : Cell κ ν := ⟨heap.fresh, c.key, c.value, 0⟩ with hx
    -- the memory with the new cell behind the copies
    obtain ⟨heap₁, hstep, hb₁, hfresh₁, hout⟩ : ∃ heap₁ : Heap κ ν,
        (∀ k, copyChain (k + 1) heap (ptr b) (b.getLast?.map Cell.addr) (some c.addr) =
          copyChain k heap₁ (ptr (b ++ [x])) ((b ++ [x]).getLast?.map Cell.addr)
            (ptr l)) ∧
        Seg heap₁.mem none (b ++ [x]) ∧ heap₁.fresh = heap.fresh + 1 ∧
        ∀ a < start, heap₁.mem a = heap.mem a := by
      rcases b.eq_nil_or_concat with rfl | ⟨b', d, rfl⟩
      · refine ⟨heap.alloc ⟨c.key, c.value, none, 0⟩, fun k => ?_, ⟨if_pos rfl, trivial⟩, rfl,
          fun a ha => if_neg (by omega)⟩
        rw [copyChain, h.1]
        simp [Cell.entry, hx]
      · rw [concat_eq_append] at *
        have hlt : ∀ a ∈ addrs (b' ++ [d]), start ≤ a ∧ a < heap.fresh := by
          intro a ha
          rwa [hfresh, ← mem_range'_1, ← haddrs]
        have hd := hlt d.addr (by simp)
        refine ⟨_, fun k => ?_, hb.snoc (fun a ha => (hlt a ha).2) (haddrs ▸ nodup_range') c.key
          c.value, rfl, fun a ha => ?_⟩
        · rw [copyChain, h.1]
          simp [Cell.entry, hx, ptr_append, Heap.setNext]
        · rw [setNext_mem, if_neg (by omega)]
          exact if_neg (by omega)
    have haddrs₁ : addrs (b ++ [x]) = range' start (b ++ [x]).length := by
      rw [addrs_append, haddrs, length_append, length_singleton, range'_1_concat, ← hfresh]
      rfl
    have hl₁ : ∀ a ∈ addrs l, a < start := fun a ha => hl a (mem_cons_of_mem _ ha)
    obtain ⟨heap', hrun, hseg, hfresh', hout'⟩ := ih (h.2.congr fun a ha => hout a (hl₁ a ha)) hl₁
      hb₁ haddrs₁ (by rw [hfresh₁, hfresh, length_append]; rfl)
    rw [append_assoc, singleton_append, hfresh₁] at hrun hseg
    refine ⟨heap', fun n hn => ?_, hseg, ?_, fun a ha => (hout' a ha).trans (hout a ha)⟩
    · obtain _ | k := n
      · cases hn
      exact (hstep k).trans (hrun k (Nat.lt_of_succ_lt_succ hn))
    · rw [hfresh', hfresh₁, length_cons]
      omega

end Sagittarius.HashTable
