import Mathlib.Data.List.Range
import Sagittarius.HashTable.Chains

/-!
# Buckets

The chains of all buckets of a table, as one list of cells.

* `Holds` : the memory holds a chain for each bucket;
* `IterAt.next` : an iterator returns the cells in the order of the list;
* `IterAt.rebucket` : growth moves every cell to the bucket of its cached hash value;
* `Holds.copyBuckets` : a copy has the same cells in the same buckets, without their hash values.
-/

namespace Sagittarius.HashTable

open List Function Option

variable {κ ν : Type} {heap heap' : Heap κ ν} {core : SgHashCore} {cells : ℕ → List (Cell κ ν)}
  {c : Cell κ ν} {l R : List (Cell κ ν)} {i n m : ℕ}

/-- The cells of the buckets from `i` on, if there are `n` of them -/
def cellsFrom (cells : ℕ → List (Cell κ ν)) (i n : ℕ) : List (Cell κ ν) :=
  (List.range' i (n - i)).flatMap cells

/-- The cells of all buckets -/
def allCells (cells : ℕ → List (Cell κ ν)) (n : ℕ) : List (Cell κ ν) := cellsFrom cells 0 n

theorem mem_cellsFrom : c ∈ cellsFrom cells i n ↔ ∃ j, (i ≤ j ∧ j < n) ∧ c ∈ cells j := by
  simp only [cellsFrom, mem_flatMap, mem_range'_1]
  refine exists_congr fun j => and_congr_left fun _ => ?_
  omega

theorem mem_allCells : c ∈ allCells cells n ↔ ∃ j, j < n ∧ c ∈ cells j := by
  simp [allCells, mem_cellsFrom]

theorem addrs_subset {j : ℕ} (hij : i ≤ j) (hj : j < n) :
    addrs (cells j) ⊆ addrs (cellsFrom cells i n) :=
  map_subset _ fun _ hc => mem_cellsFrom.2 ⟨j, ⟨hij, hj⟩, hc⟩

theorem cellsFrom_of_lt (h : i < n) :
    cellsFrom cells i n = cells i ++ cellsFrom cells (i + 1) n := by
  obtain ⟨k, hk⟩ : ∃ k, n - i = k + 1 := ⟨n - i - 1, by omega⟩
  rw [cellsFrom, hk, range'_succ, flatMap_cons, cellsFrom, show n - (i + 1) = k by omega]

theorem cellsFrom_of_le (h : n ≤ i) : cellsFrom cells i n = [] := by
  rw [cellsFrom, Nat.sub_eq_zero_of_le h]
  rfl

theorem cellsFrom_congr {cells' : ℕ → List (Cell κ ν)} (h : ∀ j, i ≤ j → cells' j = cells j) :
    cellsFrom cells' i n = cellsFrom cells i n :=
  flatMap_congr fun j hj => h j (mem_range'_1.1 hj).1

theorem cellsFrom_update (h : i < n) (l : List (Cell κ ν)) (s : ℕ) (hs : s ≤ i) :
    ∃ rest, (cellsFrom cells s n).Perm (cells i ++ rest) ∧
      (cellsFrom (update cells i l) s n).Perm (l ++ rest) := by
  induction hk : i - s generalizing s with
  | zero =>
    obtain rfl : s = i := by omega
    refine ⟨cellsFrom cells (s + 1) n, ?_, ?_⟩
    · rw [cellsFrom_of_lt h]
    · have hrest : ∀ j, s + 1 ≤ j → update cells s l j = cells j := by
        intro j hj
        have hne : j ≠ s := Nat.ne_of_gt hj
        exact update_of_ne hne l cells
      rw [cellsFrom_of_lt h, update_self, cellsFrom_congr hrest]
  | succ k ih =>
    obtain ⟨rest, hp, hp'⟩ := ih (s + 1) (by omega) (by omega)
    refine ⟨cells s ++ rest, ?_, ?_⟩
    · rw [cellsFrom_of_lt (by omega)]
      exact (hp.append_left _).trans (perm_append_comm_assoc ..)
    · rw [cellsFrom_of_lt (by omega), update_of_ne (by omega)]
      exact (hp'.append_left _).trans (perm_append_comm_assoc ..)

theorem allCells_update (cells : ℕ → List (Cell κ ν)) (h : i < n) (l : List (Cell κ ν)) :
    ∃ rest, (allCells cells n).Perm (cells i ++ rest) ∧
      (allCells (update cells i l) n).Perm (l ++ rest) :=
  cellsFrom_update h l 0 (Nat.zero_le _)

/-- The memory holds a chain for each bucket, and no two cells have the same address. -/
structure Holds (heap : Heap κ ν) (core : SgHashCore) (cells : ℕ → List (Cell κ ν)) : Prop where
  bucket : ∀ i < core.bucketCount, core.buckets i = ptr (cells i)
  chain : ∀ i < core.bucketCount, Seg heap.mem none (cells i)
  nodup : (addrs (allCells cells core.bucketCount)).Nodup
  fresh : ∀ a ∈ addrs (allCells cells core.bucketCount), a < heap.fresh

theorem Holds.congr (h : Holds heap core cells) (hfresh : heap.fresh ≤ heap'.fresh)
    (hmem : ∀ a ∈ addrs (allCells cells core.bucketCount), heap'.mem a = heap.mem a) :
    Holds heap' core cells where
  bucket := h.bucket
  chain i hi := (h.chain i hi).congr fun a ha => hmem a (addrs_subset (Nat.zero_le i) hi ha)
  nodup := h.nodup
  fresh a ha := (h.fresh a ha).trans_le hfresh

/-! ### Iterators -/

/-- The buckets from `i` on are as they were. -/
def Later (heap : Heap κ ν) (core : SgHashCore) (cells : ℕ → List (Cell κ ν)) (i : ℕ) : Prop :=
  ∀ j, i ≤ j → j < core.bucketCount → core.buckets j = ptr (cells j) ∧ Seg heap.mem none (cells j)

/-- The iterator will return these cells. -/
inductive IterAt (heap : Heap κ ν) (core : SgHashCore) (cells : ℕ → List (Cell κ ν)) :
    SgHashIter → List (Cell κ ν) → Prop
  | done (b : ℕ) : IterAt heap core cells ⟨b, none⟩ []
  | inside (i : ℕ) (c : Cell κ ν) (l : List (Cell κ ν)) (hseg : Seg heap.mem none (c :: l))
    (hlater : Later heap core cells (i + 1)) :
    IterAt heap core cells ⟨i, some c.addr⟩ (c :: l ++ cellsFrom cells (i + 1) core.bucketCount)

theorem Later.findBucket (h : Later heap core cells i) :
    (findBucket core i = none ∧ cellsFrom cells i core.bucketCount = []) ∨
      ∃ j c l, findBucket core i = some (j, c.addr) ∧ i ≤ j ∧ j < core.bucketCount ∧
        cells j = c :: l ∧ cellsFrom cells i core.bucketCount =
          c :: l ++ cellsFrom cells (j + 1) core.bucketCount := by
  induction hk : core.bucketCount - i generalizing i with
  | zero =>
    refine .inl ⟨?_, cellsFrom_of_le (by omega)⟩
    rw [findBucket, hk]
    rfl
  | succ k ih =>
    have hi : i < core.bucketCount := by omega
    have hfind : findBucket core i = ((core.buckets i).map (i, ·)).or
        (findBucket core (i + 1)) := by
      rw [findBucket, hk, range'_succ, findSome?_cons, findBucket,
        show core.bucketCount - (i + 1) = k by omega]
      cases core.buckets i <;> rfl
    rw [hfind, (h i le_rfl hi).1, cellsFrom_of_lt hi]
    cases hc : cells i with
    | nil =>
      have hnext := ih (i := i + 1) (fun j hj => h j (by omega)) (by omega)
      rcases hnext with hnone | ⟨j, c, l, hrun, hij, hrest⟩
      · exact .inl hnone
      · exact .inr ⟨j, c, l, hrun, by omega, hrest⟩
    | cons c l => exact .inr ⟨i, c, l, rfl, le_rfl, hi, hc, rfl⟩

theorem Later.init (h : Later heap core cells 0) :
    IterAt heap core cells (hashIterInit core) (allCells cells core.bucketCount) := by
  rw [hashIterInit]
  rcases h.findBucket with ⟨hrun, hnil⟩ | ⟨j, c, l, hrun, -, hj, hcells, hall⟩
  · rw [hrun, allCells, hnil]
    exact .done 0
  · rw [hrun, allCells, hall]
    refine .inside j c l ?_ fun k hk => h k (Nat.zero_le _)
    rw [← hcells]
    exact (h j (Nat.zero_le _) hj).2

variable {itr : SgHashIter} {index : Cell κ ν → ℕ} {newsize : ℕ}

/-- **An iterator returns the next cell.** -/
theorem IterAt.next (h : IterAt heap core cells itr R) :
    ∃ itr', hashIterNext heap core itr = some (itr', ptr R) ∧
      ∀ c R', R = c :: R' → IterAt heap core cells itr' R' := by
  cases h with
  | done b => exact ⟨_, rfl, nofun⟩
  | inside i c l hseg hlater =>
    simp only [hashIterNext, hseg.1, bind_eq_bind, bind_some, Cell.entry,
      or_none]
    cases l with
    | cons d l =>
      refine ⟨⟨i, some d.addr⟩, rfl, ?_⟩
      rintro x R' ⟨⟩
      exact .inside i d l hseg.2 hlater
    | nil =>
      rcases hlater.findBucket with ⟨hrun, hnil⟩ | ⟨j, d, l, hrun, hij, hj, hcells, hall⟩
      · rw [hrun, hnil]
        refine ⟨_, rfl, ?_⟩
        rintro x R' ⟨⟩
        exact .done i
      · rw [hrun, hall]
        refine ⟨_, rfl, ?_⟩
        rintro x R' ⟨⟩
        refine .inside j d l ?_ fun k hk => hlater k (by omega)
        rw [← hcells]
        exact (hlater j hij hj).2

theorem IterAt.congr (h : IterAt heap core cells itr R)
    (hmem : ∀ a ∈ addrs R, heap'.mem a = heap.mem a) : IterAt heap' core cells itr R := by
  cases h with
  | done b => exact .done b
  | inside i c l hseg hlater =>
    rw [addrs_append] at hmem
    refine .inside i c l (hseg.congr fun a ha => hmem a (mem_append_left _ ha)) ?_
    intro j hij hj
    refine ⟨(hlater j hij hj).1, (hlater j hij hj).2.congr fun a ha => ?_⟩
    exact hmem a (mem_append_right _ (addrs_subset hij hj ha))

theorem IterAt.mem_head (h : IterAt heap core cells itr (c :: R)) :
    ∃ next, heap.mem c.addr = some (c.entry next) := by
  cases h with
  | inside i _ l hseg => exact ⟨_, hseg.1⟩

theorem IterAt.iterate (h : IterAt heap core cells itr R) (hn : R.length < n) :
    iterate heap core n itr = some (R.map fun c => (c.key, c.value)) := by
  induction R generalizing itr n with
  | nil =>
    obtain _ | k := n
    · cases hn
    obtain ⟨itr', hnext, -⟩ := h.next
    rw [iterate, hnext]
    rfl
  | cons c R ih =>
    obtain _ | k := n
    · cases hn
    obtain ⟨itr', hnext, hafter⟩ := h.next
    obtain ⟨next, hmem⟩ := h.mem_head
    rw [iterate, hnext]
    simp only [ptr_cons, bind_eq_bind, bind_some, hmem, Cell.entry,
      ih (hafter c R rfl) (Nat.lt_of_succ_lt_succ hn), map_cons]

/-! ### Growth -/

/-- A cell is put in front of the chain of its bucket. -/
def push (index : Cell κ ν → ℕ) (cells : ℕ → List (Cell κ ν)) (c : Cell κ ν) :
    ℕ → List (Cell κ ν) :=
  update cells (index c) (c :: cells (index c))

theorem allCells_push (h : index c < n) :
    (allCells (push index cells c) n).Perm (c :: allCells cells n) := by
  obtain ⟨rest, hp, hp'⟩ := allCells_update cells h (c :: cells (index c))
  exact hp'.trans ((hp.symm.cons c).trans (.refl _))

theorem allCells_foldl_push (cells : ℕ → List (Cell κ ν)) (h : ∀ c ∈ R, index c < n) :
    (allCells (R.foldl (push index) cells) n).Perm (R ++ allCells cells n) := by
  induction R generalizing cells with
  | nil => exact .refl _
  | cons c R ih =>
    obtain ⟨hc, hR⟩ := forall_mem_cons.1 h
    refine (ih _ hR).trans (((allCells_push hc).append_left R).trans ?_)
    exact perm_middle

theorem mem_foldl_push {j : ℕ} :
    c ∈ R.foldl (push index) cells j ↔ c ∈ cells j ∨ (c ∈ R ∧ index c = j) := by
  induction R generalizing cells with
  | nil => simp
  | cons d R ih =>
    rw [foldl_cons, ih, push]
    by_cases hj : index d = j
    · subst hj
      rw [update_self, mem_cons, mem_cons]
      constructor
      · rintro ((rfl | hc) | ⟨hc, hi⟩)
        · exact .inr ⟨.inl rfl, rfl⟩
        · exact .inl hc
        · exact .inr ⟨.inr hc, hi⟩
      · rintro (hc | ⟨rfl | hc, hi⟩)
        · exact .inl (.inr hc)
        · exact .inl (.inl rfl)
        · exact .inr ⟨hc, hi⟩
    · rw [update_of_ne (Ne.symm hj), mem_cons]
      refine or_congr_right ⟨fun ⟨hc, hi⟩ => ⟨.inr hc, hi⟩, ?_⟩
      rintro ⟨rfl | hc, hi⟩
      · exact (hj hi).elim
      · exact ⟨hc, hi⟩

theorem hash2index_lt (h : 0 < n) (bits : ℕ) (hashval : UInt32) : hash2index n bits hashval < n :=
  lt_of_le_of_lt Nat.and_le_right (Nat.sub_lt h Nat.one_pos)

/-- The loop moves the cells that are left to the bucket of their cached hash value. -/
theorem IterAt.rebucket {newb : ℕ → Option ℕ}
    {nb : ℕ → List (Cell κ ν)} (h : IterAt heap core cells itr R) (newbits : ℕ)
    (hsize : 0 < newsize)
    (hb : ∀ j < newsize, newb j = ptr (nb j)) (hseg : ∀ j < newsize, Seg heap.mem none (nb j))
    (hnodup : (addrs (R ++ allCells nb newsize)).Nodup) :
    ∃ heap' newb', (∀ n > R.length, rebucket core newsize newbits n heap newb itr =
        some (heap', newb')) ∧
      (∀ j < newsize, newb' j =
        ptr (R.foldl (push fun c => hash2index newsize newbits c.hashValue) nb j)) ∧
      (∀ j < newsize, Seg heap'.mem none
        (R.foldl (push fun c => hash2index newsize newbits c.hashValue) nb j)) ∧
      heap'.fresh = heap.fresh ∧ Rewrites (addrs R) heap heap' := by
  induction R generalizing heap itr newb nb with
  | nil =>
    obtain ⟨itr', hnext, -⟩ := h.next
    refine ⟨heap, newb, fun n hn => ?_, hb, hseg, rfl, .refl _ _⟩
    obtain _ | k := n
    · cases hn
    rw [rebucket, hnext]
    rfl
  | cons c R ih =>
    obtain ⟨itr', hnext, hafter⟩ := h.next
    obtain ⟨next, hmem⟩ := h.mem_head
    set index : Cell κ ν → ℕ := fun c => hash2index newsize newbits c.hashValue with hindex
    have hlt : index c < newsize := hash2index_lt hsize _ _
    have hperm : (R ++ allCells (push index nb c) newsize).Perm (c :: R ++ allCells nb newsize) :=
      ((allCells_push hlt).append_left R).trans perm_middle
    have hnew := hnodup
    rw [cons_append, addrs_cons, addrs_append, nodup_cons, mem_append, not_or] at hnew
    obtain ⟨⟨hnotR, hnotb⟩, -⟩ := hnew
    have hnot : ∀ j < newsize, c.addr ∉ addrs (nb j) := fun j hj hmem =>
      hnotb (addrs_subset (Nat.zero_le j) hj hmem)
    have hiter : IterAt (heap.setNext c.addr (newb (index c))) core cells itr' R :=
      (hafter c R rfl).congr fun a ha => if_neg (ne_of_mem_of_not_mem ha hnotR)
    have hb₁ : ∀ j < newsize, update newb (index c) (some c.addr) j =
        ptr (push index nb c j) := by
      refine (forall_update_iff nb fun j l => j < newsize → _ = ptr l).2 ⟨fun _ => ?_, ?_⟩
      · rw [update_self, ptr_cons]
      · intro j hji hj
        rw [update_of_ne hji, hb j hj]
    have hseg₁ : ∀ j < newsize,
        Seg (heap.setNext c.addr (newb (index c))).mem none (push index nb c j) := by
      refine (forall_update_iff nb fun j l => j < newsize → Seg _ none l).2
        ⟨fun hj => ⟨?_, (hseg _ hj).setNext (hnot _ hj) _⟩,
          fun j _ hj => (hseg j hj).setNext (hnot j hj) _⟩
      rw [setNext_mem, if_pos rfl, hmem, hb _ hj, or_none]
      rfl
    obtain ⟨heap', newb', hrun, hb', hseg', hfresh', hrw'⟩ := ih hiter hb₁ hseg₁
      ((hperm.map _).nodup_iff.2 hnodup)
    refine ⟨heap', newb', fun n hn => ?_, hb', hseg', hfresh', ?_⟩
    · obtain _ | k := n
      · cases hn
      rw [rebucket, hnext]
      simp only [ptr_cons, bind_eq_bind, bind_some, hmem]
      exact hrun k (Nat.lt_of_succ_lt_succ hn)
    · exact (Rewrites.modify (mem_cons_self ..) heap _).trans
        (hrw'.mono (subset_cons_self _ _))

/-- The buckets of the table after its growth -/
def regrown (newsize newbits : ℕ) (l : List (Cell κ ν)) : ℕ → List (Cell κ ν) :=
  l.foldl (push fun c => hash2index newsize newbits c.hashValue) fun _ => []

theorem allCells_empty (n : ℕ) : allCells (fun _ => ([] : List (Cell κ ν))) n = [] := by
  simp [allCells, cellsFrom]

theorem allCells_regrown (h : 0 < newsize) (newbits : ℕ) (l : List (Cell κ ν)) :
    (allCells (regrown newsize newbits l) newsize).Perm l := by
  have hlt : ∀ c ∈ l, hash2index newsize newbits c.hashValue < newsize := fun c _ =>
    hash2index_lt h _ _
  have hperm := allCells_foldl_push (fun _ => []) hlt
  rwa [allCells_empty, append_nil] at hperm

theorem mem_regrown {newbits j : ℕ} :
    c ∈ regrown newsize newbits l j ↔ c ∈ l ∧ hash2index newsize newbits c.hashValue = j := by
  rw [regrown, mem_foldl_push]
  simp

/-- **The table grows.** -/
theorem Holds.extend (h : Holds heap core cells) (hcount : 0 < core.bucketCount) :
    ∃ heap' buckets, (∀ n > (allCells cells core.bucketCount).length,
        HashTable.extend n heap core = some (heap', { core with
          buckets := buckets
          bucketCount := core.bucketCount <<< extendBits
          bucketsLog2Count := core.bucketsLog2Count + extendBits })) ∧
      Holds heap' { core with
          buckets := buckets
          bucketCount := core.bucketCount <<< extendBits
          bucketsLog2Count := core.bucketsLog2Count + extendBits }
        (regrown (core.bucketCount <<< extendBits) (core.bucketsLog2Count + extendBits)
          (allCells cells core.bucketCount)) ∧
      heap'.fresh = heap.fresh ∧ Rewrites (addrs (allCells cells core.bucketCount)) heap heap' := by
  have hsize : 0 < core.bucketCount <<< extendBits := by
    rw [Nat.shiftLeft_eq]
    exact Nat.mul_pos hcount (Nat.two_pow_pos _)
  have hlater : Later heap core cells 0 := fun j _ hj => ⟨h.bucket j hj, h.chain j hj⟩
  have hnone : ∀ j < core.bucketCount <<< extendBits,
      (fun _ => none : ℕ → Option ℕ) j = ptr ((fun _ => [] : ℕ → List (Cell κ ν)) j) :=
    fun _ _ => rfl
  obtain ⟨heap', newb, hrun, hb, hseg, hfresh, hrw⟩ := hlater.init.rebucket
    (core.bucketsLog2Count + extendBits) hsize hnone (fun _ _ => trivial)
    (by rw [allCells_empty, append_nil]; exact h.nodup)
  have hperm := allCells_regrown hsize (core.bucketsLog2Count + extendBits)
    (allCells cells core.bucketCount)
  refine ⟨heap', newb, fun n hn => ?_, ⟨hb, hseg, ?_, ?_⟩, hfresh, hrw⟩
  · rw [HashTable.extend, hrun n hn]
    rfl
  · exact (hperm.map _).nodup_iff.2 h.nodup
  · intro a ha
    rw [hfresh]
    exact h.fresh a ((hperm.map _).subset ha)

/-! ### Copies -/

theorem allCells_succ (cells : ℕ → List (Cell κ ν)) (n : ℕ) :
    allCells cells (n + 1) = allCells cells n ++ cells n := by
  simp only [allCells, cellsFrom, Nat.sub_zero, range'_1_concat, flatMap_append,
    Nat.zero_add, flatMap_cons, flatMap_nil, append_nil]

theorem Holds.copyBuckets (h : Holds heap core cells) (i : ℕ) (hi : i ≤ core.bucketCount) :
    ∃ heap' b cells', (∀ n, (∀ j < i, (cells j).length < n) →
        HashTable.copyBuckets n core heap i = some (heap', b)) ∧
      (∀ j < i, b j = ptr (cells' j) ∧ Seg heap'.mem none (cells' j) ∧
        ∃ a, cells' j = copyCells a (cells j)) ∧
      addrs (allCells cells' i) = List.range' heap.fresh (heap'.fresh - heap.fresh) ∧
      Rewrites [] heap heap' := by
  induction i with
  | zero =>
    exact ⟨heap, _, fun _ => [], fun _ _ => rfl, nofun, by simp [allCells, cellsFrom], .refl _ _⟩
  | succ i ih =>
    obtain ⟨heap₁, b, cells₁, hrun₁, hcopy₁, haddrs₁, hrw₁⟩ := ih (Nat.le_of_succ_le hi)
    have hmem : ∀ a ∈ addrs (cells i), a < heap.fresh := fun a ha =>
      h.fresh a (addrs_subset (Nat.zero_le i) hi ha)
    have hseg : Seg heap₁.mem none (cells i) :=
      (h.chain i hi).congr fun a ha => hrw₁.outside a (not_mem_nil) (hmem a ha)
    obtain ⟨heap₂, hrun₂, hseg₂, hfresh₂, hout₂⟩ := hseg.copyChain (b := [])
      (fun a ha => (hmem a ha).trans_le hrw₁.fresh) trivial rfl rfl
    have hrw₂ : Rewrites [] heap₁ heap₂ := ⟨fun a _ => hout₂ a, by omega⟩
    refine ⟨heap₂, update b i (ptr (copyCells heap₁.fresh (cells i))),
      update cells₁ i (copyCells heap₁.fresh (cells i)), fun n hn => ?_, ?_, ?_,
      hrw₁.trans hrw₂⟩
    · rw [HashTable.copyBuckets, hrun₁ n fun j hj => hn j (hj.trans (Nat.lt_succ_self i))]
      simp only [bind_eq_bind, bind_some, h.bucket i hi]
      exact congrArg (fun r => r.bind fun x => some (x.1, update b i x.2))
        (hrun₂ n (hn i (Nat.lt_succ_self i)))
    · intro j hj
      by_cases hji : j = i
      · subst hji
        rw [update_self, update_self]
        exact ⟨rfl, hseg₂, _, rfl⟩
      · have hlt : j < i := by omega
        obtain ⟨hb, hseg₁, hcopy⟩ := hcopy₁ j hlt
        rw [update_of_ne hji, update_of_ne hji]
        refine ⟨hb, hseg₁.congr fun a ha => hout₂ a ?_, hcopy⟩
        have hrange : a ∈ addrs (allCells cells₁ i) := addrs_subset (Nat.zero_le j) hlt ha
        rw [haddrs₁, mem_range'_1] at hrange
        omega
    · have hold : allCells (update cells₁ i (copyCells heap₁.fresh (cells i))) i =
          allCells cells₁ i :=
        flatMap_congr fun j hj => by
          have hlt := (mem_range'_1.1 hj).2
          have hne : j ≠ i := by omega
          exact update_of_ne hne _ _
      obtain ⟨k, hk⟩ := Nat.exists_eq_add_of_le hrw₁.fresh
      rw [allCells_succ, addrs_append, hold, haddrs₁, update_self, addrs_copyCells, hfresh₂,
        hk, Nat.add_sub_cancel_left, range'_append_1, Nat.add_assoc, Nat.add_sub_cancel_left]

end Sagittarius.HashTable
