import Sagittarius.HashTable.Contents

/-!
# The operations on one table

A table in memory that has the entries of its sheet (`Rep`).  Its entries are found if each is in
the bucket of the hash value of its key (`Placed`); this is kept by all operations, but for the
growth of a table with entries that have lost their hash value.
-/

namespace Sagittarius.HashTable

open List Function Finmap Option

variable {κ ν : Type} {h : Hashing κ} {heap heap' : Heap κ ν} {core core' : SgHashCore}
  {cells : ℕ → List (Cell κ ν)} {i j n : ℕ} {c : Cell κ ν} {l l' : List (Cell κ ν)}

/-! ### One bucket -/

section

variable (hh : Holds heap core cells) (hi : i < core.bucketCount)

include hh hi

theorem Holds.split (l : List (Cell κ ν)) :
    ∃ rest, (allCells cells core.bucketCount).Perm (cells i ++ rest) ∧
      (allCells (update cells i l) core.bucketCount).Perm (l ++ rest) ∧
      (addrs (cells i)).Nodup ∧ (addrs rest).Nodup ∧
        ∀ a ∈ addrs (cells i), ∀ b ∈ addrs rest, a ≠ b := by
  obtain ⟨rest, hall, hall'⟩ := allCells_update cells hi l
  have hnodup := (hall.map Cell.addr).nodup_iff.1 hh.nodup
  rw [map_append, nodup_append] at hnodup
  exact ⟨rest, hall, hall', hnodup⟩

theorem Holds.disjoint (hj : j < core.bucketCount) (hne : j ≠ i) {a : ℕ}
    (ha : a ∈ addrs (cells j)) : a ∉ addrs (cells i) := by
  obtain ⟨rest, -, hrest, hnodup⟩ := hh.split hi []
  obtain ⟨c, hc, rfl⟩ := mem_map.1 ha
  have hmem : c ∈ rest := by
    refine hrest.mem_iff.1 (mem_allCells.2 ⟨j, hj, ?_⟩)
    rwa [update_of_ne hne]
  exact fun hci => hnodup.2.2 _ hci _ (mem_map.2 ⟨c, hmem, rfl⟩) rfl

theorem Holds.bucket_eq (hj : j < core.bucketCount) (hci : c ∈ cells i) (hcj : c ∈ cells j) :
    j = i := by
  by_contra hne
  exact hh.disjoint hi hj hne (addr_mem_addrs hcj) (addr_mem_addrs hci)

theorem Holds.chain_nodup : (addrs (cells i)).Nodup := by
  obtain ⟨rest, -, -, hnodup, -⟩ := hh.split hi []
  exact hnodup

theorem Holds.chain_fresh {a : ℕ} (ha : a ∈ addrs (cells i)) : a < heap.fresh :=
  hh.fresh a (addrs_subset (Nat.zero_le i) hi ha)

theorem Holds.replace (hcount : core'.bucketCount = core.bucketCount)
    (hbuckets : core'.buckets = update core.buckets i (ptr l))
    (hseg : Seg heap'.mem none l) (hrw : Rewrites (addrs (cells i)) heap heap')
    (hnodup : (addrs l).Nodup)
    (hl : ∀ a ∈ addrs l, a ∈ addrs (cells i) ∨ heap.fresh ≤ a ∧ a < heap'.fresh) :
    Holds heap' core' (update cells i l) := by
  obtain ⟨rest, hall, hall', hold⟩ := hh.split hi l
  have hfresh : ∀ a ∈ addrs (cells i ++ rest), a < heap.fresh := fun a ha =>
    hh.fresh a ((hall.map _).mem_iff.2 ha)
  rw [addrs_append] at hfresh
  constructor <;> rw [hcount]
  · refine (forall_update_iff cells fun j l => j < _ → core'.buckets j = ptr l).2 ⟨fun _ => ?_, ?_⟩
    · rw [hbuckets, update_self]
    · intro j hji hj
      rw [hbuckets, update_of_ne hji, hh.bucket j hj]
  · refine (forall_update_iff cells fun j l => j < _ → Seg heap'.mem none l).2 ⟨fun _ => hseg, ?_⟩
    exact fun j hji hj => (hh.chain j hj).congr fun a ha =>
      hrw.outside a (hh.disjoint hi hj hji ha) (hh.chain_fresh hj ha)
  · refine (hall'.map Cell.addr).nodup_iff.2 ?_
    rw [map_append, nodup_append]
    refine ⟨hnodup, hold.2.1, fun a ha b hb hab => ?_⟩
    rcases hl a ha with hmem | hge
    · exact hold.2.2 a hmem b hb hab
    · exact absurd (hfresh b (mem_append_right _ hb)) (hab ▸ hge.1).not_gt
  · intro a ha
    have hmem : a ∈ addrs (l ++ rest) := (hall'.map Cell.addr).mem_iff.1 ha
    rcases mem_append.1 (addrs_append l rest ▸ hmem) with ha | ha
    · rcases hl a ha with hmem | hge
      · exact (hfresh a (mem_append_left _ hmem)).trans_le hrw.fresh
      · exact hge.2
    · exact (hfresh a (mem_append_right _ ha)).trans_le hrw.fresh

theorem Holds.insert (key : κ) (v : ν) (hashval : UInt32) :
    Holds (heap.alloc ⟨key, v, core.buckets i, hashval⟩)
      { core with
        buckets := update core.buckets i (some heap.fresh)
        entryCount := core.entryCount + 1 }
      (update cells i (⟨heap.fresh, key, v, hashval⟩ :: cells i)) := by
  have hfresh : ∀ a ∈ addrs (cells i), a < heap.fresh := fun a ha => hh.chain_fresh hi ha
  refine hh.replace hi rfl rfl ⟨?_, (hh.chain i hi).alloc hfresh _⟩ (.alloc _ _ _) ?_ ?_
  · rw [or_none, hh.bucket i hi]
    exact if_pos rfl
  · exact nodup_cons.2 ⟨fun hmem => (hfresh _ hmem).false, hh.chain_nodup hi⟩
  · intro a ha
    rcases mem_cons.1 ha with rfl | ha
    · exact .inr ⟨le_rfl, Nat.lt_succ_self _⟩
    · exact .inl ha

theorem Holds.deleteEntry (hcells : cells i = l ++ c :: l') :
    ∃ heap' buckets, deleteEntry heap core c.addr (l.getLast?.map Cell.addr) i =
        some (heap', { core with buckets := buckets, entryCount := core.entryCount - 1 }) ∧
      Holds heap' { core with buckets := buckets, entryCount := core.entryCount - 1 }
        (update cells i (l ++ l')) ∧
      heap'.fresh = heap.fresh ∧ Rewrites (addrs (cells i)) heap heap' := by
  have hseg := hh.chain i hi
  have hnodup := hh.chain_nodup hi
  rw [hcells] at hseg hnodup
  have hsub : (addrs (l ++ l')).Nodup ∧ ∀ a ∈ addrs (l ++ l'), a ∈ addrs (cells i) := by
    have hlist : (l ++ l').Sublist (l ++ c :: l') := (sublist_cons_self c l').append_left l
    exact ⟨hnodup.sublist (hlist.map _), fun a ha => hcells ▸ (hlist.map _).subset ha⟩
  have hc : heap.mem c.addr = some (c.entry (ptr l')) := by
    have := (seg_append.1 hseg).2.1
    rwa [or_none] at this
  have hcaddr : c.addr ∈ addrs (cells i) := by simp [hcells]
  rcases l.eq_nil_or_concat with rfl | ⟨l₀, p, rfl⟩
  · have hrw : Rewrites (addrs (cells i)) heap (heap.setNext c.addr none) := .modify hcaddr _ _
    refine ⟨heap.setNext c.addr none, update core.buckets i (ptr l'), ?_,
      hh.replace hi rfl rfl (hseg.2.setNext (nodup_cons.1 hnodup).1 _) hrw hsub.1
        fun a ha => .inl (hsub.2 a ha), rfl, hrw⟩
    rw [deleteEntry, hc]
    rfl
  · rw [concat_eq_append] at *
    have hpaddr : p.addr ∈ addrs (cells i) := by simp [hcells]
    have hrw : Rewrites (addrs (cells i)) heap
        ((heap.setNext p.addr (ptr l')).setNext c.addr none) :=
      .trans (.modify hpaddr _ _) (.modify hcaddr _ _)
    have hptr : core.buckets = update core.buckets i (ptr (l₀ ++ [p] ++ l')) := by
      rw [update_eq_self_iff.2]
      rw [hh.bucket i hi, hcells]
      simp [ptr_append]
    rw [append_assoc, singleton_append] at hseg hnodup
    refine ⟨(heap.setNext p.addr (ptr l')).setNext c.addr none, core.buckets, ?_,
      hh.replace hi rfl hptr ?_ hrw hsub.1 fun a ha => .inl (hsub.2 a ha), rfl, hrw⟩
    · rw [deleteEntry, hc]
      simp [Cell.entry]
    · rw [append_assoc, singleton_append]
      exact hseg.unlink hnodup

theorem Holds.write (hcells : cells i = l ++ c :: l') (v : ν) :
    Holds (heap.modify c.addr fun m => { m with value := v }) core
      (update cells i (l ++ { c with value := v } :: l')) := by
  have hseg := hh.chain i hi
  have hnodup := hh.chain_nodup hi
  have hptr : core.buckets =
      update core.buckets i (ptr (l ++ { c with value := v } :: l')) := by
    rw [update_eq_self_iff.2]
    rw [hh.bucket i hi, hcells, ptr_append, ptr_append]
    rfl
  have haddrs : addrs (l ++ { c with value := v } :: l') = addrs (cells i) := by simp [hcells]
  refine hh.replace hi rfl hptr ?_ (.modify (by simp [hcells]) _ _) (haddrs ▸ hnodup)
    fun a ha => .inl (haddrs ▸ ha)
  rw [hcells] at hseg hnodup
  simp only [addrs_append, addrs_cons, nodup_append, nodup_cons, mem_cons] at hnodup
  obtain ⟨-, ⟨hcl', -⟩, hdisj⟩ := hnodup
  obtain ⟨hl, hc, htail⟩ := seg_append.1 hseg
  refine seg_append.2 ⟨hl.congr fun a ha => if_neg ?_, ?_, htail.congr fun a ha => if_neg ?_⟩
  · exact hdisj a ha _ (.inl rfl)
  · refine (if_pos rfl).trans ?_
    rw [hc]
    rfl
  · exact ne_of_mem_of_not_mem ha hcl'

end

/-! ### Tables and sheets -/

/-- A table, with the cells of its buckets and its sheet -/
structure Held (h : Hashing κ) (ν : Type) where
  core : SgHashCore
  cells : ℕ → List (Cell κ ν)
  sheet : Sheet h ν

/-- All cells of the table -/
def Held.all (x : Held h ν) : List (Cell κ ν) := allCells x.cells x.core.bucketCount

/-- The bucket of a hash value -/
def Held.index (x : Held h ν) (hashval : UInt32) : ℕ :=
  hash2index x.core.bucketCount x.core.bucketsLog2Count hashval

/-- The memory holds the table, and the table has the entries of its sheet. -/
structure Rep (heap : Heap κ ν) (x : Held h ν) : Prop where
  holds : Holds heap x.core x.cells
  pos : 0 < x.core.bucketCount
  count : x.sheet.bucketCount = x.core.bucketCount
  bits : x.sheet.bits = x.core.bucketsLog2Count
  entries : x.core.entryCount = x.all.length
  contents : Contents h x.all x.sheet.map x.sheet.copied

/-- Each entry is in the bucket of its key. -/
def Placed (x : Held h ν) : Prop :=
  ∀ i < x.core.bucketCount, ∀ c ∈ x.cells i, x.index (h.hasher c.key) = i

variable {x : Held h ν}

theorem Rep.index_lt (hx : Rep heap x) (hashval : UInt32) :
    x.index hashval < x.core.bucketCount := hash2index_lt hx.pos _ _

theorem Held.length_chain_le (hi : i < x.core.bucketCount) :
    (x.cells i).length ≤ x.all.length := by
  obtain ⟨rest, hall, -⟩ := allCells_update x.cells hi []
  rw [Held.all, hall.length_eq, length_append]
  exact Nat.le_add_right _ _

theorem Rep.search (hx : Rep heap x) (key : κ) :
    (∃ l c l', x.cells (x.index (h.hasher key)) = l ++ c :: l' ∧ h.compare key c.key = true ∧
      ∀ n > x.all.length,
        HashTable.search h heap key n (x.core.buckets (x.index (h.hasher key))) none =
          some (some (c.addr, l.getLast?.map Cell.addr))) ∨
    ((∀ c ∈ x.cells (x.index (h.hasher key)), h.compare key c.key = false) ∧
      ∀ n > x.all.length,
        HashTable.search h heap key n (x.core.buckets (x.index (h.hasher key))) none =
          some none) := by
  have hi := hx.index_lt (h.hasher key)
  have hseg := hx.holds.chain _ hi
  have hlen := Held.length_chain_le hi
  rw [hx.holds.bucket _ hi]
  cases hfind : (x.cells (x.index (h.hasher key))).find? fun c => h.compare key c.key with
  | none =>
    have hnot : ∀ c ∈ x.cells (x.index (h.hasher key)), h.compare key c.key = false := by
      simpa using hfind
    refine .inr ⟨hnot, fun n hn => ?_⟩
    obtain ⟨k, rfl⟩ := Nat.exists_eq_add_of_lt (hlen.trans_lt hn)
    rw [← append_nil (x.cells _)] at hseg
    have hrun := search_append (n := k + 1) hseg hnot none
    rw [append_nil] at hrun
    rw [Nat.add_assoc, Nat.add_comm, hrun]
    rfl
  | some c =>
    obtain ⟨hc, l, l', hcells, hl⟩ := find?_eq_some_iff_append.1 hfind
    rw [hcells] at hseg hlen ⊢
    refine .inl ⟨l, c, l', rfl, hc, fun n hn => ?_⟩
    rw [length_append] at hlen
    obtain ⟨k, rfl⟩ := Nat.exists_eq_add_of_lt ((Nat.le_of_add_right_le hlen).trans_lt hn)
    rw [Nat.add_assoc, Nat.add_comm, search_append hseg (by simpa using hl), ptr_cons,
      HashTable.search, (seg_append.1 hseg).2.1]
    simp [Cell.entry, hc]

theorem Placed.mem_bucket (hp : Placed x) {key : κ} (hc : c ∈ x.all)
    (hkey : h.compare key c.key = true) : c ∈ x.cells (x.index (h.hasher key)) := by
  obtain ⟨i, hi, hci⟩ := mem_allCells.1 hc
  rwa [h.hash_eq hkey, hp i hi c hci]

theorem Placed.not_mem (hp : Placed x) (hx : Rep heap x) {key : κ}
    (hnot : ∀ c ∈ x.cells (x.index (h.hasher key)), h.compare key c.key = false) :
    h.cls key ∉ x.sheet.map := by
  intro hmem
  obtain ⟨c, hc, hkey⟩ := (hx.contents.mem_map_iff _).1 hmem
  have hkey' := h.symm (Hashing.cls_eq.1 hkey)
  rw [hnot c (hp.mem_bucket hc hkey')] at hkey'
  cases hkey'

/-! ### Changes -/

/-- Of what was allocated only these cells have been changed, and other cells are new. -/
structure Frame (heap heap' : Heap κ ν) (l l' : List (Cell κ ν)) : Prop where
  rewrites : Rewrites (addrs l) heap heap'
  new : ∀ a ∈ addrs l', a ∈ addrs l ∨ heap.fresh ≤ a

theorem Frame.trans {heap'' : Heap κ ν} {l'' : List (Cell κ ν)} (h₁ : Frame heap heap' l l')
    (h₂ : Frame heap' heap'' l' l'') : Frame heap heap'' l l'' where
  rewrites :=
    { outside := by
        intro a ha hlt
        have ha' : a ∉ addrs l' := fun hmem => (h₁.new a hmem).elim ha (Nat.not_le.2 hlt)
        rw [h₂.rewrites.outside a ha' (hlt.trans_le h₁.rewrites.fresh),
          h₁.rewrites.outside a ha hlt]
      fresh := h₁.rewrites.fresh.trans h₂.rewrites.fresh }
  new a ha := by
    rcases h₂.new a ha with hmem | hge
    · exact h₁.new a hmem
    · exact .inr (h₁.rewrites.fresh.trans hge)

theorem Rep.write (hx : Rep heap x) (hc : c ∈ x.all) (v : ν) :
    ∃ cells', Rep (heap.modify c.addr fun m => { m with value := v })
        ⟨x.core, cells', { x.sheet with map := x.sheet.map.insert (h.cls c.key) v }⟩ ∧
      Frame heap (heap.modify c.addr fun m => { m with value := v }) x.all
        (allCells cells' x.core.bucketCount) ∧
      (Placed ⟨x.core, cells', { x.sheet with map := x.sheet.map.insert (h.cls c.key) v }⟩ ↔
        Placed x) := by
  obtain ⟨i, hi, hci⟩ := mem_allCells.1 hc
  obtain ⟨l, l', hcells⟩ := append_of_mem hci
  obtain ⟨rest, hall, hall'⟩ := allCells_update x.cells hi (l ++ { c with value := v } :: l')
  rw [hcells] at hall
  have hperm : x.all.Perm (c :: (l ++ l' ++ rest)) :=
    hall.trans (List.perm_middle.append_right rest)
  have hperm' := hall'.trans (List.perm_middle.append_right rest)
  have haddrs : (addrs (allCells (update x.cells i (l ++ { c with value := v } :: l'))
      x.core.bucketCount)).Perm (addrs x.all) :=
    (hperm'.map Cell.addr).trans (hperm.map Cell.addr).symm
  refine ⟨update x.cells i (l ++ { c with value := v } :: l'),
    ⟨hx.holds.write hi hcells v, hx.pos, hx.count, hx.bits, ?_,
      ((hx.contents.perm hperm).write v).perm hperm'.symm⟩,
    ⟨.modify (addr_mem_addrs hc) _ _, fun a ha => .inl (haddrs.subset ha)⟩, ?_⟩
  · rw [hx.entries, hperm.length_eq, Held.all, hperm'.length_eq]
    rfl
  · refine forall₂_congr fun j hj => ?_
    by_cases hji : j = i
    · subst hji
      simp only [update_self, hcells, forall_mem_append, forall_mem_cons]
      rfl
    · simp only [update_of_ne hji]
      rfl

/-! ### Reference -/

section

variable [Inhabited ν]

theorem Rep.hashTableRef (hx : Rep heap x) (key : κ) (hn : x.all.length < n) :
    (∃ c ∈ x.cells (x.index (h.hasher key)), h.cls c.key = h.cls key ∧
      HashTable.hashTableRef h n heap x.core key = some (some c.value)) ∨
    ((∀ c ∈ x.cells (x.index (h.hasher key)), h.compare key c.key = false) ∧
      HashTable.hashTableRef h n heap x.core key = some none) := by
  unfold HashTable.hashTableRef generalAccess
  rcases hx.search key with ⟨l, c, l', hcells, hkey, hrun⟩ | ⟨hnot, hrun⟩
  · have hc : c ∈ x.cells (x.index (h.hasher key)) := by simp [hcells]
    obtain ⟨next, hmem⟩ := (hx.holds.chain _ (hx.index_lt _)).mem_of_mem hc
    refine .inl ⟨c, hc, Hashing.cls_eq.2 (h.symm hkey), ?_⟩
    simp only [Held.index] at hrun
    simp [hrun n hn, found, hmem, Cell.entry]
  · refine .inr ⟨hnot, ?_⟩
    simp only [Held.index] at hrun
    simp [hrun n hn, notFound]

/-- **A table answers as its finite map exactly if each entry has its place.** -/
theorem Rep.placed_iff (hx : Rep heap x) (hn : x.all.length < n) :
    (∀ key, HashTable.hashTableRef h n heap x.core key =
      some (x.sheet.map.lookup (h.cls key))) ↔ Placed x := by
  constructor
  · intro href i hi c hc
    have hall : c ∈ x.all := mem_allCells.2 ⟨i, hi, hc⟩
    have hlookup := (hx.contents.lookup _ _).2 ⟨c, hall, rfl, rfl⟩
    rcases hx.hashTableRef c.key hn with ⟨d, hd, hkey, -⟩ | ⟨-, hrun⟩
    · have hdall : d ∈ x.all := mem_allCells.2 ⟨_, hx.index_lt _, hd⟩
      obtain rfl := inj_on_of_nodup_map hx.contents.keys hdall hall hkey
      exact hx.holds.bucket_eq hi (hx.index_lt _) hc hd
    · rw [href, hlookup] at hrun
      cases hrun
  · intro hp key
    rcases hx.hashTableRef key hn with ⟨c, hc, hkey, hrun⟩ | ⟨hnot, hrun⟩
    · have hall : c ∈ x.all := mem_allCells.2 ⟨_, hx.index_lt _, hc⟩
      rw [hrun, (hx.contents.lookup _ _).2 ⟨c, hall, hkey, rfl⟩]
    · rw [hrun, Finmap.lookup_eq_none.2 (hp.not_mem hx hnot)]

end

/-! ### Insertion -/

/-- A table that grows: the entries that have lost their hash value go to the bucket of zero. -/
theorem Rep.extend (hx : Rep heap x) :
    ∃ heap' x', (∀ n > x.all.length, extend n heap x.core = some (heap', x'.core)) ∧
      x'.sheet = { x.sheet with
        bucketCount := x.sheet.bucketCount <<< extendBits, bits := x.sheet.bits + extendBits } ∧
      x'.all.Perm x.all ∧ Rep heap' x' ∧ Frame heap heap' x.all x'.all ∧
      (Placed x' ↔ ∀ q ∈ x.sheet.copied, x'.index (h.hashClass q) = x'.index 0) := by
  obtain ⟨heap', buckets, hrun, hholds, hfresh, hrw⟩ := hx.holds.extend hx.pos
  have hsize : 0 < x.core.bucketCount <<< extendBits := by
    rw [Nat.shiftLeft_eq]
    exact Nat.mul_pos hx.pos (Nat.two_pow_pos _)
  have hperm := allCells_regrown hsize (x.core.bucketsLog2Count + extendBits) x.all
  set x' : Held h ν := ⟨_, _, { x.sheet with
    bucketCount := x.sheet.bucketCount <<< extendBits, bits := x.sheet.bits + extendBits }⟩ with hx'
  refine ⟨heap', x', hrun, rfl, hperm, ⟨hholds, hsize, ?_, ?_, ?_, hx.contents.perm hperm.symm⟩,
    ⟨hrw, fun a ha => .inl ((hperm.map _).subset ha)⟩, ?_⟩
  · rw [hx', hx.count]
  · rw [hx', hx.bits]
  · exact hx.entries.trans (by rw [← hperm.length_eq]; rfl)
  · have hplaced : Placed x' ↔ ∀ c ∈ x.all, x'.index (h.hasher c.key) = x'.index c.hashValue := by
      constructor
      · intro hp c hc
        exact hp _ (hash2index_lt hsize _ _) c (mem_regrown.2 ⟨hc, rfl⟩)
      · rintro hall j - c hc
        obtain ⟨hmem, hj⟩ := mem_regrown.1 hc
        exact (hall c hmem).trans hj
    rw [hplaced]
    constructor
    · intro hall q hq
      obtain ⟨c, hc, rfl⟩ :=
        (hx.contents.mem_map_iff q).1 (Finmap.mem_keys.1 (hx.contents.subset hq))
      rw [Hashing.hashClass_cls, hall c hc, hx.contents.cached c hc, if_pos hq]
    · intro hall c hc
      rw [hx.contents.cached c hc]
      split
      · rename_i hq
        exact hall _ hq
      · rfl

/-- The table with a new entry in front of the bucket of its key -/
def Held.insert (x : Held h ν) (key : κ) (c : Cell κ ν) : Held h ν where
  core := { x.core with
    buckets := update x.core.buckets (x.index (h.hasher key)) (some c.addr)
    entryCount := x.core.entryCount + 1 }
  cells := update x.cells (x.index (h.hasher key))
    (c :: x.cells (x.index (h.hasher key)))
  sheet := { x.sheet with map := x.sheet.map.insert (h.cls key) c.value }

theorem Rep.all_insert (hx : Rep heap x) (key : κ) (c : Cell κ ν) :
    (x.insert key c).all.Perm (c :: x.all) := by
  obtain ⟨rest, hall, hall'⟩ := allCells_update x.cells (hx.index_lt (h.hasher key))
    (c :: x.cells (x.index (h.hasher key)))
  exact hall'.trans (hall.symm.cons c)

theorem Rep.insert (hx : Rep heap x) {key : κ} (hnew : h.cls key ∉ x.sheet.map) (v : ν) :
    Rep (heap.alloc ⟨key, v, x.core.buckets (x.index (h.hasher key)), h.hasher key⟩)
      (x.insert key ⟨heap.fresh, key, v, h.hasher key⟩) := by
  have hperm := hx.all_insert key ⟨heap.fresh, key, v, h.hasher key⟩
  have hcons := hx.contents.cons (c := ⟨heap.fresh, key, v, h.hasher key⟩) hnew rfl
  refine ⟨hx.holds.insert (hx.index_lt _) key v _, hx.pos, hx.count, hx.bits, ?_,
    hcons.perm hperm.symm⟩
  rw [hperm.length_eq, length_cons, Int.natCast_succ, ← hx.entries]
  rfl

theorem Rep.frame_insert (hx : Rep heap x) (key : κ) (v : ν) (e : Entry κ ν) :
    Frame heap (heap.alloc e) x.all (x.insert key ⟨heap.fresh, key, v, h.hasher key⟩).all := by
  refine ⟨.alloc _ _ _, fun a ha => ?_⟩
  rcases mem_cons.1 (((hx.all_insert key _).map Cell.addr).subset ha) with rfl | ha
  · exact .inr le_rfl
  · exact .inl ha

theorem Placed.insert (hp : Placed x) {key : κ} (hc : c.key = key) :
    Placed (x.insert key c) := by
  refine (forall_update_iff x.cells fun j l => j < _ → ∀ d ∈ l, x.index (h.hasher d.key) = j).2
    ⟨fun hj => ?_, fun j _ hj => hp j hj⟩
  rw [forall_mem_cons, hc]
  exact ⟨rfl, hp _ hj⟩

theorem Rep.grows_iff (hx : Rep heap x) {key : κ} (hnew : h.cls key ∉ x.sheet.map) :
    x.core.entryCount + 1 > x.core.bucketCount * maxAvgChainLimits ↔
      x.sheet.Grows (h.cls key) := by
  rw [Sheet.Grows, ← hx.contents.length_eq, hx.count, hx.entries]
  simp only [hnew, not_false_eq_true, true_and]
  norm_cast

/-- **A new entry.**  The table grows if its chains become too long. -/
theorem Rep.insertEntry [Inhabited ν] (hx : Rep heap x) (hp : Placed x) {key : κ}
    (hnew : h.cls key ∉ x.sheet.map) :
    ∃ heap' x' c, (∀ n > x.all.length + 1, HashTable.insertEntry n heap x.core key (h.hasher key)
        (x.index (h.hasher key)) = some (heap', x'.core, c.addr)) ∧ c ∈ x'.all ∧ c.key = key ∧
      x'.sheet = x.sheet.set (h.cls key) default ∧ Rep heap' x' ∧ Frame heap heap' x.all x'.all ∧
      (Placed x' ↔ x.sheet.SafeSet (h.cls key)) := by
  have hperm := hx.all_insert key ⟨heap.fresh, key, default, h.hasher key⟩
  have hy := hx.insert hnew default
  have hframe := hx.frame_insert key default
    ⟨key, default, x.core.buckets (x.index (h.hasher key)), h.hasher key⟩
  have hmem := hperm.symm.subset (mem_cons_self ..)
  unfold HashTable.insertEntry
  by_cases hg : x.sheet.Grows (h.cls key)
  · obtain ⟨heap', x', hrun, hsheet, hperm', hx', hframe', hplaced⟩ := hy.extend
    rw [hperm.length_eq] at hrun
    refine ⟨heap', x', _, fun n hn => ?_, hperm'.symm.subset hmem, rfl, ?_, hx',
      hframe.trans hframe', ?_⟩
    · refine (if_pos ((hx.grows_iff hnew).2 hg)).trans ?_
      simp only [Held.insert] at hrun
      rw [hrun n hn]
      rfl
    · rw [hsheet, Sheet.set, if_pos hg]
      rfl
    · rw [hplaced, Sheet.SafeSet]
      simp only [hg, true_imp_iff, Held.index, ← hx'.count, ← hx'.bits, hsheet]
      rfl
  · refine ⟨_, _, _, fun _ _ => if_neg ((hx.grows_iff hnew).not.2 hg), hmem, rfl, ?_, hy, hframe,
      ?_⟩
    · rw [Sheet.set, if_neg hg]
      rfl
    · exact iff_of_true (hp.insert rfl) fun hg' => (hg hg').elim

theorem Sheet.set_set (s : Sheet h ν) (q : h.Class) (v w : ν) :
    { s.set q v with map := (s.set q v).map.insert q w } = s.set q w := by
  unfold Sheet.set
  split
  · rw [insert_insert]
  · rw [insert_insert]

/-- **`Sg_HashTableSet` sets the key**, and the entries have their places afterwards unless copied
ones are moved. -/
theorem Rep.hashTableSet [Inhabited ν] (hx : Rep heap x) (hp : Placed x) (key : κ) (v : ν) :
    ∃ heap' x', (∀ n > x.all.length + 1,
        HashTable.hashTableSet h n heap x.core key v = some (heap', x'.core)) ∧
      x'.sheet = x.sheet.set (h.cls key) v ∧ Rep heap' x' ∧ Frame heap heap' x.all x'.all ∧
      (Placed x' ↔ x.sheet.SafeSet (h.cls key)) := by
  unfold HashTable.hashTableSet generalAccess
  rcases hx.search key with ⟨l, c, l', hcells, hkey, hrun⟩ | ⟨hnot, hrun⟩
  · have hc : c ∈ x.all := mem_allCells.2 ⟨_, hx.index_lt _, by rw [hcells]; simp⟩
    have hcls : h.cls c.key = h.cls key := Hashing.cls_eq.2 (h.symm hkey)
    have hmem : h.cls key ∈ x.sheet.map := (hx.contents.mem_map_iff _).2 ⟨c, hc, hcls⟩
    obtain ⟨cells', hx', hframe, hplaced⟩ := hx.write hc v
    rw [hcls] at hx' hplaced
    refine ⟨_, _, fun n hn => ?_, (if_neg fun hg => hg.1 hmem).symm, hx', hframe, ?_⟩
    · simp only [Held.index] at hrun
      simp [hrun n (Nat.lt_of_succ_lt hn), found]
    · exact iff_of_true (hplaced.2 hp) fun hg => (hg.1 hmem).elim
  · obtain ⟨heap₁, y, c, hins, hc, rfl, hsheet, hy, hframe, hplaced⟩ :=
      hx.insertEntry hp (hp.not_mem hx hnot)
    obtain ⟨cells', hx', hframe', hplaced'⟩ := hy.write hc v
    refine ⟨_, _, fun n hn => ?_, ?_, hx', hframe.trans hframe', hplaced'.trans hplaced⟩
    · simp only [Held.index] at hrun hins
      simp [hrun n (Nat.lt_of_succ_lt hn), notFound, hins n hn]
    · rw [hsheet, Sheet.set_set]

/-! ### Deletion -/

theorem Rep.deleteEntry (hx : Rep heap x) (hp : Placed x) (hi : i < x.core.bucketCount)
    (hcells : x.cells i = l ++ c :: l') :
    ∃ heap' x', deleteEntry heap x.core c.addr (l.getLast?.map Cell.addr) i =
        some (heap', x'.core) ∧
      x'.sheet = x.sheet.delete (h.cls c.key) ∧ Rep heap' x' ∧ Frame heap heap' x.all x'.all ∧
      Placed x' := by
  obtain ⟨heap', buckets, hrun, hholds, hfresh, hrw⟩ := hx.holds.deleteEntry hi hcells
  obtain ⟨rest, hall, hall'⟩ := allCells_update x.cells hi (l ++ l')
  rw [hcells] at hall
  have hperm : x.all.Perm (c :: (l ++ l' ++ rest)) :=
    hall.trans (List.perm_middle.append_right rest)
  refine ⟨heap', ⟨_, update x.cells i (l ++ l'), x.sheet.delete (h.cls c.key)⟩, hrun, rfl,
    ⟨hholds, hx.pos, hx.count, hx.bits, ?_, (hx.contents.perm hperm).erase.perm hall'.symm⟩,
    ⟨hrw.mono (addrs_subset (Nat.zero_le i) hi), fun a ha => .inl ?_⟩, ?_⟩
  · simp only [Held.all] at hperm ⊢
    rw [hx.entries, Held.all, hperm.length_eq, hall'.length_eq, length_cons]
    omega
  · exact (hperm.map _).symm.subset (mem_cons_of_mem _ ((hall'.map Cell.addr).subset ha))
  · refine (forall_update_iff x.cells fun j l => j < _ → ∀ d ∈ l, x.index (h.hasher d.key) = j).2
      ⟨fun _ d hd => hp i hi d ?_, fun j _ hj => hp j hj⟩
    rw [hcells]
    exact ((sublist_cons_self c l').append_left l).subset hd

theorem Sheet.delete_of_not_mem {s : Sheet h ν} {q : h.Class} (hq : q ∉ s.map)
    (hsub : s.copied ⊆ s.map.keys) : s.delete q = s := by
  have hcopied : q ∉ s.copied := fun hmem => hq (Finmap.mem_keys.1 (hsub hmem))
  rw [Sheet.delete, Entries.erase_of_notMem hq, Finset.erase_eq_of_notMem hcopied]

/-- **`Sg_HashTableDelete` deletes the key.** -/
theorem Rep.hashTableDelete [Inhabited ν] (hx : Rep heap x) (hp : Placed x) (key : κ) :
    ∃ heap' x', (∀ n > x.all.length,
        HashTable.hashTableDelete h n heap x.core key = some (heap', x'.core)) ∧
      x'.sheet = x.sheet.delete (h.cls key) ∧ Rep heap' x' ∧ Frame heap heap' x.all x'.all ∧
      Placed x' := by
  unfold HashTable.hashTableDelete generalAccess
  rcases hx.search key with ⟨l, c, l', hcells, hkey, hrun⟩ | ⟨hnot, hrun⟩
  · obtain ⟨heap', x', hdel, hsheet, hrest⟩ := hx.deleteEntry hp (hx.index_lt _) hcells
    refine ⟨heap', x', fun n hn => ?_, ?_, hrest⟩
    · simp only [Held.index] at hrun hdel
      simp [hrun n hn, found, hdel]
    · rw [hsheet, Hashing.cls_eq.2 (h.symm hkey)]
  · refine ⟨heap, x, fun n hn => ?_, ?_, hx, ⟨.refl _ _, fun a ha => .inl ha⟩, hp⟩
    · simp only [Held.index] at hrun
      simp [hrun n hn, notFound]
    · exact (Sheet.delete_of_not_mem (hp.not_mem hx hnot) hx.contents.subset).symm

/-! ### Whole tables -/

theorem round2upFrom_pos (val k : ℕ) {n : ℕ} (hn : 0 < n) : 0 < round2upFrom val k n := by
  induction k generalizing n with
  | zero => exact hn
  | succ k ih =>
    unfold round2upFrom
    split
    · refine ih ?_
      rw [Nat.shiftLeft_eq]
      exact Nat.mul_pos hn Nat.two_pos
    · exact hn

theorem rep_empty (heap : Heap κ ν) {core : SgHashCore} {sheet : Sheet h ν}
    (hpos : 0 < core.bucketCount) (hbuckets : ∀ i, core.buckets i = none)
    (hentries : core.entryCount = 0) (hmap : sheet.map = ∅) (hcopied : sheet.copied = ∅)
    (hcount : sheet.bucketCount = core.bucketCount) (hbits : sheet.bits = core.bucketsLog2Count) :
    Rep heap (⟨core, fun _ => [], sheet⟩ : Held h ν) := by
  refine ⟨⟨fun i _ => hbuckets i, fun _ _ => trivial, ?_, ?_⟩, hpos, hcount, hbits, ?_, ?_⟩
  · simp [allCells_empty]
  · simp [allCells_empty]
  · simp [Held.all, allCells_empty, hentries]
  · rw [hmap, hcopied, Held.all, allCells_empty]
    exact .nil

theorem rep_init (heap : Heap κ ν) (initSize : ℕ) :
    Rep heap (⟨hashCoreInit initSize, fun _ => [], .init h ν initSize⟩ : Held h ν) := by
  refine rep_empty heap ?_ (fun _ => rfl) rfl rfl rfl rfl rfl
  simp only [hashCoreInit, emptyCore]
  split
  · exact round2upFrom_pos _ _ Nat.one_pos
  · decide

theorem Rep.clear (hx : Rep heap x) (k : ℕ) :
    Rep heap (⟨hashCoreClear x.core k, fun _ => [], x.sheet.clear k⟩ : Held h ν) := by
  unfold hashCoreClear Sheet.clear
  split
  · exact rep_empty heap (round2upFrom_pos _ _ Nat.one_pos) (fun _ => rfl) rfl rfl rfl rfl rfl
  · exact rep_empty heap hx.pos (fun _ => rfl) rfl rfl rfl hx.count hx.bits

/-- **`Sg_HashCoreCopy` copies the table**, in new memory. -/
theorem Rep.hashCoreCopy (hx : Rep heap x) (hp : Placed x) :
    ∃ heap' x', (∀ n > x.all.length,
        HashTable.hashCoreCopy n heap x.core = some (heap', x'.core)) ∧
      x'.sheet = x.sheet.copy ∧ Rep heap' x' ∧ Frame heap heap' [] x'.all ∧ Placed x' := by
  obtain ⟨heap', b, cells', hrun, hcopies, haddrs, hrw⟩ :=
    hx.holds.copyBuckets x.core.bucketCount le_rfl
  have hpairs : (allCells cells' x.core.bucketCount).map (Cell.pair h) =
      x.all.map (Cell.pair h) := by
    rw [Held.all, allCells, allCells, cellsFrom, cellsFrom, map_flatMap, map_flatMap]
    refine flatMap_congr fun j hj => ?_
    obtain ⟨-, -, a, hcopy⟩ := hcopies j (by simpa using hj)
    rw [hcopy]
    exact map_copyCells (fun k v => (h.cls k, v)) a _
  have hzero : ∀ c ∈ allCells cells' x.core.bucketCount, c.hashValue = 0 := by
    intro c hc
    obtain ⟨j, hj, hcj⟩ := mem_allCells.1 hc
    obtain ⟨-, -, a, hcopy⟩ := hcopies j hj
    rw [hcopy] at hcj
    exact (mem_copyCells hcj).1
  refine ⟨heap', ⟨{ x.core with buckets := b }, cells', x.sheet.copy⟩, fun n hn => ?_, rfl,
    ⟨⟨fun j hj => (hcopies j hj).1, fun j hj => (hcopies j hj).2.1, ?_, fun a ha => ?_⟩, hx.pos,
      hx.count, hx.bits, ?_, hx.contents.copy hpairs hzero⟩,
    ⟨hrw, fun a ha => .inr ?_⟩, fun j hj c hc => ?_⟩
  · rw [HashTable.hashCoreCopy, hrun n fun j hj => (Held.length_chain_le hj).trans_lt hn]
    rfl
  · rw [haddrs]
    exact nodup_range'
  · have hlt := mem_range'_1.1 (haddrs ▸ ha)
    omega
  · have hlen := congrArg length hpairs
    rw [length_map, length_map] at hlen
    exact hx.entries.trans (congrArg Nat.cast hlen.symm)
  · exact (mem_range'_1.1 (haddrs ▸ ha)).1
  · obtain ⟨-, -, a, hcopy⟩ := hcopies j hj
    change c ∈ cells' j at hc
    rw [hcopy] at hc
    obtain ⟨-, d, hd, hkey, -⟩ := mem_copyCells hc
    rw [← hkey]
    exact hp j hj d hd

end Sagittarius.HashTable
