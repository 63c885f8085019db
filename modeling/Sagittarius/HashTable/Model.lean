import Mathlib.Data.Nat.Log
import Mathlib.Logic.Function.Basic

/-!
# Hash tables

The hash tables of `hashtable.c`: buckets of entries that are linked in memory.  A pointer is `none`
for `NULL`; a function returns `none` if it dereferences `NULL`, or if a loop does not end within
the fuel that it was given.
-/

namespace Sagittarius.HashTable

/-- The two procedures of a table: an equivalence, and a hash function that respects it. -/
structure Hashing (κ : Type) where
  hasher : κ → UInt32
  compare : κ → κ → Bool
  refl (a : κ) : compare a a = true
  symm {a b : κ} : compare a b = true → compare b a = true
  trans {a b c : κ} : compare a b = true → compare b c = true → compare a c = true
  hash_eq {a b : κ} : compare a b = true → hasher a = hasher b

/-- An entry of a chain. -/
structure Entry (κ ν : Type) where
  key : κ
  value : ν
  next : Option ℕ
  hashValue : UInt32

/-- The memory that the entries of all tables are in -/
structure Heap (κ ν : Type) where
  mem : ℕ → Option (Entry κ ν)
  fresh : ℕ

/-- The buckets and the counts. -/
structure SgHashCore where
  buckets : ℕ → Option ℕ
  bucketCount : ℕ
  entryCount : ℤ
  bucketsLog2Count : ℕ

/-- The buckets of a new table. -/
def defaultBucketCount : ℕ := 4

/-- `MAX_AVG_CHAIN_LIMIS`: a longer average makes a table grow. -/
def maxAvgChainLimits : ℕ := 3

/-- A table grows by this power of two. -/
def extendBits : ℕ := 2

/-- The bucket of a hash value. -/
def hash2index (tabsize bits : ℕ) (hashval : UInt32) : ℕ :=
  (hashval + (hashval >>> UInt32.ofNat (32 - bits))).toNat &&& (tabsize - 1)

variable {κ ν : Type}

/-- Assign to fields of an entry. -/
def Heap.modify (heap : Heap κ ν) (p : ℕ) (f : Entry κ ν → Entry κ ν) : Heap κ ν :=
  { heap with mem := fun a => if a = p then (heap.mem p).map f else heap.mem a }

/-- `p->next = q`: links an entry. -/
def Heap.setNext (heap : Heap κ ν) (p : ℕ) (q : Option ℕ) : Heap κ ν :=
  heap.modify p fun e => { e with next := q }

/-- `SG_NEW(Entry)`, and the assignments to its fields -/
def Heap.alloc (heap : Heap κ ν) (e : Entry κ ν) : Heap κ ν where
  mem a := if a = heap.fresh then some e else heap.mem a
  fresh := heap.fresh + 1

/-! ### Iteration -/

/-- A bucket and the next entry. -/
structure SgHashIter where
  bucket : ℕ
  next : Option ℕ

/-- `for (; i < core->bucketCount; i++) if (core->buckets[i]) …`: the first bucket from `i` on that
is not empty, and what it points to. -/
def findBucket (core : SgHashCore) (i : ℕ) : Option (ℕ × ℕ) :=
  (List.range' i (core.bucketCount - i)).findSome? fun i => (core.buckets i).map (i, ·)

/-- An iterator at the first entry. -/
def hashIterInit (core : SgHashCore) : SgHashIter :=
  match findBucket core 0 with
  | some (i, e) => ⟨i, some e⟩
  | none => ⟨0, none⟩

/-- Takes an entry. -/
def hashIterNext (heap : Heap κ ν) (core : SgHashCore) (itr : SgHashIter) :
    Option (SgHashIter × Option ℕ) :=
  match itr.next with
  | none => some (itr, none)
  | some e => do
    let m ← heap.mem e
    match m.next with
    | some f => some (⟨itr.bucket, some f⟩, some e)
    | none =>
      match findBucket core (itr.bucket + 1) with
      | some (i, f) => some (⟨i, some f⟩, some e)
      | none => some (⟨itr.bucket, none⟩, some e)

/-- The keys and the values that an iterator returns -/
def iterate (heap : Heap κ ν) (core : SgHashCore) : ℕ → SgHashIter → Option (List (κ × ν))
  | 0, _ => none
  | n + 1, itr => do
    let (itr, e) ← hashIterNext heap core itr
    match e with
    | none => some []
    | some e => do
      let m ← heap.mem e
      let rest ← iterate heap core n itr
      some ((m.key, m.value) :: rest)

/-! ### Insertion -/

/-- The loop of `insert_entry` that relinks the entries, in the order of an iterator over the old
buckets. -/
def rebucket (core : SgHashCore) (newsize newbits : ℕ) :
    ℕ → Heap κ ν → (ℕ → Option ℕ) → SgHashIter → Option (Heap κ ν × (ℕ → Option ℕ))
  | 0, _, _, _ => none
  | n + 1, heap, newb, itr => do
    let (itr, f) ← hashIterNext heap core itr
    match f with
    | none => some (heap, newb)
    | some f => do
      let m ← heap.mem f
      let index := hash2index newsize newbits m.hashValue
      rebucket core newsize newbits n (heap.setNext f (newb index))
        (Function.update newb index (some f)) itr

/-- The part of `insert_entry` that extends the table -/
def extend (n : ℕ) (heap : Heap κ ν) (table : SgHashCore) : Option (Heap κ ν × SgHashCore) := do
  let newsize := table.bucketCount <<< extendBits
  let newbits := table.bucketsLog2Count + extendBits
  let (heap, newb) ← rebucket table newsize newbits n heap (fun _ => none) (hashIterInit table)
  some (heap, { table with buckets := newb, bucketCount := newsize, bucketsLog2Count := newbits })

/-- A new entry at the head of its chain. -/
def insertEntry [Inhabited ν] (n : ℕ) (heap : Heap κ ν) (table : SgHashCore) (key : κ)
    (hashval : UInt32) (index : ℕ) : Option (Heap κ ν × SgHashCore × ℕ) :=
  let e := heap.fresh
  let heap := heap.alloc ⟨key, default, table.buckets index, hashval⟩
  let table : SgHashCore := { table with
    buckets := Function.update table.buckets index (some e)
    entryCount := table.entryCount + 1 }
  if table.entryCount > table.bucketCount * maxAvgChainLimits then
    (extend n heap table).map fun (heap, table) => (heap, table, e)
  else some (heap, table, e)

/-! ### Access -/

/-- Unlinks an entry. -/
def deleteEntry (heap : Heap κ ν) (table : SgHashCore) (entry : ℕ) (prev : Option ℕ) (index : ℕ) :
    Option (Heap κ ν × SgHashCore) := do
  let m ← heap.mem entry
  let table := { table with entryCount := table.entryCount - 1 }
  match prev with
  | some p => some ((heap.setNext p m.next).setNext entry none, table)
  | none => some (heap.setNext entry none,
      { table with buckets := Function.update table.buckets index m.next })

/-- What an access is for. -/
inductive SgDictOp
  | get | create | delete
  deriving DecidableEq

/-- The loop of `general_access`: an entry for the key, and the entry before it -/
def search (h : Hashing κ) (heap : Heap κ ν) (key : κ) :
    ℕ → Option ℕ → Option ℕ → Option (Option (ℕ × Option ℕ))
  | 0, _, _ => none
  | _ + 1, none, _ => some none
  | n + 1, some e, p => do
    let m ← heap.mem e
    if h.compare key m.key then some (some (e, p)) else search h heap key n m.next (some e)

/-- The key has an entry. -/
def found (heap : Heap κ ν) (table : SgHashCore) (op : SgDictOp) (e : ℕ) (p : Option ℕ)
    (index : ℕ) : Option (Heap κ ν × SgHashCore × Option ℕ) :=
  if op = .delete then
    (deleteEntry heap table e p index).map fun (heap, table) => (heap, table, some e)
  else some (heap, table, some e)

/-- The key has no entry. -/
def notFound [Inhabited ν] (n : ℕ) (heap : Heap κ ν) (table : SgHashCore) (op : SgDictOp) (key : κ)
    (hashval : UInt32) (index : ℕ) : Option (Heap κ ν × SgHashCore × Option ℕ) :=
  if op = .create then
    (insertEntry n heap table key hashval index).map fun (heap, table, e) => (heap, table, some e)
  else some (heap, table, none)

/-- Looks for the key, and does `op`. -/
def generalAccess [Inhabited ν] (h : Hashing κ) (n : ℕ) (heap : Heap κ ν) (table : SgHashCore)
    (key : κ) (op : SgDictOp) : Option (Heap κ ν × SgHashCore × Option ℕ) := do
  let hashval := h.hasher key
  let index := hash2index table.bucketCount table.bucketsLog2Count hashval
  match ← search h heap key n (table.buckets index) none with
  | some (e, p) => found heap table op e p index
  | none => notFound n heap table op key hashval index

/-- `Sg_HashTableRef`: looks up a key. -/
def hashTableRef [Inhabited ν] (h : Hashing κ) (n : ℕ) (heap : Heap κ ν) (table : SgHashCore)
    (key : κ) : Option (Option ν) := do
  let (heap, _, e) ← generalAccess h n heap table key .get
  match e with
  | none => some none
  | some e => (heap.mem e).map fun m => some m.value

/-- `Sg_HashTableSet`, without flags -/
def hashTableSet [Inhabited ν] (h : Hashing κ) (n : ℕ) (heap : Heap κ ν) (table : SgHashCore)
    (key : κ) (value : ν) : Option (Heap κ ν × SgHashCore) := do
  let (heap, table, e) ← generalAccess h n heap table key .create
  let e ← e
  some (heap.modify e fun m => { m with value := value }, table)

/-- `Sg_HashTableDelete`: deletes a key. -/
def hashTableDelete [Inhabited ν] (h : Hashing κ) (n : ℕ) (heap : Heap κ ν) (table : SgHashCore)
    (key : κ) : Option (Heap κ ν × SgHashCore) :=
  (generalAccess h n heap table key .delete).map fun (heap, table, _) => (heap, table)

/-! ### Whole tables -/

/-- The loop of `round2up` -/
def round2upFrom (val : ℕ) : ℕ → ℕ → ℕ
  | 0, n => n
  | k + 1, n => if n < val then round2upFrom val k (n <<< 1) else n

/-- The next power of two. -/
def round2up (val : ℕ) : ℕ := round2upFrom val val 1

/-- A table without entries that has so many buckets -/
def emptyCore (count : ℕ) : SgHashCore where
  buckets _ := none
  bucketCount := count
  entryCount := 0
  bucketsLog2Count := count.log2

/-- An empty table. -/
def hashCoreInit (initSize : ℕ) : SgHashCore :=
  emptyCore (if initSize ≠ 0 then round2up initSize else defaultBucketCount)

/-- `Sg_HashCoreClear`: empties the table. -/
def hashCoreClear (ht : SgHashCore) (k : ℕ) : SgHashCore :=
  if k > 0 then emptyCore (round2up k)
  else { ht with buckets := fun _ => none, entryCount := 0 }

/-- The copy of a chain in `Sg_HashCoreCopy`: `s` is what is left of it, `head` is the copy, and `p`
its last entry.  The field `hashValue` of a copied entry is that of cleared memory. -/
def copyChain : ℕ → Heap κ ν → Option ℕ → Option ℕ → Option ℕ → Option (Heap κ ν × Option ℕ)
  | 0, _, _, _, _ => none
  | _ + 1, heap, head, _, none => some (heap, head)
  | n + 1, heap, head, p, some s => do
    let m ← heap.mem s
    let e := heap.fresh
    let heap := heap.alloc ⟨m.key, m.value, none, 0⟩
    match p with
    | none => copyChain n heap (some e) (some e) m.next
    | some p => copyChain n (heap.setNext p (some e)) head (some e) m.next

/-- The copies of the first `i` buckets -/
def copyBuckets (n : ℕ) (src : SgHashCore) (heap : Heap κ ν) :
    ℕ → Option (Heap κ ν × (ℕ → Option ℕ))
  | 0 => some (heap, fun _ => none)
  | i + 1 => do
    let (heap, b) ← copyBuckets n src heap i
    let (heap, head) ← copyChain n heap none none (src.buckets i)
    some (heap, Function.update b i head)

/-- `Sg_HashCoreCopy`: copies all chains. -/
def hashCoreCopy (n : ℕ) (heap : Heap κ ν) (src : SgHashCore) :
    Option (Heap κ ν × SgHashCore) := do
  let (heap, b) ← copyBuckets n src heap src.bucketCount
  some (heap, { src with buckets := b })

/-! ### Any number of tables -/

/-- The tables of a program -/
structure Store (κ ν : Type) where
  heap : Heap κ ν
  tables : List SgHashCore

/-- No table has been made yet. -/
def Store.empty : Store κ ν := ⟨⟨fun _ => none, 0⟩, []⟩

/-- An operation on the table with a number -/
inductive Op (κ ν : Type)
  | create (initSize : ℕ)
  | set (table : ℕ) (key : κ) (value : ν)
  | delete (table : ℕ) (key : κ)
  | clear (table : ℕ) (k : ℕ)
  | copy (table : ℕ)

/-- An operation that changes one of the tables -/
def Store.update (s : Store κ ν) (t : ℕ)
    (f : Heap κ ν → SgHashCore → Option (Heap κ ν × SgHashCore)) : Option (Store κ ν) :=
  match s.tables[t]? with
  | none => some s
  | some table => (f s.heap table).map fun (heap, table) => ⟨heap, s.tables.set t table⟩

/-- The operation; nothing is done for a table that does not exist. -/
def Op.run [Inhabited ν] (h : Hashing κ) (n : ℕ) (s : Store κ ν) : Op κ ν → Option (Store κ ν)
  | .create initSize => some { s with tables := s.tables ++ [hashCoreInit initSize] }
  | .set t key value => s.update t fun heap table => hashTableSet h n heap table key value
  | .delete t key => s.update t fun heap table => hashTableDelete h n heap table key
  | .clear t k => s.update t fun heap table => some (heap, hashCoreClear table k)
  | .copy t =>
    match s.tables[t]? with
    | none => some s
    | some src => (hashCoreCopy n s.heap src).map fun (heap, dst) => ⟨heap, s.tables ++ [dst]⟩

/-- A sequence of operations from the beginning -/
def run [Inhabited ν] (h : Hashing κ) (n : ℕ) (ops : List (Op κ ν)) : Option (Store κ ν) :=
  ops.foldlM (Op.run h n) .empty

end Sagittarius.HashTable
