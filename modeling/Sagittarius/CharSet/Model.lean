import Sagittarius.TreeMap.Iteration

/-!
# Character sets

The character sets of `charset.c`: a bitmap for the characters below 128, and a tree map for the
others that maps the first character of a range to its last one.  As for tree maps, a function
returns `none` if it dereferences `NULL` or runs out of fuel.
-/

namespace Sagittarius.CharSet

open TreeMap

/-- `SG_CHAR_SET_SMALL_CHARS`: these have a bit each. -/
def smallChars : ℕ := 128

/-- `SG_CHAR_MAX`: the greatest character. -/
def charMax : ℕ := 0xffffff

/-- Bits for the small characters, a tree of ranges for the others. -/
structure SgCharSet where
  /-- the array of `SG_CHAR_SET_SMALL_CHARS` flags -/
  small : ℕ → Bool
  large : SgTreeMap ℕ ℕ

/-- An empty character set. -/
def SgCharSet.empty : SgCharSet := ⟨fun _ => false, .empty⟩

/-- `e->value = v`: sets the end of a range. -/
def setValue (tm : SgTreeMap ℕ ℕ) (e v : ℕ) : SgTreeMap ℕ ℕ :=
  tm.modify e fun n => { n with value := v }

/-- `Sg_TreeMapCoreSet`: stores a range. -/
def treeMapCoreSet (n : ℕ) (tm : SgTreeMap ℕ ℕ) (k v : ℕ) : Option (SgTreeMap ℕ ℕ × ℕ) := do
  let (tm, e) ← tm.rbSet n k
  some (setValue tm e v, e)

/-- `bit_fill` with `TRUE` -/
def bitFill (small : ℕ → Bool) (start stop : ℕ) : ℕ → Bool :=
  fun i => if start ≤ i ∧ i < stop then true else small i

/-- The loop of `Sg_CharSetAddRange` that sets up the upper bound of `e`.  What is read from `hi`
after the deletion is what the memory holds then. -/
def upperBoundLoop (n : ℕ) (e stop : ℕ) :
    ℕ → SgTreeMap ℕ ℕ → ℕ → Option (SgTreeMap ℕ ℕ)
  | 0, _, _ => none
  | k + 1, tm, hi => do
    let m ← tm.mem hi
    match ← tm.getHigherEntry n m.key with
    | none => some (setValue tm e stop)
    | some hi => do
      let m ← tm.mem hi
      if m.key > stop + 1 then some (setValue tm e stop)
      else do
        let (tm, _) ← tm.rbDelete n m.key
        let m ← tm.mem hi
        if m.value > stop then some (setValue tm e m.value)
        else upperBoundLoop n e stop k tm hi

/-- The lower neighbour if it reaches `start`, else a new range. -/
def newLowerBound (n : ℕ) (tm : SgTreeMap ℕ ℕ) (start : ℕ) (lo : Option ℕ) :
    Option (SgTreeMap ℕ ℕ × ℕ) :=
  match lo with
  | none => treeMapCoreSet n tm start 0
  | some lo => do
    let m ← tm.mem lo
    if m.value < start - 1 then treeMapCoreSet n tm start 0 else some (tm, lo)

/-- The entry that has the lower bound in `Sg_CharSetAddRange` -/
def lowerBound (n : ℕ) (tm : SgTreeMap ℕ ℕ) (start : ℕ) : Option (SgTreeMap ℕ ℕ × ℕ) := do
  let e ← tm.getEntry n start
  let lo ← tm.getLowerEntry n start
  match e with
  | some e => some (tm, e)
  | none => newLowerBound n tm start lo

/-- The part of `Sg_CharSetAddRange` for the characters in the tree -/
def addLarge (n : ℕ) (tm : SgTreeMap ℕ ℕ) (start stop : ℕ) : Option (SgTreeMap ℕ ℕ) := do
  let (tm, e) ← lowerBound n tm start
  let m ← tm.mem e
  if m.value ≥ stop then some tm else upperBoundLoop n e stop n tm e

/-- `Sg_CharSetAddRange`: adds a range. -/
def addRange (n : ℕ) (cs : SgCharSet) (start stop : ℕ) : Option SgCharSet :=
  if stop < start then some cs
  else if start < smallChars then
    if stop < smallChars then some { cs with small := bitFill cs.small start (stop + 1) }
    else (addLarge n cs.large smallChars stop).map fun tm =>
      ⟨bitFill cs.small start smallChars, tm⟩
  else (addLarge n cs.large start stop).map fun tm => { cs with large := tm }

/-- The loop of `Sg_CharSetAdd` -/
def addLoop (n : ℕ) (src : SgTreeMap ℕ ℕ) : ℕ → SgCharSet → SgTreeIter → Option SgCharSet
  | 0, _, _ => none
  | k + 1, dest, iter => do
    let (iter, e) ← src.iterNext n iter
    match e with
    | none => some dest
    | some e => do
      let m ← src.mem e
      let dest ← addRange n dest m.key m.value
      addLoop n src k dest iter

/-- `Sg_CharSetAdd`, for two different sets -/
def add (n : ℕ) (dest src : SgCharSet) : Option SgCharSet :=
  addLoop n src.large n { dest with small := fun i => dest.small i || src.small i } .init

/-- Adds the range between `last` and `stop`, if there is any. -/
def addGap (n : ℕ) (tm : SgTreeMap ℕ ℕ) (last stop : ℕ) : Option (SgTreeMap ℕ ℕ) :=
  if last < stop then (treeMapCoreSet n tm (last + 1) stop).map Prod.fst else some tm

/-- The loop of `Sg_CharSetComplement`; returns `last`, too.  What is read from `e` after the
deletion is what the memory holds then. -/
def complementLoop (n : ℕ) : ℕ → SgTreeMap ℕ ℕ → ℕ → Option (SgTreeMap ℕ ℕ × ℕ)
  | 0, _, _ => none
  | k + 1, tm, last => do
    match ← tm.getHigherEntry n last with
    | none => some (tm, last)
    | some e => do
      let m ← tm.mem e
      let (tm, _) ← tm.rbDelete n m.key
      let m ← tm.mem e
      let tm ← addGap n tm last (m.key - 1)
      complementLoop n k tm m.value

/-- `Sg_CharSetComplement`: the other characters. -/
def complement (n : ℕ) (cs : SgCharSet) : Option SgCharSet := do
  let (tm, last) ← complementLoop n n cs.large (smallChars - 1)
  let tm ← addGap n tm last charMax
  some ⟨fun i => !cs.small i, tm⟩

/-- `Sg_CharSetContains`: looks for a character. -/
def contains (n : ℕ) (cs : SgCharSet) (c : ℕ) : Option Bool :=
  if c < smallChars then some (cs.small c)
  else do
    match ← cs.large.getEntry n c with
    | some _ => some true
    | none =>
      match ← cs.large.getLowerEntry n c with
      | none => some false
      | some l => (cs.large.mem l).map fun m => decide (m.value ≥ c)

end Sagittarius.CharSet
