import Mathlib.Order.Compare
import Sagittarius.Library.BinaryTree

/-!
# Tree maps

The red-black trees of `rbtree.c`: nodes in memory that point to their children and to their
parent.  A pointer is `none` for `NULL`; a function returns `none` if it dereferences `NULL`, or if
a loop does not end within the fuel that it was given.

Where the source has a case for the left and its mirror image for the right, the model has one
definition for a side: `rotateLeft` is `rotate .left`.
-/

namespace Sagittarius.TreeMap

variable {κ ν : Type}

/-- `node_t`: a node of the tree. -/
structure Node (κ ν : Type) where
  key : κ
  value : ν
  color : Color
  parent : Option ℕ
  child : Side → Option ℕ

/-- `SgTreeMap`, with the memory that the nodes are in -/
structure SgTreeMap (κ ν : Type) where
  /-- the nodes that have been allocated -/
  mem : ℕ → Option (Node κ ν)
  fresh : ℕ
  root : Option ℕ
  entryCount : ℤ

/-- An empty map. -/
def SgTreeMap.empty : SgTreeMap κ ν where
  mem _ := none
  fresh := 0
  root := none
  entryCount := 0

namespace SgTreeMap

/-! ### Access to nodes -/

/-- Assign to fields of a node. -/
def modify (tm : SgTreeMap κ ν) (p : ℕ) (f : Node κ ν → Node κ ν) : SgTreeMap κ ν :=
  { tm with mem := fun a => if a = p then (tm.mem p).map f else tm.mem a }

/-- `p->left = c` or `p->right = c` -/
def setChild (tm : SgTreeMap κ ν) (p : ℕ) (d : Side) (c : Option ℕ) : SgTreeMap κ ν :=
  tm.modify p fun n => { n with child := pick d c (n.child d.opp) }

/-- `p->parent = q`: sets the parent. -/
def setParent (tm : SgTreeMap κ ν) (p : ℕ) (q : Option ℕ) : SgTreeMap κ ν :=
  tm.modify p fun n => { n with parent := q }

/-- Sets the parent unless `p` is `NULL`. -/
def reparent (tm : SgTreeMap κ ν) (p q : Option ℕ) : SgTreeMap κ ν :=
  match p with
  | none => tm
  | some p => tm.setParent p q

/-- Sets the colour, unless of `NULL`. -/
def setColor (tm : SgTreeMap κ ν) (n : Option ℕ) (color : Color) : SgTreeMap κ ν :=
  match n with
  | none => tm
  | some n => tm.modify n fun n => { n with color := color }

/-- The parent, `NULL` for `NULL`. -/
def parentOf (tm : SgTreeMap κ ν) (p : Option ℕ) : Option ℕ :=
  p.bind fun p => (tm.mem p).bind Node.parent

/-- `left_of` and `right_of`; `NULL` for `NULL`. -/
def childOf (tm : SgTreeMap κ ν) (d : Side) (p : Option ℕ) : Option ℕ :=
  p.bind fun p => (tm.mem p).bind fun n => n.child d

/-- The colour, black for `NULL`. -/
def colorOf (tm : SgTreeMap κ ν) (p : Option ℕ) : Color :=
  ((p.bind tm.mem).map Node.color).getD .black

/-- `new_node`; the memory that is allocated has been cleared. -/
def newNode [Inhabited ν] (tm : SgTreeMap κ ν) (key : κ) (parent : Option ℕ) : SgTreeMap κ ν × ℕ :=
  ({ tm with
      mem := fun a => if a = tm.fresh then some ⟨key, default, .black, parent, fun _ => none⟩
        else tm.mem a
      fresh := tm.fresh + 1 }, tm.fresh)

/-! ### Rotations -/

/-- `c` takes the place of `p` below `parent`; the child on the side `d` is looked at first. -/
def replaceChild (tm : SgTreeMap κ ν) (d : Side) (parent : Option ℕ) (p : ℕ) (c : Option ℕ) :
    Option (SgTreeMap κ ν) :=
  match parent with
  | none => some { tm with root := c }
  | some q => do
    let n ← tm.mem q
    some (tm.setChild q (if n.child d = some p then d else d.opp) c)

/-- `rotate_left` for the side `left`, `rotate_right` for `right` -/
def rotate (d : Side) (tm : SgTreeMap κ ν) : Option ℕ → Option (SgTreeMap κ ν)
  | none => some tm
  | some p => do
    let n ← tm.mem p
    let r ← n.child d.opp
    let m ← tm.mem r
    let tm := tm.setChild p d.opp (m.child d)
    let tm := tm.reparent (m.child d) (some p)
    let tm := tm.setParent r (tm.parentOf (some p))
    let tm ← tm.replaceChild d (tm.parentOf (some p)) p (some r)
    let tm := tm.setChild r d (some p)
    some (tm.setParent p (some r))

/-- The right child goes up. -/
def rotateLeft : SgTreeMap κ ν → Option ℕ → Option (SgTreeMap κ ν) := rotate .left

/-- The left child goes up. -/
def rotateRight : SgTreeMap κ ν → Option ℕ → Option (SgTreeMap κ ν) := rotate .right

/-! ### Insertion -/

/-- `if (x == RIGHT_OF(PARENT_OF(x))) { x = PARENT_OF(x); rotate_left(tm, x); }` for the side
`left` -/
def turnOutwards (d : Side) (tm : SgTreeMap κ ν) (x : Option ℕ) :
    Option (SgTreeMap κ ν × Option ℕ) :=
  if x = tm.childOf d.opp (tm.parentOf x) then
    (rotate d tm (tm.parentOf x)).map (·, tm.parentOf x)
  else some (tm, x)

/-- A round of the loop of `fix_after_insertion`, when the parent of `x` is on the side `d`. -/
def insertionRound (d : Side) (tm : SgTreeMap κ ν) (x : Option ℕ) :
    Option (SgTreeMap κ ν × Option ℕ) :=
  let y := tm.childOf d.opp (tm.parentOf (tm.parentOf x))
  if tm.colorOf y = .red then
    let tm := tm.setColor (tm.parentOf x) .black
    let tm := tm.setColor y .black
    let tm := tm.setColor (tm.parentOf (tm.parentOf x)) .red
    some (tm, tm.parentOf (tm.parentOf x))
  else do
    let (tm, x) ← turnOutwards d tm x
    let tm := tm.setColor (tm.parentOf x) .black
    let tm := tm.setColor (tm.parentOf (tm.parentOf x)) .red
    let tm ← rotate d.opp tm (tm.parentOf (tm.parentOf x))
    some (tm, x)

/-- The two branches of the loop of `fix_after_insertion` -/
def insertionBranch (tm : SgTreeMap κ ν) (x : Option ℕ) : Option (SgTreeMap κ ν × Option ℕ) :=
  if tm.parentOf x = tm.childOf .left (tm.parentOf (tm.parentOf x)) then insertionRound .left tm x
  else insertionRound .right tm x

/-- The loop of `fix_after_insertion` -/
def insertionLoop : ℕ → SgTreeMap κ ν → Option ℕ → Option (SgTreeMap κ ν)
  | 0, _, _ => none
  | n + 1, tm, x =>
    match x with
    | none => some tm
    | some a =>
      if tm.root = x then some tm
      else do
        let m ← tm.mem a
        let p ← m.parent
        let m ← tm.mem p
        if m.color = .red then
          let (tm, x) ← insertionBranch tm x
          insertionLoop n tm x
        else some tm

/-- Restores the balance. -/
def fixAfterInsertion (n : ℕ) (tm : SgTreeMap κ ν) (x : ℕ) : Option (SgTreeMap κ ν) := do
  let tm ← insertionLoop n (tm.setColor (some x) .red) (some x)
  let root ← tm.root
  some (tm.setColor (some root) .black)

section

variable [LinearOrder κ]

/-- `get_entry`, from a node on -/
def getEntryFrom (tm : SgTreeMap κ ν) (key : κ) : ℕ → Option ℕ → Option (Option ℕ)
  | 0, _ => none
  | _ + 1, none => some none
  | n + 1, some p => do
    let m ← tm.mem p
    match cmp key m.key with
    | .lt => getEntryFrom tm key n (m.child .left)
    | .gt => getEntryFrom tm key n (m.child .right)
    | .eq => some (some p)

/-- Looks up a key. -/
def getEntry (n : ℕ) (tm : SgTreeMap κ ν) (key : κ) : Option (Option ℕ) :=
  tm.getEntryFrom key n tm.root

/-- The loop of `rb_set`: the entry for the key, or the node below which it is missing. -/
def insertionPoint (tm : SgTreeMap κ ν) (key : κ) : ℕ → ℕ → Option (ℕ ⊕ ℕ × Side)
  | 0, _ => none
  | n + 1, t => do
    let m ← tm.mem t
    match cmp key m.key with
    | .lt =>
      match m.child .left with
      | none => some (.inr (t, .left))
      | some t => insertionPoint tm key n t
    | .gt =>
      match m.child .right with
      | none => some (.inr (t, .right))
      | some t => insertionPoint tm key n t
    | .eq => some (.inl t)

/-- The entry of a key, a new one if needed. -/
def rbSet [Inhabited ν] (n : ℕ) (tm : SgTreeMap κ ν) (key : κ) : Option (SgTreeMap κ ν × ℕ) :=
  match tm.root with
  | none =>
    let (tm, e) := tm.newNode key none
    some ({ tm with root := some e, entryCount := tm.entryCount + 1 }, e)
  | some t => do
    match ← tm.insertionPoint key n t with
    | .inl t => some (tm, t)
    | .inr (parent, d) =>
      let (tm, e) := tm.newNode key (some parent)
      let tm ← fixAfterInsertion n (tm.setChild parent d (some e)) e
      some ({ tm with entryCount := tm.entryCount + 1 }, e)

end

/-! ### Deletion -/

/-- The first part of a round of `fix_after_deletion`: a red sibling is rotated away.  Returns the
sibling, too. -/
def redSibling (d : Side) (tm : SgTreeMap κ ν) (x : Option ℕ) :
    Option (SgTreeMap κ ν × Option ℕ) :=
  let sib := tm.childOf d.opp (tm.parentOf x)
  if tm.colorOf sib = .red then do
    let tm := tm.setColor sib .black
    let tm := tm.setColor (tm.parentOf x) .red
    let tm ← rotate d tm (tm.parentOf x)
    some (tm, tm.childOf d.opp (tm.parentOf x))
  else some (tm, sib)

/-- The red child of the sibling is brought to the side opposite to `x`. -/
def innerNephew (d : Side) (tm : SgTreeMap κ ν) (x sib : Option ℕ) :
    Option (SgTreeMap κ ν × Option ℕ) :=
  if tm.colorOf (tm.childOf d.opp sib) = .black then do
    let tm := tm.setColor (tm.childOf d sib) .black
    let tm := tm.setColor sib .red
    let tm ← rotate d.opp tm sib
    some (tm, tm.childOf d.opp (tm.parentOf x))
  else some (tm, sib)

/-- The last part of a round: the sibling has a red child, and `x` becomes the root. -/
def redNephew (d : Side) (tm : SgTreeMap κ ν) (x sib : Option ℕ) :
    Option (SgTreeMap κ ν × Option ℕ) := do
  let (tm, sib) ← innerNephew d tm x sib
  let tm := tm.setColor sib (tm.colorOf (tm.parentOf x))
  let tm := tm.setColor (tm.parentOf x) .black
  let tm := tm.setColor (tm.childOf d.opp sib) .black
  let tm ← rotate d tm (tm.parentOf x)
  some (tm, tm.root)

/-- The part of a round behind the first one.  When both children of the sibling are black, the
sibling of a right child becomes red; the sibling of a left child keeps its colour. -/
def nephews (d : Side) (tm : SgTreeMap κ ν) (x sib : Option ℕ) :
    Option (SgTreeMap κ ν × Option ℕ) :=
  match d with
  | .left =>
    if tm.colorOf (tm.childOf .left sib) = .black ∧ tm.colorOf (tm.childOf .right sib) = .black then
      some (tm, tm.parentOf x)
    else redNephew .left tm x sib
  | .right =>
    if tm.colorOf (tm.childOf .right sib) = .black ∧ tm.colorOf (tm.childOf .left sib) = .black then
      let tm := tm.setColor sib .red
      some (tm, tm.parentOf x)
    else redNephew .right tm x sib

/-- A round of the loop of `fix_after_deletion`, when `x` is on the side `d`. -/
def deletionRound (d : Side) (tm : SgTreeMap κ ν) (x : Option ℕ) :
    Option (SgTreeMap κ ν × Option ℕ) := do
  let (tm, sib) ← redSibling d tm x
  nephews d tm x sib

/-- The two branches of the loop of `fix_after_deletion` -/
def deletionBranch (tm : SgTreeMap κ ν) (x : Option ℕ) : Option (SgTreeMap κ ν × Option ℕ) :=
  if x = tm.childOf .left (tm.parentOf x) then deletionRound .left tm x
  else deletionRound .right tm x

/-- Restores the balance. -/
def fixAfterDeletion : ℕ → SgTreeMap κ ν → Option ℕ → Option (SgTreeMap κ ν)
  | 0, _, _ => none
  | n + 1, tm, x =>
    if x ≠ tm.root ∧ tm.colorOf x = .black then do
      let (tm, x) ← deletionBranch tm x
      fixAfterDeletion n tm x
    else some tm

/-- `while (p->left != NULL) p = p->left;` for the side `left` -/
def outermost (d : Side) (tm : SgTreeMap κ ν) : ℕ → ℕ → Option ℕ
  | 0, _ => none
  | n + 1, p => do
    let m ← tm.mem p
    match m.child d with
    | none => some p
    | some p => outermost d tm n p

/-- Goes up as long as it comes from the side `d`. -/
def climb (tm : SgTreeMap κ ν) (d : Side) : ℕ → ℕ → Option ℕ → Option (Option ℕ)
  | 0, _, _ => none
  | _ + 1, _, none => some none
  | n + 1, ch, some p => do
    let m ← tm.mem p
    if some ch = m.child d then climb tm d n p m.parent else some (some p)

/-- The next entry, coming from the side `d`: the outermost one of the other subtree, or the first
one above that is not passed on the way back. -/
def adjacent (d : Side) (n : ℕ) (tm : SgTreeMap κ ν) (t : ℕ) : Option (Option ℕ) := do
  let m ← tm.mem t
  match m.child d.opp with
  | some p => (tm.outermost d n p).map some
  | none => tm.climb d.opp n t m.parent

/-- `successor` comes from the left. -/
def successor : ℕ → SgTreeMap κ ν → ℕ → Option (Option ℕ) := adjacent .left

/-- `predecessor` is its mirror image. -/
def predecessor : ℕ → SgTreeMap κ ν → ℕ → Option (Option ℕ) := adjacent .right

/-- Restores the balance if a black node was removed. -/
def fixIfBlack (n : ℕ) (tm : SgTreeMap κ ν) (color : Color) (x : ℕ) : Option (SgTreeMap κ ν) :=
  if color = .black then fixAfterDeletion n tm (some x) else some tm

/-- Clears the links of a node. -/
def isolate (tm : SgTreeMap κ ν) (p : ℕ) : SgTreeMap κ ν :=
  tm.modify p fun n => { n with child := fun _ => none, parent := none }

/-- `p` leaves its parent. -/
def unlink (tm : SgTreeMap κ ν) (p : ℕ) : SgTreeMap κ ν :=
  match tm.parentOf (some p) with
  | none => tm
  | some q =>
    let tm := if some p = tm.childOf .left (some q) then tm.setChild q .left none
      else if some p = tm.childOf .right (some q) then tm.setChild q .right none
      else tm
    tm.setParent p none

/-- The last part of `delete_entry`: `p` has at most one child and leaves the tree. -/
def splice (n : ℕ) (tm : SgTreeMap κ ν) (p : ℕ) : Option (SgTreeMap κ ν) := do
  let m ← tm.mem p
  match (m.child .left).or (m.child .right) with
  | some replacement =>
    let tm := tm.setParent replacement m.parent
    let tm ← tm.replaceChild .left m.parent p (some replacement)
    fixIfBlack n (tm.isolate p) m.color replacement
  | none =>
    if m.parent = none then some { tm with root := none }
    else (fixIfBlack n tm m.color p).map (·.unlink p)

/-- Unlinks a node. -/
def deleteEntry (n : ℕ) (tm : SgTreeMap κ ν) (p : ℕ) : Option (SgTreeMap κ ν) := do
  let tm := { tm with entryCount := tm.entryCount - 1 }
  let m ← tm.mem p
  if (m.child .left).isSome ∧ (m.child .right).isSome then do
    let s ← (← tm.successor n p)
    let sm ← tm.mem s
    splice n (tm.modify p fun n => { n with key := sm.key, value := sm.value }) s
  else splice n tm p

section

variable [LinearOrder κ]

/-- `rb_delete`; returns the node that held the entry. -/
def rbDelete (n : ℕ) (tm : SgTreeMap κ ν) (key : κ) : Option (SgTreeMap κ ν × Option ℕ) := do
  match ← tm.getEntry n key with
  | none => some (tm, none)
  | some p => (deleteEntry n tm p).map (·, some p)

/-! ### Neighbours -/

/-- `get_higher_entry` for the side `left`, `get_lower_entry` for `right`, from a node on -/
def neighbourFrom (d : Side) (tm : SgTreeMap κ ν) (key : κ) : ℕ → Option ℕ → Option (Option ℕ)
  | 0, _ => none
  | _ + 1, none => some none
  | n + 1, some p => do
    let m ← tm.mem p
    -- `cmp < 0` for higher entries, `cmp > 0` for lower ones
    if cmp key m.key = pick .left .lt .gt d then
      match m.child d with
      | none => some (some p)
      | some q => neighbourFrom d tm key n (some q)
    else
      match m.child d.opp with
      | none => tm.climb d.opp n p m.parent
      | some q => neighbourFrom d tm key n (some q)

/-- The next greater key. -/
def getHigherEntry (n : ℕ) (tm : SgTreeMap κ ν) (key : κ) : Option (Option ℕ) :=
  neighbourFrom .left tm key n tm.root

/-- The next smaller key. -/
def getLowerEntry (n : ℕ) (tm : SgTreeMap κ ν) (key : κ) : Option (Option ℕ) :=
  neighbourFrom .right tm key n tm.root

end

/-! ### Copies -/

/-- `if (self->left) n->left = copy_tree(n, self->left);`, where `copy` is `copy_tree` -/
def copyChild (copy : SgTreeMap κ ν → Option ℕ → ℕ → Option (SgTreeMap κ ν × ℕ)) (d : Side)
    (child : Option ℕ) (e : ℕ) (tm : SgTreeMap κ ν) : Option (SgTreeMap κ ν) :=
  match child with
  | none => some tm
  | some a => do
    let (tm, c) ← copy tm (some e) a
    some (tm.setChild e d (some c))

/-- Copies node by node. -/
def copyTree [Inhabited ν] : ℕ → SgTreeMap κ ν → Option ℕ → ℕ → Option (SgTreeMap κ ν × ℕ)
  | 0, _, _, _ => none
  | n + 1, tm, parent, self => do
    let m ← tm.mem self
    let (tm, e) := tm.newNode m.key parent
    let tm := tm.modify e fun n => { n with value := m.value, color := m.color }
    let tm ← tm.copyChild (copyTree n) .left (m.child .left) e
    let tm ← tm.copyChild (copyTree n) .right (m.child .right) e
    some (tm, e)

/-- `rb_copy`; the copy is in the same memory. -/
def rbCopy [Inhabited ν] (n : ℕ) (tm : SgTreeMap κ ν) : Option (SgTreeMap κ ν) :=
  match tm.root with
  | none => some tm
  | some root => do
    let (dst, e) ← copyTree n tm none root
    some { dst with root := some e }

end SgTreeMap

end Sagittarius.TreeMap
