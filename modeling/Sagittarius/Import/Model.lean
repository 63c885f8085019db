import Mathlib.Data.List.Basic
import Mathlib.Logic.Function.Basic

/-!
# Libraries and their imports

`pass1/import` of the compiler and `library.c`.  An import set is taken apart into a list of
clauses, which is stored with the imported library; nothing is resolved then.  When a name is
looked up, `find_binding` runs the clauses backwards (`unrename_variable`) and asks the imported
library if it exports the name that comes out.

* `ImportSet.parseSpec` : `parse-spec` of `pass1/import`;
* `sgImportLibraryFullSpec` : an import is recorded;
* `unrenameVariable`, `findBinding` : a name is looked up.

The sandbox of the virtual machine, which can replace bindings, is left out.
-/

namespace Sagittarius.Import

/-- The name of a symbol. -/
abbrev Name := List Char

/-! ### Import sets -/

/-- A clause of an import set, as it is kept in the list of `parse-spec`. -/
inductive Clause
  /-- `(only id ...)` -/
  | only (ids : List Name)
  /-- `(except id ...)` -/
  | except (ids : List Name)
  /-- `(rename (old new) ...)` -/
  | rename (renames : List (Name × Name))
  /-- `(prefix . id)` -/
  | withPrefix (id : Name)
  /-- `(for . phase)` -/
  | forPhase
deriving DecidableEq

/-- An import set: the reference to a library, or a clause around an import set. -/
inductive ImportSet
  | library
  | modified (clause : Clause) (set : ImportSet)

/-- `parse-spec` of `pass1/import`: the innermost clause comes first. -/
def ImportSet.parseSpec : ImportSet → List Clause
  | .library => []
  | .modified clause set => set.parseSpec ++ [clause]

/-! ### Libraries -/

/-- The elements of the `car` of an export specification that are names, or `:all`. -/
inductive ExportItem
  | name (n : Name)
  | all
deriving DecidableEq

/-- An export specification: `((name ...) (org renamed) ...)`. -/
structure Exported where
  items : List ExportItem
  renames : List (Name × Name)

/-- A library.  A binding is known by the library it is in and its name there. -/
structure SgLibrary (ι : Type) where
  /-- the names in `table` -/
  table : Name → Bool
  /-- `none` is `#f`: everything is exported -/
  exported : Option Exported
  /-- the imported libraries, each with its clauses -/
  parents : List (ι × List Clause)

variable {ι : Type} [DecidableEq ι]

/-- The parents that are imported as well. -/
def importParents (libs : ι → SgLibrary ι) (fromlib : ι) (spec : List Clause) :
    List (ι × List Clause) :=
  ((libs fromlib).parents.filter fun parent => parent.1 == fromlib).map fun parent =>
    (parent.1, spec)

/-- Adds to the parents of `tolib`. -/
def sgImportLibraryFullSpec (libs : ι → SgLibrary ι) (tolib fromlib : ι) (spec : List Clause) :
    ι → SgLibrary ι :=
  Function.update libs tolib { libs tolib with
    parents := ((fromlib, spec) :: importParents libs fromlib spec) ++ (libs tolib).parents }

/-- `pass1/import`: the clauses are reversed before they are stored. -/
def pass1Import (libs : ι → SgLibrary ι) (tolib fromlib : ι) (set : ImportSet) : ι → SgLibrary ι :=
  sgImportLibraryFullSpec libs tolib fromlib set.parseSpec.reverse

/-! ### Names are looked up -/

/-- The first slot with this second element. -/
def cadrAssq (v : Name) (l : List (Name × Name)) : Option (Name × Name) :=
  l.find? fun slot => slot.2 == v

/-- `Sg_Assq`: the first slot with this first element. -/
def assq (v : Name) (l : List (Name × Name)) : Option (Name × Name) :=
  l.find? fun slot => slot.1 == v

/-- `two_memq` with `:all` -/
def twoMemq (v : Name) (l : List ExportItem) : Option ExportItem :=
  l.find? fun o => o == .name v || o == .all

/-- One round of the loop of `unrename_variable`; `none` is `SG_FALSE`. -/
def unrenameClause (key : Name) : Clause → Option Name
  | .only ids => if key ∈ ids then some key else none
  | .rename renames =>
    match assq key renames with
    | none =>
      match cadrAssq key renames with
      | some rename => some rename.1
      | none => some key
    | some _ => none
  | .except ids => if key ∈ ids then none else some key
  | .withPrefix id =>
    if key.length < id.length then none
    else if key.take id.length = id then some (key.drop id.length) else none
  | .forPhase => some key

/-- What a clause makes of a name of the set inside of it. -/
def Clause.forward : Clause → Name → Option Name
  | .only ids, k => if k ∈ ids then some k else none
  | .except ids, k => if k ∈ ids then none else some k
  | .rename renames, k => some (((assq k renames).map Prod.snd).getD k)
  | .withPrefix id, k => some (id ++ k)
  | .forPhase, k => some k

/-- Undoes the clauses, one by one. -/
def unrenameVariable (key : Name) : List Clause → Option Name
  | [] => some key
  | spec :: specs => (unrenameClause key spec).bind fun key => unrenameVariable key specs

/-- What `find_binding` makes of the export specification of a parent. -/
inductive ExportLookup
  | missing
  /-- it is exported under another name -/
  | renamed (org : Name)
  | plain
  | all
deriving DecidableEq

/-- The condition of `find_binding` on the export specification. -/
def exportLookup (pexport : Option Exported) (unrenamed : Name) : ExportLookup :=
  match pexport with
  | none => .all
  | some pexport =>
    match twoMemq unrenamed pexport.items with
    | some .all => .all
    | some (.name _) => .plain
    | none =>
      match cadrAssq unrenamed pexport.renames with
      | some slot => .renamed slot.1
      | none => .missing

/-- The loop of `find_binding` over the parents, where `find` goes on in a parent; the inner `none`
is `callback`. -/
def searchParents (libs : ι → SgLibrary ι) (find : ι → Name → Option (Option (ι × Name)))
    (name : Name) : List (ι × List Clause) → Option (Option (ι × Name))
  | [] => some none
  | (plib, spec) :: parents =>
    match unrenameVariable name spec with
    | none => searchParents libs find name parents
    | some unrenamed =>
      match exportLookup (libs plib).exported unrenamed with
      | .missing => searchParents libs find name parents
      | .renamed org => find plib org
      | .plain => find plib unrenamed
      | .all =>
        match find plib unrenamed with
        | some none => searchParents libs find name parents
        | found => found

/-- `find_binding`; it follows `fuel` imports at most. -/
def findBinding (libs : ι → SgLibrary ι) : ℕ → ι → Name → Option (Option (ι × Name))
  | 0, _, _ => none
  | fuel + 1, lib, name =>
    if (libs lib).table name then some (some (lib, name))
    else searchParents libs (findBinding libs fuel) name (libs lib).parents

end Sagittarius.Import
