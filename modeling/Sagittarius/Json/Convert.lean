import Mathlib.Data.List.OfFn

/-!
# Two representations of JSON

`(text json)` represents a JSON value by a Scheme object in one of two ways: arrays are vectors and
objects are association lists, or arrays are lists and objects are vectors of pairs.  The functions
of `(text json convert)` go from one to the other, and `json-write` writes either.

* `rep` : the representation of a JSON value;
* `convert_rep` : what is converted, an empty array or object being taken for the other;
* `converts_right_iff` : **the values that are converted right** are those without empty arrays and
  objects, since the empty list is left alone and means the one or the other.
-/

namespace Sagittarius.Json

open List

/-! ### Objects -/

/-- The objects that the functions tell apart; `ν` are the numbers. -/
inductive Obj (ν : Type) where
  | null
  /-- any other symbol -/
  | symbol (name : String)
  | boolean (b : Bool)
  | number (n : ν)
  | string (s : String)
  | nil
  | pair (a d : Obj ν)
  /-- the vector with the elements of the list `l` -/
  | vector (l : Obj ν)
  /-- the hash table whose `hashtable->alist` is `l` -/
  | hashtable (l : Obj ν)
  | other

variable {ν : Type}

/-- `list?`: a proper list. -/
def Obj.isList : Obj ν → Bool
  | .nil => true
  | .pair _ d => d.isList
  | _ => false

/-- `*json-map-type*`: how objects are represented. -/
inductive MapType where
  | vector
  | alist
  deriving DecidableEq

/-- The other type. -/
def MapType.other : MapType → MapType
  | .vector => .alist
  | .alist => .vector

/-! ### The converters -/

mutual

/-- Both converters, from the type `t` to the other: lists become vectors and vectors lists.  There
is no result if `car` is applied to what is no pair, or `length` to what is no list. -/
def convert (t : MapType) : Obj ν → Option (Obj ν)
  | .pair a d => do
    let a ← (if t = .alist then convertEntry t a else convert t a)
    return .vector (.pair a (← convertItems t (t = .alist) d))
  | .vector l => convertItems t (t = .vector) l
  | x => some x

/-- `(lambda (e) (cons ...))`: converts an entry. -/
def convertEntry (t : MapType) : Obj ν → Option (Obj ν)
  | .pair k v => do return .pair (← convert t k) (← convert t v)
  | _ => none

/-- The items of an array, or the entries of an object. -/
def convertItems (t : MapType) (entries : Bool) : Obj ν → Option (Obj ν)
  | .nil => some .nil
  | .pair a d => do
    let a ← (if entries then convertEntry t a else convert t a)
    return .pair a (← convertItems t entries d)
  | _ => none

end

/-- From alists to vectors. -/
def alistJsonToVectorJson : Obj ν → Option (Obj ν) := convert .alist

/-- From vectors to alists. -/
def vectorJsonToAlistJson : Obj ν → Option (Obj ν) := convert .vector

/-! ### The writer -/

/-- The ways in which `json-write` can fail. -/
inductive WriteError (ν : Type) where
  /-- `Invalid JSON table key in json-write` -/
  | invalidKey (k : Obj ν)
  /-- `Invalid JSON object in json-write` -/
  | invalidObject (x : Obj ν)
  /-- `car` of an object that is no pair -/
  | notPair (x : Obj ν)

/-- How strings and numbers are written. -/
structure Printer (ν : Type) where
  string : String → String
  number : ν → String

variable (p : Printer ν)

/-- The key of an entry. -/
def writeKey : Obj ν → Except (WriteError ν) String
  | .symbol s | .string s => pure (p.string s)
  | .null => pure (p.string "null")
  | k => throw (.invalidKey k)

/-- The brackets of an object or an array. -/
def bracket (entries : Bool) (s : String) : String :=
  if entries then "\x7b" ++ s ++ "\x7d" else "[" ++ s ++ "]"

mutual

/-- The text of a value. -/
def writeAny (t : MapType) : Obj ν → Except (WriteError ν) String
  | .hashtable l => do return bracket true (← writeItems t true false l)
  | .vector l => do return bracket (t = .vector) (← writeItems t (t = .vector) false l)
  | .nil => pure (bracket (t = .alist) "")
  | .pair a d =>
    if d.isList then do
      let s ← (if t = .alist then writeEntry t a else writeAny t a)
      return bracket (t = .alist) ("" ++ (s ++ (← writeItems t (t = .alist) true d)))
    else throw (.invalidObject (.pair a d))
  | .null => pure "null"
  | .symbol s | .string s => pure (p.string s)
  | .number n => pure (p.number n)
  | .boolean b => pure (if b then "true" else "false")
  | .other => throw (.invalidObject .other)

/-- An entry of `write-ht`. -/
def writeEntry (t : MapType) : Obj ν → Except (WriteError ν) String
  | .pair k v => do return (← writeKey p k) ++ ": " ++ (← writeAny t v)
  | x => throw (.notPair x)

/-- The loops of `write-ht` and `write-array`; `comma` is `need-comma?`. -/
def writeItems (t : MapType) (entries comma : Bool) : Obj ν → Except (WriteError ν) String
  | .pair a d => do
    let s ← (if entries then writeEntry t a else writeAny t a)
    return (if comma then ", " else "") ++ (s ++ (← writeItems t entries true d))
  | _ => pure ""

end

end Json

/-! ### JSON values -/

/-- JSON values. -/
inductive Json (ν : Type) where
  | null
  | bool (b : Bool)
  | num (n : ν)
  | str (s : String)
  | arr (n : ℕ) (items : Fin n → Json ν)
  | obj (n : ℕ) (keys : Fin n → String) (values : Fin n → Json ν)

namespace Json

open List

variable {ν : Type} {t : MapType} {entries : Bool} {n : ℕ}

/-- A list as an object. -/
def Obj.ofFn : {n : ℕ} → (Fin n → Obj ν) → Obj ν
  | 0, _ => .nil
  | _ + 1, f => .pair (f 0) (ofFn fun i => f i.succ)

/-- An object or an array of the type `t`. -/
def MapType.make (t : MapType) (entries : Bool) (l : Obj ν) : Obj ν :=
  if entries = decide (t = .vector) then .vector l else l

/-- The representation of a JSON value. -/
def rep (t : MapType) : Json ν → Obj ν
  | .null => .null
  | .bool b => .boolean b
  | .num n => .number n
  | .str s => .string s
  | .arr _ items => t.make false (.ofFn fun i => rep t (items i))
  | .obj _ keys values => t.make true (.ofFn fun i => .pair (.string (keys i)) (rep t (values i)))

/-- What the empty list represents. -/
def empty : MapType → Json ν
  | .vector => .arr 0 nofun
  | .alist => .obj 0 nofun nofun

/-- Every empty array and every empty object is replaced by what the empty list represents. -/
def emptiesAs (t : MapType) : Json ν → Json ν
  | .arr n items => if n = 0 then empty t else .arr n fun i => emptiesAs t (items i)
  | .obj n keys values => if n = 0 then empty t else .obj n keys fun i => emptiesAs t (values i)
  | j => j

/-- The value has no empty array and no empty object. -/
def NoEmpties : Json ν → Prop
  | .arr n items => n ≠ 0 ∧ ∀ i, NoEmpties (items i)
  | .obj n _ values => n ≠ 0 ∧ ∀ i, NoEmpties (values i)
  | _ => True

theorem isList_ofFn (f : Fin n → Obj ν) : (Obj.ofFn f).isList = true := by
  induction n with
  | zero => rfl
  | succ n ih => exact ih _

theorem ofFn_injective : Function.Injective (Obj.ofFn : (Fin n → Obj ν) → Obj ν) := by
  intro f g h
  induction n with
  | zero => exact Subsingleton.elim _ _
  | succ n ih =>
    obtain ⟨h0, hs⟩ := Obj.pair.inj h
    exact funext (Fin.cases h0 fun i => congrFun (ih hs) i)

theorem make_injective : Function.Injective (t.make entries : Obj ν → Obj ν) := by
  intro l l' h
  simp only [MapType.make] at h
  split_ifs at h
  · exact Obj.vector.inj h
  · exact h

/-! ### What is converted -/

theorem convert_pair (t : MapType) (a d : Obj ν) :
    convert t (.pair a d) = (convertItems t (t = .alist) (.pair a d)).map .vector := by
  simp only [convert, convertItems, decide_eq_true_eq]
  cases (if t = .alist then convertEntry t a else convert t a) with
  | none => rfl
  | some a => cases convertItems t (t = .alist) d <;> rfl

section

variable {f g : Fin n → Obj ν}
  (h : ∀ i, (if entries then convertEntry t (f i) else convert t (f i)) = some (g i))

include h

theorem convertItems_ofFn : convertItems t entries (.ofFn f) = some (.ofFn g) := by
  induction n with
  | zero => rfl
  | succ n ih =>
    simp only [Obj.ofFn, convertItems, h, ih fun i => h i.succ]
    rfl

theorem convert_make : convert t (t.make entries (.ofFn f)) =
    some (if n = 0 then .nil else t.other.make entries (.ofFn g)) := by
  have hitems := convertItems_ofFn h
  cases n with
  | zero => cases t <;> cases entries <;> rfl
  | succ n =>
    cases t <;> cases entries
    · exact (convert_pair _ _ _).trans (congrArg (Option.map Obj.vector) hitems)
    · exact hitems
    · exact hitems
    · exact (convert_pair _ _ _).trans (congrArg (Option.map Obj.vector) hitems)

end

/-- **What is converted**: an empty array or object becomes what the empty list represents. -/
theorem convert_rep (t : MapType) (j : Json ν) :
    convert t (rep t j) = some (rep t.other (emptiesAs t.other j)) := by
  induction j with
  | arr n items ih =>
    rw [rep, convert_make (by exact ih), emptiesAs]
    split_ifs
    · cases t <;> rfl
    · rfl
  | obj n keys values ih =>
    have hentries : ∀ i, convertEntry t (.pair (.string (keys i)) (rep t (values i))) =
        some (.pair (.string (keys i)) (rep t.other (emptiesAs t.other (values i)))) := by
      intro i
      rw [convertEntry, ih]
      rfl
    rw [rep, convert_make (by exact hentries), emptiesAs]
    split_ifs
    · cases t <;> rfl
    · rfl
  | _ => rfl

theorem emptiesAs_emptiesAs (t u : MapType) (j : Json ν) :
    emptiesAs t (emptiesAs u j) = emptiesAs t j := by
  induction j with
  | arr n items ih | obj n keys items ih =>
    simp only [emptiesAs]
    split_ifs with hn
    · cases u <;> rfl
    · simp only [emptiesAs, if_neg hn, ih]
  | _ => rfl

theorem emptiesAs_of_rep_eq {u : MapType} {j : Json ν} (h : rep t (emptiesAs u j) = rep t j) :
    emptiesAs u j = j := by
  induction j with
  | arr n items ih =>
    rw [emptiesAs] at h ⊢
    split_ifs at h ⊢ with hn
    · subst hn
      cases u with
      | vector => exact congrArg (arr 0) (Subsingleton.elim _ _)
      | alist => cases t <;> cases h
    · have hitems := ofFn_injective (make_injective h)
      exact congrArg _ (funext fun i => ih i (congrFun hitems i))
  | obj n keys values ih =>
    rw [emptiesAs] at h ⊢
    split_ifs at h ⊢ with hn
    · subst hn
      cases u with
      | vector => cases t <;> cases h
      | alist => exact congrArg₂ (obj 0) (Subsingleton.elim _ _) (Subsingleton.elim _ _)
    · have hvalues := ofFn_injective (make_injective h)
      exact congrArg _ (funext fun i => ih i (Obj.pair.inj (congrFun hvalues i)).2)
  | _ => rfl

theorem noEmpties_iff (j : Json ν) :
    NoEmpties j ↔ emptiesAs .vector j = j ∧ emptiesAs .alist j = j := by
  induction j with
  | arr n items ih | obj n keys items ih =>
    by_cases hn : n = 0
    · subst hn
      simp [NoEmpties, emptiesAs, empty]
    · simp [NoEmpties, emptiesAs, hn, ih, funext_iff, forall_and]
  | _ => simp [NoEmpties, emptiesAs]

/-! ### What is written -/

section

variable (p : Printer ν)

theorem writeAny_pair (t : MapType) (a : Obj ν) {d : Obj ν} (h : d.isList = true) :
    writeAny p t (.pair a d) =
      bracket (t = .alist) <$> writeItems p t (t = .alist) false (.pair a d) := by
  simp [writeAny, writeItems, h]

theorem writeAny_make (t : MapType) (entries : Bool) (f : Fin n → Obj ν) :
    writeAny p t (t.make entries (.ofFn f)) =
      bracket entries <$> writeItems p t entries false (.ofFn f) := by
  cases n with
  | zero => cases t <;> cases entries <;> rfl
  | succ n =>
    cases t <;> cases entries
    · exact writeAny_pair p _ _ (isList_ofFn _)
    · rfl
    · rfl
    · exact writeAny_pair p _ _ (isList_ofFn _)

theorem writeItems_ofFn {f g : Fin n → Obj ν} (comma : Bool) (h : ∀ i,
      (if entries then writeEntry p .alist (f i) else writeAny p .alist (f i)) =
        if entries then writeEntry p .vector (g i) else writeAny p .vector (g i)) :
    writeItems p .alist entries comma (.ofFn f) = writeItems p .vector entries comma (.ofFn g) := by
  induction n generalizing comma with
  | zero => rfl
  | succ n ih => simp only [Obj.ofFn, writeItems, h, ih true fun i => h i.succ]

theorem writeAny_rep (j : Json ν) :
    writeAny p .alist (rep .alist j) = writeAny p .vector (rep .vector j) := by
  induction j with
  | arr n items ih =>
    rw [rep, rep, writeAny_make, writeAny_make]
    exact congrArg _ (writeItems_ofFn p false ih)
  | obj n keys values ih =>
    rw [rep, rep, writeAny_make, writeAny_make]
    refine congrArg _ (writeItems_ofFn p false fun i => ?_)
    rw [if_pos rfl, if_pos rfl, writeEntry, writeEntry, ih]
  | _ => rfl

/-- The value is converted right: both representations of it are written alike, and the converters
are inverse to each other on them. -/
def ConvertsRight (j : Json ν) : Prop :=
  ∃ v a, alistJsonToVectorJson (rep .alist j) = some v ∧
    writeAny p .alist (rep .alist j) = writeAny p .vector v ∧
    vectorJsonToAlistJson v = some (rep .alist j) ∧
    vectorJsonToAlistJson (rep .vector j) = some a ∧ alistJsonToVectorJson a = some (rep .vector j)

/-- **A value is converted right exactly if it has no empty arrays and objects.** -/
theorem converts_right_iff (j : Json ν) : ConvertsRight p j ↔ NoEmpties j := by
  rw [noEmpties_iff]
  have hvector : alistJsonToVectorJson (rep .alist j) = some (rep .vector (emptiesAs .vector j)) :=
    convert_rep .alist j
  have halist : vectorJsonToAlistJson (rep .vector j) = some (rep .alist (emptiesAs .alist j)) :=
    convert_rep .vector j
  constructor
  · rintro ⟨v, a, hv, -, hback, ha, hforth⟩
    obtain rfl := Option.some.inj (hvector.symm.trans hv)
    obtain rfl := Option.some.inj (halist.symm.trans ha)
    have h1 := Option.some.inj ((convert_rep .alist _).symm.trans hforth)
    have h2 := Option.some.inj ((convert_rep .vector _).symm.trans hback)
    rw [emptiesAs_emptiesAs] at h1 h2
    exact ⟨emptiesAs_of_rep_eq h1, emptiesAs_of_rep_eq h2⟩
  · rintro ⟨hv, ha⟩
    rw [hv] at hvector
    rw [ha] at halist
    exact ⟨_, _, hvector, writeAny_rep p j, halist, halist, hvector⟩

/-- The empty object is written as an array after it was converted. -/
theorem empty_object_converted :
    let j : Json ℕ := .obj 0 nofun nofun
    let p : Printer ℕ := ⟨id, toString⟩
    writeAny p .alist (rep .alist j) = .ok "\x7b\x7d" ∧
      alistJsonToVectorJson (rep .alist j) = some .nil ∧
      writeAny p .vector .nil = .ok "[]" ∧ ¬ ConvertsRight p j := by
  refine ⟨rfl, rfl, rfl, ?_⟩
  rintro ⟨v, a, hv, hwrite, -⟩
  cases hv
  cases hwrite

end

end Json

end Sagittarius
