import Mathlib.Data.Vector.Basic
import Sagittarius.Library.ShellSort

/-!
# Generic functions

`clos.c` and the parts of `vmcall.c` that call generic functions.  The applicable methods are
sorted into a list; the first one is called, with a next-method that goes on with the others.  If
there are `:before`, `:after` or `:around` methods, the list is that of the `:around` methods and a
method made up for the occasion, which runs the other ones.

* `computeApplicableMethods`, `sortPrimaryMethods`, `sgComputeMethods` : the list of methods;
* `Body`, `applyProcedure` : what a method does;
* `procedureInvoker`, `invokeCc` : the made up method, which keeps its data in a vector;
* `callGeneric` : a call of a generic function.

The methods are those written in Scheme, which have a qualifier of the four there are.  A call has
`n` arguments; a method that calls its next-method with other arguments gives as many.
-/

namespace Sagittarius.Clos

/-! ### Objects and classes -/

/-- Objects; cyclic ones are left out. -/
inductive Obj (α : Type)
  | undef
  | nil
  | atom (a : α)
  | pair (car cdr : Obj α)
deriving DecidableEq

variable {α κ σ τ : Type} {n : ℕ}

/-- The arguments of a call. -/
abbrev Args (α : Type) := List (Obj α)

/-- The list of some objects. -/
def Obj.ofList : Args α → Obj α
  | [] => .nil
  | a :: l => .pair a (ofList l)

/-- The elements of an object that is a list. -/
def Obj.elements : Obj α → Option (Args α)
  | .nil => some []
  | .pair a d => d.elements.map (a :: ·)
  | .undef => none
  | .atom _ => none

/-- What the object system knows about objects. -/
structure Classes (α κ : Type) where
  /-- `Sg_ClassOf` -/
  classOf : Obj α → κ
  /-- the class precedence array of a class -/
  cpa : κ → List κ
  /-- `Sg_EqvP` -/
  eqvP : Obj α → Obj α → Bool

/-- The specializer of a parameter.  Every use of `eql` makes an object of its own, which is known
by its address. -/
inductive Specializer (α κ : Type)
  | cls (c : κ)
  | eql (address : ℕ) (object : Obj α)
deriving DecidableEq

/-! ### Methods -/

/-- The qualifiers of methods -/
inductive Qualifier
  | primary
  | before
  | after
  | around
deriving DecidableEq

/-- What the body of a method does: it reads and writes the variables of the program, a `σ`, and
calls its next-method, with new arguments or with its own. -/
inductive Body (α σ : Type) (n : ℕ)
  /-- returns -/
  | ret (v : Obj α)
  | fail
  | read (k : σ → Body α σ n)
  | write (s : σ) (k : Body α σ n)
  | callNextMethod (args : Option (List.Vector (Obj α) n)) (k : Obj α → Body α σ n)

/-- A method of a generic function. -/
structure SgMethod (α κ σ : Type) (n : ℕ) where
  id : ℕ
  qualifier : Qualifier
  specializers : List (Specializer α κ)
  optional : Bool
  procedure : Args α → Body α σ n

/-- Methods of a generic function. -/
abbrev Methods (α κ σ : Type) (n : ℕ) := List (SgMethod α κ σ n)

/-- `SG_PROCEDURE_REQUIRED`: the number of required arguments. -/
def SgMethod.required (m : SgMethod α κ σ n) : ℕ := m.specializers.length

/-- A call with `argc` arguments has the right number. -/
def SgMethod.accepts (m : SgMethod α κ σ n) (argc : ℕ) : Bool :=
  if m.optional then m.required ≤ argc else argc = m.required

section

variable [DecidableEq α] [DecidableEq κ] (C : Classes α κ)

/-- `Sg_TypeP`: the object is an instance. -/
def typeP (obj : Obj α) (c : κ) : Bool := c = C.classOf obj || (C.cpa (C.classOf obj)).contains c

/-- An argument against a specializer. -/
def specializerMatch (sp : Specializer α κ) (obj : Obj α) : Bool :=
  match sp with
  | .eql _ object => C.eqvP obj object
  | .cls c => typeP C obj c

/-- The loop of `compute_applicable_methods` over the arguments. -/
def specializersMatch : List (Specializer α κ) → Args α → Bool
  | [], _ => true
  | sp :: sps, obj :: objs => specializerMatch C sp obj && specializersMatch sps objs
  | _ :: _, [] => false

/-- The methods that the arguments match. -/
def computeApplicableMethods (methods : Methods α κ σ n) (args : Args α) :
    Methods α κ σ n :=
  methods.filter fun m => m.accepts args.length && specializersMatch C m.specializers args

/-! ### Methods are sorted -/

/-- The loop of `more_specific_p` -/
def moreSpecificLoop (c1 c2 : κ) : List κ → Bool
  | [] => false
  | c :: cpl => if c1 = c then true else if c2 = c then false else moreSpecificLoop c1 c2 cpl

/-- Compares two specializers. -/
def moreSpecificP (c1 c2 : Specializer α κ) (arg : κ) : Bool :=
  match c2 with
  | .eql _ _ => false
  | .cls c2 =>
    match c1 with
    | .eql _ _ => true
    | .cls c1 =>
      if c1 = arg then true else if c2 = arg then false else moreSpecificLoop c1 c2 (C.cpa arg)

/-- The loop of `method_more_specific`: the first specializers that differ are compared. -/
def specializersMoreSpecific :
    List κ → List (Specializer α κ) → List (Specializer α κ) → Option Bool
  | targ :: targv, s1 :: spec1, s2 :: spec2 =>
    if s1 ≠ s2 then some (moreSpecificP C s1 s2 targ)
    else specializersMoreSpecific targv spec1 spec2
  | _, _, _ => none

/-- Compares two methods. -/
def methodMoreSpecific (targv : List κ) (m1 m2 : SgMethod α κ σ n) : Bool :=
  match specializersMoreSpecific C targv m1.specializers m2.specializers with
  | some b => b
  | none =>
    if m1.required > m2.required then true
    else if m1.required < m2.required then false
    else m2.optional

/-- Sorts, the most specific first. -/
def sortPrimaryMethods (methods : Methods α κ σ n) (args : Args α) :
    Methods α κ σ n :=
  match methods with
  | [] => []
  | m :: ms =>
    let array := fun i => (m :: ms).getD i m
    let len := (m :: ms).length
    (List.range len).map (shellSort (methodMoreSpecific C (args.map C.classOf)) len array)

/-- The lists of `sort_method_by_qualifier` -/
def sortMethodByQualifier (methods : Methods α κ σ n) (q : Qualifier) :
    Methods α κ σ n := methods.filter fun m => m.qualifier = q

/-- What is in the list of methods. -/
inductive Entry (α κ σ : Type) (n : ℕ)
  | method (m : SgMethod α κ σ n)
  /-- the method made up by `compute_around_methods_rec` -/
  | combined (required : ℕ) (optional : Bool)

/-- The data of the made up method. -/
structure Dvec (α κ σ : Type) (n : ℕ) where
  /-- 0: `:before`, the first `:primary` and `:after` -/
  methods : Methods α κ σ n
  /-- 1: the rest of `:primary` -/
  rest : Methods α κ σ n
  /-- 2: the result is to be stored -/
  storing : Bool
  /-- 3: the result -/
  result : Obj α

/-- The data of no made up method. -/
def Dvec.none : Dvec α κ σ n := ⟨[], [], false, .undef⟩

/-- `compute_around_methods_rec`; the first of `:primary` is `p`. -/
def computeAroundMethodsRec (around before : Methods α κ σ n) (p : SgMethod α κ σ n)
    (rest after : Methods α κ σ n) : List (Entry α κ σ n) × Dvec α κ σ n :=
  (around.map .method ++ [.combined p.required p.optional],
    ⟨before ++ p :: after.reverse, rest, false, .undef⟩)

/-- The methods with the `:around` methods first. -/
def computeAroundMethods (around before primary after : Methods α κ σ n)
    (args : Args α) : List (Entry α κ σ n) × Dvec α κ σ n :=
  match sortPrimaryMethods C primary args with
  | [] => ([], .none)
  | p :: rest =>
    computeAroundMethodsRec (sortPrimaryMethods C around args) (sortPrimaryMethods C before args)
      p rest (sortPrimaryMethods C after args)

/-- The methods in the order of the calls. -/
def sortMethod (methods : Methods α κ σ n) (args : Args α) :
    List (Entry α κ σ n) × Dvec α κ σ n :=
  let primary := sortMethodByQualifier methods .primary
  let before := sortMethodByQualifier methods .before
  let after := sortMethodByQualifier methods .after
  let around := sortMethodByQualifier methods .around
  if around.isEmpty && before.isEmpty && after.isEmpty then
    ((sortPrimaryMethods C primary args).map .method, .none)
  else computeAroundMethods C around before primary after args

/-- The applicable methods in the order of the calls. -/
def sgComputeMethods (methods : Methods α κ σ n) (args : Args α) :
    List (Entry α κ σ n) × Dvec α κ σ n :=
  match computeApplicableMethods C methods args with
  | [] => ([], .none)
  | [m] => ([.method m], .none)
  | applicable => sortMethod C applicable args

end

/-! ### Methods are run -/

/-- Why a call does not return. -/
inductive CallError
  /-- `Sg_NoNextMethod` -/
  | noApplicableMethod
  | wrongNumberOfArguments
  | raised
  /-- something was read or written that is not there -/
  | crash
  /-- the loop was not given enough rounds -/
  | outOfFuel
deriving DecidableEq

/-- A method starts with some arguments. -/
structure Event (α : Type) where
  method : ℕ
  args : Args α
deriving DecidableEq

/-- The variables of the program, what happened so far, and other data. -/
structure Machine (α σ τ : Type) where
  world : σ
  trace : List (Event α)
  extra : τ

/-- A part of a run. -/
abbrev Run (α σ τ : Type) := EStateM CallError (Machine α σ τ)

/-- A procedure, with the next-method given as one. -/
abbrev Next (α σ τ : Type) := Args α → Run α σ τ (Obj α)

/-- The body of a method is run; `argv` are the arguments kept for its next-method. -/
def Body.run (next : Next α σ τ) (argv : Args α) : Body α σ n → Run α σ τ (Obj α)
  | .ret v => pure v
  | .fail => throw .raised
  | .read k => do
    let m ← get
    (k m.world).run next argv
  | .write s k => do
    modify fun m => { m with world := s }
    k.run next argv
  | .callNextMethod args k => do
    let v ← next (match args with
      | some args => args.toList
      | none => argv)
    (k v).run next argv

/-- A method is called. -/
def applyProcedure (m : SgMethod α κ σ n) (next : Next α σ τ) (args : Args α) :
    Run α σ τ (Obj α) := do
  if m.accepts args.length then
    modify fun s => { s with trace := s.trace ++ [⟨m.id, args⟩] }
    (m.procedure args).run next args
  else throw .wrongNumberOfArguments

/-- A next-method with these methods is called. -/
def callNextMethods : Methods α κ σ n → Next α σ τ
  | [], _ => throw .noApplicableMethod
  | m :: methods, args => applyProcedure m (callNextMethods methods) args

/-- A run that has nothing to do with the other data of the machine. -/
def frame {β : Type} (x : Run α σ Unit β) : Run α σ τ β := fun s =>
  match x ⟨s.world, s.trace, ()⟩ with
  | .ok v t => .ok v ⟨t.world, t.trace, s.extra⟩
  | .error e t => .error e ⟨t.world, t.trace, s.extra⟩

/-- Puts optional arguments in a list. -/
def adjustArgumentFrame (required : ℕ) (optional : Bool) (args : Args α) :
    Option (Args α) :=
  if optional then
    if args.length < required then none
    else some (args.take required ++ [.ofList (args.drop required)])
  else if args.length ≠ required then none
  else some args

/-- `unpack_argument`; `none` if the last argument is missing or no list. -/
def unpackArgument (args : Args α) : Option (Args α) :=
  match args.getLast? with
  | none => none
  | some opts => opts.elements.map (args.dropLast ++ ·)

/-- The arguments `procedure_invoker` passes on. -/
def passedArguments (proc : SgMethod α κ σ n) (args : Args α) : Option (Args α) :=
  if proc.optional then unpackArgument args else some args

/-- `procedure_invoker`, up to where the method returns -/
def procedureInvoker (args : Args α) : Run α σ (Dvec α κ σ n) (Obj α) := do
  let s ← get
  match s.extra.methods with
  | [] => throw .crash
  | proc :: methods =>
    let primary := proc.qualifier = .primary
    let next := if primary then s.extra.rest else []
    set { s with extra := { s.extra with methods := methods, storing := primary } }
    match passedArguments proc args with
    | none => throw .crash
    | some passed => frame (applyProcedure proc (callNextMethods next) passed)

/-- `invoke_cc`, which goes on after a method has returned; for `fuel` methods at most -/
def invokeCc (args : Args α) : ℕ → Obj α → Run α σ (Dvec α κ σ n) (Obj α)
  | 0, _ => throw .outOfFuel
  | fuel + 1, result => do
    let s ← get
    let stored := if s.extra.storing then result else s.extra.result
    set { s with extra := { s.extra with result := stored } }
    if s.extra.methods.isEmpty then pure stored
    else do
      let result ← procedureInvoker args
      invokeCc args fuel result

/-- The made up method is called. -/
def callCombined (required : ℕ) (optional : Bool) : Next α σ (Dvec α κ σ n) := fun args => do
  match adjustArgumentFrame required optional args with
  | none => throw .wrongNumberOfArguments
  | some args =>
    let s ← get
    let result ← procedureInvoker args
    invokeCc args s.extra.methods.length result

/-- The first method of a list is called; its next-method goes on with the others. -/
def callMethods : List (Entry α κ σ n) → Next α σ (Dvec α κ σ n)
  | [], _ => throw .noApplicableMethod
  | .method m :: entries, args => applyProcedure m (callMethods entries) args
  | .combined required optional :: _, args => callCombined required optional args

/-- A call of the generic function with these methods. -/
def callGeneric [DecidableEq α] [DecidableEq κ] (C : Classes α κ)
    (methods : Methods α κ σ n) (args : List.Vector (Obj α) n) (world : σ) :
    EStateM.Result CallError (Machine α σ (Dvec α κ σ n)) (Obj α) :=
  let (mm, dvec) := sgComputeMethods C methods args.toList
  callMethods mm args.toList ⟨world, [], dvec⟩

end Sagittarius.Clos
