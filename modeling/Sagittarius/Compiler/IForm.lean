import Mathlib.Data.List.Basic

/-!
# IForm, the compiler's intermediate tree

`pass1` turns a form into a tree of vectors, the IForm, on which the later passes work.  This file
has the nodes that can stand in a library body after `pass1`, and the functions on them that
inlining a procedure needs:

* `IForm.mentions` : the global variables an IForm refers to and assigns, in the order in which
  `pass1/scan-inlinable` comes to them;
* `iformCountSizeUpto` : the number of nodes, cut off at a limit;
* `iformCopy` : a copy with fresh local variables; it mentions what the original mentions;
* `expandInlinedProcedure` : a call of a `$lambda` as a `$let`.

Source positions are left out.
-/

namespace Sagittarius.Compiler

/-- An interned symbol; the source compares symbols with `eq?`. -/
abbrev Symbol := ℕ

/-- A library; the source compares libraries with `eq?`. -/
abbrev LibraryRef := ℕ

/-- A local variable; the source compares them with `eq?`. -/
abbrev Lvar := ℕ

/-- A global identifier.  `id=?` compares the name and the library. -/
structure Identifier where
  name : Symbol
  library : LibraryRef
  deriving DecidableEq, Repr

/-- The kinds of `$let`: `let`, `rec` and `rec*`. -/
inductive LetType where
  | plain
  | recursive
  | sequential
  deriving DecidableEq, Repr

/-- The nodes of an IForm.  A constant stands for itself by its number. -/
inductive IForm where
  | undef
  | it
  | library (library : LibraryRef)
  | lref (lvar : Lvar)
  | const (value : ℕ)
  | define (id : Identifier) (expr : IForm)
  | gref (id : Identifier)
  | lset (lvar : Lvar) (expr : IForm)
  | gset (id : Identifier) (expr : IForm)
  | letForm (type : LetType) (lvars : List Lvar) (inits : List IForm) (body : IForm)
  | lambda (name : Symbol) (reqargs option : ℕ) (lvars : List Lvar) (body : IForm)
  | receive (reqargs option : ℕ) (lvars : List Lvar) (expr body : IForm)
  | call (proc : IForm) (args : List IForm)
  | seq (body : List IForm)
  | ifForm (test thenForm elseForm : IForm)
  | asm (insn : ℕ) (args : List IForm)
  | list (args : List IForm)

/-! ### What an IForm mentions -/

/-- A global variable is referred to, or assigned. -/
inductive Mention where
  | ref (id : Identifier)
  | assign (id : Identifier)
  deriving DecidableEq, Repr

mutual

/-- The references and assignments of global variables.  The arguments of a call come before the
procedure, an assignment before its expression. -/
def IForm.mentions : IForm → List Mention
  | .undef | .it | .library _ | .lref _ | .const _ => []
  | .define _ expr => expr.mentions
  | .gref id => [.ref id]
  | .lset _ expr => expr.mentions
  | .gset id expr => .assign id :: expr.mentions
  | .letForm _ _ inits body => mentionsAll inits ++ body.mentions
  | .lambda _ _ _ _ body => body.mentions
  | .receive _ _ _ expr body => expr.mentions ++ body.mentions
  | .call proc args => mentionsAll args ++ proc.mentions
  | .seq body => mentionsAll body
  | .ifForm test thenForm elseForm => test.mentions ++ (thenForm.mentions ++ elseForm.mentions)
  | .asm _ args => mentionsAll args
  | .list args => mentionsAll args

/-- The references and assignments of a list of IForms. -/
def mentionsAll : List IForm → List Mention
  | [] => []
  | x :: xs => x.mentions ++ mentionsAll xs

end

/-! ### The size of an IForm -/

/-- The errors of the compiler. -/
inductive CompileError where
  /-- `wrong number of arguments: ~s requires ~a, but got ~a` -/
  | wrongNumberOfArguments (name : Symbol) (reqargs got : ℕ)
  /-- `[internal error] unknown iform tag` -/
  | unknownIformTag
  deriving DecidableEq, Repr

/-- The cut of `sum-items` after an item. -/
def cutAt (limit s : ℕ) : ℕ := if limit ≤ s then limit else s

mutual

/-- `rec` of `iform-count-size-upto`.  Once an item has reached the limit, the others are not
looked at. -/
def countSize (limit : ℕ) : IForm → ℕ → Except CompileError ℕ
  | .undef, cnt => pure cnt
  | .it, cnt => pure cnt
  | .library _, _ => throw .unknownIformTag
  | .lref _, cnt => pure (cnt + 1)
  | .gref _, cnt => pure (cnt + 1)
  | .const _, cnt => pure (cnt + 1)
  | .define _ expr, cnt => do return cutAt limit (← countSize limit expr (cnt + 1))
  | .lset _ expr, cnt => do return cutAt limit (← countSize limit expr (cnt + 1))
  | .gset _ expr, cnt => do return cutAt limit (← countSize limit expr (cnt + 1))
  | .lambda _ _ _ _ body, cnt => do return cutAt limit (← countSize limit body (cnt + 1))
  | .ifForm test thenForm elseForm, cnt => do
    let s ← countSize limit test (cnt + 1)
    if limit ≤ s then return limit
    let s ← countSize limit thenForm s
    if limit ≤ s then return limit
    return cutAt limit (← countSize limit elseForm s)
  | .letForm _ _ inits body, cnt => do
    let s ← countSizes limit inits (cnt + 1)
    if limit ≤ s then return limit
    return cutAt limit (← countSize limit body s)
  | .receive _ _ _ expr body, cnt => do
    let s ← countSize limit expr (cnt + 1)
    if limit ≤ s then return limit
    return cutAt limit (← countSize limit body s)
  | .seq body, cnt => do return cutAt limit (← countSizes limit body cnt)
  | .call proc args, cnt => do
    let s ← countSize limit proc (cnt + 1)
    if limit ≤ s then return limit
    return cutAt limit (← countSizes limit args s)
  | .asm _ args, cnt => do return cutAt limit (← countSizes limit args (cnt + 1))
  | .list args, cnt => do return cutAt limit (← countSizes limit args (cnt + 1))

/-- `rec-list` of `iform-count-size-upto`. -/
def countSizes (limit : ℕ) : List IForm → ℕ → Except CompileError ℕ
  | [], cnt => pure cnt
  | x :: xs, cnt => do
    if limit ≤ cnt then return limit
    countSizes limit xs (← countSize limit x cnt)

end

/-- The number of nodes, or the limit if there are as many or more. -/
def iformCountSizeUpto (iform : IForm) (limit : ℕ) : Except CompileError ℕ :=
  countSize limit iform 0

/-! ### Copies -/

/-- Fresh variables for `lvars`, from `next` on. -/
def iformCopyZipLvs (lvars : List Lvar) (lvAlist : List (Lvar × Lvar)) (next : Lvar) :
    List Lvar × List (Lvar × Lvar) × Lvar :=
  let newLvs := List.range' next lvars.length
  (newLvs, lvars.zip newLvs ++ lvAlist, next + lvars.length)

/-- The copy of a variable. -/
def iformCopyLvar (lvar : Lvar) (lvAlist : List (Lvar × Lvar)) : Lvar :=
  (lvAlist.lookup lvar).getD lvar

mutual

/-- The variables bound in the IForm are replaced by fresh ones. `next` is the next variable that is
not in use. -/
def iformCopy : IForm → List (Lvar × Lvar) → Lvar → IForm × Lvar
  | .define id expr, al, next =>
    let e := iformCopy expr al next
    (.define id e.1, e.2)
  | .lref lvar, al, next => (.lref (iformCopyLvar lvar al), next)
  | .lset lvar expr, al, next =>
    let e := iformCopy expr al next
    (.lset (iformCopyLvar lvar al) e.1, e.2)
  | .gref id, _, next => (.gref id, next)
  | .gset id expr, al, next =>
    let e := iformCopy expr al next
    (.gset id e.1, e.2)
  | .const value, _, next => (.const value, next)
  | .ifForm test thenForm elseForm, al, next =>
    let t := iformCopy test al next
    let a := iformCopy thenForm al t.2
    let b := iformCopy elseForm al a.2
    (.ifForm t.1 a.1 b.1, b.2)
  | .letForm type lvars inits body, al, next =>
    let new := iformCopyZipLvs lvars al next
    let is := iformCopies inits (if type = .plain then al else new.2.1) new.2.2
    let b := iformCopy body new.2.1 is.2
    (.letForm type new.1 is.1 b.1, b.2)
  | .lambda name reqargs option lvars body, al, next =>
    let new := iformCopyZipLvs lvars al next
    let b := iformCopy body new.2.1 new.2.2
    (.lambda name reqargs option new.1 b.1, b.2)
  | .receive reqargs option lvars expr body, al, next =>
    let new := iformCopyZipLvs lvars al next
    let e := iformCopy expr al new.2.2
    let b := iformCopy body new.2.1 e.2
    (.receive reqargs option new.1 e.1 b.1, b.2)
  | .seq body, al, next =>
    let bs := iformCopies body al next
    (.seq bs.1, bs.2)
  | .call proc args, al, next =>
    let p := iformCopy proc al next
    let as := iformCopies args al p.2
    (.call p.1 as.1, as.2)
  | .asm insn args, al, next =>
    let as := iformCopies args al next
    (.asm insn as.1, as.2)
  | .list args, al, next =>
    let as := iformCopies args al next
    (.list as.1, as.2)
  | .it, _, next => (.it, next)
  | .undef, _, next => (.undef, next)
  | .library lib, _, next => (.library lib, next)

/-- The copies of a list of IForms. -/
def iformCopies : List IForm → List (Lvar × Lvar) → Lvar → List IForm × Lvar
  | [], _, next => ([], next)
  | x :: xs, al, next =>
    let y := iformCopy x al next
    let ys := iformCopies xs al y.2
    (y.1 :: ys.1, ys.2)

end

mutual

theorem mentions_iformCopy (x : IForm) (al : List (Lvar × Lvar)) (next : Lvar) :
    (iformCopy x al next).1.mentions = x.mentions := by
  cases x with
  | undef | it | library _ | lref _ | const _ | gref _ => rfl
  | define id expr | lset lvar expr => exact mentions_iformCopy expr al next
  | gset id expr =>
    simp only [iformCopy, IForm.mentions]
    rw [mentions_iformCopy expr]
  | letForm type lvars inits body =>
    simp only [iformCopy, IForm.mentions]
    rw [mentions_iformCopies inits, mentions_iformCopy body]
  | lambda name reqargs option lvars body => exact mentions_iformCopy body _ _
  | receive reqargs option lvars expr body =>
    simp only [iformCopy, IForm.mentions]
    rw [mentions_iformCopy expr, mentions_iformCopy body]
  | call proc args =>
    simp only [iformCopy, IForm.mentions]
    rw [mentions_iformCopy proc, mentions_iformCopies args]
  | ifForm test thenForm elseForm =>
    simp only [iformCopy, IForm.mentions]
    rw [mentions_iformCopy test, mentions_iformCopy thenForm, mentions_iformCopy elseForm]
  | seq args | asm insn args | list args => exact mentions_iformCopies args al next

theorem mentions_iformCopies (xs : List IForm) (al : List (Lvar × Lvar)) (next : Lvar) :
    mentionsAll (iformCopies xs al next).1 = mentionsAll xs := by
  cases xs with
  | nil => rfl
  | cons x xs =>
    simp only [iformCopies, mentionsAll]
    rw [mentions_iformCopy x, mentions_iformCopies xs]

end

/-! ### Calls of a known procedure -/

/-- The number of arguments fits. -/
def argcountOk (nargs reqargs : ℕ) (optarg : Bool) : Bool :=
  if optarg then reqargs ≤ nargs else nargs = reqargs

/-- The arguments beyond the required ones are collected in a list. -/
def adjustArglist (reqargs optarg : ℕ) (iargs : List IForm) (name : Symbol) :
    Except CompileError (List IForm) :=
  if argcountOk iargs.length reqargs (0 < optarg) then
    if optarg = 0 then pure iargs
    else pure (iargs.take reqargs ++ [.list (iargs.drop reqargs)])
  else throw (.wrongNumberOfArguments name reqargs iargs.length)

/-- A call of a `$lambda` as a `$let`. Only `$lambda` nodes come here. -/
def expandInlinedProcedure (iform : IForm) (iargs : List IForm) : Except CompileError IForm :=
  match iform with
  | .lambda name reqargs option lvars body => do
    let args ← adjustArglist reqargs option iargs name
    return .letForm .plain lvars args body
  | _ => throw .unknownIformTag

end Sagittarius.Compiler
