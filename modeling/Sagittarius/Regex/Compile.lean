import Sagittarius.Regex.Ast

/-!
# The code generator

`compile` runs `compile_rec` twice over the syntax tree: the counting pass finds how many
instructions there will be, the emitting pass writes them into the array of that size.  In the
emitting pass `compile_seq` reverses the items of a sequence inside a lookbehind in place, so that
a sequence that is walked once more afterwards has lost all items but its first.

* `Gen` is a part of the code generator: at an address, given the lists that were reversed, it
  returns the instructions it emits and the lists that are reversed then;
* `compileRec` is the function of the source for both passes, `compile` the program.
-/

namespace Sagittarius.Regex

variable {ι : Type}

/-! ### Instructions -/

/-- The opcodes with their arguments; addresses are indices into the program. -/
inductive Op where
  /-- `RX_ANY`, `RX_CHAR`, `RX_SET` and `RX_NSET` -/
  | consume (a : Atom)
  | split (x y : ℕ)
  | jmp (x : ℕ)
  | save (n : ℕ)
  | empty (a : Anchor)
  | fail
  | match
  | bref (n : ℕ)
  | ahead (x : ℕ)
  | behind (x : ℕ)
  | nahead (x : ℕ)
  | nbehind (x : ℕ)
  | once (x : ℕ)
  | restore
  | branch (n x y : ℕ)
  | brancha (x y : ℕ)
deriving DecidableEq

/-- The addresses an instruction can continue at. -/
def Op.targets : Op → List ℕ
  | .split x y | .branch _ x y | .brancha x y => [x, y]
  | .jmp x | .ahead x | .behind x | .nahead x | .nbehind x | .once x => [x]
  | _ => []

/-- `inst_t`: an opcode with its flags. -/
structure Inst where
  /-- `opcode` and `arg` -/
  op : Op
  /-- `INST_FLAG` -/
  flags : Flags
deriving DecidableEq

/-! ### Parts of the code generator -/

/-- A part of the code generator.  The arguments are the address of the next instruction and the
lists that have been reversed; `none` is a compile error. -/
abbrev Gen (ι : Type) := ℕ → List ι → Option (List Inst × List ι)

namespace Gen

/-- Emit nothing. -/
def nothing : Gen ι := fun _ cells => some ([], cells)

/-- `raise_compile_error` and `Sg_Error`: no code. -/
def error : Gen ι := fun _ _ => none

/-- One instruction. -/
def emit (flags : Flags) (op : Op) : Gen ι := fun _ cells => some ([⟨op, flags⟩], cells)

/-- First `f`, then `g`. -/
def andThen (f g : Gen ι) : Gen ι := fun pc cells => do
  let (a, cells) ← f pc cells
  let (b, cells) ← g (pc + a.length) cells
  return (a ++ b, cells)

/-- `f`, `n` times. -/
def times (f : Gen ι) : ℕ → Gen ι
  | 0 => nothing
  | n + 1 => andThen f (times f n)

/-- The condition `c`, then one of `f` and `g`, which `head` is told the addresses of. -/
def fork (flags : Flags) (head : ℕ → ℕ → Op) (c f g : Gen ι) : Gen ι := fun pc cells => do
  let (c, cells) ← c (pc + 1) cells
  let x := pc + 1 + c.length
  let (a, cells) ← f x cells
  let y := x + a.length + 1
  let (b, cells) ← g y cells
  return (⟨head x y, flags⟩ :: (c ++ (a ++ ⟨.jmp (y + b.length), flags⟩ :: b)), cells)

/-- `f` between two instructions; `head` is told the addresses of `f` and of the end, `last` the
address of `head`. -/
def block (flags : Flags) (head : ℕ → ℕ → Op) (last : ℕ → Op) (f : Gen ι) : Gen ι :=
  fun pc cells => do
    let (a, cells) ← f (pc + 1) cells
    return (⟨head (pc + 1) (pc + 1 + a.length + 1), flags⟩ :: (a ++ [⟨last pc, flags⟩]), cells)

/-- `f` and then `g`, or neither. -/
def optional (flags : Flags) (head : ℕ → ℕ → Op) (f g : Gen ι) : Gen ι := fun pc cells => do
  let (a, cells) ← f (pc + 1) cells
  let (b, cells) ← g (pc + 1 + a.length) cells
  return (⟨head (pc + 1) (pc + 1 + a.length + b.length), flags⟩ :: (a ++ b), cells)

end Gen

/-- `RX_SPLIT`, which prefers its first address; the addresses are swapped for a repetition that is
not greedy. -/
def splitOp (greedy : Bool) (x y : ℕ) : Op := if greedy then .split x y else .split y x

/-- All the rounds that are left out continue at the same address. -/
def compileMinMax (flags : Flags) (greedy : Bool) (f : Gen ι) : ℕ → Gen ι
  | 0 => .nothing
  | n + 1 => .optional flags (splitOp greedy) f (compileMinMax flags greedy f n)

/-- The part of a repetition that is left after `min` rounds. -/
def compileVarying (flags : Flags) (greedy : Bool) (min : ℕ) (max : Option ℤ) (f : Gen ι) : Gen ι :=
  if max = some (min : ℤ) then .nothing
  else match max with
    | some max => compileMinMax flags greedy f (max - min).toNat
    | none => .block flags (splitOp greedy) .jmp f

/-! ### The functions of the source -/

section

variable [DecidableEq ι] (emitp : Bool)

/-- `compile_rep_seq` on a sequence: its list is copied, with what is left of it, before the first
copy is compiled, and it is the copies that are reversed. -/
def compileRepSeq (cell : ι) (first all : Gen ι) (count : ℕ) : Gen ι := fun pc cells =>
  if cell ∈ cells then Gen.times first count pc cells else Gen.times all count pc cells

mutual

/-- `compile_rec`; `lb` is `lookbehindp`. -/
def compileRec (flags : Flags) (lb : Bool) : Ast ι → Gen ι
  | .atom a => .emit flags (.consume a)
  | .anchor a => .emit flags (.empty a)
  | .seq cell items => fun pc cells =>
    let cells' := if emitp && lb then cell :: cells else cells
    if cell ∈ cells then compileFirst flags lb items pc cells'
    else compileSeq flags lb items pc cells'
  | .flaggedSeq f x => compileRec (calculateFlags flags f) lb x
  | .register n _ x =>
    .andThen (.emit flags (.save (2 * n)))
      (.andThen (compileRec flags lb x) (.emit flags (.save (2 * n + 1))))
  | .alter items => compileAlter flags lb items
  | .rep greedy min max x =>
    .andThen
      (match x with
        | .seq cell items =>
          compileRepSeq cell (compileFirst flags lb items) (compileSeq flags lb items) min
        | x => .times (compileRec flags lb x) min)
      (compileVarying flags greedy min max (compileRec flags lb x))
  | .backref n => .emit flags (.bref n)
  | .lookahead assert x =>
    .block flags (fun _ y => if assert then .ahead y else .nahead y) (fun _ => .restore)
      (compileRec flags lb x)
  | .lookbehind assert x =>
    .block flags (fun _ y => if assert then .behind y else .nbehind y) (fun _ => .restore)
      (compileRec flags true x)
  | .standalone x =>
    .block flags (fun _ y => .once y) (fun _ => .restore) (compileRec flags lb x)
  | .branch n (.alter (yes :: no :: _)) =>
    .fork flags (.branch (2 * n)) .nothing (compileRec flags lb yes) (compileRec flags lb no)
  | .branch _ _ => .error
  | .branchAssert cond (.alter (yes :: no :: _)) =>
    .fork flags .brancha (compileRec flags lb cond) (compileRec flags lb yes)
      (compileRec flags lb no)
  | .branchAssert cond (.seq _ []) =>
    .fork flags .brancha (compileRec flags lb cond) .nothing (.emit flags .fail)
  | .branchAssert cond (.alter []) =>
    .fork flags .brancha (compileRec flags lb cond) (.emit flags .fail) (.emit flags .fail)
  | .branchAssert cond (.anchor a) =>
    .fork flags .brancha (compileRec flags lb cond) (.emit flags (.empty a)) (.emit flags .fail)
  | .branchAssert cond (.atom a) =>
    match a with
    | .invertedCharClass _ => .error
    | a =>
      .fork flags .brancha (compileRec flags lb cond) (.emit flags (.consume a))
        (.emit flags .fail)
  | .branchAssert _ _ => .error
  | .flags _ => .error

/-- `compile_seq`; the emitting pass starts at the end inside a lookbehind. -/
def compileSeq (flags : Flags) (lb : Bool) : List (Ast ι) → Gen ι
  | [] => .nothing
  | x :: items =>
    if emitp && lb then .andThen (compileSeq flags lb items) (compileRec flags lb x)
    else .andThen (compileRec flags lb x) (compileSeq flags lb items)

/-- `compile_seq` on a list that has been reversed: its first item is all that is left of it. -/
def compileFirst (flags : Flags) (lb : Bool) : List (Ast ι) → Gen ι
  | [] => .nothing
  | x :: _ => compileRec flags lb x

/-- The alternatives of an alternation, in `compile_rec`. -/
def compileAlter (flags : Flags) (lb : Bool) : List (Ast ι) → Gen ι
  | [] => .emit flags .fail
  | [x, y] => .fork flags .split .nothing (compileRec flags lb x) (compileRec flags lb y)
  | x :: items => .fork flags .split .nothing (compileRec flags lb x) (compileAlter flags lb items)

end

/-- The rounds that a repetition always makes. -/
def compileConstant (flags : Flags) (lb : Bool) (x : Ast ι) (min : ℕ) : Gen ι :=
  match x with
  | .seq cell items =>
    compileRepSeq cell (compileFirst emitp flags lb items) (compileSeq emitp flags lb items) min
  | x => .times (compileRec emitp flags lb x) min

theorem compileRec_rep (flags : Flags) (lb greedy : Bool) (min : ℕ) (max : Option ℤ) (x : Ast ι) :
    compileRec emitp flags lb (.rep greedy min max x) =
      .andThen (compileConstant emitp flags lb x min)
        (compileVarying flags greedy min max (compileRec emitp flags lb x)) := by
  cases x <;> rfl

end

/-! ### The result -/

/-- `prog_t`, after `compile`: an array with one slot more than the counting pass counted, of which
the emitting pass has written the first ones. -/
structure Prog where
  /-- `codemax` of the counting pass -/
  codemax : ℕ
  code : List Inst
deriving DecidableEq

/-- Counts, then emits. -/
def compile [DecidableEq ι] (flags : Flags) (ast : Ast ι) : Option Prog := do
  let (counted, _) ← compileRec false flags false ast 0 []
  let (code, _) ← compileRec true flags false ast 0 []
  return ⟨counted.length, code⟩

namespace Prog

variable (p : Prog)

/-- The number of slots. -/
def rootLength : ℕ := p.codemax + 1

/-- No flag is set. -/
def noFlags : Flags := ⟨false, false, false⟩

/-- What was written into a slot; the last one is overwritten with `RX_MATCH`. -/
def slot (i : ℕ) : Option Inst := if i = p.codemax then some ⟨.match, noFlags⟩ else p.code[i]?

/-- The array `root`; a slot that was not written is zero, which reads as `RX_ANY`. -/
def root : List Inst :=
  (List.range p.rootLength).map fun i => (p.slot i).getD ⟨.consume .everything, noFlags⟩

/-- The array is filled, and jumps stay inside. -/
structure WellFormed : Prop where
  /-- the emitting pass writes what the counting pass counted -/
  length_code : p.code.length = p.codemax
  initialised : ∀ i < p.rootLength, (p.slot i).isSome
  targets : ∀ i inst, p.slot i = some inst → ∀ t ∈ inst.op.targets, t < p.rootLength

end Prog

end Sagittarius.Regex
