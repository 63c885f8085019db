import Mathlib.Data.Int.Notation
import Mathlib.Data.List.Basic

/-!
# Regular expressions: characters, character sets and syntax trees

The data `regex.c` works on.  A text is a list of code points; a pattern is parsed into an
S-expression, here the type `Ast`.

* `CharSet` is the representation of `charset.c`, `CharSet.contains` the membership test;
* `Atom` is what consumes one character, `Anchor` what looks at a position only;
* `Ast` is the syntax tree, with an induction principle `Ast.induct` for its lists of children.

Lists in a syntax tree are objects that the code generator shares and reverses in place, so a
`sequence` node carries the identity `cell` of its list; everything else ignores it.
-/

namespace Sagittarius.Regex

/-- `SgChar`, the code of a character. -/
abbrev SgChar := ℕ

/-- The code of a character constant of the source. -/
def chr (c : Char) : SgChar := c.toNat

/-! ### The C library on characters -/

/-- An ASCII character. -/
def isascii (c : SgChar) : Bool := c < 128

/-- A decimal digit. -/
def isdigit (c : SgChar) : Bool := chr '0' ≤ c && c ≤ chr '9'

/-- A Latin letter. -/
def isalpha (c : SgChar) : Bool :=
  (chr 'a' ≤ c && c ≤ chr 'z') || (chr 'A' ≤ c && c ≤ chr 'Z')

/-- A letter or a digit. -/
def isalnum (c : SgChar) : Bool := isalpha c || isdigit c

/-- The lower case. -/
def tolower (c : SgChar) : SgChar := if chr 'A' ≤ c && c ≤ chr 'Z' then c + 32 else c

/-- The upper case. -/
def toupper (c : SgChar) : SgChar := if chr 'a' ≤ c && c ≤ chr 'z' then c - 32 else c

/-- The tables of `unicode.c` that matching depends on. -/
structure Unicode where
  sgCharUpCase : SgChar → SgChar
  sgCharDownCase : SgChar → SgChar
  alnum : SgChar → Bool

/-! ### Character sets -/

/-- `SgCharSet`: a table of the first 128 characters and the ranges of the others. -/
structure CharSet where
  small : BitVec 128
  /-- `large`, the entries of the tree map in the order of their keys. -/
  large : List (SgChar × SgChar)
deriving DecidableEq

/-- These have a bit each. -/
def sgCharSetSmallChars : ℕ := 128

/-- `Sg_CharSetContains`: looks for a character. -/
def CharSet.contains (cs : CharSet) (c : SgChar) : Bool :=
  if c < sgCharSetSmallChars then cs.small.getLsbD c
  else cs.large.any fun e => e.1 ≤ c && c ≤ e.2

/-! ### Flags, atoms and anchors -/

/-- The compile time flags that `INST_FLAG` is tested for. -/
structure Flags where
  caseInsensitive : Bool
  dotall : Bool
  unicodeCase : Bool
deriving DecidableEq

/-- The characters of a flag list. -/
inductive FlagChar where
  | i
  | m
  | s
  | u
deriving DecidableEq

/-- `calculate_flags`; `SG_MULTILINE` is not tested after parsing. -/
def calculateFlags (flag : Flags) (flags : List (FlagChar × Bool)) : Flags :=
  flags.foldl (fun flag slot => match slot.1 with
    | .i => { flag with caseInsensitive := slot.2 }
    | .m => flag
    | .s => { flag with dotall := slot.2 }
    | .u => { flag with unicodeCase := slot.2 }) flag

/-- The nodes that match one character. -/
inductive Atom where
  | char (c : SgChar)
  | charSet (cs : CharSet)
  /-- `(inverted-char-class cs)` -/
  | invertedCharClass (cs : CharSet)
  | everything
deriving DecidableEq

/-- `inst_matches`, for the instruction an atom is compiled to. -/
def instMatches (u : Unicode) (flags : Flags) : Atom → SgChar → Bool
  | .charSet cs, c =>
    if cs.contains c then true
    else if flags.caseInsensitive then
      if flags.unicodeCase then
        cs.contains (u.sgCharUpCase c) || cs.contains (u.sgCharDownCase c)
      else if isascii c then cs.contains (tolower c) || cs.contains (toupper c)
      else false
    else false
  | .invertedCharClass cs, c => !cs.contains c
  | .char a, c =>
    if a = c then true
    else if flags.caseInsensitive then
      if flags.unicodeCase then u.sgCharDownCase a = u.sgCharDownCase c
      else if isascii a && isascii c then tolower a = tolower c
      else false
    else false
  | .everything, c => if flags.dotall then true else c ≠ chr '\n'

/-- The symbols of a syntax tree that match at a position. -/
inductive Anchor where
  | startAnchor
  | modelessStartAnchor
  | endAnchor
  | modelessEndAnchor
  | modelessEndAnchorNoNewline
  | wordBoundary
  | nonWordBoundary
deriving DecidableEq

/-- `iswordchar`; `flags` are those of the instruction it is given. -/
def iswordchar (u : Unicode) (flags : Flags) (c : SgChar) : Bool :=
  if flags.unicodeCase then c = chr '_' || u.alnum c
  else c ≤ 0xFF && (isalnum c || c = chr '_')

/-! ### Syntax trees -/

/-- A syntax tree. -/
inductive Ast (ι : Type) where
  /-- a character, a character set, `everything` or `(inverted-char-class cs)` -/
  | atom (a : Atom)
  /-- the symbol of an anchor or a word boundary -/
  | anchor (a : Anchor)
  /-- `(sequence item ...)` -/
  | seq (cell : ι) (items : List (Ast ι))
  /-- `(flagged-sequence flags x)` -/
  | flaggedSeq (flags : List (FlagChar × Bool)) (x : Ast ι)
  /-- `(register n name x)` -/
  | register (n : ℕ) (name : Option (List SgChar)) (x : Ast ι)
  /-- `(alternation item ...)` -/
  | alter (items : List (Ast ι))
  /-- `(greedy-repetition min max x)` and `(non-greedy-repetition min max x)`; no `max` is `#f`. -/
  | rep (greedy : Bool) (min : ℕ) (max : Option ℤ) (x : Ast ι)
  /-- `(back-reference . n)` -/
  | backref (n : ℕ)
  /-- `(lookahead assert x)` -/
  | lookahead (assert : Bool) (x : Ast ι)
  /-- `(lookbehind assert x)` -/
  | lookbehind (assert : Bool) (x : Ast ι)
  /-- `(standalone x)` -/
  | standalone (x : Ast ι)
  /-- `(branch n rest)` -/
  | branch (n : ℕ) (rest : Ast ι)
  /-- `(branch cond rest)` with a lookahead or a lookbehind `cond` -/
  | branchAssert (cond rest : Ast ι)
  /-- `(flags flag ...)`, which nothing but the parser knows -/
  | flags (flags : List (FlagChar × Bool))

namespace Ast

variable {ι : Type}

/-- Induction on syntax trees, with the hypothesis for every child in a list. -/
@[elab_as_elim]
theorem induct {P : Ast ι → Prop} (atom : ∀ a, P (.atom a)) (anchor : ∀ a, P (.anchor a))
    (seq : ∀ cell items, (∀ x ∈ items, P x) → P (.seq cell items))
    (flaggedSeq : ∀ flags x, P x → P (.flaggedSeq flags x))
    (register : ∀ n name x, P x → P (.register n name x))
    (alter : ∀ items, (∀ x ∈ items, P x) → P (.alter items))
    (rep : ∀ greedy min max x, P x → P (.rep greedy min max x))
    (backref : ∀ n, P (.backref n))
    (lookahead : ∀ assert x, P x → P (.lookahead assert x))
    (lookbehind : ∀ assert x, P x → P (.lookbehind assert x))
    (standalone : ∀ x, P x → P (.standalone x))
    (branch : ∀ n rest, P rest → P (.branch n rest))
    (branchAssert : ∀ cond rest, P cond → P rest → P (.branchAssert cond rest))
    (flags : ∀ f, P (.flags f)) (x : Ast ι) : P x :=
  Ast.rec atom anchor seq flaggedSeq register alter rep backref lookahead lookbehind standalone
    branch branchAssert flags (fun _ h => absurd h List.not_mem_nil)
    (fun _ _ hx hxs _ h => (List.mem_cons.1 h).elim (fun e => e ▸ hx) (hxs _)) x

end Ast

/-- The empty sequence. -/
def nullSeq {ι : Type} (cell : ι) : Ast ι := .seq cell []

end Sagittarius.Regex
