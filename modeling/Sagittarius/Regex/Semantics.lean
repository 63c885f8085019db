import Sagittarius.Library.Attempts
import Sagittarius.Regex.Ast

/-!
# What a syntax tree means

The outcomes of matching a syntax tree at a position, in the order in which a backtracking matcher
that tries alternatives in the order of the pattern finds them: the abstract model against which
the optimizer, the code generator, the matchers and the printer are compared.

* `Subject` is a text with the end of the region that is searched, `Subject.holds` the meaning of
  the anchors and word boundaries;
* `State` is a position and the captures, `denote` the meaning of a syntax tree;
* `Equiv` : two syntax trees have the same outcomes, in the same order and with the same captures,
  on every text.

Inside a lookbehind the pattern is matched from its end, to the left.
-/

namespace Sagittarius.Regex

variable {ι κ : Type}

/-! ### Texts and positions -/

/-- A text and the region of it that is searched; what lies before a position can be seen, what
lies behind the region cannot. -/
structure Subject where
  u : Unicode
  /-- the flags of the pattern, which decide what a word is -/
  flags : Flags
  text : List SgChar
  /-- the end of the region -/
  stop : ℕ
  stop_le : stop ≤ text.length

namespace Subject

/-- The character at a position. -/
def charAt (m : Subject) (p : ℕ) : SgChar := m.text.getD p 0

/-- A word goes on at `p`. -/
def wordAt (m : Subject) (p : ℕ) : Bool := p < m.stop && iswordchar m.u m.flags (m.charAt p)

/-- The character before `p` is part of a word. -/
def wordBefore (m : Subject) (p : ℕ) : Bool := 0 < p && iswordchar m.u m.flags (m.charAt (p - 1))

/-- The anchor matches at `p`. -/
def holds (m : Subject) : Anchor → ℕ → Bool
  | .startAnchor, p => p = 0 || m.charAt (p - 1) = chr '\n'
  | .modelessStartAnchor, p => p = 0
  | .endAnchor, p => p = m.stop || p < m.stop && m.charAt p = chr '\n'
  | .modelessEndAnchor, p => p = m.stop || p + 1 = m.stop && m.charAt p = chr '\n'
  | .modelessEndAnchorNoNewline, p => p = m.stop
  | .wordBoundary, p => m.wordAt p != m.wordBefore p
  | .nonWordBoundary, p => m.wordAt p == m.wordBefore p

end Subject

/-! ### States -/

/-- The start and end of every group, at twice its number and one behind. -/
abbrev Caps := List (Option ℕ)

/-- A position in the text and the groups that were captured. -/
structure State where
  pos : ℕ
  caps : Caps
deriving DecidableEq

namespace State

/-- Remember the position in slot `j`. -/
def save (j : ℕ) (s : State) : State := { s with caps := s.caps.set j (some s.pos) }

/-- The span of a group that has been captured. -/
def group (n : ℕ) (s : State) : Option (ℕ × ℕ) :=
  match s.caps[2 * n]?.join, s.caps[2 * n + 1]?.join with
  | some a, some b => some (a, b)
  | _, _ => none

end State

/-! ### Single characters -/

/-- One character, to the right or to the left. -/
def oneChar (m : Subject) (back : Bool) (ok : SgChar → Bool) : Attempts State := fun s =>
  if back then if 0 < s.pos && ok (m.charAt (s.pos - 1)) then [{ s with pos := s.pos - 1 }] else []
  else if s.pos < m.stop && ok (m.charAt s.pos) then [{ s with pos := s.pos + 1 }] else []

/-- How a back reference compares characters. -/
def backRefEq (u : Unicode) (flags : Flags) (a b : SgChar) : Bool :=
  if flags.caseInsensitive then
    if flags.unicodeCase then u.sgCharDownCase a = u.sgCharDownCase b
    else if isascii a && isascii b then tolower a = tolower b
    else false
  else a = b

/-- The text of a group once more. -/
def sameText (m : Subject) (flags : Flags) (back : Bool) (n : ℕ) : Attempts State := fun s =>
  match s.group n with
  | none => []
  | some (a, b) =>
    if b < a then []
    else if back then
      if b - a ≤ s.pos &&
          (List.range (b - a)).all fun k => backRefEq m.u flags (m.charAt (s.pos - 1 - k))
            (m.charAt (b - 1 - k))
      then [{ s with pos := s.pos - (b - a) }] else []
    else if s.pos + (b - a) ≤ m.stop &&
          (List.range (b - a)).all fun k => backRefEq m.u flags (m.charAt (s.pos + k))
            (m.charAt (a + k))
      then [{ s with pos := s.pos + (b - a) }] else []

/-! ### Nodes -/

/-- An assertion about what `f` does at the position: the captures of the way it prefers stay. -/
def look (assert : Bool) (f : Attempts State) : Attempts State := fun s =>
  match f s with
  | [] => if assert then [] else [s]
  | o :: _ => if assert then [{ s with caps := o.caps }] else []

/-- A round of a repetition that does not move is not repeated. -/
def moved (s s' : State) : Bool := s'.pos != s.pos

/-- `f` at least `min` times and at most `max` times. -/
def repeated (m : Subject) (greedy : Bool) (min : ℕ) (max : Option ℤ) (f : Attempts State) :
    Attempts State :=
  .andThen (.times f min) (match max with
    | none => .star f moved greedy (m.stop + 1)
    | some max => .upTo f greedy (max - min).toNat)

mutual

/-- The outcomes of matching a syntax tree, the preferred one first. -/
def denote (m : Subject) (flags : Flags) (back : Bool) : Ast ι → Attempts State
  | .atom a => oneChar m back (instMatches m.u flags a)
  | .anchor a => fun s => if m.holds a s.pos then [s] else []
  | .seq _ items =>
    let fs := denoteAll m flags back items
    .seqAll (if back then fs.reverse else fs)
  | .flaggedSeq f x => denote m (calculateFlags flags f) back x
  | .register n _ x => fun s =>
    (denote m flags back x (s.save (2 * n))).map (State.save (2 * n + 1))
  | .alter items => .oneOf (denoteAll m flags back items)
  | .rep greedy min max x => repeated m greedy min max (denote m flags back x)
  | .backref n => sameText m flags back n
  | .lookahead assert x => look assert (denote m flags false x)
  | .lookbehind assert x => look assert (denote m flags true x)
  | .standalone x => fun s => (denote m flags back x s).take 1
  | .branch n (.alter items) => fun s =>
    (denoteAll m flags back items).getD (if (s.group n).isSome then 0 else 1) .fail s
  | .branch _ _ => .fail
  | .branchAssert cond (.alter items) => fun s =>
    match denote m flags back cond s with
    | [] => (denoteAll m flags back items).getD 1 .fail s
    | o :: _ => (denoteAll m flags back items).getD 0 .fail o
  | .branchAssert cond rest => .andThen (denote m flags back cond) (denote m flags back rest)
  | .flags _ => .fail

/-- The meanings of a list of syntax trees. -/
def denoteAll (m : Subject) (flags : Flags) (back : Bool) : List (Ast ι) → List (Attempts State)
  | [] => []
  | x :: xs => denote m flags back x :: denoteAll m flags back xs

end

theorem denoteAll_eq_map (m : Subject) (flags : Flags) (back : Bool) (xs : List (Ast ι)) :
    denoteAll m flags back xs = xs.map (denote m flags back) := by
  induction xs with
  | nil => rfl
  | cons x xs ih => rw [denoteAll, ih, List.map_cons]

/-- The same outcomes in the same order and with the same captures, on every text. -/
def Equiv (x : Ast ι) (y : Ast κ) : Prop :=
  ∀ m flags, denote m flags false x = denote m flags false y

theorem Equiv.refl (x : Ast ι) : Equiv x x := fun _ _ => rfl

end Sagittarius.Regex
