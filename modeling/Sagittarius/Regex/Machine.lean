import Sagittarius.Library.Lockstep
import Sagittarius.Regex.Compile
import Sagittarius.Regex.Semantics

/-!
# Programs as machines

What a compiled program without extended instructions does on a text, as a machine of
`Library.Lockstep`: a thread is at an instruction that reads a character or at `RX_MATCH`, and has
its captures.  Between two characters a thread follows jumps, splits, saves and anchors without
coming back to the same instruction (`closure`).

`machine` is the abstract model of both matchers: what `ThreadMachine.outcomes` lists is what a
backtracking matcher finds that tries alternatives in the order of the program.
-/

namespace Sagittarius.Regex

variable (P : List Inst)

/-- The opcode at an address. -/
def opAt (pc : ℕ) : Option Op := P[pc]?.map Inst.op

/-- The instructions that follow without reading a character; `hold` are the anchors that match at
the position `p`. -/
def follow (hold : Anchor → Bool) (p pc : ℕ) (caps : Caps) : List (ℕ × Caps) :=
  match opAt P pc with
  | some (.jmp x) => [(x, caps)]
  | some (.split x y) => [(x, caps), (y, caps)]
  | some (.save j) => [(pc + 1, caps.set j (some p))]
  | some (.empty a) => if hold a then [(pc + 1, caps)] else []
  | _ => []

/-- The instructions a thread stops at: those that read a character, and `RX_MATCH`. -/
def stops (pc : ℕ) : Bool :=
  match opAt P pc with
  | some (.consume _) | some .match => true
  | _ => false

/-- The instructions between two characters. -/
def graph (hold : Anchor → Bool) (p : ℕ) : OrderedGraph ℕ Caps where
  next := follow P hold p
  leaf := stops P
  inner := Finset.range P.length
  next_fst pc s t := by
    unfold follow
    split
    all_goals first | rfl | (split <;> rfl)
  mem_inner pc s h := by
    rw [Finset.mem_range]
    by_contra hpc
    have hnone : P[pc]? = none := List.getElem?_eq_none (Nat.le_of_not_lt hpc)
    exact h (by simp [follow, opAt, hnone])

/-- The threads that start at an address, the preferred one first. -/
def closure (hold : Anchor → Bool) (p pc : ℕ) (caps : Caps) : List (ℕ × Caps) :=
  (graph P hold p).allPaths pc caps

/-- The instruction reads the character at `p`. -/
def reads (m : Subject) (p pc : ℕ) : Bool :=
  match P[pc]? with
  | some ⟨.consume a, flags⟩ => p < m.stop && instMatches m.u flags a (m.charAt p)
  | _ => false

/-- The program on a text, with the anchors that match at each position.  A search starts with
the captures `init`. -/
def machine (m : Subject) (hold : ℕ → Anchor → Bool) (init : Caps) : ThreadMachine ℕ Caps where
  accept pc := opAt P pc = some .match
  reads := reads P m
  succ p t := closure P (hold (p + 1)) (p + 1) (t.1 + 1) t.2
  succ_fst _ _ _ _ := OrderedGraph.paths_fst _ _ _ _ _
  spawn p := closure P (hold p) p 0 (init.set 0 (some p))

variable {P} {m : Subject} {hold : ℕ → Anchor → Bool} {init : Caps}

theorem paths_of_stops {φ : Anchor → Bool} {p k pc : ℕ} {S : List ℕ} (caps : Caps) (hS : pc ∉ S)
    (h : stops P pc = true) : (graph P φ p).paths (k + 1) S pc caps = [(pc, caps)] := by
  rw [OrderedGraph.paths, if_neg hS]
  exact if_pos h

theorem machine_accept (pc : ℕ) :
    (machine P m hold init).accept pc = decide (opAt P pc = some .match) := rfl

theorem machine_next (p : ℕ) (t : ℕ × Caps) :
    (machine P m hold init).next p t =
      if reads P m p t.1 then closure P (hold (p + 1)) (p + 1) (t.1 + 1) t.2 else [] := rfl

end Sagittarius.Regex
