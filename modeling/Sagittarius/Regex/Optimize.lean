import Sagittarius.Regex.Semantics

/-!
# The optimizer

`optimize` flattens nested sequences and splits a repetition into a constant and a varying part.
It works on the objects of the syntax tree: a part that does not change is kept and new lists get
new identities, so the functions return `none` for "the same object" and pass on the next unused
identity.

* `optimize_equiv` : the outcomes, their order and the captures stay the same, as long as no
  repetition that is reached has the bound zero below a positive minimum;
* `optimize_drops_repetition` : `a{1,0}`, which the code generator compiles like `a`, becomes the
  empty sequence.
-/

namespace Sagittarius.Regex

open Option Attempts

/-! ### The functions of the source -/

/-- `maybe_split_repetition`; `regex` is the optimized `x`. -/
def maybeSplitRepetition (greedy : Bool) (minimum : ℕ) (max : Option ℤ) (x regex : Ast ℕ)
    (new : ℕ) : Ast ℕ × ℕ :=
  -- trivial cases: don't repeat at all, or repeat exactly once
  if max = some 0 then (nullSeq new, new + 1)
  else if minimum = 1 ∧ max = some 1 then (x, new)
  else
    let constant := Ast.rep greedy minimum (some minimum) regex
    if max = some (minimum : ℤ) then (constant, new)
    else
      let varying := Ast.rep greedy 0 (max.map (· - (minimum : ℤ))) regex
      if minimum = 0 then (varying, new)
      else if minimum = 1 then (.seq new [regex, varying], new + 1)
      else (.seq new [constant, varying], new + 1)

mutual

/-- `optimize`; the other types of nodes end up in a walk along the list of the node, in which
nothing looks like a node. -/
def optimize : Ast ℕ → ℕ → Option (Ast ℕ) × ℕ
  | .rep greedy min max x, new =>
    let regex := optimize x new
    let split := maybeSplitRepetition greedy min max x (regex.1.getD x) regex.2
    (some split.1, split.2)
  | .alter items, new =>
    let items' := optimizeAlter items new
    (items'.1.map .alter, items'.2)
  | .seq _ items, new =>
    match optimizeSeq items new with
    | (none, new) => (none, new)
    | (some items', new) => (some (.seq new items'), new + 1)
  | .register n name x, new =>
    let x' := optimize x new
    (x'.1.map (.register n name), x'.2)
  | _, new => (none, new)

/-- Flattens nested sequences. -/
def optimizeSeq : List (Ast ℕ) → ℕ → Option (List (Ast ℕ)) × ℕ
  | [], new => (none, new)
  | .seq _ inner :: items, new =>
    let tail := optimizeSeq items new
    let inner' := optimizeSeq inner tail.2
    (some (inner'.1.getD inner ++ tail.1.getD items), inner'.2)
  | elt :: items, new =>
    let tail := optimizeSeq items new
    let opted := optimize elt tail.2
    (if opted.1.isNone && tail.1.isNone then none
      else some (opted.1.getD elt :: tail.1.getD items), opted.2)

/-- The alternatives of an alternation, in `optimize`. -/
def optimizeAlter : List (Ast ℕ) → ℕ → Option (List (Ast ℕ)) × ℕ
  | [], new => (none, new)
  | x :: items, new =>
    let x' := optimize x new
    let items' := optimizeAlter items x'.2
    (if x'.1.isNone && items'.1.isNone then none
      else some (x'.1.getD x :: items'.1.getD items), items'.2)

end

/-- The optimized syntax tree. -/
def Ast.optimized (x : Ast ℕ) (new : ℕ) : Ast ℕ := (optimize x new).1.getD x

/-! ### Meaning is preserved -/

mutual

/-- No repetition that the optimizer splits asks for more than zero and for at most zero rounds. -/
def Ast.boundsOk : Ast ℕ → Bool
  | .rep _ min max x =>
    if max = some 0 then min = 0
    else if min = 1 ∧ max = some 1 then true
    else x.boundsOk
  | .alter items => boundsOkAll items
  | .seq _ items => boundsOkAll items
  | .register _ _ x => x.boundsOk
  | _ => true

/-- `Ast.boundsOk` of every syntax tree in a list -/
def boundsOkAll : List (Ast ℕ) → Bool
  | [] => true
  | x :: items => x.boundsOk && boundsOkAll items

end

section

variable (m : Subject) (flags : Flags)

theorem denote_seq (cell : ℕ) (items : List (Ast ℕ)) :
    denote m flags false (.seq cell items) = .seqAll (items.map (denote m flags false)) := by
  simp only [denote, Bool.false_eq_true, ↓reduceIte, denoteAll_eq_map]

theorem denote_alter (items : List (Ast ℕ)) :
    denote m flags false (.alter items) = .oneOf (items.map (denote m flags false)) := by
  simp only [denote, denoteAll_eq_map]

theorem denote_maybeSplitRepetition {greedy : Bool} {min : ℕ} {max : Option ℤ} {x regex : Ast ℕ}
    (hb : (Ast.rep greedy min max x).boundsOk)
    (hx : x.boundsOk → denote m flags false regex = denote m flags false x) (new : ℕ) :
    denote m flags false (maybeSplitRepetition greedy min max x regex new).1 =
      repeated m greedy min max (denote m flags false x) := by
  simp only [Ast.boundsOk] at hb
  unfold maybeSplitRepetition
  split_ifs at hb ⊢ with h0 h1 heq hmin hmin'
  · obtain rfl : min = 0 := of_decide_eq_true hb
    subst h0
    simp [nullSeq, denote_seq, repeated, times, upTo]
  · obtain ⟨rfl, rfl⟩ := h1
    simp [repeated, times, upTo]
  · subst heq
    simp only [denote, hx hb]
  · subst hmin
    simp only [denote, hx hb]
    cases max <;> simp [repeated]
  · subst hmin'
    rw [denote_seq]
    simp only [List.map, denote, hx hb]
    cases max <;> simp [repeated, times]
  · rw [denote_seq]
    simp only [List.map, denote, hx hb]
    cases max <;> simp [repeated, times, upTo]

theorem denote_optimized_seq (cell : ℕ) (items : List (Ast ℕ)) (new : ℕ) :
    denote m flags false ((Ast.seq cell items).optimized new) =
      .seqAll (((optimizeSeq items new).1.getD items).map (denote m flags false)) := by
  simp only [Ast.optimized, optimize]
  rcases optimizeSeq items new with ⟨_ | items', new'⟩ <;> exact denote_seq m flags _ _

theorem optimizeSeq_cons (elt : Ast ℕ) (items : List (Ast ℕ)) (new : ℕ) :
    seqAll (((optimizeSeq (elt :: items) new).1.getD (elt :: items)).map
        (denote m flags false)) =
      .andThen (denote m flags false (elt.optimized (optimizeSeq items new).2))
        (.seqAll (((optimizeSeq items new).1.getD items).map (denote m flags false))) := by
  cases elt
  case seq cell inner =>
    rw [denote_optimized_seq, optimizeSeq, getD_some, List.map_append,
      seqAll_append]
  all_goals
    rw [optimizeSeq, Ast.optimized]
    · rcases optimize _ (optimizeSeq items new).2 with ⟨_ | _, _⟩ <;>
        rcases optimizeSeq items new with ⟨_ | _, _⟩ <;> rfl
    · intro cell inner h
      cases h

section

variable {items : List (Ast ℕ)}
  (ih : ∀ x ∈ items, x.boundsOk → ∀ new,
    denote m flags false (x.optimized new) = denote m flags false x)
  (hb : boundsOkAll items) (new : ℕ)

include ih hb

theorem denote_optimizeSeq :
    seqAll (((optimizeSeq items new).1.getD items).map (denote m flags false)) =
      .seqAll (items.map (denote m flags false)) := by
  induction items with
  | nil => rfl
  | cons x items ihs =>
    rw [boundsOkAll, Bool.and_eq_true] at hb
    rw [optimizeSeq_cons, ih x (List.mem_cons_self ..) hb.1,
      ihs (fun y hy => ih y (List.mem_cons_of_mem _ hy)) hb.2]
    rfl

theorem denote_optimizeAlter :
    ((optimizeAlter items new).1.getD items).map (denote m flags false) =
      items.map (denote m flags false) := by
  induction items generalizing new with
  | nil => rfl
  | cons x items ihs =>
    rw [boundsOkAll, Bool.and_eq_true] at hb
    have hx := ih x (List.mem_cons_self ..) hb.1 new
    have hs := ihs (fun y hy => ih y (List.mem_cons_of_mem _ hy)) hb.2 (optimize x new).2
    rw [optimizeAlter]
    rw [Ast.optimized] at hx
    revert hx hs
    rcases optimize x new with ⟨_ | x', new'⟩ <;>
      rcases optimizeAlter items _ with ⟨_ | items', _⟩ <;> simp +contextual

end

end

theorem denote_optimized (m : Subject) (flags : Flags) (x : Ast ℕ) (hb : x.boundsOk) (new : ℕ) :
    denote m flags false (x.optimized new) = denote m flags false x := by
  induction x using Ast.induct generalizing flags new with
  | seq cell items ih =>
    rw [denote_optimized_seq, denote_seq]
    exact denote_optimizeSeq m flags (fun y hy h => ih y hy flags h) hb new
  | alter items ih =>
    have h := denote_optimizeAlter m flags (fun y hy h => ih y hy flags h) hb new
    rw [denote_alter, ← h, ← denote_alter, Ast.optimized, optimize]
    rcases optimizeAlter items new with ⟨_ | items', new'⟩ <;> rfl
  | register n name y ih =>
    have h := ih flags hb new
    simp only [Ast.optimized, optimize] at h ⊢
    revert h
    rcases optimize y new with ⟨_ | y', new'⟩
    · exact fun _ => rfl
    · intro h
      simp only [map_some, getD_some, denote] at h ⊢
      rw [h]
  | rep greedy min max y ih =>
    exact denote_maybeSplitRepetition m flags hb (fun h => ih flags h new) _
  | _ => rfl

/-- **The optimizer preserves meaning**: the optimized tree has the same outcomes on every text, in
the same order of preference and with the same captures, when no repetition it reaches has the
upper bound zero and a positive lower bound. -/
theorem optimize_equiv (x : Ast ℕ) (new : ℕ) (h : x.boundsOk) : Equiv (x.optimized new) x :=
  fun m flags => denote_optimized m flags x h new

/-- `(a(?:bc)){2,}`: a sequence is flattened and a repetition split. -/
theorem optimize_equiv_nested :
    let x : Ast ℕ := .rep true 2 none (.register 1 none (.seq 0 [.atom (.char (chr 'a')),
      .seq 1 [.atom (.char (chr 'b')), .atom (.char (chr 'c'))]]))
    x.boundsOk ∧ Equiv (x.optimized 2) x :=
  ⟨by decide, optimize_equiv _ _ (by decide)⟩

/-- **A repetition is lost**: on the text `a` the pattern `a{1,0}` matches one character, as the
code generator reads it, and the optimized pattern matches none. -/
theorem optimize_drops_repetition :
    let x : Ast ℕ := .register 0 none (.rep true 1 (some 0) (.atom (.char (chr 'a'))))
    ∃ m flags s, denote m flags false x s = [⟨1, [some 0, some 1]⟩] ∧
      denote m flags false (x.optimized 0) s = [⟨0, [some 0, some 0]⟩] :=
  ⟨⟨⟨id, id, fun _ => false⟩, ⟨false, false, false⟩, [chr 'a'], 1, by decide⟩,
    ⟨false, false, false⟩, ⟨0, [none, none]⟩, by decide, by decide⟩

end Sagittarius.Regex
