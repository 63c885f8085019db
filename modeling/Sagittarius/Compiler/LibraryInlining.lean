import Mathlib.Data.Finset.Lattice.Fold
import Sagittarius.Compiler.ScanInlinable
import Sagittarius.Library.Convergence
import Sagittarius.Library.Ranking

/-!
# Inlining the procedures of a library

`pass2` replaces a call of an inlinable definition of the library by a copy of the definition, and
optimises the copy again.  The model is a slice of `pass2`: its traversal, with this inlining and
the inlining of constants.  Left out are the calls of a `$lambda` or a local variable, whose
expansion the source optimises again, the calls of built-in procedures (`inlinable-gref?`), and the
optimisations of local variables, frames, closures and constant tests.  Where the source would
rewrite such a node, the model visits its parts and keeps it.

* `pass2Rec`, `pass2` : the traversal, with fuel;
* `pass2_ends` : `pass2` comes to an end if the definitions that `pass1/scan-inlinable` returns do
  not refer to each other in a cycle;
* `library_inlining_iff` : this is the case if and only if no three or more candidates refer to each
  other in a ring.

`pass1/scan-inlinable` finds definitions that refer to themselves and pairs that refer to each
other, but no longer cycles (`ring_of_three`); on such a library `pass2` does not end.
-/

namespace Sagittarius.Compiler

open List IForm

/-- An entry of the alists `inlinable` and `constable` of `penv`: the name, the expression and the
`optimized` flag of a definition. -/
structure Inliner where
  name : Symbol
  expr : IForm
  optimized : Bool

/-- What `pass2` changes besides the IForm it works on. -/
structure Pass2State where
  inlinables : List Inliner
  constables : List Inliner
  /-- the next local variable that is not in use -/
  nextLvar : Lvar

/-- A computation of `pass2`. -/
abbrev Pass2 := FuelM Pass2State CompileError

/-- A result or an error, as a step of `pass2`. -/
def ofExcept {α : Type} : Except CompileError α → Pass2 α
  | .ok a => pure a
  | .error e => throw e

/-- The limit for a copy. -/
def inlinableLambdaSize : ℕ := 24

/-- `(assq name inlinables)`: the entry for a definition. -/
def inlinerOf (name : Symbol) (inliners : List Inliner) : Option Inliner :=
  inliners.find? fun i => i.name = name

/-- The `optimized` flag is put on a definition. -/
def markOptimized (name : Symbol) (inliners : List Inliner) : List Inliner :=
  inliners.map fun i => if i.name = name then { i with optimized := true } else i

/-- The `$lambda` node of a definition is changed in place. -/
def storeExpr (name : Symbol) (expr : IForm) (inliners : List Inliner) : List Inliner :=
  inliners.map fun i => if i.name = name then { i with expr := expr } else i

/-- `$gref-inlinable?`: a name of this library that it does not export. -/
def grefInlinable (lib : Library) (id : Identifier) : Bool :=
  id.library = lib.ref && !lib.exported id.name

/-- `pass2/$LET`, without the optimisation of the frame. -/
def pass2Let (go : IForm → Pass2 IForm) (type : LetType) (lvars : List Lvar)
    (inits : List IForm) (body : IForm) : Pass2 IForm := do
  let inits ← inits.mapM go
  let body ← go body
  return .letForm type lvars inits body

/-- `pass2/$GREF`: a constant definition of the library is inlined.  Another definition that is not
a procedure is optimised when it is first referred to; the result is not used. -/
def pass2Gref (lib : Library) (go : IForm → Pass2 IForm) (id : Identifier) : Pass2 IForm := do
  let s ← get
  match grefInlinable lib id, inlinerOf id.name s.constables with
  | true, some inliner =>
    match inliner.expr with
    | .const value => return .const value
    | expr =>
      if inliner.optimized then return .gref id
      else
        modify fun s => { s with constables := markOptimized id.name s.constables }
        let _ ← go expr
        return .gref id
  | _, _ => return .gref id

/-- A procedure is optimised when it is first called.  The flag is set before. -/
def optimizeInliner (go : IForm → Pass2 IForm) (inliner : Inliner) : Pass2 IForm := do
  if inliner.optimized then return inliner.expr
  else
    modify fun s => { s with inlinables := markOptimized inliner.name s.inlinables }
    let expr ← go inliner.expr
    modify fun s => { s with inlinables := storeExpr inliner.name expr s.inlinables }
    return expr

/-- `(iform-copy iform '())`: a copy with new variables. -/
def copyFresh (iform : IForm) : Pass2 IForm := do
  let s ← get
  let copy := iformCopy iform [] s.nextLvar
  modify fun s => { s with nextLvar := copy.2 }
  return copy.1

/-- The entry of the procedure that a call can be replaced by. -/
def inlinerOfProc (lib : Library) (proc : IForm) (s : Pass2State) : Option Inliner :=
  match proc with
  | .gref id => if grefInlinable lib id then inlinerOf id.name s.inlinables else none
  | _ => none

/-- The expansion of a call of `lambda`: its arguments become the inits of a `$let`. -/
def pass2Expansion (go : IForm → Pass2 IForm) : IForm → Pass2 IForm
  | .letForm type lvars inits body => pass2Let go type lvars inits body
  | x => pure x

/-- The clauses of `pass2/$CALL` for an inlinable definition, whose call is replaced by the
expansion of a copy if it is small enough, and for any other head, which is kept. -/
def pass2Call (lib : Library) (go : IForm → Pass2 IForm) (proc : IForm) (args : List IForm) :
    Pass2 IForm := do
  let newProc ← go proc
  let s ← get
  match inlinerOfProc lib proc s with
  | some inliner =>
    let lambda ← optimizeInliner go inliner
    let size ← ofExcept (iformCountSizeUpto lambda inlinableLambdaSize)
    if size < inlinableLambdaSize then
      let copy ← copyFresh lambda
      let expansion ← ofExcept (expandInlinedProcedure copy args)
      pass2Expansion go expansion
    else return .call newProc (← args.mapM go)
  | none => return .call newProc (← args.mapM go)

/-- Optimises a node. -/
def pass2Rec (lib : Library) : ℕ → IForm → Pass2 IForm
  | 0, _ => outOfFuel
  | n + 1, iform =>
    match iform with
    | .undef => pure .undef
    | .it => pure .it
    | .library ref => pure (.library ref)
    | .lref lvar => pure (.lref lvar)
    | .const value => pure (.const value)
    | .define id expr => do return .define id (← pass2Rec lib n expr)
    | .gref id => pass2Gref lib (pass2Rec lib n) id
    | .lset lvar expr => do return .lset lvar (← pass2Rec lib n expr)
    | .gset id expr => do return .gset id (← pass2Rec lib n expr)
    | .letForm type lvars inits body => pass2Let (pass2Rec lib n) type lvars inits body
    | .lambda name reqargs option lvars body => do
      return .lambda name reqargs option lvars (← pass2Rec lib n body)
    | .receive reqargs option lvars expr body => do
      let expr ← pass2Rec lib n expr
      return .receive reqargs option lvars expr (← pass2Rec lib n body)
    | .call proc args => pass2Call lib (pass2Rec lib n) proc args
    | .seq body => do return .seq (← body.mapM (pass2Rec lib n))
    | .ifForm test thenForm elseForm => do
      let test ← pass2Rec lib n test
      let thenForm ← pass2Rec lib n thenForm
      return .ifForm test thenForm (← pass2Rec lib n elseForm)
    | .asm insn args => do return .asm insn (← args.mapM (pass2Rec lib n))
    | .list args => do return .list (← args.mapM (pass2Rec lib n))

/-- The forms of a library body.  `pass2/$DEFINE` leaves a definition alone that has been optimised
before; otherwise the `$lambda` node of an inlinable definition is changed in place. -/
def pass2Toplevel (go : IForm → Pass2 IForm) : IForm → Pass2 IForm
  | .define id expr => do
    let s ← get
    match inlinerOf id.name s.inlinables, inlinerOf id.name s.constables with
    | some inliner, _ =>
      if inliner.optimized then return .define id inliner.expr
      else
        let expr ← go inliner.expr
        modify fun s => { s with inlinables := storeExpr id.name expr s.inlinables }
        return .define id expr
    | none, some inliner =>
      if inliner.optimized then return .define id inliner.expr
      else return .define id (← go expr)
    | none, none => return .define id (← go expr)
  | iform => go iform

/-- `$lambda?`: tests for a `$lambda` node. -/
def IForm.isLambda : IForm → Bool
  | .lambda .. => true
  | _ => false

/-- `pass2/collect-inlinables`, after `pass1/collect-inlinable!` has put its flags: procedures are
inlinable, other definitions constable. -/
def collectInlinables (lib : Library) (iforms : List IForm) (next : Lvar) : Pass2State :=
  let inlinables := scanInlinable lib iforms
  { inlinables := (inlinables.filter fun d => d.expr.isLambda).map fun d =>
      ⟨d.id.name, d.expr, false⟩
    constables := (inlinables.filter fun d => !d.expr.isLambda).map fun d =>
      ⟨d.id.name, d.expr, false⟩
    nextLvar := next }

/-- `pass2` for the body of a library. -/
def pass2 (lib : Library) (iforms : List IForm) (fuel : ℕ) : Pass2 IForm := do
  let body ← iforms.mapM (pass2Toplevel (pass2Rec lib fuel))
  return .seq (.library lib.ref :: (body ++ [.undef]))

/-! ### What the traversal keeps -/

section Settling

variable (lib : Library) (known : Symbol → Prop) (rank : Symbol → ℕ)

/-- The definitions that are referred to, and that may be inlined, have a rank below `r`. -/
def Below (r : ℕ) (ms : List Mention) : Prop :=
  ∀ id, .ref id ∈ ms → grefInlinable lib id = true → known id.name → rank id.name < r

/-- The entry refers to entries of a lower rank only. -/
def RankedInliner (i : Inliner) : Prop := known i.name ∧
  Below lib known rank (rank i.name) i.expr.mentions

/-- All entries refer to entries of a lower rank only. -/
structure Ranked (s : Pass2State) : Prop where
  inlinables : ∀ i ∈ s.inlinables, RankedInliner lib known rank i
  constables : ∀ i ∈ s.constables, RankedInliner lib known rank i

variable {lib known rank} {r r' : ℕ} {x : IForm} {xs : List IForm} {ms ns : List Mention}
  {s : Pass2State}

theorem Below.mono (h : Below lib known rank r ms) (hr : r ≤ r') : Below lib known rank r' ms :=
  fun id hid hg hk => lt_of_lt_of_le (h id hid hg hk) hr

@[simp] theorem below_nil : Below lib known rank r [] := by simp [Below]

@[simp] theorem below_append :
    Below lib known rank r (ms ++ ns) ↔ Below lib known rank r ms ∧ Below lib known rank r ns := by
  simp only [Below, mem_append]
  exact ⟨fun h => ⟨fun id hid => h id (.inl hid), fun id hid => h id (.inr hid)⟩,
    fun h id hid => hid.elim (h.1 id) (h.2 id)⟩

@[simp] theorem below_assign {k : Identifier} :
    Below lib known rank r (.assign k :: ms) ↔ Below lib known rank r ms := by
  simp [Below]

theorem below_mentionsAll :
    Below lib known rank r (mentionsAll xs) ↔ ∀ x ∈ xs, Below lib known rank r x.mentions := by
  induction xs with
  | nil => simp [mentionsAll]
  | cons x xs ih => simp [mentionsAll, ih]

variable {name : Symbol}

theorem mem_of_inlinerOf {inliners : List Inliner} {i : Inliner}
    (h : inlinerOf name inliners = some i) : i ∈ inliners ∧ i.name = name :=
  ⟨mem_of_find?_eq_some h, by simpa using find?_some h⟩

theorem rankedInliner_of_mark {inliners : List Inliner}
    (h : ∀ i ∈ inliners, RankedInliner lib known rank i) (name : Symbol) :
    ∀ i ∈ markOptimized name inliners, RankedInliner lib known rank i := by
  intro i hi
  obtain ⟨j, hj, rfl⟩ := mem_map.1 hi
  split_ifs
  · exact h j hj
  · exact h j hj

section

variable (h : Ranked lib known rank s)

include h

theorem Ranked.mark_inlinables (name : Symbol) :
    Ranked lib known rank { s with inlinables := markOptimized name s.inlinables } :=
  ⟨rankedInliner_of_mark h.inlinables name, h.constables⟩

theorem Ranked.mark_constables (name : Symbol) :
    Ranked lib known rank { s with constables := markOptimized name s.constables } :=
  ⟨h.inlinables, rankedInliner_of_mark h.constables name⟩

theorem Ranked.store (hx : Below lib known rank (rank name) x.mentions) :
    Ranked lib known rank { s with inlinables := storeExpr name x s.inlinables } := by
  refine ⟨fun i hi => ?_, h.constables⟩
  obtain ⟨j, hj, rfl⟩ := mem_map.1 hi
  have hj := h.inlinables j hj
  split_ifs with hn
  · subst hn
    exact ⟨hj.1, hx⟩
  · exact hj

theorem Ranked.next (n : Lvar) :
    Ranked lib known rank { s with nextLvar := n } := ⟨h.inlinables, h.constables⟩

end

/-- The postcondition of the steps of `pass2`. -/
def Keeps (lib : Library) (known : Symbol → Prop) (rank : Symbol → ℕ) (r : ℕ) (y : IForm)
    (t : Pass2State) : Prop :=
  Below lib known rank r y.mentions ∧ Ranked lib known rank t

/-- A step of `pass2` that settles in all ranked states. -/
def SettlesBelow (lib : Library) (known : Symbol → Prop) (rank : Symbol → ℕ) (r : ℕ)
    (f : ℕ → Pass2 IForm) : Prop :=
  ∀ s, Ranked lib known rank s → Settles f s (Keeps lib known rank r)

theorem settles_ofExcept_bind {α β : Type} {v : Except CompileError α} {g : ℕ → α → Pass2 β}
    {P : β → Pass2State → Prop} (h : ∀ a, v = .ok a → Settles (fun n => g n a) s P) :
    Settles (fun n => ofExcept v >>= g n) s P := by
  cases v with
  | ok a => exact h a rfl
  | error e => exact .throw e

theorem SettlesBelow.node {f : ℕ → Pass2 IForm} (h : SettlesBelow lib known rank r f)
    {mk : IForm → IForm} (hmk : ∀ y, Below lib known rank r y.mentions →
      Below lib known rank r (mk y).mentions) :
    SettlesBelow lib known rank r fun n => do return mk (← f n) := by
  intro s hs
  refine (h s hs).bind ?_
  rintro y t ⟨hy, ht⟩
  exact .pure ⟨hmk y hy, ht⟩

variable {f : ℕ → IForm → Pass2 IForm}

theorem SettlesBelow.nodes (h : ∀ x ∈ xs, SettlesBelow lib known rank r fun n => f n x)
    {mk : List IForm → IForm} (hmk : ∀ ys, Below lib known rank r (mentionsAll ys) →
      Below lib known rank r (mk ys).mentions) :
    SettlesBelow lib known rank r fun n => do return mk (← xs.mapM (f n)) := by
  intro s hs
  refine (Settles.mapM (fun x hx t ht => h x hx t ht) s hs).bind ?_
  rintro ys t ⟨hys, ht⟩
  exact .pure ⟨hmk ys (below_mentionsAll.2 hys), ht⟩

theorem settles_pass2Let {inits : List IForm} {body : IForm}
    (hinits : ∀ x ∈ inits, SettlesBelow lib known rank r fun n => f n x)
    (hbody : SettlesBelow lib known rank r fun n => f n body) (type : LetType) (lvars : List Lvar) :
    SettlesBelow lib known rank r fun n => pass2Let (f n) type lvars inits body := by
  intro s hs
  refine (Settles.mapM (fun x hx t ht => hinits x hx t ht) s hs).bind ?_
  rintro ys t ⟨hys, ht⟩
  refine (hbody t ht).bind ?_
  rintro y t' ⟨hy, ht'⟩
  refine .pure ⟨?_, ht'⟩
  simp [mentions, below_mentionsAll.2 hys, hy]

theorem settles_optimizeInliner {inliner : Inliner} (hs : Ranked lib known rank s)
    (hinl : inliner ∈ s.inlinables)
    (h : SettlesBelow lib known rank (rank inliner.name) fun n => f n inliner.expr) :
    Settles (fun n => optimizeInliner (f n) inliner) s
      (Keeps lib known rank (rank inliner.name)) := by
  unfold optimizeInliner
  split
  · exact .pure ⟨(hs.inlinables inliner hinl).2, hs⟩
  · apply Settles.modify_bind
    refine (h _ (hs.mark_inlinables inliner.name)).bind ?_
    rintro y t ⟨hy, ht⟩
    apply Settles.modify_bind
    exact .pure ⟨hy, ht.store hy⟩

theorem settles_copyFresh (hx : Below lib known rank r x.mentions)
    (hs : Ranked lib known rank s) :
    Settles (fun _ => copyFresh x) s (Keeps lib known rank r) := by
  apply Settles.get_bind
  apply Settles.modify_bind
  refine .pure ⟨?_, hs.next _⟩
  rw [mentions_iformCopy]
  exact hx

variable {args : List IForm}

theorem mem_adjustArglist {reqargs optarg : ℕ} {iargs : List IForm}
    (h : adjustArglist reqargs optarg iargs name = .ok args) (hx : x ∈ args) :
    x ∈ iargs ∨ x = .list (iargs.drop reqargs) := by
  unfold adjustArglist at h
  split_ifs at h with hok hopt
  · cases h
    exact .inl hx
  · cases h
    rcases mem_append.1 hx with hx | hx
    · exact .inl (mem_of_mem_take hx)
    · exact .inr (mem_singleton.1 hx)

section

variable (h : ∀ x r', r' < r → Below lib known rank r' x.mentions →
  SettlesBelow lib known rank r' fun n => f n x)

include h

theorem settles_pass2Gref {id : Identifier} (hid : Below lib known rank r [.ref id]) :
    SettlesBelow lib known rank r fun n => pass2Gref lib (f n) id := by
  intro s hs
  apply Settles.get_bind
  have hgref : ∀ t, Ranked lib known rank t →
      Settles (fun _ => (pure (.gref id) : Pass2 IForm)) t (Keeps lib known rank r) :=
    fun t ht => .pure ⟨hid, ht⟩
  split
  · rename_i inliner hg hinl
    obtain ⟨hmem, hname⟩ := mem_of_inlinerOf hinl
    obtain ⟨hknown, hbelow⟩ := hs.constables inliner hmem
    rw [hname] at hknown hbelow
    split
    · exact .pure ⟨below_nil, hs⟩
    · split
      · exact hgref s hs
      · -- the definition is optimised first
        apply Settles.modify_bind
        have hlt : rank id.name < r := hid id mem_cons_self hg hknown
        refine (h _ _ hlt hbelow _ (hs.mark_constables id.name)).bind ?_
        rintro y t ⟨-, ht⟩
        exact hgref t ht
  · exact hgref s hs

section

variable (hargs : ∀ x k, x ∈ args ∨ x = .list (args.drop k) →
  SettlesBelow lib known rank r fun n => f n x)

include hargs

theorem settles_expansion {lambda expansion : IForm} (hr : r' < r)
    (hlambda : Below lib known rank r' lambda.mentions)
    (hexp : expandInlinedProcedure lambda args = .ok expansion) :
    SettlesBelow lib known rank r fun n => pass2Expansion (f n) expansion := by
  cases lambda with
  | lambda name reqargs option lvars body =>
    simp only [expandInlinedProcedure, bind, Except.bind] at hexp
    split at hexp
    · cases hexp
    · rename_i inits hadj
      cases hexp
      refine settles_pass2Let (fun x hx => hargs x reqargs (mem_adjustArglist hadj hx)) ?_ _ _
      intro s hs
      exact (h body r' hr hlambda s hs).mono fun y t hy => ⟨hy.1.mono hr.le, hy.2⟩
  | _ => cases hexp

theorem settles_pass2Call {proc : IForm}
    (hbelow : Below lib known rank r (IForm.call proc args).mentions)
    (hproc : SettlesBelow lib known rank r fun n => f n proc) :
    SettlesBelow lib known rank r fun n => pass2Call lib (f n) proc args := by
  intro s hs
  refine (hproc s hs).bind ?_
  rintro newProc t ⟨hnew, ht⟩
  apply Settles.get_bind
  -- the call is kept
  have hkeep : SettlesBelow lib known rank r fun n => do
      return call newProc (← args.mapM (f n)) := by
    refine SettlesBelow.nodes (fun x hx => hargs x 0 (.inl hx)) fun ys hys => ?_
    simp [mentions, hys, hnew]
  split
  · rename_i inliner hinl
    obtain ⟨id, rfl, hg, hinl⟩ : ∃ id, proc = .gref id ∧ grefInlinable lib id = true ∧
        inlinerOf id.name t.inlinables = some inliner := by
      unfold inlinerOfProc at hinl
      split at hinl
      · rename_i id
        split_ifs at hinl with hg
        exact ⟨id, rfl, hg, hinl⟩
      · cases hinl
    obtain ⟨hmem, hname⟩ := mem_of_inlinerOf hinl
    obtain ⟨hknown, hexpr⟩ := ht.inlinables inliner hmem
    have hlt : rank inliner.name < r := by
      rw [hname] at hknown ⊢
      exact hbelow id (by simp [mentions]) hg hknown
    refine (settles_optimizeInliner ht hmem (h _ _ hlt hexpr)).bind ?_
    rintro lambda t₁ ⟨hlambda, ht₁⟩
    apply settles_ofExcept_bind
    intro size _
    split
    · refine (settles_copyFresh hlambda ht₁).bind ?_
      rintro copy t₂ ⟨hcopy, ht₂⟩
      apply settles_ofExcept_bind
      intro expansion hexp
      exact settles_expansion h hargs hlt hcopy hexp t₂ ht₂
    · exact hkeep t₁ ht₁
  · exact hkeep t ht

end

end

/-- **Inlining along falling ranks settles.**  The induction is on the rank, for the definitions
that are inlined, and on the size, for the subtrees. -/
theorem settles_pass2Rec (r : ℕ) : ∀ x, Below lib known rank r x.mentions →
    SettlesBelow lib known rank r fun n => pass2Rec lib n x := by
  induction r using Nat.strong_induction_on with
  | _ r ihr =>
  intro x
  induction hn : sizeOf x using Nat.strong_induction_on generalizing x with
  | _ n ihx =>
  subst hn
  intro hx
  have hlow : ∀ x r', r' < r → Below lib known rank r' x.mentions →
      SettlesBelow lib known rank r' fun n => pass2Rec lib n x := fun x r' hr hx => ihr r' hr x hx
  have hsub : ∀ y, sizeOf y < sizeOf x → Below lib known rank r y.mentions →
      SettlesBelow lib known rank r fun n => pass2Rec lib n y :=
    fun y hy hbelow => ihx (sizeOf y) hy y rfl hbelow
  have hmem : ∀ ys : List IForm, sizeOf ys < sizeOf x → Below lib known rank r (mentionsAll ys) →
      ∀ y ∈ ys, SettlesBelow lib known rank r fun n => pass2Rec lib n y := by
    intro ys hlt hys y hy
    exact hsub y (lt_trans (sizeOf_lt_of_mem hy) hlt) (below_mentionsAll.1 hys y hy)
  have hstep : ∀ {f : ℕ → Pass2 IForm} {y : IForm}, (∀ n, pass2Rec lib (n + 1) y = f n) →
      SettlesBelow lib known rank r f → SettlesBelow lib known rank r fun n => pass2Rec lib n y :=
    fun hf h s hs => (h s hs).succ hf
  have hleaf : ∀ y : IForm, y.mentions = [] →
      SettlesBelow lib known rank r fun _ => (pure y : Pass2 IForm) := by
    intro y hy s hs
    refine .pure ⟨?_, hs⟩
    rw [hy]
    exact below_nil
  cases x with
  | undef | it | library ref | lref lvar | const value => exact hstep (fun _ => rfl) (hleaf _ rfl)
  | gref id => exact hstep (fun _ => rfl) (settles_pass2Gref hlow hx)
  | define id body | lset lvar body | lambda name reqargs option lvars body =>
    exact hstep (fun _ => rfl) ((hsub body (by decreasing_tactic) hx).node fun _ hy => hy)
  | gset id expr =>
    have hexpr := hsub expr (by decreasing_tactic) (below_assign.1 hx)
    exact hstep (fun _ => rfl) (hexpr.node fun _ hy => below_assign.2 hy)
  | seq args | asm insn args | list args =>
    exact hstep (fun _ => rfl) (.nodes (hmem args (by decreasing_tactic) hx) fun _ hys => hys)
  | letForm type lvars inits body =>
    rw [mentions, below_append] at hx
    have hinits := hmem inits (by decreasing_tactic) hx.1
    have hbody := hsub body (by decreasing_tactic) hx.2
    exact hstep (fun _ => rfl) (settles_pass2Let hinits hbody type lvars)
  | receive reqargs option lvars expr body =>
    rw [mentions, below_append] at hx
    refine hstep (fun _ => rfl) fun s hs => ?_
    refine (hsub expr (by decreasing_tactic) hx.1 s hs).bind ?_
    rintro newExpr t ⟨hexpr, ht⟩
    refine (hsub body (by decreasing_tactic) hx.2).node (fun y hy => ?_) t ht
    exact below_append.2 ⟨hexpr, hy⟩
  | ifForm test thenForm elseForm =>
    rw [mentions, below_append, below_append] at hx
    refine hstep (fun _ => rfl) fun s hs => ?_
    refine (hsub test (by decreasing_tactic) hx.1 s hs).bind ?_
    rintro newTest t ⟨htest, ht⟩
    refine (hsub thenForm (by decreasing_tactic) hx.2.1 t ht).bind ?_
    rintro newThen t' ⟨hthen, ht'⟩
    refine (hsub elseForm (by decreasing_tactic) hx.2.2).node (fun y hy => ?_) t' ht'
    exact below_append.2 ⟨htest, below_append.2 ⟨hthen, hy⟩⟩
  | call proc args =>
    have hx' := hx
    rw [mentions, below_append] at hx'
    have hargs := hmem args (by decreasing_tactic) hx'.1
    refine hstep (fun _ => rfl)
      (settles_pass2Call hlow (fun y k hy => ?_) hx (hsub proc (by decreasing_tactic) hx'.2))
    rcases hy with hy | rfl
    · exact hargs y hy
    · -- the list of the arguments beyond the required ones
      refine hstep (fun _ => rfl) (.nodes (fun y hy => ?_) fun _ hys => hys)
      exact hargs y (mem_of_mem_drop hy)

end Settling

/-! ### Cycles of definitions -/

/-- A library with its body, in which the definitions bind names of the library itself. -/
structure LibraryBody where
  lib : Library
  iforms : List IForm
  own : ∀ id expr, .define id expr ∈ iforms → id.library = lib.ref

namespace LibraryBody

variable {b : LibraryBody} {d e : Definition}

/-- The definitions that `pass1/scan-inlinable` returns. -/
def inlinables (b : LibraryBody) : List Definition := scanInlinable b.lib b.iforms

/-- The reference graph of the definitions that `pass1/scan-inlinable` returns. -/
def RefersAmong (b : LibraryBody) (d e : Definition) : Prop :=
  d ∈ b.inlinables ∧ e ∈ b.inlinables ∧ Refers d e

theorem library_eq (h : d ∈ targets b.lib b.iforms) : d.id.library = b.lib.ref := by
  obtain ⟨x, hx, hd⟩ := mem_filterMap.1 h
  cases x with
  | define id expr =>
    rw [possiblyTarget] at hd
    split_ifs at hd
    cases hd
    exact b.own id expr hx
  | _ => cases hd

theorem eq_of_name_eq (hd : d ∈ b.inlinables) (he : e ∈ b.inlinables)
    (h : d.id.name = e.id.name) : d = e := by
  have hd := (mem_scanInlinable.1 hd).1
  have he := (mem_scanInlinable.1 he).1
  apply hd.once.unique hd.target he.target
  have hlib : d.id.library = e.id.library := by rw [library_eq hd.target, library_eq he.target]
  cases hd' : d.id
  cases he' : e.id
  simp_all

/-- A name of a definition that may be inlined. -/
def Known (b : LibraryBody) (name : Symbol) : Prop := ∃ d ∈ b.inlinables, d.id.name = name

/-- Without cycles the definitions can be ranked. -/
theorem exists_rank (h : Acyclic b.RefersAmong) :
    ∃ (rank : Symbol → ℕ) (bound : ℕ), (∀ name, b.Known name → rank name < bound) ∧
      ∀ d ∈ b.inlinables, Below b.lib b.Known rank (rank d.id.name) d.expr.mentions := by
  classical
  obtain ⟨rk, hrk⟩ := h.exists_rank b.inlinables.toFinset fun d e hde => mem_toFinset.2 hde.2.1
  let rank : Symbol → ℕ := fun name => if h : b.Known name then rk h.choose else 0
  have hrank : ∀ d ∈ b.inlinables, rank d.id.name = rk d := by
    intro d hd
    have hk : b.Known d.id.name := ⟨d, hd, rfl⟩
    have hchoose : hk.choose = d := eq_of_name_eq hk.choose_spec.1 hd hk.choose_spec.2
    simp only [rank, dif_pos hk, hchoose]
  refine ⟨rank, b.inlinables.toFinset.sup rk + 1, ?_, ?_⟩
  · rintro name ⟨d, hd, rfl⟩
    rw [hrank d hd, Nat.lt_succ_iff]
    exact Finset.le_sup (mem_toFinset.2 hd)
  · rintro d hd id hid hg ⟨e, he, hname⟩
    have hlib : id.library = b.lib.ref := by
      simp only [grefInlinable, Bool.and_eq_true, decide_eq_true_eq] at hg
      exact hg.1
    have heid : e.id = id := by
      have := library_eq (mem_scanInlinable.1 he).1.target
      cases id
      cases hid' : e.id
      simp_all
    rw [← hname, hrank e he, hrank d hd]
    refine hrk d e ⟨hd, he, ?_⟩
    rw [Refers, heid]
    exact hid

theorem ranked_collectInlinables {rank : Symbol → ℕ} (next : Lvar)
    (h : ∀ d ∈ b.inlinables, Below b.lib b.Known rank (rank d.id.name) d.expr.mentions) :
    Ranked b.lib b.Known rank (collectInlinables b.lib b.iforms next) := by
  have hall : ∀ p,
      ∀ i ∈ (b.inlinables.filter p).map fun d => (⟨d.id.name, d.expr, false⟩ : Inliner),
      RankedInliner b.lib b.Known rank i := by
    intro p i hi
    obtain ⟨d, hd, rfl⟩ := mem_map.1 hi
    have hd := mem_of_mem_filter hd
    exact ⟨⟨d, hd, rfl⟩, h d hd⟩
  exact ⟨hall _, hall _⟩

theorem settles_pass2Toplevel {rank : Symbol → ℕ} {bound : ℕ}
    (hbound : ∀ name, b.Known name → rank name < bound) (x : IForm) :
    SettlesBelow b.lib b.Known rank bound fun n => pass2Toplevel (pass2Rec b.lib n) x := by
  have hall : ∀ ms, Below b.lib b.Known rank bound ms := fun ms id _ _ hk => hbound id.name hk
  have hrec : ∀ x, SettlesBelow b.lib b.Known rank bound fun n => pass2Rec b.lib n x :=
    fun x => settles_pass2Rec bound x (hall _)
  cases x with
  | define id expr =>
    intro s hs
    apply Settles.get_bind
    split
    · rename_i inliner hinl
      obtain ⟨hmem, hname⟩ := mem_of_inlinerOf hinl
      obtain ⟨-, hbelow⟩ := hs.inlinables inliner hmem
      split
      · exact .pure ⟨hall _, hs⟩
      · refine (settles_pass2Rec _ _ hbelow s hs).bind ?_
        rintro y t ⟨hy, ht⟩
        apply Settles.modify_bind
        rw [hname] at hy
        exact .pure ⟨hall _, ht.store hy⟩
    · split
      · exact .pure ⟨hall _, hs⟩
      · exact (hrec expr).node (fun y _ => hall _) s hs
    · exact (hrec expr).node (fun y _ => hall _) s hs
  | _ => exact hrec _

/-- `pass2` comes to an end on the library, whatever the local variables are called. -/
def Pass2Ends (b : LibraryBody) : Prop :=
  ∀ next, ∃ n out, ∀ m, n ≤ m →
    (pass2 b.lib b.iforms m).outcome (collectInlinables b.lib b.iforms next) = some out

/-- **Inlining without cycles ends.** -/
theorem pass2_ends (h : Acyclic b.RefersAmong) : b.Pass2Ends := by
  intro next
  obtain ⟨rank, bound, hbound, hrank⟩ := exists_rank h
  have hs := ranked_collectInlinables next hrank
  have hforms : ∀ x ∈ b.iforms,
      SettlesBelow b.lib b.Known rank bound fun m => pass2Toplevel (pass2Rec b.lib m) x :=
    fun x _ => settles_pass2Toplevel hbound x
  have hbody := Settles.mapM hforms _ hs
  obtain ⟨n, out, hout, -⟩ := hbody.bind (R := fun _ _ => True)
    fun body t _ => Settles.pure trivial
  exact ⟨n, out, hout⟩

/-- The reference graph has no cycles, and `pass2` ends. -/
def InliningTerminates (b : LibraryBody) : Prop := Acyclic b.RefersAmong ∧ b.Pass2Ends

/-- No three or more candidates that are not in a pair refer to each other in a ring. -/
def NoLongRing (b : LibraryBody) : Prop :=
  ∀ (d : Definition) (ds : List Definition), 2 ≤ ds.length →
    (∀ e ∈ d :: ds, Candidate b.lib b.iforms e ∧ ¬ Paired b.lib b.iforms e) →
    ¬ List.IsChain Refers (d :: (ds ++ [d]))

/-- A ring of one is a definition that refers to itself, a ring of two is a pair: neither is among
the definitions that are returned. -/
theorem acyclic_iff : Acyclic b.RefersAmong ↔ b.NoLongRing := by
  constructor
  · intro h d ds _ hall hchain
    apply h d
    rw [transGen_self_iff_ring]
    have hmem : ∀ e ∈ d :: (ds ++ [d]), e ∈ b.inlinables := by
      intro e he
      apply mem_scanInlinable.2
      apply hall
      simp only [mem_cons, mem_append, not_mem_nil, or_false] at he ⊢
      tauto
    exact ⟨ds, hchain.imp_of_mem_imp fun e f he hf href => ⟨hmem e he, hmem f hf, href⟩⟩
  · intro h d hcycle
    obtain ⟨ds, hring⟩ := (transGen_self_iff_ring d).1 hcycle
    have hchain := hring.imp fun _ _ h => h.2.2
    obtain ⟨-, ⟨hd, -⟩, -⟩ := Relation.TransGen.head'_iff.1 hcycle
    have hall := hring.induction (· ∈ b.inlinables) _ (fun _ _ h _ => h.2.1) fun _ => hd
    match ds with
    | [] =>
      have hd := (mem_scanInlinable.1 (hall d mem_cons_self)).1
      simp only [nil_append, isChain_cons_cons] at hchain
      exact hd.noSelf hchain.1
    | [e] =>
      have hd := mem_scanInlinable.1 (hall d mem_cons_self)
      have he := (mem_scanInlinable.1 (hall e (by simp))).1
      simp only [cons_append, nil_append, isChain_cons_cons] at hchain
      refine hd.2 ⟨e, he.target, he.once, hchain.1, ?_⟩
      rw [he.reached_eq]
      exact hchain.2.1
    | e :: f :: ds =>
      refine h d (e :: f :: ds) (by simp) (fun g hg => mem_scanInlinable.1 (hall g ?_)) hchain
      simp only [mem_cons, mem_append, not_mem_nil, or_false] at hg ⊢
      tauto

end LibraryBody

/-- **When library inlining ends.**  The definitions that `pass1/scan-inlinable` returns do not
refer to each other in a cycle, and `pass2` ends, if and only if no three or more definitions refer
to each other in a ring, where each of them is not exported, defined once, not assigned, does not
refer to itself, assigns no candidate and is in no pair. -/
theorem library_inlining_iff (b : LibraryBody) : b.InliningTerminates ↔ b.NoLongRing := by
  rw [← LibraryBody.acyclic_iff]
  exact ⟨fun h => h.1, fun h => ⟨h, LibraryBody.pass2_ends h⟩⟩

/-! ### A ring of three procedures -/

/-- `(lambda () (p))`, where `p` is the next one of three procedures. -/
def ringLambda (i : Symbol) : IForm := .lambda i 0 0 [] (.call (.gref ⟨(i + 1) % 3, 0⟩) [])

/-- `(define (a) (b)) (define (b) (c)) (define (c) (a))`, where nothing is exported. -/
def ringLibrary : LibraryBody where
  lib := ⟨0, [], []⟩
  iforms := [.define ⟨0, 0⟩ (ringLambda 0), .define ⟨1, 0⟩ (ringLambda 1),
    .define ⟨2, 0⟩ (ringLambda 2)]
  own := by
    intro id expr h
    simp only [List.mem_cons, IForm.define.injEq, List.not_mem_nil, or_false] at h
    obtain ⟨rfl, -⟩ | ⟨rfl, -⟩ | ⟨rfl, -⟩ := h <;> rfl

/-- A state of `pass2` on this library; `o` says which definitions are flagged. -/
def ringState (o : Symbol → Bool) (next : Lvar) : Pass2State where
  inlinables := [0, 1, 2].map fun i => ⟨i, ringLambda i, o i⟩
  constables := []
  nextLvar := next

theorem inlinerOf_ringState {i : Symbol} (hi : i < 3) (o : Symbol → Bool) (next : Lvar) :
    inlinerOf i (ringState o next).inlinables = some ⟨i, ringLambda i, o i⟩ := by
  match i, hi with
  | 0, _ | 1, _ | 2, _ => rfl

theorem markOptimized_ringState (i : Symbol) (o : Symbol → Bool) (next : Lvar) :
    { ringState o next with inlinables := markOptimized i (ringState o next).inlinables } =
      ringState (Function.update o i true) next := by
  simp only [ringState, markOptimized, map_map, Pass2State.mk.injEq, and_true]
  apply map_congr_left
  intro j _
  simp only [Function.comp_apply]
  split_ifs with h
  · rw [h, Function.update_self]
  · rw [Function.update_of_ne h]

/-- Whichever of the procedures are flagged, the call of one leads to the call of the next. -/
theorem ring_call_none (n : ℕ) : ∀ {i : Symbol}, i < 3 → ∀ (o : Symbol → Bool) (next : Lvar),
    (pass2Rec ringLibrary.lib n (.call (.gref ⟨i, 0⟩) [])).outcome (ringState o next) = none := by
  induction n using Nat.strong_induction_on with
  | _ n ih =>
  intro i hi o next
  match n with
  | 0 | 1 => rfl
  | n + 2 =>
    have hnext : (i + 1) % 3 < 3 := Nat.mod_lt _ (by omega)
    have hgref : (pass2Rec ringLibrary.lib (n + 1) (.gref ⟨i, 0⟩)).outcome (ringState o next) =
        some (.ok (.gref ⟨i, 0⟩, ringState o next)) := rfl
    have hproc : inlinerOfProc ringLibrary.lib (.gref ⟨i, 0⟩) (ringState o next) =
        some ⟨i, ringLambda i, o i⟩ := inlinerOf_ringState hi o next
    rw [pass2Rec, pass2Call]
    simp only [outcome_bind, hgref, outcome_get, hproc]
    cases ho : o i with
    | false =>
      -- the procedure is flagged and its body optimised, which is the call of the next one
      have hbody : (pass2Rec ringLibrary.lib (n + 1) (ringLambda i)).outcome
          (ringState (Function.update o i true) next) = none := by
        rw [ringLambda, pass2Rec, outcome_bind, ih n (by omega) hnext]
      simp only [optimizeInliner, Bool.false_eq_true, if_false, outcome_bind, outcome_modify,
        markOptimized_ringState, hbody]
    | true =>
      -- a copy is expanded, which is the call of the next one
      have hsize : ofExcept (iformCountSizeUpto (ringLambda i) inlinableLambdaSize) =
          (pure 3 : Pass2 ℕ) := rfl
      have hsmall : 3 < inlinableLambdaSize := by decide
      have hcopy : (copyFresh (ringLambda i)).outcome (ringState o next) =
          some (.ok (ringLambda i, ringState o next)) := rfl
      have hexpand : ofExcept (expandInlinedProcedure (ringLambda i) []) =
          (pure (.letForm .plain [] [] (.call (.gref ⟨(i + 1) % 3, 0⟩) [])) : Pass2 IForm) := rfl
      simp only [optimizeInliner, if_true, outcome_bind, outcome_pure, hsize, hsmall, hcopy,
        hexpand, pass2Expansion, pass2Let, mapM_nil, ih (n + 1) (by omega) hnext]

/-- Three procedures that call each other in a ring are all returned by `pass1/scan-inlinable`, and
`pass2` inlines them without end. -/
theorem ring_of_three :
    ¬ ringLibrary.InliningTerminates ∧
      (ringLibrary.inlinables.map fun d => d.id.name) = [0, 1, 2] ∧
      ∀ n next, (pass2 ringLibrary.lib ringLibrary.iforms n).outcome
        (collectInlinables ringLibrary.lib ringLibrary.iforms next) = none := by
  have hnone : ∀ n next, (pass2 ringLibrary.lib ringLibrary.iforms n).outcome
      (collectInlinables ringLibrary.lib ringLibrary.iforms next) = none := by
    intro n next
    have hstart : collectInlinables ringLibrary.lib ringLibrary.iforms next =
        ringState (fun _ => false) next := rfl
    have hbody : (pass2Rec ringLibrary.lib n (ringLambda 0)).outcome
        (ringState (fun _ => false) next) = none := by
      cases n with
      | zero => rfl
      | succ n =>
        rw [ringLambda, pass2Rec, outcome_bind, ring_call_none n (by decide)]
    have hdefine : (pass2Toplevel (pass2Rec ringLibrary.lib n)
        (.define ⟨0, 0⟩ (ringLambda 0))).outcome (ringState (fun _ => false) next) = none := by
      rw [pass2Toplevel, outcome_bind]
      simp only [outcome_get, inlinerOf_ringState (show 0 < 3 by decide), Bool.false_eq_true,
        if_false, outcome_bind, hbody]
    rw [pass2, hstart, ringLibrary]
    simp only [mapM_cons, outcome_bind]
    rw [show (ringLibrary.lib : Library) = ⟨0, [], []⟩ from rfl] at hdefine
    rw [hdefine]
  refine ⟨fun h => ?_, by decide, hnone⟩
  obtain ⟨n, out, hout⟩ := h.2 0
  have := hout n (Nat.le_refl n)
  rw [hnone] at this
  cases this

end Sagittarius.Compiler
