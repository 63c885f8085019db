import Sagittarius.Regex.Compile

/-!
# The shape of generated code

The code generator puts its code together in a few ways only: instructions one after the other,
forks, loops, optional parts and bodies that are looked at.  What holds of code that is put together
like this holds of all code, in both passes and whatever lists were reversed before.

* `Shaped R` : the property `R` of code at an address is kept by everything the generator does;
* `Shaped.compileRec` : all code has it;
* `shaped_inside` : jumps stay inside of the code.
-/

namespace Sagittarius.Regex

open List Option Ast

variable {ι : Type}

mutual

/-- The numbers of all groups in a syntax tree. -/
def Ast.registers : Ast ι → List ℕ
  | .seq _ items | .alter items => registersAll items
  | .register n _ x => n :: x.registers
  | .flaggedSeq _ x | .rep _ _ _ x | .lookahead _ x | .lookbehind _ x | .standalone x => x.registers
  | .branch _ rest => rest.registers
  | .branchAssert cond rest => cond.registers ++ rest.registers
  | _ => []

/-- `Ast.registers` of all items -/
def registersAll : List (Ast ι) → List ℕ
  | [] => []
  | x :: items => x.registers ++ registersAll items

end

/-- The items of a sequence or an alternation. -/
def Ast.children : Ast ι → List (Ast ι)
  | .seq _ items => items
  | .alter items => items
  | _ => []

theorem registersAll_iff {items : List (Ast ι)} {p : ℕ → Prop} :
    (∀ n ∈ registersAll items, p n) ↔ ∀ x ∈ items, ∀ n ∈ x.registers, p n := by
  induction items with
  | nil => simp [registersAll]
  | cons x items ih => rw [registersAll, forall_mem_append, ih, forall_mem_cons]

/-- An instruction that goes on at one of two addresses. -/
def Op.Forks (head : ℕ → ℕ → Op) : Prop :=
  ∀ x y, (head x y).targets ≠ [] ∧ ∀ t ∈ (head x y).targets, t = x ∨ t = y

/-- An instruction that does not jump and ends nothing; it saves in the given slots only. -/
structure Op.Plain (slots : ℕ → Prop) (op : Op) : Prop where
  targets : op.targets = []
  not_restore : op ≠ .restore
  not_match : op ≠ .match
  slot : ∀ j, op = .save j → slots j

/-- The code generator keeps the property `R` of code at an address, as long as it saves in the
given slots only. -/
structure Shaped (slots : ℕ → Prop) (R : ℕ → List Inst → Prop) : Prop where
  nil (pc : ℕ) : R pc []
  plain (pc : ℕ) (flags : Flags) {op : Op} : op.Plain slots → R pc [⟨op, flags⟩]
  append {pc : ℕ} {a b : List Inst} : R pc a → R (pc + a.length) b → R pc (a ++ b)
  fork {pc : ℕ} (flags : Flags) {head : ℕ → ℕ → Op} {c a b : List Inst} : Op.Forks head →
    R (pc + 1) c → R (pc + 1 + c.length) a → R (pc + 1 + c.length + a.length + 1) b →
    R pc (⟨head (pc + 1 + c.length) (pc + 1 + c.length + a.length + 1), flags⟩ ::
      (c ++ (a ++ ⟨.jmp (pc + 1 + c.length + a.length + 1 + b.length), flags⟩ :: b)))
  loop {pc : ℕ} (flags : Flags) {head : ℕ → ℕ → Op} {a : List Inst} : Op.Forks head →
    R (pc + 1) a →
      R pc (⟨head (pc + 1) (pc + 1 + a.length + 1), flags⟩ :: (a ++ [⟨.jmp pc, flags⟩]))
  look {pc : ℕ} (flags : Flags) {head : ℕ → Op} {a : List Inst} : (∀ y, (head y).targets = [y]) →
    R (pc + 1) a → R pc (⟨head (pc + 1 + a.length + 1), flags⟩ :: (a ++ [⟨.restore, flags⟩]))
  optional {pc : ℕ} (flags : Flags) {head : ℕ → ℕ → Op} {a b : List Inst} : Op.Forks head →
    R (pc + 1) a → R (pc + 1 + a.length) b →
    R pc (⟨head (pc + 1) (pc + 1 + a.length + b.length), flags⟩ :: (a ++ b))

/-- All code that a part of the code generator writes has the property `R`. -/
def Makes (g : Gen ι) (R : ℕ → List Inst → Prop) : Prop :=
  ∀ pc cells code cells', g pc cells = some (code, cells') → R pc code

theorem splitOp_forks (greedy : Bool) : Op.Forks (splitOp greedy) := by
  intro x y
  cases greedy <;> simp [splitOp, Op.targets, or_comm]

namespace Shaped

variable {slots : ℕ → Prop} {R : ℕ → List Inst → Prop} {f g h : Gen ι} {flags : Flags}

/-! ### The parts of the code generator -/

theorem makes_nothing (hR : Shaped slots R) : Makes (.nothing : Gen ι) R := by
  rintro pc cells code cells' hcode
  obtain ⟨rfl, rfl⟩ : [] = code ∧ cells = cells' := by simpa [Gen.nothing] using hcode
  exact hR.nil pc

theorem makes_error : Makes (.error : Gen ι) R := by
  rintro pc cells code cells' hcode
  cases hcode

section

variable (hR : Shaped slots R)

include hR

theorem makes_emit {op : Op} (hop : op.Plain slots) : Makes (.emit flags op : Gen ι) R := by
  rintro pc cells code cells' hcode
  obtain ⟨rfl, rfl⟩ : [⟨op, flags⟩] = code ∧ cells = cells' := by simpa [Gen.emit] using hcode
  exact hR.plain pc flags hop

theorem makes_andThen (hf : Makes f R) (hg : Makes g R) : Makes (.andThen f g) R := by
  rintro pc cells code cells' hcode
  simp only [Gen.andThen, bind_eq_bind, bind_eq_some_iff, Prod.exists] at hcode
  obtain ⟨a, Ra, ha, b, Rb, hb, heq⟩ := hcode
  obtain ⟨rfl, rfl⟩ : a ++ b = code ∧ Rb = cells' := by simpa using heq
  exact hR.append (hf _ _ _ _ ha) (hg _ _ _ _ hb)

theorem makes_times (hf : Makes f R) (n : ℕ) : Makes (.times f n) R := by
  induction n with
  | zero => exact hR.makes_nothing
  | succ n ih => exact hR.makes_andThen hf ih

theorem makes_fork {head : ℕ → ℕ → Op} (hhead : Op.Forks head) (hc : Makes h R) (hf : Makes f R)
    (hg : Makes g R) : Makes (.fork flags head h f g) R := by
  rintro pc cells code cells' hcode
  simp only [Gen.fork, bind_eq_bind, bind_eq_some_iff, Prod.exists] at hcode
  obtain ⟨c, Rc, hc', a, Ra, ha, b, Rb, hb, heq⟩ := hcode
  obtain ⟨rfl, rfl⟩ := by simpa using heq
  exact hR.fork flags hhead (hc _ _ _ _ hc') (hf _ _ _ _ ha) (hg _ _ _ _ hb)

theorem makes_loop {head : ℕ → ℕ → Op} (hhead : Op.Forks head) (hf : Makes f R) :
    Makes (.block flags head .jmp f) R := by
  rintro pc cells code cells' hcode
  simp only [Gen.block, bind_eq_bind, bind_eq_some_iff, Prod.exists] at hcode
  obtain ⟨a, Ra, ha, heq⟩ := hcode
  obtain ⟨rfl, rfl⟩ := by simpa using heq
  exact hR.loop flags hhead (hf _ _ _ _ ha)

theorem makes_look {head : ℕ → Op} (hhead : ∀ y, (head y).targets = [y]) (hf : Makes f R) :
    Makes (.block flags (fun _ y => head y) (fun _ => .restore) f) R := by
  rintro pc cells code cells' hcode
  simp only [Gen.block, bind_eq_bind, bind_eq_some_iff, Prod.exists] at hcode
  obtain ⟨a, Ra, ha, heq⟩ := hcode
  obtain ⟨rfl, rfl⟩ := by simpa using heq
  exact hR.look flags hhead (hf _ _ _ _ ha)

theorem makes_optional {head : ℕ → ℕ → Op} (hhead : Op.Forks head) (hf : Makes f R)
    (hg : Makes g R) : Makes (.optional flags head f g) R := by
  rintro pc cells code cells' hcode
  simp only [Gen.optional, bind_eq_bind, bind_eq_some_iff, Prod.exists] at hcode
  obtain ⟨a, Ra, ha, b, Rb, hb, heq⟩ := hcode
  obtain ⟨rfl, rfl⟩ := by simpa using heq
  exact hR.optional flags hhead (hf _ _ _ _ ha) (hg _ _ _ _ hb)

theorem makes_minMax (hf : Makes f R) (greedy : Bool) (n : ℕ) :
    Makes (compileMinMax flags greedy f n) R := by
  induction n with
  | zero => exact hR.makes_nothing
  | succ n ih => exact hR.makes_optional (splitOp_forks greedy) hf ih

theorem makes_varying (hf : Makes f R) (greedy : Bool) (min : ℕ) (max : Option ℤ) :
    Makes (compileVarying flags greedy min max f) R := by
  unfold compileVarying
  split_ifs
  · exact hR.makes_nothing
  · cases max with
    | none => exact hR.makes_loop (splitOp_forks greedy) hf
    | some max => exact hR.makes_minMax hf greedy _

end

/-! ### The functions of the source -/

section

variable [DecidableEq ι] {emitp lb : Bool} {items : List (Ast ι)}

/-- All code for a node has the property, with any flags and inside of a lookbehind or not. -/
def Node (emitp : Bool) (R : ℕ → List Inst → Prop) (x : Ast ι) : Prop :=
  ∀ flags lb, Makes (Regex.compileRec emitp flags lb x) R

section

variable (hR : Shaped slots R) (ih : ∀ x ∈ items, Node emitp R x)

include hR ih

theorem makes_seq : Makes (compileSeq emitp flags lb items) R := by
  induction items with
  | nil => exact hR.makes_nothing
  | cons x items ihs =>
    rw [forall_mem_cons] at ih
    rw [compileSeq]
    split_ifs
    · exact hR.makes_andThen (ihs ih.2) (ih.1 _ _)
    · exact hR.makes_andThen (ih.1 _ _) (ihs ih.2)

theorem makes_first : Makes (compileFirst emitp flags lb items) R := by
  cases items with
  | nil => exact hR.makes_nothing
  | cons x items => exact ih x (mem_cons_self ..) _ _

theorem makes_alter : Makes (compileAlter emitp flags lb items) R := by
  have hsplit : Op.Forks .split := splitOp_forks true
  induction items with
  | nil => exact hR.makes_emit ⟨rfl, nofun, nofun, nofun⟩
  | cons x items ihs =>
    rw [forall_mem_cons] at ih
    have hx := ih.1 flags lb
    match items, ih.2, ihs ih.2 with
    | [], _, h | _ :: _ :: _, _, h => exact hR.makes_fork hsplit hR.makes_nothing hx h
    | [y], ih, _ => exact hR.makes_fork hsplit hR.makes_nothing hx (ih y (by simp) _ _)

end

theorem makes_constant (hR : Shaped slots R) {x : Ast ι} (hx : Node emitp R x)
    (hitems : ∀ y ∈ x.children, Node emitp R y) (min : ℕ) :
    Makes (compileConstant emitp flags lb x min) R := by
  cases x with
  | seq cell items =>
    intro pc cells
    simp only [compileConstant, compileRepSeq]
    split_ifs
    · exact hR.makes_times (hR.makes_first hitems) min pc cells
    · exact hR.makes_times (hR.makes_seq hitems) min pc cells
  | _ => exact hR.makes_times (hx _ _) min

/-- **All code that is generated has the property**, if it is one that the generator keeps. -/
theorem compileRec (hR : Shaped slots R) (emitp : Bool) (x : Ast ι)
    (hslots : ∀ n ∈ x.registers, slots (2 * n) ∧ slots (2 * n + 1)) : Node emitp R x := by
  suffices h : Node emitp R x ∧ ∀ y ∈ x.children, Node emitp R y from h.1
  have hemit : ∀ {op : Op} {flags : Flags}, op.Plain slots →
      Makes (.emit flags op : Gen ι) R := hR.makes_emit
  have hbrancha : Op.Forks .brancha := fun x y => by simp [Op.targets]
  have hfail : Op.fail.Plain slots := ⟨rfl, nofun, nofun, nofun⟩
  induction x using Ast.induct with
  | atom a | anchor a | backref n => exact ⟨fun _ _ => hemit ⟨rfl, nofun, nofun, nofun⟩, nofun⟩
  | seq cell items ih =>
    have hitems : ∀ y ∈ items, Node emitp R y := fun y hy =>
      (ih y hy (registersAll_iff.1 hslots y hy)).1
    refine ⟨fun flags lb pc cells => ?_, hitems⟩
    simp only [Regex.compileRec]
    split_ifs
    all_goals first
      | exact hR.makes_first hitems pc _
      | exact hR.makes_seq hitems pc _
  | flaggedSeq f y ih => exact ⟨fun _ _ => (ih hslots).1 _ _, nofun⟩
  | register n name y ih =>
    have hsave : ∀ j, slots j → (Op.save j).Plain slots := fun j hj =>
      ⟨rfl, nofun, nofun, fun i hi => by cases hi; exact hj⟩
    obtain ⟨hn, hn'⟩ := hslots n (mem_cons_self ..)
    have hy := (ih fun k hk => hslots k (mem_cons_of_mem _ hk)).1
    exact ⟨fun _ _ => hR.makes_andThen (hemit (hsave _ hn))
      (hR.makes_andThen (hy _ _) (hemit (hsave _ hn'))), nofun⟩
  | alter items ih =>
    have hitems : ∀ y ∈ items, Node emitp R y := fun y hy =>
      (ih y hy (registersAll_iff.1 hslots y hy)).1
    exact ⟨fun _ _ => hR.makes_alter hitems, hitems⟩
  | rep greedy min max y ih =>
    obtain ⟨hy, hitems⟩ := ih hslots
    refine ⟨fun flags lb => ?_, nofun⟩
    rw [compileRec_rep]
    exact hR.makes_andThen (hR.makes_constant hy hitems min) (hR.makes_varying (hy _ _) _ _ _)
  | lookahead a y ih | lookbehind a y ih =>
    refine ⟨fun _ _ => hR.makes_look (fun y => ?_) ((ih hslots).1 _ _), nofun⟩
    cases a <;> rfl
  | standalone y ih => exact ⟨fun _ _ => hR.makes_look (fun _ => rfl) ((ih hslots).1 _ _), nofun⟩
  | branch n rest ih =>
    refine ⟨fun flags lb => ?_, nofun⟩
    match rest, (ih hslots).2 with
    | .alter (yes :: no :: items), ih =>
      exact hR.makes_fork (fun x y => by simp [Op.targets]) hR.makes_nothing
        (ih yes (by simp [children]) _ _) (ih no (by simp [children]) _ _)
    | .alter [], _ | .alter [_], _ | .atom _, _ | .anchor _, _ | .seq _ _, _ | .flaggedSeq _ _, _
    | .register _ _ _, _ | .rep _ _ _ _, _ | .backref _, _ | .lookahead _ _, _
    | .lookbehind _ _, _ | .standalone _, _ | .branch _ _, _ | .branchAssert _ _, _
    | .flags _, _ => exact makes_error
  | branchAssert cond rest ihc ih =>
    rw [registers, forall_mem_append] at hslots
    have hcond := (ihc hslots.1).1
    refine ⟨fun flags lb => ?_, nofun⟩
    match rest, (ih hslots.2).2 with
    | .alter (yes :: no :: items), ih =>
      exact hR.makes_fork hbrancha (hcond _ _) (ih yes (by simp [children]) _ _)
        (ih no (by simp [children]) _ _)
    | .seq _ [], _ => exact hR.makes_fork hbrancha (hcond _ _) hR.makes_nothing (hemit hfail)
    | .alter [], _ => exact hR.makes_fork hbrancha (hcond _ _) (hemit hfail) (hemit hfail)
    | .anchor _, _ | .atom (.char _), _ | .atom (.charSet _), _ | .atom .everything, _ =>
      exact hR.makes_fork hbrancha (hcond _ _) (hemit ⟨rfl, nofun, nofun, nofun⟩) (hemit hfail)
    | .alter [_], _ | .atom (.invertedCharClass _), _ | .seq _ (_ :: _), _ | .flaggedSeq _ _, _
    | .register _ _ _, _ | .rep _ _ _ _, _ | .backref _, _ | .lookahead _ _, _
    | .lookbehind _ _, _ | .standalone _, _ | .branch _ _, _ | .branchAssert _ _, _
    | .flags _, _ => exact makes_error
  | flags f => exact ⟨fun _ _ => makes_error, nofun⟩

end

end Shaped

/-! ### Jumps -/

/-- What is required of every instruction of the code between `pc` and `stop`: its jumps stay
between them, and it saves in the given slots. -/
structure Op.Inside (slots : ℕ → Prop) (pc stop : ℕ) (op : Op) : Prop where
  targets : ∀ t ∈ op.targets, pc ≤ t ∧ t ≤ stop
  slot : ∀ j, op = .save j → slots j

section

variable {slots : ℕ → Prop} {pc stop x y : ℕ} {op : Op} {head : ℕ → ℕ → Op}

theorem Op.Inside.mono {a b : ℕ} (h : op.Inside slots a b) (ha : pc ≤ a) (hb : b ≤ stop) :
    op.Inside slots pc stop :=
  ⟨fun t ht => ⟨Nat.le_trans ha (h.targets t ht).1, Nat.le_trans (h.targets t ht).2 hb⟩, h.slot⟩

theorem Op.inside_of_targets (hne : op.targets ≠ []) (h : ∀ t ∈ op.targets, pc ≤ t ∧ t ≤ stop) :
    op.Inside slots pc stop :=
  ⟨h, fun _ hj => absurd (hj ▸ rfl) hne⟩

theorem Op.Forks.inside (hhead : Op.Forks head) (hx : pc ≤ x ∧ x ≤ stop) (hy : pc ≤ y ∧ y ≤ stop) :
    (head x y).Inside slots pc stop := by
  refine Op.inside_of_targets (hhead x y).1 fun t ht => ?_
  rcases (hhead x y).2 t ht with rfl | rfl <;> assumption

theorem Op.inside_jmp (hx : pc ≤ x ∧ x ≤ stop) : (Op.jmp x).Inside slots pc stop :=
  Op.inside_of_targets nofun (by simpa [Op.targets] using hx)

theorem shaped_inside (slots : ℕ → Prop) : Shaped slots fun pc code =>
    ∀ inst ∈ code, inst.op.Inside slots pc (pc + code.length) where
  nil pc := nofun
  plain pc flags op hop := by
    rw [forall_mem_singleton]
    exact ⟨by simp [hop.targets], hop.slot⟩
  append {pc a b} ha hb := by
    rw [forall_mem_append, length_append]
    exact ⟨fun inst hinst => (ha inst hinst).mono (by omega) (by omega),
      fun inst hinst => (hb inst hinst).mono (by omega) (by omega)⟩
  fork {pc} flags {head c a b} hhead hc ha hb := by
    simp only [forall_mem_cons, forall_mem_append, length_cons, length_append]
    exact ⟨hhead.inside (by omega) (by omega),
      fun inst hinst => (hc inst hinst).mono (by omega) (by omega),
      fun inst hinst => (ha inst hinst).mono (by omega) (by omega), Op.inside_jmp (by omega),
      fun inst hinst => (hb inst hinst).mono (by omega) (by omega)⟩
  loop {pc} flags {head a} hhead ha := by
    simp only [forall_mem_cons, forall_mem_append, length_cons, length_append, length_nil]
    exact ⟨hhead.inside (by omega) (by omega),
      fun inst hinst => (ha inst hinst).mono (by omega) (by omega), Op.inside_jmp (by omega), nofun⟩
  look {pc} flags {head a} hhead ha := by
    simp only [forall_mem_cons, forall_mem_append, length_cons, length_append, length_nil]
    refine ⟨Op.inside_of_targets (by rw [hhead]; nofun) ?_,
      fun inst hinst => (ha inst hinst).mono (by omega) (by omega), ⟨nofun, nofun⟩, nofun⟩
    rw [hhead, forall_mem_singleton]
    omega
  optional {pc} flags {head a b} hhead ha hb := by
    simp only [forall_mem_cons, forall_mem_append, length_cons, length_append]
    exact ⟨hhead.inside (by omega) (by omega),
      fun inst hinst => (ha inst hinst).mono (by omega) (by omega),
      fun inst hinst => (hb inst hinst).mono (by omega) (by omega)⟩

end

/-! ### The program -/

/-- The code, the slots that were not written, and `RX_MATCH`. -/
theorem Prog.root_eq {p : Prog} (h : p.code.length ≤ p.codemax) :
    p.root = p.code ++ (List.replicate (p.codemax - p.code.length)
      ⟨.consume .everything, noFlags⟩ ++ [⟨.match, noFlags⟩]) := by
  refine ext_getElem (by simp [root, rootLength]; omega) fun i hi _ => ?_
  have hi : i < p.codemax + 1 := by simpa [root, rootLength] using hi
  simp only [root, getElem_map, getElem_range, slot, getElem_append,
    getElem_replicate, length_replicate, getElem_singleton]
  split_ifs
  all_goals first
    | omega
    | simp_all

theorem compile_register [DecidableEq ι] {flags : Flags} {n : ℕ} {name : Option (List SgChar)}
    {y : Ast ι} {p : Prog} (h : compile flags (.register n name y) = some p) :
    ∃ code cells, compileRec true flags false y 1 [] = some (code, cells) ∧
      p.code = ⟨.save (2 * n), flags⟩ :: (code ++ [⟨.save (2 * n + 1), flags⟩]) := by
  simp only [compile, bind_eq_bind, bind_eq_some_iff, Prod.exists] at h
  obtain ⟨counted, cells₀, hcount, code, cells, hcode, hp⟩ := h
  obtain rfl : _ = p := Option.some.inj hp
  simp only [compileRec, Gen.andThen, Gen.emit, bind_eq_bind, bind_some] at hcode
  obtain ⟨⟨body, cells'⟩, hbody, hcode⟩ := bind_eq_some_iff.1 hcode
  obtain ⟨⟨a, cells₁⟩, ha, hbody⟩ := bind_eq_some_iff.1 hbody
  obtain ⟨rfl, rfl⟩ : a ++ [⟨.save (2 * n + 1), flags⟩] = body ∧ cells₁ = cells' := by
    simpa using hbody
  obtain ⟨rfl, rfl⟩ : _ = code ∧ cells₁ = cells := by simpa using hcode
  exact ⟨a, cells₁, ha, rfl⟩

end Sagittarius.Regex
