import Sagittarius.Regex.Layout
import Sagittarius.Regex.Shape

/-!
# The code generator puts the code where it belongs

On a syntax tree without extended constructs both passes of the code generator do the same, and
what they write is the code of the syntax tree (`CodeAt`).

* `Lays` : what a part of the code generator writes in both passes, at any address;
* `compile_root` : the program that `compile` returns is the code and `RX_MATCH`.
-/

namespace Sagittarius.Regex

open List Ast

variable {ι : Type}

/-! ### What a part of the code generator writes -/

/-- At every address `pc` the part writes the same code in both passes, and reverses no list; in a
program with this code `R` holds of the addresses where it starts and ends. -/
def Lays (f : Bool → Gen ι) (R : List Inst → ℕ → ℕ → Prop) : Prop :=
  ∀ pc, ∃ code, (∀ emitp, f emitp pc [] = some (code, [])) ∧
    ∀ P : List Inst, code <+: P.drop pc → R P pc (pc + code.length)

section

variable {f g : Bool → Gen ι} {R S : List Inst → ℕ → ℕ → Prop} {flags : Flags} {P : List Inst}
  {pc : ℕ}

theorem prefix_append {a b : List Inst} (h : a ++ b <+: P.drop pc) :
    a <+: P.drop pc ∧ b <+: P.drop (pc + a.length) := by
  refine ⟨(List.prefix_append a b).trans h, ?_⟩
  obtain ⟨t, ht⟩ := h
  refine ⟨t, ?_⟩
  rw [← drop_drop, ← ht, append_assoc, drop_left]

theorem prefix_cons {inst : Inst} {code : List Inst} (h : inst :: code <+: P.drop pc) :
    P[pc]? = some inst ∧ code <+: P.drop (pc + 1) := by
  obtain ⟨hinst, hcode⟩ := prefix_append (a := [inst]) h
  refine ⟨?_, hcode⟩
  obtain ⟨t, ht⟩ := hinst
  have := congrArg (·[0]?) ht
  simpa using this.symm

theorem Lays.mono (h : Lays f R) (hRS : ∀ P pc pc', R P pc pc' → S P pc pc') : Lays f S := by
  intro pc
  obtain ⟨code, hf, hR⟩ := h pc
  exact ⟨code, hf, fun P hP => hRS _ _ _ (hR P hP)⟩

theorem Lays.congr (h : Lays f R) (hfg : ∀ emitp pc, g emitp pc [] = f emitp pc []) :
    Lays g R := fun pc => by
  simp only [hfg]
  exact h pc

theorem lays_nothing : Lays (fun _ => (.nothing : Gen ι)) fun _ pc pc' => pc' = pc :=
  fun _ => ⟨[], fun _ => rfl, fun _ _ => rfl⟩

theorem lays_emit (op : Op) :
    Lays (fun _ => (.emit flags op : Gen ι)) fun P pc pc' =>
      P[pc]? = some ⟨op, flags⟩ ∧ pc' = pc + 1 :=
  fun _ => ⟨[⟨op, flags⟩], fun _ => rfl, fun _ hP => ⟨(prefix_cons hP).1, rfl⟩⟩

theorem Lays.andThen (hf : Lays f R) (hg : Lays g S) :
    Lays (fun emitp => .andThen (f emitp) (g emitp)) fun P pc pc'' =>
      ∃ pc', R P pc pc' ∧ S P pc' pc'' := by
  intro pc
  obtain ⟨a, ha, hR⟩ := hf pc
  obtain ⟨b, hb, hS⟩ := hg (pc + a.length)
  refine ⟨a ++ b, fun _ => by simp [Gen.andThen, ha, hb], fun P hP => ?_⟩
  obtain ⟨hPa, hPb⟩ := prefix_append hP
  refine ⟨pc + a.length, hR P hPa, ?_⟩
  rw [length_append, ← Nat.add_assoc]
  exact hS P hPb

theorem Lays.fork (flags : Flags) (hf : Lays f R) (hg : Lays g S) :
    Lays (fun emitp => .fork flags .split .nothing (f emitp) (g emitp)) fun P pc pc'' => ∃ pc',
      opAt P pc = some (.split (pc + 1) (pc' + 1)) ∧ R P (pc + 1) pc' ∧
        opAt P pc' = some (.jmp pc'') ∧ S P (pc' + 1) pc'' := by
  intro pc
  obtain ⟨a, ha, hR⟩ := hf (pc + 1)
  obtain ⟨b, hb, hS⟩ := hg (pc + 1 + a.length + 1)
  refine ⟨⟨.split (pc + 1) (pc + 1 + a.length + 1), flags⟩ ::
      (a ++ ⟨.jmp (pc + 1 + a.length + 1 + b.length), flags⟩ :: b),
    fun _ => by simp [Gen.fork, Gen.nothing, ha, hb], fun P hP => ?_⟩
  obtain ⟨hhead, hP⟩ := prefix_cons hP
  obtain ⟨hPa, hP⟩ := prefix_append hP
  obtain ⟨hjmp, hPb⟩ := prefix_cons hP
  rw [length_cons, length_append, length_cons,
    show pc + (a.length + (b.length + 1) + 1) = pc + 1 + a.length + 1 + b.length by omega]
  exact ⟨pc + 1 + a.length, opAt_of_getElem? hhead, hR P hPa, opAt_of_getElem? hjmp, hS P hPb⟩

theorem Lays.loop {greedy : Bool} (hf : Lays f R) :
    Lays (fun emitp => .block flags (splitOp greedy) .jmp (f emitp)) fun P pc pc'' => ∃ pc',
      opAt P pc = some (splitOp greedy (pc + 1) (pc' + 1)) ∧ R P (pc + 1) pc' ∧
        opAt P pc' = some (.jmp pc) ∧ pc'' = pc' + 1 := by
  intro pc
  obtain ⟨a, ha, hR⟩ := hf (pc + 1)
  refine ⟨⟨splitOp greedy (pc + 1) (pc + 1 + a.length + 1), flags⟩ :: (a ++ [⟨.jmp pc, flags⟩]),
    fun _ => by simp [Gen.block, ha], fun P hP => ?_⟩
  obtain ⟨hhead, hP⟩ := prefix_cons hP
  obtain ⟨hPa, hP⟩ := prefix_append hP
  obtain ⟨hjmp, -⟩ := prefix_cons hP
  refine ⟨pc + 1 + a.length, opAt_of_getElem? hhead, hR P hPa, opAt_of_getElem? hjmp, ?_⟩
  simp only [length_cons, length_append, length_nil]
  omega

theorem Lays.optional {greedy : Bool} (hf : Lays f R) (hg : Lays g S) :
    Lays (fun emitp => .optional flags (splitOp greedy) (f emitp) (g emitp)) fun P pc pc'' => ∃ pc',
      opAt P pc = some (splitOp greedy (pc + 1) pc'') ∧ R P (pc + 1) pc' ∧ S P pc' pc'' := by
  intro pc
  obtain ⟨a, ha, hR⟩ := hf (pc + 1)
  obtain ⟨b, hb, hS⟩ := hg (pc + 1 + a.length)
  refine ⟨⟨splitOp greedy (pc + 1) (pc + 1 + a.length + b.length), flags⟩ :: (a ++ b),
    fun _ => by simp [Gen.optional, ha, hb], fun P hP => ?_⟩
  obtain ⟨hhead, hP⟩ := prefix_cons hP
  obtain ⟨hPa, hPb⟩ := prefix_append hP
  rw [length_cons, length_append,
    show pc + (a.length + b.length + 1) = pc + 1 + a.length + b.length by omega]
  exact ⟨pc + 1 + a.length, opAt_of_getElem? hhead, hR P hPa, hS P hPb⟩

end

/-! ### Repetitions -/

section

variable {f : Bool → Gen ι} {flags : Flags} {greedy : Bool} {x : Ast ι}

theorem lays_minMax (hf : Lays f fun P => CodeAt P flags x) (n : ℕ) (max : ℤ)
    (hn : max.toNat = n) :
    Lays (fun emitp => compileMinMax flags greedy (f emitp) n) fun P =>
      CodeAt P flags (.rep greedy 0 (some max) x) := by
  induction n generalizing max with
  | zero =>
    refine lays_nothing.mono fun P pc pc' h => ?_
    rw [h]
    exact .repDone (by omega)
  | succ n ih =>
    refine (hf.optional (ih (max - 1) (by omega))).mono fun P pc pc'' h => ?_
    obtain ⟨pc', hop, hx, hr⟩ := h
    exact .repOptional (by omega) hop hx hr

theorem lays_varying (hf : Lays f fun P => CodeAt P flags x) (min : ℕ) (max : Option ℤ) :
    Lays (fun emitp => compileVarying flags greedy min max (f emitp)) fun P =>
      CodeAt P flags (.rep greedy 0 (max.map (· - min)) x) := by
  unfold compileVarying
  split_ifs with h
  · subst h
    refine lays_nothing.mono fun P pc pc' h => ?_
    rw [h]
    exact .repDone (by simp)
  · cases max with
    | none =>
      refine hf.loop.mono fun P pc pc'' h => ?_
      obtain ⟨pc', hop, hx, hop', rfl⟩ := h
      exact .repLoop hop hx hop'
    | some max => exact lays_minMax hf _ _ rfl

theorem lays_times (greedy : Bool) (hf : Lays f fun P => CodeAt P flags x) (min : ℕ) :
    Lays (fun emitp => .times (f emitp) min) fun P pc pc' => ∀ max pc'',
      CodeAt P flags (.rep greedy 0 (max.map (· - (min : ℤ))) x) pc' pc'' →
        CodeAt P flags (.rep greedy min max x) pc pc'' := by
  induction min with
  | zero =>
    refine lays_nothing.mono fun P pc pc' h max pc'' hr => ?_
    simpa [h] using hr
  | succ min ih =>
    refine (hf.andThen ih).mono fun P pc pc' h max pc'' hr => ?_
    obtain ⟨pc₁, hx, hrest⟩ := h
    refine .repMin hx (hrest _ _ ?_)
    convert hr using 2
    rw [Option.map_map]
    congr 1
    funext l
    simp only [Function.comp_apply]
    omega

end

/-! ### The code generator -/

section

variable [DecidableEq ι] {flags : Flags} {x : Ast ι}

theorem compileRec_seq (emitp : Bool) (cell : ι) (items : List (Ast ι)) (pc : ℕ) :
    compileRec emitp flags false (.seq cell items) pc [] =
      compileSeq emitp flags false items pc [] := by
  simp [compileRec]

variable {items : List (Ast ι)}

theorem lays_seq (cell : ι)
    (h : ∀ x ∈ items, Lays (compileRec · flags false x) fun P => CodeAt P flags x) :
    Lays (compileSeq · flags false items) fun P => CodeAt P flags (.seq cell items) := by
  induction items with
  | nil =>
    refine lays_nothing.mono fun P pc pc' h => ?_
    rw [h]
    exact .seqNil
  | cons x items ih =>
    refine (((h x (mem_cons_self ..)).andThen
      (ih fun y hy => h y (mem_cons_of_mem _ hy))).congr fun emitp pc => ?_).mono
        fun P pc pc'' h => ?_
    · rw [compileSeq, if_neg (by simp)]
    obtain ⟨pc', hx, hs⟩ := h
    exact .seqCons hx hs

theorem lays_alter (h : ∀ x ∈ items, Lays (compileRec · flags false x) fun P => CodeAt P flags x) :
    Lays (compileAlter · flags false items) fun P => CodeAt P flags (.alter items) := by
  induction items with
  | nil =>
    refine (lays_emit .fail).mono fun P pc pc' h => ?_
    rw [h.2]
    exact .alterNil (opAt_of_getElem? h.1)
  | cons x items ih =>
    have hx := h x (mem_cons_self ..)
    have hitems := ih fun y hy => h y (mem_cons_of_mem _ hy)
    obtain ⟨rest, hrest, heq⟩ : ∃ rest, Lays rest (fun P => CodeAt P flags (.alter items)) ∧
        (compileAlter · flags false (x :: items)) = fun emitp =>
          .fork flags .split .nothing (compileRec emitp flags false x) (rest emitp) := by
      rcases items with _ | ⟨y, _ | ⟨z, items⟩⟩
      · exact ⟨_, hitems, rfl⟩
      · exact ⟨_, (h y (by simp)).mono fun P pc pc' hy => .alterLast hy, rfl⟩
      · exact ⟨_, hitems, rfl⟩
    rw [heq]
    refine (hx.fork flags hrest).mono fun P pc pc'' h => ?_
    obtain ⟨pc', hop, hx, hop', hs⟩ := h
    exact .alterCons hop hx hop' hs

theorem lays_constant (greedy : Bool) (min : ℕ)
    (h : Lays (compileRec · flags false x) fun P => CodeAt P flags x) :
    Lays (compileConstant · flags false x min) fun P pc pc' => ∀ max pc'',
      CodeAt P flags (.rep greedy 0 (max.map (· - (min : ℤ))) x) pc' pc'' →
        CodeAt P flags (.rep greedy min max x) pc pc'' := by
  cases x with
  | seq cell items =>
    have hseq : Lays (compileSeq · flags false items) fun P => CodeAt P flags (.seq cell items) :=
      h.congr fun emitp pc => (compileRec_seq emitp cell items pc).symm
    refine (lays_times greedy hseq min).congr fun emitp pc => ?_
    simp [compileConstant, compileRepSeq]
  | _ => exact lays_times greedy h min

omit [DecidableEq ι] in
theorem Ast.basic_of_rep {greedy : Bool} {min : ℕ} {max : Option ℤ}
    (h : (Ast.rep greedy min max x).basic) (hdone : ¬ (min = 0 ∧ ∃ l ≤ 0, max = some l)) :
    x.basic := by
  rw [basic, Bool.or_eq_true] at h
  refine h.resolve_right fun h => hdone ?_
  simpa [Option.any_eq_true, and_comm] using h

theorem compileRec_rep_done (emitp : Bool) (flags : Flags) (greedy : Bool) {max : ℤ}
    (hmax : max ≤ 0) (x : Ast ι) (pc : ℕ) :
    compileRec emitp flags false (.rep greedy 0 (some max) x) pc [] = some ([], []) := by
  have hconst : compileConstant emitp flags false x 0 pc [] = some ([], []) := by
    cases x <;> simp [compileConstant, compileRepSeq, Gen.times, Gen.nothing]
  have hvar : compileVarying flags greedy 0 (some max) (compileRec emitp flags false x) =
      .nothing := by
    rw [compileVarying]
    split_ifs
    · rfl
    · simp [Int.toNat_of_nonpos hmax, compileMinMax]
  rw [compileRec_rep, Gen.andThen, hconst, hvar]
  rfl

theorem compileRec_lays (flags : Flags) (hx : x.basic) :
    Lays (compileRec · flags false x) fun P => CodeAt P flags x := by
  induction x using Ast.induct generalizing flags with
  | atom a =>
    refine (lays_emit _).mono fun P pc pc' h => ?_
    rw [h.2]
    exact .atom h.1
  | anchor a =>
    refine (lays_emit _).mono fun P pc pc' h => ?_
    rw [h.2]
    exact .anchor h.1
  | seq cell items ih =>
    have hitems := basicAll_iff.1 hx
    exact (lays_seq cell fun x hx => ih x hx _ (hitems x hx)).congr
      fun emitp => compileRec_seq emitp cell items
  | flaggedSeq f x ih => exact (ih _ hx).mono fun P pc pc' h => .flaggedSeq h
  | register n name x ih =>
    refine ((lays_emit _).andThen ((ih _ hx).andThen (lays_emit _))).mono fun P pc pc' h => ?_
    obtain ⟨pc₁, ⟨hop, rfl⟩, pc₂, hx, hop', rfl⟩ := h
    exact .register hop hx (opAt_of_getElem? hop')
  | alter items ih =>
    have hitems := basicAll_iff.1 hx
    exact lays_alter fun x hx => ih x hx _ (hitems x hx)
  | rep greedy min max x ih =>
    by_cases hdone : min = 0 ∧ ∃ l ≤ 0, max = some l
    · obtain ⟨rfl, l, hl, rfl⟩ := hdone
      refine (lays_nothing.congr
        fun emitp => compileRec_rep_done emitp flags greedy hl x).mono fun P pc pc' h => ?_
      rw [h]
      exact .repDone hl
    have hx := basic_of_rep hx hdone
    simp only [compileRec_rep]
    refine ((lays_constant greedy min (ih _ hx)).andThen (lays_varying (ih _ hx) min max)).mono
      fun P pc pc'' h => ?_
    obtain ⟨pc', hmin, hvar⟩ := h
    exact hmin max pc'' hvar
  | _ => cases hx

/-- The program of a syntax tree without extended constructs is its code and `RX_MATCH`. -/
theorem compile_root (flags : Flags) (hx : x.basic) :
    ∃ prog, compile flags x = some prog ∧ ∃ len, prog.root.length = len + 1 ∧
      CodeAt prog.root flags x 0 len ∧ opAt prog.root len = some .match := by
  obtain ⟨code, hcode, hlay⟩ := compileRec_lays flags hx 0
  have hroot : (⟨code.length, code⟩ : Prog).root = code ++ [⟨.match, Prog.noFlags⟩] := by
    simpa using Prog.root_eq (p := ⟨code.length, code⟩) le_rfl
  refine ⟨⟨code.length, code⟩, ?_, code.length, ?_, ?_, ?_⟩
  · simp [compile, hcode]
  · simp [hroot]
  · have := hlay (code ++ [⟨.match, Prog.noFlags⟩]) (by simp)
    rwa [Nat.zero_add, ← hroot] at this
  · simp [hroot, opAt]

end

end Sagittarius.Regex
