import Mathlib.Data.Set.Basic
import Mathlib.Tactic.Tauto
import Sagittarius.Regex.Shape

/-!
# The two passes of the code generator

The counting and the emitting pass walk the same syntax tree, but the emitting pass finds lists
that it has reversed before.

* `visits` lists the sequences that the passes come to, in the order of the emitting pass;
* `Ast.ReversedOnce` : no list is visited after it was reversed, unless no code is generated for
  what it has lost;
* `compile_wellFormed_iff` : this is exactly when the emitting pass fills the program.

Whatever is lost, the code fits into the program and jumps stay inside (`compile_spec`).
-/

namespace Sagittarius.Regex

open List Ast
open Option (bind_eq_bind bind_eq_some_iff bind_some)

variable {ι : Type}

/-! ### The lists of a syntax tree -/

/-- A repetition has a varying part. -/
def varies (min : ℕ) (max : Option ℤ) : Bool :=
  match max with
  | some max => decide ((min : ℤ) < max)
  | none => true

mutual

/-- Code is generated for the node. -/
def Ast.emits : Ast ι → Bool
  | .seq _ items => emitsAny items
  | .flaggedSeq _ x => x.emits
  | .rep _ min max x => 0 < min && x.emits || varies min max
  | _ => true

/-- Code is generated for some node of a list. -/
def emitsAny : List (Ast ι) → Bool
  | [] => false
  | x :: items => x.emits || emitsAny items

end

/-- The code generator comes to a list. -/
structure Visit (ι : Type) where
  /-- the identity of the list -/
  cell : ι
  /-- it is reversed now -/
  reversed : Bool
  /-- code is generated for its items after the first -/
  tail : Bool

/-- The visits of the varying part of a repetition. -/
def visitsVarying (min : ℕ) (max : Option ℤ) (vs : List (Visit ι)) : List (Visit ι) :=
  match max with
  | some max => (replicate (max - min).toNat vs).flatten
  | none => vs

mutual

/-- The lists the emitting pass comes to, if it never finds one that was reversed before. -/
def visits (lb : Bool) : Ast ι → List (Visit ι)
  | .seq cell items => ⟨cell, lb, emitsAny items.tail⟩ :: visitsSeq lb items
  | .flaggedSeq _ x => visits lb x
  | .register _ _ x => visits lb x
  | .alter items => visitsAlter lb items
  | .rep _ min max x =>
    (match x with
      | .seq cell items =>
        if min = 0 then []
        else ⟨cell, false, emitsAny items.tail⟩ :: (replicate min (visitsSeq lb items)).flatten
      | x => (replicate min (visits lb x)).flatten) ++
    visitsVarying min max (visits lb x)
  | .lookahead _ x => visits lb x
  | .lookbehind _ x => visits true x
  | .standalone x => visits lb x
  | .branch _ (.alter (yes :: no :: _)) => visits lb yes ++ visits lb no
  | .branchAssert cond (.alter (yes :: no :: _)) =>
    visits lb cond ++ (visits lb yes ++ visits lb no)
  | .branchAssert cond _ => visits lb cond
  | _ => []

/-- `visits` of the items of a sequence -/
def visitsSeq (lb : Bool) : List (Ast ι) → List (Visit ι)
  | [] => []
  | x :: items =>
    if lb then visitsSeq lb items ++ visits lb x else visits lb x ++ visitsSeq lb items

/-- `visits` of alternatives -/
def visitsAlter (lb : Bool) : List (Ast ι) → List (Visit ι)
  | [] => []
  | x :: items => visits lb x ++ visitsAlter lb items

end

/-- The visits of the constant part of a repetition, which copies the list of a sequence. -/
def visitsConstant (lb : Bool) (x : Ast ι) (min : ℕ) : List (Visit ι) :=
  match x with
  | .seq cell items =>
    if min = 0 then []
    else ⟨cell, false, emitsAny items.tail⟩ :: (replicate min (visitsSeq lb items)).flatten
  | x => (replicate min (visits lb x)).flatten

theorem visits_rep (lb greedy : Bool) (min : ℕ) (max : Option ℤ) (x : Ast ι) :
    visits lb (.rep greedy min max x) =
      visitsConstant lb x min ++ visitsVarying min max (visits lb x) := by
  cases x <;> rfl

/-- No list is visited after it was reversed, unless no code is generated for what it has lost. -/
def Ast.ReversedOnce (x : Ast ι) : Prop :=
  (visits false x).Pairwise fun v w => ¬ (v.reversed ∧ w.tail ∧ v.cell = w.cell)

instance [DecidableEq ι] (x : Ast ι) : Decidable x.ReversedOnce :=
  inferInstanceAs (Decidable (List.Pairwise _ _))

/-! ### What one part of the emitting pass does -/

section

/-- No visit finds a list that has lost code, when the lists of `S` have been reversed. -/
def Safe (S : Set ι) (vs : List (Visit ι)) : Prop :=
  (∀ v ∈ vs, v.tail → v.cell ∉ S) ∧
    vs.Pairwise fun v w => ¬ (v.reversed ∧ w.tail ∧ v.cell = w.cell)

/-- The lists that are reversed after the visits. -/
def after (S : Set ι) (vs : List (Visit ι)) : Set ι :=
  {c | c ∈ S ∨ ∃ v ∈ vs, v.reversed ∧ v.cell = c}

theorem safe_nil (S : Set ι) : Safe S [] := ⟨by simp, List.Pairwise.nil⟩

theorem after_nil (S : Set ι) : after S [] = S := by simp [after]

theorem after_append (S : Set ι) (vs ws : List (Visit ι)) :
    after S (vs ++ ws) = after (after S vs) ws := by
  ext c
  simp only [after, Set.mem_ofPred_eq, mem_append, or_and_right, exists_or, or_assoc]

theorem safe_append (S : Set ι) (vs ws : List (Visit ι)) :
    Safe S (vs ++ ws) ↔ Safe S vs ∧ Safe (after S vs) ws := by
  have hmem : (∀ w ∈ ws, w.tail → w.cell ∉ after S vs) ↔
      (∀ w ∈ ws, w.tail → w.cell ∉ S) ∧
        ∀ v ∈ vs, ∀ w ∈ ws, ¬ (v.reversed ∧ w.tail ∧ v.cell = w.cell) := by
    constructor
    · exact fun h => ⟨fun w hw ht hS => h w hw ht (.inl hS),
        fun v hv w hw ⟨hr, ht, hc⟩ => h w hw ht (.inr ⟨v, hv, hr, hc⟩)⟩
    · rintro ⟨h, h'⟩ w hw ht (hS | ⟨v, hv, hr, hc⟩)
      · exact h w hw ht hS
      · exact h' v hv w hw ⟨hr, ht, hc⟩
  simp only [Safe, forall_mem_append, pairwise_append, hmem]
  tauto

/-- `R` and `S` have the same lists among those whose loss would be noticed. -/
def Agree (long : ι → Bool) (R : List ι) (S : Set ι) : Prop := ∀ c, long c → (c ∈ R ↔ c ∈ S)

variable {long : ι → Bool}

/-- The length `k` of the code that a part of the emitting pass generates, which takes the reversed
lists from `R` to `R'`, against the length `n` that was counted: nothing is missing exactly when
the visits are safe. -/
structure Emitted (long : ι → Bool) (vs : List (Visit ι)) (n k : ℕ) (R R' : List ι) : Prop where
  le : k ≤ n
  eq_of_safe : ∀ S, Agree long R S → Safe S vs → k = n ∧ Agree long R' (after S vs)
  lt_of_not_safe : ∀ S, Agree long R S → ¬ Safe S vs → k < n

theorem Emitted.nil (n : ℕ) (R : List ι) : Emitted long [] n n R R where
  le := le_rfl
  eq_of_safe S hS _ := ⟨rfl, by rwa [after_nil]⟩
  lt_of_not_safe S _ h := absurd (safe_nil S) h

variable {n k : ℕ} {R : List ι}

theorem Emitted.append {vs ws : List (Visit ι)} {m l : ℕ} {R₁ R₂ : List ι}
    (h : Emitted long vs n k R R₁) (h' : Emitted long ws m l R₁ R₂) :
    Emitted long (vs ++ ws) (n + m) (k + l) R R₂ where
  le := Nat.add_le_add h.le h'.le
  eq_of_safe S hS hs := by
    rw [safe_append] at hs
    obtain ⟨hk, hR₁⟩ := h.eq_of_safe S hS hs.1
    obtain ⟨hl, hR₂⟩ := h'.eq_of_safe _ hR₁ hs.2
    exact ⟨by rw [hk, hl], by rwa [after_append]⟩
  lt_of_not_safe S hS hs := by
    rw [safe_append, not_and] at hs
    have hle := h'.le
    by_cases hv : Safe S vs
    · obtain ⟨hk, hR₁⟩ := h.eq_of_safe S hS hv
      have hl := h'.lt_of_not_safe _ hR₁ (hs hv)
      omega
    · have hk := h.lt_of_not_safe S hS hv
      omega

variable {R' : List ι}

theorem Emitted.add {vs : List (Visit ι)} (h : Emitted long vs n k R R') (c : ℕ) :
    Emitted long vs (n + c) (k + c) R R' where
  le := by have := h.le; omega
  eq_of_safe S hS hs := ⟨by rw [(h.eq_of_safe S hS hs).1], (h.eq_of_safe S hS hs).2⟩
  lt_of_not_safe S hS hs := by have := h.lt_of_not_safe S hS hs; omega

/-- A part of the emitting pass succeeds, with code of the length that `Emitted` says. -/
def Emits (long : ι → Bool) (vs : List (Visit ι)) (n : ℕ) (gen : Gen ι) : Prop :=
  ∀ pc R, ∃ code R', gen pc R = some (code, R') ∧ Emitted long vs n code.length R R'

/-- The emitting pass `gen` follows the counting pass `count`: it succeeds when that does, and the
length of the code is as `Emitted` says; `e` tells whether there is any code. -/
def Follows (long : ι → Bool) (e : Bool) (vs : List (Visit ι)) (count gen : Gen ι) : Prop :=
  ∀ pc₀ code₀ R₀, count pc₀ [] = some (code₀, R₀) →
    R₀ = [] ∧ (0 < code₀.length ↔ e) ∧
    Emits long vs code₀.length gen

variable {e e' e'' : Bool} {vs ws us : List (Visit ι)} {f₀ f g₀ g h₀ h : Gen ι} {flags : Flags}

theorem follows_nothing : Follows long false [] (.nothing : Gen ι) .nothing := by
  rintro pc₀ code₀ R₀ h
  obtain ⟨rfl, rfl⟩ : [] = code₀ ∧ [] = R₀ := by simpa [Gen.nothing] using h
  exact ⟨rfl, by simp, fun pc R => ⟨[], R, rfl, .nil 0 R⟩⟩

theorem follows_error : Follows long e vs .error g := by
  intro pc₀ code₀ R₀ h
  cases h

theorem follows_emit {op : Op} :
    Follows long true [] (.emit flags op : Gen ι) (.emit flags op) := by
  rintro pc₀ code₀ R₀ h
  obtain ⟨rfl, rfl⟩ : [⟨op, flags⟩] = code₀ ∧ [] = R₀ := by simpa [Gen.emit] using h
  exact ⟨rfl, by simp, fun pc R => ⟨[⟨op, flags⟩], R, rfl, .nil 1 R⟩⟩

theorem Emits.andThen {m : ℕ} (hf : Emits long vs n f) (hg : Emits long ws m g) :
    Emits long (vs ++ ws) (n + m) (.andThen f g) := by
  intro pc R
  obtain ⟨a, R₁, ha, hae⟩ := hf pc R
  obtain ⟨b, R₂, hb, hbe⟩ := hg (pc + a.length) R₁
  refine ⟨a ++ b, R₂, by simp [Gen.andThen, ha, hb], ?_⟩
  rw [length_append]
  exact hae.append hbe

section

variable (hf : Follows long e vs f₀ f) (hg : Follows long e' ws g₀ g)

include hf hg

theorem Follows.count_andThen {pc₀ : ℕ} {code₀ : List Inst} {R₀ : List ι}
    (h : Gen.andThen f₀ g₀ pc₀ [] = some (code₀, R₀)) :
    R₀ = [] ∧ (0 < code₀.length ↔ (e || e')) ∧ ∃ n m, code₀.length = n + m ∧ (0 < m ↔ e') ∧
      Emits long vs n f ∧ Emits long ws m g := by
  simp only [Gen.andThen, bind_eq_bind, bind_eq_some_iff, Prod.exists] at h
  obtain ⟨a₀, Ra, ha, b₀, Rb, hb, heq⟩ := h
  obtain ⟨rfl, rfl⟩ : a₀ ++ b₀ = code₀ ∧ Rb = R₀ := by simpa using heq
  obtain ⟨rfl, hea, hfa⟩ := hf _ _ _ ha
  obtain ⟨rfl, heb, hgb⟩ := hg _ _ _ hb
  refine ⟨rfl, ?_, _, _, length_append, heb, hfa, hgb⟩
  rw [length_append, Nat.add_pos_iff_pos_or_pos, hea, heb, Bool.or_eq_true]

theorem Follows.andThen : Follows long (e || e') (vs ++ ws) (.andThen f₀ g₀) (.andThen f g) := by
  intro pc₀ code₀ R₀ h
  obtain ⟨hR, hpos, n, m, hlen, -, hf', hg'⟩ := hf.count_andThen hg h
  exact ⟨hR, hpos, hlen ▸ hf'.andThen hg'⟩

/-- The emitting pass may generate two parts in the opposite order. -/
theorem Follows.andThen_swap :
    Follows long (e || e') (ws ++ vs) (.andThen f₀ g₀) (.andThen g f) := by
  intro pc₀ code₀ R₀ h
  obtain ⟨hR, hpos, n, m, hlen, -, hf', hg'⟩ := hf.count_andThen hg h
  exact ⟨hR, hpos, (hlen.trans (Nat.add_comm n m)) ▸ hg'.andThen hf'⟩

end

theorem Follows.times (hf : Follows long e vs f₀ f) (n : ℕ) :
    Follows long (0 < n && e) (replicate n vs).flatten (.times f₀ n) (.times f n) := by
  induction n with
  | zero => exact follows_nothing
  | succ n ih =>
    have he : (decide (0 < n + 1) && e) = (e || (decide (0 < n) && e)) := by
      cases e <;> simp
    rw [he, replicate_succ, flatten_cons]
    exact hf.andThen ih

variable {head : ℕ → ℕ → Op}

theorem Follows.fork (hc : Follows long e us h₀ h) (hf : Follows long e' vs f₀ f)
    (hg : Follows long e'' ws g₀ g) :
    Follows long true (us ++ (vs ++ ws)) (.fork flags head h₀ f₀ g₀) (.fork flags head h f g) := by
  intro pc₀ code₀ R₀ hcode
  simp only [Gen.fork, bind_eq_bind, bind_eq_some_iff, Prod.exists] at hcode
  obtain ⟨c₀, Rc, hc₀, a₀, Ra, ha₀, b₀, Rb, hb₀, heq⟩ := hcode
  obtain ⟨rfl, rfl⟩ := by simpa using heq
  obtain ⟨rfl, -, hcs⟩ := hc _ _ _ hc₀
  obtain ⟨rfl, -, hfs⟩ := hf _ _ _ ha₀
  obtain ⟨rfl, -, hgs⟩ := hg _ _ _ hb₀
  refine ⟨rfl, by simp, fun pc R => ?_⟩
  obtain ⟨c, R₁, hc', hce⟩ := hcs (pc + 1) R
  obtain ⟨a, R₂, ha', hae⟩ := hfs (pc + 1 + c.length) R₁
  obtain ⟨b, R₃, hb', hbe⟩ := hgs (pc + 1 + c.length + a.length + 1) R₂
  refine ⟨_, R₃, by simp only [Gen.fork, hc', ha', hb', bind_eq_bind, bind_some]; rfl,
    ?_⟩
  have := (hce.append (hae.append hbe)).add 2
  simp only [length_cons, length_append]
  convert this using 1 <;> omega

theorem Follows.block {last : ℕ → Op} (hf : Follows long e vs f₀ f) :
    Follows long true vs (.block flags head last f₀) (.block flags head last f) := by
  intro pc₀ code₀ R₀ hcode
  simp only [Gen.block, bind_eq_bind, bind_eq_some_iff, Prod.exists] at hcode
  obtain ⟨a₀, Ra, ha₀, heq⟩ := hcode
  obtain ⟨rfl, rfl⟩ := by simpa using heq
  obtain ⟨rfl, -, hfs⟩ := hf _ _ _ ha₀
  refine ⟨rfl, by simp, fun pc R => ?_⟩
  obtain ⟨a, R₁, ha', hae⟩ := hfs (pc + 1) R
  refine ⟨_, R₁, by simp only [Gen.block, ha', bind_eq_bind, bind_some]; rfl, ?_⟩
  simpa using hae.add 2

theorem Follows.optional (hf : Follows long e vs f₀ f) (hg : Follows long e' ws g₀ g) :
    Follows long true (vs ++ ws) (.optional flags head f₀ g₀) (.optional flags head f g) := by
  intro pc₀ code₀ R₀ hcode
  simp only [Gen.optional, bind_eq_bind, bind_eq_some_iff, Prod.exists] at hcode
  obtain ⟨a₀, Ra, ha₀, b₀, Rb, hb₀, heq⟩ := hcode
  obtain ⟨rfl, rfl⟩ := by simpa using heq
  obtain ⟨rfl, -, hfs⟩ := hf _ _ _ ha₀
  obtain ⟨rfl, -, hgs⟩ := hg _ _ _ hb₀
  refine ⟨rfl, by simp, fun pc R => ?_⟩
  obtain ⟨a, R₁, ha', hae⟩ := hfs (pc + 1) R
  obtain ⟨b, R₂, hb', hbe⟩ := hgs (pc + 1 + a.length) R₁
  refine ⟨_, R₂, by simp only [Gen.optional, ha', hb', bind_eq_bind, bind_some]; rfl,
    ?_⟩
  simpa using (hae.append hbe).add 1

/-! ### Lists that were reversed before -/

theorem Emitted.visit {v : Visit ι} {vs : List (Visit ι)} (hv : v.tail = long v.cell)
    (hR : v.tail → v.cell ∉ R)
    (h : Emitted long vs n k (if v.reversed then v.cell :: R else R) R') :
    Emitted long (v :: vs) n k R R' := by
  have hsafe : ∀ S, Agree long R S → (Safe S (v :: vs) ↔ Safe (after S [v]) vs) := by
    intro S hS
    rw [← singleton_append, safe_append, and_iff_right_iff_imp]
    refine fun _ => ⟨?_, pairwise_singleton _ _⟩
    simp only [mem_singleton, forall_eq]
    exact fun ht => (hS v.cell (hv ▸ ht)).not.1 (hR ht)
  have hagree : ∀ S, Agree long R S →
      Agree long (if v.reversed then v.cell :: R else R) (after S [v]) := by
    intro S hS c hc
    have := hS c hc
    cases hr : v.reversed
    · simp [after, hr, this]
    · simp [after, hr, this, or_comm, @eq_comm _ c]
  refine ⟨h.le, fun S hS hs => ?_, fun S hS hs => ?_⟩
  · rw [← singleton_append, after_append]
    exact h.eq_of_safe _ (hagree S hS) ((hsafe S hS).1 hs)
  · exact h.lt_of_not_safe _ (hagree S hS) fun hs' => hs ((hsafe S hS).2 hs')

theorem Emitted.visit_lost {v : Visit ι} {vs : List (Visit ι)} (hv : v.tail = long v.cell)
    (ht : v.tail) (hR : v.cell ∈ R) (h : k < n) :
    Emitted long (v :: vs) n k R R' where
  le := h.le
  eq_of_safe _ hS hs :=
    absurd ((hS v.cell (hv ▸ ht)).1 hR) (hs.1 v (mem_cons_self ..) ht)
  lt_of_not_safe _ _ _ := h

theorem not_safe_twice (S : Set ι) (cell : ι) (vs : List (Visit ι)) :
    ¬ Safe S (⟨cell, true, true⟩ :: ⟨cell, true, true⟩ :: vs) := by
  simp [Safe]

theorem Emitted.skip {vs : List (Visit ι)} (h : Emitted long [] n k R R')
    (hv : ∀ v ∈ vs, v.tail = long v.cell) (hvs : ∀ v ∈ vs, v.tail = false) :
    Emitted long vs n k R R' := by
  have hsafe : ∀ S, Safe S vs := by
    refine fun S => ⟨fun v hm ht => absurd ht (by simp [hvs v hm]), ?_⟩
    refine pairwise_of_forall_mem_list fun v _ w hw => ?_
    simp [hvs w hw]
  refine ⟨h.le, fun S hS _ => ?_, fun S _ hs => absurd (hsafe S) hs⟩
  obtain ⟨hk, hR'⟩ := h.eq_of_safe S hS (safe_nil S)
  refine ⟨hk, fun c hc => (hR' c hc).trans ?_⟩
  rw [after_nil]
  refine ⟨.inl, ?_⟩
  rintro (hS | ⟨v, hm, -, rfl⟩)
  · exact hS
  · rw [← hv v hm, hvs v hm] at hc
    cases hc

end

/-! ### Sharing -/

mutual

/-- Every sequence with the identity `cell` has the items `heap cell`. -/
def Ast.Consistent (heap : ι → List (Ast ι)) : Ast ι → Prop
  | .seq cell items => items = heap cell ∧ ConsistentAll heap items
  | .flaggedSeq _ x => x.Consistent heap
  | .register _ _ x => x.Consistent heap
  | .alter items => ConsistentAll heap items
  | .rep _ _ _ x => x.Consistent heap
  | .lookahead _ x => x.Consistent heap
  | .lookbehind _ x => x.Consistent heap
  | .standalone x => x.Consistent heap
  | .branch _ rest => rest.Consistent heap
  | .branchAssert cond rest => cond.Consistent heap ∧ rest.Consistent heap
  | _ => True

/-- `Ast.Consistent` of every syntax tree in a list -/
def ConsistentAll (heap : ι → List (Ast ι)) : List (Ast ι) → Prop
  | [] => True
  | x :: items => x.Consistent heap ∧ ConsistentAll heap items

end

/-- A syntax tree as objects that may be shared: a list has one value. -/
structure SharedAst (ι : Type) where
  ast : Ast ι
  heap : ι → List (Ast ι)
  /-- identities are those of lists -/
  consistent : ast.Consistent heap

variable {heap : ι → List (Ast ι)}

/-- The items after the first generate code. -/
def long (heap : ι → List (Ast ι)) (cell : ι) : Bool := emitsAny (heap cell).tail

variable {items : List (Ast ι)}

theorem consistentAll_iff : ConsistentAll heap items ↔ ∀ x ∈ items, x.Consistent heap := by
  induction items with
  | nil => simp [ConsistentAll]
  | cons x items ih => rw [ConsistentAll, ih, forall_mem_cons]

theorem emitsAny_eq_false : emitsAny items = false ↔ ∀ x ∈ items, x.emits = false := by
  induction items with
  | nil => simp [emitsAny]
  | cons x items ih => rw [emitsAny, Bool.or_eq_false_iff, ih, forall_mem_cons]

variable {lb : Bool} {v : Visit ι}

theorem mem_visitsSeq : v ∈ visitsSeq lb items ↔ ∃ x ∈ items, v ∈ visits lb x := by
  induction items with
  | nil => simp [visitsSeq]
  | cons x items ih =>
    rw [visitsSeq]
    split <;> simp [ih, or_comm]

theorem mem_visitsAlter : v ∈ visitsAlter lb items ↔ ∃ x ∈ items, v ∈ visits lb x := by
  induction items with
  | nil => simp [visitsAlter]
  | cons x items ih => simp [visitsAlter, ih]

variable {x : Ast ι}

theorem mem_visits_rep {greedy : Bool} {min : ℕ} {max : Option ℤ}
    (h : v ∈ visits lb (.rep greedy min max x)) :
    (∃ w ∈ visits lb x, v.cell = w.cell ∧ v.tail = w.tail) ∧
      (0 < min ∨ varies min max) := by
  rw [visits_rep, mem_append] at h
  rcases h with h | h
  · have hx : ∀ y : Ast ι, v ∈ (replicate min (visits lb y)).flatten →
        0 < min ∧ v ∈ visits lb y := by
      intro y hv
      obtain ⟨l, hl, hv⟩ := mem_flatten.1 hv
      obtain ⟨hmin, rfl⟩ := mem_replicate.1 hl
      exact ⟨Nat.pos_of_ne_zero hmin, hv⟩
    cases x
    case seq cell items =>
      simp only [visitsConstant] at h
      split_ifs at h with hmin
      · cases h
      · refine ⟨?_, .inl (Nat.pos_of_ne_zero hmin)⟩
        rcases mem_cons.1 h with rfl | h
        · exact ⟨_, mem_cons_self .., rfl, rfl⟩
        · obtain ⟨l, hl, hv⟩ := mem_flatten.1 h
          rw [(mem_replicate.1 hl).2] at hv
          exact ⟨v, mem_cons_of_mem _ hv, rfl, rfl⟩
    all_goals exact ⟨⟨v, (hx _ h).2, rfl, rfl⟩, .inl (hx _ h).1⟩
  · cases max with
    | none => exact ⟨⟨v, h, rfl, rfl⟩, .inr rfl⟩
    | some max =>
      obtain ⟨l, hl, hv⟩ := mem_flatten.1 h
      obtain ⟨hmax, rfl⟩ := mem_replicate.1 hl
      exact ⟨⟨v, hv, rfl, rfl⟩, .inr (decide_eq_true (by omega))⟩

theorem mem_visits_branch {n : ℕ} {rest : Ast ι} (h : v ∈ visits lb (.branch n rest)) :
    ∃ items, rest = .alter items ∧ ∃ x ∈ items, v ∈ visits lb x := by
  match rest, h with
  | .alter (yes :: no :: items), h =>
    rcases mem_append.1 h with h | h
    · exact ⟨_, rfl, yes, by simp, h⟩
    · exact ⟨_, rfl, no, by simp, h⟩

theorem mem_visits_branchAssert {cond rest : Ast ι} (h : v ∈ visits lb (.branchAssert cond rest)) :
    v ∈ visits lb cond ∨ ∃ items, rest = .alter items ∧ ∃ x ∈ items, v ∈ visits lb x := by
  match rest, h with
  | .alter (yes :: no :: items), h =>
    simp only [visits, mem_append] at h
    rcases h with h | h | h
    · exact .inl h
    · exact .inr ⟨_, rfl, yes, by simp, h⟩
    · exact .inr ⟨_, rfl, no, by simp, h⟩
  | .alter [], h | .alter [_], h | .atom _, h | .anchor _, h | .seq _ _, h | .flaggedSeq _ _, h
  | .register _ _ _, h | .rep _ _ _ _, h | .backref _, h | .lookahead _ _, h | .lookbehind _ _, h
  | .standalone _, h | .branch _ _, h | .branchAssert _ _, h | .flags _, h => exact .inl h

theorem visits_tail (hx : x.Consistent heap) (hv : v ∈ visits lb x) :
    v.tail = long heap v.cell := by
  induction x using Ast.induct generalizing lb v with
  | seq cell items ih =>
    obtain ⟨hitems, hall⟩ := hx
    rcases mem_cons.1 hv with rfl | hv
    · rw [long, ← hitems]
    · obtain ⟨y, hy, hv⟩ := mem_visitsSeq.1 hv
      exact ih y hy (consistentAll_iff.1 hall y hy) hv
  | alter items ih =>
    obtain ⟨y, hy, hv⟩ := mem_visitsAlter.1 hv
    exact ih y hy (consistentAll_iff.1 hx y hy) hv
  | rep greedy min max y ih =>
    obtain ⟨⟨w, hw, hcell, htail⟩, -⟩ := mem_visits_rep hv
    rw [hcell, htail]
    exact ih hx hw
  | flaggedSeq f y ih | register n name y ih | lookahead a y ih | lookbehind a y ih
  | standalone y ih => exact ih hx hv
  | branch n rest ih =>
    obtain ⟨items, rfl, hm⟩ := mem_visits_branch hv
    exact ih hx (mem_visitsAlter.2 hm)
  | branchAssert cond rest ihc ih =>
    rcases mem_visits_branchAssert hv with hm | ⟨items, rfl, hm⟩
    · exact ihc hx.1 hm
    · exact ih hx.2 (mem_visitsAlter.2 hm)
  | _ => cases hv

theorem visits_tail_eq_false (hx : x.emits = false) (hv : v ∈ visits lb x) : v.tail = false := by
  induction x using Ast.induct generalizing lb v with
  | seq cell items ih =>
    rw [emits, emitsAny_eq_false] at hx
    rcases mem_cons.1 hv with rfl | hv
    · exact emitsAny_eq_false.2 fun y hy => hx y (mem_of_mem_tail hy)
    · obtain ⟨y, hy, hv⟩ := mem_visitsSeq.1 hv
      exact ih y hy (hx y hy) hv
  | flaggedSeq f y ih => exact ih hx hv
  | rep greedy min max y ih =>
    obtain ⟨⟨w, hw, -, htail⟩, hrounds⟩ := mem_visits_rep hv
    rw [htail]
    refine ih ?_ hw
    simp only [emits, Bool.or_eq_false_iff, Bool.and_eq_false_iff] at hx
    rcases hrounds with hmin | hmax
    · simpa [hmin] using hx.1
    · simp [hmax] at hx
  | _ => cases hx

/-! ### The passes on a syntax tree -/

section

variable [DecidableEq ι] {flags : Flags} {lb : Bool} {items : List (Ast ι)} {x : Ast ι}

/-- The emitting pass follows the counting pass on a node. -/
def NodeFollows (heap : ι → List (Ast ι)) (x : Ast ι) : Prop :=
  x.Consistent heap → ∀ flags lb, Follows (long heap) x.emits (visits lb x)
    (compileRec false flags lb x) (compileRec true flags lb x)

theorem follows_compileSeq (ih : ∀ x ∈ items, NodeFollows heap x)
    (hc : ConsistentAll heap items) :
    Follows (long heap) (emitsAny items) (visitsSeq lb items)
      (compileSeq false flags lb items) (compileSeq true flags lb items) := by
  induction items with
  | nil => exact follows_nothing
  | cons x items ihs =>
    have hx := ih x (mem_cons_self ..) hc.1 flags lb
    have hitems := ihs (fun y hy => ih y (mem_cons_of_mem _ hy)) hc.2
    cases lb
    · exact hx.andThen hitems
    · exact hx.andThen_swap hitems

/-- What is left of a list that was reversed generates less code, if code is generated for what was
lost: as if the list were found twice. -/
theorem compileFirst_lt (ih : ∀ x ∈ items, NodeFollows heap x) (hc : ConsistentAll heap items)
    (hl : emitsAny items.tail) (cell : ι) :
    Follows (long heap) (emitsAny items) [⟨cell, true, true⟩, ⟨cell, true, true⟩]
      (compileSeq false flags lb items) (compileFirst true flags lb items) := by
  cases items with
  | nil => cases hl
  | cons x items =>
    intro pc₀ code₀ R₀ h
    rw [forall_mem_cons] at ih
    obtain ⟨hR, hpos, n, m, hlen, hm, hx, -⟩ :=
      (ih.1 hc.1 flags lb).count_andThen (follows_compileSeq ih.2 hc.2) h
    refine ⟨hR, hpos, fun pc R => ?_⟩
    obtain ⟨a, R', ha, hae⟩ := hx pc R
    have hlt : a.length < code₀.length := by
      have := hae.le
      have := hm.2 hl
      omega
    refine ⟨a, R', ha, ⟨hlt.le, fun S _ hs => ?_, fun S _ _ => hlt⟩⟩
    simp [Safe] at hs

theorem follows_compileFirst (ih : ∀ x ∈ items, NodeFollows heap x)
    (hc : ConsistentAll heap items) (hl : emitsAny items.tail = false) :
    Follows (long heap) (emitsAny items) (visitsSeq lb items)
      (compileSeq false flags lb items) (compileFirst true flags lb items) := by
  cases items with
  | nil => exact follows_nothing
  | cons x items =>
    intro pc₀ code₀ R₀ h
    rw [forall_mem_cons] at ih
    obtain ⟨hR, hpos, n, m, hlen, hm, hx, -⟩ :=
      (ih.1 hc.1 flags lb).count_andThen (follows_compileSeq ih.2 hc.2) h
    refine ⟨hR, hpos, fun pc R => ?_⟩
    obtain ⟨a, R', ha, hae⟩ := hx pc R
    obtain rfl : m = 0 := Nat.eq_zero_of_not_pos (hm.not.2 (by simpa using hl))
    refine ⟨a, R', ha, ?_⟩
    have hskip : ∀ R, Emitted (long heap) (visitsSeq lb items) 0 0 R R := fun R =>
      (Emitted.nil 0 R).skip
        (fun v hv => by
          obtain ⟨y, hy, hv⟩ := mem_visitsSeq.1 hv
          exact visits_tail (consistentAll_iff.1 hc.2 y hy) hv)
        (fun v hv => by
          obtain ⟨y, hy, hv⟩ := mem_visitsSeq.1 hv
          exact visits_tail_eq_false (emitsAny_eq_false.1 hl y hy) hv)
    rw [hlen]
    cases lb
    · exact hae.append (hskip R')
    · simpa [visitsSeq] using (hskip R).append hae

variable {e : Bool} {vs : List (Visit ι)}

/-- A list is found, and reversed if `rev`: the items `all`, if it was reversed before the item
`first`. -/
theorem Follows.list {long : ι → Bool} {cell : ι} {tail rev : Bool} {bad : List (Visit ι)}
    {count count' first all : Gen ι} (hv : tail = long cell)
    (hcount : ∀ pc, count' pc [] = count pc []) (hall : Follows long e vs count all)
    (hfirst : tail = false → Follows long e vs count first)
    (hlost : tail = true → Follows long e bad count first) (hbad : ∀ S, ¬ Safe S bad) :
    Follows long e (⟨cell, rev, tail⟩ :: vs) count' (fun pc R =>
      if cell ∈ R then first pc (if rev then cell :: R else R)
      else all pc (if rev then cell :: R else R)) := by
  intro pc₀ code₀ R₀ h
  rw [hcount] at h
  obtain ⟨hR₀, hpos, hall⟩ := hall _ _ _ h
  refine ⟨hR₀, hpos, fun pc R => ?_⟩
  by_cases hcell : cell ∈ R
  · simp only [hcell, ↓reduceIte]
    cases tail
    · obtain ⟨code, R', hcode, he⟩ :=
        (hfirst rfl _ _ _ h).2.2 pc (if rev then cell :: R else R)
      exact ⟨code, R', hcode, he.visit hv nofun⟩
    · obtain ⟨code, R', hcode, he⟩ :=
        (hlost rfl _ _ _ h).2.2 pc (if rev then cell :: R else R)
      have hlt := he.lt_of_not_safe {c | c ∈ if rev then cell :: R else R} (fun _ _ => .rfl)
        (hbad _)
      exact ⟨code, R', hcode, .visit_lost hv rfl hcell hlt⟩
  · simp only [hcell, ↓reduceIte]
    obtain ⟨code, R', hcode, he⟩ := hall pc (if rev then cell :: R else R)
    exact ⟨code, R', hcode, he.visit hv fun _ => hcell⟩

theorem follows_seq {cell : ι} (ih : ∀ x ∈ items, NodeFollows heap x) :
    NodeFollows heap (.seq cell items) := by
  intro hc flags lb
  refine Follows.list (by rw [long, ← hc.1]) (fun pc => ?_) (follows_compileSeq ih hc.2)
    (follows_compileFirst ih hc.2) (fun hl => compileFirst_lt ih hc.2 hl cell)
    (fun S => not_safe_twice S cell [])
  simp [compileRec]

theorem follows_compileConstant (ih : NodeFollows heap x)
    (ihs : ∀ y ∈ x.children, NodeFollows heap y) (hc : x.Consistent heap) (min : ℕ) :
    Follows (long heap) (0 < min && x.emits) (visitsConstant lb x min)
      (compileConstant false flags lb x min) (compileConstant true flags lb x min) := by
  cases x
  case seq cell items =>
    cases min with
    | zero =>
      have hnothing : ∀ emitp, compileConstant emitp flags lb (.seq cell items) 0 = .nothing := by
        intro emitp
        funext pc R
        simp [compileConstant, compileRepSeq, Gen.times]
      rw [hnothing, hnothing]
      exact follows_nothing
    | succ n =>
      have ihs : ∀ y ∈ items, NodeFollows heap y := ihs
      refine Follows.list (by rw [long, ← hc.1]) (fun pc => ?_)
        ((follows_compileSeq ihs hc.2).times _)
        (fun hl => (follows_compileFirst ihs hc.2 hl).times _)
        (fun hl => (compileFirst_lt ihs hc.2 hl cell).times _)
        (fun S => not_safe_twice S cell _)
      simp [compileConstant, compileRepSeq]
  all_goals exact (ih hc flags lb).times min

omit [DecidableEq ι] in
theorem follows_compileMinMax {f₀ f : Gen ι} {long : ι → Bool} (hf : Follows long e vs f₀ f)
    (greedy : Bool) (n : ℕ) :
    Follows long (0 < n) (replicate n vs).flatten (compileMinMax flags greedy f₀ n)
      (compileMinMax flags greedy f n) := by
  induction n with
  | zero => exact follows_nothing
  | succ n ih =>
    simpa [replicate_succ, compileMinMax] using hf.optional ih

omit [DecidableEq ι] in
theorem follows_compileVarying {f₀ f : Gen ι} {long : ι → Bool} (hf : Follows long e vs f₀ f)
    (greedy : Bool) (min : ℕ) (max : Option ℤ) :
    Follows long (varies min max) (visitsVarying min max vs)
      (compileVarying flags greedy min max f₀) (compileVarying flags greedy min max f) := by
  cases max with
  | none => exact hf.block
  | some max =>
    have hpos : varies min (some max) = decide (0 < (max - min).toNat) :=
      decide_eq_decide.2 (by omega)
    rw [hpos]
    have h := @follows_compileMinMax _ flags _ _ _ _ _ hf greedy (max - min).toNat
    by_cases heq : max = min
    · subst heq
      simpa [compileVarying, visitsVarying, compileMinMax] using h
    · simpa [compileVarying, visitsVarying, heq] using h

theorem follows_compileAlter (ih : ∀ x ∈ items, NodeFollows heap x)
    (hc : ConsistentAll heap items) :
    Follows (long heap) true (visitsAlter lb items)
      (compileAlter false flags lb items) (compileAlter true flags lb items) := by
  induction items with
  | nil => exact follows_emit
  | cons x items ihs =>
    rw [forall_mem_cons] at ih
    have hx := ih.1 hc.1 flags lb
    have hitems : Follows (long heap) true ([] ++ (visits lb x ++ visitsAlter lb items))
        (.fork flags .split .nothing (compileRec false flags lb x)
          (compileAlter false flags lb items))
        (.fork flags .split .nothing (compileRec true flags lb x)
          (compileAlter true flags lb items)) :=
      follows_nothing.fork hx (ihs ih.2 hc.2)
    rcases items with _ | ⟨y, _ | ⟨z, items⟩⟩
    · exact hitems
    · have hy := ih.2 y (mem_singleton_self y) hc.2.1 flags lb
      simpa [visitsAlter, compileAlter] using follows_nothing.fork hx hy
    · exact hitems

/-- **The emitting pass follows the counting pass** on every node. -/
theorem nodeFollows (x : Ast ι) : NodeFollows heap x := by
  suffices h : NodeFollows heap x ∧ ∀ y ∈ x.children, NodeFollows heap y from h.1
  have hemit : ∀ {op : Op} {flags : Flags},
      Follows (long heap) true [] (.emit flags op : Gen ι) (.emit flags op) := follows_emit
  induction x using Ast.induct with
  | atom a | anchor a | backref n => exact ⟨fun _ _ _ => hemit, by simp [children]⟩
  | seq cell items ih => exact ⟨follows_seq fun y hy => (ih y hy).1, fun y hy => (ih y hy).1⟩
  | flaggedSeq f y ih => exact ⟨fun hc flags lb => ih.1 hc _ lb, by simp [children]⟩
  | register n name y ih =>
    refine ⟨fun hc flags lb => ?_, by simp [children]⟩
    simpa [compileRec, visits, emits] using
      hemit.andThen ((ih.1 hc flags lb).andThen hemit)
  | alter items ih =>
    exact ⟨fun hc flags lb => follows_compileAlter (fun y hy => (ih y hy).1) hc,
      fun y hy => (ih y hy).1⟩
  | rep greedy min max y ih =>
    refine ⟨fun hc flags lb => ?_, by simp [children]⟩
    rw [compileRec_rep, compileRec_rep, visits_rep]
    exact (follows_compileConstant ih.1 ih.2 hc min).andThen
      (follows_compileVarying (ih.1 hc flags lb) greedy min max)
  | lookahead a y ih | standalone y ih =>
    exact ⟨fun hc flags lb => (ih.1 hc flags lb).block, by simp [children]⟩
  | lookbehind a y ih => exact ⟨fun hc flags lb => (ih.1 hc flags true).block, by simp [children]⟩
  | branch n rest ih =>
    refine ⟨fun hc flags lb => ?_, by simp [children]⟩
    cases rest with
    | alter items =>
      rcases items with _ | ⟨yes, _ | ⟨no, items⟩⟩
      · exact follows_error
      · exact follows_error
      · have hyes := ih.2 yes (by simp [children]) hc.1 flags lb
        have hno := ih.2 no (by simp [children]) hc.2.1 flags lb
        exact follows_nothing.fork hyes hno
    | _ => exact follows_error
  | branchAssert cond rest ihc ih =>
    refine ⟨fun hc flags lb => ?_, by simp [children]⟩
    have hcond := ihc.1 hc.1 flags lb
    cases rest with
    | alter items =>
      rcases items with _ | ⟨yes, _ | ⟨no, items⟩⟩
      · simpa [compileRec, visits, emits] using hcond.fork hemit hemit
      · exact follows_error
      · have hyes := ih.2 yes (by simp [children]) hc.2.1 flags lb
        have hno := ih.2 no (by simp [children]) hc.2.2.1 flags lb
        exact hcond.fork hyes hno
    | seq cell items =>
      cases items with
      | nil => simpa [compileRec, visits, emits] using hcond.fork follows_nothing hemit
      | cons => exact follows_error
    | anchor => simpa [compileRec, visits, emits] using hcond.fork hemit hemit
    | atom a =>
      cases a with
      | invertedCharClass => exact follows_error
      | _ => simpa [compileRec, visits, emits] using hcond.fork hemit hemit
    | _ => exact follows_error
  | flags f => exact ⟨fun _ _ _ => follows_error, by simp [children]⟩

/-- A syntax tree that the counting pass accepts is compiled; the program has room for all the code,
which is complete exactly when no list is found reversed, and jumps stay inside. -/
theorem compile_spec (x : SharedAst ι) (flags : Flags)
    (h : (compileRec false flags false x.ast 0 []).isSome) :
    ∃ p, compile flags x.ast = some p ∧ p.code.length ≤ p.codemax ∧
      (p.code.length = p.codemax ↔ x.ast.ReversedOnce) ∧
      ∀ inst ∈ p.code, ∀ t ∈ inst.op.targets, t ≤ p.code.length := by
  obtain ⟨⟨code₀, R₀⟩, hcount⟩ := Option.isSome_iff_exists.1 h
  obtain ⟨-, -, hemit⟩ := nodeFollows x.ast x.consistent flags false _ _ _ hcount
  obtain ⟨code, R', hcode, he⟩ := hemit 0 []
  have hinside :=
    (shaped_inside fun _ => True).compileRec true x.ast (fun _ _ => ⟨trivial, trivial⟩)
    flags false _ _ _ _ hcode
  refine ⟨⟨code₀.length, code⟩, by simp [compile, hcount, hcode], he.le, ?_, fun inst hinst t ht =>
    by simpa using ((hinside inst hinst).targets t ht).2⟩
  have hsafe : Safe ∅ (visits false x.ast) ↔ x.ast.ReversedOnce := by
    simp [Safe, ReversedOnce]
  have hagree : Agree (long x.heap) [] ∅ := fun c _ => by simp
  rw [← hsafe]
  constructor
  · intro heq
    by_contra hs
    exact absurd heq (he.lt_of_not_safe ∅ hagree hs).ne
  · exact fun hs => (he.eq_of_safe ∅ hagree hs).1

end

theorem Prog.wellFormed_iff {p : Prog}
    (ht : ∀ inst ∈ p.code, ∀ t ∈ inst.op.targets, t ≤ p.code.length) :
    p.WellFormed ↔ p.code.length = p.codemax := by
  refine ⟨fun h => h.length_code, fun h => ⟨h, fun i hi => ?_, fun i inst hi t hmem => ?_⟩⟩
  · rw [Prog.slot]
    split
    · rfl
    · have : i < p.code.length := by unfold Prog.rootLength at hi; omega
      simp [this]
  · rw [Prog.slot] at hi
    split at hi
    · obtain rfl := Option.some.inj hi
      cases hmem
    · have := ht inst (mem_of_getElem? hi) t hmem
      unfold Prog.rootLength
      omega

/-- **Code generation is well formed**: for a syntax tree that is accepted, the emitting pass writes
as many instructions as the counting pass counted, initialises every slot and jumps only inside
the program exactly when it does not come to a list that it has reversed before and that has lost
items with code. -/
theorem compile_wellFormed_iff [DecidableEq ι] (x : SharedAst ι) (flags : Flags)
    (h : (compileRec false flags false x.ast 0 []).isSome) :
    (∃ p, compile flags x.ast = some p ∧ p.WellFormed) ↔ x.ast.ReversedOnce := by
  obtain ⟨p, hp, -, hiff, ht⟩ := compile_spec x flags h
  simp only [hp, Option.some_inj, exists_eq_left', Prog.wellFormed_iff ht, hiff]

/-- `(?<=(?:ab){2})c`: each round has a list of its own. -/
theorem compile_wellFormed_lookbehind :
    let x : Ast ℕ := .register 0 none (.seq 0 [.lookbehind true (.rep true 2 (some 2)
      (.seq 1 [.atom (.char (chr 'a')), .atom (.char (chr 'b'))])), .atom (.char (chr 'c'))])
    ∃ p, compile Prog.noFlags x = some p ∧ p.WellFormed :=
  (compile_wellFormed_iff ⟨_, fun
    | 0 => [.lookbehind true (.rep true 2 (some 2)
        (.seq 1 [.atom (.char (chr 'a')), .atom (.char (chr 'b'))])), .atom (.char (chr 'c'))]
    | _ => [.atom (.char (chr 'a')), .atom (.char (chr 'b'))],
    by simp [Consistent, ConsistentAll]⟩ Prog.noFlags (by decide)).2 (by decide)

/-- **A reversed list is compiled again**: for `(?<=(?:ab){0,2})c` the two rounds share their list,
the second one loses `b`, and the last slot before `RX_MATCH` stays uninitialised. -/
theorem compile_loses_item :
    let x : Ast ℕ := .register 0 none (.seq 0 [.lookbehind true (.rep true 0 (some 2)
      (.seq 1 [.atom (.char (chr 'a')), .atom (.char (chr 'b'))])), .atom (.char (chr 'c'))])
    ∃ p, compile Prog.noFlags x = some p ∧ p.codemax = 11 ∧ p.code.length = 10 ∧
      p.slot 10 = none := by
  refine ⟨_, rfl, ?_⟩
  decide

end Sagittarius.Regex
