import Mathlib.Data.Int.ConditionallyCompleteOrder
import Mathlib.Order.Interval.Set.Basic
import Sagittarius.Library.Recursion
import Sagittarius.Regex.Priority

/-!
# The matcher with backtracking

`matcher_match1` of `regex_match.c`, which runs the programs with extended instructions.
`match_step1` calls itself for every instruction; the captures, the last position and what it
remembers of the last character are kept in the context and are not always put back when a call
fails.

* `matchStep1`, `matcherMatch1` with fuel, as the recursion need not terminate;
* `StepInvariant.matchStep1` : what a property of the context needs to be kept;
* `Through` : a successful call has passed the code between two addresses;
* `matcherMatch1_group_zero` : after a match the last position is the end of group 0, if the
  program has no slots that were not written.

Positions are numbers here that may be negative: a lookbehind at the start of the text reads the
memory before it.
-/

namespace Sagittarius.Regex

open List Option

/-! ### The model -/

/-- What the source leaves to the machine it runs on. -/
structure Host where
  /-- the memory before the text -/
  before : ℤ → SgChar
  /-- a bit field of type `char` is signed -/
  signedChar : Bool

/-- The character at a position. -/
def Host.read (h : Host) (m : Subject) (p : ℤ) : SgChar :=
  if 0 ≤ p then m.charAt p.toNat else h.before p

/-- The value of a bit field of one bit that `b` was stored in. -/
def Host.bit (h : Host) (b : Bool) : ℤ := if b then (if h.signedChar then -1 else 1) else 0

/-- The part of `match_ctx_t` that `match_step1` works on. -/
structure StepCtx where
  /-- `match` -/
  captures : List (Option ℤ)
  wasword : ℤ
  lastp : ℤ
deriving DecidableEq

/-- What a call of `match_step1` returns; `none` is out of fuel. -/
abbrev StepResult := Option (Bool × StepCtx)

/-- What is done after a call: `yes` if it was successful, else `no`. -/
def StepResult.after (r : StepResult) (yes no : StepCtx → StepResult) : StepResult :=
  match r with
  | none => none
  | some (true, ctx) => yes ctx
  | some (false, ctx) => no ctx

/-- `return TRUE`: a match. -/
def returnTrue (ctx : StepCtx) : StepResult := some (true, ctx)

/-- `return FALSE`: no match. -/
def returnFalse (ctx : StepCtx) : StepResult := some (false, ctx)

/-- The arguments of a call of `match_step1`, with what it finds in the context. -/
structure Call1 where
  /-- the address of the instruction -/
  pc : ℕ
  /-- `LOOK_BEHIND` -/
  lb : Bool
  /-- the position, from the start of the search -/
  i : ℤ
  ctx : StepCtx

/-- What a call of `match_step1` does: it calls itself before it returns. -/
abbrev Step1 := Asking Call1 (Bool × StepCtx)

/-- A call, with what is done afterwards: `yes` if it was successful, else `no`. -/
def Call1.after (c : Call1) (yes no : StepCtx → Step1) : Step1 :=
  .ask c fun r => if r.1 then yes r.2 else no r.2

/-- `return` with a truth value -/
def answerWith (b : Bool) (ctx : StepCtx) : Step1 := .answer (b, ctx)

/-- `return` with the result of a call -/
def Call1.tail (c : Call1) : Step1 := .ask c .answer

section

variable (P : List Inst) (m : Subject) (h : Host)

/-- The `Empty` flags that `match_step1` sets; `lb` is `LOOK_BEHIND`. -/
def emptyFlags1 (lb : Bool) (p : ℤ) (isword : Bool) (wasword : ℤ) : Anchor → Bool
  | .startAnchor =>
    p = 0 || lb && p < 0 || p ≤ m.stop && h.read m (p - 1) = chr '\n'
  | .modelessStartAnchor => p = 0 || lb && p < 0
  | .endAnchor =>
    p = m.stop || p + 1 = m.stop && h.read m p = chr '\n' ||
      0 ≤ p && p < m.stop && h.read m p = chr '\n'
  | .modelessEndAnchor => p = m.stop || p + 1 = m.stop && h.read m p = chr '\n'
  | .modelessEndAnchorNoNewline => p = m.stop
  | .wordBoundary => (if isword then 1 else 0) != wasword
  | .nonWordBoundary => (if isword then 1 else 0) == wasword

/-- `match_back_ref`, the number of characters that match. -/
def matchBackRef (flags : Flags) (captures : List (Option ℤ)) (n : ℕ) (p : ℤ) (lb : Bool) :
    Option ℤ :=
  match captures[2 * n]?.join, captures[2 * n + 1]?.join with
  | some a, some b =>
    let same (k : ℕ) : Bool :=
      if lb then backRefEq m.u flags (h.read m (p - 1 - k)) (h.read m (b - 1 - k))
      else backRefEq m.u flags (h.read m (p + k)) (h.read m (a + k))
    if b - a < 0 then none
    else if (range (b - a).toNat).all same then some (b - a) else none
  | _, _ => none

variable (bp : ℤ)

/-- The switch of `match_step1`: the position of the call `c` is `c.i` characters behind `bp`. -/
def matchOp (inst : Inst) (c : Call1) : Step1 :=
  let p := bp + c.i
  let isword := 0 ≤ p && p < m.stop && iswordchar m.u inst.flags (h.read m p)
  let ctx := { c.ctx with lastp := p }
  let go (t : ℕ) (ctx : StepCtx) := Call1.mk t c.lb c.i ctx
  match inst.op with
  | .consume a =>
    if instMatches m.u inst.flags a (h.read m (if c.lb then p - 1 else p)) then
      Call1.tail ⟨c.pc + 1, c.lb, if c.lb then c.i - 1 else c.i + 1,
        { ctx with wasword := h.bit isword }⟩
    else answerWith false ctx
  | .split x y => (go x ctx).after (answerWith true) fun ctx => (go y ctx).tail
  | .jmp x => (go x ctx).tail
  | .save j =>
    (go (c.pc + 1) { ctx with captures := ctx.captures.set j (some p) }).after (answerWith true)
      fun ctx' => answerWith false
        { ctx' with captures := ctx'.captures.set j ctx.captures[j]?.join }
  | .empty a =>
    if emptyFlags1 m h c.lb p isword c.ctx.wasword a then (go (c.pc + 1) ctx).tail
    else answerWith false { ctx with wasword := h.bit isword }
  | .fail => answerWith false ctx
  | .bref k =>
    match matchBackRef m h inst.flags ctx.captures k p c.lb with
    | some count => Call1.tail ⟨c.pc + 1, c.lb, c.i + if c.lb then -count else count, ctx⟩
    | none => answerWith false ctx
  | .ahead x => (go (c.pc + 1) ctx).after (fun ctx => (go x ctx).tail) (answerWith false)
  | .behind x =>
    (Call1.mk (c.pc + 1) true c.i ctx).after (fun ctx => (go x ctx).tail) (answerWith false)
  | .once x =>
    (go (c.pc + 1) ctx).after (fun ctx' =>
      let count := ctx'.lastp - p
      Call1.tail ⟨x, c.lb, c.i + if c.lb then -count else count,
        { ctx' with wasword := h.bit isword }⟩) (answerWith false)
  | .nahead x => (go (c.pc + 1) ctx).after (answerWith false) fun ctx => (go x ctx).tail
  | .nbehind x =>
    (Call1.mk (c.pc + 1) true c.i ctx).after (answerWith false) fun ctx => (go x ctx).tail
  | .restore | .match => answerWith true ctx
  | .branch k x y =>
    if (ctx.captures[k]?.join).isSome && (ctx.captures[k + 1]?.join).isSome then (go x ctx).tail
    else (go y ctx).tail
  | .brancha x y =>
    (go (c.pc + 1) ctx).after (fun ctx => (go x ctx).tail) fun ctx => (go y ctx).tail

/-- The body of `match_step1`.  An address outside of the program does not occur. -/
def stepBody (c : Call1) : Step1 :=
  -- detect underflow
  if c.i < -1 then answerWith false c.ctx
  else if m.stop < bp + c.i then answerWith false c.ctx
  else match P[c.pc]? with
    | none => answerWith false c.ctx
    | some inst => matchOp m h bp inst c

/-- `match_step1`, with fuel for the depth of the recursion. -/
def matchStep1 (n pc : ℕ) (lb : Bool) (i : ℤ) (ctx : StepCtx) : StepResult :=
  Asking.run (stepBody P m h bp) n ⟨pc, lb, i, ctx⟩

/-- The loop of `matcher_match1` over `k` start positions. -/
def matchFrom1 (n : ℕ) : ℕ → ℤ → StepCtx → StepResult
  | 0, _, ctx => returnFalse ctx
  | k + 1, i, ctx =>
    (matchStep1 P m h bp n 0 false i ctx).after returnTrue (matchFrom1 n k (i + 1))

/-- `matcher_match1`, with what `finish_match` returns. -/
def matcherMatch1 (n start : ℕ) (anchor : Anchoring) (ctx : StepCtx) : StepResult :=
  ((matchStep1 P m h start n 0 false start { ctx with wasword := 0 }).after returnTrue fun ctx =>
    if anchor = .unanchored then matchFrom1 P m h start n (m.stop - start) (start + 1) ctx
    else returnFalse ctx).after
      (fun ctx =>
        if anchor ≠ .unanchored && ctx.lastp ≠ m.stop then returnFalse ctx else returnTrue ctx)
      returnFalse

end

/-! ### What a call returns -/

section

theorem StepResult.after_eq_some {r : StepResult} {yes no : StepCtx → StepResult}
    {o : Bool × StepCtx} (h : r.after yes no = some o) :
    ∃ b c, r = some (b, c) ∧ (if b then yes c else no c) = some o := by
  rcases r with _ | ⟨_ | _, c⟩
  · cases h
  · exact ⟨false, c, rfl, h⟩
  · exact ⟨true, c, rfl, h⟩

variable {P : List Inst} {m : Subject} {h : Host} {bp : ℤ} {n pc : ℕ} {lb b : Bool} {i : ℤ}
  {ctx ctx' : StepCtx}

/-- The addresses where a successful call at `pc` goes on. -/
def Op.exits (pc : ℕ) (op : Op) : List ℕ := if op.targets = [] then [pc + 1] else op.targets

/-- The text is not left to the left outside of a lookbehind. -/
def Onwards (bp : ℤ) (step : Call1 → StepResult) : Prop :=
  ∀ t i ctx ctx', step ⟨t, false, i, ctx⟩ = some (true, ctx') → bp + i ≤ ctx'.lastp

variable {flags : Flags} {k : ℕ}

theorem matchBackRef_nonneg {caps : List (Option ℤ)} {p count : ℤ}
    (hc : matchBackRef m h flags caps k p lb = some count) : 0 ≤ count := by
  unfold matchBackRef at hc
  split at hc
  next a b ha hb =>
    by_cases hlt : b - a < 0
    · rw [if_pos hlt] at hc
      cases hc
    · rw [if_neg hlt, ite_none_right_eq_some] at hc
      obtain rfl : b - a = count := some.inj hc.2
      omega
  next => cases hc

variable {inst : Inst}

/-- Whether an instruction other than `RX_ONCE` has a body, and whether this runs to the left. -/
def Op.body (lb : Bool) : Op → Option Bool
  | .ahead _ | .nahead _ | .brancha _ _ => some lb
  | .behind _ | .nbehind _ => some true
  | _ => none

/-- What shows that the computation of an instruction satisfies `R`: it does where nothing is done
but to go on at an exit or to return, and this is handed on from what is done after a call.  The
context satisfies `C` all the time. -/
structure OpRule (h : Host) (bp : ℤ) (op : Op) (c : Call1) (C : StepCtx → Prop)
    (R : Step1 → Prop) : Prop where
  word : ∀ ctx b, C ctx → C { ctx with wasword := h.bit b }
  save : ∀ j, op = .save j → ∀ ctx v, C ctx →
    (v = some (bp + c.i) ∨ ∃ ctx', C ctx' ∧ v = ctx'.captures[j]?.join) →
      C { ctx with captures := ctx.captures.set j v }
  returns : ∀ b ctx, (b = true → op = .restore ∨ op = .match) → C ctx → R (answerWith b ctx)
  goes : ∀ t ∈ op.exits c.pc, ∀ count ≥ 0, ∀ ctx, C ctx →
    R (Call1.tail ⟨t, c.lb, c.i + if c.lb then -count else count, ctx⟩)
  first : ∀ d no, R (Call1.tail d) → (∀ ctx, C ctx → R (no ctx)) → R (d.after (answerWith true) no)
  body : ∀ lb ctx yes no, op.body c.lb = some lb → C ctx → (∀ ctx, C ctx → R (yes ctx)) →
    (∀ ctx, C ctx → R (no ctx)) → R (Call1.after ⟨c.pc + 1, lb, c.i, ctx⟩ yes no)
  once : ∀ x b ctx, op = .once x → C ctx →
    R (Call1.after ⟨c.pc + 1, c.lb, c.i, ctx⟩ (fun ctx =>
      let count := ctx.lastp - (bp + c.i)
      Call1.tail ⟨x, c.lb, c.i + if c.lb then -count else count, { ctx with wasword := h.bit b }⟩)
      (answerWith false))

theorem matchOp_rule {c : Call1} {C : StepCtx → Prop} {R : Step1 → Prop}
    (hR : OpRule h bp inst.op c C R) (hC : C { c.ctx with lastp := bp + c.i }) :
    R (matchOp m h bp inst c) := by
  obtain ⟨op, flags⟩ := inst
  obtain ⟨hword, hsave, hreturns, hgoes, hfirst, hbody, honce⟩ := hR
  have hfail : ∀ ctx, C ctx → R (answerWith false ctx) := fun ctx => hreturns false ctx nofun
  have hgo : ∀ t ∈ op.exits c.pc, ∀ ctx, C ctx → R (Call1.tail ⟨t, c.lb, c.i, ctx⟩) := by
    intro t ht ctx hctx
    simpa using hgoes t ht 0 le_rfl ctx hctx
  simp only [matchOp]
  cases op with
  | consume a =>
    dsimp only
    by_cases ha : instMatches m.u flags a (h.read m (if c.lb then bp + c.i - 1 else bp + c.i))
    · rw [if_pos ha]
      have hnext := hgoes _ (.head _) 1 (by decide)
      cases hlb : c.lb <;> simp only [hlb] at hnext <;> exact hnext _ (hword _ _ hC)
    · rw [if_neg ha]
      exact hfail _ hC
  | split x y => exact hfirst _ _ (hgo x (.head _) _ hC) (hgo y (.tail _ (.head _)))
  | jmp x => exact hgo x (.head _) _ hC
  | save j =>
    refine hfirst _ _ (hgo _ (.head _) _ (hsave j rfl _ _ hC (.inl rfl))) fun ctx hctx => ?_
    exact hfail _ (hsave j rfl _ _ hctx (.inr ⟨_, hC, rfl⟩))
  | empty a =>
    dsimp only
    split
    · exact hgo _ (.head _) _ hC
    · exact hfail _ (hword _ _ hC)
  | fail => exact hfail _ hC
  | restore => exact hreturns true _ (fun _ => .inl rfl) hC
  | «match» => exact hreturns true _ (fun _ => .inr rfl) hC
  | bref k =>
    dsimp only
    split
    next count hcount => exact hgoes _ (.head _) count (matchBackRef_nonneg hcount) _ hC
    next => exact hfail _ hC
  | ahead x | behind x => exact hbody _ _ _ _ rfl hC (hgo x (.head _)) hfail
  | once x => exact honce x _ _ rfl hC
  | nahead x | nbehind x => exact hbody _ _ _ _ rfl hC hfail (hgo x (.head _))
  | branch k x y =>
    dsimp only
    split
    · exact hgo x (.head _) _ hC
    · exact hgo y (.tail _ (.head _)) _ hC
  | brancha x y => exact hbody _ _ _ _ rfl hC (hgo x (.head _)) (hgo y (.tail _ (.head _)))

/-- What holds of the body of `match_step1` if it holds of a failure and of the instructions. -/
theorem stepBody_rule {R : Step1 → Prop} {c : Call1} (hfail : R (answerWith false c.ctx))
    (hop : ∀ inst, P[c.pc]? = some inst → bp + c.i ∈ Set.Icc (bp - 1) (m.stop : ℤ) →
      R (matchOp m h bp inst c)) : R (stepBody P m h bp c) := by
  unfold stepBody
  split_ifs
  · exact hfail
  · exact hfail
  · split
    next => exact hfail
    next inst hinst => exact hop inst hinst ⟨by omega, by omega⟩

/-! ### What a successful call goes on with -/

@[simp] theorem Call1.eval_tail (step : Call1 → StepResult) (c : Call1) :
    c.tail.eval step = step c := by
  rw [Call1.tail, Asking.eval]
  rcases step c with _ | r <;> rfl

theorem Call1.eval_after_eq_some {step : Call1 → StepResult} {c : Call1}
    {yes no : StepCtx → Step1} {o : Bool × StepCtx} (h : (c.after yes no).eval step = some o) :
    ∃ b ctx, step c = some (b, ctx) ∧ (if b then yes ctx else no ctx).eval step = some o := by
  obtain ⟨⟨b, ctx⟩, hc, h⟩ := bind_eq_some_iff.1 h
  exact ⟨b, ctx, hc, h⟩

/-- An instruction that is successful goes on with a call that is. -/
theorem matchOp_exits {step : Call1 → StepResult} {c : Call1} (hstep : Onwards bp step)
    (hrestore : inst.op ≠ .restore) (hmatch : inst.op ≠ .match) :
    (matchOp m h bp inst c).eval step = some (true, ctx') →
    ∃ t ∈ inst.op.exits c.pc, ∃ i ctx, (c.lb = false → c.i ≤ i) ∧
      step ⟨t, c.lb, i, ctx⟩ = some (true, ctx') := by
  refine matchOp_rule (C := fun _ => True) (R := fun s => s.eval step = some (true, ctx') → _)
    ⟨fun _ _ => id, fun _ _ _ _ _ _ => trivial, ?_, ?_, ?_, ?_, ?_⟩ trivial
  · intro b ctx hb _ hr
    cases hr
    exact absurd (hb rfl) (not_or.2 ⟨hrestore, hmatch⟩)
  · intro t ht count hcount ctx _ hr
    refine ⟨t, ht, _, ctx, fun hlb => ?_, by rwa [Call1.eval_tail] at hr⟩
    simpa [hlb] using hcount
  · intro d no hd hno hr
    obtain ⟨b, ctx, hc, hr⟩ := Call1.eval_after_eq_some hr
    cases b with
    | true =>
      rw [Call1.eval_tail] at hd
      exact hd (hc.trans hr)
    | false => exact hno ctx trivial hr
  · intro lb ctx yes no _ _ hyes hno hr
    obtain ⟨b, ctx, -, hr⟩ := Call1.eval_after_eq_some hr
    cases b with
    | true => exact hyes ctx trivial hr
    | false => exact hno ctx trivial hr
  · intro x b ctx hx _ hr
    obtain ⟨b, ctx, hc, hr⟩ := Call1.eval_after_eq_some hr
    cases b with
    | false => cases hr
    | true =>
      refine ⟨x, by simp [hx, Op.exits, Op.targets], _, _, fun hlb => ?_,
        by rwa [if_pos rfl, Call1.eval_tail] at hr⟩
      have := hstep _ _ _ _ (hlb ▸ hc)
      simpa [hlb] using this

variable (P m h bp n) in
/-- The calls of `match_step1` with fuel `n`. -/
abbrev runStep1 : Call1 → StepResult := Asking.run (stepBody P m h bp) n

theorem matchStep1_inv (hr : matchStep1 P m h bp n pc lb i ctx = some (true, ctx')) :
    ∃ n' inst, n = n' + 1 ∧ P[pc]? = some inst ∧ bp + i ≤ m.stop ∧
      (matchOp m h bp inst ⟨pc, lb, i, ctx⟩).eval (runStep1 P m h bp n') = some (true, ctx') := by
  cases n with
  | zero => cases hr
  | succ n =>
    refine stepBody_rule (R := fun s => s.eval (runStep1 P m h bp n) = some (true, ctx') → _)
      nofun (fun inst hinst hp hr => ?_) hr
    exact ⟨n, inst, rfl, hinst, hp.2, hr⟩

theorem lastp_bounds (hr : matchStep1 P m h bp n pc lb i ctx = some (true, ctx')) :
    (lb = false → bp + i ≤ ctx'.lastp) ∧ ctx'.lastp ≤ m.stop := by
  induction n generalizing pc lb i ctx ctx' with
  | zero => cases hr
  | succ n ih =>
    obtain ⟨n', inst, hn, -, hle, hop⟩ := matchStep1_inv hr
    obtain rfl : n = n' := Nat.succ.inj hn
    by_cases hend : inst.op = .restore ∨ inst.op = .match
    · have hret : matchOp m h bp inst ⟨pc, lb, i, ctx⟩ =
          answerWith true { ctx with lastp := bp + i } := by
        rcases hend with hend | hend <;> simp [matchOp, hend]
      rw [hret] at hop
      cases hop
      exact ⟨fun _ => le_rfl, hle⟩
    · rw [not_or] at hend
      obtain ⟨t, -, i', c, hi, hr'⟩ :=
        matchOp_exits (fun _ _ _ _ h => (ih h).1 rfl) hend.1 hend.2 hop
      obtain ⟨hfrom, hto⟩ := ih hr'
      refine ⟨fun hlb => le_trans ?_ (hfrom hlb), hto⟩
      exact Int.add_le_add_left (hi hlb) bp

theorem onwards_runStep1 (P : List Inst) (m : Subject) (h : Host) (bp : ℤ) (n : ℕ) :
    Onwards bp (runStep1 P m h bp n) := fun _ _ _ _ hr => (lastp_bounds hr).1 rfl

/-! ### What is kept -/

section keeps

theorem Call1.keeps_after {C : Call1 → Prop} {R : Bool × StepCtx → Prop} {c : Call1}
    {yes no : StepCtx → Step1} (hc : C c) (hyes : ∀ ctx, R (true, ctx) → (yes ctx).Keeps C R)
    (hno : ∀ ctx, R (false, ctx) → (no ctx).Keeps C R) : (c.after yes no).Keeps C R := by
  refine ⟨hc, fun r hr => ?_⟩
  obtain ⟨_ | _, ctx⟩ := r
  exacts [hno ctx hr, hyes ctx hr]

/-- What is needed to keep `K` of the context, as long as all calls are at addresses in `Q`. -/
structure StepInvariant (P : List Inst) (m : Subject) (h : Host) (bp : ℤ) (Q : ℕ → Prop)
    (K : StepCtx → Prop) : Prop where
  next : ∀ pc, Q pc → Q (pc + 1)
  targets : ∀ pc op, opAt P pc = some op → ∀ t ∈ op.targets, Q t
  word : ∀ ctx b, K ctx → K { ctx with wasword := h.bit b }
  last : ∀ ctx, ∀ p ∈ Set.Icc (bp - 1) (m.stop : ℤ), K ctx → K { ctx with lastp := p }
  save : ∀ pc j, Q pc → opAt P pc = some (.save j) → ∀ ctx v, K ctx →
    ((∃ p ∈ Set.Icc (bp - 1) (m.stop : ℤ), v = some p) ∨
      ∃ ctx', K ctx' ∧ v = ctx'.captures[j]?.join) →
        K { ctx with captures := ctx.captures.set j v }

variable {Q : ℕ → Prop} {K : StepCtx → Prop} (hinv : StepInvariant P m h bp Q K)

include hinv

theorem StepInvariant.keeps (c : Call1) (hc : Q c.pc ∧ K c.ctx) :
    (stepBody P m h bp c).Keeps (fun c => Q c.pc ∧ K c.ctx) fun r => K r.2 := by
  refine stepBody_rule hc.2 fun inst hinst hp => ?_
  have hop : opAt P c.pc = some inst.op := by rw [opAt, hinst, map_some]
  have hnext := hinv.next _ hc.1
  refine matchOp_rule (C := K) ⟨hinv.word, ?_, fun _ _ _ => id, ?_, ?_, ?_, ?_⟩
    (hinv.last _ _ hp hc.2)
  · intro j hj ctx v hctx hv
    refine hinv.save c.pc j hc.1 (hj ▸ hop) ctx v hctx (hv.imp_left ?_)
    exact fun hv => ⟨_, hp, hv⟩
  · intro t ht count _ ctx hctx
    refine ⟨⟨?_, hctx⟩, fun _ => id⟩
    unfold Op.exits at ht
    split_ifs at ht
    · exact mem_singleton.1 ht ▸ hnext
    · exact hinv.targets _ _ hop t ht
  · intro d no hd hno
    exact Call1.keeps_after hd.1 (fun _ => id) hno
  · intro lb ctx yes no _ hctx hyes hno
    exact Call1.keeps_after ⟨hnext, hctx⟩ hyes hno
  · intro x b ctx hx hctx
    refine Call1.keeps_after ⟨hnext, hctx⟩ (fun ctx hctx => ?_) fun _ => id
    exact ⟨⟨hinv.targets _ _ hop x (by simp [hx, Op.targets]), hinv.word _ _ hctx⟩, fun _ => id⟩

/-- **What holds of the context is kept** by all calls. -/
theorem StepInvariant.matchStep1 (hpc : Q pc) (hK : K ctx)
    (hr : matchStep1 P m h bp n pc lb i ctx = some (b, ctx')) : K ctx' := by
  have hyields : Asking.Yields (stepBody P m h bp) ⟨pc, lb, i, ctx⟩ (b, ctx') := ⟨n, hr⟩
  exact hyields.keeps (R := fun r => K r.2) hinv.keeps ⟨hpc, hK⟩

end keeps

/-! ### Where a successful call has been -/

theorem matchStep1_true (hinst : P[pc]? = some inst)
    (hr : matchStep1 P m h bp n pc lb i ctx = some (true, ctx')) :
    ∃ n', n = n' + 1 ∧
      (matchOp m h bp inst ⟨pc, lb, i, ctx⟩).eval (runStep1 P m h bp n') = some (true, ctx') := by
  obtain ⟨n', inst', rfl, hinst', -, hop⟩ := matchStep1_inv hr
  obtain rfl : inst = inst' := some.inj (hinst.symm.trans hinst')
  exact ⟨n', rfl, hop⟩

/-- A successful call at the address `a` is one because a call at the address `b` is. -/
structure Through (P : List Inst) (a b : ℕ) : Prop where
  passes : ∀ {m h bp n lb i ctx ctx'}, matchStep1 P m h bp n a lb i ctx = some (true, ctx') →
    ∃ n' ≤ n, ∃ i' c, (lb = false → i ≤ i') ∧ matchStep1 P m h bp n' b lb i' c = some (true, ctx')

theorem Through.refl (a : ℕ) : Through P a a := ⟨fun hr => ⟨_, le_rfl, _, _, fun _ => le_rfl, hr⟩⟩

theorem Through.trans {a b c : ℕ} (hab : Through P a b) (hbc : Through P b c) : Through P a c := by
  refine ⟨fun hr => ?_⟩
  obtain ⟨n₁, hn₁, i₁, c₁, hi₁, hr₁⟩ := hab.passes hr
  obtain ⟨n₂, hn₂, i₂, c₂, hi₂, hr₂⟩ := hbc.passes hr₁
  exact ⟨n₂, hn₂.trans hn₁, i₂, c₂, fun hlb => (hi₁ hlb).trans (hi₂ hlb), hr₂⟩

theorem Through.of_exits {b : ℕ} (hinst : P[pc]? = some inst) (hrestore : inst.op ≠ .restore)
    (hmatch : inst.op ≠ .match) (hexits : ∀ t ∈ inst.op.exits pc, Through P t b) :
    Through P pc b := by
  refine ⟨fun hr => ?_⟩
  obtain ⟨n, rfl, hop⟩ := matchStep1_true hinst hr
  obtain ⟨t, ht, i₁, c₁, hi₁, hr₁⟩ :=
    matchOp_exits (onwards_runStep1 _ _ _ _ _) hrestore hmatch hop
  obtain ⟨n₁, hn₁, i₂, c₂, hi₂, hr₂⟩ := (hexits t ht).passes hr₁
  exact ⟨n₁, hn₁.trans n.le_succ, i₂, c₂, fun hlb => (hi₁ hlb).trans (hi₂ hlb), hr₂⟩

variable {head : ℕ → ℕ → Op} {x y : ℕ}

theorem Op.Forks.mem_exits (hhead : Op.Forks head) {t : ℕ} (ht : t ∈ (head x y).exits pc) :
    t = x ∨ t = y := by
  obtain ⟨hne, hmem⟩ := hhead x y
  rw [Op.exits, if_neg hne] at ht
  exact hmem t ht

variable {op : Op}

theorem ne_of_targets (hop : op.targets ≠ []) : op ≠ .restore ∧ op ≠ .match :=
  ⟨fun h => hop (h ▸ rfl), fun h => hop (h ▸ rfl)⟩

theorem Through.forks {b : ℕ} (hhead : Op.Forks head) (hinst : P[pc]? = some ⟨head x y, flags⟩)
    (hx : Through P x b) (hy : Through P y b) : Through P pc b := by
  obtain ⟨hrestore, hmatch⟩ := ne_of_targets (hhead x y).1
  refine .of_exits hinst hrestore hmatch fun t ht => ?_
  rcases hhead.mem_exits ht with rfl | rfl
  · exact hx
  · exact hy

theorem Through.jmp (hinst : P[pc]? = some ⟨.jmp x, flags⟩) : Through P pc x :=
  .of_exits hinst nofun nofun (by simpa [Op.exits, Op.targets] using Through.refl x)

theorem Through.loop {e : ℕ} {flags' : Flags} (hhead : Op.Forks head)
    (hinst : P[pc]? = some ⟨head x y, flags⟩) (hbody : Through P x e)
    (hjmp : P[e]? = some ⟨.jmp pc, flags'⟩) : Through P pc y := by
  obtain ⟨hrestore, hmatch⟩ := ne_of_targets (hhead x y).1
  refine ⟨@fun m h bp n lb i ctx ctx' hr => ?_⟩
  induction n using Nat.strong_induction_on generalizing i ctx with
  | _ n ih =>
    obtain ⟨n, rfl, hop⟩ := matchStep1_true hinst hr
    obtain ⟨t, ht, i₁, c₁, hi₁, hr₁⟩ :=
      matchOp_exits (onwards_runStep1 _ _ _ _ _) hrestore hmatch hop
    rcases hhead.mem_exits ht with rfl | rfl
    · obtain ⟨n₂, hn₂, i₂, c₂, hi₂, hr₂⟩ := (hbody.trans (.jmp hjmp)).passes hr₁
      obtain ⟨n₃, hn₃, i₃, c₃, hi₃, hr₃⟩ := ih n₂ (by omega) _ _ hr₂
      exact ⟨n₃, by omega, i₃, c₃, fun hlb => (hi₁ hlb).trans ((hi₂ hlb).trans (hi₃ hlb)), hr₃⟩
    · exact ⟨n, n.le_succ, i₁, c₁, hi₁, hr₁⟩

/-- **A successful call has passed the code** from its start to its end. -/
theorem shaped_through (slots : ℕ → Prop) : Shaped slots fun pc code =>
    ∀ P : List Inst, code <+: P.drop pc → Through P pc (pc + code.length) where
  nil pc P _ := .refl pc
  plain pc flags op hop P hP := by
    refine .of_exits (prefix_cons hP).1 hop.not_restore hop.not_match fun t ht => ?_
    obtain rfl : t = pc + 1 := by simpa [Op.exits, hop.targets] using ht
    exact .refl _
  append {pc a b} ha hb P hP := by
    obtain ⟨hPa, hPb⟩ := prefix_append hP
    rw [length_append, ← Nat.add_assoc]
    exact (ha P hPa).trans (hb P hPb)
  fork {pc} flags {head c a b} hhead _ ha hb P hP := by
    obtain ⟨hinst, hP⟩ := prefix_cons hP
    obtain ⟨-, hP⟩ := prefix_append hP
    obtain ⟨hPa, hP⟩ := prefix_append hP
    obtain ⟨hjmp, hPb⟩ := prefix_cons hP
    rw [show pc + _ = pc + 1 + c.length + a.length + 1 + b.length by
      simp only [length_cons, length_append]; omega]
    exact .forks hhead hinst ((ha P hPa).trans (.jmp hjmp)) (hb P hPb)
  loop {pc} flags {head a} hhead ha P hP := by
    obtain ⟨hinst, hP⟩ := prefix_cons hP
    obtain ⟨hPa, hP⟩ := prefix_append hP
    obtain ⟨hjmp, -⟩ := prefix_cons hP
    rw [show pc + _ = pc + 1 + a.length + 1 by
      simp only [length_cons, length_append, length_nil]; omega]
    exact .loop hhead hinst (ha P hPa) hjmp
  look {pc} flags {head a} hhead _ P hP := by
    obtain ⟨hinst, -⟩ := prefix_cons hP
    obtain ⟨hrestore, hmatch⟩ := ne_of_targets
      (show (head (pc + 1 + a.length + 1)).targets ≠ [] by rw [hhead]; nofun)
    rw [show pc + _ = pc + 1 + a.length + 1 by
      simp only [length_cons, length_append, length_nil]; omega]
    refine .of_exits hinst hrestore hmatch fun t ht => ?_
    obtain rfl : t = pc + 1 + a.length + 1 := by simpa [Op.exits, hhead] using ht
    exact .refl _
  optional {pc} flags {head a b} hhead ha hb P hP := by
    obtain ⟨hinst, hP⟩ := prefix_cons hP
    obtain ⟨hPa, hPb⟩ := prefix_append hP
    rw [show pc + _ = pc + 1 + a.length + b.length by
      simp only [length_cons, length_append]; omega]
    exact .forks hhead hinst ((ha P hPa).trans (hb P hPb)) (.refl _)

/-! ### The end of a match -/

theorem length_captures (hr : matchStep1 P m h bp n pc lb i ctx = some (b, ctx')) :
    ctx'.captures.length = ctx.captures.length := by
  have hinv : StepInvariant P m h bp (fun _ => True)
      fun c => c.captures.length = ctx.captures.length :=
    ⟨fun _ => id, fun _ _ _ _ _ => trivial, fun _ _ => id, fun _ _ _ => id,
      fun _ _ _ _ c v hc _ => by simpa using hc⟩
  exact hinv.matchStep1 trivial rfl hr

theorem drop_eq_cons {code : List Inst} (h : P.drop pc = inst :: code) :
    P[pc]? = some inst ∧ P.drop (pc + 1) = code := by
  have hpre : inst :: code <+: P.drop pc := by rw [h]
  refine ⟨(prefix_cons hpre).1, ?_⟩
  rw [← drop_drop, h]
  rfl

theorem matchStep1_unwritten {flags' : Flags}
    (hP : P.drop pc = replicate k ⟨.consume .everything, flags⟩ ++ [⟨.match, flags'⟩])
    (hr : matchStep1 P m h bp n pc false i ctx = some (true, ctx')) :
    ctx'.captures = ctx.captures ∧ ctx'.lastp = bp + i + k := by
  induction k generalizing n pc i ctx with
  | zero =>
    obtain ⟨hinst, -⟩ := drop_eq_cons hP
    obtain ⟨n, rfl, hop⟩ := matchStep1_true hinst hr
    cases hop
    exact ⟨rfl, by simp⟩
  | succ k ih =>
    obtain ⟨hinst, hrest⟩ := drop_eq_cons hP
    obtain ⟨n, rfl, hop⟩ := matchStep1_true hinst hr
    simp only [matchOp, Bool.false_eq_true, ↓reduceIte] at hop
    split at hop
    · rw [Call1.eval_tail] at hop
      obtain ⟨hcaps, hlast⟩ := ih hrest hop
      exact ⟨hcaps, by rw [hlast]; push_cast; omega⟩
    · cases hop

theorem matchStep1_save {j : ℕ} (hinst : P[pc]? = some ⟨.save j, flags⟩)
    (hr : matchStep1 P m h bp n pc lb i ctx = some (true, ctx')) :
    ∃ n', matchStep1 P m h bp n' (pc + 1) lb i
      { ctx with captures := ctx.captures.set j (some (bp + i)), lastp := bp + i } =
        some (true, ctx') := by
  obtain ⟨n, rfl, hop⟩ := matchStep1_true hinst hr
  obtain ⟨b, c, hc, hop⟩ := Call1.eval_after_eq_some (by simpa only [matchOp] using hop)
  cases b with
  | true =>
    cases hop
    exact ⟨n, hc⟩
  | false => cases hop

section group

variable {code rest : List Inst} {flags flags' : Flags}

theorem group_zero_start (hP : P = ⟨.save 0, flags⟩ :: rest)
    (hrest : ∀ inst ∈ rest, (∀ t ∈ inst.op.targets, 1 ≤ t) ∧ ∀ j, inst.op = .save j → 1 ≤ j)
    (hlen : 0 < ctx.captures.length)
    (hr : matchStep1 P m h bp n 0 false i ctx = some (true, ctx')) :
    ctx'.captures[0]? = some (some (bp + i)) := by
  obtain ⟨hfirst, -⟩ := drop_eq_cons (show P.drop 0 = _ from hP)
  obtain ⟨n₁, hr₁⟩ := matchStep1_save hfirst hr
  refine StepInvariant.matchStep1 (Q := (1 ≤ ·))
    (K := fun c => c.captures[0]? = some (some (bp + i)))
    ⟨fun pc _ => Nat.le_add_left 1 pc, fun pc op hop => ?_, fun _ _ => id, fun _ _ _ => id,
      fun pc j hpc hop c v hK _ => ?_⟩ le_rfl (by simp [hlen]) hr₁
  · obtain ⟨inst, hinst, rfl⟩ := map_eq_some_iff.1 hop
    rcases mem_cons.1 (hP ▸ mem_of_getElem? hinst) with rfl | hmem
    · exact nofun
    · exact (hrest inst hmem).1
  · obtain _ | pc := pc
    · omega
    obtain ⟨inst, hinst, hop⟩ := map_eq_some_iff.1 hop
    rw [hP, getElem?_cons_succ] at hinst
    have hj : 1 ≤ j := (hrest inst (mem_of_getElem? hinst)).2 j hop
    rw [getElem?_set_ne (by omega)]
    exact hK

theorem group_zero_end {k : ℕ}
    (hP : P.drop pc = ⟨.save 1, flags⟩ ::
      (replicate k ⟨.consume .everything, flags'⟩ ++ [⟨.match, flags'⟩]))
    (hthrough : Through P 0 pc) (hlen : 1 < ctx.captures.length)
    (hr : matchStep1 P m h bp n 0 false i ctx = some (true, ctx')) :
    ∃ e, bp + i ≤ e ∧ ctx'.captures[1]? = some (some e) ∧ ctx'.lastp = e + k := by
  obtain ⟨hsave, hend⟩ := drop_eq_cons hP
  obtain ⟨n₁, -, i₁, c₁, hi₁, hr₁⟩ := hthrough.passes hr
  have hlen₁ : c₁.captures.length = ctx.captures.length :=
    (length_captures hr₁).symm.trans (length_captures hr)
  obtain ⟨n₂, hr₂⟩ := matchStep1_save hsave hr₁
  obtain ⟨hcaps, hlast⟩ := matchStep1_unwritten hend hr₂
  refine ⟨bp + i₁, by simpa using hi₁ rfl, ?_, hlast⟩
  rw [hcaps]
  simp [hlen₁, hlen]

end group

/-- **The end of a match**: group 0 starts where the call starts, and the last position is the end
of group 0, but for the slots that were not written. -/
theorem matchStep1_group_zero {ι : Type} [DecidableEq ι] {y : Ast ι} {p : Prog}
    (hp : compile flags (wholePattern y) = some p) (hle : p.code.length ≤ p.codemax)
    (hy : 0 ∉ y.registers) (hlen : 2 ≤ ctx.captures.length)
    (hr : matchStep1 p.root m h bp n 0 false i ctx = some (true, ctx')) :
    ctx'.captures[0]? = some (some (bp + i)) ∧
      ∃ e, bp + i ≤ e ∧ ctx'.captures[1]? = some (some e) ∧
        ctx'.lastp = e + (p.codemax - p.code.length : ℕ) := by
  obtain ⟨code, cells, hcode, hpcode⟩ := compile_register hp
  have hslots : ∀ n ∈ y.registers, 2 ≤ 2 * n ∧ 2 ≤ 2 * n + 1 := fun n hn => by
    have : n ≠ 0 := fun h0 => hy (h0 ▸ hn)
    omega
  have hinside := (shaped_inside (2 ≤ ·)).compileRec true y hslots flags false _ _ _ _ hcode
  have hthrough := (shaped_through (2 ≤ ·)).compileRec true y hslots flags false _ _ _ _ hcode
  have hroot := Prog.root_eq hle
  rw [hpcode, cons_append, append_assoc, singleton_append, ← hpcode] at hroot
  obtain ⟨hsave, hdrop⟩ := drop_eq_cons (show p.root.drop 0 = _ from hroot)
  have hend := congrArg (List.drop code.length) hdrop
  rw [drop_drop, drop_left] at hend
  have hpass : Through p.root 0 (0 + 1 + code.length) := by
    refine .of_exits hsave (by simp) (by simp) fun t ht => ?_
    obtain rfl : t = 0 + 1 := by simpa [Op.exits, Op.targets] using ht
    exact hthrough p.root (hdrop ▸ List.prefix_append _ _)
  refine ⟨group_zero_start hroot ?_ (by omega) hr, group_zero_end hend hpass (by omega) hr⟩
  simp only [forall_mem_cons, forall_mem_append, mem_replicate]
  refine ⟨fun inst hinst => ⟨fun t ht => ((hinside inst hinst).targets t ht).1, fun j hj => ?_⟩,
    by simp [Op.targets], ?_, by simp [Op.targets], by simp⟩
  · exact Nat.le_of_succ_le ((hinside inst hinst).slot j hj)
  · rintro inst ⟨-, rfl⟩
    simp [Op.targets]

theorem matchFrom1_inv (hr : matchFrom1 P m h bp n k i ctx = some (true, ctx')) :
    ∃ i' c, i ≤ i' ∧ c.captures.length = ctx.captures.length ∧
      matchStep1 P m h bp n 0 false i' c = some (true, ctx') := by
  induction k generalizing i ctx with
  | zero => cases hr
  | succ k ih =>
    obtain ⟨b, c, hc, hr⟩ := StepResult.after_eq_some hr
    cases b with
    | true =>
      cases hr
      exact ⟨i, ctx, le_rfl, rfl, hc⟩
    | false =>
      obtain ⟨i', c', hi, hlen, hr'⟩ := ih hr
      exact ⟨i', c', by omega, hlen.trans (length_captures hc), hr'⟩

theorem matcherMatch1_inv {start : ℕ} {anchor : Anchoring}
    (hr : matcherMatch1 P m h n start anchor ctx = some (true, ctx')) :
    ∃ i c, (start : ℤ) ≤ i ∧ c.captures.length = ctx.captures.length ∧
      matchStep1 P m h start n 0 false i c = some (true, ctx') := by
  obtain ⟨b, c, hc, hr⟩ := StepResult.after_eq_some hr
  cases b with
  | false => cases hr
  | true =>
    obtain rfl : c = ctx' := by
      split_ifs at hr
      all_goals exact (Prod.mk.inj (some.inj hr)).2
    obtain ⟨b', c', hc', hr'⟩ := StepResult.after_eq_some hc
    cases b' with
    | true =>
      cases hr'
      exact ⟨start, { ctx with wasword := 0 }, le_rfl, rfl, hc'⟩
    | false =>
      have hlen := length_captures hc'
      rw [if_neg Bool.false_ne_true] at hr'
      split_ifs at hr'
      · obtain ⟨i', c'', hi, hlen', hr''⟩ := matchFrom1_inv hr'
        exact ⟨i', c'', by omega, hlen'.trans hlen, hr''⟩
      · cases hr'

/-- Try one position after the other. -/
def tryPositions (trial : ℕ → StepCtx → StepResult) : List ℕ → StepCtx → StepResult
  | [], ctx => returnFalse ctx
  | q :: qs, ctx => (trial q ctx).after returnTrue (tryPositions trial qs)

/-- The positions of the text that a search of `matcher_match1` tries: the start index is added to
the start of the search once more. -/
def triedPositions (m : Subject) (start : ℕ) : List ℕ :=
  range' (2 * start) (m.stop - start + 1)

theorem matchFrom1_eq (P : List Inst) (m : Subject) (h : Host) (n start k i : ℕ) (ctx : StepCtx) :
    matchFrom1 P m h start n k i ctx =
      tryPositions (fun q => matchStep1 P m h start n 0 false (q - start))
        (range' (start + i) k) ctx := by
  induction k generalizing i ctx with
  | zero => rfl
  | succ k ih =>
    rw [matchFrom1, range'_succ, tryPositions, show ((start + i : ℕ) : ℤ) - start = i by omega]
    congr 1
    funext ctx
    exact ih (i + 1) ctx

theorem StepResult.after_return (r : StepResult) : r.after returnTrue returnFalse = r := by
  rcases r with _ | ⟨_ | _, c⟩ <;> rfl

/-- **`matcher_match1` tries the positions from twice the start index on.** -/
theorem matcherMatch1_unanchored (start : ℕ) (ctx : StepCtx) :
    matcherMatch1 P m h n start .unanchored ctx =
      tryPositions (fun q => matchStep1 P m h start n 0 false (q - start))
        (triedPositions m start) { ctx with wasword := 0 } := by
  have hfirst : ((2 * start : ℕ) : ℤ) - start = start := by omega
  have hrest := matchFrom1_eq P m h n start (m.stop - start) (start + 1)
  rw [show start + (start + 1) = 2 * start + 1 by omega] at hrest
  simp only [matcherMatch1, triedPositions, range'_succ, tryPositions, hfirst, ↓reduceIte,
    ne_eq, not_true_eq_false, decide_false, Bool.false_and, Bool.false_eq_true]
  refine (StepResult.after_return _).trans ?_
  congr 1
  funext ctx
  exact_mod_cast hrest ctx

theorem triedPositions_all_iff {start : ℕ} :
    (∀ q, start ≤ q → q < m.stop → q ∈ triedPositions m start) ↔ start = 0 ∨ m.stop ≤ start := by
  simp only [triedPositions, mem_range'_1]
  constructor
  · intro hall
    by_contra hnot
    have := hall start le_rfl (by omega)
    omega
  · intro h q hq hlt
    omega

theorem matcherMatch1_group_zero {ι : Type} [DecidableEq ι] {y : Ast ι} {p : Prog} {start : ℕ}
    {anchor : Anchoring} (hp : compile flags (wholePattern y) = some p)
    (hle : p.code.length ≤ p.codemax) (hy : 0 ∉ y.registers) (hlen : 2 ≤ ctx.captures.length)
    (hr : matcherMatch1 p.root m h n start anchor ctx = some (true, ctx')) :
    ∃ i e : ℕ, 2 * start ≤ i ∧ i ≤ e ∧ ctx'.captures[0]? = some (some (i : ℤ)) ∧
      ctx'.captures[1]? = some (some (e : ℤ)) ∧ ctx'.lastp ≤ m.stop ∧
        ctx'.lastp = e + (p.codemax - p.code.length : ℕ) := by
  obtain ⟨i, c, hi, hlen', hr⟩ := matcherMatch1_inv hr
  obtain ⟨hzero, e, he, hone, hlast⟩ := matchStep1_group_zero hp hle hy (hlen' ▸ hlen) hr
  refine ⟨(start + i).toNat, e.toNat, by omega, by omega, ?_, ?_, (lastp_bounds hr).2, ?_⟩
  · rw [hzero, Int.toNat_of_nonneg (by omega)]
  · rw [hone, Int.toNat_of_nonneg (by omega)]
  · rw [hlast, Int.toNat_of_nonneg (by omega)]

end

end Sagittarius.Regex
