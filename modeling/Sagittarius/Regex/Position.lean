import Sagittarius.Regex.Matcher
import Sagittarius.Regex.Passes

/-!
# Where a match ends

`matcher_match0` does not stop when it has found a match: the threads that are preferred to it are
run on, and the last position is where they die.  `Sg_RegexMatches` compares this position with the
end of the region, and a matcher takes it for the end of the match.

* `sgRegexMatches_language_iff` : when matching the whole region is being in the language of the
  pattern;
* `match_position_iff` : when the last position is the end of group 0, for both matchers, and what
  follows for the next search and for replacing.

Both fail for the pattern `abc|a` on the text `ab`: the match is `a`, but the last position is
behind `b`.

Anchors are read from the start of a search (`Subject.holdsFrom`): the search believes that no word
goes before its start index.  Whether this is so is a question of which matches there are
(`WordSafe`), not of where the one that is returned ends.
-/

namespace Sagittarius.Regex

open ThreadMachine Option

variable {ι : Type}

/-! ### Matching the whole region -/

/-- Matching the whole region: the success flag and the matcher afterwards.  The region is a text of
its own here, so that no word goes before its start, whatever lies there. -/
structure WholeMatch (m : Subject) (x : Ast ι) (start : ℕ) (init : Caps) (matched : Bool)
    (M : SgMatcher MatchCtx) : Prop where
  /-- some choice of alternatives and repetition counts consumes the region -/
  matched_iff : matched ↔ ∃ t, Consumes m (m.holdsFrom start) m.flags x ⟨start, init⟩ t ∧
    t.pos = m.stop
  /-- group 0 is the region -/
  group_zero : matched → M.ctx.captures[0]? = some (some start) ∧
    M.ctx.captures[1]? = some (some m.stop)

/-- The match that is preferred of those that start at `start`. -/
def preferredMatch (P : List Inst) (m : Subject) (start : ℕ) (init : Caps) : Option (ℕ × Caps) :=
  (textMachine P m start init).firstMatch false (m.stop - start) start

/-- The preferred match ends at the end of the region; or no match does, and no attempt that is
preferred to the first match reads the last character. -/
def PrefersWhole (P : List Inst) (m : Subject) (x : Ast ι) (start : ℕ) (init : Caps) : Prop :=
  ∀ e caps, preferredMatch P m start init = some (e, caps) → e = m.stop ∨
    (textMachine P m start init).firstTry false (m.stop - start - 1) start ≠ some m.stop ∧
      ∀ t, Consumes m (m.holdsFrom start) m.flags x ⟨start, init⟩ t → t.pos ≠ m.stop

theorem finishMatch_anchored (m : Subject) (ctx : MatchCtx) :
    (finishMatch m .anchorStart ctx).matched = (ctx.matched && decide (ctx.lastp = m.stop)) ∧
      (finishMatch m .anchorStart ctx).captures = ctx.captures := by
  rw [finishMatch]
  split_ifs with h
  · simp_all
  · refine ⟨?_, rfl⟩
    cases hm : ctx.matched <;> simp_all

theorem CodeAt.firstFlags {P : List Inst} {flags : Flags} {y : Ast ι} {len : ℕ}
    (h : CodeAt P flags (wholePattern y) 0 len) : flags = firstFlags P := by
  cases h with
  | register hinst _ _ => rw [firstFlags_eq hinst]

section

variable {P : List Inst} {m : Subject} {y : Ast ι} {len start : ℕ} {init : Caps}

theorem harmless_start (hstart : start ≤ m.stop) : Harmless P m start start false 0 :=
  harmless_of_eq hstart (by simp) 0

theorem finishMatch_of_preferred {ctx : MatchCtx} {e : ℕ} {caps : Caps}
    (hends : Ends ((textMachine P m start init).lock false (m.stop - start) start
      (extendBy [] ((textMachine P m start init).spawn start)) none) ctx) (hstart : start ≤ m.stop)
    (hfirst : preferredMatch P m start init = some (e, caps)) :
    ((finishMatch m .anchorStart ctx).matched ↔ e = m.stop ∨
      (textMachine P m start init).firstTry false (m.stop - start - 1) start = some m.stop) ∧
      (finishMatch m .anchorStart ctx).captures = caps.set 1 (some e) := by
  obtain ⟨hfin, hfincaps⟩ := finishMatch_anchored m ctx
  have hsum : start + (m.stop - start) = m.stop := by omega
  have hfst := (lock_eq_firstMatch false (m.stop - start) start).trans hfirst
  have hmatched : ctx.matched = true := by rw [hends.matched, hfst]; rfl
  refine ⟨?_, by rw [hfincaps, hends.captures e caps hfst]⟩
  have hend := lock_snd_eq_end_iff (M := textMachine P m start init)
    (n := m.stop - start) (p := start)
  rw [hsum] at hend
  rw [hfin, hmatched, Bool.true_and, decide_eq_true_iff, hends.lastp hmatched]
  have hle := fst_le_lock_snd (by simp) hfst
  have hge := (textMachine P m start init).lock_snd_bounds false (m.stop - start) start
    (extendBy [] ((textMachine P m start init).spawn start)) none
  obtain ⟨i, hi, hie, -⟩ := mem_of_firstMatch hfirst
  constructor
  · intro h
    rcases hend.1 h with h0 | htry
    · exact .inl (by omega)
    · exact .inr htry
  · rintro (h | htry)
    · dsimp only at hle
      omega
    · exact hend.2 (.inr htry)

/-- **Matching the whole region is being in the language**, exactly if the preferred match ends at
the end of the region or none does and no attempt gets there. -/
theorem wholeMatch_iff {ctx : MatchCtx} {matched : Bool} {M : SgMatcher MatchCtx}
    (hcode : CodeAt P m.flags (wholePattern y) 0 len) (hmatch : opAt P len = some .match)
    (hy : 0 ∉ y.groups) (hinit : 2 ≤ init.length) (hstart : start ≤ m.stop)
    (hb : matched = M.ctx.matched) (hM : M.ctx = finishMatch m .anchorStart ctx)
    (hends : Ends ((textMachine P m start init).lock false (m.stop - start) start
      (extendBy [] ((textMachine P m start init).spawn start)) none) ctx) :
    WholeMatch m (wholePattern y) start init matched M ↔
      PrefersWhole P m (wholePattern y) start init := by
  subst hb
  cases hfirst : preferredMatch P m start init with
  | none =>
    have hnone := (spawn_eq_nil_iff hcode hmatch hstart).1 (List.head?_eq_none_iff.1 hfirst)
    have hfalse : M.ctx.matched = false := by
      rw [hM, (finishMatch_anchored m ctx).1, hends.matched, lock_eq_firstMatch,
        show ThreadMachine.firstMatch _ _ _ _ = none from hfirst]
      rfl
    refine iff_of_true ⟨?_, by simp [hfalse]⟩ (by simp [PrefersWhole, hfirst])
    rw [hfalse]
    exact ⟨nofun, fun ⟨t, ht, _⟩ => absurd ht (hnone t)⟩
  | some r =>
    obtain ⟨e, caps⟩ := r
    have ht : Consumes m (m.holdsFrom start) m.flags (wholePattern y) ⟨start, init⟩ ⟨e, caps⟩ :=
      consumes_of_mem_spawn hcode hmatch (List.mem_of_mem_head? hfirst)
    obtain ⟨hzero, hone, hset⟩ := ht.group_zero hy hinit
    obtain ⟨hmatched, hcaps⟩ := finishMatch_of_preferred hends hstart hfirst
    rw [← hM] at hmatched hcaps
    rw [hset] at hcaps
    have hprefers : PrefersWhole P m (wholePattern y) start init ↔ e = m.stop ∨
        (textMachine P m start init).firstTry false (m.stop - start - 1) start ≠ some m.stop ∧
          ∀ t, Consumes m (m.holdsFrom start) m.flags (wholePattern y) ⟨start, init⟩ t →
            t.pos ≠ m.stop := by
      simp [PrefersWhole, hfirst]
    rw [hprefers]
    constructor
    · rintro ⟨hiff, hgroup⟩
      by_cases he : e = m.stop
      · exact .inl he
      · have hnot : ¬ M.ctx.matched = true := fun h => by
          have := (hgroup h).2
          rw [hcaps, hone] at this
          exact he (by simpa using this)
        exact .inr ⟨fun htry => hnot (hmatched.2 (.inr htry)),
          fun t ht hpos => hnot (hiff.2 ⟨t, ht, hpos⟩)⟩
    · rintro (rfl | ⟨htry, hno⟩)
      · exact ⟨iff_of_true (hmatched.2 (.inl rfl)) ⟨_, ht, rfl⟩, fun _ => by
          rw [hcaps]; exact ⟨hzero, hone⟩⟩
      · have hnot : ¬ M.ctx.matched = true := fun h =>
          (hmatched.1 h).elim (fun he => hno _ ht he) htry
        exact ⟨iff_of_false hnot fun ⟨t, ht, hpos⟩ => hno t ht hpos, fun h => absurd h hnot⟩

end

/-- A matcher that has not been used. -/
def newMatcher (groupCount start : ℕ) : SgMatcher MatchCtx where
  ctx := ⟨freshCaptures groupCount, false, 0⟩
  first := -1
  last := start
  lastAppendPosition := 0

/-- **`Sg_RegexMatches` decides membership in the language** of a pattern without extended
constructs exactly under this condition. -/
theorem sgRegexMatches_language_iff [DecidableEq ι] (y : Ast ι) (hbasic : y.basic)
    (hy : 0 ∉ y.groups) (m : Subject) (start : ℕ) (hstart : start ≤ m.stop)
    (M : SgMatcher MatchCtx) (hcaps : 2 ≤ M.ctx.captures.length) :
    ∃ prog matched M', compile m.flags (wholePattern y) = some prog ∧
      sgRegexMatches (engine0 prog.root m) start M = some (matched, M') ∧
      (WholeMatch m (wholePattern y) start M.ctx.captures matched M' ↔
        PrefersWhole prog.root m (wholePattern y) start M.ctx.captures) := by
  obtain ⟨prog, hprog, len, -, hcode, hmatch⟩ := compile_root m.flags
    (show (wholePattern y).basic from hbasic)
  have hfresh : ({ M.ctx with lastp := 0, matched := false } : MatchCtx).matched = false := rfl
  obtain ⟨ctx', heq, hends⟩ := matcherMatch0_eq_lock hcode.firstFlags hstart le_rfl hfresh
    (harmless_start hstart) fun h : Anchoring.anchorStart = .unanchored => nomatch h
  exact ⟨prog, _, _, hprog, rfl, wholeMatch_iff hcode hmatch hy hcaps hstart rfl heq hends⟩

/-- `ab|a` on `ab`: the preferred alternative is the whole text. -/
theorem sgRegexMatches_language_ab :
    let y : Ast ℕ := .alter [.seq 0 [.atom (.char (chr 'a')), .atom (.char (chr 'b'))],
      .atom (.char (chr 'a'))]
    ∃ prog matched M', compile Prog.noFlags (wholePattern y) = some prog ∧
      sgRegexMatches (engine0 prog.root (asciiSubject ['a', 'b'])) 0 (newMatcher 1 0) =
        some (matched, M') ∧
      WholeMatch (asciiSubject ['a', 'b']) (wholePattern y) 0 (freshCaptures 1) matched M' := by
  intro y
  obtain ⟨prog, matched, M', hprog, hrun, hiff⟩ := sgRegexMatches_language_iff y (by decide)
    (by decide) (asciiSubject ['a', 'b']) 0 (by decide) (newMatcher 1 0) (by decide)
  refine ⟨prog, matched, M', hprog, hrun, hiff.2 fun e caps he => .inl ?_⟩
  have hfirst : preferredMatch prog.root (asciiSubject ['a', 'b']) 0
      (newMatcher 1 0).ctx.captures = some (2, [some 0, some 2]) := by
    obtain rfl : _ = prog := some.inj ((by rfl : compile _ _ = some _).symm.trans hprog)
    decide
  rw [hfirst] at he
  exact (congrArg Prod.fst (some.inj he)).symm

/-- `a|ab` does not match `ab`, and `abc|a` matches it with group 0 from 0 to 1. -/
theorem sgRegexMatches_misses_alternative :
    let m := asciiSubject ['a', 'b']
    let a : Ast ℕ := .atom (.char (chr 'a'))
    let b : Ast ℕ := .atom (.char (chr 'b'))
    let c : Ast ℕ := .atom (.char (chr 'c'))
    let x := wholePattern (.alter [a, .seq 0 [a, b]])
    (∃ prog, compile Prog.noFlags x = some prog ∧
      ∀ matched M', sgRegexMatches (engine0 prog.root m) 0 (newMatcher 1 0) = some (matched, M') →
        matched = false ∧ ¬ WholeMatch m x 0 (freshCaptures 1) matched M') ∧
    ∃ prog, compile Prog.noFlags (wholePattern (.alter [.seq 0 [a, b, c], a])) = some prog ∧
      ∀ matched M', sgRegexMatches (engine0 prog.root m) 0 (newMatcher 1 0) = some (matched, M') →
        matched = true ∧ M'.ctx.captures = [some 0, some 1] := by
  intro m a b c x
  refine ⟨⟨_, rfl, fun matched M' h => ?_⟩, _, rfl, fun matched M' h => ?_⟩
  · obtain ⟨rfl, rfl⟩ := Prod.mk.inj (some.inj h)
    refine ⟨by decide, fun hwhole => ?_⟩
    have hlang : Consumes m (m.holdsFrom 0) Prog.noFlags x ⟨0, freshCaptures 1⟩ _ :=
      .register (.alter (List.mem_cons_of_mem _ (List.mem_cons_self ..)) (.seqCons
        (.atom (by decide) (by decide)) (.seqCons (.atom (by decide) (by decide)) .seqNil)))
    have hmatched := hwhole.matched_iff.2 ⟨_, hlang, rfl⟩
    revert hmatched
    decide
  · obtain ⟨rfl, rfl⟩ := Prod.mk.inj (some.inj h)
    decide

/-! ### The position of a match -/

/-- The calls that search. -/
inductive Call
  | matches
  | lookingAt
  | find (index : Option ℕ)

namespace Call

variable {γ : Type} {E : Engine γ} {m : Subject} {start : ℕ} {M M' : SgMatcher γ}

/-- What a call returns, on a matcher whose region starts at `start`. -/
def run (E : Engine γ) (m : Subject) (start : ℕ) (M : SgMatcher γ) :
    Call → Option (Bool × SgMatcher γ)
  | .matches => sgRegexMatches E start M
  | .lookingAt => sgRegexLookingAt E start M
  | .find index => sgRegexFind E m start M index

/-- Whether only a match of the whole region counts. -/
def anchor : Call → Anchoring
  | .matches => .anchorStart
  | _ => .unanchored

/-- Where the search starts. -/
def index (start : ℕ) (M : SgMatcher γ) : Call → ℕ
  | .find none => M.nextIndex.toNat
  | .find (some index) => index
  | _ => start

theorem run_inv {c : Call} {b : Bool} {β : Type} {f : γ → β}
    (hf : ∀ ctx, f (E.reset ctx) = f ctx) (h : c.run E m start M = some (b, M')) :
    ∃ M₀ : SgMatcher γ, f M₀.ctx = f M.ctx ∧
      matcherMatch E M₀ (c.index start M) c.anchor = some (b, M') := by
  cases c with
  | «matches» | lookingAt => exact ⟨_, hf M.ctx, h⟩
  | find index =>
    cases index with
    | none =>
      simp only [run, sgRegexFind] at h
      split_ifs at h
      exact ⟨M, rfl, h⟩
    | some index =>
      simp only [run, sgRegexFind] at h
      split_ifs at h
      exact ⟨_, hf M.ctx, h⟩

end Call

theorem at_iff_lastp {γ : Type} {E : Engine γ} {M M' : SgMatcher γ} {start i e : ℕ}
    {anchor : Anchoring} (h : matcherMatch E M start anchor = some (true, M'))
    (hi : E.capture M'.ctx 0 = some i) (he : E.capture M'.ctx 1 = some e) :
    (∃ i e : ℕ, M'.At E i e) ↔ E.lastp M'.ctx = e := by
  obtain ⟨-, hfirst, hlast, -⟩ := run_of_matcherMatch h
  constructor
  · rintro ⟨i', e', hM⟩
    rw [← hlast, hM.last]
    exact some.inj (hM.stop.symm.trans he)
  · intro hlastp
    refine ⟨i, e, ?_, hlast.trans hlastp, hi, he⟩
    rw [hfirst, if_pos rfl, hi]
    rfl

/-! #### The matcher with threads -/

section

variable {P : List Inst} {m : Subject}

mutual

theorem groups_subset_registers : ∀ x : Ast ι, x.groups ⊆ x.registers
  | .seq _ items | .alter items => groupsAll_subset_registersAll items
  | .register n _ x => List.cons_subset_cons n (groups_subset_registers x)
  | .flaggedSeq _ x | .rep _ _ _ x => groups_subset_registers x
  | .atom _ | .anchor _ | .backref _ | .lookahead .. | .lookbehind .. | .standalone _ | .branch ..
  | .branchAssert .. | .flags _ => List.nil_subset _

theorem groupsAll_subset_registersAll :
    ∀ items : List (Ast ι), groupsAll items ⊆ registersAll items
  | [] => List.nil_subset _
  | x :: items => fun _ hn => List.mem_append.2 ((List.mem_append.1 hn).imp
      (fun hn => groups_subset_registers x hn) fun hn => groupsAll_subset_registersAll items hn)

end

variable {anchor : Anchoring} {ctx : MatchCtx}

theorem matchLoop_nil {bp p n : ℕ} {c : SgChar} {wasword : Bool} (hp : m.stop < p) :
    matchLoop P m bp anchor n p [] c wasword ctx = ctx := by
  cases n with
  | zero => rfl
  | succ n => simp only [matchLoop, matchStep, if_pos hp]

theorem matcherMatch0_behind {start : ℕ} (hstart : m.stop < start) (hctx : ctx.matched = false) :
    (matcherMatch0 P m start anchor ctx).matched = false := by
  rw [matcherMatch0, matchLoop_nil (hstart.trans_le (le_precheck start)), finishMatch]
  simp [hctx]

theorem finishMatch_of_matched
    (h : (finishMatch m anchor ctx).matched) : finishMatch m anchor ctx = ctx := by
  refine if_neg fun hcond => ?_
  rw [finishMatch, if_pos hcond] at h
  cases h

/-- The search that starts at `index` goes on behind its match. -/
def overreadsFrom (P : List Inst) (m : Subject) (anchor : Anchoring) (index : ℕ) : Bool :=
  (textMachine P m index []).overreads (anchor = .unanchored) (m.stop - index) index

section

variable {y : Ast ι} {len : ℕ} (hcode : CodeAt P m.flags (wholePattern y) 0 len)
  (hmatch : opAt P len = some .match) (hy : 0 ∉ y.groups)

include hcode hmatch hy

theorem engine0_group_zero {start : ℕ} {anchor : Anchoring} {ctx ctx' : MatchCtx}
    (hlen : 2 ≤ ctx.captures.length)
    (hskip : anchor = .unanchored → SkipSafe P m start start)
    (h : (engine0 P m).run start anchor ctx = some (true, ctx')) :
    ctx'.captures.length = ctx.captures.length ∧ ∃ i e, start ≤ i ∧ i ≤ e ∧ e ≤ m.stop ∧
      ctx'.captures[0]? = some (some i) ∧ ctx'.captures[1]? = some (some e) ∧
        (ctx'.lastp = e ↔ overreadsFrom P m anchor start = false) := by
  obtain ⟨hmatched, rfl⟩ := Prod.mk.inj (some.inj h)
  have hstart : start ≤ m.stop := by
    by_contra hlt
    rw [matcherMatch0_behind (Nat.lt_of_not_le hlt) rfl] at hmatched
    cases hmatched
  obtain ⟨ctx₁, heq, hends⟩ := matcherMatch0_eq_lock hcode.firstFlags hstart le_rfl
    (show ({ ctx with matched := false } : MatchCtx).matched = false from rfl)
    (harmless_start hstart) hskip
  rw [heq] at hmatched ⊢
  have hfin := finishMatch_of_matched hmatched
  rw [hfin] at hmatched ⊢
  obtain ⟨⟨e, caps⟩, hfst⟩ := isSome_iff_exists.1 (hends.matched.symm.trans hmatched)
  have hfirst := (lock_eq_firstMatch _ _ _).symm.trans hfst
  obtain ⟨i, hi, hie, he, -, hmem⟩ := mem_of_firstMatch hfirst
  have ht : Consumes m (m.holdsFrom start) m.flags (wholePattern y) ⟨i, ctx.captures⟩ ⟨e, caps⟩ :=
    consumes_of_mem_spawn hcode hmatch hmem
  obtain ⟨hzero, hone, hset⟩ := ht.group_zero hy hlen
  have hlast := lock_snd_eq_iff hfirst
  rw [(textMachine_sameMoves start ctx.captures []).overreads] at hlast
  rw [hends.captures e caps hfst, hset, hends.lastp hmatched]
  exact ⟨ht.length_caps, i, e, hi, hie, by omega, hzero, hone, hlast⟩

theorem engine0_leftmost {start : ℕ} (hstart : start ≤ m.stop) {ctx ctx' : MatchCtx} {b : Bool}
    (hlen : 2 ≤ ctx.captures.length) (hskip : SkipSafe P m start start)
    (h : (engine0 P m).run start .unanchored ctx = some (b, ctx')) :
    b = ctx'.matched ∧
      LeftmostMatch m (m.holdsFrom start) (wholePattern y) start ctx.captures ctx' := by
  obtain ⟨rfl, rfl⟩ := Prod.mk.inj (some.inj h)
  refine ⟨rfl, ?_⟩
  obtain ⟨ctx₁, heq, hends⟩ := matcherMatch0_eq_lock hcode.firstFlags hstart le_rfl
    (show ({ ctx with matched := false } : MatchCtx).matched = false from rfl)
    (harmless_start hstart) fun _ : Anchoring.unanchored = .unanchored => hskip
  rw [heq, show finishMatch m .unanchored ctx₁ = ctx₁ by simp [finishMatch]]
  exact leftmostMatch_of_ends hcode hmatch hy hlen hstart hends

theorem engine0_exact (hskip : ∀ start ≤ m.stop, SkipSafe P m start start)
    (hover : ∀ start ≤ m.stop, overreadsFrom P m .unanchored start = false) :
    (engine0 P m).Exact m fun ctx => 2 ≤ ctx.captures.length where
  reset _ h := h
  hit start ctx ctx' hlen h := by
    have hskip : SkipSafe P m start start := by
      rcases le_or_gt start m.stop with hle | hlt
      · exact hskip start hle
      · intro p hp hple
        omega
    obtain ⟨hlen', i, e, hi, hie, he, hzero, hone, hlast⟩ :=
      engine0_group_zero hcode hmatch hy hlen (fun _ => hskip) h
    refine ⟨hlen'.symm ▸ hlen, i, e, hi, hie, he, ?_, ?_, ?_⟩
    · simp [engine0, hzero]
    · simp [engine0, hone]
    · exact congrArg Nat.cast (hlast.2 (hover start (by omega)))

end

end

/-! #### The matcher with backtracking -/

section

variable {m : Subject} {y : Ast ι} {p : Prog} {h : Host} {n : ℕ}

theorem engine1_exact [DecidableEq ι] (hp : compile m.flags (wholePattern y) = some p)
    (hfull : p.code.length = p.codemax) (hy : 0 ∉ y.registers) :
    (engine1 p.root m h n).Exact m fun ctx => 2 ≤ ctx.captures.length where
  reset _ h := h
  hit start ctx ctx' hlen hr := by
    obtain ⟨i, e, hi, hie, hzero, hone, hstop, hlast⟩ :=
      matcherMatch1_group_zero hp hfull.le hy hlen hr
    refine ⟨?_, i, e, by omega, hie, by omega, by simp [engine1, hzero], by simp [engine1, hone],
      ?_⟩
    · by_contra hlt
      rw [List.getElem?_eq_none (by omega)] at hone
      cases hone
    · rw [show (engine1 p.root m h n).lastp ctx' = ctx'.lastp from rfl, hlast, hfull]
      simp

end

/-- What follows if matches are where the matcher says: a search goes on where the last match
ends, and replacing every match by itself changes nothing. -/
structure NothingLost {γ : Type} (E : Engine γ) (m : Subject) (ok : γ → Prop) : Prop where
  find : ∀ (start i e : ℕ) (M : SgMatcher γ), M.At E i e →
    sgRegexFind E m start M none = matcherMatch E M (nextStart i e) .unanchored
  replaceAll : ∀ (start groupCount n : ℕ) (M : SgMatcher γ) (out : List SgChar), ok M.ctx →
    0 < groupCount → m.stop = m.text.length →
      sgRegexReplaceAll E m start groupCount groupZero n M = some out → out = m.text
  replaceAll_total : (∀ start ctx, (E.run start .unanchored ctx).isSome) →
    ∀ (start groupCount : ℕ) (M : SgMatcher γ), ok M.ctx → 0 < groupCount →
      m.stop = m.text.length →
        sgRegexReplaceAll E m start groupCount groupZero (m.stop + 2) M = some m.text

theorem Engine.Exact.nothingLost {γ : Type} {E : Engine γ} {m : Subject} {ok : γ → Prop}
    (hE : E.Exact m ok) : NothingLost E m ok where
  find _ _ _ _ h := h.find
  replaceAll _ _ n _ out hok hcount hstop h :=
    (sgRegexReplaceAll_group_zero hE hok hcount hstop).1 n out h
  replaceAll_total htotal _ _ _ hok hcount hstop :=
    (sgRegexReplaceAll_group_zero hE hok hcount hstop).2 htotal

theorem nextStart_pos {i e : ℕ} (hie : i ≤ e) : 0 < nextStart i e := by
  unfold nextStart
  split_ifs <;> omega

end Sagittarius.Regex
