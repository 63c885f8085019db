import Sagittarius.Regex.Recursive

/-!
# Matcher objects

`SgMatcher` of `regex_match.c`: a search keeps where the last match was, the next one goes on from
there, and replacing all matches copies what lies between them.  A pattern is run by one of two
matchers, so what they have in common is an `Engine`.

* `matcherMatch`, `sgRegexMatches`, `sgRegexLookingAt`, `sgRegexFind`, `sgRegexReplaceAll`;
* `Engine.Exact` : after a match the last position is the end of group 0;
* `sgRegexReplaceAll_group_zero` : then replacing every match by itself changes nothing.
-/

namespace Sagittarius.Regex

open Option

/-! ### The model -/

/-- What `matcher_match0` and `matcher_match1` have in common, with a context `γ`. -/
structure Engine (γ : Type) where
  /-- the search; `none` is one that does not terminate -/
  run : ℕ → Anchoring → γ → Option (Bool × γ)
  /-- `lastp`, as a position in the text -/
  lastp : γ → ℤ
  /-- `match`, as positions in the text -/
  capture : γ → ℕ → Option ℤ
  /-- what `reset_matcher` does to the context -/
  reset : γ → γ

/-- `matcher_match0`, after `matcher_match` has set `matched` -/
def engine0 (P : List Inst) (m : Subject) : Engine MatchCtx where
  run start anchor ctx :=
    let ctx := matcherMatch0 P m start anchor { ctx with matched := false }
    some (ctx.matched, ctx)
  lastp ctx := ctx.lastp
  capture ctx j := ctx.captures[j]?.join.map Int.ofNat
  reset ctx := { ctx with lastp := 0, matched := false }

/-- `matcher_match1`, with fuel `n` -/
def engine1 (P : List Inst) (m : Subject) (h : Host) (n : ℕ) : Engine StepCtx where
  run := matcherMatch1 P m h n
  lastp := StepCtx.lastp
  capture ctx j := ctx.captures[j]?.join
  reset ctx := { ctx with lastp := 0 }

/-- `SgMatcher`; the pattern, the text and its region do not change. -/
structure SgMatcher (γ : Type) where
  ctx : γ
  first : ℤ
  last : ℤ
  lastAppendPosition : ℤ

/-- The characters of the text from `a` to `b`. -/
def Subject.slice (m : Subject) (a b : ℤ) : List SgChar := (m.text.drop a.toNat).take (b - a).toNat

variable {γ : Type} (E : Engine γ)

/-- Chooses the matcher. -/
def matcherMatch (M : SgMatcher γ) (start : ℕ) (anchor : Anchoring) :
    Option (Bool × SgMatcher γ) :=
  (E.run start anchor M.ctx).map fun (ret, ctx) =>
    (ret, { M with
      ctx := ctx
      first := if ret then (E.capture ctx 0).getD 0 else -1
      last := E.lastp ctx })

/-- `reset_matcher`; the region starts at `start`. -/
def resetMatcher (start : ℕ) (M : SgMatcher γ) : SgMatcher γ where
  ctx := E.reset M.ctx
  first := -1
  last := start
  lastAppendPosition := 0

/-- Matches the whole text. -/
def sgRegexMatches (start : ℕ) (M : SgMatcher γ) : Option (Bool × SgMatcher γ) :=
  matcherMatch E (resetMatcher E start M) start .anchorStart

/-- Matches at the start. -/
def sgRegexLookingAt (start : ℕ) (M : SgMatcher γ) : Option (Bool × SgMatcher γ) :=
  matcherMatch E (resetMatcher E start M) start .unanchored

/-- Where `Sg_RegexFind` goes on. -/
def SgMatcher.nextIndex (M : SgMatcher γ) : ℤ := M.last + if M.last = M.first then 1 else 0

/-- `Sg_RegexFind`; no index is a negative one.  An index behind the region is an error. -/
def sgRegexFind (m : Subject) (start : ℕ) (M : SgMatcher γ) : Option ℕ →
    Option (Bool × SgMatcher γ)
  | none =>
    -- ASSERT(from >= 0)
    if M.nextIndex < 0 then none else matcherMatch E M M.nextIndex.toNat .unanchored
  | some index =>
    if index ≤ m.stop then matcherMatch E (resetMatcher E start M) index .unanchored else none

/-- The text of a group, in `retrive_group`; a group that was matched in a lookbehind ends before
its start. -/
def Engine.group (m : Subject) (ctx : γ) (submatch : ℕ) : Option (List SgChar) :=
  match E.capture ctx (2 * submatch), E.capture ctx (2 * submatch + 1) with
  | some sp, some ep => some (if ep < sp then m.slice ep sp else m.slice sp ep)
  | _, _ => none

/-- The largest legal group number that starts with `refNum`, and what follows it. -/
def readGroup (groupCount : ℕ) : ℕ → List SgChar → ℕ × List SgChar
  | refNum, [] => (refNum, [])
  | refNum, c :: rest =>
    if isdigit c then
      let newRefNum := refNum * 10 + (c - chr '0')
      if groupCount ≤ newRefNum then (refNum, c :: rest) else readGroup groupCount newRefNum rest
    else (refNum, c :: rest)

/-- What is written for the replacement, from the texts of groups and what is before and behind the
match. `none` is an error; `n` bounds the length. -/
def appendStringReplacement (groupCount : ℕ) (group : ℕ → Option (List SgChar))
    (pre post : List SgChar) : ℕ → List SgChar → Option (List SgChar)
  | _, [] => some []
  | 0, _ => none
  | n + 1, nextChar :: rest =>
    let next := appendStringReplacement groupCount group pre post n
    if nextChar = chr '\\' then (next rest.tail).map ((rest.headD 0) :: ·)
    else if nextChar = chr '$' then
      match rest with
      | [] => none
      | c :: rest =>
        if isdigit c then
          let (refNum, rest) := readGroup groupCount (c - chr '0') rest
          if groupCount ≤ refNum then none else (next rest).map ((group refNum).getD [] ++ ·)
        else if c = chr 'p' then (next rest).map (pre ++ ·)
        else if c = chr 'P' then (next rest).map (post ++ ·)
        else none
    else (next rest).map (nextChar :: ·)

section

variable (m : Subject) (start groupCount : ℕ) (replacement : List SgChar)

/-- `append_replacement`, for a text -/
def appendReplacement (M : SgMatcher γ) : Option (List SgChar × SgMatcher γ) :=
  if M.first < 0 then none
  else
    (appendStringReplacement groupCount (E.group m M.ctx) (m.slice start M.first)
      (m.slice M.last m.stop) replacement.length replacement).map fun r =>
        (m.slice M.lastAppendPosition M.first ++ r, { M with lastAppendPosition := M.last })

/-- The text behind the last match. -/
def appendTail (M : SgMatcher γ) : List SgChar := m.slice M.lastAppendPosition m.stop

/-- The loop of `Sg_RegexReplaceAll`, `n` times at most -/
def replaceLoop : ℕ → SgMatcher γ → Option (List SgChar)
  | 0, _ => none
  | n + 1, M => do
    let (written, M) ← appendReplacement E m start groupCount replacement M
    let (result, M) ← sgRegexFind E m start M none
    if result then (replaceLoop n M).map (written ++ ·) else some (written ++ appendTail m M)

/-- Replaces every match. -/
def sgRegexReplaceAll (n : ℕ) (M : SgMatcher γ) : Option (List SgChar) := do
  let (result, M) ← sgRegexFind E m start (resetMatcher E start M) none
  if result then replaceLoop E m start groupCount replacement n M else some m.text

end

/-! ### Texts -/

theorem Subject.slice_append (m : Subject) {a b c : ℕ} (hab : a ≤ b) (hbc : b ≤ c) :
    m.slice a b ++ m.slice b c = m.slice a c := by
  have hslice : ∀ a b : ℕ, m.slice a b = (m.text.drop a).take (b - a) := fun a b => by
    rw [slice, Int.toNat_natCast, show ((b : ℤ) - a).toNat = b - a by omega]
  rw [hslice, hslice, hslice, show c - a = (b - a) + (c - b) by omega, List.take_add,
    List.drop_drop, show a + (b - a) = b by omega]

/-! ### Replacing a match by itself -/

/-- `$0`: refers to the whole match. -/
def groupZero : List SgChar := [chr '$', chr '0']

theorem appendStringReplacement_groupZero {groupCount : ℕ} (hcount : 0 < groupCount)
    (group : ℕ → Option (List SgChar)) (pre post : List SgChar) :
    appendStringReplacement groupCount group pre post groupZero.length groupZero =
      some ((group 0).getD []) := by
  have : ¬ groupCount ≤ 0 := by omega
  simp [appendStringReplacement, groupZero, readGroup, chr, isdigit, this]

/-- In the contexts `ok` a match is where the engine says: group 0 is inside the region, behind the
start of the search, and ends at the last position. -/
structure Engine.Exact (E : Engine γ) (m : Subject) (ok : γ → Prop) : Prop where
  reset : ∀ ctx, ok ctx → ok (E.reset ctx)
  hit : ∀ start ctx ctx', ok ctx → E.run start .unanchored ctx = some (true, ctx') → ok ctx' ∧
    ∃ i e : ℕ, start ≤ i ∧ i ≤ e ∧ e ≤ m.stop ∧ E.capture ctx' 0 = some i ∧
      E.capture ctx' 1 = some e ∧ E.lastp ctx' = e

/-- A matcher after a match from `i` to `e`. -/
structure SgMatcher.At (E : Engine γ) (M : SgMatcher γ) (i e : ℕ) : Prop where
  first : M.first = i
  last : M.last = e
  start : E.capture M.ctx 0 = some i
  stop : E.capture M.ctx 1 = some e

section

variable {E} {m : Subject} {ok : γ → Prop} {M M' : SgMatcher γ} {start groupCount : ℕ}

theorem matcherMatch_of_run {anchor : Anchoring} {b : Bool} {ctx : γ}
    (h : E.run start anchor M.ctx = some (b, ctx)) :
    matcherMatch E M start anchor = some (b, { M with
      ctx := ctx
      first := if b then (E.capture ctx 0).getD 0 else -1
      last := E.lastp ctx }) := by
  rw [matcherMatch, h, map_some]

theorem run_of_matcherMatch {anchor : Anchoring} {b : Bool}
    (h : matcherMatch E M start anchor = some (b, M')) :
    E.run start anchor M.ctx = some (b, M'.ctx) ∧
      M'.first = (if b then (E.capture M'.ctx 0).getD 0 else -1) ∧ M'.last = E.lastp M'.ctx ∧
      M'.lastAppendPosition = M.lastAppendPosition := by
  obtain ⟨⟨ret, ctx⟩, hrun, heq⟩ := map_eq_some_iff.1 h
  obtain ⟨rfl, rfl⟩ := Prod.mk.inj heq
  exact ⟨hrun, rfl, rfl, rfl⟩

theorem Engine.Exact.matcherMatch (hE : E.Exact m ok) (hok : ok M.ctx)
    (h : matcherMatch E M start .unanchored = some (true, M')) :
    ok M'.ctx ∧ ∃ i e, start ≤ i ∧ i ≤ e ∧ e ≤ m.stop ∧ M'.At E i e := by
  obtain ⟨hrun, hfirst, hlast, -⟩ := run_of_matcherMatch h
  obtain ⟨hok', i, e, hi, hie, he, hzero, hone, hlastp⟩ := hE.hit _ _ _ hok hrun
  refine ⟨hok', i, e, hi, hie, he, ?_, hlast.trans hlastp, hzero, hone⟩
  rw [hfirst, if_pos rfl, hzero]
  rfl

theorem SgMatcher.At.group_zero {i e : ℕ} (h : M.At E i e) (hie : i ≤ e) :
    E.group m M.ctx 0 = some (m.slice i e) := by
  have hlt : ¬ (e : ℤ) < i := by omega
  simp [Engine.group, h.start, h.stop, hlt]

/-- Where the search goes on after a match: where it ends, one further if it is empty. -/
def nextStart (i e : ℕ) : ℕ := if e = i then e + 1 else e

theorem le_nextStart (i e : ℕ) : e ≤ nextStart i e := by
  unfold nextStart
  split_ifs <;> omega

theorem SgMatcher.At.find {i e : ℕ} (h : M.At E i e) :
    sgRegexFind E m start M none = matcherMatch E M (nextStart i e) .unanchored := by
  have hnext : M.nextIndex = nextStart i e := by
    rw [SgMatcher.nextIndex, h.first, h.last, nextStart]
    by_cases hei : e = i
    · rw [if_pos hei, if_pos (congrArg Nat.cast hei)]
      rfl
    · rw [if_neg hei, if_neg (by omega), Int.add_zero]
  rw [sgRegexFind, hnext, if_neg (by omega), Int.toNat_natCast]

theorem SgMatcher.At.appendReplacement {i e a : ℕ} (h : M.At E i e) (hie : i ≤ e)
    (ha : M.lastAppendPosition = a) (hai : a ≤ i) (hcount : 0 < groupCount) :
    appendReplacement E m start groupCount groupZero M =
      some (m.slice a e, { M with lastAppendPosition := e }) := by
  rw [Regex.appendReplacement, h.first, if_neg (by omega),
    appendStringReplacement_groupZero hcount, h.group_zero hie, ha, h.last]
  simp [m.slice_append hai hie]

theorem replaceLoop_succ {i e a : ℕ} (n : ℕ) (h : M.At E i e) (hie : i ≤ e)
    (ha : M.lastAppendPosition = a) (hai : a ≤ i) (hcount : 0 < groupCount) :
    replaceLoop E m start groupCount groupZero (n + 1) M =
      (matcherMatch E { M with lastAppendPosition := e } (nextStart i e) .unanchored).bind fun r =>
        if r.1 then (replaceLoop E m start groupCount groupZero n r.2).map (m.slice a e ++ ·)
        else some (m.slice a e ++ appendTail m r.2) := by
  have hmoved : SgMatcher.At E { M with lastAppendPosition := (e : ℤ) } i e :=
    ⟨h.first, h.last, h.start, h.stop⟩
  have hfind : sgRegexFind E m start _ none = _ := hmoved.find
  rw [replaceLoop, h.appendReplacement hie ha hai hcount, ← hfind]
  rfl

/-- The loop copies everything from the last position on. -/
theorem replaceLoop_groupZero (hE : E.Exact m ok) (hcount : 0 < groupCount) {n i e a : ℕ}
    (hok : ok M.ctx) (hM : M.At E i e) (hie : i ≤ e) (he : e ≤ m.stop)
    (ha : M.lastAppendPosition = a) (hai : a ≤ i) {out : List SgChar}
    (h : replaceLoop E m start groupCount groupZero n M = some out) : out = m.slice a m.stop := by
  induction n generalizing M i e a out with
  | zero => cases h
  | succ n ih =>
    rw [replaceLoop_succ n hM hie ha hai hcount] at h
    obtain ⟨⟨b, M₁⟩, hfind, h⟩ := bind_eq_some_iff.1 h
    obtain ⟨-, -, -, hlap⟩ := run_of_matcherMatch hfind
    cases b with
    | true =>
      obtain ⟨hok₁, i₁, e₁, hi₁, hie₁, he₁, hM₁⟩ :=
        hE.matcherMatch (M := { M with lastAppendPosition := e }) hok hfind
      obtain ⟨rest, hrest, rfl⟩ := map_eq_some_iff.1 h
      rw [ih hok₁ hM₁ hie₁ he₁ hlap ((le_nextStart i e).trans hi₁) hrest]
      exact m.slice_append (hai.trans hie) he
    | false =>
      obtain rfl := some.inj h
      rw [appendTail, hlap]
      exact m.slice_append (hai.trans hie) he

/-- The loop ends, if the searches do: every match ends behind the one before it or is empty. -/
theorem replaceLoop_isSome (hE : E.Exact m ok) (hcount : 0 < groupCount)
    (htotal : ∀ start ctx, (E.run start .unanchored ctx).isSome) {n i e a : ℕ} (hok : ok M.ctx)
    (hM : M.At E i e) (hie : i ≤ e) (he : e ≤ m.stop) (ha : M.lastAppendPosition = a) (hai : a ≤ i)
    (hn : m.stop + 1 < n + nextStart i e) :
    (replaceLoop E m start groupCount groupZero n M).isSome := by
  induction n generalizing M i e a with
  | zero =>
    unfold nextStart at hn
    split_ifs at hn <;> omega
  | succ n ih =>
    obtain ⟨⟨b, ctx⟩, hrun⟩ := isSome_iff_exists.1 (htotal (nextStart i e) M.ctx)
    have hfind := matcherMatch_of_run (M := { M with lastAppendPosition := (e : ℤ) }) hrun
    rw [replaceLoop_succ n hM hie ha hai hcount, hfind, bind_some]
    cases b with
    | false => rfl
    | true =>
      obtain ⟨hok₁, i₁, e₁, hi₁, hie₁, he₁, hM₁⟩ :=
        hE.matcherMatch (M := { M with lastAppendPosition := e }) hok hfind
      have hlt : nextStart i e < nextStart i₁ e₁ := by
        unfold nextStart at hi₁ ⊢
        split_ifs at hi₁ ⊢ <;> omega
      have hrest := ih hok₁ hM₁ hie₁ he₁ rfl ((le_nextStart i e).trans hi₁)
        (by omega)
      simpa using hrest

/-- **Replacing every match by itself changes nothing**, if matches end where the engine says and
the region is the text. -/
theorem sgRegexReplaceAll_group_zero (hE : E.Exact m ok) (hok : ok M.ctx) (hcount : 0 < groupCount)
    (hstop : m.stop = m.text.length) :
    (∀ n out, sgRegexReplaceAll E m start groupCount groupZero n M = some out → out = m.text) ∧
      ((∀ start ctx, (E.run start .unanchored ctx).isSome) →
        sgRegexReplaceAll E m start groupCount groupZero (m.stop + 2) M = some m.text) := by
  have hfind : sgRegexFind E m start (resetMatcher E start M) none =
      matcherMatch E (resetMatcher E start M) start .unanchored := by
    have hnext : (resetMatcher E start M).nextIndex = start := by
      have hne : ¬ (start : ℤ) = -1 := by omega
      simp [SgMatcher.nextIndex, resetMatcher, hne]
    rw [sgRegexFind, hnext, if_neg (by omega), Int.toNat_natCast]
  have hok' : ok (resetMatcher E start M).ctx := hE.reset _ hok
  have hout : ∀ n out, sgRegexReplaceAll E m start groupCount groupZero n M = some out →
      out = m.text := by
    intro n out h
    obtain ⟨⟨b, M₁⟩, hmatch, h⟩ := bind_eq_some_iff.1 h
    obtain ⟨-, -, -, hlap⟩ := run_of_matcherMatch hmatch
    cases b with
    | false => exact (some.inj h).symm
    | true =>
      obtain ⟨hok₁, i, e, -, hie, he, hM₁⟩ := hE.matcherMatch hok' hmatch
      rw [show m.text = m.slice (0 : ℕ) m.stop by simp [Subject.slice, hstop]]
      exact replaceLoop_groupZero hE hcount hok₁ hM₁ hie he hlap
        (Nat.zero_le i) h
  refine ⟨hout, fun htotal => ?_⟩
  obtain ⟨out, h⟩ : ∃ out, sgRegexReplaceAll E m start groupCount groupZero (m.stop + 2) M =
      some out := by
    obtain ⟨⟨b, ctx⟩, hrun⟩ := isSome_iff_exists.1
      (htotal start (resetMatcher E start M).ctx)
    have hmatch := matcherMatch_of_run hrun
    rw [sgRegexReplaceAll, hfind, hmatch]
    cases b with
    | false => exact ⟨_, rfl⟩
    | true =>
      obtain ⟨hok₁, i, e, -, hie, he, hM₁⟩ := hE.matcherMatch hok' hmatch
      exact isSome_iff_exists.1
        (replaceLoop_isSome hE hcount htotal hok₁ hM₁ hie he rfl (Nat.zero_le i) (by
          omega))
  rw [h, hout _ _ h]

end

end Sagittarius.Regex
