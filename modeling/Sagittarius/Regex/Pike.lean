import Sagittarius.Regex.Machine

/-!
# The matcher without backtracking

`matcher_match0` of `regex_match.c`: it runs the threads of a program in lock step and keeps them
in queues that are ordered by preference and hold every instruction at most once.

* `addToThreadq` follows jumps, splits, saves and anchors with an explicit stack, `matchStep` reads
  a character, `matcherMatch0` is the search;
* `addToThreadq_eq` : the stack does a depth-first search of the instructions;
* `matchStep_fst`, `matchStep_snd` : what the threads of a queue do when they read a character;
* `Harmless` : what `wasword` says about the character before a position may be wrong, but the
  threads do not depend on it.
-/

namespace Sagittarius.Regex

open List ThreadMachine OrderedGraph Option

/-! ### Thread queues -/

/-- `thread_list_t`: the instructions of a queue in the order they were inserted, with the captures
of those that have a thread; the others are `filler`. -/
abbrev ThreadQ := List (ℕ × Option Caps)

/-- `add_state_t`: an instruction that is to be visited, or a capture to be restored. -/
inductive AddState where
  | visit (id : ℕ)
  | restore (j : ℕ) (cap : Option ℕ)

variable (P : List Inst)

/-- The loop of `add_to_threadq`, for `n` states at most. An opcode that does not belong here, an
internal error of the source, is dropped. -/
def addLoop (flags : Anchor → Bool) (p : ℕ) :
    ℕ → List AddState → ThreadQ → Caps → ThreadQ × Caps
  | 0, _, q, capture => (q, capture)
  | _, [], q, capture => (q, capture)
  | n + 1, .restore j cap :: stk, q, capture => addLoop flags p n stk q (capture.set j cap)
  | n + 1, .visit id :: stk, q, capture =>
    if id ∈ q.map Prod.fst then addLoop flags p n stk q capture
    else match opAt P id with
      | some (.jmp x) => addLoop flags p n (.visit x :: stk) (q ++ [(id, none)]) capture
      | some (.split x y) =>
        addLoop flags p n (.visit x :: .visit y :: stk) (q ++ [(id, none)]) capture
      | some (.save j) =>
        if h : j < capture.length then
          -- a dummy whose only job is to restore the capture
          addLoop flags p n (.visit (id + 1) :: .restore j capture[j] :: stk) (q ++ [(id, none)])
            (capture.set j (some p))
        else addLoop flags p n (.visit (id + 1) :: stk) (q ++ [(id, none)]) capture
      | some (.empty a) =>
        if flags a then addLoop flags p n (.visit (id + 1) :: stk) (q ++ [(id, none)]) capture
        else addLoop flags p n stk (q ++ [(id, none)]) capture
      | some (.consume _) | some .match =>
        addLoop flags p n stk (q ++ [(id, some capture)]) capture
      | _ => addLoop flags p n stk (q ++ [(id, none)]) capture

/-- `add_to_threadq`; the captures are as before afterwards. -/
def addToThreadq (flags : Anchor → Bool) (p id : ℕ) (capture : Caps) (q : ThreadQ) : ThreadQ :=
  (addLoop P flags p (2 * P.length + 1) [.visit id] q capture).1

/-! ### Matching -/

/-- The part of `match_ctx_t` that outlives a call of the matcher. -/
structure MatchCtx where
  /-- `match` -/
  captures : Caps
  matched : Bool
  lastp : ℕ
deriving DecidableEq

/-- The threads of the queue read `c`, the character before `p`. -/
def matchStep (u : Unicode) (flags : Anchor → Bool) (c : SgChar) (p : ℕ) :
    ThreadQ → ThreadQ → MatchCtx → ThreadQ × MatchCtx
  | [], nextq, ctx => (nextq, ctx)
  | (_, none) :: runq, nextq, ctx => matchStep u flags c p runq nextq ctx
  | (id, some capture) :: runq, nextq, ctx =>
    match P[id]? with
    | some ⟨.consume a, fl⟩ =>
      if instMatches u fl a c then
        matchStep u flags c p runq (addToThreadq P flags p (id + 1) capture nextq) ctx
      else matchStep u flags c p runq nextq ctx
    | some ⟨.match, _⟩ =>
      -- cut off the threads that can only find worse matches
      (nextq, { ctx with captures := capture.set 1 (some (p - 1)), matched := true })
    | _ => matchStep u flags c p runq nextq ctx

/-- `search_first_atom`, as an index -/
def searchFirstAtom : ℕ := P.findIdx fun i => match i.op with | .save _ => false | _ => true

/-- The instruction reads a character. -/
def canCheck (pc : ℕ) : Bool := match opAt P pc with | some (.consume _) => true | _ => false

/-- `inst_matches` for the instruction at an address -/
def matchesAt (u : Unicode) (pc : ℕ) (c : SgChar) : Bool :=
  match P[pc]? with
  | some ⟨.consume a, fl⟩ => instMatches u fl a c
  | _ => false

/-- The first instructions of a program that starts with reading a character. -/
def firstAtoms : Option (List ℕ) :=
  match opAt P (searchFirstAtom P) with
  | some (.split x y) => if canCheck P x && canCheck P y then some [x, y] else none
  | _ => if canCheck P (searchFirstAtom P) then some [searchFirstAtom P] else none

/-- The loop of `precheck` -/
def skipTo (m : Subject) (ok : SgChar → Bool) : ℕ → ℕ → ℕ
  | 0, p => p
  | n + 1, p => if ok (m.charAt p) then p else skipTo m ok n (p + 1)

/-- Move on to a character that the program can start with. -/
def precheck (m : Subject) (p : ℕ) : ℕ :=
  match firstAtoms P with
  | some ids => skipTo m (fun c => ids.any fun id => matchesAt P m.u id c) (m.stop - p) p
  | none => p

/-- The `Empty` flags at a position -/
def emptyFlags (m : Subject) (p : ℕ) (isword wasword : Bool) : Anchor → Bool
  | .startAnchor => p = 0 || p ≤ m.stop && m.charAt (p - 1) = chr '\n'
  | .modelessStartAnchor => p = 0
  | .endAnchor => p = m.stop || p < m.stop && m.charAt p = chr '\n'
  | .modelessEndAnchor => p = m.stop || p + 1 = m.stop && m.charAt p = chr '\n'
  | .modelessEndAnchorNoNewline => p = m.stop
  | .wordBoundary => isword != wasword
  | .nonWordBoundary => isword == wasword

/-- The flags of the first instruction, which tell what a word is. -/
def firstFlags : Flags := match P with | [] => Prog.noFlags | inst :: _ => inst.flags

/-- `enum Anchor`: where a match has to begin and end. -/
inductive Anchoring where
  | unanchored
  | anchorStart
  | anchorBoth
deriving DecidableEq

/-- The loop of `matcher_match0`; every round moves `p`, so that `n` rounds are enough. -/
def matchLoop (m : Subject) (bp : ℕ) (anchor : Anchoring) :
    ℕ → ℕ → ThreadQ → SgChar → Bool → MatchCtx → MatchCtx
  | 0, _, _, _, _, ctx => ctx
  | n + 1, p, runq, c, wasword, ctx =>
    let isword := p < m.stop && iswordchar m.u (firstFlags P) (m.charAt p)
    let flag := emptyFlags m p isword wasword
    let (runq, ctx) := matchStep P m.u flag c p runq [] ctx
    if m.stop < p then ctx
    else
      -- start a new thread if there have not been any matches
      let starting := !ctx.matched && (anchor = .unanchored || p = bp)
      let p := if starting && runq.isEmpty then precheck P m p else p
      let runq :=
        if starting then addToThreadq P flag p 0 (ctx.captures.set 0 (some p)) runq else runq
      let ctx := if starting then { ctx with captures := ctx.captures.set 0 none } else ctx
      -- if all the threads have died, stop early
      if runq.isEmpty then ctx
      else matchLoop m bp anchor n (p + 1) runq (if m.stop ≤ p then 0 else m.charAt p) isword
        { ctx with lastp := p }

/-- `finish_match`, and the start of the match that it sets -/
def finishMatch (m : Subject) (anchor : Anchoring) (ctx : MatchCtx) : MatchCtx :=
  if ctx.matched && anchor ≠ .unanchored && ctx.lastp ≠ m.stop then { ctx with matched := false }
  else ctx

/-- The search with threads. -/
def matcherMatch0 (m : Subject) (start : ℕ) (anchor : Anchoring) (ctx : MatchCtx) : MatchCtx :=
  finishMatch m anchor
    (matchLoop P m start anchor (m.stop + 2 - start) (precheck P m start) [] 0 false ctx)

/-! ### The stack -/

variable {P} {flags : Anchor → Bool} {p : ℕ}

/-- What is on the stack, one entry after the other. -/
def runStack (G : OrderedGraph ℕ Caps) : List AddState → ThreadQ → Caps → ThreadQ × Caps
  | [], q, capture => (q, capture)
  | .restore j cap :: stk, q, capture => runStack G stk q (capture.set j cap)
  | .visit id :: stk, q, capture => runStack G stk (G.search (id, capture) q) capture

theorem lt_length_of_opAt {id : ℕ} {op : Op} (h : opAt P id = some op) : id < P.length := by
  obtain ⟨inst, hinst, -⟩ := map_eq_some_iff.1 h
  exact (List.getElem?_eq_some_iff.1 hinst).1

theorem addLoop_eq (n : ℕ) (stk : List AddState) (q : ThreadQ) (capture : Caps)
    (h : stk.length + 2 * (graph P flags p).remaining (q.map Prod.fst) ≤ n) :
    addLoop P flags p n stk q capture = runStack (graph P flags p) stk q capture := by
  induction n generalizing stk q capture with
  | zero =>
    obtain rfl : stk = [] := length_eq_zero_iff.1 (by omega)
    rfl
  | succ n ih =>
    match stk, h with
    | [], _ => rfl
    | .restore j cap :: stk, h =>
      exact ih _ _ _ (by simp at h; omega)
    | .visit id :: stk, h =>
      rw [length_cons] at h
      rw [addLoop, runStack]
      by_cases hid : id ∈ q.map Prod.fst
      · rw [if_pos hid, search_of_mem _ hid]
        exact ih _ _ _ (by omega)
      · rw [if_neg hid]
        -- the queue grows, by an instruction that has not been in it
        have hle : ∀ c, (graph P flags p).remaining ((q ++ [(id, c)]).map Prod.fst) ≤
            (graph P flags p).remaining (q.map Prod.fst) := fun c =>
          remaining_le fun u hu => by simp [hu]
        have hinner : ∀ {op stk'} capture', opAt P id = some op → stk'.length ≤ stk.length + 2 →
            addLoop P flags p n stk' (q ++ [(id, none)]) capture' =
              runStack (graph P flags p) stk' (q ++ [(id, none)]) capture' := by
          intro op stk' capture' hop hlen
          have hmem := Finset.mem_range.2 (lt_length_of_opAt hop)
          have hlt := (remaining_snoc (G := graph P flags p) id).trans_lt
            (remaining_cons_lt hmem hid)
          exact ih _ _ _ (by omega)
        have hsearch : stops P id = false → (graph P flags p).search (id, capture) q =
            (follow P flags p id capture).foldl (fun q w => (graph P flags p).search w q)
              (q ++ [(id, none)]) := fun hs => search_inner capture hid hs
        split
        next x hop =>
          rw [hinner _ hop (by simp), hsearch (by simp [stops, hop])]
          simp [follow, hop, runStack]
        next x y hop =>
          rw [hinner _ hop (by simp), hsearch (by simp [stops, hop])]
          simp [follow, hop, runStack]
        next j hop =>
          rw [hsearch (by simp [stops, hop])]
          split
          next hj =>
            rw [hinner _ hop (by simp)]
            simp [follow, hop, runStack]
          next hj =>
            rw [hinner _ hop (by simp)]
            simp [follow, hop, runStack, set_eq_of_length_le (Nat.le_of_not_lt hj)]
        next a hop =>
          rw [hsearch (by simp [stops, hop])]
          split
          next ha =>
            rw [hinner _ hop (by simp)]
            simp [follow, hop, runStack, ha]
          next ha =>
            rw [hinner _ hop (by simp)]
            simp [follow, hop, ha]
        next a hop =>
          have := hle (some capture)
          rw [ih _ _ _ (by omega), search_leaf _ hid (by simp [graph, stops, hop])]
        next hop =>
          have := hle (some capture)
          rw [ih _ _ _ (by omega), search_leaf _ hid (by simp [graph, stops, hop])]
        next hjmp hsplit hsave hempty hconsume hmatch =>
          have hstops : stops P id = false := by
            unfold stops
            split <;> simp_all
          have hfollow : follow P flags p id capture = [] := by
            unfold follow
            split <;> simp_all
          have := hle none
          rw [ih _ _ _ (by omega), hsearch hstops, hfollow, foldl_nil]

theorem addToThreadq_eq (id : ℕ) (capture : Caps) (q : ThreadQ) :
    addToThreadq P flags p id capture q = (graph P flags p).search (id, capture) q := by
  have hcard := remaining_lt (G := graph P flags p) (q.map Prod.fst)
  rw [addToThreadq, addLoop_eq]
  · rfl
  · have : (graph P flags p).inner.card = P.length := Finset.card_range _
    simp only [length_singleton]
    omega

/-! ### A step -/

/-- The anchor matches at `p`, where words are not followed back behind `b`. -/
def Subject.holdsFrom (m : Subject) (b p : ℕ) : Anchor → Bool
  | .wordBoundary => m.wordAt p != (b < p && m.wordBefore p)
  | .nonWordBoundary => m.wordAt p == (b < p && m.wordBefore p)
  | a => m.holds a p

theorem Subject.holdsFrom_zero (m : Subject) : m.holdsFrom 0 = fun p a => m.holds a p := by
  funext p a
  cases a <;> simp [holdsFrom, holds, wordBefore]

/-- The program on a text. -/
abbrev textMachine (P : List Inst) (m : Subject) (b : ℕ) (init : Caps) : ThreadMachine ℕ Caps :=
  machine P m (m.holdsFrom b) init

section

variable {m : Subject} {b : ℕ} {init : Caps} {u : Unicode} {c : SgChar} {runq nextq : ThreadQ}
  {ctx : MatchCtx}

theorem leaves_cons_some (id : ℕ) (capture : Caps) (q : ThreadQ) :
    leaves ((id, some capture) :: q) = (id, capture) :: leaves q := rfl

theorem opAt_ne_match {id : ℕ} (h : ∀ fl, P[id]? ≠ some ⟨.match, fl⟩) :
    opAt P id ≠ some .match := by
  intro hop
  obtain ⟨⟨op, fl⟩, hinst, rfl⟩ := map_eq_some_iff.1 hop
  exact h fl hinst

theorem reads_eq_false {q id : ℕ} (h : ∀ a fl, P[id]? = some ⟨.consume a, fl⟩ → False) :
    reads P m q id = false := by
  unfold reads
  split
  next a fl hinst => exact (h a fl hinst).elim
  next => rfl

/-- A thread at `RX_MATCH` is the match; the character is not looked at. -/
theorem matchStep_snd (m : Subject) (b : ℕ) (init : Caps) :
    (matchStep P u flags c p runq nextq ctx).2 =
      match (textMachine P m b init).found (p - 1) (leaves runq) with
      | some (q, capture) => { ctx with captures := capture.set 1 (some q), matched := true }
      | none => ctx := by
  fun_induction matchStep P u flags c p runq nextq ctx with
  | case1 => rfl
  | case2 id runq nextq ctx ih => exact ih
  | case3 id capture runq nextq ctx a fl hinst hc ih
  | case4 id capture runq nextq ctx a fl hinst hc ih =>
    simpa [leaves_cons_some, ThreadMachine.found, machine, opAt, hinst] using ih
  | case5 id capture runq nextq ctx fl hinst =>
    simp [leaves_cons_some, ThreadMachine.found, machine, opAt, hinst]
  | case6 id capture runq nextq ctx hconsume hmatch ih =>
    have hop : opAt P id ≠ some .match := opAt_ne_match fun fl h => hmatch fl h
    simpa [leaves_cons_some, ThreadMachine.found, machine, hop] using ih

theorem preferred_cons_of_ne {id : ℕ} {capture : Caps} {T : List (ℕ × Caps)}
    (h : opAt P id ≠ some .match) :
    (textMachine P m b init).preferred ((id, capture) :: T) =
      (id, capture) :: (textMachine P m b init).preferred T := by
  simp [preferred, machine, h]

theorem matchStep_fst {q : ℕ} (hq : q < m.stop) (b : ℕ) (init : Caps) :
    (matchStep P m.u flags (m.charAt q) (q + 1) runq nextq ctx).1 =
      (((textMachine P m b init).preferred (leaves runq)).filter fun t => reads P m q t.1).foldl
        (fun nextq t => addToThreadq P flags (q + 1) (t.1 + 1) t.2 nextq) nextq := by
  fun_induction matchStep P m.u flags (m.charAt q) (q + 1) runq nextq ctx with
  | case1 nextq ctx => rfl
  | case2 id runq nextq ctx ih => exact ih
  | case3 id capture runq nextq ctx a fl hinst hc ih =>
    have hreads : reads P m q id := by simp [reads, hinst, hq, hc]
    rw [leaves_cons_some, preferred_cons_of_ne (by simp [opAt, hinst]), filter_cons,
      if_pos hreads]
    exact ih
  | case4 id capture runq nextq ctx a fl hinst hc ih =>
    have hreads : ¬ reads P m q id := by simp [reads, hinst, hc]
    rw [leaves_cons_some, preferred_cons_of_ne (by simp [opAt, hinst]), filter_cons,
      if_neg hreads]
    exact ih
  | case5 id capture runq nextq ctx fl hinst =>
    simp [leaves_cons_some, preferred, machine, opAt, hinst]
  | case6 id capture runq nextq ctx hconsume hmatch ih =>
    have hreads : ¬ reads P m q id := by simp [reads_eq_false hconsume]
    rw [leaves_cons_some, preferred_cons_of_ne (opAt_ne_match fun fl h => hmatch fl h), filter_cons,
      if_neg hreads]
    exact ih

theorem searched_foldl {q : ℕ} {nextq : ThreadQ} (init : Caps)
    (hnextq : (graph P flags (q + 1)).Closed [] nextq) (T : List (ℕ × Caps))
    (hflags : ∀ t ∈ T, reads P m q t.1 → ∀ caps,
      extendBy [] (closure P flags (q + 1) (t.1 + 1) caps) =
        extendBy [] (closure P (m.holdsFrom b (q + 1)) (q + 1) (t.1 + 1) caps)) :
    OrderedGraph.Searched (graph P flags (q + 1)) [] nextq
      ((T.filter fun t => reads P m q t.1).foldl
        (fun nextq t => addToThreadq P flags (q + 1) (t.1 + 1) t.2 nextq) nextq)
      (T.flatMap ((textMachine P m b init).next q)) := by
  induction T generalizing nextq with
  | nil => exact .refl hnextq
  | cons t T ih =>
    rw [flatMap_cons]
    have ih := fun nextq h => @ih nextq h fun t ht => hflags t (mem_cons_of_mem _ ht)
    by_cases hreads : reads P m q t.1
    · have hnext : (textMachine P m b init).next q t =
          closure P (m.holdsFrom b (q + 1)) (q + 1) (t.1 + 1) t.2 := if_pos hreads
      have hs := search_spec (t.1 + 1, t.2) hnextq
      rw [filter_cons, if_pos hreads, foldl_cons, addToThreadq_eq, hnext]
      exact (hs.congr (hflags t (mem_cons_self ..) hreads t.2)).trans (ih _ hs.closed)
    · have hnext : (textMachine P m b init).next q t = [] := if_neg hreads
      rw [filter_cons, if_neg hreads, hnext]
      exact ih _ hnextq

/-! ### Anchors -/

theorem graph_congr {φ ψ : Anchor → Bool} (h : ∀ a, (∃ inst ∈ P, inst.op = .empty a) → φ a = ψ a) :
    graph P φ p = graph P ψ p := by
  have hnext : follow P φ p = follow P ψ p := by
    funext pc caps
    unfold follow
    split
    next => rfl
    next => rfl
    next => rfl
    next a hop =>
      obtain ⟨inst, hinst, hop⟩ := map_eq_some_iff.1 hop
      rw [h a ⟨inst, mem_of_getElem? hinst, hop⟩]
    next => rfl
  simp only [graph, hnext]

theorem emptyFlags_eq_holdsFrom (hp : p ≤ m.stop) (a : Anchor) :
    emptyFlags m p (m.wordAt p) (b < p && m.wordBefore p) a = m.holdsFrom b p a := by
  cases a <;> simp [emptyFlags, Subject.holdsFrom, Subject.holds, hp]

/-- The program does not ask for word boundaries. -/
def NoWordBoundary (P : List Inst) : Prop :=
  ∀ inst ∈ P, inst.op ≠ .empty .wordBoundary ∧ inst.op ≠ .empty .nonWordBoundary

instance : Decidable (NoWordBoundary P) := inferInstanceAs (Decidable (∀ _ ∈ _, _))

/-- What is believed about the character before `p` does no harm to a thread that goes on at `pc`:
it turns into the same threads as with the truth, whatever it has captured. -/
def Harmless (P : List Inst) (m : Subject) (b p : ℕ) (wasword : Bool) (pc : ℕ) : Prop :=
  ∀ caps, extendBy [] (closure P (emptyFlags m p (m.wordAt p) wasword) p pc caps) =
    extendBy [] (closure P (m.holdsFrom b p) p pc caps)

theorem harmless_of_eq {wasword : Bool} (hp : p ≤ m.stop)
    (h : wasword = (b < p && m.wordBefore p)) (pc : ℕ) : Harmless P m b p wasword pc := by
  have hflags : emptyFlags m p (m.wordAt p) wasword = m.holdsFrom b p := by
    funext a
    rw [h, emptyFlags_eq_holdsFrom hp]
  intro caps
  rw [hflags]

theorem NoWordBoundary.harmless (h : NoWordBoundary P) (hp : p ≤ m.stop) (wasword : Bool)
    (pc : ℕ) : Harmless P m b p wasword pc := by
  have hgraph : graph P (emptyFlags m p (m.wordAt p) wasword) p = graph P (m.holdsFrom b p) p := by
    refine graph_congr fun a ⟨inst, hinst, hop⟩ => ?_
    rw [← emptyFlags_eq_holdsFrom hp]
    cases a
    case wordBoundary => exact absurd hop (h inst hinst).1
    case nonWordBoundary => exact absurd hop (h inst hinst).2
    all_goals rfl
  intro caps
  exact congrArg (fun G => extendBy [] (allPaths G pc caps)) hgraph

end

end Sagittarius.Regex
