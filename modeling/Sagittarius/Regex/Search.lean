import Sagittarius.Regex.Pike

/-!
# The search in lock step

`matcher_match0` skips characters that the program cannot start with, keeps queues with fillers and
stops early; what it finds is what the abstract search of `Library.Lockstep` finds.

The anchors have to be evaluated as they should.  Two things can be wrong.  At the start index the
search takes it that there is no word before.  And where no thread reads the last character, the
search skips characters, and goes on with what it knows about the first of them instead of the last
(`SkipSafe` : this does no harm).

* `closure_of_firstAtoms`, `lock_precheck` : skipping does not lose a match;
* `matchLoop_eq_lock` : the loop is the abstract search, from any round on;
* `matcherMatch0_eq_lock` : so is the whole search.
-/

namespace Sagittarius.Regex

open ThreadMachine OrderedGraph Option List

variable {P : List Inst} {m : Subject} {b : ℕ} {init : Caps} {p : ℕ}

/-! ### Programs that start with reading a character -/

variable {pc : ℕ}

theorem opAt_of_canCheck (h : canCheck P pc) : ∃ a, opAt P pc = some (.consume a) := by
  unfold canCheck at h
  split at h
  next a hop => exact ⟨a, hop⟩
  next => cases h

theorem stops_of_canCheck (h : canCheck P pc) : stops P pc := by
  obtain ⟨a, hop⟩ := opAt_of_canCheck h
  simp [stops, hop]

theorem opAt_of_lt_searchFirstAtom (h : pc < searchFirstAtom P) :
    ∃ j, opAt P pc = some (.save j) := by
  have hlt : pc < P.length := h.trans_le findIdx_le_length
  have hsave := not_of_lt_findIdx h
  rw [opAt, getElem?_eq_getElem hlt, map_some]
  revert hsave
  cases P[pc].op <;> simp

theorem paths_of_saves {S : List ℕ} {k : ℕ} (n : ℕ) (caps : Caps) (hpc : pc + k = searchFirstAtom P)
    (hS : ∀ s ∈ S, s < pc) :
    ∃ caps' S', (∀ s ∈ S', s < searchFirstAtom P) ∧ ∀ hold,
      (graph P hold p).paths (n + k) S pc caps =
        (graph P hold p).paths n S' (searchFirstAtom P) caps' := by
  induction k generalizing pc S caps with
  | zero => exact ⟨caps, S, fun s hs => hpc ▸ hS s hs, fun hold => by rw [← hpc]; rfl⟩
  | succ k ih =>
    have hlt : pc < searchFirstAtom P := by omega
    obtain ⟨j, hop⟩ := opAt_of_lt_searchFirstAtom hlt
    have hpcS : ∀ s ∈ pc :: S, s < pc + 1 := by
      simpa using fun s hs => Nat.lt_succ_of_lt (hS s hs)
    obtain ⟨caps', S', hS', h⟩ := ih (caps.set j (some p)) (by omega) hpcS
    refine ⟨caps', S', hS', fun hold => ?_⟩
    rw [← Nat.add_assoc, paths, if_neg fun hmem => Nat.lt_irrefl _ (hS pc hmem),
      if_neg (by simp [graph, stops, hop]), ← h hold]
    simp [graph, follow, hop]

/-- A program that starts with reading a character has its threads at its first atoms, whatever the
anchors are. -/
theorem closure_of_firstAtoms {ids : List ℕ} (h : firstAtoms P = some ids) (p : ℕ) (caps : Caps) :
    (∀ id ∈ ids, canCheck P id) ∧
      ∃ caps', ∀ hold, closure P hold p 0 caps = ids.map fun id => (id, caps') := by
  have hlt : searchFirstAtom P < P.length := by
    by_contra hge
    have : opAt P (searchFirstAtom P) = none := by
      simp [opAt, getElem?_eq_none (Nat.le_of_not_lt hge)]
    simp [firstAtoms, this, canCheck] at h
  obtain ⟨n, hn⟩ : ∃ n, P.length + 1 = n + 2 + searchFirstAtom P :=
    ⟨P.length - 1 - searchFirstAtom P, by omega⟩
  obtain ⟨caps', S, hS, hpaths⟩ := paths_of_saves (S := []) (n + 2) caps
    (Nat.zero_add _) nofun
  have hclosure : ∀ hold, closure P hold p 0 caps =
      (graph P hold p).paths (n + 2) S (searchFirstAtom P) caps' := fun hold => by
    rw [closure, allPaths, ← hpaths hold, ← hn]
    simp [graph]
  have hnotin : ∀ id, canCheck P id → id ∉ S := fun id hid hmem => by
    obtain ⟨j, hop⟩ := opAt_of_lt_searchFirstAtom (hS id hmem)
    simp [canCheck, hop] at hid
  have hfirst : searchFirstAtom P ∉ S := fun hmem => Nat.lt_irrefl _ (hS _ hmem)
  unfold firstAtoms at h
  split at h
  next x y hop =>
    split_ifs at h with hxy
    obtain rfl := some.inj h
    rw [Bool.and_eq_true] at hxy
    refine ⟨by simpa using hxy, caps', fun hold => ?_⟩
    have hleaf : ∀ id, canCheck P id → (graph P hold p).paths (n + 1) (searchFirstAtom P :: S) id
        caps' = [(id, caps')] := fun id hid => by
      have hne : id ≠ searchFirstAtom P := by
        rintro rfl
        simp [canCheck, hop] at hid
      rw [paths, if_neg (by simp [hne, hnotin id hid]),
        if_pos (by simpa [graph] using stops_of_canCheck hid)]
    have hnext : (graph P hold p).next (searchFirstAtom P) caps' = [(x, caps'), (y, caps')] := by
      simp [graph, follow, hop]
    rw [hclosure, paths, if_neg hfirst, if_neg (by simp [graph, stops, hop]), hnext]
    simp [hleaf x hxy.1, hleaf y hxy.2]
  next =>
    split_ifs at h with hcheck
    obtain rfl := some.inj h
    refine ⟨by simpa using hcheck, caps', fun hold => ?_⟩
    rw [hclosure, paths, if_neg hfirst,
      if_pos (by simpa [graph] using stops_of_canCheck hcheck)]
    rfl

theorem le_skipTo (ok : SgChar → Bool) (n p : ℕ) : p ≤ skipTo m ok n p := by
  induction n generalizing p with
  | zero => exact le_rfl
  | succ n ih =>
    rw [skipTo]
    split_ifs
    · exact le_rfl
    · exact (Nat.le_succ p).trans (ih (p + 1))

theorem le_precheck (p : ℕ) : p ≤ precheck P m p := by
  unfold precheck
  split
  · exact le_skipTo _ _ _
  · exact le_rfl

theorem precheck_of_firstAtoms (h : firstAtoms P = none) (p : ℕ) : precheck P m p = p := by
  simp [precheck, h]

theorem reads_eq_matchesAt (hp : p < m.stop) (pc : ℕ) :
    reads P m p pc = matchesAt P m.u pc (m.charAt p) := by
  unfold reads matchesAt
  rcases P[pc]? with _ | ⟨op, flags⟩
  · rfl
  · cases op with
    | consume a => simp [hp]
    | _ => rfl

theorem skipTo_skipTo (ok : SgChar → Bool) (n p : ℕ) :
    skipTo m ok (p + n - skipTo m ok n p) (skipTo m ok n p) = skipTo m ok n p := by
  induction n generalizing p with
  | zero => simp [skipTo]
  | succ n ih =>
    by_cases hok : ok (m.charAt p)
    · have h : skipTo m ok (n + 1) p = p := if_pos hok
      rw [h, Nat.add_sub_cancel_left, h]
    · have h : skipTo m ok (n + 1) p = skipTo m ok n (p + 1) := if_neg hok
      rw [h, show p + (n + 1) = p + 1 + n by omega, ih]

theorem precheck_precheck (hp : p ≤ m.stop) :
    precheck P m (precheck P m p) = precheck P m p := by
  cases h : firstAtoms P with
  | none => rw [precheck_of_firstAtoms h, precheck_of_firstAtoms h]
  | some ids =>
    have := skipTo_skipTo (m := m) (fun c => ids.any fun id => matchesAt P m.u id c) (m.stop - p) p
    rw [Nat.add_sub_cancel' hp] at this
    simpa only [precheck, h] using this

/-- Where no first atom reads the character, a thread that is started does not get any further. -/
theorem spawn_stuck {ids : List ℕ} (hids : firstAtoms P = some ids) (hp : p < m.stop)
    (hok : ¬ (ids.any fun id => matchesAt P m.u id (m.charAt p)) = true) :
    (textMachine P m b init).Stuck p (extendBy [] ((textMachine P m b init).spawn p)) := by
  intro t ht
  obtain ⟨hcheck, caps', hclosure⟩ := closure_of_firstAtoms hids p (init.set 0 (some p))
  have hmem := (mem_of_mem_extendBy ht).resolve_left not_mem_nil
  rw [show (textMachine P m b init).spawn p = _ from hclosure _] at hmem
  obtain ⟨id, hid, rfl⟩ := mem_map.1 hmem
  obtain ⟨a, hop⟩ := opAt_of_canCheck (hcheck id hid)
  refine ⟨by simp [machine, hop], ?_⟩
  have hno : matchesAt P m.u id (m.charAt p) = false := by
    simpa using fun h => hok (any_eq_true.2 ⟨id, hid, h⟩)
  exact (reads_eq_matchesAt hp id).trans hno

/-- What holds where skipping starts holds where it ends, if it is kept by going on from a position
where the threads that are started are stuck. -/
theorem precheck_rule {C : ℕ → Prop} (b : ℕ) (init : Caps) (hp : p ≤ m.stop) (hstart : C p)
    (hskip : ∀ q < m.stop, (textMachine P m b init).Stuck q
      (extendBy [] ((textMachine P m b init).spawn q)) → C q → C (q + 1)) :
    C (precheck P m p) := by
  unfold precheck
  split
  next ids hids =>
    obtain ⟨n, hn⟩ : ∃ n, m.stop - p = n := ⟨_, rfl⟩
    rw [hn]
    induction n generalizing p with
    | zero => exact hstart
    | succ n ih =>
      rw [skipTo]
      split_ifs with hok
      · exact hstart
      · have hlt : p < m.stop := by omega
        exact ih hlt (hskip p hlt (spawn_stuck hids hlt hok) hstart) (by omega)
  next => exact hstart

theorem precheck_le (hp : p ≤ m.stop) : precheck P m p ≤ m.stop :=
  precheck_rule (C := (· ≤ m.stop)) 0 [] hp hp fun _ hlt _ _ => hlt

/-- **Skipping loses nothing** in a search that starts threads later. -/
theorem lock_precheck (hp : p ≤ m.stop) :
    (textMachine P m b init).lock true (m.stop - p) p
        (extendBy [] ((textMachine P m b init).spawn p)) none =
      (textMachine P m b init).lock true (m.stop - precheck P m p) (precheck P m p)
        (extendBy [] ((textMachine P m b init).spawn (precheck P m p))) none := by
  refine precheck_rule (C := fun q => _ = (textMachine P m b init).lock true (m.stop - q) q
    (extendBy [] ((textMachine P m b init).spawn q)) none) b init hp rfl ?_
  intro q hlt hstuck h
  rw [h, show m.stop - q = m.stop - (q + 1) + 1 by omega, hstuck.lock_true]

theorem lock_of_precheck_ne (b : ℕ) (init : Caps) (h : precheck P m p ≠ p) :
    ((textMachine P m b init).lock false (m.stop - p) p
        (extendBy [] ((textMachine P m b init).spawn p)) none).1 = none := by
  unfold precheck at h
  split at h
  next ids hids =>
    cases hn : m.stop - p with
    | zero => rw [hn] at h; exact absurd rfl h
    | succ n =>
      rw [hn, skipTo] at h
      split_ifs at h with hok
      · exact absurd rfl h
      · exact (spawn_stuck hids (by omega) hok).lock_false
  next => exact absurd rfl h

/-! ### The loop -/

/-- What is kept of the best match so far; `init` are the captures a search starts with. -/
structure Keeps (init : Caps) (best : Option (ℕ × Caps)) (ctx : MatchCtx) : Prop where
  matched : ctx.matched = best.isSome
  none_captures : best = none → ∀ cap, ctx.captures.set 0 cap = init.set 0 cap
  some_captures : ∀ e caps, best = some (e, caps) → ctx.captures = caps.set 1 (some e)

variable {flags : Anchor → Bool} {q : ℕ} {runq : ThreadQ} {best : Option (ℕ × Caps)}
  {ctx : MatchCtx}

/-- The loop ends with the best match and the position of the abstract search. -/
structure Ends (r : Option (ℕ × Caps) × ℕ) (ctx : MatchCtx) : Prop where
  matched : ctx.matched = r.1.isSome
  captures : ∀ e caps, r.1 = some (e, caps) → ctx.captures = caps.set 1 (some e)
  lastp : ctx.matched → ctx.lastp = r.2

theorem Keeps.ends (h : Keeps init best ctx) :
    Ends (best, ctx.lastp) ctx := ⟨h.matched, h.some_captures, fun _ => rfl⟩

theorem closed_nil (G : OrderedGraph ℕ Caps) (S : List ℕ) : G.Closed S [] := nofun

theorem addToThreadq_ne_nil {id : ℕ} {capture : Caps} {q : ThreadQ} :
    addToThreadq P flags p id capture q ≠ [] := by
  intro h
  have := mem_search_self (G := graph P flags p) (q := q) (id, capture)
  rw [← addToThreadq_eq, h] at this
  cases this

theorem wordAt_eq_wordBefore (hp : p < m.stop) : m.wordAt p = m.wordBefore (p + 1) := by
  simp [Subject.wordAt, Subject.wordBefore, hp]

section rounds

variable {bp n : ℕ} {anchor : Anchoring} {runq : ThreadQ} {c : SgChar} {wasword : Bool}
  {ctx : MatchCtx}

/-- The queue and the context after the threads have read a character. -/
def stepAt (P : List Inst) (m : Subject) (p : ℕ) (wasword : Bool) (c : SgChar) (runq : ThreadQ)
    (ctx : MatchCtx) : ThreadQ × MatchCtx :=
  matchStep P m.u (emptyFlags m p (m.wordAt p) wasword) c p runq [] ctx

/-- Threads are started in this round. -/
def startsAt (bp : ℕ) (anchor : Anchoring) (p : ℕ) (ctx : MatchCtx) : Bool :=
  !ctx.matched && (anchor = .unanchored || p = bp)

theorem matchLoop_behind (hflags : m.flags = firstFlags P) (hp : m.stop < p) :
    matchLoop P m bp anchor (n + 1) p runq c wasword ctx = (stepAt P m p wasword c runq ctx).2 := by
  simp only [matchLoop, hp, ↓reduceIte, stepAt, Subject.wordAt, hflags]

variable {st : ThreadQ × MatchCtx} (hflags : m.flags = firstFlags P) (hp : p ≤ m.stop)
  (hst : stepAt P m p wasword c runq ctx = st)

include hflags hp hst

theorem matchLoop_start (hstart : startsAt bp anchor p st.2) {p' : ℕ}
    (hp' : p' = if st.1 = [] then precheck P m p else p) :
    matchLoop P m bp anchor (n + 1) p runq c wasword ctx =
      matchLoop P m bp anchor n (p' + 1)
        (addToThreadq P (emptyFlags m p (m.wordAt p) wasword) p' 0
          (st.2.captures.set 0 (some p')) st.1)
        (if m.stop ≤ p' then 0 else m.charAt p') (m.wordAt p)
        { st.2 with captures := st.2.captures.set 0 none, lastp := p' } := by
  simp only [startsAt, stepAt, Subject.wordAt, hflags] at *
  simp only [matchLoop, Nat.not_lt.2 hp, ↓reduceIte, hst, hstart, Bool.true_and,
    List.isEmpty_iff, addToThreadq_ne_nil, ← hp']

theorem matchLoop_continue (hstart : startsAt bp anchor p st.2 = false) :
    matchLoop P m bp anchor (n + 1) p runq c wasword ctx =
      if st.1 = [] then st.2
      else matchLoop P m bp anchor n (p + 1) st.1
        (if m.stop ≤ p then 0 else m.charAt p) (m.wordAt p) { st.2 with lastp := p } := by
  simp only [startsAt, stepAt, Subject.wordAt, hflags] at *
  simp only [matchLoop, Nat.not_lt.2 hp, ↓reduceIte, hst, hstart, Bool.false_and,
    List.isEmpty_iff, Bool.false_eq_true]

end rounds

variable {anchor : Anchoring} {wasword : Bool}

theorem harmless_of_firstAtoms {ids : List ℕ} (h : firstAtoms P = some ids) (b p : ℕ)
    (wasword : Bool) : Harmless P m b p wasword 0 := by
  intro caps
  obtain ⟨-, caps', hclosure⟩ := closure_of_firstAtoms h p caps
  rw [hclosure, hclosure]

theorem closure_start (hword : Harmless P m b p wasword 0) {p' : ℕ}
    (hp' : p' = p ∨ p' = precheck P m p) :
    extendBy [] (closure P (emptyFlags m p (m.wordAt p) wasword) p' 0 (init.set 0 (some p'))) =
      extendBy [] ((textMachine P m b init).spawn p') := by
  cases h : firstAtoms P with
  | none =>
    obtain rfl : p' = p := hp'.elim id fun hp' => by rw [hp', precheck_of_firstAtoms h]
    exact hword _
  | some ids =>
    obtain ⟨-, caps', hclosure⟩ := closure_of_firstAtoms h p' (init.set 0 (some p'))
    rw [hclosure, ← hclosure (m.holdsFrom b p')]
    rfl

/-- What the search believes about the character before `q + 1` does no harm in this round, neither
to the threads that read the character at `q` nor to those that are started. -/
structure WordOk (P : List Inst) (m : Subject) (b q : ℕ) (wasword : Bool) (runq : ThreadQ) :
    Prop where
  start : Harmless P m b (q + 1) wasword 0
  step : ∀ t ∈ leaves runq, reads P m q t.1 → Harmless P m b (q + 1) wasword (t.1 + 1)

theorem wordOk_of_wordAt (hb : b ≤ q) (hlt : q < m.stop) (runq : ThreadQ) :
    WordOk P m b q (m.wordAt q) runq := by
  have hright : ∀ pc, Harmless P m b (q + 1) (m.wordAt q) pc := harmless_of_eq hlt (by
    simp [wordAt_eq_wordBefore hlt, Nat.lt_succ_of_le hb])
  exact ⟨hright 0, fun _ _ _ => hright _⟩

/-- The characters that a search from `start` on skips do no harm: where it is idle, the first atoms
that read the character behind them go on as they should. -/
def SkipSafe (P : List Inst) (m : Subject) (b start : ℕ) : Prop :=
  ∀ p, start < p → p ≤ m.stop → (textMachine P m b []).Idle start p → precheck P m p < m.stop →
    ∀ ids, firstAtoms P = some ids → ∀ id ∈ ids, reads P m (precheck P m p) id →
      Harmless P m b (precheck P m p + 1) (m.wordAt p) (id + 1)

theorem NoWordBoundary.skipSafe (h : NoWordBoundary P) (b start : ℕ) : SkipSafe P m b start :=
  fun _ _ _ _ hlt _ _ _ _ _ => h.harmless hlt _ _

theorem skipSafe_of_wordAt {b start : ℕ} (hb : b ≤ start)
    (h : ∀ p ≤ m.stop, start < p → precheck P m p < m.stop →
      m.wordAt p = m.wordAt (precheck P m p)) : SkipSafe P m b start := by
  intro p hstart hp _ hlt _ _ id _ _
  have := le_precheck (P := P) (m := m) p
  refine harmless_of_eq hlt ?_ (id + 1)
  simp only [h p hp hstart hlt, wordAt_eq_wordBefore hlt, show b < precheck P m p + 1 by omega,
    decide_true, Bool.true_and]

theorem textMachine_sameMoves (b : ℕ) (init init' : Caps) :
    (textMachine P m b init).SameMoves (textMachine P m b init') where
  accept := rfl
  reads := rfl
  succ := rfl
  spawn _ := OrderedGraph.paths_fst _ _ _ _ _

theorem SkipSafe.wordOk {start : ℕ} (hskip : SkipSafe P m b start) (hstart : start < p)
    (hp : p ≤ m.stop) (hb : b ≤ p) (hidle : (textMachine P m b init).Idle start p)
    (hlt : precheck P m p < m.stop)
    (hq : leaves runq = extendBy [] ((textMachine P m b init).spawn (precheck P m p))) :
    WordOk P m b (precheck P m p) (m.wordAt p) runq := by
  cases hids : firstAtoms P with
  | none =>
    rw [precheck_of_firstAtoms hids] at hlt ⊢
    exact wordOk_of_wordAt hb hlt runq
  | some ids =>
    refine ⟨harmless_of_firstAtoms hids _ _ _, fun t ht hreads => ?_⟩
    obtain ⟨-, caps', hclosure⟩ := closure_of_firstAtoms hids (precheck P m p)
      (init.set 0 (some (precheck P m p)))
    rw [hq] at ht
    have hmem := (mem_of_mem_extendBy ht).resolve_left not_mem_nil
    rw [show (textMachine P m b init).spawn _ = _ from hclosure _] at hmem
    obtain ⟨id, hid, rfl⟩ := mem_map.1 hmem
    exact hskip p hstart hp ((textMachine_sameMoves b [] init).idle hidle) hlt ids hids id hid
      hreads

section round

variable {q : ℕ} {anchor : Anchoring} {wasword : Bool} {runq : ThreadQ}
  {best : Option (ℕ × Caps)} {ctx : MatchCtx}

theorem Keeps.stepAt (h : Keeps init best ctx) (wasword : Bool) (c : SgChar) (runq : ThreadQ) :
    Keeps init (((textMachine P m b init).found q (leaves runq)).or best)
      (stepAt P m (q + 1) wasword c runq ctx).2 := by
  rw [Regex.stepAt, matchStep_snd m b init, Nat.add_sub_cancel]
  cases hfound : (textMachine P m b init).found q (leaves runq) with
  | none => exact h
  | some r =>
    refine ⟨rfl, nofun, fun e' caps' heq => ?_⟩
    obtain ⟨rfl, rfl⟩ := Prod.mk.inj (some.inj heq)
    rfl

theorem stepAt_lastp (wasword : Bool) (c : SgChar) (runq : ThreadQ) :
    (stepAt P m p wasword c runq ctx).2.lastp = ctx.lastp := by
  rw [stepAt, matchStep_snd m 0 []]
  split <;> rfl

theorem leaves_stepAt (init : Caps) (runq : ThreadQ) (ctx : MatchCtx) (hq : q < m.stop)
    (hword : WordOk P m b q wasword runq) :
    OrderedGraph.Searched (graph P (emptyFlags m (q + 1) (m.wordAt (q + 1)) wasword) (q + 1)) [] []
      (stepAt P m (q + 1) wasword (m.charAt q) runq ctx).1
      (((textMachine P m b init).preferred (leaves runq)).flatMap
        ((textMachine P m b init).next q)) := by
  rw [stepAt, matchStep_fst hq b init]
  exact searched_foldl init (closed_nil _ _) _ fun t ht =>
    hword.step t (takeWhile_subset _ ht)

theorem stepAt_eq_nil (P : List Inst) (b : ℕ) (init : Caps) (wasword : Bool) (runq : ThreadQ)
    (ctx : MatchCtx) (hq : q < m.stop) :
    (stepAt P m (q + 1) wasword (m.charAt q) runq ctx).1 = [] ↔
      ((textMachine P m b init).preferred (leaves runq)).any
        (fun t => (textMachine P m b init).reads q t.1) = false := by
  rw [stepAt, matchStep_fst hq b init, List.any_eq_false, ← List.filter_eq_nil_iff]
  change _ ↔ List.filter (fun t : ℕ × Caps => reads P m q t.1) _ = []
  generalize filter _ _ = T
  rcases T.eq_nil_or_concat with rfl | ⟨T, t, rfl⟩
  · exact iff_of_true rfl rfl
  · rw [concat_eq_append, foldl_append]
    exact iff_of_false addToThreadq_ne_nil (by simp)

theorem Keeps.restart (h : Keeps init none ctx) (p : ℕ) :
    Keeps init none { ctx with captures := ctx.captures.set 0 none, lastp := p } := by
  refine ⟨h.matched, fun _ cap => ?_, nofun⟩
  rw [set_set, h.none_captures rfl]

theorem leaves_start {nextq : ThreadQ} {found : List (ℕ × Caps)}
    (hword : Harmless P m b p wasword 0) {p' : ℕ}
    (hp' : p' = if nextq = [] then precheck P m p else p) (hctx : Keeps init none ctx)
    (hq : OrderedGraph.Searched (graph P (emptyFlags m p (m.wordAt p) wasword) p) [] [] nextq
      found) :
    leaves (addToThreadq P (emptyFlags m p (m.wordAt p) wasword) p' 0
        (ctx.captures.set 0 (some p')) nextq) =
      extendBy (leaves nextq) ((textMachine P m b init).spawn p') := by
  have hclosed : (graph P (emptyFlags m p (m.wordAt p) wasword) p').Closed [] nextq := by
    split_ifs at hp' with h
    · exact h ▸ closed_nil _ _
    · exact hp' ▸ hq.closed
  have hstart : p' = p ∨ p' = precheck P m p := by
    split_ifs at hp'
    exacts [.inr hp', .inl hp']
  rw [addToThreadq_eq, hctx.none_captures rfl,
    (search_spec _ hclosed).leaves_eq]
  exact extendBy_congr (closure_start hword hstart)

theorem lock_start {nextq : ThreadQ} {found : List (ℕ × Caps)} (hp : p ≤ m.stop)
    {p' : ℕ} (hp' : p' = if nextq = [] then precheck P m p else p)
    (hq : leaves nextq = extendBy [] found) :
    (textMachine P m b init).lock true (m.stop - p) p
        (extendBy [] (found ++ (textMachine P m b init).spawn p)) none =
      (textMachine P m b init).lock true (m.stop - p') p'
        (extendBy (leaves nextq) ((textMachine P m b init).spawn p')) none := by
  rw [extendBy_append, ← hq]
  split_ifs at hp' with h
  · rw [h, hp']
    exact lock_precheck hp
  · rw [hp']

theorem covers_precheck {start : ℕ} (hp : p ≤ m.stop)
    (h : (textMachine P m b init).Covers start p
      (extendBy [] ((textMachine P m b init).spawn p))) :
    (textMachine P m b init).Covers start (precheck P m p)
      (extendBy [] ((textMachine P m b init).spawn (precheck P m p))) := by
  refine precheck_rule (C := fun q => (textMachine P m b init).Covers start q
    (extendBy [] ((textMachine P m b init).spawn q))) b init hp h fun q _ hstuck hq => ?_
  have hnext := hq.next hstuck.found
  rwa [next_eq_nil_of_not_any hstuck.not_any, nil_append] at hnext

theorem covers_skip {start : ℕ} {nextq : ThreadQ} {found : List (ℕ × Caps)} (hp : p ≤ m.stop)
    {p' : ℕ} (hp' : p' = if nextq = [] then precheck P m p else p)
    (hq : leaves nextq = extendBy [] found)
    (h : (textMachine P m b init).Covers start p
      (extendBy [] (found ++ (textMachine P m b init).spawn p))) :
    (textMachine P m b init).Covers start p'
      (extendBy (leaves nextq) ((textMachine P m b init).spawn p')) := by
  rw [extendBy_append, ← hq] at h
  split_ifs at hp' with hnil
  · rw [hnil] at h ⊢
    rw [hp']
    exact covers_precheck hp h
  · rwa [hp']

end round

/-- **The loop of `matcher_match0`** in the round of `q + 1`, with the threads of the queue at `q`,
is the abstract search from `q` on. -/
theorem matchLoop_eq_lock {bp : ℕ} {n : ℕ} (hflags : m.flags = firstFlags P) (hq : q ≤ m.stop)
    (hn : m.stop < q + n) (hb : b ≤ q) (hbp : bp ≤ q) (hctx : Keeps init best ctx)
    (hlast : ctx.lastp = q) (hskip : anchor = .unanchored → SkipSafe P m b bp)
    (hcovers : anchor = .unanchored → best = none →
      (textMachine P m b init).Covers bp q (leaves runq))
    (hword : q < m.stop → WordOk P m b q wasword runq) :
    Ends ((textMachine P m b init).lock (anchor = .unanchored) (m.stop - q) q (leaves runq) best)
      (matchLoop P m bp anchor n (q + 1) runq (if m.stop ≤ q then 0 else m.charAt q) wasword
        ctx) := by
  induction n generalizing q runq wasword best ctx with
  | zero => omega
  | succ n ih =>
    rcases hq.eq_or_lt with heq | hlt
    · -- the last round: only a thread at `RX_MATCH` counts
      rw [matchLoop_behind hflags (by omega), show m.stop - q = 0 by omega, lock]
      have hends := (hctx.stepAt (P := P) (m := m) (b := b) (q := q) wasword
        (if m.stop ≤ q then 0 else m.charAt q) runq).ends
      rwa [stepAt_lastp, hlast] at hends
    · have hword := hword hlt
      have hsearched := leaves_stepAt init runq ctx hlt hword
      have hnil := stepAt_eq_nil P b init wasword runq ctx hlt
      have hkeep := hctx.stepAt (P := P) (m := m) (b := b) (q := q) wasword (m.charAt q) runq
      have hlast' := (stepAt_lastp (P := P) (m := m) (p := q + 1) wasword (m.charAt q) runq).trans
        hlast
      rw [if_neg (Nat.not_le.2 hlt), show m.stop - q = m.stop - (q + 1) + 1 by omega,
        lock]
      generalize hst : stepAt P m (q + 1) wasword (m.charAt q) runq ctx = st at *
      cases hstart : startsAt bp anchor (q + 1) st.2 with
      | true =>
        obtain ⟨p', hp'⟩ : ∃ p', p' = if st.1 = [] then precheck P m (q + 1) else q + 1 := ⟨_, rfl⟩
        rw [matchLoop_start hflags hlt hst hstart hp']
        simp only [startsAt, Bool.and_eq_true, Bool.not_eq_true', Bool.or_eq_true,
          decide_eq_true_eq] at hstart
        obtain rfl : anchor = .unanchored := hstart.2.resolve_right (by omega)
        have hbest : ((textMachine P m b init).found q (leaves runq)).or best = none := by
          simpa [hkeep.matched] using hstart.1
        obtain ⟨hfound, hnone⟩ := or_eq_none_iff.1 hbest
        have hcovers := hcovers rfl hnone
        have hpreferred := preferred_of_found_eq_none hfound
        obtain ⟨hle, hge⟩ : q + 1 ≤ p' ∧ p' ≤ m.stop := by
          split_ifs at hp' <;> rw [hp']
          exacts [⟨le_precheck _, precheck_le hlt⟩, ⟨le_rfl, hlt⟩]
        rw [hbest] at hkeep
        have hleaves := leaves_start hword.start hp' hkeep hsearched
        have hnext := covers_skip hlt hp' hsearched.leaves_eq
          (by rw [hpreferred]; exact hcovers.next hfound)
        simp only [hbest, isNone_none, decide_true, Bool.and_self, ↓reduceIte]
        rw [lock_start hlt hp' hsearched.leaves_eq, ← hleaves]
        rw [← hleaves] at hnext
        simpa using ih hge (by omega) (by omega) (by omega) (hkeep.restart p') rfl
          (fun _ _ => hnext) fun hlt' => by
            by_cases hst : st.1 = []
            · -- no thread has read the character, and characters may have been skipped
              have hreads := hnil.1 hst
              rw [hpreferred, List.any_eq_false] at hreads
              have hq := hleaves.trans (congrArg (extendBy · _) (congrArg leaves hst))
              rw [if_pos hst] at hp'
              subst hp'
              exact (hskip rfl).wordOk (by omega) hlt (by omega)
                (hcovers.idle hfound fun t ht => by simpa using hreads t ht) hlt' hq
            · obtain rfl : p' = q + 1 := by rw [hp', if_neg hst]
              exact wordOk_of_wordAt (by omega) hlt' _
      | false =>
        rw [matchLoop_continue hflags hlt hst hstart]
        have hbest :
            ¬ ((((textMachine P m b init).found q (leaves runq)).or best).isNone &&
              decide (anchor = .unanchored)) = true := by
          simp only [startsAt, hkeep.matched] at hstart
          intro h
          simp_all
        have hleaves : leaves st.1 = extendBy [] _ := hsearched.leaves_eq
        rw [if_neg hbest]
        by_cases hst : st.1 = []
        · rw [if_pos hst, if_neg (by rw [hnil.1 hst]; exact Bool.false_ne_true)]
          have hends := hkeep.ends
          rwa [hlast'] at hends
        · rw [if_neg hst, if_pos (Bool.of_not_eq_false fun h => hst (hnil.2 h)), ← hleaves]
          exact ih hlt (by omega) (by omega) (by omega)
            ⟨hkeep.matched, hkeep.none_captures, hkeep.some_captures⟩ rfl
            (fun hun hnone => absurd (by simp [hnone, hun]) hbest)
            (fun hlt' => wordOk_of_wordAt (by omega) hlt' _)

/-- **`matcher_match0` is the abstract search** from the start index on. -/
theorem matcherMatch0_eq_lock {start : ℕ} (hflags : m.flags = firstFlags P)
    (hstart : start ≤ m.stop) (hb : b ≤ start) (hctx : ctx.matched = false)
    (hword : Harmless P m b start false 0) (hskip : anchor = .unanchored → SkipSafe P m b start) :
    ∃ ctx', matcherMatch0 P m start anchor ctx = finishMatch m anchor ctx' ∧
      Ends ((textMachine P m b ctx.captures).lock (anchor = .unanchored) (m.stop - start) start
        (extendBy [] ((textMachine P m b ctx.captures).spawn start)) none) ctx' := by
  set M := textMachine P m b ctx.captures
  refine ⟨_, rfl, ?_⟩
  have hle := precheck_le (P := P) hstart
  have hge := le_precheck (P := P) (m := m) start
  have hkeep : Keeps ctx.captures none ctx := ⟨hctx, fun _ _ => rfl, nofun⟩
  have hstep : stepAt P m (precheck P m start) false 0 [] ctx = ([], ctx) := rfl
  rw [show m.stop + 2 - start = m.stop + 1 - start + 1 by omega]
  cases hs : startsAt start anchor (precheck P m start) ctx with
  | true =>
    have hor : anchor = .unanchored ∨ precheck P m start = start := by
      simpa [startsAt, hctx] using hs
    have hword' : Harmless P m b (precheck P m start) false 0 := by
      cases hids : firstAtoms P with
      | none => rwa [precheck_of_firstAtoms hids]
      | some ids => exact harmless_of_firstAtoms hids _ _ _
    have hp' : precheck P m start =
        if ([] : ThreadQ) = [] then precheck P m (precheck P m start) else precheck P m start := by
      rw [if_pos rfl, precheck_precheck hstart]
    have hlock : M.lock (anchor = .unanchored) (m.stop - start) start
          (extendBy [] (M.spawn start)) none =
        M.lock (anchor = .unanchored) (m.stop - precheck P m start) (precheck P m start)
          (extendBy [] (M.spawn (precheck P m start))) none := by
      rcases hor with rfl | h
      · exact lock_precheck hstart
      · rw [h]
    have hleaves := leaves_start hword' hp' hkeep (.refl (closed_nil _ _))
    rw [matchLoop_start hflags hle hstep hs hp', hlock]
    rw [show leaves [] = ([] : List (ℕ × Caps)) from rfl] at hleaves
    rw [← hleaves]
    refine matchLoop_eq_lock hflags hle (by omega) (by omega) hge (hkeep.restart _) rfl hskip
      (fun _ _ => ?_) fun hlt => wordOk_of_wordAt (by omega) hlt _
    rw [hleaves]
    exact covers_precheck hstart covers_start
  | false =>
    have hor : ¬ (anchor = .unanchored ∨ precheck P m start = start) := by
      simpa [startsAt, hctx] using hs
    rw [not_or] at hor
    rw [matchLoop_continue hflags hle hstep hs, if_pos rfl, decide_eq_false hor.1]
    have hnone := lock_of_precheck_ne b ctx.captures hor.2
    exact ⟨by rw [hnone, hctx]; rfl, by rw [hnone]; nofun, by simp [hctx]⟩

end Sagittarius.Regex
