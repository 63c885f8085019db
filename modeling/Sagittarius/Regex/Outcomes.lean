import Sagittarius.Regex.Layout

/-!
# The outcomes of compiled code

The threads of a program find the matches of its syntax tree in the order of preference: what
`denote` lists for the syntax tree is what the machine (`Regex/Machine.lean`) lists for its code,
match for match and capture for capture.  This holds where every round of a repetition without a
bound reads a character (`Ast.loopsMove`).  Otherwise the two differ: `denote` does not repeat a
round that stays where it is, the machine cuts off a path that comes back to an instruction, which
may be in the middle of a round.

* `Consumes.caps_getElem?` : a match leaves the slots of other groups as they are;
* `Calm` : the code at an address does not come back to an instruction before it reads a character;
* `Traces` : what a piece of code does is what an ordered computation lists, and its parts;
* `CodeAt.traces` : the code of a syntax tree does what the syntax tree means.
-/

namespace Sagittarius.Regex

open List Ast Attempts

variable {ι : Type} {m : Subject} {hold : ℕ → Anchor → Bool} {flags : Flags} {x : Ast ι}

/-! ### Captures -/

mutual

/-- The groups of a syntax tree without extended constructs. -/
def Ast.groups : Ast ι → List ℕ
  | .seq _ items | .alter items => groupsAll items
  | .register n _ x => n :: x.groups
  | .flaggedSeq _ x | .rep _ _ _ x => x.groups
  | _ => []

/-- `Ast.groups` of all items -/
def groupsAll : List (Ast ι) → List ℕ
  | [] => []
  | x :: items => x.groups ++ groupsAll items

end

variable {items : List (Ast ι)} {greedy : Bool}

theorem mem_groupsAll {n : ℕ} (hx : x ∈ items) (hn : n ∈ x.groups) : n ∈ groupsAll items := by
  induction items with
  | nil => cases hx
  | cons y items ih =>
    rw [groupsAll, mem_append]
    rcases mem_cons.1 hx with rfl | hx
    · exact .inl hn
    · exact .inr (ih hx)

theorem Consumes.caps_getElem? {s t : State} {j : ℕ} (h : Consumes m hold flags x s t)
    (hj : j / 2 ∉ x.groups) : t.caps[j]? = s.caps[j]? := by
  induction h with
  | atom | anchor | seqNil | repDone => rfl
  | seqCons _ _ ihx ihs =>
    simp only [groups, groupsAll, mem_append, not_or] at hj
    rw [ihs hj.2, ihx hj.1]
  | flaggedSeq _ ih => exact ih hj
  | @register flags n name x s t _ ih =>
    simp only [groups, mem_cons, not_or] at hj
    have hset : ∀ (s : State) (i : ℕ), i / 2 = n → (s.save i).caps[j]? = s.caps[j]? :=
      fun s i hi => getElem?_set_ne fun (h : i = j) => hj.1 (h ▸ hi)
    rw [hset _ _ (by omega), ih hj.2, hset _ _ (by omega)]
  | alter hmem _ ih => exact ih fun hn => hj (mem_groupsAll hmem hn)
  | repRound _ _ _ ihx ihr => rw [ihr hj, ihx hj]

theorem Consumes.length_caps {s t : State} (h : Consumes m hold flags x s t) :
    t.caps.length = s.caps.length := by
  induction h with
  | atom | anchor | seqNil | repDone => rfl
  | seqCons _ _ ihx ihs | repRound _ _ _ ihx ihs => rw [ihs, ihx]
  | flaggedSeq _ ih | alter _ _ ih => exact ih
  | register _ ih => simpa [State.save] using ih

/-! ### Repetitions that move on -/

mutual

/-- The syntax tree may match the empty text. -/
def Ast.nullable : Ast ι → Bool
  | .atom _ => false
  | .seq _ items => nullableAll items
  | .alter items => nullableAny items
  | .flaggedSeq _ x | .register _ _ x => x.nullable
  | .rep _ min _ x => min = 0 || x.nullable
  | _ => true

/-- `Ast.nullable` of all items -/
def nullableAll : List (Ast ι) → Bool
  | [] => true
  | x :: items => x.nullable && nullableAll items

/-- `Ast.nullable` of some item -/
def nullableAny : List (Ast ι) → Bool
  | [] => false
  | x :: items => x.nullable || nullableAny items

end

mutual

/-- What is repeated without a bound does not match the empty text. -/
def Ast.loopsMove : Ast ι → Bool
  | .seq _ items | .alter items => loopsMoveAll items
  | .flaggedSeq _ x | .register _ _ x | .rep _ _ (some _) x => x.loopsMove
  | .rep _ _ none x => !x.nullable && x.loopsMove
  | _ => true

/-- `Ast.loopsMove` of all items -/
def loopsMoveAll : List (Ast ι) → Bool
  | [] => true
  | x :: items => x.loopsMove && loopsMoveAll items

end

/-! ### Threads between two characters -/

section

variable {P : List Inst} {init : Caps} {pc pc' pc'' p : ℕ} {s : State}

/-- From `pc` on the program does not come back to an instruction while it is at `p`. -/
def Calm (P : List Inst) (m : Subject) (p pc : ℕ) : Prop :=
  (graph P (fun a => m.holds a p) p).Grounded pc

theorem calm_of_stops (h : stops P pc = true) : Calm P m p pc :=
  ⟨pc, fun _ hw => absurd h (by simpa [graph] using hw.1)⟩

theorem calm_of_follow (caps : Caps)
    (h : ∀ w ∈ follow P (fun a => m.holds a p) p pc caps, Calm P m p w.1) : Calm P m p pc := by
  refine ⟨pc, fun w hw => ?_⟩
  obtain ⟨-, caps', hw⟩ := hw
  rw [(graph P (fun a => m.holds a p) p).next_fst pc caps' caps] at hw
  obtain ⟨e, he, rfl⟩ := mem_map.1 hw
  exact h e he

/-- The matches of the threads that start at an address, the preferred one first. -/
def matchesFrom (P : List Inst) (m : Subject) (init : Caps) (pc : ℕ) (s : State) :
    List (ℕ × Caps) :=
  (closure P (fun a => m.holds a s.pos) s.pos pc s.caps).flatMap
    ((machine P m (fun p a => m.holds a p) init).outcomes (m.stop - s.pos) s.pos)

theorem matchesFrom_of_follow (hcalm : Calm P m s.pos pc) (hs : stops P pc = false) :
    matchesFrom P m init pc s = (follow P (fun a => m.holds a s.pos) s.pos pc s.caps).flatMap
      fun w => matchesFrom P m init w.1 ⟨s.pos, w.2⟩ := by
  rw [matchesFrom, closure, OrderedGraph.allPaths_of_grounded hcalm hs, flatMap_assoc]
  rfl

theorem matchesFrom_of_match (h : opAt P pc = some .match) :
    matchesFrom P m init pc s = [s.asOutcome] := by
  rw [matchesFrom, closure, OrderedGraph.allPaths, paths_of_stops _ not_mem_nil (stops_of_match h),
    flatMap_singleton, ThreadMachine.outcomes_of_accept (by simpa [machine_accept] using h)]
  rfl

theorem matchesFrom_of_consume {a : Atom} (h : P[pc]? = some ⟨.consume a, flags⟩) :
    matchesFrom P m init pc s =
      (oneChar m false (instMatches m.u flags a) s).flatMap (matchesFrom P m init (pc + 1)) := by
  have hop : opAt P pc = some (.consume a) := opAt_of_getElem? h
  have hreads : reads P m s.pos pc =
      (s.pos < m.stop && instMatches m.u flags a (m.charAt s.pos)) := by simp [reads, h]
  rw [matchesFrom, closure, OrderedGraph.allPaths,
    paths_of_stops _ not_mem_nil (by simp [stops, hop]), flatMap_singleton, oneChar,
    if_neg Bool.false_ne_true, ← hreads]
  split_ifs with hr
  · have hlt := (reads_inv hr).1
    rw [show m.stop - s.pos = m.stop - (s.pos + 1) + 1 by omega, ThreadMachine.outcomes,
      if_neg (by simp [machine_accept, hop]), machine_next, if_pos hr, flatMap_singleton]
    rfl
  · cases m.stop - s.pos <;>
      simp [ThreadMachine.outcomes, machine_accept, hop, machine_next, hr]

/-! ### What code does -/

/-- The code from `pc` to `pc'` does what `f` lists: the outcomes lie between the position and the
end, and the matches of the threads are those from `pc'` on, for one outcome after the other. -/
structure Traces (P : List Inst) (m : Subject) (init : Caps) (nullable : Bool)
    (f : Attempts State) (pc pc' : ℕ) : Prop where
  calm : ∀ p, (nullable → Calm P m p pc') → Calm P m p pc
  moves : ∀ s t, s.pos ≤ m.stop → t ∈ f s →
    s.pos ≤ t.pos ∧ t.pos ≤ m.stop ∧ (nullable = false → s.pos < t.pos)
  lists : (∀ p, Calm P m p pc') → ∀ s, s.pos ≤ m.stop →
    matchesFrom P m init pc s = (f s).flatMap (matchesFrom P m init pc')

variable {b b' : Bool} {f g : Attempts State}

theorem traces_nothing : Traces P m init true .succeed pc pc where
  calm p h := h rfl
  moves s t hs ht := by
    obtain rfl := mem_singleton.1 ht
    exact ⟨le_rfl, hs, nofun⟩
  lists _ s _ := (flatMap_singleton ..).symm

theorem traces_atom {a : Atom} (h : P[pc]? = some ⟨.consume a, flags⟩) :
    Traces P m init false (oneChar m false (instMatches m.u flags a)) pc (pc + 1) where
  calm p _ := calm_of_stops (by simp [stops, opAt, h])
  moves s t hs ht := by
    simp only [oneChar, Bool.false_eq_true, ↓reduceIte] at ht
    split_ifs at ht with hread
    · obtain rfl := mem_singleton.1 ht
      simp only [Bool.and_eq_true, decide_eq_true_eq] at hread
      exact ⟨Nat.le_succ _, hread.1, fun _ => Nat.lt_succ_self _⟩
    · cases ht
  lists _ s _ := matchesFrom_of_consume h

theorem traces_follow (hs : stops P pc = false) (hf : ∀ s, ∀ t ∈ f s, t.pos = s.pos ∧ b = true)
    (hfollow : ∀ s : State, follow P (fun a => m.holds a s.pos) s.pos pc s.caps =
      (f s).map fun t => (pc', t.caps)) : Traces P m init b f pc pc' := by
  have hcalm : ∀ p, (b → Calm P m p pc') → Calm P m p pc := by
    refine fun p h => calm_of_follow [] fun w hw => ?_
    rw [hfollow ⟨p, []⟩] at hw
    obtain ⟨t, ht, rfl⟩ := mem_map.1 hw
    exact h (hf _ t ht).2
  refine ⟨hcalm, fun s t hs ht => ?_, fun hend s _ => ?_⟩
  · obtain ⟨hpos, hb⟩ := hf s t ht
    exact ⟨hpos.ge, hpos.trans_le hs, by simp [hb]⟩
  · rw [matchesFrom_of_follow (hcalm _ fun _ => hend _) hs, hfollow, flatMap_map]
    refine flatMap_congr fun t ht => ?_
    rw [← (hf s t ht).1]

theorem traces_jmp (hop : opAt P pc = some (.jmp pc')) :
    Traces P m init true .succeed pc pc' :=
  traces_follow (by simp [stops, hop]) (fun s t ht => by simp [mem_singleton.1 ht])
    fun s => by simp [follow, hop, succeed]

theorem Traces.andThen (hf : Traces P m init b f pc pc') (hg : Traces P m init b' g pc' pc'') :
    Traces P m init (b && b') (f.andThen g) pc pc'' where
  calm p h := hf.calm p fun hb => hg.calm p fun hb' => h (by simp [hb, hb'])
  moves s u hs hu := by
    obtain ⟨t, ht, hu⟩ := mem_flatMap.1 hu
    obtain ⟨hst, htstop, hft⟩ := hf.moves s t hs ht
    obtain ⟨htu, hustop, hgu⟩ := hg.moves t u htstop hu
    refine ⟨hst.trans htu, hustop, fun hnull => ?_⟩
    rcases Bool.and_eq_false_iff.1 hnull with h | h
    · exact (hft h).trans_le htu
    · exact hst.trans_lt (hgu h)
  lists hcalm s hs := by
    rw [hf.lists (fun p => hg.calm p fun _ => hcalm p) s hs, Attempts.andThen, flatMap_assoc]
    exact flatMap_congr fun t ht => hg.lists hcalm t (hf.moves s t hs ht).2.1

theorem Traces.orElse (hop : opAt P pc = some (.split pc' pc'')) {l : ℕ}
    (hf : Traces P m init b f pc' l) (hg : Traces P m init b' g pc'' l) :
    Traces P m init (b || b') (f.orElse g) pc l := by
  have hcalm : ∀ p, ((b || b') → Calm P m p l) → Calm P m p pc := by
    refine fun p h => calm_of_follow [] ?_
    simp only [follow, hop, forall_mem_cons]
    exact ⟨hf.calm p fun hb => h (by simp [hb]), hg.calm p fun hb => h (by simp [hb]), nofun⟩
  refine ⟨hcalm, fun s t hs ht => ?_, fun hl s hs => ?_⟩
  · rcases mem_append.1 ht with ht | ht
    · obtain ⟨hst, htstop, hlt⟩ := hf.moves s t hs ht
      exact ⟨hst, htstop, fun hnull => hlt (Bool.or_eq_false_iff.1 hnull).1⟩
    · obtain ⟨hst, htstop, hlt⟩ := hg.moves s t hs ht
      exact ⟨hst, htstop, fun hnull => hlt (Bool.or_eq_false_iff.1 hnull).2⟩
  · rw [matchesFrom_of_follow (hcalm _ fun _ => hl _) (by simp [stops, hop])]
    simp [follow, hop, Attempts.orElse, hf.lists hl s hs, hg.lists hl s hs]

theorem Traces.maybe {greedy : Bool} (hop : opAt P pc = some (splitOp greedy pc' pc''))
    (hf : Traces P m init b f pc' pc'') : Traces P m init true (f.maybe greedy) pc pc'' := by
  cases greedy with
  | true => simpa [Attempts.maybe] using hf.orElse hop traces_nothing
  | false => simpa [Attempts.maybe] using traces_nothing.orElse hop hf

/-! ### Repetitions -/

theorem mem_maybe {greedy : Bool} {t : State} (h : t ∈ f.maybe greedy s) : t ∈ f s ∨ t = s := by
  cases greedy with
  | true => exact (mem_append.1 h).imp_right mem_singleton.1
  | false => exact ((mem_append.1 h).imp_left mem_singleton.1).symm

/-- Rounds that have to move on do so anyway, and there are not more of them than characters. -/
theorem Traces.loop {greedy : Bool} (hop : opAt P pc = some (splitOp greedy (pc + 1) (pc' + 1)))
    (hf : Traces P m init false f (pc + 1) pc') (hop' : opAt P pc' = some (.jmp pc)) :
    Traces P m init true (f.star moved greedy (m.stop + 1)) pc (pc' + 1) := by
  have hcalm : ∀ p, Calm P m p (pc' + 1) → Calm P m p pc := by
    refine fun p h => calm_of_follow [] ?_
    cases greedy <;> simp [follow, hop, splitOp, h, hf.calm p Bool.false_ne_true.elim]
  have hmoved : ∀ s, s.pos ≤ m.stop → (f s).filter (moved s) = f s := fun s hs =>
    filter_eq_self.2 fun t ht => by
      have := (hf.moves s t hs ht).2.2 rfl
      simp [moved]
      omega
  have hnext : ∀ {s t d}, s.pos ≤ m.stop → m.stop - s.pos < d + 1 → t ∈ f s →
      t.pos ≤ m.stop ∧ m.stop - t.pos < d ∧ s.pos ≤ t.pos := fun {s t d} hs hd ht => by
    obtain ⟨hst, htstop, hlt⟩ := hf.moves s t hs ht
    have := hlt rfl
    omega
  refine ⟨fun p h => hcalm p (h rfl), fun s t hs ht => ?_, fun hend s hs => ?_⟩
  · suffices hdist : ∀ d s, s.pos ≤ m.stop → m.stop - s.pos < d → t ∈ f.star moved greedy d s →
        s.pos ≤ t.pos ∧ t.pos ≤ m.stop from
      ⟨(hdist _ s hs (by omega) ht).1, (hdist _ s hs (by omega) ht).2,
        fun h => absurd h.symm Bool.false_ne_true⟩
    intro d
    induction d with
    | zero => exact fun s _ hd => absurd hd (Nat.not_lt_zero _)
    | succ d ih =>
      intro s hs hd ht
      rcases mem_maybe ht with ht | rfl
      · obtain ⟨u, hu, ht⟩ := mem_flatMap.1 ht
        obtain ⟨hustop, hud, hsu⟩ := hnext hs hd (mem_of_mem_filter hu)
        obtain ⟨hut, htstop⟩ := ih u hustop hud ht
        exact ⟨hsu.trans hut, htstop⟩
      · exact ⟨le_rfl, hs⟩
  · -- a round, and then the loop once more
    have hround := (hf.andThen (traces_jmp hop')).lists fun p => hcalm p (hend p)
    suffices hdist : ∀ d s, s.pos ≤ m.stop → m.stop - s.pos < d → matchesFrom P m init pc s =
        (f.star moved greedy d s).flatMap (matchesFrom P m init (pc' + 1)) from
      hdist _ s hs (by omega)
    intro d
    induction d with
    | zero => exact fun s _ hd => absurd hd (Nat.not_lt_zero _)
    | succ d ih =>
      intro s hs hd
      have hrest : matchesFrom P m init (pc + 1) s = (Attempts.andThen
          (fun s => (f s).filter (moved s)) (f.star moved greedy d) s).flatMap
            (matchesFrom P m init (pc' + 1)) := by
        rw [hround s hs, Attempts.andThen_succeed, Attempts.andThen, hmoved s hs, flatMap_assoc]
        exact flatMap_congr fun t ht => ih t (hnext hs hd ht).1 (hnext hs hd ht).2.1
      rw [matchesFrom_of_follow (hcalm _ (hend _)) (by cases greedy <;> simp [stops, hop, splitOp])]
      cases greedy <;>
        simp [follow, hop, splitOp, Attempts.star, Attempts.maybe, Attempts.orElse,
          Attempts.succeed, hrest]

theorem repeated_succ (greedy : Bool) (min : ℕ) (max : Option ℤ) (f : Attempts State) :
    repeated m greedy (min + 1) max f =
      f.andThen (repeated m greedy min (max.map (· - 1)) f) := by
  unfold repeated
  rw [times, andThen_assoc]
  cases max with
  | none => rfl
  | some max =>
    have hmax : max - ((min + 1 : ℕ) : ℤ) = max - 1 - min := by omega
    simp only [Option.map_some, hmax]

/-! ### All syntax trees -/

/-- **The code of a syntax tree does what the syntax tree means**, if repetitions without a bound
move on. -/
theorem CodeAt.traces (h : CodeAt P flags x pc pc') (hmove : x.loopsMove) :
    Traces P m init x.nullable (denote m flags false x) pc pc' := by
  induction h with
  | atom hinst => exact traces_atom hinst
  | @anchor flags a pc hinst =>
    have hop := opAt_of_getElem? hinst
    refine traces_follow (by simp [stops, hop]) (fun s t ht => ?_) fun s => ?_
    · simp only [denote] at ht
      split_ifs at ht
      · simp [mem_singleton.1 ht, nullable]
      · cases ht
    · simp only [follow, hop, denote]
      split_ifs <;> rfl
  | seqNil => exact traces_nothing
  | seqCons _ _ ihx ihs =>
    simp only [loopsMove, loopsMoveAll, Bool.and_eq_true] at hmove ihs
    simpa [denote, denoteAll, nullable, nullableAll] using (ihx hmove.1).andThen (ihs hmove.2)
  | flaggedSeq _ ih => exact ih hmove
  | @register flags n name x pc pc' hinst _ hop' ih =>
    have hsave : ∀ {j pc}, opAt P pc = some (.save j) →
        Traces P m init true (fun s => [s.save j]) pc (pc + 1) := fun hop =>
      traces_follow (by simp [stops, hop]) (fun s t ht => by simp [mem_singleton.1 ht, State.save])
        fun s => by simp [follow, hop, State.save]
    have hdenote : denote m flags false (.register n name x) =
        andThen (fun s => [s.save (2 * n)])
          ((denote m flags false x).andThen fun s => [s.save (2 * n + 1)]) := by
      funext s
      simp [denote, andThen, map_eq_flatMap]
    rw [hdenote]
    simpa [nullable] using
      (hsave (opAt_of_getElem? hinst)).andThen ((ih hmove).andThen (hsave hop'))
  | alterNil hop =>
    exact traces_follow (by simp [stops, hop]) (fun _ _ ht => absurd ht not_mem_nil)
      fun s => by simp [follow, hop, denote, denoteAll, oneOf, fail]
  | alterLast _ ih =>
    simp only [loopsMove, loopsMoveAll, Bool.and_true] at hmove
    simpa [denote, denoteAll, nullable, nullableAny, oneOf] using ih hmove
  | alterCons hop _ hop' _ ihx ihs =>
    simp only [loopsMove, loopsMoveAll, Bool.and_eq_true] at hmove ihs
    have := ((ihx hmove.1).andThen (traces_jmp hop')).orElse hop (ihs hmove.2)
    simpa [denote, denoteAll, nullable, nullableAny, oneOf] using this
  | @repMin flags greedy min max x _ _ _ _ _ ihx ihr =>
    have hmove' : x.loopsMove ∧ (Ast.rep greedy min (max.map (· - 1)) x).loopsMove := by
      cases max <;> simp_all [loopsMove]
    have := (ihx hmove'.1).andThen (ihr hmove'.2)
    rw [denote, ← repeated_succ] at this
    rw [denote]
    cases hnull : x.nullable <;> simpa [nullable, hnull] using this
  | repDone hmax =>
    simpa [denote, repeated, times, upTo, Int.toNat_of_nonpos hmax, nullable]
      using traces_nothing
  | @repOptional flags greedy max x pc pc' pc'' hmax hop _ _ ihx ihr =>
    obtain ⟨l, hl⟩ : ∃ l, max.toNat = l + 1 := ⟨max.toNat - 1, by omega⟩
    have := ((ihx hmove).andThen (ihr hmove)).maybe hop
    simpa [denote, repeated, times, hl, show (max - 1).toNat = l by omega,
      upTo, nullable] using this
  | repLoop hop _ hop' ihx =>
    simp only [loopsMove, Bool.and_eq_true, Bool.not_eq_true'] at hmove
    have := ihx hmove.2
    rw [hmove.1] at this
    simpa [denote, repeated, times, nullable] using this.loop hop hop'

end

end Sagittarius.Regex
