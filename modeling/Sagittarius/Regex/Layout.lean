import Sagittarius.Regex.Runs

/-!
# What compiled code does

The code generator, on syntax trees without the constructs that need the extended matcher
(`Ast.basic`): where it puts the code, and what the code does.

* `CodeAt` : the code of a syntax tree lies between two addresses of a program;
* `Consumes` : the language of a syntax tree, the spans of the text that it matches;
* `CodeAt.runs_iff` : the runs of the code are the language.
-/

namespace Sagittarius.Regex

open Option

variable {ι : Type}

/-! ### The language of a syntax tree -/

mutual

/-- No back references, lookaround, atomic groups or conditionals, so that `extendedp` is not set;
the code generator does not come to what is repeated not even once. -/
def Ast.basic : Ast ι → Bool
  | .atom _ | .anchor _ => true
  | .seq _ items | .alter items => basicAll items
  | .flaggedSeq _ x | .register _ _ x => x.basic
  | .rep _ min max x => x.basic || (min = 0 && max.any (· ≤ 0))
  | _ => false

/-- `Ast.basic` of every item -/
def basicAll : List (Ast ι) → Bool
  | [] => true
  | x :: items => x.basic && basicAll items

end

theorem basicAll_iff {items : List (Ast ι)} : basicAll items ↔ ∀ x ∈ items, x.basic := by
  induction items with
  | nil => simp [basicAll]
  | cons x items ih => simp [basicAll, ih]

section

variable (m : Subject) (hold : ℕ → Anchor → Bool)

/-- `Consumes flags x s t`: some choice of alternatives and repetition counts makes `x` match the
text from the position of `s` to the position of `t`, with the captures of `t`.  A repetition makes
at least `min` rounds, and more as long as there are less than `max`. -/
inductive Consumes : Flags → Ast ι → State → State → Prop
  | atom {flags : Flags} {a : Atom} {s : State} : s.pos < m.stop →
    instMatches m.u flags a (m.charAt s.pos) →
    Consumes flags (.atom a) s { s with pos := s.pos + 1 }
  | anchor {flags : Flags} {a : Anchor} {s : State} : hold s.pos a → Consumes flags (.anchor a) s s
  | seqNil {flags : Flags} {cell : ι} {s : State} : Consumes flags (.seq cell []) s s
  | seqCons {flags : Flags} {cell : ι} {x : Ast ι} {items : List (Ast ι)} {s t t' : State} :
    Consumes flags x s t → Consumes flags (.seq cell items) t t' →
    Consumes flags (.seq cell (x :: items)) s t'
  | flaggedSeq {flags : Flags} {f : List (FlagChar × Bool)} {x : Ast ι} {s t : State} :
    Consumes (calculateFlags flags f) x s t → Consumes flags (.flaggedSeq f x) s t
  | register {flags : Flags} {n : ℕ} {name : Option (List SgChar)} {x : Ast ι} {s t : State} :
    Consumes flags x (s.save (2 * n)) t →
    Consumes flags (.register n name x) s (t.save (2 * n + 1))
  | alter {flags : Flags} {x : Ast ι} {items : List (Ast ι)} {s t : State} : x ∈ items →
    Consumes flags x s t → Consumes flags (.alter items) s t
  | repDone {flags : Flags} {greedy : Bool} {max : Option ℤ} {x : Ast ι} {s : State} :
    Consumes flags (.rep greedy 0 max x) s s
  | repRound {flags : Flags} {greedy : Bool} {min : ℕ} {max : Option ℤ} {x : Ast ι}
    {s t t' : State} : (∀ l, max = some l → 0 < min ∨ 0 < l) → Consumes flags x s t →
    Consumes flags (.rep greedy (min - 1) (max.map (· - 1)) x) t t' →
    Consumes flags (.rep greedy min max x) s t'

end

/-! ### Where the code lies -/

/-- `CodeAt P flags x pc pc'`: the code of `x` lies in the program `P` from `pc` to `pc'`. -/
inductive CodeAt (P : List Inst) : Flags → Ast ι → ℕ → ℕ → Prop
  | atom {flags : Flags} {a : Atom} {pc : ℕ} : P[pc]? = some ⟨.consume a, flags⟩ →
    CodeAt P flags (.atom a) pc (pc + 1)
  | anchor {flags : Flags} {a : Anchor} {pc : ℕ} : P[pc]? = some ⟨.empty a, flags⟩ →
    CodeAt P flags (.anchor a) pc (pc + 1)
  | seqNil {flags : Flags} {cell : ι} {pc : ℕ} : CodeAt P flags (.seq cell []) pc pc
  | seqCons {flags : Flags} {cell : ι} {x : Ast ι} {items : List (Ast ι)} {pc pc' pc'' : ℕ} :
    CodeAt P flags x pc pc' → CodeAt P flags (.seq cell items) pc' pc'' →
    CodeAt P flags (.seq cell (x :: items)) pc pc''
  | flaggedSeq {flags : Flags} {f : List (FlagChar × Bool)} {x : Ast ι} {pc pc' : ℕ} :
    CodeAt P (calculateFlags flags f) x pc pc' → CodeAt P flags (.flaggedSeq f x) pc pc'
  | register {flags : Flags} {n : ℕ} {name : Option (List SgChar)} {x : Ast ι} {pc pc' : ℕ} :
    P[pc]? = some ⟨.save (2 * n), flags⟩ → CodeAt P flags x (pc + 1) pc' →
    opAt P pc' = some (.save (2 * n + 1)) → CodeAt P flags (.register n name x) pc (pc' + 1)
  | alterNil {flags : Flags} {pc : ℕ} : opAt P pc = some .fail →
    CodeAt P flags (.alter []) pc (pc + 1)
  | alterLast {flags : Flags} {x : Ast ι} {pc pc' : ℕ} : CodeAt P flags x pc pc' →
    CodeAt P flags (.alter [x]) pc pc'
  | alterCons {flags : Flags} {x : Ast ι} {items : List (Ast ι)} {pc pc' pc'' : ℕ} :
    opAt P pc = some (.split (pc + 1) (pc' + 1)) → CodeAt P flags x (pc + 1) pc' →
    opAt P pc' = some (.jmp pc'') → CodeAt P flags (.alter items) (pc' + 1) pc'' →
    CodeAt P flags (.alter (x :: items)) pc pc''
  | repMin {flags : Flags} {greedy : Bool} {min : ℕ} {max : Option ℤ} {x : Ast ι}
    {pc pc' pc'' : ℕ} :
    CodeAt P flags x pc pc' → CodeAt P flags (.rep greedy min (max.map (· - 1)) x) pc' pc'' →
    CodeAt P flags (.rep greedy (min + 1) max x) pc pc''
  | repDone {flags : Flags} {greedy : Bool} {max : ℤ} {x : Ast ι} {pc : ℕ} : max ≤ 0 →
    CodeAt P flags (.rep greedy 0 (some max) x) pc pc
  | repOptional {flags : Flags} {greedy : Bool} {max : ℤ} {x : Ast ι} {pc pc' pc'' : ℕ} : 0 < max →
    opAt P pc = some (splitOp greedy (pc + 1) pc'') → CodeAt P flags x (pc + 1) pc' →
    CodeAt P flags (.rep greedy 0 (some (max - 1)) x) pc' pc'' →
    CodeAt P flags (.rep greedy 0 (some max) x) pc pc''
  | repLoop {flags : Flags} {greedy : Bool} {x : Ast ι} {pc pc' : ℕ} :
    opAt P pc = some (splitOp greedy (pc + 1) (pc' + 1)) → CodeAt P flags x (pc + 1) pc' →
    opAt P pc' = some (.jmp pc) → CodeAt P flags (.rep greedy 0 none x) pc (pc' + 1)

/-! ### The runs of the code -/

section runs

variable {P : List Inst} {m : Subject} {hold : ℕ → Anchor → Bool} {flags : Flags} {x : Ast ι}
  {pc pc' n : ℕ} {s t u : State}

theorem opAt_of_getElem? {inst : Inst} (h : P[pc]? = some inst) : opAt P pc = some inst.op := by
  rw [opAt, h, map_some]

/-- A run through the code of `x` first matches `x`. -/
theorem CodeAt.sound (h : CodeAt P flags x pc pc') (hrun : Runs P m hold n pc s u) :
    ∃ t n', n' ≤ n ∧ Consumes m hold flags x s t ∧ Runs P m hold n' pc' t u := by
  induction h generalizing n s with
  | atom hinst =>
    cases hrun with
    | accept hop => simp [opAt, hinst] at hop
    | read hr h =>
      simp only [reads, hinst, Bool.and_eq_true, decide_eq_true_eq] at hr
      exact ⟨_, _, Nat.le_succ _, .atom hr.1 hr.2, h⟩
    | step hw => simp [follow, opAt, hinst] at hw
  | @anchor flags a pc hinst =>
    have hop := opAt_of_getElem? hinst
    obtain ⟨n', w, rfl, hw, h'⟩ := hrun.inv_step (by simp [stops, hop])
    by_cases ha : hold s.pos a
    · obtain rfl : w = (pc + 1, s.caps) := by simpa [follow, hop, ha] using hw
      exact ⟨s, n', Nat.le_succ _, .anchor ha, h'⟩
    · simp [follow, hop, ha] at hw
  | seqNil => exact ⟨s, n, le_rfl, .seqNil, hrun⟩
  | seqCons _ _ ihx ihs =>
    obtain ⟨t, n', hn', hx, h⟩ := ihx hrun
    obtain ⟨t', n'', hn'', hs, h⟩ := ihs h
    exact ⟨t', n'', hn''.trans hn', .seqCons hx hs, h⟩
  | flaggedSeq _ ih =>
    obtain ⟨t, n', hn', hx, h⟩ := ih hrun
    exact ⟨t, n', hn', .flaggedSeq hx, h⟩
  | register hinst _ hop' ih =>
    obtain ⟨n, rfl, h⟩ := hrun.inv_save (opAt_of_getElem? hinst)
    obtain ⟨t, n', hn', hx, h⟩ := ih h
    obtain ⟨n', rfl, h'⟩ := h.inv_save hop'
    exact ⟨_, n', by omega, .register hx, h'⟩
  | alterNil hop =>
    obtain ⟨n', w, rfl, hw, h'⟩ := hrun.inv_step (by simp [stops, hop])
    simp [follow, hop] at hw
  | alterLast _ ih =>
    obtain ⟨t, n', hn', hx, h⟩ := ih hrun
    exact ⟨t, n', hn', .alter (List.mem_singleton_self _) hx, h⟩
  | alterCons hop _ hop' _ ihx ihs =>
    obtain ⟨n, rfl, h | h⟩ := hrun.inv_split hop
    · obtain ⟨t, n', hn', hx, h⟩ := ihx h
      obtain ⟨n', rfl, h'⟩ := h.inv_jmp hop'
      exact ⟨t, n', by omega, .alter (List.mem_cons_self ..) hx, h'⟩
    · obtain ⟨t, n', hn', hx, h⟩ := ihs h
      cases hx with
      | alter hmem hx => exact ⟨t, n', by omega, .alter (List.mem_cons_of_mem _ hmem) hx, h⟩
  | repMin _ _ ihx ihr =>
    obtain ⟨t, n', hn', hx, h⟩ := ihx hrun
    obtain ⟨t', n'', hn'', hr, h⟩ := ihr h
    exact ⟨t', n'', hn''.trans hn', .repRound (fun _ _ => .inl (Nat.succ_pos _)) hx hr, h⟩
  | repDone => exact ⟨s, n, le_rfl, .repDone, hrun⟩
  | @repOptional flags greedy max x pc pc' pc'' hmax hop _ _ ihx ihr =>
    obtain ⟨n, rfl, h | h⟩ := hrun.inv_splitOp hop
    · obtain ⟨t, n', hn', hx, h⟩ := ihx h
      obtain ⟨t', n'', hn'', hr, h⟩ := ihr h
      refine ⟨t', n'', by omega, .repRound (fun l hl => ?_) hx hr, h⟩
      obtain rfl : max = l := some.inj hl
      exact .inr hmax
    · exact ⟨s, n, Nat.le_succ _, .repDone, h⟩
  | @repLoop flags greedy x pc pc' hop _ hop' ihx =>
    -- every round takes steps
    induction n using Nat.strong_induction_on generalizing s with
    | _ n ih =>
      obtain ⟨n, rfl, h | h⟩ := hrun.inv_splitOp hop
      · obtain ⟨t, n', hn', hx, h⟩ := ihx h
        obtain ⟨n', rfl, h'⟩ := h.inv_jmp hop'
        obtain ⟨t', n'', hn'', hr, h⟩ := ih n' (by omega) h'
        exact ⟨t', n'', by omega, .repRound (by simp) hx hr, h⟩
      · exact ⟨s, n, Nat.le_succ _, .repDone, h⟩

theorem CodeAt.complete_loop {greedy : Bool} {y : Ast ι}
    (hop : opAt P pc = some (splitOp greedy (pc + 1) (pc' + 1)))
    (hop' : opAt P pc' = some (.jmp pc))
    (hround : ∀ {s t}, Consumes m hold flags x s t → (∃ n, Runs P m hold n pc' t u) →
      ∃ n, Runs P m hold n (pc + 1) s u)
    (h : Consumes m hold flags y s t) (hy : y = .rep greedy 0 none x)
    (hrun : ∃ n, Runs P m hold n (pc' + 1) t u) : ∃ n, Runs P m hold n pc s u := by
  induction h with
  | repDone => exact Runs.split hop (.inr hrun)
  | repRound _ hx _ _ ih =>
    obtain ⟨rfl, rfl, rfl, rfl⟩ : _ = greedy ∧ _ = 0 ∧ _ = none ∧ _ = x := by simpa using hy
    exact Runs.split hop (.inl (hround hx (Runs.jmp hop' (ih hround rfl hrun))))
  | _ => cases hy

/-- What `x` matches is a run through its code. -/
theorem CodeAt.complete (h : CodeAt P flags x pc pc') (hx : Consumes m hold flags x s t)
    (hrun : ∃ n, Runs P m hold n pc' t u) : ∃ n, Runs P m hold n pc s u := by
  induction h generalizing s t with
  | atom hinst =>
    cases hx with
    | atom hi ha =>
      obtain ⟨n, hrun⟩ := hrun
      exact ⟨n + 1, .read (by simp [reads, hinst, hi, ha]) hrun⟩
  | @anchor flags a pc hinst =>
    cases hx with
    | anchor ha =>
      obtain ⟨n, hrun⟩ := hrun
      exact ⟨n + 1, .step (w := (pc + 1, s.caps))
        (by simp [follow, opAt_of_getElem? hinst, ha]) hrun⟩
  | seqNil =>
    cases hx with
    | seqNil => exact hrun
  | seqCons _ _ ihx ihs =>
    cases hx with
    | seqCons hx hs => exact ihx hx (ihs hs hrun)
  | flaggedSeq _ ih =>
    cases hx with
    | flaggedSeq hx => exact ih hx hrun
  | register hinst _ hop' ih =>
    cases hx with
    | register hx => exact Runs.save (opAt_of_getElem? hinst) (ih hx (Runs.save hop' hrun))
  | alterNil =>
    cases hx with
    | alter hmem => cases hmem
  | alterLast _ ih =>
    cases hx with
    | alter hmem hx =>
      rw [List.mem_singleton.1 hmem] at hx
      exact ih hx hrun
  | alterCons hop _ hop' _ ihx ihs =>
    cases hx with
    | alter hmem hx =>
      refine Runs.split (show opAt P _ = some (splitOp true _ _) from hop) ?_
      rcases List.mem_cons.1 hmem with rfl | hmem
      · exact .inl (ihx hx (Runs.jmp hop' hrun))
      · exact .inr (ihs (.alter hmem hx) hrun)
  | repMin _ _ ihx ihr =>
    cases hx with
    | repRound _ hx hr => exact ihx hx (ihr hr hrun)
  | repDone hmax =>
    cases hx with
    | repDone => exact hrun
    | repRound hround =>
      rcases hround _ rfl with h | h
      · cases h
      · omega
  | repOptional _ hop _ _ ihx ihr =>
    cases hx with
    | repDone => exact Runs.split hop (.inr hrun)
    | repRound _ hx hr => exact Runs.split hop (.inl (ihx hx (ihr hr hrun)))
  | repLoop hop _ hop' ihx => exact complete_loop hop hop' ihx hx rfl hrun

/-- **The runs of a program are the language of its syntax tree.** -/
theorem CodeAt.runs_iff (h : CodeAt P flags x pc pc') (hmatch : opAt P pc' = some .match) :
    (∃ n, Runs P m hold n pc s t) ↔ Consumes m hold flags x s t := by
  constructor
  · rintro ⟨n, hrun⟩
    obtain ⟨t', n', -, hx, hrun'⟩ := h.sound hrun
    cases hrun' with
    | accept => exact hx
    | read hr => exact absurd hmatch (not_match_of_reads hr)
    | step hw => simp [follow_of_stops (stops_of_match hmatch)] at hw
  · intro hx
    exact h.complete hx ⟨0, .accept hmatch⟩

end runs

end Sagittarius.Regex
