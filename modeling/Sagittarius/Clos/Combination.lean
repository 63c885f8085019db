import Sagittarius.Clos.Specificity
import Sagittarius.Library.Tracking

/-!
# Standard method combination

What a call of a generic function is supposed to do (`standardCall`): the `:around` methods are
nested, the most specific one outside; inside of them all `:before` methods are run, the most
specific one first, the most specific primary method, whose value is returned, and all `:after`
methods, the most specific one last.  Without a primary method nothing is run.

* `callCombined_tracks` : the method made up by the source runs the methods inside, once, if they
  take their arguments as the primary method does;
* `method_combination_iff` : **when the source does what it is supposed to do**.  The data of the
  made up method is used up when it runs, so it must not be called twice; arguments are packed for
  the primary method and unpacked for each of the others; and a single applicable method is run
  whatever its qualifier is.
-/

namespace Sagittarius.Clos

open List

variable {α κ σ τ : Type} {n : ℕ}

/-! ### What a call is supposed to do -/

/-- What is counted during a call. -/
structure Tally where
  /-- how often the methods inside of the `:around` methods were run -/
  entries : ℕ
  /-- how many of them take optional arguments although the primary method does not, or do not
  take any although it does -/
  strangers : ℕ
deriving DecidableEq

/-- The methods inside were run once at most, and take their arguments in the same way. -/
def Tally.Clean (t : Tally) : Prop := t.entries ≤ 1 ∧ t.strangers = 0

/-- A method inside of the `:around` methods is run, where `p` is the primary one. -/
def runInner (p m : SgMethod α κ σ n) (next : Methods α κ σ n) : Next α σ Tally :=
  fun args => do
    modify fun s => { s with extra := { s.extra with
      strangers := s.extra.strangers + if m.optional = p.optional then 0 else 1 } }
    frame (applyProcedure m (callNextMethods next) args)

/-- Methods inside of the `:around` methods are run one after the other. -/
def runAll (p : SgMethod α κ σ n) (args : Args α) :
    Methods α κ σ n → Run α σ Tally Unit
  | [] => pure ()
  | m :: methods => do
    let _ ← runInner p m [] args
    runAll p args methods

/-- The methods inside of the `:around` methods, with the primary ones `p` and `rest`. -/
def innerChain (before : Methods α κ σ n) (p : SgMethod α κ σ n)
    (rest after : Methods α κ σ n) : Next α σ Tally := fun args => do
  modify fun s => { s with extra := { s.extra with entries := s.extra.entries + 1 } }
  runAll p args before
  let v ← runInner p p rest args
  runAll p args after.reverse
  pure v

/-- Methods around a procedure. -/
def callAround : Methods α κ σ n → Next α σ τ → Next α σ τ
  | [], inner, args => inner args
  | m :: methods, inner, args => applyProcedure m (callAround methods inner) args

/-- The methods with a qualifier, the most specific one first. -/
def ofQualifier [DecidableEq κ] (C : Classes α κ) (applicable : Methods α κ σ n) (args : Args α)
    (q : Qualifier) : Methods α κ σ n :=
  bySpecificity C args (applicable.filter fun m => m.qualifier = q)

/-- What a call with the applicable methods does. -/
def standardCombination [DecidableEq κ] (C : Classes α κ) (applicable : Methods α κ σ n) :
    Next α σ Tally := fun args =>
  let sorted := ofQualifier C applicable args
  match sorted .primary with
  | [] => throw .noApplicableMethod
  | p :: rest =>
    callAround (sorted .around) (innerChain (sorted .before) p rest (sorted .after)) args

/-- What a call is supposed to do. -/
def standardCall [DecidableEq κ] (C : Classes α κ) (methods : Methods α κ σ n)
    (args : List.Vector (Obj α) n) (world : σ) :
    EStateM.Result CallError (Machine α σ Tally) (Obj α) :=
  standardCombination C (computeApplicableMethods C methods args.toList) args.toList
    ⟨world, [], ⟨0, 0⟩⟩

/-- What can be seen of a call: the value or the error, the variables afterwards, and the methods
that were run, with their arguments. -/
def observe : EStateM.Result CallError (Machine α σ τ) (Obj α) →
    Except CallError (Obj α) × σ × List (Event α)
  | .ok v s => (.ok v, s.world, s.trace)
  | .error e s => (.error e, s.world, s.trace)

/-! ### Traces and tallies grow -/

/-- The trace goes on. -/
def traceLe (s t : Machine α σ τ) : Prop := s.trace <+: t.trace

/-- The trace goes on, and the tally does not go back. -/
def tallyLe (s t : Machine α σ Tally) : Prop :=
  s.trace <+: t.trace ∧ s.extra.entries ≤ t.extra.entries ∧ s.extra.strangers ≤ t.extra.strangers

theorem traceLe_refl (s : Machine α σ τ) : traceLe s s := prefix_rfl

theorem traceLe_trans (s t u : Machine α σ τ) (h : traceLe s t) (h' : traceLe t u) :
    traceLe s u := List.IsPrefix.trans h h'

theorem tallyLe_refl (s : Machine α σ Tally) : tallyLe s s := ⟨prefix_rfl, le_rfl, le_rfl⟩

theorem tallyLe_trans (s t u : Machine α σ Tally) (h : tallyLe s t) (h' : tallyLe t u) :
    tallyLe s u := ⟨h.1.trans h'.1, h.2.1.trans h'.2.1, h.2.2.trans h'.2.2⟩

/-- A relation between states that bodies of methods respect. -/
structure BodyLe (le : Machine α σ τ → Machine α σ τ → Prop) : Prop where
  refl : ∀ s, le s s
  trans : ∀ s t u, le s t → le t u → le s u
  step : ∀ (s : Machine α σ τ) world trace, s.trace <+: trace → le s ⟨world, trace, s.extra⟩

theorem bodyLe_trace : BodyLe (traceLe : Machine α σ τ → Machine α σ τ → Prop) :=
  ⟨traceLe_refl, traceLe_trans, fun _ _ _ h => h⟩

theorem bodyLe_tally : BodyLe (tallyLe : Machine α σ Tally → Machine α σ Tally → Prop) :=
  ⟨tallyLe_refl, tallyLe_trans, fun _ _ _ h => ⟨h, le_rfl, le_rfl⟩⟩

section

variable {le : Machine α σ τ → Machine α σ τ → Prop}

theorem BodyLe.run (h : BodyLe le) {next : Next α σ τ} (hnext : ∀ args, Grows le (next args))
    (argv : Args α) (body : Body α σ n) : Grows le (body.run next argv) := by
  induction body with
  | ret v => exact .pure h.refl v
  | fail => exact .throw h.refl _
  | read k ih => exact .get_bind h.trans h.refl fun m => ih m.world
  | write s k ih =>
    exact .bind h.trans (.modify fun m => h.step m s m.trace prefix_rfl) fun _ => ih
  | callNextMethod args k ih => exact .bind h.trans (hnext _) ih

theorem BodyLe.applyProcedure (h : BodyLe le) {next : Next α σ τ}
    (hnext : ∀ args, Grows le (next args)) (m : SgMethod α κ σ n) (args : Args α) :
    Grows le (applyProcedure m next args) := by
  rw [Clos.applyProcedure]
  split_ifs
  · refine .bind h.trans (.modify fun s => h.step s _ _ (prefix_append _ _)) fun _ => ?_
    exact h.run hnext args _
  · exact .throw h.refl _

theorem BodyLe.callNextMethods (h : BodyLe le) (methods : Methods α κ σ n)
    (args : Args α) : Grows le (callNextMethods methods args) := by
  induction methods generalizing args with
  | nil => exact .throw h.refl _
  | cons m methods ih => exact h.applyProcedure ih m args

theorem BodyLe.frame (h : BodyLe le) {β : Type} {x : Run α σ Unit β} (hx : Grows traceLe x) :
    Grows le (frame x : Run α σ τ β) := by
  intro s
  have hs := hx ⟨s.world, s.trace, ()⟩
  rw [Clos.frame]
  cases hr : x ⟨s.world, s.trace, ()⟩ <;> rw [hr] at hs <;> exact h.step _ _ _ hs

end

theorem grows_inner (m : SgMethod α κ σ n) (next : Methods α κ σ n) (args : Args α) :
    Grows traceLe (applyProcedure m (callNextMethods next) args : Run α σ Unit (Obj α)) :=
  bodyLe_trace.applyProcedure (bodyLe_trace.callNextMethods next) m args

theorem runInner_eq (p m : SgMethod α κ σ n) (next : Methods α κ σ n) (args : Args α)
    (s : Machine α σ Tally) : runInner p m next args s =
      frame (applyProcedure m (callNextMethods next) args) ⟨s.world, s.trace, s.extra.entries,
        s.extra.strangers + if m.optional = p.optional then 0 else 1⟩ := rfl

theorem runInner_grows (p m : SgMethod α κ σ n) (next : Methods α κ σ n)
    (args : Args α) : Grows tallyLe (runInner p m next args) := by
  refine .bind tallyLe_trans (.modify fun s => ⟨prefix_rfl, le_rfl, Nat.le_add_right _ _⟩)
    fun _ => ?_
  exact bodyLe_tally.frame (grows_inner m next args)

theorem runAll_grows (p : SgMethod α κ σ n) (args : Args α)
    (methods : Methods α κ σ n) : Grows tallyLe (runAll p args methods) := by
  induction methods with
  | nil => exact .pure tallyLe_refl ()
  | cons m methods ih => exact .bind tallyLe_trans (runInner_grows p m [] args) fun _ => ih

/-- What `innerChain` does when it has been counted. -/
def chain (p : SgMethod α κ σ n) (rest : Methods α κ σ n) (args : Args α)
    (before after : Methods α κ σ n) : Run α σ Tally (Obj α) := do
  runAll p args before
  let v ← runInner p p rest args
  runAll p args after
  pure v

theorem chain_grows (p : SgMethod α κ σ n) (rest : Methods α κ σ n) (args : Args α)
    (before after : Methods α κ σ n) : Grows tallyLe (chain p rest args before after) := by
  refine .bind tallyLe_trans (runAll_grows p args before) fun _ => ?_
  refine .bind tallyLe_trans (runInner_grows p p rest args) fun w => ?_
  exact .bind tallyLe_trans (runAll_grows p args after) fun _ => .pure tallyLe_refl w

/-! ### The rounds of the source -/

section

variable {s : Machine α σ (Dvec α κ σ n)} {m : SgMethod α κ σ n} {methods : Methods α κ σ n}

/-- The data of the made up method when `m` runs. -/
def Dvec.advance (d : Dvec α κ σ n) (m : SgMethod α κ σ n) (methods : Methods α κ σ n) :
    Dvec α κ σ n := { d with methods := methods, storing := m.qualifier = .primary }

/-- The methods of the next-method of `m`. -/
def Dvec.nextMethods (d : Dvec α κ σ n) (m : SgMethod α κ σ n) : Methods α κ σ n :=
  if m.qualifier = .primary then d.rest else []

/-- The data of the made up method when `m` has returned. -/
def Dvec.store (d : Dvec α κ σ n) (result : Obj α) : Dvec α κ σ n :=
  { d with result := if d.storing then result else d.result }

section

variable (args : Args α)

theorem procedureInvoker_nil (h : s.extra.methods = []) :
    procedureInvoker args s = .error .crash s := by
  rw [procedureInvoker, get_bind_apply, h]
  rfl

theorem procedureInvoker_cons (h : s.extra.methods = m :: methods) :
    procedureInvoker args s =
      match passedArguments m args with
      | none => .error .crash ⟨s.world, s.trace, s.extra.advance m methods⟩
      | some passed => frame (applyProcedure m (callNextMethods (s.extra.nextMethods m)) passed)
          ⟨s.world, s.trace, s.extra.advance m methods⟩ := by
  rw [procedureInvoker, get_bind_apply, h]
  dsimp only
  cases passedArguments m args <;> rfl

theorem invokeCc_succ (fuel : ℕ) (result : Obj α) :
    invokeCc args (fuel + 1) result s =
      if s.extra.methods.isEmpty then
        .ok (s.extra.store result).result ⟨s.world, s.trace, s.extra.store result⟩
      else (procedureInvoker args >>= invokeCc args fuel)
        ⟨s.world, s.trace, s.extra.store result⟩ := by
  rw [invokeCc, get_bind_apply]
  cases s.extra.methods.isEmpty <;> rfl

theorem procedureInvoker_grows :
    Grows traceLe (procedureInvoker args : Run α σ (Dvec α κ σ n) (Obj α)) := by
  intro s
  cases h : s.extra.methods with
  | nil =>
    rw [procedureInvoker_nil args h]
    exact traceLe_refl s
  | cons m methods =>
    rw [procedureInvoker_cons args h]
    cases passedArguments m args with
    | none => exact prefix_rfl
    | some passed =>
      have := bodyLe_trace.frame (grows_inner m (s.extra.nextMethods m) passed)
        (⟨s.world, s.trace, s.extra.advance m methods⟩ : Machine α σ (Dvec α κ σ n))
      exact this

theorem invokeCc_grows (fuel : ℕ) (result : Obj α) :
    Grows traceLe (invokeCc args fuel result : Run α σ (Dvec α κ σ n) (Obj α)) := by
  induction fuel generalizing result with
  | zero => exact .throw traceLe_refl _
  | succ fuel ih =>
    intro s
    rw [invokeCc_succ]
    split_ifs
    · exact prefix_rfl
    · have := Grows.bind traceLe_trans (procedureInvoker_grows args) ih
        (⟨s.world, s.trace, s.extra.store result⟩ : Machine α σ (Dvec α κ σ n))
      exact this

end

end

/-! ### Arguments are packed and unpacked -/

theorem elements_ofList (l : Args α) : (Obj.ofList l).elements = some l := by
  induction l with
  | nil => rfl
  | cons a l ih => rw [Obj.ofList, Obj.elements, ih, Option.map_some]

theorem elements_ne_singleton (a : Obj α) : a.elements ≠ some [a] := by
  cases a with
  | undef | nil | atom x => nofun
  | pair a d =>
    intro h
    obtain ⟨l, -, hl⟩ := Option.map_eq_some_iff.1 h
    have := congrArg sizeOf (cons.inj hl).1
    simp at this
    omega

theorem accepts_iff (m : SgMethod α κ σ n) (argc : ℕ) :
    m.accepts argc = true ↔ m.required ≤ argc ∧ (m.optional = false → m.required = argc) := by
  rw [SgMethod.accepts]
  cases m.optional with
  | true => simp
  | false =>
    simp only [Bool.false_eq_true, if_false, decide_eq_true_eq, forall_const]
    omega

theorem adjustArgumentFrame_isSome {p : SgMethod α κ σ n} {args : Args α}
    (h : p.accepts args.length = true) :
    ∃ packed, adjustArgumentFrame p.required p.optional args = some packed := by
  rw [accepts_iff] at h
  rw [adjustArgumentFrame]
  cases hopt : p.optional with
  | true => simp [Nat.not_lt.2 h.1]
  | false => simp [h.2 hopt]

theorem unpackArgument_concat (l : Args α) (opts : Obj α) :
    unpackArgument (l ++ [opts]) = opts.elements.map (l ++ ·) := by
  rw [unpackArgument, getLast?_concat, dropLast_concat]

/-- What was packed for the primary method is unpacked for a method exactly if both take optional
arguments or neither does. -/
theorem passedArguments_iff {p m : SgMethod α κ σ n} {args packed : Args α}
    (h : adjustArgumentFrame p.required p.optional args = some packed) :
    passedArguments m packed = some args ↔ m.optional = p.optional := by
  rw [adjustArgumentFrame] at h
  rw [passedArguments]
  cases hp : p.optional with
  | true =>
    split_ifs at h
    obtain rfl := Option.some.inj h
    cases hm : m.optional with
    | true =>
      rw [if_pos rfl, unpackArgument_concat, elements_ofList, Option.map_some,
        take_append_drop]
      exact iff_of_true rfl rfl
    | false =>
      rw [if_neg Bool.false_ne_true, Option.some.injEq]
      refine iff_of_false (fun heq => ?_) Bool.false_ne_true
      -- otherwise the rest of the arguments would be the list of itself
      have hrest : args.drop p.required = [Obj.ofList (args.drop p.required)] :=
        append_cancel_left ((take_append_drop p.required args).trans heq.symm)
      exact elements_ne_singleton _ ((elements_ofList _).trans (congrArg some hrest))
  | false =>
    rw [hp, if_neg Bool.false_ne_true] at h
    split_ifs at h
    obtain rfl := Option.some.inj h
    cases hm : m.optional with
    | false => simp
    | true =>
      refine iff_of_false (fun heq => ?_) (Bool.false_ne_true ∘ Eq.symm)
      obtain rfl | ⟨l, opts, rfl⟩ := eq_nil_or_concat args
      · cases heq
      · rw [concat_eq_append, unpackArgument_concat] at heq
        obtain ⟨l', hl', heq⟩ := Option.map_eq_some_iff.1 heq
        rw [append_cancel_left heq] at hl'
        exact elements_ne_singleton opts hl'

/-! ### The source and the standard compared -/

/-- Traces that are different in a place that both have reached, or that the first will not
reach. -/
def Conflict (ended : Bool) (t t' : List (Event α)) : Prop :=
  ∃ i < t'.length, t[i]? ≠ t'[i]? ∧ (ended = true ∨ i < t.length)

theorem getElem?_of_isInitial {l l' : List (Event α)} (h : l <+: l') {i : ℕ} (hi : i < l.length) :
    l'[i]? = l[i]? := by
  obtain ⟨r, rfl⟩ := h
  exact getElem?_append_left hi

theorem Conflict.ne {ended : Bool} {t t' : List (Event α)} (h : Conflict ended t t') : t ≠ t' := by
  rintro rfl
  obtain ⟨i, -, hne, -⟩ := h
  exact hne rfl

/-- The runs of the source and of the standard. -/
def comparison (α κ σ : Type) (n : ℕ) :
    Comparison (Machine α σ (Dvec α κ σ n)) (Machine α σ Tally) where
  le := traceLe
  le' := tallyLe
  same s s' := s.world = s'.world ∧ s.trace = s'.trace ∧ s'.extra.Clean
  apart ended s s' := Conflict ended s.trace s'.trace ∧ ¬ s'.extra.Clean
  apart_left := by
    rintro s t s' b ⟨⟨i, hi, hne, hend⟩, hclean⟩ hle
    have hlt : i < s.trace.length := hend.resolve_left Bool.false_ne_true
    refine ⟨⟨i, hi, ?_, .inr (hlt.trans_le hle.length_le)⟩, hclean⟩
    rwa [getElem?_of_isInitial hle hlt]
  apart_right := by
    rintro s s' t' b ⟨⟨i, hi, hne, hend⟩, hclean⟩ ⟨hle, hentries, hstrangers⟩
    refine ⟨⟨i, hi.trans_le hle.length_le, ?_, hend⟩, fun h => hclean ?_⟩
    · rwa [getElem?_of_isInitial hle hi]
    · exact ⟨hentries.trans h.1, Nat.le_zero.1 (hstrangers.trans h.2.le)⟩

/-- The same variables and the same trace, and other data in a relation. -/
def Alike (K : Dvec α κ σ n → Tally → Prop) (s : Machine α σ (Dvec α κ σ n))
    (s' : Machine α σ Tally) : Prop :=
  s.world = s'.world ∧ s.trace = s'.trace ∧ K s.extra s'.extra

/-- Procedures that do the same, from states with other data in the relation `K`. -/
structure Follows (K : Dvec α κ σ n → Tally → Prop) (next : Next α σ (Dvec α κ σ n))
    (next' : Next α σ Tally) : Prop where
  clean : ∀ d t, K d t → t.Clean
  grows : ∀ args, Grows traceLe (next args)
  grows' : ∀ args, Grows tallyLe (next' args)
  tracks : ∀ args, args.length = n →
    Tracks (comparison α κ σ n) (Alike K) (next args) (next' args) fun _ => Alike K

section

variable {K : Dvec α κ σ n → Tally → Prop} {next : Next α σ (Dvec α κ σ n)}
  {next' : Next α σ Tally}

theorem Body.run_tracks (h : Follows K next next') {argv : Args α} (hargv : argv.length = n)
    (body : Body α σ n) :
    Tracks (comparison α κ σ n) (Alike K) (body.run next argv) (body.run next' argv)
      fun _ => Alike K := by
  induction body with
  | ret v => exact .pure fun _ _ h => h
  | fail => exact .throw _ fun s s' hs => ⟨hs.1, hs.2.1, h.clean _ _ hs.2.2⟩
  | read k ih =>
    intro s s' hs
    have := ih s.world s s' hs
    have hrun : (Body.read k).run next' argv s' = (k s.world).run next' argv s' := by
      rw [hs.1]
      rfl
    rw [hrun]
    exact this
  | write w k ih => exact .modify_bind (fun s s' h => ⟨rfl, h.2⟩) ih
  | callNextMethod args k ih =>
    refine .bind (h.tracks _ ?_) ih (fun v => bodyLe_trace.run h.grows argv _)
      fun v => bodyLe_tally.run h.grows' argv _
    cases args with
    | none => exact hargv
    | some args => exact args.toList_length

theorem Follows.applyProcedure (h : Follows K next next') (m : SgMethod α κ σ n) :
    Follows K (applyProcedure m next) (applyProcedure m next') where
  clean := h.clean
  grows := bodyLe_trace.applyProcedure h.grows m
  grows' := bodyLe_tally.applyProcedure h.grows' m
  tracks args hargs := by
    rw [Clos.applyProcedure, Clos.applyProcedure]
    split_ifs
    · exact .modify_bind (fun s s' h => ⟨h.1, by rw [h.2.1], h.2.2⟩) (Body.run_tracks h hargs _)
    · exact .throw _ fun s s' hs => ⟨hs.1, hs.2.1, h.clean _ _ hs.2.2⟩

theorem Follows.callAround (h : Follows K next next') (around : Methods α κ σ n) :
    Follows K (callAround around next) (callAround around next') := by
  induction around with
  | nil => exact h
  | cons m around ih => exact ih.applyProcedure m

end

/-! ### What a method inside adds to the trace -/

section

variable {m p : SgMethod α κ σ n} {args : Args α}

theorem frame_applyProcedure_starts (next : Methods α κ σ n)
    (hm : m.accepts args.length = true) (s : Machine α σ τ) :
    s.trace ++ [⟨m.id, args⟩] <+:
      (finalState ((frame (applyProcedure m (callNextMethods next) args) : Run α σ τ (Obj α))
        s)).trace := by
  set t : Machine α σ Unit := ⟨s.world, s.trace ++ [⟨m.id, args⟩], ()⟩
  have hgrows := bodyLe_trace.run (bodyLe_trace.callNextMethods next) args (m.procedure args) t
  have hrun : applyProcedure m (callNextMethods next) args ⟨s.world, s.trace, ()⟩ =
      (m.procedure args).run (callNextMethods next) args t := by
    rw [applyProcedure, if_pos hm]
    rfl
  rw [frame, hrun]
  generalize (m.procedure args).run (callNextMethods next) args t = r at hgrows
  cases r <;> exact hgrows

theorem runInner_starts (next : Methods α κ σ n) (hm : m.accepts args.length = true)
    (s : Machine α σ Tally) :
    s.trace ++ [⟨m.id, args⟩] <+: (finalState (runInner p m next args s)).trace := by
  have := frame_applyProcedure_starts next hm (⟨s.world, s.trace, s.extra.entries,
    s.extra.strangers + if m.optional = p.optional then 0 else 1⟩ : Machine α σ Tally)
  exact this

/-- The source calls a method with other arguments, or not at all. -/
theorem procedureInvoker_stray {packed : Args α} {methods : Methods α κ σ n}
    {s : Machine α σ (Dvec α κ σ n)} (hs : s.extra.methods = m :: methods)
    (hpassed : passedArguments m packed ≠ some args) {t' : List (Event α)}
    (ht' : s.trace ++ [⟨m.id, args⟩] <+: t') :
    Conflict (failed (procedureInvoker packed s)) (finalState (procedureInvoker packed s)).trace
      t' := by
  have hlen : s.trace.length < (s.trace ++ [(⟨m.id, args⟩ : Event α)]).length := by simp
  have hat : t'[s.trace.length]? = some ⟨m.id, args⟩ := by
    rw [getElem?_of_isInitial ht' hlen, getElem?_concat_length]
  have hended : ∀ {t : List (Event α)}, t = s.trace → Conflict true t t' := by
    rintro t rfl
    refine ⟨_, hlen.trans_le ht'.length_le, ?_, .inl rfl⟩
    rw [hat, getElem?_eq_none le_rfl]
    nofun
  rw [procedureInvoker_cons packed hs]
  cases hp : passedArguments m packed with
  | none => exact hended rfl
  | some passed =>
    simp only
    by_cases hm : m.accepts passed.length = true
    · have hstarts := frame_applyProcedure_starts (s.extra.nextMethods m) hm
        (⟨s.world, s.trace, s.extra.advance m methods⟩ : Machine α σ (Dvec α κ σ n))
      have hlen' : s.trace.length < (s.trace ++ [(⟨m.id, passed⟩ : Event α)]).length := by simp
      refine ⟨_, hlen.trans_le ht'.length_le, ?_, .inr (hlen'.trans_le hstarts.length_le)⟩
      rw [hat, getElem?_of_isInitial hstarts hlen', getElem?_concat_length]
      intro h
      refine hpassed (hp.trans (congrArg some ?_))
      exact (Event.mk.inj (Option.some.inj h)).2
    · have hfail : (frame (applyProcedure m (callNextMethods (s.extra.nextMethods m)) passed)
          ⟨s.world, s.trace, s.extra.advance m methods⟩ :
            EStateM.Result CallError (Machine α σ (Dvec α κ σ n)) (Obj α)) =
          .error .wrongNumberOfArguments ⟨s.world, s.trace, s.extra.advance m methods⟩ := by
        rw [frame, applyProcedure, if_neg hm]
        rfl
      rw [hfail]
      exact hended rfl

end

/-! ### The methods inside -/

section

variable {p : SgMethod α κ σ n} {args packed : Args α}

/-- The methods inside run, `methods` are left. -/
def AtMethods (rest methods : Methods α κ σ n) (storing : Bool) (result : Obj α) :
    Machine α σ (Dvec α κ σ n) → Machine α σ Tally → Prop :=
  Alike fun d t => d = ⟨methods, rest, storing, result⟩ ∧ t = ⟨1, 0⟩

/-- The methods inside have been run. -/
def AfterMethods : Machine α σ (Dvec α κ σ n) → Machine α σ Tally → Prop :=
  Alike fun d t => d.methods = [] ∧ t = ⟨1, 0⟩

section

variable (hpacked : adjustArgumentFrame p.required p.optional args = some packed)

include hpacked

/-- One round of the source is a method of the standard. -/
theorem procedureInvoker_tracks {m : SgMethod α κ σ n} (hm : m.accepts args.length = true)
    {next : Methods α κ σ n} (rest methods : Methods α κ σ n) (storing : Bool)
    (result : Obj α) (hnext : next = if m.qualifier = .primary then rest else []) :
    Tracks (comparison α κ σ n) (AtMethods rest (m :: methods) storing result)
      (procedureInvoker packed) (runInner p m next args)
      fun _ => AtMethods rest methods (m.qualifier = .primary) result := by
  rintro ⟨world, trace, d⟩ ⟨_, _, t⟩ ⟨rfl, rfl, rfl, rfl⟩
  by_cases hopt : m.optional = p.optional
  · left
    have hpassed := (passedArguments_iff hpacked).2 hopt
    rw [procedureInvoker_cons packed rfl, hpassed, runInner_eq, if_pos hopt, hnext]
    simp only [Dvec.nextMethods, frame]
    cases applyProcedure m (callNextMethods (if m.qualifier = .primary then rest else [])) args
      (⟨world, trace, ()⟩ : Machine α σ Unit) with
    | ok v s => exact ⟨rfl, rfl, rfl, rfl, rfl⟩
    | error e s => exact ⟨rfl, rfl, rfl, le_rfl, rfl⟩
  · right
    have hpassed := mt (passedArguments_iff hpacked).1 hopt
    have hstarts := runInner_starts (p := p) next hm (⟨world, trace, ⟨1, 0⟩⟩ : Machine α σ Tally)
    refine ⟨procedureInvoker_stray rfl hpassed hstarts, fun hclean => ?_⟩
    -- the tally has counted the stranger
    have hgrows := bodyLe_tally.frame (grows_inner m next args)
      (⟨world, trace, ⟨1, 0 + 1⟩⟩ : Machine α σ Tally)
    rw [runInner_eq, if_neg hopt] at hclean
    have hzero : 0 + 1 ≤ 0 := hgrows.2.2.trans hclean.2.le
    exact absurd hzero (by decide)

/-- The methods accept the call, and none of them is a primary one. -/
def Auxiliary (args : Args α) (methods : Methods α κ σ n) : Prop :=
  ∀ m ∈ methods, m.accepts args.length = true ∧ m.qualifier ≠ .primary

/-- After the primary method: the `:after` methods are run, and the result is returned. -/
theorem invokeCc_tracks {rest methods : Methods α κ σ n} (hmethods : Auxiliary args methods)
    {storing : Bool} {v w result : Obj α} (hw : (if storing then v else result) = w) {fuel : ℕ}
    (hfuel : methods.length < fuel) :
    Tracks (comparison α κ σ n) (AtMethods rest methods storing result) (invokeCc packed fuel v)
      (runAll p args methods >>= fun _ => pure w) fun _ => AfterMethods := by
  induction methods generalizing storing v result fuel with
  | nil =>
    obtain _ | fuel := fuel
    · omega
    rintro ⟨world, trace, d⟩ ⟨_, _, t⟩ ⟨rfl, rfl, rfl, rfl⟩
    exact .inl ⟨hw, rfl, rfl, rfl, rfl⟩
  | cons m methods ih =>
    obtain ⟨⟨hm, hq⟩, hmethods⟩ := forall_mem_cons.1 hmethods
    obtain _ | fuel := fuel
    · omega
    have hround := procedureInvoker_tracks hpacked hm rest methods storing w (if_neg hq).symm
    rw [decide_eq_false hq] at hround
    have hrest := hround.bind (fun v' => ih hmethods rfl (Nat.lt_of_succ_lt_succ hfuel))
      (fun v' => invokeCc_grows packed fuel v')
      fun v' => .bind tallyLe_trans (runAll_grows p args methods) fun _ => .pure tallyLe_refl w
    rintro ⟨world, trace, d⟩ ⟨_, _, t⟩ ⟨rfl, rfl, rfl, rfl⟩
    rw [invokeCc_succ, runAll, bind_assoc]
    exact hrest ⟨world, trace, ⟨m :: methods, rest, storing, if storing then v else result⟩⟩
      ⟨world, trace, ⟨1, 0⟩⟩ ⟨rfl, rfl, by rw [hw], rfl⟩

theorem chain_tracks (hp : p.accepts args.length = true) (hprimary : p.qualifier = .primary)
    {before after : Methods α κ σ n} (rest : Methods α κ σ n) (hbefore : Auxiliary args before)
    (hafter : Auxiliary args after) (storing : Bool) (result : Obj α) (fuel : ℕ)
    (hfuel : before.length + after.length < fuel) :
    Tracks (comparison α κ σ n) (AtMethods rest (before ++ p :: after) storing result)
      (procedureInvoker packed >>= invokeCc packed fuel) (chain p rest args before after)
      fun _ => AfterMethods := by
  induction before generalizing storing result fuel with
  | nil =>
    have hround := procedureInvoker_tracks hpacked hp rest after storing result
      (if_pos hprimary).symm
    rw [decide_eq_true hprimary] at hround
    exact hround.bind (fun v => invokeCc_tracks hpacked hafter rfl (by simpa using hfuel))
      (fun v => invokeCc_grows packed fuel v)
      fun v => .bind tallyLe_trans (runAll_grows p args after) fun _ => .pure tallyLe_refl v
  | cons m before ih =>
    obtain ⟨⟨hm, hq⟩, hbefore⟩ := forall_mem_cons.1 hbefore
    obtain _ | fuel := fuel
    · omega
    have hround := procedureInvoker_tracks hpacked hm rest (before ++ p :: after) storing result
      (if_neg hq).symm
    rw [decide_eq_false hq] at hround
    rw [length_cons] at hfuel
    have hrest := ih hbefore false result fuel (by omega)
    rw [chain, runAll, bind_assoc]
    refine hround.bind (fun v => ?_) (fun v => invokeCc_grows packed _ v)
      fun v => chain_grows p rest args before after
    · rintro ⟨world, trace, d⟩ ⟨_, _, t⟩ ⟨rfl, rfl, rfl, rfl⟩
      rw [invokeCc_succ]
      have hsome : (before ++ p :: after).isEmpty = false := by simp
      simp only [hsome, Bool.false_eq_true, if_false]
      exact hrest _ _ ⟨rfl, rfl, rfl, rfl⟩

end

end

/-! ### The made up method -/

section

variable (before : Methods α κ σ n) (p : SgMethod α κ σ n)
  (rest after : Methods α κ σ n) (args : Args α)

theorem innerChain_eq (s : Machine α σ Tally) :
    innerChain before p rest after args s = chain p rest args before after.reverse
      ⟨s.world, s.trace, { s.extra with entries := s.extra.entries + 1 }⟩ := rfl

theorem innerChain_grows : Grows tallyLe (innerChain before p rest after args) :=
  .bind tallyLe_trans (.modify fun _ => ⟨prefix_rfl, Nat.le_succ _, le_rfl⟩)
    fun _ => chain_grows p rest args before after.reverse

end

theorem grows_bind_starts {β : Type} {x : Run α σ Tally (Obj α)} {f : Obj α → Run α σ Tally β}
    {s : Machine α σ Tally} {t : List (Event α)} (hx : t <+: (finalState (x s)).trace)
    (hf : ∀ v, Grows tallyLe (f v)) : t <+: (finalState ((x >>= f) s)).trace := by
  change t <+: (finalState (EStateM.bind x f s)).trace
  rw [EStateM.bind]
  cases h : x s with
  | error e u => rwa [h] at hx
  | ok v u =>
    rw [h] at hx
    exact hx.trans (hf v u).1

theorem innerChain_starts {before : Methods α κ σ n} {p : SgMethod α κ σ n}
    (rest after : Methods α κ σ n) {args : Args α}
    (hp : p.accepts args.length = true) (hbefore : ∀ m ∈ before, m.accepts args.length = true)
    (s : Machine α σ Tally) :
    ∃ e, s.trace ++ [e] <+: (finalState (innerChain before p rest after args s)).trace := by
  rw [innerChain_eq]
  cases before with
  | nil =>
    refine ⟨⟨p.id, args⟩, ?_⟩
    have hstarts := runInner_starts (p := p) rest hp
      (⟨s.world, s.trace, { s.extra with entries := s.extra.entries + 1 }⟩ : Machine α σ Tally)
    refine grows_bind_starts hstarts fun v => ?_
    exact .bind tallyLe_trans (runAll_grows p args after.reverse) fun _ => .pure tallyLe_refl v
  | cons m before =>
    refine ⟨⟨m.id, args⟩, ?_⟩
    rw [chain, runAll, bind_assoc]
    have hstarts := runInner_starts (p := p) [] (hbefore m mem_cons_self)
      (⟨s.world, s.trace, { s.extra with entries := s.extra.entries + 1 }⟩ : Machine α σ Tally)
    exact grows_bind_starts hstarts fun _ => chain_grows p rest args before after.reverse

/-- The made up method has not been called, or it has been called once. -/
def Ready (d₀ d : Dvec α κ σ n) (t : Tally) : Prop :=
  t.strangers = 0 ∧ (t.entries = 0 ∧ d = d₀ ∨ t.entries = 1 ∧ d.methods = [])

theorem Ready.clean {d₀ d : Dvec α κ σ n} {t : Tally} (h : Ready d₀ d t) : t.Clean := by
  obtain ⟨hstrangers, ⟨hentries, -⟩ | ⟨hentries, -⟩⟩ := h
  · exact ⟨by omega, hstrangers⟩
  · exact ⟨by omega, hstrangers⟩

section

variable {p : SgMethod α κ σ n} {before rest after : Methods α κ σ n}
  {args : Args α}

/-- **The made up method runs the methods inside**, when it is called for the first time. -/
theorem callCombined_tracks (hp : p.accepts args.length = true) (hprimary : p.qualifier = .primary)
    (hbefore : Auxiliary args before) (hafter : Auxiliary args after) (rest : Methods α κ σ n) :
    Tracks (comparison α κ σ n)
      (Alike (Ready ⟨before ++ p :: after.reverse, rest, false, .undef⟩))
      (callCombined p.required p.optional args) (innerChain before p rest after args)
      fun _ => Alike (Ready ⟨before ++ p :: after.reverse, rest, false, .undef⟩) := by
  obtain ⟨packed, hpacked⟩ := adjustArgumentFrame_isSome hp
  rintro ⟨world, tr, d⟩ ⟨_, _, ⟨entries, strangers⟩⟩ ⟨rfl, rfl, rfl, h⟩
  rw [callCombined, hpacked]
  obtain ⟨rfl, rfl⟩ | ⟨rfl, hd⟩ := h
  · rw [innerChain_eq]
    have hafter' : Auxiliary args after.reverse := fun m hm => hafter m (mem_reverse.1 hm)
    have hchain := chain_tracks hpacked hp hprimary rest hbefore hafter' false .undef
      (before ++ p :: after.reverse).length (by
        rw [length_append, length_cons]
        omega)
    refine hchain.mono (fun v s s' h => ?_) _ _ ⟨rfl, rfl, rfl, rfl⟩
    obtain ⟨hworld, htrace, hd, ht⟩ := h
    exact ⟨hworld, htrace, by rw [ht], .inr ⟨by rw [ht], hd⟩⟩
  · right
    have hcrash : (procedureInvoker packed >>= invokeCc packed d.methods.length)
        (⟨world, tr, d⟩ : Machine α σ (Dvec α κ σ n)) = .error .crash ⟨world, tr, d⟩ := by
      change EStateM.bind _ _ _ = _
      rw [EStateM.bind, procedureInvoker_nil packed hd]
    change (comparison α κ σ n).EndsApart ((procedureInvoker packed >>= _) _) _
    rw [hcrash]
    obtain ⟨e, hstarts⟩ := innerChain_starts rest after hp (fun m hm => (hbefore m hm).1)
      (⟨world, tr, ⟨1, 0⟩⟩ : Machine α σ Tally)
    have hlen : tr.length < (tr ++ [e]).length := by simp
    refine ⟨⟨tr.length, hlen.trans_le hstarts.length_le, ?_, .inl rfl⟩, fun hclean => ?_⟩
    · rw [getElem?_of_isInitial hstarts hlen, getElem?_concat_length]
      change (tr)[tr.length]? ≠ _
      rw [getElem?_eq_none le_rfl]
      nofun
    · have hgrows := chain_grows p rest args before after.reverse
        (⟨world, tr, ⟨1 + 1, 0⟩⟩ : Machine α σ Tally)
      have htwo : 1 + 1 ≤ 1 := hgrows.2.1.trans hclean.1
      exact absurd htwo (by decide)

end

/-! ### The `:around` methods -/

theorem callMethods_around (around : Methods α κ σ n) (required : ℕ) (optional : Bool)
    (args : Args α) :
    callMethods (around.map .method ++ [.combined required optional]) args =
      callAround around (callCombined required optional) args := by
  induction around generalizing args with
  | nil => rfl
  | cons m around ih =>
    exact congrArg (applyProcedure m · args) (funext ih)

theorem callMethods_plain (methods : Methods α κ σ n) (args : Args α) :
    callMethods (methods.map .method) args = callNextMethods methods args := by
  induction methods generalizing args with
  | nil => rfl
  | cons m methods ih =>
    exact congrArg (applyProcedure m · args) (funext ih)

theorem callCombined_grows (required : ℕ) (optional : Bool) (args : Args α) :
    Grows traceLe (callCombined required optional args : Run α σ (Dvec α κ σ n) (Obj α)) := by
  rw [callCombined]
  cases adjustArgumentFrame required optional args with
  | none => exact .throw traceLe_refl _
  | some packed =>
    refine .get_bind traceLe_trans traceLe_refl fun s => ?_
    exact .bind traceLe_trans (procedureInvoker_grows packed) fun v => invokeCc_grows packed _ v

/-! ### Only primary methods -/

theorem frame_bind {β γ : Type} (x : Run α σ Unit β) (f : β → Run α σ Unit γ) :
    (frame (x >>= f) : Run α σ τ γ) = frame x >>= fun b => frame (f b) := by
  funext s
  change frame (EStateM.bind x f) s = EStateM.bind (frame x) _ s
  rw [frame, EStateM.bind, EStateM.bind, frame]
  cases x ⟨s.world, s.trace, ()⟩ <;> rfl

theorem Body.run_frame {next : Next α σ Unit} {next' : Next α σ τ}
    (h : ∀ args, next' args = frame (next args)) (argv : Args α) (body : Body α σ n) :
    body.run next' argv = frame (body.run next argv) := by
  induction body with
  | ret v | fail => rfl
  | read k ih =>
    funext s
    exact congrFun (ih s.world) s
  | write w k ih =>
    funext s
    exact congrFun ih ⟨w, s.trace, s.extra⟩
  | callNextMethod args k ih =>
    change next' _ >>= (fun v => (k v).run next' argv) =
      frame (next _ >>= fun v => (k v).run next argv)
    rw [frame_bind, h]
    exact congrArg _ (funext ih)

theorem applyProcedure_frame {next : Next α σ Unit} {next' : Next α σ τ}
    (h : ∀ args, next' args = frame (next args)) (m : SgMethod α κ σ n) (args : Args α) :
    applyProcedure m next' args = frame (applyProcedure m next args) := by
  rw [applyProcedure, applyProcedure]
  split_ifs
  · funext s
    exact congrFun (Body.run_frame h args (m.procedure args))
      ⟨s.world, s.trace ++ [⟨m.id, args⟩], s.extra⟩
  · rfl

theorem callNextMethods_frame (methods : Methods α κ σ n) (args : Args α) :
    (callNextMethods methods args : Run α σ τ (Obj α)) = frame (callNextMethods methods args) := by
  induction methods generalizing args with
  | nil => rfl
  | cons m methods ih => exact applyProcedure_frame ih m args

theorem innerChain_plain (p : SgMethod α κ σ n) (rest : Methods α κ σ n)
    (args : Args α) (world : σ) :
    innerChain [] p rest [] args ⟨world, [], ⟨0, 0⟩⟩ =
      frame (callNextMethods (p :: rest) args) ⟨world, [], (⟨1, 0⟩ : Tally)⟩ := by
  have hinner : runInner p p rest args = frame (callNextMethods (p :: rest) args) := by
    rw [runInner, if_pos rfl]
    rfl
  rw [innerChain_eq]
  simp only [chain, runAll, reverse_nil, pure_bind, bind_pure, hinner]

/-! ### When a call does what it is supposed to do -/

/-- The methods of each qualifier can be compared. -/
def AllComparable (methods : Methods α κ σ n) : Prop :=
  ∀ q, Comparable (methods.filter fun m => m.qualifier = q)

theorem observe_trace (r : EStateM.Result CallError (Machine α σ τ) (Obj α)) :
    (observe r).2.2 = (finalState r).trace := by cases r <;> rfl

/-- Calls that end in the same way look the same and are clean; calls that end apart do not and
are not. -/
theorem observe_iff {d₀ : Dvec α κ σ n}
    {r : EStateM.Result CallError (Machine α σ (Dvec α κ σ n)) (Obj α)}
    {r' : EStateM.Result CallError (Machine α σ Tally) (Obj α)}
    (h : (comparison α κ σ n).EndsSame (fun _ => Alike (Ready d₀)) r r' ∨
      (comparison α κ σ n).EndsApart r r') :
    observe r = observe r' ↔ (finalState r').extra.Clean := by
  obtain hsame | ⟨hconflict, hclean⟩ := h
  · cases r with
    | ok v s =>
      cases r' with
      | error e s' => exact hsame.elim
      | ok v' s' =>
        obtain ⟨rfl, hworld, htrace, hready⟩ := hsame
        refine iff_of_true ?_ hready.clean
        rw [observe, observe, hworld, htrace]
    | error e s =>
      cases r' with
      | ok v' s' => exact hsame.elim
      | error e' s' =>
        obtain ⟨rfl, hworld, htrace, hclean⟩ := hsame
        refine iff_of_true ?_ hclean
        rw [observe, observe, hworld, htrace]
  · refine iff_of_false (fun heq => hconflict.ne ?_) hclean
    rw [← observe_trace, ← observe_trace, heq]

section

variable [DecidableEq κ] {C : Classes α κ} {applicable : Methods α κ σ n}
  {args : Args α}

theorem mem_applicable {methods : Methods α κ σ n} {m : SgMethod α κ σ n}
    (h : m ∈ computeApplicableMethods C methods args) :
    m.accepts args.length = true ∧ specializersMatch C m.specializers args = true :=
  Bool.and_eq_true_iff.1 (mem_filter.1 h).2

theorem mem_ofQualifier {q : Qualifier} {m : SgMethod α κ σ n}
    (h : m ∈ ofQualifier C applicable args q) : m ∈ applicable ∧ m.qualifier = q := by
  rw [ofQualifier, bySpecificity, mem_insertionSort, mem_filter] at h
  exact ⟨h.1, of_decide_eq_true h.2⟩

theorem standardCombination_nil (h : ofQualifier C applicable args .primary = []) :
    standardCombination C applicable args = throw .noApplicableMethod := by
  simp only [standardCombination, h]

theorem standardCombination_cons {p : SgMethod α κ σ n} {rest : Methods α κ σ n}
    (h : ofQualifier C applicable args .primary = p :: rest) :
    standardCombination C applicable args = callAround (ofQualifier C applicable args .around)
      (innerChain (ofQualifier C applicable args .before) p rest
        (ofQualifier C applicable args .after)) args := by
  simp only [standardCombination, h]

variable [DecidableEq α]

theorem sortMethod_iff (hcomp : AllComparable applicable) (hargs : args.length = n)
    (hmem : ∀ m ∈ applicable, m.accepts args.length = true ∧
      specializersMatch C m.specializers args = true) (world : σ) :
    observe (callMethods (sortMethod C applicable args).1 args
        ⟨world, [], (sortMethod C applicable args).2⟩) =
      observe (standardCombination C applicable args ⟨world, [], ⟨0, 0⟩⟩) ↔
      (finalState (standardCombination C applicable args ⟨world, [], ⟨0, 0⟩⟩)).extra.Clean := by
  have hsort : ∀ q, sortPrimaryMethods C (sortMethodByQualifier applicable q) args =
      ofQualifier C applicable args q := fun q =>
    sortPrimaryMethods_eq (fun m hm => (hmem m (mem_filter.1 hm).1).2) (hcomp q)
  have hthrow : (finalState ((throw .noApplicableMethod : Run α σ Tally (Obj α))
      ⟨world, [], ⟨0, 0⟩⟩)).extra.Clean := ⟨Nat.zero_le 1, rfl⟩
  rw [sortMethod]
  split_ifs with hplain
  · -- the first primary method is called
    simp only [Bool.and_eq_true, List.isEmpty_iff, sortMethodByQualifier] at hplain
    obtain ⟨⟨haround, hbefore⟩, hafter⟩ := hplain
    rw [hsort]
    cases hprimary : ofQualifier C applicable args .primary with
    | nil =>
      rw [standardCombination_nil hprimary]
      exact iff_of_true rfl hthrow
    | cons p rest =>
      rw [standardCombination_cons hprimary]
      simp only [ofQualifier, haround, hbefore, hafter]
      change observe _ = observe (innerChain [] p rest [] args ⟨world, [], ⟨0, 0⟩⟩) ↔
        (finalState (innerChain [] p rest [] args ⟨world, [], ⟨0, 0⟩⟩)).extra.Clean
      rw [innerChain_plain, callMethods_plain, callNextMethods_frame, frame, frame]
      cases callNextMethods (p :: rest) args (⟨world, [], ()⟩ : Machine α σ Unit) <;>
        exact iff_of_true rfl ⟨le_rfl, rfl⟩
  · rw [computeAroundMethods, hsort]
    cases hprimary : ofQualifier C applicable args .primary with
    | nil =>
      rw [standardCombination_nil hprimary]
      exact iff_of_true rfl hthrow
    | cons p rest =>
      obtain ⟨hp, hpq⟩ := mem_ofQualifier (hprimary ▸ mem_cons_self)
      rw [standardCombination_cons hprimary]
      simp only [hsort, computeAroundMethodsRec, callMethods_around]
      have hother : ∀ q ≠ .primary, ∀ args' : Args α, args'.length = n →
          Auxiliary args' (ofQualifier C applicable args q) := by
        intro q hq args' hargs' m hm
        obtain ⟨happ, rfl⟩ := mem_ofQualifier hm
        refine ⟨?_, hq⟩
        rw [hargs'.trans hargs.symm]
        exact (hmem m happ).1
      have hp' : ∀ args' : Args α, args'.length = n → p.accepts args'.length = true := by
        intro args' hargs'
        rw [hargs'.trans hargs.symm]
        exact (hmem p hp).1
      have hinner : Follows _ _ _ := ⟨fun d t h => Ready.clean h,
        callCombined_grows p.required p.optional, innerChain_grows _ p rest _,
        fun args' hargs' => callCombined_tracks (hp' args' hargs') hpq
          (hother .before nofun args' hargs') (hother .after nofun args' hargs') rest⟩
      exact observe_iff ((hinner.callAround _).tracks _ hargs _ _ ⟨rfl, rfl, rfl, .inl ⟨rfl, rfl⟩⟩)

omit [DecidableEq α] in
theorem lone_method_runs {m : SgMethod α κ σ n} (hm : m.accepts args.length = true)
    (hq : m.qualifier ≠ .primary) (d : Dvec α κ σ n) (world : σ) :
    observe (callMethods [.method m] args ⟨world, [], d⟩) ≠
      observe (standardCombination C [m] args ⟨world, [], ⟨0, 0⟩⟩) := by
  have hnil : ofQualifier C [m] args .primary = [] := by
    rw [ofQualifier, filter_cons_of_neg (by simpa using hq)]
    rfl
  intro heq
  have hstarts := frame_applyProcedure_starts [] hm
    (⟨world, [], d⟩ : Machine α σ (Dvec α κ σ n))
  have hrun : callMethods [.method m] args = frame (applyProcedure m (callNextMethods []) args) :=
    (callMethods_plain [m] args).trans (callNextMethods_frame [m] args)
  rw [← hrun, ← observe_trace, heq, standardCombination_nil hnil] at hstarts
  exact absurd hstarts.length_le (Nat.not_succ_le_zero 0)

/-- **Standard method combination.**  If the applicable methods of each qualifier can be compared,
a call does what it is supposed to do exactly if a single applicable method is a primary one, the
methods inside of the `:around` methods are run once at most, and those of them that are run take
optional arguments as the primary method does. -/
theorem method_combination_iff (C : Classes α κ) (methods : Methods α κ σ n)
    (args : List.Vector (Obj α) n) (world : σ)
    (hcomp : AllComparable (computeApplicableMethods C methods args.toList)) :
    observe (callGeneric C methods args world) = observe (standardCall C methods args world) ↔
      (∀ m, computeApplicableMethods C methods args.toList = [m] → m.qualifier = .primary) ∧
      (finalState (standardCall C methods args world)).extra.Clean := by
  have hcall : callGeneric C methods args world =
      callMethods (sgComputeMethods C methods args.toList).1 args.toList
        ⟨world, [], (sgComputeMethods C methods args.toList).2⟩ := rfl
  have hmem := fun m => @mem_applicable _ _ _ _ _ C args.toList methods m
  rw [hcall, standardCall, sgComputeMethods]
  generalize computeApplicableMethods C methods args.toList = applicable at hmem hcomp
  match applicable with
  | [] => exact iff_of_true rfl ⟨nofun, Nat.zero_le 1, rfl⟩
  | m :: m' :: l =>
    rw [and_iff_right (by rintro m₀ h; cases h)]
    exact sortMethod_iff hcomp args.toList_length hmem world
  | [m] =>
    by_cases hq : m.qualifier = .primary
    · rw [and_iff_right (by rintro m₀ h; obtain ⟨rfl, -⟩ := cons.inj h; exact hq)]
      have hsort : sortMethod C [m] args.toList = ([.method m], .none) := by
        have hother : ∀ q ≠ .primary, sortMethodByQualifier [m] q = [] := fun q hne =>
          filter_cons_of_neg (by simpa [hq] using hne.symm)
        have hprimary : sortMethodByQualifier [m] .primary = [m] :=
          filter_cons_of_pos (by simpa using hq)
        rw [sortMethod, hother .around nofun, hother .before nofun, hother .after nofun, hprimary]
        exact congrArg (fun l => (map Entry.method l, Dvec.none))
          (sortPrimaryMethods_eq (fun m hm => (hmem m hm).2) (pairwise_singleton _ m))
      have := sortMethod_iff hcomp args.toList_length hmem world
      rwa [hsort] at this
    · exact iff_of_false (lone_method_runs (hmem m mem_cons_self).1 hq _ world)
        fun h => hq (h.1 m rfl)

end

/-! ### Calls that go wrong -/

/-- The classes of objects without any structure: there is only one. -/
def oneClass : Classes ℕ Unit := ⟨fun _ => (), fun _ => [()], fun a b => a = b⟩

/-- A method without parameters, whose body writes down what it is. -/
def sampleMethod (id : ℕ) (q : Qualifier) (optional : Bool) (body : Body ℕ Unit 0) :
    SgMethod ℕ Unit Unit 0 := ⟨id, q, [], optional, fun _ => body⟩

/-- A primary method and one around it that calls it once. -/
def calledOnce : List (SgMethod ℕ Unit Unit 0) :=
  [sampleMethod 1 .primary false (.ret (.atom 7)),
    sampleMethod 2 .around false (.callNextMethod none fun v => .ret v)]

/-- The call with a method that calls its next-method once does what it should. -/
theorem calledOnce_right :
    observe (callGeneric oneClass calledOnce .nil ()) =
      observe (standardCall oneClass calledOnce .nil ()) := by
  refine (method_combination_iff oneClass calledOnce .nil () ?_).2 ⟨fun m h => ?_, ?_⟩
  · intro q
    cases q
    · exact pairwise_singleton _ _
    · exact .nil
    · exact .nil
    · exact pairwise_singleton _ _
  · have hlen : 2 = 1 := congrArg length h
    exact absurd hlen (by decide)
  · exact ⟨by decide +kernel, by decide +kernel⟩

/-- A primary method and one around it that calls it twice. -/
def calledTwice : List (SgMethod ℕ Unit Unit 0) :=
  [sampleMethod 1 .primary false (.ret (.atom 7)),
    sampleMethod 2 .around false (.callNextMethod none fun _ => .callNextMethod none .ret)]

/-- A method that calls its next-method twice crashes, a single `:before` method is run, and a
`:before` method without optional arguments is given one if the primary method takes any. -/
theorem combination_goes_wrong :
    (observe (callGeneric oneClass calledTwice .nil ()) = (.error .crash, (), [⟨2, []⟩, ⟨1, []⟩]) ∧
      observe (standardCall oneClass calledTwice .nil ()) =
        (.ok (.atom 7), (), [⟨2, []⟩, ⟨1, []⟩, ⟨1, []⟩])) ∧
    (observe (callGeneric oneClass [sampleMethod 1 .before false (.ret .nil)] .nil ()) =
        (.ok .nil, (), [⟨1, []⟩]) ∧
      observe (standardCall oneClass [sampleMethod 1 .before false (.ret .nil)] .nil ()) =
        (.error .noApplicableMethod, (), [])) ∧
    (observe (callGeneric oneClass [sampleMethod 1 .primary true (.ret (.atom 7)),
        sampleMethod 2 .before false (.ret .nil)] .nil ()) =
        (.error .wrongNumberOfArguments, (), []) ∧
      observe (standardCall oneClass [sampleMethod 1 .primary true (.ret (.atom 7)),
        sampleMethod 2 .before false (.ret .nil)] .nil ()) =
        (.ok (.atom 7), (), [⟨2, []⟩, ⟨1, []⟩])) := by
  refine ⟨⟨?_, ?_⟩, ⟨?_, ?_⟩, ?_, ?_⟩ <;> rfl

end Sagittarius.Clos
