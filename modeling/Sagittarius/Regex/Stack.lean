import Sagittarius.Regex.Pike

/-!
# The stack of `add_to_threadq`

The loop of `add_to_threadq` one step after the other, with its stack.

* `addStep` : a state is taken from the stack; `addLoop_eq_iterate` : the loop is its iteration;
* `addStep_cases` : a step enters an instruction into the queue that has not been there, or it only
  makes the stack shorter;
* `addToThreadq_stack` : the stack has room for all states, an instruction is visited at most once,
  and the captures are restored.
-/

namespace Sagittarius.Regex

open List OrderedGraph Prod

variable (P : List Inst) (flags : Anchor → Bool) (p : ℕ)

/-- The stack, the queue and the captures of `add_to_threadq` -/
abbrev AddFrame := List AddState × ThreadQ × Caps

/-- A state is taken from the stack. -/
def addStep : AddFrame → AddFrame
  | ([], q, capture) => ([], q, capture)
  | (.restore j cap :: stk, q, capture) => (stk, q, capture.set j cap)
  | (.visit id :: stk, q, capture) =>
    if id ∈ q.map fst then (stk, q, capture)
    else match opAt P id with
      | some (.jmp x) => (.visit x :: stk, q ++ [(id, none)], capture)
      | some (.split x y) => (.visit x :: .visit y :: stk, q ++ [(id, none)], capture)
      | some (.save j) =>
        if h : j < capture.length then
          (.visit (id + 1) :: .restore j capture[j] :: stk, q ++ [(id, none)],
            capture.set j (some p))
        else (.visit (id + 1) :: stk, q ++ [(id, none)], capture)
      | some (.empty a) =>
        if flags a then (.visit (id + 1) :: stk, q ++ [(id, none)], capture)
        else (stk, q ++ [(id, none)], capture)
      | some (.consume _) | some .match => (stk, q ++ [(id, some capture)], capture)
      | _ => (stk, q ++ [(id, none)], capture)

theorem addLoop_eq_iterate (n : ℕ) (s : AddFrame) :
    addLoop P flags p n s.1 s.2.1 s.2.2 = ((addStep P flags p)^[n] s).2 := by
  induction n generalizing s with
  | zero => rfl
  | succ n ih =>
    rw [Function.iterate_succ_apply, ← ih]
    obtain ⟨_ | ⟨id | ⟨j, cap⟩, stk⟩, q, capture⟩ := s
    · cases n <;> rfl
    · simp only [addLoop, addStep]
      split_ifs with hid
      · rfl
      · generalize opAt P id = op
        rcases op with _ | op
        · rfl
        cases op with
        | save | empty =>
          dsimp only
          split_ifs <;> rfl
        | _ => rfl
    · rfl

theorem addStep_cases (x : AddState) (stk : List AddState) (q : ThreadQ) (capture : Caps) :
    let s := addStep P flags p (x :: stk, q, capture)
    (s.1 = stk ∧ s.2.1 = q) ∨ ∃ id c, id ∉ q.map fst ∧ s.2.1 = q ++ [(id, c)] ∧
      (s.1 = stk ∨ id < P.length ∧ s.1.length ≤ stk.length + 2) := by
  intro s
  cases x with
  | restore j cap => exact .inl ⟨rfl, rfl⟩
  | visit id =>
    by_cases hid : id ∈ q.map fst
    · have hs : s = (stk, q, capture) := if_pos hid
      rw [hs]
      exact .inl ⟨rfl, rfl⟩
    have hs : s = _ := if_neg hid
    cases hop : opAt P id with
    | none =>
      rw [hop] at hs
      rw [hs]
      exact .inr ⟨id, none, hid, rfl, .inl rfl⟩
    | some op =>
      have hlt := lt_length_of_opAt hop
      rw [hop] at hs
      cases op with
      | jmp | split =>
        rw [hs]
        exact .inr ⟨id, none, hid, rfl, .inr ⟨hlt, by simp⟩⟩
      | save | empty =>
        dsimp only at hs
        split_ifs at hs
        all_goals
          rw [hs]
          exact .inr ⟨id, none, hid, rfl, .inr ⟨hlt, by simp⟩⟩
      | consume | «match» =>
        rw [hs]
        exact .inr ⟨id, some capture, hid, rfl, .inl rfl⟩
      | _ =>
        rw [hs]
        exact .inr ⟨id, none, hid, rfl, .inl rfl⟩

variable {P flags p}

/-- What holds after `k` steps with the queue `q`: the instructions that have been visited are
behind those of `q`, each of them once, and every state that is on the stack or can still come there
is counted. -/
structure Visited (P : List Inst) (flags : Anchor → Bool) (p : ℕ) (q : ThreadQ) (k : ℕ)
    (s : AddFrame) : Prop where
  queue : ∃ r, s.2.1 = q ++ r ∧ (r.map fst).Nodup ∧ ∀ u ∈ r.map fst, u ∉ q.map fst
  room : s.1.length + (graph P flags p).remaining (s.2.1.map fst) ≤ P.length + 1
  ends : s.1 = [] ∨ s.1.length + 2 * (graph P flags p).remaining (s.2.1.map fst) + k ≤
    2 * P.length + 1

theorem Visited.step {q : ThreadQ} {k : ℕ} {s : AddFrame} (h : Visited P flags p q k s) :
    Visited P flags p q (k + 1) (addStep P flags p s) := by
  obtain ⟨_ | ⟨x, stk⟩, q', capture⟩ := s
  · exact ⟨h.queue, h.room, .inl rfl⟩
  obtain ⟨⟨r, hr, hnodup, hnew⟩, hroom, hends⟩ := h
  dsimp only at hr hroom hends
  rw [length_cons] at hroom
  have hends := hends.resolve_left (cons_ne_nil _ _)
  rw [length_cons] at hends
  rcases addStep_cases P flags p x stk q' capture with ⟨hstk, hq⟩ | ⟨id, c, hid, hq, hstk⟩
  · refine ⟨⟨r, hq.trans hr, hnodup, hnew⟩, ?_, .inr ?_⟩
    · rw [hstk, hq]
      omega
    · rw [hstk, hq]
      omega
  · have hle : (graph P flags p).remaining ((q' ++ [(id, c)]).map fst) ≤
        (graph P flags p).remaining (id :: q'.map fst) :=
      remaining_le fun u hu => by simpa [or_comm] using hu
    have hle' : (graph P flags p).remaining (id :: q'.map fst) ≤
        (graph P flags p).remaining (q'.map fst) :=
      remaining_le fun u hu => mem_cons_of_mem _ hu
    have hqueue : ∃ r, (addStep P flags p (x :: stk, q', capture)).2.1 = q ++ r ∧
        (r.map fst).Nodup ∧ ∀ u ∈ r.map fst, u ∉ q.map fst := by
      rw [hr, map_append, mem_append, not_or] at hid
      refine ⟨r ++ [(id, c)], by rw [hq, hr, append_assoc], ?_, ?_⟩
      · rw [map_append]
        exact hnodup.append (nodup_singleton id) (by simpa using hid.2)
      · rw [map_append, forall_mem_append]
        exact ⟨hnew, by simpa using hid.1⟩
    refine ⟨hqueue, ?_, .inr ?_⟩
    all_goals
      rw [hq]
      rcases hstk with hstk | ⟨hlt, hlen⟩
      · rw [hstk]
        omega
      · have := remaining_cons_lt (G := graph P flags p) (Finset.mem_range.2 hlt) hid
        omega

/-- **The stack of `add_to_threadq`** never holds more than twice as many states as there are
instructions, every instruction is visited once at most, and in the end the stack is empty and the
captures are what they were. -/
theorem addToThreadq_stack (P : List Inst) (flags : Anchor → Bool) (p id : ℕ) (hid : id < P.length)
    (capture : Caps) (q : ThreadQ) :
    (∀ k, ((addStep P flags p)^[k] ([.visit id], q, capture)).1.length ≤ 2 * P.length) ∧
      ∃ r, (addStep P flags p)^[2 * P.length + 1] ([.visit id], q, capture) =
          ([], q ++ r, capture) ∧
        addToThreadq P flags p id capture q = q ++ r ∧ (r.map fst).Nodup ∧
        ∀ u ∈ r.map fst, u ∉ q.map fst := by
  have hcard : (graph P flags p).inner.card = P.length := Finset.card_range _
  have hrem : (graph P flags p).remaining (q.map fst) ≤ P.length := by
    have := remaining_lt (G := graph P flags p) (q.map fst)
    omega
  have hinv : ∀ k, Visited P flags p q k ((addStep P flags p)^[k] ([.visit id], q, capture)) := by
    intro k
    induction k with
    | zero =>
      refine ⟨⟨[], by simp, nodup_nil, nofun⟩, ?_, .inr ?_⟩
      all_goals
        simp only [Function.iterate_zero, id_eq, length_singleton]
        omega
    | succ k ih =>
      rw [Function.iterate_succ_apply']
      exact ih.step
  refine ⟨fun k => ?_, ?_⟩
  · have := (hinv k).room
    omega
  · obtain ⟨⟨r, hr, hnodup, hnew⟩, -, hends⟩ := hinv (2 * P.length + 1)
    have hloop := addLoop_eq_iterate P flags p (2 * P.length + 1) ([.visit id], q, capture)
    have hrun : addLoop P flags p (2 * P.length + 1) [.visit id] q capture = _ :=
      addLoop_eq _ _ _ _ (by rw [length_singleton]; omega)
    have hstk : ((addStep P flags p)^[2 * P.length + 1] ([.visit id], q, capture)).1 = [] := by
      rcases hends with hends | hends
      · exact hends
      · exact length_eq_zero_iff.1 (by omega)
    have hcapture := (congrArg snd hloop).symm.trans (congrArg snd hrun)
    exact ⟨r, Prod.ext hstk (Prod.ext hr hcapture), (congrArg fst hloop).trans hr, hnodup,
      hnew⟩

/-- A loop whose position is saved: the capture is set, and restored at the end. -/
theorem addToThreadq_stack_save :
    let P : List Inst := [.save 0, .split 2 3, .jmp 0, .match].map (⟨·, ⟨false, false, false⟩⟩)
    (∀ k, ((addStep P (fun _ => true) 5)^[k] ([.visit 0], [], [none])).1.length ≤ 8) ∧
      ∃ r, (addStep P (fun _ => true) 5)^[9] ([.visit 0], [], [none]) = ([], r, [none]) ∧
        addToThreadq P (fun _ => true) 5 0 [none] [] = r ∧ (r.map fst).Nodup := by
  intro P
  obtain ⟨hlen, r, hrun, hq, hnodup, -⟩ :=
    addToThreadq_stack P (fun _ => true) 5 0 (by decide) [none] []
  exact ⟨hlen, r, hrun, hq, hnodup⟩

end Sagittarius.Regex
