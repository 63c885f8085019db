import Sagittarius.Regex.Machine

/-!
# The runs of a program

A run of a program without extended instructions gets from an instruction to `RX_MATCH`, on some
choice of alternatives; it may come back to an instruction without reading a character.  The threads
of the machine (`Regex/Machine.lean`) do not, which loses no position where a match ends.

* `Runs` : the runs, with the number of their steps;
* `Runs.of_mem_outcomes`, `Runs.mem_outcomes` : the machine finds a match that ends at a position
  exactly if there is a run to it.
-/

namespace Sagittarius.Regex

open List OrderedGraph ThreadMachine Option

section

variable (P : List Inst) (m : Subject) (hold : ℕ → Anchor → Bool)

/-- `Runs n pc s t`: in `n` steps the program gets from `pc` in state `s` to `RX_MATCH` in state
`t`. -/
inductive Runs : ℕ → ℕ → State → State → Prop
  | accept {pc : ℕ} {s : State} : opAt P pc = some .match → Runs 0 pc s s
  | read {n pc : ℕ} {s t : State} : reads P m s.pos pc →
    Runs n (pc + 1) { s with pos := s.pos + 1 } t → Runs (n + 1) pc s t
  | step {n pc : ℕ} {w : ℕ × Caps} {s t : State} : w ∈ follow P (hold s.pos) s.pos pc s.caps →
    Runs n w.1 ⟨s.pos, w.2⟩ t → Runs (n + 1) pc s t

end

variable {P : List Inst} {m : Subject} {hold : ℕ → Anchor → Bool} {n pc i : ℕ} {s t : State}

/-- A state as what a machine finds. -/
def State.asOutcome (s : State) : ℕ × Caps := (s.pos, s.caps)

variable {caps : Caps}

theorem State.eq_of_asOutcome {i : ℕ} (h : t.asOutcome = (i, caps)) : t = ⟨i, caps⟩ := by
  obtain ⟨rfl, rfl⟩ := Prod.mk.inj h
  rfl

/-! ### Runs -/

theorem stops_of_match (h : opAt P pc = some .match) : stops P pc = true := by simp [stops, h]

theorem reads_inv (h : reads P m i pc) : i < m.stop ∧ ∃ a, opAt P pc = some (.consume a) := by
  unfold reads at h
  split at h
  next a fl hinst =>
    rw [Bool.and_eq_true, decide_eq_true_iff] at h
    exact ⟨h.1, a, by simp [opAt, hinst]⟩
  next => cases h

theorem stops_of_reads (h : reads P m i pc) : stops P pc = true := by
  obtain ⟨-, a, hop⟩ := reads_inv h
  simp [stops, hop]

theorem not_match_of_reads (h : reads P m i pc) : opAt P pc ≠ some .match := by
  obtain ⟨-, a, hop⟩ := reads_inv h
  simp [hop]

theorem follow_of_stops {φ : Anchor → Bool} (h : stops P pc = true) :
    follow P φ i pc caps = [] := by
  unfold stops at h
  unfold follow
  split at h
  next hop => simp [hop]
  next hop => simp [hop]
  next => cases h

section

variable (h : Runs P m hold n pc s t)

include h

theorem Runs.inv_step (hs : stops P pc = false) :
    ∃ n' w, n = n' + 1 ∧ w ∈ follow P (hold s.pos) s.pos pc s.caps ∧
      Runs P m hold n' w.1 ⟨s.pos, w.2⟩ t := by
  cases h with
  | accept hop => simp [stops_of_match hop] at hs
  | read hr => simp [stops_of_reads hr] at hs
  | step hw h => exact ⟨_, _, rfl, hw, h⟩

variable {l : ℕ}

theorem Runs.inv_save (hop : opAt P pc = some (.save l)) :
    ∃ n', n = n' + 1 ∧ Runs P m hold n' (pc + 1) (s.save l) t := by
  obtain ⟨n', w, rfl, hw, h'⟩ := h.inv_step (by simp [stops, hop])
  obtain rfl : w = (pc + 1, s.caps.set l (some s.pos)) := by simpa [follow, hop] using hw
  exact ⟨n', rfl, h'⟩

theorem Runs.inv_jmp (hop : opAt P pc = some (.jmp l)) :
    ∃ n', n = n' + 1 ∧ Runs P m hold n' l s t := by
  obtain ⟨n', w, rfl, hw, h'⟩ := h.inv_step (by simp [stops, hop])
  obtain rfl : w = (l, s.caps) := by simpa [follow, hop] using hw
  exact ⟨n', rfl, h'⟩

theorem Runs.inv_split {l' : ℕ} (hop : opAt P pc = some (.split l l')) :
    ∃ n', n = n' + 1 ∧ (Runs P m hold n' l s t ∨ Runs P m hold n' l' s t) := by
  obtain ⟨n', w, rfl, hw, h'⟩ := h.inv_step (by simp [stops, hop])
  obtain rfl | rfl : w = (l, s.caps) ∨ w = (l', s.caps) := by simpa [follow, hop] using hw
  exacts [⟨n', rfl, .inl h'⟩, ⟨n', rfl, .inr h'⟩]

theorem Runs.inv_splitOp {greedy : Bool} {l' : ℕ} (hop : opAt P pc = some (splitOp greedy l l')) :
    ∃ n', n = n' + 1 ∧ (Runs P m hold n' l s t ∨ Runs P m hold n' l' s t) := by
  cases greedy with
  | false =>
    obtain ⟨n', rfl, h'⟩ := h.inv_split hop
    exact ⟨n', rfl, h'.symm⟩
  | true => exact h.inv_split hop

end

theorem Runs.save {l : ℕ} (hop : opAt P pc = some (.save l))
    (h : ∃ n, Runs P m hold n (pc + 1) (s.save l) t) : ∃ n, Runs P m hold n pc s t := by
  obtain ⟨n, h⟩ := h
  exact ⟨n + 1, .step (w := (pc + 1, s.caps.set l (some s.pos))) (by simp [follow, hop]) h⟩

theorem Runs.jmp {l : ℕ} (hop : opAt P pc = some (.jmp l)) (h : ∃ n, Runs P m hold n l s t) :
    ∃ n, Runs P m hold n pc s t := by
  obtain ⟨n, h⟩ := h
  exact ⟨n + 1, .step (w := (l, s.caps)) (by simp [follow, hop]) h⟩

theorem Runs.split {greedy : Bool} {l l' : ℕ} (hop : opAt P pc = some (splitOp greedy l l'))
    (h : (∃ n, Runs P m hold n l s t) ∨ ∃ n, Runs P m hold n l' s t) :
    ∃ n, Runs P m hold n pc s t := by
  have hmem : (l, s.caps) ∈ follow P (hold s.pos) s.pos pc s.caps ∧
      (l', s.caps) ∈ follow P (hold s.pos) s.pos pc s.caps := by
    cases greedy <;> simp [follow, hop, splitOp]
  rcases h with ⟨n, h⟩ | ⟨n, h⟩
  exacts [⟨n + 1, .step hmem.1 h⟩, ⟨n + 1, .step hmem.2 h⟩]

/-! ### The runs of the machine -/

theorem Runs.of_mem_paths {k : ℕ} {S : List ℕ} {q : ℕ × Caps}
    (hq : q ∈ (graph P (hold i) i).paths k S pc caps)
    (h : ∃ n, Runs P m hold n q.1 ⟨i, q.2⟩ t) : ∃ n, Runs P m hold n pc ⟨i, caps⟩ t := by
  induction k generalizing pc S caps with
  | zero => cases hq
  | succ k ih =>
    rw [paths] at hq
    split_ifs at hq
    · cases hq
    · obtain rfl := mem_singleton.1 hq
      exact h
    · obtain ⟨w, hw, hq⟩ := mem_flatMap.1 hq
      obtain ⟨n, hn⟩ := ih hq
      exact ⟨n + 1, .step hw hn⟩

/-- What the machine finds, the program has a run to. -/
theorem Runs.of_mem_outcomes {init : Caps} (l : ℕ)
    (h : t.asOutcome ∈ (closure P (hold i) i pc caps).flatMap
      ((machine P m hold init).outcomes l i)) : ∃ n, Runs P m hold n pc ⟨i, caps⟩ t := by
  induction l using Nat.strong_induction_on generalizing i pc caps with
  | _ l ih =>
    obtain ⟨q, hq, ht⟩ := mem_flatMap.1 h
    refine Runs.of_mem_paths hq ?_
    by_cases hop : opAt P q.1 = some .match
    · rw [outcomes_of_accept (decide_eq_true hop), mem_singleton] at ht
      obtain rfl : t = ⟨i, q.2⟩ := State.eq_of_asOutcome ht
      exact ⟨0, .accept hop⟩
    · cases l with
      | zero => simp [ThreadMachine.outcomes, machine_accept, hop] at ht
      | succ l =>
        rw [ThreadMachine.outcomes, machine_accept, if_neg (by simpa using hop), machine_next] at ht
        split_ifs at ht with hreads
        · obtain ⟨n, hn⟩ := ih l l.lt_succ_self ht
          exact ⟨n + 1, .read hreads hn⟩
        · cases ht

/-- A run first follows instructions that do not read. -/
theorem Runs.reach (h : Runs P m hold n pc s t) :
    ∃ q caps n', (graph P (hold s.pos) s.pos).Reach [] pc q ∧ stops P q ∧
      Runs P m hold n' q ⟨s.pos, caps⟩ t := by
  induction h with
  | @accept pc s hop =>
    exact ⟨pc, s.caps, 0, .leaf nofun (stops_of_match hop), stops_of_match hop, .accept hop⟩
  | @read n pc s t hr h =>
    exact ⟨pc, s.caps, n + 1, .leaf nofun (stops_of_reads hr), stops_of_reads hr, .read hr h⟩
  | @step n pc w s t hw _ ih =>
    obtain ⟨q, caps, n', hq, hrun⟩ := ih
    refine ⟨q, caps, n', .step nofun (Bool.eq_false_iff.2 fun hs => ?_)
      (mem_map_of_mem hw) hq, hrun⟩
    rw [follow_of_stops hs] at hw
    cases hw

/-- Where the program has a run to, the machine finds a match. -/
theorem Runs.mem_outcomes (h : Runs P m hold n pc s t) (init caps : Caps) (l : ℕ)
    (hl : s.pos + l = m.stop) :
    t.pos ∈ ((closure P (hold s.pos) s.pos pc caps).flatMap
      ((machine P m hold init).outcomes l s.pos)).map Prod.fst := by
  induction l using Nat.strong_induction_on generalizing n pc s caps with
  | _ l ih =>
    obtain ⟨q, c, n', hq, hstops, hrun⟩ := h.reach
    obtain ⟨⟨q, c'⟩, hmem, rfl⟩ := mem_map.1 ((mem_paths (remaining_lt [])).2 hq)
    rw [map_flatMap, mem_flatMap]
    refine ⟨_, hmem, ?_⟩
    cases hrun with
    | accept hop => simp [outcomes_of_accept, machine_accept, hop]
    | read hr hrun =>
      have hlt : s.pos < m.stop := (reads_inv hr).1
      obtain _ | l := l
      · omega
      rw [ThreadMachine.outcomes, machine_accept, if_neg (by simpa using not_match_of_reads hr),
        machine_next, if_pos hr]
      exact ih l l.lt_succ_self hrun c' (by dsimp only; omega)
    | step hw => simp [follow_of_stops hstops] at hw

end Sagittarius.Regex
