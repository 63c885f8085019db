import Mathlib.Data.List.TakeWhile
import Sagittarius.Library.DepthFirst

/-!
# Searching in lock step

Threads read a text, a character at a time; one that accepts has found a match that ends where it
is.  The threads are ordered by preference, and there are two ways to find the preferred match.

* `outcomes` follows one thread, its successors in their order, to the end: backtracking;
* `lock` moves all threads on at the same time, keeps of several threads in the same place the
  preferred one and drops the threads that are less preferred than one that accepts.

`lock_fst` : both find the same match.  New threads may be started at every position as long as
nothing has been found; then the match is the leftmost one (`starts`).  `Covers` relates the threads
of a search to the threads that there are (`Reached`).
-/

namespace Sagittarius

open List Option Prod

/-- Threads are in a place `κ` and carry data `σ`, which does not influence where they go. -/
structure ThreadMachine (κ σ : Type*) where
  /-- a thread in this place has found a match -/
  accept : κ → Bool
  /-- a thread in this place reads the character at the position -/
  reads : ℕ → κ → Bool
  /-- the threads it turns into then -/
  succ : ℕ → κ × σ → List (κ × σ)
  succ_fst : ∀ p k s t, (succ p (k, s)).map fst = (succ p (k, t)).map fst
  /-- the threads that start at a position -/
  spawn : ℕ → List (κ × σ)

namespace ThreadMachine

variable {κ σ : Type*} (M : ThreadMachine κ σ)

/-- What a thread turns into at a position. -/
def next (p : ℕ) (t : κ × σ) : List (κ × σ) := if M.reads p t.1 then M.succ p t else []

/-- The matches of a thread at position `p`, `n` characters before the end, with the data of the
thread that found each. -/
def outcomes : ℕ → ℕ → κ × σ → List (ℕ × σ)
  | 0, p, t => if M.accept t.1 then [(p, t.2)] else []
  | n + 1, p, t =>
    if M.accept t.1 then [(p, t.2)] else (M.next p t).flatMap (outcomes n (p + 1))

/-- The matches of the threads that start at `p` and later. -/
def starts : ℕ → ℕ → List (ℕ × σ)
  | 0, p => (M.spawn p).flatMap (M.outcomes 0 p)
  | n + 1, p => (M.spawn p).flatMap (M.outcomes (n + 1) p) ++ starts n (p + 1)

/-- Where a thread gets to that is followed for `n` characters more, in the order of preference:
it accepts, or it reads the last one of them. -/
def tries : ℕ → ℕ → κ × σ → List ℕ
  | 0, p, t => if M.accept t.1 then [p] else if M.reads p t.1 then [p + 1] else []
  | n + 1, p, t => if M.accept t.1 then [p] else (M.next p t).flatMap (tries n (p + 1))

/-- `tries` of the threads that are started after `p`. -/
def triesAfter : ℕ → ℕ → List ℕ
  | 0, _ => []
  | n + 1, p => (M.spawn (p + 1)).flatMap (M.tries n (p + 1)) ++ triesAfter n (p + 1)

/-- The threads before the first one that accepts. -/
def preferred (T : List (κ × σ)) : List (κ × σ) := T.takeWhile fun t => !M.accept t.1

/-- The match that the threads at `p` have found. -/
def found (p : ℕ) (T : List (κ × σ)) : Option (ℕ × σ) :=
  (T.find? fun t => M.accept t.1).map fun t => (p, t.2)

/-- All threads at once: `T` at position `p`, `n` characters before the end, with the best match so
far.  The second result is the position where the search ends. -/
def lock [DecidableEq κ] (unanchored : Bool) :
    ℕ → ℕ → List (κ × σ) → Option (ℕ × σ) → Option (ℕ × σ) × ℕ
  | 0, p, T, best => ((M.found p T).or best, p)
  | n + 1, p, T, best =>
    let best' := (M.found p T).or best
    let T' := (M.preferred T).flatMap (M.next p)
    if best'.isNone && unanchored then
      lock unanchored n (p + 1) (extendBy [] (T' ++ M.spawn (p + 1))) best'
    else if (M.preferred T).any fun t => M.reads p t.1 then
      lock unanchored n (p + 1) (extendBy [] T') best'
    else (best', p)

/-! ### Only the place of a thread matters -/

variable {M}

variable {t t' : κ × σ}

theorem next_fst (p : ℕ) (h : t.1 = t'.1) :
    (M.next p t).map fst = (M.next p t').map fst := by
  obtain ⟨k, s⟩ := t
  obtain ⟨k', s'⟩ := t'
  obtain rfl : k = k' := h
  simp only [next]
  split
  · exact M.succ_fst p k s s'
  · rfl

/-- Two machines whose threads move in the same way. -/
structure SameMoves (M M' : ThreadMachine κ σ) : Prop where
  accept : M.accept = M'.accept
  reads : M.reads = M'.reads
  succ : M.succ = M'.succ
  spawn : ∀ p, (M.spawn p).map fst = (M'.spawn p).map fst

theorem flatMap_congr_fst {α : Type*} {f g : κ × σ → List α} {l l' : List (κ × σ)}
    (h : l.map fst = l'.map fst) (hfg : ∀ w w' : κ × σ, w.1 = w'.1 → f w = g w') :
    l.flatMap f = l'.flatMap g := by
  induction l generalizing l' with
  | nil =>
    obtain rfl : l' = [] := map_eq_nil_iff.1 h.symm
    rfl
  | cons w l ih =>
    cases l' with
    | nil => cases h
    | cons w' l' =>
      obtain ⟨hw, hl⟩ := List.cons.inj h
      rw [flatMap_cons, flatMap_cons, hfg w w' hw, ih hl]

section

variable {M' : ThreadMachine κ σ} (h : M.SameMoves M')

include h

theorem SameMoves.next_fst (p : ℕ) (ht : t.1 = t'.1) :
    (M.next p t).map fst = (M'.next p t').map fst := by
  have hnext : M'.next p t' = M.next p t' := by rw [next, next, h.reads, h.succ]
  rw [hnext]
  exact ThreadMachine.next_fst p ht

theorem SameMoves.tries (n p : ℕ) (ht : t.1 = t'.1) : M.tries n p t = M'.tries n p t' := by
  induction n generalizing p t t' with
  | zero => simp only [tries, h.accept, h.reads, ht]
  | succ n ih =>
    rw [tries, tries, h.accept, ht]
    split_ifs
    · rfl
    · exact flatMap_congr_fst (h.next_fst p ht) fun w w' => ih (p + 1)

theorem SameMoves.outcomes (n p : ℕ) (ht : t.1 = t'.1) :
    (M.outcomes n p t).map fst = (M'.outcomes n p t').map fst := by
  induction n generalizing p t t' with
  | zero =>
    rw [outcomes, outcomes, h.accept, ht]
    split_ifs <;> rfl
  | succ n ih =>
    rw [outcomes, outcomes, h.accept, ht]
    split_ifs
    · rfl
    · rw [map_flatMap, map_flatMap]
      exact flatMap_congr_fst (h.next_fst p ht) fun w w' => ih (p + 1)

end

variable {n p : ℕ}

theorem sameMoves_refl (M : ThreadMachine κ σ) : M.SameMoves M := ⟨rfl, rfl, rfl, fun _ => rfl⟩

theorem outcomes_eq_nil_iff (h : t.1 = t'.1) : M.outcomes n p t = [] ↔ M.outcomes n p t' = [] := by
  rw [← map_eq_nil_iff (f := fst), (sameMoves_refl M).outcomes n p h, map_eq_nil_iff]

theorem tries_eq_nil_iff (h : t.1 = t'.1) : M.tries n p t = [] ↔ M.tries n p t' = [] := by
  rw [(sameMoves_refl M).tries n p h]

section

variable [DecidableEq κ] {α : Type*} {f : κ × σ → List α}

/-- Removing threads in places that are taken does not change the first result. -/
theorem head?_flatMap_extendBy (hf : ∀ t t' : κ × σ, t.1 = t'.1 → (f t = [] ↔ f t' = []))
    (l l' : List (κ × σ)) :
    ((extendBy l l').flatMap f).head? = ((l ++ l').flatMap f).head? := by
  induction l' generalizing l with
  | nil => rw [extendBy_nil, append_nil]
  | cons e l' ih =>
    rw [extendBy_cons, ih]
    split_ifs with he
    · obtain ⟨e', he', hfst⟩ := mem_map.1 he
      by_cases hnil : f e = []
      · simp [hnil]
      · -- the preferred thread in this place has a result, so what follows it does not count
        have hne : l.flatMap f ≠ [] := fun h =>
          hnil ((hf _ _ hfst).1 (flatMap_eq_nil_iff.1 h e' he'))
        obtain ⟨a, as, ha⟩ := exists_cons_of_ne_nil hne
        simp [ha]
    · simp

end

/-! ### What the threads find -/

theorem outcomes_of_accept (h : M.accept t.1) : M.outcomes n p t = [(p, t.2)] := by
  cases n <;> simp [outcomes, h]

variable {T : List (κ × σ)}

theorem found_eq_none : M.found p T = none ↔ ∀ t ∈ T, M.accept t.1 = false := by
  simp [found, find?_eq_none]

theorem preferred_of_found_eq_none (h : M.found p T = none) : M.preferred T = T :=
  takeWhile_eq_self_iff.2 fun t ht => by simp [found_eq_none.1 h t ht]

/-- The first result of the threads is one of the preferred threads, or else of the one that
accepts. -/
theorem head?_flatMap_preferred {α : Type*} {f : κ × σ → List α} {g : κ × σ → α}
    (hf : ∀ t, M.accept t.1 → f t = [g t]) (T : List (κ × σ)) :
    (T.flatMap f).head? =
      ((M.preferred T).flatMap f).head?.or ((T.find? fun t => M.accept t.1).map g) := by
  induction T with
  | nil => rfl
  | cons t T ih =>
    by_cases h : M.accept t.1
    · simp [preferred, h, hf]
    · simp only [preferred, h, Bool.not_false, takeWhile_cons_of_pos, flatMap_cons,
        head?_append] at ih ⊢
      simp [h, ih, Option.or_assoc]

theorem head?_outcomes (n p : ℕ) (T : List (κ × σ)) :
    (T.flatMap (M.outcomes n p)).head? =
      (((M.preferred T).flatMap (M.outcomes n p)).head?).or (M.found p T) :=
  head?_flatMap_preferred (fun _ => outcomes_of_accept) T

theorem tries_of_accept (h : M.accept t.1) : M.tries n p t = [p] := by
  cases n <;> simp [tries, h]

theorem head?_tries (n p : ℕ) (T : List (κ × σ)) :
    (T.flatMap (M.tries n p)).head? =
      (((M.preferred T).flatMap (M.tries n p)).head?).or ((M.found p T).map fst) := by
  rw [head?_flatMap_preferred (fun _ => tries_of_accept), found, Option.map_map]
  rfl

theorem flatMap_preferred {α : Type*} {f g : κ × σ → List α}
    (h : ∀ t, ¬ M.accept t.1 = true → f t = g t) :
    (M.preferred T).flatMap f = (M.preferred T).flatMap g :=
  flatMap_congr fun t ht => h t (by simpa using mem_takeWhile_imp ht)

theorem head?_tries_zero_preferred (p : ℕ) (T : List (κ × σ)) :
    ((M.preferred T).flatMap (M.tries 0 p)).head? =
      if (M.preferred T).any fun t => M.reads p t.1 then some (p + 1) else none := by
  rw [flatMap_preferred (f := M.tries 0 p) fun t ht => if_neg ht]
  induction M.preferred T with
  | nil => rfl
  | cons t T ih =>
    rw [flatMap_cons, head?_append, ih, any_cons]
    cases M.reads p t.1
    · rfl
    · simp

theorem next_eq_nil_of_not_any (h : ¬ (T.any fun t => M.reads p t.1) = true) :
    T.flatMap (M.next p) = [] := by
  rw [flatMap_eq_nil_iff]
  intro t ht
  rw [next, if_neg]
  intro hr
  exact h (any_eq_true.2 ⟨t, ht, hr⟩)

/-- No thread has found a match, and none reads the character at `p`. -/
def Stuck (M : ThreadMachine κ σ) (p : ℕ) (T : List (κ × σ)) : Prop :=
  ∀ t ∈ T, M.accept t.1 = false ∧ M.reads p t.1 = false

theorem Stuck.found (h : M.Stuck p T) : M.found p T = none :=
  found_eq_none.2 fun t ht => (h t ht).1

theorem Stuck.not_any (h : M.Stuck p T) : ¬ (T.any fun t => M.reads p t.1) = true := by
  simpa [List.any_eq_true] using fun k s ht => (h (k, s) ht).2

/-- The matches of the threads that are started after `p`. -/
def startsAfter (M : ThreadMachine κ σ) : ℕ → ℕ → List (ℕ × σ)
  | 0, _ => []
  | n + 1, p => M.starts n (p + 1)

theorem starts_eq (n p : ℕ) :
    M.starts n p = (M.spawn p).flatMap (M.outcomes n p) ++ M.startsAfter n p := by
  cases n <;> simp [starts, startsAfter]

variable {e : ℕ}

theorem starts_eq_flatMap (he : p + n = e) :
    M.starts n p =
      (range' p (n + 1)).flatMap fun i => (M.spawn i).flatMap (M.outcomes (e - i) i) := by
  induction n generalizing p with
  | zero =>
    obtain rfl : p = e := he
    simp [starts]
  | succ n ih =>
    rw [starts, ih (by omega), range'_succ (s := p), flatMap_cons, show e - p = n + 1 by omega]

theorem starts_eq_nil (he : p + n = e) :
    M.starts n p = [] ↔
      ∀ i, p ≤ i → i ≤ e → (M.spawn i).flatMap (M.outcomes (e - i) i) = [] := by
  rw [starts_eq_flatMap he, flatMap_eq_nil_iff]
  simp only [mem_range'_1, and_imp, ← Nat.add_assoc, he, Nat.lt_succ_iff]

theorem head?_starts {r : ℕ × σ} (he : p + n = e) (h : (M.starts n p).head? = some r) :
    ∃ i, p ≤ i ∧ i ≤ e ∧
      (∀ i', p ≤ i' → i' < i → (M.spawn i').flatMap (M.outcomes (e - i') i') = []) ∧
      ((M.spawn i).flatMap (M.outcomes (e - i) i)).head? = some r := by
  rw [starts_eq_flatMap he, head?_flatMap, findSome?_eq_some_iff] at h
  obtain ⟨before, i, after, hsplit, hi, hbefore⟩ := h
  obtain ⟨k, hk, rfl, hafter⟩ := range'_eq_append_iff.1 hsplit
  obtain ⟨rfl, hlt, -⟩ := range'_eq_cons_iff.1 hafter.symm
  refine ⟨_, by omega, by omega, fun i' h1 h2 => ?_, hi⟩
  exact head?_eq_none_iff.1 (hbefore i' (mem_range'_1.2 ⟨h1, by omega⟩))

/-! ### Where a match ends -/

/-- The match that is preferred, of the threads that start at `p` or of later ones too. -/
def firstMatch (M : ThreadMachine κ σ) (unanchored : Bool) (n p : ℕ) : Option (ℕ × σ) :=
  (if unanchored then M.starts n p else (M.spawn p).flatMap (M.outcomes n p)).head?

/-- The first of all attempts from `p` on that gets anywhere, followed for `d` characters more. -/
def firstTry (M : ThreadMachine κ σ) (unanchored : Bool) (d p : ℕ) : Option ℕ :=
  ((M.spawn p).flatMap (M.tries d p)).head?.or
    (if unanchored then (M.triesAfter d p).head? else none)

variable {unanchored : Bool} {best : Option (ℕ × σ)} {d : ℕ} {s : σ}

theorem mem_outcomes_bounds (h : (e, s) ∈ M.outcomes n p t) : p ≤ e ∧ e ≤ p + n := by
  induction n generalizing p t with
  | zero =>
    rw [outcomes] at h
    split_ifs at h
    · obtain ⟨rfl, -⟩ := Prod.mk.inj (mem_singleton.1 h)
      exact ⟨le_rfl, le_rfl⟩
    · cases h
  | succ n ih =>
    rw [outcomes] at h
    split_ifs at h
    · obtain ⟨rfl, -⟩ := Prod.mk.inj (mem_singleton.1 h)
      exact ⟨le_rfl, Nat.le_add_right _ _⟩
    · obtain ⟨w, -, hw⟩ := mem_flatMap.1 h
      have := ih hw
      omega

/-- A thread that finds a match gets somewhere, wherever it is cut off behind the match. -/
theorem tries_ne_nil (h : (e, s) ∈ M.outcomes n p t) (he : e ≤ p + d) : M.tries d p t ≠ [] := by
  induction d generalizing n p t with
  | zero =>
    obtain rfl : e = p := Nat.le_antisymm he (mem_outcomes_bounds h).1
    by_cases hacc : M.accept t.1
    · simp [tries, hacc]
    · cases n with
      | zero => simp [outcomes, hacc] at h
      | succ n =>
        rw [outcomes, if_neg hacc] at h
        obtain ⟨w, -, hw⟩ := mem_flatMap.1 h
        have := (mem_outcomes_bounds hw).1
        omega
  | succ d ih =>
    rw [tries]
    split_ifs with hacc
    · simp
    · cases n with
      | zero => simp [outcomes, hacc] at h
      | succ n =>
        rw [outcomes, if_neg hacc] at h
        obtain ⟨w, hw, hout⟩ := mem_flatMap.1 h
        intro hnil
        exact ih hout (by omega) (flatMap_eq_nil_iff.1 hnil w hw)

theorem triesAfter_ne_nil {i : ℕ} (hpi : p < i) (hid : i ≤ p + d)
    (h : (M.spawn i).flatMap (M.tries (p + d - i) i) ≠ []) : M.triesAfter d p ≠ [] := by
  induction d generalizing p with
  | zero => omega
  | succ d ih =>
    rw [triesAfter, ne_eq, append_eq_nil_iff, not_and_or]
    rcases (Nat.succ_le_of_lt hpi).eq_or_lt with rfl | hlt
    · left
      rwa [show p + (d + 1) - p.succ = d by omega] at h
    · right
      refine ih hlt (by omega) ?_
      rwa [show p + 1 + d - i = p + (d + 1) - i by omega]

theorem mem_of_firstMatch (h : M.firstMatch unanchored n p = some (e, s)) :
    ∃ i, p ≤ i ∧ i ≤ e ∧ e ≤ p + n ∧ (unanchored = false → i = p) ∧
      (e, s) ∈ (M.spawn i).flatMap (M.outcomes (p + n - i) i) := by
  obtain ⟨i, hpi, hi, hfalse, hmem⟩ : ∃ i, p ≤ i ∧ i ≤ p + n ∧ (unanchored = false → i = p) ∧
      (e, s) ∈ (M.spawn i).flatMap (M.outcomes (p + n - i) i) := by
    cases unanchored with
    | true =>
      obtain ⟨i, hpi, hi, -, hhead⟩ := head?_starts rfl h
      exact ⟨i, hpi, hi, nofun, mem_of_mem_head? hhead⟩
    | false =>
      refine ⟨p, le_rfl, Nat.le_add_right _ _, fun _ => rfl, ?_⟩
      rw [Nat.add_sub_cancel_left]
      exact mem_of_mem_head? h
  obtain ⟨t, -, hout⟩ := mem_flatMap.1 hmem
  have := mem_outcomes_bounds hout
  exact ⟨i, hpi, this.1, by omega, hfalse, hmem⟩

theorem firstTry_ne_none (h : M.firstMatch unanchored n p = some (e, s)) :
    M.firstTry unanchored (e - p) p ≠ none := by
  obtain ⟨i, hpi, hie, -, hfalse, hmem⟩ := mem_of_firstMatch h
  obtain ⟨t, ht, hout⟩ := mem_flatMap.1 hmem
  have htries : (M.spawn i).flatMap (M.tries (e - i) i) ≠ [] := fun hnil =>
    tries_ne_nil hout (by omega) (flatMap_eq_nil_iff.1 hnil t ht)
  rw [firstTry, ne_eq, or_eq_none_iff, not_and_or]
  rcases hpi.eq_or_lt with rfl | hlt
  · left
    rwa [head?_eq_none_iff]
  · right
    have htrue : unanchored = true := by
      by_contra hf
      have := hfalse (Bool.eq_false_iff.2 hf)
      omega
    rw [if_pos htrue, head?_eq_none_iff]
    refine triesAfter_ne_nil hlt (by omega) ?_
    rwa [show p + (e - p) - i = e - i by omega]

theorem found_or_le (hbest : ∀ r, best = some r → r.1 ≤ p) (r : ℕ × σ)
    (hr : (M.found p T).or best = some r) : r.1 ≤ p := by
  cases hfound : M.found p T with
  | none =>
    rw [hfound, none_or] at hr
    exact hbest r hr
  | some r' =>
    obtain ⟨t, -, rfl⟩ := map_eq_some_iff.1 hfound
    rw [hfound, some_or] at hr
    obtain rfl := some.inj hr
    exact le_rfl

/-- What gets anywhere first gets to `h`; or nothing gets anywhere, and `more` is to come. -/
def GetsTo (more : Bool) (h : ℕ) : Option ℕ → Prop
  | some q => q = h
  | none => more

theorem not_getsTo {q : ℕ} {rest : Option ℕ}
    (h : ¬ (((M.found p T).or best).isNone && unanchored) = true) (hq : p < q) :
    ¬ GetsTo (unanchored && best.isNone) q
      (((M.found p T).map fst).or (if unanchored && best.isNone then rest else none)) := by
  cases hfound : M.found p T with
  | some r =>
    obtain ⟨t, -, rfl⟩ := map_eq_some_iff.1 hfound
    exact hq.ne
  | none =>
    rw [hfound, none_or, Bool.and_comm] at h
    rw [if_neg h]
    exact h

/-! ### Which threads there are -/

/-- A thread that was started at `i` has become `t` at the position `p`. -/
inductive Reached (M : ThreadMachine κ σ) (i : ℕ) : ℕ → κ × σ → Prop
  | start {t : κ × σ} : t ∈ M.spawn i → Reached M i i t
  | next {p : ℕ} {t t' : κ × σ} : Reached M i p t → t' ∈ M.next p t → Reached M i (p + 1) t'

/-- A search from `b` on is idle at `p`: no thread has found a match before `p`, and none reads the
last character before it. -/
def Idle (M : ThreadMachine κ σ) (b p : ℕ) : Prop :=
  ∀ i q t, b ≤ i → q < p → M.Reached i q t →
    M.accept t.1 = false ∧ (q + 1 = p → M.reads q t.1 = false)

/-- The threads `T` are in all places that threads have reached at `p`, and none has found a match
before. -/
def Covers (M : ThreadMachine κ σ) (b p : ℕ) (T : List (κ × σ)) : Prop :=
  ∀ i q t, b ≤ i → M.Reached i q t →
    (q < p → M.accept t.1 = false) ∧ (q = p → t.1 ∈ T.map fst)

theorem Reached.le {i : ℕ} (h : M.Reached i p t) : i ≤ p := by
  induction h with
  | start => exact le_rfl
  | next _ _ ih => exact Nat.le_succ_of_le ih

theorem SameMoves.reached {M' : ThreadMachine κ σ} (h : M.SameMoves M') {i : ℕ}
    (hr : M.Reached i p t) : ∃ t', M'.Reached i p t' ∧ t'.1 = t.1 := by
  induction hr with
  | start ht =>
    obtain ⟨t', ht', heq⟩ := mem_map.1 (h.spawn i ▸ mem_map_of_mem ht)
    exact ⟨t', .start ht', heq⟩
  | next _ ht ih =>
    obtain ⟨w, hw, heq⟩ := ih
    obtain ⟨t', ht', heq'⟩ := mem_map.1 (h.next_fst _ heq.symm ▸ mem_map_of_mem ht)
    exact ⟨t', .next hw ht', heq'⟩

theorem SameMoves.idle {M' : ThreadMachine κ σ} (h : M.SameMoves M') {b : ℕ} (hidle : M'.Idle b p) :
    M.Idle b p := by
  intro i q t hi hq hr
  obtain ⟨t', hr', heq⟩ := h.reached hr
  rw [h.accept, h.reads, ← heq]
  exact hidle i q t' hi hq hr'

section

variable {b : ℕ}

theorem Covers.idle (h : M.Covers b p T) (hfound : M.found p T = none)
    (hreads : ∀ t ∈ T, M.reads p t.1 = false) : M.Idle b (p + 1) := by
  intro i q t hi hq hr
  obtain ⟨hbefore, hmem⟩ := h i q t hi hr
  rcases (Nat.le_of_lt_succ hq).eq_or_lt with rfl | hlt
  · obtain ⟨w, hw, heq⟩ := mem_map.1 (hmem rfl)
    rw [← heq]
    exact ⟨found_eq_none.1 hfound w hw, fun _ => hreads w hw⟩
  · exact ⟨hbefore hlt, fun h => by omega⟩

variable [DecidableEq κ]

theorem covers_start : M.Covers b b (extendBy [] (M.spawn b)) := by
  intro i q t hi hr
  have hle := hr.le
  refine ⟨fun hq => by omega, ?_⟩
  rintro rfl
  obtain rfl : i = q := by omega
  cases hr with
  | start ht => exact mem_extendBy.2 (.inr (mem_map_of_mem ht))
  | next hr _ =>
    have := hr.le
    omega

theorem Covers.next (h : M.Covers b p T) (hfound : M.found p T = none) :
    M.Covers b (p + 1) (extendBy [] (T.flatMap (M.next p) ++ M.spawn (p + 1))) := by
  intro i q t hi hr
  refine ⟨fun hq => ?_, ?_⟩
  · obtain ⟨hbefore, hmem⟩ := h i q t hi hr
    rcases (Nat.le_of_lt_succ hq).eq_or_lt with rfl | hlt
    · obtain ⟨w, hw, heq⟩ := mem_map.1 (hmem rfl)
      rw [← heq]
      exact found_eq_none.1 hfound w hw
    · exact hbefore hlt
  · rintro rfl
    refine mem_extendBy.2 (.inr ?_)
    rw [map_append, mem_append]
    cases hr with
    | start ht => exact .inr (mem_map_of_mem ht)
    | next hr ht =>
      -- the thread of this place in the queue moves to the same places
      obtain ⟨w, hw, heq⟩ := mem_map.1 ((h i p _ hi hr).2 rfl)
      obtain ⟨t', ht', heq'⟩ := mem_map.1 (next_fst p heq ▸ mem_map_of_mem ht)
      exact .inl (mem_map.2 ⟨t', mem_flatMap.2 ⟨w, hw, ht'⟩, heq'⟩)

end

/-! ### The search in lock step -/

section

variable [DecidableEq κ]

theorem head?_outcomes_nub (n p : ℕ) (T : List (κ × σ)) :
    ((extendBy [] T).flatMap (M.outcomes n p)).head? = (T.flatMap (M.outcomes n p)).head? :=
  head?_flatMap_extendBy (fun _ _ h => outcomes_eq_nil_iff h) [] T

/-- **The search in lock step finds the preferred match** of its threads, of those that have found
one before, and, if there is none, of the threads it starts later. -/
theorem lock_fst (unanchored : Bool) (n p : ℕ) (T : List (κ × σ)) (best : Option (ℕ × σ)) :
    (M.lock unanchored n p T best).1 =
      ((T.flatMap (M.outcomes n p)).head?.or best).or
        (if unanchored then (M.startsAfter n p).head? else none) := by
  induction n generalizing p T best with
  | zero =>
    rw [lock, head?_outcomes, flatMap_preferred (f := M.outcomes 0 p) fun t ht => if_neg ht,
      flatMap_eq_nil_iff.2 fun _ _ => rfl]
    simp [startsAfter]
  | succ n ih =>
    rw [head?_outcomes, flatMap_preferred (f := M.outcomes (n + 1) p) fun t ht => if_neg ht,
      ← flatMap_assoc, lock]
    by_cases hstart : (((M.found p T).or best).isNone && unanchored) = true
    · -- nothing was found so far, and threads are started at the next position
      simp only [Bool.and_eq_true, isNone_iff_eq_none, or_eq_none_iff] at hstart
      obtain ⟨⟨hfound, rfl⟩, rfl⟩ := hstart
      simp only [hfound, or_none, isNone_none, Bool.and_self, ↓reduceIte]
      rw [ih, head?_outcomes_nub, or_none, flatMap_append, head?_append,
        if_pos rfl, Option.or_assoc, startsAfter, starts_eq, head?_append]
    · have htail : ∀ x y z : Option (ℕ × σ),
          ((x.or ((M.found p T).or best)).or (if unanchored then y else none)) =
            ((x.or ((M.found p T).or best)).or (if unanchored then z else none)) := by
        intro x y z
        cases unanchored
        · rfl
        · obtain ⟨b, hb⟩ : ∃ b, (M.found p T).or best = some b :=
            Option.ne_none_iff_exists'.1 (by simpa using hstart)
          cases x <;> simp [hb]
      rw [if_neg hstart]
      by_cases hreads : ((M.preferred T).any fun t => M.reads p t.1) = true
      · rw [if_pos hreads, ih, head?_outcomes_nub]
        exact (htail _ _ _).trans (congrArg (Option.or · _) Option.or_assoc.symm)
      · rw [if_neg hreads, next_eq_nil_of_not_any hreads]
        simpa using htail none none (M.startsAfter (n + 1) p).head?

/-- A search finds the first of the matches of the threads that it starts. -/
theorem lock_eq_firstMatch (unanchored : Bool) (n p : ℕ) :
    (M.lock unanchored n p (extendBy [] (M.spawn p)) none).1 = M.firstMatch unanchored n p := by
  rw [lock_fst, head?_outcomes_nub, or_none, firstMatch]
  cases unanchored with
  | true => rw [if_pos rfl, if_pos rfl, starts_eq, head?_append]
  | false => rw [if_neg Bool.false_ne_true, if_neg Bool.false_ne_true, or_none]

section

variable (h : M.Stuck p T)

include h

theorem Stuck.lock_true : M.lock true (n + 1) p T none =
    M.lock true n (p + 1) (extendBy [] (M.spawn (p + 1))) none := by
  rw [lock]
  simp [h.found, preferred_of_found_eq_none h.found, next_eq_nil_of_not_any h.not_any]

theorem Stuck.lock_false : (M.lock false n p T none).1 = none := by
  cases n with
  | zero => simp [lock, h.found]
  | succ n =>
    rw [lock, if_neg (by simp), preferred_of_found_eq_none h.found, if_neg h.not_any, h.found]
    rfl

end

/-! ### How far the search goes -/

theorem lock_snd_bounds (unanchored : Bool) (n p : ℕ) (T : List (κ × σ)) (best : Option (ℕ × σ)) :
    p ≤ (M.lock unanchored n p T best).2 ∧ (M.lock unanchored n p T best).2 ≤ p + n := by
  induction n generalizing p T best with
  | zero => exact ⟨le_rfl, le_rfl⟩
  | succ n ih =>
    have hnext : ∀ T best, p ≤ (M.lock unanchored n (p + 1) T best).2 ∧
        (M.lock unanchored n (p + 1) T best).2 ≤ p + (n + 1) := fun T best => by
      have := ih (p + 1) T best
      omega
    rw [lock]
    split_ifs
    · exact hnext _ _
    · exact hnext _ _
    · exact ⟨le_rfl, Nat.le_add_right _ _⟩

theorem head?_tries_nub (n p : ℕ) (T : List (κ × σ)) :
    ((extendBy [] T).flatMap (M.tries n p)).head? = (T.flatMap (M.tries n p)).head? :=
  head?_flatMap_extendBy (fun _ _ h => tries_eq_nil_iff h) [] T

/-- **How far the search goes**: it gets past `p + d` if the first of its threads that gets
anywhere reads the character there, or if none gets anywhere and threads are still started. -/
theorem lt_lock_snd_iff (hd : d < n) :
    p + d < (M.lock unanchored n p T best).2 ↔
      GetsTo (unanchored && best.isNone) (p + d + 1)
        ((T.flatMap (M.tries d p)).head?.or
          (if unanchored && best.isNone then (M.triesAfter d p).head? else none)) := by
  obtain _ | n := n
  · omega
  induction d generalizing n p T best with
  | zero =>
    rw [lock, head?_tries, head?_tries_zero_preferred, Nat.add_zero, Option.or_assoc]
    by_cases hstart : (((M.found p T).or best).isNone && unanchored) = true
    · rw [if_pos hstart]
      simp only [Bool.and_eq_true, isNone_iff_eq_none, or_eq_none_iff] at hstart
      obtain ⟨⟨hfound, rfl⟩, rfl⟩ := hstart
      refine iff_of_true (M.lock_snd_bounds _ _ _ _ _).1 ?_
      rw [hfound]
      split_ifs <;> rfl
    · rw [if_neg hstart]
      by_cases hreads : ((M.preferred T).any fun t => M.reads p t.1) = true
      · rw [if_pos hreads, if_pos hreads]
        exact iff_of_true (M.lock_snd_bounds _ _ _ _ _).1 rfl
      · rw [if_neg hreads, if_neg hreads, none_or]
        exact iff_of_false (Nat.lt_irrefl p) (not_getsTo hstart p.lt_succ_self)
  | succ d ih =>
    obtain _ | n := n
    · omega
    rw [lock, head?_tries, flatMap_preferred (f := M.tries (d + 1) p) fun t ht => if_neg ht,
      ← flatMap_assoc, Option.or_assoc, show p + (d + 1) = p + 1 + d by omega]
    by_cases hstart : (((M.found p T).or best).isNone && unanchored) = true
    · rw [if_pos hstart]
      simp only [Bool.and_eq_true, isNone_iff_eq_none, or_eq_none_iff] at hstart
      obtain ⟨⟨hfound, rfl⟩, rfl⟩ := hstart
      rw [ih _ (by omega), head?_tries_nub, hfound, flatMap_append, head?_append,
        triesAfter, head?_append]
      simp [Option.or_assoc]
    · have hbest : (unanchored && ((M.found p T).or best).isNone) = false := by
        rw [Bool.and_comm]
        exact Bool.eq_false_iff.2 hstart
      have hstuck : ¬ GetsTo (unanchored && best.isNone) (p + 1 + d + 1)
          (((M.found p T).map fst).or
            (if unanchored && best.isNone then (M.triesAfter (d + 1) p).head? else none)) :=
        not_getsTo hstart (by omega)
      rw [if_neg hstart]
      by_cases hreads : ((M.preferred T).any fun t => M.reads p t.1) = true
      · rw [if_pos hreads, ih _ (by omega), head?_tries_nub, hbest]
        cases (((M.preferred T).flatMap (M.next p)).flatMap (M.tries d (p + 1))).head? with
        | some q => exact Iff.rfl
        | none => exact iff_of_false Bool.false_ne_true hstuck
      · rw [if_neg hreads, next_eq_nil_of_not_any hreads]
        refine iff_of_false (by dsimp only; omega) ?_
        exact hstuck

/-! ### Where a match ends and how far the search goes -/

theorem lt_lock_spawn_snd_iff (hd : d < n) :
    p + d < (M.lock unanchored n p (extendBy [] (M.spawn p)) none).2 ↔
      GetsTo unanchored (p + d + 1) (M.firstTry unanchored d p) := by
  rw [lt_lock_snd_iff hd, head?_tries_nub, isNone_none, Bool.and_true]
  rfl

theorem fst_le_lock_snd {r : ℕ × σ} (hbest : ∀ r, best = some r → r.1 ≤ p)
    (h : (M.lock unanchored n p T best).1 = some r) : r.1 ≤ (M.lock unanchored n p T best).2 := by
  induction n generalizing p T best with
  | zero => exact found_or_le hbest r h
  | succ n ih =>
    have hlater : ∀ r, (M.found p T).or best = some r → r.1 ≤ p + 1 := fun r hr =>
      (found_or_le hbest r hr).trans (Nat.le_succ p)
    rw [lock] at h ⊢
    split_ifs at h ⊢
    · exact ih hlater h
    · exact ih hlater h
    · exact found_or_le hbest r h

/-- The search goes on behind the end of its match: an attempt that is preferred to the match reads
the character there. -/
def overreads (M : ThreadMachine κ σ) (unanchored : Bool) (n p : ℕ) : Bool :=
  ((M.firstMatch unanchored n p).map fst).any fun e =>
    e < p + n && M.firstTry unanchored (e - p) p = some (e + 1)

/-- **A search ends where its match ends**, unless it goes on behind it. -/
theorem lock_snd_eq_iff (h : M.firstMatch unanchored n p = some (e, s)) :
    (M.lock unanchored n p (extendBy [] (M.spawn p)) none).2 = e ↔
      M.overreads unanchored n p = false := by
  obtain ⟨i, hpi, hie, hen, -⟩ := mem_of_firstMatch h
  have hle := fst_le_lock_snd (by simp) ((lock_eq_firstMatch unanchored n p).trans h)
  have hge := (M.lock_snd_bounds unanchored n p (extendBy [] (M.spawn p)) none).2
  have hlt : e < p + n → (e < (M.lock unanchored n p (extendBy [] (M.spawn p)) none).2 ↔
      M.firstTry unanchored (e - p) p = some (e + 1)) := by
    intro hlt
    have hiff := @lt_lock_spawn_snd_iff _ _ M n p unanchored _ _ (show e - p < n by omega)
    rw [show p + (e - p) = e by omega] at hiff
    obtain ⟨q, hq⟩ := ne_none_iff_exists'.1 (firstTry_ne_none h)
    rw [hiff, hq, some_inj]
    rfl
  have hover : M.overreads unanchored n p = false ↔
      ¬ (e < p + n ∧ M.firstTry unanchored (e - p) p = some (e + 1)) := by
    rw [overreads, h]
    simp
  rw [hover]
  constructor
  · rintro heq ⟨hen', htry⟩
    have := (hlt hen').2 htry
    omega
  · intro hnot
    by_contra hne
    have hen' : e < p + n := by omega
    exact hnot ⟨hen', (hlt hen').1 (by omega)⟩

/-- A search without later starts goes to the end if the first attempt that gets anywhere reads the
last character. -/
theorem lock_snd_eq_end_iff :
    (M.lock false n p (extendBy [] (M.spawn p)) none).2 = p + n ↔
      n = 0 ∨ M.firstTry false (n - 1) p = some (p + n) := by
  have hbounds := M.lock_snd_bounds false n p (extendBy [] (M.spawn p)) none
  rcases Nat.eq_zero_or_pos n with rfl | hn
  · exact iff_of_true (by omega) (.inl rfl)
  · have hiff := @lt_lock_spawn_snd_iff _ _ M n p false _ _ (show n - 1 < n by omega)
    rw [show p + (n - 1) + 1 = p + n by omega] at hiff
    have hend : (M.lock false n p (extendBy [] (M.spawn p)) none).2 = p + n ↔
        p + (n - 1) < (M.lock false n p (extendBy [] (M.spawn p)) none).2 := by omega
    rw [hend, hiff]
    cases M.firstTry false (n - 1) p with
    | none | some q => simp [GetsTo, hn.ne']

end

/-! ### What does not depend on the data -/

section

variable {M' : ThreadMachine κ σ} (h : M.SameMoves M')

include h

theorem SameMoves.firstMatch (unanchored : Bool) (n p : ℕ) :
    (M.firstMatch unanchored n p).map fst = (M'.firstMatch unanchored n p).map fst := by
  have hspawn : ∀ n p, ((M.spawn p).flatMap (M.outcomes n p)).map fst =
      ((M'.spawn p).flatMap (M'.outcomes n p)).map fst := fun n p => by
    rw [map_flatMap, map_flatMap]
    exact flatMap_congr_fst (h.spawn p) fun w w' => h.outcomes n p
  have hstarts : (M.starts n p).map fst = (M'.starts n p).map fst := by
    induction n generalizing p with
    | zero => exact hspawn 0 p
    | succ n ih => rw [starts, starts, map_append, map_append, hspawn, ih]
  rw [ThreadMachine.firstMatch, ThreadMachine.firstMatch, ← head?_map, ← head?_map]
  split_ifs
  · rw [hstarts]
  · rw [hspawn]

theorem SameMoves.firstTry (unanchored : Bool) (d p : ℕ) :
    M.firstTry unanchored d p = M'.firstTry unanchored d p := by
  have hspawn : ∀ d p, (M.spawn p).flatMap (M.tries d p) = (M'.spawn p).flatMap (M'.tries d p) :=
    fun d p => flatMap_congr_fst (h.spawn p) fun w w' => h.tries d p
  have hafter : M.triesAfter d p = M'.triesAfter d p := by
    induction d generalizing p with
    | zero => rfl
    | succ d ih => rw [triesAfter, triesAfter, hspawn, ih]
  rw [ThreadMachine.firstTry, ThreadMachine.firstTry, hspawn, hafter]

theorem SameMoves.overreads (unanchored : Bool) (n p : ℕ) :
    M.overreads unanchored n p = M'.overreads unanchored n p := by
  simp only [ThreadMachine.overreads, h.firstMatch, h.firstTry]

end

end ThreadMachine

end Sagittarius
