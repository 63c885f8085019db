import Mathlib.Data.List.Infix
import Mathlib.Data.Nat.Find
import Sagittarius.Text.Port

/-!
# Delimited binary reads

`readb_until` of `port.c` reads the bytes of a binary port before a delimiter.  It compares the
bytes with the delimiter as it reads them, and does not go back after an attempt to read the
delimiter has failed: what the attempt has read is output, and the next one begins behind it.

* `PeekedPort` : a binary port of `Text/Port.lean` with the byte that was read ahead;
* `Starts eol s m` : an attempt begins at the position `m` of the source `s`;
* `readbOuter_spec` : the first attempt that succeeds ends the loop;
* `readb_until_iff` : the result is right exactly if an attempt begins where the delimiter occurs
  first.
-/

namespace Sagittarius.Text

open List

/-- A binary port with `SG_PORT_U8_AHEAD`, the byte at which one has peeked. -/
structure PeekedPort extends BinaryPort where
  ahead : Option UInt8

namespace PeekedPort

variable (src : Source) (p : PeekedPort)

/-- `Sg_GetbUnsafe` returns the byte ahead, or reads one. -/
def getb : Option UInt8 × PeekedPort :=
  match p.ahead with
  | some b => (some b, { p with ahead := none })
  | none =>
    let (b, q) := src.getb p.toBinaryPort
    (b, { q with ahead := none })

/-- `Sg_PeekbUnsafe` returns the byte ahead, or reads one and keeps it. -/
def peekb : Option UInt8 × PeekedPort :=
  match p.ahead with
  | some b => (some b, p)
  | none =>
    let (b, q) := src.getb p.toBinaryPort
    (b, { q with ahead := b })

/-- The bytes that are left -/
def unread : List UInt8 := p.ahead.toList ++ src.unread p.toBinaryPort

theorem getb_eq : ∃ p', p.getb src = ((p.unread src).head?, p') ∧
    p'.unread src = (p.unread src).tail := by
  obtain ⟨p, _ | b⟩ := p
  · obtain ⟨q, hget, hq⟩ := src.getb_eq p
    exact ⟨⟨q, none⟩, by simp [getb, unread, hget], hq⟩
  · exact ⟨⟨p, none⟩, rfl, rfl⟩

theorem peekb_eq : ∃ p', p.peekb src = ((p.unread src).head?, p') ∧
    p'.unread src = p.unread src := by
  obtain ⟨p, _ | b⟩ := p
  · obtain ⟨q, hget, hq⟩ := src.getb_eq p
    refine ⟨⟨q, (src.unread p).head?⟩, by simp [peekb, unread, hget], ?_⟩
    change (src.unread p).head?.toList ++ src.unread q = src.unread p
    rw [hq]
    cases src.unread p <;> rfl
  · exact ⟨⟨p, some b⟩, rfl, rfl⟩

end PeekedPort

variable (src : Source)

/-- The inner loop of `readb_until`: whether it comes to the end of `eol`, and `buf` -/
def readbInner : List UInt8 → PeekedPort → List UInt8 → Bool × List UInt8 × PeekedPort
  | [], p, buf => (true, buf, p)
  | e :: eol, p, buf =>
    match p.getb src with
    | (none, p) => (false, buf, p)
    | (some b, p) => if b ≠ e then (false, buf ++ [b], p) else readbInner eol p (buf ++ [b])

/-- The outer loop of `readb_until` -/
def readbOuter (eol : List UInt8) : ℕ → PeekedPort → List UInt8 → Option (List UInt8 × PeekedPort)
  | 0, _, _ => none
  | n + 1, p, out =>
    match p.getb src with
    | (none, p) => some (out, p)
    | (some b, p) =>
      if some b = eol.head? then
        match readbInner src eol.tail p [b] with
        | (true, _, p) => some (out, p)
        | (false, buf, p) => readbOuter eol n p (out ++ buf)
      else readbOuter eol n p (out ++ [b])

/-- `readb_until`; `none` inside is `SG_EOF`. -/
def readbUntil (n : ℕ) (p : PeekedPort) (eol : List UInt8) :
    Option (Option (List UInt8) × PeekedPort) :=
  match p.peekb src with
  | (none, p) => some (none, p)
  | (some _, p) => (readbOuter src eol n p []).map fun (out, p) => (some out, p)

/-! ### Attempts -/

/-- How many bytes of the source agree with the delimiter -/
def agree : List UInt8 → List UInt8 → ℕ
  | e :: eol, b :: s => if b = e then agree eol s + 1 else 0
  | _, _ => 0

/-- An attempt begins at the start, and one byte behind those that agreed if it fails. -/
inductive Starts (eol : List UInt8) : List UInt8 → ℕ → Prop
  | here (s : List UInt8) : Starts eol s 0
  | next {s : List UInt8} {m : ℕ} (h : ¬ eol <+: s) (hm : Starts eol (s.drop (agree eol s + 1)) m) :
    Starts eol s (agree eol s + 1 + m)

variable {src} {eol s out : List UInt8} {p : PeekedPort} {n m : ℕ}

theorem readbInner_eq (eol : List UInt8) (hp : p.unread src = s) (buf : List UInt8) :
    ∃ p', if eol <+: s then
        readbInner src eol p buf = (true, buf ++ eol, p') ∧ p'.unread src = s.drop eol.length
      else readbInner src eol p buf = (false, buf ++ s.take (agree eol s + 1), p') ∧
        p'.unread src = s.drop (agree eol s + 1) := by
  induction eol generalizing p s buf with
  | nil => exact ⟨p, by simp [readbInner, hp]⟩
  | cons e eol ih =>
    obtain ⟨p', hget, hp'⟩ := p.getb_eq src
    rw [hp] at hget hp'
    cases s with
    | nil => exact ⟨p', by simp [readbInner, hget, hp', agree]⟩
    | cons b s =>
      by_cases hb : b = e
      · subst hb
        obtain ⟨p'', h⟩ := ih hp' (buf ++ [b])
        exact ⟨p'', by simpa [readbInner, hget, agree, cons_prefix_cons] using h⟩
      · exact ⟨p', by simp [readbInner, hget, hp', agree, hb, cons_prefix_cons, Ne.symm hb]⟩

theorem readbOuter_succ (heol : eol ≠ []) (hp : p.unread src = s) (hs : s ≠ [])
    (out : List UInt8) :
    ∃ p', if eol <+: s then
        readbOuter src eol (n + 1) p out = some (out, p') ∧ p'.unread src = s.drop eol.length
      else readbOuter src eol (n + 1) p out =
          readbOuter src eol n p' (out ++ s.take (agree eol s + 1)) ∧
        p'.unread src = s.drop (agree eol s + 1) := by
  obtain ⟨e, eol, rfl⟩ := exists_cons_of_ne_nil heol
  obtain ⟨b, s, rfl⟩ := exists_cons_of_ne_nil hs
  obtain ⟨p₁, hget, hp₁⟩ := p.getb_eq src
  rw [hp] at hget hp₁
  rw [readbOuter, hget]
  by_cases hb : b = e
  · subst hb
    obtain ⟨p₂, h⟩ := readbInner_eq eol hp₁ [b]
    rw [tail_cons] at h
    refine ⟨p₂, ?_⟩
    simp only [cons_prefix_cons, true_and, agree, if_true]
    split_ifs at h ⊢
    · simp [h.1, h.2]
    · simp [h.1, h.2]
  · exact ⟨p₁, by simp [hb, cons_prefix_cons, agree, hp₁, Ne.symm hb]⟩

/-- **The first attempt that succeeds ends the loop**, or all of the source is read. -/
theorem readbOuter_spec (heol : eol ≠ []) (hp : p.unread src = s) (hn : s.length < n)
    (out : List UInt8) :
    ∃ m p', readbOuter src eol n p out = some (out ++ s.take m, p') ∧
      (Starts eol s m ∧ eol <+: s.drop m ∨ s.length ≤ m ∧ p'.unread src = []) ∧
      ∀ m', Starts eol s m' → eol <+: s.drop m' →
        m' = m ∧ p'.unread src = s.drop (m + eol.length) := by
  induction n generalizing p s out with
  | zero => cases hn
  | succ n ih =>
    by_cases hs : s = []
    · obtain ⟨p', hget, hp'⟩ := p.getb_eq src
      rw [hp, hs] at hget hp'
      subst hs
      refine ⟨0, p', by simp [readbOuter, hget], .inr ⟨le_rfl, hp'⟩, ?_⟩
      intro m' _ hm'
      exact (heol (by simpa using hm')).elim
    obtain ⟨p₁, hstep⟩ := readbOuter_succ (n := n) heol hp hs out
    by_cases hfound : eol <+: s
    · rw [if_pos hfound] at hstep
      refine ⟨0, p₁, by simp [hstep.1], .inl ⟨.here s, hfound⟩, ?_⟩
      intro m' hm' _
      cases hm' with
      | here => simp [hstep.2]
      | next h => exact (h hfound).elim
    · rw [if_neg hfound] at hstep
      have hlen : (s.drop (agree eol s + 1)).length < n := by
        have := length_pos_of_ne_nil hs
        rw [length_drop]
        omega
      obtain ⟨m, p', hrun, hend, huniq⟩ := ih hstep.2 hlen (out ++ s.take (agree eol s + 1))
      refine ⟨agree eol s + 1 + m, p', ?_, ?_, ?_⟩
      · rw [hstep.1, hrun, append_assoc, ← take_add]
      · rw [drop_drop, length_drop] at hend
        exact hend.imp (fun h => ⟨.next hfound h.1, h.2⟩) fun h => ⟨by omega, h.2⟩
      · intro m' hm' hpre
        cases hm' with
        | here => exact (hfound hpre).elim
        | next _ hm =>
          rw [← drop_drop] at hpre
          obtain ⟨rfl, hunread⟩ := huniq _ hm hpre
          exact ⟨rfl, by rw [hunread, drop_drop, ← Nat.add_assoc]⟩

/-! ### The result -/

/-- The delimiter occurs at `m`, and not before. -/
def FirstAt (eol s : List UInt8) (m : ℕ) : Prop :=
  eol <+: s.drop m ∧ ∀ m', eol <+: s.drop m' → m ≤ m'

/-- The bytes before the first occurrence of the delimiter are returned, and the port is behind it;
or all bytes, if there is none. -/
def ReadsUntil (src : Source) (n : ℕ) (p : PeekedPort) (eol : List UInt8) : Prop :=
  ∃ out p', readbUntil src n p eol = some (some out, p') ∧
    ((∃ m, FirstAt eol (p.unread src) m ∧ out = (p.unread src).take m ∧
        p'.unread src = (p.unread src).drop (m + eol.length)) ∨
      (∀ m, ¬ eol <+: (p.unread src).drop m) ∧ out = p.unread src ∧ p'.unread src = [])

/-- **`readb_until` is right** exactly if the source is not empty, and an attempt to read the
delimiter begins where it occurs first. -/
theorem readb_until_iff (src : Source) (p : PeekedPort) (e : UInt8) (es : List UInt8) :
    ∃ n₀, ∀ n ≥ n₀, (ReadsUntil src n p (e :: es) ↔
      p.unread src ≠ [] ∧
        ∀ m, FirstAt (e :: es) (p.unread src) m → Starts (e :: es) (p.unread src) m) := by
  refine ⟨(p.unread src).length + 1, fun n hn => ?_⟩
  obtain ⟨p₁, hpeek, hp₁⟩ := p.peekb_eq src
  by_cases hs : p.unread src = []
  · refine iff_of_false ?_ fun h => h.1 hs
    rintro ⟨out, p', hrun, -⟩
    rw [readbUntil, hpeek, hs] at hrun
    cases hrun
  obtain ⟨m, p', hrun, hend, huniq⟩ := readbOuter_spec (cons_ne_nil e es) hp₁ hn []
  have hread : readbUntil src n p (e :: es) = some (some ((p.unread src).take m), p') := by
    obtain ⟨b, s, hbs⟩ := exists_cons_of_ne_nil hs
    rw [readbUntil, hpeek]
    simp [hrun, hbs]
  have hlt : ∀ m, (e :: es) <+: (p.unread src).drop m → m < (p.unread src).length := by
    intro m h
    have := h.length_le
    rw [length_drop, length_cons] at this
    omega
  constructor
  · rintro ⟨out, p'', hrun', hspec⟩
    obtain ⟨rfl, rfl⟩ : (p.unread src).take m = out ∧ p' = p'' := by simpa [hread] using hrun'
    refine ⟨hs, fun m₀ hm₀ => ?_⟩
    obtain ⟨m₁, hm₁, hout, -⟩ := hspec.resolve_right fun h => h.1 m₀ hm₀.1
    obtain rfl : m₀ = m₁ := le_antisymm (hm₀.2 _ hm₁.1) (hm₁.2 _ hm₀.1)
    have hlen := congrArg length hout
    rw [length_take, length_take] at hlen
    have := hlt m₀ hm₀.1
    obtain ⟨hm, hpre⟩ := hend.resolve_right fun h => by omega
    obtain rfl : m = m₀ := by omega
    exact hm
  · rintro ⟨-, hstarts⟩
    refine ⟨_, p', hread, ?_⟩
    by_cases hocc : ∃ m, (e :: es) <+: (p.unread src).drop m
    · have hfirst : FirstAt (e :: es) (p.unread src) (Nat.find hocc) :=
        ⟨Nat.find_spec hocc, fun m' => Nat.find_min' hocc⟩
      obtain ⟨hm, hunread⟩ := huniq _ (hstarts _ hfirst) hfirst.1
      rw [hm] at hfirst
      exact .inl ⟨m, hfirst, rfl, hunread⟩
    · rw [not_exists] at hocc
      obtain ⟨hle, hunread⟩ := hend.resolve_left fun h => hocc m h.2
      exact .inr ⟨hocc, take_of_length_le hle, hunread⟩

/-- The delimiter `ab` is not found in `aab`. -/
theorem readb_until_misses :
    (readbUntil ⟨[97, 97, 98], fun _ => 0, false⟩ 4 ⟨⟨0, 0⟩, none⟩ [97, 98]).map Prod.fst =
        some (some [97, 97, 98]) ∧
      [97, 98] <+: ([97, 97, 98] : List UInt8).drop 1 := by
  decide +kernel

end Sagittarius.Text
