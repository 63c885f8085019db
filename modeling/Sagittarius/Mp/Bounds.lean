import Sagittarius.Mp.Square

/-!
# Accesses outside the buffers

Which of the accesses that multiplication and squaring make stay inside the buffer they
address.  The word loops stay inside as soon as their lengths do (`mpAdd_inBounds` and its
companions), so that everything depends on the lengths that `karatsuba` and `karatsuba_square`
hand to them.

* `karatsuba_inBounds` : one level of `karatsuba` stays inside if and only if
  `adbclen + n ≤ aclen + n2`, the inequality of its comment, and the calls it makes do;
* `not_mulOverruns_of_near` : operands of nearly the same length never leave the buffers;
* `mpMulRec_inBounds_iff` : the operands for which `mp_mul_rec` leaves its buffer;
* `mpSquareRec_inBounds_iff` : `mp_square_rec` leaves its buffer as soon as it splits.
-/

namespace Sagittarius

open Sagittarius.Acc Ptr

/-! ### Word loops -/

section Loops

variable (rp : Ptr) (xp : Src) (yp inp : Ptr)

theorem mpAddNLoop_inBounds (k i : ℕ) (t : DWord) :
    (mpAddNLoop xp yp k i rp t).inBounds = true ↔
      k = 0 ∨ (i + k ≤ xp.size rp ∧ i + k ≤ yp.size ∧ i + k ≤ rp.size) := by
  induction k generalizing i rp t with
  | zero => simp [mpAddNLoop]
  | succ k ih =>
    simp only [mpAddNLoop, inBounds_bind, ih, Src.rd_inBounds,
      rd_inBounds, wr_inBounds, Src.size_wr, wr_size]
    omega

variable {len : ℕ}

theorem mpAddN_inBounds (hlen : 0 < len) :
    (mpAddN rp xp yp len).inBounds = true ↔
      len ≤ xp.size rp ∧ len ≤ yp.size ∧ len ≤ rp.size := by
  simp only [mpAddN, inBounds_bind, mpAddNLoop_inBounds, Src.rd_inBounds,
    rd_inBounds, wr_inBounds, Src.size_wr, wr_size,
    inBounds_pure, and_true]
  omega

theorem mpCopy_inBounds (k i : ℕ) :
    (mpCopy xp k i rp).inBounds = true ↔
      k = 0 ∨ (i + k ≤ xp.size rp ∧ i + k ≤ rp.size) := by
  induction k generalizing i rp with
  | zero => simp [mpCopy]
  | succ k ih =>
    simp only [mpCopy, inBounds_bind, ih, Src.rd_inBounds,
      wr_inBounds, Src.size_wr, wr_size]
    omega

theorem Src.size_congr (xp : Src) {p q : Ptr} (h : p.size = q.size) : xp.size p = xp.size q := by
  cases xp with
  | self => exact h
  | ptr _ => rfl

theorem mpAddCarry_inBounds (k i : ℕ) (c : Int) :
    ((mpAddCarry xp k i rp c).inBounds = true ∧
        (mpCopy xp (i + k - (mpAddCarry xp k i rp c).val.2.1)
          (mpAddCarry xp k i rp c).val.2.1 (mpAddCarry xp k i rp c).val.1).inBounds = true) ↔
      k = 0 ∨ (i + k ≤ xp.size rp ∧ i + k ≤ rp.size) := by
  induction k generalizing i rp c with
  | zero => simp [mpAddCarry, mpCopy]
  | succ k ih =>
    by_cases hc : c = 0
    · simp only [mpAddCarry, hc, ne_eq, not_true, ite_false, inBounds_pure, val_pure,
        mpCopy_inBounds, true_and]
      omega
    · simp only [mpAddCarry, hc, ne_eq, not_false_iff, ite_true, inBounds_bind,
        val_bind, Src.rd_inBounds, rd_inBounds, wr_inBounds, wr_size]
      have h := ih (rp.wr i ((xp.rd rp i).val + 1)).val (i + 1)
        (if ((rp.wr i ((xp.rd rp i).val + 1)).val.rd i).val = 0 then 1 else 0)
      rw [show i + 1 + k = i + (k + 1) by ring, Src.size_wr, wr_size] at h
      constructor
      · rintro ⟨⟨h1, h2, -, h3⟩, h4⟩
        have := h.1 ⟨h3, h4⟩
        omega
      · intro h'
        obtain ⟨h3, h4⟩ := h.2 (by omega)
        exact ⟨⟨by omega, by omega, by omega, h3⟩, h4⟩

variable {xsize ysize : ℕ}

theorem mpAdd_inBounds {rsize : ℕ} (hy : 0 < ysize) (hr : rsize - 1 < rp.size) :
    (mpAdd rp rsize xp xsize yp ysize).inBounds = true ↔
      max xsize ysize ≤ xp.size rp ∧ ysize ≤ yp.size ∧ max xsize ysize ≤ rp.size := by
  have hwords : (mpAddWords rp xp xsize yp ysize).inBounds = true ↔
      max xsize ysize ≤ xp.size rp ∧ ysize ≤ yp.size ∧ max xsize ysize ≤ rp.size := by
    simp only [mpAddWords, inBounds_bind, inBounds_pure, and_true,
      mpAddN_inBounds _ _ _ hy]
    have h := mpAddCarry_inBounds (mpAddN rp xp yp ysize).val.1 xp (xsize - ysize) ysize
      (mpAddN rp xp yp ysize).val.2
    rw [Src.size_congr xp (mpAddN_size rp xp yp ysize), mpAddN_size] at h
    rcases Nat.lt_or_ge ysize xsize with hlt | hge
    · rw [show ysize + (xsize - ysize) = xsize by omega] at h
      rw [h]
      omega
    · have hz : xsize - ysize = 0 := by omega
      simp only [hz, mpAddCarry, mpCopy, inBounds_pure, val_pure, and_true]
      omega
  rw [← hwords]
  simp only [mpAdd, inBounds_bind, inBounds_ite, wr_inBounds, mpAddWords_size,
    inBounds_pure, and_true, hr, ite_self]

variable {k i : ℕ}

theorem mpSubNLoop_inBounds (hx : i + k ≤ xp.size rp) (hy : i + k ≤ yp.size) (hr : i + k ≤ rp.size)
    (t : DWord) : (mpSubNLoop xp yp k i rp t).inBounds = true := by
  induction k generalizing i rp t with
  | zero => rfl
  | succ k ih =>
    simp only [mpSubNLoop, inBounds_bind, Src.rd_inBounds,
      rd_inBounds, wr_inBounds]
    exact ⟨by omega, by omega, by omega,
      ih _ (by rw [Src.size_wr]; omega) (by omega) (by rw [wr_size]; omega) _⟩

theorem mpSubN_inBounds (hlen : 0 < len) (hx : len ≤ xp.size rp) (hy : len ≤ yp.size)
    (hr : len ≤ rp.size) : (mpSubN rp xp yp len).inBounds = true := by
  simp only [mpSubN, inBounds_bind, Src.rd_inBounds, rd_inBounds,
    wr_inBounds, inBounds_pure, and_true]
  exact ⟨by omega, by omega, by omega, mpSubNLoop_inBounds _ _ _ (by rw [Src.size_wr]; omega)
    (by omega) (by rw [wr_size]; omega) _⟩

theorem mpSubBorrow_inBounds (hx : i + k ≤ xp.size rp) (hr : i + k ≤ rp.size) (c : Int) :
    (mpSubBorrow xp k i rp c).inBounds = true := by
  induction k generalizing i rp c with
  | zero => simp [mpSubBorrow]
  | succ k ih =>
    by_cases hc : c = 0
    · simp [mpSubBorrow, hc]
    · simp only [mpSubBorrow, hc, ne_eq, not_false_iff, ite_true, inBounds_bind, Src.rd_inBounds,
        rd_inBounds, wr_inBounds, wr_size]
      exact ⟨by omega, by omega, by omega, ih _ (by rw [Src.size_wr]; omega)
        (by rw [wr_size]; omega) _⟩

theorem mpFill_inBounds (w : Word) (hr : i + k ≤ rp.size) : (mpFill w k i rp).inBounds = true := by
  induction k generalizing i rp with
  | zero => rfl
  | succ k ih =>
    simp only [mpFill, inBounds_bind, wr_inBounds]
    exact ⟨by omega, ih _ (by rw [wr_size]; omega)⟩

theorem mpSub_inBounds {rsize : ℕ} (hy : 0 < ysize) (hle : ysize ≤ xsize) (hr : xsize ≤ rsize)
    (hx : xsize ≤ xp.size rp) (hyp : ysize ≤ yp.size) (hrp : rsize ≤ rp.size) :
    (mpSub rp rsize xp xsize yp ysize).inBounds = true := by
  have hsize := Src.size_congr xp (mpSubN_size rp xp yp ysize)
  have h1 := mpSubBorrow_inBounds (mpSubN rp xp yp ysize).val.1 xp (k := xsize - ysize)
    (i := ysize) (by omega) (by rw [mpSubN_size]; omega) (mpSubN rp xp yp ysize).val.2
  have h2 := mpSubBorrow_index xp (xsize - ysize) ysize (mpSubN rp xp yp ysize).val.1
    (mpSubN rp xp yp ysize).val.2
  have hsize' := Src.size_congr xp ((mpSubBorrow_size (mpSubN rp xp yp ysize).val.1 xp
    (xsize - ysize) ysize (mpSubN rp xp yp ysize).val.2).trans (mpSubN_size rp xp yp ysize))
  simp only [mpSub, inBounds_bind, inBounds_pure, and_true]
  rw [Nat.add_sub_cancel' hle] at h2
  refine ⟨mpSubN_inBounds _ _ _ hy (by omega) hyp (by omega), h1,
    (mpCopy_inBounds _ _ _ _).2 (.inr ?_), mpFill_inBounds _ _ ?_⟩
  · rw [hsize', mpSubBorrow_size, mpSubN_size]
    have hend := Nat.add_sub_cancel' h2
    exact ⟨hend.trans_le hx, hend.trans_le (hr.trans hrp)⟩
  · rw [mpCopy_size, mpSubBorrow_size, mpSubN_size]
    exact (Nat.add_sub_cancel' (max_le (h2.trans hr) hr)).trans_le hrp

theorem mpMulAddLoop_inBounds {n : ℕ} (hi : i + n ≤ inp.size) (hr : i + n ≤ rp.size) (k : Word)
    (p : DWord) : (mpMulAddLoop inp k n i rp p).inBounds = true := by
  induction n generalizing i rp p with
  | zero => rfl
  | succ n ih =>
    simp only [mpMulAddLoop, inBounds_bind, rd_inBounds,
      wr_inBounds]
    exact ⟨by omega, by omega, by omega, ih _ (by omega) (by rw [wr_size]; omega) _⟩

theorem mpMulAdd_inBounds (hlen : 0 < len) (hi : len ≤ inp.size) (hr : len ≤ rp.size) (k : Word) :
    (mpMulAdd rp inp len k).inBounds = true := by
  simp only [mpMulAdd, inBounds_bind, rd_inBounds, wr_inBounds, inBounds_pure, and_true]
  exact ⟨by omega, by omega, by omega,
    mpMulAddLoop_inBounds _ _ (by omega) (by rw [wr_size]; omega) _ _⟩

theorem mpMulUlLoop_inBounds (hi : i + k ≤ inp.size) (hr : i + k ≤ rp.size) (y : Word) (p : DWord) :
    (mpMulUlLoop inp y k i rp p).inBounds = true := by
  induction k generalizing i rp p with
  | zero => rfl
  | succ k ih =>
    simp only [mpMulUlLoop, inBounds_bind, rd_inBounds,
      wr_inBounds]
    exact ⟨by omega, by omega, ih _ (by omega) (by rw [wr_size]; omega) _⟩

theorem mpMulUl_inBounds (hx : 0 < xsize) (hi : xsize ≤ inp.size) (hr : xsize < rp.size)
    (y : Word) : (mpMulUl rp inp xsize y).inBounds = true := by
  simp only [mpMulUl, inBounds_bind, rd_inBounds, wr_inBounds, mpMulUlLoop_size, wr_size]
  exact ⟨by omega, by omega,
    mpMulUlLoop_inBounds _ _ (by omega) (by rw [wr_size]; omega) _ _, by omega⟩

theorem longMulLoop_inBounds {n : ℕ} (hx : 0 < xsize) (hi : xsize ≤ inp.size) (hy : i + n ≤ yp.size)
    (hr : xsize + i + n ≤ rp.size) : (longMulLoop inp xsize yp n i rp).inBounds = true := by
  induction n generalizing i rp with
  | zero => rfl
  | succ n ih =>
    simp only [longMulLoop, inBounds_bind, rd_inBounds,
      wr_inBounds, putBack_size]
    exact ⟨by omega, mpMulAdd_inBounds _ _ hx hi (by rw [off_size]; omega) _,
      by omega, ih _ (by omega) (by rw [wr_size, putBack_size]; omega)⟩

theorem longMul_inBounds (hx : 0 < xsize) (hy : 0 < ysize) (hi : xsize ≤ inp.size)
    (hyp : ysize ≤ yp.size) (hr : xsize + ysize ≤ rp.size) :
    (longMul rp inp xsize yp ysize).inBounds = true := by
  simp only [longMul, inBounds_bind, rd_inBounds]
  exact ⟨by omega, mpMulUl_inBounds _ _ hx hi (by omega) _,
    longMulLoop_inBounds _ _ _ hx hi (by omega) (by rw [mpMulUl_size]; omega)⟩

theorem mpSafeSizeForAdd_inBounds (hx : xsize ≤ inp.size) (hy : ysize ≤ yp.size) :
    (mpSafeSizeForAdd inp xsize yp ysize).inBounds = true := by
  unfold mpSafeSizeForAdd
  split_ifs
  · simp only [inBounds_bind, inBounds_ite, inBounds_pure, ite_self, and_true,
      rd_inBounds]
    omega
  · simp only [inBounds_bind, inBounds_ite, inBounds_pure, ite_self, and_true,
      rd_inBounds]
    omega
  · rfl

end Loops

/-! ### Multiplication -/

variable {n : ℕ}

theorem karatsubaSum_inBounds (buf a : Ptr) {alen : ℕ} (b : Ptr) {len : ℕ} (ha : 0 < alen)
    (hn : 0 < n) (hlen : len = (mpSafeSizeForAdd a alen b n).val) (hbuf : buf.size = len)
    (hasize : alen ≤ a.size) (hbsize : n ≤ b.size) :
    (karatsubaSum buf len a alen b n).inBounds = true := by
  have hb := mpSafeSizeForAdd_bounds a alen b n
  have hadd1 : alen ≥ n →
      (mpAdd (buf.wr (len - 1) 0).val len (.ptr a) alen b n).inBounds = true := fun h => by
    rw [mpAdd_inBounds _ _ _ hn (by rw [wr_size]; omega), wr_size, Src.size_ptr]
    omega
  have hadd2 : ¬ alen ≥ n →
      (mpAdd (buf.wr (len - 1) 0).val len (.ptr b) n a alen).inBounds = true := fun h => by
    rw [mpAdd_inBounds _ _ _ ha (by rw [wr_size]; omega), wr_size, Src.size_ptr]
    omega
  simp only [karatsubaSum, inBounds_bind, wr_inBounds, inBounds_pure, and_true, inBounds_ite]
  refine ⟨by omega, ?_⟩
  split_ifs with h
  · exact hadd1 h
  · exact hadd2 h

variable {rsize : ℕ}

/-- The additions at the end of `karatsuba` are where the result can be overrun. -/
theorem karatsubaCombine_inBounds (rp : Ptr) {n2 aclen : ℕ} (adbc : Ptr) {adbclen : ℕ} (bd : Ptr)
    (hn2 : 0 < n2) (hac : 0 < aclen) (hsum : aclen + n2 = rsize) (hac' : aclen ≤ adbclen)
    (hn2' : n2 ≤ adbclen) (hrp : rp.size = rsize) (hadbc : adbc.size = adbclen + n)
    (hbd : bd.size = n2) :
    (karatsubaCombine rp rsize n2 aclen adbc n adbclen bd).inBounds = true ↔
      adbclen + n ≤ aclen + n2 := by
  have h1 : (mpSub (adbc.off n) adbclen .self adbclen (rp.off n2) aclen).inBounds = true :=
    mpSub_inBounds _ _ _ hac hac' le_rfl (by rw [Src.size_self, off_size]; omega)
      (by rw [off_size]; omega) (by rw [off_size]; omega)
  have h2 : ∀ q : Ptr, (mpSub ((adbc.putBack n q).off n) adbclen .self adbclen bd n2).inBounds =
      true := fun q =>
    mpSub_inBounds _ _ _ hn2 hn2' le_rfl
      (by rw [Src.size_self, off_size, putBack_size]; omega) (by omega)
      (by rw [off_size, putBack_size]; omega)
  simp only [karatsubaCombine, inBounds_bind, h1, h2, true_and,
    inBounds_pure, and_true]
  rw [mpAdd_inBounds _ _ _ (by omega) (by omega),
    mpAdd_inBounds _ _ _ hn2 (by rw [mpAdd_val_size]; omega), mpAdd_val_size, Src.size_self,
    Src.size_self, mpAdd_val_size, putBack_size, putBack_size]
  omega

variable {xsize ysize : ℕ}

/-- One level of `karatsuba` stays inside the buffers if and only if the inequality of its
comment holds and the three multiplications do. -/
theorem karatsuba_inBounds (h : canKaratsuba xsize ysize = true) (g : Junk) (rp xp yp : Ptr)
    (hx : xsize ≤ xp.size) (hy : ysize ≤ yp.size) (hr : rp.size = xsize + ysize) :
    let n := max xsize ysize / 2
    let apblen := (mpSafeSizeForAdd (xp.off n) (xsize - n) xp n).val
    let cpdlen := (mpSafeSizeForAdd (yp.off n) (ysize - n) yp n).val
    let apb := (karatsubaSum (g.buf 2 apblen) apblen (xp.off n) (xsize - n) xp n).val
    let cpd := (karatsubaSum (g.buf 3 cpdlen) cpdlen (yp.off n) (ysize - n) yp n).val
    (karatsuba g rp (xsize + ysize) xp xsize yp ysize h).inBounds = true ↔
      (mpMulRec (g.sub 4) (rp.off (2 * n)) (xsize - n + (ysize - n)) (xp.off n) (xsize - n)
          (yp.off n) (ysize - n)).inBounds = true ∧
        (mpMulRec (g.sub 5) (g.zeros 1 (2 * n)) (2 * n) xp n yp n).inBounds = true ∧
        (mpMulRec (g.sub 6) ((g.zeros 0 (apblen + cpdlen + n)).off n) (apblen + cpdlen)
          apb apblen cpd cpdlen).inBounds = true ∧
        apblen + cpdlen + n ≤ xsize - n + (ysize - n) + 2 * n := by
  intro n apblen cpdlen apb cpd
  rw [karatsuba]
  rw [canKaratsuba_iff] at h
  have hba := mpSafeSizeForAdd_bounds (xp.off n) (xsize - n) xp n
  have hbc := mpSafeSizeForAdd_bounds (yp.off n) (ysize - n) yp n
  have h1 : (mpSafeSizeForAdd (xp.off n) (xsize - n) xp n).inBounds = true :=
    mpSafeSizeForAdd_inBounds _ _ (by rw [off_size]; omega) (by omega)
  have h2 : (mpSafeSizeForAdd (yp.off n) (ysize - n) yp n).inBounds = true :=
    mpSafeSizeForAdd_inBounds _ _ (by rw [off_size]; omega) (by omega)
  have h3 : (karatsubaSum (g.buf 2 apblen) apblen (xp.off n) (xsize - n) xp n).inBounds = true :=
    karatsubaSum_inBounds _ _ _ (by omega) (by omega) rfl rfl (by rw [off_size]; omega)
      (by omega)
  have h4 : (karatsubaSum (g.buf 3 cpdlen) cpdlen (yp.off n) (ysize - n) yp n).inBounds = true :=
    karatsubaSum_inBounds _ _ _ (by omega) (by omega) rfl rfl (by rw [off_size]; omega)
      (by omega)
  have h5 : ∀ ac bd q : Ptr, bd.size = 2 * n →
      ((karatsubaCombine (rp.putBack (2 * n) ac) (xsize + ysize) (2 * n) (xsize - n + (ysize - n))
        ((g.zeros 0 (apblen + cpdlen + n)).putBack n q) n (apblen + cpdlen) bd).inBounds = true ↔
      apblen + cpdlen + n ≤ xsize - n + (ysize - n) + 2 * n) := fun ac bd q hbd =>
    karatsubaCombine_inBounds _ _ _ (by omega) (by omega) (by omega) (by omega) (by omega)
      (by rw [putBack_size, hr]) (by rw [putBack_size, Junk.zeros_size]) hbd
  simp only [inBounds_bind, inBounds_attach, val_attach]
  rw [h5 _ _ _ (by rw [mpMulRec_size, Junk.zeros_size])]
  exact ⟨fun h' => h'.2.2.2.2, fun h' => ⟨h1, h2, h3, h4, h'⟩⟩

/-- The length of the longer operand after `k` steps of the recursion on the upper parts. -/
def upperLen (l : ℕ) : ℕ → ℕ
  | 0 => l
  | k + 1 => upperLen (l - l / 2) k

theorem upperLen_le (l k : ℕ) : upperLen l k ≤ l := by
  induction k generalizing l with
  | zero => rfl
  | succ k ih => exact (ih _).trans (by omega)

/-- Operands of `L` and `S` words that make `mp_mul_rec` leave its buffer: at some level the upper
part of the shorter one is a single word, the sum of its halves needs a word more, as the second
word from the top is all ones, and so does that of the longer one, as its halves have the same
length or its top word is all ones. -/
def Overruns (long : Mem) (L : ℕ) (short : Mem) (S : ℕ) : Prop :=
  ∃ k, upperLen L k - upperLen L k / 2 = L - S + 1 ∧ 25 ≤ upperLen L k / 2 + 1 ∧
    short (S - 2) = ulongMax ∧ (upperLen L k % 2 = 0 ∨ long (L - 1) = ulongMax)

variable {long short : Mem} {L S : ℕ}

theorem Overruns.lengths (h : Overruns long L short S) : 25 ≤ S ∧ S < L ∧ L / 2 < S := by
  obtain ⟨k, h1, h2, -, -⟩ := h
  cases k with
  | zero =>
    simp only [upperLen] at h1 h2
    omega
  | succ k =>
    have hle' : upperLen L (k + 1) ≤ L - L / 2 := upperLen_le _ k
    omega

/-- The condition at the first level, or at a level of the recursion on the upper parts. -/
theorem overruns_iff (hS : L / 2 < S) (hle : S ≤ L) (h25 : 25 ≤ S) :
    Overruns long L short S ↔
      (S = L / 2 + 1 ∧ short (S - 2) = ulongMax ∧ (L % 2 = 0 ∨ long (L - 1) = ulongMax)) ∨
        Overruns (fun j => long (L / 2 + j)) (L - L / 2) (fun j => short (L / 2 + j))
          (S - L / 2) := by
  constructor
  · rintro ⟨k, h1, h2, h3, h4⟩
    cases k with
    | zero =>
      simp only [upperLen] at h1 h2 h4
      exact .inl ⟨by omega, h3, h4⟩
    | succ k =>
      have hle' : upperLen L (k + 1) ≤ L - L / 2 := upperLen_le _ k
      refine .inr ⟨k, by rw [upperLen] at h1; omega, h2, ?_, h4.imp id fun h => ?_⟩
      · change short (L / 2 + (S - L / 2 - 2)) = _
        rwa [show L / 2 + (S - L / 2 - 2) = S - 2 by omega]
      · change long (L / 2 + (L - L / 2 - 1)) = _
        rwa [show L / 2 + (L - L / 2 - 1) = L - 1 by omega]
  · rintro (⟨h1, h2, h3⟩ | h)
    · exact ⟨0, by simp only [upperLen]; omega, by simp only [upperLen]; omega, h2, h3⟩
    · have hlen := h.lengths
      obtain ⟨k, h1, h2, h3, h4⟩ := h
      refine ⟨k + 1, by rw [upperLen]; omega, h2, ?_, h4.imp id fun h => ?_⟩
      · rwa [show S - 2 = L / 2 + (S - L / 2 - 2) by omega]
      · rwa [show L - 1 = L / 2 + (L - L / 2 - 1) by omega]

theorem lengths_overrun_iff (lp sp : Ptr) (hS : L / 2 < S) (hle : S ≤ L) (h25 : 25 ≤ S) :
    (L - L / 2 + (S - L / 2) + 2 * (L / 2) <
        (mpSafeSizeForAdd (lp.off (L / 2)) (L - L / 2) lp (L / 2)).val +
          (mpSafeSizeForAdd (sp.off (L / 2)) (S - L / 2) sp (L / 2)).val + L / 2) ↔
      (S = L / 2 + 1 ∧ sp.mem (S - 2) = ulongMax ∧
        (L % 2 = 0 ∨ lp.mem (L - 1) = ulongMax)) := by
  set n := L / 2 with hn
  have htop : (lp.off n).mem (L - n - 1) = lp.mem (L - 1) := by
    rw [off_mem]
    congr 1
    omega
  by_cases hone : S = n + 1
  · have hshort : (mpSafeSizeForAdd (sp.off n) (S - n) sp n).val =
        if sp.mem (S - 2) = ulongMax then n + 1 else n := by
      rw [mpSafeSizeForAdd_val, if_neg (by omega), if_pos (by omega), show n - 1 = S - 2 by omega]
    have hlong : (mpSafeSizeForAdd (lp.off n) (L - n) lp n).val =
        if L % 2 = 0 ∨ lp.mem (L - 1) = ulongMax then L - n + 1 else L - n := by
      rw [mpSafeSizeForAdd_val, htop]
      rcases Nat.mod_two_eq_zero_or_one L with hL | hL
      · rw [if_neg (by omega), if_neg (by omega), if_pos (.inl hL)]
      · rw [if_pos (by omega)]
        simp only [hL, one_ne_zero, false_or]
    rw [hshort, hlong]
    by_cases h1 : sp.mem (S - 2) = ulongMax
    · by_cases h2 : L % 2 = 0 ∨ lp.mem (L - 1) = ulongMax
      · rw [if_pos h1, if_pos h2]
        exact iff_of_true (by omega) ⟨hone, h1, h2⟩
      · rw [if_pos h1, if_neg h2]
        exact iff_of_false (by omega) fun h => h2 h.2.2
    · rw [if_neg h1]
      exact iff_of_false (by split_ifs <;> omega) fun h => h1 h.2.1
  · have hb := mpSafeSizeForAdd_bounds (lp.off n) (L - n) lp n
    have hb' := mpSafeSizeForAdd_bounds (sp.off n) (S - n) sp n
    exact iff_of_false (by omega) fun h => hone h.1

/-- Operands that make `mp_mul_rec` leave its buffer, whichever of them is the longer one. -/
def MulOverruns (xp : Mem) (xsize : ℕ) (yp : Mem) (ysize : ℕ) : Prop :=
  Overruns xp xsize yp ysize ∨ Overruns yp ysize xp xsize

theorem Overruns.far (h : Overruns long L short S) : S + 2 < L := by
  obtain ⟨k, h1, h2, -, -⟩ := h
  omega

theorem not_mulOverruns_of_near (xp yp : Mem) (hxy : xsize ≤ ysize + 2) (hyx : ysize ≤ xsize + 2) :
    ¬ MulOverruns xp xsize yp ysize := by
  rintro (h | h)
  · have := h.far
    omega
  · have := h.far
    omega

theorem mulOverruns_iff (xp yp : Ptr) (h : canKaratsuba xsize ysize = true) :
    let n := max xsize ysize / 2
    MulOverruns xp.mem xsize yp.mem ysize ↔
      (xsize - n + (ysize - n) + 2 * n <
          (mpSafeSizeForAdd (xp.off n) (xsize - n) xp n).val +
            (mpSafeSizeForAdd (yp.off n) (ysize - n) yp n).val + n) ∨
        MulOverruns (xp.off n).mem (xsize - n) (yp.off n).mem (ysize - n) := by
  intro n
  rw [canKaratsuba_iff] at h
  -- the shorter operand never plays the longer one's part
  have hnot : ∀ (l s : Mem) (L S : ℕ), L ≤ S → ¬ Overruns l L s S :=
    fun l s L S hle hov => absurd hov.lengths (by omega)
  rcases Nat.le_total ysize xsize with hle | hle
  · have hn : n = xsize / 2 := by omega
    rw [MulOverruns, MulOverruns, or_iff_left (hnot yp.mem xp.mem ysize xsize hle),
      or_iff_left (hnot _ _ (ysize - n) (xsize - n) (by omega)), hn,
      lengths_overrun_iff xp yp (by omega) hle (by omega),
      overruns_iff (by omega) hle (by omega)]
    rfl
  · have hn : n = ysize / 2 := by omega
    rw [MulOverruns, MulOverruns, or_iff_right (hnot xp.mem yp.mem xsize ysize hle),
      or_iff_right (hnot _ _ (xsize - n) (ysize - n) (by omega)), hn,
      Nat.add_comm (xsize - ysize / 2), Nat.add_comm (mpSafeSizeForAdd _ _ xp _).val,
      lengths_overrun_iff yp xp (by omega) hle (by omega),
      overruns_iff (by omega) hle (by omega)]
    rfl

/-- **Which multiplications stay inside their buffers.** -/
theorem mpMulRec_inBounds_iff (xsize ysize : ℕ) (hx0 : 0 < xsize) (hy0 : 0 < ysize) (g : Junk)
    (rp xp yp : Ptr) (hx : xsize ≤ xp.size) (hy : ysize ≤ yp.size)
    (hr : rp.size = xsize + ysize) :
    (mpMulRec g rp (xsize + ysize) xp xsize yp ysize).inBounds = true ↔
      ¬ MulOverruns xp.mem xsize yp.mem ysize := by
  induction hs : xsize + ysize using Nat.strong_induction_on
    generalizing xsize ysize g rp xp yp with
  | _ s ih =>
    subst hs
    rw [mpMulRec]
    split_ifs with h
    · refine (karatsuba_inBounds h g rp xp yp hx hy hr).trans
        (Iff.trans ?_ (not_congr (mulOverruns_iff xp yp h)).symm)
      rw [not_or, not_lt]
      rw [canKaratsuba_iff] at h
      set n := max xsize ysize / 2 with hn
      have hba := mpSafeSizeForAdd_bounds (xp.off n) (xsize - n) xp n
      have hbc := mpSafeSizeForAdd_bounds (yp.off n) (ysize - n) yp n
      set apblen := (mpSafeSizeForAdd (xp.off n) (xsize - n) xp n).val
      set cpdlen := (mpSafeSizeForAdd (yp.off n) (ysize - n) yp n).val
      have h1 := ih (xsize - n + (ysize - n)) (by omega) _ _ (by omega) (by omega) (g.sub 4)
        (rp.off (2 * n)) (xp.off n) (yp.off n) (by rw [off_size]; omega)
        (by rw [off_size]; omega) (by rw [off_size]; omega) rfl
      have h2 : (mpMulRec (g.sub 5) (g.zeros 1 (2 * n)) (2 * n) xp n yp n).inBounds = true := by
        rw [two_mul]
        exact (ih (n + n) (by omega) _ _ (by omega) (by omega) _ _ _ _ (by omega) (by omega) rfl
          rfl).2 (not_mulOverruns_of_near _ _ (by omega) (by omega))
      have h3 := (ih (apblen + cpdlen) (by omega) _ _ (by omega) (by omega) (g.sub 6)
        ((g.zeros 0 (apblen + cpdlen + n)).off n)
        (karatsubaSum (g.buf 2 apblen) apblen (xp.off n) (xsize - n) xp n).val
        (karatsubaSum (g.buf 3 cpdlen) cpdlen (yp.off n) (ysize - n) yp n).val
        (by rw [karatsubaSum_size, Junk.buf_size]) (by rw [karatsubaSum_size, Junk.buf_size])
        (by rw [off_size, Junk.zeros_size]; omega) rfl).2
        (not_mulOverruns_of_near _ _ (by omega) (by omega))
      rw [h1]
      exact ⟨fun h' => ⟨h'.2.2.2, h'.1⟩, fun h' => ⟨h'.2, h2, h3, h'.1⟩⟩
    · have hnot : ¬ MulOverruns xp.mem xsize yp.mem ysize := by
        rw [canKaratsuba_iff] at h
        rintro (hov | hov) <;> have := hov.lengths <;> omega
      exact iff_of_true (longMul_inBounds _ _ _ hx0 hy0 hx hy hr.ge) hnot

/-! ### Squaring -/

variable {k : ℕ}

theorem mpAddOneCarry_inBounds (rp : Ptr) {i : ℕ} (hr : i + k ≤ rp.size) :
    (mpAddOneCarry k i rp).inBounds = true := by
  induction k generalizing i rp with
  | zero => rfl
  | succ k ih =>
    simp only [mpAddOneCarry, inBounds_bind, inBounds_ite,
      rd_inBounds, wr_inBounds, inBounds_pure]
    refine ⟨by omega, by omega, ?_⟩
    split_ifs
    exact ih _ (by rw [wr_size]; omega)

theorem mpAddUl_self_inBounds (rp : Ptr) (hx : 0 < xsize) (hxs : xsize ≤ rp.size)
    (hr : rsize - 1 < rp.size) (y : Word) : (mpAddUl rp rsize .self xsize y).inBounds = true := by
  have hone : (mpAddOne rp .self xsize y).inBounds = true := by
    simp only [mpAddOne, mpAddOneCopy, inBounds_bind, inBounds_ite,
      Src.rd_inBounds, wr_inBounds, inBounds_pure, Src.size_self,
      val_pure, true_and]
    refine ⟨by omega, by omega, ?_⟩
    split_ifs
    exact mpAddOneCarry_inBounds _ (by rw [wr_size]; omega)
  simp only [mpAddUl, inBounds_bind, inBounds_ite, wr_inBounds, mpAddOne_size,
    inBounds_pure, and_true, hr, ite_self, hone]

theorem wrBelow_inBounds (rp : Ptr) (hr : rsize ≤ rp.size) (i : ℕ) (v : Word) :
    (wrBelow rp rsize i v).inBounds = true := by
  rw [wrBelow, inBounds_ite]
  split_ifs
  · rw [wr_inBounds]
    omega
  · rfl

theorem mpLshiftBits_inBounds (rp : Ptr) (nwords nbits : ℕ) (hx : k < rp.size)
    (hr : rsize ≤ rp.size) : (mpLshiftBits rsize .self nwords nbits k rp).inBounds = true := by
  induction k generalizing rp with
  | zero => rfl
  | succ k ih =>
    simp only [mpLshiftBits, inBounds_bind, Src.rd_inBounds,
      Src.size_self]
    exact ⟨by omega, by omega, wrBelow_inBounds _ hr _ _,
      ih _ (by rw [wrBelow_size]; omega) (by rw [wrBelow_size]; omega)⟩

theorem mpLshift_one_inBounds (rp : Ptr) (h0 : 0 < rsize) (hr : rsize ≤ rp.size) :
    (mpLshift rp rsize .self rsize 1).inBounds = true := by
  have htop : mpLshiftTop rp rsize .self rsize 0 1 = pure rp := by
    rw [mpLshiftTop, if_neg (by omega)]
  simp only [mpLshift, show 1 / 64 = 0 by norm_num, show 1 % 64 = 1 by norm_num, h0.ne',
    one_ne_zero, ite_false, htop, inBounds_bind, inBounds_pure,
    val_pure, Src.rd_inBounds, wr_inBounds, Src.size_self,
    mpLshiftBits_size, true_and]
  exact ⟨mpLshiftBits_inBounds _ _ _ (by omega) hr, by omega, by omega, rfl⟩

theorem baseSquareDiag_inBounds (rp xp : Ptr) (hx : k ≤ xp.size) (hr : 2 * k ≤ rp.size)
    (last : Word) : (baseSquareDiag xp k rp last).inBounds = true := by
  induction k generalizing rp last with
  | zero => rfl
  | succ k ih =>
    simp only [baseSquareDiag, inBounds_bind, rd_inBounds,
      wr_inBounds, wr_size]
    exact ⟨by omega, by omega, by omega,
      ih _ (by omega) (by rw [wr_size, wr_size]; omega) _⟩

theorem baseSquareOff_inBounds (rp xp : Ptr) {l i : ℕ} (hx : i + (l + 1) ≤ xp.size)
    (hr : 2 * (i + (l + 1)) = rp.size) :
    (baseSquareOff xp rp.size l i rp).inBounds = true := by
  have hgen : ∀ rsize, rsize = rp.size → (baseSquareOff xp rsize l i rp).inBounds = true := by
    intro rsize hrsize
    induction l generalizing i rp with
    | zero => rfl
    | succ l ih =>
      simp only [baseSquareOff, inBounds_bind, rd_inBounds]
      refine ⟨by omega, mpMulAdd_inBounds _ _ (by omega) (by rw [off_size]; omega)
        (by rw [off_size]; omega) _, mpAddUl_self_inBounds _ (by omega)
        (by rw [off_size, putBack_size]; omega)
        (by rw [off_size, putBack_size]; omega) _,
        ih _ (by omega) (by rw [putBack_size, putBack_size]; omega)
          (by rw [putBack_size, putBack_size]; exact hrsize)⟩
  exact hgen _ rfl

theorem mpBaseSquare_inBounds (rp xp : Ptr) (h0 : 0 < xsize) (hx : xsize ≤ xp.size)
    (hr : rp.size = 2 * xsize) : (mpBaseSquare rp (2 * xsize) xp xsize).inBounds = true := by
  have hoff : ∀ p : Ptr, p.size = 2 * xsize →
      (baseSquareOff xp (2 * xsize) (xsize - 1) 0 p).inBounds = true := fun p hp => by
    rw [← hp]
    exact baseSquareOff_inBounds _ _ (by omega) (by omega)
  simp only [mpBaseSquare, inBounds_bind, rd_inBounds, wr_inBounds, mpLshift_size,
    baseSquareOff_size, baseSquareDiag_size]
  exact ⟨baseSquareDiag_inBounds _ _ hx hr.ge _, hoff _ (by rw [baseSquareDiag_size, hr]),
    mpLshift_one_inBounds _ (by omega)
      (by rw [baseSquareOff_size, baseSquareDiag_size, hr]), by omega, by omega, by omega⟩

theorem karatsubaSquareCombine_overrun (rp : Ptr) {a2len : ℕ} (apb2 : Ptr) (apb2len : ℕ) (b2 : Ptr)
    (hn : 0 < n) (hr : rp.size = a2len + 2 * n) :
    (karatsubaSquareCombine rp (a2len + 2 * n) a2len n apb2 apb2len b2 (2 * n)).inBounds =
      false := by
  rw [Bool.eq_false_iff]
  intro h
  simp only [karatsubaSquareCombine, inBounds_bind,
    show (n * 64 + 64 - 1) / 64 = n by omega, show ¬ a2len + 2 * n = a2len + n by omega,
    ite_false] at h
  have hlast := h.2.2.2.1
  rw [mpAdd_inBounds _ _ _ (by omega) (by rw [mpLshift_size, mpAdd_val_size, mpLshift_size]; omega),
    mpLshift_size, mpAdd_val_size, mpLshift_size] at hlast
  omega

/-- **`mp_square_rec` stays inside its buffers exactly below the length at which it splits.** -/
theorem mpSquareRec_inBounds_iff (xsize : ℕ) (h0 : 0 < xsize) (g : Junk) (rp xp : Ptr)
    (hx : xsize ≤ xp.size) (hr : rp.size = 2 * xsize) :
    (mpSquareRec g rp (2 * xsize) xp xsize).inBounds = true ↔ xsize < 45 := by
  rw [mpSquareRec, if_neg h0.ne']
  split_ifs with h
  · have h45 := canKaratsubaSquare_iff.1 h
    refine iff_of_false (fun hin => ?_) (by omega)
    rw [karatsubaSquare] at hin
    simp only [inBounds_bind] at hin
    have hlast := hin.2.2.2.2.2.2.2.2.2.2
    rw [show 2 * xsize = 2 * (xsize - xsize / 2) + 2 * (xsize / 2) by omega] at hlast hr
    rw [karatsubaSquareCombine_overrun _ _ _ _ (by omega) (by rw [mpSquareRec_size, hr])] at hlast
    exact Bool.false_ne_true hlast
  · rw [canKaratsubaSquare_iff] at h
    exact iff_of_true (mpBaseSquare_inBounds rp xp h0 hx hr) (by omega)

/-! ### Both functions -/

/-- **When multiplication and squaring stay inside their buffers.** -/
theorem mulSquare_inBounds_iff (g : Junk) (rp sp xp yp : Ptr) (xsize ysize : ℕ)
    (hx0 : 1 ≤ xsize) (hy0 : 1 ≤ ysize) (hx : xp.size = xsize) (hy : yp.size = ysize)
    (hr : rp.size = xsize + ysize) (hs : sp.size = 2 * xsize) :
    ((mpMulRec g rp (xsize + ysize) xp xsize yp ysize).inBounds = true ↔
        ¬ MulOverruns xp.mem xsize yp.mem ysize) ∧
      ((mpSquareRec g sp (2 * xsize) xp xsize).inBounds = true ↔ xsize < 45) :=
  ⟨mpMulRec_inBounds_iff _ _ hx0 hy0 g rp xp yp hx.ge hy.ge hr,
    mpSquareRec_inBounds_iff _ hx0 g sp xp hx.ge hs⟩

/-- Forty words each: the product goes through `karatsuba`, and stays inside. -/
theorem mulSquare_inBounds_forty :
    let rp : Ptr := ⟨fun _ => 0, 80⟩
    let xp : Ptr := ⟨fun _ => ulongMax, 40⟩
    canKaratsuba 40 40 = true ∧ (mpMulRec (fun _ _ => 0) rp 80 xp 40 xp 40).inBounds = true ∧
      (mpSquareRec (fun _ _ => 0) rp 80 xp 40).inBounds = true := by
  intro rp xp
  obtain ⟨h1, h2⟩ := mulSquare_inBounds_iff (fun _ _ => 0) rp rp xp xp 40 40 (by decide)
    (by decide) rfl rfl rfl rfl
  refine ⟨by decide, h1.2 ?_, h2.2 (by decide)⟩
  rintro (h | h) <;> exact absurd h.lengths (by decide)

/-- A product of 50 and 26 words that is written behind the 76 words of its result, and the
square of 45 words. -/
theorem mulSquare_overrun_example :
    (mpMulRec (fun _ _ => 0) ⟨fun _ => 0, 76⟩ 76 ⟨fun _ => 1, 50⟩ 50
        ⟨fun _ => ulongMax, 26⟩ 26).inBounds = false ∧
      (mpSquareRec (fun _ _ => 0) ⟨fun _ => 0, 90⟩ 90 ⟨fun _ => 1, 45⟩ 45).inBounds = false := by
  constructor
  · rw [Bool.eq_false_iff, ne_eq]
    refine mt (mpMulRec_inBounds_iff 50 26 (by decide) (by decide)
      (fun _ _ => 0) ⟨fun _ => 0, 76⟩ ⟨fun _ => 1, 50⟩ ⟨fun _ => ulongMax, 26⟩ le_rfl le_rfl
      rfl).1 (not_not.2 (.inl ⟨0, by decide, by decide, rfl, .inl (by decide)⟩))
  · rw [Bool.eq_false_iff, ne_eq]
    exact mt (mpSquareRec_inBounds_iff 45 (by decide) (fun _ _ => 0)
      ⟨fun _ => 0, 90⟩ ⟨fun _ => 1, 45⟩ le_rfl rfl).1 (by decide)

end Sagittarius
