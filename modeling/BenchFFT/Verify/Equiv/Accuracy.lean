import BenchFFT.Mp.Equiv.Accuracy
import BenchFFT.Verify.Accuracy
import BenchFFT.Verify.Equiv.Tests

/-!
# What the accuracy test reports

In exact arithmetic each of the six numbers that `do_accuracy` prints is zero exactly when the
transform under test has computed the discrete Fourier transform in every round
(`doAccuracy_eq_zero_iff`).
-/

namespace BenchFFT.Verify

open Finset RowMajor

section Rounds

variable {R : Type} [Field R] (p : Problem)
  (doFft : (ℕ → BenchComplex R) → (ℕ → BenchComplex R) → ℕ → BenchComplex R)

/-- The inputs and the outputs of the rounds. -/
def accuracyData (n : ℕ) : List (ℕ → BenchComplex R) → (ℕ → BenchComplex R) →
    (ℕ → BenchComplex R) → List ((ℕ → BenchComplex R) × (ℕ → BenchComplex R))
  | [], _, _ => []
  | d :: ds, a, b =>
    let a := mkinput p (arand a n d) n
    let b := doFft a b
    (a, b) :: accuracyData n ds a b

variable {A : Type} [LT R] [DecidableLT R] [Zero A] [Add A] [Sub A] [Mul A] (ar : Mp.Arith R A)

/-- The calls of a run of `do_accuracy` are those of the request with its inputs and outputs. -/
theorem accuracyRounds_calls {n : ℕ} (hn : 1 ≤ n) (hlt : n < 2 ^ 28)
    (ds : List (ℕ → BenchComplex R))
    (a b : ℕ → BenchComplex R) :
    (do let _ ← accuracyRounds ar p doFft n ds a b : Mp.Prog A PUnit)
      = Mp.doAccuracy ar ⟨n, hn, hlt, p.sign, accuracyData p doFft n ds a b⟩ := by
  have hrounds : ∀ (ds : List (ℕ → BenchComplex R)) (s : Accuracy R) (k : Mp.Prog A PUnit),
      (ds.foldlM (accuracyRound ar p doFft n) s >>= fun _ => k)
        = (accuracyData p doFft n ds s.a s.b).forM (fun round => do
            let _ ← Mp.fftaccuracy ar n round.1 round.2 p.sign : _ → Mp.Prog A PUnit) >>=
          fun _ => k := by
    intro ds
    induction ds with
    | nil => intro s k; rfl
    | cons d ds ih =>
      intro s k
      rw [List.foldlM_cons, accuracyData, bind_assoc]
      simp only [ih]
      simp [accuracyRound]
  have hdone : (do Mp.fftaccuracyDone; pure ⟨⟩ : Mp.Prog A PUnit) = Mp.fftaccuracyDone :=
    bind_pure _
  rw [accuracyRounds, Mp.doAccuracy]
  simp only [bind_assoc, pure_bind]
  exact (hrounds ds ⟨a, b, (0, 0, 0), (0, 0, 0)⟩ _).trans (congrArg (_ >>= fun _ => ·) hdone)

end Rounds

/-! ### The errors of a run -/

section Exact

variable (p : Problem)
  (doFft : (ℕ → BenchComplex ℝ) → (ℕ → BenchComplex ℝ) → ℕ → BenchComplex ℝ)

theorem dmaxOf_eq_max (x y : ℝ) : dmaxOf x y = max x y := by
  rw [dmaxOf]
  split_ifs with hxy
  · exact (max_eq_left hxy.le).symm
  · exact (max_eq_right (not_lt.mp hxy)).symm

theorem measures_addErrors {t err : ℝ × ℝ × ℝ} {P Q : Prop} (ht : Mp.Measures t P)
    (herr : Mp.Measures err Q) : Mp.Measures (addErrors t err) (P ∧ Q) :=
  ⟨ht.l1.add herr.l1, ht.l2.add herr.l2.mul_self, by
    rw [addErrors, dmaxOf_eq_max]
    exact ht.linf.max herr.linf⟩

theorem measures_meanErrors {t : ℝ × ℝ × ℝ} {P : Prop} {rounds : ℕ} (hrounds : 0 < rounds)
    (ht : Mp.Measures t P) : Mp.Measures (meanErrors Real.sqrt rounds t) P := by
  have hpos : (0 : ℝ) < rounds := Nat.cast_pos.mpr hrounds
  exact ⟨ht.l1.div hpos, (ht.l2.div hpos).sqrt, ht.linf⟩

/-- The output is the transform of the input. -/
def Exact (n : ℕ) (round : (ℕ → BenchComplex ℝ) × (ℕ → BenchComplex ℝ)) : Prop :=
  Mp.IsTransform n p.sign (Mp.samples round.1) (Mp.samples round.2)

/-- The totals of a run: the squares of the L2 errors have the same sum, and when no input is zero
each total detects whether all outputs so far are right. -/
theorem foldlM_accuracyRound {n : ℕ} (hn : 1 ≤ n) (hsign : p.sign = 1 ∨ p.sign = -1)
    (ds : List (ℕ → BenchComplex ℝ)) (s : Accuracy ℝ) {st : Mp.Statics ℝ}
    (hst : Mp.Serves Mp.exactCexp n st) :
    ∃ s' st', ds.foldlM (accuracyRound Mp.exactArith p doFft n) s st = .ok (s', st') ∧
      Mp.Serves Mp.exactCexp n st' ∧
      (s.forward.2.1 = s.backward.2.1 → s'.forward.2.1 = s'.backward.2.1) ∧
      ((∀ r ∈ accuracyData p doFft n ds s.a s.b, ∃ k < n, Mp.samples r.1 k ≠ 0) →
        ∀ P, Mp.Measures s.forward P → Mp.Measures s.backward P →
          Mp.Measures s'.forward (P ∧ ∀ r ∈ accuracyData p doFft n ds s.a s.b, Exact p n r) ∧
          Mp.Measures s'.backward (P ∧ ∀ r ∈ accuracyData p doFft n ds s.a s.b, Exact p n r)) := by
  induction ds generalizing s st with
  | nil =>
    refine ⟨s, st, rfl, hst, id, fun _ P hf hb => ⟨hf.congr ?_, hb.congr ?_⟩⟩ <;>
      simp [accuracyData]
  | cons d ds ih =>
    set a := mkinput p (arand s.a n d) n
    set b := doFft a s.b
    obtain ⟨f, g, st₁, hrun, hst₁, hl2, hmeasures⟩ := Mp.fftaccuracy_measures hn a b hsign hst
    let s₁ : Accuracy ℝ := ⟨a, b, addErrors s.forward f, addErrors s.backward g⟩
    have hround : accuracyRound Mp.exactArith p doFft n s d st = .ok (s₁, st₁) :=
      Mp.Prog.bind_ok hrun _
    obtain ⟨s', st', hrun', hst', hl2', hmeasures'⟩ := ih s₁ hst₁
    refine ⟨s', st', ?_, hst', fun h => hl2' ?_, fun hdata P hf hb => ?_⟩
    · rw [List.foldlM_cons]
      exact (Mp.Prog.bind_ok hround _).trans hrun'
    · change s.forward.2.1 + f.2.1 * f.2.1 = s.backward.2.1 + g.2.1 * g.2.1
      rw [h, hl2]
    · rw [accuracyData, List.forall_mem_cons] at hdata
      obtain ⟨hf₁, hb₁⟩ := hmeasures hdata.1
      obtain ⟨hf', hb'⟩ := hmeasures' hdata.2 _ (measures_addErrors hf hf₁)
        (measures_addErrors hb hb₁)
      have hall : ((P ∧ Exact p n (a, b)) ∧ ∀ r ∈ accuracyData p doFft n ds a b, Exact p n r) ↔
          P ∧ ∀ r ∈ accuracyData p doFft n (d :: ds) s.a s.b, Exact p n r := by
        rw [accuracyData, List.forall_mem_cons, and_assoc]
      exact ⟨hf'.congr hall, hb'.congr hall⟩

theorem exact_iff {n : ℕ} (r : (ℕ → BenchComplex ℝ) × (ℕ → BenchComplex ℝ)) :
    Exact p n r ↔ ∀ k < n, Mp.samples r.2 k = ∑ j ∈ range n,
      Mp.samples r.1 j * Complex.exp (p.sign * 2 * Real.pi * Complex.I * j * k / n) := by
  have hsum : ∀ k, Chirp.dft n (Mp.cis p.sign n) (Mp.samples r.1) k = ∑ j ∈ range n,
      Mp.samples r.1 j * Complex.exp (p.sign * 2 * Real.pi * Complex.I * j * k / n) := by
    intro k
    refine sum_congr rfl fun j _ => ?_
    rw [Mp.cis_pow, Mp.cis]
    congr 2
    push_cast
    ring
  exact forall₂_congr fun k _ => by rw [hsum]

theorem fftaccuracyDone_serves {n : ℕ} {st : Mp.Statics ℝ} (hst : Mp.Serves Mp.exactCexp n st) :
    ∃ st', Mp.fftaccuracyDone st = .ok (⟨⟩, st') := by
  rcases hst with hempty | ⟨-, w, y, -, hw, hy⟩
  · exact ⟨st, Mp.fftaccuracyDone_empty hempty⟩
  · obtain ⟨st', hrun, -⟩ := Mp.fftaccuracyDone_filled hw hy
    exact ⟨st', hrun⟩

/-- A run of `do_accuracy` on a transform of one dimension. -/
theorem doAccuracy_run {n : ℕ} (hdims : p.dims = [n]) (hvrank : p.vrank = 0) (hn : 1 ≤ n)
    (hsign : p.sign = 1 ∨ p.sign = -1) {ds : List (ℕ → BenchComplex ℝ)} (hds : ds ≠ [])
    (a b : ℕ → BenchComplex ℝ) {st : Mp.Statics ℝ} (hst : Mp.Empty st) :
    ∃ prog forward backward st', doAccuracy Mp.exactArith p doFft ds a b = .ok prog ∧
      prog st = .ok ((forward, backward), st') ∧ forward.2.1 = backward.2.1 ∧
      ((∀ r ∈ accuracyData p doFft n ds a b, ∃ k < n, Mp.samples r.1 k ≠ 0) →
        Mp.Measures forward (∀ r ∈ accuracyData p doFft n ds a b, Exact p n r) ∧
        Mp.Measures backward (∀ r ∈ accuracyData p doFft n ds a b, Exact p n r)) := by
  have hrank : p.rank = 1 := by rw [← p.length_dims, hdims]; rfl
  have hlen : 0 < ds.length := List.length_pos_of_ne_nil hds
  have hzero : Mp.Measures (0, 0, 0) True := ⟨Detects.zero, Detects.zero, Detects.zero⟩
  obtain ⟨s, st₁, hrun, hst₁, hl2, hmeasures⟩ := foldlM_accuracyRound p doFft hn hsign ds
    ⟨a, b, (0, 0, 0), (0, 0, 0)⟩ (Or.inl hst)
  obtain ⟨st', hdone⟩ := fftaccuracyDone_serves hst₁
  refine ⟨accuracyRounds Mp.exactArith p doFft n ds a b,
    meanErrors Real.sqrt ds.length s.forward, meanErrors Real.sqrt ds.length s.backward, st', ?_,
    ?_, ?_, fun hdata => ?_⟩
  · rw [doAccuracy, benchAssert_ok hrank, benchAssert_ok hvrank, hdims]
    rfl
  · exact (Mp.Prog.bind_ok hrun _).trans (Mp.Prog.bind_ok hdone _)
  · exact congrArg (fun x => Real.sqrt (x / ds.length)) (hl2 rfl)
  · obtain ⟨hf, hb⟩ := hmeasures hdata True hzero hzero
    exact ⟨measures_meanErrors hlen (hf.congr (by rw [true_and])),
      measures_meanErrors hlen (hb.congr (by rw [true_and]))⟩

/-- **When the accuracy test finds no error**: each of the six numbers is zero if and only if every
round has computed the discrete Fourier transform of its input, provided that no input is zero. -/
theorem doAccuracy_eq_zero_iff {n : ℕ} (hdims : p.dims = [n]) (hvrank : p.vrank = 0) (hn : 1 ≤ n)
    (hlt : n < 2 ^ 28) (hsign : p.sign = 1 ∨ p.sign = -1) {ds : List (ℕ → BenchComplex ℝ)}
    (hds : ds ≠ []) (a b : ℕ → BenchComplex ℝ) (st : Mp.Statics ℝ) (hst : Mp.Empty st)
    (hinput : ∀ r ∈ accuracyData p doFft n ds a b, ∃ k < n, Mp.samples r.1 k ≠ 0) :
    2 * Mp.pow2Atleast (2 * n) < 2 ^ 31 ∧
      ∃ prog forward backward st', doAccuracy Mp.exactArith p doFft ds a b = .ok prog ∧
        prog st = .ok ((forward, backward), st') ∧
        ∀ e ∈ [forward.1, forward.2.1, forward.2.2, backward.1, backward.2.1, backward.2.2],
          0 ≤ e ∧ (e = 0 ↔ ∀ r ∈ accuracyData p doFft n ds a b, ∀ k < n,
            Mp.samples r.2 k = ∑ j ∈ range n, Mp.samples r.1 j
              * Complex.exp (p.sign * 2 * Real.pi * Complex.I * j * k / n)) := by
  obtain ⟨prog, forward, backward, st', hprog, hrun, -, hmeasures⟩ :=
    doAccuracy_run p doFft hdims hvrank hn hsign hds a b hst
  obtain ⟨hf, hb⟩ := hmeasures hinput
  simp only [← exact_iff]
  refine ⟨Mp.two_mul_pow2Atleast_lt hn hlt, prog, forward, backward, st', hprog, hrun, ?_⟩
  simp only [List.forall_mem_cons, List.not_mem_nil, false_imp_iff, implies_true, and_true]
  exact ⟨⟨hf.l1.nonneg, hf.l1.eq_zero_iff⟩, ⟨hf.l2.nonneg, hf.l2.eq_zero_iff⟩,
    ⟨hf.linf.nonneg, hf.linf.eq_zero_iff⟩, ⟨hb.l1.nonneg, hb.l1.eq_zero_iff⟩,
    ⟨hb.l2.nonneg, hb.l2.eq_zero_iff⟩, ⟨hb.linf.nonneg, hb.linf.eq_zero_iff⟩⟩

/-- The problem `of3`. -/
def of3 : Problem where
  kind := .complex
  n := [3]
  size := 3
  vn := []
  vsize := 1
  sign := -1
  inPlace := false
  split := false
  pstring := "of3".toList

/-- A transform that leaves zeros is found out. -/
theorem doAccuracy_eq_zero_iff_of3 :
    ∃ prog forward backward st', doAccuracy Mp.exactArith of3 (fun _ _ _ => ⟨0, 0⟩)
        [fun _ => ⟨1, 0⟩] (fun _ => ⟨0, 0⟩) (fun _ => ⟨0, 0⟩) = .ok prog ∧
      prog (Mp.initialStatics 0 fun _ _ => 1) = .ok ((forward, backward), st') ∧ forward.1 ≠ 0 ∧
      backward.2.2 ≠ 0 := by
  let x : ℕ → BenchComplex ℝ := mkinput of3 (arand (fun _ => ⟨0, 0⟩) 3 fun _ => ⟨1, 0⟩) 3
  have hx : ∀ j ∈ range 3, Mp.samples x j = 1 := by
    intro j hj
    obtain rfl | rfl | rfl : j = 0 ∨ j = 1 ∨ j = 2 := by have := mem_range.mp hj; omega
    all_goals rfl
  obtain ⟨-, prog, forward, backward, st', hprog, hrun, herrors⟩ :=
    doAccuracy_eq_zero_iff of3 (fun _ _ _ => ⟨0, 0⟩) (n := 3) rfl rfl (by decide) (by decide)
      (Or.inr rfl) (List.cons_ne_nil (fun _ => ⟨1, 0⟩) []) (fun _ => ⟨0, 0⟩) (fun _ => ⟨0, 0⟩)
      (Mp.initialStatics 0 fun _ _ => 1) ⟨rfl, rfl, rfl⟩ (List.forall_mem_singleton.mpr
        ⟨0, by decide, ne_of_eq_of_ne (hx 0 (by decide)) one_ne_zero⟩)
  have hwrong : ¬∀ r ∈ accuracyData of3 (fun _ _ _ => ⟨0, 0⟩) 3 [fun _ => ⟨1, 0⟩]
      (fun _ => ⟨0, 0⟩) (fun _ => ⟨0, 0⟩), ∀ k < 3, Mp.samples r.2 k = ∑ j ∈ range 3,
        Mp.samples r.1 j * Complex.exp (of3.sign * 2 * Real.pi * Complex.I * j * k / (3 : ℕ)) := by
    intro h
    have hzero := List.forall_mem_singleton.mp h 0 (by decide)
    have hsum : ∑ j ∈ range 3, Mp.samples x j
        * Complex.exp (of3.sign * 2 * Real.pi * Complex.I * j * (0 : ℕ) / (3 : ℕ)) = 3 := by
      rw [sum_congr rfl fun j hj => by rw [hx j hj]]
      simp
    have hthree : (0 : ℂ) = 3 := Eq.trans (b := Mp.samples (fun _ => ⟨0, 0⟩) 0) rfl
      (hzero.trans hsum)
    exact absurd hthree.symm (by norm_num)
  exact ⟨prog, forward, backward, st', hprog, hrun,
    fun h => hwrong ((herrors _ (by simp)).2.mp h), fun h => hwrong ((herrors _ (by simp)).2.mp h)⟩

/-- The norms of a nonzero input and of its transform, by which the L2 errors are divided. -/
theorem norms_pos {n : ℕ} (hn : 1 ≤ n) (hsign : p.sign = 1 ∨ p.sign = -1) {x : ℕ → ℂ}
    (hx : ∃ k < n, x k ≠ 0) :
    0 < ∑ k ∈ range n, Complex.normSq (x k) ∧
      0 < ∑ k ∈ range n, Complex.normSq (Chirp.dft n (Mp.cis p.sign n) x k) := by
  obtain ⟨k, hk, hne⟩ := hx
  have hpos : 0 < ∑ k ∈ range n, Complex.normSq (x k) :=
    sum_pos' (fun k _ => Complex.normSq_nonneg (x k))
      ⟨k, mem_range.mpr hk, Complex.normSq_pos.mpr hne⟩
  rw [Mp.sum_normSq_dft (Mp.isPrimitiveRoot_cis_sign hn hsign) (Mp.conj_cis p.sign n)]
  exact ⟨hpos, mul_pos (Nat.cast_pos.mpr hn) hpos⟩

/-- The forward and the backward L2 error are the same number, whatever the transform under test
computes from nonzero inputs, and neither comparison divides by zero. -/
theorem doAccuracy_l2 {n : ℕ} (hdims : p.dims = [n]) (hvrank : p.vrank = 0) (hn : 1 ≤ n)
    (hlt : n < 2 ^ 28) (hsign : p.sign = 1 ∨ p.sign = -1) {ds : List (ℕ → BenchComplex ℝ)}
    (hds : ds ≠ []) (a b : ℕ → BenchComplex ℝ) (st : Mp.Statics ℝ) (hst : Mp.Empty st)
    (hinput : ∀ r ∈ accuracyData p doFft n ds a b, ∃ k < n, Mp.samples r.1 k ≠ 0) :
    2 * Mp.pow2Atleast (2 * n) < 2 ^ 31 ∧
      (∀ r ∈ accuracyData p doFft n ds a b, 0 < ∑ k ∈ range n, Complex.normSq (Mp.samples r.1 k) ∧
        0 < ∑ k ∈ range n, Complex.normSq (Chirp.dft n (Mp.cis p.sign n) (Mp.samples r.1) k)) ∧
      ∃ prog forward backward st', doAccuracy Mp.exactArith p doFft ds a b = .ok prog ∧
        prog st = .ok ((forward, backward), st') ∧ forward.2.1 = backward.2.1 := by
  obtain ⟨prog, forward, backward, st', hprog, hrun, hl2, -⟩ :=
    doAccuracy_run p doFft hdims hvrank hn hsign hds a b hst
  exact ⟨Mp.two_mul_pow2Atleast_lt hn hlt, fun r hr => norms_pos p hn hsign (hinput r hr), prog,
    forward, backward, st', hprog, hrun, hl2⟩

theorem doAccuracy_l2_of3 :
    ∃ prog forward backward st', doAccuracy Mp.exactArith of3 (fun x _ => x)
        [fun _ => ⟨1, 0⟩, fun _ => ⟨0, 1⟩] (fun _ => ⟨0, 0⟩) (fun _ => ⟨0, 0⟩) = .ok prog ∧
      prog (Mp.initialStatics 0 fun _ _ => 1) = .ok ((forward, backward), st') ∧
      forward.2.1 = backward.2.1 := by
  have hdata : ∀ r ∈ accuracyData of3 (fun x _ => x) 3 [fun _ => ⟨1, 0⟩, fun _ => ⟨0, 1⟩]
      (fun _ => ⟨0, 0⟩) (fun _ => ⟨0, 0⟩), ∃ k < 3, Mp.samples r.1 k ≠ 0 :=
    List.forall_mem_cons.mpr ⟨⟨0, by decide, one_ne_zero⟩,
      List.forall_mem_singleton.mpr ⟨0, by decide, Complex.I_ne_zero⟩⟩
  exact (doAccuracy_l2 of3 (fun x _ => x) (n := 3) rfl rfl (by decide) (by decide) (Or.inr rfl)
    (List.cons_ne_nil _ _) _ _ (Mp.initialStatics 0 fun _ _ => 1) ⟨rfl, rfl, rfl⟩ hdata).2.2

end Exact

/-! ### The tests and the accuracy test -/

section Oracles

variable {p : Problem}
  {F : (Fin p.size.toNat → BenchComplex ℝ) → Fin p.size.toNat → BenchComplex ℝ}
  (hdims : p.dims = [p.size.toNat])

/-- An input of `F` as an array. -/
def padded {N : ℕ} (x : Fin N → BenchComplex ℝ) (j : ℕ) : BenchComplex ℝ :=
  if h : j < N then x ⟨j, h⟩ else ⟨0, 0⟩

theorem padded_apply {N : ℕ} (x : Fin N → BenchComplex ℝ) : (fun j : Fin N => padded x j) = x :=
  funext fun j => dif_pos j.isLt

include hdims

/-- The kernel of the transform in one dimension. -/
theorem exp_digits (j k : Fin p.size.toNat) :
    Complex.exp (p.sign * (2 * Real.pi * Complex.I) *
      ∑ d ∈ range p.rank, (digit p.dims d j * digit p.dims d k : ℂ) / p.dims.getD d 1)
      = Complex.exp (p.sign * 2 * Real.pi * Complex.I * (j : ℕ) * (k : ℕ) / p.size.toNat) := by
  have hrank : p.rank = 1 := by rw [← p.length_dims, hdims]; rfl
  have hdigit : ∀ i : Fin p.size.toNat, digit p.dims 0 i = i := by
    intro i
    rw [hdims, digit, after]
    simpa using Nat.mod_eq_of_lt i.isLt
  rw [hrank, sum_range_one, hdigit, hdigit, hdims, List.getD_cons_zero]
  congr 1
  ring

theorem isDft_iff_exact :
    IsDft p F ↔ ∀ x b : ℕ → BenchComplex ℝ, Exact p p.size.toNat (x, doFftOf F x b) := by
  constructor
  · intro h x b
    refine (exact_iff p _).mpr fun k hk => ?_
    have hvalue := h (fun j => x j) ⟨k, hk⟩
    have hout : Mp.samples (doFftOf F x b) k = toComplex (F (fun j => x j) ⟨k, hk⟩) := by
      rw [Mp.samples, doFftOf, dif_pos hk]
      rfl
    rw [hout, hvalue, sum_range]
    exact sum_congr rfl fun j _ => by rw [exp_digits hdims]; rfl
  · intro h x k
    have hvalue := (exact_iff p _).mp (h (padded x) (padded x)) k k.isLt
    have hout : Mp.samples (doFftOf F (padded x) (padded x)) k = toComplex (F x k) := by
      rw [Mp.samples, doFftOf, dif_pos k.isLt, padded_apply]
      rfl
    rw [← hout, hvalue, sum_range]
    refine sum_congr rfl fun j _ => ?_
    rw [exp_digits hdims]
    congr 1
    exact congrArg toComplex (dif_pos j.isLt)

omit hdims in
theorem exists_of_mem_accuracyData {n : ℕ} {doFft : (ℕ → BenchComplex ℝ) → (ℕ → BenchComplex ℝ) →
    ℕ → BenchComplex ℝ} {ds : List (ℕ → BenchComplex ℝ)} {a b : ℕ → BenchComplex ℝ}
    {r : (ℕ → BenchComplex ℝ) × (ℕ → BenchComplex ℝ)} (hr : r ∈ accuracyData p doFft n ds a b) :
    ∃ x y, r = (x, doFft x y) := by
  induction ds generalizing a b with
  | nil => exact absurd hr List.not_mem_nil
  | cons d ds ih =>
    rcases List.mem_cons.mp hr with rfl | hr
    · exact ⟨_, _, rfl⟩
    · exact ih hr

omit hdims in
/-- The data of one round with a complex input. -/
theorem accuracyData_single (hkind : p.kind = .complex) (d a b : ℕ → BenchComplex ℝ) :
    accuracyData p (doFftOf F) p.size.toNat [d] a b
      = [(arand a p.size.toNat d, doFftOf F (arand a p.size.toNat d) b)] := by
  have hreal : ¬p.kind = .real := by rw [hkind]; exact ProblemKind.noConfusion
  rw [accuracyData, accuracyData, mkinput, if_neg hreal]

/-- **The two oracles agree**, on transforms of one complex dimension: the tests of `do_verify` hold
exactly when the accuracy test never finds an error, apart from the zero input, on which the
accuracy test cannot tell. -/
theorem testsHold_iff_accuracy (hkind : p.kind = .complex) (hvrank : p.vrank = 0)
    (hn : 1 ≤ p.size.toNat) (hlt : p.size.toNat < 2 ^ 28) (hsign : p.sign = 1 ∨ p.sign = -1) :
    TestsHold p F ↔ (∀ k, F (fun _ => ⟨0, 0⟩) k = ⟨0, 0⟩) ∧
      ∀ ds a b fresh, ds ≠ [] → (∀ r ∈ accuracyData p (doFftOf F) p.size.toNat ds a b,
          ∃ k < p.size.toNat, Mp.samples r.1 k ≠ 0) →
        2 * Mp.pow2Atleast (2 * p.size.toNat) < 2 ^ 31 ∧ ∃ prog st',
          doAccuracy Mp.exactArith p (doFftOf F) ds a b = .ok prog ∧
          prog (Mp.initialStatics 0 fresh) = .ok (((0, 0, 0), (0, 0, 0)), st') := by
  have hpos : ∀ x ∈ p.dims, 0 < x := by
    rw [hdims]
    exact List.forall_mem_singleton.mpr hn
  have hsize : p.size.toNat = p.dims.prod := by rw [hdims, List.prod_singleton]
  have hempty : ∀ fresh, Mp.Empty (Mp.initialStatics (0 : ℝ) fresh) := fun _ => ⟨rfl, rfl, rfl⟩
  constructor
  · intro htests
    have hdft := isDft_of_testsHold hkind hpos hsize hsign htests
    refine ⟨fun k => toComplex.injective ?_, fun ds a b fresh hds hinput => ?_⟩
    · rw [hdft]
      exact sum_eq_zero fun j _ => zero_mul _
    · obtain ⟨prog, forward, backward, st', hprog, hrun, -, hmeasures⟩ :=
        doAccuracy_run p (doFftOf F) hdims hvrank hn hsign hds a b (hempty fresh)
      obtain ⟨hf, hb⟩ := hmeasures hinput
      have hexact : ∀ r ∈ accuracyData p (doFftOf F) p.size.toNat ds a b,
          Exact p p.size.toNat r := by
        intro r hr
        obtain ⟨x, y, rfl⟩ := exists_of_mem_accuracyData hr
        exact (isDft_iff_exact hdims).mp hdft x y
      obtain rfl : forward = (0, 0, 0) := Prod.ext (hf.l1.eq_zero_iff.mpr hexact)
        (Prod.ext (hf.l2.eq_zero_iff.mpr hexact) (hf.linf.eq_zero_iff.mpr hexact))
      obtain rfl : backward = (0, 0, 0) := Prod.ext (hb.l1.eq_zero_iff.mpr hexact)
        (Prod.ext (hb.l2.eq_zero_iff.mpr hexact) (hb.linf.eq_zero_iff.mpr hexact))
      exact ⟨Mp.two_mul_pow2Atleast_lt hn hlt, prog, st', hprog, hrun⟩
  · rintro ⟨hzero, haccuracy⟩
    refine testsHold_of_isDft hkind hpos hsize hsign ((isDft_iff_exact hdims).mpr fun x b => ?_)
    by_cases hx : ∃ k < p.size.toNat, Mp.samples x k ≠ 0
    · -- a run of one round, which draws `x`
      have hdata : accuracyData p (doFftOf F) p.size.toNat [x] x b = [(x, doFftOf F x b)] := by
        have harand : arand x p.size.toNat x = x := by
          funext k
          rw [arand_apply, ite_self]
        rw [accuracyData_single hkind, harand]
      obtain ⟨prog, forward, backward, st', hprog, hrun, -, hmeasures⟩ :=
        doAccuracy_run p (doFftOf F) hdims hvrank hn hsign (List.cons_ne_nil x []) x b
          (hempty fun _ _ => 0)
      rw [hdata] at hmeasures
      obtain ⟨hf, -⟩ := hmeasures (List.forall_mem_singleton.mpr hx)
      obtain ⟨-, prog', st'', hprog', hrun'⟩ :=
        haccuracy [x] x b (fun _ _ => 0) (List.cons_ne_nil x [])
        (by rw [hdata]; exact List.forall_mem_singleton.mpr hx)
      obtain rfl := Except.ok.inj (hprog.symm.trans hprog')
      obtain ⟨herrors, -⟩ := Prod.mk.inj (Except.ok.inj (hrun.symm.trans hrun'))
      obtain ⟨rfl, -⟩ := Prod.mk.inj herrors
      exact List.forall_mem_singleton.mp (hf.l1.eq_zero_iff.mp rfl)
    · have hsamples : ∀ k < p.size.toNat, Mp.samples x k = 0 := by
        intro k hk
        by_contra hne
        exact hx ⟨k, hk, hne⟩
      have hinput : (fun j : Fin p.size.toNat => x j) = fun _ => ⟨0, 0⟩ := by
        funext j
        exact toComplex.injective (hsamples j j.isLt)
      have houtput : ∀ k < p.size.toNat, Mp.samples (doFftOf F x b) k = 0 := by
        intro k hk
        rw [Mp.samples, doFftOf, dif_pos hk, hinput, hzero]
        rfl
      refine (exact_iff p _).mpr fun k hk => (houtput k hk).trans ?_
      exact (sum_eq_zero fun j hj => by rw [hsamples j (mem_range.mp hj), zero_mul]).symm

end Oracles

theorem testsHold_iff_accuracy_of3 :
    ∃ F, TestsHold of3 F ∧ ∀ a b, ∃ prog st', doAccuracy Mp.exactArith of3 (doFftOf F)
        [fun _ => ⟨1, 0⟩] a b = .ok prog ∧
      prog (Mp.initialStatics 0 fun _ _ => 1) = .ok (((0, 0, 0), (0, 0, 0)), st') := by
  let F : (Fin of3.size.toNat → BenchComplex ℝ) → Fin of3.size.toNat → BenchComplex ℝ :=
    fun x k => toComplex.symm (∑ j : Fin of3.size.toNat, toComplex (x j) *
      Complex.exp (of3.sign * (2 * Real.pi * Complex.I) * ∑ d ∈ range of3.rank,
        (digit of3.dims d j * digit of3.dims d k : ℂ) / of3.dims.getD d 1))
  have hF : IsDft of3 F := fun x k => Equiv.apply_symm_apply _ _
  have htests := testsHold_of_isDft (F := F) rfl (by decide) rfl (Or.inr rfl) hF
  have haccuracy := ((testsHold_iff_accuracy (F := F) rfl rfl rfl (by decide) (by decide)
    (Or.inr rfl)).mp htests).2
  refine ⟨F, htests, fun a b => (haccuracy _ a b _ (List.cons_ne_nil _ _) ?_).2⟩
  rw [accuracyData_single rfl]
  refine List.forall_mem_singleton.mpr ⟨0, by decide, fun h => ?_⟩
  have hone : (1 : ℂ) = 0 := h
  exact one_ne_zero hone

end BenchFFT.Verify
