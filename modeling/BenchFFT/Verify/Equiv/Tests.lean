import BenchFFT.Dft
import BenchFFT.Verify.Tests
import Mathlib.Analysis.SpecialFunctions.Trigonometric.Basic
import Mathlib.RingTheory.RootsOfUnity.Complex

/-!
# The verifier's tests characterise the transform

In exact arithmetic, the comparisons made by `linear`, by `impulse` on the unit impulse and by
`tf_shift` in `TIME_SHIFT` mode all hold, for every draw, exactly when the transform under test is
the row-major DFT of the problem's shape and sign; and for that transform the comparisons on
`ones(n, 1)` and in `FREQ_SHIFT` mode hold as well (`testsHold_iff_isDft`).

* `arol_apply` and `aphaseShift_apply` read off the loop nests: a rotation moves one coordinate of
  the row-major index, a phase shift multiplies by a power of one root of unity.
* Each test then becomes an equation about the transform (`linearRound_holds`,
  `impulse0Round_holds`, `tfShiftRound_time_holds`, `tfShiftRound_freq_holds`).
* `tfShiftDims` visits dimension `d` with `n_before = before n d` and `n_after = after n d`
  (`forall_tfShiftDims_iff`).
* A transform that satisfies the equations is linear and takes the impulse at `j` to the kernel of
  the DFT at `j` (`Dft.eq_kernel_of_shift`).
-/

namespace BenchFFT.Verify

open RowMajor Finset

/-! ### Array helpers -/

section Arrays

variable {R : Type*}

theorem arand_apply (A x : ℕ → BenchComplex R) (n k : ℕ) :
    arand A n x k = if k < n then x k else A k :=
  forRange_update_apply n (fun i _ => x i) A k

theorem caset_apply (A : ℕ → BenchComplex R) (x : BenchComplex R) (n k : ℕ) :
    caset A n x k = if k < n then x else A k :=
  forRange_update_apply n (fun _ _ => x) A k

/-- The index `(ib * m + i) * a + ia` with its middle coordinate increased. -/
theorem shiftIdx_index {m a ib i ia c : ℕ} (hi : i < m) (hia : ia < a) :
    shiftIdx m a c ((ib * m + i) * a + ia) = (ib * m + (i + c) % m) * a + ia := by
  have h1 : ((ib * m + i) * a + ia) / (m * a) = ib := by
    rw [Nat.mul_comm m a, ← Nat.div_div_eq_div_mul, row_div hia, row_div hi]
  have h3 : (ib * m + i + c) % m = (i + c) % m := by
    rw [Nat.add_assoc, Nat.mul_add_mod']
  rw [shiftIdx, h1, row_mod hia, row_div hia, h3, ← Nat.mul_assoc, ← Nat.add_mul]

/-- Every index of `nBefore` blocks is `(ib * n + i) * nAfter + ia`. -/
theorem exists_index {n nBefore nAfter k : ℕ} (hk : k < nBefore * (n * nAfter)) :
    ∃ ib < nBefore, ∃ i < n, ∃ ia < nAfter, k = (ib * n + i) * nAfter + ia := by
  obtain ⟨ib, hib, l, hl, rfl⟩ := exists_row hk
  obtain ⟨i, hi, ia, hia, rfl⟩ := exists_row hl
  exact ⟨ib, hib, i, hi, ia, hia, by ring⟩

/-- `arol` rotates one coordinate of the row-major index. -/
theorem arol_apply (B A : ℕ → BenchComplex R) {n nBefore nAfter k : ℕ}
    (hk : k < nBefore * (n * nAfter)) :
    arol B A n nBefore nAfter k = A (shiftIdx n nAfter 1 k) := by
  have hfill := Fills.forRange (n := nBefore) (v := fun k => A (shiftIdx n nAfter 1 k))
    (fun ib _ => Fills.comp
      (Fills.forRange (n := nAfter) fun ia hia => Fills.update
        (i := (ib * n + n - 1) * nAfter + ia) (x := A (ib * n * nAfter + ia)) ?_)
      (Fills.forRange (n := n - 1) fun i hi => Fills.forRange (n := nAfter) fun ia hia =>
        Fills.update (i := (ib * n + i) * nAfter + ia)
          (x := A ((ib * n + i + 1) * nAfter + ia)) ?_))
  · refine hfill.on B k ?_
    obtain ⟨ib, hib, i, hi, ia, hia, rfl⟩ := exists_index hk
    refine ⟨ib, hib, ?_⟩
    -- the last index comes from the start of the row
    by_cases hlast : i < n - 1
    · exact Or.inl ⟨i, hlast, ia, hia, rfl⟩
    · refine Or.inr ⟨ia, hia, ?_⟩
      rw [show i = n - 1 by omega, Nat.add_sub_assoc (by omega)]
  · have hn : 0 < n := by
      by_contra h0
      obtain ⟨-, -, i, hi, -⟩ := exists_index hk
      omega
    show _ = A (shiftIdx n nAfter 1 _)
    rw [Nat.add_sub_assoc hn, shiftIdx_index (by omega) hia, Nat.sub_add_cancel hn, Nat.mod_self,
      Nat.add_zero]
  · show _ = A (shiftIdx n nAfter 1 _)
    rw [shiftIdx_index (by omega) hia, Nat.mod_eq_of_lt (by omega), ← Nat.add_assoc]

variable [Field R]

theorem cascale_apply (A : ℕ → BenchComplex R) (alpha : BenchComplex R) (n k : ℕ) :
    cascale A n alpha k = if k < n then
      ⟨(A k).re * alpha.re - (A k).im * alpha.im, (A k).re * alpha.im + (A k).im * alpha.re⟩
      else A k :=
  forRange_update_apply n (fun _ a => BenchComplex.mk
    (a.re * alpha.re - a.im * alpha.im) (a.re * alpha.im + a.im * alpha.re)) A k

theorem caadd_apply (C A B : ℕ → BenchComplex R) (n k : ℕ) :
    caadd C A B n k = if k < n then ⟨(A k).re + (B k).re, (A k).im + (B k).im⟩ else C k :=
  forRange_update_apply n
    (fun i _ => BenchComplex.mk ((A i).re + (B i).re) ((A i).im + (B i).im)) C k

theorem asub_apply (C A B : ℕ → BenchComplex R) (n k : ℕ) :
    asub C A B n k = if k < n then ⟨(A k).re - (B k).re, (A k).im - (B k).im⟩ else C k :=
  forRange_update_apply n
    (fun i _ => BenchComplex.mk ((A i).re - (B i).re) ((A i).im - (B i).im)) C k

/-- `aphase_shift` multiplies by a phase that depends on one coordinate of the index. -/
theorem aphaseShift_apply (trig : Trig R) (B A : ℕ → BenchComplex R) {n nBefore nAfter k : ℕ}
    (sign : R) (hk : k < nBefore * (n * nAfter)) :
    aphaseShift trig B A n nBefore nAfter sign k =
      let s := sign * trig.sin ((k / nAfter % n : ℕ) * (trig.k2pi / n))
      let c := trig.cos ((k / nAfter % n : ℕ) * (trig.k2pi / n))
      ⟨(A k).re * c - (A k).im * s, (A k).re * s + (A k).im * c⟩ := by
  have hfill := Fills.forRange (n := nBefore) (v := fun k =>
      let s := sign * trig.sin ((k / nAfter % n : ℕ) * (trig.k2pi / n))
      let c := trig.cos ((k / nAfter % n : ℕ) * (trig.k2pi / n))
      (⟨(A k).re * c - (A k).im * s, (A k).re * s + (A k).im * c⟩ : BenchComplex R))
    (fun jb _ => Fills.forRange (n := n) fun j hj => Fills.forRange (n := nAfter) fun ja hja =>
      Fills.update (i := (jb * n + j) * nAfter + ja)
        (x := let s := sign * trig.sin (j * (trig.k2pi / n))
              let c := trig.cos (j * (trig.k2pi / n))
              let index := (jb * n + j) * nAfter + ja
              (⟨(A index).re * c - (A index).im * s, (A index).re * s + (A index).im * c⟩ :
                BenchComplex R)) ?_)
  · refine hfill.on B k ?_
    obtain ⟨jb, hjb, j, hj, ja, hja, rfl⟩ := exists_index hk
    exact ⟨jb, hjb, j, hj, ja, hja, rfl⟩
  · have hdigit : ((jb * n + j) * nAfter + ja) / nAfter % n = j := by
      rw [row_div hja, row_mod hj]
    simp only [hdigit]

end Arrays

/-! ### Every comparison of a test -/

section Rounds

variable {R : Type*} [Field R] {p : Problem}
  {doFft : (ℕ → BenchComplex R) → (ℕ → BenchComplex R) → ℕ → BenchComplex R} {trig : Trig R}

/-- All of the compared pairs are equal. -/
def AllHold (cs : List (Comparison R)) : Prop := ∀ c ∈ cs, c.Holds

omit [Field R] in
theorem allHold_cons {c : Comparison R} {cs : List (Comparison R)} :
    AllHold (c :: cs) ↔ c.Holds ∧ AllHold cs :=
  List.forall_mem_cons

omit [Field R] in
theorem allHold_append {cs cs' : List (Comparison R)} :
    AllHold (cs ++ cs') ↔ AllHold cs ∧ AllHold cs' :=
  List.forall_mem_append

theorem forall_linear_iff :
    (∀ ds w, AllHold (linear p doFft ds w).2) ↔ ∀ d w, (linearRound p doFft d w).2.Holds := by
  constructor
  · intro h d w
    exact (allHold_cons.mp (h [d] w)).1
  · intro h ds
    induction ds with
    | nil => exact fun w c hc => nomatch hc
    | cons d ds ih => exact fun w => allHold_cons.mpr ⟨h d w, ih _⟩

theorem allHold_impulse0Rounds {inA outA : ℕ → BenchComplex R}
    (h : ∀ d w, w.inA = inA → w.outA = outA → (impulse0Round p doFft d w).2.Holds)
    (ds : List (ℕ → BenchComplex R)) :
    ∀ w : Work R, w.inA = inA → w.outA = outA → AllHold (impulse0Rounds p doFft ds w).2 := by
  induction ds with
  | nil => exact fun w _ _ c hc => nomatch hc
  | cons d ds ih => exact fun w h1 h2 => allHold_cons.mpr ⟨h d w h1 h2, ih _ h1 h2⟩

theorem forall_tfShiftRounds_iff {ws : WhichShift} {nCur nBefore nAfter : ℕ} :
    (∀ ds w, AllHold (tfShiftRounds p doFft trig ws nCur nBefore nAfter ds w).2) ↔
      ∀ d w, (tfShiftRound p doFft trig ws nCur nBefore nAfter d w).2.Holds := by
  constructor
  · intro h d w
    exact (allHold_cons.mp (h [d] w)).1
  · intro h ds
    induction ds with
    | nil => exact fun w c hc => nomatch hc
    | cons d ds ih => exact fun w => allHold_cons.mpr ⟨h d w, ih _⟩

theorem tfShiftDims_cons (ws : WhichShift) (nCur : ℕ) (n : List ℕ)
    (ds : ℕ → List (ℕ → BenchComplex R)) (nBefore nAfter : ℕ) (w : Work R) :
    (tfShiftDims p doFft trig ws (nCur :: n) ds nBefore nAfter w).2 =
      let s := tfShiftRounds p doFft trig ws nCur nBefore (nAfter / nCur) (ds 0) w
      s.2 ++ (tfShiftDims p doFft trig ws n (fun dim => ds (dim + 1)) (nBefore * nCur)
        (nAfter / nCur) s.1).2 := rfl

/-- The loop over the dimensions runs the rounds of dimension `d` with `n_before` the product of
the earlier dimensions and `n_after` the product of the later ones. -/
theorem forall_tfShiftDims_iff (ws : WhichShift) {n : List ℕ} (hn : ∀ x ∈ n, 0 < x)
    (nBefore : ℕ) :
    (∀ ds w, AllHold (tfShiftDims p doFft trig ws n ds nBefore n.prod w).2) ↔
      ∀ d < n.length, ∀ x w, (tfShiftRound p doFft trig ws (n.getD d 1) (nBefore * before n d)
        (after n d) x w).2.Holds := by
  induction n generalizing nBefore with
  | nil => exact ⟨fun _ d hd => absurd hd (Nat.not_lt_zero d), fun _ _ _ _ hc => nomatch hc⟩
  | cons m n ih =>
    have hm : 0 < m := hn m List.mem_cons_self
    replace ih := ih (fun x hx => hn x (List.mem_cons_of_mem m hx)) (nBefore * m)
    have hafter : (m :: n).prod / m = n.prod := by
      rw [List.prod_cons, Nat.mul_div_cancel_left _ hm]
    have hbefore : ∀ d, nBefore * before (m :: n) (d + 1) = nBefore * m * before n d := by
      intro d
      rw [before, before, List.take_succ_cons, List.prod_cons, Nat.mul_assoc]
    constructor
    · intro h d hd x w
      rcases d with _ | d
      · have h0 := h (fun _ => [x]) w
        rw [tfShiftDims_cons, hafter] at h0
        have h1 := (allHold_cons.mp (allHold_append.mp h0).1).1
        rwa [before, List.take_zero, List.prod_nil, Nat.mul_one]
      · rw [hbefore]
        refine ih.mp (fun ds w => ?_) d (Nat.lt_of_succ_lt_succ hd) x w
        have h0 := h (fun dim => if dim = 0 then [] else ds (dim - 1)) w
        rw [tfShiftDims_cons, hafter] at h0
        exact (allHold_append.mp h0).2
    · intro h ds w
      rw [tfShiftDims_cons, hafter]
      refine allHold_append.mpr ⟨forall_tfShiftRounds_iff.mpr ?_ _ _, ih.mpr ?_ _ _⟩
      · intro x w
        have h0 := h 0 (Nat.succ_pos _) x w
        rwa [before, List.take_zero, List.prod_nil, Nat.mul_one] at h0
      · intro d hd x w
        have h0 := h (d + 1) (Nat.succ_lt_succ hd) x w
        rwa [hbefore] at h0

theorem forall_tfShift_iff {ws : WhichShift} (hn : ∀ x ∈ p.dims, 0 < x)
    (hsize : p.size.toNat = p.dims.prod) :
    (∀ ds w, AllHold (tfShift p doFft trig ws ds w).2) ↔
      ∀ d < p.dims.length, ∀ x w, (tfShiftRound p doFft trig ws (p.dims.getD d 1) (before p.dims d)
        (after p.dims d) x w).2.Holds := by
  have h := @forall_tfShiftDims_iff _ _ p doFft trig ws p.dims hn 1
  simp only [Nat.one_mul, ← hsize] at h
  exact h

end Rounds

/-! ### The tests as equations between complex numbers -/

/-- `bench_complex` over the reals is `ℂ`. -/
def toComplex : BenchComplex ℝ ≃ ℂ where
  toFun a := ⟨a.re, a.im⟩
  invFun z := ⟨z.re, z.im⟩
  left_inv _ := rfl
  right_inv _ := rfl

/-- Exact `SIN`, `COS` and `K2PI = 2π`. -/
noncomputable def exactTrig : Trig ℝ where
  sin := Real.sin
  cos := Real.cos
  k2pi := 2 * Real.pi

/-- The root of unity `exp(sign · 2πi / m)`. -/
noncomputable def root (sign : ℤ) (m : ℕ) : ℂ := Complex.exp (sign * (2 * Real.pi * Complex.I / m))

theorem root_neg (sign : ℤ) (m : ℕ) : root (-sign) m = (root sign m)⁻¹ := by
  rw [root, root, ← Complex.exp_neg]
  push_cast
  ring_nf

theorem isPrimitiveRoot_root {sign : ℤ} (hsign : sign = 1 ∨ sign = -1) {m : ℕ} (hm : 0 < m) :
    IsPrimitiveRoot (root sign m) m := by
  have hone : IsPrimitiveRoot (root 1 m) m := by
    rw [root, Int.cast_one, one_mul]
    exact Complex.isPrimitiveRoot_exp m hm.ne'
  rcases hsign with rfl | rfl
  · exact hone
  · rw [root_neg]
    exact hone.inv

theorem root_mul_pow (sign : ℤ) {c a : ℕ} (hc : 0 < c) : root sign (c * a) ^ c = root sign a := by
  have hc' : (c : ℂ) ≠ 0 := Nat.cast_ne_zero.mpr hc.ne'
  unfold root
  rw [← Complex.exp_nat_mul]
  congr 1
  push_cast
  field_simp

theorem root_pow_self (sign : ℤ) {n : ℕ} (hn : 0 < n) : root sign n ^ n = 1 := by
  have hn' : (n : ℂ) ≠ 0 := Nat.cast_ne_zero.mpr hn.ne'
  unfold root
  rw [← Complex.exp_nat_mul]
  refine Complex.exp_eq_one_iff.mpr ⟨sign, ?_⟩
  field_simp

/-- The phase that `aphase_shift` multiplies by. -/
theorem toComplex_phase {sign : ℤ} (hsign : sign = 1 ∨ sign = -1) (a : BenchComplex ℝ) (j m : ℕ) :
    toComplex ⟨a.re * Real.cos (j * (2 * Real.pi / m))
        - a.im * (sign * Real.sin (j * (2 * Real.pi / m))),
      a.re * (sign * Real.sin (j * (2 * Real.pi / m)))
        + a.im * Real.cos (j * (2 * Real.pi / m))⟩
      = toComplex a * root sign m ^ j := by
  have hexp : root sign m ^ j
      = (Real.cos (j * (2 * Real.pi / m)) : ℂ)
        + (sign * Real.sin (j * (2 * Real.pi / m)) : ℝ) * Complex.I := by
    have harg : (j : ℂ) * (sign * (2 * Real.pi * Complex.I / m))
        = ((sign * (j * (2 * Real.pi / m)) : ℝ) : ℂ) * Complex.I := by
      push_cast
      ring
    rw [root, ← Complex.exp_nat_mul, harg, Complex.exp_mul_I, ← Complex.ofReal_cos,
      ← Complex.ofReal_sin]
    rcases hsign with rfl | rfl
    · simp
    · simp [Real.cos_neg, Real.sin_neg]
  rw [hexp]
  generalize Real.cos (j * (2 * Real.pi / m)) = c, sign * Real.sin (j * (2 * Real.pi / m)) = s
  apply Complex.ext <;> simp [toComplex]

variable {p : Problem} (F : (Fin p.size.toNat → BenchComplex ℝ) → Fin p.size.toNat → BenchComplex ℝ)

/-- The transform under test, on complex numbers. -/
def onComplex (x : ℕ → ℂ) (k : Fin p.size.toNat) : ℂ :=
  toComplex (F (fun j => toComplex.symm (x j)) k)

variable {F}

theorem toComplex_doFftOf {inp out : ℕ → BenchComplex ℝ} {x : ℕ → ℂ}
    (h : ∀ j < p.size.toNat, toComplex (inp j) = x j) (k : Fin p.size.toNat) :
    toComplex (doFftOf F inp out k) = onComplex F x k := by
  rw [doFftOf, dif_pos k.isLt, onComplex]
  congr 3
  funext j
  rw [Equiv.eq_symm_apply, h j j.isLt]

theorem onComplex_congr {x y : ℕ → ℂ} (h : ∀ j < p.size.toNat, x j = y j) (k : Fin p.size.toNat) :
    onComplex F x k = onComplex F y k := by
  unfold onComplex
  congr 3
  funext j
  rw [h j j.isLt]

theorem holds_iff {c : Comparison ℝ} (hn : c.n = p.size.toNat) {f g : Fin p.size.toNat → ℂ}
    (hA : ∀ k : Fin p.size.toNat, toComplex (c.A k) = f k)
    (hB : ∀ k : Fin p.size.toNat, toComplex (c.B k) = g k) : c.Holds ↔ ∀ k, f k = g k := by
  constructor
  · intro h k
    rw [← hA, ← hB, h k (by rw [hn]; exact k.isLt)]
  · intro h i hi
    rw [hn] at hi
    exact toComplex.injective (by rw [hA ⟨i, hi⟩, hB ⟨i, hi⟩, h])

/-- The coefficient `linear` uses when `a` is drawn. -/
def coefficient (p : Problem) (a : BenchComplex ℝ) : ℂ :=
  toComplex ⟨a.re, if p.kind = .complex then a.im else 0⟩

theorem coefficient_complex (hkind : p.kind = .complex) (a : BenchComplex ℝ) :
    coefficient p a = toComplex a := by
  rw [coefficient, if_pos hkind]

theorem linearRound_holds (d : LinearDraw ℝ) (w : Work ℝ) :
    (linearRound p (doFftOf F) d w).2.Holds ↔
      ∀ k, onComplex F (fun j => coefficient p d.alpha * toComplex (d.A j)
          + coefficient p d.beta * toComplex (d.B j)) k
        = coefficient p d.alpha * onComplex F (fun j => toComplex (d.A j)) k
          + coefficient p d.beta * onComplex F (fun j => toComplex (d.B j)) k := by
  have hmul : ∀ a b : BenchComplex ℝ,
      toComplex ⟨a.re * b.re - a.im * b.im, a.re * b.im + a.im * b.re⟩
        = toComplex b * toComplex a := by
    intro a b
    apply Complex.ext <;> simp [toComplex] <;> ring
  have hadd : ∀ a b : BenchComplex ℝ,
      toComplex ⟨a.re + b.re, a.im + b.im⟩ = toComplex a + toComplex b := fun _ _ => rfl
  refine holds_iff rfl (fun k => ?_) (fun k => ?_)
  · refine toComplex_doFftOf (fun j hj => ?_) k
    rw [caadd_apply, if_pos hj, hadd, cascale_apply, if_pos hj, cascale_apply, if_pos hj, hmul,
      hmul, arand_apply, if_pos hj, arand_apply, if_pos hj, coefficient, coefficient]
  · show toComplex (caadd _ _ _ _ _) = _
    have harand : ∀ A x : ℕ → BenchComplex ℝ, ∀ j < p.size.toNat,
        toComplex (arand A p.size.toNat x j) = toComplex (x j) := fun A x j hj => by
      rw [arand_apply, if_pos hj]
    rw [caadd_apply, if_pos k.isLt, hadd, cascale_apply, if_pos k.isLt, cascale_apply,
      if_pos k.isLt, hmul, hmul, toComplex_doFftOf (harand _ _), toComplex_doFftOf (harand _ _),
      coefficient, coefficient]

theorem impulse0Round_holds (d : ℕ → BenchComplex ℝ) (w : Work ℝ) :
    (impulse0Round p (doFftOf F) d w).2.Holds ↔
      ∀ k : Fin p.size.toNat, onComplex F (fun j => toComplex (d j)) k
          + onComplex F (fun j => toComplex (w.inA j) - toComplex (d j)) k
        = toComplex (w.outA k) := by
  have harand : ∀ j < p.size.toNat, arand w.inB p.size.toNat d j = d j := fun j hj => by
    rw [arand_apply, if_pos hj]
  refine holds_iff rfl (fun k => ?_) (fun k => rfl)
  have hadd : ∀ a b : BenchComplex ℝ,
      toComplex ⟨a.re + b.re, a.im + b.im⟩ = toComplex a + toComplex b := fun _ _ => rfl
  show toComplex (caadd _ _ _ _ _) = _
  rw [caadd_apply, if_pos k.isLt, hadd]
  congr 1
  · exact toComplex_doFftOf (fun j hj => by rw [harand j hj]) k
  · refine toComplex_doFftOf (fun j hj => ?_) k
    rw [asub_apply, if_pos hj, harand j hj]
    rfl

/-- The array `tf_shift` transforms when `d` is drawn into `A`. -/
noncomputable def shiftInput (p : Problem) (whichShift : WhichShift) (A d : ℕ → BenchComplex ℝ) :
    ℕ → BenchComplex ℝ :=
  let inA := arand A p.size.toNat d
  match whichShift with
  | .timeShift => if p.kind = .real then mkreal inA p.size.toNat else inA
  | .freqShift => if p.kind = .real then mkhermitian inA 0 p.dims else inA

theorem shiftInput_complex (hkind : p.kind = .complex) (whichShift : WhichShift)
    (A d : ℕ → BenchComplex ℝ) {j : ℕ} (hj : j < p.size.toNat) :
    shiftInput p whichShift A d j = d j := by
  have hreal : ¬p.kind = .real := by rw [hkind]; exact nofun
  cases whichShift with
  | timeShift => rw [shiftInput, if_neg hreal, arand_apply, if_pos hj]
  | freqShift => rw [shiftInput, if_neg hreal, arand_apply, if_pos hj]

theorem tfShiftRound_time_holds (hsign : p.sign = 1 ∨ p.sign = -1)
    {nCur nBefore nAfter : ℕ} (hsize : p.size.toNat = nBefore * (nCur * nAfter))
    (d : ℕ → BenchComplex ℝ) (w : Work ℝ) (hpos : 0 < nCur) (hpos' : 0 < nAfter) {x : ℕ → ℂ}
    (hx : ∀ j < p.size.toNat, toComplex (shiftInput p .timeShift w.inA d j) = x j) :
    (tfShiftRound p (doFftOf F) exactTrig .timeShift nCur nBefore nAfter d w).2.Holds ↔
      ∀ k : Fin p.size.toNat, onComplex F (fun j => x (shiftIdx nCur nAfter 1 j)) k
          * root p.sign nCur ^ (k / nAfter % nCur) = onComplex F x k := by
  refine holds_iff rfl (fun k => ?_) (fun k => ?_)
  · have hk := lt_of_lt_of_eq k.isLt hsize
    show toComplex (aphaseShift _ _ _ _ _ _ _ _) = _
    rw [aphaseShift_apply _ _ _ _ hk]
    refine (toComplex_phase hsign _ _ _).trans (congrArg (· * _) ?_)
    refine toComplex_doFftOf (fun j hj => ?_) k
    have hj' := lt_of_lt_of_eq hj hsize
    rw [arol_apply _ _ hj']
    exact hx _ (lt_of_lt_of_eq (shiftIdx_lt hpos hpos' hj') hsize.symm)
  · exact toComplex_doFftOf hx k

theorem tfShiftRound_freq_holds (hsign : p.sign = 1 ∨ p.sign = -1)
    {nCur nBefore nAfter : ℕ} (hsize : p.size.toNat = nBefore * (nCur * nAfter))
    (d : ℕ → BenchComplex ℝ) (w : Work ℝ) (hpos : 0 < nCur) (hpos' : 0 < nAfter) {x : ℕ → ℂ}
    (hx : ∀ j < p.size.toNat, toComplex (shiftInput p .freqShift w.inA d j) = x j) :
    (tfShiftRound p (doFftOf F) exactTrig .freqShift nCur nBefore nAfter d w).2.Holds ↔
      ∀ k : Fin p.size.toNat, onComplex F
          (fun j => x j * (root p.sign nCur)⁻¹ ^ (j / nAfter % nCur))
          ⟨shiftIdx nCur nAfter 1 k,
            lt_of_lt_of_eq (shiftIdx_lt hpos hpos' (lt_of_lt_of_eq k.isLt hsize)) hsize.symm⟩
        = onComplex F x k := by
  have hsign' : -p.sign = 1 ∨ -p.sign = -1 := by omega
  refine holds_iff rfl (fun k => ?_) (fun k => ?_)
  · have hk := lt_of_lt_of_eq k.isLt hsize
    show toComplex (arol _ _ _ _ _ _) = _
    rw [arol_apply _ _ hk]
    refine toComplex_doFftOf (fun j hj => ?_) ⟨_, _⟩
    have hj' := lt_of_lt_of_eq hj hsize
    rw [aphaseShift_apply _ _ _ _ hj', ← Int.cast_neg, ← root_neg, ← hx j hj]
    exact toComplex_phase hsign' _ _ _
  · exact toComplex_doFftOf hx k

/-! ### The characterisation -/

/-- The comparisons that pin the transform down: `linear`, `impulse` on the unit impulse, and
`tf_shift` in `TIME_SHIFT` mode, for every draw and whatever the working arrays held before. -/
structure TestsHold (p : Problem)
    (F : (Fin p.size.toNat → BenchComplex ℝ) → Fin p.size.toNat → BenchComplex ℝ) : Prop where
  linear : ∀ ds w, AllHold (linear p (doFftOf F) ds w).2
  unitImpulse : ∀ ds w, AllHold (unitImpulse p (doFftOf F) ds w).2
  timeShift : ∀ ds w, AllHold (tfShift p (doFftOf F) exactTrig .timeShift ds w).2

/-- `F` is the row-major DFT of the problem's shape and sign. -/
def IsDft (p : Problem)
    (F : (Fin p.size.toNat → BenchComplex ℝ) → Fin p.size.toNat → BenchComplex ℝ) : Prop :=
  ∀ x k, toComplex (F x k) = ∑ j : Fin p.size.toNat, toComplex (x j) *
    Complex.exp (p.sign * (2 * Real.pi * Complex.I) *
      ∑ d ∈ range p.rank, (digit p.dims d j * digit p.dims d k : ℂ) / p.dims.getD d 1)

/-- The roots of unity of the problem. -/
noncomputable def roots (p : Problem) (d : ℕ) : ℂ := root p.sign (p.dims.getD d 1)

theorem kernel_roots (j k : ℕ) :
    Dft.kernel p.dims (roots p) j k = Complex.exp (p.sign * (2 * Real.pi * Complex.I) *
      ∑ d ∈ range p.rank, (digit p.dims d j * digit p.dims d k : ℂ) / p.dims.getD d 1) := by
  rw [Dft.kernel, p.length_dims, mul_sum, Complex.exp_sum]
  refine prod_congr rfl fun d _ => ?_
  rw [roots, root, ← Complex.exp_nat_mul]
  congr 1
  push_cast
  ring

theorem isDft_iff_onComplex (hsize : p.size.toNat = p.dims.prod) :
    IsDft p F ↔ ∀ x k, onComplex F x k = Dft.dft p.dims (roots p) x k := by
  have hsum : ∀ (x : ℕ → ℂ) (k : ℕ), Dft.dft p.dims (roots p) x k
      = ∑ j : Fin p.size.toNat, x j * Dft.kernel p.dims (roots p) j k := by
    intro x k
    rw [Dft.dft, ← hsize, sum_range]
  constructor
  · intro h x k
    rw [onComplex, h, hsum]
    exact sum_congr rfl fun j _ => by rw [kernel_roots, Equiv.apply_symm_apply]
  · intro h x k
    have hx := h (fun j => if hj : j < p.size.toNat then toComplex (x ⟨j, hj⟩) else 0) k
    have harg : (fun j : Fin p.size.toNat => toComplex.symm
        (if hj : (j : ℕ) < p.size.toNat then toComplex (x ⟨j, hj⟩) else 0)) = x := by
      funext j
      rw [dif_pos j.isLt, Equiv.symm_apply_apply]
    rw [onComplex, harg, hsum] at hx
    rw [hx]
    exact sum_congr rfl fun j _ => by rw [kernel_roots, dif_pos j.isLt]

/-- A transform that passes `linear` is determined by the images of the impulses. -/
theorem onComplex_eq_sum
    (hlin : ∀ (a b : ℂ) (x y : ℕ → ℂ) (k : Fin p.size.toNat),
      onComplex F (fun j => a * x j + b * y j) k = a * onComplex F x k + b * onComplex F y k)
    (x : ℕ → ℂ) (k : Fin p.size.toNat) :
    onComplex F x k
      = ∑ i ∈ range p.size.toNat, x i * onComplex F (fun j => if j = i then 1 else 0) k := by
  -- one unit vector after the other
  have hpart : ∀ m, onComplex F (fun j => if j < m then x j else 0) k
      = ∑ i ∈ range m, x i * onComplex F (fun j => if j = i then 1 else 0) k := by
    intro m
    induction m with
    | zero =>
      have h0 := hlin 0 0 x x k
      simp only [zero_mul, add_zero] at h0
      simpa using h0
    | succ m ih =>
      have hstep := hlin 1 (x m) (fun j => if j < m then x j else 0)
        (fun j => if j = m then 1 else 0) k
      rw [sum_range_succ, ← ih, ← one_mul (onComplex F (fun j => if j < m then x j else 0) k),
        ← hstep]
      refine onComplex_congr (fun j _ => ?_) k
      rcases Nat.lt_trichotomy j m with h | h | h
      · rw [if_pos (by omega), if_pos h, if_neg (by omega), mul_zero, add_zero, one_mul]
      · rw [if_pos (by omega), if_neg (by omega), if_pos h, mul_one, mul_zero, zero_add, h]
      · rw [if_neg (by omega), if_neg (by omega), if_neg (by omega), mul_zero, mul_zero, add_zero]
  rw [← hpart p.size.toNat]
  exact onComplex_congr (fun j hj => by rw [if_pos hj]) k

/-- Working arrays of zeros. -/
def blankWork : Work ℝ :=
  let zeros : ℕ → BenchComplex ℝ := fun _ => ⟨0, 0⟩
  ⟨zeros, zeros, zeros, zeros, zeros, zeros, zeros⟩

/-- The unit impulse `impulse` writes to `inA`. -/
theorem toComplex_unitImpulse (A : ℕ → BenchComplex ℝ) {j : ℕ} (hj : j < p.size.toNat) :
    toComplex (Function.update (caset A p.size.toNat ⟨0, 0⟩) 0 ⟨1, 0⟩ j)
      = if j = 0 then 1 else 0 := by
  split_ifs with h
  · rw [h, Function.update_self]
    rfl
  · rw [Function.update_of_ne h, caset_apply, if_pos hj]
    rfl

/-! An additive transform passes `impulse` when it maps the two impulses to what they are compared
with. -/

section Additive

variable (hadd : ∀ (x y : ℕ → ℂ) (k : Fin p.size.toNat),
  onComplex F (fun j => x j + y j) k = onComplex F x k + onComplex F y k)

include hadd

theorem allHold_impulse0 {w : Work ℝ} (hw : ∀ k : Fin p.size.toNat,
      onComplex F (fun j => toComplex (w.inA j)) k = toComplex (w.outA k))
    (ds : List (ℕ → BenchComplex ℝ)) : AllHold (impulse0 p (doFftOf F) ds w).2 := by
  refine allHold_cons.mpr ⟨?_, allHold_impulse0Rounds ?_ ds _ rfl rfl⟩
  · exact (holds_iff rfl (fun k => toComplex_doFftOf (fun _ _ => rfl) k) (fun k => rfl)).mpr hw
  · intro d w' hinA houtA
    refine (impulse0Round_holds d w').mpr fun k => ?_
    rw [hinA, houtA, ← hadd]
    refine Eq.trans ?_ (hw k)
    exact onComplex_congr (fun j _ => add_sub_cancel _ _) k

theorem allHold_unitImpulse
    (hone : ∀ k : Fin p.size.toNat, onComplex F (fun j => if j = 0 then 1 else 0) k = 1)
    (ds : List (ℕ → BenchComplex ℝ)) (w : Work ℝ) :
    AllHold (unitImpulse p (doFftOf F) ds w).2 := by
  refine allHold_impulse0 hadd (fun k => ?_) ds
  show _ = toComplex (caset _ _ _ _)
  rw [onComplex_congr (fun j hj => toComplex_unitImpulse _ hj), hone, caset_apply, if_pos k.isLt]
  rfl

theorem allHold_onesImpulse (hpos : 0 < p.size.toNat)
    (hones : ∀ k : Fin p.size.toNat,
      onComplex F (fun _ => 1) k = if (k : ℕ) = 0 then (p.size.toNat : ℂ) else 0)
    (ds : List (ℕ → BenchComplex ℝ)) (w : Work ℝ) :
    AllHold (onesImpulse p (doFftOf F) ds w).2 := by
  refine allHold_impulse0 hadd (fun k => ?_) ds
  have hin : ∀ j < p.size.toNat, toComplex (caset w.inA p.size.toNat ⟨1, 0⟩ j) = 1 := by
    intro j hj
    rw [caset_apply, if_pos hj]
    rfl
  have hout : toComplex (Function.update (caset w.outA p.size.toNat ⟨0, 0⟩) 0
      ⟨p.size.toNat, (caset w.outA p.size.toNat ⟨0, 0⟩ 0).im⟩ k)
        = if (k : ℕ) = 0 then (p.size.toNat : ℂ) else 0 := by
    rw [caset_apply, if_pos hpos]
    split_ifs with h
    · rw [h, Function.update_self]
      rfl
    · rw [Function.update_of_ne h, caset_apply, if_pos k.isLt]
      rfl
  exact (onComplex_congr hin k).trans ((hones k).trans hout.symm)

end Additive

section Characterisation

variable (hkind : p.kind = .complex) (hn : ∀ x ∈ p.dims, 0 < x) (hsize : p.size.toNat = p.dims.prod)
  (hsign : p.sign = 1 ∨ p.sign = -1)

include hsize

theorem size_eq_before_mul {d : ℕ} (hd : d < p.dims.length) :
    p.size.toNat = before p.dims d * (p.dims.getD d 1 * after p.dims d) := by
  rw [hsize, before_mul_after hd]

include hn

theorem size_pos : 0 < p.size.toNat := by
  rw [hsize]
  exact List.prod_pos_iff_forall_pos_nat.mpr hn

include hsign

omit hsize in
theorem roots_pow (d : ℕ) : roots p d ^ p.dims.getD d 1 = 1 :=
  (isPrimitiveRoot_root hsign (getD_pos hn d)).pow_eq_one

include hkind

/-- **A transform that passes the tests is the DFT.** -/
theorem isDft_of_testsHold (h : TestsHold p F) : IsDft p F := by
  have hlin : ∀ (a b : ℂ) (x y : ℕ → ℂ) (k : Fin p.size.toNat),
      onComplex F (fun j => a * x j + b * y j) k
        = a * onComplex F x k + b * onComplex F y k := by
    intro a b x y k
    have hround := forall_linear_iff.mp h.linear
      ⟨toComplex.symm a, toComplex.symm b, fun j => toComplex.symm (x j),
        fun j => toComplex.symm (y j)⟩ blankWork
    simpa only [coefficient_complex hkind, Equiv.apply_symm_apply] using
      (linearRound_holds _ _).mp hround k
  have himpulse : ∀ k, onComplex F (fun j => if j = 0 then 1 else 0) k = 1 := by
    intro k
    have hfirst := (allHold_cons.mp (h.unitImpulse [] blankWork)).1
    refine (holds_iff (f := fun k => onComplex F (fun j => if j = 0 then 1 else 0) k)
      (g := fun _ => 1) rfl (fun k => ?_) (fun k => ?_)).mp hfirst k
    · exact toComplex_doFftOf (fun j hj => toComplex_unitImpulse _ hj) k
    · show toComplex (caset _ _ _ _) = _
      rw [caset_apply, if_pos k.isLt]
      rfl
  have hshift : ∀ d < p.dims.length, ∀ (x : ℕ → ℂ) (k : Fin p.size.toNat),
      onComplex F (fun j => x (shiftIdx (p.dims.getD d 1) (after p.dims d) 1 j)) k
        * roots p d ^ digit p.dims d k = onComplex F x k := by
    intro d hd x k
    have hround := (forall_tfShift_iff hn hsize).mp h.timeShift d hd
      (fun j => toComplex.symm (x j)) blankWork
    refine (tfShiftRound_time_holds hsign (size_eq_before_mul hsize hd) _ _
      (getD_pos hn d) (after_pos hn d) fun j hj => ?_).mp hround k
    rw [shiftInput_complex hkind _ _ _ hj, Equiv.apply_symm_apply]
  -- rotating the impulse at `shiftIdx j` gives the impulse at `j`
  have hkernel : ∀ (k : Fin p.size.toNat), ∀ i < p.dims.prod,
      onComplex F (fun j => if j = i then 1 else 0) k = Dft.kernel p.dims (roots p) i k := by
    intro k
    refine Dft.eq_kernel_of_shift hn (fun d _ => roots_pow hn hsign d) k _ (himpulse k) ?_
    intro d hd i _
    rw [← hshift d hd]
    congr 1
    refine onComplex_congr (fun j _ => ?_) k
    simp only [(shiftIdx_injective (getD_pos hn d) (after_pos hn d) 1).eq_iff]
  refine (isDft_iff_onComplex hsize).mpr fun x k => ?_
  rw [onComplex_eq_sum hlin, Dft.dft, ← hsize]
  exact sum_congr rfl fun i hi => by rw [hkernel k i (lt_of_lt_of_eq (mem_range.mp hi) hsize)]

omit hkind hn hsign in
theorem onComplex_add (hF : IsDft p F) (x y : ℕ → ℂ) (k : Fin p.size.toNat) :
    onComplex F (fun j => x j + y j) k = onComplex F x k + onComplex F y k := by
  have hdft := (isDft_iff_onComplex hsize).mp hF
  rw [hdft, hdft, hdft, Dft.dft_add]

/-- **The DFT passes the tests.** -/
theorem testsHold_of_isDft (hF : IsDft p F) : TestsHold p F := by
  have hdft := (isDft_iff_onComplex hsize).mp hF
  refine ⟨forall_linear_iff.mpr fun d w => ?_, fun ds w => ?_,
    (forall_tfShift_iff hn hsize).mpr fun d hd x w => ?_⟩
  · refine (linearRound_holds d w).mpr fun k => ?_
    rw [hdft, hdft, hdft, Dft.dft_add, Dft.dft_const_mul, Dft.dft_const_mul]
  · refine allHold_unitImpulse (onComplex_add hsize hF) (fun k => ?_) ds w
    rw [hdft, Dft.dft_single_zero hn]
  · refine (tfShiftRound_time_holds hsign (size_eq_before_mul hsize hd) _ _ (getD_pos hn d)
      (after_pos hn d) fun j hj => by rw [shiftInput_complex hkind _ _ _ hj]).mpr fun k => ?_
    rw [hdft, hdft]
    exact Dft.dft_shift hn hd (roots_pow hn hsign d) (fun j => toComplex (x j)) k

omit hkind in
/-- The transform of the constant `1`, as `impulse` expects it. -/
theorem dft_ones (k : Fin p.size.toNat) :
    Dft.dft p.dims (roots p) (fun _ => 1) k = if (k : ℕ) = 0 then (p.size.toNat : ℂ) else 0 := by
  have hprim : ∀ d < p.dims.length, ∀ j, 0 < j → j < p.dims.getD d 1 → roots p d ^ j ≠ 1 :=
    fun d _ j h0 hlt =>
      (isPrimitiveRoot_root hsign (getD_pos hn d)).pow_ne_one_of_pos_of_lt h0.ne' hlt
  rw [Dft.dft_one hn (fun d _ => roots_pow hn hsign d) hprim (lt_of_lt_of_eq k.isLt hsize), ← hsize]

omit hkind in
/-- The DFT passes `impulse` on `ones(n, 1)`. -/
theorem onesImpulse_holds (hF : IsDft p F) (ds : List (ℕ → BenchComplex ℝ)) (w : Work ℝ) :
    AllHold (onesImpulse p (doFftOf F) ds w).2 := by
  refine allHold_onesImpulse (onComplex_add hsize hF) (size_pos hn hsize) (fun k => ?_) ds w
  rw [(isDft_iff_onComplex hsize).mp hF, dft_ones hn hsize hsign]

/-- The DFT passes `tf_shift` in `FREQ_SHIFT` mode. -/
theorem freqShift_holds (hF : IsDft p F) (ds : ℕ → List (ℕ → BenchComplex ℝ)) (w : Work ℝ) :
    AllHold (tfShift p (doFftOf F) exactTrig .freqShift ds w).2 := by
  have hdft := (isDft_iff_onComplex hsize).mp hF
  revert ds w
  refine (forall_tfShift_iff hn hsize).mpr fun d hd x w => ?_
  refine (tfShiftRound_freq_holds hsign (size_eq_before_mul hsize hd) _ _ (getD_pos hn d)
    (after_pos hn d) fun j hj => by rw [shiftInput_complex hkind _ _ _ hj]).mpr fun k => ?_
  rw [hdft, hdft]
  exact Dft.dft_modulate hn hd (roots_pow hn hsign d) (fun j => toComplex (x j)) k

/-- **The verifier's tests characterise the transform**: the comparisons of `TestsHold` all hold
if and only if the transform under test is the row-major DFT, and the DFT passes the remaining
comparisons too. -/
theorem testsHold_iff_isDft : (TestsHold p F ↔ IsDft p F) ∧
    (IsDft p F → (∀ ds w, AllHold (onesImpulse p (doFftOf F) ds w).2) ∧
      ∀ ds w, AllHold (tfShift p (doFftOf F) exactTrig .freqShift ds w).2) :=
  ⟨⟨isDft_of_testsHold hkind hn hsize hsign, testsHold_of_isDft hkind hn hsize hsign⟩,
    fun hF => ⟨onesImpulse_holds hn hsize hsign hF, freqShift_holds hkind hn hsize hsign hF⟩⟩

end Characterisation

/-- The problem `of2x3`. -/
def of2x3 : Problem where
  kind := .complex
  n := [2, 3]
  size := 6
  vn := []
  vsize := 1
  sign := -1
  inPlace := false
  split := false
  pstring := "of2x3".toList

theorem testsHold_of2x3 : ∃ F, IsDft of2x3 F ∧ TestsHold of2x3 F ∧
    ∀ ds w, AllHold (tfShift of2x3 (doFftOf F) exactTrig .freqShift ds w).2 := by
  let F : (Fin of2x3.size.toNat → BenchComplex ℝ) → Fin of2x3.size.toNat → BenchComplex ℝ :=
    fun x k => toComplex.symm (∑ j : Fin of2x3.size.toNat, toComplex (x j) *
      Complex.exp (of2x3.sign * (2 * Real.pi * Complex.I) * ∑ d ∈ range of2x3.rank,
        (digit of2x3.dims d j * digit of2x3.dims d k : ℂ) / of2x3.dims.getD d 1))
  have hF : IsDft of2x3 F := fun x k => Equiv.apply_symm_apply _ _
  have h := testsHold_iff_isDft (F := F) rfl (by decide) rfl (Or.inr rfl)
  exact ⟨F, hF, h.1.mpr hF, (h.2 hF).2⟩

end BenchFFT.Verify
