import BenchFFT.Problem.Equiv.CopyUnpacked
import BenchFFT.Verify.Equiv.Hermitian
import BenchFFT.Verify.Equiv.Tests

/-!
# Real transforms pass the verifier's tests

For a problem of kind `real` the conversion layer discards part of what the tests draw: with sign
`-1` the transform sees the real part of its input, and with sign `+1` it is only known on hermitian
arrays.  In exact arithmetic every comparison of `do_verify` still holds (`realTests_hold`).

* `linear` and `impulse` use that the transform is linear over the reals, since the coefficients
  are real and both impulses are real and hermitian.
* In `TIME_SHIFT` mode the drawn array is real, and a rotation keeps it real.
* In `FREQ_SHIFT` mode it is hermitian (`mkhermitian_spec`), and a phase shift along one dimension
  keeps it hermitian (`isHermitian_modulate`).
-/

namespace BenchFFT.Verify

open RowMajor Finset

variable {p : Problem} {F : (Fin p.size.toNat → BenchComplex ℝ) → Fin p.size.toNat → BenchComplex ℝ}

/-- The row-major DFT of the problem's shape and sign. -/
noncomputable def transform (p : Problem) (x : Fin p.size.toNat → ℂ) (k : Fin p.size.toNat) : ℂ :=
  ∑ j : Fin p.size.toNat, x j * Complex.exp (p.sign * ((2 : ℕ) * Real.pi * Complex.I) *
    ∑ d ∈ range p.rank, (digit p.dims d j * digit p.dims d k : ℂ) / p.dims.getD d 1)

/-- `F` is the DFT of the real part of its input. -/
def IsRealDft (p : Problem)
    (F : (Fin p.size.toNat → BenchComplex ℝ) → Fin p.size.toNat → BenchComplex ℝ) : Prop :=
  ∀ x k, toComplex (F x k) = transform p (fun j => ((x j).re : ℂ)) k

/-- `F` is linear over the reals. -/
def IsRealLinear {N : ℕ} (F : (Fin N → BenchComplex ℝ) → Fin N → BenchComplex ℝ) : Prop :=
  ∀ (a b : ℝ) (x y : Fin N → BenchComplex ℝ) (k : Fin N),
    F (fun j => ⟨a * (x j).re + b * (y j).re, a * (x j).im + b * (y j).im⟩) k
      = ⟨a * (F x k).re + b * (F y k).re, a * (F x k).im + b * (F y k).im⟩

/-- `F` is the DFT on every hermitian array. -/
def IsHermitianDft (p : Problem)
    (F : (Fin p.size.toNat → BenchComplex ℝ) → Fin p.size.toNat → BenchComplex ℝ) : Prop :=
  ∀ x : Fin p.size.toNat → BenchComplex ℝ,
    (∀ i j : Fin p.size.toNat, (i : ℕ) = negIdx p.dims j → x i = conjOf (x j)) →
    ∀ k, toComplex (F x k) = transform p (fun j => toComplex (x j)) k

theorem transform_eq_dft (hsize : p.size.toNat = p.dims.prod) (x : ℕ → ℂ)
    (k : Fin p.size.toNat) : transform p (fun j => x j) k = Dft.dft p.dims (roots p) x k := by
  rw [transform, Dft.dft, ← hsize, sum_range]
  exact sum_congr rfl fun j _ => by rw [kernel_roots, Nat.cast_ofNat]

theorem toComplex_conjOf (z : BenchComplex ℝ) :
    toComplex (conjOf z) = starRingEnd ℂ (toComplex z) := rfl

theorem toComplex_combine (a b : ℝ) (u v : BenchComplex ℝ) :
    toComplex ⟨a * u.re + b * v.re, a * u.im + b * v.im⟩ = a * toComplex u + b * toComplex v := by
  apply Complex.ext <;> simp [toComplex]

/-! ### What the tests use of the transform -/

theorem onComplex_of_isRealLinear (hF : IsRealLinear F) (a b : ℝ) (x y : ℕ → ℂ)
    (k : Fin p.size.toNat) :
    onComplex F (fun j => a * x j + b * y j) k = a * onComplex F x k + b * onComplex F y k := by
  rw [onComplex, onComplex, onComplex, ← toComplex_combine, ← hF]
  congr 2
  funext j
  rw [Equiv.symm_apply_eq, toComplex_combine, Equiv.apply_symm_apply, Equiv.apply_symm_apply]

theorem onComplex_of_isRealDft (hsize : p.size.toNat = p.dims.prod) (hF : IsRealDft p F)
    (x : ℕ → ℂ) (k : Fin p.size.toNat) :
    onComplex F x k = Dft.dft p.dims (roots p) (fun j => ((x j).re : ℂ)) k := by
  rw [onComplex, hF, ← transform_eq_dft hsize]
  rfl

theorem onComplex_of_isHermitianDft (hsize : p.size.toNat = p.dims.prod)
    (hF : IsHermitianDft p F) {x : ℕ → ℂ}
    (hx : ∀ j < p.size.toNat, x (negIdx p.dims j) = starRingEnd ℂ (x j))
    (k : Fin p.size.toNat) : onComplex F x k = Dft.dft p.dims (roots p) x k := by
  rw [onComplex, hF _ fun i j hij => ?_, ← transform_eq_dft hsize]
  · rfl
  · apply toComplex.injective
    rw [toComplex_conjOf, Equiv.apply_symm_apply, Equiv.apply_symm_apply, hij, hx j j.isLt]

/-- The real part of a real combination. -/
theorem isRealLinear_of_isRealDft (hF : IsRealDft p F) : IsRealLinear F := by
  intro a b x y k
  apply toComplex.injective
  rw [toComplex_combine, hF, hF, hF, transform, transform, transform, mul_sum, mul_sum,
    ← sum_add_distrib]
  refine sum_congr rfl fun j _ => ?_
  push_cast
  ring

/-- Real coefficients are drawn for a problem of kind `real`. -/
theorem linear_holds_real (hkind : p.kind = .real) (hF : IsRealLinear F)
    (ds : List (LinearDraw ℝ)) (w : Work ℝ) : AllHold (linear p (doFftOf F) ds w).2 := by
  revert ds w
  refine forall_linear_iff.mpr fun d w => (linearRound_holds d w).mpr fun k => ?_
  have hreal : ∀ a : BenchComplex ℝ, coefficient p a = (a.re : ℂ) := by
    intro a
    rw [coefficient, if_neg (by rw [hkind]; decide)]
    rfl
  rw [hreal, hreal]
  exact onComplex_of_isRealLinear hF _ _ _ _ k

/-! ### Hermitian arrays -/

/-- The mirrored index of `0`. -/
theorem negIdx_eq_zero_iff (hn : ∀ x ∈ p.dims, 0 < x) {j : ℕ} (hj : j < p.dims.prod) :
    negIdx p.dims j = 0 ↔ j = 0 := by
  have hzero : ∀ n : List ℕ, negIdx n 0 = 0 := by
    intro n
    induction n with
    | nil => rfl
    | cons m n ih =>
      rw [negIdx, Nat.zero_div, Nat.zero_mod, Nat.sub_zero, Nat.mod_self, Nat.zero_mul,
        Nat.zero_mod, ih]
  constructor
  · intro h
    rw [← negIdx_negIdx hn hj, h, hzero]
  · rintro rfl
    exact hzero _

/-- **A phase shift along one dimension keeps an array hermitian.**  At coordinate `0` the phase is
`1`; at any other coordinate `c` the mirrored coordinate is `n - c`, and `ω ^ n = 1`.  For even `n`
the coordinate `n / 2` is its own mirror image. -/
theorem isHermitian_modulate (hn : ∀ x ∈ p.dims, 0 < x) {d : ℕ} (hd : d < p.dims.length) {ω : ℂ}
    (hω : ω ^ p.dims.getD d 1 = 1) (hconj : starRingEnd ℂ ω = ω⁻¹) {x : ℕ → ℂ} {j : ℕ}
    (hj : j < p.dims.prod) (hx : x (negIdx p.dims j) = starRingEnd ℂ (x j)) :
    x (negIdx p.dims j) * ω ^ digit p.dims d (negIdx p.dims j)
      = starRingEnd ℂ (x j * ω ^ digit p.dims d j) := by
  have hlt := digit_lt hn d j
  have hphase : ω ^ ((p.dims.getD d 1 - digit p.dims d j) % p.dims.getD d 1)
      * ω ^ digit p.dims d j = 1 := by
    rw [← pow_eq_pow_mod _ hω, ← pow_add, Nat.sub_add_cancel hlt.le, hω]
  rw [digit_negIdx hn d hj hd, hx, map_mul, map_pow, hconj, inv_pow]
  exact congrArg _ (eq_inv_of_mul_eq_one_left hphase)

/-! ### The tests -/

section Tests

variable (hn : ∀ x ∈ p.dims, 0 < x) (hsize : p.size.toNat = p.dims.prod)

include hn hsize

/-- `impulse` compares the images of the impulses, which are real, with the DFT's. -/
theorem impulse_holds_real (hsign : p.sign = 1 ∨ p.sign = -1) (hF : IsRealLinear F)
    (hreal : ∀ (f : ℕ → ℝ), (∀ j < p.size.toNat, f (negIdx p.dims j) = f j) → ∀ k,
      onComplex F (fun j => (f j : ℂ)) k = Dft.dft p.dims (roots p) (fun j => (f j : ℂ)) k)
    (ds ds' : List (ℕ → BenchComplex ℝ)) (w : Work ℝ) :
    AllHold (impulse p (doFftOf F) ds ds' w).2 := by
  have hadd : ∀ (x y : ℕ → ℂ) (k : Fin p.size.toNat),
      onComplex F (fun j => x j + y j) k = onComplex F x k + onComplex F y k := by
    intro x y k
    have h := onComplex_of_isRealLinear hF 1 1 x y k
    simpa only [Complex.ofReal_one, one_mul] using h
  refine allHold_append.mpr ⟨allHold_unitImpulse hadd (fun k => ?_) ds w,
    allHold_onesImpulse hadd (size_pos hn hsize) (fun k => ?_) ds' _⟩
  · have h := hreal (fun j => if j = 0 then 1 else 0) (fun j hj => ?_) k
    · simp only [apply_ite ((↑) : ℝ → ℂ), Complex.ofReal_one, Complex.ofReal_zero] at h
      rw [h, Dft.dft_single_zero hn]
    · simp only [negIdx_eq_zero_iff hn (lt_of_lt_of_eq hj hsize)]
  · have h := hreal (fun _ => 1) (fun _ _ => rfl) k
    simp only [Complex.ofReal_one] at h
    rw [h, dft_ones hn hsize hsign]

omit hn hsize in
theorem mkreal_apply (A : ℕ → BenchComplex ℝ) (n k : ℕ) :
    mkreal A n k = if k < n then ⟨(A k).re, 0⟩ else A k :=
  forRange_update_apply n (fun _ a => BenchComplex.mk a.re 0) A k

/-- The time shift of a real array is real. -/
theorem timeShift_holds_real (hkind : p.kind = .real) (hsign : p.sign = 1 ∨ p.sign = -1)
    (hF : IsRealDft p F) (ds : ℕ → List (ℕ → BenchComplex ℝ)) (w : Work ℝ) :
    AllHold (tfShift p (doFftOf F) exactTrig .timeShift ds w).2 := by
  revert ds w
  refine (forall_tfShift_iff hn hsize).mpr fun d hd x w => ?_
  refine (tfShiftRound_time_holds (x := fun j => ((x j).re : ℂ)) hsign (size_eq_before_mul hsize hd)
    _ _ (getD_pos hn d) (after_pos hn d) fun j hj => ?_).mpr fun k => ?_
  · rw [shiftInput, if_pos hkind, mkreal_apply, if_pos hj, arand_apply, if_pos hj]
    rfl
  · rw [onComplex_of_isRealDft hsize hF, onComplex_of_isRealDft hsize hF]
    exact Dft.dft_shift hn hd (roots_pow hn hsign d) (fun j => ((x j).re : ℂ)) k

/-- The array that `tf_shift` transforms in `FREQ_SHIFT` mode is hermitian. -/
theorem shiftInput_hermitian (hkind : p.kind = .real) (A d : ℕ → BenchComplex ℝ) {j : ℕ}
    (hj : j < p.size.toNat) :
    toComplex (shiftInput p .freqShift A d (negIdx p.dims j))
      = starRingEnd ℂ (toComplex (shiftInput p .freqShift A d j)) := by
  have h := (mkhermitian_spec hn (arand A p.size.toNat d) 0).1 j (lt_of_lt_of_eq hj hsize)
  rw [Nat.zero_add, Nat.zero_add] at h
  rw [shiftInput, if_pos hkind, h, toComplex_conjOf]

/-- The frequency shift of a hermitian array is hermitian. -/
theorem freqShift_holds_real (hkind : p.kind = .real) (hsign : p.sign = 1 ∨ p.sign = -1)
    (hF : IsHermitianDft p F) (ds : ℕ → List (ℕ → BenchComplex ℝ)) (w : Work ℝ) :
    AllHold (tfShift p (doFftOf F) exactTrig .freqShift ds w).2 := by
  revert ds w
  refine (forall_tfShift_iff hn hsize).mpr fun d hd A w => ?_
  obtain ⟨x, hx⟩ : ∃ x : ℕ → ℂ, ∀ j, toComplex (shiftInput p .freqShift w.inA A j) = x j :=
    ⟨_, fun _ => rfl⟩
  refine (tfShiftRound_freq_holds hsign (size_eq_before_mul hsize hd) _ _ (getD_pos hn d)
    (after_pos hn d) fun j _ => hx j).mpr fun k => ?_
  have hherm : ∀ j < p.size.toNat, x (negIdx p.dims j) = starRingEnd ℂ (x j) := by
    intro j hj
    rw [← hx, ← hx, shiftInput_hermitian hn hsize hkind _ _ hj]
  have hpow := roots_pow hn hsign d
  have hinv : (roots p d)⁻¹ ^ p.dims.getD d 1 = 1 := by rw [inv_pow, hpow, inv_one]
  have hconj : starRingEnd ℂ (roots p d)⁻¹ = ((roots p d)⁻¹)⁻¹ :=
    (Complex.inv_eq_conj (Complex.norm_eq_one_of_pow_eq_one hinv (getD_pos hn d).ne')).symm
  rw [onComplex_of_isHermitianDft hsize hF hherm]
  refine Eq.trans (onComplex_of_isHermitianDft hsize hF (fun j hj => ?_) _) ?_
  · exact isHermitian_modulate hn hd hinv hconj (lt_of_lt_of_eq hj hsize) (hherm j hj)
  · exact Dft.dft_modulate hn hd hpow x k

/-- **Verification raises no false alarm on real transforms.** -/
theorem realTests_hold (hkind : p.kind = .real) :
    (p.sign = -1 → IsRealDft p F → ∀ ds w, AllHold (doVerify p (doFftOf F) exactTrig ds w)) ∧
      (p.sign = 1 → IsRealLinear F → IsHermitianDft p F →
        ∀ ds w, AllHold (doVerify p (doFftOf F) exactTrig ds w)) := by
  have hnot : ¬p.kind = .complex := by rw [hkind]; exact nofun
  -- the tests that are skipped for the sign
  have hnil : AllHold ([] : List (Comparison ℝ)) := fun c hc => nomatch hc
  constructor
  · intro hsign hF ds w
    have hlin := isRealLinear_of_isRealDft hF
    refine allHold_append.mpr ⟨allHold_append.mpr ⟨allHold_append.mpr ⟨?_, ?_⟩, ?_⟩, ?_⟩
    · exact linear_holds_real hkind hlin _ _
    · exact impulse_holds_real hn hsize (Or.inr hsign) hlin
        (fun f _ k => onComplex_of_isRealDft hsize hF _ k) _ _ _
    · rw [if_pos (Or.inr hsign)]
      exact timeShift_holds_real hn hsize hkind (Or.inr hsign) hF _ _
    · rw [if_neg (not_or.mpr ⟨hnot, by rw [hsign]; decide⟩)]
      exact hnil
  · intro hsign hlin hF ds w
    refine allHold_append.mpr ⟨allHold_append.mpr ⟨allHold_append.mpr ⟨?_, ?_⟩, ?_⟩, ?_⟩
    · exact linear_holds_real hkind hlin _ _
    · refine impulse_holds_real hn hsize (Or.inl hsign) hlin (fun f hf k => ?_) _ _ _
      refine onComplex_of_isHermitianDft hsize hF (fun j hj => ?_) k
      rw [hf j hj, Complex.conj_ofReal]
    · rw [if_neg (not_or.mpr ⟨hnot, by rw [hsign]; decide⟩)]
      exact hnil
    · rw [if_pos (Or.inr hsign)]
      exact freqShift_holds_real hn hsize hkind (Or.inl hsign) hF _ _

end Tests

/-- Each direction passes on a transform it is meant for. -/
theorem realTests_hold_r2x3 :
    (∃ F, IsRealDft (r2x3 (-1)) F ∧
      ∀ ds w, AllHold (doVerify (r2x3 (-1)) (doFftOf F) exactTrig ds w)) ∧
    ∃ F, IsHermitianDft (r2x3 1) F ∧
      ∀ ds w, AllHold (doVerify (r2x3 1) (doFftOf F) exactTrig ds w) := by
  constructor
  · let F : (Fin (r2x3 (-1)).size.toNat → BenchComplex ℝ) → Fin (r2x3 (-1)).size.toNat →
        BenchComplex ℝ :=
      fun x k => toComplex.symm (transform (r2x3 (-1)) (fun j => ((x j).re : ℂ)) k)
    have hF : IsRealDft (r2x3 (-1)) F := fun x k => Equiv.apply_symm_apply _ _
    exact ⟨F, hF, (realTests_hold (by decide) (by decide) rfl).1 rfl hF⟩
  · let F : (Fin (r2x3 1).size.toNat → BenchComplex ℝ) → Fin (r2x3 1).size.toNat →
        BenchComplex ℝ :=
      fun x k => toComplex.symm (transform (r2x3 1) (fun j => toComplex (x j)) k)
    have hF : ∀ x k, toComplex (F x k) = transform (r2x3 1) (fun j => toComplex (x j)) k :=
      fun x k => Equiv.apply_symm_apply _ _
    have hlin : IsRealLinear F := by
      intro a b x y k
      apply toComplex.injective
      rw [toComplex_combine, hF, hF, hF, transform, transform, transform, mul_sum, mul_sum,
        ← sum_add_distrib]
      refine sum_congr rfl fun j _ => ?_
      rw [toComplex_combine]
      ring
    exact ⟨F, fun x _ k => hF x k,
      (realTests_hold (by decide) (by decide) rfl).2 rfl hlin fun x _ k => hF x k⟩

end BenchFFT.Verify
