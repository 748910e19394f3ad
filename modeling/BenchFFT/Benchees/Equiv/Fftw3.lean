import BenchFFT.Benchees.Equiv.Fftw
import BenchFFT.Verify.Equiv.Harness

/-!
# The benchee `fftw3` transforms its input

Where FFTW does what it documents, `do_fft` leaves in its output array the transform of its input
array, whatever the blocks held before (`doFft_fftw3`), since the formats that `doit.c` chooses are
those of the plans, and `copy_h2c_unpacked` finds the other half of a hermitian array by symmetry.
So `verify` on a problem whose sizes do not wrap around makes comparisons that hold
(`verify_fftw3`).
-/

namespace BenchFFT

open RowMajor Verify

namespace Fftw3

variable {fftw : Fftw ℝ} {c2r : List ℕ → (ℕ → ℂ) → ℕ → ℝ} {p : Problem}

/-- An array of `N` numbers, and zeros after it. -/
noncomputable def array {N : ℕ} (x : Fin N → ℂ) : ℕ → ℂ := Function.extend Fin.val x 0

theorem array_apply {N : ℕ} (x : Fin N → ℂ) (j : Fin N) : array x j = x j :=
  Fin.val_injective.extend_apply x 0 j

/-- What the benchee makes of an array. -/
noncomputable def result (c2r : List ℕ → (ℕ → ℂ) → ℕ → ℝ) (p : Problem)
    (x : Fin p.size.toNat → BenchComplex ℝ) (k : Fin p.size.toNat) : BenchComplex ℝ :=
  match p.kind with
  | .complex => toComplex.symm (Fftw.dft p.sign p.dims (array fun j => toComplex (x j)) k)
  | .real =>
    if p.sign = -1 then
      toComplex.symm (Fftw.dft (-1) p.dims (array fun j => ((x j).re : ℂ)) k)
    else ⟨c2r p.dims (Fftw.half p.dims (array fun j => toComplex (x j))) k, 0⟩

/-- Half of a real combination. -/
theorem half_array_combine (n : List ℕ) {N : ℕ} (a b : ℝ) (x y : Fin N → BenchComplex ℝ) (i : ℕ) :
    Fftw.half n (array fun j =>
      toComplex ⟨a * (x j).re + b * (y j).re, a * (x j).im + b * (y j).im⟩) i
      = a * Fftw.half n (array fun j => toComplex (x j)) i
        + b * Fftw.half n (array fun j => toComplex (y j)) i := by
  have harray : ∀ i, array (fun j => toComplex ⟨a * (x j).re + b * (y j).re,
      a * (x j).im + b * (y j).im⟩) i
        = a * array (fun j => toComplex (x j)) i + b * array (fun j => toComplex (y j)) i := by
    intro i
    by_cases hi : i < N
    · rw [array_apply _ ⟨i, hi⟩, array_apply _ ⟨i, hi⟩, array_apply _ ⟨i, hi⟩, toComplex_combine]
    · have hnot : ¬∃ j : Fin N, (j : ℕ) = i := by
        rintro ⟨j, rfl⟩
        exact hi j.isLt
      simp only [array, Function.extend_apply' _ _ _ hnot, Pi.zero_apply, mul_zero, add_zero]
  exact harray _

section DoFft

variable (hp : IntDims p) (hrank : 1 ≤ p.rank) (hsize : p.size.toNat = p.dims.prod)
  (hfftw : fftw.Documented c2r)

include hrank hp in
theorem dims : Fftw.Dims p.dims := by
  refine ⟨fun h => ?_, hp.pos⟩
  rw [← p.length_dims, h] at hrank
  exact absurd hrank (by decide)

include hsize in
/-- A transform looks only at the entries of its array. -/
theorem dft_array (sign : ℤ) {x : Fin p.size.toNat → ℂ} {X : ℕ → ℂ}
    (h : ∀ j : Fin p.size.toNat, X j = x j) (k : ℕ) :
    Fftw.dft sign p.dims X k = Fftw.dft sign p.dims (array x) k :=
  Dft.dft_congr (fun j hj => by rw [h ⟨j, hsize ▸ hj⟩, array_apply x ⟨j, hsize ▸ hj⟩]) k

/-! ### Complex arrays -/

section Complex

variable (hkind : p.kind = .complex) (inp out : ℕ → BenchComplex ℝ)

include hkind

include hsize

theorem from_complex (io : IoBuffers ℝ) (hio : HasRoom p io) :
    ∃ io', (benchee fftw).problemCcopyFrom p inp io = .ok io' ∧ HasRoom p io' ∧
      ∀ j < p.dims.prod, io'.inp.complexes.cell j = inp j := by
  obtain ⟨io', hrun, hio', hcell⟩ := hio.copyC2cFrom_ok hkind hsize inp
  refine ⟨io', ?_, hio', hcell⟩
  rw [Benchee.problemCcopyFrom_complex hkind]
  exact bind_ok hrun _

theorem to_complex (io : IoBuffers ℝ) (hio : HasRoom p io)
    (hcell : ∀ k < p.dims.prod, toComplex (io.pout.complexes.cell k)
      = Fftw.dft p.sign p.dims (fun j => toComplex (inp j)) k) :
    (benchee fftw).problemCcopyTo p io out = .ok (doFftOf (result c2r p) inp out) := by
  obtain ⟨Y, hcopy, hY, hrest⟩ := copyC2cTo_ok p (hsize ▸ (hio.complexes hkind).2) out
  have hresult : Y = doFftOf (result c2r p) inp out := by
    refine eq_doFftOf (fun k => ?_) hrest
    rw [result, hkind, hY k k.isLt, ← toComplex.symm_apply_apply (io.pout.complexes.cell k),
      hcell k (hsize ▸ k.isLt), dft_array hsize p.sign (fun _ => rfl)]
  rw [Benchee.problemCcopyTo_complex hkind, ← hresult]
  exact bind_ok hcopy _

include hp hrank hfftw

theorem doFft_complex :
    Yields (HasRoom p) (doFft (benchee fftw) p inp out) (doFftOf (result c2r p) inp out) := by
  refine doFft_yields _ _ (from_complex hsize hkind inp) (fun io hio hcell => ?_)
    (to_complex hsize hkind inp out)
  have hplan : thePlan p = .dft p.dims p.sign := by rw [thePlan, hkind]
  refine ⟨fftw.execute (thePlan p) io, rfl, hio.of_sameBlocks (hfftw.sameBlocks _ _),
    fun k hk => ?_⟩
  rw [hplan, hfftw.dft_out p.dims p.sign io (dims hp hrank) (hio.complexes hkind).1
    (hio.complexes hkind).2 k hk]
  exact Dft.dft_congr (fun j hj => congrArg toComplex (hcell j hj)) k

end Complex

/-! ### Real and hermitian arrays -/

/-- With the sign of FFTW, half of a hermitian array is stored as it is. -/
theorem packedAt_neg_one (X : ℕ → BenchComplex ℝ) (n r k : ℕ) :
    packedAt X (-1) n r k = X (r * n + k) := by
  rw [packedAt, neg_neg, one_mul]

section Real

variable (hkind : p.kind = .real) (inp out : ℕ → BenchComplex ℝ)

include hp hrank hsize

theorem keepsIndices : KeepsIndices u32 p :=
  keepsIndices_u32 hp hrank (hsize ▸ p.size.toNat_lt)

include hkind

/-- `copy_c2r` stores entry `j` where a plan looks for it. -/
theorem copyC2r_ok {io : IoBuffers ℝ} (hio : HasRoom p io) :
    ∃ io', copyC2r p inp io = .ok io' ∧ HasRoom p io' ∧
      ∀ j < p.dims.prod, io'.inp.cell (Fftw.realIndex io'.inPlace p.dims j) = (inp j).re := by
  obtain ⟨b, hb, hbsize, hcell⟩ : ∃ b, (if p.inPlace then copyC2rUnpacked u32 p io.inp inp
      else copyC2rPacked p io.inp inp) = .ok b ∧ b.size = io.inp.size ∧
      ∀ j < p.dims.prod, b.cell (Fftw.realIndex p.inPlace p.dims j) = (inp j).re := by
    unfold Fftw.realIndex
    split_ifs
    · exact copyC2rUnpacked_ok hrank hkind hp.pos (keepsIndices hp hrank hsize)
        (hio.rows hkind hrank).1 inp
    · rw [← hsize]
      exact copyC2rPacked_ok p (hsize ▸ (hio.packed hkind).1) inp
  refine ⟨{ io with inp := b }, IoBuffers.onIn_ok hb,
    hio.of_sameBlocks (IoBuffers.sameBlocks_onIn hbsize), fun j hj => ?_⟩
  rw [← hcell j hj, ← hio.inPlace]
  rfl

/-- `copy_r2c` finds entry `j` where a plan leaves it. -/
theorem copyR2c_ok {io : IoBuffers ℝ} (hio : HasRoom p io) :
    ∃ Y, copyR2c p io out = .ok Y ∧
      (∀ j < p.dims.prod, Y j = ⟨io.pout.cell (Fftw.realIndex io.inPlace p.dims j), 0⟩) ∧
      ∀ j, p.dims.prod ≤ j → Y j = out j := by
  unfold copyR2c Fftw.realIndex
  rw [hio.inPlace]
  split_ifs
  · exact copyR2cUnpacked_ok hrank hkind hp.pos (keepsIndices hp hrank hsize)
      (hio.rows hkind hrank).2 out
  · rw [← hsize]
    exact copyR2cPacked_ok p (hsize ▸ (hio.packed hkind).2) out

section Forward

variable (hsign : p.sign = -1)

include hsign

theorem from_forward (io : IoBuffers ℝ) (hio : HasRoom p io) :
    ∃ io', (benchee fftw).problemCcopyFrom p inp io = .ok io' ∧ HasRoom p io' ∧
      ∀ j < p.dims.prod, io'.inp.cell (Fftw.realIndex io'.inPlace p.dims j) = (inp j).re := by
  obtain ⟨io', hrun, hio', hcell⟩ := copyC2r_ok hp hrank hsize hkind inp hio
  refine ⟨io', ?_, hio', hcell⟩
  rw [Benchee.problemCcopyFrom_forward hkind hsign]
  exact bind_ok hrun _

/-- The transform of a real array is hermitian, so that half of it is enough. -/
theorem to_forward (io : IoBuffers ℝ) (hio : HasRoom p io)
    (hcell : ∀ i < unpackedCells p, toComplex (io.pout.complexes.cell i)
      = Fftw.half p.dims (Fftw.dft (-1) p.dims fun j => ((inp j).re : ℂ)) i) :
    (benchee fftw).problemCcopyTo p io out = .ok (doFftOf (result c2r p) inp out) := by
  obtain ⟨X, hX⟩ : ∃ X : ℕ → ℂ, X = Fftw.dft (-1) p.dims fun j => ((inp j).re : ℂ) := ⟨_, rfl⟩
  rw [← hX] at hcell
  have hherm : Hermitian p.dims fun k => toComplex.symm (X k) := by
    intro k hk
    apply toComplex.injective
    rw [hX, toComplex.apply_symm_apply,
      Fftw.dft_ofReal_negIdx (dims hp hrank) (Or.inr rfl) (fun j => (inp j).re) hk]
    rfl
  have hpacked : ∀ r < p.dims.dropLast.prod, ∀ k < 1 + lastDim p / 2,
      io.pout.complexes.cell (r * (1 + lastDim p / 2) + k)
        = packedAt (fun k => toComplex.symm (X k)) (-1) (lastDim p) r k := by
    intro r hr k hk
    apply toComplex.injective
    rw [hcell _ (row_lt (Nat.mul_le_mul_right _ hr) hk), packedAt_neg_one,
      toComplex.apply_symm_apply]
    exact Fftw.half_row hk X
  obtain ⟨Y, hcopy, hY⟩ := copyH2cUnpacked_of_packed hrank hkind hp.pos
    (keepsIndices hp hrank hsize) (neg_mul_neg 1 1 |>.trans (one_mul 1)) hherm out
    (hio.unpacked hkind hrank).2 hpacked
  have hrest : ∀ j, p.size.toNat ≤ j → Y j = out j := fun j hj =>
    copyH2cUnpacked_rest hrank hkind hp.pos (keepsIndices hp hrank hsize)
      (hio.unpacked hkind hrank).2 hcopy (hsize ▸ hj)
  have hresult : Y = doFftOf (result c2r p) inp out := by
    refine eq_doFftOf (fun k => ?_) hrest
    rw [result, hkind, hY k (hsize ▸ k.isLt), hX, dft_array hsize (-1) (fun _ => rfl)]
    exact (if_pos hsign).symm
  rw [Benchee.problemCcopyTo_forward hkind hsign, ← hresult]
  exact bind_ok hcopy _

include hfftw

theorem doFft_forward :
    Yields (HasRoom p) (doFft (benchee fftw) p inp out) (doFftOf (result c2r p) inp out) := by
  refine doFft_yields _ _ (from_forward hp hrank hsize hkind inp hsign) (fun io hio hcell => ?_)
    (to_forward hp hrank hsize hkind inp out hsign)
  have hplan : thePlan p = .dftR2c p.dims := by rw [thePlan, hkind]; exact if_pos hsign
  have hroom : Fftw.realSize io.inPlace p.dims ≤ io.inp.size := by
    unfold Fftw.realSize
    split_ifs
    · exact (hio.rows hkind hrank).1
    · exact (hio.packed hkind).1
  refine ⟨fftw.execute (thePlan p) io, rfl, hio.of_sameBlocks (hfftw.sameBlocks _ _),
    fun i hi => ?_⟩
  have hreal : ∀ k, Fftw.dft (-1) p.dims
      (fun j => (io.inp.cell (Fftw.realIndex io.inPlace p.dims j) : ℂ)) k
        = Fftw.dft (-1) p.dims (fun j => ((inp j).re : ℂ)) k :=
    Dft.dft_congr fun j hj => congrArg _ (hcell j hj)
  rw [hplan, hfftw.r2c_out p.dims io (dims hp hrank) hroom (hio.unpacked hkind hrank).2 i hi,
    Fftw.half, hreal]
  rfl

end Forward

section Backward

variable (hsign : p.sign ≠ -1)

include hsign

theorem from_backward (io : IoBuffers ℝ) (hio : HasRoom p io) :
    ∃ io', (benchee fftw).problemCcopyFrom p inp io = .ok io' ∧ HasRoom p io' ∧
      ∀ i < unpackedCells p, toComplex (io'.inp.complexes.cell i)
        = Fftw.half p.dims (fun j => toComplex (inp j)) i := by
  obtain ⟨c, hcopy, hc, hcell⟩ := copyC2hUnpacked_eq hrank hkind hp.pos
    (keepsIndices hp hrank hsize) inp (-1) (hio.unpacked hkind hrank).1
  obtain ⟨b, hb, hbsize, hbcell⟩ :=
    Buf.onComplexes_ok (f := fun pin => copyC2hUnpacked u32 p pin inp (-1)) hcopy
  refine ⟨{ io with inp := b }, ?_, hio.of_sameBlocks (IoBuffers.sameBlocks_onIn hbsize),
    fun i hi => ?_⟩
  · rw [Benchee.problemCcopyFrom_backward hkind hsign]
    exact bind_ok (IoBuffers.onIn_ok hb) _
  · rw [hbcell i (hc ▸ lt_of_lt_of_le hi (hio.unpacked hkind hrank).1)]
    obtain ⟨r, hr, k, hk, rfl⟩ := exists_row hi
    rw [hcell r hr k hk, packedAt_neg_one]
    exact (Fftw.half_row hk fun j => toComplex (inp j)).symm

theorem to_backward (io : IoBuffers ℝ) (hio : HasRoom p io)
    (hcell : ∀ j < p.dims.prod, io.pout.cell (Fftw.realIndex io.inPlace p.dims j)
      = c2r p.dims (Fftw.half p.dims (array fun j : Fin p.size.toNat => toComplex (inp j))) j) :
    (benchee fftw).problemCcopyTo p io out = .ok (doFftOf (result c2r p) inp out) := by
  obtain ⟨Y, hcopy, hY, hrest⟩ := copyR2c_ok hp hrank hsize hkind out hio
  have hresult : Y = doFftOf (result c2r p) inp out := by
    refine eq_doFftOf (fun k => ?_) (hsize ▸ hrest)
    rw [result, hkind, hY k (hsize ▸ k.isLt), hcell k (hsize ▸ k.isLt)]
    exact (if_neg hsign).symm
  rw [Benchee.problemCcopyTo_backward hkind hsign, ← hresult]
  exact bind_ok hcopy _

omit hp hkind hsign in
/-- The stored half of an array lies inside it. -/
theorem half_array (hp : IntDims p) (x : Fin p.size.toNat → ℂ) {X : ℕ → ℂ}
    (hX : ∀ j : Fin p.size.toNat, X j = x j) {i : ℕ} (hi : i < unpackedCells p) :
    Fftw.half p.dims X i = Fftw.half p.dims (array x) i := by
  obtain ⟨r, hr, k, hk, rfl⟩ := exists_row hi
  have hlast := lastDim_pos hrank hp.pos
  have hlt : r * lastDim p + k < p.size.toNat := by
    rw [hsize, ← prod_dropLast_mul hrank]
    exact row_lt (Nat.mul_le_mul_right _ hr) (by omega)
  calc Fftw.half p.dims X (r * (1 + lastDim p / 2) + k)
      = X (r * lastDim p + k) := Fftw.half_row hk X
    _ = array x (r * lastDim p + k) := (hX ⟨_, hlt⟩).trans (array_apply x ⟨_, hlt⟩).symm
    _ = _ := (Fftw.half_row hk (array x)).symm

include hfftw

theorem doFft_backward :
    Yields (HasRoom p) (doFft (benchee fftw) p inp out) (doFftOf (result c2r p) inp out) := by
  refine doFft_yields _ _ (from_backward hp hrank hsize hkind inp hsign) (fun io hio hcell => ?_)
    (to_backward hp hrank hsize hkind inp out hsign)
  have hplan : thePlan p = .dftC2r p.dims := by rw [thePlan, hkind]; exact if_neg hsign
  have hroom : Fftw.realSize io.inPlace p.dims ≤ io.pout.size := by
    unfold Fftw.realSize
    split_ifs
    · exact (hio.rows hkind hrank).2
    · exact (hio.packed hkind).2
  have hsame := hfftw.sameBlocks (thePlan p) io
  refine ⟨fftw.execute (thePlan p) io, rfl, hio.of_sameBlocks hsame, fun j hj => ?_⟩
  have hhalf : ∀ i < Fftw.halfSize p.dims, toComplex (io.inp.complexes.cell i)
      = (1 : ℝ) * Fftw.half p.dims (array fun j : Fin p.size.toNat => toComplex (inp j)) i
        + (0 : ℝ) * Fftw.half p.dims (array fun j : Fin p.size.toNat => toComplex (inp j)) i := by
    intro i hi
    rw [Complex.ofReal_one, Complex.ofReal_zero, one_mul, zero_mul, add_zero, hcell i hi]
    exact half_array hrank hsize hp _ (fun _ => rfl) hi
  rw [hsame.inPlace, hplan, hfftw.c2r_out p.dims io (dims hp hrank)
    (hio.unpacked hkind hrank).1 hroom j hj,
    hfftw.c2r_linear p.dims (dims hp hrank) 1 0 _ _ _ hhalf j hj, one_mul, zero_mul, add_zero]

end Backward

end Real

include hp hrank hsize hfftw

/-- **Every `do_fft` transforms its input**, and the blocks stay as large as they are. -/
theorem doFft_fftw3 (inp out : ℕ → BenchComplex ℝ) :
    Yields (HasRoom p) (doFft (benchee fftw) p inp out) (doFftOf (result c2r p) inp out) := by
  cases hkind : p.kind with
  | complex => exact doFft_complex hp hrank hsize hfftw hkind inp out
  | real =>
    by_cases hsign : p.sign = -1
    · exact doFft_forward hp hrank hsize hfftw hkind inp out hsign
    · exact doFft_backward hp hrank hsize hfftw hkind inp out hsign

end DoFft

/-! ### What it computes -/

section Result

variable (hp : IntDims p) (hrank : 1 ≤ p.rank) (hsize : p.size.toNat = p.dims.prod)
  (hfftw : fftw.Documented c2r)

include hp hrank hsize hfftw

theorem transforms_result (hsign : p.sign = 1 ∨ p.sign = -1) :
    Transforms p (result c2r p) := by
  have hdft : ∀ (sign : ℤ) (x : Fin p.size.toNat → ℂ) (k : Fin p.size.toNat), p.sign = sign →
      Fftw.dft sign p.dims (array x) k = transform p x k := by
    rintro _ x k rfl
    rw [← funext (array_apply x), transform_eq_dft hsize, funext (array_apply x)]
    rfl
  unfold Transforms
  cases hkind : p.kind with
  | complex =>
    refine (isDft_iff_onComplex hsize).mpr fun x k => ?_
    rw [onComplex, result, hkind]
    exact (toComplex.apply_symm_apply _).trans (dft_array hsize p.sign
      (fun _ => (toComplex.apply_symm_apply _).symm) k).symm
  | real =>
    split_ifs with h
    · intro x k
      rw [result, hkind, ← hdft (-1) _ k h]
      show toComplex (ite _ _ _) = _
      rw [if_pos h, toComplex.apply_symm_apply]
    · have hresult : ∀ x k, result c2r p x k
          = ⟨c2r p.dims (Fftw.half p.dims (array fun j => toComplex (x j))) k, 0⟩ := by
        intro x k
        rw [result, hkind]
        exact if_neg h
      constructor
      · intro a b x y k
        have hlin := hfftw.c2r_linear p.dims (dims hp hrank) a b _ _ _
          (fun i _ => half_array_combine p.dims a b x y i) k (hsize ▸ k.isLt)
        rw [hresult, hresult, hresult, hlin, mul_zero, mul_zero, add_zero]
      · intro x hx k
        have hherm : ∀ j < p.dims.prod, array (fun j => toComplex (x j)) (negIdx p.dims j)
            = starRingEnd ℂ (array (fun j => toComplex (x j)) j) := by
          intro j hj
          have hneg := negIdx_lt hp.pos j
          rw [← hsize] at hj hneg
          rw [array_apply _ ⟨j, hj⟩, array_apply _ ⟨_, hneg⟩, hx ⟨_, hneg⟩ ⟨j, hj⟩ rfl,
            toComplex_conjOf]
        rw [hresult, ← hdft 1 _ k (hsign.resolve_right h),
          ← hfftw.c2r_hermitian p.dims (dims hp hrank) _ hherm k (hsize ▸ k.isLt)]
        rfl

end Result

/-- **The benchee `fftw3` passes its verification**, if FFTW computes exactly what it documents:
whatever the blocks hold and whatever is drawn, `verify` makes the comparisons of the tests on one
transform of the problem, and returns if none of them is of zeros. -/
theorem verify_fftw3 (hfftw : fftw.Documented c2r) {s : List Char}
    (hparse : problemParse s = .ok p) (hsize : p.size.toNat = p.dims.prod)
    (hvsize : p.vsize.toNat = p.vdims.prod) {sizeofReal : UInt64} (hpos : 1 ≤ sizeofReal.toNat)
    (hle : sizeofReal.toNat ≤ 16) (hexact : AllocExact sizeofReal p) :
    ∃ F, Transforms p F ∧ ∀ tol, 0 ≤ tol → ∀ inCell outCell ds w,
      Passes (doVerify p (doFftOf F) exactTrig ds w)
        (verify (benchee fftw) sizeofReal exactTrig tol s inCell outCell ds w) := by
  obtain ⟨hp, hrank, -⟩ := problemParse_intDims hparse
  have hsign := problemParse_sign hparse
  have hF := transforms_result hp hrank hsize hfftw hsign
  have hcan : canDo p = true := rfl
  have hsetup : ∀ io, HasRoom p io →
      ∃ io', (benchee fftw).setup p io = .ok io' ∧ HasRoom p io' := by
    intro io hio
    obtain ⟨io', hplan, hsame⟩ := hfftw.plan_ok (thePlan p) io
    refine ⟨io', ?_, hio.of_sameBlocks hsame⟩
    show setup fftw p io = _
    rw [setup, bind_ok (benchAssert_ok hcan), hplan]
    rfl
  exact ⟨result c2r p, hF, fun tol htol => verify_passes hparse hsize hvsize hpos hle hexact hcan
    hsetup hF (doFft_fftw3 hp hrank hsize hfftw) htol⟩

/-- The problem `irb2x3`. -/
def irb2x3 : Problem :=
  { initialProblem "irb2x3".toList with
    kind := .real
    n := [2, 3]
    size := 6
    sign := 1
    inPlace := true }

theorem verify_fftw3_irb2x3 : ∃ F, Transforms irb2x3 F ∧ ∀ tol, 0 ≤ tol → ∀ inCell outCell ds w,
    Passes (doVerify irb2x3 (doFftOf F) exactTrig ds w)
      (verify (benchee Fftw.reference) 8 exactTrig tol "irb2x3".toList inCell outCell ds w) := by
  have hparse : problemParse "irb2x3".toList = .ok irb2x3 := rfl
  have hexact : AllocExact 8 irb2x3 := by
    show _ < _
    decide
  exact verify_fftw3 Fftw.documented_reference hparse (by decide) (by decide) (by decide)
    (by decide) hexact

end Fftw3

end BenchFFT
