import BenchFFT.Benchees.Equiv.Fftw
import BenchFFT.Benchees.Equiv.OneDim
import BenchFFT.Benchees.Fftpack

/-!
# The benchees `fftpack` and `dfftpack` pass their verification

`Fftpack.Documented` has the sums with which `test.f` of FFTPACK compares the transforms.  The real
ones store a hermitian array in the format of `copy_h2c_1d_fftpack` (`rfftf_cell`), and take it from
there (`rfftb_cell`), so the two benchees are one-dimensional benchees
(`computes_fftpack`), and `verify` on a problem of rank 1 makes comparisons that hold
(`verify_fftpack`).
-/

namespace BenchFFT

open Finset RealDft Verify

namespace Fftpack

/-- The routines keep the sizes and, with the tables of their size, leave the sums of `test.f`. -/
structure Documented (routines : Fftpack ℝ) : Prop where
  cfftf_size : ∀ n b w, (routines.cfftf n b w).size = b.size
  cfftb_size : ∀ n b w, (routines.cfftb n b w).size = b.size
  rfftf_size : ∀ n b w, (routines.rfftf n b w).size = b.size
  rfftb_size : ∀ n b w, (routines.rfftb n b w).size = b.size
  cfftf : ∀ n b, n ≤ b.complexes.size → ∀ k < n,
    toComplex ((routines.cfftf n b (routines.cffti n)).complexes.cell k)
      = dft (-1) n (fun j => toComplex (b.complexes.cell j)) k
  cfftb : ∀ n b, n ≤ b.complexes.size → ∀ k < n,
    toComplex ((routines.cfftb n b (routines.cffti n)).complexes.cell k)
      = dft 1 n (fun j => toComplex (b.complexes.cell j)) k
  rfftf_first : ∀ n b, 0 < n → n ≤ b.size →
    (routines.rfftf n b (routines.rffti n)).cell 0 = ∑ j ∈ range n, b.cell j
  rfftf_re : ∀ n b, n ≤ b.size → ∀ k, 0 < k → 2 * k < n →
    (routines.rfftf n b (routines.rffti n)).cell (2 * k - 1)
      = ∑ j ∈ range n, b.cell j * Real.cos (angle n j k)
  rfftf_im : ∀ n b, n ≤ b.size → ∀ k, 0 < k → 2 * k < n →
    (routines.rfftf n b (routines.rffti n)).cell (2 * k)
      = -∑ j ∈ range n, b.cell j * Real.sin (angle n j k)
  rfftf_last : ∀ n b, 0 < n → n ≤ b.size → n % 2 = 0 →
    (routines.rfftf n b (routines.rffti n)).cell (n - 1) = ∑ j ∈ range n, (-1) ^ j * b.cell j
  rfftb : ∀ n b, 0 < n → n ≤ b.size → ∀ j < n,
    (routines.rfftb n b (routines.rffti n)).cell j
      = b.cell 0 + (if n % 2 = 0 then (-1) ^ j * b.cell (n - 1) else 0)
        + ∑ k ∈ Ico 1 ((n + 1) / 2), (2 : ℕ) * (b.cell (2 * k - 1) * Real.cos (angle n k j)
          - b.cell (2 * k) * Real.sin (angle n k j))

/-! ### The format -/

section Format

variable {routines : Fftpack ℝ} (hroutines : routines.Documented) {n : ℕ} (hn : 0 < n) {b : Buf ℝ}
  (hb : n ≤ b.size)

include hroutines hn hb

/-- The forward transform leaves the real parts in the cells of the format. -/
theorem rfftf_cell {k : ℕ} (hk : 2 * k ≤ n) :
    (routines.rfftf n b (routines.rffti n)).cell (2 * k - 1)
      = ∑ j ∈ range n, b.cell j * Real.cos (angle n j k) := by
  obtain rfl | h0 := Nat.eq_zero_or_pos k
  · rw [Nat.mul_zero, Nat.zero_sub, hroutines.rfftf_first n b hn hb]
    exact sum_congr rfl fun j _ => by rw [angle_zero, Real.cos_zero, mul_one]
  · rcases hk.lt_or_eq with h | rfl
    · exact hroutines.rfftf_re n b hb k h0 h
    · rw [hroutines.rfftf_last _ b hn hb (Nat.mul_mod_right 2 k)]
      exact sum_congr rfl fun j _ => by
        rw [angle_half hn j rfl, Real.cos_nat_mul_pi, mul_comm]

/-- The backward transform takes its input from the cells of the format. -/
theorem rfftb_cell {X : ℕ → BenchComplex ℝ}
    (h : Stores (Format1d.fftpack.reCell n) (Format1d.fftpack.imCell n) (-1) n b.cell X) {j : ℕ}
    (hj : j < n) : (routines.rfftb n b (routines.rffti n)).cell j
      = synthesis n (fun k => toComplex (X k)) j := by
  have hmid : (if n % 2 = 0 then (-1) ^ j * b.cell (n - 1) else 0)
      = if n % 2 = 0 then (-1) ^ j * b.cell (2 * (n / 2) - 1) else 0 := by
    split_ifs with heven
    · have hcell : 2 * (n / 2) = n := by omega
      rw [hcell]
    · rfl
  rw [hroutines.rfftb n b hn hb j hj, OneDim.synthesis_of_stores h, hmid]
  rfl

end Format

/-! ### The benchees -/

section Benchee

variable (routines : Fftpack ℝ) (canDo : Problem → Bool) (p : Problem)

theorem scaled_one (N : ℕ) (Y : ℕ → BenchComplex ℝ) : OneDim.scaled 1 N Y = Y := by
  ext k
  · unfold OneDim.scaled
    split_ifs
    · exact one_mul _
    · rfl
  · unfold OneDim.scaled
    split_ifs
    · exact one_mul _
    · rfl

theorem copies_fftpack : OneDim.Copies (routines.benchee canDo) p .fftpack (-1) 1 where
  fromComplex hkind inp io := by
    rw [Benchee.problemCcopyFrom_complex hkind]
    exact bind_pure _
  fromForward hkind hsign inp io := by
    rw [Benchee.problemCcopyFrom_forward hkind hsign]
    exact bind_pure _
  fromBackward hkind hsign inp io := by
    rw [Benchee.problemCcopyFrom_backward hkind hsign]
    exact bind_pure _
  toComplex hkind io out Y h := by
    rw [Benchee.problemCcopyTo_complex hkind, scaled_one]
    exact (bind_pure _).trans h
  toForward hkind hsign io out Y h := by
    rw [Benchee.problemCcopyTo_forward hkind hsign, scaled_one]
    exact (bind_pure _).trans h
  toBackward hkind hsign io out Y h := by
    rw [Benchee.problemCcopyTo_backward hkind hsign, scaled_one]
    exact (bind_pure _).trans h

variable {p} {n : ℕ} (hhead : p.dims.headD 0 = n)

include hhead

theorem doit_complex (hkind : p.kind = .complex) (io : IoBuffers ℝ) :
    (routines.benchee canDo).doit 1 p io
      = .ok { io with
          inp := (if p.sign = -1 then routines.cfftf else routines.cfftb) n io.inp
            (routines.cffti n) } := by
  show routines.doit 1 p io = _
  rw [doit, wsave, hkind, hhead]
  rfl

theorem doit_real (hkind : p.kind = .real) (io : IoBuffers ℝ) :
    (routines.benchee canDo).doit 1 p io
      = .ok { io with
          inp := (if p.sign = -1 then routines.rfftf else routines.rfftb) n io.inp
            (routines.rffti n) } := by
  show routines.doit 1 p io = _
  rw [doit, wsave, hkind, hhead]
  rfl

omit hhead

variable {routines canDo} (hroutines : routines.Documented) (hdims : p.dims = [p.size.toNat])
  (hn : 0 < p.size.toNat) (hsign : p.sign = 1 ∨ p.sign = -1) (hin : p.inPlace = true)

include hroutines hdims hn hsign hin

theorem computes_fftpack :
    OneDim.Computes (routines.benchee canDo) p .fftpack (-1) p.size.toNat 1 := by
  have hhead : p.dims.headD 0 = p.size.toNat := by rw [hdims]; rfl
  have hsize : p.dims.prod = p.size.toNat := by rw [hdims, List.prod_singleton]
  constructor
  · intro hkind io hio
    have hroom := hsize ▸ (hio.complexes hkind).1
    rw [doit_complex routines canDo hhead hkind, Complex.ofReal_one]
    refine ⟨_, rfl, ⟨?_, rfl⟩, fun k hk => ?_⟩
    · dsimp only
      split_ifs
      · exact hroutines.cfftf_size _ _ _
      · exact hroutines.cfftb_size _ _ _
    · rw [hio.pout_of_inPlace hin, one_mul]
      split_ifs with h
      · rw [h]
        exact hroutines.cfftf _ _ hroom k hk
      · rw [hsign.resolve_right h]
        exact hroutines.cfftb _ _ hroom k hk
  · intro hkind hforward io hio
    have hroom := hsize ▸ (hio.packed hkind).1
    rw [doit_real routines canDo hhead hkind, if_pos hforward]
    refine ⟨_, rfl, ⟨hroutines.rfftf_size _ _ _, rfl⟩, ?_⟩
    rw [hio.pout_of_inPlace hin]
    simp only [Complex.ofReal_one, one_mul]
    exact OneDim.stores_of_sums io.inp.cell (fun k hk => rfftf_cell hroutines hn hroom hk)
      (hroutines.rfftf_im _ _ hroom)
  · intro hkind hbackward io X hio hstores
    have hroom := hsize ▸ (hio.packed hkind).1
    rw [doit_real routines canDo hhead hkind, if_neg hbackward]
    refine ⟨_, rfl, ⟨hroutines.rfftb_size _ _ _, rfl⟩, fun j hj => ?_⟩
    rw [hio.pout_of_inPlace hin, one_mul]
    exact rfftb_cell hroutines hn hroom hstores hj

end Benchee

/-! ### A reference implementation -/

/-- The sum in cell `i` of a forward transform of real numbers. -/
noncomputable def referenceRfftf (n : ℕ) (x : ℕ → ℝ) (i : ℕ) : ℝ :=
  if 0 < i ∧ i % 2 = 0 then -∑ j ∈ range n, x j * Real.sin (angle n j (i / 2))
  else ∑ j ∈ range n, x j * Real.cos (angle n j ((i + 1) / 2))

noncomputable def referenceRfftb (n : ℕ) (c : ℕ → ℝ) (j : ℕ) : ℝ :=
  c 0 + (if n % 2 = 0 then (-1) ^ j * c (n - 1) else 0)
    + ∑ k ∈ Ico 1 ((n + 1) / 2), (2 : ℕ) * (c (2 * k - 1) * Real.cos (angle n k j)
      - c (2 * k) * Real.sin (angle n k j))

/-- The sums, without tables. -/
noncomputable def reference : Fftpack ℝ where
  cffti _ _ := 0
  rffti _ _ := 0
  cfftf n b _ :=
    { b with cell := Fftw.cellsOf (dft (-1) n fun j => toComplex (b.complexes.cell j)) }
  cfftb n b _ :=
    { b with cell := Fftw.cellsOf (dft 1 n fun j => toComplex (b.complexes.cell j)) }
  rfftf n b _ := { b with cell := referenceRfftf n b.cell }
  rfftb n b _ := { b with cell := referenceRfftb n b.cell }

theorem documented_reference : reference.Documented where
  cfftf_size _ _ _ := rfl
  cfftb_size _ _ _ := rfl
  rfftf_size _ _ _ := rfl
  rfftb_size _ _ _ := rfl
  cfftf _ _ _ k _ := Fftw.toComplex_cellsOf rfl k
  cfftb _ _ _ k _ := Fftw.toComplex_cellsOf rfl k
  rfftf_first n b hn hb := by
    show referenceRfftf n b.cell 0 = _
    rw [referenceRfftf, if_neg (by omega)]
    exact sum_congr rfl fun j _ => by rw [angle_zero, Real.cos_zero, mul_one]
  rfftf_re n b hb k h0 hk := by
    have hcell : (2 * k - 1 + 1) / 2 = k := by omega
    show referenceRfftf n b.cell (2 * k - 1) = _
    rw [referenceRfftf, if_neg (by omega), hcell]
  rfftf_im n b hb k h0 hk := by
    have hcell : 2 * k / 2 = k := by omega
    show referenceRfftf n b.cell (2 * k) = _
    rw [referenceRfftf, if_pos (by omega), hcell]
  rfftf_last n b hn hb heven := by
    have hcell : (n - 1 + 1) / 2 = n / 2 := by omega
    show referenceRfftf n b.cell (n - 1) = _
    rw [referenceRfftf, if_neg (by omega), hcell]
    exact sum_congr rfl fun j _ => by
      rw [angle_half hn j (by omega), Real.cos_nat_mul_pi, mul_comm]
  rfftb _ _ _ _ _ _ := rfl

/-! ### The verification -/

section Verification

variable {routines : Fftpack ℝ} (hroutines : routines.Documented) {str : List Char} {p : Problem}
  (hparse : problemParse str = .ok p) (hvsize : p.vsize.toNat = p.vdims.prod)
  {sizeofReal : UInt64} (hexact : AllocExact sizeofReal p)

include hroutines hparse hvsize hexact

theorem verify_benchee {canDo : Problem → Bool} (hcan : canDo p) (hrank : p.rank = 1)
    (hin : p.inPlace = true) (hpos : 1 ≤ sizeofReal.toNat) (hle : sizeofReal.toNat ≤ 16) :
    ∃ F, Transforms p F ∧ ∀ tol, 0 ≤ tol → ∀ inCell outCell ds w,
      Passes (doVerify p (doFftOf F) exactTrig ds w)
        (verify (routines.benchee canDo) sizeofReal exactTrig tol str inCell outCell ds w) := by
  have hdims := OneDim.dims_of_rank_one hparse hrank
  have hmem : p.size.toNat ∈ p.dims := hdims ▸ List.mem_singleton_self _
  obtain ⟨hp, -, -⟩ := problemParse_intDims hparse
  exact OneDim.verify_oneDim hdims hparse hvsize hpos hle hexact hcan
    (fun io hio => OneDim.setup_ok hcan io hio)
    (OneDim.plain_fftpack (hp.lt _ hmem)) (Or.inr rfl) (copies_fftpack routines canDo p)
    (computes_fftpack hroutines hdims (hp.pos _ hmem) (problemParse_sign hparse) hin) (mul_one 1)

end Verification

/-- The problem `irb6`. -/
def irb6 : Problem :=
  { initialProblem "irb6".toList with
    kind := .real
    n := [6]
    size := 6
    sign := 1
    inPlace := true }

end Fftpack

end BenchFFT
