import BenchFFT.Benchees.Equiv.OneDim
import BenchFFT.Benchees.Equiv.Sorensen.Transforms
import BenchFFT.Mp.Equiv.Cache

/-!
# The benchees of Sorensen's package pass their verification

The order of the cells of `rvsrh.f` and `irvsrh.f` is that of `copy_h2c_1d_halfcomplex`
(`stores_of_halfcomplex`, `halfcomplex_of_stores`).  So the two programs are one-dimensional
benchees (`computes_sorensen`), where `unnormalize` undoes the division of the inverse one
(`copies_sorensen`), and `verify` makes comparisons that hold (`verify_sorensen`).
-/

namespace BenchFFT

open Finset RealDft SplitRadix Verify

theorem log2Loop_two_pow (t m : ℕ) : log2Loop (2 ^ t) m = m + t := by
  induction t generalizing m with
  | zero =>
    rw [pow_zero, log2Loop, if_neg (by omega), Nat.add_zero]
  | succ t ih =>
    have hhalf : 2 ^ (t + 1) / 2 = 2 ^ t := by omega
    have hpos := Nat.two_pow_pos t
    rw [log2Loop, if_pos (by omega), hhalf, ih]
    omega

theorem log2_two_pow (t : ℕ) : log2 (2 ^ t) = t := (log2Loop_two_pow t 0).trans (Nat.zero_add t)

namespace Sorensen

/-! ### The order of the cells -/

section Cells

variable {n : ℕ} (hn : 0 < n) {c : ℕ → ℝ}

include hn

/-- A forward transform, stored. -/
theorem stores_of_halfcomplex (x : ℕ → ℝ)
    (h : ∀ i < n, c i = halfcomplex n (rdft n (root (-1) n) x) i) :
    Stores (Format1d.halfcomplex.reCell n) (Format1d.halfcomplex.imCell n) (-1) n c
      fun k => toComplex.symm (dft (-1) n (fun j => (x j : ℂ)) k) := by
  constructor
  · intro k hk
    show c k = (dft (-1) n (fun j => (x j : ℂ)) k).re
    rw [h k (by omega), halfcomplex_re _ hk, OneDim.dft_eq, rdft]
  · intro k h0 hk
    show c (n - k) = - -1 * (dft (-1) n (fun j => (x j : ℂ)) k).im
    rw [h (n - k) (by omega), halfcomplex_im _ h0 hk, OneDim.dft_eq, neg_neg, one_mul, rdft]

/-- What is stored is the transform of its inverse transform. -/
theorem halfcomplex_of_stores {X : ℕ → BenchComplex ℝ}
    (h : Stores (Format1d.halfcomplex.reCell n) (Format1d.halfcomplex.imCell n) (-1) n c X) :
    ∀ i < n, c i = halfcomplex n (rdft n (root (-1) n) fun j =>
      (n : ℝ)⁻¹ * synthesis n (fun k => toComplex (X k)) j) i := by
  obtain ⟨Y, hY⟩ : ∃ Y, Decodes (Format1d.halfcomplex.reCell n) (Format1d.halfcomplex.imCell n)
      (-1) n c Y := ⟨_, Format1d.decodes_of_loop _ _ (-1) rfl c X⟩
  have hstores := hY.stores (neg_mul_neg (1 : ℝ) 1 |>.trans (one_mul 1)) hn
  have hconj : ∀ k < n, toComplex (Y ((n - k) % n)) = starRingEnd ℂ (toComplex (Y k)) :=
    fun k hk => congrArg toComplex (hermitian_singleton.mp hY.hermitian k hk)
  -- the array that is read has the same inverse transform, and is hermitian
  have hsynthesis : ∀ j, (n : ℂ)⁻¹ * Chirp.dft n (root (-1) n)⁻¹ (fun k => toComplex (Y k)) j
      = ((n : ℝ)⁻¹ * synthesis n (fun k => toComplex (X k)) j : ℝ) := by
    intro j
    rw [root_neg 1, inv_inv, ← OneDim.dft_eq, dft_one_eq_synthesis hconj hn,
      OneDim.synthesis_of_stores h, ← OneDim.synthesis_of_stores hstores]
    push_cast
    rfl
  have hroot := isPrimitiveRoot_root (Or.inr rfl : (-1 : ℤ) = 1 ∨ (-1 : ℤ) = -1) hn
  have hentry := (Chirp.eq_dft_iff hroot (Nat.cast_ne_zero.mpr hn.ne') _ _).mpr
    fun j _ => (hsynthesis j).symm
  intro i hi
  rcases Nat.lt_or_ge n (2 * i) with hlt | hle
  · have him := hstores.im (n - i) (by omega) (by omega)
    have hback : n - (n - i) = i := by omega
    have hhalf := halfcomplex_im (n := n) (i := n - i) (rdft n (root (-1) n) fun j =>
      (n : ℝ)⁻¹ * synthesis n (fun k => toComplex (X k)) j) (by omega) (by omega)
    rw [Format1d.imCell, hback, neg_neg, one_mul] at him
    rw [hback] at hhalf
    rw [hhalf, rdft, ← hentry (n - i) (by omega)]
    exact him
  · rw [halfcomplex_re _ hle, rdft, ← hentry i hi]
    exact hstores.re i hle

end Cells

/-! ### The benchees -/

section Benchee

variable {inverse : Bool} {sizeofReal : UInt64} {itab : ℕ → ℕ → ℕ} {p : Problem}

/-- The problems that one of the programs can do. -/
structure Served (inverse : Bool) (sizeofReal : UInt64) (p : Problem) : Prop where
  sizeofReal_eq : sizeofReal = 4
  rank_eq : p.rank = 1
  kind : p.kind = .real
  inPlace : p.inPlace = true
  sign : p.sign = if inverse then 1 else -1
  two_pow : ∀ n ∈ p.dims, ∃ t < 14, n = 2 ^ (t + 1)

theorem served_of_canDo (hp : ∀ n ∈ p.dims, 0 < n) (h : canDo inverse sizeofReal p) :
    Served inverse sizeofReal p := by
  simp only [canDo, problemRealPowerOfTwo, problemPowerOfTwo, singlePrecision, Bool.and_eq_true,
    decide_eq_true_eq, List.all_eq_true, bne_iff_ne, ite_true] at h
  obtain ⟨⟨⟨⟨⟨-, hsize⟩, hrank⟩, hlarge⟩, hsign⟩, hkind, hdims, hin⟩ := h
  refine ⟨hsize, hrank, hkind, hin, ?_, fun n hn => ?_⟩
  · cases inverse with
    | true => simpa using hsign
    | false => simpa using hsign
  · obtain ⟨t, rfl⟩ := (Mp.powerOfTwo_iff (hp n hn)).mp (hdims n hn).2
    cases t with
    | zero => exact absurd rfl (hdims _ hn).1
    | succ t =>
      obtain ⟨d, hd⟩ := List.length_eq_one_iff.mp ((Problem.length_dims p).trans hrank)
      rw [hd] at hn hlarge
      obtain rfl := List.mem_singleton.mp hn
      have hle : 2 ^ (t + 1) ≤ 2 ^ 14 := hlarge
      exact ⟨t, (Nat.pow_le_pow_iff_right (by decide)).mp hle, rfl⟩

variable (hp : Served inverse sizeofReal p) (hdims : p.dims = [p.size.toNat])

include hp

theorem copies_sorensen : OneDim.Copies (benchee exactConstants inverse sizeofReal itab) p
    .halfcomplex (-1) (OneDim.normalization p 1) where
  fromComplex hkind := absurd (hp.kind.symm.trans hkind) nofun
  fromForward hkind hsign inp io := by
    rw [Benchee.problemCcopyFrom_forward hkind hsign]
    exact bind_pure _
  fromBackward hkind hsign inp io := by
    rw [Benchee.problemCcopyFrom_backward hkind hsign]
    exact bind_pure _
  toComplex hkind := absurd (hp.kind.symm.trans hkind) nofun
  toForward hkind hsign io out Y h := by
    rw [Benchee.problemCcopyTo_forward hkind hsign, ← OneDim.unnormalize_eq_scaled]
    exact bind_ok h _
  toBackward hkind hsign io out Y h := by
    rw [Benchee.problemCcopyTo_backward hkind hsign, ← OneDim.unnormalize_eq_scaled]
    exact bind_ok h _

theorem normalization_of_served :
    OneDim.normalization p 1 = if inverse then (p.size.toNat : ℝ) else 1 := by
  unfold OneDim.normalization
  rw [hp.sign]
  cases inverse with
  | true => rfl
  | false => rfl

omit hp in
theorem doit_one (io : IoBuffers ℝ) : (benchee exactConstants inverse sizeofReal itab).doit 1 p io
    = io.onIn (fun x => (if inverse then irsrfft exactConstants else rsrfft exactConstants)
        ⟨256, itab 0⟩ x (m p)) := rfl

include hdims

theorem computes_sorensen : OneDim.Computes (benchee exactConstants inverse sizeofReal itab) p
    .halfcomplex (-1) p.size.toNat (OneDim.normalization p 1)⁻¹ := by
  have hsize : p.dims.prod = p.size.toNat := by rw [hdims, List.prod_singleton]
  obtain ⟨t, hlt, ht⟩ := hp.two_pow p.size.toNat (hdims ▸ List.mem_singleton_self _)
  have hm : m p = t + 1 := by
    rw [m, hdims, List.headD_cons, ht, log2_two_pow]
  have hn : 0 < p.size.toNat := ht ▸ Nat.two_pow_pos _
  have hitab : (⟨256, itab 0⟩ : Buf ℕ).size = 256 := rfl
  have hsign := hp.sign
  have hnormalization := normalization_of_served hp
  constructor
  · exact fun hkind => absurd (hp.kind.symm.trans hkind) nofun
  · intro hkind hforward io hio
    have hroom := hsize ▸ (hio.packed hkind).1
    cases inverse with
    | true => exact absurd (hforward.symm.trans hsign) (by decide)
    | false =>
      obtain ⟨b, hrun, hbsize, hcell, -⟩ := (rsrfft_puts t.succ_pos (by omega) (ht ▸ hroom)
        hitab io.inp.cell).exists_ok rfl fun _ _ => rfl
      rw [← ht] at hcell
      refine ⟨{ io with inp := b }, ?_, IoBuffers.sameBlocks_onIn hbsize, ?_⟩
      · rw [doit_one, hm]
        exact IoBuffers.onIn_ok hrun
      have hstores := stores_of_halfcomplex hn io.inp.cell hcell
      rw [hio.pout_of_inPlace hp.inPlace, hnormalization, if_neg Bool.false_ne_true, inv_one]
      simp only [Complex.ofReal_one, one_mul]
      exact hstores
  · intro hkind hbackward io X hio hstores
    have hroom := hsize ▸ (hio.packed hkind).1
    cases inverse with
    | false => exact absurd hsign hbackward
    | true =>
      have hcells := halfcomplex_of_stores hn hstores
      rw [ht] at hcells
      obtain ⟨b, hrun, hbsize, hcell, -⟩ := (irsrfft_puts t.succ_pos (by omega) (ht ▸ hroom)
        hitab _).exists_ok rfl hcells
      refine ⟨{ io with inp := b }, ?_, IoBuffers.sameBlocks_onIn hbsize, fun j hj => ?_⟩
      · rw [doit_one, hm]
        exact IoBuffers.onIn_ok hrun
      rw [hio.pout_of_inPlace hp.inPlace, hnormalization, if_pos rfl, hcell j (ht ▸ hj), ← ht]

end Benchee

/-! ### The verification -/

/-- **Sorensen's two programs pass their verification** on every problem that they can do, whatever
`ITAB` holds before each call. -/
theorem verify_sorensen {str : List Char} {p : Problem} (hparse : problemParse str = .ok p)
    (hvsize : p.vsize.toNat = p.vdims.prod) {sizeofReal : UInt64}
    (hexact : AllocExact sizeofReal p) {inverse : Bool} (itab : ℕ → ℕ → ℕ)
    (hcan : (benchee exactConstants inverse sizeofReal itab).canDo p) :
    ∃ F, Transforms p F ∧ ∀ tol, 0 ≤ tol → ∀ inCell outCell ds w,
      Passes (doVerify p (doFftOf F) exactTrig ds w)
        (verify (benchee exactConstants inverse sizeofReal itab) sizeofReal exactTrig tol str inCell
          outCell ds w) := by
  obtain ⟨hp, -, -⟩ := problemParse_intDims hparse
  have hserved : Served inverse sizeofReal p := served_of_canDo hp.pos hcan
  have hdims := OneDim.dims_of_rank_one hparse hserved.rank_eq
  have hmem : p.size.toNat ∈ p.dims := hdims ▸ List.mem_singleton_self _
  obtain rfl := hserved.sizeofReal_eq
  have hnormalization : OneDim.normalization p 1 ≠ 0 := by
    rw [normalization_of_served hserved]
    split_ifs
    · exact Nat.cast_ne_zero.mpr (hp.pos _ hmem).ne'
    · exact one_ne_zero
  exact OneDim.verify_oneDim hdims hparse hvsize (by decide) (by decide) hexact hcan
    (fun io hio => OneDim.setup_ok hcan io hio)
    (OneDim.plain_halfcomplex (hp.lt _ hmem)) (Or.inr rfl) (copies_sorensen hserved)
    (computes_sorensen hserved hdims) (mul_inv_cancel₀ hnormalization)

/-- The problem `irb8`. -/
def irb8 : Problem :=
  { initialProblem "irb8".toList with
    kind := .real
    n := [8]
    size := 8
    sign := 1
    inPlace := true }

theorem verify_sorensen_irb8 : ∃ F, Transforms irb8 F ∧ ∀ tol, 0 ≤ tol → ∀ inCell outCell ds w,
    Passes (doVerify irb8 (doFftOf F) exactTrig ds w)
      (verify (benchee exactConstants true 4 fun _ i => 3 * i + 1) 4 exactTrig tol "irb8".toList
        inCell outCell ds w) := by
  have hparse : problemParse "irb8".toList = .ok irb8 := rfl
  have hexact : AllocExact 4 irb8 := by
    show _ < _
    decide
  have hcan : (benchee exactConstants true 4 fun _ i => 3 * i + 1).canDo irb8 := by
    show canDo true 4 irb8 = true
    decide
  exact verify_sorensen hparse (by decide) hexact _ hcan

end Sorensen

end BenchFFT
