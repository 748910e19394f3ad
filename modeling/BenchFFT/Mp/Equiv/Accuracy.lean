import BenchFFT.Detects
import BenchFFT.Mp.Equiv.Cache

/-!
# What `fftaccuracy` measures

In exact arithmetic each of the six errors of `fftaccuracy` is zero exactly when the output it is
given is the discrete Fourier transform of the input, whether or not the tables of `bluestein` are
cached already, and the two L2 errors are equal (`fftaccuracy_measures`).
-/

namespace BenchFFT.Mp

open Chirp Finset

/-! ### The three norms -/

/-- Each of the three numbers detects `P`. -/
structure Measures (e : ℝ × ℝ × ℝ) (P : Prop) : Prop where
  l1 : Detects e.1 P
  l2 : Detects e.2.1 P
  linf : Detects e.2.2 P

theorem Measures.congr {e : ℝ × ℝ × ℝ} {P Q : Prop} (he : Measures e P) (hPQ : P ↔ Q) :
    Measures e Q :=
  ⟨he.l1.congr hPQ, he.l2.congr hPQ, he.linf.congr hPQ⟩

theorem abs_eq_ite (x : ℝ) : (if x < 0 then -x else x) = |x| := by
  split_ifs with hx
  · exact (abs_of_neg hx).symm
  · exact (abs_of_nonneg (not_lt.mp hx)).symm

theorem max_eq_ite (x y : ℝ) : (if x < y then y else x) = max y x := by
  split_ifs with hxy
  · exact (max_eq_left hxy.le).symm
  · exact (max_eq_right (not_lt.mp hxy)).symm

theorem norms_measures (n : ℕ) (var : ℕ → ℝ) :
    Measures (norms n var) (∀ i < 2 * n, var i = 0) := by
  refine forRange_induction (fun k e => Measures e (∀ i < k, var i = 0)) ?_ ?_
  · exact ⟨Detects.zero.congr (by simp), Detects.zero.congr (by simp),
      Detects.zero.congr (by simp)⟩
  · rintro k - ⟨x1, x2, xinf⟩ he
    have hnext : ((∀ i < k, var i = 0) ∧ var k = 0) ↔ ∀ i < k + 1, var i = 0 :=
      Nat.forall_lt_succ_right.symm
    have hd := Detects.abs (var k)
    refine ⟨?_, ?_, ?_⟩ <;> simp only [abs_eq_ite, max_eq_ite]
    · exact (he.l1.add hd).congr hnext
    · exact (he.l2.add hd.mul_self).congr hnext
    · exact (hd.max he.linf).congr (and_comm.trans hnext)

/-- The square of the L2 norm. -/
theorem norms_l2 (n : ℕ) (var : ℕ → ℝ) : (norms n var).2.1 = ∑ i ∈ range (2 * n), var i ^ 2 := by
  refine forRange_induction (fun k (e : ℝ × ℝ × ℝ) => e.2.1 = ∑ i ∈ range k, var i ^ 2) rfl ?_
  rintro k - ⟨x1, x2, xinf⟩ he
  simp only at he ⊢
  rw [sum_range_succ, he, abs_eq_ite, abs_mul_abs_self, sq]

/-- The errors of `b` against `a`, which is not zero. -/
theorem compare_measures {n : ℕ} {a b : ℕ → ℝ} (ha : ¬∀ i < 2 * n, a i = 0) :
    Measures (compare exactArith n a b) (∀ i < 2 * n, a i = b i) := by
  have hnorm := norms_measures n a
  have herror := (norms_measures n fun i => a i - b i).congr
    (forall₂_congr fun i _ => sub_eq_zero)
  exact ⟨herror.l1.div (hnorm.l1.pos ha), (herror.l2.div (hnorm.l2.pos ha)).sqrt,
    herror.linf.div (hnorm.linf.pos ha)⟩

/-! ### The transforms -/

section Fft1

variable {n : ℕ} (hn : 1 ≤ n)
include hn

/-- What `bluestein` computes with cached tables is what it computes with new ones. -/
theorem bluestein_serves (a : ℕ → ℝ) {st : Statics ℝ} (hst : Serves exactCexp n st) :
    ∃ a' st', bluestein exactArith n a st = .ok (a', st') ∧ Serves exactCexp n st' ∧
      ∀ k < n, centry a' k = dft n (cis (-1) n) (centry a) k := by
  obtain ⟨w, y, st', hwy, htables, hst', -⟩ := hst.alloc.tables hn
  obtain ⟨a', hrun, ha'⟩ := bluestein_eq hn a htables hwy
  exact ⟨a', _, hrun, Or.inr hst', ha'⟩

/-- `fft1` is the transform in every state that serves its size. -/
theorem fft1_serves (a : ℕ → ℝ) {sign : ℤ} (hsign : sign = 1 ∨ sign = -1) {st : Statics ℝ}
    (hst : Serves exactCexp n st) :
    ∃ a' st', fft1 exactArith n a sign st = .ok (a', st') ∧ Serves exactCexp n st' ∧
      ∀ k < n, centry a' k = dft n (cis sign n) (centry a) k := by
  cases hpow : powerOfTwo n with
  | true =>
    obtain ⟨t, rfl⟩ := (powerOfTwo_iff hn).mp hpow
    obtain ⟨a', hrun, ha'⟩ := fft0_eq t a hsign
    refine ⟨a', st, ?_, hst, ha'⟩
    rw [fft1, if_pos hpow]
    exact congrFun hrun st
  | false => exact fft1_eq_dft hpow (fun a => bluestein_serves hn a hst) a hsign

end Fft1

/-! ### The arrays of `fftaccuracy` -/

/-- The samples of an array as complex numbers. -/
def samples (a : ℕ → BenchComplex ℝ) (k : ℕ) : ℂ := ⟨(a k).re, (a k).im⟩

section Cells

variable {n : ℕ}

theorem centry_fromrealv (n : ℕ) (a : ℕ → BenchComplex ℝ) (b : ℕ → ℝ) :
    ∃ b', fromrealv exactArith n a b = some b' ∧ ∀ k < n, centry b' k = samples a k := by
  refine ⟨_, forRangeM_pure (m := Option) (fun _ _ _ => rfl) _, fun k hk => ?_⟩
  have h := entry_forRange_setEntry n (fun i _ => ((a i).re, (a i).im)) b k
  rw [if_pos hk] at h
  exact congrArg toComplex h

/-- The loop that divides by `n`. -/
theorem centry_scaled (c : ℝ) (f : ℕ → ℝ) {k : ℕ} (hk : k < n) :
    centry (forRange (2 * n) (fun i f => Function.update f i (f i * c)) f) k = c * centry f k := by
  have h := forRange_update_apply (2 * n) (fun _ x => x * c) f
  have hentry : entry (forRange (2 * n) (fun i f => Function.update f i (f i * c)) f) k
      = (f (2 * k) * c, f (2 * k + 1) * c) := by
    rw [entry, h, h, if_pos (by omega), if_pos (by omega)]
  rw [centry, hentry]
  apply Complex.ext <;> simp [toComplex, centry, entry, mul_comm]

/-- Two arrays with the same cells have the same entries. -/
theorem cells_eq_iff (u v : ℕ → ℝ) :
    (∀ i < 2 * n, u i = v i) ↔ ∀ k < n, centry u k = centry v k := by
  constructor
  · intro h k hk
    rw [centry, centry, entry, entry, h _ (by omega), h _ (by omega)]
  · intro h i hi
    have hentry := h (i / 2) (by omega)
    rcases Nat.even_or_odd' i with ⟨k, rfl | rfl⟩
    · rw [Nat.mul_div_cancel_left k Nat.two_pos] at hentry
      exact congrArg Complex.re hentry
    · rw [show (2 * k + 1) / 2 = k by omega] at hentry
      exact congrArg Complex.im hentry

theorem sum_sq_cells (u : ℕ → ℝ) :
    ∑ i ∈ range (2 * n), u i ^ 2 = ∑ k ∈ range n, Complex.normSq (centry u k) := by
  rw [sum_range_two_mul, ← sum_add_distrib]
  refine sum_congr rfl fun k _ => ?_
  rw [Complex.normSq_apply, sq, sq]
  rfl

theorem centry_sub (u v : ℕ → ℝ) (k : ℕ) :
    centry (fun i => u i - v i) k = centry u k - centry v k := by
  apply Complex.ext <;> simp [centry, toComplex, entry]

end Cells

section Fftaccuracy

variable {n : ℕ} (hn : 1 ≤ n)
include hn

/-- The arrays that are compared: `x`, the transform of the input, with the output, and the input
with `z`, the inverse transform of the output. -/
theorem fftaccuracy_run (a ffta : ℕ → BenchComplex ℝ) {sign : ℤ} (hsign : sign = 1 ∨ sign = -1)
    {st : Statics ℝ} (hst : Serves exactCexp n st) :
    ∃ x fftb b z st', fftaccuracy exactArith n a ffta sign st
        = .ok ((compare exactArith n x fftb, compare exactArith n b z), st') ∧
      Serves exactCexp n st' ∧
      (∀ k < n, centry x k = dft n (cis sign n) (samples a) k) ∧
      (∀ k < n, centry fftb k = samples ffta k) ∧ (∀ k < n, centry b k = samples a k) ∧
      ∀ k < n, centry z k = (n : ℂ)⁻¹ * dft n (cis sign n)⁻¹ (samples ffta) k := by
  have hst₀ : Serves exactCexp n st.alloc.alloc := hst.alloc.alloc
  obtain ⟨b₁, hrunb₁, hb₁⟩ := centry_fromrealv n a (st.fresh 0)
  obtain ⟨f₁, hrunf₁, hf₁⟩ := centry_fromrealv n ffta (st.alloc.fresh 0)
  obtain ⟨x, st₁, hrunx, hst₁, hx⟩ := fft1_serves hn b₁ hsign hst₀
  obtain ⟨b₂, hrunb₂, hb₂⟩ := centry_fromrealv n a x
  obtain ⟨f₂, hrunf₂, hf₂⟩ := centry_fromrealv n ffta f₁
  obtain ⟨z, st₂, hrunz, hst₂, hz⟩ := fft1_serves hn
    (forRange (2 * n) (fun i f => Function.update f i (f i * (((n : ℤ) : ℝ))⁻¹)) f₂)
    (show -sign = 1 ∨ -sign = -1 by omega) hst₁
  refine ⟨x, f₁, b₂, z, st₂, ?_, hst₂, fun k hk => ?_, hf₁, hb₂, fun k hk => ?_⟩
  · have hreal : exactArith.fromreal ((n : ℤ) : ℝ) = some ((n : ℤ) : ℝ) := rfl
    have hinv : exactArith.inv ((n : ℤ) : ℝ) = some ((n : ℤ) : ℝ)⁻¹ := rfl
    rw [fftaccuracy, Prog.bind_ok (benchMalloc_run st), Prog.bind_ok (benchMalloc_run _)]
    simp only [hreal, hinv, hrunb₁, hrunf₁, ofOption, pure_bind]
    rw [Prog.bind_ok hrunx]
    simp only [hrunb₂, hrunf₂, pure_bind]
    exact Prog.bind_ok hrunz _
  · rw [hx k hk]
    exact dft_congr (fun j hj => hb₁ j hj) k
  · rw [hz k hk, cis_neg, dft_congr fun j hj => centry_scaled _ _ hj, dft, dft, mul_sum]
    refine sum_congr rfl fun j hj => ?_
    rw [hf₂ j (mem_range.mp hj)]
    push_cast
    ring

theorem isPrimitiveRoot_cis_sign {sign : ℤ} (hsign : sign = 1 ∨ sign = -1) :
    IsPrimitiveRoot (cis sign n) n := by
  rcases hsign with rfl | rfl
  · have hinv := (isPrimitiveRoot_cis hn).inv
    rwa [← cis_neg, neg_neg] at hinv
  · exact isPrimitiveRoot_cis hn

/-- `y` is the transform of `x`. -/
def IsTransform (n : ℕ) (sign : ℤ) (x y : ℕ → ℂ) : Prop := ∀ k < n, y k = dft n (cis sign n) x k

end Fftaccuracy

/-! ### What the comparisons say -/

/-- Parseval's identity for the values of the transform. -/
theorem sum_normSq_dft {n : ℕ} {ω : ℂ} (hω : IsPrimitiveRoot ω n)
    (hconj : (starRingEnd ℂ) ω = ω⁻¹) (x : ℕ → ℂ) :
    ∑ k ∈ range n, Complex.normSq (dft n ω x k) = n * ∑ j ∈ range n, Complex.normSq (x j) := by
  have hdft : ∀ k, (starRingEnd ℂ) (dft n ω x k)
      = dft n ω⁻¹ (fun j => (starRingEnd ℂ) (x j)) k := by
    intro k
    rw [dft, dft, map_sum]
    refine sum_congr rfl fun j _ => ?_
    rw [map_mul, map_pow, hconj]
  have hparseval := sum_dft_mul_dft_inv hω x fun j => (starRingEnd ℂ) (x j)
  simp only [← hdft, Complex.mul_conj] at hparseval
  exact_mod_cast hparseval

section Compare

variable {n : ℕ} (hn : 1 ≤ n) {a ffta : ℕ → BenchComplex ℝ} {sign : ℤ}
  (hsign : sign = 1 ∨ sign = -1) {x fftb b z : ℕ → ℝ}
  (hx : ∀ k < n, centry x k = dft n (cis sign n) (samples a) k)
  (hfftb : ∀ k < n, centry fftb k = samples ffta k) (hb : ∀ k < n, centry b k = samples a k)
  (hz : ∀ k < n, centry z k = (n : ℂ)⁻¹ * dft n (cis sign n)⁻¹ (samples ffta) k)

include hn hsign hx hfftb in
theorem forward_measures (ha : ∃ k < n, samples a k ≠ 0) :
    Measures (compare exactArith n x fftb) (IsTransform n sign (samples a) (samples ffta)) := by
  have hn0 : (n : ℂ) ≠ 0 := Nat.cast_ne_zero.mpr (by omega)
  obtain ⟨k₀, hk₀, hne⟩ := ha
  have hnorm : ¬∀ i < 2 * n, x i = 0 := by
    intro hzero
    have hentry : ∀ k < n, centry x k = 0 := (cells_eq_iff _ fun _ => 0).mp hzero
    -- then the input is zero too, by inversion
    have hsamples := (eq_dft_iff (isPrimitiveRoot_cis_sign hn hsign) hn0 (samples a)
      (centry x)).mp hx k₀ hk₀
    rw [dft_congr hentry] at hsamples
    exact hne (by simpa [dft] using hsamples)
  refine (compare_measures hnorm).congr ?_
  rw [cells_eq_iff]
  exact forall₂_congr fun k hk => by rw [hx k hk, hfftb k hk, eq_comm]

include hn hsign hb hz in
theorem backward_measures (ha : ∃ k < n, samples a k ≠ 0) :
    Measures (compare exactArith n b z) (IsTransform n sign (samples a) (samples ffta)) := by
  obtain ⟨k₀, hk₀, hne⟩ := ha
  have hnorm : ¬∀ i < 2 * n, b i = 0 := by
    intro hzero
    have hentry := (cells_eq_iff _ fun _ => 0).mp hzero k₀ hk₀
    rw [hb k₀ hk₀] at hentry
    exact hne hentry
  refine (compare_measures hnorm).congr ?_
  rw [cells_eq_iff, IsTransform, eq_dft_iff (isPrimitiveRoot_cis_sign hn hsign)
    (Nat.cast_ne_zero.mpr (by omega))]
  exact forall₂_congr fun k hk => by rw [hb k hk, hz k hk]

include hn hsign hx hfftb hb hz in
/-- The two L2 errors are equal: the transform keeps the ratio of two L2 norms. -/
theorem compare_l2 : (compare exactArith n x fftb).2.1 = (compare exactArith n b z).2.1 := by
  have hω := isPrimitiveRoot_cis_sign hn hsign
  have hconj : (starRingEnd ℂ) (cis sign n) = (cis sign n)⁻¹ := conj_cis sign n
  -- the output is the transform of what the backward transform makes of it
  have houtput := (eq_dft_iff hω (Nat.cast_ne_zero.mpr (by omega)) (centry z) (samples ffta)).mpr hz
  have herror : ∑ i ∈ range (2 * n), (x i - fftb i) ^ 2
      = n * ∑ i ∈ range (2 * n), (b i - z i) ^ 2 := by
    rw [sum_sq_cells fun i => x i - fftb i, sum_sq_cells fun i => b i - z i,
      ← sum_normSq_dft hω hconj]
    refine sum_congr rfl fun k hk => ?_
    have hdiff : dft n (cis sign n) (centry fun i => b i - z i) k
        = dft n (cis sign n) (samples a) k - dft n (cis sign n) (centry z) k := by
      rw [dft, dft, dft, ← sum_sub_distrib]
      refine sum_congr rfl fun j hj => ?_
      rw [centry_sub, hb j (mem_range.mp hj), sub_mul]
    rw [hdiff, centry_sub, hfftb k (mem_range.mp hk), hx k (mem_range.mp hk),
      houtput k (mem_range.mp hk)]
  have hnorm : ∑ i ∈ range (2 * n), x i ^ 2 = n * ∑ i ∈ range (2 * n), b i ^ 2 := by
    rw [sum_sq_cells, sum_sq_cells, ← sum_normSq_dft hω hconj]
    refine sum_congr rfl fun k hk => ?_
    rw [hx k (mem_range.mp hk), dft_congr fun j hj => hb j hj]
  change Real.sqrt ((norms n fun i => x i - fftb i).2.1 / (norms n x).2.1)
    = Real.sqrt ((norms n fun i => b i - z i).2.1 / (norms n b).2.1)
  rw [norms_l2, norms_l2, norms_l2, norms_l2, herror, hnorm,
    mul_div_mul_left _ _ (Nat.cast_ne_zero.mpr (by omega))]

end Compare

/-- A round of the accuracy test: each of the six errors of a nonzero input detects whether the
output is its transform, and the two L2 errors are equal. -/
theorem fftaccuracy_measures {n : ℕ} (hn : 1 ≤ n) (a ffta : ℕ → BenchComplex ℝ) {sign : ℤ}
    (hsign : sign = 1 ∨ sign = -1) {st : Statics ℝ} (hst : Serves exactCexp n st) :
    ∃ forward backward st', fftaccuracy exactArith n a ffta sign st
        = .ok ((forward, backward), st') ∧ Serves exactCexp n st' ∧ forward.2.1 = backward.2.1 ∧
      ((∃ k < n, samples a k ≠ 0) →
        Measures forward (IsTransform n sign (samples a) (samples ffta)) ∧
        Measures backward (IsTransform n sign (samples a) (samples ffta))) := by
  obtain ⟨x, fftb, b, z, st', hrun, hst', hx, hfftb, hb, hz⟩ := fftaccuracy_run hn a ffta hsign hst
  exact ⟨_, _, st', hrun, hst', compare_l2 hn hsign hx hfftb hb hz, fun ha =>
    ⟨forward_measures hn hsign hx hfftb ha, backward_measures hn hsign hb hz ha⟩⟩

end BenchFFT.Mp
