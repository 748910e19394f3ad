import Mathlib.Algebra.BigOperators.Intervals
import Mathlib.Analysis.SpecialFunctions.Trigonometric.Basic

/-!
# Transforms of real and of hermitian sequences

A one-dimensional DFT (`dft`) is a hermitian sequence if its input is real (`dft_hermitian`), and
real if its input is hermitian.  Then the terms `k` and `n - k` of the sum are conjugate, so that it
is a sum over half of the input (`synthesis`, `dft_one_eq_synthesis`).
-/

namespace BenchFFT.RealDft

open Finset

noncomputable def dft (sign : ℤ) (n : ℕ) (X : ℕ → ℂ) (k : ℕ) : ℂ :=
  ∑ j ∈ range n, X j * Complex.exp (sign * (2 : ℕ) * Real.pi * Complex.I * j * k / n)

noncomputable def angle (n j k : ℕ) : ℝ := (2 : ℕ) * Real.pi * j * k / n

/-- The real sequence of which the first half of the transform is `X`, times `n`. -/
noncomputable def synthesis (n : ℕ) (X : ℕ → ℂ) (j : ℕ) : ℝ :=
  (X 0).re + (if n % 2 = 0 then (-1) ^ j * (X (n / 2)).re else 0)
    + ∑ k ∈ Ico 1 ((n + 1) / 2),
      (2 : ℕ) * ((X k).re * Real.cos (angle n k j) - (X k).im * Real.sin (angle n k j))

theorem dft_congr {sign : ℤ} {n : ℕ} {X Y : ℕ → ℂ} (h : ∀ j < n, X j = Y j) (k : ℕ) :
    dft sign n X k = dft sign n Y k := by
  unfold dft
  exact sum_congr rfl fun j hj => by rw [h j (mem_range.mp hj)]

/-! ### The factors -/

theorem exp_one (n j k : ℕ) :
    Complex.exp ((1 : ℤ) * (2 : ℕ) * Real.pi * Complex.I * j * k / n)
      = Real.cos (angle n j k) + Real.sin (angle n j k) * Complex.I := by
  rw [Complex.ofReal_cos, Complex.ofReal_sin, ← Complex.exp_mul_I]
  congr 1
  unfold angle
  push_cast
  ring

theorem exp_neg_one (n j k : ℕ) :
    Complex.exp ((-1 : ℤ) * (2 : ℕ) * Real.pi * Complex.I * j * k / n)
      = Real.cos (angle n j k) - Real.sin (angle n j k) * Complex.I := by
  have hneg : ((-1 : ℤ) * (2 : ℕ) * Real.pi * Complex.I * j * k / n : ℂ)
      = ((-angle n j k : ℝ) : ℂ) * Complex.I := by
    unfold angle
    push_cast
    ring
  rw [hneg, Complex.exp_mul_I, ← Complex.ofReal_cos, ← Complex.ofReal_sin, Real.cos_neg,
    Real.sin_neg]
  push_cast
  ring

section Angle

variable {n k : ℕ} (hn : 0 < n) (j : ℕ)

include hn

theorem angle_sub (hk : k ≤ n) : angle n j (n - k) = j * (2 * Real.pi) - angle n j k := by
  have hn' : (n : ℝ) ≠ 0 := Nat.cast_ne_zero.mpr hn.ne'
  unfold angle
  rw [Nat.cast_sub hk, Nat.cast_ofNat]
  field_simp

theorem cos_angle_sub (hk : k ≤ n) : Real.cos (angle n j (n - k)) = Real.cos (angle n j k) := by
  rw [angle_sub hn j hk, Real.cos_nat_mul_two_pi_sub]

theorem sin_angle_sub (hk : k ≤ n) : Real.sin (angle n j (n - k)) = -Real.sin (angle n j k) := by
  rw [angle_sub hn j hk, Real.sin_nat_mul_two_pi_sub]

theorem angle_half (hk : 2 * k = n) : angle n j k = j * Real.pi := by
  have hn' : (n : ℝ) ≠ 0 := Nat.cast_ne_zero.mpr hn.ne'
  have hk' : (2 : ℝ) * k = n := by exact_mod_cast hk
  unfold angle
  rw [div_eq_iff hn', ← hk']
  ring

end Angle

theorem angle_comm (n j k : ℕ) : angle n j k = angle n k j := by
  unfold angle
  ring

@[simp] theorem angle_zero (n j : ℕ) : angle n j 0 = 0 := by simp [angle]

/-! ### Real sequences -/

section Real

variable {n : ℕ} (x : ℕ → ℝ) (k : ℕ)

theorem dft_re : (dft (-1) n (fun j => (x j : ℂ)) k).re
    = ∑ j ∈ range n, x j * Real.cos (angle n j k) := by
  rw [dft, Complex.re_sum]
  refine sum_congr rfl fun j _ => ?_
  rw [exp_neg_one, Complex.re_ofReal_mul, Complex.sub_re, Complex.ofReal_re, Complex.re_ofReal_mul,
    Complex.I_re, mul_zero, sub_zero]

theorem dft_im : (dft (-1) n (fun j => (x j : ℂ)) k).im
    = -∑ j ∈ range n, x j * Real.sin (angle n j k) := by
  rw [dft, Complex.im_sum, ← sum_neg_distrib]
  refine sum_congr rfl fun j _ => ?_
  rw [exp_neg_one, Complex.im_ofReal_mul, Complex.sub_im, Complex.ofReal_im, Complex.im_ofReal_mul,
    Complex.I_im, mul_one, zero_sub, mul_neg]

variable {k}

/-- The transform of a real sequence is hermitian. -/
theorem dft_hermitian (hk : k < n) : dft (-1) n (fun j => (x j : ℂ)) ((n - k) % n)
    = starRingEnd ℂ (dft (-1) n (fun j => (x j : ℂ)) k) := by
  have hn : 0 < n := by omega
  obtain rfl | h0 := Nat.eq_zero_or_pos k
  · rw [Nat.sub_zero, Nat.mod_self]
    refine (Complex.conj_eq_iff_im.mpr ?_).symm
    rw [dft_im, neg_eq_zero]
    exact sum_eq_zero fun j _ => by rw [angle_zero, Real.sin_zero, mul_zero]
  · rw [Nat.mod_eq_of_lt (by omega)]
    apply Complex.ext
    · rw [Complex.conj_re, dft_re, dft_re]
      exact sum_congr rfl fun j _ => by rw [cos_angle_sub hn j hk.le]
    · rw [Complex.conj_im, dft_im, dft_im, neg_inj, ← sum_neg_distrib]
      exact sum_congr rfl fun j _ => by rw [sin_angle_sub hn j hk.le, mul_neg]

end Real

/-! ### Hermitian sequences -/

/-- The terms past the middle, from the end. -/
theorem sum_range_fold {n : ℕ} (hn : 0 < n) (g : ℕ → ℂ) :
    ∑ k ∈ range n, g k = g 0 + (if n % 2 = 0 then g (n / 2) else 0)
      + ∑ k ∈ Ico 1 ((n + 1) / 2), (g k + g (n - k)) := by
  have hsplit : ∑ k ∈ range n, g k
      = g 0 + ∑ k ∈ Ico 1 ((n + 1) / 2), g k + ∑ k ∈ Ico ((n + 1) / 2) n, g k := by
    rw [range_eq_Ico, ← sum_Ico_consecutive g (Nat.zero_le ((n + 1) / 2)) (by omega),
      sum_eq_sum_Ico_succ_bot (by omega : 0 < (n + 1) / 2)]
  have hreflect : ∑ k ∈ Ico ((n + 1) / 2) n, g k
      = ∑ k ∈ Ico 1 (n + 1 - (n + 1) / 2), g (n - k) := by
    rw [sum_Ico_reflect g 1 (by omega)]
    congr 2
    omega
  rw [hsplit, hreflect, sum_add_distrib]
  split_ifs with heven
  · -- the middle term is its own mirror image
    have hlast : n + 1 - (n + 1) / 2 = (n + 1) / 2 + 1 := by omega
    have hmid : n - (n + 1) / 2 = n / 2 := by omega
    rw [hlast, sum_Ico_succ_top (by omega), hmid]
    ring
  · have hlast : n + 1 - (n + 1) / 2 = (n + 1) / 2 := by omega
    rw [hlast]
    ring

theorem conj_pair (z : ℂ) (θ : ℝ) :
    z * (Real.cos θ + Real.sin θ * Complex.I)
      + starRingEnd ℂ z * (Real.cos θ - Real.sin θ * Complex.I)
      = (((2 : ℕ) * (z.re * Real.cos θ - z.im * Real.sin θ) : ℝ) : ℂ) := by
  apply Complex.ext
  · simp
    ring
  · simp
    ring

section Hermitian

variable {n : ℕ} {X : ℕ → ℂ} (hX : ∀ k < n, X ((n - k) % n) = starRingEnd ℂ (X k))

include hX

theorem hermitian_sub {k : ℕ} (h0 : 0 < k) (hk : k < n) :
    X (n - k) = starRingEnd ℂ (X k) := by
  rw [← hX k hk, Nat.mod_eq_of_lt (by omega)]

/-- An entry that is its own mirror image. -/
theorem hermitian_real {k : ℕ} (hk : k < n) (hmid : (n - k) % n = k) : X k = ((X k).re : ℂ) := by
  have h := hX k hk
  rw [hmid] at h
  exact (Complex.conj_eq_iff_real.mp h.symm).elim fun r hr => by rw [hr, Complex.ofReal_re]

/-- The transform of a hermitian sequence is real. -/
theorem dft_one_eq_synthesis (hn : 0 < n) (j : ℕ) :
    dft 1 n X j = (synthesis n X j : ℂ) := by
  have hfirst : X 0 * Complex.exp ((1 : ℤ) * (2 : ℕ) * Real.pi * Complex.I * (0 : ℕ) * j / n)
      = ((X 0).re : ℂ) := by
    rw [exp_one, angle_comm, angle_zero, hermitian_real hX hn (by simp)]
    simp
  have hmiddle : (if n % 2 = 0 then X (n / 2)
        * Complex.exp ((1 : ℤ) * (2 : ℕ) * Real.pi * Complex.I * (n / 2 : ℕ) * j / n) else 0)
      = ((if n % 2 = 0 then (-1) ^ j * (X (n / 2)).re else 0 : ℝ) : ℂ) := by
    split_ifs with heven
    · have hmod : (n - n / 2) % n = n / 2 := by
        rw [Nat.mod_eq_of_lt (by omega)]
        omega
      rw [exp_one, angle_comm, angle_half hn j (by omega), Real.cos_nat_mul_pi,
        Real.sin_nat_mul_pi, hermitian_real hX (by omega) hmod]
      simp [mul_comm]
    · exact Complex.ofReal_zero.symm
  have hpairs : ∀ k ∈ Ico 1 ((n + 1) / 2),
      X k * Complex.exp ((1 : ℤ) * (2 : ℕ) * Real.pi * Complex.I * k * j / n)
        + X (n - k) * Complex.exp ((1 : ℤ) * (2 : ℕ) * Real.pi * Complex.I * (n - k : ℕ) * j / n)
      = (((2 : ℕ) * ((X k).re * Real.cos (angle n k j)
        - (X k).im * Real.sin (angle n k j)) : ℝ) : ℂ) := by
    intro k hk
    have hk := mem_Ico.mp hk
    have hle : k ≤ n := by omega
    rw [exp_one, exp_one, angle_comm n (n - k), cos_angle_sub hn j hle, sin_angle_sub hn j hle,
      hermitian_sub hX (by omega) (by omega), angle_comm n k, ← conj_pair, Complex.ofReal_neg,
      neg_mul, ← sub_eq_add_neg]
  rw [dft, sum_range_fold hn, hfirst, hmiddle, sum_congr rfl hpairs, synthesis]
  push_cast
  rfl

end Hermitian

/-! ### Half of a sequence -/

section Synthesis

variable {n : ℕ} {X Y Z : ℕ → ℂ} (j : ℕ)

theorem synthesis_combine {a b : ℝ} (h : ∀ k, 2 * k ≤ n → Z k = a * X k + b * Y k) :
    synthesis n Z j = a * synthesis n X j + b * synthesis n Y j := by
  have hre : ∀ k, 2 * k ≤ n → (Z k).re = a * (X k).re + b * (Y k).re := by
    intro k hk
    rw [h k hk, Complex.add_re, Complex.re_ofReal_mul, Complex.re_ofReal_mul]
  have him : ∀ k, 2 * k ≤ n → (Z k).im = a * (X k).im + b * (Y k).im := by
    intro k hk
    rw [h k hk, Complex.add_im, Complex.im_ofReal_mul, Complex.im_ofReal_mul]
  have hsum : ∑ k ∈ Ico 1 ((n + 1) / 2),
      (2 : ℕ) * ((Z k).re * Real.cos (angle n k j) - (Z k).im * Real.sin (angle n k j))
      = a * ∑ k ∈ Ico 1 ((n + 1) / 2),
          (2 : ℕ) * ((X k).re * Real.cos (angle n k j) - (X k).im * Real.sin (angle n k j))
        + b * ∑ k ∈ Ico 1 ((n + 1) / 2),
          (2 : ℕ) * ((Y k).re * Real.cos (angle n k j) - (Y k).im * Real.sin (angle n k j)) := by
    rw [mul_sum, mul_sum, ← sum_add_distrib]
    refine sum_congr rfl fun k hk => ?_
    have hk := mem_Ico.mp hk
    rw [hre k (by omega), him k (by omega)]
    ring
  unfold synthesis
  rw [hsum, hre 0 (Nat.zero_le n), hre (n / 2) (by omega)]
  split_ifs <;> ring

/-- The other half is not looked at, nor are the imaginary parts that are zero in a hermitian
sequence. -/
theorem synthesis_congr (hre : ∀ k, 2 * k ≤ n → (X k).re = (Y k).re)
    (him : ∀ k, 0 < k → 2 * k < n → (X k).im = (Y k).im) :
    synthesis n X j = synthesis n Y j := by
  have hsum : ∀ k ∈ Ico 1 ((n + 1) / 2),
      (2 : ℕ) * ((X k).re * Real.cos (angle n k j) - (X k).im * Real.sin (angle n k j))
        = (2 : ℕ) * ((Y k).re * Real.cos (angle n k j) - (Y k).im * Real.sin (angle n k j)) := by
    intro k hk
    have hk := mem_Ico.mp hk
    rw [hre k (by omega), him k (by omega) (by omega)]
  unfold synthesis
  rw [sum_congr rfl hsum, hre 0 (Nat.zero_le n), hre (n / 2) (by omega)]

end Synthesis

end BenchFFT.RealDft
