import BenchFFT.Chirp
import Mathlib.Analysis.Complex.Exponential
import Mathlib.Analysis.SpecialFunctions.Complex.Arctan
import Mathlib.Analysis.SpecialFunctions.Trigonometric.Arctan
import Mathlib.Analysis.SpecificLimits.Normed

/-!
# Series of the sine, of the cosine and of `π`

`alternating top x j` is the sum of the `j + 1` terms `(-x) ^ i / (top - 2 * j + 2 * i)!`, evaluated
from the last one (`alternating_eq_sum`).  With `x ^ 2` for `x`, and as many terms as there are, it
is the beginning of the series of the cosine or, for an odd `top`, of the sine, and the rest is
small (`abs_cos_sub_le`, `abs_sin_sub_le`).

`machin` cuts the series of Machin's formula for `π`.
-/

namespace BenchFFT.Series

open Finset
open scoped Nat

/-! ### Evaluation -/

/-- `1/(top-2j)! - x * (1/(top-2j+2)! - x * (… - x * 1/top!))`. -/
noncomputable def alternating (top : ℕ) (x : ℝ) : ℕ → ℝ
  | 0 => (top ! : ℝ)⁻¹
  | j + 1 => ((top - 2 * (j + 1))! : ℝ)⁻¹ - x * alternating top x j

variable {top j : ℕ} {x y : ℝ}

theorem alternating_eq_sum (x : ℝ) (h : 2 * j ≤ top) :
    alternating top x j = ∑ i ∈ range (j + 1), (-x) ^ i / (top - 2 * j + 2 * i)! := by
  induction j with
  | zero => simp [alternating]
  | succ j ih =>
    rw [alternating, ih (by omega), sum_range_succ' _ (j + 1), mul_sum, sub_eq_neg_add,
      ← sum_neg_distrib]
    congr 1
    · refine sum_congr rfl fun i _ => ?_
      rw [show top - 2 * (j + 1) + 2 * (i + 1) = top - 2 * j + 2 * i by omega]
      ring
    · simp

/-- The factorials of the coefficients. -/
theorem factorial_step (h : 2 * (j + 1) ≤ top) :
    (top - 2 * j)! = (top - 2 * j) * (top - 2 * j - 1) * (top - 2 * (j + 1))! := by
  obtain ⟨i, hi⟩ : ∃ i, top - 2 * j = i + 2 := ⟨top - 2 * (j + 1), by omega⟩
  rw [hi, show top - 2 * (j + 1) = i by omega, Nat.factorial_succ, Nat.factorial_succ,
    show i + 2 - 1 = i + 1 by omega, Nat.mul_assoc]

/-- The coefficients grow by a factor of two at least. -/
theorem two_mul_inv_factorial_le (h : 2 * (j + 1) ≤ top) :
    2 * ((top - 2 * j)! : ℝ)⁻¹ ≤ ((top - 2 * (j + 1))! : ℝ)⁻¹ := by
  have hfactor : 2 * 1 ≤ (top - 2 * j) * (top - 2 * j - 1) := Nat.mul_le_mul (by omega) (by omega)
  have hle : 2 * (top - 2 * (j + 1))! ≤ (top - 2 * j)! := by
    rw [factorial_step h]
    exact Nat.mul_le_mul_right _ hfactor
  have hle' : (2 * (top - 2 * (j + 1))! : ℝ) ≤ (top - 2 * j)! := by exact_mod_cast hle
  have hpos : (0 : ℝ) < (top - 2 * (j + 1))! := by positivity
  have hpos' : (0 : ℝ) < (top - 2 * j)! := by positivity
  rw [← div_eq_mul_inv, ← one_div, div_le_div_iff₀ hpos' hpos, one_mul]
  exact hle'

theorem alternating_mem (h0 : 0 ≤ x) (h1 : x ≤ 1) (h : 2 * j ≤ top) :
    0 ≤ alternating top x j ∧ alternating top x j ≤ ((top - 2 * j)! : ℝ)⁻¹ := by
  induction j with
  | zero =>
    rw [alternating]
    exact ⟨by positivity, le_rfl⟩
  | succ j ih =>
    obtain ⟨hlow, hhigh⟩ := ih (by omega)
    have htwo := two_mul_inv_factorial_le h
    have hprod : x * alternating top x j ≤ ((top - 2 * j)! : ℝ)⁻¹ :=
      (mul_le_of_le_one_left hlow h1).trans hhigh
    have hpos : (0 : ℝ) < ((top - 2 * j)! : ℝ)⁻¹ := by positivity
    rw [alternating]
    exact ⟨by linarith, by linarith [mul_nonneg h0 hlow]⟩

theorem half_le_alternating (h0 : 0 ≤ x) (h1 : x ≤ 1) (h : 2 * (j + 1) ≤ top) :
    ((top - 2 * (j + 1))! : ℝ)⁻¹ / 2 ≤ alternating top x (j + 1) := by
  obtain ⟨hlow, hhigh⟩ := alternating_mem h0 h1 (show 2 * j ≤ top by omega)
  have htwo := two_mul_inv_factorial_le h
  have hprod : x * alternating top x j ≤ ((top - 2 * j)! : ℝ)⁻¹ :=
    (mul_le_of_le_one_left hlow h1).trans hhigh
  rw [alternating]
  linarith

/-- The sum moves by less than its first coefficient times its argument does. -/
theorem abs_alternating_sub_le (h0 : 0 ≤ x) (h1 : x ≤ 1) (hy0 : 0 ≤ y) (hy1 : y ≤ 1)
    (h : 2 * j ≤ top) :
    |alternating top x j - alternating top y j| ≤ |x - y| * ((top - 2 * j)! : ℝ)⁻¹ := by
  induction j with
  | zero =>
    rw [alternating, alternating, sub_self, abs_zero]
    positivity
  | succ j ih =>
    obtain ⟨hlow, hhigh⟩ := alternating_mem h0 h1 (show 2 * j ≤ top by omega)
    -- the factorials at least double, so both terms fit
    have hstep : alternating top x (j + 1) - alternating top y (j + 1)
        = -((x - y) * alternating top x j + y * (alternating top x j - alternating top y j)) := by
      rw [alternating, alternating]
      ring
    calc |alternating top x (j + 1) - alternating top y (j + 1)|
        ≤ |(x - y) * alternating top x j|
            + |y * (alternating top x j - alternating top y j)| := by
          rw [hstep, abs_neg]
          exact abs_add_le _ _
      _ = |x - y| * alternating top x j + y * |alternating top x j - alternating top y j| := by
          rw [abs_mul, abs_mul, abs_of_nonneg hlow, abs_of_nonneg hy0]
      _ ≤ |x - y| * ((top - 2 * j)! : ℝ)⁻¹ + |x - y| * ((top - 2 * j)! : ℝ)⁻¹ :=
          add_le_add (mul_le_mul_of_nonneg_left hhigh (abs_nonneg _))
            ((mul_le_of_le_one_left (abs_nonneg _) hy1).trans (ih (by omega)))
      _ = |x - y| * (2 * ((top - 2 * j)! : ℝ)⁻¹) := by ring
      _ ≤ |x - y| * ((top - 2 * (j + 1))! : ℝ)⁻¹ :=
          mul_le_mul_of_nonneg_left (two_mul_inv_factorial_le h) (abs_nonneg _)

/-! ### Sine and cosine -/

/-- The terms of the exponential series, by their parity. -/
theorem sum_exp (x : ℝ) (t : ℕ) :
    ∑ i ∈ range (2 * t), (x * Complex.I) ^ i / (i ! : ℂ)
      = (∑ i ∈ range t, (-x ^ 2) ^ i / (2 * i)! : ℝ)
        + (x * ∑ i ∈ range t, (-x ^ 2) ^ i / (2 * i + 1)! : ℝ) * Complex.I := by
  have hsq : ((x : ℂ) * Complex.I) ^ 2 = ((-x ^ 2 : ℝ) : ℂ) := by
    rw [mul_pow, Complex.I_sq]
    push_cast
    ring
  rw [Chirp.sum_range_two_mul]
  push_cast
  rw [mul_sum, sum_mul]
  congr 1 <;> refine sum_congr rfl fun i _ => ?_
  · rw [pow_mul, hsq]
    push_cast
    rfl
  · rw [pow_succ, pow_mul, hsq]
    push_cast
    ring

theorem norm_exp_sub_le (hx : |x| ≤ 1) (t : ℕ) :
    ‖Complex.exp (x * Complex.I)
        - ((alternating (2 * t) (x ^ 2) t : ℝ)
          + (x * alternating (2 * t + 1) (x ^ 2) t : ℝ) * Complex.I)‖
      ≤ |x| ^ (2 * t + 2) * ((2 * t + 3) / ((2 * t + 2)! * (2 * t + 2))) := by
  have hnorm : ‖(x : ℂ) * Complex.I‖ = |x| := by simp
  have hbound := Complex.exp_bound (x := x * Complex.I) (by rwa [hnorm]) (n := 2 * t + 2) (by omega)
  have hsum := sum_exp x (t + 1)
  rw [Nat.mul_succ] at hsum
  rw [hnorm, hsum] at hbound
  rw [alternating_eq_sum _ le_rfl, alternating_eq_sum _ (Nat.le_succ _)]
  rw [Nat.sub_self, Nat.succ_sub (Nat.le_refl _), Nat.sub_self]
  simp only [Nat.zero_add, Nat.add_comm (Nat.succ 0)]
  refine hbound.trans (le_of_eq ?_)
  push_cast
  ring

/-- The rest of the series of the cosine. -/
theorem abs_cos_sub_le (hx : |x| ≤ 1) (t : ℕ) :
    |Real.cos x - alternating (2 * t) (x ^ 2) t|
      ≤ |x| ^ (2 * t + 2) * ((2 * t + 3) / ((2 * t + 2)! * (2 * t + 2))) := by
  refine le_trans (le_of_eq ?_) ((Complex.abs_re_le_norm _).trans (norm_exp_sub_le hx t))
  rw [Complex.sub_re, Complex.exp_ofReal_mul_I_re, Complex.add_re, Complex.ofReal_re,
    Complex.re_ofReal_mul, Complex.I_re, mul_zero, add_zero]

/-- The rest of the series of the sine. -/
theorem abs_sin_sub_le (hx : |x| ≤ 1) (t : ℕ) :
    |Real.sin x - x * alternating (2 * t + 1) (x ^ 2) t|
      ≤ |x| ^ (2 * t + 2) * ((2 * t + 3) / ((2 * t + 2)! * (2 * t + 2))) := by
  refine le_trans (le_of_eq ?_) ((Complex.abs_im_le_norm _).trans (norm_exp_sub_le hx t))
  rw [Complex.sub_im, Complex.exp_ofReal_mul_I_im, Complex.add_im, Complex.ofReal_im,
    Complex.im_ofReal_mul, Complex.I_im, mul_one, zero_add]

/-! ### `π` -/

/-- The first `n` terms of the series of `arctan x⁻¹`. -/
def arctanInv (x : ℚ) (n : ℕ) : ℚ :=
  ∑ i ∈ range n, (-1) ^ i * (1 / ((2 * i + 1) * x ^ (2 * i + 1)))

theorem abs_arctan_sub_le {x : ℚ} (hx : 1 < x) (n : ℕ) :
    |Real.arctan (x : ℝ)⁻¹ - arctanInv x n| ≤ 1 / ((2 * n + 1) * x ^ (2 * n + 1)) := by
  have hx' : (1 : ℝ) < x := by exact_mod_cast hx
  have hnorm : ‖(x : ℝ)⁻¹‖ < 1 := by
    rw [norm_inv, Real.norm_of_nonneg (by linarith)]
    exact inv_lt_one_of_one_lt₀ hx'
  obtain ⟨f, hf⟩ : ∃ f : ℕ → ℝ, ∀ i, f i = 1 / ((2 * i + 1) * (x : ℝ) ^ (2 * i + 1)) :=
    ⟨fun i => 1 / ((2 * i + 1) * (x : ℝ) ^ (2 * i + 1)), fun _ => rfl⟩
  have hsum : HasSum (fun i => (-1) ^ i * f i) (Real.arctan (x : ℝ)⁻¹) := by
    convert Real.hasSum_arctan hnorm using 2 with i
    rw [hf]
    push_cast
    rw [inv_pow]
    field_simp
  -- the terms decrease to `0`, so the error is at most the first one left out
  have hanti : Antitone f := by
    refine antitone_nat_of_succ_le fun i => ?_
    rw [hf, hf]
    refine one_div_le_one_div_of_le (by positivity) (mul_le_mul ?_ ?_ (by positivity)
      (by positivity))
    · push_cast
      linarith
    · exact pow_le_pow_right₀ hx'.le (by omega)
  have hsummable : Summable f := by
    refine Summable.of_nonneg_of_le (fun i => ?_) (fun i => ?_)
      (summable_geometric_of_lt_one (by positivity) (inv_lt_one_of_one_lt₀ hx'))
    · rw [hf]
      positivity
    · rw [hf, inv_pow, ← one_div]
      refine one_div_le_one_div_of_le (by positivity) ?_
      calc (x : ℝ) ^ i ≤ x ^ (2 * i + 1) := pow_le_pow_right₀ hx'.le (by omega)
        _ ≤ (2 * i + 1) * x ^ (2 * i + 1) := le_mul_of_one_le_left (by positivity)
            (by linarith [(Nat.cast_nonneg i : (0 : ℝ) ≤ i)])
  have h := alternating_series_error_bound f hanti hsummable n
  rw [hsum.tsum_eq, hf] at h
  simp only [hf] at h
  rw [arctanInv]
  push_cast
  exact h

/-- Machin's formula. -/
theorem machin (n k : ℕ) :
    |Real.pi - (16 * arctanInv 5 n - 4 * arctanInv 239 k : ℚ)|
      ≤ 16 / ((2 * n + 1) * 5 ^ (2 * n + 1)) + 4 / ((2 * k + 1) * 239 ^ (2 * k + 1)) := by
  have h5 := abs_arctan_sub_le (x := 5) (by norm_num) n
  have h239 := abs_arctan_sub_le (x := 239) (by norm_num) k
  have hpi := Real.four_mul_arctan_inv_5_sub_arctan_inv_239
  push_cast at h5 h239 ⊢
  have hsplit : Real.pi - (16 * (arctanInv 5 n : ℝ) - 4 * arctanInv 239 k)
      = 16 * (Real.arctan 5⁻¹ - arctanInv 5 n) - 4 * (Real.arctan 239⁻¹ - arctanInv 239 k) := by
    linear_combination -4 * hpi
  rw [hsplit, div_eq_mul_one_div, div_eq_mul_one_div (4 : ℝ)]
  refine (abs_sub _ _).trans (add_le_add ?_ ?_)
  · rw [abs_mul, abs_of_pos (by norm_num)]
    exact mul_le_mul_of_nonneg_left h5 (by norm_num)
  · rw [abs_mul, abs_of_pos (by norm_num)]
    exact mul_le_mul_of_nonneg_left h239 (by norm_num)

end BenchFFT.Series
