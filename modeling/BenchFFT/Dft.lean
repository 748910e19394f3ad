import BenchFFT.RowMajor
import Mathlib.Algebra.BigOperators.Ring.Finset
import Mathlib.Algebra.Field.Basic
import Mathlib.Algebra.Order.BigOperators.Group.Finset
import Mathlib.Tactic.FieldSimp

/-!
# The row-major discrete Fourier transform

For a shape `n` and one root `ω d` for each dimension, `kernel n ω x k = ∏_d (ω d)^(x_d k_d)` over
the coordinates of the flat indices `x` and `k`, and `dft n ω A k = ∑_x A x * kernel n ω x k`.

What characterises the kernel is how it moves with one coordinate (`kernel_shiftIdx`): a function
that is `1` at `0` and moves the same way is the kernel (`eq_kernel_of_shift`), shifting the input
multiplies the transform by a phase (`dft_shift`), and multiplying the input by a phase shifts the
transform (`dft_modulate`).
-/

namespace BenchFFT.Dft

open Finset RowMajor

variable {K : Type*} [Field K] {n : List ℕ} {ω : ℕ → K}

/-- `∏_d (ω d)^(x_d k_d)`. -/
def kernel (n : List ℕ) (ω : ℕ → K) (x k : ℕ) : K :=
  ∏ d ∈ range n.length, ω d ^ (digit n d x * digit n d k)

/-- `∑_x A x * kernel n ω x k`. -/
def dft (n : List ℕ) (ω : ℕ → K) (A : ℕ → K) (k : ℕ) : K :=
  ∑ x ∈ range n.prod, A x * kernel n ω x k

theorem kernel_comm (x k : ℕ) : kernel n ω x k = kernel n ω k x :=
  prod_congr rfl fun d _ => by rw [Nat.mul_comm]

theorem kernel_zero_left (k : ℕ) : kernel n ω 0 k = 1 :=
  prod_eq_one fun d _ => by rw [digit_zero, Nat.zero_mul, pow_zero]

/-- Moving coordinate `d` by one multiplies the kernel by `(ω d)^(k_d)`. -/
theorem kernel_shiftIdx (hn : ∀ x ∈ n, 0 < x) {d : ℕ} (hd : d < n.length)
    (hω : ω d ^ n.getD d 1 = 1) (x k : ℕ) :
    kernel n ω (shiftIdx (n.getD d 1) (after n d) 1 x) k = kernel n ω x k * ω d ^ digit n d k := by
  unfold kernel
  rw [← mul_prod_erase _ _ (mem_range.mpr hd), ← mul_prod_erase _ _ (mem_range.mpr hd)]
  have hself : ω d ^ (digit n d (shiftIdx (n.getD d 1) (after n d) 1 x) * digit n d k)
      = ω d ^ (digit n d x * digit n d k) * ω d ^ digit n d k := by
    have hmod : ω d ^ ((digit n d x + 1) % n.getD d 1) = ω d ^ (digit n d x + 1) := by
      conv_rhs => rw [← Nat.div_add_mod (digit n d x + 1) (n.getD d 1), pow_add, pow_mul, hω,
        one_pow, one_mul]
    rw [digit_shiftIdx_self hn, pow_mul, hmod, ← pow_mul, Nat.add_mul, Nat.one_mul, pow_add]
  have hrest : ∏ e ∈ (range n.length).erase d,
      ω e ^ (digit n e (shiftIdx (n.getD d 1) (after n d) 1 x) * digit n e k)
      = ∏ e ∈ (range n.length).erase d, ω e ^ (digit n e x * digit n e k) := by
    refine prod_congr rfl fun e he => ?_
    rw [mem_erase, mem_range] at he
    rw [digit_shiftIdx_ne hn hd he.2 (Ne.symm he.1)]
  rw [hself, hrest]
  ring

/-- `n.prod` splits into whole blocks along dimension `d`. -/
theorem sum_range_shiftIdx (hn : ∀ x ∈ n, 0 < x) {d : ℕ} (hd : d < n.length) (c : ℕ)
    (f : ℕ → K) :
    ∑ x ∈ range n.prod, f (shiftIdx (n.getD d 1) (after n d) c x) = ∑ x ∈ range n.prod, f x := by
  rw [← before_mul_after hd, sum_shiftIdx (getD_pos hn d) (after_pos hn d)]

/-- Rotating the input along dimension `d`. -/
theorem dft_shift (hn : ∀ x ∈ n, 0 < x) {d : ℕ} (hd : d < n.length) (hω : ω d ^ n.getD d 1 = 1)
    (A : ℕ → K) (k : ℕ) :
    dft n ω (fun x => A (shiftIdx (n.getD d 1) (after n d) 1 x)) k * ω d ^ digit n d k
      = dft n ω A k := by
  unfold dft
  rw [sum_mul, ← sum_range_shiftIdx hn hd 1 (fun x => A x * kernel n ω x k)]
  refine sum_congr rfl fun x _ => ?_
  rw [kernel_shiftIdx hn hd hω, mul_assoc]

/-- Multiplying the input by a phase along dimension `d`. -/
theorem dft_modulate (hn : ∀ x ∈ n, 0 < x) {d : ℕ} (hd : d < n.length)
    (hω : ω d ^ n.getD d 1 = 1) (A : ℕ → K) (k : ℕ) :
    dft n ω (fun x => A x * (ω d)⁻¹ ^ digit n d x) (shiftIdx (n.getD d 1) (after n d) 1 k)
      = dft n ω A k := by
  have h0 : ω d ≠ 0 := by
    intro h
    rw [h, zero_pow (getD_pos hn d).ne'] at hω
    exact zero_ne_one hω
  refine sum_congr rfl fun x _ => ?_
  rw [kernel_comm, kernel_shiftIdx hn hd hω, kernel_comm k x]
  simp only [inv_pow]
  field_simp

theorem dft_add (A B : ℕ → K) (k : ℕ) :
    dft n ω (fun x => A x + B x) k = dft n ω A k + dft n ω B k := by
  simp only [dft, add_mul, sum_add_distrib]

theorem dft_const_mul (c : K) (A : ℕ → K) (k : ℕ) :
    dft n ω (fun x => c * A x) k = c * dft n ω A k := by
  simp only [dft, mul_sum, mul_assoc]

theorem dft_congr {A B : ℕ → K} (h : ∀ x < n.prod, A x = B x) (k : ℕ) :
    dft n ω A k = dft n ω B k :=
  sum_congr rfl fun x hx => by rw [h x (mem_range.mp hx)]

/-- The transform of the unit impulse is constant. -/
theorem dft_single_zero (hn : ∀ x ∈ n, 0 < x) (k : ℕ) :
    dft n ω (fun x => if x = 0 then 1 else 0) k = 1 := by
  have hpos : 0 ∈ range n.prod := mem_range.mpr (List.prod_pos_iff_forall_pos_nat.mpr hn)
  rw [dft, sum_eq_single_of_mem 0 hpos (fun x _ hx => by rw [if_neg hx, zero_mul]), if_pos rfl,
    kernel_zero_left, one_mul]

/-- The transform of the constant `1` is supported at `0`, when each root is primitive. -/
theorem dft_one (hn : ∀ x ∈ n, 0 < x) (hω : ∀ d < n.length, ω d ^ n.getD d 1 = 1)
    (hprim : ∀ d < n.length, ∀ j, 0 < j → j < n.getD d 1 → ω d ^ j ≠ 1) {k : ℕ}
    (hk : k < n.prod) : dft n ω (fun _ => 1) k = if k = 0 then (n.prod : K) else 0 := by
  split_ifs with h0
  · rw [h0, dft, sum_congr rfl fun x _ => by rw [one_mul, kernel_comm, kernel_zero_left], sum_const,
      card_range, nsmul_one]
  · obtain ⟨d, hd, hne⟩ := exists_digit_ne_zero hk h0
    have hshift := dft_shift hn hd (hω d hd) (fun _ => (1 : K)) k
    have hphase := hprim d hd _ (Nat.pos_of_ne_zero hne) (digit_lt hn d k)
    by_contra hS
    exact hphase (mul_left_cancel₀ hS (by rw [hshift, mul_one]))

/-- A function that is `1` at `0` and is multiplied by `(ω d)^(k_d)` whenever coordinate `d` moves
up by one is the kernel. -/
theorem eq_kernel_of_shift (hn : ∀ x ∈ n, 0 < x) (hω : ∀ d < n.length, ω d ^ n.getD d 1 = 1)
    (k : ℕ) (f : ℕ → K) (h0 : f 0 = 1)
    (hf : ∀ d < n.length, ∀ j < n.prod,
      f (shiftIdx (n.getD d 1) (after n d) 1 j) = f j * ω d ^ digit n d k)
    (j : ℕ) (hj : j < n.prod) : f j = kernel n ω j k := by
  induction j using Nat.strong_induction_on with
  | _ j ih =>
    by_cases hj0 : j = 0
    · rw [hj0, h0, kernel_zero_left]
    · -- step down along a dimension in which `j` has a positive coordinate
      obtain ⟨d, hd, hne⟩ := exists_digit_ne_zero hj hj0
      have hm := getD_pos hn d
      have ha := after_pos hn d
      have hle : after n d ≤ j := by
        by_contra hlt
        exact hne (by rw [digit, Nat.div_eq_of_lt (Nat.lt_of_not_le hlt), Nat.zero_mod])
      have hup : shiftIdx (n.getD d 1) (after n d) 1 (j - after n d) = j :=
        shiftIdx_one_sub hm ha hle hne
      have hlt : j - after n d < j := by omega
      rw [← hup, hf d hd _ (by omega), ih _ hlt (by omega), kernel_shiftIdx hn hd (hω d hd)]

end BenchFFT.Dft
