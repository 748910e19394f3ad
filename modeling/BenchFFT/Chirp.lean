import Mathlib.Algebra.BigOperators.Ring.Finset
import Mathlib.Algebra.Field.Basic
import Mathlib.Algebra.Field.GeomSum
import Mathlib.RingTheory.RootsOfUnity.PrimitiveRoots
import Mathlib.Tactic.LinearCombination
import Mathlib.Tactic.Ring

/-!
# One-dimensional transforms and chirps

`dft n ω a k = ∑_{j<n} a j ω^(jk)`, its inverse (`dft_inv_dft`) and Parseval's identity
(`sum_dft_mul_dft_inv`), and three ways to compute it from smaller pieces:

* from the transforms of the even and of the odd entries (`dft_two_mul`), or of the entries of each
  remainder (`dft_mul`);
* pointwise products become cyclic convolutions (`dft_inv_dft_mul`);
* as a cyclic convolution with the chirp `w k = ρ^(k^2)`, `ρ^2 = ω` (`dft_eq_chirp`): this works for
  every size, and the length of the convolution is free as long as the two copies of the chirp in
  the wrapped sequence stay apart (`Wrapped`).
-/

namespace BenchFFT.Chirp

open Finset

section Ring

variable {K : Type*} [CommRing K]

def dft (n : ℕ) (ω : K) (a : ℕ → K) (k : ℕ) : K := ∑ j ∈ range n, a j * ω ^ (j * k)

theorem dft_congr {n : ℕ} {ω : K} {a b : ℕ → K} (h : ∀ j < n, a j = b j) (k : ℕ) :
    dft n ω a k = dft n ω b k :=
  sum_congr rfl fun j hj => by rw [h j (mem_range.mp hj)]

theorem dft_add_self {n : ℕ} {ω : K} (hω : ω ^ n = 1) (a : ℕ → K) (k : ℕ) :
    dft n ω a (k + n) = dft n ω a k := by
  refine sum_congr rfl fun j _ => ?_
  rw [Nat.mul_add, pow_add, Nat.mul_comm j n, pow_mul ω n j, hω, one_pow, mul_one]

theorem sum_range_two_mul (n : ℕ) (f : ℕ → K) :
    ∑ j ∈ range (2 * n), f j = ∑ j ∈ range n, f (2 * j) + ∑ j ∈ range n, f (2 * j + 1) := by
  induction n with
  | zero => simp
  | succ n ih =>
    rw [Nat.mul_succ, sum_range_succ, sum_range_succ, ih, sum_range_succ, sum_range_succ]
    ring

/-- **Decimation in time.** -/
theorem dft_two_mul (n : ℕ) (ω : K) (a : ℕ → K) (k : ℕ) :
    dft (2 * n) ω a k
      = dft n (ω ^ 2) (fun j => a (2 * j)) k
        + ω ^ k * dft n (ω ^ 2) (fun j => a (2 * j + 1)) k := by
  rw [dft, sum_range_two_mul, dft, dft, mul_sum]
  congr 1 <;> refine sum_congr rfl fun j _ => ?_
  · rw [← pow_mul, Nat.mul_assoc]
  · rw [← pow_mul, Nat.add_mul, Nat.one_mul, pow_add, Nat.mul_assoc]
    ring

theorem sum_range_mul (c n : ℕ) (f : ℕ → K) :
    ∑ j ∈ range (c * n), f j = ∑ r ∈ range c, ∑ m ∈ range n, f (r + c * m) := by
  induction n with
  | zero => simp
  | succ n ih =>
    have hlast : ∑ r ∈ range c, f (c * n + r) = ∑ r ∈ range c, f (r + c * n) :=
      sum_congr rfl fun r _ => by rw [Nat.add_comm]
    rw [Nat.mul_succ, sum_range_add, ih, hlast, ← sum_add_distrib]
    exact sum_congr rfl fun r _ => (sum_range_succ _ n).symm

/-- **Decimation in time**, by any factor. -/
theorem dft_mul (c n : ℕ) (ω : K) (a : ℕ → K) (k : ℕ) :
    dft (c * n) ω a k
      = ∑ r ∈ range c, ω ^ (r * k) * dft n (ω ^ c) (fun m => a (r + c * m)) k := by
  rw [dft, sum_range_mul]
  refine sum_congr rfl fun r _ => ?_
  rw [dft, mul_sum]
  refine sum_congr rfl fun m _ => ?_
  rw [← pow_mul, Nat.add_mul, pow_add, Nat.mul_assoc]
  ring

theorem dft_mod {n : ℕ} {ω : K} (hω : ω ^ n = 1) (a : ℕ → K) (k : ℕ) :
    dft n ω a (k % n) = dft n ω a k := by
  refine sum_congr rfl fun j _ => ?_
  conv_rhs => rw [← Nat.mod_add_div k n]
  rw [Nat.mul_add, pow_add, Nat.mul_left_comm, pow_mul ω n, hω, one_pow, mul_one]

/-- The second half of the outputs, for a root of order `2 * n`. -/
theorem dft_two_mul_add {n : ℕ} {ω : K} (hω : ω ^ n = -1) (a : ℕ → K) (k : ℕ) :
    dft (2 * n) ω a (k + n)
      = dft n (ω ^ 2) (fun j => a (2 * j)) k
        - ω ^ k * dft n (ω ^ 2) (fun j => a (2 * j + 1)) k := by
  have hω2 : (ω ^ 2) ^ n = 1 := by rw [← pow_mul, Nat.mul_comm, pow_mul, hω, neg_one_sq]
  rw [dft_two_mul, dft_add_self hω2, dft_add_self hω2, pow_add, hω]
  ring

end Ring

/-! ### Convolution -/

section Field

variable {K : Type*} [Field K] {n : ℕ} {ω : K}

theorem sum_pow_eq_zero {x : K} (hx : x ^ n = 1) (hne : x ≠ 1) : ∑ k ∈ range n, x ^ k = 0 := by
  have h := geom_sum_mul x n
  rw [hx, sub_self] at h
  exact (mul_eq_zero.mp h).resolve_right (sub_ne_zero.mpr hne)

/-- Orthogonality of the characters. -/
theorem sum_pow_mul_inv_pow (hω : IsPrimitiveRoot ω n) (hn : 0 < n) (i j : ℕ) :
    ∑ k ∈ range n, ω ^ (i * k) * ω⁻¹ ^ (j * k) = if i % n = j % n then (n : K) else 0 := by
  have h0 : ω ≠ 0 := hω.ne_zero hn.ne'
  have hterm : ∀ k, ω ^ (i * k) * ω⁻¹ ^ (j * k) = (ω ^ i * (ω ^ j)⁻¹) ^ k := by
    intro k
    rw [mul_pow, inv_pow, inv_pow, pow_mul, pow_mul]
  have hpow : ∀ e, ω ^ (e % n) = ω ^ e := fun e => by
    conv_rhs => rw [← Nat.div_add_mod e n, pow_add, pow_mul, hω.pow_eq_one, one_pow, one_mul]
  simp only [hterm]
  split_ifs with h
  · rw [← hpow i, h, hpow j, mul_inv_cancel₀ (pow_ne_zero j h0)]
    simp
  · refine sum_pow_eq_zero ?_ fun h1 => h ?_
    · rw [mul_pow, inv_pow, ← pow_mul, ← pow_mul, Nat.mul_comm i, Nat.mul_comm j, pow_mul, pow_mul,
        hω.pow_eq_one, one_pow, one_pow, inv_one, mul_one]
    · rw [mul_inv_eq_one₀ (pow_ne_zero j h0), ← hpow i, ← hpow j] at h1
      exact hω.pow_inj (Nat.mod_lt i hn) (Nat.mod_lt j hn) h1

/-- **Inversion**: up to the factor `n`, the transform with `ω⁻¹` undoes the one with `ω`. -/
theorem dft_inv_dft (hω : IsPrimitiveRoot ω n) (a : ℕ → K) {m : ℕ} (hm : m < n) :
    dft n ω⁻¹ (dft n ω a) m = n * a m := by
  have hterm : ∀ j ∈ range n, ∑ k ∈ range n, a j * (ω ^ (j * k) * ω⁻¹ ^ (m * k))
      = if m = j then n * a j else 0 := by
    intro j hj
    rw [← mul_sum, sum_pow_mul_inv_pow hω (by omega), Nat.mod_eq_of_lt (mem_range.mp hj),
      Nat.mod_eq_of_lt hm, mul_ite, mul_zero, mul_comm]
    exact if_congr eq_comm rfl rfl
  calc dft n ω⁻¹ (dft n ω a) m
      = ∑ j ∈ range n, ∑ k ∈ range n, a j * (ω ^ (j * k) * ω⁻¹ ^ (m * k)) := by
        rw [sum_comm]
        refine sum_congr rfl fun k _ => ?_
        rw [dft, sum_mul, Nat.mul_comm k m]
        exact sum_congr rfl fun j _ => mul_assoc _ _ _
    _ = n * a m := by rw [sum_congr rfl hterm, sum_ite_eq, if_pos (mem_range.mpr hm)]

/-- `b` is the transform of `a` when `a` is the inverse transform of `b`. -/
theorem eq_dft_iff (hω : IsPrimitiveRoot ω n) (hn : (n : K) ≠ 0) (a b : ℕ → K) :
    (∀ k < n, b k = dft n ω a k) ↔ ∀ k < n, a k = (n : K)⁻¹ * dft n ω⁻¹ b k := by
  constructor
  · intro h k hk
    rw [dft_congr h, dft_inv_dft hω a hk, inv_mul_cancel_left₀ hn]
  · intro h k hk
    have hinv := dft_inv_dft hω.inv b hk
    rw [inv_inv] at hinv
    calc b k = (n : K)⁻¹ * dft n ω (dft n ω⁻¹ b) k := by rw [hinv, inv_mul_cancel_left₀ hn]
      _ = dft n ω a k := by
        rw [dft, dft, mul_sum]
        refine sum_congr rfl fun j hj => ?_
        rw [h j (mem_range.mp hj), mul_assoc]

/-- **Parseval's identity**, for the two transforms. -/
theorem sum_dft_mul_dft_inv (hω : IsPrimitiveRoot ω n) (a b : ℕ → K) :
    ∑ k ∈ range n, dft n ω a k * dft n ω⁻¹ b k = n * ∑ j ∈ range n, a j * b j := by
  have hterm : ∀ k, dft n ω a k * dft n ω⁻¹ b k
      = ∑ j ∈ range n, b j * (dft n ω a k * ω⁻¹ ^ (k * j)) := by
    intro k
    have hdef : dft n ω⁻¹ b k = ∑ j ∈ range n, b j * ω⁻¹ ^ (j * k) := rfl
    rw [hdef, mul_sum]
    refine sum_congr rfl fun j _ => ?_
    rw [Nat.mul_comm j k]
    ring
  calc ∑ k ∈ range n, dft n ω a k * dft n ω⁻¹ b k
      = ∑ j ∈ range n, b j * dft n ω⁻¹ (dft n ω a) j := by
        rw [sum_congr rfl fun k _ => hterm k, sum_comm]
        exact sum_congr rfl fun j _ => (mul_sum _ _ _).symm
    _ = n * ∑ j ∈ range n, a j * b j := by
        rw [mul_sum]
        refine sum_congr rfl fun j hj => ?_
        rw [dft_inv_dft hω a (mem_range.mp hj)]
        ring

/-- **Convolution**: the inverse transform of a product of transforms. -/
theorem dft_inv_dft_mul (hω : IsPrimitiveRoot ω n) (b y : ℕ → K) {m : ℕ} (hm : m < n) :
    dft n ω⁻¹ (fun k => dft n ω b k * dft n ω y k) m
      = n * ∑ j ∈ range n, b j * y ((m + (n - j)) % n) := by
  have hn : 0 < n := by omega
  -- the coefficient of `b j * y l`
  have hcoeff : ∀ j < n, ∀ l < n, ∑ k ∈ range n, ω ^ ((j + l) * k) * ω⁻¹ ^ (m * k)
      = if (m + (n - j)) % n = l then (n : K) else 0 := by
    intro j hj l hl
    rw [sum_pow_mul_inv_pow hω hn, Nat.mod_eq_of_lt hm]
    refine if_congr ?_ rfl rfl
    have h1 : (j + l) % n = if j + l < n then j + l else j + l - n := by
      split_ifs with h
      · exact Nat.mod_eq_of_lt h
      · rw [Nat.mod_eq_sub_mod (by omega), Nat.mod_eq_of_lt (by omega)]
    have h2 : (m + (n - j)) % n = if m < j then m + (n - j) else m - j := by
      split_ifs with h
      · exact Nat.mod_eq_of_lt (by omega)
      · rw [Nat.mod_eq_sub_mod (by omega), Nat.mod_eq_of_lt (by omega)]
        omega
    rw [h1, h2]
    split_ifs <;> omega
  have hsplit : ∀ k, dft n ω b k * dft n ω y k * ω⁻¹ ^ (k * m)
      = ∑ j ∈ range n, ∑ l ∈ range n, b j * y l * (ω ^ ((j + l) * k) * ω⁻¹ ^ (m * k)) := by
    intro k
    rw [dft, dft, sum_mul_sum, sum_mul]
    refine sum_congr rfl fun j _ => ?_
    rw [sum_mul]
    refine sum_congr rfl fun l _ => ?_
    rw [Nat.add_mul, pow_add, Nat.mul_comm m k]
    ring
  calc dft n ω⁻¹ (fun k => dft n ω b k * dft n ω y k) m
      = ∑ j ∈ range n, ∑ l ∈ range n, b j * y l *
          ∑ k ∈ range n, ω ^ ((j + l) * k) * ω⁻¹ ^ (m * k) := by
        rw [dft, sum_congr rfl fun k _ => hsplit k, sum_comm]
        refine sum_congr rfl fun j _ => ?_
        rw [sum_comm]
        exact sum_congr rfl fun l _ => (mul_sum _ _ _).symm
    _ = ∑ j ∈ range n, b j * y ((m + (n - j)) % n) * n := by
        refine sum_congr rfl fun j hj => ?_
        rw [sum_congr rfl fun l hl => by
          rw [hcoeff j (mem_range.mp hj) l (mem_range.mp hl), mul_ite, mul_zero],
          sum_ite_eq, if_pos (mem_range.mpr (Nat.mod_lt _ hn))]
    _ = n * ∑ j ∈ range n, b j * y ((m + (n - j)) % n) := by
        rw [← sum_mul, mul_comm]

/-! ### Chirps -/

/-- `y` holds `w` from the start upwards and from the end `nb` downwards, and zeros between. -/
structure Wrapped (n nb : ℕ) (w y : ℕ → K) : Prop where
  head : ∀ i < n, y i = w i
  tail : ∀ i, 0 < i → i < n → y (nb - i) = w i

variable {ρ : K} {nb : ℕ} {w y : ℕ → K}

omit [Field K] in
/-- The entry of a wrapped sequence that a convolution pairs with entry `j` of its input. -/
theorem Wrapped.apply (h : Wrapped n nb w y) (hnb : 2 * n ≤ nb) {j k : ℕ} (hj : j < n)
    (hk : k < n) : y ((k + (nb - j)) % nb) = w (if j ≤ k then k - j else j - k) := by
  split_ifs with hjk
  · rw [Nat.mod_eq_sub_mod (by omega), Nat.mod_eq_of_lt (by omega),
      show k + (nb - j) - nb = k - j by omega, h.head _ (by omega)]
  · rw [Nat.mod_eq_of_lt (by omega), show k + (nb - j) = nb - (j - k) by omega,
      h.tail _ (by omega) (by omega)]

/-- **The chirp identity**: with `w k = ρ^(k^2)`, the transform by the root `ρ^(-2)` is a cyclic
convolution with `w`, between two multiplications by the inverse of `w`. -/
theorem dft_eq_chirp (hρ : ρ ≠ 0) (hw : ∀ k, w k = ρ ^ (k * k)) (hy : Wrapped n nb w y)
    (hnb : 2 * n ≤ nb) (a b : ℕ → K) (hb : ∀ j < n, b j = (w j)⁻¹ * a j)
    (hb0 : ∀ j, n ≤ j → j < nb → b j = 0) {k : ℕ} (hk : k < n) :
    (w k)⁻¹ * ∑ j ∈ range nb, b j * y ((k + (nb - j)) % nb) = dft n (ρ ^ 2)⁻¹ a k := by
  -- the padding is zero
  have hrest : ∑ j ∈ range nb, b j * y ((k + (nb - j)) % nb)
      = ∑ j ∈ range n, b j * y ((k + (nb - j)) % nb) := by
    symm
    refine sum_subset (range_subset_range.mpr (by omega)) fun j hj hjn => ?_
    rw [mem_range] at hj hjn
    rw [hb0 j (by omega) hj, zero_mul]
  rw [hrest, mul_sum, dft]
  refine sum_congr rfl fun j hj => ?_
  rw [mem_range] at hj
  rw [hy.apply hnb hj hk, hb j hj, hw, hw, hw, inv_pow, ← pow_mul]
  -- `(k - j)^2 + 2 * j * k = k^2 + j^2`
  have key : ρ ^ ((if j ≤ k then k - j else j - k) * (if j ≤ k then k - j else j - k))
      * ρ ^ (2 * (j * k)) = ρ ^ (k * k) * ρ ^ (j * j) := by
    rw [← pow_add, ← pow_add]
    congr 1
    split_ifs with hjk
    · obtain ⟨d, rfl⟩ := Nat.exists_eq_add_of_le hjk
      rw [Nat.add_sub_cancel_left]
      ring
    · obtain ⟨d, rfl⟩ := Nat.exists_eq_add_of_le (Nat.le_of_not_le hjk)
      rw [Nat.add_sub_cancel_left]
      ring
  field_simp
  linear_combination a j * key

end Field

end BenchFFT.Chirp
