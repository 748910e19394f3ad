import BenchFFT.Dft

/-!
# The row-major DFT and mirrored indices

Let `σ` be an automorphism that inverts the roots of unity, as the complex conjugation does.
Applying `σ` to a transform mirrors it (`map_dft`), and mirroring the input mirrors the transform
(`dft_negIdx`).  So the transform of an array that `σ` fixes is hermitian (`dft_hermitian`), and
that of a hermitian array is fixed by `σ` (`map_dft_of_hermitian`).
-/

namespace BenchFFT.Dft

open Finset RowMajor

variable {K : Type*} [Field K] {n : List ℕ} {ω : ℕ → K} (hn : ∀ x ∈ n, 0 < x)

include hn

/-- Summing over the mirrored indices. -/
theorem sum_range_negIdx (f : ℕ → K) :
    ∑ x ∈ range n.prod, f (negIdx n x) = ∑ x ∈ range n.prod, f x :=
  sum_bij' (fun x _ => negIdx n x) (fun x _ => negIdx n x)
    (fun x _ => mem_range.mpr (negIdx_lt hn x)) (fun x _ => mem_range.mpr (negIdx_lt hn x))
    (fun _ hx => negIdx_negIdx hn (mem_range.mp hx))
    (fun _ hx => negIdx_negIdx hn (mem_range.mp hx)) fun _ _ => rfl

variable (hω : ∀ d < n.length, ω d ^ n.getD d 1 = 1)

include hω

/-- Mirroring an index inverts the kernel. -/
theorem kernel_negIdx (x : ℕ) {k : ℕ} (hk : k < n.prod) :
    kernel n ω x (negIdx n k) = (kernel n ω x k)⁻¹ := by
  unfold kernel
  rw [← prod_inv_distrib]
  refine prod_congr rfl fun d hd => ?_
  have hd := mem_range.mp hd
  have hlt := digit_lt hn d k
  have hphase : ω d ^ ((n.getD d 1 - digit n d k) % n.getD d 1) * ω d ^ digit n d k = 1 := by
    rw [← pow_eq_pow_mod _ (hω d hd), ← pow_add, Nat.sub_add_cancel hlt.le, hω d hd]
  apply eq_inv_of_mul_eq_one_left
  rw [digit_negIdx hn d hk hd, Nat.mul_comm, pow_mul, Nat.mul_comm, pow_mul, ← mul_pow, hphase,
    one_pow]

theorem dft_negIdx (A : ℕ → K) {k : ℕ} (hk : k < n.prod) :
    dft n ω (fun x => A (negIdx n x)) (negIdx n k) = dft n ω A k := by
  unfold dft
  rw [← sum_range_negIdx hn fun x => A x * kernel n ω x k]
  refine sum_congr rfl fun x hx => ?_
  rw [kernel_negIdx hn hω x hk, kernel_comm (negIdx n x), kernel_negIdx hn hω k (mem_range.mp hx),
    kernel_comm]

variable (σ : K →+* K) (hσ : ∀ d < n.length, σ (ω d) = (ω d)⁻¹)

include hσ

theorem map_dft (A : ℕ → K) {k : ℕ} (hk : k < n.prod) :
    σ (dft n ω A k) = dft n ω (fun x => σ (A x)) (negIdx n k) := by
  unfold dft
  rw [map_sum]
  refine sum_congr rfl fun x _ => ?_
  rw [map_mul, kernel_negIdx hn hω x hk, kernel, map_prod, ← prod_inv_distrib]
  congr 1
  refine prod_congr rfl fun d hd => ?_
  rw [map_pow, hσ d (mem_range.mp hd), inv_pow]

theorem dft_hermitian {A : ℕ → K} (hA : ∀ x < n.prod, σ (A x) = A x) {k : ℕ} (hk : k < n.prod) :
    dft n ω A (negIdx n k) = σ (dft n ω A k) := by
  rw [map_dft hn hω σ hσ A hk]
  exact dft_congr (fun x hx => (hA x hx).symm) _

theorem map_dft_of_hermitian {A : ℕ → K} (hA : ∀ x < n.prod, A (negIdx n x) = σ (A x)) {k : ℕ}
    (hk : k < n.prod) : σ (dft n ω A k) = dft n ω A k := by
  rw [map_dft hn hω σ hσ A hk, ← dft_negIdx hn hω A hk]
  exact dft_congr (fun x hx => (hA x hx).symm) _

end BenchFFT.Dft
