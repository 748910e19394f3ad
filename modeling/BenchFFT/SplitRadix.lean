import BenchFFT.Chirp
import Mathlib.Analysis.Complex.Basic
import Mathlib.NumberTheory.Padics.PadicVal.Basic

/-!
# The split-radix transform of real sequences

The transform of a real sequence is hermitian (`rdft_conj`), and is kept as real numbers: the
real parts first, and the imaginary parts from the end (`halfcomplex`).  A sequence of `4 * n`
numbers is split into its even entries and into two quarters of odd ones (`rdft_split`).  With
`P` and `Q` for the rotated entries `j` of the quarters, the entries `j` and `n - j` of the even
part give the entries `j`, `n - j`, `n + j` and `2 * n - j` of the whole (`rdft_first`,
`rdft_second`, `rdft_third`).
-/

namespace BenchFFT.SplitRadix

open Chirp Complex

/-- The transform of a real sequence. -/
noncomputable def rdft (n : ℕ) (ω : ℂ) (x : ℕ → ℝ) (k : ℕ) : ℂ :=
  dft n ω (fun j => (x j : ℂ)) k

/-- Cell `i` of a hermitian array of `n` entries. -/
noncomputable def halfcomplex (n : ℕ) (X : ℕ → ℂ) (i : ℕ) : ℝ :=
  if 2 * i ≤ n then (X i).re else (X (n - i)).im

theorem halfcomplex_re {n i : ℕ} (X : ℕ → ℂ) (h : 2 * i ≤ n) : halfcomplex n X i = (X i).re :=
  if_pos h

theorem halfcomplex_im {n i : ℕ} (X : ℕ → ℂ) (h0 : 0 < i) (h : 2 * i < n) :
    halfcomplex n X (n - i) = (X i).im := by
  have hback : n - (n - i) = i := by omega
  rw [halfcomplex, if_neg (by omega), hback]

theorem rdft_congr {n : ℕ} {ω : ℂ} {x y : ℕ → ℝ} (h : ∀ j < n, x j = y j) :
    rdft n ω x = rdft n ω y :=
  funext fun k => dft_congr (fun j hj => by rw [h j hj]) k

/-- A single number is its own transform. -/
theorem rdft_one (ω : ℂ) (x : ℕ → ℝ) (k : ℕ) : rdft 1 ω x k = x 0 := by
  simp [rdft, dft]

section Root

variable {n : ℕ} {ω : ℂ} (hunit : ω * starRingEnd ℂ ω = 1)

include hunit

theorem pow_conj_of_pow_eq_one {e e' : ℕ} (h : ω ^ (e + e') = 1) :
    ω ^ e' = starRingEnd ℂ (ω ^ e) := by
  have hinv : ω ^ e * starRingEnd ℂ (ω ^ e) = 1 := by rw [map_pow, ← mul_pow, hunit, one_pow]
  have hne : ω ^ e ≠ 0 := left_ne_zero_of_mul_eq_one hinv
  apply mul_left_cancel₀ hne
  rw [← pow_add, h, hinv]

/-- The transform of a real sequence is hermitian. -/
theorem rdft_conj (hω : ω ^ n = 1) (x : ℕ → ℝ) {k k' : ℕ} (h : n ∣ k + k') :
    rdft n ω x k' = starRingEnd ℂ (rdft n ω x k) := by
  obtain ⟨q, hq⟩ := h
  unfold rdft dft
  rw [map_sum]
  refine Finset.sum_congr rfl fun j _ => ?_
  have hpow : ω ^ (j * k + j * k') = 1 := by
    rw [← Nat.mul_add, hq, Nat.mul_left_comm, pow_mul, hω, one_pow]
  rw [map_mul, conj_ofReal, pow_conj_of_pow_eq_one hunit hpow]

end Root

/-! ### Splitting a sequence -/

section Split

variable {n : ℕ} {ω : ℂ} (x : ℕ → ℝ)

/-- The transform of the even entries. -/
noncomputable def evens (n : ℕ) (ω : ℂ) (x : ℕ → ℝ) : ℕ → ℂ :=
  rdft (2 * n) (ω ^ 2) (fun j => x (2 * j))

/-- The transform of every fourth entry, from the entry `r` on. -/
noncomputable def quarter (n : ℕ) (ω : ℂ) (x : ℕ → ℝ) (r : ℕ) : ℕ → ℂ :=
  rdft n (ω ^ 4) (fun j => x (4 * j + r))

/-- The entry `k` of the two quarters, rotated, and added. -/
noncomputable def oddSum (n : ℕ) (ω : ℂ) (x : ℕ → ℝ) (k : ℕ) : ℂ :=
  ω ^ k * quarter n ω x 1 k + ω ^ (3 * k) * quarter n ω x 3 k

noncomputable def oddDiff (n : ℕ) (ω : ℂ) (x : ℕ → ℝ) (k : ℕ) : ℂ :=
  ω ^ k * quarter n ω x 1 k - ω ^ (3 * k) * quarter n ω x 3 k

theorem rdft_split (k : ℕ) :
    rdft (4 * n) ω x k = evens n ω x k + oddSum n ω x k := by
  have hodd : dft (2 * n) (ω ^ 2) (fun j => (x (2 * j + 1) : ℂ)) k
      = quarter n ω x 1 k + (ω ^ 2) ^ k * quarter n ω x 3 k := by
    have h1 : ∀ j, 2 * (2 * j) + 1 = 4 * j + 1 := fun j => by ring
    have h3 : ∀ j, 2 * (2 * j + 1) + 1 = 4 * j + 3 := fun j => by ring
    simp only [dft_two_mul, ← pow_mul, h1, h3]
    rfl
  have hn : 4 * n = 2 * (2 * n) := by ring
  rw [rdft, hn, dft_two_mul, hodd, oddSum, evens, rdft]
  ring

variable (hquarter : ω ^ n = -I)

include hquarter

theorem pow_two_mul_of_quarter : ω ^ (2 * n) = -1 := by
  rw [Nat.mul_comm, pow_mul, hquarter, neg_sq, I_sq]

theorem pow_four_mul_of_quarter : ω ^ (4 * n) = 1 := by
  have h : 4 * n = 2 * n * 2 := by ring
  rw [h, pow_mul, pow_two_mul_of_quarter hquarter, neg_one_sq]

/-- The rotated entries of the quarters, a quarter turn on. -/
theorem oddSum_add (k : ℕ) : oddSum n ω x (k + n) = -I * oddDiff n ω x k := by
  have hperiod : ∀ r, quarter n ω x r (k + n) = quarter n ω x r k := fun r =>
    dft_add_self (by rw [← pow_mul]; exact pow_four_mul_of_quarter hquarter) _ k
  have hcube : ω ^ (3 * (k + n)) = I * ω ^ (3 * k) := by
    rw [Nat.mul_add, pow_add, Nat.mul_comm 3 n, pow_mul ω n, hquarter, neg_pow, I_pow_three]
    ring
  rw [oddSum, hperiod, hperiod, hcube, pow_add, hquarter, oddDiff]
  ring

theorem oddDiff_add (k : ℕ) : oddDiff n ω x (k + n) = -I * oddSum n ω x k := by
  have hperiod : ∀ r, quarter n ω x r (k + n) = quarter n ω x r k := fun r =>
    dft_add_self (by rw [← pow_mul]; exact pow_four_mul_of_quarter hquarter) _ k
  have hcube : ω ^ (3 * (k + n)) = I * ω ^ (3 * k) := by
    rw [Nat.mul_add, pow_add, Nat.mul_comm 3 n, pow_mul ω n, hquarter, neg_pow, I_pow_three]
    ring
  rw [oddDiff, hperiod, hperiod, hcube, pow_add, hquarter, oddSum]
  ring

variable (hunit : ω * starRingEnd ℂ ω = 1)

include hunit

theorem rdft_four_conj {k k' : ℕ} (h : 4 * n ∣ k + k') :
    rdft (4 * n) ω x k' = starRingEnd ℂ (rdft (4 * n) ω x k) :=
  rdft_conj hunit (pow_four_mul_of_quarter hquarter) x h

theorem evens_conj {k k' : ℕ} (h : 2 * n ∣ k + k') :
    evens n ω x k' = starRingEnd ℂ (evens n ω x k) := by
  refine rdft_conj ?_ ?_ _ h
  · rw [map_pow, ← mul_pow, hunit, one_pow]
  · rw [← pow_mul, show 2 * (2 * n) = 4 * n by ring, pow_four_mul_of_quarter hquarter]

variable {j : ℕ} (hj : j ≤ n)

include hj

theorem rdft_second :
    rdft (4 * n) ω x (n + j) = starRingEnd ℂ (evens n ω x (n - j)) - I * oddDiff n ω x j := by
  have hevens : evens n ω x (n + j) = starRingEnd ℂ (evens n ω x (n - j)) :=
    evens_conj x hquarter hunit ⟨1, by omega⟩
  rw [rdft_split, hevens, Nat.add_comm n j, oddSum_add x hquarter]
  ring

theorem rdft_first : rdft (4 * n) ω x (n - j)
    = evens n ω x (n - j) - I * starRingEnd ℂ (oddDiff n ω x j) := by
  -- the mirror image of the entry `3 * n + j`
  have hback : rdft (4 * n) ω x (n - j)
      = starRingEnd ℂ (rdft (4 * n) ω x (j + n + n + n)) :=
    rdft_four_conj x hquarter hunit ⟨1, by omega⟩
  have hevens : evens n ω x (j + n + n + n) = starRingEnd ℂ (evens n ω x (n - j)) :=
    evens_conj x hquarter hunit ⟨2, by omega⟩
  rw [hback, rdft_split, hevens, oddSum_add x hquarter, oddDiff_add x hquarter,
    oddSum_add x hquarter]
  simp only [map_add, map_mul, map_neg, conj_I, conj_conj, neg_neg]
  linear_combination (I * starRingEnd ℂ (oddDiff n ω x j)) * I_sq

theorem rdft_third : rdft (4 * n) ω x (2 * n - j)
    = starRingEnd ℂ (evens n ω x j - oddSum n ω x j) := by
  -- the mirror image of the entry `2 * n + j`
  have hback : rdft (4 * n) ω x (2 * n - j)
      = starRingEnd ℂ (rdft (4 * n) ω x (j + n + n)) :=
    rdft_four_conj x hquarter hunit ⟨1, by omega⟩
  have hevens : evens n ω x (j + n + n) = evens n ω x j := by
    have h : evens n ω x (2 * n - j) = starRingEnd ℂ (evens n ω x j) :=
      evens_conj x hquarter hunit ⟨1, by omega⟩
    have h' : evens n ω x (j + n + n) = starRingEnd ℂ (evens n ω x (2 * n - j)) :=
      evens_conj x hquarter hunit ⟨2, by omega⟩
    rw [h', h, conj_conj]
  rw [hback, rdft_split, hevens, oddSum_add x hquarter, oddDiff_add x hquarter]
  congr 1
  linear_combination oddSum n ω x j * I_sq

end Split

/-! ### The blocks of the decomposition

A whole block consists of a half, which is a whole block, and of two quarters, which are the halves
of a block that is not whole. -/

/-- Block `q` of its size is transformed as a whole. -/
def Whole (q : ℕ) : Prop := Even (padicValNat 2 (q + 1))

instance : DecidablePred Whole := fun q =>
  inferInstanceAs (Decidable (Even (padicValNat 2 (q + 1))))

theorem whole_two_mul (q : ℕ) : Whole (2 * q) := by
  have h : padicValNat 2 (2 * q + 1) = 0 := padicValNat.eq_zero_of_not_dvd (by omega)
  rw [Whole, h]
  exact Even.zero

theorem whole_two_mul_add_one (q : ℕ) : Whole (2 * q + 1) ↔ ¬Whole q := by
  have h : padicValNat 2 (2 * q + 1 + 1) = padicValNat 2 (q + 1) + 1 := by
    rw [show 2 * q + 1 + 1 = 2 * (q + 1) by ring, padicValNat.mul two_ne_zero q.succ_ne_zero,
      padicValNat_self, add_comm]
  rw [Whole, h, Nat.even_add_one, Whole]

/-- Of the blocks of turn `e`, the first is `4 ^ e - 1`, and there are `2 * 4 ^ e` from one to the
next. -/
theorem padicValNat_eq_iff (e q : ℕ) :
    padicValNat 2 (q + 1) = 2 * e ↔ ∃ j, q + 1 = 4 ^ e * (2 * j + 1) := by
  have hfour : 4 ^ e = 2 ^ (2 * e) := by rw [pow_mul, show 2 ^ 2 = 4 by rfl]
  constructor
  · intro he
    obtain ⟨r, hr⟩ := pow_padicValNat_dvd (p := 2) (n := q + 1)
    have hodd : ¬2 ∣ r := by
      rintro ⟨j, rfl⟩
      refine pow_succ_padicValNat_not_dvd (p := 2) q.succ_ne_zero ⟨j, ?_⟩
      rw [pow_succ, mul_assoc]
      exact hr
    refine ⟨r / 2, ?_⟩
    have hr2 : 2 * (r / 2) + 1 = r := by omega
    rw [hr2, hfour, ← he]
    exact hr
  · rintro ⟨j, h⟩
    have hval : padicValNat 2 (2 * j + 1) = 0 := padicValNat.eq_zero_of_not_dvd (by omega)
    rw [h, hfour, padicValNat.mul (pow_ne_zero _ two_ne_zero) (by omega), hval,
      padicValNat.prime_pow, add_zero]

end BenchFFT.SplitRadix
