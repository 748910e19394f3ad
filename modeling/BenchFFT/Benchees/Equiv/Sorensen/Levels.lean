import BenchFFT.Mp.Equiv.Bitrev
import BenchFFT.SplitRadix
import BenchFFT.Verify.Equiv.Tests

/-!
# The levels of a split-radix transform

The cells of a sequence of `2 ^ M` numbers in bit-reversed order are transformed level by level.  At
level `t` a whole block of `2 ^ t` cells holds the transform of the entries that start at
`rev (M - t) q` with stride `2 ^ (M - t)`, and each half of any other block holds a transform of its
own (`level`).
-/

namespace BenchFFT.Sorensen

open Complex Mp SplitRadix

section Level

variable (w : ℕ → ℝ) (X : ℕ → ℕ → ℕ → ℂ)

/-- Cell `i` at level `t`, where block `q` of level `t` has the transform `X t q`, and is multiplied
by `w t`. -/
noncomputable def level (t i : ℕ) : ℝ :=
  if Whole (i / 2 ^ t) then w t * halfcomplex (2 ^ t) (X t (i / 2 ^ t)) (i % 2 ^ t)
  else w (t - 1) * halfcomplex (2 ^ (t - 1)) (X (t - 1) (i / 2 ^ (t - 1))) (i % 2 ^ (t - 1))

variable {w X} {t q r : ℕ}

theorem level_whole (hq : Whole q) (hr : r < 2 ^ t) :
    level w X t (q * 2 ^ t + r) = w t * halfcomplex (2 ^ t) (X t q) r := by
  rw [level, row_div hr, if_pos hq, row_mod hr]

/-- A half of a block that is not whole. -/
theorem level_half (hq : ¬Whole (q / 2)) (hr : r < 2 ^ t) :
    level w X (t + 1) (q * 2 ^ t + r) = w t * halfcomplex (2 ^ t) (X t q) r := by
  have hdiv : (q * 2 ^ t + r) / 2 ^ (t + 1) = q / 2 := by
    rw [pow_succ, ← Nat.div_div_eq_div_mul, row_div hr]
  rw [level, hdiv, if_neg hq, Nat.add_sub_cancel, row_div hr, row_mod hr]

/-- At the next level only the whole blocks have changed. -/
theorem level_succ_of_not_whole {i : ℕ} (h : ¬Whole (i / 2 ^ (t + 1))) :
    level w X (t + 1) i = level w X t i := by
  have hhalf : i / 2 ^ (t + 1) = i / 2 ^ t / 2 := by rw [pow_succ, Nat.div_div_eq_div_mul]
  have hwhole : Whole (i / 2 ^ t) := by
    rcases Nat.even_or_odd' (i / 2 ^ t) with ⟨q, hq | hq⟩
    · rw [hq]
      exact whole_two_mul q
    · rw [hq, whole_two_mul_add_one]
      rwa [hhalf, hq, show (2 * q + 1) / 2 = q by omega] at h
  rw [level, if_neg h, Nat.add_sub_cancel, level, if_pos hwhole]

theorem level_zero (i : ℕ) : level w X 0 i = w 0 * (X 0 i 0).re := by
  have hre : halfcomplex (2 ^ 0) (X 0 i) 0 = (X 0 i 0).re := halfcomplex_re _ (Nat.zero_le _)
  unfold level
  rw [Nat.pow_zero, Nat.div_one, Nat.mod_one, ← hre]
  exact ite_self _

end Level

/-! ### The cells of a block

A block of `4 * n4` cells starts at cell `p`; at the level below, its first half is a whole block,
and its other two quarters are the halves of a block that is not. -/

section Cells

variable {w : ℕ → ℝ} {X : ℕ → ℕ → ℕ → ℂ} {s q n4 p i j : ℕ} (hn4 : n4 = 2 ^ s)
  (hp : p = q * (4 * n4))

include hn4 hp

theorem evens_re (hj : j ≤ n4) (hi : i = p + j) :
    level w X (s + 1) i = w (s + 1) * (X (s + 1) (2 * q) j).re := by
  have hpow : 2 ^ (s + 1) = 2 * n4 := by rw [hn4]; ring
  have hpos : 0 < n4 := hn4 ▸ Nat.two_pow_pos s
  rw [hi, hp, show q * (4 * n4) = 2 * q * 2 ^ (s + 1) by rw [hpow]; ring,
    level_whole (whole_two_mul q) (by omega), halfcomplex_re _ (by omega)]

theorem evens_im (h0 : 0 < j) (hj : j < n4) (hi : i = p + (2 * n4 - j)) :
    level w X (s + 1) i = w (s + 1) * (X (s + 1) (2 * q) j).im := by
  have hpow : 2 ^ (s + 1) = 2 * n4 := by rw [hn4]; ring
  rw [hi, hp, show q * (4 * n4) = 2 * q * 2 ^ (s + 1) by rw [hpow]; ring, ← hpow,
    level_whole (whole_two_mul q) (by omega), halfcomplex_im _ h0 (by omega)]

variable (hq : Whole q)

include hq

theorem block_re (hj : j ≤ 2 * n4) (hi : i = p + j) :
    level w X (s + 2) i = w (s + 2) * (X (s + 2) q j).re := by
  have hpow : 2 ^ (s + 2) = 4 * n4 := by rw [hn4]; ring
  have hpos : 0 < n4 := hn4 ▸ Nat.two_pow_pos s
  rw [hi, hp, ← hpow, level_whole hq (by omega), halfcomplex_re _ (by omega)]

theorem block_im (h0 : 0 < j) (hj : j < 2 * n4) (hi : i = p + (4 * n4 - j)) :
    level w X (s + 2) i = w (s + 2) * (X (s + 2) q j).im := by
  have hpow : 2 ^ (s + 2) = 4 * n4 := by rw [hn4]; ring
  rw [hi, hp, ← hpow, level_whole hq (by omega), halfcomplex_im _ h0 (by omega)]

/-- The third quarter, where `b` is `2`, and the fourth one, where `b` is `3`. -/
theorem quarter_eq {b : ℕ} (hb : b / 2 = 1) (hj : j < n4) (hi : i = p + (b * n4 + j)) :
    level w X (s + 1) i = w s * halfcomplex n4 (X s (4 * q + b)) j := by
  have hnot : ¬Whole ((4 * q + b) / 2) := by
    rw [show (4 * q + b) / 2 = 2 * q + 1 by omega, whole_two_mul_add_one]
    exact not_not.mpr hq
  have hindex : i = (4 * q + b) * 2 ^ s + j := by
    rw [hi, hp, hn4]
    ring
  rw [hindex, level_half hnot (hn4 ▸ hj), hn4]

theorem quarter_re {b : ℕ} (hb : b / 2 = 1) (hj : 2 * j ≤ n4) (hi : i = p + (b * n4 + j)) :
    level w X (s + 1) i = w s * (X s (4 * q + b) j).re := by
  have hpos : 0 < n4 := hn4 ▸ Nat.two_pow_pos s
  rw [quarter_eq hn4 hp hq hb (by omega) hi, halfcomplex_re _ hj]

theorem quarter_im {b : ℕ} (hb : b / 2 = 1) (h0 : 0 < j) (hj : 2 * j < n4)
    (hi : i = p + (b * n4 + (n4 - j))) :
    level w X (s + 1) i = w s * (X s (4 * q + b) j).im := by
  rw [quarter_eq hn4 hp hq hb (by omega) hi, halfcomplex_im _ h0 hj]

end Cells

/-! ### Roots -/

theorem root_pow (n j : ℕ) : Verify.root (-1) n ^ j = ⟨Real.cos (j * (Verify.exactTrig.k2pi / n)),
    -Real.sin (j * (Verify.exactTrig.k2pi / n))⟩ := by
  have harg : (j : ℂ) * (((-1 : ℤ) : ℂ) * ((2 : ℂ) * Real.pi * Complex.I / n))
      = ((-(j * (Verify.exactTrig.k2pi / n)) : ℝ) : ℂ) * Complex.I := by
    unfold Verify.exactTrig
    push_cast
    ring
  rw [Verify.root, ← Complex.exp_nat_mul, harg]
  apply Complex.ext
  · rw [Complex.exp_ofReal_mul_I_re, Real.cos_neg]
  · rw [Complex.exp_ofReal_mul_I_im, Real.sin_neg]

theorem root_quarter {n : ℕ} (hn : 0 < n) : Verify.root (-1) (4 * n) ^ n = -I := by
  have hn' : (n : ℝ) ≠ 0 := Nat.cast_ne_zero.mpr hn.ne'
  have harg : (n : ℝ) * (Verify.exactTrig.k2pi / (4 * n : ℕ)) = Real.pi / 2 := by
    unfold Verify.exactTrig
    push_cast
    field_simp
    ring
  rw [root_pow, harg, Real.cos_pi_div_two, Real.sin_pi_div_two]
  apply Complex.ext
  · rw [neg_re, I_re, neg_zero]
  · rw [neg_im, I_im]

theorem root_eighth {n : ℕ} (hn : 0 < n) :
    Verify.root (-1) (8 * n) ^ n = ⟨√2 / (2 : ℕ), -(√2 / (2 : ℕ))⟩ := by
  have hn' : (n : ℝ) ≠ 0 := Nat.cast_ne_zero.mpr hn.ne'
  have harg : (n : ℝ) * (Verify.exactTrig.k2pi / (8 * n : ℕ)) = Real.pi / 4 := by
    unfold Verify.exactTrig
    push_cast
    field_simp
    ring
  rw [root_pow, harg, Real.cos_pi_div_four, Real.sin_pi_div_four, Nat.cast_ofNat]

theorem root_mul_conj (sign : ℤ) (n : ℕ) :
    Verify.root sign n * starRingEnd ℂ (Verify.root sign n) = 1 := by
  have harg : (sign * (2 * Real.pi * I / n) : ℂ) = ((sign * (2 * Real.pi / n) : ℝ) : ℂ) * I := by
    push_cast
    ring
  rw [Verify.root, harg, ← Complex.exp_conj, ← Complex.exp_add, map_mul, conj_ofReal, conj_I,
    mul_neg, add_neg_cancel, Complex.exp_zero]

/-! ### The transforms of the blocks -/

section Spectra

variable (M : ℕ) (x : ℕ → ℝ)

/-- The entries of block `q` of level `t`. -/
def part (t q j : ℕ) : ℝ := x (rev (M - t) q + 2 ^ (M - t) * j)

noncomputable def spectra (t q : ℕ) : ℕ → ℂ :=
  rdft (2 ^ t) (Verify.root (-1) (2 ^ t)) (part M x t q)

/-- Entry `j` of the third quarter, rotated. -/
noncomputable def thirdTurned (s q j : ℕ) : ℂ :=
  Verify.root (-1) (4 * 2 ^ s) ^ j * spectra M x s (4 * q + 2) j

/-- Entry `j` of the fourth quarter, rotated. -/
noncomputable def fourthTurned (s q j : ℕ) : ℂ :=
  Verify.root (-1) (4 * 2 ^ s) ^ (3 * j) * spectra M x s (4 * q + 3) j

variable {M} {s q : ℕ}

theorem spectra_block :
    spectra M x (s + 2) q
      = rdft (4 * 2 ^ s) (Verify.root (-1) (4 * 2 ^ s)) (part M x (s + 2) q) := by
  rw [spectra, show 2 ^ (s + 2) = 4 * 2 ^ s by ring]

/-- An entry that is its own mirror image. -/
theorem spectra_im {t j : ℕ} (h : 2 ^ t ∣ 2 * j) : (spectra M x t q j).im = 0 := by
  rw [Nat.two_mul] at h
  have hroot := Verify.root_pow_self (-1) (Nat.two_pow_pos t)
  exact conj_eq_iff_im.mp (rdft_conj (root_mul_conj _ _) hroot _ h).symm

variable (hs : s + 2 ≤ M)

include hs

theorem part_evens (j : ℕ) : part M x (s + 1) (2 * q) j = part M x (s + 2) q (2 * j) := by
  obtain ⟨d, rfl⟩ := Nat.exists_eq_add_of_le hs
  have h1 : s + 2 + d - (s + 1) = d + 1 := by omega
  have h2 : s + 2 + d - (s + 2) = d := by omega
  rw [part, part, h1, h2, rev_two_mul, pow_succ, Nat.mul_assoc]

theorem part_third (j : ℕ) : part M x s (4 * q + 2) j = part M x (s + 2) q (4 * j + 1) := by
  obtain ⟨d, rfl⟩ := Nat.exists_eq_add_of_le hs
  have h1 : s + 2 + d - s = d + 2 := by omega
  have h2 : s + 2 + d - (s + 2) = d := by omega
  rw [part, part, h1, h2, show 4 * q + 2 = 2 * (2 * q + 1) by ring, rev_two_mul,
    rev_two_mul_add_one]
  congr 1
  ring

theorem part_fourth (j : ℕ) : part M x s (4 * q + 3) j = part M x (s + 2) q (4 * j + 3) := by
  obtain ⟨d, rfl⟩ := Nat.exists_eq_add_of_le hs
  have h1 : s + 2 + d - s = d + 2 := by omega
  have h2 : s + 2 + d - (s + 2) = d := by omega
  rw [part, part, h1, h2, show 4 * q + 3 = 2 * (2 * q + 1) + 1 by ring, rev_two_mul_add_one,
    rev_two_mul_add_one]
  congr 1
  ring

theorem spectra_evens : spectra M x (s + 1) (2 * q)
    = evens (2 ^ s) (Verify.root (-1) (4 * 2 ^ s)) (part M x (s + 2) q) := by
  have hroot : Verify.root (-1) (4 * 2 ^ s) ^ 2 = Verify.root (-1) (2 * 2 ^ s) := by
    rw [show 4 * 2 ^ s = 2 * (2 * 2 ^ s) by ring, Verify.root_mul_pow (-1) two_pos]
  rw [spectra, evens, hroot, show 2 ^ (s + 1) = 2 * 2 ^ s by ring]
  exact rdft_congr fun j _ => part_evens x hs j

theorem spectra_third : spectra M x s (4 * q + 2)
    = quarter (2 ^ s) (Verify.root (-1) (4 * 2 ^ s)) (part M x (s + 2) q) 1 := by
  rw [spectra, quarter, Verify.root_mul_pow (-1) four_pos]
  exact rdft_congr fun j _ => part_third x hs j

theorem spectra_fourth : spectra M x s (4 * q + 3)
    = quarter (2 ^ s) (Verify.root (-1) (4 * 2 ^ s)) (part M x (s + 2) q) 3 := by
  rw [spectra, quarter, Verify.root_mul_pow (-1) four_pos]
  exact rdft_congr fun j _ => part_fourth x hs j

/-! The entries of a block, from those of its parts. -/

theorem oddSum_eq (j : ℕ) : oddSum (2 ^ s) (Verify.root (-1) (4 * 2 ^ s)) (part M x (s + 2) q) j
    = thirdTurned M x s q j + fourthTurned M x s q j := by
  rw [thirdTurned, fourthTurned, spectra_third x hs, spectra_fourth x hs, oddSum]

theorem oddDiff_eq (j : ℕ) : oddDiff (2 ^ s) (Verify.root (-1) (4 * 2 ^ s)) (part M x (s + 2) q) j
    = thirdTurned M x s q j - fourthTurned M x s q j := by
  rw [thirdTurned, fourthTurned, spectra_third x hs, spectra_fourth x hs, oddDiff]

theorem block_split (j : ℕ) : spectra M x (s + 2) q j
    = spectra M x (s + 1) (2 * q) j + (thirdTurned M x s q j + fourthTurned M x s q j) := by
  rw [spectra_block, spectra_evens x hs, ← oddSum_eq x hs, rdft_split]

variable {j : ℕ} (hj : j ≤ 2 ^ s)

include hj

theorem block_first : spectra M x (s + 2) q (2 ^ s - j) = spectra M x (s + 1) (2 * q) (2 ^ s - j)
    - I * starRingEnd ℂ (thirdTurned M x s q j - fourthTurned M x s q j) := by
  rw [spectra_block, spectra_evens x hs, ← oddDiff_eq x hs]
  exact rdft_first _ (root_quarter (Nat.two_pow_pos s)) (root_mul_conj _ _) hj

theorem block_second : spectra M x (s + 2) q (2 ^ s + j)
    = starRingEnd ℂ (spectra M x (s + 1) (2 * q) (2 ^ s - j))
      - I * (thirdTurned M x s q j - fourthTurned M x s q j) := by
  rw [spectra_block, spectra_evens x hs, ← oddDiff_eq x hs]
  exact rdft_second _ (root_quarter (Nat.two_pow_pos s)) (root_mul_conj _ _) hj

theorem block_third : spectra M x (s + 2) q (2 * 2 ^ s - j)
    = starRingEnd ℂ (spectra M x (s + 1) (2 * q) j
      - (thirdTurned M x s q j + fourthTurned M x s q j)) := by
  rw [spectra_block, spectra_evens x hs, ← oddSum_eq x hs]
  exact rdft_third _ (root_quarter (Nat.two_pow_pos s)) (root_mul_conj _ _) hj

end Spectra

end BenchFFT.Sorensen
