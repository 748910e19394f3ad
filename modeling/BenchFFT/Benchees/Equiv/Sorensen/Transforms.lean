import BenchFFT.Benchees.Equiv.Sorensen.Reverse
import BenchFFT.Benchees.Equiv.Sorensen.Stages

/-!
# The forward and the inverse transform

A forward stage leads from one level to the next (`rstage_puts`), and an inverse one back, up to a
factor (`irstage_puts`).  So the forward transform leaves the transform of the array in it
(`rsrfft_puts`), and the inverse one leads back (`irsrfft_puts`).
-/

namespace BenchFFT.Sorensen

open Buf Mp SplitRadix

/-! ### Twiddles and roots -/

section Turned

variable {M s q j : ℕ} {x : ℕ → ℝ}

theorem thirdTurned_re : (thirdTurned M x s q j).re
    = (spectra M x s (4 * q + 2) j).re * (twiddle (4 * 2 ^ s) j).cc1
      + (spectra M x s (4 * q + 2) j).im * (twiddle (4 * 2 ^ s) j).ss1 := by
  rw [thirdTurned, root_pow, Complex.mul_re, twiddle]
  ring

theorem thirdTurned_im : (thirdTurned M x s q j).im
    = (spectra M x s (4 * q + 2) j).im * (twiddle (4 * 2 ^ s) j).cc1
      - (spectra M x s (4 * q + 2) j).re * (twiddle (4 * 2 ^ s) j).ss1 := by
  rw [thirdTurned, root_pow, Complex.mul_im, twiddle]
  ring

theorem fourthTurned_re : (fourthTurned M x s q j).re
    = (spectra M x s (4 * q + 3) j).re * (twiddle (4 * 2 ^ s) j).cc3
      + (spectra M x s (4 * q + 3) j).im * (twiddle (4 * 2 ^ s) j).ss3 := by
  rw [fourthTurned, root_pow, Complex.mul_re, Nat.cast_mul, mul_assoc, twiddle]
  ring

theorem fourthTurned_im : (fourthTurned M x s q j).im
    = (spectra M x s (4 * q + 3) j).im * (twiddle (4 * 2 ^ s) j).cc3
      - (spectra M x s (4 * q + 3) j).re * (twiddle (4 * 2 ^ s) j).ss3 := by
  rw [fourthTurned, root_pow, Complex.mul_im, Nat.cast_mul, mul_assoc, twiddle]
  ring

/-! The rotations, back. -/

theorem twiddle_one_sq (n2 j : ℕ) : (twiddle n2 j).cc1 ^ 2 + (twiddle n2 j).ss1 ^ 2 = 1 :=
  Real.cos_sq_add_sin_sq _

theorem twiddle_three_sq (n2 j : ℕ) : (twiddle n2 j).cc3 ^ 2 + (twiddle n2 j).ss3 ^ 2 = 1 :=
  Real.cos_sq_add_sin_sq _

theorem third_re : (spectra M x s (4 * q + 2) j).re
    = (thirdTurned M x s q j).re * (twiddle (4 * 2 ^ s) j).cc1
      - (thirdTurned M x s q j).im * (twiddle (4 * 2 ^ s) j).ss1 := by
  rw [thirdTurned_re, thirdTurned_im]
  linear_combination -(spectra M x s (4 * q + 2) j).re * twiddle_one_sq (4 * 2 ^ s) j

theorem third_im : (spectra M x s (4 * q + 2) j).im
    = (thirdTurned M x s q j).im * (twiddle (4 * 2 ^ s) j).cc1
      + (thirdTurned M x s q j).re * (twiddle (4 * 2 ^ s) j).ss1 := by
  rw [thirdTurned_re, thirdTurned_im]
  linear_combination -(spectra M x s (4 * q + 2) j).im * twiddle_one_sq (4 * 2 ^ s) j

theorem fourth_re : (spectra M x s (4 * q + 3) j).re
    = (fourthTurned M x s q j).re * (twiddle (4 * 2 ^ s) j).cc3
      - (fourthTurned M x s q j).im * (twiddle (4 * 2 ^ s) j).ss3 := by
  rw [fourthTurned_re, fourthTurned_im]
  linear_combination -(spectra M x s (4 * q + 3) j).re * twiddle_three_sq (4 * 2 ^ s) j

theorem fourth_im : (spectra M x s (4 * q + 3) j).im
    = (fourthTurned M x s q j).im * (twiddle (4 * 2 ^ s) j).cc3
      + (fourthTurned M x s q j).re * (twiddle (4 * 2 ^ s) j).ss3 := by
  rw [fourthTurned_re, fourthTurned_im]
  linear_combination -(spectra M x s (4 * q + 3) j).im * twiddle_three_sq (4 * 2 ^ s) j

end Turned

/-- The weights of the forward transform. -/
def unweighted (_ : ℕ) : ℝ := 1

/-- The weights of the inverse transform, which divides by the size at the end. -/
def weight (M t : ℕ) : ℝ := (2 ^ (M - t) : ℕ)

theorem weight_succ {M t : ℕ} (ht : t < M) : weight M t = (2 : ℕ) * weight M (t + 1) := by
  rw [weight, weight, ← Nat.cast_mul, ← Nat.pow_succ', show (M - (t + 1)).succ = M - t by omega]

/-! ### The butterflies of a block -/

section Block

variable {M s m n4 q : ℕ} (hn4 : n4 = 2 ^ s) (hs : s + 2 ≤ M) (hm : q * (4 * n4) + 4 * n4 ≤ m)
  (hq : Whole q) (x : ℕ → ℝ)

include hn4 hs hm hq

theorem rstage20_level : Puts m (rstage20 n4 (q * (4 * n4))) (Quarters n4 (q * (4 * n4)))
    (level unweighted (spectra M x) (s + 1)) (level unweighted (spectra M x) (s + 2)) := by
  have hpos : 0 < n4 := hn4 ▸ Nat.two_pow_pos s
  refine rstage20_puts (by omega) hpos (parts_first hn4 rfl hq rfl rfl rfl rfl)
    ((block_first_cells hn4 rfl hq rfl rfl rfl rfl hs).cast ?_ ?_ ?_ ?_)
  all_goals simp only [unweighted]
  all_goals ring

theorem irstage20_level : Puts m (irstage20 n4 (q * (4 * n4))) (Quarters n4 (q * (4 * n4)))
    (level (weight M) (spectra M x) (s + 2)) (level (weight M) (spectra M x) (s + 1)) := by
  have hpos : 0 < n4 := hn4 ▸ Nat.two_pow_pos s
  have hone : weight M (s + 1) = (2 : ℕ) * weight M (s + 2) := weight_succ (by omega)
  have hzero : weight M s = (2 : ℕ) * weight M (s + 1) := weight_succ (by omega)
  refine irstage20_puts (by omega) hpos (block_first_cells hn4 rfl hq rfl rfl rfl rfl hs)
    ((parts_first hn4 rfl hq rfl rfl rfl rfl).cast ?_ ?_ ?_ ?_)
  all_goals simp only [hzero, hone]
  all_goals push_cast
  all_goals ring

section Middle

variable {n8 : ℕ} (hn8 : n4 = 2 * n8)

include hn8

theorem rstage50_level : Puts m (rstage50 n4 exactConstants.sqrtHalf (q * (4 * n4) + n8))
    (Quarters n4 (q * (4 * n4) + n8)) (level unweighted (spectra M x) (s + 1))
    (level unweighted (spectra M x) (s + 2)) := by
  have hpos : 0 < n4 := hn4 ▸ Nat.two_pow_pos s
  refine rstage50_puts (by omega) hpos (parts_middle hn4 rfl hq hn8 rfl rfl rfl)
    ((block_middle hn4 rfl hq hn8 rfl rfl rfl hs).cast ?_ ?_ ?_ ?_)
  all_goals simp only [unweighted, exactConstants_sqrtHalf]
  all_goals ring

theorem irstage50_level : Puts m (irstage50 n4 exactConstants.sqrtTwo (q * (4 * n4) + n8))
    (Quarters n4 (q * (4 * n4) + n8)) (level (weight M) (spectra M x) (s + 2))
    (level (weight M) (spectra M x) (s + 1)) := by
  have hpos : 0 < n4 := hn4 ▸ Nat.two_pow_pos s
  have hone : weight M (s + 1) = (2 : ℕ) * weight M (s + 2) := weight_succ (by omega)
  have hzero : weight M s = (2 : ℕ) * weight M (s + 1) := weight_succ (by omega)
  have hsqrt : √2 * √2 = (2 : ℝ) := Real.mul_self_sqrt zero_le_two
  refine irstage50_puts (by omega) hpos (block_middle hn4 rfl hq hn8 rfl rfl rfl hs)
    ((parts_middle hn4 rfl hq hn8 rfl rfl rfl).cast ?_ ?_ ?_ ?_)
  · rw [hone]
    push_cast
    ring
  · rw [hone]
    push_cast
    ring
  · rw [hzero, hone, exactConstants_sqrtTwo]
    push_cast
    linear_combination -2 * weight M (s + 2) * (spectra M x s (4 * q + 2) n8).re * hsqrt
  · rw [hzero, hone, exactConstants_sqrtTwo]
    push_cast
    linear_combination -2 * weight M (s + 2) * (spectra M x s (4 * q + 3) n8).re * hsqrt

end Middle

section General

variable {j : ℕ} (h0 : 0 < j) (hj : 2 * j < n4)

include h0 hj

theorem rstage80_level :
    Puts m (rstage80 n4 (twiddle (4 * n4) j) (n4 - 2 * j) (q * (4 * n4) + j))
      (fun k => Quarters n4 (q * (4 * n4) + j) k ∨
        Quarters n4 (q * (4 * n4) + j + (n4 - 2 * j)) k)
      (level unweighted (spectra M x) (s + 1)) (level unweighted (spectra M x) (s + 2)) := by
  have hright : q * (4 * n4) + (n4 - j) = q * (4 * n4) + j + (n4 - 2 * j) := by omega
  have hpl := parts_left (w := unweighted) (x := x) (M := M) hn4 rfl hq h0 hj rfl rfl rfl rfl
  have hpr := parts_right (w := unweighted) (x := x) (M := M) hn4 rfl hq h0 hj rfl rfl rfl rfl
  have hbl := block_left (w := unweighted) (x := x) hn4 rfl hq h0 hj rfl rfl hs rfl rfl
  have hbr := block_right (w := unweighted) (x := x) hn4 rfl hq h0 hj rfl rfl hs rfl rfl
  rw [hright] at hpr hbr
  simp only [unweighted, one_mul] at hpl hpr hbl hbr
  exact rstage80_puts (by omega) (by omega) (by omega) hpl hpr (hn4 ▸ thirdTurned_re)
    (hn4 ▸ thirdTurned_im) (hn4 ▸ fourthTurned_re) (hn4 ▸ fourthTurned_im) hbl hbr

theorem irstage80_level :
    Puts m (irstage80 n4 (twiddle (4 * n4) j) (n4 - 2 * j) (q * (4 * n4) + j))
      (fun k => Quarters n4 (q * (4 * n4) + j) k ∨
        Quarters n4 (q * (4 * n4) + j + (n4 - 2 * j)) k)
      (level (weight M) (spectra M x) (s + 2)) (level (weight M) (spectra M x) (s + 1)) := by
  have hright : q * (4 * n4) + (n4 - j) = q * (4 * n4) + j + (n4 - 2 * j) := by omega
  have hone : weight M (s + 1) = (2 : ℕ) * weight M (s + 2) := weight_succ (by omega)
  have hzero : weight M s = (2 : ℕ) * weight M (s + 1) := weight_succ (by omega)
  have hpl := parts_left (w := weight M) (x := x) (M := M) hn4 rfl hq h0 hj rfl rfl rfl rfl
  have hpr := parts_right (w := weight M) (x := x) (M := M) hn4 rfl hq h0 hj rfl rfl rfl rfl
  have hbl := block_left (w := weight M) (x := x) hn4 rfl hq h0 hj rfl rfl hs rfl rfl
  have hbr := block_right (w := weight M) (x := x) hn4 rfl hq h0 hj rfl rfl hs rfl rfl
  rw [hright] at hpr hbr
  have hre := third_re (M := M) (s := s) (q := q) (j := j) (x := x)
  have him := third_im (M := M) (s := s) (q := q) (j := j) (x := x)
  have hre' := fourth_re (M := M) (s := s) (q := q) (j := j) (x := x)
  have him' := fourth_im (M := M) (s := s) (q := q) (j := j) (x := x)
  rw [← hn4] at hre him hre' him'
  refine irstage80_puts (by omega) (by omega) (by omega) hbl hbr rfl rfl rfl rfl
    (hpl.cast ?_ ?_ ?_ ?_) (hpr.cast ?_ ?_ ?_ ?_)
  all_goals simp only [hzero, hone, hre, him, hre', him']
  all_goals push_cast
  all_goals ring

end General

end Block

/-! ### The stages -/

section Stages

variable {M s m n2 n4 : ℕ} (hn4 : n4 = 2 ^ s) (hs : s + 2 ≤ M) (hm : 2 ^ M ≤ m) (hn2 : 0 < n2)
  (hfour : n2 = 4 * n4) (x : ℕ → ℝ)

theorem block_end {n q : ℕ} (hn : n2 ∣ n) (hm : n ≤ m) (hq : q * n2 < n) :
    q * n2 + n2 ≤ m := by
  obtain ⟨r, rfl⟩ := hn
  rw [← Nat.succ_mul]
  have hle := Nat.mul_le_mul_right n2 (Nat.lt_of_mul_lt_mul_right (Nat.mul_comm n2 r ▸ hq))
  exact hle.trans (Nat.mul_comm n2 r ▸ hm)

include hn4

theorem half_quarter : n4 = 1 ∨ n4 = 2 * (n4 / 2) := by
  rw [hn4]
  cases s with
  | zero => exact Or.inl rfl
  | succ s =>
    rw [pow_succ]
    omega

include hs

theorem four_mul_dvd : 4 * n4 ∣ 2 ^ M := by
  rw [hn4, show 4 * 2 ^ s = 2 ^ (s + 2) by ring]
  exact Nat.pow_dvd_pow 2 hs

omit hs in
/-- A stage leaves the other blocks alone. -/
theorem level_rest {w : ℕ → ℝ} {k : ℕ} (hk : ¬Whole (k / (4 * n4))) :
    level w (spectra M x) (s + 2) k = level w (spectra M x) (s + 1) k := by
  have hpow : 4 * n4 = 2 ^ (s + 1 + 1) := by
    rw [hn4]
    ring
  exact level_succ_of_not_whole (hpow ▸ hk)

include hm hfour

theorem rstage_puts : Puts m (rstage exactConstants (2 ^ M) n2 n4 hn2) (· < 2 ^ M)
    (level unweighted (spectra M x) (s + 1)) (level unweighted (spectra M x) (s + 2)) := by
  subst hfour
  have hpos : 0 < n4 := hn4 ▸ Nat.two_pow_pos s
  have hn := four_mul_dvd hn4 hs
  have hn8 : n4 = 1 ∨ n4 = 2 * (4 * n4 / 8) := (half_quarter hn4).imp_right fun h => by omega
  refine stage_puts hpos hn2 hn hn8 (fun _ => Iff.rfl) (fun q hq hqn => ?_)
    (fun hn8 q hq hqn => ?_) (fun j h0 hj q hq hqn => ?_) fun k _ hk => ?_
  · exact rstage20_level hn4 hs (block_end hn hm hqn) hq x
  · exact rstage50_level hn4 hs (block_end hn hm hqn) hq x hn8
  · exact rstage80_level hn4 hs (block_end hn hm hqn) hq x h0 hj
  · exact (level_rest hn4 x hk).symm

theorem irstage_puts : Puts m (irstage exactConstants (2 ^ M) n2 n4 hn2) (· < 2 ^ M)
    (level (weight M) (spectra M x) (s + 2)) (level (weight M) (spectra M x) (s + 1)) := by
  subst hfour
  have hpos : 0 < n4 := hn4 ▸ Nat.two_pow_pos s
  have hn := four_mul_dvd hn4 hs
  refine stage_puts hpos hn2 hn (half_quarter hn4) (fun q => ?_) (fun q hq hqn => ?_)
    (fun hn8 q hq hqn => ?_) (fun j h0 hj q hq hqn => ?_) fun k _ hk => ?_
  · -- no block starts at the last cell
    obtain ⟨r, hr⟩ := hn
    have hq : q * (4 * n4) = 4 * (q * n4) := by ring
    have hr' : 4 * n4 * r = 4 * (n4 * r) := by ring
    omega
  · exact irstage20_level hn4 hs (block_end hn hm hqn) hq x
  · exact irstage50_level hn4 hs (block_end hn hm hqn) hq x hn8
  · exact irstage80_level hn4 hs (block_end hn hm hqn) hq x h0 hj
  · exact level_rest hn4 x hk

end Stages

/-! ### The length-two butterflies -/

section Two

variable {M m : ℕ} (h0 : 0 < M) (hm : 2 ^ M ≤ m)

include h0 hm

theorem butterflies_puts {R : Type} [Field R] {old new : ℕ → R}
    (hsum : ∀ q, Whole q → new (2 * q) = old (2 * q) + old (2 * q + 1))
    (hdiff : ∀ q, Whole q → new (2 * q + 1) = old (2 * q) - old (2 * q + 1))
    (hrest : ∀ i, ¬Whole (i / 2) → old i = new i) :
    Puts m (blocks Nat.zero_lt_two (2 ^ M) (2 ^ M - 1) 0 butterfly2 (.first 2)) (· < 2 ^ M)
      old new := by
  obtain ⟨t, rfl⟩ := Nat.exists_eq_add_of_lt h0
  rw [Nat.zero_add, Nat.pow_succ'] at *
  have hblocks : Puts m
      (blocks Nat.zero_lt_two (2 * 2 ^ t) (2 * 2 ^ t - 1) 0 butterfly2 (.first 2))
      (fun k => ∃ q, Whole q ∧ q * 2 < 2 * 2 ^ t ∧ (k = 2 * q ∨ k = 2 * q + 1)) old new := by
    refine blocks_puts Nat.zero_lt_two Nat.zero_lt_two (Nat.dvd_mul_right 2 (2 ^ t))
      (fun q hq hlt => ?_) (by omega) (by omega)
    rw [Nat.add_zero, Nat.mul_comm q]
    exact butterfly2_puts (by omega) (hsum q hq) (hdiff q hq)
  refine hblocks.mono ?_ fun i hi hout => hrest i fun hq => hout ⟨i / 2, hq, by omega, by omega⟩
  rintro i ⟨q, -, hlt, hi⟩
  omega

end Two

section Levels

variable {M q : ℕ} (w : ℕ → ℝ) (x : ℕ → ℝ)

/-- The first level is the array in bit-reversed order. -/
theorem level_zero_eq (i : ℕ) : level w (spectra M x) 0 i = w 0 * x (rev M i) := by
  rw [level_zero, spectra, pow_zero, rdft_one, part, Nat.sub_zero, Nat.mul_zero, Nat.add_zero,
    Complex.ofReal_re]

/-- The last one is the transform. -/
theorem level_last {i : ℕ} (hi : i < 2 ^ M) : level w (spectra M x) M i
    = w M * halfcomplex (2 ^ M) (rdft (2 ^ M) (Verify.root (-1) (2 ^ M)) x) i := by
  have hpart : part M x M 0 = x := by
    funext j
    rw [part, Nat.sub_self, rev, pow_zero, Nat.one_mul, Nat.zero_add]
  have hlast := level_whole (w := w) (X := spectra M x) (whole_two_mul 0) hi
  rwa [Nat.mul_zero, Nat.zero_mul, Nat.zero_add, spectra, hpart] at hlast

theorem root_two : Verify.root (-1) 2 = -1 := by
  have harg : ((-1 : ℤ) : ℂ) * ((2 : ℂ) * Real.pi * Complex.I / (2 : ℕ))
      = -(Real.pi * Complex.I) := by
    push_cast
    ring
  rw [Verify.root, harg, Complex.exp_neg, Complex.exp_pi_mul_I, inv_neg, inv_one]

/-- A transform of two numbers. -/
theorem spectra_one (h0 : 0 < M) (k : ℕ) : spectra M x 1 q k
    = x (rev M (2 * q)) + x (rev M (2 * q + 1)) * (-1) ^ k := by
  obtain ⟨t, rfl⟩ := Nat.exists_eq_add_of_lt h0
  rw [Nat.zero_add, rev_two_mul, rev_two_mul_add_one, spectra, pow_one, root_two,
    rdft, Chirp.dft, Finset.sum_range_succ, Finset.sum_range_one, part, part, Nat.add_sub_cancel,
    Nat.mul_zero, Nat.add_zero, Nat.mul_one, Nat.add_comm (rev t q), Nat.zero_mul, pow_zero,
    mul_one, Nat.one_mul]

theorem level_one (h0 : 0 < M) (hq : Whole q) :
    level w (spectra M x) 1 (2 * q) = w 1 * (x (rev M (2 * q)) + x (rev M (2 * q + 1))) ∧
      level w (spectra M x) 1 (2 * q + 1) = w 1 * (x (rev M (2 * q)) - x (rev M (2 * q + 1))) := by
  have hcell : ∀ k < 2, level w (spectra M x) 1 (2 * q + k) = w 1 * (spectra M x 1 q k).re := by
    intro k hk
    have hwhole := level_whole (w := w) (X := spectra M x) (t := 1) hq hk
    rwa [pow_one, Nat.mul_comm q, halfcomplex_re _ (by omega)] at hwhole
  constructor
  · have hfirst := hcell 0 two_pos
    rwa [spectra_one x h0, pow_zero, mul_one, Nat.add_zero, Complex.add_re, Complex.ofReal_re,
      Complex.ofReal_re] at hfirst
  · rw [hcell 1 one_lt_two, spectra_one x h0, pow_one, mul_neg_one, Complex.add_re, Complex.neg_re,
      Complex.ofReal_re, Complex.ofReal_re, sub_eq_add_neg]

end Levels

/-! ### The transforms -/

/-- `DO 99`. -/
theorem divide_puts {M m : ℕ} (hm : 2 ^ M ≤ m) (x : ℕ → ℝ) :
    Puts m (forRangeM (2 ^ M) fun i b => do
      let v ← b.read i
      b.write i (v / ((2 ^ M : ℕ) : ℝ))) (· < 2 ^ M) (fun i => weight M 0 * x i) x := by
  have hne : weight M 0 ≠ 0 := Nat.cast_ne_zero.mpr (Nat.two_pow_pos _).ne'
  refine (Puts.forRangeM (S := fun i k => k = i) (fun i hi => ?_) fun _ _ _ _ _ h h' =>
    h.symm.trans h').congr fun k => ⟨fun ⟨i, hi, hk⟩ => hk ▸ hi, fun hk => ⟨k, hk, rfl⟩⟩
  refine Puts.intro (Runs.read (by omega) fun v => Runs.write (by omega) _) ⟨?_, ?_⟩
  · rintro c hc _ rfl
    rw [Function.update_self, hc _ rfl, weight, Nat.sub_zero]
    exact mul_div_cancel_left₀ _ hne
  · intro c k hk
    exact Function.update_of_ne hk _ _

section Transforms

variable {M m : ℕ} (h0 : 0 < M) (hM : M ≤ 16) (hm : 2 ^ M ≤ m) {itab : Buf ℕ}
  (hitab : itab.size = 256) (x : ℕ → ℝ)

include h0 hM hm hitab

/-- **The forward transform.** -/
theorem rsrfft_puts : Puts m (fun b => rsrfft exactConstants itab b M) (· < 2 ^ M) x
    (halfcomplex (2 ^ M) (rdft (2 ^ M) (Verify.root (-1) (2 ^ M)) x)) := by
  have htwo : Puts m (blocks Nat.zero_lt_two (2 ^ M) (2 ^ M - 1) 0 butterfly2 (.first 2))
      (· < 2 ^ M) (fun i => x (rev M i)) (level unweighted (spectra M x) 1) := by
    refine butterflies_puts h0 hm (fun q hq => ?_) (fun q hq => ?_) fun i hi => ?_
    · rw [(level_one unweighted x h0 hq).1, unweighted, one_mul]
    · rw [(level_one unweighted x h0 hq).2, unweighted, one_mul]
    · rw [level_succ_of_not_whole hi, level_zero_eq, unweighted, one_mul]
  have hstages : Puts m (forFromM 2 (M + 1) fun k =>
      rstage exactConstants (2 ^ M) (2 ^ k) (2 ^ k / 4) (Nat.two_pow_pos k)) (· < 2 ^ M)
      (level unweighted (spectra M x) 1) (level unweighted (spectra M x) (M + 1 - 2 + 1)) := by
    refine Puts.forRangeM_levels (fun i => level unweighted (spectra M x) (i + 1)) fun i hi => ?_
    have hpow : 2 ^ (2 + i) = 4 * 2 ^ i := Nat.pow_add 2 2 i
    have hquarter : 2 ^ (2 + i) / 4 = 2 ^ i := hpow ▸ Nat.mul_div_cancel_left _ four_pos
    have hle : i + 2 ≤ M := by omega
    simp only [hquarter]
    exact rstage_puts rfl hle hm _ hpow x
  have hrun := (rbitrev_puts h0 hM hm hitab x).trans (htwo.trans hstages)
  rw [show M + 1 - 2 + 1 = M by omega] at hrun
  exact hrun.cells (fun _ _ => rfl) fun k hk => by rw [level_last _ _ hk, unweighted, one_mul]

/-- **The inverse transform.** -/
theorem irsrfft_puts : Puts m (fun b => irsrfft exactConstants itab b M) (· < 2 ^ M)
    (halfcomplex (2 ^ M) (rdft (2 ^ M) (Verify.root (-1) (2 ^ M)) x)) x := by
  have hstages : Puts m (forFromM 1 M fun k => irstage exactConstants (2 ^ M) (2 ^ (M + 1 - k))
      (2 ^ (M + 1 - k) / 4) (Nat.two_pow_pos _)) (· < 2 ^ M)
      (level (weight M) (spectra M x) M) (level (weight M) (spectra M x) (M - (M - 1))) := by
    refine Puts.forRangeM_levels (fun i => level (weight M) (spectra M x) (M - i)) fun i hi => ?_
    obtain ⟨s, rfl⟩ : ∃ s, M = s + 2 + i := ⟨M - 2 - i, by omega⟩
    have hk : s + 2 + i + 1 - (1 + i) = s + 2 := by omega
    have hfrom : s + 2 + i - i = s + 2 := by omega
    have hto : s + 2 + i - (i + 1) = s + 1 := by omega
    have hpow : 2 ^ (s + 2 + i + 1 - (1 + i)) = 4 * 2 ^ s := by
      rw [hk]
      ring
    have hquarter : 2 ^ (s + 2 + i + 1 - (1 + i)) / 4 = 2 ^ s :=
      hpow ▸ Nat.mul_div_cancel_left _ four_pos
    have hle : s + 2 ≤ s + 2 + i := Nat.le_add_right _ _
    simp only [hfrom, hto, hquarter]
    exact irstage_puts rfl hle hm _ hpow x
  rw [show M - (M - 1) = 1 by omega] at hstages
  have htwo : Puts m (blocks Nat.zero_lt_two (2 ^ M) (2 ^ M - 1) 0 butterfly2 (.first 2))
      (· < 2 ^ M) (level (weight M) (spectra M x) 1) (fun i => weight M 0 * x (rev M i)) := by
    have hweight : weight M 0 = (2 : ℕ) * weight M 1 := weight_succ h0
    refine butterflies_puts h0 hm (fun q hq => ?_) (fun q hq => ?_) fun i hi => ?_
    · rw [(level_one _ x h0 hq).1, (level_one _ x h0 hq).2, hweight]
      push_cast
      ring
    · rw [(level_one _ x h0 hq).1, (level_one _ x h0 hq).2, hweight]
      push_cast
      ring
    · rw [level_succ_of_not_whole hi, level_zero_eq]
  have hreverse : Puts m (fun b => rbitrev itab b M) (· < 2 ^ M)
      (fun i => weight M 0 * x (rev M i)) (fun i => weight M 0 * x i) :=
    (rbitrev_puts h0 hM hm hitab _).cells (fun _ _ => rfl) fun i hi => by rw [rev_rev hi]
  have hrun := hstages.trans (htwo.trans (hreverse.trans (divide_puts hm x)))
  exact hrun.cells (fun k hk => by rw [level_last _ _ hk, weight, Nat.sub_self, pow_zero,
    Nat.cast_one, one_mul]) fun _ _ => rfl

end Transforms

end BenchFFT.Sorensen
