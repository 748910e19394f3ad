import BenchFFT.Mp.Equiv.Newton
import BenchFFT.Mp.Trig
import BenchFFT.Series
import Mathlib.Analysis.SpecialFunctions.Trigonometric.Bounds

/-!
# The Taylor series of `msin` and `mcos`

The loops keep `g` near the coefficient `1 / i!` and `b` near the sum from there on.  A step adds
few units of the last digit to the error of either, relative to the coefficient, and the coefficient
grows, so that the errors do not add up to more than a few hundred units (`Taylor`).
-/

namespace BenchFFT.Mp

open N Series
open scoped Nat

/-! ### Errors of a step -/

section

variable {e u c b p d g G G' B δ t : ℝ}

/-- A factor and a truncation. -/
theorem abs_mul_cut_sub_le (hc : 0 ≤ c) (hδ0 : 0 ≤ δ) (hδ : δ ≤ e) (hu : u ≤ 1)
    (hB : |B| ≤ G) (h : |b - B| ≤ u * G) :
    |c * b * (1 - δ) - c * B| ≤ (u + 2 * e) * (c * G) := by
  have hG : 0 ≤ G := (abs_nonneg B).trans hB
  have hb : |b| ≤ 2 * G := by
    calc |b| = |(b - B) + B| := by rw [sub_add_cancel]
      _ ≤ |b - B| + |B| := abs_add_le _ _
      _ ≤ 1 * G + G := add_le_add (h.trans (mul_le_mul_of_nonneg_right hu hG)) hB
      _ = 2 * G := by ring
  calc |c * b * (1 - δ) - c * B| = c * |(b - B) - δ * b| := by
        rw [← abs_of_nonneg hc, ← abs_mul, abs_of_nonneg hc]
        ring_nf
    _ ≤ c * (|b - B| + |δ * b|) := mul_le_mul_of_nonneg_left (abs_sub _ _) hc
    _ ≤ c * (u * G + e * (2 * G)) := by
        rw [abs_mul, abs_of_nonneg hδ0]
        refine mul_le_mul_of_nonneg_left (add_le_add h ?_) hc
        exact mul_le_mul hδ hb (abs_nonneg b) (hδ0.trans hδ)
    _ = (u + 2 * e) * (c * G) := by ring

/-- The difference of a step: `g - p`, where `g` is near the next coefficient `G'`, and `p` near the
product `B`, which is not greater than the last coefficient `G`. -/
theorem abs_difference_sub_le (he : 0 ≤ e) (he1 : e ≤ 1 / 1000) (ht0 : 0 ≤ t) (ht : t ≤ 15)
    (hG : 2 * G ≤ G') (hB0 : 0 ≤ B) (hB : B ≤ G) (hg : |g - G'| ≤ 2 * (t + 2) * e * G')
    (hp : |p - B| ≤ (16 * (t + 1) * e + 2 * e) * G)
    (hd : |d - (g - p)| ≤ 2 * e * (|g| + |p|)) : |d - (G' - B)| ≤ 16 * (t + 2) * e * G' := by
  have hG' : 0 ≤ G' := by linarith
  have hte : 0 ≤ t * e := mul_nonneg ht0 he
  have hte1 : t * e ≤ 15 * (1 / 1000) := mul_le_mul ht he1 he (by norm_num)
  have hg' : |g| ≤ 2 * G' := by
    calc |g| = |(g - G') + G'| := by rw [sub_add_cancel]
      _ ≤ 2 * (t + 2) * e * G' + G' := (abs_add_le _ _).trans (add_le_add hg (abs_of_nonneg hG').le)
      _ ≤ 1 * G' + G' := by
          refine add_le_add_left (mul_le_mul_of_nonneg_right ?_ hG') _
          linarith
      _ = 2 * G' := by ring
  have hp' : |p| ≤ G' := by
    calc |p| = |(p - B) + B| := by rw [sub_add_cancel]
      _ ≤ (16 * (t + 1) * e + 2 * e) * G + G :=
          (abs_add_le _ _).trans (add_le_add hp ((abs_of_nonneg hB0).trans_le hB))
      _ ≤ 1 * G + G := by
          refine add_le_add_left (mul_le_mul_of_nonneg_right ?_ (hB0.trans hB)) _
          linarith
      _ ≤ G' := by linarith
  -- the terms at least double, which halves the error so far
  have hhalf : (16 * (t + 1) * e + 2 * e) * G ≤ (16 * (t + 1) * e + 2 * e) * (G' / 2) :=
    mul_le_mul_of_nonneg_left (by linarith) (by linarith)
  calc |d - (G' - B)| = |(d - (g - p)) + ((g - G') - (p - B))| := by ring_nf
    _ ≤ |d - (g - p)| + (|g - G'| + |p - B|) :=
        (abs_add_le _ _).trans (add_le_add_right (abs_sub _ _) _)
    _ ≤ 2 * e * (2 * G' + G')
          + (2 * (t + 2) * e * G' + (16 * (t + 1) * e + 2 * e) * (G' / 2)) := by
        refine add_le_add (hd.trans ?_) (add_le_add hg (hp.trans hhalf))
        exact mul_le_mul_of_nonneg_left (add_le_add hg' hp') (by linarith)
    _ = (10 * (t * e) + 19 * e) * G' := by ring
    _ ≤ 16 * (t + 2) * e * G' := by
        refine mul_le_mul_of_nonneg_right ?_ hG'
        linarith

end

/-! ### The loop -/

theorem val_cast (a : N) : ((a.val ℚ : ℚ) : ℝ) = a.val ℝ := by
  rw [val, val, ulp, ulp]
  push_cast
  rfl

/-- The numbers after `j` steps from `1 / top!`, for the argument `x`. -/
structure Taylor (top j : ℕ) (x : ℝ) (s : N × N) : Prop where
  small_g : Small (7 + 20 * j) s.1
  small_b : Small (7 + 447 * j) s.2
  near_g : |s.1.val ℝ - ((top - 2 * j)! : ℝ)⁻¹|
    ≤ 2 * (j + 1) * eps ℝ * ((top - 2 * j)! : ℝ)⁻¹
  near_b : |s.2.val ℝ - alternating top x j| ≤ 16 * (j + 1) * eps ℝ * ((top - 2 * j)! : ℝ)⁻¹

theorem eps_real_pos : 0 < eps ℝ := by
  rw [eps]
  positivity

theorem eps_real_le : eps ℝ ≤ 1 / 1000 := by norm_num [eps, len]

variable {top j : ℕ} {a2 : N} {s : N × N}

/-- The coefficient of a step is a digit. -/
theorem exists_coefficient (htop : top ≤ 32) (hj : 2 * (j + 1) ≤ top) :
    ∃ k : ℕ, 0 < k ∧ k < 65536 ∧ ((top : ℤ) - 2 * j) * ((top : ℤ) - 2 * j - 1) = k ∧
      ((top - 2 * (j + 1))! : ℝ)⁻¹ = k * ((top - 2 * j)! : ℝ)⁻¹ := by
  obtain ⟨k, hk⟩ : ∃ k, k = (top - 2 * j) * (top - 2 * j - 1) := ⟨_, rfl⟩
  refine ⟨k, ?_, ?_, ?_, ?_⟩
  · rw [hk]
    exact Nat.mul_pos (by omega) (by omega)
  · calc k = (top - 2 * j) * (top - 2 * j - 1) := hk
      _ ≤ 32 * 32 := Nat.mul_le_mul (by omega) (by omega)
      _ < 65536 := by decide
  · rw [hk]
    push_cast [Nat.cast_sub (by omega : 2 * j ≤ top), Nat.cast_sub (by omega : 1 ≤ top - 2 * j)]
    rfl
  · have hk0 : (k : ℝ) ≠ 0 := by
      rw [hk]
      exact_mod_cast (Nat.mul_pos (by omega) (by omega) : 0 < _ * _).ne'
    rw [factorial_step hj, ← hk, Nat.cast_mul, mul_inv, mul_inv_cancel_left₀ hk0]

theorem Taylor.step (ha : Small 419 a2) (h0 : 0 ≤ a2.val ℝ) (h1 : a2.val ℝ ≤ 1)
    (htop : top ≤ 32) (hj : 2 * (j + 1) ≤ top) (h : Taylor top j (a2.val ℝ) s) :
    Taylor top (j + 1) (a2.val ℝ) (taylorStep a2 (top - 2 * j) s) := by
  have heps := eps_real_pos
  have heps1 := eps_real_le
  have hj' : (j : ℝ) ≤ 15 := by exact_mod_cast (by omega : j ≤ 15)
  have hj0 : (0 : ℝ) ≤ j := Nat.cast_nonneg j
  obtain ⟨k, hk0, hk1, hkcast, hG'⟩ := exists_coefficient htop hj
  have hdouble := two_mul_inv_factorial_le hj
  have hmem := alternating_mem h0 h1 (show 2 * j ≤ top by omega)
  -- the two products and the difference, each right up to its last digits
  obtain ⟨hgsmall, hg⟩ := mul_truncates (F := ℝ) (fromshort_small hk0 hk1) h.small_g (by omega)
  obtain ⟨hpsmall, hp⟩ := mul_truncates (F := ℝ) ha h.small_b (by omega)
  obtain ⟨δ, hδ0, hδ, hgval⟩ := hg.exists_rel
  obtain ⟨γ, hγ0, hγ, hpval⟩ := hp.exists_rel
  obtain ⟨hbsmall, hb⟩ := sub_near (F := ℝ) (hgsmall.mono (k := 7 + 447 * (j : ℤ) + 438) (by omega))
    (hpsmall.mono (by omega)) (by omega)
  have hstep : taylorStep a2 (top - 2 * j) s
      = (fromshort k * s.1, fromshort k * s.1 - a2 * s.2) := by
    rw [taylorStep, hkcast]
  rw [← val_cast (fromshort k), fromshort_val hk1, Rat.cast_natCast] at hgval
  generalize fromshort k * s.1 = g at *
  generalize a2 * s.2 = p at *
  -- one more factor `1 - δ` in `g`
  have hgnear : |g.val ℝ - ((top - 2 * (j + 1))! : ℝ)⁻¹|
      ≤ 2 * ((j + 1 : ℕ) + 1) * eps ℝ * ((top - 2 * (j + 1))! : ℝ)⁻¹ := by
    have := abs_mul_cut_sub_le (c := k) (Nat.cast_nonneg k) hδ0 hδ.le (by nlinarith)
      (abs_of_nonneg (by positivity)).le h.near_g
    rw [hG', hgval]
    refine this.trans (le_of_eq ?_)
    push_cast
    ring
  -- the product keeps the error of the sum, as the argument is at most `1`
  have hpnear : |p.val ℝ - a2.val ℝ * alternating top (a2.val ℝ) j|
      ≤ (16 * (j + 1) * eps ℝ + 2 * eps ℝ) * ((top - 2 * j)! : ℝ)⁻¹ := by
    rw [hpval]
    refine (abs_mul_cut_sub_le h0 hγ0 hγ.le (by nlinarith)
      ((abs_of_nonneg hmem.1).trans_le hmem.2) h.near_b).trans ?_
    exact mul_le_mul_of_nonneg_left (mul_le_of_le_one_left (by positivity) h1) (by positivity)
  have hproduct : a2.val ℝ * alternating top (a2.val ℝ) j ≤ ((top - 2 * j)! : ℝ)⁻¹ :=
    (mul_le_of_le_one_left hmem.1 h1).trans hmem.2
  have hproduct0 := mul_nonneg h0 hmem.1
  rw [hstep]
  refine ⟨hgsmall.mono (by omega), hbsmall.mono (by omega), hgnear, ?_⟩
  show |(g - p).val ℝ - alternating top (a2.val ℝ) (j + 1)| ≤ _
  rw [alternating]
  push_cast at hgnear ⊢
  refine (abs_difference_sub_le heps.le heps1 hj0 hj' hdouble hproduct0 hproduct ?_ hpnear hb).trans
    (le_of_eq (by ring))
  exact hgnear.trans (le_of_eq (by ring))

/-- The loop, from an approximation of `1 / top!`. -/
theorem Taylor.loop {steps : ℕ} (ha : Small 419 a2) (h0 : 0 ≤ a2.val ℝ) (h1 : a2.val ℝ ≤ 1)
    (htop : top ≤ 32) (hsteps : 2 * steps ≤ top) (h : Taylor top 0 (a2.val ℝ) s) :
    Taylor top steps (a2.val ℝ) (taylorLoop a2 top steps s) := by
  rw [taylorLoop]
  refine forRange_induction (fun j s => Taylor top j (a2.val ℝ) s) h fun j hj s hs => ?_
  exact hs.step ha h0 h1 htop (by omega)

/-- A constant `1 / top!`. -/
theorem taylor_zero {g : N} (x : ℝ) (hg : Small 7 g)
    (h : |g.val ℚ - (top ! : ℚ)⁻¹| ≤ 2 * eps ℚ * (top ! : ℚ)⁻¹) : Taylor top 0 x (g, g) := by
  have h' : |g.val ℝ - (top ! : ℝ)⁻¹| ≤ 2 * eps ℝ * (top ! : ℝ)⁻¹ := by
    have hcast := (Rat.cast_le (K := ℝ)).mpr h
    rw [eps] at hcast
    push_cast [val_cast] at hcast
    rw [eps]
    push_cast
    exact hcast
  have hpos : 0 ≤ eps ℝ * (top ! : ℝ)⁻¹ := mul_nonneg eps_real_pos.le (by positivity)
  refine ⟨hg.mono (by omega), hg.mono (by omega), ?_, ?_⟩
  · rw [Nat.mul_zero, Nat.sub_zero, Nat.cast_zero, zero_add, mul_one]
    exact h'
  · rw [alternating, Nat.mul_zero, Nat.sub_zero, Nat.cast_zero, zero_add, mul_one]
    linarith

/-! ### Constants -/

theorem ofDigits_val {expt : Int16} {digits : List UInt16} {e : ℤ} {m : ℕ}
    (hm : (ofDigits 1 expt digits).mant = m) (he : expt.toInt = e) :
    (ofDigits 1 expt digits).val ℚ = m * (65536 : ℚ) ^ (e - 10) := by
  rw [val, ulp, hm, Nat.cast_ofNat]
  show ((1 : ℤ) : ℚ) * m * 65536 ^ (expt.toInt - (len : ℤ)) = _
  rw [he, Int.cast_one, one_mul, len]
  rfl

theorem ofDigits_small {expt : Int16} {digits : List UInt16} {k : ℤ}
    (hm : 65536 ^ (len - 1) ≤ (ofDigits 1 expt digits).mant) (hlow : -k ≤ expt.toInt)
    (hhigh : expt.toInt ≤ k) : Small k (ofDigits 1 expt digits) :=
  ⟨Or.inr ⟨digit_ne_zero hm, Or.inl rfl⟩, Or.inr ⟨hlow, hhigh⟩⟩

theorem i31fac_small : Small 7 i31fac := ofDigits_small (by decide) (by decide) (by decide)

theorem i32fac_small : Small 7 i32fac := ofDigits_small (by decide) (by decide) (by decide)

theorem n2pi_small : Small 1 n2pi := ofDigits_small (by decide) (by decide) (by decide)

/-- `1 / 31!`, with an error of less than two units of the last digit. -/
theorem i31fac_near : |i31fac.val ℚ - (31 ! : ℚ)⁻¹| ≤ 2 * eps ℚ * (31 ! : ℚ)⁻¹ := by
  rw [i31fac, ofDigits_val (e := -7)
    (m := 922862612219820878774039978235470020665469922743) (by decide) rfl]
  norm_num [Nat.factorial, eps, len, abs_le]

theorem i32fac_near : |i32fac.val ℚ - (32 ! : ℚ)⁻¹| ≤ 2 * eps ℚ * (32 ! : ℚ)⁻¹ := by
  rw [i32fac, ofDigits_val (e := -7)
    (m := 28839456631869402461688749319858438145795935086) (by decide) rfl]
  norm_num [Nat.factorial, eps, len, abs_le]

theorem n2pi_near : |n2pi.val ℝ - 2 * Real.pi| ≤ eps ℝ := by
  have hval : n2pi.val ℚ
      = 140119714570563321575464025871072727308781586 * (65536 : ℚ) ^ (-9 : ℤ) := by
    rw [n2pi, ofDigits_val (e := 1)
      (m := 140119714570563321575464025871072727308781586) (by decide) rfl]
    norm_num
  -- the digits against partial sums of Machin's formula, in rational arithmetic
  have hcut : |n2pi.val ℚ - 2 * (16 * arctanInv 5 33 - 4 * arctanInv 239 9)|
      ≤ eps ℚ * (9 / 10) := by
    rw [hval]
    norm_num [arctanInv, Finset.sum_range_succ, eps, len, abs_le]
  have hmachin := machin 33 9
  have hsmall : (16 : ℝ) / ((2 * (33 : ℕ) + 1) * 5 ^ (2 * 33 + 1))
      + 4 / ((2 * (9 : ℕ) + 1) * 239 ^ (2 * 9 + 1)) ≤ eps ℝ * (1 / 20) := by
    norm_num [eps, len]
  have hcut' : |n2pi.val ℝ - 2 * (16 * arctanInv 5 33 - 4 * arctanInv 239 9 : ℚ)|
      ≤ eps ℝ * (9 / 10) := by
    have h := (Rat.cast_le (K := ℝ)).mpr hcut
    rw [eps] at h
    push_cast [val_cast] at h
    rw [eps]
    push_cast
    exact h
  have hpi := hmachin.trans hsmall
  rw [abs_le] at *
  constructor <;> linarith

/-! ### Sine and cosine -/

section

variable {a : N}

/-- The square that both functions compute first. -/
theorem square_near (ha : Small 200 a) (h0 : 0 ≤ a.val ℝ) (h1 : a.val ℝ ≤ 1) :
    Small 419 (a * a) ∧ 0 ≤ (a * a).val ℝ ∧ (a * a).val ℝ ≤ 1 ∧
      |(a * a).val ℝ - a.val ℝ ^ 2| ≤ eps ℝ := by
  obtain ⟨hsmall, h⟩ := mul_truncates (F := ℝ) ha ha (by decide)
  obtain ⟨δ, hδ0, hδ, hval⟩ := h.exists_rel
  have heps := eps_real_le
  have hsq : a.val ℝ * a.val ℝ ≤ 1 := mul_le_one₀ h1 h0 h1
  have hsq0 := mul_self_nonneg (a.val ℝ)
  have hcut : a.val ℝ * a.val ℝ * δ ≤ 1 * eps ℝ := mul_le_mul hsq hδ.le hδ0 zero_le_one
  have hcut0 := mul_nonneg hsq0 hδ0
  have hle : a.val ℝ * a.val ℝ * δ ≤ a.val ℝ * a.val ℝ * 1 :=
    mul_le_mul_of_nonneg_left (by linarith) hsq0
  rw [hval, sq, mul_sub, mul_one]
  refine ⟨hsmall, by linarith, by linarith, ?_⟩
  rw [sub_sub_cancel_left, abs_neg, abs_of_nonneg hcut0]
  linarith

/-- The sum that the loop leaves, for the square of `a` itself. -/
theorem Taylor.sum_near {top t : ℕ} {s : N × N} (h : Taylor top t ((a * a).val ℝ) s)
    (ha : Small 200 a) (h0 : 0 ≤ a.val ℝ) (h1 : a.val ℝ ≤ 1) (htop : top ≤ 2 * t + 1)
    (ht : 2 * t ≤ top) :
    |s.2.val ℝ - alternating top (a.val ℝ ^ 2) t| ≤ (16 * (t + 1) + 1) * eps ℝ := by
  obtain ⟨-, hsq0, hsq1, hsq⟩ := square_near ha h0 h1
  have hone : ((top - 2 * t)! : ℝ)⁻¹ = 1 := by
    rcases (by omega : top - 2 * t = 0 ∨ top - 2 * t = 1) with h | h <;> rw [h] <;> simp
  have hnear := h.near_b
  have hmove := abs_alternating_sub_le hsq0 hsq1 (sq_nonneg (a.val ℝ)) (pow_le_one₀ h0 h1) ht
  rw [hone, mul_one] at hnear hmove
  calc |s.2.val ℝ - alternating top (a.val ℝ ^ 2) t|
      ≤ |s.2.val ℝ - alternating top ((a * a).val ℝ) t|
        + |alternating top ((a * a).val ℝ) t - alternating top (a.val ℝ ^ 2) t| :=
        abs_sub_le _ _ _
    _ ≤ 16 * (t + 1) * eps ℝ + eps ℝ := add_le_add hnear (hmove.trans hsq)
    _ = (16 * (t + 1) + 1) * eps ℝ := by ring

theorem mcos_near (ha : Small 200 a) (h0 : 0 ≤ a.val ℝ) (h1 : a.val ℝ ≤ 4 / 5) :
    |(mcos a).val ℝ - Real.cos (a.val ℝ)| ≤ 1 / 2 ^ 122 := by
  obtain ⟨hsmall, hsq0, hsq1, -⟩ := square_near ha h0 (by linarith)
  have hloop := Taylor.loop hsmall hsq0 hsq1 le_rfl (show 2 * 16 ≤ 32 by decide)
    (taylor_zero _ i32fac_small i32fac_near)
  have hsum := hloop.sum_near ha h0 (by linarith) (by decide) (by decide)
  have hrest := abs_cos_sub_le (x := a.val ℝ) (by rw [abs_of_nonneg h0]; linarith) 16
  have hpow : |a.val ℝ| ^ (2 * 16 + 2) ≤ 1 := pow_le_one₀ (abs_nonneg _) (by
    rw [abs_of_nonneg h0]
    linarith)
  have hrest' := hrest.trans (mul_le_mul_of_nonneg_right hpow (by positivity))
  show |(taylorLoop (a * a) (32 : ℕ) 16 (i32fac, i32fac)).2.val ℝ - _| ≤ _
  rw [abs_sub_comm] at hrest'
  refine (abs_sub_le _ _ _).trans ((add_le_add hsum hrest').trans ?_)
  norm_num [eps, len, Nat.factorial]

/-- The factor of `a` in the sine. -/
theorem exists_msin (ha : Small 200 a) (h0 : 0 ≤ a.val ℝ) (h1 : a.val ℝ ≤ 1) :
    ∃ b, msin a = a * b ∧ Small 6712 b ∧
      |b.val ℝ - alternating 31 (a.val ℝ ^ 2) 15| ≤ 257 * eps ℝ := by
  obtain ⟨hsmall, hsq0, hsq1, -⟩ := square_near ha h0 h1
  have hloop := Taylor.loop hsmall hsq0 hsq1 (by decide) (show 2 * 15 ≤ 31 by decide)
    (taylor_zero _ i31fac_small i31fac_near)
  have hsum := hloop.sum_near ha h0 h1 (by decide) (by decide)
  refine ⟨_, rfl, hloop.small_b.mono (by decide), hsum.trans (le_of_eq ?_)⟩
  push_cast
  ring

theorem msin_near (ha : Small 200 a) (h0 : 0 ≤ a.val ℝ) (h1 : a.val ℝ ≤ 4 / 5) :
    |(msin a).val ℝ - Real.sin (a.val ℝ)| ≤ 1 / 2 ^ 122 := by
  obtain ⟨b, hrun, hb, hsum⟩ := exists_msin ha h0 (by linarith)
  obtain ⟨δ, hδ0, hδ, hval⟩ := (mul_truncates (F := ℝ) ha hb (by decide)).2.exists_rel
  have hrest := abs_sin_sub_le (x := a.val ℝ) (by rw [abs_of_nonneg h0]; linarith) 15
  have hpow : |a.val ℝ| ^ (2 * 15 + 2) ≤ (4 / 5) ^ (2 * 15 + 2) := by
    rw [abs_of_nonneg h0]
    exact pow_le_pow_left₀ h0 h1 _
  have hrest' := hrest.trans (mul_le_mul_of_nonneg_right hpow (by positivity))
  have hmem := alternating_mem (sq_nonneg (a.val ℝ)) (pow_le_one₀ h0 (by linarith))
    (show 2 * 15 ≤ 31 by decide)
  have hone : ((31 - 2 * 15)! : ℝ)⁻¹ = 1 := by simp
  rw [hone] at hmem
  have hproduct : |(a * b).val ℝ - a.val ℝ * alternating 31 (a.val ℝ ^ 2) 15| ≤ 259 * eps ℝ := by
    have heps : 257 * eps ℝ ≤ 1 := by norm_num [eps, len]
    rw [hval]
    refine (abs_mul_cut_sub_le (G := 1) h0 hδ0 hδ.le heps ?_ (by rwa [mul_one])).trans ?_
    · exact (abs_of_nonneg hmem.1).trans_le hmem.2
    · have := mul_le_mul_of_nonneg_left (show a.val ℝ ≤ 1 by linarith) eps_real_pos.le
      linarith
  rw [hrun]
  rw [abs_sub_comm] at hrest'
  refine (abs_sub_le _ _ _).trans ((add_le_add hproduct hrest').trans ?_)
  norm_num [eps, len, Nat.factorial]

theorem msin_ne_zero (ha : Small 200 a) (h0 : 0 < a.val ℝ) (h1 : a.val ℝ ≤ 1) : msin a ≠ zero := by
  obtain ⟨b, hrun, hb, hsum⟩ := exists_msin ha h0.le h1
  have hhalf := half_le_alternating (sq_nonneg (a.val ℝ)) (pow_le_one₀ h0.le h1)
    (show 2 * (14 + 1) ≤ 31 by decide)
  have hb0 : 0 < b.val ℝ := by
    have heps : 257 * eps ℝ ≤ 1 / 4 := by norm_num [eps, len]
    have hone : ((31 - 2 * (14 + 1))! : ℝ)⁻¹ = 1 := by simp
    have := (abs_le.mp hsum).1
    rw [hone] at hhalf
    linarith
  rw [hrun]
  intro h
  exact (mul_pos h0 hb0).ne' ((mul_truncates (F := ℝ) ha hb (by decide)).2.eq_zero.mp h)

theorem mcos_ne_zero (ha : Small 200 a) (h0 : 0 ≤ a.val ℝ) (h1 : a.val ℝ ≤ 4 / 5) :
    mcos a ≠ zero := by
  have hnear := mcos_near ha h0 h1
  have hcos := Real.one_sub_sq_div_two_le_cos (x := a.val ℝ)
  have hsq : a.val ℝ ^ 2 ≤ 1 := pow_le_one₀ h0 (by linarith)
  intro h
  rw [h, val_zero, zero_sub, abs_neg, abs_of_nonneg (by linarith)] at hnear
  norm_num at hnear
  linarith

end

end BenchFFT.Mp
