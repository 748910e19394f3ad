import BenchFFT.Mp.Equiv.Convert
import BenchFFT.Mp.Equiv.Product
import BenchFFT.Mp.Equiv.Sum

/-!
# Newton's iteration ends

Let `p = a * x`.  The loop multiplies `x` by `z = 2 - q * eps`, where `q * eps` is `p` cut to a
multiple of `eps`, and ends when `q * eps = 1`, so when `1 ≤ p < 1 + eps`.

* From any `p` near `1`, the next one is less than `1 + eps` (`step_bounds`).
* While `p < 1`, the factor is at least `1 + eps`, and `x` grows by one unit of its last digit at
  least (`Truncates.add_ulp_le`), also where its exponent changes.

As `x` is bounded, the loop ends.
-/

namespace BenchFFT.Mp

open Limbs N

/-! ### The step, on numbers -/

theorem eps_pos : 0 < eps ℚ := by
  rw [eps]
  positivity

theorem eps_mul : (65536 ^ 9 : ℤ) * eps ℚ = 1 := by
  norm_num [eps, len]

/-- The factor of the step: `2 - p`, where `p` is cut to a multiple of `eps`. -/
def factor (p : ℚ) : ℚ := 2 - ⌊p / eps ℚ⌋ * eps ℚ

theorem factor_eq_one_iff (p : ℚ) : factor p = 1 ↔ 1 ≤ p ∧ p < 1 + eps ℚ := by
  have heps := eps_pos
  have hmul := eps_mul
  have hone : factor p = 1 ↔ ⌊p / eps ℚ⌋ = 65536 ^ 9 := by
    rw [factor]
    constructor
    · intro h
      have hq : (⌊p / eps ℚ⌋ : ℚ) * eps ℚ = (65536 ^ 9 : ℤ) * eps ℚ := by
        rw [hmul]
        linarith
      exact_mod_cast mul_right_cancel₀ heps.ne' hq
    · intro h
      rw [h, hmul]
      norm_num
  rw [hone, Int.floor_eq_iff, le_div_iff₀ heps, div_lt_iff₀ heps, hmul, add_mul, hmul, one_mul]

variable {p : ℚ}

theorem step_bounds (hlow : 1 / 2 ≤ p) (hhigh : p ≤ 3 / 2) :
    3 / 4 ≤ p * factor p ∧ p * factor p < 1 + eps ℚ ∧ (p < 1 → 1 + eps ℚ ≤ factor p) := by
  have heps := eps_pos
  have hmul := eps_mul
  have hle : ⌊p / eps ℚ⌋ * eps ℚ ≤ p := (le_div_iff₀ heps).mp (Int.floor_le _)
  have hlt : p < (⌊p / eps ℚ⌋ + 1) * eps ℚ := (div_lt_iff₀ heps).mp (Int.lt_floor_add_one _)
  have hbelow : p < 1 → ⌊p / eps ℚ⌋ * eps ℚ ≤ 1 - eps ℚ := by
    intro h
    have hq : ⌊p / eps ℚ⌋ < 65536 ^ 9 := by
      rw [Int.floor_lt, div_lt_iff₀ heps, hmul]
      exact h
    have hq' : ((⌊p / eps ℚ⌋ + 1 : ℤ) : ℚ) ≤ (65536 ^ 9 : ℤ) := Int.cast_le.mpr hq
    have := mul_le_mul_of_nonneg_right hq' heps.le
    rw [hmul] at this
    push_cast at this
    linarith
  have habove : 1 ≤ p → 1 ≤ ⌊p / eps ℚ⌋ * eps ℚ := by
    intro h
    have hq : 65536 ^ 9 ≤ ⌊p / eps ℚ⌋ := by
      rw [Int.le_floor, le_div_iff₀ heps, hmul]
      exact h
    have := mul_le_mul_of_nonneg_right (Int.cast_le (R := ℚ).mpr hq) heps.le
    rwa [hmul] at this
  rw [factor]
  rw [add_mul, one_mul] at hlt
  generalize ⌊p / eps ℚ⌋ * eps ℚ = c at *
  -- `p * (2 - c) = 1 - (p - 1) ^ 2 + p * (p - c)`
  rcases lt_or_ge p 1 with h1 | h1
  · refine ⟨by nlinarith, by nlinarith, fun _ => by linarith [hbelow h1]⟩
  · have := habove h1
    exact ⟨by nlinarith, by nlinarith, fun h => absurd h1 h.not_ge⟩

/-! ### The step, on digits -/

namespace N

variable {a x w : N}

theorem fromshort_mant {n : ℕ} (hn : n < 65536) : (fromshort n).mant = n * 65536 ^ (len - 1) := by
  have hdigit : ∀ i, (fromshort n).digit i = if i = len - 1 then UInt16.ofInt n else 0 := by
    intro i
    by_cases hi : i < len
    · rw [digit, dif_pos hi]
      show (if i = len - 1 then UInt16.ofInt (if (n : ℤ) < 0 then -n else n) else 0) = _
      rw [if_neg (by omega : ¬(n : ℤ) < 0)]
    · rw [digit_of_le _ (not_lt.mp hi), if_neg (by rw [len] at *; omega)]
  have hlow : (value 65536 (len - 1) fun i => ((fromshort n).digit i).toNat) = 0 :=
    (value_eq_zero_iff (by decide)).mpr fun i hi => by
      rw [hdigit, if_neg hi.ne]
      rfl
  have htop := toNat_ofInt (v := n) (by omega) (by omega)
  rw [mant, show len = len - 1 + 1 from rfl, value_succ, hlow, Nat.zero_add, hdigit, if_pos rfl]
  exact congrArg (· * 65536 ^ (len - 1)) (by exact_mod_cast htop)

theorem fromshort_sign (n : ℕ) : (fromshort n).sign = 1 := by
  show (if (n : ℤ) < 0 then (-1 : ℤ) else 1) = 1
  exact if_neg (by omega)

theorem fromshort_small {n : ℕ} (h0 : 0 < n) (hn : n < 65536) : Small 1 (fromshort n) := by
  have hexpt : (fromshort n).expt.toInt = 1 := rfl
  refine ⟨Or.inr ⟨digit_ne_zero ?_, Or.inl (fromshort_sign n)⟩, Or.inr ⟨by omega, by omega⟩⟩
  rw [fromshort_mant hn]
  exact Nat.le_mul_of_pos_left _ h0

theorem fromshort_ulp (n : ℕ) : (fromshort n).ulp ℚ = eps ℚ := by
  have hexpt : (fromshort n).expt.toInt = 1 := rfl
  rw [ulp, hexpt, eps, len]
  norm_num

theorem fromshort_val {n : ℕ} (hn : n < 65536) : (fromshort n).val ℚ = n := by
  rw [val, fromshort_ulp, fromshort_mant hn, fromshort_sign, Int.cast_one, one_mul, Nat.cast_mul,
    mul_assoc]
  norm_num [eps, len]

/-- The comparison of the magnitudes. -/
theorem le_of_not_abscmp {a b : N} (ha : a.Canonical) (hb : b.Canonical)
    (h : ¬0 < abscmp a b) : |a.val ℚ| ≤ |b.val ℚ| := by
  rcases abscmp_cases (F := ℚ) ha hb with ⟨h1, -⟩ | ⟨-, heq⟩ | ⟨-, hlt⟩
  · exact absurd Int.one_pos (h1 ▸ h)
  · exact heq.le
  · exact hlt.le

/-- What is left of `w` next to the digits of `2`. -/
theorem Truncates.floor_div_eps (hw : Truncates w p) (hp : 0 < p)
    (hdom : Dominates (fromshort 2) w) :
    ⌊p / eps ℚ⌋ = (w.mant / 65536 ^ shift (fromshort 2) w : ℕ) := by
  have hle := hw.le
  have hlt := hw.lt
  rw [abs_of_pos hp] at hle hlt
  rw [abs_val hw.canonical.isSign, ← add_one_mul] at hlt
  have hulp : (fromshort 2).ulp ℚ = eps ℚ := fromshort_ulp 2
  have hdiv : w.mant + 1 ≤ (w.mant / 65536 ^ shift (fromshort 2) w + 1)
      * 65536 ^ shift (fromshort 2) w := by
    rw [Nat.add_mul, Nat.one_mul]
    exact Nat.lt_div_mul_add (by positivity)
  have hdiv' : (w.mant + 1 : ℚ) ≤ ((w.mant / 65536 ^ shift (fromshort 2) w : ℕ) + 1)
      * 65536 ^ shift (fromshort 2) w := by exact_mod_cast hdiv
  have hlower := hdom.moved (F := ℚ)
  rw [Int.floor_eq_iff, le_div_iff₀ eps_pos, div_lt_iff₀ eps_pos, Int.cast_natCast, ← hulp]
  refine ⟨hlower.1.trans (by rwa [← abs_val hw.canonical.isSign]), ?_⟩
  rw [hdom.ulp_eq, ← mul_assoc]
  exact hlt.trans_le (mul_le_mul_of_nonneg_right hdiv' w.ulp_pos.le)

/-- The digits of `w` below the ones of `2` are dropped. -/
theorem two_sub (hw : Truncates w p) (hp : 0 < p) (hp2 : p < 2) :
    Small 10 (fromshort 2 - w) ∧ (fromshort 2 - w).val ℚ = factor p := by
  have h0 : w ≠ zero := fun h => hp.ne' (hw.eq_zero.mp h)
  have hsign : w.sign = 1 := by
    rcases hw.canonical.isSign with h | h
    · exact h
    · have := hw.sign
      rw [h] at this
      push_cast at this
      linarith
  have hle := hw.le
  rw [abs_of_pos hp] at hle
  have htwo : Small 1 (fromshort 2) := fromshort_small (n := 2) (by decide) (by decide)
  have htwo_sign : (fromshort 2).sign = 1 := rfl
  have htwo_ulp : (fromshort 2).ulp ℚ = eps ℚ := fromshort_ulp 2
  have htwo_mant : (fromshort 2).mant = 2 * 65536 ^ (len - 1) := fromshort_mant (n := 2) (by decide)
  have htwo_val : (fromshort 2).val ℚ = 2 := fromshort_val (n := 2) (by decide)
  -- the digits of `2` come first in the comparison, so they are the minuend
  have hcmp : 0 < abscmp (fromshort 2) w := by
    by_contra h
    have h2 := (le_of_not_abscmp htwo.canonical hw.canonical h).trans hle
    rw [htwo_val, abs_two] at h2
    exact absurd hp2 h2.not_gt
  have hdom := dominates_of_abscmp htwo.canonical hcmp
  obtain ⟨hsmall, hval⟩ := submag0_val (F := ℚ) (s := 1) (w := 64) (by decide)
    (Or.inl rfl) htwo (by decide) hdom
  have hrun : fromshort 2 - w = submag0 64 1 (fromshort 2) w := by
    show sub _ _ _ = _
    rw [sub, if_pos (htwo_sign.trans hsign.symm), submag, if_pos hcmp]
  rw [hrun]
  refine ⟨hsmall, ?_⟩
  rw [hval, factor, hw.floor_div_eps hp hdom, htwo_sign, htwo_ulp, Nat.cast_sub hdom.mant,
    htwo_mant, Int.cast_natCast]
  have hmul := eps_mul
  generalize ((w.mant / 65536 ^ shift (fromshort 2) w : ℕ) : ℚ) = q
  push_cast at hmul ⊢
  rw [len]
  linear_combination 2 * hmul

theorem add_one_mul_ulp_le (a : N) : (a.mant + 1) * a.ulp ℚ ≤ (65536 : ℚ) ^ a.expt.toInt := by
  have hm : (a.mant + 1 : ℚ) ≤ 65536 ^ len := by exact_mod_cast a.mant_lt
  calc (a.mant + 1) * a.ulp ℚ ≤ 65536 ^ len * a.ulp ℚ :=
        mul_le_mul_of_nonneg_right hm a.ulp_pos.le
    _ = (65536 : ℚ) ^ a.expt.toInt := by
      rw [ulp, ← zpow_natCast, Nat.cast_ofNat, ← zpow_add₀ (by norm_num), add_sub_cancel]

/-- A number that is one unit of the last digit above `x` is not cut to one below that. -/
theorem Truncates.add_ulp_le {c : N} {y : ℚ} (h : Truncates c y) (hx : x.Canonical) (h0 : x ≠ zero)
    (hle : |x.val ℚ| + x.ulp ℚ ≤ |y|) :
    |x.val ℚ| + x.ulp ℚ ≤ |c.val ℚ| ∧ x.expt.toInt ≤ c.expt.toInt := by
  have hpos := x.ulp_pos (F := ℚ)
  have hlow := le_abs_val (F := ℚ) hx h0
  have hc0 : c ≠ zero := by
    intro hc
    rw [h.eq_zero.mp hc, abs_zero] at hle
    have := abs_nonneg (x.val ℚ)
    linarith
  have hlt := h.lt
  rw [abs_val h.canonical.isSign, ← add_one_mul] at hlt
  -- a smaller exponent would leave no room for `x` and its last digit
  have hexpt : x.expt.toInt ≤ c.expt.toInt := by
    have hpow : (65536 : ℚ) ^ (x.expt.toInt - 1) < 65536 ^ c.expt.toInt := by
      linarith [add_one_mul_ulp_le c]
    rw [zpow_lt_zpow_iff_right₀ (by norm_num)] at hpow
    omega
  refine ⟨?_, hexpt⟩
  rw [abs_val hx.isSign, ← add_one_mul] at hle ⊢
  rcases hexpt.eq_or_lt with heq | hexpt
  · have hulp : c.ulp ℚ = x.ulp ℚ := by rw [ulp, ulp, heq]
    rw [hulp] at hlt
    have hmant := lt_of_mul_lt_mul_right (hle.trans_lt hlt) hpos.le
    rw [abs_val h.canonical.isSign, hulp]
    refine mul_le_mul_of_nonneg_right ?_ hpos.le
    have : x.mant + 1 < c.mant + 1 := by exact_mod_cast hmant
    exact_mod_cast Nat.lt_of_succ_lt_succ this
  · -- the exponent grows, and the least number with the new one is large enough
    calc (x.mant + 1) * x.ulp ℚ ≤ (65536 : ℚ) ^ x.expt.toInt := add_one_mul_ulp_le x
      _ ≤ 65536 ^ (c.expt.toInt - 1) := zpow_le_zpow_right₀ (by norm_num) (by omega)
      _ ≤ |c.val ℚ| := le_abs_val h.canonical hc0

variable {k : ℤ}

theorem small_of_product (ha : Small k a) (ha0 : a ≠ zero) (hx : x.Canonical) (hx0 : x ≠ zero)
    (hlow : 1 / 2 ≤ a.val ℚ * x.val ℚ) (hhigh : a.val ℚ * x.val ℚ < 2) : Small (k + 2) x := by
  have hrange := ha.range.resolve_left ha0
  have habs : |a.val ℚ| * |x.val ℚ| = a.val ℚ * x.val ℚ := by
    rw [← abs_mul, abs_of_pos (by linarith)]
  -- the exponents add up to `0` or `1`
  have hge : (65536 : ℚ) ^ (-1 : ℤ) < 65536 ^ (a.expt.toInt + x.expt.toInt) := by
    calc (65536 : ℚ) ^ (-1 : ℤ) < 1 / 2 := by norm_num
      _ ≤ |a.val ℚ| * |x.val ℚ| := by rwa [habs]
      _ ≤ 65536 ^ a.expt.toInt * 65536 ^ x.expt.toInt :=
        mul_le_mul (abs_val_lt ha.canonical.isSign).le (abs_val_lt hx.isSign).le (abs_nonneg _)
          (by positivity)
      _ = 65536 ^ (a.expt.toInt + x.expt.toInt) := (zpow_add₀ (by norm_num) _ _).symm
  have hle : (65536 : ℚ) ^ ((a.expt.toInt - 1) + (x.expt.toInt - 1)) < 65536 ^ (1 : ℤ) := by
    calc (65536 : ℚ) ^ ((a.expt.toInt - 1) + (x.expt.toInt - 1))
        = 65536 ^ (a.expt.toInt - 1) * 65536 ^ (x.expt.toInt - 1) := zpow_add₀ (by norm_num) _ _
      _ ≤ |a.val ℚ| * |x.val ℚ| :=
        mul_le_mul (le_abs_val ha.canonical ha0) (le_abs_val hx hx0) (by positivity) (abs_nonneg _)
      _ < 65536 ^ (1 : ℤ) := by
        rw [habs, zpow_one]
        linarith
  rw [zpow_lt_zpow_iff_right₀ (by norm_num)] at hge hle
  exact ⟨hx, Or.inr ⟨by omega, by omega⟩⟩

end N

/-! ### The loop -/

section Newton

variable {a x : N} {k : ℤ}

/-- The product with the factor of the step. -/
theorem newton_step (ha : Small k a) (hk : k ≤ 1000) (ha0 : a ≠ zero) (hx : x.Canonical)
    (hx0 : x ≠ zero) (hlow : 1 / 2 ≤ a.val ℚ * x.val ℚ) (hhigh : a.val ℚ * x.val ℚ < 2) :
    (fromshort 2 - a * x).Canonical ∧
      (fromshort 2 - a * x).val ℚ = factor (a.val ℚ * x.val ℚ) ∧
      Truncates (x * (fromshort 2 - a * x)) (x.val ℚ * factor (a.val ℚ * x.val ℚ)) := by
  have hxs := small_of_product ha ha0 hx hx0 hlow hhigh
  obtain ⟨-, hw⟩ := mul_truncates (F := ℚ) ha hxs (by omega)
  obtain ⟨hz, hval⟩ := two_sub hw (by linarith) hhigh
  have h := mul_truncates (F := ℚ) hxs hz (by omega)
  rw [hval] at h
  exact ⟨hz.canonical, hval, h.2⟩

theorem newton_exit (ha : Small k a) (hk : k ≤ 1000) (ha0 : a ≠ zero) (hx : x.Canonical)
    (hx0 : x ≠ zero) (hlow : 1 / 2 ≤ a.val ℚ * x.val ℚ) (hhigh : a.val ℚ * x.val ℚ < 2) :
    N.eq (fromshort 1) (fromshort 2 - a * x) = true ↔
      1 ≤ a.val ℚ * x.val ℚ ∧ a.val ℚ * x.val ℚ < 1 + eps ℚ := by
  obtain ⟨hz, hval, -⟩ := newton_step ha hk ha0 hx hx0 hlow hhigh
  have hone : Small 1 (fromshort 1) := fromshort_small (n := 1) (by decide) (by decide)
  have hone_val : (fromshort 1).val ℚ = 1 := fromshort_val (n := 1) (by decide)
  rw [eq_iff (F := ℚ) hone.canonical hz, hval, hone_val, eq_comm, factor_eq_one_iff]

/-- What the step keeps, and what grows. -/
theorem newton_next (ha : Small k a) (hk : k ≤ 1000) (ha0 : a ≠ zero) (hx : x.Canonical)
    (hx0 : x ≠ zero) (hlow : 1 / 2 ≤ a.val ℚ * x.val ℚ) (hhigh : a.val ℚ * x.val ℚ ≤ 3 / 2) :
    let x' := x * (fromshort 2 - a * x)
    x'.Canonical ∧ x' ≠ zero ∧ 1 / 2 ≤ a.val ℚ * x'.val ℚ ∧ a.val ℚ * x'.val ℚ < 1 + eps ℚ ∧
      (a.val ℚ * x.val ℚ < 1 →
        |x.val ℚ| + x.ulp ℚ ≤ |x'.val ℚ| ∧ x.expt.toInt ≤ x'.expt.toInt) := by
  intro x'
  obtain ⟨-, -, ht⟩ := newton_step ha hk ha0 hx hx0 hlow (by linarith)
  obtain ⟨hstep_low, hstep_high, hgrow⟩ := step_bounds hlow hhigh
  obtain ⟨δ, hδ0, hδ1, hval⟩ := ht.exists_rel
  have heps : eps ℚ < 1 / 4 := by norm_num [eps, len]
  -- the product with the new value, up to the cut of the multiplication
  have hproduct : a.val ℚ * x'.val ℚ
      = a.val ℚ * x.val ℚ * factor (a.val ℚ * x.val ℚ) * (1 - δ) := by
    rw [hval]
    ring
  refine ⟨ht.canonical, fun h => ?_, ?_, ?_, fun h1 => ?_⟩
  · have h0 := ht.eq_zero.mp h
    rw [mul_assoc, h0, mul_zero] at hstep_low
    norm_num at hstep_low
  · rw [hproduct]
    nlinarith
  · rw [hproduct]
    nlinarith
  · apply ht.add_ulp_le hx hx0
    have hfactor := hgrow h1
    calc |x.val ℚ| + x.ulp ℚ ≤ |x.val ℚ| + eps ℚ * |x.val ℚ| :=
          add_le_add_right (hx.ulp_le hx0) _
      _ = |x.val ℚ| * (1 + eps ℚ) := by ring
      _ ≤ |x.val ℚ| * factor (a.val ℚ * x.val ℚ) :=
        mul_le_mul_of_nonneg_left hfactor (abs_nonneg _)
      _ = |x.val ℚ * factor (a.val ℚ * x.val ℚ)| := by
        rw [abs_mul, abs_of_pos (a := factor _) (by linarith [eps_pos])]

/-- Below `1 + eps`, every step that does not end the loop makes `x` greater by `u`, so that there
is no room for more than `n` steps. -/
theorem newton_run (ha : Small k a) (hk : k ≤ 1000) (ha0 : a ≠ zero) {u : ℚ} (n : ℕ)
    {x : N} (hx : x.Canonical) (hx0 : x ≠ zero) (hlow : 1 / 2 ≤ a.val ℚ * x.val ℚ)
    (hhigh : a.val ℚ * x.val ℚ < 1 + eps ℚ) (hux : u ≤ x.ulp ℚ)
    (hroom : |a.val ℚ|⁻¹ ≤ |x.val ℚ| + n * u) :
    ∃ y, newton a x = some y ∧ y.Canonical ∧ 1 ≤ a.val ℚ * y.val ℚ ∧
      a.val ℚ * y.val ℚ < 1 + eps ℚ := by
  have heps : eps ℚ < 1 / 4 := by norm_num [eps, len]
  have hstop : ∀ {x : N}, x.Canonical → x ≠ zero → 1 ≤ a.val ℚ * x.val ℚ →
      a.val ℚ * x.val ℚ < 1 + eps ℚ → ∃ y, newton a x = some y ∧ y.Canonical ∧
        1 ≤ a.val ℚ * y.val ℚ ∧ a.val ℚ * y.val ℚ < 1 + eps ℚ := by
    intro x hx hx0 h1 hlt
    refine ⟨x, ?_, hx, h1, hlt⟩
    rw [newton_eq]
    exact if_pos ((newton_exit ha hk ha0 hx hx0 (by linarith) (by linarith)).mpr ⟨h1, hlt⟩)
  -- `n` bounds the last digits left below the reciprocal
  induction n generalizing x with
  | zero =>
    have ha' : 0 < |a.val ℚ| := by
      rw [abs_pos, Ne, ha.canonical.val_eq_zero_iff]
      exact ha0
    refine hstop hx hx0 ?_ hhigh
    rw [Nat.cast_zero, zero_mul, add_zero, inv_le_iff_one_le_mul₀ ha', ← abs_mul, mul_comm,
      abs_of_pos (by linarith)] at hroom
    exact hroom
  | succ n ih =>
    by_cases h1 : 1 ≤ a.val ℚ * x.val ℚ
    · exact hstop hx hx0 h1 hhigh
    · have hexit := newton_exit ha hk ha0 hx hx0 hlow (by linarith)
      obtain ⟨hx', hx0', hlow', hhigh', hgrow⟩ := newton_next ha hk ha0 hx hx0 hlow (by linarith)
      obtain ⟨hup, hexpt⟩ := hgrow (not_le.mp h1)
      have hulp : x.ulp ℚ ≤ (x * (fromshort 2 - a * x)).ulp ℚ := by
        rw [ulp, ulp, Nat.cast_ofNat]
        exact zpow_le_zpow_right₀ (by norm_num) (by omega)
      have hroom' : |a.val ℚ|⁻¹ ≤ |(x * (fromshort 2 - a * x)).val ℚ| + n * u := by
        push_cast at hroom
        linarith
      obtain ⟨y, hy⟩ := ih hx' hx0' hlow' hhigh' (hux.trans hulp) hroom'
      refine ⟨y, ?_, hy.2⟩
      rw [newton_eq]
      exact (if_neg fun h => h1 (hexit.mp h).1).trans hy.1

theorem newton_ends (ha : Small k a) (hk : k ≤ 1000) (ha0 : a ≠ zero) (hx : x.Canonical)
    (hx0 : x ≠ zero) (hlow : 1 / 2 ≤ a.val ℚ * x.val ℚ) (hhigh : a.val ℚ * x.val ℚ ≤ 3 / 2) :
    ∃ y, newton a x = some y ∧ y.Canonical ∧ 1 ≤ a.val ℚ * y.val ℚ ∧
      a.val ℚ * y.val ℚ < 1 + eps ℚ := by
  have hrun : ∀ {x : N}, x.Canonical → x ≠ zero → 1 / 2 ≤ a.val ℚ * x.val ℚ →
      a.val ℚ * x.val ℚ < 1 + eps ℚ → ∃ y, newton a x = some y ∧ y.Canonical ∧
        1 ≤ a.val ℚ * y.val ℚ ∧ a.val ℚ * y.val ℚ < 1 + eps ℚ := by
    intro x hx hx0 hlow hhigh
    obtain ⟨n, hn⟩ := exists_nat_ge (|a.val ℚ|⁻¹ / x.ulp ℚ)
    apply newton_run ha hk ha0 n hx hx0 hlow hhigh le_rfl
    rw [div_le_iff₀ x.ulp_pos] at hn
    exact hn.trans (le_add_of_nonneg_left (abs_nonneg _))
  by_cases hexit : a.val ℚ * x.val ℚ < 1 + eps ℚ
  · exact hrun hx hx0 hlow hexit
  · obtain ⟨hx', hx0', hlow', hhigh', -⟩ := newton_next ha hk ha0 hx hx0 hlow hhigh
    obtain ⟨y, hy⟩ := hrun hx' hx0' hlow' hhigh'
    refine ⟨y, ?_, hy.2⟩
    rw [newton_eq]
    refine (if_neg fun h => ?_).trans hy.1
    exact hexit ((newton_exit ha hk ha0 hx hx0 hlow (by linarith)).mp h).2

/-- The loop ends from any first approximation of the reciprocal, with one that is right up to the
last digit. -/
theorem newton_terminates {a x : N} (ha : a.Canonical) (ha0 : a ≠ zero)
    (hexpt : |a.expt.toInt| ≤ 64) (hx : x.Canonical) (hx0 : x ≠ zero)
    (hnear : |a.val ℚ * x.val ℚ - 1| ≤ 1 / 2 ^ 20) :
    ∃ y, newton a x = some y ∧
      0 ≤ a.val ℚ * y.val ℚ - 1 ∧ a.val ℚ * y.val ℚ - 1 < 1 / 65536 ^ 9 := by
  obtain ⟨hlow, hhigh⟩ := abs_le.mp hnear
  obtain ⟨hexpt_low, hexpt_high⟩ := abs_le.mp hexpt
  have heps : eps ℚ = 1 / 65536 ^ 9 := by rw [eps, Nat.cast_ofNat, len]
  obtain ⟨y, hrun, -, hy1, hy2⟩ := newton_ends ⟨ha, Or.inr ⟨hexpt_low, hexpt_high⟩⟩ (by decide) ha0
    hx hx0 (by linarith) (by linarith)
  exact ⟨y, hrun, by linarith, by linarith⟩

theorem newton_terminates_three :
    let a := fromshort 3
    let x : N := ⟨1, 0, fun _ => 21845⟩
    ∃ y, newton a x = some y ∧
      0 ≤ a.val ℚ * y.val ℚ - 1 ∧ a.val ℚ * y.val ℚ - 1 < 1 / 65536 ^ 9 :=
  newton_terminates (Or.inr ⟨by decide, Or.inl rfl⟩) (by decide) (by decide)
    (Or.inr ⟨by decide, Or.inl rfl⟩) (by decide) (by
      have hmant : 3 * (⟨1, 0, fun _ => 21845⟩ : N).mant + 1 = 65536 ^ 10 := by decide
      have hmant' : 3 * ((⟨1, 0, fun _ => 21845⟩ : N).mant : ℚ) + 1 = 65536 ^ 10 := by
        exact_mod_cast hmant
      have hexpt : (0 : Int16).toInt = 0 := rfl
      have hthree : (fromshort 3).val ℚ = 3 := fromshort_val (n := 3) (by decide)
      rw [hthree, val, ulp, hexpt]
      generalize ((⟨1, 0, fun _ => 21845⟩ : N).mant : ℚ) = m at *
      rw [abs_le]
      norm_num [len] at *
      constructor <;> linarith)

end Newton

end BenchFFT.Mp
