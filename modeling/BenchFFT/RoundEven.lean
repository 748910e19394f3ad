import Mathlib.Algebra.Order.Field.Power
import Mathlib.Data.Int.Log
import Mathlib.Data.Rat.Floor
import Mathlib.Tactic.FieldSimp
import Mathlib.Tactic.Linarith
import Mathlib.Tactic.Positivity

/-!
# Rounding to nearest even

`roundInt q` is the integer nearest to `q`, and of two that are equally near the even one.
`roundTo p x` rounds `x` to a significand of `p` bits; the exponent is unbounded.

* A number with at most `p` significant bits is not changed (`roundTo_of_representable`), and every
  rounded number is one (`representable_roundTo`).
* It is off by at most half a unit of the last place (`abs_roundTo_sub_le`).
* Signs and powers of two can be taken out (`roundTo_neg`, `roundTo_mul_zpow`).
* What lies strictly between two neighbours of a grid that contains the midpoints is rounded to the
  same number (`roundTo_eq_of_grid`).
-/

namespace BenchFFT.RoundEven

/-- Rounds to the nearest integer, and to the even one of two that are equally near. -/
def roundInt (q : ℚ) : ℤ :=
  let k := ⌊q⌋
  if q - k < k + 1 - q then k
  else if k + 1 - q < q - k then k + 1
  else k + k % 2

/-- The distance of the numbers with `p` significant bits around `x`. -/
def spacing (p : ℕ) (x : ℚ) : ℚ := ((2 : ℕ) : ℚ) ^ (Int.log 2 |x| + 1 - p)

/-- Rounds to `p` significant bits. -/
def roundTo (p : ℕ) (x : ℚ) : ℚ := roundInt (x / spacing p x) * spacing p x

/-- `x` has at most `p` significant bits. -/
def Representable (p : ℕ) (x : ℚ) : Prop := ∃ m k : ℤ, |m| < 2 ^ p ∧ x = m * (2 : ℚ) ^ k

/-! ### Integers -/

theorem roundInt_intCast (n : ℤ) : roundInt n = n := by
  rw [roundInt, Int.floor_intCast, sub_self, if_pos (by linarith)]

theorem floor_le_roundInt (q : ℚ) : ⌊q⌋ ≤ roundInt q ∧ roundInt q ≤ ⌊q⌋ + 1 := by
  rw [roundInt]
  split_ifs <;> omega

theorem abs_roundInt_sub_le (q : ℚ) : |roundInt q - q| ≤ 1 / 2 := by
  have hlow := Int.floor_le q
  have hhigh := Int.lt_floor_add_one q
  rw [roundInt, abs_le]
  split_ifs with hdown hup
  · constructor <;> linarith
  · push_cast
    constructor <;> linarith
  · -- halfway: one of the two neighbours
    push_cast
    have hparity := Int.emod_two_eq_zero_or_one ⌊q⌋
    rcases hparity with h | h <;> rw [h] <;> push_cast <;> constructor <;> linarith

theorem roundInt_neg (q : ℚ) : roundInt (-q) = -roundInt q := by
  by_cases hint : (⌊q⌋ : ℚ) = q
  · rw [← hint, ← Int.cast_neg, roundInt_intCast, roundInt_intCast]
  · have hlt : (⌊q⌋ : ℚ) < q := lt_of_le_of_ne (Int.floor_le q) hint
    have hfloor : ⌊-q⌋ = -⌊q⌋ - 1 := by
      rw [Int.floor_eq_iff]
      push_cast
      have := Int.lt_floor_add_one q
      constructor <;> linarith
    rw [roundInt, roundInt, hfloor]
    push_cast
    generalize (⌊q⌋ : ℚ) = f at *
    have h1 : -q - (-f - 1) < -f - 1 + 1 - -q ↔ f + 1 - q < q - f := by
      constructor <;> intro h <;> linarith
    have h2 : -f - 1 + 1 - -q < -q - (-f - 1) ↔ q - f < f + 1 - q := by
      constructor <;> intro h <;> linarith
    simp only [h1, h2]
    split_ifs with hup hdown hdown
    · linarith
    · omega
    · omega
    · omega

/-- Away from the midpoint, the fraction decides how a number is rounded. -/
theorem roundInt_int_add (f : ℤ) {q : ℚ} (h0 : 0 ≤ q) (h1 : q < 1) (hmid : q ≠ 1 / 2) :
    roundInt (f + q) = if q < 1 / 2 then f else f + 1 := by
  have hfloor : ⌊(f : ℚ) + q⌋ = f := by
    rw [Int.floor_eq_iff]
    constructor <;> linarith
  have hdown : (f : ℚ) + q - f < f + 1 - (f + q) ↔ q < 1 / 2 := by
    constructor <;> intro h <;> linarith
  have hup : (f : ℚ) + 1 - (f + q) < f + q - f ↔ 1 / 2 < q := by
    constructor <;> intro h <;> linarith
  rw [roundInt, hfloor]
  simp only [hdown, hup]
  split_ifs with hlt hgt
  · rfl
  · rfl
  · exact absurd (le_antisymm (not_lt.mp hgt) (not_lt.mp hlt)) hmid

/-- The sides of a midpoint in the grid `1 / (2 * c)`. -/
theorem lt_half_grid_iff {c r : ℤ} (hc : 0 < c) {s : ℚ} (h0 : 0 < s) (h1 : s < 1) :
    (((r : ℚ) + s) / (2 * c) < 1 / 2 ↔ r < c) ∧ ((r : ℚ) + s) / (2 * c) ≠ 1 / 2 := by
  have hc' : (0 : ℚ) < c := Int.cast_pos.mpr hc
  rcases lt_or_ge r c with hlt | hge
  · have hle : (r : ℚ) + 1 ≤ c := by exact_mod_cast hlt
    have hdown : ((r : ℚ) + s) / (2 * c) < 1 / 2 := by
      rw [div_lt_div_iff₀ (by positivity) (by norm_num)]
      linarith
    exact ⟨iff_of_true hdown hlt, hdown.ne⟩
  · have hle : (c : ℚ) ≤ r := by exact_mod_cast hge
    have hup : 1 / 2 < ((r : ℚ) + s) / (2 * c) := by
      rw [div_lt_div_iff₀ (by norm_num) (by positivity)]
      linarith
    exact ⟨iff_of_false hup.not_gt hge.not_gt, hup.ne'⟩

/-- Strictly between two neighbours of the grid `1 / (2 * c)`, which contains the midpoints, the
place of a number in the grid decides how it is rounded. -/
theorem roundInt_of_grid {c : ℤ} (hc : 0 < c) (n : ℤ) {s : ℚ} (h0 : 0 < s) (h1 : s < 1) :
    roundInt ((n + s) / (2 * c)) = if n % (2 * c) < c then n / (2 * c) else n / (2 * c) + 1 := by
  have hc' : (0 : ℚ) < c := Int.cast_pos.mpr hc
  have hn := Int.emod_add_mul_ediv n (2 * c)
  have hr0 := Int.emod_nonneg n (show 2 * c ≠ 0 by omega)
  have hr1 := Int.emod_lt_of_pos n (show 0 < 2 * c by omega)
  generalize n % (2 * c) = r, n / (2 * c) = f at *
  have hval : ((n : ℚ) + s) / (2 * c) = f + (r + s) / (2 * c) := by
    rw [← hn]
    push_cast
    field_simp
    ring
  have hr0' : (0 : ℚ) ≤ r := Int.cast_nonneg hr0
  have hr1' : (r : ℚ) + 1 ≤ 2 * c := by exact_mod_cast hr1
  have hlt : ((r : ℚ) + s) / (2 * c) < 1 := by
    rw [div_lt_one (by positivity)]
    linarith
  obtain ⟨hside, hmid⟩ := lt_half_grid_iff (r := r) hc h0 h1
  rw [hval, roundInt_int_add f (by positivity) hlt hmid]
  exact if_congr hside rfl rfl

/-! ### Significands -/

variable {p : ℕ} {x : ℚ}

theorem spacing_pos (p : ℕ) (x : ℚ) : 0 < spacing p x := zpow_pos (by norm_num) _

theorem spacing_neg (p : ℕ) (x : ℚ) : spacing p (-x) = spacing p x := by
  rw [spacing, spacing, abs_neg]

theorem roundTo_neg (p : ℕ) (x : ℚ) : roundTo p (-x) = -roundTo p x := by
  rw [roundTo, roundTo, spacing_neg, neg_div, roundInt_neg, Int.cast_neg, neg_mul]

theorem roundTo_zero (p : ℕ) : roundTo p 0 = 0 := by
  have h := roundInt_intCast 0
  rw [Int.cast_zero] at h
  rw [roundTo, zero_div, h, Int.cast_zero, zero_mul]

/-- The exponent of `x`, from a power of two on either side. -/
theorem spacing_eq {e : ℤ} (hlow : (2 : ℚ) ^ e ≤ |x|) (hhigh : |x| < (2 : ℚ) ^ (e + 1)) :
    spacing p x = (2 : ℚ) ^ (e + 1 - p) := by
  have hpos : 0 < |x| := lt_of_lt_of_le (by positivity) hlow
  have h1 := (Int.zpow_le_iff_le_log (b := 2) (by decide) hpos).mp (by exact_mod_cast hlow)
  have h2 := (Int.lt_zpow_iff_log_lt (b := 2) (by decide) hpos).mp (by exact_mod_cast hhigh)
  rw [spacing, show Int.log 2 |x| = e by omega, Nat.cast_ofNat]

theorem exists_exponent (hx : x ≠ 0) :
    ∃ e : ℤ, (2 : ℚ) ^ e ≤ |x| ∧ |x| < (2 : ℚ) ^ (e + 1) := by
  refine ⟨Int.log 2 |x|, ?_, ?_⟩
  · exact_mod_cast Int.zpow_log_le_self (b := 2) (by decide) (abs_pos.mpr hx)
  · exact_mod_cast Int.lt_zpow_succ_log_self (b := 2) (by decide) |x|

theorem spacing_le (p : ℕ) (hx : x ≠ 0) : spacing p x ≤ |x| * 2 ^ (1 - p : ℤ) := by
  obtain ⟨e, hlow, hhigh⟩ := exists_exponent hx
  rw [spacing_eq hlow hhigh, add_sub_assoc, zpow_add₀ (by norm_num)]
  exact mul_le_mul_of_nonneg_right hlow (by positivity)

/-- The error is at most half a unit of the last place. -/
theorem abs_roundTo_sub_le (p : ℕ) (x : ℚ) : |roundTo p x - x| ≤ spacing p x / 2 := by
  have hS := spacing_pos p x
  have hsplit : roundTo p x - x = (roundInt (x / spacing p x) - x / spacing p x) * spacing p x := by
    rw [roundTo, sub_mul, div_mul_cancel₀ _ hS.ne']
  calc |roundTo p x - x|
      = |roundInt (x / spacing p x) - x / spacing p x| * spacing p x := by
        rw [hsplit, abs_mul, abs_of_pos hS]
    _ ≤ 1 / 2 * spacing p x := mul_le_mul_of_nonneg_right (abs_roundInt_sub_le _) hS.le
    _ = spacing p x / 2 := by ring

theorem roundTo_mul_zpow (p : ℕ) (x : ℚ) (k : ℤ) :
    roundTo p (x * (2 : ℚ) ^ k) = roundTo p x * (2 : ℚ) ^ k := by
  rcases eq_or_ne x 0 with rfl | hx
  · rw [zero_mul, roundTo_zero, zero_mul]
  · obtain ⟨e, hlow, hhigh⟩ := exists_exponent hx
    have hk : (0 : ℚ) < 2 ^ k := by positivity
    have hscaled : spacing p (x * (2 : ℚ) ^ k) = spacing p x * (2 : ℚ) ^ k := by
      rw [spacing_eq hlow hhigh, spacing_eq (e := e + k), ← zpow_add₀ (by norm_num)]
      · congr 1
        ring
      · rw [abs_mul, abs_of_pos hk, zpow_add₀ (by norm_num)]
        exact mul_le_mul_of_nonneg_right hlow hk.le
      · rw [abs_mul, abs_of_pos hk, add_right_comm, zpow_add₀ (by norm_num)]
        exact mul_lt_mul_of_pos_right hhigh hk
    rw [roundTo, roundTo, hscaled, mul_div_mul_right _ _ hk.ne', mul_assoc]

/-- A number with few significant bits is not changed. -/
theorem roundTo_of_representable (h : Representable p x) : roundTo p x = x := by
  obtain ⟨m, k, hm, rfl⟩ := h
  rcases eq_or_ne m 0 with rfl | hm0
  · rw [Int.cast_zero, zero_mul, roundTo_zero]
  · rw [roundTo_mul_zpow]
    obtain ⟨e, hlow, hhigh⟩ := exists_exponent (x := m) (Int.cast_ne_zero.mpr hm0)
    have hm' : |(m : ℚ)| < 2 ^ (p : ℤ) := by
      rw [← Int.cast_abs, zpow_natCast]
      exact_mod_cast hm
    have he : e < p := by
      rw [← zpow_lt_zpow_iff_right₀ (show (1 : ℚ) < 2 by norm_num)]
      exact hlow.trans_lt hm'
    obtain ⟨j, hj⟩ := Int.eq_ofNat_of_zero_le (show 0 ≤ (p : ℤ) - (e + 1) by omega)
    have hspacing : spacing p (m : ℚ) = ((2 ^ j : ℤ) : ℚ)⁻¹ := by
      rw [spacing_eq hlow hhigh, show e + 1 - (p : ℤ) = -j by omega, zpow_neg, zpow_natCast]
      push_cast
      rfl
    have hne : ((2 ^ j : ℤ) : ℚ) ≠ 0 := by positivity
    rw [roundTo, hspacing, div_inv_eq_mul, ← Int.cast_mul, roundInt_intCast, Int.cast_mul,
      mul_inv_cancel_right₀ hne]

/-- A rounded number has at most `p` significant bits. -/
theorem representable_roundTo (hp : 0 < p) (x : ℚ) : Representable p (roundTo p x) := by
  have hpow : (1 : ℤ) < 2 ^ p := one_lt_pow₀ (by norm_num) hp.ne'
  have hpos : ∀ x : ℚ, 0 < x → Representable p (roundTo p x) := by
    intro x hx
    obtain ⟨e, hlow, hhigh⟩ := exists_exponent hx.ne'
    have hS := spacing_pos p x
    have hq0 : 0 ≤ ⌊x / spacing p x⌋ := Int.floor_nonneg.mpr (by positivity)
    have hq1 : ⌊x / spacing p x⌋ < 2 ^ p := by
      rw [Int.floor_lt, div_lt_iff₀ hS, spacing_eq hlow hhigh]
      push_cast
      rw [← zpow_natCast, ← zpow_add₀ (by norm_num), add_sub_cancel]
      rwa [abs_of_pos hx] at hhigh
    obtain ⟨h1, h2⟩ := floor_le_roundInt (x / spacing p x)
    rcases lt_or_eq_of_le (show roundInt (x / spacing p x) ≤ 2 ^ p by omega) with hlt | heq
    · refine ⟨roundInt (x / spacing p x), e + 1 - p, abs_lt.mpr ⟨by omega, hlt⟩, ?_⟩
      rw [roundTo, ← spacing_eq hlow hhigh]
    · refine ⟨1, e + 1, by rwa [abs_one], ?_⟩
      rw [roundTo, heq, spacing_eq hlow hhigh]
      push_cast
      rw [← zpow_natCast, ← zpow_add₀ (by norm_num), add_sub_cancel, one_mul]
  rcases lt_trichotomy x 0 with hx | rfl | hx
  · obtain ⟨m, k, hm, heq⟩ := hpos (-x) (neg_pos.mpr hx)
    refine ⟨-m, k, by rwa [abs_neg], ?_⟩
    rw [← neg_neg x, roundTo_neg, heq]
    push_cast
    ring
  · exact ⟨0, 0, by rw [abs_zero]; omega, by rw [roundTo_zero, Int.cast_zero, zero_mul]⟩
  · exact hpos x hx

/-- What is strictly between two neighbours of a grid of spacing `g` is rounded to the same number,
if half the spacing of the rounded numbers is a multiple of `g`. -/
theorem roundTo_eq_of_grid {e : ℤ} {g : ℚ} {c n : ℤ} (hc : 0 < c) (hg : 0 < g)
    (hspacing : (2 : ℚ) ^ (e + 1 - p) = g * (2 * c)) {s t : ℚ}
    (hs0 : 0 < s) (hs1 : s < 1) (ht0 : 0 < t) (ht1 : t < 1)
    (hlow : (2 : ℚ) ^ e ≤ g * n) (hhigh : g * (n + 1) ≤ (2 : ℚ) ^ (e + 1)) :
    roundTo p (g * (n + s)) = roundTo p (g * (n + t)) := by
  have hround : ∀ s : ℚ, 0 < s → s < 1 → roundTo p (g * (n + s))
      = (if n % (2 * c) < c then n / (2 * c) else n / (2 * c) + 1 : ℤ) * (g * (2 * c)) := by
    intro s hs0 hs1
    have hlow' : (2 : ℚ) ^ e ≤ |g * (n + s)| :=
      (hlow.trans (mul_le_mul_of_nonneg_left (by linarith) hg.le)).trans (le_abs_self _)
    have hpos : 0 < g * (n + s) :=
      lt_of_lt_of_le (by positivity) (hlow.trans (mul_le_mul_of_nonneg_left (by linarith) hg.le))
    have hhigh' : |g * (n + s)| < (2 : ℚ) ^ (e + 1) := by
      rw [abs_of_pos hpos]
      exact (mul_lt_mul_of_pos_left (by linarith) hg).trans_le hhigh
    rw [roundTo, spacing_eq hlow' hhigh', hspacing, mul_div_mul_left _ _ hg.ne',
      roundInt_of_grid hc n hs0 hs1]
  rw [hround s hs0 hs1, hround t ht0 ht1]

end BenchFFT.RoundEven
