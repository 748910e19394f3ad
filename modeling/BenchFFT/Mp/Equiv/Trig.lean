import BenchFFT.Mp.Equiv.Octant
import BenchFFT.Mp.Equiv.RoundTrip
import BenchFFT.Mp.Equiv.Taylor
import Mathlib.Analysis.Real.Pi.Bounds

/-!
# The accuracy of `cos2pi` and `sin2pi`

For all `double`s `m` and `n`, the angle that `by2pi` computes is right up to few units of the last
digit (`by2pi_near`), and so are its cosine and its sine (`cos2pi_sin2pi_accurate`).
-/

namespace BenchFFT.Mp

open N Real

/-! ### The arguments -/

/-- The rounding of `bench_real`s: it keeps the `double`s, and it is not far off where these have
significant bits. -/
structure Rounds (rnd : ℚ → ℚ) : Prop where
  exact : ∀ x, IsDouble x → rnd x = x
  near : ∀ x : ℚ, (2 : ℚ) ^ (-1024 : ℤ) ≤ |x| → |rnd x - x| ≤ |x| / 4

theorem rounds_id : Rounds id where
  exact _ _ := rfl
  near x _ := by
    rw [id, sub_self, abs_zero]
    positivity

/-- With an unbounded exponent. -/
theorem rounds_roundTo : Rounds (RoundEven.roundTo bitsInReal) where
  exact x hx := by
    obtain ⟨m, k, hm, -, -, heq⟩ := hx
    exact RoundEven.roundTo_of_representable ⟨m, k, hm, heq⟩
  near x hx := by
    have hx0 : x ≠ 0 := abs_pos.mp (lt_of_lt_of_le (zpow_pos (by norm_num) _) hx)
    have hspacing := RoundEven.spacing_le bitsInReal hx0
    have hunit : (2 : ℚ) ^ (1 - bitsInReal : ℤ) ≤ 2 ^ (-1 : ℤ) :=
      zpow_le_zpow_right₀ (by norm_num) (by decide)
    calc |RoundEven.roundTo bitsInReal x - x|
        ≤ RoundEven.spacing bitsInReal x / 2 := RoundEven.abs_roundTo_sub_le _ _
      _ ≤ |x| * 2 ^ (-1 : ℤ) / 2 := div_le_div_of_nonneg_right
          (hspacing.trans (mul_le_mul_of_nonneg_left hunit (abs_nonneg x))) zero_le_two
      _ = |x| / 4 := by
          norm_num
          ring

/-- The multiples of a quarter of the smallest `double`. -/
def Grid (x : ℚ) : Prop := ∃ k : ℤ, x = k * ((2 : ℕ) : ℚ) ^ (-1076 : ℤ)

theorem Grid.neg {x : ℚ} (hx : Grid x) : Grid (-x) := by
  obtain ⟨k, rfl⟩ := hx
  exact ⟨-k, by rw [Int.cast_neg, neg_mul]⟩

theorem Grid.sub {x y : ℚ} (hx : Grid x) (hy : Grid y) : Grid (x - y) := by
  obtain ⟨k, rfl⟩ := hx
  obtain ⟨l, rfl⟩ := hy
  exact ⟨k - l, by rw [Int.cast_sub, sub_mul]⟩

theorem Grid.le_abs {x : ℚ} (hx : Grid x) (h0 : x ≠ 0) : (2 : ℚ) ^ (-1076 : ℤ) ≤ |x| := by
  obtain ⟨k, rfl⟩ := hx
  have hk : k ≠ 0 := by
    rintro rfl
    exact h0 (by rw [Int.cast_zero, zero_mul])
  have hk1 : (1 : ℚ) ≤ |(k : ℚ)| := by exact_mod_cast Int.one_le_abs hk
  rw [Nat.cast_ofNat, abs_mul, abs_of_pos (zpow_pos (by norm_num : (0 : ℚ) < 2) _)]
  exact le_mul_of_one_le_left (by positivity) hk1

variable {n m x : ℚ}

theorem IsDouble.quarter (hx : IsDouble x) : Grid (x * (1 / 4)) := by
  obtain ⟨i, k, -, hlow, -, rfl⟩ := hx
  obtain ⟨j, hj⟩ := Int.eq_ofNat_of_zero_le (show 0 ≤ k + 1074 by omega)
  refine ⟨i * 2 ^ j, ?_⟩
  have hquarter : (1 / 4 : ℚ) = 2 ^ (-2 : ℤ) := by norm_num
  rw [hquarter, Int.cast_mul, Int.cast_pow, Int.cast_ofNat, Nat.cast_ofNat, mul_assoc, mul_assoc,
    ← zpow_natCast (2 : ℚ) j, ← zpow_add₀ (by norm_num), ← zpow_add₀ (by norm_num)]
  apply congrArg (fun k : ℤ => (i : ℚ) * (2 : ℚ) ^ k)
  omega

theorem IsDouble.grid (hx : IsDouble x) : Grid x := by
  obtain ⟨k, hk⟩ := hx.quarter
  refine ⟨4 * k, ?_⟩
  rw [Int.cast_mul, mul_assoc, ← hk]
  push_cast
  ring

theorem IsDouble.abs_lt (hx : IsDouble x) : |x| < (2 : ℚ) ^ (1024 : ℤ) := by
  obtain ⟨i, k, hi, -, hhigh, rfl⟩ := hx
  have hi' : |(i : ℚ)| < (2 : ℚ) ^ (53 : ℤ) := by
    rw [← Int.cast_abs]
    exact_mod_cast hi
  have hpos : (0 : ℚ) < 2 ^ k := by positivity
  rw [abs_mul, abs_of_pos hpos]
  calc |(i : ℚ)| * 2 ^ k < 2 ^ (53 : ℤ) * 2 ^ k := mul_lt_mul_of_pos_right hi' hpos
    _ = 2 ^ (53 + k) := (zpow_add₀ (by norm_num) _ _).symm
    _ ≤ 2 ^ (1024 : ℤ) := zpow_le_zpow_right₀ (by norm_num) (by omega)

theorem isDouble_intCast {i : ℤ} (hi : |i| < 2 ^ 53) : IsDouble i :=
  ⟨i, 0, hi, by decide, by decide, by rw [zpow_zero, mul_one]⟩

theorem grid_intCast (i : ℤ) : Grid i := by
  obtain ⟨k, hk⟩ := (isDouble_intCast (i := 1) (by decide)).grid
  refine ⟨i * k, ?_⟩
  rw [Int.cast_mul, mul_assoc, ← hk, Int.cast_one, mul_one]

theorem fromreal_grid (hx : Grid x) (hlt : |x| < (2 : ℚ) ^ (1025 : ℤ)) :
    ∃ a, fromreal (.fin x) = some a ∧ Small 68 a ∧ Truncates a x := by
  apply fromreal_truncates (by decide)
  by_cases h0 : x = 0
  · exact Or.inl h0
  · refine Or.inr ⟨le_trans ?_ (hx.le_abs h0), hlt.trans_le ?_⟩
    · rw [radix_zpow]
      exact zpow_le_zpow_right₀ (by norm_num) (by decide)
    · rw [radix_zpow]
      exact zpow_le_zpow_right₀ (by norm_num) (by decide)

/-! ### The angle -/

variable {rnd : ℚ → ℚ}

theorem inv_range (hn : IsDouble n) (hn0 : 0 < n) :
    (2 : ℚ) ^ (-1024 : ℤ) ≤ 1 / n ∧ 1 / n ≤ (2 : ℚ) ^ (1076 : ℤ) := by
  have hlt := hn.abs_lt
  have hlow := hn.grid.le_abs hn0.ne'
  rw [abs_of_pos hn0] at hlt hlow
  have hpow : ∀ k l : ℤ, k + l = 0 → (2 : ℚ) ^ k * 2 ^ l = 1 := fun k l h => by
    rw [← zpow_add₀ (by norm_num), h, zpow_zero]
  rw [le_div_iff₀ hn0, div_le_iff₀ hn0]
  constructor
  · calc (2 : ℚ) ^ (-1024 : ℤ) * n ≤ 2 ^ (-1024 : ℤ) * 2 ^ (1024 : ℤ) :=
          mul_le_mul_of_nonneg_left hlt.le (by positivity)
      _ = 1 := hpow _ _ (by decide)
  · calc (1 : ℚ) = 2 ^ (1076 : ℤ) * 2 ^ (-1076 : ℤ) := by
          rw [hpow _ _ (by decide)]
      _ ≤ 2 ^ (1076 : ℤ) * n := mul_le_mul_of_nonneg_left hlow (by positivity)

/-- The first approximation of a reciprocal. -/
theorem guess_near (hrnd : Rounds rnd) (hn : IsDouble n) (hn0 : 0 < n) :
    ∃ x, fromreal (.fin (rnd (1 / n))) = some x ∧ x.Canonical ∧ x ≠ zero ∧
      1 / 2 ≤ n * x.val ℚ ∧ n * x.val ℚ ≤ 3 / 2 := by
  have hrange := inv_range hn hn0
  have hinv0 : 0 < 1 / n := by positivity
  have hnear := hrnd.near (1 / n) (by rw [abs_of_pos hinv0]; exact hrange.1)
  rw [abs_of_pos hinv0, abs_le] at hnear
  have hguess0 : 0 < rnd (1 / n) := by linarith
  -- the rounded quotient is a number that `fromreal` truncates
  have hlow' : (65536 : ℚ) ^ (-68 : ℤ) ≤ rnd (1 / n) := by
    calc (65536 : ℚ) ^ (-68 : ℤ) = 2 ^ (16 * -68 : ℤ) := radix_zpow _
      _ ≤ 2 ^ (-1024 + -1 : ℤ) := zpow_le_zpow_right₀ (by norm_num) (by decide)
      _ = 2 ^ (-1024 : ℤ) * 2 ^ (-1 : ℤ) := zpow_add₀ (by norm_num) _ _
      _ ≤ 1 / n * (1 / 2) := mul_le_mul hrange.1 (by norm_num) (by norm_num) hinv0.le
      _ ≤ rnd (1 / n) := by linarith
  have hhigh' : rnd (1 / n) < (65536 : ℚ) ^ (68 : ℤ) := by
    calc rnd (1 / n) ≤ 1 / n * 2 := by linarith
      _ ≤ 2 ^ (1076 : ℤ) * 2 ^ (1 : ℤ) :=
          mul_le_mul hrange.2 (by norm_num) (by norm_num) (zpow_nonneg (by norm_num) _)
      _ = 2 ^ (1076 + 1 : ℤ) := (zpow_add₀ (by norm_num) _ _).symm
      _ < 2 ^ (16 * 68 : ℤ) := zpow_lt_zpow_right₀ (by norm_num) (by decide)
      _ = (65536 : ℚ) ^ (68 : ℤ) := (radix_zpow _).symm
  obtain ⟨x, hrun, hx, htrunc⟩ := fromreal_truncates (k := 68) (by decide)
    (Or.inr (by rw [abs_of_pos hguess0]; exact ⟨hlow', hhigh'⟩))
  obtain ⟨δ, hδ0, hδ, hval⟩ := htrunc.exists_rel
  have heps : eps ℚ < 1 / 4 := by norm_num [eps, len]
  have hmul : n * (1 / n) = 1 := mul_one_div_cancel hn0.ne'
  -- the rounding is off by at most a quarter, the truncation by far less
  have hlow1 : 3 / 4 ≤ n * rnd (1 / n) := by
    calc 3 / 4 = n * (1 / n) * (3 / 4) := by rw [hmul, one_mul]
      _ = n * (1 / n * (3 / 4)) := by ring
      _ ≤ n * rnd (1 / n) := mul_le_mul_of_nonneg_left (by linarith) hn0.le
  have hhigh1 : n * rnd (1 / n) ≤ 5 / 4 := by
    calc n * rnd (1 / n) ≤ n * (1 / n * (5 / 4)) := mul_le_mul_of_nonneg_left (by linarith) hn0.le
      _ = n * (1 / n) * (5 / 4) := by ring
      _ = 5 / 4 := by rw [hmul, one_mul]
  refine ⟨x, hrun, hx.canonical, fun h => hguess0.ne' (htrunc.eq_zero.mp h), ?_, ?_⟩
  · rw [hval, ← mul_assoc]
    nlinarith
  · rw [hval, ← mul_assoc]
    nlinarith

/-- The reciprocal of a `double`. -/
theorem inv_near (hrnd : Rounds rnd) (hn : IsDouble n) (hn0 : 0 < n) :
    ∃ b x, fromreal (.fin n) = some b ∧ inv rnd b = some x ∧ Small 70 x ∧
      ∃ δ, 0 ≤ δ ∧ δ < eps ℝ ∧ x.val ℝ = (1 + δ) / n := by
  obtain ⟨b, hfrom, -, hval, htoreal, -⟩ := fromreal_toreal hn
  obtain ⟨b', hfrom', hb, -⟩ := fromreal_grid hn.grid (hn.abs_lt.trans
    (zpow_lt_zpow_right₀ (by norm_num) (by decide)))
  obtain rfl : b = b' := Option.some.inj (hfrom.symm.trans hfrom')
  have hb0 : b ≠ zero := by
    rintro rfl
    rw [val_zero] at hval
    exact hn0.ne hval
  obtain ⟨x0, hguess, hx0, hx00, hlow, hhigh⟩ := guess_near hrnd hn hn0
  rw [← hval] at hlow hhigh
  obtain ⟨x, hnewton, hx, hlow, hhigh⟩ := newton_ends hb (by decide) hb0 hx0 hx00 hlow hhigh
  have heps : eps ℚ < 1 / 4 := by norm_num [eps, len]
  have hx0 : x ≠ zero := by
    rintro rfl
    rw [val_zero, mul_zero] at hlow
    linarith
  have hdiv : realDiv rnd (.fin 1) (.fin n) = .fin (rnd (1 / n)) := by
    have h : (.fin 1 / .fin n : Real') = .fin (1 / n) := by
      rw [ExtNum.fin_div_fin, if_neg hn0.ne']
    rw [realDiv, h]
  refine ⟨b, x, hfrom, ?_, small_of_product hb hb0 hx hx0 (by linarith) (by linarith), ?_⟩
  · rw [inv, htoreal rnd hrnd.exact, hdiv, hguess]
    exact hnewton
  · rw [hval] at hlow hhigh
    -- the exit test leaves less than a unit above the reciprocal
    have hlow' := (Rat.cast_le (K := ℝ)).mpr hlow
    have hhigh' := (Rat.cast_lt (K := ℝ)).mpr hhigh
    rw [eps] at hhigh'
    push_cast [val_cast] at hlow' hhigh'
    refine ⟨n * x.val ℝ - 1, by linarith, ?_, ?_⟩
    · rw [eps]
      push_cast
      linarith
    · have hn0' : (n : ℝ) ≠ 0 := by exact_mod_cast hn0.ne'
      field_simp
      ring

/-- The relative error of a product. -/
theorem abs_mul_sub_one_le {f g s t : ℝ} (hf : |f - 1| ≤ s) (hg : |g - 1| ≤ t) (ht : t ≤ 1) :
    |f * g - 1| ≤ 2 * s + t := by
  have hg2 : |g| ≤ 2 := by
    calc |g| = |(g - 1) + 1| := by rw [sub_add_cancel]
      _ ≤ t + 1 := (abs_add_le _ _).trans (add_le_add hg (by rw [abs_one]))
      _ ≤ 2 := by linarith
  calc |f * g - 1| = |(f - 1) * g + (g - 1)| := by ring_nf
    _ ≤ |f - 1| * |g| + |g - 1| := by
        rw [← abs_mul]
        exact abs_add_le _ _
    _ ≤ s * 2 + t := add_le_add (mul_le_mul hf hg2 (abs_nonneg _) ((abs_nonneg _).trans hf)) hg
    _ = 2 * s + t := by ring

theorem abs_one_sub_sub_one_le {δ e : ℝ} (h0 : 0 ≤ δ) (h : δ < e) : |1 - δ - 1| ≤ e := by
  rw [sub_sub_cancel_left, abs_neg, abs_of_nonneg h0]
  exact h.le

/-- `fromreal`, in the reals. -/
theorem exists_rel_real {c : N} (h : Truncates c m) :
    ∃ β, 0 ≤ β ∧ β < eps ℝ ∧ c.val ℝ = m * (1 - β) := by
  obtain ⟨β, h0, hlt, hval⟩ := h.exists_rel
  have hlt' := (Rat.cast_lt (K := ℝ)).mpr hlt
  rw [eps] at hlt'
  refine ⟨β, by exact_mod_cast h0, ?_, ?_⟩
  · rw [eps]
    push_cast at hlt' ⊢
    exact hlt'
  · rw [← val_cast, hval]
    push_cast
    rfl

/-- The angle, for an `m` in the octant. -/
theorem by2pi_near (hrnd : Rounds rnd) (hn : IsDouble n) (hn0 : 0 < n) (hm : Grid m) (h0 : 0 ≤ m)
    (h1 : m ≤ n * (1 / 8)) :
    ∃ a, by2pi rnd m n = some a ∧ Small 200 a ∧
      ∃ f, |f - 1| ≤ 31 * eps ℝ ∧ a.val ℝ = angle m n * f := by
  obtain ⟨b, x, hb, hinv, hx, δ, hδ0, hδ, hxval⟩ := inv_near hrnd hn hn0
  have hle : |m| ≤ |n| := by
    rw [abs_of_nonneg h0, abs_of_pos hn0]
    linarith
  obtain ⟨c, hc, hcsmall, hctrunc⟩ := fromreal_grid hm ((hle.trans_lt hn.abs_lt).trans
    (zpow_lt_zpow_right₀ (by norm_num) (by decide)))
  obtain ⟨hqsmall, hq⟩ := mul_truncates (F := ℝ) hx hcsmall (by decide)
  obtain ⟨hasmall, ha⟩ := mul_truncates (F := ℝ) n2pi_small hqsmall (by decide)
  obtain ⟨β, hβ0, hβ, hcval⟩ := exists_rel_real hctrunc
  obtain ⟨γ, hγ0, hγ, hqval⟩ := hq.exists_rel
  obtain ⟨η, hη0, hη, haval⟩ := ha.exists_rel
  have heps := eps_real_pos
  have heps1 : eps ℝ ≤ 1 := eps_real_le.trans (by norm_num)
  -- five factors, each off by at most a unit of the last digit
  have hpi : |n2pi.val ℝ / (2 * π) - 1| ≤ eps ℝ := by
    have hpi3 := pi_gt_three
    rw [div_sub_one (by positivity), abs_div, abs_of_pos (show 0 < 2 * π by positivity),
      div_le_iff₀ (by positivity)]
    exact n2pi_near.trans (le_mul_of_one_le_right heps.le (by linarith))
  have hinverse : |1 + δ - 1| ≤ eps ℝ := by
    rw [add_sub_cancel_left, abs_of_nonneg hδ0]
    exact hδ.le
  have hf := abs_mul_sub_one_le (abs_mul_sub_one_le (abs_mul_sub_one_le
    (abs_mul_sub_one_le hpi hinverse heps1) (abs_one_sub_sub_one_le hβ0 hβ) heps1)
    (abs_one_sub_sub_one_le hγ0 hγ) heps1) (abs_one_sub_sub_one_le hη0 hη) heps1
  refine ⟨n2pi * (x * c), ?_, hasmall.mono (by decide), _, hf.trans (by linarith), ?_⟩
  · rw [by2pi, hb]
    show (inv rnd b >>= fun a => fromreal _ >>= fun b => some (n2pi * (a * b))) = _
    rw [hinv]
    show (fromreal _ >>= fun b => some (n2pi * (x * b))) = _
    rw [hc]
    rfl
  · have hn0' : (n : ℝ) ≠ 0 := by exact_mod_cast hn0.ne'
    rw [haval, hqval, hxval, hcval, angle]
    push_cast
    field_simp

theorem angle_octant (hn0 : 0 < n) (h0 : 0 ≤ m) (h1 : m ≤ n * (1 / 8)) :
    0 ≤ angle m n ∧ angle m n ≤ 79 / 100 := by
  have hpi := pi_lt_d2
  have hr1 : m / n ≤ 1 / 8 := by
    rw [div_le_iff₀ hn0]
    linarith
  have hr0' : (0 : ℝ) ≤ m / n := by exact_mod_cast div_nonneg h0 hn0.le
  have hr1' : (m / n : ℝ) ≤ 1 / 8 := by
    have h := (Rat.cast_le (K := ℝ)).mpr hr1
    push_cast at h
    exact h
  rw [angle, Nat.cast_ofNat]
  refine ⟨mul_nonneg (mul_nonneg zero_le_two pi_pos.le) hr0', ?_⟩
  calc 2 * π * (m / n) ≤ 2 * 3.15 * (1 / 8) :=
        mul_le_mul (by linarith) hr1' hr0' (by norm_num)
    _ ≤ 79 / 100 := by norm_num

/-- What `msin` and `mcos` are handed. -/
theorem by2pi_octant (hrnd : Rounds rnd) (hn : IsDouble n) (hn0 : 0 < n) (hm : Grid m)
    (h0 : 0 ≤ m) (h1 : m ≤ n * (1 / 8)) :
    ∃ a, by2pi rnd m n = some a ∧ Small 200 a ∧ 0 ≤ a.val ℝ ∧ a.val ℝ ≤ 4 / 5 ∧
      |a.val ℝ - angle m n| ≤ 31 * eps ℝ ∧ (0 < m → 0 < a.val ℝ) := by
  obtain ⟨a, hrun, ha, f, hf, hval⟩ := by2pi_near hrnd hn hn0 hm h0 h1
  obtain ⟨hangle0, hangle1⟩ := angle_octant hn0 h0 h1
  have heps : 31 * eps ℝ ≤ 1 / 1000 := by norm_num [eps, len]
  have hf' := abs_le.mp hf
  have hf0 : 0 < f := by linarith
  have hnear : |a.val ℝ - angle m n| ≤ 31 * eps ℝ := by
    calc |a.val ℝ - angle m n| = angle m n * |f - 1| := by
          rw [hval, ← mul_sub_one, abs_mul, abs_of_nonneg hangle0]
      _ ≤ 1 * (31 * eps ℝ) := mul_le_mul (by linarith) hf (abs_nonneg _) zero_le_one
      _ = 31 * eps ℝ := one_mul _
  refine ⟨a, hrun, ha, ?_, ?_, hnear, fun hm0 => ?_⟩
  · rw [hval]
    exact mul_nonneg hangle0 hf0.le
  · linarith [(abs_le.mp hnear).2]
  · rw [hval]
    have hn0' : (0 : ℝ) < n := by exact_mod_cast hn0
    have hm0' : (0 : ℝ) < m := by exact_mod_cast hm0
    rw [angle, Nat.cast_ofNat]
    positivity

/-! ### Cosine and sine -/

/-- The result is right up to the bit `120` after the point. -/
def Accurate (a : N) (x : ℝ) : Prop := |a.val ℝ - x| ≤ 1 / (2 : ℕ) ^ 120

theorem Accurate.neg {a : N} {x : ℝ} (h : Accurate a x) : Accurate (-a) (-x) := by
  have hval : (-a).val ℝ = -a.val ℝ := by
    show ((-a.sign : ℤ) : ℝ) * a.mant * a.ulp ℝ = _
    rw [val]
    push_cast
    ring
  rw [Accurate, hval, ← neg_add', abs_neg]
  exact h

/-- In the octant. -/
theorem base_accurate (hrnd : Rounds rnd) (hn : IsDouble n) (hn0 : 0 < n) (hm : Grid m)
    (h0 : 0 ≤ m) (h1 : m ≤ n * (1 / 8)) :
    Yields Accurate (baseCos rnd m n) (cos (angle m n)) ∧
      Yields Accurate (baseSin rnd m n) (sin (angle m n)) := by
  obtain ⟨a, hrun, ha, ha0, ha1, hnear, -⟩ := by2pi_octant hrnd hn hn0 hm h0 h1
  have hbound : 1 / 2 ^ 122 + 31 * eps ℝ ≤ 1 / (2 : ℕ) ^ 120 := by norm_num [eps, len]
  constructor
  · refine ⟨mcos a, ?_, ?_⟩
    · rw [baseCos, hrun, Option.map_some]
    · exact (abs_sub_le _ _ _).trans ((add_le_add (mcos_near ha ha0 ha1)
        ((abs_cos_sub_cos_le _ _).trans hnear)).trans hbound)
  · refine ⟨msin a, ?_, ?_⟩
    · rw [baseSin, hrun, Option.map_some]
    · exact (abs_sub_le _ _ _).trans ((add_le_add (msin_near ha ha0 ha1)
        ((abs_sin_sub_sin_le _ _).trans hnear)).trans hbound)

/-- A relation that is kept under a change of the signs, from the octant to every angle. -/
theorem right_of_grid {R : N → ℝ → Prop} (hR : ∀ a x, R a x → R (-a) (-x)) (hn : IsDouble n)
    (hn0 : 0 < n)
    (hbase : ∀ m, Grid m → 0 ≤ m → m ≤ n * (1 / 8) →
      Yields R (baseCos rnd m n) (cos (angle m n)) ∧ Yields R (baseSin rnd m n) (sin (angle m n)))
    (hm : Grid m) : Right (baseCos rnd) (baseSin rnd) R n m :=
  right hR (fun _ h => h.neg) (fun _ h => hn.grid.sub h) (fun _ h => h.sub hn.quarter) hn0
    (fun m hm h0 h1 => (hbase m hm h0 h1).1) (fun m hm h0 h1 => (hbase m hm h0 h1).2) hm

/-- The tables are right far beyond double precision. -/
theorem cos2pi_sin2pi_accurate {n m : ℤ} (hn1 : 1 ≤ n) (hn : n < 2 ^ 30) :
    (∃ a, cos2pi id m n = some a ∧ |a.val ℝ - cos (2 * π * m / n)| ≤ 1 / 2 ^ 120) ∧
      ∃ a, sin2pi id m n = some a ∧ |a.val ℝ - sin (2 * π * m / n)| ≤ 1 / 2 ^ 120 := by
  have hn0 : (0 : ℚ) < n := by exact_mod_cast hn1
  have hn' : IsDouble n := isDouble_intCast (by rw [abs_of_pos (by omega)]; omega)
  have hangle : angle m n = 2 * π * m / n := by
    rw [angle]
    push_cast
    ring
  have h := right_of_grid (fun _ _ h => h.neg) hn' hn0
    (fun m hm h0 h1 => base_accurate rounds_id hn' hn0 hm h0 h1) (grid_intCast m)
  simp only [Right, hangle, Yields, Accurate, Nat.cast_ofNat] at h
  exact h

/-- An angle from the fourth octant. -/
theorem cos2pi_sin2pi_accurate_seven :
    (∃ a, cos2pi id (3 : ℤ) (7 : ℤ) = some a ∧
        |a.val ℝ - cos (2 * π * (3 : ℤ) / (7 : ℤ))| ≤ 1 / 2 ^ 120) ∧
      ∃ a, sin2pi id (3 : ℤ) (7 : ℤ) = some a ∧
        |a.val ℝ - sin (2 * π * (3 : ℤ) / (7 : ℤ))| ≤ 1 / 2 ^ 120 :=
  cos2pi_sin2pi_accurate (by decide) (by decide)

end BenchFFT.Mp
