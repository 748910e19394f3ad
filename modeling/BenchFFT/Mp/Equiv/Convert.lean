import BenchFFT.Mp.Convert
import BenchFFT.Mp.Equiv.Number
import Mathlib.Algebra.Order.Archimedean.Basic

/-!
# Conversions from `bench_real` are right up to the last digit
-/

namespace BenchFFT.Mp

open Limbs N ExtNum

theorem scaleDown_spec (n : ℕ) (x : ℚ) (e : ℤ) (h0 : 0 < x) (hn : x < 65536 ^ n) :
    ∃ y e', scaleDown some (.fin x) e = some (.fin y, e') ∧ 0 < y ∧ y < 1 ∧
      y * (65536 : ℚ) ^ e' = x * (65536 : ℚ) ^ e := by
  induction n generalizing x e with
  | zero =>
    rw [pow_zero] at hn
    rw [scaleDown_eq, if_neg (by rw [fin_le_fin]; exact hn.not_ge)]
    exact ⟨x, e, rfl, h0, hn, rfl⟩
  | succ n ih =>
    rw [scaleDown_eq]
    by_cases h1 : 1 ≤ x
    · rw [if_pos (by rwa [fin_le_fin]), fin_mul_fin, onFinite_some, Option.bind_eq_bind,
        Option.bind_some]
      obtain ⟨y, e', hrun, hy0, hy1, hval⟩ := ih (x * iradix) (e + 1)
        (mul_pos h0 (by norm_num [iradix, realRadix])) (by
          rw [iradix, realRadix, mul_one_div, div_lt_iff₀ (by norm_num), ← pow_succ]
          exact hn)
      refine ⟨y, e', hrun, hy0, hy1, ?_⟩
      rw [hval, iradix, realRadix, zpow_add_one₀ (by norm_num)]
      ring
    · rw [if_neg (by rwa [fin_le_fin])]
      exact ⟨x, e, rfl, h0, not_le.mp h1, rfl⟩

theorem scaleUp_spec (n : ℕ) (x : ℚ) (e : ℤ) (h0 : 0 < x) (h1 : x < 1)
    (hn : 1 / 65536 ≤ x * 65536 ^ n) :
    ∃ y e', scaleUp some (.fin x) e = some (.fin y, e') ∧ 1 / 65536 ≤ y ∧ y < 1 ∧
      y * (65536 : ℚ) ^ e' = x * (65536 : ℚ) ^ e := by
  induction n generalizing x e with
  | zero =>
    rw [pow_zero, mul_one] at hn
    rw [scaleUp_eq, if_neg (by rw [fin_lt_fin]; exact hn.not_gt)]
    exact ⟨x, e, rfl, hn, h1, rfl⟩
  | succ n ih =>
    rw [scaleUp_eq]
    by_cases hlt : x < iradix
    · rw [if_pos (by rwa [fin_lt_fin]), fin_mul_fin, onFinite_some, Option.bind_eq_bind,
        Option.bind_some]
      obtain ⟨y, e', hrun, hy0, hy1, hval⟩ := ih (x * realRadix) (e - 1)
        (mul_pos h0 (by norm_num [realRadix])) (by
          rw [realRadix]
          rw [iradix, realRadix] at hlt
          linarith) (by
          rw [realRadix, mul_assoc, ← pow_succ']
          exact hn)
      refine ⟨y, e', hrun, hy0, hy1, ?_⟩
      rw [hval, realRadix, zpow_sub_one₀ (by norm_num)]
      ring
    · rw [if_neg (by rwa [fin_lt_fin])]
      exact ⟨x, e, rfl, not_lt.mp hlt, h1, rfl⟩

theorem toNat_ofInt {v : ℤ} (h0 : 0 ≤ v) (h1 : v < 65536) : ((UInt16.ofInt v).toNat : ℤ) = v := by
  rw [UInt16.ofInt, UInt16.toNat_ofNat']
  omega

theorem toDigit_floor {x : ℚ} (h0 : 0 ≤ x) (h1 : x < 65536) :
    ((toDigit (realFloor (.fin x))).toNat : ℤ) = ⌊x⌋ := by
  have hlt : ⌊x⌋ < 65536 := Int.floor_lt.mpr (by exact_mod_cast h1)
  rw [realFloor, toDigit, Int.floor_intCast]
  exact toNat_ofInt (Int.floor_nonneg.mpr h0) hlt

theorem realDigits_zero (op : ℚ → Option ℚ) (i : ℕ) (d : ℕ → UInt16) :
    realDigits op i (0, d) = some (0, d) := by
  cases i with
  | zero => rfl
  | succ i => rw [realDigits, if_pos rfl]

theorem fin_sub_floor (x : ℚ) : (fin x : Real') - realFloor (.fin x) = .fin (Int.fract x) := by
  rw [realFloor, sub_def, neg_fin, fin_add_fin, ← sub_eq_add_neg, Int.self_sub_floor]

theorem realDigits_succ (i : ℕ) {x : ℚ} (hx : x ≠ 0) (d : ℕ → UInt16) :
    realDigits some (i + 1) (.fin x, d) = realDigits some i (.fin (Int.fract (x * 65536)),
      Function.update d i (toDigit (realFloor (.fin (x * 65536))))) := by
  have hne : (.fin x : Real') ≠ 0 := fun h => hx (fin.inj h)
  rw [realDigits, if_neg hne, realRadix, fin_mul_fin]
  simp only [onFinite_some, Option.bind_eq_bind, Option.bind_some, fin_sub_floor]

/-- The digits that `fromreal` peels off. -/
theorem realDigits_spec (i : ℕ) {x : ℚ} {d : ℕ → UInt16} (h0 : 0 ≤ x) (h1 : x < 1)
    (hd : ∀ j < i, d j = 0) :
    ∃ s, realDigits some i (.fin x, d) = some s ∧
      (value 65536 i (digitsFrom s.2 0) : ℤ) = ⌊x * 65536 ^ i⌋ ∧ ∀ j, i ≤ j → s.2 j = d j := by
  induction i generalizing x d with
  | zero =>
    have hfloor : ⌊x * 65536 ^ 0⌋ = 0 := by
      rw [pow_zero, mul_one]
      exact Int.floor_eq_zero_iff.mpr ⟨h0, h1⟩
    rw [hfloor]
    exact ⟨_, rfl, rfl, fun _ _ => rfl⟩
  | succ i ih =>
    by_cases hx : x = 0
    · subst hx
      refine ⟨_, realDigits_zero some _ d, ?_, fun _ _ => rfl⟩
      rw [zero_mul, Int.floor_zero, Nat.cast_eq_zero, value_eq_zero_iff (by decide)]
      intro j hj
      rw [digitsFrom_zero, show ((0, d) : Real' × (ℕ → UInt16)).2 j = d j from rfl, hd j hj]
      rfl
    · have hdigit := toDigit_floor (x := x * 65536) (by positivity) (by linarith)
      -- the leading digit and the rest
      have hsplit : x * 65536 ^ (i + 1)
          = Int.fract (x * 65536) * 65536 ^ i + (⌊x * 65536⌋ * 65536 ^ i : ℤ) := by
        push_cast
        rw [← add_mul, Int.fract_add_floor, pow_succ]
        ring
      obtain ⟨s, hrun, hlow, hhigh⟩ := ih (x := Int.fract (x * 65536))
        (d := Function.update d i (toDigit (realFloor (.fin (x * 65536)))))
        (Int.fract_nonneg _) (Int.fract_lt_one _) fun j hj => by
          rw [Function.update_of_ne hj.ne]
          exact hd j (Nat.lt_succ_of_lt hj)
      refine ⟨s, (realDigits_succ i hx d).trans hrun, ?_, fun j hj => ?_⟩
      · rw [hsplit, Int.floor_add_intCast, value_succ]
        push_cast
        rw [hlow, digitsFrom_zero, hhigh i le_rfl, Function.update_self, hdigit]
      · rw [hhigh j (by omega), Function.update_of_ne (by omega)]

/-- A nonzero number is scaled to a mantissa `y` with `1 / 65536 ≤ y < 1`, and cut. -/
theorem fromreal_ne_zero {x : ℚ} (hx : x ≠ 0) :
    ∃ a y, ∃ e : ℤ, fromreal (.fin x) = some a ∧ |x| = y * (65536 : ℚ) ^ e ∧
      1 / 65536 ≤ y ∧ y < 1 ∧ IsSign a.sign ∧ (a.sign : ℚ) * |x| = x ∧
      a.expt = Int16.ofInt e ∧ (a.mant : ℤ) = ⌊y * 65536 ^ len⌋ := by
  have hpos : 0 < |x| := abs_pos.mpr hx
  -- the two loops normalise the magnitude
  obtain ⟨n, hn⟩ := pow_unbounded_of_one_lt |x| (by norm_num : (1 : ℚ) < 65536)
  obtain ⟨y, e, hdown, hy0, hy1, hy⟩ := scaleDown_spec n |x| 0 hpos hn
  obtain ⟨m, hm⟩ := pow_unbounded_of_one_lt y⁻¹ (by norm_num : (1 : ℚ) < 65536)
  have hm' : 1 / 65536 ≤ y * 65536 ^ m := by
    rw [inv_lt_iff_one_lt_mul₀ hy0] at hm
    linarith
  obtain ⟨z, f, hup, hz0, hz1, hz⟩ := scaleUp_spec m y e hy0 hy1 hm'
  obtain ⟨s, hpeel, hdigits, -⟩ :=
    realDigits_spec len (d := fun _ => 0) (by linarith) hz1 fun _ _ => rfl
  have hval : |x| = z * (65536 : ℚ) ^ f := by
    rw [hz, hy, zpow_zero, mul_one]
  -- the digits do not depend on the sign
  have hmant : ∀ t : ℤ, ((N.mk t (Int16.ofInt f) fun i => s.2 i).mant : ℤ)
      = ⌊z * 65536 ^ len⌋ := fun t => by
    rw [← hdigits, Nat.cast_inj]
    exact value_congr fun i hi => by rw [digitsFrom_zero, digit, dif_pos hi]
  have hne : (.fin x : Real') ≠ 0 := fun h => hx (fin.inj h)
  rcases lt_or_gt_of_ne hx with hneg | hpos'
  · have hlt : ¬(0 : Real') < .fin x := hneg.not_gt
    refine ⟨_, z, f, ?_, hval, hz0, hz1, Or.inr rfl, ?_, rfl, hmant (-1)⟩
    · rw [abs_of_neg hneg] at hdown
      simp only [fromreal, fromrealM, if_neg hne, if_neg hlt, neg_fin, hdown, hup, hpeel,
        Option.bind_eq_bind, Option.bind_some, Option.pure_def]
    · rw [abs_of_neg hneg]
      push_cast
      ring
  · have hlt : (0 : Real') < .fin x := hpos'
    refine ⟨_, z, f, ?_, hval, hz0, hz1, Or.inl rfl, ?_, rfl, hmant 1⟩
    · rw [abs_of_pos hpos'] at hdown
      simp only [fromreal, fromrealM, if_neg hne, if_pos hlt, hdown, hup, hpeel,
        Option.bind_eq_bind, Option.bind_some, Option.pure_def]
    · rw [abs_of_pos hpos']
      push_cast
      ring

theorem fromrealM_zero (op : ℚ → Option ℚ) : fromrealM op (.fin 0) = some zero := if_pos rfl

theorem fromreal_zero : fromreal (.fin 0) = some zero := fromrealM_zero some

/-- `fromreal` cuts a number to its leading digits. -/
theorem fromreal_truncates {k : ℤ} (hk : k ≤ 32000) {x : ℚ}
    (hx : x = 0 ∨ (65536 : ℚ) ^ (-k) ≤ |x| ∧ |x| < (65536 : ℚ) ^ k) :
    ∃ a, fromreal (.fin x) = some a ∧ Small k a ∧ Truncates a x := by
  by_cases h0 : x = 0
  · subst h0
    exact ⟨zero, fromreal_zero, small_zero k, truncates_zero⟩
  · obtain ⟨a, y, e, hrun, hval, hy0, hy1, hsign, habs, hexpt, hmant⟩ := fromreal_ne_zero h0
    obtain ⟨hlow, hhigh⟩ := hx.resolve_left h0
    have hU : (0 : ℚ) < 65536 ^ e := by positivity
    have hB : (1 : ℚ) < 65536 := by norm_num
    -- the exponent, from the bounds of the argument
    have hle : e ≤ k := by
      have hlt : (65536 : ℚ) ^ (e - 1) < 65536 ^ k := by
        refine lt_of_le_of_lt ?_ hhigh
        rw [hval, zpow_sub_one₀ (by norm_num), mul_comm, ← one_div]
        exact mul_le_mul_of_nonneg_right hy0 hU.le
      rw [zpow_lt_zpow_iff_right₀ hB] at hlt
      omega
    have hge : -k < e := by
      rw [← zpow_lt_zpow_iff_right₀ hB]
      apply hlow.trans_lt
      rw [hval]
      exact mul_lt_of_lt_one_left hU hy1
    have hexpt' : a.expt.toInt = e := by
      rw [hexpt, N.toInt_ofInt (by omega) (by omega)]
    have hm : ((65536 ^ (len - 1) : ℕ) : ℤ) ≤ a.mant := by
      rw [hmant, Int.le_floor, len]
      push_cast
      linarith
    have hdigit : a.digit (len - 1) ≠ 0 := digit_ne_zero (by exact_mod_cast hm)
    have hulp : a.ulp ℚ = 65536 ^ e / 65536 ^ len := by
      rw [ulp, hexpt', zpow_sub₀ (by norm_num), Nat.cast_ofNat, zpow_natCast]
    have hulp0 : (0 : ℚ) < 65536 ^ e / 65536 ^ len := by positivity
    have habs' : |x| = y * 65536 ^ len * (65536 ^ e / 65536 ^ len) := by
      rw [hval]
      field_simp
    have hmant' : (a.mant : ℚ) = (⌊y * 65536 ^ len⌋ : ℤ) := by
      rw [← hmant, Int.cast_natCast]
    refine ⟨a, hrun, ⟨Or.inr ⟨hdigit, hsign⟩, Or.inr ⟨by omega, by omega⟩⟩,
      truncates_of_mant hdigit hsign habs ?_ ?_⟩
    · rw [habs', hulp, hmant']
      exact mul_le_mul_of_nonneg_right (Int.floor_le _) hulp0.le
    · rw [habs', hulp, hmant']
      exact mul_lt_mul_of_pos_right (Int.lt_floor_add_one _) hulp0

end BenchFFT.Mp
