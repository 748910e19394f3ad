import BenchFFT.Mp.Equiv.ToReal

/-!
# From `bench_real` and back

A `double` goes through `fromreal` and `toreal` unchanged, and every operation of either is exact.
-/

namespace BenchFFT.Mp

open Limbs N ExtNum

/-- The finite numbers of the format `double`, the subnormal ones included. -/
def IsDouble (x : ℚ) : Prop :=
  ∃ m k : ℤ, |m| < 2 ^ bitsInReal ∧ -1074 ≤ k ∧ k ≤ 971 ∧ x = m * (2 : ℚ) ^ k

section

variable {m : ℕ} {k : ℤ}

theorem isDouble_mul_zpow (hm : m < 2 ^ bitsInReal) (hlow : -1074 ≤ k) (hhigh : k ≤ 971) :
    IsDouble (m * (2 : ℚ) ^ k) := by
  refine ⟨m, k, ?_, hlow, hhigh, by rw [Int.cast_natCast]⟩
  rw [Nat.abs_cast]
  exact_mod_cast hm

theorem IsDouble.abs_eq {x : ℚ} (hx : IsDouble x) (h0 : x ≠ 0) :
    ∃ n : ℕ, ∃ k : ℤ, 0 < n ∧ n < 2 ^ bitsInReal ∧ -1074 ≤ k ∧ k ≤ 971 ∧
      |x| = n * (2 : ℚ) ^ k := by
  obtain ⟨m, k, hm, hlow, hhigh, rfl⟩ := hx
  have hm0 : m ≠ 0 := by
    rintro rfl
    exact h0 (by rw [Int.cast_zero, zero_mul])
  refine ⟨m.natAbs, k, Int.natAbs_pos.mpr hm0, ?_, hlow, hhigh, ?_⟩
  · rw [Int.abs_eq_natAbs] at hm
    exact_mod_cast hm
  · rw [abs_mul, abs_of_pos (by positivity : (0 : ℚ) < 2 ^ k), Nat.cast_natAbs, Int.cast_abs]

theorem lt_exponent (hm : m < 2 ^ bitsInReal) {j : ℤ} (h : (2 : ℚ) ^ j ≤ m * (2 : ℚ) ^ k) :
    j < k + bitsInReal := by
  rw [← zpow_lt_zpow_iff_right₀ (show (1 : ℚ) < 2 by norm_num)]
  apply h.trans_lt
  rw [add_comm, zpow_add₀ (by norm_num), zpow_natCast]
  exact mul_lt_mul_of_pos_right (by exact_mod_cast hm) (by positivity)

theorem exponent_lt (hm0 : 0 < m) {j : ℤ} (h : m * (2 : ℚ) ^ k < 2 ^ j) : k < j := by
  rw [← zpow_lt_zpow_iff_right₀ (show (1 : ℚ) < 2 by norm_num)]
  refine lt_of_le_of_lt ?_ h
  exact le_mul_of_one_le_left (by positivity) (by exact_mod_cast hm0)

theorem mul_iradix (x : ℚ) (k : ℤ) : x * (2 : ℚ) ^ k * iradix = x * 2 ^ (k - 16) := by
  rw [mul_assoc, iradix, realRadix, mul_one_div, zpow_sub₀ (by norm_num)]
  norm_num

theorem mul_realRadix (x : ℚ) (k : ℤ) : x * (2 : ℚ) ^ k * realRadix = x * 2 ^ (k + 16) := by
  rw [mul_assoc, realRadix, zpow_add₀ (by norm_num)]
  norm_num

/-! ### `fromreal` -/

variable {op : ℚ → Option ℚ}

theorem onFinite_double (hop : ∀ x, IsDouble x → op x = some x) {x : ℚ} (hx : IsDouble x) :
    onFinite op (.fin x) = some (.fin x) := by
  rw [onFinite_fin, hop x hx]
  rfl

theorem scaleDown_run (hop : ∀ x, IsDouble x → op x = some x)
    (hm : m < 2 ^ bitsInReal) (n : ℕ) {e : ℤ} (hlow : -1074 ≤ k) (hhigh : k ≤ 971)
    (hn : m * (2 : ℚ) ^ k < 65536 ^ n) :
    ∃ j f : ℤ, -1074 ≤ j ∧ m * (2 : ℚ) ^ j < 1 ∧
      scaleDown op (.fin (m * (2 : ℚ) ^ k)) e = some (.fin (m * (2 : ℚ) ^ j), f) ∧
      scaleDown some (.fin (m * (2 : ℚ) ^ k)) e = some (.fin (m * (2 : ℚ) ^ j), f) := by
  have hlast : ∀ {k e : ℤ}, -1074 ≤ k → ¬1 ≤ m * (2 : ℚ) ^ k →
      ∃ j f : ℤ, -1074 ≤ j ∧ m * (2 : ℚ) ^ j < 1 ∧
      scaleDown op (.fin (m * (2 : ℚ) ^ k)) e = some (.fin (m * (2 : ℚ) ^ j), f) ∧
      scaleDown some (.fin (m * (2 : ℚ) ^ k)) e = some (.fin (m * (2 : ℚ) ^ j), f) := by
    intro k e hlow h1
    have hend : ¬(.fin 1 : Real') ≤ .fin (m * (2 : ℚ) ^ k) := by rwa [fin_le_fin]
    rw [scaleDown_eq, scaleDown_eq, if_neg hend, if_neg hend]
    exact ⟨k, e, hlow, not_le.mp h1, rfl, rfl⟩
  induction n generalizing k e with
  | zero => exact hlast hlow (by rw [pow_zero] at hn; exact hn.not_ge)
  | succ n ih =>
    by_cases h1 : 1 ≤ m * (2 : ℚ) ^ k
    · have hlow := lt_exponent (k := k) hm (j := 0) (by rwa [zpow_zero])
      rw [bitsInReal] at hlow
      have hexact := onFinite_double hop (isDouble_mul_zpow (k := k - 16) hm (by omega) (by omega))
      have hgo : (.fin 1 : Real') ≤ .fin (m * (2 : ℚ) ^ k) := by rwa [fin_le_fin]
      rw [scaleDown_eq, scaleDown_eq, if_pos hgo, if_pos hgo, fin_mul_fin, mul_iradix, hexact,
        onFinite_some, Option.bind_eq_bind, Option.bind_some]
      apply ih (by omega) (by omega)
      rw [← mul_iradix, iradix, realRadix, mul_one_div, div_lt_iff₀ (by norm_num), ← pow_succ]
      exact hn
    · exact hlast hlow h1

theorem scaleUp_run (hop : ∀ x, IsDouble x → op x = some x) (hm0 : 0 < m)
    (hm : m < 2 ^ bitsInReal) (n : ℕ) {e : ℤ} (hk : -1074 ≤ k) (h1 : m * (2 : ℚ) ^ k < 1)
    (hn : 1 / 65536 ≤ m * (2 : ℚ) ^ k * 65536 ^ n) :
    ∃ j f : ℤ, -100 ≤ j ∧ m * (2 : ℚ) ^ j < 1 ∧
      scaleUp op (.fin (m * (2 : ℚ) ^ k)) e = some (.fin (m * (2 : ℚ) ^ j), f) ∧
      scaleUp some (.fin (m * (2 : ℚ) ^ k)) e = some (.fin (m * (2 : ℚ) ^ j), f) := by
  -- where the loop ends
  have hlast : ∀ {k e : ℤ}, ¬m * (2 : ℚ) ^ k < iradix → m * (2 : ℚ) ^ k < 1 →
      ∃ j f : ℤ, -100 ≤ j ∧ m * (2 : ℚ) ^ j < 1 ∧
      scaleUp op (.fin (m * (2 : ℚ) ^ k)) e = some (.fin (m * (2 : ℚ) ^ j), f) ∧
      scaleUp some (.fin (m * (2 : ℚ) ^ k)) e = some (.fin (m * (2 : ℚ) ^ j), f) := by
    intro k e h h1
    have hlow := lt_exponent (k := k) hm (j := -16) (by
      rw [iradix, realRadix] at h
      exact le_trans (by norm_num) (not_lt.mp h))
    rw [bitsInReal] at hlow
    have hend : ¬(.fin (m * (2 : ℚ) ^ k) : Real') < .fin iradix := by rwa [fin_lt_fin]
    rw [scaleUp_eq, scaleUp_eq, if_neg hend, if_neg hend]
    exact ⟨k, e, by omega, h1, rfl, rfl⟩
  induction n generalizing k e with
  | zero => exact hlast (by rw [pow_zero, mul_one] at hn; exact hn.not_gt) h1
  | succ n ih =>
    by_cases hlt : m * (2 : ℚ) ^ k < iradix
    · have hhigh := exponent_lt hm0 (j := -16) (hlt.trans_le (by norm_num [iradix, realRadix]))
      have hexact := onFinite_double hop (isDouble_mul_zpow (k := k + 16) hm (by omega) (by omega))
      have hgo : (.fin (m * (2 : ℚ) ^ k) : Real') < .fin iradix := by rwa [fin_lt_fin]
      rw [scaleUp_eq, scaleUp_eq, if_pos hgo, if_pos hgo, fin_mul_fin, mul_realRadix, hexact,
        onFinite_some, Option.bind_eq_bind, Option.bind_some]
      refine ih (by omega) ?_ ?_
      · rw [← mul_realRadix, realRadix]
        rw [iradix, realRadix] at hlt
        linarith
      · rw [← mul_realRadix, realRadix, mul_assoc, ← pow_succ']
        exact hn
    · exact hlast hlt h1

theorem exists_fract (hm : m < 2 ^ bitsInReal) :
    ∃ n < 2 ^ bitsInReal, Int.fract (m * (2 : ℚ) ^ k) = (n : ℕ) * (2 : ℚ) ^ k := by
  rcases le_or_gt 0 k with hk | hk
  · obtain ⟨t, rfl⟩ := Int.eq_ofNat_of_zero_le hk
    have hint : (m : ℚ) * (2 : ℚ) ^ (t : ℤ) = (m * 2 ^ t : ℕ) := by
      push_cast
      rw [zpow_natCast]
    refine ⟨0, by decide, ?_⟩
    rw [hint, Int.fract_natCast, Nat.cast_zero, zero_mul]
  · obtain ⟨t, ht⟩ := Int.eq_ofNat_of_zero_le (Int.neg_nonneg.mpr hk.le)
    obtain rfl : k = -t := by omega
    refine ⟨m % 2 ^ t, (Nat.mod_le _ _).trans_lt hm, ?_⟩
    have h := Int.fract_div_natCast_eq_div_natCast_mod (k := ℚ) (m := m) (n := 2 ^ t)
    push_cast at h
    rw [zpow_neg, zpow_natCast, ← div_eq_mul_inv, h, ← div_eq_mul_inv]

theorem realDigits_run (hop : ∀ x, IsDouble x → op x = some x) (i : ℕ)
    (hm : m < 2 ^ bitsInReal) (hk : -1074 ≤ k) (h1 : m * (2 : ℚ) ^ k < 1) (d : ℕ → UInt16) :
    ∃ s, realDigits op i (.fin (m * (2 : ℚ) ^ k), d) = some s ∧
      realDigits some i (.fin (m * (2 : ℚ) ^ k), d) = some s := by
  induction i generalizing m k d with
  | zero => exact ⟨_, rfl, rfl⟩
  | succ i ih =>
    by_cases h0 : m * (2 : ℚ) ^ k = 0
    · rw [h0]
      exact ⟨_, realDigits_zero op _ d, realDigits_zero some _ d⟩
    · have hm0 : 0 < m := Nat.pos_of_ne_zero fun h => h0 (by rw [h, Nat.cast_zero, zero_mul])
      have hneg := exponent_lt (k := k) hm0 (j := 0) (by rwa [zpow_zero])
      have hne : (.fin (m * (2 : ℚ) ^ k) : Real') ≠ 0 := fun h => h0 (fin.inj h)
      have hscaled := onFinite_double hop (isDouble_mul_zpow (k := k + 16) hm (by omega) (by omega))
      rw [← mul_realRadix] at hscaled
      -- the digit, which is an integer below the radix
      obtain ⟨y, hy, hfloor⟩ : ∃ y : ℕ, y < 2 ^ bitsInReal ∧
          (⌊m * (2 : ℚ) ^ k * realRadix⌋ : ℚ) = y * (2 : ℚ) ^ (0 : ℤ) := by
        have hlt : ⌊m * (2 : ℚ) ^ k * realRadix⌋ < 65536 := by
          rw [Int.floor_lt, realRadix]
          push_cast
          linarith
        obtain ⟨y, hy⟩ := Int.eq_ofNat_of_zero_le (a := ⌊m * (2 : ℚ) ^ k * realRadix⌋)
          (Int.floor_nonneg.mpr (by rw [realRadix]; positivity))
        rw [hy] at hlt
        rw [hy, bitsInReal]
        exact ⟨y, by omega, by rw [zpow_zero, mul_one, Int.cast_natCast]⟩
      have hfloor' : onFinite op (realFloor (.fin (m * (2 : ℚ) ^ k * realRadix)))
          = some (realFloor (.fin (m * (2 : ℚ) ^ k * realRadix))) := by
        rw [realFloor, hfloor]
        exact onFinite_double hop (isDouble_mul_zpow (k := 0) hy (by omega) (by omega))
      -- the rest, with the low bits of the significand
      obtain ⟨n, hn, hfract⟩ := exists_fract (k := k + 16) hm
      rw [← mul_realRadix] at hfract
      have hrest := onFinite_double hop (isDouble_mul_zpow (k := k + 16) hn (by omega) (by omega))
      obtain ⟨s, hs, hs'⟩ := ih (m := n) (k := k + 16) hn (by omega) (by
        rw [← hfract]
        exact Int.fract_lt_one _)
        (Function.update d i (toDigit (realFloor (.fin (m * (2 : ℚ) ^ k * realRadix)))))
      refine ⟨s, ?_, ?_⟩
      · rw [realDigits, if_neg hne, fin_mul_fin, hscaled, Option.bind_eq_bind, Option.bind_some,
          hfloor', Option.bind_some, fin_sub_floor, hfract, hrest, Option.bind_some, hs]
      · rw [realDigits_succ i h0, ← hs', ← hfract]
        rfl

/-- On a `double`, every operation of `fromreal` is exact. -/
theorem fromrealM_eq (hop : ∀ x, IsDouble x → op x = some x) {x : ℚ} (hx : IsDouble x) :
    fromrealM op (.fin x) = fromreal (.fin x) := by
  rcases eq_or_ne x 0 with rfl | hx0
  · rw [fromrealM_zero, fromreal_zero]
  · obtain ⟨n, k, hn0, hn, hlow, hhigh, habs⟩ := hx.abs_eq hx0
    have hx0' : (.fin x : Real') ≠ 0 := fun h => hx0 (fin.inj h)
    have hmag : (if 0 < (.fin x : Real') then (.fin x : Real') else -.fin x)
        = .fin (n * (2 : ℚ) ^ k) := by
      have hpos : (0 : Real') < .fin x ↔ 0 < x := fin_lt_fin
      rw [← habs]
      split_ifs with h
      · rw [abs_of_pos (hpos.mp h)]
      · rw [abs_of_nonpos (not_lt.mp (mt hpos.mpr h)), neg_fin]
    -- the three loops, one after the other
    obtain ⟨q, hq⟩ := pow_unbounded_of_one_lt (n * (2 : ℚ) ^ k) (by norm_num : (1 : ℚ) < 65536)
    obtain ⟨j, e, hj, hj1, hdown, hdown'⟩ := scaleDown_run hop hn q (e := 0) hlow hhigh hq
    have hj0 : 0 < (n : ℚ) * 2 ^ j := by positivity
    obtain ⟨r, hr⟩ := pow_unbounded_of_one_lt (n * (2 : ℚ) ^ j)⁻¹ (by norm_num : (1 : ℚ) < 65536)
    have hr' : 1 / 65536 ≤ n * (2 : ℚ) ^ j * 65536 ^ r := by
      rw [inv_lt_iff_one_lt_mul₀ hj0] at hr
      linarith
    obtain ⟨l, f, hl, hl1, hup, hup'⟩ := scaleUp_run hop hn0 hn r (e := e) hj hj1 hr'
    obtain ⟨s, hdigits, hdigits'⟩ := realDigits_run hop len hn (by omega) hl1 fun _ => 0
    simp only [fromreal, fromrealM, if_neg hx0', hmag, hdown, hdown', hup, hup', hdigits, hdigits',
      Option.bind_eq_bind, Option.bind_some]

/-- The digits that `fromreal` leaves: `53` bits, and zeros. -/
structure Exact (a : N) (x : ℚ) (n t : ℕ) : Prop where
  digit_ne_zero : a.digit (len - 1) ≠ 0
  isSign : IsSign a.sign
  pos : 0 < n
  lt : n < 2 ^ bitsInReal
  le_shift : 92 ≤ t
  shift_lt : t < 160
  mant : a.mant = n * 2 ^ t
  lower : -1074 ≤ t - 160 + 16 * a.expt.toInt
  upper : t - 160 + 16 * a.expt.toInt ≤ 971
  eq : x = a.sign * (n * (2 : ℚ) ^ (t - 160 + 16 * a.expt.toInt))

theorem fromreal_exact {x : ℚ} (hx : IsDouble x) (h0 : x ≠ 0) :
    ∃ a n t, fromreal (.fin x) = some a ∧ Exact a x n t := by
  obtain ⟨a, y, e, hrun, hval, hy0, hy1, hsign, habs, hexpt, hmant⟩ := fromreal_ne_zero h0
  obtain ⟨n, k, hn0, hn, hlow, hhigh, hx'⟩ := hx.abs_eq h0
  have hy : y = n * (2 : ℚ) ^ (k - 16 * e) := by
    have hU : (0 : ℚ) < 2 ^ (16 * e) := by positivity
    rw [zpow_sub₀ (by norm_num), ← mul_div_assoc, ← hx', hval, radix_zpow,
      mul_div_cancel_right₀ _ hU.ne']
  -- the lowest bit is among the ten digits
  have hk : -16 < k - 16 * e + bitsInReal := lt_exponent hn (by
    rw [← hy]
    exact le_trans (by norm_num) hy0)
  have hk' : k - 16 * e < 0 := exponent_lt hn0 (by rwa [← hy, zpow_zero])
  rw [bitsInReal] at hk
  have hexpt' : a.expt.toInt = e := by rw [hexpt, N.toInt_ofInt (by omega) (by omega)]
  obtain ⟨t, ht⟩ := Int.eq_ofNat_of_zero_le (show 0 ≤ k - 16 * e + 160 by omega)
  have hscaled : y * 65536 ^ len = (n * 2 ^ t : ℕ) := by
    rw [hy, ← zpow_natCast, radix_zpow, mul_assoc, ← zpow_add₀ (by norm_num), len,
      show k - 16 * e + 16 * ((10 : ℕ) : ℤ) = t by omega, zpow_natCast]
    push_cast
    rfl
  have hmant' : a.mant = n * 2 ^ t := by
    rw [hscaled, Int.floor_natCast] at hmant
    exact_mod_cast hmant
  have hle : ((65536 ^ (len - 1) : ℕ) : ℚ) ≤ (n * 2 ^ t : ℕ) := by
    rw [← hscaled, len]
    push_cast
    linarith
  refine ⟨a, n, t, hrun, N.digit_ne_zero (by rw [hmant']; exact_mod_cast hle), hsign, hn0, hn,
    by omega, by omega, hmant', by omega, by omega, ?_⟩
  rw [hexpt', show (t - 160 + 16 * e : ℤ) = k by omega, ← hx', habs]

end

/-! ### `toreal` -/

section

variable {a : N} {x : ℚ} {n t : ℕ}

theorem Exact.val_eq (h : Exact a x n t) : a.val ℚ = x := by
  rw [val, ulp, h.mant, h.eq, Nat.cast_ofNat, radix_zpow, mul_assoc, len]
  push_cast
  rw [mul_assoc, ← zpow_natCast 2 t, ← zpow_add₀ (by norm_num)]
  exact congrArg (fun k : ℤ => (a.sign : ℚ) * (n * (2 : ℚ) ^ k)) (by omega)

/-- No digit is left out. -/
theorem Exact.low_eq_zero (h : Exact a x n t) {i M low b : ℕ} (hs : Split a i M low b) :
    low = 0 := by
  have hdvd : 65536 ^ i ∣ a.mant := by
    have ht := h.le_shift
    have hi := hs.le
    rw [h.mant, show 65536 = 2 ^ 16 from rfl, ← pow_mul]
    exact dvd_mul_of_dvd_right (pow_dvd_pow 2 (by omega)) n
  rw [hs.mant] at hdvd
  exact Nat.eq_zero_of_dvd_of_lt ((Nat.dvd_add_left (Nat.dvd_mul_right _ _)).mp hdvd) hs.low_lt

/-- Every sum and product is a `double`, also while `h` is scaled. -/
theorem Exact.torealM_eq {m : Type → Type} [Monad m] [LawfulMonad m] {op : ℚ → m ℚ}
    (hop : ∀ y, IsDouble y → op y = pure y) (h : Exact a x n t) : torealM op op a = pure x := by
  have hlower := h.lower
  have hupper := h.upper
  have hle := h.le_shift
  have hlt := h.shift_lt
  have hexpt : a.expt ≠ zeroExp := by
    intro he
    have : a.expt.toInt = -32768 := by
      rw [he]
      rfl
    omega
  have hexact : ExactOn op := by
    intro n j hn hj
    rw [div_eq_mul_inv, ← zpow_natCast, ← zpow_neg]
    exact hop _ (isDouble_mul_zpow hn (by omega) (by omega))
  obtain ⟨i, M, low, b, hs, hrun⟩ := torealM_run op hexact hexpt h.digit_ne_zero
  have hpow : (65536 : ℚ) ^ len = 65536 ^ (len - i) * 65536 ^ i := by
    rw [← pow_add, Nat.sub_add_cancel (by rw [len]; have := hs.le; omega)]
  have hmant : (n * 2 ^ t : ℚ) = 65536 ^ i * M := by
    have hmant := hs.mant
    rw [h.low_eq_zero hs, Nat.zero_add, h.mant] at hmant
    exact_mod_cast hmant
  -- the bits end above the digit `i`, so no half unit is added
  have hsum : (M + halfUnit low) / 65536 ^ (len - i) = n * (2 : ℚ) ^ (t - 160 : ℤ) := by
    rw [halfUnit, if_pos (h.low_eq_zero hs), add_zero, zpow_sub₀ (by norm_num), zpow_natCast,
      ← mul_div_assoc, hmant, show (2 : ℚ) ^ (160 : ℤ) = 65536 ^ len by norm_num [len], hpow,
      mul_comm, mul_div_mul_right _ _ (by positivity)]
  -- scaling keeps the significand
  have hscale := scale_run op (e := a.expt.toInt) (h := n * (2 : ℚ) ^ (t - 160 : ℤ))
    fun k hk => by
      rw [radix_zpow, mul_assoc, ← zpow_add₀ (by norm_num)]
      exact hop _ (isDouble_mul_zpow h.lt (by omega) (by omega))
  have hvalue : (if a.sign = -1 then -(n * (2 : ℚ) ^ (t - 160 : ℤ) * (65536 : ℚ) ^ a.expt.toInt)
      else n * (2 : ℚ) ^ (t - 160 : ℤ) * (65536 : ℚ) ^ a.expt.toInt) = x := by
    rw [radix_zpow, mul_assoc, ← zpow_add₀ (by norm_num), h.eq]
    rcases h.isSign with hsign | hsign
    · rw [hsign, if_neg (by decide), Int.cast_one, one_mul]
    · rw [hsign, if_pos rfl, Int.cast_neg, Int.cast_one, neg_one_mul]
  rw [hrun _ _ (by rw [hsum]; exact hop _ (isDouble_mul_zpow h.lt (by omega) (by omega))) hscale,
    hvalue]

end

theorem torealM_zero {m : Type → Type} [Monad m] (op : ℚ → m ℚ) : torealM op op zero = pure 0 :=
  if_neg (by decide)

/-- A `double` is converted to the number with its value, and back to itself; every operation gives
a `double`, so that none is rounded and none overflows. -/
theorem fromreal_toreal {x : ℚ} (hx : IsDouble x) :
    ∃ a, fromreal (.fin x) = some a ∧ a.Canonical ∧ a.val ℚ = x ∧
      (∀ rnd : ℚ → ℚ, (∀ y, IsDouble y → rnd y = y) → toreal rnd a = x) ∧
      ∀ op : ℚ → Option ℚ, (∀ y, IsDouble y → op y = some y) →
        fromrealM op (.fin x) = some a ∧ torealM op op a = some x := by
  rcases eq_or_ne x 0 with rfl | h0
  · refine ⟨zero, fromreal_zero, Or.inl rfl, val_zero ℚ, fun rnd _ => torealM_zero (m := Id) _,
      fun op hop => ⟨?_, torealM_zero op⟩⟩
    rw [fromrealM_eq hop hx, fromreal_zero]
  · obtain ⟨a, n, t, hrun, h⟩ := fromreal_exact hx h0
    refine ⟨a, hrun, Or.inr ⟨h.digit_ne_zero, h.isSign⟩, h.val_eq, fun rnd hrnd => ?_,
      fun op hop => ⟨?_, h.torealM_eq hop⟩⟩
    · exact h.torealM_eq (m := Id) hrnd
    · rw [fromrealM_eq hop hx, hrun]

/-- The smallest subnormal number. -/
theorem fromreal_toreal_subnormal :
    let x : ℚ := (1 : ℤ) * (2 : ℚ) ^ (-1074 : ℤ)
    ∃ a, fromreal (.fin x) = some a ∧ a.Canonical ∧ a.val ℚ = x ∧
      (∀ rnd : ℚ → ℚ, (∀ y, IsDouble y → rnd y = y) → toreal rnd a = x) ∧
      ∀ op : ℚ → Option ℚ, (∀ y, IsDouble y → op y = some y) →
        fromrealM op (.fin x) = some a ∧ torealM op op a = some x :=
  fromreal_toreal ⟨1, -1074, by decide, by decide, by decide, rfl⟩

end BenchFFT.Mp
