import BenchFFT.Mp.Equiv.Convert
import BenchFFT.RoundEven
import Mathlib.Data.Fin.VecNotation

/-!
# `toreal` rounds once

`toreal` sums the leading digits to `h`, three more to `l`, adds half a unit of the last of them
when a digit below is not `0`, and rounds `h + l`.  All other operations are exact (`torealM_run`).
-/

namespace BenchFFT.Mp

open Limbs N

/-! ### Bits -/

theorem bitCount_le {r k : ℕ} (h : r < 2 ^ k) : bitCount r ≤ k := by
  induction k generalizing r with
  | zero =>
    rw [pow_zero, Nat.lt_one_iff] at h
    rw [bitCount, if_pos h]
  | succ k ih =>
    rw [bitCount]
    split_ifs with h0
    · exact Nat.zero_le _
    · refine Nat.succ_le_succ (ih ?_)
      rw [Nat.shiftRight_eq_div_pow, pow_one]
      rw [pow_succ] at h
      omega

theorem bitCount_pos {r : ℕ} (h : r ≠ 0) : 0 < bitCount r := by
  rw [bitCount, if_neg h]
  exact Nat.succ_pos _

/-! ### The run -/

section Run

variable {m : Type → Type} [Monad m] [LawfulMonad m] {op opSum : ℚ → m ℚ} {a : N}

/-- The operations are exact on fractions with few bits. -/
def ExactOn (op : ℚ → m ℚ) : Prop :=
  ∀ n j : ℕ, n < 2 ^ 53 → j ≤ 128 → op ((n : ℚ) / 2 ^ j) = pure ((n : ℚ) / 2 ^ j)

omit [LawfulMonad m] in
theorem ExactOn.radix (hop : ExactOn op) {n c : ℕ} (hn : n < 2 ^ 53) (hc : c ≤ 8) :
    op ((n : ℚ) / 65536 ^ c) = pure ((n : ℚ) / 65536 ^ c) := by
  have hpow : (65536 : ℚ) ^ c = 2 ^ (16 * c) := by
    rw [pow_mul]
    norm_num
  rw [hpow]
  exact hop n (16 * c) hn (by omega)

theorem sumDigits_run (hop : ExactOn op) {limit : ℕ} (hlimit : limit ≤ 53) (q bits : ℕ)
    {i c H : ℕ} (hle : bits + 16 * q ≤ limit) (hlt : limit < bits + 16 * (q + 1))
    (hq : q ≤ i) (hH : H < 2 ^ bits) (hc : c + q ≤ 7) :
    sumDigits op limit a bits i (H / 65536 ^ c) (1 / 65536 ^ (c + 1))
      = pure (i - q, ((H * 65536 ^ q + value 65536 q fun j => (a.digit (i - q + j)).toNat : ℕ) : ℚ)
          / 65536 ^ (c + q), 1 / 65536 ^ (c + q + 1)) := by
  induction q generalizing bits i c H with
  | zero =>
    rw [sumDigits, if_neg (by omega), Nat.sub_zero, value_zero, pow_zero, Nat.mul_one]
    rfl
  | succ q ih =>
    obtain ⟨i, rfl⟩ := Nat.exists_eq_add_of_le' (Nat.one_le_of_lt hq)
    have hd := a.digit_lt i
    have hpow : 2 ^ (bits + 16) ≤ 2 ^ 53 := Nat.pow_le_pow_right (by decide) (by omega)
    have hH' : H * 65536 + (a.digit i).toNat < 2 ^ (bits + 16) := by
      rw [pow_add]
      omega
    have hproduct : ((a.digit i).toNat : ℚ) * (1 / 65536 ^ (c + 1))
        = (a.digit i).toNat / 65536 ^ (c + 1) := mul_one_div _ _
    have hsum : (H : ℚ) / 65536 ^ c + (a.digit i).toNat / 65536 ^ (c + 1)
        = (H * 65536 + (a.digit i).toNat : ℕ) / 65536 ^ (c + 1) := by
      rw [pow_succ]
      push_cast
      field_simp
    have hweight : (1 : ℚ) / 65536 ^ (c + 1) * iradix = (1 : ℕ) / 65536 ^ (c + 2) := by
      rw [iradix, realRadix, Nat.cast_one, pow_succ _ (c + 1)]
      field_simp
    rw [sumDigits, if_pos (by omega), Nat.add_sub_cancel, hproduct,
      hop.radix (by omega) (by omega), pure_bind, hsum, hop.radix (by omega) (by omega), pure_bind,
      hweight, hop.radix (by decide) (by omega), pure_bind, Nat.cast_one]
    rw [ih (bits + 16) (c := c + 1) (by omega) (by omega) (by omega) hH' (by omega)]
    have hvalue : (H * 65536 + (a.digit i).toNat) * 65536 ^ q
          + (value 65536 q fun j => (a.digit (i - q + j)).toNat)
        = H * 65536 ^ (q + 1)
          + value 65536 (q + 1) fun j => (a.digit (i + 1 - (q + 1) + j)).toNat := by
      rw [value_succ, Nat.add_sub_add_right, Nat.sub_add_cancel (by omega)]
      ring
    rw [hvalue, Nat.add_sub_add_right, Nat.add_right_comm c 1 q, ← Nat.add_assoc]

end Run

/-! ### The split of the digits -/

theorem le_bitCount {r : ℕ} (h : r ≠ 0) : 2 ^ (bitCount r - 1) ≤ r := by
  induction r using Nat.strong_induction_on with
  | _ r ih =>
    rw [bitCount, if_neg h, Nat.add_sub_cancel, Nat.shiftRight_eq_div_pow, pow_one]
    by_cases h1 : r / 2 = 0
    · rw [h1, bitCount, if_pos rfl, pow_zero]
      omega
    · have hhalf := ih (r / 2) (by omega) h1
      obtain ⟨k, hk⟩ := Nat.exists_eq_add_of_lt (bitCount_pos h1)
      rw [hk, Nat.zero_add, Nat.add_sub_cancel] at hhalf
      rw [hk, Nat.zero_add, pow_succ]
      omega

theorem lt_bitCount (r : ℕ) : r < 2 ^ bitCount r := by
  induction r using Nat.strong_induction_on with
  | _ r ih =>
    rw [bitCount]
    split_ifs with h
    · omega
    · have hhalf := ih (r / 2) (by omega)
      rw [Nat.shiftRight_eq_div_pow, pow_one, pow_succ]
      omega

theorem sticky_eq_zero_iff (a : N) (i : ℕ) :
    forRange i (fun j s => s ||| a.digit j) 0 = 0 ↔
      (value 65536 i fun j => (a.digit j).toNat) = 0 := by
  induction i with
  | zero => exact iff_of_true rfl rfl
  | succ i ih =>
    rw [forRange_succ, UInt16.or_eq_zero_iff, ih, value_succ, Nat.add_eq_zero_iff,
      Nat.mul_eq_zero, or_iff_left (by positivity), ← UInt16.toNat_inj]
    rfl

/-- The digits from the `i`-th one on make up `M`, and the others `low`; the leading digit has `b`
bits.  Half the spacing of the numbers with 53 bits is a multiple of the weight of the digit `i`. -/
structure Split (a : N) (i M low b : ℕ) : Prop where
  le : i ≤ 4
  bits_pos : 0 < b
  bits : 16 * i ≤ b + 90
  mant : a.mant = low + 65536 ^ i * M
  low_lt : low < 65536 ^ i
  lower : 2 ^ (b - 1) * 65536 ^ (9 - i) ≤ M
  upper : M + 1 ≤ 2 ^ b * 65536 ^ (9 - i)

/-- The leading digit and `q` more. -/
def headDigits (a : N) (q : ℕ) : ℕ :=
  (a.digit (len - 1)).toNat * 65536 ^ q
    + value 65536 q fun j => (a.digit (len - 1 - q + j)).toNat

/-- The three digits from the `i`-th one on. -/
def guardDigits (a : N) (i : ℕ) : ℕ := value 65536 3 fun j => (a.digit (i + j)).toNat

theorem guardDigits_lt (a : N) (i : ℕ) : guardDigits a i < 65536 ^ 3 :=
  value_lt fun _ _ => a.digit_lt _

/-- As many digits as 53 bits hold, three guard digits, and the others. -/
theorem split_digits {a : N} (htop : a.digit (len - 1) ≠ 0) {b q i : ℕ}
    (hb : b = bitCount (a.digit (len - 1)).toNat) (hq : q = (53 - b) / 16) (hi : i = 6 - q) :
    Split a i (headDigits a q * 65536 ^ 3 + guardDigits a i)
      (value 65536 i fun j => (a.digit j).toNat) b := by
  have hr : (a.digit (len - 1)).toNat ≠ 0 := fun h => htop (UInt16.toNat_inj.mp h)
  have hle := bitCount_le (k := 16) (a.digit_lt (len - 1))
  have hlow := le_bitCount hr
  have hhigh := lt_bitCount (a.digit (len - 1)).toNat
  have hpos := bitCount_pos hr
  rw [← hb] at hle hlow hhigh hpos
  have hi3 : len - 1 - q = i + 3 := by
    rw [len]
    omega
  have hlast : i + 3 + q = len - 1 := by
    rw [len]
    omega
  have hHlow : (a.digit (len - 1)).toNat * 65536 ^ q ≤ headDigits a q := Nat.le_add_right _ _
  have hHhigh : headDigits a q < ((a.digit (len - 1)).toNat + 1) * 65536 ^ q := by
    rw [headDigits, Nat.add_mul, Nat.one_mul]
    exact Nat.add_lt_add_left (value_lt fun j _ => a.digit_lt _) _
  have hLlt := guardDigits_lt a i
  have hmant : a.mant = (value 65536 i fun j => (a.digit j).toNat)
      + 65536 ^ i * (headDigits a q * 65536 ^ 3 + guardDigits a i) := by
    rw [mant, show len = i + (3 + (q + 1)) by rw [len] at *; omega, value_add, value_add,
      value_succ q, guardDigits, headDigits, hi3]
    simp only [← Nat.add_assoc, hlast]
    ring
  have hpow : 65536 ^ (9 - i) = 65536 ^ q * 65536 ^ 3 := by
    rw [← pow_add]
    exact congrArg _ (by omega)
  refine ⟨by omega, hpos, by omega, hmant, value_lt fun j _ => a.digit_lt j, ?_, ?_⟩
  · rw [hpow, ← Nat.mul_assoc]
    exact (Nat.mul_le_mul_right _ ((Nat.mul_le_mul_right _ hlow).trans hHlow)).trans
      (Nat.le_add_right _ _)
  · have hH1 : headDigits a q + 1 ≤ 2 ^ b * 65536 ^ q :=
      hHhigh.trans_le (Nat.mul_le_mul_right _ hhigh)
    calc headDigits a q * 65536 ^ 3 + guardDigits a i + 1
        ≤ (headDigits a q + 1) * 65536 ^ 3 := by omega
      _ ≤ 2 ^ b * 65536 ^ q * 65536 ^ 3 := Nat.mul_le_mul_right _ hH1
      _ = 2 ^ b * 65536 ^ (9 - i) := by rw [hpow, Nat.mul_assoc]

/-- Half a unit, if any digit is left out. -/
def halfUnit (low : ℕ) : ℚ := if low = 0 then 0 else 1 / 2

section Run

variable {m : Type → Type} [Monad m] [LawfulMonad m] {op opSum : ℚ → m ℚ} {a : N}

theorem addSticky_run (hop : ExactOn op) {c i L low : ℕ} (hc : c ≤ 7) (hL : L < 65536 ^ 3)
    (hlow : low = value 65536 i fun j => (a.digit j).toNat) :
    addSticky op (forRange i (fun j s => s ||| a.digit j) 0) (L / 65536 ^ c) (1 / 65536 ^ (c + 1))
      = pure ((L + halfUnit low) / 65536 ^ c) := by
  have hiff := sticky_eq_zero_iff a i
  rw [← hlow] at hiff
  rw [addSticky, halfUnit]
  by_cases h0 : low = 0
  · rw [if_neg (not_not.mpr (hiff.mpr h0)), if_pos h0, add_zero]
  · have hpow : (65536 : ℚ) ^ c = 2 ^ (16 * c) := by
      rw [pow_mul]
      norm_num
    have hhalf : (32768 : ℚ) * (1 / 65536 ^ (c + 1)) = (32768 : ℕ) / 65536 ^ (c + 1) := by
      rw [mul_one_div, Nat.cast_ofNat]
    have hsum : (L : ℚ) / 65536 ^ c + (32768 : ℕ) / 65536 ^ (c + 1)
        = (2 * L + 1 : ℕ) / 2 ^ (16 * c + 1) := by
      rw [pow_succ _ c, pow_succ 2 (16 * c), ← hpow]
      push_cast
      field_simp
      ring
    have hresult : ((2 * L + 1 : ℕ) : ℚ) / 2 ^ (16 * c + 1) = (L + 1 / 2) / 65536 ^ c := by
      rw [pow_succ, ← hpow]
      push_cast
      field_simp
    rw [if_pos (mt hiff.mp h0), if_neg h0, hhalf, hop.radix (by decide) (by omega), pure_bind, hsum,
      hop _ _ (by omega) (by omega), hresult]

/-- The head and the guard digits put together, with the half unit for the sticky ones. -/
theorem head_add_guard (H G low : ℕ) {q k : ℕ} (hk : k = 1 + q + 3) :
    (H : ℚ) / 65536 ^ (1 + q) + (G + halfUnit low) / 65536 ^ (1 + q + 3)
      = ((H * 65536 ^ 3 + G : ℕ) + halfUnit low) / 65536 ^ k := by
  rw [hk, pow_add _ (1 + q) 3]
  push_cast
  field_simp
  ring

theorem torealM_run (opSum : ℚ → m ℚ) (hop : ExactOn op) (hexpt : a.expt ≠ zeroExp)
    (htop : a.digit (len - 1) ≠ 0) :
    ∃ i M low b, Split a i M low b ∧ ∀ s v,
      opSum ((M + halfUnit low) / 65536 ^ (len - i)) = pure s →
      scale op a.expt.toInt s = pure v →
      torealM op opSum a = pure (if a.sign = -1 then -v else v) := by
  have hr : (a.digit (len - 1)).toNat ≠ 0 := fun h => htop (UInt16.toNat_inj.mp h)
  have hr' := a.digit_lt (len - 1)
  have hle := bitCount_le (k := 16) hr'
  have hhigh := lt_bitCount (a.digit (len - 1)).toNat
  have hpos := bitCount_pos hr
  obtain ⟨b, hb⟩ : ∃ b, b = bitCount (a.digit (len - 1)).toNat := ⟨_, rfl⟩
  obtain ⟨q, hq⟩ : ∃ q, q = (53 - b) / 16 := ⟨_, rfl⟩
  obtain ⟨i, hi⟩ : ∃ i, i = 6 - q := ⟨_, rfl⟩
  rw [← hb] at hle hhigh hpos
  have hi3 : len - 1 - q = i + 3 := by
    rw [len]
    omega
  refine ⟨i, _, _, b, split_digits htop hb hq hi, fun s v hsum hscale => ?_⟩
  -- the loops, one after the other
  have hhead := sumDigits_run (a := a) hop (le_refl bitsInReal) q b
    (i := len - 1) (c := 1) (H := (a.digit (len - 1)).toNat) (by rw [bitsInReal]; omega)
    (by rw [bitsInReal]; omega) (by rw [len]; omega) hhigh (by omega)
  have hguard := sumDigits_run (a := a) hop (show bitsInReal - 1 ≤ 53 by decide) 3 0
    (i := i + 3) (c := 1 + q) (H := 0) (by decide) (by decide) (by omega) (by decide) (by omega)
  rw [← headDigits, hi3] at hhead
  rw [Nat.add_sub_cancel, Nat.zero_mul, Nat.zero_add, ← guardDigits, Nat.cast_zero,
    zero_div] at hguard
  have hsticky := addSticky_run (a := a) hop (c := 1 + q + 3) (i := i) (by omega)
    (guardDigits_lt a i) rfl
  have hlead : ((a.digit (len - 1)).toNat : ℚ) * iradix
      = (a.digit (len - 1)).toNat / 65536 ^ 1 := by
    rw [iradix, realRadix, mul_one_div, pow_one]
  have hweight : iradix * iradix = (1 : ℕ) / 65536 ^ (1 + 1) := by
    rw [iradix, realRadix]
    norm_num
  have htotal := head_add_guard (headDigits a q) (guardDigits a i)
    (value 65536 i fun j => (a.digit j).toNat) (q := q) (k := len - i) (by rw [len]; omega)
  rw [torealM, if_pos hexpt]
  dsimp only
  rw [hlead, hop.radix (by omega) (by decide), pure_bind, hweight,
    hop.radix (by decide) (by decide), pure_bind, ← hb, Nat.cast_one, hhead, pure_bind, hguard,
    pure_bind, hsticky, pure_bind, htotal, hsum, pure_bind, hscale, pure_bind]

/-- The loops multiply by a power of two, one digit after the other. -/
theorem scale_run (op : ℚ → m ℚ) {e : ℤ} {h : ℚ}
    (hexact : ∀ k : ℤ, 0 ≤ k ∧ k ≤ e ∨ e ≤ k ∧ k ≤ 0 →
      op (h * (65536 : ℚ) ^ k) = pure (h * (65536 : ℚ) ^ k)) :
    scale op e h = pure (h * (65536 : ℚ) ^ e) := by
  have hup : ∀ n : ℕ, n ≤ e.toNat → forRangeM n (fun _ h => op (h * realRadix)) h
      = pure (h * (65536 : ℚ) ^ (n : ℤ)) := by
    intro n hn
    induction n with
    | zero => rw [Nat.cast_zero, zpow_zero, mul_one, forRangeM]
    | succ n ih =>
      have hstep : h * (65536 : ℚ) ^ (n : ℤ) * realRadix = h * 65536 ^ ((n + 1 : ℕ) : ℤ) := by
        rw [mul_assoc, realRadix, Nat.cast_succ, zpow_add_one₀ (by norm_num)]
      rw [forRangeM, ih (by omega), pure_bind, hstep, hexact _ (Or.inl (by omega))]
  have hdown : ∀ n : ℕ, n ≤ (-e).toNat → ∀ k : ℤ, k = e.toNat →
      forRangeM n (fun _ h => op (h * iradix)) (h * (65536 : ℚ) ^ k)
        = pure (h * (65536 : ℚ) ^ (k - n)) := by
    intro n hn k hk
    induction n with
    | zero => rw [Nat.cast_zero, sub_zero, forRangeM]
    | succ n ih =>
      have hstep : h * (65536 : ℚ) ^ (k - n) * iradix = h * 65536 ^ (k - (n + 1 : ℕ)) := by
        rw [mul_assoc, iradix, realRadix, Nat.cast_succ, ← sub_sub, zpow_sub_one₀ (by norm_num),
          one_div]
      rw [forRangeM, ih (by omega), pure_bind, hstep, hexact _ (Or.inr (by omega))]
  rw [scale, hup _ le_rfl, pure_bind, hdown _ le_rfl _ rfl,
    show ((e.toNat : ℕ) : ℤ) - (-e).toNat = e by omega]

end Run

/-! ### One rounding -/

open RoundEven

theorem radix_zpow (k : ℤ) : (65536 : ℚ) ^ k = 2 ^ (16 * k) := by
  rw [zpow_mul]
  norm_num

theorem Split.roundTo_eq {a : N} {i M low b : ℕ} (h : Split a i M low b) :
    roundTo bitsInReal ((M + halfUnit low) / 65536 ^ (len - i))
      = roundTo bitsInReal (a.mant / 65536 ^ len) := by
  have hpow : (65536 : ℚ) ^ len = 65536 ^ (len - i) * 65536 ^ i := by
    rw [← pow_add, Nat.sub_add_cancel (by rw [len]; have := h.le; omega)]
  have hpos : (0 : ℚ) < 65536 ^ i := by positivity
  have hvalue : (a.mant : ℚ) / 65536 ^ len = 1 / 65536 ^ (len - i) * (M + low / 65536 ^ i) := by
    rw [h.mant, hpow]
    push_cast
    field_simp
    ring
  rw [hvalue, div_eq_mul_one_div, mul_comm]
  by_cases h0 : low = 0
  · rw [halfUnit, if_pos h0, h0, Nat.cast_zero, zero_div]
  · -- both numbers lie between the same neighbours of a grid with the midpoints
    have hi := h.le
    have hgrid : (1 : ℚ) / 65536 ^ (len - i) = 2 ^ (16 * (i - 10 : ℤ)) := by
      rw [← radix_zpow, one_div, ← zpow_natCast, ← zpow_neg, len]
      exact congrArg _ (by omega)
    have hunit : ∀ n : ℕ, (2 : ℚ) ^ (16 * (i - 10 : ℤ)) * (2 ^ n * 65536 ^ (9 - i))
        = 2 ^ (n - 16 : ℤ) := by
      intro n
      rw [← zpow_natCast 65536, radix_zpow, ← zpow_natCast 2 n, ← zpow_add₀ (by norm_num),
        ← zpow_add₀ (by norm_num)]
      exact congrArg _ (by omega)
    have hlow : ((2 ^ (b - 1) * 65536 ^ (9 - i) : ℕ) : ℚ) ≤ M := Nat.cast_le.mpr h.lower
    have hhigh : ((M + 1 : ℕ) : ℚ) ≤ (2 ^ b * 65536 ^ (9 - i) : ℕ) := Nat.cast_le.mpr h.upper
    have hg : (0 : ℚ) < 2 ^ (16 * (i - 10 : ℤ)) := by positivity
    have hbits := h.bits
    have hbits0 := h.bits_pos
    push_cast at hlow hhigh
    rw [hgrid, halfUnit, if_neg h0]
    refine roundTo_eq_of_grid (e := b - 17) (c := 2 ^ (b + 90 - 16 * i)) (n := M) (by positivity) hg
      ?_ (by norm_num) (by norm_num) (by positivity) ?_ ?_ ?_
    · push_cast
      rw [← pow_succ', ← zpow_natCast 2, ← zpow_add₀ (by norm_num), bitsInReal]
      exact congrArg _ (by omega)
    · rw [div_lt_one hpos]
      exact_mod_cast h.low_lt
    · rw [show (b - 17 : ℤ) = (b - 1 : ℕ) - 16 by omega, ← hunit]
      exact mul_le_mul_of_nonneg_left hlow hg.le
    · rw [show (b - 17 + 1 : ℤ) = b - 16 by omega, ← hunit]
      exact mul_le_mul_of_nonneg_left hhigh hg.le

section Run

variable {m : Type → Type} [Monad m] [LawfulMonad m] {op opSum : ℚ → m ℚ} {a : N}

/-- Every operation but the last sum is exact, and that one rounds the value of the number. -/
theorem torealM_roundTo (hop : ∀ x, Representable bitsInReal x → op x = pure x)
    (hsum : ∀ x, opSum x = pure (roundTo bitsInReal x)) (ha : a.Canonical) (h0 : a ≠ zero)
    (hexpt : a.expt ≠ zeroExp) :
    torealM op opSum a = pure (roundTo bitsInReal (a.val ℚ)) := by
  obtain ⟨htop, hs⟩ := ha.resolve_left h0
  have hexact : ExactOn op := fun n j hn _ => by
    refine hop _ ⟨n, -j, ?_, ?_⟩
    · rw [Nat.abs_cast, bitsInReal]
      exact_mod_cast hn
    · rw [zpow_neg, zpow_natCast, Int.cast_natCast, div_eq_mul_inv]
  obtain ⟨i, M, low, b, hsplit, hrun⟩ := torealM_run opSum hexact hexpt htop
  have hscale := scale_run op (e := a.expt.toInt)
    (h := roundTo bitsInReal (a.mant / 65536 ^ len)) fun k _ => by
      rw [radix_zpow, ← roundTo_mul_zpow]
      exact hop _ (representable_roundTo (by decide) _)
  have hval : a.val ℚ = a.sign * (a.mant / 65536 ^ len * (65536 : ℚ) ^ a.expt.toInt) := by
    rw [val, ulp, zpow_sub₀ (by norm_num), Nat.cast_ofNat, zpow_natCast]
    ring
  rw [hrun _ _ (by rw [hsum, hsplit.roundTo_eq]) hscale, hval, radix_zpow, ← roundTo_mul_zpow]
  rcases hs with hs | hs
  · rw [hs, if_neg (by decide), Int.cast_one, one_mul]
  · rw [hs, if_pos rfl, Int.cast_neg, Int.cast_one, neg_one_mul, roundTo_neg]

end Run

/-- The result `x` of an operation, if rounding does not change it. -/
def checked (rnd : ℚ → ℚ) (x : ℚ) : Option ℚ := if rnd x = x then some x else none

/-- `toreal` rounds the value once, and no operation but `h += l` rounds at all. -/
theorem toreal_rounds_once {a : N} (ha : a.Canonical) (h0 : a ≠ zero)
    (hexpt : |a.expt.toInt| ≤ 60) :
    toreal (roundTo bitsInReal) a = roundTo bitsInReal (a.val ℚ) ∧
      torealM (checked (roundTo bitsInReal)) (fun x => some (roundTo bitsInReal x)) a
        = some (roundTo bitsInReal (a.val ℚ)) := by
  have hne : a.expt ≠ zeroExp := by
    intro h
    rw [h] at hexpt
    exact absurd hexpt (by decide)
  refine ⟨?_, torealM_roundTo (fun x hx => if_pos (roundTo_of_representable hx)) (fun _ => rfl)
    ha h0 hne⟩
  exact torealM_roundTo (m := Id) (fun x hx => roundTo_of_representable hx) (fun _ => rfl) ha h0 hne

/-- Just above the middle of two neighbours, by the last digit. -/
theorem toreal_rounds_once_sticky :
    let a : N := ⟨1, 0, ![1, 0, 0, 0, 0, 0, 1024, 0, 0, 32768]⟩
    toreal (roundTo bitsInReal) a = roundTo bitsInReal (a.val ℚ) ∧
      torealM (checked (roundTo bitsInReal)) (fun x => some (roundTo bitsInReal x)) a
        = some (roundTo bitsInReal (a.val ℚ)) :=
  toreal_rounds_once (Or.inr ⟨by decide, Or.inl rfl⟩) (by decide) (by decide)

end BenchFFT.Mp
