import BenchFFT.Mp.Equiv.Product
import BenchFFT.Mp.Equiv.Sum
import Mathlib.Data.Int.Log
import Mathlib.Data.Rat.Floor

/-!
# Sums and products lose only what does not fit

* `addSub_faithful`: sums and differences are right up to the last digit, or the last but one when a
  carry leaves the top digit, and no carry or borrow is lost in between.
* `mul_faithful`: products are the exact ones, cut to the leading digits; the accumulators stay
  below `2 ^ 32`, and the last carry of a row goes to a digit that nothing was added to.

All of this holds for every width of the accumulator from 32 bits on.
-/

namespace BenchFFT.Mp.N

open Limbs

variable {w : ℕ}

/-! ### The operand with the larger magnitude -/

/-- `c` is `x`, up to digits below the ones of the larger operand `a`. -/
structure FaithfulAt (a b : N) (x : ℚ) (carry : Prop) (c : N) : Prop where
  canonical : c.Canonical
  near : |c.val ℚ - x| < 65536 * a.ulp ℚ
  near_of_not_carry : ¬carry → |c.val ℚ - x| < a.ulp ℚ
  exact : ¬carry → b = zero ∨ a.expt = b.expt → c.val ℚ = x

/-- Whether a sum of magnitudes, or what it keeps of the smaller operand, needs one more digit. -/
def Overflows (a b : N) : Prop := 65536 ^ len ≤ a.mant + b.mant / 65536 ^ shift a b

section Magnitudes

variable {s k : ℤ} {a b : N}

theorem moved_exact (h : b = zero ∨ a.expt = b.expt) :
    ((b.mant / 65536 ^ shift a b : ℕ) : ℚ) * a.ulp ℚ = b.mant * b.ulp ℚ := by
  rcases h with rfl | h
  · rw [mant_zero, Nat.zero_div, Nat.cast_zero, zero_mul, zero_mul]
  · rw [shift, h, sub_self, Int.toNat_zero, pow_zero, Nat.div_one, ulp, ulp, h]

/-- The exponent of the larger operand, unless both are zero. -/
theorem expt_of_sum_ne_zero (ha : Small k a) (h : Dominates a b)
    (hV : a.mant + b.mant / 65536 ^ shift a b ≠ 0) :
    -k ≤ a.expt.toInt ∧ a.expt.toInt ≤ k := by
  apply ha.range.resolve_left
  rintro rfl
  have hle := h.mant
  rw [mant_zero, Nat.le_zero] at hle
  exact hV (by rw [hle, mant_zero])

variable (hw : 32 ≤ w)

include hw

/-- Without a carry, a sum of magnitudes is exact. -/
theorem addmag0_val (ha : Small k a) (hk : k ≤ 32000) (h : Dominates a b)
    (hno : a.mant + b.mant / 65536 ^ shift a b < 65536 ^ len) :
    (addmag0 w s a b).val ℚ
      = s * a.sign * ((a.mant + b.mant / 65536 ^ shift a b : ℕ) * a.ulp ℚ) := by
  obtain ⟨d, hV, heq⟩ := exists_addmag0 hw a b s
  have htop : d len = 0 := by
    rw [value_succ, digitsFrom_zero] at hV
    apply UInt16.toNat_inj.mp
    rw [len] at *
    show (d 10).toNat = 0
    omega
  have hV' : value 65536 len (digitsFrom d 0) = a.mant + b.mant / 65536 ^ shift a b := by
    rw [← hV, value_succ, digitsFrom_zero, htop]
    simp
  rw [heq, pack, if_neg (not_not.mpr htop), add_sub_cancel_right,
    pack_val (F := ℚ) _ _ le_rfl fun hV0 => ?_, hV', ulp]
  · push_cast
    ring
  · have := expt_of_sum_ne_zero ha h (hV' ▸ hV0)
    rw [len]
    omega

/-- With a carry, the last digit of the sum is cut off. -/
theorem addmag0_val_of_carry (ha : Small k a) (hk : k ≤ 32000)
    (h : Dominates a b) (hcarry : 65536 ^ len ≤ a.mant + b.mant / 65536 ^ shift a b) :
    (addmag0 w s a b).val ℚ = s * a.sign *
      (((a.mant + b.mant / 65536 ^ shift a b) / 65536 * 65536 : ℕ) * a.ulp ℚ) := by
  obtain ⟨d, hV, heq⟩ := exists_addmag0 hw a b s
  have hV0 : value 65536 (len + 1) (digitsFrom d 0) ≠ 0 := by
    rw [hV, len] at *
    omega
  have hrange := expt_of_sum_ne_zero ha h (hV ▸ hV0)
  obtain ⟨i, hi, -, hhigh, hsign, hexpt, -, hmant⟩ :=
    pack_spec (a.expt.toInt + 1) (s * a.sign) hV0
  rw [hV] at hhigh hmant
  -- the carry makes the digit `d[LEN]` the leading one
  have hlead : i = len := by
    have hpow := (Nat.pow_lt_pow_iff_right (show 1 < 65536 by decide)).mp
      (hcarry.trans_lt hhigh)
    omega
  subst hlead
  -- which drops the last digit
  have hcut : (addmag0 w s a b).mant = (a.mant + b.mant / 65536 ^ shift a b) / 65536 := by
    have hpow : 65536 ^ len = 65536 * 65536 ^ (len - 1) := pow_succ' 65536 (len - 1)
    rw [heq, hmant, hpow]
    exact Nat.mul_div_mul_right _ _ (by positivity)
  have hulp : (addmag0 w s a b).ulp ℚ = 65536 * a.ulp ℚ := by
    rw [ulp, heq, hexpt, toInt_ofInt (by rw [len]; omega) (by rw [len]; omega), ulp,
      Nat.cast_ofNat, ← zpow_one_add₀ (by norm_num)]
    apply congrArg _
    push_cast
    ring
  rw [val, hcut, hulp, heq, hsign]
  push_cast
  ring

theorem addmag0_faithfulAt (hs : IsSign s) (ha : Small k a) (hb : Small k b) (hk : k ≤ 32000)
    (h : Dominates a b) :
    FaithfulAt a b ((s * a.sign : ℤ) * (|a.val ℚ| + |b.val ℚ|)) (Overflows a b)
      (addmag0 w s a b) := by
  have hsign := hs.mul ha.canonical.isSign
  obtain ⟨hle, hlt⟩ := h.moved (F := ℚ)
  have hulp := a.ulp_pos (F := ℚ)
  have hsum : ((a.mant + b.mant / 65536 ^ shift a b : ℕ) : ℚ) * a.ulp ℚ
      = a.mant * a.ulp ℚ + (b.mant / 65536 ^ shift a b : ℕ) * a.ulp ℚ := by
    push_cast
    ring
  rw [abs_val ha.canonical.isSign, abs_val hb.canonical.isSign]
  refine ⟨(addmag0_truncates (F := ℚ) hw hs ha hk h).1.canonical, ?_, fun hno => ?_,
    fun hno hexact => ?_⟩
  · by_cases hover : Overflows a b
    · rw [addmag0_val_of_carry hw ha hk h hover, ← Int.cast_mul, abs_mul_sub_mul hsign]
      -- the digit that is dropped, and what was lost of `b`
      have hcut := Nat.div_add_mod' (a.mant + b.mant / 65536 ^ shift a b) 65536
      have hmod := Nat.mod_lt (a.mant + b.mant / 65536 ^ shift a b) (show 65536 > 0 by decide)
      rw [← hcut] at hsum
      generalize (a.mant + b.mant / 65536 ^ shift a b) / 65536 * 65536 = q,
        (a.mant + b.mant / 65536 ^ shift a b) % 65536 = r at *
      have hr : (r : ℚ) * a.ulp ℚ ≤ 65535 * a.ulp ℚ :=
        mul_le_mul_of_nonneg_right (by exact_mod_cast Nat.le_of_lt_succ hmod) hulp.le
      have hr0 : (0 : ℚ) ≤ r * a.ulp ℚ := mul_nonneg r.cast_nonneg hulp.le
      push_cast at hsum
      rw [abs_sub_comm, abs_of_nonneg] <;> linarith
    · rw [addmag0_val hw ha hk h (Nat.lt_of_not_le hover), ← Int.cast_mul, abs_mul_sub_mul hsign,
        hsum, abs_sub_comm, abs_of_nonneg] <;> linarith
  · rw [addmag0_val hw ha hk h (Nat.lt_of_not_le hno), ← Int.cast_mul, abs_mul_sub_mul hsign, hsum,
      abs_sub_comm, abs_of_nonneg] <;> linarith
  · rw [addmag0_val hw ha hk h (Nat.lt_of_not_le hno), ← Int.cast_mul, hsum, moved_exact hexact]

theorem submag0_faithfulAt (hs : IsSign s) (ha : Small k a) (hb : Small k b) (hk : k ≤ 32000)
    (h : Dominates a b) :
    FaithfulAt a b ((s * a.sign : ℤ) * (|a.val ℚ| - |b.val ℚ|)) False (submag0 w s a b) := by
  have hsign := hs.mul ha.canonical.isSign
  obtain ⟨hle, hlt⟩ := h.moved (F := ℚ)
  obtain ⟨hsmall, hval⟩ := submag0_val (F := ℚ) hw hs ha hk h
  have hulp := a.ulp_pos (F := ℚ)
  rw [abs_val ha.canonical.isSign, abs_val hb.canonical.isSign]
  rw [Nat.cast_sub h.mant, sub_mul, ← Int.cast_mul] at hval
  have hnear : |(submag0 w s a b).val ℚ
      - (s * a.sign : ℤ) * (a.mant * a.ulp ℚ - b.mant * b.ulp ℚ)| < a.ulp ℚ := by
    rw [hval, abs_mul_sub_mul hsign, abs_of_nonneg] <;> linarith
  refine ⟨hsmall.canonical, ?_, fun _ => hnear, fun _ hexact => ?_⟩
  · linarith
  · rw [hval, moved_exact hexact]

end Magnitudes

/-! ### Sums and differences -/

/-- The operands as `addmag` and `submag` hand them on. -/
def ordered (a b : N) : N × N := if 0 < abscmp a b then (a, b) else (b, a)

/-- `c` is `x`, up to digits that the operands `a` and `b` of a sum or difference do not have. -/
structure Faithful (a b : N) (x : ℚ) (carry : Prop) (c : N) : Prop where
  canonical : c.Canonical
  near : |c.val ℚ - x| < 65536 ^ (max a.expt.toInt b.expt.toInt + 1 - len)
  near_of_not_carry : ¬carry →
    |c.val ℚ - x| < 65536 ^ (max a.expt.toInt b.expt.toInt - len)
  exact_of_zero : a = zero ∨ b = zero → c.val ℚ = x
  exact_of_expt : a.expt = b.expt → ¬carry → c.val ℚ = x

section Ordered

variable {s k : ℤ} {a b : N}

theorem dominates_ordered (ha : a.Canonical) (hb : b.Canonical) :
    Dominates (ordered a b).1 (ordered a b).2 := by
  rw [ordered]
  split_ifs with h
  · exact dominates_of_abscmp ha h
  · exact dominates_of_not_abscmp hb h

/-- Zero dominates nothing else. -/
theorem eq_zero_of_dominates (hb : b.Canonical) (h : Dominates zero b) : b = zero := by
  apply hb.mant_eq_zero_iff.mp
  have hexpt := h.expt
  have hmant := h.mant
  have hshift : shift zero b = 0 := by
    have := b.expt.le_toInt
    rw [shift, show zero.expt.toInt = -32768 from rfl]
    omega
  rwa [hshift, pow_zero, Nat.div_one, mant_zero, Nat.le_zero] at hmant

theorem ordered_zero (ha : a.Canonical) (hb : b.Canonical) (h : a = zero ∨ b = zero) :
    (ordered a b).2 = zero := by
  have hdom := dominates_ordered ha hb
  rw [ordered] at *
  split_ifs at * with hcmp
  · rcases h with rfl | rfl
    · exact eq_zero_of_dominates hb hdom
    · rfl
  · rcases h with rfl | rfl
    · rfl
    · exact eq_zero_of_dominates ha hdom

theorem ordered_expt (ha : a.Canonical) (hb : b.Canonical) :
    (ordered a b).1.expt.toInt = max a.expt.toInt b.expt.toInt := by
  have hexpt := (dominates_ordered ha hb).expt
  rw [ordered] at *
  split_ifs at * with hcmp
  · exact (max_eq_left hexpt).symm
  · exact (max_eq_right hexpt).symm

/-- The smaller operand is zero, or the exponents are the same: then nothing is moved off. -/
theorem FaithfulAt.faithful {x : ℚ} {carry : Prop} {c : N} (ha : a.Canonical) (hb : b.Canonical)
    (h : FaithfulAt (ordered a b).1 (ordered a b).2 x carry c)
    (hzero : (ordered a b).2 = zero → ¬carry) : Faithful a b x carry c := by
  have hulp : (ordered a b).1.ulp ℚ = 65536 ^ (max a.expt.toInt b.expt.toInt - len) := by
    rw [ulp, ordered_expt ha hb, Nat.cast_ofNat]
  refine ⟨h.canonical, ?_, fun hno => hulp ▸ h.near_of_not_carry hno, fun h0 => ?_,
    fun hexpt hno => h.exact hno (Or.inr ?_)⟩
  · have hnear := h.near
    rwa [hulp, ← zpow_one_add₀ (by norm_num), add_comm, sub_add_eq_add_sub] at hnear
  · have hsmall := ordered_zero ha hb h0
    exact h.exact (hzero hsmall) (Or.inl hsmall)
  · rw [ordered]
    split_ifs
    · exact hexpt
    · exact hexpt.symm

theorem not_overflows_zero (a : N) : ¬Overflows a zero := by
  rw [Overflows, mant_zero, Nat.zero_div, Nat.add_zero, not_le]
  exact a.mant_lt

variable (hw : 32 ≤ w)

include hw

theorem addmag_faithful (hs : IsSign s) (ha : Small k a) (hb : Small k b) (hk : k ≤ 32000)
    (hsign : s * b.sign = a.sign) :
    Faithful a b (a.val ℚ + s * b.val ℚ) (Overflows (ordered a b).1 (ordered a b).2)
      (addmag w s a b) := by
  have hsum : a.val ℚ + s * b.val ℚ = (a.sign : ℚ) * (|a.val ℚ| + |b.val ℚ|) := by
    conv_lhs => rw [val_eq_sign_mul ha.canonical.isSign, val_eq_sign_mul hb.canonical.isSign]
    rw [← mul_assoc, ← Int.cast_mul, hsign, mul_add]
  refine FaithfulAt.faithful ha.canonical hb.canonical ?_ fun h0 => ?_
  · have hdom := dominates_ordered ha.canonical hb.canonical
    rw [hsum, addmag]
    rw [ordered] at *
    split_ifs at * with h
    · have := addmag0_faithfulAt (s := 1) hw (Or.inl rfl) ha hb hk hdom
      rwa [one_mul] at this
    · have := addmag0_faithfulAt hw hs hb ha hk hdom
      rwa [hsign, add_comm |b.val ℚ|] at this
  · rw [h0]
    exact not_overflows_zero _

theorem submag_faithful (hs : IsSign s) (ha : Small k a) (hb : Small k b) (hk : k ≤ 32000)
    (hsign : s * b.sign = -a.sign) :
    Faithful a b (a.val ℚ + s * b.val ℚ) False (submag w s a b) := by
  have hsum : a.val ℚ + s * b.val ℚ = (a.sign : ℚ) * (|a.val ℚ| - |b.val ℚ|) := by
    conv_lhs => rw [val_eq_sign_mul ha.canonical.isSign, val_eq_sign_mul hb.canonical.isSign]
    rw [← mul_assoc, ← Int.cast_mul, hsign, Int.cast_neg]
    ring
  refine FaithfulAt.faithful ha.canonical hb.canonical ?_ fun _ => not_false
  have hdom := dominates_ordered ha.canonical hb.canonical
  rw [hsum, submag]
  rw [ordered] at *
  split_ifs at * with h
  · have := submag0_faithfulAt (s := 1) hw (Or.inl rfl) ha hb hk hdom
    rwa [one_mul] at this
  · have := submag0_faithfulAt hw hs hb ha hk hdom
    rwa [hsign, Int.cast_neg, neg_mul, ← mul_neg, neg_sub] at this

end Ordered

/-! ### Every width -/

/-- The accumulators of any two widths give the same sums. -/
theorem add_eq {w' : ℕ} (hw : 32 ≤ w) (hw' : 32 ≤ w') {a b : N} (ha : a.Canonical)
    (hb : b.Canonical) : add w a b = add w' a b ∧ sub w a b = sub w' a b := by
  have hadd : ∀ (s : ℤ) (a b : N), addmag0 w s a b = addmag0 w' s a b := fun s a b => by
    obtain ⟨d, hd, heq⟩ := exists_addmag0 hw a b s
    obtain ⟨d', hd', heq'⟩ := exists_addmag0 hw' a b s
    rw [heq, heq', pack_eq_of_value (hd.trans hd'.symm)]
  have hsub : ∀ (s : ℤ) {a b : N}, Dominates a b → submag0 w s a b = submag0 w' s a b :=
    fun s a b h => by
      obtain ⟨d, hd, heq⟩ := exists_submag0 hw s h
      obtain ⟨d', hd', heq'⟩ := exists_submag0 hw' s h
      rw [heq, heq', pack_eq_of_value (hd.trans hd'.symm)]
  have haddmag : ∀ s, addmag w s a b = addmag w' s a b := fun s => by
    rw [addmag, addmag, hadd, hadd]
  have hsubmag : ∀ s, submag w s a b = submag w' s a b := fun s => by
    rw [submag, submag]
    split_ifs with h
    · exact hsub 1 (dominates_of_abscmp ha h)
    · exact hsub s (dominates_of_not_abscmp hb h)
  constructor
  · rw [add, add, haddmag, hsubmag]
  · rw [sub, sub, haddmag, hsubmag]

theorem carry_iff (hw : 32 ≤ w) (a b : N) : (addColumns w a b).1 ≠ 0 ↔ Overflows a b := by
  have hsum := addColumns_exact hw a b
  have hlt : value 65536 len (digitsFrom (addColumns w a b).2 0) < 65536 ^ len :=
    value_lt fun i _ => digitsFrom_lt _ 0 i
  have hzero : (addColumns w a b).1 ≠ 0 ↔ (addColumns w a b).1.toNat ≠ 0 := by
    rw [not_iff_not, ← BitVec.toNat_inj]
    rfl
  rw [hzero, Overflows, ← hsum]
  rw [len] at *
  omega

/-- **Sums and differences of any canonical numbers are right up to the last digit**, or the last
but one when a carry leaves the top digit; the columns lose no carry and no borrow. -/
theorem addSub_faithful (hw : 32 ≤ w) {a b : N} (ha : Small 10000 a) (hb : Small 10000 b) :
    Faithful a b (a.val ℚ + b.val ℚ)
        (a.sign = b.sign ∧ (addColumns w (ordered a b).1 (ordered a b).2).1 ≠ 0) (add w a b) ∧
      Faithful a b (a.val ℚ - b.val ℚ)
        (a.sign ≠ b.sign ∧ (addColumns w (ordered a b).1 (ordered a b).2).1 ≠ 0) (sub w a b) ∧
      (let (l, s) := ordered a b
       value 65536 len (digitsFrom (addColumns w l s).2 0)
           + (addColumns w l s).1.toNat * 65536 ^ len = l.mant + s.mant / 65536 ^ shift l s ∧
         value 65536 len (digitsFrom (subColumns w l s).2 0) + s.mant / 65536 ^ shift l s = l.mant ∧
         (subColumns w l s).1 = 0) ∧
      add w a b = a + b ∧ sub w a b = a - b := by
  have hcarry := carry_iff hw (ordered a b).1 (ordered a b).2
  have hsub := subColumns_exact hw (dominates_ordered ha.canonical hb.canonical)
  have hsame := add_eq hw (show 32 ≤ 64 by decide) ha.canonical hb.canonical
  refine ⟨?_, ?_, ⟨addColumns_exact hw _ _, hsub⟩, hsame⟩
  · rw [add, hcarry]
    split_ifs with hsign
    · have h := addmag_faithful hw (s := 1) (Or.inl rfl) ha hb (by decide) (by rw [one_mul, hsign])
      rw [Int.cast_one, one_mul] at h
      simpa only [hsign, true_and] using h
    · have hneg := eq_neg_of_ne ha.canonical.isSign hb.canonical.isSign hsign
      have h := submag_faithful hw (s := 1) (Or.inl rfl) ha hb (by decide) (by rw [one_mul, hneg])
      rw [Int.cast_one, one_mul] at h
      simpa only [hsign, false_and] using h
  · rw [sub, hcarry]
    split_ifs with hsign
    · have h := submag_faithful hw (s := -1) (Or.inr rfl) ha hb (by decide) (by rw [hsign]; ring)
      rw [Int.cast_neg, Int.cast_one, neg_one_mul, ← sub_eq_add_neg] at h
      simpa only [hsign, ne_eq, not_true_eq_false, false_and] using h
    · have hneg := eq_neg_of_ne ha.canonical.isSign hb.canonical.isSign hsign
      have h := addmag_faithful hw (s := -1) (Or.inr rfl) ha hb (by decide) (by rw [hneg]; ring)
      rw [Int.cast_neg, Int.cast_one, neg_one_mul, ← sub_eq_add_neg] at h
      simpa only [hsign, ne_eq, not_false_eq_true, true_and] using h

/-- `1 + 65535`, with 32 bits. -/
theorem addSub_faithful_carry : Faithful (fromshort 1) (fromshort 65535)
    ((fromshort 1).val ℚ + (fromshort 65535).val ℚ)
    ((fromshort 1).sign = (fromshort 65535).sign ∧ (addColumns 32
      (ordered (fromshort 1) (fromshort 65535)).1
      (ordered (fromshort 1) (fromshort 65535)).2).1 ≠ 0)
    (add 32 (fromshort 1) (fromshort 65535)) :=
  (addSub_faithful le_rfl ⟨Or.inr ⟨by decide, Or.inl rfl⟩, Or.inr ⟨by decide, by decide⟩⟩
    ⟨Or.inr ⟨by decide, Or.inl rfl⟩, Or.inr ⟨by decide, by decide⟩⟩).1

/-! ### Products -/

/-- The leading digits of `x`, as many as a number has. -/
def cutDigits (x : ℚ) : ℚ :=
  let u := ((65536 : ℕ) : ℚ) ^ (Int.log 65536 x + 1 - len)
  ⌊x / u⌋ * u

/-- `c` is the product of `a` and `b`, cut to its leading digits. -/
structure CutProduct (a b c : N) : Prop where
  canonical : c.Canonical
  eq_zero_iff : c = zero ↔ a = zero ∨ b = zero
  sign : c ≠ zero → c.sign = a.sign * b.sign
  magnitude : |c.val ℚ| = cutDigits (|a.val ℚ| * |b.val ℚ|)

theorem abs_val_eq_cutDigits {c : N} {x : ℚ} (h : Truncates c x) : |c.val ℚ| = cutDigits |x| := by
  rcases eq_or_ne x 0 with rfl | hx
  · rw [h.eq_zero.mpr rfl, val_zero, abs_zero, cutDigits, zero_div, Int.floor_zero, Int.cast_zero,
      zero_mul]
  · have h0 : c ≠ zero := fun h0 => hx (h.eq_zero.mp h0)
    have hpos : 0 < |x| := abs_pos.mpr hx
    have hulp := c.ulp_pos (F := ℚ)
    have hval := abs_val (F := ℚ) h.canonical.isSign
    have hle := h.le
    have hlt := h.lt
    rw [hval] at hle hlt
    rw [← add_one_mul] at hlt
    have hmant : (c.mant : ℚ) + 1 ≤ 65536 ^ len := by exact_mod_cast c.mant_lt
    -- the exponent of `c` is that of `x`
    have hlow : ((65536 : ℕ) : ℚ) ^ (c.expt.toInt - 1) ≤ |x| := by
      have hlow := (le_abs_val (F := ℚ) h.canonical h0).trans h.le
      exact_mod_cast hlow
    have hhigh : |x| < ((65536 : ℕ) : ℚ) ^ c.expt.toInt := by
      calc |x| < (c.mant + 1) * c.ulp ℚ := hlt
        _ ≤ 65536 ^ len * c.ulp ℚ := mul_le_mul_of_nonneg_right hmant hulp.le
        _ = ((65536 : ℕ) : ℚ) ^ c.expt.toInt := by
          rw [ulp, ← zpow_natCast, Nat.cast_ofNat, ← zpow_add₀ (by norm_num), add_sub_cancel]
    have hlog : Int.log 65536 |x| + 1 = c.expt.toInt := by
      have h1 := (Int.zpow_le_iff_le_log (by decide) hpos).mp hlow
      have h2 := (Int.lt_zpow_iff_log_lt (by decide) hpos).mp hhigh
      omega
    have hfloor : ⌊|x| / c.ulp ℚ⌋ = c.mant := by
      rw [Int.floor_eq_iff, le_div_iff₀ hulp, div_lt_iff₀ hulp]
      exact ⟨hle, hlt⟩
    rw [cutDigits, hlog]
    show _ = (⌊|x| / c.ulp ℚ⌋ : ℚ) * c.ulp ℚ
    rw [hfloor, hval, Int.cast_natCast]

theorem mul_cutProduct {a b : N} (ha : Small 10000 a) (hb : Small 10000 b) :
    CutProduct a b (a * b) := by
  have h := (mul_truncates (F := ℚ) ha hb (by decide)).2
  have hzero : a * b = zero ↔ a = zero ∨ b = zero := by
    rw [h.eq_zero, mul_eq_zero, ha.canonical.val_eq_zero_iff, hb.canonical.val_eq_zero_iff]
  refine ⟨h.canonical, hzero, fun h0 => ?_, by rw [abs_val_eq_cutDigits h, abs_mul]⟩
  have hpos : 0 < |a.val ℚ| * |b.val ℚ| := by
    rw [← abs_mul, abs_pos, ← h.eq_zero.ne]
    exact h0
  have hsign := h.sign
  rw [val_eq_sign_mul ha.canonical.isSign, val_eq_sign_mul hb.canonical.isSign,
    mul_mul_mul_comm, ← mul_assoc, mul_nonneg_iff_of_pos_right hpos] at hsign
  have hc := h.canonical.isSign
  have hab := ha.canonical.isSign.mul hb.canonical.isSign
  rw [← Int.cast_mul, ← Int.cast_mul, Int.cast_nonneg_iff] at hsign
  generalize (a * b).sign = s, a.sign * b.sign = t at *
  rcases hc with rfl | rfl <;> rcases hab with rfl | rfl <;> first | rfl | contradiction

/-- A row leaves the digits behind it alone. -/
theorem mulColumns_of_le (ai : BitVec w) (b : N) (i n : ℕ) (d : ℕ → UInt16) {k : ℕ}
    (hk : i + n ≤ k) : (mulColumns ai b i n d).2 k = d k := by
  refine forRange_induction (fun m (st : BitVec w × (ℕ → UInt16)) => i + m ≤ k → st.2 k = d k)
    (fun _ => rfl) ?_ hk
  intro j _ st ih hle
  rw [← ih (by omega)]
  exact Function.update_of_ne (by omega) _ _

/-- The accumulator of column `j` of row `i`, before its digit is taken off. -/
def mulAcc (w : ℕ) (a b : N) (i j : ℕ) : ℕ :=
  let (r, d) := mulColumns (w := w) (ofDigit (a.digit i)) b i j (mulRows w a b i)
  r.toNat + (a.digit i).toNat * (b.digit j).toNat + (d (i + j)).toNat

/-- **Products are exact, cut to the leading digits.**  No accumulator needs more than 32 bits, and
when the last carry of a row is stored, it fits its digit, to which nothing was added before. -/
theorem mul_faithful (hw : 32 ≤ w) {a b : N} (ha : Small 10000 a) (hb : Small 10000 b) :
    CutProduct a b (mul w a b) ∧ mul w a b = a * b ∧
      (∀ i < len, ∀ j < len, mulAcc w a b i j < 2 ^ 32) ∧
      ∀ i < len,
        let (r, d) := mulColumns (w := w) (ofDigit (a.digit i)) b i len (mulRows w a b i)
        d (i + len) = 0 ∧ (lo r).toNat = r.toNat := by
  have htop : ∀ i, (mulColumns (w := w) (ofDigit (a.digit i)) b i len (mulRows w a b i)).2
      (i + len) = 0 := fun i => by
    rw [mulColumns_of_le _ _ _ _ _ le_rfl, (mulRows_digits hw b a i).2 _ le_rfl]
  have hsame : mul w a b = a * b := by
    obtain ⟨d, hd, heq⟩ := exists_mul hw b a
    obtain ⟨d', hd', heq'⟩ := exists_mul (show 32 ≤ 64 by decide) b a
    rw [heq, pack_eq_of_value (hd.trans hd'.symm), ← heq']
    rfl
  refine ⟨hsame ▸ mul_cutProduct ha hb, hsame, fun i hi j hj => ?_,
    fun i hi => ⟨htop i, (mulColumns_carry hw b (a.digit i) i len (mulRows w a b i)).2⟩⟩
  have hr := (mulColumns_carry hw b (a.digit i) i j (mulRows w a b i)).1
  have hd := ((mulColumns (w := w) (ofDigit (a.digit i)) b i j (mulRows w a b i)).2
    (i + j)).toNat_lt
  have hprod : (a.digit i).toNat * (b.digit j).toNat ≤ 65535 * 65535 :=
    Nat.mul_le_mul (Nat.le_of_lt_succ (a.digit_lt i)) (Nat.le_of_lt_succ (b.digit_lt j))
  show (mulColumns _ _ _ _ _).1.toNat + _ + ((mulColumns _ _ _ _ _).2 _).toNat < _
  omega

/-- `65535 * 65535`, with 32 bits. -/
theorem mul_faithful_65535 : CutProduct (fromshort 65535) (fromshort 65535)
    (mul 32 (fromshort 65535) (fromshort 65535)) :=
  (mul_faithful le_rfl ⟨Or.inr ⟨by decide, Or.inl rfl⟩, Or.inr ⟨by decide, by decide⟩⟩
    ⟨Or.inr ⟨by decide, Or.inl rfl⟩, Or.inr ⟨by decide, by decide⟩⟩).1

end BenchFFT.Mp.N
