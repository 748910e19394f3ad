import BenchFFT.Mp.Equiv.Number

/-!
# Sums and differences

The larger operand keeps its digits and the smaller one is moved down to them.  The digits that drop
off and, in a sum, a leading carry, make the result differ from the exact one.
-/

namespace BenchFFT.Mp.N

open Finset Limbs

variable {w : ℕ}

/-! ### Magnitudes -/

/-- Both loops of a sum, in one: the digits above the smaller operand are `0`. -/
def aligned (carry : BitVec w → BitVec w) (op : BitVec w → BitVec w → BitVec w) (a b : N) :
    BitVec w × (ℕ → UInt16) :=
  forRange len (fun i => column carry
    (op (ofDigit (a.digit i)) (ofDigit (b.digit (i + shift a b)))) (0 + i)) (0, fun _ => 0)

theorem aligned_eq {carry : BitVec w → BitVec w} (op : BitVec w → BitVec w → BitVec w)
    (hop : ∀ x, op x 0 = x) (a b : N) :
    forFrom (len - shift a b) len (fun i => column carry (ofDigit (a.digit i)) i)
        (forRange (len - shift a b) (fun i => column carry
          (op (ofDigit (a.digit i)) (ofDigit (b.digit (i + shift a b)))) i) (0, fun _ => 0))
      = aligned carry op a b := by
  have hsplit : len = (len - shift a b) + (len - (len - shift a b)) := by omega
  have hzero : (ofDigit 0 : BitVec w) = 0 := Rep.digit 0
  simp only [aligned, Nat.zero_add]
  conv_rhs => rw [hsplit, forRange_add]
  rw [forFrom]
  refine forRange_congr (fun i _ => ?_) _
  rw [b.digit_of_le (by omega), hzero, hop]

theorem mant_cast (a : N) :
    (a.mant : ℤ) = ∑ i ∈ range len, ((a.digit i).toNat : ℤ) * 65536 ^ i := by
  rw [mant, value]
  push_cast
  rfl

theorem mant_div_cast (b : N) (m : ℕ) : ((b.mant / 65536 ^ m : ℕ) : ℤ)
    = ∑ i ∈ range len, ((b.digit (i + m)).toNat : ℤ) * 65536 ^ i := by
  rw [mant_div, value]
  push_cast
  rfl

section Columns

variable (hw : 32 ≤ w) (a b : N)

include hw

theorem exists_addColumns : ∃ r, Columns 0 1 0 len (fun _ => 0)
    (a.mant + (b.mant / 65536 ^ shift a b : ℕ)) r (addColumns w a b) := by
  obtain ⟨r, hc⟩ := exists_columns hw hi (L := 0) (U := 1) le_rfl zero_le_one (n := len) 0
    (x := fun i _ => ofDigit (a.digit i) + ofDigit (b.digit (i + shift a b)))
    (v := fun i _ => (a.digit i).toNat + (b.digit (i + shift a b)).toNat)
    (fun i _ _ => (Rep.digit _).add (Rep.digit _))
    (fun i _ d r h0 h1 y hy => by
      have := a.digit_lt i
      have := b.digit_lt (i + shift a b)
      exact ⟨hy.hi hw (by omega) (by omega), by omega, by omega⟩) fun _ => 0
  refine ⟨r, ?_⟩
  rw [mant_cast, mant_div_cast, ← sum_add_distrib, addColumns,
    aligned_eq (· + ·) fun x => BitVec.add_zero x]
  simp only [← add_mul]
  exact hc

theorem exists_subColumns : ∃ r, Columns (-1) 0 0 len (fun _ => 0)
    (a.mant - (b.mant / 65536 ^ shift a b : ℕ)) r (subColumns w a b) := by
  obtain ⟨r, hc⟩ := exists_columns hw hiSigned (L := -1) (U := 0) (by decide) le_rfl
    (n := len) 0
    (x := fun i _ => ofDigit (a.digit i) - ofDigit (b.digit (i + shift a b)))
    (v := fun i _ => (a.digit i).toNat - (b.digit (i + shift a b)).toNat)
    (fun i _ _ => (Rep.digit _).sub (Rep.digit _))
    (fun i _ d r h0 h1 y hy => by
      have := a.digit_lt i
      have := b.digit_lt (i + shift a b)
      exact ⟨hy.hiSigned hw (by omega) (by omega), by omega, by omega⟩) fun _ => 0
  refine ⟨r, ?_⟩
  rw [mant_cast, mant_div_cast, ← sum_sub_distrib, subColumns,
    aligned_eq (· - ·) fun x => BitVec.sub_zero x]
  simp only [← sub_mul]
  exact hc

/-- No carry is lost. -/
theorem addColumns_exact :
    value 65536 len (digitsFrom (addColumns w a b).2 0) + (addColumns w a b).1.toNat * 65536 ^ len
      = a.mant + b.mant / 65536 ^ shift a b := by
  obtain ⟨r, hc⟩ := exists_addColumns hw a b
  have h2w := two_pow_le hw
  have hhigh := hc.upper
  have hsum := hc.sum
  rw [← hc.rep.toNat_eq hc.lower (by omega)] at hsum
  exact_mod_cast hsum

/-- No borrow is lost, and none is left over. -/
theorem subColumns_exact {a b : N} (h : Dominates a b) :
    value 65536 len (digitsFrom (subColumns w a b).2 0) + b.mant / 65536 ^ shift a b = a.mant ∧
      (subColumns w a b).1 = 0 := by
  obtain ⟨r, hc⟩ := exists_subColumns hw a b
  have hlow := hc.lower
  have hhigh := hc.upper
  have hlt : value 65536 len (digitsFrom (subColumns w a b).2 0) < 65536 ^ len :=
    value_lt fun i _ => digitsFrom_lt _ 0 i
  have hsum := hc.sum
  have hle := h.mant
  generalize b.mant / 65536 ^ shift a b = q at *
  have hr : r = 0 := by
    rw [len] at *
    omega
  subst hr
  exact ⟨by omega, hc.rep⟩

/-- The digits of a sum of magnitudes. -/
theorem exists_addmag0 (s : ℤ) :
    ∃ d : ℕ → UInt16, value 65536 (len + 1) (digitsFrom d 0) = a.mant + b.mant / 65536 ^ shift a b ∧
      addmag0 w s a b = pack d (a.expt.toInt + 1) (s * a.sign) (len + 1) := by
  obtain ⟨r, hc⟩ := exists_addColumns hw a b
  obtain ⟨⟨x, d⟩, hst⟩ : ∃ st, st = addColumns w a b := ⟨_, rfl⟩
  rw [← hst] at hc
  have hr : ((lo x).toNat : ℤ) = r := by
    have := hc.lower
    have := hc.upper
    rw [hc.rep.lo hw]
    omega
  refine ⟨Function.update d len (lo x), ?_, ?_⟩
  · have hlow : value 65536 len (digitsFrom (Function.update d len (lo x)) 0)
        = value 65536 len (digitsFrom d 0) := value_congr fun i hi => by
      rw [digitsFrom_zero, Function.update_of_ne hi.ne, digitsFrom_zero]
    have hsum := hc.sum
    rw [value_succ, hlow, digitsFrom_zero, Function.update_self]
    rw [← hr] at hsum
    exact_mod_cast hsum
  · rw [addmag0, ← hst]

/-- The digits of a difference of magnitudes. -/
theorem exists_submag0 (s : ℤ) {a b : N} (h : Dominates a b) :
    ∃ d : ℕ → UInt16, value 65536 len (digitsFrom d 0) = a.mant - b.mant / 65536 ^ shift a b ∧
      submag0 w s a b = pack d a.expt.toInt (s * a.sign) len :=
  ⟨_, Nat.eq_sub_of_add_eq (subColumns_exact hw h).1, rfl⟩

end Columns

/-! ### The values -/

section Field

variable {F : Type*} [Field F] [LinearOrder F] [IsStrictOrderedRing F]
variable {s k : ℤ} {a b : N}

theorem Dominates.ulp_eq (h : Dominates a b) : a.ulp F = 65536 ^ shift a b * b.ulp F := by
  have hexpt := h.expt
  rw [ulp, ulp, ← zpow_natCast, Nat.cast_ofNat, ← zpow_add₀ (by norm_num), shift,
    Int.toNat_of_nonneg (by omega)]
  congr 1
  ring

/-- What is lost of `b` when it is moved down to the digits of `a`. -/
theorem Dominates.moved (h : Dominates a b) :
    ((b.mant / 65536 ^ shift a b : ℕ) : F) * a.ulp F ≤ b.mant * b.ulp F ∧
      b.mant * b.ulp F < ((b.mant / 65536 ^ shift a b : ℕ) + 1) * a.ulp F := by
  rw [h.ulp_eq, ← mul_assoc, ← mul_assoc]
  refine ⟨mul_le_mul_of_nonneg_right ?_ b.ulp_pos.le, mul_lt_mul_of_pos_right ?_ b.ulp_pos⟩
  · exact_mod_cast Nat.div_mul_le_self _ _
  · have hdiv : b.mant < (b.mant / 65536 ^ shift a b + 1) * 65536 ^ shift a b := by
      rw [Nat.add_mul, Nat.one_mul]
      exact Nat.lt_div_mul_add (by positivity)
    exact_mod_cast hdiv

/-- Relative to the larger operand, little is lost. -/
theorem Dominates.moved_le (h : Dominates a b) (ha : Small k a) :
    b.mant * b.ulp F - ((b.mant / 65536 ^ shift a b : ℕ) : F) * a.ulp F ≤ eps F * |a.val F| := by
  by_cases h0 : a = zero
  · subst h0
    have hexpt := h.expt
    have hmant := h.mant
    have hshift : shift zero b = 0 := by
      have := b.expt.le_toInt
      rw [shift, show zero.expt.toInt = -32768 from rfl]
      omega
    rw [hshift, pow_zero, Nat.div_one, mant_zero, Nat.le_zero] at hmant
    rw [hmant, val_zero, abs_zero, mul_zero, Nat.zero_div, Nat.cast_zero, zero_mul, zero_mul,
      sub_zero]
  · have := h.moved (F := F)
    have := ha.canonical.ulp_le (F := F) h0
    linarith

theorem abs_mul_sub_mul {t : ℤ} (ht : IsSign t) (x y : F) : |t * x - t * y| = |x - y| := by
  rw [← mul_sub, abs_mul, ht.abs, one_mul]

theorem val_eq_sign_mul {c : N} (hc : IsSign c.sign) : c.val F = c.sign * |c.val F| := by
  rw [abs_val hc, val, mul_assoc]

theorem eq_neg_of_ne {t u : ℤ} (ht : IsSign t) (hu : IsSign u) (h : t ≠ u) : u = -t := by
  rcases ht with rfl | rfl <;> rcases hu with rfl | rfl <;> simp at *

variable (hw : 32 ≤ w)

include hw

theorem addmag0_truncates (hs : IsSign s) (ha : Small k a) (hk : k ≤ 32000) (h : Dominates a b) :
    Small (k + 9) (addmag0 w s a b) ∧ Truncates (addmag0 w s a b)
      (s * a.sign * ((a.mant + b.mant / 65536 ^ shift a b : ℕ) * a.ulp F)) := by
  obtain ⟨d, hV, heq⟩ := exists_addmag0 hw a b s
  -- the smaller operand is `0` with the larger one
  have hne : value 65536 (len + 1) (digitsFrom d 0) ≠ 0 → a ≠ zero := by
    rintro hV0 rfl
    have := h.mant
    rw [mant_zero] at *
    omega
  have hrange := fun hV0 => ha.range.resolve_left (hne hV0)
  have hulp : (65536 : F) ^ (a.expt.toInt + 1 - (len + 1 : ℕ)) = a.ulp F := by
    rw [ulp, Nat.cast_ofNat]
    congr 1
    push_cast
    ring
  rw [heq]
  constructor
  · refine pack_small (hs.mul ha.canonical.isSign) (fun hV0 => ?_) (by omega)
    have := hrange hV0
    rw [len]
    omega
  · have := pack_truncates (F := F) (d := d) (l := len + 1) (hs.mul ha.canonical.isSign)
      (a.expt.toInt + 1) fun hV0 => by
        have := hrange hV0
        rw [len]
        omega
    rw [hulp, hV] at this
    push_cast at this ⊢
    rwa [← mul_assoc]

theorem submag0_val (hs : IsSign s) (ha : Small k a) (hk : k ≤ 32000) (h : Dominates a b) :
    Small (k + 9) (submag0 w s a b) ∧ (submag0 w s a b).val F
      = s * a.sign * ((a.mant - b.mant / 65536 ^ shift a b : ℕ) * a.ulp F) := by
  obtain ⟨d, hV, heq⟩ := exists_submag0 hw s h
  have hne : value 65536 len (digitsFrom d 0) ≠ 0 → a ≠ zero := by
    rintro hV0 rfl
    rw [mant_zero, Nat.zero_sub] at hV
    exact hV0 hV
  have hrange := fun hV0 => ha.range.resolve_left (hne hV0)
  rw [heq]
  constructor
  · refine pack_small (hs.mul ha.canonical.isSign) (fun hV0 => ?_) (by omega)
    have := hrange hV0
    rw [len]
    omega
  · rw [pack_val _ _ le_rfl fun hV0 => ?_, hV, ulp]
    · push_cast
      ring
    · have := hrange hV0
      rw [len]
      omega

theorem addmag0_near (hs : IsSign s) (ha : Small k a) (hb : Small k b) (hk : k ≤ 32000)
    (h : Dominates a b) :
    Small (k + 9) (addmag0 w s a b) ∧
      |(addmag0 w s a b).val F - (s * a.sign : ℤ) * (|a.val F| + |b.val F|)|
        ≤ 2 * eps F * (|a.val F| + |b.val F|) := by
  obtain ⟨hsmall, htrunc⟩ := addmag0_truncates (F := F) hw hs ha hk h
  obtain ⟨δ, h0, hδ, hval⟩ := htrunc.exists_rel
  have hmoved := (h.moved (F := F)).1
  have hlost := h.moved_le (F := F) ha
  have hq : (0 : F) ≤ (b.mant / 65536 ^ shift a b : ℕ) * a.ulp F :=
    mul_nonneg (Nat.cast_nonneg _) a.ulp_pos.le
  have hA : |a.val F| = a.mant * a.ulp F := abs_val ha.canonical.isSign
  rw [← abs_val hb.canonical.isSign] at hmoved hlost
  -- what is left of `b` next to the digits of `a`
  have hcut : (a.mant + b.mant / 65536 ^ shift a b : ℕ) * a.ulp F
      = |a.val F| + (b.mant / 65536 ^ shift a b : ℕ) * a.ulp F := by
    rw [hA]
    push_cast
    ring
  refine ⟨hsmall, ?_⟩
  rw [hval, hcut, ← Int.cast_mul, mul_assoc, abs_mul_sub_mul (hs.mul ha.canonical.isSign),
    abs_sub_comm]
  generalize ((b.mant / 65536 ^ shift a b : ℕ) : F) * a.ulp F = q at *
  have hA0 := abs_nonneg (a.val F)
  have hle : (|a.val F| + q) * δ ≤ (|a.val F| + |b.val F|) * eps F :=
    mul_le_mul (by linarith) hδ.le h0 (by linarith)
  have hB0 : 0 ≤ eps F * |b.val F| := mul_nonneg (h0.trans hδ.le) (abs_nonneg _)
  rw [abs_of_nonneg]
  · linarith
  · have := mul_nonneg (add_nonneg hA0 hq) h0
    linarith

theorem submag0_near (hs : IsSign s) (ha : Small k a) (hb : Small k b) (hk : k ≤ 32000)
    (h : Dominates a b) :
    Small (k + 9) (submag0 w s a b) ∧
      |(submag0 w s a b).val F - (s * a.sign : ℤ) * (|a.val F| - |b.val F|)|
        ≤ 2 * eps F * (|a.val F| + |b.val F|) := by
  obtain ⟨hsmall, hval⟩ := submag0_val (F := F) hw hs ha hk h
  have hmoved := (h.moved (F := F)).1
  have hlost := h.moved_le (F := F) ha
  have hA : |a.val F| = a.mant * a.ulp F := abs_val ha.canonical.isSign
  rw [← abs_val hb.canonical.isSign] at hmoved hlost
  have hcut : (a.mant - b.mant / 65536 ^ shift a b : ℕ) * a.ulp F
      = |a.val F| - (b.mant / 65536 ^ shift a b : ℕ) * a.ulp F := by
    rw [hA, Nat.cast_sub h.mant]
    ring
  refine ⟨hsmall, ?_⟩
  rw [hval, hcut, ← Int.cast_mul, abs_mul_sub_mul (hs.mul ha.canonical.isSign)]
  generalize ((b.mant / 65536 ^ shift a b : ℕ) : F) * a.ulp F = q at *
  have heps : 0 ≤ eps F := by positivity
  have hA0 := mul_nonneg heps (abs_nonneg (a.val F))
  have hB0 := mul_nonneg heps (abs_nonneg (b.val F))
  rw [abs_of_nonneg] <;> linarith

/-! ### Signs -/

theorem addmag_near (hs : IsSign s) (ha : Small k a) (hb : Small k b) (hk : k ≤ 32000)
    (hsign : s * b.sign = a.sign) :
    Small (k + 9) (addmag w s a b) ∧ |(addmag w s a b).val F - (a.val F + s * b.val F)|
      ≤ 2 * eps F * (|a.val F| + |b.val F|) := by
  have hsum : a.val F + s * b.val F = (a.sign : F) * (|a.val F| + |b.val F|) := by
    conv_lhs => rw [val_eq_sign_mul ha.canonical.isSign, val_eq_sign_mul hb.canonical.isSign]
    rw [← mul_assoc, ← Int.cast_mul, hsign, mul_add]
  rw [hsum, addmag]
  split_ifs with h
  · simpa only [one_mul] using addmag0_near (F := F) hw (Or.inl rfl) ha hb hk
      (dominates_of_abscmp ha.canonical h)
  · have := addmag0_near (F := F) hw hs hb ha hk (dominates_of_not_abscmp hb.canonical h)
    rwa [hsign, add_comm |b.val F|] at this

theorem submag_near (hs : IsSign s) (ha : Small k a) (hb : Small k b) (hk : k ≤ 32000)
    (hsign : s * b.sign = -a.sign) :
    Small (k + 9) (submag w s a b) ∧ |(submag w s a b).val F - (a.val F + s * b.val F)|
      ≤ 2 * eps F * (|a.val F| + |b.val F|) := by
  have hsum : a.val F + s * b.val F = (a.sign : F) * (|a.val F| - |b.val F|) := by
    conv_lhs => rw [val_eq_sign_mul ha.canonical.isSign, val_eq_sign_mul hb.canonical.isSign]
    rw [← mul_assoc, ← Int.cast_mul, hsign, Int.cast_neg]
    ring
  rw [hsum, submag]
  split_ifs with h
  · simpa only [one_mul] using submag0_near (F := F) hw (Or.inl rfl) ha hb hk
      (dominates_of_abscmp ha.canonical h)
  · have := submag0_near (F := F) hw hs hb ha hk (dominates_of_not_abscmp hb.canonical h)
    rwa [hsign, Int.cast_neg, neg_mul, ← mul_neg, neg_sub, add_comm |b.val F|] at this

omit hw

/-- Differences are right up to the last digits. -/
theorem sub_near (ha : Small k a) (hb : Small k b) (hk : k ≤ 32000) :
    Small (k + 9) (a - b) ∧
      |(a - b).val F - (a.val F - b.val F)| ≤ 2 * eps F * (|a.val F| + |b.val F|) := by
  rw [show a - b = sub 64 a b from rfl, sub]
  split_ifs with h
  · simpa [sub_eq_add_neg] using submag_near (F := F) (by decide) (Or.inr rfl) ha hb hk
      (by rw [h]; ring)
  · have := eq_neg_of_ne ha.canonical.isSign hb.canonical.isSign h
    simpa [sub_eq_add_neg] using addmag_near (F := F) (by decide) (Or.inr rfl) ha hb hk
      (by rw [this]; ring)

end Field

end BenchFFT.Mp.N
