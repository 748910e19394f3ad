import BenchFFT.Mp.Equiv.Number

/-!
# Products

The rows of the schoolbook product add `a->d[i] * b`, from the digit `i` on, to what the rows before
left; no carry is lost, and the last one goes to a digit that is still `0`.
-/

namespace BenchFFT.Mp.N

open Finset Limbs

theorem value_digitsFrom_add (d : ℕ → UInt16) (i l : ℕ) :
    value 65536 (i + l) (digitsFrom d 0)
      = value 65536 i (digitsFrom d 0) + 65536 ^ i * value 65536 l (digitsFrom d i) := by
  rw [value_add]
  congr 2
  exact value_congr fun j _ => digitsFrom_zero d (i + j)

/-- The digit `i + m` is set. -/
theorem value_update (d : ℕ → UInt16) (i m : ℕ) (c : UInt16) :
    value 65536 (i + (m + 1)) (digitsFrom (Function.update d (i + m) c) 0)
      = value 65536 i (digitsFrom d 0)
        + (value 65536 m (digitsFrom d i) + c.toNat * 65536 ^ m) * 65536 ^ i := by
  have hlow : value 65536 i (digitsFrom (Function.update d (i + m) c) 0)
      = value 65536 i (digitsFrom d 0) := value_congr fun j hj => by
    rw [digitsFrom_zero, digitsFrom_zero, Function.update_of_ne (by omega)]
  have hmid : value 65536 m (digitsFrom (Function.update d (i + m) c) i)
      = value 65536 m (digitsFrom d i) := value_congr fun j hj => by
    rw [digitsFrom, Function.update_of_ne (by omega), digitsFrom]
  have htop : digitsFrom (Function.update d (i + m) c) i m = c.toNat := by
    rw [digitsFrom, Function.update_self]
  rw [value_digitsFrom_add, value_succ, hlow, hmid, htop, Nat.mul_comm (65536 ^ i)]

section Rows

variable {w : ℕ} (hw : 32 ≤ w) (b : N)

include hw

/-- No accumulator of a row exceeds 32 bits: its carry is a digit again. -/
theorem exists_mulColumns (ai : UInt16) (i n : ℕ) (d : ℕ → UInt16) :
    ∃ r, Columns 0 65535 i n d
      (∑ j ∈ range n, ((ai.toNat : ℤ) * (b.digit j).toNat + digitsFrom d i j) * 65536 ^ j) r
      (mulColumns (w := w) (ofDigit ai) b i n d) :=
  exists_columns hw hi (L := 0) (U := 65535) le_rfl (by decide) (n := n) i
    (x := fun j d => ofDigit ai * ofDigit (b.digit j) + ofDigit d)
    (v := fun j d => ai.toNat * (b.digit j).toNat + d)
    (fun _ _ _ => ((Rep.digit _).mul (Rep.digit _)).add (Rep.digit _))
    (fun j _ d r h0 h1 y hy => by
      have hprod : (ai.toNat : ℤ) * (b.digit j).toNat ≤ 65535 * 65535 := by
        have := ai.toNat_lt
        have := b.digit_lt j
        exact_mod_cast Nat.mul_le_mul (by omega : ai.toNat ≤ 65535) (by omega)
      have hd := d.toNat_lt
      have hpos : (0 : ℤ) ≤ ai.toNat * (b.digit j).toNat := by positivity
      exact ⟨hy.hi hw (by omega) (by omega), by omega, by omega⟩) d

/-- The carry between two columns of a row fits a digit. -/
theorem mulColumns_carry (ai : UInt16) (i n : ℕ) (d : ℕ → UInt16) :
    (mulColumns (w := w) (ofDigit ai) b i n d).1.toNat < 65536 ∧
      (lo (mulColumns (w := w) (ofDigit ai) b i n d).1).toNat
        = (mulColumns (w := w) (ofDigit ai) b i n d).1.toNat := by
  obtain ⟨r, hc⟩ := exists_mulColumns hw b ai i n d
  have h2w := two_pow_le hw
  have hlow := hc.lower
  have hhigh := hc.upper
  have hr := hc.rep.toNat_eq hlow (by omega)
  have hlo := hc.rep.lo hw
  omega

/-- A row: the digits from `d[i]` on, of which the last one is overwritten. -/
theorem mulRow_digits (ai : UInt16) (i : ℕ) (d : ℕ → UInt16) :
    value 65536 (i + (len + 1)) (digitsFrom (mulRow (w := w) (ofDigit ai) b i d) 0)
        = value 65536 (i + len) (digitsFrom d 0) + ai.toNat * b.mant * 65536 ^ i ∧
      ∀ k, i + len < k → mulRow (w := w) (ofDigit ai) b i d k = d k := by
  obtain ⟨r, hc⟩ := exists_mulColumns hw b ai i len d
  obtain ⟨⟨x, d'⟩, hst⟩ : ∃ s, s = mulColumns (w := w) (ofDigit ai) b i len d := ⟨_, rfl⟩
  have hrow : mulRow (w := w) (ofDigit ai) b i d = Function.update d' (i + len) (lo x) := by
    rw [mulRow, ← hst]
  rw [← hst] at hc
  have hr : ((lo x).toNat : ℤ) = r := by
    have := hc.lower
    have := hc.upper
    rw [hc.rep.lo hw]
    omega
  -- the last carry is the digit after the row
  have hsum : value 65536 len (digitsFrom d' i) + (lo x).toNat * 65536 ^ len
      = ai.toNat * b.mant + value 65536 len (digitsFrom d i) := by
    have hsum := hc.sum
    simp only [add_mul, sum_add_distrib, mul_assoc] at hsum
    rw [← mul_sum, ← hr] at hsum
    rw [mant, value, value]
    exact_mod_cast hsum
  have hother : ∀ k, k < i ∨ i + len ≤ k → d' k = d k := hc.other
  rw [hrow]
  refine ⟨?_, fun k hk => ?_⟩
  · have hlow : value 65536 i (digitsFrom d' 0) = value 65536 i (digitsFrom d 0) :=
      value_congr fun j hj => by
        rw [digitsFrom_zero, digitsFrom_zero, hother j (Or.inl hj)]
    rw [value_update, hsum, hlow, value_digitsFrom_add]
    ring
  · rw [← hother k (Or.inr hk.le)]
    exact Function.update_of_ne hk.ne' _ _

/-- After `n` rows, the digits are the product of `b` and the `n` low digits of `a`, and those that
the rows have not reached are still `0`. -/
theorem mulRows_digits (a : N) (n : ℕ) :
    value 65536 (n + len) (digitsFrom (mulRows w a b n) 0)
        = (value 65536 n fun j => (a.digit j).toNat) * b.mant ∧
      ∀ k, n + len ≤ k → mulRows w a b n k = 0 := by
  refine forRange_induction (fun i (d : ℕ → UInt16) =>
    value 65536 (i + len) (digitsFrom d 0) = (value 65536 i fun j => (a.digit j).toNat) * b.mant ∧
      ∀ k, i + len ≤ k → d k = 0) ⟨?_, fun _ _ => rfl⟩ ?_
  · rw [value_zero, Nat.zero_mul]
    exact (value_eq_zero_iff (by decide)).mpr fun _ _ => rfl
  · rintro i - d ⟨hsum, htop⟩
    simp only [ne_eq, ofDigit_eq_zero_iff hw]
    split_ifs with h0
    · -- a row for the digit `0` is left out, and adds nothing
      have hdigit : digitsFrom d 0 (i + len) = 0 := by
        rw [digitsFrom_zero, htop _ le_rfl]
        rfl
      refine ⟨?_, fun k hk => htop k (by omega)⟩
      rw [Nat.add_right_comm, value_succ, hdigit, hsum, value_succ, h0]
      simp
    · obtain ⟨hrow, hother⟩ := mulRow_digits hw b (a.digit i) i d
      refine ⟨?_, fun k hk => ?_⟩
      · rw [Nat.add_right_comm, Nat.add_assoc, hrow, hsum, value_succ]
        ring
      · rw [hother k (by omega), htop k (by omega)]

/-- The digits of a product. -/
theorem exists_mul (a : N) :
    ∃ d : ℕ → UInt16, value 65536 (2 * len) (digitsFrom d 0) = a.mant * b.mant ∧
      mul w a b = pack d (a.expt.toInt + b.expt.toInt) (a.sign * b.sign) (2 * len) :=
  ⟨mulRows w a b len, by rw [Nat.two_mul]; exact (mulRows_digits hw b a len).1, rfl⟩

end Rows

/-- Products are exact, cut to the digits of a number. -/
theorem mul_truncates {F : Type*} [Field F] [LinearOrder F] [IsStrictOrderedRing F] {j k : ℤ}
    {a b : N} (ha : Small j a) (hb : Small k b) (hjk : j + k ≤ 32000) :
    Small (j + k + 19) (a * b) ∧ Truncates (a * b) (a.val F * b.val F) := by
  obtain ⟨d, hV, heq⟩ := exists_mul (w := 64) (by decide) b a
  have hrange : value 65536 (2 * len) (digitsFrom d 0) ≠ 0 →
      (-j ≤ a.expt.toInt ∧ a.expt.toInt ≤ j) ∧ -k ≤ b.expt.toInt ∧ b.expt.toInt ≤ k := by
    intro hV0
    rw [hV, Nat.mul_ne_zero_iff] at hV0
    exact ⟨ha.range.resolve_left fun h => hV0.1 (h ▸ mant_zero),
      hb.range.resolve_left fun h => hV0.2 (h ▸ mant_zero)⟩
  have hsign := ha.canonical.isSign.mul hb.canonical.isSign
  have hulp : (65536 : F) ^ (a.expt.toInt + b.expt.toInt - (2 * len : ℕ)) = a.ulp F * b.ulp F := by
    rw [ulp, ulp, Nat.cast_ofNat, ← zpow_add₀ (by norm_num)]
    apply congrArg _
    push_cast
    ring
  rw [show a * b = mul 64 a b from rfl, heq]
  constructor
  · refine pack_small hsign (fun hV0 => ?_) (by omega)
    have := hrange hV0
    rw [len]
    omega
  · have := pack_truncates (F := F) (d := d) (l := 2 * len) hsign (a.expt.toInt + b.expt.toInt)
      fun hV0 => by
        have := hrange hV0
        rw [len]
        omega
    rw [hulp, hV] at this
    have hval : a.val F * b.val F
        = (a.sign * b.sign : ℤ) * (a.mant * b.mant : ℕ) * (a.ulp F * b.ulp F) := by
      rw [val, val]
      push_cast
      ring
    rwa [hval]

end BenchFFT.Mp.N
