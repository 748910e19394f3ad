import BenchFFT.Limbs
import BenchFFT.Mp.Number
import Mathlib.Algebra.Field.Basic
import Mathlib.Algebra.Order.Field.Basic
import Mathlib.Algebra.Order.Field.Power
import Mathlib.Tactic.FieldSimp
import Mathlib.Tactic.Linarith
import Mathlib.Tactic.LinearCombination
import Mathlib.Tactic.Positivity

/-!
# What the numbers stand for

An accumulator of `w` bits represents an integer modulo `2 ^ w` (`Rep`); with 32 bits or more, a row
of columns with carries leaves the sum of the columns in the digits (`exists_columns`).

The value of a number is `sign * mant * ulp`.  On canonical numbers `pack` cuts a number with any
digits to its leading ones (`pack_truncates`), and the comparison of the exponents and the digits is
the comparison of the magnitudes (`compare_numeric`).
-/

namespace BenchFFT.Mp

open Finset Limbs

/-! ### Accumulators -/

/-- The accumulator holds the integer `v`, modulo `2 ^ w`. -/
def Rep {w : ℕ} (x : BitVec w) (v : ℤ) : Prop := x = BitVec.ofInt w v

namespace Rep

variable {w : ℕ} {x y : BitVec w} {u v : ℤ}

theorem add (hx : Rep x u) (hy : Rep y v) : Rep (x + y) (u + v) := by
  rw [Rep, hx, hy, BitVec.ofInt_add]

theorem sub (hx : Rep x u) (hy : Rep y v) : Rep (x - y) (u - v) := by
  rw [Rep, hx, hy, Int.sub_eq_add_neg, BitVec.ofInt_add, BitVec.ofInt_neg, ← BitVec.sub_eq_add_neg]

theorem mul (hx : Rep x u) (hy : Rep y v) : Rep (x * y) (u * v) := by
  rw [Rep, hx, hy, BitVec.ofInt_mul]

theorem ofNat (n : ℕ) : Rep (BitVec.ofNat w n) n := (BitVec.ofInt_natCast w n).symm

theorem zero : Rep (0 : BitVec w) 0 := ofNat 0

theorem digit (d : UInt16) : Rep (ofDigit d : BitVec w) d.toNat := by
  apply BitVec.eq_of_toNat_eq
  rw [BitVec.ofInt_natCast, BitVec.toNat_ofNat, ofDigit, BitVec.toNat_setWidth]
  rfl

theorem toNat_eq (hx : Rep x v) (h0 : 0 ≤ v) (hlt : v < 2 ^ w) : (x.toNat : ℤ) = v := by
  rw [hx, BitVec.toNat_ofInt, Int.toNat_of_nonneg (Int.emod_nonneg _ (by positivity))]
  push_cast
  exact Int.emod_eq_of_lt h0 hlt

theorem shiftRight (hx : Rep x v) (k : ℕ) (h0 : 0 ≤ v) (hlt : v < 2 ^ w) :
    Rep (x >>> k) (v / 2 ^ k) := by
  have hle : v / 2 ^ k ≤ v := Int.ediv_le_self _ h0
  have hpos : (0 : ℤ) ≤ v / 2 ^ k := Int.ediv_nonneg h0 (by positivity)
  apply BitVec.eq_of_toNat_eq
  rw [BitVec.toNat_ushiftRight, Nat.shiftRight_eq_div_pow, ← Nat.cast_inj (R := ℤ),
    toNat_eq rfl hpos (by omega)]
  push_cast
  rw [hx.toNat_eq h0 hlt]

end Rep

/-! Accumulators of at least 32 bits hold what the sums and products put into them. -/

section Wide

variable {w : ℕ} (hw : 32 ≤ w)

include hw

theorem two_pow_le : (4294967296 : ℤ) ≤ 2 ^ w := by
  have h := pow_le_pow_right₀ (show (1 : ℤ) ≤ 2 by norm_num) hw
  norm_num at h
  exact h

variable {x : BitVec w} {v : ℤ}

theorem Rep.lo (hx : Rep x v) : ((lo x).toNat : ℤ) = v % 65536 := by
  have hmask : radix w - 1 = BitVec.ofNat w 65535 :=
    ((Rep.ofNat 65536).sub (Rep.ofNat 1)).trans (BitVec.ofInt_natCast w 65535)
  have hdvd : (65536 : ℤ) ∣ 2 ^ w := by
    have := pow_dvd_pow (2 : ℤ) (show 16 ≤ w by omega)
    norm_num at this
    exact this
  have h2w := two_pow_le hw
  have hmod : (65535 : ℕ) % 2 ^ w = 2 ^ 16 - 1 := by
    have hlt : (65535 : ℤ) < 2 ^ w := by omega
    exact Nat.mod_eq_of_lt (by exact_mod_cast hlt)
  rw [Mp.lo, hmask, UInt16.toNat_ofBitVec, BitVec.toNat_setWidth, BitVec.toNat_and,
    BitVec.toNat_ofNat, hmod, Nat.and_two_pow_sub_one_eq_mod, Nat.mod_mod, hx, BitVec.toNat_ofInt]
  push_cast
  rw [Int.toNat_of_nonneg (Int.emod_nonneg _ (by positivity)), Int.emod_emod_of_dvd _ hdvd]

theorem Rep.hi (hx : Rep x v) (h0 : 0 ≤ v) (hlt : v < 4294967296) : Rep (hi x) (v / 65536) :=
  hx.shiftRight 16 h0 (hlt.trans_le (two_pow_le hw))

/-- The carry of a signed accumulator is rounded down. -/
theorem Rep.hiSigned (hx : Rep x v) (hle : -2147483648 ≤ v) (hlt : v < 2147483648) :
    Rep (hiSigned x) (v / 65536) := by
  have h2w := two_pow_le hw
  have hhalf : Rep (radix w >>> 1) 32768 := (Rep.ofNat 65536).shiftRight 1 (by norm_num) (by
    push_cast
    omega)
  have hsum := hx.add (hhalf.mul (Rep.ofNat 65536))
  have h := (hsum.shiftRight 16 (by push_cast; omega) (by push_cast; omega)).sub hhalf
  rwa [show (v + 32768 * ((65536 : ℕ) : ℤ)) / 2 ^ 16 - 32768 = v / 65536 by
    push_cast
    omega] at h

theorem ofDigit_eq_zero_iff (d : UInt16) : (ofDigit d : BitVec w) = 0 ↔ d = 0 := by
  have h2w := two_pow_le hw
  have hlt := d.toNat_lt
  have hd := (Rep.digit (w := w) d).toNat_eq (by omega) (by omega)
  rw [← BitVec.toNat_inj, ← UInt16.toNat_inj]
  exact ⟨fun h => by exact_mod_cast hd.symm.trans (congrArg _ h), fun h => by
    rw [Nat.cast_inj] at hd
    rw [hd, h]
    rfl⟩

end Wide

/-! ### Columns -/

/-- The digits of a local array from the `k`-th one on. -/
def digitsFrom (d : ℕ → UInt16) (k i : ℕ) : ℕ := (d (k + i)).toNat

@[simp] theorem digitsFrom_zero (d : ℕ → UInt16) (i : ℕ) : digitsFrom d 0 i = (d i).toNat := by
  rw [digitsFrom, Nat.zero_add]

theorem digitsFrom_lt (d : ℕ → UInt16) (k i : ℕ) : digitsFrom d k i < 65536 := (d (k + i)).toNat_lt

section Columns

variable {w : ℕ}

theorem column_self (carry : BitVec w → BitVec w) (x : BitVec w) (i : ℕ)
    (s : BitVec w × (ℕ → UInt16)) : (column carry x i s).2 i = lo (s.1 + x) :=
  Function.update_self _ _ _

theorem column_of_ne (carry : BitVec w → BitVec w) (x : BitVec w) {i j : ℕ} (h : j ≠ i)
    (s : BitVec w × (ℕ → UInt16)) : (column carry x i s).2 j = s.2 j := Function.update_of_ne h _ _

/-- After `n` columns with the sum `v`, from the digit `k` of the array `d` on: the last carry `r`
is between `L` and `U`. -/
structure Columns (L U : ℤ) (k n : ℕ) (d : ℕ → UInt16) (v r : ℤ)
    (s : BitVec w × (ℕ → UInt16)) : Prop where
  rep : Rep s.1 r
  lower : L ≤ r
  upper : r ≤ U
  sum : (value 65536 n (digitsFrom s.2 k) : ℤ) + r * 65536 ^ n = v
  other : ∀ j, j < k ∨ k + n ≤ j → s.2 j = d j

/-- Columns with the contents `v`, which may depend on the digit that they replace. -/
theorem exists_columns (hw : 32 ≤ w) (carry : BitVec w → BitVec w) {L U : ℤ} (hL : L ≤ 0)
    (hU : 0 ≤ U) {n : ℕ} (k : ℕ) {x : ℕ → UInt16 → BitVec w} {v : ℕ → ℕ → ℤ}
    (hx : ∀ i < n, ∀ d, Rep (x i d) (v i d.toNat))
    (hcarry : ∀ i < n, ∀ d : UInt16, ∀ r, L ≤ r → r ≤ U → ∀ y, Rep y (r + v i d.toNat) →
      Rep (carry y) ((r + v i d.toNat) / 65536) ∧
        L ≤ (r + v i d.toNat) / 65536 ∧ (r + v i d.toNat) / 65536 ≤ U)
    (d : ℕ → UInt16) :
    ∃ r, Columns L U k n d (∑ i ∈ range n, v i (digitsFrom d k i) * 65536 ^ i) r
      (forRange n (fun i s => column carry (x i (s.2 (k + i))) (k + i) s) (0, d)) := by
  refine forRange_induction (fun m (s : BitVec w × (ℕ → UInt16)) =>
    ∃ r, Columns L U k m d (∑ i ∈ range m, v i (digitsFrom d k i) * 65536 ^ i) r s)
    ⟨0, Rep.zero, hL, hU, by simp, fun _ _ => rfl⟩ ?_
  rintro i hi s ⟨r, hs⟩
  -- the column reads a cell that no earlier one wrote
  have hcell : s.2 (k + i) = d (k + i) := hs.other _ (Or.inr le_rfl)
  have hrep : Rep (s.1 + x i (s.2 (k + i))) (r + v i (digitsFrom d k i)) := by
    rw [hcell]
    exact hs.rep.add (hx i hi _)
  obtain ⟨hc, hLc, hcU⟩ := hcarry i hi (d (k + i)) r hs.lower hs.upper _ hrep
  refine ⟨(r + v i (digitsFrom d k i)) / 65536, hc, hLc, hcU, ?_, fun j hj => ?_⟩
  · have hlow : value 65536 i (digitsFrom (column carry (x i (s.2 (k + i))) (k + i) s).2 k)
        = value 65536 i (digitsFrom s.2 k) := value_congr fun j hj => by
      rw [digitsFrom, column_of_ne _ _ (by omega), digitsFrom]
    have hdigit : (digitsFrom (column carry (x i (s.2 (k + i))) (k + i) s).2 k i : ℤ)
        = (r + v i (digitsFrom d k i)) % 65536 := by
      rw [digitsFrom, column_self, hrep.lo hw]
    have hdiv := Int.emod_add_mul_ediv (r + v i (digitsFrom d k i)) 65536
    rw [value_succ, sum_range_succ, ← hs.sum, hlow]
    push_cast
    rw [hdigit, pow_succ]
    linear_combination (65536 : ℤ) ^ i * hdiv
  · rw [column_of_ne _ _ (by omega)]
    exact hs.other j (by omega)

end Columns

/-! ### The value of a number -/

namespace N

/-- The digits, as a natural number. -/
def mant (a : N) : ℕ := value 65536 len fun i => (a.digit i).toNat

section Val

variable (F : Type*) [DivisionRing F]

/-- The weight of the least significant digit. -/
def ulp (a : N) : F := ((65536 : ℕ) : F) ^ (a.expt.toInt - len)

/-- The sum of `sign * d[i] * 65536^(expt - LEN + i)`. -/
def val (a : N) : F := a.sign * a.mant * a.ulp F

end Val

def IsSign (s : ℤ) : Prop := s = 1 ∨ s = -1

theorem IsSign.mul {s t : ℤ} (hs : IsSign s) (ht : IsSign t) : IsSign (s * t) := by
  rcases hs with rfl | rfl <;> rcases ht with rfl | rfl <;> simp [IsSign]

theorem IsSign.neg {s : ℤ} (hs : IsSign s) : IsSign (-s) := by
  rcases hs with rfl | rfl <;> simp [IsSign]

/-- Zero has one form only, and any other number starts with a digit that is not `0`. -/
def Canonical (a : N) : Prop := a = zero ∨ a.digit (len - 1) ≠ 0 ∧ IsSign a.sign

theorem digit_lt (a : N) (i : ℕ) : (a.digit i).toNat < 65536 := (a.digit i).toNat_lt

theorem digit_of_le (a : N) {i : ℕ} (h : len ≤ i) : a.digit i = 0 := dif_neg (Nat.not_lt.mpr h)

theorem mant_lt (a : N) : a.mant < 65536 ^ len := value_lt fun i _ => a.digit_lt i

@[simp] theorem mant_zero : zero.mant = 0 := rfl

theorem le_mant {a : N} (h : a.digit (len - 1) ≠ 0) : 65536 ^ (len - 1) ≤ a.mant :=
  le_value fun h0 => h (UInt16.toNat_inj.mp h0)

theorem digit_ne_zero {a : N} (h : 65536 ^ (len - 1) ≤ a.mant) : a.digit (len - 1) ≠ 0 := by
  intro hd
  have hlt : a.mant < 65536 ^ (len - 1) := by
    have hd' : (a.digit (len - 1)).toNat = 0 := by
      rw [hd]
      rfl
    have hsplit : a.mant = value 65536 (len - 1) (fun i => (a.digit i).toNat)
        + (a.digit (len - 1)).toNat * 65536 ^ (len - 1) := value_succ _ _
    rw [hsplit, hd', Nat.zero_mul, Nat.add_zero]
    exact value_lt fun i _ => a.digit_lt i
  exact absurd h hlt.not_ge

theorem Canonical.le_mant {a : N} (h : a.Canonical) (h0 : a ≠ zero) : 65536 ^ (len - 1) ≤ a.mant :=
  N.le_mant (h.resolve_left h0).1

theorem Canonical.mant_eq_zero_iff {a : N} (h : a.Canonical) : a.mant = 0 ↔ a = zero := by
  refine ⟨fun h0 => ?_, fun h0 => h0 ▸ mant_zero⟩
  by_contra hne
  have := h.le_mant hne
  rw [h0] at this
  exact absurd this (by decide)

/-- The digits of `b`, moved down by `m` places. -/
theorem mant_div (b : N) (m : ℕ) :
    b.mant / 65536 ^ m = value 65536 len fun i => (b.digit (i + m)).toNat := by
  have hpad : value 65536 (m + len) (fun i => (b.digit i).toNat) = b.mant := by
    have hhigh : (value 65536 m fun i => (b.digit (len + i)).toNat) = 0 :=
      (value_eq_zero_iff (by decide)).mpr fun i _ => by
        rw [b.digit_of_le (Nat.le_add_right _ _)]
        rfl
    rw [Nat.add_comm, value_add, hhigh, Nat.mul_zero, Nat.add_zero, mant]
  rw [← hpad, value_div _ fun i _ => b.digit_lt i]
  exact value_congr fun i _ => by rw [Nat.add_comm]

/-! ### `pack` -/

theorem pack_eq_zero {d : ℕ → UInt16} {l : ℕ} (e s : ℤ) (h : ∀ i < l, d i = 0) :
    pack d e s l = zero := by
  induction l generalizing e with
  | zero => rfl
  | succ l ih =>
    rw [pack, if_neg (by simp [h l])]
    exact ih _ fun i hi => h i (Nat.lt_succ_of_lt hi)

/-- The digits from `d[k]` down. -/
def packAt (d : ℕ → UInt16) (e s : ℤ) (k : ℕ) : N where
  sign := s
  expt := Int16.ofInt e
  d := fun j => if len - 1 ≤ k + j.val then d (k + j.val - (len - 1)) else 0

theorem pack_eq_packAt {d : ℕ → UInt16} {l : ℕ} (e s : ℤ) (h : ∃ i < l, d i ≠ 0) :
    ∃ k < l, d k ≠ 0 ∧ (∀ i, k < i → i < l → d i = 0) ∧
      pack d e s l = packAt d (e - l + 1 + k) s k := by
  induction l generalizing e with
  | zero => exact absurd h.choose_spec.1 (Nat.not_lt_zero _)
  | succ l ih =>
    rw [pack]
    by_cases hl : d l = 0
    · obtain ⟨i, hi, hne⟩ := h
      have hil : i < l := lt_of_le_of_ne (Nat.lt_succ_iff.mp hi) (by rintro rfl; exact hne hl)
      obtain ⟨k, hk, hdk, habove, heq⟩ := ih (e - 1) ⟨i, hil, hne⟩
      refine ⟨k, Nat.lt_succ_of_lt hk, hdk, fun j hkj hj => ?_, ?_⟩
      · rcases Nat.lt_succ_iff_lt_or_eq.mp hj with hj | rfl
        · exact habove j hkj hj
        · exact hl
      · rw [if_neg (not_not.mpr hl), heq]
        congr 1
        push_cast
        ring
    · refine ⟨l, l.lt_succ_self, hl, fun j hlj hj => absurd hj (by omega), ?_⟩
      rw [if_pos hl, packAt]
      congr 2
      push_cast
      ring

theorem packAt_digit (d : ℕ → UInt16) (e s : ℤ) (k : ℕ) {j : ℕ} (hj : j < len) :
    (packAt d e s k).digit j = if len - 1 ≤ k + j then d (k + j - (len - 1)) else 0 := dif_pos hj

theorem packAt_mant (d : ℕ → UInt16) (e s : ℤ) (k : ℕ) :
    (packAt d e s k).mant
      = value 65536 (k + 1) (digitsFrom d 0) * 65536 ^ (len - 1) / 65536 ^ k := by
  have hdigit : (packAt d e s k).mant
      = value 65536 len fun j => (if len - 1 ≤ k + j then d (k + j - (len - 1)) else 0).toNat :=
    value_congr fun j hj => by rw [packAt_digit d e s k hj]
  rw [hdigit]
  rcases Nat.le_or_le (len - 1) k with hk | hk
  · obtain ⟨q, rfl⟩ := Nat.exists_eq_add_of_le hk
    rw [pow_add, mul_comm (65536 ^ (len - 1)), Nat.mul_div_mul_right _ _ (by positivity),
      show len - 1 + q + 1 = q + len from by rw [len]; omega,
      value_div _ fun i _ => digitsFrom_lt d 0 i]
    refine value_congr fun j _ => ?_
    rw [if_pos (by omega), show len - 1 + q + j - (len - 1) = q + j by omega, digitsFrom_zero]
  · obtain ⟨q, hq⟩ := Nat.exists_eq_add_of_le hk
    have hlen : len = q + (k + 1) := by rw [len] at *; omega
    rw [hq, pow_add, mul_comm (65536 ^ k), ← mul_assoc, Nat.mul_div_cancel _ (by positivity), hlen,
      value_add, (value_eq_zero_iff (by decide)).mpr fun j hj => ?_, Nat.zero_add, mul_comm]
    · congr 1
      refine value_congr fun j _ => ?_
      rw [if_pos (by omega), show k + (q + j) - (k + q) = j by omega, digitsFrom_zero]
    · rw [if_neg (by omega)]
      rfl

variable {d : ℕ → UInt16} {e s : ℤ} {l : ℕ}

/-- The number that `pack` makes of digits that are not all `0`: the `k`-th is its leading one. -/
theorem pack_spec (e s : ℤ) (hV : value 65536 l (digitsFrom d 0) ≠ 0) :
    ∃ k < l, 65536 ^ k ≤ value 65536 l (digitsFrom d 0) ∧
      value 65536 l (digitsFrom d 0) < 65536 ^ (k + 1) ∧
      (pack d e s l).sign = s ∧ (pack d e s l).expt = Int16.ofInt (e - l + 1 + k) ∧
      (pack d e s l).digit (len - 1) ≠ 0 ∧
      (pack d e s l).mant
        = value 65536 l (digitsFrom d 0) * 65536 ^ (len - 1) / 65536 ^ k := by
  have hex : ∃ i < l, d i ≠ 0 := by
    by_contra h
    push Not at h
    refine hV ((value_eq_zero_iff (by decide)).mpr fun i hi => ?_)
    rw [digitsFrom_zero, h i hi]
    rfl
  obtain ⟨k, hk, hdk, habove, heq⟩ := pack_eq_packAt e s hex
  -- the digits above the first one that is not `0`
  have hcut : value 65536 l (digitsFrom d 0) = value 65536 (k + 1) (digitsFrom d 0) := by
    obtain ⟨q, rfl⟩ := Nat.exists_eq_add_of_le (Nat.succ_le_of_lt hk)
    have hhigh : value 65536 q (fun i => digitsFrom d 0 (k + 1 + i)) = 0 :=
      (value_eq_zero_iff (by decide)).mpr fun i hi => by
        rw [digitsFrom_zero, habove (k + 1 + i) (by omega) (by omega)]
        rfl
    rw [Nat.succ_eq_add_one, value_add, hhigh, Nat.mul_zero, Nat.add_zero]
  have hdk' : digitsFrom d 0 k ≠ 0 := by
    rw [digitsFrom_zero]
    exact fun h0 => hdk (UInt16.toNat_inj.mp h0)
  rw [heq, hcut]
  refine ⟨k, hk, le_value hdk', value_lt fun i _ => digitsFrom_lt d 0 i, rfl, rfl, ?_,
    packAt_mant d _ s k⟩
  rw [packAt_digit d _ s k (by decide), if_pos (Nat.le_add_left _ _), Nat.add_sub_cancel]
  exact hdk

theorem pack_of_value_eq_zero (e s : ℤ) (hV : value 65536 l (digitsFrom d 0) = 0) :
    pack d e s l = zero :=
  pack_eq_zero e s fun i hi => by
    have := (value_eq_zero_iff (by decide)).mp hV i hi
    rw [digitsFrom_zero] at this
    exact UInt16.toNat_inj.mp this

theorem pack_congr {d' : ℕ → UInt16} (h : ∀ i < l, d i = d' i) (e s : ℤ) :
    pack d e s l = pack d' e s l := by
  induction l generalizing e with
  | zero => rfl
  | succ l ih =>
    rw [pack, pack, h l l.lt_succ_self, ih (fun i hi => h i (Nat.lt_succ_of_lt hi))]
    congr 2
    funext j
    congr 1
    exact h _ (by omega)

/-- The digits of `pack` matter for their value only. -/
theorem pack_eq_of_value {d' : ℕ → UInt16}
    (h : value 65536 l (digitsFrom d 0) = value 65536 l (digitsFrom d' 0)) (e s : ℤ) :
    pack d e s l = pack d' e s l := by
  refine pack_congr (fun i hi => UInt16.toNat_inj.mp ?_) e s
  have := value_inj (fun i _ => digitsFrom_lt d 0 i) (fun i _ => digitsFrom_lt d' 0 i) h i hi
  rwa [digitsFrom_zero, digitsFrom_zero] at this

theorem pack_canonical (hs : IsSign s) (e : ℤ) : (pack d e s l).Canonical := by
  by_cases hV : value 65536 l (digitsFrom d 0) = 0
  · exact Or.inl (pack_of_value_eq_zero e s hV)
  · obtain ⟨k, -, -, -, hsign, -, hdigit, -⟩ := pack_spec e s hV
    refine Or.inr ⟨hdigit, ?_⟩
    rw [hsign]
    exact hs

theorem toInt_ofInt {e : ℤ} (hle : -32768 ≤ e) (hlt : e ≤ 32767) : (Int16.ofInt e).toInt = e := by
  rw [Int16.toInt_ofInt]
  exact Int.bmod_eq_of_le (by rw [Int16.size]; omega) (by rw [Int16.size]; omega)

theorem val_zero (F : Type*) [DivisionRing F] : zero.val F = 0 := by simp [val]

/-- A canonical number whose exponent, unless it is zero, is between `-k` and `k`. -/
structure Small (k : ℤ) (a : N) : Prop where
  canonical : a.Canonical
  range : a = zero ∨ -k ≤ a.expt.toInt ∧ a.expt.toInt ≤ k

theorem Canonical.isSign {a : N} (h : a.Canonical) : IsSign a.sign := by
  rcases h with rfl | h
  · exact Or.inl rfl
  · exact h.2

theorem small_zero (k : ℤ) : Small k zero := ⟨Or.inl rfl, Or.inl rfl⟩

theorem Small.mono {j k : ℤ} {a : N} (h : Small j a) (hjk : j ≤ k) : Small k a :=
  ⟨h.canonical, h.range.imp_right fun hr => ⟨by omega, by omega⟩⟩

/-- The exponent of the result, from the ones of the digits of the argument. -/
theorem pack_small {k : ℤ} (hs : IsSign s)
    (he : value 65536 l (digitsFrom d 0) ≠ 0 → -k ≤ e - l + 1 ∧ e ≤ k) (hk : k ≤ 32767) :
    Small k (pack d e s l) := by
  refine ⟨pack_canonical hs e, ?_⟩
  by_cases hV : value 65536 l (digitsFrom d 0) = 0
  · exact Or.inl (pack_of_value_eq_zero e s hV)
  · obtain ⟨i, hi, -, -, -, hexpt, -⟩ := pack_spec e s hV
    obtain ⟨hlow, hhigh⟩ := he hV
    rw [hexpt, toInt_ofInt (by omega) (by omega)]
    exact Or.inr ⟨by omega, by omega⟩

section Field

variable {F : Type*} [Field F] [LinearOrder F] [IsStrictOrderedRing F]

theorem IsSign.abs (hs : IsSign s) : |(s : F)| = 1 := by
  rcases hs with rfl | rfl <;> simp

theorem IsSign.mul_self (hs : IsSign s) : (s : F) * s = 1 := by
  rw [← abs_mul_abs_self, hs.abs, one_mul]

theorem ulp_pos (a : N) : 0 < a.ulp F := zpow_pos (by norm_num) _

theorem abs_val {a : N} (h : IsSign a.sign) : |a.val F| = a.mant * a.ulp F := by
  rw [val, abs_mul, abs_mul, h.abs, one_mul, Nat.abs_cast, abs_of_pos a.ulp_pos]

/-- `c` is `x`, cut to its `LEN` leading digits. -/
structure Truncates (c : N) (x : F) : Prop where
  canonical : c.Canonical
  eq_zero : c = zero ↔ x = 0
  sign : 0 ≤ c.sign * x
  le : |c.val F| ≤ |x|
  lt : |x| < |c.val F| + c.ulp F

theorem truncates_zero : Truncates zero (0 : F) where
  canonical := Or.inl rfl
  eq_zero := by simp
  sign := by simp
  le := by rw [val_zero]
  lt := by
    rw [val_zero, abs_zero, zero_add]
    exact ulp_pos _

/-- The leading digit of the result is the digit `k` of the argument, and the digits that do not fit
are cut off. -/
theorem exists_pack (s : ℤ) (hV : value 65536 l (digitsFrom d 0) ≠ 0) (hle : -32768 ≤ e - l + 1)
    (hlt : e ≤ 32767) :
    ∃ k < l, (pack d e s l).sign = s ∧ (pack d e s l).expt.toInt = e - l + 1 + k ∧
      (pack d e s l).digit (len - 1) ≠ 0 ∧
      value 65536 l (digitsFrom d 0) < 65536 ^ (k + 1) ∧
      ((pack d e s l).mant : F) * (pack d e s l).ulp F
        ≤ value 65536 l (digitsFrom d 0) * 65536 ^ (e - l) ∧
      (value 65536 l (digitsFrom d 0) : F) * 65536 ^ (e - l)
        < ((pack d e s l).mant + 1) * (pack d e s l).ulp F ∧
      (k < len → ((pack d e s l).mant : F) * (pack d e s l).ulp F
        = value 65536 l (digitsFrom d 0) * 65536 ^ (e - l)) := by
  obtain ⟨k, hk, -, hhigh, hsign, hexpt, hdigit, hmant⟩ := pack_spec e s hV
  have hexpt' : (pack d e s l).expt.toInt = e - l + 1 + k := by
    rw [hexpt, toInt_ofInt (by omega) (by omega)]
  -- one exponent down for each leading zero, so the value stays
  have hulp : (pack d e s l).ulp F = 65536 ^ k * (65536 ^ (e - l) / 65536 ^ (len - 1)) := by
    have h0 : (65536 : F) ≠ 0 := by norm_num
    rw [ulp, hexpt', mul_div_assoc', eq_div_iff (by positivity), ← zpow_natCast, ← zpow_natCast,
      Nat.cast_ofNat, ← zpow_add₀ h0, ← zpow_add₀ h0]
    congr 1
    rw [len]
    push_cast
    ring
  have hU : 0 < (65536 : F) ^ (e - l) / 65536 ^ (len - 1) := by positivity
  have hV' : (value 65536 l (digitsFrom d 0) : F) * 65536 ^ (e - l)
      = (value 65536 l (digitsFrom d 0) * 65536 ^ (len - 1) : ℕ)
        * ((65536 : F) ^ (e - l) / 65536 ^ (len - 1)) := by
    push_cast
    field_simp
  refine ⟨k, hk, hsign, hexpt', hdigit, hhigh, ?_, ?_, fun hlen => ?_⟩
  · rw [hV', hulp, ← mul_assoc, hmant]
    refine mul_le_mul_of_nonneg_right ?_ hU.le
    exact_mod_cast Nat.div_mul_le_self _ _
  · rw [hV', hulp, ← mul_assoc, hmant]
    refine mul_lt_mul_of_pos_right ?_ hU
    have hdiv : ∀ x, x < (x / 65536 ^ k + 1) * 65536 ^ k := fun x => by
      rw [Nat.add_mul, Nat.one_mul]
      exact Nat.lt_div_mul_add (by positivity)
    exact_mod_cast hdiv _
  · -- no digit is dropped when there are at most `LEN`
    have hdvd : 65536 ^ k ∣ value 65536 l (digitsFrom d 0) * 65536 ^ (len - 1) :=
      (pow_dvd_pow _ (Nat.le_sub_one_of_lt hlen)).mul_left _
    rw [hV', hulp, ← mul_assoc, hmant]
    congr 1
    exact_mod_cast Nat.div_mul_cancel hdvd

theorem truncates_of_mant {c : N} {x : F} (hc : c.digit (len - 1) ≠ 0) (hs : IsSign c.sign)
    (hx : c.sign * |x| = x) (hle : c.mant * c.ulp F ≤ |x|)
    (hlt : |x| < (c.mant + 1) * c.ulp F) : Truncates c x := by
  have hm : 0 < c.mant := (Nat.pow_pos (by decide)).trans_le (le_mant hc)
  have hpos : 0 < |x| := (mul_pos (Nat.cast_pos.mpr hm) c.ulp_pos).trans_le hle
  refine ⟨Or.inr ⟨hc, hs⟩, ⟨fun h => ?_, fun h => ?_⟩, ?_, ?_, ?_⟩
  · exact absurd (congrArg (digit · (len - 1)) h) hc
  · exact absurd h (abs_pos.mp hpos)
  · rw [← hx, ← mul_assoc, IsSign.mul_self hs, one_mul]
    exact hpos.le
  · rwa [abs_val hs]
  · rwa [abs_val hs, ← add_one_mul]

/-- `pack` cuts off the digits that do not fit. -/
theorem pack_truncates (hs : IsSign s) (e : ℤ)
    (he : value 65536 l (digitsFrom d 0) ≠ 0 → -32768 ≤ e - l + 1 ∧ e ≤ 32767) :
    Truncates (pack d e s l)
      (s * value 65536 l (digitsFrom d 0) * (65536 : F) ^ (e - l)) := by
  by_cases hV : value 65536 l (digitsFrom d 0) = 0
  · rw [pack_of_value_eq_zero e s hV, hV, Nat.cast_zero, mul_zero, zero_mul]
    exact truncates_zero
  · obtain ⟨k, -, hsign, -, hdigit, -, hle, hlt, -⟩ := exists_pack (F := F) s hV (he hV).1 (he hV).2
    have habs : |(s * value 65536 l (digitsFrom d 0) * (65536 : F) ^ (e - l) : F)|
        = value 65536 l (digitsFrom d 0) * (65536 : F) ^ (e - l) := by
      rw [abs_mul, abs_mul, hs.abs, one_mul, Nat.abs_cast, abs_of_pos (by positivity)]
    refine truncates_of_mant hdigit (hsign.symm ▸ hs) ?_ (habs ▸ hle) (habs ▸ hlt)
    rw [habs, hsign, mul_assoc]

/-- `pack` is exact on digits that fit. -/
theorem pack_val (e s : ℤ) (hl : l ≤ len)
    (he : value 65536 l (digitsFrom d 0) ≠ 0 → -32768 ≤ e - l + 1 ∧ e ≤ 32767) :
    (pack d e s l).val F = s * value 65536 l (digitsFrom d 0) * (65536 : F) ^ (e - l) := by
  by_cases hV : value 65536 l (digitsFrom d 0) = 0
  · rw [pack_of_value_eq_zero e s hV, hV, val_zero, Nat.cast_zero, mul_zero, zero_mul]
  · obtain ⟨k, hk, hsign, -, -, -, -, -, hexact⟩ := exists_pack (F := F) s hV (he hV).1 (he hV).2
    rw [val, hsign, mul_assoc, hexact (by omega), mul_assoc]

/-- The distance of two neighbours, relative to their size. -/
abbrev eps (F : Type*) [DivisionRing F] : F := 1 / ((65536 : ℕ) : F) ^ (len - 1)

theorem Canonical.ulp_le {c : N} (hc : c.Canonical) (h0 : c ≠ zero) :
    c.ulp F ≤ eps F * |c.val F| := by
  have hs := (hc.resolve_left h0).2
  have hm : ((65536 ^ (len - 1) : ℕ) : F) ≤ c.mant := Nat.cast_le.mpr (hc.le_mant h0)
  push_cast at hm
  rw [abs_val hs, eps, Nat.cast_ofNat, ← mul_assoc, div_mul_eq_mul_div, one_mul,
    div_mul_eq_mul_div, le_div_iff₀ (by positivity), mul_comm]
  exact mul_le_mul_of_nonneg_right hm c.ulp_pos.le

/-- Cutting makes a number smaller, by less than `eps` of it. -/
theorem Truncates.exists_rel {c : N} {x : F} (h : Truncates c x) :
    ∃ δ, 0 ≤ δ ∧ δ < eps F ∧ c.val F = x * (1 - δ) := by
  have hpos : 0 < eps F := by rw [eps]; positivity
  rcases eq_or_ne x 0 with rfl | hx
  · exact ⟨0, le_rfl, hpos, by rw [h.eq_zero.mpr rfl, val_zero, zero_mul]⟩
  · have h0 : c ≠ zero := fun h0 => hx (h.eq_zero.mp h0)
    have hs := (h.canonical.resolve_left h0).2
    have hx' : 0 < |x| := abs_pos.mpr hx
    have hsx : (c.sign : F) * x = |x| := by
      rw [← abs_of_nonneg h.sign, abs_mul, hs.abs, one_mul]
    have hval : c.val F = x * (|c.val F| / |x|) := by
      rw [mul_div_assoc', eq_div_iff hx'.ne', ← hsx, abs_val hs, val]
      linear_combination c.mant * c.ulp F * x * IsSign.mul_self (F := F) hs
    -- the last digit is small against the leading one
    have hlt : |x| < |c.val F| + eps F * |x| :=
      h.lt.trans_le (add_le_add_right ((h.canonical.ulp_le h0).trans
        (mul_le_mul_of_nonneg_left h.le hpos.le)) _)
    refine ⟨1 - |c.val F| / |x|, ?_, ?_, ?_⟩
    · rw [sub_nonneg, div_le_one hx']
      exact h.le
    · rw [sub_lt_comm, lt_div_iff₀ hx', sub_mul, one_mul]
      linarith
    · rw [sub_sub_cancel]
      exact hval

end Field

/-! ### Comparison -/

theorem cmpDigits_eq (a b : N) (l : ℕ) :
    cmpDigits a b l = ((value 65536 l fun i => (a.digit i).toNat : ℤ)
      - value 65536 l fun i => (b.digit i).toNat).sign := by
  induction l with
  | zero => rfl
  | succ l ih =>
    have habove : ∀ j < l + 1, l < j → (a.digit j).toNat = (b.digit j).toNat := by omega
    rw [cmpDigits]
    split_ifs with hlt hgt
    · have := value_lt_value (Nat.lt_add_one l) (fun j _ => b.digit_lt j)
        (UInt16.lt_iff_toNat_lt.mp hlt) fun j hj hl => (habove j hj hl).symm
      rw [Int.sign_eq_one_of_pos (by omega)]
    · have := value_lt_value (Nat.lt_add_one l) (fun j _ => a.digit_lt j)
        (UInt16.lt_iff_toNat_lt.mp hgt) habove
      rw [Int.sign_eq_neg_one_of_neg (by omega)]
    · rw [UInt16.not_lt] at hlt hgt
      rw [ih, value_succ, value_succ, UInt16.le_antisymm hlt hgt]
      congr 1
      push_cast
      ring

/-- `b` is not greater than `a`, and can be moved to the digits of `a`. -/
structure Dominates (a b : N) : Prop where
  expt : b.expt.toInt ≤ a.expt.toInt
  mant : b.mant / 65536 ^ shift a b ≤ a.mant

theorem dominates_of_expt_lt {a b : N} (ha : a.Canonical) (h : b.expt < a.expt) :
    Dominates a b := by
  rw [Int16.lt_iff_toInt_lt] at h
  have h0 : a ≠ zero := by
    rintro rfl
    have := b.expt.le_toInt
    have : (zero.expt).toInt = -32768 := rfl
    omega
  refine ⟨h.le, ?_⟩
  have hshift : 1 ≤ shift a b := by
    rw [shift]
    omega
  calc b.mant / 65536 ^ shift a b ≤ b.mant / 65536 ^ 1 :=
        Nat.div_le_div_left (Nat.pow_le_pow_right (by decide) hshift) (by decide)
    _ ≤ 65536 ^ (len - 1) := by
        have := b.mant_lt
        rw [len] at *
        omega
    _ ≤ a.mant := ha.le_mant h0

theorem dominates_of_expt_eq {a b : N} (h : a.expt = b.expt) (hm : b.mant ≤ a.mant) :
    Dominates a b where
  expt := by rw [h]
  mant := (Nat.div_le_self _ _).trans hm

theorem expt_eq {a b : N} (hlt : ¬b.expt < a.expt) (hgt : ¬a.expt < b.expt) : a.expt = b.expt := by
  rw [Int16.not_lt] at hlt hgt
  exact Int16.le_antisymm hlt hgt

theorem dominates_of_abscmp {a b : N} (ha : a.Canonical) (h : 0 < abscmp a b) : Dominates a b := by
  rw [abscmp] at h
  split_ifs at h with hlt hgt
  · exact dominates_of_expt_lt ha hlt
  · exact absurd h (by decide)
  · rw [cmpDigits_eq, Int.sign_pos_iff, sub_pos, Nat.cast_lt] at h
    exact dominates_of_expt_eq (expt_eq hlt hgt) h.le

theorem dominates_of_not_abscmp {a b : N} (hb : b.Canonical) (h : ¬0 < abscmp a b) :
    Dominates b a := by
  rw [abscmp] at h
  split_ifs at h with hlt hgt
  · exact absurd Int.one_pos h
  · exact dominates_of_expt_lt hb hgt
  · rw [cmpDigits_eq, Int.sign_pos_iff, sub_pos, Nat.cast_lt, not_lt] at h
    exact dominates_of_expt_eq (expt_eq hlt hgt).symm h

theorem abscmp_eq_zero_iff (a b : N) :
    abscmp a b = 0 ↔ a.expt = b.expt ∧ a.mant = b.mant := by
  rw [abscmp]
  split_ifs with hlt hgt
  · refine iff_of_false (by decide) fun h => ?_
    rw [h.1] at hlt
    exact absurd hlt Int16.lt_irrefl
  · refine iff_of_false (by decide) fun h => ?_
    rw [h.1] at hgt
    exact absurd hgt Int16.lt_irrefl
  · rw [cmpDigits_eq, Int.sign_eq_zero_iff_zero, sub_eq_zero, Nat.cast_inj]
    exact (and_iff_right (expt_eq hlt hgt)).symm

section Field

variable {F : Type*} [Field F] [LinearOrder F] [IsStrictOrderedRing F]

theorem abs_val_lt {a : N} (ha : IsSign a.sign) : |a.val F| < (65536 : F) ^ a.expt.toInt := by
  have hm : (a.mant : F) < 65536 ^ len := by exact_mod_cast a.mant_lt
  calc |a.val F| = a.mant * a.ulp F := abs_val ha
    _ < 65536 ^ len * a.ulp F := mul_lt_mul_of_pos_right hm a.ulp_pos
    _ = (65536 : F) ^ a.expt.toInt := by
      rw [ulp, ← zpow_natCast, Nat.cast_ofNat, ← zpow_add₀ (by norm_num), add_sub_cancel]

theorem le_abs_val {a : N} (ha : a.Canonical) (h0 : a ≠ zero) :
    (65536 : F) ^ (a.expt.toInt - 1) ≤ |a.val F| := by
  have hm : (65536 : F) ^ (len - 1) ≤ a.mant := by exact_mod_cast ha.le_mant h0
  calc (65536 : F) ^ (a.expt.toInt - 1) = 65536 ^ (len - 1) * a.ulp F := by
        rw [ulp, ← zpow_natCast, Nat.cast_ofNat, ← zpow_add₀ (by norm_num)]
        apply congrArg _
        rw [len]
        push_cast
        ring
    _ ≤ a.mant * a.ulp F := mul_le_mul_of_nonneg_right hm a.ulp_pos.le
    _ = |a.val F| := (abs_val ha.isSign).symm

theorem Canonical.val_eq_zero_iff {a : N} (ha : a.Canonical) : a.val F = 0 ↔ a = zero := by
  refine ⟨fun h => ?_, fun h => h ▸ val_zero F⟩
  rw [← abs_eq_zero, abs_val ha.isSign, mul_eq_zero, or_iff_left a.ulp_pos.ne', Nat.cast_eq_zero,
    ha.mant_eq_zero_iff] at h
  exact h

theorem expt_le {a b : N} (ha : a.Canonical) (h0 : a ≠ zero) (hb : IsSign b.sign)
    (h : |a.val F| ≤ |b.val F|) : a.expt.toInt ≤ b.expt.toInt := by
  have hlt : (65536 : F) ^ (a.expt.toInt - 1) < 65536 ^ b.expt.toInt :=
    ((le_abs_val ha h0).trans h).trans_lt (abs_val_lt hb)
  rw [zpow_lt_zpow_iff_right₀ (by norm_num)] at hlt
  omega

theorem abs_lt_of_expt_lt {a b : N} (ha : a.Canonical) (hb : IsSign b.sign)
    (h : b.expt < a.expt) : |b.val F| < |a.val F| := by
  rw [Int16.lt_iff_toInt_lt] at h
  -- no exponent is below that of `zero`
  have h0 : a ≠ zero := by
    rintro rfl
    have := b.expt.le_toInt
    have : zero.expt.toInt = -32768 := rfl
    omega
  calc |b.val F| < (65536 : F) ^ b.expt.toInt := abs_val_lt hb
    _ ≤ 65536 ^ (a.expt.toInt - 1) := zpow_le_zpow_right₀ (by norm_num) (by omega)
    _ ≤ |a.val F| := le_abs_val ha h0

/-- On canonical numbers, `abscmp` compares the magnitudes. -/
theorem abscmp_cases {a b : N} (ha : a.Canonical) (hb : b.Canonical) :
    abscmp a b = 1 ∧ |b.val F| < |a.val F| ∨ abscmp a b = 0 ∧ |a.val F| = |b.val F| ∨
      abscmp a b = -1 ∧ |a.val F| < |b.val F| := by
  rw [abscmp]
  split_ifs with hlt hgt
  · exact Or.inl ⟨rfl, abs_lt_of_expt_lt ha hb.isSign hlt⟩
  · exact Or.inr (Or.inr ⟨rfl, abs_lt_of_expt_lt hb ha.isSign hgt⟩)
  · -- with one exponent, the digits decide
    have hulp : a.ulp F = b.ulp F := by rw [ulp, ulp, expt_eq hlt hgt]
    have hdigits : cmpDigits a b len = Int.sign (a.mant - b.mant) := cmpDigits_eq a b len
    rw [hdigits, abs_val ha.isSign, abs_val hb.isSign, hulp]
    rcases Nat.lt_trichotomy b.mant a.mant with h | h | h
    · refine Or.inl ⟨Int.sign_eq_one_of_pos (by omega), ?_⟩
      exact mul_lt_mul_of_pos_right (Nat.cast_lt.mpr h) b.ulp_pos
    · refine Or.inr (Or.inl ⟨?_, by rw [h]⟩)
      rw [h, sub_self, Int.sign_zero]
    · refine Or.inr (Or.inr ⟨Int.sign_eq_neg_one_of_neg (by omega), ?_⟩)
      exact mul_lt_mul_of_pos_right (Nat.cast_lt.mpr h) b.ulp_pos

/-- On canonical numbers, `eq` is the equality of the values. -/
theorem eq_iff {a b : N} (ha : a.Canonical) (hb : b.Canonical) :
    eq a b = true ↔ a.val F = b.val F := by
  rw [eq, decide_eq_true_iff, abscmp_eq_zero_iff]
  constructor
  · rintro ⟨hsign, hexpt, hmant⟩
    rw [val, val, ulp, ulp, hsign, hexpt, hmant]
  · intro h
    by_cases h0 : a = zero
    · have hb0 : b = zero := by
        rw [← hb.val_eq_zero_iff (F := F), ← h, h0, val_zero]
      rw [h0, hb0]
      exact ⟨rfl, rfl, rfl⟩
    · have hb0 : b ≠ zero := by
        rw [Ne, ← hb.val_eq_zero_iff (F := F), ← h, ha.val_eq_zero_iff]
        exact h0
      -- canonical numbers with one magnitude have one exponent
      have hexpt : a.expt = b.expt := Int16.toInt_inj.mp (le_antisymm
        (expt_le ha h0 hb.isSign (by rw [h])) (expt_le hb hb0 ha.isSign (by rw [h])))
      have hulp : a.ulp F = b.ulp F := by rw [ulp, ulp, hexpt]
      have hmant : a.mant = b.mant := by
        have habs := congrArg abs h
        rw [abs_val ha.isSign, abs_val hb.isSign, hulp] at habs
        exact_mod_cast mul_right_cancel₀ b.ulp_pos.ne' habs
      refine ⟨?_, hexpt, hmant⟩
      have hm : (b.mant * b.ulp F : F) ≠ 0 :=
        mul_ne_zero (Nat.cast_ne_zero.mpr (mt hb.mant_eq_zero_iff.mp hb0)) b.ulp_pos.ne'
      rw [val, val, hulp, hmant, mul_assoc, mul_assoc] at h
      exact_mod_cast mul_right_cancel₀ hm h

end Field

/-- **On canonical numbers the comparison is the numeric one.** -/
theorem compare_numeric {a b : N} (ha : a.Canonical) (hb : b.Canonical) :
    (abscmp a b = 1 ↔ |b.val ℚ| < |a.val ℚ|) ∧ (abscmp a b = 0 ↔ |a.val ℚ| = |b.val ℚ|) ∧
      (abscmp a b = -1 ↔ |a.val ℚ| < |b.val ℚ|) ∧ (eq a b = true ↔ a.val ℚ = b.val ℚ) := by
  have heq : eq a b = true ↔ a.val ℚ = b.val ℚ := eq_iff ha hb
  rcases abscmp_cases (F := ℚ) ha hb with ⟨h, hlt⟩ | ⟨h, hlt⟩ | ⟨h, hlt⟩
  · simp [h, hlt, hlt.ne', hlt.not_gt, heq]
  · simp [h, hlt, heq]
  · simp [h, hlt, hlt.ne, hlt.not_gt, heq]

/-- `-65536^2 / 2` and `zero`. -/
theorem compare_numeric_zero :
    let a : N := { sign := -1, expt := 2, d := fun i => if i.val = len - 1 then 32768 else 0 }
    (abscmp a zero = 1 ↔ |zero.val ℚ| < |a.val ℚ|) ∧
      (abscmp a zero = 0 ↔ |a.val ℚ| = |zero.val ℚ|) ∧
      (abscmp a zero = -1 ↔ |a.val ℚ| < |zero.val ℚ|) ∧
      (eq a zero = true ↔ a.val ℚ = zero.val ℚ) :=
  compare_numeric (Or.inr ⟨by decide, Or.inr rfl⟩) (Or.inl rfl)

end N

end BenchFFT.Mp
