import Mathlib.Algebra.Order.Field.Basic
import Mathlib.Data.Rat.Defs
import Mathlib.Algebra.Order.Ring.Rat

/-!
# Exact numbers with infinities and NaN

`ExtNum K` extends an ordered field `K` by `±∞` and `NaN`, with the comparison and arithmetic
rules of a floating-point unit but no rounding: an ordered comparison involving `NaN` is false,
arithmetic with `NaN` gives `NaN`, and so do `∞ - ∞`, `0 * ∞`, `0 / 0` and `∞ / ∞`, while
`x / 0` is infinite for `x ≠ 0`.  There is one zero.

The order is not total, so nothing from Mathlib's order library applies to it directly.  What the
proofs use instead is the non-negative part: a value `x` with `0 ≤ x` is `fin k` with `0 ≤ k` or
`posInf` (`nonneg_cases`), and there the order is total.
-/

namespace BenchFFT

/-- The numbers of `K`, the two infinities and `NaN`. -/
inductive ExtNum (K : Type*) where
  | fin (x : K)
  | posInf
  | negInf
  | nan
  deriving DecidableEq

namespace ExtNum

variable {K : Type*}

/-- `isnan(x)`. -/
def isnan : ExtNum K → Bool
  | nan => true
  | _ => false

@[simp] theorem isnan_eq_true {x : ExtNum K} : x.isnan = true ↔ x = nan := by
  cases x <;> simp [isnan]

instance [Zero K] : Zero (ExtNum K) := ⟨fin 0⟩
instance [IntCast K] : IntCast (ExtNum K) := ⟨fun n => fin n⟩

theorem zero_def [Zero K] : (0 : ExtNum K) = fin 0 := rfl

/-! ### Comparisons -/

/-- `x < y`, false when either is `NaN`. -/
protected def Lt [LT K] : ExtNum K → ExtNum K → Prop
  | fin x, fin y => x < y
  | fin _, posInf => True
  | negInf, fin _ => True
  | negInf, posInf => True
  | _, _ => False

/-- `x <= y`, false when either is `NaN`. -/
protected def Le [LE K] : ExtNum K → ExtNum K → Prop
  | fin x, fin y => x ≤ y
  | fin _, posInf => True
  | posInf, posInf => True
  | negInf, nan => False
  | negInf, _ => True
  | _, _ => False

instance [LT K] : LT (ExtNum K) := ⟨ExtNum.Lt⟩
instance [LE K] : LE (ExtNum K) := ⟨ExtNum.Le⟩

instance [LT K] [DecidableLT K] : DecidableLT (ExtNum K) := fun x y =>
  match x, y with
  | fin x, fin y => inferInstanceAs (Decidable (x < y))
  | fin _, posInf => isTrue trivial
  | negInf, fin _ => isTrue trivial
  | negInf, posInf => isTrue trivial
  | fin _, negInf => isFalse id
  | fin _, nan => isFalse id
  | negInf, negInf => isFalse id
  | negInf, nan => isFalse id
  | posInf, _ => isFalse id
  | nan, _ => isFalse id

instance [LE K] [DecidableLE K] : DecidableLE (ExtNum K) := fun x y =>
  match x, y with
  | fin x, fin y => inferInstanceAs (Decidable (x ≤ y))
  | fin _, posInf => isTrue trivial
  | posInf, posInf => isTrue trivial
  | negInf, fin _ => isTrue trivial
  | negInf, posInf => isTrue trivial
  | negInf, negInf => isTrue trivial
  | fin _, negInf => isFalse id
  | fin _, nan => isFalse id
  | posInf, fin _ => isFalse id
  | posInf, negInf => isFalse id
  | posInf, nan => isFalse id
  | negInf, nan => isFalse id
  | nan, _ => isFalse id

section Order

variable [LinearOrder K]

@[simp] theorem fin_lt_fin {x y : K} : (fin x < fin y) ↔ x < y := Iff.rfl
@[simp] theorem fin_le_fin {x y : K} : (fin x ≤ fin y) ↔ x ≤ y := Iff.rfl
@[simp] theorem fin_lt_posInf (x : K) : fin x < posInf := trivial
@[simp] theorem fin_le_posInf (x : K) : fin x ≤ posInf := trivial
@[simp] theorem not_nan_lt (x : ExtNum K) : ¬nan < x := id
@[simp] theorem not_nan_le (x : ExtNum K) : ¬nan ≤ x := id

@[simp] theorem not_lt_nan (x : ExtNum K) : ¬x < nan := by cases x <;> exact id
@[simp] theorem not_le_nan (x : ExtNum K) : ¬x ≤ nan := by cases x <;> exact id

/-- A non-negative value is a non-negative number or `∞`. -/
theorem nonneg_cases [Zero K] {x : ExtNum K} (hx : 0 ≤ x) :
    (∃ k, x = fin k ∧ 0 ≤ k) ∨ x = posInf := by
  cases x with
  | fin k => exact Or.inl ⟨k, rfl, hx⟩
  | posInf => exact Or.inr rfl
  | negInf => exact absurd hx id
  | nan => exact absurd hx id

theorem ne_nan_of_nonneg [Zero K] {x : ExtNum K} (hx : 0 ≤ x) : x ≠ nan := by
  rintro rfl
  exact not_le_nan _ hx

theorem ne_nan_of_le {x y : ExtNum K} (h : x ≤ y) : x ≠ nan := by
  rintro rfl
  exact not_nan_le _ h

theorem le_rfl_of_ne_nan {x : ExtNum K} (hx : x ≠ nan) : x ≤ x := by
  cases x with
  | fin k => exact le_refl k
  | posInf => trivial
  | negInf => trivial
  | nan => exact absurd rfl hx

theorem le_trans' {x y z : ExtNum K} (hxy : x ≤ y) (hyz : y ≤ z) : x ≤ z := by
  cases x <;> cases y <;> cases z <;> first
    | exact le_trans (α := K) hxy hyz
    | exact trivial
    | exact absurd hxy id
    | exact absurd hyz id

theorem le_of_lt' {x y : ExtNum K} (h : x < y) : x ≤ y := by
  cases x <;> cases y <;> first
    | exact le_of_lt (α := K) h
    | exact trivial
    | exact absurd h id

/-- Off `NaN` the order is total. -/
theorem le_of_not_lt' {x y : ExtNum K} (hx : x ≠ nan) (hy : y ≠ nan) (h : ¬x < y) : y ≤ x := by
  cases x <;> cases y <;> first
    | exact absurd rfl hx
    | exact absurd rfl hy
    | exact (not_lt (α := K)).mp h
    | exact trivial
    | exact absurd trivial h

theorem eq_posInf_of_le {x : ExtNum K} (h : posInf ≤ x) : x = posInf := by
  cases x <;> first
    | rfl
    | exact absurd h id

theorem not_le_of_lt' {x y : ExtNum K} (h : x < y) : ¬y ≤ x := by
  intro hyx
  cases x <;> cases y <;> first
    | exact absurd hyx ((not_le (α := K)).mpr h)
    | exact absurd h id
    | exact absurd hyx id

end Order

/-! ### Arithmetic -/

section Arith

variable [Field K]

/-- `-x`. -/
protected def neg : ExtNum K → ExtNum K
  | fin x => fin (-x)
  | posInf => negInf
  | negInf => posInf
  | nan => nan

/-- `x + y`. -/
protected def add : ExtNum K → ExtNum K → ExtNum K
  | fin x, fin y => fin (x + y)
  | nan, _ => nan
  | _, nan => nan
  | posInf, negInf => nan
  | negInf, posInf => nan
  | posInf, _ => posInf
  | _, posInf => posInf
  | negInf, _ => negInf
  | _, negInf => negInf

instance : Neg (ExtNum K) := ⟨ExtNum.neg⟩
instance : Add (ExtNum K) := ⟨ExtNum.add⟩
instance : Sub (ExtNum K) := ⟨fun x y => x + -y⟩

@[simp] theorem neg_fin (x : K) : -(fin x) = fin (-x) := rfl
@[simp] theorem neg_posInf : -(posInf : ExtNum K) = negInf := rfl
@[simp] theorem neg_negInf : -(negInf : ExtNum K) = posInf := rfl
@[simp] theorem neg_nan : -(nan : ExtNum K) = nan := rfl
theorem sub_def (x y : ExtNum K) : x - y = x + -y := rfl
@[simp] theorem fin_add_fin (x y : K) : fin x + fin y = fin (x + y) := rfl
@[simp] theorem nan_add (x : ExtNum K) : nan + x = nan := by cases x <;> rfl
@[simp] theorem add_nan (x : ExtNum K) : x + nan = nan := by cases x <;> rfl

/-- A difference is only a number when both operands are numbers (or infinities). -/
theorem ne_nan_of_sub_ne_nan {x y : ExtNum K} (h : x - y ≠ nan) : x ≠ nan ∧ y ≠ nan := by
  rw [sub_def] at h
  constructor
  · rintro rfl; exact h (nan_add _)
  · rintro rfl; exact h (by rw [neg_nan, add_nan])

variable [LinearOrder K]

/-- The infinity with the sign of `x`; `NaN` for `x = 0`. -/
def infOfSign (x : K) : ExtNum K :=
  if 0 < x then posInf else if x < 0 then negInf else nan

/-- `x * y`. -/
protected def mul : ExtNum K → ExtNum K → ExtNum K
  | fin x, fin y => fin (x * y)
  | nan, _ => nan
  | _, nan => nan
  | fin x, posInf => infOfSign x
  | fin x, negInf => infOfSign (-x)
  | posInf, fin y => infOfSign y
  | negInf, fin y => infOfSign (-y)
  | posInf, posInf => posInf
  | negInf, negInf => posInf
  | posInf, negInf => negInf
  | negInf, posInf => negInf

/-- `x / y`. -/
protected def div : ExtNum K → ExtNum K → ExtNum K
  | fin x, fin y => if y = 0 then infOfSign x else fin (x / y)
  | nan, _ => nan
  | _, nan => nan
  | fin _, _ => fin 0
  | posInf, fin y => if y < 0 then negInf else posInf
  | negInf, fin y => if y < 0 then posInf else negInf
  | _, _ => nan

instance : Mul (ExtNum K) := ⟨ExtNum.mul⟩
instance : Div (ExtNum K) := ⟨ExtNum.div⟩

@[simp] theorem fin_mul_fin (x y : K) : fin x * fin y = fin (x * y) := rfl
@[simp] theorem posInf_mul_fin (x : K) : posInf * fin x = infOfSign x := rfl
@[simp] theorem posInf_div_posInf : (posInf : ExtNum K) / posInf = nan := rfl
@[simp] theorem nan_div (x : ExtNum K) : nan / x = nan := by cases x <;> rfl

theorem fin_div_fin (x y : K) :
    fin x / fin y = if y = 0 then infOfSign x else fin (x / y) := rfl

theorem posInf_div_fin {y : K} (hy : 0 ≤ y) : posInf / fin y = posInf :=
  if_neg (not_lt.mpr hy)

@[simp] theorem infOfSign_zero : infOfSign (0 : K) = nan := by simp [infOfSign]

theorem infOfSign_of_pos {x : K} (hx : 0 < x) : infOfSign x = posInf := if_pos hx

end Arith

end ExtNum

end BenchFFT
