import Mathlib.Algebra.Order.Field.Basic
import Mathlib.Analysis.Real.Sqrt

/-!
# Numbers that vanish when a condition holds

`Detects x P`: the number `x` is not negative, and it is zero exactly when `P` holds.  Sums, maxima,
quotients and square roots of such numbers are such numbers again, so a measure that is put together
from them vanishes exactly when everything that went into it does.
-/

namespace BenchFFT

structure Detects {K : Type*} [Zero K] [LE K] (x : K) (P : Prop) : Prop where
  nonneg : 0 ≤ x
  eq_zero_iff : x = 0 ↔ P

namespace Detects

section Order

variable {K : Type*} [Zero K] [LinearOrder K] {x y : K} {P Q : Prop}

theorem zero : Detects (0 : K) True := ⟨le_rfl, iff_of_true rfl trivial⟩

theorem congr (hx : Detects x P) (hPQ : P ↔ Q) : Detects x Q :=
  ⟨hx.nonneg, hx.eq_zero_iff.trans hPQ⟩

theorem pos (hx : Detects x P) (hP : ¬P) : 0 < x :=
  lt_of_le_of_ne hx.nonneg fun h => hP (hx.eq_zero_iff.mp h.symm)

theorem max (hx : Detects x P) (hy : Detects y Q) : Detects (Max.max x y) (P ∧ Q) := by
  refine ⟨hx.nonneg.trans (le_max_left x y), ?_⟩
  rw [← hx.eq_zero_iff, ← hy.eq_zero_iff]
  constructor
  · intro h
    exact ⟨le_antisymm (h ▸ le_max_left x y) hx.nonneg,
      le_antisymm (h ▸ le_max_right x y) hy.nonneg⟩
  · rintro ⟨rfl, rfl⟩
    exact max_self 0

end Order

section Field

variable {K : Type*} [Field K] [LinearOrder K] [IsStrictOrderedRing K] {x y : K} {P Q : Prop}

theorem abs (x : K) : Detects |x| (x = 0) := ⟨abs_nonneg x, abs_eq_zero⟩

theorem add (hx : Detects x P) (hy : Detects y Q) : Detects (x + y) (P ∧ Q) :=
  ⟨add_nonneg hx.nonneg hy.nonneg, by
    rw [add_eq_zero_iff_of_nonneg hx.nonneg hy.nonneg, hx.eq_zero_iff, hy.eq_zero_iff]⟩

theorem mul_self (hx : Detects x P) : Detects (x * x) P :=
  ⟨mul_self_nonneg x, mul_self_eq_zero.trans hx.eq_zero_iff⟩

theorem div (hx : Detects x P) (hy : 0 < y) : Detects (x / y) P :=
  ⟨div_nonneg hx.nonneg hy.le, by rw [div_eq_zero_iff, or_iff_left hy.ne', hx.eq_zero_iff]⟩

end Field

theorem sqrt {x : ℝ} {P : Prop} (hx : Detects x P) : Detects (Real.sqrt x) P :=
  ⟨Real.sqrt_nonneg x, (Real.sqrt_eq_zero hx.nonneg).trans hx.eq_zero_iff⟩

end Detects

end BenchFFT
