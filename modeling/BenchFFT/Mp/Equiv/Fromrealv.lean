import BenchFFT.Mp.Equiv.Canonical

/-!
# Where the conversion of an array ends

The first loop of `fromreal` divides until the number is below `1`, which an infinity never is; all
other numbers, `NaN` among them, are converted (`fromreal_exists_iff`).  So `fromrealv` ends unless
a component of its array is infinite.
-/

namespace BenchFFT.Mp

variable {rnd : ℚ → ℚ} {sqrt : Real' → Real'}

/-- `isinf(x)`. -/
def isinf : Real' → Bool
  | .posInf | .negInf => true
  | _ => false

/-- The digits of any number end. -/
theorem exists_realDigits (i : ℕ) (s : Real' × (ℕ → UInt16)) :
    ∃ t, realDigits some i s = some t := by
  induction i generalizing s with
  | zero => exact ⟨s, rfl⟩
  | succ i ih =>
    rw [realDigits]
    split_ifs
    · exact ⟨_, rfl⟩
    · simp only [onFinite_some, Option.bind_eq_bind, Option.bind_some]
      exact ih _

theorem fromreal_nan : ∃ a, fromreal .nan = some a := by
  have hlt : ¬(0 : Real') < .nan := ExtNum.not_lt_nan 0
  have hne : (.nan : Real') ≠ 0 := fun h => by cases h
  have hdown : scaleDown some .nan 0 = some (.nan, 0) := by
    rw [scaleDown_eq, if_neg (ExtNum.not_le_nan _)]
  have hup : scaleUp some .nan 0 = some (.nan, 0) := by
    rw [scaleUp_eq, if_neg (ExtNum.not_nan_lt _)]
  obtain ⟨s, hdigits⟩ := exists_realDigits len (.nan, fun _ => 0)
  simp [fromreal, fromrealM, hne, hlt, hdown, hup, hdigits]

theorem fromreal_negInf : fromreal .negInf = none := by
  have hlt : ¬(0 : Real') < .negInf := id
  have hne : (.negInf : Real') ≠ 0 := fun h => by cases h
  simp [fromreal, fromrealM, hne, hlt, scaleDown_posInf]

theorem fromreal_exists_iff (x : Real') : (∃ a, fromreal x = some a) ↔ isinf x = false := by
  cases x with
  | fin x =>
    refine iff_of_true ?_ rfl
    rcases eq_or_ne x 0 with rfl | hx
    · exact ⟨N.zero, fromreal_zero⟩
    · obtain ⟨a, y, e, hrun, -⟩ := fromreal_ne_zero hx
      exact ⟨a, hrun⟩
  | posInf => simp [fromreal_posInf, isinf]
  | negInf => simp [fromreal_negInf, isinf]
  | nan => exact iff_of_true fromreal_nan rfl

/-- The array is converted when each of its components is. -/
theorem fromrealv_exists_iff {R A : Type} {ar : Arith R A} (n : ℕ) (a : ℕ → BenchComplex R)
    (b₀ : ℕ → A) :
    (∃ b, fromrealv ar n a b₀ = some b) ↔ ∀ i < n, (∃ x, ar.fromreal (a i).re = some x) ∧
      ∃ y, ar.fromreal (a i).im = some y := by
  induction n with
  | zero => simp [fromrealv, forRangeM]
  | succ n ih =>
    have hstep : fromrealv ar (n + 1) a b₀ = (fromrealv ar n a b₀).bind fun b =>
        (ar.fromreal (a n).re).bind fun re => (ar.fromreal (a n).im).map fun im =>
          setEntry b n (re, im) := by
      unfold fromrealv
      rw [forRangeM]
      cases ar.fromreal (a n).re <;> cases ar.fromreal (a n).im <;> rfl
    rw [hstep, Nat.forall_lt_succ_right, ← ih]
    simp only [Option.bind_eq_some_iff, Option.map_eq_some_iff]
    constructor
    · rintro ⟨_, b, hb, x, hx, y, hy, -⟩
      exact ⟨⟨b, hb⟩, ⟨x, hx⟩, y, hy⟩
    · rintro ⟨⟨b, hb⟩, ⟨x, hx⟩, y, hy⟩
      exact ⟨_, b, hb, x, hx, y, hy, rfl⟩

/-- **Where the accuracy test gets its numbers.**  The conversion of an array ends exactly if no
component is infinite. -/
theorem fromrealv_terminates_iff (n : ℕ) (ffta : ℕ → BenchComplex Real') (fftb : ℕ → N) :
    (∃ b, fromrealv (mpArith rnd sqrt) n ffta fftb = some b) ↔
      ∀ i < n, isinf (ffta i).re = false ∧ isinf (ffta i).im = false := by
  rw [fromrealv_exists_iff]
  show (∀ i < n, (∃ x, fromreal (ffta i).re = some x) ∧ ∃ y, fromreal (ffta i).im = some y) ↔ _
  simp only [fromreal_exists_iff]

/-- An infinity in the output of the transform. -/
theorem not_fromrealv_terminates_posInf :
    ¬∃ b, fromrealv (mpArith id id) 1 (fun _ => ⟨.posInf, 0⟩) (fun _ => 0) = some b := by
  rw [fromrealv_exists_iff]
  intro h
  obtain ⟨x, hx⟩ := (h 0 Nat.one_pos).1
  cases fromreal_posInf.symm.trans hx

end BenchFFT.Mp
