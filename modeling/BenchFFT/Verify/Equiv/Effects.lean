import BenchFFT.Verify.Tests
import BenchFFT.Yields

/-!
# A verifier with effects computes what the one without does

If each call of `do_fft` yields what the function `doFft` does, and `acmp` does nothing but stop the
run on a comparison that fails, then `do_verify` makes the comparisons that it makes with `doFft`,
up to the first that fails (`doVerifyM_checks`).
-/

namespace BenchFFT.Verify

variable {R : Type} [Field R] {σ ε : Type} {I : σ → Prop} {p : Problem}
  {doFftM : (ℕ → BenchComplex R) → (ℕ → BenchComplex R) → StateT σ (Except ε) (ℕ → BenchComplex R)}
  {acmp : Comparison R → StateT σ (Except ε) PUnit}
  {doFft : (ℕ → BenchComplex R) → (ℕ → BenchComplex R) → ℕ → BenchComplex R}
  {fails : Comparison R → Option ε}
  (hfft : ∀ inp out, Yields I (doFftM inp out) (doFft inp out))
  (hacmp : ∀ c, Checks fails I (acmp c) [c] ⟨⟩)

include hfft hacmp

theorem linearRoundM_checks (d : LinearDraw R) (w : Work R) :
    Checks fails I (linearRoundM p doFftM acmp d w) [(linearRound p doFft d w).2]
      (linearRound p doFft d w) :=
  (hfft _ _).checks.bind ((hfft _ _).checks.bind ((hfft _ _).checks.bind
    ((hacmp _).bind (Checks.pure _))))

theorem linearM_checks (ds : List (LinearDraw R)) (w : Work R) :
    Checks fails I (linearM p doFftM acmp ds w) (linear p doFft ds w).2 (linear p doFft ds w) := by
  induction ds generalizing w with
  | nil => exact Checks.pure _
  | cons d ds ih => exact (linearRoundM_checks hfft hacmp d w).bind (ih _).bind_pure

theorem impulse0RoundM_checks (d : ℕ → BenchComplex R) (w : Work R) :
    Checks fails I (impulse0RoundM p doFftM acmp d w) [(impulse0Round p doFft d w).2]
      (impulse0Round p doFft d w) :=
  (hfft _ _).checks.bind ((hfft _ _).checks.bind ((hacmp _).bind (Checks.pure _)))

theorem impulse0RoundsM_checks (ds : List (ℕ → BenchComplex R)) (w : Work R) :
    Checks fails I (impulse0RoundsM p doFftM acmp ds w) (impulse0Rounds p doFft ds w).2
      (impulse0Rounds p doFft ds w) := by
  induction ds generalizing w with
  | nil => exact Checks.pure _
  | cons d ds ih => exact (impulse0RoundM_checks hfft hacmp d w).bind (ih _).bind_pure

theorem impulse0M_checks (ds : List (ℕ → BenchComplex R)) (w : Work R) :
    Checks fails I (impulse0M p doFftM acmp ds w) (impulse0 p doFft ds w).2
      (impulse0 p doFft ds w) :=
  (hfft _ _).checks.bind
    ((hacmp _).bind (impulse0RoundsM_checks hfft hacmp ds _).bind_pure)

theorem impulseM_checks (ds ds' : List (ℕ → BenchComplex R)) (w : Work R) :
    Checks fails I (impulseM p doFftM acmp ds ds' w) (impulse p doFft ds ds' w).2
      (impulse p doFft ds ds' w) :=
  (impulse0M_checks hfft hacmp ds _).bind (impulse0M_checks hfft hacmp ds' _).bind_pure

variable (trig : Trig R) (whichShift : WhichShift)

theorem tfShiftRoundM_checks (nCur nBefore nAfter : ℕ) (d : ℕ → BenchComplex R) (w : Work R) :
    Checks fails I (tfShiftRoundM p doFftM acmp trig whichShift nCur nBefore nAfter d w)
      [(tfShiftRound p doFft trig whichShift nCur nBefore nAfter d w).2]
      (tfShiftRound p doFft trig whichShift nCur nBefore nAfter d w) := by
  cases whichShift with
  | timeShift =>
    exact (hfft _ _).checks.bind ((hfft _ _).checks.bind ((hacmp _).bind (Checks.pure _)))
  | freqShift =>
    exact (hfft _ _).checks.bind ((hfft _ _).checks.bind ((hacmp _).bind (Checks.pure _)))

theorem tfShiftRoundsM_checks (nCur nBefore nAfter : ℕ) (ds : List (ℕ → BenchComplex R))
    (w : Work R) :
    Checks fails I (tfShiftRoundsM p doFftM acmp trig whichShift nCur nBefore nAfter ds w)
      (tfShiftRounds p doFft trig whichShift nCur nBefore nAfter ds w).2
      (tfShiftRounds p doFft trig whichShift nCur nBefore nAfter ds w) := by
  induction ds generalizing w with
  | nil => exact Checks.pure _
  | cons d ds ih =>
    exact (tfShiftRoundM_checks hfft hacmp trig whichShift nCur nBefore nAfter d w).bind
      (ih _).bind_pure

theorem tfShiftDimsM_checks (n : List ℕ) (ds : ℕ → List (ℕ → BenchComplex R))
    (nBefore nAfter : ℕ) (w : Work R) :
    Checks fails I (tfShiftDimsM p doFftM acmp trig whichShift n ds nBefore nAfter w)
      (tfShiftDims p doFft trig whichShift n ds nBefore nAfter w).2
      (tfShiftDims p doFft trig whichShift n ds nBefore nAfter w) := by
  induction n generalizing ds nBefore nAfter w with
  | nil => exact Checks.pure _
  | cons nCur n ih =>
    exact (tfShiftRoundsM_checks hfft hacmp trig whichShift nCur nBefore _ (ds 0) w).bind
      (ih _ _ _ _).bind_pure

theorem doVerifyM_checks (ds : Draws R) (w : Work R) :
    Checks fails I (doVerifyM p doFftM acmp trig ds w) (doVerify p doFft trig ds w)
      (doVerify p doFft trig ds w) := by
  have hshift : ∀ (c : Prop) [Decidable c] (whichShift : WhichShift)
      (ds : ℕ → List (ℕ → BenchComplex R)) (w : Work R),
      Checks fails I (if c then tfShiftM p doFftM acmp trig whichShift ds w else pure (w, []))
        (if c then tfShift p doFft trig whichShift ds w else (w, [])).2
        (if c then tfShift p doFft trig whichShift ds w else (w, [])) := by
    intro c _ whichShift ds w
    split_ifs
    · exact tfShiftDimsM_checks hfft hacmp trig whichShift p.dims ds 1 _ w
    · exact Checks.pure _
  show Checks fails I _ (_ ++ _ ++ _ ++ _) _
  rw [List.append_assoc, List.append_assoc]
  exact (linearM_checks hfft hacmp ds.linear w).bind
    ((impulseM_checks hfft hacmp ds.unitImpulse ds.onesImpulse _).bind
      ((hshift _ .timeShift ds.timeShift _).bind (hshift _ .freqShift ds.freqShift _).bind_pure))

end BenchFFT.Verify
