import BenchFFT.BenchUser
import BenchFFT.Loop
import BenchFFT.Verify.Hermitian
import Mathlib.Algebra.Field.Basic

/-!
# The verifier's tests (`verify.c`)

The three tests of `do_verify`, in exact arithmetic over a field `R`.  What `arand` draws is an
argument, one draw for each round, so a statement about every draw is a statement about every run.
The working arrays of `do_verify` are passed along as `Work`.

The tests run in a monad `m`: `doFft` takes the input array and the old contents of the output
array to the new ones, and what one of its calls leaves in memory the next one finds there; `acmp`
gets pairs of arrays and may stop the run.  A test returns the pairs, in order, as `Comparison`s;
the errors that `acmp` computes from them are only printed.

In the identity monad the transform is a function and `acmp` lets everything pass.  These instances
have the names of the source, the programs an `M` behind them.
-/

namespace BenchFFT.Verify

universe u v

variable {R : Type u}

/-- The trigonometric functions and `K2PI` of the build. -/
structure Trig (R : Type*) where
  sin : R → R
  cos : R → R
  k2pi : R

/-- The arrays `do_verify` allocates. -/
structure Work (R : Type*) where
  inA : ℕ → BenchComplex R
  inB : ℕ → BenchComplex R
  inC : ℕ → BenchComplex R
  outA : ℕ → BenchComplex R
  outB : ℕ → BenchComplex R
  outC : ℕ → BenchComplex R
  tmp : ℕ → BenchComplex R

/-- The label `acmp` is given. -/
inductive Test where
  | linearity
  | impulseResponse1
  | impulseResponse
  | timeShift
  | freqShift
  deriving DecidableEq, Repr

/-- A call `acmp(A, B, n, test, tol)`. -/
structure Comparison (R : Type*) where
  A : ℕ → BenchComplex R
  B : ℕ → BenchComplex R
  n : ℕ
  test : Test

/-- The two compared arrays are equal. -/
def Comparison.Holds (c : Comparison R) : Prop := ∀ i < c.n, c.A i = c.B i

/-! ### Array helpers -/

/-- `arand`, drawing `x`. -/
def arand (A : ℕ → BenchComplex R) (n : ℕ) (x : ℕ → BenchComplex R) : ℕ → BenchComplex R :=
  forRange n (fun i A => Function.update A i (x i)) A

def caset (A : ℕ → BenchComplex R) (n : ℕ) (x : BenchComplex R) : ℕ → BenchComplex R :=
  forRange n (fun i A => Function.update A i x) A

/-- `B = ` rotate left `A`. -/
def arol (B A : ℕ → BenchComplex R) (n nBefore nAfter : ℕ) : ℕ → BenchComplex R :=
  forRange nBefore (fun ib B =>
    let B := forRange (n - 1) (fun i B =>
      forRange nAfter (fun ia B =>
        Function.update B ((ib * n + i) * nAfter + ia) (A ((ib * n + i + 1) * nAfter + ia))) B) B
    forRange nAfter (fun ia B =>
      Function.update B ((ib * n + n - 1) * nAfter + ia) (A (ib * n * nAfter + ia))) B) B

/-- `do_fft`, for a transform `F` of arrays of length `N`. -/
def doFftOf {N : ℕ} (F : (Fin N → BenchComplex R) → Fin N → BenchComplex R)
    (inp out : ℕ → BenchComplex R) : ℕ → BenchComplex R := fun i =>
  if h : i < N then F (fun j => inp j) ⟨i, h⟩ else out i

variable [Field R]

/-- Make array real. -/
def mkreal (A : ℕ → BenchComplex R) (n : ℕ) : ℕ → BenchComplex R :=
  forRange n (fun i A => Function.update A i ⟨(A i).re, 0⟩) A

def cascale (A : ℕ → BenchComplex R) (n : ℕ) (alpha : BenchComplex R) : ℕ → BenchComplex R :=
  forRange n (fun i A =>
    let a := A i
    Function.update A i
      ⟨a.re * alpha.re - a.im * alpha.im, a.re * alpha.im + a.im * alpha.re⟩) A

/-- `C = A + B`. -/
def caadd (C A B : ℕ → BenchComplex R) (n : ℕ) : ℕ → BenchComplex R :=
  forRange n (fun i C =>
    Function.update C i ⟨(A i).re + (B i).re, (A i).im + (B i).im⟩) C

/-- `C = A - B`. -/
def asub (C A B : ℕ → BenchComplex R) (n : ℕ) : ℕ → BenchComplex R :=
  forRange n (fun i C =>
    Function.update C i ⟨(A i).re - (B i).re, (A i).im - (B i).im⟩) C

def aphaseShift (trig : Trig R) (B A : ℕ → BenchComplex R) (n nBefore nAfter : ℕ) (sign : R) :
    ℕ → BenchComplex R :=
  let twopin := trig.k2pi / n
  forRange nBefore (fun jb B =>
    forRange n (fun j B =>
      let s := sign * trig.sin (j * twopin)
      let c := trig.cos (j * twopin)
      forRange nAfter (fun ja B =>
        let index := (jb * n + j) * nAfter + ja
        Function.update B index
          ⟨(A index).re * c - (A index).im * s, (A index).re * s + (A index).im * c⟩) B) B) B

/-! ### Test 1: linearity -/

/-- What one round of `linear` draws. -/
structure LinearDraw (R : Type*) where
  alpha : BenchComplex R
  beta : BenchComplex R
  A : ℕ → BenchComplex R
  B : ℕ → BenchComplex R

variable {m : Type u → Type v} [Monad m] (p : Problem)
  (doFft : (ℕ → BenchComplex R) → (ℕ → BenchComplex R) → m (ℕ → BenchComplex R))
  (acmp : Comparison R → m PUnit)

def linearRoundM (d : LinearDraw R) (w : Work R) : m (Work R × Comparison R) := do
  let N := p.size.toNat
  -- real problems draw real coefficients
  let alpha : BenchComplex R := ⟨d.alpha.re, if p.kind = .complex then d.alpha.im else 0⟩
  let beta : BenchComplex R := ⟨d.beta.re, if p.kind = .complex then d.beta.im else 0⟩
  let inA := arand w.inA N d.A
  let inB := arand w.inB N d.B
  let outA ← doFft inA w.outA
  let outB ← doFft inB w.outB
  let outA := cascale outA N alpha
  let outB := cascale outB N beta
  let tmp := caadd w.tmp outA outB N
  let inA := cascale inA N alpha
  let inB := cascale inB N beta
  let inC := caadd w.inC inA inB N
  let outC ← doFft inC w.outC
  acmp ⟨outC, tmp, N, .linearity⟩
  return ({ w with inA, inB, inC, outA, outB, outC, tmp }, ⟨outC, tmp, N, .linearity⟩)

/-- The rounds of `linear`, one for each draw. -/
def linearM : List (LinearDraw R) → Work R → m (Work R × List (Comparison R))
  | [], w => pure (w, [])
  | d :: ds, w => do
    let s ← linearRoundM p doFft acmp d w
    let t ← linearM ds s.1
    return (t.1, s.2 :: t.2)

/-! ### Test 2: impulse response -/

def impulse0RoundM (d : ℕ → BenchComplex R) (w : Work R) : m (Work R × Comparison R) := do
  let n := p.size.toNat
  let inB := arand w.inB n d
  let inC := asub w.inC w.inA inB n
  let outB ← doFft inB w.outB
  let outC ← doFft inC w.outC
  let tmp := caadd w.tmp outB outC n
  acmp ⟨tmp, w.outA, n, .impulseResponse⟩
  return ({ w with inB, inC, outB, outC, tmp }, ⟨tmp, w.outA, n, .impulseResponse⟩)

def impulse0RoundsM : List (ℕ → BenchComplex R) → Work R → m (Work R × List (Comparison R))
  | [], w => pure (w, [])
  | d :: ds, w => do
    let s ← impulse0RoundM p doFft acmp d w
    let t ← impulse0RoundsM ds s.1
    return (t.1, s.2 :: t.2)

/-- A simple test first, then the rounds. -/
def impulse0M (ds : List (ℕ → BenchComplex R)) (w : Work R) :
    m (Work R × List (Comparison R)) := do
  let n := p.size.toNat
  let outB ← doFft w.inA w.outB
  acmp ⟨outB, w.outA, n, .impulseResponse1⟩
  let t ← impulse0RoundsM p doFft acmp ds { w with outB }
  return (t.1, ⟨outB, w.outA, n, .impulseResponse1⟩ :: t.2)

/-- `impulse` up to its first call of `impulse0`: the unit impulse. -/
def unitImpulseM (ds : List (ℕ → BenchComplex R)) (w : Work R) :
    m (Work R × List (Comparison R)) :=
  let n := p.size.toNat
  let inA := caset w.inA n ⟨0, 0⟩
  let inA := Function.update inA 0 ⟨1, 0⟩
  let outA := caset w.outA n ⟨1, 0⟩
  impulse0M p doFft acmp ds { w with inA, outA }

/-- The rest of `impulse`: `ones(n, 1)`. -/
def onesImpulseM (ds : List (ℕ → BenchComplex R)) (w : Work R) :
    m (Work R × List (Comparison R)) :=
  let n := p.size.toNat
  let inA := caset w.inA n ⟨1, 0⟩
  let outA := caset w.outA n ⟨0, 0⟩
  let outA := Function.update outA 0 ⟨n, (outA 0).im⟩
  impulse0M p doFft acmp ds { w with inA, outA }

def impulseM (ds ds' : List (ℕ → BenchComplex R)) (w : Work R) :
    m (Work R × List (Comparison R)) := do
  let s ← unitImpulseM p doFft acmp ds w
  let t ← onesImpulseM p doFft acmp ds' s.1
  return (t.1, s.2 ++ t.2)

/-! ### Test 3: time and frequency shift -/

/-- `TIME_SHIFT` or `FREQ_SHIFT`. -/
inductive WhichShift where
  | timeShift
  | freqShift
  deriving DecidableEq, Repr

variable (trig : Trig R)

/-- One round of `tf_shift` along a dimension of length `nCur`. -/
def tfShiftRoundM (whichShift : WhichShift) (nCur nBefore nAfter : ℕ) (d : ℕ → BenchComplex R)
    (w : Work R) : m (Work R × Comparison R) := do
  let n := p.size.toNat
  let sign : R := p.sign
  let inA := arand w.inA n d
  match whichShift with
  | .timeShift =>
    let inA := if p.kind = .real then mkreal inA n else inA
    let inB := arol w.inB inA nCur nBefore nAfter
    let outA ← doFft inA w.outA
    let outB ← doFft inB w.outB
    let tmp := aphaseShift trig w.tmp outB nCur nBefore nAfter sign
    acmp ⟨tmp, outA, n, .timeShift⟩
    return ({ w with inA, inB, outA, outB, tmp }, ⟨tmp, outA, n, .timeShift⟩)
  | .freqShift =>
    let inA := if p.kind = .real then mkhermitian inA 0 p.dims else inA
    let inB := aphaseShift trig w.inB inA nCur nBefore nAfter (-sign)
    let outA ← doFft inA w.outA
    let outB ← doFft inB w.outB
    let tmp := arol w.tmp outB nCur nBefore nAfter
    acmp ⟨tmp, outA, n, .freqShift⟩
    return ({ w with inA, inB, outA, outB, tmp }, ⟨tmp, outA, n, .freqShift⟩)

def tfShiftRoundsM (whichShift : WhichShift) (nCur nBefore nAfter : ℕ) :
    List (ℕ → BenchComplex R) → Work R → m (Work R × List (Comparison R))
  | [], w => pure (w, [])
  | d :: ds, w => do
    let s ← tfShiftRoundM p doFft acmp trig whichShift nCur nBefore nAfter d w
    let t ← tfShiftRoundsM whichShift nCur nBefore nAfter ds s.1
    return (t.1, s.2 :: t.2)

/-- The loop of `tf_shift` over the remaining dimensions; `ds 0` is drawn for the first of them. -/
def tfShiftDimsM (whichShift : WhichShift) :
    List ℕ → (ℕ → List (ℕ → BenchComplex R)) → ℕ → ℕ → Work R →
      m (Work R × List (Comparison R))
  | [], _, _, _, w => pure (w, [])
  | nCur :: n, ds, nBefore, nAfter, w => do
    let nAfter := nAfter / nCur
    let s ← tfShiftRoundsM p doFft acmp trig whichShift nCur nBefore nAfter (ds 0) w
    let t ← tfShiftDimsM whichShift n (fun dim => ds (dim + 1)) (nBefore * nCur) nAfter s.1
    return (t.1, s.2 ++ t.2)

def tfShiftM (whichShift : WhichShift) (ds : ℕ → List (ℕ → BenchComplex R)) (w : Work R) :
    m (Work R × List (Comparison R)) :=
  tfShiftDimsM p doFft acmp trig whichShift p.dims ds 1 p.size.toNat w

/-! ### All tests -/

/-- What a run of `do_verify` draws. -/
structure Draws (R : Type*) where
  linear : List (LinearDraw R)
  unitImpulse : List (ℕ → BenchComplex R)
  onesImpulse : List (ℕ → BenchComplex R)
  timeShift : ℕ → List (ℕ → BenchComplex R)
  freqShift : ℕ → List (ℕ → BenchComplex R)

/-- The comparisons `do_verify` makes, in order. -/
def doVerifyM (ds : Draws R) (w : Work R) : m (List (Comparison R)) := do
  let el ← linearM p doFft acmp ds.linear w
  let ei ← impulseM p doFft acmp ds.unitImpulse ds.onesImpulse el.1
  let es ← (if p.kind = .complex ∨ p.sign = -1 then
    tfShiftM p doFft acmp trig .timeShift ds.timeShift ei.1 else pure (ei.1, []))
  let es' ← (if p.kind = .complex ∨ p.sign = 1 then
    tfShiftM p doFft acmp trig .freqShift ds.freqShift es.1 else pure (es.1, []))
  return el.2 ++ ei.2 ++ es.2 ++ es'.2

/-! ### The tests on a function -/

section Id

variable (doFft : (ℕ → BenchComplex R) → (ℕ → BenchComplex R) → ℕ → BenchComplex R)
  (trig : Trig R)

/-- `acmp` when it stops nothing. -/
def pass (_ : Comparison R) : Id PUnit := ⟨⟩

def linearRound (d : LinearDraw R) (w : Work R) : Work R × Comparison R :=
  linearRoundM (m := Id) p doFft pass d w

def linear (ds : List (LinearDraw R)) (w : Work R) : Work R × List (Comparison R) :=
  linearM (m := Id) p doFft pass ds w

def impulse0Round (d : ℕ → BenchComplex R) (w : Work R) : Work R × Comparison R :=
  impulse0RoundM (m := Id) p doFft pass d w

def impulse0Rounds (ds : List (ℕ → BenchComplex R)) (w : Work R) :
    Work R × List (Comparison R) :=
  impulse0RoundsM (m := Id) p doFft pass ds w

def impulse0 (ds : List (ℕ → BenchComplex R)) (w : Work R) : Work R × List (Comparison R) :=
  impulse0M (m := Id) p doFft pass ds w

def unitImpulse (ds : List (ℕ → BenchComplex R)) (w : Work R) : Work R × List (Comparison R) :=
  unitImpulseM (m := Id) p doFft pass ds w

def onesImpulse (ds : List (ℕ → BenchComplex R)) (w : Work R) : Work R × List (Comparison R) :=
  onesImpulseM (m := Id) p doFft pass ds w

def impulse (ds ds' : List (ℕ → BenchComplex R)) (w : Work R) : Work R × List (Comparison R) :=
  impulseM (m := Id) p doFft pass ds ds' w

def tfShiftRound (whichShift : WhichShift) (nCur nBefore nAfter : ℕ) (d : ℕ → BenchComplex R)
    (w : Work R) : Work R × Comparison R :=
  tfShiftRoundM (m := Id) p doFft pass trig whichShift nCur nBefore nAfter d w

def tfShiftRounds (whichShift : WhichShift) (nCur nBefore nAfter : ℕ)
    (ds : List (ℕ → BenchComplex R)) (w : Work R) : Work R × List (Comparison R) :=
  tfShiftRoundsM (m := Id) p doFft pass trig whichShift nCur nBefore nAfter ds w

def tfShiftDims (whichShift : WhichShift) (n : List ℕ) (ds : ℕ → List (ℕ → BenchComplex R))
    (nBefore nAfter : ℕ) (w : Work R) : Work R × List (Comparison R) :=
  tfShiftDimsM (m := Id) p doFft pass trig whichShift n ds nBefore nAfter w

def tfShift (whichShift : WhichShift) (ds : ℕ → List (ℕ → BenchComplex R)) (w : Work R) :
    Work R × List (Comparison R) :=
  tfShiftM (m := Id) p doFft pass trig whichShift ds w

/-- The comparisons `do_verify` makes, in order. -/
def doVerify (ds : Draws R) (w : Work R) : List (Comparison R) :=
  doVerifyM (m := Id) p doFft pass trig ds w

end Id

end BenchFFT.Verify
