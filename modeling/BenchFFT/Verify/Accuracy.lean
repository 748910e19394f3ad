import BenchFFT.Mp.Fft
import BenchFFT.Verify.Tests

/-!
# The accuracy test (`verify.c`)

`do_accuracy` transforms a random input in each round, has `fftaccuracy` measure the output against
the reference transform, and combines the six errors of the rounds.  What `arand` draws is an
argument, one draw for each round, and so is the transform under test, as for the tests of
`do_verify`.
-/

namespace BenchFFT.Verify

variable {R A : Type} [Field R]

/-- The rest of the preparation of an input, after `arand`. -/
def mkinput (p : Problem) (a : ℕ → BenchComplex R) (n : ℕ) : ℕ → BenchComplex R :=
  if p.kind = .real then if p.sign = -1 then mkreal a n else mkhermitian a 0 p.dims else a

variable [LT R] [DecidableLT R]

/-- `dmax` of `verify.c`. -/
def dmaxOf (x y : R) : R := if y < x then x else y

/-- `t[0] += err[0]; t[1] += err[1] * err[1]; t[2] = dmax(t[2], err[2]);` and the same for the
backward errors. -/
def addErrors (t err : R × R × R) : R × R × R :=
  (t.1 + err.1, t.2.1 + err.2.1 * err.2.1, dmaxOf t.2.2 err.2.2)

/-- `t[0] /= rounds; t[1] = sqrt(t[1] / rounds);` and the same for the backward errors. -/
def meanErrors (sqrt : R → R) (rounds : ℕ) (t : R × R × R) : R × R × R :=
  (t.1 / rounds, sqrt (t.2.1 / rounds), t.2.2)

/-- The arrays `a` and `b`, and `t`: the forward errors, and the backward ones. -/
structure Accuracy (R : Type) where
  a : ℕ → BenchComplex R
  b : ℕ → BenchComplex R
  forward : R × R × R
  backward : R × R × R

variable [Zero A] [Add A] [Sub A] [Mul A] (ar : Mp.Arith R A) (p : Problem)
  (doFft : (ℕ → BenchComplex R) → (ℕ → BenchComplex R) → ℕ → BenchComplex R)

def accuracyRound (n : ℕ) (s : Accuracy R) (d : ℕ → BenchComplex R) :
    Mp.Prog A (Accuracy R) := do
  let a := mkinput p (arand s.a n d) n
  let b := doFft a s.b
  let (forward, backward) ← Mp.fftaccuracy ar n a b p.sign
  pure ⟨a, b, addErrors s.forward forward, addErrors s.backward backward⟩

/-- The six numbers that are printed. -/
def accuracyRounds (n : ℕ) (ds : List (ℕ → BenchComplex R)) (a b : ℕ → BenchComplex R) :
    Mp.Prog A ((R × R × R) × (R × R × R)) := do
  let s ← ds.foldlM (accuracyRound ar p doFft n) ⟨a, b, (0, 0, 0), (0, 0, 0)⟩
  let forward := meanErrors ar.sqrt ds.length s.forward
  let backward := meanErrors ar.sqrt ds.length s.backward
  Mp.fftaccuracyDone
  pure (forward, backward)

/-- `a` and `b` are the arrays that `bench_malloc` returns. -/
def doAccuracy (ds : List (ℕ → BenchComplex R)) (a b : ℕ → BenchComplex R) :
    Except Abort (Mp.Prog A ((R × R × R) × (R × R × R))) := do
  benchAssert (p.rank = 1)
  benchAssert (p.vrank = 0)
  pure (accuracyRounds ar p doFft (p.dims.getD 0 0) ds a b)

end BenchFFT.Verify
