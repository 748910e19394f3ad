import BenchFFT.BenchUser
import BenchFFT.ExtNum

/-!
# Comparing two arrays (`verify.c`)

`cerror` folds the error and the magnitude of two arrays with bare comparisons; `acmp` rejects the
pair when the relative error exceeds the tolerance.
-/

namespace BenchFFT.Verify

variable {K : Type*} [Field K] [LinearOrder K]

/-- `(x < 0.0) ? -x : x`. -/
def dabs (x : ExtNum K) : ExtNum K := if x < 0 then -x else x

/-- `(x > y) ? x : y`. -/
def dmax (x y : ExtNum K) : ExtNum K := if y < x then x else y

/-- `(x < y) ? x : y`. -/
def dmin (x y : ExtNum K) : ExtNum K := if x < y then x else y

def norm2 (x y : ExtNum K) : ExtNum K := dmax (dabs x) (dabs y)

/-- What index `i` contributes to `mag`. -/
def magAt (A B : ℕ → BenchComplex (ExtNum K)) (i : ℕ) : ExtNum K :=
  dmin (norm2 (A i).re (A i).im) (norm2 (B i).re (B i).im)

/-- What index `i` contributes to `error`. -/
def errAt (A B : ℕ → BenchComplex (ExtNum K)) (i : ℕ) : ExtNum K :=
  norm2 ((A i).re - (B i).re) ((A i).im - (B i).im)

/-- `error` and `mag` after the loop of `cerror`. -/
def cerrorLoop (A B : ℕ → BenchComplex (ExtNum K)) (n : ℕ) : ExtNum K × ExtNum K :=
  (List.range n).foldl
    (fun s i => (dmax s.1 (errAt A B i), dmax s.2 (magAt A B i))) (0, 0)

def cerror (A B : ℕ → BenchComplex (ExtNum K)) (n : ℕ) : Except Abort (ExtNum K) := do
  let s := cerrorLoop A B n
  let error := s.1 / s.2
  benchAssert ¬error.isnan
  return error

/-- What `acmp` prints before it exits is left out. -/
def acmp (A B : ℕ → BenchComplex (ExtNum K)) (n : ℕ) (tol : ExtNum K) :
    Except Abort (ExtNum K) := do
  let d ← cerror A B n
  if tol < d then throw .exitFailure
  return d

/-- An array of numbers. -/
def numbers (A : ℕ → BenchComplex K) : ℕ → BenchComplex (ExtNum K) :=
  fun i => ⟨.fin (A i).re, .fin (A i).im⟩

end BenchFFT.Verify
