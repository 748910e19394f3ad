import BenchFFT.Mp.Fft

/-!
# Accuracy requests (`verify.c`, `bench-main.c`)

`do_accuracy` calls `fftaccuracy` once in each round and `fftaccuracy_done` at its end; a process
serves one request after the other.  What it computes with the errors of the rounds is left out.
-/

namespace BenchFFT.Mp

variable {A R : Type}

/-- Numbers whose operations always return, and do not depend on the static variables. -/
structure PureArith (R A : Type) where
  fromreal : R → A
  toreal : A → R
  inv : A → A
  cexp : ℤ → ℤ → A × A
  sqrt : R → R

def PureArith.toArith (ar : PureArith R A) : Arith R A where
  fromreal x := some (ar.fromreal x)
  toreal := ar.toreal
  inv x := some (ar.inv x)
  cexpBuiltin m n := pure (ar.cexp m n)
  sqrt := ar.sqrt

/-- A request: the size, the sign, and the input and output of the transform under test in each
round.  No `int` of `mp.c` overflows for a size below `2 ^ 28`. -/
structure Request (R : Type) where
  n : ℕ
  pos : 1 ≤ n
  lt : n < 2 ^ 28
  sign : ℤ
  rounds : List ((ℕ → BenchComplex R) × (ℕ → BenchComplex R))

section Calls

variable [Zero A] [Add A] [Sub A] [Mul A] [IntCast R] [Div R] [Zero R] [Add R] [Mul R] [Neg R]
  [LT R] [DecidableLT R] (ar : Arith R A)

def doAccuracy (r : Request R) : Prog A PUnit := do
  r.rounds.forM fun (a, ffta) => do
    let _ ← fftaccuracy ar r.n a ffta r.sign
  fftaccuracyDone

/-- The requests that a process serves. -/
def serve (rs : List (Request R)) : Prog A PUnit := rs.forM (doAccuracy ar)

end Calls

end BenchFFT.Mp
