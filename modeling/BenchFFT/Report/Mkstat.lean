import BenchFFT.Loop
import Mathlib.Algebra.Field.Defs
import Mathlib.Algebra.Order.Ring.Defs
import Mathlib.Order.Lattice

/-!
# Statistics of the measured times (`report.c`)

`mkstat` is written over any field of exact numbers with a decidable order.
-/

namespace BenchFFT

/-- `struct stats`. -/
structure Stats (K : Type*) where
  min : K
  max : K
  avg : K
  median : K
  deriving DecidableEq

namespace Stats

variable {K : Type*}

section Loops

variable [LinearOrder K]

/-- The body of the first loop. -/
def note [Add K] (t : ℕ → K) (i : ℕ) (a : Stats K) : Stats K :=
  let a := if t i < a.min then { a with min := t i } else a
  let a := if t i > a.max then { a with max := t i } else a
  { a with avg := a.avg + t i }

/-- The body of the sort: both cells are written with what was read from them. -/
def exchange (j : ℕ) (t : ℕ → K) : ℕ → K :=
  let t0 := t j
  let t1 := t (j + 1)
  if t0 > t1 then Function.update (Function.update t j t0) (j + 1) t1 else t

/-- `for (i = st - 1; i > 1; --i) for (j = 0; j < i - 1; ++j)`. -/
def bubblesort (t : ℕ → K) (st : ℕ) : ℕ → K :=
  forRange (st - 2) (fun s => forRange (st - 1 - s - 1) exchange) t

end Loops

/-- The array and the statistics that `mkstat(t, st, a)` leaves. -/
def mkstat [Field K] [LinearOrder K] (t : ℕ → K) (st : ℕ) (a : Stats K) : (ℕ → K) × Stats K :=
  let a := { a with min := t 0, max := t 0, avg := 0 }
  let a := forRange st (note t) a
  let a := { a with avg := a.avg / st }
  let t := bubblesort t st
  (t, { a with median := t (st / 2) })

end Stats

end BenchFFT
