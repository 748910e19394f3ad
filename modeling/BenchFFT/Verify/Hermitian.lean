import BenchFFT.BenchUser
import BenchFFT.Loop
import Mathlib.Algebra.BigOperators.Group.List.Defs
import Mathlib.Algebra.Group.Defs

/-!
# Making an array hermitian (`verify.c`)

The pointers `Ac` and `A` of the source point into one array: here they are offsets into it.
-/

namespace BenchFFT.Verify

variable {R : Type*} [Zero R] [Neg R]

/-- Write the conjugate of the slab at `a`, reversed in every dimension, to the slab at `ac`. -/
def assignConj (A : ℕ → BenchComplex R) (ac a : ℕ) : List ℕ → ℕ → ℕ → BenchComplex R
  | [], _ => Function.update A ac ⟨(A a).re, -(A a).im⟩
  | n0 :: n, size =>
    let size := size / n0
    let A := assignConj A ac a n size
    -- `i = j + 1` runs from `1` to `n0 - 1`
    forRange (n0 - 1) (fun j A =>
      assignConj A (ac + (n0 - (j + 1)) * size) (a + (j + 1) * size) n size) A

/-- Make the slab at `a` hermitian. -/
def mkhermitian (A : ℕ → BenchComplex R) (a : ℕ) : List ℕ → ℕ → BenchComplex R
  | [] => Function.update A a ⟨(A a).re, 0⟩
  | n0 :: n =>
    let A := mkhermitian A a n
    let size := n.prod
    -- `i = j + 1` runs through `1, 2, …` while `2 * i < n0`
    let A := forRange ((n0 - 1) / 2) (fun j A =>
      assignConj A (a + (n0 - (j + 1)) * size) (a + (j + 1) * size) n size) A
    let i := (n0 - 1) / 2 + 1
    if 2 * i = n0 then mkhermitian A (a + i * size) n else A

end BenchFFT.Verify
