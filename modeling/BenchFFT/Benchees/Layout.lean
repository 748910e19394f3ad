import BenchFFT.Problem.Copy1d

/-!
# What the routines of the packages use to convert real layouts

Each package has its own `copy_c2h` and `copy_h2c`.  They assign the parts of complex entries one at
a time, scale whole arrays (`ascale.c`, `cascale.c`) and look at `p->in` and `p->out` both as real
and as complex numbers.
-/

namespace BenchFFT

variable {R : Type*}

/-! ### Assignments to parts -/

/-- A part of a complex number. -/
inductive Part where
  | re
  | im
  deriving DecidableEq

namespace Part

def of : Part → BenchComplex R → R
  | re, a => a.re
  | im, a => a.im

def set : Part → (ℕ → BenchComplex R) → ℕ → R → ℕ → BenchComplex R
  | re => setRe
  | im => setIm

/-- The assignment of `x`, which reads a buffer, to a part of `out[i]`. -/
def put (q : Part) (out : ℕ → BenchComplex R) (i : ℕ) (x : Except Abort R) :
    Except Abort (ℕ → BenchComplex R) := do
  return q.set out i (← x)

end Part

/-- `c_re(out[i]) = x`. -/
def putRe (out : ℕ → BenchComplex R) (i : ℕ) (x : Except Abort R) :
    Except Abort (ℕ → BenchComplex R) :=
  Part.re.put out i x

/-- `c_im(out[i]) = x`. -/
def putIm (out : ℕ → BenchComplex R) (i : ℕ) (x : Except Abort R) :
    Except Abort (ℕ → BenchComplex R) :=
  Part.im.put out i x

/-- `c_re(out[i]) = x; c_re(out[j]) = x; c_im(out[i]) = y; c_im(out[j]) = z;` -/
def putPair (out : ℕ → BenchComplex R) (i j : ℕ) (x y z : Except Abort R) :
    Except Abort (ℕ → BenchComplex R) := do
  let out ← putRe out i x
  let out ← putRe out j x
  let out ← putIm out i y
  putIm out j z

/-! ### Scaling -/

def ascale [Mul R] (A : Buf R) (n : ℕ) (alpha : R) : Except Abort (Buf R) :=
  forRangeM n (fun i A => do A.write i ((← A.read i) * alpha)) A

def cascale [Mul R] [Add R] [Sub R] (A : ℕ → BenchComplex R) (n : ℕ) (alpha : BenchComplex R) :
    ℕ → BenchComplex R :=
  forRange n (fun i A =>
    let a := A i
    Function.update A i ⟨a.re * alpha.re - a.im * alpha.im, a.re * alpha.im + a.im * alpha.re⟩) A

/-! ### Pointers into a buffer -/

namespace Buf

/-- `(bench_real *) b`. -/
def reals (b : Buf (BenchComplex R)) : Buf R :=
  ⟨2 * b.size, fun i => if i % 2 = 0 then (b.cell (i / 2)).re else (b.cell (i / 2)).im⟩

/-- `(bench_complex *) b`. -/
def complexes (b : Buf R) : Buf (BenchComplex R) :=
  ⟨b.size / 2, fun i => ⟨b.cell (2 * i), b.cell (2 * i + 1)⟩⟩

end Buf

end BenchFFT
