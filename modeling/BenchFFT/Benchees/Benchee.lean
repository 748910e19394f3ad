import BenchFFT.Mp.Fft
import BenchFFT.Problem.Io

/-!
# What a package supplies (`ccopy-from.c`, `ccopy-to.c`, `copy-*.c`, `accopy-*.c`)

A benchee is linked from the library and a package's own routines; where the package has none, the
library's default is taken.  The defaults of `copy_c2h` and `copy_h2c` fail, since there is no
standard hermitian layout.
-/

namespace BenchFFT

variable {R : Type}

/-- A routine that fills `p->in` from a complex array. -/
abbrev CopyFrom (R : Type) :=
  Problem → (ℕ → BenchComplex R) → IoBuffers R → Except Abort (IoBuffers R)

/-- A routine that fills a complex array from `p->out`. -/
abbrev CopyTo (R : Type) :=
  Problem → IoBuffers R → (ℕ → BenchComplex R) → Except Abort (ℕ → BenchComplex R)

structure Benchee (R : Type) [Zero R] where
  canDo : Problem → Bool
  setup : Problem → IoBuffers R → Except Abort (IoBuffers R)
  doit : ℕ → Problem → IoBuffers R → Except Abort (IoBuffers R)
  copyC2cFrom : CopyFrom R := fun p inp =>
    IoBuffers.onIn (Buf.onComplexes fun pin => BenchFFT.copyC2cFrom p pin inp)
  copyC2cTo : CopyTo R := fun p io out => BenchFFT.copyC2cTo p io.pout.complexes out
  copyC2r : CopyFrom R := fun p inp => IoBuffers.onIn fun pin => copyC2rPacked p pin inp
  copyC2h : CopyFrom R := fun _ _ _ => .error .assertFailed
  copyR2c : CopyTo R := fun p io out => copyR2cPacked p io.pout out
  copyH2c : CopyTo R := fun _ _ _ => .error .assertFailed
  afterProblemCcopyFrom : CopyFrom R := fun _ _ io => .ok io
  afterProblemCcopyTo : CopyTo R := fun _ _ out => .ok out

namespace Benchee

variable [Zero R] (b : Benchee R)

def problemCcopyFrom : CopyFrom R := fun p inp io => do
  let io ← match p.kind with
    | .complex => b.copyC2cFrom p inp io
    | .real =>
      -- forward real->hermitian transform, or backward hermitian->real transform
      if p.sign = -1 then b.copyC2r p inp io else b.copyC2h p inp io
  b.afterProblemCcopyFrom p inp io

def problemCcopyTo : CopyTo R := fun p io out => do
  let out ← match p.kind with
    | .complex => b.copyC2cTo p io out
    | .real =>
      -- forward real->hermitian transform, or backward hermitian->real transform
      if p.sign = -1 then b.copyH2c p io out else b.copyR2c p io out
  b.afterProblemCcopyTo p io out

end Benchee

/-! ### What a package asks for (`bench-user.h`, `problem.c`, `log2.c`, `unnormalize.c`) -/

/-- `DOUBLE_PRECISION`, where a `double` has eight bytes. -/
def doublePrecision (sizeofReal : UInt64) : Bool := sizeofReal = 8

/-- `SINGLE_PRECISION`, where a `float` has four bytes. -/
def singlePrecision (sizeofReal : UInt64) : Bool := !doublePrecision sizeofReal && sizeofReal = 4

def problemInPlace (p : Problem) : Bool := p.inPlace

/-- Most routines choke for `N = 1`. -/
def problemPowerOfTwo (p : Problem) (inPlace : Bool) : Bool :=
  p.dims.all (fun n => n != 1 && Mp.powerOfTwo n) && if inPlace then p.inPlace else !p.inPlace

def problemRealPowerOfTwo (p : Problem) (inPlace : Bool) : Bool :=
  p.kind = .real && problemPowerOfTwo p inPlace

/-- `while (n > 1) { ++m; n >>= 1; }` -/
def log2Loop (n m : ℕ) : ℕ := if n > 1 then log2Loop (n / 2) (m + 1) else m

/-- `log_2`. -/
def log2 (n : ℕ) : ℕ := log2Loop n 0

/-- Undo the normalization. -/
def unnormalize [Mul R] [Add R] [Sub R] [Zero R] [NatCast R] (p : Problem)
    (out : ℕ → BenchComplex R) (whichSign : ℤ) : ℕ → BenchComplex R :=
  if p.sign = whichSign then cascale out p.size.toNat ⟨(p.size.toNat : R), 0⟩ else out

end BenchFFT
