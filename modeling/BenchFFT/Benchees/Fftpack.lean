import BenchFFT.Benchees.Benchee

/-!
# The benchees `fftpack` and `dfftpack` (`benchees/fftpack/doit.c`, `benchees/dfftpack/doit.c`)

The two call the routines of FFTPACK in one precision and in the other, and are the same otherwise.
FFTPACK is a parameter: the tables that `cffti` and `rffti` leave in `WSAVE`, and what the
transforms make of an array with these tables.
-/

namespace BenchFFT

variable {R : Type}

structure Fftpack (R : Type) where
  cffti : ℕ → ℕ → R
  rffti : ℕ → ℕ → R
  cfftf : ℕ → Buf R → (ℕ → R) → Buf R
  cfftb : ℕ → Buf R → (ℕ → R) → Buf R
  rfftf : ℕ → Buf R → (ℕ → R) → Buf R
  rfftb : ℕ → Buf R → (ℕ → R) → Buf R

namespace Fftpack

section Copies

variable [Zero R] [One R] [Mul R] [Neg R]

def copyH2c : CopyTo R := fun p io out => copyH2c1dFftpack u32 p io.pout out (-1)

def copyC2h : CopyFrom R := fun p inp =>
  IoBuffers.onIn fun pin => copyC2h1dFftpack u32 p pin inp (-1)

end Copies

variable (fftpack : Fftpack R)

/-- `WSAVE`, from `setup` on. -/
def wsave (p : Problem) : ℕ → R :=
  let n := p.dims.headD 0
  match p.kind with
  | .complex => fftpack.cffti n
  | .real => fftpack.rffti n

def setup (canDo : Problem → Bool) (p : Problem) (io : IoBuffers R) :
    Except Abort (IoBuffers R) := do
  benchAssert (canDo p)
  return io

def doit (iter : ℕ) (p : Problem) (io : IoBuffers R) : Except Abort (IoBuffers R) :=
  let n := p.dims.headD 0
  let routine := match p.kind with
    | .complex => if p.sign = -1 then fftpack.cfftf else fftpack.cfftb
    | .real => if p.sign = -1 then fftpack.rfftf else fftpack.rfftb
  return forRange iter (fun _ io => { io with inp := routine n io.inp (fftpack.wsave p) }) io

/-- Either benchee, but for its precision. -/
def benchee [Zero R] [One R] [Mul R] [Neg R] (canDo : Problem → Bool) : Benchee R where
  canDo := canDo
  setup := setup canDo
  doit := fftpack.doit
  copyC2h := copyC2h
  copyH2c := copyH2c

end Fftpack

namespace Benchees

variable [Zero R] [One R] [Mul R] [Neg R] (sizeofReal : UInt64) (routines : Fftpack R)

def fftpack : Benchee R := routines.benchee fun p =>
  singlePrecision sizeofReal && p.rank = 1 && problemInPlace p

def dfftpack : Benchee R := routines.benchee fun p =>
  doublePrecision sizeofReal && p.rank = 1 && problemInPlace p

end Benchees

end BenchFFT
