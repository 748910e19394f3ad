import BenchFFT.Benchees.Benchee

/-!
# The benchee `fftw3` (`benchees/fftw3/doit.c`)

Hermitian arrays are unpacked; real arrays are packed, or, in place, unpacked with padded rows.
FFTW is a parameter: what a planner does to the arrays, and what executing its plan does.
-/

namespace BenchFFT

variable {R : Type}

namespace Fftw

/-- A call of a planner; its flags do not change what the plan computes. -/
inductive Plan where
  | dft (n : List ℕ) (sign : ℤ)
  | dftR2c (n : List ℕ)
  | dftC2r (n : List ℕ)
  deriving DecidableEq, Repr

end Fftw

structure Fftw (R : Type) where
  /-- The arrays after planning, which may overwrite them; there is none if no plan is found. -/
  plan : Fftw.Plan → IoBuffers R → Option (IoBuffers R)
  /-- The arrays after executing a plan. -/
  execute : Fftw.Plan → IoBuffers R → IoBuffers R

namespace Fftw3

/-- `the_plan`. -/
def thePlan (p : Problem) : Fftw.Plan :=
  match p.kind with
  | .complex => .dft p.dims p.sign
  | .real => if p.sign = -1 then .dftR2c p.dims else .dftC2r p.dims

def canDo (_ : Problem) : Bool := true

section Copies

variable [Zero R] [One R] [Mul R] [Neg R]

def copyH2c : CopyTo R := fun p io out => copyH2cUnpacked u32 p io.pout.complexes out (-1)

def copyC2h : CopyFrom R := fun p inp =>
  IoBuffers.onIn (Buf.onComplexes fun pin => copyC2hUnpacked u32 p pin inp (-1))

def copyR2c : CopyTo R := fun p io out =>
  if p.inPlace then copyR2cUnpacked u32 p io.pout out else copyR2cPacked p io.pout out

def copyC2r : CopyFrom R := fun p inp => IoBuffers.onIn fun pin =>
  if p.inPlace then copyC2rUnpacked u32 p pin inp else copyC2rPacked p pin inp

end Copies

def setup (fftw : Fftw R) (p : Problem) (io : IoBuffers R) : Except Abort (IoBuffers R) := do
  benchAssert (canDo p)
  match fftw.plan (thePlan p) io with
  | none => throw .assertFailed
  | some io => return io

def doit (fftw : Fftw R) (iter : ℕ) (p : Problem) (io : IoBuffers R) :
    Except Abort (IoBuffers R) :=
  return forRange iter (fun _ io => fftw.execute (thePlan p) io) io

def benchee [Zero R] [One R] [Mul R] [Neg R] (fftw : Fftw R) : Benchee R where
  canDo := canDo
  setup := setup fftw
  doit := doit fftw
  copyC2r := copyC2r
  copyC2h := copyC2h
  copyR2c := copyR2c
  copyH2c := copyH2c

end Fftw3

end BenchFFT
