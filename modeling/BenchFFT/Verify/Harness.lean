import BenchFFT.Benchees.Benchee
import BenchFFT.Problem.Parse
import BenchFFT.Verify.Acmp
import BenchFFT.Verify.Tests

/-!
# Verifying a benchee (`verify.c`)

`verify` from the problem description on: the buffers are allocated and zeroed, the benchee is set
up, and every `do_fft` of the tests copies its input into `p->in`, runs the benchee once and copies
`p->out` back.  The tests call `acmp` with the tolerance of the command line.
-/

namespace BenchFFT.Verify

variable {R : Type}

def doFft [Zero R] (b : Benchee R) (p : Problem) (inp out : ℕ → BenchComplex R) :
    StateT (IoBuffers R) (Except Abort) (ℕ → BenchComplex R) := fun io => do
  let io ← b.problemCcopyFrom p inp io
  let io ← b.doit 1 p io
  let out ← b.problemCcopyTo p io out
  return (out, io)

/-- `acmp` on arrays of numbers. -/
def Comparison.acmp [Field R] [LinearOrder R] (tol : ExtNum R) (c : Comparison R) :
    StateT (IoBuffers R) (Except Abort) PUnit := do
  let _ ← Verify.acmp (numbers c.A) (numbers c.B) c.n tol

/-- The comparisons that `verify` makes, when it returns.  `inCell` and `outCell` are what
`problem_alloc` finds in the blocks, `w` what `do_verify` finds in its arrays. -/
def verify [Field R] [LinearOrder R] (b : Benchee R) (sizeofReal : UInt64) (trig : Trig R)
    (tol : ExtNum R) (param : List Char) (inCell outCell : ℕ → R) (ds : Draws R) (w : Work R) :
    Except Abort (List (Comparison R)) := do
  let p ← problemParse param
  benchAssert (b.canDo p)
  let io := IoBuffers.alloc sizeofReal p inCell outCell
  let io ← io.zero p (problemAlloc sizeofReal p).physSize
  let io ← b.setup p io
  let (cs, _) ← doVerifyM p (doFft b p) (Comparison.acmp tol) trig ds w io
  return cs

end BenchFFT.Verify
