import BenchFFT.Benchees.Layout
import BenchFFT.Problem.Alloc

/-!
# `p->in` and `p->out` (`allocate.c`, `zero.c`)

Each pointer points to a block of `bench_real` cells, which a routine looks at as real or as complex
numbers; in place, both point to the same block.
-/

namespace BenchFFT

variable {R : Type}

/-- The blocks at `p->in` and `p->out`. -/
structure IoBuffers (R : Type) where
  inp : Buf R
  /-- There is none where `p->out` equals `p->in`. -/
  out : Option (Buf R)

/-- Run `f` on `(bench_complex *) b`.  The last of an odd number of cells stays as it is. -/
def Buf.onComplexes (f : Buf (BenchComplex R) → Except Abort (Buf (BenchComplex R))) (b : Buf R) :
    Except Abort (Buf R) := do
  let c ← f b.complexes
  return { b with cell := fun i => if i < 2 * c.size then c.reals.cell i else b.cell i }

namespace IoBuffers

def inPlace (io : IoBuffers R) : Bool := io.out.isNone

/-- The block at `p->out`. -/
def pout (io : IoBuffers R) : Buf R := io.out.getD io.inp

/-- Run `f` on the block at `p->in`. -/
def onIn (f : Buf R → Except Abort (Buf R)) (io : IoBuffers R) : Except Abort (IoBuffers R) := do
  return { io with inp := ← f io.inp }

/-- Run `f` on the block at `p->out`. -/
def onOut (f : Buf R → Except Abort (Buf R)) (io : IoBuffers R) : Except Abort (IoBuffers R) :=
  match io.out with
  | none => io.onIn f
  | some out => do return { io with out := some (← f out) }

/-- The blocks that `problem_alloc` asks for, with the contents `inCell` and `outCell`. -/
def alloc (sizeofReal : UInt64) (p : Problem) (inCell outCell : ℕ → R) : IoBuffers R :=
  let a := problemAlloc sizeofReal p
  { inp := ⟨realCells sizeofReal a.inBytes, inCell⟩
    out := if a.sameBlock then none else some ⟨realCells sizeofReal a.outBytes, outCell⟩ }

/-- `problem_zero`. -/
def zero [Zero R] (p : Problem) (physSize : UInt32) (io : IoBuffers R) :
    Except Abort (IoBuffers R) := do
  let zeroBlock : Buf R → Except Abort (Buf R) :=
    match p.kind with
    | .complex => Buf.onComplexes fun b => aset b physSize.toNat ⟨0, 0⟩
    | .real => fun b => aset b physSize.toNat 0
  let io ← io.onOut zeroBlock
  io.onIn zeroBlock

end IoBuffers

end BenchFFT
