import BenchFFT.Benchees.Layout

/-!
# The real layouts of Numerical Recipes (`nr/doit.c`)

For rank 2 and 3, `p->in` and `p->out` are one block of complex numbers, `cdata`, and the column
`n2/2` is kept in a second one, `cspeq`.  The indices are computed in `int`.
-/

namespace BenchFFT.Nr

variable {R : Type}

/-- `(i * n1 + j) * w + k` as an `int`; there is no such cell where it overflows. -/
def index (n1 i j w k : ℕ) : Except Abort ℕ :=
  if (i * n1 + j) * w + k < 2147483648 then .ok ((i * n1 + j) * w + k) else .error .outOfBounds

/-- `n0`; a problem of rank 2 has one plane. -/
def n0 (p : Problem) : ℕ := if p.rank = 3 then p.dims.getD 0 0 else 1

def n1 (p : Problem) : ℕ := if p.rank = 3 then p.dims.getD 1 0 else p.dims.getD 0 0

def n2 (p : Problem) : ℕ := if p.rank = 3 then p.dims.getD 2 0 else p.dims.getD 1 0

/-! ### `copy_h2c` -/

section H2c

variable (n0 n1 n2 : ℕ) (cspeq : Buf (BenchComplex R))

/-- The loop over one row, from `n2/2` entries to `n2/2+1`. -/
def widenRow (i j : ℕ) (cdata : Buf (BenchComplex R)) : Except Abort (Buf (BenchComplex R)) := do
  let cdata ← forDownM (n2 / 2) (fun k cdata => do
    let a ← cdata.read (← index n1 i j (n2 / 2) k)
    cdata.write (← index n1 i j (n2 / 2 + 1) k) a) cdata
  let a ← cspeq.read (← index n1 i j 1 0)
  cdata.write (← index n1 i j (n2 / 2 + 1) (n2 / 2)) a

def widen (cdata : Buf (BenchComplex R)) : Except Abort (Buf (BenchComplex R)) :=
  forDownM n0 (fun i => forDownM n1 (widenRow n1 n2 cspeq i)) cdata

end H2c

/-- The results are `p->out` and `out`. -/
def copyH2c [Mul R] [Neg R] [Zero R] [One R] (p : Problem) (pout cspeq : Buf (BenchComplex R))
    (out : ℕ → BenchComplex R) :
    Except Abort (Buf (BenchComplex R) × (ℕ → BenchComplex R)) := do
  if p.rank = 1 then
    let out ← copyH2c1dPacked u32 p pout.reals out 1
    return (pout, out)
  else
    let pout ← widen (n0 p) (n1 p) (n2 p) cspeq pout
    let out ← copyH2cUnpacked u32 p pout out 1
    return (pout, out)

/-! ### `copy_c2h` -/

section C2h

variable [Mul R] [Neg R] [One R]

/-- `b[l] = a; c_im(b[l]) *= -1;` -/
def putConj (b : Buf (BenchComplex R)) (l : ℕ) (a : BenchComplex R) :
    Except Abort (Buf (BenchComplex R)) := do
  let b ← b.write l a
  let x ← b.read l
  b.write l ⟨x.re, x.im * -1⟩

/-- The loop over one row; the cells are those of `cdata` and of `cspeq`. -/
def c2hRow (n1 n2 : ℕ) (inp : ℕ → BenchComplex R) (i j : ℕ)
    (s : Buf (BenchComplex R) × Buf (BenchComplex R)) :
    Except Abort (Buf (BenchComplex R) × Buf (BenchComplex R)) := do
  let cdata ← forRangeM (n2 / 2) (fun k cdata => do
    putConj cdata (← index n1 i j (n2 / 2) k) (inp (← index n1 i j n2 k))) s.1
  let cspeq ← putConj s.2 (← index n1 i j 1 0) (inp (← index n1 i j n2 (n2 / 2)))
  return (cdata, cspeq)

/-- The results are `p->in` and `speq`. -/
def copyC2h (p : Problem) (pin cspeq : Buf (BenchComplex R)) (inp : ℕ → BenchComplex R) :
    Except Abort (Buf (BenchComplex R) × Buf (BenchComplex R)) := do
  if p.rank = 1 then
    let pin ← copyC2h1dPacked u32 p pin.reals inp 1
    return (pin.complexes, cspeq)
  else
    forRangeM (n0 p) (fun i => forRangeM (n1 p) (c2hRow (n1 p) (n2 p) inp i)) (pin, cspeq)

end C2h

end BenchFFT.Nr
