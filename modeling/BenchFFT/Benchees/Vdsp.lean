import BenchFFT.Benchees.Layout

/-!
# The real layouts of vDSP (`vdsp/doit.c`)

The library keeps a complex array as two arrays of real numbers (`SplitComplex`).  For rank 2, the
columns `0` and `n1/2` of the unpacked layout are packed, each of them as a one-dimensional
hermitian array of `n0` real cells; the cells of the column `0` then stand in the real parts of the
column `0`, and those of the column `n1/2` in its imaginary parts.  Both are packed, and unpacked,
in `realp`, which holds the real parts of the whole array at another time.
-/

namespace BenchFFT.Vdsp

variable {R : Type}

/-- `DSPSplitComplex`, for `ins` and `outs`. -/
structure SplitComplex (R : Type) where
  realp : Buf R
  imagp : Buf R

/-! ### `copy_h2c` -/

section H2c

/-- `copy_ri2c(s.realp, s.imagp, out, n)`. -/
def copyRi2c (s : SplitComplex R) (out : Buf (BenchComplex R)) (n : ℕ) :
    Except Abort (Buf (BenchComplex R)) :=
  forRangeM n (fun i out => do out.write i ⟨← s.realp.read i, ← s.imagp.read i⟩) out

variable (n0 n1 : ℕ)

/-- The first loop. -/
def merge (outs : SplitComplex R) (poutc : Buf (BenchComplex R)) :
    Except Abort (Buf (BenchComplex R)) :=
  forRangeM n0 (fun i => forRangeM (n1 / 2) fun j poutc => do
    let re ← outs.realp.read (u32 (i * (n1 / 2) + j))
    let im ← outs.imagp.read (u32 (i * (n1 / 2) + j))
    poutc.write (u32 (i * (n1 / 2 + 1) + j)) ⟨re, im⟩) poutc

/-- The loops `outs.realp[i] = …(poutc[i*(n1/2+1)]);`, of which `part` is `c_im` or `c_re`. -/
def gather (part : BenchComplex R → R) (poutc : Buf (BenchComplex R)) (realp : Buf R) :
    Except Abort (Buf R) :=
  forRangeM n0 (fun i realp => do
    let a ← poutc.read (u32 (i * (n1 / 2 + 1)))
    realp.write i (part a)) realp

variable [Mul R] [Neg R] [Zero R] [One R]

/-- `copy_h2c_1d_packed_strided(n0, outs.realp, 1, poutc + col, n1/2+1, -1.0);` -/
def unpackColumn (col : ℕ) (realp : Buf R) (poutc : Buf (BenchComplex R)) :
    Except Abort (Buf (BenchComplex R)) := do
  let c ← copyH2c1dPackedStrided u32 n0 realp 1 (fun i => poutc.cell (col + i)) (n1 / 2 + 1) (-1)
  return ⟨poutc.size, fun i => if i < col then poutc.cell i else c (i - col)⟩

/-- `case 2`. -/
def h2cRank2 (p : Problem) (poutc : Buf (BenchComplex R)) (outs : SplitComplex R)
    (out : ℕ → BenchComplex R) :
    Except Abort (Buf (BenchComplex R) × SplitComplex R × (ℕ → BenchComplex R)) := do
  let poutc ← merge n0 n1 outs poutc
  -- unpack Nyquist column
  let realp ← gather n0 n1 BenchComplex.im poutc outs.realp
  let poutc ← unpackColumn n0 n1 (n1 / 2) realp poutc
  -- unpack DC column
  let realp ← gather n0 n1 BenchComplex.re poutc realp
  let poutc ← unpackColumn n0 n1 0 realp poutc
  let out ← copyH2cUnpacked u32 p poutc out (-1)
  return (poutc, ⟨realp, outs.imagp⟩, out)

/-- The `switch`; the results are `p->out`, `outs` and `out`. -/
def h2cUnscaled (p : Problem) (pout : Buf (BenchComplex R)) (outs : SplitComplex R)
    (out : ℕ → BenchComplex R) :
    Except Abort (Buf (BenchComplex R) × SplitComplex R × (ℕ → BenchComplex R)) :=
  if p.rank = 1 then do
    let poutc ← copyRi2c outs pout (p.size.toNat / 2)
    let out ← copyH2c1dPacked u32 p poutc.reals out (-1)
    return (poutc, outs, out)
  else if p.rank = 2 then
    h2cRank2 (p.dims.getD 0 0) (p.dims.getD 1 0) p pout outs out
  else do
    benchAssert False
    return (pout, outs, out)

variable [Add R] [Sub R] [Div R]

/-- `0.5`. -/
def half : BenchComplex R := ⟨1 / (1 + 1), 0⟩

def copyH2c (p : Problem) (pout : Buf (BenchComplex R)) (outs : SplitComplex R)
    (out : ℕ → BenchComplex R) :
    Except Abort (Buf (BenchComplex R) × SplitComplex R × (ℕ → BenchComplex R)) := do
  let s ← h2cUnscaled p pout outs out
  return (s.1, s.2.1, cascale s.2.2 p.size.toNat half)

end H2c

/-! ### `copy_c2h` -/

section C2h

/-- `copy_c2ri(in, s.realp, s.imagp, n)`. -/
def copyC2ri (inp : Buf (BenchComplex R)) (s : SplitComplex R) (n : ℕ) :
    Except Abort (SplitComplex R) :=
  forRangeM n (fun i s => do
    let a ← inp.read i
    return ⟨← s.realp.write i a.re, ← s.imagp.write i a.im⟩) s

variable (n0 n1 : ℕ)

/-- The loops `…(pinc[i*(n1/2+1)]) = ins.realp[i];`, where `put` assigns to `c_re` or `c_im`. -/
def scatter (put : BenchComplex R → R → BenchComplex R) (realp : Buf R)
    (pinc : Buf (BenchComplex R)) : Except Abort (Buf (BenchComplex R)) :=
  forRangeM n0 (fun i pinc => do
    let x ← realp.read i
    let a ← pinc.read (u32 (i * (n1 / 2 + 1)))
    pinc.write (u32 (i * (n1 / 2 + 1))) (put a x)) pinc

/-- The last loop. -/
def split (pinc : Buf (BenchComplex R)) (ins : SplitComplex R) : Except Abort (SplitComplex R) :=
  forRangeM n0 (fun i => forRangeM (n1 / 2) fun j ins => do
    let a ← pinc.read (u32 (i * (n1 / 2 + 1) + j))
    let realp ← ins.realp.write (u32 (i * (n1 / 2) + j)) a.re
    let imagp ← ins.imagp.write (u32 (i * (n1 / 2) + j)) a.im
    return ⟨realp, imagp⟩) ins

variable [Mul R] [Neg R] [One R]

/-- `copy_c2h_1d_packed_strided(n0, ins.realp, 1, pinc + col, n1/2+1, -1.0);` -/
def packColumn (col : ℕ) (pinc : Buf (BenchComplex R)) (realp : Buf R) : Except Abort (Buf R) :=
  copyC2h1dPackedStrided u32 n0 realp 1 (fun i => pinc.cell (col + i)) (n1 / 2 + 1) (-1)

/-- `case 2`. -/
def c2hRank2 (p : Problem) (pinc : Buf (BenchComplex R)) (ins : SplitComplex R)
    (inp : ℕ → BenchComplex R) : Except Abort (Buf (BenchComplex R) × SplitComplex R) := do
  -- this writes every cell that is read below
  let pinc ← copyC2hUnpacked u32 p pinc inp (-1)
  -- DC column (in place)
  let realp ← packColumn n0 n1 0 pinc ins.realp
  let pinc ← scatter n0 n1 (fun a x => ⟨x, a.im⟩) realp pinc
  -- Nyquist column
  let realp ← packColumn n0 n1 (n1 / 2) pinc realp
  let pinc ← scatter n0 n1 (fun a x => ⟨a.re, x⟩) realp pinc
  let ins ← split n0 n1 pinc ⟨realp, ins.imagp⟩
  return (pinc, ins)

/-- The results are `p->in` and `ins`. -/
def copyC2h (p : Problem) (pin : Buf (BenchComplex R)) (ins : SplitComplex R)
    (inp : ℕ → BenchComplex R) : Except Abort (Buf (BenchComplex R) × SplitComplex R) :=
  if p.rank = 1 then do
    let pin ← copyC2h1dPacked u32 p pin.reals inp (-1)
    let ins ← copyC2ri pin.complexes ins (p.size.toNat / 2)
    return (pin.complexes, ins)
  else if p.rank = 2 then
    c2hRank2 (p.dims.getD 0 0) (p.dims.getD 1 0) p pin ins inp
  else do
    benchAssert False
    return (pin, ins)

end C2h

end BenchFFT.Vdsp
