import BenchFFT.Benchees.Layout

/-!
# The two-dimensional real layout of Ooura's package (`ooura/doit2d.c`)

The rows `a[i]` are those of `p->in` to which `setup` has pointed them, so the array `a` is the
buffer `p->in`.  An index is reduced modulo `2 ^ 32` once, after its sums and products.
-/

namespace BenchFFT.Ooura2d

variable {R : Type*}

/-- `IDX(i,j)`. -/
def idx (n2 i j : ℕ) : ℕ := u32 (i * n2 + j)

/-- The place of `a[i][j]` in `p->in`. -/
def cell (n2 i j : ℕ) : ℕ := u32 (i * n2) + j

/-! ### `copy_h2c` -/

section H2c

variable [Neg R] [Zero R] (n1 n2 : ℕ) (a : Buf R) (out : ℕ → BenchComplex R)

/-- The loop over the rows but the first, in the columns other than `0` and `n2/2`. -/
def h2cColumns : Except Abort (ℕ → BenchComplex R) :=
  forFromM 1 n1 (fun k1 => forFromM 1 (n2 / 2) fun k2 out =>
    putPair out (idx n2 k1 k2) (idx n2 (n1 - k1) (n2 - k2))
      (a.read (cell n2 k1 (2 * k2)))
      (Neg.neg <$> a.read (cell n2 k1 (2 * k2 + 1)))
      (a.read (cell n2 k1 (2 * k2 + 1)))) out

/-- The same columns of the first row. -/
def h2cFirstRow : Except Abort (ℕ → BenchComplex R) :=
  forFromM 1 (n2 / 2) (fun k2 out =>
    putPair out (idx n2 0 k2) (idx n2 0 (n2 - k2))
      (a.read (cell n2 0 (2 * k2)))
      (Neg.neg <$> a.read (cell n2 0 (2 * k2 + 1)))
      (a.read (cell n2 0 (2 * k2 + 1)))) out

/-- The columns `0` and `n2/2` of the rows other than `0` and `n1/2`. -/
def h2cEdges : Except Abort (ℕ → BenchComplex R) :=
  forFromM 1 (n1 / 2) (fun k1 out => do
    let out ← putPair out (idx n2 k1 0) (idx n2 (n1 - k1) 0)
      (a.read (cell n2 k1 0))
      (Neg.neg <$> a.read (cell n2 k1 1))
      (a.read (cell n2 k1 1))
    putPair out (idx n2 k1 (n2 / 2)) (idx n2 (n1 - k1) (n2 / 2))
      (a.read (cell n2 (n1 - k1) 1))
      (a.read (cell n2 (n1 - k1) 0))
      (Neg.neg <$> a.read (cell n2 (n1 - k1) 0))) out

def h2cCorners : Except Abort (ℕ → BenchComplex R) := do
  let out ← putRe out (idx n2 0 0) (a.read (cell n2 0 0))
  let out ← putRe out (idx n2 0 (n2 / 2)) (a.read (cell n2 0 1))
  let out ← putRe out (idx n2 (n1 / 2) 0) (a.read (cell n2 (n1 / 2) 0))
  let out ← putRe out (idx n2 (n1 / 2) (n2 / 2)) (a.read (cell n2 (n1 / 2) 1))
  let out ← putIm out (idx n2 0 0) (.ok 0)
  let out ← putIm out (idx n2 0 (n2 / 2)) (.ok 0)
  let out ← putIm out (idx n2 (n1 / 2) 0) (.ok 0)
  putIm out (idx n2 (n1 / 2) (n2 / 2)) (.ok 0)

end H2c

def copyH2c [Neg R] [Zero R] (p : Problem) (a : Buf R) (out : ℕ → BenchComplex R) :
    Except Abort (ℕ → BenchComplex R) := do
  let n1 := p.dims.getD 0 0
  let n2 := p.dims.getD 1 0
  let out ← h2cColumns n1 n2 a out
  let out ← h2cFirstRow n2 a out
  let out ← h2cEdges n1 n2 a out
  h2cCorners n1 n2 a out

/-! ### `copy_c2h` -/

section C2h

variable (n1 n2 : ℕ) (inp : ℕ → BenchComplex R) (a : Buf R)

/-- The loop over the rows but the first, in the columns other than `0` and `n2/2`. -/
def c2hColumns : Except Abort (Buf R) :=
  forFromM 1 n1 (fun k1 => forFromM 1 (n2 / 2) fun k2 a => do
    let a ← a.write (cell n2 k1 (2 * k2)) (inp (idx n2 k1 k2)).re
    a.write (cell n2 k1 (2 * k2 + 1)) (inp (idx n2 (n1 - k1) (n2 - k2))).im) a

/-- The same columns of the first row. -/
def c2hFirstRow : Except Abort (Buf R) :=
  forFromM 1 (n2 / 2) (fun k2 a => do
    let a ← a.write (cell n2 0 (2 * k2)) (inp (idx n2 0 k2)).re
    a.write (cell n2 0 (2 * k2 + 1)) (inp (idx n2 0 (n2 - k2))).im) a

/-- The columns `0` and `n2/2` of the rows other than `0` and `n1/2`. -/
def c2hEdges : Except Abort (Buf R) :=
  forFromM 1 (n1 / 2) (fun k1 a => do
    let a ← a.write (cell n2 k1 0) (inp (idx n2 k1 0)).re
    let a ← a.write (cell n2 k1 1) (inp (idx n2 (n1 - k1) 0)).im
    let a ← a.write (cell n2 (n1 - k1) 1) (inp (idx n2 k1 (n2 / 2))).re
    a.write (cell n2 (n1 - k1) 0) (inp (idx n2 k1 (n2 / 2))).im) a

def c2hCorners : Except Abort (Buf R) := do
  let a ← a.write (cell n2 0 0) (inp (idx n2 0 0)).re
  let a ← a.write (cell n2 0 1) (inp (idx n2 0 (n2 / 2))).re
  let a ← a.write (cell n2 (n1 / 2) 0) (inp (idx n2 (n1 / 2) 0)).re
  a.write (cell n2 (n1 / 2) 1) (inp (idx n2 (n1 / 2) (n2 / 2))).re

end C2h

def copyC2h [Mul R] [NatCast R] (p : Problem) (a : Buf R) (inp : ℕ → BenchComplex R) :
    Except Abort (Buf R) := do
  let n1 := p.dims.getD 0 0
  let n2 := p.dims.getD 1 0
  let a ← c2hColumns n1 n2 inp a
  let a ← c2hFirstRow n2 inp a
  let a ← c2hEdges n1 n2 inp a
  let a ← c2hCorners n1 n2 inp a
  ascale a p.size.toNat ((2 : ℕ) : R)

end BenchFFT.Ooura2d
