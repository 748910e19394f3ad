import BenchFFT.Benchees.Layout

/-!
# The three-dimensional real layout of Ooura's package (`ooura/doit3d.c`)

The rows `a[i][j]` are those of `p->in` to which `setup` has pointed them, so the array `a` is the
buffer `p->in`.  An index is reduced modulo `2 ^ 32` once, after its sums and products.
-/

namespace BenchFFT.Ooura3d

variable {R : Type*}

/-- `IDX(i,j,k)`. -/
def idx (n2 n3 i j k : ℕ) : ℕ := u32 ((i * n2 + j) * n3 + k)

/-- `C(i,n)`. -/
def c (i n : ℕ) : ℕ := (n - i) % n

/-- The place of `a[i][j][k]` in `p->in`. -/
def cell (n2 n3 i j k : ℕ) : ℕ := u32 ((i * n2 + j) * n3) + k

/-! ### `copy_h2c` -/

section H2c

variable [Neg R] [Zero R] (n1 n2 n3 : ℕ) (a : Buf R) (out : ℕ → BenchComplex R)

/-- The loop over the columns other than `0` and `n3/2`. -/
def h2cColumns : Except Abort (ℕ → BenchComplex R) :=
  forRangeM n1 (fun k1 => forRangeM n2 fun k2 => forFromM 1 (n3 / 2) fun k3 out =>
    putPair out (idx n2 n3 k1 k2 k3) (idx n2 n3 (c k1 n1) (c k2 n2) (n3 - k3))
      (a.read (cell n2 n3 k1 k2 (2 * k3)))
      (Neg.neg <$> a.read (cell n2 n3 k1 k2 (2 * k3 + 1)))
      (a.read (cell n2 n3 k1 k2 (2 * k3 + 1)))) out

/-- The loop over the rows whose second index is neither `0` nor `n2/2`. -/
def h2cFaces : Except Abort (ℕ → BenchComplex R) :=
  forRangeM n1 (fun k1 => forFromM 1 (n2 / 2) fun k2 out => do
    let out ← putPair out (idx n2 n3 k1 k2 0) (idx n2 n3 (c k1 n1) (n2 - k2) 0)
      (a.read (cell n2 n3 k1 k2 0))
      (Neg.neg <$> a.read (cell n2 n3 k1 k2 1))
      (a.read (cell n2 n3 k1 k2 1))
    -- the package documents these with the first index swapped
    putPair out (idx n2 n3 (c k1 n1) k2 (n3 / 2)) (idx n2 n3 k1 (n2 - k2) (n3 / 2))
      (a.read (cell n2 n3 k1 (n2 - k2) 1))
      (a.read (cell n2 n3 k1 (n2 - k2) 0))
      (Neg.neg <$> a.read (cell n2 n3 k1 (n2 - k2) 0))) out

/-- The loop over the other rows, except the four that are their own mirror images. -/
def h2cEdges : Except Abort (ℕ → BenchComplex R) :=
  forFromM 1 (n1 / 2) (fun k1 out => do
    let out ← putPair out (idx n2 n3 k1 0 0) (idx n2 n3 (n1 - k1) 0 0)
      (a.read (cell n2 n3 k1 0 0))
      (Neg.neg <$> a.read (cell n2 n3 k1 0 1))
      (a.read (cell n2 n3 k1 0 1))
    let out ← putPair out (idx n2 n3 k1 (n2 / 2) 0) (idx n2 n3 (n1 - k1) (n2 / 2) 0)
      (a.read (cell n2 n3 k1 (n2 / 2) 0))
      (Neg.neg <$> a.read (cell n2 n3 k1 (n2 / 2) 1))
      (a.read (cell n2 n3 k1 (n2 / 2) 1))
    let out ← putPair out (idx n2 n3 k1 0 (n3 / 2)) (idx n2 n3 (n1 - k1) 0 (n3 / 2))
      (a.read (cell n2 n3 (n1 - k1) 0 1))
      (a.read (cell n2 n3 (n1 - k1) 0 0))
      (Neg.neg <$> a.read (cell n2 n3 (n1 - k1) 0 0))
    putPair out (idx n2 n3 k1 (n2 / 2) (n3 / 2)) (idx n2 n3 (n1 - k1) (n2 / 2) (n3 / 2))
      (a.read (cell n2 n3 (n1 - k1) (n2 / 2) 1))
      (a.read (cell n2 n3 (n1 - k1) (n2 / 2) 0))
      (Neg.neg <$> a.read (cell n2 n3 (n1 - k1) (n2 / 2) 0))) out

def h2cCorners : Except Abort (ℕ → BenchComplex R) := do
  let out ← putRe out (idx n2 n3 0 0 0) (a.read (cell n2 n3 0 0 0))
  let out ← putRe out (idx n2 n3 0 0 (n3 / 2)) (a.read (cell n2 n3 0 0 1))
  let out ← putRe out (idx n2 n3 0 (n2 / 2) 0) (a.read (cell n2 n3 0 (n2 / 2) 0))
  let out ← putRe out (idx n2 n3 0 (n2 / 2) (n3 / 2)) (a.read (cell n2 n3 0 (n2 / 2) 1))
  let out ← putRe out (idx n2 n3 (n1 / 2) 0 0) (a.read (cell n2 n3 (n1 / 2) 0 0))
  let out ← putRe out (idx n2 n3 (n1 / 2) 0 (n3 / 2)) (a.read (cell n2 n3 (n1 / 2) 0 1))
  let out ← putRe out (idx n2 n3 (n1 / 2) (n2 / 2) 0) (a.read (cell n2 n3 (n1 / 2) (n2 / 2) 0))
  let out ← putRe out (idx n2 n3 (n1 / 2) (n2 / 2) (n3 / 2))
    (a.read (cell n2 n3 (n1 / 2) (n2 / 2) 1))
  let out ← putIm out (idx n2 n3 0 0 0) (.ok 0)
  let out ← putIm out (idx n2 n3 0 0 (n3 / 2)) (.ok 0)
  let out ← putIm out (idx n2 n3 0 (n2 / 2) 0) (.ok 0)
  let out ← putIm out (idx n2 n3 0 (n2 / 2) (n3 / 2)) (.ok 0)
  let out ← putIm out (idx n2 n3 (n1 / 2) 0 0) (.ok 0)
  let out ← putIm out (idx n2 n3 (n1 / 2) 0 (n3 / 2)) (.ok 0)
  let out ← putIm out (idx n2 n3 (n1 / 2) (n2 / 2) 0) (.ok 0)
  putIm out (idx n2 n3 (n1 / 2) (n2 / 2) (n3 / 2)) (.ok 0)

end H2c

def copyH2c [Neg R] [Zero R] (p : Problem) (a : Buf R) (out : ℕ → BenchComplex R) :
    Except Abort (ℕ → BenchComplex R) := do
  let n1 := p.dims.getD 0 0
  let n2 := p.dims.getD 1 0
  let n3 := p.dims.getD 2 0
  let out ← h2cColumns n1 n2 n3 a out
  let out ← h2cFaces n1 n2 n3 a out
  let out ← h2cEdges n1 n2 n3 a out
  h2cCorners n1 n2 n3 a out

/-! ### `copy_c2h` -/

section C2h

variable (n1 n2 n3 : ℕ) (inp : ℕ → BenchComplex R) (a : Buf R)

/-- The loop over the columns other than `0` and `n3/2`. -/
def c2hColumns : Except Abort (Buf R) :=
  forRangeM n1 (fun k1 => forRangeM n2 fun k2 => forFromM 1 (n3 / 2) fun k3 a => do
    let a ← a.write (cell n2 n3 k1 k2 (2 * k3)) (inp (idx n2 n3 k1 k2 k3)).re
    a.write (cell n2 n3 k1 k2 (2 * k3 + 1))
      (inp (idx n2 n3 (c k1 n1) (c k2 n2) (n3 - k3))).im) a

/-- The loop over the rows whose second index is neither `0` nor `n2/2`. -/
def c2hFaces : Except Abort (Buf R) :=
  forRangeM n1 (fun k1 => forFromM 1 (n2 / 2) fun k2 a => do
    let a ← a.write (cell n2 n3 k1 k2 0) (inp (idx n2 n3 k1 k2 0)).re
    let a ← a.write (cell n2 n3 k1 k2 1) (inp (idx n2 n3 (c k1 n1) (n2 - k2) 0)).im
    let a ← a.write (cell n2 n3 k1 (n2 - k2) 1) (inp (idx n2 n3 (c k1 n1) k2 (n3 / 2))).re
    a.write (cell n2 n3 k1 (n2 - k2) 0) (inp (idx n2 n3 (c k1 n1) k2 (n3 / 2))).im) a

/-- The loop over the other rows, except the four that are their own mirror images. -/
def c2hEdges : Except Abort (Buf R) :=
  forFromM 1 (n1 / 2) (fun k1 a => do
    let a ← a.write (cell n2 n3 k1 0 0) (inp (idx n2 n3 k1 0 0)).re
    let a ← a.write (cell n2 n3 k1 0 1) (inp (idx n2 n3 (n1 - k1) 0 0)).im
    let a ← a.write (cell n2 n3 k1 (n2 / 2) 0) (inp (idx n2 n3 k1 (n2 / 2) 0)).re
    let a ← a.write (cell n2 n3 k1 (n2 / 2) 1) (inp (idx n2 n3 (n1 - k1) (n2 / 2) 0)).im
    let a ← a.write (cell n2 n3 (n1 - k1) 0 1) (inp (idx n2 n3 k1 0 (n3 / 2))).re
    let a ← a.write (cell n2 n3 (n1 - k1) 0 0) (inp (idx n2 n3 k1 0 (n3 / 2))).im
    let a ← a.write (cell n2 n3 (n1 - k1) (n2 / 2) 1) (inp (idx n2 n3 k1 (n2 / 2) (n3 / 2))).re
    a.write (cell n2 n3 (n1 - k1) (n2 / 2) 0) (inp (idx n2 n3 k1 (n2 / 2) (n3 / 2))).im) a

def c2hCorners : Except Abort (Buf R) := do
  let a ← a.write (cell n2 n3 0 0 0) (inp (idx n2 n3 0 0 0)).re
  let a ← a.write (cell n2 n3 0 0 1) (inp (idx n2 n3 0 0 (n3 / 2))).re
  let a ← a.write (cell n2 n3 0 (n2 / 2) 0) (inp (idx n2 n3 0 (n2 / 2) 0)).re
  let a ← a.write (cell n2 n3 0 (n2 / 2) 1) (inp (idx n2 n3 0 (n2 / 2) (n3 / 2))).re
  let a ← a.write (cell n2 n3 (n1 / 2) 0 0) (inp (idx n2 n3 (n1 / 2) 0 0)).re
  let a ← a.write (cell n2 n3 (n1 / 2) 0 1) (inp (idx n2 n3 (n1 / 2) 0 (n3 / 2))).re
  let a ← a.write (cell n2 n3 (n1 / 2) (n2 / 2) 0) (inp (idx n2 n3 (n1 / 2) (n2 / 2) 0)).re
  a.write (cell n2 n3 (n1 / 2) (n2 / 2) 1) (inp (idx n2 n3 (n1 / 2) (n2 / 2) (n3 / 2))).re

end C2h

def copyC2h [Mul R] [NatCast R] (p : Problem) (a : Buf R) (inp : ℕ → BenchComplex R) :
    Except Abort (Buf R) := do
  let n1 := p.dims.getD 0 0
  let n2 := p.dims.getD 1 0
  let n3 := p.dims.getD 2 0
  let a ← c2hColumns n1 n2 n3 inp a
  let a ← c2hFaces n1 n2 n3 inp a
  let a ← c2hEdges n1 n2 n3 inp a
  let a ← c2hCorners n1 n2 n3 inp a
  ascale a p.size.toNat ((2 : ℕ) : R)

end BenchFFT.Ooura3d
