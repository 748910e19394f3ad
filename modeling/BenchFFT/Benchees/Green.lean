import BenchFFT.Benchees.Layout

/-!
# The real layouts of Green's package (`green-ffts-2.0/doit.c`)

For rank 2, `copy_h2c` reads entries of `out` that it has assigned before.  It is run on a draft of
`out`, on which only the parts assigned so far can be read; what was assigned then goes to `out`.

The first column and the nyquist column, `n1/2`, are treated alike.  The source writes the
statements out for each: for the first column with `col = 0` and `row = 0`, for the nyquist column
with `col = n1/2` and `row = n0/2`.  After its loop to `n0/2`, the variable `i` is `n0/2`.
-/

namespace BenchFFT.Green

variable {R : Type*}

/-! ### Drafts -/

/-- An array of complex numbers; a part that has not been assigned yet is `none`. -/
abbrev Draft (R : Type*) := ℕ → BenchComplex (Option R)

namespace Draft

def unassigned : Draft R := fun _ => ⟨none, none⟩

/-- The value of a part of `out[i]`. -/
def read (q : Part) (out : Draft R) (i : ℕ) : Except Abort R :=
  (q.of (out i)).elim (.error .outOfBounds) .ok

/-- The assignment of `x` to a part of `out[i]`. -/
def assign (q : Part) (out : Draft R) (i : ℕ) (x : Except Abort R) : Except Abort (Draft R) :=
  q.put out i (some <$> x)

/-- `c_re(out[i])`. -/
def readRe (out : Draft R) (i : ℕ) : Except Abort R := read .re out i

/-- `c_im(out[i])`. -/
def readIm (out : Draft R) (i : ℕ) : Except Abort R := read .im out i

/-- `c_re(out[i]) = x`. -/
def assignRe (out : Draft R) (i : ℕ) (x : Except Abort R) : Except Abort (Draft R) :=
  assign .re out i x

/-- `c_im(out[i]) = x`. -/
def assignIm (out : Draft R) (i : ℕ) (x : Except Abort R) : Except Abort (Draft R) :=
  assign .im out i x

/-- `out` after the parts of the draft have been assigned. -/
def assignTo (d : Draft R) (out : ℕ → BenchComplex R) : ℕ → BenchComplex R :=
  fun i => ⟨(d i).re.getD (out i).re, (d i).im.getD (out i).im⟩

end Draft

/-! ### `copy_h2c` -/

section H2c

open Draft

variable [Neg R] [Zero R] (n0 n1 col row : ℕ) (pout : Buf R) (out : Draft R)

/-- The first half of a column, and its nyquist value. -/
def h2cHalf : Except Abort (Draft R) := do
  let out ← forRangeM (n0 / 2) (fun i out => do
    let out ← assignRe out (u32 (i * n1 + col)) (pout.read (u32 ((i + row) * n1)))
    assignIm out (u32 (i * n1 + col)) (pout.read (u32 ((i + row) * n1 + 1)))) out
  let out ← assignIm out col (.ok 0)
  let out ← assignRe out (u32 (n0 / 2 * n1 + col)) (pout.read (u32 (row * n1 + 1)))
  assignIm out (u32 (n0 / 2 * n1 + col)) (.ok 0)

/-- Expand a column by hermitian symmetry. -/
def h2cExpand : Except Abort (Draft R) :=
  forFromM (n0 / 2 + 1) n0 (fun i out => do
    let out ← assignRe out (u32 (i * n1 + col)) (readRe out (u32 ((n0 - i) * n1 + col)))
    assignIm out (u32 (i * n1 + col)) (Neg.neg <$> readIm out (u32 ((n0 - i) * n1 + col)))) out

/-- Remaining columns in first half. -/
def h2cRemaining : Except Abort (Draft R) :=
  forFromM 1 (n1 / 2) (fun j => forRangeM n0 fun i out => do
    let out ← assignRe out (u32 (i * n1 + j)) (pout.read (u32 (i * n1 + 2 * j)))
    assignIm out (u32 (i * n1 + j)) (pout.read (u32 (i * n1 + 2 * j + 1)))) out

/-- Expand remaining columns by symmetry. -/
def h2cExpandRemaining : Except Abort (Draft R) :=
  forFromM (n1 / 2 + 1) n1 (fun j out => do
    let out ← assignRe out j (readRe out (n1 - j))
    let out ← assignIm out j (Neg.neg <$> readIm out (n1 - j))
    forFromM 1 n0 (fun i out => do
      let out ← assignRe out (u32 (i * n1 + j)) (readRe out (u32 ((n0 - i) * n1 + (n1 - j))))
      assignIm out (u32 (i * n1 + j))
        (Neg.neg <$> readIm out (u32 ((n0 - i) * n1 + (n1 - j))))) out) out

/-- `case 2`. -/
def h2cRank2 : Except Abort (Draft R) := do
  -- the first column, then the nyquist column
  let out ← h2cHalf n0 n1 0 0 pout out
  let out ← h2cExpand n0 n1 0 out
  let out ← h2cHalf n0 n1 (n1 / 2) (n0 / 2) pout out
  let out ← h2cExpand n0 n1 (n1 / 2) out
  let out ← h2cRemaining n0 n1 pout out
  h2cExpandRemaining n0 n1 out

end H2c

def copyH2c [Mul R] [Neg R] [Zero R] [One R] (p : Problem) (pout : Buf R)
    (out : ℕ → BenchComplex R) : Except Abort (ℕ → BenchComplex R) :=
  match p.rank with
  | 1 => copyH2c1dPacked u32 p pout out (-1)
  | 2 => do
    let d ← h2cRank2 (p.dims.getD 0 0) (p.dims.getD 1 0) pout Draft.unassigned
    return d.assignTo out
  | _ => do
    benchAssert False
    return out

/-! ### `copy_c2h` -/

section C2h

variable (n0 n1 col row : ℕ) (inp : ℕ → BenchComplex R) (pin : Buf R)

/-- The first half of a column, and its nyquist value. -/
def c2hHalf : Except Abort (Buf R) := do
  let pin ← forRangeM (n0 / 2) (fun i pin => do
    let pin ← pin.write (u32 ((i + row) * n1)) (inp (u32 (i * n1 + col))).re
    pin.write (u32 ((i + row) * n1 + 1)) (inp (u32 (i * n1 + col))).im) pin
  pin.write (u32 (row * n1 + 1)) (inp (u32 (n0 / 2 * n1 + col))).re

/-- Remaining columns in first half. -/
def c2hRemaining : Except Abort (Buf R) :=
  forFromM 1 (n1 / 2) (fun j => forRangeM n0 fun i pin => do
    let pin ← pin.write (u32 (i * n1 + 2 * j)) (inp (u32 (i * n1 + j))).re
    pin.write (u32 (i * n1 + 2 * j + 1)) (inp (u32 (i * n1 + j))).im) pin

/-- `case 2`. -/
def c2hRank2 : Except Abort (Buf R) := do
  -- the first column, then the nyquist column
  let pin ← c2hHalf n0 n1 0 0 inp pin
  let pin ← c2hHalf n0 n1 (n1 / 2) (n0 / 2) inp pin
  c2hRemaining n0 n1 inp pin

end C2h

def copyC2h [Mul R] [Neg R] [One R] (p : Problem) (pin : Buf R) (inp : ℕ → BenchComplex R) :
    Except Abort (Buf R) :=
  match p.rank with
  | 1 => copyC2h1dPacked u32 p pin inp (-1)
  | 2 => c2hRank2 (p.dims.getD 0 0) (p.dims.getD 1 0) inp pin
  | _ => do
    benchAssert False
    return pin

end BenchFFT.Green
