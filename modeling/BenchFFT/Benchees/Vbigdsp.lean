import BenchFFT.Benchees.Layout

/-!
# The real layouts of Apple's library (`vbigdsp/doit.c`)

For rank 2, `setup` has set `height` and `width` to the dimensions, and `data` is `p->in`.  The
indices are computed in `int`.

The columns `0` and `W/2` are treated alike.  The source writes the statements out for each: for the
first column with `col = 0` and `m = 0`, for the middle one with `col = W/2` and `m = 1`.

`copy_c2h` takes the assignment `data[l] = x` as a parameter; it is `Buf.write`.
-/

namespace BenchFFT.Vbigdsp

variable {R σ : Type}

/-- `i * W + k` for the cell `k` of the row `i`, as an `int`; there is no such cell where it
overflows. -/
def index (W : ℕ) (c : ℕ × ℕ) : Except Abort ℕ :=
  if c.1 * W + c.2 < 2147483648 then .ok (c.1 * W + c.2) else .error .outOfBounds

/-! ### `copy_h2c` -/

section H2c

variable [Neg R] [Zero R] (H W : ℕ) (data : Buf R) (out : ℕ → BenchComplex R)

/-- `c_re(out[e]) = data[l]; c_im(out[e]) = 0;` -/
def putReal (e l : ℕ × ℕ) : Except Abort (ℕ → BenchComplex R) := do
  let i ← index W e
  let l ← index W l
  let out ← putRe out i (data.read l)
  putIm out i (.ok 0)

/-- `c_re(out[e']) = c_re(out[e]) = data[l]; c_im(out[e']) = -(c_im(out[e]) = data[l']);` -/
def putMirrored (e' e l l' : ℕ × ℕ) : Except Abort (ℕ → BenchComplex R) := do
  let j ← index W e'
  let i ← index W e
  let l ← index W l
  let l' ← index W l'
  putPair out i j (data.read l) (data.read l') (Neg.neg <$> data.read l')

/-- The column `col`, from the cells `m` of the rows. -/
def h2cColumn (col m : ℕ) : Except Abort (ℕ → BenchComplex R) := do
  let out ← putReal W data out (0, col) (0, m)
  let out ← putReal W data out (H / 2, col) (1, m)
  -- rest of the column
  forFromM 1 (H / 2) (fun i out =>
    putMirrored W data out (H - i, col) (i, col) (2 * i, m) (2 * i + 1, m)) out

/-- Rest of columns. -/
def h2cColumns : Except Abort (ℕ → BenchComplex R) :=
  forFromM 1 H (fun i => forFromM 1 (W / 2) fun j out =>
    putMirrored W data out (H - i, W - j) (i, j) (i, 2 * j) (i, 2 * j + 1)) out

/-- Rest of first row. -/
def h2cFirstRow : Except Abort (ℕ → BenchComplex R) :=
  forFromM 1 (W / 2) (fun j out =>
    putMirrored W data out (0, W - j) (0, j) (0, 2 * j) (0, 2 * j + 1)) out

def h2cRank2 : Except Abort (ℕ → BenchComplex R) := do
  -- the first column, then the middle column
  let out ← h2cColumn H W data out 0 0
  let out ← h2cColumn H W data out (W / 2) 1
  let out ← h2cColumns H W data out
  h2cFirstRow W data out

end H2c

def copyH2c [Mul R] [Neg R] [Zero R] [One R] (p : Problem) (data : Buf R)
    (out : ℕ → BenchComplex R) : Except Abort (ℕ → BenchComplex R) :=
  if p.rank = 1 then copyH2c1dPacked u32 p data out (-1)
  else h2cRank2 (p.dims.getD 0 0) (p.dims.getD 1 0) data out

/-! ### `copy_c2h` -/

section C2h

variable (write : σ → ℕ → R → Except Abort σ) (H W : ℕ) (inp : ℕ → BenchComplex R) (data : σ)

/-- The assignment of a part of `in[e]` to `data[l]`. -/
def store (q : Part) (l e : ℕ × ℕ) : Except Abort σ := do
  let i ← index W e
  let l ← index W l
  write data l (q.of (inp i))

/-- `data[l] = c_re(in[e])`. -/
def storeRe (l e : ℕ × ℕ) : Except Abort σ := store write W inp data .re l e

/-- `data[l] = c_im(in[e])`. -/
def storeIm (l e : ℕ × ℕ) : Except Abort σ := store write W inp data .im l e

/-- The column `col`, into the cells `m` of the rows. -/
def c2hColumn (col m : ℕ) : Except Abort σ := do
  let data ← storeRe write W inp data (0, m) (0, col)
  let data ← storeRe write W inp data (1, m) (H / 2, col)
  -- rest of the column
  forFromM 1 (H / 2) (fun i data => do
    let data ← storeRe write W inp data (2 * i, m) (i, col)
    storeIm write W inp data (2 * i + 1, m) (i, col)) data

/-- Rest of columns. -/
def c2hColumns : Except Abort σ :=
  forFromM 1 H (fun i => forFromM 1 (W / 2) fun j data => do
    let data ← storeRe write W inp data (i, 2 * j) (i, j)
    storeIm write W inp data (i, 2 * j + 1) (i, j)) data

/-- Rest of first row. -/
def c2hFirstRow : Except Abort σ :=
  forFromM 1 (W / 2) (fun j data => do
    let data ← storeRe write W inp data (0, 2 * j) (0, j)
    storeIm write W inp data (0, 2 * j + 1) (0, j)) data

def c2hRank2 : Except Abort σ := do
  -- the first column, then the middle column
  let data ← c2hColumn write H W inp data 0 0
  let data ← c2hColumn write H W inp data (W / 2) 1
  let data ← c2hColumns write H W inp data
  c2hFirstRow write W inp data

end C2h

def copyC2h [Mul R] [Neg R] [One R] (p : Problem) (data : Buf R) (inp : ℕ → BenchComplex R) :
    Except Abort (Buf R) :=
  if p.rank = 1 then copyC2h1dPacked u32 p data inp (-1)
  else c2hRank2 Buf.write (p.dims.getD 0 0) (p.dims.getD 1 0) inp data

end BenchFFT.Vbigdsp
