import BenchFFT.Benchees.Benchee
import BenchFFT.Verify.Tests

/-!
# The benchees `sorensen-rsrfft` and `sorensen-irsrfft` (`benchees/sorensen/doit_rsrfft.c`,
`benchees/sorensen/rvsrh.f`, `benchees/sorensen/irvsrh.f`)

Sorensen's split-radix transform of `2 ** M` real numbers, in place, and its inverse.  Indices are
from `0` on; the `DO` loops are named by their labels.  One source is compiled to two programs: with
`INVERSE` it calls the inverse routine, and otherwise the forward one.
-/

namespace BenchFFT.Sorensen

variable {R : Type}

/-! ### The starts of the butterflies -/

/-- `DO` from `first` on, up to `last`, in steps of `step`; the turns are counted first. -/
def doStep {σ : Type} (first last step : ℕ) (body : ℕ → σ → Except Abort σ) (s : σ) :
    Except Abort σ :=
  forRangeM ((last + step - 1 - first) / step) (fun k => body (first + k * step)) s

/-- `IS` and `ID`. -/
structure Starts (n2 : ℕ) where
  is : ℕ
  id : ℕ
  id_eq : id = 2 * (is + n2)

def Starts.first (n2 : ℕ) : Starts n2 where
  is := 0
  id := 2 * n2
  id_eq := by rw [Nat.zero_add]

def Starts.next {n2 : ℕ} (s : Starts n2) : Starts n2 where
  is := 2 * s.id - n2
  id := 4 * s.id
  id_eq := by
    have h := s.id_eq
    omega

theorem Starts.is_lt_next {n2 : ℕ} (hn2 : 0 < n2) (s : Starts n2) : s.is < s.next.is := by
  have h := s.id_eq
  show s.is < 2 * s.id - n2
  omega

/-- The body for the starts of `s` and all later ones, while `IS` is below `last`. -/
def blocks {n2 : ℕ} (hn2 : 0 < n2) (n last off : ℕ) (body : ℕ → Buf R → Except Abort (Buf R))
    (s : Starts n2) (x : Buf R) : Except Abort (Buf R) := do
  let x ← doStep (s.is + off) n s.id body x
  if _h : s.next.is < last then blocks hn2 n last off body s.next x else return x
termination_by last - s.is
decreasing_by
  have := s.is_lt_next hn2
  omega

/-! ### `RBITREV` -/

/-- `ITAB` for twice as many numbers. -/
def doubleItab (imax : ℕ) (itab : Buf ℕ) : Except Abort (Buf ℕ) :=
  forRangeM imax (fun i itab => do
    let itab ← itab.write i (2 * (← itab.read i))
    itab.write (i + imax) (1 + (← itab.read i))) itab

def initItab (m2 : ℕ) (itab : Buf ℕ) : Except Abort (Buf ℕ) := do
  let itab ← itab.write 0 0
  let itab ← itab.write 1 1
  let s ← forFromM 2 (m2 + 1) (fun _ s => do
    let imax := 2 * s.1
    let itab ← doubleItab imax s.2
    return (imax, itab)) (1, itab)
  return s.2

def swap (i j : ℕ) (x : Buf R) : Except Abort (Buf R) := do
  let t1 ← x.read i
  let x ← x.write i (← x.read j)
  x.write j t1

/-- The turn `K` of the loop `DO 20`. -/
def swapRow (itab : Buf ℕ) (nbit k : ℕ) (x : Buf R) : Except Abort (Buf R) := do
  let j0 := nbit * (← itab.read k)
  let s ← forRangeM (← itab.read k) (fun l (s : (ℕ × ℕ) × Buf R) => do
    let x ← swap s.1.1 s.1.2 s.2
    return ((s.1.1 + nbit, j0 + (← itab.read (l + 1))), x)) ((k, j0), x)
  return s.2

/-- On entry `ITAB` holds `itab`. -/
def rbitrev (itab : Buf ℕ) (x : Buf R) (m : ℕ) : Except Abort (Buf R) := do
  let nbit := 2 ^ (m / 2)
  let m2 := if 2 * (m / 2) ≠ m then m / 2 + 1 else m / 2
  let itab ← initItab m2 itab
  forFromM 1 nbit (swapRow itab nbit) x

variable [Field R]

/-! ### Butterflies -/

/-- `DO 60`, in both routines. -/
def butterfly2 (i0 : ℕ) (x : Buf R) : Except Abort (Buf R) := do
  let t1 ← x.read i0
  let x ← x.write i0 (t1 + (← x.read (i0 + 1)))
  x.write (i0 + 1) (t1 - (← x.read (i0 + 1)))

/-- The constants of the routines. -/
structure Constants (R : Type) extends Verify.Trig R where
  /-- `.7071067811865475` -/
  sqrtHalf : R
  /-- `1.4142135623730950488` -/
  sqrtTwo : R

structure Twiddle (R : Type) where
  cc1 : R
  ss1 : R
  cc3 : R
  ss3 : R

/-- `CD1`, `SD1`, `CD3` and `SD3`. -/
def Twiddle.first (c : Constants R) (n2 : ℕ) : Twiddle R :=
  let e := c.k2pi / n2
  let sd1 := c.sin e
  let cd1 := c.cos e
  { cc1 := cd1
    ss1 := sd1
    cc3 := (4 : ℕ) * cd1 ^ 3 - (3 : ℕ) * cd1
    ss3 := (3 : ℕ) * sd1 - (4 : ℕ) * sd1 ^ 3 }

def Twiddle.next (d t : Twiddle R) : Twiddle R where
  cc1 := t.cc1 * d.cc1 - t.ss1 * d.ss1
  ss1 := t.cc1 * d.ss1 + t.ss1 * d.cc1
  cc3 := t.cc3 * d.cc3 - t.ss3 * d.ss3
  ss3 := t.cc3 * d.ss3 + t.ss3 * d.cc3

section Rstage

/- `X1`, `X2`, `X3` and `X4` are the array from `0`, `n4`, `2 * n4` and `3 * n4` on. -/
variable (n4 : ℕ)

def rstage20 (i1 : ℕ) (x : Buf R) : Except Abort (Buf R) := do
  let t1 := (← x.read (3 * n4 + i1)) + (← x.read (2 * n4 + i1))
  let x ← x.write (3 * n4 + i1) ((← x.read (3 * n4 + i1)) - (← x.read (2 * n4 + i1)))
  let x ← x.write (2 * n4 + i1) ((← x.read i1) - t1)
  x.write i1 ((← x.read i1) + t1)

def rstage50 (sqrtHalf : R) (i2 : ℕ) (x : Buf R) : Except Abort (Buf R) := do
  let t1 := ((← x.read (2 * n4 + i2)) + (← x.read (3 * n4 + i2))) * sqrtHalf
  let t2 := ((← x.read (2 * n4 + i2)) - (← x.read (3 * n4 + i2))) * sqrtHalf
  let x ← x.write (3 * n4 + i2) ((← x.read (n4 + i2)) - t1)
  let x ← x.write (2 * n4 + i2) (-(← x.read (n4 + i2)) - t1)
  let x ← x.write (n4 + i2) ((← x.read i2) - t2)
  x.write i2 ((← x.read i2) + t2)

def rstage80 (w : Twiddle R) (jn i1 : ℕ) (x : Buf R) : Except Abort (Buf R) := do
  let i2 := i1 + jn
  let t1 := (← x.read (2 * n4 + i1)) * w.cc1 + (← x.read (2 * n4 + i2)) * w.ss1
  let t2 := (← x.read (2 * n4 + i2)) * w.cc1 - (← x.read (2 * n4 + i1)) * w.ss1
  let t3 := (← x.read (3 * n4 + i1)) * w.cc3 + (← x.read (3 * n4 + i2)) * w.ss3
  let t4 := (← x.read (3 * n4 + i2)) * w.cc3 - (← x.read (3 * n4 + i1)) * w.ss3
  let t5 := t1 + t3
  let t3 := t1 - t3
  let t1 := t2 + t4
  let t4 := t2 - t4
  let x ← x.write (2 * n4 + i1) (t1 - (← x.read (n4 + i2)))
  let x ← x.write (3 * n4 + i2) (t1 + (← x.read (n4 + i2)))
  let x ← x.write (2 * n4 + i2) (-(← x.read (n4 + i1)) - t3)
  let x ← x.write (3 * n4 + i1) ((← x.read (n4 + i1)) - t3)
  let x ← x.write (n4 + i2) ((← x.read i1) - t5)
  let x ← x.write i1 ((← x.read i1) + t5)
  let x ← x.write (n4 + i1) ((← x.read i2) + t4)
  x.write i2 ((← x.read i2) - t4)

def irstage20 (i1 : ℕ) (x : Buf R) : Except Abort (Buf R) := do
  let t1 := (← x.read i1) - (← x.read (2 * n4 + i1))
  let x ← x.write i1 ((← x.read i1) + (← x.read (2 * n4 + i1)))
  let x ← x.write (n4 + i1) ((2 : ℕ) * (← x.read (n4 + i1)))
  let t2 := (2 : ℕ) * (← x.read (3 * n4 + i1))
  let x ← x.write (3 * n4 + i1) (t1 + t2)
  x.write (2 * n4 + i1) (t1 - t2)

def irstage50 (sqrtTwo : R) (i1 : ℕ) (x : Buf R) : Except Abort (Buf R) := do
  let t1 := ((← x.read (n4 + i1)) - (← x.read i1)) * sqrtTwo
  let t2 := ((← x.read (3 * n4 + i1)) + (← x.read (2 * n4 + i1))) * sqrtTwo
  let x ← x.write i1 ((← x.read i1) + (← x.read (n4 + i1)))
  let x ← x.write (n4 + i1) ((← x.read (3 * n4 + i1)) - (← x.read (2 * n4 + i1)))
  let x ← x.write (2 * n4 + i1) (-t2 - t1)
  x.write (3 * n4 + i1) (-t2 + t1)

def irstage80 (w : Twiddle R) (jn i1 : ℕ) (x : Buf R) : Except Abort (Buf R) := do
  let i2 := i1 + jn
  let t1 := (← x.read i1) - (← x.read (n4 + i2))
  let x ← x.write i1 ((← x.read i1) + (← x.read (n4 + i2)))
  let t2 := (← x.read i2) - (← x.read (n4 + i1))
  let x ← x.write i2 ((← x.read (n4 + i1)) + (← x.read i2))
  let t3 := (← x.read (3 * n4 + i2)) + (← x.read (2 * n4 + i1))
  let x ← x.write (n4 + i2) ((← x.read (3 * n4 + i2)) - (← x.read (2 * n4 + i1)))
  let t4 := (← x.read (3 * n4 + i1)) + (← x.read (2 * n4 + i2))
  let x ← x.write (n4 + i1) ((← x.read (3 * n4 + i1)) - (← x.read (2 * n4 + i2)))
  let t5 := t1 - t4
  let t1 := t1 + t4
  let t4 := t2 - t3
  let t2 := t2 + t3
  let x ← x.write (2 * n4 + i1) (t5 * w.cc1 + t4 * w.ss1)
  let x ← x.write (2 * n4 + i2) (-t4 * w.cc1 + t5 * w.ss1)
  let x ← x.write (3 * n4 + i1) (t1 * w.cc3 - t2 * w.ss3)
  x.write (3 * n4 + i2) (t2 * w.cc3 + t1 * w.ss3)

end Rstage

/-! ### Stages -/

section Stages

variable (c : Constants R) (n n2 n4 : ℕ) (hn2 : 0 < n2)

/-- The loops `DO 90` over `J`, which is `j + 1`. -/
def twiddles (n8 : ℕ) (body : Twiddle R → ℕ → ℕ → Buf R → Except Abort (Buf R)) (x : Buf R) :
    Except Abort (Buf R) := do
  let d := Twiddle.first c n2
  let s ← forFromM 1 n8 (fun j (s : Twiddle R × Buf R) => do
    let jn := n4 - 2 * j
    let x ← blocks hn2 n n j (body s.1 jn) (.first n2) s.2
    return (d.next s.1, x)) (d, x)
  return s.2

/-- What `RSTAGE` and `IRSTAGE` have in common; the loop `DO 50` ends at `last`. -/
def stage (n8 last : ℕ) (loop20 loop50 : ℕ → Buf R → Except Abort (Buf R))
    (loop80 : Twiddle R → ℕ → ℕ → Buf R → Except Abort (Buf R)) (x : Buf R) :
    Except Abort (Buf R) := do
  let x ← blocks hn2 n n 0 loop20 (.first n2) x
  if n4 ≤ 1 then return x
  let x ← blocks hn2 n last n8 loop50 (.first n2) x
  if n8 ≤ 1 then return x
  twiddles c n n2 n4 hn2 n8 loop80 x

def rstage : Buf R → Except Abort (Buf R) :=
  stage c n n2 n4 hn2 (n2 / 8) n (rstage20 n4) (rstage50 n4 c.sqrtHalf) (rstage80 n4)

def irstage : Buf R → Except Abort (Buf R) :=
  stage c n n2 n4 hn2 (n4 / 2) (n - 1) (irstage20 n4) (irstage50 n4 c.sqrtTwo) (irstage80 n4)

end Stages

variable (c : Constants R)

/-- In the turn `K` of the loop, `N2` is `2 ** K`. -/
def rsrfft (itab : Buf ℕ) (x : Buf R) (m : ℕ) : Except Abort (Buf R) := do
  let n := 2 ^ m
  let x ← rbitrev itab x m
  let x ← blocks Nat.zero_lt_two n (n - 1) 0 butterfly2 (.first 2) x
  forFromM 2 (m + 1) (fun k => rstage c n (2 ^ k) (2 ^ k / 4) (Nat.two_pow_pos k)) x

/-- In the turn `K` of the loop, `N2` is `2 * N / 2 ** K`. -/
def irsrfft (itab : Buf ℕ) (x : Buf R) (m : ℕ) : Except Abort (Buf R) := do
  let n := 2 ^ m
  let x ← forFromM 1 m (fun k =>
    irstage c n (2 ^ (m + 1 - k)) (2 ^ (m + 1 - k) / 4) (Nat.two_pow_pos _)) x
  let x ← blocks Nat.zero_lt_two n (n - 1) 0 butterfly2 (.first 2) x
  let x ← rbitrev itab x m
  forRangeM n (fun i x => do x.write i ((← x.read i) / n)) x

/-! ### The benchees -/

variable (inverse : Bool) (sizeofReal : UInt64)

def canDo (p : Problem) : Bool :=
  -- it becomes unstable for large `N`
  singlePrecision sizeofReal && p.rank = 1 && p.dims.headD 0 ≤ 16384 &&
    (if inverse then p.sign = 1 else p.sign = -1) && problemRealPowerOfTwo p true

def setup (p : Problem) (io : IoBuffers R) : Except Abort (IoBuffers R) := do
  benchAssert (canDo inverse sizeofReal p)
  return io

/-- `M`, from `setup` on. -/
def m (p : Problem) : ℕ := log2 (p.dims.headD 0)

/-- Before the call `i`, `ITAB` holds `itab i`. -/
def doit (itab : ℕ → ℕ → ℕ) (iter : ℕ) (p : Problem) (io : IoBuffers R) :
    Except Abort (IoBuffers R) :=
  -- the two routines cannot be linked in the same program
  let routine := if inverse then irsrfft c else rsrfft c
  forRangeM iter (fun i => IoBuffers.onIn fun x => routine ⟨256, itab i⟩ x (m p)) io

def benchee (itab : ℕ → ℕ → ℕ) : Benchee R where
  canDo := canDo inverse sizeofReal
  setup := setup inverse sizeofReal
  doit := doit c inverse itab
  copyC2h p inp := IoBuffers.onIn fun pin => copyC2h1dHalfcomplex u32 p pin inp (-1)
  copyH2c p io out := copyH2c1dHalfcomplex u32 p io.pout out (-1)
  afterProblemCcopyTo p _ out := .ok (unnormalize p out 1)

end BenchFFT.Sorensen
