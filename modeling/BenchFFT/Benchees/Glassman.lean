import BenchFFT.Benchees.Benchee
import BenchFFT.Verify.Tests

/-!
# The benchee `glassman` (`benchees/glassman/doit.c`, `benchees/glassman/glassman-fft-patched.f`)

Glassman's transform of any size: each stage takes the smallest factor out of what is left of the
size, and goes from one array to the other.  Indices are from `0` on.
-/

namespace BenchFFT.Glassman

variable {R : Type} [Field R]

def cadd (x y : BenchComplex R) : BenchComplex R := ⟨x.re + y.re, x.im + y.im⟩

def cmul (x y : BenchComplex R) : BenchComplex R :=
  ⟨x.re * y.re - x.im * y.im, x.re * y.im + x.im * y.re⟩

/-- The element `(i, j, k)` of an array with the dimensions `(n1, n2, *)`. -/
def index (n1 n2 i j k : ℕ) : ℕ := i + n1 * (j + n2 * k)

section Stage

variable (trig : Verify.Trig R) (a b c : ℕ) (isign : ℤ)

/-- `DELTA`, where `n` is `A * C`. -/
def delta (n : ℕ) : BenchComplex R :=
  let angle := trig.k2pi / n
  if isign = 1 then ⟨trig.cos angle, trig.sin angle⟩ else ⟨trig.cos angle, -trig.sin angle⟩

/-- `SUM`, by Horner's rule. -/
def sum (uin : Buf (BenchComplex R)) (omega : BenchComplex R) (ib ia : ℕ) :
    Except Abort (BenchComplex R) := do
  let sum ← uin.read (index b c ib (c - 1) ia)
  forRangeM (c - 1) (fun jcr sum => do
    let jc := c - 2 - jcr
    return cadd (← uin.read (index b c ib jc ia)) (cmul omega sum)) sum

def spcpft (uin uout : Buf (BenchComplex R)) : Except Abort (Buf (BenchComplex R)) := do
  let delta := delta trig isign (a * c)
  let s ← forRangeM c (fun ic => forRangeM a fun ia (s : BenchComplex R × Buf _) => do
    let uout ← forRangeM b (fun ib uout => do
      let sum ← sum b c uin s.1 ib ia
      uout.write (index b a ib ia ic) sum) s.2
    return (cmul delta s.1, uout)) (⟨1, 0⟩, uout)
  return s.2

end Stage

/-- `DO WHILE (MOD(B,C) .NE. 0)`; it ends at `b`. -/
def factorFrom (b c : ℕ) : ℕ := if c < b ∧ b % c ≠ 0 then factorFrom b (c + 1) else c
termination_by b - c

theorem le_factorFrom (b c : ℕ) : c ≤ factorFrom b c := by
  induction c using factorFrom.induct b with
  | case1 c h ih =>
    rw [factorFrom, if_pos h]
    omega
  | case2 c h =>
    rw [factorFrom, if_neg h]

structure State (R : Type) where
  a : ℕ
  b : ℕ
  c : ℕ
  inu : Bool
  u : Buf (BenchComplex R)
  work : Buf (BenchComplex R)

variable (trig : Verify.Trig R) (isign : ℤ)

/-- `DO WHILE (B .GT. 1)` -/
def stages (s : State R) : Except Abort (State R) :=
  if h : 1 < s.b then
    let a := s.c * s.a
    let c := factorFrom s.b 2
    let b := s.b / c
    have : b < s.b := Nat.div_lt_self (by omega) (le_factorFrom s.b 2)
    if s.inu then do
      let work ← spcpft trig a b c isign s.u s.work
      stages ⟨a, b, c, false, s.u, work⟩
    else do
      let u ← spcpft trig a b c isign s.work s.u
      stages ⟨a, b, c, true, u, s.work⟩
  else .ok s
termination_by s.b

/-- After an odd number of stages the result is in `WORK`. -/
def swapWork (n : ℕ) (s : State R) : Except Abort (Buf (BenchComplex R)) :=
  if s.inu then return s.u else forRangeM n (fun i u => do u.write i (← s.work.read i)) s.u

/-- What `SPCFFT` leaves in `U`. -/
def spcfft (u : Buf (BenchComplex R)) (n : ℕ) (work : Buf (BenchComplex R)) (interp : R) :
    Except Abort (Buf (BenchComplex R)) := do
  let s ← stages trig isign ⟨1, n, 1, true, u, work⟩
  let u ← swapWork n s
  -- `SCALE` has no value for other signs
  if isign = 1 then
    forRangeM n (fun i u => do
      let x ← u.read i
      u.write i ⟨x.re / (n / interp), x.im / (n / interp)⟩) u
  else return u

/-! ### The benchee -/

def canDo (sizeofReal : UInt64) (p : Problem) : Bool :=
  singlePrecision sizeofReal && p.rank = 1 && p.kind = .complex && problemInPlace p

def setup (sizeofReal : UInt64) (p : Problem) (io : IoBuffers R) :
    Except Abort (IoBuffers R) := do
  benchAssert (canDo sizeofReal p)
  return io

/-- Before the call `i`, `WORK` holds `work i`. -/
def doit (work : ℕ → ℕ → BenchComplex R) (iter : ℕ) (p : Problem) (io : IoBuffers R) :
    Except Abort (IoBuffers R) :=
  let n := p.size.toNat
  forRangeM iter (fun i => IoBuffers.onIn (Buf.onComplexes fun x =>
    spcfft trig p.sign x n ⟨n, work i⟩ 1)) io

def benchee (sizeofReal : UInt64) (work : ℕ → ℕ → BenchComplex R) : Benchee R where
  canDo := canDo sizeofReal
  setup := setup sizeofReal
  doit := doit trig work
  afterProblemCcopyTo p _ out := .ok (unnormalize p out 1)

end BenchFFT.Glassman
