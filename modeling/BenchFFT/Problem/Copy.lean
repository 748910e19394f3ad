import BenchFFT.Problem.Buffer
import Mathlib.Algebra.Group.Nat.Defs

/-!
# Zeroing and copying the I/O buffers

Routines named `copy_c2X` copy a complex array into `p->in`, which holds format `X`; those named
`copy_X2c` copy `p->out` into a complex array.  Here a routine takes the buffer as an argument, with
the type its pointer has in the source: a `bench_real *` is a buffer of reals and a
`bench_complex *` one of complex numbers.

Sizes and indices computed in `unsigned int` pass through `word`: the remainder modulo `2 ^ 32` on
the machine (`u32`), the identity where an `unsigned int` is taken to be unbounded.  A pointer that
a loop advances is an offset, which does not wrap.
-/

namespace BenchFFT

variable {R : Type*}

/-- `unsigned int`. -/
def u32 (x : ℕ) : ℕ := x % 2 ^ 32

theorem u32_lt (x : ℕ) : u32 x < 2 ^ 32 := Nat.mod_lt _ (by decide)

theorem u32_eq {x : ℕ} (hx : x < 2 ^ 32) : u32 x = x := Nat.mod_eq_of_lt hx

/-! ### Whole arrays -/

def aset {α : Type*} (A : Buf α) (n : ℕ) (x : α) : Except Abort (Buf α) :=
  forRangeM n (fun i A => A.write i x) A

section Complex

variable (p : Problem)

/-- `cacopy(in, p->in, p->size)`. -/
def copyC2cFrom (pin : Buf (BenchComplex R)) (inp : ℕ → BenchComplex R) :
    Except Abort (Buf (BenchComplex R)) :=
  forRangeM p.size.toNat (fun i pin => pin.write i (inp i)) pin

/-- `cacopy(p->out, out, p->size)`. -/
def copyC2cTo (pout : Buf (BenchComplex R)) (out : ℕ → BenchComplex R) :
    Except Abort (ℕ → BenchComplex R) :=
  forRangeM p.size.toNat (fun i out => do
    let a ← pout.read i
    return Function.update out i a) out

end Complex

/-! ### Real arrays -/

section Real

variable (word : ℕ → ℕ) (p : Problem)

/-- `p->n[p->rank - 1]`. -/
def lastDim : ℕ := p.dims.getLastD 0

/-- `n0 = 1; for (k0 = 0; k0 < p->rank - 1; ++k0) n0 *= p->n[k0];` -/
def leadingSize : ℕ := p.dims.dropLast.foldl (fun n0 n => word (n0 * n)) 1

def copyC2rPacked (pin : Buf R) (inp : ℕ → BenchComplex R) : Except Abort (Buf R) :=
  forRangeM p.size.toNat (fun i pin => pin.write i (inp i).re) pin

def copyC2rUnpacked (pin : Buf R) (inp : ℕ → BenchComplex R) : Except Abort (Buf R) := do
  benchAssert (p.rank ≥ 1)
  benchAssert (p.kind = .real)
  let n := lastDim p
  let ld := word (2 * word (1 + n / 2))
  let n0 := leadingSize word p
  forRangeM n0 (fun k0 pin =>
    forRangeM n (fun k pin => pin.write (k0 * ld + k) (inp (k0 * n + k)).re) pin) pin

variable [Zero R]

def copyR2cPacked (pout : Buf R) (out : ℕ → BenchComplex R) : Except Abort (ℕ → BenchComplex R) :=
  forRangeM p.size.toNat (fun i out => do
    let a ← pout.read i
    return Function.update out i ⟨a, 0⟩) out

def copyR2cUnpacked (pout : Buf R) (out : ℕ → BenchComplex R) :
    Except Abort (ℕ → BenchComplex R) := do
  benchAssert (p.rank ≥ 1)
  benchAssert (p.kind = .real)
  let n := lastDim p
  let ld := word (2 * word (1 + n / 2))
  let n0 := leadingSize word p
  forRangeM n0 (fun k0 out =>
    forRangeM n (fun k out => do
      let a ← pout.read (k0 * ld + k)
      return Function.update out (k0 * n + k) ⟨a, 0⟩) out) out

end Real

/-! ### Unpacked hermitian arrays -/

section Hermitian

variable [Mul R] [Neg R] (word : ℕ → ℕ) (p : Problem)

def copyC2hUnpacked (pin : Buf (BenchComplex R)) (inp : ℕ → BenchComplex R)
    (signOfR2hTransform : R) : Except Abort (Buf (BenchComplex R)) := do
  benchAssert (p.rank ≥ 1)
  benchAssert (p.kind = .real)
  let n := lastDim p
  let ld := word (1 + n / 2)
  let n0 := leadingSize word p
  forRangeM n0 (fun k0 pin =>
    forRangeM (word (1 + n / 2)) (fun k pin =>
      let a := inp (k0 * n + k)
      pin.write (k0 * ld + k) ⟨a.re, -signOfR2hTransform * a.im⟩) pin) pin

/-- The recursion of `copy_h2c_unpacked`: `nb` numbers the rows to fill and `mnb` the mirrored ones.
A list without dimensions does not occur. -/
def cp (inp : Buf (BenchComplex R)) (out : ℕ → BenchComplex R) :
    (n : List ℕ) → (nb mnb : ℕ) → (sign : R) → Except Abort (ℕ → BenchComplex R)
  | [], _, _, _ => .ok out
  | [n0], nb, mnb, sign =>
    let ld := word (1 + n0 / 2)
    forRangeM n0 (fun k0 out => do
      let a ← if word (2 * k0) ≤ n0 then do
          let a ← inp.read (word (word (ld * nb) + k0))
          pure (BenchComplex.mk a.re (-sign * a.im))
        else do
          let a ← inp.read (word (word (ld * mnb) + (n0 - k0)))
          pure (BenchComplex.mk a.re (sign * a.im))
      return Function.update out (word (word (n0 * nb) + k0)) a) out
  | ni :: n, nb, mnb, sign => do
    let out ← cp inp out n (word (nb * ni)) (word (mnb * ni)) sign
    -- `ki = j + 1` runs from `1` to `ni - 1`
    forRangeM (ni - 1) (fun j out =>
      cp inp out n (word (word (nb * ni) + (j + 1))) (word (word (mnb * ni) + (ni - (j + 1))))
        sign) out

def copyH2cUnpacked (pout : Buf (BenchComplex R)) (out : ℕ → BenchComplex R)
    (signOfR2hTransform : R) : Except Abort (ℕ → BenchComplex R) := do
  benchAssert (p.kind = .real)
  benchAssert (p.rank ≥ 1)
  cp word pout out p.dims 0 0 signOfR2hTransform

end Hermitian

end BenchFFT
