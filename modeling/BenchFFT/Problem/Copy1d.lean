import BenchFFT.Problem.Copy

/-!
# One-dimensional hermitian formats

The loops over `1 ≤ k < (n + 1) / 2` run `j = k - 1` from `0`; the value of `k` after such a loop is
`(n + 1) / 2 - 1 + 1`, which is `1` when the loop is empty.
-/

namespace BenchFFT

variable {R : Type*} [Mul R] [Neg R] (word : ℕ → ℕ) (p : Problem)

/-! ### `fftpack`: `r[0] r[1] i[1] r[2] i[2] … r[n/2]` -/

def copyC2h1dFftpack (pin : Buf R) (inp : ℕ → BenchComplex R) (signOfR2hTransform : R) :
    Except Abort (Buf R) := do
  benchAssert (p.rank = 1)
  benchAssert (p.kind = .real)
  let n := p.dims.headD 0
  let steps := word (n + 1) / 2 - 1
  let k := steps + 1
  let pin ← pin.write 0 (inp 0).re
  -- before step `j`, `pin` has been advanced `2 * j + 1` times
  let pin ← forRangeM steps (fun j pin => do
    let pin ← pin.write (2 * j + 1) (inp (j + 1)).re
    pin.write (2 * j + 2) (-signOfR2hTransform * (inp (j + 1)).im)) pin
  if word (2 * k) = n then pin.write (2 * steps + 1) (inp k).re else return pin

def copyH2c1dFftpack [Zero R] (pout : Buf R) (out : ℕ → BenchComplex R) (signOfR2hTransform : R) :
    Except Abort (ℕ → BenchComplex R) := do
  benchAssert (p.rank = 1)
  benchAssert (p.kind = .real)
  let n := p.dims.headD 0
  let steps := word (n + 1) / 2 - 1
  let k := steps + 1
  let re ← pout.read 0
  let out := Function.update out 0 ⟨re, 0⟩
  let out ← forRangeM steps (fun j out => do
    let re ← pout.read (2 * j + 1)
    let im ← pout.read (2 * j + 2)
    let a : BenchComplex R := ⟨re, -signOfR2hTransform * im⟩
    let out := Function.update out (j + 1) a
    return Function.update out (n - (j + 1)) ⟨a.re, -a.im⟩) out
  if word (2 * k) = n then do
    let re ← pout.read (2 * steps + 1)
    return Function.update out k ⟨re, 0⟩
  else return out

/-! ### `halfcomplex`: `r[0] r[1] … r[n/2] i[(n-1)/2] … i[1]` -/

def copyC2h1dHalfcomplex (pin : Buf R) (inp : ℕ → BenchComplex R) (signOfR2hTransform : R) :
    Except Abort (Buf R) := do
  benchAssert (p.rank = 1)
  benchAssert (p.kind = .real)
  let n := p.dims.headD 0
  let steps := word (n + 1) / 2 - 1
  let k := steps + 1
  let pin ← if n > 0 then pin.write 0 (inp 0).re else pure pin
  let pin ← forRangeM steps (fun j pin => do
    let pin ← pin.write (j + 1) (inp (j + 1)).re
    pin.write (n - (j + 1)) (-signOfR2hTransform * (inp (j + 1)).im)) pin
  if word (2 * k) = n then pin.write k (inp k).re else return pin

def copyH2c1dHalfcomplex [Zero R] (pout : Buf R) (out : ℕ → BenchComplex R)
    (signOfR2hTransform : R) : Except Abort (ℕ → BenchComplex R) := do
  benchAssert (p.rank = 1)
  benchAssert (p.kind = .real)
  let n := p.dims.headD 0
  let steps := word (n + 1) / 2 - 1
  let k := steps + 1
  let out ← if n > 0 then do
      let re ← pout.read 0
      pure (Function.update out 0 ⟨re, 0⟩)
    else pure out
  let out ← forRangeM steps (fun j out => do
    let re ← pout.read (j + 1)
    let im ← pout.read (n - (j + 1))
    let a : BenchComplex R := ⟨re, -signOfR2hTransform * im⟩
    let out := Function.update out (j + 1) a
    return Function.update out (n - (j + 1)) ⟨a.re, -a.im⟩) out
  if word (2 * k) = n then do
    let re ← pout.read k
    return Function.update out k ⟨re, 0⟩
  else return out

/-! ### `packed`: `r[0] r[n/2] r[1] i[1] …`, for even `n` -/

def copyC2h1dPackedStrided (n : ℕ) (pin : Buf R) (rstride : ℕ) (inp : ℕ → BenchComplex R)
    (cstride : ℕ) (signOfR2hTransform : R) : Except Abort (Buf R) := do
  benchAssert (n % 2 = 0)
  let pin ← forRangeM (n / 2) (fun k pin => do
    let a := inp (word (k * cstride))
    let pin ← pin.write (word (word (2 * k) * rstride)) a.re
    pin.write (word (word (2 * k + 1) * rstride)) (-signOfR2hTransform * a.im)) pin
  let k := n / 2
  if k > 0 then pin.write rstride (inp (word (k * cstride))).re else return pin

def copyC2h1dPacked (pin : Buf R) (inp : ℕ → BenchComplex R) (signOfR2hTransform : R) :
    Except Abort (Buf R) := do
  benchAssert (p.rank = 1)
  benchAssert (p.kind = .real)
  copyC2h1dPackedStrided word (p.dims.headD 0) pin 1 inp 1 signOfR2hTransform

/-- `c_re(out[i]) = x`. -/
def setRe (out : ℕ → BenchComplex R) (i : ℕ) (x : R) : ℕ → BenchComplex R :=
  Function.update out i ⟨x, (out i).im⟩

/-- `c_im(out[i]) = x`. -/
def setIm (out : ℕ → BenchComplex R) (i : ℕ) (x : R) : ℕ → BenchComplex R :=
  Function.update out i ⟨(out i).re, x⟩

def copyH2c1dPackedStrided [Zero R] (n : ℕ) (pout : Buf R) (rstride : ℕ)
    (out : ℕ → BenchComplex R) (cstride : ℕ) (signOfR2hTransform : R) :
    Except Abort (ℕ → BenchComplex R) := do
  benchAssert (n % 2 = 0)
  let out ← if n > 0 then do
      let half := word (n / 2 * cstride)
      let out := setRe out 0 (← pout.read 0)
      let out := setRe out half (← pout.read rstride)
      let out := setIm out 0 0
      pure (setIm out half 0)
    else pure out
  forRangeM (n / 2 - 1) (fun j out => do
    let k := j + 1
    let re ← pout.read (word (word (2 * k) * rstride))
    let im ← pout.read (word (word (2 * k + 1) * rstride))
    let out := Function.update out (word (k * cstride)) ⟨re, -signOfR2hTransform * im⟩
    return Function.update out (word ((n - k) * cstride)) ⟨re, signOfR2hTransform * im⟩) out

def copyH2c1dPacked [Zero R] (pout : Buf R) (out : ℕ → BenchComplex R) (signOfR2hTransform : R) :
    Except Abort (ℕ → BenchComplex R) := do
  benchAssert (p.rank = 1)
  benchAssert (p.kind = .real)
  copyH2c1dPackedStrided word (p.dims.headD 0) pout 1 out 1 signOfR2hTransform

/-! ### `ri`: the first `1 + n/2` real parts, then as many imaginary parts -/

def copyC2h1dUnpackedRi (pin : Buf R) (inp : ℕ → BenchComplex R) (signOfR2hTransform : R) :
    Except Abort (Buf R) := do
  benchAssert (p.rank = 1)
  benchAssert (p.kind = .real)
  let n := p.dims.headD 0
  let ipin := n / 2 + 1
  forRangeM (word (1 + n / 2)) (fun k pin => do
    let pin ← pin.write k (inp k).re
    pin.write (ipin + k) (-signOfR2hTransform * (inp k).im)) pin

def copyH2c1dUnpackedRi (pout : Buf R) (out : ℕ → BenchComplex R) (signOfR2hTransform : R) :
    Except Abort (ℕ → BenchComplex R) := do
  benchAssert (p.rank = 1)
  benchAssert (p.kind = .real)
  let n := p.dims.headD 0
  let ipout := n / 2 + 1
  let out ← if n > 0 then do
      let re ← pout.read 0
      let im ← pout.read ipout
      pure (Function.update out 0 ⟨re, -signOfR2hTransform * im⟩)
    else pure out
  forRangeM (word (1 + n / 2) - 1) (fun j out => do
    let k := j + 1
    let re ← pout.read k
    let im ← pout.read (ipout + k)
    let out := Function.update out k ⟨re, -signOfR2hTransform * im⟩
    return Function.update out (n - k) ⟨re, signOfR2hTransform * im⟩) out

end BenchFFT
