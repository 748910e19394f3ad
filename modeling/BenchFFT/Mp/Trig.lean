import BenchFFT.Mp.Convert
import BenchFFT.Mp.Fft

/-!
# Sines and cosines (`mp.c`)

`cos2pi(m, n)` and `sin2pi(m, n)` reduce the angle `2*pi*m/n` to an octant and evaluate a Taylor
series there.  The reduction is written over any type of numbers, with the two evaluations in the
octant as arguments.  Its differences are exact in binary floating point, as neither operand is more
than twice the other one when `0 ≤ m ≤ n`.
-/

namespace BenchFFT.Mp

/-! ### Constants -/

/-- A number from its digits, the least significant one first. -/
def ofDigits (sign : ℤ) (expt : Int16) (digits : List UInt16) : N where
  sign := sign
  expt := expt
  d := fun i => digits.getD i 0

/-- `2 pi`. -/
def n2pi : N :=
  ofDigits 1 1 [18450, 59017, 1760, 5212, 9779, 4518, 2886, 54545, 18558, 6]

/-- `1 / 31!`. -/
def i31fac : N :=
  ofDigits 1 (-7) [28087, 45433, 51357, 24545, 14291, 3954, 57879, 8109, 38716, 41382]

/-- `1 / 32!`. -/
def i32fac : N :=
  ofDigits 1 (-7) [52078, 60811, 3652, 39679, 37310, 47227, 28432, 57597, 13497, 1293]

/-! ### Taylor series -/

/-- A step of the loops of `msin` and `mcos`, on `(g, b)`. -/
def taylorStep (a2 : N) (i : ℤ) (s : N × N) : N × N :=
  let k := N.fromshort (i * (i - 1))
  let g := k * s.1
  let k := a2 * s.2
  (g, g - k)

/-- `for (i = top; …; i -= 2)`, `steps` times. -/
def taylorLoop (a2 : N) (top : ℤ) (steps : ℕ) (s : N × N) : N × N :=
  forRange steps (fun j => taylorStep a2 (top - 2 * j)) s

def msin (a : N) : N :=
  let a2 := a * a
  let (_, b) := taylorLoop a2 31 15 (i31fac, i31fac)
  a * b

def mcos (a : N) : N :=
  let a2 := a * a
  let (_, b) := taylorLoop a2 32 16 (i32fac, i32fac)
  b

/-! ### Octants -/

/-- `2*pi*m/n`. -/
def by2pi (rnd : ℚ → ℚ) (m n : ℚ) : Option N := do
  let b ← fromreal (.fin n)
  let a ← inv rnd b
  let b ← fromreal (.fin m)
  let a := a * b
  return n2pi * a

/-- A call of `cos2pi` or of `sin2pi`. -/
inductive Octant
  | cos (m n : ℚ)
  | sin (m n : ℚ)

section Octant

variable {A : Type} [Neg A] (baseCos baseSin : ℚ → ℚ → Option A)

/-- The two functions call each other. -/
def Octant.eval : Octant → Option A
  | .cos m n =>
    if m < 0 then Octant.cos (-m) n |>.eval
    else if m > n * (1 / 2) then Octant.cos (n - m) n |>.eval
    else if m > n * (1 / 4) then do
      let a ← Octant.sin (m - n * (1 / 4)) n |>.eval
      return -a
    else if m > n * (1 / 8) then Octant.sin (n * (1 / 4) - m) n |>.eval
    else baseCos m n
  | .sin m n =>
    if m < 0 then do
      let a ← Octant.sin (-m) n |>.eval
      return -a
    else if m > n * (1 / 2) then do
      let a ← Octant.sin (n - m) n |>.eval
      return -a
    else if m > n * (1 / 4) then Octant.cos (m - n * (1 / 4)) n |>.eval
    else if m > n * (1 / 8) then Octant.cos (n * (1 / 4) - m) n |>.eval
    else baseSin m n
partial_fixpoint

def cosOctant (m n : ℚ) : Option A := (Octant.cos m n).eval baseCos baseSin

def sinOctant (m n : ℚ) : Option A := (Octant.sin m n).eval baseCos baseSin

end Octant

variable (rnd : ℚ → ℚ)

/-- The evaluation of `cos2pi` in the first octant. -/
def baseCos (m n : ℚ) : Option N := (by2pi rnd m n).map mcos

/-- The evaluation of `sin2pi` in the first octant. -/
def baseSin (m n : ℚ) : Option N := (by2pi rnd m n).map msin

def cos2pi (m n : ℚ) : Option N := cosOctant (baseCos rnd) (baseSin rnd) m n

def sin2pi (m n : ℚ) : Option N := sinOctant (baseCos rnd) (baseSin rnd) m n

/-! ### The numbers of the transform -/

/-- The operations of `mp.c` on its own numbers; `sqrt` is that of the C library. -/
def mpArith (sqrt : Real' → Real') : Arith Real' N where
  fromreal := fromreal
  toreal a := .fin (toreal rnd a)
  inv := inv rnd
  cexpBuiltin := cexpBuiltin N.fromshort (fun m n : ℚ => cos2pi rnd m n) fun m n => sin2pi rnd m n
  sqrt := sqrt

end BenchFFT.Mp
