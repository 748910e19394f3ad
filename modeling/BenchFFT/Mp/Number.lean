import BenchFFT.Loop
import Mathlib.Algebra.Group.Nat.Defs
import Mathlib.Data.Int.Notation
import Mathlib.Data.Fintype.Pi

/-!
# Multiprecision numbers (`mp.c`, up to `mul`)

A number `N` has `LEN = 10` digits in base `RADIX = 65536`, the most significant one last, and an
exponent: its value is `sign * 0.d[9]d[8]…d[0] * 65536^expt`.  A `short` is an `Int16`, and the
digits are `UInt16`.  The sign is an integer, as no sum or product of signs leaves `-1, 0, 1`.

An accumulator `ACC` is an `unsigned long`, of `w` bits: 32 on some platforms, and 64 on others.
The operations of `N` are those with 64 bits.

Local arrays of digits are functions on the natural numbers.
-/

namespace BenchFFT.Mp

/-- `LEN`. -/
def len : ℕ := 10

structure N where
  sign : ℤ
  expt : Int16
  d : Fin len → UInt16
  deriving DecidableEq

/-- `ZEROEXP`. -/
def zeroExp : Int16 := -32768

/-- `a->d[i]`. -/
def N.digit (a : N) (i : ℕ) : UInt16 := if h : i < len then a.d ⟨i, h⟩ else 0

/-! ### Accumulators -/

/-- `RADIX`. -/
def radix (w : ℕ) : BitVec w := 65536

section Accumulators

variable {w : ℕ}

/-- `(ACC)d`. -/
def ofDigit (d : UInt16) : BitVec w := d.toBitVec.setWidth w

/-- `LO(x)`, stored in a digit. -/
def lo (x : BitVec w) : UInt16 := UInt16.ofBitVec ((x &&& (radix w - 1)).setWidth 16)

/-- `HI(x)`. -/
def hi (x : BitVec w) : BitVec w := x >>> 16

/-- `HI_SIGNED(x)`. -/
def hiSigned (x : BitVec w) : BitVec w :=
  ((x + (radix w >>> 1) * radix w) >>> 16) - (radix w >>> 1)

/-- `r += x; d[i] = LO(r); r = carry(r)`. -/
def column (carry : BitVec w → BitVec w) (x : BitVec w) (i : ℕ) (s : BitVec w × (ℕ → UInt16)) :
    BitVec w × (ℕ → UInt16) :=
  let r := s.1 + x
  (carry r, Function.update s.2 i (lo r))

end Accumulators

namespace N

def zero : N where
  sign := 1
  expt := zeroExp
  d := fun _ => 0

def fromshort (x : ℤ) : N where
  sign := if x < 0 then -1 else 1
  expt := 1
  d := fun i => if i.val = len - 1 then UInt16.ofInt (if x < 0 then -x else x) else 0

/-- `pack(d, e, s, l, a)`: the digits from the most significant one that is not `0`. -/
def pack (d : ℕ → UInt16) (e s : ℤ) : ℕ → N
  | 0 => zero
  | i + 1 =>
    if d i ≠ 0 then
      { sign := s
        expt := Int16.ofInt e
        -- `i` and `j` run down together, from `i` and `LEN - 1`; digits below `d[0]` are `0`
        d := fun j => if len - 1 ≤ i + j.val then d (i + j.val - (len - 1)) else 0 }
    else pack d (e - 1) s i

/-! ### Comparison -/

/-- The sign of the first difference of the digits below `i`, from the most significant one. -/
def cmpDigits (a b : N) : ℕ → ℤ
  | 0 => 0
  | i + 1 =>
    if b.digit i < a.digit i then 1
    else if a.digit i < b.digit i then -1
    else cmpDigits a b i

def abscmp (a b : N) : ℤ :=
  if b.expt < a.expt then 1
  else if a.expt < b.expt then -1
  else cmpDigits a b len

def eq (a b : N) : Bool := a.sign = b.sign ∧ abscmp a b = 0

/-! ### Sums -/

/-- `EXA - EXB`, where it is not negative. -/
def shift (a b : N) : ℕ := (a.expt.toInt - b.expt.toInt).toNat

section Sums

variable (w : ℕ)

/-- The loops of `addmag0`: the last carry and the digits. -/
def addColumns (a b : N) : BitVec w × (ℕ → UInt16) :=
  let st := forRange (len - shift a b) (fun ia =>
    column hi (ofDigit (a.digit ia) + ofDigit (b.digit (ia + shift a b))) ia) (0, fun _ => 0)
  forFrom (len - shift a b) len (fun ia => column hi (ofDigit (a.digit ia)) ia) st

/-- Adds magnitudes, for `|a| >= |b|`. -/
def addmag0 (s : ℤ) (a b : N) : N :=
  let (r, d) := addColumns w a b
  pack (Function.update d len (lo r)) (a.expt.toInt + 1) (s * a.sign) (len + 1)

def addmag (s : ℤ) (a b : N) : N := if 0 < abscmp a b then addmag0 w 1 a b else addmag0 w s b a

/-- The loops of `submag0`: the last borrow and the digits. -/
def subColumns (a b : N) : BitVec w × (ℕ → UInt16) :=
  let st := forRange (len - shift a b) (fun ia =>
    column hiSigned (ofDigit (a.digit ia) - ofDigit (b.digit (ia + shift a b))) ia)
    (0, fun _ => 0)
  forFrom (len - shift a b) len (fun ia => column hiSigned (ofDigit (a.digit ia)) ia) st

/-- Subtracts magnitudes, for `|a| >= |b|`. -/
def submag0 (s : ℤ) (a b : N) : N :=
  let (_, d) := subColumns w a b
  pack d a.expt.toInt (s * a.sign) len

def submag (s : ℤ) (a b : N) : N := if 0 < abscmp a b then submag0 w 1 a b else submag0 w s b a

/-- `a + b`. -/
def add (a b : N) : N := if a.sign = b.sign then addmag w 1 a b else submag w 1 a b

/-- `a - b`. -/
def sub (a b : N) : N := if a.sign = b.sign then submag w (-1) a b else addmag w (-1) a b

end Sums

/-! ### Products -/

section Products

variable {w : ℕ}

/-- The first `n` columns of row `i` of `mul`, with `ai = a->d[i]`. -/
def mulColumns (ai : BitVec w) (b : N) (i n : ℕ) (d : ℕ → UInt16) : BitVec w × (ℕ → UInt16) :=
  forRange n (fun j st =>
    column hi (ai * ofDigit (b.digit j) + ofDigit (st.2 (i + j))) (i + j) st) (0, d)

/-- Adds `ai * b` to the digits from `d[i]` on. -/
def mulRow (ai : BitVec w) (b : N) (i : ℕ) (d : ℕ → UInt16) : ℕ → UInt16 :=
  let (r, d) := mulColumns ai b i len d
  Function.update d (i + len) (lo r)

variable (w)

/-- The first `n` rows of `mul`. -/
def mulRows (a b : N) (n : ℕ) : ℕ → UInt16 :=
  forRange n (fun i d =>
    let ai : BitVec w := ofDigit (a.digit i)
    if ai ≠ 0 then mulRow ai b i d else d) (fun _ => 0)

def mul (a b : N) : N :=
  pack (mulRows w a b len) (a.expt.toInt + b.expt.toInt) (a.sign * b.sign) (2 * len)

end Products

/-- `neg(a)`. -/
def neg (a : N) : N := { a with sign := -a.sign }

instance : Zero N := ⟨zero⟩
instance : Add N := ⟨add 64⟩
instance : Sub N := ⟨sub 64⟩
instance : Mul N := ⟨mul 64⟩
instance : Neg N := ⟨neg⟩

end N

end BenchFFT.Mp
