import BenchFFT.Mp.Trig

/-!
# Calls of the functions on numbers (`mp.c`)

A `Call` is a call of a function that hands numbers on to its caller, or of `fftaccuracy_done`,
which only releases tables.  An array of `n` complex numbers has `2 * n` cells.
-/

namespace BenchFFT.Mp

/-- A number whose bytes are all zero. -/
def blank : N where
  sign := 0
  expt := 0
  d := fun _ => 0

inductive Call where
  | fromreal (x : ℚ)
  | fromshort (x : ℤ)
  | pack (d : ℕ → UInt16) (e s : ℤ) (l : ℕ)
  | add (a b : N)
  | sub (a b : N)
  | mul (a b : N)
  | inv (a : N)
  | msin (a : N)
  | mcos (a : N)
  | by2pi (m n : ℚ)
  | cos2pi (m n : ℚ)
  | sin2pi (m n : ℚ)
  | cexpBuiltin (m n : ℤ)
  | bluesteinSequence (n : ℕ)
  | fft0 (n : ℕ) (a : Fin (2 * n) → N) (sign : ℤ)
  | bluestein (n : ℕ) (a : Fin (2 * n) → N)
  | fftaccuracyDone

/-- The cells of an array, and `0` beyond its end. -/
def cells {n : ℕ} (a : Fin n → N) (k : ℕ) : N := if h : k < n then a ⟨k, h⟩ else 0

/-- The numbers in an array of `n` complex numbers. -/
def numbers (n : ℕ) (a : ℕ → N) : List N := (List.range (2 * n)).map a

/-- The numbers that a call hands on. -/
def Call.run (rnd : ℚ → ℚ) (sqrt : Real' → Real') : Call → Prog N (List N)
  | .fromreal x => return [← ofOption (Mp.fromreal (.fin x))]
  | .fromshort x => return [N.fromshort x]
  | .pack d e s l => return [N.pack d e s l]
  | .add a b => return [a + b]
  | .sub a b => return [a - b]
  | .mul a b => return [a * b]
  | .inv a => return [← ofOption (Mp.inv rnd a)]
  | .msin a => return [Mp.msin a]
  | .mcos a => return [Mp.mcos a]
  | .by2pi m n => return [← ofOption (Mp.by2pi rnd m n)]
  | .cos2pi m n => return [← ofOption (Mp.cos2pi rnd m n)]
  | .sin2pi m n => return [← ofOption (Mp.sin2pi rnd m n)]
  | .cexpBuiltin m n => do
    let (r, i) ← (mpArith rnd sqrt).cexpBuiltin m n
    return [r, i]
  | .bluesteinSequence n => do
    let w ← benchMalloc
    let w ← Mp.bluesteinSequence (mpArith rnd sqrt).cexpBuiltin n w
    return numbers n w
  | .fft0 n a sign => do
    let a ← Mp.fft0 (mpArith rnd sqrt).cexpBuiltin n (cells a) sign
    return numbers n a
  | .bluestein n a => do
    let a ← Mp.bluestein (mpArith rnd sqrt) n (cells a)
    return numbers n a
  | .fftaccuracyDone => do
    Mp.fftaccuracyDone
    return []

/-- The static variables after a sequence of calls, in a process whose heap holds `fresh`. -/
def afterCalls (rnd : ℚ → ℚ) (sqrt : Real' → Real') (fresh : ℕ → ℕ → N) (calls : List Call) :
    Except Stop (Statics N) := do
  let (_, st) ← (calls.forM fun c => do let _ ← c.run rnd sqrt) (initialStatics blank fresh)
  return st

/-- Whether a call hands on `fromshort(0)`: `cexp_builtin` starts from `1 + 0 i`, which no factor
changes if `m` is `0`, and this is the first entry of `bluestein_sequence`. -/
def Call.handsOnShortZero : Call → Bool
  | .fromshort x => x = 0
  | .cexpBuiltin m _ => m = 0
  | .bluesteinSequence n => 0 < n
  | _ => false

end BenchFFT.Mp
