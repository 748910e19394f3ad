import BenchFFT.BenchUser
import BenchFFT.Loop

/-!
# Small prime factors (`prime.c`)
-/

namespace BenchFFT

/-- The table `primes`. -/
def primes : List UInt32 :=
  [2, 3, 5, 7, 11, 13, 17, 19, 23, 29, 31,
    37, 41, 43, 47, 53, 59, 61, 67, 71, 73,
    79, 83, 89, 97, 101, 103, 107, 109, 113]

/-- `while (n % p == 0) { ++num_facts; n /= p; }`, on `(n, num_facts)`. -/
def divideOut (p : UInt32) : ForEver (UInt32 × ℤ) (UInt32 × ℤ) where
  body s :=
    if s.1 % p = 0 then (int (s.2 + 1)).map fun numFacts => .inr (s.1 / p, numFacts)
    else some (.inl s)

/-- The loop over the table, of which `ps` is left. -/
def divideOutAll (maxprime : UInt32) : (ps : List UInt32) → UInt32 → ℤ → Option (UInt32 × ℤ)
  | [], n, numFacts => some (n, numFacts)
  | p :: ps, n, numFacts =>
    if n > 1 ∧ p ≤ maxprime then do
      let (n, numFacts) ← (divideOut p).run (n, numFacts)
      divideOutAll maxprime ps n numFacts
    else some (n, numFacts)

/-- `none` is a loop that never ends, or a count that overflows. -/
def checkPrimeFactors (n maxprime : UInt32) : Except Abort (Option ℤ) := do
  benchAssert (maxprime ≤ primes.getLastD 0)
  if n = 0 then return some 1
  return do
    let (n, numFacts) ← divideOutAll maxprime primes n 0
    return if n = 1 then numFacts else 0

end BenchFFT
