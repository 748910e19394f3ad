import BenchFFT.Sizes.Prime

/-!
# The sizes of ESSL (`benchees/essl/doit.c`)
-/

namespace BenchFFT.Essl

/-- `for (log2 = 0; N > 1 && N % 2 == 0; N /= 2, log2 += 1);`, on `(N, log2)`. -/
def stripTwos : ForEver (UInt32 × ℤ) (UInt32 × ℤ) where
  body s :=
    if s.1 > 1 ∧ s.1 % 2 = 0 then (int (s.2 + 1)).map fun log2 => .inr (s.1 / 2, log2)
    else some (.inl s)

/-- The body of the loop of `n_ok`: `true` goes on, `false` is `return 0`. -/
def sizeOk (N : UInt32) : Except Abort (Option Bool) :=
  if N > 37748736 then return some false
  else
    match stripTwos.run (N, 0) with
    | none => return none
    | some (N, log2) =>
      if log2 < 1 ∨ log2 > 25 then return some false
      else do
        match ← checkPrimeFactors N 11 with
        | none => return none
        | some numFacts =>
          if numFacts = 0 then return some false
          else return some (!(N % (3 * 3 * 3) = 0 ∨
            N % (5 * 5) = 0 ∨ N % (7 * 7) = 0 ∨ N % (11 * 11) = 0))

/-- The list is `n[0], …, n[rank - 1]`.  The kind of the problem makes no difference. -/
def nOk : (n : List UInt32) → (isReal : Bool) → Except Abort (Option ℤ)
  | [], _ => return some 1
  | N :: n, isReal => do
    match ← sizeOk N with
    | none => return none
    | some false => return some 0
    | some true => nOk n isReal

def canDo (p : Problem) : Except Abort (Option ℤ) :=
  if p.rank ≥ 1 ∧ p.rank ≤ 3 then nOk p.n (p.kind = .real) else return some 0

end BenchFFT.Essl
