import Mathlib.Data.Int.Notation
import Mathlib.Data.Nat.Notation
import Mathlib.Tactic.Attr.Core
import Mathlib.Tactic.TypeStar

/-!
# Types shared by the benchmark (`bench-user.h`)

`bench_real` is a type parameter: `ExtNum K` where infinities and NaN matter, an exact field where
the arithmetic is taken as exact.  Arrays are functions on the natural numbers; a routine that is
handed a length reads and writes the cells below it.
-/

namespace BenchFFT

/-- `bench_complex`, with components of type `R`. -/
@[ext] structure BenchComplex (R : Type*) where
  re : R
  im : R
  deriving DecidableEq, Repr

/-- `problem_kind_t`. -/
inductive ProblemKind where
  | complex
  | real
  deriving DecidableEq, Repr

/-- Both arrays of dimensions have room for `MAX_RANK` entries. -/
def maxRank : ℕ := 20

/-- How a run stops before it returns. -/
inductive Abort where
  /-- `BENCH_ASSERT` exits. -/
  | assertFailed
  /-- `acmp` found an error above the tolerance. -/
  | exitFailure
  /-- An access outside an array. -/
  | outOfBounds
  deriving DecidableEq, Repr

def benchAssert (ex : Prop) [Decidable ex] : Except Abort PUnit :=
  if ex then .ok ⟨⟩ else .error .assertFailed

theorem benchAssert_ok {ex : Prop} [Decidable ex] (h : ex) : benchAssert ex = .ok ⟨⟩ := if_pos h

/-- The value of an `int` expression; undefined where it overflows. -/
def int (x : ℤ) : Option ℤ := if -2147483648 ≤ x ∧ x < 2147483648 then some x else none

theorem int_eq {x : ℤ} (h0 : 0 ≤ x) (h1 : x < 2147483648) : int x = some x :=
  if_pos ⟨Int.le_trans (by decide) h0, h1⟩

/-- `struct problem`.  The used parts of the arrays `n` and `vn` are lists, so `rank` and `vrank`
are their lengths; the I/O buffers and `phys_size` are kept apart (see `problemAlloc`). -/
structure Problem where
  kind : ProblemKind
  n : List UInt32
  size : UInt32
  vn : List UInt32
  vsize : UInt32
  sign : ℤ
  inPlace : Bool
  split : Bool
  pstring : List Char
  deriving DecidableEq, Repr

namespace Problem

def rank (p : Problem) : ℕ := p.n.length

def vrank (p : Problem) : ℕ := p.vn.length

/-- The dimensions `n[0], …, n[rank - 1]` as numbers. -/
def dims (p : Problem) : List ℕ := p.n.map UInt32.toNat

/-- The dimensions `vn[0], …, vn[vrank - 1]` as numbers. -/
def vdims (p : Problem) : List ℕ := p.vn.map UInt32.toNat

@[simp] theorem length_dims (p : Problem) : p.dims.length = p.rank := List.length_map _

end Problem

end BenchFFT
