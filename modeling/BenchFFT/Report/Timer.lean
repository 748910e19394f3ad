import BenchFFT.BenchUser
import BenchFFT.Loop
import Mathlib.Algebra.Order.Floor.Ring
import Mathlib.Tactic.Linarith
import Mathlib.Tactic.NormNum

/-!
# Calibrating the timer (`timer.c`)

How long `work(n)` takes depends on the machine: `duration n` is the reading of `duration(n)` and
what is left of the machine, in an exact ordered field `K`.  A run is followed until an `int`
overflows, or a `double` does not fit an `int`: what it does then is undefined.
-/

namespace BenchFFT.Timer

/-- The run has come to an `int` that is out of range. -/
inductive Overflow where
  | int
  deriving DecidableEq, Repr

/-- A run on a machine with the states `σ`. -/
abbrev Run (σ : Type) := StateT σ (Except Overflow)

/-- The value of an `int` expression.  Out of range the run is not followed any further; the program
may go on with a value that has wrapped around. -/
def checked {σ : Type} (x : ℤ) : Run σ ℤ := (int x).elim (throw .int) pure

variable {σ K : Type} [Field K] [LinearOrder K]

/-- `(int) x`, which drops the fraction. -/
def truncate [FloorRing K] (x : K) : Run σ ℤ := checked (if x < 0 then ⌈x⌉ else ⌊x⌋)

def tminTry : K := 1.0e-6

def tmaxTry : K := 1.0

def tolerance : K := 0.001

/-- `test_points`. -/
def testPoints : List K := [1.015, 1.02, 1.035]

variable (duration : ℤ → σ → K × σ) (timeRepeat : ℤ)

/-- The smallest of `time_repeat` readings; there is always a first one. -/
def timeN (n : ℤ) : Run σ K := do
  let tmin ← fun s => .ok (duration n s)
  -- `i` runs from `1`
  forRangeM (timeRepeat - 1).toNat (fun _ tmin => do
    let t ← fun s => .ok (duration n s)
    return if t < tmin then t else tmin) tmin

variable [FloorRing K]

/-- The loop of `find_n`, with the tries that are left. -/
def tryN (tmin : K) : ℕ → ℤ → K → Run σ ℤ
  | 0, _, _ => return -1
  | tries + 1, n, t =>
    if 0.98 * tmin < t ∧ t < 1.02 * tmin then return n
    else do
      let n ← (if t < tminTry then checked (n * 10) else truncate ((n : K) / t * tmin + 1))
      let t ← timeN duration timeRepeat n
      tryN tmin tries n t

/-- The amount of work needed to run `tmin` seconds, or `-1`. -/
def findN (tmin : K) : Run σ ℤ := do
  let n := 10000
  let t ← timeN duration timeRepeat n
  tryN duration timeRepeat tmin 10 n t

/-- The loop over the test points. -/
def proportional (n : ℤ) (baseline : K) : List K → Run σ Bool
  | [] => return true
  | c :: cs => do
    let usecs ← timeN duration timeRepeat (← truncate ((n : K) * c))
    let expected := baseline * c
    let diff := if expected > usecs then expected - usecs else usecs - expected
    if diff / expected > tolerance then return false
    else proportional n baseline cs

/-- Verify that small modifications affect the runtime proportionally. -/
def acceptable (tmin : K) : Run σ Bool := do
  let n ← findN duration timeRepeat tmin
  if n ≤ 0 then return false
  else do
    let baseline ← timeN duration timeRepeat n
    proportional duration timeRepeat n baseline testPoints

/-- Doubling `tmin` makes its inverse smaller. -/
theorem floor_inv_lt [IsStrictOrderedRing K] {tmin : K} (h : 0 < tmin ∧ tmin < tmaxTry) :
    ⌊1 / (tmin * 2.0)⌋.toNat < ⌊1 / tmin⌋.toNat := by
  obtain ⟨hpos, hlt⟩ := h
  have hone : 1 < 1 / tmin := by
    rw [lt_div_iff₀ hpos, one_mul]
    calc tmin < tmaxTry := hlt
      _ = 1 := by norm_num [tmaxTry]
  have hfloor : 1 ≤ ⌊1 / tmin⌋ := Int.le_floor.mpr (by exact_mod_cast hone.le)
  have hhalf : 1 / (tmin * 2.0) = 1 / tmin / 2 := by
    rw [div_div]
    norm_num
  have hlt : ⌊1 / (tmin * 2.0)⌋ < ⌊1 / tmin⌋ := by
    rw [hhalf, Int.floor_lt, div_lt_iff₀ two_pos]
    have hlt := Int.lt_floor_add_one (1 / tmin)
    have hone' : (1 : K) ≤ ⌊1 / tmin⌋ := by exact_mod_cast hfloor
    linarith
  omega

/-- The loop of `calibrate`, which starts from a positive `tmin`. -/
def calibrateFrom [IsStrictOrderedRing K] (tmin : K) : Run σ K :=
  if 0 < tmin ∧ tmin < tmaxTry then do
    if ← acceptable duration timeRepeat tmin then return tmin
    else calibrateFrom (tmin * 2.0)
  else return tmin
termination_by ⌊1 / tmin⌋.toNat
decreasing_by exact floor_inv_lt ‹_›

def calibrate [IsStrictOrderedRing K] : Run σ K := calibrateFrom duration timeRepeat tminTry

/-- What `timer_init` leaves in `time_min` and `time_repeat`. -/
def timerInit [IsStrictOrderedRing K] (tmin : K) (rep : ℤ) : Run σ (K × ℤ) := do
  let timeRepeat := if rep = 0 then 8 else rep
  let timeMin ← (if tmin > 0 then pure tmin else calibrate duration timeRepeat)
  return (timeMin, timeRepeat)

end BenchFFT.Timer
