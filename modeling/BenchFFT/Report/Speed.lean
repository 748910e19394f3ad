import BenchFFT.BenchUser
import BenchFFT.Loop
import Mathlib.Algebra.Field.Defs
import Mathlib.Algebra.Order.Ring.Defs

/-!
# Measuring the speed (`speed.c`, `timer.c`)

`get_time` and `elapsed` depend on the machine: they are arguments, the first one as the sequence of
the values it returns.  A reading may be any number of the ordered field `K`, also a negative one.

What a run does is kept in a log: the calls of the timer, of the transform under test and of
`report`, and how often it passes the label `start_over`.  The buffers of the problem are left out.
-/

namespace BenchFFT.Speed

variable {T K : Type}

inductive Event (K : Type) where
  | setup
  | startOver
  | timerStart
  | doit (iter : ℤ)
  /-- `timer_stop` returns the reading `y`. -/
  | timerStop (y : K)
  | done
  | report (setupTime : K) (t : List K)

/-- The variables of `speed`, and the static `t0` of `timer.c`.  The clock has been read `ticks`
times. -/
structure State (T K : Type) where
  iter : ℤ
  t : ℕ → K
  t0 : T
  ticks : ℕ
  log : List (Event K)

def emit (e : Event K) (s : State T K) : State T K := { s with log := s.log ++ [e] }

section Timer

variable (getTime : ℕ → T) (elapsed : T → T → K)

def timerStart (s : State T K) : State T K :=
  emit .timerStart { s with t0 := getTime s.ticks, ticks := s.ticks + 1 }

def timerStop (s : State T K) : K × State T K :=
  let y := elapsed (getTime s.ticks) s.t0
  (y, emit (.timerStop y) { s with ticks := s.ticks + 1 })

/-- `timer_start(); doit(iter, p); t[k] = timer_stop();` -/
def measure (k : ℕ) (s : State T K) : State T K :=
  let s := timerStart getTime s
  let s := emit (.doit s.iter) s
  let (y, s) := timerStop getTime elapsed s
  { s with t := Function.update s.t k y }

end Timer

variable [Field K] [LinearOrder K]

/-- The scan of a round for its smallest reading; a negative one leaves it. -/
def scan (timeRepeat : ℕ) (t : ℕ → K) : Option K :=
  forRangeM timeRepeat (fun k tmin =>
    let y := t k
    if y < 0 then none else some (if y < tmin then y else tmin)) ((10 : ℕ) ^ 20 : K)

/-- `start_over: iter = 1`. -/
def startOver (s : State T K) : State T K := emit .startOver { s with iter := 1 }

/-- How a run ends. -/
inductive End (K : Type) where
  | assertFailed
  | intOverflow
  | returned (log : List (Event K))

variable (getTime : ℕ → T) (elapsed : T → T → K) (timeRepeat : ℕ) (timeMin : K)

/-- The loop over `iter`: it is left with the state at `done`, or with `none` where `iter`
overflows. -/
def rounds : ForEver (State T K) (Option (State T K)) where
  body s :=
    if s.iter < 1073741824 then
      let s := forRange timeRepeat (measure getTime elapsed) s
      match scan timeRepeat s.t with
      | none => some (.inr (startOver s))
      | some tmin =>
        if tmin ≥ timeMin then some (.inl (some s))
        else
          match int (s.iter * 2) with
          | none => some (.inl none)
          | some iter => some (.inr { s with iter })
    else some (.inr (startOver s))

/-- From `done` on. -/
def finish (setupTime : K) (s : State T K) : List (Event K) :=
  let s := emit .done s
  let t := forRange timeRepeat (fun k t => Function.update t k (t k / (s.iter : K))) s.t
  s.log ++ [.report setupTime ((List.range timeRepeat).map t)]

/-- The problem `p` has been parsed; `t` is the array that is allocated for the readings. -/
def speed (canDo : Problem → Bool) (t : ℕ → K) (t0 : T) (p : Problem) : Option (End K) :=
  if canDo p then do
    let s : State T K := ⟨0, t, t0, 0, []⟩
    let s := emit .setup (timerStart getTime s)
    let (setupTime, s) := timerStop getTime elapsed s
    match ← (rounds getTime elapsed timeRepeat timeMin).run (startOver s) with
    | none => return .intOverflow
    | some s => return .returned (finish timeRepeat setupTime s)
  else return .assertFailed

end BenchFFT.Speed
