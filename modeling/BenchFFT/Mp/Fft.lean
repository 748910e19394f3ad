import BenchFFT.BenchUser
import BenchFFT.Loop
import Mathlib.Algebra.Group.Nat.Defs

/-!
# The reference transform (`mp.c`, from `cmul` on)

The routines are written over a type `A` of numbers with its own arithmetic: the multiprecision
numbers of `mp.c`, or exact ones.  An array `N *a` of complex numbers has the real part of entry
`k` in cell `2 * k` and its imaginary part in cell `2 * k + 1`.

The static variables of `mp.c` are a state, which `Prog` threads through the calls, and with them
what the next blocks of the heap hold.  The `int`s of `mp.c` are unbounded here: of those computed
from a size `n`, the largest one is `2 * pow2Atleast (2 * n)`.
-/

namespace BenchFFT.Mp

/-! ### Static variables -/

/-- What a pointer to cached numbers points to. -/
inductive Block (A : Type) where
  | null
  | live (cells : ℕ → A)
  | released

/-- A call of `bluestein` for `n`, with the tables it used. -/
structure TableUse (A : Type) where
  n : ℕ
  w : ℕ → A
  y : ℕ → A

/-- `cached_n` and `w` of `cexp_builtin`, and the tables that `bluestein` keeps.  A block that
`bench_malloc` hands out holds anything: `fresh i` are the cells of the one of its `i`-th call from
now on.  The history `used` lists the calls of `bluestein`, the last one first. -/
structure Statics (A : Type) where
  cachedN : ℤ
  w : ℕ → A × A
  cachedBluesteinW : Block A
  cachedBluesteinY : Block A
  cachedBluesteinN : ℤ
  fresh : ℕ → ℕ → A
  used : List (TableUse A)

/-- The static variables when the process starts; `blank` is a number whose bytes are all zero. -/
def initialStatics {A : Type} (blank : A) (fresh : ℕ → ℕ → A) : Statics A where
  cachedN := -1
  w := fun _ => (blank, blank)
  cachedBluesteinW := .null
  cachedBluesteinY := .null
  cachedBluesteinN := -1
  fresh := fresh
  used := []

/-- How a call does not return. -/
inductive Stop where
  /-- A loop never ends. -/
  | diverges
  /-- A table is read through a pointer to no live block. -/
  | notLive
  /-- A block that is not live is handed to `bench_free`. -/
  | releasedTwice
  deriving DecidableEq, Repr

abbrev Prog (A : Type) := StateT (Statics A) (Except Stop)

variable {A R : Type}

theorem Prog.bind_ok {α β : Type} {x : Prog A α} {st st' : Statics A} {a : α}
    (h : x st = .ok (a, st')) (f : α → Prog A β) : (x >>= f) st = f a st' := by
  show (x st >>= fun s => f s.1 s.2) = _
  rw [h]
  rfl

theorem Prog.bind_error {α β : Type} {x : Prog A α} {st : Statics A} {e : Stop}
    (h : x st = .error e) (f : α → Prog A β) : (x >>= f) st = .error e := by
  show (x st >>= fun s => f s.1 s.2) = _
  rw [h]
  rfl

/-- A computation that touches no static variable, and may never end. -/
def ofOption {α : Type} : Option α → Prog A α
  | some a => pure a
  | none => throw .diverges

def benchMalloc : Prog A (ℕ → A) := do
  let st ← get
  set { st with fresh := fun i => st.fresh (i + 1) }
  pure (st.fresh 0)

/-- `if (p) bench_free(p)`. -/
def freeIfSet : Block A → Prog A PUnit
  | .null => pure ⟨⟩
  | .live _ => pure ⟨⟩
  | .released => throw .releasedTwice

/-- What a pointer that is set points to, once the block is released. -/
def Block.free : Block A → Block A
  | .null => .null
  | _ => .released

/-- The cells read through a pointer. -/
def Block.cells : Block A → Prog A (ℕ → A)
  | .live c => pure c
  | _ => throw .notLive

/-- The operations on numbers that the transform calls: `fromreal`, `toreal`, `inv` and
`cexp_builtin`, and `sqrt` of the C library. -/
structure Arith (R A : Type) where
  fromreal : R → Option A
  toreal : A → R
  inv : A → Option A
  cexpBuiltin : ℤ → ℤ → Prog A (A × A)
  sqrt : R → R

/-! ### Complex arithmetic -/

section Complex

variable [Add A] [Sub A] [Mul A]

/-- `(r0 + i i0) (r1 + i i1)`. -/
def cmul (r0 i0 r1 i1 : A) : A × A :=
  let s := r0 * r1
  let t := i0 * i1
  let q := s - t
  let s := r0 * i1
  let t := i0 * r1
  (q, s + t)

/-- `(r0 - i i0) (r1 + i i1)`. -/
def cmulj (r0 i0 r1 i1 : A) : A × A :=
  let s := r0 * r1
  let t := i0 * i1
  let q := s + t
  let s := r0 * i1
  let t := i0 * r1
  (q, s - t)

/-- `for (; m; ++k, m >>= 1) if (m & 1) op(w[k][0], w[k][1], r, i, r, i)`. -/
def bitsLoop (op : A → A → A → A → A × A) (w : ℕ → A × A) (k m : ℕ) (z : A × A) : A × A :=
  if m = 0 then z
  else bitsLoop op w (k + 1) (m >>> 1) (if m &&& 1 ≠ 0 then op (w k).1 (w k).2 z.1 z.2 else z)
termination_by m
decreasing_by
  rw [Nat.shiftRight_eq_div_pow]
  omega

def cexpBuiltin [IntCast R] (fromshort : ℤ → A) (cos2pi sin2pi : R → R → Option A) (m n : ℤ) :
    Prog A (A × A) := do
  if n ≠ (← get).cachedN then
    let _ ← forDoubleM 1 n.toNat (fun j (k : ℕ) => do
      let c ← ofOption (cos2pi ((j : ℤ) : R) (n : R))
      let s ← ofOption (sin2pi ((j : ℤ) : R) (n : R))
      modify fun st => { st with w := Function.update st.w k (c, s) }
      pure (k + 1)) 0
    modify fun st => { st with cachedN := n }
  let w := (← get).w
  let r := fromshort 1
  let i := fromshort 0
  if 0 < m then
    pure (bitsLoop cmul w 0 m.toNat (r, i))
  else
    pure (bitsLoop cmulj w 0 (-m).toNat (r, i))

end Complex

/-! ### Power-of-two transform -/

/-- Stores `z` in entry `k`. -/
def setEntry (a : ℕ → A) (k : ℕ) (z : A × A) : ℕ → A :=
  Function.update (Function.update a (2 * k) z.1) (2 * k + 1) z.2

def swapEntries (a : ℕ → A) (i j : ℕ) : ℕ → A :=
  let t := (a (2 * i), a (2 * i + 1))
  setEntry (setEntry a i (a (2 * j), a (2 * j + 1))) j t

/-- `do { m >>= 1; j ^= m; } while (!(j & m))`, which never ends once `m` is `0`. -/
def reversedCounter (m j : ℕ) : Option ℕ :=
  let m' := m >>> 1
  let j' := j ^^^ m'
  if j' &&& m' ≠ 0 then some j'
  else if m' = 0 then none
  else reversedCounter m' j'
termination_by m
decreasing_by
  rw [Nat.shiftRight_eq_div_pow] at *
  omega

def bitrev (n : ℕ) (a : ℕ → A) : Option (ℕ → A) := do
  let (_, a) ← forRangeM (n - 1) (fun i (j, a) => do
    let a := if i < j then swapEntries a i j else a
    let j ← reversedCounter n j
    pure (j, a)) (0, a)
  pure a

section Fft0

variable [Add A] [Sub A] [Mul A]

/-- The butterfly of entries `k` and `k + i`. -/
def butterfly (wr wi : A) (i k : ℕ) (a : ℕ → A) : ℕ → A :=
  let r0 := a (2 * k)
  let i0 := a (2 * k + 1)
  let r1 := a (2 * k + 2 * i)
  let i1 := a (2 * k + 2 * i + 1)
  let xr := r1 * wr - i1 * wi
  let xi := r1 * wi + i1 * wr
  setEntry (setEntry a k (r0 + xr, i0 + xi)) (k + i) (r0 - xr, i0 - xi)

variable (cexp : ℤ → ℤ → Prog A (A × A))

def fft0 (n : ℕ) (a : ℕ → A) (sign : ℤ) : Prog A (ℕ → A) := do
  let a ← ofOption (bitrev n a)
  forDoubleM 1 n (fun i a =>
    forRangeM i (fun j a => do
      let (wr, wi) ← cexp (sign * j) (2 * i)
      pure (forStep j n (2 * i) (butterfly wr wi i) a)) a) a

/-! ### Other sizes -/

/-- `while (ksq > n2) ksq -= n2`. -/
def reduce (n2 ksq : ℕ) : Option ℕ :=
  if n2 < ksq then
    if n2 = 0 then none else reduce n2 (ksq - n2)
  else some ksq
termination_by ksq
decreasing_by omega

/-- `a[2*k] + i*a[2*k+1] = exp(2*pi*i*k^2/(2*n))`. -/
def bluesteinSequence (n : ℕ) (a : ℕ → A) : Prog A (ℕ → A) := do
  let n2 := 2 * n
  let (_, a) ← forRangeM n (fun k (ksq, a) => do
    let ksq ← ofOption (reduce n2 (ksq + 2 * k - 1))
    let z ← cexp ksq n2
    pure (ksq, setEntry a k z)) ((1 : ℕ), a)
  pure a

def pow2AtleastFrom (x h : ℕ) : ℕ :=
  if 0 < h ∧ h < x then pow2AtleastFrom x (2 * h) else h
termination_by x - h

def pow2Atleast (x : ℕ) : ℕ := pow2AtleastFrom x 1

variable [Zero A]

def clear (n : ℕ) (a : ℕ → A) : ℕ → A := forRange n (fun i a => Function.update a i 0) a

/-- Copies `w` into `y`, from the start upwards and from the end `nb` downwards. -/
def wrap (n nb : ℕ) (w y : ℕ → A) : ℕ → A :=
  let y := clear (2 * nb) y
  let y := forRange n (fun i y => setEntry y i (w (2 * i), w (2 * i + 1))) y
  forRange (n - 1) (fun j y =>
    let i := j + 1
    setEntry y (nb - i) (w (2 * i), w (2 * i + 1))) y

/-- The tables `w` and `y` of `bluestein`, computed unless they are the cached ones. -/
def bluesteinTables (n nb : ℕ) : Prog A ((ℕ → A) × (ℕ → A)) := do
  let st ← get
  if st.cachedBluesteinN ≠ n then
    freeIfSet st.cachedBluesteinW
    freeIfSet st.cachedBluesteinY
    let w ← benchMalloc
    let y ← benchMalloc
    let w ← bluesteinSequence cexp n w
    let y ← fft0 cexp nb (wrap n nb w y) (-1)
    modify fun st => { st with
      cachedBluesteinN := n
      cachedBluesteinW := .live w
      cachedBluesteinY := .live y }
    pure (w, y)
  else
    let w ← st.cachedBluesteinW.cells
    let y ← st.cachedBluesteinY.cells
    pure (w, y)

end Fft0

section Fft1

variable [Zero A] [Add A] [Sub A] [Mul A] [IntCast R] [Div R] (ar : Arith R A)

def bluestein (n : ℕ) (a : ℕ → A) : Prog A (ℕ → A) := do
  let nb := pow2Atleast (2 * n)
  let b ← benchMalloc
  let nbinv ← ofOption (ar.fromreal (((1 : ℤ) : R) / ((nb : ℤ) : R)))
  let (w, y) ← bluesteinTables ar.cexpBuiltin n nb
  -- no such line in the source: `used` is read by no function
  modify fun st => { st with used := ⟨n, w, y⟩ :: st.used }
  let b := clear (2 * nb) b
  let b := forRange n (fun i b =>
    setEntry b i (cmulj (w (2 * i)) (w (2 * i + 1)) (a (2 * i)) (a (2 * i + 1)))) b
  let b ← fft0 ar.cexpBuiltin nb b (-1)
  let b := forRange nb (fun i b =>
    setEntry b i (cmul (b (2 * i)) (b (2 * i + 1)) (y (2 * i)) (y (2 * i + 1)))) b
  let b ← fft0 ar.cexpBuiltin nb b 1
  pure (forRange n (fun i a =>
    let z := cmulj (w (2 * i)) (w (2 * i + 1)) (b (2 * i)) (b (2 * i + 1))
    setEntry a i (nbinv * z.1, nbinv * z.2)) a)

def swapri (n : ℕ) (a : ℕ → A) : ℕ → A :=
  forRange n (fun i a =>
    let t := a (2 * i)
    setEntry a i (a (2 * i + 1), t)) a

/-- `power_of_two` of `pow2.c`. -/
def powerOfTwo (n : ℕ) : Bool := 0 < n && n &&& (n - 1) = 0

def fft1 (n : ℕ) (a : ℕ → A) (sign : ℤ) : Prog A (ℕ → A) := do
  if powerOfTwo n then
    fft0 ar.cexpBuiltin n a sign
  else
    let a := if sign = 1 then swapri n a else a
    let a ← bluestein ar n a
    pure (if sign = 1 then swapri n a else a)

/-! ### The accuracy test -/

def fromrealv (n : ℕ) (a : ℕ → BenchComplex R) (b : ℕ → A) : Option (ℕ → A) :=
  forRangeM n (fun i b => do
    let re ← ar.fromreal (a i).re
    let im ← ar.fromreal (a i).im
    pure (setEntry b i (re, im))) b

variable [Zero R] [Add R] [Mul R] [Neg R] [LT R] [DecidableLT R]

/-- The norms `x1`, `x2` and `xinf` that the macro `DO` accumulates. -/
def norms (n : ℕ) (var : ℕ → R) : R × R × R :=
  forRange (2 * n) (fun i (x1, x2, xinf) =>
    let d := if var i < 0 then -var i else var i
    (x1 + d, x2 + d * d, if xinf < d then d else xinf)) (0, 0, 0)

/-- The three errors of `b` against `a`, in the division of `R`.  A field has `x / 0 = 0` where a
`double` gets infinite or NaN, so what is proved over a field is about an `a` that is not zero. -/
def compare (n : ℕ) (a b : ℕ → A) : R × R × R :=
  let (n1, n2, ninf) := norms n fun i => ar.toreal (a i)
  let (e1, e2, einf) := norms n fun i => ar.toreal (a i - b i)
  (e1 / n1, ar.sqrt (e2 / n2), einf / ninf)

/-- The forward and the backward errors. -/
def fftaccuracy (n : ℕ) (a ffta : ℕ → BenchComplex R) (sign : ℤ) :
    Prog A ((R × R × R) × (R × R × R)) := do
  let b ← benchMalloc
  let fftb ← benchMalloc
  let mn ← ofOption (ar.fromreal ((n : ℤ) : R))
  let ninv ← ofOption (ar.inv mn)
  let b ← ofOption (fromrealv ar n a b)
  let fftb ← ofOption (fromrealv ar n ffta fftb)
  let b ← fft1 ar n b sign
  let forward := compare ar n b fftb
  let b ← ofOption (fromrealv ar n a b)
  let fftb ← ofOption (fromrealv ar n ffta fftb)
  let fftb := forRange (2 * n) (fun i f => Function.update f i (f i * ninv)) fftb
  let fftb ← fft1 ar n fftb (-sign)
  pure (forward, compare ar n b fftb)

/-- Releases the tables; the pointers to them and `cached_bluestein_n` stay. -/
def fftaccuracyDone : Prog A PUnit := do
  let st ← get
  freeIfSet st.cachedBluesteinW
  freeIfSet st.cachedBluesteinY
  set { st with
    cachedBluesteinW := st.cachedBluesteinW.free
    cachedBluesteinY := st.cachedBluesteinY.free }

end Fft1

end BenchFFT.Mp
