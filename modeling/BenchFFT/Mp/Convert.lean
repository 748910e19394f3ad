import BenchFFT.ExtNum
import BenchFFT.Mp.Number
import Mathlib.Algebra.Order.Floor.Ring
import Mathlib.Data.Rat.Floor

/-!
# Conversions from and to `bench_real`, and reciprocals (`mp.c`)

A `bench_real` is an `ExtNum ℚ`.  The result of an operation on `bench_real`s is passed to `op`, and
the one of `h += l` in `toreal` to `opSum`: the rounding to the format (`toreal`), nothing where the
operations are exact (`fromreal`), or `checked`, which stops at the first operation that is not.

A loop that may never end is a `ForEver`.
-/

namespace BenchFFT.Mp

/-- `REAL`. -/
abbrev Real' := ExtNum ℚ

/-- `RADIX` as a `bench_real`. -/
def realRadix : ℚ := 65536

/-- `IRADIX`. -/
def iradix : ℚ := 1 / realRadix

/-- `floor(x)`. -/
def realFloor : Real' → Real'
  | .fin x => .fin ⌊x⌋
  | x => x

/-- `(DG)x`; undefined in C, and `0` here, where `x` is not a number in the range of an integer. -/
def toDigit : Real' → UInt16
  | .fin x => UInt16.ofInt ⌊x⌋
  | _ => 0

/-- The result of an operation; `op` applies to a finite one. -/
def onFinite (op : ℚ → Option ℚ) : Real' → Option Real'
  | .fin x => .fin <$> op x
  | x => some x

@[simp] theorem onFinite_fin (op : ℚ → Option ℚ) (x : ℚ) : onFinite op (.fin x) = .fin <$> op x :=
  rfl

@[simp] theorem onFinite_some (x : Real') : onFinite some x = some x := by
  cases x <;> rfl

/-! ### `fromreal` -/

section FromReal

variable (op : ℚ → Option ℚ)

/-- `while (x >= 1.0) { x *= IRADIX; ++e; }`. -/
def scaleDown (x : Real') (e : ℤ) : Option (Real' × ℤ) :=
  ForEver.run ⟨fun (x, e) =>
    if .fin 1 ≤ x then do
      let x ← onFinite op (x * .fin iradix)
      return .inr (x, e + 1)
    else some (.inl (x, e))⟩ (x, e)

/-- `while (x < IRADIX) { x *= RADIX; --e; }`. -/
def scaleUp (x : Real') (e : ℤ) : Option (Real' × ℤ) :=
  ForEver.run ⟨fun (x, e) =>
    if x < .fin iradix then do
      let x ← onFinite op (x * .fin realRadix)
      return .inr (x, e - 1)
    else some (.inl (x, e))⟩ (x, e)

theorem scaleDown_eq (x : Real') (e : ℤ) :
    scaleDown op x e = if .fin 1 ≤ x then
        onFinite op (x * .fin iradix) >>= fun x => scaleDown op x (e + 1)
      else some (x, e) := by
  split_ifs with h
  · cases hop : onFinite op (x * .fin iradix) with
    | none => exact ForEver.run_none ((if_pos h).trans (by rw [hop]; rfl))
    | some y => exact ForEver.run_inr ((if_pos h).trans (by rw [hop]; rfl))
  · exact ForEver.run_inl (if_neg h)

theorem scaleUp_eq (x : Real') (e : ℤ) :
    scaleUp op x e = if x < .fin iradix then
        onFinite op (x * .fin realRadix) >>= fun x => scaleUp op x (e - 1)
      else some (x, e) := by
  split_ifs with h
  · cases hop : onFinite op (x * .fin realRadix) with
    | none => exact ForEver.run_none ((if_pos h).trans (by rw [hop]; rfl))
    | some y => exact ForEver.run_inr ((if_pos h).trans (by rw [hop]; rfl))
  · exact ForEver.run_inl (if_neg h)

/-- Moves the digits below `i` from `x` to `d`, from the most significant one, until `x` is `0`. -/
def realDigits : ℕ → Real' × (ℕ → UInt16) → Option (Real' × (ℕ → UInt16))
  | 0, s => some s
  | i + 1, (x, d) =>
    if x = 0 then some (x, d)
    else do
      let x ← onFinite op (x * .fin realRadix)
      let y ← onFinite op (realFloor x)
      let x ← onFinite op (x - y)
      realDigits i (x, Function.update d i (toDigit y))

def fromrealM (x : Real') : Option N := do
  if x = 0 then return .zero
  let sign : ℤ := if 0 < x then 1 else -1
  let x := if 0 < x then x else -x
  let (x, e) ← scaleDown op x 0
  let (x, e) ← scaleUp op x e
  let (_, d) ← realDigits op len (x, fun _ => 0)
  return { sign := sign, expt := Int16.ofInt e, d := fun i => d i }

end FromReal

/-- All that `fromreal` does is exact: it scales by powers of two, and splits a number at the point.
-/
def fromreal (x : Real') : Option N := fromrealM some x

/-! ### `toreal` -/

/-- `BITS_IN_REAL`. -/
def bitsInReal : ℕ := 53

/-- `for (bits = 0; r > 0; ++bits) r >>= 1`. -/
def bitCount (r : ℕ) : ℕ := if r = 0 then 0 else bitCount (r >>> 1) + 1
termination_by r
decreasing_by
  rw [Nat.shiftRight_eq_div_pow]
  omega

section ToReal

variable {m : Type → Type} [Monad m] (op opSum : ℚ → m ℚ)

/-- The first digits below `i` while `bits + SHFT <= limit`, times the powers of `IRADIX` from `f`
on, added to `h`. -/
def sumDigits (limit : ℕ) (a : N) (bits i : ℕ) (h f : ℚ) : m (ℕ × ℚ × ℚ) :=
  if bits + 16 ≤ limit then do
    let p ← op ((a.digit (i - 1)).toNat * f)
    let h ← op (h + p)
    let f ← op (f * iradix)
    sumDigits limit a (bits + 16) (i - 1) h f
  else pure (i, h, f)
termination_by limit - bits

/-- `if (sticky) l += (RADIX / 2) * f`. -/
def addSticky (sticky : UInt16) (l f : ℚ) : m ℚ :=
  if sticky ≠ 0 then do
    let t ← op (32768 * f)
    op (l + t)
  else pure l

/-- The loops that multiply `h` by `RADIX ^ e`. -/
def scale (e : ℤ) (h : ℚ) : m ℚ := do
  let h ← forRangeM e.toNat (fun _ h => op (h * realRadix)) h
  forRangeM (-e).toNat (fun _ h => op (h * iradix)) h

def torealM (a : N) : m ℚ :=
  if a.expt ≠ zeroExp then do
    let r := (a.digit (len - 1)).toNat
    let h ← op (r * iradix)
    let f ← op (iradix * iradix)
    let (i, h, f) ← sumDigits op bitsInReal a (bitCount r) (len - 1) h f
    -- one bit less for the guard digits, hence `<` in their loop
    let (i, l, f) ← sumDigits op (bitsInReal - 1) a 0 i 0 f
    let sticky := forRange i (fun j s => s ||| a.digit j) 0
    let l ← addSticky op sticky l f
    let h ← opSum (h + l)
    let h ← scale op a.expt.toInt h
    return if a.sign = -1 then -h else h
  else return 0

end ToReal

/-- Every operation rounds. -/
def toreal (rnd : ℚ → ℚ) (a : N) : ℚ := torealM (m := Id) (fun x => rnd x) (fun x => rnd x) a

/-! ### `inv` -/

/-- Newton's iteration, until `2 - a * x` is `1` in every digit. -/
def newton (a x : N) : Option N :=
  ForEver.run ⟨fun x =>
    let w := a * x
    let z := N.fromshort 2 - w
    some (if N.eq (.fromshort 1) z then .inl x else .inr (x * z))⟩ x

theorem newton_eq (a x : N) :
    newton a x = if N.eq (.fromshort 1) (N.fromshort 2 - a * x) then some x
      else newton a (x * (N.fromshort 2 - a * x)) := by
  split_ifs with h
  · exact ForEver.run_inl (congrArg some (if_pos h))
  · exact ForEver.run_inr (congrArg some (if_neg h))

/-- The rounded quotient; `rnd` applies to a finite one. -/
def realDiv (rnd : ℚ → ℚ) (x y : Real') : Real' :=
  match x / y with
  | .fin q => .fin (rnd q)
  | q => q

def inv (rnd : ℚ → ℚ) (a : N) : Option N := do
  let x ← fromreal (realDiv rnd (.fin 1) (.fin (toreal rnd a)))
  newton a x

end BenchFFT.Mp
