import BenchFFT.BenchUser
import Mathlib.Algebra.BigOperators.Group.List.Defs
import Mathlib.Algebra.Group.Nat.Defs

/-!
# The problem-description language

A description is `flags* num (sep num)* [vsep num (sep num)*]`, as a syntax tree with its text.
`Reads s d rest` says that the description `d` is as much of `s` as can be read, and that `rest` is
left over.

Nothing here depends on the parser; what the parser makes of a description is in
`BenchFFT.Problem.Equiv.Parse`.
-/

namespace BenchFFT

/-- A decimal numeral. -/
@[ext] structure Numeral where
  digits : List Char
  ne_nil : digits ≠ []
  isDigit : ∀ c ∈ digits, c.isDigit = true

def Numeral.value (m : Numeral) : ℕ :=
  m.digits.foldl (fun v c => v * 10 + (c.toNat - '0'.toNat)) 0

/-- A flag, in either case. -/
def IsFlag (c : Char) : Prop := c.toLower ∈ ['i', 'o', '/', 'f', '-', 'b', '+', 'r', 'c']

/-- A separator between numbers. -/
def IsSep (c : Char) : Prop := c ∈ ['x', 'X', '*', ',']

/-- The separator before the vector sizes. -/
def IsVectorSep (c : Char) : Prop := c ∈ ['-', '+', 'v', 'V']

/-- `num (sep num)*`. -/
@[ext] structure NumberList where
  first : Numeral
  rest : List ({c : Char // IsSep c} × Numeral)

namespace NumberList

def numerals (l : NumberList) : List Numeral := l.first :: l.rest.map Prod.snd

/-- The numbers in order. -/
def values (l : NumberList) : List ℕ := l.numerals.map Numeral.value

def text (l : NumberList) : List Char :=
  l.first.digits ++ l.rest.flatMap fun m => m.1.val :: m.2.digits

end NumberList

/-- `flags* num (sep num)* [vsep num (sep num)*]`. -/
@[ext] structure Description where
  flags : List {c : Char // IsFlag c}
  sizes : NumberList
  vector : Option ({c : Char // IsVectorSep c} × NumberList)

namespace Description

/-- The vector sizes; there are none without a vector part. -/
def vnumerals (d : Description) : List Numeral :=
  match d.vector with
  | none => []
  | some (_, l) => l.numerals

def vvalues (d : Description) : List ℕ := d.vnumerals.map Numeral.value

/-- The text from the sizes on. -/
def tail (d : Description) : List Char :=
  d.sizes.text ++ match d.vector with
    | none => []
    | some (c, l) => c.val :: l.text

def text (d : Description) : List Char := d.flags.map Subtype.val ++ d.tail

/-- All of the numbers are positive, and fewer than `MAX_RANK` in each list. -/
structure Accepted (d : Description) : Prop where
  sizes_pos : ∀ m ∈ d.sizes.numerals, 0 < m.value
  vector_pos : ∀ m ∈ d.vnumerals, 0 < m.value
  rank_lt : d.sizes.numerals.length < maxRank
  vrank_lt : d.vnumerals.length < maxRank

/-- The numbers fit an `int` and the products an `unsigned int`. -/
structure Fits (d : Description) : Prop where
  sizes_lt : ∀ m ∈ d.sizes.numerals, m.value < 2 ^ 31
  vector_lt : ∀ m ∈ d.vnumerals, m.value < 2 ^ 31
  size_lt : d.sizes.values.prod < 2 ^ 32
  vsize_lt : d.vvalues.prod < 2 ^ 32

end Description

/-! ### Settings -/

/-- The setting of the last flag that belongs to a group. -/
def lastSetting {α : Type*} (group : Char → Option α) (flags : List Char) (default : α) : α :=
  ((flags.filterMap group).getLast?).getD default

def placeFlag (c : Char) : Option Bool :=
  match c.toLower with
  | 'i' => some true
  | 'o' => some false
  | _ => none

def splitFlag (c : Char) : Option Bool :=
  match c.toLower with
  | '/' => some true
  | _ => none

def signFlag (c : Char) : Option ℤ :=
  match c.toLower with
  | 'f' => some (-1)
  | '-' => some (-1)
  | 'b' => some 1
  | '+' => some 1
  | _ => none

def kindFlag (c : Char) : Option ProblemKind :=
  match c.toLower with
  | 'r' => some .real
  | 'c' => some .complex
  | _ => none

/-- `p` is the problem that `d` describes: the settings are those of the last flag of each group,
and the numbers are listed in order. -/
structure Description.Describes (d : Description) (p : Problem) : Prop where
  inPlace : p.inPlace = lastSetting placeFlag (d.flags.map Subtype.val) false
  split : p.split = lastSetting splitFlag (d.flags.map Subtype.val) false
  sign : p.sign = lastSetting signFlag (d.flags.map Subtype.val) (-1)
  kind : p.kind = lastSetting kindFlag (d.flags.map Subtype.val) .complex
  dims : p.dims = d.sizes.values
  vdims : p.vdims = d.vvalues

/-! ### Reading a prefix -/

/-- `s` does not begin with a character of `P`. -/
def NoHead (P : Char → Prop) (s : List Char) : Prop := ∀ c ∈ s.head?, ¬P c

/-- `d` is as much of `s` as can be read as a description, and `rest` is left over: it goes on
neither with a digit nor with a separator that a number would have to follow. -/
structure Reads (s : List Char) (d : Description) (rest : List Char) : Prop where
  eq : s = d.text ++ rest
  noDigit : NoHead (fun c => c.isDigit = true) rest
  noSep : NoHead IsSep rest
  noVectorSep : d.vector = none → NoHead IsVectorSep rest

end BenchFFT
