import BenchFFT.BenchUser

/-!
# Parsing a problem description (`problem.c`)

`problemParse` reads the flags (`L1`), the list of sizes (`L2`) and, after a vector separator, the
list of vector sizes (`L4`).  The two loops over numbers are the same but for the fields they fill,
so both are `parseSizes`.  A string is the list of its characters up to the terminating NUL, at
which every test of `*s` fails.

`n` is an `int`, whose arithmetic wraps around; `size` and `vsize` are `unsigned int`.
-/

namespace BenchFFT

/-- The jump back to `L1`, for every flag in turn. -/
def parseFlags (p : Problem) : List Char → Problem × List Char
  | [] => (p, [])
  | c :: s =>
    match c.toLower with
    | 'i' => parseFlags { p with inPlace := true } s
    | 'o' => parseFlags { p with inPlace := false } s
    | '/' => parseFlags { p with split := true } s
    | 'f' => parseFlags { p with sign := -1 } s
    | '-' => parseFlags { p with sign := -1 } s
    | 'b' => parseFlags { p with sign := 1 } s
    | '+' => parseFlags { p with sign := 1 } s
    | 'r' => parseFlags { p with kind := .real } s
    | 'c' => parseFlags { p with kind := .complex } s
    | _ => (p, c :: s)

/-- `while (isdigit(*s)) { n = n * 10 + (*s - '0'); ++s; }` -/
def scanInt (n : Int32) : List Char → Int32 × List Char
  | [] => (n, [])
  | c :: s =>
    if c.isDigit then scanInt (n * 10 + Int32.ofNat (c.toNat - '0'.toNat)) s else (n, c :: s)

/-- One number, between the label and the store. -/
def parseNumber (s : List Char) : Except Abort (Int32 × List Char) := do
  benchAssert (s.head?.any Char.isDigit)
  let (n, s) := scanInt 0 s
  benchAssert (0 < n)
  return (n, s)

def isSep (c : Char) : Bool := c == 'x' || c == 'X' || c == '*' || c == ','

def isVectorSep (c : Char) : Bool := c == '-' || c == '+' || c == 'v' || c == 'V'

/-- The loop over the numbers of one list.  `room` is `MAX_RANK` less the numbers already stored;
a store that finds no room is out of bounds. -/
def parseSizes : (room : ℕ) → (n : List UInt32) → (size : UInt32) → (s : List Char) →
    Except Abort (List UInt32 × UInt32 × List Char)
  | 0, _, _, s => do
    let _ ← parseNumber s
    throw .outOfBounds
  | room + 1, ns, size, s => do
    let (n, s) ← parseNumber s
    let ns := ns ++ [n.toUInt32]
    let size := size * n.toUInt32
    benchAssert (ns.length < maxRank)
    match s with
    | c :: s' => if isSep c then parseSizes room ns size s' else return (ns, size, s)
    | [] => return (ns, size, s)

/-- The problem before anything is read; the product of no numbers is 1. -/
def initialProblem (s : List Char) : Problem where
  kind := .complex
  n := []
  size := 1
  vn := []
  vsize := 1
  sign := -1
  inPlace := false
  split := false
  pstring := s

def problemParse (s : List Char) : Except Abort Problem := do
  let (p, s) := parseFlags (initialProblem s) s
  let (n, size, s) ← parseSizes maxRank p.n p.size s
  let p := { p with n, size }
  match s with
  | c :: s =>
    if isVectorSep c then
      let (vn, vsize, _) ← parseSizes maxRank p.vn p.vsize s
      return { p with vn, vsize }
    else return p
  | [] => return p

example : (problemParse "irb12x3v2".toList).toOption.map
    (fun p => (p.kind, p.n, p.size, p.vn, p.sign))
    = some (.real, [12, 3], 36, [2], 1) := by decide

end BenchFFT
