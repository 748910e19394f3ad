import BenchFFT.BenchUser
import BenchFFT.Blocks

/-!
# Scanning the command line (`getopt.c`)

`getoptInternal` is one call of `_getopt_internal`; its static variables and the variables it shares
with its caller are the fields of `Getopt`, and what is the same in every call of a run is
`GetoptCall`.  `argc` is the length of `argv`.

A string is the list of its characters up to the terminating NUL, and a pointer into a string is
what is left of it from there; `nextchar` is empty for NULL, which the code does not tell from `""`.
A read outside `argv` is `outOfBounds`.
-/

namespace BenchFFT

/-- The `has_arg` field of `struct option`. -/
inductive HasArg where
  | noArgument
  | requiredArgument
  | optionalArgument
  deriving DecidableEq, Repr

/-- `struct option`.  `flag` names the variable it points to. -/
structure LongOption where
  name : List Char
  hasArg : HasArg
  flag : Option ℕ
  val : ℤ
  deriving DecidableEq, Repr

/-- What is done with the elements that are not options. -/
inductive ArgOrdering where
  | requireOrder
  | permute
  | returnInOrder
  deriving DecidableEq, Repr

/-- The arguments of `_getopt_internal` other than `argv`, `opterr`, and whether the environment has
`POSIXLY_CORRECT`. -/
structure GetoptCall where
  optstring : List Char
  longopts : Option (List LongOption)
  longOnly : Bool
  opterr : Bool
  posixlyCorrect : Bool

/-- The state between calls.  `vars` are the variables that flags point to, `stderr` the messages
printed so far. -/
structure Getopt where
  argv : List (List Char)
  optarg : Option (List Char) := none
  optind : ℕ := 1
  initialized : Bool := false
  nextchar : List Char := []
  optopt : ℤ := '?'.toNat
  ordering : ArgOrdering := .requireOrder
  posixlyCorrect : Bool := false
  firstNonopt : ℕ := 0
  lastNonopt : ℕ := 0
  longind : ℕ := 0
  vars : ℕ → ℤ := fun _ => 0
  stderr : List (List Char) := []

namespace Getopt

def argc (s : Getopt) : ℕ := s.argv.length

/-- `argv[i]`. -/
def arg (s : Getopt) (i : ℕ) : Except Abort (List Char) :=
  (s.argv[i]?).elim (.error .outOfBounds) .ok

/-- `argv[0]`, for the messages. -/
def progname (s : Getopt) : List Char := s.argv.headD []

/-- `if (print_errors) fprintf (stderr, ...)`. -/
def complain (printErrors : Bool) (message : List Char) (s : Getopt) : Getopt :=
  if printErrors then { s with stderr := s.stderr ++ [s.progname ++ message] } else s

end Getopt

/-- A character as the `int` that is returned for it: a `char` is signed, so a byte from `128` on is
negative.  Beyond `255` there is no `char`. -/
def charCode (c : Char) : ℤ := if 128 ≤ c.toNat ∧ c.toNat < 256 then c.toNat - 256 else c.toNat

/-- The string from the first `chr` on; `none` for NULL. -/
def myIndex : (str : List Char) → (chr : Char) → Option (List Char)
  | [], _ => none
  | c :: str, chr => if c = chr then some (c :: str) else myIndex str chr

/-- `NONOPTION_P`. -/
def nonoptionP (arg : List Char) : Bool := arg[0]? ≠ some '-' ∨ arg[1]? = none

/-! ### Permuting the arguments -/

/-- The loop of `exchange`.  The shorter of the segments `[bottom, middle)` and `[middle, top)` is
swapped with the far end of the longer one. -/
def exchangeLoop (argv : List (List Char)) (bottom middle top : ℕ) : List (List Char) :=
  if middle < top ∧ bottom < middle then
    if middle - bottom < top - middle then
      exchangeLoop (swapRange argv bottom (top - (middle - bottom)) (middle - bottom))
        bottom middle (top - (middle - bottom))
    else
      exchangeLoop (swapRange argv bottom middle (top - middle))
        (bottom + (top - middle)) middle top
  else argv
termination_by top - bottom

def exchange (s : Getopt) : Getopt :=
  { s with
    argv := exchangeLoop s.argv s.firstNonopt s.lastNonopt s.optind
    firstNonopt := s.firstNonopt + (s.optind - s.lastNonopt)
    lastNonopt := s.optind }

/-- `while (optind < argc && NONOPTION_P) optind++;` -/
def skipNonoptions (argv : List (List Char)) (optind : ℕ) : ℕ :=
  if h : optind < argv.length then
    if nonoptionP (argv.get ⟨optind, h⟩) then skipNonoptions argv (optind + 1) else optind
  else optind
termination_by argv.length - optind

/-- If options have been processed since non-options were skipped, they are brought before these. -/
def optionsFirst (s : Getopt) : Getopt :=
  if s.firstNonopt ≠ s.lastNonopt ∧ s.lastNonopt ≠ s.optind then exchange s
  else if s.lastNonopt ≠ s.optind then { s with firstNonopt := s.optind }
  else s

/-- The part of `_getopt_internal` for `ordering == PERMUTE`. -/
def permuteStep (s : Getopt) : Getopt :=
  let s := optionsFirst s
  let optind := skipNonoptions s.argv s.optind
  { s with optind, lastNonopt := optind }

/-- What is done at the element `--`. -/
def endOfOptions (s : Getopt) : Getopt :=
  let s := { s with optind := s.optind + 1 }
  let s :=
    if s.firstNonopt ≠ s.lastNonopt ∧ s.lastNonopt ≠ s.optind then exchange s
    else if s.firstNonopt = s.lastNonopt then { s with firstNonopt := s.optind }
    else s
  { s with lastNonopt := s.argc, optind := s.argc }

/-- What is done at `optind`, once `--` has been dealt with.  There is a value where the call
returns it; otherwise the element is an option, and `nextchar` is in it. -/
def atElement (call : GetoptCall) (s : Getopt) : Except Abort (Option ℤ × Getopt) := do
  if s.optind = s.argc then
    return (some (-1),
      if s.firstNonopt ≠ s.lastNonopt then { s with optind := s.firstNonopt } else s)
  let arg ← s.arg s.optind
  if nonoptionP arg then
    if s.ordering = .requireOrder then return (some (-1), s)
    return (some 1, { s with optarg := some arg, optind := s.optind + 1 })
  let dashes := 1 + (if call.longopts.isSome ∧ arg[1]? = some '-' then 1 else 0)
  return (none, { s with nextchar := arg.drop dashes })

/-- What is done at the element at `optind`. -/
def startElement (call : GetoptCall) (s : Getopt) : Except Abort (Option ℤ × Getopt) := do
  let isEnd ← if s.optind ≠ s.argc then (· == ['-', '-']) <$> s.arg s.optind else pure false
  atElement call (if isEnd then endOfOptions s else s)

/-- Going on to the next element. -/
def advance (call : GetoptCall) (s : Getopt) : Except Abort (Option ℤ × Getopt) :=
  let s := { s with
    lastNonopt := min s.lastNonopt s.optind, firstNonopt := min s.firstNonopt s.optind }
  startElement call (if s.ordering = .permute then permuteStep s else s)

/-! ### Long options -/

/-- What the search of the table has found. -/
structure LongSearch where
  pfound : Option LongOption := none
  indfound : ℕ := 0
  exact : Bool := false
  ambig : Bool := false

/-- The loop over the table.  `strict` makes any second abbreviated match ambiguous, whether or not
it stands for the same option. -/
def findLong (strict : Bool) (name : List Char) :
    (longopts : List LongOption) → (optionIndex : ℕ) → LongSearch → LongSearch
  | [], _, found => found
  | p :: longopts, optionIndex, found =>
    if name.isPrefixOf p.name then
      if name.length = p.name.length then
        { found with pfound := some p, indfound := optionIndex, exact := true }
      else if found.pfound = none then
        findLong strict name longopts (optionIndex + 1)
          { found with pfound := some p, indfound := optionIndex }
      else if strict ∨ found.pfound.any
          (fun q => q.hasArg ≠ p.hasArg ∨ q.flag ≠ p.flag ∨ q.val ≠ p.val) then
        findLong strict name longopts (optionIndex + 1) { found with ambig := true }
      else findLong strict name longopts (optionIndex + 1) found
    else findLong strict name longopts (optionIndex + 1) found

/-- `nextchar` up to `nameend`. -/
def longName (nextchar : List Char) : List Char := nextchar.takeWhile (· ≠ '=')

/-- The string at `nameend`. -/
def nameend (nextchar : List Char) : List Char := nextchar.dropWhile (· ≠ '=')

/-- `optstring[0] == ':' ? ':' : '?'`. -/
def missingCode (optstring : List Char) : ℤ :=
  charCode (if optstring.head? = some ':' then ':' else '?')

/-- Storing the index and the flag of the option `pfound`, and returning. -/
def Getopt.takeLong (p : LongOption) (optionIndex : ℕ) (s : Getopt) : ℤ × Getopt :=
  let s := { s with nextchar := [], longind := optionIndex }
  p.flag.elim (p.val, s) fun v => (0, { s with vars := Function.update s.vars v p.val })

/-- `pfound != NULL`, with `optind` past the element.  The option is the element itself, or the
argument of `-W` (`w`), for which `optopt` is not set. -/
def useLong (optstring : List Char) (printErrors w : Bool) (p : LongOption) (optionIndex : ℕ)
    (s : Getopt) : Except Abort (ℤ × Getopt) := do
  let optopt := if w then s.optopt else p.val
  if nameend s.nextchar ≠ [] then
    if p.hasArg ≠ .noArgument then
      return { s with optarg := some (nameend s.nextchar).tail } |>.takeLong p optionIndex
    let element ← s.arg (s.optind - 1)
    let message :=
      if w then ": option `-W ".toList
      else if element[1]? = some '-' then ": option `--".toList
      else ": option `".toList ++ element.take 1
    let s := s.complain printErrors (message ++ p.name ++ "' doesn't allow an argument\n".toList)
    return (charCode '?', { s with nextchar := [], optopt })
  if p.hasArg = .requiredArgument then
    if s.optind < s.argc then
      let arg ← s.arg s.optind
      return { s with optarg := some arg, optind := s.optind + 1 } |>.takeLong p optionIndex
    let element ← s.arg (s.optind - 1)
    let s := s.complain printErrors
      (": option `".toList ++ element ++ "' requires an argument\n".toList)
    return (missingCode optstring, { s with nextchar := [], optopt })
  return s.takeLong p optionIndex

/-- The element `argv[optind]` as a long option; `none` where it is taken as a short one after
all. -/
def longOption (call : GetoptCall) (optstring : List Char) (printErrors : Bool)
    (longopts : List LongOption) (element : List Char) (s : Getopt) :
    Except Abort (Option (ℤ × Getopt)) := do
  let found := findLong call.longOnly (longName s.nextchar) longopts 0 {}
  if found.ambig ∧ ¬found.exact then
    let s := s.complain printErrors (": option `".toList ++ element ++ "' is ambiguous\n".toList)
    return some (charCode '?', { s with nextchar := [], optind := s.optind + 1, optopt := 0 })
  if let some p := found.pfound then
    some <$> useLong optstring printErrors false p found.indfound { s with optind := s.optind + 1 }
  else if ¬call.longOnly ∨ element[1]? = some '-' ∨
      (s.nextchar.head?.bind (myIndex optstring)).isNone then
    let message :=
      if element[1]? = some '-' then ": unrecognized option `--".toList
      else ": unrecognized option `".toList ++ element.take 1
    let s := s.complain printErrors (message ++ s.nextchar ++ "'\n".toList)
    return some (charCode '?', { s with nextchar := [], optind := s.optind + 1, optopt := 0 })
  else return none

/-! ### Short options -/

/-- `-W foo`, the same as the long option `--foo`.  `rest` is what is left of the element after
the `W`. -/
def posixW (call : GetoptCall) (optstring : List Char) (printErrors : Bool) (rest : List Char)
    (s : Getopt) : Except Abort (ℤ × Getopt) := do
  if rest = [] ∧ s.optind = s.argc then
    let s := s.complain printErrors ": option requires an argument -- W\n".toList
    return (missingCode optstring, { s with optopt := charCode 'W' })
  let arg ← if rest ≠ [] then pure rest else s.arg s.optind
  let s := { s with optarg := some arg, optind := s.optind + 1, nextchar := arg }
  let longopts ← call.longopts.elim (.error .outOfBounds) .ok
  let found := findLong true (longName s.nextchar) longopts 0 {}
  if found.ambig ∧ ¬found.exact then
    let element ← if printErrors then s.arg s.optind else pure []
    let s := s.complain printErrors (": option `-W ".toList ++ element ++ "' is ambiguous\n".toList)
    return (charCode '?', { s with nextchar := [], optind := s.optind + 1 })
  if let some p := found.pfound then
    useLong optstring printErrors true p found.indfound s
  else return (charCode 'W', { s with nextchar := [] })

/-- The option `c`, where `temp` is its place in `optstring` and `rest` what follows it in the
element. -/
def takeShort (optstring : List Char) (printErrors : Bool) (c : Char) (rest temp : List Char)
    (s : Getopt) : Except Abort (ℤ × Getopt) := do
  if temp[1]? = some ':' then
    if temp[2]? = some ':' then
      if rest ≠ [] then
        return (charCode c, { s with optarg := some rest, optind := s.optind + 1, nextchar := [] })
      return (charCode c, { s with optarg := none, nextchar := [] })
    if rest ≠ [] then
      return (charCode c, { s with optarg := some rest, optind := s.optind + 1, nextchar := [] })
    if s.optind = s.argc then
      let s := s.complain printErrors (": option requires an argument -- ".toList ++ [c, '\n'])
      return (missingCode optstring, { s with optopt := charCode c, nextchar := [] })
    let arg ← s.arg s.optind
    return (charCode c, { s with optarg := some arg, optind := s.optind + 1, nextchar := [] })
  else return (charCode c, s)

/-- `c = *nextchar++`, with `optind` past the element when that was its last character. -/
def Getopt.readChar (rest : List Char) (s : Getopt) : Getopt :=
  { s with nextchar := rest, optind := if rest = [] then s.optind + 1 else s.optind }

/-- The next character of the element, which is taken as a short option. -/
def shortOption (call : GetoptCall) (optstring : List Char) (printErrors : Bool) (s : Getopt) :
    Except Abort (ℤ × Getopt) :=
  match s.nextchar with
  | [] => .error .outOfBounds
  | c :: rest => do
    let s := s.readChar rest
    let temp := myIndex optstring c
    if temp = none ∨ c = ':' then
      let message := if s.posixlyCorrect then ": illegal option -- " else ": invalid option -- "
      let s := s.complain printErrors (message.toList ++ [c, '\n'])
      return (charCode '?', { s with optopt := charCode c })
    let temp := temp.getD []
    if temp[0]? = some 'W' ∧ temp[1]? = some ';' then posixW call optstring printErrors rest s
    else takeShort optstring printErrors c rest temp s

/-! ### `_getopt_internal` -/

/-- The `optstring` that `_getopt_initialize` returns, and which the first call goes on with. -/
def skipOrdering (optstring : List Char) : List Char :=
  if optstring.head? = some '-' ∨ optstring.head? = some '+' then optstring.tail else optstring

def getoptInitialize (call : GetoptCall) (s : Getopt) : Getopt :=
  { s with
    firstNonopt := s.optind
    lastNonopt := s.optind
    nextchar := []
    posixlyCorrect := call.posixlyCorrect
    ordering :=
      if call.optstring.head? = some '-' then .returnInOrder
      else if call.optstring.head? = some '+' then .requireOrder
      else if call.posixlyCorrect then .requireOrder
      else .permute }

/-- The element at `optind`, from `nextchar` on: a long option, or a short one. -/
def decode (call : GetoptCall) (optstring : List Char) (printErrors : Bool) (s : Getopt) :
    Except Abort (ℤ × Getopt) := do
  let result ← call.longopts.elim (pure none) fun longopts => do
    let element ← s.arg s.optind
    if element[1]? = some '-' ∨
        call.longOnly ∧ (element[2]?.isSome ∨ (element[1]?.bind (myIndex optstring)).isNone) then
      longOption call optstring printErrors longopts element s
    else return none
  result.elim (shortOption call optstring printErrors s) pure

def getoptInternal (call : GetoptCall) (s : Getopt) : Except Abort (ℤ × Getopt) := do
  let printErrors := call.opterr && call.optstring.head? != some ':'
  if s.argc < 1 then return (-1, s)
  let s := { s with optarg := none }
  let first := s.optind = 0 ∨ ¬s.initialized
  let optstring := if first then skipOrdering call.optstring else call.optstring
  let s :=
    if first then
      { getoptInitialize call { s with optind := if s.optind = 0 then 1 else s.optind } with
        initialized := true }
    else s
  if s.nextchar = [] then
    let (r, s) ← advance call s
    r.elim (decode call optstring printErrors s) fun r => pure (r, s)
  else decode call optstring printErrors s

end BenchFFT
