import BenchFFT.Options.Getopt

/-!
# The options of a benchmark (`bench-main.c`, `getopt-utils.c`)

`benchMain1` handles the options that `getopt_long` returns, one at a time, and then measures the
speed of every argument that is left.  What it calls is kept in a log, each call with its arguments
and with the variables it reads.

`double` is the type `D`, with `strtod` and `atoi` as parameters.
-/

namespace BenchFFT

/-- `isprint` in the C locale.  For what is no `unsigned char` it is undefined, and false here: the
table has such values, for the options without a character. -/
def isprint (c : ℤ) : Bool := 32 ≤ c ∧ c < 127

theorem charCode_ofNat {v : ℤ} (hv : isprint v) : charCode (Char.ofNat v.toNat) = v := by
  obtain ⟨h0, h1⟩ : 32 ≤ v ∧ v < 127 := by simpa [isprint] using hv
  have hvalid : v.toNat.isValidChar := Or.inl (by omega)
  have htoNat : (Char.ofNat v.toNat).toNat = v.toNat := by
    rw [Char.ofNat, dif_pos hvalid]
    rfl
  rw [charCode, htoNat, if_neg (by omega)]
  omega

theorem charCode_injective {c d : Char} (h : charCode c = charCode d) : c = d := by
  unfold charCode at h
  apply Char.toNat_inj.mp
  split_ifs at h <;> omega

/-- What `make_short_options` writes for one option. -/
def shortOptionText (p : LongOption) : List Char :=
  if p.flag = none ∧ isprint p.val then
    Char.ofNat p.val.toNat :: match p.hasArg with
      | .noArgument => []
      | .requiredArgument => [':']
      | .optionalArgument => [':', ':']
  else []

/-- The string that `make_short_options` returns, up to its NUL. -/
def makeShortOptions (opt : List LongOption) : List Char := opt.flatMap shortOptionText

/-- The size of the memory that `make_short_options` asks for. -/
def shortOptionsSize (opt : List LongOption) : ℕ := 3 * opt.length + 1

/-! ### The usage message -/

/-- What `usage` has printed, and its variable `col`. -/
structure Usage where
  out : List Char := []
  col : ℤ := 0

/-- `fputs(text, stdout); col += n;` -/
def Usage.put (text : List Char) (n : ℤ) (u : Usage) : Usage := ⟨u.out ++ text, u.col + n⟩

/-- What is printed for one option. -/
def usageOption (u : Usage) (p : LongOption) : Usage :=
  let optionLen : ℤ := p.name.length
  let u := if u.col ≥ 80 - (optionLen + 16) then ⟨u.out ++ ['\n', '\t'], 8⟩ else u
  let u := u.put (" [--".toList ++ p.name) (optionLen + 4)
  -- the cast of `val` to `unsigned int` makes a negative one large
  let u :=
    if 0 ≤ p.val ∧ p.val < 256 then u.put (" | -".toList ++ [Char.ofNat p.val.toNat]) 5 else u
  match p.hasArg with
  | .requiredArgument => u.put " arg]".toList 5
  | .optionalArgument => u.put " [arg(s)]]".toList 10
  | .noArgument => u.put "]".toList 1

def usage (progname : List Char) (opt : List LongOption) : List Char :=
  let u := ({} : Usage).put ("Usage: ".toList ++ progname) (progname.length + 7)
  (opt.foldl usageOption u).out ++ ['\n']

/-! ### The main program -/

/-- An entry of `long_options`; none of them has a flag. -/
def longEntry (name : String) (hasArg : HasArg) (val : ℤ) : LongOption :=
  ⟨name.toList, hasArg, none, val⟩

def longOptions : List LongOption := [
  longEntry "accuracy" .requiredArgument (charCode 'a'),
  longEntry "accuracy-rounds" .requiredArgument 405,
  longEntry "can-do" .requiredArgument (charCode 'd'),
  longEntry "help" .noArgument (charCode 'h'),
  longEntry "info" .requiredArgument (charCode 'i'),
  longEntry "info-all" .noArgument (charCode 'I'),
  longEntry "paranoid" .noArgument (charCode 'p'),
  longEntry "print-precision" .noArgument 402,
  longEntry "print-time-min" .noArgument 400,
  longEntry "random-seed" .requiredArgument 404,
  longEntry "report-benchmark" .noArgument 320,
  longEntry "report-mflops" .noArgument 300,
  longEntry "report-time" .noArgument 310,
  longEntry "report-verbose" .noArgument 330,
  longEntry "speed" .requiredArgument (charCode 's'),
  longEntry "time-min" .requiredArgument (charCode 't'),
  longEntry "time-repeat" .requiredArgument (charCode 'r'),
  longEntry "user-option" .requiredArgument (charCode 'o'),
  longEntry "verbose" .optionalArgument (charCode 'v'),
  longEntry "verify" .requiredArgument (charCode 'y'),
  longEntry "verify-rounds" .requiredArgument 401,
  longEntry "verify-tolerance" .requiredArgument 403]

/-- The sizes of the floating-point types, on which the macros for the precision depend. -/
structure Platform where
  sizeofReal : ℕ
  sizeofFloat : ℕ
  sizeofDouble : ℕ
  sizeofLongDouble : ℕ

namespace Platform

variable (p : Platform)

/-- `DOUBLE_PRECISION`. -/
def doublePrecision : Bool := p.sizeofReal = p.sizeofDouble

/-- `SINGLE_PRECISION`. -/
def singlePrecision : Bool := ¬p.doublePrecision ∧ p.sizeofReal = p.sizeofFloat

/-- `LDOUBLE_PRECISION`. -/
def ldoublePrecision : Bool := ¬p.doublePrecision ∧ p.sizeofReal = p.sizeofLongDouble

/-- What `--print-precision` prints. -/
def precisionText : String :=
  if p.singlePrecision then "single\n"
  else if p.ldoublePrecision then "long-double\n"
  else if p.doublePrecision then "double\n"
  else "unknown " ++ toString p.sizeofReal ++ "\n"

end Platform

/-- What the function pointer `report` can be. -/
inductive ReportFunction where
  | mflops
  | time
  | benchmark
  | verbose
  deriving DecidableEq, Repr

/-- The local variables of `bench_main1`, and the global ones that it sets. -/
structure Settings (D : Type) where
  tmin : D
  tol : D
  repeats : ℤ
  rounds : ℤ
  arounds : ℤ
  report : ReportFunction
  verbose : ℤ
  paranoid : ℤ
  deriving DecidableEq

/-- The calls that `bench_main1` makes. -/
inductive Action (D : Type) where
  | benchSrand (seed : ℤ)
  | timerInit (tmin : D) (repeats : ℤ)
  | speed (param : List Char)
  | reportCanDo (param : List Char)
  | useropt (arg : List Char)
  | verify (param : List Char) (rounds : ℤ) (tol : D)
  | accuracy (param : List Char) (rounds : ℤ)
  | reportInfo (param : List Char)
  | reportInfoAll
  | usage (progname : List Char) (opt : List LongOption)
  /-- `time_min`, which `timer_init` has set. -/
  | printTimeMin
  | print (text : String)
  deriving DecidableEq

/-- A run of `bench_main1` so far: each call comes with the settings that are in force. -/
structure BenchMain (D : Type) where
  settings : Settings D
  log : List (Action D × Settings D)
  deriving DecidableEq

namespace BenchMain

variable {D : Type}

def act (a : Action D) (m : BenchMain D) : BenchMain D :=
  { m with log := m.log ++ [(a, m.settings)] }

def set (settings : Settings D) (m : BenchMain D) : BenchMain D := { m with settings }

/-- `timer_init(tmin, repeat);` -/
def timerInit (m : BenchMain D) : BenchMain D :=
  m.act (.timerInit m.settings.tmin m.settings.repeats)

/-- `timer_init(tmin, repeat); speed(param);` -/
def speed (param : List Char) (m : BenchMain D) : BenchMain D := m.timerInit.act (.speed param)

end BenchMain

/-- The numbers of `bench_main1`: its constants of type `double`, and how strings are read. -/
structure Numbers (D : Type) where
  zero : D
  /-- `1.0e-3`. -/
  tolSingle : D
  /-- `1.0e-10`. -/
  tolDouble : D
  strtod : List Char → D
  atoi : List Char → ℤ

section Main

variable {D : Type} (numbers : Numbers D) (platform : Platform)

/-- The variables before the loop, and the calls made there. -/
def benchMainInit : BenchMain D where
  settings :=
    { tmin := numbers.zero
      tol := if platform.singlePrecision then numbers.tolSingle else numbers.tolDouble
      repeats := 0
      rounds := 10
      arounds := 1
      report := .verbose
      verbose := 0
      paranoid := 0 }
  log := []

/-- The `switch` on what `getopt_long` returns.  There is no result where it calls `abort`, where
it reads a string from a null `optarg`, and where an `int` overflows. -/
def handleOption (progname : List Char) (c : ℤ) (optarg : Option (List Char)) (m : BenchMain D) :
    Option (BenchMain D) :=
  let s := m.settings
  if c = charCode 't' then optarg.map fun a => m.set { s with tmin := numbers.strtod a }
  else if c = charCode 'r' then optarg.map fun a => m.set { s with repeats := numbers.atoi a }
  else if c = charCode 's' then optarg.map fun a => m.speed a
  else if c = charCode 'd' then optarg.map fun a => m.act (.reportCanDo a)
  else if c = charCode 'o' then optarg.map fun a => m.act (.useropt a)
  else if c = charCode 'v' then
    optarg.elim ((int (s.verbose + 1)).map fun v => m.set { s with verbose := v })
      fun a => some (m.set { s with verbose := numbers.atoi a })
  else if c = charCode 'p' then (int (s.paranoid + 1)).map fun v => m.set { s with paranoid := v }
  else if c = charCode 'y' then optarg.map fun a => m.act (.verify a s.rounds s.tol)
  else if c = charCode 'a' then optarg.map fun a => m.act (.accuracy a s.arounds)
  else if c = charCode 'i' then optarg.map fun a => m.act (.reportInfo a)
  else if c = charCode 'I' then some (m.act .reportInfoAll)
  else if c = charCode 'h' then some (m.act (.usage progname longOptions))
  else if c = 300 then some (m.set { s with report := .mflops })
  else if c = 310 then some (m.set { s with report := .time })
  else if c = 320 then some (m.set { s with report := .benchmark })
  else if c = 330 then some (m.set { s with report := .verbose })
  else if c = 400 then some (m.timerInit.act .printTimeMin)
  else if c = 401 then optarg.map fun a => m.set { s with rounds := numbers.atoi a }
  else if c = 402 then some (m.act (.print platform.precisionText))
  else if c = 403 then optarg.map fun a => m.set { s with tol := numbers.strtod a }
  else if c = 404 then optarg.map fun a => m.act (.benchSrand (numbers.atoi a))
  else if c = 405 then optarg.map fun a => m.set { s with arounds := numbers.atoi a }
  else if c = charCode '?' then some m
  else none

/-- The call of `getopt_long` in `bench_main1`. -/
def benchCall (opterr posixlyCorrect : Bool) : GetoptCall where
  optstring := makeShortOptions longOptions
  longopts := some longOptions
  longOnly := false
  opterr
  posixlyCorrect

/-- `while ((c = getopt_long (...)) != -1) { ... }`. -/
def optionLoop (call : GetoptCall) {σ : Type} (handle : ℤ → Option (List Char) → σ → Option σ) :
    ForEver (Getopt × σ) (Getopt × σ) where
  body s := (getoptInternal call s.1).toOption.bind fun r =>
    if r.1 = -1 then some (.inl (r.2, s.2))
    else (handle r.1 r.2.optarg s.2).map fun m => .inr (r.2, m)

/-- `while (optind < argc) { timer_init(tmin, repeat); speed(argv[optind++]); }` -/
def benchRest (t : Getopt) (m : BenchMain D) : Option (BenchMain D) :=
  forFromM t.optind t.argc (fun i m => (t.argv[i]?).map fun a => m.speed a) m

def benchMain1 (opterr posixlyCorrect : Bool) (s : Getopt) : Option (BenchMain D) :=
  let m := (benchMainInit numbers platform).act (.benchSrand 1)
  ((optionLoop (benchCall opterr posixlyCorrect) (handleOption numbers platform s.progname)).run
    (s, m)).bind fun (t, m) => benchRest t m

end Main

end BenchFFT
