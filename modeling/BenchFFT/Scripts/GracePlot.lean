import Mathlib.Data.List.AList
import Mathlib.Data.Rat.Defs

/-!
# The transforms that a plot shows (`grace-plot.pl`)

From the arguments and the input to `@plot_transforms`.  Numbers are rational, a hash is an `AList`,
and what is not in a hash reads as `0` or as the empty string.  `keys %results` comes in an order
that is an argument; that of `keys(%tots)` is left to `sort`.

What the script prints is left out, and with it the widths, the range of the values and the styles
themselves: the selection only asks for their names.
-/

namespace BenchFFT.GracePlot

/-- What the script takes from Perl. -/
structure Perl where
  /-- There is none where `log` stops the script. -/
  log : ℚ → Option ℚ
  /-- The number that a string stands for. -/
  number : String → ℚ
  /-- `sort` leaves open the order of elements that the comparison does not tell apart. -/
  sort : ∀ {α : Type}, (α → α → ℚ) → List α → List α
  sort_perm : ∀ {α : Type} (cmp : α → α → ℚ) (l : List α), (sort cmp l).Perm l

/-- A division by zero stops the script. -/
def divide (a b : ℚ) : Option ℚ := if b = 0 then none else some (a / b)

/-! ### Arguments -/

structure Options where
  noDups : Bool := false
  colonOnly : Bool := false
  accuracy : Bool := false
  plotWorst : Bool := false
  skipMissingStyles : Bool := false
  usePaperStyles : Bool := false

def Options.shift (o : Options) (arg : String) : Options where
  noDups := o.noDups || arg = "--no-dups"
  colonOnly := o.colonOnly || arg = "--colon-only"
  accuracy := o.accuracy || arg = "--accuracy"
  plotWorst := o.plotWorst || arg = "--plot-worst"
  skipMissingStyles := o.skipMissingStyles || arg = "--skip-missing-styles"
  usePaperStyles := o.usePaperStyles || arg = "--use-paper-styles"

def options (args : List String) : Options := args.foldl Options.shift {}

/-- The keys of `%styles`. -/
def styles : List String :=
  ["acml", "arprec", "as83", "as97", "as117", "bloodworth", "bloodworth-fht", "burrus-sffteu",
    "cross", "cwplib", "dfftpack", "dsp79-rader", "dsp79-FAST", "dsp79-FFA", "dsp79-FFT842",
    "dsp79-singleton", "dsp79-wfta", "dsp79-morris", "cxml", "emayer", "esrfft", "essl", "ffte",
    "fftpack", "fftreal", "fftw2", "fftw2-measure", "fftw2-estimate", "fftw2-nd",
    "fftw2-nd-measure", "fftw2-nd-estimate", "fftw3_simd", "fftw3_simd-impatient",
    "fftw3_simd-estimate", "fftw3", "fftw3-impatient", "fftw3-estimate", "fftw3 out-of-place",
    "fftw3-impatient out-of-place", "fftw3-estimate out-of-place", "fftw3 in-place",
    "fftw3-impatient in-place", "fftw3-estimate in-place", "fftw3-r2r", "fxt-4step",
    "fxt-matrixfft", "fxt-dif", "fxt-dit", "fxt-fht", "fxt-fht-real", "fxt-ndim", "fxt-split",
    "fxt-split-real", "fxt-twodim", "fxt-wrap-real", "goedecker", "gpfa", "gpfa-3d", "green",
    "gsl-mixed-radix", "gsl-radix2", "gsl-radix2-dif", "gsl-radix2-dit", "harm", "intel-ipps",
    "intel-mkl", "intel-mkl-dfti in-place", "intel-mkl-dfti out-of-place", "intel-mkl-dfti",
    "intel-mkl-f", "jmfftc", "kissfft", "krukar", "mfft", "monnier", "morris82", "mixfft",
    "bailey", "mpfun77", "mpfun90", "nag-cmplx", "nag-workspace", "nag-in-place", "nag-multiple",
    "napack", "nr-c", "nr-f", "numutils", "ooura-sg", "ooura-sgf", "ooura-sg2d", "ooura-sg2df",
    "ooura-sg3d", "ooura-sg3df", "ooura-8g", "ooura-8gf", "ooura-4g", "ooura-4gf", "ooura-4f2d",
    "ooura-4f2df", "qft", "ransom", "rmayer-ctrig", "rmayer-buneman", "rmayer-buneman2",
    "rmayer-buneman3", "rmayer-simple", "rmayer-unstable", "rmayer-lookup", "sciport", "sgimath",
    "singleton", "singleton-3d", "sorensen-ctfftsr", "sorensen-rsrfft", "sorensen-sfftfu",
    "spiral-fft", "spiral-egner-fft", "sunperf", "temperton", "teneyck", "valkenburg", "vbigdsp",
    "vdsp out-of-place", "vdsp in-place"]

/-- The keys of `%paper_styles`. -/
def paperStyles : List String :=
  ["fftw3", "fftw3-no-simd", "fftw3-impatient", "fftw3-estimate", "fftw3 out-of-place",
    "fftw3 in-place", "ooura", "dfftpack", "ffte", "arprec", "green", "fftpack", "singleton",
    "sorensen-ctfftsr", "nr-c", "vdsp", "cxml", "intel-mkl-dfti"]

/-- The keys of `%distinct_ffts`. -/
def distinctFfts : List String :=
  ["intel-mkl-dfti", "fftw3-r2r", "fxt-matrixfft", "fftw3-estimate", "fftw3-no-simd",
    "fftw3-impatient"]

def Options.styles (o : Options) : List String :=
  if o.usePaperStyles then paperStyles else GracePlot.styles

/-! ### The data -/

/-- The first field of `split`: what stands before the first of `seps`. -/
def firstField (seps : List String) (s : String) : String :=
  let cs := s.toList
  String.ofList (cs.take (cs.tails.findIdx fun rest =>
    seps.any fun sep => sep.toList.isPrefixOf rest))

/-- The first two fields of `split(/:/, s)`. -/
def splitColon (s : String) : String × String :=
  let first := firstField [":"] s
  (first, firstField [":"] (String.ofList (s.toList.drop (first.length + 1))))

/-- A line of the input, split at its blanks. -/
structure Line where
  nam : String
  prob : String
  siz : String
  /-- `$mflops`, or with `--accuracy` `$L2f`. -/
  number : ℚ
  /-- The value of `$siz`, with `*` for `x`. -/
  tot : ℚ

structure Data where
  tots : AList fun _ : String => ℚ := ∅
  bestVals : AList fun _ : String => ℚ := ∅
  problems : AList fun _ : String => String := ∅
  /-- For each transform the sizes with their values, split at their colons. -/
  results : AList fun _ : String => List (String × ℚ) := ∅

/-- `($siz, $val) = split(/:/, "$siz:$val")`: where `$siz` has a colon itself, its fields. -/
def splitResult (perl : Perl) (siz : String) (val : ℚ) : String × ℚ :=
  if ':' ∈ siz.toList then
    let (first, second) := splitColon siz
    (first, perl.number second)
  else (siz, val)

def Data.read (perl : Perl) (o : Options) (d : Data) (line : Line) : Data :=
  let val := if o.accuracy then -line.number else line.number
  if val = 0 then d
  else if o.accuracy ∧ line.tot < 8 then d
  else
    let transform := line.nam ++ ":" ++ line.prob
    { tots := d.tots.insert line.siz line.tot
      bestVals :=
        if line.siz ∉ d.bestVals ∨ (d.bestVals.lookup line.siz).getD 0 < val then
          d.bestVals.insert line.siz val
        else d.bestVals
      problems :=
        if line.nam ∉ d.problems then d.problems.insert line.nam line.prob
        else if d.problems.lookup line.nam ≠ some line.prob then
          d.problems.insert line.nam "several"
        else d.problems
      results :=
        d.results.insert transform
          ((d.results.lookup transform).getD [] ++ [splitResult perl line.siz val]) }

def readLines (perl : Perl) (o : Options) (lines : List Line) : Data :=
  lines.foldl (Data.read perl o) {}

/-! ### Normalized values -/

section Values

variable (perl : Perl) (o : Options) (d : Data)

/-- `$xval{$siz}`. -/
def xval (siz : String) : ℚ :=
  let tot := fun siz => (d.tots.lookup siz).getD 0
  ((perl.sort (fun a b => tot a - tot b) d.tots.keys).idxOf siz : ℕ)

/-- `$results{$transform}` after its sort. -/
def sortedResults (transform : String) : List (String × ℚ) :=
  perl.sort (fun a b => xval perl d a.1 - xval perl d b.1) ((d.results.lookup transform).getD [])

def normalize (siz : String) (val : ℚ) : Option ℚ :=
  let best := (d.bestVals.lookup siz).getD 0
  if o.accuracy then do
    let x ← perl.log (-val)
    let y ← perl.log (-best)
    divide x y
  else divide val best

/-- The median of the normalized values of a transform. -/
def normVal (transform : String) : Option ℚ := do
  let nvs ← (sortedResults perl d transform).mapM fun r => normalize perl o d r.1 r.2
  let nvs := perl.sort (fun a b => 100000 * (b - a)) nvs
  return nvs.getD (nvs.length / 2) 0

end Values

/-- `@norm_vals` and `%transforms`. -/
structure NormVals where
  normVals : List ℚ := []
  transforms : AList fun _ : ℚ => String := ∅

def NormVals.add (s : NormVals) (normVal : ℚ) (transform : String) : NormVals :=
  let normVal := if normVal ∈ s.transforms then normVal - 1e-10 else normVal
  { normVals := s.normVals ++ [normVal]
    transforms := s.transforms.insert normVal transform }

/-! ### The selection -/

/-- `$prob =~ /..i./`. -/
def isInPlace (prob : String) : Bool :=
  let cs := prob.toList
  (List.range cs.length).any fun k => cs[k + 2]? = some 'i' && k + 3 < cs.length

/-- The names that old data have for some transforms. -/
def currentName (nam : String) : String :=
  let namleg := if nam = "fxt-4step" then "fxt-matrixfft" else nam
  let namleg := if namleg = "spiral-fft" then "spiral-egner-fft" else namleg
  let namleg := if namleg = "green-ffts-2.0" then "green" else namleg
  if namleg = "dxml" then "cxml" else namleg

/-- `$nam0` and `$namleg`: the family of a transform and its text in the legend. -/
def family (o : Options) (d : Data) (transform : String) : String × String :=
  let nam := (splitColon transform).1
  let prob := (splitColon transform).2
  let severalProblems := (d.problems.lookup nam).getD "" ≠ prob
  let namleg := currentName nam
  let nam0 := if o.colonOnly then firstField [":"] nam else firstField ["-", ":", "77", "90"] nam
  let nam0 := if namleg ∈ distinctFfts then nam else nam0
  let nam0 := if nam0 = "dsp79" then nam else nam0
  -- without quotes, `rmayer-buneman` is the difference of two strings
  let nam0 := if o.accuracy ∧ nam ∈ ["rmayer-buneman", "rmayer-buneman2", "rmayer-buneman3"]
    then "0" else nam0
  let placed := (namleg ++ " in-place" ∈ o.styles ∨ namleg ++ " out-of-place" ∈ o.styles) ∧
    severalProblems
  let place := if isInPlace prob then " in-place" else " out-of-place"
  let nam0 := if placed then nam0 ++ place else nam0
  let namleg := if placed then namleg ++ place else namleg
  let namleg := if nam0 ∈ o.styles ∧ namleg ∉ o.styles ∧ nam ∉ o.styles then nam0 else namleg
  let namleg := if nam0 = "fftw2" ∧ o.noDups then "fftw2" else namleg
  let namleg := if ¬o.noDups ∧ severalProblems then transform else namleg
  (nam0, namleg)

structure Selection where
  /-- The keys of `%done`. -/
  done : List String := []
  namlegends : AList fun _ : String => String := ∅
  plotTransforms : List String := []

def Selection.add (o : Options) (d : Data) (s : Selection) (transform : String) : Selection :=
  let nam := (splitColon transform).1
  let nam0 := (family o d transform).1
  let namleg := (family o d transform).2
  if o.skipMissingStyles ∧ transform ∉ o.styles ∧ namleg ∉ o.styles ∧ nam ∉ o.styles then s
  else if o.noDups ∧ nam0 ∈ s.done then s
  else
    { done := nam0 :: s.done
      namlegends := s.namlegends.insert transform namleg
      plotTransforms := s.plotTransforms ++ [transform] }

/-! ### The script -/

/-- `%transforms`, `%namlegends` and `@plot_transforms` when the plot is printed. -/
structure Plot where
  transforms : AList fun _ : ℚ => String
  namlegends : AList fun _ : String => String
  plotTransforms : List String

/-- The loop over `keys %results`, which come in the order `keys`. -/
def normVals (perl : Perl) (o : Options) (d : Data) (keys : List String) : Option NormVals :=
  keys.foldlM (fun s transform => do
    let normVal ← normVal perl o d transform
    return s.add normVal transform) {}

def gracePlot (perl : Perl) (args : List String) (lines : List Line) (keys : List String) :
    Option Plot := do
  let o := options args
  let d := readLines perl o lines
  let s ← normVals perl o d keys
  let cmp := if o.plotWorst then fun a b => 100000 * (a - b) else fun a b => 100000 * (b - a)
  let sortedNormVals := perl.sort cmp s.normVals
  let sel := sortedNormVals.foldl (fun (sel : Selection) normVal =>
    sel.add o d ((s.transforms.lookup normVal).getD "")) {}
  return {
    transforms := s.transforms
    namlegends := sel.namlegends
    plotTransforms :=
      if xor o.accuracy o.plotWorst then sel.plotTransforms.reverse else sel.plotTransforms }

end BenchFFT.GracePlot
