import BenchFFT.Options.BenchMain
import Mathlib.Algebra.Order.Monoid.Unbundled.Basic

/-!
# The lines of the usage message

`usage` counts in `col` the column in which the output stands, and starts a new line where the next
option may not fit.  The count is right, and it keeps the lines within 82 columns, whatever the
options are (`usage_columns`).
-/

namespace BenchFFT

/-- The column after a character; a tab goes on to the next multiple of 8. -/
def nextColumn (col : ℕ) (c : Char) : ℕ :=
  if c = '\n' then 0 else if c = '\t' then (col / 8 + 1) * 8 else col + 1

/-- The column in which an output stands. -/
def outColumn (out : List Char) : ℕ := out.foldl nextColumn 0

/-- No output that has been seen on the way goes beyond `width`. -/
def Within (width : ℕ) (out : List Char) : Prop := ∀ pre, pre <+: out → outColumn pre ≤ width

/-- A text that takes one column for each character. -/
def Plain (text : List Char) : Prop := ∀ c ∈ text, c ≠ '\n' ∧ c ≠ '\t'

theorem plain_of_all {text : List Char} (h : text.all fun c => c ≠ '\n' ∧ c ≠ '\t') :
    Plain text := fun c hc => of_decide_eq_true (List.all_eq_true.mp h c hc)

theorem column_append_plain {text : List Char} (htext : Plain text) (out : List Char) :
    outColumn (out ++ text) = outColumn out + text.length := by
  induction text using List.reverseRecOn with
  | nil => simp
  | append_singleton text c ih =>
    have hc := htext c (by simp)
    have hrest : Plain text := fun d hd => htext d (List.mem_append_left _ hd)
    rw [← List.append_assoc, outColumn, List.foldl_append, ← outColumn, ih hrest, List.foldl_cons,
      List.foldl_nil, nextColumn, if_neg hc.1, if_neg hc.2, List.length_append,
      List.length_singleton, Nat.add_assoc]

theorem column_newline (out : List Char) : outColumn (out ++ ['\n', '\t']) = 8 := by
  rw [outColumn, List.foldl_append]
  simp [nextColumn]

theorem within_concat {width : ℕ} {out : List Char} {c : Char} :
    Within width (out ++ [c]) ↔ Within width out ∧ outColumn (out ++ [c]) ≤ width := by
  simp only [Within, List.prefix_concat_iff]
  constructor
  · intro h
    exact ⟨fun pre hpre => h pre (Or.inr hpre), h _ (Or.inl rfl)⟩
  · rintro ⟨hout, hc⟩ pre (rfl | hpre)
    · exact hc
    · exact hout pre hpre

theorem within_append_plain {width : ℕ} {out text : List Char} (hout : Within width out)
    (htext : Plain text) (hwidth : outColumn out + text.length ≤ width) :
    Within width (out ++ text) := by
  induction text using List.reverseRecOn with
  | nil => simpa using hout
  | append_singleton text c ih =>
    have hrest : Plain text := fun d hd => htext d (List.mem_append_left _ hd)
    have hlen : (text ++ [c]).length = text.length + 1 := by simp
    rw [← List.append_assoc, within_concat]
    refine ⟨ih hrest (by omega), ?_⟩
    rwa [List.append_assoc, column_append_plain htext]

theorem within_newline {width : ℕ} {out : List Char} (hout : Within width out)
    (hwidth : 8 ≤ width) : Within width (out ++ ['\n', '\t']) := by
  have hsplit : out ++ ['\n', '\t'] = out ++ ['\n'] ++ ['\t'] := by simp
  have hline : outColumn (out ++ ['\n']) = 0 := by
    rw [outColumn, List.foldl_append]
    simp [nextColumn]
  rw [hsplit, within_concat, within_concat, ← hsplit, column_newline, hline]
  exact ⟨⟨hout, Nat.zero_le _⟩, hwidth⟩

/-! ### One option -/

/-- The option is printed in characters that take one column each. -/
structure LongOption.Printable (p : LongOption) : Prop where
  name : Plain p.name
  val : 0 ≤ p.val → p.val < 256 → isprint p.val

/-- What is printed for an option after its line has been chosen. -/
def optionText (p : LongOption) : List Char :=
  " [--".toList ++ p.name
    ++ (if 0 ≤ p.val ∧ p.val < 256 then " | -".toList ++ [Char.ofNat p.val.toNat] else [])
    ++ match p.hasArg with
      | .requiredArgument => " arg]".toList
      | .optionalArgument => " [arg(s)]]".toList
      | .noArgument => "]".toList

/-- An optional argument takes five columns more than any other. -/
theorem length_optionText (p : LongOption) :
    (optionText p).length ≤ p.name.length + if p.hasArg = .optionalArgument then 19 else 14 := by
  rw [optionText]
  cases hkind : p.hasArg <;> split_ifs <;> simp_all

theorem plain_optionText {p : LongOption} (hp : p.Printable) : Plain (optionText p) := by
  intro c hc
  rw [optionText, List.mem_append, List.mem_append, List.mem_append] at hc
  rcases hc with ((hc | hc) | hc) | hc
  · exact plain_of_all (by decide) c hc
  · exact hp.name c hc
  · split_ifs at hc with hval
    · rcases List.mem_append.mp hc with hc | hc
      · exact plain_of_all (by decide) c hc
      · obtain rfl := List.mem_singleton.mp hc
        have hprint := hp.val hval.1 hval.2
        have hcode := charCode_ofNat hprint
        have hlarge : 32 ≤ p.val := (by simpa [isprint] using hprint : 32 ≤ p.val ∧ _).1
        constructor <;> intro heq
        all_goals
          rw [heq] at hcode
          simp [charCode] at hcode
          omega
    · simp at hc
  · cases hkind : p.hasArg <;> rw [hkind] at hc
    · exact plain_of_all (by decide) c hc
    · exact plain_of_all (by decide) c hc
    · exact plain_of_all (by decide) c hc

/-- The count is right, and the output has kept within `width`. -/
structure Usage.Tidy (u : Usage) (width : ℕ) : Prop where
  col : u.col = outColumn u.out
  within : Within width u.out

theorem Usage.Tidy.put {u : Usage} {width : ℕ} {text : List Char} {n : ℤ} (hu : u.Tidy width)
    (htext : Plain text) (hn : n = text.length) (hwidth : outColumn u.out + text.length ≤ width) :
    (u.put text n).Tidy width := by
  refine ⟨?_, within_append_plain hu.within htext hwidth⟩
  change u.col + n = outColumn (u.out ++ text)
  rw [column_append_plain htext, hu.col, hn]
  rfl

/-- The line on which an option is printed. -/
def usageLine (p : LongOption) (u : Usage) : Usage :=
  if u.col ≥ 80 - ((p.name.length : ℤ) + 16) then ⟨u.out ++ ['\n', '\t'], 8⟩ else u

theorem usageOption_eq (u : Usage) (p : LongOption) :
    usageOption u p = (usageLine p u).put (optionText p) (optionText p).length := by
  rw [usageOption, ← usageLine, optionText]
  cases p.hasArg <;> split_ifs <;> simp [Usage.put] <;> omega

theorem usageOption_tidy {u : Usage} {p : LongOption} {width : ℕ} (hp : p.Printable)
    (hname : p.name.length ≤ 55) (hwidth : 77 ≤ width)
    (hoptional : p.hasArg = .optionalArgument → 82 ≤ width) (hu : u.Tidy width) :
    (usageOption u p).Tidy width := by
  have hlen := length_optionText p
  rw [usageOption_eq]
  have hline : (usageLine p u).Tidy width ∧
      outColumn (usageLine p u).out + (optionText p).length ≤ width := by
    rw [usageLine]
    split_ifs with hwrap
    · refine ⟨⟨by rw [column_newline]; rfl, within_newline hu.within (by omega)⟩, ?_⟩
      rw [column_newline]
      split_ifs at hlen with hkind
      · have := hoptional hkind
        omega
      · omega
    · refine ⟨hu, ?_⟩
      rw [hu.col] at hwrap
      split_ifs at hlen with hkind
      · have := hoptional hkind
        omega
      · omega
  exact hline.1.put (plain_optionText hp) rfl hline.2

/-- However long the table is, the count is right after every option, and the message keeps within
77 columns, or 82 where an option takes an optional argument. -/
theorem usage_columns (progname : List Char) (opt : List LongOption) (width : ℕ)
    (hprogname : Plain progname) (hprinted : ∀ p ∈ opt, p.Printable)
    (hname : ∀ p ∈ opt, p.name.length ≤ 55) (hwidth : 77 ≤ width)
    (hoptional : ∀ p ∈ opt, p.hasArg = .optionalArgument → 82 ≤ width)
    (hfirst : progname.length + 7 ≤ width) :
    Within width (usage progname opt) ∧ ∀ printed, printed <+: opt →
      (printed.foldl usageOption
          (({} : Usage).put ("Usage: ".toList ++ progname) (progname.length + 7))).col
        = outColumn (printed.foldl usageOption
          (({} : Usage).put ("Usage: ".toList ++ progname) (progname.length + 7))).out := by
  set start := ({} : Usage).put ("Usage: ".toList ++ progname) (progname.length + 7)
  have hstart : start.Tidy width := by
    have hplain : Plain ("Usage: ".toList ++ progname) :=
      fun c hc => (List.mem_append.mp hc).elim (plain_of_all (by decide) c) (hprogname c)
    have hempty : ({} : Usage).Tidy width :=
      ⟨rfl, fun pre hpre => by rw [List.prefix_nil.mp hpre]; exact Nat.zero_le _⟩
    refine hempty.put hplain ?_ ?_
    · simp
      omega
    · simp [outColumn]
      omega
  have htidy : ∀ printed, printed <+: opt → (printed.foldl usageOption start).Tidy width := by
    intro printed
    induction printed using List.reverseRecOn with
    | nil => exact fun _ => hstart
    | append_singleton printed p ih =>
      intro hpre
      have hp : p ∈ opt := hpre.subset (by simp)
      rw [List.foldl_append]
      exact usageOption_tidy (hprinted p hp) (hname p hp) hwidth (hoptional p hp)
        (ih ((List.prefix_append _ _).trans hpre))
  refine ⟨?_, fun printed hpre => (htidy printed hpre).col⟩
  rw [usage, within_concat]
  refine ⟨(htidy opt (List.prefix_refl opt)).within, ?_⟩
  rw [outColumn, List.foldl_append]
  simp [nextColumn]

theorem usage_columns_longOptions : Within 82 (usage "bench".toList longOptions) := by
  have hprinted : ∀ p ∈ longOptions, p.name.all (fun c => c ≠ '\n' ∧ c ≠ '\t') ∧
      (0 ≤ p.val → p.val < 256 → isprint p.val) := by
    decide
  exact (usage_columns "bench".toList longOptions 82 (plain_of_all (by decide))
    (fun p hp => ⟨plain_of_all (hprinted p hp).1, (hprinted p hp).2⟩) (by decide) (by decide)
    (by decide) (by decide)).1

end BenchFFT
