import BenchFFT.Options.Equiv.Getopt
import BenchFFT.Options.Equiv.Scan
import BenchFFT.Options.Equiv.ShortOptions

/-!
# What a command line makes a benchmark do

`bench_main1` handles the options of the command line from left to right, and measures the speed of
the operands after that, in their order and with the settings that the options have left
(`benchMain1_run`).
-/

namespace BenchFFT

/-- The events, handled one after the other. -/
def handleAll {σ : Type} (handle : ℤ → Option (List Char) → σ → Option σ) (es : List Event)
    (m : σ) : Option σ :=
  es.foldlM (fun m e => handle e.code e.arg m) m

/-- Handling the events fails at the first of them that cannot be handled. -/
theorem handleAll_eq_none {σ : Type} {handle : ℤ → Option (List Char) → σ → Option σ}
    {es : List Event} {m : σ} :
    handleAll handle es m = none ↔ ∃ es₁ e es₂ m', es = es₁ ++ e :: es₂ ∧
      handleAll handle es₁ m = some m' ∧ handle e.code e.arg m' = none := by
  induction es generalizing m with
  | nil => simp [handleAll]
  | cons e es ih =>
    have hcons : ∀ (f : Event) fs, handleAll handle (f :: fs) m
        = (handle f.code f.arg m).bind fun m => handleAll handle fs m := fun f fs => by
      rw [handleAll, List.foldlM_cons]
      rfl
    rw [hcons]
    cases he : handle e.code e.arg m with
    | none =>
      simp only [Option.bind_none, true_iff]
      exact ⟨[], e, es, m, rfl, rfl, he⟩
    | some u =>
      rw [Option.bind_some, ih]
      constructor
      · rintro ⟨es₁, f, es₂, m', rfl, hrun, hf⟩
        exact ⟨e :: es₁, f, es₂, m', rfl, by rw [hcons, he]; exact hrun, hf⟩
      · rintro ⟨es₁, f, es₂, m', hsplit, hrun, hf⟩
        cases es₁ with
        | nil =>
          obtain ⟨rfl, rfl⟩ := List.cons.inj hsplit
          obtain rfl : m = m' := by simpa [handleAll] using hrun
          rw [he] at hf
          simp at hf
        | cons e' es₁ =>
          obtain ⟨rfl, rfl⟩ := List.cons.inj hsplit
          rw [hcons, he] at hrun
          exact ⟨es₁, f, es₂, m', rfl, hrun, hf⟩

theorem optionLoop_run {call : GetoptCall} {σ : Type}
    {handle : ℤ → Option (List Char) → σ → Option σ} {s t : Getopt} {es : List Event}
    (h : Calls call s es t) (m : σ) :
    (optionLoop call handle).run (s, m) = (handleAll handle es m).map fun m => (t, m) := by
  induction h generalizing m with
  | @done s t hrun =>
    apply ForEver.run_inl
    simp [optionLoop, hrun, Except.toOption]
  | @call s s' t r es hrun hr _ ih =>
    rw [handleAll, List.foldlM_cons]
    cases hm : handle r s'.optarg m with
    | none =>
      apply ForEver.run_none
      simp [optionLoop, hrun, Except.toOption, hr, hm]
    | some m' =>
      have hbody : (optionLoop call handle).body (s, m) = some (.inr (s', m')) := by
        simp [optionLoop, hrun, Except.toOption, hr, hm]
      rw [ForEver.run_inr hbody, ih]
      rfl

theorem benchRest_eq {D : Type} {t : Getopt} {prog : List Char}
    {options operands : List (List Char)} (h : Sorted t prog options operands) (m : BenchMain D) :
    benchRest t m = some (operands.foldl (fun m a => m.speed a) m) := by
  have hargc : t.argc - t.optind = operands.length := by
    rw [Getopt.argc, h.argv, h.optind]
    simp
    omega
  have hget : ∀ i, t.argv[t.optind + i]? = operands[i]? := by
    intro i
    have hlen : t.optind + i = (prog :: options).length + i := by
      rw [h.optind, List.length_cons]
      omega
    rw [h.argv, hlen, ← List.cons_append, List.getElem?_append_right (Nat.le_add_right _ _),
      Nat.add_sub_cancel_left]
  -- the operands before the one at `i` have been measured
  have hstep : ∀ i < operands.length, ∀ m', m' = (operands.take i).foldl (fun m a => m.speed a) m →
      ∃ m'', (t.argv[t.optind + i]?).map (fun a => m'.speed a) = pure m'' ∧
        m'' = (operands.take (i + 1)).foldl (fun m a => m.speed a) m := by
    rintro i hi _ rfl
    rw [hget, List.getElem?_eq_getElem hi]
    refine ⟨_, rfl, ?_⟩
    rw [List.take_succ_eq_append_getElem hi, List.foldl_append]
    rfl
  obtain ⟨m', hrun, hm'⟩ := forRangeM_exists (s := m)
    (fun i m' => m' = (operands.take i).foldl (fun m a => m.speed a) m) rfl hstep
  rw [benchRest, forFromM, hargc, hrun, hm', List.take_length]
  rfl

section Main

variable {D : Type} (numbers : Numbers D) (platform : Platform)

theorem benchCall_knows (opterr posixlyCorrect : Bool) :
    (benchCall opterr posixlyCorrect).Knows longOptions :=
  ⟨rfl, rfl, by decide⟩

theorem benchCall_plain (opterr posixlyCorrect : Bool) :
    (benchCall opterr posixlyCorrect).Plain where
  longOnly := rfl
  noPosixW temp h := by
    have hnone : myIndex (makeShortOptions longOptions) 'W' = none := by decide
    exact absurd (hnone.symm.trans h) (by simp)
  charCode_ne := charCode_ne_of_ascii (makeShortOptions longOptions) (by decide)
  val_ne longopts hopts := by
    obtain rfl : longOptions = longopts := Option.some.inj hopts
    decide

/-- What a command line says to a benchmark. -/
def benchScan (posixlyCorrect : Bool) (args : List (List Char)) : Scan :=
  (benchCall true posixlyCorrect).grammar.scan (benchCall true posixlyCorrect).ordering args

/-- What is left to do after the options. -/
theorem foldl_speed (operands : List (List Char)) (m : BenchMain D) :
    operands.foldl (fun m a => m.speed a) m
      = ⟨m.settings, m.log ++ operands.flatMap fun a =>
          [(.timerInit m.settings.tmin m.settings.repeats, m.settings),
            (.speed a, m.settings)]⟩ := by
  induction operands generalizing m with
  | nil => simp
  | cons a operands ih =>
    rw [List.foldl_cons, ih, List.flatMap_cons]
    simp [BenchMain.speed, BenchMain.timerInit, BenchMain.act]

/-- The run of `bench_main1` before the operands. -/
def benchOptions (posixlyCorrect : Bool) (prog : List Char) (args : List (List Char)) :
    Option (BenchMain D) :=
  handleAll (handleOption numbers platform prog) (benchScan posixlyCorrect args).events
    ((benchMainInit numbers platform).act (.benchSrand 1))

theorem benchMain1_eq (opterr posixlyCorrect : Bool) {s : Getopt} {prog : List Char}
    {args : List (List Char)} (hfresh : s.Fresh prog args) :
    benchMain1 numbers platform opterr posixlyCorrect s
      = (benchOptions numbers platform posixlyCorrect prog args).map fun m =>
        (benchScan posixlyCorrect args).operands.foldl (fun m a => m.speed a) m := by
  obtain ⟨t, hcalls, ht⟩ := calls_fresh (benchCall_plain opterr posixlyCorrect) hfresh
    (by change (makeShortOptions longOptions).head? ≠ _; decide)
    (by change (makeShortOptions longOptions).head? ≠ _; decide)
  have hprog : s.progname = prog := by
    rw [Getopt.progname, hfresh.argv]
    rfl
  rw [benchMain1, hprog]
  simp only
  rw [optionLoop_run hcalls]
  change ((benchOptions numbers platform posixlyCorrect prog args).map _).bind _ = _
  cases benchOptions numbers platform posixlyCorrect prog args with
  | none => rfl
  | some m => exact benchRest_eq ht m

/-- The options are handled from left to right, wherever they stand among the operands; then the
speed of each operand is measured, in the order in which they were given, with the settings that
the options have left. -/
theorem benchMain1_run (opterr posixlyCorrect : Bool) (s : Getopt) (prog : List Char)
    (args : List (List Char)) (hfresh : s.Fresh prog args) :
    benchMain1 numbers platform opterr posixlyCorrect s
      = (benchOptions numbers platform posixlyCorrect prog args).map fun m =>
        ⟨m.settings, m.log ++ (benchScan posixlyCorrect args).operands.flatMap fun a =>
          [(.timerInit m.settings.tmin m.settings.repeats, m.settings),
            (.speed a, m.settings)]⟩ := by
  rw [benchMain1_eq numbers platform opterr posixlyCorrect hfresh]
  simp only [foldl_speed]

/-- The number that a string of digits stands for. -/
def decimal (text : List Char) : ℤ := text.foldl (fun n c => 10 * n + (charCode c - charCode '0')) 0

/-- Whole numbers for `double`. -/
def wholeNumbers : Numbers ℤ := ⟨0, 1, 2, decimal, decimal⟩

theorem benchMain1_run_twoOperands :
    benchMain1 wholeNumbers ⟨8, 4, 8, 16⟩ true false
        { argv := ["bench".toList, "8".toList, "-t3".toList, "i4".toList, "--verb".toList] }
      = some
        { settings := ⟨3, 2, 0, 10, 1, .verbose, 1, 0⟩
          log := [(.benchSrand 1, ⟨0, 2, 0, 10, 1, .verbose, 0, 0⟩),
            (.timerInit 3 0, ⟨3, 2, 0, 10, 1, .verbose, 1, 0⟩),
            (.speed ['8'], ⟨3, 2, 0, 10, 1, .verbose, 1, 0⟩),
            (.timerInit 3 0, ⟨3, 2, 0, 10, 1, .verbose, 1, 0⟩),
            (.speed ['i', '4'], ⟨3, 2, 0, 10, 1, .verbose, 1, 0⟩)] } :=
  (benchMain1_run wholeNumbers ⟨8, 4, 8, 16⟩ true false _ "bench".toList
    ["8".toList, "-t3".toList, "i4".toList, "--verb".toList] ⟨rfl, Or.inr ⟨rfl, rfl⟩⟩).trans
    (by decide +kernel)

/-- The benchmark does the same, however the options on its command line are written. -/
theorem benchMain1_sameCommand (opterr posixlyCorrect : Bool) (s s' : Getopt) (prog : List Char)
    (args args' : List (List Char)) (hfresh : s.Fresh prog args) (hfresh' : s'.Fresh prog args')
    (hsame : SameCommand longOptions (benchCall true posixlyCorrect).ordering args args') :
    benchMain1 numbers platform opterr posixlyCorrect s
      = benchMain1 numbers platform opterr posixlyCorrect s' := by
  obtain ⟨hevents, hoperands⟩ := hsame.scan_eq (benchCall_knows true posixlyCorrect)
  rw [benchMain1_eq numbers platform opterr posixlyCorrect hfresh,
    benchMain1_eq numbers platform opterr posixlyCorrect hfresh', benchOptions, benchOptions,
    benchScan, benchScan, hevents, hoperands]

theorem benchMain1_sameCommand_names :
    benchMain1 wholeNumbers ⟨8, 4, 8, 16⟩ true true
        { argv := ["bench".toList, "-pt3".toList, "8".toList] }
      = benchMain1 wholeNumbers ⟨8, 4, 8, 16⟩ true true
        { argv := ["bench".toList, "--para".toList, "--time-min=3".toList, "8".toList] } := by
  refine benchMain1_sameCommand wholeNumbers ⟨8, 4, 8, 16⟩ true true _ _ "bench".toList
    ["-pt3".toList, "8".toList] ["--para".toList, "--time-min=3".toList, "8".toList]
    ⟨rfl, Or.inr ⟨rfl, rfl⟩⟩ ⟨rfl, Or.inr ⟨rfl, rfl⟩⟩ ?_
  have hp : ShortFor longOptions (longEntry "paranoid" .noArgument (charCode 'p')) 'p' :=
    ⟨by decide, by decide⟩
  have ht : ShortFor longOptions (longEntry "time-min" .requiredArgument (charCode 't')) 't' :=
    ⟨by decide, by decide⟩
  refine .trans (.split _ hp rfl (by decide) (by decide)) ?_
  have hname : Spelling longOptions (longEntry "paranoid" .noArgument (charCode 'p')) none
      ["--para".toList] :=
    .name (n := "para".toList) ⟨by decide, by decide, by decide⟩ (by decide)
  exact .option (.char hp (by decide)) hname
    (.option (.charAttached (x := ['3']) ht (by decide) (by decide))
      (.nameAttached (n := "time-min".toList) ['3'] ⟨by decide, by decide, by decide⟩ (by decide))
      (.refl ["8".toList]))

/-- The benchmark does the same with `POSIXLY_CORRECT` on a command line that has been sorted. -/
theorem benchMain1_posix (opterr : Bool) (s s' : Getopt) (prog : List Char)
    (args : List (List Char)) (hfresh : s.Fresh prog args)
    (hfresh' : s'.Fresh prog ((benchScan false args).options ++ (benchScan false args).operands))
    (hargs : (benchCall true false).grammar.Supplied args) :
    benchMain1 numbers platform opterr true s' = benchMain1 numbers platform opterr false s := by
  have hsorted : benchScan true ((benchScan false args).options ++ (benchScan false args).operands)
      = benchScan false args := Grammar.scan_sorted hargs
  rw [benchMain1_eq numbers platform opterr true hfresh',
    benchMain1_eq numbers platform opterr false hfresh, benchOptions, benchOptions, hsorted]

theorem benchMain1_posix_after :
    benchMain1 wholeNumbers ⟨8, 4, 8, 16⟩ true true
        { argv := ["bench".toList, "-t3".toList, "8".toList] }
      = benchMain1 wholeNumbers ⟨8, 4, 8, 16⟩ true false
        { argv := ["bench".toList, "8".toList, "-t3".toList] } := by
  have hsorted : (benchScan false ["8".toList, "-t3".toList]).options
      ++ (benchScan false ["8".toList, "-t3".toList]).operands = ["-t3".toList, "8".toList] := by
    decide +kernel
  refine benchMain1_posix wholeNumbers ⟨8, 4, 8, 16⟩ true _ _ "bench".toList
    ["8".toList, "-t3".toList] ⟨rfl, Or.inr ⟨rfl, rfl⟩⟩ ⟨congrArg _ hsorted.symm, Or.inr ⟨rfl, rfl⟩⟩
    ?_
  rw [Grammar.supplied_nonoption rfl, Grammar.supplied_option (by decide) (by decide)]
  exact ⟨fun _ _ => rfl, by rw [List.drop_nil, Grammar.Supplied]; trivial⟩

/-! ### What cannot happen -/

theorem short_mem (posixlyCorrect : Bool) (c : Char) (k : HasArg)
    (hc : (benchCall true posixlyCorrect).grammar.short c = some k) :
    ∃ p ∈ longOptions, Grammar.longCode p = charCode c ∧ p.hasArg = k := by
  have hknows := benchCall_knows true posixlyCorrect
  change shortKind (makeShortOptions longOptions) c = some k at hc
  rw [shortKind_makeShortOptions _ hknows.colon, Option.map_eq_some_iff] at hc
  obtain ⟨p, hp, hk⟩ := hc
  obtain ⟨hflag, -, hval⟩ : p.IsShort c := by simpa using List.find?_some hp
  exact ⟨p, List.mem_of_find?_eq_some hp, by rw [Grammar.longCode, if_pos hflag, hval], hk⟩

/-- Handling an event of the table fails only where `verbose` or `paranoid` overflows. -/
theorem handleOption_eq_none {g : Grammar} {prog : List Char} {e : Event} {m : BenchMain D}
    (hmissing : g.missing = charCode '?') (he : Grammar.Reportable g longOptions e) :
    handleOption numbers platform prog e.code e.arg m = none ↔
      (e.code = charCode 'v' ∧ e.arg = none ∧ int (m.settings.verbose + 1) = none) ∨
      (e.code = charCode 'p' ∧ int (m.settings.paranoid + 1) = none) := by
  cases he with
  | unknown => simp [handleOption, charCode]
  | missing => simp [handleOption, hmissing, charCode]
  | @option p x hp hno hrequired =>
    simp only [longOptions, List.mem_cons, List.not_mem_nil, or_false] at hp
    rcases hp with rfl | rfl | rfl | rfl | rfl | rfl | rfl | rfl | rfl | rfl | rfl | rfl |
      rfl | rfl | rfl | rfl | rfl | rfl | rfl | rfl | rfl | rfl
    all_goals cases x <;> simp [longEntry] at hno hrequired
    all_goals simp [handleOption, longEntry, Grammar.longCode, charCode]

/-- On no command line is `abort` called or a null `optarg` read, and no scan goes on for ever or
leaves `argv`: a run fails only where one of the counters overflows. -/
theorem benchMain1_fails (opterr posixlyCorrect : Bool) (s : Getopt) (prog : List Char)
    (args : List (List Char)) (hfresh : s.Fresh prog args) :
    benchMain1 numbers platform opterr posixlyCorrect s = none ↔
      ∃ es₁ e es₂ m, (benchScan posixlyCorrect args).events = es₁ ++ e :: es₂ ∧
        handleAll (handleOption numbers platform prog) es₁
          ((benchMainInit numbers platform).act (.benchSrand 1)) = some m ∧
        ((e.code = charCode 'v' ∧ e.arg = none ∧ int (m.settings.verbose + 1) = none) ∨
          (e.code = charCode 'p' ∧ int (m.settings.paranoid + 1) = none)) := by
  have hordering : (benchCall true posixlyCorrect).ordering ≠ .returnInOrder := by
    rw [GetoptCall.ordering]
    split_ifs <;> simp
  have hevents := Grammar.scan_events (short_mem posixlyCorrect) rfl hordering args
  rw [benchMain1_eq numbers platform opterr posixlyCorrect hfresh, Option.map_eq_none_iff,
    benchOptions, handleAll_eq_none]
  constructor
  · rintro ⟨es₁, e, es₂, m, hsplit, hrun, he⟩
    have hmem : e ∈ (benchScan posixlyCorrect args).events := by simp [hsplit]
    exact ⟨es₁, e, es₂, m, hsplit, hrun,
      (handleOption_eq_none numbers platform rfl (hevents e hmem)).mp he⟩
  · rintro ⟨es₁, e, es₂, m, hsplit, hrun, he⟩
    have hmem : e ∈ (benchScan posixlyCorrect args).events := by simp [hsplit]
    exact ⟨es₁, e, es₂, m, hsplit, hrun,
      (handleOption_eq_none numbers platform rfl (hevents e hmem)).mpr he⟩

theorem benchMain1_fails_verbose :
    benchMain1 wholeNumbers ⟨8, 4, 8, 16⟩ true false
      { argv := ["bench".toList, "--verbose=2147483647".toList, "-v".toList] } = none := by
  have hevents : (benchScan false ["--verbose=2147483647".toList, "-v".toList]).events
      = [⟨charCode 'v', some "2147483647".toList⟩, ⟨charCode 'v', none⟩] := by
    decide +kernel
  exact (benchMain1_fails wholeNumbers ⟨8, 4, 8, 16⟩ true false _ "bench".toList
    ["--verbose=2147483647".toList, "-v".toList] ⟨rfl, Or.inr ⟨rfl, rfl⟩⟩).mpr
    ⟨[_], _, [], _, hevents, rfl, Or.inl ⟨rfl, rfl, by decide⟩⟩

end Main

end BenchFFT
