import BenchFFT.Options.Equiv.Decode
import BenchFFT.Options.Equiv.Exchange
import Mathlib.Data.List.TakeWhile

/-!
# Going on to the next element

Between two elements `argv` consists of the options processed so far, the non-options skipped so
far, in the middle of them or after them, and what has not been looked at (`Between`).
-/

namespace BenchFFT

/-- No element is being decoded.  The elements `done` have been processed, `skipped` are non-options
that wait among them, and `rest` is still to be read. -/
structure Between (s : Getopt) (prog : List Char) (done skipped rest : List (List Char)) :
    Prop where
  nextchar : s.nextchar = []
  initialized : s.initialized = true
  exists_split : ∃ d₁ d₂, done = d₁ ++ d₂ ∧ s.argv = prog :: (d₁ ++ skipped ++ d₂ ++ rest) ∧
    s.firstNonopt = 1 + d₁.length ∧ s.lastNonopt = s.firstNonopt + skipped.length ∧
    s.optind = s.lastNonopt + d₂.length
  skipped_eq : s.ordering ≠ .permute → skipped = []

/-- The first element of `rest` is about to be looked at; `skipped` come right before it. -/
structure Ready (s : Getopt) (prog : List Char) (done skipped rest : List (List Char)) : Prop where
  initialized : s.initialized = true
  argv : s.argv = prog :: (done ++ skipped ++ rest)
  optind : s.optind = 1 + done.length + skipped.length
  lastNonopt : s.lastNonopt = s.firstNonopt + skipped.length
  firstNonopt_pos : 1 ≤ s.firstNonopt
  firstNonopt_le : s.firstNonopt ≤ 1 + done.length
  firstNonopt : skipped ≠ [] → s.firstNonopt = 1 + done.length
  skipped_eq : s.ordering ≠ .permute → skipped = []

theorem skipNonoptions_append (p ns rest : List (List Char)) (hns : ∀ a ∈ ns, nonoptionP a)
    (hrest : ∀ a, rest.head? = some a → ¬nonoptionP a) (optind : ℕ) (hp : optind = p.length) :
    skipNonoptions (p ++ ns ++ rest) optind = optind + ns.length := by
  induction ns generalizing p optind with
  | nil =>
    rw [skipNonoptions]
    cases rest with
    | nil => simp [hp]
    | cons a rest =>
      have ha : ¬nonoptionP a := hrest a rfl
      simp [hp, ha]
  | cons a ns ih =>
    have ha : nonoptionP a := hns a (List.mem_cons_self ..)
    have hnext := ih (p ++ [a]) (fun b hb => hns b (List.mem_cons_of_mem a hb))
      (optind + 1) (by simp [hp])
    rw [skipNonoptions, dif_pos (by simp [hp])]
    have hget : (p ++ a :: ns ++ rest).get ⟨optind, by simp [hp]⟩ = a := by simp [hp]
    rw [hget, if_pos ha]
    simpa [Nat.add_assoc, Nat.add_comm 1] using hnext

theorem not_nonoptionP_of_head (rest : List (List Char)) :
    ∀ a, (rest.dropWhile nonoptionP).head? = some a → ¬nonoptionP a := by
  intro a ha
  simpa [ha] using rest.head?_dropWhile_not nonoptionP

namespace Between

variable {s : Getopt} {prog : List Char} {done skipped rest : List (List Char)}

theorem optionsFirst (h : Between s prog done skipped rest) :
    (optionsFirst s).argv = prog :: (done ++ skipped ++ rest) ∧
      (optionsFirst s).optind = 1 + done.length + skipped.length ∧
      (optionsFirst s).firstNonopt = 1 + done.length := by
  obtain ⟨d₁, d₂, rfl, hargv, hfirst, hlast, hoptind⟩ := h.exists_split
  rw [BenchFFT.optionsFirst]
  split_ifs with hboth honly
  · have hloop := exchangeLoop_append (prog :: d₁) skipped d₂ rest s.firstNonopt
      s.lastNonopt s.optind (by simp; omega) (by simp; omega) (by simp; omega)
    refine ⟨?_, ?_, ?_⟩
    · rw [exchange, hargv]
      simpa using hloop
    · simp [exchange]
      omega
    · simp [exchange]
      omega
  · have hskipped : skipped = [] := List.length_eq_zero_iff.mp (by omega)
    subst hskipped
    refine ⟨by simpa using hargv, by simp; omega, by simp at hlast ⊢; omega⟩
  · have hd₂ : d₂ = [] := List.length_eq_zero_iff.mp (by omega)
    subst hd₂
    refine ⟨by simpa using hargv, by simp at hoptind ⊢; omega, by simpa using hfirst⟩

theorem clamp (h : Between s prog done skipped rest) :
    { s with lastNonopt := min s.lastNonopt s.optind, firstNonopt := min s.firstNonopt s.optind }
      = s := by
  obtain ⟨d₁, d₂, -, -, hfirst, hlast, hoptind⟩ := h.exists_split
  rw [Nat.min_eq_left (by omega), Nat.min_eq_left (by omega)]

/-- Permuting skips the non-options that come next. -/
theorem permuteStep (h : Between s prog done skipped rest) (hordering : s.ordering = .permute) :
    Ready (permuteStep s) prog done (skipped ++ rest.takeWhile nonoptionP)
      (rest.dropWhile nonoptionP) := by
  obtain ⟨hargv, hoptind, hfirst⟩ := h.optionsFirst
  have hskip : skipNonoptions (BenchFFT.optionsFirst s).argv (BenchFFT.optionsFirst s).optind
      = 1 + done.length + skipped.length + (rest.takeWhile nonoptionP).length := by
    have hrun := skipNonoptions_append (prog :: (done ++ skipped)) (rest.takeWhile nonoptionP)
      (rest.dropWhile nonoptionP) (fun a ha => List.mem_takeWhile_imp ha)
      (not_nonoptionP_of_head rest)
      (1 + done.length + skipped.length) (by simp; omega)
    rw [hargv, hoptind, ← hrun]
    simp
  have hsame : (BenchFFT.optionsFirst s).initialized = s.initialized ∧
      (BenchFFT.optionsFirst s).ordering = s.ordering := by
    rw [BenchFFT.optionsFirst]
    split_ifs <;> exact ⟨rfl, rfl⟩
  constructor
  · exact hsame.1.trans h.initialized
  · simpa [BenchFFT.permuteStep] using hargv
  · simpa [BenchFFT.permuteStep, Nat.add_assoc] using hskip
  · change skipNonoptions _ _ = (BenchFFT.optionsFirst s).firstNonopt + _
    rw [hskip, hfirst, List.length_append, Nat.add_assoc]
  · change 1 ≤ (BenchFFT.optionsFirst s).firstNonopt
    omega
  · exact Nat.le_of_eq hfirst
  · exact fun _ => hfirst
  · exact fun hne => absurd (hsame.2.trans hordering) hne

/-- Without permuting, nothing is skipped. -/
theorem ready (h : Between s prog done skipped rest) (hordering : s.ordering ≠ .permute) :
    Ready s prog done skipped rest := by
  obtain ⟨d₁, d₂, rfl, hargv, hfirst, hlast, hoptind⟩ := h.exists_split
  obtain rfl := h.skipped_eq hordering
  simp only [List.length_nil] at *
  exact ⟨h.initialized, by simpa using hargv, by simp; omega, by simpa using hlast, by omega,
    by simp; omega, fun hne => absurd rfl hne, fun _ => rfl⟩

end Between

/-! ### The element that comes next -/

namespace Ready

variable {s : Getopt} {prog : List Char} {done skipped rest : List (List Char)}
  (call : GetoptCall)

theorem argc_eq (h : Ready s prog done skipped rest) :
    s.argc = 1 + done.length + skipped.length + rest.length := by
  rw [Getopt.argc, h.argv]
  simp
  omega

theorem argv_get (h : Ready s prog done skipped rest) (i : ℕ) :
    s.argv[s.optind + i]? = rest[i]? := by
  have hlen : s.optind + i = (prog :: (done ++ skipped)).length + i := by
    rw [h.optind]
    simp
    omega
  have hargv : s.argv = (prog :: (done ++ skipped)) ++ rest := by simp [h.argv]
  rw [hargv, hlen, List.getElem?_append_right (Nat.le_add_right _ _), Nat.add_sub_cancel_left]

/-- `--` goes before the non-options that have been skipped. -/
theorem endOfOptions (h : Ready s prog done skipped (['-', '-'] :: rest)) :
    (endOfOptions s).argv = prog :: (done ++ [['-', '-']] ++ (skipped ++ rest)) ∧
      (endOfOptions s).firstNonopt = 2 + done.length := by
  have hlast := h.lastNonopt
  have hoptind := h.optind
  rw [BenchFFT.endOfOptions]
  simp only
  by_cases hskipped : skipped = []
  · subst hskipped
    have heq : s.firstNonopt = s.lastNonopt := hlast.symm
    rw [if_neg fun hne => hne.1 heq, if_pos heq]
    refine ⟨by simpa using h.argv, ?_⟩
    simp only [hoptind, List.length_nil]
    omega
  · have hfirst := h.firstNonopt hskipped
    have hpos := List.length_pos_of_ne_nil hskipped
    rw [if_pos ⟨by omega, by omega⟩]
    have hloop := exchangeLoop_append (prog :: done) skipped [['-', '-']] rest
      s.firstNonopt s.lastNonopt (s.optind + 1)
      (by simp; omega) (by simp; omega) (by simp; omega)
    refine ⟨?_, ?_⟩
    · rw [exchange, h.argv]
      simpa using hloop
    · simp only [exchange]
      omega

end Ready

/-- What a call does at the element at `optind`. -/
def lookAt (call : GetoptCall) (s : Getopt) : Except Abort (ℤ × Getopt) := do
  let (r, t) ← startElement call s
  r.elim (decode call call.optstring (call.opterr && call.optstring.head? != some ':') t)
    fun r => pure (r, t)

/-- A call after the first one. -/
theorem getoptInternal_of_initialized (call : GetoptCall) {s : Getopt}
    (hinit : s.initialized = true) (hoptind : s.optind ≠ 0) (hargc : 1 ≤ s.argc) :
    getoptInternal call s =
      if s.nextchar = [] then (do
        let (r, t) ← advance call { s with optarg := none }
        r.elim (decode call call.optstring
          (call.opterr && call.optstring.head? != some ':') t) fun r => pure (r, t))
      else decode call call.optstring (call.opterr && call.optstring.head? != some ':')
        { s with optarg := none } := by
  have hfirst : ¬(s.optind = 0 ∨ ¬s.initialized = true) := by simp [hinit, hoptind]
  rw [getoptInternal, if_neg (Nat.not_lt.mpr hargc)]
  simp only
  rw [if_neg hfirst, if_neg hfirst]

/-- Between two elements, a call skips non-options if it permutes, and looks at the next element. -/
theorem Between.getoptInternal_eq {s : Getopt} {prog : List Char}
    {done skipped rest : List (List Char)} (call : GetoptCall)
    (h : Between s prog done skipped rest) :
    ∃ t ns rest', getoptInternal call s = lookAt call t ∧
      Ready t prog done (skipped ++ ns) rest' ∧ rest = ns ++ rest' ∧ (∀ a ∈ ns, nonoptionP a) ∧
      (s.ordering ≠ .permute → ns = []) ∧
      (s.ordering = .permute → ∀ a, rest'.head? = some a → ¬nonoptionP a) ∧
      t.ordering = s.ordering ∧ t.optarg = none ∧ t.nextchar = [] := by
  have hclear : Between { s with optarg := none } prog done skipped rest := ⟨h.1, h.2, h.3, h.4⟩
  have hcall : getoptInternal call s = lookAt call
      (if s.ordering = .permute then BenchFFT.permuteStep { s with optarg := none }
        else { s with optarg := none }) := by
    obtain ⟨d₁, d₂, -, hargv, hfirst, hlast, hoptind⟩ := h.exists_split
    rw [getoptInternal_of_initialized call h.initialized (by omega) (by simp [Getopt.argc, hargv]),
      if_pos h.nextchar, advance, hclear.clamp, lookAt]
  by_cases hordering : s.ordering = .permute
  · refine ⟨_, rest.takeWhile nonoptionP, rest.dropWhile nonoptionP, hcall, ?_,
      List.takeWhile_append_dropWhile.symm, fun a ha => List.mem_takeWhile_imp ha,
      fun hne => absurd hordering hne, fun _ => not_nonoptionP_of_head rest, ?_, ?_, ?_⟩
    all_goals rw [if_pos hordering]
    · exact hclear.permuteStep hordering
    all_goals
      rw [BenchFFT.permuteStep, BenchFFT.optionsFirst]
      simp only
      split_ifs
      all_goals first | rfl | exact h.nextchar
  · refine ⟨_, [], rest, hcall, ?_, rfl, by simp, fun _ => rfl, fun hp => absurd hp hordering,
      ?_, ?_, ?_⟩
    all_goals rw [if_neg hordering]
    · simpa using hclear.ready hordering
    · exact h.nextchar

/-! ### What the next element is -/

/-- At the end, `optind` goes back to the first of the non-options. -/
theorem atElement_end (call : GetoptCall) {s : Getopt} (hend : s.optind = s.argc) :
    ∃ t, atElement call s = .ok (some (-1), t) ∧ t.argv = s.argv ∧
      t.optind = if s.firstNonopt ≠ s.lastNonopt then s.firstNonopt else s.argc := by
  refine ⟨if s.firstNonopt ≠ s.lastNonopt then { s with optind := s.firstNonopt } else s, ?_, ?_,
    ?_⟩
  · rw [atElement, if_pos hend]
    rfl
  · split_ifs <;> rfl
  · split_ifs
    · rfl
    · exact hend

/-- What `getopt` leaves to its caller. -/
structure Sorted (t : Getopt) (prog : List Char) (options operands : List (List Char)) : Prop where
  argv : t.argv = prog :: (options ++ operands)
  optind : t.optind = 1 + options.length

namespace Ready

variable {s : Getopt} {prog : List Char} {done skipped rest : List (List Char)}
  (call : GetoptCall)

/-- All of the elements have been processed. -/
theorem lookAt_nil (h : Ready s prog done skipped []) :
    ∃ t, lookAt call s = .ok (-1, t) ∧ Sorted t prog done skipped := by
  have hargc := h.argc_eq
  have hlast := h.lastNonopt
  have hend : s.optind = s.argc := by
    rw [hargc, h.optind]
    rfl
  obtain ⟨t, hrun, hargv, hoptind⟩ := atElement_end call hend
  refine ⟨t, ?_, ?_, ?_⟩
  · rw [lookAt, startElement, if_neg (not_not.mpr hend)]
    change (atElement call s >>= _) = _
    rw [hrun]
    rfl
  · rw [hargv, h.argv, List.append_nil]
  · rw [hoptind]
    split_ifs with hskipped
    · exact h.firstNonopt fun hnil => hskipped (by rw [hlast, hnil]; rfl)
    · have hnil : skipped.length = 0 := by omega
      rw [hargc, hnil]
      rfl

theorem optind_ne {a : List Char} (h : Ready s prog done skipped (a :: rest)) :
    s.optind ≠ s.argc := by
  rw [h.argc_eq, h.optind, List.length_cons]
  omega

theorem arg_eq {a : List Char} (h : Ready s prog done skipped (a :: rest)) :
    s.arg s.optind = .ok a := BenchFFT.arg_eq (h.argv_get 0)

/-- `--` is an option, and everything after it is an operand. -/
theorem lookAt_dashes (h : Ready s prog done skipped (['-', '-'] :: rest)) :
    ∃ t, lookAt call s = .ok (-1, t) ∧
      Sorted t prog (done ++ [['-', '-']]) (skipped ++ rest) := by
  obtain ⟨hargv, hfirst⟩ := h.endOfOptions
  obtain ⟨t, hrun, htargv, htoptind⟩ := atElement_end call (s := BenchFFT.endOfOptions s) rfl
  refine ⟨t, ?_, htargv.trans hargv, ?_⟩
  · rw [lookAt, startElement, if_pos h.optind_ne, h.arg_eq]
    change (atElement call (BenchFFT.endOfOptions s) >>= _) = _
    rw [hrun]
    rfl
  · have hargc : (BenchFFT.endOfOptions s).argc = (BenchFFT.endOfOptions s).lastNonopt := rfl
    rw [htoptind, List.length_append, List.length_singleton, hargc]
    split_ifs with hoperands
    · rw [hfirst]
      omega
    · rw [← not_not.mp hoperands, hfirst]
      omega

section Arg

variable {a : List Char} (hdashes : a ≠ ['-', '-'])
include hdashes

theorem lookAt_cons (h : Ready s prog done skipped (a :: rest)) :
    lookAt call s = (do
      let (r, t) ← atElement call s
      r.elim (decode call call.optstring (call.opterr && call.optstring.head? != some ':') t)
        fun r => pure (r, t)) := by
  have hfalse : (a == ['-', '-']) = false := by simpa using hdashes
  rw [lookAt, startElement, if_pos h.optind_ne, h.arg_eq]
  change (atElement call (if (a == ['-', '-']) = true then _ else _) >>= _) = _
  rw [hfalse]
  rfl

/-- A non-option is returned, or ends the scan. -/
theorem lookAt_nonoption (h : Ready s prog done skipped (a :: rest)) (ha : nonoptionP a) :
    lookAt call s = if s.ordering = .requireOrder then .ok (-1, s)
      else .ok (1, { s with optarg := some a, optind := s.optind + 1 }) := by
  rw [h.lookAt_cons call hdashes, atElement, if_neg h.optind_ne, h.arg_eq]
  change ((if nonoptionP a = true then _ else _) >>= _) = _
  rw [if_pos ha]
  split_ifs <;> rfl

/-- An option is decoded from after its dashes. -/
theorem lookAt_option (h : Ready s prog done skipped (a :: rest)) (ha : ¬nonoptionP a) :
    lookAt call s = decode call call.optstring (call.opterr && call.optstring.head? != some ':')
      { s with nextchar := a.drop (1 + if call.longopts.isSome ∧ a[1]? = some '-' then 1 else 0) }
    := by
  rw [h.lookAt_cons call hdashes, atElement, if_neg h.optind_ne, h.arg_eq]
  change ((if nonoptionP a = true then _ else _) >>= _) = _
  rw [if_neg ha]
  rfl

end Arg

end Ready

end BenchFFT
