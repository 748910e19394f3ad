import BenchFFT.Options.Equiv.LongOptions

/-!
# Decoding one option

Each call that is at an option reports what the grammar says of it: `decode_long` for an element
that starts with `--`, and the lemmas `short_*` for the next character of a cluster of short
options, one for each kind.
-/

namespace BenchFFT

/-- `t` has `n` more elements of `argv` behind it than `s`; the elements have not moved. -/
structure Took (n : ℕ) (s t : Getopt) : Prop where
  argv : t.argv = s.argv
  optind : t.optind = s.optind + n
  firstNonopt : t.firstNonopt = s.firstNonopt
  lastNonopt : t.lastNonopt = s.lastNonopt
  ordering : t.ordering = s.ordering
  initialized : t.initialized = s.initialized

namespace Took

variable {n : ℕ} {s t : Getopt}

theorem refl (s : Getopt) : Took 0 s s := ⟨rfl, rfl, rfl, rfl, rfl, rfl⟩

theorem complain (ht : Took n s t) (b : Bool) (m : List Char) : Took n s (t.complain b m) := by
  cases b
  · exact ht
  · exact ⟨ht.1, ht.2, ht.3, ht.4, ht.5, ht.6⟩

theorem pass (ht : Took n s t) : Took (n + 1) s { t with optind := t.optind + 1 } :=
  ⟨ht.1, congrArg (· + 1) ht.2, ht.3, ht.4, ht.5, ht.6⟩

theorem of_eq {u : Getopt} (ht : Took n s t) (hargv : u.argv = t.argv)
    (hoptind : u.optind = t.optind) (hfirst : u.firstNonopt = t.firstNonopt)
    (hlast : u.lastNonopt = t.lastNonopt) (hordering : u.ordering = t.ordering)
    (hinit : u.initialized = t.initialized) : Took n s u :=
  ⟨hargv.trans ht.1, hoptind.trans ht.2, hfirst.trans ht.3, hlast.trans ht.4, hordering.trans ht.5,
    hinit.trans ht.6⟩

end Took

theorem complain_optarg (b : Bool) (m : List Char) (s : Getopt) :
    (s.complain b m).optarg = s.optarg := by
  cases b <;> rfl

/-- A call that reports `e` and leaves `text` in `nextchar`, having passed `n` elements. -/
def Reports (r : Except Abort (ℤ × Getopt)) (s : Getopt) (e : Event) (text : List Char) (n : ℕ) :
    Prop :=
  ∃ t, r = .ok (e.code, t) ∧ t.optarg = e.arg ∧ t.nextchar = text ∧ Took n s t

theorem arg_eq {s : Getopt} {i : ℕ} {a : List Char} (h : s.argv[i]? = some a) :
    s.arg i = .ok a := by
  rw [Getopt.arg, h]
  rfl

/-! ### Long options -/

section Long

variable {s t : Getopt} {element : List Char} (optstring : List Char) (printErrors : Bool)

theorem takeLong_reports (p : LongOption) (i n : ℕ) (ht : Took n s t) :
    Reports (.ok (t.takeLong p i)) s ⟨Grammar.longCode p, t.optarg⟩ [] n := by
  refine ⟨(t.takeLong p i).2, ?_, ?_, ?_, ?_⟩
  · cases hflag : p.flag <;> simp [Getopt.takeLong, Grammar.longCode, hflag]
  all_goals cases hflag : p.flag <;> simp [Getopt.takeLong, hflag]
  all_goals exact ht.of_eq rfl rfl rfl rfl rfl rfl

/-- A call that fails, with `nextchar` at the end of the element. -/
theorem fail_reports {code : ℤ} {n : ℕ} (optopt : ℤ) (ht : Took n s t)
    (hoptarg : t.optarg = none) :
    Reports (.ok (code, { t with nextchar := [], optopt })) s ⟨code, none⟩ [] n :=
  ⟨_, rfl, hoptarg, rfl, ht.of_eq rfl rfl rfl rfl rfl rfl⟩

/-- What is reported of an option that the table has; `t` is past its element. -/
theorem useLong_reports (find : List Char → LongMatch) {g : Grammar} {p : LongOption} (i : ℕ)
    (hg : g.missing = missingCode optstring) (hp : find (longName t.nextchar) = .unique p)
    (ht : Took 1 s t) (helement : t.argv[t.optind - 1]? = some element)
    (hoptarg : t.optarg = none) :
    Reports (useLong optstring printErrors false p i t) s
      (g.longEvent find t.nextchar t.argv[t.optind]?).1 []
      (1 + (g.longEvent find t.nextchar t.argv[t.optind]?).2.toNat) := by
  have harg : t.arg (t.optind - 1) = .ok element := arg_eq helement
  rw [useLong, Grammar.longEvent, hp]
  simp only
  by_cases hvalue : nameend t.nextchar = []
  · rw [if_neg (not_not.mpr hvalue), if_neg (not_not.mpr hvalue)]
    by_cases hrequired : p.hasArg = .requiredArgument
    · rw [if_pos hrequired, if_pos hrequired]
      by_cases hnext : t.optind < t.argc
      · have hget : t.argv[t.optind]? = some t.argv[t.optind] := List.getElem?_eq_getElem hnext
        rw [if_pos hnext, arg_eq hget, hget]
        exact takeLong_reports (t := { t with optarg := _, optind := _ }) p i 2
          (ht.pass.of_eq rfl rfl rfl rfl rfl rfl)
      · have hget : t.argv[t.optind]? = none := List.getElem?_eq_none (Nat.le_of_not_lt hnext)
        rw [if_neg hnext, harg, hget, hg]
        exact fail_reports _ (ht.complain _ _) ((complain_optarg _ _ _).trans hoptarg)
    · rw [if_neg hrequired, if_neg hrequired, ← hoptarg]
      exact takeLong_reports p i 1 ht
  · rw [if_pos hvalue, if_pos hvalue]
    by_cases hno : p.hasArg = .noArgument
    · rw [if_neg (not_not.mpr hno), if_pos hno, harg]
      exact fail_reports _ (ht.complain _ _) ((complain_optarg _ _ _).trans hoptarg)
    · rw [if_pos hno, if_neg hno]
      exact takeLong_reports (t := { t with optarg := _ }) p i 1
        (ht.of_eq rfl rfl rfl rfl rfl rfl)

/-- What is reported of an element that starts with `--`. -/
theorem decode_long {call : GetoptCall} {g : Grammar} {longopts : List LongOption}
    (hg : g.missing = missingCode optstring) (hlong : call.longopts = some longopts)
    (honly : call.longOnly = false) (helement : s.argv[s.optind]? = some element)
    (hdash : element[1]? = some '-') (hoptarg : s.optarg = none) :
    Reports (decode call optstring printErrors s) s
      (g.longEvent (matchLong · longopts) s.nextchar s.argv[s.optind + 1]?).1 []
      (1 + (g.longEvent (matchLong · longopts) s.nextchar s.argv[s.optind + 1]?).2.toNat) := by
  have hpast : Took 1 s { s with optind := s.optind + 1 } := (Took.refl s).pass
  have hfound := findLong_none (longName s.nextchar) longopts 0
  rw [decode, hlong, Option.elim_some, arg_eq helement]
  change Reports ((if _ then _ else _) >>= _) _ _ _ _
  rw [if_pos (Or.inl hdash), longOption, honly]
  set found := findLong false (longName s.nextchar) longopts 0 {}
  by_cases hambig : found.ambig ∧ ¬found.exact
  · rw [LongSearch.result, if_pos hambig] at hfound
    rw [if_pos hambig, Grammar.longEvent, ← hfound]
    exact fail_reports (t := { s.complain printErrors _ with optind := _ }) _
      ((Took.refl s).complain _ _).pass ((complain_optarg _ _ _).trans hoptarg)
  · rw [LongSearch.result, if_neg hambig] at hfound
    rw [if_neg hambig]
    cases hp : found.pfound with
    | none =>
      rw [hp] at hfound
      change Reports ((if _ then _ else _) >>= _) _ _ _ _
      rw [if_pos (Or.inl Bool.false_ne_true), Grammar.longEvent, ← hfound]
      exact fail_reports (t := { s.complain printErrors _ with optind := _ }) _
        ((Took.refl s).complain _ _).pass ((complain_optarg _ _ _).trans hoptarg)
    | some p =>
      rw [hp] at hfound
      obtain ⟨u, hrun, hu⟩ := useLong_reports optstring printErrors (matchLong · longopts)
        (t := { s with optind := s.optind + 1 }) found.indfound hg hfound.symm hpast helement
        hoptarg
      refine ⟨u, ?_, hu⟩
      change ((some <$> useLong _ _ _ _ _ _) >>= _) = _
      rw [hrun]
      rfl

end Long

/-! ### Short options -/

section Short

variable {s : Getopt} {c : Char} {rest : List Char} (call : GetoptCall)
  (optstring : List Char) (printErrors : Bool)

/-- An element that is no long option is read as short ones. -/
theorem decode_short {element : List Char} (honly : call.longOnly = false)
    (helement : s.argv[s.optind]? = some element)
    (hlong : call.longopts = none ∨ element[1]? ≠ some '-') :
    decode call optstring printErrors s = shortOption call optstring printErrors s := by
  rw [decode]
  cases hopts : call.longopts with
  | none => rfl
  | some longopts =>
    have hdash : element[1]? ≠ some '-' := hlong.resolve_left (by simp [hopts])
    rw [Option.elim_some, arg_eq helement, honly]
    change ((if _ then _ else _) >>= _) = _
    rw [if_neg (by simpa using hdash)]
    rfl

/-- How many elements are passed with the character before `rest`. -/
def passed (rest : List Char) : ℕ := if rest = [] then 1 else 0

theorem took_readChar (rest : List Char) (s : Getopt) : Took (passed rest) s (s.readChar rest) := by
  by_cases hrest : rest = []
  · rw [passed, if_pos hrest]
    exact (Took.refl s).pass.of_eq rfl (if_pos hrest) rfl rfl rfl rfl
  · rw [passed, if_neg hrest]
    exact (Took.refl s).of_eq rfl (if_neg hrest) rfl rfl rfl rfl

/-- A character that is no option is reported as `?`. -/
theorem short_unknown (hnext : s.nextchar = c :: rest) (hoptarg : s.optarg = none)
    (hc : shortKind optstring c = none) :
    Reports (shortOption call optstring printErrors s) s ⟨charCode '?', none⟩ rest
      (passed rest) := by
  have hbad : myIndex optstring c = none ∨ c = ':' := by
    by_contra hgood
    rw [not_or] at hgood
    rw [shortKind, if_neg hgood.2, Option.map_eq_none_iff] at hc
    exact hgood.1 hc
  rw [shortOption, hnext]
  simp only
  rw [if_pos hbad]
  refine ⟨_, rfl, (complain_optarg _ _ _).trans hoptarg, ?_,
    ((took_readChar rest s).complain _ _).of_eq rfl rfl rfl rfl rfl rfl⟩
  cases printErrors <;> rfl

theorem myIndex_head {str temp : List Char} (h : myIndex str c = some temp) :
    temp[0]? = some c := by
  induction str with
  | nil => simp [myIndex] at h
  | cons d str ih =>
    rw [myIndex] at h
    split at h
    · obtain rfl := Option.some.inj h
      simpa
    · exact ih h

theorem mem_of_myIndex {str temp : List Char} (h : myIndex str c = some temp) : c ∈ str := by
  induction str with
  | nil => simp [myIndex] at h
  | cons d str ih =>
    rw [myIndex] at h
    split at h
    · next hd => exact List.mem_cons.mpr (Or.inl hd.symm)
    · exact List.mem_cons_of_mem d (ih h)

/-- The place of an option in `optstring`. -/
theorem shortKind_some {k : HasArg} (hc : shortKind optstring c = some k) :
    c ≠ ':' ∧ ∃ temp, myIndex optstring c = some temp ∧ temp[0]? = some c ∧
      (if temp[1]? ≠ some ':' then .noArgument
        else if temp[2]? ≠ some ':' then .requiredArgument
        else .optionalArgument) = k := by
  have hcolon : c ≠ ':' := by
    rintro rfl
    simp [shortKind] at hc
  rw [shortKind, if_neg hcolon, Option.map_eq_some_iff] at hc
  obtain ⟨temp, hfound, hk⟩ := hc
  exact ⟨hcolon, temp, hfound, myIndex_head hfound, hk⟩

/-- The option `W` is not followed by a semicolon. -/
def NoPosixW (optstring : List Char) : Prop :=
  ∀ temp, myIndex optstring 'W' = some temp → temp[1]? ≠ some ';'

theorem shortOption_known {temp : List Char} (hnext : s.nextchar = c :: rest)
    (hW : NoPosixW optstring) (hcolon : c ≠ ':') (hfound : myIndex optstring c = some temp)
    (hhead : temp[0]? = some c) :
    shortOption call optstring printErrors s
      = takeShort optstring printErrors c rest temp (s.readChar rest) := by
  have hnotW : ¬(temp[0]? = some 'W' ∧ temp[1]? = some ';') := by
    rintro ⟨h0, h1⟩
    obtain rfl : c = 'W' := Option.some.inj (hhead.symm.trans h0)
    exact hW temp hfound h1
  rw [shortOption, hnext]
  simp only
  rw [if_neg (by simp [hfound, hcolon]), hfound, Option.getD_some, if_neg hnotW]

/-- An argument in the same element ends the element. -/
theorem take_rest (hrest : rest ≠ []) : Took 1 s
    { s.readChar rest with
      optarg := some rest, optind := (s.readChar rest).optind + 1, nextchar := [] } := by
  have htook := took_readChar rest s
  rw [passed, if_neg hrest] at htook
  exact htook.pass.of_eq rfl rfl rfl rfl rfl rfl

section Known

variable (hnext : s.nextchar = c :: rest) (hW : NoPosixW optstring)
include hnext hW

theorem short_noArgument (hoptarg : s.optarg = none)
    (hc : shortKind optstring c = some .noArgument) :
    Reports (shortOption call optstring printErrors s) s ⟨charCode c, none⟩ rest (passed rest) := by
  obtain ⟨hcolon, temp, hfound, hhead, hk⟩ := shortKind_some optstring hc
  rw [shortOption_known call optstring printErrors hnext hW hcolon hfound hhead, takeShort]
  split_ifs at hk with h1
  rw [if_neg h1]
  exact ⟨_, rfl, hoptarg, rfl, took_readChar rest s⟩

theorem short_optionalArgument (hc : shortKind optstring c = some .optionalArgument) :
    Reports (shortOption call optstring printErrors s) s
      ⟨charCode c, if rest ≠ [] then some rest else none⟩ [] 1 := by
  obtain ⟨hcolon, temp, hfound, hhead, hk⟩ := shortKind_some optstring hc
  rw [shortOption_known call optstring printErrors hnext hW hcolon hfound hhead, takeShort]
  split_ifs at hk with h1 h2
  rw [if_pos (not_not.mp h1), if_pos (not_not.mp h2)]
  by_cases hrest : rest = []
  · have htook := took_readChar rest s
    rw [passed, if_pos hrest] at htook
    rw [if_neg (not_not.mpr hrest), if_neg (not_not.mpr hrest)]
    exact ⟨_, rfl, rfl, rfl, htook.of_eq rfl rfl rfl rfl rfl rfl⟩
  · rw [if_pos hrest, if_pos hrest]
    exact ⟨_, rfl, rfl, rfl, take_rest hrest⟩

theorem short_requiredArgument (hoptarg : s.optarg = none) (hargc : s.optind < s.argc)
    (hc : shortKind optstring c = some .requiredArgument) :
    if rest ≠ [] then
      Reports (shortOption call optstring printErrors s) s ⟨charCode c, some rest⟩ [] 1
    else if s.argv[s.optind + 1]?.isSome then
      Reports (shortOption call optstring printErrors s) s
        ⟨charCode c, s.argv[s.optind + 1]?⟩ [] 2
    else
      Reports (shortOption call optstring printErrors s) s ⟨missingCode optstring, none⟩ [] 1 := by
  obtain ⟨hcolon, temp, hfound, hhead, hk⟩ := shortKind_some optstring hc
  rw [shortOption_known call optstring printErrors hnext hW hcolon hfound hhead, takeShort]
  split_ifs at hk with h1 h2
  rw [if_pos (not_not.mp h1), if_neg h2]
  by_cases hrest : rest = []
  · have htook := took_readChar rest s
    rw [passed, if_pos hrest] at htook
    rw [if_neg (not_not.mpr hrest), if_neg (not_not.mpr hrest)]
    by_cases hend : s.optind + 1 < s.argc
    · have hget : s.argv[s.optind + 1]? = some s.argv[s.optind + 1] := List.getElem?_eq_getElem hend
      have harg : (s.readChar rest).arg (s.readChar rest).optind = .ok s.argv[s.optind + 1] :=
        arg_eq (by rw [htook.argv, htook.optind, hget])
      have hnotend : (s.readChar rest).optind ≠ (s.readChar rest).argc := by
        rw [htook.optind]
        exact Nat.ne_of_lt hend
      rw [if_neg hnotend, harg, hget, if_pos Option.isSome_some]
      exact ⟨_, rfl, rfl, rfl, htook.pass.of_eq rfl rfl rfl rfl rfl rfl⟩
    · have hget : s.argv[s.optind + 1]? = none := List.getElem?_eq_none (Nat.le_of_not_lt hend)
      have hisend : (s.readChar rest).optind = (s.readChar rest).argc := by
        rw [htook.optind]
        exact Nat.le_antisymm hargc (Nat.le_of_not_lt hend)
      rw [if_pos hisend, hget, if_neg (by simp)]
      exact fail_reports (t := Getopt.complain _ _ _) _ (htook.complain _ _)
        ((complain_optarg _ _ _).trans hoptarg)
  · rw [if_pos hrest, if_pos hrest]
    exact ⟨_, rfl, rfl, rfl, take_rest hrest⟩

/-- The event of the option `c`, which takes the argument `kind` or is none at all, where `next` is
the element after its own; what is left of the element; and how many elements are passed. -/
def shortEvent (missing : ℤ) (c : Char) (rest : List Char) (next : Option (List Char)) :
    Option HasArg → Event × List Char × ℕ
  | none => (⟨charCode '?', none⟩, rest, passed rest)
  | some .noArgument => (⟨charCode c, none⟩, rest, passed rest)
  | some .requiredArgument =>
    if rest ≠ [] then (⟨charCode c, some rest⟩, [], 1)
    else if next.isSome then (⟨charCode c, next⟩, [], 2)
    else (⟨missing, none⟩, [], 1)
  | some .optionalArgument => (⟨charCode c, if rest ≠ [] then some rest else none⟩, [], 1)

theorem short_reports (hoptarg : s.optarg = none) (hargc : s.optind < s.argc) {e : Event}
    {text : List Char} {n : ℕ} (he : shortEvent (missingCode optstring) c rest
      s.argv[s.optind + 1]? (shortKind optstring c) = (e, text, n)) :
    Reports (shortOption call optstring printErrors s) s e text n := by
  cases hkind : shortKind optstring c with
  | none =>
    rw [hkind] at he
    cases he
    exact short_unknown call optstring printErrors hnext hoptarg hkind
  | some kind =>
    rw [hkind] at he
    cases kind with
    | noArgument =>
      cases he
      exact short_noArgument call optstring printErrors hnext hW hoptarg hkind
    | requiredArgument =>
      have hreports :=
        short_requiredArgument call optstring printErrors hnext hW hoptarg hargc hkind
      rw [shortEvent] at he
      split_ifs at he hreports
      all_goals
        cases he
        exact hreports
    | optionalArgument =>
      cases he
      exact short_optionalArgument call optstring printErrors hnext hW hkind

end Known

end Short

end BenchFFT
