import BenchFFT.Options.BenchMain
import BenchFFT.Options.Equiv.Decode

/-!
# The short options that belong to a table of long ones

The string that `make_short_options` builds fits the memory it asks for, and lets `getopt` find for
each character the argument that the table has for it (`shortKind_makeShortOptions`).  An option can
therefore be given by its character or by its name, with its argument in the same element or in the
next one, and options without an argument can share an element: the spelling makes no difference to
what is read (`SameCommand.scan_eq`).
-/

namespace BenchFFT

/-- `p` can be given as the short option `c`. -/
def LongOption.IsShort (p : LongOption) (c : Char) : Prop :=
  p.flag = none ∧ isprint p.val ∧ p.val = charCode c

instance (p : LongOption) (c : Char) : Decidable (p.IsShort c) :=
  inferInstanceAs (Decidable (_ ∧ _ ∧ _))

theorem length_shortOptionText (p : LongOption) : (shortOptionText p).length ≤ 3 := by
  rw [shortOptionText]
  split_ifs
  · cases p.hasArg <;> simp
  · simp

/-- The string and its NUL fit the memory that is allocated for them. -/
theorem makeShortOptions_size (opt : List LongOption) :
    (makeShortOptions opt).length + 1 ≤ shortOptionsSize opt := by
  rw [shortOptionsSize, Nat.add_le_add_iff_right, makeShortOptions]
  induction opt with
  | nil => simp
  | cons p opt ih =>
    have hp := length_shortOptionText p
    rw [List.flatMap_cons, List.length_append, List.length_cons]
    omega

/-! ### Looking a character up -/

theorem myIndex_append {text : List Char} {c : Char} (rest : List Char) (h : ∀ d ∈ text, d ≠ c) :
    myIndex (text ++ rest) c = myIndex rest c := by
  induction text with
  | nil => rfl
  | cons d text ih =>
    rw [List.cons_append, myIndex, if_neg (h d (List.mem_cons_self ..)),
      ih fun e he => h e (List.mem_cons_of_mem d he)]

/-- The first character of the string is no colon. -/
theorem head_makeShortOptions {opt : List LongOption} (hcolon : ∀ p ∈ opt, p.val ≠ charCode ':') :
    (makeShortOptions opt)[0]? ≠ some ':' := by
  induction opt with
  | nil => simp [makeShortOptions]
  | cons p opt ih =>
    rw [makeShortOptions, List.flatMap_cons, shortOptionText]
    split_ifs with hp
    · intro hhead
      have hchar : Char.ofNat p.val.toNat = ':' := by simpa using hhead
      have hval := charCode_ofNat hp.2
      rw [hchar] at hval
      exact hcolon p (List.mem_cons_self ..) hval.symm
    · exact ih fun q hq => hcolon q (List.mem_cons_of_mem p hq)

/-- No other character than its own, and the colon, stands for an option. -/
theorem ne_of_mem_shortOptionText {p : LongOption} {c : Char} (hcolon : c ≠ ':')
    (hp : ¬p.IsShort c) : ∀ d ∈ shortOptionText p, d ≠ c := by
  intro d hd
  rw [shortOptionText] at hd
  split_ifs at hd with hprint
  · rcases List.mem_cons.mp hd with rfl | hd
    · rintro rfl
      exact hp ⟨hprint.1, hprint.2, (charCode_ofNat hprint.2).symm⟩
    · have hd : d = ':' := by cases hkind : p.hasArg <;> simp_all
      rw [hd]
      exact hcolon.symm
  · simp at hd

theorem shortKind_makeShortOptions (opt : List LongOption)
    (hcolon : ∀ p ∈ opt, p.val ≠ charCode ':') (c : Char) :
    shortKind (makeShortOptions opt) c
      = (opt.find? (fun p => p.IsShort c)).map LongOption.hasArg := by
  by_cases hc : c = ':'
  · subst hc
    have hnone : opt.find? (fun p => p.IsShort ':') = none :=
      List.find?_eq_none.mpr fun p hp h => hcolon p hp (of_decide_eq_true h).2.2
    rw [shortKind, if_pos rfl, hnone]
    rfl
  rw [shortKind, if_neg hc]
  induction opt with
  | nil => rfl
  | cons p opt ih =>
    have hrest := fun q hq => hcolon q (List.mem_cons_of_mem p hq)
    have hhead := head_makeShortOptions hrest
    rw [makeShortOptions, List.flatMap_cons, ← makeShortOptions]
    by_cases hp : p.IsShort c
    · have hchar : Char.ofNat p.val.toNat = c := by
        apply charCode_injective
        rw [charCode_ofNat hp.2.1, hp.2.2]
      rw [List.find?_cons_of_pos (by simpa using hp), shortOptionText, if_pos ⟨hp.1, hp.2.1⟩, hchar,
        List.cons_append, myIndex, if_pos rfl]
      cases hkind : p.hasArg <;> simp [hkind, hhead]
    · rw [List.find?_cons_of_neg (by simpa using hp), ← ih hrest,
        myIndex_append _ (ne_of_mem_shortOptionText hc hp)]

theorem missingCode_makeShortOptions {opt : List LongOption}
    (hcolon : ∀ p ∈ opt, p.val ≠ charCode ':') :
    missingCode (makeShortOptions opt) = charCode '?' := by
  rw [missingCode, List.head?_eq_getElem?, if_neg (head_makeShortOptions hcolon)]

/-- For every table, the string keeps within its memory, and where it has no `W;`, `getopt` takes
each character of an element for the option that the first entry with this character describes. -/
theorem makeShortOptions_spec (opt : List LongOption) (hcolon : ∀ p ∈ opt, p.val ≠ charCode ':') :
    (makeShortOptions opt).length + 1 ≤ shortOptionsSize opt ∧
      (NoPosixW (makeShortOptions opt) → ∀ (call : GetoptCall) (printErrors : Bool) (s : Getopt)
        (c : Char) (rest : List Char), s.nextchar = c :: rest → s.optarg = none →
        s.optind < s.argc → ∀ (e : Event) (text : List Char) (n : ℕ),
        shortEvent (charCode '?') c rest s.argv[s.optind + 1]?
          ((opt.find? (fun p => p.IsShort c)).map LongOption.hasArg) = (e, text, n) →
        Reports (shortOption call (makeShortOptions opt) printErrors s) s e text n) := by
  refine ⟨makeShortOptions_size opt, ?_⟩
  intro hW call printErrors s c rest hnext hoptarg hargc e text n he
  rw [← missingCode_makeShortOptions hcolon, ← shortKind_makeShortOptions opt hcolon] at he
  exact short_reports call _ printErrors hnext hW hoptarg hargc he

/-- The options `-t 3` and `-v`. -/
theorem makeShortOptions_spec_two :
    let opt : List LongOption :=
      [⟨"time-min".toList, .requiredArgument, none, 116⟩,
        ⟨"verbose".toList, .optionalArgument, none, 118⟩]
    let s : Getopt := { argv := ["bench".toList, "-t".toList, "3".toList], nextchar := ['t'] }
    (makeShortOptions opt).length + 1 ≤ shortOptionsSize opt ∧
      Reports (shortOption ⟨makeShortOptions opt, some opt, false, true, false⟩
        (makeShortOptions opt) true s) s ⟨116, some ['3']⟩ [] 2 := by
  intro opt s
  obtain ⟨hsize, hreports⟩ := makeShortOptions_spec opt (by decide)
  have hnone : myIndex (makeShortOptions opt) 'W' = none := by decide
  refine ⟨hsize, hreports (fun temp h => ?_) _ true s 't' [] rfl rfl (by decide) _ _ _ (by decide)⟩
  exact absurd (hnone.symm.trans h) (by simp)

/-! ### Ways to write a command line -/

/-- `c` is the character of the option `p`. -/
def ShortFor (opt : List LongOption) (p : LongOption) (c : Char) : Prop :=
  c ≠ '-' ∧ opt.find? (fun q => q.IsShort c) = some p

/-- `name` is the name of the option `p`, or abbreviates it. -/
def LongFor (opt : List LongOption) (p : LongOption) (name : List Char) : Prop :=
  name ≠ [] ∧ '=' ∉ name ∧ matchLong name opt = .unique p

/-- The elements that stand for the option `p`, with or without an argument. -/
inductive Spelling (opt : List LongOption) (p : LongOption) :
    Option (List Char) → List (List Char) → Prop where
  | char {c : Char} : ShortFor opt p c → p.hasArg ≠ .requiredArgument →
      Spelling opt p none [['-', c]]
  | charNext {c : Char} (x : List Char) : ShortFor opt p c → p.hasArg = .requiredArgument →
      Spelling opt p (some x) [['-', c], x]
  | charAttached {c : Char} {x : List Char} : ShortFor opt p c → p.hasArg ≠ .noArgument → x ≠ [] →
      Spelling opt p (some x) ['-' :: c :: x]
  | name {n : List Char} : LongFor opt p n → p.hasArg ≠ .requiredArgument →
      Spelling opt p none ['-' :: '-' :: n]
  | nameNext {n : List Char} (x : List Char) : LongFor opt p n → p.hasArg = .requiredArgument →
      Spelling opt p (some x) ['-' :: '-' :: n, x]
  | nameAttached {n : List Char} (x : List Char) : LongFor opt p n → p.hasArg ≠ .noArgument →
      Spelling opt p (some x) ['-' :: '-' :: (n ++ '=' :: x)]

/-- Two command lines that differ in how their options are written. -/
inductive SameCommand (opt : List LongOption) (ordering : ArgOrdering) :
    List (List Char) → List (List Char) → Prop where
  | refl (args : List (List Char)) : SameCommand opt ordering args args
  | symm {args args' : List (List Char)} : SameCommand opt ordering args args' →
      SameCommand opt ordering args' args
  | trans {args args' args'' : List (List Char)} : SameCommand opt ordering args args' →
      SameCommand opt ordering args' args'' → SameCommand opt ordering args args''
  | operand {a : List Char} {args args' : List (List Char)} : ordering ≠ .requireOrder →
      nonoptionP a → SameCommand opt ordering args args' →
      SameCommand opt ordering (a :: args) (a :: args')
  | option {p : LongOption} {x : Option (List Char)} {b b' args args' : List (List Char)} :
      Spelling opt p x b → Spelling opt p x b' → SameCommand opt ordering args args' →
      SameCommand opt ordering (b ++ args) (b' ++ args')
  | split {p : LongOption} {c : Char} {rest : List Char} (args : List (List Char)) :
      ShortFor opt p c → p.hasArg = .noArgument → rest ≠ [] → rest.head? ≠ some '-' →
      SameCommand opt ordering (('-' :: c :: rest) :: args) (['-', c] :: ('-' :: rest) :: args)

section Table

variable {call : GetoptCall} {opt : List LongOption} {p : LongOption}

/-- The call knows the options of the table `opt`, by name and by character. -/
structure GetoptCall.Knows (call : GetoptCall) (opt : List LongOption) : Prop where
  optstring : call.optstring = makeShortOptions opt
  longopts : call.longopts = some opt
  colon : ∀ p ∈ opt, p.val ≠ charCode ':'

theorem short_of_shortFor (hcall : call.Knows opt) {c : Char} (hc : ShortFor opt p c) :
    call.grammar.short c = some p.hasArg := by
  change shortKind call.optstring c = _
  rw [hcall.optstring, shortKind_makeShortOptions opt hcall.colon, hc.2]
  rfl

/-- The code of a short option is the one that the table has. -/
theorem charCode_of_shortFor {c : Char} (hc : ShortFor opt p c) :
    charCode c = Grammar.longCode p := by
  obtain ⟨hflag, -, hval⟩ : p.IsShort c := by simpa using List.find?_some hc.2
  rw [Grammar.longCode, if_pos hflag, hval]

theorem option_of_char {c : Char} (hc : ShortFor opt p c) (x : List Char)
    (next : Option (List Char)) :
    call.grammar.option ('-' :: c :: x) next = call.grammar.cluster (c :: x) next :=
  Grammar.option_cluster _ (Or.inr (by simpa using hc.1))

theorem isOption_of_char {c : Char} (hc : ShortFor opt p c) (x : List Char) :
    '-' :: c :: x ≠ ['-', '-'] ∧ ¬nonoptionP ('-' :: c :: x) :=
  ⟨by simp [hc.1], by simp [nonoptionP]⟩

theorem longName_attached {n : List Char} (hn : '=' ∉ n) (x : List Char) :
    longName (n ++ '=' :: x) = n ∧ nameend (n ++ '=' :: x) = '=' :: x := by
  have hall : ∀ c ∈ n, (decide (c ≠ '=')) = true := by
    intro c hc
    simp only [decide_eq_true_eq]
    rintro rfl
    exact hn hc
  constructor
  · rw [longName, List.takeWhile_append_of_pos hall]
    simp
  · rw [nameend, List.dropWhile_append_of_pos hall]
    simp

theorem longName_self {n : List Char} (hn : '=' ∉ n) : longName n = n ∧ nameend n = [] := by
  induction n with
  | nil => exact ⟨rfl, rfl⟩
  | cons c n ih =>
    rw [List.mem_cons, not_or] at hn
    obtain ⟨hname, hend⟩ := ih hn.2
    rw [longName] at hname
    rw [nameend] at hend
    constructor
    · rw [longName, List.takeWhile_cons_of_pos (by simpa using Ne.symm hn.1), hname]
    · rw [nameend, List.dropWhile_cons_of_pos (by simpa using Ne.symm hn.1), hend]

theorem option_of_name (hcall : call.Knows opt) (text : List Char) (next : Option (List Char)) :
    call.grammar.option ('-' :: '-' :: text) next
      = ([(call.grammar.longEvent (matchLong · opt) text next).1],
        (call.grammar.longEvent (matchLong · opt) text next).2) :=
  Grammar.option_long next (by rw [GetoptCall.grammar, hcall.longopts]; rfl) rfl

theorem isOption_of_name {n : List Char} (hn : n ≠ []) :
    '-' :: '-' :: n ≠ ['-', '-'] ∧ ¬nonoptionP ('-' :: '-' :: n) :=
  ⟨by simp [hn], by simp [nonoptionP]⟩

/-- However an option is written, it is read as its code, with the argument. -/
theorem Spelling.block (hcall : call.Knows opt) {x : Option (List Char)} {b : List (List Char)}
    (h : Spelling opt p x b) : call.grammar.Block b [⟨Grammar.longCode p, x⟩] := by
  cases h with
  | @char c hc harg =>
    obtain ⟨hdashes, ha⟩ := isOption_of_char hc []
    refine .one hdashes ha fun next => ?_
    have hkind := short_of_shortFor hcall hc
    rw [option_of_char hc, ← charCode_of_shortFor hc]
    cases hk : p.hasArg with
    | noArgument => rw [Grammar.cluster_noArgument _ _ (hk ▸ hkind)]; rfl
    | requiredArgument => exact absurd hk harg
    | optionalArgument => rw [Grammar.cluster_optionalArgument _ _ (hk ▸ hkind)]; rfl
  | @charNext c x hc harg =>
    obtain ⟨hdashes, ha⟩ := isOption_of_char hc []
    refine .two hdashes ha ?_
    have hkind := short_of_shortFor hcall hc
    rw [option_of_char hc, ← charCode_of_shortFor hc,
      Grammar.cluster_requiredArgument _ _ (harg ▸ hkind)]
    rfl
  | @charAttached c x hc harg hx =>
    obtain ⟨hdashes, ha⟩ := isOption_of_char hc x
    refine .one hdashes ha fun next => ?_
    have hkind := short_of_shortFor hcall hc
    rw [option_of_char hc, ← charCode_of_shortFor hc]
    cases hk : p.hasArg with
    | noArgument => exact absurd hk harg
    | requiredArgument => rw [Grammar.cluster_requiredArgument _ _ (hk ▸ hkind), if_pos hx]
    | optionalArgument => rw [Grammar.cluster_optionalArgument _ _ (hk ▸ hkind), if_pos hx]
  | @name n hn harg =>
    obtain ⟨hdashes, ha⟩ := isOption_of_name hn.1
    obtain ⟨hname, hend⟩ := longName_self hn.2.1
    refine .one hdashes ha fun next => ?_
    rw [option_of_name hcall, Grammar.longEvent, hname, hn.2.2]
    simp only
    rw [if_neg (not_not.mpr hend), if_neg harg]
  | @nameNext n x hn harg =>
    obtain ⟨hdashes, ha⟩ := isOption_of_name hn.1
    obtain ⟨hname, hend⟩ := longName_self hn.2.1
    refine .two hdashes ha ?_
    rw [option_of_name hcall, Grammar.longEvent, hname, hn.2.2]
    simp only
    rw [if_neg (not_not.mpr hend), if_pos harg, if_pos (Option.isSome_some)]
  | @nameAttached n x hn harg =>
    obtain ⟨hdashes, ha⟩ := isOption_of_name (n := n ++ '=' :: x) (by simp)
    obtain ⟨hname, hend⟩ := longName_attached hn.2.1 x
    refine .one hdashes ha fun next => ?_
    rw [option_of_name hcall, Grammar.longEvent, hname, hn.2.2, hend]
    simp only
    rw [if_pos (List.cons_ne_nil _ _), if_neg harg]
    rfl

/-- The spelling of the options makes no difference to what is read. -/
theorem SameCommand.scan_eq (hcall : call.Knows opt) {ordering : ArgOrdering}
    {args args' : List (List Char)} (h : SameCommand opt ordering args args') :
    (call.grammar.scan ordering args).events = (call.grammar.scan ordering args').events ∧
      (call.grammar.scan ordering args).operands = (call.grammar.scan ordering args').operands := by
  induction h with
  | refl args => exact ⟨rfl, rfl⟩
  | symm _ ih => exact ⟨ih.1.symm, ih.2.symm⟩
  | trans _ _ ih ih' => exact ⟨ih.1.trans ih'.1, ih.2.trans ih'.2⟩
  | @operand a args args' hordering ha _ ih =>
    cases ordering with
    | requireOrder => exact absurd rfl hordering
    | permute =>
      rw [Grammar.scan_permute _ ha, Grammar.scan_permute _ ha, ih.1, ih.2]
      exact ⟨rfl, rfl⟩
    | returnInOrder =>
      rw [Grammar.scan_returnInOrder _ ha, Grammar.scan_returnInOrder _ ha, ih.1, ih.2]
      exact ⟨rfl, rfl⟩
  | option hb hb' _ ih =>
    rw [(hb.block hcall).scan_append, (hb'.block hcall).scan_append, ih.1, ih.2]
    exact ⟨rfl, rfl⟩
  | @split p c rest args hc hno hrest hdash =>
    obtain ⟨hdashes, ha⟩ := isOption_of_char hc rest
    have hrestDashes : '-' :: rest ≠ ['-', '-'] := by
      rintro h
      obtain rfl : rest = ['-'] := List.cons_injective h
      exact hdash rfl
    have hrestOption : ¬nonoptionP ('-' :: rest) := by
      cases rest with
      | nil => exact absurd rfl hrest
      | cons d rest => simp [nonoptionP]
    have hrestCluster : ∀ next,
        call.grammar.option ('-' :: rest) next = call.grammar.cluster rest next := fun next =>
      Grammar.option_cluster next (Or.inr (by simpa [List.head?_eq_getElem?] using hdash))
    have hfirst : call.grammar.Block [['-', c]] [⟨Grammar.longCode p, none⟩] :=
      (Spelling.char hc (by simp [hno])).block hcall
    have hsecond := hfirst.scan_append ordering (('-' :: rest) :: args)
    rw [List.singleton_append] at hsecond
    rw [hsecond, Grammar.scan_option args hdashes ha,
      Grammar.scan_option args hrestDashes hrestOption, option_of_char hc, hrestCluster,
      Grammar.cluster_noArgument _ _ (hno ▸ short_of_shortFor hcall hc), charCode_of_shortFor hc]
    exact ⟨rfl, rfl⟩

end Table

end BenchFFT
