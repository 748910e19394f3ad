import BenchFFT.Options.Equiv.Advance
import BenchFFT.Options.Equiv.Scan

/-!
# `getopt` reads a command line as its grammar does

The calls until `getopt` returns -1 report the events of `Grammar.scan`, in order, and leave `argv`
with the options first and then the operands (`getopt_reads`).  No argument is lost on the way
(`getopt_permutes`).
-/

namespace BenchFFT

/-- The calls of `getopt` until it returns -1, and what each of the others reported. -/
inductive Calls (call : GetoptCall) : Getopt → List Event → Getopt → Prop where
  | done {s t : Getopt} : getoptInternal call s = .ok (-1, t) → Calls call s [] t
  | call {s s' t : Getopt} {r : ℤ} {es : List Event} : getoptInternal call s = .ok (r, s') →
      r ≠ -1 → Calls call s' es t → Calls call s (⟨r, s'.optarg⟩ :: es) t

/-- Where the first call is the same, all of them are. -/
theorem Calls.congr {call : GetoptCall} {s s' t : Getopt} {es : List Event} (h : Calls call s' es t)
    (hs : getoptInternal call s = getoptInternal call s') : Calls call s es t := by
  cases h with
  | done hrun => exact .done (hs.trans hrun)
  | call hrun hr hcalls => exact .call (hs.trans hrun) hr hcalls

/-- The calls that are as documented: not `getopt_long_only`, no `W;`, and no option that is
reported as -1. -/
structure GetoptCall.Plain (call : GetoptCall) : Prop where
  longOnly : call.longOnly = false
  noPosixW : NoPosixW call.optstring
  charCode_ne : ∀ c ∈ call.optstring, charCode c ≠ -1
  val_ne : ∀ longopts ∈ call.longopts, ∀ p ∈ longopts, p.val ≠ -1

section Run

variable {call : GetoptCall} {s : Getopt} {prog : List Char} {done skipped rest : List (List Char)}

theorem Ready.clear (h : Ready s prog done skipped rest) :
    Ready { s with optarg := none } prog done skipped rest :=
  ⟨h.1, h.2, h.3, h.4, h.5, h.6, h.7, h.8⟩

/-- After the last of an element, and of its argument when that is the next one. -/
theorem Ready.finish {t : Getopt} {a : List Char} {k : ℕ}
    (h : Ready s prog done skipped (a :: rest)) (ht : Took (1 + k) s t) (hnext : t.nextchar = [])
    (hk : k ≤ rest.length) :
    Between t prog (done ++ a :: rest.take k) skipped (rest.drop k) := by
  refine ⟨hnext, ht.initialized.trans h.initialized,
    ⟨done.take (s.firstNonopt - 1), done.drop (s.firstNonopt - 1) ++ a :: rest.take k, ?_, ?_, ?_,
      ?_, ?_⟩, fun hne => h.skipped_eq (by rwa [← ht.ordering])⟩
  · rw [← List.append_assoc, List.take_append_drop]
  · rw [ht.argv, h.argv]
    by_cases hskipped : skipped = []
    · have hdone := List.take_append_drop (s.firstNonopt - 1) done
      simp only [hskipped, List.append_nil, ← List.append_assoc, hdone]
      simp
    · simp [h.firstNonopt hskipped]
  · have hpos := h.firstNonopt_pos
    have hle := h.firstNonopt_le
    rw [ht.firstNonopt]
    simp
    omega
  · rw [ht.lastNonopt, ht.firstNonopt, h.lastNonopt]
  · have hpos := h.firstNonopt_pos
    have hle := h.firstNonopt_le
    rw [ht.optind, ht.lastNonopt, h.optind, h.lastNonopt]
    simp
    omega

/-- In the middle of an element. -/
theorem Ready.stay {t : Getopt} (h : Ready s prog done skipped rest) (ht : Took 0 s t) :
    Ready t prog done skipped rest :=
  ⟨ht.initialized.trans h.initialized, ht.argv.trans h.argv, ht.optind.trans h.optind,
    by rw [ht.lastNonopt, ht.firstNonopt, h.lastNonopt], by rw [ht.firstNonopt]; exact h.5,
    by rw [ht.firstNonopt]; exact h.6, by rw [ht.firstNonopt]; exact h.7,
    by rw [ht.ordering]; exact h.8⟩

/-- One call that reports an event, and the calls after it. -/
theorem Calls.report {r : Except Abort (ℤ × Getopt)} {u : Getopt} {e : Event} {es : List Event}
    {text : List Char} {n : ℕ} {P : Getopt → Prop} (hcall : getoptInternal call s = r)
    (hreports : Reports r u e text n) (hcode : e.code ≠ -1)
    (hrest : ∀ t, t.nextchar = text → Took n u t → ∃ v, Calls call t es v ∧ P v) :
    ∃ v, Calls call s (e :: es) v ∧ P v := by
  obtain ⟨t, hr, harg, hnext, htook⟩ := hreports
  obtain ⟨v, hcalls, hv⟩ := hrest t hnext htook
  refine ⟨v, ?_, hv⟩
  have hevent : (⟨e.code, t.optarg⟩ : Event) = e := by rw [harg]
  rw [← hevent]
  exact .call (hcall.trans hr) hcode hcalls

theorem missingCode_ne (optstring : List Char) : missingCode optstring ≠ -1 := by
  rw [missingCode]
  split_ifs <;> decide

theorem charCode_ne_of_ascii (str : List Char) (h : str.all (·.toNat < 128)) :
    ∀ c ∈ str, charCode c ≠ -1 := by
  intro c hc
  have hlt : c.toNat < 128 := of_decide_eq_true (List.all_eq_true.mp h c hc)
  rw [charCode, if_neg (by omega)]
  omega

theorem GetoptCall.Plain.code_ne {call : GetoptCall} (hplain : call.Plain) {c : Char} {k : HasArg}
    (hc : shortKind call.optstring c = some k) : charCode c ≠ -1 := by
  obtain ⟨-, temp, hfound, -⟩ := shortKind_some call.optstring hc
  exact hplain.charCode_ne c (mem_of_myIndex hfound)

/-- A call in the middle of a cluster. -/
theorem Ready.getoptInternal_eq {a : List Char} (h : Ready s prog done skipped (a :: rest))
    (hplain : call.Plain) (hnext : s.nextchar ≠ [])
    (hshort : call.longopts = none ∨ a[1]? ≠ some '-') :
    getoptInternal call s = shortOption call call.optstring
      (call.opterr && call.optstring.head? != some ':') { s with optarg := none } := by
  have hoptind := h.optind
  rw [getoptInternal_of_initialized call h.initialized (by omega) (by simp [Getopt.argc, h.argv]),
    if_neg hnext]
  exact decode_short _ _ _ hplain.longOnly (h.clear.argv_get 0) hshort

/-- The calls of a cluster and those after it, which depend on whether the cluster has taken the
next element too. -/
theorem calls_cluster {a text : List Char} (hplain : call.Plain)
    (hshort : call.longopts = none ∨ a[1]? ≠ some '-') (es : ℕ → List Event)
    (P : ℕ → Getopt → Prop) (hready : Ready s prog done skipped (a :: rest))
    (hnext : s.nextchar = text) (htext : text ≠ [])
    (hafter : ∀ k ≤ rest.length, ∀ t, t.ordering = s.ordering →
      Between t prog (done ++ a :: rest.take k) skipped (rest.drop k) →
      ∃ v, Calls call t (es k) v ∧ P k v) :
    ∃ v, Calls call s ((call.grammar.cluster text rest.head?).1
        ++ es (call.grammar.cluster text rest.head?).2.toNat) v ∧
      P (call.grammar.cluster text rest.head?).2.toNat v := by
  induction text generalizing s with
  | nil => exact absurd rfl htext
  | cons c text ih =>
    have hcall := hready.getoptInternal_eq hplain (by simp [hnext]) hshort
    set u : Getopt := { s with optarg := none }
    have hargc : u.optind < u.argc := by
      rw [hready.clear.argc_eq, hready.clear.optind]
      simp
    have hget : u.argv[u.optind + 1]? = rest.head? := by
      rw [hready.clear.argv_get 1]
      cases rest <;> rfl
    -- the calls after an option without an argument
    have hcontinue : ∀ t, t.nextchar = text → Took (passed text) u t →
        ∃ v, Calls call t ((call.grammar.cluster text rest.head?).1
            ++ es (call.grammar.cluster text rest.head?).2.toNat) v ∧
          P (call.grammar.cluster text rest.head?).2.toNat v := by
      intro t ht htook
      by_cases hend : text = []
      · subst hend
        exact hafter 0 (Nat.zero_le _) t htook.ordering
          (hready.clear.finish (k := 0) htook ht (Nat.zero_le _))
      · rw [passed, if_neg hend] at htook
        exact ih (hready.clear.stay htook) ht hend fun k hk v hv hbetween =>
          hafter k hk v (hv.trans htook.ordering) hbetween
    -- the calls after an option that ends the element, and takes `k` more
    have hfinish : ∀ k ≤ rest.length, ∀ t, t.nextchar = [] → Took (1 + k) u t →
        ∃ v, Calls call t (es k) v ∧ P k v := fun k hk t ht htook =>
      hafter k hk t htook.ordering (hready.clear.finish htook ht hk)
    cases hkind : shortKind call.optstring c with
    | none =>
      rw [Grammar.cluster_unknown text rest.head? hkind]
      exact Calls.report hcall (short_unknown call call.optstring _ hnext rfl hkind) (by decide)
        hcontinue
    | some kind =>
      cases kind with
      | noArgument =>
        rw [Grammar.cluster_noArgument text rest.head? hkind]
        exact Calls.report hcall
          (short_noArgument call call.optstring _ hnext hplain.noPosixW rfl hkind)
          (hplain.code_ne hkind) hcontinue
      | requiredArgument =>
        have hreports := short_requiredArgument (s := u) call call.optstring
          (call.opterr && call.optstring.head? != some ':') hnext hplain.noPosixW rfl hargc hkind
        rw [Grammar.cluster_requiredArgument text rest.head? hkind]
        rw [hget] at hreports
        split_ifs at hreports ⊢ with hrest hnextArg
        · exact Calls.report hcall hreports (hplain.code_ne hkind) (hfinish 0 (Nat.zero_le _))
        · have hlen : 1 ≤ rest.length := by
            cases rest with
            | nil => simp at hnextArg
            | cons b rest => simp
          exact Calls.report hcall hreports (hplain.code_ne hkind) (hfinish 1 hlen)
        · exact Calls.report hcall hreports (missingCode_ne _) (hfinish 0 (Nat.zero_le _))
      | optionalArgument =>
        rw [Grammar.cluster_optionalArgument text rest.head? hkind]
        exact Calls.report hcall
          (short_optionalArgument call call.optstring _ hnext hplain.noPosixW hkind)
          (hplain.code_ne hkind) (hfinish 0 (Nat.zero_le _))

/-- The call at an element that starts with `--`, and the calls after it. -/
theorem calls_long {a : List Char} {longopts : List LongOption} (hplain : call.Plain)
    (hlong : call.longopts = some longopts) (hdash : a[1]? = some '-') {t : Getopt}
    (hready : Ready t prog done skipped (a :: rest)) (hoptarg : t.optarg = none)
    (hcall : getoptInternal call s = decode call call.optstring
      (call.opterr && call.optstring.head? != some ':') t)
    (es : ℕ → List Event) (P : ℕ → Getopt → Prop)
    (hafter : ∀ k ≤ rest.length, ∀ u, u.ordering = t.ordering →
      Between u prog (done ++ a :: rest.take k) skipped (rest.drop k) →
      ∃ v, Calls call u (es k) v ∧ P k v)
    {e : Event × Bool}
    (he : call.grammar.longEvent (matchLong · longopts) t.nextchar rest.head? = e) :
    ∃ v, Calls call s (e.1 :: es e.2.toNat) v ∧ P e.2.toNat v := by
  have hget : t.argv[t.optind + 1]? = rest.head? := by
    rw [hready.argv_get 1]
    cases rest <;> rfl
  have hreports := decode_long (g := call.grammar) call.optstring
    (call.opterr && call.optstring.head? != some ':') rfl hlong hplain.longOnly
    (hready.argv_get 0) hdash hoptarg
  rw [hget, he] at hreports
  have hcode : e.1.code ≠ -1 := by
    rw [← he]
    exact longEvent_code (P := (· ≠ -1)) (by decide) (missingCode_ne _) (by decide)
      (hplain.val_ne longopts hlong)
  have hlen : e.2.toNat ≤ rest.length := by
    cases htakes : e.2 with
    | false => exact Nat.zero_le _
    | true =>
      have hsome := longEvent_takes (he ▸ htakes)
      cases rest with
      | nil => simp at hsome
      | cons b rest => simp
  exact Calls.report hcall hreports hcode fun u hu htook =>
    hafter _ hlen u htook.ordering (hready.finish htook hu hlen)

/-- The calls at an element that is an option, and the calls after it. -/
theorem calls_option {a : List Char} {t : Getopt} (hplain : call.Plain)
    (hready : Ready t prog done skipped (a :: rest)) (hoptarg : t.optarg = none)
    (hcall : getoptInternal call s = lookAt call t) (hdashes : a ≠ ['-', '-'])
    (ha : ¬nonoptionP a) (es : ℕ → List Event) (P : ℕ → Getopt → Prop)
    (hafter : ∀ k ≤ rest.length, ∀ u, u.ordering = t.ordering →
      Between u prog (done ++ a :: rest.take k) skipped (rest.drop k) →
      ∃ v, Calls call u (es k) v ∧ P k v)
    {e : List Event × Bool} (he : call.grammar.option a rest.head? = e) :
    ∃ v, Calls call s (e.1 ++ es e.2.toNat) v ∧ P e.2.toNat v := by
  rw [hready.lookAt_option call hdashes ha] at hcall
  by_cases hlong : ∃ longopts, call.longopts = some longopts ∧ a[1]? = some '-'
  · obtain ⟨longopts, hlongopts, hdash⟩ := hlong
    rw [if_pos ⟨by simp [hlongopts], hdash⟩] at hcall
    rw [Grammar.option_long _ (by rw [GetoptCall.grammar, hlongopts]; rfl) hdash] at he
    rw [← he]
    exact calls_long hplain hlongopts hdash
      (t := { t with nextchar := a.drop 2 })
      ⟨hready.1, hready.2, hready.3, hready.4, hready.5, hready.6, hready.7, hready.8⟩ hoptarg
      hcall es P hafter rfl
  · have hshort : call.longopts = none ∨ a[1]? ≠ some '-' := by
      cases hlongopts : call.longopts with
      | none => exact Or.inl rfl
      | some longopts => exact Or.inr fun hdash => hlong ⟨longopts, hlongopts, hdash⟩
    have hgrammar : call.grammar.long = none ∨ a[1]? ≠ some '-' :=
      hshort.imp_left fun h => by rw [GetoptCall.grammar, h]; rfl
    have htail : a.tail ≠ [] := by
      rintro hnil
      cases a with
      | nil => exact ha rfl
      | cons c text => exact ha (by simp at hnil; simp [hnil, nonoptionP])
    rw [if_neg fun h => hshort.elim (fun hnone => by simp [hnone] at h) fun hne => hne h.2,
      Nat.add_zero, List.drop_one] at hcall
    rw [Grammar.option_cluster _ hgrammar] at he
    rw [← he]
    -- the call is the one that the first character of the cluster gets
    set u : Getopt := { t with nextchar := a.tail }
    have hu : Ready u prog done skipped (a :: rest) :=
      ⟨hready.1, hready.2, hready.3, hready.4, hready.5, hready.6, hready.7, hready.8⟩
    have hsame : getoptInternal call s = getoptInternal call u := by
      rw [hcall, getoptInternal_of_initialized call hu.initialized (by rw [hu.optind]; omega)
        (by rw [hu.argc_eq]; omega), if_neg htail, ← hoptarg]
    obtain ⟨v, hcalls, hv⟩ := calls_cluster hplain hshort es P hu rfl htail hafter
    exact ⟨v, hcalls.congr hsame, hv⟩

/-- The calls from a state between two elements. -/
theorem calls_between (hplain : call.Plain) {ordering : ArgOrdering}
    (h : Between s prog done skipped rest) (hordering : s.ordering = ordering) :
    ∃ t, Calls call s (call.grammar.scan ordering rest).events t ∧
      Sorted t prog (done ++ (call.grammar.scan ordering rest).options)
        (skipped ++ (call.grammar.scan ordering rest).operands) := by
  induction hn : rest.length using Nat.strongRecOn generalizing s done skipped rest with
  | ind n ih =>
  obtain ⟨t, ns, rest', hcall, hready, rfl, hns, hstay, hhead, htordering, hoptarg, htnext⟩ :=
    h.getoptInternal_eq call
  -- the non-options that have been skipped are operands
  have hscan : call.grammar.scan ordering (ns ++ rest')
      = ⟨(call.grammar.scan ordering rest').events, (call.grammar.scan ordering rest').options,
        ns ++ (call.grammar.scan ordering rest').operands⟩ := by
    by_cases hp : s.ordering = .permute
    · obtain rfl : ordering = .permute := hordering.symm.trans hp
      exact Grammar.scan_skip rest' ns hns
    · rw [hstay hp]
      rfl
  rw [hscan]
  simp only [← List.append_assoc]
  cases rest' with
  | nil =>
    obtain ⟨u, hrun, hu⟩ := hready.lookAt_nil call
    rw [Grammar.scan_nil, List.append_nil, List.append_nil]
    exact ⟨u, .done (hcall.trans hrun), hu⟩
  | cons a tail =>
    have htail : ∀ k, (tail.drop k).length < n := by
      intro k
      rw [← hn]
      simp
      omega
    by_cases hdashes : a = ['-', '-']
    · subst hdashes
      obtain ⟨u, hrun, hu⟩ := hready.lookAt_dashes call
      rw [Grammar.scan_dashes]
      exact ⟨u, .done (hcall.trans hrun), hu⟩
    by_cases ha : nonoptionP a
    · have hreturn := hready.lookAt_nonoption call hdashes ha
      have hnil : skipped ++ ns = [] := hready.skipped_eq fun hp =>
        hhead (htordering.symm.trans hp) a rfl ha
      cases ordering with
      | permute => exact absurd ha (hhead hordering a rfl)
      | requireOrder =>
        rw [if_pos (htordering.trans hordering)] at hreturn
        rw [Grammar.scan_requireOrder tail ha, List.append_nil]
        refine ⟨t, .done (hcall.trans hreturn), ?_, ?_⟩
        · rw [hready.argv, List.append_assoc]
        · rw [hready.optind, hnil]
          rfl
      | returnInOrder =>
        rw [if_neg (by simp [htordering, hordering])] at hreturn
        rw [Grammar.scan_returnInOrder tail ha]
        have hbetween := hready.finish (k := 0)
          (t := { t with optarg := some a, optind := t.optind + 1 })
          ((Took.refl t).pass.of_eq rfl rfl rfl rfl rfl rfl) htnext (Nat.zero_le _)
        obtain ⟨v, hcalls, hv⟩ := ih _ (htail 0) hbetween (htordering.trans hordering) rfl
        refine ⟨v, .call (hcall.trans hreturn) (by decide) hcalls, ?_⟩
        simpa using hv
    · rw [Grammar.scan_option tail hdashes ha]
      refine calls_option hplain hready hoptarg hcall hdashes ha
        (fun k => (call.grammar.scan ordering (tail.drop k)).events)
        (fun k v => Sorted v prog
          (done ++ (a :: tail.take k ++ (call.grammar.scan ordering (tail.drop k)).options))
          (skipped ++ ns ++ (call.grammar.scan ordering (tail.drop k)).operands))
        (fun k hk u hu hbetween => ?_) rfl
      obtain ⟨v, hcalls, hv⟩ := ih _ (htail k) hbetween ((hu.trans htordering).trans hordering) rfl
      exact ⟨v, hcalls, by simpa using hv⟩

end Run

/-! ### From the first call on -/

/-- A state in which `getopt` starts afresh on the command line `argv`. -/
structure Getopt.Fresh (s : Getopt) (prog : List Char) (args : List (List Char)) : Prop where
  argv : s.argv = prog :: args
  optind : s.optind = 0 ∨ s.optind = 1 ∧ s.initialized = false

/-- The ordering that a call without a prefix in `optstring` works with. -/
def GetoptCall.ordering (call : GetoptCall) : ArgOrdering :=
  if call.posixlyCorrect then .requireOrder else .permute

section Fresh

variable {call : GetoptCall} {s : Getopt} {prog : List Char} {args : List (List Char)}

/-- The first call is the same as a later one in the state it initializes. -/
theorem getoptInternal_of_fresh (hfresh : s.Fresh prog args)
    (hminus : call.optstring.head? ≠ some '-') (hplus : call.optstring.head? ≠ some '+') :
    ∃ t, getoptInternal call s = getoptInternal call t ∧ Between t prog [] [] args ∧
      t.ordering = call.ordering := by
  have hargv := hfresh.argv
  have hoptind : (if s.optind = 0 then 1 else s.optind) = 1 := by
    rcases hfresh.optind with h | ⟨h, -⟩ <;> simp [h]
  have hfirst : s.optind = 0 ∨ ¬s.initialized = true := by
    rcases hfresh.optind with h | ⟨-, h⟩ <;> simp [h]
  have hskip : skipOrdering call.optstring = call.optstring := by
    rw [skipOrdering, if_neg (by simp [hminus, hplus])]
  set t : Getopt := { getoptInitialize call { s with optarg := none, optind := 1 } with
    initialized := true } with ht
  have hlater := getoptInternal_of_initialized call (s := t) rfl Nat.one_ne_zero
    (by simp [ht, getoptInitialize, Getopt.argc, hargv])
  refine ⟨t, ?_, ⟨rfl, rfl, ⟨[], [], rfl, ?_, rfl, rfl, rfl⟩, fun _ => rfl⟩, ?_⟩
  · rw [hlater, getoptInternal, if_neg (by simp [Getopt.argc, hargv])]
    simp only
    rw [if_pos hfirst, if_pos hfirst, hskip, hoptind]
    rfl
  · simpa [ht, getoptInitialize] using hargv
  · simp [ht, getoptInitialize, GetoptCall.ordering, hminus, hplus]

theorem calls_fresh (hplain : call.Plain) (hfresh : s.Fresh prog args)
    (hminus : call.optstring.head? ≠ some '-') (hplus : call.optstring.head? ≠ some '+') :
    ∃ t, Calls call s (call.grammar.scan call.ordering args).events t ∧
      Sorted t prog (call.grammar.scan call.ordering args).options
        (call.grammar.scan call.ordering args).operands := by
  obtain ⟨u, hsame, hbetween, hordering⟩ := getoptInternal_of_fresh hfresh hminus hplus
  obtain ⟨t, hcalls, ht⟩ := calls_between hplain hbetween hordering
  exact ⟨t, hcalls.congr hsame, ht⟩

end Fresh

/-- The calls are determined by the state they start from. -/
theorem Calls.unique {call : GetoptCall} {s t t' : Getopt} {es es' : List Event}
    (h : Calls call s es t) (h' : Calls call s es' t') : es = es' ∧ t = t' := by
  induction h generalizing es' t' with
  | done hrun =>
    cases h' with
    | done hrun' =>
      rw [hrun] at hrun'
      cases hrun'
      exact ⟨rfl, rfl⟩
    | call hrun' hr _ =>
      rw [hrun] at hrun'
      cases hrun'
      exact absurd rfl hr
  | call hrun hr _ ih =>
    cases h' with
    | done hrun' =>
      rw [hrun] at hrun'
      cases hrun'
      exact absurd rfl hr
    | call hrun' _ hcalls =>
      rw [hrun] at hrun'
      cases hrun'
      obtain ⟨rfl, rfl⟩ := ih hcalls
      exact ⟨rfl, rfl⟩

/-- On every command line the calls of `getopt` come to an end without leaving `argv`; they report
the events of the grammar, and leave the options first, in the order in which they were given, and
then the operands. -/
theorem getopt_reads (call : GetoptCall) (hplain : call.Plain)
    (hminus : call.optstring.head? ≠ some '-') (hplus : call.optstring.head? ≠ some '+')
    (s : Getopt) (prog : List Char) (args : List (List Char)) (hfresh : s.Fresh prog args) :
    ∃ t, (∀ es u, Calls call s es u ↔
        es = (call.grammar.scan call.ordering args).events ∧ u = t) ∧
      t.argv = prog :: ((call.grammar.scan call.ordering args).options
        ++ (call.grammar.scan call.ordering args).operands) ∧
      t.optind = 1 + (call.grammar.scan call.ordering args).options.length := by
  obtain ⟨t, hcalls, hargv, hoptind⟩ := calls_fresh hplain hfresh hminus hplus
  refine ⟨t, fun es u => ⟨fun h => ?_, ?_⟩, hargv, hoptind⟩
  · exact h.unique hcalls
  · rintro ⟨rfl, rfl⟩
    exact hcalls

/-- A call with an option `-t`, which requires an argument, and the option `--verbose`. -/
def timeVerbose (posixlyCorrect : Bool) : GetoptCall where
  optstring := "t:".toList
  longopts := some [⟨"verbose".toList, .optionalArgument, none, 118⟩]
  longOnly := false
  opterr := true
  posixlyCorrect

theorem timeVerbose_plain (posixlyCorrect : Bool) : (timeVerbose posixlyCorrect).Plain where
  longOnly := rfl
  noPosixW temp h := by
    have hnone : myIndex "t:".toList 'W' = none := by decide
    exact absurd (hnone.symm.trans h) (by simp)
  charCode_ne := charCode_ne_of_ascii "t:".toList (by decide)
  val_ne longopts h := by
    obtain rfl := Option.some.inj h
    decide

theorem getopt_reads_timeVerbose : ∃ t,
    (∀ es u, Calls (timeVerbose false)
        { argv := ["bench".toList, "8".toList, "-t1".toList, "--verb".toList] } es u ↔
      es = [⟨charCode 't', some ['1']⟩, ⟨118, none⟩] ∧ u = t) ∧
    t.argv = ["bench".toList, "-t1".toList, "--verb".toList, "8".toList] ∧ t.optind = 3 := by
  obtain ⟨t, hcalls, hargv, hoptind⟩ := getopt_reads (timeVerbose false) (timeVerbose_plain false)
    (by decide) (by decide)
    { argv := ["bench".toList, "8".toList, "-t1".toList, "--verb".toList] } _ _
    ⟨rfl, Or.inr ⟨rfl, rfl⟩⟩
  have hscan : (timeVerbose false).grammar.scan (timeVerbose false).ordering
      ["8".toList, "-t1".toList, "--verb".toList]
      = ⟨[⟨charCode 't', some ['1']⟩, ⟨118, none⟩], ["-t1".toList, "--verb".toList],
        ["8".toList]⟩ := by
    decide +kernel
  rw [hscan] at hcalls hargv hoptind
  exact ⟨t, hcalls, hargv, hoptind⟩

/-- Whatever has been exchanged during the calls, `argv` has the same elements afterwards, the
options and the operands each in their order; with `POSIXLY_CORRECT` nothing has been moved. -/
theorem getopt_permutes (call : GetoptCall) (hplain : call.Plain)
    (hminus : call.optstring.head? ≠ some '-') (hplus : call.optstring.head? ≠ some '+')
    (s : Getopt) (prog : List Char) (args : List (List Char)) (hfresh : s.Fresh prog args) :
    ∃ es t options operands, Calls call s es t ∧ t.argv = prog :: (options ++ operands) ∧
      t.optind = 1 + options.length ∧ t.argv.Perm s.argv ∧ options.Sublist args ∧
      operands.Sublist args ∧ (call.posixlyCorrect = true → t.argv = s.argv) := by
  obtain ⟨t, hcalls, hargv, hoptind⟩ := calls_fresh hplain hfresh hminus hplus
  obtain ⟨hoptions, hoperands⟩ := Grammar.scan_sublist (g := call.grammar) call.ordering args
  refine ⟨_, t, _, _, hcalls, hargv, hoptind, ?_, hoptions, hoperands, fun hposix => ?_⟩
  · rw [hargv, hfresh.argv]
    exact (Grammar.scan_perm call.ordering args).cons prog
  · have hordering : call.ordering ≠ .permute := by
      rw [GetoptCall.ordering, if_pos hposix]
      exact ArgOrdering.noConfusion
    rw [hargv, hfresh.argv, Grammar.scan_append hordering]

theorem getopt_permutes_timeVerbose :
    ∃ es t options operands, Calls (timeVerbose true)
        { argv := ["bench".toList, "-t".toList, "1".toList, "8".toList, "-t1".toList] } es t ∧
      t.argv = "bench".toList :: (options ++ operands) ∧ t.optind = 1 + options.length ∧
      t.argv = ["bench".toList, "-t".toList, "1".toList, "8".toList, "-t1".toList] := by
  obtain ⟨es, t, options, operands, hcalls, hargv, hoptind, -, -, -, hposix⟩ := getopt_permutes
    (timeVerbose true) (timeVerbose_plain true) (by decide) (by decide)
    { argv := ["bench".toList, "-t".toList, "1".toList, "8".toList, "-t1".toList] } _ _
    ⟨rfl, Or.inr ⟨rfl, rfl⟩⟩
  exact ⟨es, t, options, operands, hcalls, hargv, hoptind, hposix rfl⟩

end BenchFFT
