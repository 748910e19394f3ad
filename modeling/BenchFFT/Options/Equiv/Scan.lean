import BenchFFT.Options.Equiv.LongOptions
import Mathlib.Data.List.Perm.Basic

/-!
# Properties of a command line that is read

Reading sorts the arguments without changing the order of the options or of the operands
(`scan_perm`).  When no option lacks its argument, the arguments that are sorted so are read in the
same way by a scan that stops at the first operand (`scan_sorted`).  Each event is an error, or is
the code of an option with an argument that it may have (`scan_events`).
-/

namespace BenchFFT.Grammar

variable {g : Grammar}

/-- The recursion of `scan`, with the elements that are left after an option. -/
theorem scan_induction {P : List (List Char) → Prop} (hnil : P [])
    (hdashes : ∀ args, P (['-', '-'] :: args))
    (hnonoption : ∀ a args, nonoptionP a → P args → P (a :: args))
    (hoption : ∀ a args, a ≠ ['-', '-'] → ¬nonoptionP a →
      P (args.drop (g.option a args.head?).2.toNat) → P (a :: args))
    (args : List (List Char)) : P args := by
  induction hn : args.length using Nat.strongRecOn generalizing args with
  | ind n ih =>
  cases args with
  | nil => exact hnil
  | cons a args =>
    have hshorter : ∀ k, (args.drop k).length < n := by
      intro k
      rw [← hn, List.length_drop, List.length_cons]
      omega
    by_cases hd : a = ['-', '-']
    · rw [hd]
      exact hdashes args
    by_cases ha : nonoptionP a
    · exact hnonoption a args ha (ih _ (hshorter 0) args rfl)
    · exact hoption a args hd ha (ih _ (hshorter _) _ rfl)

/-! ### The arguments, sorted -/

/-- The options and the operands are in the order in which they were given. -/
theorem scan_sublist (ordering : ArgOrdering) (args : List (List Char)) :
    (g.scan ordering args).options.Sublist args ∧
      (g.scan ordering args).operands.Sublist args := by
  induction args using scan_induction (g := g) with
  | hnil => simp [scan_nil]
  | hdashes args => simp [scan_dashes]
  | hnonoption a args ha ih =>
    cases ordering with
    | requireOrder => simp [scan_requireOrder _ ha]
    | permute =>
      rw [scan_permute _ ha]
      exact ⟨ih.1.cons a, ih.2.cons_cons a⟩
    | returnInOrder =>
      rw [scan_returnInOrder _ ha]
      exact ⟨ih.1.cons_cons a, ih.2.cons a⟩
  | hoption a args hd ha ih =>
    rw [scan_option _ hd ha]
    constructor
    · have happend := (List.Sublist.refl (args.take (g.option a args.head?).2.toNat)).append ih.1
      rw [List.take_append_drop] at happend
      exact happend.cons_cons a
    · exact (ih.2.trans (List.drop_sublist _ _)).cons a

/-- Together they are all of the arguments. -/
theorem scan_perm (ordering : ArgOrdering) (args : List (List Char)) :
    ((g.scan ordering args).options ++ (g.scan ordering args).operands).Perm args := by
  induction args using scan_induction (g := g) with
  | hnil => simp [scan_nil]
  | hdashes args => simp [scan_dashes]
  | hnonoption a args ha ih =>
    cases ordering with
    | requireOrder => simp [scan_requireOrder _ ha]
    | permute =>
      rw [scan_permute _ ha]
      exact List.perm_middle.trans (ih.cons a)
    | returnInOrder =>
      rw [scan_returnInOrder _ ha]
      exact ih.cons a
  | hoption a args hd ha ih =>
    rw [scan_option _ hd ha]
    simp only [List.cons_append, List.append_assoc]
    have hrest := ih.append_left (args.take (g.option a args.head?).2.toNat)
    rw [List.take_append_drop] at hrest
    exact hrest.cons a

/-- Without permuting, they are where they were. -/
theorem scan_append {ordering : ArgOrdering} (hordering : ordering ≠ .permute)
    (args : List (List Char)) :
    (g.scan ordering args).options ++ (g.scan ordering args).operands = args := by
  induction args using scan_induction (g := g) with
  | hnil => simp [scan_nil]
  | hdashes args => simp [scan_dashes]
  | hnonoption a args ha ih =>
    cases ordering with
    | requireOrder => simp [scan_requireOrder _ ha]
    | permute => exact absurd rfl hordering
    | returnInOrder =>
      rw [scan_returnInOrder _ ha]
      simp only [List.cons_append, ih]
  | hoption a args hd ha ih =>
    rw [scan_option _ hd ha]
    simp only [List.cons_append, List.append_assoc, ih, List.take_append_drop]

/-! ### Options that have what they require -/

section Next

variable {a : List Char} {x : List Char}

/-- Only an argument that is there is taken. -/
theorem cluster_takes {text : List Char} {next : Option (List Char)}
    (h : (g.cluster text next).2 = true) : next.isSome := by
  induction text with
  | nil => simp [cluster] at h
  | cons c text ih =>
    cases hkind : g.short c with
    | none =>
      rw [cluster_unknown _ _ hkind] at h
      exact ih h
    | some kind =>
      cases kind with
      | noArgument =>
        rw [cluster_noArgument _ _ hkind] at h
        exact ih h
      | requiredArgument =>
        rw [cluster_requiredArgument _ _ hkind] at h
        split_ifs at h with h1 h2
        exact h2
      | optionalArgument =>
        rw [cluster_optionalArgument _ _ hkind] at h
        simp at h

/-- What follows is of no account where it is not taken. -/
theorem cluster_of_not_taken {text : List Char} (h : (g.cluster text (some x)).2 = false)
    (next : Option (List Char)) : g.cluster text next = g.cluster text (some x) := by
  induction text with
  | nil => rfl
  | cons c text ih =>
    cases hkind : g.short c with
    | none =>
      rw [cluster_unknown _ _ hkind] at h
      rw [cluster_unknown _ _ hkind, cluster_unknown _ _ hkind, ih h]
    | some kind =>
      cases kind with
      | noArgument =>
        rw [cluster_noArgument _ _ hkind] at h
        rw [cluster_noArgument _ _ hkind, cluster_noArgument _ _ hkind, ih h]
      | requiredArgument =>
        rw [cluster_requiredArgument _ _ hkind] at h
        rw [cluster_requiredArgument _ _ hkind, cluster_requiredArgument _ _ hkind]
        split_ifs at h ⊢ <;> simp_all
      | optionalArgument =>
        rw [cluster_optionalArgument _ _ hkind, cluster_optionalArgument _ _ hkind]

theorem longEvent_of_not_taken {find : List Char → LongMatch} {text : List Char}
    (h : (g.longEvent find text (some x)).2 = false) (next : Option (List Char)) :
    g.longEvent find text next = g.longEvent find text (some x) := by
  rw [longEvent] at h
  rw [longEvent, longEvent]
  cases hmatch : find (longName text) with
  | unknown => rfl
  | ambiguous => rfl
  | unique p =>
    rw [hmatch] at h
    simp only at h ⊢
    split_ifs at h ⊢ <;> simp_all

theorem option_of_not_taken (h : (g.option a (some x)).2 = false) (next : Option (List Char)) :
    g.option a next = g.option a (some x) := by
  cases hlong : g.long with
  | none =>
    rw [option_cluster _ (Or.inl hlong)] at h
    rw [option_cluster _ (Or.inl hlong), option_cluster _ (Or.inl hlong), cluster_of_not_taken h]
  | some find =>
    by_cases hdash : a[1]? = some '-'
    · rw [option_long _ hlong hdash] at h
      rw [option_long _ hlong hdash, option_long _ hlong hdash, longEvent_of_not_taken h]
    · rw [option_cluster _ (Or.inr hdash)] at h
      rw [option_cluster _ (Or.inr hdash), option_cluster _ (Or.inr hdash), cluster_of_not_taken h]

theorem option_takes {next : Option (List Char)} (h : (g.option a next).2 = true) :
    next.isSome := by
  cases hlong : g.long with
  | none =>
    rw [option_cluster _ (Or.inl hlong)] at h
    exact cluster_takes h
  | some find =>
    by_cases hdash : a[1]? = some '-'
    · rw [option_long _ hlong hdash] at h
      exact longEvent_takes h
    · rw [option_cluster _ (Or.inr hdash)] at h
      exact cluster_takes h

end Next

section Supplied

variable {a : List Char} {args : List (List Char)}

theorem supplied_nonoption (ha : nonoptionP a) : g.Supplied (a :: args) ↔ g.Supplied args := by
  rw [Supplied, if_neg (ne_dashes_of_nonoption ha), if_pos ha]

theorem supplied_option (hd : a ≠ ['-', '-']) (ha : ¬nonoptionP a) :
    g.Supplied (a :: args) ↔ (args = [] → ∀ next, g.option a next = g.option a none) ∧
      g.Supplied (args.drop (g.option a args.head?).2.toNat) := by
  rw [Supplied, if_neg hd, if_neg ha]

/-- An option that has what it requires is a block. -/
theorem block_of_supplied (hd : a ≠ ['-', '-']) (ha : ¬nonoptionP a)
    (hend : args = [] → ∀ next, g.option a next = g.option a none) :
    g.Block (a :: args.take (g.option a args.head?).2.toNat) (g.option a args.head?).1 := by
  cases htakes : (g.option a args.head?).2 with
  | true =>
    cases args with
    | nil => exact absurd (option_takes htakes) (by simp)
    | cons x args => exact .two hd ha (Prod.ext rfl htakes)
  | false =>
    refine .one hd ha fun next => Prod.ext ?_ ?_
    · cases args with
      | nil => rw [hend rfl next]; rfl
      | cons x args => rw [option_of_not_taken htakes next]; rfl
    · cases args with
      | nil => rw [hend rfl next]; exact htakes
      | cons x args => rw [option_of_not_taken htakes next]; exact htakes

/-- A scan that stops at the first operand, of the options with other operands after them. -/
theorem scan_options_append (hargs : g.Supplied args) (operands : List (List Char))
    (h : (∀ b, operands.head? = some b → nonoptionP b) ∨
      operands = (g.scan .permute args).operands) :
    g.scan .requireOrder ((g.scan .permute args).options ++ operands)
      = ⟨(g.scan .permute args).events, (g.scan .permute args).options, operands⟩ := by
  induction args using scan_induction (g := g) with
  | hnil =>
    rw [scan_nil] at h ⊢
    cases operands with
    | nil => exact scan_nil
    | cons b operands =>
      have hb : nonoptionP b := by
        rcases h with h | h
        · exact h b rfl
        · exact absurd h (List.cons_ne_nil _ _)
      exact scan_requireOrder operands hb
  | hdashes args =>
    rw [scan_dashes]
    exact scan_dashes operands
  | hnonoption b args hb ih =>
    rw [scan_permute _ hb] at h ⊢
    refine ih ((supplied_nonoption hb).mp hargs) (Or.inl fun c hc => ?_)
    rcases h with h | rfl
    · exact h c hc
    · rwa [← Option.some.inj hc]
  | hoption b args hd hb ih =>
    obtain ⟨hend, hrest⟩ := (supplied_option hd hb).mp hargs
    rw [scan_option _ hd hb] at h ⊢
    have hblock := (block_of_supplied hd hb hend).scan_append .requireOrder
      ((g.scan .permute (args.drop (g.option b args.head?).2.toNat)).options ++ operands)
    rw [ih hrest h] at hblock
    simpa using hblock

end Supplied

/-- The arguments that a permuting scan has sorted are read in the same way, whether or not the
scan permutes, and stay where they are. -/
theorem scan_sorted {args : List (List Char)} (hargs : g.Supplied args) :
    g.scan .requireOrder ((g.scan .permute args).options ++ (g.scan .permute args).operands)
      = g.scan .permute args :=
  scan_options_append hargs _ (Or.inr rfl)

/-! ### What can be reported -/

/-- What is reported of a table of options: an error, or an option with an argument that it may
have. -/
inductive Reportable (g : Grammar) (opt : List LongOption) : Event → Prop where
  | unknown : Reportable g opt ⟨charCode '?', none⟩
  | missing : Reportable g opt ⟨g.missing, none⟩
  | option {p : LongOption} (x : Option (List Char)) : p ∈ opt →
      (p.hasArg = .noArgument → x = none) → (p.hasArg = .requiredArgument → x.isSome) →
      Reportable g opt ⟨longCode p, x⟩

section Reportable

variable {opt : List LongOption}
  (hshort : ∀ c k, g.short c = some k → ∃ p ∈ opt, longCode p = charCode c ∧ p.hasArg = k)
include hshort

theorem cluster_reportable (text : List Char) (next : Option (List Char)) :
    ∀ e ∈ (g.cluster text next).1, Reportable g opt e := by
  induction text with
  | nil => simp [cluster]
  | cons c text ih =>
    cases hkind : g.short c with
    | none =>
      rw [cluster_unknown _ _ hkind]
      exact List.forall_mem_cons.mpr ⟨.unknown, ih⟩
    | some kind =>
      obtain ⟨p, hp, hcode, rfl⟩ := hshort c kind hkind
      cases harg : p.hasArg with
      | noArgument =>
        rw [cluster_noArgument _ _ (harg ▸ hkind), ← hcode]
        exact List.forall_mem_cons.mpr
          ⟨.option none hp (fun _ => rfl) fun h => by simp [harg] at h, ih⟩
      | requiredArgument =>
        rw [cluster_requiredArgument _ _ (harg ▸ hkind), ← hcode]
        have hno : p.hasArg ≠ .noArgument := by simp [harg]
        split_ifs with hrest hnext
        · exact List.forall_mem_singleton.mpr (.option _ hp (absurd · hno) fun _ => rfl)
        · exact List.forall_mem_singleton.mpr (.option _ hp (absurd · hno) fun _ => hnext)
        · exact List.forall_mem_singleton.mpr .missing
      | optionalArgument =>
        rw [cluster_optionalArgument _ _ (harg ▸ hkind), ← hcode]
        exact List.forall_mem_singleton.mpr
          (.option _ hp (fun h => by simp [harg] at h) fun h => by simp [harg] at h)

omit hshort in
theorem longEvent_reportable (text : List Char) (next : Option (List Char)) :
    Reportable g opt (g.longEvent (matchLong · opt) text next).1 := by
  rw [longEvent]
  cases hmatch : matchLong (longName text) opt with
  | unknown => exact .unknown
  | ambiguous => exact .unknown
  | unique p =>
    have hp := matchLong_mem hmatch
    simp only
    split_ifs with hvalue hno hrequired hnext
    · exact .unknown
    · exact .option _ hp (absurd · hno) fun _ => rfl
    · exact .option _ hp (fun h => by simp [hrequired] at h) fun _ => hnext
    · exact .missing
    · exact .option _ hp (fun _ => rfl) (absurd · hrequired)

/-- Every event of a command line. -/
theorem scan_events (hlong : g.long = some (matchLong · opt)) {ordering : ArgOrdering}
    (hordering : ordering ≠ .returnInOrder) (args : List (List Char)) :
    ∀ e ∈ (g.scan ordering args).events, Reportable g opt e := by
  induction args using scan_induction (g := g) with
  | hnil => simp [scan_nil]
  | hdashes args => simp [scan_dashes]
  | hnonoption a args ha ih =>
    cases ordering with
    | requireOrder => simp [scan_requireOrder _ ha]
    | permute =>
      rw [scan_permute _ ha]
      exact ih
    | returnInOrder => exact absurd rfl hordering
  | hoption a args hd ha ih =>
    rw [scan_option _ hd ha]
    refine List.forall_mem_append.mpr ⟨?_, ih⟩
    by_cases hdash : a[1]? = some '-'
    · rw [option_long _ hlong hdash]
      exact List.forall_mem_singleton.mpr (longEvent_reportable _ _)
    · rw [option_cluster _ (Or.inr hdash)]
      exact cluster_reportable hshort _ _

end Reportable

end BenchFFT.Grammar
