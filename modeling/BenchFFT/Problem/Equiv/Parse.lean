import BenchFFT.Problem.Language
import BenchFFT.Problem.Parse
import Mathlib.Algebra.Order.BigOperators.Group.List

/-!
# What the parser accepts

`problemParse` reads the longest description that a string begins with and ignores what is left over
(`problemParse_iff`); the problem it returns lists the numbers and the products of the description
exactly when the numbers fit an `int` and the products an `unsigned int`
(`problemParse_faithful_iff`).

* On a description followed by something it cannot read, the outcome is given by the tree alone
  (`parseFlags_append`, `parseNumber_append`, `parseSizes_append`, `problemParse_reads`).
* Whenever the parser returns, the string begins with a description (`parseNumber_ok`,
  `parseSizes_ok`, `exists_reads`).
-/

namespace BenchFFT

theorem noHead_nil (P : Char → Prop) : NoHead P [] := fun _ hc => nomatch hc

theorem noHead_cons {P : Char → Prop} {c : Char} {s : List Char} (hc : ¬P c) :
    NoHead P (c :: s) := by
  intro c' hc'
  rw [List.head?_cons, Option.mem_some] at hc'
  rwa [← hc']

/-! ### Flags -/

section Settings

variable {α : Type*} (group : Char → Option α)

theorem lastSetting_nil (x : α) : lastSetting group [] x = x := rfl

theorem lastSetting_cons (c : Char) (flags : List Char) (x : α) :
    lastSetting group (c :: flags) x = lastSetting group flags ((group c).getD x) := by
  unfold lastSetting
  rcases h : group c with _ | y
  · rw [List.filterMap_cons_none h]
    rfl
  · rw [List.filterMap_cons_some h, List.getLast?_cons]
    rfl

end Settings

/-- The problem with the settings of the flags. -/
def Problem.setFlags (p : Problem) (flags : List Char) : Problem :=
  { p with
    inPlace := lastSetting placeFlag flags p.inPlace
    split := lastSetting splitFlag flags p.split
    sign := lastSetting signFlag flags p.sign
    kind := lastSetting kindFlag flags p.kind }

theorem parseFlags_cons {c : Char} (hc : IsFlag c) (p : Problem) (s : List Char) :
    parseFlags p (c :: s) = parseFlags (p.setFlags [c]) s := by
  unfold IsFlag at hc
  simp only [List.mem_cons, List.not_mem_nil, or_false] at hc
  rcases hc with h | h | h | h | h | h | h | h | h <;>
    simp [parseFlags, Problem.setFlags, lastSetting_cons, lastSetting_nil, placeFlag, splitFlag,
      signFlag, kindFlag, h]

theorem setFlags_cons (p : Problem) (c : Char) (flags : List Char) :
    (p.setFlags [c]).setFlags flags = p.setFlags (c :: flags) := by
  simp only [Problem.setFlags, lastSetting_cons, lastSetting_nil]

theorem parseFlags_stop (p : Problem) {s : List Char} (hs : NoHead IsFlag s) :
    parseFlags p s = (p, s) := by
  rcases s with _ | ⟨c, s⟩
  · rfl
  · have hc : ¬IsFlag c := hs c rfl
    unfold IsFlag at hc
    simp only [List.mem_cons, List.not_mem_nil, or_false, not_or] at hc
    simp [parseFlags, hc]

theorem parseFlags_append (p : Problem) (flags : List {c : Char // IsFlag c}) {s : List Char}
    (hs : NoHead IsFlag s) :
    parseFlags p (flags.map Subtype.val ++ s) = (p.setFlags (flags.map Subtype.val), s) := by
  induction flags generalizing p with
  | nil => exact parseFlags_stop p hs
  | cons c flags ih =>
    rw [List.map_cons, List.cons_append, parseFlags_cons c.property, ih, setFlags_cons]

/-- Whatever the string, the flags end before something that is not a flag. -/
theorem exists_flags (s : List Char) : ∃ flags : List {c : Char // IsFlag c},
    ∃ s', s = flags.map Subtype.val ++ s' ∧ NoHead IsFlag s' := by
  induction s with
  | nil => exact ⟨[], [], rfl, noHead_nil _⟩
  | cons c s ih =>
    by_cases hc : IsFlag c
    · obtain ⟨flags, s', rfl, hs'⟩ := ih
      exact ⟨⟨c, hc⟩ :: flags, s', rfl, hs'⟩
    · exact ⟨[], c :: s, rfl, noHead_cons hc⟩

/-! ### Numbers -/

theorem scanInt_append {ds s : List Char} (hds : ∀ c ∈ ds, c.isDigit = true)
    (hs : NoHead (fun c => c.isDigit = true) s) (v : ℕ) :
    scanInt (Int32.ofNat v) (ds ++ s)
      = (Int32.ofNat (ds.foldl (fun v c => v * 10 + (c.toNat - '0'.toNat)) v), s) := by
  induction ds generalizing v with
  | nil =>
    rcases s with _ | ⟨c, s⟩
    · rfl
    · rw [List.nil_append, scanInt, if_neg (hs c rfl), List.foldl_nil]
  | cons c ds ih =>
    have hstep : Int32.ofNat v * 10 + Int32.ofNat (c.toNat - '0'.toNat)
        = Int32.ofNat (v * 10 + (c.toNat - '0'.toNat)) := by
      rw [Int32.ofNat_add, Int32.ofNat_mul]
      rfl
    rw [List.cons_append, scanInt, if_pos (hds c List.mem_cons_self), hstep,
      ih (fun c hc => hds c (List.mem_cons_of_mem _ hc)), List.foldl_cons]

theorem parseNumber_append (m : Numeral) {s : List Char}
    (hs : NoHead (fun c => c.isDigit = true) s) :
    parseNumber (m.digits ++ s) = if 0 < Int32.ofNat m.value then
      .ok (Int32.ofNat m.value, s) else .error .assertFailed := by
  have hhead : (m.digits ++ s).head?.any Char.isDigit = true := by
    rcases h : m.digits with _ | ⟨c, ds⟩
    · exact absurd h m.ne_nil
    · exact m.isDigit c (by rw [h]; exact List.mem_cons_self)
  have hscan := scanInt_append m.isDigit hs 0
  change scanInt 0 (m.digits ++ s) = (Int32.ofNat m.value, s) at hscan
  rw [parseNumber, benchAssert, if_pos hhead]
  show (benchAssert (0 < (scanInt 0 (m.digits ++ s)).1) >>=
    fun _ => Except.ok (scanInt 0 (m.digits ++ s))) = _
  rw [hscan]
  show (benchAssert (0 < Int32.ofNat m.value) >>= fun _ => Except.ok _) = _
  unfold benchAssert
  split_ifs <;> rfl

theorem parseNumber_cases (s : List Char) : parseNumber s = .error .assertFailed ∨
    ∃ m : Numeral, ∃ s', s = m.digits ++ s' ∧ NoHead (fun c => c.isDigit = true) s' ∧
      parseNumber s = .ok (Int32.ofNat m.value, s') := by
  -- the longest run of digits
  have hsplit : ∀ s : List Char, ∃ ds s', s = ds ++ s' ∧ (∀ c ∈ ds, c.isDigit = true) ∧
      NoHead (fun c => c.isDigit = true) s' := by
    intro s
    induction s with
    | nil => exact ⟨[], [], rfl, List.forall_mem_nil _, noHead_nil _⟩
    | cons c s ih =>
      by_cases hc : c.isDigit = true
      · obtain ⟨ds, s', rfl, hds, hs'⟩ := ih
        exact ⟨c :: ds, s', rfl, List.forall_mem_cons.mpr ⟨hc, hds⟩, hs'⟩
      · exact ⟨[], c :: s, rfl, List.forall_mem_nil _, noHead_cons hc⟩
  obtain ⟨ds, s', rfl, hds, hs'⟩ := hsplit s
  by_cases hne : ds = []
  · left
    have hhead : ¬(ds ++ s').head?.any Char.isDigit = true := by
      rw [hne, List.nil_append]
      rcases s' with _ | ⟨c, s'⟩
      · exact Bool.false_ne_true
      · exact hs' c rfl
    rw [parseNumber, benchAssert, if_neg hhead]
    rfl
  · have hparse := parseNumber_append ⟨ds, hne, hds⟩ hs'
    split_ifs at hparse with hpos
    · exact Or.inr ⟨⟨ds, hne, hds⟩, s', rfl, hs', hparse⟩
    · exact Or.inl hparse

/-! ### Lists of numbers -/

theorem isSep_iff {c : Char} : isSep c = true ↔ IsSep c := by
  simp [isSep, IsSep, or_assoc]

theorem isVectorSep_iff {c : Char} : isVectorSep c = true ↔ IsVectorSep c := by
  simp [isVectorSep, IsVectorSep, or_assoc]

/-- A property of the members of a list of characters, by evaluation. -/
theorem of_mem_of_all {P : Char → Prop} [DecidablePred P] {l : List Char}
    (h : l.all (fun c => decide (P c)) = true) {c : Char} (hc : c ∈ l) : P c :=
  of_decide_eq_true (List.all_eq_true.mp h c hc)

theorem IsSep.not_isDigit {c : Char} (hc : IsSep c) : ¬c.isDigit = true :=
  of_mem_of_all (P := fun c => ¬c.isDigit = true) (by decide) hc

theorem IsVectorSep.not_isDigit {c : Char} (hc : IsVectorSep c) : ¬c.isDigit = true :=
  of_mem_of_all (P := fun c => ¬c.isDigit = true) (by decide) hc

theorem IsVectorSep.not_isSep {c : Char} (hc : IsVectorSep c) : ¬IsSep c :=
  of_mem_of_all (P := fun c => c ∉ ['x', 'X', '*', ',']) (by decide) hc

/-- What is stored for each number. -/
def stored (ms : List Numeral) : List UInt32 := ms.map fun m => UInt32.ofNat m.value

theorem parseSizes_next {room : ℕ} {ns : List UInt32} {size : UInt32} {s t : List Char} {c : Char}
    {m : Numeral} (h : parseNumber s = .ok (Int32.ofNat m.value, c :: t)) (hc : IsSep c) :
    parseSizes (room + 1) ns size s = if ns.length + 1 < maxRank then
        parseSizes room (ns ++ [UInt32.ofNat m.value]) (size * UInt32.ofNat m.value) t
      else .error .assertFailed := by
  rw [parseSizes, h]
  show (benchAssert ((ns ++ [_]).length < maxRank) >>= fun _ => ite _ _ _) = _
  rw [List.length_append, List.length_singleton, if_pos (isSep_iff.mpr hc)]
  unfold benchAssert
  split_ifs <;> rfl

theorem parseSizes_stop {room : ℕ} {ns : List UInt32} {size : UInt32} {s s' : List Char}
    {m : Numeral} (h : parseNumber s = .ok (Int32.ofNat m.value, s')) (hs' : NoHead IsSep s') :
    parseSizes (room + 1) ns size s = if ns.length + 1 < maxRank then
        .ok (ns ++ [UInt32.ofNat m.value], size * UInt32.ofNat m.value, s')
      else .error .assertFailed := by
  rw [parseSizes, h]
  rcases s' with _ | ⟨c, t⟩
  · show (benchAssert ((ns ++ [_]).length < maxRank) >>= fun _ => _) = _
    rw [List.length_append, List.length_singleton]
    unfold benchAssert
    split_ifs <;> rfl
  · show (benchAssert ((ns ++ [_]).length < maxRank) >>= fun _ => ite _ _ _) = _
    rw [List.length_append, List.length_singleton, if_neg (mt isSep_iff.mp (hs' c rfl))]
    unfold benchAssert
    split_ifs <;> rfl

theorem parseSizes_error {room : ℕ} {ns : List UInt32} {size : UInt32} {s : List Char}
    (h : parseNumber s = .error .assertFailed) :
    parseSizes (room + 1) ns size s = .error .assertFailed := by
  rw [parseSizes, h]
  rfl

/-- The loop on a list of numbers, followed by something it does not go on with. -/
theorem parseSizes_append {s : List Char} (hd : NoHead (fun c => c.isDigit = true) s)
    (hs : NoHead IsSep s) (l : NumberList) (room : ℕ) (ns : List UInt32) (size : UInt32)
    (h : ns.length + room = maxRank) (hroom : 0 < room) :
    parseSizes room ns size (l.text ++ s) =
      if (∀ m ∈ l.numerals, 0 < Int32.ofNat m.value) ∧ ns.length + l.numerals.length < maxRank then
        .ok (ns ++ stored l.numerals, (stored l.numerals).foldl (· * ·) size, s)
      else .error .assertFailed := by
  obtain ⟨m, r⟩ := l
  induction r generalizing m room ns size with
  | nil =>
    obtain ⟨room, rfl⟩ : ∃ k, room = k + 1 := ⟨room - 1, by omega⟩
    have htext : NumberList.text ⟨m, []⟩ = m.digits := by simp [NumberList.text]
    have hnum : NumberList.numerals ⟨m, []⟩ = [m] := rfl
    have hparse := parseNumber_append m hd
    rw [htext, hnum, List.length_singleton]
    by_cases hpos : 0 < Int32.ofNat m.value
    · rw [if_pos hpos] at hparse
      rw [parseSizes_stop hparse hs]
      simp only [List.forall_mem_singleton, hpos, true_and]
      rfl
    · rw [if_neg hpos] at hparse
      rw [parseSizes_error hparse, if_neg]
      simp [hpos]
  | cons cm r ih =>
    obtain ⟨c, m'⟩ := cm
    obtain ⟨room, rfl⟩ : ∃ k, room = k + 1 := ⟨room - 1, by omega⟩
    have htext : NumberList.text ⟨m, (c, m') :: r⟩ ++ s
        = m.digits ++ c.val :: (NumberList.text ⟨m', r⟩ ++ s) := by
      simp [NumberList.text]
    have hnum : NumberList.numerals ⟨m, (c, m') :: r⟩ = m :: NumberList.numerals ⟨m', r⟩ := rfl
    have hparse := parseNumber_append m (noHead_cons (s := NumberList.text ⟨m', r⟩ ++ s)
      (P := fun c => c.isDigit = true) c.property.not_isDigit)
    rw [htext, hnum]
    by_cases hpos : 0 < Int32.ofNat m.value
    · rw [if_pos hpos] at hparse
      rw [parseSizes_next hparse c.property]
      by_cases hlt : ns.length + 1 < maxRank
      · rw [if_pos hlt, ih room _ _ (by
          rw [List.length_append, List.length_singleton]
          omega) (by omega)]
        simp only [List.forall_mem_cons, hpos, true_and, List.length_append, List.length_cons,
          List.length_nil, List.append_assoc, stored, List.map_cons, List.foldl_cons]
        congr 2
        rw [Nat.add_assoc, Nat.add_comm 1]
      · rw [if_neg hlt, if_neg]
        rintro ⟨-, hlen⟩
        rw [List.length_cons] at hlen
        omega
    · rw [if_neg hpos] at hparse
      rw [parseSizes_error hparse, if_neg]
      simp [hpos]

/-- The loop fails an assertion or reads a list of numbers; it never stores out of bounds. -/
theorem parseSizes_cases (room : ℕ) (ns : List UInt32) (size : UInt32) (s : List Char)
    (h : ns.length + room = maxRank) (hroom : 0 < room) :
    parseSizes room ns size s = .error .assertFailed ∨
      ∃ l : NumberList, ∃ s', s = l.text ++ s' ∧ NoHead (fun c => c.isDigit = true) s' ∧
        NoHead IsSep s' := by
  induction room generalizing ns size s with
  | zero => exact absurd hroom (Nat.lt_irrefl 0)
  | succ room ih =>
    rcases parseNumber_cases s with herr | ⟨m, s', rfl, hs', hparse⟩
    · exact Or.inl (parseSizes_error herr)
    rcases s' with _ | ⟨c, t⟩
    · exact Or.inr ⟨⟨m, []⟩, [], by simp [NumberList.text], hs', noHead_nil _⟩
    by_cases hc : IsSep c
    · rw [parseSizes_next hparse hc]
      split_ifs with hlt
      · rcases ih (ns ++ [UInt32.ofNat m.value]) (size * UInt32.ofNat m.value) t
          (by rw [List.length_append, List.length_singleton]; omega) (by omega) with
          herr | ⟨l, s', rfl, hs', hsep⟩
        · exact Or.inl herr
        · exact Or.inr ⟨⟨m, (⟨c, hc⟩, l.first) :: l.rest⟩, s',
            by simp [NumberList.text], hs', hsep⟩
      · exact Or.inl rfl
    · exact Or.inr ⟨⟨m, []⟩, c :: t, by simp [NumberList.text], hs', noHead_cons hc⟩

/-! ### The whole description -/

theorem toLower_of_isDigit {c : Char} (hc : c.isDigit = true) : c.toLower = c := by
  simp only [Char.isDigit, Bool.and_eq_true, decide_eq_true_eq, UInt32.le_iff_toNat_le] at hc
  refine dif_neg fun h => ?_
  exact absurd (le_trans (UInt32.le_iff_toNat_le.mp h.1) hc.2) (by decide)

theorem IsFlag.not_isDigit {c : Char} (hc : IsFlag c) : ¬c.isDigit = true := by
  intro hd
  rw [IsFlag, toLower_of_isDigit hd] at hc
  exact of_mem_of_all (P := fun c => ¬c.isDigit = true) (by decide) hc hd

namespace Description

/-- Every number is positive as an `int`, and there is room for the lists. -/
def Storable (d : Description) : Prop :=
  ((∀ m ∈ d.sizes.numerals, 0 < Int32.ofNat m.value) ∧ d.sizes.numerals.length < maxRank) ∧
    (∀ m ∈ d.vnumerals, 0 < Int32.ofNat m.value) ∧ d.vnumerals.length < maxRank

instance (d : Description) : Decidable d.Storable :=
  inferInstanceAs (Decidable ((_ ∧ _) ∧ _ ∧ _))

/-- What the parser makes of a description. -/
def parsed (d : Description) (s : List Char) : Problem :=
  { (initialProblem s).setFlags (d.flags.map Subtype.val) with
    n := stored d.sizes.numerals
    size := (stored d.sizes.numerals).foldl (· * ·) 1
    vn := stored d.vnumerals
    vsize := (stored d.vnumerals).foldl (· * ·) 1 }

end Description

theorem NumberList.head_text (l : NumberList) (s : List Char) :
    ∃ c t, l.text ++ s = c :: t ∧ c.isDigit = true := by
  obtain ⟨⟨ds, hne, hds⟩, r⟩ := l
  rcases ds with _ | ⟨c, ds⟩
  · exact absurd rfl hne
  · exact ⟨c, _, rfl, hds c List.mem_cons_self⟩

/-- After the flags the parser reads numbers, and after a vector separator more numbers. -/
theorem problemParse_flags (flags : List {c : Char // IsFlag c}) {t : List Char}
    (ht : NoHead IsFlag t) :
    problemParse (flags.map Subtype.val ++ t) =
      let p := (initialProblem (flags.map Subtype.val ++ t)).setFlags (flags.map Subtype.val)
      (parseSizes maxRank [] 1 t).bind fun (n, size, s) =>
        match s with
        | c :: s => if isVectorSep c then
            (parseSizes maxRank [] 1 s).bind fun (vn, vsize, _) =>
              .ok { p with n, size, vn, vsize }
          else .ok { p with n, size }
        | [] => .ok { p with n, size } := by
  rw [problemParse, parseFlags_append _ flags ht]
  rfl

theorem noHead_isFlag_text (l : NumberList) (s : List Char) : NoHead IsFlag (l.text ++ s) := by
  obtain ⟨c, t, htext, hc⟩ := l.head_text s
  rw [htext]
  exact noHead_cons fun hflag => hflag.not_isDigit hc

theorem parseSizes_text {s : List Char} (hd : NoHead (fun c => c.isDigit = true) s)
    (hs : NoHead IsSep s) (l : NumberList) :
    parseSizes maxRank [] 1 (l.text ++ s) =
      if (∀ m ∈ l.numerals, 0 < Int32.ofNat m.value) ∧ l.numerals.length < maxRank then
        .ok (stored l.numerals, (stored l.numerals).foldl (· * ·) 1, s)
      else .error .assertFailed := by
  rw [parseSizes_append hd hs l maxRank [] 1 rfl (by decide), List.nil_append, List.length_nil,
    Nat.zero_add]

/-- The outcome on a string that begins with a description depends on the description alone. -/
theorem problemParse_reads {s rest : List Char} {d : Description} (h : Reads s d rest) :
    problemParse s = if d.Storable then .ok (d.parsed s) else .error .assertFailed := by
  obtain ⟨rfl, hd, hs, hv⟩ := h
  obtain ⟨flags, sizes, vector⟩ := d
  rcases vector with _ | ⟨c, l⟩
  · have htext : Description.text ⟨flags, sizes, none⟩ ++ rest
        = flags.map Subtype.val ++ (sizes.text ++ rest) := by
      simp [Description.text, Description.tail]
    have hstop : NoHead IsVectorSep rest := hv rfl
    rw [htext, problemParse_flags flags (noHead_isFlag_text _ _), parseSizes_text hd hs]
    by_cases h1 : (∀ m ∈ sizes.numerals, 0 < Int32.ofNat m.value) ∧ sizes.numerals.length < maxRank
    · have hst : Description.Storable ⟨flags, sizes, none⟩ :=
        ⟨h1, List.forall_mem_nil _, show 0 < maxRank by decide⟩
      rw [if_pos h1, if_pos hst]
      -- the parser stops, whatever follows
      rcases rest with _ | ⟨c, t⟩
      · rfl
      · exact if_neg (mt isVectorSep_iff.mp (hstop c rfl))
    · rw [if_neg h1, if_neg fun hst : Description.Storable _ => h1 hst.1]
      rfl
  · have htext : Description.text ⟨flags, sizes, some (c, l)⟩ ++ rest
        = flags.map Subtype.val ++ (sizes.text ++ (c.val :: (l.text ++ rest))) := by
      simp [Description.text, Description.tail]
    rw [htext, problemParse_flags flags (noHead_isFlag_text _ _),
      parseSizes_text (noHead_cons c.property.not_isDigit) (noHead_cons c.property.not_isSep)]
    by_cases h1 : (∀ m ∈ sizes.numerals, 0 < Int32.ofNat m.value) ∧ sizes.numerals.length < maxRank
    · rw [if_pos h1]
      show ite _ _ _ = _
      rw [if_pos (isVectorSep_iff.mpr c.property), parseSizes_text hd hs]
      by_cases h2 : (∀ m ∈ l.numerals, 0 < Int32.ofNat m.value) ∧ l.numerals.length < maxRank
      · have hst : Description.Storable ⟨flags, sizes, some (c, l)⟩ := ⟨h1, h2⟩
        rw [if_pos h2, if_pos hst]
        rfl
      · have hst : ¬Description.Storable ⟨flags, sizes, some (c, l)⟩ := fun hst => h2 hst.2
        rw [if_neg h2, if_neg hst]
        rfl
    · rw [if_neg h1, if_neg fun hst : Description.Storable _ => h1 hst.1]
      rfl

/-- The parser fails an assertion unless the string begins with a description. -/
theorem exists_reads (s : List Char) :
    problemParse s = .error .assertFailed ∨ ∃ d rest, Reads s d rest := by
  obtain ⟨flags, t, rfl, ht⟩ := exists_flags s
  rw [problemParse_flags flags ht]
  rcases parseSizes_cases maxRank [] 1 t rfl (by decide) with herr | ⟨l, s, rfl, hd, hs⟩
  · left
    rw [herr]
    rfl
  have htext : ∀ s, flags.map Subtype.val ++ (l.text ++ s)
      = Description.text ⟨flags, l, none⟩ ++ s := fun s => by
    simp [Description.text, Description.tail]
  -- a vector size follows, or nothing that is read
  by_cases hv : NoHead IsVectorSep s
  · exact Or.inr ⟨⟨flags, l, none⟩, s, htext s, hd, hs, fun _ => hv⟩
  · obtain ⟨c, t, rfl, hc⟩ : ∃ c t, s = c :: t ∧ IsVectorSep c := by
      rcases s with _ | ⟨c, t⟩
      · exact absurd (noHead_nil _) hv
      · exact ⟨c, t, rfl, by_contra fun hc => hv (noHead_cons hc)⟩
    rcases parseSizes_cases maxRank [] 1 t rfl (by decide) with herr | ⟨l', s, rfl, hd', hs'⟩
    · left
      rw [parseSizes_text hd hs]
      split_ifs
      · show ite _ _ _ = _
        rw [if_pos (isVectorSep_iff.mpr hc), herr]
        rfl
      · rfl
    · refine Or.inr ⟨⟨flags, l, some (⟨c, hc⟩, l')⟩, s, ?_, hd', hs', nofun⟩
      simp [Description.text, Description.tail]

/-! ### The numbers stored -/

theorem toNat_ofNat (v : ℕ) : (UInt32.ofNat v).toNat = v % 2 ^ 32 := rfl

/-- A numeral that fits an `int` is positive as an `int` if and only if it is positive. -/
theorem ofNat_pos_iff {v : ℕ} (hv : v < 2 ^ 31) : 0 < Int32.ofNat v ↔ 0 < v := by
  rw [Int32.lt_iff_toInt_lt, Int32.toInt_ofNat_of_lt hv, Int32.toInt_zero]
  exact Int.natCast_pos

theorem toNat_ofNat_bounds {v : ℕ} (hv : 0 < Int32.ofNat v) :
    0 < (UInt32.ofNat v).toNat ∧ (UInt32.ofNat v).toNat < 2 ^ 31 := by
  rw [toNat_ofNat]
  rw [Int32.lt_iff_toInt_lt, Int32.toInt_ofNat', Int32.toInt_zero, Int.bmod_def] at hv
  have hsize : Int32.size = 2 ^ 32 := rfl
  rw [hsize] at hv
  split_ifs at hv <;> omega

/-- What is stored for a positive `int` is the numeral, when the numeral fits an `int`. -/
theorem toNat_ofNat_eq_iff {v : ℕ} (hv : 0 < Int32.ofNat v) :
    (UInt32.ofNat v).toNat = v ↔ v < 2 ^ 31 := by
  have hlt := (toNat_ofNat_bounds hv).2
  rw [toNat_ofNat] at hlt ⊢
  omega

theorem map_toNat_stored_eq_iff {ms : List Numeral} (hms : ∀ m ∈ ms, 0 < Int32.ofNat m.value) :
    (stored ms).map UInt32.toNat = ms.map Numeral.value ↔ ∀ m ∈ ms, m.value < 2 ^ 31 := by
  induction ms with
  | nil => exact ⟨fun _ => List.forall_mem_nil _, fun _ => rfl⟩
  | cons m ms ih =>
    rw [List.forall_mem_cons] at hms ⊢
    rw [stored, List.map_cons, List.map_cons, List.map_cons, List.cons.injEq,
      toNat_ofNat_eq_iff hms.1]
    exact and_congr_right fun _ => ih hms.2

/-- The running product is the product modulo `2 ^ 32`. -/
theorem toNat_foldl_mul (ns : List UInt32) (size : UInt32) :
    (ns.foldl (· * ·) size).toNat = size.toNat * (ns.map UInt32.toNat).prod % 2 ^ 32 := by
  induction ns generalizing size with
  | nil =>
    rw [List.foldl_nil, List.map_nil, List.prod_nil, Nat.mul_one]
    exact (Nat.mod_eq_of_lt size.toNat_lt).symm
  | cons n ns ih =>
    rw [List.foldl_cons, ih, UInt32.toNat_mul, List.map_cons, List.prod_cons, Nat.mod_mul_mod,
      Nat.mul_assoc]

theorem toNat_foldl_mul_eq_iff (ns : List UInt32) :
    (ns.foldl (· * ·) 1).toNat = (ns.map UInt32.toNat).prod ↔
      (ns.map UInt32.toNat).prod < 2 ^ 32 := by
  rw [toNat_foldl_mul, show (1 : UInt32).toNat = 1 from rfl, Nat.one_mul]
  exact ⟨fun h => h ▸ Nat.mod_lt _ (by decide), Nat.mod_eq_of_lt⟩

/-! ### Faithfulness -/

/-- The problem lists the numbers of the description and their exact products, and no list has
more entries than the arrays. -/
structure Faithful (p : Problem) (d : Description) : Prop where
  dims : p.dims = d.sizes.values
  vdims : p.vdims = d.vvalues
  pos : ∀ x ∈ p.dims, 0 < x
  vpos : ∀ x ∈ p.vdims, 0 < x
  size : p.size.toNat = p.dims.prod
  vsize : p.vsize.toNat = p.vdims.prod
  rank_le : p.rank ≤ maxRank
  vrank_le : p.vrank ≤ maxRank

theorem parsed_faithful_iff {d : Description} (hd : d.Storable) (s : List Char) :
    Faithful (d.parsed s) d ↔ d.Fits := by
  -- a size is stored as it is below `2^31`, and a product if it fits a word
  have hdims := map_toNat_stored_eq_iff hd.1.1
  have hvdims := map_toNat_stored_eq_iff hd.2.1
  have hsize := toNat_foldl_mul_eq_iff (stored d.sizes.numerals)
  have hvsize := toNat_foldl_mul_eq_iff (stored d.vnumerals)
  constructor
  · intro h
    refine ⟨hdims.mp h.dims, hvdims.mp h.vdims, ?_, ?_⟩
    · have hlt := hsize.mp h.size
      rwa [hdims.mpr (hdims.mp h.dims)] at hlt
    · have hlt := hvsize.mp h.vsize
      rwa [hvdims.mpr (hvdims.mp h.vdims)] at hlt
  · intro h
    have hpos : ∀ ms : List Numeral, (∀ m ∈ ms, 0 < Int32.ofNat m.value) →
        (∀ m ∈ ms, m.value < 2 ^ 31) → ∀ x ∈ ms.map Numeral.value, 0 < x := by
      intro ms hms hlt x hx
      obtain ⟨m, hm, rfl⟩ := List.mem_map.mp hx
      exact (ofNat_pos_iff (hlt m hm)).mp (hms m hm)
    have heq := hdims.mpr h.sizes_lt
    have hveq := hvdims.mpr h.vector_lt
    refine ⟨heq, hveq, ?_, ?_, hsize.mpr ?_, hvsize.mpr ?_, ?_, ?_⟩
    · rw [show (d.parsed s).dims = _ from heq]
      exact hpos _ hd.1.1 h.sizes_lt
    · rw [show (d.parsed s).vdims = _ from hveq]
      exact hpos _ hd.2.1 h.vector_lt
    · rw [heq]
      exact h.size_lt
    · rw [hveq]
      exact h.vsize_lt
    · exact le_of_eq_of_le (List.length_map _) hd.1.2.le
    · exact le_of_eq_of_le (List.length_map _) hd.2.2.le

/-- **When a parsed problem is faithful**: nothing is ever stored outside the arrays, and the
problem returned lists the numbers of the description and their products exactly when the numbers
fit an `int` and the products an `unsigned int`. -/
theorem problemParse_faithful_iff (s : List Char) : problemParse s ≠ .error .outOfBounds ∧
    ∀ p, problemParse s = .ok p → (∃ d rest, Reads s d rest) ∧
      ∀ d rest, Reads s d rest → (Faithful p d ↔ d.Fits) := by
  have hcases : ∀ d rest, Reads s d rest →
      problemParse s = .error .assertFailed ∨ d.Storable ∧ problemParse s = .ok (d.parsed s) := by
    intro d rest h
    rw [problemParse_reads h]
    split_ifs with hst
    · exact Or.inr ⟨hst, rfl⟩
    · exact Or.inl rfl
  constructor
  · rcases exists_reads s with herr | ⟨d, rest, h⟩
    · rw [herr]
      decide
    · rcases hcases d rest h with herr | ⟨-, hok⟩
      · rw [herr]
        decide
      · rw [hok]
        exact nofun
  · intro p hp
    refine ⟨(exists_reads s).resolve_left (by rw [hp]; exact nofun), fun d rest h => ?_⟩
    rcases hcases d rest h with herr | ⟨hst, hok⟩
    · rw [hp] at herr
      exact nomatch herr
    · rw [hp, Except.ok.injEq] at hok
      rw [hok]
      exact parsed_faithful_iff hst s

/-- What is returned for `65536x65536`: the size is `2 ^ 32`, which `p->size` cannot hold. -/
def of65536x65536 : Problem :=
  { initialProblem "65536x65536".toList with
    n := [65536, 65536]
    size := 0 }

theorem not_faithful_65536x65536 :
    problemParse "65536x65536".toList = .ok of65536x65536 ∧
      ∀ d rest, Reads "65536x65536".toList d rest → ¬Faithful of65536x65536 d := by
  refine ⟨rfl, fun d rest _ h => ?_⟩
  have hsize := h.size
  revert hsize
  decide

/-- The problem `r32x4v2`. -/
def r32x4v2 : Problem :=
  { initialProblem "r32x4v2".toList with
    kind := .real
    n := [32, 4]
    size := 128
    vn := [2]
    vsize := 2 }

theorem faithful_r32x4v2 : (∃ d rest, Reads "r32x4v2".toList d rest) ∧
    ∀ d rest, Reads "r32x4v2".toList d rest → (Faithful r32x4v2 d ↔ d.Fits) :=
  (problemParse_faithful_iff "r32x4v2".toList).2 r32x4v2 rfl

/-! ### The language -/

theorem storable_iff {d : Description} (hd : d.Fits) : d.Storable ↔ d.Accepted := by
  have hpos : ∀ ms : List Numeral, (∀ m ∈ ms, m.value < 2 ^ 31) →
      ((∀ m ∈ ms, 0 < Int32.ofNat m.value) ↔ ∀ m ∈ ms, 0 < m.value) :=
    fun ms hms => forall₂_congr fun m hm => ofNat_pos_iff (hms m hm)
  unfold Description.Storable
  rw [hpos _ hd.sizes_lt, hpos _ hd.vector_lt]
  exact ⟨fun h => ⟨h.1.1, h.2.1, h.1.2, h.2.2⟩,
    fun h => ⟨⟨h.sizes_pos, h.rank_lt⟩, h.vector_pos, h.vrank_lt⟩⟩

theorem parsed_describes {d : Description} (hd : d.Fits) (hst : d.Storable) (s : List Char) :
    d.Describes (d.parsed s) :=
  ⟨rfl, rfl, rfl, rfl, (map_toNat_stored_eq_iff hst.1.1).mpr hd.sizes_lt,
    (map_toNat_stored_eq_iff hst.2.1).mpr hd.vector_lt⟩

/-- **What the parser accepts.**  A string whose numbers and products fit is parsed if and only if
it begins with a description that cannot be read any further; what follows the description is
ignored, the problem returned is the one described, and any other string fails an assertion. -/
theorem problemParse_iff (s : List Char) (hfits : ∀ d rest, Reads s d rest → d.Fits) :
    ((∃ p, problemParse s = .ok p) ↔ ∃ d rest, Reads s d rest ∧ d.Accepted) ∧
      (∀ p d rest, problemParse s = .ok p → Reads s d rest → d.Describes p) ∧
      ((¬∃ d rest, Reads s d rest ∧ d.Accepted) → problemParse s = .error .assertFailed) := by
  refine ⟨⟨?_, ?_⟩, ?_, ?_⟩
  · rintro ⟨p, hp⟩
    obtain ⟨d, rest, h⟩ := (exists_reads s).resolve_left (by rw [hp]; exact nofun)
    rw [problemParse_reads h] at hp
    split_ifs at hp with hst
    exact ⟨d, rest, h, (storable_iff (hfits d rest h)).mp hst⟩
  · rintro ⟨d, rest, h, hacc⟩
    exact ⟨_, (problemParse_reads h).trans (if_pos ((storable_iff (hfits d rest h)).mpr hacc))⟩
  · intro p d rest hp h
    rw [problemParse_reads h] at hp
    split_ifs at hp with hst
    rw [Except.ok.injEq] at hp
    rw [← hp]
    exact parsed_describes (hfits d rest h) hst s
  · intro hno
    rcases exists_reads s with herr | ⟨d, rest, h⟩
    · exact herr
    · rw [problemParse_reads h, if_neg]
      exact fun hst => hno ⟨d, rest, h, (storable_iff (hfits d rest h)).mp hst⟩

/-! ### A string is read in one way -/

theorem append_unique {P : Char → Prop} {a a' b b' : List Char} (ha : ∀ c ∈ a, P c)
    (ha' : ∀ c ∈ a', P c) (hb : NoHead P b) (hb' : NoHead P b') (h : a ++ b = a' ++ b') :
    a = a' ∧ b = b' := by
  induction a generalizing a' with
  | nil =>
    rcases a' with _ | ⟨c, a'⟩
    · exact ⟨rfl, h⟩
    · rw [List.nil_append, List.cons_append] at h
      exact absurd (ha' c List.mem_cons_self) (hb c (by rw [h]; rfl))
  | cons c a ih =>
    rcases a' with _ | ⟨c', a'⟩
    · rw [List.nil_append, List.cons_append] at h
      exact absurd (ha c List.mem_cons_self) (hb' c (by rw [← h]; rfl))
    · rw [List.cons_append, List.cons_append, List.cons.injEq] at h
      obtain ⟨rfl, htail⟩ := h
      obtain ⟨rfl, rfl⟩ := ih (fun c hc => ha c (List.mem_cons_of_mem _ hc))
        (fun c hc => ha' c (List.mem_cons_of_mem _ hc)) htail
      exact ⟨rfl, rfl⟩

theorem NumberList.text_unique {l l' : NumberList} {s s' : List Char}
    (hd : NoHead (fun c => c.isDigit = true) s) (hd' : NoHead (fun c => c.isDigit = true) s')
    (hs : NoHead IsSep s) (hs' : NoHead IsSep s') (h : l.text ++ s = l'.text ++ s') :
    l = l' ∧ s = s' := by
  -- what follows the first number: the separator of the next one, or the end of the list
  have hnext : ∀ (r : List ({c : Char // IsSep c} × Numeral)) {s : List Char},
      NoHead (fun c => c.isDigit = true) s →
      NoHead (fun c => c.isDigit = true) ((r.flatMap fun m => m.1.val :: m.2.digits) ++ s) := by
    intro r s hd
    rcases r with _ | ⟨⟨c, m⟩, r⟩
    · exact hd
    · exact noHead_cons c.property.not_isDigit
  obtain ⟨m, r⟩ := l
  obtain ⟨m', r'⟩ := l'
  induction r generalizing m m' r' with
  | nil =>
    rw [text, text, List.append_assoc, List.append_assoc] at h
    obtain ⟨hm, htail⟩ := append_unique m.isDigit m'.isDigit (hnext [] hd) (hnext r' hd') h
    obtain rfl := Numeral.ext hm
    rcases r' with _ | ⟨⟨c, m'⟩, r'⟩
    · exact ⟨rfl, htail⟩
    · exact absurd c.property (hs c (by rw [show s = _ from htail]; rfl))
  | cons cm r ih =>
    obtain ⟨c, m₂⟩ := cm
    rw [text, text, List.append_assoc, List.append_assoc] at h
    obtain ⟨hm, htail⟩ := append_unique m.isDigit m'.isDigit (hnext (_ :: r) hd) (hnext r' hd') h
    obtain rfl := Numeral.ext hm
    rcases r' with _ | ⟨⟨c', m₂'⟩, r'⟩
    · exact absurd c.property (hs' c (by rw [show s' = _ from htail.symm]; rfl))
    · rw [List.flatMap_cons, List.flatMap_cons, List.cons_append, List.cons_append,
        List.cons_append, List.cons_append, List.cons.injEq] at htail
      obtain ⟨hc, htail⟩ := htail
      obtain ⟨heq, rfl⟩ := ih m₂ m₂' r' htail
      rw [NumberList.mk.injEq] at heq
      obtain ⟨rfl, rfl⟩ := heq
      obtain rfl := Subtype.ext hc
      exact ⟨rfl, rfl⟩

/-- A string determines the description that it is read as, and what is left over. -/
theorem Reads.unique {s rest rest' : List Char} {d d' : Description} (h : Reads s d rest)
    (h' : Reads s d' rest') : d = d' ∧ rest = rest' := by
  obtain ⟨heq, hd, hs, hv⟩ := h
  obtain ⟨heq', hd', hs', hv'⟩ := h'
  rw [heq] at heq'
  obtain ⟨flags, sizes, vector⟩ := d
  obtain ⟨flags', sizes', vector'⟩ := d'
  simp only [Description.text, Description.tail, List.append_assoc] at heq'
  have hmem : ∀ flags : List {c : Char // IsFlag c}, ∀ c ∈ flags.map Subtype.val, IsFlag c := by
    intro flags c hc
    obtain ⟨c, -, rfl⟩ := List.mem_map.mp hc
    exact c.property
  obtain ⟨hflags, htail⟩ := append_unique (hmem _) (hmem _) (noHead_isFlag_text _ _)
    (noHead_isFlag_text _ _) heq'
  obtain rfl := List.map_injective_iff.mpr Subtype.val_injective hflags
  -- a separator is no part of a rest, so both descriptions have a vector or neither
  rcases vector with _ | ⟨c, l⟩ <;> rcases vector' with _ | ⟨c', l'⟩
  · obtain ⟨rfl, rfl⟩ := NumberList.text_unique hd hd' hs hs' htail
    exact ⟨rfl, rfl⟩
  · obtain ⟨-, hrest⟩ := NumberList.text_unique hd (noHead_cons c'.property.not_isDigit) hs
      (noHead_cons c'.property.not_isSep) htail
    exact absurd c'.property (hv rfl _ (by rw [show rest = _ from hrest]; rfl))
  · obtain ⟨-, hrest⟩ := NumberList.text_unique (noHead_cons c.property.not_isDigit) hd'
      (noHead_cons c.property.not_isSep) hs' htail
    exact absurd c.property (hv' rfl _ (by rw [show rest' = _ from hrest.symm]; rfl))
  · obtain ⟨rfl, hrest⟩ := NumberList.text_unique (noHead_cons c.property.not_isDigit)
      (noHead_cons c'.property.not_isDigit) (noHead_cons c.property.not_isSep)
      (noHead_cons c'.property.not_isSep) htail
    obtain ⟨hc, hlist⟩ := List.cons.inj hrest
    obtain ⟨rfl, rfl⟩ := NumberList.text_unique hd hd' hs hs' hlist
    obtain rfl := Subtype.ext hc
    exact ⟨rfl, rfl⟩

/-- The description `64`. -/
def size64 : Description where
  flags := []
  sizes := ⟨⟨['6', '4'], by decide, List.all_eq_true.mp (by decide)⟩, []⟩
  vector := none

theorem fits_64 {s rest : List Char} (hs : Reads s size64 rest) (d : Description)
    (rest' : List Char) (h : Reads s d rest') : d.Fits := by
  obtain ⟨rfl, -⟩ := hs.unique h
  refine ⟨?_, ?_, ?_, ?_⟩ <;> decide

theorem reads_64z : Reads "64z".toList size64 ['z'] :=
  ⟨rfl, noHead_cons (by decide), noHead_cons (by unfold IsSep; decide),
    fun _ => noHead_cons (by unfold IsVectorSep; decide)⟩

/-- `64z` is parsed, although as a whole it is not a description. -/
theorem parses_64z : (∃ p, problemParse "64z".toList = .ok p) ∧
    (∀ d rest, Reads "64z".toList d rest → d.Fits) ∧ ¬∃ d : Description, "64z".toList = d.text := by
  refine ⟨⟨_, rfl⟩, fits_64 reads_64z, ?_⟩
  rintro ⟨d, hd⟩
  have hread : Reads "64z".toList d [] :=
    ⟨by rw [List.append_nil, hd], noHead_nil _, noHead_nil _, fun _ => noHead_nil _⟩
  exact absurd (reads_64z.unique hread).2 (List.cons_ne_nil _ _)

theorem problemParse_iff_64z : (∃ p, problemParse "64z".toList = .ok p) ∧
    ∀ p, problemParse "64z".toList = .ok p → size64.Describes p := by
  have h := problemParse_iff "64z".toList (fits_64 reads_64z)
  refine ⟨h.1.mpr ⟨size64, ['z'], reads_64z, ?_⟩, fun p hp => h.2.1 p size64 _ hp reads_64z⟩
  exact ⟨by decide, by decide, by decide, by decide⟩

end BenchFFT
