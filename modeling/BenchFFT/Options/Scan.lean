import BenchFFT.Options.Getopt

/-!
# The options of a command line

What a command line says, without regard to how it is scanned.  A `Grammar` knows the options; its
`scan` reads the arguments from left to right, each one once, and separates the events (one for each
option) and the arguments that are options from the operands.  Nothing is moved in place.

`GetoptCall.grammar` is the grammar that `optstring` and the table of long options describe.
-/

namespace BenchFFT

/-- What a call of `getopt` reports: the code it returns, and `optarg`. -/
structure Event where
  code : ℤ
  arg : Option (List Char)
  deriving DecidableEq, Repr

/-- What a table of long options has for a name. -/
inductive LongMatch where
  | unknown
  | ambiguous
  | unique (p : LongOption)
  deriving DecidableEq, Repr

/-- Two options between which an abbreviation does not have to tell. -/
def LongOption.Agrees (p q : LongOption) : Prop :=
  p.hasArg = q.hasArg ∧ p.flag = q.flag ∧ p.val = q.val

instance (p q : LongOption) : Decidable (p.Agrees q) :=
  inferInstanceAs (Decidable (_ ∧ _ ∧ _))

/-- The options whose names start with `name`. -/
def abbreviated (name : List Char) (longopts : List LongOption) : List LongOption :=
  longopts.filter fun p => name.isPrefixOf p.name

/-- An exact match counts before any abbreviation; otherwise all of the options that the name
abbreviates have to agree. -/
def matchLong (name : List Char) (longopts : List LongOption) : LongMatch :=
  match longopts.find? (fun p => p.name = name) with
  | some p => .unique p
  | none =>
    match abbreviated name longopts with
    | [] => .unknown
    | p :: others => if ∀ q ∈ others, p.Agrees q then .unique p else .ambiguous

theorem abbreviated_of_prefix {name : List Char} {p : LongOption} (longopts : List LongOption)
    (hp : name.isPrefixOf p.name) :
    abbreviated name (p :: longopts) = p :: abbreviated name longopts :=
  List.filter_cons_of_pos hp

theorem abbreviated_of_not_prefix {name : List Char} {p : LongOption} (longopts : List LongOption)
    (hp : ¬name.isPrefixOf p.name) :
    abbreviated name (p :: longopts) = abbreviated name longopts :=
  List.filter_cons_of_neg hp

structure Grammar where
  /-- What argument a short option takes; `none` for a character that is no option. -/
  short : Char → Option HasArg
  /-- The long options, when there are any. -/
  long : Option (List Char → LongMatch)
  /-- The code for a missing argument. -/
  missing : ℤ

/-- A whole command line, read. -/
structure Scan where
  events : List Event
  options : List (List Char)
  operands : List (List Char)
  deriving DecidableEq, Repr

namespace Grammar

variable (g : Grammar)

/-- The code of the event of a long option. -/
def longCode (p : LongOption) : ℤ := if p.flag = none then p.val else 0

/-- The event of a long option that is followed by `next`, and whether `next` is its argument. -/
def longEvent (find : List Char → LongMatch) (text : List Char) (next : Option (List Char)) :
    Event × Bool :=
  match find (longName text) with
  | .unknown => (⟨charCode '?', none⟩, false)
  | .ambiguous => (⟨charCode '?', none⟩, false)
  | .unique p =>
    if nameend text ≠ [] then
      if p.hasArg = .noArgument then (⟨charCode '?', none⟩, false)
      else (⟨longCode p, some (nameend text).tail⟩, false)
    else if p.hasArg = .requiredArgument then
      if next.isSome then (⟨longCode p, next⟩, true) else (⟨g.missing, none⟩, false)
    else (⟨longCode p, none⟩, false)

/-- The events of a cluster of short options that is followed by `next`, and whether `next` is the
argument of the last one. -/
def cluster : List Char → Option (List Char) → List Event × Bool
  | [], _ => ([], false)
  | c :: rest, next =>
    match g.short c with
    | none => (⟨charCode '?', none⟩ :: (cluster rest next).1, (cluster rest next).2)
    | some .noArgument => (⟨charCode c, none⟩ :: (cluster rest next).1, (cluster rest next).2)
    | some .requiredArgument =>
      if rest ≠ [] then ([⟨charCode c, some rest⟩], false)
      else if next.isSome then ([⟨charCode c, next⟩], true)
      else ([⟨g.missing, none⟩], false)
    | some .optionalArgument => ([⟨charCode c, if rest ≠ [] then some rest else none⟩], false)

section Cluster

variable {g : Grammar} {c : Char} (rest : List Char) (next : Option (List Char))

theorem cluster_unknown (hc : g.short c = none) :
    g.cluster (c :: rest) next
      = (⟨charCode '?', none⟩ :: (g.cluster rest next).1, (g.cluster rest next).2) := by
  simp only [cluster, hc]

theorem cluster_noArgument (hc : g.short c = some .noArgument) :
    g.cluster (c :: rest) next
      = (⟨charCode c, none⟩ :: (g.cluster rest next).1, (g.cluster rest next).2) := by
  simp only [cluster, hc]

theorem cluster_requiredArgument (hc : g.short c = some .requiredArgument) :
    g.cluster (c :: rest) next =
      if rest ≠ [] then ([⟨charCode c, some rest⟩], false)
      else if next.isSome then ([⟨charCode c, next⟩], true)
      else ([⟨g.missing, none⟩], false) := by
  simp only [cluster, hc]

theorem cluster_optionalArgument (hc : g.short c = some .optionalArgument) :
    g.cluster (c :: rest) next
      = ([⟨charCode c, if rest ≠ [] then some rest else none⟩], false) := by
  simp only [cluster, hc]

end Cluster

/-- The events of an argument that is an option, or several. -/
def option (arg : List Char) (next : Option (List Char)) : List Event × Bool :=
  match g.long with
  | none => g.cluster arg.tail next
  | some find =>
    if arg[1]? = some '-' then ([(g.longEvent find (arg.drop 2) next).1],
      (g.longEvent find (arg.drop 2) next).2)
    else g.cluster arg.tail next

theorem option_cluster {g : Grammar} {arg : List Char} (next : Option (List Char))
    (h : g.long = none ∨ arg[1]? ≠ some '-') : g.option arg next = g.cluster arg.tail next := by
  cases hlong : g.long with
  | none => simp only [option, hlong]
  | some find => simp only [option, hlong, if_neg (h.resolve_left (by simp [hlong]))]

theorem option_long {g : Grammar} {find : List Char → LongMatch} {arg : List Char}
    (next : Option (List Char)) (hlong : g.long = some find) (hdash : arg[1]? = some '-') :
    g.option arg next = ([(g.longEvent find (arg.drop 2) next).1],
      (g.longEvent find (arg.drop 2) next).2) := by
  simp only [option, hlong, if_pos hdash]

/-- The command line without the program's name. -/
def scan (ordering : ArgOrdering) : List (List Char) → Scan
  | [] => ⟨[], [], []⟩
  | arg :: args =>
    if arg = ['-', '-'] then ⟨[], [arg], args⟩
    else if nonoptionP arg then
      match ordering with
      | .requireOrder => ⟨[], [], arg :: args⟩
      | .permute =>
        let r := scan ordering args
        ⟨r.events, r.options, arg :: r.operands⟩
      | .returnInOrder =>
        let r := scan ordering args
        ⟨⟨1, some arg⟩ :: r.events, arg :: r.options, r.operands⟩
    else
      let e := g.option arg args.head?
      let n := e.2.toNat
      let r := scan ordering (args.drop n)
      ⟨e.1 ++ r.events, arg :: args.take n ++ r.options, r.operands⟩
termination_by args => args.length
decreasing_by all_goals grind

section Scan

variable {g : Grammar} {ordering : ArgOrdering} {arg : List Char} (args : List (List Char))

theorem scan_nil : g.scan ordering [] = ⟨[], [], []⟩ := by rw [scan]

theorem scan_dashes : g.scan ordering (['-', '-'] :: args) = ⟨[], [['-', '-']], args⟩ := by
  cases ordering <;> rw [scan, if_pos rfl]

theorem ne_dashes_of_nonoption (ha : nonoptionP arg) : arg ≠ ['-', '-'] := by
  rintro rfl
  simp [nonoptionP] at ha

theorem scan_requireOrder (ha : nonoptionP arg) :
    g.scan .requireOrder (arg :: args) = ⟨[], [], arg :: args⟩ := by
  rw [scan, if_neg (ne_dashes_of_nonoption ha), if_pos ha]

theorem scan_returnInOrder (ha : nonoptionP arg) :
    g.scan .returnInOrder (arg :: args)
      = ⟨⟨1, some arg⟩ :: (g.scan .returnInOrder args).events,
        arg :: (g.scan .returnInOrder args).options, (g.scan .returnInOrder args).operands⟩ := by
  rw [scan, if_neg (ne_dashes_of_nonoption ha), if_pos ha]

theorem scan_permute (ha : nonoptionP arg) :
    g.scan .permute (arg :: args)
      = ⟨(g.scan .permute args).events, (g.scan .permute args).options,
        arg :: (g.scan .permute args).operands⟩ := by
  rw [scan, if_neg (ne_dashes_of_nonoption ha), if_pos ha]

theorem scan_option (hdashes : arg ≠ ['-', '-']) (ha : ¬nonoptionP arg) :
    g.scan ordering (arg :: args)
      = ⟨(g.option arg args.head?).1
          ++ (g.scan ordering (args.drop (g.option arg args.head?).2.toNat)).events,
        arg :: args.take (g.option arg args.head?).2.toNat
          ++ (g.scan ordering (args.drop (g.option arg args.head?).2.toNat)).options,
        (g.scan ordering (args.drop (g.option arg args.head?).2.toNat)).operands⟩ := by
  cases ordering <;> rw [scan, if_neg hdashes, if_neg ha]

/-- Non-options in front are operands. -/
theorem scan_skip (ns : List (List Char)) (hns : ∀ a ∈ ns, nonoptionP a) :
    g.scan .permute (ns ++ args)
      = ⟨(g.scan .permute args).events, (g.scan .permute args).options,
        ns ++ (g.scan .permute args).operands⟩ := by
  induction ns with
  | nil => rfl
  | cons a ns ih =>
    rw [List.cons_append, scan_permute _ (hns a (List.mem_cons_self ..)),
      ih fun b hb => hns b (List.mem_cons_of_mem a hb), List.cons_append]

end Scan

/-! ### Options that take no more than they have -/

/-- The elements of `b` are an option, or a cluster, with its argument: they are read as `es` and
nothing after them is looked at. -/
inductive Block (g : Grammar) : List (List Char) → List Event → Prop where
  | one {a : List Char} {es : List Event} : a ≠ ['-', '-'] → ¬nonoptionP a →
      (∀ next, g.option a next = (es, false)) → Block g [a] es
  | two {a x : List Char} {es : List Event} : a ≠ ['-', '-'] → ¬nonoptionP a →
      g.option a (some x) = (es, true) → Block g [a, x] es

theorem Block.scan_append {g : Grammar} {b : List (List Char)} {es : List Event}
    (hb : g.Block b es) (ordering : ArgOrdering) (args : List (List Char)) :
    g.scan ordering (b ++ args)
      = ⟨es ++ (g.scan ordering args).events, b ++ (g.scan ordering args).options,
        (g.scan ordering args).operands⟩ := by
  cases hb with
  | one hdashes ha he =>
    rw [List.singleton_append, scan_option args hdashes ha, he]
    rfl
  | two hdashes ha he =>
    rw [List.cons_append, List.singleton_append, scan_option _ hdashes ha, List.head?_cons, he]
    rfl

/-- Every option of the command line has the argument that it requires: the last element is not an
option that would have taken another one. -/
def Supplied (g : Grammar) : List (List Char) → Prop
  | [] => True
  | arg :: args =>
    if arg = ['-', '-'] then True
    else if nonoptionP arg then Supplied g args
    else (args = [] → ∀ next, g.option arg next = g.option arg none) ∧
      Supplied g (args.drop (g.option arg args.head?).2.toNat)
termination_by args => args.length
decreasing_by all_goals grind

end Grammar

/-- What `optstring` says of a character. -/
def shortKind (optstring : List Char) (c : Char) : Option HasArg :=
  if c = ':' then none
  else (myIndex optstring c).map fun temp =>
    if temp[1]? ≠ some ':' then .noArgument
    else if temp[2]? ≠ some ':' then .requiredArgument
    else .optionalArgument

/-- The options that a call knows. -/
def GetoptCall.grammar (call : GetoptCall) : Grammar where
  short := shortKind call.optstring
  long := call.longopts.map fun longopts name => matchLong name longopts
  missing := missingCode call.optstring

end BenchFFT
