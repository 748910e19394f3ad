import BenchFFT.Options.Scan
import Mathlib.Tactic.SplitIfs

/-!
# Long options and their abbreviations

The search of the table keeps the first abbreviated match and whether a later one differs from it,
and stops at an exact match; what it has found in the end is `matchLong`, and the index it has kept
is the index of that option (`findLong_result`).
-/

namespace BenchFFT

/-- What the code makes of a finished search. -/
def LongSearch.result (found : LongSearch) : LongMatch :=
  if found.ambig ∧ ¬found.exact then .ambiguous else found.pfound.elim .unknown .unique

/-- An abbreviation is an exact match when it is as long as the name. -/
theorem exact_iff {name : List Char} {p : LongOption} (hp : name.isPrefixOf p.name) :
    name.length = p.name.length ↔ p.name = name := by
  rw [List.isPrefixOf_iff_prefix] at hp
  exact ⟨fun h => (hp.eq_of_length h).symm, fun h => by rw [h]⟩

section Step

variable (name : List Char) (p q : LongOption) (longopts : List LongOption) (i k : ℕ)
  (ambig : Bool)

theorem findLong_exact (found : LongSearch) (strict : Bool) (hname : p.name = name) :
    findLong strict name (p :: longopts) i found
      = { found with pfound := some p, indfound := i, exact := true } := by
  simp [findLong, hname]

theorem findLong_skip (found : LongSearch) (strict : Bool) (hp : ¬name.isPrefixOf p.name) :
    findLong strict name (p :: longopts) i found = findLong strict name longopts (i + 1) found := by
  rw [findLong, if_neg hp]

theorem findLong_first (strict : Bool) (hp : name.isPrefixOf p.name) (hname : p.name ≠ name) :
    findLong strict name (p :: longopts) i {}
      = findLong strict name longopts (i + 1) ⟨some p, i, false, false⟩ := by
  rw [findLong, if_pos hp, if_neg (mt (exact_iff hp).mp hname), if_pos rfl]

theorem findLong_again (hq : name.isPrefixOf q.name) (hname : q.name ≠ name) :
    findLong false name (q :: longopts) i ⟨some p, k, false, ambig⟩
      = findLong false name longopts (i + 1) ⟨some p, k, false, ambig || !decide (p.Agrees q)⟩ := by
  rw [findLong, if_pos hq, if_neg (mt (exact_iff hq).mp hname), if_neg (Option.some_ne_none p)]
  by_cases hagree : p.Agrees q
  · obtain ⟨hasArg, flag, val⟩ := hagree
    simp [LongOption.Agrees, hasArg, flag, val]
  · have hdiffers : p.hasArg ≠ q.hasArg ∨ p.flag ≠ q.flag ∨ p.val ≠ q.val := by
      simpa only [LongOption.Agrees, not_and_or] using hagree
    simp [hagree, hdiffers]

/-- The rest of the search, once there is a match. -/
theorem findLong_some :
    (findLong false name longopts i ⟨some p, k, false, ambig⟩).result
      = (longopts.find? (fun q => q.name = name)).elim
          (if ambig = false ∧ ∀ q ∈ abbreviated name longopts, p.Agrees q then .unique p
            else .ambiguous) .unique := by
  induction longopts generalizing ambig i with
  | nil => cases ambig <;> rfl
  | cons q longopts ih =>
    by_cases hname : q.name = name
    · rw [findLong_exact _ _ _ _ _ _ hname, List.find?_cons_of_pos (by simpa using hname)]
      simp [LongSearch.result]
    · rw [List.find?_cons_of_neg (by simpa using hname)]
      by_cases hq : name.isPrefixOf q.name
      · rw [findLong_again _ _ _ _ _ _ _ hq hname, ih, abbreviated_of_prefix _ hq]
        by_cases hagree : p.Agrees q <;> simp [hagree]
      · rw [findLong_skip _ _ _ _ _ _ hq, ih, abbreviated_of_not_prefix _ hq]

theorem findLong_none :
    (findLong false name longopts i {}).result = matchLong name longopts := by
  induction longopts generalizing i with
  | nil => rfl
  | cons p longopts ih =>
    by_cases hname : p.name = name
    · rw [findLong_exact _ _ _ _ _ _ hname, matchLong,
        List.find?_cons_of_pos (by simpa using hname)]
      rfl
    · rw [matchLong, List.find?_cons_of_neg (by simpa using hname)]
      by_cases hp : name.isPrefixOf p.name
      · rw [findLong_first _ _ _ _ _ hp hname, findLong_some, abbreviated_of_prefix _ hp]
        cases longopts.find? (fun q => q.name = name) <;> simp
      · rw [findLong_skip _ _ _ _ _ _ hp, ih, abbreviated_of_not_prefix _ hp, matchLong]

/-- The index that is kept is the index of the option that is kept. -/
theorem findLong_index (table : List LongOption) (found : LongSearch) (strict : Bool)
    (hrest : table.drop i = longopts)
    (hfound : ∀ p, found.pfound = some p → table[found.indfound]? = some p) :
    ∀ p, (findLong strict name longopts i found).pfound = some p →
      table[(findLong strict name longopts i found).indfound]? = some p := by
  induction longopts generalizing i found with
  | nil => exact hfound
  | cons q longopts ih =>
    have hi : table[i]? = some q := by
      rw [← List.head?_drop, hrest]
      rfl
    have hnext : table.drop (i + 1) = longopts := by
      rw [← List.tail_drop, hrest]
      rfl
    rw [findLong]
    split_ifs
    · rintro p ⟨⟩
      exact hi
    · refine ih _ _ hnext ?_
      rintro p ⟨⟩
      exact hi
    · exact ih _ _ hnext hfound
    · exact ih _ _ hnext hfound
    · exact ih _ _ hnext hfound

end Step

/-- A name stands for the option it names exactly, wherever that is in the table, or else for the
option it abbreviates if all that it abbreviates agree; the index is that option's. -/
theorem findLong_result (name : List Char) (longopts : List LongOption) :
    (findLong false name longopts 0 {}).result = matchLong name longopts ∧
      ∀ p, (findLong false name longopts 0 {}).pfound = some p →
        longopts[(findLong false name longopts 0 {}).indfound]? = some p :=
  ⟨findLong_none name longopts 0,
    findLong_index name longopts 0 longopts {} false rfl fun p h => by simp at h⟩

theorem matchLong_mem {name : List Char} {longopts : List LongOption} {p : LongOption}
    (h : matchLong name longopts = .unique p) : p ∈ longopts := by
  rw [matchLong] at h
  split at h
  · next q hfound =>
    obtain rfl := LongMatch.unique.inj h
    exact List.mem_of_find?_eq_some hfound
  · split at h
    · exact LongMatch.noConfusion h
    · next q others habbreviated =>
      split_ifs at h
      obtain rfl := LongMatch.unique.inj h
      have hmem : q ∈ abbreviated name longopts := by simp [habbreviated]
      exact List.mem_of_mem_filter hmem

/-- Only an argument that is there is taken. -/
theorem longEvent_takes {g : Grammar} {find : List Char → LongMatch} {text : List Char}
    {next : Option (List Char)} (h : (g.longEvent find text next).2 = true) : next.isSome := by
  rw [Grammar.longEvent] at h
  split at h
  · simp at h
  · simp at h
  · split_ifs at h with h1 h2 h3 h4
    exact h4

/-- A code of a long option is an error's, zero, or the option's own. -/
theorem longEvent_code {g : Grammar} {longopts : List LongOption} {text : List Char}
    {next : Option (List Char)} {P : ℤ → Prop} (hquestion : P (charCode '?'))
    (hmissing : P g.missing) (hzero : P 0) (hval : ∀ p ∈ longopts, P p.val) :
    P (g.longEvent (matchLong · longopts) text next).1.code := by
  rw [Grammar.longEvent]
  cases hmatch : matchLong (longName text) longopts with
  | unknown => exact hquestion
  | ambiguous => exact hquestion
  | unique p =>
    have hp : P (Grammar.longCode p) := by
      rw [Grammar.longCode]
      split_ifs
      · exact hval p (matchLong_mem hmatch)
      · exact hzero
    simp only
    split_ifs
    exacts [hquestion, hp, hp, hmissing, hp]

end BenchFFT
