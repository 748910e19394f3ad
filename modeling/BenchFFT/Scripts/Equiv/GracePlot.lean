import BenchFFT.Nudge
import BenchFFT.Scripts.GracePlot
import Mathlib.Algebra.Order.Ring.Rat
import Mathlib.Data.List.Sort
import Mathlib.Tactic.NormNum

/-!
# Which transforms the plot shows

Without `--no-dups` and `--skip-missing-styles` every transform is to be plotted, once.  The script
looks the transforms up by their normalized values, and takes `1e-10` off a value that is there
already: `%transforms` holds what `nudges` gives out (`Holds`), and the plot shows each transform
once exactly when the keys are distinct (`plotTransforms_perm_iff`).  That is so in every order of
`keys %results` when no three transforms crowd (`keeps_iff`).
-/

namespace BenchFFT.GracePlot

variable {perl : Perl} {o : Options} {d : Data}

/-! ### Options -/

/-- Each option is set by its own argument. -/
theorem flag_foldl {flag : Options → Bool} {name : String}
    (hstep : ∀ o arg, flag (Options.shift o arg) = (flag o || arg = name)) (args : List String)
    (o : Options) : flag (args.foldl Options.shift o) = true ↔ flag o = true ∨ name ∈ args := by
  induction args generalizing o with
  | nil => rw [List.foldl_nil, List.mem_nil_iff, or_false]
  | cons arg args ih =>
    rw [List.foldl_cons, ih, hstep, Bool.or_eq_true, decide_eq_true_iff, List.mem_cons, or_assoc]
    exact or_congr_right (or_congr_left eq_comm)

theorem accuracy_options (args : List String) :
    (options args).accuracy = true ↔ "--accuracy" ∈ args :=
  (flag_foldl (fun _ _ => rfl) args {}).trans (or_iff_right Bool.false_ne_true)

theorem noDups_options (args : List String) :
    (options args).noDups = true ↔ "--no-dups" ∈ args :=
  (flag_foldl (fun _ _ => rfl) args {}).trans (or_iff_right Bool.false_ne_true)

theorem skipMissingStyles_options (args : List String) :
    (options args).skipMissingStyles = true ↔ "--skip-missing-styles" ∈ args :=
  (flag_foldl (fun _ _ => rfl) args {}).trans (or_iff_right Bool.false_ne_true)

/-! ### Medians -/

/-- The best values are not zero, and there is one for each size that a transform has. -/
structure Data.Rated (d : Data) : Prop where
  best_ne_zero : ∀ siz b, d.bestVals.lookup siz = some b → b ≠ 0
  mem : ∀ t, ∀ r ∈ (d.results.lookup t).getD [], r.1 ∈ d.bestVals

/-- The table of the best values after a line. -/
theorem best_step {best : AList fun _ : String => ℚ} {val : ℚ} (siz : String) (c : Prop)
    [Decidable c] (hbest : ∀ siz b, best.lookup siz = some b → b ≠ 0) (hval : val ≠ 0) :
    let best' := if siz ∉ best ∨ c then best.insert siz val else best
    (∀ siz b, best'.lookup siz = some b → b ≠ 0) ∧ (∀ s ∈ best, s ∈ best') ∧ siz ∈ best' := by
  dsimp only
  split_ifs with hnew
  · refine ⟨fun s b hb => ?_, fun s hs => (AList.mem_insert _).mpr (.inr hs),
      (AList.mem_insert _).mpr (.inl rfl)⟩
    rcases eq_or_ne s siz with rfl | hne
    · rw [AList.lookup_insert] at hb
      exact Option.some.inj hb ▸ hval
    · rw [AList.lookup_insert_ne hne] at hb
      exact hbest s b hb
  · exact ⟨hbest, fun _ hs => hs, not_not.mp fun h => hnew (.inl h)⟩

theorem Data.Rated.read (hd : d.Rated) {line : Line} (hsiz : ':' ∉ line.siz.toList) :
    (d.read perl o line).Rated := by
  unfold Data.read
  generalize (if o.accuracy then -line.number else line.number) = val
  dsimp only
  by_cases hval : val = 0
  · rw [if_pos hval]
    exact hd
  by_cases hsmall : o.accuracy ∧ line.tot < 8
  · rw [if_neg hval, if_pos hsmall]
    exact hd
  rw [if_neg hval, if_neg hsmall]
  obtain ⟨hne, hmono, hnew⟩ := best_step line.siz
    ((d.bestVals.lookup line.siz).getD 0 < val) hd.best_ne_zero hval
  refine ⟨hne, fun t r hr => ?_⟩
  dsimp only at hr ⊢
  rcases eq_or_ne t (line.nam ++ ":" ++ line.prob) with rfl | ht
  · rw [AList.lookup_insert, Option.getD_some, List.mem_append, List.mem_singleton] at hr
    rcases hr with hr | rfl
    · exact hmono _ (hd.mem _ r hr)
    · rwa [splitResult, if_neg hsiz]
  · rw [AList.lookup_insert_ne ht] at hr
    exact hmono _ (hd.mem t r hr)

theorem rated_readLines (o : Options) {lines : List Line}
    (hsiz : ∀ line ∈ lines, ':' ∉ line.siz.toList) : (readLines perl o lines).Rated := by
  induction lines using List.reverseRecOn with
  | nil => exact ⟨fun _ _ hb => absurd hb nofun, fun _ _ hr => absurd hr List.not_mem_nil⟩
  | append_singleton lines line ih =>
    rw [readLines, List.foldl_concat]
    simp only [List.forall_mem_append, List.forall_mem_singleton] at hsiz
    exact (ih hsiz.1).read hsiz.2

theorem exists_mapM {α β : Type} {f : α → Option β} {l : List α} (h : ∀ a ∈ l, ∃ b, f a = some b) :
    ∃ l', l.mapM f = some l' := by
  induction l with
  | nil => exact ⟨[], rfl⟩
  | cons a l ih =>
    obtain ⟨b, hb⟩ := h a (List.mem_cons_self ..)
    obtain ⟨l', hl'⟩ := ih fun a' ha' => h a' (List.mem_cons_of_mem _ ha')
    exact ⟨b :: l', by rw [List.mapM_cons, hb, hl']; rfl⟩

/-- Without `--accuracy` nothing stops the script, unless a size has a colon. -/
theorem exists_normVal_of_speed {args : List String} (hacc : "--accuracy" ∉ args)
    {lines : List Line} (hsiz : ∀ line ∈ lines, ':' ∉ line.siz.toList) (t : String) :
    ∃ x, normVal perl (options args) (readLines perl (options args) lines) t = some x := by
  have ho : ¬(options args).accuracy = true := by rwa [accuracy_options]
  have hd : (readLines perl (options args) lines).Rated := rated_readLines (options args) hsiz
  generalize readLines perl (options args) lines = d at hd
  generalize options args = o at ho
  have hrates : ∀ r ∈ sortedResults perl d t, ∃ x, normalize perl o d r.1 r.2 = some x := by
    intro r hr
    have hmem := hd.mem t r ((perl.sort_perm _ _).mem_iff.mp hr)
    obtain ⟨b, hb⟩ := Option.isSome_iff_exists.mp (AList.lookup_isSome.mpr hmem)
    refine ⟨r.2 / b, ?_⟩
    rw [normalize, if_neg ho, hb, Option.getD_some, divide,
      if_neg (hd.best_ne_zero _ b hb)]
  obtain ⟨nvs, hnvs⟩ := exists_mapM hrates
  rw [normVal, hnvs]
  exact ⟨_, rfl⟩

/-! ### `%transforms` -/

/-- What the keys that have been given out leave in `@norm_vals` and `%transforms`. -/
structure Holds (s : NormVals) (given : List (String × ℚ)) : Prop where
  normVals : s.normVals = (given.map Prod.snd).reverse
  transforms : ∀ k, s.transforms.lookup k = owner given k

theorem holds_nil : Holds {} [] := ⟨rfl, fun _ => rfl⟩

theorem Holds.mem_iff {s : NormVals} {given : List (String × ℚ)} (h : Holds s given) (k : ℚ) :
    k ∈ s.transforms ↔ k ∈ given.map Prod.snd := by
  rw [← AList.lookup_isSome, h.transforms, owner, Option.isSome_map, List.find?_isSome]
  simp

theorem Holds.add {s : NormVals} {given : List (String × ℚ)} (h : Holds s given) (v : String → ℚ)
    (t : String) : Holds (s.add (v t) t) (nudge v 1e-10 given t) := by
  have hkey : (if v t ∈ s.transforms then v t - 1e-10 else v t) =
      if v t ∈ given.map Prod.snd then v t - 1e-10 else v t := if_congr (h.mem_iff _) rfl rfl
  rw [NormVals.add, nudge, ← hkey]
  generalize (if v t ∈ s.transforms then v t - 1e-10 else v t) = key
  refine ⟨?_, fun k => ?_⟩
  · rw [List.map_cons, List.reverse_cons, h.normVals]
  · rw [owner_cons]
    split_ifs with hk
    · rw [← hk, AList.lookup_insert]
    · rw [AList.lookup_insert_ne (Ne.symm hk), h.transforms]

theorem holds_foldl (v : String → ℚ) (keys : List String) :
    Holds (keys.foldl (fun s t => s.add (v t) t) {}) (nudges v 1e-10 keys) := by
  induction keys using List.reverseRecOn with
  | nil => exact holds_nil
  | append_singleton keys t ih =>
    rw [List.foldl_concat, nudges_concat]
    exact ih.add v t

theorem normVals_eq {keys : List String} {v : String → ℚ}
    (hv : ∀ t ∈ keys, normVal perl o d t = some (v t)) :
    normVals perl o d keys = some (keys.foldl (fun s t => s.add (v t) t) {}) := by
  rw [normVals]
  generalize ({} : NormVals) = s
  induction keys generalizing s with
  | nil => rfl
  | cons t keys ih =>
    rw [List.foldlM_cons, hv t (List.mem_cons_self ..)]
    exact ih (fun t' ht' => hv t' (List.mem_cons_of_mem _ ht')) _

/-- The loop over the transforms stops the script unless each of them has a median. -/
theorem exists_normVal {keys : List String} {s : NormVals}
    (h : normVals perl o d keys = some s) : ∀ t ∈ keys, ∃ x, normVal perl o d t = some x := by
  rw [normVals] at h
  generalize ({} : NormVals) = s₀ at h
  induction keys generalizing s₀ with
  | nil => exact fun t ht => absurd ht List.not_mem_nil
  | cons t keys ih =>
    rw [List.foldlM_cons] at h
    obtain ⟨s₁, hs₁, hrest⟩ := Option.bind_eq_some_iff.mp h
    obtain ⟨x, hx, -⟩ := Option.bind_eq_some_iff.mp hs₁
    intro t' ht'
    rcases List.mem_cons.mp ht' with rfl | ht'
    · exact ⟨x, hx⟩
    · exact ih s₁ hrest t' ht'

/-! ### The selection -/

theorem Selection.add_plotTransforms (hdups : o.noDups = false)
    (hskip : o.skipMissingStyles = false) (s : Selection) (t : String) :
    (s.add o d t).plotTransforms = s.plotTransforms ++ [t] := by
  simp [Selection.add, hdups, hskip]

theorem foldl_select (hdups : o.noDups = false) (hskip : o.skipMissingStyles = false)
    (f : ℚ → String) (l : List ℚ) :
    (l.foldl (fun (s : Selection) k => s.add o d (f k)) {}).plotTransforms = l.map f := by
  induction l using List.reverseRecOn with
  | nil => rfl
  | append_singleton l k ih =>
    rw [List.foldl_concat, Selection.add_plotTransforms hdups hskip, ih, List.map_append,
      List.map_singleton]

/-! ### Main results -/

/-- The transforms of the data. -/
def transforms (perl : Perl) (args : List String) (lines : List Line) : List String :=
  (readLines perl (options args) lines).results.keys

/-- Whatever the order of `keys %results`, the script plots each transform once, and `%transforms`
has one entry for it. -/
def Keeps (perl : Perl) (args : List String) (lines : List Line) : Prop :=
  ∀ keys : List String, keys.Perm (transforms perl args lines) →
    ∃ p, gracePlot perl args lines keys = some p ∧ p.plotTransforms.Perm keys ∧
      ∀ t ∈ keys, ∃! k, p.transforms.lookup k = some t

/-- All transforms have medians, and no three medians are too close: two of them equal, and the
third equal to them or `1e-10` below. -/
def Apart (perl : Perl) (args : List String) (lines : List Line) : Prop :=
  ∃ v : String → ℚ, (∀ t ∈ transforms perl args lines,
      normVal perl (options args) (readLines perl (options args) lines) t = some (v t)) ∧
    ¬Crowded v 1e-10 (transforms perl args lines)

/-- The plot, where all transforms have medians. -/
theorem gracePlot_eq {args : List String} {lines : List Line} {keys : List String}
    (hdups : "--no-dups" ∉ args) (hskip : "--skip-missing-styles" ∉ args) {v : String → ℚ}
    (hv : ∀ t ∈ keys,
      normVal perl (options args) (readLines perl (options args) lines) t = some (v t)) :
    ∃ p, gracePlot perl args lines keys = some p ∧
      (∀ k, p.transforms.lookup k = owner (nudges v 1e-10 keys) k) ∧
      p.plotTransforms.Perm (((nudges v 1e-10 keys).map Prod.snd).map fun k =>
        (owner (nudges v 1e-10 keys) k).getD "") := by
  have hdups' : (options args).noDups = false := by
    rwa [← Bool.not_eq_true, noDups_options]
  have hskip' : (options args).skipMissingStyles = false := by
    rwa [← Bool.not_eq_true, skipMissingStyles_options]
  obtain ⟨hnorm, htrans⟩ := holds_foldl v keys
  rw [gracePlot, normVals_eq hv]
  refine ⟨_, rfl, htrans, ?_⟩
  dsimp only
  generalize List.foldl _ _ keys = s at hnorm htrans
  generalize (if (options args).plotWorst = true then _ else _) = cmp
  have hreverse (b : Bool) (l : List String) : (if b then l.reverse else l).Perm l := by
    split_ifs
    · exact List.reverse_perm l
    · exact List.Perm.refl l
  refine (hreverse _ _).trans ?_
  rw [foldl_select hdups' hskip', ← funext htrans]
  refine ((perl.sort_perm cmp _).trans ?_).map _
  rw [hnorm]
  exact List.reverse_perm _

/-- The script keeps the transforms in every order exactly when their medians are apart. -/
theorem keeps_iff {args : List String} (lines : List Line) (hdups : "--no-dups" ∉ args)
    (hskip : "--skip-missing-styles" ∉ args) :
    Keeps perl args lines ↔ Apart perl args lines := by
  have hε : (1e-10 : ℚ) ≠ 0 := by norm_num
  have hnodup : (transforms perl args lines).Nodup := AList.keys_nodup _
  constructor
  · intro hkeeps
    obtain ⟨p, hrun, -⟩ := hkeeps _ (List.Perm.refl _)
    obtain ⟨s, hs, -⟩ := Option.bind_eq_some_iff.mp hrun
    choose! v hv using exists_normVal hs
    refine ⟨v, hv, (forall_nodup_keys_iff hε hnodup).mp fun keys hkeys => ?_⟩
    obtain ⟨p, hrun, hplot, -⟩ := hkeeps keys hkeys
    have hv' : ∀ t ∈ keys, _ := fun t ht => hv t (hkeys.mem_iff.mp ht)
    obtain ⟨p', hrun', -, hplot'⟩ := gracePlot_eq hdups hskip hv'
    obtain rfl := Option.some.inj (hrun.symm.trans hrun')
    exact (map_owner_nudges_perm_iff (hkeys.nodup_iff.mpr hnodup) "").mp (hplot'.symm.trans hplot)
  · rintro ⟨v, hv, hapart⟩ keys hkeys
    have hv' : ∀ t ∈ keys, _ := fun t ht => hv t (hkeys.mem_iff.mp ht)
    obtain ⟨p, hrun, htrans, hplot⟩ := gracePlot_eq hdups hskip hv'
    have hdistinct := (forall_nodup_keys_iff hε hnodup).mpr hapart keys hkeys
    have hkeysNodup := hkeys.nodup_iff.mpr hnodup
    refine ⟨p, hrun, hplot.trans ((map_owner_nudges_perm_iff hkeysNodup "").mpr hdistinct), ?_⟩
    intro t ht
    simp only [htrans]
    exact existsUnique_owner_nudges hkeysNodup hdistinct ht

/-- A stable `sort`, which takes the whole part of a comparison. -/
def stablePerl : Perl where
  log x := if x = 1 then some 0 else none
  number s := (s.toNat?.getD 0 : ℕ)
  sort cmp l := l.insertionSort fun a b => cmp a b < 1
  sort_perm _ l := List.perm_insertionSort _ l

/-- Two transforms that are equally fast. -/
def twoEqual : List Line := [⟨"a", "p", "8", 1, 8⟩, ⟨"b", "p", "8", 1, 8⟩]

theorem keeps_twoEqual : Keeps stablePerl [] twoEqual :=
  (keeps_iff twoEqual (by decide) (by decide)).mpr
    ⟨fun _ => 1, by decide +kernel, by unfold Crowded; decide +kernel⟩

/-- Three of them. -/
def threeEqual : List Line := twoEqual ++ [⟨"c", "p", "8", 1, 8⟩]

theorem not_keeps_threeEqual :
    (gracePlot stablePerl [] threeEqual ["a:p", "b:p", "c:p"]).map Plot.plotTransforms =
      some ["a:p", "c:p", "c:p"] ∧ ¬Keeps stablePerl [] threeEqual := by
  have hplot : (gracePlot stablePerl [] threeEqual ["a:p", "b:p", "c:p"]).map Plot.plotTransforms =
      some ["a:p", "c:p", "c:p"] := by decide +kernel
  refine ⟨hplot, fun hkeeps => ?_⟩
  obtain ⟨p, hrun, hperm, -⟩ := hkeeps ["a:p", "b:p", "c:p"] (by decide +kernel)
  rw [hrun] at hplot
  rw [Option.some.inj hplot] at hperm
  exact absurd hperm (by decide)

end BenchFFT.GracePlot
