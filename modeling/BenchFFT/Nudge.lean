import Mathlib.Algebra.Group.Basic
import Mathlib.Data.List.Induction
import Mathlib.Data.List.Nodup
import Mathlib.Data.List.Perm.Subperm

/-!
# Keys that give way once

The elements of a list are given keys one after another: each gets its value, or its value less `ε`
where the value is taken.  The keys are distinct in every order of the elements exactly when no
element is too many (`Crowded`): a third one whose value is that of two others, or `ε` below it
(`forall_nodup_keys_iff`).
-/

namespace BenchFFT

variable {ι A : Type*} [AddGroup A]

/-- Three elements, of which two have the same value, and the third has it too, or is `ε` below. -/
def Crowded (v : ι → A) (ε : A) (l : List ι) : Prop :=
  ∃ a ∈ l, ∃ b ∈ l, ∃ c ∈ l, a ≠ b ∧ a ≠ c ∧ b ≠ c ∧ v a = v b ∧ (v c = v a ∨ v c = v a - ε)

theorem Crowded.mono {v : ι → A} {ε : A} {l l' : List ι} (h : Crowded v ε l) (hl : l ⊆ l') :
    Crowded v ε l' := by
  obtain ⟨a, ha, b, hb, c, hc, hne⟩ := h
  exact ⟨a, hl ha, b, hl hb, c, hl hc, hne⟩

/-- Each key is the value of its element, or it has given way to another element of that value. -/
def Settled (v : ι → A) (ε : A) (given : List (ι × A)) : Prop :=
  ∀ p ∈ given, p.2 = v p.1 ∨ p.2 = v p.1 - ε ∧ ∃ q ∈ given, q.1 ≠ p.1 ∧ v q.1 = v p.1

section Step

variable {v : ι → A} {ε : A} {given : List (ι × A)} {i : ι}

omit [AddGroup A] in
theorem mem_cons_and_ne (hnew : i ∉ given.map Prod.fst) {p : ι × A} (hp : p ∈ given) :
    p.1 ∈ i :: given.map Prod.fst ∧ p.1 ≠ i :=
  ⟨List.mem_cons_of_mem _ (List.mem_map_of_mem hp),
    fun heq => hnew (List.mem_map.mpr ⟨p, hp, heq⟩)⟩

variable (hs : Settled v ε given) (hnew : i ∉ given.map Prod.fst)
  (hfree : ¬Crowded v ε (i :: given.map Prod.fst))

include hs hnew hfree

/-- A value that is taken is that of an element before. -/
theorem Settled.exists_twin (htaken : v i ∈ given.map Prod.snd) :
    ∃ q ∈ given, q.1 ≠ i ∧ v q.1 = v i := by
  obtain ⟨p, hp, hkey⟩ := List.mem_map.mp htaken
  obtain ⟨hpmem, hpi⟩ := mem_cons_and_ne hnew hp
  rcases hs p hp with hval | ⟨hval, q, hq, hqp, hvq⟩
  · exact ⟨p, hp, hpi, hval.symm.trans hkey⟩
  · -- the value of `i` is below that of the two elements `p` and `q`
    obtain ⟨hqmem, hqi⟩ := mem_cons_and_ne hnew hq
    exact absurd ⟨p.1, hpmem, q.1, hqmem, i, List.mem_cons_self .., hqp.symm, hpi, hqi, hvq.symm,
      .inr (hkey.symm.trans hval)⟩ hfree

theorem Settled.sub_notMem (hε : ε ≠ 0) {q : ι × A} (hq : q ∈ given) (hvq : v q.1 = v i) :
    v i - ε ∉ given.map Prod.snd := by
  intro htaken
  obtain ⟨p, hp, hkey⟩ := List.mem_map.mp htaken
  obtain ⟨hpmem, hpi⟩ := mem_cons_and_ne hnew hp
  rcases hs p hp with hval | ⟨hval, r, hr, hrp, hvr⟩
  · -- `p` is below the two elements `q` and `i`
    obtain ⟨hqmem, hqi⟩ := mem_cons_and_ne hnew hq
    have hvp : v p.1 = v i - ε := hval.symm.trans hkey
    refine hfree ⟨q.1, hqmem, i, List.mem_cons_self .., p.1, hpmem, hqi, fun heq => ?_, hpi.symm,
      hvq, .inr (hvq ▸ hvp)⟩
    rw [← heq, hvq] at hvp
    exact hε (sub_eq_self.mp hvp.symm)
  · -- `p` has given way to `r`, and `i` has their value
    obtain ⟨hrmem, hri⟩ := mem_cons_and_ne hnew hr
    have hvp : v p.1 = v i := sub_left_injective (hval.symm.trans hkey)
    exact hfree ⟨p.1, hpmem, r.1, hrmem, i, List.mem_cons_self .., hrp.symm, hpi, hri, hvr.symm,
      .inl hvp.symm⟩

end Step

variable [DecidableEq A]

/-- Give the element `i` a key; `given` is what has been given out, the last key first. -/
def nudge (v : ι → A) (ε : A) (given : List (ι × A)) (i : ι) : List (ι × A) :=
  (i, if v i ∈ given.map Prod.snd then v i - ε else v i) :: given

def nudges (v : ι → A) (ε : A) (l : List ι) : List (ι × A) := l.foldl (nudge v ε) []

variable {v : ι → A} {ε : A}

theorem nudge_taken {given : List (ι × A)} {i : ι} (h : v i ∈ given.map Prod.snd) :
    nudge v ε given i = (i, v i - ε) :: given := by rw [nudge, if_pos h]

theorem nudge_free {given : List (ι × A)} {i : ι} (h : v i ∉ given.map Prod.snd) :
    nudge v ε given i = (i, v i) :: given := by rw [nudge, if_neg h]

theorem nudges_concat (l : List ι) (i : ι) :
    nudges v ε (l ++ [i]) = nudge v ε (nudges v ε l) i := List.foldl_concat ..

theorem map_fst_nudges (l : List ι) : (nudges v ε l).map Prod.fst = l.reverse := by
  induction l using List.reverseRecOn with
  | nil => rfl
  | append_singleton l i ih => rw [nudges_concat, nudge, List.map_cons, ih, List.reverse_concat]

/-- What has been given out stays. -/
theorem nudges_suffix (l l' : List ι) : nudges v ε l <:+ nudges v ε (l ++ l') := by
  induction l' using List.reverseRecOn with
  | nil => simp only [List.append_nil, List.suffix_rfl]
  | append_singleton l' i ih =>
    rw [← List.append_assoc, nudges_concat]
    exact ih.trans (List.suffix_cons _ _)

/-! ### Distinct keys -/

theorem Settled.nudge {given : List (ι × A)} {i : ι} (hs : Settled v ε given)
    (hnew : i ∉ given.map Prod.fst) (hfree : ¬Crowded v ε (i :: given.map Prod.fst))
    (hε : ε ≠ 0) (hnodup : (given.map Prod.snd).Nodup) :
    Settled v ε (nudge v ε given i) ∧ ((BenchFFT.nudge v ε given i).map Prod.snd).Nodup := by
  have hold : ∀ k, ∀ p ∈ given, p.2 = v p.1 ∨
      p.2 = v p.1 - ε ∧ ∃ q ∈ (i, k) :: given, q.1 ≠ p.1 ∧ v q.1 = v p.1 := fun k p hp =>
    (hs p hp).imp_right fun ⟨hval, q, hq, hne⟩ => ⟨hval, q, List.mem_cons_of_mem _ hq, hne⟩
  by_cases htaken : v i ∈ given.map Prod.snd
  · obtain ⟨q, hq, hqi, hvq⟩ := hs.exists_twin hnew hfree htaken
    rw [nudge_taken htaken]
    refine ⟨fun p hp => ?_, List.nodup_cons.mpr ⟨hs.sub_notMem hnew hfree hε hq hvq, hnodup⟩⟩
    rcases List.mem_cons.mp hp with rfl | hp
    · exact .inr ⟨rfl, q, List.mem_cons_of_mem _ hq, hqi, hvq⟩
    · exact hold _ p hp
  · rw [nudge_free htaken]
    refine ⟨fun p hp => ?_, List.nodup_cons.mpr ⟨htaken, hnodup⟩⟩
    rcases List.mem_cons.mp hp with rfl | hp
    · exact .inl rfl
    · exact hold _ p hp

theorem settled_nudges (hε : ε ≠ 0) {l : List ι} (hl : l.Nodup) (hfree : ¬Crowded v ε l) :
    Settled v ε (nudges v ε l) ∧ ((nudges v ε l).map Prod.snd).Nodup := by
  induction l using List.reverseRecOn with
  | nil => exact ⟨fun p hp => absurd hp List.not_mem_nil, List.nodup_nil⟩
  | append_singleton l i ih =>
    obtain ⟨hi, hl⟩ := List.nodup_cons.mp ((List.perm_append_singleton i l).nodup_iff.mp hl)
    obtain ⟨hs, hnodup⟩ := ih hl fun h => hfree (h.mono (List.subset_append_left l [i]))
    rw [nudges_concat]
    refine hs.nudge ?_ (fun h => hfree (h.mono fun j hj => ?_)) hε hnodup
    · rwa [map_fst_nudges, List.mem_reverse]
    · rw [map_fst_nudges, List.mem_cons, List.mem_reverse] at hj
      exact List.mem_append.mpr (hj.symm.imp_right List.mem_singleton.mpr)

/-! ### An order in which two keys are the same -/

theorem not_nodup_of_eq {a b c : ι} (hb : v b = v a) (hc : v c = v a) :
    ¬((nudges v ε [a, b, c]).map Prod.snd).Nodup := by
  simp [nudges, nudge, hb, hc]

theorem not_nodup_of_sub (hε : ε ≠ 0) {a b c : ι} (hb : v b = v a) (hc : v c = v a - ε) :
    ¬((nudges v ε [a, c, b]).map Prod.snd).Nodup := by
  simp [nudges, nudge, hb, hc, hε]

/-- The three elements come first. -/
theorem Crowded.exists_perm (hε : ε ≠ 0) {l : List ι} (h : Crowded v ε l) :
    ∃ o : List ι, o.Perm l ∧ ¬((nudges v ε o).map Prod.snd).Nodup := by
  obtain ⟨a, ha, b, hb, c, hc, hab, hac, hbc, hvab, hvc⟩ := h
  have hfirst : ∃ t : List ι, t.Nodup ∧ t ⊆ l ∧ ¬((nudges v ε t).map Prod.snd).Nodup := by
    rcases hvc with hvc | hvc
    · exact ⟨[a, b, c], by simp [hab, hac, hbc], by simp [ha, hb, hc],
        not_nodup_of_eq hvab.symm hvc⟩
    · exact ⟨[a, c, b], by simp [hab, hac, hbc.symm], by simp [ha, hb, hc],
        not_nodup_of_sub hε hvab.symm hvc⟩
  obtain ⟨t, ht, hsub, hdup⟩ := hfirst
  obtain ⟨t', hperm, hsublist⟩ := List.subperm_of_subset ht hsub
  obtain ⟨rest, hrest⟩ := hsublist.exists_perm_append
  refine ⟨t ++ rest, ((hperm.append_right rest).symm).trans hrest.symm, fun hnodup => hdup ?_⟩
  exact hnodup.sublist ((nudges_suffix t rest).sublist.map Prod.snd)

theorem forall_nodup_keys_iff (hε : ε ≠ 0) {l : List ι} (hl : l.Nodup) :
    (∀ o : List ι, o.Perm l → ((nudges v ε o).map Prod.snd).Nodup) ↔ ¬Crowded v ε l := by
  constructor
  · intro hall hcrowded
    obtain ⟨o, ho, hdup⟩ := hcrowded.exists_perm hε
    exact hdup (hall o ho)
  · intro hfree o ho
    exact (settled_nudges hε (ho.nodup_iff.mpr hl) fun h => hfree (h.mono ho.subset)).2

/-! ### Who has a key -/

section Owner

omit [AddGroup A]

variable {given : List (ι × A)}

/-- The element that got the key `k` last. -/
def owner (given : List (ι × A)) (k : A) : Option ι :=
  (given.find? fun p => p.2 = k).map Prod.fst

theorem owner_cons (p : ι × A) (given : List (ι × A)) (k : A) :
    owner (p :: given) k = if p.2 = k then some p.1 else owner given k := by
  by_cases hk : p.2 = k <;> simp [owner, hk]

theorem mem_of_owner {k : A} {i : ι} (h : owner given k = some i) : (i, k) ∈ given := by
  obtain ⟨p, hp, rfl⟩ := Option.map_eq_some_iff.mp h
  have hk := List.find?_some hp
  rw [← of_decide_eq_true hk]
  exact List.mem_of_find?_eq_some hp

theorem owner_eq (hkeys : (given.map Prod.snd).Nodup) {p : ι × A} (hp : p ∈ given) :
    owner given p.2 = some p.1 := by
  have hsome : (owner given p.2).isSome := by
    rw [owner, Option.isSome_map, List.find?_isSome]
    exact ⟨p, hp, decide_eq_true rfl⟩
  obtain ⟨i, hi⟩ := Option.isSome_iff_exists.mp hsome
  have heq := List.inj_on_of_nodup_map hkeys (mem_of_owner hi) hp rfl
  rw [hi, ← heq]

/-- When all keys are distinct, each element has one. -/
theorem existsUnique_owner (hkeys : (given.map Prod.snd).Nodup)
    (helems : (given.map Prod.fst).Nodup) {i : ι} (hi : i ∈ given.map Prod.fst) :
    ∃! k, owner given k = some i := by
  obtain ⟨p, hp, rfl⟩ := List.mem_map.mp hi
  refine ⟨p.2, owner_eq hkeys hp, fun k hk => ?_⟩
  have heq := List.inj_on_of_nodup_map helems (mem_of_owner hk) hp rfl
  exact congrArg Prod.snd heq

/-- Going over the keys meets each element once exactly when the keys are distinct. -/
theorem map_owner_perm_iff (helems : (given.map Prod.fst).Nodup) (default : ι) :
    ((given.map Prod.snd).map fun k => (owner given k).getD default).Perm (given.map Prod.fst) ↔
      (given.map Prod.snd).Nodup := by
  refine ⟨fun h => (h.nodup_iff.mpr helems).of_map, fun hkeys => List.Perm.of_eq ?_⟩
  rw [List.map_map]
  refine List.map_congr_left fun p hp => ?_
  rw [Function.comp_apply, owner_eq hkeys hp, Option.getD_some]

end Owner

theorem nodup_map_fst_nudges {l : List ι} (hl : l.Nodup) :
    ((nudges v ε l).map Prod.fst).Nodup := by
  rwa [map_fst_nudges, List.nodup_reverse]

theorem map_owner_nudges_perm_iff {l : List ι} (hl : l.Nodup) (default : ι) :
    (((nudges v ε l).map Prod.snd).map fun k => (owner (nudges v ε l) k).getD default).Perm l ↔
      ((nudges v ε l).map Prod.snd).Nodup := by
  have helems : ((nudges v ε l).map Prod.fst).Perm l := by
    rw [map_fst_nudges]
    exact List.reverse_perm l
  rw [← map_owner_perm_iff (nodup_map_fst_nudges hl) default]
  exact ⟨fun h => h.trans helems.symm, fun h => h.trans helems⟩

theorem existsUnique_owner_nudges {l : List ι} (hl : l.Nodup)
    (hkeys : ((nudges v ε l).map Prod.snd).Nodup) {i : ι} (hi : i ∈ l) :
    ∃! k, owner (nudges v ε l) k = some i := by
  refine existsUnique_owner hkeys (nodup_map_fst_nudges hl) ?_
  rwa [map_fst_nudges, List.mem_reverse]

end BenchFFT
