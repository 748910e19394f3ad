import BenchFFT.Report.Mkstat
import Mathlib.Algebra.BigOperators.Intervals
import Mathlib.Algebra.Order.Field.Basic
import Mathlib.Algebra.Order.Field.Rat
import Mathlib.Data.List.Sort
import Mathlib.Order.Bounds.Basic

/-!
# What `mkstat` computes

The extremes and the mean are right (`mkstat_min`, `mkstat_max`, `mkstat_avg`).  The sort exchanges
nothing (`bubblesort_eq`), so that the array stays as it is and the median is right on a sorted
array only (`orderStatistics_iff`).
-/

namespace BenchFFT.Stats

open Finset

variable {K : Type*} [LinearOrder K]

/-! ### The sort -/

/-- A step writes what was there. -/
theorem exchange_eq (j : ℕ) (t : ℕ → K) : exchange j t = t := by
  rw [exchange]
  split_ifs
  · rw [Function.update_eq_self, Function.update_eq_self]
  · rfl

theorem bubblesort_eq (t : ℕ → K) (st : ℕ) : bubblesort t st = t :=
  forRange_induction (fun _ s => s = t) rfl fun _ _ s hs =>
    forRange_induction (fun _ s => s = t) hs fun j _ s hs => by rw [exchange_eq, hs]

/-! ### The extremes and the mean -/

variable [Field K] {t : ℕ → K} {st : ℕ} {a : Stats K}

/-- What the first loop has found in the first `i` cells. -/
structure Noted (t : ℕ → K) (i : ℕ) (a : Stats K) : Prop where
  min_mem : ∃ j, (j < i ∨ j = 0) ∧ t j = a.min
  min_le : ∀ j < i, a.min ≤ t j
  max_mem : ∃ j, (j < i ∨ j = 0) ∧ t j = a.max
  le_max : ∀ j < i, t j ≤ a.max
  avg : a.avg = ∑ j ∈ range i, t j

theorem Noted.note {i : ℕ} (h : Noted t i a) : Noted t (i + 1) (note t i a) := by
  have hmin : (Stats.note t i a).min = Min.min (t i) a.min := by
    rcases lt_or_ge (t i) a.min with hlt | hge
    · rw [min_eq_left hlt.le, Stats.note, if_pos hlt]
      split_ifs <;> rfl
    · rw [min_eq_right hge, Stats.note, if_neg hge.not_gt]
      split_ifs <;> rfl
  have hmax : (Stats.note t i a).max = Max.max (t i) a.max := by
    have hkeep : (if t i < a.min then { a with min := t i } else a).max = a.max := by
      split_ifs <;> rfl
    rcases lt_or_ge a.max (t i) with hlt | hge
    · rw [max_eq_left hlt.le, Stats.note, if_pos (hkeep.symm ▸ hlt)]
    · rw [max_eq_right hge, Stats.note, if_neg (hkeep.symm ▸ hge.not_gt)]
      exact hkeep
  have havg : (Stats.note t i a).avg = a.avg + t i := by
    rw [Stats.note]
    split_ifs <;> rfl
  -- the new sample, or one of the earlier ones
  refine ⟨?_, fun j hj => ?_, ?_, fun j hj => ?_, by rw [havg, h.avg, sum_range_succ]⟩
  · rw [hmin]
    rcases min_choice (t i) a.min with hc | hc
    · exact ⟨i, Or.inl i.lt_succ_self, hc.symm⟩
    · obtain ⟨j, hj, hval⟩ := h.min_mem
      exact ⟨j, hj.imp_left Nat.lt_succ_of_lt, hval.trans hc.symm⟩
  · rw [hmin]
    rcases Nat.lt_succ_iff_lt_or_eq.mp hj with hj | rfl
    · exact (min_le_right _ _).trans (h.min_le j hj)
    · exact min_le_left _ _
  · rw [hmax]
    rcases max_choice (t i) a.max with hc | hc
    · exact ⟨i, Or.inl i.lt_succ_self, hc.symm⟩
    · obtain ⟨j, hj, hval⟩ := h.max_mem
      exact ⟨j, hj.imp_left Nat.lt_succ_of_lt, hval.trans hc.symm⟩
  · rw [hmax]
    rcases Nat.lt_succ_iff_lt_or_eq.mp hj with hj | rfl
    · exact (h.le_max j hj).trans (le_max_right _ _)
    · exact le_max_left _ _

theorem noted (t : ℕ → K) (st : ℕ) (a : Stats K) :
    Noted t st (forRange st (Stats.note t) { a with min := t 0, max := t 0, avg := 0 }) := by
  refine forRange_induction (Noted t) ⟨⟨0, Or.inr rfl, rfl⟩, ?_, ⟨0, Or.inr rfl, rfl⟩, ?_, rfl⟩
    fun i _ a h => h.note
  · exact fun j hj => absurd hj (Nat.not_lt_zero j)
  · exact fun j hj => absurd hj (Nat.not_lt_zero j)

/-! ### The order statistics -/

/-- The samples `t[0], …, t[st - 1]`. -/
def samples (t : ℕ → K) (st : ℕ) : List K := (List.range st).map t

/-- What `mkstat` is for: the array sorted, its extremes, its mean, and the sample of rank
`st / 2`. -/
structure OrderStatistics (t : ℕ → K) (st : ℕ) (r : (ℕ → K) × Stats K) : Prop where
  perm : (samples r.1 st).Perm (samples t st)
  sorted : (samples r.1 st).Pairwise (· ≤ ·)
  min : IsLeast {x | x ∈ samples t st} r.2.min
  max : IsGreatest {x | x ∈ samples t st} r.2.max
  avg : r.2.avg = (samples t st).sum / st
  median : ((samples t st).mergeSort (· ≤ ·))[st / 2]? = some r.2.median

omit [LinearOrder K] [Field K] in
theorem mem_samples {x : K} : x ∈ samples t st ↔ ∃ i < st, t i = x := by
  rw [samples, List.mem_map]
  simp only [List.mem_range]

omit [LinearOrder K] in
theorem sum_range_samples (t : ℕ → K) (st : ℕ) : ∑ i ∈ range st, t i = (samples t st).sum := by
  induction st with
  | zero => rfl
  | succ st ih =>
    rw [sum_range_succ, ih, samples, samples, List.range_succ, List.map_append, List.sum_append]
    simp

theorem mkstat_fst (t : ℕ → K) (st : ℕ) (a : Stats K) : (mkstat t st a).1 = t :=
  bubblesort_eq t st

/-- `mkstat` returns the order statistics exactly of the arrays that are sorted already. -/
theorem orderStatistics_iff (hst : 0 < st) (t : ℕ → K) (a : Stats K) :
    OrderStatistics t st (mkstat t st a) ↔ ∀ i j, i ≤ j → j < st → t i ≤ t j := by
  have hsorted : (samples t st).Pairwise (· ≤ ·) ↔ ∀ i j, i ≤ j → j < st → t i ≤ t j := by
    rw [samples, List.pairwise_map, List.pairwise_iff_getElem]
    simp only [List.length_range, List.getElem_range]
    exact ⟨fun h i j hij hj => hij.lt_or_eq.elim (fun hlt => h i j (hlt.trans hj) hj hlt)
      fun heq => heq ▸ le_rfl, fun h i j _ hj hij => h i j hij.le hj⟩
  have hnoted := noted t st a
  -- the start values are those of the first sample
  have hpos : ∀ j, j < st ∨ j = 0 → j < st := by
    rintro j (hj | rfl)
    · exact hj
    · exact hst
  rw [← hsorted]
  constructor
  · intro h
    have := h.sorted
    rwa [mkstat_fst] at this
  · intro h
    refine ⟨by rw [mkstat_fst], by rwa [mkstat_fst], ⟨?_, ?_⟩, ⟨?_, ?_⟩, ?_, ?_⟩
    · obtain ⟨j, hj, hval⟩ := hnoted.min_mem
      exact mem_samples.mpr ⟨j, hpos j hj, hval⟩
    · rintro x hx
      obtain ⟨j, hj, rfl⟩ := mem_samples.mp hx
      exact hnoted.min_le j hj
    · obtain ⟨j, hj, hval⟩ := hnoted.max_mem
      exact mem_samples.mpr ⟨j, hpos j hj, hval⟩
    · rintro x hx
      obtain ⟨j, hj, rfl⟩ := mem_samples.mp hx
      exact hnoted.le_max j hj
    · rw [← sum_range_samples, ← hnoted.avg]
      rfl
    · rw [List.mergeSort_eq_self (· ≤ ·) h, samples, List.getElem?_map,
        List.getElem?_range (Nat.div_lt_self hst Nat.one_lt_two)]
      rw [mkstat, bubblesort_eq]
      rfl

/-- `3, 1, 2` is left as it is. -/
theorem not_orderStatistics_312 : ¬OrderStatistics ([3, 1, 2].getD · (0 : ℚ)) 3
    (mkstat ([3, 1, 2].getD · 0) 3 ⟨0, 0, 0, 0⟩) := by
  intro h
  have hsorted := h.sorted
  rw [mkstat_fst] at hsorted
  exact absurd hsorted (by decide)

theorem orderStatistics_124 : OrderStatistics ([1, 2, 4].getD · (0 : ℚ)) 3
    (mkstat ([1, 2, 4].getD · 0) 3 ⟨0, 0, 0, 0⟩) := by
  refine (orderStatistics_iff (by decide) _ _).mpr fun i j hij hj => ?_
  have hcases : ∀ j < 3, ∀ i ≤ j, [(1 : ℚ), 2, 4].getD i 0 ≤ [(1 : ℚ), 2, 4].getD j 0 := by decide
  exact hcases j hj i hij

end BenchFFT.Stats
