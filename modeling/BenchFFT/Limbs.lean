import Mathlib.Algebra.BigOperators.Intervals
import Mathlib.Algebra.BigOperators.Ring.Finset
import Mathlib.Algebra.Order.BigOperators.Group.Finset
import Mathlib.Tactic.Ring

/-!
# Positional numbers

`value B l d = ∑_{i<l} d i * B^i` is the number with the digits `d 0, …, d (l - 1)` in base `B`.

* Cutting off the low digits is a division by a power of the base (`value_div`).
* The order is decided by the most significant difference (`value_lt_value`).
-/

namespace BenchFFT.Limbs

open Finset

def value (B l : ℕ) (d : ℕ → ℕ) : ℕ := ∑ i ∈ range l, d i * B ^ i

variable {B : ℕ}

@[simp] theorem value_zero (d : ℕ → ℕ) : value B 0 d = 0 := rfl

theorem value_succ (l : ℕ) (d : ℕ → ℕ) : value B (l + 1) d = value B l d + d l * B ^ l :=
  sum_range_succ _ _

theorem value_congr {l : ℕ} {d e : ℕ → ℕ} (h : ∀ i < l, d i = e i) : value B l d = value B l e :=
  sum_congr rfl fun i hi => by rw [h i (mem_range.mp hi)]

theorem value_add (m l : ℕ) (d : ℕ → ℕ) :
    value B (m + l) d = value B m d + B ^ m * value B l fun i => d (m + i) := by
  rw [value, sum_range_add, value, value, mul_sum]
  congr 1
  refine sum_congr rfl fun i _ => ?_
  rw [pow_add]
  ring

theorem value_lt {l : ℕ} {d : ℕ → ℕ} (hd : ∀ i < l, d i < B) : value B l d < B ^ l := by
  induction l with
  | zero => exact Nat.one_pos
  | succ l ih =>
    have hl := hd l l.lt_succ_self
    calc value B (l + 1) d = value B l d + d l * B ^ l := value_succ l d
      _ < B ^ l + d l * B ^ l :=
        Nat.add_lt_add_right (ih fun i hi => hd i (Nat.lt_succ_of_lt hi)) _
      _ = (d l + 1) * B ^ l := by ring
      _ ≤ B ^ (l + 1) := by
        rw [pow_succ']
        exact Nat.mul_le_mul_right _ hl

/-- Cutting off the `m` low digits. -/
theorem value_div {m : ℕ} (l : ℕ) {d : ℕ → ℕ} (hd : ∀ i < m, d i < B) :
    value B (m + l) d / B ^ m = value B l fun i => d (m + i) := by
  have hlt := value_lt hd
  rw [value_add, Nat.add_mul_div_left _ _ (Nat.zero_lt_of_lt hlt), Nat.div_eq_of_lt hlt,
    Nat.zero_add]

theorem value_eq_zero_iff (hB : 0 < B) {l : ℕ} {d : ℕ → ℕ} :
    value B l d = 0 ↔ ∀ i < l, d i = 0 := by
  rw [value, sum_eq_zero_iff]
  refine forall_congr' fun i => ?_
  rw [mem_range, Nat.mul_eq_zero, or_iff_left (Nat.pow_pos hB).ne']

/-- The most significant digit bounds the number from below. -/
theorem le_value {l : ℕ} {d : ℕ → ℕ} (hl : d l ≠ 0) : B ^ l ≤ value B (l + 1) d := by
  rw [value_succ]
  exact le_add_left (Nat.le_mul_of_pos_left _ (Nat.pos_of_ne_zero hl))

/-- The digits of a number are unique. -/
theorem value_inj {l : ℕ} {d e : ℕ → ℕ} (hd : ∀ i < l, d i < B) (he : ∀ i < l, e i < B)
    (h : value B l d = value B l e) : ∀ i < l, d i = e i := by
  induction l with
  | zero => exact fun i hi => absurd hi i.not_lt_zero
  | succ l ih =>
    have hd' : value B l d < B ^ l := value_lt fun i hi => hd i (Nat.lt_succ_of_lt hi)
    have he' : value B l e < B ^ l := value_lt fun i hi => he i (Nat.lt_succ_of_lt hi)
    have hpos := Nat.zero_lt_of_lt hd'
    rw [value_succ, value_succ] at h
    have htop : d l = e l := by
      have := congrArg (· / B ^ l) h
      simpa [Nat.add_mul_div_right _ _ hpos, Nat.div_eq_of_lt hd', Nat.div_eq_of_lt he'] using this
    have hlow : value B l d = value B l e := by
      rw [htop] at h
      exact Nat.add_right_cancel h
    intro i hi
    rcases Nat.lt_succ_iff_lt_or_eq.mp hi with hi | rfl
    · exact ih (fun i hi => hd i (Nat.lt_succ_of_lt hi)) (fun i hi => he i (Nat.lt_succ_of_lt hi))
        hlow i hi
    · exact htop

/-- The most significant difference decides. -/
theorem value_lt_value {l i : ℕ} {d e : ℕ → ℕ} (hi : i < l) (hd : ∀ j < i, d j < B)
    (hlt : d i < e i) (heq : ∀ j < l, i < j → d j = e j) : value B l d < value B l e := by
  obtain ⟨k, rfl⟩ := Nat.exists_eq_add_of_lt hi
  have hsplit : ∀ f : ℕ → ℕ, value B (i + k + 1) f
      = value B i f + f i * B ^ i + B ^ (i + 1) * value B k fun j => f (i + 1 + j) := fun f => by
    rw [Nat.add_right_comm, value_add, value_succ]
  have hhigh : (value B k fun j => d (i + 1 + j)) = value B k fun j => e (i + 1 + j) :=
    value_congr fun j hj => heq _ (by omega) (by omega)
  rw [hsplit, hsplit, hhigh]
  refine Nat.add_lt_add_right ?_ _
  calc value B i d + d i * B ^ i < B ^ i + d i * B ^ i := Nat.add_lt_add_right (value_lt hd) _
    _ = (d i + 1) * B ^ i := by ring
    _ ≤ e i * B ^ i := Nat.mul_le_mul_right _ hlt
    _ ≤ value B i e + e i * B ^ i := Nat.le_add_left _ _

end BenchFFT.Limbs
