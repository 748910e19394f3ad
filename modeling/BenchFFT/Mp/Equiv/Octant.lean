import BenchFFT.Mp.Trig
import Mathlib.Analysis.SpecialFunctions.Trigonometric.Complex

/-!
# The reduction to an octant

`cos2pi(m, n)` and `sin2pi(m, n)` take the sign off `m`, then halve the range of `m / n` until it is
not more than `1 / 8`.  Each step leaves the cosine or the sine of the angle in place, up to its
sign, so that the result is as good as the evaluation in the octant (`right`): it is in the relation
`R` to the exact value, where `R` is any relation that keeps its truth under a change of both signs.

The cosine is zero at a quarter and at three quarters of a turn, the sine at none and at a half
(`eq_quarter_of_cos`, `eq_half_of_sin`).
-/

namespace BenchFFT.Mp

open Real

section

variable {A : Type} [Neg A] {baseCos baseSin : ℚ → ℚ → Option A} {R : A → ℝ → Prop} {m n : ℚ}

/-- `2*pi*m/n`. -/
noncomputable def angle (m n : ℚ) : ℝ := (2 : ℕ) * π * (m / n)

theorem angle_neg (m n : ℚ) : angle (-m) n = -angle m n := by
  simp [angle, neg_div]

theorem angle_sub (hn : n ≠ 0) (m : ℚ) : angle (n - m) n = 2 * π - angle m n := by
  have hn' : (n : ℝ) ≠ 0 := by exact_mod_cast hn
  rw [angle, angle]
  push_cast
  field_simp

theorem angle_sub_quarter (hn : n ≠ 0) (m : ℚ) :
    angle (m - n * (1 / 4)) n = angle m n - π / 2 := by
  have hn' : (n : ℝ) ≠ 0 := by exact_mod_cast hn
  rw [angle, angle]
  push_cast
  field_simp
  ring

theorem angle_quarter_sub (hn : n ≠ 0) (m : ℚ) :
    angle (n * (1 / 4) - m) n = π / 2 - angle m n := by
  rw [← neg_sub m, angle_neg, angle_sub_quarter hn, neg_sub]

/-- There is a result, and it is in the relation `R` to `x`. -/
def Yields (R : A → ℝ → Prop) (o : Option A) (x : ℝ) : Prop := ∃ a, o = some a ∧ R a x

theorem Yields.neg (hR : ∀ a x, R a x → R (-a) (-x)) {o : Option A} {x : ℝ} (h : Yields R o x) :
    Yields R (o >>= fun a => some (-a)) (-x) := by
  obtain ⟨a, rfl, ha⟩ := h
  exact ⟨-a, rfl, hR a x ha⟩

variable (baseCos baseSin R) in
/-- Both functions are right at `m` and `n`. -/
def Right (n m : ℚ) : Prop :=
  Yields R (cosOctant baseCos baseSin m n) (cos (angle m n)) ∧
    Yields R (sinOctant baseCos baseSin m n) (sin (angle m n))

theorem cosOctant_eq (m n : ℚ) : cosOctant baseCos baseSin m n
    = if m < 0 then cosOctant baseCos baseSin (-m) n
      else if n * (1 / 2) < m then cosOctant baseCos baseSin (n - m) n
      else if n * (1 / 4) < m then
        sinOctant baseCos baseSin (m - n * (1 / 4)) n >>= fun a => some (-a)
      else if n * (1 / 8) < m then sinOctant baseCos baseSin (n * (1 / 4) - m) n
      else baseCos m n := by
  rw [cosOctant, Octant.eval]
  rfl

theorem sinOctant_eq (m n : ℚ) : sinOctant baseCos baseSin m n
    = if m < 0 then sinOctant baseCos baseSin (-m) n >>= fun a => some (-a)
      else if n * (1 / 2) < m then sinOctant baseCos baseSin (n - m) n >>= fun a => some (-a)
      else if n * (1 / 4) < m then cosOctant baseCos baseSin (m - n * (1 / 4)) n
      else if n * (1 / 8) < m then cosOctant baseCos baseSin (n * (1 / 4) - m) n
      else baseSin m n := by
  rw [sinOctant, Octant.eval]
  rfl

/-! ### The steps -/

theorem right_base (hn : 0 < n) (h0 : 0 ≤ m) (h1 : m ≤ n * (1 / 8))
    (hcos : Yields R (baseCos m n) (cos (angle m n)))
    (hsin : Yields R (baseSin m n) (sin (angle m n))) : Right baseCos baseSin R n m := by
  have h2 : ¬n * (1 / 2) < m := by linarith
  have h4 : ¬n * (1 / 4) < m := by linarith
  constructor
  · rwa [cosOctant_eq, if_neg h0.not_gt, if_neg h2, if_neg h4, if_neg h1.not_gt]
  · rwa [sinOctant_eq, if_neg h0.not_gt, if_neg h2, if_neg h4, if_neg h1.not_gt]

theorem right_of_quarter_sub (hn : 0 < n) (h1 : n * (1 / 8) < m) (h2 : m ≤ n * (1 / 4))
    (h : Right baseCos baseSin R n (n * (1 / 4) - m)) : Right baseCos baseSin R n m := by
  obtain ⟨hcos, hsin⟩ := h
  rw [angle_quarter_sub hn.ne'] at hcos hsin
  rw [cos_pi_div_two_sub] at hcos
  rw [sin_pi_div_two_sub] at hsin
  have h0 : ¬m < 0 := by linarith
  have h3 : ¬n * (1 / 2) < m := by linarith
  constructor
  · rwa [cosOctant_eq, if_neg h0, if_neg h3, if_neg h2.not_gt, if_pos h1]
  · rwa [sinOctant_eq, if_neg h0, if_neg h3, if_neg h2.not_gt, if_pos h1]

variable (hR : ∀ a x, R a x → R (-a) (-x))

include hR

theorem right_of_sub_quarter (hn : 0 < n) (h1 : n * (1 / 4) < m) (h2 : m ≤ n * (1 / 2))
    (h : Right baseCos baseSin R n (m - n * (1 / 4))) : Right baseCos baseSin R n m := by
  obtain ⟨hcos, hsin⟩ := h
  rw [angle_sub_quarter hn.ne'] at hcos hsin
  rw [cos_sub_pi_div_two] at hcos
  rw [sin_sub_pi_div_two] at hsin
  have h0 : ¬m < 0 := by linarith
  constructor
  · rw [cosOctant_eq, if_neg h0, if_neg h2.not_gt, if_pos h1]
    simpa using hsin.neg hR
  · rwa [sinOctant_eq, if_neg h0, if_neg h2.not_gt, if_pos h1]

theorem right_of_sub (hn : 0 < n) (h1 : n * (1 / 2) < m)
    (h : Right baseCos baseSin R n (n - m)) : Right baseCos baseSin R n m := by
  obtain ⟨hcos, hsin⟩ := h
  rw [angle_sub hn.ne'] at hcos hsin
  rw [cos_two_pi_sub] at hcos
  rw [sin_two_pi_sub] at hsin
  have h0 : ¬m < 0 := by linarith
  constructor
  · rwa [cosOctant_eq, if_neg h0, if_pos h1]
  · rw [sinOctant_eq, if_neg h0, if_pos h1]
    simpa using hsin.neg hR

theorem right_of_neg (h0 : m < 0) (h : Right baseCos baseSin R n (-m)) :
    Right baseCos baseSin R n m := by
  obtain ⟨hcos, hsin⟩ := h
  rw [angle_neg] at hcos hsin
  rw [cos_neg] at hcos
  rw [sin_neg] at hsin
  constructor
  · rwa [cosOctant_eq, if_pos h0]
  · rw [sinOctant_eq, if_pos h0]
    simpa using hsin.neg hR

/-! ### The reduction -/

variable {P : ℚ → Prop} (hPneg : ∀ m, P m → P (-m)) (hPsub : ∀ m, P m → P (n - m))
  (hPquarter : ∀ m, P m → P (m - n * (1 / 4))) (hn : 0 < n)
  (hcos : ∀ m, P m → 0 ≤ m → m ≤ n * (1 / 8) → Yields R (baseCos m n) (cos (angle m n)))
  (hsin : ∀ m, P m → 0 ≤ m → m ≤ n * (1 / 8) → Yields R (baseSin m n) (sin (angle m n)))

include hPneg hPsub hPquarter hn hcos hsin

/-- On the first turn. -/
theorem right_turn (hP : P m) (h0 : 0 ≤ m) (h1 : m ≤ n) : Right baseCos baseSin R n m := by
  have hquarter : ∀ m, P m → 0 ≤ m → m ≤ n * (1 / 4) → Right baseCos baseSin R n m := by
    intro m hP h0 h1
    rcases le_or_gt m (n * (1 / 8)) with h | h
    · exact right_base hn h0 h (hcos m hP h0 h) (hsin m hP h0 h)
    · have hP' : P (n * (1 / 4) - m) := by simpa using hPneg _ (hPquarter m hP)
      have h0' : 0 ≤ n * (1 / 4) - m := by linarith
      have h1' : n * (1 / 4) - m ≤ n * (1 / 8) := by linarith
      exact right_of_quarter_sub hn h h1
        (right_base hn h0' h1' (hcos _ hP' h0' h1') (hsin _ hP' h0' h1'))
  have hhalf : ∀ m, P m → 0 ≤ m → m ≤ n * (1 / 2) → Right baseCos baseSin R n m := by
    intro m hP h0 h1
    rcases le_or_gt m (n * (1 / 4)) with h | h
    · exact hquarter m hP h0 h
    · exact right_of_sub_quarter hR hn h h1
        (hquarter _ (hPquarter m hP) (by linarith) (by linarith))
  rcases le_or_gt m (n * (1 / 2)) with h | h
  · exact hhalf m hP h0 h
  · exact right_of_sub hR hn h (hhalf _ (hPsub m hP) (by linarith) (by linarith))

/-- For every angle: one that is greater than a turn is moved down by it, in two steps. -/
theorem right (hP : P m) : Right baseCos baseSin R n m := by
  -- past a turn, the reduction subtracts `n` and changes the sign back and forth
  have hturns : ∀ k : ℕ, ∀ m, P m → 0 ≤ m → m ≤ k * n → Right baseCos baseSin R n m := by
    intro k
    induction k with
    | zero =>
      intro m hP h0 h1
      rw [Nat.cast_zero, zero_mul] at h1
      exact right_turn hR hPneg hPsub hPquarter hn hcos hsin hP h0 (by linarith)
    | succ k ih =>
      intro m hP h0 h1
      push_cast at h1
      rcases le_or_gt m n with h | h
      · exact right_turn hR hPneg hPsub hPquarter hn hcos hsin hP h0 h
      · have hP' : P (-(n - m)) := hPneg _ (hPsub m hP)
        exact right_of_sub hR hn (by linarith) (right_of_neg hR (by linarith)
          (ih _ hP' (by linarith) (by linarith)))
  have hpos : ∀ m, P m → 0 ≤ m → Right baseCos baseSin R n m := by
    intro m hP h0
    obtain ⟨k, hk⟩ := exists_nat_ge (m / n)
    exact hturns k m hP h0 ((div_le_iff₀ hn).mp hk)
  rcases lt_or_ge m 0 with h | h
  · exact right_of_neg hR h (hpos _ (hPneg m hP) (by linarith))
  · exact hpos m hP h

end

/-! ### Exact evaluation -/

/-- **The reduction is total and exact.**  With base cases that give the cosine and the sine between
`0` and `n / 8`, the two functions give them for every angle.  Elsewhere the base cases are
arbitrary, and may have no result: so they are evaluated between `0` and `n / 8` only. -/
theorem octant_exact {baseCos baseSin : ℚ → ℚ → Option ℝ} {n : ℚ} (hn : 0 < n)
    (hcos : ∀ m, 0 ≤ m → m ≤ n / 8 → baseCos m n = some (cos (2 * π * m / n)))
    (hsin : ∀ m, 0 ≤ m → m ≤ n / 8 → baseSin m n = some (sin (2 * π * m / n))) (m : ℚ) :
    cosOctant baseCos baseSin m n = some (cos (2 * π * m / n)) ∧
      sinOctant baseCos baseSin m n = some (sin (2 * π * m / n)) := by
  have hangle : ∀ m : ℚ, angle m n = 2 * π * m / n := fun m => by
    rw [angle, Nat.cast_ofNat, mul_div_assoc]
  have heighth : ∀ {m : ℚ}, m ≤ n * (1 / 8) → m ≤ n / 8 := fun h => by linarith
  have hright : Right baseCos baseSin (fun a x => a = x) n m :=
    right (P := fun _ => True) (fun a x h => by rw [h]) (fun _ _ => trivial) (fun _ _ => trivial)
      (fun _ _ => trivial) hn (fun m _ h0 h1 => ⟨_, hcos m h0 (heighth h1), by rw [hangle]⟩)
      (fun m _ h0 h1 => ⟨_, hsin m h0 (heighth h1), by rw [hangle]⟩) trivial
  obtain ⟨⟨c, hc, rfl⟩, ⟨s, hs, rfl⟩⟩ := hright
  rw [← hangle]
  exact ⟨hc, hs⟩

/-- Base cases without a result outside the octant, and an angle past two turns, backwards. -/
theorem octant_exact_neg :
    cosOctant (fun m n => if 0 ≤ m ∧ m ≤ n / 8 then some (cos (2 * π * m / n)) else none)
        (fun m n => if 0 ≤ m ∧ m ≤ n / 8 then some (sin (2 * π * m / n)) else none) (-17) 7
      = some (cos (2 * π * (-17 : ℚ) / (7 : ℚ))) ∧
    sinOctant (fun m n => if 0 ≤ m ∧ m ≤ n / 8 then some (cos (2 * π * m / n)) else none)
        (fun m n => if 0 ≤ m ∧ m ≤ n / 8 then some (sin (2 * π * m / n)) else none) (-17) 7
      = some (sin (2 * π * (-17 : ℚ) / (7 : ℚ))) :=
  octant_exact (by norm_num) (fun _ h0 h1 => if_pos ⟨h0, h1⟩) (fun _ h0 h1 => if_pos ⟨h0, h1⟩) _

/-! ### Zeros -/

section Zeros

variable {m n : ℚ}

/-- A fraction of a turn below a whole one. -/
theorem fraction_range {i d : ℤ} (hn0 : 0 < n) (hd : 0 < d) (h0 : 0 ≤ m) (h1 : m < n)
    (hm : m = n * i / d) : 0 ≤ i ∧ i < d := by
  have hd' : (0 : ℚ) < d := by exact_mod_cast hd
  rw [hm] at h0 h1
  constructor
  · have h := mul_nonneg h0 hd'.le
    rw [div_mul_cancel₀ _ hd'.ne'] at h
    exact_mod_cast nonneg_of_mul_nonneg_right h hn0
  · rw [div_lt_iff₀ hd', mul_lt_mul_iff_right₀ hn0] at h1
    exact_mod_cast h1

theorem eq_quarter_of_cos (hn0 : 0 < n) (h0 : 0 ≤ m) (h1 : m < n) (hcos : cos (angle m n) = 0) :
    m = n * (1 / 4) ∨ n - m = n * (1 / 4) := by
  have hn0' : (n : ℝ) ≠ 0 := by exact_mod_cast hn0.ne'
  obtain ⟨k, hk⟩ := cos_eq_zero_iff.mp hcos
  have hm : (m : ℝ) = n * (2 * k + 1 : ℤ) / (4 : ℤ) := by
    rw [angle, Nat.cast_ofNat] at hk
    have hpi := pi_ne_zero
    push_cast
    field_simp at hk
    linarith
  have hm' : m = n * (2 * k + 1 : ℤ) / (4 : ℤ) := by exact_mod_cast hm
  obtain ⟨hk0, hk1⟩ := fraction_range hn0 (by decide) h0 h1 hm'
  rcases (by omega : k = 0 ∨ k = 1) with rfl | rfl
  · left
    rw [hm']
    push_cast
    ring
  · right
    rw [hm']
    push_cast
    ring

theorem eq_half_of_sin (hn0 : 0 < n) (h0 : 0 ≤ m) (h1 : m < n) (hsin : sin (angle m n) = 0) :
    m = 0 ∨ m = n * (1 / 2) := by
  have hn0' : (n : ℝ) ≠ 0 := by exact_mod_cast hn0.ne'
  obtain ⟨k, hk⟩ := sin_eq_zero_iff.mp hsin
  have hm : (m : ℝ) = n * k / (2 : ℤ) := by
    rw [angle, Nat.cast_ofNat] at hk
    have hpi := pi_ne_zero
    push_cast
    field_simp at hk
    linarith
  have hm' : m = n * k / (2 : ℤ) := by exact_mod_cast hm
  obtain ⟨hk0, hk1⟩ := fraction_range hn0 (by decide) h0 h1 hm'
  rcases (by omega : k = 0 ∨ k = 1) with rfl | rfl
  · left
    rw [hm', Int.cast_zero, mul_zero, zero_div]
  · right
    rw [hm']
    push_cast
    ring

end Zeros

end BenchFFT.Mp
