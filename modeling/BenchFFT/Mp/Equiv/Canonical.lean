import BenchFFT.Mp.Equiv.Trig

/-!
# The operations give canonical numbers

Everything goes through `pack`, which drops leading zeros, except `fromreal`, `fromshort` and `neg`:

* `fromreal` scales its argument until the top digit is not `0`, and returns `zero` for `0`;
* `fromshort` has no such case, and `fromshort 0` is not canonical (`fromshort_canonical_iff`);
* `neg` is only called on numbers that are not zero, as long as `0 ≤ m < n` in `cos2pi` and `sin2pi`
  (`cos2pi_canonical`).

Products need little of their operands: one that is blank, all of its bytes zero, will do
(`Factor`).
-/

namespace BenchFFT.Mp

open N Limbs Real

/-! ### Sums and products -/

namespace N

variable {w : ℕ} {a b : N}

/-- A number with a sign, or without a digit. -/
def Factor (a : N) : Prop := IsSign a.sign ∨ a.mant = 0

theorem Canonical.factor (h : a.Canonical) : Factor a := Or.inl h.isSign

theorem addmag_canonical {s : ℤ} (hs : IsSign s) (ha : IsSign a.sign) (hb : IsSign b.sign) :
    (addmag w s a b).Canonical := by
  unfold addmag
  split_ifs
  · exact pack_canonical (IsSign.mul (Or.inl rfl) ha) _
  · exact pack_canonical (hs.mul hb) _

theorem submag_canonical {s : ℤ} (hs : IsSign s) (ha : IsSign a.sign) (hb : IsSign b.sign) :
    (submag w s a b).Canonical := by
  unfold submag
  split_ifs
  · exact pack_canonical (IsSign.mul (Or.inl rfl) ha) _
  · exact pack_canonical (hs.mul hb) _

theorem add_canonical (ha : IsSign a.sign) (hb : IsSign b.sign) : (a + b).Canonical := by
  show (add 64 a b).Canonical
  unfold add
  split_ifs
  · exact addmag_canonical (Or.inl rfl) ha hb
  · exact submag_canonical (Or.inl rfl) ha hb

theorem sub_canonical (ha : IsSign a.sign) (hb : IsSign b.sign) : (a - b).Canonical := by
  show (sub 64 a b).Canonical
  unfold sub
  split_ifs
  · exact submag_canonical (Or.inr rfl) ha hb
  · exact addmag_canonical (Or.inr rfl) ha hb

theorem mul_canonical (ha : Factor a) (hb : Factor b) : (a * b).Canonical := by
  obtain ⟨d, hV, heq⟩ := exists_mul (w := 64) (by decide) b a
  show (mul 64 a b).Canonical
  rw [heq]
  by_cases h0 : value 65536 (2 * len) (digitsFrom d 0) = 0
  · exact Or.inl (pack_of_value_eq_zero _ _ h0)
  · rw [hV, ← ne_eq, Nat.mul_ne_zero_iff] at h0
    exact pack_canonical ((ha.resolve_right h0.1).mul (hb.resolve_right h0.2)) _

theorem Canonical.mul (ha : a.Canonical) (hb : b.Canonical) : (a * b).Canonical :=
  mul_canonical ha.factor hb.factor

theorem Canonical.add (ha : a.Canonical) (hb : b.Canonical) : (a + b).Canonical :=
  add_canonical ha.isSign hb.isSign

theorem Canonical.sub (ha : a.Canonical) (hb : b.Canonical) : (a - b).Canonical :=
  sub_canonical ha.isSign hb.isSign

end N

/-! ### Conversions -/

theorem fromreal_canonical {x : ℚ} {a : N} (h : fromreal (.fin x) = some a) : a.Canonical := by
  by_cases h0 : x = 0
  · rw [h0, fromreal_zero] at h
    exact Or.inl (Option.some.inj h).symm
  · obtain ⟨b, y, e, hrun, -, hy, -, hsign, -, -, hmant⟩ := fromreal_ne_zero h0
    obtain rfl : b = a := Option.some.inj (hrun.symm.trans h)
    -- the scaled argument is at least `1 / RADIX`
    have hle : ((65536 ^ (len - 1) : ℕ) : ℤ) ≤ b.mant := by
      rw [hmant, Int.le_floor, len]
      push_cast
      linarith
    exact Or.inr ⟨digit_ne_zero (by exact_mod_cast hle), hsign⟩

/-- Scaling leaves an infinity where it is. -/
theorem scaleDown_posInf (e : ℤ) : scaleDown some .posInf e = none := by
  have hscale : (.posInf * .fin iradix : Real') = .posInf := by
    rw [ExtNum.posInf_mul_fin, ExtNum.infOfSign_of_pos (by norm_num [iradix, realRadix])]
  have hle : (.fin 1 : Real') ≤ .posInf := ExtNum.fin_le_posInf 1
  refine Option.eq_none_iff_forall_ne_some.mpr fun r hr => ?_
  -- a run with a result would leave the loop, which its test does not let it
  refine ForEver.run_induction (P := fun s => s.1 = .posInf) (Q := fun _ => False) ?_ ?_ rfl hr
  · rintro ⟨x, e⟩ t rfl hbody
    dsimp only at hbody
    rw [if_pos hle, onFinite_some] at hbody
    cases hbody
  · rintro ⟨x, e⟩ s' rfl hbody
    dsimp only at hbody
    rw [if_pos hle, onFinite_some] at hbody
    obtain rfl := Sum.inr.inj (Option.some.inj hbody)
    exact hscale

/-- The conversion of `1.0 / 0.0` never ends. -/
theorem fromreal_posInf : fromreal .posInf = none := by
  have hpos : (0 : Real') < .posInf := ExtNum.fin_lt_posInf 0
  have hne : (.posInf : Real') ≠ 0 := fun h => by cases h
  simp only [fromreal, fromrealM, if_neg hne, if_pos hpos, scaleDown_posInf,
    Option.bind_eq_bind, Option.bind_none]

theorem fromshort_canonical_iff {x : ℤ} (hx : |x| < 65536) : (fromshort x).Canonical ↔ x ≠ 0 := by
  constructor
  · rintro h rfl
    rcases h with h | h
    · exact absurd h (by decide)
    · exact absurd h.1 (by decide)
  · intro h0
    -- the top digit is the number itself
    have htop : (fromshort x).digit (len - 1) = UInt16.ofInt |x| := by
      have habs : (if x < 0 then -x else x) = |x| := by
        split_ifs with h
        · exact (abs_of_neg h).symm
        · exact (abs_of_nonneg (not_lt.mp h)).symm
      rw [← habs]
      rfl
    refine Or.inr ⟨fun h => ?_, ?_⟩
    · have htoNat := toNat_ofInt (abs_nonneg x) hx
      rw [← htop, h] at htoNat
      exact h0 (abs_eq_zero.mp htoNat.symm)
    · show IsSign (if x < 0 then -1 else 1)
      split_ifs
      · exact Or.inr rfl
      · exact Or.inl rfl

theorem fromshort_sign_isSign (x : ℤ) : IsSign (fromshort x).sign := by
  show IsSign (if x < 0 then -1 else 1)
  split_ifs
  · exact Or.inr rfl
  · exact Or.inl rfl

/-! ### Reciprocals -/

theorem newton_canonical {a x y : N} (ha : a.Canonical) (hx : x.Canonical)
    (h : newton a x = some y) : y.Canonical := by
  have htwo : IsSign (fromshort 2).sign := Or.inl rfl
  refine ForEver.run_induction (P := N.Canonical) (Q := N.Canonical) ?_ ?_ hx h
  · intro x t hx hbody
    dsimp only at hbody
    split_ifs at hbody
    · obtain rfl := Sum.inl.inj (Option.some.inj hbody)
      exact hx
    · cases hbody
  · intro x x' hx hbody
    dsimp only at hbody
    split_ifs at hbody
    · cases hbody
    · obtain rfl := Sum.inr.inj (Option.some.inj hbody)
      exact hx.mul (sub_canonical htwo (ha.mul hx).isSign)

theorem inv_canonical {rnd : ℚ → ℚ} {a x : N} (ha : a.Canonical) (h : inv rnd a = some x) :
    x.Canonical := by
  obtain ⟨x0, hguess, hnewton⟩ := Option.bind_eq_some_iff.mp h
  refine newton_canonical ha ?_ hnewton
  rw [realDiv, ExtNum.fin_div_fin] at hguess
  split_ifs at hguess
  · rw [ExtNum.infOfSign_of_pos one_pos] at hguess
    exact absurd (fromreal_posInf.symm.trans hguess) (by simp)
  · exact fromreal_canonical hguess

/-! ### Sines and cosines -/

theorem taylorLoop_canonical {a2 : N} (ha : a2.Canonical) (top : ℤ) (steps : ℕ) {s : N × N}
    (hg : s.1.Canonical) (hb : s.2.Canonical) :
    (taylorLoop a2 top steps s).1.Canonical ∧ (taylorLoop a2 top steps s).2.Canonical := by
  unfold taylorLoop
  apply forRange_induction (fun _ (s : N × N) => s.1.Canonical ∧ s.2.Canonical) ⟨hg, hb⟩
  rintro j - s ⟨hg, hb⟩
  have hg' : (taylorStep a2 (top - 2 * j) s).1.Canonical :=
    mul_canonical (Or.inl (fromshort_sign_isSign _)) hg.factor
  exact ⟨hg', hg'.sub (ha.mul hb)⟩

theorem msin_canonical {a : N} (ha : a.Canonical) : (msin a).Canonical :=
  ha.mul (taylorLoop_canonical (ha.mul ha) 31 15 i31fac_small.canonical i31fac_small.canonical).2

theorem mcos_canonical {a : N} (ha : a.Canonical) : (mcos a).Canonical :=
  (taylorLoop_canonical (ha.mul ha) 32 16 i32fac_small.canonical i32fac_small.canonical).2

theorem by2pi_canonical {rnd : ℚ → ℚ} {m n : ℚ} {a : N} (h : by2pi rnd m n = some a) :
    a.Canonical := by
  obtain ⟨b, hb, h⟩ := Option.bind_eq_some_iff.mp h
  obtain ⟨x, hx, h⟩ := Option.bind_eq_some_iff.mp h
  obtain ⟨c, hc, h⟩ := Option.bind_eq_some_iff.mp h
  obtain rfl := Option.some.inj h
  exact n2pi_small.canonical.mul
    ((inv_canonical (fromreal_canonical hb) hx).mul (fromreal_canonical hc))

section Octant

variable {rnd : ℚ → ℚ} {m n : ℚ}

/-- A canonical number that is not zero, unless it stands for `0`. -/
def Proper (a : N) (x : ℝ) : Prop := x ≠ 0 → a.Canonical ∧ a ≠ zero

theorem Proper.neg {a : N} {x : ℝ} (h : Proper a x) : Proper (-a) (-x) := by
  intro hx
  obtain ⟨ha, ha0⟩ := h (neg_ne_zero.mp hx)
  obtain ⟨htop, hsign⟩ := ha.resolve_left ha0
  refine ⟨Or.inr ⟨htop, hsign.neg⟩, fun h0 => htop ?_⟩
  exact congrArg (fun a : N => a.digit (len - 1)) h0

theorem base_proper (hrnd : Rounds rnd) (hn : IsDouble n) (hn0 : 0 < n) (hm : Grid m) (h0 : 0 ≤ m)
    (h1 : m ≤ n * (1 / 8)) :
    Yields Proper (baseCos rnd m n) (cos (angle m n)) ∧
      Yields Proper (baseSin rnd m n) (sin (angle m n)) := by
  obtain ⟨a, hrun, ha, ha0, ha1, -, hpos⟩ := by2pi_octant hrnd hn hn0 hm h0 h1
  constructor
  · refine ⟨mcos a, ?_, fun _ => ⟨mcos_canonical ha.canonical, mcos_ne_zero ha ha0 ha1⟩⟩
    rw [baseCos, hrun, Option.map_some]
  · refine ⟨msin a, ?_, fun hsin => ⟨msin_canonical ha.canonical, ?_⟩⟩
    · rw [baseSin, hrun, Option.map_some]
    · have hm0 : m ≠ 0 := by
        rintro rfl
        exact hsin (by simp [angle])
      exact msin_ne_zero ha (hpos (lt_of_le_of_ne h0 hm0.symm)) (by linarith)

/-- `sin2pi(0, n)`. -/
theorem sin2pi_zero (hrnd : Rounds rnd) (hn : IsDouble n) (hn0 : 0 < n) :
    ∃ a, sin2pi rnd 0 n = some a ∧ a.Canonical := by
  obtain ⟨a, hrun, ha, -⟩ := by2pi_octant hrnd hn hn0 ⟨0, by simp⟩ le_rfl (by linarith)
  refine ⟨msin a, ?_, msin_canonical ha.canonical⟩
  rw [sin2pi, sinOctant_eq, if_neg (lt_irrefl 0), if_neg (by linarith), if_neg (by linarith),
    if_neg (by linarith), baseSin, hrun, Option.map_some]

/-- A quarter turn. -/
theorem cos2pi_quarter (hn0 : 0 < n) : cos2pi rnd (n * (1 / 4)) n = sin2pi rnd 0 n := by
  rw [cos2pi, cosOctant_eq, if_neg (by linarith), if_neg (by linarith), if_neg (lt_irrefl _),
    if_pos (by linarith), sub_self]
  rfl

/-- Zero is never negated. -/
theorem cos2pi_canonical (hrnd : Rounds rnd) (hn : IsDouble n) (hm : Grid m) (h0 : 0 ≤ m)
    (h1 : m < n) : ∃ a, cos2pi rnd m n = some a ∧ a.Canonical := by
  have hn0 : 0 < n := h0.trans_lt h1
  by_cases hcos : cos (angle m n) = 0
  · obtain ⟨a, hrun, ha⟩ := sin2pi_zero hrnd hn hn0
    refine ⟨a, ?_, ha⟩
    rcases eq_quarter_of_cos hn0 h0 h1 hcos with rfl | hsub
    · rw [cos2pi_quarter hn0, hrun]
    · have hhalf : n * (1 / 2) < m := by linarith
      rw [cos2pi, cosOctant_eq, if_neg h0.not_gt, if_pos hhalf, hsub]
      exact (cos2pi_quarter hn0).trans hrun
  · obtain ⟨⟨a, hrun, ha⟩, -⟩ := right_of_grid (fun _ _ h => h.neg) hn hn0
      (fun m hm h0 h1 => base_proper hrnd hn hn0 hm h0 h1) hm
    exact ⟨a, hrun, (ha hcos).1⟩

theorem sin2pi_canonical (hrnd : Rounds rnd) (hn : IsDouble n) (hm : Grid m) (h0 : 0 ≤ m)
    (h1 : m < n) : ∃ a, sin2pi rnd m n = some a ∧ a.Canonical := by
  have hn0 : 0 < n := h0.trans_lt h1
  by_cases hsin : sin (angle m n) = 0
  · obtain ⟨a, hrun, ha⟩ := sin2pi_zero hrnd hn hn0
    refine ⟨a, ?_, ha⟩
    rcases eq_half_of_sin hn0 h0 h1 hsin with rfl | hhalf
    · exact hrun
    · have hsub : m - n * (1 / 4) = n * (1 / 4) := by linarith
      rw [sin2pi, sinOctant_eq, if_neg h0.not_gt, if_neg hhalf.le.not_gt, if_pos (by linarith),
        hsub]
      exact (cos2pi_quarter hn0).trans hrun
  · obtain ⟨-, a, hrun, ha⟩ := right_of_grid (fun _ _ h => h.neg) hn hn0
      (fun m hm h0 h1 => base_proper hrnd hn hn0 hm h0 h1) hm
    exact ⟨a, hrun, (ha hsin).1⟩

end Octant

end BenchFFT.Mp
