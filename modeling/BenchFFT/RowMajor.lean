import Mathlib.Algebra.BigOperators.Intervals
import Mathlib.Algebra.BigOperators.Group.List.Basic
import Mathlib.Algebra.Order.BigOperators.Group.List
import Mathlib.Data.List.GetD
import Mathlib.Tactic.Ring

/-!
# Row-major indices

An array of shape `n = [n₀, …, n_{r-1}]` is stored row-major in `n.prod` cells.  The stride of
dimension `d` is `after n d`, the product of the later dimensions, and coordinate `d` of the flat
index `k` is `digit n d k = k / after n d % n[d]`.

`shiftIdx m a c k` adds `c` modulo `m` to the coordinate of `k` along a dimension of length `m` and
stride `a`.  It permutes any range of whole blocks (`sum_shiftIdx`) and leaves the other coordinates
alone (`digit_shiftIdx_ne`).
-/

namespace BenchFFT.RowMajor

open Finset

/-! ### Shifting one coordinate -/

/-- The index `k` with its coordinate along a dimension of length `m` and stride `a` increased by
`c` modulo `m`. -/
def shiftIdx (m a c k : ℕ) : ℕ := k / (m * a) * (m * a) + (k / a + c) % m * a + k % a

section Shift

variable {m a : ℕ} (hm : 0 < m) (ha : 0 < a)

include hm ha

theorem shiftIdx_lt_block (c k : ℕ) : (k / a + c) % m * a + k % a < m * a := by
  have h1 := Nat.mod_lt (k / a + c) hm
  have h2 := Nat.mod_lt k ha
  calc (k / a + c) % m * a + k % a < (k / a + c) % m * a + a := by omega
    _ = ((k / a + c) % m + 1) * a := by ring
    _ ≤ m * a := Nat.mul_le_mul_right a h1

theorem shiftIdx_div_block (c k : ℕ) : shiftIdx m a c k / (m * a) = k / (m * a) := by
  rw [shiftIdx, Nat.add_assoc, Nat.add_comm, Nat.add_mul_div_right _ _ (Nat.mul_pos hm ha),
    Nat.div_eq_of_lt (shiftIdx_lt_block hm ha c k), Nat.zero_add]

omit hm ha in
theorem shiftIdx_mod (c k : ℕ) : shiftIdx m a c k % a = k % a := by
  rw [shiftIdx, ← Nat.mul_assoc, ← Nat.add_mul, Nat.mul_add_mod', Nat.mod_mod]

omit hm in
theorem shiftIdx_div (c k : ℕ) : shiftIdx m a c k / a = k / (m * a) * m + (k / a + c) % m := by
  rw [shiftIdx, ← Nat.mul_assoc, ← Nat.add_mul, Nat.add_comm, Nat.add_mul_div_right _ _ ha,
    Nat.div_eq_of_lt (Nat.mod_lt k ha), Nat.zero_add]

omit hm in
theorem shiftIdx_digit (c k : ℕ) : shiftIdx m a c k / a % m = (k / a + c) % m := by
  rw [shiftIdx_div ha, Nat.mul_add_mod', Nat.mod_mod]

theorem shiftIdx_shiftIdx (c c' k : ℕ) :
    shiftIdx m a c (shiftIdx m a c' k) = shiftIdx m a (c + c') k := by
  have hdigit : (shiftIdx m a c' k / a + c) % m = (k / a + (c + c')) % m := by
    rw [Nat.add_mod, shiftIdx_digit ha, ← Nat.add_mod, Nat.add_assoc, Nat.add_comm c']
  conv_lhs => rw [shiftIdx]
  rw [shiftIdx_div_block hm ha, shiftIdx_mod, hdigit, shiftIdx]

omit hm ha in
theorem shiftIdx_of_mod_eq_zero {c : ℕ} (hc : c % m = 0) (k : ℕ) : shiftIdx m a c k = k := by
  have h1 : k / a % m * a + k % a = k % (m * a) := by
    rw [Nat.mul_comm m a, Nat.mod_mul, Nat.mul_comm, Nat.add_comm]
  rw [shiftIdx, Nat.add_mod, hc, Nat.add_zero, Nat.mod_mod, Nat.add_assoc, h1,
    Nat.div_add_mod' k (m * a)]

theorem shiftIdx_lt {b c k : ℕ} (hk : k < b * (m * a)) : shiftIdx m a c k < b * (m * a) := by
  have h := shiftIdx_div_block hm ha c k
  have hlt : k / (m * a) < b := Nat.div_lt_of_lt_mul (by rwa [Nat.mul_comm])
  rw [← h] at hlt
  exact (Nat.div_lt_iff_lt_mul (Nat.mul_pos hm ha)).mp hlt

/-- The shift by `m * c - c` undoes the shift by `c`. -/
theorem shiftIdx_inverse (c k : ℕ) :
    shiftIdx m a (m * c - c) (shiftIdx m a c k) = k ∧
      shiftIdx m a c (shiftIdx m a (m * c - c) k) = k := by
  have hle : c ≤ m * c := Nat.le_mul_of_pos_left c hm
  rw [shiftIdx_shiftIdx hm ha, shiftIdx_shiftIdx hm ha]
  exact ⟨shiftIdx_of_mod_eq_zero (by rw [Nat.sub_add_cancel hle, Nat.mul_mod_right]) k,
    shiftIdx_of_mod_eq_zero (by rw [Nat.add_sub_cancel' hle, Nat.mul_mod_right]) k⟩

theorem shiftIdx_injective (c : ℕ) : Function.Injective (shiftIdx m a c) :=
  Function.LeftInverse.injective fun k => (shiftIdx_inverse hm ha c k).1

/-- Shifting a coordinate permutes the indices of `b` whole blocks. -/
theorem sum_shiftIdx {M : Type*} [AddCommMonoid M] (b c : ℕ) (f : ℕ → M) :
    ∑ k ∈ range (b * (m * a)), f (shiftIdx m a c k) = ∑ k ∈ range (b * (m * a)), f k := by
  refine Finset.sum_nbij' (shiftIdx m a c) (shiftIdx m a (m * c - c)) ?_ ?_ ?_ ?_ ?_
  · exact fun k hk => mem_range.mpr (shiftIdx_lt hm ha (mem_range.mp hk))
  · exact fun k hk => mem_range.mpr (shiftIdx_lt hm ha (mem_range.mp hk))
  · exact fun k _ => (shiftIdx_inverse hm ha c k).1
  · exact fun k _ => (shiftIdx_inverse hm ha c k).2
  · exact fun _ _ => rfl

/-- Stepping down where the coordinate is positive undoes a shift by one. -/
theorem shiftIdx_one_sub {k : ℕ} (hle : a ≤ k) (hk : k / a % m ≠ 0) :
    shiftIdx m a 1 (k - a) = k := by
  have h1 : (k - a) / a + 1 = k / a := by
    rw [← Nat.add_div_right _ ha, Nat.sub_add_cancel hle]
  have h2 : (k - a) % a = k % a := (Nat.mod_eq_sub_mod hle).symm
  have h3 : (k - a) / (m * a) = k / (m * a) := by
    rw [Nat.mul_comm m a, ← Nat.div_div_eq_div_mul, ← Nat.div_div_eq_div_mul]
    have h4 := Nat.div_add_mod (k / a) m
    have h5 := Nat.mod_lt (k / a) hm
    refine Nat.div_eq_of_lt_le ?_ ?_
    · rw [Nat.mul_comm]
      omega
    · rw [Nat.add_mul, Nat.one_mul, Nat.mul_comm]
      omega
  have h6 := shiftIdx_of_mod_eq_zero (m := m) (a := a) (c := 0) (Nat.zero_mod m) k
  rw [shiftIdx, h1, h2, h3]
  rwa [shiftIdx, Nat.add_zero] at h6

end Shift

/-! ### The coordinates of a flat index -/

/-- The stride of dimension `d`. -/
def after (n : List ℕ) (d : ℕ) : ℕ := (n.drop (d + 1)).prod

/-- The number of blocks that dimension `d` runs through. -/
def before (n : List ℕ) (d : ℕ) : ℕ := (n.take d).prod

/-- Coordinate `d` of the flat index `k`. -/
def digit (n : List ℕ) (d k : ℕ) : ℕ := k / after n d % n.getD d 1

variable {n : List ℕ}

theorem before_mul_after {d : ℕ} (hd : d < n.length) :
    before n d * (n.getD d 1 * after n d) = n.prod := by
  rw [before, after, List.getD_eq_getElem _ _ hd, ← List.prod_cons, List.getElem_cons_drop,
    List.prod_take_mul_prod_drop]

theorem getD_pos (hn : ∀ x ∈ n, 0 < x) (d : ℕ) : 0 < n.getD d 1 := by
  rcases Nat.lt_or_ge d n.length with h | h
  · rw [List.getD_eq_getElem _ _ h]
    exact hn _ (List.getElem_mem h)
  · rw [List.getD_eq_default _ _ h]
    exact Nat.one_pos

theorem after_pos (hn : ∀ x ∈ n, 0 < x) (d : ℕ) : 0 < after n d :=
  List.prod_pos_iff_forall_pos_nat.mpr fun x hx => hn x (List.mem_of_mem_drop hx)

/-- A later dimension and its stride divide the stride of an earlier one. -/
theorem mul_after_dvd {d e : ℕ} (hde : d < e) (he : e < n.length) :
    n.getD e 1 * after n e ∣ after n d := by
  rw [after, after, List.getD_eq_getElem _ _ he, ← List.prod_cons, List.getElem_cons_drop]
  obtain ⟨c, rfl⟩ : ∃ c, e = d + 1 + c := ⟨e - (d + 1), by omega⟩
  rw [← List.drop_drop]
  exact (List.drop_sublist _ _).prod_dvd_prod

theorem digit_lt (hn : ∀ x ∈ n, 0 < x) (d k : ℕ) : digit n d k < n.getD d 1 :=
  Nat.mod_lt _ (getD_pos hn d)

theorem digit_zero (d : ℕ) : digit n d 0 = 0 := by
  rw [digit, Nat.zero_div, Nat.zero_mod]

theorem digit_shiftIdx_self (hn : ∀ x ∈ n, 0 < x) (d c k : ℕ) :
    digit n d (shiftIdx (n.getD d 1) (after n d) c k) = (digit n d k + c) % n.getD d 1 := by
  rw [digit, shiftIdx_digit (after_pos hn d), digit, Nat.mod_add_mod]

/-- A shift along one dimension leaves the other coordinates alone. -/
theorem digit_shiftIdx_ne (hn : ∀ x ∈ n, 0 < x) {d e : ℕ} (hd : d < n.length) (he : e < n.length)
    (hne : d ≠ e) (c k : ℕ) :
    digit n e (shiftIdx (n.getD d 1) (after n d) c k) = digit n e k := by
  have hm := getD_pos hn d
  have ha := after_pos hn d
  rcases Nat.lt_or_gt_of_ne hne with hlt | hgt
  · -- the shift is a multiple of `n[e]` times the stride of `e`
    obtain ⟨q, hq⟩ := mul_after_dvd hlt he
    have h1 : ∀ k, k / after n e % n.getD e 1 = k % after n d / after n e % n.getD e 1 := by
      intro k
      rw [hq, Nat.mul_comm (n.getD e 1), Nat.mul_assoc, Nat.mod_mul_right_div_self,
        Nat.mod_mul_right_mod]
    rw [digit, h1, shiftIdx_mod, ← h1, digit]
  · -- the shift stays inside one block of `e`
    obtain ⟨q, hq⟩ := mul_after_dvd hgt hd
    rw [digit, digit, hq, ← Nat.div_div_eq_div_mul _ (n.getD d 1 * after n d),
      ← Nat.div_div_eq_div_mul _ (n.getD d 1 * after n d), shiftIdx_div_block hm ha]

/-- Two indices below `n.prod` with the same coordinates are equal; in particular an index other
than `0` has a non-zero coordinate. -/
theorem exists_digit_ne_zero : ∀ {n : List ℕ} {k : ℕ}, k < n.prod → k ≠ 0 →
    ∃ d < n.length, digit n d k ≠ 0
  | [], k, hk, h0 => absurd (by rw [List.prod_nil] at hk; omega) h0
  | m :: n, k, hk, h0 => by
    rw [List.prod_cons] at hk
    by_cases hq : k / n.prod = 0
    · have hpos : 0 < n.prod := Nat.pos_of_mul_pos_left (Nat.zero_lt_of_lt hk)
      have hlt : k < n.prod := by
        rcases Nat.div_eq_zero_iff.mp hq with h | h
        · omega
        · exact h
      obtain ⟨d, hd, hne⟩ := exists_digit_ne_zero hlt h0
      exact ⟨d + 1, Nat.succ_lt_succ hd, hne⟩
    · refine ⟨0, Nat.succ_pos _, ?_⟩
      show k / n.prod % m ≠ 0
      rwa [Nat.mod_eq_of_lt (Nat.div_lt_of_lt_mul (by rwa [Nat.mul_comm]))]

/-- The last coordinate is the remainder by the last dimension. -/
theorem digit_last (n : List ℕ) (m k : ℕ) : digit (n ++ [m]) n.length k = k % m := by
  have hafter : after (n ++ [m]) n.length = 1 := by
    rw [after, List.drop_of_length_le (by rw [List.length_append, List.length_singleton]),
      List.prod_nil]
  rw [digit, hafter, Nat.div_one, List.getD_append_right _ _ _ _ le_rfl, Nat.sub_self]
  rfl

/-! ### The mirrored index -/

/-- The flat index whose coordinates are the negatives of those of `k`, modulo the dimensions. -/
def negIdx : List ℕ → ℕ → ℕ
  | [], _ => 0
  | m :: n, k => (m - k / n.prod % m) % m * n.prod + negIdx n (k % n.prod)

theorem negIdx_lt : ∀ {n : List ℕ} (_ : ∀ x ∈ n, 0 < x) (k : ℕ), negIdx n k < n.prod
  | [], _, _ => by
    rw [negIdx, List.prod_nil]
    exact Nat.one_pos
  | m :: n, hn, k => by
    have ih := negIdx_lt (fun x hx => hn x (List.mem_cons_of_mem m hx)) (k % n.prod)
    have hm := Nat.mod_lt (m - k / n.prod % m) (hn m List.mem_cons_self)
    rw [negIdx, List.prod_cons]
    calc _ < (m - k / n.prod % m) % m * n.prod + n.prod := Nat.add_lt_add_left ih _
      _ = ((m - k / n.prod % m) % m + 1) * n.prod := by ring
      _ ≤ m * n.prod := Nat.mul_le_mul_right _ hm

theorem negIdx_div (hn : ∀ x ∈ n, 0 < x) (m k : ℕ) :
    negIdx (m :: n) k / n.prod = (m - k / n.prod % m) % m := by
  have hlt := negIdx_lt hn (k % n.prod)
  rw [negIdx, Nat.add_comm, Nat.add_mul_div_right _ _ (Nat.zero_lt_of_lt hlt),
    Nat.div_eq_of_lt hlt, Nat.zero_add]

theorem negIdx_mod (hn : ∀ x ∈ n, 0 < x) (m k : ℕ) :
    negIdx (m :: n) k % n.prod = negIdx n (k % n.prod) := by
  rw [negIdx, Nat.mul_add_mod', Nat.mod_eq_of_lt (negIdx_lt hn _)]

theorem sub_mod_sub_mod {m d : ℕ} (hd : d < m) : (m - (m - d) % m) % m = d := by
  rcases Nat.eq_zero_or_pos d with rfl | hpos
  · rw [Nat.sub_zero, Nat.mod_self, Nat.sub_zero, Nat.mod_self]
  · rw [Nat.mod_eq_of_lt (by omega : m - d < m), Nat.sub_sub_self hd.le, Nat.mod_eq_of_lt hd]

/-- Mirroring twice gives the index back. -/
theorem negIdx_negIdx : ∀ {n : List ℕ} (_ : ∀ x ∈ n, 0 < x) {k : ℕ}, k < n.prod →
    negIdx n (negIdx n k) = k
  | [], _, k, hk => by
    rw [List.prod_nil] at hk
    rw [negIdx]
    omega
  | m :: n, hn, k, hk => by
    have hn' := fun x hx => hn x (List.mem_cons_of_mem m hx)
    have hpos : 0 < n.prod := List.prod_pos_iff_forall_pos_nat.mpr hn'
    have hdiv : k / n.prod < m := Nat.div_lt_of_lt_mul (by rwa [List.prod_cons, Nat.mul_comm] at hk)
    have ih := negIdx_negIdx hn' (Nat.mod_lt k hpos)
    rw [negIdx, negIdx_div hn', negIdx_mod hn', ih, Nat.mod_mod, Nat.mod_eq_of_lt hdiv,
      sub_mod_sub_mod hdiv, Nat.div_add_mod' k n.prod]

/-- The coordinates of the mirrored index. -/
theorem digit_negIdx : ∀ {n : List ℕ} (_ : ∀ x ∈ n, 0 < x) (d : ℕ) {k : ℕ}, k < n.prod →
    d < n.length → digit n d (negIdx n k) = (n.getD d 1 - digit n d k) % n.getD d 1
  | [], _, d, k, _, hd => absurd hd (Nat.not_lt_zero d)
  | m :: n, hn, 0, k, _, _ => by
    have hn' := fun x hx => hn x (List.mem_cons_of_mem m hx)
    show negIdx (m :: n) k / n.prod % m = (m - k / n.prod % m) % m
    rw [negIdx_div hn', Nat.mod_mod]
  | m :: n, hn, d + 1, k, hk, hd => by
    have hn' := fun x hx => hn x (List.mem_cons_of_mem m hx)
    have hpos : 0 < n.prod := List.prod_pos_iff_forall_pos_nat.mpr hn'
    have hd' : d < n.length := Nat.lt_of_succ_lt_succ hd
    have hdigit : ∀ k, digit (m :: n) (d + 1) k = digit n d (k % n.prod) := by
      intro k
      show k / after n d % n.getD d 1 = k % n.prod / after n d % n.getD d 1
      rw [← before_mul_after hd', Nat.mul_comm (before n d), Nat.mul_comm (n.getD d 1),
        Nat.mul_assoc, Nat.mod_mul_right_div_self, Nat.mod_mul_right_mod]
    have ih := digit_negIdx hn' d (Nat.mod_lt k hpos) hd'
    rw [hdigit, hdigit, negIdx_mod hn', ih]
    rfl

/-- Splitting off the last dimension. -/
theorem negIdx_append (hn : ∀ x ∈ n, 0 < x) {m k : ℕ} (hk : k < m) : ∀ (r : ℕ),
    negIdx (n ++ [m]) (r * m + k) = negIdx n r * m + (m - k) % m := by
  induction n with
  | nil =>
    intro r
    simp only [List.nil_append, negIdx, List.prod_nil, Nat.div_one, Nat.mul_add_mod',
      Nat.mod_eq_of_lt hk]
    ring
  | cons m' n ih =>
    intro r
    have hm : 0 < m := Nat.zero_lt_of_lt hk
    have hdiv : (r * m + k) / (n.prod * m) = r / n.prod := by
      rw [Nat.mul_comm n.prod, ← Nat.div_div_eq_div_mul, Nat.add_comm, Nat.add_mul_div_right _ _ hm,
        Nat.div_eq_of_lt hk, Nat.zero_add]
    have hmod : (r * m + k) % (n.prod * m) = r % n.prod * m + k := by
      rw [Nat.mul_comm n.prod, Nat.mod_mul, Nat.mul_add_mod', Nat.mod_eq_of_lt hk, Nat.add_comm _ k,
        Nat.add_mul_div_right _ _ hm, Nat.div_eq_of_lt hk, Nat.zero_add]
      ring
    rw [List.cons_append, negIdx, negIdx, List.prod_append, List.prod_singleton, hdiv, hmod,
      ih fun x hx => hn x (List.mem_cons_of_mem m' hx)]
    ring

end BenchFFT.RowMajor
