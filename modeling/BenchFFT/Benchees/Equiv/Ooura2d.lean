import BenchFFT.Benchees.Ooura2d
import BenchFFT.Benchees.Equiv.OouraRows

/-!
# Ooura's two-dimensional real layout

The row `i` of the array is mirrored by the row `n1 - i`, and of the two the first one keeps the
column `0`; the rows `0` and `n1/2` are their own mirror images (`kind`).

* `c2h_assigns`: every cell of the array is written, with what `held` says.
* `h2c_assigns`: where the cells hold a hermitian array, both parts of every entry are assigned, and
  it is read.
* `ooura2d_round_trip`: `copy_h2c` gives back twice the array.
-/

namespace BenchFFT.Ooura2d

open RowKind

variable {R : Type*}

/-! ### Indices -/

/-- Of a row and its mirror image, the one that comes first is `upper`. -/
def kind (n1 i : ℕ) : RowKind :=
  if i = 0 ∨ i = n1 / 2 then corner else if i < n1 / 2 then upper else lower

section Indices

variable {n1 n2 i j : ℕ} (hn : Dims2 n1 n2)

include hn

theorem idx_eq (hi : i < n1) (hj : j < n2) : idx n2 i j = i * n2 + j := hn.index le_rfl hi hj

theorem cell_eq (hi : i < n1) : cell n2 i j = i * n2 + j := by
  have h := hn.index le_rfl hi hn.pos1
  rw [Nat.add_zero] at h
  rw [cell, h]

theorem cell_lt {size : ℕ} (hsize : n1 * n2 ≤ size) (hi : i < n1) (hj : j < n2) :
    cell n2 i j < size := by
  rw [cell_eq hn hi]
  exact Nat.lt_of_lt_of_le (row_lt (Nat.mul_le_mul_right n2 hi) hj) hsize

theorem one_lt : 1 < n2 := by
  have hpos := hn.half_pos
  omega

theorem half_lt : n2 / 2 < n2 := Nat.div_lt_self hn.pos1 one_lt_two

/-- The rows that are their own mirror images. -/
theorem corner_lt (hi : i = 0 ∨ i = n1 / 2) : i < n1 := by
  have hpos := hn.pos0
  omega

theorem corner_mirror (hi : i = 0 ∨ i = n1 / 2) : i = (n1 - i) % n1 := by
  have hpos := hn.pos0
  have heven := hn.even0
  rcases hi with rfl | rfl
  · rw [Nat.sub_zero, Nat.mod_self]
  · rw [Nat.mod_eq_of_lt (by omega)]
    omega

end Indices

theorem mirrorRows [CommRing R] {X : ℕ → BenchComplex R} {n1 n2 i i' : ℕ}
    (hX : Hermitian [n1, n2] X) (hi : i < n1) (hi' : i' = (n1 - i) % n1) :
    MirrorRows n2 X i i' := by
  intro k hk
  subst hi'
  exact hermitian_2d hX hi hk

theorem kind_corner {n1 i : ℕ} (hi : i = 0 ∨ i = n1 / 2) : kind n1 i = corner := if_pos hi

theorem kind_upper {n1 i : ℕ} (h0 : 0 < i) (h : i < n1 / 2) : kind n1 i = upper := by
  rw [kind, if_neg (by omega), if_pos h]

theorem kind_lower {n1 i : ℕ} (h : n1 / 2 < i) : kind n1 i = lower := by
  rw [kind, if_neg (by omega), if_neg (by omega)]

/-! ### Writing -/

section Writing

variable [CommRing R] {X : ℕ → BenchComplex R} {n1 n2 size : ℕ} (hn : Dims2 n1 n2)
  (hX : Hermitian [n1, n2] X) (hsize : n1 * n2 ≤ size)

include hn hsize

section Cells

variable {i i' : ℕ} (hi : i < n1)

include hi

theorem upper_re (hq : kind n1 i = upper) :
    Assigns (Buf.HasSize size) Buf.cell (fun a => a.write (cell n2 i 0) (X (idx n2 i 0)).re)
      (· = cell n2 i 0) (held (kind n1) n2 X) :=
  assigns_upper_re _ X hn.pos1 (cell_lt hn hsize hi hn.pos1) hq (cell_eq hn hi)
    (idx_eq hn hi hn.pos1)

theorem corner_first (hq : kind n1 i = corner) :
    Assigns (Buf.HasSize size) Buf.cell (fun a => a.write (cell n2 i 0) (X (idx n2 i 0)).re)
      (· = cell n2 i 0) (held (kind n1) n2 X) :=
  assigns_corner_first hn.pos1 (cell_lt hn hsize hi hn.pos1) hq (cell_eq hn hi)
    (idx_eq hn hi hn.pos1)

theorem corner_middle (hq : kind n1 i = corner) :
    Assigns (Buf.HasSize size) Buf.cell
      (fun a => a.write (cell n2 i 1) (X (idx n2 i (n2 / 2))).re)
      (· = cell n2 i 1) (held (kind n1) n2 X) :=
  assigns_corner_middle hn.pos1 hn.even1 (cell_lt hn hsize hi (one_lt hn)) hq (cell_eq hn hi)
    (idx_eq hn hi (half_lt hn))

-- the other cells are taken from the mirrored row
variable (hi' : i' = (n1 - i) % n1)

include hX hi'

/-- The columns other than `0` and `n2/2`. -/
theorem column {k : ℕ} (h0 : 1 ≤ k) (hk : k < n2 / 2) :
    Assigns (Buf.HasSize size) Buf.cell (fun a => do
        let a ← a.write (cell n2 i (2 * k)) (X (idx n2 i k)).re
        a.write (cell n2 i (2 * k + 1)) (X (idx n2 i' (n2 - k))).im)
      (fun l => l = cell n2 i (2 * k) ∨ l = cell n2 i (2 * k + 1)) (held (kind n1) n2 X) := by
  have hlt : i' < n1 := hi' ▸ Nat.mod_lt _ hn.pos0
  exact (assigns_re (kind n1) X (cell_lt hn hsize hi (by omega)) h0 hk (cell_eq hn hi)
    (idx_eq hn hi (by omega))).bind
    (assigns_im (cell_lt hn hsize hi (by omega)) (mirrorRows hX hi hi') h0 hk (cell_eq hn hi)
      (idx_eq hn hlt (by omega)))

theorem upper_im (hq : kind n1 i = upper) :
    Assigns (Buf.HasSize size) Buf.cell (fun a => a.write (cell n2 i 1) (X (idx n2 i' 0)).im)
      (· = cell n2 i 1) (held (kind n1) n2 X) :=
  assigns_upper_im hn.pos1 hn.even1 (cell_lt hn hsize hi (one_lt hn)) (mirrorRows hX hi hi') hq
    (cell_eq hn hi) (idx_eq hn (hi' ▸ Nat.mod_lt _ hn.pos0) hn.pos1)

theorem lower_re (hq : kind n1 i = lower) :
    Assigns (Buf.HasSize size) Buf.cell
      (fun a => a.write (cell n2 i 1) (X (idx n2 i' (n2 / 2))).re)
      (· = cell n2 i 1) (held (kind n1) n2 X) :=
  assigns_lower_re hn.pos1 hn.even1 (cell_lt hn hsize hi (one_lt hn)) (mirrorRows hX hi hi') hq
    (cell_eq hn hi) (idx_eq hn (hi' ▸ Nat.mod_lt _ hn.pos0) (half_lt hn))

theorem lower_im (hq : kind n1 i = lower) :
    Assigns (Buf.HasSize size) Buf.cell
      (fun a => a.write (cell n2 i 0) (X (idx n2 i' (n2 / 2))).im)
      (· = cell n2 i 0) (held (kind n1) n2 X) :=
  assigns_lower_im hn.pos1 hn.even1 (cell_lt hn hsize hi hn.pos1) (mirrorRows hX hi hi') hq
    (cell_eq hn hi) (idx_eq hn (hi' ▸ Nat.mod_lt _ hn.pos0) (half_lt hn))

end Cells

include hX

theorem c2hColumns_assigns :
    Assigns (Buf.HasSize size) Buf.cell (c2hColumns n1 n2 X)
      (fun l => ∃ i < n1, ∃ m < n2, l = i * n2 + m ∧ 1 ≤ i ∧ 2 ≤ m) (held (kind n1) n2 X) := by
  have heven := hn.even1
  have hloop := Assigns.forFromM fun k1 (h0 : 1 ≤ k1) (h1 : k1 < n1) =>
    have hc : n1 - k1 = (n1 - k1) % n1 := (Nat.mod_eq_of_lt (by omega)).symm
    Assigns.forFromM fun k2 (h2 : 1 ≤ k2) (h3 : k2 < n2 / 2) => column hn hX hsize h1 hc h2 h3
  refine hloop.mono fun l hl => ?_
  obtain ⟨i, hi, m, hm, rfl, h0, h2⟩ := hl
  refine ⟨i, h0, hi, m / 2, by omega, by omega, ?_⟩
  rw [cell_eq hn hi, cell_eq hn hi]
  omega

theorem c2hFirstRow_assigns :
    Assigns (Buf.HasSize size) Buf.cell (c2hFirstRow n2 X) (fun l => 2 ≤ l ∧ l < n2)
      (held (kind n1) n2 X) := by
  have heven := hn.even1
  have hloop := Assigns.forFromM fun k2 (h2 : 1 ≤ k2) (h3 : k2 < n2 / 2) =>
    column hn hX hsize hn.pos0 (corner_mirror hn (Or.inl rfl)) h2 h3
  refine hloop.mono fun l hl => ⟨l / 2, by omega, by omega, ?_⟩
  rw [cell_eq hn hn.pos0, cell_eq hn hn.pos0]
  omega

theorem c2hEdges_assigns :
    Assigns (Buf.HasSize size) Buf.cell (c2hEdges n1 n2 X)
      (fun l => ∃ i < n1, ∃ m < 2, l = i * n2 + m ∧ i ≠ 0 ∧ i ≠ n1 / 2)
      (held (kind n1) n2 X) := by
  have heven := hn.even0
  have hloop := Assigns.forFromM fun k1 (h0 : 1 ≤ k1) (h1 : k1 < n1 / 2) =>
    have hk1 : k1 < n1 := by omega
    have hk1' : n1 - k1 < n1 := by omega
    have hc : n1 - k1 = (n1 - k1) % n1 := (Nat.mod_eq_of_lt hk1').symm
    have hc' : k1 = (n1 - (n1 - k1)) % n1 := by
      rw [Nat.sub_sub_self hk1.le, Nat.mod_eq_of_lt hk1]
    have hupper := kind_upper h0 h1
    have hlower := kind_lower (by omega : n1 / 2 < n1 - k1)
    (upper_re hn hsize hk1 hupper).bind <| (upper_im hn hX hsize hk1 hc hupper).bind <|
    (lower_re hn hX hsize hk1' hc' hlower).bind (lower_im hn hX hsize hk1' hc' hlower)
  refine hloop.mono fun l hl => ?_
  obtain ⟨i, hi, m, hm, rfl, h0, hmid⟩ := hl
  have hm : m = 0 ∨ m = 1 := by omega
  rcases Nat.lt_or_gt_of_ne hmid with h | h
  · refine ⟨i, by omega, h, ?_⟩
    rcases hm with rfl | rfl <;> simp [cell_eq hn hi]
  · refine ⟨n1 - i, by omega, by omega, ?_⟩
    rw [Nat.sub_sub_self hi.le]
    rcases hm with rfl | rfl <;> simp [cell_eq hn hi]

omit hX in
theorem c2hCorners_assigns :
    Assigns (Buf.HasSize size) Buf.cell (c2hCorners n1 n2 X)
      (fun l => ∃ i < n1, ∃ m < 2, l = i * n2 + m ∧ (i = 0 ∨ i = n1 / 2))
      (held (kind n1) n2 X) := by
  have hfirst : 0 = 0 ∨ 0 = n1 / 2 := Or.inl rfl
  have hmid : n1 / 2 = 0 ∨ n1 / 2 = n1 / 2 := Or.inr rfl
  have hall :=
    (corner_first (X := X) hn hsize (corner_lt hn hfirst) (kind_corner hfirst)).bind <|
    (corner_middle hn hsize (corner_lt hn hfirst) (kind_corner hfirst)).bind <|
    (corner_first hn hsize (corner_lt hn hmid) (kind_corner hmid)).bind
    (corner_middle hn hsize (corner_lt hn hmid) (kind_corner hmid))
  refine hall.mono fun l hl => ?_
  obtain ⟨i, hi, m, hm, rfl, hi'⟩ := hl
  have hm : m = 0 ∨ m = 1 := by omega
  rw [← cell_eq hn hi]
  rcases hm with rfl | rfl <;> rcases hi' with rfl | rfl <;> simp

/-- Every cell of the array is written. -/
theorem c2h_assigns :
    Assigns (Buf.HasSize size) Buf.cell (fun a => c2hColumns n1 n2 X a >>= fun a =>
        c2hFirstRow n2 X a >>= fun a => c2hEdges n1 n2 X a >>= c2hCorners n1 n2 X)
      (· < n1 * n2) (held (kind n1) n2 X) := by
  refine ((c2hColumns_assigns hn hX hsize).bind <| (c2hFirstRow_assigns hn hX hsize).bind <|
    (c2hEdges_assigns hn hX hsize).bind (c2hCorners_assigns hn hsize)).mono fun l hl => ?_
  obtain ⟨i, hi, m, hm, rfl⟩ := exists_row hl
  by_cases h2 : 2 ≤ m
  · rcases Nat.eq_zero_or_pos i with rfl | h0
    · exact Or.inr (Or.inl ⟨by omega, by omega⟩)
    · exact Or.inl ⟨i, hi, m, hm, rfl, h0, h2⟩
  · right
    right
    by_cases hi' : i = 0 ∨ i = n1 / 2
    · exact Or.inr ⟨i, hi, m, by omega, rfl, hi'⟩
    · exact Or.inl ⟨i, hi, m, by omega, rfl, by omega, by omega⟩

end Writing

/-! ### Reading -/

section Reading

variable [Field R] {Y : ℕ → BenchComplex R} {n1 n2 : ℕ} (hn : Dims2 n1 n2)
  (hY : Hermitian [n1, n2] Y) {a : Buf R} (ha : Holds (kind n1) n2 n1 Y a)

include hn ha

section Entries

variable {i i' : ℕ} (hi : i < n1)

include hi

theorem corner_first_re (hq : kind n1 i = corner) :
    Assigns (fun _ => True) parts (fun out => putRe out (idx n2 i 0) (a.read (cell n2 i 0)))
      (· = (.re, idx n2 i 0)) (parts Y) :=
  assigns_corner_first_re ha hi hn.pos1 hq (cell_eq hn hi) (idx_eq hn hi hn.pos1)

theorem corner_middle_re (hq : kind n1 i = corner) :
    Assigns (fun _ => True) parts
      (fun out => putRe out (idx n2 i (n2 / 2)) (a.read (cell n2 i 1)))
      (· = (.re, idx n2 i (n2 / 2))) (parts Y) :=
  assigns_corner_middle_re ha hi hn.pos1 hn.even1 hq (cell_eq hn hi) (idx_eq hn hi (half_lt hn))

variable (hi' : i' = (n1 - i) % n1)

include hY hi'

theorem pair_column {k : ℕ} (h0 : 1 ≤ k) (hk : k < n2 / 2) :
    Assigns (fun _ => True) parts
      (fun out => putPair out (idx n2 i k) (idx n2 i' (n2 - k))
        (a.read (cell n2 i (2 * k))) (Neg.neg <$> a.read (cell n2 i (2 * k + 1)))
        (a.read (cell n2 i (2 * k + 1))))
      (fun s => s.2 = idx n2 i k ∨ s.2 = idx n2 i' (n2 - k)) (parts Y) :=
  assigns_pair_column ha hi (mirrorRows hY hi hi') h0 hk (cell_eq hn hi) (cell_eq hn hi)
    (idx_eq hn hi (by omega)) (idx_eq hn (hi' ▸ Nat.mod_lt _ hn.pos0) (by omega))

theorem pair_upper (hq : kind n1 i = upper) :
    Assigns (fun _ => True) parts
      (fun out => putPair out (idx n2 i 0) (idx n2 i' 0) (a.read (cell n2 i 0))
        (Neg.neg <$> a.read (cell n2 i 1)) (a.read (cell n2 i 1)))
      (fun s => s.2 = idx n2 i 0 ∨ s.2 = idx n2 i' 0) (parts Y) :=
  assigns_pair_upper ha hi hn.pos1 hn.even1 (mirrorRows hY hi hi') hq (cell_eq hn hi)
    (cell_eq hn hi) (idx_eq hn hi hn.pos1) (idx_eq hn (hi' ▸ Nat.mod_lt _ hn.pos0) hn.pos1)

theorem pair_lower (hq : kind n1 i = lower) :
    Assigns (fun _ => True) parts
      (fun out => putPair out (idx n2 i' (n2 / 2)) (idx n2 i (n2 / 2)) (a.read (cell n2 i 1))
        (a.read (cell n2 i 0)) (Neg.neg <$> a.read (cell n2 i 0)))
      (fun s => s.2 = idx n2 i' (n2 / 2) ∨ s.2 = idx n2 i (n2 / 2)) (parts Y) :=
  assigns_pair_lower ha hi hn.pos1 hn.even1 (mirrorRows hY hi hi') hq (cell_eq hn hi)
    (cell_eq hn hi) (idx_eq hn (hi' ▸ Nat.mod_lt _ hn.pos0) (half_lt hn))
    (idx_eq hn hi (half_lt hn))

end Entries

omit ha in
include hY in
/-- A corner is its own mirror image. -/
theorem corner_im [NeZero (2 : R)] {i k : ℕ} (hi : i = 0 ∨ i = n1 / 2)
    (hk : k = 0 ∨ k = n2 / 2) :
    Assigns (fun _ => True) parts (fun out => putIm out (idx n2 i k) (.ok 0))
      (· = (.im, idx n2 i k)) (parts Y) := by
  have hlt := corner_lt hn hi
  apply assigns_corner_im hn.pos1 hn.even1 (mirrorRows hY hlt (corner_mirror hn hi))
  rcases hk with rfl | rfl
  · exact Or.inl (idx_eq hn hlt hn.pos1)
  · exact Or.inr (idx_eq hn hlt (half_lt hn))

include hY

theorem h2cColumns_assigns :
    Assigns (fun _ => True) parts (h2cColumns n1 n2 a)
      (fun s => ∃ i < n1, ∃ k < n2, s.2 = i * n2 + k ∧ 1 ≤ i ∧ k ≠ 0 ∧ k ≠ n2 / 2)
      (parts Y) := by
  have heven := hn.even1
  have hloop := Assigns.forFromM fun k1 (h0 : 1 ≤ k1) (h1 : k1 < n1) =>
    have hc : n1 - k1 = (n1 - k1) % n1 := (Nat.mod_eq_of_lt (by omega)).symm
    Assigns.forFromM fun k2 (h2 : 1 ≤ k2) (h3 : k2 < n2 / 2) => pair_column hn hY ha h1 hc h2 h3
  refine hloop.mono fun s hs => ?_
  obtain ⟨i, hi, k, hk, heq, h0, hk0, hmid⟩ := hs
  rw [heq, ← idx_eq hn hi hk]
  rcases Nat.lt_or_gt_of_ne hmid with h | h
  · exact ⟨i, h0, hi, k, by omega, h, Or.inl rfl⟩
  · refine ⟨n1 - i, by omega, by omega, n2 - k, by omega, by omega, Or.inr ?_⟩
    rw [Nat.sub_sub_self hi.le, Nat.sub_sub_self hk.le]

theorem h2cFirstRow_assigns :
    Assigns (fun _ => True) parts (h2cFirstRow n2 a)
      (fun s => s.2 < n2 ∧ s.2 ≠ 0 ∧ s.2 ≠ n2 / 2) (parts Y) := by
  have heven := hn.even1
  have hloop := Assigns.forFromM fun k2 (h2 : 1 ≤ k2) (h3 : k2 < n2 / 2) =>
    pair_column hn hY ha hn.pos0 (corner_mirror hn (Or.inl rfl)) h2 h3
  refine hloop.mono fun s hs => ?_
  obtain ⟨hk, hk0, hmid⟩ := hs
  have heq : s.2 = idx n2 0 s.2 := by rw [idx_eq hn hn.pos0 hk, Nat.zero_mul, Nat.zero_add]
  rcases Nat.lt_or_gt_of_ne hmid with h | h
  · exact ⟨s.2, by omega, h, Or.inl heq⟩
  · refine ⟨n2 - s.2, by omega, by omega, Or.inr ?_⟩
    rw [Nat.sub_sub_self hk.le]
    exact heq

theorem h2cEdges_assigns :
    Assigns (fun _ => True) parts (h2cEdges n1 n2 a)
      (fun s => ∃ i < n1, ∃ k < n2, s.2 = i * n2 + k ∧ (k = 0 ∨ k = n2 / 2) ∧ i ≠ 0 ∧ i ≠ n1 / 2)
      (parts Y) := by
  have heven := hn.even0
  have hloop := Assigns.forFromM fun k1 (h0 : 1 ≤ k1) (h1 : k1 < n1 / 2) =>
    have hk1 : k1 < n1 := by omega
    have hk1' : n1 - k1 < n1 := by omega
    have hc : n1 - k1 = (n1 - k1) % n1 := (Nat.mod_eq_of_lt hk1').symm
    have hc' : k1 = (n1 - (n1 - k1)) % n1 := by
      rw [Nat.sub_sub_self hk1.le, Nat.mod_eq_of_lt hk1]
    (pair_upper hn hY ha hk1 hc (kind_upper h0 h1)).bind
    (pair_lower hn hY ha hk1' hc' (kind_lower (by omega)))
  refine hloop.mono fun s hs => ?_
  obtain ⟨i, hi, k, hk, heq, hk', h0, hmid⟩ := hs
  rw [heq, ← idx_eq hn hi hk]
  rcases Nat.lt_or_gt_of_ne hmid with h | h
  · refine ⟨i, by omega, h, ?_⟩
    rcases hk' with rfl | rfl <;> simp
  · refine ⟨n1 - i, by omega, by omega, ?_⟩
    rw [Nat.sub_sub_self hi.le]
    rcases hk' with rfl | rfl <;> simp

theorem h2cCorners_assigns [NeZero (2 : R)] :
    Assigns (fun _ => True) parts (h2cCorners n1 n2 a)
      (fun s => ∃ i < n1, ∃ k < n2, s.2 = i * n2 + k ∧ (k = 0 ∨ k = n2 / 2) ∧
        (i = 0 ∨ i = n1 / 2)) (parts Y) := by
  have hfirst : 0 = 0 ∨ 0 = n1 / 2 := Or.inl rfl
  have hmid : n1 / 2 = 0 ∨ n1 / 2 = n1 / 2 := Or.inr rfl
  have hall :=
    (corner_first_re hn ha (corner_lt hn hfirst) (kind_corner hfirst)).bind <|
    (corner_middle_re hn ha (corner_lt hn hfirst) (kind_corner hfirst)).bind <|
    (corner_first_re hn ha (corner_lt hn hmid) (kind_corner hmid)).bind <|
    (corner_middle_re hn ha (corner_lt hn hmid) (kind_corner hmid)).bind <|
    (corner_im hn hY hfirst (Or.inl rfl)).bind <| (corner_im hn hY hfirst (Or.inr rfl)).bind <|
    (corner_im hn hY hmid (Or.inl rfl)).bind (corner_im hn hY hmid (Or.inr rfl))
  refine hall.mono fun s hs => ?_
  obtain ⟨i, hi, k, hk, heq, hk', hi'⟩ := hs
  obtain ⟨q, l⟩ := s
  obtain rfl : l = _ := heq.trans (idx_eq hn hi hk).symm
  cases q <;> rcases hk' with rfl | rfl <;> rcases hi' with rfl | rfl <;> simp

/-- Both parts of every entry are assigned. -/
theorem h2c_assigns [NeZero (2 : R)] :
    Assigns (fun _ => True) parts (fun out => h2cColumns n1 n2 a out >>= fun out =>
        h2cFirstRow n2 a out >>= fun out => h2cEdges n1 n2 a out >>= h2cCorners n1 n2 a)
      (fun s => s.2 < n1 * n2) (parts Y) := by
  refine ((h2cColumns_assigns hn hY ha).bind <| (h2cFirstRow_assigns hn hY ha).bind <|
    (h2cEdges_assigns hn hY ha).bind (h2cCorners_assigns hn hY ha)).mono fun s hs => ?_
  obtain ⟨i, hi, k, hk, heq⟩ := exists_row hs
  by_cases hk' : k = 0 ∨ k = n2 / 2
  · right
    right
    by_cases hi' : i = 0 ∨ i = n1 / 2
    · exact Or.inr ⟨i, hi, k, hk, heq, hk', hi'⟩
    · exact Or.inl ⟨i, hi, k, hk, heq, hk', by omega, by omega⟩
  · rcases Nat.eq_zero_or_pos i with rfl | h0
    · exact Or.inr (Or.inl ⟨by omega, by omega, by omega⟩)
    · exact Or.inl ⟨i, hi, k, hk, heq, h0, by omega, by omega⟩

end Reading

/-! ### The round trip -/

section RoundTrip

variable [Field R] {p : Problem} {n1 n2 : ℕ} (hdims : p.dims = [n1, n2]) (hn : Dims2 n1 n2)

include hdims hn

theorem copyC2h_eq (hsize : p.size.toNat = n1 * n2) {X : ℕ → BenchComplex R}
    (hX : Hermitian [n1, n2] X) {a : Buf R} (ha : n1 * n2 ≤ a.size) :
    ∃ a', copyC2h p a X = .ok a' ∧ a'.size = a.size ∧
      ∀ l < n1 * n2, a'.cell l = held (kind n1) n2 X l * ((2 : ℕ) : R) := by
  obtain ⟨b, hrun, hb, hcells⟩ := c2h_assigns hn hX ha a rfl
  dsimp only at hrun
  have hbind : copyC2h p a X = (c2hColumns n1 n2 X a >>= fun a => c2hFirstRow n2 X a >>=
      fun a => c2hEdges n1 n2 X a >>= c2hCorners n1 n2 X) >>=
        fun a => ascale a p.size.toNat ((2 : ℕ) : R) := by
    simp only [copyC2h, hdims, bind_assoc]
    rfl
  refine ⟨b.lift fun c i => if i < n1 * n2 then c i * ((2 : ℕ) : R) else c i, ?_, hb,
    fun l hl => ?_⟩
  · rw [hbind, hrun, hsize]
    exact ascale_runs ha _ b hb
  · simp only [Buf.lift, if_pos hl, hcells.on l hl]

theorem copyH2c_eq [NeZero (2 : R)] {Y : ℕ → BenchComplex R} (hY : Hermitian [n1, n2] Y)
    {a : Buf R} (ha : Holds (kind n1) n2 n1 Y a) (Y₀ : ℕ → BenchComplex R) :
    ∃ Z, copyH2c p a Y₀ = .ok Z ∧ ∀ k < n1 * n2, Z k = Y k := by
  obtain ⟨Z, hrun, -, hZ⟩ := h2c_assigns hn hY ha Y₀ trivial
  refine ⟨Z, ?_, fun k hk => ext_parts fun q => hZ.on (q, k) hk⟩
  unfold copyH2c
  simpa [hdims] using hrun

end RoundTrip

/-- **Ooura's two-dimensional real layout round-trips.**  Whatever the buffer held, `copy_c2h`
writes every cell of the array from `X`; whatever `Y` held, `copy_h2c` then makes it `2 * X`. -/
theorem ooura2d_round_trip [Field R] [NeZero (2 : R)] {p : Problem} (hp : RealPow2 p 2)
    {X : ℕ → BenchComplex R} (hX : Hermitian p.dims X) :
    ∃ c : ℕ → R, ∀ a : Buf R, p.size.toNat ≤ a.size → ∃ a', copyC2h p a X = .ok a' ∧
      (∀ l < p.dims.prod, a'.cell l = c l) ∧
      ∀ Y₀, ∃ Y, copyH2c p a' Y₀ = .ok Y ∧
        ∀ k < p.dims.prod, Y k = ⟨2 * (X k).re, 2 * (X k).im⟩ := by
  obtain ⟨n1, n2, hdims, hprod, hn⟩ := hp.exists_dims2
  have hsize := hp.size.trans hprod
  rw [hdims] at hX
  rw [hprod, hsize]
  refine ⟨fun l => held (kind n1) n2 X l * ((2 : ℕ) : R), fun a ha => ?_⟩
  obtain ⟨a', hwrite, hsize', hcells⟩ := copyC2h_eq hdims hn hsize hX ha
  refine ⟨a', hwrite, hcells, fun Y₀ => ?_⟩
  obtain ⟨Y, hread, hval⟩ := copyH2c_eq hdims hn (hermitian_double hX)
    (holds_double (by omega) hcells) Y₀
  exact ⟨Y, hread, fun k hk => by simp [hval k hk, double]⟩

theorem ooura2d_round_trip_r8x16 : ∃ c : ℕ → ℚ, ∀ a : Buf ℚ, r8x16.size.toNat ≤ a.size →
    ∃ a', copyC2h r8x16 a hermitian8x16 = .ok a' ∧ (∀ l < r8x16.dims.prod, a'.cell l = c l) ∧
      ∀ Y₀, ∃ Y, copyH2c r8x16 a' Y₀ = .ok Y ∧ ∀ k < r8x16.dims.prod,
        Y k = ⟨2 * (hermitian8x16 k).re, 2 * (hermitian8x16 k).im⟩ :=
  ooura2d_round_trip realPow2_r8x16 hermitian_r8x16

end BenchFFT.Ooura2d
