import BenchFFT.Benchees.Ooura3d
import BenchFFT.Benchees.Equiv.OouraRows

/-!
# Ooura's three-dimensional real layout

The row `(i, j)` of the array is mirrored by the row `(C(i, n1), C(j, n2))`, and of the two the one
with `j` below `n2/2` keeps the column `0`, or, where `j` is `0` or `n2/2`, the one with `i` below
`n1/2` (`kind`).  The loops of `copy_c2h` and of `copy_h2c` treat the columns other than `0` and
`n3/2`, then the rows by their place: `j` neither `0` nor `n2/2`, then `i` neither `0` nor `n1/2`,
then the four corners.

* `c2h_assigns`: every cell of the array is written, with what `held` says.
* `h2c_assigns`: where the cells hold a hermitian array, both parts of every entry are assigned, and
  it is read.
* `ooura3d_round_trip`: `copy_h2c` gives back twice the array.
-/

namespace BenchFFT.Ooura3d

open RowKind

variable {R : Type*}

/-! ### Indices -/

/-- Even dimensions whose product fits into an `unsigned int`. -/
structure Dims (n1 n2 n3 : ℕ) : Prop where
  pos1 : 0 < n1
  pos2 : 0 < n2
  pos3 : 0 < n3
  even1 : n1 % 2 = 0
  even2 : n2 % 2 = 0
  even3 : n3 % 2 = 0
  lt : n1 * n2 * n3 < 2 ^ 32

theorem Dims.half3_lt {n1 n2 n3 : ℕ} (hn : Dims n1 n2 n3) : n3 / 2 < n3 :=
  Nat.div_lt_self hn.pos3 one_lt_two

theorem Dims.one_lt3 {n1 n2 n3 : ℕ} (hn : Dims n1 n2 n3) : 1 < n3 := by
  have hpos := hn.pos3
  have heven := hn.even3
  omega

@[simp] theorem c_zero (n : ℕ) : c 0 n = 0 := by simp [c]

theorem c_pos {i n : ℕ} (h0 : 0 < i) (hi : i < n) : c i n = n - i := Nat.mod_eq_of_lt (by omega)

theorem c_half {n : ℕ} (h0 : 0 < n) (he : n % 2 = 0) : c (n / 2) n = n / 2 := by
  rw [c_pos (by omega) (by omega)]
  omega

theorem c_lt {i n : ℕ} (hi : i < n) : c i n < n := Nat.mod_lt _ (by omega)

theorem c_c {i n : ℕ} (hi : i < n) : c (c i n) n = i := by
  rcases Nat.eq_zero_or_pos i with rfl | h0
  · simp
  · rw [c_pos h0 hi, c_pos (by omega) (by omega)]
    omega

theorem row_index_lt {n1 n2 i j : ℕ} (hi : i < n1) (hj : j < n2) : i * n2 + j < n1 * n2 :=
  row_lt (Nat.mul_le_mul_right n2 hi) hj

/-- Of a row and its mirror image, the one that comes first is `upper`. -/
def kind (n1 n2 r : ℕ) : RowKind :=
  if r % n2 = 0 ∨ r % n2 = n2 / 2 then
    if r / n2 = 0 ∨ r / n2 = n1 / 2 then corner else if r / n2 < n1 / 2 then upper else lower
  else if r % n2 < n2 / 2 then upper else lower

section Indices

variable {n1 n2 n3 i j k : ℕ} (hn : Dims n1 n2 n3)

include hn

theorem idx_eq (hi : i < n1) (hj : j < n2) (hk : k < n3) :
    idx n2 n3 i j k = (i * n2 + j) * n3 + k := by
  have h := row_lt (Nat.mul_le_mul_right n3 (row_index_lt hi hj)) hk
  exact u32_eq (Nat.lt_trans h hn.lt)

theorem cell_eq (hi : i < n1) (hj : j < n2) : cell n2 n3 i j k = (i * n2 + j) * n3 + k := by
  have h := Nat.lt_trans (row_lt (Nat.mul_le_mul_right n3 (row_index_lt hi hj)) hn.pos3) hn.lt
  rw [cell, u32_eq (by omega)]

theorem cell_lt (hi : i < n1) (hj : j < n2) (hk : k < n3) : cell n2 n3 i j k < n1 * n2 * n3 := by
  rw [cell_eq hn hi hj]
  exact row_lt (Nat.mul_le_mul_right n3 (row_index_lt hi hj)) hk

end Indices

theorem mirrorRows [CommRing R] {X : ℕ → BenchComplex R} {n1 n2 n3 i j : ℕ}
    (hX : Hermitian [n1, n2, n3] X) (hi : i < n1) (hj : j < n2) {i' j' : ℕ} (hi' : i' = c i n1)
    (hj' : j' = c j n2) : MirrorRows n3 X (i * n2 + j) (i' * n2 + j') := by
  intro k hk
  subst hi' hj'
  exact hermitian_3d hX hi hj hk

section Kind

variable {n1 n2 i j : ℕ} (hj : j < n2)

include hj

theorem kind_face_upper (h0 : 0 < j) (h : j < n2 / 2) : kind n1 n2 (i * n2 + j) = upper := by
  rw [kind, row_mod hj, if_neg (by omega), if_pos h]

theorem kind_face_lower (h : n2 / 2 < j) : kind n1 n2 (i * n2 + j) = lower := by
  rw [kind, row_mod hj, if_neg (by omega), if_neg (by omega)]

variable (hedge : j = 0 ∨ j = n2 / 2)

include hedge

theorem kind_edge_upper (h0 : 0 < i) (h : i < n1 / 2) : kind n1 n2 (i * n2 + j) = upper := by
  rw [kind, row_mod hj, row_div hj, if_pos hedge, if_neg (by omega), if_pos h]

theorem kind_edge_lower (h0 : 0 < i) (h : n1 / 2 < i) : kind n1 n2 (i * n2 + j) = lower := by
  rw [kind, row_mod hj, row_div hj, if_pos hedge, if_neg (by omega), if_neg (by omega)]

theorem kind_corner (hi : i = 0 ∨ i = n1 / 2) : kind n1 n2 (i * n2 + j) = corner := by
  rw [kind, row_mod hj, row_div hj, if_pos hedge, if_pos hi]

end Kind

/-- The index of an entry or a cell with the coordinates `P`. -/
def At (n1 n2 n3 : ℕ) (P : ℕ → ℕ → ℕ → Prop) (l : ℕ) : Prop :=
  ∃ i < n1, ∃ j < n2, ∃ k < n3, l = (i * n2 + j) * n3 + k ∧ P i j k

theorem exists_coords {n1 n2 n3 l : ℕ} (hl : l < n1 * n2 * n3) :
    ∃ i < n1, ∃ j < n2, ∃ k < n3, l = (i * n2 + j) * n3 + k := by
  obtain ⟨r, hr, k, hk, rfl⟩ := exists_row hl
  obtain ⟨i, hi, j, hj, rfl⟩ := exists_row hr
  exact ⟨i, hi, j, hj, k, hk, rfl⟩

/-! ### Writing -/

section Writing

variable [CommRing R] {X : ℕ → BenchComplex R} {n1 n2 n3 size : ℕ} (hn : Dims n1 n2 n3)
  (hX : Hermitian [n1, n2, n3] X) (hsize : n1 * n2 * n3 ≤ size)

include hn hsize

theorem cell_lt_size {i j m : ℕ} (hi : i < n1) (hj : j < n2) (hm : m < n3) :
    cell n2 n3 i j m < size :=
  Nat.lt_of_lt_of_le (cell_lt hn hi hj hm) hsize

include hX

theorem c2hColumns_assigns :
    Assigns (Buf.HasSize size) Buf.cell (c2hColumns n1 n2 n3 X)
      (At n1 n2 n3 fun _ _ m => 2 ≤ m) (held (kind n1 n2) n3 X) := by
  have heven := hn.even3
  have hloop := Assigns.forRangeM fun k1 (h1 : k1 < n1) => Assigns.forRangeM fun k2
      (h2 : k2 < n2) => Assigns.forFromM fun k3 (h0 : 1 ≤ k3) (h3 : k3 < n3 / 2) =>
    (assigns_re (kind n1 n2) X (cell_lt_size hn hsize h1 h2 (by omega)) h0 h3
      (cell_eq hn h1 h2) (idx_eq hn h1 h2 (by omega))).bind
    (assigns_im (cell_lt_size hn hsize h1 h2 (by omega)) (mirrorRows hX h1 h2 rfl rfl) h0 h3
      (cell_eq hn h1 h2) (idx_eq hn (c_lt h1) (c_lt h2) (by omega)))
  refine hloop.mono fun l hl => ?_
  obtain ⟨i, hi, j, hj, m, hm, rfl, h2m⟩ := hl
  refine ⟨i, hi, j, hj, m / 2, by omega, by omega, ?_⟩
  rw [cell_eq hn hi hj, cell_eq hn hi hj]
  omega

section Cells

variable {i j i' j' : ℕ} (hi : i < n1) (hj : j < n2)

include hi hj

omit hX in
theorem upper_re (hq : kind n1 n2 (i * n2 + j) = upper) :
    Assigns (Buf.HasSize size) Buf.cell
      (fun a => a.write (cell n2 n3 i j 0) (X (idx n2 n3 i j 0)).re) (· = cell n2 n3 i j 0)
      (held (kind n1 n2) n3 X) :=
  assigns_upper_re _ X hn.pos3 (cell_lt_size hn hsize hi hj hn.pos3) hq (cell_eq hn hi hj)
    (idx_eq hn hi hj hn.pos3)

omit hX in
theorem corner_first (hq : kind n1 n2 (i * n2 + j) = corner) :
    Assigns (Buf.HasSize size) Buf.cell
      (fun a => a.write (cell n2 n3 i j 0) (X (idx n2 n3 i j 0)).re) (· = cell n2 n3 i j 0)
      (held (kind n1 n2) n3 X) :=
  assigns_corner_first hn.pos3 (cell_lt_size hn hsize hi hj hn.pos3) hq (cell_eq hn hi hj)
    (idx_eq hn hi hj hn.pos3)

omit hX in
theorem corner_middle (hq : kind n1 n2 (i * n2 + j) = corner) :
    Assigns (Buf.HasSize size) Buf.cell
      (fun a => a.write (cell n2 n3 i j 1) (X (idx n2 n3 i j (n3 / 2))).re)
      (· = cell n2 n3 i j 1) (held (kind n1 n2) n3 X) :=
  assigns_corner_middle hn.pos3 hn.even3 (cell_lt_size hn hsize hi hj hn.one_lt3) hq
    (cell_eq hn hi hj) (idx_eq hn hi hj hn.half3_lt)

-- the other cells are taken from the mirrored row
variable (hi' : i' = c i n1) (hj' : j' = c j n2)

include hi' hj'

theorem upper_im (hq : kind n1 n2 (i * n2 + j) = upper) :
    Assigns (Buf.HasSize size) Buf.cell
      (fun a => a.write (cell n2 n3 i j 1) (X (idx n2 n3 i' j' 0)).im) (· = cell n2 n3 i j 1)
      (held (kind n1 n2) n3 X) :=
  assigns_upper_im hn.pos3 hn.even3 (cell_lt_size hn hsize hi hj hn.one_lt3)
    (mirrorRows hX hi hj hi' hj') hq (cell_eq hn hi hj)
    (idx_eq hn (hi' ▸ c_lt hi) (hj' ▸ c_lt hj) hn.pos3)

theorem lower_re (hq : kind n1 n2 (i * n2 + j) = lower) :
    Assigns (Buf.HasSize size) Buf.cell
      (fun a => a.write (cell n2 n3 i j 1) (X (idx n2 n3 i' j' (n3 / 2))).re)
      (· = cell n2 n3 i j 1) (held (kind n1 n2) n3 X) :=
  assigns_lower_re hn.pos3 hn.even3 (cell_lt_size hn hsize hi hj hn.one_lt3)
    (mirrorRows hX hi hj hi' hj') hq (cell_eq hn hi hj)
    (idx_eq hn (hi' ▸ c_lt hi) (hj' ▸ c_lt hj) hn.half3_lt)

theorem lower_im (hq : kind n1 n2 (i * n2 + j) = lower) :
    Assigns (Buf.HasSize size) Buf.cell
      (fun a => a.write (cell n2 n3 i j 0) (X (idx n2 n3 i' j' (n3 / 2))).im)
      (· = cell n2 n3 i j 0) (held (kind n1 n2) n3 X) :=
  assigns_lower_im hn.pos3 hn.even3 (cell_lt_size hn hsize hi hj hn.pos3)
    (mirrorRows hX hi hj hi' hj') hq (cell_eq hn hi hj)
    (idx_eq hn (hi' ▸ c_lt hi) (hj' ▸ c_lt hj) hn.half3_lt)

end Cells

theorem c2hFaces_assigns :
    Assigns (Buf.HasSize size) Buf.cell (c2hFaces n1 n2 n3 X)
      (At n1 n2 n3 fun _ j m => m < 2 ∧ j ≠ 0 ∧ j ≠ n2 / 2) (held (kind n1 n2) n3 X) := by
  have heven2 := hn.even2
  have hloop := Assigns.forRangeM fun k1 (h1 : k1 < n1) => Assigns.forFromM fun k2 (h0 : 1 ≤ k2)
      (h2 : k2 < n2 / 2) =>
    have hk2 : k2 < n2 := by omega
    have hk2' : n2 - k2 < n2 := by omega
    have hc := (c_pos h0 hk2).symm
    have hc' : k2 = c (n2 - k2) n2 := by rw [c_pos (by omega) hk2']; omega
    have hupper := kind_face_upper hk2 h0 h2
    have hlower := kind_face_lower hk2' (by omega)
    (upper_re hn hsize h1 hk2 hupper).bind <|
    (upper_im hn hX hsize h1 hk2 rfl hc hupper).bind <|
    (lower_re hn hX hsize h1 hk2' rfl hc' hlower).bind
    (lower_im hn hX hsize h1 hk2' rfl hc' hlower)
  refine hloop.mono fun l hl => ?_
  obtain ⟨i, hi, j, hj, m, hm, rfl, hm2, h0, hmid⟩ := hl
  have hm : m = 0 ∨ m = 1 := by omega
  rcases Nat.lt_or_gt_of_ne hmid with h | h
  · refine ⟨i, hi, j, by omega, h, ?_⟩
    rcases hm with rfl | rfl <;> simp [cell_eq hn hi hj]
  · refine ⟨i, hi, n2 - j, by omega, by omega, ?_⟩
    rw [Nat.sub_sub_self hj.le]
    rcases hm with rfl | rfl <;> simp [cell_eq hn hi hj]

theorem c2hEdges_assigns :
    Assigns (Buf.HasSize size) Buf.cell (c2hEdges n1 n2 n3 X)
      (At n1 n2 n3 fun i j m => m < 2 ∧ (j = 0 ∨ j = n2 / 2) ∧ i ≠ 0 ∧ i ≠ n1 / 2)
      (held (kind n1 n2) n3 X) := by
  have hpos2 := hn.pos2
  have heven1 := hn.even1
  have hhalf : n2 / 2 < n2 := by omega
  have hzero := (c_zero n2).symm
  have hmid := (c_half hpos2 hn.even2).symm
  have hloop := Assigns.forFromM fun k1 (h0 : 1 ≤ k1) (h1 : k1 < n1 / 2) =>
    have hk1 : k1 < n1 := by omega
    have hk1' : n1 - k1 < n1 := by omega
    have hc := (c_pos h0 hk1).symm
    have hc' : k1 = c (n1 - k1) n1 := by rw [c_pos (by omega) hk1']; omega
    have upper0 := kind_edge_upper hpos2 (Or.inl rfl) h0 h1
    have upperMid := kind_edge_upper hhalf (Or.inr rfl) h0 h1
    have lower0 := kind_edge_lower hpos2 (Or.inl rfl) (by omega : 0 < n1 - k1) (by omega)
    have lowerMid := kind_edge_lower hhalf (Or.inr rfl) (by omega : 0 < n1 - k1) (by omega)
    (upper_re hn hsize hk1 hpos2 upper0).bind <|
    (upper_im hn hX hsize hk1 hpos2 hc hzero upper0).bind <|
    (upper_re hn hsize hk1 hhalf upperMid).bind <|
    (upper_im hn hX hsize hk1 hhalf hc hmid upperMid).bind <|
    (lower_re hn hX hsize hk1' hpos2 hc' hzero lower0).bind <|
    (lower_im hn hX hsize hk1' hpos2 hc' hzero lower0).bind <|
    (lower_re hn hX hsize hk1' hhalf hc' hmid lowerMid).bind
    (lower_im hn hX hsize hk1' hhalf hc' hmid lowerMid)
  refine hloop.mono fun l hl => ?_
  obtain ⟨i, hi, j, hj, m, hm, rfl, hm2, hj', h0, hi'⟩ := hl
  have hm : m = 0 ∨ m = 1 := by omega
  rcases Nat.lt_or_gt_of_ne hi' with h | h
  · refine ⟨i, by omega, h, ?_⟩
    rcases hm with rfl | rfl <;> rcases hj' with rfl | rfl <;> simp [cell_eq hn hi hj]
  · refine ⟨n1 - i, by omega, by omega, ?_⟩
    rw [Nat.sub_sub_self hi.le]
    rcases hm with rfl | rfl <;> rcases hj' with rfl | rfl <;> simp [cell_eq hn hi hj]

omit hX

theorem c2hCorners_assigns :
    Assigns (Buf.HasSize size) Buf.cell (c2hCorners n1 n2 n3 X)
      (At n1 n2 n3 fun i j m => m < 2 ∧ (j = 0 ∨ j = n2 / 2) ∧ (i = 0 ∨ i = n1 / 2))
      (held (kind n1 n2) n3 X) := by
  have hpos1 := hn.pos1
  have hpos2 := hn.pos2
  have hlt1 : n1 / 2 < n1 := by omega
  have hlt2 : n2 / 2 < n2 := by omega
  have q00 := kind_corner hpos2 (Or.inl rfl) (Or.inl rfl : 0 = 0 ∨ 0 = n1 / 2)
  have q01 := kind_corner hlt2 (Or.inr rfl) (Or.inl rfl : 0 = 0 ∨ 0 = n1 / 2)
  have q10 := kind_corner hpos2 (Or.inl rfl) (Or.inr rfl : n1 / 2 = 0 ∨ n1 / 2 = n1 / 2)
  have q11 := kind_corner hlt2 (Or.inr rfl) (Or.inr rfl : n1 / 2 = 0 ∨ n1 / 2 = n1 / 2)
  have hall :=
    (corner_first (X := X) hn hsize hpos1 hpos2 q00).bind <|
    (corner_middle hn hsize hpos1 hpos2 q00).bind <|
    (corner_first hn hsize hpos1 hlt2 q01).bind <| (corner_middle hn hsize hpos1 hlt2 q01).bind <|
    (corner_first hn hsize hlt1 hpos2 q10).bind <| (corner_middle hn hsize hlt1 hpos2 q10).bind <|
    (corner_first hn hsize hlt1 hlt2 q11).bind (corner_middle hn hsize hlt1 hlt2 q11)
  refine hall.mono fun l hl => ?_
  obtain ⟨i, hi, j, hj, m, hm, rfl, hm2, hj', hi'⟩ := hl
  have hm : m = 0 ∨ m = 1 := by omega
  simp only [cell_eq hn hpos1 hpos2, cell_eq hn hpos1 hlt2, cell_eq hn hlt1 hpos2,
    cell_eq hn hlt1 hlt2]
  rcases hm with rfl | rfl <;> rcases hj' with rfl | rfl <;> rcases hi' with rfl | rfl <;> simp

include hX

/-- Every cell of the array is written. -/
theorem c2h_assigns :
    Assigns (Buf.HasSize size) Buf.cell (fun a => c2hColumns n1 n2 n3 X a >>= fun a =>
        c2hFaces n1 n2 n3 X a >>= fun a => c2hEdges n1 n2 n3 X a >>= c2hCorners n1 n2 n3 X)
      (· < n1 * n2 * n3) (held (kind n1 n2) n3 X) := by
  refine ((c2hColumns_assigns hn hX hsize).bind <| (c2hFaces_assigns hn hX hsize).bind <|
    (c2hEdges_assigns hn hX hsize).bind (c2hCorners_assigns hn hsize)).mono fun l hl => ?_
  obtain ⟨i, hi, j, hj, m, hm, rfl⟩ := exists_coords hl
  by_cases h2 : 2 ≤ m
  · exact Or.inl ⟨i, hi, j, hj, m, hm, rfl, h2⟩
  · right
    by_cases hj' : j = 0 ∨ j = n2 / 2
    · right
      by_cases hi' : i = 0 ∨ i = n1 / 2
      · exact Or.inr ⟨i, hi, j, hj, m, hm, rfl, by omega, hj', hi'⟩
      · exact Or.inl ⟨i, hi, j, hj, m, hm, rfl, by omega, hj', by omega, by omega⟩
    · exact Or.inl ⟨i, hi, j, hj, m, hm, rfl, by omega, by omega, by omega⟩

end Writing

/-! ### Reading -/

section Reading

variable [Field R] {Y : ℕ → BenchComplex R} {n1 n2 n3 : ℕ} (hn : Dims n1 n2 n3)
  (hY : Hermitian [n1, n2, n3] Y) {a : Buf R} (ha : Holds (kind n1 n2) n3 (n1 * n2) Y a)

include hn hY ha

theorem h2cColumns_assigns :
    Assigns (fun _ => True) parts (h2cColumns n1 n2 n3 a)
      (fun s => At n1 n2 n3 (fun _ _ k => k ≠ 0 ∧ k ≠ n3 / 2) s.2) (parts Y) := by
  have heven := hn.even3
  have hloop := Assigns.forRangeM fun k1 (h1 : k1 < n1) => Assigns.forRangeM fun k2
      (h2 : k2 < n2) => Assigns.forFromM fun k3 (h0 : 1 ≤ k3) (h3 : k3 < n3 / 2) =>
    assigns_pair_column ha (row_index_lt h1 h2) (mirrorRows hY h1 h2 rfl rfl) h0 h3
      (cell_eq hn h1 h2) (cell_eq hn h1 h2) (idx_eq hn h1 h2 (by omega))
      (idx_eq hn (c_lt h1) (c_lt h2) (by omega))
  refine hloop.mono fun s hs => ?_
  obtain ⟨i, hi, j, hj, k, hk, heq, h0, hmid⟩ := hs
  rw [heq]
  rcases Nat.lt_or_gt_of_ne hmid with h | h
  · exact ⟨i, hi, j, hj, k, by omega, h, Or.inl (idx_eq hn hi hj hk).symm⟩
  · refine ⟨c i n1, c_lt hi, c j n2, c_lt hj, n3 - k, by omega, by omega, Or.inr ?_⟩
    rw [c_c hi, c_c hj, Nat.sub_sub_self hk.le, idx_eq hn hi hj hk]

section Entries

variable {i j i' j' : ℕ} (hi : i < n1) (hj : j < n2)

include hi hj

omit hY in
theorem corner_first_re (hq : kind n1 n2 (i * n2 + j) = corner) :
    Assigns (fun _ => True) parts
      (fun out => putRe out (idx n2 n3 i j 0) (a.read (cell n2 n3 i j 0)))
      (· = (.re, idx n2 n3 i j 0)) (parts Y) :=
  assigns_corner_first_re ha (row_index_lt hi hj) hn.pos3 hq (cell_eq hn hi hj)
    (idx_eq hn hi hj hn.pos3)

omit hY in
theorem corner_middle_re (hq : kind n1 n2 (i * n2 + j) = corner) :
    Assigns (fun _ => True) parts
      (fun out => putRe out (idx n2 n3 i j (n3 / 2)) (a.read (cell n2 n3 i j 1)))
      (· = (.re, idx n2 n3 i j (n3 / 2))) (parts Y) :=
  assigns_corner_middle_re ha (row_index_lt hi hj) hn.pos3 hn.even3 hq (cell_eq hn hi hj)
    (idx_eq hn hi hj hn.half3_lt)

omit ha in
/-- A corner is its own mirror image. -/
theorem corner_im [NeZero (2 : R)] (hi' : i = c i n1) (hj' : j = c j n2) {k : ℕ}
    (hk : k = 0 ∨ k = n3 / 2) :
    Assigns (fun _ => True) parts (fun out => putIm out (idx n2 n3 i j k) (.ok 0))
      (· = (.im, idx n2 n3 i j k)) (parts Y) := by
  apply assigns_corner_im hn.pos3 hn.even3 (mirrorRows hY hi hj hi' hj')
  rcases hk with rfl | rfl
  · exact Or.inl (idx_eq hn hi hj hn.pos3)
  · exact Or.inr (idx_eq hn hi hj hn.half3_lt)

variable (hi' : i' = c i n1) (hj' : j' = c j n2)

include hi' hj'

theorem pair_upper (hq : kind n1 n2 (i * n2 + j) = upper) :
    Assigns (fun _ => True) parts
      (fun out => putPair out (idx n2 n3 i j 0) (idx n2 n3 i' j' 0)
        (a.read (cell n2 n3 i j 0)) (Neg.neg <$> a.read (cell n2 n3 i j 1))
        (a.read (cell n2 n3 i j 1)))
      (fun s => s.2 = idx n2 n3 i j 0 ∨ s.2 = idx n2 n3 i' j' 0) (parts Y) :=
  assigns_pair_upper ha (row_index_lt hi hj) hn.pos3 hn.even3 (mirrorRows hY hi hj hi' hj') hq
    (cell_eq hn hi hj) (cell_eq hn hi hj) (idx_eq hn hi hj hn.pos3)
    (idx_eq hn (hi' ▸ c_lt hi) (hj' ▸ c_lt hj) hn.pos3)

theorem pair_lower (hq : kind n1 n2 (i * n2 + j) = lower) :
    Assigns (fun _ => True) parts
      (fun out => putPair out (idx n2 n3 i' j' (n3 / 2)) (idx n2 n3 i j (n3 / 2))
        (a.read (cell n2 n3 i j 1)) (a.read (cell n2 n3 i j 0))
        (Neg.neg <$> a.read (cell n2 n3 i j 0)))
      (fun s => s.2 = idx n2 n3 i' j' (n3 / 2) ∨ s.2 = idx n2 n3 i j (n3 / 2)) (parts Y) :=
  assigns_pair_lower ha (row_index_lt hi hj) hn.pos3 hn.even3 (mirrorRows hY hi hj hi' hj') hq
    (cell_eq hn hi hj) (cell_eq hn hi hj)
    (idx_eq hn (hi' ▸ c_lt hi) (hj' ▸ c_lt hj) hn.half3_lt) (idx_eq hn hi hj hn.half3_lt)

end Entries

theorem h2cFaces_assigns :
    Assigns (fun _ => True) parts (h2cFaces n1 n2 n3 a)
      (fun s => At n1 n2 n3 (fun _ j k => (k = 0 ∨ k = n3 / 2) ∧ j ≠ 0 ∧ j ≠ n2 / 2) s.2)
      (parts Y) := by
  have heven2 := hn.even2
  have hloop := Assigns.forRangeM fun k1 (h1 : k1 < n1) => Assigns.forFromM fun k2 (h0 : 1 ≤ k2)
      (h2 : k2 < n2 / 2) =>
    have hk2 : k2 < n2 := by omega
    have hk2' : n2 - k2 < n2 := by omega
    have hc := (c_pos h0 hk2).symm
    have hc' : k2 = c (n2 - k2) n2 := by rw [c_pos (by omega) hk2']; omega
    (pair_upper hn hY ha h1 hk2 rfl hc (kind_face_upper hk2 h0 h2)).bind
    (pair_lower hn hY ha h1 hk2' rfl hc' (kind_face_lower hk2' (by omega)))
  refine hloop.mono fun s hs => ?_
  obtain ⟨i, hi, j, hj, k, hk, heq, hk', h0, hmid⟩ := hs
  rw [heq, ← idx_eq hn hi hj hk]
  rcases Nat.lt_or_gt_of_ne hmid with h | h
  · rcases hk' with rfl | rfl
    · exact ⟨i, hi, j, by omega, h, Or.inl (Or.inl rfl)⟩
    · refine ⟨c i n1, c_lt hi, j, by omega, h, Or.inr (Or.inl ?_)⟩
      rw [c_c hi]
  · rcases hk' with rfl | rfl
    · refine ⟨c i n1, c_lt hi, n2 - j, by omega, by omega, Or.inl (Or.inr ?_)⟩
      rw [c_c hi, Nat.sub_sub_self hj.le]
    · refine ⟨i, hi, n2 - j, by omega, by omega, Or.inr (Or.inr ?_)⟩
      rw [Nat.sub_sub_self hj.le]

theorem h2cEdges_assigns :
    Assigns (fun _ => True) parts (h2cEdges n1 n2 n3 a)
      (fun s => At n1 n2 n3 (fun i j k => (k = 0 ∨ k = n3 / 2) ∧ (j = 0 ∨ j = n2 / 2) ∧
        i ≠ 0 ∧ i ≠ n1 / 2) s.2) (parts Y) := by
  have hpos2 := hn.pos2
  have heven1 := hn.even1
  have hhalf : n2 / 2 < n2 := by omega
  have hzero := (c_zero n2).symm
  have hmid := (c_half hpos2 hn.even2).symm
  have hloop := Assigns.forFromM fun k1 (h0 : 1 ≤ k1) (h1 : k1 < n1 / 2) =>
    have hk1 : k1 < n1 := by omega
    have hk1' : n1 - k1 < n1 := by omega
    have hc := (c_pos h0 hk1).symm
    have hc' : k1 = c (n1 - k1) n1 := by rw [c_pos (by omega) hk1']; omega
    have upper0 := kind_edge_upper hpos2 (Or.inl rfl) h0 h1
    have upperMid := kind_edge_upper hhalf (Or.inr rfl) h0 h1
    have lower0 := kind_edge_lower hpos2 (Or.inl rfl) (by omega : 0 < n1 - k1) (by omega)
    have lowerMid := kind_edge_lower hhalf (Or.inr rfl) (by omega : 0 < n1 - k1) (by omega)
    (pair_upper hn hY ha hk1 hpos2 hc hzero upper0).bind <|
    (pair_upper hn hY ha hk1 hhalf hc hmid upperMid).bind <|
    (pair_lower hn hY ha hk1' hpos2 hc' hzero lower0).bind
    (pair_lower hn hY ha hk1' hhalf hc' hmid lowerMid)
  refine hloop.mono fun s hs => ?_
  obtain ⟨i, hi, j, hj, k, hk, heq, hk', hj', h0, hi'⟩ := hs
  rw [heq, ← idx_eq hn hi hj hk]
  rcases Nat.lt_or_gt_of_ne hi' with h | h
  · refine ⟨i, by omega, h, ?_⟩
    rcases hk' with rfl | rfl <;> rcases hj' with rfl | rfl <;> simp
  · refine ⟨n1 - i, by omega, by omega, ?_⟩
    rw [Nat.sub_sub_self hi.le]
    rcases hk' with rfl | rfl <;> rcases hj' with rfl | rfl <;> simp

theorem h2cCorners_assigns [NeZero (2 : R)] :
    Assigns (fun _ => True) parts (h2cCorners n1 n2 n3 a)
      (fun s => At n1 n2 n3 (fun i j k => (k = 0 ∨ k = n3 / 2) ∧ (j = 0 ∨ j = n2 / 2) ∧
        (i = 0 ∨ i = n1 / 2)) s.2) (parts Y) := by
  have hpos1 := hn.pos1
  have hpos2 := hn.pos2
  have hlt1 : n1 / 2 < n1 := by omega
  have hlt2 : n2 / 2 < n2 := by omega
  have q00 := kind_corner hpos2 (Or.inl rfl) (Or.inl rfl : 0 = 0 ∨ 0 = n1 / 2)
  have q01 := kind_corner hlt2 (Or.inr rfl) (Or.inl rfl : 0 = 0 ∨ 0 = n1 / 2)
  have q10 := kind_corner hpos2 (Or.inl rfl) (Or.inr rfl : n1 / 2 = 0 ∨ n1 / 2 = n1 / 2)
  have q11 := kind_corner hlt2 (Or.inr rfl) (Or.inr rfl : n1 / 2 = 0 ∨ n1 / 2 = n1 / 2)
  have zero1 := (c_zero n1).symm
  have zero2 := (c_zero n2).symm
  have mid1 := (c_half hpos1 hn.even1).symm
  have mid2 := (c_half hpos2 hn.even2).symm
  have hall :=
    (corner_first_re hn ha hpos1 hpos2 q00).bind <| (corner_middle_re hn ha hpos1 hpos2 q00).bind <|
    (corner_first_re hn ha hpos1 hlt2 q01).bind <| (corner_middle_re hn ha hpos1 hlt2 q01).bind <|
    (corner_first_re hn ha hlt1 hpos2 q10).bind <| (corner_middle_re hn ha hlt1 hpos2 q10).bind <|
    (corner_first_re hn ha hlt1 hlt2 q11).bind <| (corner_middle_re hn ha hlt1 hlt2 q11).bind <|
    (corner_im hn hY hpos1 hpos2 zero1 zero2 (Or.inl rfl)).bind <|
    (corner_im hn hY hpos1 hpos2 zero1 zero2 (Or.inr rfl)).bind <|
    (corner_im hn hY hpos1 hlt2 zero1 mid2 (Or.inl rfl)).bind <|
    (corner_im hn hY hpos1 hlt2 zero1 mid2 (Or.inr rfl)).bind <|
    (corner_im hn hY hlt1 hpos2 mid1 zero2 (Or.inl rfl)).bind <|
    (corner_im hn hY hlt1 hpos2 mid1 zero2 (Or.inr rfl)).bind <|
    (corner_im hn hY hlt1 hlt2 mid1 mid2 (Or.inl rfl)).bind
    (corner_im hn hY hlt1 hlt2 mid1 mid2 (Or.inr rfl))
  refine hall.mono fun s hs => ?_
  obtain ⟨i, hi, j, hj, k, hk, heq, hk', hj', hi'⟩ := hs
  obtain ⟨q, l⟩ := s
  obtain rfl : l = _ := heq.trans (idx_eq hn hi hj hk).symm
  cases q <;> rcases hk' with rfl | rfl <;> rcases hj' with rfl | rfl <;>
    rcases hi' with rfl | rfl <;> simp

/-- Both parts of every entry are assigned. -/
theorem h2c_assigns [NeZero (2 : R)] :
    Assigns (fun _ => True) parts (fun out => h2cColumns n1 n2 n3 a out >>= fun out =>
        h2cFaces n1 n2 n3 a out >>= fun out => h2cEdges n1 n2 n3 a out >>= h2cCorners n1 n2 n3 a)
      (fun s => s.2 < n1 * n2 * n3) (parts Y) := by
  refine ((h2cColumns_assigns hn hY ha).bind <| (h2cFaces_assigns hn hY ha).bind <|
    (h2cEdges_assigns hn hY ha).bind (h2cCorners_assigns hn hY ha)).mono fun s hs => ?_
  obtain ⟨i, hi, j, hj, k, hk, heq⟩ := exists_coords hs
  by_cases hk' : k = 0 ∨ k = n3 / 2
  · right
    by_cases hj' : j = 0 ∨ j = n2 / 2
    · right
      by_cases hi' : i = 0 ∨ i = n1 / 2
      · exact Or.inr ⟨i, hi, j, hj, k, hk, heq, hk', hj', hi'⟩
      · exact Or.inl ⟨i, hi, j, hj, k, hk, heq, hk', hj', by omega, by omega⟩
    · exact Or.inl ⟨i, hi, j, hj, k, hk, heq, hk', by omega, by omega⟩
  · exact Or.inl ⟨i, hi, j, hj, k, hk, heq, by omega, by omega⟩

end Reading

/-! ### The round trip -/

theorem exists_dims {p : Problem} (hp : RealPow2 p 3) :
    ∃ n1 n2 n3, p.dims = [n1, n2, n3] ∧ Dims n1 n2 n3 := by
  obtain ⟨n1, n2, n3, hdims⟩ := List.length_eq_three.mp (p.length_dims.trans hp.rank_eq)
  have h1 := hp.pos_even (n := n1) (by simp [hdims])
  have h2 := hp.pos_even (n := n2) (by simp [hdims])
  have h3 := hp.pos_even (n := n3) (by simp [hdims])
  have hlt := hp.prod_lt
  rw [hdims, List.prod_cons, List.prod_pair, ← Nat.mul_assoc] at hlt
  exact ⟨n1, n2, n3, hdims, h1.1, h2.1, h3.1, h1.2, h2.2, h3.2, hlt⟩

section RoundTrip

variable [Field R] {p : Problem} {n1 n2 n3 : ℕ} (hdims : p.dims = [n1, n2, n3])
  (hn : Dims n1 n2 n3)

include hdims hn

theorem copyC2h_eq (hsize : p.size.toNat = n1 * n2 * n3) {X : ℕ → BenchComplex R}
    (hX : Hermitian [n1, n2, n3] X) {a : Buf R} (ha : n1 * n2 * n3 ≤ a.size) :
    ∃ a', copyC2h p a X = .ok a' ∧ a'.size = a.size ∧
      ∀ l < n1 * n2 * n3, a'.cell l = held (kind n1 n2) n3 X l * ((2 : ℕ) : R) := by
  obtain ⟨b, hrun, hb, hcells⟩ := c2h_assigns hn hX ha a rfl
  dsimp only at hrun
  have hbind : copyC2h p a X = (c2hColumns n1 n2 n3 X a >>= fun a => c2hFaces n1 n2 n3 X a >>=
      fun a => c2hEdges n1 n2 n3 X a >>= c2hCorners n1 n2 n3 X) >>=
        fun a => ascale a p.size.toNat ((2 : ℕ) : R) := by
    simp only [copyC2h, hdims, bind_assoc]
    rfl
  refine ⟨b.lift fun c i => if i < n1 * n2 * n3 then c i * ((2 : ℕ) : R) else c i, ?_, hb,
    fun l hl => ?_⟩
  · rw [hbind, hrun, hsize]
    exact ascale_runs ha _ b hb
  · simp only [Buf.lift, if_pos hl, hcells.on l hl]

theorem copyH2c_eq [NeZero (2 : R)] {Y : ℕ → BenchComplex R} (hY : Hermitian [n1, n2, n3] Y)
    {a : Buf R} (ha : Holds (kind n1 n2) n3 (n1 * n2) Y a) (Y₀ : ℕ → BenchComplex R) :
    ∃ Z, copyH2c p a Y₀ = .ok Z ∧ ∀ k < n1 * n2 * n3, Z k = Y k := by
  obtain ⟨Z, hrun, -, hZ⟩ := h2c_assigns hn hY ha Y₀ trivial
  refine ⟨Z, ?_, fun k hk => ext_parts fun q => hZ.on (q, k) hk⟩
  unfold copyH2c
  simpa [hdims] using hrun

end RoundTrip

/-- **Ooura's three-dimensional real layout round-trips.**  Whatever the buffer held, `copy_c2h`
writes every cell of the array from `X`; whatever `Y` held, `copy_h2c` then makes it `2 * X`. -/
theorem ooura3d_round_trip [Field R] [NeZero (2 : R)] {p : Problem} (hp : RealPow2 p 3)
    {X : ℕ → BenchComplex R} (hX : Hermitian p.dims X) :
    ∃ c : ℕ → R, ∀ a : Buf R, p.size.toNat ≤ a.size → ∃ a', copyC2h p a X = .ok a' ∧
      (∀ l < p.dims.prod, a'.cell l = c l) ∧
      ∀ Y₀, ∃ Y, copyH2c p a' Y₀ = .ok Y ∧
        ∀ k < p.dims.prod, Y k = ⟨2 * (X k).re, 2 * (X k).im⟩ := by
  obtain ⟨n1, n2, n3, hdims, hn⟩ := exists_dims hp
  have hprod : p.dims.prod = n1 * n2 * n3 := by
    rw [hdims, List.prod_cons, List.prod_pair, Nat.mul_assoc]
  have hsize := hp.size.trans hprod
  rw [hdims] at hX
  rw [hprod, hsize]
  refine ⟨fun l => held (kind n1 n2) n3 X l * ((2 : ℕ) : R), fun a ha => ?_⟩
  obtain ⟨a', hwrite, hsize', hcells⟩ := copyC2h_eq hdims hn hsize hX ha
  refine ⟨a', hwrite, hcells, fun Y₀ => ?_⟩
  obtain ⟨Y, hread, hval⟩ := copyH2c_eq hdims hn (hermitian_double hX)
    (holds_double (by omega) hcells) Y₀
  exact ⟨Y, hread, fun k hk => by simp [hval k hk, double]⟩

/-- The problem `r2x2x4`. -/
def r2x2x4 : Problem := ⟨.real, [2, 2, 4], 16, [], 1, -1, false, false, "r2x2x4".toList⟩

theorem ooura3d_round_trip_r2x2x4 : ∃ c : ℕ → ℚ, ∀ a : Buf ℚ, r2x2x4.size.toNat ≤ a.size →
    ∃ a', copyC2h r2x2x4 a (mirrored r2x2x4.dims) = .ok a' ∧
      (∀ l < r2x2x4.dims.prod, a'.cell l = c l) ∧
      ∀ Y₀, ∃ Y, copyH2c r2x2x4 a' Y₀ = .ok Y ∧ ∀ k < r2x2x4.dims.prod,
        Y k = ⟨2 * (mirrored r2x2x4.dims k).re, 2 * (mirrored r2x2x4.dims k).im⟩ := by
  apply ooura3d_round_trip
  · exact ⟨rfl, rfl, by simp [r2x2x4, Problem.dims]; exact ⟨⟨0, rfl⟩, ⟨1, rfl⟩⟩, rfl⟩
  · exact hermitian_mirrored (by decide)

end BenchFFT.Ooura3d
