import BenchFFT.Benchees.Green
import BenchFFT.Benchees.Equiv.Layout
import BenchFFT.Problem.Equiv.Copy1d

/-!
# Green's two-dimensional real layout

The first and the nyquist column are hermitian, so a half of each is enough: the rows below `n0/2`
start with the first column and the others with the nyquist column (`halfCell`).  The nyquist value
of a column, which is real, takes the place of the imaginary part of its first entry, which is
zero.  The other columns of the first half follow in pairs of cells (`held`).

* `c2hRank2_assigns`: every cell is written.
* `h2cRank2_assigns`: where the cells hold a hermitian array, the draft is assigned from them, and
  the symmetric half from what has been assigned before.
* `green_round_trip`: the round trip.
-/

namespace BenchFFT.Green

variable {R : Type*}

/-! ### The layout -/

/-- The half columns: `col` in the rows from `row` on. -/
def IsHalf (n0 n1 col row : ℕ) : Prop := col = 0 ∧ row = 0 ∨ col = n1 / 2 ∧ row = n0 / 2

/-- The cell `m` of row `i` of a half column, for the column `x` with the nyquist value `x h`. -/
def halfCell (x : ℕ → BenchComplex R) (h i m : ℕ) : R :=
  if m = 0 then (x i).re else if i = 0 then (x h).re else (x i).im

/-- What the cell `l` holds for the array `X`. -/
def held (X : ℕ → BenchComplex R) (n0 n1 l : ℕ) : R :=
  let i := l / n1
  let m := l % n1
  if 2 ≤ m then
    let a := X (i * n1 + m / 2)
    if m % 2 = 0 then a.re else a.im
  else if i < n0 / 2 then halfCell (fun k => X (k * n1 + 0)) (n0 / 2) i m
  else halfCell (fun k => X (k * n1 + n1 / 2)) (n0 / 2) (i - n0 / 2) m

section Layout

variable (X : ℕ → BenchComplex R) {n0 n1 col row i j m : ℕ}

theorem held_re (h0 : 1 ≤ j) (hj : j < n1 / 2) :
    held X n0 n1 (i * n1 + 2 * j) = (X (i * n1 + j)).re := by
  have hlt : 2 * j < n1 := by omega
  simp only [held, row_div hlt, row_mod hlt]
  rw [if_pos (by omega), if_pos (by omega), Nat.mul_div_cancel_left j two_pos]

variable (hn : Dims2 n0 n1)

include hn

theorem held_im (h0 : 1 ≤ j) (hj : j < n1 / 2) :
    held X n0 n1 (i * n1 + 2 * j + 1) = (X (i * n1 + j)).im := by
  have heven := hn.even1
  have hlt : 2 * j + 1 < n1 := by omega
  rw [Nat.add_assoc]
  simp only [held, row_div hlt, row_mod hlt]
  rw [if_pos (by omega), if_neg (by omega), show (2 * j + 1) / 2 = j by omega]

theorem held_half (hh : IsHalf n0 n1 col row) (hi : i < n0 / 2) (hm : m < 2) :
    held X n0 n1 ((i + row) * n1 + m) = halfCell (fun k => X (k * n1 + col)) (n0 / 2) i m := by
  have hpos := hn.pos1
  have heven := hn.even1
  have hlt : m < n1 := by omega
  simp only [held, row_div hlt, row_mod hlt]
  rw [if_neg (by omega)]
  rcases hh with ⟨rfl, rfl⟩ | ⟨rfl, rfl⟩
  · rw [if_pos (by omega), Nat.add_zero i]
  · rw [if_neg (by omega), Nat.add_sub_cancel]

end Layout

theorem half_row_lt {n0 n1 col row i : ℕ} (hn : Dims2 n0 n1) (hh : IsHalf n0 n1 col row)
    (hi : i < n0 / 2) : i + row < n0 ∧ col < n1 := by
  have h0 := hn.even0
  have h1 := hn.pos1
  rcases hh with ⟨rfl, rfl⟩ | ⟨rfl, rfl⟩ <;> omega

/-! ### Writing -/

section Writing

variable {X : ℕ → BenchComplex R} {n0 n1 col row size : ℕ} (hn : Dims2 n0 n1)
  (hsize : n0 * n1 ≤ size)

include hn hsize

theorem assigns_cell {i m : ℕ} {y : R} {v : ℕ → R} (hi : i < n0) (hm : m < n1)
    (hy : y = v (i * n1 + m)) :
    Assigns (Buf.HasSize size) Buf.cell (fun pin => pin.write (u32 (i * n1 + m)) y)
      (· = i * n1 + m) v := by
  rw [hn.index le_rfl hi hm]
  exact assigns_write (Nat.lt_of_lt_of_le (row_lt (Nat.mul_le_mul_right n1 hi) hm) hsize) hy

/-- The loop leaves a wrong value in the second cell of the first row, and the nyquist value goes
there. -/
theorem c2hHalf_assigns (hh : IsHalf n0 n1 col row) :
    Assigns (Buf.HasSize size) Buf.cell (c2hHalf n0 n1 col row X)
      (fun l => ∃ i < n0 / 2, ∃ m < 2, l = (i + row) * n1 + m) (held X n0 n1) := by
  have hpos0 := hn.pos0
  have hpos := hn.pos1
  have heven0 := hn.even0
  have heven := hn.even1
  have hrow := half_row_lt hn hh (by omega : 0 < n0 / 2)
  -- what the loop leaves
  let u : ℕ → R := Function.update (held X n0 n1) (row * n1 + 1) (X (0 * n1 + col)).im
  have hu : ∀ i < n0 / 2, ∀ m < 2, i ≠ 0 ∨ m ≠ 1 →
      u ((i + row) * n1 + m) = halfCell (fun k => X (k * n1 + col)) (n0 / 2) i m := by
    intro i hi m hm hne
    have hcell : (i + row) * n1 + m ≠ row * n1 + 1 := by
      intro h
      have hsame := row_inj (by omega) (by omega) h
      omega
    rw [← held_half X hn hh hi hm]
    exact Function.update_of_ne hcell _ _
  have hloop := Assigns.forRangeM fun i (hi : i < n0 / 2) =>
    have hi' := half_row_lt hn hh hi
    (assigns_cell (m := 0) (y := (X (u32 (i * n1 + col))).re) (v := u) hn hsize hi'.1 hpos (by
      rw [hn.index le_rfl (by omega) hi'.2, hu i hi 0 two_pos (Or.inr Nat.zero_ne_one)]
      simp [halfCell])).bind
    (assigns_cell (m := 1) (y := (X (u32 (i * n1 + col))).im) (v := u) hn hsize hi'.1 (by omega) (by
      rw [hn.index le_rfl (by omega) hi'.2]
      by_cases h0 : i = 0
      · simp [u, h0]
      · rw [hu i hi 1 one_lt_two (Or.inl h0)]
        simp [halfCell, h0]))
  have hnyquist := assigns_cell (i := row) (m := 1) (y := (X (u32 (n0 / 2 * n1 + col))).re)
    (v := held X n0 n1) hn hsize (by omega) (by omega) (by
      have h := held_half X hn hh (by omega : 0 < n0 / 2) one_lt_two
      rw [Nat.zero_add] at h
      rw [hn.index le_rfl (by omega) hrow.2, h]
      simp [halfCell])
  refine (hloop.overwrite hnyquist fun l => ?_).mono fun l hl => ?_
  · by_cases h : l = row * n1 + 1
    · exact Or.inl h
    · exact Or.inr (Function.update_of_ne h _ _)
  · obtain ⟨i, hi, m, hm, rfl⟩ := hl
    refine Or.inl ⟨i, hi, ?_⟩
    have hm : m = 0 ∨ m = 1 := by omega
    rcases hm with rfl | rfl <;> simp

theorem c2hRemaining_assigns :
    Assigns (Buf.HasSize size) Buf.cell (c2hRemaining n0 n1 X)
      (fun l => ∃ i < n0, ∃ m < n1, 2 ≤ m ∧ l = i * n1 + m) (held X n0 n1) := by
  have heven := hn.even1
  have hloop := Assigns.forFromM fun j (h0 : 1 ≤ j) (hj : j < n1 / 2) =>
    Assigns.forRangeM fun i (hi : i < n0) =>
    (assigns_cell (m := 2 * j) (y := (X (u32 (i * n1 + j))).re) (v := held X n0 n1) hn hsize hi
      (by omega) (by rw [hn.index le_rfl hi (by omega), held_re X h0 hj])).bind
    (assigns_cell (m := 2 * j + 1) (y := (X (u32 (i * n1 + j))).im) (v := held X n0 n1) hn hsize hi
      (by omega) (by rw [hn.index le_rfl hi (by omega), ← Nat.add_assoc, held_im X hn h0 hj]))
  refine hloop.mono fun l hl => ?_
  obtain ⟨i, hi, m, hm, h2, rfl⟩ := hl
  refine ⟨m / 2, by omega, by omega, i, hi, ?_⟩
  omega

/-- Every cell is written. -/
theorem c2hRank2_assigns :
    Assigns (Buf.HasSize size) Buf.cell (c2hRank2 n0 n1 X) (· < n0 * n1) (held X n0 n1) := by
  have heven0 := hn.even0
  refine ((c2hHalf_assigns hn hsize (Or.inl ⟨rfl, rfl⟩)).bind <|
    (c2hHalf_assigns hn hsize (Or.inr ⟨rfl, rfl⟩)).bind (c2hRemaining_assigns hn hsize)).mono
      fun l hl => ?_
  obtain ⟨i, hi, m, hm, rfl⟩ := exists_row hl
  by_cases h2 : 2 ≤ m
  · exact Or.inr (Or.inr ⟨i, hi, m, hm, h2, rfl⟩)
  · by_cases hhalf : i < n0 / 2
    · exact Or.inl ⟨i, hhalf, m, by omega, rfl⟩
    · refine Or.inr (Or.inl ⟨i - n0 / 2, by omega, m, by omega, ?_⟩)
      rw [Nat.sub_add_cancel (by omega)]

end Writing

/-! ### Reading -/

namespace Draft

/-- A draft with every part assigned. -/
def full (Y : ℕ → BenchComplex R) : Draft R := fun k => ⟨some (Y k).re, some (Y k).im⟩

section Assign

variable {l l' : ℕ} {x : Except Abort R} {y : R} {v : Part × ℕ → Option R} {T : Part × ℕ → Prop}

theorem assigns_assign {q : Part} (hx : x = .ok y) (hv : v (q, l) = some y) :
    Assigns (fun _ => True) parts (fun out => assign q out l x) (· = (q, l)) v := by
  apply assigns_put
  rw [hx, hv]
  rfl

variable [CommRing R] {Y : ℕ → BenchComplex R} (hT : ∀ q, T (q, l')) (hY : Y l = conj (Y l'))

include hT hY

/-- `out[l]` becomes the conjugate of `out[l']`, which has been assigned: the real part. -/
theorem assigns_conj_re :
    Assigns (fun s => True ∧ ∀ k, T k → parts s k = parts (full Y) k) parts
      (fun out => assignRe out l (readRe out l')) (· = (.re, l)) (parts (full Y)) := by
  have hre := assigns_assign (q := .re) (l := l) (x := .ok (Y l').re) (v := parts (full Y)) rfl
    (by simp [parts, full, Part.of, hY, conj])
  apply hre.congr_known
  intro s hs
  have h : (s l').re = some (Y l').re := hs (.re, l') (hT .re)
  rw [readRe, read, Part.of, h]
  rfl

/-- The imaginary part. -/
theorem assigns_conj_im :
    Assigns (fun s => True ∧ ∀ k, T k → parts s k = parts (full Y) k) parts
      (fun out => assignIm out l (Neg.neg <$> readIm out l')) (· = (.im, l)) (parts (full Y)) := by
  have him := assigns_assign (q := .im) (l := l) (x := .ok (-(Y l').im)) (v := parts (full Y)) rfl
    (by simp [parts, full, Part.of, hY, conj])
  apply him.congr_known
  intro s hs
  have h : (s l').im = some (Y l').im := hs (.im, l') (hT .im)
  rw [readIm, read, Part.of, h]
  rfl

end Assign

end Draft

open Draft

section Reading

variable {Y : ℕ → BenchComplex R} {n0 n1 col row : ℕ} (hn : Dims2 n0 n1)

theorem read_cell (hn : Dims2 n0 n1) {pout : Buf R}
    (hread : ∀ l < n0 * n1, pout.read l = .ok (held Y n0 n1 l)) {i m : ℕ} (hi : i < n0)
    (hm : m < n1) : pout.read (u32 (i * n1 + m)) = .ok (held Y n0 n1 (i * n1 + m)) := by
  rw [hn.index le_rfl hi hm]
  exact hread _ (row_lt (Nat.mul_le_mul_right n1 hi) hm)

theorem h2cRemaining_assigns (hn : Dims2 n0 n1) {pout : Buf R}
    (hread : ∀ l < n0 * n1, pout.read l = .ok (held Y n0 n1 l)) :
    Assigns (fun _ => True) parts (h2cRemaining n0 n1 pout)
      (fun s => ∃ i < n0, ∃ j, 1 ≤ j ∧ j < n1 / 2 ∧ s.2 = i * n1 + j) (parts (full Y)) := by
  have heven := hn.even1
  have hloop := Assigns.forFromM fun j (h0 : 1 ≤ j) (hj : j < n1 / 2) =>
    Assigns.forRangeM fun i (hi : i < n0) =>
    have hidx := hn.index le_rfl hi (by omega : j < n1)
    (assigns_assign (q := .re) (v := parts (full Y)) (l := u32 (i * n1 + j))
      (read_cell hn hread hi (by omega : 2 * j < n1)) (by
      simp [hidx, held_re Y h0 hj, parts, full, Part.of])).bind
    (assigns_assign (q := .im) (v := parts (full Y)) (l := u32 (i * n1 + j))
      (read_cell hn hread hi (by omega : 2 * j + 1 < n1)) (by
      simp [hidx, ← Nat.add_assoc, held_im Y hn h0 hj, parts, full, Part.of]))
  refine hloop.mono fun s hs => ?_
  obtain ⟨q, k⟩ := s
  obtain ⟨i, hi, j, h0, hj, rfl⟩ : ∃ i < n0, ∃ j, 1 ≤ j ∧ j < n1 / 2 ∧ k = i * n1 + j := hs
  have hidx := hn.index le_rfl hi (by omega : j < n1)
  refine ⟨j, h0, hj, i, hi, ?_⟩
  cases q <;> simp [hidx]

variable [Field R] (hY : Hermitian [n0, n1] Y)

include hn hY

/-- In the columns `0` and `n1/2`, an entry is the conjugate of the one in the mirrored row. -/
theorem column_mirror (hh : IsHalf n0 n1 col row) {i : ℕ} (hi : i < n0) :
    Y ((n0 - i) % n0 * n1 + col) = conj (Y (i * n1 + col)) :=
  hermitian_column hY hn.pos1 hn.even1 (hh.imp And.left And.left) hi

/-- The rows `0` and `n0/2` of these columns are real. -/
theorem column_real [NeZero (2 : R)] (hh : IsHalf n0 n1 col row) {i : ℕ} (hi : i = 0 ∨ i = n0 / 2) :
    (Y (i * n1 + col)).im = 0 := by
  have hpos := hn.pos0
  have heven := hn.even0
  have hrow : (n0 - i) % n0 = i := by
    rcases hi with rfl | rfl
    · rw [Nat.sub_zero, Nat.mod_self]
    · rw [Nat.mod_eq_of_lt (by omega)]
      omega
  have h := column_mirror hn hY hh (i := i) (by omega)
  rw [hrow] at h
  exact im_eq_zero_of_conj h

variable {pout : Buf R} (hread : ∀ l < n0 * n1, pout.read l = .ok (held Y n0 n1 l))

include hread

/-- The loop takes the nyquist value for the imaginary part of the first entry, which is then
cleared. -/
theorem h2cHalf_assigns [NeZero (2 : R)] (hh : IsHalf n0 n1 col row) :
    Assigns (fun _ => True) parts (h2cHalf n0 n1 col row pout)
      (fun s => ∃ i ≤ n0 / 2, s.2 = i * n1 + col) (parts (full Y)) := by
  have hpos0 := hn.pos0
  have hpos := hn.pos1
  have heven0 := hn.even0
  have heven := hn.even1
  have hlt := half_row_lt hn hh (by omega : 0 < n0 / 2)
  have hcell : ∀ i < n0 / 2, ∀ m < 2, pout.read (u32 ((i + row) * n1 + m))
      = .ok (halfCell (fun k => Y (k * n1 + col)) (n0 / 2) i m) := fun i hi m hm => by
    rw [read_cell hn hread (half_row_lt hn hh hi).1 (by omega), held_half Y hn hh hi hm]
  -- what the loop assigns
  let u : Part × ℕ → Option R :=
    Function.update (parts (full Y)) (.im, col) (some (Y (n0 / 2 * n1 + col)).re)
  have hloop := Assigns.forRangeM fun i (hi : i < n0 / 2) =>
    have hi' := half_row_lt hn hh hi
    have hidx := hn.index le_rfl (by omega : i < n0) hi'.2
    (assigns_assign (q := .re) (v := u) (l := u32 (i * n1 + col)) (hcell i hi 0 two_pos) (by
      simp [u, halfCell, hidx, parts, full, Part.of])).bind
    (assigns_assign (q := .im) (v := u) (l := u32 (i * n1 + col)) (hcell i hi 1 one_lt_two) (by
      rw [hidx]
      rcases Nat.eq_zero_or_pos i with rfl | h0
      · simp [u, halfCell]
      · simp [u, halfCell, h0.ne', hpos.ne', parts, full, Part.of]))
  have hclear := assigns_assign (q := .im) (v := parts (full Y)) (l := col) (x := .ok 0) rfl (by
    have h := column_real hn hY hh (Or.inl rfl)
    rw [Nat.zero_mul, Nat.zero_add] at h
    simp [parts, full, Part.of, h])
  have hnyquist := hcell 0 (by omega) 1 one_lt_two
  rw [Nat.zero_add] at hnyquist
  have hre := assigns_assign (q := .re) (v := parts (full Y)) (l := u32 (n0 / 2 * n1 + col))
    hnyquist (by
    simp [halfCell, hn.index le_rfl (by omega : n0 / 2 < n0) hlt.2, parts, full, Part.of])
  have him := assigns_assign (q := .im) (v := parts (full Y)) (l := u32 (n0 / 2 * n1 + col))
    (x := .ok 0) rfl (by
    simp [hn.index le_rfl (by omega : n0 / 2 < n0) hlt.2, parts, full, Part.of,
      column_real hn hY hh (Or.inr rfl)])
  refine (hloop.overwrite (hclear.bind (hre.bind him)) fun s => ?_).mono fun s hs => ?_
  · by_cases h : s = (.im, col)
    · exact Or.inl (Or.inl h)
    · exact Or.inr (Function.update_of_ne h _ _)
  · obtain ⟨q, k⟩ := s
    obtain ⟨i, hi, rfl⟩ : ∃ i ≤ n0 / 2, k = i * n1 + col := hs
    rw [← hn.index le_rfl (by omega : i < n0) hlt.2]
    rcases Nat.lt_or_eq_of_le hi with h | rfl
    · refine Or.inl ⟨i, h, ?_⟩
      cases q <;> simp
    · cases q <;> simp

omit hread

theorem h2cExpand_assigns (hh : IsHalf n0 n1 col row) :
    Assigns (fun s => True ∧ ∀ k, (∃ i ≤ n0 / 2, k.2 = i * n1 + col) →
        parts s k = parts (full Y) k) parts (h2cExpand n0 n1 col)
      (fun s => ∃ i < n0, n0 / 2 < i ∧ s.2 = i * n1 + col) (parts (full Y)) := by
  have hpos := hn.pos0
  have heven0 := hn.even0
  have hlt := half_row_lt hn hh (by omega : 0 < n0 / 2)
  have hloop := Assigns.forFromM fun i (h0 : n0 / 2 + 1 ≤ i) (hi : i < n0) =>
    have hidx := hn.index le_rfl hi hlt.2
    have hidx' := hn.index le_rfl (by omega : n0 - i < n0) hlt.2
    have hT : ∀ q : Part, ∃ j ≤ n0 / 2, (q, u32 ((n0 - i) * n1 + col)).2 = j * n1 + col :=
      fun _ => ⟨n0 - i, by omega, hidx'⟩
    have hconj : Y (u32 (i * n1 + col)) = conj (Y (u32 ((n0 - i) * n1 + col))) := by
      have h := column_mirror hn hY hh (i := n0 - i) (by omega)
      rwa [Nat.sub_sub_self hi.le, Nat.mod_eq_of_lt hi, ← hidx, ← hidx'] at h
    (assigns_conj_re (T := fun k => ∃ j ≤ n0 / 2, k.2 = j * n1 + col) hT hconj).bind
      (assigns_conj_im hT hconj)
  refine hloop.mono fun s hs => ?_
  obtain ⟨q, k⟩ := s
  obtain ⟨i, hi, h0, rfl⟩ : ∃ i < n0, n0 / 2 < i ∧ k = i * n1 + col := hs
  refine ⟨i, h0, hi, ?_⟩
  cases q <;> simp [hn.index le_rfl hi hlt.2]

theorem h2cExpandRemaining_assigns :
    Assigns (fun s => True ∧ ∀ k, (∃ i < n0, ∃ j, 1 ≤ j ∧ j < n1 / 2 ∧ k.2 = i * n1 + j) →
        parts s k = parts (full Y) k) parts (h2cExpandRemaining n0 n1)
      (fun s => ∃ i < n0, ∃ j < n1, n1 / 2 < j ∧ s.2 = i * n1 + j) (parts (full Y)) := by
  have hpos := hn.pos0
  have heven := hn.even1
  -- the entries that are read have been assigned
  have hT : ∀ i < n0, ∀ j, n1 / 2 + 1 ≤ j → j < n1 → ∀ q : Part, ∃ i' < n0, ∃ j', 1 ≤ j' ∧
      j' < n1 / 2 ∧ (q, i * n1 + (n1 - j)).2 = i' * n1 + j' :=
    fun i hi j h0 hj _ => ⟨i, hi, n1 - j, by omega, by omega, rfl⟩
  have hloop := Assigns.forFromM fun j (h0 : n1 / 2 + 1 ≤ j) (hj : j < n1) =>
    have hrow : Y j = conj (Y (n1 - j)) := by
      have h := hermitian_2d hY hpos (by omega : n1 - j < n1)
      simpa [Nat.sub_sub_self hj.le, Nat.mod_eq_of_lt hj] using h
    have hT0 : ∀ q : Part, ∃ i' < n0, ∃ j', 1 ≤ j' ∧ j' < n1 / 2 ∧
        (q, n1 - j).2 = i' * n1 + j' := by simpa using hT 0 hpos j h0 hj
    (assigns_conj_re (T := fun k => ∃ i' < n0, ∃ j', 1 ≤ j' ∧ j' < n1 / 2 ∧ k.2 = i' * n1 + j')
      hT0 hrow).bind <| (assigns_conj_im hT0 hrow).bind <|
    Assigns.forFromM fun i (h1 : 1 ≤ i) (hi : i < n0) =>
    have hidx := hn.index le_rfl hi hj
    have hidx' := hn.index le_rfl (by omega : n0 - i < n0) (by omega : n1 - j < n1)
    have hconj : Y (u32 (i * n1 + j)) = conj (Y (u32 ((n0 - i) * n1 + (n1 - j)))) := by
      have h := hermitian_2d hY (by omega : n0 - i < n0) (by omega : n1 - j < n1)
      rwa [Nat.sub_sub_self hi.le, Nat.sub_sub_self hj.le, Nat.mod_eq_of_lt hi,
        Nat.mod_eq_of_lt hj, ← hidx, ← hidx'] at h
    have hTi := fun q => hidx'.symm ▸ hT (n0 - i) (by omega) j h0 hj q
    (assigns_conj_re hTi hconj).bind (assigns_conj_im hTi hconj)
  refine hloop.mono fun s hs => ?_
  obtain ⟨q, k⟩ := s
  obtain ⟨i, hi, j, hj, h0, rfl⟩ : ∃ i < n0, ∃ j < n1, n1 / 2 < j ∧ k = i * n1 + j := hs
  refine ⟨j, h0, hj, ?_⟩
  rcases Nat.eq_zero_or_pos i with rfl | h1
  · cases q <;> simp
  · refine Or.inr (Or.inr ⟨i, h1, hi, ?_⟩)
    cases q <;> simp [hn.index le_rfl hi hj]

include hread

/-- Every part is assigned, and none is read before. -/
theorem h2cRank2_assigns [NeZero (2 : R)] :
    Assigns (fun _ => True) parts (h2cRank2 n0 n1 pout) (fun s => s.2 < n0 * n1)
      (parts (full Y)) := by
  have hfirst : IsHalf n0 n1 0 0 := Or.inl ⟨rfl, rfl⟩
  have hnyquist : IsHalf n0 n1 (n1 / 2) (n0 / 2) := Or.inr ⟨rfl, rfl⟩
  have hrest := (h2cRemaining_assigns hn hread).bind_known (h2cExpandRemaining_assigns hn hY)
  have hcolumn := (h2cHalf_assigns hn hY hread hnyquist).bind_known
    ((h2cExpand_assigns hn hY hnyquist).bind hrest.keep)
  refine ((h2cHalf_assigns hn hY hread hfirst).bind_known
    ((h2cExpand_assigns hn hY hfirst).bind hcolumn.keep)).mono fun s hs => ?_
  obtain ⟨i, hi, j, hj, hs'⟩ := exists_row hs
  -- the column decides which loops assign the entry, in the half columns the row as well
  rcases Nat.eq_zero_or_pos j with rfl | h0
  · rcases Nat.lt_or_ge (n0 / 2) i with h | h
    · exact Or.inr (Or.inl ⟨i, hi, h, hs'⟩)
    · exact Or.inl ⟨i, h, hs'⟩
  rcases Nat.lt_trichotomy j (n1 / 2) with h1 | rfl | h1
  · exact Or.inr (Or.inr (Or.inr (Or.inr (Or.inl ⟨i, hi, j, h0, h1, hs'⟩))))
  · rcases Nat.lt_or_ge (n0 / 2) i with h | h
    · exact Or.inr (Or.inr (Or.inr (Or.inl ⟨i, hi, h, hs'⟩)))
    · exact Or.inr (Or.inr (Or.inl ⟨i, h, hs'⟩))
  · exact Or.inr (Or.inr (Or.inr (Or.inr (Or.inr ⟨i, hi, j, hj, h1, hs'⟩))))

end Reading

/-- **Green's two-dimensional real layout round-trips.**  Whatever the buffer held, `copy_c2h`
writes every cell of it from `X`; then `copy_h2c` reads no part of `Y` that it has not assigned, and
whatever `Y` held, it becomes `X`. -/
theorem green_round_trip [Field R] [NeZero (2 : R)] {p : Problem} (hp : RealPow2 p 2)
    {X : ℕ → BenchComplex R} (hX : Hermitian p.dims X) :
    ∃ c : ℕ → R, ∀ b : Buf R, p.size.toNat ≤ b.size → ∃ b', copyC2h p b X = .ok b' ∧
      (∀ l < p.dims.prod, b'.cell l = c l) ∧
      (∃ d, h2cRank2 (p.dims.getD 0 0) (p.dims.getD 1 0) b' Draft.unassigned = .ok d ∧
        ∀ k < p.dims.prod, d k = ⟨some (X k).re, some (X k).im⟩) ∧
      ∀ Y₀, ∃ Y, copyH2c p b' Y₀ = .ok Y ∧ ∀ k < p.dims.prod, Y k = X k := by
  obtain ⟨n0, n1, hdims, hprod, hn⟩ := hp.exists_dims2
  rw [hdims] at hX
  rw [hp.size, hprod]
  refine ⟨held X n0 n1, fun b hb => ?_⟩
  obtain ⟨b', hwrite, hsize, hcells⟩ := c2hRank2_assigns (X := X) hn hb b rfl
  have hread : ∀ l < n0 * n1, b'.read l = .ok (held X n0 n1 l) := by
    intro l hl
    rw [Buf.read_ok (lt_of_lt_of_le hl (hb.trans_eq hsize.symm)), hcells.on l hl]
  obtain ⟨d, hrun, -, hd⟩ := h2cRank2_assigns hn hX hread Draft.unassigned trivial
  have hfull : ∀ k < n0 * n1, d k = full X k := fun k hk => ext_parts fun q => hd.on (q, k) hk
  refine ⟨b', ?_, hcells.on, ⟨d, ?_, hfull⟩, fun Y₀ => ⟨Draft.assignTo d Y₀, ?_, fun k hk => ?_⟩⟩
  · unfold copyC2h
    simpa [hp.rank_eq, hdims] using hwrite
  · simpa [hdims] using hrun
  · unfold copyH2c
    simp only [hp.rank_eq, hdims, List.getD_cons_zero, List.getD_cons_succ, hrun]
    rfl
  · simp [Draft.assignTo, hfull k hk, full]

theorem green_round_trip_r8x16 : ∃ c : ℕ → ℚ, ∀ b : Buf ℚ, r8x16.size.toNat ≤ b.size →
    ∃ b', copyC2h r8x16 b hermitian8x16 = .ok b' ∧ (∀ l < r8x16.dims.prod, b'.cell l = c l) ∧
      (∃ d, h2cRank2 (r8x16.dims.getD 0 0) (r8x16.dims.getD 1 0) b' Draft.unassigned = .ok d ∧
        ∀ k < r8x16.dims.prod, d k = ⟨some (hermitian8x16 k).re, some (hermitian8x16 k).im⟩) ∧
      ∀ Y₀, ∃ Y, copyH2c r8x16 b' Y₀ = .ok Y ∧ ∀ k < r8x16.dims.prod, Y k = hermitian8x16 k := by
  exact green_round_trip realPow2_r8x16 hermitian_r8x16

end BenchFFT.Green
