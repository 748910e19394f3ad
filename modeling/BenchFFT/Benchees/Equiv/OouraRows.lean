import BenchFFT.Benchees.Equiv.Layout
import BenchFFT.Problem.Equiv.Copy1d

/-!
# The rows of Ooura's real layouts

A hermitian array is stored in rows of `n` real cells.  The cells `2 * k` and `2 * k + 1` of a row
hold its column `k`, for `0 < k < n/2`.  The columns `0` and `n/2` share the first two cells, of
which there are too few for both: of two rows that are mirror images, one keeps the column `0` and
the other one the column `n/2`; a row that is its own mirror image keeps the real parts of both.
-/

namespace BenchFFT

variable {R : Type*}

/-- How a row keeps its columns `0` and `n/2`. -/
inductive RowKind where
  /-- It keeps its column `0`. -/
  | upper
  /-- It keeps its column `n/2`, the real part last. -/
  | lower
  /-- It keeps the real parts of both. -/
  | corner

namespace RowKind

/-- The cell `m` of a row `x`, where `half` is `n/2`. -/
def cell [Neg R] (x : ℕ → BenchComplex R) (half : ℕ) : RowKind → ℕ → R
  | upper, 0 => (x 0).re
  | upper, 1 => -(x 0).im
  | lower, 0 => -(x half).im
  | lower, 1 => (x half).re
  | corner, 0 => (x 0).re
  | corner, 1 => (x half).re
  | _, m + 2 => if m % 2 = 0 then (x (m / 2 + 1)).re else -(x (m / 2 + 1)).im

/-- What the cell `l` holds for the array `X`. -/
def held [Neg R] (kind : ℕ → RowKind) (n : ℕ) (X : ℕ → BenchComplex R) (l : ℕ) : R :=
  (kind (l / n)).cell (fun k => X (l / n * n + k)) (n / 2) (l % n)

section Cells

variable [Neg R] {x : ℕ → BenchComplex R} {half k : ℕ}

theorem cell_even (q : RowKind) (hk : 1 ≤ k) : q.cell x half (2 * k) = (x k).re := by
  obtain ⟨k, rfl⟩ := Nat.exists_eq_add_of_le' hk
  rw [show 2 * (k + 1) = 2 * k + 2 by omega]
  simp [cell]

theorem cell_odd (q : RowKind) (hk : 1 ≤ k) : q.cell x half (2 * k + 1) = -(x k).im := by
  obtain ⟨k, rfl⟩ := Nat.exists_eq_add_of_le' hk
  rw [show 2 * (k + 1) + 1 = 2 * k + 1 + 2 by omega]
  simp [cell, show (2 * k + 1) / 2 = k by omega]

theorem held_row {kind : ℕ → RowKind} {n r m : ℕ} {X : ℕ → BenchComplex R} (hm : m < n) :
    held kind n X (r * n + m) = (kind r).cell (fun k => X (r * n + k)) (n / 2) m := by
  rw [held, row_div hm, row_mod hm]

end Cells

/-- `2 * a`. -/
def double [CommRing R] (a : BenchComplex R) : BenchComplex R :=
  ⟨((2 : ℕ) : R) * a.re, ((2 : ℕ) : R) * a.im⟩

theorem cell_double [CommRing R] (x : ℕ → BenchComplex R) (half : ℕ) (q : RowKind) (m : ℕ) :
    q.cell (fun k => double (x k)) half m = q.cell x half m * ((2 : ℕ) : R) := by
  rcases m with _ | _ | m
  · cases q <;> simp [cell, double, mul_comm]
  · cases q <;> simp [cell, double, mul_comm]
  · simp only [cell, double]
    split_ifs <;> ring

/-- The rows `r` and `r'` of `n` columns are mirror images. -/
def MirrorRows [CommRing R] (n : ℕ) (X : ℕ → BenchComplex R) (r r' : ℕ) : Prop :=
  ∀ k < n, X (r' * n + (n - k) % n) = conj (X (r * n + k))

section Mirror

variable [CommRing R] {n : ℕ} {X : ℕ → BenchComplex R} {r r' k : ℕ} (h : MirrorRows n X r r')

include h

theorem MirrorRows.first (hn : 0 < n) : X (r' * n + 0) = conj (X (r * n + 0)) := by
  have := h 0 hn
  rwa [Nat.sub_zero, Nat.mod_self] at this

theorem MirrorRows.middle (hn : 0 < n) (he : n % 2 = 0) :
    X (r' * n + n / 2) = conj (X (r * n + n / 2)) := by
  have := h (n / 2) (by omega)
  rwa [Nat.mod_eq_of_lt (by omega), show n - n / 2 = n / 2 by omega] at this

theorem MirrorRows.column (h0 : 1 ≤ k) (hk : k < n) :
    X (r' * n + (n - k)) = conj (X (r * n + k)) := by
  have := h k hk
  rwa [Nat.mod_eq_of_lt (by omega)] at this

end Mirror

/-! ### Writing -/

section Writing

variable [CommRing R] {kind : ℕ → RowKind} {n size r r' k l e : ℕ} {X : ℕ → BenchComplex R}
  (hn : 0 < n) (he : n % 2 = 0) (hlt : l < size)

include hlt

theorem assigns_held {m : ℕ} {y : R} (hm : m < n) (hl : l = r * n + m)
    (hy : y = (kind r).cell (fun k => X (r * n + k)) (n / 2) m) :
    Assigns (Buf.HasSize size) Buf.cell (fun a => a.write l y) (· = l) (held kind n X) := by
  apply assigns_write hlt
  rw [hl, held_row hm, hy]

variable (kind X) in
theorem assigns_re (h0 : 1 ≤ k) (hk : k < n / 2) (hl : l = r * n + 2 * k) (hentry : e = r * n + k) :
    Assigns (Buf.HasSize size) Buf.cell (fun a => a.write l (X e).re) (· = l) (held kind n X) := by
  apply assigns_held hlt (by omega) hl
  rw [cell_even _ h0, hentry]

theorem assigns_im (hr : MirrorRows n X r r') (h0 : 1 ≤ k) (hk : k < n / 2)
    (hl : l = r * n + (2 * k + 1)) (hentry : e = r' * n + (n - k)) :
    Assigns (Buf.HasSize size) Buf.cell (fun a => a.write l (X e).im) (· = l) (held kind n X) := by
  apply assigns_held hlt (by omega) hl
  rw [cell_odd _ h0, hentry, hr.column h0 (by omega), conj]

include hn

variable (kind X) in
theorem assigns_upper_re (hq : kind r = upper) (hl : l = r * n + 0) (hentry : e = r * n + 0) :
    Assigns (Buf.HasSize size) Buf.cell (fun a => a.write l (X e).re) (· = l) (held kind n X) := by
  apply assigns_held hlt hn hl
  rw [hq, hentry, cell]

theorem assigns_corner_first (hq : kind r = corner) (hl : l = r * n + 0) (hentry : e = r * n + 0) :
    Assigns (Buf.HasSize size) Buf.cell (fun a => a.write l (X e).re) (· = l) (held kind n X) := by
  apply assigns_held hlt hn hl
  rw [hq, hentry, cell]

include he

theorem assigns_corner_middle (hq : kind r = corner) (hl : l = r * n + 1)
    (hentry : e = r * n + n / 2) :
    Assigns (Buf.HasSize size) Buf.cell (fun a => a.write l (X e).re) (· = l) (held kind n X) := by
  apply assigns_held hlt (by omega) hl
  rw [hq, hentry, cell]

variable (hr : MirrorRows n X r r')

include hr

theorem assigns_upper_im (hq : kind r = upper) (hl : l = r * n + 1) (hentry : e = r' * n + 0) :
    Assigns (Buf.HasSize size) Buf.cell (fun a => a.write l (X e).im) (· = l) (held kind n X) := by
  apply assigns_held hlt (by omega) hl
  rw [hq, hentry, cell, hr.first hn, conj]

theorem assigns_lower_re (hq : kind r = lower) (hl : l = r * n + 1) (hentry : e = r' * n + n / 2) :
    Assigns (Buf.HasSize size) Buf.cell (fun a => a.write l (X e).re) (· = l) (held kind n X) := by
  apply assigns_held hlt (by omega) hl
  rw [hq, hentry, cell, hr.middle hn he, conj]

theorem assigns_lower_im (hq : kind r = lower) (hl : l = r * n + 0) (hentry : e = r' * n + n / 2) :
    Assigns (Buf.HasSize size) Buf.cell (fun a => a.write l (X e).im) (· = l) (held kind n X) := by
  apply assigns_held hlt (by omega) hl
  rw [hq, hentry, cell, hr.middle hn he, conj]

end Writing

/-! ### Reading -/

/-- The rows below `rows` of the buffer hold the array `Y`. -/
def Holds [Neg R] (kind : ℕ → RowKind) (n rows : ℕ) (Y : ℕ → BenchComplex R) (a : Buf R) : Prop :=
  ∀ r < rows, ∀ m < n,
    a.read (r * n + m) = .ok ((kind r).cell (fun k => Y (r * n + k)) (n / 2) m)

theorem hermitian_double [CommRing R] {dims : List ℕ} {X : ℕ → BenchComplex R}
    (hX : Hermitian dims X) : Hermitian dims fun k => double (X k) := by
  intro k hk
  simp only [hX k hk, double, conj, mul_neg]

/-- Scaled by `2`, the cells of `X` are those of `2 * X`. -/
theorem holds_double [CommRing R] {kind : ℕ → RowKind} {n rows : ℕ} {X : ℕ → BenchComplex R}
    {a : Buf R} (hsize : rows * n ≤ a.size)
    (hcells : ∀ l < rows * n, a.cell l = held kind n X l * ((2 : ℕ) : R)) :
    Holds kind n rows (fun k => double (X k)) a := by
  intro r hr m hm
  have hlt := row_lt (Nat.mul_le_mul_right n hr) hm
  rw [Buf.read_ok (by omega), hcells _ hlt, held_row hm, ← cell_double]

section Reading

variable [Field R] {kind : ℕ → RowKind} {n rows r r' k l l' e e' : ℕ} {Y : ℕ → BenchComplex R}
  {a : Buf R} (ha : Holds kind n rows Y a) (hr : MirrorRows n Y r r') (hrow : r < rows)
  (hn : 0 < n) (he : n % 2 = 0)

include ha hrow

theorem assigns_pair_column (hr : MirrorRows n Y r r') (h0 : 1 ≤ k) (hk : k < n / 2)
    (hl : l = r * n + 2 * k) (hl' : l' = r * n + (2 * k + 1)) (hi : e = r * n + k)
    (hj : e' = r' * n + (n - k)) :
    Assigns (fun _ => True) parts
      (fun out => putPair out e e' (a.read l) (Neg.neg <$> a.read l') (a.read l'))
      (fun s => s.2 = e ∨ s.2 = e') (parts Y) := by
  have hmirror := hr.column h0 (by omega)
  subst hl hl' hi hj
  rw [ha r hrow _ (by omega), ha r hrow _ (by omega), cell_even _ h0, cell_odd _ h0]
  apply assigns_putPair <;> simp [hmirror, conj]

include hn

theorem assigns_corner_first_re (hq : kind r = corner) (hl : l = r * n + 0) (hi : e = r * n + 0) :
    Assigns (fun _ => True) parts (fun out => putRe out e (a.read l)) (· = (.re, e)) (parts Y) := by
  apply assigns_put
  rw [hl, hi, ha r hrow _ hn, hq, cell]
  rfl

include he

theorem assigns_pair_upper (hr : MirrorRows n Y r r') (hq : kind r = upper) (hl : l = r * n + 0)
    (hl' : l' = r * n + 1) (hi : e = r * n + 0) (hj : e' = r' * n + 0) :
    Assigns (fun _ => True) parts
      (fun out => putPair out e e' (a.read l) (Neg.neg <$> a.read l') (a.read l'))
      (fun s => s.2 = e ∨ s.2 = e') (parts Y) := by
  have hmirror := hr.first hn
  rw [Nat.add_zero, Nat.add_zero] at hmirror
  subst hl hl' hi hj
  rw [ha r hrow _ hn, ha r hrow _ (by omega), hq, cell, cell]
  apply assigns_putPair <;> simp [hmirror, conj]

/-- The mirror image comes first. -/
theorem assigns_pair_lower (hr : MirrorRows n Y r r') (hq : kind r = lower) (hl : l = r * n + 1)
    (hl' : l' = r * n + 0) (hi : e' = r' * n + n / 2) (hj : e = r * n + n / 2) :
    Assigns (fun _ => True) parts
      (fun out => putPair out e' e (a.read l) (a.read l') (Neg.neg <$> a.read l'))
      (fun s => s.2 = e' ∨ s.2 = e) (parts Y) := by
  have hmirror := hr.middle hn he
  subst hl hl' hi hj
  rw [ha r hrow _ hn, ha r hrow _ (by omega), hq, cell, cell]
  apply assigns_putPair <;> simp [hmirror, conj]

theorem assigns_corner_middle_re (hq : kind r = corner) (hl : l = r * n + 1)
    (hi : e = r * n + n / 2) :
    Assigns (fun _ => True) parts (fun out => putRe out e (a.read l)) (· = (.re, e)) (parts Y) := by
  apply assigns_put
  rw [hl, hi, ha r hrow _ (by omega), hq, cell]
  rfl

omit ha hrow

/-- In a row that is its own mirror image, the columns `0` and `n/2` are real. -/
theorem assigns_corner_im [NeZero (2 : R)] (hr : MirrorRows n Y r r)
    (hi : e = r * n + 0 ∨ e = r * n + n / 2) :
    Assigns (fun _ => True) parts (fun out => putIm out e (.ok 0)) (· = (.im, e)) (parts Y) := by
  apply assigns_put
  rcases hi with rfl | rfl
  · exact congrArg _ (im_eq_zero_of_conj (hr.first hn)).symm
  · exact congrArg _ (im_eq_zero_of_conj (hr.middle hn he)).symm

end Reading

end RowKind

end BenchFFT
