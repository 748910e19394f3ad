import BenchFFT.Benchees.Equiv.Layout
import BenchFFT.Benchees.Vdsp
import BenchFFT.Problem.Equiv.Copy1d

/-!
# The two-dimensional real layout of vDSP

`InColumn n x c` says that the first `n` cells of `c` hold the column `x` in the packed format.  In
`ins` and `outs` the column `0` of a hermitian array stands so in the real parts of the column `0`,
the column `n1/2` in its imaginary parts, and the columns in between stand as they are (`Holds`).

`realp` is scratch space while the two columns are packed (`packColumn_spec`) or unpacked
(`unpackColumn_spec`): for `copy_c2h` before it gets the real parts, for `copy_h2c` after they have
been read.

* `c2hRank2_spec`: what `copy_c2h` leaves in `ins`.
* `h2cRank2_spec`: what `copy_h2c` reads from `outs`.
* `vdsp_round_trip`: the round trip, which halves the array.
-/

namespace BenchFFT.Vdsp

open Format1d

variable {R : Type}

/-! ### Packed columns -/

section Columns

variable [Field R] {n n0 n1 col : ℕ} {x : ℕ → BenchComplex R}

/-- The first `n` cells of `c` hold the column `x`. -/
def InColumn (n : ℕ) (x : ℕ → BenchComplex R) (c : ℕ → R) : Prop :=
  Stores ((packed 1 1).reCell n) ((packed 1 1).imCell n) (-1) n c x

theorem InColumn.congr {y : ℕ → BenchComplex R} {c c' : ℕ → R} (h : InColumn n x c) (hn : 0 < n)
    (heven : n % 2 = 0) (hx : ∀ i < n, y i = x i) (hc : ∀ i < n, c' i = c i) : InColumn n y c' where
  re k hk := by
    rw [hc _ ?_, h.re k hk, hx k (by omega)]
    rw [reCell]
    split_ifs <;> omega
  im k h0 hk := by
    rw [hc _ ?_, h.im k h0 hk, hx k (by omega)]
    rw [imCell]
    omega

theorem stride_bound (hn : Dims2 n0 n1) : KeepsBelow u32 (n0 * max 1 (n1 / 2 + 1)) := by
  have hhalf := hn.half_pos
  have hle := Nat.mul_le_mul_left n0 (by omega : max 1 (n1 / 2 + 1) ≤ n1)
  exact keepsBelow_u32 (lt_of_le_of_lt hle hn.lt)

theorem packColumn_spec (hn : Dims2 n0 n1) (col : ℕ) (b : Buf (BenchComplex R)) {realp : Buf R}
    (hrealp : n0 ≤ realp.size) :
    ∃ realp', packColumn n0 n1 col b realp = .ok realp' ∧ realp'.size = realp.size ∧
      InColumn n0 (fun i => b.cell (i * (n1 / 2 + 1) + col)) realp'.cell := by
  have hpos := hn.pos0
  obtain ⟨g, hrun, hstores⟩ := packed_stores (fun i => b.cell (col + i)) (-1) hpos hn.even0
    one_pos (stride_bound hn) (by omega : (n0 - 1) * 1 + 1 ≤ realp.size)
  refine ⟨realp.lift g, hrun realp rfl, rfl, ?_⟩
  have h := hstores realp.cell
  simp only [Nat.add_comm col] at h
  exact h

/-- Only the cells of the column change. -/
theorem unpackColumn_spec [NeZero (2 : R)] (hn : Dims2 n0 n1) (hcol : col ≤ n1 / 2)
    (hx : Hermitian [n0] x) (b : Buf (BenchComplex R)) {realp : Buf R} (hrealp : n0 ≤ realp.size)
    (hcolumn : InColumn n0 x realp.cell) :
    ∃ b', unpackColumn n0 n1 col realp b = .ok b' ∧ b'.size = b.size ∧
      ∀ i < n0, ∀ k < n1 / 2 + 1, b'.cell (i * (n1 / 2 + 1) + k)
        = if k = col then x i else b.cell (i * (n1 / 2 + 1) + k) := by
  have hpos := hn.pos0
  have hread := packed_reads (fun i => b.cell (col + i)) (-1) hpos hn.even0 one_pos
    (stride_bound hn) (by omega : (n0 - 1) * 1 + 1 ≤ realp.size)
  have hdecodes : Decodes ((packed 1 (n1 / 2 + 1)).reCell n0) ((packed 1 (n1 / 2 + 1)).imCell n0)
      (-1) n0 realp.cell _ :=
    unpack_decodes (fun i => b.cell (col + i)) (-1) hpos hn.even0 (Nat.succ_pos _) realp.cell
  have hx' := hdecodes.eq_of_stores (by ring) hx hcolumn
  obtain ⟨c, hc⟩ : ∃ c, c = unpack n0 1 (n1 / 2 + 1) (-1) realp.cell fun i => b.cell (col + i) :=
    ⟨_, rfl⟩
  rw [← hc] at hread hx'
  refine ⟨⟨b.size, fun i => if i < col then b.cell i else c (i - col)⟩, ?_, rfl, ?_⟩
  · rw [unpackColumn, hread]
    rfl
  intro i hi k hk
  dsimp only
  rcases eq_or_ne k col with rfl | hne
  · rw [if_neg (by omega), Nat.add_sub_cancel, if_pos rfl]
    exact hx' i hi
  rw [if_neg hne]
  split_ifs with hlt
  · rfl
  · rw [hc, unpack_off _ _ hpos, Nat.add_sub_cancel' (by omega)]
    intro r hr h
    exact hne (row_inj hk (by omega) (by omega : i * (n1 / 2 + 1) + k = r * (n1 / 2 + 1) + col)).2

end Columns

/-! ### The loops -/

namespace SplitComplex

/-- The complex number `i`. -/
def entry (s : SplitComplex R) (i : ℕ) : BenchComplex R := ⟨s.realp.cell i, s.imagp.cell i⟩

/-- Both arrays have at least `m` cells. -/
def HasRoom (m : ℕ) (s : SplitComplex R) : Prop := m ≤ s.realp.size ∧ m ≤ s.imagp.size

/-- Both parts of the complex number `i` are written. -/
def write (s : SplitComplex R) (i : ℕ) (a : BenchComplex R) : Except Abort (SplitComplex R) := do
  let realp ← s.realp.write i a.re
  let imagp ← s.imagp.write i a.im
  return ⟨realp, imagp⟩

end SplitComplex

theorem assigns_entry {m m' i : ℕ} (hm : i < m) (hm' : i < m') {a : BenchComplex R}
    {Y : ℕ → BenchComplex R} (ha : a = Y i) :
    Assigns (fun s : SplitComplex R => s.realp.size = m ∧ s.imagp.size = m')
      (fun s => parts s.entry) (fun s => s.write i a) (fun l => l.2 = i) (parts Y) := by
  rintro s ⟨hre, him⟩
  refine ⟨⟨s.realp.lift (Function.update · i a.re), s.imagp.lift (Function.update · i a.im)⟩, ?_,
    ⟨hre, him⟩, ?_, ?_⟩
  · show s.write i a = _
    unfold SplitComplex.write
    rw [bind_ok (Buf.write_ok (hre ▸ hm) _), bind_ok (Buf.write_ok (him ▸ hm') _)]
    rfl
  · rintro ⟨q, k⟩ hk
    obtain rfl : k = i := hk
    cases q <;> simp [parts, Part.of, SplitComplex.entry, Buf.lift, ha]
  · rintro ⟨q, k⟩
    by_cases h : k = i
    · subst h
      cases q <;> simp [parts, Part.of, SplitComplex.entry, Buf.lift, ha]
    · cases q <;> simp [parts, Part.of, SplitComplex.entry, Buf.lift, Function.update_of_ne h]

section Scatter

variable {n0 ld m : ℕ} {put : BenchComplex R → R → BenchComplex R} {x : ℕ → R}
  {c c' : ℕ → BenchComplex R}

/-- In the rows below `m`, the first entry has been put together with `x`; the others are those of
`c`. -/
def Scattered (n0 ld m : ℕ) (put : BenchComplex R → R → BenchComplex R) (x : ℕ → R)
    (c c' : ℕ → BenchComplex R) : Prop :=
  ∀ i < n0, ∀ k < ld,
    c' (i * ld + k) = if k = 0 ∧ i < m then put (c (i * ld + k)) (x i) else c (i * ld + k)

theorem Scattered.refl : Scattered n0 ld 0 put x c c := fun _ _ _ _ => (if_neg (by omega)).symm

theorem Scattered.write (h : Scattered n0 ld m put x c c') :
    Scattered n0 ld (m + 1) put x c
      (Function.update c' (m * ld) (put (c (m * ld)) (x m))) := by
  intro i hi k hk
  by_cases hik : i = m ∧ k = 0
  · obtain ⟨rfl, rfl⟩ := hik
    simp
  · have hne : i * ld + k ≠ m * ld := fun heq =>
      hik (row_inj hk (Nat.zero_lt_of_lt hk) (by omega : i * ld + k = m * ld + 0))
    rw [Function.update_of_ne hne, h i hi k hk]
    by_cases him : k = 0 ∧ i < m
    · rw [if_pos him, if_pos (by omega)]
    · rw [if_neg him, if_neg (by omega)]

/-- First the real parts, then the imaginary parts. -/
theorem Scattered.both {y : ℕ → R} {c'' : ℕ → BenchComplex R}
    (h : Scattered n0 ld n0 (fun a x => ⟨x, a.im⟩) x c c')
    (h' : Scattered n0 ld n0 (fun a y => ⟨a.re, y⟩) y c' c'') {i k : ℕ} (hi : i < n0)
    (hk : k < ld) : c'' (i * ld + k) = if k = 0 then ⟨x i, y i⟩ else c (i * ld + k) := by
  rw [h' i hi k hk, h i hi k hk]
  rcases eq_or_ne k 0 with h0 | h0
  · simp only [h0, hi, and_self, if_true]
  · simp only [h0, false_and, if_false]

end Scatter

section Loops

variable {n0 n1 : ℕ} (hn : Dims2 n0 n1)

include hn

theorem row_le : n1 / 2 + 1 ≤ n1 := by
  have hhalf := hn.half_pos
  omega

theorem scatter_spec (put : BenchComplex R → R → BenchComplex R) {realp : Buf R}
    (hrealp : n0 ≤ realp.size) {b : Buf (BenchComplex R)} (hb : n0 * (n1 / 2 + 1) ≤ b.size) :
    ∃ b', scatter n0 n1 put realp b = .ok b' ∧ b'.size = b.size ∧
      Scattered n0 (n1 / 2 + 1) n0 put realp.cell b.cell b'.cell := by
  apply forRangeM_exists (fun m (t : Buf (BenchComplex R)) => t.size = b.size ∧
    Scattered n0 (n1 / 2 + 1) m put realp.cell b.cell t.cell)
  · exact ⟨rfl, Scattered.refl⟩
  rintro m hm t ⟨hsize, ht⟩
  have hidx := hn.index (row_le hn) hm (Nat.succ_pos _)
  have hlt := row_lt (Nat.mul_le_mul_right (n1 / 2 + 1) hm) (Nat.succ_pos _)
  have hold := ht m hm 0 (Nat.succ_pos _)
  rw [if_neg (by omega)] at hold
  rw [Nat.add_zero] at hidx hlt hold
  have hlt' : m * (n1 / 2 + 1) < t.size := by omega
  refine ⟨t.lift (Function.update · (m * (n1 / 2 + 1))
    (put (b.cell (m * (n1 / 2 + 1))) (realp.cell m))), ?_, hsize, ht.write⟩
  rw [Buf.read_ok (by omega : m < realp.size), hidx, Buf.read_ok hlt', ← hold]
  exact Buf.write_ok hlt' _

/-- `realp` gets the parts of the column `0`. -/
theorem gather_assigns (part : BenchComplex R → R) {b : Buf (BenchComplex R)}
    (hb : n0 * (n1 / 2 + 1) ≤ b.size) {size : ℕ} (hsize : n0 ≤ size) :
    Assigns (Buf.HasSize size) Buf.cell (gather n0 n1 part b) (· < n0)
      (fun i => part (b.cell (i * (n1 / 2 + 1) + 0))) := by
  have hloop := Assigns.forRangeM fun i (hi : i < n0) =>
    assigns_write (m := size) (v := fun i => part (b.cell (i * (n1 / 2 + 1) + 0)))
      (lt_of_lt_of_le hi hsize) rfl
  have hrun : gather n0 n1 part b = forRangeM n0 fun i realp =>
      realp.write i (part (b.cell (i * (n1 / 2 + 1) + 0))) := by
    funext realp
    apply forRangeM_congr
    intro i hi
    have hidx := hn.index (row_le hn) hi (Nat.succ_pos _)
    have hlt := row_lt (Nat.mul_le_mul_right (n1 / 2 + 1) hi) (Nat.succ_pos _)
    rw [Nat.add_zero] at hidx hlt
    rw [hidx, Buf.read_ok (lt_of_lt_of_le hlt hb)]
    rfl
  rw [hrun]
  exact hloop.mono fun i hi => ⟨i, hi, rfl⟩

/-- The entries of the split array `outs`, in rows of `n1/2+1`. -/
theorem merge_assigns {outs : SplitComplex R} (hre : n0 * (n1 / 2) ≤ outs.realp.size)
    (him : n0 * (n1 / 2) ≤ outs.imagp.size) {size : ℕ} (hsize : n0 * (n1 / 2 + 1) ≤ size) :
    Assigns (Buf.HasSize size) Buf.cell (merge n0 n1 outs)
      (fun l => ∃ i < n0, ∃ k < n1 / 2, l = i * (n1 / 2 + 1) + k)
      (fun l => outs.entry (l / (n1 / 2 + 1) * (n1 / 2) + l % (n1 / 2 + 1))) := by
  have hloop := Assigns.forRangeM fun i (hi : i < n0) =>
    Assigns.forRangeM fun k (hk : k < n1 / 2) =>
      assigns_write (m := size) (i := i * (n1 / 2 + 1) + k) (x := outs.entry (i * (n1 / 2) + k))
        (v := fun l => outs.entry (l / (n1 / 2 + 1) * (n1 / 2) + l % (n1 / 2 + 1)))
        (lt_of_lt_of_le (row_lt (Nat.mul_le_mul_right _ hi) (by omega)) hsize)
        (by rw [row_div (by omega), row_mod (by omega)])
  have hrun : merge n0 n1 outs = forRangeM n0 fun i => forRangeM (n1 / 2) fun k poutc =>
      poutc.write (i * (n1 / 2 + 1) + k) (outs.entry (i * (n1 / 2) + k)) := by
    funext poutc
    apply forRangeM_congr
    intro i hi
    funext poutc
    apply forRangeM_congr
    intro k hk
    have hlt := row_lt (Nat.mul_le_mul_right _ hi) hk
    rw [hn.index (row_le hn) hi (by omega), hn.index (Nat.div_le_self n1 2) hi hk,
      Buf.read_ok (lt_of_lt_of_le hlt hre), Buf.read_ok (lt_of_lt_of_le hlt him)]
    rfl
  rw [hrun]
  refine hloop.mono fun l hl => ?_
  obtain ⟨i, hi, k, hk, rfl⟩ := hl
  exact ⟨i, hi, k, hk, rfl⟩

/-- The split array gets the entries of the columns below `n1/2`. -/
theorem split_assigns {b : Buf (BenchComplex R)} (hb : n0 * (n1 / 2 + 1) ≤ b.size) {m m' : ℕ}
    (hm : n0 * (n1 / 2) ≤ m) (hm' : n0 * (n1 / 2) ≤ m') :
    Assigns (fun s : SplitComplex R => s.realp.size = m ∧ s.imagp.size = m')
      (fun s => parts s.entry) (split n0 n1 b) (fun l => l.2 < n0 * (n1 / 2))
      (parts fun l => b.cell (l / (n1 / 2) * (n1 / 2 + 1) + l % (n1 / 2))) := by
  have hloop := Assigns.forRangeM fun i (hi : i < n0) =>
    Assigns.forRangeM fun k (hk : k < n1 / 2) =>
      have hlt := row_lt (Nat.mul_le_mul_right _ hi) hk
      assigns_entry (lt_of_lt_of_le hlt hm) (lt_of_lt_of_le hlt hm')
        (a := b.cell (i * (n1 / 2 + 1) + k))
        (Y := fun l => b.cell (l / (n1 / 2) * (n1 / 2 + 1) + l % (n1 / 2)))
        (by rw [row_div hk, row_mod hk])
  have hrun : split n0 n1 b = forRangeM n0 fun i => forRangeM (n1 / 2) fun k s =>
      s.write (i * (n1 / 2) + k) (b.cell (i * (n1 / 2 + 1) + k)) := by
    funext s
    apply forRangeM_congr
    intro i hi
    funext s
    apply forRangeM_congr
    intro k hk
    have hlt := row_lt (Nat.mul_le_mul_right _ hi) (by omega : k < n1 / 2 + 1)
    rw [hn.index (row_le hn) hi (by omega), hn.index (Nat.div_le_self n1 2) hi hk,
      Buf.read_ok (lt_of_lt_of_le hlt hb)]
    rfl
  rw [hrun]
  refine hloop.mono fun l hl => ?_
  exact exists_row hl

end Loops

/-! ### A column through `realp` -/

section Stages

variable [Field R] {n0 n1 : ℕ} (hn : Dims2 n0 n1) {b : Buf (BenchComplex R)}
  (hb : n0 * (n1 / 2 + 1) ≤ b.size) {realp : Buf R} (hrealp : n0 ≤ realp.size)

include hn hb hrealp

/-- A column is packed, then put into the column `0`. -/
theorem pack_scatter_spec (col : ℕ) (put : BenchComplex R → R → BenchComplex R) :
    ∃ realp' b', packColumn n0 n1 col b realp = .ok realp' ∧ realp'.size = realp.size ∧
      scatter n0 n1 put realp' b = .ok b' ∧ b'.size = b.size ∧
      InColumn n0 (fun i => b.cell (i * (n1 / 2 + 1) + col)) realp'.cell ∧
      Scattered n0 (n1 / 2 + 1) n0 put realp'.cell b.cell b'.cell := by
  obtain ⟨realp', hpack, hsize, hcolumn⟩ := packColumn_spec hn col b hrealp
  obtain ⟨b', hscatter, hsize', hput⟩ := scatter_spec hn put (by omega : n0 ≤ realp'.size) hb
  exact ⟨realp', b', hpack, hsize, hscatter, hsize', hcolumn, hput⟩

/-- A packed column is taken from the column `0`, then unpacked. -/
theorem gather_unpack_spec [NeZero (2 : R)] {col : ℕ} (hcol : col ≤ n1 / 2)
    (part : BenchComplex R → R) {x : ℕ → BenchComplex R} (hx : Hermitian [n0] x)
    (hcolumn : InColumn n0 x fun i => part (b.cell (i * (n1 / 2 + 1) + 0))) :
    ∃ realp' b', gather n0 n1 part b realp = .ok realp' ∧ realp'.size = realp.size ∧
      unpackColumn n0 n1 col realp' b = .ok b' ∧ b'.size = b.size ∧
      ∀ i < n0, ∀ k < n1 / 2 + 1, b'.cell (i * (n1 / 2 + 1) + k)
        = if k = col then x i else b.cell (i * (n1 / 2 + 1) + k) := by
  obtain ⟨realp', hrun, hsize, hgather⟩ := gather_assigns hn part hb hrealp realp rfl
  have hsize' : realp'.size = realp.size := hsize
  obtain ⟨b', hrun', hb', hcell⟩ := unpackColumn_spec hn hcol hx b (by omega : n0 ≤ realp'.size)
    (hcolumn.congr hn.pos0 hn.even0 (fun _ _ => rfl) hgather.on)
  exact ⟨realp', b', hrun, hsize', hrun', hb', hcell⟩

end Stages

/-! ### The routines -/

/-- The split array `s` holds the array `X`. -/
structure Holds [Field R] (n0 n1 : ℕ) (X : ℕ → BenchComplex R) (s : SplitComplex R) : Prop where
  dc : InColumn n0 (fun i => X (i * n1 + 0)) fun i => (s.entry (i * (n1 / 2) + 0)).re
  nyquist : InColumn n0 (fun i => X (i * n1 + n1 / 2)) fun i => (s.entry (i * (n1 / 2) + 0)).im
  inner : ∀ i < n0, ∀ k, 0 < k → k < n1 / 2 → s.entry (i * (n1 / 2) + k) = X (i * n1 + k)

/-- Only the entries of the columns below `n1/2` matter. -/
theorem Holds.congr [Field R] {n0 n1 : ℕ} {X : ℕ → BenchComplex R} {s s' : SplitComplex R}
    (h : Holds n0 n1 X s) (hn : Dims2 n0 n1) (hs : ∀ i < n0 * (n1 / 2), s'.entry i = s.entry i) :
    Holds n0 n1 X s' := by
  have hhalf := hn.half_pos
  have hrow : ∀ i < n0, ∀ k < n1 / 2, s'.entry (i * (n1 / 2) + k) = s.entry (i * (n1 / 2) + k) :=
    fun i hi k hk => hs _ (row_lt (Nat.mul_le_mul_right _ hi) hk)
  refine ⟨?_, ?_, fun i hi k h0 hk => ?_⟩
  · exact h.dc.congr hn.pos0 hn.even0 (fun _ _ => rfl) fun i hi => by rw [hrow i hi 0 hhalf]
  · exact h.nyquist.congr hn.pos0 hn.even0 (fun _ _ => rfl) fun i hi => by rw [hrow i hi 0 hhalf]
  · rw [hrow i hi k hk, h.inner i hi k h0 hk]

section Routines

variable [Field R] {p : Problem} (hp : RealPow2 p 2) {n0 n1 : ℕ} (hdims : p.dims = [n0, n1])
  (hn : Dims2 n0 n1)

theorem packedAt_neg_one (X : ℕ → BenchComplex R) (n r k : ℕ) :
    packedAt X (-1) n r k = X (r * n + k) := by
  simp [packedAt]

include hp hdims

theorem unpacked_writes (X : ℕ → BenchComplex R) {b : Buf (BenchComplex R)}
    (hb : n0 * (n1 / 2 + 1) ≤ b.size) :
    ∃ b', copyC2hUnpacked u32 p b X (-1) = .ok b' ∧ b'.size = b.size ∧
      ∀ i < n0, ∀ k < n1 / 2 + 1, b'.cell (i * (n1 / 2 + 1) + k) = X (i * n1 + k) := by
  have hlast : lastDim p = n1 := by simp [lastDim, hdims]
  have hrows : p.dims.dropLast.prod = n0 := by simp [hdims]
  have hcells : unpackedCells p ≤ b.size := by
    rwa [unpackedCells, hlast, hrows, Nat.add_comm 1]
  obtain ⟨b', hrun, hsize, hcell⟩ := copyC2hUnpacked_eq (by have := hp.rank_eq; omega) hp.kind
    hp.pos (hp.keepsIndices le_rfl) X (-1) hcells
  rw [hlast, hrows, Nat.add_comm 1] at hcell
  exact ⟨b', hrun, hsize, fun i hi k hk => by rw [hcell i hi k hk, packedAt_neg_one]⟩

theorem unpacked_reads {X : ℕ → BenchComplex R} (hX : Hermitian p.dims X) {b : Buf (BenchComplex R)}
    (hb : n0 * (n1 / 2 + 1) ≤ b.size)
    (hcell : ∀ i < n0, ∀ k < n1 / 2 + 1, b.cell (i * (n1 / 2 + 1) + k) = X (i * n1 + k))
    (Y₀ : ℕ → BenchComplex R) :
    ∃ Y, copyH2cUnpacked u32 p b Y₀ (-1) = .ok Y ∧ ∀ k < p.dims.prod, Y k = X k := by
  have hlast : lastDim p = n1 := by simp [lastDim, hdims]
  have hrows : p.dims.dropLast.prod = n0 := by simp [hdims]
  apply copyH2cUnpacked_of_packed (by have := hp.rank_eq; omega) hp.kind
    hp.pos (hp.keepsIndices le_rfl) (by ring) hX
  · rwa [unpackedCells, hlast, hrows, Nat.add_comm 1]
  · rw [hlast, hrows, Nat.add_comm 1]
    exact fun i hi k hk => by rw [hcell i hi k hk, packedAt_neg_one]

include hn

theorem c2hRank2_spec (X : ℕ → BenchComplex R) {pinc : Buf (BenchComplex R)}
    (hpinc : n0 * (n1 / 2 + 1) ≤ pinc.size) {ins : SplitComplex R}
    (hre : n0 * (n1 / 2) ≤ ins.realp.size) (him : n0 * (n1 / 2) ≤ ins.imagp.size) :
    ∃ pinc' ins', c2hRank2 n0 n1 p pinc ins X = .ok (pinc', ins') ∧ pinc'.size = pinc.size ∧
      ins'.realp.size = ins.realp.size ∧ ins'.imagp.size = ins.imagp.size ∧
      Holds n0 n1 X ins' := by
  have hpos0 := hn.pos0
  have hhalf := hn.half_pos
  have hle : n0 ≤ n0 * (n1 / 2) := Nat.le_mul_of_pos_right _ hhalf
  obtain ⟨b, hrun, hsize, hcell⟩ := unpacked_writes hp hdims X hpinc
  -- the column `0`, then the column `n1/2`, each through `realp`
  obtain ⟨realp, b2, hrun1, hsize1, hrun2, hsize2, hdc, hput⟩ := pack_scatter_spec hn
    (by omega : _ ≤ b.size) (hle.trans hre) 0 fun a x => ⟨x, a.im⟩
  obtain ⟨realp', b3, hrun3, hsize3, hrun4, hsize4, hnyquist, hput'⟩ := pack_scatter_spec hn
    (by omega : _ ≤ b2.size) (by omega : n0 ≤ realp.size) (n1 / 2) fun a x => ⟨a.re, x⟩
  obtain ⟨ins', hrun5, ⟨hsize5, hsize6⟩, hins⟩ := split_assigns hn (by omega : _ ≤ b3.size)
    (by omega : _ ≤ realp'.size) him ⟨realp', ins.imagp⟩ ⟨rfl, rfl⟩
  have hentry : ∀ i < n0, ∀ k < n1 / 2, ins'.entry (i * (n1 / 2) + k)
      = if k = 0 then ⟨realp.cell i, realp'.cell i⟩ else X (i * n1 + k) := by
    intro i hi k hk
    have hlt := row_lt (Nat.mul_le_mul_right _ hi) hk
    have h := ext_parts fun q => hins.on (q, i * (n1 / 2) + k) hlt
    rw [row_div hk, row_mod hk, hput.both hput' hi (by omega), hcell i hi k (by omega)] at h
    exact h
  refine ⟨b3, ins', ?_, by omega, by omega, hsize6, ?_, ?_, ?_⟩
  · rw [c2hRank2, bind_ok hrun, bind_ok hrun1, bind_ok hrun2, bind_ok hrun3, bind_ok hrun4,
      bind_ok hrun5]
    rfl
  · apply hdc.congr hpos0 hn.even0
    · exact fun i hi => (hcell i hi 0 (Nat.succ_pos _)).symm
    · exact fun i hi => by rw [hentry i hi 0 hhalf, if_pos rfl]
  · apply hnyquist.congr hpos0 hn.even0
    · intro i hi
      rw [hput i hi _ (Nat.lt_succ_self _), if_neg (by omega), hcell i hi _ (Nat.lt_succ_self _)]
    · exact fun i hi => by rw [hentry i hi 0 hhalf, if_pos rfl]
  · exact fun i hi k h0 hk => by rw [hentry i hi k hk, if_neg (by omega)]

theorem h2cRank2_spec [NeZero (2 : R)] {X : ℕ → BenchComplex R} (hX : Hermitian p.dims X)
    {outs : SplitComplex R} (houts : Holds n0 n1 X outs) (hre : n0 * (n1 / 2) ≤ outs.realp.size)
    (him : n0 * (n1 / 2) ≤ outs.imagp.size) {poutc : Buf (BenchComplex R)}
    (hpoutc : n0 * (n1 / 2 + 1) ≤ poutc.size) (Y₀ : ℕ → BenchComplex R) :
    ∃ poutc' outs' Y, h2cRank2 n0 n1 p poutc outs Y₀ = .ok (poutc', outs', Y) ∧
      ∀ k < p.dims.prod, Y k = X k := by
  have hpos0 := hn.pos0
  have hhalf := hn.half_pos
  have hle : n0 ≤ n0 * (n1 / 2) := Nat.le_mul_of_pos_right _ hhalf
  have hcolumn : ∀ col, col = 0 ∨ col = n1 / 2 → Hermitian [n0] fun i => X (i * n1 + col) :=
    fun col hcol => hermitian_singleton.mpr fun i hi =>
      hermitian_column (hdims ▸ hX) hn.pos1 hn.even1 hcol hi
  obtain ⟨b, hrun, hsize, hmerge⟩ := merge_assigns hn hre him hpoutc poutc rfl
  have hcell : ∀ i < n0, ∀ k < n1 / 2,
      b.cell (i * (n1 / 2 + 1) + k) = outs.entry (i * (n1 / 2) + k) := by
    intro i hi k hk
    rw [hmerge.on _ ⟨i, hi, k, hk, rfl⟩, row_div (by omega), row_mod (by omega)]
  have hsize' : b.size = poutc.size := hsize
  -- the column `n1/2`, then the column `0`, whose real parts are still those of `outs`
  obtain ⟨realp, b2, hrun1, hsize1, hrun2, hsize2, hcell2⟩ := gather_unpack_spec hn
    (by omega : _ ≤ b.size) (hle.trans hre) le_rfl BenchComplex.im (hcolumn _ (Or.inr rfl)) <| by
      apply houts.nyquist.congr hpos0 hn.even0 (fun _ _ => rfl)
      exact fun i hi => by rw [hcell i hi 0 hhalf]
  obtain ⟨realp', b3, hrun3, hsize3, hrun4, hsize4, hcell3⟩ := gather_unpack_spec hn
    (by omega : _ ≤ b2.size) (by omega : n0 ≤ realp.size) (Nat.zero_le _) BenchComplex.re
    (hcolumn _ (Or.inl rfl)) <| by
      apply houts.dc.congr hpos0 hn.even0 (fun _ _ => rfl)
      intro i hi
      rw [hcell2 i hi 0 (Nat.succ_pos _), if_neg hhalf.ne, hcell i hi 0 hhalf]
  have hfinal : ∀ i < n0, ∀ k < n1 / 2 + 1, b3.cell (i * (n1 / 2 + 1) + k) = X (i * n1 + k) := by
    intro i hi k hk
    rw [hcell3 i hi k hk]
    split_ifs with h0
    · rw [h0]
    rw [hcell2 i hi k hk]
    split_ifs with hmid
    · rw [hmid]
    · rw [hcell i hi k (by omega), houts.inner i hi k (by omega) (by omega)]
  obtain ⟨Y, hrun5, hY⟩ := unpacked_reads hp hdims hX (by omega : _ ≤ b3.size) hfinal Y₀
  refine ⟨b3, ⟨realp', outs.imagp⟩, Y, ?_, hY⟩
  rw [h2cRank2, bind_ok hrun, bind_ok hrun1, bind_ok hrun2, bind_ok hrun3, bind_ok hrun4,
    bind_ok hrun5]
  rfl

end Routines

/-- `0.5 * a`. -/
theorem cascale_half [Field R] (Y : ℕ → BenchComplex R) {n k : ℕ} (hk : k < n) :
    cascale Y n half k = ⟨(Y k).re / 2, (Y k).im / 2⟩ := by
  rw [cascale_apply, if_pos hk]
  simp [half, div_eq_mul_inv, one_add_one_eq_two]

/-- **vDSP's two-dimensional real layout round-trips**, up to the factor of two by which the library
scales.  Whatever the buffers held, `copy_c2h` leaves in `ins` an image of `X` from which `copy_h2c`
gets `X/2`, be `outs` the same arrays or others with the same contents, and `p->out` the same block
as `p->in` or another one. -/
theorem vdsp_round_trip [Field R] [NeZero (2 : R)] {p : Problem} (hp : RealPow2 p 2)
    {X : ℕ → BenchComplex R} (hX : Hermitian p.dims X) {pin : Buf (BenchComplex R)}
    (hpin : unpackedCells p ≤ pin.size) {ins : SplitComplex R} (hins : ins.HasRoom p.size.toNat) :
    ∃ pin' ins', copyC2h p pin ins X = .ok (pin', ins') ∧ pin'.size = pin.size ∧
      ins'.HasRoom p.size.toNat ∧
      ∀ outs : SplitComplex R, outs.HasRoom p.size.toNat →
        (∀ i < p.size.toNat, outs.entry i = ins'.entry i) →
        ∀ pout : Buf (BenchComplex R), unpackedCells p ≤ pout.size → ∀ Y₀,
          ∃ pout' outs' Y, copyH2c p pout outs Y₀ = .ok (pout', outs', Y) ∧
            ∀ k < p.dims.prod, Y k = ⟨(X k).re / 2, (X k).im / 2⟩ := by
  obtain ⟨n0, n1, hdims, hprod, hn⟩ := hp.exists_dims2
  have hcells : unpackedCells p = n0 * (n1 / 2 + 1) := by
    simp [unpackedCells, lastDim, hdims, Nat.add_comm]
  have hle : n0 * (n1 / 2) ≤ p.size.toNat := by
    rw [hp.size, hprod]
    exact Nat.mul_le_mul_left n0 (Nat.div_le_self n1 2)
  obtain ⟨pin', ins', hrun, hsize, hre, him, hholds⟩ := c2hRank2_spec hp hdims hn X
    (hcells ▸ hpin) (hle.trans hins.1) (hle.trans hins.2)
  refine ⟨pin', ins', ?_, hsize, ⟨hre ▸ hins.1, him ▸ hins.2⟩, ?_⟩
  · unfold copyC2h
    simpa [hp.rank_eq, hdims] using hrun
  intro outs houts hsame pout hpout Y₀
  obtain ⟨pout', outs', Y, hread, hY⟩ := h2cRank2_spec hp hdims hn hX
    (hholds.congr hn fun i hi => hsame i (lt_of_lt_of_le hi hle)) (hle.trans houts.1)
    (hle.trans houts.2) (hcells ▸ hpout) Y₀
  refine ⟨pout', outs', cascale Y p.size.toNat half, ?_, fun k hk => ?_⟩
  · have hswitch : h2cUnscaled p pout outs Y₀ = .ok (pout', outs', Y) := by
      unfold h2cUnscaled
      simpa [hp.rank_eq, hdims] using hread
    rw [copyH2c, bind_ok hswitch]
    rfl
  · rw [cascale_half Y (hp.size ▸ hk), hY k hk]

theorem vdsp_round_trip_r8x16 : ∃ pin' ins',
    copyC2h r8x16 (zeros 72) ⟨⟨128, fun _ => 0⟩, ⟨128, fun _ => 0⟩⟩ hermitian8x16
        = .ok (pin', ins') ∧
      pin'.size = (zeros 72).size ∧ ins'.HasRoom r8x16.size.toNat ∧
      ∀ outs : SplitComplex ℚ, outs.HasRoom r8x16.size.toNat →
        (∀ i < r8x16.size.toNat, outs.entry i = ins'.entry i) →
        ∀ pout : Buf (BenchComplex ℚ), unpackedCells r8x16 ≤ pout.size → ∀ Y₀,
          ∃ pout' outs' Y, copyH2c r8x16 pout outs Y₀ = .ok (pout', outs', Y) ∧
            ∀ k < r8x16.dims.prod, Y k = ⟨(hermitian8x16 k).re / 2, (hermitian8x16 k).im / 2⟩ :=
  vdsp_round_trip realPow2_r8x16 hermitian_r8x16
    (show unpackedCells r8x16 ≤ (zeros 72).size by decide)
    ⟨show r8x16.size.toNat ≤ 128 by decide, show r8x16.size.toNat ≤ 128 by decide⟩

end BenchFFT.Vdsp
