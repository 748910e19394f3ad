import BenchFFT.Benchees.Nr
import BenchFFT.Benchees.Equiv.Layout

/-!
# The two- and three-dimensional real layouts of Numerical Recipes

A row is kept as `n2/2` entries in `cdata` and one in `cspeq`, all conjugated (`c2h_assigns`).  The
rows are widened in place to `n2/2+1` entries, downwards: at every moment the cells from some place
on are as they will be, and the ones below it, among which are all the entries that have not been
moved yet, are as they were (`Moved`, `widen_spec`).  Then they are in the unpacked layout
(`widened_cells`).
-/

namespace BenchFFT.Nr

variable {R : Type}

/-! ### Indices -/

/-- The rows of the array fit into an `int`, also when they are counted with `n2` entries each. -/
structure Dims (n0 n1 n2 : ℕ) : Prop where
  two_le : 2 ≤ n2
  even : n2 % 2 = 0
  le : n0 * n1 * n2 ≤ 2147483648

section Indices

variable {n0 n1 n2 i j w k : ℕ} (hn : Dims n0 n1 n2)

theorem row_index_lt (hi : i < n0) (hj : j < n1) : i * n1 + j < n0 * n1 :=
  row_lt (Nat.mul_le_mul_right n1 hi) hj

include hn

theorem index_eq (hw : w ≤ n2) (hi : i < n0) (hj : j < n1) (hk : k < w) :
    index n1 i j w k = .ok ((i * n1 + j) * w + k) := by
  have hrow := row_lt (Nat.mul_le_mul_right w (row_index_lt hi hj)) hk
  have hle := Nat.mul_le_mul_left (n0 * n1) hw
  exact if_pos (by have := hn.le; omega)

end Indices

/-! ### Widening the rows -/

/-- The cells from `lo` on are as they will be, those of `S` at least, and the ones below are as
they were. -/
structure Moved {α : Type} (old new : ℕ → α) (S : ℕ → Prop) (lo : ℕ) (c : ℕ → α) : Prop where
  below : ∀ l < lo, c l = old l
  above : ∀ l, lo ≤ l → S l → c l = new l

namespace Moved

variable {α : Type} {old new c : ℕ → α} {S T : ℕ → Prop} {lo : ℕ}

theorem write (h : Moved old new S (lo + 1) c) {x : α} (hx : x = new lo) :
    Moved old new S lo (Function.update c lo x) where
  below l hl := by rw [Function.update_of_ne (by omega), h.below l (by omega)]
  above l hl hS := by
    rcases Nat.eq_or_lt_of_le hl with rfl | hl
    · rw [Function.update_self, hx]
    · rw [Function.update_of_ne (by omega), h.above l hl hS]

/-- A cell that was left out. -/
theorem write_hole {e : ℕ} (h : Moved old new (fun l => S l ∧ l ≠ e) lo c) (hle : lo ≤ e) {x : α}
    (hx : x = new e) : Moved old new S lo (Function.update c e x) where
  below l hl := by rw [Function.update_of_ne (by omega), h.below l hl]
  above l hl hS := by
    by_cases he : l = e
    · rw [he, Function.update_self, hx]
    · rw [Function.update_of_ne he, h.above l hl ⟨hS, he⟩]

end Moved

/-- What the cell `l` holds after the rows have been widened from `h` to `h + 1` entries. -/
def widened {α : Type} (h : ℕ) (c speq : ℕ → α) (l : ℕ) : α :=
  if l % (h + 1) < h then c (l / (h + 1) * h + l % (h + 1)) else speq (l / (h + 1))

section Widen

variable {n0 n1 n2 : ℕ} (hn : Dims n0 n1 n2) {cspeq : Buf (BenchComplex R)}
  (hspeq : n0 * n1 ≤ cspeq.size) {old : ℕ → BenchComplex R} {size : ℕ}
  (hsize : n0 * n1 * (n2 / 2 + 1) ≤ size)

include hn hspeq hsize

/-- The state while the rows are widened. -/
def State (h : ℕ) (cspeq : Buf (BenchComplex R)) (old : ℕ → BenchComplex R) (size : ℕ)
    (S : ℕ → Prop) (lo : ℕ) (b : Buf (BenchComplex R)) : Prop :=
  b.size = size ∧ Moved old (widened h old cspeq.cell) S lo b.cell

variable {i j : ℕ} (hi : i < n0) (hj : j < n1) {b : Buf (BenchComplex R)}
  (hb : State (n2 / 2) cspeq old size (· < n0 * n1 * (n2 / 2 + 1))
    ((i * n1 + j + 1) * (n2 / 2 + 1)) b)

include hi hj hb

omit hspeq in
/-- The entries of the row, from the last one; its column `n2/2` is left out. -/
theorem moveEntries_spec :
    ∃ u, forDownM (n2 / 2) (fun k cdata => do
        let a ← cdata.read (← index n1 i j (n2 / 2) k)
        cdata.write (← index n1 i j (n2 / 2 + 1) k) a) b = .ok u ∧
      State (n2 / 2) cspeq old size
        (fun l => l < n0 * n1 * (n2 / 2 + 1) ∧ l ≠ (i * n1 + j) * (n2 / 2 + 1) + n2 / 2)
        ((i * n1 + j) * (n2 / 2 + 1) + 0) u := by
  have h2 := hn.two_le
  have heven := hn.even
  have hr := row_index_lt hi hj
  have hindex : ∀ {w k}, w ≤ n2 → k < w → index n1 i j w k = .ok ((i * n1 + j) * w + k) :=
    fun hw hk => index_eq hn hw hi hj hk
  obtain ⟨h, hh⟩ : ∃ h, n2 / 2 = h := ⟨_, rfl⟩
  obtain ⟨r, hrow⟩ : ∃ r, i * n1 + j = r := ⟨_, rfl⟩
  rw [hh] at hb hsize ⊢
  rw [hrow] at hb hr hindex ⊢
  have hlast : r * (h + 1) + h < n0 * n1 * (h + 1) :=
    row_lt (Nat.mul_le_mul_right (h + 1) hr) h.lt_succ_self
  have hsucc : (r + 1) * (h + 1) = r * (h + 1) + (h + 1) := Nat.succ_mul r (h + 1)
  have hle : r * (h + 1) = r * h + r := Nat.mul_succ r h
  apply forDownM_exists (m := Except Abort) fun k => State h cspeq old size
    (fun l => l < n0 * n1 * (h + 1) ∧ l ≠ r * (h + 1) + h) (r * (h + 1) + k)
  · refine ⟨hb.1, fun l hl => hb.2.below l (by omega), fun l hl hS => hb.2.above l ?_ hS.1⟩
    have := hS.2
    omega
  · intro k hk t ht
    have hread : t.read (r * h + k) = .ok (old (r * h + k)) := by
      rw [Buf.read_ok (by have := ht.1; omega), ht.2.below _ (by omega)]
    have hnew : old (r * h + k) = widened h old cspeq.cell (r * (h + 1) + k) := by
      rw [widened, row_div (by omega), row_mod (by omega), if_pos hk]
    refine ⟨t.lift (Function.update · (r * (h + 1) + k) (old (r * h + k))), ?_, ht.1,
      ht.2.write hnew⟩
    rw [hindex (by omega) hk, hindex (by omega) (by omega)]
    exact (bind_ok hread _).trans (Buf.write_ok (by have := ht.1; omega) _)

theorem widenRow_spec :
    ∃ b', widenRow n1 n2 cspeq i j b = .ok b' ∧
      State (n2 / 2) cspeq old size (· < n0 * n1 * (n2 / 2 + 1))
        ((i * n1 + j) * (n2 / 2 + 1)) b' := by
  have h2 := hn.two_le
  have heven := hn.even
  have hr := row_index_lt hi hj
  obtain ⟨u, hrun, husize, hu⟩ := moveEntries_spec hn hsize hi hj hb
  obtain ⟨h, hh⟩ : ∃ h, n2 / 2 = h := ⟨_, rfl⟩
  obtain ⟨r, hrow⟩ : ∃ r, i * n1 + j = r := ⟨_, rfl⟩
  have hindex : ∀ {w k}, w ≤ n2 → k < w → index n1 i j w k = .ok (r * w + k) :=
    fun hw hk => hrow ▸ index_eq hn hw hi hj hk
  rw [hh] at hrun hu hsize ⊢
  rw [hrow] at hu hr ⊢
  have hlast : r * (h + 1) + h < n0 * n1 * (h + 1) :=
    row_lt (Nat.mul_le_mul_right (h + 1) hr) h.lt_succ_self
  have hspeq' : cspeq.read (r * 1 + 0) = .ok (cspeq.cell r) := by
    rw [Buf.read_ok (by omega), Nat.mul_one, Nat.add_zero]
  have hnew : cspeq.cell r = widened h old cspeq.cell (r * (h + 1) + h) := by
    rw [widened, row_div h.lt_succ_self, row_mod h.lt_succ_self, if_neg (lt_irrefl h)]
  refine ⟨u.lift (Function.update · (r * (h + 1) + h) (cspeq.cell r)), ?_, husize,
    hu.write_hole (by omega) hnew⟩
  unfold widenRow
  rw [hh, hrun, hindex (by omega) Nat.one_pos, hindex (by omega) (by omega : h < h + 1)]
  exact (bind_ok hspeq' _).trans (Buf.write_ok (by omega) _)

omit hi hj hb

omit hsize in
/-- No entry is overwritten before it has been moved. -/
theorem widen_spec {b : Buf (BenchComplex R)} (hb : n0 * n1 * (n2 / 2 + 1) ≤ b.size) :
    ∃ b', widen n0 n1 n2 cspeq b = .ok b' ∧ b'.size = b.size ∧
      ∀ l < n0 * n1 * (n2 / 2 + 1), b'.cell l = widened (n2 / 2) b.cell cspeq.cell l := by
  have hloop : ∃ b', widen n0 n1 n2 cspeq b = .ok b' ∧ State (n2 / 2) cspeq b.cell b.size
      (· < n0 * n1 * (n2 / 2 + 1)) (0 * n1 * (n2 / 2 + 1)) b' := by
    apply forDownM_exists (m := Except Abort) fun i => State (n2 / 2) cspeq b.cell b.size
      (· < n0 * n1 * (n2 / 2 + 1)) (i * n1 * (n2 / 2 + 1))
    · exact ⟨rfl, fun l _ => rfl, fun l hl hS => absurd hS (Nat.not_lt_of_le hl)⟩
    · intro i hi t ht
      have hinner : ∃ t', forDownM n1 (widenRow n1 n2 cspeq i) t = .ok t' ∧
          State (n2 / 2) cspeq b.cell b.size (· < n0 * n1 * (n2 / 2 + 1))
            ((i * n1 + 0) * (n2 / 2 + 1)) t' := by
        apply forDownM_exists (m := Except Abort) fun j => State (n2 / 2) cspeq b.cell b.size
          (· < n0 * n1 * (n2 / 2 + 1)) ((i * n1 + j) * (n2 / 2 + 1))
        · rwa [Nat.succ_mul] at ht
        · exact fun j hj t ht => widenRow_spec hn hspeq hb hi hj ht
      exact hinner
  obtain ⟨b', hrun, hsize, hmoved⟩ := hloop
  exact ⟨b', hrun, hsize, fun l hl => hmoved.above l (by omega) hl⟩

end Widen

/-! ### Writing -/

section Writing

variable [CommRing R] {n0 n1 n2 : ℕ} (hn : Dims n0 n1 n2) (X : ℕ → BenchComplex R)

/-- The conjugate, as the source computes it. -/
def negIm (a : BenchComplex R) : BenchComplex R := ⟨a.re, a.im * -1⟩

theorem assigns_putConj {size l : ℕ} {a : BenchComplex R} {v : ℕ → BenchComplex R} (hl : l < size)
    (ha : negIm a = v l) :
    Assigns (Buf.HasSize size) Buf.cell (fun b => putConj b l a) (· = l) v := by
  intro b hb
  have hput : putConj b l a = b.write l (negIm a) := by
    have hl' : l < b.size := by rwa [hb]
    simp [putConj, Buf.write, Buf.read, hl', negIm, bind, Except.bind]
  obtain ⟨b', hrun, hb'⟩ := assigns_write hl ha b hb
  exact ⟨b', hput.trans hrun, hb'⟩

/-- What `cdata` holds. -/
def dataAt (n2 : ℕ) (l : ℕ) : BenchComplex R := negIm (X (l / (n2 / 2) * n2 + l % (n2 / 2)))

/-- What `cspeq` holds. -/
def speqAt (n2 : ℕ) (l : ℕ) : BenchComplex R := negIm (X (l * n2 + n2 / 2))

/-- The cells of both arrays. -/
abbrev cells (s : Buf (BenchComplex R) × Buf (BenchComplex R)) : ℕ ⊕ ℕ → BenchComplex R :=
  Sum.elim s.1.cell s.2.cell

include hn

theorem c2hRow_assigns {size size' : ℕ} (hsize : n0 * n1 * (n2 / 2) ≤ size)
    (hsize' : n0 * n1 ≤ size') {i j : ℕ} (hi : i < n0) (hj : j < n1) :
    Assigns (fun s => Buf.HasSize size s.1 ∧ Buf.HasSize size' s.2) cells (c2hRow n1 n2 X i j)
      (Sum.elim (fun l => ∃ k < n2 / 2, l = (i * n1 + j) * (n2 / 2) + k) (· = i * n1 + j))
      (Sum.elim (dataAt X n2) (speqAt X n2)) := by
  have h2 := hn.two_le
  have hr := row_index_lt hi hj
  have hdata : Assigns (Buf.HasSize size) Buf.cell (forRangeM (n2 / 2) fun k cdata => do
      putConj cdata (← index n1 i j (n2 / 2) k) (X (← index n1 i j n2 k)))
      (fun l => ∃ k < n2 / 2, l = (i * n1 + j) * (n2 / 2) + k) (dataAt X n2) := by
    apply Assigns.forRangeM
    intro k hk
    rw [index_eq hn (by omega) hi hj hk, index_eq hn le_rfl hi hj (by omega)]
    apply assigns_putConj
    · exact lt_of_lt_of_le (row_lt (Nat.mul_le_mul_right _ hr) hk) hsize
    · rw [dataAt, row_div hk, row_mod hk]
  have hspeq : Assigns (Buf.HasSize size') Buf.cell
      (fun cspeq => putConj cspeq ((i * n1 + j) * 1 + 0) (X ((i * n1 + j) * n2 + n2 / 2)))
      (· = i * n1 + j) (speqAt X n2) := by
    rw [Nat.mul_one, Nat.add_zero]
    exact assigns_putConj (lt_of_lt_of_le hr hsize') rfl
  unfold c2hRow
  rw [index_eq hn (by omega) hi hj Nat.one_pos, index_eq hn le_rfl hi hj (by omega)]
  exact hdata.prod hspeq

theorem c2h_assigns {size size' : ℕ} (hsize : n0 * n1 * (n2 / 2) ≤ size)
    (hsize' : n0 * n1 ≤ size') :
    Assigns (fun s => Buf.HasSize size s.1 ∧ Buf.HasSize size' s.2) cells
      (forRangeM n0 fun i => forRangeM n1 (c2hRow n1 n2 X i))
      (Sum.elim (· < n0 * n1 * (n2 / 2)) (· < n0 * n1)) (Sum.elim (dataAt X n2) (speqAt X n2)) := by
  have hloop := Assigns.forRangeM fun i (hi : i < n0) => Assigns.forRangeM fun j (hj : j < n1) =>
    c2hRow_assigns hn X hsize hsize' hi hj
  refine hloop.mono fun l hl => ?_
  rcases l with l | r
  · obtain ⟨r, hr, k, hk, rfl⟩ := exists_row (show l < n0 * n1 * (n2 / 2) from hl)
    obtain ⟨i, hi, j, hj, rfl⟩ := exists_row hr
    exact ⟨i, hi, j, hj, k, hk, rfl⟩
  · exact exists_row hl

end Writing

/-! ### The round trip -/

/-- The shape of a problem of rank 2 or 3. -/
structure Shape (p : Problem) : Prop where
  kind : p.kind = .real
  two_le_rank : 2 ≤ p.rank
  pos : ∀ n ∈ p.dims, 0 < n
  dims : Dims (n0 p) (n1 p) (n2 p)
  rows : p.dims.dropLast.prod = n0 p * n1 p
  last : lastDim p = n2 p
  keeps : KeepsIndices u32 p

theorem shape {p : Problem} (hp : RealPow2 p 2 ∨ RealPow2 p 3) : Shape p := by
  rcases hp with hp | hp
  · obtain ⟨a, b, hdims⟩ := List.length_eq_two.mp (p.length_dims.trans hp.rank_eq)
    have hb := hp.pos_even (n := b) (by simp [hdims])
    have hle := hp.prod_le
    have hn : n0 p = 1 ∧ n1 p = a ∧ n2 p = b := by simp [n0, n1, n2, hp.rank_eq, hdims]
    refine ⟨hp.kind, hp.rank_eq.ge, hp.pos, ?_, ?_, ?_,
      hp.keepsIndices le_rfl⟩ <;> simp only [hn]
    · exact ⟨by omega, hb.2, by simpa [hdims] using hle⟩
    · simp [hdims]
    · simp [lastDim, hdims]
  · obtain ⟨a, b, c, hdims⟩ := List.length_eq_three.mp (p.length_dims.trans hp.rank_eq)
    have hc := hp.pos_even (n := c) (by simp [hdims])
    have hle := hp.prod_le
    have hn : n0 p = a ∧ n1 p = b ∧ n2 p = c := by simp [n0, n1, n2, hp.rank_eq, hdims]
    refine ⟨hp.kind, by rw [hp.rank_eq]; decide, hp.pos, ?_, ?_, ?_,
      hp.keepsIndices (by decide)⟩ <;> simp only [hn]
    · exact ⟨by omega, hc.2, by simpa [hdims, Nat.mul_assoc] using hle⟩
    · simp [hdims]
    · simp [lastDim, hdims]

/-- The rows that have been written and then widened are those of the unpacked layout. -/
theorem widened_cells [CommRing R] {X : ℕ → BenchComplex R} {n0 n1 n2 : ℕ}
    {d q : ℕ → BenchComplex R} (hd : ∀ l < n0 * n1 * (n2 / 2), d l = dataAt X n2 l)
    (hq : ∀ r < n0 * n1, q r = speqAt X n2 r) {r k : ℕ} (hr : r < n0 * n1) (hk : k < 1 + n2 / 2) :
    widened (n2 / 2) d q (r * (n2 / 2 + 1) + k) = packedAt X 1 n2 r k := by
  have hneg : ∀ a : BenchComplex R, negIm a = ⟨a.re, -1 * a.im⟩ := fun a => by
    rw [negIm, mul_comm]
  rw [widened, row_div (by omega), row_mod (by omega), packedAt]
  split_ifs with h
  · rw [hd _ (row_lt (Nat.mul_le_mul_right _ hr) h), dataAt, row_div h, row_mod h, hneg]
  · rw [hq r hr, speqAt, hneg, show k = n2 / 2 by omega]

/-- What has been written is read back. -/
theorem copyH2c_spec [CommRing R] {p : Problem} (hs : Shape p) {X : ℕ → BenchComplex R}
    (hX : Hermitian p.dims X) {d q : Buf (BenchComplex R)}
    (hd : n0 p * n1 p * (n2 p / 2 + 1) ≤ d.size) (hq : n0 p * n1 p ≤ q.size)
    (hdata : ∀ l < n0 p * n1 p * (n2 p / 2), d.cell l = dataAt X (n2 p) l)
    (hspeq : ∀ r < n0 p * n1 p, q.cell r = speqAt X (n2 p) r) (Y₀ : ℕ → BenchComplex R) :
    ∃ out Y, copyH2c p d q Y₀ = .ok (out, Y) ∧ ∀ k < p.dims.prod, Y k = X k := by
  have hrank : p.rank ≠ 1 := by have := hs.two_le_rank; omega
  obtain ⟨wide, hrun, hsize, hwide⟩ := widen_spec hs.dims hq hd
  have hcell : ∀ r < p.dims.dropLast.prod, ∀ k < 1 + lastDim p / 2,
      wide.cell (r * (1 + lastDim p / 2) + k) = packedAt X 1 (lastDim p) r k := by
    intro r hr k hk
    rw [hs.rows] at hr
    rw [hs.last] at hk ⊢
    rw [Nat.add_comm 1, hwide _ (row_lt (Nat.mul_le_mul_right _ hr) (by omega))]
    exact widened_cells hdata hspeq hr hk
  have hbuf : unpackedCells p ≤ wide.size := by
    rw [unpackedCells, hs.rows, hs.last, Nat.add_comm 1, hsize]
    exact hd
  obtain ⟨Y, hread, hY⟩ := copyH2cUnpacked_of_packed (le_trans one_le_two hs.two_le_rank)
    hs.kind hs.pos hs.keeps (one_mul 1) hX Y₀ hbuf hcell
  refine ⟨wide, Y, ?_, hY⟩
  unfold copyH2c
  rw [if_neg hrank, bind_ok hrun, bind_ok hread]
  rfl

/-- **The real layouts of Numerical Recipes round-trip.**  A hermitian array comes back; and
whatever the blocks hold, widening the rows in place moves each entry as it was before. -/
theorem nr_round_trip [CommRing R] {p : Problem} (hp : RealPow2 p 2 ∨ RealPow2 p 3)
    {cdata cspeq : Buf (BenchComplex R)} (hdata : unpackedCells p ≤ cdata.size)
    (hspeq : p.dims.dropLast.prod ≤ cspeq.size) :
    (∀ X, Hermitian p.dims X → ∃ cdata' cspeq', copyC2h p cdata cspeq X = .ok (cdata', cspeq') ∧
      ∀ Y₀, ∃ out Y, copyH2c p cdata' cspeq' Y₀ = .ok (out, Y) ∧ ∀ k < p.dims.prod, Y k = X k) ∧
    ∃ wide, widen (n0 p) (n1 p) (n2 p) cspeq cdata = .ok wide ∧ ∀ r < n0 p * n1 p,
      (∀ k < n2 p / 2, wide.cell (r * (n2 p / 2 + 1) + k) = cdata.cell (r * (n2 p / 2) + k)) ∧
      wide.cell (r * (n2 p / 2 + 1) + n2 p / 2) = cspeq.cell r := by
  have hs := shape hp
  have hrank : p.rank ≠ 1 := by have := hs.two_le_rank; omega
  rw [unpackedCells, hs.rows, hs.last, Nat.add_comm 1] at hdata
  rw [hs.rows] at hspeq
  constructor
  · intro X hX
    have hle : n0 p * n1 p * (n2 p / 2) ≤ n0 p * n1 p * (n2 p / 2 + 1) :=
      Nat.mul_le_mul_left _ (Nat.le_succ _)
    obtain ⟨⟨d, q⟩, hwrite, ⟨hd, hq⟩, hcells⟩ :=
      c2h_assigns hs.dims X (le_trans hle hdata) hspeq (cdata, cspeq) ⟨rfl, rfl⟩
    refine ⟨d, q, ?_, fun Y₀ => ?_⟩
    · unfold copyC2h
      rw [if_neg hrank]
      exact hwrite
    · exact copyH2c_spec hs hX (hdata.trans_eq hd.symm) (hspeq.trans_eq hq.symm)
        (fun l hl => hcells.on (.inl l) hl) (fun r hr => hcells.on (.inr r) hr) Y₀
  · obtain ⟨wide, hrun, -, hwide⟩ := widen_spec hs.dims hspeq hdata
    refine ⟨wide, hrun, fun r hr => ⟨fun k hk => ?_, ?_⟩⟩
    · rw [hwide _ (row_lt (Nat.mul_le_mul_right _ hr) (by omega)), widened, row_div (by omega),
        row_mod (by omega), if_pos hk]
    · rw [hwide _ (row_lt (Nat.mul_le_mul_right _ hr) (Nat.lt_succ_self _)), widened,
        row_div (Nat.lt_succ_self _), row_mod (Nat.lt_succ_self _), if_neg (lt_irrefl _)]

theorem nr_round_trip_r8x16 : ∃ cdata' cspeq',
    copyC2h r8x16 (zeros 72) (zeros 8) hermitian8x16 = .ok (cdata', cspeq') ∧
      ∀ Y₀, ∃ out Y, copyH2c r8x16 cdata' cspeq' Y₀ = .ok (out, Y) ∧
        ∀ k < r8x16.dims.prod, Y k = hermitian8x16 k :=
  (nr_round_trip (Or.inl realPow2_r8x16) (show unpackedCells r8x16 ≤ (zeros 72).size by decide)
    (show r8x16.dims.dropLast.prod ≤ (zeros 8).size by decide)).1 hermitian8x16 hermitian_r8x16

end BenchFFT.Nr
