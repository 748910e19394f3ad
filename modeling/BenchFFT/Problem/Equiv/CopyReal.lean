import BenchFFT.Problem.Equiv.CopyUnpacked

/-!
# Packed arrays and padded real rows

What the copying routines for complex and for real arrays leave, cell by cell.  A packed array is
copied in order; a real array in the unpacked format has rows of `ld` cells, of which `n` are used.

* `copyC2cFrom_ok`, `copyC2rPacked_ok`, `copyC2rUnpacked_ok`: what is in the buffer afterwards.
* `copyC2cTo_ok`, `copyR2cPacked_ok`, `copyR2cUnpacked_ok`: what is in the array afterwards; its
  entries past the size of the problem stay as they were.
-/

namespace BenchFFT

open RowMajor

universe u

variable {R α β : Type u}

/-! ### Rows of cells -/

/-- `N` rows of `m` entries each are stored in rows of `ld` cells. -/
theorem write_rows_ok {b : Buf α} {N m ld : ℕ} (hm : m ≤ ld) (hb : N * ld ≤ b.size)
    (v : ℕ → α) :
    ∃ b', forRangeM N (fun r b => forRangeM m (fun k b => b.write (r * ld + k) (v (r * m + k))) b) b
      = .ok b' ∧ b'.size = b.size ∧ ∀ j < N * m, b'.cell (j / m * ld + j % m) = v j := by
  have hruns : Buf.Runs b.size (fun b => forRangeM N (fun r b =>
      forRangeM m (fun k b => b.write (r * ld + k) (v (r * m + k))) b) b) _ :=
    Buf.Runs.forRangeM fun r hr => Buf.Runs.forRangeM fun k hk => Buf.Runs.write
      (lt_of_lt_of_le (row_lt (Nat.mul_le_mul_right ld hr) (lt_of_lt_of_le hk hm)) hb) _
  refine ⟨_, hruns b rfl, rfl, fun j hj => ?_⟩
  have hfill : Fills (forRange N fun r => forRange m fun k (c : ℕ → α) =>
      Function.update c (r * ld + k) (v (r * m + k))) _ (fun i => v (i / ld * m + i % ld)) :=
    Fills.forRange fun r _ => Fills.forRange fun k hk => Fills.update
      (by rw [row_div (lt_of_lt_of_le hk hm), row_mod (lt_of_lt_of_le hk hm)])
  obtain ⟨r, hr, k, hk, rfl⟩ := exists_row hj
  rw [row_div hk, row_mod hk]
  refine (hfill.on b.cell _ ⟨r, hr, k, hk, rfl⟩).trans ?_
  rw [row_div (lt_of_lt_of_le hk hm), row_mod (lt_of_lt_of_le hk hm)]

/-- `N` rows of `m` entries each are read from rows of `ld` cells. -/
theorem read_rows_ok {b : Buf α} {N m ld : ℕ} (hm : m ≤ ld) (hb : N * ld ≤ b.size)
    (g : α → β) (out : ℕ → β) :
    ∃ Y, forRangeM N (fun r out => forRangeM m (fun k out => do
        let a ← b.read (r * ld + k)
        return Function.update out (r * m + k) (g a)) out) out = .ok Y ∧
      (∀ j < N * m, Y j = g (b.cell (j / m * ld + j % m))) ∧ ∀ j, N * m ≤ j → Y j = out j := by
  have hrun : ∀ r < N, ∀ out : ℕ → β, forRangeM m (fun k out => do
        let a ← b.read (r * ld + k)
        return Function.update out (r * m + k) (g a)) out
      = Except.ok (forRange m
        (fun k out => Function.update out (r * m + k) (g (b.cell (r * ld + k)))) out) := by
    intro r hr out
    refine forRangeM_ok (fun k hk out => ?_) out
    rw [Buf.read_ok
      (lt_of_lt_of_le (row_lt (Nat.mul_le_mul_right ld hr) (lt_of_lt_of_le hk hm)) hb)]
    rfl
  have hfill := Fills.rows N m fun r k => g (b.cell (r * ld + k))
  exact ⟨_, forRangeM_ok hrun out, fun j hj => hfill.on out j hj,
    fun j hj => hfill.off out j (Nat.not_lt.mpr hj)⟩

/-- An array stored in order is one row. -/
theorem write_cells_ok {b : Buf α} {n : ℕ} (hb : n ≤ b.size) (v : ℕ → α) :
    ∃ b', forRangeM n (fun i b => b.write i (v i)) b = .ok b' ∧ b'.size = b.size ∧
      ∀ j < n, b'.cell j = v j := by
  have hruns : Buf.Runs b.size (fun b => forRangeM n (fun i b => b.write i (v i)) b) _ :=
    Buf.Runs.forRangeM fun i hi => Buf.Runs.write (lt_of_lt_of_le hi hb) _
  have hfill : Fills (forRange n fun i (c : ℕ → α) => Function.update c i (v i)) _ v :=
    Fills.forRange fun i _ => Fills.update rfl
  exact ⟨_, hruns b rfl, rfl, fun j hj => hfill.on b.cell j ⟨j, hj, rfl⟩⟩

theorem read_cells_ok {b : Buf α} {n : ℕ} (hb : n ≤ b.size) (g : α → β) (out : ℕ → β) :
    ∃ Y, forRangeM n (fun i out => do
        let a ← b.read i
        return Function.update out i (g a)) out = .ok Y ∧
      (∀ j < n, Y j = g (b.cell j)) ∧ ∀ j, n ≤ j → Y j = out j := by
  have hfill : Fills (forRange n fun i (c : ℕ → β) => Function.update c i (g (b.cell i))) _
      (fun i => g (b.cell i)) := Fills.forRange fun i _ => Fills.update rfl
  refine ⟨_, forRangeM_ok (fun i hi out => ?_) out, fun j hj => hfill.on out j ⟨j, hj, rfl⟩,
    fun j hj => hfill.off out j ?_⟩
  · rw [Buf.read_ok (lt_of_lt_of_le hi hb)]
    rfl
  · rintro ⟨i, hi, rfl⟩
    exact absurd hj (Nat.not_le.mpr hi)

/-! ### The routines -/

section Packed

variable (p : Problem)

theorem copyC2cFrom_ok {pin : Buf (BenchComplex R)} (h : p.size.toNat ≤ pin.size)
    (inp : ℕ → BenchComplex R) :
    ∃ pin', copyC2cFrom p pin inp = .ok pin' ∧ pin'.size = pin.size ∧
      ∀ j < p.size.toNat, pin'.cell j = inp j :=
  write_cells_ok h inp

theorem copyC2cTo_ok {pout : Buf (BenchComplex R)} (h : p.size.toNat ≤ pout.size)
    (out : ℕ → BenchComplex R) :
    ∃ Y, copyC2cTo p pout out = .ok Y ∧ (∀ j < p.size.toNat, Y j = pout.cell j) ∧
      ∀ j, p.size.toNat ≤ j → Y j = out j :=
  read_cells_ok h id out

theorem copyC2rPacked_ok {pin : Buf R} (h : p.size.toNat ≤ pin.size) (inp : ℕ → BenchComplex R) :
    ∃ pin', copyC2rPacked p pin inp = .ok pin' ∧ pin'.size = pin.size ∧
      ∀ j < p.size.toNat, pin'.cell j = (inp j).re :=
  write_cells_ok h fun i => (inp i).re

theorem copyR2cPacked_ok [Zero R] {pout : Buf R} (h : p.size.toNat ≤ pout.size)
    (out : ℕ → BenchComplex R) :
    ∃ Y, copyR2cPacked p pout out = .ok Y ∧ (∀ j < p.size.toNat, Y j = ⟨pout.cell j, 0⟩) ∧
      ∀ j, p.size.toNat ≤ j → Y j = out j :=
  read_cells_ok h (fun a => BenchComplex.mk a 0) out

end Packed

section Unpacked

variable {word : ℕ → ℕ} {p : Problem} (hrank : 1 ≤ p.rank) (hkind : p.kind = .real)
  (hn : ∀ x ∈ p.dims, 0 < x) (hword : KeepsIndices word p)

/-- The real cells of the unpacked layout. -/
def paddedRows (p : Problem) : ℕ := p.dims.dropLast.prod * (2 * (1 + lastDim p / 2))

include hrank hn hword

/-- A padded row is at most twice as long. -/
theorem word_row : word (2 * word (1 + lastDim p / 2)) = 2 * (1 + lastDim p / 2) := by
  have hpos := lastDim_pos hrank hn
  rw [hword.row (1 + lastDim p / 2) (by omega), hword.row _ (by omega)]

include hkind

theorem copyC2rUnpacked_ok {pin : Buf R} (h : paddedRows p ≤ pin.size)
    (inp : ℕ → BenchComplex R) :
    ∃ pin', copyC2rUnpacked word p pin inp = .ok pin' ∧ pin'.size = pin.size ∧
      ∀ j < p.dims.prod,
        pin'.cell (j / lastDim p * (2 * (1 + lastDim p / 2)) + j % lastDim p) = (inp j).re := by
  obtain ⟨pin', hrun, hsize, hcell⟩ :=
    write_rows_ok (m := lastDim p) (by omega) h fun j => (inp j).re
  refine ⟨pin', ?_, hsize, fun j hj => hcell j (by rwa [prod_dropLast_mul hrank])⟩
  rw [copyC2rUnpacked, benchAssert, benchAssert, if_pos hrank, if_pos hkind, ← hrun]
  show forRangeM (leadingSize word p) _ pin = _
  rw [leadingSize_eq hrank hn hword, word_row hrank hn hword]

theorem copyR2cUnpacked_ok [Zero R] {pout : Buf R} (h : paddedRows p ≤ pout.size)
    (out : ℕ → BenchComplex R) :
    ∃ Y, copyR2cUnpacked word p pout out = .ok Y ∧
      (∀ j < p.dims.prod, Y j
        = ⟨pout.cell (j / lastDim p * (2 * (1 + lastDim p / 2)) + j % lastDim p), 0⟩) ∧
      ∀ j, p.dims.prod ≤ j → Y j = out j := by
  obtain ⟨Y, hrun, hcell, hrest⟩ :=
    read_rows_ok (m := lastDim p) (by omega) h (fun a => BenchComplex.mk a 0) out
  rw [prod_dropLast_mul hrank] at hcell hrest
  refine ⟨Y, ?_, hcell, hrest⟩
  rw [copyR2cUnpacked, benchAssert, benchAssert, if_pos hrank, if_pos hkind, ← hrun]
  show forRangeM (leadingSize word p) _ out = _
  rw [leadingSize_eq hrank hn hword, word_row hrank hn hword]

/-- `copy_h2c_unpacked` writes no entry past the size of the problem. -/
theorem copyH2cUnpacked_rest [Mul R] [Neg R] {pout : Buf (BenchComplex R)}
    {Y Y₀ : ℕ → BenchComplex R} {s : R} (hpout : unpackedCells p ≤ pout.size)
    (hrun : copyH2cUnpacked word p pout Y₀ s = .ok Y) {j : ℕ} (hj : p.dims.prod ≤ j) :
    Y j = Y₀ j := by
  have hlead : ∀ x ∈ p.dims.dropLast, 0 < x := fun x hx => hn x (List.dropLast_subset _ hx)
  have hprod := prod_dropLast_mul hrank
  obtain ⟨g, hg, hfill⟩ : ∃ g, (∀ out, cp word pout out (p.dims.dropLast ++ [lastDim p]) 0 0 s
      = .ok (g out)) ∧ Fills g _ _ :=
    cp_fills (lastDim_pos hrank hn) hword.size hword.row (negIdx p.dims.dropLast) hlead 0 0
      (by rw [hprod, Nat.zero_add, Nat.one_mul]) (by rw [hprod, Nat.zero_add, Nat.one_mul])
      (by rwa [Nat.zero_add, Nat.one_mul]) (by rwa [Nat.zero_add, Nat.one_mul])
      (fun r _ => by rw [Nat.zero_mul, Nat.zero_add, Nat.zero_add])
  rw [copyH2cUnpacked, benchAssert, benchAssert, if_pos hrank, if_pos hkind,
    ← dropLast_append_lastDim hrank] at hrun
  obtain rfl : g Y₀ = Y := Except.ok.inj ((hg Y₀).symm.trans hrun)
  refine hfill.off Y₀ j ?_
  rintro ⟨r, hr, k, hk, rfl⟩
  rw [Nat.zero_mul, Nat.zero_add] at hj
  have hlt := row_lt (Nat.mul_le_mul_right (lastDim p) hr) hk
  omega

end Unpacked

end BenchFFT
