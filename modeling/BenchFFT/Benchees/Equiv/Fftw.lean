import BenchFFT.Benchees.Fftw3
import BenchFFT.Mirror
import BenchFFT.Problem.Equiv.Io
import BenchFFT.Verify.Equiv.Tests

/-!
# What FFTW documents

`Fftw.Documented` is what the manual of FFTW says about the arrays that a plan reads and writes:

* complex arrays are stored in order;
* a real array is stored in order, or, in place, in rows padded to `2 * (n / 2 + 1)` cells;
* of a hermitian array the columns `0, …, n / 2` are stored.

`documented_reference`: the plain sums, stored in these formats, are as documented.
-/

namespace BenchFFT

open RowMajor Verify

namespace Fftw

/-- The transform with the roots `exp(sign · 2πi / n)`. -/
noncomputable def dft (sign : ℤ) (n : List ℕ) (X : ℕ → ℂ) (k : ℕ) : ℂ :=
  Dft.dft n (fun d => root sign (n.getD d 1)) X k

/-- The cell of entry `j` of a real array. -/
def realIndex (inPlace : Bool) (n : List ℕ) (j : ℕ) : ℕ :=
  if inPlace then j / n.getLastD 0 * (2 * (1 + n.getLastD 0 / 2)) + j % n.getLastD 0 else j

/-- The cells of a real array. -/
def realSize (inPlace : Bool) (n : List ℕ) : ℕ :=
  if inPlace then n.dropLast.prod * (2 * (1 + n.getLastD 0 / 2)) else n.prod

/-- The columns of `X` up to the middle, row after row. -/
def half (n : List ℕ) (X : ℕ → ℂ) (i : ℕ) : ℂ :=
  X (i / (1 + n.getLastD 0 / 2) * n.getLastD 0 + i % (1 + n.getLastD 0 / 2))

/-- The complex cells of half an array. -/
def halfSize (n : List ℕ) : ℕ := n.dropLast.prod * (1 + n.getLastD 0 / 2)

/-- Dimensions that a planner takes. -/
structure Dims (n : List ℕ) : Prop where
  ne_nil : n ≠ []
  pos : ∀ x ∈ n, 0 < x

namespace Dims

variable {n : List ℕ} (hn : Dims n)

include hn

theorem dropLast_append : n.dropLast ++ [n.getLastD 0] = n := by
  rw [List.getLastD_eq_getLast?, List.getLast?_eq_some_getLast hn.ne_nil, Option.getD_some,
    List.dropLast_append_getLast hn.ne_nil]

theorem last_pos : 0 < n.getLastD 0 := by
  have hmem := List.mem_append_right n.dropLast (List.mem_singleton_self (n.getLastD 0))
  rw [hn.dropLast_append] at hmem
  exact hn.pos _ hmem

theorem prod_dropLast : n.dropLast.prod * n.getLastD 0 = n.prod := by
  conv_rhs => rw [← hn.dropLast_append, List.prod_append, List.prod_singleton]

end Dims

/-- The real array that a `c2r` plan makes of half an array is given by `c2r`, which is linear over
the reals and depends on that half only. -/
structure Documented (fftw : Fftw ℝ) (c2r : List ℕ → (ℕ → ℂ) → ℕ → ℝ) : Prop where
  plan_ok : ∀ plan io, ∃ io', fftw.plan plan io = some io' ∧ io'.SameBlocks io
  sameBlocks : ∀ plan io, (fftw.execute plan io).SameBlocks io
  dft_out : ∀ n sign io, Dims n → n.prod ≤ io.inp.complexes.size →
    n.prod ≤ io.pout.complexes.size → ∀ k < n.prod,
      toComplex ((fftw.execute (.dft n sign) io).pout.complexes.cell k)
        = dft sign n (fun j => toComplex (io.inp.complexes.cell j)) k
  r2c_out : ∀ n io, Dims n → realSize io.inPlace n ≤ io.inp.size →
    halfSize n ≤ io.pout.complexes.size → ∀ i < halfSize n,
      toComplex ((fftw.execute (.dftR2c n) io).pout.complexes.cell i)
        = half n (dft (-1) n fun j => (io.inp.cell (realIndex io.inPlace n j) : ℂ)) i
  c2r_out : ∀ n io, Dims n → halfSize n ≤ io.inp.complexes.size →
    realSize io.inPlace n ≤ io.pout.size → ∀ j < n.prod,
      (fftw.execute (.dftC2r n) io).pout.cell (realIndex io.inPlace n j)
        = c2r n (fun i => toComplex (io.inp.complexes.cell i)) j
  c2r_linear : ∀ n, Dims n → ∀ (a b : ℝ) (c c₁ c₂ : ℕ → ℂ),
    (∀ i < halfSize n, c i = a * c₁ i + b * c₂ i) → ∀ j < n.prod,
      c2r n c j = a * c2r n c₁ j + b * c2r n c₂ j
  c2r_hermitian : ∀ n, Dims n → ∀ X : ℕ → ℂ,
    (∀ j < n.prod, X (negIdx n j) = starRingEnd ℂ (X j)) → ∀ j < n.prod,
      (c2r n (half n X) j : ℂ) = dft 1 n X j

/-! ### Symmetries -/

section Symmetries

variable {n : List ℕ} {sign : ℤ}

theorem half_row {r k : ℕ} (hk : k < 1 + n.getLastD 0 / 2) (X : ℕ → ℂ) :
    half n X (r * (1 + n.getLastD 0 / 2) + k) = X (r * n.getLastD 0 + k) := by
  rw [half, row_div hk, row_mod hk]

variable (hn : Dims n) (hsign : sign = 1 ∨ sign = -1)

include hn hsign

theorem root_pow (d : ℕ) : root sign (n.getD d 1) ^ n.getD d 1 = 1 :=
  (isPrimitiveRoot_root hsign (getD_pos hn.pos d)).pow_eq_one

theorem conj_root (d : ℕ) :
    starRingEnd ℂ (root sign (n.getD d 1)) = (root sign (n.getD d 1))⁻¹ :=
  (Complex.inv_eq_conj (Complex.norm_eq_one_of_pow_eq_one (root_pow hn hsign d)
    (getD_pos hn.pos d).ne')).symm

/-- The transform of a real array is hermitian. -/
theorem dft_ofReal_negIdx (x : ℕ → ℝ) {k : ℕ} (hk : k < n.prod) :
    dft sign n (fun j => (x j : ℂ)) (negIdx n k)
      = starRingEnd ℂ (dft sign n (fun j => (x j : ℂ)) k) :=
  Dft.dft_hermitian hn.pos (fun d _ => root_pow hn hsign d) (starRingEnd ℂ)
    (fun d _ => conj_root hn hsign d) (fun j _ => Complex.conj_ofReal (x j)) hk

end Symmetries

/-! ### A reference implementation -/

section Reference

/-- The array of which half is stored in `c`. -/
noncomputable def whole (n : List ℕ) (c : ℕ → ℂ) (i : ℕ) : ℂ :=
  let k := i % n.getLastD 0
  if 2 * k ≤ n.getLastD 0 then c (i / n.getLastD 0 * (1 + n.getLastD 0 / 2) + k)
  else starRingEnd ℂ (c (negIdx n.dropLast (i / n.getLastD 0) * (1 + n.getLastD 0 / 2)
    + (n.getLastD 0 - k)))

noncomputable def referenceC2r (n : List ℕ) (c : ℕ → ℂ) (j : ℕ) : ℝ := (dft 1 n (whole n c) j).re

/-- The real number of each cell of a complex array. -/
def cellsOf (X : ℕ → ℂ) (i : ℕ) : ℝ := if i % 2 = 0 then (X (i / 2)).re else (X (i / 2)).im

/-- The entry of a real array in cell `i`. -/
def realEntry (inPlace : Bool) (n : List ℕ) (i : ℕ) : ℕ :=
  if inPlace then
    i / (2 * (1 + n.getLastD 0 / 2)) * n.getLastD 0 + i % (2 * (1 + n.getLastD 0 / 2)) else i

noncomputable def referenceOut (io : IoBuffers ℝ) : Plan → ℕ → ℝ
  | .dft n sign => cellsOf (dft sign n fun j => toComplex (io.inp.complexes.cell j))
  | .dftR2c n =>
    cellsOf (half n (dft (-1) n fun j => (io.inp.cell (realIndex io.inPlace n j) : ℂ)))
  | .dftC2r n => fun i =>
    referenceC2r n (fun i => toComplex (io.inp.complexes.cell i)) (realEntry io.inPlace n i)

/-- Planning keeps the arrays, and executing writes the whole output. -/
noncomputable def reference : Fftw ℝ where
  plan _ io := some io
  execute plan io :=
    let cell := referenceOut io plan
    match io.out with
    | none => ⟨⟨io.inp.size, cell⟩, none⟩
    | some out => ⟨io.inp, some ⟨out.size, cell⟩⟩

theorem sameBlocks_reference (plan : Plan) (io : IoBuffers ℝ) :
    (reference.execute plan io).SameBlocks io := by
  obtain ⟨inp, _ | out⟩ := io
  · exact ⟨rfl, rfl⟩
  · exact ⟨rfl, rfl⟩

theorem pout_reference (plan : Plan) (io : IoBuffers ℝ) :
    (reference.execute plan io).pout.cell = referenceOut io plan := by
  obtain ⟨inp, _ | out⟩ := io
  · rfl
  · rfl

theorem toComplex_cellsOf {b : Buf ℝ} {X : ℕ → ℂ} (hb : b.cell = cellsOf X) (k : ℕ) :
    toComplex (b.complexes.cell k) = X k := by
  have h0 : 2 * k % 2 = 0 := by omega
  have h1 : ¬(2 * k + 1) % 2 = 0 := by omega
  have h2 : 2 * k / 2 = k := by omega
  have h3 : (2 * k + 1) / 2 = k := by omega
  show (⟨b.cell (2 * k), b.cell (2 * k + 1)⟩ : ℂ) = X k
  rw [hb, cellsOf, cellsOf, if_pos h0, if_neg h1, h2, h3]

variable {n : List ℕ} (hn : Dims n)

include hn

theorem realEntry_realIndex (inPlace : Bool) (j : ℕ) :
    realEntry inPlace n (realIndex inPlace n j) = j := by
  have hlt : j % n.getLastD 0 < 2 * (1 + n.getLastD 0 / 2) :=
    lt_of_lt_of_le (Nat.mod_lt j hn.last_pos) (by omega)
  unfold realEntry realIndex
  split_ifs
  · rw [row_div hlt, row_mod hlt, Nat.div_add_mod']
  · rfl

/-- A cell of half an array, for each entry of the whole one. -/
theorem whole_combine {a b : ℝ} {c c₁ c₂ : ℕ → ℂ}
    (h : ∀ i < halfSize n, c i = a * c₁ i + b * c₂ i) {i : ℕ} (hi : i < n.prod) :
    whole n c i = a * whole n c₁ i + b * whole n c₂ i := by
  have hlead : ∀ x ∈ n.dropLast, 0 < x := fun x hx => hn.pos x (List.dropLast_subset _ hx)
  have hk := Nat.mod_lt i hn.last_pos
  have hrow : i / n.getLastD 0 < n.dropLast.prod :=
    Nat.div_lt_of_lt_mul (by rwa [Nat.mul_comm, hn.prod_dropLast])
  unfold whole
  dsimp only
  split_ifs
  · exact h _ (row_lt (Nat.mul_le_mul_right _ hrow) (by omega))
  · rw [h _ (row_lt (Nat.mul_le_mul_right _ (negIdx_lt hlead _)) (by omega)), map_add, map_mul,
      map_mul, Complex.conj_ofReal, Complex.conj_ofReal]

theorem whole_half {X : ℕ → ℂ} (hX : ∀ j < n.prod, X (negIdx n j) = starRingEnd ℂ (X j)) {i : ℕ}
    (hi : i < n.prod) : whole n (half n X) i = X i := by
  have hlead : ∀ x ∈ n.dropLast, 0 < x := fun x hx => hn.pos x (List.dropLast_subset _ hx)
  have hk := Nat.mod_lt i hn.last_pos
  unfold whole
  dsimp only
  split_ifs
  · rw [half_row (by omega), Nat.div_add_mod']
  · -- past the middle, the entry is the conjugate of the mirrored one
    have hneg : negIdx n i = negIdx n.dropLast (i / n.getLastD 0) * n.getLastD 0
        + (n.getLastD 0 - i % n.getLastD 0) := by
      conv_lhs => rw [← hn.dropLast_append, ← Nat.div_add_mod' i (n.getLastD 0)]
      rw [negIdx_append hlead hk, Nat.mod_eq_of_lt (by omega)]
    rw [half_row (by omega), ← hneg, hX i hi, Complex.conj_conj]

theorem referenceC2r_combine {a b : ℝ} {c c₁ c₂ : ℕ → ℂ}
    (h : ∀ i < halfSize n, c i = a * c₁ i + b * c₂ i) (j : ℕ) :
    referenceC2r n c j = a * referenceC2r n c₁ j + b * referenceC2r n c₂ j := by
  have hdft : dft 1 n (whole n c) j = a * dft 1 n (whole n c₁) j + b * dft 1 n (whole n c₂) j := by
    unfold dft
    rw [← Dft.dft_const_mul, ← Dft.dft_const_mul, ← Dft.dft_add]
    exact Dft.dft_congr (fun i hi => whole_combine hn h hi) j
  unfold referenceC2r
  rw [hdft, Complex.add_re, Complex.re_ofReal_mul, Complex.re_ofReal_mul]

theorem referenceC2r_half {X : ℕ → ℂ} (hX : ∀ j < n.prod, X (negIdx n j) = starRingEnd ℂ (X j))
    {j : ℕ} (hj : j < n.prod) : (referenceC2r n (half n X) j : ℂ) = dft 1 n X j := by
  have hdft : dft 1 n (whole n (half n X)) j = dft 1 n X j :=
    Dft.dft_congr (fun i hi => whole_half hn hX hi) j
  rw [referenceC2r, hdft]
  apply Complex.conj_eq_iff_re.mp
  exact Dft.map_dft_of_hermitian hn.pos (fun d _ => root_pow hn (Or.inl rfl) d) (starRingEnd ℂ)
    (fun d _ => conj_root hn (Or.inl rfl) d) hX hj

omit hn in
theorem documented_reference : Documented reference referenceC2r where
  plan_ok plan io := ⟨io, rfl, IoBuffers.SameBlocks.refl io⟩
  sameBlocks := sameBlocks_reference
  dft_out n sign io _ _ _ k _ := toComplex_cellsOf (pout_reference (.dft n sign) io) k
  r2c_out n io _ _ _ i _ := toComplex_cellsOf (pout_reference (.dftR2c n) io) i
  c2r_out n io hn _ _ j _ := by
    rw [pout_reference, referenceOut]
    dsimp only
    rw [realEntry_realIndex hn]
  c2r_linear _ hn _ _ _ _ _ h j _ := referenceC2r_combine hn h j
  c2r_hermitian _ hn _ hX _ hj := referenceC2r_half hn hX hj

end Reference

end Fftw

end BenchFFT
