import BenchFFT.Problem.Equiv.Alloc
import BenchFFT.Problem.Equiv.CopyReal
import BenchFFT.Problem.Io

/-!
# The blocks keep their sizes

`HasRoom p io`: the blocks are one or two, as the problem says, and have room for it.  The default
`problem_alloc` makes them so, where its products do not wrap around (`hasRoom_alloc`), and what
changes only the contents keeps them so (`HasRoom.of_sameBlocks`).

A routine that looks at a block as complex numbers leaves in it what it wrote
(`Buf.onComplexes_ok`).
-/

namespace BenchFFT

variable {R : Type}

/-! ### Complex views -/

namespace Buf

theorem complexes_reals (c : Buf (BenchComplex R)) (i : ℕ) :
    (⟨c.reals.cell (2 * i), c.reals.cell (2 * i + 1)⟩ : BenchComplex R) = c.cell i := by
  have h0 : 2 * i % 2 = 0 := by omega
  have h1 : ¬(2 * i + 1) % 2 = 0 := by omega
  have h2 : 2 * i / 2 = i := by omega
  have h3 : (2 * i + 1) / 2 = i := by omega
  rw [reals]
  dsimp only
  rw [if_pos h0, if_neg h1, h2, h3]

theorem onComplexes_ok {f : Buf (BenchComplex R) → Except Abort (Buf (BenchComplex R))} {b : Buf R}
    {c : Buf (BenchComplex R)} (hf : f b.complexes = .ok c) :
    ∃ b', b.onComplexes f = .ok b' ∧ b'.size = b.size ∧
      ∀ i < c.size, b'.complexes.cell i = c.cell i := by
  refine ⟨{ b with cell := fun i => if i < 2 * c.size then c.reals.cell i else b.cell i }, ?_, rfl,
    fun i hi => ?_⟩
  · rw [onComplexes, hf]
    rfl
  · have h0 : 2 * i < 2 * c.size := by omega
    have h1 : 2 * i + 1 < 2 * c.size := by omega
    rw [← complexes_reals c i, complexes]
    dsimp only
    rw [if_pos h0, if_pos h1]

end Buf

theorem aset_ok {α : Type*} {b : Buf α} {n : ℕ} (hn : n ≤ b.size) (x : α) :
    ∃ b', aset b n x = .ok b' ∧ b'.size = b.size := by
  have hruns : Buf.Runs b.size (fun b => aset b n x)
      (forRange n fun i c => Function.update c i x) :=
    Buf.Runs.forRangeM fun i hi => Buf.Runs.write (lt_of_lt_of_le hi hn) x
  exact ⟨_, hruns b rfl, rfl⟩

/-! ### Blocks -/

namespace IoBuffers

/-- The contents may differ. -/
structure SameBlocks (io' io : IoBuffers R) : Prop where
  inp : io'.inp.size = io.inp.size
  out : io'.out.map Buf.size = io.out.map Buf.size

namespace SameBlocks

variable {io io' io'' : IoBuffers R}

theorem refl (io : IoBuffers R) : SameBlocks io io := ⟨rfl, rfl⟩

theorem trans (h : SameBlocks io'' io') (h' : SameBlocks io' io) : SameBlocks io'' io :=
  ⟨h.inp.trans h'.inp, h.out.trans h'.out⟩

theorem inPlace (h : SameBlocks io' io) : io'.inPlace = io.inPlace := by
  have hout := congrArg Option.isNone h.out
  rwa [Option.isNone_map, Option.isNone_map] at hout

theorem pout_size (h : SameBlocks io' io) : io'.pout.size = io.pout.size := by
  have hsize : ∀ io : IoBuffers R, io.pout.size = (io.out.map Buf.size).getD io.inp.size := by
    intro io
    unfold pout
    cases io.out <;> rfl
  rw [hsize, hsize, h.inp, h.out]

end SameBlocks

section Change

variable {f : Buf R → Except Abort (Buf R)} {io : IoBuffers R} {b : Buf R}

theorem onIn_ok (hf : f io.inp = .ok b) : io.onIn f = .ok { io with inp := b } := by
  rw [onIn, hf]
  rfl

theorem sameBlocks_onIn (hb : b.size = io.inp.size) : SameBlocks { io with inp := b } io :=
  ⟨hb, rfl⟩

theorem onOut_ok (hf : f io.pout = .ok b) (hb : b.size = io.pout.size) :
    ∃ io', io.onOut f = .ok io' ∧ SameBlocks io' io := by
  obtain ⟨inp, _ | out⟩ := io
  · exact ⟨_, onIn_ok hf, sameBlocks_onIn hb⟩
  · refine ⟨{ inp, out := some b }, ?_, rfl, congrArg some hb⟩
    show f out >>= _ = _
    rw [show f out = .ok b from hf]
    rfl

end Change

end IoBuffers

/-! ### Room for the problem -/

/-- The cells of a block that the problem uses. -/
def blockCells (p : Problem) : ℕ :=
  match p.kind with
  | .complex => 2 * p.dims.prod
  | .real => padded p

structure HasRoom (p : Problem) (io : IoBuffers R) : Prop where
  inPlace : io.inPlace = p.inPlace
  inp : blockCells p ≤ io.inp.size
  out : blockCells p ≤ io.pout.size

theorem HasRoom.of_sameBlocks {p : Problem} {io io' : IoBuffers R} (h : io'.SameBlocks io)
    (hroom : HasRoom p io) : HasRoom p io' where
  inPlace := h.inPlace.trans hroom.inPlace
  inp := h.inp ▸ hroom.inp
  out := h.pout_size ▸ hroom.out

/-- In place, the output is where the input was. -/
theorem HasRoom.pout_of_inPlace {p : Problem} {io : IoBuffers R} (hio : HasRoom p io)
    (hin : p.inPlace = true) (b : Buf R) : ({ io with inp := b } : IoBuffers R).pout = b := by
  have hnone : io.out = none := Option.isNone_iff_eq_none.mp (hio.inPlace.trans hin)
  rw [IoBuffers.pout, hnone]
  rfl

/-- The complex cells of a complex problem. -/
theorem HasRoom.complexes {p : Problem} {io : IoBuffers R} (hio : HasRoom p io)
    (hkind : p.kind = .complex) :
    p.dims.prod ≤ io.inp.complexes.size ∧ p.dims.prod ≤ io.pout.complexes.size := by
  have hcells : blockCells p = 2 * p.dims.prod := by rw [blockCells, hkind]
  have hin := hio.inp
  have hout := hio.out
  show _ ≤ io.inp.size / 2 ∧ _ ≤ io.pout.size / 2
  omega

section Real

variable {p : Problem} {io : IoBuffers R} (hio : HasRoom p io) (hkind : p.kind = .real)

include hio hkind

/-- The real cells of a real problem, packed. -/
theorem HasRoom.packed : p.dims.prod ≤ io.inp.size ∧ p.dims.prod ≤ io.pout.size := by
  have hcells : blockCells p = padded p := by rw [blockCells, hkind]
  have hle : p.dims.prod ≤ padded p := prod_le_prod_add_two _
  exact ⟨le_trans (hcells ▸ hle) hio.inp, le_trans (hcells ▸ hle) hio.out⟩

/-- The real cells of a real problem, in padded rows. -/
theorem HasRoom.rows (hrank : 1 ≤ p.rank) :
    paddedRows p ≤ io.inp.size ∧ paddedRows p ≤ io.pout.size := by
  have hcells : blockCells p = padded p := by rw [blockCells, hkind]
  have hle : paddedRows p ≤ padded p := rows_le_padded hrank
  exact ⟨le_trans (hcells ▸ hle) hio.inp, le_trans (hcells ▸ hle) hio.out⟩

/-- The complex cells of half of a hermitian array. -/
theorem HasRoom.unpacked (hrank : 1 ≤ p.rank) :
    unpackedCells p ≤ io.inp.complexes.size ∧ unpackedCells p ≤ io.pout.complexes.size := by
  obtain ⟨hin, hout⟩ := hio.rows hkind hrank
  have hrows : paddedRows p = 2 * unpackedCells p := by
    unfold paddedRows unpackedCells
    ring
  show _ ≤ io.inp.size / 2 ∧ _ ≤ io.pout.size / 2
  omega

end Real

/-- A routine that fills `p->in`. -/
theorem HasRoom.onIn_ok {p : Problem} {io : IoBuffers R} (hio : HasRoom p io)
    {f : Buf R → Except Abort (Buf R)} {b : Buf R} (hf : f io.inp = .ok b)
    (hb : b.size = io.inp.size) : ∃ io', io.onIn f = .ok io' ∧ HasRoom p io' ∧ io'.inp = b :=
  ⟨_, IoBuffers.onIn_ok hf, hio.of_sameBlocks (IoBuffers.sameBlocks_onIn hb), rfl⟩

/-- A complex array in `p->in`. -/
theorem HasRoom.copyC2cFrom_ok {p : Problem} {io : IoBuffers R} (hio : HasRoom p io)
    (hkind : p.kind = .complex) (hsize : p.size.toNat = p.dims.prod) (inp : ℕ → BenchComplex R) :
    ∃ io', io.onIn (Buf.onComplexes fun pin => copyC2cFrom p pin inp) = .ok io' ∧
      HasRoom p io' ∧ ∀ j < p.dims.prod, io'.inp.complexes.cell j = inp j := by
  obtain ⟨c, hcopy, hc, hcell⟩ :=
    BenchFFT.copyC2cFrom_ok p (hsize ▸ (hio.complexes hkind).1) inp
  obtain ⟨b, hb, hbsize, hbcell⟩ := Buf.onComplexes_ok hcopy
  obtain ⟨io', hrun, hio', rfl⟩ := hio.onIn_ok hb hbsize
  refine ⟨io', hrun, hio', fun j hj => ?_⟩
  rw [hbcell j (hc ▸ lt_of_lt_of_le hj (hio.complexes hkind).1), hcell j (hsize ▸ hj)]

/-- `problem_zero` touches `physSize` of the cells that it looks at. -/
def zeroedCells (p : Problem) (physSize : UInt32) : ℕ :=
  match p.kind with
  | .complex => 2 * physSize.toNat
  | .real => physSize.toNat

theorem zero_ok [Zero R] {p : Problem} {physSize : UInt32} {io : IoBuffers R}
    (hin : zeroedCells p physSize ≤ io.inp.size) (hout : zeroedCells p physSize ≤ io.pout.size) :
    ∃ io', io.zero p physSize = .ok io' ∧ io'.SameBlocks io := by
  obtain ⟨zeroBlock, hzero, hblock⟩ : ∃ zeroBlock : Buf R → Except Abort (Buf R),
      (∀ io : IoBuffers R, io.zero p physSize = io.onOut zeroBlock >>= IoBuffers.onIn zeroBlock) ∧
      ∀ b : Buf R, zeroedCells p physSize ≤ b.size →
        ∃ b', zeroBlock b = .ok b' ∧ b'.size = b.size := by
    unfold zeroedCells IoBuffers.zero
    cases p.kind with
    | complex =>
      refine ⟨Buf.onComplexes fun b => aset b physSize.toNat ⟨0, 0⟩, fun _ => rfl, fun b hb => ?_⟩
      obtain ⟨c, hc, -⟩ := aset_ok (b := b.complexes) (n := physSize.toNat)
        (by dsimp only at hb; show _ ≤ b.size / 2; omega) (⟨0, 0⟩ : BenchComplex R)
      obtain ⟨b', hb', hsize, -⟩ := Buf.onComplexes_ok hc
      exact ⟨b', hb', hsize⟩
    | real => exact ⟨fun b => aset b physSize.toNat 0, fun _ => rfl, fun b hb => aset_ok hb 0⟩
  obtain ⟨b, hb, hbsize⟩ := hblock io.pout hout
  obtain ⟨io₁, hrun₁, hsame₁⟩ := IoBuffers.onOut_ok hb hbsize
  obtain ⟨b', hb', hbsize'⟩ := hblock io₁.inp (by rwa [hsame₁.inp])
  refine ⟨{ io₁ with inp := b' }, ?_, (IoBuffers.sameBlocks_onIn hbsize').trans hsame₁⟩
  rw [hzero, hrun₁]
  exact IoBuffers.onIn_ok hb'

section Alloc

variable {p : Problem} {sizeofReal : UInt64} (hp : IntDims p) (hv : 0 < p.vdims.prod)
  (hsize : p.size.toNat = p.dims.prod) (hvsize : p.vsize.toNat = p.vdims.prod)
  (hpos : 1 ≤ sizeofReal.toNat) (hle : sizeofReal.toNat ≤ 16) (hexact : AllocExact sizeofReal p)

include hp hv hsize hvsize hpos hle hexact

theorem le_realCells_alloc :
    blockCells p ≤ realCells sizeofReal (problemAlloc sizeofReal p).inBytes ∧
      zeroedCells p (problemAlloc sizeofReal p).physSize
        ≤ realCells sizeofReal (problemAlloc sizeofReal p).inBytes := by
  unfold AllocExact at hexact
  unfold blockCells zeroedCells
  cases hkind : p.kind with
  | complex =>
    simp only [hkind] at hexact ⊢
    have hcells : realCells sizeofReal (problemAlloc sizeofReal p).inBytes
        = 2 * (p.dims.prod * p.vdims.prod) := by
      rw [inBytes_complex hkind hle, hsize, hvsize, Nat.mod_eq_of_lt hexact, realCells,
        ← Nat.mul_assoc, Nat.mul_div_cancel _ hpos, Nat.mul_comm]
    rw [physSize_complex hkind, hsize, hvsize, Nat.mod_eq_of_lt hexact, hcells]
    exact ⟨Nat.mul_le_mul_left 2 (Nat.le_mul_of_pos_right _ hv), le_rfl⟩
  | real =>
    simp only [hkind] at hexact ⊢
    have hcells := (le_realCells_iff hpos).mpr hexact
    rw [Nat.mul_comm (padded p), ← hvsize, ← inBytes_real hkind hp] at hcells
    rw [physSize_real hkind hp]
    refine ⟨le_trans (Nat.le_mul_of_pos_left _ (hvsize ▸ hv)) hcells, le_trans ?_ hcells⟩
    exact le_trans (Nat.mod_le _ _) (Nat.mod_le _ _)

/-- The blocks that `problem_alloc` asks for have room, and are zeroed. -/
theorem hasRoom_alloc [Zero R] (inCell outCell : ℕ → R) :
    ∃ io, (IoBuffers.alloc sizeofReal p inCell outCell).zero p
      (problemAlloc sizeofReal p).physSize = .ok io ∧ HasRoom p io := by
  obtain ⟨hblock, hzeroed⟩ := le_realCells_alloc hp hv hsize hvsize hpos hle hexact
  have hplace : (problemAlloc sizeofReal p).sameBlock = p.inPlace := by
    unfold problemAlloc
    cases p.kind <;> rfl
  have hpout : (IoBuffers.alloc sizeofReal p inCell outCell).pout.size
      = realCells sizeofReal (problemAlloc sizeofReal p).inBytes := by
    unfold IoBuffers.alloc IoBuffers.pout
    dsimp only
    split_ifs
    · rfl
    · exact congrArg (realCells sizeofReal) outBytes_eq
  have hroom : HasRoom p (IoBuffers.alloc sizeofReal p inCell outCell) := by
    refine ⟨?_, hblock, hpout ▸ hblock⟩
    unfold IoBuffers.alloc IoBuffers.inPlace
    dsimp only
    rw [hplace]
    cases p.inPlace <;> rfl
  have hin : zeroedCells p (problemAlloc sizeofReal p).physSize
      ≤ (IoBuffers.alloc sizeofReal p inCell outCell).inp.size := hzeroed
  obtain ⟨io, hrun, hsame⟩ := zero_ok hin (hpout ▸ hzeroed)
  exact ⟨io, hrun, hroom.of_sameBlocks hsame⟩

end Alloc

end BenchFFT
