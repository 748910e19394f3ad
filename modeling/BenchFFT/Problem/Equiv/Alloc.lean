import BenchFFT.Problem.Alloc
import BenchFFT.Problem.Equiv.CopyUnpacked
import BenchFFT.Problem.Equiv.Parse

/-!
# The buffers hold what the copy routines touch

For a problem returned by the parser whose `size` and `vsize` are the exact products, the buffers
`problem_alloc` asks for have room for `size * vsize` complex cells, or for
`(n[0] + 2) * … * (n[r-1] + 2) * vsize` real cells, exactly when the numbers of cells and of bytes
do not wrap around; and then no routine touches a cell outside (`buffersFit_iff`).

Each routine stays inside any buffer with room for what it touches (`inside_copyC2rUnpacked` and the
lemmas after it), and the padded rows of the unpacked layouts fit into the product of the `n[i] + 2`
(`rows_le_padded`).
-/

namespace BenchFFT

variable {R : Type*}

/-! ### Routines stay inside buffers that are large enough -/

/-- The dimensions that the parser admits: positive, and small enough for an `int`. -/
structure IntDims (p : Problem) : Prop where
  pos : ∀ x ∈ p.dims, 0 < x
  lt : ∀ x ∈ p.dims, x < 2 ^ 31

/-- The product of the `n[i] + 2`. -/
def padded (p : Problem) : ℕ := (p.dims.map (· + 2)).prod

theorem inside_aset {α : Type*} {b : Buf α} {m n : ℕ} (hb : b.HasSize m) (hn : n ≤ m) (x : α) :
    Inside (Buf.HasSize m) (aset b n x) :=
  Inside.forRangeM hb fun _ hi _ ht => Inside.write ht (lt_of_lt_of_le hi hn) x

theorem inside_problemZero {α : Type*} {inp out : Buf α} {physSize : UInt32}
    (hin : physSize.toNat ≤ inp.size) (hout : physSize.toNat ≤ out.size) (zero : α) :
    Inside (fun _ => True) (problemZero zero physSize inp out) :=
  (inside_aset out.hasSize hout zero).bind fun _ _ =>
    (inside_aset inp.hasSize hin zero).bind fun _ _ => trivial

section Complex

variable {p : Problem}

theorem inside_copyC2cFrom {pin : Buf (BenchComplex R)} (h : p.size.toNat ≤ pin.size)
    (inp : ℕ → BenchComplex R) : Inside (fun _ => True) (copyC2cFrom p pin inp) :=
  (Inside.forRangeM pin.hasSize fun _ hi _ ht =>
    Inside.write ht (lt_of_lt_of_le hi h) _).mono fun _ _ => trivial

theorem inside_copyC2cTo {pout : Buf (BenchComplex R)} (h : p.size.toNat ≤ pout.size)
    (out : ℕ → BenchComplex R) : Inside (fun _ => True) (copyC2cTo p pout out) :=
  Inside.forRangeM trivial fun _ hi _ _ =>
    (Inside.read (lt_of_lt_of_le hi h)).bind fun _ _ => trivial

end Complex

section Real

variable {p : Problem} {pin pout : Buf R} (inp out : ℕ → BenchComplex R)

theorem inside_copyC2rPacked (h : p.size.toNat ≤ pin.size) :
    Inside (fun _ => True) (copyC2rPacked p pin inp) :=
  (Inside.forRangeM pin.hasSize fun _ hi _ ht =>
    Inside.write ht (lt_of_lt_of_le hi h) _).mono fun _ _ => trivial

theorem inside_copyR2cPacked [Zero R] (h : p.size.toNat ≤ pout.size) :
    Inside (fun _ => True) (copyR2cPacked p pout out) :=
  Inside.forRangeM trivial fun _ hi _ _ =>
    (Inside.read (lt_of_lt_of_le hi h)).bind fun _ _ => trivial

end Real

section OneDim

variable {p : Problem} {pin pout : Buf R} (inp out : ℕ → BenchComplex R) [Mul R] [Neg R]
  (s : R)

theorem IntDims.rank_one (hp : IntDims p) (hrank : p.rank = 1) :
    padded p = p.dims.headD 0 + 2 ∧ 0 < p.dims.headD 0 ∧ p.dims.headD 0 < 2 ^ 31 := by
  rw [← p.length_dims, List.length_eq_one_iff] at hrank
  obtain ⟨n, hn⟩ := hrank
  have hmem : n ∈ p.dims := by rw [hn]; exact List.mem_singleton_self n
  rw [padded, hn]
  exact ⟨by simp, hp.pos n hmem, hp.lt n hmem⟩

/-- What a routine for one dimension may assume after its assertions. -/
theorem inside_rank_one {σ : Type*} {Q : σ → Prop} {cap : ℕ} {rest : Except Abort σ}
    (hp : IntDims p) (hcap : padded p ≤ cap)
    (hrest : ∀ n, n = p.dims.headD 0 → 0 < n → n < 2 ^ 31 → n + 2 ≤ cap → Inside Q rest) :
    Inside Q (benchAssert (p.rank = 1) >>= fun _ => benchAssert (p.kind = .real) >>= fun _ =>
      rest) := by
  refine (Inside.assert _).bind fun _ hrank => (Inside.assert _).bind fun _ _ => ?_
  obtain ⟨hpad, hpos, hlt⟩ := hp.rank_one hrank
  exact hrest _ rfl hpos hlt (hpad ▸ hcap)

theorem inside_copyC2h1dFftpack (hp : IntDims p) (hcap : padded p ≤ pin.size) :
    Inside (fun _ => True) (copyC2h1dFftpack u32 p pin inp s) := by
  refine inside_rank_one hp hcap fun n hn hpos hlt hroom => ?_
  dsimp only
  rw [← hn, u32_eq (by omega)]
  refine (Inside.write pin.hasSize (by omega) _).bind fun b hb => ?_
  refine (Inside.forRangeM hb fun j hj b hb => ?_).bind fun b hb => ?_
  · exact (Inside.write hb (by omega) _).bind fun b hb => Inside.write hb (by omega) _
  · split_ifs with hk
    · exact (Inside.write hb (by omega) _).mono fun _ _ => trivial
    · trivial

theorem inside_copyH2c1dFftpack [Zero R] (hp : IntDims p) (hcap : padded p ≤ pout.size) :
    Inside (fun _ => True) (copyH2c1dFftpack u32 p pout out s) := by
  refine inside_rank_one hp hcap fun n hn hpos hlt hroom => ?_
  dsimp only
  rw [← hn, u32_eq (by omega)]
  refine (Inside.read (by omega)).bind fun _ _ => ?_
  refine Inside.bind (P := fun _ => True) (Inside.forRangeM trivial fun j hj _ _ => ?_)
    fun _ _ => ?_
  · exact (Inside.read (by omega)).bind fun _ _ => (Inside.read (by omega)).bind fun _ _ => trivial
  · split_ifs with hk
    · exact (Inside.read (by omega)).bind fun _ _ => trivial
    · trivial

theorem inside_copyC2h1dHalfcomplex (hp : IntDims p) (hcap : padded p ≤ pin.size) :
    Inside (fun _ => True) (copyC2h1dHalfcomplex u32 p pin inp s) := by
  refine inside_rank_one hp hcap fun n hn hpos hlt hroom => ?_
  dsimp only
  rw [← hn, u32_eq (by omega), if_pos hpos]
  refine (Inside.write pin.hasSize (by omega) _).bind fun b hb => ?_
  refine (Inside.forRangeM hb fun j hj b hb => ?_).bind fun b hb => ?_
  · exact (Inside.write hb (by omega) _).bind fun b hb => Inside.write hb (by omega) _
  · split_ifs with hk
    · exact (Inside.write hb (by omega) _).mono fun _ _ => trivial
    · trivial

theorem inside_copyH2c1dHalfcomplex [Zero R] (hp : IntDims p) (hcap : padded p ≤ pout.size) :
    Inside (fun _ => True) (copyH2c1dHalfcomplex u32 p pout out s) := by
  refine inside_rank_one hp hcap fun n hn hpos hlt hroom => ?_
  dsimp only
  rw [← hn, u32_eq (by omega), if_pos hpos]
  refine (Inside.read (by omega)).bind fun _ _ => Inside.bind (P := fun _ => True) trivial
    fun _ _ => Inside.bind (P := fun _ => True)
      (Inside.forRangeM trivial fun j hj _ _ => ?_) fun _ _ => ?_
  · exact (Inside.read (by omega)).bind fun _ _ => (Inside.read (by omega)).bind fun _ _ => trivial
  · split_ifs with hk
    · exact (Inside.read (by omega)).bind fun _ _ => trivial
    · trivial

theorem inside_copyC2h1dPacked (hp : IntDims p) (hcap : padded p ≤ pin.size) :
    Inside (fun _ => True) (copyC2h1dPacked u32 p pin inp s) := by
  refine inside_rank_one hp hcap fun n hn hpos hlt hroom => ?_
  rw [← hn]
  refine (Inside.assert _).bind fun _ heven => ?_
  refine (Inside.forRangeM pin.hasSize fun k hk b hb => ?_).bind fun b hb => ?_
  · have h1 : u32 (u32 (2 * k) * 1) = 2 * k := by
      rw [Nat.mul_one, u32_eq (u32_lt _), u32_eq (by omega)]
    have h2 : u32 (u32 (2 * k + 1) * 1) = 2 * k + 1 := by
      rw [Nat.mul_one, u32_eq (u32_lt _), u32_eq (by omega)]
    rw [h1, h2]
    exact (Inside.write hb (by omega) _).bind fun b hb => Inside.write hb (by omega) _
  · dsimp only
    split_ifs with hk
    · exact (Inside.write hb (by omega) _).mono fun _ _ => trivial
    · trivial

theorem inside_copyH2c1dPacked [Zero R] (hp : IntDims p) (hcap : padded p ≤ pout.size) :
    Inside (fun _ => True) (copyH2c1dPacked u32 p pout out s) := by
  refine inside_rank_one hp hcap fun n hn hpos hlt hroom => ?_
  rw [← hn]
  refine (Inside.assert _).bind fun _ heven => ?_
  dsimp only
  rw [if_pos hpos]
  refine (Inside.read (by omega)).bind fun _ _ => (Inside.read (by omega)).bind fun _ _ =>
    Inside.forRangeM trivial fun k hk _ _ => ?_
  have h1 : u32 (u32 (2 * (k + 1)) * 1) = 2 * (k + 1) := by
    rw [Nat.mul_one, u32_eq (u32_lt _), u32_eq (by omega)]
  have h2 : u32 (u32 (2 * (k + 1) + 1) * 1) = 2 * (k + 1) + 1 := by
    rw [Nat.mul_one, u32_eq (u32_lt _), u32_eq (by omega)]
  rw [h1, h2]
  exact (Inside.read (by omega)).bind fun _ _ => (Inside.read (by omega)).bind fun _ _ => trivial

theorem inside_copyC2h1dUnpackedRi (hp : IntDims p) (hcap : padded p ≤ pin.size) :
    Inside (fun _ => True) (copyC2h1dUnpackedRi u32 p pin inp s) := by
  refine inside_rank_one hp hcap fun n hn hpos hlt hroom => ?_
  dsimp only
  rw [← hn, u32_eq (by omega)]
  refine (Inside.forRangeM pin.hasSize fun k hk b hb => ?_).mono fun _ _ => trivial
  exact (Inside.write hb (by omega) _).bind fun b hb => Inside.write hb (by omega) _

theorem inside_copyH2c1dUnpackedRi (hp : IntDims p) (hcap : padded p ≤ pout.size) :
    Inside (fun _ => True) (copyH2c1dUnpackedRi u32 p pout out s) := by
  refine inside_rank_one hp hcap fun n hn hpos hlt hroom => ?_
  dsimp only
  rw [← hn, u32_eq (by omega), if_pos hpos]
  refine (Inside.read (by omega)).bind fun _ _ => (Inside.read (by omega)).bind fun _ _ =>
    Inside.forRangeM trivial fun k hk _ _ => ?_
  exact (Inside.read (by omega)).bind fun _ _ => (Inside.read (by omega)).bind fun _ _ => trivial

end OneDim

/-! ### Layouts with rows -/

section Rows

variable {p : Problem} {pin pout : Buf R} (inp out : ℕ → BenchComplex R)

theorem prod_le_prod_add_two (l : List ℕ) : l.prod ≤ (l.map (· + 2)).prod := by
  induction l with
  | nil => exact le_rfl
  | cons n l ih =>
    rw [List.map_cons, List.prod_cons, List.prod_cons]
    exact Nat.mul_le_mul (Nat.le_add_right n 2) ih

/-- The rows of the unpacked layouts, padded to `2 * (1 + n / 2)` reals, fit into the product of the
`n[i] + 2`. -/
theorem rows_le_padded (hrank : 1 ≤ p.rank) :
    p.dims.dropLast.prod * (2 * (1 + lastDim p / 2)) ≤ padded p := by
  unfold padded
  conv_rhs => rw [← dropLast_append_lastDim hrank]
  rw [List.map_append, List.prod_append, List.map_singleton, List.prod_singleton]
  exact Nat.mul_le_mul (prod_le_prod_add_two _) (by omega)

theorem keepsIndices_u32 (hp : IntDims p) (hrank : 1 ≤ p.rank) (hsize : p.dims.prod < 2 ^ 32) :
    KeepsIndices u32 p where
  size x hx := u32_eq (lt_of_le_of_lt hx hsize)
  row x hx := by
    have hmem : lastDim p ∈ p.dims := by
      rw [← dropLast_append_lastDim hrank]
      exact List.mem_append_right _ (List.mem_singleton_self _)
    have hlt := hp.lt _ hmem
    exact u32_eq (by omega)

variable (hp : IntDims p) (hrank : 1 ≤ p.rank) (hsize : p.dims.prod < 2 ^ 32)

include hp hrank hsize

theorem inside_copyC2rUnpacked (hcap : padded p ≤ pin.size) :
    Inside (fun _ => True) (copyC2rUnpacked u32 p pin inp) := by
  have hword := keepsIndices_u32 hp hrank hsize
  have hlast := lastDim_pos hrank hp.pos
  have hrows := rows_le_padded hrank
  refine (Inside.assert _).bind fun _ _ => (Inside.assert _).bind fun _ _ => ?_
  dsimp only
  rw [leadingSize_eq hrank hp.pos hword, hword.row (1 + lastDim p / 2) (by omega),
    hword.row _ (by omega)]
  refine (Inside.forRangeM pin.hasSize fun r hr b hb => Inside.forRangeM hb fun k hk b hb =>
    Inside.write hb (lt_of_lt_of_le ?_ hcap) _).mono fun _ _ => trivial
  exact lt_of_lt_of_le (row_lt (Nat.mul_le_mul_right _ hr) (by omega)) hrows

theorem inside_copyR2cUnpacked [Zero R] (hcap : padded p ≤ pout.size) :
    Inside (fun _ => True) (copyR2cUnpacked u32 p pout out) := by
  have hword := keepsIndices_u32 hp hrank hsize
  have hlast := lastDim_pos hrank hp.pos
  have hrows := rows_le_padded hrank
  refine (Inside.assert _).bind fun _ _ => (Inside.assert _).bind fun _ _ => ?_
  dsimp only
  rw [leadingSize_eq hrank hp.pos hword, hword.row (1 + lastDim p / 2) (by omega),
    hword.row _ (by omega)]
  refine Inside.forRangeM trivial fun r hr _ _ => Inside.forRangeM trivial fun k hk _ _ =>
    (Inside.read (lt_of_lt_of_le ?_ hcap)).bind fun _ _ => trivial
  exact lt_of_lt_of_le (row_lt (Nat.mul_le_mul_right _ hr) (by omega)) hrows

variable [Mul R] [Neg R] (hkind : p.kind = .real) (s : R)

include hkind

theorem inside_copyC2hUnpacked {pin : Buf (BenchComplex R)} (hcap : unpackedCells p ≤ pin.size) :
    Inside (fun _ => True) (copyC2hUnpacked u32 p pin inp s) := by
  obtain ⟨pin', hrun, -⟩ := copyC2hUnpacked_eq hrank hkind hp.pos
    (keepsIndices_u32 hp hrank hsize) inp s hcap
  rw [hrun]
  trivial

theorem inside_copyH2cUnpacked {pout : Buf (BenchComplex R)}
    (hcap : unpackedCells p ≤ pout.size) :
    Inside (fun _ => True) (copyH2cUnpacked u32 p pout out s) := by
  obtain ⟨Y, hrun, -⟩ := copyH2cUnpacked_eq hrank hkind hp.pos
    (keepsIndices_u32 hp hrank hsize) out s hcap
  rw [hrun]
  trivial

end Rows

/-! ### The sizes of the blocks -/

section Sizes

variable {p : Problem} {sizeofReal : UInt64}

theorem inBytes_complex (hkind : p.kind = .complex) (hle : sizeofReal.toNat ≤ 16) :
    (problemAlloc sizeofReal p).inBytes
      = p.size.toNat * p.vsize.toNat % 2 ^ 32 * (2 * sizeofReal.toNat) := by
  have hmod := Nat.mod_lt (p.size.toNat * p.vsize.toNat) (show 0 < 2 ^ 32 by decide)
  have hlt : p.size.toNat * p.vsize.toNat % 2 ^ 32 * (2 * sizeofReal.toNat) < 2 ^ 64 :=
    lt_of_le_of_lt (Nat.mul_le_mul hmod.le (by omega : 2 * sizeofReal.toNat ≤ 32)) (by decide)
  rw [problemAlloc, hkind]
  simp only [UInt64.toNat_mul, UInt32.toNat_toUInt64, UInt32.toNat_mul]
  rw [show (2 : UInt64).toNat = 2 from rfl,
    Nat.mod_eq_of_lt (by omega : 2 * sizeofReal.toNat < 2 ^ 64), Nat.mod_eq_of_lt hlt]

theorem complexCells_mul (hpos : 1 ≤ sizeofReal.toNat) (s : ℕ) :
    complexCells sizeofReal (s * (2 * sizeofReal.toNat)) = s :=
  Nat.mul_div_cancel _ (by omega)

theorem physSize_complex (hkind : p.kind = .complex) :
    (problemAlloc sizeofReal p).physSize.toNat = p.size.toNat * p.vsize.toNat % 2 ^ 32 := by
  rw [problemAlloc, hkind]
  simp only [UInt64.toNat_toUInt32, UInt32.toNat_toUInt64, UInt32.toNat_mul, Nat.mod_mod]

/-- The factors `n[i] + 2` are multiplied modulo `2 ^ 64`. -/
theorem toNat_foldl_padded {ns : List UInt32} (hns : ∀ n ∈ ns, n.toNat < 2 ^ 31) (s : UInt64) :
    (ns.foldl (fun s n => s * (n + 2).toUInt64) s).toNat
      = s.toNat * ((ns.map UInt32.toNat).map (· + 2)).prod % 2 ^ 64 := by
  induction ns generalizing s with
  | nil =>
    rw [List.foldl_nil, List.map_nil, List.map_nil, List.prod_nil, Nat.mul_one]
    exact (Nat.mod_eq_of_lt s.toNat_lt).symm
  | cons n ns ih =>
    have hn := hns n List.mem_cons_self
    have hadd : (n + 2).toNat = n.toNat + 2 := by
      rw [UInt32.toNat_add]
      exact Nat.mod_eq_of_lt (by rw [show (2 : UInt32).toNat = 2 from rfl]; omega)
    rw [List.foldl_cons, ih (fun n hn => hns n (List.mem_cons_of_mem _ hn)), UInt64.toNat_mul,
      UInt32.toNat_toUInt64, hadd, List.map_cons, List.map_cons, List.prod_cons, Nat.mod_mul_mod,
      Nat.mul_assoc]

theorem inBytes_real (hkind : p.kind = .real) (hp : IntDims p) :
    (problemAlloc sizeofReal p).inBytes
      = p.vsize.toNat * padded p % 2 ^ 64 * sizeofReal.toNat % 2 ^ 64 := by
  rw [problemAlloc, hkind]
  simp only [UInt64.toNat_mul]
  rw [toNat_foldl_padded (fun n hn => hp.lt _ (List.mem_map_of_mem hn)), UInt32.toNat_toUInt64]
  rfl

theorem physSize_real (hkind : p.kind = .real) (hp : IntDims p) :
    (problemAlloc sizeofReal p).physSize.toNat
      = p.vsize.toNat * padded p % 2 ^ 64 % 2 ^ 32 := by
  rw [problemAlloc, hkind]
  simp only [UInt64.toNat_toUInt32]
  rw [toNat_foldl_padded (fun n hn => hp.lt _ (List.mem_map_of_mem hn)), UInt32.toNat_toUInt64]
  rfl

theorem outBytes_eq :
    (problemAlloc sizeofReal p).outBytes = (problemAlloc sizeofReal p).inBytes := by
  unfold problemAlloc
  cases p.kind <;> rfl

/-- The bytes wrap around unless the cells do fit. -/
theorem le_realCells_iff {P : ℕ} (hpos : 1 ≤ sizeofReal.toNat) :
    P ≤ realCells sizeofReal (P % 2 ^ 64 * sizeofReal.toNat % 2 ^ 64) ↔
      P * sizeofReal.toNat < 2 ^ 64 := by
  rw [realCells, Nat.le_div_iff_mul_le hpos]
  constructor
  · exact fun h => lt_of_le_of_lt h (Nat.mod_lt _ (by decide))
  · intro h
    have hP : P < 2 ^ 64 := lt_of_le_of_lt (Nat.le_mul_of_pos_right _ hpos) h
    rw [Nat.mod_eq_of_lt hP, Nat.mod_eq_of_lt h]

end Sizes

/-! ### The buffers fit -/

section Fit

variable (R) [Mul R] [Neg R] [Zero R]

/-- The buffers of a complex problem hold `size * vsize` complex cells, and the routines stay
inside. -/
structure ComplexFit (sizeofReal : UInt64) (p : Problem) (a : Allocated) : Prop where
  in_cells : p.dims.prod * p.vdims.prod ≤ complexCells sizeofReal a.inBytes
  out_cells : p.dims.prod * p.vdims.prod ≤ complexCells sizeofReal a.outBytes
  routines : ∀ pin pout : Buf (BenchComplex R), pin.size = complexCells sizeofReal a.inBytes →
    pout.size = complexCells sizeofReal a.outBytes →
    Inside (fun _ => True) (problemZero ⟨0, 0⟩ a.physSize pin pout) ∧
    (∀ inp, Inside (fun _ => True) (copyC2cFrom p pin inp)) ∧
    ∀ out, Inside (fun _ => True) (copyC2cTo p pout out)

/-- The buffers of a real problem hold the padded product times `vsize` real cells, and the routines
stay inside, whichever of the two cell types they use. -/
structure RealFit (sizeofReal : UInt64) (p : Problem) (a : Allocated) : Prop where
  in_cells : padded p * p.vdims.prod ≤ realCells sizeofReal a.inBytes
  out_cells : padded p * p.vdims.prod ≤ realCells sizeofReal a.outBytes
  zero : ∀ pin pout : Buf R, pin.size = realCells sizeofReal a.inBytes →
    pout.size = realCells sizeofReal a.outBytes →
    Inside (fun _ => True) (problemZero 0 a.physSize pin pout)
  encoders : ∀ pin : Buf R, pin.size = realCells sizeofReal a.inBytes → ∀ inp s,
    Inside (fun _ => True) (copyC2rPacked p pin inp) ∧
    Inside (fun _ => True) (copyC2rUnpacked u32 p pin inp) ∧
    Inside (fun _ => True) (copyC2h1dFftpack u32 p pin inp s) ∧
    Inside (fun _ => True) (copyC2h1dHalfcomplex u32 p pin inp s) ∧
    Inside (fun _ => True) (copyC2h1dPacked u32 p pin inp s) ∧
    Inside (fun _ => True) (copyC2h1dUnpackedRi u32 p pin inp s)
  decoders : ∀ pout : Buf R, pout.size = realCells sizeofReal a.outBytes → ∀ out s,
    Inside (fun _ => True) (copyR2cPacked p pout out) ∧
    Inside (fun _ => True) (copyR2cUnpacked u32 p pout out) ∧
    Inside (fun _ => True) (copyH2c1dFftpack u32 p pout out s) ∧
    Inside (fun _ => True) (copyH2c1dHalfcomplex u32 p pout out s) ∧
    Inside (fun _ => True) (copyH2c1dPacked u32 p pout out s) ∧
    Inside (fun _ => True) (copyH2c1dUnpackedRi u32 p pout out s)
  unpacked : ∀ pin pout : Buf (BenchComplex R), pin.size = complexCells sizeofReal a.inBytes →
    pout.size = complexCells sizeofReal a.outBytes → ∀ inp out s,
    Inside (fun _ => True) (copyC2hUnpacked u32 p pin inp s) ∧
    Inside (fun _ => True) (copyH2cUnpacked u32 p pout out s)

/-- What `problem_alloc` allocates fits the copy routines of the problem's kind. -/
def BuffersFit (sizeofReal : UInt64) (p : Problem) : Prop :=
  match p.kind with
  | .complex => ComplexFit R sizeofReal p (problemAlloc sizeofReal p)
  | .real => RealFit R sizeofReal p (problemAlloc sizeofReal p)

/-- The numbers of cells and bytes do not wrap around. -/
def AllocExact (sizeofReal : UInt64) (p : Problem) : Prop :=
  match p.kind with
  | .complex => p.dims.prod * p.vdims.prod < 2 ^ 32
  | .real => padded p * p.vdims.prod * sizeofReal.toNat < 2 ^ 64

/-- The dimensions that the parser returns. -/
theorem problemParse_intDims {s : List Char} {p : Problem} (h : problemParse s = .ok p) :
    IntDims p ∧ 1 ≤ p.rank ∧ 0 < p.vdims.prod := by
  obtain ⟨d, rest, hread⟩ := (exists_reads s).resolve_left (by rw [h]; exact nofun)
  rw [problemParse_reads hread] at h
  split_ifs at h with hst
  rw [Except.ok.injEq] at h
  have hstored : ∀ ms : List Numeral, (∀ m ∈ ms, 0 < Int32.ofNat m.value) →
      ∀ x ∈ (stored ms).map UInt32.toNat, 0 < x ∧ x < 2 ^ 31 := by
    intro ms hms x hx
    rw [stored, List.map_map] at hx
    obtain ⟨m, hm, rfl⟩ := List.mem_map.mp hx
    exact toNat_ofNat_bounds (hms m hm)
  have hdims := hstored _ hst.1.1
  have hvdims := hstored _ hst.2.1
  subst h
  exact ⟨⟨fun x hx => (hdims x hx).1, fun x hx => (hdims x hx).2⟩,
    by rw [← Problem.length_dims]; exact Nat.succ_pos _,
    List.prod_pos_iff_forall_pos_nat.mpr fun x hx => (hvdims x hx).1⟩

section Exact

variable {p : Problem} {sizeofReal : UInt64} (hsize : p.size.toNat = p.dims.prod)
  (hvsize : p.vsize.toNat = p.vdims.prod) (hpos : 1 ≤ sizeofReal.toNat)
  (hv : 0 < p.vdims.prod)

include hsize hvsize hpos hv

omit [Mul R] [Neg R] in
theorem complexFit_iff (hle : sizeofReal.toNat ≤ 16) (hkind : p.kind = .complex) :
    ComplexFit R sizeofReal p (problemAlloc sizeofReal p)
      ↔ p.dims.prod * p.vdims.prod < 2 ^ 32 := by
  have hbytes := inBytes_complex (p := p) hkind hle
  have hcells : complexCells sizeofReal (problemAlloc sizeofReal p).inBytes
      = p.dims.prod * p.vdims.prod % 2 ^ 32 := by
    rw [hbytes, complexCells_mul hpos, hsize, hvsize]
  constructor
  · intro h
    exact lt_of_le_of_lt (hcells ▸ h.in_cells) (Nat.mod_lt _ (by decide))
  · intro h
    rw [Nat.mod_eq_of_lt h] at hcells
    have hphys : (problemAlloc sizeofReal p).physSize.toNat = _ := physSize_complex hkind
    rw [hsize, hvsize, Nat.mod_eq_of_lt h] at hphys
    refine ⟨hcells.ge, outBytes_eq ▸ hcells.ge, fun pin pout hpin hpout => ?_⟩
    rw [hcells] at hpin
    rw [outBytes_eq, hcells] at hpout
    have hmul : p.size.toNat ≤ p.dims.prod * p.vdims.prod := by
      rw [hsize]
      exact Nat.le_mul_of_pos_right _ hv
    exact ⟨inside_problemZero (hphys.trans hpin.symm).le (hphys.trans hpout.symm).le _,
      inside_copyC2cFrom (hpin ▸ hmul), inside_copyC2cTo (hpout ▸ hmul)⟩

theorem realFit_iff (hp : IntDims p) (hrank : 1 ≤ p.rank) (hkind : p.kind = .real) :
    RealFit R sizeofReal p (problemAlloc sizeofReal p)
      ↔ padded p * p.vdims.prod * sizeofReal.toNat < 2 ^ 64 := by
  have hlt : p.dims.prod < 2 ^ 32 := hsize ▸ p.size.toNat_lt
  have hpadded : p.dims.prod ≤ padded p := prod_le_prod_add_two _
  have hbytes : (problemAlloc sizeofReal p).inBytes = _ := inBytes_real hkind hp
  rw [hvsize, Nat.mul_comm p.vdims.prod] at hbytes
  have hiff := le_realCells_iff (P := padded p * p.vdims.prod) hpos
  rw [← hbytes] at hiff
  refine ⟨fun h => hiff.mp h.in_cells, fun h => ?_⟩
  have hin := hiff.mpr h
  have hout : padded p * p.vdims.prod
      ≤ realCells sizeofReal (problemAlloc sizeofReal p).outBytes := outBytes_eq ▸ hin
  have hcap : padded p ≤ padded p * p.vdims.prod := Nat.le_mul_of_pos_right _ hv
  -- `phys_size` may wrap around, but only to a smaller number
  have hphys : (problemAlloc sizeofReal p).physSize.toNat ≤ padded p * p.vdims.prod := by
    rw [physSize_real hkind hp, hvsize, Nat.mul_comm p.vdims.prod]
    exact (Nat.mod_le _ _).trans (Nat.mod_le _ _)
  -- two padded reals make a complex cell
  have hunpacked : ∀ {bytes}, padded p ≤ realCells sizeofReal bytes →
      unpackedCells p ≤ complexCells sizeofReal bytes := by
    intro bytes hb
    have hrows := rows_le_padded hrank
    rw [complexCells, Nat.mul_comm 2, ← Nat.div_div_eq_div_mul, Nat.le_div_iff_mul_le two_pos,
      unpackedCells, Nat.mul_assoc, Nat.mul_comm _ 2]
    exact hrows.trans hb
  refine ⟨hin, hout, fun pin pout hpin hpout => ?_, fun pin hpin inp s => ?_,
    fun pout hpout out s => ?_, fun pin pout hpin hpout inp out s => ?_⟩
  · exact inside_problemZero (hpin ▸ hphys.trans hin) (hpout ▸ hphys.trans hout) _
  · have hc : padded p ≤ pin.size := hpin ▸ hcap.trans hin
    exact ⟨inside_copyC2rPacked inp (hsize ▸ hpadded.trans hc),
      inside_copyC2rUnpacked inp hp hrank hlt hc, inside_copyC2h1dFftpack inp s hp hc,
      inside_copyC2h1dHalfcomplex inp s hp hc, inside_copyC2h1dPacked inp s hp hc,
      inside_copyC2h1dUnpackedRi inp s hp hc⟩
  · have hc : padded p ≤ pout.size := hpout ▸ hcap.trans hout
    exact ⟨inside_copyR2cPacked out (hsize ▸ hpadded.trans hc),
      inside_copyR2cUnpacked out hp hrank hlt hc, inside_copyH2c1dFftpack out s hp hc,
      inside_copyH2c1dHalfcomplex out s hp hc, inside_copyH2c1dPacked out s hp hc,
      inside_copyH2c1dUnpackedRi out s hp hc⟩
  · exact ⟨inside_copyC2hUnpacked inp hp hrank hlt hkind s
        (hpin ▸ hunpacked (hcap.trans hin)),
      inside_copyH2cUnpacked out hp hrank hlt hkind s (hpout ▸ hunpacked (hcap.trans hout))⟩

end Exact

/-- **When the buffers fit**: for a problem returned by the parser with exact products, the blocks
`problem_alloc` asks for are large enough, and no routine touches a cell outside them, exactly when
the numbers of cells and bytes do not wrap around. -/
theorem buffersFit_iff {s : List Char} {p : Problem} (hparse : problemParse s = .ok p)
    (hsize : p.size.toNat = p.dims.prod) (hvsize : p.vsize.toNat = p.vdims.prod)
    {sizeofReal : UInt64} (hpos : 1 ≤ sizeofReal.toNat) (hle : sizeofReal.toNat ≤ 16) :
    BuffersFit R sizeofReal p ↔ AllocExact sizeofReal p := by
  obtain ⟨hp, hrank, hv⟩ := problemParse_intDims hparse
  unfold BuffersFit AllocExact
  rcases hkind : p.kind with _ | _
  · exact complexFit_iff R hsize hvsize hpos hv hle hkind
  · exact realFit_iff R hsize hvsize hpos hv hp hrank hkind

end Fit

/-- The problem `65536v65536`: each product is exact, but there are `2 ^ 32` complex cells. -/
def of65536v65536 : Problem :=
  { initialProblem "65536v65536".toList with
    n := [65536]
    size := 65536
    vn := [65536]
    vsize := 65536 }

/-- `problem_alloc` allocates no cell for `65536v65536`. -/
theorem not_buffersFit_65536v65536 : problemParse "65536v65536".toList = .ok of65536v65536 ∧
    of65536v65536.size.toNat = of65536v65536.dims.prod ∧
    of65536v65536.vsize.toNat = of65536v65536.vdims.prod ∧ ¬BuffersFit ℤ 8 of65536v65536 := by
  refine ⟨rfl, by decide, by decide, fun h => ?_⟩
  have hcells := ComplexFit.in_cells h
  revert hcells
  decide

/-- The problem `r4x6v2`. -/
def r4x6v2 : Problem :=
  { initialProblem "r4x6v2".toList with
    kind := .real
    n := [4, 6]
    size := 24
    vn := [2]
    vsize := 2 }

theorem buffersFit_r4x6v2 : BuffersFit ℤ 8 r4x6v2 := by
  have hparse : problemParse "r4x6v2".toList = .ok r4x6v2 := rfl
  apply (buffersFit_iff ℤ hparse (by decide) (by decide) (by decide) (by decide)).mpr
  show _ < _
  decide

end BenchFFT
