import BenchFFT.Benchees.Equiv.Layout
import BenchFFT.Chirp
import BenchFFT.Problem.Equiv.Copy1d
import BenchFFT.RealDft
import BenchFFT.Verify.Equiv.Accuracy
import BenchFFT.Verify.Equiv.Harness

/-!
# Benchees of one dimension

A one-dimensional package keeps a hermitian array in one of the formats (`Format1d`).  Where the
copies of a benchee are those of its format (`Copies`) and its `doit` computes transforms between
arrays in this format (`Computes`), each of them up to a factor, and the factors cancel, every
`do_fft` leaves the transform of its input (`doFft_transform`), and the benchee passes its
verification (`verify_oneDim`).
-/

namespace BenchFFT

open Finset Verify

namespace OneDim

/-! ### The entries past the array -/

section Rest

variable {R : Type} {n : ℕ} {Y Y₀ : ℕ → BenchComplex R}

/-- The entries from `n` on are those of `Y₀`. -/
def AgreesFrom (n : ℕ) (Y₀ Y : ℕ → BenchComplex R) : Prop := ∀ k, n ≤ k → Y k = Y₀ k

theorem AgreesFrom.update (h : AgreesFrom n Y₀ Y) {i : ℕ} (hi : i < n) (a : BenchComplex R) :
    AgreesFrom n Y₀ (Function.update Y i a) := by
  intro k hk
  rw [Function.update_of_ne (by omega)]
  exact h k hk

variable [Field R] {word : ℕ → ℕ} {p : Problem} (hdims : p.dims.headD 0 = n) (hn : 0 < n) {s : R}
  {pout : Buf R}

include hdims hn

theorem fftpack_rest (hword : KeepsBelow word (n + 1)) (hpout : n ≤ pout.size) :
    Inside (AgreesFrom n Y₀) (copyH2c1dFftpack word p pout Y₀ s) := by
  have hsteps := hword (n + 1) le_rfl
  unfold copyH2c1dFftpack
  refine (Inside.assert _).bind fun _ _ => (Inside.assert _).bind fun _ _ => ?_
  rw [hdims]
  dsimp only
  rw [hsteps]
  refine (Inside.read (by omega)).bind fun re _ => ?_
  have h0 : AgreesFrom n Y₀ (Function.update Y₀ 0 ⟨re, 0⟩) :=
    AgreesFrom.update (fun _ _ => rfl) hn _
  refine (Inside.forRangeM h0 fun j hj Y hY => ?_).bind fun Y hY => ?_
  · refine (Inside.read (by omega)).bind fun re _ => (Inside.read (by omega)).bind fun im _ => ?_
    exact Inside.pure ((hY.update (by omega) _).update (by omega) _)
  · split_ifs with hmid
    · rw [hword _ (by omega)] at hmid
      exact (Inside.read (by omega)).bind fun re _ => Inside.pure (hY.update (by omega) _)
    · exact Inside.pure hY

theorem halfcomplex_rest (hword : KeepsBelow word (n + 1)) (hpout : n ≤ pout.size) :
    Inside (AgreesFrom n Y₀) (copyH2c1dHalfcomplex word p pout Y₀ s) := by
  have hsteps := hword (n + 1) le_rfl
  unfold copyH2c1dHalfcomplex
  refine (Inside.assert _).bind fun _ _ => (Inside.assert _).bind fun _ _ => ?_
  rw [hdims]
  dsimp only
  rw [hsteps, if_pos hn]
  refine (Inside.read (by omega)).bind fun re _ => ?_
  have h0 : AgreesFrom n Y₀ (Function.update Y₀ 0 ⟨re, 0⟩) :=
    AgreesFrom.update (fun _ _ => rfl) hn _
  refine Inside.bind (Inside.pure h0) fun Y hY => ?_
  refine (Inside.forRangeM hY fun j hj Y hY => ?_).bind fun Y hY => ?_
  · refine (Inside.read (by omega)).bind fun re _ => (Inside.read (by omega)).bind fun im _ => ?_
    exact Inside.pure ((hY.update (by omega) _).update (by omega) _)
  · split_ifs with hmid
    · rw [hword _ (by omega)] at hmid
      exact (Inside.read (by omega)).bind fun re _ => Inside.pure (hY.update (by omega) _)
    · exact Inside.pure hY

end Rest

/-! ### What the benchee does -/

/-- The first `N` entries of `Y`, multiplied by `c`. -/
def scaled (c : ℝ) (N : ℕ) (Y : ℕ → BenchComplex ℝ) (k : ℕ) : BenchComplex ℝ :=
  if k < N then ⟨c * (Y k).re, c * (Y k).im⟩ else Y k

/-- The factor of `unnormalize`. -/
def normalization (p : Problem) (whichSign : ℤ) : ℝ :=
  if p.sign = whichSign then p.size.toNat else 1

theorem unnormalize_eq_scaled (p : Problem) (out : ℕ → BenchComplex ℝ) (whichSign : ℤ) :
    unnormalize p out whichSign
      = scaled (normalization p whichSign) p.size.toNat out := by
  ext1 k
  unfold unnormalize normalization scaled
  split_ifs with hsign hk
  · rw [BenchFFT.cascale_apply, if_pos hk]
    congr 1
    · ring
    · ring
  · rw [BenchFFT.cascale_apply, if_neg hk]
  · rw [one_mul, one_mul]
  · rfl

/-- The format is that of a plain array of `n` numbers. -/
structure Plain (f : Format1d) (n : ℕ) : Prop where
  applies : f.Applies n
  entry : ∀ k, f.entry k = k
  room : f.room n ≤ n
  indexBound : f.indexBound n < 2 ^ 32
  ne_unpackedRi : f ≠ .unpackedRi

theorem plain_fftpack {n : ℕ} (hn : n < 2 ^ 31) : Plain .fftpack n where
  applies := trivial
  entry _ := rfl
  room := le_rfl
  indexBound := by
    show n + 1 < 2 ^ 32
    omega
  ne_unpackedRi := nofun

theorem plain_halfcomplex {n : ℕ} (hn : n < 2 ^ 31) : Plain .halfcomplex n where
  applies := trivial
  entry _ := rfl
  room := le_rfl
  indexBound := by
    show n + 1 < 2 ^ 32
    omega
  ne_unpackedRi := nofun

section Benchee

variable (b : Benchee ℝ) (p : Problem) (f : Format1d) (s : ℝ)

/-- The copies are those of the format `f` with the sign `s`, and the last one multiplies by `c`. -/
structure Copies (c : ℝ) : Prop where
  fromComplex : p.kind = .complex → ∀ inp io, b.problemCcopyFrom p inp io =
    io.onIn (Buf.onComplexes fun pin => copyC2cFrom p pin inp)
  fromForward : p.kind = .real → p.sign = -1 → ∀ inp io, b.problemCcopyFrom p inp io =
    io.onIn fun pin => copyC2rPacked p pin inp
  fromBackward : p.kind = .real → p.sign ≠ -1 → ∀ inp io, b.problemCcopyFrom p inp io =
    io.onIn fun pin => f.copyC2h1d u32 p pin inp s
  toComplex : p.kind = .complex → ∀ io out Y, copyC2cTo p io.pout.complexes out = .ok Y →
    b.problemCcopyTo p io out = .ok (scaled c p.size.toNat Y)
  toForward : p.kind = .real → p.sign = -1 → ∀ io out Y,
    f.copyH2c1d u32 p io.pout out s = .ok Y →
    b.problemCcopyTo p io out = .ok (scaled c p.size.toNat Y)
  toBackward : p.kind = .real → p.sign ≠ -1 → ∀ io out Y, copyR2cPacked p io.pout out = .ok Y →
    b.problemCcopyTo p io out = .ok (scaled c p.size.toNat Y)

/-- `doit` computes `d` times the transform of `n` numbers. -/
structure Computes (n : ℕ) (d : ℝ) : Prop where
  complex : p.kind = .complex → ∀ io, HasRoom p io → ∃ io', b.doit 1 p io = .ok io' ∧
    io'.SameBlocks io ∧ ∀ k < n, toComplex (io'.pout.complexes.cell k)
      = d * RealDft.dft p.sign n (fun j => toComplex (io.inp.complexes.cell j)) k
  forward : p.kind = .real → p.sign = -1 → ∀ io, HasRoom p io → ∃ io', b.doit 1 p io = .ok io' ∧
    io'.SameBlocks io ∧ Stores (f.reCell n) (f.imCell n) s n io'.pout.cell
      fun k => toComplex.symm (d * RealDft.dft (-1) n (fun j => (io.inp.cell j : ℂ)) k)
  backward : p.kind = .real → p.sign ≠ -1 → ∀ io X, HasRoom p io →
    Stores (f.reCell n) (f.imCell n) s n io.inp.cell X → ∃ io', b.doit 1 p io = .ok io' ∧
      io'.SameBlocks io ∧ ∀ j < n, io'.pout.cell j
        = d * RealDft.synthesis n (fun k => toComplex (X k)) j

end Benchee

/-- The transform of the problem. -/
noncomputable def result (p : Problem) (x : Fin p.size.toNat → BenchComplex ℝ)
    (k : Fin p.size.toNat) : BenchComplex ℝ :=
  match p.kind with
  | .complex =>
    toComplex.symm (RealDft.dft p.sign p.size.toNat (fun j => toComplex (Verify.padded x j)) k)
  | .real =>
    if p.sign = -1 then
      toComplex.symm (RealDft.dft (-1) p.size.toNat (fun j => ((Verify.padded x j).re : ℂ)) k)
    else ⟨RealDft.synthesis p.size.toNat (fun j => toComplex (Verify.padded x j)) k, 0⟩

/-- A plain format only fills the array. -/
theorem copyH2c1d_rest {p : Problem} {n : ℕ} (hdims : p.dims.headD 0 = n) (hn : 0 < n)
    {f : Format1d} (hf : Plain f n) {s : ℝ} {pout : Buf ℝ} (hpout : f.room n ≤ pout.size)
    {Y₀ Y : ℕ → BenchComplex ℝ} (hcopy : f.copyH2c1d u32 p pout Y₀ s = .ok Y) :
    AgreesFrom n Y₀ Y := by
  have hword := Format1d.keepsBelow_u32 hf.indexBound
  cases f with
  | fftpack =>
    have h : Inside (AgreesFrom n Y₀) (copyH2c1dFftpack u32 p pout Y₀ s) :=
      fftpack_rest hdims hn hword hpout
    rwa [show copyH2c1dFftpack u32 p pout Y₀ s = .ok Y from hcopy] at h
  | halfcomplex =>
    have h : Inside (AgreesFrom n Y₀) (copyH2c1dHalfcomplex u32 p pout Y₀ s) :=
      halfcomplex_rest hdims hn hword hpout
    rwa [show copyH2c1dHalfcomplex u32 p pout Y₀ s = .ok Y from hcopy] at h
  | packed rstride cstride =>
    obtain rfl : cstride = 1 := by simpa [Format1d.entry] using hf.entry 1
    subst hdims
    have hreads := Format1d.packed_reads Y₀ s hn hf.applies.1 hf.applies.2.1 hword hpout
    obtain rfl := Except.ok.inj (hreads.symm.trans hcopy)
    exact fun k hk => Format1d.unpack_off Y₀ s hn pout.cell fun i hi => by omega
  | unpackedRi => exact absurd rfl hf.ne_unpackedRi

section Result

variable {p : Problem} (inp : ℕ → BenchComplex ℝ) (k : Fin p.size.toNat)

theorem padded_of_lt {N : ℕ} {j : ℕ} (hj : j < N) :
    Verify.padded (fun j : Fin N => inp j) j = inp j := dif_pos hj

theorem result_complex (hkind : p.kind = .complex) : toComplex (result p (fun j => inp j) k)
    = RealDft.dft p.sign p.size.toNat (fun j => toComplex (inp j)) k := by
  rw [result, hkind]
  exact (toComplex.apply_symm_apply _).trans
    (RealDft.dft_congr (fun j hj => by rw [padded_of_lt inp hj]) k)

theorem result_forward (hkind : p.kind = .real) (hsign : p.sign = -1) :
    toComplex (result p (fun j => inp j) k)
      = RealDft.dft (-1) p.size.toNat (fun j => ((inp j).re : ℂ)) k := by
  rw [result, hkind]
  dsimp only
  rw [if_pos hsign, toComplex.apply_symm_apply]
  exact RealDft.dft_congr (fun j hj => by rw [padded_of_lt inp hj]) k

theorem result_backward (hkind : p.kind = .real) (hsign : p.sign ≠ -1) :
    result p (fun j => inp j) k
      = ⟨RealDft.synthesis p.size.toNat (fun j => toComplex (inp j)) k, 0⟩ := by
  have hpadded : ∀ j, 2 * j ≤ p.size.toNat →
      toComplex (Verify.padded (fun j : Fin p.size.toNat => inp j) j) = toComplex (inp j) := by
    intro j hj
    have hlt := k.isLt
    rw [padded_of_lt inp (by omega)]
  rw [result, hkind]
  dsimp only
  rw [if_neg hsign, RealDft.synthesis_congr _ (fun j hj => by rw [hpadded j hj])
    fun j _ hj => by rw [hpadded j hj.le]]

end Result

theorem scaled_of_lt {c : ℝ} {N k : ℕ} {Y : ℕ → BenchComplex ℝ} (hk : k < N) :
    toComplex (scaled c N Y k) = c * toComplex (Y k) := by
  rw [scaled, if_pos hk]
  apply Complex.ext
  · rw [Complex.re_ofReal_mul]
    rfl
  · rw [Complex.im_ofReal_mul]
    rfl

theorem dft_eq (sign : ℤ) (n : ℕ) (X : ℕ → ℂ) (k : ℕ) :
    RealDft.dft sign n X k = Chirp.dft n (root sign n) X k := by
  refine sum_congr rfl fun j _ => ?_
  rw [root, ← Complex.exp_nat_mul]
  congr 2
  push_cast
  ring

/-! ### Sums of cosines and sines -/

section Sums

variable {re im : ℕ → ℕ} {n : ℕ} {c : ℕ → ℝ}

/-- A forward transform, stored. -/
theorem stores_of_sums (x : ℕ → ℝ)
    (hre : ∀ k, 2 * k ≤ n →
      c (re k) = ∑ j ∈ range n, x j * Real.cos (RealDft.angle n j k))
    (him : ∀ k, 0 < k → 2 * k < n →
      c (im k) = -∑ j ∈ range n, x j * Real.sin (RealDft.angle n j k)) :
    Stores re im (-1) n c fun k =>
      toComplex.symm (RealDft.dft (-1) n (fun j => (x j : ℂ)) k) := by
  constructor
  · intro k hk
    show c (re k) = (RealDft.dft (-1) n (fun j => (x j : ℂ)) k).re
    rw [RealDft.dft_re]
    exact hre k hk
  · intro k h0 hk
    show c (im k) = - -1 * (RealDft.dft (-1) n (fun j => (x j : ℂ)) k).im
    rw [RealDft.dft_im, neg_neg, one_mul]
    exact him k h0 hk

/-- A backward transform of what is stored. -/
theorem synthesis_of_stores {X : ℕ → BenchComplex ℝ} (h : Stores re im (-1) n c X) (j : ℕ) :
    RealDft.synthesis n (fun k => toComplex (X k)) j
      = c (re 0) + (if n % 2 = 0 then (-1) ^ j * c (re (n / 2)) else 0)
        + ∑ k ∈ Ico 1 ((n + 1) / 2), (2 : ℕ) * (c (re k) * Real.cos (RealDft.angle n k j)
          - c (im k) * Real.sin (RealDft.angle n k j)) := by
  have hsum : ∀ k ∈ Ico 1 ((n + 1) / 2),
      (2 : ℕ) * (c (re k) * Real.cos (RealDft.angle n k j)
          - c (im k) * Real.sin (RealDft.angle n k j))
        = (2 : ℕ) * ((X k).re * Real.cos (RealDft.angle n k j)
          - (X k).im * Real.sin (RealDft.angle n k j)) := by
    intro k hk
    have hk := mem_Ico.mp hk
    rw [h.re k (by omega), h.im k (by omega) (by omega), neg_neg, one_mul]
  rw [sum_congr rfl hsum, h.re 0 (Nat.zero_le n), h.re (n / 2) (by omega)]
  rfl

end Sums

/-- A `setup` that only asserts. -/
theorem setup_ok {c : Prop} [Decidable c] (hc : c) {p : Problem} (io : IoBuffers ℝ)
    (hio : HasRoom p io) :
    ∃ io', (do benchAssert c; return io : Except Abort (IoBuffers ℝ)) = .ok io' ∧
      HasRoom p io' := by
  refine ⟨io, ?_, hio⟩
  rw [bind_ok (benchAssert_ok hc)]
  rfl

section DoFft

variable {b : Benchee ℝ} {p : Problem} {f : Format1d} {s c d : ℝ}
  (hdims : p.dims = [p.size.toNat]) (hcopies : Copies b p f s c)
  (hcomputes : Computes b p f s p.size.toNat d) (hcd : c * d = 1) (inp out : ℕ → BenchComplex ℝ)

include hdims hcopies hcomputes hcd

theorem doFft_complex (hkind : p.kind = .complex) :
    Yields (HasRoom p) (doFft b p inp out) (doFftOf (result p) inp out) := by
  have hsize : p.size.toNat = p.dims.prod := by rw [hdims, List.prod_singleton]
  refine doFft_yields (fun io => ∀ j < p.size.toNat, io.inp.complexes.cell j = inp j)
    (fun io => ∀ k < p.size.toNat, toComplex (io.pout.complexes.cell k)
      = d * RealDft.dft p.sign p.size.toNat (fun j => toComplex (inp j)) k)
    (fun io hio => ?_) (fun io hio hcell => ?_) fun io hio hcell => ?_
  · rw [hcopies.fromComplex hkind]
    simpa only [hsize] using hio.copyC2cFrom_ok hkind hsize inp
  · obtain ⟨io', hrun, hsame, hcell'⟩ := hcomputes.complex hkind io hio
    refine ⟨io', hrun, hio.of_sameBlocks hsame, fun k hk => ?_⟩
    rw [hcell' k hk]
    exact congrArg _ (RealDft.dft_congr (fun j hj => by rw [hcell j hj]) k)
  · obtain ⟨Y, hcopy, hY, hrest⟩ := copyC2cTo_ok p (hsize ▸ (hio.complexes hkind).2) out
    rw [hcopies.toComplex hkind io out Y hcopy]
    refine congrArg _ (eq_doFftOf (fun k => toComplex.injective ?_) fun k hk => ?_)
    · rw [scaled_of_lt k.isLt, hY k k.isLt, hcell k k.isLt, ← mul_assoc, ← Complex.ofReal_mul, hcd,
        Complex.ofReal_one, one_mul, result_complex inp k hkind]
    · rw [scaled, if_neg (Nat.not_lt.mpr hk), hrest k hk]

variable (hf : Plain f p.size.toNat) (hn : 0 < p.size.toNat) (hs : s = 1 ∨ s = -1)

include hf hn hs

omit hcopies hcomputes in
/-- What is read of a hermitian array that is stored up to a factor. -/
theorem copyH2c1d_scaled (hkind : p.kind = .real) {pout : Buf ℝ} (hpout : p.size.toNat ≤ pout.size)
    {X : ℕ → ℂ} (hX : ∀ k < p.size.toNat,
      X ((p.size.toNat - k) % p.size.toNat) = starRingEnd ℂ (X k))
    (hstores : Stores (f.reCell p.size.toNat) (f.imCell p.size.toNat) s p.size.toNat pout.cell
      fun k => toComplex.symm (d * X k)) :
    ∃ Y, f.copyH2c1d u32 p pout out s = .ok Y ∧
      (∀ k < p.size.toNat, toComplex (scaled c p.size.toNat Y k) = X k) ∧
      ∀ k, p.size.toNat ≤ k → scaled c p.size.toNat Y k = out k := by
  have hrank : p.rank = 1 := by rw [← p.length_dims, hdims]; rfl
  have hhead : p.dims.headD 0 = p.size.toNat := by rw [hdims]; rfl
  have hword := Format1d.keepsBelow_u32 hf.indexBound
  have hss : s * s = 1 := by
    rcases hs with rfl | rfl
    · exact one_mul 1
    · exact neg_mul_neg 1 1 |>.trans (one_mul 1)
  have hherm : Hermitian [p.size.toNat] fun k => toComplex.symm (d * X k) := by
    refine hermitian_singleton.mpr fun k hk => toComplex.injective ?_
    show _ = starRingEnd ℂ (toComplex (toComplex.symm (d * X k)))
    rw [toComplex.apply_symm_apply, toComplex.apply_symm_apply, hX k hk, map_mul,
      Complex.conj_ofReal]
  obtain ⟨Y, hcopy, hdecodes⟩ := Format1d.exists_decodes hrank hkind hhead hn hf.applies hword
    (hf.room.trans hpout) out fun h => absurd h hf.ne_unpackedRi
  have hrest := copyH2c1d_rest hhead hn hf (hf.room.trans hpout) hcopy
  refine ⟨Y, hcopy, fun k hk => ?_, fun k hk => ?_⟩
  · have hk' := hdecodes.eq_of_stores hss hherm hstores k hk
    rw [scaled_of_lt hk, ← hf.entry k, hk', toComplex.apply_symm_apply, ← mul_assoc,
      ← Complex.ofReal_mul, hcd, Complex.ofReal_one, one_mul, hf.entry]
  · rw [scaled, if_neg (Nat.not_lt.mpr hk), hrest k hk]

include hcopies hcomputes

theorem doFft_forward (hkind : p.kind = .real) (hsign : p.sign = -1) :
    Yields (HasRoom p) (doFft b p inp out) (doFftOf (result p) inp out) := by
  have hsize : p.size.toNat = p.dims.prod := by rw [hdims, List.prod_singleton]
  refine doFft_yields (fun io => ∀ j < p.size.toNat, io.inp.cell j = (inp j).re)
    (fun io => Stores (f.reCell p.size.toNat) (f.imCell p.size.toNat) s p.size.toNat io.pout.cell
      fun k => toComplex.symm
        (d * RealDft.dft (-1) p.size.toNat (fun j => ((inp j).re : ℂ)) k))
    (fun io hio => ?_) (fun io hio hcell => ?_) fun io hio hstores => ?_
  · obtain ⟨b', hcopy, hb', hcell⟩ := copyC2rPacked_ok p (hsize ▸ (hio.packed hkind).1) inp
    rw [hcopies.fromForward hkind hsign]
    obtain ⟨io', hrun, hio', rfl⟩ := hio.onIn_ok hcopy hb'
    exact ⟨io', hrun, hio', hcell⟩
  · obtain ⟨io', hrun, hsame, hstores⟩ := hcomputes.forward hkind hsign io hio
    refine ⟨io', hrun, hio.of_sameBlocks hsame, ?_⟩
    have hdft : ∀ k, RealDft.dft (-1) p.size.toNat (fun j => (io.inp.cell j : ℂ)) k
        = RealDft.dft (-1) p.size.toNat (fun j => ((inp j).re : ℂ)) k :=
      RealDft.dft_congr fun j hj => by rw [hcell j hj]
    simpa only [hdft] using hstores
  · obtain ⟨Y, hcopy, hY, hrest⟩ := copyH2c1d_scaled hdims hcd out hf hn hs hkind
      (hsize ▸ (hio.packed hkind).2)
      (fun k hk => RealDft.dft_hermitian (fun j => (inp j).re) hk) hstores
    rw [hcopies.toForward hkind hsign io out Y hcopy]
    refine congrArg _ (eq_doFftOf (fun k => toComplex.injective ?_) hrest)
    rw [hY k k.isLt, result_forward inp k hkind hsign]

omit hs in
theorem doFft_backward (hkind : p.kind = .real) (hsign : p.sign ≠ -1) :
    Yields (HasRoom p) (doFft b p inp out) (doFftOf (result p) inp out) := by
  have hsize : p.size.toNat = p.dims.prod := by rw [hdims, List.prod_singleton]
  have hrank : p.rank = 1 := by rw [← p.length_dims, hdims]; rfl
  have hhead : p.dims.headD 0 = p.size.toNat := by rw [hdims]; rfl
  refine doFft_yields (fun io => Stores (f.reCell p.size.toNat) (f.imCell p.size.toNat) s
      p.size.toNat io.inp.cell inp)
    (fun io => ∀ j < p.size.toNat, io.pout.cell j
      = d * RealDft.synthesis p.size.toNat (fun k => toComplex (inp k)) j)
    (fun io hio => ?_) (fun io hio hstores => ?_) fun io hio hcell => ?_
  · obtain ⟨b', hcopy, hb', hstores, -⟩ := Format1d.exists_stores (s := s) hrank hkind hhead hn
      hf.applies (Format1d.keepsBelow_u32 hf.indexBound)
      (hf.room.trans (hsize ▸ (hio.packed hkind).1)) inp
    rw [hcopies.fromBackward hkind hsign]
    obtain ⟨io', hrun, hio', rfl⟩ :=
      hio.onIn_ok (f := fun pin => f.copyC2h1d u32 p pin inp s) hcopy hb'
    simp only [hf.entry] at hstores
    exact ⟨io', hrun, hio', hstores⟩
  · obtain ⟨io', hrun, hsame, hcell⟩ := hcomputes.backward hkind hsign io inp hio hstores
    exact ⟨io', hrun, hio.of_sameBlocks hsame, hcell⟩
  · obtain ⟨Y, hcopy, hY, hrest⟩ := copyR2cPacked_ok p (hsize ▸ (hio.packed hkind).2) out
    rw [hcopies.toBackward hkind hsign io out Y hcopy]
    refine congrArg _ (eq_doFftOf (fun k => ?_) fun k hk => ?_)
    · rw [result_backward inp k hkind hsign, scaled, if_pos k.isLt, hY k k.isLt, hcell k k.isLt,
        ← mul_assoc, hcd, one_mul, mul_zero]
    · rw [scaled, if_neg (Nat.not_lt.mpr hk), hrest k hk]

/-- **Every `do_fft` leaves the transform of its input.** -/
theorem doFft_transform :
    Yields (HasRoom p) (doFft b p inp out) (doFftOf (result p) inp out) := by
  cases hkind : p.kind with
  | complex => exact doFft_complex hdims hcopies hcomputes hcd inp out hkind
  | real =>
    by_cases hsign : p.sign = -1
    · exact doFft_forward hdims hcopies hcomputes hcd inp out hf hn hs hkind hsign
    · exact doFft_backward hdims hcopies hcomputes hcd inp out hf hn hkind hsign

end DoFft

/-! ### The verification -/

section Verification

variable {p : Problem} (hdims : p.dims = [p.size.toNat])

include hdims

/-- The transform of the problem, in one dimension. -/
theorem transform_eq (X : ℕ → ℂ) (k : Fin p.size.toNat) :
    transform p (fun j => X j) k = RealDft.dft p.sign p.size.toNat X k := by
  rw [transform, RealDft.dft, sum_range]
  refine sum_congr rfl fun j _ => ?_
  rw [Nat.cast_ofNat, exp_digits hdims]

theorem transforms_result (hsign : p.sign = 1 ∨ p.sign = -1) : Transforms p (result p) := by
  have harray : ∀ x : Fin p.size.toNat → BenchComplex ℝ, ∃ inp : ℕ → BenchComplex ℝ,
      x = fun j : Fin p.size.toNat => inp j := fun x => ⟨Verify.padded x, (padded_apply x).symm⟩
  unfold Transforms
  cases hkind : p.kind with
  | complex =>
    intro x k
    obtain ⟨inp, rfl⟩ := harray x
    rw [result_complex inp k hkind, ← transform_eq hdims, transform]
    simp only [Nat.cast_ofNat]
  | real =>
    split_ifs with h
    · intro x k
      obtain ⟨inp, rfl⟩ := harray x
      rw [result_forward inp k hkind h, ← h, ← transform_eq hdims]
    · constructor
      · intro a b x y k
        obtain ⟨inp, rfl⟩ := harray x
        obtain ⟨inp', rfl⟩ := harray y
        rw [result_backward inp k hkind h, result_backward inp' k hkind h,
          result_backward (fun j => ⟨a * (inp j).re + b * (inp' j).re,
            a * (inp j).im + b * (inp' j).im⟩) k hkind h,
          RealDft.synthesis_combine _ fun j _ => toComplex_combine a b (inp j) (inp' j), mul_zero,
          mul_zero, add_zero]
      · intro x hx k
        obtain ⟨inp, rfl⟩ := harray x
        have hn : 0 < p.size.toNat := Nat.zero_lt_of_lt k.isLt
        have hherm : ∀ j < p.size.toNat, toComplex (inp ((p.size.toNat - j) % p.size.toNat))
            = starRingEnd ℂ (toComplex (inp j)) := by
          intro j hj
          have hneg := hx ⟨_, Nat.mod_lt _ hn⟩ ⟨j, hj⟩ (by rw [hdims, negIdx_singleton hj])
          exact congrArg toComplex hneg
        have htransform := transform_eq hdims (fun j => toComplex (inp j)) k
        rw [hsign.resolve_right h, RealDft.dft_one_eq_synthesis hherm hn] at htransform
        rw [result_backward inp k hkind h]
        exact htransform.symm

omit hdims in
/-- A parsed problem of one dimension. -/
theorem dims_of_rank_one {str : List Char} (h : problemParse str = .ok p) (hrank : p.rank = 1) :
    p.dims = [p.size.toNat] := by
  obtain ⟨d, rest, hread⟩ := (exists_reads str).resolve_left (by rw [h]; exact nofun)
  rw [problemParse_reads hread] at h
  split_ifs at h
  rw [Except.ok.injEq] at h
  subst h
  obtain ⟨n, hn⟩ := List.length_eq_one_iff.mp hrank
  have hstored : stored d.sizes.numerals = [n] := hn
  show (stored d.sizes.numerals).map UInt32.toNat
    = [((stored d.sizes.numerals).foldl (· * ·) 1).toNat]
  rw [hstored, List.foldl_cons, List.foldl_nil, UInt32.one_mul]
  rfl

/-- **A one-dimensional benchee passes its verification**, if its package computes transforms in the
format that its copies use. -/
theorem verify_oneDim {b : Benchee ℝ} {f : Format1d} {s c d : ℝ} {str : List Char}
    {sizeofReal : UInt64} (hparse : problemParse str = .ok p)
    (hvsize : p.vsize.toNat = p.vdims.prod) (hpos : 1 ≤ sizeofReal.toNat)
    (hle : sizeofReal.toNat ≤ 16) (hexact : AllocExact sizeofReal p) (hcan : b.canDo p)
    (hsetup : ∀ io, HasRoom p io → ∃ io', b.setup p io = .ok io' ∧ HasRoom p io')
    (hf : Plain f p.size.toNat) (hs : s = 1 ∨ s = -1) (hcopies : Copies b p f s c)
    (hcomputes : Computes b p f s p.size.toNat d) (hcd : c * d = 1) :
    ∃ F, Transforms p F ∧ ∀ tol, 0 ≤ tol → ∀ inCell outCell ds w,
      Passes (doVerify p (doFftOf F) exactTrig ds w)
        (verify b sizeofReal exactTrig tol str inCell outCell ds w) := by
  obtain ⟨hp, -, -⟩ := problemParse_intDims hparse
  have hsign := problemParse_sign hparse
  have hsize : p.size.toNat = p.dims.prod := by rw [hdims, List.prod_singleton]
  have hn : 0 < p.size.toNat := hp.pos _ (hdims ▸ List.mem_singleton_self _)
  have hF := transforms_result hdims hsign
  exact ⟨result p, hF, fun tol htol => verify_passes hparse hsize hvsize hpos hle hexact hcan hsetup
    hF (fun inp out => doFft_transform hdims hcopies hcomputes hcd inp out hf hn hs) htol⟩

end Verification

end OneDim

end BenchFFT
