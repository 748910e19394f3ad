import BenchFFT.Problem.Copy1d
import BenchFFT.Problem.Equiv.CopyUnpacked
import Mathlib.Algebra.Field.Defs
import Mathlib.Algebra.Order.Ring.Rat
import Mathlib.Tactic.LinearCombination

/-!
# The one-dimensional hermitian formats

Each format keeps the real part of entry `k` in a cell `re k` and its imaginary part, times the
sign, in a cell `im k`, for the entries up to the middle (`Stores`); decoding reads them and fills
the other half with conjugates (`Decodes`).
-/

namespace BenchFFT

variable {R : Type*}

/-- `word` keeps the numbers up to `m`. -/
def KeepsBelow (word : ℕ → ℕ) (m : ℕ) : Prop := ∀ x ≤ m, word x = x

section Layout

variable [Field R] (re im : ℕ → ℕ) (s : R) (n : ℕ)

/-- The cells `c` hold the array `X`. -/
structure Stores (c : ℕ → R) (X : ℕ → BenchComplex R) : Prop where
  re : ∀ k, 2 * k ≤ n → c (re k) = (X k).re
  im : ∀ k, 0 < k → 2 * k < n → c (im k) = -s * (X k).im

/-- The array `Y` is what the cells `c` say, and hermitian. -/
structure Decodes (c : ℕ → R) (Y : ℕ → BenchComplex R) : Prop where
  low : ∀ k < n, 2 * k ≤ n → Y k = ⟨c (re k), if 0 < k ∧ 2 * k < n then -s * c (im k) else 0⟩
  high : ∀ k < n, n < 2 * k → Y k = conj (Y (n - k))

variable {re im s n}

theorem negIdx_singleton {k : ℕ} (hk : k < n) : RowMajor.negIdx [n] k = (n - k) % n := by
  have h := RowMajor.negIdx_append (n := []) nofun hk 0
  rwa [List.nil_append, Nat.zero_mul, Nat.zero_add, RowMajor.negIdx, Nat.zero_mul,
    Nat.zero_add] at h

theorem hermitian_singleton {X : ℕ → BenchComplex R} :
    Hermitian [n] X ↔ ∀ k < n, X ((n - k) % n) = conj (X k) := by
  rw [Hermitian, List.prod_singleton]
  exact forall₂_congr fun k hk => by rw [negIdx_singleton hk]

theorem im_eq_zero_of_conj [NeZero (2 : R)] {a : BenchComplex R} (h : a = conj a) : a.im = 0 := by
  have him := congrArg BenchComplex.im h
  rw [conj] at him
  have h2 : 2 * a.im = 0 := by linear_combination him
  exact (mul_eq_zero.mp h2).resolve_left two_ne_zero

/-- An entry that is its own mirror image is real. -/
theorem im_eq_zero [NeZero (2 : R)] {X : ℕ → BenchComplex R} (hX : Hermitian [n] X) {k : ℕ}
    (hk : k < n) (hmid : (n - k) % n = k) : (X k).im = 0 := by
  have h := hermitian_singleton.mp hX k hk
  rw [hmid] at h
  exact im_eq_zero_of_conj h

/-- Decoding what was stored. -/
theorem Decodes.eq_of_stores [NeZero (2 : R)] (hs : s * s = 1) {c : ℕ → R}
    {X Y : ℕ → BenchComplex R}
    (hX : Hermitian [n] X) (hc : Stores re im s n c X) (hY : Decodes re im s n c Y) :
    ∀ k < n, Y k = X k := by
  -- up to the middle, entry by entry; then by symmetry
  have hlow : ∀ k < n, 2 * k ≤ n → Y k = X k := by
    intro k hk h
    have him : (if 0 < k ∧ 2 * k < n then -s * c (im k) else 0) = (X k).im := by
      split_ifs with hin
      · rw [hc.im k hin.1 hin.2, ← mul_assoc, neg_mul_neg, hs, one_mul]
      · refine (im_eq_zero hX hk ?_).symm
        rcases Nat.eq_zero_or_pos k with rfl | hpos
        · rw [Nat.sub_zero, Nat.mod_self]
        · rw [Nat.mod_eq_of_lt (by omega)]
          omega
    rw [hY.low k hk h, hc.re k h, him]
  intro k hk
  rcases Nat.lt_or_ge n (2 * k) with h | h
  · have hmirror := hermitian_singleton.mp hX (n - k) (by omega)
    rw [Nat.sub_sub_self hk.le, Nat.mod_eq_of_lt hk] at hmirror
    rw [hY.high k hk h, hlow (n - k) (by omega) (by omega), hmirror]
  · exact hlow k hk h

theorem Decodes.hermitian {c : ℕ → R} {Y : ℕ → BenchComplex R} (hY : Decodes re im s n c Y) :
    Hermitian [n] Y := by
  refine hermitian_singleton.mpr fun k hk => ?_
  -- the first and the middle entry are read as real
  have hreal : ∀ j < n, 2 * j ≤ n → ¬(0 < j ∧ 2 * j < n) → Y j = conj (Y j) := by
    intro j hj hle hmid
    rw [hY.low j hj hle, if_neg hmid, conj, neg_zero]
  rcases Nat.eq_zero_or_pos k with rfl | hpos
  · rw [Nat.sub_zero, Nat.mod_self]
    exact hreal 0 hk (Nat.zero_le _) (by omega)
  · rw [Nat.mod_eq_of_lt (by omega)]
    rcases lt_trichotomy (2 * k) n with h | h | h
    · rw [hY.high (n - k) (by omega) (by omega), Nat.sub_sub_self hk.le]
    · rw [show n - k = k by omega]
      exact hreal k hk h.le (by omega)
    · rw [hY.high k hk h, conj, conj, neg_neg]

/-- The cells hold what they say. -/
theorem Decodes.stores (hs : s * s = 1) (hn : 0 < n) {c : ℕ → R} {Y : ℕ → BenchComplex R}
    (hY : Decodes re im s n c Y) : Stores re im s n c Y := by
  refine ⟨fun k h => ?_, fun k h0 h => ?_⟩
  · rw [hY.low k (by omega) h]
  · rw [hY.low k (by omega) h.le, if_pos ⟨h0, h⟩, ← mul_assoc, neg_mul_neg, hs, one_mul]

/-- Storing what was decoded. -/
theorem Decodes.eq_of_restored (hs : s * s = 1) {c c' : ℕ → R} {Y : ℕ → BenchComplex R}
    (hY : Decodes re im s n c Y) (hc : Stores re im s n c' Y) :
    (∀ k < n, 2 * k ≤ n → c' (re k) = c (re k)) ∧
      ∀ k, 0 < k → 2 * k < n → c' (im k) = c (im k) := by
  refine ⟨fun k hk h => ?_, fun k h0 h => ?_⟩
  · rw [hc.re k h, (hY.stores hs (by omega)).re k h]
  · rw [hc.im k h0 h, (hY.stores hs (by omega)).im k h0 h]

end Layout

/-! ### The formats -/

/-- The formats; `packed` has the strides of its two arrays. -/
inductive Format1d where
  | fftpack
  | halfcomplex
  | packed (rstride cstride : ℕ)
  | unpackedRi

namespace Format1d

/-- The routine that writes the format. -/
def copyC2h1d [Mul R] [Neg R] (word : ℕ → ℕ) (p : Problem) :
    Format1d → Buf R → (ℕ → BenchComplex R) → R → Except Abort (Buf R)
  | fftpack => copyC2h1dFftpack word p
  | halfcomplex => copyC2h1dHalfcomplex word p
  | packed rstride cstride => fun pin inp s =>
    copyC2h1dPackedStrided word (p.dims.headD 0) pin rstride inp cstride s
  | unpackedRi => copyC2h1dUnpackedRi word p

/-- The routine that reads the format. -/
def copyH2c1d [Mul R] [Neg R] [Zero R] (word : ℕ → ℕ) (p : Problem) :
    Format1d → Buf R → (ℕ → BenchComplex R) → R → Except Abort (ℕ → BenchComplex R)
  | fftpack => copyH2c1dFftpack word p
  | halfcomplex => copyH2c1dHalfcomplex word p
  | packed rstride cstride => fun pout out s =>
    copyH2c1dPackedStrided word (p.dims.headD 0) pout rstride out cstride s
  | unpackedRi => copyH2c1dUnpackedRi word p

/-- The place of entry `k` of the complex array. -/
def entry : Format1d → ℕ → ℕ
  | fftpack, k | halfcomplex, k | unpackedRi, k => k
  | packed _ cstride, k => k * cstride

/-- The cell of the real number `i` of the format. -/
def cell : Format1d → ℕ → ℕ
  | fftpack, i | halfcomplex, i | unpackedRi, i => i
  | packed rstride _, i => i * rstride

/-- The cells that the format takes for `n` entries. -/
def room : Format1d → ℕ → ℕ
  | fftpack, n | halfcomplex, n => n
  | packed rstride _, n => (n - 1) * rstride + 1
  | unpackedRi, n => 2 * (n / 2 + 1)

/-- `packed` is for even sizes and positive strides. -/
def Applies : Format1d → ℕ → Prop
  | fftpack, _ | halfcomplex, _ | unpackedRi, _ => True
  | packed rstride cstride, n => n % 2 = 0 ∧ 0 < rstride ∧ 0 < cstride

/-- A bound of the indices that are computed in `unsigned int`. -/
def indexBound : Format1d → ℕ → ℕ
  | fftpack, n | halfcomplex, n | unpackedRi, n => n + 1
  | packed rstride cstride, n => n * max rstride cstride

/-- The cell of the real part of entry `k`. -/
def reCell : Format1d → ℕ → ℕ → ℕ
  | fftpack, _, k => 2 * k - 1
  | halfcomplex, _, k | unpackedRi, _, k => k
  | packed rstride _, n, k => if 2 * k = n then rstride else 2 * k * rstride

/-- The cell of the imaginary part of entry `k`. -/
def imCell : Format1d → ℕ → ℕ → ℕ
  | fftpack, _, k => 2 * k
  | halfcomplex, n, k => n - k
  | packed rstride _, _, k => (2 * k + 1) * rstride
  | unpackedRi, n, k => n / 2 + 1 + k

/-! ### Writing -/

/-- The real part of entry `0`, then the entries of the first half, then the middle one. -/
theorem stores_of_loop [Field R] (re im : ℕ → ℕ) {n steps : ℕ} (hsteps : steps = (n + 1) / 2 - 1)
    (hre : ∀ i j, 2 * i ≤ n → 2 * j ≤ n → re i = re j → i = j)
    (him : ∀ i j, 2 * i < n → 2 * j < n → im i = im j → i = j)
    (hdisj : ∀ i j, 2 * i ≤ n → 0 < j → 2 * j < n → re i ≠ im j) (X : ℕ → BenchComplex R) (s : R)
    (c : ℕ → R) :
    Stores re im s n
      (let B := forRange steps (fun j A => Function.update
          (Function.update A (re (j + 1)) (X (j + 1)).re) (im (j + 1)) (-s * (X (j + 1)).im))
          (Function.update c (re 0) (X 0).re)
        if 2 * (steps + 1) = n then Function.update B (re (steps + 1)) (X (steps + 1)).re
        else B) X := by
  obtain ⟨B, hB, hreal, himag, hother⟩ := forRange_update_pair (m := steps)
    (p := fun j => re (j + 1)) (q := fun j => im (j + 1)) (fun j => (X (j + 1)).re)
    (fun j => -s * (X (j + 1)).im)
    (fun i hi j hj h => Nat.succ.inj (hre _ _ (by omega) (by omega) h))
    (fun i hi j hj h => Nat.succ.inj (him _ _ (by omega) (by omega) h))
    (fun i hi j hj h => absurd h (hdisj _ _ (by omega) (by omega) (by omega)))
    (Function.update c (re 0) (X 0).re)
  simp only [hB]
  have h0 : B (re 0) = (X 0).re := by
    rw [hother _ fun j hj => ⟨fun h => ?_, hdisj _ _ (by omega) (by omega) (by omega)⟩,
      Function.update_self]
    exact absurd (hre _ _ (by omega) (by omega) h) (by omega)
  have hre' : ∀ k, 2 * k < n → B (re k) = (X k).re := fun k h => by
    rcases Nat.eq_zero_or_pos k with rfl | hk0
    · exact h0
    · obtain ⟨j, rfl⟩ := Nat.exists_eq_add_of_le' hk0
      exact hreal j (by omega) (hdisj _ _ (by omega) (by omega) (by omega))
  have him' : ∀ k, 0 < k → 2 * k < n → B (im k) = -s * (X k).im := fun k hk0 h => by
    obtain ⟨j, rfl⟩ := Nat.exists_eq_add_of_le' hk0
    exact himag j (by omega)
  split_ifs with heven
  · -- the middle entry has a cell of its own
    refine ⟨fun k hk => ?_, fun k hk0 hk => ?_⟩
    · by_cases hmid : k = steps + 1
      · rw [hmid, Function.update_self]
      · rw [Function.update_of_ne fun h => hmid (hre _ _ hk (by omega) h)]
        exact hre' k (by omega)
    · rw [Function.update_of_ne fun h => hdisj _ _ (by omega) hk0 hk h.symm]
      exact him' k hk0 hk
  · refine ⟨fun k hk => ?_, him'⟩
    rcases Nat.eq_zero_or_pos k with rfl | hk0
    · exact h0
    · exact hre' k (by omega)

section Writing

variable [Field R] {word : ℕ → ℕ} {p : Problem} (hrank : p.rank = 1) (hkind : p.kind = .real)
  {n : ℕ} (hdims : p.dims.headD 0 = n) (hn : 0 < n) (X : ℕ → BenchComplex R) (s : R) {m : ℕ}

include hrank hkind hdims hn

theorem fftpack_stores (hword : KeepsBelow word (n + 1)) (hm : n ≤ m) :
    ∃ g, Buf.Runs m (fun pin => copyC2h1dFftpack word p pin X s) g ∧
      ∀ c, Stores (fftpack.reCell n) (fftpack.imCell n) s n (g c) X := by
  obtain ⟨steps, hsteps⟩ : ∃ steps, steps = (n + 1) / 2 - 1 := ⟨_, rfl⟩
  have hruns := (Buf.Runs.write (m := m) (i := 0) (by omega) (X 0).re).bind
    ((Buf.Runs.forRangeM (n := steps) fun j hj =>
      (Buf.Runs.write (m := m) (i := 2 * j + 1) (by omega) (X (j + 1)).re).bind
        (Buf.Runs.write (i := 2 * j + 2) (by omega) (-s * (X (j + 1)).im))).bind
      (Buf.Runs.ite (2 * (steps + 1) = n)
        (fun h => Buf.Runs.write (i := 2 * steps + 1) (by omega) (X (steps + 1)).re)
        fun _ => Buf.Runs.pure))
  have hrun : (fun pin => copyC2h1dFftpack word p pin X s) = fun pin : Buf R =>
      pin.write 0 (X 0).re >>= fun pin => forRangeM steps (fun j pin =>
        pin.write (2 * j + 1) (X (j + 1)).re >>= fun pin =>
          pin.write (2 * j + 2) (-s * (X (j + 1)).im)) pin >>= fun pin =>
        if 2 * (steps + 1) = n then pin.write (2 * steps + 1) (X (steps + 1)).re else .ok pin := by
    funext pin
    rw [copyC2h1dFftpack, benchAssert, benchAssert, if_pos hrank, if_pos hkind, hdims]
    dsimp only
    rw [hword (n + 1) le_rfl, ← hsteps, hword (2 * (steps + 1)) (by omega)]
    rfl
  rw [hrun]
  exact ⟨_, hruns, fun c => stores_of_loop (fftpack.reCell n) (fftpack.imCell n) hsteps
    (by simp only [reCell]; omega) (by simp only [imCell]; omega)
    (by simp only [reCell, imCell]; omega) X s c⟩

theorem halfcomplex_stores (hword : KeepsBelow word (n + 1)) (hm : n ≤ m) :
    ∃ g, Buf.Runs m (fun pin => copyC2h1dHalfcomplex word p pin X s) g ∧
      ∀ c, Stores (halfcomplex.reCell n) (halfcomplex.imCell n) s n (g c) X := by
  obtain ⟨steps, hsteps⟩ : ∃ steps, steps = (n + 1) / 2 - 1 := ⟨_, rfl⟩
  have hruns := (Buf.Runs.write (m := m) (i := 0) (by omega) (X 0).re).bind
    ((Buf.Runs.forRangeM (n := steps) fun j hj =>
      (Buf.Runs.write (m := m) (i := j + 1) (by omega) (X (j + 1)).re).bind
        (Buf.Runs.write (i := n - (j + 1)) (by omega) (-s * (X (j + 1)).im))).bind
      (Buf.Runs.ite (2 * (steps + 1) = n)
        (fun h => Buf.Runs.write (i := steps + 1) (by omega) (X (steps + 1)).re)
        fun _ => Buf.Runs.pure))
  have hrun : (fun pin => copyC2h1dHalfcomplex word p pin X s) = fun pin : Buf R =>
      pin.write 0 (X 0).re >>= fun pin => forRangeM steps (fun j pin =>
        pin.write (j + 1) (X (j + 1)).re >>= fun pin =>
          pin.write (n - (j + 1)) (-s * (X (j + 1)).im)) pin >>= fun pin =>
        if 2 * (steps + 1) = n then pin.write (steps + 1) (X (steps + 1)).re else .ok pin := by
    funext pin
    rw [copyC2h1dHalfcomplex, benchAssert, benchAssert, if_pos hrank, if_pos hkind, hdims]
    dsimp only
    rw [hword (n + 1) le_rfl, ← hsteps, hword (2 * (steps + 1)) (by omega), if_pos hn]
    rfl
  rw [hrun]
  exact ⟨_, hruns, fun c => stores_of_loop (halfcomplex.reCell n) (halfcomplex.imCell n) hsteps
    (by simp only [reCell]; omega) (by simp only [imCell]; omega)
    (by simp only [reCell, imCell]; omega) X s c⟩

theorem unpackedRi_stores (hword : KeepsBelow word (n + 1)) (hm : 2 * (n / 2 + 1) ≤ m) :
    ∃ g, Buf.Runs m (fun pin => copyC2h1dUnpackedRi word p pin X s) g ∧
      ∀ c, Stores (unpackedRi.reCell n) (unpackedRi.imCell n) s n (g c) X ∧
        ∀ k, 2 * k ≤ n → g c (unpackedRi.imCell n k) = -s * (X k).im := by
  have hruns := Buf.Runs.forRangeM (n := 1 + n / 2) fun k hk =>
    (Buf.Runs.write (m := m) (i := k) (by omega) (X k).re).bind
      (Buf.Runs.write (i := n / 2 + 1 + k) (by omega) (-s * (X k).im))
  have hrun : (fun pin => copyC2h1dUnpackedRi word p pin X s) = fun pin : Buf R =>
      forRangeM (1 + n / 2) (fun k pin => pin.write k (X k).re >>= fun pin =>
        pin.write (n / 2 + 1 + k) (-s * (X k).im)) pin := by
    funext pin
    rw [copyC2h1dUnpackedRi, benchAssert, benchAssert, if_pos hrank, if_pos hkind, hdims]
    dsimp only
    rw [hword (1 + n / 2) (by omega)]
    rfl
  rw [hrun]
  refine ⟨_, hruns, fun c => ?_⟩
  obtain ⟨B, hB, hre, him, -⟩ := forRange_update_pair (m := 1 + n / 2) (p := (·))
    (q := (n / 2 + 1 + ·)) (fun k => (X k).re) (fun k => -s * (X k).im)
    (by omega) (by omega) (by omega) c
  rw [hB]
  exact ⟨⟨fun k hk => hre k (by omega) (by omega), fun k _ hk => him k (by omega)⟩,
    fun k hk => him k (by omega)⟩

end Writing

/-! ### Strides -/

section Strides

variable {word : ℕ → ℕ} {n rstride cstride x : ℕ}

theorem mul_lt_of_room {m : ℕ} (hx : x < n) (hm : (n - 1) * rstride + 1 ≤ m) : x * rstride < m := by
  have := Nat.mul_le_mul_right rstride (Nat.le_sub_one_of_lt hx)
  omega

variable (hword : KeepsBelow word (n * max rstride cstride))

include hword

theorem KeepsBelow.mul_left (hx : x ≤ n) : word (x * rstride) = x * rstride :=
  hword _ (Nat.mul_le_mul hx (le_max_left _ _))

theorem KeepsBelow.mul_right (hx : x ≤ n) : word (x * cstride) = x * cstride :=
  hword _ (Nat.mul_le_mul hx (le_max_right _ _))

theorem KeepsBelow.index (hr : 0 < rstride) (hx : x ≤ n) : word x = x :=
  hword _ (hx.trans (Nat.le_mul_of_pos_right n (lt_max_of_lt_left hr)))

end Strides

section WritingPacked

variable [Field R] {word : ℕ → ℕ} {n rstride cstride : ℕ} (X : ℕ → BenchComplex R) (s : R) {m : ℕ}

/-- `copy_c2h_1d_packed_strided`, where no index wraps around. -/
theorem copyC2h1dPackedStrided_eq (hn : 0 < n) (heven : n % 2 = 0) (hr : 0 < rstride)
    (hword : KeepsBelow word (n * max rstride cstride)) :
    (fun pin => copyC2h1dPackedStrided word n pin rstride X cstride s) =
      fun pin : Buf R => forRangeM (n / 2) (fun k pin =>
        pin.write (2 * k * rstride) (X (k * cstride)).re >>= fun pin =>
          pin.write ((2 * k + 1) * rstride) (-s * (X (k * cstride)).im)) pin >>= fun pin =>
        pin.write rstride (X (n / 2 * cstride)).re := by
  funext pin
  rw [copyC2h1dPackedStrided, benchAssert, if_pos heven]
  have hhalf : n / 2 > 0 := by omega
  simp only [if_pos hhalf, KeepsBelow.mul_right hword (Nat.div_le_self n 2)]
  refine congrArg (· >>= fun pin : Buf R => pin.write rstride (X (n / 2 * cstride)).re) ?_
  refine forRangeM_congr (fun k hk => ?_) pin
  funext pin
  have hre : 2 * k ≤ n := by omega
  have him : 2 * k + 1 ≤ n := by omega
  rw [KeepsBelow.index hword hr hre, KeepsBelow.index hword hr him,
    KeepsBelow.mul_left hword hre, KeepsBelow.mul_left hword him,
    KeepsBelow.mul_right hword (by omega : k ≤ n)]

theorem packed_stores (hn : 0 < n) (heven : n % 2 = 0) (hr : 0 < rstride)
    (hword : KeepsBelow word (n * max rstride cstride)) (hm : (n - 1) * rstride + 1 ≤ m) :
    ∃ g, Buf.Runs m (fun pin => copyC2h1dPackedStrided word n pin rstride X cstride s) g ∧
      ∀ c, Stores ((packed rstride cstride).reCell n) ((packed rstride cstride).imCell n) s n (g c)
        fun k => X (k * cstride) := by
  have hcell : ∀ x < n, x * rstride < m := fun x hx => mul_lt_of_room hx hm
  have hruns := (Buf.Runs.forRangeM (n := n / 2) fun k hk =>
    (Buf.Runs.write (m := m) (i := 2 * k * rstride) (hcell _ (by omega)) (X (k * cstride)).re).bind
      (Buf.Runs.write (i := (2 * k + 1) * rstride) (hcell _ (by omega))
        (-s * (X (k * cstride)).im))).bind
    (Buf.Runs.write (m := m) (i := rstride) (by simpa using hcell 1 (by omega))
      (X (n / 2 * cstride)).re)
  rw [copyC2h1dPackedStrided_eq X s hn heven hr hword]
  refine ⟨_, hruns, fun c => ?_⟩
  have hinj : ∀ x y, x * rstride = y * rstride → x = y := fun x y => Nat.eq_of_mul_eq_mul_right hr
  obtain ⟨B, hB, hre, him, -⟩ := forRange_update_pair (m := n / 2) (p := fun k => 2 * k * rstride)
    (q := fun k => (2 * k + 1) * rstride) (fun k => (X (k * cstride)).re)
    (fun k => -s * (X (k * cstride)).im)
    (fun i _ j _ h => by have := hinj _ _ h; omega) (fun i _ j _ h => by have := hinj _ _ h; omega)
    (fun i _ j _ h => by have := hinj _ _ h; omega) c
  have hne : ∀ x, x ≠ 1 → x * rstride ≠ rstride := fun x hx h => hx (hinj x 1 (by omega))
  rw [hB]
  refine ⟨fun k hk => ?_, fun k hk0 hk => ?_⟩
  · rw [reCell]
    split_ifs with hmid
    · rw [Function.update_self, show k = n / 2 by omega]
    · rw [Function.update_of_ne (hne _ (by omega))]
      exact hre k (by omega) fun h => by have := hinj _ _ h; omega
  · rw [imCell, Function.update_of_ne (hne _ (by omega))]
    exact him k (by omega)

end WritingPacked

/-! ### Reading -/

/-- The entries `0`, then both halves, then the middle one. -/
theorem decodes_of_loop [Field R] (re im : ℕ → ℕ) (s : R) {n steps : ℕ}
    (hsteps : steps = (n + 1) / 2 - 1) (c : ℕ → R) (Y₀ : ℕ → BenchComplex R) :
    Decodes re im s n c
      (let B := forRange steps (fun j A => Function.update (Function.update A (j + 1)
          ⟨c (re (j + 1)), -s * c (im (j + 1))⟩) (n - (j + 1))
          ⟨c (re (j + 1)), -(-s * c (im (j + 1)))⟩) (Function.update Y₀ 0 ⟨c (re 0), 0⟩)
        if 2 * (steps + 1) = n then Function.update B (steps + 1) ⟨c (re (steps + 1)), 0⟩
        else B) := by
  obtain ⟨B, hB, hlow, hhigh, hother⟩ := forRange_update_pair (m := steps) (p := (· + 1))
    (q := fun j => n - (j + 1))
    (fun j => (⟨c (re (j + 1)), -s * c (im (j + 1))⟩ : BenchComplex R))
    (fun j => ⟨c (re (j + 1)), -(-s * c (im (j + 1)))⟩)
    (by omega) (by omega) (by omega) (Function.update Y₀ 0 ⟨c (re 0), 0⟩)
  simp only [hB]
  have h0 : B 0 = ⟨c (re 0), 0⟩ := by
    rw [hother 0 (by omega), Function.update_self]
  have hlow' : ∀ k, 0 < k → 2 * k < n → B k = ⟨c (re k), -s * c (im k)⟩ := fun k hk0 h => by
    obtain ⟨j, rfl⟩ := Nat.exists_eq_add_of_le' hk0
    exact hlow j (by omega) (by omega)
  have hhigh' : ∀ k < n, n < 2 * k → B k = conj (B (n - k)) := fun k hk h => by
    obtain ⟨j, hj⟩ : ∃ j, n - k = j + 1 := ⟨n - k - 1, by omega⟩
    have hkj : k = n - (j + 1) := by omega
    rw [hlow' (n - k) (by omega) (by omega), hj, conj, hkj]
    exact hhigh j (by omega)
  split_ifs with heven
  · refine ⟨fun k hk h => ?_, fun k hk h => ?_⟩
    · rcases Nat.lt_or_ge (2 * k) n with hlt | hge
      · rw [Function.update_of_ne (by omega)]
        rcases Nat.eq_zero_or_pos k with rfl | hk0
        · rw [h0, if_neg (by omega)]
        · rw [hlow' k hk0 hlt, if_pos ⟨hk0, hlt⟩]
      · rw [show k = steps + 1 by omega, Function.update_self, if_neg (by omega)]
    · rw [Function.update_of_ne (by omega), Function.update_of_ne (by omega)]
      exact hhigh' k hk h
  · refine ⟨fun k hk h => ?_, hhigh'⟩
    rcases Nat.eq_zero_or_pos k with rfl | hk0
    · rw [h0, if_neg (by omega)]
    · rw [hlow' k hk0 (by omega), if_pos ⟨hk0, by omega⟩]

section Reading

variable [Field R] {word : ℕ → ℕ} {p : Problem} (hrank : p.rank = 1) (hkind : p.kind = .real)
  {n : ℕ} (hdims : p.dims.headD 0 = n) (hn : 0 < n) (Y₀ : ℕ → BenchComplex R) (s : R) {pout : Buf R}

include hrank hkind hdims hn

theorem fftpack_decodes (hword : KeepsBelow word (n + 1)) (hpout : n ≤ pout.size) :
    ∃ Y, copyH2c1dFftpack word p pout Y₀ s = .ok Y ∧
      Decodes (fftpack.reCell n) (fftpack.imCell n) s n pout.cell Y := by
  obtain ⟨steps, hsteps⟩ : ∃ steps, steps = (n + 1) / 2 - 1 := ⟨_, rfl⟩
  refine ⟨_, ?_, decodes_of_loop (fftpack.reCell n) (fftpack.imCell n) s hsteps pout.cell Y₀⟩
  have hloop := forRangeM_ok (n := steps) (f := fun j out => do
      let re ← pout.read (2 * j + 1)
      let im ← pout.read (2 * j + 2)
      let a : BenchComplex R := ⟨re, -s * im⟩
      let out := Function.update out (j + 1) a
      return Function.update out (n - (j + 1)) ⟨a.re, -a.im⟩)
    (fun j hj out => by
      rw [Buf.read_ok (by omega : 2 * j + 1 < pout.size),
        Buf.read_ok (by omega : 2 * j + 2 < pout.size)]
      rfl) (Function.update Y₀ 0 ⟨pout.cell 0, 0⟩)
  rw [copyH2c1dFftpack, benchAssert, benchAssert, if_pos hrank, if_pos hkind, hdims]
  dsimp only
  rw [hword (n + 1) le_rfl, ← hsteps, hword (2 * (steps + 1)) (by omega),
    Buf.read_ok (by omega : 0 < pout.size)]
  change (forRangeM (m := Except Abort) steps _ _ >>= _) = _
  rw [hloop]
  change (if 2 * (steps + 1) = n then _ else _) = _
  simp only [reCell, imCell]
  split_ifs with heven
  · rw [Buf.read_ok (by omega : 2 * steps + 1 < pout.size)]
    rfl
  · rfl

theorem halfcomplex_decodes (hword : KeepsBelow word (n + 1)) (hpout : n ≤ pout.size) :
    ∃ Y, copyH2c1dHalfcomplex word p pout Y₀ s = .ok Y ∧
      Decodes (halfcomplex.reCell n) (halfcomplex.imCell n) s n pout.cell Y := by
  obtain ⟨steps, hsteps⟩ : ∃ steps, steps = (n + 1) / 2 - 1 := ⟨_, rfl⟩
  refine ⟨_, ?_,
    decodes_of_loop (halfcomplex.reCell n) (halfcomplex.imCell n) s hsteps pout.cell Y₀⟩
  have hloop := forRangeM_ok (n := steps) (f := fun j out => do
      let re ← pout.read (j + 1)
      let im ← pout.read (n - (j + 1))
      let a : BenchComplex R := ⟨re, -s * im⟩
      let out := Function.update out (j + 1) a
      return Function.update out (n - (j + 1)) ⟨a.re, -a.im⟩)
    (fun j hj out => by
      rw [Buf.read_ok (by omega : j + 1 < pout.size),
        Buf.read_ok (by omega : n - (j + 1) < pout.size)]
      rfl) (Function.update Y₀ 0 ⟨pout.cell 0, 0⟩)
  rw [copyH2c1dHalfcomplex, benchAssert, benchAssert, if_pos hrank, if_pos hkind, hdims]
  dsimp only
  rw [hword (n + 1) le_rfl, ← hsteps, hword (2 * (steps + 1)) (by omega), if_pos hn,
    Buf.read_ok (by omega : 0 < pout.size)]
  change (forRangeM (m := Except Abort) steps _ _ >>= _) = _
  rw [hloop]
  change (if 2 * (steps + 1) = n then _ else _) = _
  simp only [reCell, imCell]
  split_ifs with heven
  · rw [Buf.read_ok (by omega : steps + 1 < pout.size)]
    rfl
  · rfl

theorem copyH2c1dUnpackedRi_eq (hword : KeepsBelow word (n + 1))
    (hpout : 2 * (n / 2 + 1) ≤ pout.size) {c : ℕ → R} (hc : c = pout.cell) :
    copyH2c1dUnpackedRi word p pout Y₀ s =
      .ok (forRange (n / 2) (fun j A => Function.update (Function.update A (j + 1)
          ⟨c (j + 1), -s * c (n / 2 + 1 + (j + 1))⟩) (n - (j + 1))
          ⟨c (j + 1), s * c (n / 2 + 1 + (j + 1))⟩)
        (Function.update Y₀ 0 ⟨c 0, -s * c (n / 2 + 1)⟩)) := by
  rw [copyH2c1dUnpackedRi, benchAssert, benchAssert, if_pos hrank, if_pos hkind, hdims]
  dsimp only
  rw [hword (1 + n / 2) (by omega), Nat.add_sub_cancel_left, if_pos hn,
    Buf.read_ok (by omega : 0 < pout.size), Buf.read_ok (by omega : n / 2 + 1 < pout.size), ← hc]
  refine forRangeM_ok (fun j hj out => ?_) _
  rw [Buf.read_ok (by omega : j + 1 < pout.size),
    Buf.read_ok (by omega : n / 2 + 1 + (j + 1) < pout.size), hc]
  rfl

/-- What is read where the imaginary parts of the first and the middle entry are `0`. -/
theorem unpackedRi_decodes (hword : KeepsBelow word (n + 1)) (hpout : 2 * (n / 2 + 1) ≤ pout.size)
    (hreal : ∀ k, k = 0 ∨ 2 * k = n → pout.cell (unpackedRi.imCell n k) = 0) :
    ∃ Y, copyH2c1dUnpackedRi word p pout Y₀ s = .ok Y ∧
      Decodes (unpackedRi.reCell n) (unpackedRi.imCell n) s n pout.cell Y := by
  obtain ⟨c, hc⟩ : ∃ c, c = pout.cell := ⟨_, rfl⟩
  obtain ⟨B, hB, hlow, hhigh, hother⟩ := forRange_update_pair (m := n / 2) (p := (· + 1))
    (q := fun j => n - (j + 1))
    (fun j => (⟨c (j + 1), -s * c (n / 2 + 1 + (j + 1))⟩ : BenchComplex R))
    (fun j => ⟨c (j + 1), s * c (n / 2 + 1 + (j + 1))⟩)
    (by omega) (by omega) (by omega) (Function.update Y₀ 0 ⟨c 0, -s * c (n / 2 + 1)⟩)
  have hrun := copyH2c1dUnpackedRi_eq hrank hkind hdims hn Y₀ s hword hpout hc
  rw [hB] at hrun
  refine ⟨B, hrun, ?_⟩
  rw [← hc] at hreal ⊢
  simp only [imCell] at hreal
  refine ⟨fun k hk h => ?_, fun k hk h => ?_⟩
  · rw [reCell, imCell]
    rcases Nat.eq_zero_or_pos k with rfl | hk0
    · rw [hother 0 (by omega), Function.update_self, if_neg (by omega),
        ← Nat.add_zero (n / 2 + 1), hreal 0 (Or.inl rfl), mul_zero]
    · obtain ⟨j, rfl⟩ := Nat.exists_eq_add_of_le' hk0
      rcases Nat.lt_or_ge (2 * (j + 1)) n with hlt | hge
      · rw [hlow j (by omega) (by omega), if_pos ⟨hk0, hlt⟩]
      · have hmid := hhigh j (by omega)
        rw [show n - (j + 1) = j + 1 by omega] at hmid
        rw [hmid, if_neg (by omega), hreal (j + 1) (Or.inr (by omega)), mul_zero]
  · obtain ⟨j, hj⟩ : ∃ j, n - k = j + 1 := ⟨n - k - 1, by omega⟩
    rw [hj, hlow j (by omega) (by omega), conj, show k = n - (j + 1) by omega,
      hhigh j (by omega), neg_mul, neg_neg]

end Reading

section ReadingPacked

variable [Field R] {word : ℕ → ℕ} {n rstride cstride : ℕ} (Y₀ : ℕ → BenchComplex R) (s : R)
  {pout : Buf R}

/-- What is read from the cells `c`. -/
def unpack (n rstride cstride : ℕ) (s : R) (c : ℕ → R) (Y₀ : ℕ → BenchComplex R) :
    ℕ → BenchComplex R :=
  forRange (n / 2 - 1) (fun j A => Function.update (Function.update A ((j + 1) * cstride)
      ⟨c (2 * (j + 1) * rstride), -s * c ((2 * (j + 1) + 1) * rstride)⟩) ((n - (j + 1)) * cstride)
      ⟨c (2 * (j + 1) * rstride), s * c ((2 * (j + 1) + 1) * rstride)⟩)
    (setIm (setIm (setRe (setRe Y₀ 0 (c 0)) (n / 2 * cstride) (c rstride)) 0 0) (n / 2 * cstride) 0)

theorem packed_reads (hn : 0 < n) (heven : n % 2 = 0) (hr : 0 < rstride)
    (hword : KeepsBelow word (n * max rstride cstride))
    (hpout : (n - 1) * rstride + 1 ≤ pout.size) :
    copyH2c1dPackedStrided word n pout rstride Y₀ cstride s
      = .ok (unpack n rstride cstride s pout.cell Y₀) := by
  have hloop := forRangeM_ok (n := n / 2 - 1) (f := fun j out => do
      let re ← pout.read (word (word (2 * (j + 1)) * rstride))
      let im ← pout.read (word (word (2 * (j + 1) + 1) * rstride))
      let out := Function.update out (word ((j + 1) * cstride)) (BenchComplex.mk re (-s * im))
      return Function.update out (word ((n - (j + 1)) * cstride)) ⟨re, s * im⟩)
    (fun j hj out => by
      have hre : 2 * (j + 1) < n := by omega
      have him : 2 * (j + 1) + 1 < n := by omega
      rw [KeepsBelow.index hword hr hre.le, KeepsBelow.index hword hr him.le,
        KeepsBelow.mul_left hword hre.le, KeepsBelow.mul_left hword him.le,
        KeepsBelow.mul_right hword (by omega : j + 1 ≤ n),
        KeepsBelow.mul_right hword (Nat.sub_le n (j + 1)),
        Buf.read_ok (mul_lt_of_room hre hpout), Buf.read_ok (mul_lt_of_room him hpout)]
      rfl)
    (setIm (setIm (setRe (setRe Y₀ 0 (pout.cell 0)) (n / 2 * cstride) (pout.cell rstride)) 0 0)
      (n / 2 * cstride) 0)
  rw [copyH2c1dPackedStrided, benchAssert, if_pos heven, if_pos hn,
    KeepsBelow.mul_right hword (Nat.div_le_self n 2),
    Buf.read_ok (by simpa using mul_lt_of_room hn hpout),
    Buf.read_ok (by simpa using mul_lt_of_room (by omega : 1 < n) hpout), unpack, ← hloop]
  rfl

/-- The entries between those of the array stay as they are. -/
theorem unpack_off (hn : 0 < n) (c : ℕ → R) {i : ℕ} (hi : ∀ k < n, i ≠ k * cstride) :
    unpack n rstride cstride s c Y₀ i = Y₀ i := by
  unfold unpack
  refine forRange_induction (fun _ (A : ℕ → BenchComplex R) => A i = Y₀ i) ?_ fun j hj A hA => ?_
  · have h0 : i ≠ 0 := by simpa using hi 0 hn
    have hhalf : i ≠ n / 2 * cstride := hi _ (by omega)
    simp [setIm, setRe, h0, hhalf]
  · rw [Function.update_of_ne (hi _ (by omega)), Function.update_of_ne (hi _ (by omega)), hA]

/-- The entries of the array, each from the step that writes it. -/
theorem unpack_entries (hn : 0 < n) (heven : n % 2 = 0) (hc : 0 < cstride) (c : ℕ → R) :
    unpack n rstride cstride s c Y₀ 0 = ⟨c 0, 0⟩ ∧
    unpack n rstride cstride s c Y₀ (n / 2 * cstride) = ⟨c rstride, 0⟩ ∧
    (∀ k, 0 < k → 2 * k < n → unpack n rstride cstride s c Y₀ (k * cstride)
      = ⟨c (2 * k * rstride), -s * c ((2 * k + 1) * rstride)⟩) ∧
    ∀ k, 0 < k → 2 * k < n → unpack n rstride cstride s c Y₀ ((n - k) * cstride)
      = ⟨c (2 * k * rstride), s * c ((2 * k + 1) * rstride)⟩ := by
  have hinj : ∀ x y, x * cstride = y * cstride → x = y := fun x y => Nat.eq_of_mul_eq_mul_right hc
  obtain ⟨A, hA⟩ : ∃ A, A = setIm (setIm (setRe (setRe Y₀ 0 (c 0)) (n / 2 * cstride)
    (c rstride)) 0 0) (n / 2 * cstride) 0 := ⟨_, rfl⟩
  obtain ⟨B, hB, hlow, hhigh, hother⟩ := forRange_update_pair (m := n / 2 - 1)
    (p := fun j => (j + 1) * cstride) (q := fun j => (n - (j + 1)) * cstride)
    (fun j => (⟨c (2 * (j + 1) * rstride), -s * c ((2 * (j + 1) + 1) * rstride)⟩ : BenchComplex R))
    (fun j => ⟨c (2 * (j + 1) * rstride), s * c ((2 * (j + 1) + 1) * rstride)⟩)
    (fun i _ j _ h => by have := hinj _ _ h; omega) (fun i _ j _ h => by have := hinj _ _ h; omega)
    (fun i _ j _ h => by have := hinj _ _ h; omega) A
  have hunpack : unpack n rstride cstride s c Y₀ = B := by rw [unpack, ← hA, hB]
  have hhalf : 0 ≠ n / 2 * cstride := fun h => by
    have := hinj 0 (n / 2) (by omega)
    omega
  rw [hunpack]
  refine ⟨?_, ?_, fun k hk0 h => ?_, fun k hk0 h => ?_⟩
  -- the two entries that the loop leaves alone
  · rw [hother 0 fun j hj => ⟨fun h => ?_, fun h => ?_⟩, hA]
    · simp [setIm, setRe, Function.update_of_ne hhalf]
    · have := hinj 0 (j + 1) (by omega)
      omega
    · have := hinj 0 (n - (j + 1)) (by omega)
      omega
  · rw [hother _ fun j hj => ⟨fun h => ?_, fun h => ?_⟩, hA]
    · simp [setIm, setRe, Function.update_of_ne hhalf.symm]
    · have := hinj _ _ h
      omega
    · have := hinj _ _ h
      omega
  · obtain ⟨j, rfl⟩ := Nat.exists_eq_add_of_le' hk0
    exact hlow j (by omega) fun h => by have := hinj _ _ h; omega
  · obtain ⟨j, rfl⟩ := Nat.exists_eq_add_of_le' hk0
    exact hhigh j (by omega)

theorem unpack_decodes (hn : 0 < n) (heven : n % 2 = 0) (hc : 0 < cstride) (c : ℕ → R) :
    Decodes ((packed rstride cstride).reCell n) ((packed rstride cstride).imCell n) s n c
      fun k => unpack n rstride cstride s c Y₀ (k * cstride) := by
  obtain ⟨hfirst, hmiddle, hlow, hhigh⟩ :=
    @unpack_entries R _ n rstride cstride Y₀ s hn heven hc c
  refine ⟨fun k hk h => ?_, fun k hk h => ?_⟩
  · rw [reCell, imCell]
    rcases Nat.eq_zero_or_pos k with rfl | hk0
    · rw [if_neg (by omega), if_neg (by omega), Nat.mul_zero, Nat.zero_mul, Nat.zero_mul, hfirst]
    · rcases Nat.lt_or_ge (2 * k) n with hlt | hge
      · rw [if_neg (by omega), if_pos ⟨hk0, hlt⟩, hlow k hk0 hlt]
      · rw [if_pos (by omega), if_neg (by omega), show k = n / 2 by omega, hmiddle]
  · have hmirror := hhigh (n - k) (by omega) (by omega)
    rw [Nat.sub_sub_self hk.le] at hmirror
    rw [hlow (n - k) (by omega) (by omega), conj, hmirror, neg_mul, neg_neg]

end ReadingPacked

/-! ### The round trips -/

section RoundTrip

variable [Field R] {word : ℕ → ℕ} {p : Problem} (hrank : p.rank = 1) (hkind : p.kind = .real)
  {n : ℕ} (hdims : p.dims.headD 0 = n) (hn : 0 < n) {s : R} {f : Format1d} (hf : f.Applies n)
  (hword : KeepsBelow word (f.indexBound n)) {b : Buf R} (hb : f.room n ≤ b.size)

include hrank hkind hdims hn hf hword hb

theorem exists_stores (X : ℕ → BenchComplex R) :
    ∃ b', f.copyC2h1d word p b X s = .ok b' ∧ b'.size = b.size ∧
      Stores (f.reCell n) (f.imCell n) s n b'.cell (fun k => X (f.entry k)) ∧
      (f = unpackedRi → ∀ k, 2 * k ≤ n → b'.cell (f.imCell n k) = -s * (X k).im) := by
  cases f with
  | fftpack =>
    obtain ⟨g, hrun, hstores⟩ := fftpack_stores hrank hkind hdims hn X s hword hb
    exact ⟨b.lift g, hrun b rfl, rfl, hstores b.cell, nofun⟩
  | halfcomplex =>
    obtain ⟨g, hrun, hstores⟩ := halfcomplex_stores hrank hkind hdims hn X s hword hb
    exact ⟨b.lift g, hrun b rfl, rfl, hstores b.cell, nofun⟩
  | packed rstride cstride =>
    obtain ⟨g, hrun, hstores⟩ := packed_stores X s hn hf.1 hf.2.1 hword hb
    rw [← hdims] at hrun
    exact ⟨b.lift g, hrun b rfl, rfl, hstores b.cell, nofun⟩
  | unpackedRi =>
    obtain ⟨g, hrun, hstores⟩ := unpackedRi_stores hrank hkind hdims hn X s hword hb
    exact ⟨b.lift g, hrun b rfl, rfl, (hstores b.cell).1, fun _ => (hstores b.cell).2⟩

theorem exists_decodes (Y₀ : ℕ → BenchComplex R)
    (hreal : f = unpackedRi → ∀ k, k = 0 ∨ 2 * k = n → b.cell (f.imCell n k) = 0) :
    ∃ Y, f.copyH2c1d word p b Y₀ s = .ok Y ∧
      Decodes (f.reCell n) (f.imCell n) s n b.cell (fun k => Y (f.entry k)) := by
  cases f with
  | fftpack => exact fftpack_decodes hrank hkind hdims hn Y₀ s hword hb
  | halfcomplex => exact halfcomplex_decodes hrank hkind hdims hn Y₀ s hword hb
  | packed rstride cstride =>
    subst hdims
    exact ⟨_, packed_reads Y₀ s hn hf.1 hf.2.1 hword hb, unpack_decodes Y₀ s hn hf.1 hf.2.2 b.cell⟩
  | unpackedRi => exact unpackedRi_decodes hrank hkind hdims hn Y₀ s hword hb (hreal rfl)

omit [Field R] hrank hkind hdims hn hword hb

/-- Every real number of the format is the real or the imaginary part of an entry. -/
theorem cell_cases (hri : f ≠ unpackedRi) {i : ℕ} (hi : i < n) :
    (∃ k < n, 2 * k ≤ n ∧ f.cell i = f.reCell n k) ∨
      ∃ k, 0 < k ∧ 2 * k < n ∧ f.cell i = f.imCell n k := by
  cases f with
  | fftpack =>
    rcases Nat.even_or_odd' i with ⟨k, rfl | rfl⟩
    · rcases Nat.eq_zero_or_pos k with rfl | hk
      · exact Or.inl ⟨0, by omega, by omega, rfl⟩
      · exact Or.inr ⟨k, hk, hi, rfl⟩
    · exact Or.inl ⟨k + 1, by omega, by omega, by rw [cell, reCell]; omega⟩
  | halfcomplex =>
    rcases Nat.lt_or_ge n (2 * i) with h | h
    · exact Or.inr ⟨n - i, by omega, by omega, by rw [cell, imCell]; omega⟩
    · exact Or.inl ⟨i, hi, h, rfl⟩
  | packed rstride cstride =>
    have heven := hf.1
    rcases Nat.even_or_odd' i with ⟨k, rfl | rfl⟩
    · exact Or.inl ⟨k, by omega, by omega, by rw [cell, reCell, if_neg (by omega)]⟩
    · rcases Nat.eq_zero_or_pos k with rfl | hk
      · exact Or.inl ⟨n / 2, by omega, by omega, by
          rw [cell, reCell, if_pos (by omega), Nat.mul_zero, Nat.zero_add, Nat.one_mul]⟩
      · exact Or.inr ⟨k, hk, by omega, rfl⟩
  | unpackedRi => exact absurd rfl hri

end RoundTrip

/-- **The formats round-trip.**  A hermitian array written in a format is read back; and, except in
`unpacked_ri`, whatever a buffer holds is read as a hermitian array which is written back to the
same cells. -/
theorem format1d_round_trip [Field R] [NeZero (2 : R)] {word : ℕ → ℕ} {p : Problem}
    (hrank : p.rank = 1) (hkind : p.kind = .real) {n : ℕ} (hdims : p.dims.headD 0 = n)
    (hn : 0 < n) {f : Format1d}
    (hf : f.Applies n) (hword : KeepsBelow word (f.indexBound n)) {s : R} (hs : s = 1 ∨ s = -1)
    {b : Buf R} (hb : f.room n ≤ b.size) (Y₀ : ℕ → BenchComplex R) :
    (∀ X, Hermitian [n] (fun k => X (f.entry k)) → ∃ b' Y, f.copyC2h1d word p b X s = .ok b' ∧
      f.copyH2c1d word p b' Y₀ s = .ok Y ∧ ∀ k < n, Y (f.entry k) = X (f.entry k)) ∧
    (f ≠ unpackedRi → ∃ Y, f.copyH2c1d word p b Y₀ s = .ok Y ∧
      Hermitian [n] (fun k => Y (f.entry k)) ∧
      ∀ b₂ : Buf R, f.room n ≤ b₂.size → ∃ b', f.copyC2h1d word p b₂ Y s = .ok b' ∧
        ∀ i < n, b'.cell (f.cell i) = b.cell (f.cell i)) := by
  have hss : s * s = 1 := by
    rcases hs with rfl | rfl <;> ring
  constructor
  · intro X hX
    obtain ⟨b', hwrite, hsize, hstores, him⟩ :=
      exists_stores (s := s) hrank hkind hdims hn hf hword hb X
    -- `unpacked_ri` stores the imaginary parts that are zero, too
    have hreal : f = unpackedRi → ∀ k, k = 0 ∨ 2 * k = n → b'.cell (f.imCell n k) = 0 := by
      rintro rfl k hk
      have hX' : Hermitian [n] X := hX
      rw [him rfl k (by omega), im_eq_zero hX' (by omega) ?_, mul_zero]
      rcases hk with rfl | hk
      · rw [Nat.sub_zero, Nat.mod_self]
      · rw [Nat.mod_eq_of_lt (by omega)]
        omega
    obtain ⟨Y, hread, hY⟩ := exists_decodes hrank hkind hdims hn hf hword (hsize ▸ hb) Y₀ hreal
    exact ⟨b', Y, hwrite, hread, hY.eq_of_stores hss hX hstores⟩
  · intro hri
    obtain ⟨Y, hread, hY⟩ := exists_decodes hrank hkind hdims hn hf hword hb Y₀ (absurd · hri)
    refine ⟨Y, hread, hY.hermitian, fun b₂ hb₂ => ?_⟩
    obtain ⟨b', hwrite, -, hstores, -⟩ :=
      exists_stores (s := s) hrank hkind hdims hn hf hword hb₂ Y
    obtain ⟨hre, him⟩ := hY.eq_of_restored hss hstores
    refine ⟨b', hwrite, fun i hi => ?_⟩
    rcases cell_cases hf hri hi with ⟨k, hk, hle, hcell⟩ | ⟨k, hk0, hlt, hcell⟩
    · rw [hcell, hre k hk hle]
    · rw [hcell, him k hk0 hlt]

/-- The problem `r4`. -/
def r4 : Problem where
  kind := .real
  n := [4]
  size := 4
  vn := []
  vsize := 1
  sign := -1
  inPlace := false
  split := false
  pstring := "r4".toList

theorem keepsBelow_u32 {m : ℕ} (h : m < 2 ^ 32) : KeepsBelow u32 m := fun _ hx =>
  Nat.mod_eq_of_lt (Nat.lt_of_le_of_lt hx h)

theorem format1d_round_trip_r4 :
    ∃ Y, (packed 2 3).copyH2c1d u32 r4 ⟨7, fun i => (i : ℚ)⟩ (fun _ => ⟨0, 0⟩) (-1) = .ok Y ∧
      Hermitian [4] (fun k => Y ((packed 2 3).entry k)) ∧
      ∀ b₂ : Buf ℚ, (packed 2 3).room 4 ≤ b₂.size →
        ∃ b', (packed 2 3).copyC2h1d u32 r4 b₂ Y (-1) = .ok b' ∧
          ∀ i < 4, b'.cell ((packed 2 3).cell i) = ((packed 2 3).cell i : ℕ) :=
  (format1d_round_trip (f := packed 2 3) rfl rfl rfl (by decide) ⟨rfl, by decide, by decide⟩
    (keepsBelow_u32 (by decide)) (Or.inr rfl) (b := ⟨7, fun i => (i : ℚ)⟩) (by decide)
    fun _ => ⟨0, 0⟩).2 nofun

end Format1d

end BenchFFT
