import BenchFFT.Assigns
import BenchFFT.Benchees.Layout
import BenchFFT.Problem.Equiv.CopyUnpacked
import Mathlib.Algebra.Order.Ring.Rat

/-!
# Assigning a hermitian array part by part

The routines of the packages are read off their assignments (`Assigns`): to the cells of a buffer,
or to the parts of complex entries (`parts`).
-/

namespace BenchFFT

open RowMajor

variable {R : Type*}

/-! ### Assignments -/

/-- The parts of the entries of an array. -/
def parts (out : ℕ → BenchComplex R) (l : Part × ℕ) : R := l.1.of (out l.2)

theorem ext_parts {Y Z : ℕ → BenchComplex R} {k : ℕ} (h : ∀ q, parts Y (q, k) = parts Z (q, k)) :
    Y k = Z k :=
  BenchComplex.ext (h .re) (h .im)

theorem assigns_write {m i : ℕ} {x : R} {v : ℕ → R} (hi : i < m) (hx : x = v i) :
    Assigns (Buf.HasSize m) Buf.cell (fun b => b.write i x) (· = i) v := by
  intro b hb
  have hi' : i < b.size := by rwa [hb]
  refine ⟨_, Buf.write_ok hi' x, hb, fun k hk => ?_, fun k => ?_⟩
  · simp [Buf.lift, hk, ← hx]
  · by_cases h : k = i
    · simp [Buf.lift, h, ← hx]
    · simp [Buf.lift, Function.update_of_ne h]

section Parts

variable {i j : ℕ} {x y z : Except Abort R} {v : Part × ℕ → R}

theorem assigns_put {q : Part} (hx : x = .ok (v (q, i))) :
    Assigns (fun _ => True) parts (fun out => q.put out i x) (· = (q, i)) v := by
  subst hx
  intro out _
  refine ⟨_, rfl, trivial, fun l hl => ?_, fun l => ?_⟩
  · rw [hl]
    cases q <;> simp [parts, Part.set, setRe, setIm, Part.of]
  · obtain ⟨q', k⟩ := l
    by_cases h : k = i
    · subst h
      cases q <;> cases q' <;> simp [parts, Part.set, setRe, setIm, Part.of]
    · cases q <;> simp [parts, Part.set, setRe, setIm, Function.update_of_ne h]

/-- An entry and its mirror image. -/
theorem assigns_putPair [Neg R] {Y : ℕ → BenchComplex R} (hij : (Y j).re = (Y i).re)
    (hx : x = .ok (Y i).re) (hy : y = .ok (Y i).im) (hz : z = .ok (Y j).im) :
    Assigns (fun _ => True) parts (fun out => putPair out i j x y z) (fun l => l.2 = i ∨ l.2 = j)
      (parts Y) := by
  have hx' : x = .ok (Y j).re := by rw [hij, hx]
  have hpair := (assigns_put (v := parts Y) (q := .re) hx).bind
    ((assigns_put (v := parts Y) (q := .re) hx').bind
      ((assigns_put (v := parts Y) (q := .im) hy).bind
        (assigns_put (v := parts Y) (q := .im) hz)))
  refine hpair.mono fun l hl => ?_
  obtain ⟨q, k⟩ := l
  cases q <;> simpa using hl

end Parts

/-! ### Scaling -/

theorem ascale_runs [Mul R] {m n : ℕ} (hn : n ≤ m) (alpha : R) :
    Buf.Runs m (fun A => ascale A n alpha) fun c i => if i < n then c i * alpha else c i := by
  have hloop : Buf.Runs m (fun A => ascale A n alpha)
      (forRange n fun i c => Function.update c i (c i * alpha)) := by
    refine Buf.Runs.forRangeM fun i hi A hA => ?_
    have hi' : i < A.size := by omega
    rw [Buf.read_ok hi']
    exact Buf.write_ok hi' _
  intro A hA
  rw [hloop A hA]
  unfold Buf.lift
  congr
  ext i
  exact forRange_update_apply n (fun _ x => x * alpha) A.cell i

theorem cascale_apply [Mul R] [Add R] [Sub R] (A : ℕ → BenchComplex R) (n : ℕ)
    (alpha : BenchComplex R) (i : ℕ) :
    cascale A n alpha i = if i < n then ⟨(A i).re * alpha.re - (A i).im * alpha.im,
      (A i).re * alpha.im + (A i).im * alpha.re⟩ else A i :=
  forRange_update_apply n (fun _ (a : BenchComplex R) => ⟨a.re * alpha.re - a.im * alpha.im,
    a.re * alpha.im + a.im * alpha.re⟩) A i

/-! ### The problems -/

/-- A real problem whose `size` is `PROD n[i]`, with `rank` dimensions that are powers of two from
`2` on. -/
structure RealPow2 (p : Problem) (rank : ℕ) : Prop where
  kind : p.kind = .real
  rank_eq : p.rank = rank
  two_pow : ∀ n ∈ p.dims, ∃ t, n = 2 ^ (t + 1)
  size : p.size.toNat = p.dims.prod

namespace RealPow2

variable {p : Problem} {rank : ℕ} (hp : RealPow2 p rank)

include hp

theorem pos_even {n : ℕ} (hn : n ∈ p.dims) : 0 < n ∧ n % 2 = 0 := by
  obtain ⟨t, rfl⟩ := hp.two_pow n hn
  exact ⟨Nat.two_pow_pos _, by rw [Nat.pow_succ, Nat.mul_mod_left]⟩

theorem pos : ∀ n ∈ p.dims, 0 < n := fun _ hn => (hp.pos_even hn).1

theorem prod_lt : p.dims.prod < 2 ^ 32 := by
  rw [← hp.size]
  exact p.size.toNat_lt

/-- A product of powers of two below `2 ^ 32` is at most `2 ^ 31`. -/
theorem prod_le : p.dims.prod ≤ 2147483648 := by
  have hpow : ∀ l : List ℕ, (∀ n ∈ l, ∃ t, n = 2 ^ (t + 1)) → ∃ t, l.prod = 2 ^ t := by
    intro l hl
    induction l with
    | nil => exact ⟨0, rfl⟩
    | cons n l ih =>
      obtain ⟨t, ht⟩ := ih fun n hn => hl n (List.mem_cons_of_mem _ hn)
      obtain ⟨u, hu⟩ := hl n List.mem_cons_self
      exact ⟨u + 1 + t, by rw [List.prod_cons, hu, ht, ← Nat.pow_add]⟩
  obtain ⟨t, ht⟩ := hpow p.dims hp.two_pow
  have hlt := hp.prod_lt
  rw [ht] at hlt ⊢
  have hle : t ≤ 31 := Nat.lt_succ_iff.mp ((Nat.pow_lt_pow_iff_right one_lt_two).mp hlt)
  exact Nat.pow_le_pow_right two_pos hle

theorem keepsIndices (hrank : 2 ≤ rank) : KeepsIndices u32 p where
  size x hx := u32_eq (lt_of_le_of_lt hx hp.prod_lt)
  row x hx := by
    have hr := hp.rank_eq
    -- there is a dimension besides the last one
    obtain ⟨n, hn⟩ : ∃ n, n ∈ p.dims.dropLast := by
      apply List.exists_mem_of_length_pos
      rw [List.length_dropLast, p.length_dims]
      omega
    have hpos : 0 < p.dims.dropLast.prod := List.prod_pos_iff_forall_pos_nat.mpr
      fun m hm => hp.pos m (List.dropLast_subset _ hm)
    have htwo := hp.pos_even (List.dropLast_subset _ hn)
    have hle : 2 ≤ p.dims.dropLast.prod :=
      le_trans (by omega) (Nat.le_of_dvd hpos (List.dvd_prod hn))
    have hprod := prod_dropLast_mul (p := p) (by omega)
    have hmul := Nat.mul_le_mul_right (lastDim p) hle
    exact u32_eq (by have := hp.prod_lt; omega)

end RealPow2

/-- Even dimensions whose product fits into an `unsigned int`. -/
structure Dims2 (n0 n1 : ℕ) : Prop where
  pos0 : 0 < n0
  pos1 : 0 < n1
  even0 : n0 % 2 = 0
  even1 : n1 % 2 = 0
  lt : n0 * n1 < 2 ^ 32

theorem RealPow2.exists_dims2 {p : Problem} (hp : RealPow2 p 2) :
    ∃ n0 n1, p.dims = [n0, n1] ∧ p.dims.prod = n0 * n1 ∧ Dims2 n0 n1 := by
  obtain ⟨n0, n1, hdims⟩ := List.length_eq_two.mp (p.length_dims.trans hp.rank_eq)
  have h0 := hp.pos_even (n := n0) (by simp [hdims])
  have h1 := hp.pos_even (n := n1) (by simp [hdims])
  have hlt := hp.prod_lt
  have hprod : p.dims.prod = n0 * n1 := by rw [hdims, List.prod_pair]
  exact ⟨n0, n1, hdims, hprod, h0.1, h1.1, h0.2, h1.2, hprod ▸ hlt⟩

theorem Dims2.half_pos {n0 n1 : ℕ} (hn : Dims2 n0 n1) : 0 < n1 / 2 := by
  have hpos := hn.pos1
  have heven := hn.even1
  omega

/-- The index of a row of at most `n1` entries does not wrap around. -/
theorem Dims2.index {n0 n1 w i k : ℕ} (hn : Dims2 n0 n1) (hw : w ≤ n1) (hi : i < n0) (hk : k < w) :
    u32 (i * w + k) = i * w + k := by
  have hrow := row_lt (Nat.mul_le_mul_right w hi) hk
  have hle := Nat.mul_le_mul_left n0 hw
  exact u32_eq (lt_of_lt_of_le hrow (hle.trans hn.lt.le))

/-- The problem `r8x16`. -/
def r8x16 : Problem := ⟨.real, [8, 16], 128, [], 1, -1, false, false, "r8x16".toList⟩

theorem realPow2_r8x16 : RealPow2 r8x16 2 where
  kind := rfl
  rank_eq := rfl
  two_pow n hn := by
    rcases List.mem_pair.mp hn with rfl | rfl
    · exact ⟨2, rfl⟩
    · exact ⟨3, rfl⟩
  size := rfl

/-- A hermitian array of eight rows. -/
def hermitian8x16 : ℕ → BenchComplex ℚ := mirrored [8, 16]

theorem hermitian_r8x16 : Hermitian r8x16.dims hermitian8x16 :=
  hermitian_mirrored realPow2_r8x16.pos

/-- A block of zeros. -/
def zeros (m : ℕ) : Buf (BenchComplex ℚ) := ⟨m, fun _ => ⟨0, 0⟩⟩

section Mirror

variable [CommRing R] {X : ℕ → BenchComplex R} {n1 n2 n3 : ℕ}

theorem hermitian_2d (hX : Hermitian [n1, n2] X) {i j : ℕ} (hi : i < n1) (hj : j < n2) :
    X ((n1 - i) % n1 * n2 + (n2 - j) % n2) = conj (X (i * n2 + j)) := by
  have hlt : i * n2 + j < [n1, n2].prod := by
    rw [List.prod_pair]
    exact row_lt (Nat.mul_le_mul_right n2 hi) hj
  have hneg := negIdx_append (n := [n1]) (by simpa using Nat.zero_lt_of_lt hi) hj i
  rw [List.singleton_append] at hneg
  rw [← hX _ hlt, hneg]
  simp [negIdx, Nat.mod_eq_of_lt hi]

/-- The first and the middle column are hermitian arrays themselves. -/
theorem hermitian_column (hX : Hermitian [n1, n2] X) {col i : ℕ} (hpos : 0 < n2)
    (heven : n2 % 2 = 0) (hcol : col = 0 ∨ col = n2 / 2) (hi : i < n1) :
    X ((n1 - i) % n1 * n2 + col) = conj (X (i * n2 + col)) := by
  have hlt : col < n2 := by omega
  have hmirror : (n2 - col) % n2 = col := by
    rcases hcol with rfl | rfl
    · rw [Nat.sub_zero, Nat.mod_self]
    · rw [Nat.mod_eq_of_lt (by omega)]
      omega
  have h := hermitian_2d hX hi hlt
  rwa [hmirror] at h

theorem hermitian_3d (hX : Hermitian [n1, n2, n3] X) {i j k : ℕ} (hi : i < n1) (hj : j < n2)
    (hk : k < n3) :
    X (((n1 - i) % n1 * n2 + (n2 - j) % n2) * n3 + (n3 - k) % n3)
      = conj (X ((i * n2 + j) * n3 + k)) := by
  have hrow : i * n2 + j < n1 * n2 := row_lt (Nat.mul_le_mul_right n2 hi) hj
  have hlt : (i * n2 + j) * n3 + k < [n1, n2, n3].prod := by
    simpa [Nat.mul_assoc] using row_lt (Nat.mul_le_mul_right n3 hrow) hk
  have hneg := negIdx_append (n := [n1, n2]) (by
    simpa using ⟨Nat.zero_lt_of_lt hi, Nat.zero_lt_of_lt hj⟩) hk (i * n2 + j)
  have hneg2 := negIdx_append (n := [n1]) (by simpa using Nat.zero_lt_of_lt hi) hj i
  rw [List.cons_append, List.singleton_append] at hneg
  rw [List.singleton_append] at hneg2
  rw [← hX _ hlt, hneg, hneg2]
  simp [negIdx, Nat.mod_eq_of_lt hi]

end Mirror

end BenchFFT
