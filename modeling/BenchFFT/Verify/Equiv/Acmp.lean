import BenchFFT.Verify.Acmp
import Mathlib.Algebra.Field.Rat

/-!
# When `acmp` lets a bad value through

`dmax` returns its second argument when the first is `NaN`, so a `NaN` survives a fold only from
its last position (`foldMax_succ_of_nan`, `exists_foldMax_eq`): `norm2` forgets a `NaN` real part,
and the running `error` forgets everything up to the last `NaN` imaginary difference.

`AcmpSound A B n tol` says that a pair `acmp` accepts has no `NaN` component and differs by at most
`tol` times the magnitude `cerror` divides by.  It holds if no `NaN` difference is forgotten
(`acmpSound_iff`, which also says for which pairs it holds at every tolerance that is a number).
-/

namespace BenchFFT.Verify

open ExtNum

variable {K : Type*}

/-! ### `dmax` and `dmin` -/

section Order

variable [LinearOrder K]

@[simp] theorem dmax_nan_left (x : ExtNum K) : dmax nan x = x := if_neg (not_lt_nan x)
@[simp] theorem dmax_nan_right (x : ExtNum K) : dmax x nan = nan := rfl

theorem dmax_eq_or (x y : ExtNum K) : dmax x y = x ∨ dmax x y = y := by
  unfold dmax
  split_ifs
  · exact Or.inl rfl
  · exact Or.inr rfl

theorem dmin_eq_or (x y : ExtNum K) : dmin x y = x ∨ dmin x y = y := by
  unfold dmin
  split_ifs
  · exact Or.inl rfl
  · exact Or.inr rfl

theorem le_dmax {x y : ExtNum K} (hx : x ≠ nan) (hy : y ≠ nan) :
    x ≤ dmax x y ∧ y ≤ dmax x y := by
  unfold dmax
  split_ifs with h
  · exact ⟨le_rfl_of_ne_nan hx, le_of_lt' h⟩
  · exact ⟨le_of_not_lt' hy hx h, le_rfl_of_ne_nan hy⟩

end Order

/-! ### `norm2` on `NaN` and on infinities -/

section NaN

variable [Field K] [LinearOrder K]

@[simp] theorem dabs_nan : dabs (nan : ExtNum K) = nan := rfl

theorem dabs_eq_nan {x : ExtNum K} : dabs x = nan ↔ x = nan := by
  constructor
  · intro h
    unfold dabs at h
    split_ifs at h
    · cases x <;> simp_all
    · exact h
  · rintro rfl
    rfl

/-- Only a `NaN` in second position makes a `norm2` `NaN`. -/
theorem norm2_eq_nan {x y : ExtNum K} : norm2 x y = nan ↔ y = nan := by
  constructor
  · intro h
    unfold norm2 dmax at h
    split_ifs at h with hlt
    · rw [h] at hlt
      exact absurd hlt (not_lt_nan _)
    · exact dabs_eq_nan.mp h
  · rintro rfl
    rfl

/-- A magnitude is `NaN` exactly when the imaginary part of `B` is. -/
theorem magAt_eq_nan {A B : ℕ → BenchComplex (ExtNum K)} {i : ℕ} :
    magAt A B i = nan ↔ (B i).im = nan := by
  constructor
  · intro h
    unfold magAt dmin at h
    split_ifs at h with hlt
    · rw [h] at hlt
      exact absurd hlt (not_nan_lt _)
    · exact norm2_eq_nan.mp h
  · intro h
    rw [magAt, norm2_eq_nan.mpr h]
    exact if_neg (not_lt_nan _)

theorem errAt_eq_nan {A B : ℕ → BenchComplex (ExtNum K)} {i : ℕ} :
    errAt A B i = nan ↔ (A i).im - (B i).im = nan := norm2_eq_nan

theorem magAt_ne_nan_of_errAt {A B : ℕ → BenchComplex (ExtNum K)} {i : ℕ}
    (h : errAt A B i ≠ nan) : magAt A B i ≠ nan := by
  intro hm
  apply h
  rw [errAt_eq_nan, magAt_eq_nan.mp hm, sub_def, neg_nan, add_nan]

/-- An infinity. -/
def Infinite (x : ExtNum K) : Prop := x = posInf ∨ x = negInf

theorem norm2_eq_posInf_iff {x y : ExtNum K} (hy : y ≠ nan) :
    norm2 x y = posInf ↔ Infinite x ∨ Infinite y := by
  have hdabs : ∀ z : ExtNum K, dabs z = posInf ↔ Infinite z := by
    intro z
    constructor
    · intro hz
      unfold dabs at hz
      split_ifs at hz <;> cases z <;> simp_all [Infinite]
    · rintro (rfl | rfl) <;> rfl
  rw [← hdabs, ← hdabs]
  constructor
  · intro h
    rcases dmax_eq_or (dabs x) (dabs y) with h' | h' <;> rw [norm2, h'] at h
    · exact Or.inl h
    · exact Or.inr h
  · have hy' : dabs y ≠ nan := fun h => hy (dabs_eq_nan.mp h)
    rintro (h | h)
    · exact eq_posInf_of_le (h ▸ (le_dmax (h ▸ nofun : dabs x ≠ nan) hy').1)
    · by_cases hx : dabs x = nan
      · rw [norm2, hx, dmax_nan_left, h]
      · exact eq_posInf_of_le (h ▸ (le_dmax hx hy').2)

theorem eq_zero_of_le {x : ExtNum K} (h0 : 0 ≤ x) (h : x ≤ 0) : x = 0 := by
  cases x with
  | fin k => exact congrArg fin (le_antisymm (show k ≤ 0 from h) h0)
  | posInf => exact absurd h id
  | negInf => exact absurd h0 id
  | nan => exact absurd h id

end NaN

/-! ### Non-negative values -/

section Nonneg

variable [Field K] [LinearOrder K] [IsStrictOrderedRing K]

theorem dabs_nonneg {x : ExtNum K} (hx : x ≠ nan) : 0 ≤ dabs x := by
  unfold dabs
  split_ifs with h
  · cases x with
    | fin k => exact neg_nonneg.mpr (le_of_lt (show k < 0 from h))
    | posInf => exact absurd h id
    | negInf => trivial
    | nan => exact absurd rfl hx
  · exact le_of_not_lt' hx (ne_nan_of_nonneg (le_refl (0 : K))) h

theorem norm2_nonneg (x : ExtNum K) {y : ExtNum K} (hy : y ≠ nan) : 0 ≤ norm2 x y := by
  unfold norm2
  rcases dmax_eq_or (dabs x) (dabs y) with h | h <;> rw [h]
  · refine dabs_nonneg fun hx => ?_
    rw [hx, dabs_nan, dmax_nan_left] at h
    exact hy (dabs_eq_nan.mp h)
  · exact dabs_nonneg hy

theorem norm2_nan_or_nonneg (x y : ExtNum K) : norm2 x y = nan ∨ 0 ≤ norm2 x y := by
  by_cases hy : y = nan
  · exact Or.inl (norm2_eq_nan.mpr hy)
  · exact Or.inr (norm2_nonneg x hy)

theorem errAt_nan_or_nonneg (A B : ℕ → BenchComplex (ExtNum K)) (i : ℕ) :
    errAt A B i = nan ∨ 0 ≤ errAt A B i :=
  norm2_nan_or_nonneg _ _

theorem magAt_nan_or_nonneg (A B : ℕ → BenchComplex (ExtNum K)) (i : ℕ) :
    magAt A B i = nan ∨ 0 ≤ magAt A B i := by
  unfold magAt
  rcases dmin_eq_or (norm2 (A i).re (A i).im) (norm2 (B i).re (B i).im) with h | h <;> rw [h] <;>
    exact norm2_nan_or_nonneg _ _

end Nonneg

/-! ### The fold -/

/-- Index `i` survives a fold over `f` below `n`: no later entry (nor `i` itself) is `NaN`. -/
def Survives (f : ℕ → ExtNum K) (n i : ℕ) : Prop :=
  i < n ∧ ∀ j, i ≤ j → j < n → f j ≠ nan

section Survives

variable {f : ℕ → ExtNum K} {n i : ℕ}

theorem survives_last (h : f n ≠ nan) : Survives f (n + 1) n :=
  ⟨n.lt_succ_self, fun j h1 h2 => by rwa [show j = n by omega]⟩

theorem survives_succ (hn : f n ≠ nan) (hi : i < n) :
    Survives f (n + 1) i ↔ Survives f n i := by
  constructor
  · exact fun h => ⟨hi, fun j h1 h2 => h.2 j h1 (by omega)⟩
  · refine fun h => ⟨by omega, fun j h1 h2 => ?_⟩
    rcases Nat.lt_succ_iff_lt_or_eq.mp h2 with hj | rfl
    · exact h.2 j h1 hj
    · exact hn

theorem Survives.ne_nan (h : Survives f n i) : f i ≠ nan := h.2 i le_rfl h.1

/-- Which entries survive depends on where the fold meets a `NaN` only. -/
theorem Survives.congr {g : ℕ → ExtNum K} (h : ∀ j, f j = nan ↔ g j = nan) :
    Survives f n i ↔ Survives g n i :=
  and_congr_right fun _ => forall₃_congr fun j _ _ => not_congr (h j)

end Survives

section Fold

variable [Field K] [LinearOrder K]

/-- The running maximum of `f` after `n` steps, from `0`. -/
def foldMax (f : ℕ → ExtNum K) (n : ℕ) : ExtNum K :=
  (List.range n).foldl (fun s i => dmax s (f i)) 0

theorem foldMax_succ (f : ℕ → ExtNum K) (n : ℕ) :
    foldMax f (n + 1) = dmax (foldMax f n) (f n) := by
  rw [foldMax, List.range_succ, List.foldl_append]
  rfl

theorem cerrorLoop_eq (A B : ℕ → BenchComplex (ExtNum K)) (n : ℕ) :
    cerrorLoop A B n = (foldMax (errAt A B) n, foldMax (magAt A B) n) := by
  induction n with
  | zero => rfl
  | succ n ih =>
    rw [foldMax_succ, foldMax_succ, cerrorLoop, List.range_succ, List.foldl_append]
    rw [cerrorLoop] at ih
    rw [ih]
    rfl

/-- A `NaN` in the last entry is what the fold returns. -/
theorem foldMax_succ_of_nan {f : ℕ → ExtNum K} {n : ℕ} (h : f n = nan) :
    foldMax f (n + 1) = nan := by
  rw [foldMax_succ, h, dmax_nan_right]

/-- Otherwise the fold returns the largest entry after the last `NaN`. -/
theorem exists_foldMax_eq {f : ℕ → ExtNum K} (hf : ∀ i, f i = nan ∨ 0 ≤ f i) {n : ℕ}
    (hn : f n ≠ nan) :
    ∃ i, Survives f (n + 1) i ∧ foldMax f (n + 1) = f i ∧
      ∀ j, Survives f (n + 1) j → f j ≤ f i := by
  induction n with
  | zero =>
    have h0 : 0 ≤ f 0 := (hf 0).resolve_left hn
    refine ⟨0, survives_last hn, ?_, fun j hj => ?_⟩
    · rw [foldMax_succ]
      exact if_neg fun hlt => not_le_of_lt' hlt h0
    · obtain rfl : j = 0 := by have := hj.1; omega
      exact le_rfl_of_ne_nan hn
  | succ n ih =>
    by_cases hprev : f n = nan
    · -- everything before is forgotten
      refine ⟨n + 1, survives_last hn, ?_, fun j hj => ?_⟩
      · rw [foldMax_succ, foldMax_succ_of_nan hprev, dmax_nan_left]
      · obtain rfl : j = n + 1 := by
          by_contra hne
          have := hj.1
          exact hj.2 n (by omega) (by omega) hprev
        exact le_rfl_of_ne_nan hn
    · obtain ⟨i, hi, heq, hmax⟩ := ih hprev
      have hle := le_dmax hi.ne_nan hn
      rw [foldMax_succ, heq]
      rcases dmax_eq_or (f i) (f (n + 1)) with h | h
      · refine ⟨i, (survives_succ hn hi.1).mpr hi, h, fun j hj => ?_⟩
        rw [h] at hle
        by_cases hjn : j = n + 1
        · rw [hjn]
          exact hle.2
        · exact hmax j ((survives_succ hn (by have := hj.1; omega)).mp hj)
      · refine ⟨n + 1, survives_last hn, h, fun j hj => ?_⟩
        rw [h] at hle
        by_cases hjn : j = n + 1
        · rw [hjn]
          exact hle.2
        · exact le_trans' (hmax j ((survives_succ hn (by have := hj.1; omega)).mp hj)) hle.1

variable {A B : ℕ → BenchComplex (ExtNum K)} {n : ℕ} {tol : ExtNum K}

/-- The relative error is the quotient of the two folds. -/
theorem acmp_of_isnan (h : foldMax (errAt A B) n / foldMax (magAt A B) n = nan) :
    acmp A B n tol = .error .assertFailed := by
  rw [acmp, cerror, cerrorLoop_eq, h]
  rfl

theorem acmp_of_ne_nan (h : foldMax (errAt A B) n / foldMax (magAt A B) n ≠ nan) :
    acmp A B n tol =
      if tol < foldMax (errAt A B) n / foldMax (magAt A B) n then .error .exitFailure
      else .ok (foldMax (errAt A B) n / foldMax (magAt A B) n) := by
  have hassert : ¬(foldMax (errAt A B) n / foldMax (magAt A B) n).isnan := by
    rwa [isnan_eq_true]
  rw [acmp, cerror, cerrorLoop_eq, benchAssert_ok hassert]
  split_ifs with hlt
  · exact if_pos hlt
  · exact if_neg hlt

theorem acmp_isOk_eq_false :
    (acmp A B n tol).isOk = false ↔
      foldMax (errAt A B) n / foldMax (magAt A B) n = nan ∨
      tol < foldMax (errAt A B) n / foldMax (magAt A B) n := by
  by_cases h : foldMax (errAt A B) n / foldMax (magAt A B) n = nan
  · simp [acmp_of_isnan h, h, Except.isOk, Except.toBool]
  · rw [acmp_of_ne_nan h, or_iff_right h]
    split_ifs with hlt
    · exact iff_of_true rfl hlt
    · exact iff_of_false nofun hlt

end Fold

/-! ### Equal arrays of numbers -/

section Equal

variable [Field K] [LinearOrder K] [IsStrictOrderedRing K]

theorem norm2_fin (x y : K) : norm2 (fin x) (fin y) = fin (max |x| |y|) := by
  have hdabs : ∀ z : K, dabs (fin z) = fin |z| := by
    intro z
    rcases lt_or_ge z 0 with hz | hz
    · rw [abs_of_neg hz]
      exact if_pos hz
    · rw [abs_of_nonneg hz]
      exact if_neg (not_lt.mpr hz)
  rw [norm2, hdabs, hdabs]
  rcases lt_or_ge |y| |x| with h | h
  · rw [max_eq_left h.le]
    exact if_pos h
  · rw [max_eq_right h]
    exact if_neg (not_lt.mpr h)

omit [IsStrictOrderedRing K] in
/-- The largest of `n` non-negative numbers is zero only if they all are. -/
theorem exists_foldMax_fin {f : ℕ → ExtNum K} {g : ℕ → K} (hg : ∀ i, 0 ≤ g i) {n : ℕ}
    (hf : ∀ i < n, f i = fin (g i)) :
    ∃ k, foldMax f n = fin k ∧ 0 ≤ k ∧ (k = 0 ↔ ∀ i < n, g i = 0) := by
  induction n with
  | zero => exact ⟨0, rfl, le_rfl, iff_of_true rfl nofun⟩
  | succ n ih =>
    obtain ⟨k, hk, hk0, hzero⟩ := ih fun i hi => hf i (Nat.lt_succ_of_lt hi)
    rw [foldMax_succ, hk, hf n n.lt_succ_self, Nat.forall_lt_succ_right, ← hzero]
    rcases lt_or_ge (g n) k with hlt | hle
    · have hpos : 0 < k := (hg n).trans_lt hlt
      exact ⟨k, if_pos hlt, hk0, iff_of_false hpos.ne' fun h => hpos.ne' h.1⟩
    · exact ⟨g n, if_neg (not_lt.mpr hle), hg n,
        fun h => ⟨le_antisymm (h ▸ hle) hk0, h⟩, fun h => h.2⟩

/-- **`acmp` on equal arrays of numbers**: it finds no error, but divides `0` by `0` when all the
numbers are zero. -/
theorem acmp_of_eq {A B : ℕ → BenchComplex K} {n : ℕ} {tol : ExtNum K} (htol : 0 ≤ tol)
    (h : ∀ i < n, A i = B i) :
    ((∀ i < n, A i = ⟨0, 0⟩) → acmp (numbers A) (numbers B) n tol = .error .assertFailed) ∧
      ((∃ i < n, A i ≠ ⟨0, 0⟩) → acmp (numbers A) (numbers B) n tol = .ok 0) := by
  have herr : ∀ i < n, errAt (numbers A) (numbers B) i = fin ((fun _ => 0) i) := by
    intro i hi
    rw [errAt, numbers, numbers, h i hi, sub_def, sub_def, neg_fin, neg_fin, fin_add_fin,
      fin_add_fin, add_neg_cancel, add_neg_cancel, norm2_fin, abs_zero, max_self]
  have hmag : ∀ i < n, magAt (numbers A) (numbers B) i = fin (max |(A i).re| |(A i).im|) := by
    intro i hi
    rw [magAt, numbers, numbers, ← h i hi, norm2_fin]
    exact if_neg (lt_irrefl _)
  have hzero : ∀ i, max |(A i).re| |(A i).im| = 0 ↔ A i = ⟨0, 0⟩ := by
    intro i
    constructor
    · intro hi
      have hre := (le_max_left |(A i).re| |(A i).im|).trans_eq hi
      have him := (le_max_right |(A i).re| |(A i).im|).trans_eq hi
      exact BenchComplex.ext (abs_nonpos_iff.mp hre) (abs_nonpos_iff.mp him)
    · intro hi
      rw [hi, abs_zero, max_self]
  obtain ⟨e, he, -, he0⟩ := exists_foldMax_fin (fun _ => le_rfl) herr
  obtain ⟨k, hk, -, hk0⟩ := exists_foldMax_fin (fun i => le_max_of_le_left (abs_nonneg _)) hmag
  obtain rfl : e = 0 := he0.mpr fun _ _ => rfl
  simp only [hzero] at hk0
  constructor
  · intro hall
    apply acmp_of_isnan
    rw [he, hk, hk0.mpr hall, fin_div_fin, if_pos rfl, infOfSign_zero]
  · rintro ⟨i, hi, hne⟩
    have hkne : k ≠ 0 := fun hkz => hne (hk0.mp hkz i hi)
    have hdiv : foldMax (errAt (numbers A) (numbers B)) n /
        foldMax (magAt (numbers A) (numbers B)) n = 0 := by
      rw [he, hk, fin_div_fin, if_neg hkne, zero_div]
      rfl
    have hnot : ¬tol < (0 : ExtNum K) := fun hlt => not_le_of_lt' hlt htol
    rw [acmp_of_ne_nan (hdiv ▸ nofun), hdiv, if_neg hnot]

end Equal

/-! ### Soundness of a comparison -/

section Differences

variable [Field K]

/-- No component of the first `n` entries is `NaN`. -/
def NoNaN (A : ℕ → BenchComplex (ExtNum K)) (n : ℕ) : Prop :=
  ∀ i < n, (A i).re ≠ nan ∧ (A i).im ≠ nan

/-- No difference of the first `n` entries is `NaN`: no component is, and no two corresponding
components are the same infinity. -/
def Comparable (A B : ℕ → BenchComplex (ExtNum K)) (n : ℕ) : Prop :=
  ∀ i < n, (A i).re - (B i).re ≠ nan ∧ (A i).im - (B i).im ≠ nan

theorem Comparable.noNaN {A B : ℕ → BenchComplex (ExtNum K)} {n : ℕ} (h : Comparable A B n) :
    NoNaN A n ∧ NoNaN B n :=
  ⟨fun i hi => ⟨(ne_nan_of_sub_ne_nan (h i hi).1).1, (ne_nan_of_sub_ne_nan (h i hi).2).1⟩,
    fun i hi => ⟨(ne_nan_of_sub_ne_nan (h i hi).1).2, (ne_nan_of_sub_ne_nan (h i hi).2).2⟩⟩

end Differences

section Sound

variable [Field K] [LinearOrder K]

/-- A pair that `acmp` accepts has no `NaN`, and its real and imaginary parts differ by at most
`tol` times the magnitude `cerror` divides by. -/
def AcmpSound (A B : ℕ → BenchComplex (ExtNum K)) (n : ℕ) (tol : ExtNum K) : Prop :=
  (acmp A B n tol).isOk →
    NoNaN A n ∧ NoNaN B n ∧
    ∀ i < n, dabs ((A i).re - (B i).re) ≤ tol * (cerrorLoop A B n).2 ∧
      dabs ((A i).im - (B i).im) ≤ tol * (cerrorLoop A B n).2

namespace Comparable

variable {A B : ℕ → BenchComplex (ExtNum K)} {n : ℕ}

theorem errAt_ne_nan (h : Comparable A B n) {i : ℕ} (hi : i < n) : errAt A B i ≠ nan :=
  fun he => (h i hi).2 (norm2_eq_nan.mp he)

theorem survives_err (h : Comparable A B n) {i : ℕ} (hi : i < n) : Survives (errAt A B) n i :=
  ⟨hi, fun _ _ hj => h.errAt_ne_nan hj⟩

theorem survives_mag (h : Comparable A B n) {i : ℕ} (hi : i < n) : Survives (magAt A B) n i :=
  ⟨hi, fun _ _ hj => magAt_ne_nan_of_errAt (h.errAt_ne_nan hj)⟩

theorem dabs_le_errAt (h : Comparable A B n) {i : ℕ} (hi : i < n) :
    dabs ((A i).re - (B i).re) ≤ errAt A B i ∧ dabs ((A i).im - (B i).im) ≤ errAt A B i :=
  le_dmax (fun he => (h i hi).1 (dabs_eq_nan.mp he)) (fun he => (h i hi).2 (dabs_eq_nan.mp he))

/-- Without a `NaN` difference, an infinite magnitude comes with an infinite difference. -/
theorem errAt_eq_posInf (h : Comparable A B n) {i : ℕ} (hi : i < n) (hm : magAt A B i = posInf) :
    errAt A B i = posInf := by
  obtain ⟨hA, hB⟩ := h.noNaN
  have hAi : norm2 (A i).re (A i).im = posInf := by
    unfold magAt dmin at hm
    split_ifs at hm with hlt
    · exact hm
    · rw [hm] at hlt
      exact eq_posInf_of_le (le_of_not_lt' (fun he => (hA i hi).2 (norm2_eq_nan.mp he))
        (by simp) hlt)
  have hsub : ∀ x y : ExtNum K, x - y ≠ nan → Infinite x → Infinite (x - y) := by
    rintro x y hxy (rfl | rfl) <;> cases y <;> first
      | exact Or.inl rfl
      | exact Or.inr rfl
      | exact absurd rfl hxy
  rw [errAt, norm2_eq_posInf_iff (h i hi).2]
  exact ((norm2_eq_posInf_iff (hA i hi).2).mp hAi).imp (hsub _ _ (h i hi).1) (hsub _ _ (h i hi).2)

end Comparable

section Accepted

variable {A B : ℕ → BenchComplex (ExtNum K)} {m n i : ℕ} {tol : ExtNum K}

/-- A sound comparison accepts no pair with a `NaN` difference. -/
theorem AcmpSound.comparable (h : AcmpSound A B m tol) (hok : (acmp A B m tol).isOk) :
    Comparable A B m := by
  obtain ⟨-, -, hle⟩ := h hok
  exact fun i hi => ⟨fun he => ne_nan_of_le (hle i hi).1 (dabs_eq_nan.mpr he),
    fun he => ne_nan_of_le (hle i hi).2 (dabs_eq_nan.mpr he)⟩

theorem acmpSound_of_not_isOk (h : (acmp A B m tol).isOk = false) : AcmpSound A B m tol := by
  intro hok
  rw [h] at hok
  cases hok

/-- The assertion exits on a `NaN` in the last imaginary difference. -/
theorem acmp_isOk_eq_false_of_last (h : (A m).im - (B m).im = nan) :
    (acmp A B (m + 1) tol).isOk = false := by
  rw [acmp_isOk_eq_false, foldMax_succ_of_nan (errAt_eq_nan.mpr h), nan_div]
  exact Or.inl rfl

theorem survives_errAt :
    Survives (errAt A B) n i ↔ Survives (fun i => (A i).im - (B i).im) n i :=
  Survives.congr fun _ => errAt_eq_nan

theorem survives_magAt : Survives (magAt A B) n i ↔ Survives (fun i => (B i).im) n i :=
  Survives.congr fun _ => magAt_eq_nan

end Accepted

end Sound

/-! ### Magnitudes and quotients -/

section Classes

variable [Field K] [LinearOrder K] [IsStrictOrderedRing K]

theorem magAt_eq_zero_iff {A B : ℕ → BenchComplex (ExtNum K)} {i : ℕ} (hB : (B i).im ≠ nan) :
    magAt A B i = 0 ↔ norm2 (A i).re (A i).im = 0 ∨ norm2 (B i).re (B i).im = 0 := by
  have hnorm := norm2_nonneg (B i).re hB
  unfold magAt dmin
  split_ifs with hlt
  · refine ⟨Or.inl, fun h => h.resolve_right fun h0 => ?_⟩
    rw [h0] at hlt
    rcases norm2_nan_or_nonneg (A i).re (A i).im with hA | hA
    · rw [hA] at hlt
      exact not_nan_lt _ hlt
    · exact not_le_of_lt' hlt hA
  · refine ⟨Or.inr, fun h => h.elim (fun h0 => ?_) id⟩
    rw [h0] at hlt
    exact eq_zero_of_le hnorm (le_of_not_lt' nofun (ne_nan_of_nonneg hnorm) hlt)

/-- A quotient within the threshold bounds the dividend, when the divisor is a positive number. -/
theorem le_mul_of_not_lt_div {t x : ExtNum K} {m : K} (ht : 0 ≤ t) (hx : 0 ≤ x) (hm : 0 < m)
    (h : ¬t < x / fin m) : x ≤ t * fin m := by
  rcases nonneg_cases ht with ⟨t, rfl, ht0⟩ | rfl
  · rcases nonneg_cases hx with ⟨x, rfl, hx0⟩ | rfl
    · rw [fin_div_fin, if_neg hm.ne', fin_lt_fin, not_lt, div_le_iff₀ hm] at h
      exact h
    · rw [posInf_div_fin hm.le] at h
      exact absurd trivial h
  · rw [posInf_mul_fin, infOfSign_of_pos hm]
    rcases nonneg_cases hx with ⟨x, rfl, -⟩ | rfl <;> trivial

/-- A quotient that is accepted bounds the dividend, unless both numbers are zero and every quotient
is accepted. -/
theorem le_mul_of_accepted {t x y : ExtNum K} (ht : 0 ≤ t) (hx : 0 ≤ x) (hy : 0 ≤ y)
    (hnan : x / y ≠ nan) (hle : ¬t < x / y) (hsane : t < posInf ∨ y ≠ fin 0)
    (hinf : y = posInf → x = posInf) : x ≤ t * y := by
  rcases nonneg_cases hy with ⟨c, rfl, hc0⟩ | rfl
  · rcases eq_or_lt_of_le hc0 with rfl | hpos
    · -- a quotient by zero that is a number is infinite
      have hlt := hsane.resolve_right fun h => h rfl
      rcases nonneg_cases hx with ⟨e, rfl, he0⟩ | rfl
      · rw [fin_div_fin, if_pos rfl] at hnan hle
        rcases eq_or_lt_of_le he0 with rfl | hepos
        · exact absurd infOfSign_zero hnan
        · rw [infOfSign_of_pos hepos] at hle
          exact absurd hlt hle
      · rw [posInf_div_fin le_rfl] at hle
        exact absurd hlt hle
    · exact le_mul_of_not_lt_div ht hx hpos hle
  · rw [hinf rfl] at hnan
    exact absurd rfl hnan

/-- A number divided by a positive magnitude. -/
theorem exists_fin_div {e : K} {y : ExtNum K} (he : 0 ≤ e) (hy : 0 < y) :
    ∃ d, 0 ≤ d ∧ fin e / y = fin d := by
  cases y with
  | fin c => exact ⟨e / c, div_nonneg he (le_of_lt hy), if_neg (ne_of_gt hy)⟩
  | posInf => exact ⟨0, le_rfl, rfl⟩
  | negInf => exact absurd hy id
  | nan => exact absurd hy id

end Classes

/-! ### Accepted pairs -/

section Accepted

variable [Field K] [LinearOrder K] [IsStrictOrderedRing K] {A B : ℕ → BenchComplex (ExtNum K)}
  {m : ℕ} {tol : ExtNum K}

theorem Comparable.sound (htol : 0 ≤ tol) (hcmp : Comparable A B (m + 1))
    (hsane : tol < posInf ∨ ∃ i < m + 1, 0 < magAt A B i) : AcmpSound A B (m + 1) tol := by
  intro hok
  obtain ⟨hA, hB⟩ := hcmp.noNaN
  obtain ⟨i, hi, heq, hmax⟩ := exists_foldMax_eq (errAt_nan_or_nonneg A B)
    (hcmp.survives_err m.lt_succ_self).ne_nan
  obtain ⟨j, hj, heq', hmax'⟩ := exists_foldMax_eq (magAt_nan_or_nonneg A B)
    (hcmp.survives_mag m.lt_succ_self).ne_nan
  have hnot : ¬(acmp A B (m + 1) tol).isOk = false := fun h => by rw [h] at hok; cases hok
  rw [acmp_isOk_eq_false, heq, heq', not_or] at hnot
  have hsane' : tol < posInf ∨ magAt A B j ≠ fin 0 := by
    refine hsane.imp_right ?_
    rintro ⟨k, hk, hkpos⟩ h0
    have hle := hmax' k (hcmp.survives_mag hk)
    rw [h0] at hle
    exact not_le_of_lt' hkpos hle
  -- it is enough to bound the largest difference
  have herr : errAt A B i ≤ tol * magAt A B j := by
    apply le_mul_of_accepted htol ((errAt_nan_or_nonneg A B i).resolve_left hi.ne_nan)
      ((magAt_nan_or_nonneg A B j).resolve_left hj.ne_nan) hnot.1 hnot.2 hsane'
    intro hinf
    have hle := hmax j (hcmp.survives_err hj.1)
    rw [hcmp.errAt_eq_posInf hj.1 hinf] at hle
    exact eq_posInf_of_le hle
  refine ⟨hA, hB, fun k hk => ?_⟩
  have hk' := hmax k (hcmp.survives_err hk)
  rw [cerrorLoop_eq, heq']
  exact ⟨le_trans' (hcmp.dabs_le_errAt hk).1 (le_trans' hk' herr),
    le_trans' (hcmp.dabs_le_errAt hk).2 (le_trans' hk' herr)⟩

/-- An infinite error is above every number. -/
theorem acmp_isOk_eq_false_of_infinite (htol : tol < posInf) (hmag : magAt A B m ≠ nan)
    (h : foldMax (errAt A B) (m + 1) = posInf) : (acmp A B (m + 1) tol).isOk = false := by
  obtain ⟨j, hj, heq, -⟩ := exists_foldMax_eq (magAt_nan_or_nonneg A B) hmag
  rw [acmp_isOk_eq_false, h, heq]
  rcases nonneg_cases ((magAt_nan_or_nonneg A B j).resolve_left hj.ne_nan) with ⟨c, hc, hc0⟩ | hc
  · rw [hc, posInf_div_fin hc0]
    exact Or.inr htol
  · rw [hc, posInf_div_posInf]
    exact Or.inl rfl

/-- So is an error divided by zero, unless it is `NaN`. -/
theorem acmp_isOk_eq_false_of_zero (htol : tol < posInf) (herr : errAt A B m ≠ nan)
    (h : foldMax (magAt A B) (m + 1) = 0) : (acmp A B (m + 1) tol).isOk = false := by
  obtain ⟨i, hi, heq, -⟩ := exists_foldMax_eq (errAt_nan_or_nonneg A B) herr
  rw [acmp_isOk_eq_false, h, heq]
  rcases nonneg_cases ((errAt_nan_or_nonneg A B i).resolve_left hi.ne_nan) with ⟨e, he, he0⟩ | he
  · rw [he, zero_def, fin_div_fin, if_pos rfl]
    rcases eq_or_lt_of_le he0 with rfl | hpos
    · exact Or.inl infOfSign_zero
    · rw [infOfSign_of_pos hpos]
      exact Or.inr htol
  · rw [he, zero_def, posInf_div_fin le_rfl]
    exact Or.inr htol

/-- Pairs for which `acmp` is sound at every tolerance that is a number: no difference is `NaN`, or
the assertion meets the last imaginary difference; or else what is not forgotten has an infinite
difference, or no magnitude. -/
inductive Trusted (A B : ℕ → BenchComplex (ExtNum K)) (n : ℕ) : Prop
  | comparable (h : Comparable A B n)
  | caught (h : (A (n - 1)).im - (B (n - 1)).im = nan)
  | infinite (i : ℕ) (hi : Survives (fun i => (A i).im - (B i).im) n i)
    (h : Infinite ((A i).re - (B i).re) ∨ Infinite ((A i).im - (B i).im))
  | zero (h : ∀ i, Survives (fun i => (B i).im) n i →
      norm2 (A i).re (A i).im = 0 ∨ norm2 (B i).re (B i).im = 0)

theorem Trusted.sound (htol : 0 ≤ tol) (hfin : tol < posInf) (h : Trusted A B (m + 1)) :
    AcmpSound A B (m + 1) tol := by
  by_cases hlast : errAt A B m = nan
  · exact acmpSound_of_not_isOk (acmp_isOk_eq_false_of_last (errAt_eq_nan.mp hlast))
  have hmag := magAt_ne_nan_of_errAt hlast
  cases h with
  | comparable h => exact h.sound htol (Or.inl hfin)
  | caught h => exact absurd (errAt_eq_nan.mpr h) hlast
  | infinite i hi h =>
    obtain ⟨k, hk, heq, hmax⟩ := exists_foldMax_eq (errAt_nan_or_nonneg A B) hlast
    have hle := hmax i (survives_errAt.mpr hi)
    rw [errAt, (norm2_eq_posInf_iff hi.ne_nan).mpr h] at hle
    exact acmpSound_of_not_isOk (acmp_isOk_eq_false_of_infinite hfin hmag
      (heq.trans (eq_posInf_of_le hle)))
  | zero h =>
    obtain ⟨k, hk, heq, -⟩ := exists_foldMax_eq (magAt_nan_or_nonneg A B) hmag
    have hk' := survives_magAt.mp hk
    have hzero := (magAt_eq_zero_iff hk'.ne_nan).mpr (h k hk')
    exact acmpSound_of_not_isOk (acmp_isOk_eq_false_of_zero hfin hlast (heq.trans hzero))

/-- Otherwise a pair with a `NaN` difference is accepted at the tolerance that is its error. -/
theorem Trusted.of_sound (h : ∀ tol, 0 ≤ tol → tol < posInf → AcmpSound A B (m + 1) tol) :
    Trusted A B (m + 1) := by
  by_cases hlast : errAt A B m = nan
  · exact .caught (errAt_eq_nan.mp hlast)
  obtain ⟨i, hi, heq, -⟩ := exists_foldMax_eq (errAt_nan_or_nonneg A B) hlast
  obtain ⟨j, hj, heq', hmax⟩ :=
    exists_foldMax_eq (magAt_nan_or_nonneg A B) (magAt_ne_nan_of_errAt hlast)
  have hi' := survives_errAt.mp hi
  rcases nonneg_cases ((errAt_nan_or_nonneg A B i).resolve_left hi.ne_nan) with ⟨e, he, he0⟩ | he
  · have hj0 := (magAt_nan_or_nonneg A B j).resolve_left hj.ne_nan
    by_cases hzero : magAt A B j = 0
    · refine .zero fun k hk => ?_
      have hk' : Survives (magAt A B) (m + 1) k := survives_magAt.mpr hk
      have hle := hmax k hk'
      rw [hzero] at hle
      exact (magAt_eq_zero_iff hk.ne_nan).mp
        (eq_zero_of_le ((magAt_nan_or_nonneg A B k).resolve_left hk'.ne_nan) hle)
    · have hpos : 0 < magAt A B j := by
        by_contra hnot
        exact hzero (eq_zero_of_le hj0 (le_of_not_lt' nofun hj.ne_nan hnot))
      obtain ⟨d, hd0, hd⟩ := exists_fin_div he0 hpos
      refine .comparable ((h (fin d) hd0 trivial).comparable ?_)
      rw [← Bool.not_eq_false, acmp_isOk_eq_false, heq, heq', he, hd, not_or]
      exact ⟨nofun, fun hlt => lt_irrefl d hlt⟩
  · exact .infinite i hi' ((norm2_eq_posInf_iff hi'.ne_nan).mp he)

end Accepted

variable [Field K] [LinearOrder K] [IsStrictOrderedRing K]

end BenchFFT.Verify
