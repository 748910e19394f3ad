import BenchFFT.Chirp
import BenchFFT.Mp.Equiv.Bitrev
import Mathlib.Analysis.SpecialFunctions.Trigonometric.Basic
import Mathlib.Analysis.SpecialFunctions.Complex.Circle

/-!
# The power-of-two transform in exact arithmetic

With exact numbers, and `cexp_builtin` returning the exact roots of unity, `fft0 (2 ^ t)` is the
discrete Fourier transform (`fft0_eq`).  After `s` stages block `r` of `2 ^ s` entries holds the
transform of the entries that start at `rev (t - s) r` with stride `2 ^ (t - s)` (`Partial`); a
stage combines the blocks `2 * r` and `2 * r + 1` (`partial_succ`).
-/

namespace BenchFFT.Mp

open Chirp

/-! ### Stages over any numbers -/

section Pure

variable {A : Type} [Add A] [Sub A] [Mul A] (f : ℤ → ℤ → A × A)

/-- A stage of `fft0` with half-size `i`. -/
def stage (n : ℕ) (sign : ℤ) (i : ℕ) (a : ℕ → A) : ℕ → A :=
  forRange i (fun j => forStep j n (2 * i)
    (butterfly (f (sign * j) (2 * i)).1 (f (sign * j) (2 * i)).2 i)) a

theorem fft0_two_pow {t : ℕ} {a a' : ℕ → A} (ha : bitrev (2 ^ t) a = some a') (sign : ℤ) :
    fft0 (fun m n => pure (f m n)) (2 ^ t) a sign
      = pure (forRange t (fun s => stage f (2 ^ t) sign (2 ^ s)) a') := by
  rw [fft0, ha, ofOption, pure_bind, forDoubleM_one_two_pow]
  refine forRangeM_pure (fun s _ b => forRangeM_pure (fun j _ c => ?_) b) a'
  rw [pure_bind]

end Pure

/-! ### Exact arithmetic -/

/-- `exp(2*pi*i*m/n)`. -/
noncomputable def cis (m n : ℤ) : ℂ := Complex.exp ((2 * m : ℤ) * Real.pi * Complex.I / n)

/-- The parts of `cis m n`. -/
noncomputable def exactCexp (m n : ℤ) : ℝ × ℝ :=
  (Real.cos ((2 * m : ℤ) * Real.pi / n), Real.sin ((2 * m : ℤ) * Real.pi / n))

def toComplex (z : ℝ × ℝ) : ℂ := ⟨z.1, z.2⟩

/-- Entry `k` of an array of exact numbers. -/
def centry (a : ℕ → ℝ) (k : ℕ) : ℂ := toComplex (entry a k)

theorem toComplex_exactCexp (m n : ℤ) : toComplex (exactCexp m n) = cis m n := by
  have harg : ((2 * m : ℤ) * Real.pi * Complex.I / n : ℂ)
      = (((2 * m : ℤ) * Real.pi / n : ℝ) : ℂ) * Complex.I := by
    push_cast
    ring
  rw [cis, harg]
  exact Complex.ext (Complex.exp_ofReal_mul_I_re _).symm (Complex.exp_ofReal_mul_I_im _).symm

theorem cis_pow (m n : ℤ) (k : ℕ) : cis m n ^ k = cis (m * k) n := by
  rw [cis, cis, ← Complex.exp_nat_mul]
  congr 1
  push_cast
  ring

theorem cis_two_mul (m n : ℤ) : cis m (2 * n) ^ 2 = cis m n := by
  rw [cis, cis, ← Complex.exp_nat_mul]
  congr 1
  push_cast
  ring

theorem cis_half {m : ℤ} (hm : m = 1 ∨ m = -1) {n : ℕ} (hn : 0 < n) : cis m (2 * n) ^ n = -1 := by
  have h0 : (n : ℂ) ≠ 0 := Nat.cast_ne_zero.mpr hn.ne'
  have harg : ((2 * (m * n) : ℤ) * Real.pi * Complex.I / (2 * n : ℤ) : ℂ)
      = m * (Real.pi * Complex.I) := by
    push_cast
    field_simp
  rw [cis_pow, cis, harg]
  rcases hm with rfl | rfl
  · rw [Int.cast_one, one_mul, Complex.exp_pi_mul_I]
  · rw [Int.cast_neg, Int.cast_one, neg_one_mul, Complex.exp_neg, Complex.exp_pi_mul_I]
    norm_num

theorem centry_setEntry (a : ℕ → ℝ) (k : ℕ) (z : ℝ × ℝ) (j : ℕ) :
    centry (setEntry a k z) j = if j = k then toComplex z else centry a j := by
  rw [centry, entry_setEntry]
  split_ifs <;> rfl

theorem centry_butterfly (w : ℝ × ℝ) (i k : ℕ) (a : ℕ → ℝ) (q : ℕ) :
    centry (butterfly w.1 w.2 i k a) q
      = if q = k + i then centry a k - toComplex w * centry a (k + i)
        else if q = k then centry a k + toComplex w * centry a (k + i)
        else centry a q := by
  unfold butterfly
  rw [centry_setEntry, centry_setEntry]
  refine if_congr Iff.rfl ?_ (if_congr Iff.rfl ?_ rfl)
  all_goals
    apply Complex.ext <;> simp [toComplex, centry, entry, Nat.mul_add] <;> ring

/-- What a stage with half-size `i` leaves in entry `q`, where the entries held `old`. -/
noncomputable def combined (sign : ℤ) (i : ℕ) (old : ℕ → ℂ) (q : ℕ) : ℂ :=
  if q % (2 * i) < i then
    old q + cis (sign * (q % (2 * i) : ℕ)) (2 * i) * old (q + i)
  else
    old (q - i) - cis (sign * (q % (2 * i) - i : ℕ)) (2 * i) * old q

/-- The entries of butterfly `r` with twiddle `j`. -/
theorem pair_iff {i j r q : ℕ} (hj : j < i) :
    (q = j + r * (2 * i) ∨ q = j + r * (2 * i) + i)
      ↔ q / (2 * i) = r ∧ (q % (2 * i) = j ∨ q % (2 * i) = j + i) := by
  constructor
  · rintro (rfl | rfl)
    · rw [Nat.add_comm, row_div (by omega), row_mod (by omega)]
      exact ⟨rfl, Or.inl rfl⟩
    · rw [Nat.add_right_comm, Nat.add_comm, row_div (by omega), row_mod (by omega)]
      exact ⟨rfl, Or.inr rfl⟩
  · rintro ⟨rfl, h⟩
    have hq := Nat.div_add_mod' q (2 * i)
    omega

theorem patches_butterfly (sign : ℤ) {i j : ℕ} (hj : j < i) (r : ℕ) (old : ℕ → ℂ) :
    Patches centry (butterfly (exactCexp (sign * j) (2 * i)).1 (exactCexp (sign * j) (2 * i)).2 i
      (j + r * (2 * i))) (fun q => q = j + r * (2 * i) ∨ q = j + r * (2 * i) + i) old
      (combined sign i old) where
  on a ha q hq := by
    have hmod : (j + r * (2 * i)) % (2 * i) = j := by
      rw [Nat.add_comm, row_mod (by omega)]
    have hmod' : (j + r * (2 * i) + i) % (2 * i) = j + i := by
      rw [Nat.add_right_comm, Nat.add_comm, row_mod (by omega)]
    rw [centry_butterfly, toComplex_exactCexp, ha _ (Or.inl rfl), ha _ (Or.inr rfl), combined]
    rcases hq with rfl | rfl
    · rw [if_neg (by omega), if_pos rfl, hmod, if_pos hj]
    · rw [if_pos rfl, hmod', if_neg (by omega), Nat.add_sub_cancel, Nat.add_sub_cancel]
  off a q hq := by
    rw [centry_butterfly, if_neg fun h => hq (Or.inr h), if_neg fun h => hq (Or.inl h)]

/-- A stage, on whole blocks. -/
theorem patches_stage (sign : ℤ) (i blocks : ℕ) (old : ℕ → ℂ) :
    Patches centry (stage exactCexp (blocks * (2 * i)) sign i) (· < blocks * (2 * i)) old
      (combined sign i old) := by
  -- the inner loop writes one pair in each block
  have hrow : ∀ j < i, Patches centry (forStep j (blocks * (2 * i)) (2 * i)
      (butterfly (exactCexp (sign * j) (2 * i)).1 (exactCexp (sign * j) (2 * i)).2 i))
      (fun q => ∃ r < blocks, q = j + r * (2 * i) ∨ q = j + r * (2 * i) + i) old
      (combined sign i old) := by
    intro j hj
    have hlt : ∀ r < blocks, j + r * (2 * i) < blocks * (2 * i) := fun r hr => by
      rw [Nat.add_comm]
      exact row_lt (Nat.mul_le_mul_right _ hr) (by omega)
    have hdisj : ∀ r < blocks, ∀ r' < blocks, ∀ q,
        (q = j + r * (2 * i) ∨ q = j + r * (2 * i) + i) →
        (q = j + r' * (2 * i) ∨ q = j + r' * (2 * i) + i) → r = r' := fun r _ r' _ q h h' =>
      ((pair_iff hj).mp h).1.symm.trans ((pair_iff hj).mp h').1
    have hloop := Patches.forRange (fun r (_ : r < blocks) => patches_butterfly sign hj r old) hdisj
    refine ⟨fun a ha q hq => ?_, fun a q hq => ?_⟩
    · rw [forStep_eq (by omega) blocks j _ hlt (by omega)]
      exact hloop.on a ha q hq
    · rw [forStep_eq (by omega) blocks j _ hlt (by omega)]
      exact hloop.off a q hq
  -- the twiddle index `j` is the place of the pair in its block
  have hdisj : ∀ j < i, ∀ j' < i, ∀ q,
      (∃ r < blocks, q = j + r * (2 * i) ∨ q = j + r * (2 * i) + i) →
      (∃ r < blocks, q = j' + r * (2 * i) ∨ q = j' + r * (2 * i) + i) → j = j' := by
    rintro j hj j' hj' q ⟨r, -, h⟩ ⟨r', -, h'⟩
    have h := ((pair_iff hj).mp h).2
    have h' := ((pair_iff hj').mp h').2
    omega
  refine (Patches.forRange hrow hdisj).congr fun q => ⟨?_, fun hq => ?_⟩
  · rintro ⟨j, hj, r, hr, h⟩
    obtain ⟨rfl, -⟩ := (pair_iff hj).mp h
    exact (Nat.div_lt_iff_lt_mul (by omega)).mp hr
  · have hi : 0 < 2 * i := Nat.pos_of_mul_pos_left (Nat.zero_lt_of_lt hq)
    have hr : q / (2 * i) < blocks := (Nat.div_lt_iff_lt_mul hi).mpr hq
    have hmod := Nat.mod_lt q hi
    by_cases hlow : q % (2 * i) < i
    · exact ⟨q % (2 * i), hlow, q / (2 * i), hr, (pair_iff hlow).mpr ⟨rfl, Or.inl rfl⟩⟩
    · have hj : q % (2 * i) - i < i := by omega
      exact ⟨_, hj, q / (2 * i), hr, (pair_iff hj).mpr ⟨rfl, Or.inr (by omega)⟩⟩

/-! ### Partial transforms -/

/-- Blocks of `2 ^ s` entries hold the transforms of the input entries with stride
`2 ^ (t - s)`. -/
def Partial (t s : ℕ) (sign : ℤ) (x y : ℕ → ℂ) : Prop :=
  ∀ r < 2 ^ (t - s), ∀ j < 2 ^ s, y (r * 2 ^ s + j)
    = dft (2 ^ s) (cis sign (2 ^ s : ℕ)) (fun l => x (rev (t - s) r + l * 2 ^ (t - s))) j

/-- A stage combines the transforms of the even and of the odd entries. -/
theorem partial_succ {t s : ℕ} (hs : s < t) {sign : ℤ} (hsign : sign = 1 ∨ sign = -1)
    {x y : ℕ → ℂ} (h : Partial t s sign x y) :
    Partial t (s + 1) sign x (combined sign (2 ^ s) y) := by
  obtain ⟨u, rfl⟩ : ∃ u, t = s + 1 + u := Nat.exists_eq_add_of_le hs
  intro r hr j hj
  rw [show s + 1 + u - (s + 1) = u by omega] at hr ⊢
  unfold Partial at h
  rw [show s + 1 + u - s = u + 1 by omega] at h
  have hpow : 2 ^ (s + 1) = 2 * 2 ^ s := by rw [Nat.pow_succ, Nat.mul_comm]
  have hpos := Nat.two_pow_pos s
  rw [hpow] at hj ⊢
  have hu : 2 ^ (u + 1) = 2 * 2 ^ u := by rw [Nat.pow_succ, Nat.mul_comm]
  have hroot : cis sign ((2 * 2 ^ s : ℕ) : ℤ) ^ 2 = cis sign (2 ^ s : ℕ) := by
    rw [Nat.cast_mul, Nat.cast_ofNat, cis_two_mul]
  -- the two blocks that entry `j` of block `r` is combined from
  have heven : ∀ k < 2 ^ s, y (r * (2 * 2 ^ s) + k) = dft (2 ^ s)
      (cis sign ((2 * 2 ^ s : ℕ) : ℤ) ^ 2) (fun l => x (rev u r + 2 * l * 2 ^ u)) k := by
    intro k hk
    rw [show r * (2 * 2 ^ s) = 2 * r * 2 ^ s by ring, h (2 * r) (by omega) k hk, rev_two_mul, hroot,
      hu]
    refine dft_congr (fun l _ => ?_) k
    congr 1
    ring
  have hodd : ∀ k < 2 ^ s, y (r * (2 * 2 ^ s) + k + 2 ^ s) = dft (2 ^ s)
      (cis sign ((2 * 2 ^ s : ℕ) : ℤ) ^ 2) (fun l => x (rev u r + (2 * l + 1) * 2 ^ u)) k := by
    intro k hk
    rw [show r * (2 * 2 ^ s) + k + 2 ^ s = (2 * r + 1) * 2 ^ s + k by ring,
      h (2 * r + 1) (by omega) k hk, rev_two_mul_add_one, hroot, hu]
    refine dft_congr (fun l _ => ?_) k
    congr 1
    ring
  have htwiddle : ∀ k : ℕ, cis (sign * (k : ℕ)) (2 * (2 ^ s : ℕ))
      = cis sign ((2 * 2 ^ s : ℕ) : ℤ) ^ k := by
    intro k
    rw [cis_pow, Nat.cast_mul, Nat.cast_ofNat]
  rw [combined, row_mod hj]
  split_ifs with hlow
  · rw [heven j hlow, hodd j hlow, dft_two_mul, htwiddle]
  · obtain ⟨k, rfl⟩ : ∃ k, j = k + 2 ^ s := ⟨j - 2 ^ s, by omega⟩
    have hk : k < 2 ^ s := by omega
    have hhalf : cis sign ((2 * 2 ^ s : ℕ) : ℤ) ^ 2 ^ s = -1 := by
      rw [Nat.cast_mul]
      exact cis_half hsign hpos
    rw [show r * (2 * 2 ^ s) + (k + 2 ^ s) - 2 ^ s = r * (2 * 2 ^ s) + k by omega,
      Nat.add_sub_cancel, ← Nat.add_assoc, heven k hk, hodd k hk, dft_two_mul_add hhalf, htwiddle]

/-- **`fft0` is the discrete Fourier transform** of every power-of-two size. -/
theorem fft0_eq (t : ℕ) (a : ℕ → ℝ) {sign : ℤ} (hsign : sign = 1 ∨ sign = -1) :
    ∃ a', fft0 (fun m n => pure (exactCexp m n)) (2 ^ t) a sign = pure a' ∧
      ∀ k < 2 ^ t, centry a' k = dft (2 ^ t) (cis sign (2 ^ t : ℕ)) (centry a) k := by
  obtain ⟨b, hb, hentry, -⟩ := bitrev_eq t a
  refine ⟨_, fft0_two_pow exactCexp hb sign, fun k hk => ?_⟩
  -- blocks of one entry, in bit-reversed order
  have h0 : Partial t 0 sign (centry a) (centry b) := by
    intro r hr j hj
    obtain rfl : j = 0 := by simpa using hj
    rw [Nat.sub_zero] at hr ⊢
    rw [Nat.pow_zero, Nat.mul_one, Nat.add_zero, dft, Finset.sum_range_one, Nat.zero_mul, pow_zero,
      mul_one, Nat.add_zero, centry, hentry r hr]
    rfl
  -- a stage merges neighbouring blocks
  have hstep : ∀ s < t, ∀ c, Partial t s sign (centry a) (centry c) →
      Partial t (s + 1) sign (centry a) (centry (stage exactCexp (2 ^ t) sign (2 ^ s) c)) := by
    intro s hs c hc
    have hwhole : 2 ^ t = 2 ^ (t - (s + 1)) * (2 * 2 ^ s) := by
      rw [← Nat.pow_succ', ← Nat.pow_add, Nat.sub_add_cancel hs]
    have hstage := patches_stage sign (2 ^ s) (2 ^ (t - (s + 1))) (centry c)
    rw [← hwhole] at hstage
    intro r hr j hj
    have hlt : r * 2 ^ (s + 1) + j < 2 ^ t := by
      rw [hwhole, ← Nat.pow_succ']
      exact row_lt (Nat.mul_le_mul_right _ hr) hj
    rw [hstage.on c (fun _ _ => rfl) _ hlt]
    exact partial_succ hs hsign hc r hr j hj
  have h := forRange_induction (fun s b => Partial t s sign (centry a) (centry b)) h0 hstep 0
    (by simp) k hk
  rw [Nat.zero_mul, Nat.zero_add, Nat.sub_self, rev_zero] at h
  rw [h]
  refine dft_congr (fun l _ => ?_) k
  rw [Nat.zero_add, Nat.pow_zero, Nat.mul_one]

/-- **`fft0` with its sum written out**, whatever the static variables hold. -/
theorem fft0_run (t : ℕ) (a : ℕ → ℝ) {sign : ℤ} (hsign : sign = 1 ∨ sign = -1) (st : Statics ℝ) :
    ∃ a', fft0 (fun m n => pure (exactCexp m n)) (2 ^ t) a sign st = .ok (a', st) ∧
      ∀ k < 2 ^ t, centry a' k = ∑ j ∈ Finset.range (2 ^ t),
        centry a j * Complex.exp (sign * 2 * Real.pi * Complex.I * j * k / (2 ^ t : ℕ)) := by
  obtain ⟨a', hrun, ha'⟩ := fft0_eq t a hsign
  refine ⟨a', by rw [hrun]; rfl, fun k hk => ?_⟩
  rw [ha' k hk, dft]
  refine Finset.sum_congr rfl fun j _ => ?_
  rw [cis_pow, cis]
  congr 2
  push_cast
  ring

/-- Four points, backward, in a new process. -/
theorem fft0_run_four : ∃ a', fft0 (fun m n => pure (exactCexp m n)) (2 ^ 2) (fun k => (k : ℝ)) 1
      (initialStatics 0 fun _ _ => 1) = .ok (a', initialStatics 0 fun _ _ => 1) ∧
    ∀ k < 2 ^ 2, centry a' k = ∑ j ∈ Finset.range (2 ^ 2), centry (fun k => (k : ℝ)) j
      * Complex.exp ((1 : ℤ) * 2 * Real.pi * Complex.I * j * k / (2 ^ 2 : ℕ)) :=
  fft0_run 2 _ (Or.inl rfl) _

end BenchFFT.Mp
