import BenchFFT.Mp.Equiv.Fft0
import Mathlib.RingTheory.RootsOfUnity.Complex

/-!
# The transform of any size in exact arithmetic

`fft1` is the discrete Fourier transform of every size (`fft1_eq`), also when it has to compute its
tables first.

* `bluesteinSequence_eq`: the residues `ksq` keep `k^2` modulo `2 * n`, so `w` is the chirp.
* `wrap` and the zero padding give a convolution of length `nb` whose entries below `n` are those of
  the chirp identity (`Chirp.dft_eq_chirp`).
* `swapri` before and after turns one sign into the other (`dft_swap`).
-/

namespace BenchFFT.Mp

open Chirp Finset

/-! ### Loops over entries -/

section Entries

variable {A : Type}

/-- A loop whose step `i` replaces entry `i` by a function of itself. -/
theorem entry_forRange_setEntry (n : ℕ) (g : ℕ → A × A → A × A) (a : ℕ → A) (q : ℕ) :
    entry (forRange n (fun i a => setEntry a i (g i (entry a i))) a) q
      = if q < n then g q (entry a q) else entry a q := by
  have hstep : ∀ i < n, Patches entry (fun a => setEntry a i (g i (entry a i))) (· = i) (entry a)
      (fun q => g q (entry a q)) := by
    refine fun i _ => ⟨fun b hb k hk => ?_, fun b k hk => ?_⟩
    · rw [entry_setEntry, if_pos hk, hb i rfl, hk]
    · rw [entry_setEntry, if_neg hk]
  have hloop := Patches.forRange hstep fun i _ j _ k hi hj => hi.symm.trans hj
  split_ifs with hq
  · exact hloop.on a (fun _ _ => rfl) q ⟨q, hq, rfl⟩
  · exact hloop.off a q fun ⟨i, hi, hqi⟩ => hq (hqi ▸ hi)

/-- A loop that copies `g i` into entry `p i`. -/
theorem entry_forRange_copy {n : ℕ} {p : ℕ → ℕ} (hp : ∀ i < n, ∀ j < n, p i = p j → i = j)
    (g : ℕ → A × A) (a : ℕ → A) :
    (∀ i < n, entry (forRange n (fun i a => setEntry a (p i) (g i)) a) (p i) = g i) ∧
      ∀ q, (∀ i < n, q ≠ p i) → entry (forRange n (fun i a => setEntry a (p i) (g i)) a) q
        = entry a q := by
  induction n with
  | zero => exact ⟨fun i hi => absurd hi i.not_lt_zero, fun q _ => rfl⟩
  | succ n ih =>
    obtain ⟨hon, hoff⟩ := ih fun i hi j hj =>
      hp i (Nat.lt_succ_of_lt hi) j (Nat.lt_succ_of_lt hj)
    refine ⟨fun i hi => ?_, fun q hq => ?_⟩
    · rw [forRange_succ, entry_setEntry]
      split_ifs with h
      · rw [hp i hi n n.lt_succ_self h]
      · have hne : i ≠ n := fun hin => h (by rw [hin])
        exact hon i (by omega)
    · rw [forRange_succ, entry_setEntry, if_neg (hq n n.lt_succ_self)]
      exact hoff q fun i hi => hq i (Nat.lt_succ_of_lt hi)

theorem entry_clear [Zero A] (nb : ℕ) (a : ℕ → A) {q : ℕ} (hq : q < nb) :
    entry (clear (2 * nb) a) q = (0, 0) := by
  have h := forRange_update_apply (2 * nb) (fun _ _ => (0 : A)) a
  unfold entry clear
  rw [h, h, if_pos (by omega), if_pos (by omega)]

/-- The two copies of `w`, and zeros between. -/
theorem entry_wrap [Zero A] {n nb : ℕ} (hnb : 2 * n ≤ nb) (w y : ℕ → A) {q : ℕ} (hq : q < nb) :
    entry (wrap n nb w y) q
      = if q < n then entry w q else if nb - q < n then entry w (nb - q) else (0, 0) := by
  have hinj : ∀ i < n - 1, ∀ j < n - 1, nb - (i + 1) = nb - (j + 1) → i = j := by omega
  obtain ⟨hon, hoff⟩ := entry_forRange_copy hinj (fun j => entry w (j + 1))
    (forRange n (fun i y => setEntry y i (entry w i)) (clear (2 * nb) y))
  have hhead := entry_forRange_setEntry n (fun i _ => entry w i) (clear (2 * nb) y) q
  have hdef : wrap n nb w y = forRange (n - 1) (fun j y => setEntry y (nb - (j + 1))
      (entry w (j + 1))) (forRange n (fun i y => setEntry y i (entry w i)) (clear (2 * nb) y)) :=
    rfl
  rw [hdef]
  split_ifs with h1 h2
  · rw [hoff q (by omega), hhead, if_pos h1]
  · have h := hon (nb - q - 1) (by omega)
    rwa [show nb - q - 1 + 1 = nb - q by omega, show nb - (nb - q) = q by omega] at h
  · rw [hoff q (by omega), hhead, if_neg h1, entry_clear nb y hq]

end Entries

/-! ### The length of the convolution -/

theorem pow2AtleastFrom_two_pow (x s : ℕ) (hs : 2 ^ s ≤ 2 * x) :
    ∃ t, pow2AtleastFrom x (2 ^ s) = 2 ^ t ∧ x ≤ 2 ^ t ∧ 2 ^ t ≤ 2 * x := by
  induction h : 2 * x - 2 ^ s using Nat.strong_induction_on generalizing s with
  | _ d ih =>
    rw [pow2AtleastFrom]
    by_cases hlt : 2 ^ s < x
    · rw [if_pos ⟨Nat.two_pow_pos s, hlt⟩, ← Nat.pow_succ']
      have hpos := Nat.two_pow_pos s
      have hsucc : 2 ^ (s + 1) = 2 * 2 ^ s := Nat.pow_succ'
      exact ih _ (by omega) (s + 1) (by omega) rfl
    · rw [if_neg fun h => hlt h.2]
      exact ⟨s, rfl, by omega, hs⟩

theorem pow2Atleast_spec {x : ℕ} (hx : 0 < x) :
    ∃ t, pow2Atleast x = 2 ^ t ∧ x ≤ 2 ^ t ∧ 2 ^ t ≤ 2 * x :=
  pow2AtleastFrom_two_pow x 0 (by omega)

/-! ### The chirp -/

theorem reduce_eq {n2 : ℕ} (hn2 : 0 < n2) (x : ℕ) :
    ∃ y, reduce n2 x = some y ∧ y ≤ n2 ∧ y ≡ x [MOD n2] := by
  induction x using Nat.strong_induction_on with
  | _ x ih =>
    rw [reduce]
    by_cases hlt : n2 < x
    · obtain ⟨y, hy, hle, hmod⟩ := ih (x - n2) (by omega)
      rw [if_pos hlt, if_neg hn2.ne']
      refine ⟨y, hy, hle, hmod.trans ?_⟩
      exact (Nat.modEq_iff_dvd' (Nat.sub_le x n2)).mpr ⟨1, by omega⟩
    · rw [if_neg hlt]
      exact ⟨x, rfl, by omega, rfl⟩

/-- A step of `bluestein_sequence`. -/
def sequenceStep {A : Type} (cexp : ℤ → ℤ → Prog A (A × A)) (n2 k : ℕ) (s : ℕ × (ℕ → A)) :
    Prog A (ℕ × (ℕ → A)) := do
  let ksq ← ofOption (reduce n2 (s.1 + 2 * k - 1))
  let z ← cexp ksq n2
  pure (ksq, setEntry s.2 k z)

theorem bluesteinSequence_eq {A : Type} (f : ℤ → ℤ → A × A) {n : ℕ} (hn : 0 < n) (a : ℕ → A) :
    ∃ w, bluesteinSequence (fun m n => pure (f m n)) n a = pure w ∧
      ∀ k < n, ∃ e : ℕ, e ≤ 2 * n ∧ e ≡ k * k [MOD 2 * n] ∧ entry w k = f e (2 * n : ℕ) := by
  let P : ℕ → ℕ × (ℕ → A) → Prop := fun k s =>
    s.1 + 2 * k - 1 ≡ k * k [MOD 2 * n] ∧ 1 ≤ s.1 + 2 * k ∧
      ∀ j < k, ∃ e : ℕ, e ≤ 2 * n ∧ e ≡ j * j [MOD 2 * n] ∧ entry s.2 j = f e (2 * n : ℕ)
  have h0 : P 0 (1, a) := ⟨rfl, le_rfl, fun j hj => absurd hj j.not_lt_zero⟩
  have hstep : ∀ k < n, ∀ s, P k s →
      ∃ s', sequenceStep (fun m n => pure (f m n)) (2 * n) k s = pure s' ∧ P (k + 1) s' := by
    rintro k - s ⟨hksq, -, hs⟩
    obtain ⟨e, he, hle, hmod⟩ := reduce_eq (show 0 < 2 * n by omega) (s.1 + 2 * k - 1)
    have hk := hmod.trans hksq
    refine ⟨(e, setEntry s.2 k (f e (2 * n : ℕ))), by rw [sequenceStep, he]; rfl, ?_, by omega,
      fun j hj => ?_⟩
    · have h := hk.add_right (2 * k + 1)
      rw [show k * k + (2 * k + 1) = (k + 1) * (k + 1) by ring] at h
      rwa [show e + 2 * (k + 1) - 1 = e + (2 * k + 1) by omega]
    · rcases Nat.lt_succ_iff_lt_or_eq.mp hj with hj | rfl
      · rw [entry_setEntry, if_neg hj.ne]
        exact hs j hj
      · exact ⟨e, hle, hk, by rw [entry_setEntry, if_pos rfl]⟩
  obtain ⟨s, hrun, -, -, hs⟩ := forRangeM_exists P h0 hstep
  refine ⟨s.2, ?_, hs⟩
  show (forRangeM n (sequenceStep (fun m n => pure (f m n)) (2 * n)) (1, a) >>= fun s => pure s.2)
    = pure s.2
  rw [hrun, pure_bind]

/-! ### The tables -/

section Tables

variable {A : Type}

/-- The next block is handed out. -/
def Statics.alloc (st : Statics A) : Statics A := { st with fresh := fun i => st.fresh (i + 1) }

theorem benchMalloc_run (st : Statics A) : benchMalloc st = .ok (st.fresh 0, st.alloc) := rfl

/-- The tables of `n` are the cached ones. -/
def Statics.fill (st : Statics A) (n : ℕ) (w y : ℕ → A) : Statics A :=
  { st with cachedBluesteinN := n, cachedBluesteinW := .live w, cachedBluesteinY := .live y }

/-- No tables are cached, or live ones for another size. -/
inductive NotCached (n : ℕ) (st : Statics A) : Prop
  | empty (hn : st.cachedBluesteinN = -1) (hw : st.cachedBluesteinW = .null)
    (hy : st.cachedBluesteinY = .null)
  | other (w y : ℕ → A) (hn : st.cachedBluesteinN ≠ n) (hw : st.cachedBluesteinW = .live w)
    (hy : st.cachedBluesteinY = .live y)

namespace NotCached

variable {n : ℕ} {st : Statics A}

theorem ne (h : NotCached n st) : st.cachedBluesteinN ≠ n := by
  cases h with
  | empty hn => rw [hn]; omega
  | other w y hn => exact hn

theorem freeIfSet_w (h : NotCached n st) : freeIfSet st.cachedBluesteinW = pure ⟨⟩ := by
  cases h with
  | empty _ hw => rw [hw]; rfl
  | other w y _ hw => rw [hw]; rfl

theorem freeIfSet_y (h : NotCached n st) : freeIfSet st.cachedBluesteinY = pure ⟨⟩ := by
  cases h with
  | empty _ _ hy => rw [hy]; rfl
  | other w y _ _ hy => rw [hy]; rfl

theorem alloc (h : NotCached n st) : NotCached n st.alloc := by
  cases h with
  | empty hn hw hy => exact .empty hn hw hy
  | other w y hn hw hy => exact .other w y hn hw hy

end NotCached

theorem fft0_returns [Add A] [Sub A] [Mul A] (f : ℤ → ℤ → A × A) (t : ℕ) (a : ℕ → A) (sign : ℤ) :
    ∃ a', fft0 (fun m n => pure (f m n)) (2 ^ t) a sign = pure a' := by
  obtain ⟨b, hb, -⟩ := bitrev_eq t a
  exact ⟨_, fft0_two_pow f hb sign⟩

variable [Zero A]

/-- An array of `nb` entries with the first `n` entries of `w`, their wrapped copy, and zeros. -/
def Wraps (n nb : ℕ) (w z : ℕ → A) : Prop :=
  ∀ q < nb, entry z q
    = if q < n then entry w q else if nb - q < n then entry w (nb - q) else (0, 0)

variable [Add A] [Sub A] [Mul A]

/-- `w` is the chirp for `n`, and `y` the transform of its wrapped copies. -/
structure TablesFor (f : ℤ → ℤ → A × A) (n : ℕ) (w y : ℕ → A) : Prop where
  chirp : ∀ k < n, ∃ e : ℕ, e ≤ 2 * n ∧ e ≡ k * k [MOD 2 * n] ∧ entry w k = f e (2 * n : ℕ)
  transformed : ∃ z, Wraps n (pow2Atleast (2 * n)) w z ∧
    fft0 (fun m n => pure (f m n)) (pow2Atleast (2 * n)) z (-1) = pure y

/-- New tables, whatever their blocks hold. -/
theorem bluesteinTables_new (f : ℤ → ℤ → A × A) {n : ℕ} (hn : 0 < n) {st : Statics A}
    (hst : NotCached n st) :
    ∃ w y, TablesFor f n w y ∧
      bluesteinTables (fun m n => pure (f m n)) n (pow2Atleast (2 * n)) st
        = .ok ((w, y), st.alloc.alloc.fill n w y) := by
  obtain ⟨t, hnb, hle, -⟩ := pow2Atleast_spec (show 0 < 2 * n by omega)
  obtain ⟨w, hseq, hw⟩ := bluesteinSequence_eq f hn (st.fresh 0)
  obtain ⟨y, hy⟩ := fft0_returns f t (wrap n (2 ^ t) w (st.fresh 1)) (-1)
  refine ⟨w, y, ⟨hw, wrap n (2 ^ t) w (st.fresh 1), fun q hq => ?_, by rw [hnb, hy]⟩, ?_⟩
  · rw [hnb] at hq ⊢
    exact entry_wrap hle w _ hq
  · rw [hnb]
    unfold bluesteinTables
    show (if st.cachedBluesteinN ≠ n then _ else _ : Prog A _) st = _
    rw [if_pos hst.ne, hst.freeIfSet_w, hst.freeIfSet_y, pure_bind, pure_bind,
      Prog.bind_ok (benchMalloc_run st), Prog.bind_ok (benchMalloc_run _), hseq, pure_bind]
    show (fft0 (fun m n => pure (f m n)) (2 ^ t) (wrap n (2 ^ t) w (st.fresh 1)) (-1) >>= _ :
      Prog A _) _ = _
    rw [hy]
    rfl

end Tables

/-- The chirp `exp(pi*i*k^2/n)` as a power of a root of order `2 * n`. -/
theorem cis_of_modEq {n : ℕ} (hn : 0 < n) {m m' : ℕ} (h : m ≡ m' [MOD n]) :
    cis m n = cis 1 n ^ m' := by
  have hone : cis 1 n ^ n = 1 := by
    have h0 : (n : ℂ) ≠ 0 := Nat.cast_ne_zero.mpr hn.ne'
    have harg : ((2 * (1 * n) : ℤ) * Real.pi * Complex.I / (n : ℤ) : ℂ)
        = 2 * Real.pi * Complex.I := by
      push_cast
      field_simp
    rw [cis_pow, cis, harg, Complex.exp_two_pi_mul_I]
  have hpow : cis m n = cis 1 n ^ m := by rw [cis_pow, one_mul]
  rw [hpow, ← Nat.div_add_mod m n, ← Nat.div_add_mod m' n, h, pow_add, pow_add, pow_mul, pow_mul,
    hone, one_pow, one_pow]

/-! ### Conjugates -/

theorem conj_cis (m n : ℤ) : (starRingEnd ℂ) (cis m n) = (cis m n)⁻¹ := by
  rw [cis, ← Complex.exp_conj, ← Complex.exp_neg]
  congr 1
  simp only [map_div₀, map_mul, Complex.conj_ofReal, Complex.conj_I, map_intCast]
  ring

theorem cis_ne_zero (m n : ℤ) : cis m n ≠ 0 := Complex.exp_ne_zero _

theorem cis_neg (m n : ℤ) : cis (-m) n = (cis m n)⁻¹ := by
  rw [cis, cis, ← Complex.exp_neg]
  congr 1
  push_cast
  ring

theorem toComplex_cmul (x y : ℝ × ℝ) :
    toComplex (cmul x.1 x.2 y.1 y.2) = toComplex x * toComplex y := by
  apply Complex.ext <;> simp [toComplex, cmul]

theorem toComplex_cmulj (x y : ℝ × ℝ) :
    toComplex (cmulj x.1 x.2 y.1 y.2) = (starRingEnd ℂ) (toComplex x) * toComplex y := by
  apply Complex.ext <;> simp [toComplex, cmulj, sub_eq_add_neg]

/-- Exchanging the real and the imaginary part. -/
theorem toComplex_swap (z : ℝ × ℝ) :
    toComplex (z.2, z.1) = Complex.I * (starRingEnd ℂ) (toComplex z) := by
  apply Complex.ext <;> simp [toComplex]

/-! ### The transform -/

/-- Exact numbers, and the exact roots of unity for `cexp_builtin`. -/
noncomputable def exactArith : Arith ℝ ℝ where
  fromreal x := some x
  toreal x := x
  inv x := some x⁻¹
  cexpBuiltin m n := pure (exactCexp m n)
  sqrt x := Real.sqrt x

section Steps

variable {A R : Type} [Zero A] [Add A] [Sub A] [Mul A]

/-- The input times the conjugate of the chirp, padded with zeros. -/
def chirped (n nb : ℕ) (w a b : ℕ → A) : ℕ → A :=
  forRange n (fun i b =>
    setEntry b i (cmulj (w (2 * i)) (w (2 * i + 1)) (a (2 * i)) (a (2 * i + 1))))
    (clear (2 * nb) b)

def products (nb : ℕ) (b y : ℕ → A) : ℕ → A :=
  forRange nb (fun i b =>
    setEntry b i (cmul (b (2 * i)) (b (2 * i + 1)) (y (2 * i)) (y (2 * i + 1)))) b

/-- The scaled output of the convolution times the conjugate of the chirp. -/
def dechirped (n : ℕ) (nbinv : A) (w b a : ℕ → A) : ℕ → A :=
  forRange n (fun i a =>
    let z := cmulj (w (2 * i)) (w (2 * i + 1)) (b (2 * i)) (b (2 * i + 1))
    setEntry a i (nbinv * z.1, nbinv * z.2)) a

omit [Zero A] [Add A] [Sub A] [Mul A] in
/-- The history of the calls goes on. -/
def Statics.record (st : Statics A) (n : ℕ) (w y : ℕ → A) : Statics A :=
  { st with used := ⟨n, w, y⟩ :: st.used }

/-- What `bluestein` computes once it has the tables. -/
theorem bluestein_run [IntCast R] [Div R] (ar : Arith R A) {n nb : ℕ} {a w y b₁ b₂ : ℕ → A}
    {nbinv : A} {st st' : Statics A} (hnb : pow2Atleast (2 * n) = nb)
    (hnbinv : ar.fromreal (((1 : ℤ) : R) / ((nb : ℤ) : R)) = some nbinv)
    (htables : bluesteinTables ar.cexpBuiltin n nb st.alloc = .ok ((w, y), st'))
    (hforward : fft0 ar.cexpBuiltin nb (chirped n nb w a (st.fresh 0)) (-1) = pure b₁)
    (hbackward : fft0 ar.cexpBuiltin nb (products nb b₁ y) 1 = pure b₂) :
    bluestein ar n a st = .ok (dechirped n nbinv w b₂ a, st'.record n w y) := by
  subst hnb
  unfold bluestein
  rw [Prog.bind_ok (benchMalloc_run st), hnbinv, ofOption, pure_bind, Prog.bind_ok htables]
  show (fft0 ar.cexpBuiltin _ (chirped n _ w a (st.fresh 0)) (-1) >>= fun b =>
    fft0 ar.cexpBuiltin _ (products _ b y) 1 >>= fun b => pure (dechirped n nbinv w b a))
      (st'.record n w y) = _
  rw [hforward, pure_bind, hbackward, pure_bind]
  rfl

end Steps

/-! ### What the arrays hold -/

section Exact

variable {n nb : ℕ} {w : ℕ → ℝ} {ρ : ℂ}

theorem Wraps.wrapped {z : ℕ → ℝ} (hz : Wraps n nb w z) (hnb : 2 * n ≤ nb)
    (hw : ∀ k < n, centry w k = ρ ^ (k * k)) : Wrapped n nb (fun k => ρ ^ (k * k)) (centry z) where
  head i hi := by
    rw [centry, hz i (by omega), if_pos hi]
    exact hw i hi
  tail i h0 hi := by
    rw [centry, hz (nb - i) (by omega), if_neg (by omega), if_pos (by omega),
      show nb - (nb - i) = i by omega]
    exact hw i hi

theorem centry_chirped (w a b : ℕ → ℝ) {q : ℕ} (hq : q < nb) :
    centry (chirped n nb w a b) q
      = if q < n then (starRingEnd ℂ) (centry w q) * centry a q else 0 := by
  have h := entry_forRange_setEntry n (fun i _ => cmulj (w (2 * i)) (w (2 * i + 1)) (a (2 * i))
    (a (2 * i + 1))) (clear (2 * nb) b) q
  rw [centry, chirped, h]
  split_ifs
  · exact toComplex_cmulj (entry w q) (entry a q)
  · rw [entry_clear nb _ hq]
    rfl

theorem centry_products (nb : ℕ) (b y : ℕ → ℝ) {q : ℕ} (hq : q < nb) :
    centry (products nb b y) q = centry b q * centry y q := by
  have h := entry_forRange_setEntry nb (fun i z => cmul z.1 z.2 (y (2 * i)) (y (2 * i + 1))) b q
  rw [if_pos hq] at h
  exact (congrArg toComplex h).trans (toComplex_cmul (entry b q) (entry y q))

theorem centry_dechirped (n : ℕ) (c : ℝ) (w b a : ℕ → ℝ) {q : ℕ} (hq : q < n) :
    centry (dechirped n c w b a) q = c * ((starRingEnd ℂ) (centry w q) * centry b q) := by
  have h := entry_forRange_setEntry n (fun i _ =>
    let z := cmulj (w (2 * i)) (w (2 * i + 1)) (b (2 * i)) (b (2 * i + 1))
    (c * z.1, c * z.2)) a q
  rw [if_pos hq] at h
  apply (congrArg toComplex h).trans
  rw [centry, centry, ← toComplex_cmulj]
  apply Complex.ext <;> simp [toComplex, entry]

end Exact

theorem isPrimitiveRoot_cis {n : ℕ} (hn : 0 < n) : IsPrimitiveRoot (cis (-1) n) n := by
  have h := (Complex.isPrimitiveRoot_exp n hn.ne').inv
  rwa [show Complex.exp (2 * Real.pi * Complex.I / n) = cis 1 n by
    rw [cis, mul_one, Int.cast_ofNat, Int.cast_natCast], ← cis_neg] at h

/-- With the tables for `n`, `bluestein` computes the transform with sign `-1`. -/
theorem bluestein_eq {n : ℕ} (hn : 0 < n) (a : ℕ → ℝ) {w y : ℕ → ℝ} {st st' : Statics ℝ}
    (htables : bluesteinTables exactArith.cexpBuiltin n (pow2Atleast (2 * n)) st.alloc
      = .ok ((w, y), st')) (hwy : TablesFor exactCexp n w y) :
    ∃ a', bluestein exactArith n a st = .ok (a', st'.record n w y) ∧
      ∀ k < n, centry a' k = dft n (cis (-1) n) (centry a) k := by
  obtain ⟨t, hnb, h2n, -⟩ := pow2Atleast_spec (show 0 < 2 * n by omega)
  obtain ⟨hw, z, hz, hfft⟩ := hwy
  rw [hnb] at htables hz hfft
  obtain ⟨y', hfft', hy⟩ := fft0_eq t z (Or.inr rfl)
  obtain ⟨rfl, -⟩ := Prod.mk.inj (Except.ok.inj (congrFun (hfft'.symm.trans hfft) st))
  obtain ⟨b₁, hforward, hb₁⟩ := fft0_eq t (chirped n (2 ^ t) w a (st.fresh 0)) (Or.inr rfl)
  obtain ⟨b₂, hbackward, hb₂⟩ := fft0_eq t (products (2 ^ t) b₁ y') (Or.inl rfl)
  refine ⟨_, bluestein_run _ hnb rfl htables hforward hbackward, fun k hk => ?_⟩
  have hpos := Nat.two_pow_pos t
  have hnb0 : ((2 ^ t : ℕ) : ℂ) ≠ 0 := Nat.cast_ne_zero.mpr hpos.ne'
  -- the chirp is a power of a root of order `2 * n`
  let ρ := cis 1 (2 * n : ℕ)
  have hρ : ρ ≠ 0 := cis_ne_zero _ _
  have hchirp : ∀ k < n, centry w k = ρ ^ (k * k) := by
    intro k hk
    obtain ⟨e, -, he, hentry⟩ := hw k hk
    rw [centry, hentry, toComplex_exactCexp, cis_of_modEq (by omega) he]
  have hconj : ∀ k < n, (starRingEnd ℂ) (centry w k) = (ρ ^ (k * k))⁻¹ := by
    intro k hk
    rw [hchirp k hk, map_pow, conj_cis, inv_pow]
  have hroot : cis 1 (2 ^ t : ℕ) = (cis (-1) (2 ^ t : ℕ))⁻¹ := by rw [← cis_neg, neg_neg]
  have hprod : ∀ j < 2 ^ t, centry (products (2 ^ t) b₁ y') j
      = dft (2 ^ t) (cis (-1) (2 ^ t : ℕ)) (centry (chirped n (2 ^ t) w a (st.fresh 0))) j
        * dft (2 ^ t) (cis (-1) (2 ^ t : ℕ)) (centry z) j := by
    intro j hj
    rw [centry_products _ _ _ hj, hb₁ j hj, hy j hj]
  -- the convolution with the wrapped chirp, which the products compute
  have hconv := dft_eq_chirp hρ (fun k => rfl) (hz.wrapped h2n hchirp) h2n (centry a)
    (centry (chirped n (2 ^ t) w a (st.fresh 0)))
    (fun j hj => by rw [centry_chirped w a _ (by omega), if_pos hj, hconj j hj])
    (fun j hnj hj => by rw [centry_chirped w a _ hj, if_neg (by omega)]) hk
  rw [centry_dechirped n _ w b₂ a hk, hconj k hk, hb₂ k (by omega), dft_congr hprod, hroot,
    dft_inv_dft_mul (isPrimitiveRoot_cis hpos) _ _ (by omega)]
  have hsq : ρ ^ 2 = cis 1 n := by
    show cis 1 ((2 * n : ℕ) : ℤ) ^ 2 = cis 1 n
    rw [Nat.cast_mul, Nat.cast_ofNat, cis_two_mul]
  rw [cis_neg, ← hsq, ← hconv, Int.cast_one, Int.cast_natCast, Complex.ofReal_div,
    Complex.ofReal_one, Complex.ofReal_natCast]
  field_simp

theorem centry_swapri (n : ℕ) (a : ℕ → ℝ) {q : ℕ} (hq : q < n) :
    centry (swapri n a) q = Complex.I * (starRingEnd ℂ) (centry a q) := by
  have h := entry_forRange_setEntry n (fun _ z => (z.2, z.1)) a q
  rw [if_pos hq] at h
  exact (congrArg toComplex h).trans (toComplex_swap (entry a q))

/-- Exchanging the parts of every entry changes the sign of the transform. -/
theorem dft_swap (n : ℕ) (x : ℕ → ℂ) (k : ℕ) :
    dft n (cis (-1) n) (fun j => Complex.I * (starRingEnd ℂ) (x j)) k
      = Complex.I * (starRingEnd ℂ) (dft n (cis 1 n) x k) := by
  rw [dft, dft, map_sum, mul_sum]
  refine sum_congr rfl fun j _ => ?_
  rw [map_mul, map_pow, conj_cis, cis_neg]
  ring

theorem fft1_other {A R : Type} [Zero A] [Add A] [Sub A] [Mul A] [IntCast R] [Div R]
    (ar : Arith R A) {n : ℕ} (hpow : powerOfTwo n = false) (a : ℕ → A) (sign : ℤ) :
    fft1 ar n a sign = bluestein ar n (if sign = 1 then swapri n a else a) >>=
      fun a => pure (if sign = 1 then swapri n a else a) := by
  rw [fft1, if_neg (by rw [hpow]; exact Bool.false_ne_true)]

/-- `fft1` on the sizes that are not powers of two, from what `bluestein` does. -/
theorem fft1_eq_dft {n : ℕ} (hpow : powerOfTwo n = false) {st : Statics ℝ} {P : Statics ℝ → Prop}
    (hbluestein : ∀ a, ∃ a' st', bluestein exactArith n a st = .ok (a', st') ∧ P st' ∧
      ∀ k < n, centry a' k = dft n (cis (-1) n) (centry a) k) (a : ℕ → ℝ) {sign : ℤ}
    (hsign : sign = 1 ∨ sign = -1) :
    ∃ a' st', fft1 exactArith n a sign st = .ok (a', st') ∧ P st' ∧
      ∀ k < n, centry a' k = dft n (cis sign n) (centry a) k := by
  rw [fft1_other _ hpow]
  rcases hsign with rfl | rfl
  · obtain ⟨b, st', hrun, hst', hb⟩ := hbluestein (swapri n a)
    refine ⟨swapri n b, st', ?_, hst', fun k hk => ?_⟩
    · rw [if_pos rfl, Prog.bind_ok hrun, if_pos rfl]
      rfl
    · rw [centry_swapri n b hk, hb k hk, dft_congr fun j hj => centry_swapri n a hj, dft_swap,
        map_mul, Complex.conj_conj, Complex.conj_I, ← mul_assoc, mul_neg, Complex.I_mul_I, neg_neg,
        one_mul]
  · obtain ⟨b, st', hrun, hst', hb⟩ := hbluestein a
    refine ⟨b, st', ?_, hst', hb⟩
    rw [if_neg (by decide), Prog.bind_ok hrun]
    rfl

/-- Twice the length of the convolution, the largest `int`, does not overflow. -/
theorem two_mul_pow2Atleast_lt {n : ℕ} (hn : 1 ≤ n) (hlt : n < 2 ^ 28) :
    2 * pow2Atleast (2 * n) < 2 ^ 31 := by
  obtain ⟨t, hnb, -, hle⟩ := pow2Atleast_spec (show 0 < 2 * n by omega)
  omega

/-- **The reference transform is the discrete Fourier transform** also at the sizes that are not
powers of two, and the largest `int` it computes, twice the length of the convolution, does not
overflow. -/
theorem fft1_eq {n : ℕ} (hn : 1 ≤ n) (hlt : n < 2 ^ 28) (hpow : powerOfTwo n = false) (a : ℕ → ℝ)
    {sign : ℤ} (hsign : sign = 1 ∨ sign = -1) {st : Statics ℝ} (hst : NotCached n st) :
    2 * pow2Atleast (2 * n) < 2 ^ 31 ∧ ∃ a' st', fft1 exactArith n a sign st = .ok (a', st') ∧
      ∀ k < n, centry a' k = ∑ j ∈ range n,
        centry a j * Complex.exp (sign * 2 * Real.pi * Complex.I * j * k / n) := by
  have hbluestein : ∀ a, ∃ a' st', bluestein exactArith n a st = .ok (a', st') ∧ True ∧
      ∀ k < n, centry a' k = dft n (cis (-1) n) (centry a) k := by
    intro a
    obtain ⟨w, y, hwy, htables⟩ := bluesteinTables_new exactCexp hn hst.alloc
    obtain ⟨a', hrun, ha'⟩ := bluestein_eq hn a htables hwy
    exact ⟨a', _, hrun, trivial, ha'⟩
  obtain ⟨a', st', hrun, -, ha'⟩ := fft1_eq_dft hpow hbluestein a hsign
  refine ⟨two_mul_pow2Atleast_lt hn hlt, a', st', hrun, fun k hk => (ha' k hk).trans ?_⟩
  refine sum_congr rfl fun j _ => ?_
  rw [cis_pow, cis]
  congr 2
  push_cast
  ring

/-- A transform of size `3` in a new process, with ones in the fresh blocks. -/
theorem fft1_eq_3 : 2 * pow2Atleast (2 * 3) < 2 ^ 31 ∧
    ∃ a' st', fft1 exactArith 3 (fun j => j) 1 (initialStatics 0 fun _ _ => 1) = .ok (a', st') ∧
      ∀ k < 3, centry a' k = ∑ j ∈ range 3, centry (fun j => j) j
        * Complex.exp ((1 : ℤ) * 2 * Real.pi * Complex.I * j * k / (3 : ℕ)) :=
  fft1_eq (by decide) (by decide) (by decide) _ (Or.inl rfl) (.empty rfl rfl rfl)

end BenchFFT.Mp
