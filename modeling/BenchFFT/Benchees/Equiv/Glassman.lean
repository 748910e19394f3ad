import BenchFFT.Benchees.Equiv.OneDim
import BenchFFT.Benchees.Glassman
import BenchFFT.Chirp

/-!
# Glassman's transform is the DFT

Before each turn of the loop over the factors, the input is `b` interleaved parts, each of which has
been transformed (`Transformed`).  A stage fills its output cell by cell, its twiddle being a power
of `delta` (`spcpft_ok`); each of its sums puts together the transforms of `c` parts
(`transformed_of_filled`, decimation in time by the factor `c`).  So the loop ends with the
transform of the whole input, of any size (`stages_ok`, `spcfft_ok`), the inverse transform undoes
the forward one (`spcfft_inverse`), and the benchee passes its verification (`verify_glassman`).
-/

namespace BenchFFT.Glassman

open Finset Verify

theorem toComplex_cadd (x y : BenchComplex ℝ) :
    toComplex (cadd x y) = toComplex x + toComplex y := rfl

theorem toComplex_cmul (x y : BenchComplex ℝ) :
    toComplex (cmul x y) = toComplex x * toComplex y := by
  apply Complex.ext
  · rw [Complex.mul_re]
    rfl
  · rw [Complex.mul_im]
    rfl

section Stage

variable {a b c : ℕ}

theorem index_lt {i j k : ℕ} (hi : i < b) (hj : j < c) (hk : k < a) :
    index b c i j k < b * (c * a) := by
  have hrow : j + c * k < c * a := by
    have hle := Nat.mul_le_mul_left c (show k + 1 ≤ a from hk)
    rw [Nat.mul_succ] at hle
    omega
  have hle := Nat.mul_le_mul_left b (show j + c * k + 1 ≤ c * a from hrow)
  rw [Nat.mul_succ] at hle
  unfold index
  omega

/-- The last `i` terms of a sum of `c` terms. -/
noncomputable def lastTerms (term : ℕ → ℂ) (omega : ℂ) (c i : ℕ) : ℂ :=
  ∑ j ∈ range i, term (c - i + j) * omega ^ j

theorem lastTerms_succ (term : ℕ → ℂ) (omega : ℂ) {i : ℕ} (hi : i < c) :
    lastTerms term omega c (i + 1)
      = term (c - (i + 1)) + omega * lastTerms term omega c i := by
  unfold lastTerms
  rw [sum_range_succ', pow_zero, mul_one, Nat.add_zero, add_comm, mul_sum]
  congr 1
  refine sum_congr rfl fun j _ => ?_
  have hnext : c - (i + 1) + (j + 1) = c - i + j := by omega
  rw [hnext, pow_succ]
  ring

/-- An entry of `UOUT`, of which `omega` is the twiddle. -/
noncomputable def entry (b c : ℕ) (uin : Buf (BenchComplex ℝ)) (omega : ℂ) (ib ia : ℕ) : ℂ :=
  ∑ jc ∈ range c, toComplex (uin.cell (index b c ib jc ia)) * omega ^ jc

section Sum

variable {uin : Buf (BenchComplex ℝ)} (huin : b * (c * a) ≤ uin.size) (hc : 0 < c)

include huin hc

theorem sum_ok (omega : BenchComplex ℝ) {ib ia : ℕ} (hib : ib < b) (hia : ia < a) :
    ∃ z, sum b c uin omega ib ia = .ok z ∧
      toComplex z = entry b c uin (toComplex omega) ib ia := by
  have hread : ∀ jc < c, uin.read (index b c ib jc ia) = .ok (uin.cell (index b c ib jc ia)) :=
    fun jc hjc => Buf.read_ok (lt_of_lt_of_le (index_lt hib hjc hia) huin)
  let term (jc : ℕ) : ℂ := toComplex (uin.cell (index b c ib jc ia))
  have hstep : ∀ jcr < c - 1, ∀ z,
      toComplex z = lastTerms term (toComplex omega) c (jcr + 1) →
      ∃ z', (do
          let jc := c - 2 - jcr
          return cadd (← uin.read (index b c ib jc ia)) (cmul omega z) : Except Abort _) = pure z' ∧
        toComplex z' = lastTerms term (toComplex omega) c (jcr + 1 + 1) := by
    intro jcr hjcr z hz
    have hjc : c - (jcr + 1 + 1) = c - 2 - jcr := by omega
    refine ⟨cadd (uin.cell (index b c ib (c - 2 - jcr) ia)) (cmul omega z), ?_, ?_⟩
    · dsimp only
      rw [bind_ok (hread _ (by omega))]
    · rw [lastTerms_succ term _ (by omega), hjc, toComplex_cadd, toComplex_cmul, hz]
  have hfirst : toComplex (uin.cell (index b c ib (c - 1) ia))
      = lastTerms term (toComplex omega) c (0 + 1) := by
    rw [lastTerms_succ term _ hc, lastTerms, sum_range_zero, mul_zero, add_zero]
  obtain ⟨z, hz, hsum⟩ := forRangeM_exists
    (fun i z => toComplex z = lastTerms term (toComplex omega) c (i + 1)) hfirst hstep
  refine ⟨z, ?_, ?_⟩
  · rw [sum, bind_ok (hread _ (by omega))]
    exact hz
  · rw [hsum, Nat.sub_add_cancel hc, lastTerms, Nat.sub_self]
    exact sum_congr rfl fun j _ => by rw [Nat.zero_add]

/-- The cells below `q` hold their values, `delta` being the twiddle of the stage. -/
structure Filled (a b c : ℕ) (uin : Buf (BenchComplex ℝ)) (delta : ℂ) (m q : ℕ)
    (uout : Buf (BenchComplex ℝ)) : Prop where
  size : uout.size = m
  cell : ∀ i < q, toComplex (uout.cell i) = entry b c uin (delta ^ (i / b)) (i % b) (i / b % a)

omit huin hc in
theorem Filled.write {delta : ℂ} {m q : ℕ} {uout : Buf (BenchComplex ℝ)}
    (h : Filled a b c uin delta m q uout) (hq : q < m) {z : BenchComplex ℝ}
    (hz : toComplex z = entry b c uin (delta ^ (q / b)) (q % b) (q / b % a)) :
    ∃ uout', uout.write q z = pure uout' ∧ Filled a b c uin delta m (q + 1) uout' := by
  refine ⟨_, Buf.write_ok (h.size.symm ▸ hq) z, h.size, fun i hi => ?_⟩
  show toComplex (Function.update uout.cell q z i) = _
  obtain rfl | hne := eq_or_ne i q
  · rw [Function.update_self, hz]
  · rw [Function.update_of_ne hne]
    exact h.cell i (by omega)

/-- What holds before row `k`. -/
structure Before (a b c : ℕ) (uin : Buf (BenchComplex ℝ)) (delta : ℂ) (m k : ℕ)
    (s : BenchComplex ℝ × Buf (BenchComplex ℝ)) : Prop where
  omega : toComplex s.1 = delta ^ k
  filled : Filled a b c uin delta m (b * k) s.2

variable {δ : ℂ} {m ic ia : ℕ} (hm : b * (a * c) ≤ m) (hic : ic < c) (hia : ia < a)

include hm hic hia

theorem cell_ok {omega : BenchComplex ℝ} (homega : toComplex omega = δ ^ (ia + a * ic)) {ib : ℕ}
    (hib : ib < b) {t : Buf (BenchComplex ℝ)}
    (ht : Filled a b c uin δ m (b * (ia + a * ic) + ib) t) :
    ∃ t', (do
        let sum ← sum b c uin omega ib ia
        t.write (index b a ib ia ic) sum : Except Abort _) = pure t' ∧
      Filled a b c uin δ m (b * (ia + a * ic) + (ib + 1)) t' := by
  have hdiv : (b * (ia + a * ic) + ib) / b = ia + a * ic := by
    rw [Nat.mul_add_div (by omega), Nat.div_eq_of_lt hib, Nat.add_zero]
  have hmod : (b * (ia + a * ic) + ib) % b = ib := by
    rw [Nat.mul_add_mod, Nat.mod_eq_of_lt hib]
  have hrem : (ia + a * ic) % a = ia := by
    rw [Nat.add_mul_mod_self_left, Nat.mod_eq_of_lt hia]
  have hlt : b * (ia + a * ic) + ib < m := by
    have hindex := index_lt hib hia hic
    rw [index, Nat.add_comm] at hindex
    exact lt_of_lt_of_le hindex hm
  obtain ⟨z, hz, hvalue⟩ := sum_ok huin hc omega hib hia
  rw [homega] at hvalue
  obtain ⟨t', hwrite, ht'⟩ := ht.write (z := z) hlt (by rw [hvalue, hdiv, hmod, hrem])
  refine ⟨t', ?_, ht'⟩
  rw [bind_ok hz, index, Nat.add_comm ib]
  exact hwrite

theorem row_ok {delta : BenchComplex ℝ} (hdelta : toComplex delta = δ)
    {s : BenchComplex ℝ × Buf (BenchComplex ℝ)} (hs : Before a b c uin δ m (ia + a * ic) s) :
    ∃ s', (do
        let uout ← forRangeM b (fun ib uout => do
          let sum ← sum b c uin s.1 ib ia
          uout.write (index b a ib ia ic) sum) s.2
        return (cmul delta s.1, uout) : Except Abort _) = pure s' ∧
      Before a b c uin δ m (ia + 1 + a * ic) s' := by
  have hnext : ia + 1 + a * ic = ia + a * ic + 1 := by omega
  obtain ⟨t, hloop, ht⟩ := forRangeM_exists
    (fun ib t => Filled a b c uin δ m (b * (ia + a * ic) + ib) t) hs.filled
    fun ib hib t ht => cell_ok huin hc hm hic hia hs.omega hib ht
  refine ⟨(cmul delta s.1, t), ?_, ?_, ?_⟩
  · rw [bind_ok hloop]
  · rw [toComplex_cmul, hs.omega, hdelta, hnext, pow_succ']
  · rw [hnext]
    exact ht

omit hm hic hia

/-- **A stage.** -/
theorem spcpft_ok (trig : Trig ℝ) (isign : ℤ) {uout : Buf (BenchComplex ℝ)}
    (huout : b * (a * c) ≤ uout.size) :
    ∃ uout', spcpft trig a b c isign uin uout = .ok uout' ∧
      Filled a b c uin (toComplex (delta trig isign (a * c))) uout.size (b * (a * c)) uout' := by
  have hinit : Before a b c uin (toComplex (delta trig isign (a * c))) uout.size (a * 0)
      (⟨1, 0⟩, uout) := by
    refine ⟨?_, rfl, fun i hi => absurd hi ?_⟩
    · rw [Nat.mul_zero, pow_zero]
      rfl
    · rw [Nat.mul_zero, Nat.mul_zero]
      exact Nat.not_lt_zero i
  obtain ⟨s, hrun, hs⟩ := forRangeM_exists
    (fun ic => Before a b c uin (toComplex (delta trig isign (a * c))) uout.size (a * ic)) hinit
    fun ic hic s hs => by
      have hrows := forRangeM_exists
        (fun ia => Before a b c uin (toComplex (delta trig isign (a * c))) uout.size
          (ia + a * ic)) ((Nat.zero_add (a * ic)).symm ▸ hs)
        fun ia hia s hs => row_ok huin hc huout hic hia rfl hs
      rwa [Nat.add_comm a, ← Nat.mul_succ] at hrows
  refine ⟨s.2, ?_, hs.filled⟩
  rw [spcpft]
  exact bind_ok hrun _

end Sum

end Stage

/-! ### The twiddles -/

theorem toComplex_delta {isign : ℤ} (hsign : isign = 1 ∨ isign = -1) (n : ℕ) :
    toComplex (delta exactTrig isign n) = root isign n := by
  have harg : (2 * Real.pi * Complex.I / n : ℂ) = ((2 * Real.pi / n : ℝ) : ℂ) * Complex.I := by
    push_cast
    ring
  unfold root delta
  rcases hsign with rfl | rfl
  · rw [Int.cast_one, one_mul, harg, if_pos rfl]
    exact Complex.ext (Complex.exp_ofReal_mul_I_re _).symm (Complex.exp_ofReal_mul_I_im _).symm
  · rw [Int.cast_neg, Int.cast_one, neg_one_mul, harg, if_neg (by decide), ← neg_mul,
      ← Complex.ofReal_neg]
    refine Complex.ext ?_ ?_
    · rw [Complex.exp_ofReal_mul_I_re, Real.cos_neg]
      rfl
    · rw [Complex.exp_ofReal_mul_I_im, Real.sin_neg]
      rfl

/-! ### The stages -/

theorem factorFrom_dvd {b c : ℕ} (h : c ≤ b) : factorFrom b c ∣ b := by
  induction c using factorFrom.induct b with
  | case1 c hc ih =>
    rw [factorFrom, if_pos hc]
    exact ih hc.1
  | case2 c hc =>
    rw [factorFrom, if_neg hc]
    rcases h.lt_or_eq with hlt | rfl
    · exact Nat.dvd_of_mod_eq_zero (not_not.mp fun hne => hc ⟨hlt, hne⟩)
    · exact dvd_rfl

/-- Each of the `b` interleaved parts of the input has been transformed. -/
def Transformed (sign : ℤ) (x : ℕ → ℂ) (a b : ℕ) (u : Buf (BenchComplex ℝ)) : Prop :=
  ∀ ib < b, ∀ k < a, toComplex (u.cell (ib + b * k))
    = Chirp.dft a (root sign a) (fun j => x (ib + b * j)) k

theorem transformed_of_filled {sign : ℤ} {x : ℕ → ℂ} {a b c m : ℕ} (ha : 0 < a) (hc : 0 < c)
    {uin uout : Buf (BenchComplex ℝ)} (huin : Transformed sign x a (b * c) uin)
    (huout : Filled a b c uin (root sign (a * c)) m (b * (a * c)) uout) :
    Transformed sign x (c * a) b uout := by
  intro ib hib k hk
  have hdiv : (ib + b * k) / b = k := by
    rw [Nat.add_mul_div_left _ _ (by omega), Nat.div_eq_of_lt hib, Nat.zero_add]
  have hmod : (ib + b * k) % b = ib := by
    rw [Nat.add_mul_mod_self_left, Nat.mod_eq_of_lt hib]
  have hlt : ib + b * k < b * (a * c) := by
    have hle := Nat.mul_le_mul_left b (show k + 1 ≤ a * c by rwa [Nat.mul_comm a])
    rw [Nat.mul_succ] at hle
    omega
  have hpart : ∀ jc < c, toComplex (uin.cell (index b c ib jc (k % a)))
      = Chirp.dft a (root sign a) (fun j => x (ib + b * (jc + c * j))) k := by
    intro jc hjc
    have hindex : index b c ib jc (k % a) = ib + b * jc + b * c * (k % a) := by
      unfold index
      ring
    have hib' : ib + b * jc < b * c := by
      have hle := Nat.mul_le_mul_left b (show jc + 1 ≤ c from hjc)
      rw [Nat.mul_succ] at hle
      omega
    rw [hindex, huin _ hib' _ (Nat.mod_lt k ha), Chirp.dft_mod (root_pow_self sign ha)]
    exact Chirp.dft_congr (fun j _ => congrArg x (by ring)) k
  rw [huout.cell _ hlt, hdiv, hmod, Chirp.dft_mul, root_mul_pow sign hc, entry]
  refine sum_congr rfl fun jc hjc => ?_
  rw [hpart jc (mem_range.mp hjc), ← pow_mul, Nat.mul_comm k, Nat.mul_comm a, mul_comm]

/-- What holds before each turn of the loop over the factors. -/
structure Stages (sign : ℤ) (x : ℕ → ℂ) (n m : ℕ) (s : State ℝ) : Prop where
  pos_a : 0 < s.c * s.a
  pos_b : 0 < s.b
  size_eq : s.c * s.a * s.b = n
  u_size : s.u.size = m
  work_size : n ≤ s.work.size
  transformed : Transformed sign x (s.c * s.a) s.b (if s.inu then s.u else s.work)

section Transform

variable {isign : ℤ} (hsign : isign = 1 ∨ isign = -1) {x : ℕ → ℂ} {n m : ℕ}

include hsign

/-- A turn of the loop. -/
theorem Stages.turn {s : State ℝ} (h : Stages isign x n m s) (hb : 1 < s.b)
    {uin uout : Buf (BenchComplex ℝ)} (huin : Transformed isign x (s.c * s.a) s.b uin)
    (hin : n ≤ uin.size) (hout : n ≤ uout.size) :
    0 < factorFrom s.b 2 ∧ 0 < s.b / factorFrom s.b 2 ∧
      factorFrom s.b 2 * (s.c * s.a) * (s.b / factorFrom s.b 2) = n ∧
      ∃ uout', spcpft exactTrig (s.c * s.a) (s.b / factorFrom s.b 2) (factorFrom s.b 2) isign uin
          uout = .ok uout' ∧ uout'.size = uout.size ∧
        Transformed isign x (factorFrom s.b 2 * (s.c * s.a)) (s.b / factorFrom s.b 2) uout' := by
  have hc : 0 < factorFrom s.b 2 := lt_of_lt_of_le two_pos (le_factorFrom s.b 2)
  have hdvd := factorFrom_dvd (show 2 ≤ s.b from hb)
  have hprod : s.b / factorFrom s.b 2 * factorFrom s.b 2 = s.b := Nat.div_mul_cancel hdvd
  generalize factorFrom s.b 2 = c at *
  generalize s.b / c = b at *
  have hsize : c * (s.c * s.a) * b = n := by
    rw [← h.size_eq, ← hprod]
    ring
  have hroom : b * (s.c * s.a * c) = n := by
    rw [← hsize]
    ring
  have hpos : 0 < b := Nat.pos_of_ne_zero fun h0 => by
    rw [h0, Nat.zero_mul] at hprod
    omega
  have hin' : b * (c * (s.c * s.a)) ≤ uin.size := by
    rw [Nat.mul_comm c, hroom]
    exact hin
  obtain ⟨uout', hrun, hfilled⟩ := spcpft_ok hin' hc exactTrig isign (hroom.symm ▸ hout)
  rw [toComplex_delta hsign] at hfilled
  exact ⟨hc, hpos, hsize, uout', hrun, hfilled.size,
    transformed_of_filled h.pos_a hc (hprod.symm ▸ huin) hfilled⟩

/-- **The loop ends** with the whole input transformed. -/
theorem stages_ok (hm : n ≤ m) {s : State ℝ} (h : Stages isign x n m s) :
    ∃ s', stages exactTrig isign s = .ok s' ∧ Stages isign x n m s' ∧ s'.b = 1 := by
  induction hb : s.b using Nat.strong_induction_on generalizing s with
  | _ b ih =>
    subst hb
    rw [stages]
    by_cases h1 : 1 < s.b
    swap
    · rw [dif_neg h1]
      exact ⟨s, rfl, h, by have := h.pos_b; omega⟩
    rw [dif_pos h1]
    dsimp only
    by_cases hinu : s.inu = true
    · have htransformed := h.transformed
      rw [if_pos hinu] at htransformed
      obtain ⟨hc, hpos, hsize, work, hrun, hwork, hdone⟩ := h.turn hsign h1 htransformed
        (h.u_size.symm ▸ hm) h.work_size
      rw [if_pos hinu, bind_ok hrun]
      have hnext : Stages isign x n m ⟨s.c * s.a, s.b / factorFrom s.b 2, factorFrom s.b 2, false,
          s.u, work⟩ :=
        ⟨Nat.mul_pos hc h.pos_a, hpos, hsize, h.u_size, hwork.symm ▸ h.work_size, hdone⟩
      exact ih _ (Nat.div_lt_self h.pos_b (le_factorFrom s.b 2)) hnext rfl
    · have htransformed := h.transformed
      rw [if_neg hinu] at htransformed
      obtain ⟨hc, hpos, hsize, u, hrun, hu, hdone⟩ := h.turn hsign h1 htransformed
        h.work_size (h.u_size.symm ▸ hm)
      rw [if_neg hinu, bind_ok hrun]
      have hnext : Stages isign x n m ⟨s.c * s.a, s.b / factorFrom s.b 2, factorFrom s.b 2, true,
          u, s.work⟩ :=
        ⟨Nat.mul_pos hc h.pos_a, hpos, hsize, hu.trans h.u_size, h.work_size, hdone⟩
      exact ih _ (Nat.div_lt_self h.pos_b (le_factorFrom s.b 2)) hnext rfl

/-! ### The transform -/

omit hsign in
/-- A loop that replaces the first `n` entries. -/
theorem replace_ok {u : Buf (BenchComplex ℝ)}
    {body : ℕ → Buf (BenchComplex ℝ) → Except Abort (Buf (BenchComplex ℝ))}
    (g : ℕ → BenchComplex ℝ → BenchComplex ℝ)
    (hbody : ∀ i < n, Buf.Runs u.size (body i) fun c => Function.update c i (g i (c i))) :
    ∃ v, forRangeM n body u = .ok v ∧ v.size = u.size ∧ ∀ k < n, v.cell k = g k (u.cell k) := by
  refine ⟨_, Buf.Runs.forRangeM hbody u rfl, rfl, fun k hk => ?_⟩
  exact (forRange_update_apply n g u.cell k).trans (if_pos hk)

omit hsign in
theorem swapWork_ok {s : State ℝ} (hu : n ≤ s.u.size) (hwork : n ≤ s.work.size) :
    ∃ v, swapWork n s = .ok v ∧ v.size = s.u.size ∧
      ∀ k < n, v.cell k = (if s.inu then s.u else s.work).cell k := by
  have hbody : ∀ i < n, Buf.Runs s.u.size (fun u => do u.write i (← s.work.read i))
      fun c => Function.update c i (s.work.cell i) := by
    intro i hi t ht
    dsimp only
    rw [bind_ok (Buf.read_ok (lt_of_lt_of_le hi hwork))]
    exact Buf.write_ok (by omega) _
  unfold swapWork
  split_ifs
  · exact ⟨s.u, rfl, rfl, fun _ _ => rfl⟩
  · exact replace_ok (fun i _ => s.work.cell i) hbody

/-- The factor of `SCALE`. -/
noncomputable def scale (isign : ℤ) (n : ℕ) : ℝ := if isign = 1 then (n : ℝ)⁻¹ else 1

omit hsign in
theorem scale_ok (isign : ℤ) {u : Buf (BenchComplex ℝ)} (hu : n ≤ u.size) :
    ∃ v, (if isign = 1 then
          forRangeM n (fun i u => do
            let x ← u.read i
            u.write i ⟨x.re / (n / 1), x.im / (n / 1)⟩) u
        else return u : Except Abort _) = .ok v ∧ v.size = u.size ∧
      ∀ k < n, toComplex (v.cell k) = scale isign n * toComplex (u.cell k) := by
  have hbody : ∀ i < n, Buf.Runs u.size (fun u => do
      let x ← u.read i
      u.write i ⟨x.re / (n / 1), x.im / (n / 1)⟩)
      fun c => Function.update c i (⟨(c i).re / (n / 1), (c i).im / (n / 1)⟩ : BenchComplex ℝ) := by
    intro i hi t ht
    have hi' : i < t.size := by omega
    dsimp only
    rw [bind_ok (Buf.read_ok hi')]
    exact Buf.write_ok hi' _
  unfold scale
  split_ifs
  · obtain ⟨v, hv, hsize, hcell⟩ :=
      replace_ok (fun _ x => ⟨x.re / (n / 1), x.im / (n / 1)⟩) hbody
    refine ⟨v, hv, hsize, fun k hk => ?_⟩
    rw [hcell k hk, div_one]
    apply Complex.ext
    · rw [Complex.re_ofReal_mul, inv_mul_eq_div]
      rfl
    · rw [Complex.im_ofReal_mul, inv_mul_eq_div]
      rfl
  · exact ⟨u, rfl, rfl, fun k _ => by rw [Complex.ofReal_one, one_mul]⟩

/-- **Glassman's transform is the DFT**, of any size, but for the scale of the inverse one. -/
theorem spcfft_ok {u work : Buf (BenchComplex ℝ)} (hn : 0 < n) (hu : n ≤ u.size)
    (hwork : n ≤ work.size) :
    ∃ u', spcfft exactTrig isign u n work 1 = .ok u' ∧ u'.size = u.size ∧
      ∀ k < n, toComplex (u'.cell k) = scale isign n *
        Chirp.dft n (root isign n) (fun j => toComplex (u.cell j)) k := by
  have hinit : Stages isign (fun j => toComplex (u.cell j)) n u.size ⟨1, n, 1, true, u, work⟩ := by
    refine ⟨one_pos, hn, Nat.one_mul n, rfl, hwork, fun ib hib k hk => ?_⟩
    obtain rfl : k = 0 := Nat.lt_one_iff.mp hk
    simp [Chirp.dft]
  obtain ⟨s, hrun, hs, hb⟩ := stages_ok hsign hu hinit
  have hsize : s.c * s.a = n := by rw [← hs.size_eq, hb, Nat.mul_one]
  obtain ⟨v, hv, hvsize, hvcell⟩ := swapWork_ok (hs.u_size.symm ▸ hu) hs.work_size
  have hroom : n ≤ v.size := by
    rw [hvsize, hs.u_size]
    exact hu
  obtain ⟨u', hu', hsize', hcell⟩ := scale_ok isign hroom
  refine ⟨u', ?_, hsize'.trans (hvsize.trans hs.u_size), fun k hk => ?_⟩
  · rw [spcfft, bind_ok hrun, bind_ok hv]
    exact hu'
  · have h := hs.transformed 0 (by rw [hb]; exact one_pos) k (hsize.symm ▸ hk)
    simp only [hb, hsize, Nat.zero_add, Nat.one_mul] at h
    rw [hcell k hk, hvcell k hk, h]

end Transform

/-- **The inverse transform undoes the forward one**, whatever `WORK` holds before each of them. -/
theorem spcfft_inverse {n : ℕ} (hn : 0 < n) {u work work' : Buf (BenchComplex ℝ)}
    (hu : n ≤ u.size) (hwork : n ≤ work.size) (hwork' : n ≤ work'.size) :
    ∃ v v', spcfft exactTrig (-1) u n work 1 = .ok v ∧ spcfft exactTrig 1 v n work' 1 = .ok v' ∧
      ∀ k < n, v'.cell k = u.cell k := by
  have hn' : (n : ℂ) ≠ 0 := Nat.cast_ne_zero.mpr hn.ne'
  obtain ⟨v, hv, hvsize, hvcell⟩ := spcfft_ok (Or.inr rfl) hn hu hwork
  obtain ⟨v', hv', -, hvcell'⟩ := spcfft_ok (Or.inl rfl) hn (hvsize.symm ▸ hu) hwork'
  refine ⟨v, v', hv, hv', fun k hk => toComplex.injective ?_⟩
  have hforward : ∀ j < n, toComplex (v.cell j)
      = Chirp.dft n (root (-1) n) (fun j => toComplex (u.cell j)) j := by
    intro j hj
    rw [hvcell j hj, scale, if_neg (by decide), Complex.ofReal_one, one_mul]
  have hroot : root 1 n = (root (-1) n)⁻¹ := by rw [root_neg, inv_inv]
  rw [hvcell' k hk, scale, if_pos rfl, Chirp.dft_congr hforward, hroot,
    Chirp.dft_inv_dft (isPrimitiveRoot_root (Or.inr rfl) hn) _ hk, Complex.ofReal_inv,
    Complex.ofReal_natCast, inv_mul_cancel_left₀ hn']

/-- Six numbers. -/
def sixNumbers : Buf (BenchComplex ℝ) := ⟨6, fun i => ⟨i, 1⟩⟩

theorem spcfft_inverse_six : ∃ v v',
    spcfft exactTrig (-1) sixNumbers 6 ⟨6, fun _ => ⟨0, 0⟩⟩ 1 = .ok v ∧
      spcfft exactTrig 1 v 6 ⟨6, fun _ => ⟨1, 1⟩⟩ 1 = .ok v' ∧
      ∀ k < 6, v'.cell k = sixNumbers.cell k :=
  spcfft_inverse (by decide) (show 6 ≤ sixNumbers.size from le_rfl) le_rfl le_rfl

/-! ### The benchee -/

section Benchee

variable {sizeofReal : UInt64} {work : ℕ → ℕ → BenchComplex ℝ} {p : Problem}
  (hkind : p.kind = .complex)

include hkind

theorem copies_glassman : OneDim.Copies (benchee exactTrig sizeofReal work) p .fftpack (-1)
    (OneDim.normalization p 1) where
  fromComplex _ inp io := by
    rw [Benchee.problemCcopyFrom_complex hkind]
    exact bind_pure _
  fromForward hreal := absurd (hkind.symm.trans hreal) nofun
  fromBackward hreal := absurd (hkind.symm.trans hreal) nofun
  toComplex _ io out Y h := by
    rw [Benchee.problemCcopyTo_complex hkind, ← OneDim.unnormalize_eq_scaled]
    exact bind_ok h _
  toForward hreal := absurd (hkind.symm.trans hreal) nofun
  toBackward hreal := absurd (hkind.symm.trans hreal) nofun

theorem computes_glassman (hin : p.inPlace = true) (hdims : p.dims = [p.size.toNat])
    (hn : 0 < p.size.toNat) (hsign : p.sign = 1 ∨ p.sign = -1) :
    OneDim.Computes (benchee exactTrig sizeofReal work) p .fftpack (-1) p.size.toNat
      (scale p.sign p.size.toNat) where
  complex _ io hio := by
    have hsize : p.dims.prod = p.size.toNat := by rw [hdims, List.prod_singleton]
    have hroom := hsize ▸ (hio.complexes hkind).1
    have hwork : p.size.toNat ≤ (⟨p.size.toNat, work 0⟩ : Buf (BenchComplex ℝ)).size := le_rfl
    obtain ⟨c, hc, hcsize, hcell⟩ := spcfft_ok hsign hn hroom hwork
    obtain ⟨b, hb, hbsize, hbcell⟩ := Buf.onComplexes_ok
      (f := fun x => spcfft exactTrig p.sign x p.size.toNat ⟨p.size.toNat, work 0⟩ 1) hc
    refine ⟨{ io with inp := b }, IoBuffers.onIn_ok hb, IoBuffers.sameBlocks_onIn hbsize,
      fun k hk => ?_⟩
    rw [hio.pout_of_inPlace hin, hbcell k (by omega), hcell k hk, OneDim.dft_eq]
  forward hreal := absurd (hkind.symm.trans hreal) nofun
  backward hreal := absurd (hkind.symm.trans hreal) nofun

end Benchee

/-- **The benchee `glassman` passes its verification** on every problem that it can do, whatever
`WORK` holds before each call. -/
theorem verify_glassman {str : List Char} {p : Problem} (hparse : problemParse str = .ok p)
    (hvsize : p.vsize.toNat = p.vdims.prod) {sizeofReal : UInt64}
    (hexact : AllocExact sizeofReal p) (work : ℕ → ℕ → BenchComplex ℝ)
    (hcan : (benchee exactTrig sizeofReal work).canDo p) :
    ∃ F, Transforms p F ∧ ∀ tol, 0 ≤ tol → ∀ inCell outCell ds w,
      Passes (doVerify p (doFftOf F) exactTrig ds w)
        (verify (benchee exactTrig sizeofReal work) sizeofReal exactTrig tol str inCell outCell ds
          w) := by
  have hcan' : canDo sizeofReal p = true := hcan
  simp only [canDo, singlePrecision, problemInPlace, Bool.and_eq_true, decide_eq_true_eq] at hcan'
  obtain ⟨⟨⟨⟨-, rfl⟩, hrank⟩, hkind⟩, hin⟩ := hcan'
  have hdims := OneDim.dims_of_rank_one hparse hrank
  have hmem : p.size.toNat ∈ p.dims := hdims ▸ List.mem_singleton_self _
  have hsign := problemParse_sign hparse
  obtain ⟨hp, -, -⟩ := problemParse_intDims hparse
  have hn := hp.pos _ hmem
  have hscale : OneDim.normalization p 1 * scale p.sign p.size.toNat = 1 := by
    unfold OneDim.normalization scale
    split_ifs
    · exact mul_inv_cancel₀ (Nat.cast_ne_zero.mpr hn.ne')
    · exact one_mul 1
  exact OneDim.verify_oneDim hdims hparse hvsize (by decide) (by decide) hexact hcan
    (fun io hio => OneDim.setup_ok hcan io hio)
    (OneDim.plain_fftpack (hp.lt _ hmem)) (Or.inr rfl) (copies_glassman hkind)
    (computes_glassman hkind hin hdims hn hsign) hscale

/-- The problem `icb12`. -/
def icb12 : Problem :=
  { initialProblem "icb12".toList with
    kind := .complex
    n := [12]
    size := 12
    sign := 1
    inPlace := true }

theorem verify_glassman_icb12 : ∃ F, Transforms icb12 F ∧ ∀ tol, 0 ≤ tol → ∀ inCell outCell ds w,
    Passes (doVerify icb12 (doFftOf F) exactTrig ds w)
      (verify (benchee exactTrig 4 fun _ _ => ⟨1, 0⟩) 4 exactTrig tol "icb12".toList inCell outCell
        ds w) := by
  have hparse : problemParse "icb12".toList = .ok icb12 := rfl
  have hexact : AllocExact 4 icb12 := by
    show _ < _
    decide
  exact verify_glassman hparse (by decide) hexact _ rfl

end BenchFFT.Glassman
