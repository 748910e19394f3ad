import BenchFFT.Problem.Equiv.Io
import BenchFFT.Verify.Equiv.Acmp
import BenchFFT.Verify.Equiv.Effects
import BenchFFT.Verify.Equiv.RealTests
import BenchFFT.Verify.Harness

/-!
# From the benchee to the tests

The tests know the transform under test as a function of arrays.  A benchee works on the blocks at
`p->in` and `p->out`; where every `do_fft` computes such a function and keeps the blocks
(`Yields (HasRoom p)`), `verify` makes the comparisons of the tests on that function, up to the
first that `acmp` does not let pass (`verify_eq`).

* `doFft_yields`, `eq_doFftOf`: a `do_fft` is put together from its three steps.
* `doVerify_holds`: the tests hold on a function that is the transform of the problem.
* `verify_passes`: then `verify` returns, unless `acmp` divides `0` by `0`.
-/

namespace BenchFFT

open RowMajor

/-! ### Copying into the blocks and back -/

namespace Benchee

variable {R : Type} [Zero R] {b : Benchee R} {p : Problem}

theorem problemCcopyFrom_complex (hkind : p.kind = .complex) (inp : ℕ → BenchComplex R)
    (io : IoBuffers R) : b.problemCcopyFrom p inp io
      = b.copyC2cFrom p inp io >>= b.afterProblemCcopyFrom p inp := by
  rw [problemCcopyFrom, hkind]

theorem problemCcopyFrom_forward (hkind : p.kind = .real) (hsign : p.sign = -1)
    (inp : ℕ → BenchComplex R) (io : IoBuffers R) : b.problemCcopyFrom p inp io
      = b.copyC2r p inp io >>= b.afterProblemCcopyFrom p inp := by
  rw [problemCcopyFrom, hkind]
  exact if_pos hsign

theorem problemCcopyFrom_backward (hkind : p.kind = .real) (hsign : p.sign ≠ -1)
    (inp : ℕ → BenchComplex R) (io : IoBuffers R) : b.problemCcopyFrom p inp io
      = b.copyC2h p inp io >>= b.afterProblemCcopyFrom p inp := by
  rw [problemCcopyFrom, hkind]
  exact if_neg hsign

theorem problemCcopyTo_complex (hkind : p.kind = .complex) (io : IoBuffers R)
    (out : ℕ → BenchComplex R) : b.problemCcopyTo p io out
      = b.copyC2cTo p io out >>= b.afterProblemCcopyTo p io := by
  rw [problemCcopyTo, hkind]

theorem problemCcopyTo_forward (hkind : p.kind = .real) (hsign : p.sign = -1) (io : IoBuffers R)
    (out : ℕ → BenchComplex R) : b.problemCcopyTo p io out
      = b.copyH2c p io out >>= b.afterProblemCcopyTo p io := by
  rw [problemCcopyTo, hkind]
  exact if_pos hsign

theorem problemCcopyTo_backward (hkind : p.kind = .real) (hsign : p.sign ≠ -1) (io : IoBuffers R)
    (out : ℕ → BenchComplex R) : b.problemCcopyTo p io out
      = b.copyR2c p io out >>= b.afterProblemCcopyTo p io := by
  rw [problemCcopyTo, hkind]
  exact if_neg hsign

end Benchee

namespace Verify

/-- What `problem_ccopy_from` leaves in the blocks satisfies `P`, which `doit` turns into `Q`, from
which `problem_ccopy_to` reads `Y`. -/
theorem doFft_yields {R : Type} [Zero R] {b : Benchee R} {p : Problem}
    {inp out Y : ℕ → BenchComplex R} (P Q : IoBuffers R → Prop)
    (hfrom : ∀ io, HasRoom p io →
      ∃ io', b.problemCcopyFrom p inp io = .ok io' ∧ HasRoom p io' ∧ P io')
    (hdoit : ∀ io, HasRoom p io → P io → ∃ io', b.doit 1 p io = .ok io' ∧ HasRoom p io' ∧ Q io')
    (hto : ∀ io, HasRoom p io → Q io → b.problemCcopyTo p io out = .ok Y) :
    Yields (HasRoom p) (doFft b p inp out) Y := by
  refine Yields.of_forall fun io hio => ?_
  obtain ⟨io₁, hrun₁, hroom₁, hP⟩ := hfrom io hio
  obtain ⟨io₂, hrun₂, hroom₂, hQ⟩ := hdoit io₁ hroom₁ hP
  refine ⟨io₂, ?_, hroom₂⟩
  rw [doFft, bind_ok hrun₁, bind_ok hrun₂, bind_ok (hto io₂ hroom₂ hQ)]
  rfl

theorem eq_doFftOf {R : Type*} {N : ℕ} {F : (Fin N → BenchComplex R) → Fin N → BenchComplex R}
    {inp out Y : ℕ → BenchComplex R} (hlt : ∀ k : Fin N, Y k = F (fun j => inp j) k)
    (hge : ∀ k, N ≤ k → Y k = out k) : Y = doFftOf F inp out := by
  ext1 k
  unfold doFftOf
  split_ifs with hk
  · exact hlt ⟨k, hk⟩
  · exact hge k (Nat.not_lt.mp hk)

/-! ### The tests -/

variable {p : Problem}

/-- `F` is the transform of the problem, on the inputs that a problem of its kind has. -/
def Transforms (p : Problem)
    (F : (Fin p.size.toNat → BenchComplex ℝ) → Fin p.size.toNat → BenchComplex ℝ) : Prop :=
  match p.kind with
  | .complex => IsDft p F
  | .real => if p.sign = -1 then IsRealDft p F else IsRealLinear F ∧ IsHermitianDft p F

variable {F : (Fin p.size.toNat → BenchComplex ℝ) → Fin p.size.toNat → BenchComplex ℝ}

theorem doVerify_eq (doFft : (ℕ → BenchComplex ℝ) → (ℕ → BenchComplex ℝ) → ℕ → BenchComplex ℝ)
    (trig : Trig ℝ) (ds : Draws ℝ) (w : Work ℝ) : doVerify p doFft trig ds w =
      let el := linear p doFft ds.linear w
      let ei := impulse p doFft ds.unitImpulse ds.onesImpulse el.1
      let es := if p.kind = .complex ∨ p.sign = -1 then
        tfShift p doFft trig .timeShift ds.timeShift ei.1 else (ei.1, [])
      let es' := if p.kind = .complex ∨ p.sign = 1 then
        tfShift p doFft trig .freqShift ds.freqShift es.1 else (es.1, [])
      el.2 ++ ei.2 ++ es.2 ++ es'.2 := rfl

theorem doVerify_holds (hn : ∀ x ∈ p.dims, 0 < x) (hsize : p.size.toNat = p.dims.prod)
    (hsign : p.sign = 1 ∨ p.sign = -1) (hF : Transforms p F) (ds : Draws ℝ) (w : Work ℝ) :
    AllHold (doVerify p (doFftOf F) exactTrig ds w) := by
  have hnil : AllHold ([] : List (Comparison ℝ)) := fun c hc => nomatch hc
  unfold Transforms at hF
  simp only [doVerify_eq, allHold_append]
  cases hkind : p.kind with
  | complex =>
    rw [hkind] at hF
    have htests := testsHold_of_isDft hkind hn hsize hsign hF
    simp only [true_or, if_true]
    exact ⟨⟨⟨htests.linear _ _, allHold_append.mpr ⟨htests.unitImpulse _ _,
      onesImpulse_holds hn hsize hsign hF _ _⟩⟩, htests.timeShift _ _⟩,
      freqShift_holds hkind hn hsize hsign hF _ _⟩
  | real =>
    rw [hkind] at hF
    simp only [reduceCtorEq, false_or]
    rcases hsign with hback | hforw
    · have hne : ¬p.sign = -1 := by rw [hback]; decide
      rw [if_neg hne] at hF ⊢
      rw [if_pos hback]
      obtain ⟨hlin, hF⟩ := hF
      refine ⟨⟨⟨linear_holds_real hkind hlin _ _, impulse_holds_real hn hsize (Or.inl hback) hlin
        (fun f hf k => onComplex_of_isHermitianDft hsize hF (fun j hj => ?_) k) _ _ _⟩, hnil⟩,
        freqShift_holds_real hn hsize hkind (Or.inl hback) hF _ _⟩
      rw [hf j hj, Complex.conj_ofReal]
    · have hne : ¬p.sign = 1 := by rw [hforw]; decide
      rw [if_pos hforw] at hF ⊢
      rw [if_neg hne]
      have hlin := isRealLinear_of_isRealDft hF
      exact ⟨⟨⟨linear_holds_real hkind hlin _ _, impulse_holds_real hn hsize (Or.inr hforw) hlin
        (fun f _ k => onComplex_of_isRealDft hsize hF _ k) _ _ _⟩,
        timeShift_holds_real hn hsize hkind (Or.inr hforw) hF _ _⟩, hnil⟩

/-! ### The whole run -/

theorem lastSetting_sign (flags : List Char) {x : ℤ} (hx : x = 1 ∨ x = -1) :
    lastSetting signFlag flags x = 1 ∨ lastSetting signFlag flags x = -1 := by
  induction flags generalizing x with
  | nil => exact hx
  | cons c flags ih =>
    rw [lastSetting_cons]
    apply ih
    unfold signFlag
    split
    all_goals simp [hx]

theorem problemParse_sign {s : List Char} (h : problemParse s = .ok p) :
    p.sign = 1 ∨ p.sign = -1 := by
  obtain ⟨d, rest, hread⟩ := (exists_reads s).resolve_left (by rw [h]; exact nofun)
  rw [problemParse_reads hread] at h
  split_ifs at h
  rw [Except.ok.injEq] at h
  subst h
  exact lastSetting_sign _ (Or.inr rfl)

section Comparison

variable {R : Type} [Field R] [LinearOrder R]

/-- What stops the run at a comparison. -/
def Comparison.fails (tol : ExtNum R) (c : Comparison R) : Option Abort :=
  match Verify.acmp (numbers c.A) (numbers c.B) c.n tol with
  | .ok _ => none
  | .error e => some e

theorem acmp_checks (tol : ExtNum R) {I : IoBuffers R → Prop} (c : Comparison R) :
    Checks (Comparison.fails tol) I (c.acmp tol) [c] ⟨⟩ := by
  intro io hio
  rw [List.findSome?_singleton, Comparison.fails, Comparison.acmp]
  cases Verify.acmp (numbers c.A) (numbers c.B) c.n tol with
  | ok d => exact ⟨io, rfl, hio⟩
  | error e => rfl

/-- How `verify` ends if the arrays of every comparison are equal. -/
structure Passes (cs : List (Comparison R)) (r : Except Abort (List (Comparison R))) : Prop where
  holds : AllHold cs
  returns : (∀ c ∈ cs, ∃ i < c.n, c.A i ≠ ⟨0, 0⟩) → r = .ok cs
  /-- `BENCH_ASSERT(!isnan(error))`, after a division of `0` by `0`. -/
  asserts : (∃ c ∈ cs, ∀ i < c.n, c.A i = ⟨0, 0⟩) → r = .error .assertFailed

theorem passes_of_holds [IsStrictOrderedRing R] {tol : ExtNum R} (htol : 0 ≤ tol)
    {cs : List (Comparison R)} (hcs : AllHold cs) {r : Except Abort (List (Comparison R))}
    (hr : r = match cs.findSome? (Comparison.fails tol) with
      | none => .ok cs
      | some e => .error e) : Passes cs r := by
  have hzero : ∀ c ∈ cs, (∀ i < c.n, c.A i = ⟨0, 0⟩) → c.fails tol = some .assertFailed :=
    fun c hc h0 => by rw [Comparison.fails, (acmp_of_eq htol (hcs c hc)).1 h0]
  have hne : ∀ c ∈ cs, (∃ i < c.n, c.A i ≠ ⟨0, 0⟩) → c.fails tol = none :=
    fun c hc h0 => by rw [Comparison.fails, (acmp_of_eq htol (hcs c hc)).2 h0]
  refine ⟨hcs, fun hall => ?_, fun ⟨c, hc, h0⟩ => ?_⟩
  · have hnone : cs.findSome? (Comparison.fails tol) = none :=
      List.findSome?_eq_none_iff.mpr fun c hc => hne c hc (hall c hc)
    rw [hr, hnone]
  · cases hsome : cs.findSome? (Comparison.fails tol) with
    | none =>
      have hnone := List.findSome?_eq_none_iff.mp hsome c hc
      rw [hzero c hc h0] at hnone
      cases hnone
    | some e =>
      -- the comparison that stops the run is one of zeros
      obtain ⟨c', hc', hfails⟩ := List.exists_of_findSome?_eq_some hsome
      by_cases h0' : ∀ i < c'.n, c'.A i = ⟨0, 0⟩
      · rw [hzero c' hc' h0', Option.some.injEq] at hfails
        rw [hr, hsome, ← hfails]
      · push Not at h0'
        rw [hne c' hc' h0'] at hfails
        cases hfails

end Comparison

theorem verify_eq {R : Type} [Field R] [LinearOrder R] {b : Benchee R}
    {F : (Fin p.size.toNat → BenchComplex R) → Fin p.size.toNat → BenchComplex R} {s : List Char}
    {sizeofReal : UInt64} (hparse : problemParse s = .ok p) (hsize : p.size.toNat = p.dims.prod)
    (hvsize : p.vsize.toNat = p.vdims.prod) (hpos : 1 ≤ sizeofReal.toNat)
    (hle : sizeofReal.toNat ≤ 16) (hexact : AllocExact sizeofReal p) (hcan : b.canDo p)
    (hsetup : ∀ io, HasRoom p io → ∃ io', b.setup p io = .ok io' ∧ HasRoom p io')
    (hfft : ∀ inp out, Yields (HasRoom p) (doFft b p inp out) (doFftOf F inp out))
    (trig : Trig R) (tol : ExtNum R) (inCell outCell : ℕ → R) (ds : Draws R) (w : Work R) :
    verify b sizeofReal trig tol s inCell outCell ds w =
      match (doVerify p (doFftOf F) trig ds w).findSome? (Comparison.fails tol) with
      | none => .ok (doVerify p (doFftOf F) trig ds w)
      | some e => .error e := by
  obtain ⟨hp, -, hv⟩ := problemParse_intDims hparse
  obtain ⟨io₁, hzero, hroom₁⟩ := hasRoom_alloc hp hv hsize hvsize hpos hle hexact inCell outCell
  obtain ⟨io₂, hset, hroom₂⟩ := hsetup io₁ hroom₁
  have hrun := doVerifyM_checks (p := p) hfft (acmp_checks tol) trig ds w io₂ hroom₂
  rw [verify, bind_ok hparse, bind_ok (benchAssert_ok hcan), bind_ok hzero, bind_ok hset]
  cases hfails : (doVerify p (doFftOf F) trig ds w).findSome? (Comparison.fails tol) with
  | none =>
    rw [hfails] at hrun
    obtain ⟨io₃, hok, -⟩ := hrun
    rw [bind_ok hok]
    rfl
  | some e =>
    rw [hfails] at hrun
    rw [hrun]
    rfl

/-- Where every `do_fft` computes the transform of the problem, all comparisons hold. -/
theorem verify_passes {b : Benchee ℝ} {s : List Char} {sizeofReal : UInt64}
    (hparse : problemParse s = .ok p) (hsize : p.size.toNat = p.dims.prod)
    (hvsize : p.vsize.toNat = p.vdims.prod) (hpos : 1 ≤ sizeofReal.toNat)
    (hle : sizeofReal.toNat ≤ 16) (hexact : AllocExact sizeofReal p) (hcan : b.canDo p)
    (hsetup : ∀ io, HasRoom p io → ∃ io', b.setup p io = .ok io' ∧ HasRoom p io')
    (hF : Transforms p F)
    (hfft : ∀ inp out, Yields (HasRoom p) (doFft b p inp out) (doFftOf F inp out))
    {tol : ExtNum ℝ} (htol : 0 ≤ tol) (inCell outCell : ℕ → ℝ) (ds : Draws ℝ) (w : Work ℝ) :
    Passes (doVerify p (doFftOf F) exactTrig ds w)
      (verify b sizeofReal exactTrig tol s inCell outCell ds w) := by
  obtain ⟨hp, -, -⟩ := problemParse_intDims hparse
  exact passes_of_holds htol (doVerify_holds hp.pos hsize (problemParse_sign hparse) hF ds w)
    (verify_eq hparse hsize hvsize hpos hle hexact hcan hsetup hfft exactTrig tol inCell outCell ds
      w)

end Verify

end BenchFFT
