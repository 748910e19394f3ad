import BenchFFT.Sizes.Prime
import Mathlib.NumberTheory.ArithmeticFunction.Misc
import Mathlib.Tactic.IntervalCases
import Mathlib.Tactic.NormNum.Prime

/-!
# Counting small prime factors

Dividing by `p` while it divides takes `p` out of the prime factors and adds their number to the
count (`divideOut_spec`).  The loop over the table keeps the sum of the count and of the number of
prime factors that are left, and that no entry it has passed divides what is left; as the table has
every prime up to `113` (`mem_primes`), at its end all prime factors that are left exceed
`maxprime` (`divideOutAll_spec`).
-/

namespace BenchFFT

open ArithmeticFunction
open scoped ArithmeticFunction.Omega

/-! ### The table -/

theorem prime_of_mem_primes : ∀ p ∈ primes, p.toNat.Prime := by
  simp only [primes, List.forall_mem_cons, UInt32.reduceToNat]
  norm_num

theorem mem_primes {q : ℕ} (hq : q.Prime) (h : q ≤ 113) : ∃ p ∈ primes, p.toNat = q := by
  have hmem : ∀ q ≤ 113, q ∈ primes.map UInt32.toNat ∨ ¬q.Prime := by
    intro q hq
    interval_cases q <;> first
      | exact Or.inl (by decide)
      | exact Or.inr (by norm_num)
  exact List.mem_map.mp ((hmem q h).resolve_right (not_not_intro hq))

theorem primes_sorted : primes.Pairwise fun p q => p.toNat < q.toNat := by decide

/-! ### Dividing out -/

/-- A number below `2 ^ 32` has fewer than 32 prime factors. -/
theorem cardFactors_lt (n : UInt32) : Ω n.toNat < 32 := by
  rcases Nat.eq_zero_or_pos n.toNat with h0 | hpos
  · rw [h0]
    simp
  · have hle : 2 ^ Ω n.toNat ≤ n.toNat := by
      conv_rhs => rw [← Nat.prod_primeFactorsList hpos.ne']
      exact List.pow_card_le_prod _ _ fun q hq => (Nat.prime_of_mem_primeFactorsList hq).two_le
    exact (Nat.pow_lt_pow_iff_right Nat.one_lt_two).mp (lt_of_le_of_lt hle n.toNat_lt)

theorem cardFactors_div {p n : ℕ} (hp : p.Prime) (hn : 0 < n) (h : p ∣ n) :
    Ω (n / p) + 1 = Ω n := by
  obtain ⟨m, rfl⟩ := h
  have hm : 0 < m := Nat.pos_of_mul_pos_left hn
  rw [Nat.mul_div_cancel_left m hp.pos, cardFactors_mul hp.ne_zero hm.ne',
    cardFactors_apply_prime hp, Nat.add_comm]

/-- What is left of `n`, with its count, when the divisors taken out so far satisfy `D`. -/
structure Left (n : ℕ) (numFacts : ℤ) (D : ℕ → Prop) (m : ℕ) (k : ℤ) : Prop where
  pos : 0 < m
  dvd : m ∣ n
  nonneg : 0 ≤ k
  count : k + Ω m = numFacts + Ω n
  rest : ∀ q, q.Prime → q ∣ n → D q ∨ q ∣ m

theorem Left.refl {n : ℕ} {numFacts : ℤ} {D : ℕ → Prop} (hn : 0 < n) (h0 : 0 ≤ numFacts) :
    Left n numFacts D n numFacts :=
  ⟨hn, dvd_rfl, h0, rfl, fun _ _ h => Or.inr h⟩

theorem Left.trans {n m m' : ℕ} {numFacts k k' : ℤ} {D D' : ℕ → Prop} (h : Left n numFacts D m k)
    (h' : Left m k D' m' k') (hD : ∀ q, D q → D' q) : Left n numFacts D' m' k' where
  pos := h'.pos
  dvd := h'.dvd.trans h.dvd
  nonneg := h'.nonneg
  count := h'.count.trans h.count
  rest q hq hqn := by
    rcases h.rest q hq hqn with hDq | hqm
    · exact Or.inl (hD q hDq)
    · exact h'.rest q hq hqm

/-- Taking out `p` once. -/
theorem Left.div {n m p : ℕ} {numFacts k : ℤ} (h : Left n numFacts (· = p) m k) (hp : p.Prime)
    (hdvd : p ∣ m) : Left n numFacts (· = p) (m / p) (k + 1) where
  pos := Nat.div_pos (Nat.le_of_dvd h.pos hdvd) hp.pos
  dvd := (Nat.div_dvd_of_dvd hdvd).trans h.dvd
  nonneg := by
    have h0 := h.nonneg
    omega
  count := by
    have hcount := h.count
    rw [← cardFactors_div hp h.pos hdvd] at hcount
    push_cast at hcount
    omega
  rest q hq hqn := by
    rcases h.rest q hq hqn with rfl | hqm
    · exact Or.inl rfl
    · -- a prime other than `p` stays in the quotient
      rw [← Nat.mul_div_cancel' hdvd] at hqm
      rcases hq.dvd_mul.mp hqm with hqp | hqm
      · exact Or.inl ((Nat.prime_dvd_prime_iff_eq hq hp).mp hqp)
      · exact Or.inr hqm

theorem divideOut_spec {p n : UInt32} (hp : p.toNat.Prime) (hn : 0 < n.toNat) {numFacts : ℤ}
    (h0 : 0 ≤ numFacts) (hbound : numFacts + Ω n.toNat < 2 ^ 31) :
    ∃ m k, (divideOut p).run (n, numFacts) = some (m, k) ∧
      Left n.toNat numFacts (· = p.toNat) m.toNat k ∧ ¬p.toNat ∣ m.toNat := by
  have hrun := ForEver.exists_run (l := divideOut p)
    (P := fun s => Left n.toNat numFacts (· = p.toNat) s.1.toNat s.2)
    (Q := fun s => Left n.toNat numFacts (· = p.toNat) s.1.toNat s.2 ∧ ¬p.toNat ∣ s.1.toNat)
    (fun s => s.1.toNat) ?_ (s := (n, numFacts)) (Left.refl hn h0)
  · obtain ⟨⟨m, k⟩, hrun, hleft, hndvd⟩ := hrun
    exact ⟨m, k, hrun, hleft, hndvd⟩
  · rintro ⟨m, k⟩ hleft
    have hmod : m % p = 0 ↔ p.toNat ∣ m.toNat := by
      rw [← UInt32.toNat_inj, UInt32.toNat_mod, Nat.dvd_iff_mod_eq_zero]
      rfl
    by_cases hdvd : p.toNat ∣ m.toNat
    · right
      have hnext := hleft.div hp hdvd
      -- the count stays below the number of prime factors
      have hint : int (k + 1) = some (k + 1) := by
        have hcount := hnext.count
        exact int_eq hnext.nonneg (by omega)
      refine ⟨(m / p, k + 1), ?_, ?_, ?_⟩
      · simp [divideOut, hmod.mpr hdvd, hint]
      · rwa [UInt32.toNat_div]
      · rw [UInt32.toNat_div]
        exact Nat.div_lt_self hleft.pos hp.one_lt
    · left
      exact ⟨(m, k), by simp [divideOut, mt hmod.mp hdvd], hleft, hdvd⟩

/-! ### The loop over the table -/

/-- With the part `ps` of the table left, which has all the prime factors up to `113`. -/
theorem divideOutAll_spec {maxprime : UInt32} (hmax : maxprime.toNat ≤ 113) {ps : List UInt32}
    (hps : ∀ p ∈ ps, p.toNat.Prime) (hsorted : ps.Pairwise fun p q => p.toNat < q.toNat)
    {n : UInt32} (hn : 0 < n.toNat) {numFacts : ℤ} (h0 : 0 ≤ numFacts)
    (hbound : numFacts + Ω n.toNat < 2 ^ 31)
    (hall : ∀ q, q.Prime → q ∣ n.toNat → q ≤ 113 → ∃ p ∈ ps, p.toNat = q) :
    ∃ m k, divideOutAll maxprime ps n numFacts = some (m, k) ∧
      Left n.toNat numFacts (· ≤ maxprime.toNat) m.toNat k ∧
      ∀ q, q.Prime → q ∣ m.toNat → maxprime.toNat < q := by
  induction ps generalizing n numFacts with
  | nil =>
    refine ⟨n, numFacts, rfl, Left.refl hn h0, fun q hq hqn => ?_⟩
    by_contra hle
    obtain ⟨p, hp, -⟩ := hall q hq hqn (by omega)
    exact absurd hp List.not_mem_nil
  | cons p ps ih =>
    obtain ⟨hlt, hsorted⟩ := List.pairwise_cons.mp hsorted
    have hp : p.toNat.Prime := hps p List.mem_cons_self
    rw [divideOutAll]
    split_ifs with hcond
    · -- one more entry
      obtain ⟨m, k, hrun, hleft, hndvd⟩ := divideOut_spec hp hn h0 hbound
      have hcount := hleft.count
      have hrest : ∀ q, q.Prime → q ∣ m.toNat → q ≤ 113 → ∃ p' ∈ ps, p'.toNat = q := by
        intro q hq hqm hle
        obtain ⟨p', hp', rfl⟩ := hall q hq (hqm.trans hleft.dvd) hle
        rcases List.mem_cons.mp hp' with rfl | hp'
        · exact absurd hqm hndvd
        · exact ⟨p', hp', rfl⟩
      obtain ⟨m', k', hrun', hleft', hlarge⟩ :=
        ih (fun p' hp' => hps p' (List.mem_cons_of_mem p hp')) hsorted hleft.pos hleft.nonneg
          (by omega) hrest
      refine ⟨m', k', by simp [hrun, hrun'], hleft.trans hleft' ?_, hlarge⟩
      rintro q rfl
      exact UInt32.le_iff_toNat_le.mp hcond.2
    · -- nothing is left, or the table has passed `maxprime`
      refine ⟨n, numFacts, rfl, Left.refl hn h0, fun q hq hqn => ?_⟩
      by_contra hle
      obtain ⟨p', hp', rfl⟩ := hall q hq hqn (by omega)
      apply hcond
      have hle' : p.toNat ≤ p'.toNat := by
        rcases List.mem_cons.mp hp' with rfl | hp'
        · rfl
        · exact (hlt p' hp').le
      constructor
      · rw [gt_iff_lt, UInt32.lt_iff_toNat_lt]
        exact lt_of_lt_of_le hq.one_lt (Nat.le_of_dvd hn hqn)
      · rw [UInt32.le_iff_toNat_le]
        omega

/-- What is left after the loop is `1` where all prime factors are small. -/
theorem checkPrimeFactors_eq {n maxprime : UInt32} (hn : 1 ≤ n.toNat)
    (hmax : maxprime.toNat ≤ 113) :
    ∃ m k, Left n.toNat 0 (· ≤ maxprime.toNat) m k ∧
      (∀ q, q.Prime → q ∣ m → maxprime.toNat < q) ∧
      checkPrimeFactors n maxprime = .ok (some (if m = 1 then k else 0)) := by
  have hlt := cardFactors_lt n
  obtain ⟨m, k, hrun, hleft, hlarge⟩ := divideOutAll_spec hmax prime_of_mem_primes primes_sorted hn
    le_rfl (by omega) fun q hq _ h => mem_primes hq h
  refine ⟨m.toNat, k, hleft, hlarge, ?_⟩
  have hassert : maxprime ≤ primes.getLastD 0 := UInt32.le_iff_toNat_le.mpr hmax
  have hne : n ≠ 0 := by
    rintro rfl
    exact absurd hn (by decide)
  have hone : m = 1 ↔ m.toNat = 1 := UInt32.toNat_inj.symm
  rw [checkPrimeFactors, benchAssert, if_pos hassert, hrun]
  simp [hne, hone]

/-- **The number of prime factors.**  If they are all at most `maxprime`, they are counted; if there
is a larger one, the result is `0`. -/
theorem checkPrimeFactors_spec {n maxprime : UInt32} (hn : 1 ≤ n.toNat)
    (hmax : maxprime.toNat ≤ 113) :
    ((∀ q, q.Prime → q ∣ n.toNat → q ≤ maxprime.toNat) →
      checkPrimeFactors n maxprime = .ok (some n.toNat.primeFactorsList.length)) ∧
    ((∃ q, q.Prime ∧ q ∣ n.toNat ∧ maxprime.toNat < q) →
      checkPrimeFactors n maxprime = .ok (some 0)) := by
  obtain ⟨m, k, hleft, hlarge, hrun⟩ := checkPrimeFactors_eq hn hmax
  constructor
  · intro hsmall
    have hone : m = 1 := by
      by_contra hm
      obtain ⟨q, hq, hqm⟩ := Nat.exists_prime_and_dvd hm
      exact absurd (hsmall q hq (hqm.trans hleft.dvd)) (hlarge q hq hqm).not_ge
    have hcount := hleft.count
    rw [hone, cardFactors_one] at hcount
    rw [hrun, if_pos hone, ← cardFactors_apply]
    congr
    omega
  · rintro ⟨q, hq, hqn, hlt⟩
    have hqm : q ∣ m := (hleft.rest q hq hqn).resolve_left hlt.not_ge
    have hone : m ≠ 1 := by
      rintro rfl
      exact hq.one_lt.ne' (Nat.dvd_one.mp hqm)
    rw [hrun, if_neg hone]

theorem checkPrimeFactors_spec_360 :
    ((∀ q, q.Prime → q ∣ 360 → q ≤ 6) → checkPrimeFactors 360 6
      = .ok (some (Nat.primeFactorsList 360).length)) ∧
    ((∃ q, q.Prime ∧ q ∣ 360 ∧ 6 < q) → checkPrimeFactors 360 6 = .ok (some 0)) :=
  checkPrimeFactors_spec (show 1 ≤ (360 : UInt32).toNat by decide)
    (show (6 : UInt32).toNat ≤ 113 by decide)

end BenchFFT
