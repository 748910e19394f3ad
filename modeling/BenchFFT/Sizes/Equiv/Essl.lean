import BenchFFT.Sizes.Equiv.Prime
import BenchFFT.Sizes.Essl

/-!
# Which sizes pass the filter of ESSL

The filter takes the factors of two out of a size and looks at the odd rest `m`
(`stripTwos_spec`).  It asks `check_prime_factors(m, 11)` whether the rest has large prime factors,
and takes the answer `0` for "yes"; but the rest `1` has no prime factor at all, and the answer is
`0` for it, too.  So the powers of two are refused, although they are of the form that the filter
describes (`sizeOk_eq`): the test `log2 > 25` lets `2 ^ 25` pass, which is the only size of that
form with 25 factors of two.
-/

namespace BenchFFT.Essl

/-- `2^h 3^a 5^b 7^c 11^d` with `1 ≤ h ≤ 25`, `a ≤ 2` and `b, c, d ≤ 1`, up to 37748736. -/
def Described (N : ℕ) : Prop :=
  N ≤ 37748736 ∧ ∃ h a b c d : ℕ, 1 ≤ h ∧ h ≤ 25 ∧ a ≤ 2 ∧ b ≤ 1 ∧ c ≤ 1 ∧ d ≤ 1 ∧
    N = 2 ^ h * 3 ^ a * 5 ^ b * 7 ^ c * 11 ^ d

def IsPowerOfTwo (N : ℕ) : Prop := ∃ h : ℕ, N = 2 ^ h

/-! ### The factors of two -/

theorem stripTwos_spec (N : UInt32) :
    ∃ (m : UInt32) (h : ℕ), stripTwos.run (N, 0) = some (m, (h : ℤ)) ∧ N.toNat = 2 ^ h * m.toNat ∧
      (m.toNat % 2 = 1 ∨ m.toNat = 0) := by
  have hrun := ForEver.exists_run (l := stripTwos)
    (P := fun s => ∃ h : ℕ, s.2 = h ∧ N.toNat = 2 ^ h * s.1.toNat)
    (Q := fun s => (∃ h : ℕ, s.2 = h ∧ N.toNat = 2 ^ h * s.1.toNat) ∧
      (s.1.toNat % 2 = 1 ∨ s.1.toNat = 0))
    (fun s => s.1.toNat) ?_ (s := (N, 0)) ⟨0, rfl, by simp⟩
  · obtain ⟨⟨m, k⟩, hrun, ⟨h, rfl, hN⟩, hodd⟩ := hrun
    exact ⟨m, h, hrun, hN, hodd⟩
  · rintro ⟨m, k⟩ ⟨h, rfl, hN⟩
    have hgt : m > 1 ↔ 1 < m.toNat := UInt32.lt_iff_toNat_lt
    have hmod : m % 2 = 0 ↔ m.toNat % 2 = 0 := by
      rw [← UInt32.toNat_inj, UInt32.toNat_mod]
      rfl
    have hdiv : (m / 2).toNat = m.toNat / 2 := UInt32.toNat_div m 2
    by_cases hcond : 1 < m.toNat ∧ m.toNat % 2 = 0
    · right
      have hN' : N.toNat = 2 ^ (h + 1) * (m.toNat / 2) := by
        rw [hN, pow_succ, Nat.mul_assoc, Nat.mul_div_cancel' (Nat.dvd_of_mod_eq_zero hcond.2)]
      -- no number below `2 ^ 32` is halved more than 31 times
      have hlt : h + 1 < 32 := by
        rw [← Nat.pow_lt_pow_iff_right Nat.one_lt_two]
        apply lt_of_le_of_lt _ N.toNat_lt
        rw [hN']
        exact Nat.le_mul_of_pos_right _ (by omega)
      have hint : int ((h : ℤ) + 1) = some ((h : ℤ) + 1) := int_eq (by omega) (by omega)
      refine ⟨(m / 2, (h : ℤ) + 1), ?_, ⟨h + 1, rfl, ?_⟩, ?_⟩
      · simp [stripTwos, hgt.mpr hcond.1, hmod.mpr hcond.2, hint]
      · rw [hdiv, hN']
      · show (m / 2).toNat < m.toNat
        rw [hdiv]
        omega
    · left
      refine ⟨(m, h), ?_, ⟨h, rfl, hN⟩, ?_⟩
      · rw [← hgt, ← hmod] at hcond
        simp only [stripTwos, if_neg hcond]
      · show m.toNat % 2 = 1 ∨ m.toNat = 0
        omega

/-- A number has one odd part. -/
theorem two_pow_mul_inj {h h' m m' : ℕ} (hm : m % 2 = 1) (hm' : m' % 2 = 1)
    (heq : 2 ^ h * m = 2 ^ h' * m') : h = h' ∧ m = m' := by
  have hle : ∀ {h h' m m' : ℕ}, m % 2 = 1 → 2 ^ h * m = 2 ^ h' * m' → h' ≤ h := by
    intro h h' m m' hm heq
    by_contra hlt
    obtain ⟨c, rfl⟩ : ∃ c, h' = h + (c + 1) := ⟨h' - h - 1, by omega⟩
    rw [pow_add, Nat.mul_assoc, Nat.mul_right_inj (Nat.two_pow_pos h).ne', pow_succ',
      Nat.mul_assoc] at heq
    omega
  obtain rfl := le_antisymm (hle hm' heq.symm) (hle hm heq)
  exact ⟨rfl, (Nat.mul_right_inj (Nat.two_pow_pos h).ne').mp heq⟩

/-! ### The odd part -/

/-- Taking out the prime `p`, of which the divisor has at most `e`. -/
theorem exists_pow_mul {m p e : ℕ} (hm : 0 < m) (hp : p.Prime) (h : ¬p ^ (e + 1) ∣ m) :
    ∃ a ≤ e, ∃ m', 0 < m' ∧ ¬p ∣ m' ∧ m = p ^ a * m' := by
  obtain ⟨a, m', hndvd, rfl⟩ := Nat.exists_eq_pow_mul_and_not_dvd hm.ne' p hp.ne_one
  refine ⟨a, ?_, m', Nat.pos_of_mul_pos_left hm, hndvd, rfl⟩
  by_contra hlt
  exact h ((pow_dvd_pow p (by omega)).trans (Nat.dvd_mul_right _ _))

/-- The tests on the odd part, other than the one for a prime factor. -/
def OddOk (m : ℕ) : Prop :=
  (∀ q, q.Prime → q ∣ m → q ≤ 11) ∧ ¬27 ∣ m ∧ ¬25 ∣ m ∧ ¬49 ∣ m ∧ ¬121 ∣ m

theorem oddOk_iff {m : ℕ} (hodd : m % 2 = 1) : OddOk m ↔
    ∃ a b c d : ℕ, a ≤ 2 ∧ b ≤ 1 ∧ c ≤ 1 ∧ d ≤ 1 ∧ m = 3 ^ a * 5 ^ b * 7 ^ c * 11 ^ d := by
  constructor
  · rintro ⟨hsmall, h3, h5, h7, h11⟩
    obtain ⟨a, ha, m1, hm1, hn3, rfl⟩ := exists_pow_mul (e := 2) (by omega) Nat.prime_three h3
    obtain ⟨b, hb, m2, hm2, hn5, rfl⟩ := exists_pow_mul (e := 1) hm1 Nat.prime_five
      fun h => h5 (h.mul_left _)
    obtain ⟨c, hc, m3, hm3, hn7, rfl⟩ := exists_pow_mul (e := 1) hm2
      (by norm_num : Nat.Prime 7) fun h => h7 ((h.mul_left _).mul_left _)
    obtain ⟨d, hd, m4, hm4, hn11, rfl⟩ := exists_pow_mul (e := 1) hm3
      (by norm_num : Nat.Prime 11) fun h => h11 (((h.mul_left _).mul_left _).mul_left _)
    refine ⟨a, b, c, d, ha, hb, hc, hd, ?_⟩
    -- nothing is left: it would have another prime factor up to 11
    have hone : m4 = 1 := by
      by_contra hne
      obtain ⟨q, hq, hqm⟩ := Nat.exists_prime_and_dvd hne
      have hq2 : q ≠ 2 := by
        rintro rfl
        have hdvd : 2 ∣ 3 ^ a * (5 ^ b * (7 ^ c * (11 ^ d * m4))) :=
          (((hqm.mul_left _).mul_left _).mul_left _).mul_left _
        omega
      have hle := hsmall q hq ((((hqm.mul_left _).mul_left _).mul_left _).mul_left _)
      have hq3 : q ≠ 3 := fun h => hn3 (h ▸ ((hqm.mul_left _).mul_left _).mul_left _)
      have hq5 : q ≠ 5 := fun h => hn5 (h ▸ (hqm.mul_left _).mul_left _)
      have hq7 : q ≠ 7 := fun h => hn7 (h ▸ hqm.mul_left _)
      have hq11 : q ≠ 11 := fun h => hn11 (h ▸ hqm)
      have hlow := hq.two_le
      interval_cases q <;> contradiction
    rw [hone]
    ring
  · rintro ⟨a, b, c, d, ha, hb, hc, hd, rfl⟩
    refine ⟨fun q hq hqm => ?_, ?_⟩
    · have hle : ∀ {p e : ℕ}, 0 < p → p ≤ 11 → q ∣ p ^ e → q ≤ 11 := fun h0 h h' =>
        (Nat.le_of_dvd h0 (hq.dvd_of_dvd_pow h')).trans h
      rcases hq.dvd_mul.mp hqm with hqm | h
      · rcases hq.dvd_mul.mp hqm with hqm | h
        · rcases hq.dvd_mul.mp hqm with h | h
          · exact hle (by decide) (by decide) h
          · exact hle (by decide) (by decide) h
        · exact hle (by decide) (by decide) h
      · exact hle (by decide) (by decide) h
    · interval_cases a <;> interval_cases b <;> interval_cases c <;> interval_cases d <;> decide

/-! ### The filter -/

theorem odd_product (a b c d : ℕ) : 3 ^ a * 5 ^ b * 7 ^ c * 11 ^ d % 2 = 1 := by
  rw [← Nat.odd_iff]
  exact (((Odd.pow (by decide)).mul (Odd.pow (by decide))).mul (Odd.pow (by decide))).mul
    (Odd.pow (by decide))

theorem described_iff {h m : ℕ} (hodd : m % 2 = 1) :
    Described (2 ^ h * m) ↔ 2 ^ h * m ≤ 37748736 ∧ (1 ≤ h ∧ h ≤ 25) ∧ OddOk m := by
  rw [Described, oddOk_iff hodd]
  apply and_congr_right'
  constructor
  · rintro ⟨h', a, b, c, d, h1, h25, ha, hb, hc, hd, heq⟩
    have heq' : 2 ^ h * m = 2 ^ h' * (3 ^ a * 5 ^ b * 7 ^ c * 11 ^ d) := by
      rw [heq]
      ring
    obtain ⟨rfl, rfl⟩ := two_pow_mul_inj hodd (odd_product a b c d) heq'
    exact ⟨⟨h1, h25⟩, a, b, c, d, ha, hb, hc, hd, rfl⟩
  · rintro ⟨⟨h1, h25⟩, a, b, c, d, ha, hb, hc, hd, rfl⟩
    exact ⟨h, a, b, c, d, h1, h25, ha, hb, hc, hd, by ring⟩

theorem isPowerOfTwo_iff {h m : ℕ} (hodd : m % 2 = 1) : IsPowerOfTwo (2 ^ h * m) ↔ m = 1 := by
  constructor
  · rintro ⟨k, hk⟩
    rw [← Nat.mul_one (2 ^ k)] at hk
    exact (two_pow_mul_inj hodd rfl hk).2
  · rintro rfl
    exact ⟨h, Nat.mul_one _⟩

/-- The helper answers `0` for the rest `1`, too. -/
theorem checkPrimeFactors_eq_zero {m : UInt32} (hm : 1 ≤ m.toNat) :
    ∃ k, checkPrimeFactors m 11 = .ok (some k) ∧
      (k = 0 ↔ m.toNat = 1 ∨ ¬∀ q, q.Prime → q ∣ m.toNat → q ≤ 11) := by
  have h11 : (11 : UInt32).toNat ≤ 113 := by decide
  obtain ⟨r, k, hleft, hlarge, hrun⟩ := checkPrimeFactors_eq hm h11
  refine ⟨_, hrun, ?_⟩
  by_cases hr : r = 1
  · have hsmall : ∀ q, q.Prime → q ∣ m.toNat → q ≤ 11 := by
      intro q hq hqm
      apply (hleft.rest q hq hqm).resolve_right
      rw [hr]
      exact hq.not_dvd_one
    have hcount := hleft.count
    rw [hr, ArithmeticFunction.cardFactors_one] at hcount
    have hk : k = (ArithmeticFunction.cardFactors m.toNat : ℤ) := by omega
    rw [if_pos hr, hk, Nat.cast_eq_zero,
      ArithmeticFunction.cardFactors_eq_zero_iff_eq_zero_or_one, or_iff_right (by omega)]
    exact (or_iff_left (not_not_intro hsmall)).symm
  · rw [if_neg hr]
    refine iff_of_true rfl (Or.inr fun hsmall => ?_)
    obtain ⟨q, hq, hqr⟩ := Nat.exists_prime_and_dvd hr
    exact absurd (hsmall q hq (hqr.trans hleft.dvd)) (hlarge q hq hqr).not_ge

theorem not_described_zero : ¬Described 0 := by
  rintro ⟨-, h, a, b, c, d, -, -, -, -, -, -, heq⟩
  have hpos : 0 < 2 ^ h * 3 ^ a * 5 ^ b * 7 ^ c * 11 ^ d := by positivity
  omega

/-- The divisibility tests, on the odd part. -/
theorem dvd_tests_iff (m : UInt32) :
    (m % (3 * 3 * 3) = 0 ∨ m % (5 * 5) = 0 ∨ m % (7 * 7) = 0 ∨ m % (11 * 11) = 0) ↔
      27 ∣ m.toNat ∨ 25 ∣ m.toNat ∨ 49 ∣ m.toNat ∨ 121 ∣ m.toNat := by
  simp only [← UInt32.toNat_inj, UInt32.toNat_mod, Nat.dvd_iff_mod_eq_zero]
  rfl

/-- Sizes that pass are of the form described, and are no powers of two. -/
theorem sizeOk_eq (N : UInt32) : ∃ b, sizeOk N = .ok (some b) ∧
    (b = true ↔ Described N.toNat ∧ ¬IsPowerOfTwo N.toNat) := by
  obtain ⟨m, h, hrun, hN, hm⟩ := stripTwos_spec N
  have hgt : N > 37748736 ↔ 37748736 < N.toNat := UInt32.lt_iff_toNat_lt
  rw [sizeOk, hrun]
  by_cases hlarge : 37748736 < N.toNat
  · exact ⟨false, if_pos (hgt.mpr hlarge), by simp [Described, hlarge]⟩
  rw [if_neg (mt hgt.mp hlarge)]
  rcases hm with hodd | hzero
  · rw [hN, described_iff hodd, isPowerOfTwo_iff hodd, ← hN]
    by_cases hlog : (h : ℤ) < 1 ∨ (h : ℤ) > 25
    · refine ⟨false, if_pos hlog, ?_⟩
      simp only [Bool.false_eq_true, false_iff]
      omega
    · obtain ⟨k, hcheck, hk⟩ := checkPrimeFactors_eq_zero (m := m) (by omega)
      simp only [if_neg hlog, hcheck]
      by_cases hk0 : k = 0
      · -- a large prime factor, or a power of two
        refine ⟨false, if_pos hk0, ?_⟩
        rcases hk.mp hk0 with h1 | hbig
        · simp [h1]
        · simp [OddOk, hbig]
      · refine ⟨_, if_neg hk0, ?_⟩
        rw [hk, not_or, not_not] at hk0
        rw [Bool.not_eq_true', decide_eq_false_iff_not, dvd_tests_iff, OddOk]
        simp only [not_or]
        have hrange : 1 ≤ h ∧ h ≤ 25 := by omega
        have hle : N.toNat ≤ 37748736 := not_lt.mp hlarge
        exact ⟨fun h => ⟨⟨hle, hrange, hk0.2, h⟩, hk0.1⟩, fun h => h.1.2.2.2⟩
  · -- the size `0`
    have hN0 : N.toNat = 0 := by rw [hN, hzero, Nat.mul_zero]
    have hm0 : m = 0 := UInt32.toNat_inj.mp hzero
    refine ⟨false, ?_, by simp [hN0, not_described_zero]⟩
    show (if _ then _ else _) = _
    rw [hm0]
    split_ifs
    · rfl
    · rfl

/-! ### Lists of sizes -/

theorem nOk_eq (n : List UInt32) (isReal : Bool) :
    ((∀ N ∈ n, Described N.toNat ∧ ¬IsPowerOfTwo N.toNat) → nOk n isReal = .ok (some 1)) ∧
    ((¬∀ N ∈ n, Described N.toNat ∧ ¬IsPowerOfTwo N.toNat) → nOk n isReal = .ok (some 0)) := by
  induction n with
  | nil => exact ⟨fun _ => rfl, fun h => absurd (fun N hN => absurd hN List.not_mem_nil) h⟩
  | cons N n ih =>
    obtain ⟨b, hrun, hb⟩ := sizeOk_eq N
    simp only [List.forall_mem_cons, ← hb]
    rw [nOk, hrun]
    cases b with
    | false => exact ⟨fun h => absurd h.1 (by decide), fun _ => rfl⟩
    | true =>
      refine ⟨fun h => ih.1 h.2, fun h => ih.2 ?_⟩
      exact fun hall => h ⟨rfl, hall⟩

/-- What ESSL is asked to transform. -/
theorem canDo_iff (p : Problem) : canDo p = .ok (some 1) ↔
    (1 ≤ p.rank ∧ p.rank ≤ 3) ∧ ∀ N ∈ p.n, Described N.toNat ∧ ¬IsPowerOfTwo N.toNat := by
  obtain ⟨hyes, hno⟩ := nOk_eq p.n (p.kind = .real)
  rw [canDo]
  split_ifs with hrank
  · by_cases hall : ∀ N ∈ p.n, Described N.toNat ∧ ¬IsPowerOfTwo N.toNat
    · exact iff_of_true (hyes hall) ⟨hrank, hall⟩
    · rw [hno hall]
      exact iff_of_false (by decide) fun h => hall h.2
  · exact iff_of_false (by decide) fun h => hrank h.1

/-- `n_ok` accepts the lists of sizes of the form described, and refuses all others. -/
def AcceptsDescribed (n : List UInt32) (isReal : Bool) : Prop :=
  (nOk n isReal = .ok (some 1) ↔ ∀ N ∈ n, Described N.toNat) ∧
    ((¬∀ N ∈ n, Described N.toNat) → nOk n isReal = .ok (some 0))

/-- **The filter of ESSL.**  It does what it describes unless all sizes are of the form described
and one of them is a power of two. -/
theorem acceptsDescribed_iff (n : List UInt32) (isReal : Bool) : AcceptsDescribed n isReal ↔
    (∃ N ∈ n, ¬Described N.toNat) ∨ ∀ N ∈ n, ¬IsPowerOfTwo N.toNat := by
  obtain ⟨hyes, hno⟩ := nOk_eq n isReal
  rw [AcceptsDescribed]
  by_cases hdesc : ∀ N ∈ n, Described N.toNat
  · have hnone : ¬∃ N ∈ n, ¬Described N.toNat := by
      rintro ⟨N, hN, h⟩
      exact h (hdesc N hN)
    rw [or_iff_right hnone]
    constructor
    · rintro ⟨hiff, -⟩
      by_contra hpow
      have hrefused := hno fun h => hpow fun N hN => (h N hN).2
      cases hrefused.symm.trans (hiff.mpr hdesc)
    · intro hpow
      exact ⟨iff_of_true (hyes fun N hN => ⟨hdesc N hN, hpow N hN⟩) hdesc, absurd hdesc⟩
  · have hrefused := hno fun h => hdesc fun N hN => (h N hN).1
    refine iff_of_true ⟨?_, fun _ => hrefused⟩ (Or.inl (by simpa using hdesc))
    rw [hrefused]
    exact iff_of_false (by decide) hdesc

/-- The size 64 is refused. -/
theorem not_acceptsDescribed_64 : ¬AcceptsDescribed [64] false := by
  rintro ⟨hiff, -⟩
  have hdesc : Described 64 := ⟨by decide, 6, 0, 0, 0, 0, by decide⟩
  have hyes := hiff.mpr fun N hN => by
    rw [List.mem_singleton.mp hN]
    exact hdesc
  have hno := (nOk_eq [64] false).2 fun h => (h 64 (List.mem_singleton_self _)).2 ⟨6, rfl⟩
  cases hno.symm.trans hyes

end BenchFFT.Essl
