import BenchFFT.Mp.Calls
import BenchFFT.Mp.Equiv.Bluestein
import BenchFFT.Mp.Equiv.Canonical
import BenchFFT.Triple

/-!
# Canonical numbers, over whole runs

What the functions of `mp.c` hand on is canonical, after any sequence of calls, unless it is
`fromshort(0)` (`canonical_iff`).  The transforms multiply by that number, which does no harm, but
`bluestein_sequence` stores it.

Between the calls, the tables hold numbers with a sign, or blank ones (`Kept`).
-/

namespace BenchFFT.Mp

open N

/-! ### Arrays -/

/-- The numbers in the first `n` entries have `P`. -/
def Entries (P : N → Prop) (n : ℕ) (a : ℕ → N) : Prop :=
  ∀ k < n, P (entry a k).1 ∧ P (entry a k).2

namespace Entries

variable {P : N → Prop} {n : ℕ} {a : ℕ → N}

theorem setEntry (ha : Entries P n a) (k : ℕ) {z : N × N} (hz : P z.1 ∧ P z.2) :
    Entries P n (setEntry a k z) := by
  intro j hj
  rw [entry_setEntry]
  split_ifs
  · exact hz
  · exact ha j hj

theorem bitrev {t : ℕ} {b : ℕ → N} (ha : Entries P (2 ^ t) a) (h : bitrev (2 ^ t) a = some b) :
    Entries P (2 ^ t) b := by
  obtain ⟨c, hc, hentries, -⟩ := bitrev_eq t a
  obtain rfl := Option.some.inj (hc.symm.trans h)
  intro k hk
  rw [hentries k hk]
  exact ha _ (rev_lt t k)

/-- The first `m` entries are replaced. -/
theorem forRange {m : ℕ} {g : ℕ → N × N → N × N}
    (hin : ∀ i < n, i < m → P (g i (entry a i)).1 ∧ P (g i (entry a i)).2)
    (hout : ∀ i < n, m ≤ i → P (entry a i).1 ∧ P (entry a i).2) :
    Entries P n (BenchFFT.forRange m (fun i a => Mp.setEntry a i (g i (entry a i))) a) := by
  intro q hq
  rw [entry_forRange_setEntry]
  split_ifs with h
  · exact hin q hq h
  · exact hout q hq (not_lt.mp h)

theorem wrap {nb : ℕ} {w : ℕ → N} (hnb : 2 * n ≤ nb) (hw : Entries P n w) (h0 : P 0) (y : ℕ → N) :
    Entries P nb (wrap n nb w y) := by
  intro q hq
  rw [entry_wrap hnb w y hq]
  split_ifs with h1 h2
  · exact hw q h1
  · exact hw _ h2
  · exact ⟨h0, h0⟩

end Entries

/-! ### Complex products -/

section Complex

variable {r0 i0 r1 i1 : N}

theorem cmul_canonical (hr0 : Factor r0) (hi0 : Factor i0) (hr1 : Factor r1) (hi1 : Factor i1) :
    (cmul r0 i0 r1 i1).1.Canonical ∧ (cmul r0 i0 r1 i1).2.Canonical :=
  ⟨(mul_canonical hr0 hr1).sub (mul_canonical hi0 hi1),
    (mul_canonical hr0 hi1).add (mul_canonical hi0 hr1)⟩

theorem cmulj_canonical (hr0 : Factor r0) (hi0 : Factor i0) (hr1 : Factor r1) (hi1 : Factor i1) :
    (cmulj r0 i0 r1 i1).1.Canonical ∧ (cmulj r0 i0 r1 i1).2.Canonical :=
  ⟨(mul_canonical hr0 hr1).add (mul_canonical hi0 hi1),
    (mul_canonical hr0 hi1).sub (mul_canonical hi0 hr1)⟩

theorem bitsLoop_canonical {op : N → N → N → N → N × N} {w : ℕ → N × N} {m : ℕ} (k : ℕ)
    (hop : ∀ k (z : N × N), Factor z.1 → Factor z.2 → (op (w k).1 (w k).2 z.1 z.2).1.Canonical ∧
      (op (w k).1 (w k).2 z.1 z.2).2.Canonical) {z : N × N} (hre : Factor z.1) (him : Factor z.2)
    (hm : m ≠ 0) :
    (bitsLoop op w k m z).1.Canonical ∧ (bitsLoop op w k m z).2.Canonical := by
  induction m using Nat.strong_induction_on generalizing k z with
  | _ m ih =>
    have hshift : m >>> 1 = m / 2 := by rw [Nat.shiftRight_eq_div_pow, pow_one]
    rw [bitsLoop, if_neg hm, hshift]
    by_cases hbit : m &&& 1 ≠ 0
    · rw [if_pos hbit]
      have hz := hop k z hre him
      -- the last factor is the number handed on
      by_cases hlast : m / 2 = 0
      · rw [hlast, bitsLoop, if_pos rfl]
        exact hz
      · exact ih (m / 2) (by omega) (k + 1) hz.1.factor hz.2.factor hlast
    · rw [if_neg hbit]
      apply ih (m / 2) (by omega) (k + 1) hre him
      rw [not_not, Nat.and_one_is_mod] at hbit
      omega

/-- Whatever all canonical numbers have, and what has it has a sign. -/
theorem Entries.butterfly {P : N → Prop} (hcanonical : ∀ a, a.Canonical → P a)
    (hsign : ∀ a, P a → IsSign a.sign) {wr wi : N} (hre : Factor wr) (him : Factor wi) {n : ℕ}
    {a : ℕ → N} (ha : Entries P n a) {i k : ℕ} (hki : k + i < n) :
    Entries P n (butterfly wr wi i k a) := by
  have h0 := ha k (by omega)
  have h1 := ha (k + i) hki
  rw [entry, Nat.mul_add] at h1
  have hr0 := hsign _ h0.1
  have hi0 := hsign _ h0.2
  have hr1 : Factor (a (2 * k + 2 * i)) := Or.inl (hsign _ h1.1)
  have hi1 : Factor (a (2 * k + 2 * i + 1)) := Or.inl (hsign _ h1.2)
  have hxr := (mul_canonical hr1 hre).sub (mul_canonical hi1 him)
  have hxi := (mul_canonical hr1 him).add (mul_canonical hi1 hre)
  refine (ha.setEntry k ⟨hcanonical _ (add_canonical hr0 hxr.isSign),
    hcanonical _ (add_canonical hi0 hxi.isSign)⟩).setEntry (k + i) ⟨?_, ?_⟩
  · exact hcanonical _ (sub_canonical hr0 hxr.isSign)
  · exact hcanonical _ (sub_canonical hi0 hxi.isSign)

end Complex

/-- The length of the convolution. -/
theorem pow2Atleast_two_mul (n : ℕ) :
    ∃ t, pow2Atleast (2 * n) = 2 ^ t ∧ 2 * n ≤ 2 ^ t ∧ (n ≤ 2 ^ 28 → t ≤ 30) := by
  rcases Nat.eq_zero_or_pos n with rfl | h0
  · refine ⟨0, ?_, by omega, fun _ => by omega⟩
    rw [pow2Atleast, pow2AtleastFrom, if_neg (by omega), pow_zero]
  · obtain ⟨t, heq, hle, hge⟩ := pow2Atleast_spec (show 0 < 2 * n by omega)
    refine ⟨t, heq, hle, fun hn => ?_⟩
    have hpow : 2 ^ t ≤ 2 ^ 30 := by omega
    exact (Nat.pow_le_pow_iff_right Nat.one_lt_two).mp hpow

/-! ### `cexp_builtin` -/

/-- What the static variables hold between the calls: the tables of `bluestein` are as long as
`cached_bluestein_n` says. -/
structure Kept (st : Statics N) : Prop where
  w : ∀ k, Factor (st.w k).1 ∧ Factor (st.w k).2
  bluesteinW : ∀ (n : ℕ) c, st.cachedBluesteinN = n → st.cachedBluesteinW = .live c →
    Entries (fun a => IsSign a.sign) n c
  bluesteinY : ∀ (n : ℕ) c, st.cachedBluesteinN = n → st.cachedBluesteinY = .live c →
    Entries (fun a => IsSign a.sign) (pow2Atleast (2 * n)) c

theorem factor_blank : Factor blank := Or.inr (by decide)

theorem kept_initial (fresh : ℕ → ℕ → N) : Kept (initialStatics blank fresh) where
  w _ := ⟨factor_blank, factor_blank⟩
  bluesteinW _ _ _ h := by cases h
  bluesteinY _ _ _ h := by cases h

theorem benchMalloc_triple {E : Stop → Prop} :
    Triple E Kept (benchMalloc : Prog N (ℕ → N)) fun _ => True :=
  fun _ hst => ⟨⟨hst.w, hst.bluesteinW, hst.bluesteinY⟩, trivial⟩

theorem ofOption_triple {α : Type} {E : Stop → Prop} {I : Statics N → Prop} {o : Option α}
    {Q : α → Prop} (hnone : o = none → E .diverges) (hsome : ∀ a, o = some a → Q a) :
    Triple E I (ofOption o) Q := by
  cases o with
  | none => exact Triple.throw (hnone rfl)
  | some a => exact Triple.pure (hsome a rfl)

/-- Of the results of `cexp_builtin(m, n)`. -/
structure Power (m : ℤ) (z : N × N) : Prop where
  sign : IsSign z.1.sign ∧ IsSign z.2.sign
  canonical : m ≠ 0 → z.1.Canonical ∧ z.2.Canonical
  zero : m = 0 → z = (fromshort 1, fromshort 0)

theorem freeIfSet_triple (b : Block N) :
    Triple (fun _ => True) Kept (freeIfSet b) fun _ => True := by
  cases b with
  | null => exact Triple.pure trivial
  | live c => exact Triple.pure trivial
  | released => exact Triple.throw trivial

theorem cells_triple {b : Block N} {Q : (ℕ → N) → Prop} (h : ∀ c, b = .live c → Q c) :
    Triple (fun _ => True) Kept b.cells Q := by
  cases b with
  | null => exact Triple.throw trivial
  | live c => exact Triple.pure (h c rfl)
  | released => exact Triple.throw trivial

theorem fftaccuracyDone_triple :
    Triple (fun _ => True) Kept fftaccuracyDone fun _ => True := by
  refine Triple.get.bind fun st hst => (freeIfSet_triple _).bind fun _ _ =>
    (freeIfSet_triple _).bind fun _ _ => fun _ _ => ⟨⟨hst.w, ?_, ?_⟩, trivial⟩
  · intro n c hn hc
    cases h : st.cachedBluesteinW <;> simp [h, Block.free] at hc
  · intro n c hn hc
    cases h : st.cachedBluesteinY <;> simp [h, Block.free] at hc

section Runs

variable {rnd : ℚ → ℚ} (hrnd : Rounds rnd) (sqrt : Real' → Real')

include hrnd

/-- The entries that are filled are canonical. -/
theorem fill_triple {n : ℤ} (hn : n < 2 ^ 53) {j : ℕ} (hj : 0 < j) (hjn : j < n.toNat) (k : ℕ) :
    Triple (fun _ => False) Kept (do
      let c ← ofOption (cos2pi rnd ((j : ℤ) : ℚ) (n : ℚ))
      let s ← ofOption (sin2pi rnd ((j : ℤ) : ℚ) (n : ℚ))
      modify fun st => { st with w := Function.update st.w k (c, s) }
      pure (k + 1) : Prog N ℕ) fun _ => True := by
  have hn' : IsDouble n := isDouble_intCast (by rw [abs_of_pos (by omega)]; exact hn)
  have hj0 : (0 : ℚ) ≤ (j : ℤ) := by exact_mod_cast hj.le
  have hjn' : ((j : ℤ) : ℚ) < n := by exact_mod_cast (by omega : (j : ℤ) < n)
  obtain ⟨c, hcos, hc⟩ := cos2pi_canonical hrnd hn' (grid_intCast j) hj0 hjn'
  obtain ⟨s, hsin, hs⟩ := sin2pi_canonical hrnd hn' (grid_intCast j) hj0 hjn'
  rw [hcos, hsin]
  apply Triple.bind (Triple.pure (Q := (c = ·)) rfl)
  rintro _ rfl
  apply Triple.bind (Triple.pure (Q := (s = ·)) rfl)
  rintro _ rfl
  refine (Triple.modify fun st hst => ⟨fun i => ?_, hst.bluesteinW, hst.bluesteinY⟩).bind
    fun _ _ => Triple.pure trivial
  by_cases hi : i = k
  · rw [hi]
    show Factor (Function.update st.w k (c, s) k).1 ∧ Factor (Function.update st.w k (c, s) k).2
    rw [Function.update_self]
    exact ⟨hc.factor, hs.factor⟩
  · show Factor (Function.update st.w k (c, s) i).1 ∧ Factor (Function.update st.w k (c, s) i).2
    rw [Function.update_of_ne hi]
    exact hst.w i

omit hrnd in
/-- The loop over the bits of `m`. -/
theorem bitsLoop_power {w : ℕ → N × N} (hw : ∀ k, Factor (w k).1 ∧ Factor (w k).2) (m : ℤ) :
    Triple (fun _ => False) Kept (if 0 < m then
        pure (bitsLoop cmul w 0 m.toNat (fromshort 1, fromshort 0))
      else pure (bitsLoop cmulj w 0 (-m).toNat (fromshort 1, fromshort 0)) : Prog N (N × N))
      (Power m) := by
  have hone : Factor (fromshort 1) := Or.inl (Or.inl rfl)
  have hzero : Factor (fromshort 0) := Or.inl (Or.inl rfl)
  refine Triple.ite (fun hm => Triple.pure ?_) fun hm => Triple.pure ?_
  · have h := bitsLoop_canonical 0 (fun k z hre him =>
      cmul_canonical (hw k).1 (hw k).2 hre him) (z := (fromshort 1, fromshort 0)) hone hzero
      (show m.toNat ≠ 0 by omega)
    exact ⟨⟨h.1.isSign, h.2.isSign⟩, fun _ => h, fun h0 => absurd h0 hm.ne'⟩
  · by_cases h0 : m = 0
    · rw [h0, neg_zero, Int.toNat_zero, bitsLoop, if_pos rfl]
      exact ⟨⟨Or.inl rfl, Or.inl rfl⟩, fun h => absurd rfl h, fun _ => rfl⟩
    · have h := bitsLoop_canonical 0 (fun k z hre him =>
        cmulj_canonical (hw k).1 (hw k).2 hre him) (z := (fromshort 1, fromshort 0)) hone hzero
        (show (-m).toNat ≠ 0 by omega)
      exact ⟨⟨h.1.isSign, h.2.isSign⟩, fun _ => h, fun h => absurd h h0⟩

/-- It always returns. -/
theorem cexpBuiltin_triple {m n : ℤ} (hn : n < 2 ^ 53) :
    Triple (fun _ => False) Kept ((mpArith rnd sqrt).cexpBuiltin m n) (Power m) := by
  -- with or without a new table
  have hread : Triple (fun _ => False) Kept (get >>= fun st => (if 0 < m then
        pure (bitsLoop cmul st.w 0 m.toNat (fromshort 1, fromshort 0))
      else pure (bitsLoop cmulj st.w 0 (-m).toNat (fromshort 1, fromshort 0)) : Prog N (N × N)))
      (Power m) := Triple.get.bind fun st hst => bitsLoop_power hst.w m
  refine Triple.get.bind fun st hst => Triple.ite (fun _ => ?_) fun _ => hread
  exact (Triple.forDoubleM trivial fun j hj hjn k _ => fill_triple hrnd hn hj hjn k).bind
    fun _ _ => (Triple.modify fun st hst => ⟨hst.w, hst.bluesteinW, hst.bluesteinY⟩).bind
      fun _ _ => hread

/-! ### The transforms -/

/-- Whatever the sums of canonical numbers have, and has a sign, `fft0` keeps. -/
theorem fft0_triple {P : N → Prop} (hcanonical : ∀ a, a.Canonical → P a)
    (hsign : ∀ a, P a → IsSign a.sign) {t : ℕ} (ht : t ≤ 30) {a : ℕ → N} (ha : Entries P (2 ^ t) a)
    (sign : ℤ) :
    Triple (fun _ => True) Kept (fft0 (mpArith rnd sqrt).cexpBuiltin (2 ^ t) a sign)
      (Entries P (2 ^ t)) := by
  refine (ofOption_triple (fun _ => trivial) fun b hb => ha.bitrev hb).bind fun b hb => ?_
  rw [forDoubleM_one_two_pow]
  refine Triple.forRangeM (P := fun _ => Entries P (2 ^ t)) hb fun s hs b hb => ?_
  refine Triple.forRangeM (P := fun _ => Entries P (2 ^ t)) hb fun j hj b hb => ?_
  have hsmall : 2 * 2 ^ s ≤ 2 ^ 30 := by
    rw [← Nat.pow_succ']
    exact Nat.pow_le_pow_right Nat.two_pos (by omega)
  have hint : (2 * (2 ^ s : ℕ) : ℤ) < 2 ^ 53 := by exact_mod_cast hsmall.trans_lt (by norm_num)
  refine (cexpBuiltin_triple hrnd sqrt hint).of_total.bind fun z hz => Triple.pure ?_
  -- the butterflies lie in whole blocks of `2 * 2 ^ s` entries
  have hwhole : 2 ^ t = 2 ^ (t - (s + 1)) * (2 * 2 ^ s) := by
    rw [← Nat.pow_succ', ← Nat.pow_add, Nat.sub_add_cancel hs]
  have hlt : ∀ r < 2 ^ (t - (s + 1)), j + r * (2 * 2 ^ s) + 2 ^ s < 2 ^ t := by
    intro r hr
    rw [hwhole, show j + r * (2 * 2 ^ s) + 2 ^ s = r * (2 * 2 ^ s) + (j + 2 ^ s) by omega]
    exact row_lt (Nat.mul_le_mul_right _ hr) (by omega)
  rw [forStep_eq (by positivity) (2 ^ (t - (s + 1))) j _ (fun r hr => by have := hlt r hr; omega)
    (by omega)]
  exact forRange_induction (fun _ => Entries P (2 ^ t)) hb fun r hr b hb =>
    hb.butterfly hcanonical hsign (Or.inl hz.sign.1) (Or.inl hz.sign.2) (hlt r hr)

/-- Entry `0` ends up as `(1, fromshort(0))`. -/
theorem bluesteinSequence_triple {n : ℕ} (hn : n ≤ 2 ^ 29) (a : ℕ → N) :
    Triple (fun _ => False) Kept (bluesteinSequence (mpArith rnd sqrt).cexpBuiltin n a)
      fun w => Entries (fun a => IsSign a.sign) n w ∧ (0 < n → w 1 = fromshort 0) := by
  -- before step `i`: `ksq` starts from `1`, and cell `1` is written by step `0` only
  obtain ⟨P, hP⟩ : ∃ P : ℕ → ℕ × (ℕ → N) → Prop, ∀ i s, P i s ↔
      Entries (fun a => IsSign a.sign) i s.2 ∧ (i = 0 → s.1 = 1) ∧ (0 < i → s.2 1 = fromshort 0) :=
    ⟨_, fun _ _ => Iff.rfl⟩
  have hstep : ∀ i < n, ∀ s, P i s →
      Triple (fun _ => False) Kept (sequenceStep (mpArith rnd sqrt).cexpBuiltin (2 * n) i s)
        (P (i + 1)) := by
    intro i hi s hs
    obtain ⟨hsign, hksq, hone⟩ := (hP i s).mp hs
    obtain ⟨e, he, -, -⟩ := reduce_eq (show 0 < 2 * n by omega) (s.1 + 2 * i - 1)
    -- `ksq` is `1 + 2 * 0 - 1` at first
    have he0 : i = 0 → e = 0 := by
      rintro rfl
      rw [hksq rfl, reduce, if_neg (by omega)] at he
      exact (Option.some.inj he).symm
    refine (ofOption_triple (fun h => absurd (he.symm.trans h) (by simp))
      fun e' he' => Option.some.inj (he.symm.trans he')).bind ?_
    rintro _ rfl
    refine (cexpBuiltin_triple hrnd sqrt (by push_cast; omega)).bind fun z hz => Triple.pure ?_
    refine (hP _ _).mpr ⟨fun k hk => ?_, by omega, fun _ => ?_⟩
    · rw [entry_setEntry]
      split_ifs with h
      · exact hz.sign
      · exact hsign k (by omega)
    · rcases Nat.eq_zero_or_pos i with rfl | hi
      · have hzero := hz.zero (by exact_mod_cast he0 rfl)
        show setEntry s.2 0 z 1 = fromshort 0
        rw [setEntry, hzero]
        rfl
      · show setEntry s.2 i z 1 = fromshort 0
        rw [setEntry, Function.update_of_ne (by omega), Function.update_of_ne (by omega)]
        exact hone hi
  have hloop := Triple.forRangeM (I := Kept) (E := fun _ => False) (n := n) (a := (1, a))
    ((hP 0 _).mpr ⟨fun k hk => absurd hk k.not_lt_zero, fun _ => rfl, fun h => absurd h (by omega)⟩)
    hstep
  refine hloop.bind fun s hs => Triple.pure ?_
  obtain ⟨hsign, -, hone⟩ := (hP n s).mp hs
  exact ⟨hsign, hone⟩

theorem bluesteinTables_triple {n : ℕ} (hn : n ≤ 2 ^ 28) :
    Triple (fun _ => True) Kept
      (bluesteinTables (mpArith rnd sqrt).cexpBuiltin n (pow2Atleast (2 * n)))
      fun t => Entries (fun a => IsSign a.sign) n t.1 ∧
        Entries (fun a => IsSign a.sign) (pow2Atleast (2 * n)) t.2 := by
  obtain ⟨t, ht, hle, hexp⟩ := pow2Atleast_two_mul n
  refine Triple.get.bind fun st hst => Triple.ite (fun _ => ?_) fun hN => ?_
  · refine (freeIfSet_triple _).bind fun _ _ => (freeIfSet_triple _).bind fun _ _ => ?_
    refine benchMalloc_triple.bind fun w₀ _ => benchMalloc_triple.bind fun y₀ _ => ?_
    refine (bluesteinSequence_triple hrnd sqrt (by omega) w₀).of_total.bind fun w hw => ?_
    rw [ht]
    have hwrap := hw.1.wrap hle (Or.inl rfl) y₀
    refine (fft0_triple hrnd sqrt (fun a ha => ha.isSign) (fun _ h => h) (hexp hn) hwrap
      (-1)).bind fun y hy => ?_
    refine (Triple.modify fun st hst => ⟨hst.w, ?_, ?_⟩).bind fun _ _ => Triple.pure ⟨hw.1, hy⟩
    · rintro m c hm hc
      obtain rfl := Nat.cast_injective hm
      obtain rfl := Block.live.inj hc
      exact hw.1
    · rintro m c hm hc
      obtain rfl := Nat.cast_injective hm
      obtain rfl := Block.live.inj hc
      rw [ht]
      exact hy
  · rw [ne_eq, not_not] at hN
    refine (cells_triple fun c hc => hst.bluesteinW n c hN hc).bind fun w hw => ?_
    exact (cells_triple fun c hc => hst.bluesteinY n c hN hc).bind fun y hy => Triple.pure ⟨hw, hy⟩

theorem bluestein_triple {n : ℕ} (hn : n ≤ 2 ^ 28) {a : ℕ → N} (ha : Entries N.Canonical n a) :
    Triple (fun _ => True) Kept (bluestein (mpArith rnd sqrt) n a) (Entries N.Canonical n) := by
  obtain ⟨t, ht, hle, hexp⟩ := pow2Atleast_two_mul n
  have htables := bluesteinTables_triple hrnd sqrt hn
  unfold bluestein
  rw [ht] at htables ⊢
  have hnb0 : ((2 ^ t : ℕ) : ℚ) ≠ 0 := by positivity
  refine benchMalloc_triple.bind fun b₀ _ => ?_
  refine (ofOption_triple (Q := N.Canonical) (fun _ => trivial) fun nbinv h => ?_).bind
    fun nbinv hnbinv => ?_
  · apply fromreal_canonical (x := ((1 : ℤ) : ℚ) / (((2 ^ t : ℕ) : ℤ) : ℚ))
    rw [← h]
    apply congrArg fromreal
    exact ((ExtNum.fin_div_fin _ _).trans (if_neg (by exact_mod_cast hnb0))).symm
  refine htables.bind ?_
  rintro ⟨w, y⟩ ⟨hw, hy⟩
  refine (Triple.modify fun st hst => ⟨hst.w, hst.bluesteinW, hst.bluesteinY⟩).bind fun _ _ => ?_
  have hfactor : ∀ {m : ℕ} {c : ℕ → N}, Entries (fun a => IsSign a.sign) m c → ∀ k < m,
      Factor (c (2 * k)) ∧ Factor (c (2 * k + 1)) := fun h k hk =>
    ⟨Or.inl (h k hk).1, Or.inl (h k hk).2⟩
  -- the input times the chirp, and zeros
  have hb : Entries N.Canonical (2 ^ t) (chirped n (2 ^ t) w a b₀) := by
    refine Entries.forRange (g := fun i _ => cmulj (w (2 * i)) (w (2 * i + 1)) (a (2 * i))
      (a (2 * i + 1))) (fun i _ hi => ?_) fun i hi _ => ?_
    · exact cmulj_canonical (hfactor hw i hi).1 (hfactor hw i hi).2 (ha i hi).1.factor
        (ha i hi).2.factor
    · rw [entry_clear _ _ hi]
      exact ⟨Or.inl rfl, Or.inl rfl⟩
  refine (fft0_triple hrnd sqrt (fun _ h => h) (fun _ h => h.isSign) (hexp hn) hb (-1)).bind
    fun b hb => ?_
  -- the products with the second table, which need not be canonical
  have hb : Entries N.Canonical (2 ^ t) (products (2 ^ t) b y) := by
    refine Entries.forRange (g := fun i z => cmul z.1 z.2 (y (2 * i)) (y (2 * i + 1)))
      (fun i hi _ => ?_) fun i hi hle => absurd hi (not_lt.mpr hle)
    exact cmul_canonical (hb i hi).1.factor (hb i hi).2.factor (hfactor hy i hi).1
      (hfactor hy i hi).2
  refine (fft0_triple hrnd sqrt (fun _ h => h) (fun _ h => h.isSign) (hexp hn) hb 1).bind
    fun b hb => Triple.pure ?_
  refine Entries.forRange (g := fun i _ =>
    let z := cmulj (w (2 * i)) (w (2 * i + 1)) (b (2 * i)) (b (2 * i + 1))
    (nbinv * z.1, nbinv * z.2)) (fun i hi _ => ?_) fun i hi hle => absurd hi (not_lt.mpr hle)
  have hbi := hb i (by omega)
  have hz := cmulj_canonical (hfactor hw i hi).1 (hfactor hw i hi).2 hbi.1.factor hbi.2.factor
  exact ⟨hnbinv.mul hz.1, hnbinv.mul hz.2⟩

end Runs

/-! ### Calls -/

/-- The numbers are canonical, and the other arguments are in the ranges of the callers: those of
`fromshort` are digits, angles are less than a turn, the sizes of `fft0` are powers of two, and the
sizes are such that no `int` overflows (`j += j` in `cexp_builtin`, `ksq + 2 * k` in
`bluestein_sequence`, `k += 2 * i` in `fft0`, `2 * nb` in `bluestein`). -/
def Call.Admissible : Call → Prop
  | .fromshort x => |x| < 65536
  | .pack _ _ s _ => IsSign s
  | .add a b => a.Canonical ∧ b.Canonical
  | .sub a b => a.Canonical ∧ b.Canonical
  | .mul a b => a.Canonical ∧ b.Canonical
  | .inv a => a.Canonical
  | .msin a => a.Canonical
  | .mcos a => a.Canonical
  | .cos2pi m n => IsDouble m ∧ IsDouble n ∧ 0 ≤ m ∧ m < n
  | .sin2pi m n => IsDouble m ∧ IsDouble n ∧ 0 ≤ m ∧ m < n
  | .cexpBuiltin m n => |m| < 2 ^ 31 ∧ n ≤ 2 ^ 30
  | .bluesteinSequence n => n ≤ 2 ^ 29
  | .fft0 n a sign => (∃ t ≤ 30, n = 2 ^ t) ∧ |sign| = 1 ∧ ∀ k, (a k).Canonical
  | .bluestein n a => n ≤ 2 ^ 28 ∧ ∀ k, (a k).Canonical
  | _ => True

theorem cells_canonical {n : ℕ} {a : Fin (2 * n) → N} (ha : ∀ k, (a k).Canonical) :
    Entries N.Canonical n (cells a) := by
  have hcell : ∀ k, (cells a k).Canonical := by
    intro k
    unfold cells
    split_ifs with h
    · exact ha ⟨k, h⟩
    · exact Or.inl rfl
  exact fun k _ => ⟨hcell _, hcell _⟩

theorem numbers_canonical {n : ℕ} {a : ℕ → N} (ha : Entries N.Canonical n a) :
    ∀ b ∈ numbers n a, b.Canonical := by
  intro b hb
  obtain ⟨k, hk, rfl⟩ := List.mem_map.mp hb
  have hk' := List.mem_range.mp hk
  obtain ⟨j, rfl | rfl⟩ := Nat.even_or_odd' k
  · exact (ha j (by omega)).1
  · exact (ha j (by omega)).2

section Runs

variable {rnd : ℚ → ℚ} (hrnd : Rounds rnd) (sqrt : Real' → Real')

include hrnd

theorem Call.triple {c : Call} (hc : c.Admissible) :
    Triple (fun _ => True) Kept (c.run rnd sqrt) fun as =>
      c.handsOnShortZero = false → ∀ a ∈ as, a.Canonical := by
  have hpure : ∀ {a : N}, (c.handsOnShortZero = false → a.Canonical) →
      Triple (fun _ => True) Kept (pure [a] : Prog N (List N)) fun as =>
        c.handsOnShortZero = false → ∀ a ∈ as, a.Canonical :=
    fun h => Triple.pure fun hc => List.forall_mem_singleton.mpr (h hc)
  have hsingle : ∀ {o : Option N}, (∀ a, o = some a → a.Canonical) →
      Triple (fun _ => True) Kept (do return [← ofOption o] : Prog N (List N)) fun as =>
        c.handsOnShortZero = false → ∀ a ∈ as, a.Canonical :=
    fun h => (ofOption_triple (fun _ => trivial) h).bind fun _ ha =>
      Triple.pure fun _ => List.forall_mem_singleton.mpr ha
  cases c with
  | fromreal x => exact hsingle fun _ h => fromreal_canonical h
  | fromshort x => exact hpure fun h => (fromshort_canonical_iff hc).mpr (of_decide_eq_false h)
  | pack d e s l => exact hpure fun _ => pack_canonical hc e
  | add a b => exact hpure fun _ => hc.1.add hc.2
  | sub a b => exact hpure fun _ => hc.1.sub hc.2
  | mul a b => exact hpure fun _ => hc.1.mul hc.2
  | inv a => exact hsingle fun _ h => inv_canonical hc h
  | msin a => exact hpure fun _ => msin_canonical hc
  | mcos a => exact hpure fun _ => mcos_canonical hc
  | by2pi m n => exact hsingle fun _ h => by2pi_canonical h
  | cos2pi m n =>
    obtain ⟨a, hrun, ha⟩ := cos2pi_canonical hrnd hc.2.1 hc.1.grid hc.2.2.1 hc.2.2.2
    exact hsingle fun _ h => Option.some.inj (hrun.symm.trans h) ▸ ha
  | sin2pi m n =>
    obtain ⟨a, hrun, ha⟩ := sin2pi_canonical hrnd hc.2.1 hc.1.grid hc.2.2.1 hc.2.2.2
    exact hsingle fun _ h => Option.some.inj (hrun.symm.trans h) ▸ ha
  | cexpBuiltin m n =>
    refine (cexpBuiltin_triple hrnd sqrt (lt_of_le_of_lt hc.2 (by norm_num))).of_total.bind
      fun z hz => Triple.pure fun h => ?_
    obtain ⟨hr, hi⟩ := hz.canonical (of_decide_eq_false h)
    exact List.forall_mem_cons.mpr ⟨hr, List.forall_mem_singleton.mpr hi⟩
  | bluesteinSequence n =>
    refine benchMalloc_triple.bind fun w _ => ?_
    refine (bluesteinSequence_triple hrnd sqrt hc w).of_total.bind fun w _ =>
      Triple.pure fun h => ?_
    obtain rfl : n = 0 := Nat.eq_zero_of_not_pos (of_decide_eq_false h)
    exact List.forall_mem_nil _
  | fft0 n a sign =>
    obtain ⟨⟨t, ht, rfl⟩, -, ha⟩ := hc
    exact (fft0_triple hrnd sqrt (fun _ h => h) (fun _ h => h.isSign) ht (cells_canonical ha)
      sign).bind fun b hb => Triple.pure fun _ => numbers_canonical hb
  | bluestein n a =>
    exact (bluestein_triple hrnd sqrt hc.1 (cells_canonical hc.2)).bind fun b hb =>
      Triple.pure fun _ => numbers_canonical hb
  | fftaccuracyDone =>
    exact fftaccuracyDone_triple.bind fun _ _ => Triple.pure fun _ => List.forall_mem_nil _

/-- They do return. -/
theorem Call.shortZero_triple {c : Call} (hc : c.Admissible) (hzero : c.handsOnShortZero) :
    Triple (fun _ => False) Kept (c.run rnd sqrt) fun as => N.fromshort 0 ∈ as := by
  cases c with
  | fromshort x =>
    obtain rfl : x = 0 := of_decide_eq_true hzero
    exact Triple.pure List.mem_cons_self
  | cexpBuiltin m n =>
    refine (cexpBuiltin_triple hrnd sqrt (lt_of_le_of_lt hc.2 (by norm_num))).bind fun z hz =>
      Triple.pure ?_
    rw [hz.zero (of_decide_eq_true hzero)]
    exact List.mem_cons_of_mem _ List.mem_cons_self
  | bluesteinSequence n =>
    have hn : 0 < n := of_decide_eq_true hzero
    refine benchMalloc_triple.bind fun w _ => ?_
    refine (bluesteinSequence_triple hrnd sqrt hc w).bind fun w hw => Triple.pure ?_
    exact List.mem_map.mpr ⟨1, List.mem_range.mpr (by omega), hw.2 hn⟩
  | _ => cases hzero

theorem afterCalls_kept {fresh : ℕ → ℕ → N} {calls : List Call}
    (hcalls : ∀ c ∈ calls, c.Admissible) {st : Statics N}
    (hst : afterCalls rnd sqrt fresh calls = .ok st) : Kept st := by
  have hrun : Triple (fun _ => True) Kept (calls.forM fun c => do let _ ← c.run rnd sqrt)
      fun _ => True :=
    Triple.forM fun c hc => (Call.triple hrnd sqrt (hcalls c hc)).bind fun _ _ =>
      Triple.pure trivial
  unfold afterCalls at hst
  cases h : (calls.forM fun c => do let _ ← c.run rnd sqrt) (initialStatics blank fresh) with
  | ok r =>
    rw [h] at hst
    obtain rfl := Except.ok.inj hst
    exact (hrun.of_ok (kept_initial fresh) h).1
  | error e =>
    rw [h] at hst
    cases hst

/-- After any sequence of calls, whatever the heap holds, what a call hands on is canonical unless
it is `fromshort(0)`. -/
theorem canonical_iff {fresh : ℕ → ℕ → N} {calls : List Call} (hcalls : ∀ c ∈ calls, c.Admissible)
    {st : Statics N} (hst : afterCalls rnd sqrt fresh calls = .ok st) {c : Call}
    (hc : c.Admissible) :
    (∀ as st', c.run rnd sqrt st = .ok (as, st') → ∀ a ∈ as, a.Canonical) ↔
      c.handsOnShortZero = false := by
  have hkept := afterCalls_kept hrnd sqrt hcalls hst
  constructor
  · intro h
    by_contra hzero
    obtain ⟨as, st', hrun, -, hmem⟩ :=
      (Call.shortZero_triple hrnd sqrt hc (Bool.eq_true_of_not_eq_false hzero)).exists_ok hkept
    exact (fromshort_canonical_iff (x := 0) (by decide)).mp (h as st' hrun _ hmem) rfl
  · intro hzero as st' hrun
    exact ((Call.triple hrnd sqrt hc).of_ok hkept hrun).2 hzero

end Runs

/-- `cexp_builtin(0, 6)` after `cexp_builtin(5, 6)`. -/
theorem canonical_iff_cexp_0_6 :
    let rnd := RoundEven.roundTo bitsInReal
    let fresh : ℕ → ℕ → N := fun _ _ => blank
    ∃ st, afterCalls rnd id fresh [.cexpBuiltin 5 6] = .ok st ∧
      ((∀ as st', (Call.cexpBuiltin 0 6).run rnd id st = .ok (as, st') → ∀ a ∈ as, a.Canonical) ↔
        (Call.cexpBuiltin 0 6).handsOnShortZero = false) := by
  intro rnd fresh
  have hadmissible : ∀ c ∈ [Call.cexpBuiltin 5 6], c.Admissible :=
    List.forall_mem_singleton.mpr (by decide : |(5 : ℤ)| < 2 ^ 31 ∧ (6 : ℤ) ≤ 2 ^ 30)
  have htriple : Triple (fun _ => False) Kept ([Call.cexpBuiltin 5 6].forM fun c => do
      let _ ← c.run rnd id) fun _ => True :=
    Triple.forM <| List.forall_mem_singleton.mpr <|
      ((cexpBuiltin_triple rounds_roundTo id (by decide)).bind (R := fun _ => True) fun _ _ =>
        Triple.pure trivial).bind fun _ _ => Triple.pure trivial
  obtain ⟨_, st, hrun, -⟩ := htriple.exists_ok (kept_initial fresh)
  have hst : afterCalls rnd id fresh [.cexpBuiltin 5 6] = .ok st := by
    rw [afterCalls, hrun]
    rfl
  exact ⟨st, hst, canonical_iff rounds_roundTo id hadmissible hst
    (by decide : |(0 : ℤ)| < 2 ^ 31 ∧ (6 : ℤ) ≤ 2 ^ 30)⟩

/-- A number below the digits of `fromshort(0)`, which has the exponent `1`. -/
def tiny : N := ofDigits 1 (-9) [0, 0, 0, 0, 0, 0, 0, 0, 0, 1]

/-- A sum with `fromshort(0)` may lose every digit. -/
theorem not_canonical_fromshort_0 :
    ¬(fromshort 0).Canonical ∧ tiny.Canonical ∧ tiny ≠ 0 ∧ tiny + fromshort 0 = 0 := by
  refine ⟨fun h => (fromshort_canonical_iff (by decide)).mp h rfl, Or.inr ⟨by decide, Or.inl rfl⟩,
    by decide, by decide +kernel⟩

end BenchFFT.Mp
