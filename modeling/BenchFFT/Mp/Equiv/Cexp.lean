import BenchFFT.Mp.Equiv.Cache

/-!
# The static table of `cexp_builtin`

`cexp_builtin` runs here on numbers that carry the arguments of the calls of `cos2pi` and `sin2pi`
that they were computed from (`Traced`).  Whatever the table holds at the start, after any sequence
of calls the result of one for `n` depends only on calls for this `n`, and is `exp(2*pi*i*m/n)`
(`cexpBuiltin_calls`).

* The fill loop leaves `w[k]` for `2^k` and `n` in every entry with `2^k < n` (`fill_run`); no other
  entry is written.
* The bits of `m` select entries that are filled, as `2^k = n` is excluded for the sizes in
  question, also where `m = n` (`bitsLoop_faithful`).
-/

namespace BenchFFT.Mp

/-! ### Traced numbers -/

/-- An exact number, and the arguments `(m, n)` of the calls of `cos2pi` and `sin2pi` that it was
computed from. -/
structure Traced where
  val : ℝ
  sources : Set (ℤ × ℤ)

namespace Traced

noncomputable instance : Add Traced := ⟨fun x y => ⟨x.val + y.val, x.sources ∪ y.sources⟩⟩
noncomputable instance : Sub Traced := ⟨fun x y => ⟨x.val - y.val, x.sources ∪ y.sources⟩⟩
noncomputable instance : Mul Traced := ⟨fun x y => ⟨x.val * y.val, x.sources ∪ y.sources⟩⟩

noncomputable def fromshort (x : ℤ) : Traced := ⟨x, ∅⟩

noncomputable def cos2pi (m n : ℤ) : Option Traced := some ⟨(exactCexp m n).1, {(m, n)}⟩

noncomputable def sin2pi (m n : ℤ) : Option Traced := some ⟨(exactCexp m n).2, {(m, n)}⟩

end Traced

/-- `cexp_builtin` with exact sines and cosines. -/
noncomputable def tracedCexp (m n : ℤ) : Prog Traced (Traced × Traced) :=
  cexpBuiltin (R := ℤ) Traced.fromshort Traced.cos2pi Traced.sin2pi m n

/-- `z` is `c`, and was computed from the calls in `S` only. -/
structure Computes (S : Set (ℤ × ℤ)) (c : ℂ) (z : Traced × Traced) : Prop where
  val : toComplex (z.1.val, z.2.val) = c
  re : z.1.sources ⊆ S
  im : z.2.sources ⊆ S

section Computes

variable {S : Set (ℤ × ℤ)} {c d : ℂ} {x y : Traced × Traced}

theorem Computes.cmul (hx : Computes S c x) (hy : Computes S d y) :
    Computes S (c * d) (cmul x.1 x.2 y.1 y.2) where
  val := by
    rw [← hx.val, ← hy.val]
    exact toComplex_cmul (x.1.val, x.2.val) (y.1.val, y.2.val)
  re := Set.union_subset (Set.union_subset hx.re hy.re) (Set.union_subset hx.im hy.im)
  im := Set.union_subset (Set.union_subset hx.re hy.im) (Set.union_subset hx.im hy.re)

theorem Computes.cmulj (hx : Computes S c x) (hy : Computes S d y) :
    Computes S ((starRingEnd ℂ) c * d) (cmulj x.1 x.2 y.1 y.2) where
  val := by
    rw [← hx.val, ← hy.val]
    exact toComplex_cmulj (x.1.val, x.2.val) (y.1.val, y.2.val)
  re := Set.union_subset (Set.union_subset hx.re hy.re) (Set.union_subset hx.im hy.im)
  im := Set.union_subset (Set.union_subset hx.re hy.im) (Set.union_subset hx.im hy.re)

end Computes

/-! ### The loop over the bits -/

theorem cis_add (m m' n : ℤ) : cis (m + m') n = cis m n * cis m' n := by
  rw [cis, cis, cis, ← Complex.exp_add]
  congr 1
  push_cast
  ring

theorem cis_zero (n : ℤ) : cis 0 n = 1 := by
  rw [cis, mul_zero, Int.cast_zero, zero_mul, zero_mul, zero_div, Complex.exp_zero]

/-- The loop multiplies the powers for the bits of `m`; it reads no other entries. -/
theorem bitsLoop_faithful {S : Set (ℤ × ℤ)}
    (op : Traced → Traced → Traced → Traced → Traced × Traced) {w : ℕ → Traced × Traced} {n : ℤ}
    (ε : ℤ) {m : ℕ} (k : ℕ)
    (hop : ∀ j, 2 ^ j ≤ 2 ^ k * m → ∀ c z, Computes S c z →
      Computes S (cis (ε * 2 ^ j) n * c) (op (w j).1 (w j).2 z.1 z.2))
    {c : ℂ} {z : Traced × Traced} (hz : Computes S c z) :
    Computes S (cis (ε * (2 ^ k * m)) n * c) (bitsLoop op w k m z) := by
  induction m using Nat.strong_induction_on generalizing k c z with
  | _ m ih =>
    rw [bitsLoop]
    split_ifs with h0 hbit
    · rwa [h0, Nat.cast_zero, mul_zero, mul_zero, cis_zero, one_mul]
    · -- a set bit: one more factor, and the entry `k` is read
      have hm : m = 2 * (m / 2) + 1 := by
        rw [Nat.and_one_is_mod] at hbit
        omega
      have hle : 2 ^ (k + 1) * (m / 2) ≤ 2 ^ k * m := by
        rw [pow_succ, mul_assoc]
        exact Nat.mul_le_mul_left _ (by omega)
      have hread := hop k (Nat.le_mul_of_pos_right _ (by omega)) c z hz
      rw [Nat.shiftRight_eq_div_pow, pow_one]
      have h := ih (m / 2) (by omega) (k + 1) (fun j hj => hop j (hj.trans hle)) hread
      rw [← mul_assoc, ← cis_add] at h
      rwa [show ε * (2 ^ k * (m : ℤ)) = ε * (2 ^ (k + 1) * ((m / 2 : ℕ) : ℤ)) + ε * 2 ^ k by
        conv_lhs => rw [hm]
        push_cast
        ring]
    · -- a clear bit: nothing is read
      have hm : m = 2 * (m / 2) := by
        rw [not_not, Nat.and_one_is_mod] at hbit
        omega
      have hle : 2 ^ (k + 1) * (m / 2) ≤ 2 ^ k * m := by
        rw [pow_succ, mul_assoc]
        exact Nat.mul_le_mul_left _ (by omega)
      rw [Nat.shiftRight_eq_div_pow, pow_one]
      have h := ih (m / 2) (by omega) (k + 1) (fun j hj => hop j (hj.trans hle)) hz
      rwa [show ε * (2 ^ k * (m : ℤ)) = ε * (2 ^ (k + 1) * ((m / 2 : ℕ) : ℤ)) by
        conv_lhs => rw [hm]
        push_cast
        ring]

/-! ### The fill loop -/

/-- What `w[k]` holds once it is filled for `n`. -/
noncomputable def filledEntry (n : ℤ) (k : ℕ) : Traced × Traced :=
  (⟨(exactCexp (2 ^ k) n).1, {(2 ^ k, n)}⟩, ⟨(exactCexp (2 ^ k) n).2, {(2 ^ k, n)}⟩)

/-- Every entry that is needed for the cached `n` is filled for it. -/
def TableFilled (st : Statics Traced) : Prop :=
  ∀ k, 2 ^ k < st.cachedN → st.w k = filledEntry st.cachedN k

/-- A step of the fill loop. -/
noncomputable def fillStep (n : ℤ) (j k : ℕ) : Prog Traced ℕ := do
  let c ← ofOption (Traced.cos2pi j n)
  let s ← ofOption (Traced.sin2pi j n)
  modify fun st => { st with w := Function.update st.w k (c, s) }
  pure (k + 1)

/-- The table once the entries from `k` on are filled for `n`. -/
noncomputable def filledFrom (n k : ℕ) (w : ℕ → Traced × Traced) (i : ℕ) : Traced × Traced :=
  if k ≤ i ∧ 2 ^ i < n then filledEntry n i else w i

theorem filledFrom_succ {n k : ℕ} (h : 2 ^ k < n) (w : ℕ → Traced × Traced) :
    filledFrom n (k + 1) (Function.update w k (filledEntry n k)) = filledFrom n k w := by
  funext i
  rw [filledFrom, filledFrom]
  rcases eq_or_ne i k with rfl | hne
  · rw [if_neg (by omega), Function.update_self, if_pos ⟨le_rfl, h⟩]
  · rw [Function.update_of_ne hne]
    exact if_congr (by omega) rfl rfl

theorem filledFrom_of_le {n k : ℕ} (h : ¬2 ^ k < n) (w : ℕ → Traced × Traced) :
    filledFrom n k w = w := by
  funext i
  refine if_neg fun hi => h ?_
  exact (Nat.pow_le_pow_right (by decide) hi.1).trans_lt hi.2

theorem fill_run (n k : ℕ) (st : Statics Traced) :
    ∃ l, forDoubleM (2 ^ k) n (fillStep n) k st
      = .ok (l, { st with w := filledFrom n k st.w }) := by
  induction hd : n - 2 ^ k using Nat.strong_induction_on generalizing k st with
  | _ d ih =>
    rw [forDoubleM]
    split_ifs with h
    · have hstep : fillStep n (2 ^ k : ℕ) k st
          = .ok (k + 1, { st with w := Function.update st.w k (filledEntry n k) }) := by
        rw [filledEntry, ← Nat.cast_ofNat (n := 2), ← Nat.cast_pow]
        rfl
      obtain ⟨l, hl⟩ := ih (n - 2 ^ (k + 1)) (by rw [pow_succ]; omega) (k + 1) _ rfl
      rw [Prog.bind_ok hstep, ← pow_succ', hl]
      exact ⟨l, by rw [← filledFrom_succ h.2]⟩
    · rw [filledFrom_of_le fun hlt => h ⟨Nat.two_pow_pos k, hlt⟩]
      exact ⟨k, rfl⟩

/-! ### The calls -/

/-- The loop over the bits of `m`. -/
noncomputable def readBits (m : ℤ) (w : ℕ → Traced × Traced) : Traced × Traced :=
  if 0 < m then bitsLoop cmul w 0 m.toNat (.fromshort 1, .fromshort 0)
  else bitsLoop cmulj w 0 (-m).toNat (.fromshort 1, .fromshort 0)

theorem tracedCexp_eq (m n : ℤ) (st : Statics Traced) :
    tracedCexp m n st = (if n ≠ st.cachedN then
        forDoubleM 1 n.toNat (fillStep n) 0 >>= fun _ =>
          modify (fun st => { st with cachedN := n }) >>= fun _ =>
            get >>= fun st => pure (readBits m st.w)
      else get >>= fun st => pure (readBits m st.w) : Prog Traced (Traced × Traced)) st := by
  have hread : (get >>= fun st : Statics Traced =>
      if 0 < m then pure (bitsLoop cmul st.w 0 m.toNat (.fromshort 1, .fromshort 0))
      else pure (bitsLoop cmulj st.w 0 (-m).toNat (.fromshort 1, .fromshort 0))
        : Prog Traced (Traced × Traced)) = get >>= fun st => pure (readBits m st.w) := by
    refine congrArg (get >>= ·) (funext fun st => ?_)
    rw [readBits]
    split_ifs <;> rfl
  rw [← hread]
  rfl

/-- The calls that fill the table for `n`. -/
def tableFor (n : ℤ) : Set (ℤ × ℤ) := {c | ∃ k < 64, 2 ^ k < n ∧ c = (2 ^ k, n)}

theorem computes_filledEntry {n k : ℕ} (hk : 2 ^ k < n) (hn : n < 2 ^ 64) :
    Computes (tableFor n) (cis (2 ^ k) n) (filledEntry n k) := by
  have hlt : k < 64 := (Nat.pow_lt_pow_iff_right (by decide)).mp (hk.trans hn)
  have hmem : ((2 ^ k, (n : ℤ)) : ℤ × ℤ) ∈ tableFor n := ⟨k, hlt, by exact_mod_cast hk, rfl⟩
  exact ⟨toComplex_exactCexp _ _, Set.singleton_subset_iff.mpr hmem,
    Set.singleton_subset_iff.mpr hmem⟩

theorem readBits_faithful {m : ℤ} {n : ℕ} (hn : n < 2 ^ 64) {w : ℕ → Traced × Traced}
    (hm : ∀ k, 2 ^ k ≤ m.natAbs → 2 ^ k < n ∧ w k = filledEntry n k) :
    Computes (tableFor n) (cis m n) (readBits m w) := by
  have hone : Computes (tableFor n) 1 (Traced.fromshort 1, Traced.fromshort 0) := by
    refine ⟨?_, Set.empty_subset _, Set.empty_subset _⟩
    apply Complex.ext <;> simp [toComplex, Traced.fromshort]
  have hentry : ∀ j, 2 ^ j ≤ 2 ^ 0 * m.natAbs → Computes (tableFor n) (cis (2 ^ j) n) (w j) := by
    intro j hj
    obtain ⟨hlt, hw⟩ := hm j (by rwa [pow_zero, one_mul] at hj)
    rw [hw]
    exact computes_filledEntry hlt hn
  rw [readBits]
  split_ifs with hpos
  · have h := bitsLoop_faithful (m := m.natAbs) (w := w) (n := n) cmul 1 0
      (fun j hj c z hz => by
        rw [one_mul]
        exact (hentry j hj).cmul hz) hone
    rw [pow_zero, one_mul, one_mul, mul_one] at h
    rwa [show m.toNat = m.natAbs by omega, show (m.natAbs : ℤ) = m by omega] at *
  · have h := bitsLoop_faithful (m := m.natAbs) (w := w) (n := n) cmulj (-1) 0
      (fun j hj c z hz => by
        rw [neg_one_mul, cis_neg, ← conj_cis]
        exact (hentry j hj).cmulj hz) hone
    rw [pow_zero, one_mul, mul_one] at h
    rwa [show (-m).toNat = m.natAbs by omega, show (-1 * (m.natAbs : ℤ)) = m by omega] at *

/-- A call for `n` fills the table for `n`, unless it is, and computes `exp(2*pi*i*m/n)` from it. -/
theorem tracedCexp_run {m : ℤ} {n : ℕ} (hn : n < 2 ^ 64) (hm : ∀ k, 2 ^ k ≤ m.natAbs → 2 ^ k < n)
    {st : Statics Traced} (hst : TableFilled st) :
    ∃ z st', tracedCexp m n st = .ok (z, st') ∧ TableFilled st' ∧
      (∀ k, 64 ≤ k → st'.w k = st.w k) ∧ Computes (tableFor n) (cis m n) z := by
  rw [tracedCexp_eq]
  split_ifs with h
  · obtain ⟨l, hfill⟩ := fill_run n 0 st
    refine ⟨_, { st with w := filledFrom n 0 st.w, cachedN := n }, ?_, fun k hk => ?_,
      fun k hk => ?_, readBits_faithful hn (w := filledFrom n 0 st.w) fun k hk => ⟨hm k hk, ?_⟩⟩
    · rw [pow_zero] at hfill
      rw [Int.toNat_natCast, Prog.bind_ok hfill]
      rfl
    · have hk' : (2 : ℤ) ^ k < n := hk
      exact if_pos ⟨Nat.zero_le k, by exact_mod_cast hk'⟩
    · refine if_neg fun hlt => ?_
      have hpow : 2 ^ 64 ≤ 2 ^ k := Nat.pow_le_pow_right (by decide) hk
      omega
    · exact if_pos ⟨Nat.zero_le k, hm k hk⟩
  · rw [ne_eq, not_not] at h
    refine ⟨_, st, rfl, hst, fun _ _ => rfl, readBits_faithful hn fun k hk => ⟨hm k hk, ?_⟩⟩
    rw [hst k (by rw [← h]; exact_mod_cast hm k hk), ← h]

/-! ### The calls that are made -/

/-- `ksq` before step `k` of `bluestein_sequence`. -/
def ksqBefore (n2 : ℕ) : ℕ → Option ℕ
  | 0 => some 1
  | k + 1 => (ksqBefore n2 k).bind fun ksq => reduce n2 (ksq + 2 * k - 1)

theorem ksqBefore_spec {n : ℕ} (hn : 0 < n) (k : ℕ) :
    ∃ ksq, ksqBefore (2 * n) k = some ksq ∧ ksq ≤ 2 * n ∧ 0 < ksq + 2 * k ∧
      ksq + 2 * k - 1 ≡ k * k [MOD 2 * n] := by
  induction k with
  | zero => exact ⟨1, rfl, by omega, by omega, rfl⟩
  | succ k ih =>
    obtain ⟨p, hp, -, -, hmod⟩ := ih
    obtain ⟨q, hq, hle, hmod'⟩ := reduce_eq (show 0 < 2 * n by omega) (p + 2 * k - 1)
    refine ⟨q, by rw [ksqBefore, hp, Option.bind_some, hq], hle, by omega, ?_⟩
    have h := (hmod'.trans hmod).add_right (2 * k + 1)
    rw [show k * k + (2 * k + 1) = (k + 1) * (k + 1) by ring] at h
    rwa [show q + 2 * (k + 1) - 1 = q + (2 * k + 1) by omega]

theorem ksqBefore_succ {n : ℕ} (hn : 0 < n) (k : ℕ) :
    ∃ ksq, ksqBefore (2 * n) (k + 1) = some ksq ∧ ksq ≤ 2 * n ∧ ksq ≡ k * k [MOD 2 * n] := by
  obtain ⟨p, hp, -, -, hmod⟩ := ksqBefore_spec hn k
  obtain ⟨q, hq, hle, hmod'⟩ := reduce_eq (show 0 < 2 * n by omega) (p + 2 * k - 1)
  exact ⟨q, by rw [ksqBefore, hp, Option.bind_some, hq], hle, hmod'.trans hmod⟩

/-- A step of `bluestein_sequence`, with `ksq` computed from the start. -/
def callStep {A : Type} (cexp : ℤ → ℤ → Prog A (A × A)) (n2 k : ℕ) (a : ℕ → A) :
    Prog A (ℕ → A) := do
  let ksq ← ofOption (ksqBefore n2 (k + 1))
  let z ← cexp ksq n2
  pure (setEntry a k z)

/-- The calls that `bluestein_sequence` makes. -/
theorem bluesteinSequence_calls {A : Type} (cexp : ℤ → ℤ → Prog A (A × A)) {n : ℕ} (hn : 0 < n)
    (a : ℕ → A) :
    bluesteinSequence cexp n a = forRangeM n (callStep cexp (2 * n)) a := by
  have hloop : ∀ k, ∃ ksq, ksqBefore (2 * n) k = some ksq ∧
      forRangeM k (sequenceStep cexp (2 * n)) (1, a)
        = forRangeM k (callStep cexp (2 * n)) a >>= fun a => pure (ksq, a) := by
    intro k
    induction k with
    | zero => exact ⟨1, rfl, rfl⟩
    | succ k ih =>
      obtain ⟨p, hp, hrun⟩ := ih
      obtain ⟨q, hq, -⟩ := ksqBefore_spec hn (k + 1)
      have hreduce : reduce (2 * n) (p + 2 * k - 1) = some q := by
        rwa [ksqBefore, hp, Option.bind_some] at hq
      refine ⟨q, hq, ?_⟩
      rw [forRangeM, forRangeM, hrun, bind_assoc, bind_assoc]
      refine congrArg _ (funext fun b => ?_)
      rw [pure_bind, sequenceStep, callStep, hreduce, hq, ofOption, pure_bind, pure_bind,
        bind_assoc]
      refine congrArg _ (funext fun z => ?_)
      rw [pure_bind]
  obtain ⟨ksq, -, hrun⟩ := hloop n
  show (forRangeM n (sequenceStep cexp (2 * n)) (1, a) >>= fun s => pure s.2) = _
  rw [hrun, bind_assoc]
  exact (congrArg _ (funext fun b => pure_bind _ _)).trans (bind_pure _)

/-- The calls of `fft0`, for any of its sizes that is an `int`, and of `bluestein_sequence`. -/
inductive Issued : ℤ → ℤ → Prop
  | fft0 {s : ℕ} {m : ℤ} (hs : 2 * 2 ^ s < 2 ^ 31) (hm : |m| < 2 ^ s) : Issued m (2 * 2 ^ s : ℕ)
  | bluesteinSequence {n k ksq : ℕ} (hn : n < 2 ^ 29) (hpow : powerOfTwo n = false) (hk : k < n)
      (hksq : ksqBefore (2 * n) (k + 1) = some ksq) : Issued ksq (2 * n : ℕ)

/-- The table has an entry for every bit that is read. -/
theorem Issued.table {m n : ℤ} (h : Issued m n) :
    ∃ n' : ℕ, n = n' ∧ n' ≤ 2 ^ 30 ∧ ∀ k, 2 ^ k ≤ m.natAbs → 2 ^ k < n' := by
  cases h with
  | @fft0 s _ hs hm =>
    rw [← pow_succ', Nat.pow_lt_pow_iff_right (by decide)] at hs
    refine ⟨_, rfl, ?_, fun k hk => hk.trans_lt ?_⟩
    · rw [← pow_succ']
      exact Nat.pow_le_pow_right (by decide) (by omega)
    · rw [Int.abs_eq_natAbs] at hm
      have hm' : m.natAbs < 2 ^ s := by exact_mod_cast hm
      exact hm'.trans_le (Nat.le_mul_of_pos_left _ (by decide))
  | @bluesteinSequence n k ksq hn hpow hk hksq =>
    obtain ⟨q, hq, hle, -⟩ := ksqBefore_succ (Nat.zero_lt_of_lt hk) k
    obtain rfl := Option.some.inj (hq.symm.trans hksq)
    refine ⟨_, rfl, by omega, fun j hj => lt_of_le_of_ne (hj.trans hle) fun heq => ?_⟩
    -- `n` would be a power of two
    obtain ⟨t, rfl⟩ : ∃ t, n = 2 ^ t := by
      cases j with
      | zero => omega
      | succ j => exact ⟨j, by rw [pow_succ] at heq; omega⟩
    have htrue := (powerOfTwo_iff (Nat.one_le_two_pow (n := t))).mpr ⟨t, rfl⟩
    rw [hpow] at htrue
    exact absurd htrue (by decide)

theorem calls_run {calls : List (ℤ × ℤ)} (hcalls : ∀ c ∈ calls, Issued c.1 c.2)
    {st : Statics Traced} (hst : TableFilled st) :
    ∃ zs st', calls.mapM (fun c => tracedCexp c.1 c.2) st = .ok (zs, st') ∧
      List.Forall₂ (fun c z => Computes (tableFor c.2) (cis c.1 c.2) z) calls zs ∧
      ∀ k, 64 ≤ k → st'.w k = st.w k := by
  induction calls generalizing st with
  | nil => exact ⟨[], st, rfl, .nil, fun _ _ => rfl⟩
  | cons c calls ih =>
    obtain ⟨n, hn, hle, htable⟩ := (hcalls c List.mem_cons_self).table
    obtain ⟨z, st', hrun, hst', hw, hz⟩ :=
      tracedCexp_run (hle.trans_lt (by decide)) htable hst
    obtain ⟨zs, st'', hruns, hzs, hw'⟩ := ih (fun c hc => hcalls c (List.mem_cons_of_mem _ hc)) hst'
    rw [← hn] at hrun hz
    refine ⟨z :: zs, st'', ?_, .cons hz hzs, fun k hk => (hw' k hk).trans (hw k hk)⟩
    rw [List.mapM_cons, Prog.bind_ok hrun, Prog.bind_ok hruns]
    rfl

/-- **`cexp_builtin` does not depend on its history.** In a new process, whatever its table holds,
any sequence of the calls that `fft0` and `bluestein_sequence` make returns `exp(2*pi*i*m/n)` for
each, and computes it from numbers of the table for `n` only; no entry from the `64`-th one on is
written.  The counters of the two loops stay in the range of `int`, and `ksq` keeps `k^2` modulo
`2 * n`. -/
theorem cexpBuiltin_calls {calls : List (ℤ × ℤ)} (hcalls : ∀ c ∈ calls, Issued c.1 c.2)
    {st : Statics Traced} (hst : st.cachedN = -1) :
    (∃ zs st', calls.mapM (fun c => tracedCexp c.1 c.2) st = .ok (zs, st') ∧
      List.Forall₂ (fun c z => Computes (tableFor c.2) (cis c.1 c.2) z) calls zs ∧
      ∀ k, 64 ≤ k → st'.w k = st.w k) ∧
    (∀ c ∈ calls, ∀ j : ℤ, j < c.2 → j + j < 2 ^ 31) ∧
    ∀ n k, n < 2 ^ 29 → k < n → ∃ p q, ksqBefore (2 * n) k = some p ∧
      ksqBefore (2 * n) (k + 1) = some q ∧ 0 < p + 2 * k ∧ p + 2 * k < 2 ^ 31 ∧
      q ≤ 2 * n ∧ q ≡ k * k [MOD 2 * n] := by
  have hfilled : TableFilled st := by
    intro k hk
    rw [hst] at hk
    have : (0 : ℤ) < 2 ^ k := by positivity
    omega
  refine ⟨calls_run hcalls hfilled, fun c hc j hj => ?_, fun n k hn hk => ?_⟩
  · obtain ⟨n, hn, hle, -⟩ := (hcalls c hc).table
    omega
  · obtain ⟨p, hp, hple, hpos, -⟩ := ksqBefore_spec (Nat.zero_lt_of_lt hk) k
    obtain ⟨q, hq, hqle, hmod⟩ := ksqBefore_succ (Nat.zero_lt_of_lt hk) k
    exact ⟨p, q, hp, hq, hpos, by omega, hqle, hmod⟩

/-- The start of a process. -/
def blankTraced : Statics Traced := initialStatics ⟨0, ∅⟩ fun _ _ => ⟨0, ∅⟩

/-- Calls of `fft0` for `8` on both sides of one of `bluestein_sequence` for `3`. -/
theorem cexpBuiltin_calls_interleaved :
    let calls : List (ℤ × ℤ) := [(-3, 8), (4, 6), (1, 8)]
    (∃ zs st', calls.mapM (fun c => tracedCexp c.1 c.2) blankTraced = .ok (zs, st') ∧
      List.Forall₂ (fun c z => Computes (tableFor c.2) (cis c.1 c.2) z) calls zs ∧
      ∀ k, 64 ≤ k → st'.w k = blankTraced.w k) ∧
    (∀ c ∈ calls, ∀ j : ℤ, j < c.2 → j + j < 2 ^ 31) ∧
    ∀ n k, n < 2 ^ 29 → k < n → ∃ p q, ksqBefore (2 * n) k = some p ∧
      ksqBefore (2 * n) (k + 1) = some q ∧ 0 < p + 2 * k ∧ p + 2 * k < 2 ^ 31 ∧
      q ≤ 2 * n ∧ q ≡ k * k [MOD 2 * n] :=
  cexpBuiltin_calls (fun c hc => by
    simp only [List.mem_cons, List.not_mem_nil, or_false] at hc
    rcases hc with rfl | rfl | rfl
    · exact .fft0 (s := 2) (by decide) (by decide)
    · obtain ⟨q, hq, hle, hmod⟩ := ksqBefore_succ (n := 3) (by decide) 2
      obtain rfl : q = 4 := by
        rw [Nat.ModEq] at hmod
        omega
      exact .bluesteinSequence (by decide) (by decide) (by decide) hq
    · exact .fft0 (s := 2) (by decide) (by decide)) rfl

end BenchFFT.Mp
