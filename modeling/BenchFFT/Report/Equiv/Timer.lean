import BenchFFT.Report.Timer
import BenchFFT.Triple
import Mathlib.Data.Rat.Floor

/-!
# The calibration ends

On a machine that does at most `2 * 10 ^ 9` units of work a second, the search of `find_n` keeps its
amount of work between `1` and `2 * 10 ^ 9 + 1`, where no `int` overflows (`tryN_returns`), and
`acceptable` accepts exactly where the readings that it is given bear out the tolerances
(`acceptable_returns`).  So `timer_init` returns, and the `time_min` that it calibrates is the first
of `10 ^ -6, 2 * 10 ^ -6, 4 * 10 ^ -6, …` that is accepted, or the first one of at least a second
(`timerInit_returns`).
-/

namespace BenchFFT.Timer

theorem checked_returns {σ : Type} {x : ℤ} (h0 : 0 ≤ x) (h1 : x < 2147483648) (s : σ) :
    Returns (checked x : Run σ ℤ) s fun n s' => n = x ∧ s' = s := by
  rw [checked, int_eq h0 h1]
  exact Returns.pure ⟨rfl, rfl⟩

section Bounded

variable {σ K : Type} [Field K] [LinearOrder K] (duration : ℤ → σ → K × σ) (timeRepeat : ℤ)

/-- The machine does at most `2 * 10 ^ 9` units of work a second. -/
def Bounded : Prop := ∀ n : ℤ, 0 < n → ∀ s, (n : K) ≤ 2000000000 * (duration n s).1

variable {duration} (hbound : Bounded duration)

include hbound

theorem timeN_returns {n : ℤ} (hn : 0 < n) (s : σ) :
    Returns (timeN duration timeRepeat n) s fun t _ => (n : K) ≤ 2000000000 * t := by
  have hread : Triple (fun _ => False) (fun _ => True)
      (fun s => .ok (duration n s) : Run σ K) fun t => (n : K) ≤ 2000000000 * t :=
    fun s _ => ⟨trivial, hbound n hn s⟩
  have htime : Triple (fun _ => False) (fun _ => True) (timeN duration timeRepeat n)
      fun t => (n : K) ≤ 2000000000 * t := by
    refine hread.bind fun t ht => Triple.forRangeM (P := fun _ t => (n : K) ≤ 2000000000 * t) ht
      fun _ _ tmin htmin => hread.bind fun t ht => Triple.pure ?_
    split_ifs
    · exact ht
    · exact htmin
  obtain ⟨t, s', hrun, -, ht⟩ := htime.exists_ok (s := s) trivial
  exact ⟨t, s', hrun, ht⟩

variable [FloorRing K] [IsStrictOrderedRing K]

omit [IsStrictOrderedRing K] hbound in
/-- The fraction that is dropped leaves a positive number positive. -/
theorem truncate_returns {x : K} (h0 : 1 ≤ x) (h1 : x < 2147483648) (s : σ) :
    Returns (truncate x : Run σ ℤ) s fun n s' => (n = ⌊x⌋ ∧ s' = s) ∧ 0 < n ∧ (n : K) ≤ x := by
  have hneg : ¬x < 0 := not_lt.mpr (zero_le_one.trans h0)
  have hfloor : 1 ≤ ⌊x⌋ := Int.le_floor.mpr (by exact_mod_cast h0)
  have hlt : ⌊x⌋ < 2147483648 := Int.floor_lt.mpr (by exact_mod_cast h1)
  unfold truncate
  rw [if_neg hneg]
  refine (checked_returns (by omega) hlt s).mono ?_
  rintro _ _ ⟨rfl, rfl⟩
  exact ⟨⟨rfl, rfl⟩, hfloor, Int.floor_le x⟩

/-! ### The search -/

/-- The last reading before the state `s` was that of the amount of work `n`: about `tmin`. -/
def Enough (duration : ℤ → σ → K × σ) (timeRepeat : ℤ) (tmin : K) (n : ℤ) (s : σ) : Prop :=
  0 < n ∧ (n : K) ≤ 2000000001 ∧ ∃ s₀ t, timeN duration timeRepeat n s₀ = .ok (t, s) ∧
    0.98 * tmin < t ∧ t < 1.02 * tmin

variable {tmin : K} (hpos : 0 < tmin) (hlt : tmin < 1)

include hpos hlt

theorem tryN_returns (tries : ℕ) {n : ℤ} {t : K} {s₀ s : σ} (hn : 0 < n)
    (hle : (n : K) ≤ 2000000001) (ht : (n : K) ≤ 2000000000 * t)
    (hread : timeN duration timeRepeat n s₀ = .ok (t, s)) :
    Returns (tryN duration timeRepeat tmin tries n t) s fun n s' =>
      n = -1 ∨ Enough duration timeRepeat tmin n s' := by
  induction tries generalizing n t s₀ s with
  | zero => exact Returns.pure (Or.inl rfl)
  | succ tries ih =>
    unfold tryN
    refine Returns.ite (fun h => Returns.pure (Or.inr ⟨hn, hle, s₀, t, hread, h⟩)) fun _ => ?_
    -- the next amount of work
    have hnext : Returns
        (if t < tminTry then checked (n * 10) else truncate ((n : K) / t * tmin + 1) : Run σ ℤ) s
        fun n _ => 0 < n ∧ (n : K) ≤ 2000000001 := by
      refine Returns.ite (fun hshort => ?_) fun hlong => ?_
      · have hsmall : (n : K) < 2000 := by
          norm_num [tminTry] at hshort
          linarith
        have hsmall' : n < 2000 := by exact_mod_cast hsmall
        refine (checked_returns (by omega) (by omega) s).mono ?_
        rintro _ _ ⟨rfl, -⟩
        refine ⟨by omega, ?_⟩
        push_cast
        linarith
      · have htpos : 0 < t := lt_of_lt_of_le (by norm_num [tminTry]) (not_lt.mp hlong)
        have hn' : (0 : K) < n := by exact_mod_cast hn
        have hrate : (n : K) / t ≤ 2000000000 := (div_le_iff₀ htpos).mpr ht
        have hprod : (n : K) / t * tmin ≤ 2000000000 :=
          (mul_le_of_le_one_right (div_pos hn' htpos).le hlt.le).trans hrate
        have hprod' : 0 < (n : K) / t * tmin := mul_pos (div_pos hn' htpos) hpos
        refine (truncate_returns (by linarith) (by linarith) s).mono fun m _ hm => ⟨hm.2.1, ?_⟩
        linarith [hm.2.2]
    refine hnext.bind fun n s' _ hn => (timeN_returns timeRepeat hbound hn.1 s').bind ?_
    exact fun t s'' hread ht => ih hn.1 hn.2 ht hread

theorem findN_returns (s : σ) : Returns (findN duration timeRepeat tmin) s fun n s' =>
    n = -1 ∨ Enough duration timeRepeat tmin n s' := by
  have hten : ((10000 : ℤ) : K) ≤ 2000000001 := by norm_num
  exact (timeN_returns timeRepeat hbound (by decide) s).bind fun t s' hread ht =>
    tryN_returns timeRepeat hbound hpos hlt 10 (by decide) hten ht hread

/-! ### The test points -/

omit hpos hlt

/-- In the readings from `s` to `s'`, each of `c` times as much work as `n` is `c` times the
baseline, within the tolerance. -/
def Proportional (duration : ℤ → σ → K × σ) (timeRepeat n : ℤ) (baseline : K) :
    List K → σ → σ → Prop
  | [], s, s' => s' = s
  | c :: cs, s, s' => ∃ usecs s₁, timeN duration timeRepeat ⌊(n : K) * c⌋ s = .ok (usecs, s₁) ∧
      |usecs - baseline * c| ≤ tolerance * (baseline * c) ∧
      Proportional duration timeRepeat n baseline cs s₁ s'

omit [FloorRing K] hbound in
/-- `diff` is a distance. -/
theorem diff_eq (expected usecs : K) :
    (if expected > usecs then expected - usecs else usecs - expected) = |usecs - expected| := by
  split_ifs with hshort
  · rw [abs_of_neg (sub_neg.mpr hshort), neg_sub]
  · rw [abs_of_nonneg (sub_nonneg.mpr (not_lt.mp hshort))]

theorem proportional_returns {n : ℤ} {baseline : K} (hn : 0 < n) (hle : (n : K) ≤ 2000000001)
    (hbase : (n : K) ≤ 2000000000 * baseline) (cs : List K) (hcs : ∀ c ∈ cs, 1 ≤ c ∧ c ≤ 1.035)
    (s : σ) :
    Returns (proportional duration timeRepeat n baseline cs) s fun ok s' =>
      if ok = true then Proportional duration timeRepeat n baseline cs s s'
      else ∀ s', ¬Proportional duration timeRepeat n baseline cs s s' := by
  induction cs generalizing s with
  | nil => exact Returns.pure rfl
  | cons c cs ih =>
    obtain ⟨⟨h1, h2⟩, hcs⟩ := List.forall_mem_cons.mp hcs
    have hn' : (1 : K) ≤ n := by exact_mod_cast hn
    have hlow : 1 ≤ (n : K) * c := one_le_mul_of_one_le_of_one_le hn' h1
    have hhigh : (n : K) * c < 2147483648 := by
      have h := mul_le_mul hle h2 (zero_le_one.trans h1) (by norm_num)
      norm_num at h
      linarith
    have hexpected : 0 < baseline * c := by
      have hpos : 0 < baseline := by linarith
      exact mul_pos hpos (zero_lt_one.trans_le h1)
    refine (truncate_returns hlow hhigh s).bind ?_
    rintro _ _ - ⟨⟨rfl, rfl⟩, hmpos, -⟩
    refine (timeN_returns timeRepeat hbound hmpos _).bind fun usecs s₁ hread _ => ?_
    dsimp only
    rw [diff_eq]
    refine Returns.ite (fun hfar => Returns.pure ?_) fun hclose => ?_
    · rw [if_neg Bool.false_ne_true]
      rintro s' ⟨usecs', s₁', hread', hclose, -⟩
      rw [hread] at hread'
      cases hread'
      exact absurd ((div_le_iff₀ hexpected).mpr hclose) (not_le.mpr hfar)
    · rw [not_lt, div_le_iff₀ hexpected] at hclose
      refine (ih hcs s₁).mono fun ok s' hok => ?_
      split_ifs at hok ⊢
      · exact ⟨usecs, s₁, hread, hclose, hok⟩
      · rintro s' ⟨usecs', s₁', hread', -, hrest⟩
        rw [hread] at hread'
        cases hread'
        exact hok s' hrest

/-- The readings from `s` to `s'` bear out `tmin`: after a search that has ended with an amount of
work that runs about `tmin` seconds, the test points are proportional. -/
def Certified (duration : ℤ → σ → K × σ) (timeRepeat : ℤ) (tmin : K) (s s' : σ) : Prop :=
  ∃ n s₁, findN duration timeRepeat tmin s = .ok (n, s₁) ∧ Enough duration timeRepeat tmin n s₁ ∧
    ∃ baseline s₂, timeN duration timeRepeat n s₁ = .ok (baseline, s₂) ∧
      Proportional duration timeRepeat n baseline testPoints s₂ s'

include hpos hlt

theorem acceptable_returns (s : σ) :
    Returns (acceptable duration timeRepeat tmin) s fun ok s' =>
      if ok = true then Certified duration timeRepeat tmin s s'
      else ∀ s', ¬Certified duration timeRepeat tmin s s' := by
  have hpoints : ∀ c ∈ (testPoints : List K), 1 ≤ c ∧ c ≤ 1.035 := by
    intro c hc
    simp only [testPoints, List.mem_cons, List.not_mem_nil, or_false] at hc
    rcases hc with rfl | rfl | rfl <;> norm_num
  refine (findN_returns timeRepeat hbound hpos hlt s).bind fun n s₁ hfind hn => ?_
  refine Returns.ite (fun hnpos => Returns.pure ?_) fun hnpos => ?_
  · rw [if_neg Bool.false_ne_true]
    rintro s' ⟨n', s₁', hfind', henough, -⟩
    rw [hfind] at hfind'
    cases hfind'
    exact absurd henough.1 (by omega)
  · have henough := hn.resolve_left (by omega)
    refine (timeN_returns timeRepeat hbound henough.1 s₁).bind fun baseline s₂ hread hbase => ?_
    refine (proportional_returns timeRepeat hbound henough.1 henough.2.1 hbase _ hpoints s₂).mono ?_
    intro ok s' hok
    split_ifs at hok ⊢
    · exact ⟨n, s₁, hfind, henough, baseline, s₂, hread, hok⟩
    · rintro s' ⟨n', s₁', hfind', -, baseline', s₂', hread', hrest⟩
      rw [hfind] at hfind'
      cases hfind'
      rw [hread] at hread'
      cases hread'
      exact hok s' hrest

/-! ### The calibration -/

omit hpos hlt

/-- From `s` to `s'`, the first `j` of the doubled times have been rejected, one after the other. -/
inductive Rejected (duration : ℤ → σ → K × σ) (timeRepeat : ℤ) : ℕ → σ → σ → Prop
  | zero (s : σ) : Rejected duration timeRepeat 0 s s
  | succ {j : ℕ} {s s₁ s₂ : σ} : Rejected duration timeRepeat j s s₁ →
      acceptable duration timeRepeat (tminTry * 2.0 ^ j : K) s₁ = .ok (false, s₂) →
      (∀ s', ¬Certified duration timeRepeat (tminTry * 2.0 ^ j : K) s₁ s') →
      Rejected duration timeRepeat (j + 1) s s₂

/-- From `s` to `s'`, the first of the doubled times that the readings bear out has been accepted,
or all those below a second have been rejected. -/
def Calibrated (duration : ℤ → σ → K × σ) (timeRepeat : ℤ) (s : σ) (timeMin : K) (s' : σ) : Prop :=
  ∃ j s₁, Rejected (K := K) duration timeRepeat j s s₁ ∧ timeMin = tminTry * 2.0 ^ j ∧
    (j < 20 ∧ acceptable duration timeRepeat timeMin s₁ = .ok (true, s') ∧
        Certified duration timeRepeat timeMin s₁ s' ∨
      j = 20 ∧ s' = s₁)

theorem calibrateFrom_returns {j : ℕ} (hj : j ≤ 20) {s s₁ : σ}
    (hrej : Rejected (K := K) duration timeRepeat j s s₁) :
    Returns (calibrateFrom duration timeRepeat (tminTry * 2.0 ^ j : K)) s₁
      (Calibrated duration timeRepeat s) := by
  induction hk : 20 - j generalizing j s₁ with
  | zero =>
    obtain rfl : j = 20 := by omega
    have hend : ¬(0 < (tminTry * 2.0 ^ 20 : K) ∧ (tminTry * 2.0 ^ 20 : K) < tmaxTry) := by
      norm_num [tminTry, tmaxTry]
    unfold calibrateFrom
    rw [if_neg hend]
    exact Returns.pure ⟨20, s₁, hrej, rfl, Or.inr ⟨rfl, rfl⟩⟩
  | succ k ih =>
    have hpos : 0 < (tminTry * 2.0 ^ j : K) := mul_pos (by norm_num [tminTry]) (by positivity)
    have hlt : (tminTry * 2.0 ^ j : K) < 1 := by
      have hpow : (2.0 : K) ^ j ≤ 2.0 ^ 19 := pow_le_pow_right₀ (by norm_num) (by omega)
      norm_num [tminTry] at hpow ⊢
      linarith
    have hmore : 0 < (tminTry * 2.0 ^ j : K) ∧ (tminTry * 2.0 ^ j : K) < tmaxTry :=
      ⟨hpos, hlt.trans_eq (by norm_num [tmaxTry])⟩
    have hdouble : (tminTry * 2.0 ^ j * 2.0 : K) = tminTry * 2.0 ^ (j + 1) := by
      rw [pow_succ, mul_assoc]
    unfold calibrateFrom
    rw [if_pos hmore]
    refine (acceptable_returns timeRepeat hbound hpos hlt s₁).bind fun ok s₂ hrun hok => ?_
    cases ok with
    | true => exact Returns.pure ⟨j, s₁, hrej, rfl, Or.inl ⟨by omega, hrun, hok⟩⟩
    | false => simpa [hdouble] using ih (by omega) (hrej.succ hrun hok) (by omega)

end Bounded

section Coarse

variable {σ K : Type} [Field K] [LinearOrder K] {duration : ℤ → σ → K × σ} (timeRepeat : ℤ)
  (hshort : ∀ n : ℤ, 0 < n → n < 2147483648 → ∀ s, (duration n s).1 < 0.98 * tminTry)

include hshort

theorem timeN_short {n : ℤ} (hn : 0 < n) (hlt : n < 2147483648) :
    Triple (fun _ => True) (fun _ => True) (timeN duration timeRepeat n)
      fun t => t < 0.98 * tminTry := by
  have hread : Triple (fun _ => True) (fun _ => True)
      (fun s => .ok (duration n s) : Run σ K) fun t => t < 0.98 * tminTry :=
    fun s _ => ⟨trivial, hshort n hn hlt s⟩
  refine hread.bind fun t ht => Triple.forRangeM (P := fun _ t => t < 0.98 * tminTry) ht
    fun _ _ tmin htmin => hread.bind fun t ht => Triple.pure ?_
  split_ifs
  · exact ht
  · exact htmin

variable [FloorRing K] [IsStrictOrderedRing K]

/-- Each try makes `n` ten times as large. -/
theorem tryN_overflow {tmin t : K} (htmin : tminTry ≤ tmin) {tries : ℕ} {n : ℤ} (hn : 0 < n)
    (hlt : n < 2147483648) (hmany : 2147483648 ≤ n * 10 ^ tries) (ht : t < 0.98 * tminTry) :
    Triple (fun _ => True) (fun _ => True) (tryN duration timeRepeat tmin tries n t)
      fun _ => False := by
  induction tries generalizing n t with
  | zero => exact absurd (pow_zero (10 : ℤ) ▸ hmany) (by omega)
  | succ tries ih =>
    have hnot : ¬(0.98 * tmin < t ∧ t < 1.02 * tmin) := fun h => by linarith [h.1]
    have hless : t < tminTry := ht.trans (by norm_num [tminTry])
    have hnext : Triple (fun _ => True) (fun _ => True) (checked (n * 10) : Run σ ℤ)
        fun m => m = n * 10 ∧ m < 2147483648 := by
      intro s _
      unfold checked int
      split_ifs with hfits
      · exact ⟨trivial, rfl, hfits.2⟩
      · exact trivial
    unfold tryN
    rw [if_neg hnot, if_pos hless]
    refine hnext.bind fun m hm => ?_
    refine (timeN_short timeRepeat hshort (by omega) hm.2).bind fun t ht => ?_
    refine ih (by omega) hm.2 ?_ ht
    rwa [hm.1, mul_assoc, ← pow_succ']

theorem calibrate_overflow : Triple (fun _ => True) (fun _ => True)
    (calibrate duration timeRepeat) fun _ => False := by
  have hstart : 0 < (tminTry : K) ∧ (tminTry : K) < tmaxTry := by norm_num [tminTry, tmaxTry]
  have hfind : Triple (fun _ => True) (fun _ => True) (findN duration timeRepeat tminTry)
      fun _ => False :=
    (timeN_short timeRepeat hshort (by decide) (by decide)).bind fun t ht =>
      tryN_overflow timeRepeat hshort le_rfl (by decide) (by decide) (by decide) ht
  unfold calibrate calibrateFrom
  rw [if_pos hstart]
  exact (hfind.bind fun _ h => h.elim).bind (Q := fun _ => False) fun _ h => h.elim

/-- `find_n` leaves the range of an `int` where no amount of work takes a microsecond. -/
theorem timerInit_overflow {tmin : K} (htmin : tmin ≤ 0) (rep : ℤ) (s : σ) :
    timerInit duration tmin rep s = .error .int := by
  have hrun : Triple (fun _ => True) (fun _ => True) (timerInit duration tmin rep)
      fun _ => False :=
    (Triple.ite (fun h => absurd h (not_lt.mpr htmin)) fun _ =>
      calibrate_overflow _ hshort).bind fun _ h => h.elim
  have hs := hrun s trivial
  cases hend : timerInit duration tmin rep s with
  | ok r =>
    rw [hend] at hs
    exact hs.2.elim
  | error e =>
    cases e
    rfl

end Coarse

/-- A clock that stands still. -/
theorem timerInit_overflow_still : timerInit (fun _ s => ((0 : ℚ), s)) 0 0 () = .error .int :=
  timerInit_overflow (fun _ _ _ _ => by norm_num [tminTry]) le_rfl 0 ()

end BenchFFT.Timer
