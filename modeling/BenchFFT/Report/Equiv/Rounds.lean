import BenchFFT.Report.Equiv.Speed

/-!
# When `speed` ends

A round takes `2 * time_repeat` ticks of the clock, whether the loop goes on with a larger `iter` or
starts over, so the readings of round `m` are at fixed ticks (`reading`), and its `iter` is `2 ^ e`
for an `e` that the readings before it determine (`exponent`).  The invariant is that round `m` is
next (`At`).  The loop is left after a round whose readings are all nonnegative and at least
`time_min` (`Good`), and after no other, so `speed` ends if and only if there is such a round, and
it reports the first one (`speed_ends`).
-/

namespace BenchFFT.Speed

variable {T K : Type} [Field K] [LinearOrder K]

section Readings

variable (getTime : ℕ → T) (elapsed : T → T → K) (timeRepeat : ℕ) (timeMin : K)

/-- Reading `k` of round `m`; the set-up takes the first two ticks. -/
def reading (m k : ℕ) : K := interval getTime elapsed (2 + 2 * (timeRepeat * m) + 2 * k)

/-- Round `m` is good enough. -/
def Good (m : ℕ) : Prop :=
  ∀ k < timeRepeat, 0 ≤ reading getTime elapsed timeRepeat m k ∧
    timeMin ≤ reading getTime elapsed timeRepeat m k

/-- `iter` is `2 ^ e` in round `m`: it is doubled after each round, and set back to `1` after a
negative reading and when it has reached `2 ^ 30`. -/
def exponent : ℕ → ℕ
  | 0 => 0
  | m + 1 =>
    if (∃ k < timeRepeat, reading getTime elapsed timeRepeat m k < 0) ∨ exponent m + 1 = 30 then 0
    else exponent m + 1

theorem exponent_lt (m : ℕ) : exponent getTime elapsed timeRepeat m < 30 := by
  induction m with
  | zero => exact Nat.zero_lt_succ 29
  | succ m ih =>
    rw [exponent]
    split_ifs with h
    · exact Nat.zero_lt_succ 29
    · rw [not_or] at h
      omega

/-- Round `m` is next, perhaps after `iter` has been set back. -/
def At (m : ℕ) (s : State T K) : Prop :=
  s.ticks = 2 + 2 * (timeRepeat * m) ∧
    (s.iter = 2 ^ exponent getTime elapsed timeRepeat m ∨
      s.iter = 2 ^ 30 ∧ exponent getTime elapsed timeRepeat m = 0)

/-- Round `m` was the last one, and `t` holds its readings. -/
def Left (m : ℕ) (s : State T K) : Prop :=
  s.iter = 2 ^ exponent getTime elapsed timeRepeat m ∧
    (∃ pre, s.log = pre ++ roundLog timeRepeat (2 ^ exponent getTime elapsed timeRepeat m)
      (reading getTime elapsed timeRepeat m)) ∧
    ∀ k < timeRepeat, s.t k = reading getTime elapsed timeRepeat m k

end Readings

variable {getTime : ℕ → T} {elapsed : T → T → K} {timeRepeat : ℕ} {timeMin : K}

/-- Readings that are not negative are scanned to the end. -/
theorem scan_of_nonneg (hmin : timeMin ≤ ((10 : ℕ) ^ 20 : K)) {n : ℕ} {t : ℕ → K}
    (ht : ∀ k < n, 0 ≤ t k ∧ timeMin ≤ t k) : ∃ tmin, scan n t = some tmin ∧ timeMin ≤ tmin := by
  induction n with
  | zero => exact ⟨_, rfl, hmin⟩
  | succ n ih =>
    obtain ⟨tmin, hscan, hle⟩ := ih fun k hk => ht k (Nat.lt_succ_of_lt hk)
    obtain ⟨hnonneg, hle'⟩ := ht n n.lt_succ_self
    refine ⟨if t n < tmin then t n else tmin, ?_, ?_⟩
    · show (scan n t).bind _ = _
      rw [hscan]
      exact if_neg (not_lt.mpr hnonneg)
    · split_ifs
      · exact hle'
      · exact hle

/-- A round is good if and only if its scan ends with at least `time_min`. -/
theorem scan_iff (hmin : timeMin ≤ ((10 : ℕ) ^ 20 : K)) {n : ℕ} {t : ℕ → K} :
    (∃ tmin, scan n t = some tmin ∧ timeMin ≤ tmin) ↔ ∀ k < n, 0 ≤ t k ∧ timeMin ≤ t k := by
  refine ⟨?_, scan_of_nonneg hmin⟩
  rintro ⟨tmin, hscan, hle⟩ k hk
  obtain ⟨hnonneg, hle'⟩ := (scan_some hscan).1 k hk
  exact ⟨hnonneg, hle.trans hle'⟩

/-- A scan is left at a negative reading, and at no other. -/
theorem scan_eq_none {n : ℕ} {t : ℕ → K} : scan n t = none ↔ ∃ k < n, t k < 0 := by
  induction n with
  | zero => exact iff_of_false nofun nofun
  | succ n ih =>
    have hstep : scan (n + 1) t = (scan n t).bind fun tmin =>
        if t n < 0 then none else some (if t n < tmin then t n else tmin) := rfl
    rw [Nat.exists_lt_succ_right, ← ih, hstep]
    cases scan n t with
    | none => exact iff_of_true rfl (Or.inl rfl)
    | some tmin =>
      rw [Option.bind_some]
      split_ifs with hneg
      · exact iff_of_true rfl (Or.inr hneg)
      · exact iff_of_false nofun fun h => h.elim nofun hneg

/-- When `iter` has reached its bound, the loop starts over. -/
theorem body_full {s : State T K} (hfull : s.iter = 2 ^ 30) :
    (rounds getTime elapsed timeRepeat timeMin).body s = some (.inr (startOver s)) := by
  have hfull' : ¬s.iter < 1073741824 := by rw [hfull]; decide
  simp only [rounds, if_neg hfull']

theorem At.startOver {m : ℕ} {s : State T K} (h : At getTime elapsed timeRepeat m s)
    (hfull : s.iter = 2 ^ 30) : At getTime elapsed timeRepeat m (startOver s) := by
  refine ⟨h.1, Or.inl ?_⟩
  rcases h.2 with hiter | ⟨-, hzero⟩
  · have hlt := pow_lt_pow_right₀ (by decide : (1 : ℤ) < 2)
      (exponent_lt getTime elapsed timeRepeat m)
    rw [← hiter, hfull] at hlt
    exact absurd hlt (lt_irrefl _)
  · rw [hzero]
    rfl

variable (getTime elapsed) in
/-- One pass through the loop. -/
theorem body_at (hmin : timeMin ≤ ((10 : ℕ) ^ 20 : K)) {m : ℕ} {s : State T K}
    (h : At getTime elapsed timeRepeat m s) (hmore : s.iter ≠ 2 ^ 30) :
    (Good getTime elapsed timeRepeat timeMin m ∧ ∃ u,
      (rounds getTime elapsed timeRepeat timeMin).body s = some (.inl (some u)) ∧
        Left getTime elapsed timeRepeat m u) ∨
    (¬Good getTime elapsed timeRepeat timeMin m ∧ ∃ u,
      (rounds getTime elapsed timeRepeat timeMin).body s = some (.inr u) ∧
        At getTime elapsed timeRepeat (m + 1) u) := by
  obtain ⟨hticks, hiter⟩ := h
  replace hiter := hiter.resolve_right fun h => hmore h.1
  have he := exponent_lt getTime elapsed timeRepeat m
  have hlt : s.iter < 1073741824 := by
    rw [hiter]
    exact (pow_lt_pow_right₀ (by decide) he : (2 : ℤ) ^ _ < 2 ^ 30)
  have hr : ∀ k, reading getTime elapsed timeRepeat m k
      = interval getTime elapsed (s.ticks + 2 * k) := fun k => by rw [hticks, reading]
  obtain ⟨hiter', hticks', hlog, ht⟩ := forRange_measure getTime elapsed s timeRepeat hr
  simp only [rounds, if_pos hlt]
  generalize forRange timeRepeat (measure getTime elapsed) s = u at hiter' hticks' hlog ht ⊢
  rw [hiter] at hiter' hlog
  have hnext : u.ticks = 2 + 2 * (timeRepeat * (m + 1)) := by
    rw [hticks', hticks, Nat.mul_succ]
    omega
  have hgood : Good getTime elapsed timeRepeat timeMin m ↔
      ∃ tmin, scan timeRepeat u.t = some tmin ∧ timeMin ≤ tmin := by
    rw [scan_iff hmin]
    exact forall₂_congr fun k hk => by rw [ht k hk]
  have hnegative : (∃ k < timeRepeat, reading getTime elapsed timeRepeat m k < 0) ↔
      scan timeRepeat u.t = none := by
    rw [scan_eq_none]
    exact exists_congr fun k => and_congr_right fun hk => by rw [ht k hk]
  have hexponent : exponent getTime elapsed timeRepeat (m + 1) =
      if scan timeRepeat u.t = none ∨ exponent getTime elapsed timeRepeat m + 1 = 30 then 0
      else exponent getTime elapsed timeRepeat m + 1 := by
    simp only [exponent, hnegative]
  rw [hgood]
  cases hscan : scan timeRepeat u.t with
  | none =>
    rw [hscan, if_pos (Or.inl rfl)] at hexponent
    refine Or.inr ⟨?_, startOver u, rfl, hnext, Or.inl (by rw [hexponent]; rfl)⟩
    rintro ⟨tmin, hnone, -⟩
    cases hnone
  | some tmin =>
    rw [hscan] at hexponent
    by_cases hle : timeMin ≤ tmin
    · exact Or.inl ⟨⟨tmin, rfl, hle⟩, u, if_pos hle, hiter', ⟨s.log, hlog⟩, ht⟩
    · refine Or.inr ⟨?_, { u with iter := 2 ^ (exponent getTime elapsed timeRepeat m + 1) }, ?_,
        hnext, ?_⟩
      · rintro ⟨tmin', hsome, hle'⟩
        exact hle (Option.some.inj hsome ▸ hle')
      · rw [hiter', int_double he]
        exact if_neg hle
      · by_cases hlast : exponent getTime elapsed timeRepeat m + 1 = 30
        · rw [if_pos (Or.inr hlast)] at hexponent
          exact Or.inr ⟨by rw [hlast], hexponent⟩
        · rw [if_neg (by simp [hlast])] at hexponent
          exact Or.inl (by rw [hexponent])

variable (getTime elapsed) in
/-- The loop after round `m`. -/
theorem run_at (hmin : timeMin ≤ ((10 : ℕ) ^ 20 : K)) {m : ℕ} {s : State T K}
    (h : At getTime elapsed timeRepeat m s) :
    (Good getTime elapsed timeRepeat timeMin m ∧ ∃ u,
      (rounds getTime elapsed timeRepeat timeMin).run s = some (some u) ∧
        Left getTime elapsed timeRepeat m u) ∨
    (¬Good getTime elapsed timeRepeat timeMin m ∧ ∃ u,
      (rounds getTime elapsed timeRepeat timeMin).run s
        = (rounds getTime elapsed timeRepeat timeMin).run u ∧
        At getTime elapsed timeRepeat (m + 1) u) := by
  wlog hmore : s.iter ≠ 2 ^ 30 generalizing s
  · have hone : (startOver s).iter ≠ 2 ^ 30 := (by decide : (1 : ℤ) ≠ 2 ^ 30)
    rw [ForEver.run_inr (body_full (not_not.mp hmore))]
    exact this (h.startOver (not_not.mp hmore)) hone
  · obtain ⟨hgood, u, hbody, hu⟩ | ⟨hbad, u, hbody, hu⟩ :=
      body_at getTime elapsed hmin h hmore
    · exact Or.inl ⟨hgood, u, ForEver.run_inl hbody, hu⟩
    · exact Or.inr ⟨hbad, u, ForEver.run_inr hbody, hu⟩

/-- The rounds up to the first one that is good enough. -/
theorem run_first (hmin : timeMin ≤ ((10 : ℕ) ^ 20 : K)) {m : ℕ}
    (hgood : Good getTime elapsed timeRepeat timeMin m)
    (hfirst : ∀ i < m, ¬Good getTime elapsed timeRepeat timeMin i) {i : ℕ} (hi : i ≤ m)
    {s : State T K} (h : At getTime elapsed timeRepeat i s) :
    ∃ u, (rounds getTime elapsed timeRepeat timeMin).run s = some (some u) ∧
      Left getTime elapsed timeRepeat m u := by
  induction hd : m - i generalizing i s with
  | zero =>
    obtain rfl : i = m := by omega
    obtain ⟨-, hu⟩ | ⟨hbad, -⟩ := run_at getTime elapsed hmin h
    · exact hu
    · exact absurd hgood hbad
  | succ d ih =>
    have hlt : i < m := by omega
    obtain ⟨hgood', -⟩ | ⟨-, u, hrun, hu⟩ :=
      run_at getTime elapsed hmin h
    · exact absurd hgood' (hfirst i hlt)
    · rw [hrun]
      exact ih hlt hu (by omega)

theorem run_eq_none (hmin : timeMin ≤ ((10 : ℕ) ^ 20 : K))
    (hbad : ∀ m, ¬Good getTime elapsed timeRepeat timeMin m) {m : ℕ} {s : State T K}
    (h : At getTime elapsed timeRepeat m s) :
    (rounds getTime elapsed timeRepeat timeMin).run s = none := by
  refine Option.eq_none_iff_forall_ne_some.mpr fun o hrun => ?_
  apply ForEver.run_induction (P := fun s => ∃ m, At getTime elapsed timeRepeat m s)
    (Q := fun _ => False) _ _ ⟨m, h⟩ hrun
  · rintro s o ⟨m, hs⟩ hbody
    by_cases hfull : s.iter = 2 ^ 30
    · rw [body_full hfull] at hbody
      cases hbody
    · obtain ⟨hgood, -⟩ | ⟨-, u, hbody', -⟩ := body_at getTime elapsed hmin hs hfull
      · exact hbad m hgood
      · rw [hbody'] at hbody
        cases hbody
  · rintro s u ⟨m, hs⟩ hbody
    by_cases hfull : s.iter = 2 ^ 30
    · rw [body_full hfull] at hbody
      cases hbody
      exact ⟨m, hs.startOver hfull⟩
    · obtain ⟨hgood, -⟩ | ⟨-, u', hbody', hu⟩ := body_at getTime elapsed hmin hs hfull
      · exact absurd hgood (hbad m)
      · rw [hbody'] at hbody
        cases hbody
        exact ⟨m + 1, hu⟩

/-- The end of the log: round `m`, and its report. -/
theorem finish_left {m : ℕ} {s : State T K} (hs : Left getTime elapsed timeRepeat m s)
    (setupTime : K) : ∃ pre, finish timeRepeat setupTime s = pre ++
      roundLog timeRepeat (2 ^ exponent getTime elapsed timeRepeat m)
        (reading getTime elapsed timeRepeat m) ++
      [.done, .report setupTime ((List.range timeRepeat).map fun k =>
        reading getTime elapsed timeRepeat m k /
          ((2 ^ exponent getTime elapsed timeRepeat m : ℤ) : K))] := by
  obtain ⟨hiter, ⟨pre, hlog⟩, ht⟩ := hs
  refine ⟨pre, ?_⟩
  unfold finish
  dsimp only [emit]
  rw [List.append_assoc, List.singleton_append, hlog]
  congr 4
  apply List.map_congr_left
  intro k hk
  rw [List.mem_range] at hk
  rw [forRange_update_apply timeRepeat (fun _ x => x / (s.iter : K)), if_pos hk, ht k hk, hiter]

/-- **When `speed` ends.**  It never does where no round is good enough; otherwise it reports the
first round that is, divided by the `iter` that it has been called with. -/
theorem speed_ends (hmin : timeMin ≤ ((10 : ℕ) ^ 20 : K)) (canDo : Problem → Bool) {p : Problem}
    (hcan : canDo p = true) (t : ℕ → K) (t0 : T) :
    ((∀ m, ¬Good getTime elapsed timeRepeat timeMin m) →
      speed getTime elapsed timeRepeat timeMin canDo t t0 p = none) ∧
    ∀ m, Good getTime elapsed timeRepeat timeMin m →
      (∀ i < m, ¬Good getTime elapsed timeRepeat timeMin i) → ∃ pre,
        speed getTime elapsed timeRepeat timeMin canDo t t0 p = some (.returned (pre ++
          roundLog timeRepeat (2 ^ exponent getTime elapsed timeRepeat m)
            (reading getTime elapsed timeRepeat m) ++
          [.done, .report (interval getTime elapsed 0) ((List.range timeRepeat).map fun k =>
            reading getTime elapsed timeRepeat m k /
              ((2 ^ exponent getTime elapsed timeRepeat m : ℤ) : K))])) := by
  unfold speed
  rw [if_pos hcan]
  dsimp only [timerStop, timerStart, emit]
  generalize hs : startOver _ = s
  have hstart : At getTime elapsed timeRepeat 0 s := by
    subst hs
    exact ⟨rfl, Or.inl rfl⟩
  refine ⟨fun hbad => ?_, fun m hgood hfirst => ?_⟩
  · rw [run_eq_none hmin hbad hstart]
    rfl
  · obtain ⟨u, hrun, hu⟩ := run_first hmin hgood hfirst m.zero_le hstart
    obtain ⟨pre, hfinish⟩ := finish_left hu (interval getTime elapsed 0)
    refine ⟨pre, ?_⟩
    rw [hrun, ← hfinish]
    rfl

/-- On a clock on which the intervals grow, the first round is too short and the second, which makes
two transforms for each reading, is not. -/
theorem speed_ends_growing : ∃ pre,
    speed id (fun _ t0 => ((t0 : ℕ) : ℚ)) 2 5 (fun _ => true) (fun _ => 0) 0 p8
      = some (.returned (pre ++ [.timerStart, .doit 2, .timerStop 6, .timerStart, .doit 2,
        .timerStop 8, .done, .report 0 [3, 4]])) := by
  have hreading : ∀ m k, reading id (fun _ t0 => ((t0 : ℕ) : ℚ)) 2 m k
      = ((2 + 2 * (2 * m) + 2 * k : ℕ) : ℚ) := fun _ _ => rfl
  have hgood : Good id (fun _ t0 => ((t0 : ℕ) : ℚ)) 2 5 1 := by
    intro k hk
    rw [hreading]
    exact ⟨Nat.cast_nonneg _, by exact_mod_cast (by omega : 5 ≤ 2 + 2 * (2 * 1) + 2 * k)⟩
  have hfirst : ∀ i < 1, ¬Good id (fun _ t0 => ((t0 : ℕ) : ℚ)) 2 5 i := by
    rintro i hi h
    obtain rfl : i = 0 := by omega
    have hlow := (h 0 two_pos).2
    rw [hreading] at hlow
    norm_num at hlow
  have hexponent : exponent id (fun _ t0 => ((t0 : ℕ) : ℚ)) 2 1 = 1 := by
    refine if_neg ?_
    rintro (⟨k, -, hneg⟩ | h)
    · exact absurd hneg (not_lt.mpr (Nat.cast_nonneg _))
    · cases h
  obtain ⟨pre, hrun⟩ :=
    (speed_ends (by norm_num) (fun _ => true) (p := p8) rfl (fun _ => 0) 0).2 1 hgood hfirst
  refine ⟨pre, hrun.trans ?_⟩
  rw [hexponent, List.append_assoc]
  norm_num [roundLog, List.range_succ, hreading, interval]

end BenchFFT.Speed
