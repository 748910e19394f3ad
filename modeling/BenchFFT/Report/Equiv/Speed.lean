import BenchFFT.Report.Speed
import Mathlib.Algebra.Order.Field.Basic
import Mathlib.Algebra.Order.Ring.Rat
import Mathlib.Data.List.Range
import Mathlib.Tactic.NormNum

/-!
# What `speed` reports is one measurement

A round overwrites all of `t` before it is looked at, so that nothing of an abandoned round is left
(`forRange_measure`).  The invariant of the loop (`Started`) is that since the last restart the
rounds with `iter = 1, 2, 4, …` have run, each without a negative reading and each with one below
`time_min`; `iter` is the next power of two, at most `2 ^ 30`.
-/

namespace BenchFFT.Speed

variable {T K : Type}

/-- One round, with the readings `r`. -/
def roundLog (timeRepeat : ℕ) (iter : ℤ) (r : ℕ → K) : List (Event K) :=
  (List.range timeRepeat).flatMap fun k => [.timerStart, .doit iter, .timerStop (r k)]

/-- The rounds with `iter = 1, 2, …, 2 ^ (e - 1)`. -/
def roundsLog (timeRepeat e : ℕ) (r : ℕ → ℕ → K) : List (Event K) :=
  (List.range e).flatMap fun j => roundLog timeRepeat (2 ^ j) (r j)

/-! ### A round -/

section Measure

variable {getTime : ℕ → T} {elapsed : T → T → K} (k : ℕ) (s : State T K)

@[simp] theorem measure_ticks : (measure getTime elapsed k s).ticks = s.ticks + 2 := rfl

@[simp] theorem measure_t : (measure getTime elapsed k s).t
    = Function.update s.t k (elapsed (getTime (s.ticks + 1)) (getTime s.ticks)) := rfl

@[simp] theorem measure_log : (measure getTime elapsed k s).log
    = s.log ++ [.timerStart, .doit s.iter,
        .timerStop (elapsed (getTime (s.ticks + 1)) (getTime s.ticks))] := by
  simp [measure, timerStart, timerStop, emit]

variable (getTime elapsed) in
/-- What `timer_stop` returns when the interval starts at a tick. -/
def interval (tick : ℕ) : K := elapsed (getTime (tick + 1)) (getTime tick)

variable (getTime elapsed) in
/-- The readings of a round fill `t`; each of them takes two ticks of the clock. -/
theorem forRange_measure (n : ℕ) {r : ℕ → K}
    (hr : ∀ k, r k = interval getTime elapsed (s.ticks + 2 * k)) :
    (forRange n (measure getTime elapsed) s).iter = s.iter ∧
      (forRange n (measure getTime elapsed) s).ticks = s.ticks + 2 * n ∧
      (forRange n (measure getTime elapsed) s).log = s.log ++ roundLog n s.iter r ∧
      ∀ k < n, (forRange n (measure getTime elapsed) s).t k = r k := by
  refine forRange_induction (fun i (u : State T K) => u.iter = s.iter ∧
    u.ticks = s.ticks + 2 * i ∧ u.log = s.log ++ roundLog i s.iter r ∧ ∀ k < i, u.t k = r k)
    ⟨rfl, rfl, by simp [roundLog], fun k hk => absurd hk (Nat.not_lt_zero k)⟩ ?_
  rintro i hi u ⟨hiter, hticks, hlog, ht⟩
  refine ⟨hiter, ?_, ?_, fun k hk => ?_⟩
  · rw [measure_ticks, hticks, Nat.mul_succ, Nat.add_assoc]
  · rw [measure_log, hlog, hiter, hticks, roundLog, roundLog, List.range_succ,
      List.flatMap_append, List.append_assoc, List.flatMap_singleton, hr i]
    rfl
  · rw [measure_t]
    rcases Nat.lt_succ_iff_lt_or_eq.mp hk with hk | rfl
    · rw [Function.update_of_ne hk.ne, ht k hk]
    · rw [Function.update_self, hticks, hr k]
      rfl

end Measure

/-- One more round in the log. -/
theorem roundsLog_update (n e : ℕ) (r : ℕ → ℕ → K) (r' : ℕ → K) :
    roundsLog n (e + 1) (Function.update r e r') = roundsLog n e r ++ roundLog n (2 ^ e) r' := by
  have hold : roundsLog n e (Function.update r e r') = roundsLog n e r := by
    unfold roundsLog
    refine List.flatMap_congr fun j hj => ?_
    rw [Function.update_of_ne (List.mem_range.mp hj).ne]
  rw [roundsLog, List.range_succ, List.flatMap_append, ← hold]
  simp [roundsLog]

variable [Field K] [LinearOrder K]

/-- A scan that is not left has found no negative reading, and the smallest one, if that is not
larger than where the scan starts. -/
theorem scan_some {n : ℕ} {t : ℕ → K} {tmin : K} (h : scan n t = some tmin) :
    (∀ k < n, 0 ≤ t k ∧ tmin ≤ t k) ∧ (tmin = ((10 : ℕ) ^ 20 : K) ∨ ∃ k < n, tmin = t k) := by
  induction n generalizing tmin with
  | zero =>
    have h' : ((10 : ℕ) ^ 20 : K) = tmin := Option.some.inj h
    exact ⟨fun k hk => absurd hk (Nat.not_lt_zero k), Or.inl h'.symm⟩
  | succ n ih =>
    obtain ⟨u, hu, hstep⟩ := Option.bind_eq_some_iff.mp h
    obtain ⟨hall, hmin⟩ := ih hu
    dsimp only at hstep
    split_ifs at hstep with hneg hlt
    · -- a new minimum
      obtain rfl := Option.some.inj hstep
      refine ⟨fun k hk => ?_, Or.inr ⟨n, n.lt_succ_self, rfl⟩⟩
      rcases Nat.lt_succ_iff_lt_or_eq.mp hk with hk | rfl
      · exact ⟨(hall k hk).1, hlt.le.trans (hall k hk).2⟩
      · exact ⟨not_lt.mp hneg, le_rfl⟩
    · obtain rfl := Option.some.inj hstep
      refine ⟨fun k hk => ?_, hmin.imp_right fun ⟨k, hk, heq⟩ => ⟨k, Nat.lt_succ_of_lt hk, heq⟩⟩
      rcases Nat.lt_succ_iff_lt_or_eq.mp hk with hk | rfl
      · exact hall k hk
      · exact ⟨not_lt.mp hneg, not_lt.mp hlt⟩

/-! ### The rounds -/

variable {getTime : ℕ → T} {elapsed : T → T → K} {timeRepeat : ℕ} {timeMin : K}

variable (timeRepeat timeMin) in
/-- Since the last restart, `e` rounds have run, and none of them was good enough. -/
def Rejected (e : ℕ) (r : ℕ → ℕ → K) (pre log : List (Event K)) : Prop :=
  log = pre ++ .startOver :: roundsLog timeRepeat e r ∧
    ∀ j < e, (∀ k < timeRepeat, 0 ≤ r j k) ∧ ∃ k < timeRepeat, r j k < timeMin

variable (timeRepeat timeMin) in
def Started (s : State T K) : Prop :=
  ∃ e ≤ 30, s.iter = 2 ^ e ∧ ∃ r pre, Rejected timeRepeat timeMin e r pre s.log

theorem started_startOver (s : State T K) : Started timeRepeat timeMin (startOver s) :=
  ⟨0, by decide, rfl, fun _ _ => 0, s.log, rfl, fun j hj => absurd hj (Nat.not_lt_zero j)⟩

variable (timeRepeat timeMin) in
/-- The last round, with `iter = 2 ^ e`, is good enough, and `t` holds its readings. -/
def Measured (s : State T K) : Prop :=
  ∃ e < 30, s.iter = 2 ^ e ∧ ∃ r pre,
    s.log = pre ++ .startOver :: roundsLog timeRepeat (e + 1) r ∧
    (∀ j < e, (∀ k < timeRepeat, 0 ≤ r j k) ∧ ∃ k < timeRepeat, r j k < timeMin) ∧
    ∀ k < timeRepeat, s.t k = r e k ∧ 0 ≤ r e k ∧ timeMin ≤ r e k

theorem int_double {e : ℕ} (he : e < 30) : int (2 ^ e * 2) = some (2 ^ (e + 1)) := by
  have hpow : (2 : ℤ) ^ e ≤ 2 ^ 29 := pow_le_pow_right₀ (by decide) (by omega)
  have hpos : (0 : ℤ) < 2 ^ e := pow_pos (by decide) e
  rw [pow_succ]
  exact int_eq (by omega) (by omega)

theorem lt_of_two_pow_lt {e : ℕ} (he : e ≤ 30) (h : (2 : ℤ) ^ e < 1073741824) : e < 30 := by
  by_contra hge
  obtain rfl : e = 30 := by omega
  exact absurd h (by decide)

variable (getTime elapsed) in
/-- One pass through the loop. -/
theorem rounds_body (hmin : timeMin ≤ ((10 : ℕ) ^ 20 : K)) {s : State T K}
    (hs : Started timeRepeat timeMin s) :
    (∃ s', (rounds getTime elapsed timeRepeat timeMin).body s = some (.inl (some s')) ∧
      Measured timeRepeat timeMin s') ∨
    ∃ s', (rounds getTime elapsed timeRepeat timeMin).body s = some (.inr s') ∧
      Started timeRepeat timeMin s' := by
  obtain ⟨e, he, hiter, r, pre, hlog, hbad⟩ := hs
  unfold rounds
  dsimp only
  split_ifs with hlt
  · obtain ⟨r', hr'⟩ : ∃ r : ℕ → K, ∀ k, r k = interval getTime elapsed (s.ticks + 2 * k) :=
      ⟨_, fun _ => rfl⟩
    obtain ⟨hiter', -, hlog', ht⟩ := forRange_measure getTime elapsed s timeRepeat hr'
    generalize forRange timeRepeat (measure getTime elapsed) s = u at hiter' hlog' ht ⊢
    have he' : e < 30 := lt_of_two_pow_lt he (hiter ▸ hlt)
    -- the log with the new round
    have hlog₂ : u.log = pre ++ .startOver :: roundsLog timeRepeat (e + 1)
        (Function.update r e r') := by
      rw [hlog', hlog, hiter, roundsLog_update, List.append_assoc, List.cons_append]
    have hold : ∀ j < e, (∀ k < timeRepeat, 0 ≤ Function.update r e r' j k) ∧
        ∃ k < timeRepeat, Function.update r e r' j k < timeMin := fun j hj => by
      rw [Function.update_of_ne hj.ne]
      exact hbad j hj
    cases hscan : scan timeRepeat u.t with
    | none => exact Or.inr ⟨_, rfl, started_startOver u⟩
    | some tmin =>
      obtain ⟨hall, hsmallest⟩ := scan_some hscan
      dsimp only
      split_ifs with hgood
      · refine Or.inl ⟨u, rfl, e, he', hiter'.trans hiter, _, pre, hlog₂, hold, fun k hk => ?_⟩
        rw [Function.update_self]
        have hk' := hall k hk
        rw [ht k hk] at hk'
        exact ⟨ht k hk, hk'.1, hgood.trans hk'.2⟩
      · right
        rw [hiter', hiter, int_double he']
        refine ⟨_, rfl, e + 1, he', rfl, _, pre, hlog₂, fun j hj => ?_⟩
        rcases Nat.lt_succ_iff_lt_or_eq.mp hj with hj | rfl
        · exact hold j hj
        · rw [Function.update_self]
          refine ⟨fun k hk => ht k hk ▸ (hall k hk).1, ?_⟩
          -- the minimum is below `time_min`, so it is that of the readings
          obtain rfl | ⟨k, hk, rfl⟩ := hsmallest
          · exact absurd hmin hgood
          · exact ⟨k, hk, ht k hk ▸ not_le.mp hgood⟩
  · exact Or.inr ⟨startOver s, rfl, started_startOver s⟩

/-! ### The report -/

/-- The loop is only left at `done`. -/
theorem rounds_run (hmin : timeMin ≤ ((10 : ℕ) ^ 20 : K)) {s : State T K}
    {o : Option (State T K)} (hrun : (rounds getTime elapsed timeRepeat timeMin).run s = some o)
    (hs : Started timeRepeat timeMin s) : ∃ s', o = some s' ∧ Measured timeRepeat timeMin s' := by
  apply ForEver.run_induction (P := Started timeRepeat timeMin)
    (Q := fun o => ∃ s', o = some s' ∧ Measured timeRepeat timeMin s') _ _ hs hrun
  · intro s o hs hbody
    rcases rounds_body getTime elapsed hmin hs with
      ⟨s', hbody', hs'⟩ | ⟨s', hbody', -⟩
    · rw [hbody'] at hbody
      obtain rfl := Sum.inl.inj (Option.some.inj hbody)
      exact ⟨s', rfl, hs'⟩
    · rw [hbody'] at hbody
      cases Option.some.inj hbody
  · intro s u hs hbody
    rcases rounds_body getTime elapsed hmin hs with
      ⟨s', hbody', -⟩ | ⟨s', hbody', hs'⟩
    · rw [hbody'] at hbody
      cases Option.some.inj hbody
    · rw [hbody'] at hbody
      obtain rfl := Sum.inr.inj (Option.some.inj hbody)
      exact hs'

/-- The log ends with one measurement: rounds that double `iter` from `1` to `2 ^ e`, the last one
good enough and the others not, none of them with a negative reading, and the report of the
readings of the last one, divided by `2 ^ e`. -/
def Consistent (timeRepeat : ℕ) (timeMin : K) (log : List (Event K)) : Prop :=
  ∃ e < 30, ∃ (r : ℕ → ℕ → K) (setupTime : K) (pre : List (Event K)),
    log = pre ++ .startOver :: roundsLog timeRepeat (e + 1) r ++
      [.done, .report setupTime ((List.range timeRepeat).map fun k => r e k / ((2 ^ e : ℤ) : K))] ∧
    (∀ k < timeRepeat, 0 ≤ r e k ∧ timeMin ≤ r e k) ∧
    ∀ j < e, (∀ k < timeRepeat, 0 ≤ r j k) ∧ ∃ k < timeRepeat, r j k < timeMin

theorem finish_consistent {s : State T K} (hs : Measured timeRepeat timeMin s) (setupTime : K) :
    Consistent timeRepeat timeMin (finish timeRepeat setupTime s) := by
  obtain ⟨e, he, hiter, r, pre, hlog, hold, hlast⟩ := hs
  refine ⟨e, he, r, setupTime, pre, ?_, fun k hk => (hlast k hk).2, hold⟩
  have hdiv : (List.range timeRepeat).map (forRange timeRepeat
      (fun k t => Function.update t k (t k / (s.iter : K))) s.t)
      = (List.range timeRepeat).map fun k => r e k / ((2 ^ e : ℤ) : K) := by
    apply List.map_congr_left
    intro k hk
    rw [List.mem_range] at hk
    rw [forRange_update_apply timeRepeat (fun _ x => x / (s.iter : K)), if_pos hk, (hlast k hk).1,
      hiter]
  show (s.log ++ [.done]) ++ [.report setupTime ((List.range timeRepeat).map (forRange timeRepeat
    (fun k t => Function.update t k (t k / (s.iter : K))) s.t))] = _
  rw [hdiv, hlog, List.append_assoc]
  rfl

/-- **What `speed` reports is one consistent measurement.**  Whatever the readings are, a run that
ends has stopped at the assertion, or it has reported; `iter` never overflows. -/
theorem speed_consistent {canDo : Problem → Bool} {t : ℕ → K} {t0 : T} {p : Problem}
    (hmin : timeMin ≤ ((10 : ℕ) ^ 20 : K)) {out : End K}
    (hrun : speed getTime elapsed timeRepeat timeMin canDo t t0 p = some out) :
    canDo p = false ∧ out = .assertFailed ∨
      ∃ log, out = .returned log ∧ Consistent timeRepeat timeMin log := by
  unfold speed at hrun
  split_ifs at hrun with hcan
  · right
    obtain ⟨o, hloop, hend⟩ := Option.bind_eq_some_iff.mp hrun
    obtain ⟨s, rfl, hs⟩ := rounds_run hmin hloop (started_startOver _)
    exact ⟨_, (Option.some.inj hend).symm, finish_consistent hs _⟩
  · left
    exact ⟨Bool.eq_false_iff.mpr hcan, (Option.some.inj hrun).symm⟩

/-- The problem `8`. -/
def p8 : Problem := ⟨.complex, [8], 8, [], 1, -1, false, false, "8".toList⟩

/-- A run on a clock on which every interval is `1`. -/
theorem speed_p8 : ∃ log, speed (fun _ => ()) (fun _ _ => (1 : ℚ)) 2 1 (fun _ => true)
    (fun _ => -1) () p8 = some (.returned log) := by
  have hrun : ∀ s : State Unit ℚ, (rounds (fun _ => ()) (fun _ _ => (1 : ℚ)) 2 1).run (startOver s)
      = some (some (forRange 2 (measure (fun _ => ()) fun _ _ => (1 : ℚ)) (startOver s))) := by
    intro s
    apply ForEver.run_inl
    norm_num [rounds, scan, forRange, forRangeM, startOver, emit, Function.update]
  simp only [speed, if_true, hrun]
  exact ⟨_, rfl⟩

theorem speed_consistent_p8 : ∃ log, speed (fun _ => ()) (fun _ _ => (1 : ℚ)) 2 1 (fun _ => true)
    (fun _ => -1) () p8 = some (.returned log) ∧ Consistent 2 1 log := by
  obtain ⟨log, hlog⟩ := speed_p8
  rcases speed_consistent (by norm_num) hlog with ⟨h, -⟩ | ⟨log', heq, h⟩
  · cases h
  · exact ⟨log', hlog.trans (congrArg some heq), h⟩

end BenchFFT.Speed
