import BenchFFT.Mp.Equiv.Bluestein
import BenchFFT.Mp.Process
import BenchFFT.Triple

/-!
# The cached tables over a whole process

A process keeps the tables valid exactly when only its last request needs them
(`tablesKept_iff`): `fftaccuracy_done` releases the tables, but the pointers and
`cached_bluestein_n` stay, so the next request reads or releases a block that is not live.

The static variables pass through three kinds of states: no tables (`Empty`), the tables for one
size (`Filled`), and pointers to released blocks (`Dangling`).  Each call is looked at once in each
kind.
-/

namespace BenchFFT.Mp

variable {A R : Type}

/-! ### The three kinds of states -/

/-- No tables were ever computed. -/
structure Empty (st : Statics A) : Prop where
  n : st.cachedBluesteinN = -1
  w : st.cachedBluesteinW = .null
  y : st.cachedBluesteinY = .null

/-- The tables are released, and the pointers to them stay. -/
structure Dangling (st : Statics A) : Prop where
  w : st.cachedBluesteinW = .released
  y : st.cachedBluesteinY = .released

theorem Empty.alloc {st : Statics A} (h : Empty st) : Empty st.alloc := ⟨h.n, h.w, h.y⟩

theorem Dangling.alloc {st : Statics A} (h : Dangling st) : Dangling st.alloc := ⟨h.w, h.y⟩

section Tables

variable [Zero A] [Add A] [Sub A] [Mul A] (f : ℤ → ℤ → A × A)

/-- The tables for `n` are cached. -/
def Filled (n : ℕ) (st : Statics A) : Prop :=
  st.cachedBluesteinN = n ∧ ∃ w y, TablesFor f n w y ∧ st.cachedBluesteinW = .live w ∧
    st.cachedBluesteinY = .live y

/-- No tables are cached, or those for `n`. -/
def Serves (n : ℕ) (st : Statics A) : Prop := Empty st ∨ Filled f n st

/-- Every call of `bluestein` so far has used the tables for its size. -/
def UsedRight (st : Statics A) : Prop := ∀ u ∈ st.used, TablesFor f u.n u.w u.y

variable {f} {n : ℕ} {st : Statics A}

theorem Serves.alloc (h : Serves f n st) : Serves f n st.alloc := h.imp Empty.alloc id

/-! ### Calls of `bluestein` -/

/-- The tables are there, or they are computed. -/
theorem Serves.tables (hn : 0 < n) (h : Serves f n st) :
    ∃ w y st', TablesFor f n w y ∧ bluesteinTables (fun m n => pure (f m n)) n
      (pow2Atleast (2 * n)) st = .ok ((w, y), st') ∧ Filled f n (st'.record n w y) ∧
        st'.used = st.used := by
  rcases h with hempty | ⟨hN, w, y, hwy, hw, hy⟩
  · obtain ⟨w, y, hwy, hrun⟩ := bluesteinTables_new f hn (.empty hempty.n hempty.w hempty.y)
    exact ⟨w, y, _, hwy, hrun, ⟨rfl, w, y, hwy, rfl, rfl⟩, rfl⟩
  · refine ⟨w, y, st, hwy, ?_, ⟨hN, w, y, hwy, hw, hy⟩, rfl⟩
    unfold bluesteinTables
    show (if st.cachedBluesteinN ≠ n then _ else _ : Prog A _) st = _
    rw [if_neg (not_not.mpr hN), hw, hy]
    rfl

/-- Dangling pointers are read through, or released again. -/
theorem bluesteinTables_dangling (cexp : ℤ → ℤ → Prog A (A × A)) (n nb : ℕ)
    (hst : Dangling st) : ∃ e, bluesteinTables cexp n nb st = .error e := by
  unfold bluesteinTables
  by_cases hn : st.cachedBluesteinN ≠ n
  · refine ⟨.releasedTwice, ?_⟩
    show (if st.cachedBluesteinN ≠ n then _ else _ : Prog A _) st = _
    rw [if_pos hn, hst.w]
    rfl
  · refine ⟨.notLive, ?_⟩
    show (if st.cachedBluesteinN ≠ n then _ else _ : Prog A _) st = _
    rw [if_neg hn, hst.w]
    rfl

end Tables

section Fft1

variable [Zero A] [Add A] [Sub A] [Mul A] [IntCast R] [Div R] {ar : PureArith R A} {n : ℕ}

theorem bluestein_leads (hn : 0 < n) (a : ℕ → A) :
    Leads (fun _ => False) (fun st => Serves ar.cexp n st ∧ UsedRight ar.cexp st)
      (fun st => Filled ar.cexp n st ∧ UsedRight ar.cexp st) (bluestein ar.toArith n a) := by
  rintro st ⟨hst, hused⟩
  obtain ⟨w, y, st', hwy, htables, hst', hused'⟩ := hst.alloc.tables hn
  obtain ⟨t, ht, -⟩ := pow2Atleast_spec (show 0 < 2 * n by omega)
  rw [ht] at htables
  obtain ⟨b₁, hforward⟩ := fft0_returns ar.cexp t (chirped n (2 ^ t) w a (st.fresh 0)) (-1)
  obtain ⟨b₂, hbackward⟩ := fft0_returns ar.cexp t (products (2 ^ t) b₁ y) 1
  rw [bluestein_run ar.toArith ht rfl htables hforward hbackward]
  refine ⟨⟨hst', List.forall_mem_cons.mpr ⟨hwy, ?_⟩⟩, trivial⟩
  rw [hused']
  exact hused

variable (ar) in
theorem bluestein_dangling (n : ℕ) (a : ℕ → A) {st : Statics A} (hst : Dangling st) :
    ∃ e, bluestein ar.toArith n a st = .error e := by
  obtain ⟨e, he⟩ :=
    bluesteinTables_dangling ar.toArith.cexpBuiltin n (pow2Atleast (2 * n)) hst.alloc
  refine ⟨e, ?_⟩
  unfold bluestein
  rw [Prog.bind_ok (benchMalloc_run st), PureArith.toArith]
  simp only [ofOption, pure_bind]
  exact Prog.bind_error he _

/-! ### Calls of `fft1` -/

theorem powerOfTwo_iff {n : ℕ} (hn : 1 ≤ n) : powerOfTwo n = true ↔ ∃ t, n = 2 ^ t := by
  rw [powerOfTwo, Bool.and_eq_true, decide_eq_true_eq, decide_eq_true_eq,
    Nat.and_sub_one_eq_zero_iff_isPowerOfTwo (by omega)]
  exact ⟨fun h => h.2, fun h => ⟨hn, h⟩⟩

variable (ar) in
theorem fft1_two_pow (hn : 1 ≤ n) (hpow : powerOfTwo n = true) (a : ℕ → A) (sign : ℤ) :
    ∃ a', fft1 ar.toArith n a sign = pure a' := by
  obtain ⟨t, rfl⟩ := (powerOfTwo_iff hn).mp hpow
  rw [fft1, if_pos hpow]
  exact fft0_returns ar.cexp t a sign

theorem fft1_leads (hn : 1 ≤ n) (hpow : powerOfTwo n = false) (a : ℕ → A) (sign : ℤ) :
    Leads (fun _ => False) (fun st => Serves ar.cexp n st ∧ UsedRight ar.cexp st)
      (fun st => Filled ar.cexp n st ∧ UsedRight ar.cexp st) (fft1 ar.toArith n a sign) := by
  rw [fft1_other _ hpow]
  exact (bluestein_leads hn _).bind fun _ => Leads.pure

theorem fft1_dangling (hn : 1 ≤ n) (a : ℕ → A) (sign : ℤ) :
    Leads (fun _ => True) Dangling Dangling (fft1 ar.toArith n a sign) := by
  cases hpow : powerOfTwo n with
  | true =>
    obtain ⟨a', ha'⟩ := fft1_two_pow ar hn hpow a sign
    rw [ha']
    exact Leads.pure
  | false =>
    intro st hst
    obtain ⟨e, he⟩ := bluestein_dangling ar n (if sign = 1 then swapri n a else a) hst
    rw [fft1_other _ hpow, Prog.bind_error he]
    trivial

end Fft1

/-! ### `fftaccuracy` and `fftaccuracy_done` -/

/-- A computation that returns. -/
theorem ofOption_leads {α : Type} {E : Stop → Prop} {P : Statics A → Prop} {o : Option α}
    (h : ∃ b, o = some b) : Leads E P P (ofOption o : Prog A α) := by
  obtain ⟨b, rfl⟩ := h
  exact Leads.pure

theorem fromrealv_toArith (ar : PureArith R A) (n : ℕ) (a : ℕ → BenchComplex R) (b : ℕ → A) :
    ∃ b', fromrealv ar.toArith n a b = some b' :=
  ⟨_, forRangeM_pure (m := Option) (fun _ _ _ => rfl) _⟩

section Accuracy

variable [Zero A] [Add A] [Sub A] [Mul A] [IntCast R] [Div R] [Zero R] [Add R] [Mul R] [Neg R]
  [LT R] [DecidableLT R] {ar : PureArith R A} {n : ℕ}

/-- A call of `fftaccuracy`, from what its two calls of `fft1` do. -/
theorem fftaccuracy_leads {E : Stop → Prop} {P Q : Statics A → Prop}
    (halloc : ∀ st, P st → P st.alloc)
    (hforward : ∀ a sign, Leads E P Q (fft1 ar.toArith n a sign))
    (hbackward : ∀ a sign, Leads E Q Q (fft1 ar.toArith n a sign)) (a ffta : ℕ → BenchComplex R)
    (sign : ℤ) : Leads E P Q (do let _ ← fftaccuracy ar.toArith n a ffta sign) := by
  have hmalloc : Leads E P P (benchMalloc : Prog A (ℕ → A)) := fun st hst =>
    ⟨halloc st hst, trivial⟩
  refine Leads.bind (Q := Q) ?_ fun _ => Leads.pure
  unfold fftaccuracy
  refine hmalloc.bind fun b => hmalloc.bind fun fftb => ?_
  refine (ofOption_leads ⟨_, rfl⟩).bind fun mn => (ofOption_leads ⟨_, rfl⟩).bind fun ninv => ?_
  refine (ofOption_leads (fromrealv_toArith ar n a b)).bind fun b => ?_
  refine (ofOption_leads (fromrealv_toArith ar n ffta fftb)).bind fun fftb => ?_
  refine (hforward b sign).bind fun b => ?_
  refine (ofOption_leads (fromrealv_toArith ar n a b)).bind fun b => ?_
  refine (ofOption_leads (fromrealv_toArith ar n ffta fftb)).bind fun fftb => ?_
  exact (hbackward _ (-sign)).bind fun _ => Leads.pure

end Accuracy

section Done

variable {st : Statics A}

theorem fftaccuracyDone_empty (hst : Empty st) : fftaccuracyDone st = .ok (⟨⟩, st) := by
  obtain ⟨N, w, W, Y, m, fresh, used⟩ := st
  obtain ⟨-, rfl, rfl⟩ := hst
  rfl

theorem fftaccuracyDone_filled {w y : ℕ → A} (hw : st.cachedBluesteinW = .live w)
    (hy : st.cachedBluesteinY = .live y) :
    ∃ st', fftaccuracyDone st = .ok (⟨⟩, st') ∧ Dangling st' ∧ st'.used = st.used := by
  obtain ⟨N, w, W, Y, m, fresh, used⟩ := st
  obtain rfl := hw
  obtain rfl := hy
  exact ⟨_, rfl, ⟨rfl, rfl⟩, rfl⟩

theorem fftaccuracyDone_dangling (hst : Dangling st) :
    fftaccuracyDone st = .error .releasedTwice := by
  obtain ⟨N, w, W, Y, m, fresh, used⟩ := st
  obtain ⟨rfl, rfl⟩ := hst
  rfl

end Done

/-! ### Requests -/

/-- The request never calls `bluestein`. -/
def Request.Skips (r : Request R) : Prop := powerOfTwo r.n = true ∨ r.rounds = []

section Requests

variable [Zero A] [Add A] [Sub A] [Mul A] [IntCast R] [Div R] [Zero R] [Add R] [Mul R] [Neg R]
  [LT R] [DecidableLT R] {ar : PureArith R A} {r : Request R}

variable (ar) in
/-- A request that never calls `bluestein` leaves no tables. -/
theorem doAccuracy_skips (hr : r.Skips) :
    Leads (fun _ => False) (fun st => Empty st ∧ UsedRight ar.cexp st)
      (fun st => Empty st ∧ UsedRight ar.cexp st) (doAccuracy ar.toArith r) := by
  refine Leads.bind (Q := fun st => Empty st ∧ UsedRight ar.cexp st) ?_ ?_
  · refine Leads.forM fun round hround => ?_
    -- no round, or calls of `fft0` only
    rcases hr with hpow | hnil
    · have hfft1 : ∀ a sign, Leads (fun _ => False) (fun st => Empty st ∧ UsedRight ar.cexp st)
          (fun st => Empty st ∧ UsedRight ar.cexp st) (fft1 ar.toArith r.n a sign) := by
        intro a sign
        obtain ⟨a', ha'⟩ := fft1_two_pow ar r.pos hpow a sign
        rw [ha']
        exact Leads.pure
      exact fftaccuracy_leads (fun st hst => ⟨hst.1.alloc, hst.2⟩) hfft1 hfft1 _ _ _
    · rw [hnil] at hround
      exact absurd hround List.not_mem_nil
  · rintro _ st hst
    rw [fftaccuracyDone_empty hst.1]
    exact ⟨hst, trivial⟩

variable (ar) in
/-- A request that calls `bluestein` leaves dangling pointers. -/
theorem doAccuracy_not_skips (hr : ¬r.Skips) :
    Leads (fun _ => False) (fun st => Empty st ∧ UsedRight ar.cexp st)
      (fun st => Dangling st ∧ UsedRight ar.cexp st) (doAccuracy ar.toArith r) := by
  obtain ⟨hpow, hnil⟩ := not_or.mp hr
  rw [Bool.not_eq_true] at hpow
  obtain ⟨round, rounds, hrounds⟩ := List.exists_cons_of_ne_nil hnil
  -- the first call fills the tables, the others find them
  have hround : ∀ round : (ℕ → BenchComplex R) × (ℕ → BenchComplex R), Leads (fun _ => False)
      (fun st => Serves ar.cexp r.n st ∧ UsedRight ar.cexp st)
      (fun st => Filled ar.cexp r.n st ∧ UsedRight ar.cexp st)
      (do let _ ← fftaccuracy ar.toArith r.n round.1 round.2 r.sign) := fun round =>
    fftaccuracy_leads (fun st hst => ⟨hst.1.alloc, hst.2⟩) (fft1_leads r.pos hpow)
      (fun a sign => (fft1_leads r.pos hpow a sign).weaken fun st hst => ⟨Or.inr hst.1, hst.2⟩)
      _ _ _
  rw [doAccuracy, hrounds]
  refine Leads.bind (Q := fun st => Filled ar.cexp r.n st ∧ UsedRight ar.cexp st) ?_ ?_
  · refine Leads.bind ((hround round).weaken fun st hst => ⟨Or.inl hst.1, hst.2⟩) fun _ => ?_
    exact Leads.forM fun round _ => (hround round).weaken fun st hst => ⟨Or.inr hst.1, hst.2⟩
  · rintro _ st ⟨⟨-, w, y, -, hw, hy⟩, hused⟩
    obtain ⟨st', hrun, hst', hused'⟩ := fftaccuracyDone_filled hw hy
    rw [hrun]
    refine ⟨⟨hst', ?_⟩, trivial⟩
    rw [UsedRight, hused']
    exact hused

variable (ar r) in
/-- With dangling pointers no request is served to its end. -/
theorem doAccuracy_dangling {st : Statics A} (hst : Dangling st) :
    ∃ e, doAccuracy ar.toArith r st = .error e := by
  have hrounds : Leads (fun _ => True) Dangling Dangling
      (r.rounds.forM fun round => do
        let _ ← fftaccuracy ar.toArith r.n round.1 round.2 r.sign : Prog A PUnit) :=
    Leads.forM fun round _ => fftaccuracy_leads (fun st hst => hst.alloc)
      (fft1_dangling r.pos) (fft1_dangling r.pos) _ _ _
  exact hrounds.bind_error (fun _ st hst => ⟨_, fftaccuracyDone_dangling hst⟩) hst

variable (ar) in
theorem serve_cons (r : Request R) (rs : List (Request R)) :
    serve ar.toArith (r :: rs) = doAccuracy ar.toArith r >>= fun _ => serve ar.toArith rs := rfl

variable (ar) in
/-- A run over requests, from a state without tables. -/
theorem serve_returns_iff (rs : List (Request R)) {st : Statics A} (hst : Empty st)
    (hused : UsedRight ar.cexp st) :
    (∃ st', serve ar.toArith rs st = .ok (⟨⟩, st') ∧ UsedRight ar.cexp st') ↔
      ∀ r ∈ rs.dropLast, r.Skips := by
  induction rs generalizing st with
  | nil => exact iff_of_true ⟨st, rfl, hused⟩ (List.forall_mem_nil _)
  | cons r rs ih =>
    rw [serve_cons]
    by_cases hr : r.Skips
    · obtain ⟨_, st₁, hrun, hst₁, hused₁⟩ := (doAccuracy_skips ar hr).exists_ok ⟨hst, hused⟩
      rw [Prog.bind_ok hrun, ih hst₁ hused₁]
      cases rs with
      | nil => exact iff_of_true (List.forall_mem_nil _) (List.forall_mem_nil _)
      | cons r' rs => rw [List.dropLast_cons_cons, List.forall_mem_cons, and_iff_right hr]
    · obtain ⟨_, st₁, hrun, hst₁, hused₁⟩ :=
        (doAccuracy_not_skips ar hr).exists_ok ⟨hst, hused⟩
      rw [Prog.bind_ok hrun]
      cases rs with
      | nil => exact iff_of_true ⟨st₁, rfl, hused₁⟩ (List.forall_mem_nil _)
      | cons r' rs =>
        rw [List.dropLast_cons_cons, List.forall_mem_cons]
        refine iff_of_false ?_ fun h => hr h.1
        rintro ⟨st', h, -⟩
        obtain ⟨e, he⟩ := doAccuracy_dangling ar r' hst₁
        rw [serve_cons, Prog.bind_error he] at h
        cases h

end Requests

/-! ### A whole process -/

section Process

variable [Zero A] [Add A] [Sub A] [Mul A] [IntCast R] [Div R] [Zero R] [Add R] [Mul R] [Neg R]
  [LT R] [DecidableLT R] (ar : PureArith R A) (blank : A) (fresh : ℕ → ℕ → A)

/-- No `int` overflows in a process that serves the requests `rs`; it returns, so it has read no
table through a pointer to no live block and has released no block twice; and every call of
`bluestein` has used the tables for its size. -/
structure TablesKept (rs : List (Request R)) : Prop where
  int : ∀ r ∈ rs, 2 * pow2Atleast (2 * r.n) < 2 ^ 31
  returns : ∃ st, serve ar.toArith rs (initialStatics blank fresh) = .ok (⟨⟩, st) ∧
    UsedRight ar.cexp st

/-- **When the tables stay valid**: exactly when no request that calls `bluestein` is followed by
another request. -/
theorem tablesKept_iff (rs : List (Request R)) :
    TablesKept ar blank fresh rs ↔ ∀ r ∈ rs.dropLast, r.Skips := by
  have hempty : Empty (initialStatics blank fresh) := ⟨rfl, rfl, rfl⟩
  rw [← serve_returns_iff ar rs hempty (List.forall_mem_nil _)]
  exact ⟨fun h => h.returns, fun h => ⟨fun r _ => two_mul_pow2Atleast_lt r.pos r.lt, h⟩⟩

end Process

/-! ### Two requests for one size -/

/-- Exact numbers. -/
noncomputable def exactPure : PureArith ℝ ℝ where
  fromreal x := x
  toreal x := x
  inv x := x⁻¹
  cexp := exactCexp
  sqrt x := Real.sqrt x

/-- One round of a transform of size `3`. -/
def request3 : Request ℝ where
  n := 3
  pos := by decide
  lt := by decide
  sign := -1
  rounds := [(fun _ => ⟨1, 0⟩, fun _ => ⟨0, 0⟩)]

/-- The second of two requests of size `3` reads released blocks. -/
theorem not_tablesKept_3_3 : ¬TablesKept exactPure 0 (fun _ _ => 0) [request3, request3] := by
  intro h
  have hempty : Empty (initialStatics (0 : ℝ) fun _ _ => 0) := ⟨rfl, rfl, rfl⟩
  have hskips := (serve_returns_iff exactPure _ hempty (List.forall_mem_nil _)).mp h.returns
    request3 List.mem_cons_self
  rcases hskips with hpow | hnil
  · exact absurd hpow (by decide)
  · exact absurd hnil (List.cons_ne_nil _ _)

end BenchFFT.Mp
