import Mathlib.Algebra.Group.Nat.Defs
import Mathlib.Data.Nat.Notation
import Mathlib.Logic.Function.Basic
import Mathlib.Order.Defs.LinearOrder
import Mathlib.Tactic.SplitIfs
import Mathlib.Tactic.TypeStar

/-!
# Loops over a state

`forRange n body s` is `for (i = 0; i < n; ++i) s = body(i, s)` and `forRangeM` is the same loop in
a monad.  A loop is reasoned about by an invariant (`forRange_induction`), or, when its steps only
write cells of an array, by what the array holds afterwards:

* `forRange_update_apply`: step `i` replaces cell `i` by a function of itself;
* `Fills f S v`: whatever the array held, `f` leaves `v k` in each cell `k` of `S` and does not
  touch the others.  `Fills` composes (`Fills.comp`) and passes through loops (`Fills.forRange`),
  so a loop nest that writes every cell once is read off its innermost write;
* `Patches get f S old new`: the same for steps that read what they replace.  Where the cells of `S`
  hold `old`, `f` leaves `new` in them; a loop over disjoint sets of cells does so on their union
  (`Patches.forRange`).

A loop in a monad whose steps are pure is a pure loop (`forRangeM_pure`), and the loops that step by
a stride or double their counter are counted loops (`forStep_eq`, `forDoubleM_two_pow`).

`ForEver` is a loop without a bound, which has a result only when it ends (`ForEver.exists_run`);
what it keeps holds of its result (`ForEver.run_induction`).
-/

namespace BenchFFT

universe u v

/-! ### Loops -/

/-- `for (i = 0; i < n; ++i) s = body(i, s)`. -/
def forRange {σ : Type*} : ℕ → (ℕ → σ → σ) → σ → σ
  | 0, _, s => s
  | n + 1, body, s => body n (forRange n body s)

/-- `for (i = a; i < b; ++i) s = body(i, s)`. -/
def forFrom {σ : Type*} (a b : ℕ) (body : ℕ → σ → σ) (s : σ) : σ :=
  forRange (b - a) (fun k => body (a + k)) s

/-- `forRange` in a monad. -/
def forRangeM {σ : Type u} {m : Type u → Type v} [Monad m] : ℕ → (ℕ → σ → m σ) → σ → m σ
  | 0, _, s => pure s
  | n + 1, body, s => forRangeM n body s >>= body n

/-- `forFrom` in a monad. -/
def forFromM {σ : Type u} {m : Type u → Type v} [Monad m] (a b : ℕ) (body : ℕ → σ → m σ) (s : σ) :
    m σ :=
  forRangeM (b - a) (fun k => body (a + k)) s

/-- `for (i = n - 1; i >= 0; --i) s = body(i, s)`, in a monad. -/
def forDownM {σ : Type u} {m : Type u → Type v} [Monad m] : ℕ → (ℕ → σ → m σ) → σ → m σ
  | 0, _, s => pure s
  | n + 1, body, s => body n s >>= forDownM n body

/-- `for (; k < n; k += step) s = body(k, s)`. -/
def forStep {σ : Type*} (k n step : ℕ) (body : ℕ → σ → σ) (s : σ) : σ :=
  if 0 < step ∧ k < n then forStep (k + step) n step body (body k s) else s
termination_by n - k

/-- `for (; i < n; i = 2 * i) s = body(i, s)`, in a monad. -/
def forDoubleM {σ : Type u} {m : Type u → Type v} [Monad m] (i n : ℕ) (body : ℕ → σ → m σ)
    (s : σ) : m σ :=
  if 0 < i ∧ i < n then body i s >>= forDoubleM (2 * i) n body else pure s
termination_by n - i

/-- The body of `for (;;)`: it leaves the loop with a result, or goes on from a new state. -/
structure ForEver (σ τ : Type) where
  body : σ → Option (τ ⊕ σ)

/-- The result of the loop; there is none when the loop never ends, or a body has none. -/
def ForEver.run {σ τ : Type} (l : ForEver σ τ) (s : σ) : Option τ := do
  match ← l.body s with
  | .inl t => return t
  | .inr s => l |>.run s
partial_fixpoint

section Rules

variable {σ : Type*}

@[simp] theorem forRange_zero (body : ℕ → σ → σ) (s : σ) : forRange 0 body s = s := rfl

theorem forRange_succ (n : ℕ) (body : ℕ → σ → σ) (s : σ) :
    forRange (n + 1) body s = body n (forRange n body s) := rfl

/-- The invariant rule of a counted loop. -/
theorem forRange_induction {n : ℕ} {body : ℕ → σ → σ} {s : σ} (P : ℕ → σ → Prop) (h0 : P 0 s)
    (hstep : ∀ i < n, ∀ t, P i t → P (i + 1) (body i t)) : P n (forRange n body s) := by
  induction n with
  | zero => exact h0
  | succ n ih =>
    exact hstep n n.lt_succ_self _ (ih fun i hi => hstep i (Nat.lt_succ_of_lt hi))

/-- A routine that succeeds goes on with what it returns. -/
theorem bind_ok {ε : Type*} {α β : Type u} {x : Except ε α} {a : α} (h : x = .ok a)
    (f : α → Except ε β) : (x >>= f) = f a := by
  rw [h]
  rfl

/-- A loop whose steps all succeed. -/
theorem forRangeM_ok {ε : Type*} {n : ℕ} {f : ℕ → σ → Except ε σ} {g : ℕ → σ → σ}
    (h : ∀ i < n, ∀ t, f i t = .ok (g i t)) (s : σ) :
    forRangeM n f s = .ok (forRange n g s) := by
  induction n with
  | zero => rfl
  | succ n ih =>
    rw [forRangeM, ih fun i hi => h i (Nat.lt_succ_of_lt hi)]
    exact h n n.lt_succ_self _

end Rules

theorem forRangeM_congr {σ : Type u} {m : Type u → Type v} [Monad m] {n : ℕ}
    {body body' : ℕ → σ → m σ} (h : ∀ i < n, body i = body' i) (s : σ) :
    forRangeM n body s = forRangeM n body' s := by
  induction n with
  | zero => rfl
  | succ n ih =>
    rw [forRangeM, forRangeM, ih fun i hi => h i (Nat.lt_succ_of_lt hi), h n n.lt_succ_self]

/-! ### Loops in a monad, loops with a stride -/

section Monad

variable {σ : Type u} {m : Type u → Type v} [Monad m] [LawfulMonad m]

theorem forRangeM_pure {n : ℕ} {body : ℕ → σ → m σ} {g : ℕ → σ → σ}
    (h : ∀ i < n, ∀ t, body i t = pure (g i t)) (s : σ) :
    forRangeM n body s = pure (forRange n g s) := by
  induction n with
  | zero => rfl
  | succ n ih =>
    rw [forRangeM, ih fun i hi => h i (Nat.lt_succ_of_lt hi), pure_bind, h n n.lt_succ_self]
    rfl

/-- The invariant rule of a loop whose steps are pure in the states that the invariant allows. -/
theorem forRangeM_exists {n : ℕ} {body : ℕ → σ → m σ} {s : σ} (P : ℕ → σ → Prop) (h0 : P 0 s)
    (hstep : ∀ i < n, ∀ t, P i t → ∃ t', body i t = pure t' ∧ P (i + 1) t') :
    ∃ t, forRangeM n body s = pure t ∧ P n t := by
  induction n with
  | zero => exact ⟨s, rfl, h0⟩
  | succ n ih =>
    obtain ⟨t, hrun, ht⟩ := ih fun i hi => hstep i (Nat.lt_succ_of_lt hi)
    obtain ⟨t', hbody, ht'⟩ := hstep n n.lt_succ_self t ht
    exact ⟨t', by rw [forRangeM, hrun, pure_bind, hbody], ht'⟩

/-- The invariant rule of a loop that counts down. -/
theorem forDownM_exists {n : ℕ} {body : ℕ → σ → m σ} {s : σ} (P : ℕ → σ → Prop) (hn : P n s)
    (hstep : ∀ i < n, ∀ t, P (i + 1) t → ∃ t', body i t = pure t' ∧ P i t') :
    ∃ t, forDownM n body s = pure t ∧ P 0 t := by
  induction n generalizing s with
  | zero => exact ⟨s, rfl, hn⟩
  | succ n ih =>
    obtain ⟨u, hbody, hu⟩ := hstep n n.lt_succ_self s hn
    obtain ⟨t, hrun, ht⟩ := ih hu fun i hi => hstep i (Nat.lt_succ_of_lt hi)
    exact ⟨t, by rw [forDownM, hbody, pure_bind, hrun], ht⟩

/-- The first step of a loop, split off. -/
theorem forRangeM_succ' (n : ℕ) (body : ℕ → σ → m σ) (s : σ) :
    forRangeM (n + 1) body s = body 0 s >>= forRangeM n (fun i => body (i + 1)) := by
  induction n with
  | zero =>
    rw [forRangeM, forRangeM, pure_bind]
    exact (bind_pure (body 0 s)).symm
  | succ n ih =>
    rw [forRangeM, ih, bind_assoc]
    rfl

/-- A loop that doubles its counter from `2 ^ d` up to `2 ^ (d + t)`. -/
theorem forDoubleM_two_pow (d t : ℕ) (body : ℕ → σ → m σ) (s : σ) :
    forDoubleM (2 ^ d) (2 ^ (d + t)) body s = forRangeM t (fun i => body (2 ^ (d + i))) s := by
  induction t generalizing d s with
  | zero =>
    rw [forDoubleM, if_neg fun h => absurd h.2 (by rw [Nat.add_zero]; exact Nat.lt_irrefl _)]
    rfl
  | succ t ih =>
    have hlt : 2 ^ d < 2 ^ (d + (t + 1)) := Nat.pow_lt_pow_right Nat.one_lt_two (by omega)
    rw [forDoubleM, if_pos ⟨Nat.two_pow_pos d, hlt⟩, forRangeM_succ']
    congr 1
    funext s
    rw [← Nat.pow_succ', show d + (t + 1) = d + 1 + t by omega, ih]
    congr 1
    funext i
    rw [show d + 1 + i = d + (i + 1) by omega]

theorem forDoubleM_one_two_pow (t : ℕ) (body : ℕ → σ → m σ) (s : σ) :
    forDoubleM 1 (2 ^ t) body s = forRangeM t (fun i => body (2 ^ i)) s := by
  have h := forDoubleM_two_pow 0 t body s
  simp only [Nat.pow_zero, Nat.zero_add] at h
  exact h

end Monad

/-- A loop with a part of the state that is known before each step. -/
theorem forRangeM_track {σ τ : Type u} {m : Type u → Type v} [Monad m] [LawfulMonad m] {n : ℕ}
    (body : ℕ → τ × σ → m (τ × σ)) {body' : ℕ → σ → m σ} (a : ℕ → τ)
    (h : ∀ i < n, ∀ s, body i (a i, s) = body' i s >>= fun s => pure (a (i + 1), s)) (s : σ) :
    forRangeM n body (a 0, s) = forRangeM n body' s >>= fun s => pure (a n, s) := by
  induction n with
  | zero => rw [forRangeM, forRangeM, pure_bind]
  | succ n ih =>
    rw [forRangeM, ih fun i hi => h i (Nat.lt_succ_of_lt hi), forRangeM, bind_assoc, bind_assoc]
    refine bind_congr fun s => ?_
    rw [pure_bind, h n n.lt_succ_self]

/-! ### Loops without a bound -/

namespace ForEver

variable {σ τ : Type} {l : ForEver σ τ}

theorem run_inl {s : σ} {t : τ} (h : l.body s = some (.inl t)) : l.run s = some t := by
  rw [run, h]
  rfl

theorem run_inr {s s' : σ} (h : l.body s = some (.inr s')) : l.run s = l.run s' := by
  rw [run, h]
  rfl

theorem run_none {s : σ} (h : l.body s = none) : l.run s = none := by
  rw [run, h]
  rfl

/-- A loop ends when each of its bodies makes a number smaller. -/
theorem exists_run {P : σ → Prop} {Q : τ → Prop} (μ : σ → ℕ)
    (hstep : ∀ s, P s → (∃ t, l.body s = some (.inl t) ∧ Q t) ∨
      ∃ s', l.body s = some (.inr s') ∧ P s' ∧ μ s' < μ s) {s : σ} (hs : P s) :
    ∃ t, l.run s = some t ∧ Q t := by
  induction hn : μ s using Nat.strongRecOn generalizing s with
  | _ n ih =>
    rcases hstep s hs with ⟨t, hbody, ht⟩ | ⟨s', hbody, hs', hlt⟩
    · exact ⟨t, run_inl hbody, ht⟩
    · rw [run_inr hbody]
      exact ih _ (hn ▸ hlt) hs' rfl

/-- What every body keeps holds of the result, if there is one. -/
theorem run_induction {P : σ → Prop} {Q : τ → Prop}
    (hinl : ∀ s t, P s → l.body s = some (.inl t) → Q t)
    (hinr : ∀ s s', P s → l.body s = some (.inr s') → P s') {s : σ} {t : τ}
    (hs : P s) (hrun : l.run s = some t) : Q t := by
  refine run.partial_correctness l (fun s t => P s → Q t) (fun f hf s t h hs => ?_) s t hrun hs
  obtain ⟨r, hbody, hr⟩ := Option.bind_eq_some_iff.mp h
  match r with
  | .inl t' =>
    obtain rfl := Option.some.inj hr
    exact hinl s _ hs hbody
  | .inr s' => exact hf s' t hr (hinr s s' hs hbody)

end ForEver

theorem forRange_congr {σ : Type*} {n : ℕ} {body body' : ℕ → σ → σ}
    (h : ∀ i < n, body i = body' i) (s : σ) : forRange n body s = forRange n body' s := by
  induction n with
  | zero => rfl
  | succ n ih =>
    rw [forRange_succ, forRange_succ, ih fun i hi => h i (Nat.lt_succ_of_lt hi),
      h n n.lt_succ_self]

theorem forRange_add {σ : Type*} (m n : ℕ) (body : ℕ → σ → σ) (s : σ) :
    forRange (m + n) body s = forRange n (fun i => body (m + i)) (forRange m body s) := by
  induction n with
  | zero => rfl
  | succ n ih =>
    rw [← Nat.add_assoc, forRange_succ, forRange_succ, ih]

theorem forRange_succ' {σ : Type*} (n : ℕ) (body : ℕ → σ → σ) (s : σ) :
    forRange (n + 1) body s = forRange n (fun i => body (i + 1)) (body 0 s) := by
  induction n with
  | zero => rfl
  | succ n ih =>
    rw [forRange_succ, ih]
    rfl

/-- A loop with a stride, as many steps as fit below `n`. -/
theorem forStep_eq {σ : Type*} {step n : ℕ} (hstep : 0 < step) (q k : ℕ) (body : ℕ → σ → σ)
    (hlt : ∀ r < q, k + r * step < n) (hle : n ≤ k + q * step) (s : σ) :
    forStep k n step body s = forRange q (fun r => body (k + r * step)) s := by
  induction q generalizing k s with
  | zero =>
    rw [forStep, if_neg (by omega)]
    rfl
  | succ q ih =>
    have hk := hlt 0 q.succ_pos
    rw [Nat.zero_mul, Nat.add_zero] at hk
    -- the first step apart, the others start one later
    have hshift : ∀ r, k + step + r * step = k + (r + 1) * step := fun r => by
      rw [Nat.succ_mul]
      omega
    have hlt' : ∀ r < q, k + step + r * step < n := fun r hr => by
      rw [hshift]
      exact hlt (r + 1) (Nat.succ_lt_succ hr)
    rw [forStep, if_pos ⟨hstep, hk⟩, ih (k + step) hlt' (by rwa [hshift]), forRange_succ',
      Nat.zero_mul, Nat.add_zero]
    simp only [hshift]

/-! ### Rows of an index

Column `k` of row `r`, in rows of `n` cells. -/

section Rows

variable {n r k : ℕ}

theorem row_div (hk : k < n) : (r * n + k) / n = r := by
  rw [Nat.add_comm, Nat.add_mul_div_right _ _ (by omega), Nat.div_eq_of_lt hk, Nat.zero_add]

theorem row_mod (hk : k < n) : (r * n + k) % n = k := by
  rw [Nat.mul_add_mod', Nat.mod_eq_of_lt hk]

theorem exists_row {N l : ℕ} (hl : l < N * n) : ∃ r < N, ∃ k < n, l = r * n + k := by
  have hn : 0 < n := Nat.pos_of_mul_pos_left (Nat.zero_lt_of_lt hl)
  exact ⟨l / n, Nat.div_lt_of_lt_mul (by rwa [Nat.mul_comm]), l % n, Nat.mod_lt _ hn,
    (Nat.div_add_mod' l n).symm⟩

theorem row_inj {r' k' : ℕ} (hk : k < n) (hk' : k' < n) (h : r * n + k = r' * n + k') :
    r = r' ∧ k = k' := by
  have hdiv := congrArg (· / n) h
  have hmod := congrArg (· % n) h
  simp only [row_div hk, row_div hk', row_mod hk, row_mod hk'] at hdiv hmod
  exact ⟨hdiv, hmod⟩

theorem row_lt {B : ℕ} (hr : (r + 1) * n ≤ B) (hk : k < n) : r * n + k < B := by
  rw [Nat.succ_mul] at hr
  omega

end Rows

/-! ### Loops that write an array -/

variable {α : Type*}

/-- A loop whose step `i` replaces cell `i` by a function of itself. -/
theorem forRange_update_apply (n : ℕ) (g : ℕ → α → α) (A : ℕ → α) (k : ℕ) :
    forRange n (fun i A => Function.update A i (g i (A i))) A k
      = if k < n then g k (A k) else A k := by
  induction n with
  | zero => simp
  | succ n ih =>
    rw [forRange_succ]
    rcases eq_or_ne k n with rfl | hne
    · rw [Function.update_self, if_pos k.lt_succ_self]
      congr 1
      have : ∀ m ≤ k, forRange m (fun i A => Function.update A i (g i (A i))) A k = A k := by
        intro m hm
        refine forRange_induction (fun _ (B : ℕ → α) => B k = A k) rfl fun i hi B hB => ?_
        rw [Function.update_of_ne (by omega), hB]
      exact this k (Nat.le_refl k)
    · rw [Function.update_of_ne hne, ih]
      split_ifs <;> first | rfl | omega

/-- A loop whose step `j` writes the cells `p j` and `q j`, which are different from the cells of
every other step. -/
theorem forRange_update_pair {m : ℕ} {p q : ℕ → ℕ} (a b : ℕ → α)
    (hp : ∀ i < m, ∀ j < m, p i = p j → i = j) (hq : ∀ i < m, ∀ j < m, q i = q j → i = j)
    (hpq : ∀ i < m, ∀ j < m, p i = q j → i = j) (A : ℕ → α) :
    ∃ B, forRange m
        (fun j A => Function.update (Function.update A (p j) (a j)) (q j) (b j)) A = B ∧
      (∀ j < m, p j ≠ q j → B (p j) = a j) ∧ (∀ j < m, B (q j) = b j) ∧
      ∀ i, (∀ j < m, i ≠ p j ∧ i ≠ q j) → B i = A i := by
  refine ⟨_, rfl, forRange_induction (fun n (B : ℕ → α) => (∀ j < n, p j ≠ q j → B (p j) = a j) ∧
    (∀ j < n, B (q j) = b j) ∧ ∀ i, (∀ j < n, i ≠ p j ∧ i ≠ q j) → B i = A i) ?_ ?_⟩
  · exact ⟨fun j hj => absurd hj (Nat.not_lt_zero j), fun j hj => absurd hj (Nat.not_lt_zero j),
      fun _ _ => rfl⟩
  · rintro n hn B ⟨hpB, hqB, hother⟩
    refine ⟨fun j hj hne => ?_, fun j hj => ?_, fun i hi => ?_⟩
    · rcases Nat.lt_succ_iff_lt_or_eq.mp hj with hj | rfl
      · rw [Function.update_of_ne fun h => Nat.ne_of_lt hj (hpq j (Nat.lt_trans hj hn) n hn h),
          Function.update_of_ne fun h => Nat.ne_of_lt hj (hp j (Nat.lt_trans hj hn) n hn h),
          hpB j hj hne]
      · rw [Function.update_of_ne hne, Function.update_self]
    · rcases Nat.lt_succ_iff_lt_or_eq.mp hj with hj | rfl
      · rw [Function.update_of_ne fun h => Nat.ne_of_lt hj (hq j (Nat.lt_trans hj hn) n hn h),
          Function.update_of_ne fun h => Nat.ne_of_gt hj (hpq n hn j (Nat.lt_trans hj hn) h.symm),
          hqB j hj]
      · rw [Function.update_self]
    · rw [Function.update_of_ne (hi n n.lt_succ_self).2,
        Function.update_of_ne (hi n n.lt_succ_self).1]
      exact hother i fun j hj => hi j (Nat.lt_succ_of_lt hj)

/-- `f` writes `v k` into each cell `k` of `S`, and nothing else. -/
structure Fills (f : (ℕ → α) → ℕ → α) (S : ℕ → Prop) (v : ℕ → α) : Prop where
  on : ∀ B k, S k → f B k = v k
  off : ∀ B k, ¬S k → f B k = B k

namespace Fills

variable {f g : (ℕ → α) → ℕ → α} {S T : ℕ → Prop} {v : ℕ → α}

theorem update {i : ℕ} {x : α} (h : x = v i) :
    Fills (fun B => Function.update B i x) (· = i) v where
  on B k hk := by rw [hk, Function.update_self, h]
  off B k hk := Function.update_of_ne hk _ _

theorem congr (hf : Fills f S v) (hST : ∀ k, S k ↔ T k) : Fills f T v where
  on B k hk := hf.on B k ((hST k).mpr hk)
  off B k hk := hf.off B k (mt (hST k).mp hk)

theorem comp (hg : Fills g T v) (hf : Fills f S v) :
    Fills (fun B => g (f B)) (fun k => S k ∨ T k) v where
  on B k hk := by
    by_cases hT : T k
    · exact hg.on _ k hT
    · rw [hg.off _ k hT]
      exact hf.on B k (hk.resolve_right hT)
  off B k hk := by
    rw [not_or] at hk
    rw [hg.off _ k hk.2, hf.off B k hk.1]

theorem forRange {n : ℕ} {body : ℕ → (ℕ → α) → ℕ → α} {S : ℕ → ℕ → Prop}
    (h : ∀ i < n, Fills (body i) (S i) v) :
    Fills (BenchFFT.forRange n body) (fun k => ∃ i < n, S i k) v := by
  induction n with
  | zero => exact ⟨fun B k hk => absurd hk.choose_spec.1 (Nat.not_lt_zero _), fun B k _ => rfl⟩
  | succ n ih =>
    have hn := comp (h n n.lt_succ_self) (ih fun i hi => h i (Nat.lt_succ_of_lt hi))
    refine ⟨fun B k hk => hn.on B k ?_, fun B k hk => hn.off B k ?_⟩
    · obtain ⟨i, hi, hS⟩ := hk
      rcases Nat.lt_succ_iff_lt_or_eq.mp hi with hi | rfl
      · exact Or.inl ⟨i, hi, hS⟩
      · exact Or.inr hS
    · rintro (⟨i, hi, hS⟩ | hS)
      · exact hk ⟨i, Nat.lt_succ_of_lt hi, hS⟩
      · exact hk ⟨n, n.lt_succ_self, hS⟩

/-- `n` rows of `m` cells each. -/
theorem rows (n m : ℕ) (f : ℕ → ℕ → α) :
    Fills (BenchFFT.forRange n fun i => BenchFFT.forRange m fun k B =>
      Function.update B (i * m + k) (f i k)) (· < n * m) (fun j => f (j / m) (j % m)) := by
  refine (forRange fun i _ => forRange fun k hk => update ?_).congr fun j => ?_
  · rw [row_div hk, row_mod hk]
  · constructor
    · rintro ⟨i, hi, k, hk, rfl⟩
      exact row_lt (Nat.mul_le_mul_right m hi) hk
    · exact exists_row

end Fills

/-! ### Loops that replace what they read -/

/-- Where the cells of `S` hold `old`, `f` leaves `new` in them; it changes no other cell.  The
cells are seen through `get`. -/
structure Patches {σ β : Type*} (get : σ → ℕ → β) (f : σ → σ) (S : ℕ → Prop) (old new : ℕ → β) :
    Prop where
  on : ∀ s, (∀ k, S k → get s k = old k) → ∀ k, S k → get (f s) k = new k
  off : ∀ s k, ¬S k → get (f s) k = get s k

namespace Patches

variable {σ β : Type*} {get : σ → ℕ → β} {f g : σ → σ} {S T : ℕ → Prop} {old mid new : ℕ → β}

theorem congr (hf : Patches get f S old new) (hST : ∀ k, S k ↔ T k) :
    Patches get f T old new where
  on s hs k hk := hf.on s (fun l hl => hs l ((hST l).mp hl)) k ((hST k).mpr hk)
  off s k hk := hf.off s k (mt (hST k).mp hk)

/-- More cells, of which the others are to stay. -/
theorem mono (hf : Patches get f S old new) (hST : ∀ k, S k → T k)
    (hrest : ∀ k, T k → ¬S k → old k = new k) : Patches get f T old new where
  on s hs k hk := by
    by_cases h : S k
    · exact hf.on s (fun l hl => hs l (hST l hl)) k h
    · rw [hf.off s k h, hs k hk, hrest k hk h]
  off s k hk := hf.off s k (mt (hST k) hk)

/-- Two parts that replace disjoint sets of cells. -/
theorem comp (hg : Patches get g T old new) (hf : Patches get f S old new)
    (hdisj : ∀ k, S k → ¬T k) : Patches get (fun s => g (f s)) (fun k => S k ∨ T k) old new where
  on s hs k hk := by
    have hT : ∀ l, T l → get (f s) l = old l := by
      intro l hl
      rw [hf.off s l fun hS => hdisj l hS hl, hs l (Or.inr hl)]
    by_cases h : T k
    · exact hg.on _ hT k h
    · rw [hg.off _ k h]
      exact hf.on s (fun l hl => hs l (Or.inl hl)) k (hk.resolve_right h)
  off s k hk := by
    rw [not_or] at hk
    rw [hg.off _ k hk.2, hf.off s k hk.1]

/-- Two parts that replace the same cells. -/
theorem trans (hg : Patches get g S mid new) (hf : Patches get f S old mid) :
    Patches get (fun s => g (f s)) S old new where
  on s hs := hg.on _ (hf.on s hs)
  off s k hk := by rw [hg.off _ k hk, hf.off s k hk]

/-- A loop whose steps replace disjoint sets of cells. -/
theorem forRange {n : ℕ} {body : ℕ → σ → σ} {S : ℕ → ℕ → Prop}
    (h : ∀ i < n, Patches get (body i) (S i) old new)
    (hdisj : ∀ i < n, ∀ j < n, ∀ k, S i k → S j k → i = j) :
    Patches get (BenchFFT.forRange n body) (fun k => ∃ i < n, S i k) old new := by
  induction n with
  | zero => exact ⟨fun s _ k hk => absurd hk.choose_spec.1 (Nat.not_lt_zero _), fun s k _ => rfl⟩
  | succ n ih =>
    have ih := ih (fun i hi => h i (Nat.lt_succ_of_lt hi))
      fun i hi j hj => hdisj i (Nat.lt_succ_of_lt hi) j (Nat.lt_succ_of_lt hj)
    have hlast := comp (h n n.lt_succ_self) ih fun k ⟨i, hi, hS⟩ hn =>
      Nat.ne_of_lt hi (hdisj i (Nat.lt_succ_of_lt hi) n n.lt_succ_self k hS hn)
    refine hlast.congr fun k => ⟨?_, ?_⟩
    · rintro (⟨i, hi, hS⟩ | hS)
      · exact ⟨i, Nat.lt_succ_of_lt hi, hS⟩
      · exact ⟨n, n.lt_succ_self, hS⟩
    · rintro ⟨i, hi, hS⟩
      rcases Nat.lt_succ_iff_lt_or_eq.mp hi with hi | rfl
      · exact Or.inl ⟨i, hi, hS⟩
      · exact Or.inr hS

end Patches

end BenchFFT
