import BenchFFT.Loop

/-!
# Triples for programs with a state and errors

`Triple E I x Q`: from a state with the invariant `I`, the program `x` returns a result with `Q` and
leaves a state with `I`, or it stops with an error that `E` allows.  With no error allowed, `x`
returns; with every error allowed, nothing is said about a run that does not.  `Leads E P Q x` is
about the states only, and `Q` need not be the invariant `P` the program starts from.
`Returns x s Q` is about the run from the state `s`.
-/

namespace BenchFFT

variable {σ ε α β : Type}

/-- How a run may end. -/
def Outcome (E : ε → Prop) (I : σ → Prop) (Q : α → Prop) : Except ε (α × σ) → Prop
  | .ok r => I r.2 ∧ Q r.1
  | .error e => E e

def Triple (E : ε → Prop) (I : σ → Prop) (x : StateT σ (Except ε) α) (Q : α → Prop) : Prop :=
  ∀ s, I s → Outcome E I Q (x s)

namespace Triple

variable {E : ε → Prop} {I : σ → Prop} {x : StateT σ (Except ε) α} {Q : α → Prop}

theorem pure {a : α} (h : Q a) : Triple E I (pure a) Q := fun _ hs => ⟨hs, h⟩

theorem throw {e : ε} (h : E e) : Triple E I (throw e) Q := fun _ _ => h

theorem bind {f : α → StateT σ (Except ε) β} {R : β → Prop} (hx : Triple E I x Q)
    (hf : ∀ a, Q a → Triple E I (f a) R) : Triple E I (x >>= f) R := by
  intro s hs
  have hxs := hx s hs
  show Outcome E I R (x s >>= fun r => f r.1 r.2)
  cases hrun : x s with
  | ok r =>
    rw [hrun] at hxs
    exact hf r.1 hxs.2 r.2 hxs.1
  | error e =>
    rw [hrun] at hxs
    exact hxs

theorem mono {R : α → Prop} (hx : Triple E I x Q) (h : ∀ a, Q a → R a) : Triple E I x R := by
  intro s hs
  have hxs := hx s hs
  cases hrun : x s with
  | ok r =>
    rw [hrun] at hxs
    exact ⟨hxs.1, h r.1 hxs.2⟩
  | error e =>
    rw [hrun] at hxs
    exact hxs

/-- A program that returns may as well stop with any error. -/
theorem of_total (hx : Triple (fun _ => False) I x Q) : Triple E I x Q := by
  intro s hs
  have hxs := hx s hs
  cases hrun : x s with
  | ok r =>
    rw [hrun] at hxs
    exact hxs
  | error e =>
    rw [hrun] at hxs
    exact hxs.elim

theorem ite {c : Prop} [Decidable c] {y : StateT σ (Except ε) α} (hx : c → Triple E I x Q)
    (hy : ¬c → Triple E I y Q) : Triple E I (if c then x else y) Q := by
  split_ifs with h
  · exact hx h
  · exact hy h

/-- What is read satisfies the invariant. -/
theorem get : Triple E I get I := fun _ hs => ⟨hs, hs⟩

theorem modify {f : σ → σ} (h : ∀ s, I s → I (f s)) :
    Triple E I (modify f) fun _ : PUnit => True := fun s hs => ⟨h s hs, trivial⟩

/-- The invariant rule of a counted loop. -/
theorem forRangeM {n : ℕ} {body : ℕ → α → StateT σ (Except ε) α} {P : ℕ → α → Prop} {a : α}
    (h0 : P 0 a) (hstep : ∀ i < n, ∀ a, P i a → Triple E I (body i a) (P (i + 1))) :
    Triple E I (BenchFFT.forRangeM n body a) (P n) := by
  induction n with
  | zero => exact pure h0
  | succ n ih =>
    exact bind (ih fun i hi => hstep i (Nat.lt_succ_of_lt hi)) (hstep n n.lt_succ_self)

/-- The invariant rule of a loop that doubles its counter. -/
theorem forDoubleM {i n : ℕ} {body : ℕ → α → StateT σ (Except ε) α} {a : α} (h0 : P a)
    (hstep : ∀ j, 0 < j → j < n → ∀ a, P a → Triple E I (body j a) P) :
    Triple E I (BenchFFT.forDoubleM i n body a) P := by
  induction hd : n - i using Nat.strongRecOn generalizing i a with
  | _ d ih =>
    rw [BenchFFT.forDoubleM]
    split_ifs with h
    · exact bind (hstep i h.1 h.2 a h0) fun a ha => ih (n - 2 * i) (by omega) ha rfl
    · exact pure h0

/-- What is done for each entry of a list. -/
theorem forM {as : List α} {f : α → StateT σ (Except ε) PUnit}
    (h : ∀ a ∈ as, Triple E I (f a) fun _ => True) : Triple E I (as.forM f) fun _ => True := by
  induction as with
  | nil => exact pure trivial
  | cons a as ih =>
    exact (h a List.mem_cons_self).bind fun _ _ => ih fun b hb => h b (List.mem_cons_of_mem a hb)

/-- A run that returns. -/
theorem of_ok (hx : Triple E I x Q) {s s' : σ} {a : α} (hs : I s) (hrun : x s = .ok (a, s')) :
    I s' ∧ Q a := by
  have hxs := hx s hs
  rw [hrun] at hxs
  exact hxs

/-- Where no error is allowed, the program returns. -/
theorem exists_ok (hx : Triple (fun _ => False) I x Q) {s : σ} (hs : I s) :
    ∃ a s', x s = .ok (a, s') ∧ I s' ∧ Q a := by
  have hxs := hx s hs
  cases hrun : x s with
  | ok r =>
    rw [hrun] at hxs
    exact ⟨r.1, r.2, rfl, hxs⟩
  | error e =>
    rw [hrun] at hxs
    exact hxs.elim

end Triple

/-! ### From one invariant to another -/

/-- From a state with `P`, the program leaves one with `Q`, or it stops with an error that `E`
allows. -/
def Leads (E : ε → Prop) (P Q : σ → Prop) (x : StateT σ (Except ε) α) : Prop :=
  ∀ s, P s → Outcome E Q (fun _ => True) (x s)

namespace Leads

variable {E : ε → Prop} {P Q R : σ → Prop} {x : StateT σ (Except ε) α}

theorem pure {a : α} : Leads E P P (pure a : StateT σ (Except ε) α) := fun _ hs => ⟨hs, trivial⟩

theorem bind {f : α → StateT σ (Except ε) β} (hx : Leads E P Q x) (hf : ∀ a, Leads E Q R (f a)) :
    Leads E P R (x >>= f) := by
  intro s hs
  have hxs := hx s hs
  show Outcome E R (fun _ => True) (x s >>= fun r => f r.1 r.2)
  cases hrun : x s with
  | ok r =>
    rw [hrun] at hxs
    exact hf r.1 r.2 hxs.1
  | error e =>
    rw [hrun] at hxs
    exact hxs

theorem weaken (hx : Leads E P Q x) (h : ∀ s, R s → P s) : Leads E R Q x :=
  fun s hs => hx s (h s hs)

theorem forM {as : List α} {f : α → StateT σ (Except ε) PUnit} (h : ∀ a ∈ as, Leads E P P (f a)) :
    Leads E P P (as.forM f) := by
  induction as with
  | nil => exact pure
  | cons a as ih =>
    exact (h a List.mem_cons_self).bind fun _ => ih fun b hb => h b (List.mem_cons_of_mem a hb)

/-- Where no error is allowed, the program returns. -/
theorem exists_ok (hx : Leads (fun _ => False) P Q x) {s : σ} (hs : P s) :
    ∃ a s', x s = .ok (a, s') ∧ Q s' := by
  have hxs := hx s hs
  cases hrun : x s with
  | ok r =>
    rw [hrun] at hxs
    exact ⟨r.1, r.2, rfl, hxs.1⟩
  | error e =>
    rw [hrun] at hxs
    exact hxs.elim

/-- What goes on after a program that may stop, and always stops there, stops. -/
theorem bind_error {f : α → StateT σ (Except ε) β} (hx : Leads E P Q x)
    (hf : ∀ a s, Q s → ∃ e, f a s = .error e) {s : σ} (hs : P s) :
    ∃ e, (x >>= f) s = .error e := by
  have hxs := hx s hs
  show ∃ e, (x s >>= fun r => f r.1 r.2) = .error e
  cases hrun : x s with
  | ok r =>
    rw [hrun] at hxs
    exact hf r.1 r.2 hxs.1
  | error e => exact ⟨e, rfl⟩

end Leads

/-! ### From one state -/

/-- From the state `s` the program returns, with a result and a state that satisfy `Q`. -/
def Returns (x : StateT σ (Except ε) α) (s : σ) (Q : α → σ → Prop) : Prop :=
  ∃ a s', x s = .ok (a, s') ∧ Q a s'

namespace Returns

variable {x : StateT σ (Except ε) α} {s : σ} {Q : α → σ → Prop}

theorem pure {a : α} (h : Q a s) : Returns (pure a : StateT σ (Except ε) α) s Q := ⟨a, s, rfl, h⟩

theorem bind {f : α → StateT σ (Except ε) β} {R : β → σ → Prop} (hx : Returns x s Q)
    (hf : ∀ a s', x s = .ok (a, s') → Q a s' → Returns (f a) s' R) : Returns (x >>= f) s R := by
  obtain ⟨a, s', hrun, hQ⟩ := hx
  obtain ⟨b, s'', hrun', hR⟩ := hf a s' hrun hQ
  refine ⟨b, s'', ?_, hR⟩
  show (x s >>= fun r => f r.1 r.2) = _
  rw [hrun]
  exact hrun'

theorem ite {c : Prop} [Decidable c] {y : StateT σ (Except ε) α} (hx : c → Returns x s Q)
    (hy : ¬c → Returns y s Q) : Returns (if c then x else y) s Q := by
  split_ifs with h
  · exact hx h
  · exact hy h

theorem mono {R : α → σ → Prop} (hx : Returns x s Q) (h : ∀ a s', Q a s' → R a s') :
    Returns x s R := by
  obtain ⟨a, s', hrun, hQ⟩ := hx
  exact ⟨a, s', hrun, h a s' hQ⟩

end Returns

end BenchFFT
