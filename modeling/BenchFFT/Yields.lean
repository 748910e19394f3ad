import BenchFFT.Triple

/-!
# Programs with effects that compute a function

`Yields I x a`: from every state with the invariant `I`, the program `x` returns `a` and leaves a
state with `I`.  `Checks fails I x cs a`: so it does when the checks `cs` pass, which it makes on
its way; else the first that fails stops it, with the error that `fails` gives.

What such programs return does not depend on the state, so a program built from them computes what
the program without effects does (`Checks.bind`).
-/

namespace BenchFFT

variable {σ ε α β γ : Type}

def Yields (I : σ → Prop) (x : StateT σ (Except ε) α) (a : α) : Prop :=
  Triple (fun _ => False) I x (· = a)

namespace Yields

variable {I : σ → Prop} {x : StateT σ (Except ε) α} {a : α}

theorem pure (a : α) : Yields I (Pure.pure a : StateT σ (Except ε) α) a := Triple.pure rfl

/-- A step that is known on every state with the invariant. -/
theorem of_forall (h : ∀ s, I s → ∃ s', x s = .ok (a, s') ∧ I s') : Yields I x a := by
  intro s hs
  obtain ⟨s', hrun, hs'⟩ := h s hs
  rw [hrun]
  exact ⟨hs', rfl⟩

theorem exists_ok (hx : Yields I x a) {s : σ} (hs : I s) : ∃ s', x s = .ok (a, s') ∧ I s' := by
  obtain ⟨a', s', hrun, hs', rfl⟩ := Triple.exists_ok hx hs
  exact ⟨s', hrun, hs'⟩

end Yields

def Checks (fails : γ → Option ε) (I : σ → Prop) (x : StateT σ (Except ε) α) (cs : List γ) (a : α) :
    Prop :=
  ∀ s, I s → match cs.findSome? fails with
    | none => ∃ s', x s = .ok (a, s') ∧ I s'
    | some e => x s = .error e

variable {fails : γ → Option ε} {I : σ → Prop} {x : StateT σ (Except ε) α} {a : α}

theorem Yields.checks (hx : Yields I x a) : Checks fails I x [] a := fun _ hs => hx.exists_ok hs

namespace Checks

theorem pure (a : α) : Checks fails I (Pure.pure a : StateT σ (Except ε) α) [] a :=
  (Yields.pure a).checks

theorem bind {f : α → StateT σ (Except ε) β} {b : β} {cs ds : List γ}
    (hx : Checks fails I x cs a) (hf : Checks fails I (f a) ds b) :
    Checks fails I (x >>= f) (cs ++ ds) b := by
  intro s hs
  have hxs := hx s hs
  have hrun : (x >>= f) s = (x s >>= fun r => f r.1 r.2) := rfl
  rw [List.findSome?_append, hrun]
  cases hcs : cs.findSome? fails with
  | none =>
    rw [hcs] at hxs
    obtain ⟨s', hok, hs'⟩ := hxs
    rw [hok]
    exact hf s' hs'
  | some e =>
    rw [hcs] at hxs
    rw [hxs]
    rfl

theorem bind_pure {f : α → β} {cs : List γ} (hx : Checks fails I x cs a) :
    Checks fails I (x >>= fun a => Pure.pure (f a)) cs (f a) := by
  rw [← List.append_nil cs]
  exact hx.bind (pure (f a))

end Checks

end BenchFFT
