import BenchFFT.Loop

/-!
# Routines that assign cells of a state

`Assigns inv get f S v`: on every state with the invariant `inv`, `f` succeeds, keeps the invariant,
leaves `v k` in each cell `k` of `S`, and changes a cell `k` only to `v k`.  What cell `k` of the
state `s` holds is `get s k`.

As every assignment agrees with `v`, the order of the assignments does not matter, and neither does
it whether two of them are to the same cell: `Assigns` passes through sequences (`Assigns.bind`) and
loops (`Assigns.forRangeM`).  A part that reads what an earlier one has assigned may use that it
holds `v` (`Assigns.bind_known`), and assignments that do not agree with `v` may come before those
that do (`Assigns.overwrite`).
-/

namespace BenchFFT

universe u

variable {σ : Type u} {ι β ε : Type*}

/-- `s'` is `s` with some cells `k` set to `v k`, among them those of `S`. -/
structure Assigned (get : σ → ι → β) (S : ι → Prop) (v : ι → β) (s s' : σ) : Prop where
  on : ∀ k, S k → get s' k = v k
  off : ∀ k, get s' k = v k ∨ get s' k = get s k

def Assigns (inv : σ → Prop) (get : σ → ι → β) (f : σ → Except ε σ) (S : ι → Prop) (v : ι → β) :
    Prop :=
  ∀ s, inv s → ∃ s', f s = .ok s' ∧ inv s' ∧ Assigned get S v s s'

namespace Assigned

variable {get : σ → ι → β} {S T : ι → Prop} {u v : ι → β} {s t w : σ}

theorem refl : Assigned get (fun _ => False) v s s := ⟨fun _ h => h.elim, fun _ => Or.inr rfl⟩

theorem mono (h : Assigned get S v s t) (hTS : ∀ k, T k → S k) : Assigned get T v s t :=
  ⟨fun k hk => h.on k (hTS k hk), h.off⟩

/-- What is assigned later counts. -/
theorem overwrite (h : Assigned get S u s t) (h' : Assigned get T v t w)
    (huv : ∀ k, T k ∨ u k = v k) : Assigned get (fun k => S k ∨ T k) v s w where
  on k hk := by
    rcases huv k with hT | heq
    · exact h'.on k hT
    · rcases h'.off k with h1 | h1
      · exact h1
      · rcases hk with hS | hT
        · rw [h1, h.on k hS, heq]
        · exact h'.on k hT
  off k := by
    rcases huv k with hT | heq
    · exact Or.inl (h'.on k hT)
    · rcases h'.off k with h1 | h1
      · exact Or.inl h1
      · rw [h1, ← heq]
        exact h.off k

theorem trans (h : Assigned get S v s t) (h' : Assigned get T v t w) :
    Assigned get (fun k => S k ∨ T k) v s w :=
  h.overwrite h' fun _ => Or.inr rfl

/-- What is known stays known. -/
theorem keep (h : Assigned get S v s t) (hs : ∀ k, T k → get s k = v k) (k : ι) (hk : T k) :
    get t k = v k := by
  rcases h.off k with h1 | h1
  · exact h1
  · rw [h1, hs k hk]

end Assigned

namespace Assigns

variable {inv : σ → Prop} {get : σ → ι → β} {f g : σ → Except ε σ} {S T : ι → Prop} {u v : ι → β}

theorem mono (h : Assigns inv get f S v) (hTS : ∀ k, T k → S k) : Assigns inv get f T v := by
  intro s hs
  obtain ⟨s', hrun, hinv, hs'⟩ := h s hs
  exact ⟨s', hrun, hinv, hs'.mono hTS⟩

theorem pure : Assigns inv get (fun s => (.ok s : Except ε σ)) (fun _ => False) v :=
  fun s hs => ⟨s, rfl, hs, Assigned.refl⟩

theorem overwrite (hf : Assigns inv get f S u) (hg : Assigns inv get g T v)
    (huv : ∀ k, T k ∨ u k = v k) :
    Assigns inv get (fun s => f s >>= g) (fun k => S k ∨ T k) v := by
  intro s hs
  obtain ⟨t, hrun, ht, hst⟩ := hf s hs
  obtain ⟨w, hrun', hw, htw⟩ := hg t ht
  exact ⟨w, (bind_ok hrun g).trans hrun', hw, hst.overwrite htw huv⟩

theorem bind (hf : Assigns inv get f S v) (hg : Assigns inv get g T v) :
    Assigns inv get (fun s => f s >>= g) (fun k => S k ∨ T k) v :=
  hf.overwrite hg fun _ => Or.inr rfl

/-- The second part may use what the first one has assigned. -/
theorem bind_known (hf : Assigns inv get f S v)
    (hg : Assigns (fun s => inv s ∧ ∀ k, S k → get s k = v k) get g T v) :
    Assigns inv get (fun s => f s >>= g) (fun k => S k ∨ T k) v := by
  intro s hs
  obtain ⟨t, hrun, ht, hst⟩ := hf s hs
  obtain ⟨w, hrun', hw, htw⟩ := hg t ⟨ht, hst.on⟩
  exact ⟨w, (bind_ok hrun g).trans hrun', hw.1, hst.trans htw⟩

/-- What `f` does where some cells are known. -/
theorem congr_known (hg : Assigns inv get g S v)
    (h : ∀ s, (∀ k, T k → get s k = v k) → f s = g s) :
    Assigns (fun s => inv s ∧ ∀ k, T k → get s k = v k) get f S v := by
  intro s hs
  obtain ⟨t, hrun, ht, hst⟩ := hg s hs.1
  exact ⟨t, (h s hs.2).trans hrun, ⟨ht, hst.keep hs.2⟩, hst⟩

theorem keep (hf : Assigns inv get f S v) :
    Assigns (fun s => inv s ∧ ∀ k, T k → get s k = v k) get f S v :=
  hf.congr_known fun _ _ => rfl

theorem forRangeM {n : ℕ} {body : ℕ → σ → Except ε σ} {S : ℕ → ι → Prop}
    (h : ∀ i < n, Assigns inv get (body i) (S i) v) :
    Assigns inv get (BenchFFT.forRangeM n body) (fun k => ∃ i < n, S i k) v := by
  induction n with
  | zero => exact pure.mono fun k hk => absurd hk.choose_spec.1 (Nat.not_lt_zero _)
  | succ n ih =>
    have hn := bind (ih fun i hi => h i (Nat.lt_succ_of_lt hi)) (h n n.lt_succ_self)
    refine mono hn fun k hk => ?_
    obtain ⟨i, hi, hS⟩ := hk
    rcases Nat.lt_succ_iff_lt_or_eq.mp hi with hi | rfl
    · exact Or.inl ⟨i, hi, hS⟩
    · exact Or.inr hS

theorem forFromM {a b : ℕ} {body : ℕ → σ → Except ε σ} {S : ℕ → ι → Prop}
    (h : ∀ i, a ≤ i → i < b → Assigns inv get (body i) (S i) v) :
    Assigns inv get (BenchFFT.forFromM a b body) (fun k => ∃ i, a ≤ i ∧ i < b ∧ S i k) v := by
  have hloop := forRangeM fun k (hk : k < b - a) => h (a + k) (Nat.le_add_right a k) (by omega)
  refine mono hloop fun k hk => ?_
  obtain ⟨i, ha, hb, hS⟩ := hk
  exact ⟨i - a, by omega, by rwa [Nat.add_sub_cancel' ha]⟩

/-- Two parts of a state, each changed by a routine of its own. -/
theorem prod {τ : Type u} {κ : Type*} {inv' : τ → Prop} {get' : τ → κ → β} {f' : τ → Except ε τ}
    {S' : κ → Prop} {v' : κ → β} (hf : Assigns inv get f S v) (hf' : Assigns inv' get' f' S' v') :
    Assigns (fun s => inv s.1 ∧ inv' s.2) (fun s => Sum.elim (get s.1) (get' s.2))
      (fun s : σ × τ => do
        let a ← f s.1
        let b ← f' s.2
        return (a, b))
      (Sum.elim S S') (Sum.elim v v') := by
  intro s hs
  obtain ⟨a, hrun, ha, hsa⟩ := hf s.1 hs.1
  obtain ⟨b, hrun', hb, hsb⟩ := hf' s.2 hs.2
  refine ⟨(a, b), ?_, ⟨ha, hb⟩, ⟨?_, ?_⟩⟩
  · exact (bind_ok hrun _).trans (bind_ok hrun' _)
  · rintro (k | k) hk
    · exact hsa.on k hk
    · exact hsb.on k hk
  · rintro (k | k)
    · exact hsa.off k
    · exact hsb.off k

end Assigns

end BenchFFT
