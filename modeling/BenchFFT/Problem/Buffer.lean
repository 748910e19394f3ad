import BenchFFT.BenchUser
import BenchFFT.Loop
import Mathlib.Tactic.Choose

/-!
# I/O buffers

A `Buf α` is a block with room for `size` cells of type `α`; an access to any other cell is an
abort.  `Runs m f g` says that `f`, on every buffer of `m` cells, stays inside and changes the
contents as `g` does; it passes through sequences and loops, so that a routine is known to stay
inside its buffer once each of its stores does, and then is the pure function `g`.  `Puts m f S old
new` says that `f` moreover leads from `old` to `new` in the cells of `S`, and leaves the others
alone; for it a routine is put together from parts that replace the same cells (`Puts.trans`) or
disjoint ones (`Puts.bind`, `Puts.forRangeM`).
-/

namespace BenchFFT

variable {α : Type*}

structure Buf (α : Type*) where
  size : ℕ
  cell : ℕ → α

namespace Buf

def HasSize (m : ℕ) (b : Buf α) : Prop := b.size = m

theorem hasSize (b : Buf α) : b.HasSize b.size := rfl

def read (b : Buf α) (i : ℕ) : Except Abort α :=
  if i < b.size then .ok (b.cell i) else .error .outOfBounds

def write (b : Buf α) (i : ℕ) (x : α) : Except Abort (Buf α) :=
  if i < b.size then .ok { b with cell := Function.update b.cell i x } else .error .outOfBounds

/-- Change the contents. -/
def lift (g : (ℕ → α) → ℕ → α) (b : Buf α) : Buf α := { b with cell := g b.cell }

theorem read_ok {b : Buf α} {i : ℕ} (hi : i < b.size) : b.read i = .ok (b.cell i) := if_pos hi

theorem write_ok {b : Buf α} {i : ℕ} (hi : i < b.size) (x : α) :
    b.write i x = .ok (b.lift (Function.update · i x)) := if_pos hi

/-- On every buffer of `m` cells, `f` succeeds and changes the contents as `g` does. -/
def Runs (m : ℕ) (f : Buf α → Except Abort (Buf α)) (g : (ℕ → α) → ℕ → α) : Prop :=
  ∀ b : Buf α, b.size = m → f b = .ok (b.lift g)

namespace Runs

variable {m n : ℕ} {f f' : Buf α → Except Abort (Buf α)} {g g' : (ℕ → α) → ℕ → α}

theorem pure : Runs m (fun b => .ok b) (fun c : ℕ → α => c) := fun _ _ => rfl

theorem write {i : ℕ} (hi : i < m) (x : α) :
    Runs m (fun b => b.write i x) (Function.update · i x) :=
  fun _ hb => write_ok (hb ▸ hi) x

theorem read {i : ℕ} {f : α → Buf α → Except Abort (Buf α)} {g : α → (ℕ → α) → ℕ → α}
    (hi : i < m) (h : ∀ v, Runs m (f v) (g v)) :
    Runs m (fun b => b.read i >>= fun v => f v b) (fun c => g (c i) c) := by
  intro b hb
  show (b.read i).bind _ = _
  rw [read_ok (hb ▸ hi)]
  exact h _ b hb

theorem bind (hf : Runs m f g) (hf' : Runs m f' g') :
    Runs m (fun b => f b >>= f') (fun c => g' (g c)) := by
  intro b hb
  show (f b).bind f' = _
  rw [hf b hb]
  exact hf' _ hb

theorem forRangeM {body : ℕ → Buf α → Except Abort (Buf α)} {g : ℕ → (ℕ → α) → ℕ → α}
    (h : ∀ i < n, Runs m (body i) (g i)) :
    Runs m (BenchFFT.forRangeM n body) (BenchFFT.forRange n g) := by
  induction n with
  | zero => exact pure
  | succ n ih =>
    have hlast := bind (ih fun i hi => h i (Nat.lt_succ_of_lt hi)) (h n n.lt_succ_self)
    exact hlast

theorem ite (c : Prop) [Decidable c] (hf : c → Runs m f g) (hf' : ¬c → Runs m f' g') :
    Runs m (fun b => if c then f b else f' b) (fun x => if c then g x else g' x) := by
  split_ifs with h
  · exact hf h
  · exact hf' h

end Runs

/-- On every buffer of `m` cells, `f` succeeds, replaces `old` by `new` in the cells of `S`, and
changes no other cell. -/
def Puts (m : ℕ) (f : Buf α → Except Abort (Buf α)) (S : ℕ → Prop) (old new : ℕ → α) : Prop :=
  ∃ g, Runs m f g ∧ Patches (fun c : ℕ → α => c) g S old new

namespace Puts

variable {m n : ℕ} {f f' : Buf α → Except Abort (Buf α)} {S T : ℕ → Prop} {old mid new : ℕ → α}

theorem intro {g : (ℕ → α) → ℕ → α} (hrun : Runs m f g)
    (hg : Patches (fun c : ℕ → α => c) g S old new) : Puts m f S old new := ⟨g, hrun, hg⟩

theorem pure : Puts m (fun b => .ok b) (fun _ => False) old new :=
  ⟨_, Runs.pure, ⟨fun _ _ _ h => h.elim, fun _ _ _ => rfl⟩⟩

theorem ite (c : Prop) [Decidable c] (hf : c → Puts m f S old new)
    (hf' : ¬c → Puts m f' S old new) : Puts m (fun b => if c then f b else f' b) S old new := by
  split_ifs with h
  · exact hf h
  · exact hf' h

theorem exists_ok (hf : Puts m f S old new) {b : Buf α} (hb : b.size = m)
    (hold : ∀ k, S k → b.cell k = old k) :
    ∃ b', f b = .ok b' ∧ b'.size = m ∧ (∀ k, S k → b'.cell k = new k) ∧
      ∀ k, ¬S k → b'.cell k = b.cell k := by
  obtain ⟨g, hrun, hg⟩ := hf
  exact ⟨b.lift g, hrun b hb, hb, hg.on _ hold, hg.off _⟩

theorem congr (hf : Puts m f S old new) (hST : ∀ k, S k ↔ T k) : Puts m f T old new := by
  obtain ⟨g, hrun, hg⟩ := hf
  exact ⟨g, hrun, hg.congr hST⟩

theorem mono (hf : Puts m f S old new) (hST : ∀ k, S k → T k)
    (hrest : ∀ k, T k → ¬S k → old k = new k) : Puts m f T old new := by
  obtain ⟨g, hrun, hg⟩ := hf
  exact ⟨g, hrun, hg.mono hST hrest⟩

theorem bind (hf : Puts m f S old new) (hf' : Puts m f' T old new) (hdisj : ∀ k, S k → ¬T k) :
    Puts m (fun b => f b >>= f') (fun k => S k ∨ T k) old new := by
  obtain ⟨g, hrun, hg⟩ := hf
  obtain ⟨g', hrun', hg'⟩ := hf'
  exact ⟨_, hrun.bind hrun', hg'.comp hg hdisj⟩

theorem trans (hf : Puts m f S old mid) (hf' : Puts m f' S mid new) :
    Puts m (fun b => f b >>= f') S old new := by
  obtain ⟨g, hrun, hg⟩ := hf
  obtain ⟨g', hrun', hg'⟩ := hf'
  exact ⟨_, hrun.bind hrun', hg'.trans hg⟩

theorem forRangeM {body : ℕ → Buf α → Except Abort (Buf α)} {S : ℕ → ℕ → Prop}
    (h : ∀ i < n, Puts m (body i) (S i) old new)
    (hdisj : ∀ i < n, ∀ j < n, ∀ k, S i k → S j k → i = j) :
    Puts m (BenchFFT.forRangeM n body) (fun k => ∃ i < n, S i k) old new := by
  have : Nonempty ((ℕ → α) → ℕ → α) := ⟨id⟩
  choose! g hrun hg using h
  exact ⟨_, Runs.forRangeM hrun, Patches.forRange hg hdisj⟩

theorem forFromM {a b : ℕ} {body : ℕ → Buf α → Except Abort (Buf α)} {S : ℕ → ℕ → Prop}
    (h : ∀ i, a ≤ i → i < b → Puts m (body i) (S i) old new)
    (hdisj : ∀ i j, a ≤ i → i < b → a ≤ j → j < b → ∀ k, S i k → S j k → i = j) :
    Puts m (BenchFFT.forFromM a b body) (fun k => ∃ i, a ≤ i ∧ i < b ∧ S i k) old new := by
  have hloop : Puts m (BenchFFT.forFromM a b body) (fun k => ∃ i < b - a, S (a + i) k) old new := by
    refine forRangeM (fun i hi => h (a + i) (Nat.le_add_right a i) (by omega)) ?_
    intro i hi j hj k hk hk'
    exact Nat.add_left_cancel
      (hdisj (a + i) (a + j) (by omega) (by omega) (by omega) (by omega) k hk hk')
  refine hloop.congr fun k => ⟨?_, ?_⟩
  · rintro ⟨i, hi, hk⟩
    exact ⟨a + i, Nat.le_add_right a i, by omega, hk⟩
  · rintro ⟨i, ha, hb, hk⟩
    exact ⟨i - a, by omega, by rwa [Nat.add_sub_cancel' ha]⟩

/-- A loop that replaces the same cells in each step. -/
theorem forRangeM_levels {body : ℕ → Buf α → Except Abort (Buf α)} (level : ℕ → ℕ → α)
    (h : ∀ i < n, Puts m (body i) S (level i) (level (i + 1))) :
    Puts m (BenchFFT.forRangeM n body) S (level 0) (level n) := by
  induction n with
  | zero => exact pure.mono (fun _ h => h.elim) fun _ _ _ => rfl
  | succ n ih =>
    have hlast := (ih fun i hi => h i (Nat.lt_succ_of_lt hi)).trans (h n n.lt_succ_self)
    exact hlast

theorem cells {f : Buf α → Except Abort (Buf α)} {old new old' new' : ℕ → α}
    (hf : Puts m f S old new) (hold : ∀ k, S k → old' k = old k)
    (hnew : ∀ k, S k → new k = new' k) : Puts m f S old' new' := by
  obtain ⟨g, hrun, hg⟩ := hf
  refine ⟨g, hrun, fun s hs k hk => ?_, hg.off⟩
  rw [hg.on s (fun l hl => (hs l hl).trans (hold l hl)) k hk, hnew k hk]

end Puts

end Buf

/-! ### Staying inside -/

/-- The run touches no cell outside its buffers, and what it returns, if it returns, satisfies
`Q`. -/
def Inside {σ : Type*} (Q : σ → Prop) : Except Abort σ → Prop
  | .ok a => Q a
  | .error e => e ≠ .outOfBounds

namespace Inside

universe u

variable {σ τ : Type u} {P : σ → Prop} {Q : τ → Prop}

theorem pure {a : σ} (h : P a) : Inside P (.ok a) := h

theorem mono {P' : σ → Prop} {x : Except Abort σ} (hx : Inside P x) (h : ∀ a, P a → P' a) :
    Inside P' x := by
  rcases x with e | a
  · exact hx
  · exact h a hx

theorem bind {x : Except Abort σ} {f : σ → Except Abort τ} (hx : Inside P x)
    (hf : ∀ a, P a → Inside Q (f a)) : Inside Q (x >>= f) := by
  rcases x with e | a
  · exact hx
  · exact hf a hx

/-- After an assertion its condition holds. -/
theorem assert (ex : Prop) [Decidable ex] : Inside (fun _ => ex) (benchAssert ex) := by
  unfold benchAssert
  split_ifs with h
  · exact h
  · exact nofun

theorem read {b : Buf α} {i : ℕ} (hi : i < b.size) : Inside (fun _ => True) (b.read i) := by
  rw [Buf.read_ok hi]
  trivial

theorem write {b : Buf α} {i m : ℕ} (hb : b.HasSize m) (hi : i < m) (x : α) :
    Inside (Buf.HasSize m) (b.write i x) := by
  have hi' : i < b.size := by rwa [hb]
  rw [Buf.write_ok hi']
  exact hb

/-- The invariant rule of a counted loop. -/
theorem forRangeM {n : ℕ} {body : ℕ → σ → Except Abort σ} {s : σ} (h0 : P s)
    (hstep : ∀ i < n, ∀ t, P t → Inside P (body i t)) :
    Inside P (BenchFFT.forRangeM n body s) := by
  induction n with
  | zero => exact h0
  | succ n ih =>
    exact bind (ih fun i hi => hstep i (Nat.lt_succ_of_lt hi)) (hstep n n.lt_succ_self)

end Inside

end BenchFFT
