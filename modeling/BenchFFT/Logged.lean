import BenchFFT.Assigns
import BenchFFT.Problem.Buffer
import Mathlib.Data.List.Perm.Subperm
import Mathlib.Data.List.Range

/-!
# Buffers that log what is written

A `Logged α` is a buffer with the list of the cells written so far.  A routine that takes the write
as a parameter runs on it as well as on a plain buffer: `Logs f g n` says that `f` does with a
logged buffer what `g` does with the buffer, in `n` writes.

What has been written is seen through `Logged.get`.  When a routine leaves something in each of `n`
cells, in `n` writes, it writes each of them once (`Logs.perm_range`).
-/

namespace BenchFFT

variable {α : Type}

structure Logged (α : Type) where
  buf : Buf α
  log : List ℕ

namespace Logged

def HasSize (m : ℕ) (s : Logged α) : Prop := s.buf.HasSize m

def write (s : Logged α) (i : ℕ) (x : α) : Except Abort (Logged α) := do
  return ⟨← s.buf.write i x, i :: s.log⟩

/-- What has been written to cell `k`. -/
def get (s : Logged α) (k : ℕ) : Option α := if k ∈ s.log then some (s.buf.cell k) else none

theorem get_eq_some {s : Logged α} {k : ℕ} {x : α} (h : s.get k = some x) :
    k ∈ s.log ∧ s.buf.cell k = x := by
  unfold get at h
  split_ifs at h with hk
  exact ⟨hk, Option.some.inj h⟩

theorem assigns_write {m i : ℕ} {x : α} {v : ℕ → α} (hi : i < m) (hx : x = v i) :
    Assigns (HasSize m) get (fun s => write s i x) (· = i) fun k => some (v k) := by
  intro s hs
  have hi' : i < s.buf.size := by rwa [show s.buf.size = m from hs]
  refine ⟨⟨s.buf.lift (Function.update · i x), i :: s.log⟩, ?_, hs, fun k hk => ?_, fun k => ?_⟩
  · show s.write i x = _
    rw [write, Buf.write_ok hi']
    rfl
  · simp [get, Buf.lift, hk, ← hx]
  · by_cases h : k = i
    · simp [get, Buf.lift, h, ← hx]
    · simp [get, Buf.lift, h]

end Logged

structure Logs (f : Logged α → Except Abort (Logged α)) (g : Buf α → Except Abort (Buf α)) (n : ℕ) :
    Prop where
  buf : ∀ s, Logged.buf <$> f s = g s.buf
  length : ∀ s s', f s = .ok s' → s'.log.length = s.log.length + n

namespace Logs

variable {f f' : Logged α → Except Abort (Logged α)} {g g' : Buf α → Except Abort (Buf α)}
  {m n : ℕ}

theorem buf_ok (h : Logs f g n) {s s' : Logged α} (hrun : f s = .ok s') :
    g s.buf = .ok s'.buf := by
  rw [← h.buf s, hrun]
  rfl

theorem write (i : ℕ) (x : α) : Logs (fun s => s.write i x) (fun b => b.write i x) 1 where
  buf s := by
    unfold Logged.write
    cases s.buf.write i x <;> rfl
  length s s' h := by
    unfold Logged.write at h
    cases hw : s.buf.write i x with
    | error e =>
      rw [hw] at h
      exact absurd h nofun
    | ok b =>
      rw [hw] at h
      obtain rfl := Except.ok.inj h
      exact List.length_cons

theorem pure : Logs (fun s => .ok s) (fun b : Buf α => .ok b) 0 where
  buf _ := rfl
  length s s' h := by
    obtain rfl := Except.ok.inj h
    rfl

/-- An index is computed before the write; where it overflows, nothing is written. -/
theorem bind_index {f : ℕ → Logged α → Except Abort (Logged α)}
    {g : ℕ → Buf α → Except Abort (Buf α)} (e : Except Abort ℕ) (h : ∀ i, Logs (f i) (g i) n) :
    Logs (fun s => e >>= fun i => f i s) (fun b => e >>= fun i => g i b) n where
  buf s := by
    rcases e with e | i
    · rfl
    · exact (h i).buf s
  length s s' hrun := by
    rcases e with e | i
    · exact absurd hrun nofun
    · exact (h i).length s s' hrun

theorem bind (hf : Logs f g m) (hf' : Logs f' g' n) :
    Logs (fun s => f s >>= f') (fun b => g b >>= g') (m + n) where
  buf s := by
    have hs := hf.buf s
    cases hrun : f s with
    | error e =>
      rw [hrun] at hs
      rw [← hs]
      rfl
    | ok t =>
      rw [hrun] at hs
      rw [← hs]
      exact hf'.buf t
  length s s' h := by
    cases hrun : f s with
    | error e =>
      rw [hrun] at h
      exact absurd h nofun
    | ok t =>
      rw [hrun] at h
      rw [hf'.length t s' h, hf.length s t hrun, Nat.add_assoc]

theorem forRangeM {body : ℕ → Logged α → Except Abort (Logged α)}
    {body' : ℕ → Buf α → Except Abort (Buf α)} (h : ∀ i, Logs (body i) (body' i) m) :
    Logs (BenchFFT.forRangeM n body) (BenchFFT.forRangeM n body') (n * m) := by
  induction n with
  | zero =>
    rw [Nat.zero_mul]
    exact pure
  | succ n ih =>
    rw [Nat.succ_mul]
    exact ih.bind (h n)

theorem forFromM {a b : ℕ} {body : ℕ → Logged α → Except Abort (Logged α)}
    {body' : ℕ → Buf α → Except Abort (Buf α)} (h : ∀ i, Logs (body i) (body' i) m) :
    Logs (BenchFFT.forFromM a b body) (BenchFFT.forFromM a b body') ((b - a) * m) :=
  forRangeM fun i => h (a + i)

/-- As many writes as cells that are written. -/
theorem perm_range (h : Logs f g n) {b : Buf α} {s : Logged α} (hrun : f ⟨b, []⟩ = .ok s)
    (hall : ∀ k < n, k ∈ s.log) : s.log.Perm (List.range n) := by
  have hlength := h.length _ s hrun
  have hsub : List.range n ⊆ s.log := fun k hk => hall k (List.mem_range.mp hk)
  refine (List.Subperm.perm_of_length_le (List.nodup_range.subperm hsub) ?_).symm
  rw [hlength, List.length_nil, Nat.zero_add, List.length_range]

end Logs

end BenchFFT
