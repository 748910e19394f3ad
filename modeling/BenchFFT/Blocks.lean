import BenchFFT.Loop
import Mathlib.Data.List.Basic
import Mathlib.Data.List.Induction

/-!
# Exchanging blocks of a list in place

`swapAt` exchanges two elements and `swapRange` two ranges of the same length, element by element.
Both are described on a list that is written as the blocks it consists of: the blocks that are
exchanged change places, the others stay (`swapRange_append`).
-/

namespace BenchFFT

variable {α : Type*}

/-- `t = l[i]; l[i] = l[j]; l[j] = t`. -/
def swapAt (l : List α) (i j : ℕ) : List α :=
  if h : i < l.length ∧ j < l.length then (l.set i (l.get ⟨j, h.2⟩)).set j (l.get ⟨i, h.1⟩) else l

/-- `for (k = 0; k < len; k++)` exchange `l[i + k]` and `l[j + k]`. -/
def swapRange (l : List α) (i j len : ℕ) : List α :=
  forRange len (fun k l => swapAt l (i + k) (j + k)) l

theorem swapAt_append (p m s : List α) (x y : α) {i j : ℕ} (hi : i = p.length)
    (hj : j = p.length + 1 + m.length) :
    swapAt (p ++ x :: (m ++ y :: s)) i j = p ++ y :: (m ++ x :: s) := by
  subst hi hj
  have hj : p.length + 1 + m.length = p.length + (m.length + 1) := by omega
  rw [swapAt, dif_pos (by simp; omega)]
  simp [hj, List.set_append_right, List.getElem_append_right]

/-- Two blocks of one length change places; what is before, between and after them stays. -/
theorem swapRange_append (p m s x y : List α) {i j : ℕ} (hxy : x.length = y.length)
    (hi : i = p.length) (hj : j = p.length + x.length + m.length) :
    swapRange (p ++ x ++ m ++ y ++ s) i j x.length = p ++ y ++ m ++ x ++ s := by
  induction x using List.reverseRecOn generalizing y m s with
  | nil => simp [swapRange, List.length_eq_zero_iff.mp hxy.symm]
  | append_singleton x a ih =>
    obtain rfl | ⟨y, b, rfl⟩ := y.eq_nil_or_concat'
    · simp at hxy
    have hlen : x.length = y.length := by simpa using hxy
    -- the last elements of the two blocks are still in place when their turn comes
    have hrest := ih (a :: m) (b :: s) y hlen (by simp at hj ⊢; omega)
    have hsplit : p ++ (x ++ [a]) ++ m ++ (y ++ [b]) ++ s
        = p ++ x ++ a :: m ++ y ++ b :: s := by simp
    rw [swapRange] at hrest ⊢
    rw [List.length_append, List.length_singleton, forRange_succ, hsplit, hrest]
    have hswap := swapAt_append (p ++ y) (m ++ x) s a b (i := i + x.length) (j := j + x.length)
      (by simp; omega) (by simp at hj ⊢; omega)
    simpa using hswap

end BenchFFT
