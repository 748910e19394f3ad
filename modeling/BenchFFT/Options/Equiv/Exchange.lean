import BenchFFT.Options.Getopt
import Mathlib.Data.List.Basic

/-!
# The effect of `exchange`

`exchange` makes the block of the non-options and the block of the options that follow them change
places (`exchangeLoop_append`), by swaps alone, and its two indices go on describing the
non-options (`exchange_argv`).
-/

namespace BenchFFT

/-- Whichever segment is the shorter, the loop exchanges the blocks `x` and `y`. -/
theorem exchangeLoop_append (p x y s : List (List Char)) (bottom middle top : ℕ)
    (hb : bottom = p.length) (hm : middle = p.length + x.length)
    (ht : top = p.length + x.length + y.length) :
    exchangeLoop (p ++ x ++ y ++ s) bottom middle top = p ++ y ++ x ++ s := by
  induction h : x.length + y.length using Nat.strongRecOn
    generalizing p x y s bottom middle top with
  | ind n ih =>
  rw [exchangeLoop]
  split_ifs with hboth hshort
  · -- the block `x` is the shorter; `y` is split before its last `x.length` elements
    set y₁ := y.take (y.length - x.length)
    set y₂ := y.drop (y.length - x.length)
    have hy : y = y₁ ++ y₂ := (List.take_append_drop _ y).symm
    have hy₁ : y₁.length = y.length - x.length := by simp [y₁]
    have hy₂ : y₂.length = x.length := by simp [y₂]; omega
    have hswap : swapRange (p ++ x ++ y ++ s) bottom (top - (middle - bottom)) (middle - bottom)
        = p ++ y₂ ++ y₁ ++ (x ++ s) := by
      have hlen : middle - bottom = x.length := by omega
      rw [hy, hlen]
      simpa using swapRange_append p y₁ s x y₂ hy₂.symm hb (by omega)
    rw [hswap, ih (y₂.length + y₁.length) (by omega) p y₂ y₁ (x ++ s) _ _ _ hb (by omega)
      (by omega) rfl, hy]
    simp
  · set x₁ := x.take y.length
    set x₂ := x.drop y.length
    have hx : x = x₁ ++ x₂ := (List.take_append_drop _ x).symm
    have hx₁ : x₁.length = y.length := by simp [x₁]; omega
    have hx₂ : x₂.length = x.length - y.length := by simp [x₂]
    have hswap : swapRange (p ++ x ++ y ++ s) bottom middle (top - middle)
        = p ++ y ++ x₂ ++ x₁ ++ s := by
      have hlen : top - middle = x₁.length := by omega
      rw [hx, hlen]
      simpa using swapRange_append p x₂ s x₁ y hx₁ hb (by omega)
    have hrest := ih (x₂.length + x₁.length) (by omega) (p ++ y) x₂ x₁ s
      (bottom + (top - middle)) middle top
      (by simp; omega) (by simp; omega) (by simp; omega) rfl
    rw [hswap, hrest, hx]
    simp
  · -- one of the blocks is empty
    have hempty : x = [] ∨ y = [] := by
      rw [← List.length_eq_zero_iff, ← List.length_eq_zero_iff]
      omega
    rcases hempty with rfl | rfl <;> simp

/-- The elements `[i, j)` of a list. -/
def segment (l : List (List Char)) (i j : ℕ) : List (List Char) := (l.take j).drop i

theorem segment_append (p x s : List (List Char)) {i j : ℕ} (hi : i = p.length)
    (hj : j = p.length + x.length) : segment (p ++ x ++ s) i j = x := by
  subst hi hj
  rw [segment, List.take_append_of_le_length (by simp), List.take_of_length_le (by simp),
    List.drop_left]

theorem take_append_segment (l : List (List Char)) {i j : ℕ} (hij : i ≤ j) :
    l.take i ++ segment l i j = l.take j := by
  conv_rhs => rw [← List.take_append_drop i (l.take j), List.take_take, Nat.min_eq_left hij]
  rfl

theorem eq_segments (l : List (List Char)) {i j k : ℕ} (hij : i ≤ j) (hjk : j ≤ k) :
    l.take i ++ segment l i j ++ segment l j k ++ l.drop k = l := by
  rw [take_append_segment l hij, take_append_segment l hjk, List.take_append_drop]

/-- The options processed since the non-options were skipped come before them; each of the two
blocks, and the rest of `argv`, is as it was, and the indices still describe the non-options. -/
theorem exchange_argv (s : Getopt) (hfirst : s.firstNonopt ≤ s.lastNonopt)
    (hlast : s.lastNonopt ≤ s.optind) (hoptind : s.optind ≤ s.argc) :
    (exchange s).argv = s.argv.take s.firstNonopt ++ segment s.argv s.lastNonopt s.optind
        ++ segment s.argv s.firstNonopt s.lastNonopt ++ s.argv.drop s.optind ∧
      segment (exchange s).argv (exchange s).firstNonopt (exchange s).lastNonopt
        = segment s.argv s.firstNonopt s.lastNonopt := by
  have hp : (s.argv.take s.firstNonopt).length = s.firstNonopt := by
    simp only [Getopt.argc] at hoptind
    simp
    omega
  have hx : (segment s.argv s.firstNonopt s.lastNonopt).length = s.lastNonopt - s.firstNonopt := by
    simp only [Getopt.argc] at hoptind
    simp [segment]
    omega
  have hy : (segment s.argv s.lastNonopt s.optind).length = s.optind - s.lastNonopt := by
    simp only [Getopt.argc] at hoptind
    simp [segment]
    omega
  have hargv : (exchange s).argv = s.argv.take s.firstNonopt
      ++ segment s.argv s.lastNonopt s.optind
      ++ segment s.argv s.firstNonopt s.lastNonopt ++ s.argv.drop s.optind := by
    have hloop := exchangeLoop_append (s.argv.take s.firstNonopt)
      (segment s.argv s.firstNonopt s.lastNonopt) (segment s.argv s.lastNonopt s.optind)
      (s.argv.drop s.optind) _ s.lastNonopt s.optind hp.symm (by omega) (by omega)
    rwa [eq_segments s.argv hfirst hlast] at hloop
  refine ⟨hargv, ?_⟩
  rw [hargv]
  refine segment_append _ _ _ ?_ ?_
  · simp only [List.length_append, hp, hy]
    rfl
  · simp only [List.length_append, hp, hy, hx]
    change s.optind = _
    omega

theorem exchange_argv_twoOperands :
    let s : Getopt :=
      { argv := ["bench".toList, "8".toList, "i4".toList, "-v".toList]
        optind := 4, firstNonopt := 1, lastNonopt := 3 }
    (exchange s).argv = ["bench".toList, "-v".toList, "8".toList, "i4".toList] ∧
      segment (exchange s).argv (exchange s).firstNonopt (exchange s).lastNonopt
        = ["8".toList, "i4".toList] :=
  exchange_argv _ (by decide) (by decide) (by decide)

end BenchFFT
