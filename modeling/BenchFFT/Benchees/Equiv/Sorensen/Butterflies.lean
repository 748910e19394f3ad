import BenchFFT.Benchees.Equiv.Sorensen.Levels
import BenchFFT.Benchees.Sorensen

/-!
# The butterflies of the split-radix transforms

A butterfly replaces the cells with the same offset in the four quarters of a block (`Quarters`);
the general one does so for two offsets.  Below and above a stage these cells hold the entries of
the parts (`parts_*`) and those of the whole (`block_*`), here both in terms of the entries of the
parts.  The general butterfly has the offsets `j` and `n4 - j`, the first one the offset `0`, and
the middle one `n4 / 2`.
-/

namespace BenchFFT.Sorensen

open Buf Complex SplitRadix

variable {R : Type} {m n4 i : ℕ}

/-- The cells with the offset `i` in the four quarters. -/
def Quarters (n4 i k : ℕ) : Prop := k = i ∨ k = n4 + i ∨ k = 2 * n4 + i ∨ k = 3 * n4 + i

/-- What these cells hold. -/
structure Hold (n4 i : ℕ) (a : ℕ → R) (x1 x2 x3 x4 : R) : Prop where
  x1 : a i = x1
  x2 : a (n4 + i) = x2
  x3 : a (2 * n4 + i) = x3
  x4 : a (3 * n4 + i) = x4

theorem Hold.of_eq {a c : ℕ → R} {x1 x2 x3 x4 : R} (ha : Hold n4 i a x1 x2 x3 x4)
    (h : ∀ k, Quarters n4 i k → c k = a k) : Hold n4 i c x1 x2 x3 x4 where
  x1 := (h _ (Or.inl rfl)).trans ha.x1
  x2 := (h _ (Or.inr (Or.inl rfl))).trans ha.x2
  x3 := (h _ (Or.inr (Or.inr (Or.inl rfl)))).trans ha.x3
  x4 := (h _ (Or.inr (Or.inr (Or.inr rfl)))).trans ha.x4

/-- The cells of two arrays that hold the same. -/
theorem Hold.eq {a c : ℕ → R} {x1 x2 x3 x4 : R} (ha : Hold n4 i a x1 x2 x3 x4)
    (hc : Hold n4 i c x1 x2 x3 x4) {k : ℕ} (hk : Quarters n4 i k) : a k = c k := by
  rcases hk with rfl | rfl | rfl | rfl
  · rw [ha.x1, hc.x1]
  · rw [ha.x2, hc.x2]
  · rw [ha.x3, hc.x3]
  · rw [ha.x4, hc.x4]

theorem Hold.cast {a : ℕ → R} {x1 x2 x3 x4 y1 y2 y3 y4 : R} (h : Hold n4 i a x1 x2 x3 x4)
    (h1 : x1 = y1) (h2 : x2 = y2) (h3 : x3 = y3) (h4 : x4 = y4) : Hold n4 i a y1 y2 y3 y4 := by
  subst h1 h2 h3 h4
  exact h

section Puts

variable {old new : ℕ → R} {f : Buf R → Except Abort (Buf R)} {g : (ℕ → R) → ℕ → R}
  {x1 x2 x3 x4 x1' x2' x3' x4' : R} (hold : Hold n4 i old x1 x2 x3 x4)
  (hnew : Hold n4 i new x1' x2' x3' x4')

include hold hnew

/-- A butterfly of one offset. -/
theorem quarters_puts (hrun : Runs m f g)
    (hcells : ∀ c, Hold n4 i c x1 x2 x3 x4 → Hold n4 i (g c) x1' x2' x3' x4')
    (hrest : ∀ c k, ¬Quarters n4 i k → g c k = c k) : Puts m f (Quarters n4 i) old new := by
  refine Puts.intro hrun ⟨fun c hc k hk => ?_, hrest⟩
  exact (hcells c (hold.of_eq hc)).eq hnew hk

/-- A butterfly of two offsets. -/
theorem twoQuarters_puts {j : ℕ} {y1 y2 y3 y4 y1' y2' y3' y4' : R}
    (hold' : Hold n4 j old y1 y2 y3 y4) (hnew' : Hold n4 j new y1' y2' y3' y4')
    (hrun : Runs m f g) (hcells : ∀ c, Hold n4 i c x1 x2 x3 x4 → Hold n4 j c y1 y2 y3 y4 →
      Hold n4 i (g c) x1' x2' x3' x4' ∧ Hold n4 j (g c) y1' y2' y3' y4')
    (hrest : ∀ c k, ¬(Quarters n4 i k ∨ Quarters n4 j k) → g c k = c k) :
    Puts m f (fun k => Quarters n4 i k ∨ Quarters n4 j k) old new := by
  refine Puts.intro hrun ⟨fun c hc k hk => ?_, hrest⟩
  obtain ⟨h, h'⟩ := hcells c (hold.of_eq fun k hk => hc k (Or.inl hk))
    (hold'.of_eq fun k hk => hc k (Or.inr hk))
  exact hk.elim (h.eq hnew) (h'.eq hnew')

end Puts

variable [Field R] {old new : ℕ → R}

theorem butterfly2_puts (hm : i + 1 < m) (h0 : new i = old i + old (i + 1))
    (h1 : new (i + 1) = old i - old (i + 1)) :
    Puts m (butterfly2 i) (fun k => k = i ∨ k = i + 1) old new := by
  apply Puts.intro
  · unfold butterfly2
    repeat
      first
      | apply Runs.read (by omega); intro _
      | apply Runs.bind (Runs.write (by omega) _)
      | exact Runs.write (by omega) _
  · constructor
    · intro c hc k hk
      have hc0 := hc i (Or.inl rfl)
      have hc1 := hc (i + 1) (Or.inr rfl)
      rcases hk with rfl | rfl
      all_goals
        simp (disch := omega) only [Function.update_self, Function.update_of_ne, hc0, hc1, h0, h1]
    · intro c k hk
      rw [not_or] at hk
      simp (disch := omega) only [Function.update_of_ne]

section Single

variable {x1 x2 x3 x4 : R} (hm : 3 * n4 + i < m) (hn4 : 0 < n4) (hold : Hold n4 i old x1 x2 x3 x4)

include hm hn4 hold

theorem rstage20_puts (hnew : Hold n4 i new (x1 + (x4 + x3)) x2 (x1 - (x4 + x3)) (x4 - x3)) :
    Puts m (rstage20 n4 i) (Quarters n4 i) old new := by
  apply quarters_puts hold hnew
  · unfold rstage20
    dsimp only
    repeat
      first
      | apply Runs.read (by omega); intro _
      | apply Runs.bind (Runs.write (by omega) _)
      | exact Runs.write (by omega) _
  · intro c hc
    constructor
    all_goals
      simp (disch := omega) only [Function.update_self, Function.update_of_ne, hc.x1, hc.x2, hc.x3,
        hc.x4]
  · intro c k hk
    simp only [Quarters, not_or] at hk
    simp (disch := omega) only [Function.update_of_ne]

theorem rstage50_puts {sqrtHalf : R}
    (hnew : Hold n4 i new (x1 + (x3 - x4) * sqrtHalf) (x1 - (x3 - x4) * sqrtHalf)
      (-x2 - (x3 + x4) * sqrtHalf) (x2 - (x3 + x4) * sqrtHalf)) :
    Puts m (rstage50 n4 sqrtHalf i) (Quarters n4 i) old new := by
  apply quarters_puts hold hnew
  · unfold rstage50
    dsimp only
    repeat
      first
      | apply Runs.read (by omega); intro _
      | apply Runs.bind (Runs.write (by omega) _)
      | exact Runs.write (by omega) _
  · intro c hc
    constructor
    all_goals
      simp (disch := omega) only [Function.update_self, Function.update_of_ne, hc.x1, hc.x2, hc.x3,
        hc.x4]
  · intro c k hk
    simp only [Quarters, not_or] at hk
    simp (disch := omega) only [Function.update_of_ne]

theorem irstage20_puts
    (hnew : Hold n4 i new (x1 + x3) ((2 : ℕ) * x2) (x1 - x3 - (2 : ℕ) * x4)
      (x1 - x3 + (2 : ℕ) * x4)) :
    Puts m (irstage20 n4 i) (Quarters n4 i) old new := by
  apply quarters_puts hold hnew
  · unfold irstage20
    dsimp only
    repeat
      first
      | apply Runs.read (by omega); intro _
      | apply Runs.bind (Runs.write (by omega) _)
      | exact Runs.write (by omega) _
  · intro c hc
    constructor
    all_goals
      simp (disch := omega) only [Function.update_self, Function.update_of_ne, hc.x1, hc.x2, hc.x3,
        hc.x4]
  · intro c k hk
    simp only [Quarters, not_or] at hk
    simp (disch := omega) only [Function.update_of_ne]

theorem irstage50_puts {sqrtTwo : R}
    (hnew : Hold n4 i new (x1 + x2) (x4 - x3) (-((x4 + x3) * sqrtTwo) - (x2 - x1) * sqrtTwo)
      (-((x4 + x3) * sqrtTwo) + (x2 - x1) * sqrtTwo)) :
    Puts m (irstage50 n4 sqrtTwo i) (Quarters n4 i) old new := by
  apply quarters_puts hold hnew
  · unfold irstage50
    dsimp only
    repeat
      first
      | apply Runs.read (by omega); intro _
      | apply Runs.bind (Runs.write (by omega) _)
      | exact Runs.write (by omega) _
  · intro c hc
    constructor
    all_goals
      simp (disch := omega) only [Function.update_self, Function.update_of_ne, hc.x1, hc.x2, hc.x3,
        hc.x4]
  · intro c k hk
    simp only [Quarters, not_or] at hk
    simp (disch := omega) only [Function.update_of_ne]

end Single

section Double

variable {jn : ℕ} {w : Twiddle R} {x1 x2 x3 x4 y1 y2 y3 y4 : R} (hm : 3 * n4 + (i + jn) < m)
  (h0 : 0 < jn) (hjn : jn < n4) (holdx : Hold n4 i old x1 x2 x3 x4)
  (holdy : Hold n4 (i + jn) old y1 y2 y3 y4)

include hm h0 hjn holdx holdy

theorem rstage80_puts {t1 t2 t3 t4 : R} (ht1 : t1 = x3 * w.cc1 + y3 * w.ss1)
    (ht2 : t2 = y3 * w.cc1 - x3 * w.ss1) (ht3 : t3 = x4 * w.cc3 + y4 * w.ss3)
    (ht4 : t4 = y4 * w.cc3 - x4 * w.ss3)
    (hnewx : Hold n4 i new (x1 + (t1 + t3)) (y1 + (t2 - t4)) (t2 + t4 - y2) (x2 - (t1 - t3)))
    (hnewy : Hold n4 (i + jn) new (y1 - (t2 - t4)) (x1 - (t1 + t3)) (-x2 - (t1 - t3))
      (t2 + t4 + y2)) :
    Puts m (rstage80 n4 w jn i) (fun k => Quarters n4 i k ∨ Quarters n4 (i + jn) k) old new := by
  apply twoQuarters_puts holdx hnewx holdy hnewy
  · unfold rstage80
    dsimp only
    repeat
      first
      | apply Runs.read (by omega); intro _
      | apply Runs.bind (Runs.write (by omega) _)
      | exact Runs.write (by omega) _
  · intro c hx hy
    -- no cell is read after it has been written
    simp (disch := omega) only [Function.update_of_ne, hx.x1, hx.x2, hx.x3, hx.x4, hy.x1, hy.x2,
      hy.x3, hy.x4, ← ht1, ← ht2, ← ht3, ← ht4]
    constructor
    all_goals
      constructor
      all_goals simp (disch := omega) only [Function.update_self, Function.update_of_ne]
  · intro c k hk
    simp only [Quarters, not_or] at hk
    simp (disch := omega) only [Function.update_of_ne]

theorem irstage80_puts {t1 t2 t3 t4 : R} (ht1 : t1 = x1 - y2) (ht2 : t2 = y1 - x2)
    (ht3 : t3 = y4 + x3) (ht4 : t4 = x4 + y3)
    (hnewx : Hold n4 i new (x1 + y2) (x4 - y3) ((t1 - t4) * w.cc1 + (t2 - t3) * w.ss1)
      ((t1 + t4) * w.cc3 - (t2 + t3) * w.ss3))
    (hnewy : Hold n4 (i + jn) new (x2 + y1) (y4 - x3) (-(t2 - t3) * w.cc1 + (t1 - t4) * w.ss1)
      ((t2 + t3) * w.cc3 + (t1 + t4) * w.ss3)) :
    Puts m (irstage80 n4 w jn i) (fun k => Quarters n4 i k ∨ Quarters n4 (i + jn) k) old new := by
  apply twoQuarters_puts holdx hnewx holdy hnewy
  · unfold irstage80
    dsimp only
    repeat
      first
      | apply Runs.read (by omega); intro _
      | apply Runs.bind (Runs.write (by omega) _)
      | exact Runs.write (by omega) _
  · intro c hx hy
    -- no cell is read after it has been written
    simp (disch := omega) only [Function.update_of_ne, hx.x1, hx.x2, hx.x3, hx.x4, hy.x1, hy.x2,
      hy.x3, hy.x4, ← ht1, ← ht2, ← ht3, ← ht4]
    constructor
    all_goals
      constructor
      all_goals simp (disch := omega) only [Function.update_self, Function.update_of_ne]
  · intro c k hk
    simp only [Quarters, not_or] at hk
    simp (disch := omega) only [Function.update_of_ne]

end Double

section Cells

variable {w : ℕ → ℝ} {M s q n4 p j : ℕ} {x : ℕ → ℝ} (hn4 : n4 = 2 ^ s) (hp : p = q * (4 * n4))
  (hq : Whole q) {E F A B P Q : ℂ}

include hn4 hp hq

/-! ### The cells of the general butterfly -/

section General

variable (h0 : 0 < j) (hj : 2 * j < n4) (hE : E = spectra M x (s + 1) (2 * q) j)
  (hF : F = spectra M x (s + 1) (2 * q) (n4 - j))

include h0 hj hE hF

section Parts

variable (hA : A = spectra M x s (4 * q + 2) j) (hB : B = spectra M x s (4 * q + 3) j)

include hA hB

theorem parts_left : Hold n4 (p + j) (level w (spectra M x) (s + 1)) (w (s + 1) * E.re)
    (w (s + 1) * F.im) (w s * A.re) (w s * B.re) where
  x1 := by rw [hE, evens_re hn4 hp (j := j) (by omega) rfl]
  x2 := by rw [hF, evens_im hn4 hp (j := n4 - j) (by omega) (by omega) (by omega)]
  x3 := by rw [hA, quarter_re hn4 hp hq (j := j) (b := 2) rfl (by omega) (by omega)]
  x4 := by rw [hB, quarter_re hn4 hp hq (j := j) (b := 3) rfl (by omega) (by omega)]

theorem parts_right : Hold n4 (p + (n4 - j)) (level w (spectra M x) (s + 1)) (w (s + 1) * F.re)
    (w (s + 1) * E.im) (w s * A.im) (w s * B.im) where
  x1 := by rw [hF, evens_re hn4 hp (j := n4 - j) (by omega) rfl]
  x2 := by rw [hE, evens_im hn4 hp (j := j) h0 (by omega) (by omega)]
  x3 := by rw [hA, quarter_im hn4 hp hq (j := j) (b := 2) rfl h0 hj (by omega)]
  x4 := by rw [hB, quarter_im hn4 hp hq (j := j) (b := 3) rfl h0 hj (by omega)]

end Parts

variable (hs : s + 2 ≤ M) (hP : P = thirdTurned M x s q j) (hQ : Q = fourthTurned M x s q j)

include hs hP hQ

theorem block_left : Hold n4 (p + j) (level w (spectra M x) (s + 2))
    (w (s + 2) * (E.re + (P.re + Q.re))) (w (s + 2) * (F.re + (P.im - Q.im)))
    (w (s + 2) * (P.im + Q.im - E.im)) (w (s + 2) * (F.im - (P.re - Q.re))) where
  x1 := by
    rw [block_re hn4 hp hq (j := j) (by omega) rfl, block_split x hs, hE, hP, hQ]
    simp
  x2 := by
    rw [block_re hn4 hp hq (j := n4 + j) (by omega) (by omega), hn4,
      block_second x hs (by omega), hF, hP, hQ, hn4]
    congr 1
    simp
    ring
  x3 := by
    rw [block_im hn4 hp hq (j := 2 * n4 - j) (by omega) (by omega) (by omega), hn4,
      block_third x hs (by omega), hE, hP, hQ]
    congr 1
    simp
    ring
  x4 := by
    rw [block_im hn4 hp hq (j := n4 - j) (by omega) (by omega) (by omega), hn4,
      block_first x hs (by omega), hF, hP, hQ, hn4]
    simp

theorem block_right : Hold n4 (p + (n4 - j)) (level w (spectra M x) (s + 2))
    (w (s + 2) * (F.re - (P.im - Q.im))) (w (s + 2) * (E.re - (P.re + Q.re)))
    (w (s + 2) * (-F.im - (P.re - Q.re))) (w (s + 2) * (P.im + Q.im + E.im)) where
  x1 := by
    rw [block_re hn4 hp hq (j := n4 - j) (by omega) rfl, hn4, block_first x hs (by omega), hF, hP,
      hQ, hn4]
    congr 1
    simp
    ring
  x2 := by
    rw [block_re hn4 hp hq (j := 2 * n4 - j) (by omega) (by omega), hn4,
      block_third x hs (by omega), hE, hP, hQ]
    simp
  x3 := by
    rw [block_im hn4 hp hq (j := n4 + j) (by omega) (by omega) (by omega), hn4,
      block_second x hs (by omega), hF, hP, hQ, hn4]
    simp
  x4 := by
    rw [block_im hn4 hp hq (j := j) h0 (by omega) (by omega), block_split x hs, hE, hP, hQ]
    congr 1
    simp
    ring

end General

/-! ### The cells of the first butterfly -/

section First

variable (hE : E = spectra M x (s + 1) (2 * q) 0) (hF : F = spectra M x (s + 1) (2 * q) n4)
  (hA : A = spectra M x s (4 * q + 2) 0) (hB : B = spectra M x s (4 * q + 3) 0)

include hE hF hA hB

theorem parts_first : Hold n4 p (level w (spectra M x) (s + 1)) (w (s + 1) * E.re)
    (w (s + 1) * F.re) (w s * A.re) (w s * B.re) where
  x1 := by rw [hE, evens_re hn4 hp (j := 0) (Nat.zero_le n4) (Nat.add_zero p).symm]
  x2 := by rw [hF, evens_re hn4 hp (j := n4) le_rfl (by omega)]
  x3 := by rw [hA, quarter_re hn4 hp hq (j := 0) (b := 2) rfl (by omega) (by omega)]
  x4 := by rw [hB, quarter_re hn4 hp hq (j := 0) (b := 3) rfl (by omega) (by omega)]

theorem block_first_cells (hs : s + 2 ≤ M) : Hold n4 p (level w (spectra M x) (s + 2))
    (w (s + 2) * (E.re + (A.re + B.re))) (w (s + 2) * F.re) (w (s + 2) * (E.re - (A.re + B.re)))
    (w (s + 2) * (B.re - A.re)) := by
  have hpos : 0 < n4 := hn4 ▸ Nat.two_pow_pos s
  have hP : thirdTurned M x s q 0 = A := by rw [thirdTurned, pow_zero, one_mul, hA]
  have hQ : fourthTurned M x s q 0 = B := by rw [fourthTurned, Nat.mul_zero, pow_zero, one_mul, hB]
  have hAim : A.im = 0 := by
    rw [hA]
    exact spectra_im x (dvd_zero _)
  have hBim : B.im = 0 := by
    rw [hB]
    exact spectra_im x (dvd_zero _)
  have hFim : F.im = 0 := by
    rw [hF, hn4]
    exact spectra_im x ⟨1, by ring⟩
  have hsecond := block_second x (q := q) hs (Nat.zero_le (2 ^ s))
  have hthird := block_third x (q := q) hs (Nat.zero_le (2 ^ s))
  rw [Nat.sub_zero, ← hn4, Nat.add_zero n4, ← hF, hP, hQ] at hsecond
  rw [Nat.sub_zero, ← hn4, ← hE, hP, hQ] at hthird
  constructor
  · rw [block_re hn4 hp hq (j := 0) (Nat.zero_le _) (Nat.add_zero p).symm, block_split x hs, ← hE,
      hP, hQ, add_re, add_re]
  · rw [block_re hn4 hp hq (j := n4) (by omega) (by omega), hsecond]
    simp only [sub_re, mul_re, sub_im, conj_re, I_re, I_im, hAim, hBim]
    ring
  · rw [block_re hn4 hp hq (j := 2 * n4) (by omega) (by omega), hthird, conj_re, sub_re, add_re]
  · rw [block_im hn4 hp hq (j := n4) hpos (by omega) (by omega), hsecond]
    simp only [sub_re, mul_im, sub_im, conj_im, I_re, I_im, hFim]
    ring

end First

/-! ### The cells of the middle butterfly -/

section Middle

variable {n8 : ℕ} (hn8 : n4 = 2 * n8) (hE : E = spectra M x (s + 1) (2 * q) n8)
  (hA : A = spectra M x s (4 * q + 2) n8) (hB : B = spectra M x s (4 * q + 3) n8)

include hn8 hE hA hB

theorem parts_middle : Hold n4 (p + n8) (level w (spectra M x) (s + 1)) (w (s + 1) * E.re)
    (w (s + 1) * E.im) (w s * A.re) (w s * B.re) := by
  have hpos : 0 < n4 := hn4 ▸ Nat.two_pow_pos s
  constructor
  · rw [hE, evens_re hn4 hp (j := n8) (by omega) rfl]
  · rw [hE, evens_im hn4 hp (j := n8) (by omega) (by omega) (by omega)]
  · rw [hA, quarter_re hn4 hp hq (j := n8) (b := 2) rfl (by omega) (by omega)]
  · rw [hB, quarter_re hn4 hp hq (j := n8) (b := 3) rfl (by omega) (by omega)]

theorem block_middle (hs : s + 2 ≤ M) : Hold n4 (p + n8) (level w (spectra M x) (s + 2))
    (w (s + 2) * (E.re + (A.re - B.re) * (√2 / (2 : ℕ))))
    (w (s + 2) * (E.re - (A.re - B.re) * (√2 / (2 : ℕ))))
    (w (s + 2) * (-E.im - (A.re + B.re) * (√2 / (2 : ℕ))))
    (w (s + 2) * (E.im - (A.re + B.re) * (√2 / (2 : ℕ)))) := by
  have hpos : 0 < n4 := hn4 ▸ Nat.two_pow_pos s
  -- the third and the fourth quarter are turned by an eighth and by three eighths of a circle
  have hroot : Verify.root (-1) (4 * 2 ^ s) ^ n8 = ⟨√2 / (2 : ℕ), -(√2 / (2 : ℕ))⟩ := by
    rw [← hn4, hn8, show 4 * (2 * n8) = 8 * n8 by ring, root_eighth (by omega)]
  have hthree : Verify.root (-1) (4 * 2 ^ s) ^ (3 * n8)
      = -I * ⟨√2 / (2 : ℕ), -(√2 / (2 : ℕ))⟩ := by
    have hquarter : Verify.root (-1) (4 * 2 ^ s) ^ n4 = -I := hn4 ▸ root_quarter hpos
    rw [show 3 * n8 = n4 + n8 by omega, pow_add, hquarter, hroot]
  have hAim : A.im = 0 := by
    rw [hA]
    exact spectra_im x ⟨1, by omega⟩
  have hBim : B.im = 0 := by
    rw [hB]
    exact spectra_im x ⟨1, by omega⟩
  have hP : thirdTurned M x s q n8 = ⟨A.re * (√2 / (2 : ℕ)), -(A.re * (√2 / (2 : ℕ)))⟩ := by
    rw [thirdTurned, hroot, ← hA]
    apply Complex.ext <;> simp [hAim, mul_comm]
  have hQ : fourthTurned M x s q n8 = ⟨-(B.re * (√2 / (2 : ℕ))), -(B.re * (√2 / (2 : ℕ)))⟩ := by
    rw [fourthTurned, hthree, ← hB]
    apply Complex.ext <;> simp [hBim, mul_comm]
  have hsplit := block_split x (q := q) hs n8
  have hthird := block_third x (q := q) (j := n8) hs (by omega)
  rw [← hE, hP, hQ] at hsplit
  rw [← hn4, ← hE, hP, hQ] at hthird
  constructor
  · rw [block_re hn4 hp hq (j := n8) (by omega) rfl, hsplit]
    simp only [add_re]
    ring
  · rw [block_re hn4 hp hq (j := 2 * n4 - n8) (by omega) (by omega), hthird]
    simp only [conj_re, sub_re, add_re]
    ring
  · rw [block_im hn4 hp hq (j := 2 * n4 - n8) (by omega) (by omega) (by omega), hthird]
    simp only [conj_im, sub_im, add_im]
    ring
  · rw [block_im hn4 hp hq (j := n8) (by omega) (by omega) (by omega), hsplit]
    simp only [add_im]
    ring

end Middle

end Cells

end BenchFFT.Sorensen
