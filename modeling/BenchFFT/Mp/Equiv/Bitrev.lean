import BenchFFT.Mp.Fft
import Mathlib.Data.Nat.Bitwise
import Mathlib.Tactic.Ring

/-!
# Bit reversal

`bitrev (2 ^ t)` moves each entry to the index with its `t` bits reversed (`bitrev_permutes`).  The
counter `j` is the reversal of `i` (`reversedCounter_rev`), and the pair of `k` and `rev t k` is
swapped in the step of the smaller of the two.
-/

namespace BenchFFT.Mp

variable {A : Type}

/-! ### Entries of an array -/

/-- Entry `k` of an array of complex numbers. -/
def entry (a : ℕ → A) (k : ℕ) : A × A := (a (2 * k), a (2 * k + 1))

theorem entry_setEntry (a : ℕ → A) (k : ℕ) (z : A × A) (j : ℕ) :
    entry (setEntry a k z) j = if j = k then z else entry a j := by
  unfold entry setEntry
  split_ifs with h
  · rw [h, Function.update_self, Function.update_of_ne (by omega), Function.update_self]
  · rw [Function.update_of_ne (by omega), Function.update_of_ne (by omega),
      Function.update_of_ne (by omega), Function.update_of_ne (by omega)]

theorem entry_swapEntries (a : ℕ → A) {i j : ℕ} (k : ℕ) :
    entry (swapEntries a i j) k
      = if k = j then entry a i else if k = i then entry a j else entry a k := by
  unfold swapEntries
  rw [entry_setEntry, entry_setEntry]
  rfl

/-! ### The reversed counter -/

/-- `k` with its `t` bits reversed. -/
def rev : ℕ → ℕ → ℕ
  | 0, _ => 0
  | t + 1, k => k % 2 * 2 ^ t + rev t (k / 2)

theorem rev_zero (t : ℕ) : rev t 0 = 0 := by
  induction t with
  | zero => rfl
  | succ t ih => rw [rev, Nat.zero_mod, Nat.zero_mul, Nat.zero_div, ih]

theorem rev_lt (t k : ℕ) : rev t k < 2 ^ t := by
  induction t generalizing k with
  | zero => exact Nat.one_pos
  | succ t ih =>
    have h := ih (k / 2)
    rw [rev, Nat.pow_succ]
    rcases Nat.mod_two_eq_zero_or_one k with h2 | h2 <;> rw [h2] <;> omega

theorem rev_two_mul (t k : ℕ) : rev (t + 1) (2 * k) = rev t k := by
  rw [rev, Nat.mul_mod_right, Nat.zero_mul, Nat.zero_add, Nat.mul_div_cancel_left k two_pos]

theorem rev_two_mul_add_one (t k : ℕ) : rev (t + 1) (2 * k + 1) = 2 ^ t + rev t k := by
  rw [rev, Nat.mul_add_mod, show (2 * k + 1) / 2 = k by omega]
  simp

/-- The low bits become the high ones. -/
theorem rev_append {t k : ℕ} (u l : ℕ) (hk : k < 2 ^ t) :
    rev (t + u) (l * 2 ^ t + k) = rev t k * 2 ^ u + rev u l := by
  induction t generalizing k with
  | zero =>
    obtain rfl : k = 0 := Nat.lt_one_iff.mp hk
    rw [Nat.zero_add, Nat.pow_zero, Nat.mul_one, Nat.add_zero, rev, Nat.zero_mul, Nat.zero_add]
  | succ t ih =>
    rw [Nat.pow_succ] at hk
    have hindex : l * 2 ^ (t + 1) = 2 * (l * 2 ^ t) := by ring
    have hmod : (l * 2 ^ (t + 1) + k) % 2 = k % 2 := by omega
    have hdiv : (l * 2 ^ (t + 1) + k) / 2 = l * 2 ^ t + k / 2 := by omega
    rw [Nat.succ_add, rev, hmod, hdiv, ih (by omega), rev, Nat.add_mul, Nat.mul_assoc,
      ← Nat.pow_add, Nat.add_assoc]

/-- The top bit becomes the lowest. -/
theorem rev_high (t : ℕ) {b k : ℕ} (hb : b < 2) (hk : k < 2 ^ t) :
    rev (t + 1) (b * 2 ^ t + k) = 2 * rev t k + b := by
  have hbit : rev 1 b = b := by
    rw [rev, Nat.mod_eq_of_lt hb, Nat.pow_zero, Nat.mul_one, rev, Nat.add_zero]
  rw [rev_append 1 b hk, hbit, Nat.pow_one, Nat.mul_comm]

theorem rev_rev {t k : ℕ} (hk : k < 2 ^ t) : rev t (rev t k) = k := by
  induction t generalizing k with
  | zero =>
    rw [Nat.pow_zero] at hk
    exact (Nat.lt_one_iff.mp hk).symm
  | succ t ih =>
    rw [Nat.pow_succ] at hk
    change rev (t + 1) (k % 2 * 2 ^ t + rev t (k / 2)) = k
    rw [rev_high t (Nat.mod_lt k two_pos) (rev_lt t _), ih (by omega)]
    omega

theorem testBit_rev {t b : ℕ} (k : ℕ) (hb : b < t) :
    (rev t k).testBit b = k.testBit (t - 1 - b) := by
  induction t generalizing k with
  | zero => exact absurd hb (Nat.not_lt_zero b)
  | succ t ih =>
    rw [rev, Nat.mul_comm, Nat.testBit_two_pow_mul_add _ (rev_lt t _)]
    split_ifs with h
    · rw [ih (k / 2) h, Nat.testBit_div_two, show t - 1 - b + 1 = t + 1 - 1 - b by omega]
    · rw [show b - t = 0 by omega, show t + 1 - 1 - b = 0 by omega, Nat.testBit_zero,
        Nat.testBit_zero, Nat.mod_mod]

/-- The reversal of the bits is a permutation of the numbers of `t` bits. -/
theorem rev_bijOn (t : ℕ) : Set.BijOn (rev t) (Set.Iio (2 ^ t)) (Set.Iio (2 ^ t)) := by
  refine ⟨fun k _ => rev_lt t k, fun k hk l hl h => ?_, fun k hk => ?_⟩
  · rw [← rev_rev hk, h, rev_rev hl]
  · exact ⟨rev t k, rev_lt t k, rev_rev hk⟩

theorem two_pow_shiftRight (t : ℕ) : 2 ^ (t + 1) >>> 1 = 2 ^ t := by
  rw [Nat.shiftRight_eq_div_pow, Nat.pow_succ, Nat.pow_one, Nat.mul_div_cancel _ two_pos]

theorem xor_two_pow {t x : ℕ} (hx : x < 2 ^ t) : x ^^^ 2 ^ t = 2 ^ t + x := by
  refine Nat.eq_of_testBit_eq fun i => ?_
  rw [Nat.testBit_xor, Nat.testBit_two_pow]
  rcases Nat.lt_trichotomy i t with h | h | h
  · rw [Nat.testBit_two_pow_add_gt h]
    simp [h.ne']
  · rw [h, Nat.testBit_two_pow_add_eq]
    simp
  · have hlt : 2 ^ t + x < 2 ^ i := by
      have h2 := Nat.pow_le_pow_right two_pos h
      rw [Nat.succ_eq_add_one, Nat.pow_succ] at h2
      omega
    rw [Nat.testBit_lt_two_pow hlt, Nat.testBit_lt_two_pow (by omega)]
    simp [h.ne]

/-- The carry runs down from the top bit. -/
theorem reversedCounter_rev {t i : ℕ} (hi : i + 1 < 2 ^ t) :
    reversedCounter (2 ^ t) (rev t i) = some (rev t (i + 1)) := by
  induction t generalizing i with
  | zero => omega
  | succ t ih =>
    rw [Nat.pow_succ] at hi
    rw [reversedCounter, two_pow_shiftRight]
    rcases Nat.even_or_odd' i with ⟨k, rfl | rfl⟩
    · -- the top bit is clear, and is set
      have hk := rev_lt t k
      have hbit : (2 ^ t + rev t k) &&& 2 ^ t ≠ 0 := by
        rw [Nat.and_two_pow, Nat.testBit_two_pow_add_eq, Nat.testBit_lt_two_pow hk]
        simp
      rw [rev_two_mul, rev_two_mul_add_one, xor_two_pow hk]
      simp only [hbit, ne_eq, not_false_eq_true, if_true]
    · -- the top bit is set; it is cleared, and the carry goes on
      have hk := rev_lt t k
      have hbit : rev t k &&& 2 ^ t = 0 := by
        rw [Nat.and_two_pow, Nat.testBit_lt_two_pow hk]
        simp
      have hne : 2 ^ t ≠ 0 := (Nat.two_pow_pos t).ne'
      rw [rev_two_mul_add_one, ← xor_two_pow hk, Nat.xor_assoc, Nat.xor_self, Nat.xor_zero]
      simp only [hbit, ne_eq, not_true_eq_false, if_false, hne]
      rw [ih (by omega), show 2 * k + 1 + 1 = 2 * (k + 1) by ring, rev_two_mul]

/-- The variables `m` and `j` after the loop of `reversedCounter`. -/
def carryLoop (m j : ℕ) : Option (ℕ × ℕ) :=
  let m' := m >>> 1
  let j' := j ^^^ m'
  if j' &&& m' ≠ 0 then some (m', j')
  else if m' = 0 then none
  else carryLoop m' j'
termination_by m
decreasing_by
  rw [Nat.shiftRight_eq_div_pow] at *
  omega

theorem reversedCounter_eq (m j : ℕ) : reversedCounter m j = (carryLoop m j).map Prod.snd := by
  fun_induction carryLoop m j with
  | case1 m j m' j' h => rw [reversedCounter, if_pos h, Option.map_some]
  | case2 m j m' j' h h0 =>
    rw [reversedCounter, if_neg h, if_pos h0, Option.map_none]
  | case3 m j m' j' h h0 ih => rw [reversedCounter, if_neg h, if_neg h0, ih]

theorem carryLoop_pos {m j m' j' : ℕ} (h : carryLoop m j = some (m', j')) : 1 ≤ m' := by
  fun_induction carryLoop m j with
  | case1 m j s x hbit =>
    obtain ⟨rfl, rfl⟩ := Prod.mk.inj (Option.some.inj h)
    refine Nat.pos_of_ne_zero fun h0 => hbit ?_
    rw [h0, Nat.and_zero]
  | case2 m j s x hbit h0 => exact absurd h nofun
  | case3 m j s x hbit h0 ih => exact ih h

/-- The loop stops before `m` is `0`. -/
theorem carryLoop_rev {t i : ℕ} (hi : i + 1 < 2 ^ t) :
    ∃ m, 1 ≤ m ∧ carryLoop (2 ^ t) (rev t i) = some (m, rev t (i + 1)) := by
  have hrun := reversedCounter_rev hi
  rw [reversedCounter_eq, Option.map_eq_some_iff] at hrun
  obtain ⟨⟨m, j⟩, hloop, rfl⟩ := hrun
  exact ⟨m, carryLoop_pos hloop, hloop⟩

/-! ### The permutation -/

/-- A step of `bitrev`. -/
def bitrevStep (n i : ℕ) (s : ℕ × (ℕ → A)) : Option (ℕ × (ℕ → A)) := do
  let a := if i < s.1 then swapEntries s.2 i s.1 else s.2
  let j ← reversedCounter n s.1
  pure (j, a)

theorem bitrev_def (n : ℕ) (a : ℕ → A) :
    bitrev n a = (forRangeM (n - 1) (bitrevStep n) (0, a)).map Prod.snd := by
  rw [Option.map_eq_bind]
  rfl

/-- After `i` steps the pairs with a member below `i` have been swapped. -/
structure Swapped (t : ℕ) (a : ℕ → A) (i : ℕ) (s : ℕ × (ℕ → A)) : Prop where
  counter : s.1 = rev t i
  entries : ∀ k < 2 ^ t,
    entry s.2 k = if k < i ∨ rev t k < i then entry a (rev t k) else entry a k
  other : ∀ k, 2 ^ t ≤ k → entry s.2 k = entry a k

/-- The entries after the step of the index `i`. -/
theorem Swapped.step_entry {t i k : ℕ} {a b : ℕ → A} (hi : i < 2 ^ t - 1)
    (hs : Swapped t a i (rev t i, b)) (hk : k < 2 ^ t) :
    entry (if i < rev t i then swapEntries b i (rev t i) else b) k
      = if k < i + 1 ∨ rev t k < i + 1 then entry a (rev t k) else entry a k := by
  have hi' := rev_rev (show i < 2 ^ t by omega)
  have hbk := hs.entries k hk
  have hbi := hs.entries i (by omega)
  have hbj := hs.entries (rev t i) (rev_lt t i)
  have hk' := rev_rev hk
  rw [hi'] at hbj
  dsimp only at hbk hbi hbj
  rcases eq_or_ne k i with rfl | hki
  · -- `k` is the index of the step
    rw [if_pos (Or.inl k.lt_succ_self)]
    by_cases hlt : k < rev t k
    · rw [if_pos hlt, entry_swapEntries, if_neg hlt.ne, if_pos rfl, hbj, if_neg (by omega)]
    · rw [if_neg hlt, hbi]
      split_ifs with h
      · rfl
      · rw [show rev t k = k by omega]
  · by_cases hkj : k = rev t i
    · -- `k` is its partner
      rw [← hkj] at hbj hi'
      rw [if_pos (Or.inr (by omega)), hi', ← hkj]
      by_cases hlt : i < k
      · rw [if_pos hlt, entry_swapEntries, if_pos rfl, hbi, if_neg (by omega)]
      · rw [if_neg hlt, hbj, if_pos (by omega)]
    · -- no other entry is moved
      have hkj' : rev t k ≠ i := fun h => hkj (by rw [← h, hk'])
      have hsame : entry (if i < rev t i then swapEntries b i (rev t i) else b) k
          = entry b k := by
        split_ifs
        · rw [entry_swapEntries, if_neg hkj, if_neg hki]
        · rfl
      rw [hsame, hbk]
      exact if_congr (by omega) rfl rfl

theorem Swapped.step {t i : ℕ} {a : ℕ → A} {s : ℕ × (ℕ → A)} (hi : i < 2 ^ t - 1)
    (hs : Swapped t a i s) :
    ∃ s', bitrevStep (2 ^ t) i s = pure s' ∧ Swapped t a (i + 1) s' := by
  obtain ⟨j, b⟩ := s
  obtain rfl : j = rev t i := hs.counter
  refine ⟨_, by rw [bitrevStep, reversedCounter_rev (by omega)]; rfl, rfl,
    fun k hk => hs.step_entry hi hk, fun k hk => ?_⟩
  have hlt := rev_lt t i
  rw [← hs.other k hk]
  dsimp only
  split_ifs
  · rw [entry_swapEntries, if_neg (by omega), if_neg (by omega)]
  · rfl

theorem bitrev_eq (t : ℕ) (a : ℕ → A) :
    ∃ a', bitrev (2 ^ t) a = some a' ∧ (∀ k < 2 ^ t, entry a' k = entry a (rev t k)) ∧
      ∀ k, 2 ^ t ≤ k → entry a' k = entry a k := by
  have h0 : Swapped t a 0 (0, a) :=
    ⟨(rev_zero t).symm, fun k _ => by rw [if_neg (by omega)], fun k _ => rfl⟩
  obtain ⟨s, hrun, hs⟩ := forRangeM_exists (Swapped t a) h0 fun i hi s hs => hs.step hi
  refine ⟨s.2, by rw [bitrev_def, hrun]; rfl, fun k hk => ?_, hs.other⟩
  rw [hs.entries k hk]
  have hlt := rev_lt t k
  split_ifs with h
  · rfl
  · rw [show rev t k = k by omega]

theorem ext_entry {a b : ℕ → A} (h : ∀ k, entry a k = entry b k) : a = b := by
  funext l
  have hk := Prod.ext_iff.mp (h (l / 2))
  rcases Nat.mod_two_eq_zero_or_one l with hl | hl
  · rw [show l = 2 * (l / 2) by omega]
    exact hk.1
  · rw [show l = 2 * (l / 2) + 1 by omega]
    exact hk.2

/-- **`bitrev` ends and reverses the bits of the indices.**  The loop for the reversed counter stops
with `m` at least `1`; entry `k` moves to `rev t k`, both parts of it, and a second call moves it
back. -/
theorem bitrev_permutes (t : ℕ) (a : ℕ → A) :
    (∀ i, i + 1 < 2 ^ t → ∃ m, 1 ≤ m ∧ carryLoop (2 ^ t) (rev t i) = some (m, rev t (i + 1))) ∧
    (∀ k, ∀ b < t, (rev t k).testBit b = k.testBit (t - 1 - b)) ∧
    Set.BijOn (rev t) (Set.Iio (2 ^ t)) (Set.Iio (2 ^ t)) ∧
    ∃ a', bitrev (2 ^ t) a = some a' ∧ (∀ k < 2 ^ t, entry a' (rev t k) = entry a k) ∧
      (∀ k, 2 ^ t ≤ k → entry a' k = entry a k) ∧ bitrev (2 ^ t) a' = some a := by
  obtain ⟨a', hrun, hentry, hother⟩ := bitrev_eq t a
  obtain ⟨a'', hrun', hentry', hother'⟩ := bitrev_eq t a'
  refine ⟨fun i hi => carryLoop_rev hi, fun k b hb => testBit_rev k hb, rev_bijOn t, a', hrun,
    fun k hk => ?_, hother, ?_⟩
  · rw [hentry _ (rev_lt t k), rev_rev hk]
  · have hsame : a'' = a := ext_entry fun k => by
      rcases Nat.lt_or_ge k (2 ^ t) with hk | hk
      · rw [hentry' k hk, hentry _ (rev_lt t k), rev_rev hk]
      · rw [hother' k hk, hother k hk]
    rw [hrun', hsame]

end BenchFFT.Mp
