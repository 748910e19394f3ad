import BenchFFT.Benchees.Sorensen
import BenchFFT.Mp.Equiv.Bitrev

/-!
# `RBITREV`

`ITAB` is filled by doubling (`initItab_table`), whatever it held.  Each entry of a pair of reversed
indices is swapped with the other one in the step of the entry whose high bits are the smaller ones
(`rbitrev_puts`).
-/

namespace BenchFFT.Sorensen

open Buf Mp

/-! ### The table -/

/-- `ITAB` holds the reversals of the numbers of `t` bits. -/
structure Table (t : ℕ) (itab : Buf ℕ) : Prop where
  size_eq : itab.size = 256
  cell_eq : ∀ i < 2 ^ t, itab.cell i = rev t i

theorem Table.read {t i : ℕ} {itab : Buf ℕ} (h : Table t itab) (ht : t ≤ 8) (hi : i < 2 ^ t) :
    itab.read i = .ok (rev t i) := by
  have hle : 2 ^ t ≤ 2 ^ 8 := Nat.pow_le_pow_right two_pos ht
  rw [read_ok (h.size_eq.symm ▸ lt_of_lt_of_le hi hle), h.cell_eq i hi]

/-- The body of the loop `DO 10`. -/
theorem doubleEntry_puts {i imax : ℕ} {old new : ℕ → ℕ} (h0 : 0 < imax) (hsize : i + imax < 256)
    (hnew : new i = 2 * old i) (hnew' : new (i + imax) = 1 + 2 * old i) :
    Puts 256 (fun itab => do
      let itab ← itab.write i (2 * (← itab.read i))
      itab.write (i + imax) (1 + (← itab.read i)))
      (fun k => k = i ∨ k = i + imax) old new := by
  apply Puts.intro
  · repeat
      first
      | apply Runs.read (by omega); intro _
      | apply Runs.bind (Runs.write (by omega) _)
      | exact Runs.write (by omega) _
  · constructor
    · intro c hc k hk
      have hi := hc i (Or.inl rfl)
      rcases hk with rfl | rfl
      all_goals
        simp (disch := omega) only [Function.update_self, Function.update_of_ne, hi, hnew, hnew']
    · intro c k hk
      rw [not_or] at hk
      simp (disch := omega) only [Function.update_of_ne]

theorem doubleItab_table {t : ℕ} {itab : Buf ℕ} (ht : t < 8) (h : Table t itab) :
    ∃ itab', doubleItab (2 ^ t) itab = .ok itab' ∧ Table (t + 1) itab' := by
  have hle : 2 ^ (t + 1) ≤ 2 ^ 8 := Nat.pow_le_pow_right two_pos ht
  have hpos := Nat.two_pow_pos t
  have hsucc : 2 ^ (t + 1) = 2 * 2 ^ t := Nat.pow_succ'
  have hputs : Puts 256 (doubleItab (2 ^ t)) (fun k => ∃ i < 2 ^ t, k = i ∨ k = i + 2 ^ t)
      itab.cell (rev (t + 1)) := by
    refine Puts.forRangeM (fun i hi => doubleEntry_puts hpos (by omega) ?_ ?_) (by omega)
    · have hlow := rev_high t two_pos hi
      rwa [Nat.zero_mul, Nat.zero_add, Nat.add_zero, ← h.cell_eq i hi] at hlow
    · have hhigh := rev_high t one_lt_two hi
      rwa [Nat.one_mul, Nat.add_comm (2 ^ t), Nat.add_comm (2 * _), ← h.cell_eq i hi] at hhigh
  obtain ⟨itab', hrun, hsize, hcell, -⟩ := hputs.exists_ok h.size_eq fun _ _ => rfl
  refine ⟨itab', hrun, hsize, fun i hi => hcell i ?_⟩
  rcases Nat.lt_or_ge i (2 ^ t) with hlt | hge
  · exact ⟨i, hlt, Or.inl rfl⟩
  · exact ⟨i - 2 ^ t, by omega, Or.inr (by omega)⟩

theorem doubleItab_loop {t : ℕ} (ht : t < 8) {itab : Buf ℕ} (h : Table 1 itab) :
    ∃ itab', forRangeM t (fun _ (s : ℕ × Buf ℕ) => do
        let imax := 2 * s.1
        let itab ← doubleItab imax s.2
        return (imax, itab)) (1, itab) = (.ok (2 ^ t, itab') : Except Abort _) ∧
      Table (t + 1) itab' := by
  induction t with
  | zero => exact ⟨itab, rfl, h⟩
  | succ t ih =>
    obtain ⟨itab₁, hrun, htable⟩ := ih (by omega)
    obtain ⟨itab₂, hdouble, htable⟩ := doubleItab_table ht htable
    refine ⟨itab₂, ?_, htable⟩
    rw [forRangeM, bind_ok hrun]
    dsimp only
    rw [← Nat.pow_succ', bind_ok hdouble]
    rfl

theorem initItab_table {m2 : ℕ} (h0 : 0 < m2) (h8 : m2 ≤ 8) {itab : Buf ℕ}
    (hsize : itab.size = 256) : ∃ itab', initItab m2 itab = .ok itab' ∧ Table m2 itab' := by
  have hfirst : Table 1 ((itab.lift (Function.update · 0 0)).lift (Function.update · 1 1)) := by
    refine ⟨hsize, fun i hi => ?_⟩
    rcases (by omega : i = 0 ∨ i = 1) with rfl | rfl
    · rfl
    · rfl
  obtain ⟨itab', hrun, htable⟩ := doubleItab_loop (t := m2 + 1 - 2) (by omega) hfirst
  refine ⟨itab', ?_, (by omega : m2 + 1 - 2 + 1 = m2) ▸ htable⟩
  unfold initItab forFromM
  rw [bind_ok (write_ok (by omega) 0), bind_ok (write_ok (hsize ▸ by decide) 1), hrun]
  rfl

/-! ### The pairs -/

/-- The high bits of `i` are below those of its reversal. -/
def Turned (h e i : ℕ) : Prop := i / 2 ^ (h + e) < rev h (i % 2 ^ h)

section Pairs

variable {h e i i' c : ℕ} (hi : i < 2 ^ (h + (h + e)))

include hi

theorem exists_digits : ∃ a < 2 ^ h, ∃ b < 2 ^ e, ∃ k < 2 ^ h, i = (a * 2 ^ e + b) * 2 ^ h + k := by
  rw [Nat.pow_add, Nat.mul_comm, Nat.pow_add] at hi
  obtain ⟨l, hl, k, hk, rfl⟩ := exists_row hi
  obtain ⟨a, ha, b, hb, rfl⟩ := exists_row hl
  exact ⟨a, ha, b, hb, k, hk, rfl⟩

theorem rev_div : rev (h + (h + e)) i / 2 ^ (h + e) = rev h (i % 2 ^ h) := by
  obtain ⟨a, -, b, -, k, hk, rfl⟩ := exists_digits hi
  rw [rev_append _ _ hk, row_div (rev_lt _ _), row_mod hk]

theorem turned_rev :
    Turned h e (rev (h + (h + e)) i) ↔ rev h (i % 2 ^ h) < i / 2 ^ (h + e) := by
  rw [Turned, rev_div hi, ← rev_div (rev_lt _ _), rev_rev hi]

/-- An entry that is in no pair. -/
theorem rev_of_not_turned (he : e ≤ 1) (h1 : ¬Turned h e i)
    (h2 : ¬Turned h e (rev (h + (h + e)) i)) : rev (h + (h + e)) i = i := by
  rw [turned_rev hi] at h2
  have heq := Nat.le_antisymm (Nat.not_lt.mp h1) (Nat.not_lt.mp h2)
  obtain ⟨a, -, b, hb, k, hk, rfl⟩ := exists_digits hi
  have hrev : rev e b = b := by
    rcases Nat.le_one_iff_eq_zero_or_eq_one.mp he with rfl | rfl
    · exact (Nat.lt_one_iff.mp hb).symm
    · rcases (by omega : b = 0 ∨ b = 1) with rfl | rfl <;> rfl
  have hdiv : ((a * 2 ^ e + b) * 2 ^ h + k) / 2 ^ (h + e) = a := by
    rw [Nat.pow_add, ← Nat.div_div_eq_div_mul, row_div hk, row_div hb]
  rw [row_mod hk, hdiv] at heq
  rw [rev_append _ _ hk, heq, Nat.add_comm h e, rev_append _ _ hb, hrev, ← heq, rev_rev hk,
    Nat.pow_add]
  ring

theorem pair_unique (hi' : i' < 2 ^ (h + (h + e))) (ht : Turned h e i) (ht' : Turned h e i')
    (hc : c = i ∨ c = rev (h + (h + e)) i) (hc' : c = i' ∨ c = rev (h + (h + e)) i') : i = i' := by
  rcases hc with rfl | rfl
  · rcases hc' with rfl | rfl
    · rfl
    · exact absurd ht' (Nat.lt_asymm ((turned_rev hi').mp ht))
  · rcases hc' with rfl | hc'
    · exact absurd ht (Nat.lt_asymm ((turned_rev hi).mp ht'))
    · rw [← rev_rev hi, hc', rev_rev hi']

end Pairs

/-! Entry `k` of row `l`, in rows of `2 ^ h` entries. -/

section Row

variable {h k : ℕ} (e l : ℕ) (hk : k < 2 ^ h)

include hk

theorem rev_low : rev (h + e) k = rev h k * 2 ^ e := by
  have happend := rev_append e 0 hk
  rwa [Nat.zero_mul, Nat.zero_add, rev_zero, Nat.add_zero] at happend

theorem rev_row : rev (h + (h + e)) (k + l * 2 ^ h)
    = 2 ^ h * rev (h + e) k + rev (h + e) l := by
  rw [Nat.add_comm k, rev_append _ _ hk, rev_low e hk, Nat.pow_add]
  ring

theorem turned_row : Turned h e (k + l * 2 ^ h) ↔ l < rev (h + e) k := by
  rw [Turned, Nat.add_comm k, row_mod hk, Nat.pow_add, ← Nat.div_div_eq_div_mul, row_div hk,
    rev_low e hk, Nat.div_lt_iff_lt_mul (Nat.two_pow_pos e)]

theorem row_lt_two_pow (hl : l < 2 ^ (h + e)) : k + l * 2 ^ h < 2 ^ (h + (h + e)) := by
  rw [Nat.add_comm k, Nat.pow_add 2 h, Nat.mul_comm (2 ^ h)]
  exact row_lt (Nat.mul_le_mul_right _ hl) hk

/-- A swap of row `k`. -/
theorem row_pair {l : ℕ} (hl : l < rev (h + e) k) :
    k + l * 2 ^ h < 2 ^ (h + (h + e)) ∧ Turned h e (k + l * 2 ^ h) :=
  ⟨row_lt_two_pow e l hk (hl.trans (rev_lt _ k)), (turned_row e l hk).mpr hl⟩

end Row

/-- Every pair is swapped in some row. -/
theorem exists_row_of_turned {h e i : ℕ} (hi : i < 2 ^ (h + (h + e))) (ht : Turned h e i) :
    ∃ k, 1 ≤ k ∧ k < 2 ^ h ∧ ∃ l < rev (h + e) k, i = k + l * 2 ^ h := by
  rw [Nat.pow_add, Nat.mul_comm] at hi
  obtain ⟨l, -, k, hk, rfl⟩ := exists_row hi
  rw [Nat.add_comm, turned_row e l hk] at ht
  refine ⟨k, Nat.pos_of_ne_zero ?_, hk, l, ht, Nat.add_comm _ _⟩
  rintro rfl
  rw [rev_zero] at ht
  exact Nat.not_lt_zero l ht

/-! ### The swaps -/

theorem swap_puts {R : Type} {m i j : ℕ} {old new : ℕ → R} (hi : i < m) (hj : j < m)
    (hnew : new i = old j) (hnew' : new j = old i) :
    Puts m (swap i j) (fun k => k = i ∨ k = j) old new := by
  apply Puts.intro
  · unfold swap
    repeat
      first
      | apply Runs.read (by omega); intro _
      | apply Runs.bind (Runs.write (by omega) _)
      | exact Runs.write (by omega) _
  · constructor
    · intro c hc k hk
      have hci := hc i (Or.inl rfl)
      have hcj := hc j (Or.inr rfl)
      rcases eq_or_ne k j with rfl | hne
      · rw [Function.update_self, hci, hnew']
      · obtain rfl := hk.resolve_right hne
        rw [Function.update_of_ne hne, Function.update_self, hcj, hnew]
    · intro c k hk
      rw [not_or] at hk
      simp (disch := omega) only [Function.update_of_ne]

/-- The swaps of a turn, where `ITAB` is known. -/
theorem swapRow_eq {R : Type} {nbit m2 k : ℕ} {itab : Buf ℕ} (h : Table m2 itab) (h8 : m2 ≤ 8)
    (hk : k < 2 ^ m2) : swapRow (R := R) itab nbit k = forRangeM (rev m2 k)
      (fun l => swap (k + l * nbit) (nbit * rev m2 k + rev m2 l)) := by
  funext x
  have hloop := forRangeM_track (n := rev m2 k) (m := Except Abort)
    (fun l (s : (ℕ × ℕ) × Buf R) => do
      let x ← swap s.1.1 s.1.2 s.2
      return ((s.1.1 + nbit, nbit * rev m2 k + (← itab.read (l + 1))), x))
    (fun l => (k + l * nbit, nbit * rev m2 k + rev m2 l)) (fun l hl x => by
      have hread := h.read h8 (lt_of_le_of_lt hl (rev_lt m2 k))
      refine bind_congr fun x => ?_
      rw [bind_ok hread]
      rw [Nat.succ_mul, Nat.add_assoc]) x
  dsimp only at hloop
  rw [Nat.zero_mul, Nat.add_zero, rev_zero, Nat.add_zero] at hloop
  unfold swapRow
  rw [bind_ok (h.read h8 hk)]
  dsimp only
  rw [bind_ok (h.read h8 hk), hloop, bind_assoc]
  exact (bind_congr fun x => pure_bind _ _).trans (bind_pure _)

theorem rbitrev_eq {R : Type} {h e : ℕ} (he : e ≤ 1) (h0 : 0 < h + e) (h8 : h + e ≤ 8)
    {itab : Buf ℕ} (hitab : itab.size = 256) (b : Buf R) :
    rbitrev itab b (h + (h + e)) = forFromM 1 (2 ^ h) (fun k => forRangeM (rev (h + e) k)
      (fun l => swap (k + l * 2 ^ h) (rev (h + (h + e)) (k + l * 2 ^ h)))) b := by
  have hhalf : (h + (h + e)) / 2 = h := by omega
  have hm2 : (if 2 * h ≠ h + (h + e) then h + 1 else h) = h + e := by
    split_ifs <;> omega
  obtain ⟨itab', hinit, htable⟩ := initItab_table h0 h8 hitab
  unfold rbitrev
  dsimp only
  rw [hhalf, hm2, bind_ok hinit]
  refine forRangeM_congr (fun k hk => ?_) b
  have hk : 1 + k < 2 ^ h := by omega
  have hle : 2 ^ h ≤ 2 ^ (h + e) := Nat.pow_le_pow_right two_pos (Nat.le_add_right h e)
  rw [swapRow_eq htable h8 (hk.trans_le hle)]
  simp only [rev_row e _ hk]

/-- The array is put in bit-reversed order. -/
theorem rbitrev_puts {R : Type} {M m : ℕ} (h0 : 0 < M) (hM : M ≤ 16) (hm : 2 ^ M ≤ m)
    {itab : Buf ℕ} (hitab : itab.size = 256) (x : ℕ → R) :
    Puts m (fun b => rbitrev itab b M) (· < 2 ^ M) x (fun i => x (rev M i)) := by
  obtain ⟨h, e, he, rfl⟩ : ∃ h e, e ≤ 1 ∧ M = h + (h + e) := ⟨M / 2, M % 2, by omega, by omega⟩
  have hsame : ∀ k l k' l' c, k < 2 ^ h → l < rev (h + e) k → k' < 2 ^ h → l' < rev (h + e) k' →
      (c = k + l * 2 ^ h ∨ c = rev (h + (h + e)) (k + l * 2 ^ h)) →
      (c = k' + l' * 2 ^ h ∨ c = rev (h + (h + e)) (k' + l' * 2 ^ h)) → l = l' ∧ k = k' := by
    intro k l k' l' c hk hl hk' hl' hc hc'
    have heq := pair_unique (row_pair e hk hl).1 (row_pair e hk' hl').1 (row_pair e hk hl).2
      (row_pair e hk' hl').2 hc hc'
    rw [Nat.add_comm k, Nat.add_comm k'] at heq
    exact row_inj hk hk' heq
  have hloop : Puts m (fun b => rbitrev itab b (h + (h + e)))
      (fun c => ∃ k, 1 ≤ k ∧ k < 2 ^ h ∧ ∃ l < rev (h + e) k,
        c = k + l * 2 ^ h ∨ c = rev (h + (h + e)) (k + l * 2 ^ h)) x
      (fun i => x (rev (h + (h + e)) i)) := by
    rw [funext (rbitrev_eq he (by omega) (by omega) hitab)]
    refine Puts.forFromM (fun k _ hk => Puts.forRangeM (fun l hl => ?_) ?_) ?_
    · have hi := (row_pair e hk hl).1
      have hj := rev_lt (h + (h + e)) (k + l * 2 ^ h)
      exact swap_puts (by omega) (by omega) rfl (congrArg x (rev_rev hi))
    · intro l hl l' hl' c hc hc'
      exact (hsame k l k l' c hk hl hk hl' hc hc').1
    · rintro k k' - hk - hk' c ⟨l, hl, hc⟩ ⟨l', hl', hc'⟩
      exact (hsame k l k' l' c hk hl hk' hl' hc hc').2
  refine hloop.mono ?_ fun c hc hout => ?_
  · rintro c ⟨k, -, hk, l, hl, rfl | rfl⟩
    · exact (row_pair e hk hl).1
    · exact rev_lt _ _
  · have hself : rev (h + (h + e)) c = c := by
      refine rev_of_not_turned hc he (fun ht => hout ?_) fun ht => hout ?_
      · obtain ⟨k, h1, hk, l, hl, rfl⟩ := exists_row_of_turned hc ht
        exact ⟨k, h1, hk, l, hl, Or.inl rfl⟩
      · obtain ⟨k, h1, hk, l, hl, heq⟩ := exists_row_of_turned (rev_lt _ c) ht
        exact ⟨k, h1, hk, l, hl, Or.inr (by rw [← heq, rev_rev hc])⟩
    exact (congrArg x hself).symm

end BenchFFT.Sorensen
