import BenchFFT.Benchees.Equiv.Sorensen.Butterflies

/-!
# The loops of a stage

`blocks` runs its body at the starts of the whole blocks, turn after turn (`blocks_puts`).  A stage
runs one butterfly for each pair of offsets `j` and `n4 - j` in each whole block, and with them
covers these blocks (`stage_puts`).  The twiddles follow the recurrences of the double and the
triple angle (`twiddles_eq`).
-/

namespace BenchFFT.Sorensen

open Buf SplitRadix

/-! ### The loops over the blocks -/

section Blocks

variable {R : Type} {m n n2 last off : ℕ} {body : ℕ → Buf R → Except Abort (Buf R)}
  {S : ℕ → ℕ → Prop} {old new : ℕ → R}

theorem lt_turns_iff {first step : ℕ} (hstep : 0 < step) (j : ℕ) :
    j < (n + step - 1 - first) / step ↔ first + j * step < n := by
  rw [Nat.lt_iff_add_one_le, Nat.le_div_iff_mul_le hstep, Nat.add_mul]
  omega

/-- The starts of turn `e`. -/
def Starts.At (e : ℕ) (s : Starts n2) : Prop := s.is + n2 = 4 ^ e * n2

theorem Starts.at_first : (Starts.first n2).At 0 := by
  rw [At, first, pow_zero, Nat.one_mul, Nat.zero_add]

theorem Starts.At.next {e : ℕ} {s : Starts n2} (h : s.At e) : s.next.At (e + 1) := by
  have hid := s.id_eq
  unfold At at h ⊢
  rw [pow_succ, Nat.mul_right_comm, ← h, Starts.next]
  dsimp only
  omega

/-- Block `q` of turn `e`, where `j` is the number of blocks of that turn before it. -/
theorem Starts.At.start_eq {e q j : ℕ} {s : Starts n2} (h : s.At e)
    (hq : q + 1 = 4 ^ e * (2 * j + 1)) : s.is + off + j * s.id = q * n2 + off := by
  have hmul : (q + 1) * n2 = (s.is + n2) * (2 * j + 1) := by rw [hq, h, Nat.mul_right_comm]
  rw [s.id_eq, show j * (2 * (s.is + n2)) = (s.is + n2) * (2 * j + 1) - (s.is + n2) by
    rw [Nat.mul_succ, Nat.add_sub_cancel]; ring, ← hmul, Nat.succ_mul]
  have hle : s.is + n2 ≤ (q + 1) * n2 := by
    rw [hmul]
    exact Nat.le_mul_of_pos_right _ (by omega)
  rw [Nat.succ_mul] at hle
  omega

theorem blocks_eq (hn2 : 0 < n2) (s : Starts n2) : blocks hn2 n last off body s = fun x =>
    doStep (s.is + off) n s.id body x >>=
      if s.next.is < last then blocks hn2 n last off body s.next else .ok := by
  funext x
  rw [blocks]
  split_ifs <;> rfl

variable (hn2 : 0 < n2) (hoff : off < n2) (hn : n2 ∣ n)
  (hbody : ∀ q, Whole q → q * n2 < n → Puts m (body (q * n2 + off)) (S q) old new)
  (hdisj : ∀ q q' k, S q k → S q' k → q = q')

include hn2 hoff hn hbody hdisj

/-- A turn. -/
theorem doStep_puts {e : ℕ} {s : Starts n2} (hs : s.At e) :
    Puts m (doStep (s.is + off) n s.id body)
      (fun k => ∃ q, padicValNat 2 (q + 1) = 2 * e ∧ q * n2 < n ∧ S q k) old new := by
  have hid : 0 < s.id := by
    have := s.id_eq
    omega
  have hblock : ∀ j, ∃ q, q + 1 = 4 ^ e * (2 * j + 1) := fun j =>
    ⟨_, Nat.sub_add_cancel (Nat.mul_pos (Nat.pow_pos (by decide)) (by omega))⟩
  choose q hq using hblock
  have hlt : ∀ j, j < (n + s.id - 1 - (s.is + off)) / s.id ↔ q j * n2 < n := by
    intro j
    rw [lt_turns_iff hid, hs.start_eq (hq j)]
    obtain ⟨r, rfl⟩ := hn
    rw [Nat.mul_comm n2]
    constructor
    · omega
    · intro h
      have hle := Nat.mul_le_mul_right n2 (Nat.lt_of_mul_lt_mul_right h)
      rw [Nat.succ_mul] at hle
      omega
  have hloop : Puts m (doStep (s.is + off) n s.id body)
      (fun k => ∃ j < (n + s.id - 1 - (s.is + off)) / s.id, S (q j) k) old new := by
    refine Puts.forRangeM (fun j hj => ?_) fun i _ j _ k hi hj => ?_
    · rw [hs.start_eq (hq j)]
      exact hbody (q j) ⟨e, by rw [(padicValNat_eq_iff e (q j)).mpr ⟨j, hq j⟩, two_mul]⟩
        ((hlt j).mp hj)
    · have h := hq i
      rw [hdisj _ _ k hi hj, hq j] at h
      have := Nat.eq_of_mul_eq_mul_left (Nat.pow_pos (by decide)) h
      omega
  refine hloop.congr fun k => ⟨?_, ?_⟩
  · rintro ⟨j, hj, hk⟩
    exact ⟨q j, (padicValNat_eq_iff e (q j)).mpr ⟨j, hq j⟩, (hlt j).mp hj, hk⟩
  · rintro ⟨r, hr, hlt', hk⟩
    obtain ⟨j, hj⟩ := (padicValNat_eq_iff e r).mp hr
    obtain rfl : q j = r := Nat.succ_injective ((hq j).trans hj.symm)
    exact ⟨j, (hlt j).mpr hlt', hk⟩

variable (hlast : ∀ q, q * n2 < last ↔ q * n2 < n)

include hlast

/-- The turns from turn `e` on. -/
theorem blocks_from {e : ℕ} {s : Starts n2} (hs : s.At e) :
    Puts m (blocks hn2 n last off body s)
      (fun k => ∃ q, (∃ e' ≥ e, padicValNat 2 (q + 1) = 2 * e') ∧ q * n2 < n ∧ S q k) old new := by
  induction hd : last - s.is using Nat.strongRecOn generalizing s e with
  | ind d ih =>
  have hturn := doStep_puts hn2 hoff hn hbody hdisj hs
  have hnext : s.next.is = (4 ^ (e + 1) - 1) * n2 := by
    have h := hs.next
    unfold Starts.At at h
    rw [Nat.sub_mul, Nat.one_mul, ← h, Nat.add_sub_cancel]
  rw [blocks_eq hn2]
  by_cases hmore : s.next.is < last
  · have hrest := ih _ (by have := s.is_lt_next hn2; omega) hs.next rfl
    rw [if_pos hmore]
    refine (hturn.bind hrest ?_).congr fun k => ⟨?_, ?_⟩
    · rintro k ⟨q, hq, -, hk⟩ ⟨q', ⟨e', he', hq'⟩, -, hk'⟩
      obtain rfl := hdisj _ _ k hk hk'
      omega
    · rintro (⟨q, hq, h⟩ | ⟨q, ⟨e', he', hq⟩, h⟩)
      · exact ⟨q, ⟨e, le_rfl, hq⟩, h⟩
      · exact ⟨q, ⟨e', Nat.le_of_succ_le he', hq⟩, h⟩
    · rintro ⟨q, ⟨e', he', hq⟩, h⟩
      rcases he'.eq_or_lt with rfl | hlt
      · exact Or.inl ⟨q, hq, h⟩
      · exact Or.inr ⟨q, ⟨e', hlt, hq⟩, h⟩
  · -- the blocks of the later turns start past the array
    have hpast : ∀ q e', e < e' → padicValNat 2 (q + 1) = 2 * e' → ¬q * n2 < n := by
      intro q e' he' hq hlt
      obtain ⟨j, hj⟩ := (padicValNat_eq_iff e' q).mp hq
      have hpow : 4 ^ (e + 1) ≤ q + 1 := by
        rw [hj]
        exact (Nat.pow_le_pow_right (by decide) he').trans (Nat.le_mul_of_pos_right _ (by omega))
      have hle : (4 ^ (e + 1) - 1) * n2 ≤ q * n2 := Nat.mul_le_mul_right n2 (by omega)
      exact hmore (hnext ▸ (hlast _).mpr (lt_of_le_of_lt hle hlt))
    rw [if_neg hmore]
    refine (hturn.bind .pure fun k _ h => h).congr fun k => ⟨?_, ?_⟩
    · rintro (⟨q, hq, h⟩ | h)
      · exact ⟨q, ⟨e, le_rfl, hq⟩, h⟩
      · exact h.elim
    · rintro ⟨q, ⟨e', he', hq⟩, hlt, hk⟩
      rcases he'.eq_or_lt with rfl | he'
      · exact Or.inl ⟨q, hq, hlt, hk⟩
      · exact absurd hlt (hpast q e' he' hq)

/-- The body runs at the starts of the whole blocks. -/
theorem blocks_puts : Puts m (blocks hn2 n last off body (.first n2))
    (fun k => ∃ q, Whole q ∧ q * n2 < n ∧ S q k) old new := by
  refine (blocks_from hn2 hoff hn hbody hdisj hlast Starts.at_first).congr fun k => ?_
  refine exists_congr fun q => and_congr_left fun _ => ⟨?_, ?_⟩
  · rintro ⟨e, -, he⟩
    exact ⟨e, by rw [he, two_mul]⟩
  · rintro ⟨e, he⟩
    exact ⟨e, Nat.zero_le e, by rw [he, two_mul]⟩

end Blocks

/-! ### Twiddles -/

noncomputable def exactConstants : Constants ℝ where
  toTrig := Verify.exactTrig
  sqrtHalf := √(2 : ℕ) / (2 : ℕ)
  sqrtTwo := √(2 : ℕ)

theorem exactConstants_sqrtHalf : exactConstants.sqrtHalf = √2 / (2 : ℕ) := by
  rw [exactConstants, Nat.cast_ofNat]

theorem exactConstants_sqrtTwo : exactConstants.sqrtTwo = √2 := by
  rw [exactConstants, Nat.cast_ofNat]

/-- The twiddle of the butterfly with the offset `j`. -/
noncomputable def twiddle (n2 j : ℕ) : Twiddle ℝ where
  cc1 := Real.cos (j * (Verify.exactTrig.k2pi / n2))
  ss1 := Real.sin (j * (Verify.exactTrig.k2pi / n2))
  cc3 := Real.cos ((3 : ℕ) * (j * (Verify.exactTrig.k2pi / n2)))
  ss3 := Real.sin ((3 : ℕ) * (j * (Verify.exactTrig.k2pi / n2)))

theorem twiddle_one (n2 : ℕ) : twiddle n2 1 = Twiddle.first exactConstants n2 := by
  unfold twiddle Twiddle.first
  rw [Nat.cast_one, one_mul, Nat.cast_ofNat, Real.cos_three_mul, Real.sin_three_mul]
  push_cast
  rfl

theorem twiddle_succ (n2 j : ℕ) :
    twiddle n2 (j + 1) = (Twiddle.first exactConstants n2).next (twiddle n2 j) := by
  rw [← twiddle_one]
  unfold twiddle Twiddle.next
  push_cast
  simp only [one_mul, add_mul, mul_add, Real.cos_add, Real.sin_add]
  congr 1
  · exact add_comm _ _
  · exact add_comm _ _

/-- The loop over the twiddles is one over the offsets. -/
theorem twiddles_eq {n n2 n4 n8 : ℕ} (hn2 : 0 < n2)
    (body : Twiddle ℝ → ℕ → ℕ → Buf ℝ → Except Abort (Buf ℝ)) (x : Buf ℝ) :
    twiddles exactConstants n n2 n4 hn2 n8 body x = forFromM 1 n8 (fun j =>
      blocks hn2 n n j (body (twiddle n2 j) (n4 - 2 * j)) (.first n2)) x := by
  have hloop := forRangeM_track (n := n8 - 1) (m := Except Abort)
    (fun k (s : Twiddle ℝ × Buf ℝ) => do
      let x ← blocks hn2 n n (1 + k) (body s.1 (n4 - 2 * (1 + k))) (.first n2) s.2
      return ((Twiddle.first exactConstants n2).next s.1, x))
    (fun k => twiddle n2 (1 + k))
    (fun k _ x => bind_congr fun x => by rw [← Nat.add_assoc, twiddle_succ]) x
  rw [Nat.add_zero, twiddle_one] at hloop
  unfold twiddles forFromM
  dsimp only
  rw [hloop, bind_assoc]
  exact (bind_congr fun x => pure_bind _ _).trans (bind_pure _)

/-! ### The cells with an offset -/

/-- The cells with the offsets `j` and `n4 - j` in their quarters. -/
def Offset (n4 j k : ℕ) : Prop := k % n4 = j ∨ k % n4 = n4 - j

theorem quarters_iff {n4 q j k : ℕ} (hj : j < n4) :
    Quarters n4 (q * (4 * n4) + j) k ↔ k / (4 * n4) = q ∧ k % n4 = j := by
  have hmod : ∀ t, (q * (4 * n4) + (t * n4 + j)) % n4 = j := by
    intro t
    rw [show q * (4 * n4) + (t * n4 + j) = (4 * q + t) * n4 + j by ring, row_mod hj]
  constructor
  · have hcell : ∀ t < 4, (q * (4 * n4) + (t * n4 + j)) / (4 * n4) = q := by
      intro t ht
      have hle := Nat.mul_le_mul_right n4 (Nat.le_of_lt_succ ht)
      exact row_div (by omega)
    rintro (rfl | rfl | rfl | rfl)
    · have h := hcell 0 (by omega)
      have h' := hmod 0
      rw [Nat.zero_mul, Nat.zero_add] at h h'
      exact ⟨h, h'⟩
    · rw [show n4 + (q * (4 * n4) + j) = q * (4 * n4) + (1 * n4 + j) by ring]
      exact ⟨hcell 1 (by omega), hmod 1⟩
    · rw [show 2 * n4 + (q * (4 * n4) + j) = q * (4 * n4) + (2 * n4 + j) by ring]
      exact ⟨hcell 2 (by omega), hmod 2⟩
    · rw [show 3 * n4 + (q * (4 * n4) + j) = q * (4 * n4) + (3 * n4 + j) by ring]
      exact ⟨hcell 3 (by omega), hmod 3⟩
  · rintro ⟨rfl, rfl⟩
    have hk := Nat.div_add_mod' k (4 * n4)
    have hr := Nat.div_add_mod' (k % (4 * n4)) n4
    have ht : k % (4 * n4) / n4 < 4 :=
      Nat.div_lt_of_lt_mul (Nat.mul_comm 4 n4 ▸ Nat.mod_lt k (by omega))
    rw [Nat.mod_mul_left_mod] at hr
    unfold Quarters
    generalize k % (4 * n4) / n4 = t at hr ht
    rcases (by omega : t = 0 ∨ t = 1 ∨ t = 2 ∨ t = 3) with rfl | rfl | rfl | rfl <;> omega

/-! ### A stage -/

section Stage

variable {m n n4 : ℕ} {old new : ℕ → ℝ}

/-- The whole blocks of `4 * n4` cells. -/
def InWhole (n n4 k : ℕ) : Prop := k < n ∧ Whole (k / (4 * n4))

variable (hn4 : 0 < n4) (hn2 : 0 < 4 * n4) (hn : 4 * n4 ∣ n)

include hn4 hn2 hn

/-- A loop over the butterflies with one offset. -/
theorem blocks_offset {last j : ℕ} {body : ℕ → Buf ℝ → Except Abort (Buf ℝ)} {S : ℕ → ℕ → Prop}
    (hlast : ∀ q, q * (4 * n4) < last ↔ q * (4 * n4) < n) (hj : j < n4)
    (hS : ∀ q k, S q k ↔ k / (4 * n4) = q ∧ Offset n4 j k)
    (hbody : ∀ q, Whole q → q * (4 * n4) < n → Puts m (body (q * (4 * n4) + j)) (S q) old new) :
    Puts m (blocks hn2 n last j body (.first (4 * n4)))
      (fun k => InWhole n n4 k ∧ Offset n4 j k) old new := by
  have hdisj : ∀ q q' k, S q k → S q' k → q = q' := fun q q' k hk hk' =>
    ((hS q k).mp hk).1.symm.trans ((hS q' k).mp hk').1
  have hlt : ∀ k, k < n ↔ k / (4 * n4) * (4 * n4) < n := by
    intro k
    obtain ⟨r, rfl⟩ := hn
    constructor
    · exact lt_of_le_of_lt (Nat.div_mul_le_self k _)
    · intro h
      rw [Nat.mul_comm] at h
      exact (Nat.div_lt_iff_lt_mul hn2).mp (Nat.lt_of_mul_lt_mul_left h) |>.trans_eq
        (Nat.mul_comm _ _)
  refine (blocks_puts hn2 (by omega) hn hbody hdisj hlast).congr fun k => ⟨?_, ?_⟩
  · rintro ⟨q, hq, hqn, hk⟩
    obtain ⟨rfl, hoff⟩ := (hS q k).mp hk
    exact ⟨⟨(hlt k).mpr hqn, hq⟩, hoff⟩
  · rintro ⟨⟨hkn, hq⟩, hoff⟩
    exact ⟨_, hq, (hlt k).mp hkn, (hS _ k).mpr ⟨rfl, hoff⟩⟩

section Loops

variable {n8 last : ℕ} {loop20 loop50 : ℕ → Buf ℝ → Except Abort (Buf ℝ)}
  {loop80 : Twiddle ℝ → ℕ → ℕ → Buf ℝ → Except Abort (Buf ℝ)}

theorem first_puts (h20 : ∀ q, Whole q → q * (4 * n4) < n →
      Puts m (loop20 (q * (4 * n4))) (Quarters n4 (q * (4 * n4))) old new) :
    Puts m (blocks hn2 n n 0 loop20 (.first (4 * n4))) (fun k => InWhole n n4 k ∧ Offset n4 0 k)
      old new := by
  refine blocks_offset hn4 hn2 hn (fun _ => Iff.rfl) hn4 (fun q k => ?_) h20
  have hk := Nat.mod_lt k hn4
  have hquarters := quarters_iff (q := q) (k := k) hn4
  rw [Nat.add_zero] at hquarters
  rw [hquarters, Offset]
  omega

variable (hn8 : n4 = 2 * n8)

include hn8

theorem middle_puts (hlast : ∀ q, q * (4 * n4) < last ↔ q * (4 * n4) < n)
    (h50 : ∀ q, Whole q → q * (4 * n4) < n →
      Puts m (loop50 (q * (4 * n4) + n8)) (Quarters n4 (q * (4 * n4) + n8)) old new) :
    Puts m (blocks hn2 n last n8 loop50 (.first (4 * n4)))
      (fun k => InWhole n n4 k ∧ Offset n4 n8 k) old new := by
  refine blocks_offset hn4 hn2 hn hlast (by omega) (fun q k => ?_) h50
  rw [quarters_iff (by omega), Offset]
  omega

theorem general_puts (h80 : ∀ j, 0 < j → 2 * j < n4 → ∀ q, Whole q → q * (4 * n4) < n →
      Puts m (loop80 (twiddle (4 * n4) j) (n4 - 2 * j) (q * (4 * n4) + j))
        (fun k => Quarters n4 (q * (4 * n4) + j) k ∨
          Quarters n4 (q * (4 * n4) + j + (n4 - 2 * j)) k) old new) :
    Puts m (twiddles exactConstants n (4 * n4) n4 hn2 n8 loop80)
      (fun k => InWhole n n4 k ∧ ¬Offset n4 0 k ∧ ¬Offset n4 n8 k) old new := by
  rw [funext (twiddles_eq hn2 loop80)]
  have hloop : Puts m (forFromM 1 n8 fun j => blocks hn2 n n j
      (loop80 (twiddle (4 * n4) j) (n4 - 2 * j)) (.first (4 * n4)))
      (fun k => ∃ j, 1 ≤ j ∧ j < n8 ∧ InWhole n n4 k ∧ Offset n4 j k) old new := by
    refine Puts.forFromM (fun j h0 hj => ?_) ?_
    · refine blocks_offset hn4 hn2 hn (fun _ => Iff.rfl) (by omega) (fun q k => ?_)
        (h80 j h0 (by omega))
      rw [Nat.add_assoc, show j + (n4 - 2 * j) = n4 - j by omega, quarters_iff (by omega),
        quarters_iff (by omega), Offset]
      exact and_or_left.symm
    · rintro i j hi hi' hj hj' k ⟨-, h⟩ ⟨-, h'⟩
      unfold Offset at h h'
      omega
  refine hloop.congr fun k => ?_
  have hk := Nat.mod_lt k hn4
  unfold Offset
  constructor
  · rintro ⟨j, h1, hj, hw, h⟩
    exact ⟨hw, by omega, by omega⟩
  · rintro ⟨hw, h, h'⟩
    exact ⟨min (k % n4) (n4 - k % n4), by omega, by omega, hw, by omega⟩

end Loops

/-- The three loops of a stage cover the whole blocks. -/
theorem stage_puts {n8 last : ℕ} {loop20 loop50 : ℕ → Buf ℝ → Except Abort (Buf ℝ)}
    {loop80 : Twiddle ℝ → ℕ → ℕ → Buf ℝ → Except Abort (Buf ℝ)}
    (hn8 : n4 = 1 ∨ n4 = 2 * n8) (hlast : ∀ q, q * (4 * n4) < last ↔ q * (4 * n4) < n)
    (h20 : ∀ q, Whole q → q * (4 * n4) < n →
      Puts m (loop20 (q * (4 * n4))) (Quarters n4 (q * (4 * n4))) old new)
    (h50 : n4 = 2 * n8 → ∀ q, Whole q → q * (4 * n4) < n →
      Puts m (loop50 (q * (4 * n4) + n8)) (Quarters n4 (q * (4 * n4) + n8)) old new)
    (h80 : ∀ j, 0 < j → 2 * j < n4 → ∀ q, Whole q → q * (4 * n4) < n →
      Puts m (loop80 (twiddle (4 * n4) j) (n4 - 2 * j) (q * (4 * n4) + j))
        (fun k => Quarters n4 (q * (4 * n4) + j) k ∨
          Quarters n4 (q * (4 * n4) + j + (n4 - 2 * j)) k) old new)
    (hrest : ∀ k < n, ¬Whole (k / (4 * n4)) → old k = new k) :
    Puts m (stage exactConstants n (4 * n4) n4 hn2 n8 last loop20 loop50 loop80) (· < n) old
      new := by
  have hlt : ∀ k, k % n4 < n4 := fun k => Nat.mod_lt k hn4
  -- what each loop leaves to the later ones
  have hlater : n4 = 2 * n8 → Puts m (fun x => if n8 ≤ 1 then .ok x else
      twiddles exactConstants n (4 * n4) n4 hn2 n8 loop80 x)
      (fun k => InWhole n n4 k ∧ ¬Offset n4 0 k ∧ ¬Offset n4 n8 k) old new := by
    intro hn8
    refine Puts.ite _ (fun h => Puts.pure.congr fun k => ⟨False.elim, ?_⟩) fun _ =>
      general_puts hn4 hn2 hn hn8 h80
    rintro ⟨-, h', h''⟩
    have := hlt k
    unfold Offset at h' h''
    omega
  have hfrom : Puts m (fun x => if n4 ≤ 1 then .ok x else
      blocks hn2 n last n8 loop50 (.first (4 * n4)) x >>= fun x =>
        if n8 ≤ 1 then .ok x else twiddles exactConstants n (4 * n4) n4 hn2 n8 loop80 x)
      (fun k => InWhole n n4 k ∧ ¬Offset n4 0 k) old new := by
    refine Puts.ite _ (fun h => Puts.pure.congr fun k => ⟨False.elim, ?_⟩) fun h => ?_
    · rintro ⟨-, h'⟩
      have := hlt k
      unfold Offset at h'
      omega
    · have hn8 := hn8.resolve_left (by omega)
      have hmiddle := middle_puts hn4 hn2 hn hn8 hlast (h50 hn8)
      refine (hmiddle.bind (hlater hn8) fun k h h' => h'.2.2 h.2).congr fun k => ?_
      have hfar : Offset n4 n8 k → ¬Offset n4 0 k := by
        unfold Offset
        omega
      tauto
  have hall := (first_puts hn4 hn2 hn h20).bind hfrom fun k h h' => h'.2 h.2
  refine hall.mono (fun k hk => ?_) fun k hk hk' => ?_
  · exact hk.elim (fun h => h.1.1) fun h => h.1.1
  · refine hrest k hk fun hw => hk' ?_
    by_cases h : Offset n4 0 k
    · exact Or.inl ⟨⟨hk, hw⟩, h⟩
    · exact Or.inr ⟨⟨hk, hw⟩, h⟩

end Stage

end BenchFFT.Sorensen
