import BenchFFT.RowMajor
import BenchFFT.Verify.Hermitian
import Mathlib.Algebra.Order.Ring.Rat
import Mathlib.Tactic.LinearCombination

/-!
# `mkhermitian` makes an array hermitian

`assign_conj` writes the conjugate of one slab, mirrored in every dimension, over another slab
(`assignConj_patches`).  `mkhermitian` handles the slabs along the first dimension in pairs `i`,
`n₀ - i`; slab `0` and, for even `n₀`, slab `n₀ / 2` are their own mirror images and are made
hermitian recursively (`mkhermitian_cons`).  What it leaves is hermitian (`mkhermitian_spec`), and
each entry of it is taken from the entry there or from its mirror image (`mkhermitian_takenFrom`).
-/

namespace BenchFFT.Verify

open RowMajor

/-- The complex conjugate. -/
def conjOf {R : Type*} [Neg R] (z : BenchComplex R) : BenchComplex R := ⟨z.re, -z.im⟩

/-- The slab of shape `n` at offset `a` is hermitian. -/
def HermitianAt {R : Type*} [Neg R] (A : ℕ → BenchComplex R) (a : ℕ) (n : List ℕ) : Prop :=
  ∀ j < n.prod, A (a + negIdx n j) = conjOf (A (a + j))

/-- Cell `k` belongs to the slab of `size` cells at offset `a`. -/
def InSlab (size a k : ℕ) : Prop := ∃ j < size, k = a + j

theorem inSlab_iff {size a k : ℕ} : InSlab size a k ↔ a ≤ k ∧ k < a + size := by
  constructor
  · rintro ⟨j, hj, rfl⟩
    omega
  · rintro ⟨h1, h2⟩
    exact ⟨k - a, by omega, by omega⟩

/-- Sub-slab `i` of a slab of `m` sub-slabs. -/
theorem InSlab.of_sub {m size a i k : ℕ} (hi : i < m) (h : InSlab size (a + i * size) k) :
    InSlab (m * size) a k := by
  obtain ⟨j, hj, rfl⟩ := h
  exact ⟨i * size + j, row_lt (Nat.mul_le_mul_right size hi) hj, by rw [Nat.add_assoc]⟩

theorem InSlab.exists_sub {m size a k : ℕ} (h : InSlab (m * size) a k) :
    ∃ i < m, InSlab size (a + i * size) k := by
  obtain ⟨l, hl, rfl⟩ := h
  obtain ⟨i, hi, j, hj, rfl⟩ := exists_row hl
  exact ⟨i, hi, j, hj, by rw [Nat.add_assoc]⟩

/-- Two sub-slabs that share a cell are one. -/
theorem InSlab.sub_unique {size a i i' k : ℕ} (h : InSlab size (a + i * size) k)
    (h' : InSlab size (a + i' * size) k) : i = i' := by
  obtain ⟨j, hj, rfl⟩ := h
  obtain ⟨j', hj', heq⟩ := h'
  have hrow : i * size + j = i' * size + j' := by omega
  rw [← row_div (r := i) hj, hrow, row_div hj']

theorem sub_mod_lt {m : ℕ} (hm : 0 < m) (i : ℕ) : (m - i) % m < m := Nat.mod_lt _ hm

theorem mirror_injective {m i i' : ℕ} (hi : i < m) (hi' : i' < m)
    (h : (m - i) % m = (m - i') % m) : i = i' := by
  rw [← sub_mod_sub_mod hi, h, sub_mod_sub_mod hi']

/-- The mirrored index of cell `j` of sub-slab `i`. -/
theorem negIdx_row {n : List ℕ} {m i j : ℕ} (hi : i < m) (hj : j < n.prod) :
    negIdx (m :: n) (i * n.prod + j) = (m - i) % m * n.prod + negIdx n j := by
  rw [negIdx, row_div hj, row_mod hj, Nat.mod_eq_of_lt hi]

section AssignConj

variable {R : Type*} [Neg R]

/-- `assign_conj` with its first step folded into the loop. -/
theorem assignConj_cons (A : ℕ → BenchComplex R) (ac a : ℕ) {m : ℕ} (hm : 0 < m) (n : List ℕ) :
    assignConj A ac a (m :: n) (m :: n).prod = forRange m (fun i A =>
      assignConj A (ac + (m - i) % m * n.prod) (a + i * n.prod) n n.prod) A := by
  obtain ⟨m, rfl⟩ := Nat.exists_eq_succ_of_ne_zero hm.ne'
  have hsize : (m.succ :: n).prod / m.succ = n.prod := by
    rw [List.prod_cons, Nat.mul_div_cancel_left _ hm]
  rw [assignConj, hsize, Nat.succ_eq_add_one, Nat.add_sub_cancel, forRange_succ']
  simp only [Nat.sub_zero, Nat.mod_self, Nat.zero_mul, Nat.add_zero]
  refine forRange_congr (fun i hi => funext fun A => ?_) _
  rw [Nat.mod_eq_of_lt (by omega : m + 1 - (i + 1) < m + 1)]

/-- Each slab is made up of its sub-slabs, in either order. -/
theorem exists_inSlab_iff {m P ac a k : ℕ} (hm : 0 < m) :
    (∃ i < m, InSlab P (ac + (m - i) % m * P) k ∨ InSlab P (a + i * P) k)
      ↔ InSlab (m * P) ac k ∨ InSlab (m * P) a k := by
  constructor
  · rintro ⟨i, hi, h | h⟩
    · exact Or.inl (h.of_sub (sub_mod_lt hm i))
    · exact Or.inr (h.of_sub hi)
  · rintro (h | h)
    · obtain ⟨i, hi, hsub⟩ := h.exists_sub
      refine ⟨(m - i) % m, sub_mod_lt hm i, Or.inl ?_⟩
      rwa [sub_mod_sub_mod hi]
    · obtain ⟨i, hi, hsub⟩ := h.exists_sub
      exact ⟨i, hi, Or.inr hsub⟩

/-- `assign_conj` of a single cell. -/
theorem assignConj_nil_patches {old new : ℕ → BenchComplex R} {ac a : ℕ} (hne : ac ≠ a)
    (hac : new ac = conjOf (old a)) (ha : new a = old a) :
    Patches (fun B k => B k) (fun A => assignConj A ac a [] ([] : List ℕ).prod)
      (fun k => k = ac ∨ k = a) old new := by
  refine ⟨fun s hs k hk => ?_, fun s k hk => ?_⟩
  · have hread := hs a (Or.inr rfl)
    show Function.update s ac _ k = new k
    rcases hk with rfl | rfl
    · rw [Function.update_self, hac, ← hread]
      rfl
    · rw [Function.update_of_ne hne.symm, ha, hread]
  · exact Function.update_of_ne (fun h => hk (Or.inl h)) _ _

/-- **`assign_conj`.**  `new` is `old` on the slab at `a`, and its mirrored conjugate on the slab at
`ac`. -/
theorem assignConj_patches {n : List ℕ} (hn : ∀ x ∈ n, 0 < x) {old new : ℕ → BenchComplex R} :
    ∀ {ac a : ℕ}, (∀ k, InSlab n.prod ac k → ¬InSlab n.prod a k) →
    (∀ j < n.prod, new (ac + j) = conjOf (old (a + negIdx n j))) →
    (∀ j < n.prod, new (a + j) = old (a + j)) →
    Patches (fun B k => B k) (fun A => assignConj A ac a n n.prod)
      (fun k => InSlab n.prod ac k ∨ InSlab n.prod a k) old new := by
  induction n with
  | nil =>
    intro ac a hdisj hac ha
    have hone : ∀ b k, InSlab ([] : List ℕ).prod b k ↔ k = b := by
      intro b k
      rw [inSlab_iff, List.prod_nil]
      omega
    simp only [hone] at hdisj ⊢
    refine assignConj_nil_patches (fun h => hdisj ac rfl h) ?_ ?_
    · simpa [negIdx] using hac 0 Nat.one_pos
    · simpa using ha 0 Nat.one_pos
  | cons m n ih =>
    intro ac a hdisj hac ha
    have hm : 0 < m := hn m List.mem_cons_self
    have hn' : ∀ x ∈ n, 0 < x := fun x hx => hn x (List.mem_cons_of_mem m hx)
    simp only [List.prod_cons] at hdisj hac ha ⊢
    have hloop : (fun A : ℕ → BenchComplex R => assignConj A ac a (m :: n) (m * n.prod)) =
        forRange m (fun i A =>
          assignConj A (ac + (m - i) % m * n.prod) (a + i * n.prod) n n.prod) := by
      funext A
      rw [← List.prod_cons, assignConj_cons A ac a hm]
    rw [hloop]
    refine (Patches.forRange (fun i hi => ih hn' ?_ ?_ ?_) ?_).congr fun k => ?_
    · exact fun k hc h => hdisj k (hc.of_sub (sub_mod_lt hm i)) (h.of_sub hi)
    · intro j hj
      have hlt := row_lt (Nat.mul_le_mul_right n.prod (sub_mod_lt hm i)) hj
      rw [Nat.add_assoc, hac _ hlt, negIdx_row (sub_mod_lt hm i) hj, sub_mod_sub_mod hi,
        Nat.add_assoc]
    · intro j hj
      rw [Nat.add_assoc, ha _ (row_lt (Nat.mul_le_mul_right n.prod hi) hj)]
    · -- the sub-slabs of two steps share no cell
      rintro i hi i' hi' k (h | h) (h' | h')
      · exact mirror_injective hi hi' (h.sub_unique h')
      · exact absurd (h'.of_sub hi') (hdisj k (h.of_sub (sub_mod_lt hm i)))
      · exact absurd (h.of_sub hi) (hdisj k (h'.of_sub (sub_mod_lt hm i')))
      · exact h.sub_unique h'
    · exact exists_inSlab_iff hm

end AssignConj

section Mkhermitian

variable {R : Type*} [AddGroup R]

theorem conjOf_conjOf (z : BenchComplex R) : conjOf (conjOf z) = z := by
  rw [conjOf, conjOf, neg_neg]

/-- What the loop of `mkhermitian` leaves in cell `j` of sub-slab `i`. -/
theorem exists_mirrored (n : List ℕ) (m a : ℕ) (A : ℕ → BenchComplex R) :
    ∃ new : ℕ → BenchComplex R,
      (∀ i < m, m < 2 * i → ∀ j < n.prod,
        new (a + i * n.prod + j) = conjOf (A (a + (m - i) * n.prod + negIdx n j))) ∧
      ∀ i, 2 * i ≤ m → ∀ j < n.prod, new (a + i * n.prod + j) = A (a + i * n.prod + j) := by
  have hrow : ∀ i j, j < n.prod → (a + i * n.prod + j - a) / n.prod = i := by
    intro i j hj
    rw [Nat.add_assoc, Nat.add_sub_cancel_left, row_div hj]
  refine ⟨fun k => if m < 2 * ((k - a) / n.prod) then conjOf (A (a + negIdx (m :: n) (k - a)))
    else A k, fun i hi hlt j hj => ?_, fun i hi j hj => ?_⟩
  · beta_reduce
    rw [hrow i j hj, if_pos hlt, Nat.add_assoc a, Nat.add_sub_cancel_left, negIdx_row hi hj,
      Nat.mod_eq_of_lt (by omega), Nat.add_assoc]
  · beta_reduce
    rw [hrow i j hj, if_neg (by omega)]

/-- The loop of `mkhermitian` over the pairs of sub-slabs `i`, `m - i`. -/
theorem mkhermitian_pairs {n : List ℕ} (hn : ∀ x ∈ n, 0 < x) {m : ℕ} (hm : 0 < m)
    (A : ℕ → BenchComplex R) (a : ℕ) :
    ∃ B, forRange ((m - 1) / 2) (fun j A => assignConj A (a + (m - (j + 1)) * n.prod)
        (a + (j + 1) * n.prod) n n.prod) A = B ∧
      (∀ i, 0 < i → 2 * i < m → ∀ j < n.prod,
        B (a + (m - i) * n.prod + j) = conjOf (A (a + i * n.prod + negIdx n j))) ∧
      (∀ i, 2 * i ≤ m → ∀ k, InSlab n.prod (a + i * n.prod) k → B k = A k) ∧
      ∀ k, ¬InSlab (m * n.prod) a k → B k = A k := by
  obtain ⟨new, hhigh, hlow⟩ := exists_mirrored n m a A
  -- step `j` reads sub-slab `j + 1` and writes sub-slab `m - (j + 1)`
  have hloop : Patches (fun B k => B k)
      (forRange ((m - 1) / 2) fun j A => assignConj A (a + (m - (j + 1)) * n.prod)
        (a + (j + 1) * n.prod) n n.prod)
      (fun k => ∃ j < (m - 1) / 2, InSlab n.prod (a + (m - (j + 1)) * n.prod) k ∨
        InSlab n.prod (a + (j + 1) * n.prod) k) A new := by
    refine Patches.forRange (fun j hj => assignConj_patches hn (fun k h h' => ?_) ?_ ?_) ?_
    · have heq := h.sub_unique h'
      omega
    · intro c hc
      rw [hhigh _ (by omega) (by omega) c hc, Nat.sub_sub_self (by omega)]
    · intro c hc
      rw [hlow _ (by omega) c hc]
    · rintro i hi j hj k (h | h) (h' | h')
      all_goals
        have heq := h.sub_unique h'
        omega
  refine ⟨_, rfl, fun i h0 hi j hj => ?_, fun i hi k hk => ?_, fun k hk => hloop.off A k ?_⟩
  · have hread := hloop.on A (fun _ _ => rfl) (a + (m - i) * n.prod + j)
      ⟨i - 1, by omega, Or.inl ⟨j, hj, by rw [Nat.sub_add_cancel h0]⟩⟩
    rw [hhigh _ (by omega) (by omega) j hj, Nat.sub_sub_self (by omega)] at hread
    exact hread
  · by_cases hS : ∃ j < (m - 1) / 2, InSlab n.prod (a + (m - (j + 1)) * n.prod) k ∨
        InSlab n.prod (a + (j + 1) * n.prod) k
    · obtain ⟨c, hc, rfl⟩ := hk
      exact (hloop.on A (fun _ _ => rfl) _ hS).trans (hlow i hi c hc)
    · exact hloop.off A k hS
  · rintro ⟨j, hj, h | h⟩
    · exact hk (h.of_sub (by omega))
    · exact hk (h.of_sub (by omega))

/-- `mkhermitian` writes its slab only. -/
theorem mkhermitian_off {n : List ℕ} (hn : ∀ x ∈ n, 0 < x) : ∀ (A : ℕ → BenchComplex R) (a : ℕ),
    ∀ k, ¬InSlab n.prod a k → mkhermitian A a n k = A k := by
  induction n with
  | nil => exact fun A a k hk => Function.update_of_ne (fun h => hk ⟨0, Nat.one_pos, h⟩) _ _
  | cons m n ih =>
    intro A a k hk
    have hm : 0 < m := hn m List.mem_cons_self
    have hn' : ∀ x ∈ n, 0 < x := fun x hx => hn x (List.mem_cons_of_mem m hx)
    obtain ⟨B, hB, -, -, hrest⟩ := mkhermitian_pairs hn' hm (mkhermitian A a n) a
    rw [List.prod_cons] at hk
    have hzero : ¬InSlab n.prod a k := fun h =>
      hk (InSlab.of_sub hm (by rwa [Nat.zero_mul, Nat.add_zero]))
    have hBk : B k = A k := by rw [hrest k hk, ih hn' A a k hzero]
    rw [mkhermitian, hB]
    split_ifs with heven
    · rw [ih hn' B _ k fun h => hk (h.of_sub (by omega)), hBk]
    · exact hBk

/-- The sub-slabs, after the first one has been handled: those of the first half stay, those of the
second half are the mirrored conjugates, and the middle one, if there is one, is handled on its
own. -/
theorem mkhermitian_cons {n : List ℕ} (hn : ∀ x ∈ n, 0 < x) {m : ℕ} (hm : 0 < m)
    (A : ℕ → BenchComplex R) (a : ℕ) :
    (∀ i, 2 * i < m → ∀ k, InSlab n.prod (a + i * n.prod) k →
      mkhermitian A a (m :: n) k = mkhermitian A a n k) ∧
    (∀ i, 0 < i → 2 * i < m → ∀ j < n.prod, mkhermitian A a (m :: n) (a + (m - i) * n.prod + j)
      = conjOf (mkhermitian A a n (a + i * n.prod + negIdx n j))) ∧
    ∃ C, ∀ i, 2 * i = m → ∀ k, InSlab n.prod (a + i * n.prod) k →
      C k = mkhermitian A a n k ∧
        mkhermitian A a (m :: n) k = mkhermitian C (a + i * n.prod) n k := by
  obtain ⟨B, hB, hpair, hkeep, -⟩ := mkhermitian_pairs hn hm (mkhermitian A a n) a
  -- the last call only changes the middle sub-slab
  have hother : ∀ k, (∀ i, 2 * i = m → ¬InSlab n.prod (a + i * n.prod) k) →
      mkhermitian A a (m :: n) k = B k := by
    intro k hk
    rw [mkhermitian, hB]
    split_ifs with heven
    · exact mkhermitian_off hn B _ k (hk _ heven)
    · rfl
  refine ⟨fun i hi k hk => ?_, fun i h0 hi j hj => ?_, B, fun i hi k hk => ⟨hkeep i hi.le k hk, ?_⟩⟩
  · rw [hother k fun i' hi' h => absurd (h.sub_unique hk) (by omega), hkeep i hi.le k hk]
  · rw [hother _ fun i' hi' h => absurd (h.sub_unique ⟨j, hj, rfl⟩) (by omega),
      hpair i h0 hi j hj]
  · obtain rfl : i = (m - 1) / 2 + 1 := by omega
    rw [mkhermitian, hB, if_pos hi]

/-- **`mkhermitian` leaves a hermitian slab**, and every other cell as it was. -/
theorem mkhermitian_spec {n : List ℕ} (hn : ∀ x ∈ n, 0 < x) : ∀ (A : ℕ → BenchComplex R) (a : ℕ),
    HermitianAt (mkhermitian A a n) a n ∧
      ∀ k, ¬InSlab n.prod a k → mkhermitian A a n k = A k := by
  intro A a
  refine ⟨?_, mkhermitian_off hn A a⟩
  induction n generalizing A a with
  | nil =>
    intro j hj
    obtain rfl : j = 0 := Nat.lt_one_iff.mp hj
    show Function.update A a _ a = conjOf (Function.update A a _ a)
    rw [Function.update_self, conjOf, neg_zero]
  | cons m n ih =>
    intro q hq
    have hm : 0 < m := hn m List.mem_cons_self
    have hn' : ∀ x ∈ n, 0 < x := fun x hx => hn x (List.mem_cons_of_mem m hx)
    obtain ⟨hlow, hhigh, C, hmid⟩ := mkhermitian_cons hn' hm A a
    obtain ⟨i, hi, j, hj, rfl⟩ := exists_row (by rwa [List.prod_cons] at hq)
    have hneg := negIdx_lt hn' j
    rw [negIdx_row hi hj, ← Nat.add_assoc, ← Nat.add_assoc]
    rcases Nat.lt_trichotomy (2 * i) m with h | h | h
    · rcases Nat.eq_zero_or_pos i with rfl | h0
      · rw [Nat.sub_zero, Nat.mod_self, hlow 0 h _ ⟨_, hneg, rfl⟩, hlow 0 h _ ⟨_, hj, rfl⟩,
          Nat.zero_mul, Nat.add_zero]
        exact ih hn' A a j hj
      · rw [Nat.mod_eq_of_lt (by omega), hhigh i h0 h _ hneg, hlow i h _ ⟨j, hj, rfl⟩,
          negIdx_negIdx hn' hj]
    · rw [Nat.mod_eq_of_lt (by omega), show m - i = i by omega, (hmid i h _ ⟨_, hneg, rfl⟩).2,
        (hmid i h _ ⟨j, hj, rfl⟩).2]
      exact ih hn' C _ j hj
    · have hpart := hhigh (m - i) (by omega) (by omega) j hj
      rw [Nat.sub_sub_self hi.le] at hpart
      rw [Nat.mod_eq_of_lt (by omega), hlow (m - i) (by omega) _ ⟨_, hneg, rfl⟩, hpart,
        conjOf_conjOf]

/-! ### Where the entries come from -/

/-- Entry `q` of the slab at `a` is taken from `A`: as it is, from its mirror image, or, where it is
its own mirror image, without its imaginary part. -/
def TakenFrom (A : ℕ → BenchComplex R) (a : ℕ) (n : List ℕ) (q : ℕ) (z : BenchComplex R) : Prop :=
  z = A (a + q) ∨ z = conjOf (A (a + negIdx n q)) ∨
    negIdx n q = q ∧ z = ⟨(A (a + q)).re, 0⟩

theorem mkhermitian_takenFrom {n : List ℕ} (hn : ∀ x ∈ n, 0 < x) :
    ∀ (A : ℕ → BenchComplex R) (a : ℕ), ∀ q < n.prod,
      TakenFrom A a n q (mkhermitian A a n (a + q)) := by
  induction n with
  | nil =>
    intro A a q hq
    obtain rfl : q = 0 := Nat.lt_one_iff.mp hq
    exact Or.inr (Or.inr ⟨rfl, Function.update_self _ _ _⟩)
  | cons m n ih =>
    intro A a q hq
    have hm : 0 < m := hn m List.mem_cons_self
    have hn' : ∀ x ∈ n, 0 < x := fun x hx => hn x (List.mem_cons_of_mem m hx)
    obtain ⟨hlow, hhigh, C, hmid⟩ := mkhermitian_cons hn' hm A a
    obtain ⟨i, hi, j, hj, rfl⟩ := exists_row (by rwa [List.prod_cons] at hq)
    -- the sub-slabs after the first one are still those of `A`
    have hsame : ∀ i, 0 < i → ∀ k, InSlab n.prod (a + i * n.prod) k →
        mkhermitian A a n k = A k := fun i h0 k hk =>
      mkhermitian_off hn' A a k fun h => by
        have h' : InSlab n.prod (a + 0 * n.prod) k := by rwa [Nat.zero_mul, Nat.add_zero]
        exact absurd (h'.sub_unique hk) (by omega)
    have hneg := negIdx_lt hn' j
    rw [TakenFrom, negIdx_row hi hj, ← Nat.add_assoc, ← Nat.add_assoc]
    rcases Nat.lt_trichotomy (2 * i) m with h | h | h
    · rcases Nat.eq_zero_or_pos i with rfl | h0
      · rw [hlow 0 h _ ⟨j, hj, rfl⟩]
        simpa [TakenFrom] using ih hn' A a j hj
      · left
        rw [hlow i h _ ⟨j, hj, rfl⟩, hsame i h0 _ ⟨j, hj, rfl⟩]
    · -- the middle sub-slab is its own mirror image
      obtain rfl | h0 := Nat.eq_zero_or_pos i
      · omega
      have hC : ∀ c < n.prod, C (a + i * n.prod + c) = A (a + i * n.prod + c) := fun c hc => by
        rw [(hmid i h _ ⟨c, hc, rfl⟩).1, hsame i h0 _ ⟨c, hc, rfl⟩]
      have hsub := ih hn' C (a + i * n.prod) j hj
      rw [TakenFrom, hC j hj, hC _ hneg] at hsub
      rw [Nat.mod_eq_of_lt (by omega), show m - i = i by omega, (hmid i h _ ⟨j, hj, rfl⟩).2]
      simpa using hsub
    · right
      left
      have hpart := hhigh (m - i) (by omega) (by omega) j hj
      rw [Nat.sub_sub_self hi.le] at hpart
      rw [hpart, hsame (m - i) (by omega) _ ⟨_, hneg, rfl⟩, Nat.mod_eq_of_lt (by omega)]

end Mkhermitian

/-- An entry that equals its conjugate is real. -/
theorem eq_mk_zero {R : Type*} [Field R] [NeZero (2 : R)] {z : BenchComplex R}
    (h : z = conjOf z) : z = ⟨z.re, 0⟩ := by
  have him : z.im = -z.im := congrArg BenchComplex.im h
  have htwo : 2 * z.im = 0 := by linear_combination him
  ext
  · rfl
  · exact (mul_eq_zero.mp htwo).resolve_left two_ne_zero

/-- **What `mkhermitian` does.**  It leaves a hermitian slab, each entry of which comes from the
entry there or from its mirror image; a slab that is hermitian stays as it is, and so does every
cell outside. -/
theorem mkhermitian_hermitian {R : Type*} [Field R] [NeZero (2 : R)] {n : List ℕ}
    (hn : ∀ x ∈ n, 1 ≤ x) (A : ℕ → BenchComplex R) (a : ℕ) :
    HermitianAt (mkhermitian A a n) a n ∧
    (∀ k < n.prod, TakenFrom A a n k (mkhermitian A a n (a + k))) ∧
    (HermitianAt A a n → mkhermitian A a n = A) ∧
    ∀ k, k < a ∨ a + n.prod ≤ k → mkhermitian A a n k = A k := by
  obtain ⟨hherm, hoff⟩ := mkhermitian_spec hn A a
  have htaken := mkhermitian_takenFrom hn A a
  refine ⟨hherm, htaken, fun hA => ?_, fun k hk => hoff k fun h => ?_⟩
  · ext1 k
    by_cases hk : InSlab n.prod a k
    · obtain ⟨q, hq, rfl⟩ := hk
      rcases htaken q hq with h | h | ⟨hself, h⟩
      · exact h
      · rw [h, hA q hq, conjOf_conjOf]
      · have hreal := hA q hq
        rw [hself] at hreal
        rw [h, ← eq_mk_zero hreal]
    · exact hoff k hk
  · have hslab := inSlab_iff.mp h
    omega

theorem mkhermitian_hermitian_2x3 :
    HermitianAt (mkhermitian (fun i => (⟨i, i⟩ : BenchComplex ℚ)) 1 [2, 3]) 1 [2, 3] ∧
    (∀ k < [2, 3].prod, TakenFrom (fun i => (⟨i, i⟩ : BenchComplex ℚ)) 1 [2, 3] k
      (mkhermitian (fun i => ⟨i, i⟩) 1 [2, 3] (1 + k))) ∧
    (HermitianAt (fun i => (⟨i, i⟩ : BenchComplex ℚ)) 1 [2, 3] →
      mkhermitian (fun i => (⟨i, i⟩ : BenchComplex ℚ)) 1 [2, 3] = fun i => ⟨i, i⟩) ∧
    ∀ k, k < 1 ∨ 1 + [2, 3].prod ≤ k →
      mkhermitian (fun i => (⟨i, i⟩ : BenchComplex ℚ)) 1 [2, 3] k = ⟨k, k⟩ :=
  mkhermitian_hermitian (R := ℚ) (n := [2, 3]) (by decide) (fun i => ⟨i, i⟩) 1

end BenchFFT.Verify
