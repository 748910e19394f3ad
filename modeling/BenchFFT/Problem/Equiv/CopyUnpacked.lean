import BenchFFT.Problem.Copy
import BenchFFT.RowMajor
import Mathlib.Algebra.Ring.Basic

/-!
# The unpacked hermitian layout

Only the columns `0, …, n/2` of the last dimension are stored.  `copy_c2h_unpacked` writes them
(`copyC2hUnpacked_eq`); the recursion of `copy_h2c_unpacked` reads column `k` of each row, or, where
`k` is past the middle, column `n - k` of the mirrored row, conjugated (`cp_fills`).

* `unpacked_round_trip`: a hermitian array survives the round trip, and whatever the buffer holds,
  what is decoded is hermitian away from the first and the middle column.
-/

namespace BenchFFT

open RowMajor

variable {R : Type*}

/-- `word` keeps the numbers up to the size of the array, and up to twice the last dimension. -/
structure KeepsIndices (word : ℕ → ℕ) (p : Problem) : Prop where
  size : ∀ x ≤ p.dims.prod, word x = x
  row : ∀ x ≤ 2 * lastDim p, word x = x

/-! ### Dimensions -/

section Dimensions

variable {word : ℕ → ℕ} {p : Problem}

theorem dropLast_append_lastDim (hrank : 1 ≤ p.rank) : p.dims.dropLast ++ [lastDim p] = p.dims := by
  have hne : p.dims ≠ [] := by
    intro h
    rw [← p.length_dims, h] at hrank
    exact absurd hrank (by decide)
  rw [lastDim, List.getLastD_eq_getLast?, List.getLast?_eq_some_getLast hne, Option.getD_some,
    List.dropLast_append_getLast hne]

theorem foldl_mul_eq {l : List ℕ} (hl : ∀ x ∈ l, 0 < x) (a : ℕ)
    (hword : ∀ x ≤ a * l.prod, word x = x) :
    l.foldl (fun n0 n => word (n0 * n)) a = a * l.prod := by
  induction l generalizing a with
  | nil => rw [List.foldl_nil, List.prod_nil, Nat.mul_one]
  | cons m l ih =>
    have hpos : 0 < l.prod :=
      List.prod_pos_iff_forall_pos_nat.mpr fun x hx => hl x (List.mem_cons_of_mem m hx)
    rw [List.prod_cons, ← Nat.mul_assoc] at hword ⊢
    rw [List.foldl_cons, hword (a * m) (Nat.le_mul_of_pos_right _ hpos),
      ih (fun x hx => hl x (List.mem_cons_of_mem m hx)) _ hword]

end Dimensions

/-! ### The decoder -/

section Decoder

variable [Mul R] [Neg R] {word : ℕ → ℕ} {inp : Buf (BenchComplex R)} {sign : R}

/-- What is read for column `k` of a row of `n` columns, from the half-rows stored in `c`. -/
def unpackedAt (c : ℕ → BenchComplex R) (sign : R) (n row mrow k : ℕ) : BenchComplex R :=
  if 2 * k ≤ n then
    let a := c (row * (1 + n / 2) + k)
    ⟨a.re, -sign * a.im⟩
  else
    let a := c (mrow * (1 + n / 2) + (n - k))
    ⟨a.re, sign * a.im⟩

theorem cp_cons {n : List ℕ} (hn : n ≠ []) (ni nb mnb : ℕ) (out : ℕ → BenchComplex R) :
    cp word inp out (ni :: n) nb mnb sign =
      cp word inp out n (word (nb * ni)) (word (mnb * ni)) sign >>=
        forRangeM (ni - 1) (fun j out =>
          cp word inp out n (word (word (nb * ni) + (j + 1)))
            (word (word (mnb * ni) + (ni - (j + 1)))) sign) := by
  rcases n with _ | ⟨m, n⟩
  · exact absurd rfl hn
  · rfl

/-- The innermost level of the recursion fills one row. -/
theorem cp_row_fills {n0 nb mnb B : ℕ} (hn0 : 0 < n0)
    (hword : ∀ x ≤ B, word x = x) (hrow : ∀ x ≤ 2 * n0, word x = x) (hB : (nb + 1) * n0 ≤ B)
    (hB' : (mnb + 1) * n0 ≤ B) (hin : (nb + 1) * (1 + n0 / 2) ≤ inp.size)
    (hin' : (mnb + 1) * (1 + n0 / 2) ≤ inp.size) (mrow : ℕ → ℕ) (hmrow : mrow nb = mnb) :
    ∃ g, (∀ out, cp word inp out [n0] nb mnb sign = .ok (g out)) ∧
      Fills g (fun i => ∃ k < n0, i = nb * n0 + k)
        (fun i => unpackedAt inp.cell sign n0 (i / n0) (mrow (i / n0)) (i % n0)) := by
  have hld : word (1 + n0 / 2) = 1 + n0 / 2 := hrow _ (by omega)
  refine ⟨forRange n0 fun k out => Function.update out (nb * n0 + k)
    (unpackedAt inp.cell sign n0 nb mnb k), fun out => ?_,
    Fills.forRange fun k hk => Fills.update ?_⟩
  · rw [cp, hld]
    refine forRangeM_ok (fun k hk out => ?_) out
    -- no product or sum wraps around
    have hout : word (word (n0 * nb) + k) = nb * n0 + k := by
      have hlt := row_lt hB hk
      rw [Nat.mul_comm n0, hword (nb * n0) (by omega), hword _ hlt.le]
    have hle : (1 + n0 / 2) * nb ≤ nb * n0 := by
      rw [Nat.mul_comm]
      exact Nat.mul_le_mul_left _ (by omega)
    have hle' : (1 + n0 / 2) * mnb ≤ mnb * n0 := by
      rw [Nat.mul_comm]
      exact Nat.mul_le_mul_left _ (by omega)
    rw [Nat.succ_mul] at hB hB' hin hin'
    rw [hrow (2 * k) (by omega), hout, unpackedAt]
    split_ifs with h2k
    · rw [hword ((1 + n0 / 2) * nb) (by omega), hword _ (by omega), Nat.mul_comm _ nb,
        Buf.read_ok (by omega)]
      rfl
    · rw [hword ((1 + n0 / 2) * mnb) (by omega), hword _ (by omega), Nat.mul_comm _ mnb,
        Buf.read_ok (by omega)]
      rfl
  · rw [row_div hk, row_mod hk, hmrow]

/-- A block of `ni` sub-blocks, in the bounds that the recursion carries. -/
theorem succ_mul_le {nb ni ki c B : ℕ} (hki : ki < ni) (h : (nb + 1) * (ni * c) ≤ B) :
    (nb * ni + ki + 1) * c ≤ B := by
  refine le_trans ?_ h
  rw [← Nat.mul_assoc]
  refine Nat.mul_le_mul_right c ?_
  rw [Nat.succ_mul]
  omega

/-- The mirrored row, from a block to its sub-block `ki`. -/
theorem mirror_subBlock {mrow : ℕ → ℕ} {ni nb mnb : ℕ} {lead : List ℕ}
    (hmrow : ∀ r < (ni :: lead).prod, mrow (nb * (ni :: lead).prod + r)
      = mnb * (ni :: lead).prod + negIdx (ni :: lead) r) {ki r : ℕ} (hki : ki < ni)
    (hr : r < lead.prod) :
    mrow ((nb * ni + ki) * lead.prod + r)
      = (mnb * ni + (ni - ki) % ni) * lead.prod + negIdx lead r := by
  have hlt : ki * lead.prod + r < (ni :: lead).prod := by
    rw [List.prod_cons]
    exact row_lt (Nat.mul_le_mul_right _ hki) hr
  have h := hmrow _ hlt
  rw [negIdx, row_div hr, Nat.mod_eq_of_lt hki, row_mod hr, List.prod_cons] at h
  have hrow : (nb * ni + ki) * lead.prod + r = nb * (ni * lead.prod) + (ki * lead.prod + r) := by
    ring
  rw [hrow, h]
  ring

/-- A block is its first sub-block and the others. -/
theorem mem_block_iff {nb ni P n0 i : ℕ} (hni : 0 < ni) (hP : 0 < P) :
    ((∃ r < P, ∃ k < n0, i = ((nb * ni + 0) * P + r) * n0 + k) ∨
      ∃ j < ni - 1, ∃ r < P, ∃ k < n0, i = ((nb * ni + (j + 1)) * P + r) * n0 + k) ↔
      ∃ r < ni * P, ∃ k < n0, i = (nb * (ni * P) + r) * n0 + k := by
  constructor
  · rintro (⟨r, hr, k, hk, rfl⟩ | ⟨j, hj, r, hr, k, hk, rfl⟩)
    · exact ⟨r, lt_of_lt_of_le hr (Nat.le_mul_of_pos_left _ hni), k, hk,
        by rw [Nat.add_zero, Nat.mul_assoc]⟩
    · exact ⟨(j + 1) * P + r, row_lt (Nat.mul_le_mul_right _ (by omega)) hr, k, hk, by ring⟩
  · rintro ⟨r, hr, k, hk, rfl⟩
    have hq : r / P < ni := Nat.div_lt_of_lt_mul (by rwa [Nat.mul_comm])
    have hsplit := Nat.div_add_mod' r P
    by_cases h0 : r / P = 0
    · rw [h0, Nat.zero_mul, Nat.zero_add] at hsplit
      exact Or.inl ⟨r % P, Nat.mod_lt _ hP, k, hk, by rw [hsplit, Nat.add_zero, Nat.mul_assoc]⟩
    · refine Or.inr ⟨r / P - 1, Nat.sub_lt_sub_right (Nat.pos_of_ne_zero h0) hq, r % P,
        Nat.mod_lt _ hP, k, hk, ?_⟩
      rw [Nat.sub_add_cancel (Nat.pos_of_ne_zero h0)]
      conv_lhs => rw [← hsplit]
      ring

/-- One level of the recursion: the sub-block `0`, then a loop over the other ones. -/
theorem cp_cons_ok {n : List ℕ} (hn : n ≠ []) {ni nb mnb : ℕ} (hni : 0 < ni)
    (hnb : ∀ ki < ni, word (nb * ni + ki) = nb * ni + ki)
    (hmnb : ∀ ki < ni, word (mnb * ni + ki) = mnb * ni + ki)
    {g : ℕ → (ℕ → BenchComplex R) → ℕ → BenchComplex R}
    (hg : ∀ ki < ni, ∀ out,
      cp word inp out n (nb * ni + ki) (mnb * ni + (ni - ki) % ni) sign = .ok (g ki out))
    (out : ℕ → BenchComplex R) :
    cp word inp out (ni :: n) nb mnb sign =
      .ok (forRange (ni - 1) (fun j => g (j + 1)) (g 0 out)) := by
  have hzero := hg 0 hni out
  have hnb0 := hnb 0 hni
  have hmnb0 := hmnb 0 hni
  rw [Nat.add_zero] at hnb0 hmnb0
  rw [Nat.sub_zero, Nat.mod_self, Nat.add_zero, Nat.add_zero] at hzero
  rw [cp_cons hn, hnb0, hmnb0, hzero]
  refine forRangeM_ok (fun j hj out => ?_) _
  rw [hnb _ (by omega), hmnb _ (by omega)]
  have hj' := hg (j + 1) (by omega) out
  rwa [Nat.mod_eq_of_lt (by omega)] at hj'

/-- The recursion fills the rows below `nb`; `mrow` is the mirrored row, and `mnb` mirrors `nb`. -/
theorem cp_fills {n0 B : ℕ} (hn0 : 0 < n0) (hword : ∀ x ≤ B, word x = x)
    (hrow : ∀ x ≤ 2 * n0, word x = x) (mrow : ℕ → ℕ) {lead : List ℕ} (hlead : ∀ x ∈ lead, 0 < x)
    (nb mnb : ℕ) (hB : (nb + 1) * (lead.prod * n0) ≤ B) (hB' : (mnb + 1) * (lead.prod * n0) ≤ B)
    (hin : (nb + 1) * (lead.prod * (1 + n0 / 2)) ≤ inp.size)
    (hin' : (mnb + 1) * (lead.prod * (1 + n0 / 2)) ≤ inp.size)
    (hmrow : ∀ r < lead.prod, mrow (nb * lead.prod + r) = mnb * lead.prod + negIdx lead r) :
    ∃ g, (∀ out, cp word inp out (lead ++ [n0]) nb mnb sign = .ok (g out)) ∧
      Fills g (fun i => ∃ r < lead.prod, ∃ k < n0, i = (nb * lead.prod + r) * n0 + k)
        (fun i => unpackedAt inp.cell sign n0 (i / n0) (mrow (i / n0)) (i % n0)) := by
  induction lead generalizing nb mnb with
  | nil =>
    simp only [List.prod_nil, Nat.one_mul, Nat.mul_one, Nat.lt_one_iff, forall_eq, negIdx,
      Nat.add_zero] at hB hB' hin hin' hmrow
    obtain ⟨g, hg, hfill⟩ := cp_row_fills hn0 hword hrow hB hB' hin hin' mrow hmrow
    refine ⟨g, hg, hfill.congr fun i => ?_⟩
    simp only [List.prod_nil, Nat.lt_one_iff, exists_eq_left, Nat.mul_one, Nat.add_zero]
  | cons ni lead ih =>
    have hni : 0 < ni := hlead ni List.mem_cons_self
    have hlead' := fun x hx => hlead x (List.mem_cons_of_mem ni hx)
    have hP : 0 < lead.prod := List.prod_pos_iff_forall_pos_nat.mpr hlead'
    simp only [List.prod_cons, Nat.mul_assoc] at hB hB' hin hin'
    -- the sub-block of each `ki`
    have hsub : ∀ ki < ni, ∃ g, (∀ out, cp word inp out (lead ++ [n0]) (nb * ni + ki)
          (mnb * ni + (ni - ki) % ni) sign = .ok (g out)) ∧
        Fills g (fun i => ∃ r < lead.prod, ∃ k < n0, i = ((nb * ni + ki) * lead.prod + r) * n0 + k)
          (fun i => unpackedAt inp.cell sign n0 (i / n0) (mrow (i / n0)) (i % n0)) := by
      intro ki hki
      have hmod := Nat.mod_lt (ni - ki) hni
      exact ih hlead' _ _ (succ_mul_le hki hB) (succ_mul_le hmod hB') (succ_mul_le hki hin)
        (succ_mul_le hmod hin') fun r hr => mirror_subBlock hmrow hki hr
    have : Nonempty ((ℕ → BenchComplex R) → ℕ → BenchComplex R) := ⟨id⟩
    choose! g hg hfill using hsub
    have hkeep : ∀ nb', (nb' + 1) * (ni * (lead.prod * n0)) ≤ B →
        ∀ ki < ni, word (nb' * ni + ki) = nb' * ni + ki := by
      intro nb' h ki hki
      have h' := succ_mul_le hki h
      exact hword _ (le_trans (le_trans (Nat.le_succ _)
        (Nat.le_mul_of_pos_right _ (Nat.mul_pos hP hn0))) h')
    refine ⟨fun out => forRange (ni - 1) (fun j => g (j + 1)) (g 0 out), fun out => ?_, ?_⟩
    · exact cp_cons_ok (List.append_ne_nil_of_right_ne_nil _ (List.cons_ne_nil _ _)) hni
        (hkeep nb hB) (hkeep mnb hB') hg out
    · have hrest : ∀ j < ni - 1, Fills (g (j + 1)) _ _ := fun j hj => hfill (j + 1) (by omega)
      refine ((Fills.forRange hrest).comp (hfill 0 hni)).congr fun i => ?_
      rw [List.prod_cons]
      exact mem_block_iff hni hP

end Decoder

/-! ### The routines -/

section Routines

variable {word : ℕ → ℕ} {p : Problem} (hrank : 1 ≤ p.rank) (hkind : p.kind = .real)
  (hn : ∀ x ∈ p.dims, 0 < x) (hword : KeepsIndices word p)

/-- The complex cells of the unpacked layout. -/
def unpackedCells (p : Problem) : ℕ := p.dims.dropLast.prod * (1 + lastDim p / 2)

/-- What is stored for column `k` of row `r`. -/
def packedAt [Mul R] [Neg R] (X : ℕ → BenchComplex R) (s : R) (n r k : ℕ) : BenchComplex R :=
  ⟨(X (r * n + k)).re, -s * (X (r * n + k)).im⟩

include hrank

theorem prod_dropLast_mul : p.dims.dropLast.prod * lastDim p = p.dims.prod := by
  conv_rhs => rw [← dropLast_append_lastDim hrank, List.prod_append, List.prod_singleton]

include hn

theorem lastDim_pos : 0 < lastDim p := by
  refine hn _ ?_
  rw [← dropLast_append_lastDim hrank]
  exact List.mem_append_right _ (List.mem_singleton_self _)

include hword

theorem leadingSize_eq : leadingSize word p = p.dims.dropLast.prod := by
  have hlead : ∀ x ∈ p.dims.dropLast, 0 < x := fun x hx => hn x (List.dropLast_subset _ hx)
  have hle : p.dims.dropLast.prod ≤ p.dims.prod := by
    rw [← prod_dropLast_mul hrank]
    exact Nat.le_mul_of_pos_right _ (lastDim_pos hrank hn)
  rw [leadingSize, foldl_mul_eq hlead 1 fun x hx => hword.size x (by omega), Nat.one_mul]

include hkind

theorem copyC2hUnpacked_eq [Mul R] [Neg R] (X : ℕ → BenchComplex R) (s : R)
    {pin : Buf (BenchComplex R)} (hpin : unpackedCells p ≤ pin.size) :
    ∃ pin', copyC2hUnpacked word p pin X s = .ok pin' ∧ pin'.size = pin.size ∧
      ∀ r < p.dims.dropLast.prod, ∀ k < 1 + lastDim p / 2,
        pin'.cell (r * (1 + lastDim p / 2) + k) = packedAt X s (lastDim p) r k := by
  have hld : word (1 + lastDim p / 2) = 1 + lastDim p / 2 :=
    hword.row _ (by have := lastDim_pos hrank hn; omega)
  let g := forRange p.dims.dropLast.prod fun r => forRange (1 + lastDim p / 2)
    fun k (c : ℕ → BenchComplex R) =>
      Function.update c (r * (1 + lastDim p / 2) + k) (packedAt X s (lastDim p) r k)
  have hruns : Buf.Runs pin.size (fun pin => forRangeM (leadingSize word p) (fun r pin =>
      forRangeM (word (1 + lastDim p / 2)) (fun k pin =>
        pin.write (r * word (1 + lastDim p / 2) + k) (packedAt X s (lastDim p) r k)) pin) pin)
      g := by
    rw [leadingSize_eq hrank hn hword, hld]
    exact Buf.Runs.forRangeM fun r hr => Buf.Runs.forRangeM fun k hk => Buf.Runs.write
      (lt_of_lt_of_le (row_lt (Nat.mul_le_mul_right _ hr) hk) hpin) _
  refine ⟨pin.lift g, ?_, rfl, fun r hr k hk => ?_⟩
  · rw [copyC2hUnpacked, benchAssert, benchAssert, if_pos hrank, if_pos hkind]
    exact hruns pin rfl
  · have hfill := Fills.rows p.dims.dropLast.prod (1 + lastDim p / 2) (packedAt X s (lastDim p))
    refine (hfill.on pin.cell _ (row_lt (Nat.mul_le_mul_right _ hr) hk)).trans ?_
    rw [row_div hk, row_mod hk]

theorem copyH2cUnpacked_eq [Mul R] [Neg R] (Y₀ : ℕ → BenchComplex R) (s : R)
    {pout : Buf (BenchComplex R)} (hpout : unpackedCells p ≤ pout.size) :
    ∃ Y, copyH2cUnpacked word p pout Y₀ s = .ok Y ∧ ∀ i < p.dims.prod,
      Y i = unpackedAt pout.cell s (lastDim p) (i / lastDim p)
        (negIdx p.dims.dropLast (i / lastDim p)) (i % lastDim p) := by
  have hlead : ∀ x ∈ p.dims.dropLast, 0 < x := fun x hx => hn x (List.dropLast_subset _ hx)
  have hprod := prod_dropLast_mul hrank
  have hlast := lastDim_pos hrank hn
  obtain ⟨g, hg, hfill⟩ : ∃ g, (∀ out, cp word pout out (p.dims.dropLast ++ [lastDim p]) 0 0 s
      = .ok (g out)) ∧ Fills g _ _ :=
    cp_fills hlast hword.size hword.row (negIdx p.dims.dropLast) hlead 0 0
      (by rw [hprod, Nat.zero_add, Nat.one_mul]) (by rw [hprod, Nat.zero_add, Nat.one_mul])
      (by rwa [Nat.zero_add, Nat.one_mul]) (by rwa [Nat.zero_add, Nat.one_mul])
      (fun r _ => by rw [Nat.zero_mul, Nat.zero_add, Nat.zero_add])
  refine ⟨g Y₀, ?_, fun i hi => hfill.on Y₀ i ?_⟩
  · rw [copyH2cUnpacked, benchAssert, benchAssert, if_pos hrank, if_pos hkind,
      ← dropLast_append_lastDim hrank]
    exact hg Y₀
  · refine ⟨i / lastDim p, ?_, i % lastDim p, Nat.mod_lt _ hlast, ?_⟩
    · exact Nat.div_lt_of_lt_mul (by rwa [Nat.mul_comm, hprod])
    · rw [Nat.zero_mul, Nat.zero_add, Nat.div_add_mod']

end Routines

/-! ### The round trip -/

section RoundTrip

variable [CommRing R]

/-- The complex conjugate. -/
def conj (a : BenchComplex R) : BenchComplex R := ⟨a.re, -a.im⟩

/-- `X[-k mod n] = conj X[k]` for every multi-index `k`. -/
def Hermitian (n : List ℕ) (X : ℕ → BenchComplex R) : Prop :=
  ∀ k < n.prod, X (negIdx n k) = conj (X k)

/-- Decoding what was encoded gives back a column up to the middle, and the conjugate of the
mirrored column past it. -/
theorem unpackedAt_packedAt {s : R} (hss : s * s = 1) {c X : ℕ → BenchComplex R} {n rows : ℕ}
    (hc : ∀ r < rows, ∀ k < 1 + n / 2, c (r * (1 + n / 2) + k) = packedAt X s n r k)
    {r mr k : ℕ} (hr : r < rows) (hmr : mr < rows) (hk : k < n) :
    unpackedAt c s n r mr k
      = if 2 * k ≤ n then X (r * n + k) else conj (X (mr * n + (n - k))) := by
  have hcancel : ∀ x : R, s * (s * x) = x := fun x => by rw [← mul_assoc, hss, one_mul]
  unfold unpackedAt
  split_ifs with h
  · rw [hc r hr k (by omega), packedAt]
    simp only [neg_mul, mul_neg, neg_neg, hcancel]
  · rw [hc mr hmr (n - k) (by omega), packedAt, conj]
    simp only [neg_mul, mul_neg, hcancel]

/-- Whatever the half-rows hold, a column strictly before the middle and its mirror image are
conjugate. -/
theorem unpackedAt_mirror (c : ℕ → BenchComplex R) (s : R) {n r mr k : ℕ} (h0 : 0 < 2 * k)
    (h1 : 2 * k < n) : unpackedAt c s n mr r (n - k) = conj (unpackedAt c s n r mr k) := by
  rw [unpackedAt, unpackedAt, if_neg (by omega), if_pos h1.le, Nat.sub_sub_self (by omega), conj]
  simp only [neg_mul, neg_neg]

variable {word : ℕ → ℕ} {p : Problem} (hrank : 1 ≤ p.rank) (hkind : p.kind = .real)
  (hn : ∀ x ∈ p.dims, 0 < x) (hword : KeepsIndices word p) {s : R}

include hrank

theorem digit_lastDim (k : ℕ) : digit p.dims (p.rank - 1) k = k % lastDim p := by
  have hlen : p.dims.dropLast.length = p.rank - 1 := by
    rw [List.length_dropLast, p.length_dims]
  have h := digit_last p.dims.dropLast (lastDim p) k
  rwa [hlen, dropLast_append_lastDim hrank] at h

include hn

/-- The mirrored index of column `k` of row `r`. -/
theorem negIdx_row {r k : ℕ} (hk : k < lastDim p) :
    negIdx p.dims (r * lastDim p + k)
      = negIdx p.dims.dropLast r * lastDim p + (lastDim p - k) % lastDim p := by
  have hlead : ∀ x ∈ p.dims.dropLast, 0 < x := fun x hx => hn x (List.dropLast_subset _ hx)
  conv_lhs => rw [← dropLast_append_lastDim hrank]
  exact negIdx_append hlead hk r

include hkind hword

/-- The columns up to the middle of a hermitian array are read back as the whole array. -/
theorem copyH2cUnpacked_of_packed (hss : s * s = 1) {X : ℕ → BenchComplex R}
    (hX : Hermitian p.dims X) (Y₀ : ℕ → BenchComplex R) {buf : Buf (BenchComplex R)}
    (hbuf : unpackedCells p ≤ buf.size)
    (hcell : ∀ r < p.dims.dropLast.prod, ∀ k < 1 + lastDim p / 2,
      buf.cell (r * (1 + lastDim p / 2) + k) = packedAt X s (lastDim p) r k) :
    ∃ Y, copyH2cUnpacked word p buf Y₀ s = .ok Y ∧ ∀ k < p.dims.prod, Y k = X k := by
  have hlead : ∀ x ∈ p.dims.dropLast, 0 < x := fun x hx => hn x (List.dropLast_subset _ hx)
  obtain ⟨Y, hread, hY⟩ := copyH2cUnpacked_eq hrank hkind hn hword Y₀ s hbuf
  refine ⟨Y, hread, fun i hi => ?_⟩
  have hk := Nat.mod_lt i (lastDim_pos hrank hn)
  have hrow : i / lastDim p < p.dims.dropLast.prod :=
    Nat.div_lt_of_lt_mul (by rwa [Nat.mul_comm, prod_dropLast_mul hrank])
  rw [hY i hi, unpackedAt_packedAt hss hcell hrow (negIdx_lt hlead _) hk]
  split_ifs with h
  · rw [Nat.div_add_mod']
  · -- past the middle, the entry is the conjugate of the mirrored one
    have hmirror := hX i hi
    rw [← Nat.div_add_mod' i (lastDim p), negIdx_row hrank hn hk,
      Nat.mod_eq_of_lt (by omega : lastDim p - i % lastDim p < lastDim p)] at hmirror
    rw [hmirror, conj, conj, neg_neg, Nat.div_add_mod']

/-- **The unpacked layout round-trips.**  A hermitian array written by `copy_c2h_unpacked` is read
back by `copy_h2c_unpacked`; and whatever the buffer holds, what is read satisfies
`Y[-k mod n] = conj Y[k]` wherever the last index `k'` of `k` satisfies `0 < 2 * k' < n`. -/
theorem unpacked_round_trip (Y₀ : ℕ → BenchComplex R) {buf : Buf (BenchComplex R)}
    (hbuf : unpackedCells p ≤ buf.size) (hs : s = 1 ∨ s = -1) :
    (∀ X, Hermitian p.dims X → ∃ buf' Y, copyC2hUnpacked word p buf X s = .ok buf' ∧
      copyH2cUnpacked word p buf' Y₀ s = .ok Y ∧ ∀ k < p.dims.prod, Y k = X k) ∧
    ∃ Y, copyH2cUnpacked word p buf Y₀ s = .ok Y ∧ ∀ k < p.dims.prod,
      0 < 2 * digit p.dims (p.rank - 1) k → 2 * digit p.dims (p.rank - 1) k < lastDim p →
        Y (negIdx p.dims k) = conj (Y k) := by
  have hss : s * s = 1 := by
    rcases hs with rfl | rfl
    · exact one_mul 1
    · rw [neg_mul_neg, one_mul]
  have hlead : ∀ x ∈ p.dims.dropLast, 0 < x := fun x hx => hn x (List.dropLast_subset _ hx)
  have hlast := lastDim_pos hrank hn
  -- the row and the column of an entry
  have hrow : ∀ {i}, i < p.dims.prod → i / lastDim p < p.dims.dropLast.prod := fun hi =>
    Nat.div_lt_of_lt_mul (by rwa [Nat.mul_comm, prod_dropLast_mul hrank])
  constructor
  · intro X hX
    obtain ⟨buf', hwrite, hsize, hcell⟩ := copyC2hUnpacked_eq hrank hkind hn hword X s hbuf
    obtain ⟨Y, hread, hY⟩ :=
      copyH2cUnpacked_of_packed hrank hkind hn hword hss hX Y₀ (hsize ▸ hbuf) hcell
    exact ⟨buf', Y, hwrite, hread, hY⟩
  · obtain ⟨Y, hread, hY⟩ := copyH2cUnpacked_eq hrank hkind hn hword Y₀ s hbuf
    refine ⟨Y, hread, fun i hi h0 h1 => ?_⟩
    rw [digit_lastDim hrank] at h0 h1
    have hk := Nat.mod_lt i hlast
    -- inside a row, mirroring goes to the column `n - k` of the mirrored row
    have hneg : negIdx p.dims i = negIdx p.dims.dropLast (i / lastDim p) * lastDim p
        + (lastDim p - i % lastDim p) := by
      conv_lhs => rw [← Nat.div_add_mod' i (lastDim p), negIdx_row hrank hn hk]
      rw [Nat.mod_eq_of_lt (by omega : lastDim p - i % lastDim p < lastDim p)]
    have hcol : lastDim p - i % lastDim p < lastDim p := by omega
    rw [hY i hi, hY _ (negIdx_lt hn i), hneg, row_div hcol, row_mod hcol,
      negIdx_negIdx hlead (hrow hi)]
    exact unpackedAt_mirror _ s h0 h1

end RoundTrip

/-- An array that is hermitian by construction. -/
def mirrored [CommRing R] (n : List ℕ) (k : ℕ) : BenchComplex R :=
  ⟨k + negIdx n k, k - negIdx n k⟩

theorem hermitian_mirrored [CommRing R] {n : List ℕ} (hn : ∀ x ∈ n, 0 < x) :
    Hermitian n (mirrored (R := R) n) := by
  intro k hk
  rw [mirrored, mirrored, negIdx_negIdx hn hk, conj, add_comm, neg_sub]

/-- The problem `r2x3`, forward and backward. -/
def r2x3 (sign : ℤ) : Problem where
  kind := .real
  n := [2, 3]
  size := 6
  vn := []
  vsize := 1
  sign := sign
  inPlace := false
  split := false
  pstring := "r2x3".toList

theorem keepsIndices_r2x3 (sign : ℤ) : KeepsIndices u32 (r2x3 sign) where
  size x hx := u32_eq (lt_of_le_of_lt hx (show [2, 3].prod < 2 ^ 32 by decide))
  row x hx := u32_eq (lt_of_le_of_lt hx (show 2 * 3 < 2 ^ 32 by decide))

theorem unpacked_round_trip_r2x3 : ∃ buf' Y,
    copyC2hUnpacked u32 (r2x3 (-1)) ⟨4, fun _ => ⟨0, 0⟩⟩ (mirrored (R := ℤ) [2, 3]) (-1)
        = .ok buf' ∧
      copyH2cUnpacked u32 (r2x3 (-1)) buf' (fun _ => ⟨0, 0⟩) (-1) = .ok Y ∧
        ∀ k < (r2x3 (-1)).dims.prod, Y k = mirrored [2, 3] k :=
  (unpacked_round_trip (by decide) rfl (by decide) (keepsIndices_r2x3 (-1)) (fun _ => ⟨0, 0⟩)
    (by decide) (Or.inr rfl)).1 (mirrored [2, 3]) (hermitian_mirrored (by decide))

end BenchFFT
