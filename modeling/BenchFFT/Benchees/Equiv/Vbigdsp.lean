import BenchFFT.Benchees.Equiv.Layout
import BenchFFT.Benchees.Vbigdsp
import BenchFFT.Logged
import BenchFFT.Problem.Equiv.Copy1d

/-!
# The two-dimensional real layout of Apple's library

The cells `2 * j` and `2 * j + 1` of a row hold its column `j`, for `0 < j < W/2`.  The columns `0`
and `W/2` run down the cells `0` and `1` of the rows: an even row has a real part there and the odd
row below it the imaginary part, and where row `0` has the first entry, which is real, row `1` has
the middle one (`held`).

* `c2hRank2_assigns`, `c2hRank2_logs`: every cell is written, and there are as many writes as cells.
* `h2cRank2_assigns`: where the cells hold a hermitian array, both parts of every entry are
  assigned, and it is read.
* `vbigdsp_round_trip`: `copy_h2c` gives back the array.
-/

namespace BenchFFT.Vbigdsp

variable {R : Type}

/-! ### Cells -/

/-- What the row `r` holds for a column `x` of `H` entries, the first and the middle one real. -/
def columnCell (x : ℕ → BenchComplex R) (H r : ℕ) : R :=
  if r = 1 then (x (H / 2)).re else if r % 2 = 0 then (x (r / 2)).re else (x (r / 2)).im

/-- What the cell `l` holds for the array `X`. -/
def held (X : ℕ → BenchComplex R) (H W l : ℕ) : R :=
  if l % W < 2 then columnCell (fun i => X (i * W + l % W * (W / 2))) H (l / W)
  else if l % W % 2 = 0 then (X (l / W * W + l % W / 2)).re
  else (X (l / W * W + l % W / 2)).im

section Held

variable {X : ℕ → BenchComplex R} {H W r : ℕ}

theorem held_column {m col : ℕ} (hW : 2 ≤ W) (hm : m = 0 ∧ col = 0 ∨ m = 1 ∧ col = W / 2) :
    held X H W (r * W + m) = columnCell (fun i => X (i * W + col)) H r := by
  rw [held, row_div (by omega), row_mod (by omega), if_pos (by omega)]
  rcases hm with ⟨rfl, rfl⟩ | ⟨rfl, rfl⟩
  · rw [Nat.zero_mul]
  · rw [Nat.one_mul]

theorem held_re {j : ℕ} (h0 : 1 ≤ j) (hj : j < W / 2) :
    held X H W (r * W + 2 * j) = (X (r * W + j)).re := by
  rw [held, row_div (by omega), row_mod (by omega), if_neg (by omega), if_pos (by omega),
    Nat.mul_div_cancel_left j two_pos]

theorem held_im {j : ℕ} (h0 : 1 ≤ j) (hj : j < W / 2) :
    held X H W (r * W + (2 * j + 1)) = (X (r * W + j)).im := by
  rw [held, row_div (by omega), row_mod (by omega), if_neg (by omega), if_neg (by omega),
    show (2 * j + 1) / 2 = j by omega]

theorem columnCell_even (x : ℕ → BenchComplex R) (H i : ℕ) :
    columnCell x H (2 * i) = (x i).re := by
  rw [columnCell, if_neg (by omega), if_pos (by omega), Nat.mul_div_cancel_left i two_pos]

theorem columnCell_odd (x : ℕ → BenchComplex R) (H : ℕ) {i : ℕ} (h0 : 1 ≤ i) :
    columnCell x H (2 * i + 1) = (x i).im := by
  rw [columnCell, if_neg (by omega), if_neg (by omega), show (2 * i + 1) / 2 = i by omega]

theorem columnCell_zero (x : ℕ → BenchComplex R) (H : ℕ) : columnCell x H 0 = (x 0).re := rfl

theorem columnCell_one (x : ℕ → BenchComplex R) (H : ℕ) : columnCell x H 1 = (x (H / 2)).re :=
  if_pos rfl

end Held

theorem index_eq {H W i k : ℕ} (hle : H * W ≤ 2147483648) (hi : i < H) (hk : k < W) :
    index W (i, k) = .ok (i * W + k) :=
  if_pos (Nat.lt_of_lt_of_le (row_lt (Nat.mul_le_mul_right W hi) hk) hle)

/-! ### Writing -/

section Writing

variable {X : ℕ → BenchComplex R} {H W size : ℕ} (hn : Dims2 H W) (hle : H * W ≤ 2147483648)
  (hsize : H * W ≤ size)

include hle hsize

theorem store_assigns {q : Part} {i k r m : ℕ} (hr : r < H) (hm : m < W) (hi : i < H) (hk : k < W)
    (hx : q.of (X (i * W + k)) = held X H W (r * W + m)) :
    Assigns (Logged.HasSize size) Logged.get
      (fun data => store Logged.write W X data q (r, m) (i, k)) (· = r * W + m)
      (fun l => some (held X H W l)) := by
  simp only [store, index_eq hle hr hm, index_eq hle hi hk]
  exact Logged.assigns_write
    (Nat.lt_of_lt_of_le (row_lt (Nat.mul_le_mul_right W hr) hm) hsize) hx

include hn

theorem c2hColumn_assigns {m col : ℕ} (hm : m = 0 ∧ col = 0 ∨ m = 1 ∧ col = W / 2) :
    Assigns (Logged.HasSize size) Logged.get
      (fun data => c2hColumn Logged.write H W X data col m) (fun l => ∃ r < H, l = r * W + m)
      (fun l => some (held X H W l)) := by
  have hpos := hn.pos0
  have heven := hn.even0
  have hhalf := hn.half_pos
  have hcol : col < W := by omega
  have hlt : m < W := by omega
  have hcell : ∀ r, held X H W (r * W + m) = columnCell (fun i => X (i * W + col)) H r :=
    fun r => held_column (by omega) hm
  have hloop := Assigns.forFromM fun i (h0 : 1 ≤ i) (hi : i < H / 2) =>
    (store_assigns (q := .re) (X := X) (r := 2 * i) (m := m) (i := i) (k := col) hle hsize
      (by omega) hlt (by omega) hcol (by rw [hcell, columnCell_even, Part.of])).bind
    (store_assigns (q := .im) (r := 2 * i + 1) (m := m) (i := i) (k := col) hle hsize (by omega) hlt
      (by omega) hcol (by rw [hcell, columnCell_odd _ _ h0, Part.of]))
  have hall := (store_assigns (q := .re) (X := X) (r := 0) (m := m) (i := 0) (k := col) hle hsize
      hpos hlt hpos hcol (by rw [hcell, columnCell_zero, Part.of])).bind
    ((store_assigns (q := .re) (r := 1) (m := m) (i := H / 2) (k := col) hle hsize (by omega) hlt
      (by omega) hcol (by rw [hcell, columnCell_one, Part.of])).bind hloop)
  refine hall.mono fun l hl => ?_
  obtain ⟨r, hr, rfl⟩ := hl
  rcases Nat.lt_or_ge r 2 with h2 | h2
  · obtain rfl | rfl : r = 0 ∨ r = 1 := by omega
    · exact Or.inl rfl
    · exact Or.inr (Or.inl rfl)
  · refine Or.inr (Or.inr ⟨r / 2, by omega, by omega, ?_⟩)
    rcases Nat.even_or_odd' r with ⟨i, rfl | rfl⟩
    · rw [Nat.mul_div_cancel_left i two_pos]
      exact Or.inl rfl
    · rw [show (2 * i + 1) / 2 = i by omega]
      exact Or.inr rfl

/-- The columns other than `0` and `W/2` of the row `r`. -/
theorem storeRow_assigns {r : ℕ} (hr : r < H) :
    Assigns (Logged.HasSize size) Logged.get
      (forFromM 1 (W / 2) fun j data => do
        let data ← storeRe Logged.write W X data (r, 2 * j) (r, j)
        storeIm Logged.write W X data (r, 2 * j + 1) (r, j))
      (fun l => ∃ m < W, 2 ≤ m ∧ l = r * W + m) (fun l => some (held X H W l)) := by
  have heven := hn.even1
  have hloop := Assigns.forFromM fun j (h0 : 1 ≤ j) (hj : j < W / 2) =>
    (store_assigns (q := .re) (X := X) (r := r) (m := 2 * j) (i := r) (k := j) hle hsize hr
      (by omega) hr (by omega) (held_re h0 hj).symm).bind
    (store_assigns (q := .im) (r := r) (m := 2 * j + 1) (i := r) (k := j) hle hsize hr (by omega) hr
      (by omega) (held_im h0 hj).symm)
  refine hloop.mono fun l hl => ?_
  obtain ⟨m, hm, h2, rfl⟩ := hl
  refine ⟨m / 2, by omega, by omega, ?_⟩
  rcases Nat.even_or_odd' m with ⟨j, rfl | rfl⟩
  · rw [Nat.mul_div_cancel_left j two_pos]
    exact Or.inl rfl
  · rw [show (2 * j + 1) / 2 = j by omega]
    exact Or.inr rfl

/-- Every cell is written. -/
theorem c2hRank2_assigns :
    Assigns (Logged.HasSize size) Logged.get (c2hRank2 Logged.write H W X) (· < H * W)
      (fun l => some (held X H W l)) := by
  have hrows := Assigns.forFromM fun i (_ : 1 ≤ i) (hi : i < H) =>
    storeRow_assigns (X := X) hn hle hsize hi
  refine ((c2hColumn_assigns hn hle hsize (Or.inl ⟨rfl, rfl⟩)).bind <|
    (c2hColumn_assigns hn hle hsize (Or.inr ⟨rfl, rfl⟩)).bind <|
    hrows.bind (storeRow_assigns hn hle hsize hn.pos0)).mono fun l hl => ?_
  obtain ⟨r, hr, m, hm, rfl⟩ := exists_row hl
  rcases Nat.lt_or_ge m 2 with h2 | h2
  · obtain rfl | rfl : m = 0 ∨ m = 1 := by omega
    · exact Or.inl ⟨r, hr, rfl⟩
    · exact Or.inr (Or.inl ⟨r, hr, rfl⟩)
  · rcases Nat.eq_zero_or_pos r with rfl | h0
    · exact Or.inr (Or.inr (Or.inr ⟨m, hm, h2, rfl⟩))
    · exact Or.inr (Or.inr (Or.inl ⟨r, h0, hr, m, hm, h2, rfl⟩))

end Writing

/-! ### Counting the writes -/

section Counting

variable (W : ℕ) (X : ℕ → BenchComplex R)

theorem storeRe_logs (l e : ℕ × ℕ) :
    Logs (fun s => storeRe Logged.write W X s l e) (fun b => storeRe Buf.write W X b l e) 1 :=
  Logs.bind_index _ fun _ => Logs.bind_index _ fun _ => Logs.write _ _

theorem storeIm_logs (l e : ℕ × ℕ) :
    Logs (fun s => storeIm Logged.write W X s l e) (fun b => storeIm Buf.write W X b l e) 1 :=
  Logs.bind_index _ fun _ => Logs.bind_index _ fun _ => Logs.write _ _

theorem c2hColumn_logs (H col m : ℕ) :
    Logs (fun s => c2hColumn Logged.write H W X s col m)
      (fun b => c2hColumn Buf.write H W X b col m) (1 + (1 + (H / 2 - 1) * (1 + 1))) :=
  (storeRe_logs W X _ _).bind <| (storeRe_logs W X _ _).bind <|
    Logs.forFromM fun _ => (storeRe_logs W X _ _).bind (storeIm_logs W X _ _)

/-- As many writes as cells. -/
theorem c2hRank2_logs {H W : ℕ} (hn : Dims2 H W) :
    Logs (c2hRank2 Logged.write H W X) (c2hRank2 Buf.write H W X) (H * W) := by
  have hrow : ∀ i, Logs
      (forFromM 1 (W / 2) fun j data => do
        let data ← storeRe Logged.write W X data (i, 2 * j) (i, j)
        storeIm Logged.write W X data (i, 2 * j + 1) (i, j))
      (forFromM 1 (W / 2) fun j data => do
        let data ← storeRe Buf.write W X data (i, 2 * j) (i, j)
        storeIm Buf.write W X data (i, 2 * j + 1) (i, j)) ((W / 2 - 1) * (1 + 1)) :=
    fun i => Logs.forFromM fun _ => (storeRe_logs W X _ _).bind (storeIm_logs W X _ _)
  have hall := (c2hColumn_logs W X H 0 0).bind <| (c2hColumn_logs W X H (W / 2) 1).bind <|
    (Logs.forFromM (a := 1) (b := H) hrow).bind (hrow 0)
  have hcount : 1 + (1 + (H / 2 - 1) * (1 + 1)) + (1 + (1 + (H / 2 - 1) * (1 + 1)) +
      ((H - 1) * ((W / 2 - 1) * (1 + 1)) + (W / 2 - 1) * (1 + 1))) = H * W := by
    have hpos := hn.pos0
    have heven := hn.even0
    have hpos' := hn.pos1
    have heven' := hn.even1
    obtain ⟨h, rfl⟩ : ∃ h, H = 2 * (h + 1) := ⟨H / 2 - 1, by omega⟩
    obtain ⟨w, rfl⟩ : ∃ w, W = 2 * (w + 1) := ⟨W / 2 - 1, by omega⟩
    rw [Nat.mul_div_cancel_left _ two_pos, Nat.mul_div_cancel_left _ two_pos, Nat.add_sub_cancel,
      Nat.add_sub_cancel, show 2 * (h + 1) - 1 = 2 * h + 1 by omega]
    ring
  rw [hcount] at hall
  exact hall

end Counting

/-! ### Reading -/

section Reading

variable [Field R] {X : ℕ → BenchComplex R} {H W : ℕ} (hn : Dims2 H W)
  (hle : H * W ≤ 2147483648) (hX : Hermitian [H, W] X) {data : Buf R}
  (hread : ∀ l < H * W, data.read l = .ok (held X H W l))

include hle hread

theorem putReal_assigns {i k r m : ℕ} (hi : i < H) (hk : k < W) (hr : r < H) (hm : m < W)
    (hre : held X H W (r * W + m) = (X (i * W + k)).re) (him : (X (i * W + k)).im = 0) :
    Assigns (fun _ => True) parts (fun out => putReal W data out (i, k) (r, m))
      (fun s => s.2 = i * W + k) (parts X) := by
  simp only [putReal, index_eq hle hi hk, index_eq hle hr hm]
  have hboth := (assigns_put (q := .re) (i := i * W + k) (v := parts X)
    (x := data.read (r * W + m)) (by
      rw [hread _ (row_lt (Nat.mul_le_mul_right W hr) hm), hre]
      rfl)).bind
    (assigns_put (q := .im) (i := i * W + k) (v := parts X) (x := .ok 0) (congrArg _ him.symm))
  refine hboth.mono fun s hs => ?_
  obtain ⟨q, l⟩ := s
  cases q <;> simpa using hs

theorem putMirrored_assigns {p q i k r m u w : ℕ} (hp : p < H) (hq : q < W) (hi : i < H)
    (hk : k < W) (hr : r < H) (hm : m < W) (hu : u < H) (hw : w < W)
    (hmirror : X (p * W + q) = conj (X (i * W + k)))
    (hre : held X H W (r * W + m) = (X (i * W + k)).re)
    (him : held X H W (u * W + w) = (X (i * W + k)).im) :
    Assigns (fun _ => True) parts
      (fun out => putMirrored W data out (p, q) (i, k) (r, m) (u, w))
      (fun s => s.2 = i * W + k ∨ s.2 = p * W + q) (parts X) := by
  simp only [putMirrored, index_eq hle hp hq, index_eq hle hi hk, index_eq hle hr hm,
    index_eq hle hu hw]
  apply assigns_putPair
  · rw [hmirror, conj]
  · rw [hread _ (row_lt (Nat.mul_le_mul_right W hr) hm), hre]
  · rw [hread _ (row_lt (Nat.mul_le_mul_right W hu) hw), him]
  · rw [hread _ (row_lt (Nat.mul_le_mul_right W hu) hw), him, hmirror, conj]
    rfl

include hn hX

/-- A whole column is assigned. -/
theorem h2cColumn_assigns [NeZero (2 : R)] {m col : ℕ}
    (hm : m = 0 ∧ col = 0 ∨ m = 1 ∧ col = W / 2) :
    Assigns (fun _ => True) parts (fun out => h2cColumn H W data out col m)
      (fun s => ∃ i < H, s.2 = i * W + col) (parts X) := by
  have hpos := hn.pos0
  have heven := hn.even0
  have hhalf := hn.half_pos
  have hcol : col < W := by omega
  have hlt : m < W := by omega
  have hcell : ∀ r, held X H W (r * W + m) = columnCell (fun i => X (i * W + col)) H r :=
    fun r => held_column (by omega) hm
  have hmirror : ∀ i < H, X ((H - i) % H * W + col) = conj (X (i * W + col)) := fun i hi =>
    hermitian_column hX hn.pos1 hn.even1 (by omega) hi
  -- the first and the middle entry are their own mirror images
  have hfirst : (X (0 * W + col)).im = 0 := im_eq_zero_of_conj (by
    simpa using hmirror 0 hpos)
  have hmiddle : (X (H / 2 * W + col)).im = 0 := im_eq_zero_of_conj (by
    have h := hmirror (H / 2) (by omega)
    rwa [Nat.mod_eq_of_lt (by omega), show H - H / 2 = H / 2 by omega] at h)
  have hloop := Assigns.forFromM fun i (h0 : 1 ≤ i) (hi : i < H / 2) =>
    putMirrored_assigns (p := H - i) (q := col) (i := i) (k := col) (r := 2 * i) (m := m)
      (u := 2 * i + 1) (w := m) hle hread (by omega) hcol (by omega) hcol (by omega) hlt
      (by omega) hlt (by
        have h := hmirror i (by omega)
        rwa [Nat.mod_eq_of_lt (by omega)] at h)
      (by rw [hcell, columnCell_even]) (by rw [hcell, columnCell_odd _ _ h0])
  have hall := (putReal_assigns (i := 0) (k := col) (r := 0) (m := m) hle hread hpos hcol hpos hlt
      (by rw [hcell, columnCell_zero]) hfirst).bind
    ((putReal_assigns (i := H / 2) (k := col) (r := 1) (m := m) hle hread (by omega) hcol
      (by omega) hlt (by rw [hcell, columnCell_one]) hmiddle).bind hloop)
  refine hall.mono fun s hs => ?_
  obtain ⟨i, hi, heq⟩ := hs
  rcases Nat.eq_zero_or_pos i with rfl | h0
  · exact Or.inl heq
  · right
    rcases Nat.lt_trichotomy i (H / 2) with h | rfl | h
    · exact Or.inr ⟨i, h0, h, Or.inl heq⟩
    · exact Or.inl heq
    · refine Or.inr ⟨H - i, by omega, by omega, Or.inr ?_⟩
      rw [Nat.sub_sub_self hi.le]
      exact heq

/-- The columns other than `0` and `W/2` of a row and of its mirror image. -/
theorem putRow_assigns {r p : ℕ} (hr : r < H) (hp : p = (H - r) % H) :
    Assigns (fun _ => True) parts
      (forFromM 1 (W / 2) fun j out =>
        putMirrored W data out (p, W - j) (r, j) (r, 2 * j) (r, 2 * j + 1))
      (fun s => ∃ k, 1 ≤ k ∧ k < W / 2 ∧ (s.2 = r * W + k ∨ s.2 = p * W + (W - k))) (parts X) := by
  have hlt : p < H := hp ▸ Nat.mod_lt _ hn.pos0
  exact Assigns.forFromM fun j h0 hj =>
    putMirrored_assigns hle hread hlt (by omega) hr (by omega) hr (by omega) hr (by omega) (by
        have h := hermitian_2d hX hr (by omega : j < W)
        rwa [← hp, Nat.mod_eq_of_lt (by omega : W - j < W)] at h)
      (held_re h0 hj) (held_im h0 hj)

/-- Both parts of every entry are assigned. -/
theorem h2cRank2_assigns [NeZero (2 : R)] :
    Assigns (fun _ => True) parts (h2cRank2 H W data) (fun s => s.2 < H * W) (parts X) := by
  have heven := hn.even1
  have hrows := Assigns.forFromM fun i (h0 : 1 ≤ i) (hi : i < H) =>
    putRow_assigns (p := H - i) hn hle hX hread hi (Nat.mod_eq_of_lt (by omega)).symm
  have hfirst := putRow_assigns (r := 0) (p := 0) hn hle hX hread hn.pos0 (by simp)
  refine ((h2cColumn_assigns hn hle hX hread (Or.inl ⟨rfl, rfl⟩)).bind <|
    (h2cColumn_assigns hn hle hX hread (Or.inr ⟨rfl, rfl⟩)).bind <|
    hrows.bind hfirst).mono fun s hs => ?_
  obtain ⟨i, hi, k, hk, heq⟩ := exists_row hs
  rcases Nat.eq_zero_or_pos k with rfl | hk0
  · exact Or.inl ⟨i, hi, heq⟩
  rcases Nat.lt_trichotomy k (W / 2) with h | rfl | h
  · rcases Nat.eq_zero_or_pos i with rfl | h0
    · exact Or.inr (Or.inr (Or.inr ⟨k, hk0, h, Or.inl heq⟩))
    · exact Or.inr (Or.inr (Or.inl ⟨i, h0, hi, k, hk0, h, Or.inl heq⟩))
  · exact Or.inr (Or.inl ⟨i, hi, heq⟩)
  · -- the entry is assigned with its mirror image
    rw [← Nat.sub_sub_self hk.le] at heq
    rcases Nat.eq_zero_or_pos i with rfl | h0
    · exact Or.inr (Or.inr (Or.inr ⟨W - k, by omega, by omega, Or.inr heq⟩))
    · rw [← Nat.sub_sub_self hi.le] at heq
      exact Or.inr (Or.inr (Or.inl ⟨H - i, by omega, by omega, W - k, by omega, by omega,
        Or.inr heq⟩))

end Reading

/-- **Apple's two-dimensional real layout round-trips.**  Whatever the buffer held, `copy_c2h`
writes every cell of the array from `X`, each of them once; whatever `Y` held, `copy_h2c` then makes
it `X`. -/
theorem vbigdsp_round_trip [Field R] [NeZero (2 : R)] {p : Problem} (hp : RealPow2 p 2)
    {X : ℕ → BenchComplex R} (hX : Hermitian p.dims X) :
    ∃ c : ℕ → R, ∀ data : Buf R, p.size.toNat ≤ data.size →
      ∃ data', copyC2h p data X = .ok data' ∧ (∀ l < p.dims.prod, data'.cell l = c l) ∧
        (∃ log, c2hRank2 Logged.write (p.dims.getD 0 0) (p.dims.getD 1 0) X ⟨data, []⟩
            = .ok ⟨data', log⟩ ∧ log.Perm (List.range p.dims.prod)) ∧
        ∀ Y₀, ∃ Y, copyH2c p data' Y₀ = .ok Y ∧ ∀ k < p.dims.prod, Y k = X k := by
  obtain ⟨H, W, hdims, hprod, hn⟩ := hp.exists_dims2
  have hle := hprod ▸ hp.prod_le
  have hrank : p.rank ≠ 1 := by
    rw [hp.rank_eq]
    decide
  simp only [hdims, List.getD_cons_zero, List.getD_cons_succ] at hX ⊢
  rw [hdims] at hprod
  rw [hprod, hp.size, hdims, hprod]
  refine ⟨held X H W, fun data hdata => ?_⟩
  obtain ⟨⟨data', log⟩, hrun, hsize, hall⟩ :=
    c2hRank2_assigns (X := X) hn hle hdata ⟨data, []⟩ rfl
  have hcells : ∀ l < H * W, l ∈ log ∧ data'.cell l = held X H W l := fun l hl =>
    Logged.get_eq_some (hall.on l hl)
  have hlogs := c2hRank2_logs X hn
  have hread : ∀ l < H * W, data'.read l = .ok (held X H W l) := by
    intro l hl
    have hsize' : data'.size = data.size := hsize
    rw [Buf.read_ok (by omega), (hcells l hl).2]
  refine ⟨data', ?_, fun l hl => (hcells l hl).2, ⟨log, hrun, ?_⟩, fun Y₀ => ?_⟩
  · simp only [copyC2h, if_neg hrank, hdims, List.getD_cons_zero, List.getD_cons_succ]
    exact hlogs.buf_ok hrun
  · exact hlogs.perm_range hrun fun k hk => (hcells k hk).1
  · obtain ⟨Y, hrun', -, hY⟩ := h2cRank2_assigns hn hle hX hread Y₀ trivial
    refine ⟨Y, ?_, fun k hk => ext_parts fun q => hY.on (q, k) hk⟩
    simpa only [copyH2c, if_neg hrank, hdims, List.getD_cons_zero, List.getD_cons_succ] using hrun'

theorem vbigdsp_round_trip_r8x16 : ∃ c : ℕ → ℚ, ∀ data : Buf ℚ, r8x16.size.toNat ≤ data.size →
    ∃ data', copyC2h r8x16 data hermitian8x16 = .ok data' ∧
      (∀ l < r8x16.dims.prod, data'.cell l = c l) ∧
      (∃ log, c2hRank2 Logged.write (r8x16.dims.getD 0 0) (r8x16.dims.getD 1 0) hermitian8x16
          ⟨data, []⟩ = .ok ⟨data', log⟩ ∧ log.Perm (List.range r8x16.dims.prod)) ∧
      ∀ Y₀, ∃ Y, copyH2c r8x16 data' Y₀ = .ok Y ∧ ∀ k < r8x16.dims.prod, Y k = hermitian8x16 k :=
  vbigdsp_round_trip realPow2_r8x16 hermitian_r8x16

end BenchFFT.Vbigdsp
