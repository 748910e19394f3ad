import BenchFFT.Util.Malloc
import Mathlib.Algebra.BigOperators.Group.List.Basic
import Mathlib.Algebra.GroupWithZero.Nat
import Mathlib.Data.List.Nodup
import Mathlib.Data.List.Perm.Subperm

/-!
# The bookkeeping of the debugging allocator

What a program may do is stated on the ledger of its live blocks (`Allowed`): it frees live blocks
only, writes inside them only, and has less than `2 ^ 31` bytes in them.  The allocator keeps
`Inv`: its counters are those of the ledger, and each live block still has its size, `MAGIC` and the
padding after it.

The last assertion of `bench_free` takes it that live blocks have bytes.  It fails where all the
blocks that are left are empty, and only there (`noAlarm_iff`).
-/

namespace BenchFFT.Malloc

/-! ### The ledger -/

/-- The live blocks with their sizes. -/
abbrev Ledger := List (UInt64 × UInt64)

namespace Ledger

/-- The size of the live blocks. -/
def bytes (live : Ledger) : ℕ := (live.map fun b => b.2.toNat).sum

def after (live : Ledger) : Event → Ledger
  | .malloc n fresh => (fresh.addr + twoSizeT, n) :: live
  | .free p => live.eraseP fun b => b.1 = p
  | .write _ _ _ => live

@[simp] theorem bytes_nil : bytes [] = 0 := rfl

@[simp] theorem bytes_cons (b : UInt64 × UInt64) (live : Ledger) :
    bytes (b :: live) = b.2.toNat + bytes live := List.sum_cons

theorem bytes_perm {live live' : Ledger} (h : live.Perm live') : bytes live = bytes live' :=
  (h.map _).sum_eq

/-- The block that is freed and the other ones. -/
theorem perm_free {live : Ledger} {p : UInt64} (h : p ∈ live.map Prod.fst) :
    ∃ n, live.Perm ((p, n) :: live.after (.free p)) := by
  obtain ⟨b, hb, rfl⟩ := List.mem_map.mp h
  obtain ⟨a, l₁, l₂, -, ha, hlive, herase⟩ :=
    List.exists_of_eraseP (p := fun a : UInt64 × UInt64 => a.1 = b.1) hb (decide_eq_true rfl)
  refine ⟨a.2, ?_⟩
  have ha' : (b.1, a.2) = a := Prod.ext (of_decide_eq_true ha).symm rfl
  rw [after, herase, ha', hlive]
  exact List.perm_middle

end Ledger

/-- What the program and `malloc` keep to.  A chunk does not start at address `0`, it fits into the
address space, and it is none of those that are in use. -/
def Allowed (live : Ledger) : Event → Prop
  | .malloc n fresh => fresh.addr ≠ 0 ∧ fresh.addr.toNat + (2 * n.toNat + 16) < 2 ^ 64 ∧
      fresh.addr + twoSizeT ∉ live.map Prod.fst ∧ live.bytes + n.toNat < 2 ^ 31
  | .free p => p ∈ live.map Prod.fst
  | .write p i _ => ∃ n, (p, n) ∈ live ∧ i < n.toNat

/-- The steps that the bookkeeping is right about: no call frees a block and leaves empty ones only,
and the number of blocks fits into an `int`. -/
def Counted (live : Ledger) : Event → Prop
  | .malloc _ _ => live.length + 1 < 2 ^ 31
  | .free p => live.after (.free p) = [] ∨ 0 < (live.after (.free p)).bytes
  | .write _ _ _ => True

/-- Every step of the run satisfies `P`. -/
def AllSteps (P : Ledger → Event → Prop) : Ledger → List Event → Prop
  | _, [] => True
  | live, e :: es => P live e ∧ AllSteps P (live.after e) es

/-- The counters are the number of the live blocks and the sum of their sizes. -/
structure Counts (s : State) (live : Ledger) : Prop where
  cnt : s.cnt.toInt = live.length
  total : s.total.toInt = live.bytes

/-- No assertion fails, and after each step the counters are right. -/
def NoAlarm : State → Ledger → List Event → Prop
  | _, _, [] => True
  | s, live, e :: es =>
    ∃ s', step s e = .ok s' ∧ Counts s' (live.after e) ∧ NoAlarm s' (live.after e) es

/-! ### Counters -/

theorem toInt_size {n : UInt64} (h : n.toNat < 2 ^ 31) : n.toInt64.toInt32.toInt = n.toNat := by
  have hn : n.toInt64.toInt = n.toNat := BitVec.toInt_eq_toNat_of_lt (by
    rw [UInt64.toBitVec_toInt64, UInt64.toNat_toBitVec]
    omega)
  rw [Int64.toInt_toInt32, hn]
  exact Int.bmod_eq_of_le (by omega) (by omega)

theorem total_add {t : Int32} {n : UInt64} (h0 : 0 ≤ t.toInt) (h : t.toInt + n.toNat < 2 ^ 31) :
    (t.toInt64.toUInt64 + n).toInt64.toInt32.toInt = t.toInt + n.toNat := by
  rw [UInt64.toInt64_add, Int64.toInt64_toUInt64, Int64.toInt32_add, Int32.toInt32_toInt64,
    Int32.toInt_add, toInt_size (by omega)]
  exact Int.bmod_eq_of_le (by omega) (by omega)

theorem total_sub {t : Int32} {n : UInt64} (h : n.toNat ≤ t.toInt) :
    (t.toInt64.toUInt64 - n).toInt64.toInt32.toInt = t.toInt - n.toNat := by
  have hlt := t.toInt_lt
  rw [UInt64.toInt64_sub, Int64.toInt64_toUInt64, Int64.toInt32_sub, Int32.toInt32_toInt64,
    Int32.toInt_sub, toInt_size (by omega)]
  exact Int.bmod_eq_of_le (by omega) (by omega)

theorem cnt_add {c : Int32} (h0 : 0 ≤ c.toInt) (h : c.toInt + 1 < 2 ^ 31) :
    (c + 1).toInt = c.toInt + 1 := by
  rw [Int32.toInt_add, Int32.toInt_one]
  exact Int.bmod_eq_of_le (by omega) (by omega)

theorem cnt_sub {c : Int32} (h : 0 < c.toInt) : (c - 1).toInt = c.toInt - 1 := by
  have hlt := c.toInt_lt
  rw [Int32.toInt_sub, Int32.toInt_one]
  exact Int.bmod_eq_of_le (by omega) (by omega)

/-! ### Blocks -/

/-- A chunk as `bench_malloc` leaves it, but for the bytes of the block. -/
structure Chunk.Holds (c : Chunk) (n : UInt64) : Prop where
  size : c.size = n
  magic : c.magic = Malloc.magic
  room : c.bytes.size = 2 * n.toNat
  pad : ∀ i, n.toNat ≤ i → i < 2 * n.toNat → c.bytes.cell i = padByte i

/-- The block `p` of `n` bytes is live. -/
structure State.Live (s : State) (p n : UInt64) : Prop where
  ne_zero : p ≠ 0
  addr_ne_zero : p - twoSizeT ≠ 0
  chunk : ∃ c, s.heap (p - twoSizeT) = some c ∧ c.Holds n

/-- Where the counters are those of the ledger, and its blocks are live. -/
structure Inv (s : State) (live : Ledger) : Prop extends Counts s live where
  nodup : (live.map Prod.fst).Nodup
  live : ∀ b ∈ live, s.Live b.1 b.2

theorem State.Live.of_heap {s s' : State} {p n : UInt64} (h : s.Live p n)
    (heq : s'.heap (p - twoSizeT) = s.heap (p - twoSizeT)) : s'.Live p n :=
  ⟨h.ne_zero, h.addr_ne_zero, heq ▸ h.chunk⟩

/-! ### The two routines -/

theorem toNat_padFactor_mul {n : UInt64} (hn : n.toNat < 2 ^ 31) :
    (padFactor * n).toNat = 2 * n.toNat := by
  rw [UInt64.toNat_mul, show padFactor.toNat = 2 from rfl]
  exact Nat.mod_eq_of_lt (by omega)

theorem fill_ok (b : Buf UInt8) (f : ℕ → UInt8) :
    ∃ b', forRangeM b.size (fun i (b : Buf UInt8) => b.write i (f i)) b = .ok b' ∧
      b'.size = b.size ∧ ∀ i < b.size, b'.cell i = f i := by
  refine ⟨_, Buf.Runs.forRangeM (fun i hi => Buf.Runs.write hi (f i)) b rfl, rfl, fun i hi => ?_⟩
  exact (forRange_update_apply b.size (fun i _ => f i) b.cell i).trans (if_pos hi)

theorem benchMalloc_ok {n : UInt64} {fresh : Fresh} (s : State) (h0 : fresh.addr ≠ 0)
    (hn : n.toNat < 2 ^ 31) :
    ∃ max cntMax c, c.Holds n ∧ benchMalloc n fresh s = .ok (fresh.addr + twoSizeT,
      { total := (s.total.toInt64.toUInt64 + n).toInt64.toInt32
        max := max
        cnt := s.cnt + 1
        cntMax := cntMax
        heap := Function.update s.heap fresh.addr (some c) }) := by
  have hroom : (padFactor * n + twoSizeT).toNat - twoSizeT.toNat = 2 * n.toNat := by
    rw [UInt64.toNat_add, toNat_padFactor_mul hn, show twoSizeT.toNat = 16 from rfl,
      Nat.mod_eq_of_lt (by omega), Nat.add_sub_cancel]
  obtain ⟨b, hfill, hsize, hcell⟩ := fill_ok ⟨2 * n.toNat, fresh.bytes⟩ padByte
  let total := (s.total.toInt64.toUInt64 + n).toInt64.toInt32
  refine ⟨if total > s.max then total else s.max,
    if s.cnt + 1 > s.cntMax then s.cnt + 1 else s.cntMax, ⟨n, magic, b⟩,
    ⟨rfl, rfl, hsize, fun i _ hi => hcell i hi⟩, ?_⟩
  rw [benchMalloc, hroom, toNat_padFactor_mul hn, bind_ok (benchAssert_ok h0), bind_ok hfill]
  rfl

/-- The padding of a live block passes the check. -/
theorem padding_ok {b : Buf UInt8} {n : ℕ} (hroom : b.size = 2 * n)
    (hpad : ∀ i, n ≤ i → i < 2 * n → b.cell i = padByte i) :
    forFromM n (2 * n) (fun i _ => do
      let b ← b.read i
      if b ≠ padByte i then benchAssert False) PUnit.unit = .ok PUnit.unit := by
  refine forRangeM_ok (g := fun _ _ => PUnit.unit) (fun i hi _ => ?_) PUnit.unit
  dsimp only
  rw [bind_ok (Buf.read_ok (by omega)), hpad (n + i) (by omega) (by omega)]
  exact if_neg (not_not.mpr rfl)

/-- The state that `bench_free` leaves when it frees the block `p` of `n` bytes. -/
def State.freed (s : State) (p n : UInt64) : State :=
  { s with
    total := (s.total.toInt64.toUInt64 - n).toInt64.toInt32
    cnt := s.cnt - 1
    heap := Function.update s.heap (p - twoSizeT) none }

/-- Only the last assertion can fail when a live block is freed. -/
theorem benchFree_eq {s : State} {p n : UInt64} (h : s.Live p n) (hn : n.toNat < 2 ^ 31)
    (htotal : n.toNat ≤ s.total.toInt) (hcnt : 0 < s.cnt.toInt) :
    benchFree p s = do
      let s' := s.freed p n
      benchAssert (s'.cnt = 0 ∧ s'.total = 0 ∨ s'.cnt > 0 ∧ s'.total > 0)
      return s' := by
  obtain ⟨c, hc, rfl, hmagic, hroom, hpad⟩ := h.chunk
  have htotal' : (s.total.toInt64.toUInt64 - c.size).toInt64.toInt32 ≥ 0 := by
    rw [ge_iff_le, Int32.le_iff_toInt_le, total_sub htotal, Int32.toInt_zero]
    omega
  have hcnt' : s.cnt - 1 ≥ 0 := by
    rw [ge_iff_le, Int32.le_iff_toInt_le, cnt_sub hcnt, Int32.toInt_zero]
    omega
  obtain ⟨b, hfill, -, -⟩ := fill_ok c.bytes freedByte
  rw [hroom] at hfill
  rw [benchFree, bind_ok (benchAssert_ok h.ne_zero)]
  refine (bind_ok (benchAssert_ok h.addr_ne_zero) _).trans ?_
  rw [State.chunk, hc]
  refine (bind_ok rfl _).trans ((bind_ok (benchAssert_ok hmagic) _).trans ?_)
  refine (bind_ok (benchAssert_ok htotal') _).trans ?_
  rw [toNat_padFactor_mul hn, bind_ok (padding_ok hroom hpad), bind_ok hfill]
  refine (bind_ok (benchAssert_ok hcnt') _).trans ?_
  simp only [State.setChunk, Function.update_idem]
  rfl

/-! ### Steps -/

variable {s : State} {live : Ledger}

/-- The last assertion of `bench_free`, where the counters are right. -/
theorem Counts.assert_iff (h : Counts s live) :
    (s.cnt = 0 ∧ s.total = 0 ∨ s.cnt > 0 ∧ s.total > 0) ↔ live = [] ∨ 0 < live.bytes := by
  have hcnt := h.cnt
  have htotal := h.total
  simp only [gt_iff_lt, Int32.lt_iff_toInt_lt, ← Int32.toInt_inj, Int32.toInt_zero, hcnt, htotal]
  rcases live with - | ⟨b, live⟩
  · simp
  · simp
    omega

/-- What happens at one address leaves the other blocks alone. -/
theorem Inv.live_update {s' : State} {p : UInt64} {c : Option Chunk} (hs : Inv s live)
    (hheap : s'.heap = Function.update s.heap (p - twoSizeT) c) {b : UInt64 × UInt64}
    (hb : b ∈ live) (hne : b.1 ≠ p) : s'.Live b.1 b.2 := by
  refine (hs.live b hb).of_heap ?_
  rw [hheap]
  exact Function.update_of_ne (fun heq => hne ((UInt64.sub_left_inj _).mp heq)) _ _

theorem Inv.of_write {p : UInt64} {i : ℕ} {b : UInt8} (hs : Inv s live)
    (ha : Allowed live (.write p i b)) :
    ∃ s', step s (.write p i b) = .ok s' ∧ Inv s' live := by
  obtain ⟨n, hmem, hi⟩ := ha
  obtain ⟨hp, hq, c, hc, hsize, hmagic, hroom, hpad⟩ := hs.live _ hmem
  dsimp only at hc hsize hroom hpad
  refine ⟨s.setChunk (p - twoSizeT) (some { c with bytes := c.bytes.lift (Function.update · i b) }),
    ?_, ⟨⟨hs.cnt, hs.total⟩, hs.nodup, fun a hmem' => ?_⟩⟩
  · rw [step, State.chunk, hc]
    refine (bind_ok rfl _).trans ?_
    exact bind_ok (Buf.write_ok (by omega) b) _
  · by_cases hne : a.1 = p
    · obtain rfl := List.inj_on_of_nodup_map hs.nodup hmem' hmem hne
      dsimp only
      refine ⟨hp, hq, _, Function.update_self .., hsize, hmagic, hroom, fun k hk hk' => ?_⟩
      exact (Function.update_of_ne (by omega) _ _).trans (hpad k hk hk')
    · exact hs.live_update rfl hmem' hne

/-- The counters after `bench_malloc`, as long as the number of blocks is an `int`. -/
theorem Inv.of_malloc {n : UInt64} {fresh : Fresh} (hs : Inv s live)
    (ha : Allowed live (.malloc n fresh)) :
    ∃ s', step s (.malloc n fresh) = .ok s' ∧
      (live.length + 1 < 2 ^ 31 → Inv s' (live.after (.malloc n fresh))) := by
  obtain ⟨h0, hroom, hnew, hbytes⟩ := ha
  obtain ⟨max, cntMax, c, hc, hrun⟩ := benchMalloc_ok s h0 (n := n) (by omega)
  have hcnt := hs.cnt
  have htotal := hs.total
  have haddr : fresh.addr + twoSizeT - twoSizeT = fresh.addr := UInt64.add_sub_cancel ..
  refine ⟨_, by rw [step, hrun]; rfl, fun hlen => ⟨⟨?_, ?_⟩, ?_, fun b hb => ?_⟩⟩
  · rw [cnt_add (by omega) (by omega), hcnt]
    rfl
  · rw [total_add (by omega) (by omega), htotal, Ledger.after, Ledger.bytes_cons]
    exact (Int.add_comm _ _).trans (Int.natCast_add _ _).symm
  · exact List.nodup_cons.mpr ⟨hnew, hs.nodup⟩
  · rcases List.mem_cons.mp hb with rfl | hb
    · refine ⟨?_, by rwa [haddr], c, by rw [haddr]; exact Function.update_self .., hc⟩
      have hadd : (fresh.addr + twoSizeT).toNat = fresh.addr.toNat + 16 := by
        rw [UInt64.toNat_add, show twoSizeT.toNat = 16 from rfl]
        exact Nat.mod_eq_of_lt (by omega)
      intro heq
      rw [show fresh.addr + twoSizeT = 0 from heq] at hadd
      exact absurd hadd (Nat.succ_ne_zero _).symm
    · refine hs.live_update (p := fresh.addr + twoSizeT) (by rw [haddr]) hb fun heq => ?_
      exact hnew (List.mem_map.mpr ⟨b, hb, heq⟩)

/-- The state after `bench_free`, but for its last assertion. -/
theorem Inv.of_free {p : UInt64} (hs : Inv s live) (ha : Allowed live (.free p)) :
    ∃ s', Inv s' (live.after (.free p)) ∧ step s (.free p) = do
      benchAssert (s'.cnt = 0 ∧ s'.total = 0 ∨ s'.cnt > 0 ∧ s'.total > 0)
      return s' := by
  obtain ⟨n, hperm⟩ := Ledger.perm_free ha
  generalize live.after (.free p) = rest at hperm
  have hbytes := Ledger.bytes_perm hperm
  have hlen := hperm.length_eq
  have hcnt := hs.cnt
  have htotal := hs.total
  have hlt := s.total.toInt_lt
  rw [Ledger.bytes_cons] at hbytes
  rw [List.length_cons] at hlen
  have hlive := hs.live (p, n) (hperm.mem_iff.mpr (List.mem_cons_self ..))
  have hnodup := (hperm.map Prod.fst).nodup_iff.mp hs.nodup
  obtain ⟨hfree, hrest⟩ := List.nodup_cons.mp hnodup
  dsimp only at hbytes hlive
  refine ⟨s.freed p n, ⟨⟨?_, ?_⟩, hrest, fun b hb => ?_⟩,
    benchFree_eq hlive (by omega) (by omega) (by omega)⟩
  · rw [State.freed, cnt_sub (by omega)]
    omega
  · rw [State.freed, total_sub (by omega)]
    omega
  · refine hs.live_update rfl (hperm.mem_iff.mpr (List.mem_cons_of_mem _ hb)) fun heq => ?_
    exact hfree (List.mem_map.mpr ⟨b, hb, heq⟩)

theorem Inv.step {e : Event} (hs : Inv s live) (ha : Allowed live e) (hc : Counted live e) :
    ∃ s', step s e = .ok s' ∧ Inv s' (live.after e) := by
  match e with
  | .malloc n fresh =>
    obtain ⟨s', hrun, hs'⟩ := hs.of_malloc ha
    exact ⟨s', hrun, hs' hc⟩
  | .free p =>
    obtain ⟨s', hs', hrun⟩ := hs.of_free ha
    exact ⟨s', hrun.trans (bind_ok (benchAssert_ok (hs'.assert_iff.mpr hc)) _), hs'⟩
  | .write p i b => exact hs.of_write ha

theorem Inv.counted {e : Event} {s' : State} (hs : Inv s live) (ha : Allowed live e)
    (hrun : Malloc.step s e = .ok s') (hs' : Counts s' (live.after e)) : Counted live e := by
  match e with
  | .malloc n fresh =>
    have hcnt := hs'.cnt
    have hlt := s'.cnt.toInt_lt
    rw [Ledger.after, List.length_cons] at hcnt
    exact show live.length + 1 < 2 ^ 31 by omega
  | .free p =>
    obtain ⟨s'', hs'', hrun'⟩ := hs.of_free ha
    by_contra hfail
    rw [hrun', benchAssert, if_neg fun h => hfail (hs''.assert_iff.mp h)] at hrun
    exact absurd hrun nofun
  | .write p i b => trivial

theorem Inv.noAlarm_iff_counted {es : List Event} (hs : Inv s live)
    (ha : AllSteps Allowed live es) : NoAlarm s live es ↔ AllSteps Counted live es := by
  induction es generalizing s live with
  | nil => exact Iff.rfl
  | cons e es ih =>
    obtain ⟨hae, haes⟩ := ha
    constructor
    · rintro ⟨s', hrun, hcounts, hrest⟩
      have hc := hs.counted hae hrun hcounts
      obtain ⟨s'', hrun', hs'⟩ := hs.step hae hc
      obtain rfl := Except.ok.inj (hrun.symm.trans hrun')
      exact ⟨hc, (ih hs' haes).mp hrest⟩
    · rintro ⟨hc, hrest⟩
      obtain ⟨s', hrun, hs'⟩ := hs.step hae hc
      exact ⟨s', hrun, hs'.toCounts, (ih hs' haes).mpr hrest⟩

theorem NoAlarm.foldlM_ok {es : List Event} (h : NoAlarm s live es) :
    ∃ s', es.foldlM Malloc.step s = .ok s' := by
  induction es generalizing s live with
  | nil => exact ⟨s, rfl⟩
  | cons e es ih =>
    obtain ⟨s', hrun, -, hrest⟩ := h
    obtain ⟨s'', hs''⟩ := ih hrest
    exact ⟨s'', by rw [List.foldlM_cons, bind_ok hrun, hs'']⟩

theorem inv_initial : Inv initial [] :=
  ⟨⟨rfl, rfl⟩, List.nodup_nil, fun _ hb => absurd hb List.not_mem_nil⟩

/-! ### Main results -/

/-- In a run that keeps to its blocks, the counters are right after each call and no assertion
fails, exactly when no call of `bench_free` leaves empty blocks only and the number of blocks fits
into an `int`. -/
theorem noAlarm_iff {es : List Event} (ha : AllSteps Allowed [] es) :
    NoAlarm initial [] es ↔ AllSteps Counted [] es :=
  inv_initial.noAlarm_iff_counted ha

/-- Blocks of eight bytes and of none. -/
def twoBlocks : List Event :=
  [.malloc 8 ⟨32, fun _ => 0⟩, .malloc 0 ⟨96, fun _ => 0⟩, .write 48 7 1, .free 112, .free 48]

theorem noAlarm_twoBlocks : NoAlarm initial [] twoBlocks :=
  (noAlarm_iff (by simp [twoBlocks, AllSteps, Allowed, Ledger.after, twoSizeT])).mpr
    (by simp [twoBlocks, AllSteps, Counted, Ledger.after, twoSizeT])

/-- Two empty blocks, one of which is freed. -/
def emptyBlocks : List Event :=
  [.malloc 0 ⟨32, fun _ => 0⟩, .malloc 0 ⟨64, fun _ => 0⟩, .free 48]

theorem emptyBlocks_assertFailed :
    AllSteps Allowed [] emptyBlocks ∧ emptyBlocks.foldlM step initial = .error .assertFailed ∧
      ¬NoAlarm initial [] emptyBlocks := by
  have hrun : emptyBlocks.foldlM step initial = .error .assertFailed := rfl
  refine ⟨by simp [emptyBlocks, AllSteps, Allowed, Ledger.after, twoSizeT], hrun, fun h => ?_⟩
  obtain ⟨s, hs⟩ := h.foldlM_ok
  exact absurd (hrun.symm.trans hs) nofun

end BenchFFT.Malloc
