import BenchFFT.Problem.Buffer

/-!
# The debugging allocator (`util.c`, with `BENCH_DEBUG`)

`bench_malloc` puts two words in front of each block, its size and `MAGIC`, and makes it twice as
long as it was asked for; the second half is checked when the block is freed.  The variables of the
allocator and the chunks that `malloc` has handed out are a state.  A `size_t` has 64 bits, and an
`int` wraps around.
-/

namespace BenchFFT.Malloc

def magic : UInt64 := 0xABadCafe

def padFactor : UInt64 := 2

def twoSizeT : UInt64 := 16

/-- `(char) (i ^ 0xDEADBEEF)`. -/
def padByte (i : ℕ) : UInt8 := (UInt64.ofNat i ^^^ 0xDEADBEEF).toUInt8

/-- `(char) (i ^ 0xBEEFDEAD)`. -/
def freedByte (i : ℕ) : UInt8 := (UInt64.ofNat i ^^^ 0xBEEFDEAD).toUInt8

/-- What `malloc` has handed out, with `((size_t *) p)[0]`, `((size_t *) p)[1]` and the bytes from
`p + TWO_SIZE_T` on. -/
structure Chunk where
  size : UInt64
  magic : UInt64
  bytes : Buf UInt8

/-- `bench_malloc_total`, `bench_malloc_max`, `bench_malloc_cnt` and `bench_malloc_cnt_max`, and the
chunks by their addresses. -/
structure State where
  total : Int32
  max : Int32
  cnt : Int32
  cntMax : Int32
  heap : UInt64 → Option Chunk

def initial : State := ⟨0, 0, 0, 0, fun _ => none⟩

/-- The chunk at the address `q`. -/
def State.chunk (s : State) (q : UInt64) : Except Abort Chunk :=
  (s.heap q).elim (.error .outOfBounds) .ok

def State.setChunk (s : State) (q : UInt64) (c : Option Chunk) : State :=
  { s with heap := Function.update s.heap q c }

/-- What `malloc` returns: an address, and what the bytes there are. -/
structure Fresh where
  addr : UInt64
  bytes : ℕ → UInt8

/-- The result is the block. -/
def benchMalloc (n : UInt64) (fresh : Fresh) (s : State) : Except Abort (UInt64 × State) := do
  -- the sum is computed as a `size_t`
  let total := (s.total.toInt64.toUInt64 + n).toInt64.toInt32
  let max := if total > s.max then total else s.max
  let room := (padFactor * n + twoSizeT).toNat - twoSizeT.toNat
  benchAssert (fresh.addr ≠ 0)
  let bytes ← forRangeM (padFactor * n).toNat (fun i (bytes : Buf UInt8) =>
    bytes.write i (padByte i)) ⟨room, fresh.bytes⟩
  let cnt := s.cnt + 1
  let cntMax := if cnt > s.cntMax then cnt else s.cntMax
  let s := { s with total := total, max := max, cnt := cnt, cntMax := cntMax }
  return (fresh.addr + twoSizeT, s.setChunk fresh.addr (some ⟨n, magic, bytes⟩))

def benchFree (p : UInt64) (s : State) : Except Abort State := do
  benchAssert (p ≠ 0)
  let q := p - twoSizeT
  benchAssert (q ≠ 0)
  let c ← s.chunk q
  let n := c.size
  -- set to zero to detect duplicate free's
  let s := s.setChunk q (some { c with size := 0 })
  benchAssert (c.magic = magic)
  let s := s.setChunk q (some { c with size := 0, magic := ~~~magic })
  let total := (s.total.toInt64.toUInt64 - n).toInt64.toInt32
  benchAssert (total ≥ 0)
  -- check for writing past end of array
  forFromM n.toNat (padFactor * n).toNat (fun i _ => do
    let b ← c.bytes.read i
    if b ≠ padByte i then benchAssert False) PUnit.unit
  let bytes ← forRangeM (padFactor * n).toNat (fun i (bytes : Buf UInt8) =>
    bytes.write i (freedByte i)) c.bytes
  let s := s.setChunk q (some ⟨0, ~~~magic, bytes⟩)
  let cnt := s.cnt - 1
  benchAssert (cnt ≥ 0)
  benchAssert (cnt = 0 ∧ total = 0 ∨ cnt > 0 ∧ total > 0)
  -- `free(q)`
  let s := { s with total := total, cnt := cnt }
  return s.setChunk q none

/-! ### Runs -/

/-- What a program does with its blocks. -/
inductive Event where
  /-- `bench_malloc(n)`, which gets `fresh` from `malloc`. -/
  | malloc (n : UInt64) (fresh : Fresh)
  /-- `bench_free(p)`. -/
  | free (p : UInt64)
  /-- `((char *) p)[i] = b`. -/
  | write (p : UInt64) (i : ℕ) (b : UInt8)

def step (s : State) : Event → Except Abort State
  | .malloc n fresh => Prod.snd <$> benchMalloc n fresh s
  | .free p => benchFree p s
  | .write p i b => do
    let c ← s.chunk (p - twoSizeT)
    return s.setChunk (p - twoSizeT) (some { c with bytes := ← c.bytes.write i b })

end BenchFFT.Malloc
