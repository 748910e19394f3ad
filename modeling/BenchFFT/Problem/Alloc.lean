import BenchFFT.Problem.Copy1d

/-!
# Allocating the I/O buffers (`allocate.c`, `zero.c`)

`size_t` has 64 bits.  What `problem_alloc` asks `bench_malloc` for is a number of bytes; a buffer
of `b` bytes has room for `b / size` cells of `size` bytes each.
-/

namespace BenchFFT

/-- What `problem_alloc` stores: `phys_size`, the bytes of the blocks that `in` and `out` point to,
and whether they are one block. -/
structure Allocated where
  physSize : UInt32
  inBytes : ℕ
  outBytes : ℕ
  sameBlock : Bool

/-- `sizeof(bench_real)` is `sizeofReal`, and `sizeof(bench_complex)` twice that. -/
def problemAlloc (sizeofReal : UInt64) (p : Problem) : Allocated :=
  match p.kind with
  | .complex =>
    let s : UInt64 := (p.size * p.vsize).toUInt64
    { physSize := s.toUInt32
      inBytes := (s * (2 * sizeofReal)).toNat
      outBytes := (s * (2 * sizeofReal)).toNat
      sameBlock := p.inPlace }
  | .real =>
    let s : UInt64 := p.n.foldl (fun s n => s * (n + 2).toUInt64) p.vsize.toUInt64
    { physSize := s.toUInt32
      inBytes := (s * sizeofReal).toNat
      outBytes := (s * sizeofReal).toNat
      sameBlock := p.inPlace }

/-- The cells of a block of `bytes` bytes seen as `bench_real *`. -/
def realCells (sizeofReal : UInt64) (bytes : ℕ) : ℕ := bytes / sizeofReal.toNat

/-- The cells of a block of `bytes` bytes seen as `bench_complex *`. -/
def complexCells (sizeofReal : UInt64) (bytes : ℕ) : ℕ := bytes / (2 * sizeofReal.toNat)

/-- `problem_zero`, on buffers of either kind of cell. -/
def problemZero {α : Type*} (zero : α) (physSize : UInt32) (inp out : Buf α) :
    Except Abort (Buf α × Buf α) := do
  let out ← aset out physSize.toNat zero
  let inp ← aset inp physSize.toNat zero
  return (inp, out)

end BenchFFT
