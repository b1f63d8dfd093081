import Xv6.Fs.Code

/-!
# Reading and writing open files

The branches for inodes of `fileread`, `filewrite` and `fileclose` in `kernel/file.c`. The offset `f->off`
is passed along. `f->readable` and `f->writable` are set.
-/

namespace Xv6.Fs

open Icache (Ip)

/-- `max` of `filewrite`: a few blocks at a time, to avoid exceeding the maximum log transaction size,
including i-node, indirect block, allocation blocks, and 2 blocks of slop for non-aligned writes. -/
def maxWrite : ℕ := (maxOpBlocks - 1 - 1 - 2) / 2 * bsize

section Code

variable (sb : Superblock) (e : Ip) (mem : UserMem)

/-- `f->off += r`, if `r > 0`. -/
def advance (off : UInt32) (r : ℤ) : UInt32 := if r > 0 then off + UInt32.ofNat r.toNat else off

/-- Read from file: the result, the offset afterwards and the bytes copied out. -/
def fileread (va : ℕ) (n : ℤ) (off : UInt32) : FsProg (ℤ × UInt32 × List UInt8) := do
  ilock sb e
  let (r, out) ← readi sb e (.user mem va) off (UInt32.ofInt n)
  iunlock e
  pure (r, advance off r, out)

/-- One turn of the loop of `filewrite`: the result of `writei`, and the offset afterwards. -/
def writeSection (va n1 : ℕ) (off : UInt32) : FsProg (ℤ × UInt32) := do
  beginOp
  ilock sb e
  let r ← writei sb e (.user mem va) off (UInt32.ofNat n1)
  iunlock e
  endOp
  pure (r, advance off r)

/-- The loop of `filewrite`: the final `i`, and the offset. Each turn that does not end the loop advances
by at least one byte. -/
def filewriteLoop (va n : ℕ) : ℕ → ℕ → UInt32 → FsProg (ℕ × UInt32)
  | 0, i, off => pure (i, off)
  | fuel + 1, i, off =>
    if i < n then do
      let n1 := min (n - i) maxWrite
      -- `addr + i` is a `uint64`
      let (r, off) ← writeSection sb e mem ((va + i) % 2 ^ 64) n1 off
      if r < 0 then pure (i, off)
      else if r ≠ n1 then panic
      else filewriteLoop va n fuel (i + r.toNat) off
    else pure (i, off)

/-- Write to file: the result and the offset afterwards. -/
def filewrite (va : ℕ) (n : ℤ) (off : UInt32) : FsProg (ℤ × UInt32) := do
  let (i, off) ← filewriteLoop sb e mem va n.toNat n.toNat 0 off
  pure (if i = n then n else -1, off)

/-- Close file, when the last reference to it is dropped. -/
def fileclose : FsProg Unit := do
  beginOp
  iput sb e
  endOp

end Code

end Xv6.Fs
