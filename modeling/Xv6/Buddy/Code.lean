import Xv6.Lib.Bytes
import Xv6.Lib.Dlist

/-!
# The buddy allocator

`kernel/buddy.c` on the lists of `kernel/list.c`. Each call holds the allocator's lock from its
first access to its last, so that a call is one step.

* Addresses and `long` values are integers. An `int` wraps (`toInt`): `blkIndex` and `addr` go
  through an `int` offset.
* `alloc k` and `split k` are the `char` arrays `bd_sizes[k].alloc` and `bd_sizes[k].split`, one bit
  for each block of class `k`.
* `Ptr.head k` is `&bd_sizes[k].free`; `Ptr.blk a` is the `struct list` that a free block at `a`
  begins with.
* A call may end in a `Fault`: a panic, a loop that never ends, an access to `bd_sizes` past its last
  entry, or a list head taken for a block.

`bd_init` and the functions it calls, and the functions that print, are left out.
-/

namespace Xv6.Buddy

open Function Bytes Dlist

def leafSize : ℕ := 16

def blkSize (k : ℕ) : ℕ := 2 ^ k * leafSize

def toInt (n : ℤ) : ℤ := n.bmod (2 ^ 32)

inductive Ptr where
  | head (k : ℕ)
  | blk (a : ℤ)
  deriving DecidableEq

inductive Fault where
  | panic (msg : String)
  | hang
  | range (k : ℕ)
  | head (k : ℕ)
  deriving DecidableEq

structure Heap where
  nsizes : ℕ
  bdBase : ℤ
  alloc : ℕ → ℤ → UInt8
  split : ℕ → ℤ → UInt8
  links : Links Ptr

def Heap.maxsize (s : Heap) : ℕ := s.nsizes - 1

/-! ## Bits -/

/-- The mask `1 << (index % 8)`. -/
def bitMask (index : ℤ) : UInt8 := mask (index.tmod 8).toNat

def bitIsset (array : ℤ → UInt8) (index : ℤ) : Bool :=
  array (index.tdiv 8) &&& bitMask index == bitMask index

def bitSet (array : ℤ → UInt8) (index : ℤ) : ℤ → UInt8 :=
  update array (index.tdiv 8) (array (index.tdiv 8) ||| bitMask index)

def bitClear (array : ℤ → UInt8) (index : ℤ) : ℤ → UInt8 :=
  update array (index.tdiv 8) (array (index.tdiv 8) &&& ~~~bitMask index)

namespace Heap

variable (s : Heap)

def allocSet (k : ℕ) (bi : ℤ) : Heap :=
  { s with alloc := update s.alloc k (bitSet (s.alloc k) bi) }

def allocClear (k : ℕ) (bi : ℤ) : Heap :=
  { s with alloc := update s.alloc k (bitClear (s.alloc k) bi) }

def splitSet (k : ℕ) (bi : ℤ) : Heap :=
  { s with split := update s.split k (bitSet (s.split k) bi) }

def splitClear (k : ℕ) (bi : ℤ) : Heap :=
  { s with split := update s.split k (bitClear (s.split k) bi) }

/-! ## Free lists -/

def lstEmpty (k : ℕ) : Bool := s.links.next (.head k) == .head k

def lstRemove (e : Ptr) : Heap := { s with links := s.links.remove e }

def lstPop (k : ℕ) : Except Fault (ℤ × Heap) :=
  if s.links.next (.head k) = .head k then .error (.panic "lst_pop")
  else
    match s.links.next (.head k) with
    | .blk p => .ok (p, s.lstRemove (.blk p))
    | .head j => .error (.head j)

def lstPush (k : ℕ) (p : ℤ) : Heap := { s with links := s.links.push (.head k) (.blk p) }

/-! ## Blocks -/

/-- The index of the block of class `k` that `p` lies in. -/
def blkIndex (k : ℕ) (p : ℤ) : ℤ :=
  let n := toInt (p - s.bdBase)
  toInt (n.tdiv (blkSize k))

def addr (k : ℕ) (bi : ℤ) : ℤ :=
  let n := toInt (bi * blkSize k)
  s.bdBase + n

end Heap

/-- The loop of `firstk`. From class `60` on the size is `0`, so that a loop which has not ended by
then never ends. -/
def firstkLoop (n : UInt64) : ℕ → ℕ → UInt64 → Except Fault ℕ
  | 0, _, _ => .error .hang
  | turns + 1, k, size => if size < n then firstkLoop n turns (k + 1) (size * 2) else .ok k

def firstk (n : UInt64) : Except Fault ℕ := firstkLoop n 61 0 (.ofNat leafSize)

namespace Heap

def findFree (s : Heap) (fk : ℕ) : Option ℕ :=
  (List.range' fk (s.nsizes - fk)).find? fun k => !s.lstEmpty k

/-- One turn of the second loop of `bd_malloc`, on a block of class `k + 1`. -/
def splitBlk (s : Heap) (p : ℤ) (k : ℕ) : Heap :=
  let q := p + blkSize k
  let s := s.splitSet (k + 1) (s.blkIndex (k + 1) p)
  let s := s.allocSet k (s.blkIndex k p)
  s.lstPush k q

/-- The second loop of `bd_malloc`, from class `k` down to `fk`. -/
def splitDown (p : ℤ) (fk : ℕ) : ℕ → Heap → Heap
  | 0, s => s
  | k + 1, s => if fk < k + 1 then splitDown p fk k (s.splitBlk p k) else s

/-- `bd_malloc`; `none` is the null pointer. -/
def bdMalloc (s : Heap) (nbytes : UInt64) : Except Fault (Option ℤ × Heap) := do
  let fk ← firstk nbytes
  match s.findFree fk with
  | none => return (none, s)
  | some k =>
    let (p, s) ← s.lstPop k
    let s := s.allocSet k (s.blkIndex k p)
    return (some p, splitDown p fk k s)

/-- The class of the block at `p`. The loop's last turn would read `bd_sizes[nsizes]`. -/
def size (s : Heap) (p : ℤ) : Except Fault ℕ :=
  match (List.range s.maxsize).find? fun k => bitIsset (s.split (k + 1)) (s.blkIndex (k + 1) p) with
  | some k => .ok k
  | none => if s.nsizes = 0 then .ok 0 else .error (.range s.nsizes)

/-- The loop of `bd_free`, with the number of classes left below `MAXSIZE`. -/
def freeLoop : ℕ → ℕ → ℤ → Heap → ℕ × ℤ × Heap
  | 0, k, p, s => (k, p, s)
  | left + 1, k, p, s =>
    let bi := s.blkIndex k p
    let buddy := if bi.tmod 2 = 0 then bi + 1 else bi - 1
    let s := s.allocClear k bi
    if bitIsset (s.alloc k) buddy then (k, p, s)
    else
      let q := s.addr k buddy
      let s := s.lstRemove (.blk q)
      let p := if buddy.tmod 2 = 0 then q else p
      freeLoop left (k + 1) p (s.splitClear (k + 1) (s.blkIndex (k + 1) p))

def bdFree (s : Heap) (p : ℤ) : Except Fault Heap := do
  let k ← s.size p
  let (k, p, s) := freeLoop (s.maxsize - k) k p s
  return s.lstPush k p

end Heap

end Xv6.Buddy
