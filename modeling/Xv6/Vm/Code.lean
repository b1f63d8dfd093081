import Xv6.Param
import Xv6.Lib.Bytes

/-!
# Physical memory and page tables

`kernel/kalloc.c`, the part of `kernel/vm.c` that is about user page tables, and the functions of
`kernel/proc.c` that make and free the page table of a process. Physical memory is read and written
through the kernel's direct map, one page at a time; the free list is linked through the free pages.

* `Mem`, `kalloc`, `kfree`: memory and its allocator.
* `walk`, `mappages`, `uvmunmap`, `uvmalloc`, `uvmdealloc`, `freewalk`, `uvmfree`, `uvmcopy`, `uvmclear`:
  page tables. Addresses are 64-bit numbers, and sums are taken modulo `2 ^ 64`.
* `copyout`: copies from the kernel to a user address space.
* `procPagetable`, `procFreepagetable`: the page table of a process.
-/

namespace Xv6.Vm

open Bytes

abbrev phystop : ℕ := 0x80000000 + 128 * 1024 * 1024

/-- The highest page of every address space, for the code that enters and leaves the kernel. -/
abbrev trampolineVa : ℕ := maxva - pgsize

/-- The page of an address space for the saved registers of its process. -/
abbrev trapframeVa : ℕ := trampolineVa - pgsize

/-- What the linker decides: the physical address of the trampoline page, and `end`, the first address
after the kernel. -/
class Image where
  trampoline : ℕ
  kend : ℕ
  trampoline_page : trampoline % pgsize = 0
  trampoline_lt : trampoline < kend
  kernbase_le : 0x80000000 ≤ trampoline
  kend_le : kend ≤ phystop

/-- The panics of these functions and of those that call them. The code runs on where the last three say
that it stops: `deep`: a page table has more than three levels, and `freewalk` goes on; `endless`: the
counter of `loadseg` has wrapped around, and its loop goes on; `nopage`: `uvminit` gets no page and stores
to address `0`. -/
inductive Panic
  | kfree
  | walk
  | remap
  | unmapWalk
  | unmapNotMapped
  | unmapNotLeaf
  | uvmcreate
  | inituvm
  | freewalkLeaf
  | copyWalk
  | copyNotPresent
  | uvmclear
  | loadsegAligned
  | loadsegAddress
  | deep
  | endless
  | nopage
  deriving DecidableEq

abbrev Page : Type := Bytes.Mem pgsize

/-- Physical memory, by the addresses of pages, and `kmem.freelist`. -/
structure Mem where
  page : ℕ → Page
  freelist : ℕ

abbrev pgRoundDown (a : ℕ) : ℕ := a / pgsize * pgsize

abbrev pgRoundUp (sz : ℕ) : ℕ := pgRoundDown ((sz + (pgsize - 1)) % 2 ^ 64)

namespace Mem

def word (m : Mem) (a : ℕ) : ℕ := load (m.page (pgRoundDown a)) (a % pgsize) 8

def setPage (m : Mem) (p : ℕ) (d : Page) : Mem := { m with page := Function.update m.page p d }

def setWord (m : Mem) (a v : ℕ) : Mem :=
  m.setPage (pgRoundDown a) (store (m.page (pgRoundDown a)) (a % pgsize) 8 v)

def fill (m : Mem) (p : ℕ) (c : UInt8) : Mem := m.setPage p fun _ => c

end Mem

abbrev MemM (α : Type) : Type := StateT Mem (Except Panic) α

def readWord (a : ℕ) : MemM ℕ := fun m => .ok (m.word a, m)

def writeWord (a v : ℕ) : MemM Unit := modify (·.setWord a v)

def memset (p : ℕ) (c : UInt8) : MemM Unit := modify (·.fill p c)

/-! ## The allocator -/

section

variable [Image]

/-- Free a page: fill it with junk and put it in front of the free list. -/
def kfree (pa : ℕ) : MemM Unit :=
  if pa % pgsize ≠ 0 ∨ pa < Image.kend ∨ phystop ≤ pa then throw .kfree
  else modify fun m => { (m.fill pa 1).setWord pa m.freelist with freelist := pa }

/-- Take a page from the free list, or return `0`. -/
def kalloc : MemM ℕ := fun m =>
  if m.freelist = 0 then .ok (0, m)
  else .ok (m.freelist, { m.fill m.freelist 5 with freelist := m.word m.freelist })

/-! ## Page tables -/

abbrev pteV : ℕ := 1
abbrev pteR : ℕ := 2
abbrev pteW : ℕ := 4
abbrev pteX : ℕ := 8
abbrev pteU : ℕ := 16

/-- `PA2PTE`: shift a physical address to the right place for a PTE. -/
abbrev pa2pte (pa : ℕ) : ℕ := pa / 2 ^ 12 * 2 ^ 10

abbrev pte2pa (pte : ℕ) : ℕ := pte / 2 ^ 10 * 2 ^ 12

abbrev pteFlags (pte : ℕ) : ℕ := pte % 2 ^ 10

def Has (pte flag : ℕ) : Prop := pte / flag % 2 = 1

instance (pte flag : ℕ) : Decidable (Has pte flag) := inferInstanceAs (Decidable (_ = _))

/-- `PX`: the nine bits of `va` that index the table at a level. -/
def px (level va : ℕ) : ℕ := va / 2 ^ (12 + 9 * level) % 2 ^ 9

/-- `&pagetable[i]`. -/
abbrev slot (pagetable i : ℕ) : ℕ := pagetable + 8 * i

def walkFrom (va : ℕ) (alloc : Bool) : ℕ → ℕ → MemM ℕ
  | 0, pagetable => pure (slot pagetable (px 0 va))
  | level + 1, pagetable => do
    let pte ← readWord (slot pagetable (px (level + 1) va))
    if Has pte pteV then walkFrom va alloc level (pte2pa pte)
    else if alloc = false then pure 0
    else do
      let q ← kalloc
      if q = 0 then pure 0
      else do
        memset q 0
        writeWord (slot pagetable (px (level + 1) va)) (pa2pte q ||| pteV)
        walkFrom va alloc level q

/-- The address of the PTE for `va`; with `alloc`, create the page-table pages it needs. `0` if there is
none. -/
def walk (pagetable va : ℕ) (alloc : Bool) : MemM ℕ :=
  if maxva ≤ va then throw .walk else walkFrom va alloc 2 pagetable

/-- Look up a user page; `0` if it is not mapped. -/
def walkaddr (pagetable va : ℕ) : MemM ℕ :=
  if maxva ≤ va then pure 0
  else do
    let pte ← walk pagetable va false
    if pte = 0 then pure 0
    else do
      let w ← readWord pte
      if ¬ Has w pteV then pure 0
      else if ¬ Has w pteU then pure 0
      else pure (pte2pa w)

/-- How often a loop adds `PGSIZE` to `a` until it is `last`. -/
def turns (a last : ℕ) : ℕ := (last + (2 ^ 64 - a)) % 2 ^ 64 / pgsize

/-- The last page of a range, `PGROUNDDOWN(va + size - 1)`. -/
def lastPage (va size : ℕ) : ℕ := pgRoundDown ((va + size + (2 ^ 64 - 1)) % 2 ^ 64)

def mapPage (pagetable a pa perm : ℕ) : MemM Bool := do
  let pte ← walk pagetable a true
  if pte = 0 then pure false
  else do
    let w ← readWord pte
    if Has w pteV then throw .remap
    else do
      writeWord pte (pa2pte pa ||| perm ||| pteV)
      pure true

/-- The loop of `mappages`, with `n` turns to go after this one. -/
def mapLoop (pagetable perm : ℕ) : ℕ → ℕ → ℕ → MemM Bool
  | 0, a, pa => mapPage pagetable a pa perm
  | n + 1, a, pa => do
    if ← mapPage pagetable a pa perm then
      mapLoop pagetable perm n ((a + pgsize) % 2 ^ 64) ((pa + pgsize) % 2 ^ 64)
    else pure false

/-- Create PTEs for the pages of a range; `false` (`-1`) if `walk` finds no page for a table. -/
def mappages (pagetable va size pa perm : ℕ) : MemM Bool :=
  mapLoop pagetable perm (turns (pgRoundDown va) (lastPage va size)) (pgRoundDown va) pa

def unmapPage (pagetable a : ℕ) (doFree : Bool) : MemM Unit := do
  let pte ← walk pagetable a false
  if pte = 0 then throw .unmapWalk
  else do
    let w ← readWord pte
    if ¬ Has w pteV then throw .unmapNotMapped
    else if pteFlags w = pteV then throw .unmapNotLeaf
    else do
      if doFree then kfree (pte2pa w)
      writeWord pte 0

/-- The loop of `uvmunmap`, with `n` turns to go after this one. -/
def unmapLoop (pagetable : ℕ) (doFree : Bool) : ℕ → ℕ → MemM Unit
  | 0, a => unmapPage pagetable a doFree
  | n + 1, a => do
    unmapPage pagetable a doFree
    unmapLoop pagetable doFree n ((a + pgsize) % 2 ^ 64)

/-- Remove the mappings of a range, which must exist. -/
def uvmunmap (pagetable va size : ℕ) (doFree : Bool) : MemM Unit :=
  unmapLoop pagetable doFree (turns (pgRoundDown va) (lastPage va size)) (pgRoundDown va)

def uvmcreate : MemM ℕ := do
  let pagetable ← kalloc
  if pagetable = 0 then throw .uvmcreate
  else do
    memset pagetable 0
    pure pagetable

/-- Deallocate user pages to bring the size from `oldsz` to `newsz`. -/
def uvmdealloc (pagetable oldsz newsz : ℕ) : MemM ℕ :=
  if oldsz ≤ newsz then pure oldsz
  else do
    let newup := pgRoundUp newsz
    if newup < pgRoundUp oldsz then
      uvmunmap pagetable newup ((oldsz + (2 ^ 64 - newup)) % 2 ^ 64) true
    pure newsz

abbrev userPerm : ℕ := pteW ||| pteX ||| pteR ||| pteU

/-- The loop of `uvmalloc`, with `n` pages to go. It ends at `MAXVA` at the latest, where `walk`
panics, so `a` does not wrap around. -/
def allocLoop (pagetable oldsz : ℕ) : ℕ → ℕ → MemM Bool
  | 0, _ => pure true
  | n + 1, a => do
    let mem ← kalloc
    if mem = 0 then do
      let _ ← uvmdealloc pagetable a oldsz
      pure false
    else do
      memset mem 0
      let mapped ← mappages pagetable a pgsize mem userPerm
      if mapped then allocLoop pagetable oldsz n (a + pgsize)
      else do
        kfree mem
        let _ ← uvmdealloc pagetable a oldsz
        pure false

/-- How many pages from `a` on lie, at least in part, below `sz`. -/
abbrev pagesFrom (a sz : ℕ) : ℕ := (sz - a + (pgsize - 1)) / pgsize

/-- Allocate PTEs and memory to grow a process from `oldsz` to `newsz`; `0` on error. -/
def uvmalloc (pagetable oldsz newsz : ℕ) : MemM ℕ :=
  if newsz < oldsz then pure oldsz
  else do
    let base := pgRoundUp oldsz
    let done ← allocLoop pagetable base (pagesFrom base newsz) base
    if done then pure newsz else pure 0

/-- The loop over the `n` entries of a page-table page from index `i` on. -/
def freeEntries (free : ℕ → MemM Unit) (pagetable : ℕ) : ℕ → ℕ → MemM Unit
  | 0, _ => pure ()
  | n + 1, i => do
    let pte ← readWord (slot pagetable i)
    if Has pte pteV then
      if Has pte pteR ∨ Has pte pteW ∨ Has pte pteX then throw .freewalkLeaf
      else do
        free (pte2pa pte)
        writeWord (slot pagetable i) 0
    freeEntries free pagetable n (i + 1)

/-- Recursively free page-table pages, at most `depth` levels. -/
def freewalk : ℕ → ℕ → MemM Unit
  | 0, _ => throw .deep
  | depth + 1, pagetable => do
    freeEntries (freewalk depth) pagetable 512 0
    kfree pagetable

def uvmfree (pagetable sz : ℕ) : MemM Unit := do
  uvmunmap pagetable 0 sz true
  freewalk 3 pagetable

def copyPage (dst src : ℕ) : MemM Unit := modify fun m => m.setPage dst (m.page src)

def copyLoop (old new : ℕ) : ℕ → ℕ → MemM Bool
  | 0, _ => pure true
  | n + 1, i => do
    let pte ← walk old i false
    if pte = 0 then throw .copyWalk
    else do
      let w ← readWord pte
      if ¬ Has w pteV then throw .copyNotPresent
      else do
        let mem ← kalloc
        if mem = 0 then do
          uvmunmap new 0 i true
          pure false
        else do
          copyPage mem (pte2pa w)
          let mapped ← mappages new i pgsize mem (pteFlags w)
          if mapped then copyLoop old new n (i + pgsize)
          else do
            kfree mem
            uvmunmap new 0 i true
            pure false

/-- Copy a parent's memory into a child's page table; `false` (`-1`) on failure. -/
def uvmcopy (old new sz : ℕ) : MemM Bool := copyLoop old new (pagesFrom 0 sz) 0

/-- Mark a PTE invalid for user access. -/
def uvmclear (pagetable va : ℕ) : MemM Unit := do
  let pte ← walk pagetable va false
  if pte = 0 then throw .uvmclear
  else do
    let w ← readWord pte
    writeWord pte (w - w / pteU % 2 * pteU)

/-! ## Copies -/

/-- `memmove` of some bytes into a page. -/
def Mem.write (m : Mem) (a : ℕ) (src : List UInt8) : Mem :=
  m.setPage (pgRoundDown a) (splice (m.page (pgRoundDown a)) (a % pgsize) fun k => src.get k)

def copyout (pagetable dstva : ℕ) (src : List UInt8) : MemM Bool :=
  if h : src = [] then pure true
  else do
    let va0 := pgRoundDown dstva
    let pa0 ← walkaddr pagetable va0
    if pa0 = 0 then pure false
    else do
      let n := pgsize - (dstva - va0)
      modify (·.write (pa0 + (dstva - va0)) (src.take n))
      copyout pagetable ((va0 + pgsize) % 2 ^ 64) (src.drop n)
termination_by src.length
decreasing_by
  have hpos := List.length_pos_iff.2 h
  rw [List.length_drop]
  change src.length - (4096 - (dstva - dstva / 4096 * 4096)) < src.length
  omega

def Mem.byte (m : Mem) (a : ℕ) : UInt8 := Bytes.byte (m.page (pgRoundDown a)) (a % pgsize)

/-- The bytes from an address on, for a `memmove` to kernel memory. -/
def Mem.read (m : Mem) (a n : ℕ) : List UInt8 := (List.range n).map fun i => m.byte (a + i)

/-- Copy from user to kernel: `true` for `0`, and the bytes at the kernel's buffer, `dst` being those copied so far. -/
def copyin (pagetable : ℕ) (dst : List UInt8) (srcva len : ℕ) : MemM (Bool × List UInt8) :=
  if h : len = 0 then pure (true, dst)
  else do
    let va0 := pgRoundDown srcva
    let pa0 ← walkaddr pagetable va0
    if pa0 = 0 then pure (false, dst)
    else do
      let n := min (pgsize - (srcva - va0)) len
      let m ← get
      copyin pagetable (dst ++ m.read (pa0 + (srcva - va0)) n) ((va0 + pgsize) % 2 ^ 64) (len - n)
termination_by len
decreasing_by
  change len - min (4096 - (srcva - srcva / 4096 * 4096)) len < len
  omega

/-- The inner loop of `copyinstr`: copy at most `n` bytes from `p` on, up to a NUL; `got_null` and the buffer. -/
def copyinstrPage (m : Mem) : ℕ → ℕ → List UInt8 → Bool × List UInt8
  | _, 0, dst => (false, dst)
  | p, n + 1, dst =>
    if m.byte p = 0 then (true, dst ++ [0]) else copyinstrPage m (p + 1) n (dst ++ [m.byte p])

/-- Copy a null-terminated string from user to kernel, at most `max` bytes. -/
def copyinstr (pagetable : ℕ) (dst : List UInt8) (srcva max : ℕ) : MemM (Bool × List UInt8) :=
  if h : max = 0 then pure (false, dst)
  else do
    let va0 := pgRoundDown srcva
    let pa0 ← walkaddr pagetable va0
    if pa0 = 0 then pure (false, dst)
    else do
      let n := min (pgsize - (srcva - va0)) max
      let m ← get
      match copyinstrPage m (pa0 + (srcva - va0)) n dst with
      | (true, dst) => pure (true, dst)
      | (false, dst) => copyinstr pagetable dst ((va0 + pgsize) % 2 ^ 64) (max - n)
termination_by max
decreasing_by
  change max - min (4096 - (srcva - srcva / 4096 * 4096)) max < max
  omega

/-! ## The page table of a process -/

/-- Create a page table with no user pages, but with trampoline pages. The results of `mappages` are
not looked at. -/
def procPagetable (tf : ℕ) : MemM ℕ := do
  let pagetable ← uvmcreate
  let _ ← mappages pagetable trampolineVa pgsize Image.trampoline (pteR ||| pteX)
  let _ ← mappages pagetable trapframeVa pgsize tf (pteR ||| pteW)
  pure pagetable

def procFreepagetable (pagetable sz : ℕ) : MemM Unit := do
  uvmunmap pagetable trampolineVa pgsize false
  uvmunmap pagetable trapframeVa pgsize false
  if 0 < sz then uvmfree pagetable sz

end

end Xv6.Vm
