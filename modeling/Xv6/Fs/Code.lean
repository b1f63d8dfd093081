import Xv6.Bio.Cache
import Xv6.Icache.Machine

/-!
# The code of the file system

The block allocator, the inodes and the file contents of `kernel/fs.c`, as programs over the
buffers, the inode cache and the log. The device is fixed, as all calls use `ROOTDEV`. A step of a
program is one access to shared memory, one critical section of `icache.lock`, or a call of the buffer
cache or the log; what these do is given by the machine that runs the program.

* `UserMem`, `copyin`, `eitherCopyin`: the copy from user memory, page by page.
* `bzero`, `balloc`, `bfree`; `iupdate`, `ilock`, `iunlock`, `itrunc`, `iput`, `ialloc`; `bmap`, `readi`,
  `writei`.
-/

namespace Xv6.Fs

open Bytes
open Bio (BufId)
open Icache (Ip Entry)

/-! ## User memory -/

/-- The pages of a process that are mapped for user access, by page number. -/
def UserMem : Type := ℕ → Option (ℕ → UInt8)

/-- `walkaddr`: the page that holds address `va`. -/
def UserMem.walkaddr (mem : UserMem) (va : ℕ) : Option (ℕ → UInt8) :=
  if va ≥ maxva then none else mem (va / pgsize)

def memmove (d : Block) (off n : ℕ) (src : ℕ → UInt8) : Block := fun i =>
  if off ≤ i.1 ∧ i.1 < off + n then src (i.1 - off) else d i

/-- `copyin` to offset `off` of a buffer: the buffer afterwards, and whether all of it was copied.
Each turn copies the rest of a page, so there are at most `len` turns. -/
def copyinLoop (mem : UserMem) : ℕ → Block → ℕ → ℕ → ℕ → Block × Bool
  | 0, d, _, _, len => (d, len = 0)
  | fuel + 1, d, off, va, len =>
    if len = 0 then (d, true)
    else
      match mem.walkaddr va with
      | none => (d, false)
      | some page =>
        let n := min (pgsize - va % pgsize) len
        copyinLoop mem fuel (memmove d off n fun i => page (va % pgsize + i)) (off + n) (va + n)
          (len - n)

def copyin (mem : UserMem) (d : Block) (off va len : ℕ) : Block × Bool :=
  copyinLoop mem len d off va len

/-- `copyout`: how many bytes it copies, and whether that is all of them. -/
def copyoutLoop (mem : UserMem) : ℕ → ℕ → ℕ → ℕ × Bool
  | 0, _, len => (0, len = 0)
  | fuel + 1, va, len =>
    if len = 0 then (0, true)
    else
      match mem.walkaddr va with
      | none => (0, false)
      | some _ =>
        let n := min (pgsize - va % pgsize) len
        let (k, ok) := copyoutLoop mem fuel (va + n) (len - n)
        (n + k, ok)

def copyout (mem : UserMem) (va len : ℕ) : ℕ × Bool := copyoutLoop mem len va len

/-- Where `writei` copies from: a user address or kernel memory. -/
inductive Source
  | user (mem : UserMem) (va : ℕ)
  | kernel (bytes : ℕ → UInt8)

def Source.advance : Source → ℕ → Source
  | user mem va, m => user mem (va + m)
  | kernel bytes, m => kernel fun i => bytes (m + i)

def eitherCopyin (d : Block) (off : ℕ) (src : Source) (len : ℕ) : Block × Bool :=
  match src with
  | .user mem va => copyin mem d off va len
  | .kernel bytes => (memmove d off len bytes, true)

/-- Where `readi` copies to. The kernel's own buffers are always there. -/
inductive Dest
  | user (mem : UserMem) (va : ℕ)
  | kernel

def Dest.advance : Dest → ℕ → Dest
  | user mem va, m => user mem (va + m)
  | kernel, _ => kernel

def eitherCopyout (dst : Dest) (len : ℕ) : ℕ × Bool :=
  match dst with
  | .user mem va => copyout mem va len
  | .kernel => (len, true)

/-! ## Commands -/

/-- What a program may do. `iputStart` is the first critical section of `iput`: it either takes the
sleep lock, to free the inode, or drops the reference. `give` hands a reference over, as `fork` does.
`panic` does not return. -/
inductive Cmd
  | bread (b : ℕ)
  | data (h : BufId)
  | setData (h : BufId) (d : Block)
  | copyin (h : BufId) (off : ℕ) (src : Source) (len : ℕ)
  | logWrite (h : BufId)
  | brelse (h : BufId)
  | beginOp
  | endOp
  | iget (inum : ℕ)
  | idup (e : Ip)
  | refOk (e : Ip)
  | acquiresleep (e : Ip)
  | holdingsleep (e : Ip)
  | releasesleep (e : Ip)
  | inode (e : Ip)
  | store (e : Ip) (f : Dinode → Dinode)
  | setValid (e : Ip) (valid : Bool)
  | iputStart (e : Ip)
  | iputEnd (e : Ip)
  | give (q : Fin nproc) (e : Ip)
  | panic

@[reducible] def Cmd.Ans : Cmd → Type
  | .bread _ => BufId
  | .data _ => Block
  | .copyin _ _ _ _ | .refOk _ | .holdingsleep _ | .iputStart _ => Bool
  | .iget _ => Ip
  | .inode _ => Entry
  | .panic => Empty
  | _ => Unit

abbrev FsProg : Type → Type := Prog Cmd Cmd.Ans

def bread (b : ℕ) : FsProg BufId := .perform (Cmd.bread b)
def data (h : BufId) : FsProg Block := .perform (Cmd.data h)
def setData (h : BufId) (d : Block) : FsProg Unit := .perform (Cmd.setData h d)
def copyinBuf (h : BufId) (off : ℕ) (src : Source) (len : ℕ) : FsProg Bool :=
  .perform (Cmd.copyin h off src len)
def logWrite (h : BufId) : FsProg Unit := .perform (Cmd.logWrite h)
def brelse (h : BufId) : FsProg Unit := .perform (Cmd.brelse h)
def beginOp : FsProg Unit := .perform Cmd.beginOp
def endOp : FsProg Unit := .perform Cmd.endOp
def iget (inum : ℕ) : FsProg Ip := .perform (Cmd.iget inum)
def idup (e : Ip) : FsProg Unit := .perform (Cmd.idup e)
def refOk (e : Ip) : FsProg Bool := .perform (Cmd.refOk e)
def acquiresleep (e : Ip) : FsProg Unit := .perform (Cmd.acquiresleep e)
def holdingsleep (e : Ip) : FsProg Bool := .perform (Cmd.holdingsleep e)
def releasesleep (e : Ip) : FsProg Unit := .perform (Cmd.releasesleep e)
def inode (e : Ip) : FsProg Entry := .perform (Cmd.inode e)
def store (e : Ip) (f : Dinode → Dinode) : FsProg Unit := .perform (Cmd.store e f)
def setValid (e : Ip) (valid : Bool) : FsProg Unit := .perform (Cmd.setValid e valid)
def iputStart (e : Ip) : FsProg Bool := .perform (Cmd.iputStart e)
def iputEnd (e : Ip) : FsProg Unit := .perform (Cmd.iputEnd e)
def give (q : Fin nproc) (e : Ip) : FsProg Unit := .perform (Cmd.give q e)

def panic {α : Type} : FsProg α := .cmd .panic nofun

section Code

variable (sb : Superblock)

/-! ## Blocks -/

def bzero (bno : ℕ) : FsProg Unit := do
  let bp ← bread bno
  setData bp fun _ => 0
  logWrite bp
  brelse bp

/-- The first block number from `b` on, within its block of the free map, whose bit in `d` is clear. -/
def freeBit (d : Block) (b : ℕ) : Option ℕ :=
  (List.range (min bpb (sb.size - b))).find? fun bi => !bit d bi

/-- The loop of `balloc` over the blocks of the free map. -/
def ballocLoop : List ℕ → FsProg ℕ
  | [] => panic
  | b :: bs => do
    let bp ← bread (sb.bblock b)
    let d ← data bp
    match freeBit sb d b with
    | some bi =>
      setData bp (setBit d bi)
      logWrite bp
      brelse bp
      bzero (b + bi)
      pure (b + bi)
    | none =>
      brelse bp
      ballocLoop bs

def balloc : FsProg ℕ :=
  ballocLoop sb ((List.range ((sb.size + (bpb - 1)) / bpb)).map (· * bpb))

def bfree (b : ℕ) : FsProg Unit := do
  let bp ← bread (sb.bblock b)
  let d ← data bp
  if bit d (b % bpb) = false then panic
  else
    setData bp (clearBit d (b % bpb))
    logWrite bp
    brelse bp

/-! ## Inodes -/

def iupdate (e : Ip) : FsProg Unit := do
  let ip ← inode e
  let bp ← bread (sb.iblock ip.inum)
  let d ← data bp
  let ip ← inode e
  setData bp (putDinode ip.din d ip.inum)
  logWrite bp
  brelse bp

def iallocLoop (type : UInt16) : List ℕ → FsProg Ip
  | [] => panic
  | inum :: rest => do
    let bp ← bread (sb.iblock inum)
    let d ← data bp
    if (getDinode d inum).type = 0 then
      setData bp (putDinode (.fresh type) d inum)
      logWrite bp
      brelse bp
      iget inum
    else
      brelse bp
      iallocLoop type rest

/-- Allocate an inode: mark it as allocated by giving it type `type`. -/
def ialloc (type : UInt16) : FsProg Ip :=
  iallocLoop sb type ((List.range (sb.ninodes - 1)).map (· + 1))

/-- `ilock` once it has the lock. -/
def iload (e : Ip) : FsProg Unit := do
  let ip ← inode e
  if ip.valid then pure ()
  else
    let bp ← bread (sb.iblock ip.inum)
    let d ← data bp
    store e fun _ => getDinode d ip.inum
    brelse bp
    setValid e true
    let ip ← inode e
    if ip.din.type = 0 then panic else pure ()

/-- Lock the given inode; reads the inode from disk if necessary. -/
def ilock (e : Ip) : FsProg Unit := do
  let ok ← refOk e
  if ok then
    acquiresleep e
    iload sb e
  else panic

def iunlock (e : Ip) : FsProg Unit := do
  let ok ← holdingsleep e
  if ok then releasesleep e else panic

def setAddr (k : Fin (ndirect + 1)) (b : ℕ) (v : Dinode) : Dinode :=
  { v with addrs := Function.update v.addrs k (UInt32.ofNat b) }

def direct (i : ℕ) (h : i < ndirect) : Fin (ndirect + 1) := ⟨i, Nat.lt_succ_of_lt h⟩

def indirect : Fin (ndirect + 1) := Fin.last ndirect

def truncDirect (e : Ip) (k : Fin (ndirect + 1)) : FsProg Unit := do
  let ip ← inode e
  if ip.din.addrs k = 0 then pure ()
  else
    bfree sb (ip.din.addrs k).toNat
    store e (setAddr k 0)

def truncEntry (bp : BufId) (j : ℕ) : FsProg Unit := do
  let a ← data bp
  if entry a j = 0 then pure () else bfree sb (entry a j)

/-- `itrunc` from the test of `ip->addrs[NDIRECT]` to the end of its body. -/
def truncIndirect (e : Ip) : FsProg Unit := do
  let ip ← inode e
  if ip.din.addrs indirect = 0 then pure ()
  else
    let bp ← bread (ip.din.addrs indirect).toNat
    .forEnum (fun _ j => truncEntry sb bp j) 0 (List.range nindirect)
    brelse bp
    bfree sb (ip.din.addrs indirect).toNat
    store e (setAddr indirect 0)

def itrunc (e : Ip) : FsProg Unit := do
  .forEnum (fun _ k => truncDirect sb e k) 0 (List.finRange ndirect |>.map Fin.castSucc)
  truncIndirect sb e
  store e fun v => { v with size := 0 }
  iupdate sb e

def iput (e : Ip) : FsProg Unit := do
  let last ← iputStart e
  if last then
    itrunc sb e
    store e fun v => { v with type := 0 }
    iupdate sb e
    setValid e false
    releasesleep e
    iputEnd e
  else pure ()

/-! ## Inode content -/

/-- `ip->addrs[k]`, allocating a block if there is none. -/
def bmapAddr (e : Ip) (k : Fin (ndirect + 1)) : FsProg ℕ := do
  let ip ← inode e
  if ip.din.addrs k = 0 then
    let b ← balloc sb
    store e (setAddr k b)
    pure b
  else pure (ip.din.addrs k).toNat

/-- The disk block address of the `bn`th block in inode `e`. If there is no such block, `bmap`
allocates one. -/
def bmap (e : Ip) (bn : ℕ) : FsProg ℕ :=
  if h : bn < ndirect then bmapAddr sb e (direct bn h)
  else if bn - ndirect < nindirect then do
    let addr ← bmapAddr sb e indirect
    let bp ← bread addr
    let a ← data bp
    if entry a (bn - ndirect) = 0 then
      let b ← balloc sb
      let a ← data bp
      setData bp (putEntry a (bn - ndirect) b)
      logWrite bp
      brelse bp
      pure b
    else
      brelse bp
      pure (entry a (bn - ndirect))
  else panic

/-- The loop of `readi`: the bytes copied out. Each turn advances by at least one byte. -/
def readLoop (e : Ip) : ℕ → Dest → ℕ → ℕ → List UInt8 → FsProg (List UInt8)
  | 0, _, _, _, out => pure out
  | fuel + 1, dst, off, left, out =>
    if left = 0 then pure out
    else do
      let b ← bmap sb e (off / bsize)
      let bp ← bread b
      let m := min left (bsize - off % bsize)
      let d ← data bp
      let (k, ok) := eitherCopyout dst m
      let out := out ++ (List.range k).map fun i => byte d (off % bsize + i)
      if ok then
        brelse bp
        readLoop e fuel (dst.advance m) (off + m) (left - m) out
      else
        brelse bp
        pure out

/-- Read data from inode: the result and the bytes copied out. -/
def readi (e : Ip) (dst : Dest) (off n : UInt32) : FsProg (ℤ × List UInt8) := do
  let ip ← inode e
  if off > ip.din.size ∨ off + n < off then pure (-1, [])
  else
    let n := if off + n > ip.din.size then ip.din.size - off else n
    let out ← readLoop sb e n.toNat dst off.toNat n.toNat []
    pure (n.toNat, out)

/-- The loop of `writei`: the offset it stops at. -/
def writeLoop (e : Ip) : ℕ → Source → ℕ → ℕ → FsProg ℕ
  | 0, _, off, _ => pure off
  | fuel + 1, src, off, left =>
    if left = 0 then pure off
    else do
      let b ← bmap sb e (off / bsize)
      let bp ← bread b
      let m := min left (bsize - off % bsize)
      let ok ← copyinBuf bp (off % bsize) src m
      if ok then
        logWrite bp
        brelse bp
        writeLoop e fuel (src.advance m) (off + m) (left - m)
      else
        brelse bp
        pure off

/-- The end of `writei`. The inode is written back even if the size did not change, because the loop
might have called `bmap` and added a new block to `ip->addrs[]`. -/
def writeSize (e : Ip) (off : ℕ) : FsProg Unit := do
  let ip ← inode e
  if off > ip.din.size.toNat then
    store e fun v => { v with size := UInt32.ofNat off }
    iupdate sb e
  else iupdate sb e

def writei (e : Ip) (src : Source) (off n : UInt32) : FsProg ℤ := do
  let ip ← inode e
  if off > ip.din.size ∨ off + n < off then pure (-1)
  else if (off + n).toNat > maxFile * bsize then pure (-1)
  else
    let off' ← writeLoop sb e n.toNat src off.toNat n.toNat
    if n > 0 then
      writeSize sb e off'
      pure n.toNat
    else pure n.toNat

end Code

end Xv6.Fs
