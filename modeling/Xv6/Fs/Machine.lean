import Xv6.Fs.Code
import Xv6.Lib.Pool

/-!
# The file system under several processes

Processes run the programs of `Xv6.Fs.Code` on blocks as the buffer cache and the log present them:
`bread` gives exclusive access to a block, a store to the buffer changes the block. A block whose last
change was not given to the log is `stale`: it may lose the change as soon as nobody holds it.

* `State`, `handle`: the shared state and what the commands do.
* `Call`, `calls`: what a process may call. The system calls of `kernel/sysfile.c` are sequences of
  these: a process uses references it holds and fields of inodes it has locked, and writes inside a
  transaction.
* `Consistent`: a file system whose free map tells exactly which blocks are in use.
-/

namespace Xv6.Fs

open Function Bytes
open Bio (BufId)
open Icache (Ip Entry igetEntry)

abbrev Pid : Type := Fin nproc

/-- More references than a process ever holds: there are `NFILE = 100` open files in the system, and
a system call holds a few more. -/
abbrev maxRefs : ℕ := 128

/-- The blocks, the buffers given out by `bread` with their holders, the inode cache with its sleep
locks, the references each process holds, and who is inside a transaction. -/
structure State where
  blk : ℕ → Block
  stale : ℕ → Bool
  hold : BufId → Option (Pid × ℕ)
  entry : Ip → Entry
  ilock : Ip → Option Pid
  mine : Pid → Ip → ℕ
  inOp : Pid → Bool

namespace State

def init (blk : ℕ → Block) : State :=
  ⟨blk, fun _ => false, fun _ => none, fun _ => .zero, fun _ => none, fun _ _ => 0, fun _ => false⟩

def held (s : State) (p : Pid) (h : BufId) : Option ℕ :=
  match s.hold h with
  | some (q, b) => if q = p then some b else none
  | none => none

def setBlk (s : State) (b : ℕ) (d : Block) : State := { s with blk := update s.blk b d }

def setHold (s : State) (h : BufId) (o : Option (Pid × ℕ)) : State :=
  { s with hold := update s.hold h o }

def setEntry (s : State) (e : Ip) (v : Entry) : State :=
  { s with entry := update s.entry e v }

def setLock (s : State) (e : Ip) (o : Option Pid) : State :=
  { s with ilock := update s.ilock e o }

def setMine (s : State) (p : Pid) (e : Ip) (n : ℕ) : State :=
  { s with mine := update s.mine p (update (s.mine p) e n) }

def refsOf (s : State) (p : Pid) : ℕ := ∑ e, s.mine p e

def putRef (s : State) (p : Pid) (e : Ip) : State :=
  (s.setEntry e { s.entry e with ref := (s.entry e).ref - 1 }).setMine p e (s.mine p e - 1)

/-- A process may give up one reference to `e`: it has one, and a lock it holds stays backed. -/
def spare (s : State) (p : Pid) (e : Ip) : Bool :=
  0 < s.mine p e ∧ (s.ilock e = some p → 2 ≤ s.mine p e)

end State

/-- **What a command does.** `none`: the process waits or has stopped. `o` is the buffer `bread`
picks. -/
def handle (p : Pid) (c : Cmd) (o : BufId) (s : State) : Option (State × c.Ans) :=
  match c with
  | .bread b =>
    if s.hold o = none ∧ ∀ h, (s.hold h).map Prod.snd ≠ some b then
      some (s.setHold o (some (p, b)), o)
    else none
  | .data h => (s.held p h).map fun b => (s, s.blk b)
  | .setData h d => (s.held p h).map fun b => (s.setBlk b d, ())
  | .copyin h off src len => (s.held p h).map fun b =>
    match eitherCopyin (s.blk b) off src len with
    | (d, true) => (s.setBlk b d, true)
    | (d, false) => ({ s.setBlk b d with stale := update s.stale b true }, false)
  | .logWrite h =>
    if s.inOp p then
      (s.held p h).map fun b => ({ s with stale := update s.stale b false }, ())
    else none
  | .brelse h => (s.held p h).map fun _ => (s.setHold h none, ())
  | .beginOp => if s.inOp p then none else some ({ s with inOp := update s.inOp p true }, ())
  | .endOp => if s.inOp p then some ({ s with inOp := update s.inOp p false }, ()) else none
  | .iget inum =>
    if s.refsOf p < maxRefs then
      (igetEntry s.entry rootDev inum).map fun (t, e) =>
        ({ s.setMine p e (s.mine p e + 1) with entry := t }, e)
    else none
  | .idup e =>
    if s.refsOf p < maxRefs then
      some ((s.setEntry e { s.entry e with ref := (s.entry e).ref + 1 }).setMine p e (s.mine p e + 1),
        ())
    else none
  | .refOk e => some (s, ¬ (s.entry e).ref < 1)
  | .acquiresleep e => if s.ilock e = none then some (s.setLock e (some p), ()) else none
  | .holdingsleep e => some (s, s.ilock e = some p ∧ ¬ (s.entry e).ref < 1)
  | .releasesleep e => some (s.setLock e none, ())
  | .inode e => some (s, s.entry e)
  | .store e f => some (s.setEntry e { s.entry e with din := f (s.entry e).din }, ())
  | .setValid e valid => some (s.setEntry e { s.entry e with valid := valid }, ())
  | .iputStart e =>
    if (s.entry e).ref = 1 ∧ (s.entry e).valid = true ∧ (s.entry e).din.nlink = 0 then
      if s.ilock e = none then some (s.setLock e (some p), true) else none
    else some (s.putRef p e, false)
  | .iputEnd e => some (s.putRef p e, ())
  | .give q e =>
    if s.refsOf q < maxRefs then
      let t := s.setMine p e (s.mine p e - 1)
      some (t.setMine q e (t.mine q e + 1), ())
    else none
  | .panic => none

theorem handle_iget (p : Pid) (inum : ℕ) (o : BufId) (s : State) : handle p (.iget inum) o s =
    if s.refsOf p < maxRefs then
      (igetEntry s.entry rootDev inum).map fun (t, e) =>
        ({ s.setMine p e (s.mine p e + 1) with entry := t }, e)
    else none := rfl

theorem handle_idup (p : Pid) (e : Ip) (o : BufId) (s : State) : handle p (.idup e) o s =
    if s.refsOf p < maxRefs then
      some ((s.setEntry e { s.entry e with ref := (s.entry e).ref + 1 }).setMine p e (s.mine p e + 1),
        ())
    else none := rfl

theorem handle_give (p q : Pid) (e : Ip) (o : BufId) (s : State) : handle p (.give q e) o s =
    if s.refsOf q < maxRefs then
      some ((s.setMine p e (s.mine p e - 1)).setMine q e
        ((s.setMine p e (s.mine p e - 1)).mine q e + 1), ())
    else none := rfl

/-! ## Calls -/

/-- What a process may call. `update` stands for the stores to `major`, `minor` and `nlink` in
`sysfile.c`, each followed by `iupdate`. -/
inductive Call
  | beginOp
  | endOp
  | iget (inum : ℕ)
  | idup (e : Ip)
  | ilock (e : Ip)
  | iunlock (e : Ip)
  | iput (e : Ip)
  | ialloc (type : UInt16)
  | update (e : Ip) (major minor nlink : UInt16)
  | readi (e : Ip) (dst : Dest) (off n : UInt32)
  | writei (e : Ip) (src : Source) (off n : UInt32)
  | give (q : Pid) (e : Ip)

/-- Fields that are not about the contents. -/
def setFields (major minor nlink : UInt16) (v : Dinode) : Dinode :=
  { v with major := major, minor := minor, nlink := nlink }

/-- The program of a call; what it returns is left to the caller. -/
def Call.code (sb : Superblock) : Call → FsProg Unit
  | .beginOp => Fs.beginOp
  | .endOp => Fs.endOp
  | .iget inum => do let _ ← Fs.iget inum
  | .idup e => Fs.idup e
  | .ilock e => Fs.ilock sb e
  | .iunlock e => Fs.iunlock e
  | .iput e => Fs.iput sb e
  | .ialloc type => do let _ ← Fs.ialloc sb type
  | .update e major minor nlink => do
    store e (setFields major minor nlink)
    iupdate sb e
  | .readi e dst off n => do let _ ← Fs.readi sb e dst off n
  | .writei e src off n => do let _ ← Fs.writei sb e src off n
  | .give q e => Fs.give q e

/-- **When a process may make a call.** -/
def Call.may (sb : Superblock) (p : Pid) (k : Call) (s : State) : Bool :=
  match k with
  | .beginOp => !s.inOp p
  | .endOp => s.inOp p
  | .iget inum => 0 < inum ∧ inum < sb.ninodes
  | .idup e | .ilock e => 0 < s.mine p e
  | .iunlock e | .readi e _ _ _ => s.ilock e = some p
  | .iput e => s.spare p e ∧ s.inOp p
  | .ialloc type => type ≠ 0 ∧ s.inOp p
  | .update e _ _ _ | .writei e _ _ _ => s.ilock e = some p ∧ s.inOp p
  | .give _ e => s.spare p e

/-- A stale block that nobody holds may change. -/
def revert (x : ℕ × Block) (s : State) : Option State :=
  if s.stale x.1 ∧ ∀ h, (s.hold h).map Prod.snd ≠ some x.1 then some (s.setBlk x.1 x.2) else none

def calls (sb : Superblock) : Pool.Calls Pid Cmd State Call (ℕ × Block) Cmd.Ans :=
  ⟨Call.code sb, Call.may sb, revert⟩

abbrev System : Type := Pool Pid Cmd State Cmd.Ans

def step (sb : Superblock) : System → Pool.Act Pid BufId Call (ℕ × Block) → Option System :=
  Pool.step handle (calls sb)

def System.init (blk : ℕ → Block) : System := ⟨.init blk, fun _ => .ret ()⟩

/-- No process is inside a system call: none runs a program or holds a lock. -/
def System.Quiescent (s : System) : Prop :=
  (∀ p, s.thread p = .ret ()) ∧ ∀ e, s.shared.ilock e = none

instance (s : System) : Decidable s.Quiescent := inferInstanceAs (Decidable (_ ∧ _))

/-! ## Consistent file systems -/

/-- The slots of an inode: the direct addresses, the address of the indirect block, and the entries
of the indirect block. -/
abbrev nslot : ℕ := ndirect + 1 + nindirect

def addr (blk : ℕ → Block) (v : Dinode) (k : ℕ) : ℕ :=
  if h : k < ndirect + 1 then (v.addrs ⟨k, h⟩).toNat
  else if v.addrs indirect = 0 then 0
  else entry (blk (v.addrs indirect).toNat) (k - (ndirect + 1))

def fileSlot (n : ℕ) : ℕ := if n < ndirect then n else n + 1

def dinodeAt (sb : Superblock) (blk : ℕ → Block) (i : ℕ) : Dinode :=
  getDinode (blk (sb.iblock i)) i

def usedAt (sb : Superblock) (blk : ℕ → Block) (b : ℕ) : Prop :=
  bit (blk (sb.bblock b)) (b % bpb) = true

/-- Slot `k` of an allocated inode `i` refers to block `b`. -/
def Refers (sb : Superblock) (blk : ℕ → Block) (x : ℕ × ℕ) (b : ℕ) : Prop :=
  x.1 < sb.ninodes ∧ x.2 < nslot ∧ (dinodeAt sb blk x.1).type ≠ 0 ∧
    addr blk (dinodeAt sb blk x.1) x.2 = b ∧ b ≠ 0

/-- Every block index below `ceil(size / BSIZE)` is mapped. -/
def Mapped (size : ℕ) (slot : ℕ → ℕ) : Prop :=
  ∀ n, n * bsize < size → n < maxFile ∧ slot (fileSlot n) ≠ 0

/-- **A consistent file system.** The slots refer to data blocks, no block is referred to twice, a
block is marked as used exactly if it is metadata or referred to, and files have no holes. -/
structure Consistent (L : Layout) (blk : ℕ → Block) : Prop where
  data : ∀ x b, Refers L.toSuperblock blk x b → L.nmeta ≤ b ∧ b < L.size
  uniq : ∀ x y b, Refers L.toSuperblock blk x b → Refers L.toSuperblock blk y b → x = y
  bits : ∀ b, b < L.size →
    (usedAt L.toSuperblock blk b ↔ b < L.nmeta ∨ ∃ x, Refers L.toSuperblock blk x b)
  mapped : ∀ i, i < L.ninodes → (dinodeAt L.toSuperblock blk i).type ≠ 0 →
    Mapped (dinodeAt L.toSuperblock blk i).size.toNat (addr blk (dinodeAt L.toSuperblock blk i))

end Xv6.Fs
