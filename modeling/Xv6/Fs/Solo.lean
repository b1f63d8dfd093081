import Xv6.Fs.Machine
import Xv6.Fs.Code

/-!
# One process at a time

The programs of the file system run by one process without interference. Blocks are as the buffer cache
presents them; a program that would wait for a lock or a buffer stops, as it does at a panic.

* `Solo`, `Solo.handle`: the state and what the commands do.
* `fileByte`, `fileBytes`: the bytes of a file.
-/

namespace Xv6.Fs

open Function Bytes Prog
open Bio (BufId)
open Icache (Ip Entry igetEntry)

/-- The blocks, the buffers in use with their block numbers, the inode cache with its sleep locks, and
the log: the system calls inside a transaction and the blocks in the header. -/
structure Solo where
  blk : ℕ → Block
  hold : BufId → Option ℕ
  entry : Ip → Entry
  ilock : Ip → Bool
  outstanding : ℕ
  lh : List ℕ

namespace Solo

def setBlk (s : Solo) (b : ℕ) (d : Block) : Solo := { s with blk := update s.blk b d }

def setHold (s : Solo) (h : BufId) (o : Option ℕ) : Solo :=
  { s with hold := update s.hold h o }

def setEntry (s : Solo) (e : Ip) (v : Entry) : Solo := { s with entry := update s.entry e v }

def setLock (s : Solo) (e : Ip) (b : Bool) : Solo := { s with ilock := update s.ilock e b }

def putRef (s : Solo) (e : Ip) : Solo := s.setEntry e { s.entry e with ref := (s.entry e).ref - 1 }

def freeBuf (s : Solo) : Option BufId := (List.finRange nbuf).find? fun h => s.hold h = none

def logWrite (L : Layout) (s : Solo) (b : ℕ) : Option Solo :=
  if s.lh.length ≥ logSize ∨ s.lh.length ≥ L.nlog - 1 ∨ s.outstanding < 1 then none
  else some { s with lh := if b ∈ s.lh then s.lh else s.lh ++ [b] }

/-- **What a command does**; `none`: a panic, or the process waits for ever. -/
def handle (L : Layout) (c : Cmd) (s : Solo) : Option (Solo × c.Ans) :=
  match c with
  | .bread b =>
    if ∃ h, s.hold h = some b then none else s.freeBuf.map fun h => (s.setHold h (some b), h)
  | .data h => (s.hold h).map fun b => (s, s.blk b)
  | .setData h d => (s.hold h).map fun b => (s.setBlk b d, ())
  | .copyin h off src len => (s.hold h).map fun b =>
    let r := eitherCopyin (s.blk b) off src len
    (s.setBlk b r.1, r.2)
  | .logWrite h => (s.hold h).bind fun b => (s.logWrite L b).map (·, ())
  | .brelse h => (s.hold h).map fun _ => (s.setHold h none, ())
  | .beginOp =>
    if s.lh.length + (s.outstanding + 1) * maxOpBlocks > logSize then none
    else some ({ s with outstanding := s.outstanding + 1 }, ())
  | .endOp =>
    -- the last one commits
    some ({ s with outstanding := s.outstanding - 1, lh := if s.outstanding = 1 then [] else s.lh }, ())
  | .iget inum => (igetEntry s.entry rootDev inum).map fun (t, e) => ({ s with entry := t }, e)
  | .idup e => some (s.setEntry e { s.entry e with ref := (s.entry e).ref + 1 }, ())
  | .refOk e => some (s, ¬ (s.entry e).ref < 1)
  | .acquiresleep e => if s.ilock e then none else some (s.setLock e true, ())
  | .holdingsleep e => some (s, s.ilock e ∧ ¬ (s.entry e).ref < 1)
  | .releasesleep e => some (s.setLock e false, ())
  | .inode e => some (s, s.entry e)
  | .store e f => some (s.setEntry e { s.entry e with din := f (s.entry e).din }, ())
  | .setValid e valid => some (s.setEntry e { s.entry e with valid := valid }, ())
  | .iputStart e =>
    if (s.entry e).ref = 1 ∧ (s.entry e).valid = true ∧ (s.entry e).din.nlink = 0 then
      if s.ilock e then none else some (s.setLock e true, true)
    else some (s.putRef e, false)
  | .iputEnd e => some (s.putRef e, ())
  | .give _ _ => none
  | .panic => none

def Clear (s : Solo) : Prop := ∀ h, s.hold h = none

end Solo

/-! ## The contents of files -/

def fileByte (blk : ℕ → Block) (v : Dinode) (i : ℕ) : UInt8 :=
  byte (blk (addr blk v (fileSlot (i / bsize)))) (i % bsize)

def fileBytes (blk : ℕ → Block) (v : Dinode) (off n : ℕ) : List UInt8 :=
  (List.range n).map fun i => fileByte blk v (off + i)

end Xv6.Fs
