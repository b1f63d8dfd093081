import Xv6.Fs.Layout
import Xv6.Lib.Runs

/-!
# The inode cache

`icache` of `kernel/fs.c` under any number of processes that call `iget`, `idup`, `ilock`, `iunlock`,
`iput`, `ialloc` and `iupdate`. A critical section of `icache.lock` is one step, and so is each access
to the on-disk inode (the code holds the buffer's lock for it); `iput` gives up `icache.lock` while it
frees an inode, so other processes run between its steps.

* `Entry`, `igetEntry`: `struct inode` and the scan of `iget`.
* `State`, `step`: the system. `mine` and `dirty` are a history: the references each process holds,
  and the entries with changes that `iupdate` has not written yet. No transition reads them except to
  say which calls a well-behaved process may make.
-/

namespace Xv6.Icache

open Function Runs

abbrev Ip : Type := Fin ninode

/-- `struct inode`, less its sleep lock. `din` is the copy of the disk inode. -/
structure Entry where
  dev : ℕ
  inum : ℕ
  ref : Int32
  valid : Bool
  din : Dinode

def Entry.key (v : Entry) : ℕ × ℕ := (v.dev, v.inum)

def Entry.zero : Entry := ⟨0, 0, 0, false, .fresh 0⟩

/-- `iget`; `none` is its panic, `no inodes`. -/
def igetEntry (t : Ip → Entry) (dev inum : ℕ) : Option ((Ip → Entry) × Ip) :=
  match (List.finRange ninode).find? fun e =>
      0 < (t e).ref && (t e).dev = dev && (t e).inum = inum with
  | some e => some (update t e { t e with ref := (t e).ref + 1 }, e)
  | none =>
    match (List.finRange ninode).find? fun e => (t e).ref = 0 with
    | some e =>
      some (update t e { t e with dev := dev, inum := inum, ref := 1, valid := false }, e)
    | none => none

/-- Where a process that holds the lock of an entry stands in `ilock` or `iput`. -/
inductive Stage
  | loading
  | loaded
  | validated
  | trunc
  | saved
  | typeless
  | freed
  | unvalid
  deriving DecidableEq

inductive Pc
  | idle
  | locking (e : Ip)
  | own (st : Stage) (e : Ip)
  | drop (e : Ip)
  | scan (dev : ℕ) (type : UInt16) (inum : ℕ)
  | getting (dev inum : ℕ)
  deriving DecidableEq

/-- The panics, and `asleep`: `acquiresleep` in `iput` would have to sleep while `icache.lock` is
held. -/
inductive Halt
  | iget
  | ilock
  | noType
  | iunlock
  | ialloc
  | asleep
  deriving DecidableEq

/-- The cache, the sleep locks with their holders, the inodes on disk (as the log has them), the
processes, and the history. -/
structure State (P : Type) where
  entry : Ip → Entry
  lock : Ip → Option P
  dinode : ℕ × ℕ → Dinode
  pc : P → Pc
  halt : Option Halt
  mine : P → Ip → ℕ
  dirty : Ip → Bool

inductive Act (P : Type)
  | iget (p : P) (dev inum : ℕ)
  | idup (p : P) (e : Ip)
  | ilock (p : P) (e : Ip)
  | modify (p : P) (e : Ip) (v : Dinode)
  | iupdate (p : P) (e : Ip)
  | iunlock (p : P) (e : Ip)
  | iput (p : P) (e : Ip)
  | ialloc (p : P) (dev : ℕ) (type : UInt16)
  | itrunc (p : P) (addrs : Fin (ndirect + 1) → UInt32) (size : UInt32)
  | give (p q : P) (e : Ip)
  | run (p : P)

variable {P : Type} [DecidableEq P]

namespace State

variable (P) in
def init (dinode : ℕ × ℕ → Dinode) : State P :=
  ⟨fun _ => .zero, fun _ => none, dinode, fun _ => .idle, none, fun _ _ => 0, fun _ => false⟩

def goto (s : State P) (p : P) (c : Pc) : State P := { s with pc := update s.pc p c }

def setEntry (s : State P) (e : Ip) (v : Entry) : State P :=
  { s with entry := update s.entry e v }

def setMine (s : State P) (p : P) (e : Ip) (n : ℕ) : State P :=
  { s with mine := update s.mine p (update (s.mine p) e n) }

def iget (s : State P) (p : P) (dev inum : ℕ) : State P :=
  match igetEntry s.entry dev inum with
  | some (t, e) => { (s.goto p .idle).setMine p e (s.mine p e + 1) with entry := t }
  | none => { s with halt := some .iget }

def idup (s : State P) (p : P) (e : Ip) : State P :=
  (s.setEntry e { s.entry e with ref := (s.entry e).ref + 1 }).setMine p e (s.mine p e + 1)

/-- `ilock` up to `acquiresleep`. -/
def ilock (s : State P) (p : P) (e : Ip) : State P :=
  if (s.entry e).ref < 1 then { s with halt := some .ilock } else s.goto p (.locking e)

/-- `acquiresleep` in `ilock`, when the lock is free. -/
def acquire (s : State P) (p : P) (e : Ip) : State P :=
  { s.goto p (.own .loading e) with lock := update s.lock e (some p) }

def load (s : State P) (p : P) (e : Ip) : State P :=
  if (s.entry e).valid then s.goto p .idle
  else (s.goto p (.own .loaded e)).setEntry e
    { s.entry e with din := s.dinode (s.entry e).key }

def checkType (s : State P) (p : P) (e : Ip) : State P :=
  if (s.entry e).din.type = 0 then { s with halt := some .noType } else s.goto p .idle

/-- A store to the fields that live on disk. -/
def modify (s : State P) (e : Ip) (v : Dinode) : State P :=
  { s.setEntry e { s.entry e with din := v } with dirty := update s.dirty e true }

def iupdate (s : State P) (e : Ip) : State P :=
  { s with
    dinode := update s.dinode (s.entry e).key (s.entry e).din
    dirty := update s.dirty e false }

def iunlock (s : State P) (p : P) (e : Ip) : State P :=
  if s.lock e ≠ some p ∨ (s.entry e).ref < 1 then { s with halt := some .iunlock }
  else { s with lock := update s.lock e none }

def putRef (s : State P) (p : P) (e : Ip) : State P :=
  ((s.goto p .idle).setEntry e { s.entry e with ref := (s.entry e).ref - 1 }).setMine p e
    (s.mine p e - 1)

/-- `iput` up to the first `release`. -/
def iput (s : State P) (p : P) (e : Ip) : State P :=
  if (s.entry e).ref = 1 ∧ (s.entry e).valid = true ∧ (s.entry e).din.nlink = 0 then
    if s.lock e = none then
      { s.goto p (.own .trunc e) with lock := update s.lock e (some p) }
    else { s with halt := some .asleep }
  else s.putRef p e

def own (s : State P) (p : P) (e : Ip) : Stage → State P
  | .loading => s.load p e
  | .loaded => (s.goto p (.own .validated e)).setEntry e { s.entry e with valid := true }
  | .validated => s.checkType p e
  | .trunc => (s.iupdate e).goto p (.own .saved e)
  | .saved => (s.modify e { (s.entry e).din with type := 0 }).goto p (.own .typeless e)
  | .typeless => (s.iupdate e).goto p (.own .freed e)
  | .freed => (s.goto p (.own .unvalid e)).setEntry e { s.entry e with valid := false }
  | .unvalid => { s.goto p (.drop e) with lock := update s.lock e none }

/-- A store of `itrunc` to the addresses or the size. -/
def itrunc (s : State P) (e : Ip) (addrs : Fin (ndirect + 1) → UInt32) (size : UInt32) : State P :=
  s.modify e { (s.entry e).din with addrs := addrs, size := size }

/-- One turn of the loop of `ialloc`. -/
def scan (ninodes : ℕ) (s : State P) (p : P) (dev : ℕ) (type : UInt16) (inum : ℕ) : State P :=
  if inum < ninodes then
    if (s.dinode (dev, inum)).type = 0 then
      { s.goto p (.getting dev inum) with
        dinode := update s.dinode (dev, inum) (.fresh type) }
    else s.goto p (.scan dev type (inum + 1))
  else { s with halt := some .ialloc }

/-- Hand a reference over, as `fork` does. -/
def give (s : State P) (p q : P) (e : Ip) : State P :=
  let s := s.setMine p e (s.mine p e - 1)
  s.setMine q e (s.mine q e + 1)

end State

/-- A process may give up one reference to `e`: it has one, and a lock it holds stays backed. -/
def Spare (s : State P) (p : P) (e : Ip) : Prop :=
  0 < s.mine p e ∧ (s.lock e = some p → 2 ≤ s.mine p e)

instance (s : State P) (p : P) (e : Ip) : Decidable (Spare s p e) :=
  inferInstanceAs (Decidable (_ ∧ _))

/-- **One step.** A process uses only references it holds, changes the fields of an entry only under
its lock and never to type `0`, and calls `iupdate` before `iunlock`. -/
def step (ninodes : ℕ) (s : State P) : Act P → Option (State P)
  | .iget p dev inum =>
    if s.halt = none ∧ s.pc p = .idle then some (s.iget p dev inum) else none
  | .idup p e => if s.halt = none ∧ s.pc p = .idle ∧ 0 < s.mine p e then some (s.idup p e) else none
  | .ilock p e =>
    if s.halt = none ∧ s.pc p = .idle ∧ 0 < s.mine p e then some (s.ilock p e) else none
  | .modify p e v =>
    if s.halt = none ∧ s.pc p = .idle ∧ s.lock e = some p ∧ v.type ≠ 0 then some (s.modify e v)
    else none
  | .iupdate p e =>
    if s.halt = none ∧ s.pc p = .idle ∧ s.lock e = some p then some (s.iupdate e) else none
  | .iunlock p e =>
    if s.halt = none ∧ s.pc p = .idle ∧ (s.lock e = some p → s.dirty e = false) then
      some (s.iunlock p e)
    else none
  | .iput p e =>
    if s.halt = none ∧ s.pc p = .idle ∧ Spare s p e then some (s.iput p e) else none
  | .ialloc p dev type =>
    if s.halt = none ∧ s.pc p = .idle ∧ type ≠ 0 then some (s.goto p (.scan dev type 1)) else none
  | .itrunc p addrs size =>
    if s.halt = none then
      match s.pc p with
      | .own .trunc e => some (s.itrunc e addrs size)
      | _ => none
    else none
  | .give p q e =>
    if s.halt = none ∧ s.pc p = .idle ∧ Spare s p e then some (s.give p q e) else none
  | .run p =>
    if s.halt = none then
      match s.pc p with
      | .idle => none
      | .locking e => if s.lock e = none then some (s.acquire p e) else none
      | .own st e => some (s.own p e st)
      | .drop e => some (s.putRef p e)
      | .scan dev type inum => some (s.scan ninodes p dev type inum)
      | .getting dev inum => some (s.iget p dev inum)
    else none

end Xv6.Icache
