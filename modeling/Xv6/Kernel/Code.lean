import Xv6.Vm.Code
import Xv6.Icache.Machine

/-!
# Processes and their memory

Functions of `kernel/proc.c` that take and give back physical pages. Each is a program over the kernel's state; it ends
in a panic or in a new state.

* `Proc`, `State`: the state. Of the inode cache and the log only the reference counts and the number of
  open transactions matter here.
* `allocproc`, `userinit`, `growproc`.
-/

namespace Xv6.Kernel

open Function Vm
open Icache (Ip)

abbrev Pid : Type := Fin nproc

/-- `UNUSED`; a process that has not exited (`SLEEPING`, `RUNNABLE`, `RUNNING`); `ZOMBIE`. -/
inductive PState
  | unused
  | live
  | zombie
  deriving DecidableEq

/-- `char name[16]`. -/
abbrev Name : Type := Fin 16 → UInt8

/-- `struct proc`, as far as memory is concerned. -/
structure Proc where
  state : PState
  sz : ℕ
  pagetable : ℕ
  tf : ℕ
  cwd : Option Ip
  name : Name

def Proc.zero : Proc := ⟨.unused, 0, 0, 0, none, fun _ => 0⟩

/-- A store of bytes through the page table `table`: memory before and after. -/
structure Store where
  table : ℕ
  before : Mem
  after : Mem

/-- **The kernel.** The pages of the kernel's own page table and the kernel stacks are fixed. `stores` is a
history: the copies of file contents and arguments by `exec`. -/
structure State where
  mem : Mem
  proc : Pid → Proc
  iref : Ip → ℕ
  outstanding : ℕ
  kpages : List ℕ
  kstack : Pid → ℕ
  stores : List Store

namespace State

def setMem (s : State) (m : Mem) : State := { s with mem := m }

def setProc (s : State) (p : Pid) (v : Proc) : State := { s with proc := update s.proc p v }

end State

abbrev KM (α : Type) : Type := StateT State (Except Panic) α

def onMem {α : Type} (x : MemM α) : KM α := fun s =>
  match x s.mem with
  | .ok (a, m) => .ok (a, s.setMem m)
  | .error e => .error e

def getProc (p : Pid) : KM Proc := fun s => .ok (s.proc p, s)

def setProc (p : Pid) (v : Proc) : KM Unit := modify (·.setProc p v)

/-! ## Inodes and the log -/

def beginOp : KM Unit := modify fun s => { s with outstanding := s.outstanding + 1 }

def endOp : KM Unit := modify fun s => { s with outstanding := s.outstanding - 1 }

def idup (e : Ip) : KM Unit :=
  modify fun s => { s with iref := update s.iref e (s.iref e + 1) }

def iput (e : Ip) : KM Unit :=
  modify fun s => { s with iref := update s.iref e (s.iref e - 1) }

/-! ## Processes -/

section

variable [Image]

/-- Look in the process table for an `UNUSED` slot, and give it a trapframe and an empty page table. -/
def allocproc : KM (Option Pid) := do
  let s ← get
  match (List.finRange nproc).find? fun p => (s.proc p).state = .unused with
  | none => pure none
  | some p => do
    let tf ← onMem kalloc
    if tf = 0 then do
      setProc p { s.proc p with tf := 0 }
      pure none
    else do
      let pagetable ← onMem (procPagetable tf)
      setProc p { s.proc p with tf := tf, pagetable := pagetable }
      pure (some p)

abbrev initproc : Pid := 0

/-- `safestrcpy` into a process name. A short string is followed by two zero bytes. -/
def safestrcpy (s : Name) (t : List UInt8) : Name := fun i =>
  if h : i.1 < 15 ∧ i.1 < t.length then t.get ⟨i.1, h.2⟩
  else if i.1 ≤ t.length + 1 then 0
  else s i

/-- `tf->epc`, `tf->sp`, `tf->a0`, `tf->a1`. -/
abbrev epcOff : ℕ := 24
abbrev spOff : ℕ := 48
abbrev a1Off : ℕ := 120

/-- Load the initcode into address `0` of a page table. -/
def uvminit (pagetable : ℕ) (src : List UInt8) : MemM Unit :=
  if pgsize ≤ src.length then throw .inituvm
  else do
    let mem ← kalloc
    if mem = 0 then throw .nopage
    else do
      memset mem 0
      let _ ← mappages pagetable 0 pgsize mem userPerm
      modify (·.write mem src)

/-- Set up the first user process. `initcode` is its program, `root` the inode of `/`. -/
def userinit (initcode : List UInt8) (root : Ip) : KM Unit := do
  match ← allocproc with
  | none => throw .nopage
  | some p => do
    let v ← getProc p
    onMem (uvminit v.pagetable initcode)
    onMem (writeWord (v.tf + epcOff) 0)
    onMem (writeWord (v.tf + spOff) pgsize)
    idup root
    setProc p { v with
      sz := pgsize, cwd := some root, state := .live
      name := safestrcpy v.name ("initcode".toUTF8.toList) }

/-- `sz + n` for a `uint` and an `int`. -/
def addInt (sz : ℕ) (n : Int32) : ℕ := (((sz : ℤ) + n.toInt) % 2 ^ 32).toNat

/-- Grow or shrink user memory by `n` bytes; `false` (`-1`) on failure. The size is a `uint` here. -/
def growproc (p : Pid) (n : Int32) : KM Bool := do
  let v ← getProc p
  let sz := v.sz % 2 ^ 32
  if 0 < n then do
    let sz' ← onMem (uvmalloc v.pagetable sz (addInt sz n))
    if sz' % 2 ^ 32 = 0 then pure false
    else do
      setProc p { v with sz := sz' % 2 ^ 32 }
      pure true
  else if n < 0 then do
    let sz' ← onMem (uvmdealloc v.pagetable sz (addInt sz n))
    setProc p { v with sz := sz' % 2 ^ 32 }
    pure true
  else do
    setProc p { v with sz := sz }
    pure true

end

end Xv6.Kernel
