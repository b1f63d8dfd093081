import Xv6.Lib.Monitor
import Xv6.Lib.Window

/-!
# Pipes

`kernel/pipe.c`, as code behind the lock of one pipe. Processes of any number call `pipewrite`, `piperead` and
`pipeclose` on it, and are killed.

* `Pipe`: `struct pipe`, and what has gone through it. `Pc`: where a process is inside a call.
* **`pipeCode`**: the three functions. Each action is what the source does between two tests of a loop; `wakeup`
  and `sleep` are those of the library.
-/

namespace Xv6.Pipes

open Monitor Window

abbrev pipeSize : ℕ := 512

/-- **`struct pipe`**, without its lock. `freed`: the page was given to `kfree`. The last two fields are not in the
source: the bytes taken from writers so far, and the bytes copied to readers. -/
structure Pipe where
  data : Fin pipeSize → UInt8
  nread : UInt32
  nwrite : UInt32
  readopen : Bool
  writeopen : Bool
  freed : Bool
  accepted : List UInt8
  delivered : List UInt8

namespace Pipe

def alloc (data : Fin pipeSize → UInt8) : Pipe := ⟨data, 0, 0, true, true, false, [], []⟩

def buffered (d : Pipe) : List UInt8 := slice d.data d.nread d.nwrite

def Full (d : Pipe) : Prop := d.nwrite = d.nread + 512

instance (d : Pipe) : Decidable d.Full := inferInstanceAs (Decidable (_ = _))

/-- `pi->data[pi->nwrite++ % PIPESIZE] = ch`. -/
def push (d : Pipe) (ch : UInt8) : Pipe :=
  { d with
    data := Function.update d.data (cell pipeSize d.nwrite) ch
    nwrite := d.nwrite + 1
    accepted := d.accepted ++ [ch] }

/-- `pi->data[pi->nread % PIPESIZE]`. -/
def front (d : Pipe) : UInt8 := d.data (cell pipeSize d.nread)

def pop (d : Pipe) : Pipe := { d with nread := d.nread + 1 }

/-- A byte was copied to a reader. -/
def deliver (d : Pipe) (ch : UInt8) : Pipe := { d with delivered := d.delivered ++ [ch] }

def close (d : Pipe) (writable : Bool) : Pipe :=
  if writable then { d with writeopen := false } else { d with readopen := false }

/-- `kfree` if both ends are. -/
def free (d : Pipe) : Pipe := if d.readopen = false ∧ d.writeopen = false then { d with freed := true } else d

end Pipe

/-- The channels `&pi->nread` and `&pi->nwrite`. -/
inductive Chan
  | nread
  | nwrite
  deriving DecidableEq

/-- The bytes of a user buffer that is read: those at `addr + i`, where they are mapped. -/
abbrev Src : Type := ℕ → Option UInt8

/-- A user buffer that is written: whether `addr + i` is mapped. -/
abbrev Dst : Type := ℕ → Bool

/-- **Where a process is** in one of the functions. In `writeTest`, `stored` says that it has stored a byte since
it took the lock; the code does not keep it. -/
inductive Pc
  | writeTest (src : Src) (n : ℤ) (i : ℕ) (stored : Bool)
  | writeSleep (src : Src) (n : ℤ) (i : ℕ)
  | writeWake (n : ℤ)
  | writeLeave (n : ℤ)
  | readTest (dst : Dst) (n : ℤ)
  | readCopy (dst : Dst) (n : ℤ) (i : ℕ)
  | readWake (n : ℤ) (i : ℕ)
  | readLeave (n : ℤ) (i : ℕ)
  | closeSet (writable : Bool)
  | closeWake (writable : Bool)
  | closeLeave

/-- What the calls return; `n` is the argument of `piperead`. -/
inductive Ret
  | write (r : ℤ)
  | read (n r : ℤ)
  | close

def pipewrite (src : Src) (n : ℤ) : Pc := .writeTest src n 0 false

def piperead (dst : Dst) (n : ℤ) : Pc := .readTest dst n

def pipeclose (writable : Bool) : Pc := .closeSet writable

def act (killed : Bool) : Pc → Pipe → Act Pipe Pc Chan Ret
  | .writeTest src n i _, d =>
    if i < n then
      if d.Full then
        if d.readopen = false ∨ killed = true then .leave d (.write (-1))
        else .wakeup .nread (.writeSleep src n i)
      else
        match src i with
        | none => .go d (.writeWake n)
        | some ch => .go (d.push ch) (.writeTest src n (i + 1) true)
    else .go d (.writeWake n)
  | .writeSleep src n i, _ => .sleep .nwrite (.writeTest src n i false)
  | .writeWake n, _ => .wakeup .nread (.writeLeave n)
  | .writeLeave n, d => .leave d (.write n)
  | .readTest dst n, d =>
    if d.nread = d.nwrite ∧ d.writeopen = true then
      if killed = true then .leave d (.read n (-1)) else .sleep .nread (.readTest dst n)
    else .go d (.readCopy dst n 0)
  | .readCopy dst n i, d =>
    if i < n then
      if d.nread = d.nwrite then .go d (.readWake n i)
      else if dst i then .go (d.pop.deliver d.front) (.readCopy dst n (i + 1))
      else .go d.pop (.readWake n i)
    else .go d (.readWake n i)
  | .readWake n i, _ => .wakeup .nwrite (.readLeave n i)
  | .readLeave n i, d => .leave d (.read n i)
  | .closeSet writable, d => .go (d.close writable) (.closeWake writable)
  | .closeWake writable, _ => .wakeup (if writable then .nread else .nwrite) .closeLeave
  | .closeLeave, d => .leave d.free .close

variable {P : Type}

/-- **The pipe of the processes `procs`.** -/
def pipeCode (procs : List P) : Code P Pipe Pc Chan Ret where
  procs := procs
  live d := !d.freed
  act _ := act
  env _ _ := none

def Pc.Entry : Pc → Prop
  | .writeTest _ _ i stored => i = 0 ∧ stored = false
  | .readTest _ _ => True
  | .closeSet _ => True
  | _ => False

end Xv6.Pipes
