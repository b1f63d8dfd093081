import Xv6.Lib.Monitor
import Xv6.Lib.Window

/-!
# The console

The input side of `kernel/console.c`, as code behind `cons.lock`. Interrupt handlers call `consoleintr` with the
characters that are typed, processes call `consoleread`.

* `Cons`: `cons.buf` and its three counters, and what has gone through them.
* **`consoleintr`**: what the handler does to them, and whether it calls `wakeup`.
* **`consoleCode`**: handler and readers, as code behind the lock.
-/

namespace Xv6.Console

open Monitor Window

abbrev inputBuf : ℕ := 128

instance : NeZero inputBuf := ⟨by decide⟩

/-! ## Characters -/

/-- `C('D')`: end of file. -/
abbrev ctrlD : UInt8 := 0x04

/-- `C('H')`: backspace. -/
abbrev ctrlH : UInt8 := 0x08

/-- `C('P')`: print the process list. -/
abbrev ctrlP : UInt8 := 0x10

/-- `C('U')`: kill the line. -/
abbrev ctrlU : UInt8 := 0x15

abbrev del : UInt8 := 0x7f

abbrev newline : UInt8 := 0x0a

abbrev carriageReturn : UInt8 := 0x0d

/-! ## The handler -/

/-- **`cons`**, without its lock: the buffer, and the read, write and edit counters. The last two fields are not in
the source: the bytes that were put at the disposal of readers so far, and the bytes that readers took. -/
structure Cons where
  buf : Fin inputBuf → UInt8
  r : UInt32
  w : UInt32
  e : UInt32
  committed : List UInt8
  taken : List UInt8

namespace Cons

def init : Cons := ⟨fun _ => 0, 0, 0, 0, [], []⟩

def erase (d : Cons) : Cons := { d with e := d.e - 1 }

/-- The loop for `^U`, with at most `n` turns. It stops at `cons.w`, so `cons.e - cons.w` turns are enough. -/
def killLoop : ℕ → Cons → Cons
  | 0, d => d
  | n + 1, d =>
    if d.e ≠ d.w ∧ d.buf (cell inputBuf (d.e - 1)) ≠ newline then killLoop n d.erase else d

def killLine (d : Cons) : Cons := killLoop (dist d.w d.e) d

/-- `cons.buf[cons.e++ % INPUT_BUF] = c`. -/
def append (d : Cons) (c : UInt8) : Cons :=
  { d with buf := Function.update d.buf (cell inputBuf d.e) c, e := d.e + 1 }

def commit (d : Cons) : Cons := { d with w := d.e, committed := d.committed ++ slice d.buf d.w d.e }

/-- `cons.buf[cons.r % INPUT_BUF]`. -/
def front (d : Cons) : UInt8 := d.buf (cell inputBuf d.r)

def next (d : Cons) : Cons := { d with r := d.r + 1, taken := d.taken ++ [d.front] }

/-- `cons.r--`, after `cons.r++`. -/
def putBack (d : Cons) : Cons := { d with r := d.r - 1, taken := d.taken.dropLast }

end Cons

/-- **The console input interrupt handler**, between `acquire` and `release`. The second result says that it calls
`wakeup(&cons.r)`. -/
def consoleintr (c : UInt8) (d : Cons) : Cons × Bool :=
  if c = ctrlP then (d, false)
  else if c = ctrlU then (d.killLine, false)
  else if c = ctrlH ∨ c = del then (if d.e ≠ d.w then d.erase else d, false)
  else if c ≠ 0 ∧ d.e - d.r < 128 then
    let c := if c = carriageReturn then newline else c
    let d := d.append c
    if c = newline ∨ c = ctrlD ∨ d.e = d.r + 128 then (d.commit, true) else (d, false)
  else (d, false)

/-! ## The code -/

/-- A user buffer: whether `dst + i` is mapped. -/
abbrev Dst : Type := ℕ → Bool

/-- **Where an agent is** in one of the functions. A reader has the variables `target` and `n`; `out` is what it has
copied to its buffer. -/
inductive Pc
  | intr (c : UInt8)
  | intrWake
  | intrLeave
  | readTest (dst : Dst) (target n : ℤ) (out : List UInt8)
  | readLeave (target n : ℤ) (out : List UInt8)

/-- What the calls return, and what they leave in the user buffer. -/
inductive Ret
  | intr
  | read (r : ℤ) (out : List UInt8)

def consoleread (dst : Dst) (n : ℤ) : Pc := .readTest dst n n []

/-- **The code.** The only channel is `&cons.r`. -/
def act (killed : Bool) : Pc → Cons → Act Cons Pc Unit Ret
  | .intr c, d =>
    if (consoleintr c d).2 then .go (consoleintr c d).1 .intrWake else .go (consoleintr c d).1 .intrLeave
  | .intrWake, _ => .wakeup () .intrLeave
  | .intrLeave, d => .leave d .intr
  | .readTest dst target n out, d =>
    if 0 < n then
      if d.r = d.w then
        if killed then .leave d (.read (-1) out) else .sleep () (.readTest dst target n out)
      else if d.front = ctrlD then
        if n < target then .go d.next.putBack (.readLeave target n out) else .go d.next (.readLeave target n out)
      else if dst out.length then
        if d.front = newline then .go d.next (.readLeave target (n - 1) (out ++ [d.front]))
        else .go d.next (.readTest dst target (n - 1) (out ++ [d.front]))
      else .go d.next (.readLeave target n out)
    else .go d (.readLeave target n out)
  | .readLeave target n out, d => .leave d (.read (target - n) out)

variable {P : Type}

/-- **The console of the processes `procs`.** -/
def consoleCode (procs : List P) : Code P Cons Pc Unit Ret where
  procs := procs
  live _ := true
  act _ := act
  env _ _ := none

end Xv6.Console
