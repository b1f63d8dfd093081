import Xv6.Param
import Xv6.Lib.Bytes
import Xv6.Lib.Prog

/-!
# The code of the redo log

`kernel/log.c` as programs over the buffer interface of `kernel/bio.c`. `H` is the type of buffer
pointers: the programs are run against a disk that may lose power (`Xv6.Log.Crash`) and against
the buffer cache.

* `headerN`, `getHeader`, `putHeader`: the on-disk `struct logheader`; **`getHeader_putHeader`**.
* `writeLog`, `writeHead`, `readHead`, `installTrans`, `recoverFromLog`, `initlog`, `commit`.
-/

namespace Xv6

abbrev Block : Type := Bytes.Mem bsize

/-- The C `int` of a 32-bit word. -/
def int32 (w : ℕ) : ℤ := if w < 2 ^ 31 then w else (w : ℤ) - 2 ^ 32

/-- Commands of the buffer cache, and access to `log[dev].lh`. The device is fixed. `fault` is a
panic or an access outside an array. -/
inductive BufCmd (H : Type)
  | bread (b : ℕ)
  | data (h : H)
  | setData (h : H) (d : Block)
  | bwrite (h : H)
  | brelse (h : H)
  | bunpin (h : H)
  | getLh
  | setLh (lh : LogHeader)
  | fault

@[reducible] def BufCmd.Ans {H : Type} : BufCmd H → Type
  | .bread _ => H
  | .data _ => Block
  | .getLh => LogHeader
  | .fault => Empty
  | _ => Unit

abbrev BufProg (H : Type) : Type → Type := Prog (BufCmd H) BufCmd.Ans

namespace Log

open Bytes

/-! ## The header block -/

/-- `lh->n` in a header block. -/
def headerN (d : Block) : ℤ := int32 (load d 0 4)

/-- `lh->block[i]` in a header block. -/
def headerBlock (d : Block) (i : ℕ) : ℕ := load d (4 + 4 * i) 4

/-- The loop of `read_head`; `none` when it would run past `block[LOGSIZE]`. A negative `n` copies
nothing. -/
def getHeader (d : Block) : Option LogHeader :=
  if h : headerN d ≤ logSize then
    some ⟨(List.range (headerN d).toNat).map (headerBlock d), by simp; omega, by
      intro b hb
      obtain ⟨i, -, rfl⟩ := List.mem_map.1 hb
      exact load_lt d _ 4⟩
  else none

/-- `write_head`'s changes to the header block; its other bytes stay. -/
def putHeader (lh : LogHeader) (d : Block) : Block := storeWords (store d 0 4 lh.n) 4 lh.block

theorem headerN_putHeader (lh : LogHeader) (d : Block) : headerN (putHeader lh d) = lh.n := by
  have hn : lh.n < 2 ^ 31 := lt_of_le_of_lt lh.fits (by decide)
  rw [headerN, putHeader, load_storeWords_of_le (by omega), load_store_same (by decide),
    Nat.mod_eq_of_lt (by omega), int32, if_pos hn]

/-- **`read_head` reads what `write_head` wrote.** -/
theorem getHeader_putHeader (lh : LogHeader) (d : Block) :
    getHeader (putHeader lh d) = some lh := by
  have hn := headerN_putHeader lh d
  have hfits : lh.block.length ≤ 30 := lh.fits
  rw [getHeader, dif_pos (by rw [hn]; exact_mod_cast hfits)]
  refine congrArg some (LogHeader.ext_block (List.ext_getElem ?_ fun j h₁ h₂ => ?_))
  · simp [hn, LogHeader.n]
  · have := load_storeWords (d := store d 0 4 lh.n)
      (show 4 + 4 * lh.block.length ≤ bsize by change _ ≤ 1024; omega) lh.word h₂
    simpa [putHeader, headerBlock] using this

theorem getHeader_of_zero {d : Block} (h : headerN d = 0) : getHeader d = some .empty := by
  rw [getHeader, dif_pos (by rw [h]; decide)]
  exact congrArg some (LogHeader.ext_block (by simp [h]))

theorem n_of_getHeader {d : Block} {lh : LogHeader} (h : getHeader d = some lh) :
    lh.n = (headerN d).toNat := by
  unfold getHeader at h
  split_ifs at h
  cases h
  simp [LogHeader.n]

/-! ## The programs -/

section Code

variable {H : Type}

def bread (b : ℕ) : BufProg H H := .perform (BufCmd.bread b)
def data (h : H) : BufProg H Block := .perform (BufCmd.data h)
def setData (h : H) (d : Block) : BufProg H Unit := .perform (BufCmd.setData h d)
def bwrite (h : H) : BufProg H Unit := .perform (BufCmd.bwrite h)
def brelse (h : H) : BufProg H Unit := .perform (BufCmd.brelse h)
def bunpin (h : H) : BufProg H Unit := .perform (BufCmd.bunpin h)
def getLh : BufProg H LogHeader := .perform BufCmd.getLh
def setLh (lh : LogHeader) : BufProg H Unit := .perform (BufCmd.setLh lh)

variable (g : Geometry)

/-- Copy committed block `tail` from the log to its home location `b`. -/
def installBlock (tail b : ℕ) : BufProg H Unit := do
  let lbuf ← bread (g.start + tail + 1)
  let dbuf ← bread b
  let d ← data lbuf
  setData dbuf d
  bwrite dbuf
  bunpin dbuf
  brelse lbuf
  brelse dbuf

def installTrans : BufProg H Unit := do
  let lh ← getLh
  .forEnum (installBlock g) 0 lh.block

def readHead : BufProg H Unit := do
  let buf ← bread g.start
  let d ← data buf
  match getHeader d with
  | some lh => setLh lh
  | none => .cmd .fault nofun
  brelse buf

def writeHead : BufProg H Unit := do
  let buf ← bread g.start
  let lh ← getLh
  let d ← data buf
  setData buf (putHeader lh d)
  bwrite buf
  brelse buf

def recoverFromLog : BufProg H Unit := do
  readHead g
  installTrans g
  setLh .empty
  writeHead g

/-- `initlog`: `log[dev].start` and `log[dev].size` are the geometry. -/
def initlog : BufProg H Unit :=
  if 4 + 4 * logSize ≥ bsize then .cmd .fault nofun else recoverFromLog g

/-- Copy modified block `b` from cache to log block `tail`. -/
def logBlock (tail b : ℕ) : BufProg H Unit := do
  let tbuf ← bread (g.start + tail + 1)
  let fbuf ← bread b
  let d ← data fbuf
  setData tbuf d
  bwrite tbuf
  brelse fbuf
  brelse tbuf

def writeLog : BufProg H Unit := do
  let lh ← getLh
  .forEnum (logBlock g) 0 lh.block

def commit : BufProg H Unit := do
  let lh ← getLh
  if lh.n > 0 then
    writeLog g
    writeHead g
    installTrans g
    setLh .empty
    writeHead g

end Code

end Log

end Xv6
