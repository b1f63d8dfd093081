import Xv6.Kernel.Code

/-!
# `exec`

`exec` and `loadseg` of `kernel/exec.c`. The file is given by its bytes, so `namei` is the choice of a file, or of
none; what `readi` returns for it is `Content.readi`.

* `Content`, `Elfhdr`, `Proghdr`: the file.
* `loadseg`, `loadPhdrs`, `pushArgs`, **`exec`**.
-/

namespace Xv6.Kernel

open Vm
open Icache (Ip)

/-! ## Files -/

structure Content where
  bytes : List UInt8
  size_le : bytes.length ≤ maxFile * bsize

/-- `readi` into kernel memory: `none` for `-1`, or the bytes that are copied, maybe fewer than `n`. -/
def Content.readi (f : Content) (off n : ℕ) : Option (List UInt8) :=
  if f.bytes.length < off ∨ (off + n) % 2 ^ 32 < off then none
  else some ((f.bytes.drop off).take n)

def field (bytes : List UInt8) (off n : ℕ) : ℕ :=
  ((bytes.drop off).take n).foldr (fun b x => b.toNat + 256 * x) 0

/-- `struct elfhdr`, as far as `exec` looks at it. -/
structure Elfhdr where
  magic : ℕ
  entry : ℕ
  phoff : ℕ
  phnum : ℕ
  deriving DecidableEq

/-- `sizeof(struct elfhdr)` and `sizeof(struct proghdr)`. -/
abbrev elfhdrSize : ℕ := 64
abbrev proghdrSize : ℕ := 56

abbrev elfMagic : ℕ := 0x464C457F

abbrev elfProgLoad : ℕ := 1

def Elfhdr.parse (b : List UInt8) : Elfhdr := ⟨field b 0 4, field b 24 8, field b 32 8, field b 56 2⟩

/-- `struct proghdr`, as far as `exec` looks at it. -/
structure Proghdr where
  type : ℕ
  off : ℕ
  vaddr : ℕ
  filesz : ℕ
  memsz : ℕ
  deriving DecidableEq

def Proghdr.parse (b : List UInt8) : Proghdr :=
  ⟨field b 0 4, field b 8 8, field b 16 8, field b 32 8, field b 40 8⟩

/-- Read a structure of `n` bytes; `none` if `readi` does not return `n`. -/
def Content.readExact (f : Content) (off n : ℕ) : Option (List UInt8) :=
  match f.readi off n with
  | some b => if b.length = n then some b else none
  | none => none

/-- The ELF header, if it is there and has the right magic number. -/
def Content.elfhdr (f : Content) : Option Elfhdr :=
  match f.readExact 0 elfhdrSize with
  | some b => if (Elfhdr.parse b).magic = elfMagic then some (Elfhdr.parse b) else none
  | none => none

def Content.proghdr (f : Content) (off : ℕ) : Option Proghdr :=
  (f.readExact off proghdrSize).map Proghdr.parse

/-- An argument string, without its final zero byte. Its length is an `int`. -/
structure Str where
  chars : List UInt8
  nonzero : ∀ c ∈ chars, c ≠ 0
  length_lt : chars.length + 1 < 2 ^ 31

/-! ## Loading -/

section

variable [Image]

/-- A copy of file contents or arguments, entered in the history. -/
def storing {α : Type} (pagetable : ℕ) (x : MemM α) : KM α := do
  let s ← get
  let a ← onMem x
  modify fun t => { t with stores := ⟨pagetable, s.mem, t.mem⟩ :: t.stores }
  pure a

/-- The loop of `loadseg` from `i` on. `i` is a `uint`, so it takes `2 ^ 20` different values. -/
def loadLoop (pagetable va : ℕ) (f : Content) (offset sz : ℕ) : ℕ → ℕ → KM Bool
  | 0, i => if i < sz then throw .endless else pure true
  | k + 1, i =>
    if i < sz then do
      let pa ← onMem (walkaddr pagetable ((va + i) % 2 ^ 64))
      if pa = 0 then throw .loadsegAddress
      else do
        let n := if sz - i < pgsize then sz - i else pgsize
        match f.readi ((offset + i) % 2 ^ 32) n with
        | none => pure false
        | some b => do
          storing pagetable (modify (·.write pa b))
          if b.length = n then loadLoop pagetable va f offset sz k ((i + pgsize) % 2 ^ 32)
          else pure false
    else pure true

/-- Load a program segment into `pagetable` at virtual address `va`; `false` (`-1`) on failure. -/
def loadseg (pagetable va : ℕ) (f : Content) (offset sz : ℕ) : KM Bool :=
  if va % pgsize ≠ 0 then throw .loadsegAligned
  else loadLoop pagetable va f offset sz (2 ^ 20) 0

/-- The loop of `exec` over the program headers, with `n` of them left: the value of `sz`, and `false` for
`goto bad`. The offset is an `int`, and goes to `readi` as a `uint`. -/
def loadPhdrs (f : Content) (pagetable : ℕ) : ℕ → ℕ → ℕ → KM (Bool × ℕ)
  | 0, _, sz => pure (true, sz)
  | n + 1, off, sz =>
    match f.proghdr off with
    | none => pure (false, sz)
    | some ph =>
      if ph.type ≠ elfProgLoad then loadPhdrs f pagetable n ((off + proghdrSize) % 2 ^ 32) sz
      else if ph.memsz < ph.filesz then pure (false, sz)
      else if (ph.vaddr + ph.memsz) % 2 ^ 64 < ph.vaddr then pure (false, sz)
      else do
        let sz ← onMem (uvmalloc pagetable sz ((ph.vaddr + ph.memsz) % 2 ^ 64))
        if sz = 0 then pure (false, 0)
        else if ph.vaddr % pgsize ≠ 0 then pure (false, sz)
        else do
          let ok ← loadseg pagetable ph.vaddr f (ph.off % 2 ^ 32) (ph.filesz % 2 ^ 32)
          if ok then loadPhdrs f pagetable n ((off + proghdrSize) % 2 ^ 32) sz else pure (false, sz)

/-- `sp -= len; sp -= sp % 16`, on 64-bit numbers. -/
def pushSp (sp len : ℕ) : ℕ :=
  let sp := (sp + (2 ^ 64 - len % 2 ^ 64)) % 2 ^ 64
  sp - sp % 16

abbrev maxArg : ℕ := 32

/-- The loop of `exec` over the argument strings, `argc` of which have been pushed: the stack pointer and
the addresses of the strings; `none` for `goto bad`. -/
def pushArgs (pagetable stackbase : ℕ) : List Str → ℕ → List ℕ → KM (Option (ℕ × List ℕ))
  | [], sp, ustack => pure (some (sp, ustack))
  | s :: argv, sp, ustack =>
    if maxArg ≤ ustack.length then pure none
    else if pushSp sp (s.chars.length + 1) < stackbase then pure none
    else do
      let sp := pushSp sp (s.chars.length + 1)
      let ok ← storing pagetable (copyout pagetable sp (s.chars ++ [0]))
      if ok then pushArgs pagetable stackbase argv sp (ustack ++ [sp]) else pure none

def wordBytes (l : List ℕ) : List UInt8 :=
  l.flatMap fun x => (List.range 8).map fun i => UInt8.ofNat (x / 256 ^ i)

/-- Push the argument strings and then the array of `argv[]` pointers. -/
def pushStack (pagetable sz : ℕ) (argv : List Str) : KM (Option ℕ) := do
  match ← pushArgs pagetable (sz - pgsize) argv sz [] with
  | none => pure none
  | some (sp, ustack) =>
    if pushSp sp ((ustack.length + 1) * 8) < sz - pgsize then pure none
    else do
      let sp := pushSp sp ((ustack.length + 1) * 8)
      let ok ← storing pagetable (copyout pagetable sp (wordBytes (ustack ++ [0])))
      if ok then pure (some sp) else pure none

def lastName (path : List UInt8) : List UInt8 := (path.reverse.takeWhile (· ≠ 47)).reverse

def doneFile (ip : Ip) : KM Unit := do
  iput ip
  endOp

def commit (p : Pid) (path : List UInt8) (elf : Elfhdr) (pagetable sz sp : ℕ) : KM Unit := do
  let v ← getProc p
  onMem (writeWord (v.tf + a1Off) sp)
  setProc p { v with name := safestrcpy v.name (lastName path), pagetable := pagetable, sz := sz }
  onMem (writeWord (v.tf + epcOff) elf.entry)
  onMem (writeWord (v.tf + spOff) sp)
  onMem (procFreepagetable v.pagetable v.sz)

/-- `exec` after the segments are loaded: the user stack, the arguments and the commit. -/
def execStack (p : Pid) (path : List UInt8) (elf : Elfhdr) (argv : List Str) (pagetable sz : ℕ) :
    KM (Option ℕ) := do
  let base := pgRoundUp sz
  let sz ← onMem (uvmalloc pagetable base ((base + 2 * pgsize) % 2 ^ 64))
  if sz = 0 then do
    onMem (procFreepagetable pagetable 0)
    pure none
  else do
    onMem (uvmclear pagetable (sz - 2 * pgsize))
    match ← pushStack pagetable sz argv with
    | none => do
      onMem (procFreepagetable pagetable sz)
      pure none
    | some sp => do
      commit p path elf pagetable sz sp
      pure (some argv.length)

/-- **`exec`** of the file that `namei` found, with its inode: `argc`, or `none` for `-1`. -/
def exec (p : Pid) (path : List UInt8) (found : Option (Ip × Content)) (argv : List Str) :
    KM (Option ℕ) := do
  beginOp
  match found with
  | none => do
    endOp
    pure none
  | some (ip, f) => do
    idup ip
    match f.elfhdr with
    | none => do
      doneFile ip
      pure none
    | some elf => do
      let v ← getProc p
      let pagetable ← onMem (procPagetable v.tf)
      let (ok, sz) ← loadPhdrs f pagetable elf.phnum (elf.phoff % 2 ^ 32) 0
      if ok then do
        doneFile ip
        execStack p path elf argv pagetable sz
      else do
        onMem (procFreepagetable pagetable sz)
        doneFile ip
        pure none

def kfreeAll : List ℕ → MemM Unit
  | [] => pure ()
  | a :: l => do
    kfree a
    kfreeAll l

end

end Xv6.Kernel
