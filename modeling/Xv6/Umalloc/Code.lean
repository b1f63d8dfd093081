import Xv6.Lib.Circle
import Xv6.Lib.Runs

/-!
# The allocator of user programs

`user/umalloc.c`, the allocator of Kernighan and Ritchie. Addresses are byte addresses; a header takes 16 bytes and
counts the units of its block, its own included, in a 32-bit number. The functions that loop get a number of turns,
and have no result when these do not suffice.

* `Heap`: the headers in memory, `freep`, and what has happened.
* `seek`, `link`, `free`: `free`. `morecore`, `scan`, `malloc`: `malloc`.
* **`step`**: a program that allocates, frees and uses its memory.
-/

namespace Xv6.Umalloc

structure Header where
  ptr : ℕ
  size : UInt32
  deriving DecidableEq

/-- A piece of memory, in units of a header. -/
structure Block where
  addr : ℕ
  units : ℕ
  deriving DecidableEq

def Block.stop (b : Block) : ℕ := b.addr + 16 * b.units

/-- A block that `malloc` has returned, and how many bytes it was asked for. -/
structure Given extends Block where
  n : UInt32
  deriving DecidableEq

/-- **The heap.** The last three fields are not in the source: the end of the memory `sbrk` has handed out, what it
has handed out, and the blocks the program has. -/
structure Heap where
  mem : ℕ → Header
  freep : ℕ
  brk : ℕ
  got : List Block
  out : List Given

namespace Heap

def write (s : Heap) (a : ℕ) (h : Header) : Heap := { s with mem := Function.update s.mem a h }

def setPtr (s : Heap) (a v : ℕ) : Heap := s.write a { s.mem a with ptr := v }

def setSize (s : Heap) (a : ℕ) (v : UInt32) : Heap := s.write a { s.mem a with size := v }

def setFreep (s : Heap) (p : ℕ) : Heap := { s with freep := p }

/-- `sbrk(n)` moves the end of memory by `n` bytes, from `gap` bytes after what it has handed out last. -/
def sbrk (s : Heap) (gap : ℕ) (n : ℤ) : Heap :=
  { s with brk := (s.brk + gap + n).toNat, got := s.got ++ [⟨s.brk + gap, n.toNat / 16⟩] }

end Heap

/-- `p + size`, for pointers to headers. -/
def after (p : ℕ) (size : UInt32) : ℕ := p + 16 * size.toNat

/-! ## free -/

def Seat (mem : ℕ → Header) (bp p : ℕ) : Prop :=
  (bp > p ∧ bp < (mem p).ptr) ∨ (p ≥ (mem p).ptr ∧ (bp > p ∨ bp < (mem p).ptr))

instance (mem : ℕ → Header) (bp : ℕ) : DecidablePred (Seat mem bp) := fun _ => inferInstanceAs (Decidable (_ ∨ _))

def seek (s : Heap) (bp fuel : ℕ) : Option ℕ := Circle.search (fun a => (s.mem a).ptr) (Seat s.mem bp) fuel s.freep

/-- `bp` is joined to the block after it, if that is free, or points to it. -/
def joinUp (s : Heap) (bp p : ℕ) : Heap :=
  if after bp (s.mem bp).size = (s.mem p).ptr then
    let s := s.setSize bp ((s.mem bp).size + (s.mem (s.mem p).ptr).size)
    s.setPtr bp (s.mem (s.mem p).ptr).ptr
  else s.setPtr bp (s.mem p).ptr

/-- `bp` is joined to the block before it, if that is free, or is pointed to by it. -/
def joinDown (s : Heap) (bp p : ℕ) : Heap :=
  if after p (s.mem p).size = bp then
    let s := s.setSize p ((s.mem p).size + (s.mem bp).size)
    s.setPtr p (s.mem bp).ptr
  else s.setPtr p bp

/-- What `free` does after its loop. -/
def link (s : Heap) (bp p : ℕ) : Heap := (joinDown (joinUp s bp p) bp p).setFreep p

def free (s : Heap) (ap fuel : ℕ) : Option Heap := (seek s (ap - 16) fuel).map (link s (ap - 16))

/-! ## malloc -/

/-- `sbrk` is asked for 4096 units at least. -/
def coreUnits (nu : UInt32) : UInt32 := if nu < 4096 then 4096 else nu

/-- `nu * sizeof(Header)`, as the `int` that `sbrk` gets. -/
def coreBytes (nu : UInt32) : ℤ := ((16 * nu.toNat : ℕ) : ℤ).bmod (2 ^ 32)

/-- Ask `sbrk` for memory. Of `gaps`, the first says where it is; when there are none, `sbrk` fails. The results are
those of `freep`, and `none` for the null pointer. -/
def morecore (s : Heap) (gaps : List ℕ) (nu : UInt32) (fuel : ℕ) : Option (Option (Heap × List ℕ)) :=
  let nu := coreUnits nu
  match gaps with
  | [] => some none
  | gap :: gaps =>
    let hp := s.brk + gap
    let s := (s.sbrk gap (coreBytes nu)).setSize hp nu
    (free s (hp + 16) fuel).map fun s => some (s, gaps)

/-- A block of `nunits` units is cut off the end of block `p`, or is all of it. -/
def carve (s : Heap) (nunits : UInt32) (prevp p : ℕ) : Heap × ℕ :=
  if (s.mem p).size = nunits then ((s.setPtr prevp (s.mem p).ptr).setFreep prevp, p + 16)
  else
    let s := s.setSize p ((s.mem p).size - nunits)
    let p := after p (s.mem p).size
    ((s.setSize p nunits).setFreep prevp, p + 16)

/-- The loop of `malloc`: the pointer is null when `sbrk` fails. -/
def scan (nunits : UInt32) : ℕ → Heap → List ℕ → ℕ → ℕ → Option (Heap × ℕ)
  | 0, _, _, _, _ => none
  | fuel + 1, s, gaps, prevp, p =>
    if (s.mem p).size ≥ nunits then some (carve s nunits prevp p)
    else if p = s.freep then
      match morecore s gaps nunits fuel with
      | none => none
      | some none => some (s, 0)
      | some (some (s, gaps)) => scan nunits fuel s gaps s.freep (s.mem s.freep).ptr
    else scan nunits fuel s gaps p (s.mem p).ptr

/-- `(nbytes + sizeof(Header) - 1)/sizeof(Header) + 1`; `sizeof` is a 64-bit number. -/
def nunits (nbytes : UInt32) : UInt32 := ((nbytes.toUInt64 + 16 - 1) / 16 + 1).toUInt32

def start (base : ℕ) (s : Heap) : Heap :=
  if s.freep = 0 then ((s.setFreep base).setPtr base base).setSize base 0 else s

def malloc (base : ℕ) (s : Heap) (nbytes : UInt32) (gaps : List ℕ) (fuel : ℕ) : Option (Heap × ℕ) :=
  let s := start base s
  scan (nunits nbytes) fuel s gaps s.freep (s.mem s.freep).ptr

/-! ## Programs -/

inductive Ev
  | malloc (nbytes : UInt32) (gaps : List ℕ) (fuel : ℕ)
  | free (ap fuel : ℕ)
  | write (a : ℕ) (h : Header)

def Heap.give (s : Heap) (nbytes : UInt32) (p : ℕ) : Heap :=
  if p = 0 then s else { s with out := ⟨⟨p - 16, (s.mem (p - 16)).size.toNat⟩, nbytes⟩ :: s.out }

def Heap.takeBack (s : Heap) (ap : ℕ) : Heap := { s with out := s.out.filter fun o => o.addr + 16 ≠ ap }

def step (base : ℕ) (s : Heap) : Ev → Option Heap
  | .malloc nbytes gaps fuel => (malloc base s nbytes gaps fuel).map fun r => r.1.give nbytes r.2
  | .free ap fuel => (free s ap fuel).map (·.takeBack ap)
  | .write a h => some (s.write a h)

/-- The program makes `malloc` ask `sbrk` for less than 2 GiB, frees what it has, and writes to what it has. -/
def Proper (s : Heap) : Ev → Prop
  | .malloc nbytes gaps _ => gaps = [] ∨ 16 * (nunits nbytes).toNat < 2 ^ 31
  | .free ap _ => ∃ o ∈ s.out, ap = o.addr + 16
  | .write a _ => ∃ o ∈ s.out, o.addr + 16 ≤ a ∧ a + 16 ≤ o.stop

/-- Before the first call, with anything in memory. -/
def Heap.init (mem : ℕ → Header) (brk : ℕ) : Heap := ⟨mem, 0, brk, [], []⟩

end Xv6.Umalloc
