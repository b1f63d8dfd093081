import Xv6.Lib.Monitor
import Xv6.Lib.Window

/-!
# The disk driver

`kernel/virtio_disk.c` for one disk, as code behind `vdisk_lock`, and the device, which works on its own. A request
is a chain of three descriptors; the driver puts its head into the available ring, the device puts it into the used
ring when it is done.

* `Disk`: `struct disk`, the fields `disk` of the buffers, what the device has in hand, and what has happened.
* `allocDesc`, `freeDesc`, `Disk.fill`, `Disk.handle`: the pieces of the driver.
* `consume`, `complete`: the device takes an entry of the available ring, and reports a chain in the used ring.
* **`diskCode`**: `virtio_disk_rw` and `virtio_disk_intr`, as code behind the lock.
-/

namespace Xv6.Virtio

open Function Monitor

abbrev num : ℕ := 8

/-- What a descriptor points to: nothing, `buf0` with its type and sector, the data of a buffer, the status byte of
a chain. -/
inductive Addr (B : Type)
  | zero
  | header (type : UInt32) (sector : UInt64)
  | data (b : B)
  | status (i : Fin num)

structure Desc (B : Type) where
  addr : Addr B
  len : UInt32
  flags : UInt16
  next : ℕ

/-- `VRING_DESC_F_NEXT`: chained with another descriptor. -/
abbrev descNext : UInt16 := 1

/-- `VRING_DESC_F_WRITE`: the device writes. -/
abbrev descWrite : UInt16 := 2

def Desc.hasNext {B : Type} (v : Desc B) : Bool := v.flags &&& descNext ≠ 0

structure Info (B : Type) where
  b : Option B
  status : UInt8

/-- A chain the device has in hand: its head, the buffer whose data it moves, and where its status goes. -/
structure Request (B : Type) where
  head : Fin num
  buf : Option B
  stat : Option (Fin num)

/-- The panics, and `wild`: the driver follows an index or a pointer that is none. -/
inductive Panic
  | intr1
  | intr2
  | status
  | wild
  deriving DecidableEq

/-- **The disk.** `avail`, `availIdx` are `avail[2...]` and `avail[1]`; `used`, `usedId` are the ids of `used->elems`
and `used->id`; `bdisk b` is `b->disk`. The device has taken entries of the available ring up to `seen` and has the
chains `pending` in hand. The last five fields are not in the source: the buffers of the requests that were made, how
many the device has taken, the buffers it has finished, the heads it has reported, and those that were handled. -/
structure Disk (B : Type) where
  desc : Fin num → Desc B
  availIdx : UInt16
  avail : Fin num → ℕ
  usedId : UInt16
  used : Fin num → ℕ
  free : Fin num → Bool
  usedIdx : UInt16
  info : Fin num → Info B
  bdisk : B → Bool
  panic : Option Panic
  seen : UInt16
  pending : List (Request B)
  started : List B
  consumed : ℕ
  finished : List (Option B)
  reported : List ℕ
  handled : List ℕ

abbrev ringCell (i : UInt16) : Fin num := Fin.ofNat num i.toNat

section

variable {B : Type} [DecidableEq B]

def Disk.init : Disk B where
  desc _ := ⟨.zero, 0, 0, 0⟩
  availIdx := 0
  avail _ := 0
  usedId := 0
  used _ := 0
  free _ := true
  usedIdx := 0
  info _ := ⟨none, 0⟩
  bdisk _ := false
  panic := none
  seen := 0
  pending := []
  started := []
  consumed := 0
  finished := []
  reported := []
  handled := []

/-! ## The driver -/

def allocDesc (d : Disk B) : Option (Fin num) := (List.finRange num).find? d.free

namespace Disk

def take (d : Disk B) (i : Fin num) : Disk B := { d with free := update d.free i false }

def clearAddr (d : Disk B) (i : Fin num) : Disk B :=
  { d with desc := update d.desc i { d.desc i with addr := .zero } }

def put (d : Disk B) (i : Fin num) : Disk B := { d with free := update d.free i true }

/-- The sector of block `blockno`; the product is one of 32-bit numbers. -/
def sectorOf (blockno : UInt32) : UInt64 := (blockno * 2).toUInt64

/-- Format the three descriptors, record the buffer, and put the head into the available ring, behind the last
entry the device may look at. -/
def fill (d : Disk B) (blockno : UInt32) (b : B) (write : Bool) (i j k : Fin num) : Disk B :=
  { d with
    desc := update (update (update d.desc
        i ⟨.header (if write then 1 else 0) (sectorOf blockno), 16, descNext, j⟩)
        j ⟨.data b, 1024, (if write then 0 else descWrite) ||| descNext, k⟩)
        k ⟨.status i, 1, descWrite, 0⟩
    info := update d.info i ⟨some b, 0⟩
    bdisk := update d.bdisk b true
    avail := update d.avail (ringCell d.availIdx) i }

/-- `avail[1] = avail[1] + 1`. -/
def publish (d : Disk B) (b : B) : Disk B := { d with availIdx := d.availIdx + 1, started := d.started ++ [b] }

def forget (d : Disk B) (i : Fin num) : Disk B :=
  { d with info := update d.info i { d.info i with b := none } }

/-- `b->disk = 0`, for the chain that was reported with this head. -/
def done (d : Disk B) (b : B) (id : ℕ) : Disk B :=
  { d with bdisk := update d.bdisk b false, handled := d.handled ++ [id] }

/-- `used_idx = (used_idx + 1) % NUM`. -/
def advance (d : Disk B) : Disk B := { d with usedIdx := (d.usedIdx + 1) % 8 }

def fail (d : Disk B) (e : Panic) : Disk B := { d with panic := some e }

end Disk

/-- **Mark a descriptor as free**, up to the `wakeup` at the end. -/
def freeDesc (i : ℕ) (d : Disk B) : Except Panic (Disk B) :=
  if h : i < num then
    if d.free ⟨i, h⟩ then .error .intr2 else .ok ((d.clearAddr ⟨i, h⟩).put ⟨i, h⟩)
  else .error .intr1

/-- **One turn of the loop of `virtio_disk_intr`**, up to the `wakeup`: the buffer that is done. -/
def handle (d : Disk B) : Except Panic (B × Disk B) :=
  if h : d.usedIdx.toNat < num then
    let id := d.used ⟨d.usedIdx.toNat, h⟩
    if hid : id < num then
      if (d.info ⟨id, hid⟩).status ≠ 0 then .error .status
      else
        match (d.info ⟨id, hid⟩).b with
        | none => .error .wild
        | some b => .ok (b, d.done b id)
    else .error .wild
  else .error .wild

/-! ## The device -/

def follow (d : Disk B) (i : Fin num) : Option (Fin num) :=
  if (d.desc i).hasNext then if h : (d.desc i).next < num then some ⟨(d.desc i).next, h⟩ else none else none

def chainBuf (d : Disk B) (i : Fin num) : Option B :=
  (follow d i).bind fun j =>
    match (d.desc j).addr with
    | .data b => some b
    | _ => none

def chainStat (d : Disk B) (i : Fin num) : Option (Fin num) :=
  ((follow d i).bind (follow d)).bind fun k =>
    match (d.desc k).addr with
    | .status s => some s
    | _ => none

/-- **The device takes an entry of the available ring.** -/
def consume (d : Disk B) : Option (Disk B) :=
  if d.seen = d.availIdx then none
  else
    if h : d.avail (ringCell d.seen) < num then
      let head : Fin num := ⟨d.avail (ringCell d.seen), h⟩
      some { d with
        seen := d.seen + 1
        pending := d.pending ++ [⟨head, chainBuf d head, chainStat d head⟩]
        consumed := d.consumed + 1 }
    else none

def Disk.setStatus (d : Disk B) (i : Fin num) : Disk B :=
  { d with info := update d.info i { d.info i with status := 0 } }

def Disk.report (d : Disk B) (r : Request B) (k : ℕ) : Disk B :=
  { d with
    used := update d.used (ringCell d.usedId) r.head
    usedId := d.usedId + 1
    pending := d.pending.eraseIdx k
    finished := d.finished ++ [r.buf]
    reported := d.reported ++ [r.head.val] }

/-- **The device finishes a chain** it has in hand, any one. -/
def complete (k : ℕ) (d : Disk B) : Option (Disk B) :=
  match d.pending[k]? with
  | none => none
  | some r =>
    match r.stat with
    | none => none
    | some s => some ((d.setStatus s).report r k)

/-! ## The code -/

/-- The channels `&disk.free[0]` and `b`. -/
inductive Chan (B : Type)
  | free
  | buf (b : B)
  deriving DecidableEq

/-- **Where an agent is.** Of `alloc3_desc` it has the descriptors `got`; when there are not enough, it has `todo` to
free. In `free_chain` it is at descriptor `i`; `rest` are those of its chain it still has, which the code does not
keep. -/
inductive Pc (B : Type)
  | alloc (b : B) (write : Bool) (got : List (Fin num))
  | undo (b : B) (write : Bool) (todo : List (Fin num))
  | undoWake (b : B) (write : Bool) (todo : List (Fin num))
  | fill (b : B) (write : Bool) (i j k : Fin num)
  | publish (b : B) (i j k : Fin num)
  | wait (b : B) (i j k : Fin num)
  | finish (i j k : Fin num)
  | freeDesc (i : ℕ) (rest : List (Fin num))
  | freeWake (i : Fin num) (rest : List (Fin num))
  | freeNext (i : Fin num) (rest : List (Fin num))
  | intrTest
  | intrWake (b : B)
  | intrNext

inductive Ret
  | ok
  | panic

def virtioDiskRw (b : B) (write : Bool) : Pc B := .alloc b write []

def virtioDiskIntr : Pc B := .intrTest

def act (blockno : B → UInt32) : Pc B → Disk B → Act (Disk B) (Pc B) (Chan B) Ret
  | .alloc b write [i, j, k], d => .go d (.fill b write i j k)
  | .alloc b write got, d =>
    match allocDesc d with
    | some i => .go (d.take i) (.alloc b write (got ++ [i]))
    | none => .go d (.undo b write got)
  | .undo b write [], _ => .sleep .free (.alloc b write [])
  | .undo b write (i :: todo), d =>
    match freeDesc i d with
    | .ok d' => .go d' (.undoWake b write todo)
    | .error e => .leave (d.fail e) .panic
  | .undoWake b write todo, _ => .wakeup .free (.undo b write todo)
  | .fill b write i j k, d => .go (d.fill (blockno b) b write i j k) (.publish b i j k)
  | .publish b i j k, d => .go (d.publish b) (.wait b i j k)
  | .wait b i j k, d => if d.bdisk b then .sleep (.buf b) (.wait b i j k) else .go d (.finish i j k)
  | .finish i j k, d => .go (d.forget i) (.freeDesc i [i, j, k])
  | .freeDesc i rest, d =>
    match freeDesc i d with
    | .ok d' => .go d' (.freeWake (Fin.ofNat num i) rest.tail)
    | .error e => .leave (d.fail e) .panic
  | .freeWake i rest, _ => .wakeup .free (.freeNext i rest)
  | .freeNext i rest, d => if (d.desc i).hasNext then .go d (.freeDesc (d.desc i).next rest) else .leave d .ok
  | .intrTest, d =>
    if d.usedIdx % 8 ≠ d.usedId % 8 then
      match handle d with
      | .ok (b, d') => .go d' (.intrWake b)
      | .error e => .leave (d.fail e) .panic
    else .leave d .ok
  | .intrWake b, _ => .wakeup (.buf b) .intrNext
  | .intrNext, d => .go d.advance .intrTest

variable {P : Type}

/-- **The disk of the processes `procs`.** After a panic nothing more happens. -/
def diskCode (procs : List P) (blockno : B → UInt32) : Code P (Disk B) (Pc B) (Chan B) Ret where
  procs := procs
  live d := d.panic.isNone
  act _ _ := act blockno
  env
    | 0, d => consume d
    | k + 1, d => complete k d

end

end Xv6.Virtio
