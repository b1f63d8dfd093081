import Xv6.Log.Code

/-!
# The on-disk format

The structures of `kernel/fs.h`, as bytes of a block.

* `Superblock`, `iblock`, `bblock`: where inodes and bitmap bits are; `Layout`: the regions in order.
* `Dinode`, `encode`, `decode`; **`decode_encode`**. `getDinode`, `putDinode`: inode `i` in its block;
  **`getDinode_putDinode`**.
* `entry`, `putEntry`: the words of an indirect block.
-/

namespace Xv6

open Bytes

abbrev ndirect : ℕ := 12

abbrev nindirect : ℕ := bsize / 4

abbrev maxFile : ℕ := ndirect + nindirect

abbrev ipb : ℕ := bsize / 64

abbrev bpb : ℕ := bsize * 8

abbrev ninode : ℕ := 50

instance : NeZero ninode := ⟨by decide⟩

/-- `struct superblock`, less `magic` and `nblocks`, which the kernel does not use after `fsinit`. -/
structure Superblock where
  size : ℕ
  ninodes : ℕ
  nlog : ℕ
  logstart : ℕ
  inodestart : ℕ
  bmapstart : ℕ

def Superblock.iblock (sb : Superblock) (i : ℕ) : ℕ := i / ipb + sb.inodestart

/-- The block of the free map that holds the bit of block `b`. -/
def Superblock.bblock (sb : Superblock) (b : ℕ) : ℕ := b / bpb + sb.bmapstart

/-- A superblock whose regions lie one after the other, as `mkfs` lays them out: boot block,
superblock, log, inodes, free map, and from block `nmeta` on the data blocks. Block numbers are C
`int`s in places. -/
structure Layout extends Superblock where
  nmeta : ℕ
  two_le_logstart : 2 ≤ logstart
  logstart_le : logstart + nlog ≤ inodestart
  inodestart_le : inodestart + (ninodes + (ipb - 1)) / ipb ≤ bmapstart
  bmapstart_le : bmapstart + (size + (bpb - 1)) / bpb ≤ nmeta
  nmeta_le : nmeta ≤ size
  size_lt : size < 2 ^ 31

namespace Layout

variable (L : Layout) {i b : ℕ}

theorem inodestart_le_iblock (i : ℕ) : L.inodestart ≤ L.iblock i := Nat.le_add_left _ _

theorem iblock_lt (hi : i < L.ninodes) : L.iblock i < L.bmapstart := by
  have := L.inodestart_le
  unfold Superblock.iblock
  change i / 16 + _ < _
  change _ + (_ + 15) / 16 ≤ _ at this
  omega

theorem bmapstart_le_bblock (b : ℕ) : L.bmapstart ≤ L.bblock b := Nat.le_add_left _ _

theorem bblock_lt (hb : b < L.size) : L.bblock b < L.nmeta := by
  have := L.bmapstart_le
  unfold Superblock.bblock
  change b / 8192 + _ < _
  change _ + (_ + 8191) / 8192 ≤ _ at this
  omega

theorem iblock_lt_nmeta (hi : i < L.ninodes) : L.iblock i < L.nmeta :=
  lt_of_lt_of_le (L.iblock_lt hi) (le_trans (Nat.le_add_right _ _) L.bmapstart_le)

end Layout

/-! ## Inodes -/

/-- `struct dinode`. The 16-bit fields are signed in C; what matters here is whether they are zero.
-/
structure Dinode where
  type : UInt16
  major : UInt16
  minor : UInt16
  nlink : UInt16
  size : UInt32
  addrs : Fin (ndirect + 1) → UInt32

namespace Dinode

/-- An inode as `ialloc` leaves it on disk. -/
def fresh (type : UInt16) : Dinode := ⟨type, 0, 0, 0, 0, fun _ => 0⟩

theorem ext' {v w : Dinode} (h₁ : v.type = w.type) (h₂ : v.major = w.major)
    (h₃ : v.minor = w.minor) (h₄ : v.nlink = w.nlink) (h₅ : v.size = w.size)
    (h₆ : ∀ k, v.addrs k = w.addrs k) : v = w := by
  cases v; cases w; simp_all [funext_iff]

def encode (v : Dinode) : Mem 64 :=
  storeWords (store (store (store (store (store (fun _ => 0) 0 2 v.type.toNat) 2 2 v.major.toNat)
    4 2 v.minor.toNat) 6 2 v.nlink.toNat) 8 4 v.size.toNat) 12
    (List.ofFn fun k => (v.addrs k).toNat)

def decode (x : Mem 64) : Dinode where
  type := UInt16.ofNat (load x 0 2)
  major := UInt16.ofNat (load x 2 2)
  minor := UInt16.ofNat (load x 4 2)
  nlink := UInt16.ofNat (load x 6 2)
  size := UInt32.ofNat (load x 8 4)
  addrs k := UInt32.ofNat (load x (12 + 4 * k) 4)

theorem decode_encode (v : Dinode) : decode (encode v) = v := by
  refine ext' ?_ ?_ ?_ ?_ ?_ fun k => ?_
  · change UInt16.ofNat (load (encode v) 0 2) = _
    simp [encode, load_storeWords_of_le, load_store_of_disjoint, load_store_same]
  · change UInt16.ofNat (load (encode v) 2 2) = _
    simp [encode, load_storeWords_of_le, load_store_of_disjoint, load_store_same]
  · change UInt16.ofNat (load (encode v) 4 2) = _
    simp [encode, load_storeWords_of_le, load_store_of_disjoint, load_store_same]
  · change UInt16.ofNat (load (encode v) 6 2) = _
    simp [encode, load_storeWords_of_le, load_store_of_disjoint, load_store_same]
  · change UInt32.ofNat (load (encode v) 8 4) = _
    simp [encode, load_storeWords_of_le, load_store_same]
  · change UInt32.ofNat (load (encode v) (12 + 4 * k) 4) = _
    rw [encode, load_storeWords (by rw [List.length_ofFn]; decide) (fun w hw => ?_)
      (by rw [List.length_ofFn]; exact k.2), List.getElem_ofFn, UInt32.ofNat_toNat]
    obtain ⟨j, rfl⟩ := List.mem_ofFn.1 hw
    exact (v.addrs j).toNat_lt

end Dinode

def getDinode (d : Block) (i : ℕ) : Dinode := .decode (slice d (64 * (i % ipb)) 64)

def putDinode (v : Dinode) (d : Block) (i : ℕ) : Block := splice d (64 * (i % ipb)) v.encode

theorem ipb_slot (i : ℕ) : i % ipb < 16 := Nat.mod_lt i (by decide)

theorem getDinode_putDinode (v : Dinode) (d : Block) (i j : ℕ) :
    getDinode (putDinode v d i) j = if i % ipb = j % ipb then v else getDinode d j := by
  have hi := ipb_slot i
  unfold getDinode putDinode
  split_ifs with h
  · rw [← h, slice_splice_same (by change _ ≤ 1024; omega), Dinode.decode_encode]
  · rw [slice_splice_of_disjoint (by omega)]

/-! ## Indirect blocks -/

def entry (d : Block) (j : ℕ) : ℕ := load d (4 * j) 4

def putEntry (d : Block) (j a : ℕ) : Block := store d (4 * j) 4 a

theorem entry_putEntry {d : Block} {j a : ℕ} (hj : j < nindirect) (ha : a < 2 ^ 32) (k : ℕ) :
    entry (putEntry d j a) k = if k = j then a else entry d k := by
  have hj : j < 256 := hj
  unfold entry putEntry
  split_ifs with h
  · subst h
    rw [load_store_same (by change _ ≤ 1024; omega)]
    exact Nat.mod_eq_of_lt ha
  · exact load_store_of_disjoint (by omega)

end Xv6
