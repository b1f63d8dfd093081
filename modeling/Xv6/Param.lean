import Mathlib

/-!
# Parameters

The constants of `kernel/param.h`, `kernel/fs.h` and `kernel/riscv.h`, and the log geometry `mkfs`
writes.
-/

namespace Xv6

abbrev nproc : ℕ := 10

abbrev maxOpBlocks : ℕ := 10

abbrev logSize : ℕ := maxOpBlocks * 3

abbrev nbuf : ℕ := maxOpBlocks * 3

abbrev bsize : ℕ := 1024

abbrev rootDev : ℕ := 0

abbrev pgsize : ℕ := 4096

abbrev maxva : ℕ := 2 ^ 38

instance : NeZero nproc := ⟨by decide⟩

instance : NeZero nbuf := ⟨by decide⟩

instance : NeZero bsize := ⟨by decide⟩

/-- `struct logheader`: the first `n` entries of `block[LOGSIZE]`, each a 32-bit block number. -/
structure LogHeader where
  block : List ℕ
  fits : block.length ≤ logSize
  word : ∀ b ∈ block, b < 2 ^ 32

namespace LogHeader

def n (lh : LogHeader) : ℕ := lh.block.length

def empty : LogHeader := ⟨[], Nat.zero_le _, by simp⟩

@[simp] theorem n_empty : empty.n = 0 := rfl

@[simp] theorem block_empty : empty.block = [] := rfl

/-- Store the block number `b` at index `n` and increment `n`; `none` when index `n` lies past the
array. -/
def push (lh : LogHeader) (b : ℕ) : Option LogHeader :=
  if h : lh.n < logSize ∧ b < 2 ^ 32 then
    some ⟨lh.block ++ [b], by have := h.1; simp only [n] at this; simp; omega, by
      intro c hc
      rcases List.mem_append.1 hc with hc | hc
      · exact lh.word c hc
      · rw [List.mem_singleton.1 hc]; exact h.2⟩
  else none

theorem push_eq_some {lh lh' : LogHeader} {b : ℕ} (h : lh.push b = some lh') :
    lh.n < logSize ∧ lh'.block = lh.block ++ [b] := by
  unfold push at h
  split at h
  · rename_i hc
    cases h
    exact ⟨hc.1, rfl⟩
  · cases h

theorem ext_block {a b : LogHeader} (h : a.block = b.block) : a = b := by
  cases a; cases b; cases h; rfl

end LogHeader

/-- The log region of a disk: `log[dev].start` and `log[dev].size`, from the superblock. The first
block of the region is the header. -/
structure Geometry where
  start : ℕ
  size : ℕ

def Geometry.InLog (g : Geometry) (b : ℕ) : Prop := g.start ≤ b ∧ b < g.start + g.size

instance (g : Geometry) : DecidablePred g.InLog := fun _ => inferInstanceAs (Decidable (_ ∧ _))

/-- The log region `mkfs` lays out: `nlog = LOGSIZE` blocks from block `2` on. -/
def mkfsGeometry : Geometry := ⟨2, logSize⟩

end Xv6
