import Xv6.Buddy.Run

/-!
# `bd_free` undoes `bd_malloc`

* `Same s s'`: two heaps with the same bits and the same free blocks on each list. **`same_of_out`**: well-formed
  heaps with the same blocks handed out are the same.
* `freeAll`: several calls of `bd_free`; `freeAll_spec` says which blocks are left.
* **`bd_free_undoes`**: a call of `bd_free` right after `bd_malloc` restores the heap, and the order of frees does
  not matter. **`runs_restore`**: a run after which the same blocks are out leaves the heap as it was.
-/

namespace Xv6.Buddy

open Dlist BuddyTree Heap Runs

/-- **The same heap**: the same bits, and each free list has the same blocks, in any order. -/
structure Same (s s' : Heap) : Prop where
  base : s'.bdBase = s.bdBase
  nsizes : s'.nsizes = s.nsizes
  alloc : ∀ k ≤ s.maxsize, ∀ i : ℕ, i < 2 ^ (s.maxsize - k) →
    bitIsset (s'.alloc k) i = bitIsset (s.alloc k) i
  split : ∀ k ≤ s.maxsize, 0 < k → ∀ i : ℕ, i < 2 ^ (s.maxsize - k) →
    bitIsset (s'.split k) i = bitIsset (s.split k) i
  lists : ∀ k ≤ s.maxsize, ∃ l l', Ring s.links (.head k) l ∧ Ring s'.links (.head k) l' ∧
    ∀ e, e ∈ l' ↔ e ∈ l

def freeAll (s : Heap) : List ℤ → Except Fault Heap
  | [] => .ok s
  | p :: ps =>
    match s.bdFree p with
    | .ok s => freeAll s ps
    | .error e => .error e

def Outstanding (R : Set ℕ) (s : Heap) (p : ℤ) : Prop := ∃ k i, s.Out R k i ∧ p = s.blkAddr k i

variable {R : Set ℕ} {s s' : Heap} {n : UInt64} {p : ℤ}

/-- **A well-formed heap is determined by the blocks handed out.** -/
theorem same_of_out (h : WellFormed R s) (h' : WellFormed R s') (hbase : s'.bdBase = s.bdBase)
    (hn : s'.nsizes = s.nsizes) (hout : ∀ k i, s.Out R k i ↔ s'.Out R k i) : Same s s' := by
  have hmax : s'.maxsize = s.maxsize := by rw [Heap.maxsize, hn, ← Heap.maxsize]
  have htree' : Sound R s.maxsize s'.bits := hmax ▸ h'.tree
  have hto : ∀ k i, s.bits.Out R s.maxsize k i → s'.bits.Out R s.maxsize k i := fun k i ho =>
    hmax ▸ (hout k i).1 ho
  have hfrom : ∀ k i, s'.bits.Out R s.maxsize k i → s.bits.Out R s.maxsize k i := fun k i ho =>
    (hout k i).2 (by unfold Heap.Out; rwa [hmax])
  have halloc : ∀ k ≤ s.maxsize, ∀ i < 2 ^ (s.maxsize - k), s'.bits.alloc k i = s.bits.alloc k i :=
    fun k hk i hi => Bool.eq_iff_iff.2
      ⟨htree'.alloc_of_out h.tree hfrom hk hi, h.tree.alloc_of_out htree' hto hk hi⟩
  have hsplit : ∀ k ≤ s.maxsize, 0 < k → ∀ i < 2 ^ (s.maxsize - k),
      s'.bits.split k i = s.bits.split k i := by
    intro k hk hpos i hi
    refine Bool.eq_iff_iff.2 ⟨fun hs => ?_, fun hs => ?_⟩
    · exact (htree'.split_of_out h.tree hfrom hk hi ⟨hpos, hs⟩).2
    · exact (h.tree.split_of_out htree' hto hk hi ⟨hpos, hs⟩).2
  have hfree : ∀ k i, s'.Free k i ↔ s.Free k i := by
    intro k i
    unfold Heap.Free Bits.Free
    rw [hmax]
    refine and_congr_right fun hk => and_congr_right fun hi => ?_
    have hhalf : i / 2 < 2 ^ (s.maxsize - (k + 1)) := by
      rw [show s.maxsize - k = s.maxsize - (k + 1) + 1 by omega, pow_succ] at hi
      omega
    rw [halloc k hk.le i hi, hsplit (k + 1) hk (Nat.succ_pos k) _ hhalf]
  refine ⟨hbase, hn, halloc, hsplit, fun k hk => ?_⟩
  obtain ⟨ls, hfam, hmem⟩ := h.listed
  obtain ⟨ls', hfam', hmem'⟩ := h'.listed
  have hk' : k ≤ s'.maxsize := hmax ▸ hk
  refine ⟨_, _, hfam.ring k hk, hfam'.ring k hk', fun e => ?_⟩
  have hptr : s'.ptr k = s.ptr k := by
    funext i
    rw [ptr, ptr, Heap.blkAddr, Heap.blkAddr, hbase]
  rw [List.mem_map, List.mem_map, hptr]
  exact exists_congr fun i => and_congr_left fun _ => by rw [hmem' k hk', hmem k hk, hfree]

/-- **Calls of `bd_free`** take back exactly the blocks they name. -/
theorem freeAll_spec {ps : List ℤ} (h : WellFormed R s) (hs : s.Small) (hnd : ps.Nodup)
    (hout : ∀ p ∈ ps, Outstanding R s p) :
    ∃ s', freeAll s ps = .ok s' ∧ Becomes R s s' fun k i => s.Out R k i ∧ s.blkAddr k i ∉ ps := by
  induction ps generalizing s with
  | nil => exact ⟨s, rfl, .refl h fun k i => by simp⟩
  | cons p ps ih =>
    obtain ⟨hp, hnd'⟩ := List.nodup_cons.1 hnd
    obtain ⟨k, i, ho, rfl⟩ := hout _ List.mem_cons_self
    obtain ⟨s₁, hrun, hb⟩ := bdFree_spec h hs ho
    have hne : ∀ k' i', s.Out R k' i' → (s.blkAddr k' i' = s.blkAddr k i ↔ At k i k' i') := by
      intro k' i' ho'
      refine ⟨h.eq_of_blkAddr (.inr ho') (.inr ho), ?_⟩
      rintro ⟨rfl, rfl⟩
      rfl
    have hout' : ∀ q ∈ ps, Outstanding R s₁ q := by
      intro q hq
      obtain ⟨k', i', ho', rfl⟩ := hout q (List.mem_cons_of_mem _ hq)
      refine ⟨k', i', (hb.out k' i').2 ⟨ho', fun hat => hp ?_⟩, (hb.blkAddr k' i').symm⟩
      rwa [← (hne k' i' ho').2 hat]
    obtain ⟨s', hrun', hb'⟩ := ih hb.wf (hb.small hs) hnd' hout'
    refine ⟨s', by rw [freeAll, hrun, ← hrun'], hb.trans hb' fun k' i' => ?_⟩
    rw [hb.out, hb.blkAddr, List.mem_cons, not_or, and_assoc]
    exact and_congr_right fun ho' => by rw [hne k' i' ho']

/-- **`bd_free` undoes `bd_malloc`**, and frees commute. On a well-formed heap of at most `2 ^ 31` bytes, a pointer
just handed out is taken back without a trace; and any outstanding pointers can be freed, with the same bits and
free blocks in the end whatever the order. -/
theorem bd_free_undoes (h : WellFormed R s) (hsize : blkSize s.maxsize ≤ 2 ^ 31) :
    (∀ (n : UInt64) p s₁, n.toNat ≤ blkSize s.maxsize → s.bdMalloc n = .ok (some p, s₁) →
      ∃ s₂, s₁.bdFree p = .ok s₂ ∧ Same s s₂) ∧
    ∀ ps qs : List ℤ, ps.Nodup → (∀ p ∈ ps, Outstanding R s p) → ps.Perm qs →
      ∃ s₁ s₂, freeAll s ps = .ok s₁ ∧ freeAll s qs = .ok s₂ ∧ Same s₁ s₂ := by
  constructor
  · intro n p s₁ hn hrun
    obtain ⟨k, -, -, ⟨i, s₁', hrun', hnot, hb⟩ | ⟨hnone, -⟩⟩ := bdMalloc_spec h hsize hn
    · obtain ⟨rfl, rfl⟩ : s.blkAddr k i = p ∧ s₁' = s₁ := by simpa [hrun'] using hrun
      have ho := (hb.out k i).2 (.inr ⟨rfl, rfl⟩)
      obtain ⟨s₂, hfree, hb₂⟩ := bdFree_spec hb.wf (hb.small hsize) ho
      rw [hb.blkAddr] at hfree
      refine ⟨s₂, hfree, same_of_out h hb₂.wf (hb₂.base.trans hb.base) (hb₂.nsizes.trans hb.nsizes) ?_⟩
      intro k' i'
      have hat : At k i k' i' → ¬ s.Out R k' i' := by
        rintro ⟨rfl, rfl⟩
        exact hnot
      rw [hb₂.out, hb.out]
      tauto
    · rw [hnone] at hrun
      cases hrun
  · intro ps qs hnd hout hperm
    obtain ⟨s₁, hrun₁, hb₁⟩ := freeAll_spec h hsize hnd hout
    obtain ⟨s₂, hrun₂, hb₂⟩ := freeAll_spec h hsize (hperm.nodup_iff.1 hnd) fun p hp =>
      hout p (hperm.mem_iff.2 hp)
    refine ⟨s₁, s₂, hrun₁, hrun₂, same_of_out hb₁.wf hb₂.wf (hb₂.base.trans hb₁.base.symm)
      (hb₂.nsizes.trans hb₁.nsizes.symm) fun k i => ?_⟩
    rw [hb₁.out, hb₂.out, hperm.mem_iff]

theorem ok_of_any {α : Type} {x : Except Fault α} {P : α → Bool} (h : x.toOption.any P = true) :
    ∃ a, x = .ok a ∧ P a = true := by
  cases x with
  | error e => cases h
  | ok a => exact ⟨a, rfl, h⟩

/-- The first leaf of the small heap is reserved. A block is split for the second of two bytes, and merged when that is
taken back. -/
theorem bd_free_undoes_small : ∃ s₁ s₂ s₃, smallHeap.bdMalloc 1 = .ok (some 16, s₁) ∧
    s₁.bdMalloc 1 = .ok (some 32, s₂) ∧ s₂.bdFree 32 = .ok s₃ ∧ Same s₁ s₃ := by
  have hrun : (smallHeap.bdMalloc 1).toOption.any (fun r => r.1 = some 16 ∧
      (r.2.bdMalloc 1).toOption.any (fun r => r.1 = some 32) = true) = true := by decide +kernel
  obtain ⟨⟨p, s₁⟩, hr, hp⟩ := ok_of_any hrun
  obtain ⟨rfl, hnext⟩ : p = some 16 ∧ (s₁.bdMalloc 1).toOption.any (fun r => r.1 = some 32) = true :=
    of_decide_eq_true hp
  obtain ⟨⟨q, s₂⟩, hr₂, hq⟩ := ok_of_any hnext
  obtain rfl : q = some 32 := of_decide_eq_true hq
  obtain ⟨k, -, -, ⟨i, s', hr', -, hb⟩ | ⟨hnone, -⟩⟩ :=
    bdMalloc_spec smallHeap_wellFormed (n := 1) (show blkSize 2 ≤ 2 ^ 31 by decide) (by decide)
  · obtain rfl : s' = s₁ := (Prod.mk.inj (Except.ok.inj (hr'.symm.trans hr))).2
    have hfit : (1 : UInt64).toNat ≤ blkSize s'.maxsize := by
      rw [Heap.maxsize, hb.nsizes]
      decide
    obtain ⟨s₃, hfree, hsame⟩ :=
      (bd_free_undoes hb.wf (hb.small (show blkSize 2 ≤ 2 ^ 31 by decide))).1 1 32 s₂ hfit hr₂
    exact ⟨s', s₂, s₃, hr, hr₂, hfree, hsame⟩
  · cases hnone.symm.trans hr

/-! ## Whole runs -/

theorem Ledger.out_iff {out : List (ℤ × ℕ)} (h : Ledger R s out) {k i : ℕ} :
    (s.blkAddr k i, k) ∈ out ↔ s.Out R k i := by
  rw [h.mem]
  constructor
  · intro hex
    obtain ⟨j, ho, heq⟩ := hex
    rwa [blkAddr_inj heq]
  · intro ho
    exact ⟨i, ho, rfl⟩

/-- **The blocks that are out determine the heap.** Whatever calls and writes come between, once the same blocks are
out as in the beginning every bit and every free list is as it was. -/
theorem runs_restore {out : List (ℤ × ℕ)} {t : Sys} (h : WellFormed R s) (hsize : blkSize s.maxsize ≤ 2 ^ 31)
    (hout : Ledger R s out) (hr : Reach step any ⟨s, out⟩ t) (hsame : ∀ e, e ∈ t.out ↔ e ∈ out) :
    Same s t.heap := by
  have hsmall : s.Small := hsize
  have h₀ : Inv R ⟨s, out⟩ := ⟨h, hsmall, hout⟩
  have hinv : Inv R t ∧ t.heap.bdBase = s.bdBase ∧ t.heap.nsizes = s.nsizes := by
    refine hr.inv (I := fun t => Inv R t ∧ t.heap.bdBase = s.bdBase ∧ t.heap.nsizes = s.nsizes) ⟨h₀, rfl, rfl⟩ ?_
    intro t act t' ht _ hstep
    obtain ⟨h', hbase, hn⟩ := ht.1.step hstep
    exact ⟨h', hbase.trans ht.2.1, hn.trans ht.2.2⟩
  obtain ⟨ht, hbase, hn⟩ := hinv
  refine same_of_out h ht.wf hbase hn fun k i => ?_
  have haddr : t.heap.blkAddr k i = s.blkAddr k i := by rw [Heap.blkAddr, Heap.blkAddr, hbase]
  rw [← hout.out_iff, ← ht.ledger.out_iff, haddr, hsame]

/-- A block is split for the second byte, and merged in the end. -/
theorem runs_restore_small : ∃ t, Reach step any ⟨smallHeap, []⟩ t ∧ t.out = [] ∧ Same smallHeap t.heap := by
  let acts : List Act := [.malloc 1, .malloc 1, .free (16, 0), .free (32, 0)]
  have hrun : (exec step ⟨smallHeap, []⟩ acts).any (fun t => t.out = []) = true := by decide +kernel
  have hok : ∀ s : Sys, ∀ a ∈ acts, any s a := fun _ _ _ => trivial
  obtain ⟨t, hr, ht⟩ := Reach.of_exec_any hok hrun
  have ht : t.out = [] := of_decide_eq_true ht
  exact ⟨t, hr, ht, runs_restore smallHeap_wellFormed (by decide) smallHeap_ledger hr (by simp [ht])⟩

/-! ## A heap that is too large -/

/-- A heap of `2 ^ 33` bytes of which the first leaf is reserved. -/
def largeHeap : Heap where
  nsizes := 30
  bdBase := 0
  alloc _ j := if j = 0 then 1 else 0
  split _ j := if j = 0 then 1 else 0
  links :=
    let other : Ptr → Ptr
      | .head k => if k < 29 then .blk (blkSize k) else .head k
      | .blk a => .head (Nat.log 2 (a.toNat / leafSize))
    ⟨other, other⟩

theorem largeHeap_bits : largeHeap.bits = leafBits :=
  congrArg₂ Bits.mk (funext₂ fun _ i => smallHeap_isset i) (funext₂ fun _ i => smallHeap_isset i)

theorem largeHeap_wellFormed : WellFormed {0} largeHeap := by
  have hother : ∀ k < 29, largeHeap.links.next (.head k) = largeHeap.ptr k 1 ∧
      largeHeap.links.next (largeHeap.ptr k 1) = .head k := by
    intro k hk
    interval_cases k <;> decide +kernel
  exact wellFormed_of_leafBits rfl largeHeap_bits (fun k hk => ⟨hother k hk, (hother k hk).symm⟩) ⟨rfl, rfl⟩

/-- **Above `2 ^ 31` bytes `int` is too small for the offset of a block**: half of the heap is handed out and
freed, and the reserved leaf is no longer marked. -/
theorem bd_free_spoils : WellFormed {0} largeHeap ∧ ∃ s₁ s₂,
    largeHeap.bdMalloc 4294967296 = .ok (some 4294967296, s₁) ∧ s₁.bdFree 4294967296 = .ok s₂ ∧
      bitIsset (largeHeap.alloc 0) 0 = true ∧ bitIsset (s₂.alloc 0) 0 = false := by
  have hrun : (largeHeap.bdMalloc 4294967296).toOption.any (fun r => r.1 = some 4294967296 &&
      (r.2.bdFree 4294967296).toOption.any fun s => !bitIsset (s.alloc 0) 0) = true := by decide +kernel
  obtain ⟨⟨p, s₁⟩, hmalloc, hp⟩ := ok_of_any hrun
  rw [Bool.and_eq_true] at hp
  obtain rfl : p = some 4294967296 := of_decide_eq_true hp.1
  obtain ⟨s₂, hfree, hbit⟩ := ok_of_any hp.2
  exact ⟨largeHeap_wellFormed, s₁, s₂, hmalloc, hfree, rfl, by simpa using hbit⟩

end Xv6.Buddy
