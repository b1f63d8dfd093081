import Xv6.Buddy.State

/-!
# The calls of the buddy allocator

Every turn of the loops of `bd_malloc` and `bd_free` takes a well-formed heap to a well-formed heap
in which one other block is handed out, so that the loops are inductions over these turns.

* `Becomes R s s' P`: the heap `s` has become `s'`, well formed, with the blocks `P` handed out.
* `WellFormed.take`, `WellFormed.splitBlk`, `WellFormed.merge`, `WellFormed.release`: the turns.
* **`bdMalloc_spec`**, **`size_spec`**, **`bdFree_spec`**: the calls.
-/

namespace Xv6.Buddy

open Dlist BuddyTree Heap

variable {R : Set ℕ} {s s' : Heap} {k i : ℕ}

/-- **The heap `s` has become `s'`**, in the same place, and the blocks handed out are `P`. -/
structure Becomes (R : Set ℕ) (s s' : Heap) (P : ℕ → ℕ → Prop) : Prop where
  wf : WellFormed R s'
  base : s'.bdBase = s.bdBase
  nsizes : s'.nsizes = s.nsizes
  out : ∀ k i, s'.Out R k i ↔ P k i

namespace Becomes

variable {P Q : ℕ → ℕ → Prop} {t : Heap}

theorem maxsize (hb : Becomes R s s' P) : s'.maxsize = s.maxsize := by
  unfold Heap.maxsize
  rw [hb.nsizes]

theorem small (hb : Becomes R s s' P) (hs : s.Small) : s'.Small := by
  unfold Heap.Small
  rwa [hb.maxsize]

theorem blkAddr (hb : Becomes R s s' P) (k i : ℕ) : s'.blkAddr k i = s.blkAddr k i := by
  unfold Heap.blkAddr
  rw [hb.base]

theorem trans (hb : Becomes R s s' P) (hb' : Becomes R s' t Q) {P' : ℕ → ℕ → Prop}
    (hP : ∀ k i, Q k i ↔ P' k i) : Becomes R s t P' :=
  ⟨hb'.wf, hb'.base.trans hb.base, hb'.nsizes.trans hb.nsizes, fun k i => (hb'.out k i).trans (hP k i)⟩

theorem refl (h : WellFormed R s) (hP : ∀ k i, s.Out R k i ↔ P k i) : Becomes R s s P :=
  ⟨h, rfl, rfl, hP⟩

end Becomes

/-! ## One turn -/

namespace WellFormed

theorem take (h : WellFormed R s) (hf : s.Free k i) :
    Becomes R s ((s.lstRemove (s.ptr k i)).allocSet k i) fun k' i' => s.Out R k' i' ∨ At k i k' i' := by
  obtain ⟨htree, hfree, hout⟩ := h.tree.take hf (bits_allocSet (s := s.lstRemove (s.ptr k i)))
  exact ⟨of_listed h.pos htree (h.listed.remove hf.1.le hf) hfree, rfl, rfl, hout⟩

theorem release (h : WellFormed R s) (ho : s.Out R k i) (hbud : s.bits.alloc k (buddy i) = true) :
    Becomes R s ((s.allocClear k i).lstPush k (s.blkAddr k i))
      fun k' i' => s.Out R k' i' ∧ ¬ At k i k' i' := by
  obtain ⟨htree, hfree, hout⟩ := h.tree.release ho hbud bits_allocClear
  have hlist : (s.allocClear k i).Listed s.Free := h.listed
  refine ⟨of_listed h.pos htree (hlist.push ho.1 ?_) hfree, rfl, rfl, hout⟩
  intro k' i' _ hf heq
  obtain ⟨rfl, rfl⟩ := h.eq_of_blkAddr (Or.inl hf) (Or.inr ho) heq
  exact Sound.not_free_of_out ho hf

theorem splitBlk (h : WellFormed R s) (hs : s.Small) (ho : s.Out R (k + 1) i) :
    Becomes R s (s.splitBlk (s.blkAddr (k + 1) i) k)
      fun k' i' => s.Out R k' i' ∧ ¬ At (k + 1) i k' i' ∨ At k (2 * i) k' i' := by
  have hlt := two_mul_lt ho.1 ho.2.1
  have hk : k ≤ s.maxsize := Nat.le_of_succ_le ho.1
  have hq : s.blkAddr (k + 1) i + blkSize k = s.blkAddr k (2 * i + 1) := by
    rw [s.blkAddr_succ, s.blkAddr_add]
  have hidx : s.blkIndex k (s.blkAddr (k + 1) i) = (2 * i : ℕ) := by
    rw [s.blkAddr_succ, blkIndex_blkAddr hs hk (by omega)]
  have hcode : s.splitBlk (s.blkAddr (k + 1) i) k =
      ((s.splitSet (k + 1) i).allocSet k (2 * i : ℕ)).lstPush k (s.blkAddr k (2 * i + 1)) := by
    unfold Heap.splitBlk
    dsimp only
    rw [hq, blkIndex_blkAddr hs ho.1 ho.2.1]
    change ((s.splitSet (k + 1) i).allocSet k (s.blkIndex k _)).lstPush k _ = _
    rw [hidx]
  have hbits : ((s.splitSet (k + 1) i).allocSet k (2 * i : ℕ)).bits =
      (s.bits.setSplit (k + 1) i true).setAlloc k (2 * i) true := by
    rw [bits_allocSet, bits_splitSet]
  obtain ⟨htree, hfree, hout⟩ := h.tree.halve ho hbits
  have hlist : ((s.splitSet (k + 1) i).allocSet k (2 * i : ℕ)).Listed s.Free := h.listed
  rw [hcode]
  refine ⟨of_listed h.pos htree (hlist.push hk ?_) hfree, rfl, rfl, hout⟩
  -- the second half begins inside a block that is handed out
  intro k' i' _ hf heq
  have heq : s.blkAddr k' i' = s.blkAddr k (2 * i + 1) := heq
  have hx : (2 * i + 1) * 2 ^ k / 2 ^ (k + 1) = i := by
    rw [div_pow_succ, Nat.mul_div_cancel _ (Nat.two_pow_pos k)]
    omega
  have hin : At (k + 1) i k' i' := by
    have := h.eq_of_inside (x := (2 * i + 1) * 2 ^ k) (Or.inl hf) (Or.inr (hx.symm ▸ ho))
      (heq.trans (s.blkAddr_eq_leaf _ _))
    rwa [hx] at this
  obtain ⟨rfl, rfl⟩ := hin
  exact Sound.not_free_of_out ho hf

theorem free_buddy (h : WellFormed R s) (ho : s.Out R k i) (hbud : s.bits.alloc k (buddy i) = false) :
    s.Free k (buddy i) := by
  have hk := h.tree.lt_of_out ho
  refine ⟨hk, buddy_lt hk ho.2.1, hbud, ?_⟩
  rw [buddy_half]
  exact (h.tree.parent_split (Or.inr ho)).2

theorem merge (h : WellFormed R s) (ho : s.Out R k i) (hbud : s.bits.alloc k (buddy i) = false) :
    Becomes R s (((s.allocClear k i).lstRemove (s.ptr k (buddy i))).splitClear (k + 1) (i / 2 : ℕ))
      fun k' i' => s.Out R k' i' ∧ ¬ At k i k' i' ∨ At (k + 1) (i / 2) k' i' := by
  have hbits : (((s.allocClear k i).lstRemove (s.ptr k (buddy i))).splitClear (k + 1) (i / 2 : ℕ)).bits =
      (s.bits.setAlloc k i false).setSplit (k + 1) (i / 2) false := by
    rw [bits_splitClear, ← bits_allocClear]
    rfl
  obtain ⟨htree, hfree, hout⟩ := h.tree.merge ho hbud hbits
  exact ⟨of_listed h.pos htree (h.listed.remove ho.1 (h.free_buddy ho hbud)) hfree, rfl, rfl, hout⟩

end WellFormed

/-! ## `bd_malloc` -/

theorem firstkLoop_spec {n : UInt64} (hn : n.toNat ≤ 2 ^ 63) {turns : ℕ} {size : UInt64}
    (hturns : k + turns = 61) (hk : k ≤ 59) (hsize : size.toNat = blkSize k)
    (hlow : ∀ j < k, blkSize j < n.toNat) :
    ∃ fk, firstkLoop n turns k size = .ok fk ∧ IsLeast {k | n.toNat ≤ blkSize k} fk := by
  induction turns generalizing k size with
  | zero => omega
  | succ turns ih =>
    rw [firstkLoop]
    by_cases hlt : size < n
    · rw [if_pos hlt]
      rw [UInt64.lt_iff_toNat_lt, hsize] at hlt
      have hk' : k < 59 := by
        by_contra hge
        obtain rfl : k = 59 := by omega
        have : blkSize 59 = 2 ^ 63 := by decide
        omega
      have hdouble : blkSize (k + 1) = 2 * blkSize k := blkSize_succ k
      have h63 : blkSize k ≤ 2 ^ 63 := hlt.le.trans hn
      have hne : n.toNat < 2 ^ 64 := n.toNat_lt
      apply ih (by omega) (by omega)
      · rw [UInt64.toNat_mul, hsize, hdouble]
        have : blkSize k ≠ 2 ^ 63 := by omega
        change blkSize k * 2 % 2 ^ 64 = _
        omega
      · intro j hj
        rcases Nat.lt_succ_iff_lt_or_eq.1 hj with hj | rfl
        · exact hlow j hj
        · exact hlt
    · rw [if_neg hlt]
      rw [UInt64.lt_iff_toNat_lt, hsize] at hlt
      refine ⟨k, rfl, Nat.le_of_not_lt hlt, fun j hj => ?_⟩
      by_contra hjk
      exact absurd (hlow j (Nat.lt_of_not_le hjk)) (Nat.not_lt.2 hj)

theorem firstk_spec {n : UInt64} (hn : n.toNat ≤ 2 ^ 63) :
    ∃ fk, firstk n = .ok fk ∧ IsLeast {k | n.toNat ≤ blkSize k} fk :=
  firstkLoop_spec hn rfl (by decide) rfl fun j hj => absurd hj (Nat.not_lt_zero j)

namespace WellFormed

theorem lstEmpty_iff (h : WellFormed R s) (hk : k ≤ s.maxsize) :
    s.lstEmpty k = true ↔ ∀ i, ¬ s.Free k i := by
  obtain ⟨ls, hfam, hmem⟩ := h.listed
  unfold lstEmpty
  rw [beq_iff_eq, (hfam.ring k hk).next_eq_iff, List.map_eq_nil_iff, List.eq_nil_iff_forall_not_mem]
  exact forall_congr' fun i => not_congr (hmem k hk i)

theorem lstPop_eq (h : WellFormed R s) (hk : k ≤ s.maxsize) (hne : s.lstEmpty k = false) :
    ∃ i, s.Free k i ∧ s.lstPop k = .ok (s.blkAddr k i, s.lstRemove (s.ptr k i)) := by
  obtain ⟨ls, hfam, hmem⟩ := h.listed
  have hring := hfam.ring k hk
  have hnext : ¬ s.links.next (.head k) = .head k := by
    unfold lstEmpty at hne
    exact beq_eq_false_iff_ne.1 hne
  cases hl : ls k with
  | nil =>
    rw [hring.next_eq_iff, List.map_eq_nil_iff] at hnext
    exact absurd hl hnext
  | cons i l =>
    have hi : s.Free k i := (hmem k hk i).1 (hl ▸ List.mem_cons_self)
    rw [hl, List.map_cons] at hring
    refine ⟨i, hi, ?_⟩
    rw [lstPop, if_neg hnext, hring.next_head]
    rfl

theorem out_stay (ho : s.Out R k i) (k' i' : ℕ) :
    s.Out R k' i' ↔ s.Out R k' i' ∧ ¬ At k i k' i' ∨ At k (i * 2 ^ (k - k)) k' i' := by
  rw [Nat.sub_self, pow_zero, Nat.mul_one]
  have : At k i k' i' → s.Out R k' i' := by
    rintro ⟨rfl, rfl⟩
    exact ho
  tauto

/-- **The second loop of `bd_malloc`** hands out the first block of class `fk` instead. -/
theorem splitDown {fk : ℕ} (h : WellFormed R s) (hs : s.Small) (hfk : fk ≤ k) (ho : s.Out R k i) :
    Becomes R s (splitDown (s.blkAddr k i) fk k s)
      fun k' i' => s.Out R k' i' ∧ ¬ At k i k' i' ∨ At fk (i * 2 ^ (k - fk)) k' i' := by
  induction k generalizing s i with
  | zero =>
    obtain rfl : fk = 0 := Nat.le_zero.1 hfk
    exact .refl h (out_stay ho)
  | succ k ih =>
    rw [Heap.splitDown]
    split_ifs with hlt
    · have hb := h.splitBlk hs ho
      have ho' := (hb.out k (2 * i)).2 (Or.inr ⟨rfl, rfl⟩)
      have hb' := ih hb.wf (hb.small hs) (Nat.lt_succ_iff.1 hlt) ho'
      rw [hb.blkAddr, ← s.blkAddr_succ] at hb'
      refine hb.trans hb' fun k' i' => ?_
      have hidx : 2 * i * 2 ^ (k - fk) = i * 2 ^ (k + 1 - fk) := by
        rw [show k + 1 - fk = k - fk + 1 by omega, pow_succ]
        ring
      have hnot : At k (2 * i) k' i' → ¬ s.Out R k' i' := by
        rintro ⟨rfl, rfl⟩ hout
        exact (h.tree.halves_clear ho (by omega)).1 hout.2.2.1
      rw [hb.out, hidx]
      tauto
    · obtain rfl : fk = k + 1 := by omega
      exact .refl h (out_stay ho)

end WellFormed

/-- **`bd_malloc`.** A block of the least class that is large enough is handed out, or there is no
free block of this class or a larger one. -/
theorem bdMalloc_spec {n : UInt64} (h : WellFormed R s) (hs : s.Small)
    (hn : n.toNat ≤ blkSize s.maxsize) :
    ∃ fk, firstk n = .ok fk ∧ IsLeast {k | n.toNat ≤ blkSize k} fk ∧
      ((∃ i s', s.bdMalloc n = .ok (some (s.blkAddr fk i), s') ∧ ¬ s.Out R fk i ∧
          Becomes R s s' fun k' i' => s.Out R k' i' ∨ At fk i k' i') ∨
        s.bdMalloc n = .ok (none, s) ∧ ∀ k i, fk ≤ k → ¬ s.Free k i) := by
  have hs31 : blkSize s.maxsize ≤ 2 ^ 31 := hs
  obtain ⟨fk, hfk, hleast⟩ := firstk_spec (show n.toNat ≤ 2 ^ 63 by omega)
  refine ⟨fk, hfk, hleast, ?_⟩
  have hpos := h.pos
  cases hfind : s.findFree fk with
  | none =>
    right
    refine ⟨by simp only [bdMalloc, hfk, hfind, bind, Except.bind, pure, Except.pure], fun k i hk hf => ?_⟩
    have hklt : k < s.maxsize := hf.1
    unfold findFree at hfind
    rw [List.find?_eq_none] at hfind
    have hempty := hfind k (List.mem_range'_1.2 (by unfold Heap.maxsize at hklt; omega))
    rw [Bool.not_eq_true, Bool.not_eq_false'] at hempty
    exact (h.lstEmpty_iff hklt.le).1 hempty i hf
  | some k =>
    left
    have hmem := List.mem_range'_1.1 (List.mem_of_find?_eq_some hfind)
    have hne : s.lstEmpty k = false := by simpa using List.find?_some hfind
    have hk : k ≤ s.maxsize := by
      unfold Heap.maxsize
      omega
    obtain ⟨i, hf, hpop⟩ := h.lstPop_eq hk hne
    have hb := h.take hf
    have ho := (hb.out k i).2 (Or.inr ⟨rfl, rfl⟩)
    have hb' := hb.wf.splitDown (hb.small hs) hmem.1 ho
    have haddr : s.blkAddr fk (i * 2 ^ (k - fk)) = s.blkAddr k i := by
      rw [s.blkAddr_eq_leaf, s.blkAddr_eq_leaf k, Nat.mul_assoc, ← pow_add, Nat.sub_add_cancel hmem.1]
    have hidx : (s.lstRemove (s.ptr k i)).blkIndex k (s.blkAddr k i) = i :=
      blkIndex_blkAddr hs hk hf.2.1
    have hnot : ¬ s.Out R fk (i * 2 ^ (k - fk)) := fun hout => by
      obtain ⟨rfl, hi⟩ := h.eq_of_blkAddr (Or.inr hout) (Or.inl hf) haddr
      rw [hi] at hout
      exact Sound.not_free_of_out hout hf
    refine ⟨i * 2 ^ (k - fk), _, ?_, hnot, hb.trans hb' fun k' i' => ?_⟩
    · simp only [bdMalloc, hfk, hfind, hpop, haddr, hidx, bind, Except.bind, pure, Except.pure]
      rfl
    · have hat : At k i k' i' → ¬ s.Out R k' i' := by
        rintro ⟨rfl, rfl⟩ hout
        exact Sound.not_free_of_out hout hf
      rw [hb.out]
      tauto

/-! ## `bd_free` -/

theorem size_spec (h : WellFormed R s) (hs : s.Small) (ho : s.Out R k i) :
    s.size (s.blkAddr k i) = .ok k := by
  have hk := h.tree.lt_of_out ho
  have hx := mul_pow_lt ho.1 ho.2.1
  have hself : i * 2 ^ k / 2 ^ k = i := Nat.mul_div_cancel _ (Nat.two_pow_pos k)
  have hfind : (List.range s.maxsize).find? (fun j =>
      bitIsset (s.split (j + 1)) (s.blkIndex (j + 1) (s.blkAddr k i))) = some k := by
    rw [List.find?_range_eq_some]
    refine ⟨?_, List.mem_range.2 hk, fun j hj => ?_⟩
    · rw [blkIndex_parent hs hk ho.2.1]
      exact (h.tree.parent_split (Or.inr ho)).2
    · rw [s.blkAddr_eq_leaf, blkIndex_leaf hs hx, Bool.not_eq_true']
      -- the block and its parts are not cut
      have hns : ¬ s.bits.Split (j + 1) (i * 2 ^ k / 2 ^ (j + 1)) := by
        rcases Nat.lt_or_eq_of_le (Nat.succ_le_of_lt hj) with hlt | heq
        · refine (h.tree.below k i ho.1 ho.2.1 ho.2.2.2.1 (j + 1) hlt _ ?_).2
          rw [div_div_pow _ hlt.le, hself]
        · rw [← Nat.succ_eq_add_one, heq, hself]
          exact ho.2.2.2.1
      exact Bool.eq_false_iff.2 fun hset => hns ⟨Nat.succ_pos j, hset⟩
  unfold size
  rw [hfind]

theorem buddy_cast (i : ℕ) :
    (if (i : ℤ).tmod 2 = 0 then (i : ℤ) + 1 else (i : ℤ) - 1) = (buddy i : ℕ) := by
  rw [Int.tmod_eq_emod_of_nonneg (Int.natCast_nonneg i)]
  unfold buddy
  split_ifs <;> omega

theorem blkAddr_half (s : Heap) (k i : ℕ) :
    (if (buddy i : ℤ).tmod 2 = 0 then s.blkAddr k (buddy i) else s.blkAddr k i) =
      s.blkAddr (k + 1) (i / 2) := by
  rw [Int.tmod_eq_emod_of_nonneg (Int.natCast_nonneg _), s.blkAddr_succ]
  unfold buddy
  split_ifs <;> first | omega | (congr 1; omega)

theorem freeLoop_spec {left : ℕ} (h : WellFormed R s) (hs : s.Small) (hleft : s.maxsize - k = left)
    (ho : s.Out R k i) {j : ℕ} {p : ℤ} {t : Heap} (ht : freeLoop left k (s.blkAddr k i) s = (j, p, t)) :
    Becomes R s (t.lstPush j p) fun k' i' => s.Out R k' i' ∧ ¬ At k i k' i' := by
  have hk := h.tree.lt_of_out ho
  induction left generalizing s k i with
  | zero => omega
  | succ left ih =>
    have hbi : s.blkIndex k (s.blkAddr k i) = i := blkIndex_blkAddr hs ho.1 ho.2.1
    rw [freeLoop] at ht
    dsimp only at ht
    rw [hbi, buddy_cast] at ht
    have hbit : bitIsset ((s.allocClear k i).alloc k) (buddy i : ℕ) = s.bits.alloc k (buddy i) := by
      change (s.allocClear k i).bits.alloc k (buddy i) = _
      rw [bits_allocClear]
      exact if_neg fun hat => buddy_ne i hat.2
    rw [hbit] at ht
    cases hbud : s.bits.alloc k (buddy i) with
    | true =>
      rw [hbud, if_pos rfl] at ht
      cases ht
      exact h.release ho hbud
    | false =>
      rw [hbud, if_neg Bool.false_ne_true] at ht
      have hq : (s.allocClear k i).addr k (buddy i : ℕ) = s.blkAddr k (buddy i) :=
        addr_eq hs ho.1 (buddy_lt hk ho.2.1)
      rw [hq, blkAddr_half] at ht
      have hb := h.merge ho hbud
      have ho' := (hb.out (k + 1) (i / 2)).2 (Or.inr ⟨rfl, rfl⟩)
      have hpar : ((s.allocClear k i).lstRemove (.blk (s.blkAddr k (buddy i)))).blkIndex (k + 1)
          (s.blkAddr (k + 1) (i / 2)) = (i / 2 : ℕ) := by
        refine blkIndex_blkAddr hs hk ?_
        exact half_lt hk ho.2.1
      rw [hpar] at ht
      have hk' := hb.wf.tree.lt_of_out ho'
      have hmax := hb.maxsize
      have hb' := ih hb.wf (hb.small hs) (by omega) ho' (by rw [hb.blkAddr]; exact ht) hk'
      refine hb.trans hb' fun k' i' => ?_
      have hnot : At (k + 1) (i / 2) k' i' → ¬ s.Out R k' i' := by
        rintro ⟨rfl, rfl⟩ hout
        exact hout.2.2.2.1 (h.tree.parent_split (Or.inr ho))
      rw [hb.out]
      tauto

theorem bdFree_spec (h : WellFormed R s) (hs : s.Small) (ho : s.Out R k i) :
    ∃ s', s.bdFree (s.blkAddr k i) = .ok s' ∧
      Becomes R s s' fun k' i' => s.Out R k' i' ∧ ¬ At k i k' i' := by
  cases ht : freeLoop (s.maxsize - k) k (s.blkAddr k i) s with
  | mk j pt =>
    refine ⟨pt.2.lstPush j pt.1, ?_, freeLoop_spec h hs rfl ho ht⟩
    unfold bdFree
    rw [size_spec h hs ho]
    exact congrArg (fun t => Except.ok (t.2.2.lstPush t.1 t.2.1)) ht

end Xv6.Buddy
