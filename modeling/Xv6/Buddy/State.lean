import Xv6.Buddy.Code
import Xv6.Lib.BuddyTree

/-!
# Well-formed heaps of the buddy allocator

* `Heap.bits`: the `alloc` and `split` bits of a heap, as the bits of a buddy system; the functions
  on `char` arrays change one bit (`bits_allocSet` and the like).
* `blkAddr`: where a block begins. Up to `2 ^ 31` bytes the `int` arithmetic of `blk_index` and
  `addr` is exact: **`blkIndex_leaf`**, **`addr_eq`**.
* `WellFormed R s`: the bits are those of a sound cut around the reserved leaves `R`, and each free
  list has the free blocks of its class. `Listed` is the same for all lists at once, and
  **`Listed.remove`**, **`Listed.push`** say what the list operations do.
-/

namespace Xv6.Buddy

open Function Bytes Dlist BuddyTree

/-! ## Bits -/

theorem bitMask_natCast (i : ℕ) : bitMask i = mask i := by
  have h : ((i : ℤ).tmod 8).toNat = i % 8 := by
    rw [Int.tmod_eq_emod_of_nonneg (Int.natCast_nonneg i)]
    omega
  unfold bitMask mask
  rw [h, Nat.mod_mod]

theorem tdiv_natCast (i : ℕ) : (i : ℤ).tdiv 8 = ((i / 8 : ℕ) : ℤ) := by
  rw [Int.tdiv_eq_ediv_of_nonneg (Int.natCast_nonneg i)]
  omega

theorem bitIsset_eq (a : ℤ → UInt8) (i : ℕ) :
    bitIsset a i = (a (i / 8 : ℕ)).toNat.testBit (i % 8) := by
  have h : (a (i / 8 : ℕ) &&& mask i).toNat =
      ((a (i / 8 : ℕ)).toNat.testBit (i % 8)).toNat * 2 ^ (i % 8) := by
    rw [UInt8.toNat_and, toNat_mask, Nat.and_two_pow]
  rw [bitIsset, bitMask_natCast, tdiv_natCast, Bool.eq_iff_iff, beq_iff_eq, ← UInt8.toNat_inj, h,
    toNat_mask]
  have hpos := Nat.two_pow_pos (i % 8)
  cases (a (i / 8 : ℕ)).toNat.testBit (i % 8) with
  | false => simpa using hpos.ne
  | true => simp

theorem bitIsset_bitSet (a : ℤ → UInt8) (i j : ℕ) :
    bitIsset (bitSet a j) i = (bitIsset a i || decide (j = i)) := by
  rw [bitIsset_eq, bitIsset_eq, bitSet, tdiv_natCast, bitMask_natCast]
  by_cases hb : i / 8 = j / 8
  · rw [hb, update_self, testBit_or_mask]
    congr 1
    exact decide_eq_decide.2 (by omega)
  · rw [update_of_ne (by omega)]
    have hne : j ≠ i := by omega
    simp [hne]

theorem bitIsset_bitClear (a : ℤ → UInt8) (i j : ℕ) :
    bitIsset (bitClear a j) i = (bitIsset a i && !decide (j = i)) := by
  rw [bitIsset_eq, bitIsset_eq, bitClear, tdiv_natCast, bitMask_natCast]
  by_cases hb : i / 8 = j / 8
  · rw [hb, update_self, testBit_and_not_mask]
    congr 2
    exact decide_eq_decide.2 (by omega)
  · rw [update_of_ne (by omega)]
    have hne : j ≠ i := by omega
    simp [hne]

namespace Heap

def bits (s : Heap) : Bits :=
  ⟨fun k i => bitIsset (s.alloc k) i, fun k i => bitIsset (s.split k) i⟩

variable {s : Heap} {k i : ℕ}

theorem isset_update {f : ℕ → ℤ → UInt8} {g : ℤ → UInt8} {v : Bool}
    (hg : ∀ j : ℕ, bitIsset g j = if j = i then v else bitIsset (f k) j) (k' i' : ℕ) :
    bitIsset (update f k g k') i' =
      if k' = k ∧ i' = i then v else bitIsset (f k') i' := by
  by_cases hk : k' = k
  · subst hk
    rw [update_self, hg]
    simp
  · rw [update_of_ne hk, if_neg fun h => hk h.1]

theorem isset_set (a : ℤ → UInt8) (i j : ℕ) :
    bitIsset (bitSet a i) j = if j = i then true else bitIsset a j := by
  rw [bitIsset_bitSet]
  split_ifs with h
  · simp [h]
  · simp [Ne.symm h]

theorem isset_clear (a : ℤ → UInt8) (i j : ℕ) :
    bitIsset (bitClear a i) j = if j = i then false else bitIsset a j := by
  rw [bitIsset_bitClear]
  split_ifs with h
  · simp [h]
  · simp [Ne.symm h]

theorem bits_allocSet : (s.allocSet k i).bits = s.bits.setAlloc k i true :=
  congrArg (Bits.mk · _) (funext₂ (isset_update (isset_set _ i)))

theorem bits_allocClear : (s.allocClear k i).bits = s.bits.setAlloc k i false :=
  congrArg (Bits.mk · _) (funext₂ (isset_update (isset_clear _ i)))

theorem bits_splitSet : (s.splitSet k i).bits = s.bits.setSplit k i true :=
  congrArg (Bits.mk _) (funext₂ (isset_update (isset_set _ i)))

theorem bits_splitClear : (s.splitClear k i).bits = s.bits.setSplit k i false :=
  congrArg (Bits.mk _) (funext₂ (isset_update (isset_clear _ i)))

end Heap

/-! ## Addresses -/

theorem toInt_eq {n : ℤ} (h₀ : 0 ≤ n) (h : n < 2 ^ 31) : toInt n = n :=
  Int.bmod_eq_of_le (by omega) (by omega)

theorem blkSize_pos (k : ℕ) : 0 < blkSize k := Nat.mul_pos (Nat.two_pow_pos k) (by decide)

theorem blkSize_succ (k : ℕ) : blkSize (k + 1) = 2 * blkSize k := by
  unfold blkSize
  ring

theorem pow_sub_mul_blkSize {k n : ℕ} (h : k ≤ n) : 2 ^ (n - k) * blkSize k = blkSize n := by
  unfold blkSize
  rw [← Nat.mul_assoc, ← pow_add, Nat.sub_add_cancel h]

namespace Heap

def blkAddr (s : Heap) (k i : ℕ) : ℤ := s.bdBase + i * blkSize k

def Small (s : Heap) : Prop := blkSize s.maxsize ≤ 2 ^ 31

variable {s : Heap} {k i j x : ℕ}

theorem blkAddr_eq_leaf (s : Heap) (k i : ℕ) : s.blkAddr k i = s.blkAddr 0 (i * 2 ^ k) := by
  unfold blkAddr blkSize
  push_cast
  ring

theorem blkAddr_succ (s : Heap) (k i : ℕ) : s.blkAddr (k + 1) i = s.blkAddr k (2 * i) := by
  unfold blkAddr
  rw [blkSize_succ]
  push_cast
  ring

theorem blkAddr_add (s : Heap) (k i : ℕ) : s.blkAddr k i + blkSize k = s.blkAddr k (i + 1) := by
  unfold blkAddr
  push_cast
  ring

theorem blkAddr_inj (h : s.blkAddr k i = s.blkAddr k j) : i = j := by
  have hpos := blkSize_pos k
  unfold blkAddr at h
  have : (i : ℤ) * blkSize k = j * blkSize k := by omega
  exact Nat.eq_of_mul_eq_mul_right hpos (by exact_mod_cast this)

theorem blkIndex_leaf (hs : s.Small) (hx : x < 2 ^ s.maxsize) :
    s.blkIndex k (s.blkAddr 0 x) = (x / 2 ^ k : ℕ) := by
  have hlt : x * leafSize < 2 ^ 31 := by
    refine Nat.lt_of_lt_of_le ?_ hs
    exact Nat.mul_lt_mul_of_pos_right hx (by decide)
  have hoff : s.blkAddr 0 x - s.bdBase = (x * leafSize : ℕ) := by
    unfold blkAddr blkSize
    push_cast
    ring
  have hdiv : x * leafSize / blkSize k = x / 2 ^ k := Nat.mul_div_mul_right _ _ (by decide)
  have hle : x / 2 ^ k ≤ x := Nat.div_le_self _ _
  have hx31 : x < 2 ^ 31 := by
    unfold leafSize at hlt
    omega
  unfold blkIndex
  dsimp only
  rw [hoff, toInt_eq (Int.natCast_nonneg _) (by exact_mod_cast hlt),
    Int.tdiv_eq_ediv_of_nonneg (Int.natCast_nonneg _), ← Int.natCast_ediv, hdiv]
  exact toInt_eq (Int.natCast_nonneg _) (by omega)

theorem mul_pow_lt (hk : k ≤ s.maxsize) (hi : i < 2 ^ (s.maxsize - k)) : i * 2 ^ k < 2 ^ s.maxsize := by
  calc i * 2 ^ k < 2 ^ (s.maxsize - k) * 2 ^ k := Nat.mul_lt_mul_of_pos_right hi (Nat.two_pow_pos k)
    _ = 2 ^ s.maxsize := by rw [← pow_add, Nat.sub_add_cancel hk]

theorem blkIndex_blkAddr (hs : s.Small) (hk : k ≤ s.maxsize) (hi : i < 2 ^ (s.maxsize - k)) :
    s.blkIndex k (s.blkAddr k i) = i := by
  rw [blkAddr_eq_leaf, blkIndex_leaf hs (mul_pow_lt hk hi), Nat.mul_div_cancel _ (Nat.two_pow_pos k)]

theorem blkIndex_parent (hs : s.Small) (hk : k < s.maxsize) (hi : i < 2 ^ (s.maxsize - k)) :
    s.blkIndex (k + 1) (s.blkAddr k i) = (i / 2 : ℕ) := by
  rw [blkAddr_eq_leaf, blkIndex_leaf hs (mul_pow_lt hk.le hi), div_pow_succ,
    Nat.mul_div_cancel _ (Nat.two_pow_pos k)]

theorem addr_eq (hs : s.Small) (hk : k ≤ s.maxsize) (hi : i < 2 ^ (s.maxsize - k)) :
    s.addr k i = s.blkAddr k i := by
  have hlt : i * blkSize k < 2 ^ 31 := by
    refine Nat.lt_of_lt_of_le ?_ hs
    rw [← pow_sub_mul_blkSize hk]
    exact Nat.mul_lt_mul_of_pos_right hi (blkSize_pos k)
  unfold addr blkAddr
  dsimp only
  rw [toInt_eq (by positivity) (by exact_mod_cast hlt)]

/-- The first bytes of a block, where its list pointers are while it is free. -/
def ptr (s : Heap) (k i : ℕ) : Ptr := .blk (s.blkAddr k i)

theorem ptr_injective (s : Heap) (k : ℕ) : Function.Injective (s.ptr k) := fun _ _ h =>
  blkAddr_inj (Ptr.blk.inj h)

def Free (s : Heap) (k i : ℕ) : Prop := s.bits.Free s.maxsize k i

def Out (R : Set ℕ) (s : Heap) (k i : ℕ) : Prop := s.bits.Out R s.maxsize k i

end Heap

/-! ## Well-formed heaps -/

/-- **A well-formed heap** around the reserved leaves `R`: the bits are sound, list `k` has the free
blocks of class `k`, and the list of the largest class is empty. -/
structure WellFormed (R : Set ℕ) (s : Heap) : Prop where
  pos : 0 < s.nsizes
  tree : Sound R s.maxsize s.bits
  lists : ∀ k < s.maxsize, ∃ l : List ℕ,
    Ring s.links (.head k) (l.map (s.ptr k)) ∧ ∀ i, i ∈ l ↔ s.Free k i
  last : Ring s.links (.head s.maxsize) []

/-- The free lists have the blocks `F` of their classes, each node in one list. -/
def Heap.Listed (s : Heap) (F : ℕ → ℕ → Prop) : Prop := ∃ ls : ℕ → List ℕ,
  Family s.links {k | k ≤ s.maxsize} Ptr.head (fun k => (ls k).map (s.ptr k)) ∧
    ∀ k ≤ s.maxsize, ∀ i, i ∈ ls k ↔ F k i

variable {R : Set ℕ} {s : Heap} {F : ℕ → ℕ → Prop} {k i j i' : ℕ}

namespace WellFormed

theorem eq_of_inside {x : ℕ} (h : WellFormed R s) (hp : s.bits.Piece R s.maxsize k i)
    (hp' : s.bits.Piece R s.maxsize j (x / 2 ^ j)) (heq : s.blkAddr k i = s.blkAddr 0 x) :
    At j (x / 2 ^ j) k i := by
  rw [s.blkAddr_eq_leaf k] at heq
  obtain rfl := Heap.blkAddr_inj heq
  have hk : i * 2 ^ k / 2 ^ k = i := Nat.mul_div_cancel _ (Nat.two_pow_pos k)
  have hkj : k = j := by
    apply h.tree.unique (Heap.mul_pow_lt hp.le hp.lt) _ hp'
    rwa [hk]
  subst hkj
  exact ⟨rfl, hk.symm⟩

theorem eq_of_blkAddr (h : WellFormed R s) (hp : s.bits.Piece R s.maxsize k i)
    (hp' : s.bits.Piece R s.maxsize j i') (heq : s.blkAddr k i = s.blkAddr j i') : At j i' k i := by
  have hj : i' * 2 ^ j / 2 ^ j = i' := Nat.mul_div_cancel _ (Nat.two_pow_pos j)
  rw [s.blkAddr_eq_leaf j] at heq
  rw [← hj] at hp'
  have := h.eq_of_inside hp hp' heq
  rwa [hj] at this

theorem not_free_last (i : ℕ) : ¬ s.Free s.maxsize i := fun hf => absurd hf.1 (lt_irrefl _)

theorem listed (h : WellFormed R s) : s.Listed s.Free := by
  have hex : ∀ k, ∃ l : List ℕ, k ≤ s.maxsize →
      Ring s.links (.head k) (l.map (s.ptr k)) ∧ ∀ i, i ∈ l ↔ s.Free k i := by
    intro k
    rcases Nat.lt_trichotomy k s.maxsize with hk | rfl | hk
    · obtain ⟨l, hl⟩ := h.lists k hk
      exact ⟨l, fun _ => hl⟩
    · refine ⟨[], fun _ => ⟨h.last, fun i => ?_⟩⟩
      exact iff_of_false List.not_mem_nil (not_free_last i)
    · exact ⟨[], fun hk' => absurd hk' (by omega)⟩
  choose ls hls using hex
  refine ⟨ls, ⟨fun k hk => (hls k hk).1, ?_⟩, fun k hk => (hls k hk).2⟩
  intro k hk j hj hkj x hx hx'
  simp only [List.mem_cons, List.mem_map] at hx hx'
  rcases hx with rfl | ⟨i, hi, rfl⟩
  · rcases hx' with hx' | ⟨i', _, hx'⟩
    · exact hkj (Ptr.head.inj hx')
    · cases hx'
  · rcases hx' with hx' | ⟨i', hi', hx'⟩
    · cases hx'
    · have hp : s.bits.Piece R s.maxsize k i := Or.inl (((hls k hk).2 i).1 hi)
      have hp' : s.bits.Piece R s.maxsize j i' := Or.inl (((hls j hj).2 i').1 hi')
      exact hkj (h.eq_of_blkAddr hp hp' (Ptr.blk.inj hx').symm).1

theorem of_listed (hpos : 0 < s.nsizes) (htree : Sound R s.maxsize s.bits) (hl : s.Listed F)
    (hF : ∀ k i, s.Free k i ↔ F k i) : WellFormed R s := by
  obtain ⟨ls, hfam, hmem⟩ := hl
  refine ⟨hpos, htree, fun k hk => ⟨ls k, hfam.ring k hk.le, fun i => ?_⟩, ?_⟩
  · rw [hmem k hk.le, hF]
  · have hr := hfam.ring s.maxsize (le_refl s.maxsize)
    have hnil : ls s.maxsize = [] := List.eq_nil_iff_forall_not_mem.2 fun i hi =>
      not_free_last i ((hF _ _).2 ((hmem _ (le_refl _) i).1 hi))
    simpa only [hnil, List.map_nil] using hr

end WellFormed

namespace Heap.Listed

theorem map_update (f : ℕ → ℕ → Ptr) (ls : ℕ → List ℕ) (k : ℕ) (l : List ℕ) :
    (fun k' => (update ls k l k').map (f k')) =
      update (fun k' => (ls k').map (f k')) k (l.map (f k)) := by
  funext k'
  by_cases hk : k' = k
  · subst hk
    rw [update_self, update_self]
  · rw [update_of_ne hk, update_of_ne hk]

theorem remove (h : s.Listed F) (hk : k ≤ s.maxsize) (hF : F k i) :
    (s.lstRemove (s.ptr k i)).Listed fun k' i' => F k' i' ∧ ¬ At k i k' i' := by
  obtain ⟨ls, hfam, hmem⟩ := h
  have hi : i ∈ ls k := (hmem k hk i).2 hF
  have hnd : (ls k).Nodup := List.Nodup.of_map _ (List.nodup_cons.1 (hfam.ring k hk).nodup).2
  refine ⟨update ls k ((ls k).erase i), ?_, ?_⟩
  · change Family (s.links.remove (s.ptr k i)) _ _ fun k' => List.map (s.ptr k') _
    rw [map_update, List.map_erase (s.ptr_injective k)]
    exact hfam.remove hk (List.mem_map_of_mem hi)
  · intro k' hk' i'
    by_cases hkk : k' = k
    · subst hkk
      rw [update_self, hnd.mem_erase_iff, hmem k' hk']
      simp [At, and_comm]
    · rw [update_of_ne hkk, hmem k' hk']
      simp [At, hkk]

/-- **`lst_push`** of a block that begins where no listed block does. -/
theorem push (h : s.Listed F) (hk : k ≤ s.maxsize)
    (hnew : ∀ k' i', k' ≤ s.maxsize → F k' i' → s.blkAddr k' i' ≠ s.blkAddr k i) :
    (s.lstPush k (s.blkAddr k i)).Listed fun k' i' => F k' i' ∨ At k i k' i' := by
  obtain ⟨ls, hfam, hmem⟩ := h
  refine ⟨update ls k (i :: ls k), ?_, ?_⟩
  · change Family (s.links.push (.head k) (s.ptr k i)) _ _ fun k' => List.map (s.ptr k') _
    rw [map_update, List.map_cons]
    refine hfam.push hk fun j hj hp => ?_
    rcases List.mem_cons.1 hp with hp | hp
    · cases hp
    · obtain ⟨i', hi', heq⟩ := List.mem_map.1 hp
      exact hnew j i' hj ((hmem j hj i').1 hi') (Ptr.blk.inj heq)
  · intro k' hk' i'
    by_cases hkk : k' = k
    · subst hkk
      rw [update_self, List.mem_cons, hmem k' hk']
      simp [At, or_comm]
    · rw [update_of_ne hkk, hmem k' hk']
      simp [At, hkk]

end Heap.Listed

end Xv6.Buddy
