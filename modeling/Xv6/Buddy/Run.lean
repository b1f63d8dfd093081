import Xv6.Buddy.Calls
import Xv6.Lib.Runs

/-!
# Runs of the buddy allocator

Any sequence of `bd_malloc` and `bd_free` calls, where the pointers freed are those that are
outstanding, and in between the owners of blocks write to them.

* `Sys`: the heap, and the outstanding pointers with the class each was allocated with.
* `Tiles R t`: reserved leaves, outstanding blocks and free blocks cut up the heap.
* **`buddy_heap`**: from a well-formed heap of at most `2 ^ 31` bytes, every state reached is well
  formed and tiled, and the next call does what it should.
-/

namespace Xv6.Buddy

open Function Dlist BuddyTree Heap Runs

/-- The heap, and the outstanding pointers with their classes. -/
structure Sys where
  heap : Heap
  out : List (ℤ × ℕ)

def region (p : ℤ) (k : ℕ) : Set ℤ := Set.Ico p (p + blkSize k)

instance (p a : ℤ) (k : ℕ) : Decidable (a ∈ region p k) :=
  inferInstanceAs (Decidable (p ≤ a ∧ a < p + blkSize k))

/-- A call, or a write of an owner to the pointers that a free block would have at `a`. -/
inductive Act where
  | malloc (n : UInt64)
  | free (e : ℤ × ℕ)
  | write (a : ℤ) (next prev : Ptr)

def Heap.poke (s : Heap) (a : ℤ) (next prev : Ptr) : Heap :=
  { s with links := ⟨update s.links.next (.blk a) next, update s.links.prev (.blk a) prev⟩ }

/-- **One action.** The request is at most the heap's size, a pointer freed is outstanding, and only
outstanding blocks are written to. -/
def step (t : Sys) : Act → Option Sys
  | .malloc n =>
    if n.toNat ≤ blkSize t.heap.maxsize then
      match firstk n, t.heap.bdMalloc n with
      | .ok k, .ok (some p, s) => some ⟨s, (p, k) :: t.out⟩
      | .ok _, .ok (none, s) => some ⟨s, t.out⟩
      | _, _ => none
    else none
  | .free e =>
    if e ∈ t.out then
      match t.heap.bdFree e.1 with
      | .ok s => some ⟨s, t.out.erase e⟩
      | .error _ => none
    else none
  | .write a next prev =>
    if ∃ e ∈ t.out, a ∈ region e.1 e.2 then some { t with heap := t.heap.poke a next prev } else none

/-- The outstanding pointers are the blocks that the bits say are handed out. -/
structure Ledger (R : Set ℕ) (s : Heap) (out : List (ℤ × ℕ)) : Prop where
  nodup : out.Nodup
  mem : ∀ p k, (p, k) ∈ out ↔ ∃ i, s.Out R k i ∧ p = s.blkAddr k i

inductive Use where
  | reserved
  | outstanding
  | free

/-- The parts of the heap: each has a use, an address and a class. -/
def Part (R : Set ℕ) (t : Sys) : Use → ℤ → ℕ → Prop
  | .reserved, p, k => ∃ x ∈ R, p = t.heap.blkAddr 0 x ∧ k = 0
  | .outstanding, p, k => (p, k) ∈ t.out
  | .free, p, k => ∃ i, t.heap.Free k i ∧ p = t.heap.blkAddr k i

/-- **The parts tile the heap.** -/
structure Tiles (R : Set ℕ) (t : Sys) : Prop where
  cover : {a | ∃ u p k, Part R t u p k ∧ a ∈ region p k} = region t.heap.bdBase t.heap.maxsize
  apart : ∀ u p k u' p' k', Part R t u p k → Part R t u' p' k' → (u, p, k) ≠ (u', p', k') →
    Disjoint (region p k) (region p' k')
  nodup : t.out.Nodup

variable {R : Set ℕ} {s : Heap} {t t' : Sys} {k i : ℕ} {a : ℤ}

/-! ## Bytes and leaves -/

def Heap.leaf (s : Heap) (a : ℤ) : ℕ := (a - s.bdBase).toNat / leafSize

theorem mem_region_iff (ha : s.bdBase ≤ a) : a ∈ region (s.blkAddr k i) k ↔ s.leaf a / 2 ^ k = i := by
  obtain ⟨d, rfl⟩ : ∃ d : ℕ, a = s.bdBase + d := ⟨(a - s.bdBase).toNat, by omega⟩
  have hleaf : s.leaf (s.bdBase + d) / 2 ^ k = d / blkSize k := by
    unfold leaf blkSize
    rw [add_sub_cancel_left, Int.toNat_natCast, Nat.div_div_eq_div_mul, Nat.mul_comm leafSize]
  have hpos := blkSize_pos k
  rw [hleaf]
  unfold region Heap.blkAddr
  rw [Set.mem_Ico]
  have hcast : (s.bdBase + (i : ℤ) * blkSize k ≤ s.bdBase + d ∧
      s.bdBase + (d : ℤ) < s.bdBase + (i : ℤ) * blkSize k + blkSize k) ↔
        i * blkSize k ≤ d ∧ d < (i + 1) * blkSize k := by
    rw [Nat.succ_mul]
    zify
    constructor <;> rintro ⟨h₁, h₂⟩ <;> constructor <;> linarith
  rw [hcast, ← Nat.le_div_iff_mul_le hpos, ← Nat.div_lt_iff_lt_mul hpos]
  omega

theorem le_of_mem_region (ha : a ∈ region (s.blkAddr k i) k) : s.bdBase ≤ a := by
  have h := ha.1
  unfold Heap.blkAddr at h
  have : (0 : ℤ) ≤ (i : ℤ) * blkSize k := by positivity
  omega

theorem leaf_of_mem (ha : a ∈ region (s.blkAddr k i) k) : s.leaf a / 2 ^ k = i :=
  (mem_region_iff (le_of_mem_region ha)).1 ha

theorem leaf_blkAddr (s : Heap) (x : ℕ) : s.leaf (s.blkAddr 0 x) = x := by
  have h := leaf_of_mem (s := s) (k := 0) (i := x) (a := s.blkAddr 0 x)
    ⟨le_refl _, by have := blkSize_pos 0; omega⟩
  rwa [pow_zero, Nat.div_one] at h

theorem mem_heap_iff (ha : s.bdBase ≤ a) : a ∈ region s.bdBase s.maxsize ↔ s.leaf a < 2 ^ s.maxsize := by
  have h := mem_region_iff (k := s.maxsize) (i := 0) ha
  unfold Heap.blkAddr at h
  rw [Nat.cast_zero, zero_mul, add_zero] at h
  rw [h]
  exact Nat.div_eq_zero_iff_lt (Nat.two_pow_pos _)

/-! ## The invariant -/

/-- The heap is well formed and not too large, and the ledger agrees with it. -/
structure Inv (R : Set ℕ) (t : Sys) : Prop where
  wf : WellFormed R t.heap
  small : t.heap.Small
  ledger : Ledger R t.heap t.out

theorem Inv.part_iff (h : Inv R t) {u : Use} {p : ℤ} : Part R t u p k → ∃ i, p = t.heap.blkAddr k i ∧
    ((u = .reserved ∧ k = 0 ∧ i ∈ R) ∨ (u = .outstanding ∧ t.heap.Out R k i) ∨
      (u = .free ∧ t.heap.Free k i)) := by
  intro hpart
  cases u with
  | reserved =>
    obtain ⟨x, hx, rfl, rfl⟩ := hpart
    exact ⟨x, rfl, Or.inl ⟨rfl, rfl, hx⟩⟩
  | outstanding =>
    obtain ⟨i, ho, rfl⟩ := (h.ledger.mem p k).1 hpart
    exact ⟨i, rfl, Or.inr (Or.inl ⟨rfl, ho⟩)⟩
  | free =>
    obtain ⟨i, hf, rfl⟩ := hpart
    exact ⟨i, rfl, Or.inr (Or.inr ⟨rfl, hf⟩)⟩

theorem Inv.piece {u : Use}
    (hu : (u = .outstanding ∧ t.heap.Out R k i) ∨ (u = .free ∧ t.heap.Free k i)) :
    t.heap.bits.Piece R t.heap.maxsize k i := hu.elim (fun h => Or.inr h.2) fun h => Or.inl h.2

theorem Inv.tiles (h : Inv R t) : Tiles R t := by
  have htree := h.wf.tree
  refine ⟨Set.ext fun a => ⟨?_, fun ha => ?_⟩, ?_, h.ledger.nodup⟩
  · rintro ⟨u, p, k, hpart, ha⟩
    obtain ⟨i, rfl, hu⟩ := h.part_iff hpart
    rw [mem_heap_iff (le_of_mem_region ha)]
    have hleaf := leaf_of_mem ha
    rcases hu with ⟨-, rfl, hi⟩ | hu
    · rw [pow_zero, Nat.div_one] at hleaf
      rw [hleaf]
      exact htree.reserved i hi
    · have hp := Inv.piece hu
      have hlt := hp.lt
      rw [← hleaf, Nat.div_lt_iff_lt_mul (Nat.two_pow_pos k), ← pow_add, Nat.sub_add_cancel hp.le] at hlt
      exact hlt
  · have hbase : t.heap.bdBase ≤ a := ha.1
    rw [mem_heap_iff hbase] at ha
    rcases htree.cover ha with hR | ⟨k, hp⟩
    · refine ⟨.reserved, _, 0, ⟨_, hR, rfl, rfl⟩, (mem_region_iff hbase).2 ?_⟩
      rw [pow_zero, Nat.div_one]
    · have hmem := (mem_region_iff (k := k) hbase).2 rfl
      rcases hp with hf | ho
      · exact ⟨.free, _, k, ⟨_, hf, rfl⟩, hmem⟩
      · exact ⟨.outstanding, _, k, (h.ledger.mem _ k).2 ⟨_, ho, rfl⟩, hmem⟩
  · -- two parts with a byte in common have the same leaf, and the leaf lies in one piece only
    intro u p k u' p' k' hpart hpart' hne
    rw [Set.disjoint_left]
    intro a ha ha'
    obtain ⟨i, rfl, hu⟩ := h.part_iff hpart
    obtain ⟨i', rfl, hu'⟩ := h.part_iff hpart'
    have hleaf := leaf_of_mem ha
    have hleaf' := leaf_of_mem ha'
    have hreserved : ∀ {k j}, t.heap.bits.Piece R t.heap.maxsize k j → t.heap.leaf a / 2 ^ k = j →
        t.heap.leaf a ∉ R := fun hp hj hR => htree.not_holds hp ⟨_, hR, hj⟩
    rcases hu with ⟨rfl, rfl, hi⟩ | hu
    · rw [pow_zero, Nat.div_one] at hleaf
      rcases hu' with ⟨rfl, rfl, hi'⟩ | hu'
      · rw [pow_zero, Nat.div_one] at hleaf'
        exact hne (by rw [← hleaf, hleaf'])
      · exact hreserved (Inv.piece hu') hleaf' (hleaf ▸ hi)
    · have hp := Inv.piece hu
      rcases hu' with ⟨rfl, rfl, hi'⟩ | hu'
      · rw [pow_zero, Nat.div_one] at hleaf'
        exact hreserved hp hleaf (hleaf' ▸ hi')
      · have hp' := Inv.piece hu'
        have hlt : t.heap.leaf a < 2 ^ t.heap.maxsize := by
          have hlt := hp.lt
          rwa [← hleaf, Nat.div_lt_iff_lt_mul (Nat.two_pow_pos k), ← pow_add,
            Nat.sub_add_cancel hp.le] at hlt
        obtain rfl : k = k' := htree.unique hlt (hleaf.symm ▸ hp) (hleaf'.symm ▸ hp')
        obtain rfl : i = i' := hleaf.symm.trans hleaf'
        rcases hu with ⟨rfl, ho⟩ | ⟨rfl, hf⟩
        · rcases hu' with ⟨rfl, _⟩ | ⟨rfl, hf⟩
          · exact hne rfl
          · exact Sound.not_free_of_out ho hf
        · rcases hu' with ⟨rfl, ho⟩ | ⟨rfl, _⟩
          · exact Sound.not_free_of_out ho hf
          · exact hne rfl

/-! ## The actions keep the invariant -/

theorem Ledger.add {s' : Heap} {out : List (ℤ × ℕ)} (hl : Ledger R s out) (hnot : ¬ s.Out R k i)
    (hb : Becomes R s s' fun k' i' => s.Out R k' i' ∨ At k i k' i') :
    Ledger R s' ((s.blkAddr k i, k) :: out) := by
  constructor
  · refine List.nodup_cons.2 ⟨fun hmem => ?_, hl.nodup⟩
    obtain ⟨i', ho, heq⟩ := (hl.mem _ _).1 hmem
    rw [blkAddr_inj heq] at hnot
    exact hnot ho
  · intro p k'
    rw [List.mem_cons, hl.mem]
    constructor
    · rintro (heq | ⟨i', ho, rfl⟩)
      · cases heq
        exact ⟨i, (hb.out k i).2 (Or.inr ⟨rfl, rfl⟩), (hb.blkAddr k i).symm⟩
      · exact ⟨i', (hb.out k' i').2 (Or.inl ho), (hb.blkAddr k' i').symm⟩
    · rintro ⟨i', ho, rfl⟩
      rw [hb.blkAddr]
      rcases (hb.out k' i').1 ho with ho | ⟨rfl, rfl⟩
      · exact Or.inr ⟨i', ho, rfl⟩
      · exact Or.inl rfl

theorem Ledger.drop {s' : Heap} {out : List (ℤ × ℕ)} (hl : Ledger R s out)
    (hb : Becomes R s s' fun k' i' => s.Out R k' i' ∧ ¬ At k i k' i') :
    Ledger R s' (out.erase (s.blkAddr k i, k)) := by
  refine ⟨hl.nodup.erase _, fun p k' => ?_⟩
  rw [hl.nodup.mem_erase_iff, hl.mem]
  constructor
  · rintro ⟨hne, i', ho, rfl⟩
    refine ⟨i', (hb.out k' i').2 ⟨ho, ?_⟩, (hb.blkAddr k' i').symm⟩
    rintro ⟨rfl, rfl⟩
    exact hne rfl
  · rintro ⟨i', ho, rfl⟩
    obtain ⟨ho, hne⟩ := (hb.out k' i').1 ho
    rw [hb.blkAddr]
    refine ⟨fun heq => ?_, i', ho, rfl⟩
    rw [Prod.mk.injEq] at heq
    obtain ⟨heq, rfl⟩ := heq
    exact hne ⟨rfl, blkAddr_inj heq⟩

theorem Inv.poke (h : Inv R t) {e : ℤ × ℕ} (he : e ∈ t.out) (ha : a ∈ region e.1 e.2) (next prev : Ptr) :
    Inv R { t with heap := t.heap.poke a next prev } := by
  obtain ⟨i, ho, hp⟩ := (h.ledger.mem e.1 e.2).1 he
  rw [hp] at ha
  have hlist : (t.heap.poke a next prev).Listed t.heap.Free := by
    obtain ⟨ls, hfam, hmem⟩ := h.wf.listed
    have hne : ∀ x, (∃ k ∈ {k | k ≤ t.heap.maxsize}, x ∈ Ptr.head k :: (ls k).map (t.heap.ptr k)) →
        x ≠ .blk a := by
      rintro x ⟨k, hk, hx⟩ rfl
      rcases List.mem_cons.1 hx with hx | hx
      · cases hx
      · obtain ⟨i', hi', heq⟩ := List.mem_map.1 hx
        have hf := (hmem k hk i').1 hi'
        have heq : t.heap.blkAddr k i' = a := Ptr.blk.inj heq
        have hleaf := leaf_of_mem ha
        rw [← heq, t.heap.blkAddr_eq_leaf, leaf_blkAddr] at hleaf
        have hat := h.wf.eq_of_inside (Or.inl hf) (Or.inr (hleaf.symm ▸ ho)) (t.heap.blkAddr_eq_leaf k i')
        rw [hleaf] at hat
        obtain ⟨rfl, rfl⟩ := hat
        exact Sound.not_free_of_out ho hf
    exact ⟨ls, hfam.congr (fun x hx => update_of_ne (hne x hx) _ _)
      fun x hx => update_of_ne (hne x hx) _ _, hmem⟩
  exact ⟨.of_listed h.wf.pos h.wf.tree hlist fun _ _ => Iff.rfl, h.small, h.ledger.nodup, h.ledger.mem⟩

theorem Inv.malloc (h : Inv R t) {n : UInt64} (hn : n.toNat ≤ blkSize t.heap.maxsize) :
    ∃ k, IsLeast {k | n.toNat ≤ blkSize k} k ∧
      ((∃ i s, t.heap.bdMalloc n = .ok (some (t.heap.blkAddr k i), s) ∧
          step t (.malloc n) = some ⟨s, (t.heap.blkAddr k i, k) :: t.out⟩ ∧
          Inv R ⟨s, (t.heap.blkAddr k i, k) :: t.out⟩ ∧
          s.bdBase = t.heap.bdBase ∧ s.nsizes = t.heap.nsizes) ∨
        t.heap.bdMalloc n = .ok (none, t.heap) ∧ step t (.malloc n) = some t ∧
          ∀ j i, k ≤ j → ¬ t.heap.Free j i) := by
  obtain ⟨k, hk, hleast, hcase⟩ := bdMalloc_spec h.wf h.small hn
  refine ⟨k, hleast, hcase.imp ?_ ?_⟩
  · rintro ⟨i, s, hcode, hnot, hb⟩
    refine ⟨i, s, hcode, ?_, ⟨hb.wf, hb.small h.small, h.ledger.add hnot hb⟩, hb.base, hb.nsizes⟩
    simp only [step, if_pos hn, hk, hcode]
  · rintro ⟨hcode, hnone⟩
    refine ⟨hcode, ?_, fun j i hj => hnone j i hj⟩
    simp only [step, if_pos hn, hk, hcode]

theorem Inv.free (h : Inv R t) {e : ℤ × ℕ} (he : e ∈ t.out) :
    t.heap.size e.1 = .ok e.2 ∧ ∃ s, t.heap.bdFree e.1 = .ok s ∧
      step t (.free e) = some ⟨s, t.out.erase e⟩ ∧ Inv R ⟨s, t.out.erase e⟩ ∧
        s.bdBase = t.heap.bdBase ∧ s.nsizes = t.heap.nsizes := by
  obtain ⟨p, k⟩ := e
  obtain ⟨i, ho, rfl⟩ := (h.ledger.mem p k).1 he
  obtain ⟨s, hcode, hb⟩ := bdFree_spec h.wf h.small ho
  refine ⟨size_spec h.wf h.small ho, s, hcode, ?_, ⟨hb.wf, hb.small h.small, h.ledger.drop hb⟩,
    hb.base, hb.nsizes⟩
  simp only [step, if_pos he, hcode]

theorem Inv.step (h : Inv R t) {act : Act} (hstep : step t act = some t') :
    Inv R t' ∧ t'.heap.bdBase = t.heap.bdBase ∧ t'.heap.nsizes = t.heap.nsizes := by
  cases act with
  | malloc n =>
    have hn : n.toNat ≤ blkSize t.heap.maxsize := by
      by_contra hn
      simp only [Buddy.step, if_neg hn] at hstep
      cases hstep
    obtain ⟨k, -, ⟨i, s, -, hs, hinv, hbase⟩ | ⟨-, hs, -⟩⟩ := h.malloc hn
    · rw [hs] at hstep
      cases hstep
      exact ⟨hinv, hbase⟩
    · rw [hs] at hstep
      cases hstep
      exact ⟨h, rfl, rfl⟩
  | free e =>
    have he : e ∈ t.out := by
      by_contra he
      simp only [Buddy.step, if_neg he] at hstep
      cases hstep
    obtain ⟨-, s, -, hs, hinv, hbase⟩ := h.free he
    rw [hs] at hstep
    cases hstep
    exact ⟨hinv, hbase⟩
  | write a next prev =>
    simp only [Buddy.step] at hstep
    split_ifs at hstep with hin
    obtain ⟨e, he, ha⟩ := hin
    cases hstep
    exact ⟨h.poke he ha next prev, rfl, rfl⟩

/-- **The buddy allocator.** Start from a well-formed heap of at most `2 ^ 31` bytes whose ledger
has the blocks handed out. In every state reached the heap is well formed, in its place, and tiled
by reserved leaves, outstanding blocks and free blocks. There, `bd_malloc` hands out a block of the
least class that is large enough, at a multiple of its size from the heap's start, unless no block of
that class or a larger one is free; and `bd_free` of an outstanding pointer finds the pointer's
class. -/
theorem buddy_heap {out : List (ℤ × ℕ)} (hwf : WellFormed R s) (hsize : blkSize s.maxsize ≤ 2 ^ 31)
    (hout : Ledger R s out) (hr : Reach step any ⟨s, out⟩ t) :
    WellFormed R t.heap ∧ Tiles R t ∧ Ledger R t.heap t.out ∧
      (t.heap.bdBase = s.bdBase ∧ t.heap.nsizes = s.nsizes) ∧
      (∀ n : UInt64, n.toNat ≤ blkSize t.heap.maxsize → ∃ k, IsLeast {k | n.toNat ≤ blkSize k} k ∧
        ((∃ p s', t.heap.bdMalloc n = .ok (some p, s') ∧
            step t (.malloc n) = some ⟨s', (p, k) :: t.out⟩ ∧ (blkSize k : ℤ) ∣ p - t.heap.bdBase) ∨
          t.heap.bdMalloc n = .ok (none, t.heap) ∧ ∀ j i, k ≤ j → ¬ t.heap.Free j i)) ∧
      ∀ p k, (p, k) ∈ t.out → t.heap.size p = .ok k ∧
        ∃ s', t.heap.bdFree p = .ok s' ∧ step t (.free (p, k)) = some ⟨s', t.out.erase (p, k)⟩ := by
  have hsmall : s.Small := hsize
  have h₀ : Inv R ⟨s, out⟩ := ⟨hwf, hsmall, hout⟩
  have hinv : Inv R t ∧ t.heap.bdBase = s.bdBase ∧ t.heap.nsizes = s.nsizes := by
    refine hr.inv (I := fun t => Inv R t ∧ t.heap.bdBase = s.bdBase ∧ t.heap.nsizes = s.nsizes)
      ⟨h₀, rfl, rfl⟩ ?_
    rintro t act t' ⟨h, hbase, hn⟩ - hstep
    obtain ⟨h', hbase', hn'⟩ := h.step hstep
    exact ⟨h', hbase'.trans hbase, hn'.trans hn⟩
  obtain ⟨h, hplace⟩ := hinv
  refine ⟨h.wf, h.tiles, h.ledger, hplace, fun n hn => ?_, fun p k hmem => ?_⟩
  · obtain ⟨k, hleast, hcase⟩ := h.malloc hn
    refine ⟨k, hleast, hcase.imp ?_ fun hnone => ⟨hnone.1, hnone.2.2⟩⟩
    rintro ⟨i, s', hcode, hstep, -, -⟩
    refine ⟨_, s', hcode, hstep, ?_⟩
    unfold Heap.blkAddr
    rw [add_sub_cancel_left]
    exact dvd_mul_left _ _
  · obtain ⟨hclass, s', hcode, hstep, -⟩ := h.free hmem
    exact ⟨hclass, s', hcode, hstep⟩

/-! ## A small heap -/

/-- Four leaves of which the first is reserved: the second leaf and the second half are free. -/
def smallHeap : Heap where
  nsizes := 3
  bdBase := 0
  alloc _ j := if j = 0 then 1 else 0
  split _ j := if j = 0 then 1 else 0
  links :=
    let other : Ptr → Ptr
      | .head k => if k < 2 then .blk (blkSize k) else .head k
      | .blk a => if a = 16 then .head 0 else .head 1
    ⟨other, other⟩

theorem smallHeap_isset (i : ℕ) :
    bitIsset (fun j : ℤ => if j = 0 then (1 : UInt8) else 0) i = decide (i = 0) := by
  rw [bitIsset_eq]
  by_cases hi : i / 8 = 0
  · rw [hi, if_pos Nat.cast_zero]
    have hlt : i < 8 := by omega
    interval_cases i <;> rfl
  · rw [if_neg (by exact_mod_cast hi)]
    have hne : i ≠ 0 := by omega
    simp [hne]

/-- The bits of a heap with one reserved leaf, the first, and nothing handed out. -/
def leafBits : Bits := ⟨fun _ i => decide (i = 0), fun _ i => decide (i = 0)⟩

theorem free_iff_of_leafBits {n : ℕ} (hn : s.maxsize = n) (hbits : s.bits = leafBits) :
    s.Free k i ↔ k < n ∧ i = 1 := by
  unfold Heap.Free Bits.Free
  rw [hbits, hn]
  simp only [leafBits, decide_eq_false_iff_not, decide_eq_true_eq]
  constructor
  · rintro ⟨hk, -, h0, h1⟩
    omega
  · rintro ⟨hk, rfl⟩
    exact ⟨hk, Nat.one_lt_two_pow (by omega), by omega, by omega⟩

theorem wellFormed_of_leafBits {n : ℕ} (hn : s.nsizes = n + 1) (hbits : s.bits = leafBits)
    (hlist : ∀ k < n, s.links.Adj (.head k) (s.ptr k 1) ∧ s.links.Adj (s.ptr k 1) (.head k))
    (hlast : s.links.Adj (.head n) (.head n)) : WellFormed {0} s := by
  have hmax : s.maxsize = n := by rw [Heap.maxsize, hn, Nat.add_sub_cancel]
  refine ⟨by omega, ⟨?_, ⟨0, rfl⟩, ?_, ?_, ?_, ?_⟩, ?_, ?_⟩
  · rintro x rfl
    exact Nat.two_pow_pos _
  · rintro k i - ⟨x, rfl, rfl⟩
    rw [hbits]
    simp [leafBits]
  · intro k i _ _ hs
    rw [hbits] at hs ⊢
    exact hs.2
  · rintro k i ⟨h₁, h₂⟩
    have h₁ := ((free_iff_of_leafBits hmax hbits).1 h₁).2
    have h₂ := ((free_iff_of_leafBits hmax hbits).1 h₂).2
    exact buddy_ne i (h₂.trans h₁.symm)
  · intro k i _ _ hs j hj i' hi'
    rw [hbits] at hs ⊢
    have hi : i' ≠ 0 := by
      rintro rfl
      rw [Nat.zero_div] at hi'
      exact hs ⟨by omega, by simp [leafBits, ← hi']⟩
    simp [leafBits, Bits.Split, hi]
  · intro k hk
    rw [hmax] at hk
    refine ⟨[1], ⟨?_, by simp [ptr]⟩, fun i => ?_⟩
    · exact List.isChain_cons_cons.2 ⟨(hlist k hk).1, List.isChain_pair.2 (hlist k hk).2⟩
    · rw [List.mem_singleton, free_iff_of_leafBits hmax hbits]
      exact (and_iff_right hk).symm
  · rw [hmax]
    exact ⟨List.isChain_pair.2 hlast, by simp⟩

theorem smallHeap_bits : smallHeap.bits = leafBits :=
  congrArg₂ Bits.mk (funext₂ fun _ i => smallHeap_isset i) (funext₂ fun _ i => smallHeap_isset i)

theorem smallHeap_wellFormed : WellFormed {0} smallHeap := by
  refine wellFormed_of_leafBits rfl smallHeap_bits (fun k hk => ?_) ⟨rfl, rfl⟩
  interval_cases k <;> exact ⟨⟨rfl, rfl⟩, rfl, rfl⟩

theorem smallHeap_ledger : Ledger {0} smallHeap [] := by
  refine ⟨List.nodup_nil, fun p k => iff_of_false List.not_mem_nil ?_⟩
  rintro ⟨i, ho, -⟩
  obtain ⟨-, -, ha, -, hh⟩ := ho
  rw [smallHeap_bits] at ha
  obtain rfl : i = 0 := of_decide_eq_true ha
  exact hh ⟨0, rfl, Nat.zero_div _⟩

/-- Two requests of one byte take the free leaf, and then half of the free half. -/
theorem buddy_heap_small : ∃ t, Reach step any ⟨smallHeap, []⟩ t ∧ t.out = [(32, 0), (16, 0)] ∧
    WellFormed {0} t.heap ∧ Tiles {0} t := by
  have hrun : (exec step ⟨smallHeap, []⟩ [.malloc 1, .malloc 1]).any
      (fun t => t.out = [(32, 0), (16, 0)]) = true := by decide +kernel
  have hok : ∀ s : Sys, ∀ a ∈ [Act.malloc 1, Act.malloc 1], any s a := fun _ _ _ => trivial
  obtain ⟨t, hr, ht⟩ := Reach.of_exec_any hok hrun
  have h := buddy_heap smallHeap_wellFormed (by decide) smallHeap_ledger hr
  exact ⟨t, hr, of_decide_eq_true ht, h.1, h.2.1⟩

end Xv6.Buddy
