import Xv6.Umalloc.Code

/-!
# Where the blocks are

Which bytes belong to free blocks and which to the program, apart from the order of the free list and from what is in
memory.

* `Block.bytes`, `span`, `units`: the bytes of a block, and of several.
* `Layout base L O G`: of the memory `G` that `sbrk` has returned, `L` is free and `O` is given out; no byte is both,
  and nothing is lost.
* `Layout.give`, `Layout.change`, `Layout.grow`: a block changes hands, the blocks are cut in another way, `sbrk`
  returns more.
* `Sorted`: free blocks in the order of their addresses, no two adjacent.
-/

namespace Xv6.Umalloc

def Block.bytes (b : Block) : Set ℕ := Set.Ico b.addr b.stop

theorem Block.mem_bytes {b : Block} {x : ℕ} : x ∈ b.bytes ↔ b.addr ≤ x ∧ x < b.stop := Iff.rfl

theorem Block.addr_mem {b : Block} (h : 0 < b.units) : b.addr ∈ b.bytes := by
  rw [mem_bytes, stop]
  omega

def span (L : List Block) : Set ℕ := {x | ∃ b ∈ L, x ∈ b.bytes}

def units (L : List Block) : ℕ := (L.map Block.units).sum

section

variable {b c : Block} {L L' O G : List Block} {base : ℕ}

theorem mem_span {x : ℕ} : x ∈ span L ↔ ∃ b ∈ L, x ∈ b.bytes := Iff.rfl

@[simp] theorem span_nil : span [] = ∅ := by
  ext x
  simp [span]

@[simp] theorem span_cons : span (b :: L) = b.bytes ∪ span L := by
  ext x
  simp [span]

@[simp] theorem span_append : span (L ++ L') = span L ∪ span L' := by
  ext x
  simp [span, or_and_right, exists_or]

@[simp] theorem units_nil : units [] = 0 := rfl

@[simp] theorem units_cons : units (b :: L) = b.units + units L := List.sum_cons

@[simp] theorem units_append : units (L ++ L') = units L + units L' := by
  simp [units]

theorem bytes_join (h : b.stop = c.addr) :
    (⟨b.addr, b.units + c.units⟩ : Block).bytes = b.bytes ∪ c.bytes := by
  ext x
  simp only [Block.mem_bytes, Set.mem_union, Block.stop] at h ⊢
  omega

/-- **The memory `G` is split into free blocks `L` and blocks `O` that are given out.** -/
structure Layout (base : ℕ) (L O G : List Block) : Prop where
  pos : ∀ b ∈ L ++ O, 0 < b.units
  out : O.Pairwise fun b c => Disjoint b.bytes c.bytes
  apart : Disjoint (span L) (span O)
  cover : span L ∪ span O = span G
  total : units L + units O = units G
  low : ∀ x ∈ span G, base + 16 ≤ x

namespace Layout

theorem base_lt (h : Layout base L O G) (hb : b ∈ L ++ O) : base + 16 ≤ b.addr := by
  apply h.low
  rw [← h.cover, ← span_append]
  exact ⟨b, hb, Block.addr_mem (h.pos b hb)⟩

theorem addr_ne (h : Layout base L O G) (hb : b ∈ L) (hc : c ∈ O) : b.addr ≠ c.addr := by
  intro he
  refine Set.disjoint_left.1 h.apart ⟨b, hb, Block.addr_mem (h.pos b (List.mem_append_left _ hb))⟩ ⟨c, hc, ?_⟩
  rw [he]
  exact Block.addr_mem (h.pos c (List.mem_append_right _ hc))

theorem change (h : Layout base L O G) (hspan : span L' = span L) (hunits : units L' = units L)
    (hpos : ∀ b ∈ L', 0 < b.units) : Layout base L' O G where
  pos := by
    intro b hb
    rcases List.mem_append.1 hb with hb | hb
    · exact hpos b hb
    · exact h.pos b (List.mem_append_right _ hb)
  out := h.out
  apart := by rw [hspan]; exact h.apart
  cover := by rw [hspan]; exact h.cover
  total := by rw [hunits]; exact h.total
  low := h.low

theorem free (h : Layout base L (b :: O) G) : Layout base (b :: L) O G where
  pos := by
    intro c hc
    apply h.pos
    simp only [List.cons_append, List.mem_cons, List.mem_append] at hc ⊢
    tauto
  out := (List.pairwise_cons.1 h.out).2
  apart := by
    have hb : Disjoint b.bytes (span O) := by
      rw [Set.disjoint_left]
      rintro x hx ⟨c, hc, hxc⟩
      exact Set.disjoint_left.1 ((List.pairwise_cons.1 h.out).1 c hc) hx hxc
    have hL := h.apart
    rw [span_cons, Set.disjoint_union_right] at hL
    rw [span_cons, Set.disjoint_union_left]
    exact ⟨hb, hL.2⟩
  cover := by
    rw [← h.cover, span_cons, span_cons, Set.union_comm b.bytes, Set.union_assoc]
  total := by
    rw [← h.total, units_cons, units_cons]
    omega
  low := h.low

theorem give (h : Layout base (b :: L) O G) (hb : Disjoint b.bytes (span L)) : Layout base L (b :: O) G where
  pos := by
    intro c hc
    apply h.pos
    simp only [List.cons_append, List.mem_cons, List.mem_append] at hc ⊢
    tauto
  out := by
    refine List.pairwise_cons.2 ⟨fun c hc => ?_, h.out⟩
    have happ := h.apart
    rw [span_cons, Set.disjoint_union_left] at happ
    rw [Set.disjoint_left]
    intro x hx hxc
    exact Set.disjoint_left.1 happ.1 hx ⟨c, hc, hxc⟩
  apart := by
    have happ := h.apart
    rw [span_cons, Set.disjoint_union_left] at happ
    rw [span_cons, Set.disjoint_union_right]
    exact ⟨hb.symm, happ.2⟩
  cover := by
    rw [← h.cover, span_cons, span_cons, Set.union_left_comm, Set.union_assoc]
  total := by
    rw [← h.total, units_cons, units_cons]
    omega
  low := h.low

theorem grow (h : Layout base L O G) (hpos : 0 < b.units) (hlow : base + 16 ≤ b.addr)
    (hnew : ∀ c ∈ G, c.stop ≤ b.addr) : Layout base L (b :: O) (G ++ [b]) := by
  have hb : Disjoint b.bytes (span G) := by
    rw [Set.disjoint_left]
    rintro x hx ⟨c, hc, hxc⟩
    exact absurd (hxc.2.trans_le (hnew c hc)) (Nat.not_lt.2 hx.1)
  rw [← h.cover, Set.disjoint_union_right] at hb
  constructor
  · intro c hc
    simp only [List.mem_append, List.mem_cons] at hc
    rcases hc with hc | rfl | hc
    · exact h.pos c (List.mem_append_left _ hc)
    · exact hpos
    · exact h.pos c (List.mem_append_right _ hc)
  · refine List.pairwise_cons.2 ⟨fun c hc => ?_, h.out⟩
    rw [Set.disjoint_left]
    intro x hx hxc
    exact Set.disjoint_left.1 hb.2 hx ⟨c, hc, hxc⟩
  · rw [span_cons, Set.disjoint_union_right]
    exact ⟨hb.1.symm, h.apart⟩
  · rw [span_append, ← h.cover, span_cons, span_cons, span_nil]
    ext x
    simp only [Set.mem_union, Set.mem_empty_iff_false]
    tauto
  · rw [units_append, ← h.total, units_cons, units_cons, units_nil]
    omega
  · intro x hx
    rw [span_append] at hx
    rcases hx with hx | hx
    · exact h.low x hx
    · simp only [span_cons, span_nil, Set.union_empty] at hx
      exact hlow.trans hx.1

theorem out_addr_ne (h : Layout base L (b :: O) G) (hc : c ∈ O) : b.addr ≠ c.addr := by
  intro he
  refine Set.disjoint_left.1 ((List.pairwise_cons.1 h.out).1 c hc)
    (Block.addr_mem (h.pos b (List.mem_append_right _ List.mem_cons_self))) ?_
  rw [he]
  exact Block.addr_mem (h.pos c (List.mem_append_right _ (List.mem_cons_of_mem _ hc)))

end Layout

/-! ## Order -/

/-- In the order of the addresses, with something between each two. -/
def Sorted (L : List Block) : Prop := L.Pairwise fun b c => b.stop < c.addr

theorem addr_le_stop (b : Block) : b.addr ≤ b.stop := Nat.le_add_right _ _

theorem before_or_after (hb : 0 < b.units) (hc : 0 < c.units) (h : Disjoint b.bytes c.bytes) :
    b.stop ≤ c.addr ∨ c.stop ≤ b.addr := by
  by_contra hno
  rw [not_or, Nat.not_le, Nat.not_le] at hno
  rcases le_total b.addr c.addr with hle | hle
  · exact Set.disjoint_left.1 h ⟨hle, hno.1⟩ (Block.addr_mem hc)
  · exact Set.disjoint_left.1 h (Block.addr_mem hb) ⟨hle, hno.2⟩

theorem disjoint_of_before (h : b.stop ≤ c.addr) : Disjoint b.bytes c.bytes := by
  rw [Set.disjoint_left]
  intro x hx hxc
  exact absurd (hx.2.trans_le h) (Nat.not_lt.2 hxc.1)

end

end Xv6.Umalloc
