import Xv6.Umalloc.Layout

/-!
# The free list

The list starts at `base`, which is below all blocks and has no units, so that it is never given out; from there it
goes through the free blocks in the order of their addresses, and back to `base`.

* `Ready`: memory holds the free list and the sizes of all blocks.
* `Ready.seek`: the loop of `free` ends, and where. `Open`: a block is to be put into the list at a place.
  `Ready.joinUp`, `Open.joinDown`: it is, and is joined to its neighbours.
* **`Ready.free`**: what `free` does.
-/

namespace Xv6.Umalloc

open Function Circle

abbrev next (m : ℕ → Header) (a : ℕ) : ℕ := (m a).ptr

abbrev nodes (base : ℕ) (L : List Block) : List ℕ := base :: L.map Block.addr

/-- **Memory holds the free list `L`**, and the sizes of all blocks. -/
structure Ready (base : ℕ) (m : ℕ → Header) (freep : ℕ) (L O G : List Block) : Prop where
  layout : Layout base L O G
  sorted : Sorted L
  ring : Linked (next m) base (L.map Block.addr) base
  empty : (m base).size = 0
  sizes : ∀ b ∈ L ++ O, (m b.addr).size.toNat = b.units
  rover : freep ∈ nodes base L

variable {base freep p : ℕ} {m m' : ℕ → Header} {b c : Block} {L L₁ L₂ O G : List Block}

theorem Ready.congr (h : Ready base m freep L O G) (hm : ∀ a ∈ nodes base (L ++ O), m' a = m a) :
    Ready base m' freep L O G := by
  have hL : ∀ b ∈ L ++ O, m' b.addr = m b.addr := fun b hb => hm _ (List.mem_cons_of_mem _ (List.mem_map_of_mem hb))
  refine ⟨h.layout, h.sorted, h.ring.congr fun a ha => ?_, ?_, fun b hb => ?_, h.rover⟩
  · have hmem : a ∈ nodes base (L ++ O) := by
      simp only [List.map_append, List.mem_cons, List.mem_append] at ha ⊢
      tauto
    rw [next, hm a hmem]
  · rw [hm base List.mem_cons_self, h.empty]
  · rw [hL b hb, h.sizes b hb]

/-! ## The loop of free -/

theorem exists_seat {a bp z : ℕ} (hring : Linked (next m) a (L.map Block.addr) z) (hz : z ≤ a) (ha : a < bp)
    (hsorted : (nodes a L).Pairwise (· < ·)) (hne : ∀ c ∈ L, c.addr ≠ bp) :
    ∃ x ∈ nodes a L, Seat m bp x := by
  induction L generalizing a with
  | nil =>
    have hnext : (m a).ptr = z := hring
    exact ⟨a, List.mem_cons_self, .inr ⟨by omega, .inl ha⟩⟩
  | cons c L ih =>
    have hnext : (m a).ptr = c.addr := hring.1
    have hac : a < c.addr := (List.pairwise_cons.1 hsorted).1 _ List.mem_cons_self
    by_cases hc : bp < c.addr
    · exact ⟨a, List.mem_cons_self, .inl ⟨ha, by omega⟩⟩
    · have hlt : c.addr < bp := lt_of_le_of_ne (Nat.not_lt.1 hc) (hne c List.mem_cons_self)
      obtain ⟨x, hx, hseat⟩ := ih hring.2 (by omega) hlt (List.pairwise_cons.1 hsorted).2
        fun d hd => hne d (List.mem_cons_of_mem _ hd)
      exact ⟨x, List.mem_cons_of_mem _ hx, hseat⟩

theorem Ready.increasing (h : Ready base m freep L O G) : (nodes base L).Pairwise (· < ·) := by
  refine List.pairwise_cons.2 ⟨fun a ha => ?_, ?_⟩
  · obtain ⟨b, hb, rfl⟩ := List.mem_map.1 ha
    have := h.layout.base_lt (List.mem_append_left _ hb)
    omega
  · rw [List.pairwise_map]
    refine h.sorted.imp fun {b c} hbc => ?_
    have := addr_le_stop b
    omega

theorem Ready.seek {s : Heap} (h : Ready base s.mem s.freep L (b :: O) G) :
    ∃ x ∈ nodes base L, Seat s.mem b.addr x ∧ ∀ fuel, L.length < fuel → seek s b.addr fuel = some x := by
  have hb : b ∈ L ++ b :: O := List.mem_append_right _ List.mem_cons_self
  have hlow := h.layout.base_lt hb
  obtain ⟨x, hx, hseat⟩ := exists_seat h.ring le_rfl (by omega : base < b.addr) h.increasing
    fun c hc => h.layout.addr_ne hc List.mem_cons_self
  obtain ⟨r, hr, hperm⟩ := h.ring.rotate h.rover
  obtain ⟨y, hy, hstop, hsearch⟩ := hr.search_eq ⟨x, hperm.mem_iff.2 hx, hseat⟩
  refine ⟨y, hperm.mem_iff.1 hy, hstop, fun fuel hfuel => hsearch fuel ?_⟩
  have hlen := hperm.length_eq
  simp only [List.length_cons, List.length_map] at hlen
  omega

theorem exists_cut (hp : p ∈ nodes base L) :
    ∃ L₁ L₂, L = L₁ ++ L₂ ∧ last base (L₁.map Block.addr) = p := by
  obtain ⟨l₁, l₂, hl, hlast⟩ := exists_last_eq hp
  obtain ⟨L₁, L₂, rfl, rfl, rfl⟩ := List.map_eq_append_iff.1 hl
  exact ⟨L₁, L₂, rfl, hlast⟩

def head (base : ℕ) : List Block → ℕ
  | [] => base
  | c :: _ => c.addr

theorem Ready.ptr_cut (h : Ready base m freep (L₁ ++ L₂) O G) (hp : last base (L₁.map Block.addr) = p) :
    (m p).ptr = head base L₂ ∧ ∃ z, Linked (next m) base (L₁.map Block.addr) z := by
  have hring := h.ring
  cases L₂ with
  | nil =>
    rw [List.append_nil] at hring
    exact ⟨by rw [← hp]; exact hring.next_last, _, hring⟩
  | cons c L₂ =>
    rw [List.map_append, List.map_cons, linked_append] at hring
    exact ⟨by rw [← hp]; exact hring.1.next_last, _, hring.1⟩

variable (base) in
theorem last_eq_of_ne_nil (h : L₁ ≠ []) : ∃ K a, L₁ = K ++ [a] ∧ last base (L₁.map Block.addr) = a.addr := by
  obtain ⟨K, a, rfl⟩ := List.eq_nil_or_concat L₁ |>.resolve_left h
  refine ⟨K, a, by simp, ?_⟩
  rw [List.concat_eq_append, List.map_append]
  exact last_append []

variable (base) in
theorem le_last (hsorted : Sorted L₁) (hc : c ∈ L₁) : c.addr ≤ last base (L₁.map Block.addr) := by
  obtain ⟨K, a, rfl, hlast⟩ := last_eq_of_ne_nil base (List.ne_nil_of_mem hc)
  rw [hlast]
  rcases List.mem_append.1 hc with hc | hc
  · have := (List.pairwise_append.1 hsorted).2.2 c hc a (List.mem_singleton_self a)
    have := addr_le_stop c
    omega
  · rw [List.mem_singleton] at hc
    rw [hc]

/-- **The loop of `free` ends at the right place**: the block lies between the two parts of the list. -/
theorem Ready.cut (h : Ready base m freep (L₁ ++ L₂) (b :: O) G) (hp : last base (L₁.map Block.addr) = p)
    (hseat : Seat m b.addr p) :
    (∀ c ∈ L₁, c.stop ≤ b.addr) ∧ (∀ c ∈ L₂, b.stop ≤ c.addr) := by
  have hbpos : 0 < b.units := h.layout.pos b (List.mem_append_right _ List.mem_cons_self)
  have hblow := h.layout.base_lt (List.mem_append_right (L₁ ++ L₂) (List.mem_cons_self : b ∈ b :: O))
  have hapart : ∀ c ∈ L₁ ++ L₂, Disjoint c.bytes b.bytes := by
    intro c hc
    rw [Set.disjoint_left]
    intro x hx hxb
    exact Set.disjoint_left.1 h.layout.apart ⟨c, hc, hx⟩ ⟨b, List.mem_cons_self, hxb⟩
  have hpos : ∀ c ∈ L₁ ++ L₂, 0 < c.units := fun c hc => h.layout.pos c (List.mem_append_left _ hc)
  have hsorted := List.pairwise_append.1 h.sorted
  obtain ⟨hptr, -⟩ := h.ptr_cut hp
  have hpb : p < b.addr ∧ ∀ c ∈ L₂, b.addr < c.addr := by
    have hincr := h.increasing
    have hpmem : p ∈ base :: L₁.map Block.addr := by rw [← hp]; exact last_mem
    cases L₂ with
    | nil =>
      have hbase : base ≤ p := by
        rcases List.mem_cons.1 hpmem with hpb | hpm
        · exact hpb.ge
        · rw [List.append_nil] at hincr
          exact le_of_lt ((List.pairwise_cons.1 hincr).1 p hpm)
      rw [Seat, hptr, head] at hseat
      refine ⟨by omega, nofun⟩
    | cons c L₂ =>
      have hpc : p < c.addr := by
        rw [nodes, List.map_append, ← List.cons_append] at hincr
        exact (List.pairwise_append.1 hincr).2.2 p hpmem c.addr List.mem_cons_self
      rw [Seat, hptr, head] at hseat
      refine ⟨by omega, fun d hd => ?_⟩
      rcases List.mem_cons.1 hd with rfl | hd
      · omega
      · have := (List.pairwise_cons.1 hsorted.2.1).1 d hd
        have := addr_le_stop c
        omega
  constructor
  · intro c hc
    have hcp := le_last base hsorted.1 hc
    rw [hp] at hcp
    have hmem := List.mem_append_left L₂ hc
    have := addr_le_stop b
    rcases before_or_after (hpos c hmem) hbpos (hapart c hmem) with hle | hle <;> omega
  · intro c hc
    have hbc := hpb.2 c hc
    have hmem := List.mem_append_right L₁ hc
    have := addr_le_stop c
    rcases before_or_after (hpos c hmem) hbpos (hapart c hmem) with hle | hle <;> omega

/-! ## The block is put in -/

/-- **Block `b` is to be put between `L₁` and `L₂`**: it points on already. -/
structure Open (base : ℕ) (m : ℕ → Header) (L₁ : List Block) (b : Block) (L₂ O G : List Block) : Prop where
  layout : Layout base (L₁ ++ b :: L₂) O G
  sorted₁ : Sorted L₁
  sorted₂ : Sorted L₂
  below : ∀ c ∈ L₁, c.stop ≤ b.addr
  above : ∀ c ∈ L₂, b.stop < c.addr
  pre : ∃ z, Linked (next m) base (L₁.map Block.addr) z
  post : Linked (next m) b.addr (L₂.map Block.addr) base
  empty : (m base).size = 0
  sizes : ∀ c ∈ L₁ ++ b :: L₂ ++ O, (m c.addr).size.toNat = c.units

theorem toNat_add_units {x y : UInt32} {i j : ℕ} (hx : x.toNat = i) (hy : y.toNat = j) (h : i + j < 2 ^ 32) :
    (x + y).toNat = i + j := by
  rw [UInt32.toNat_add, hx, hy, Nat.mod_eq_of_lt h]

@[simp] theorem mem_setSize {s : Heap} {a : ℕ} {v : UInt32} :
    (s.setSize a v).mem = update s.mem a { s.mem a with size := v } := rfl

theorem joinUp_eq {s : Heap} {bp : ℕ} (hp : p ≠ bp) (hn : (s.mem p).ptr ≠ bp) :
    joinUp s bp p = if after bp (s.mem bp).size = (s.mem p).ptr then
      s.write bp ⟨(s.mem (s.mem p).ptr).ptr, (s.mem bp).size + (s.mem (s.mem p).ptr).size⟩
    else s.write bp ⟨(s.mem p).ptr, (s.mem bp).size⟩ := by
  unfold joinUp
  split_ifs
  · simp [Heap.setSize, Heap.setPtr, Heap.write, update_of_ne hp, update_of_ne hn]
  · rfl

theorem joinDown_eq {s : Heap} {bp : ℕ} (hp : bp ≠ p) :
    joinDown s bp p = if after p (s.mem p).size = bp then
      s.write p ⟨(s.mem bp).ptr, (s.mem p).size + (s.mem bp).size⟩
    else s.write p ⟨bp, (s.mem p).size⟩ := by
  unfold joinDown
  split_ifs
  · simp [Heap.setSize, Heap.setPtr, Heap.write, update_of_ne hp]
  · rfl

theorem Ready.opened (h : Ready base m freep (L₁ ++ L₂) (b :: O) G) {b' : Block} {hd : Header}
    {L₂' : List Block} (hb' : b'.addr = b.addr) (hsize : hd.size.toNat = b'.units)
    (hlayout : Layout base (L₁ ++ b' :: L₂') O G) (hsorted : Sorted L₂') (hsub : ∀ c ∈ L₂', c ∈ L₂)
    (hbelow : ∀ c ∈ L₁, c.stop ≤ b.addr) (habove : ∀ c ∈ L₂', b'.stop < c.addr)
    (hpre : ∃ z, Linked (next m) base (L₁.map Block.addr) z)
    (hpost : ∀ m', next m' b.addr = hd.ptr → (∀ c ∈ L₂', next m' c.addr = next m c.addr) →
      Linked (next m') b.addr (L₂'.map Block.addr) base) :
    Open base (update m b.addr hd) L₁ b' L₂' O G := by
  have hL : ∀ c ∈ L₁ ++ L₂, c.addr ≠ b.addr := fun c hc => h.layout.addr_ne hc List.mem_cons_self
  have hO : ∀ c ∈ O, c.addr ≠ b.addr := fun c hc => (h.layout.out_addr_ne hc).symm
  have hbase : base ≠ b.addr := by
    have := h.layout.base_lt (List.mem_append_right (L₁ ++ L₂) (List.mem_cons_self : b ∈ b :: O))
    omega
  have hkeep : ∀ a, a ≠ b.addr → update m b.addr hd a = m a := fun a ha => update_of_ne ha _ _
  refine ⟨hlayout, (List.pairwise_append.1 h.sorted).1, hsorted, by rwa [hb'], habove, ?_, ?_, ?_, ?_⟩
  · obtain ⟨z, hz⟩ := hpre
    refine ⟨z, hz.congr fun a ha => ?_⟩
    rcases List.mem_cons.1 ha with rfl | ha
    · rw [next, hkeep a hbase]
    · obtain ⟨c, hc, rfl⟩ := List.mem_map.1 ha
      rw [next, hkeep _ (hL c (List.mem_append_left _ hc))]
  · rw [hb']
    refine hpost _ (by rw [next, update_self]) fun c hc => ?_
    rw [next, hkeep _ (hL c (List.mem_append_right _ (hsub c hc)))]
  · rw [hkeep base hbase, h.empty]
  · intro c hc
    simp only [List.mem_append, List.mem_cons] at hc
    rcases hc with (hc | rfl | hc) | hc
    · have hmem := List.mem_append_left L₂ hc
      rw [hkeep _ (hL c hmem), h.sizes c (List.mem_append_left _ hmem)]
    · rw [hb', update_self, hsize]
    · have hmem := List.mem_append_right L₁ (hsub c hc)
      rw [hkeep _ (hL c hmem), h.sizes c (List.mem_append_left _ hmem)]
    · rw [hkeep _ (hO c hc), h.sizes c (List.mem_append_right _ (List.mem_cons_of_mem _ hc))]

/-- **`free` joins the block to the one after it**, if the two are adjacent. -/
theorem Ready.joinUp {s : Heap} (h : Ready base s.mem freep (L₁ ++ L₂) (b :: O) G) (hG : units G < 2 ^ 32)
    (hp : last base (L₁.map Block.addr) = p) (hbelow : ∀ c ∈ L₁, c.stop ≤ b.addr)
    (habove : ∀ c ∈ L₂, b.stop ≤ c.addr) :
    ∃ b' L₂' hd, b'.addr = b.addr ∧ joinUp s b.addr p = s.write b.addr hd ∧
      Open base (s.write b.addr hd).mem L₁ b' L₂' O G := by
  obtain ⟨hptr, hpre⟩ := h.ptr_cut hp
  have hbpos : 0 < b.units := h.layout.pos b (List.mem_append_right _ List.mem_cons_self)
  have hblow := h.layout.base_lt (List.mem_append_right (L₁ ++ L₂) (List.mem_cons_self : b ∈ b :: O))
  have hbsize : (s.mem b.addr).size.toNat = b.units := h.sizes b (List.mem_append_right _ List.mem_cons_self)
  have hstop : after b.addr (s.mem b.addr).size = b.stop := by rw [after, hbsize, Block.stop]
  have hpb : p ≠ b.addr := by
    intro he
    have hpmem : p ∈ base :: L₁.map Block.addr := by rw [← hp]; exact last_mem
    rcases List.mem_cons.1 hpmem with hpb | hpm
    · omega
    · obtain ⟨c, hc, hcp⟩ := List.mem_map.1 hpm
      exact h.layout.addr_ne (List.mem_append_left _ hc) List.mem_cons_self (hcp.trans he)
  have hsorted := List.pairwise_append.1 h.sorted
  have hfree := h.layout.free
  have hring := h.ring
  have hpos : ∀ c ∈ L₁ ++ b :: L₂, 0 < c.units := by
    intro c hc
    apply hfree.pos
    simp only [List.mem_append, List.mem_cons, List.cons_append] at hc ⊢
    tauto
  cases L₂ with
  | nil =>
    have hne : after b.addr (s.mem b.addr).size ≠ (s.mem p).ptr := by
      rw [hstop, hptr, head, Block.stop]
      omega
    refine ⟨b, [], ⟨base, (s.mem b.addr).size⟩, rfl, ?_, ?_⟩
    · rw [joinUp_eq hpb (by rw [hptr, head]; omega), if_neg hne, hptr, head]
    · refine h.opened rfl hbsize (hfree.change ?_ ?_ hpos) List.Pairwise.nil (by simp) hbelow (by simp) hpre ?_
      · simp [Set.union_comm]
      · simp [Nat.add_comm]
      · intro m' hm' _
        exact hm'
  | cons c L₂ =>
    rw [head] at hptr
    have hcne : c.addr ≠ b.addr :=
      h.layout.addr_ne (List.mem_append_right _ List.mem_cons_self) List.mem_cons_self
    have hcsize : (s.mem c.addr).size.toNat = c.units :=
      h.sizes c (List.mem_append_left _ (List.mem_append_right _ List.mem_cons_self))
    rw [List.map_append, List.map_cons, linked_append] at hring
    have hcabove := List.pairwise_cons.1 hsorted.2.1
    by_cases hadj : b.stop = c.addr
    · have hle : b.units + c.units < 2 ^ 32 := by
        have htotal := hfree.total
        simp only [units_cons, units_append] at htotal
        omega
      refine ⟨⟨b.addr, b.units + c.units⟩, L₂,
        ⟨(s.mem c.addr).ptr, (s.mem b.addr).size + (s.mem c.addr).size⟩, rfl, ?_, ?_⟩
      · rw [joinUp_eq hpb (by rwa [hptr]), if_pos (by rw [hstop, hptr, hadj]), hptr]
      · refine h.opened rfl (toNat_add_units hbsize hcsize hle) (hfree.change ?_ ?_ ?_) hcabove.2
          (fun d hd => List.mem_cons_of_mem _ hd) hbelow (fun d hd => ?_) hpre ?_
        · simp only [span_append, span_cons, bytes_join hadj]
          ext x
          simp only [Set.mem_union]
          tauto
        · simp only [units_append, units_cons]
          omega
        · intro d hd
          simp only [List.mem_append, List.mem_cons] at hd
          rcases hd with hd | rfl | hd
          · exact hpos d (List.mem_append_left _ hd)
          · change 0 < b.units + c.units
            omega
          · exact hpos d (by simp [hd])
        · have := hcabove.1 d hd
          simp only [Block.stop] at this hadj ⊢
          omega
        · intro m' hm' hsame
          exact hring.2.enter hm' fun a ha => by
            obtain ⟨d, hd, rfl⟩ := List.mem_map.1 ha
            exact hsame d hd
    · refine ⟨b, c :: L₂, ⟨c.addr, (s.mem b.addr).size⟩, rfl, ?_, ?_⟩
      · rw [joinUp_eq hpb (by rwa [hptr]), if_neg (by rwa [hstop, hptr]), hptr]
      · refine h.opened rfl hbsize (hfree.change ?_ ?_ hpos) hsorted.2.1 (fun d hd => hd) hbelow (fun d hd => ?_)
          hpre ?_
        · simp only [span_append, span_cons]
          ext x
          simp only [Set.mem_union]
          tauto
        · simp only [units_append, units_cons]
          omega
        · have hbc : b.stop < c.addr := lt_of_le_of_ne (habove c List.mem_cons_self) hadj
          rcases List.mem_cons.1 hd with rfl | hd
          · exact hbc
          · have := hcabove.1 d hd
            have := addr_le_stop c
            omega
        · intro m' hm' hsame
          refine ⟨hm', hring.2.congr fun a ha => ?_⟩
          obtain ⟨d, hd, rfl⟩ := List.mem_map.1 (List.map_cons ▸ ha : a ∈ (c :: L₂).map Block.addr)
          exact hsame d hd

theorem Open.increasing (h : Open base m L₁ b L₂ O G) : (nodes base (L₁ ++ b :: L₂)).Pairwise (· < ·) := by
  have hbpos : 0 < b.units := h.layout.pos b (by simp)
  have hstop : b.addr < b.stop := by rw [Block.stop]; omega
  refine List.pairwise_cons.2 ⟨fun a ha => ?_, ?_⟩
  · obtain ⟨c, hc, rfl⟩ := List.mem_map.1 ha
    have := h.layout.base_lt (List.mem_append_left _ hc)
    omega
  · rw [List.pairwise_map, List.pairwise_append, List.pairwise_cons]
    have hlt : ∀ c ∈ L₁, c.addr < b.addr := by
      intro c hc
      have hcpos : 0 < c.units := h.layout.pos c (by simp [hc])
      have := h.below c hc
      rw [Block.stop] at this
      omega
    refine ⟨h.sorted₁.imp fun {c d} hcd => ?_, ⟨fun c hc => ?_, h.sorted₂.imp fun {c d} hcd => ?_⟩,
      fun c hc d hd => ?_⟩
    · have := addr_le_stop c
      omega
    · have := h.above c hc
      omega
    · have := addr_le_stop c
      omega
    · have := hlt c hc
      rcases List.mem_cons.1 hd with rfl | hd
      · exact this
      · have := h.above d hd
        omega

theorem Open.redirect (h : Open base m L₁ b L₂ O G) (hp : last base (L₁.map Block.addr) = p) (hd : Header) :
    Linked (next (update m p hd)) base (L₁.map Block.addr) hd.ptr := by
  obtain ⟨z, hz⟩ := h.pre
  have hincr := h.increasing
  rw [nodes, List.map_append, ← List.cons_append] at hincr
  refine hz.redirect ((List.pairwise_append.1 hincr).1.imp fun hab => ne_of_lt hab) ?_ fun x _ hx => ?_
  · rw [hp, next, update_self]
  · rw [hp] at hx
    rw [next, update_of_ne hx]

theorem Open.last_lt (h : Open base m L₁ b L₂ O G) (hp : last base (L₁.map Block.addr) = p) :
    ∀ c ∈ b :: L₂, p < c.addr := by
  intro c hc
  have hincr := h.increasing
  rw [nodes, List.map_append, ← List.cons_append] at hincr
  refine (List.pairwise_append.1 hincr).2.2 p ?_ c.addr (List.mem_map_of_mem hc)
  rw [← hp]
  exact last_mem

theorem Open.size_of_ne (h : Open base m L₁ b L₂ O G) (hc : c ∈ L₁ ++ b :: L₂ ++ O) (hne : c.addr ≠ p) (hd : Header) :
    (update m p hd c.addr).size.toNat = c.units := by
  rw [update_of_ne hne, h.sizes c hc]

theorem Open.last_ne_out (h : Open base m L₁ b L₂ O G) (hp : last base (L₁.map Block.addr) = p) (hc : c ∈ O) :
    c.addr ≠ p := by
  intro he
  have hpmem : p ∈ base :: L₁.map Block.addr := by rw [← hp]; exact last_mem
  rcases List.mem_cons.1 hpmem with hpb | hpm
  · have := h.layout.base_lt (List.mem_append_right (L₁ ++ b :: L₂) hc)
    omega
  · obtain ⟨d, hd, hdp⟩ := List.mem_map.1 hpm
    exact h.layout.addr_ne (List.mem_append_left _ hd) hc (hdp.trans he.symm)

theorem Open.attach (h : Open base m L₁ b L₂ O G) (hp : last base (L₁.map Block.addr) = p)
    (hne : after p (m p).size ≠ b.addr) :
    Ready base (update m p ⟨b.addr, (m p).size⟩) p (L₁ ++ b :: L₂) O G := by
  have hlt := h.last_lt hp
  refine ⟨h.layout, ?_, ?_, ?_, ?_, ?_⟩
  · refine List.pairwise_append.2 ⟨h.sorted₁, List.pairwise_cons.2 ⟨h.above, h.sorted₂⟩, fun c hc d hd => ?_⟩
    have hcb : c.stop < b.addr := by
      refine lt_of_le_of_ne (h.below c hc) fun he => ?_
      -- only the last block before `b` can be adjacent to it
      obtain ⟨K, a, rfl, hlast⟩ := last_eq_of_ne_nil base (List.ne_nil_of_mem hc)
      rw [hlast] at hp
      rcases List.mem_append.1 hc with hcK | hca
      · have hca := (List.pairwise_append.1 h.sorted₁).2.2 c hcK a (List.mem_singleton_self a)
        have := h.below a (by simp)
        have := addr_le_stop a
        omega
      · rw [List.mem_singleton] at hca
        subst hca
        rw [← hp, after, h.sizes c (by simp)] at hne
        exact hne he
    rcases List.mem_cons.1 hd with rfl | hd
    · exact hcb
    · have := h.above d hd
      have := addr_le_stop b
      omega
  · rw [List.map_append, List.map_cons, linked_append]
    refine ⟨h.redirect hp ⟨b.addr, (m p).size⟩, h.post.congr fun a ha => ?_⟩
    have hpa : a ≠ p := by
      obtain ⟨c, hc, rfl⟩ := List.mem_map.1 (List.map_cons ▸ ha : a ∈ (b :: L₂).map Block.addr)
      have := hlt c hc
      omega
    rw [next, update_of_ne hpa]
  · by_cases hbase : base = p
    · rw [← hbase, update_self]
      exact h.empty
    · rw [update_of_ne hbase, h.empty]
  · intro c hc
    by_cases hcp : c.addr = p
    · rw [hcp, update_self, ← hcp]
      exact h.sizes c hc
    · exact h.size_of_ne hc hcp _
  · rw [nodes, List.map_append, ← List.cons_append, List.mem_append]
    left
    rw [← hp]
    exact last_mem

theorem Open.merge (h : Open base m L₁ b L₂ O G) (hG : units G < 2 ^ 32) (hp : last base (L₁.map Block.addr) = p)
    (heq : after p (m p).size = b.addr) :
    ∃ K, Ready base (update m p ⟨(m b.addr).ptr, (m p).size + (m b.addr).size⟩) p K O G := by
  have hlt := h.last_lt hp
  have hL₁ : L₁ ≠ [] := by
    rintro rfl
    have hpb : base = p := hp
    have := hlt b List.mem_cons_self
    rw [← hpb, after, h.empty] at heq
    change base + 16 * 0 = b.addr at heq
    omega
  obtain ⟨K, a, rfl, hlast⟩ := last_eq_of_ne_nil base hL₁
  have hpa : a.addr = p := hlast.symm.trans hp
  have hasize : (m p).size.toNat = a.units := by rw [← hpa]; exact h.sizes a (by simp)
  have hbsize : (m b.addr).size.toNat = b.units := h.sizes b (by simp)
  have hadj : a.stop = b.addr := by rw [← heq, after, hasize, ← hpa, Block.stop]
  have hle : a.units + b.units < 2 ^ 32 := by
    have htotal := h.layout.total
    simp only [units_append, units_cons] at htotal
    omega
  have hsorted := List.pairwise_append.1 h.sorted₁
  have hKa : ∀ c ∈ K, c.stop < a.addr := fun c hc => hsorted.2.2 c hc a (List.mem_singleton_self a)
  have hstop : (⟨a.addr, a.units + b.units⟩ : Block).stop = b.stop := by
    simp only [Block.stop] at hadj ⊢
    omega
  refine ⟨K ++ ⟨a.addr, a.units + b.units⟩ :: L₂, ?_, ?_, ?_, ?_, ?_, ?_⟩
  · refine h.layout.change ?_ ?_ fun c hc => ?_
    · simp only [span_append, span_cons, span_nil, bytes_join hadj]
      ext x
      simp only [Set.mem_union, Set.mem_empty_iff_false]
      tauto
    · simp only [units_append, units_cons, units_nil]
      omega
    · simp only [List.mem_append, List.mem_cons] at hc
      rcases hc with hc | rfl | hc
      · exact h.layout.pos c (by simp [hc])
      · have := h.layout.pos b (by simp)
        change 0 < a.units + b.units
        omega
      · exact h.layout.pos c (by simp [hc])
  · refine List.pairwise_append.2 ⟨hsorted.1, List.pairwise_cons.2 ⟨fun c hc => ?_, h.sorted₂⟩, fun c hc d hd => ?_⟩
    · rw [hstop]
      exact h.above c hc
    · rcases List.mem_cons.1 hd with rfl | hd
      · exact hKa c hc
      · have := hKa c hc
        have := h.above d hd
        have := addr_le_stop a
        have := addr_le_stop b
        omega
  · have hpre := h.redirect hp ⟨(m b.addr).ptr, (m p).size + (m b.addr).size⟩
    have hkeep : ∀ c ∈ b :: L₂, next (update m p ⟨(m b.addr).ptr, (m p).size + (m b.addr).size⟩) c.addr =
        next m c.addr := by
      intro c hc
      have := hlt c hc
      rw [next, update_of_ne (by omega)]
    have hmap : (K ++ ⟨a.addr, a.units + b.units⟩ :: L₂).map Block.addr =
        (K ++ [a]).map Block.addr ++ L₂.map Block.addr := by simp
    rw [hmap]
    apply Linked.skip (b := b.addr)
    · rw [hkeep b List.mem_cons_self]
      exact hpre
    · refine h.post.congr fun x hx => ?_
      obtain ⟨c, hc, rfl⟩ := List.mem_map.1 (List.map_cons ▸ hx : x ∈ (b :: L₂).map Block.addr)
      exact hkeep c hc
  · have hne : base ≠ p := by
      have := h.layout.base_lt (by simp : a ∈ K ++ [a] ++ b :: L₂ ++ O)
      omega
    rw [update_of_ne hne, h.empty]
  · intro c hc
    simp only [List.mem_append, List.mem_cons] at hc
    rcases hc with (hc | rfl | hc) | hc
    · refine h.size_of_ne (by simp [hc]) ?_ _
      have := hKa c hc
      have := addr_le_stop c
      omega
    · change (update m p _ a.addr).size.toNat = a.units + b.units
      rw [hpa, update_self]
      exact toNat_add_units hasize hbsize hle
    · refine h.size_of_ne (by simp [hc]) ?_ _
      have := hlt c (List.mem_cons_of_mem _ hc)
      omega
    · exact h.size_of_ne (by simp [hc]) (h.last_ne_out hp hc) _
  · simp [← hpa]

/-- **`free` joins the block to the one before it**, if the two are adjacent. -/
theorem Open.joinDown {s : Heap} (h : Open base s.mem L₁ b L₂ O G) (hG : units G < 2 ^ 32)
    (hp : last base (L₁.map Block.addr) = p) :
    ∃ K hd, joinDown s b.addr p = s.write p hd ∧ Ready base (s.write p hd).mem p K O G := by
  have hbp : b.addr ≠ p := by
    have := h.last_lt hp b List.mem_cons_self
    omega
  rw [joinDown_eq hbp]
  by_cases heq : after p (s.mem p).size = b.addr
  · obtain ⟨K, hK⟩ := h.merge hG hp heq
    exact ⟨K, _, if_pos heq, hK⟩
  · exact ⟨_, _, if_neg heq, h.attach hp heq⟩

theorem Ready.free {s : Heap} (h : Ready base s.mem s.freep L (b :: O) G) (hG : units G < 2 ^ 32) :
    ∃ m p K, Ready base m p K O G ∧
      ∀ fuel, L.length < fuel → free s (b.addr + 16) fuel = some { s with mem := m, freep := p } := by
  obtain ⟨p, hp, hseat, hseek⟩ := h.seek
  obtain ⟨L₁, L₂, rfl, hlast⟩ := exists_cut hp
  obtain ⟨hbelow, habove⟩ := h.cut hlast hseat
  obtain ⟨b', L₂', hd, hb', hup, hopen⟩ := h.joinUp hG hlast hbelow habove
  obtain ⟨K, hd', hdown, hready⟩ := hopen.joinDown hG hlast
  rw [hb'] at hdown
  refine ⟨_, p, K, hready, fun fuel hfuel => ?_⟩
  rw [free, Nat.add_sub_cancel, hseek fuel hfuel, Option.map_some, link, hup, hdown]
  rfl

end Xv6.Umalloc
