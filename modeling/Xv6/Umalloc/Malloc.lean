import Xv6.Umalloc.FreeList

/-!
# malloc

* `Ready.carve`: a block is cut off a free one that is large enough.
* `scan_skip`, `Ready.scan_found`, `Ready.scan_none`: the loop of `malloc` goes once round the list.
* `exists_large`: after `morecore` there is a block that is large enough.
* **`Full.scan`**: the loop ends, with a block or because `sbrk` fails.
-/

namespace Xv6.Umalloc

open Function Circle

variable {base freep p x : ℕ} {m m' : ℕ → Header} {b c : Block} {L L₁ L₂ O G : List Block} {nu : UInt32}

/-! ## A block is cut off -/

theorem Ready.toOpen (h : Ready base m freep (L₁ ++ c :: L₂) O G) : Open base m L₁ c L₂ O G := by
  have hsorted := List.pairwise_append.1 h.sorted
  have hcons := List.pairwise_cons.1 hsorted.2.1
  have hring := h.ring
  rw [List.map_append, List.map_cons, linked_append] at hring
  exact ⟨h.layout, hsorted.1, hcons.2, fun d hd => le_of_lt (hsorted.2.2 d hd c List.mem_cons_self), hcons.1,
    ⟨_, hring.1⟩, hring.2, h.empty, h.sizes⟩

theorem disjoint_others (h : Sorted (L₁ ++ c :: L₂)) : Disjoint c.bytes (span (L₁ ++ L₂)) := by
  have hsorted := List.pairwise_append.1 h
  have hcons := List.pairwise_cons.1 hsorted.2.1
  rw [Set.disjoint_left]
  rintro y hy ⟨d, hd, hyd⟩
  rcases List.mem_append.1 hd with hd | hd
  · have := hsorted.2.2 d hd c List.mem_cons_self
    exact absurd (hyd.2.trans this) (Nat.not_lt.2 hy.1)
  · have := hcons.1 d hd
    exact absurd (hy.2.trans this) (Nat.not_lt.2 hyd.1)

theorem Ready.carve_all (h : Ready base m freep (L₁ ++ c :: L₂) O G) (hp : last base (L₁.map Block.addr) = p) :
    Ready base (update m p ⟨(m c.addr).ptr, (m p).size⟩) p (L₁ ++ L₂) (c :: O) G := by
  have ho := h.toOpen
  have hlt := ho.last_lt hp
  have hsorted := List.pairwise_append.1 h.sorted
  have hcons := List.pairwise_cons.1 hsorted.2.1
  refine ⟨?_, ?_, ?_, ?_, ?_, ?_⟩
  · refine Layout.give (h.layout.change ?_ ?_ fun d hd => ?_) (disjoint_others h.sorted)
    · simp only [span_append, span_cons]
      ext y
      simp only [Set.mem_union]
      tauto
    · simp only [units_append, units_cons]
      omega
    · apply h.layout.pos
      simp only [List.mem_append, List.mem_cons] at hd ⊢
      tauto
  · refine List.pairwise_append.2 ⟨hsorted.1, hcons.2, fun d hd e he => ?_⟩
    exact hsorted.2.2 d hd e (List.mem_cons_of_mem _ he)
  · have hkeep : ∀ d ∈ c :: L₂, next (update m p ⟨(m c.addr).ptr, (m p).size⟩) d.addr = next m d.addr := by
      intro d hd
      have := hlt d hd
      rw [next, update_of_ne (by omega)]
    rw [List.map_append]
    apply Linked.skip (b := c.addr)
    · rw [hkeep c List.mem_cons_self]
      exact ho.redirect hp ⟨(m c.addr).ptr, (m p).size⟩
    · refine ho.post.congr fun y hy => ?_
      obtain ⟨d, hd, rfl⟩ := List.mem_map.1 (List.map_cons ▸ hy : y ∈ (c :: L₂).map Block.addr)
      exact hkeep d hd
  · by_cases hbase : base = p
    · rw [← hbase, update_self]
      exact h.empty
    · rw [update_of_ne hbase, h.empty]
  · intro d hd
    have hmem : d ∈ L₁ ++ c :: L₂ ++ O := by
      simp only [List.mem_append, List.mem_cons] at hd ⊢
      tauto
    by_cases hdp : d.addr = p
    · rw [hdp, update_self, ← hdp]
      exact h.sizes d hmem
    · exact ho.size_of_ne hmem hdp _
  · rw [nodes, List.map_append, ← List.cons_append, List.mem_append]
    left
    rw [← hp]
    exact last_mem

theorem next_setSize (a : ℕ) (v : UInt32) : next (update m a { m a with size := v }) = next m := by
  funext y
  by_cases hy : y = a
  · rw [hy, next, update_self]
  · rw [next, update_of_ne hy]

/-- The end of a block is given out: only the sizes of its header and of the new one change. -/
theorem Ready.carve_tail (h : Ready base m freep (L₁ ++ c :: L₂) O G) (hp : p ∈ nodes base (L₁ ++ c :: L₂)) {n y : ℕ}
    (hn : 0 < n) (hlt : n < c.units) (hy : y = c.addr + 16 * (c.units - n)) (hnext : next m' = next m)
    (hcsize : (m' c.addr).size.toNat = c.units - n) (hysize : (m' y).size.toNat = n)
    (hsame : ∀ a, a ≠ c.addr → a ≠ y → m' a = m a) :
    Ready base m' p (L₁ ++ ⟨c.addr, c.units - n⟩ :: L₂) (⟨y, n⟩ :: O) G := by
  have hsorted := List.pairwise_append.1 h.sorted
  have hcons := List.pairwise_cons.1 hsorted.2.1
  have hcmem : c ∈ L₁ ++ c :: L₂ ++ O := by simp
  have hybytes : y ∈ c.bytes := by
    rw [Block.mem_bytes, Block.stop]
    omega
  -- the new header is in no other block
  have hother : ∀ d ∈ L₁ ++ L₂ ++ O, d.addr ≠ c.addr ∧ d.addr ≠ y := by
    intro d hd
    have hdpos : 0 < d.units := h.layout.pos d (by simp only [List.mem_append, List.mem_cons] at hd ⊢; tauto)
    have hdis : Disjoint c.bytes d.bytes := by
      rcases List.mem_append.1 hd with hd | hd
      · rw [Set.disjoint_left]
        intro z hz hzd
        exact Set.disjoint_left.1 (disjoint_others h.sorted) hz ⟨d, hd, hzd⟩
      · rw [Set.disjoint_left]
        intro z hz hzd
        exact Set.disjoint_left.1 h.layout.apart ⟨c, by simp, hz⟩ ⟨d, hd, hzd⟩
    have hdmem := Block.addr_mem hdpos
    constructor
    · intro he
      exact Set.disjoint_left.1 hdis (Block.addr_mem (h.layout.pos c hcmem)) (he ▸ hdmem)
    · intro he
      exact Set.disjoint_left.1 hdis hybytes (he ▸ hdmem)
  have hstop : (⟨c.addr, c.units - n⟩ : Block).stop = y := hy.symm
  have hjoin : c.bytes = (⟨c.addr, c.units - n⟩ : Block).bytes ∪ (⟨y, n⟩ : Block).bytes := by
    rw [← bytes_join hstop]
    change c.bytes = (⟨c.addr, c.units - n + n⟩ : Block).bytes
    rw [Nat.sub_add_cancel (le_of_lt hlt)]
  have hsort' : Sorted (L₁ ++ ⟨c.addr, c.units - n⟩ :: L₂) := by
    refine List.pairwise_append.2 ⟨hsorted.1, List.pairwise_cons.2 ⟨fun d hd => ?_, hcons.2⟩, fun d hd e he => ?_⟩
    · have := hcons.1 d hd
      have := hybytes.2
      rw [hstop]
      omega
    · rcases List.mem_cons.1 he with rfl | he
      · exact hsorted.2.2 d hd c List.mem_cons_self
      · exact hsorted.2.2 d hd e (List.mem_cons_of_mem _ he)
  refine ⟨?_, hsort', ?_, ?_, ?_, ?_⟩
  · refine Layout.give (h.layout.change ?_ ?_ fun d hd => ?_) ?_
    · simp only [span_append, span_cons, hjoin]
      ext z
      simp only [Set.mem_union]
      tauto
    · simp only [units_append, units_cons]
      omega
    · simp only [List.mem_append, List.mem_cons] at hd
      rcases hd with rfl | hd | rfl | hd
      · exact hn
      · exact h.layout.pos d (by simp [hd])
      · exact Nat.sub_pos_of_lt hlt
      · exact h.layout.pos d (by simp [hd])
    · have hrest := disjoint_others h.sorted
      rw [span_append, Set.disjoint_union_right] at hrest
      have hsub : (⟨y, n⟩ : Block).bytes ⊆ c.bytes := by rw [hjoin]; exact Set.subset_union_right
      rw [span_append, span_cons, Set.disjoint_union_right, Set.disjoint_union_right]
      exact ⟨hrest.1.mono_left hsub, (disjoint_of_before hstop.le).symm, hrest.2.mono_left hsub⟩
  · rw [hnext]
    have hring := h.ring
    simp only [List.map_append, List.map_cons] at hring ⊢
    exact hring
  · have hb := h.layout.base_lt hcmem
    have hyb := hybytes.1
    rw [hsame base (by omega) (by omega), h.empty]
  · intro d hd
    simp only [List.mem_append, List.mem_cons] at hd
    have hrest : ∀ d ∈ L₁ ++ L₂ ++ O, (m' d.addr).size.toNat = d.units := by
      intro d hd
      obtain ⟨h₁, h₂⟩ := hother d hd
      rw [hsame _ h₁ h₂]
      apply h.sizes
      simp only [List.mem_append, List.mem_cons] at hd ⊢
      tauto
    rcases hd with (hd | rfl | hd) | rfl | hd
    · exact hrest d (by simp [hd])
    · exact hcsize
    · exact hrest d (by simp [hd])
    · exact hysize
    · exact hrest d (by simp [hd])
  · simpa using hp

/-- **A block is cut off the one that was found**, which `p` points to. -/
theorem Ready.carve {s : Heap} (h : Ready base s.mem freep L O G) (hp : p ∈ nodes base L) (hx : (s.mem p).ptr = x)
    (hnu : 0 < nu.toNat) (hfit : nu ≤ (s.mem x).size) :
    ∃ m b K, Ready base m p K (b :: O) G ∧ b.units = nu.toNat ∧
      carve s nu p x = ({ s with mem := m, freep := p }, b.addr + 16) := by
  obtain ⟨L₁, L₂, rfl, hlast⟩ := exists_cut hp
  obtain ⟨hptr, -⟩ := h.ptr_cut hlast
  rw [hx] at hptr
  rw [UInt32.le_iff_toNat_le] at hfit
  cases L₂ with
  | nil =>
    rw [hptr, head, h.empty] at hfit
    change nu.toNat ≤ 0 at hfit
    omega
  | cons c L₂ =>
    rw [head] at hptr
    subst hptr
    have hsize : (s.mem c.addr).size.toNat = c.units := h.sizes c (by simp)
    unfold Umalloc.carve
    by_cases heq : (s.mem c.addr).size = nu
    · rw [if_pos heq]
      exact ⟨_, c, _, h.carve_all hlast, by rw [← hsize, heq], rfl⟩
    · rw [if_neg heq]
      have hlt : nu.toNat < c.units := by
        rw [hsize] at hfit
        refine lt_of_le_of_ne hfit fun he => heq ?_
        rw [← UInt32.toNat_inj, hsize, he]
      have hle : nu ≤ (s.mem c.addr).size := by
        rw [UInt32.le_iff_toNat_le]
        exact hfit
      have hsub : ((s.mem c.addr).size - nu).toNat = c.units - nu.toNat := by
        rw [UInt32.toNat_sub_of_le _ _ hle, hsize]
      set s₁ := s.setSize c.addr ((s.mem c.addr).size - nu) with hs₁
      have hmem₁ : (s₁.mem c.addr).size.toNat = c.units - nu.toNat := by
        rw [← hsub, hs₁, mem_setSize, update_self]
      have hy : after c.addr (s₁.mem c.addr).size = c.addr + 16 * (c.units - nu.toNat) := by
        rw [after, hmem₁]
      have hyc : c.addr ≠ c.addr + 16 * (c.units - nu.toNat) := by omega
      dsimp only
      rw [hy]
      set s₂ := s₁.setSize (c.addr + 16 * (c.units - nu.toNat)) nu with hs₂
      have hnext : next s₂.mem = next s.mem := by
        rw [hs₂, mem_setSize, next_setSize]
        exact next_setSize c.addr _
      have hcsize : (s₂.mem c.addr).size.toNat = c.units - nu.toNat := by
        rw [hs₂, mem_setSize, update_of_ne hyc, hmem₁]
      have hysize : (s₂.mem (c.addr + 16 * (c.units - nu.toNat))).size.toNat = nu.toNat := by
        rw [hs₂, mem_setSize, update_self]
      refine ⟨s₂.mem, ⟨c.addr + 16 * (c.units - nu.toNat), nu.toNat⟩, _,
        h.carve_tail hp hnu hlt rfl hnext hcsize hysize fun a hac hay => ?_, rfl, rfl⟩
      rw [hs₂, mem_setSize, update_of_ne hay, hs₁, mem_setSize, update_of_ne hac]

/-! ## The loop -/

theorem scan_skip {s : Heap} {gaps : List ℕ} {r : List ℕ} {a z : ℕ} (h : Linked (next s.mem) a r z)
    (hr : ∀ x ∈ r, (s.mem x).size < nu ∧ x ≠ s.freep) (k : ℕ) :
    scan nu (r.length + k) s gaps a (s.mem a).ptr = scan nu k s gaps (last a r) z := by
  induction r generalizing a with
  | nil =>
    have ha : (s.mem a).ptr = z := h
    rw [ha, List.length_nil, Nat.zero_add]
    rfl
  | cons x r ih =>
    have ha : (s.mem a).ptr = x := h.1
    obtain ⟨hsmall, hne⟩ := hr x List.mem_cons_self
    have hlen : (x :: r).length + k = r.length + k + 1 := by
      rw [List.length_cons]
      omega
    rw [hlen, ha, scan, if_neg (UInt32.not_le.2 hsmall), if_neg hne, ih h.2 fun y hy => hr y (List.mem_cons_of_mem _ hy)]
    rfl

/-- The free list, from `freep` on. -/
theorem Ready.round {s : Heap} (h : Ready base s.mem s.freep L O G) : ∃ r, Linked (next s.mem) s.freep r s.freep ∧
    (s.freep :: r).Perm (nodes base L) ∧ (∀ y ∈ r, y ≠ s.freep) ∧ r.length = L.length := by
  obtain ⟨r, hr, hperm⟩ := h.ring.rotate h.rover
  have hnodup : (s.freep :: r).Nodup := hperm.nodup_iff.2 (h.increasing.imp fun hab => ne_of_lt hab)
  have hlen := hperm.length_eq
  simp only [List.length_cons, List.length_map] at hlen
  refine ⟨r, hr, hperm, fun y hy heq => ?_, by omega⟩
  exact (List.nodup_cons.1 hnodup).1 (heq ▸ hy)

/-- **The loop finds a block**, if there is one that is large enough. -/
theorem Ready.scan_found {s : Heap} (h : Ready base s.mem s.freep L O G) (gaps : List ℕ)
    (hex : ∃ x ∈ nodes base L, nu ≤ (s.mem x).size) :
    ∃ p x, p ∈ nodes base L ∧ (s.mem p).ptr = x ∧ nu ≤ (s.mem x).size ∧
      ∀ fuel, L.length < fuel → scan nu fuel s gaps s.freep (s.mem s.freep).ptr = some (Umalloc.carve s nu p x) := by
  obtain ⟨r, hr, hperm, hne, hlen⟩ := h.round
  -- the loop stops at the first such block after `freep`, or at `freep`
  cases hfind : r.find? fun x => decide (nu ≤ (s.mem x).size) with
  | some x =>
    obtain ⟨hx, r₁, r₂, rfl, hr₁⟩ := List.find?_eq_some_iff_append.1 hfind
    have hfit : nu ≤ (s.mem x).size := of_decide_eq_true hx
    obtain ⟨h₁, h₂⟩ := linked_append.1 hr
    refine ⟨last s.freep r₁, x, ?_, h₁.next_last, hfit, fun fuel hfuel => ?_⟩
    · apply hperm.mem_iff.1
      rw [← List.cons_append]
      exact List.mem_append_left _ last_mem
    · rw [List.length_append, List.length_cons] at hlen
      obtain ⟨k, rfl⟩ : ∃ k, fuel = r₁.length + (k + 1) := ⟨fuel - r₁.length - 1, by omega⟩
      rw [scan_skip h₁ (fun y hy => ⟨?_, hne y (List.mem_append_left _ hy)⟩), scan, if_pos hfit]
      have := hr₁ y hy
      simpa using this
  | none =>
    have hsmall : ∀ y ∈ r, (s.mem y).size < nu := by
      intro y hy
      have := List.find?_eq_none.1 hfind y hy
      simpa using this
    have hfit : nu ≤ (s.mem s.freep).size := by
      obtain ⟨x, hx, hfit⟩ := hex
      rcases List.mem_cons.1 (hperm.mem_iff.2 hx) with rfl | hxr
      · exact hfit
      · exact absurd hfit (UInt32.not_le.2 (hsmall x hxr))
    refine ⟨last s.freep r, s.freep, hperm.mem_iff.1 last_mem, hr.next_last, hfit, fun fuel hfuel => ?_⟩
    obtain ⟨k, rfl⟩ : ∃ k, fuel = r.length + (k + 1) := ⟨fuel - r.length - 1, by omega⟩
    rw [scan_skip hr (fun y hy => ⟨hsmall y hy, hne y hy⟩), scan, if_pos hfit]

/-- **The loop asks for memory**, if no block is large enough. -/
theorem Ready.scan_none {s : Heap} {gaps : List ℕ} (h : Ready base s.mem s.freep L O G)
    (hno : ∀ x ∈ nodes base L, (s.mem x).size < nu) (k : ℕ) :
    scan nu (L.length + (k + 1)) s gaps s.freep (s.mem s.freep).ptr =
      match morecore s gaps nu k with
      | none => none
      | some none => some (s, 0)
      | some (some (s, gaps)) => scan nu k s gaps s.freep (s.mem s.freep).ptr := by
  obtain ⟨r, hr, hperm, hne, hlen⟩ := h.round
  have hsmall : ∀ y ∈ s.freep :: r, (s.mem y).size < nu := fun y hy => hno y (hperm.mem_iff.1 hy)
  rw [← hlen, scan_skip hr fun y hy => ⟨hsmall y (List.mem_cons_of_mem _ hy), hne y hy⟩, scan]
  exact (if_neg (UInt32.not_le.2 (hsmall _ List.mem_cons_self))).trans (if_pos rfl)

/-! ## More memory -/

theorem stop_not_mem (h : Sorted L) (hc : c ∈ L) : c.stop ∉ span L := by
  obtain ⟨L₁, L₂, rfl⟩ := List.append_of_mem hc
  have hsorted := List.pairwise_append.1 h
  have hcons := List.pairwise_cons.1 hsorted.2.1
  rintro ⟨d, hd, hle, hlt⟩
  simp only [List.mem_append, List.mem_cons] at hd
  rcases hd with hd | rfl | hd
  · have := hsorted.2.2 d hd c List.mem_cons_self
    have := addr_le_stop c
    omega
  · omega
  · have := hcons.1 d hd
    omega

/-- **Bytes in a row that are all free belong to one block.** -/
theorem exists_large (h : Sorted L) (hpos : 0 < b.units) (hb : b.bytes ⊆ span L) : ∃ c ∈ L, b.units ≤ c.units := by
  obtain ⟨c, hc, hle, hlt⟩ := hb (Block.addr_mem hpos)
  refine ⟨c, hc, ?_⟩
  have hstop : b.stop ≤ c.stop := by
    by_contra hcon
    exact stop_not_mem h hc (hb ⟨le_of_lt hlt, Nat.not_le.1 hcon⟩)
  simp only [Block.stop] at hstop
  omega

/-- **The free list, in memory that `sbrk` has returned so far.** -/
structure Full (base : ℕ) (s : Heap) (L O : List Block) : Prop where
  ready : Ready base s.mem s.freep L O s.got
  brk : ∀ g ∈ s.got, g.stop ≤ s.brk
  low : base + 16 ≤ s.brk

theorem toNat_coreUnits_pos (nu : UInt32) : 0 < (coreUnits nu).toNat ∧ nu ≤ coreUnits nu := by
  unfold coreUnits
  split_ifs with h
  · exact ⟨by decide, UInt32.le_of_lt h⟩
  · rw [UInt32.not_lt, UInt32.le_iff_toNat_le] at h
    exact ⟨lt_of_lt_of_le (by decide) h, UInt32.le_refl _⟩

theorem coreBytes_eq (h : 16 * nu.toNat < 2 ^ 31) : coreBytes nu = (16 * nu.toNat : ℕ) := by
  unfold coreBytes
  exact Int.bmod_eq_of_le (by omega) (by omega)

theorem sbrk_coreBytes (h : 16 * nu.toNat < 2 ^ 31) (s : Heap) (gap : ℕ) : s.sbrk gap (coreBytes nu) =
    { s with brk := s.brk + gap + 16 * nu.toNat, got := s.got ++ [⟨s.brk + gap, nu.toNat⟩] } := by
  have hbrk : ((s.brk : ℤ) + gap + (16 * nu.toNat : ℕ)).toNat = s.brk + gap + 16 * nu.toNat := by omega
  rw [Heap.sbrk, coreBytes_eq h, Int.toNat_natCast, Nat.mul_div_cancel_left _ (by decide), hbrk]

/-- **`morecore` gets a block that is large enough** into the free list. -/
theorem Full.morecore {s : Heap} (h : Full base s L O) (hint : 16 * (coreUnits nu).toNat < 2 ^ 31)
    (hG : units s.got + (coreUnits nu).toNat < 2 ^ 32) (gap : ℕ) (gaps : List ℕ) :
    ∃ s' K, Full base s' K O ∧ (∃ x ∈ nodes base K, nu ≤ (s'.mem x).size) ∧ s'.out = s.out ∧
      ∀ fuel, L.length < fuel → morecore s (gap :: gaps) nu fuel = some (some (s', gaps)) := by
  obtain ⟨hpos, hle⟩ := toNat_coreUnits_pos nu
  set b : Block := ⟨s.brk + gap, (coreUnits nu).toNat⟩ with hb
  set s₁ : Heap := ({ s with brk := b.stop, got := s.got ++ [b] } : Heap).setSize b.addr (coreUnits nu) with hs₁
  have hgot : s₁.got = s.got ++ [b] := rfl
  have hlow : base + 16 ≤ b.addr := h.low.trans (Nat.le_add_right _ _)
  have hnew : ∀ c ∈ s.got, c.stop ≤ b.addr := fun c hc => (h.brk c hc).trans (Nat.le_add_right _ _)
  have hlayout : Layout base L (b :: O) s₁.got := h.ready.layout.grow hpos hlow hnew
  -- the new header is at no block that was there
  have hold : ∀ a ∈ nodes base (L ++ O), a ≠ b.addr := by
    intro a ha
    rcases List.mem_cons.1 ha with rfl | ha
    · omega
    · obtain ⟨c, hc, rfl⟩ := List.mem_map.1 ha
      rcases List.mem_append.1 hc with hc | hc
      · exact hlayout.addr_ne hc List.mem_cons_self
      · exact (hlayout.out_addr_ne hc).symm
  have hready₀ : Ready base s₁.mem s.freep L O s.got :=
    h.ready.congr fun a ha => by rw [hs₁, mem_setSize, update_of_ne (hold a ha)]
  have hready : Ready base s₁.mem s₁.freep L (b :: O) s₁.got := by
    refine ⟨hlayout, hready₀.sorted, hready₀.ring, hready₀.empty, fun c hc => ?_, hready₀.rover⟩
    simp only [List.mem_append, List.mem_cons] at hc
    rcases hc with hc | rfl | hc
    · exact hready₀.sizes c (List.mem_append_left _ hc)
    · rw [hs₁, mem_setSize, update_self]
    · exact hready₀.sizes c (List.mem_append_right _ hc)
  have hunits : units s₁.got < 2 ^ 32 := by
    rw [hgot, units_append, units_cons, units_nil]
    exact hG
  obtain ⟨m, p, K, hK, hfree⟩ := hready.free hunits
  refine ⟨{ s₁ with mem := m, freep := p }, K, ⟨hK, ?_, ?_⟩, ?_, rfl, fun fuel hfuel => ?_⟩
  · intro g hg
    rcases List.mem_append.1 hg with hg | hg
    · exact (hnew g hg).trans (addr_le_stop b)
    · rw [List.mem_singleton] at hg
      rw [hg]
      exact le_rfl
  · exact hlow.trans (addr_le_stop b)
  · have hsub : b.bytes ⊆ span K := by
      intro y hy
      have hyG : y ∈ span s₁.got := ⟨b, List.mem_append_right _ (List.mem_singleton_self b), hy⟩
      rw [← hK.layout.cover] at hyG
      refine hyG.resolve_right ?_
      rintro ⟨c, hc, hyc⟩
      exact Set.disjoint_left.1 ((List.pairwise_cons.1 hlayout.out).1 c hc) hy hyc
    obtain ⟨c, hc, hbc⟩ := exists_large hK.sorted hpos hsub
    refine ⟨c.addr, List.mem_cons_of_mem _ (List.mem_map_of_mem hc), ?_⟩
    rw [UInt32.le_iff_toNat_le, hK.sizes c (List.mem_append_left _ hc)]
    exact (UInt32.le_iff_toNat_le.1 hle).trans hbc
  · have := hfree fuel hfuel
    simp only [Umalloc.morecore, sbrk_coreBytes hint]
    exact congrArg (Option.map _) this

theorem Full.found {s : Heap} (h : Full base s L O) (hnu : 0 < nu.toNat)
    (hex : ∃ x ∈ nodes base L, nu ≤ (s.mem x).size) (gaps : List ℕ) :
    ∃ s' b K, Full base s' K (b :: O) ∧ b.units = nu.toNat ∧ s'.out = s.out ∧
      ∀ fuel, L.length < fuel → scan nu fuel s gaps s.freep (s.mem s.freep).ptr = some (s', b.addr + 16) := by
  obtain ⟨p, x, hp, hx, hfit, hscan⟩ := h.ready.scan_found gaps hex
  obtain ⟨m, b, K, hK, hb, hcarve⟩ := h.ready.carve hp hx hnu hfit
  refine ⟨{ s with mem := m, freep := p }, b, K, ⟨hK, h.brk, h.low⟩, hb, rfl, fun fuel hfuel => ?_⟩
  rw [hscan fuel hfuel, hcarve]

/-- **The loop of `malloc` ends**: with a block, or because `sbrk` fails. -/
theorem Full.scan {s : Heap} (h : Full base s L O) (hnu : 0 < nu.toNat) {gaps : List ℕ}
    (hint : gaps = [] ∨ 16 * (coreUnits nu).toNat < 2 ^ 31)
    (hmore : gaps = [] ∨ units s.got + (coreUnits nu).toNat < 2 ^ 32 ∨ ∃ x ∈ nodes base L, nu ≤ (s.mem x).size) :
    ∃ N s' p, (∀ fuel, N ≤ fuel → scan nu fuel s gaps s.freep (s.mem s.freep).ptr = some (s', p)) ∧ s'.out = s.out ∧
      (p = 0 ∧ s' = s ∨ ∃ b K, Full base s' K (b :: O) ∧ b.units = nu.toNat ∧ p = b.addr + 16) := by
  by_cases hex : ∃ x ∈ nodes base L, nu ≤ (s.mem x).size
  · obtain ⟨s', b, K, hK, hb, hout, hscan⟩ := h.found hnu hex gaps
    exact ⟨L.length + 1, s', _, hscan, hout, .inr ⟨b, K, hK, hb, rfl⟩⟩
  · have hno : ∀ x ∈ nodes base L, (s.mem x).size < nu := by
      intro x hx
      rw [← UInt32.not_le]
      exact fun hle => hex ⟨x, hx, hle⟩
    cases gaps with
    | nil =>
      refine ⟨L.length + 1, s, 0, fun fuel hfuel => ?_, rfl, .inl ⟨rfl, rfl⟩⟩
      obtain ⟨k, rfl⟩ : ∃ k, fuel = L.length + (k + 1) := ⟨fuel - L.length - 1, by omega⟩
      rw [h.ready.scan_none hno]
      rfl
    | cons gap gaps =>
      have hroom := (hmore.resolve_left (List.cons_ne_nil _ _)).resolve_right hex
      have hint := hint.resolve_left (List.cons_ne_nil _ _)
      obtain ⟨s₁, K₁, hfull, hex₁, hout₁, hcore⟩ := h.morecore hint hroom gap gaps
      obtain ⟨s', b, K, hK, hb, hout, hscan⟩ := hfull.found hnu hex₁ gaps
      refine ⟨L.length + (L.length + K₁.length + 2), s', _, fun fuel hfuel => ?_, hout.trans hout₁,
        .inr ⟨b, K, hK, hb, rfl⟩⟩
      obtain ⟨k, rfl⟩ : ∃ k, fuel = L.length + (k + 1) := ⟨fuel - L.length - 1, by omega⟩
      rw [h.ready.scan_none hno, hcore k (by omega)]
      exact hscan k (by omega)

end Xv6.Umalloc
