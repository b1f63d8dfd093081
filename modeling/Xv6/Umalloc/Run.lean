import Xv6.Umalloc.Malloc

/-!
# Programs that use malloc and free

* `scan_mono`, `free_mono`: when a call ends, it does so with more turns as well.
* `Inv`: the free list and the program's blocks, `Inv.step`: one call keeps them in order.
* **`heap_intact`**: what holds in every run, as long as `sbrk` has returned fewer than 2 ^ 32 units in all.
  `heap_wraps`: with more, a size does not fit into 32 bits, and units are lost.
-/

namespace Xv6.Umalloc

open Circle Runs

variable {base : ℕ} {s s' : Heap} {L O : List Block} {nu : UInt32}

/-! ## Turns -/

theorem free_mono {ap k j : ℕ} (h : free s ap k = some s') (hkj : k ≤ j) : free s ap j = some s' := by
  unfold free seek at h ⊢
  obtain ⟨p, hp, hlink⟩ := Option.map_eq_some_iff.1 h
  rw [search_mono hp hkj, Option.map_some, hlink]

theorem morecore_mono {gaps : List ℕ} {k j : ℕ} {r : Option (Heap × List ℕ)} (h : morecore s gaps nu k = some r)
    (hkj : k ≤ j) : morecore s gaps nu j = some r := by
  unfold morecore at h ⊢
  cases gaps with
  | nil => exact h
  | cons gap gaps =>
    obtain ⟨t, ht, hr⟩ := Option.map_eq_some_iff.1 h
    dsimp only
    rw [free_mono ht hkj, Option.map_some, hr]

theorem scan_mono {gaps : List ℕ} {k j a p : ℕ} {r : Heap × ℕ} (h : scan nu k s gaps a p = some r) (hkj : k ≤ j) :
    scan nu j s gaps a p = some r := by
  induction k generalizing s gaps a p j with
  | zero => cases h
  | succ k ih =>
    obtain ⟨j, rfl⟩ : ∃ i, j = i + 1 := ⟨j - 1, by omega⟩
    have hle : k ≤ j := Nat.le_of_succ_le_succ hkj
    rw [scan] at h ⊢
    split_ifs at h ⊢ with hfit hp
    · exact h
    · cases hcore : morecore s gaps nu k with
      | none =>
        rw [hcore] at h
        cases h
      | some r' =>
        rw [hcore] at h
        rw [morecore_mono hcore hle]
        cases r' with
        | none => exact h
        | some r' => exact ih h hle
    · exact ih h hle

/-! ## The invariant -/

abbrev Heap.blocks (s : Heap) : List Block := s.out.map Given.toBlock

/-- **The heap is in order**: it has not been used, or there is a free list. The program's blocks are as large as it
has asked for. -/
structure Inv (base : ℕ) (s : Heap) : Prop where
  list : (s.freep = 0 ∧ s.got = [] ∧ s.out = []) ∨ ∃ L, Full base s L s.blocks
  low : base + 16 ≤ s.brk
  room : ∀ o ∈ s.out, o.n.toNat + 16 ≤ 16 * o.units

theorem inv_init (mem : ℕ → Header) {brk : ℕ} (h : base + 16 ≤ brk) : Inv base (.init mem brk) :=
  ⟨.inl ⟨rfl, rfl, rfl⟩, h, nofun⟩

theorem Inv.start (h : Inv base s) (hbase : 0 < base) :
    ∃ L, Full base (start base s) L s.blocks ∧ (start base s).out = s.out ∧ (start base s).got = s.got := by
  rcases h.list with ⟨hfreep, hgot, hout⟩ | ⟨L, hL⟩
  · have hstart : Umalloc.start base s = ((s.setFreep base).setPtr base base).setSize base 0 := by
      rw [Umalloc.start, if_pos hfreep]
    refine ⟨[], ?_, by rw [hstart]; rfl, by rw [hstart]; rfl⟩
    rw [hstart, Heap.blocks, hout]
    refine ⟨⟨⟨nofun, List.Pairwise.nil, by simp, ?_, ?_, ?_⟩, List.Pairwise.nil, ?_, ?_, nofun,
      List.mem_cons_self⟩, ?_, h.low⟩
    · change span [] ∪ span [] = span s.got
      rw [hgot, Set.union_self]
    · change units [] + units [] = units s.got
      rw [hgot]
      rfl
    · change ∀ x ∈ span s.got, _
      rw [hgot]
      simp
    · simp [Linked, next, Heap.setSize, Heap.setPtr, Heap.setFreep, Heap.write]
    · simp [Heap.setSize, Heap.write]
    · change ∀ g ∈ s.got, _
      rw [hgot]
      simp
  · have hne : s.freep ≠ 0 := by
      rcases List.mem_cons.1 hL.ready.rover with hb | hb
      · omega
      · obtain ⟨b, hb, he⟩ := List.mem_map.1 hb
        have := hL.ready.layout.base_lt (List.mem_append_left _ hb)
        omega
    have hstart : Umalloc.start base s = s := by rw [Umalloc.start, if_neg hne]
    rw [hstart]
    exact ⟨L, hL, rfl, rfl⟩

theorem toNat_nunits (n : UInt32) : (nunits n).toNat = (n.toNat + 15) / 16 + 1 := by
  have hn := n.toNat_lt
  simp only [nunits, UInt64.toNat_toUInt32, UInt64.toNat_add, UInt64.toNat_sub, UInt64.toNat_div,
    UInt32.toNat_toUInt64, UInt64.reduceToNat]
  omega

theorem coreUnits_lt (h : 16 * nu.toNat < 2 ^ 31) : 16 * (coreUnits nu).toNat < 2 ^ 31 := by
  unfold coreUnits
  split_ifs
  · decide
  · exact h

theorem Inv.malloc (h : Inv base s) (hL : Full base (Umalloc.start base s) L s.blocks)
    (hout : (Umalloc.start base s).out = s.out) {n : UInt32} {gaps : List ℕ}
    (hint : gaps = [] ∨ 16 * (nunits n).toNat < 2 ^ 31)
    (hmore : gaps = [] ∨ units (Umalloc.start base s).got + (coreUnits (nunits n)).toNat < 2 ^ 32 ∨
      ∃ x ∈ nodes base L, nunits n ≤ ((Umalloc.start base s).mem x).size) :
    ∃ N s' p, (∀ fuel, N ≤ fuel → malloc base s n gaps fuel = some (s', p)) ∧ Inv base (s'.give n p) := by
  have hnu : 0 < (nunits n).toNat := by
    rw [toNat_nunits]
    omega
  obtain ⟨N, s', p, hscan, hout', hres⟩ := hL.scan hnu (hint.imp_right coreUnits_lt) hmore
  refine ⟨N, s', p, hscan, ?_⟩
  have hroom : ∀ o ∈ s'.out, o.n.toNat + 16 ≤ 16 * o.units := by
    intro o ho
    rw [hout', hout] at ho
    exact h.room o ho
  rcases hres with ⟨rfl, rfl⟩ | ⟨b, K, hK, hb, rfl⟩
  · rw [Heap.give, if_pos rfl]
    refine ⟨.inr ⟨L, ?_⟩, hL.low, hroom⟩
    rw [Heap.blocks, hout]
    exact hL
  · have hsize : (s'.mem b.addr).size.toNat = b.units :=
      hK.ready.sizes b (List.mem_append_right _ List.mem_cons_self)
    rw [Heap.give, if_neg (by omega), Nat.add_sub_cancel, hsize]
    refine ⟨.inr ⟨K, ?_, hK.brk, hK.low⟩, hK.low, fun o ho => ?_⟩
    · change Ready base s'.mem s'.freep K (b :: s'.out.map Given.toBlock) s'.got
      rw [hout', hout]
      exact hK.ready
    · rcases List.mem_cons.1 ho with rfl | ho
      · change n.toNat + 16 ≤ 16 * b.units
        rw [hb, toNat_nunits]
        omega
      · exact hroom o ho

/-! ## What sbrk has returned -/

theorem got_link (s : Heap) (bp p : ℕ) : (link s bp p).got = s.got := by
  unfold link joinDown joinUp
  split_ifs <;> rfl

theorem got_free {ap fuel : ℕ} (h : free s ap fuel = some s') : s'.got = s.got := by
  obtain ⟨p, -, rfl⟩ := Option.map_eq_some_iff.1 h
  exact got_link s _ p

theorem got_morecore {gap : ℕ} {gaps gaps' : List ℕ} {fuel : ℕ}
    (h : morecore s (gap :: gaps) nu fuel = some (some (s', gaps'))) :
    s'.got = s.got ++ [⟨s.brk + gap, (coreBytes (coreUnits nu)).toNat / 16⟩] := by
  obtain ⟨t, ht, hr⟩ := Option.map_eq_some_iff.1 h
  cases hr
  exact got_free ht

theorem units_morecore_le {gaps gaps' : List ℕ} {fuel : ℕ}
    (h : morecore s gaps nu fuel = some (some (s', gaps'))) : units s.got ≤ units s'.got := by
  cases gaps with
  | nil => cases h
  | cons gap gaps =>
    rw [got_morecore h, units_append]
    exact Nat.le_add_right _ _

theorem units_morecore {gap : ℕ} {gaps gaps' : List ℕ} {fuel : ℕ} (hint : 16 * (coreUnits nu).toNat < 2 ^ 31)
    (h : morecore s (gap :: gaps) nu fuel = some (some (s', gaps'))) :
    units s'.got = units s.got + (coreUnits nu).toNat := by
  rw [got_morecore h, coreBytes_eq hint, Int.toNat_natCast, Nat.mul_div_cancel_left _ (by decide), units_append,
    units_cons, units_nil]
  rfl

theorem units_scan_le {gaps : List ℕ} {k a p : ℕ} {r : Heap × ℕ} (h : scan nu k s gaps a p = some r) :
    units s.got ≤ units r.1.got := by
  induction k generalizing s gaps a p with
  | zero => cases h
  | succ k ih =>
    rw [scan] at h
    split_ifs at h with hfit hp
    · cases h
      unfold carve
      split_ifs <;> exact le_rfl
    · cases hcore : morecore s gaps nu k with
      | none =>
        rw [hcore] at h
        cases h
      | some r' =>
        rw [hcore] at h
        cases r' with
        | none =>
          cases h
          exact le_rfl
        | some r' =>
          exact (units_morecore_le hcore).trans (ih h)
    · exact ih h

theorem Ready.units_scan {G : List Block} (h : Ready base s.mem s.freep L O G) {gap : ℕ} {gaps : List ℕ} {k : ℕ}
    {r : Heap × ℕ} (hint : 16 * (coreUnits nu).toNat < 2 ^ 31)
    (hr : scan nu k s (gap :: gaps) s.freep (s.mem s.freep).ptr = some r)
    (hno : ∀ x ∈ nodes base L, (s.mem x).size < nu) : units s.got + (coreUnits nu).toNat ≤ units r.1.got := by
  have hlong := scan_mono hr (by omega : k ≤ L.length + (k + 1))
  rw [h.scan_none hno] at hlong
  cases hcore : morecore s (gap :: gaps) nu k with
  | none =>
    rw [hcore] at hlong
    cases hlong
  | some r' =>
    rw [hcore] at hlong
    cases r' with
    | none =>
      obtain ⟨t, -, ht⟩ := Option.map_eq_some_iff.1 hcore
      cases ht
    | some r' =>
      rw [← units_morecore hint hcore]
      exact units_scan_le hlong

/-! ## Steps -/

theorem Layout.perm_out {O' G : List Block} (h : Layout base L O G) (hperm : O.Perm O') : Layout base L O' G := by
  have hspan : span O' = span O := by
    ext x
    simp only [mem_span, hperm.mem_iff]
  have hunits : units O' = units O := (hperm.map Block.units).sum_eq.symm
  refine ⟨fun b hb => h.pos b ?_, ?_, ?_, ?_, ?_, h.low⟩
  · simpa only [List.mem_append, hperm.mem_iff] using hb
  · exact (hperm.pairwise_iff fun {b c} hbc => hbc.symm).1 h.out
  · rw [hspan]
    exact h.apart
  · rw [hspan]
    exact h.cover
  · rw [hunits]
    exact h.total

theorem Ready.perm_out {m : ℕ → Header} {freep : ℕ} {O' G : List Block} (h : Ready base m freep L O G)
    (hperm : O.Perm O') : Ready base m freep L O' G := by
  refine ⟨h.layout.perm_out hperm, h.sorted, h.ring, h.empty, fun b hb => h.sizes b ?_, h.rover⟩
  simpa only [List.mem_append, hperm.mem_iff] using hb

theorem perm_takeBack {o : Given} (h : Layout base L s.blocks s.got) (ho : o ∈ s.out) :
    s.out.Perm (o :: (s.takeBack (o.addr + 16)).out) := by
  obtain ⟨l₁, l₂, hl⟩ := List.append_of_mem ho
  have hblocks : s.blocks.Perm (o.toBlock :: (l₁ ++ l₂).map Given.toBlock) := by
    rw [Heap.blocks, hl, ← List.map_cons]
    exact List.perm_middle.map _
  have hlay := h.perm_out hblocks
  have hkeep : ∀ q ∈ l₁ ++ l₂, q.addr + 16 ≠ o.addr + 16 := by
    intro q hq he
    exact hlay.out_addr_ne (List.mem_map_of_mem hq) (by omega)
  have hfilter : (s.takeBack (o.addr + 16)).out = l₁ ++ l₂ := by
    rw [Heap.takeBack, hl, List.filter_append, List.filter_cons, if_neg (by simp), ← List.filter_append,
      List.filter_eq_self]
    intro q hq
    exact decide_eq_true (hkeep q hq)
  rw [hfilter, hl]
  exact List.perm_middle

theorem Inv.free (h : Inv base s) (hG : units s.got < 2 ^ 32) {o : Given} (ho : o ∈ s.out) :
    ∃ N s', (∀ fuel, N ≤ fuel → free s (o.addr + 16) fuel = some s') ∧ Inv base (s'.takeBack (o.addr + 16)) := by
  rcases h.list with ⟨-, -, hout⟩ | ⟨L, hL⟩
  · rw [hout] at ho
    cases ho
  · have hperm := perm_takeBack hL.ready.layout ho
    have hready := hL.ready.perm_out (hperm.map Given.toBlock)
    obtain ⟨m, p, K, hK, hfree⟩ := hready.free hG
    refine ⟨L.length + 1, _, hfree, .inr ⟨K, hK, hL.brk, hL.low⟩, hL.low, fun q hq => h.room q ?_⟩
    exact (List.mem_filter.1 hq).1

theorem Inv.write (h : Inv base s) {o : Given} {a : ℕ} (ho : o ∈ s.out) (ha : o.addr + 16 ≤ a) (hstop : a + 16 ≤ o.stop)
    (hd : Header) : Inv base (s.write a hd) := by
  rcases h.list with ⟨-, -, hout⟩ | ⟨L, hL⟩
  · rw [hout] at ho
    cases ho
  · have hlay := hL.ready.layout.perm_out ((perm_takeBack hL.ready.layout ho).map Given.toBlock)
    have hbytes : a ∈ o.toBlock.bytes := ⟨by omega, by omega⟩
    have hob : o.toBlock ∈ s.blocks := List.mem_map_of_mem ho
    have hne : ∀ x ∈ nodes base (L ++ s.blocks), x ≠ a := by
      rintro x hx rfl
      rcases List.mem_cons.1 hx with rfl | hx
      · have := hL.ready.layout.base_lt (List.mem_append_right L hob)
        omega
      · obtain ⟨b, hb, rfl⟩ := List.mem_map.1 hx
        have hbmem := Block.addr_mem (hL.ready.layout.pos b hb)
        rcases List.mem_append.1 hb with hb | hb
        · exact Set.disjoint_left.1 hL.ready.layout.apart ⟨b, hb, hbmem⟩ ⟨_, hob, hbytes⟩
        · obtain ⟨q, hq, rfl⟩ := List.mem_map.1 hb
          rcases List.mem_cons.1 ((perm_takeBack hL.ready.layout ho).mem_iff.1 hq) with rfl | hq
          · omega
          · exact Set.disjoint_left.1 ((List.pairwise_cons.1 hlay.out).1 _ (List.mem_map_of_mem hq)) hbytes hbmem
    refine ⟨.inr ⟨L, hL.ready.congr fun x hx => ?_, hL.brk, hL.low⟩, h.low, h.room⟩
    exact Function.update_of_ne (hne x hx) _ _

theorem units_step_le {e : Ev} (h : step base s e = some s') : units s.got ≤ units s'.got := by
  cases e with
  | malloc n gaps fuel =>
    obtain ⟨r, hr, rfl⟩ := Option.map_eq_some_iff.1 h
    have hle := units_scan_le hr
    have hstart : (start base s).got = s.got := by
      unfold start
      split_ifs <;> rfl
    rw [hstart] at hle
    unfold Heap.give
    split_ifs <;> exact hle
  | free ap fuel =>
    obtain ⟨t, ht, rfl⟩ := Option.map_eq_some_iff.1 h
    exact (congrArg units (got_free ht)).ge
  | write a hd =>
    cases h
    exact le_rfl

theorem Inv.step {e : Ev} (h : Inv base s) (hbase : 0 < base) (hok : Proper s e) (hstep : step base s e = some s')
    (hG : units s'.got < 2 ^ 32) : Inv base s' := by
  have hG₀ := lt_of_le_of_lt (units_step_le hstep) hG
  cases e with
  | malloc n gaps fuel =>
    obtain ⟨r, hr, rfl⟩ := Option.map_eq_some_iff.1 hstep
    obtain ⟨L, hL, hout, hgot⟩ := h.start hbase
    have hmore : gaps = [] ∨ units (Umalloc.start base s).got + (coreUnits (nunits n)).toNat < 2 ^ 32 ∨
        ∃ x ∈ nodes base L, nunits n ≤ ((Umalloc.start base s).mem x).size := by
      cases gaps with
      | nil => exact .inl rfl
      | cons gap gaps =>
        right
        by_cases hex : ∃ x ∈ nodes base L, nunits n ≤ ((Umalloc.start base s).mem x).size
        · exact .inr hex
        · left
          have hint := coreUnits_lt (hok.resolve_left (List.cons_ne_nil _ _))
          have hle := hL.ready.units_scan hint hr fun x hx => by
            rw [← UInt32.not_le]
            exact fun hle => hex ⟨x, hx, hle⟩
          have hgive : (r.1.give n r.2).got = r.1.got := by
            unfold Heap.give
            split_ifs <;> rfl
          rw [hgive] at hG
          omega
    obtain ⟨N, t, p, hmalloc, hinv⟩ := h.malloc hL hout hok hmore
    have hboth : some r = some (t, p) := by
      rw [← hmalloc (N + fuel) (by omega)]
      exact (scan_mono hr (by omega)).symm
    cases hboth
    exact hinv
  | free ap fuel =>
    obtain ⟨t, ht, rfl⟩ := Option.map_eq_some_iff.1 hstep
    obtain ⟨o, ho, rfl⟩ := hok
    obtain ⟨N, t', hfree, hinv⟩ := h.free hG₀ ho
    have hboth : some t = some t' := by
      rw [← hfree (N + fuel) (by omega)]
      exact (free_mono ht (by omega)).symm
    cases hboth
    exact hinv
  | write a hd =>
    cases hstep
    obtain ⟨o, ho, ha, hstop⟩ := hok
    exact h.write ho ha hstop hd

theorem inv_of_reach {mem : ℕ → Header} {brk : ℕ} (hbase : 0 < base) (hbrk : base + 16 ≤ brk)
    (h : Reach (step base) Proper (.init mem brk) s) (hG : units s.got < 2 ^ 32) : Inv base s := by
  refine Reach.inv (I := fun s => units s.got < 2 ^ 32 → Inv base s) (fun _ => inv_init mem hbrk) ?_ h hG
  intro s e s' hs hok hstep hG'
  exact (hs (lt_of_le_of_lt (units_step_le hstep) hG')).step hbase hok hstep hG'

/-- **malloc and free.** In every run in which `sbrk` has returned fewer than 2 ^ 32 units: the free list is circular
and, from `base` on, in the order of the addresses, and no two of its blocks overlap or are adjacent; the program's
blocks are disjoint, also from the free ones, they lie in memory that `sbrk` has returned and have room for what was
asked for; no unit is lost; and the next call returns. -/
theorem heap_intact {mem : ℕ → Header} {brk : ℕ} (hbase : 0 < base) (hbrk : base + 16 ≤ brk)
    (h : Reach (step base) Proper (.init mem brk) s) (hG : units s.got < 2 ^ 32) :
    ((s.freep = 0 ∧ s.got = [] ∧ s.out = []) ∨ ∃ L : List Block,
      (Linked (next s.mem) base (L.map Block.addr) base ∧ s.freep ∈ nodes base L ∧
        (nodes base L).Pairwise (· < ·) ∧ Sorted L ∧ (s.mem base).size = 0 ∧
        ∀ b ∈ L ++ s.blocks, 0 < b.units ∧ (s.mem b.addr).size.toNat = b.units) ∧
      (s.blocks.Pairwise (fun b c => Disjoint b.bytes c.bytes) ∧ Disjoint (span L) (span s.blocks) ∧
        span L ∪ span s.blocks = span s.got ∧ units L + units s.blocks = units s.got)) ∧
    (∀ o ∈ s.out, o.n.toNat + 16 ≤ 16 * o.units) ∧
    (∀ n gaps, 16 * (nunits n).toNat < 2 ^ 31 →
      gaps = [] ∨ units s.got + (coreUnits (nunits n)).toNat < 2 ^ 32 →
      ∃ N, ∀ fuel, N ≤ fuel → (malloc base s n gaps fuel).isSome) ∧
    (∀ o ∈ s.out, ∃ N, ∀ fuel, N ≤ fuel → (free s (o.addr + 16) fuel).isSome) := by
  have hinv := inv_of_reach hbase hbrk h hG
  refine ⟨hinv.list.imp_right ?_, hinv.room, fun n gaps hint hmore => ?_, fun o ho => ?_⟩
  · rintro ⟨L, hL⟩
    have hr := hL.ready
    exact ⟨L, ⟨hr.ring, hr.rover, hr.increasing, hr.sorted, hr.empty, fun b hb => ⟨hr.layout.pos b hb, hr.sizes b hb⟩⟩,
      hr.layout.out, hr.layout.apart, hr.layout.cover, hr.layout.total⟩
  · obtain ⟨L, hL, hout, hgot⟩ := hinv.start hbase
    rw [← hgot] at hmore
    obtain ⟨N, t, p, hmalloc, -⟩ := hinv.malloc hL hout (.inr hint) (hmore.imp_right .inl)
    exact ⟨N, fun fuel hfuel => by rw [hmalloc fuel hfuel]; rfl⟩
  · obtain ⟨N, t, hfree, -⟩ := hinv.free hG ho
    exact ⟨N, fun fuel hfuel => by rw [hfree fuel hfuel]; rfl⟩

instance (s : Heap) (e : Ev) : Decidable (Proper s e) := by
  cases e <;> unfold Proper <;> infer_instance

/-- The header `base` is at 64, and memory is handed out from 4096 on. -/
def fresh : Heap := .init (fun _ => ⟨0, 0⟩) 4096

def someCalls : List Ev := [.malloc 100 [0] 9, .malloc 20 [] 9, .free 69520 9]

theorem someCalls_run : ∃ s, Reach (step 64) Proper fresh s ∧ s.blocks = [⟨69456, 3⟩] ∧ units s.got = 4096 := by
  have hrun : (execIf (step 64) Proper fresh someCalls).any
      (fun s => decide (s.blocks = [⟨69456, 3⟩] ∧ units s.got = 4096)) = true := by decide +kernel
  obtain ⟨s, hs, hd⟩ := (Option.any_eq_true _ _).1 hrun
  exact ⟨s, Reach.of_execIf hs, of_decide_eq_true hd⟩

/-- After these calls one block is not free, and the other units are. -/
theorem heap_intact_some : ∃ s, Reach (step 64) Proper fresh s ∧ s.blocks = [⟨69456, 3⟩] ∧ units s.got = 4096 ∧
    ∃ L : List Block, Sorted L ∧ units L + units s.blocks = units s.got := by
  obtain ⟨s, hreach, hblocks, hgot⟩ := someCalls_run
  refine ⟨s, hreach, hblocks, hgot, ?_⟩
  rcases (heap_intact (by decide) (by decide) hreach (by rw [hgot]; decide)).1 with ⟨-, -, hout⟩ | ⟨L, hL, hout⟩
  · rw [Heap.blocks, hout] at hblocks
    cases hblocks
  · exact ⟨L, hL.2.2.2.1, hout.2.2.2⟩

/-- A program allocates 33 blocks of almost 2 GiB, and frees them. -/
def manyCalls : List Ev :=
  List.replicate 33 (.malloc (2 ^ 31 - 32) [0] 99) ++
    (List.range 33).map fun i => .free (4096 + 16 * (2 ^ 27 - 1) * i + 16) 99

/-- **A size goes round**: the program has given back all of its blocks, and the free list has one block, of fewer units
than `sbrk` has returned. -/
theorem heap_wraps : ∃ s, Reach (step 64) Proper fresh s ∧ s.out = [] ∧ units s.got = 33 * (2 ^ 27 - 1) ∧
    Linked (next s.mem) 64 [4096] 64 ∧ (s.mem 64).size.toNat + (s.mem 4096).size.toNat < units s.got := by
  have hrun : (execIf (step 64) Proper fresh manyCalls).any
      (fun s => decide (s.out = [] ∧ units s.got = 33 * (2 ^ 27 - 1) ∧ (next s.mem 64 = 4096 ∧ next s.mem 4096 = 64) ∧
        (s.mem 64).size.toNat + (s.mem 4096).size.toNat < units s.got)) = true := by decide +kernel
  obtain ⟨s, hs, hd⟩ := (Option.any_eq_true _ _).1 hrun
  obtain ⟨hout, hgot, hring, hlost⟩ := of_decide_eq_true hd
  exact ⟨s, Reach.of_execIf hs, hout, hgot, hring, hlost⟩

/-! ## Requests of any size -/

theorem nunits_small_iff (n : UInt32) : 16 * (nunits n).toNat < 2 ^ 31 ↔ n.toNat ≤ 2 ^ 31 - 32 := by
  rw [toNat_nunits]
  omega

theorem lt_of_bmod {u : ℕ} (hu : u ≤ 2 ^ 28 + 1) (h : (((16 * u : ℕ) : ℤ).bmod (2 ^ 32)).toNat / 16 = u) :
    16 * u < 2 ^ 31 := by
  rw [Int.bmod_def] at h
  split_ifs at h <;> omega

theorem le_coreUnits (nu : UInt32) : nu.toNat ≤ (coreUnits nu).toNat ∧ (coreUnits nu).toNat ≤ max 4096 nu.toNat := by
  unfold coreUnits
  split_ifs with h
  · exact ⟨(UInt32.lt_iff_toNat_lt.1 h).le, le_max_left _ _⟩
  · exact ⟨le_rfl, le_max_right _ _⟩

theorem coreBytes_iff (n : UInt32) :
    (coreBytes (coreUnits (nunits n))).toNat / 16 = (coreUnits (nunits n)).toNat ↔ n.toNat ≤ 2 ^ 31 - 32 := by
  rw [← nunits_small_iff]
  refine ⟨fun h => ?_, fun h => ?_⟩
  · have hn : n.toNat < 2 ^ 32 := n.toNat_lt
    have hle := le_coreUnits (nunits n)
    have hlt := lt_of_bmod (by rw [toNat_nunits] at hle; omega) h
    omega
  · rw [coreBytes_eq (coreUnits_lt h), Int.toNat_natCast, Nat.mul_div_cancel_left _ (by decide)]

/-- **`malloc` hands out memory that it has obtained**, for requests of up to `2 ^ 31 - 32` bytes: exactly then the block
that `morecore` puts into the free list has the bytes that `sbrk` has returned; and in every run in which it gets memory
for such requests only, the bytes asked for lie in memory that `sbrk` has returned. -/
theorem malloc_obtains {mem : ℕ → Header} {brk : ℕ} (hbase : 0 < base) (hbrk : base + 16 ≤ brk) :
    (∀ (n : UInt32) s gap gaps fuel s' gaps',
      morecore s (gap :: gaps) (nunits n) fuel = some (some (s', gaps')) →
        (s'.got = s.got ++ [⟨s.brk + gap, (coreUnits (nunits n)).toNat⟩] ↔ n.toNat ≤ 2 ^ 31 - 32)) ∧
    ∀ s, Reach (step base) Proper (.init mem brk) s → units s.got < 2 ^ 32 →
      ∀ o ∈ s.out, ∀ y, o.addr + 16 ≤ y → y < o.addr + 16 + o.n.toNat → y ∈ span s.got := by
  refine ⟨fun n s gap gaps fuel s' gaps' h => ?_, fun s h hG o ho y hy hlt => ?_⟩
  · rw [got_morecore h, List.append_cancel_left_eq, ← coreBytes_iff]
    simp
  · have hinv := inv_of_reach hbase hbrk h hG
    have hroom := hinv.room o ho
    rcases hinv.list with ⟨-, -, hout⟩ | ⟨L, hL⟩
    · rw [hout] at ho
      cases ho
    · rw [← hL.ready.layout.cover]
      refine .inr ⟨o.toBlock, List.mem_map_of_mem ho, ?_, ?_⟩
      · omega
      · unfold Block.stop
        omega

/-- `morecore` is called for 100 bytes; and the block of the run above that is not free. -/
theorem malloc_obtains_some :
    (∃ s, morecore (start 64 fresh) [0] (nunits 100) 9 = some (some (s, [])) ∧ s.got = [⟨4096, 4096⟩]) ∧
    ∃ s, Reach (step 64) Proper fresh s ∧ s.out ≠ [] ∧
      ∀ o ∈ s.out, ∀ y, o.addr + 16 ≤ y → y < o.addr + 16 + o.n.toNat → y ∈ span s.got := by
  have hall := @malloc_obtains 64 (fun _ => ⟨0, 0⟩) 4096 (by decide) (by decide)
  constructor
  · have hrun : (morecore (start 64 fresh) [0] (nunits 100) 9).any (fun r => r.any fun x => x.2 = []) = true := by
      decide +kernel
    obtain ⟨r, hr, hd⟩ := (Option.any_eq_true _ _).1 hrun
    obtain ⟨⟨s, gaps⟩, rfl, hd⟩ := (Option.any_eq_true _ _).1 hd
    obtain rfl : gaps = [] := of_decide_eq_true hd
    exact ⟨s, hr, (hall.1 100 _ 0 [] 9 s [] hr).2 (by decide)⟩
  · obtain ⟨s, hreach, hblocks, hgot⟩ := someCalls_run
    refine ⟨s, hreach, fun hout => ?_, hall.2 s hreach (by rw [hgot]; decide)⟩
    rw [Heap.blocks, hout] at hblocks
    cases hblocks

/-- **A request of `2 ^ 32 - 1` bytes gets 16 bytes**, all of which are the header. -/
theorem malloc_overruns : ∃ s, step 64 fresh (.malloc 4294967295 [0] 9) = some s ∧ s.got = [⟨4096, 1⟩] ∧
    ∃ o ∈ s.out, o.n = 4294967295 ∧ o.addr + 16 ∉ span s.got := by
  have hrun : (step 64 fresh (.malloc 4294967295 [0] 9)).any
      (fun s => decide (s.got = [⟨4096, 1⟩] ∧ s.out = [⟨⟨4096, 268435457⟩, 4294967295⟩])) = true := by decide +kernel
  obtain ⟨s, hs, hd⟩ := (Option.any_eq_true _ _).1 hrun
  obtain ⟨hgot, hout⟩ := of_decide_eq_true hd
  refine ⟨s, hs, hgot, _, hout ▸ List.mem_cons_self, rfl, ?_⟩
  rw [hgot]
  rintro ⟨b, hb, -, hlt⟩
  rw [List.mem_singleton.1 hb] at hlt
  exact absurd hlt (by decide)

end Xv6.Umalloc
