import Xv6.Vm.Map

/-!
# `uvmalloc` is all or nothing

`uvmalloc` may run out of memory at any page, for the page itself or for a page of the table.

* `ZeroPage`: what `uvmalloc` says of a page it has mapped. `allocLoop_run`: the loop maps every page, or restores the
  table.
* **`uvmalloc_all_or_nothing`**: it returns the new size with just the pages below it mapped or, if memory runs out,
  `0` with the old mappings and contents, and the pages it took are free again or pages of the table.
-/

namespace Xv6.Vm

open Bytes Fail Bag

section

variable [Image] {m m' m₀ : Mem} {l l₀ : List ℕ} {r n a k q : ℕ} {T T₀ : Tab}

def ZeroPage (_ w : ℕ) (d : Page) : Prop := pteFlags w = userPerm ||| pteV ∧ d = fun _ => 0

section

omit [Image]

theorem ZeroPage.valid {v w : ℕ} {d : Page} (h : ZeroPage v w d) : Has w pteV ∧ pteFlags w ≠ pteV := by
  have hw : pteFlags w = 31 := h.1
  simp only [Has, pteFlags, pteV] at *
  omega

theorem zeroPage_entry (q v : ℕ) : ZeroPage v (pa2pte q ||| userPerm ||| pteV) fun _ => 0 :=
  ⟨leafEntry_flags (by decide), rfl⟩

end

/-! ## The loop -/

theorem Added.dealloc (h : Added ZeroPage ValidPte m₀ l₀ r T₀ a n m l T) (han : a ≤ n) (hva : n * pgsize ≤ maxva)
    (hnone : ∀ v, a ≤ v → v < n → T₀.leaf v = none) :
    Yields (uvmdealloc r (n * pgsize) (a * pgsize)) m fun _ m' => Restored ValidPte m₀ l₀ r T₀ T m' := by
  rcases Nat.eq_or_lt_of_le han with rfl | hlt
  · rw [uvmdealloc, if_pos le_rfl]
    have hleaf : T.leaf = T₀.leaf := funext fun v => h.rest v (by omega)
    refine Yields.pure ⟨l, hleaf ▸ h.table, ?_, h.frame⟩
    · have hbal := h.bal
      rwa [Finset.Ico_self, bag_empty, add_zero] at hbal
  · obtain ⟨k, rfl⟩ : ∃ k, n = a + (k + 1) := ⟨n - a - 1, by omega⟩
    have hmax : a * pgsize < maxva := (Nat.mul_lt_mul_of_pos_right hlt (by decide)).trans_le hva
    have hsub : ((a + (k + 1)) * pgsize + (2 ^ 64 - a * pgsize)) % 2 ^ 64 = (k + 1) * pgsize ∧
        a * pgsize + (k + 1) * pgsize ≤ maxva ∧ (a + k) * pgsize < maxva := by
      simp only [pgsize, maxva] at hva hmax ⊢
      omega
    have hcount : ((k + 1) * pgsize - 1) / pgsize = k := by
      simp only [pgsize]
      omega
    have hup : ∀ {b : ℕ}, b * pgsize ≤ maxva → pgRoundUp (b * pgsize) = b * pgsize := by
      intro b hb
      rw [pgRoundUp_eq (hb.trans_lt (by decide)), npages_mul]
    have hlt' : a * pgsize < (a + (k + 1)) * pgsize := Nat.mul_lt_mul_of_pos_right hlt (by decide)
    rw [uvmdealloc, if_neg (Nat.not_le.2 hlt'), hup hmax.le, hup hva, if_pos hlt', hsub.1,
      uvmunmap_eq (Nat.mul_pos k.succ_pos (by decide)) hsub.2.1, hcount]
    refine Yields.bind (h.undo hsub.2.2 (fun _ _ _ => ZeroPage.valid) hnone) ?_
    intro _ m' hres
    exact Yields.pure hres

/-- **Memory has run out** for the pages from `a` to `n`: the table maps what it did, and what is free does not suffice
for the pages and for the page-table pages that the last of them lacks. -/
def OutOfMemory (m₀ : Mem) (l₀ : List ℕ) (r : ℕ) (T₀ : Tab) (a n : ℕ) (m : Mem) : Prop :=
  ∃ l T, Table m l r T ValidPte ∧ T.leaf = T₀.leaf ∧ (l : Multiset ℕ) + T.nodes = l₀ + T₀.nodes ∧
    (∀ p, p ∉ (l₀ : Multiset ℕ) + T₀.nodes → m.page p = m₀.page p) ∧
    l.length < n - a + T.missing ((n - 1) * pgsize)

theorem Added.card (h : Added ZeroPage ValidPte m₀ l₀ r T₀ a n m l T) :
    (bag (Finset.Ico a n) T.pa).card = n - a := by
  rw [card_bag, Nat.card_Ico]
  intro v hv
  obtain ⟨w, hw, -⟩ := h.mapped v (Finset.mem_Ico.1 hv).1 (Finset.mem_Ico.1 hv).2
  exact (T.pa_of_leaf hw).trans_ne nofun

/-- **Giving up** before page `n + k`, with the pages mapped so far. -/
theorem Added.giveUp (h : Added ZeroPage ValidPte m₀ l₀ r T₀ a n m l T) (han : a ≤ n) (hk : 0 < k)
    (hva : n * pgsize ≤ maxva) (hnone : ∀ v, a ≤ v → v < n → T₀.leaf v = none)
    (hshort : l.length < k + T.missing ((n + k - 1) * pgsize)) :
    Yields (uvmdealloc r (n * pgsize) (a * pgsize) >>= fun _ => pure false) m fun ok m' =>
      ok = false ∧ OutOfMemory m₀ l₀ r T₀ a (n + k) m' := by
  refine Yields.bind (h.dealloc han hva hnone) ?_
  rintro _ m' ⟨l', h', hbal, hframe⟩
  refine Yields.pure ⟨rfl, l', _, h', rfl, hbal, hframe, ?_⟩
  have hcard := congrArg Multiset.card (hbal.trans h.bal.symm)
  simp only [Multiset.card_add, Multiset.coe_card, h.card] at hcard
  change l'.length < n + k - a + T.missing _
  omega

/-- **The loop of `uvmalloc`** maps every page, or restores the table when memory runs out. -/
theorem allocLoop_run (k : ℕ) {m : Mem} {l : List ℕ} {T : Tab} {n : ℕ}
    (h : Added ZeroPage ValidPte m₀ l₀ r T₀ a n m l T) (han : a ≤ n) (hva : (n + k) * pgsize ≤ maxva)
    (hnone : ∀ v, a ≤ v → v < n + k → T₀.leaf v = none) :
    Yields (allocLoop r (a * pgsize) k (n * pgsize)) m fun ok m' =>
      (ok = true ∧ ∃ l' T', Added ZeroPage ValidPte m₀ l₀ r T₀ a (n + k) m' l' T') ∨
        (ok = false ∧ OutOfMemory m₀ l₀ r T₀ a (n + k) m') := by
  induction k generalizing m l T n with
  | zero => exact Yields.pure (.inl ⟨rfl, l, T, h⟩)
  | succ k ih =>
    have hn : n * pgsize ≤ maxva := (Nat.mul_le_mul_right _ (Nat.le_add_right n _)).trans hva
    have hfresh : ∀ v, a ≤ v → v < n → T₀.leaf v = none := fun v hv hvn => hnone v hv (by omega)
    cases l with
    | nil =>
      rw [Yields, allocLoop_nil h.table.free]
      refine Yields.mono (h.giveUp han k.succ_pos hn hfresh ?_) fun _ _ => .inr
      exact Nat.lt_add_right _ k.succ_pos
    | cons q l =>
      have hq := h.table.free.pages q List.mem_cons_self
      have hlt : n * pgsize < maxva :=
        (Nat.mul_lt_mul_of_pos_right (show n < n + (k + 1) by omega) (by decide)).trans_le hva
      have hq56 : q < 2 ^ 56 := hq.lt.trans (by decide)
      obtain ⟨m₁, hk, hfree, hsame, hzero⟩ := kalloc_zeros h.table.free h.table.nodup.left.nodup
      have hentry := valid_leafEntry (show userPerm < 2 ^ 10 by decide) hq56
      have hE : ZeroPage n (pa2pte q ||| userPerm ||| pteV) ((m₁.fill q 0).page q) := by
        rw [hzero]
        exact zeroPage_entry q n
      rw [Yields, allocLoop_cons hk hq.ne_zero]
      rcases h.turn hfree hsame han hlt (hnone n han (by omega)) (by decide) hentry.2 hentry hE with
        ⟨-, m₂, l₂, T₂, hrun, h₂⟩ | ⟨-, m₂, T₂, hrun, h₂, hlack⟩
      · rw [hrun, ← Nat.succ_mul, show n + (k + 1) = n + 1 + k by omega]
        rw [show n + (k + 1) = n + 1 + k by omega] at hva hnone
        exact ih h₂ (by omega) hva hnone
      · rw [hrun]
        refine Yields.mono (h₂.giveUp han k.succ_pos hn hfresh ?_) fun _ _ => .inr
        -- the page is there, and its page-table page is not
        cases k with
        | zero => exact Nat.lt_add_of_pos_right hlack
        | succ k => exact Nat.lt_add_right _ (Nat.succ_lt_succ k.succ_pos)

/-! ## The whole call -/

/-- **What `uvmalloc` may do**: grow the memory to `newsz`, or change nothing that can be seen through the table and
keep only pages for the table itself. In the latter case memory has run out: the free pages are fewer than the new
pages and the page-table pages that the last of them lacks. -/
def AllOrNothing (m : Mem) (l : List ℕ) (r : ℕ) (T : Tab) (oldsz newsz res : ℕ) (m' : Mem) : Prop :=
  (res = newsz ∧ (∀ va < trapframeVa, lookup m' r va ≠ none ↔ va < pgRoundUp newsz) ∧
      ∀ va w, lookup m r va = some w → lookup m' r va = some w ∧ m'.page (pte2pa w) = m.page (pte2pa w)) ∨
    (res = 0 ∧ lookup m' r = lookup m r ∧
      (∀ va w, lookup m r va = some w → m'.page (pte2pa w) = m.page (pte2pa w)) ∧
      ∃ l' T', Table m' l' r T' ValidPte ∧ (l' : Multiset ℕ) + T'.nodes = l + T.nodes ∧
        l'.length < npages newsz - npages oldsz + T'.missing ((npages newsz - 1) * pgsize))

omit [Image] in
theorem page_lt_npages {va sz : ℕ} (hsz : sz < 2 ^ 63) : va < pgRoundUp sz ↔ va / pgsize < npages sz := by
  rw [pgRoundUp_eq hsz, Nat.div_lt_iff_lt_mul (by decide)]

theorem mapped_iff {sz : ℕ} (h : TabOk m r T ValidPte) (hsz : sz < 2 ^ 63) :
    (∀ va < trapframeVa, lookup m r va ≠ none ↔ va < pgRoundUp sz) ↔
      ∀ v < nuser, T.leaf v ≠ none ↔ v < npages sz := by
  have hmax : trapframeVa ≤ maxva := by decide
  constructor
  · intro hva v hv
    have hlt : v * pgsize < trapframeVa := by
      rw [trapframeVa_eq]
      exact Nat.mul_lt_mul_of_pos_right hv (by decide)
    have := hva _ hlt
    rwa [lookup_eq h (hlt.trans_le hmax), page_lt_npages hsz, Nat.mul_div_cancel v (by decide)] at this
  · intro hv va hva
    rw [lookup_eq h (hva.trans_le hmax), page_lt_npages hsz]
    exact hv _ ((Nat.div_lt_iff_lt_mul (by decide)).2 (trapframeVa_eq ▸ hva))

omit [Image] in
theorem pagesFrom_eq {oldsz newsz : ℕ} (hlt : oldsz < newsz) :
    npages oldsz + pagesFrom (npages oldsz * pgsize) newsz = npages newsz := by
  simp only [npages, pagesFrom, pgsize]
  omega

/-- **`uvmalloc` is all or nothing**, wherever memory runs out. -/
theorem uvmalloc_all_or_nothing {oldsz newsz : ℕ} (h : Table m l r T ValidPte)
    (hdata : ∀ v w, T.leaf v = some w → pte2pa w ∉ (l : Multiset ℕ) + T.nodes)
    (hold : ∀ va < trapframeVa, lookup m r va ≠ none ↔ va < pgRoundUp oldsz) (hlt : oldsz < newsz)
    (hle : newsz ≤ trapframeVa) : Yields (uvmalloc r oldsz newsz) m (AllOrNothing m l r T oldsz newsz) := by
  have hnew : newsz < 2 ^ 63 := hle.trans_lt (by decide)
  have holdsz : oldsz < 2 ^ 63 := hlt.trans hnew
  have huser : npages newsz ≤ nuser ∧ npages newsz * pgsize ≤ maxva := by
    have hpages : npages newsz ≤ nuser := by
      rw [← npages_mul nuser, ← trapframeVa_eq]
      exact Nat.div_le_div_right (Nat.add_le_add_right hle _)
    exact ⟨hpages, (Nat.mul_le_mul_right _ hpages).trans (by decide)⟩
  rw [mapped_iff h.tab holdsz] at hold
  have hnone : ∀ v, npages oldsz ≤ v → v < npages newsz → T.leaf v = none := by
    intro v hv hvn
    by_contra hne
    exact absurd ((hold v (hvn.trans_le huser.1)).1 hne) (Nat.not_lt.2 hv)
  -- what is mapped is neither free nor a page-table page
  have hcont : ∀ {m' : Mem}, (∀ p, p ∉ (l : Multiset ℕ) + T.nodes → m'.page p = m.page p) →
      ∀ va w, lookup m r va = some w → m'.page (pte2pa w) = m.page (pte2pa w) := by
    intro m' hframe va w hw
    rw [lookup_eq h.tab (lt_of_lookup hw)] at hw
    exact hframe _ (hdata _ w hw)
  rw [uvmalloc, if_neg (Nat.not_lt.2 hlt.le), pgRoundUp_eq holdsz]
  rw [← pagesFrom_eq hlt] at hnone huser
  refine Yields.bind (allocLoop_run _ (Added.refl h _) le_rfl huser.2 hnone) ?_
  rw [pagesFrom_eq hlt] at hnone huser ⊢
  rintro ok m' (⟨rfl, l', T', h'⟩ | ⟨rfl, l', T', h', hleaf, hbal, hframe, hshort⟩)
  · refine Yields.pure (.inl ⟨rfl, ?_, ?_⟩)
    · rw [mapped_iff h'.table.tab hnew]
      intro v hv
      by_cases hin : npages oldsz ≤ v ∧ v < npages newsz
      · obtain ⟨w, hw, -⟩ := h'.mapped v hin.1 hin.2
        rw [hw]
        exact iff_of_true (Option.some_ne_none w) hin.2
      · have hmono : npages oldsz ≤ npages newsz := pagesFrom_eq hlt ▸ Nat.le_add_right _ _
        rw [h'.rest v hin, hold v hv]
        omega
    · intro va w hw
      refine ⟨?_, hcont h'.frame va w hw⟩
      have hva := lt_of_lookup hw
      rw [lookup_eq h.tab hva] at hw
      rw [lookup_eq h'.table.tab hva, h'.rest _ ?_, hw]
      intro hin
      rw [hnone _ hin.1 hin.2] at hw
      cases hw
  · exact Yields.pure (.inr ⟨rfl, lookup_congr h.tab h'.tab hleaf, hcont hframe, l', T', h', hbal, hshort⟩)

end

section

attribute [local instance] Image.least

/-- An empty table grows by one byte, with three free pages. -/
theorem uvmalloc_all_or_nothing_empty :
    Yields (uvmalloc (samplePage 5) 0 1) (sampleMem (samplePage 6))
      (AllOrNothing (sampleMem (samplePage 6)) [samplePage 6, samplePage 7, samplePage 8] (samplePage 5)
        (Tab.rootOnly (samplePage 5)) 0 1) := by
  refine uvmalloc_all_or_nothing sample_table.valid (fun v w hw => ?_) ?_ Nat.one_pos (by decide)
  · cases hw
  · refine (mapped_iff sample_table.valid.tab (by decide)).2 fun v _ => ?_
    exact iff_of_false (fun hc => hc rfl) (Nat.not_lt_zero v)

end

end Xv6.Vm
