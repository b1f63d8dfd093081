import Xv6.Vm.Unmap

/-!
# Mapping fresh pages

`uvmalloc` and `uvmcopy` take pages from the free list one by one, fill them and map them, and undo everything
when memory runs out.

* `Tab.missing`: how many page-table pages the way to an address lacks. `mappage_fits`: `mappages` of one page
  succeeds just when the free list has as many.
* **`Table.mapFresh`**: a page that was taken from the free list is mapped, or given back.
* `Added`: the state of such a loop. **`Added.turn`**: what one turn does. **`Added.undo`**: unmapping the pages that
  were added restores the table.
-/

namespace Xv6.Vm

open Function Bytes Fail Bag

section

variable [Image] {m m' m₀ m₁ : Mem} {l l' l₀ : List ℕ} {r va n a q perm : ℕ} {T T' T₀ : Tab} {W : ℕ → Prop}

/-! ## Room for a page -/

/-- The page-table pages on the way to the PTE of `va`, below the root. -/
def Tab.way (T : Tab) (va : ℕ) : List ℕ :=
  (T.node (.mid (va / 2 ^ 30))).toList ++ (T.node (.bot (va / 2 ^ 21))).toList

/-- **How many of them there are not.** -/
def Tab.missing (T : Tab) (va : ℕ) : ℕ := 2 - (T.way va).length

section

omit [Image]

theorem Tab.nodes_way (T : Tab) (hva : va < maxva) :
    T.nodes = T.way va + bag ((places.erase (.mid (va / 2 ^ 30))).erase (.bot (va / 2 ^ 21))) T.node := by
  have hmid : Node.mid (va / 2 ^ 30) ∈ places := by
    refine mid_mem ?_
    simp only [maxva] at hva
    omega
  have hbot : Node.bot (va / 2 ^ 21) ∈ places.erase (.mid (va / 2 ^ 30)) := by
    refine Finset.mem_erase.2 ⟨nofun, bot_mem ?_⟩
    simp only [maxva] at hva
    omega
  rw [Tab.nodes, bag_erase hmid, bag_erase hbot, ← add_assoc, Tab.way, Multiset.coe_add]

theorem Tab.card_way (hva : va < maxva) (hoff : ∀ k : Node, k.Off va → T'.node k = T.node k) :
    T'.nodes.card + (T.way va).length = T.nodes.card + (T'.way va).length := by
  have hrest : bag ((places.erase (.mid (va / 2 ^ 30))).erase (.bot (va / 2 ^ 21))) T'.node =
      bag ((places.erase (.mid (va / 2 ^ 30))).erase (.bot (va / 2 ^ 21))) T.node := by
    refine bag_congr fun k hk => hoff k ⟨?_, ?_⟩
    · exact Finset.ne_of_mem_erase (Finset.mem_of_mem_erase hk)
    · exact Finset.ne_of_mem_erase hk
  rw [T.nodes_way hva, T'.nodes_way hva, hrest, Multiset.card_add, Multiset.card_add, Multiset.coe_card,
    Multiset.coe_card]
  omega

end

theorem TabOk.way_length (h : TabOk m r T W) (hleaf : T.leaf (va / pgsize) ≠ none) : (T.way va).length = 2 := by
  have hbot := h.leaf_up _ hleaf
  rw [show va / pgsize / 512 = va / 2 ^ 21 by simp only [pgsize]; omega] at hbot
  have hmid := h.bot_up _ hbot
  rw [show va / 2 ^ 21 / 512 = va / 2 ^ 30 by omega] at hmid
  obtain ⟨p, hp⟩ := Option.ne_none_iff_exists'.1 hmid
  obtain ⟨q, hq⟩ := Option.ne_none_iff_exists'.1 hbot
  rw [Tab.way, hp, hq]
  rfl

omit [Image] in
theorem way_length_le (hbot : T.node (.bot (va / 2 ^ 21)) = none) : (T.way va).length ≤ 1 := by
  rw [Tab.way, hbot]
  cases T.node (.mid (va / 2 ^ 30)) with
  | none => simp
  | some p => simp

/-- **A page is mapped just when there is room for the tables.** -/
theorem mappage_fits (h : Table m l r T W) (hva : va < maxva) (ha : va % pgsize = 0)
    (hfree : T.leaf (va / pgsize) = none) {pa : ℕ} (hlt : pa2pte pa ||| perm ||| pteV < 2 ^ 64)
    (hw : W (pa2pte pa ||| perm ||| pteV)) :
    Yields (mappages r va pgsize pa perm) m fun ok m' => ∃ l' T', Table m' l' r T' W ∧
      Grows m l T m' l' T' ∧ (∀ k, k.Off va → T'.node k = T.node k) ∧
      (ok = true ∧ T.missing va ≤ l.length ∧
          T'.leaf = update T.leaf (va / pgsize) (some (pa2pte pa ||| perm ||| pteV)) ∨
        ok = false ∧ l.length < T.missing va ∧ l' = [] ∧ T'.leaf = T.leaf ∧
          T'.node (.bot (va / 2 ^ 21)) = none) := by
  rw [mappages, turns_page hva ha, pgRoundDown_of_aligned ha, mapLoop]
  refine Yields.mono (mapPage_spec h hva hfree hlt hw) ?_
  rintro ok m' ⟨l', T', h', hg, hoff, hres⟩
  have hway := Tab.card_way hva hoff
  have hbal := congrArg Multiset.card hg.bal
  rw [Multiset.card_add, Multiset.card_add, Multiset.coe_card, Multiset.coe_card] at hbal
  refine ⟨l', T', h', hg, hoff, hres.imp ?_ ?_⟩
  · rintro ⟨hok, hleaf⟩
    have hfull : (T'.way va).length = 2 := h'.tab.way_length (by simp [hleaf])
    refine ⟨hok, ?_, hleaf⟩
    rw [Tab.missing]
    omega
  · rintro ⟨hok, hleaf, hl, hbot', -⟩
    have hle := way_length_le hbot'
    rw [hl, List.length_nil] at hbal
    refine ⟨hok, ?_, hl, hleaf, hbot'⟩
    rw [Tab.missing]
    omega

/-! ## A page from the free list -/

theorem Table.taken (h : Table m (q :: l) r T W) (hfree : FreeOk m₁ l)
    (hsame : ∀ p, p ≠ q → m₁.page p = m.page p) : Table m₁ l r T W where
  free := hfree
  tab := by
    refine h.tab.frame fun p hp => hsame p ?_
    rintro rfl
    exact h.notMem_nodes List.mem_cons_self hp
  nodup := by
    refine h.nodup.mono (add_le_add_left ?_ _)
    rw [← Multiset.cons_coe]
    exact Multiset.le_cons_self _ _

theorem Table.notMem_taken (h : Table m (q :: l) r T W) : q ∉ (l : Multiset ℕ) + T.nodes := by
  have hnd := h.nodup.nodup
  rw [← Multiset.cons_coe, Multiset.cons_add] at hnd
  exact (Multiset.nodup_cons.1 hnd).1

def mapOrFree {α : Type} (r va q perm : ℕ) (A B : MemM α) : MemM α := do
  let mapped ← mappages r va pgsize q perm
  if mapped then A
  else do
    kfree q
    B

theorem Table.mapFresh (h : Table m (q :: l) r T W) (hfree : FreeOk m₁ l)
    (hsame : ∀ p, p ≠ q → m₁.page p = m.page p) (hva : va < maxva) (ha : va % pgsize = 0)
    (hnone : T.leaf (va / pgsize) = none) (hlt : pa2pte q ||| perm ||| pteV < 2 ^ 64)
    (hw : W (pa2pte q ||| perm ||| pteV)) :
    (T.missing va ≤ l.length ∧ ∃ m' l' T', (∀ {α : Type} (A B : MemM α), mapOrFree r va q perm A B m₁ = A m') ∧
        Table m' l' r T' W ∧ q ::ₘ ((l' : Multiset ℕ) + T'.nodes) = (q :: l : List ℕ) + T.nodes ∧
        (∀ p, p ∉ ((q :: l : List ℕ) : Multiset ℕ) + T.nodes → m'.page p = m.page p) ∧
        (∀ k p, T.node k = some p → T'.node k = some p) ∧ (∀ k, k.Off va → T'.node k = T.node k) ∧
        m'.page q = m₁.page q ∧ T'.leaf = update T.leaf (va / pgsize) (some (pa2pte q ||| perm ||| pteV))) ∨
      (l.length < T.missing va ∧ ∃ m' T', (∀ {α : Type} (A B : MemM α), mapOrFree r va q perm A B m₁ = B m') ∧
        Table m' [q] r T' W ∧ Grows m (q :: l) T m' [q] T' ∧ (∀ k, k.Off va → T'.node k = T.node k) ∧
        T'.leaf = T.leaf ∧ T'.node (.bot (va / 2 ^ 21)) = none) := by
  have hq := h.free.pages q List.mem_cons_self
  have hqn := h.notMem_taken
  have htab := h.taken hfree hsame
  obtain ⟨ok, m₂, hmap, l₂, T₂, h₂, hg, hoff, hres⟩ := mappage_fits htab hva ha hnone hlt hw
  have hframe : ∀ p, p ∉ ((q :: l : List ℕ) : Multiset ℕ) + T.nodes → m₂.page p = m.page p := by
    intro p hp
    rw [← Multiset.cons_coe, Multiset.cons_add, Multiset.mem_cons, not_or] at hp
    rw [hg.frame p hp.2, hsame p hp.1]
  have hbal : q ::ₘ ((l₂ : Multiset ℕ) + T₂.nodes) = (q :: l : List ℕ) + T.nodes := by
    rw [hg.bal, ← Multiset.cons_coe, Multiset.cons_add]
  rcases hres with ⟨rfl, hroom, hleaf⟩ | ⟨rfl, hroom, rfl, hrest⟩
  · refine .inl ⟨hroom, m₂, l₂, T₂, fun A B => ?_, h₂, hbal, hframe, hg.keep, hoff, hg.frame q hqn, hleaf⟩
    rw [mapOrFree, bind_ok hmap, if_pos rfl]
  · rw [← hg.bal] at hqn
    have hqn' : q ∉ T₂.nodes := fun hin => hqn (Multiset.mem_add.2 (.inr hin))
    obtain ⟨m₃, hkfree, hfree₃, hsame₃⟩ := kfree_spec h₂.free hq List.not_mem_nil
    refine .inr ⟨hroom, m₃, T₂, fun A B => ?_, ⟨hfree₃, ?_, ⟨?_⟩⟩, ⟨?_, hg.keep, fun p hp => ?_⟩, hoff, hrest⟩
    · rw [mapOrFree, bind_ok hmap, if_neg (by simp), bind_ok hkfree]
    · refine h₂.tab.frame fun p hp => hsame₃ p ?_
      rintro rfl
      exact hqn' hp
    · rw [← Multiset.cons_coe, Multiset.cons_add, hbal]
      exact h.nodup.nodup
    · rw [← Multiset.cons_coe, Multiset.cons_add, hbal]
    · have hpq : p ≠ q := by
        rintro rfl
        exact hp (by simp)
      rw [hsame₃ p hpq, hframe p hp]

/-! ## Pages in a row -/

/-- **Pages `a` to `n` were added** to the table `T₀`. The pages that were free, or page-table pages, are now free,
page-table pages, or mapped there; `E` says what is known of the entry and the contents of each. -/
structure Added (E : ℕ → ℕ → Page → Prop) (W : ℕ → Prop) (m₀ : Mem) (l₀ : List ℕ) (r : ℕ) (T₀ : Tab) (a n : ℕ)
    (m : Mem) (l : List ℕ) (T : Tab) : Prop where
  start : Distinct ((l₀ : Multiset ℕ) + T₀.nodes)
  table : Table m l r T W
  bal : (l : Multiset ℕ) + T.nodes + bag (Finset.Ico a n) T.pa = l₀ + T₀.nodes
  keep : ∀ k p, T₀.node k = some p → T.node k = some p
  mapped : ∀ v, a ≤ v → v < n → ∃ w, T.leaf v = some w ∧ IsPage (pte2pa w) ∧ E v w (m.page (pte2pa w))
  rest : ∀ v, ¬ (a ≤ v ∧ v < n) → T.leaf v = T₀.leaf v
  frame : ∀ p, p ∉ (l₀ : Multiset ℕ) + T₀.nodes → m.page p = m₀.page p

variable {E : ℕ → ℕ → Page → Prop}

theorem Added.refl (h : Table m l r T W) (a : ℕ) : Added E W m l r T a a m l T where
  start := h.nodup
  table := h
  bal := by simp
  keep := fun _ _ => id
  mapped := fun v ha hv => absurd hv (Nat.not_lt.2 ha)
  rest := fun _ _ => rfl
  frame := fun _ _ => rfl

/-- The table `T` maps what `T₀` mapped, and all other pages but its page-table pages are free again. -/
def Restored (W : ℕ → Prop) (m₀ : Mem) (l₀ : List ℕ) (r : ℕ) (T₀ T : Tab) (m : Mem) : Prop :=
  ∃ l, Table m l r { T with leaf := T₀.leaf } W ∧ (l : Multiset ℕ) + T.nodes = l₀ + T₀.nodes ∧
    ∀ p, p ∉ (l₀ : Multiset ℕ) + T₀.nodes → m.page p = m₀.page p

omit [Image] in
theorem pa_update_lt {o : Option ℕ} (hleaf : T'.leaf = update T.leaf n o) :
    bag (Finset.Ico a n) T'.pa = bag (Finset.Ico a n) T.pa := by
  refine bag_congr fun v hv => ?_
  have hne : v ≠ n := (Finset.mem_Ico.1 hv).2.ne
  rw [Tab.pa, hleaf, update_of_ne hne, ← Tab.pa]

namespace Added

theorem notMem (h : Added E W m₀ l₀ r T₀ a n m l T) {v w : ℕ} (ha : a ≤ v) (hv : v < n)
    (hw : T.leaf v = some w) : pte2pa w ∉ (l : Multiset ℕ) + T.nodes := by
  have hnd : Distinct ((l : Multiset ℕ) + T.nodes + bag (Finset.Ico a n) T.pa) := h.bal ▸ h.start
  intro hin
  exact hnd.notMem hin (mem_bag.2 ⟨v, Finset.mem_Ico.2 ⟨ha, hv⟩, T.pa_of_leaf hw⟩)

theorem outside (h : Added E W m₀ l₀ r T₀ a n m l T) {p : ℕ} (hp : p ∉ (l₀ : Multiset ℕ) + T₀.nodes) :
    p ∉ (l : Multiset ℕ) + T.nodes := by
  rw [← h.bal] at hp
  exact fun hin => hp (Multiset.mem_add.2 (.inl hin))

theorem mem_free (h : Added E W m₀ l₀ r T₀ a n m l T) {v w : ℕ} (ha : a ≤ v) (hv : v < n)
    (hw : T.leaf v = some w) : pte2pa w ∈ l₀ := by
  have hin : pte2pa w ∈ (l₀ : Multiset ℕ) + T₀.nodes := by
    rw [← h.bal]
    exact Multiset.mem_add.2 (.inr (mem_bag.2 ⟨v, Finset.mem_Ico.2 ⟨ha, hv⟩, T.pa_of_leaf hw⟩))
  rcases Multiset.mem_add.1 hin with hin | hin
  · exact Multiset.mem_coe.1 hin
  · obtain ⟨k, -, hk⟩ := mem_bag.1 hin
    have hnode := h.table.tab.mem_nodes (h.keep k _ hk)
    exact absurd (Multiset.mem_add.2 (.inr hnode)) (h.notMem ha hv hw)

theorem inj (h : Added E W m₀ l₀ r T₀ a n m l T) {v v' w w' : ℕ} (ha : a ≤ v) (hv : v < n) (ha' : a ≤ v')
    (hv' : v' < n) (hw : T.leaf v = some w) (hw' : T.leaf v' = some w') (he : pte2pa w = pte2pa w') : v = v' := by
  have hnd : Distinct ((l : Multiset ℕ) + T.nodes + bag (Finset.Ico a n) T.pa) := h.bal ▸ h.start
  have hpa : T.pa v' = some (pte2pa w) := (T.pa_of_leaf hw').trans (congrArg some he.symm)
  exact inj_of_nodup hnd.right.nodup (Finset.mem_Ico.2 ⟨ha, hv⟩) (Finset.mem_Ico.2 ⟨ha', hv'⟩)
    (T.pa_of_leaf hw) hpa

/-- **One turn**: the page `q`, with the contents it has in `m₁`, is mapped at page `n`, or given back. -/
theorem turn (h : Added E W m₀ l₀ r T₀ a n m (q :: l) T) (hfree : FreeOk m₁ l)
    (hsame : ∀ p, p ≠ q → m₁.page p = m.page p) (han : a ≤ n) (hva : n * pgsize < maxva)
    (hnone : T₀.leaf n = none) (hperm : perm < 2 ^ 10) (hlt : pa2pte q ||| perm ||| pteV < 2 ^ 64)
    (hw : W (pa2pte q ||| perm ||| pteV)) (hE : E n (pa2pte q ||| perm ||| pteV) (m₁.page q)) :
    (T.missing (n * pgsize) ≤ l.length ∧ ∃ m' l' T',
        (∀ {α : Type} (A B : MemM α), mapOrFree r (n * pgsize) q perm A B m₁ = A m') ∧
        Added E W m₀ l₀ r T₀ a (n + 1) m' l' T') ∨
      (l.length < T.missing (n * pgsize) ∧ ∃ m' T',
        (∀ {α : Type} (A B : MemM α), mapOrFree r (n * pgsize) q perm A B m₁ = B m') ∧
        Added E W m₀ l₀ r T₀ a n m' [q] T' ∧ 0 < T'.missing (n * pgsize)) := by
  have hdiv : n * pgsize / pgsize = n := Nat.mul_div_cancel n (by decide)
  have hq := h.table.free.pages q List.mem_cons_self
  have hfresh : T.leaf (n * pgsize / pgsize) = none := by rw [hdiv, h.rest n (by omega), hnone]
  have hpq : pte2pa (pa2pte q ||| perm ||| pteV) = q := pte2pa_leafEntry hperm hq.1
  rcases h.table.mapFresh hfree hsame hva (Nat.mul_mod_left n pgsize) hfresh hlt hw with
    ⟨hroom, m', l', T', hrun, h', hbal, hframe, hkeep, -, hpage, hleaf⟩ |
    ⟨hroom, m', T', hrun, h', hg, -, hleaf, hbot⟩
  · rw [hdiv] at hleaf
    refine .inl ⟨hroom, m', l', T', hrun, ⟨h.start, h', ?_, fun k p hk => hkeep k p (h.keep k p hk), ?_, ?_, ?_⟩⟩
    · have hpa : T'.pa n = some q := by
        rw [Tab.pa, hleaf, update_self, Option.map_some, hpq]
      have hbag : bag (Finset.Ico a (n + 1)) T'.pa = q ::ₘ bag (Finset.Ico a n) T.pa := by
        rw [bag, Finset.sum_Ico_succ_top han, hpa, ← bag, pa_update_lt hleaf, add_comm]
        rfl
      rw [hbag, Multiset.add_cons, ← Multiset.cons_add, hbal, h.bal]
    · intro v hav hv
      by_cases hvn : v = n
      · subst hvn
        refine ⟨_, by rw [hleaf, update_self], ?_, ?_⟩
        · rw [hpq]
          exact hq
        · rw [hpq, hpage]
          exact hE
      · -- an older page is neither free nor a page-table page, so it is as it was
        obtain ⟨w, hwv, hwp, hwE⟩ := h.mapped v hav (by omega)
        refine ⟨w, by rw [hleaf, update_of_ne hvn, hwv], hwp, ?_⟩
        rw [hframe _ (h.notMem hav (by omega) hwv)]
        exact hwE
    · intro v hv
      rw [hleaf, update_of_ne (by omega)]
      exact h.rest v (by omega)
    · intro p hp
      rw [hframe p (h.outside hp), h.frame p hp]
  · refine .inr ⟨hroom, m', T', hrun, ⟨h.start, h', ?_, fun k p hk => hg.keep k p (h.keep k p hk), ?_, ?_, ?_⟩, ?_⟩
    · have hpa : T'.pa = T.pa := by
        funext v
        rw [Tab.pa, hleaf, ← Tab.pa]
      rw [hpa, hg.bal, h.bal]
    · intro v hav hv
      obtain ⟨w, hwv, hwp, hwE⟩ := h.mapped v hav hv
      refine ⟨w, by rw [hleaf, hwv], hwp, ?_⟩
      rw [hg.frame _ (h.notMem hav hv hwv)]
      exact hwE
    · rw [hleaf]
      exact h.rest
    · intro p hp
      rw [hg.frame p (h.outside hp), h.frame p hp]
    · have hle := way_length_le hbot
      rw [Tab.missing]
      omega

theorem undo {k : ℕ} (h : Added E W m₀ l₀ r T₀ a (a + (k + 1)) m l T) (hva : (a + k) * pgsize < maxva)
    (hleaf : ∀ v w d, E v w d → Has w pteV ∧ pteFlags w ≠ pteV)
    (hnone : ∀ v, a ≤ v → v < a + (k + 1) → T₀.leaf v = none) :
    Yields (unmapLoop r true k (a * pgsize)) m fun _ m' => Restored W m₀ l₀ r T₀ T m' := by
  refine Yields.mono (unmapLoop_run true k h.table hva ?_ fun _ => h.bal ▸ h.start) ?_
  · intro i hi
    obtain ⟨w, hw, hp, hE⟩ := h.mapped (a + i) (by omega) (by omega)
    have hflags := hleaf _ _ _ hE
    exact ⟨w, hw, hflags.1, hflags.2, fun _ => hp⟩
  · rintro - m' ⟨l', h', hl', hsame⟩
    have hclear : (T.clear a (a + (k + 1))).leaf = T₀.leaf := by
      funext v
      by_cases hv : a ≤ v ∧ v < a + (k + 1)
      · exact (if_pos hv).trans (hnone v hv.1 hv.2).symm
      · exact (if_neg hv).trans (h.rest v hv)
    refine ⟨l', hclear ▸ h', ?_, ?_⟩
    · rw [hl', if_pos rfl, ← h.bal]
      abel
    · intro p hp
      rw [hsame p ?_ ?_, h.frame p hp]
      · exact fun hin => h.outside hp (Multiset.mem_add.2 (.inr hin))
      · intro _ hin
        rw [← h.bal] at hp
        exact hp (Multiset.mem_add.2 (.inr hin))

end Added

end

end Xv6.Vm
