import Xv6.Vm.Alloc

/-!
# The page table of a process

* **`procPagetable_spec`**: a new page table. With three free pages it maps the trampoline and the
  trapframe.
* **`procFreepagetable_spec`**: a table that maps them is freed with its memory, unless its size is `0`:
  then its page-table pages are in no list any more. A table that does not map them cannot be freed.
* `MapsTo`: what `walk` finds; **`mapsTo_iff`**: it is what the table says.
* `walkaddr_eq`, **`uvmclear_spec`**, **`copyout_spec`**: access to the memory of a process.
-/

namespace Xv6.Vm

open Function Bytes Fail Bag

section

variable [Image] {m : Mem} {l : List ℕ} {r : ℕ} {T : Tab} {n : ℕ}

abbrev trampolinePte : ℕ := pa2pte Image.trampoline ||| (pteR ||| pteX) ||| pteV

abbrev trapframePte (tf : ℕ) : ℕ := pa2pte tf ||| (pteR ||| pteW) ||| pteV

def Tab.Top (T : Tab) : Prop := T.leaf (nuser + 1) ≠ none ∧ T.leaf nuser ≠ none

section

omit [Image]

theorem trampolineVa_eq : trampolineVa = (nuser + 1) * pgsize := by decide

theorem trapframeVa_eq : trapframeVa = nuser * pgsize := by decide

end

/-! ## `uvmfree` -/

theorem Space.unmapTop (h : Space m l r T n) {v w : ℕ} (hv : nuser ≤ v) (hw : T.leaf v = some w) :
    Yields (uvmunmap r (v * pgsize) pgsize false) m fun _ m' =>
      Space m' l r (T.setLeaf v none) n ∧ ∀ p, p ∉ T.nodes → m'.page p = m.page p := by
  have hle := (h.top v w hv hw).1
  have hmax : v * pgsize + pgsize ≤ maxva := by
    have hbound : (nuser + 1) * pgsize + pgsize ≤ maxva := by decide
    exact (Nat.add_le_add_right (Nat.mul_le_mul_right pgsize hle) pgsize).trans hbound
  have hlt : v * pgsize < maxva := (Nat.lt_add_of_pos_right (by decide)).trans_le hmax
  rw [uvmunmap_eq (by decide) hmax, show (pgsize - 1) / pgsize = 0 by decide, unmapLoop]
  refine Yields.mono (unmapPage_spec h.table hlt hw false (by simp)) ?_
  rintro - m' ⟨h', hsame⟩
  rw [if_neg (by simp)] at h'
  have huser : (T.setLeaf v none).user = T.user := by
    rw [Tab.user, Tab.pa_setLeaf]
    exact bag_update_of_notMem fun hm => absurd (mem_userPages.1 hm) (Nat.not_lt.2 hv)
  have hne : ∀ {x}, x < nuser → (T.setLeaf v none).leaf x = T.leaf x :=
    fun hx => Tab.leaf_setLeaf_of_ne (hx.trans_le hv).ne
  refine ⟨⟨h'.free, h'.tab, ?_, ?_, ?_, ?_⟩, fun p hp => hsame p hp (by simp)⟩
  · rw [Tab.nodes_setLeaf, huser]
    exact h.nodup
  · intro x hx
    rw [hne hx]
    exact h.mapped x hx
  · intro x w' hx hw'
    exact h.pages x w' hx ((hne hx).symm.trans hw')
  · intro x w' hx hw'
    by_cases hxv : x = v
    · rw [hxv, Tab.leaf_setLeaf_same] at hw'
      cases hw'
    · exact h.top x w' hx ((Tab.leaf_setLeaf_of_ne hxv).symm.trans hw')

theorem uvmfree_spec {sz : ℕ} (h : Space m l r T (npages sz)) (hs : 0 < sz)
    (htop : ∀ v, nuser ≤ v → T.leaf v = none) :
    Yields (uvmfree r sz) m fun _ m' => ∃ l', FreeOk m' l' ∧ (l' : Multiset ℕ) = l + T.nodes + T.user ∧
      ∀ p, p ∉ (l : Multiset ℕ) + T.nodes + T.user → m'.page p = m.page p := by
  refine Yields.bind (h.unmapAll hs) ?_
  rintro - m₁ ⟨l₁, h₁, hmv⟩
  have hleaf : ∀ v, (T.clear 0 (npages sz)).leaf v = none := by
    intro v
    by_cases hv : v < nuser
    · exact h₁.leaf_none v.zero_le hv
    · rw [hmv.top v (Nat.le_of_not_lt hv)]
      exact htop v (Nat.le_of_not_lt hv)
  have huser : (T.clear 0 (npages sz)).user = 0 := by
    refine bag_none fun v _ => ?_
    rw [Tab.pa, hleaf v]
    rfl
  have hbal := hmv.bal
  rw [huser, add_zero] at hbal
  refine Yields.mono (freewalk_spec h₁.table hleaf) ?_
  rintro - m' ⟨l', hfree, hl', hsame⟩
  refine ⟨l', hfree, hl'.trans hbal, fun p hp => ?_⟩
  rw [hsame p fun hm => hp ?_, hmv.frame p hp]
  exact hbal ▸ Multiset.mem_add.2 (.inr hm)

theorem Space.unmapTops (h : Space m l r T n) (htop : T.Top) {α : Type} (f : MemM α)
    {Q : α → Mem → Prop}
    (hf : ∀ m' T', Space m' l r T' n → T'.nodes = T.nodes → T'.user = T.user →
      (∀ v, nuser ≤ v → T'.leaf v = none) → (∀ p, p ∉ T.nodes → m'.page p = m.page p) → Yields f m' Q) :
    Yields (do
      uvmunmap r trampolineVa pgsize false
      uvmunmap r trapframeVa pgsize false
      f) m Q := by
  obtain ⟨w₁, hw₁⟩ := Option.ne_none_iff_exists'.1 htop.1
  obtain ⟨w₂, hw₂⟩ := Option.ne_none_iff_exists'.1 htop.2
  rw [trampolineVa_eq, trapframeVa_eq]
  refine Yields.bind (h.unmapTop (Nat.le_succ nuser) hw₁) ?_
  rintro - m₁ ⟨h₁, hsame₁⟩
  have hw₂' : (T.setLeaf (nuser + 1) none).leaf nuser = some w₂ :=
    (Tab.leaf_setLeaf_of_ne (Nat.ne_of_lt (Nat.lt_succ_self nuser))).trans hw₂
  refine Yields.bind (h₁.unmapTop le_rfl hw₂') ?_
  rintro - m₂ ⟨h₂, hsame₂⟩
  have huser : ((T.setLeaf (nuser + 1) none).setLeaf nuser none).user = T.user := by
    rw [Tab.user, Tab.pa_setLeaf, Tab.pa_setLeaf]
    rw [bag_update_of_notMem fun hm => absurd (mem_userPages.1 hm) (lt_irrefl nuser)]
    exact bag_update_of_notMem fun hm => absurd (mem_userPages.1 hm) (Nat.not_lt.2 (Nat.le_succ nuser))
  refine hf m₂ _ h₂ rfl huser ?_ fun p hp => (hsame₂ p hp).trans (hsame₁ p hp)
  intro v hv
  by_contra hne
  obtain ⟨w, hw⟩ := Option.ne_none_iff_exists'.1 hne
  have hle := (h₂.top v w hv hw).1
  by_cases h0 : v = nuser
  · subst h0
    exact hne (Tab.leaf_setLeaf_same ..)
  · have h1 : v = nuser + 1 := by omega
    subst h1
    refine hne ((Tab.leaf_setLeaf_of_ne h0).trans (Tab.leaf_setLeaf_same ..))

/-- **`proc_freepagetable`**: unless the size is `0`, all pages of the address space are freed. -/
theorem procFreepagetable_spec {sz : ℕ} (h : Space m l r T n) (hn : sz ≠ 0 → n = npages sz) (htop : T.Top) :
    Yields (procFreepagetable r sz) m fun _ m' => ∃ l', FreeOk m' l' ∧
      (l' : Multiset ℕ) = (if sz = 0 then (l : Multiset ℕ) else l + T.nodes + T.user) ∧
      ∀ p, p ∉ (l : Multiset ℕ) + T.nodes + T.user → m'.page p = m.page p := by
  refine h.unmapTops htop _ ?_
  intro m₁ T₁ h₁ hnodes huser hnone hsame
  have hsame' : ∀ p, p ∉ (l : Multiset ℕ) + T.nodes + T.user → m₁.page p = m.page p :=
    fun p hp => hsame p fun hm => hp (by simp [hm])
  by_cases hs : sz = 0
  · subst hs
    rw [if_neg (lt_irrefl 0), if_pos rfl]
    exact Yields.pure ⟨l, h₁.free, rfl, hsame'⟩
  · rw [if_pos (Nat.pos_of_ne_zero hs), if_neg hs]
    rw [hn hs] at h₁
    refine Yields.mono (uvmfree_spec h₁ (Nat.pos_of_ne_zero hs) hnone) ?_
    rintro - m' ⟨l', hfree, hl', hsame₂⟩
    rw [hnodes, huser] at hl' hsame₂
    exact ⟨l', hfree, hl', fun p hp => (hsame₂ p hp).trans (hsame' p hp)⟩

theorem uvmunmap_error (h : TabOk m r T) {v : ℕ} (hv : v * pgsize + pgsize ≤ maxva)
    (hnone : T.leaf v = none) : ∃ e, uvmunmap r (v * pgsize) pgsize false m = .error e := by
  rw [uvmunmap_eq (by decide) hv]
  exact unmapLoop_error h ((Nat.lt_add_of_pos_right (by decide)).trans_le hv) hnone false _

/-- **`proc_freepagetable` returns only for a table that maps the trampoline and the trapframe.** -/
theorem top_of_procFreepagetable {sz : ℕ} (h : Space m l r T n) {m' : Mem}
    (hrun : procFreepagetable r sz m = .ok ((), m')) : T.Top := by
  obtain ⟨_, m₁, h₁, hrun⟩ := bind_eq_ok hrun
  obtain ⟨_, m₂, h₂, -⟩ := bind_eq_ok hrun
  rw [trampolineVa_eq] at h₁
  rw [trapframeVa_eq] at h₂
  have htramp : T.leaf (nuser + 1) ≠ none := by
    intro hnone
    obtain ⟨e, he⟩ := uvmunmap_error h.tab (v := nuser + 1) (by decide) hnone
    rw [he] at h₁
    cases h₁
  refine ⟨htramp, fun hnone => ?_⟩
  obtain ⟨w, hw⟩ := Option.ne_none_iff_exists'.1 htramp
  obtain ⟨_, m₁', hrun', hs, -⟩ := h.unmapTop (Nat.le_succ nuser) hw
  rw [h₁] at hrun'
  cases hrun'
  obtain ⟨e, he⟩ := uvmunmap_error hs.tab (v := nuser) (by decide)
    ((Tab.leaf_setLeaf_of_ne (Nat.ne_of_lt (Nat.lt_succ_self nuser))).trans hnone)
  rw [he] at h₂
  cases h₂

/-! ## `proc_pagetable` -/

def Tab.rootOnly (q : ℕ) : Tab := Tab.put ⟨fun _ => none, fun _ => none⟩ .root (some q)

section

omit [Image]

theorem nodes_rootOnly (q : ℕ) : (Tab.rootOnly q).nodes = {q} := by
  rw [Tab.nodes, Tab.rootOnly, Tab.put, bag_put root_mem rfl, bag_none fun _ _ => rfl]
  rfl

theorem root_rootOnly (q : ℕ) : (Tab.rootOnly q).node .root = some q := Tab.node_put_same ..

theorem node_rootOnly_of_ne {q : ℕ} {p : Node} (hp : p ≠ .root) : (Tab.rootOnly q).node p = none :=
  Tab.node_put_of_ne hp

end

theorem tabOk_rootOnly {q : ℕ} (hq : IsPage q) (hz : m.page q = fun _ => 0) :
    TabOk m q (Tab.rootOnly q) := by
  have hroot : ∀ p a, (Tab.rootOnly q).node p = some a → p = .root ∧ a = q := by
    intro p a hp
    by_cases hr : p = .root
    · rw [hr, root_rootOnly] at hp
      exact ⟨hr, (Option.some.inj hp).symm⟩
    · rw [node_rootOnly_of_ne hr] at hp
      cases hp
  have hmid : ∀ i, (Tab.rootOnly q).node (.mid i) = none := fun i => node_rootOnly_of_ne (by simp)
  have hbot : ∀ x, (Tab.rootOnly q).node (.bot x) = none := fun x => node_rootOnly_of_ne (by simp)
  refine ⟨root_rootOnly q, ?_, ?_, ?_, nofun, nofun, ?_⟩
  · intro p a hp i _
    obtain ⟨rfl, rfl⟩ := hroot p a hp
    rw [hz, pte_zero, Tab.entry, hmid]
    rfl
  · intro i hi
    exact absurd (hmid i) hi
  · intro x hx
    exact absurd (hbot x) hx
  · intro p a hp
    rw [(hroot p a hp).2]
    exact hq

theorem uvmcreate_spec {q : ℕ} (hf : FreeOk m (q :: l)) (hl : Distinct ((q :: l : List ℕ) : Multiset ℕ)) :
    Yields uvmcreate m fun r m' => r = q ∧ Table m' l q (Tab.rootOnly q) ∧
      ∀ p, p ≠ q → m'.page p = m.page p := by
  have hq := hf.pages q List.mem_cons_self
  have hnd : (q :: l).Nodup := hl.nodup
  obtain ⟨m₁, hk, hfree, hsame⟩ := kalloc_cons hf hnd
  rw [uvmcreate, Yields, bind_ok hk, if_neg hq.ne_zero, memset_bind]
  refine Yields.pure ⟨rfl, ⟨?_, ?_, ?_⟩, ?_⟩
  · refine hfree.frame rfl fun p hp => page_setPage_of_ne ?_
    rintro rfl
    exact (List.nodup_cons.1 hnd).1 hp
  · refine tabOk_rootOnly hq ?_
    rw [Mem.fill, page_setPage_same]
  · rw [nodes_rootOnly, add_comm, Multiset.singleton_add, Multiset.cons_coe]
    exact hl
  · intro p hp
    rw [Mem.fill, page_setPage_of_ne hp, hsame p hp]

section

omit [Image]

theorem off_top {p : Node} : (p.Off trampolineVa ↔ p ≠ .mid 255 ∧ p ≠ .bot 131071) ∧
    (p.Off trapframeVa ↔ p ≠ .mid 255 ∧ p ≠ .bot 131071) := by
  have h₁ : trampolineVa / 2 ^ 30 = 255 ∧ trampolineVa / 2 ^ 21 = 131071 := by decide
  have h₂ : trapframeVa / 2 ^ 30 = 255 ∧ trapframeVa / 2 ^ 21 = 131071 := by decide
  rw [Node.Off, Node.Off, h₁.1, h₁.2, h₂.1, h₂.2]
  exact ⟨Iff.rfl, Iff.rfl⟩

theorem mem_usedPlaces_zero {p : Node} :
    p ∈ usedPlaces 0 ↔ p = .root ∨ p = .mid 255 ∨ p = .bot 131071 := by
  rw [mem_usedPlaces]
  refine or_congr_right (or_congr_right (or_iff_left ?_))
  rintro (⟨-, h⟩ | ⟨x, -, hx⟩)
  · exact lt_irrefl 0 h
  · omega

end

theorem Built.zero {q : ℕ} (ht : TabOk m r T)
    (hoff : ∀ p, p ≠ .mid 255 → p ≠ .bot 131071 → T.node p = (Tab.rootOnly q).node p)
    (hbot : T.node (.bot 131071) ≠ none) : Built T 0 := by
  have hmid : T.node (.mid 255) ≠ none := ht.bot_up _ hbot
  intro p
  rw [mem_usedPlaces_zero]
  by_cases h0 : p = .mid 255
  · subst h0
    simp [hmid]
  · by_cases h1 : p = .bot 131071
    · subst h1
      simp [hbot]
    · rw [hoff p h0 h1]
      by_cases hr : p = .root
      · subst hr
        simp [root_rootOnly]
      · simp [node_rootOnly_of_ne hr, hr, h0, h1]

theorem Table.space {l' : List ℕ} {m' : Mem} {T' : Tab} (h : Table m' l' r T')
    (hnone : ∀ v < nuser, T'.leaf v = none)
    (htop : ∀ v w, nuser ≤ v → T'.leaf v = some w → v ≤ nuser + 1 ∧ ¬ Has w pteU) :
    Space m' l' r T' 0 := by
  have huser : T'.user = 0 := by
    refine bag_none fun v hv => ?_
    rw [Tab.pa, hnone v (mem_userPages.1 hv)]
    rfl
  refine ⟨h.free, h.tab, ?_, ?_, ?_, htop⟩
  · rw [huser, add_zero]
    exact h.nodup
  · intro v hv
    simp [hnone v hv]
  · intro v w hv hw
    rw [hnone v hv] at hw
    cases hw

omit [Image] in
theorem not_user {pa perm : ℕ} (hperm : perm < 2 ^ 10) (hu : ¬ Has perm pteU) :
    ¬ Has (pa2pte pa ||| perm ||| pteV) pteU := by
  intro h
  rcases (has_leafEntry (k := 4) (by omega) hperm).1 h with h | h
  · exact hu h
  · cases h

theorem procPagetable_spec {tf : ℕ} (hf : FreeOk m l) (hl : Distinct (l : Multiset ℕ)) (hne : l ≠ [])
    (htf : tf < 2 ^ 56) :
    Yields (procPagetable tf) m fun r m' => ∃ l' T', Space m' l' r T' 0 ∧
      (l' : Multiset ℕ) + T'.nodes = l ∧ (∀ p, p ∉ l → m'.page p = m.page p) ∧
      (3 ≤ l.length ∧ T'.leaf (nuser + 1) = some trampolinePte ∧
          T'.leaf nuser = some (trapframePte tf) ∧ Built T' 0 ∨
        l.length < 3 ∧ T'.leaf (nuser + 1) = none) := by
  obtain ⟨q, l₀, rfl⟩ := List.exists_cons_of_ne_nil hne
  have hp₁ : Perm (pteR ||| pteX) := ⟨by decide, .inl (by decide)⟩
  have hp₂ : Perm (pteR ||| pteW) := ⟨by decide, .inl (by decide)⟩
  have hdiv₁ : trampolineVa / pgsize = nuser + 1 := by decide
  have hdiv₂ : trapframeVa / pgsize = nuser := by decide
  have hbot₁ : trampolineVa / 2 ^ 21 = 131071 := by decide
  have hbot₂ : trapframeVa / 2 ^ 21 = 131071 := by decide
  have htramp : Image.trampoline < 2 ^ 56 := by
    have h₁ := Image.trampoline_lt
    have h₂ := Image.kend_le
    simp only [phystop] at h₂
    omega
  refine Yields.bind (uvmcreate_spec hf hl) ?_
  rintro r₀ m₀ ⟨rfl, h₀, hsame₀⟩
  refine Yields.bind (mappage_spec h₀ (by decide) (by decide) rfl hp₁ htramp) ?_
  rintro ok₁ m₁ ⟨l₁, T₁, h₁, hg₁, hoff₁, hres₁⟩
  rw [hdiv₁, hbot₁] at hres₁
  have hnone₁ : T₁.leaf nuser = none := by
    rcases hres₁ with ⟨-, hleaf⟩ | ⟨-, hleaf, -⟩
    · rw [hleaf, update_of_ne (Nat.ne_of_lt (Nat.lt_succ_self nuser))]
      rfl
    · rw [hleaf]
      rfl
  refine Yields.bind (mappage_spec h₁ (by decide) (by decide) (hdiv₂.symm ▸ hnone₁) hp₂ htf) ?_
  rintro ok₂ m₂ ⟨l₂, T₂, h₂, hg₂, hoff₂, hres₂⟩
  rw [hdiv₂, hbot₂] at hres₂
  have hg := hg₁.trans hg₂
  have hbal : (l₂ : Multiset ℕ) + T₂.nodes = (r₀ :: l₀ : List ℕ) := by
    rw [hg.bal, nodes_rootOnly, add_comm, Multiset.singleton_add, Multiset.cons_coe]
  have hframe : ∀ p, p ∉ r₀ :: l₀ → m₂.page p = m.page p := by
    intro p hp
    have hpr : p ≠ r₀ := fun he => hp (he ▸ List.mem_cons_self)
    rw [hg.frame p, hsame₀ p hpr]
    rw [← hg.bal, hbal]
    exact hp
  have hoff : ∀ p, p ≠ .mid 255 → p ≠ .bot 131071 → T₂.node p = (Tab.rootOnly r₀).node p :=
    fun p h0 h1 => (hoff₂ p (off_top.2.2 ⟨h0, h1⟩)).trans (hoff₁ p (off_top.1.2 ⟨h0, h1⟩))
  have hoff' : ∀ p, p ≠ .mid 255 → p ≠ .bot 131071 → T₁.node p = (Tab.rootOnly r₀).node p :=
    fun p h0 h1 => hoff₁ p (off_top.1.2 ⟨h0, h1⟩)
  have hspace : Space m₂ l₂ r₀ T₂ 0 := by
    refine h₂.space ?_ ?_
    · intro v hv
      have h1 : v ≠ nuser + 1 := Nat.ne_of_lt (hv.trans (Nat.lt_succ_self nuser))
      have hT₁ : T₁.leaf v = none := by
        rcases hres₁ with ⟨-, hleaf⟩ | ⟨-, hleaf, -⟩
        · rw [hleaf, update_of_ne h1]
          rfl
        · rw [hleaf]
          rfl
      rcases hres₂ with ⟨-, hleaf⟩ | ⟨-, hleaf, -⟩
      · rw [hleaf, update_of_ne hv.ne, hT₁]
      · rw [hleaf, hT₁]
    · intro v w hv hw
      have hfix : w = trapframePte tf ∧ v = nuser ∨ T₁.leaf v = some w := by
        rcases hres₂ with ⟨-, hleaf⟩ | ⟨-, hleaf, -⟩
        · rw [hleaf] at hw
          by_cases h0 : v = nuser
          · rw [h0, update_self] at hw
            exact .inl ⟨(Option.some.inj hw).symm, h0⟩
          · rw [update_of_ne h0] at hw
            exact .inr hw
        · rw [hleaf] at hw
          exact .inr hw
      rcases hfix with ⟨rfl, rfl⟩ | hw₁
      · exact ⟨Nat.le_succ _, not_user (by decide) (by decide)⟩
      · rcases hres₁ with ⟨-, hleaf⟩ | ⟨-, hleaf, -⟩
        · rw [hleaf] at hw₁
          by_cases h1 : v = nuser + 1
          · rw [h1, update_self] at hw₁
            cases hw₁
            exact ⟨h1.le, not_user (by decide) (by decide)⟩
          · rw [update_of_ne h1] at hw₁
            cases hw₁
        · rw [hleaf] at hw₁
          cases hw₁
  refine Yields.pure ⟨l₂, T₂, hspace, hbal, hframe, ?_⟩
  rcases hres₁ with ⟨-, hleaf₁⟩ | ⟨-, hleaf₁, rfl, hbot, -⟩
  · -- there is a leaf table, so the trapframe finds it
    have hbot : T₁.node (.bot 131071) ≠ none := by
      refine h₁.tab.leaf_up (nuser + 1) ?_
      rw [hleaf₁, update_self]
      exact Option.some_ne_none _
    rcases hres₂ with ⟨-, hleaf₂⟩ | ⟨-, -, -, -, hbot'⟩
    · have hself : T₂.leaf nuser = some (trapframePte tf) := by
        rw [hleaf₂, update_self]
      have hb : Built T₂ 0 := by
        refine Built.zero h₂.tab hoff (h₂.tab.leaf_up nuser ?_)
        rw [hself]
        exact Option.some_ne_none _
      refine .inl ⟨?_, ?_, hself, hb⟩
      · have hcard := congrArg Multiset.card hbal
        rw [Multiset.card_add, h₂.tab.card_built hb (Nat.zero_le _), Multiset.coe_card] at hcard
        simp only [tables, Multiset.coe_card] at hcard
        omega
      · rw [hleaf₂, update_of_ne (Nat.ne_of_gt (Nat.lt_succ_self nuser)), hleaf₁,
          update_self]
    · exact absurd hbot' hbot
  · refine .inr ⟨?_, ?_⟩
    · have hlt : T₁.nodes.card < tables 0 := by
        refine h₁.tab.card_lt ?_ (Nat.zero_le _) (mem_usedPlaces_zero.2 (.inr (.inr rfl))) hbot
        intro p hp
        rw [mem_usedPlaces_zero]
        by_contra hno
        simp only [not_or] at hno
        exact hp ((hoff' p hno.2.1 hno.2.2).trans (node_rootOnly_of_ne hno.1))
      have hcard := congrArg Multiset.card hg₁.bal
      rw [nodes_rootOnly] at hcard
      simp only [Multiset.card_add, Multiset.coe_card, List.length_nil, Multiset.card_singleton] at hcard
      simp only [tables] at hlt
      simp only [List.length_cons]
      omega
    · have hT₁ : T₁.leaf (nuser + 1) = none := by
        rw [hleaf₁]
        rfl
      rcases hres₂ with ⟨-, hleaf⟩ | ⟨-, hleaf, -⟩
      · rw [hleaf, update_of_ne (Nat.ne_of_gt (Nat.lt_succ_self nuser)), hT₁]
      · rw [hleaf, hT₁]

/-! ## Access to user memory -/

def Tab.addr (T : Tab) (va : ℕ) : ℕ :=
  if va < maxva then
    match T.leaf (va / pgsize) with
    | some w => if Has w pteU then pte2pa w else 0
    | none => 0
  else 0

theorem walkaddr_valid {W : ℕ → Prop} (h : TabOk m r T W) (hW : ∀ w, W w → Has w pteV) (va : ℕ) :
    walkaddr r va m = .ok (T.addr va, m) := by
  rw [walkaddr, Tab.addr]
  by_cases hva : va < maxva
  · rw [if_neg (Nat.not_le.2 hva), if_pos hva]
    cases hleaf : T.leaf (va / pgsize) with
    | none =>
      rw [bind_ok (walk_read h false nofun hva)]
      cases hbot : T.node (.bot (va / 2 ^ 21)) with
      | none => rfl
      | some q =>
        have hword := word_leaf h hbot
        rw [hleaf] at hword
        rw [Option.map_some, Option.getD_some, if_neg (slot_ne_zero (h.pages _ _ hbot) _), readWord_bind,
          hword]
        rfl
    | some w =>
      obtain ⟨q, -, hqp, hwalk, hword⟩ := walk_mapped h hva hleaf
      rw [bind_ok hwalk, if_neg (slot_ne_zero hqp _), readWord_bind, hword,
        if_neg (not_not.2 (hW w (h.word _ w hleaf)))]
      by_cases hu : Has w pteU
      · rw [if_neg (not_not.2 hu)]
        simp only [if_pos hu]
        rfl
      · rw [if_pos hu]
        simp only [if_neg hu]
        rfl
  · rw [if_pos (Nat.le_of_not_lt hva), if_neg hva]
    rfl

theorem walkaddr_eq (h : TabOk m r T) (va : ℕ) : walkaddr r va m = .ok (T.addr va, m) :=
  walkaddr_valid h (fun _ hw => hw.1) va

/-- **The table at `r` maps `va` to the page `a`**: `walk` finds a valid PTE. -/
def MapsTo (m : Mem) (r va a : ℕ) : Prop :=
  ∃ pte, walk r va false m = .ok (pte, m) ∧ pte ≠ 0 ∧ Has (m.word pte) pteV ∧ pte2pa (m.word pte) = a

theorem mapsTo_iff (h : TabOk m r T) {va : ℕ} (hva : va < maxva) {a : ℕ} :
    MapsTo m r va a ↔ T.pa (va / pgsize) = some a := by
  constructor
  · rintro ⟨pte, hwalk, hne, hv, rfl⟩
    rw [walk_read h false nofun hva] at hwalk
    cases hbot : T.node (.bot (va / 2 ^ 21)) with
    | none =>
      rw [hbot] at hwalk
      cases hwalk
      exact absurd rfl hne
    | some q =>
      rw [hbot] at hwalk
      cases hwalk
      have hword := word_leaf h hbot
      change m.word (slot q (px 0 va)) = _ at hword
      cases hleaf : T.leaf (va / pgsize) with
      | none =>
        rw [hleaf] at hword
        change Has (m.word (slot q (px 0 va))) pteV at hv
        rw [hword] at hv
        exact absurd hv (not_has_zero _)
      | some w =>
        rw [hleaf] at hword
        change _ = some (pte2pa (m.word (slot q (px 0 va))))
        rw [hword, Tab.pa_of_leaf hleaf]
        rfl
  · intro ha
    obtain ⟨w, hleaf, rfl⟩ := Option.map_eq_some_iff.1 ha
    obtain ⟨q, -, hq, hwalk, hword⟩ := walk_mapped h hva hleaf
    refine ⟨_, hwalk, slot_ne_zero hq _, ?_, ?_⟩
    · rw [hword]
      exact (h.word _ w hleaf).1
    · rw [hword]

theorem Space.addr (h : Space m l r T n) {va : ℕ} (hne : T.addr va ≠ 0) :
    va / pgsize < n ∧ T.pa (va / pgsize) = some (T.addr va) ∧ IsPage (T.addr va) ∧ T.addr va ∈ T.user := by
  rw [Tab.addr] at hne ⊢
  split_ifs at hne ⊢ with hva
  · cases hleaf : T.leaf (va / pgsize) with
    | none => simp [hleaf] at hne
    | some w =>
      simp only [hleaf] at hne ⊢
      split_ifs at hne ⊢ with hu
      · have hlt : va / pgsize < nuser := by
          by_contra hge
          exact (h.top _ w (Nat.le_of_not_lt hge) hleaf).2 hu
        refine ⟨(h.mapped _ hlt).1 (by simp [hleaf]), Tab.pa_of_leaf hleaf, h.pages _ w hlt hleaf, ?_⟩
        exact Tab.page_mem hlt hleaf
      · exact absurd rfl hne
  · exact absurd rfl hne

theorem Space.addr_of_leaf (h : Space m l r T n) {v w va : ℕ} (hv : v < n) (hw : T.leaf v = some w)
    (hu : Has w pteU) (hva : va / pgsize = v) : T.addr va = pte2pa w := by
  have hmax : va < maxva := by
    have hle := h.le
    simp only [pgsize, maxva] at *
    omega
  rw [Tab.addr, if_pos hmax, hva, hw]
  exact if_pos hu

theorem Space.frame {m' : Mem} (h : Space m l r T n) (hf : m'.freelist = m.freelist)
    (hsame : ∀ p, p ∉ T.user → m'.page p = m.page p) : Space m' l r T n where
  free := h.free.frame hf fun p hp => hsame p (h.nodup.notMem (by simp [hp]))
  tab := h.tab.frame fun p hp => hsame p (h.nodup.notMem (by simp [hp]))
  nodup := h.nodup
  mapped := h.mapped
  pages := h.pages
  top := h.top

section

omit [Image]

theorem pgRoundDown_add {p a : ℕ} (hp : p % pgsize = 0) (ha : a < pgsize) : pgRoundDown (p + a) = p := by
  simp only [pgRoundDown, pgsize] at *
  omega

theorem write_page {a : ℕ} (src : List UInt8) {p : ℕ} (hp : p % pgsize = 0) (ho : a < pgsize) {q : ℕ}
    (hq : q ≠ p) : (m.write (p + a) src).page q = m.page q := by
  rw [Mem.write, pgRoundDown_add hp ho]
  exact page_setPage_of_ne hq

end

theorem copyout_spec (h : Space m l r T n) (dstva : ℕ) (src : List UInt8) :
    Yields (copyout r dstva src) m fun _ m' => m'.freelist = m.freelist ∧
      ∀ p, p ∉ T.user → m'.page p = m.page p := by
  -- each turn copies at least one byte
  induction hlen : src.length using Nat.strong_induction_on generalizing m dstva src with
  | _ len ih =>
    rw [copyout]
    by_cases hsrc : src = []
    · rw [dif_pos hsrc]
      exact Yields.pure ⟨rfl, fun _ _ => rfl⟩
    · rw [dif_neg hsrc, Yields, bind_ok (walkaddr_eq h.tab _)]
      by_cases hpa : T.addr (pgRoundDown dstva) = 0
      · rw [if_pos hpa]
        exact Yields.pure ⟨rfl, fun _ _ => rfl⟩
      · rw [if_neg hpa]
        obtain ⟨-, -, hpage, hmem⟩ := h.addr hpa
        have hoff : dstva - pgRoundDown dstva < pgsize := by
          simp only [pgRoundDown, pgsize]
          omega
        set m₁ := m.write (T.addr (pgRoundDown dstva) + (dstva - pgRoundDown dstva))
          (src.take (pgsize - (dstva - pgRoundDown dstva)))
        have hsame : ∀ p, p ∉ T.user → m₁.page p = m.page p := by
          intro p hp
          refine write_page _ hpage.1 hoff ?_
          rintro rfl
          exact hp hmem
        have h₁ : Space m₁ l r T n := h.frame rfl hsame
        have hdrop : (src.drop (pgsize - (dstva - pgRoundDown dstva))).length < len := by
          have hpos := List.length_pos_iff.2 hsrc
          rw [List.length_drop]
          omega
        refine Yields.mono (ih _ hdrop h₁ _ _ rfl) ?_
        rintro - m' ⟨hf, hsame'⟩
        exact ⟨hf, fun p hp => (hsame' p hp).trans (hsame p hp)⟩

omit [Image] in
theorem clearU_eq {w : ℕ} (h : LeafPte w) : LeafPte (w - w / pteU % 2 * pteU) ∧
    pte2pa (w - w / pteU % 2 * pteU) = pte2pa w := by
  have h₁ := h.1
  have h₂ := h.2.1
  have h₃ := h.2.2
  simp only [LeafPte, Has, pteV, pteR, pteW, pteX, pteU, pte2pa] at *
  omega

theorem uvmclear_spec (h : Space m l r T n) {v : ℕ} (hv : v < n) :
    Yields (uvmclear r (v * pgsize)) m fun _ m' => ∃ T', Space m' l r T' n ∧ T'.nodes = T.nodes ∧
      T'.user = T.user ∧ (∀ x, x ≠ v → T'.leaf x = T.leaf x) ∧ T'.pa = T.pa ∧
      (∀ w, T'.leaf v = some w → ¬ Has w pteU) ∧ ∀ p, p ∉ T.nodes → m'.page p = m.page p := by
  obtain ⟨w, hw, -⟩ := h.leaf hv
  have hvu := hv.trans_le h.le_nuser
  have hdiv : v * pgsize / pgsize = v := Nat.mul_div_cancel v (by decide)
  have hva : v * pgsize < maxva := by
    have hle := h.le
    simp only [pgsize, maxva]
    omega
  obtain ⟨q, hq, hqp, hwalk, hword⟩ := walk_mapped h.tab hva (hdiv.symm ▸ hw)
  have hclear := clearU_eq (h.tab.word v w hw)
  set w' := w - w / pteU % 2 * pteU
  have hset := h.table.setPte hq (o := some w') fun x hx => by
    cases hx
    exact hclear.1
  rw [hdiv] at hset
  rw [uvmclear, Yields, bind_ok hwalk, if_neg (slot_ne_zero hqp _), readWord_bind, hword]
  have hne : ∀ {x}, x ≠ v → (T.setLeaf v (some w')).leaf x = T.leaf x := Tab.leaf_setLeaf_of_ne
  have hpa : (T.setLeaf v (some w')).pa = T.pa := by
    rw [Tab.pa_setLeaf, Option.map_some, hclear.2, ← Tab.pa_of_leaf hw]
    exact update_eq_self v T.pa
  have huser : (T.setLeaf v (some w')).user = T.user := by rw [Tab.user, hpa]; rfl
  refine ⟨(), _, rfl, T.setLeaf v (some w'), ⟨hset.1.free, hset.1.tab, ?_, ?_, ?_, ?_⟩, rfl, huser,
    fun x hx => hne hx, hpa, fun w₁ hw₁ => ?_, hset.2⟩
  · rw [huser]
    exact h.nodup
  · intro x hx
    by_cases hxv : x = v
    · subst hxv
      simp [hv]
    · rw [hne hxv]
      exact h.mapped x hx
  · intro x w₁ hx hw₁
    have hpx : T.pa x = some (pte2pa w₁) := by rw [← hpa, Tab.pa_of_leaf hw₁]
    obtain ⟨w₂, hw₂, he⟩ := Option.map_eq_some_iff.1 hpx
    rw [← he]
    exact h.pages x w₂ hx hw₂
  · intro x w₁ hx hw₁
    exact h.top x w₁ hx ((hne (hvu.trans_le hx).ne').symm.trans hw₁)
  · have he : w' = w₁ := Option.some.inj ((Tab.leaf_setLeaf_same ..).symm.trans hw₁)
    rw [← he]
    simp only [w', Has, pteU]
    omega

end

end Xv6.Vm
