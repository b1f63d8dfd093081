import Xv6.Vm.Extend

/-!
# Growing an address space

* `usedPlaces`, `Built`: the page-table pages an address space of `n` user pages needs, and a table that
  has just these; `cost`: how many pages it takes in all.
* `Space.mapNew`: a page from the free list is mapped after the last page.
* **`uvmalloc_spec`**: the new pages are zero, and a failure takes everything back; it fails only when the
  free pages are fewer than the cost.
-/

namespace Xv6.Vm

open Function Bytes Fail Bag

/-! ## The size of a table -/

/-- The places of the page-table pages for `n` user pages, the trampoline and the trapframe. -/
def usedPlaces (n : ℕ) : Finset Node :=
  {.root, .mid 255, .bot 131071} ∪
    ((Finset.range (min n 1)).image .mid ∪ (Finset.range ((n + 511) / 512)).image .bot)

def tables (n : ℕ) : ℕ := 3 + min n 1 + (n + 511) / 512

/-- **The pages that `n` user pages take**, page-table pages included. -/
def cost (n : ℕ) : ℕ := tables n + n

theorem cost_le_cost {n k : ℕ} (h : n ≤ k) : cost n ≤ cost k := by
  simp only [cost, tables]
  omega

theorem mem_usedPlaces {n : ℕ} {p : Node} : p ∈ usedPlaces n ↔
    p = .root ∨ p = .mid 255 ∨ p = .bot 131071 ∨ (p = .mid 0 ∧ 0 < n) ∨
      ∃ x, p = .bot x ∧ x < (n + 511) / 512 := by
  simp only [usedPlaces, Finset.mem_union, Finset.mem_insert, Finset.mem_singleton, Finset.mem_image,
    Finset.mem_range, or_assoc]
  refine or_congr_right (or_congr_right (or_congr_right (or_congr ?_ ?_)))
  · constructor
    · rintro ⟨i, hi, rfl⟩
      have h0 : i = 0 := by omega
      exact ⟨congrArg Node.mid h0, by omega⟩
    · rintro ⟨rfl, hn⟩
      exact ⟨0, by omega, rfl⟩
  · constructor
    · rintro ⟨x, hx, rfl⟩
      exact ⟨x, rfl, hx⟩
    · rintro ⟨x, rfl, hx⟩
      exact ⟨x, hx, rfl⟩

theorem card_usedPlaces {n : ℕ} (h : n ≤ 2 ^ 15) : (usedPlaces n).card = tables n := by
  have hinner : Disjoint ((Finset.range (min n 1)).image Node.mid)
      ((Finset.range ((n + 511) / 512)).image Node.bot) := by
    rw [Finset.disjoint_left]
    intro p hp hp'
    obtain ⟨i, -, rfl⟩ := Finset.mem_image.1 hp
    obtain ⟨x, -, hx⟩ := Finset.mem_image.1 hp'
    cases hx
  have houter : Disjoint ({.root, .mid 255, .bot 131071} : Finset Node)
      ((Finset.range (min n 1)).image Node.mid ∪ (Finset.range ((n + 511) / 512)).image Node.bot) := by
    rw [Finset.disjoint_left]
    intro p hp hp'
    simp only [Finset.mem_insert, Finset.mem_singleton] at hp
    rcases Finset.mem_union.1 hp' with hp' | hp'
    · obtain ⟨i, hi, rfl⟩ := Finset.mem_image.1 hp'
      have hi := Finset.mem_range.1 hi
      simp only [reduceCtorEq, Node.mid.injEq, false_or, or_false] at hp
      omega
    · obtain ⟨x, hx, rfl⟩ := Finset.mem_image.1 hp'
      have hx := Finset.mem_range.1 hx
      simp only [reduceCtorEq, Node.bot.injEq, false_or] at hp
      omega
  rw [usedPlaces, Finset.card_union_of_disjoint houter, Finset.card_union_of_disjoint hinner,
    Finset.card_image_of_injective _ fun _ _ => Node.mid.inj,
    Finset.card_image_of_injective _ fun _ _ => Node.bot.inj, Finset.card_range, Finset.card_range,
    tables, ← add_assoc]
  rfl

/-- **A table with just the pages that `n` user pages need.** -/
def Built (T : Tab) (n : ℕ) : Prop := ∀ p, T.node p ≠ none ↔ p ∈ usedPlaces n

section

variable [Image] {m : Mem} {l : List ℕ} {r : ℕ} {T T' : Tab} {n : ℕ}

theorem TabOk.card_nodes (h : TabOk m r T) {s : Finset Node} (hs : ∀ p, T.node p ≠ none ↔ p ∈ s) :
    T.nodes.card = s.card := by
  have hsub : s ⊆ places := by
    intro p hp
    obtain ⟨a, ha⟩ := Option.ne_none_iff_exists'.1 ((hs p).2 hp)
    exact h.mem_places ha
  have hnodes : T.nodes = bag s T.node := by
    rw [Tab.nodes, bag, bag]
    refine (Finset.sum_subset hsub ?_).symm
    intro p _ hp
    have hnone : T.node p = none := not_not.1 fun hne => hp ((hs p).1 hne)
    rw [hnone]
    rfl
  rw [hnodes]
  exact card_bag fun p hp => (hs p).2 hp

theorem TabOk.card_built (h : TabOk m r T) (hb : Built T n) (hn : n ≤ 2 ^ 15) :
    T.nodes.card = tables n := by
  rw [h.card_nodes hb, card_usedPlaces hn]

theorem TabOk.card_lt (h : TabOk m r T) (hs : ∀ p, T.node p ≠ none → p ∈ usedPlaces n)
    (hn : n ≤ 2 ^ 15) {p : Node} (hp : p ∈ usedPlaces n) (hnone : T.node p = none) :
    T.nodes.card < tables n := by
  have hiff : ∀ q, T.node q ≠ none ↔ q ∈ (usedPlaces n).filter fun q => (T.node q).isSome := by
    intro q
    rw [Finset.mem_filter, ← Option.ne_none_iff_isSome]
    exact ⟨fun hq => ⟨hs q hq, hq⟩, fun hq => hq.2⟩
  rw [h.card_nodes hiff, ← card_usedPlaces hn]
  refine Finset.card_lt_card (Finset.filter_ssubset.2 ⟨p, hp, ?_⟩)
  rw [hnone]
  exact Bool.false_ne_true

theorem Space.card_user (h : Space m l r T n) : T.user.card = n := by
  have hsub : Finset.range n ⊆ userPages := by
    intro v hv
    exact mem_userPages.2 ((Finset.mem_range.1 hv).trans_le h.le_nuser)
  have huser : T.user = bag (Finset.range n) T.pa := by
    rw [Tab.user, bag, bag]
    refine (Finset.sum_subset hsub ?_).symm
    intro v hv hvn
    rw [Tab.pa, h.leaf_none (by simpa using hvn) (mem_userPages.1 hv)]
    rfl
  rw [huser, card_bag, Finset.card_range]
  intro v hv
  obtain ⟨w, hw, -⟩ := h.leaf (Finset.mem_range.1 hv)
  rw [Tab.pa_of_leaf hw]
  exact Option.some_ne_none _

section

omit [Image]

theorem perm_userPerm : Perm userPerm := ⟨by decide, .inl (by decide)⟩

theorem way_next (hn : n ≤ 2 ^ 15) : n * pgsize / 2 ^ 30 = 0 ∧ n * pgsize / 2 ^ 21 = n / 512 := by
  simp only [pgsize]
  omega

theorem off_next (hn : n ≤ 2 ^ 15) {p : Node} :
    p.Off (n * pgsize) ↔ p ≠ .mid 0 ∧ p ≠ .bot (n / 512) := by
  rw [Node.Off, (way_next hn).1, (way_next hn).2]

theorem mem_usedPlaces_succ {p : Node} :
    p ∈ usedPlaces (n + 1) ↔ p = .mid 0 ∨ p = .bot (n / 512) ∨ p ∈ usedPlaces n := by
  rw [mem_usedPlaces, mem_usedPlaces]
  cases p with
  | root => simp
  | mid i =>
    simp only [reduceCtorEq, Node.mid.injEq, false_or, false_and, exists_false, or_false]
    omega
  | bot x =>
    simp only [reduceCtorEq, Node.bot.injEq, false_or, false_and]
    constructor
    · rintro (h | ⟨y, rfl, hy⟩)
      · exact .inr (.inl h)
      · by_cases hx : x = n / 512
        · exact .inl hx
        · exact .inr (.inr ⟨x, rfl, by omega⟩)
    · rintro (h | h | ⟨y, rfl, hy⟩)
      · exact .inr ⟨x, rfl, by omega⟩
      · exact .inl h
      · exact .inr ⟨x, rfl, by omega⟩

end

theorem Built.succ (hb : Built T n) (hn : n ≤ 2 ^ 15) (ht : TabOk m r T')
    (hoff : ∀ p, p.Off (n * pgsize) → T'.node p = T.node p)
    (hbot : T'.node (.bot (n * pgsize / 2 ^ 21)) ≠ none) : Built T' (n + 1) := by
  rw [(way_next hn).2] at hbot
  have hmid : T'.node (.mid 0) ≠ none := by
    have := ht.bot_up _ hbot
    rwa [show n / 512 / 512 = 0 by omega] at this
  intro p
  rw [mem_usedPlaces_succ]
  by_cases h0 : p = .mid 0
  · subst h0
    exact ⟨fun _ => .inl rfl, fun _ => hmid⟩
  · by_cases h1 : p = .bot (n / 512)
    · subst h1
      exact ⟨fun _ => .inr (.inl rfl), fun _ => hbot⟩
    · rw [hoff p ((off_next hn).2 ⟨h0, h1⟩), hb p]
      simp [h0, h1]

theorem Built.card_lt (hb : Built T n) (hn : n < 2 ^ 15) (ht : TabOk m r T')
    (hoff : ∀ p, p.Off (n * pgsize) → T'.node p = T.node p)
    (hbot : T'.node (.bot (n * pgsize / 2 ^ 21)) = none) : T'.nodes.card < tables (n + 1) := by
  rw [(way_next hn.le).2] at hbot
  refine ht.card_lt ?_ (by omega) (mem_usedPlaces_succ.2 (.inr (.inl rfl))) hbot
  intro p hp
  rw [mem_usedPlaces_succ]
  by_cases h0 : p = .mid 0
  · exact .inl h0
  · have h1 : p ≠ .bot (n / 512) := by
      rintro rfl
      exact hp hbot
    rw [hoff p ((off_next hn.le).2 ⟨h0, h1⟩)] at hp
    exact .inr (.inr ((hb p).1 hp))

/-! ## One more page -/

omit [Image] in
theorem Moves.card {k : ℕ} {m' : Mem} {l' : List ℕ} (h : Moves k m l T m' l' T') :
    l'.length + T'.nodes.card + T'.user.card = l.length + T.nodes.card + T.user.card := by
  have := congrArg Multiset.card h.bal
  simpa using this

theorem Space.moves {m' : Mem} {l' : List ℕ} (h : Space m l r T n)
    (hbal : (l' : Multiset ℕ) + T'.nodes + T'.user = l + T.nodes + T.user)
    (hframe : ∀ p, p ∉ (l : Multiset ℕ) + T.nodes → m'.page p = m.page p)
    (hleaf : ∀ v, v ≠ n → T'.leaf v = T.leaf v) : Moves n m l T m' l' T' where
  bal := hbal
  frame p hp := hframe p fun hin => hp (Multiset.mem_add.2 (.inl hin))
  keep v hv := by
    refine ⟨hleaf v hv.ne, fun w hw => hframe _ fun hin => h.nodup.notMem hin ?_⟩
    exact Tab.page_mem (hv.trans_le h.le_nuser) hw
  top v hv := hleaf v ((h.le.trans_lt (by decide)).trans_le hv).ne'

/-- **A page of zeros is mapped after the last user page**; if there is no memory for a page-table page, it is
freed. -/
theorem Space.mapNew {q : ℕ} (h : Space m (q :: l) r T n) : ∃ m₁, kalloc m = .ok (q, m₁) ∧
    ((∃ m' l' T', (∀ {α : Type} (A B : MemM α),
          mapOrFree r (n * pgsize) q userPerm A B (m₁.fill q 0) = A m') ∧
        Space m' l' r T' (n + 1) ∧ Moves n m (q :: l) T m' l' T' ∧
        T'.leaf n = some (pa2pte q ||| userPerm ||| pteV) ∧ (m'.page q = fun _ => 0) ∧
        (Built T n → Built T' (n + 1))) ∨
      ∃ m' T', (∀ {α : Type} (A B : MemM α),
          mapOrFree r (n * pgsize) q userPerm A B (m₁.fill q 0) = B m') ∧
        Space m' [q] r T' n ∧ Moves n m (q :: l) T m' [q] T' ∧
        (Built T n → T'.nodes.card < tables (n + 1))) := by
  have hq := h.free.pages q List.mem_cons_self
  have htab : Table m (q :: l) r T := ⟨h.free, h.tab, h.nodup.left⟩
  obtain ⟨m₁, hk, hfree, hsame, hzero⟩ := kalloc_zeros h.free htab.nodup.left.nodup
  refine ⟨m₁, hk, ?_⟩
  have hn := h.le
  have hdiv : n * pgsize / pgsize = n := Nat.mul_div_cancel n (by decide)
  have hmax : n * pgsize < maxva := by
    simp only [pgsize, maxva]
    omega
  have hnuser : n < nuser := hn.trans_lt (by decide)
  have hnone := h.leaf_none le_rfl hnuser
  have hpte := leafPte_leafEntry perm_userPerm (hq.lt.trans (by decide))
  have hpq : pte2pa (pa2pte q ||| userPerm ||| pteV) = q := pte2pa_leafEntry (by decide) hq.1
  rcases htab.mapFresh hfree hsame hmax (Nat.mul_mod_left n pgsize) (hdiv.symm ▸ hnone) hpte.2.2 hpte with
    ⟨-, m₂, l₂, T₂, hrun, h₂, hbal, hframe, -, hoff, hpage, hleaf⟩ | ⟨-, m₂, T₂, hrun, h₂, hg, hoff, hleaf, hbot⟩
  · rw [hdiv] at hleaf
    have hne : ∀ v, v ≠ n → T₂.leaf v = T.leaf v := fun v hv => by
      rw [hleaf, update_of_ne hv]
    have hself : T₂.leaf n = some (pa2pte q ||| userPerm ||| pteV) := by
      rw [hleaf, update_self]
    have hpa : T₂.pa = update T.pa n (some q) := by
      funext v
      by_cases hv : v = n
      · subst hv
        rw [Tab.pa_of_leaf hself, hpq, update_self]
      · rw [Tab.pa, hne v hv, update_of_ne hv]
        rfl
    have huser : T₂.user = q ::ₘ T.user := by
      rw [Tab.user, hpa, bag_put (mem_userPages.2 hnuser) (by rw [Tab.pa, hnone]; rfl)]
      rfl
    have hall : (l₂ : Multiset ℕ) + T₂.nodes + T₂.user = (q :: l : List ℕ) + T.nodes + T.user := by
      rw [huser, Multiset.add_cons, ← Multiset.cons_add, hbal]
    refine .inl ⟨m₂, l₂, T₂, hrun, ⟨h₂.free, h₂.tab, hall ▸ h.nodup, ?_, ?_, ?_⟩, h.moves hall hframe hne, hself,
      hpage.trans hzero, fun hb => hb.succ hn h₂.tab hoff ?_⟩
    · intro v hv
      by_cases hvn : v = n
      · subst hvn
        simp [hself]
      · rw [hne v hvn, h.mapped v hv]
        omega
    · intro v w hv hw
      by_cases hvn : v = n
      · subst hvn
        rw [hself] at hw
        cases hw
        rwa [hpq]
      · exact h.pages v w hv ((hne v hvn).symm.trans hw)
    · intro v w hv hw
      exact h.top v w hv ((hne v (by omega)).symm.trans hw)
    · have := h₂.tab.leaf_up n (by simp [hself])
      rwa [(way_next hn).2]
  · have huser : T₂.user = T.user := by
      rw [Tab.user, Tab.user]
      refine bag_congr fun v _ => ?_
      rw [Tab.pa, hleaf]
      rfl
    have hall : (([q] : List ℕ) : Multiset ℕ) + T₂.nodes + T₂.user = (q :: l : List ℕ) + T.nodes + T.user := by
      rw [huser, hg.bal]
    refine .inr ⟨m₂, T₂, hrun, ⟨h₂.free, h₂.tab, hall ▸ h.nodup, hleaf ▸ h.mapped, hleaf ▸ h.pages, hleaf ▸ h.top⟩,
      h.moves hall hg.frame fun v _ => congrFun hleaf v, fun hb => hb.card_lt ?_ h₂.tab hoff hbot⟩
    -- the page `q` is not a user page, so there is room for one more
    have hcard := page_count (s := q ::ₘ T.user) ?_ ?_
    · rw [Multiset.card_cons, h.card_user] at hcard
      omega
    · rw [Multiset.nodup_cons]
      exact ⟨h.nodup.notMem (by simp), h.nodup.right.nodup⟩
    · intro p hp
      rcases Multiset.mem_cons.1 hp with rfl | hp
      · exact hq
      · obtain ⟨v, hv, hpa⟩ := mem_bag.1 hp
        obtain ⟨w, hw, rfl⟩ := Option.map_eq_some_iff.1 hpa
        exact h.pages v w (mem_userPages.1 hv) hw

/-! ## `uvmalloc` -/

omit [Image] in
theorem npages_mul (k : ℕ) : npages (k * pgsize) = k := by
  simp only [npages, pgsize]
  omega

theorem Space.dealloc {k : ℕ} (h : Space m l r T n) (hk : k ≤ n) :
    Yields (uvmdealloc r (n * pgsize) (k * pgsize)) m fun _ m' => ∃ l' T',
      Space m' l' r T' k ∧ Moves k m l T m' l' T' := by
  have hs : Space m l r T (npages (n * pgsize)) := by rwa [npages_mul]
  have hd : Yields (uvmdealloc r (n * pgsize) (k * pgsize)) m _ := uvmdealloc_spec hs
  refine Yields.mono hd ?_
  rintro res m' ⟨-, l', T', h', hmv⟩
  rw [min_eq_right (Nat.mul_le_mul_right pgsize hk), npages_mul] at h' hmv
  exact ⟨l', T', h', hmv⟩

/-- The pages from `a` up to `b` are zero, and the user may access them. -/
def Zeroed (m : Mem) (T : Tab) (a b : ℕ) : Prop :=
  ∀ v, a ≤ v → v < b → ∃ w, T.leaf v = some w ∧ Has w pteU ∧ m.page (pte2pa w) = fun _ => 0

section

omit [Image]

theorem Zeroed.cons {m' : Mem} {l' : List ℕ} {w : ℕ} {k : ℕ} (hw : T.leaf n = some w) (hu : Has w pteU)
    (hz : m.page (pte2pa w) = fun _ => 0) (hmv : Moves (n + 1) m l T m' l' T')
    (h : Zeroed m' T' (n + 1) k) : Zeroed m' T' n k := by
  intro v hv hk
  rcases Nat.eq_or_lt_of_le hv with rfl | hv
  · obtain ⟨hsame, hpage⟩ := hmv.keep n (Nat.lt_succ_self n)
    exact ⟨w, hsame.trans hw, hu, (hpage w hw).trans hz⟩
  · exact h v hv hk

end

theorem allocLoop_nil {a k : ℕ} (hfree : FreeOk m []) (base : ℕ) :
    allocLoop r base (k + 1) a m = (uvmdealloc r a base >>= fun _ => pure false) m := by
  rw [allocLoop, bind_ok (kalloc_nil hfree), if_pos rfl]

theorem allocLoop_cons {a k q : ℕ} {m' : Mem} (hk : kalloc m = .ok (q, m')) (hq : q ≠ 0) (base : ℕ) :
    allocLoop r base (k + 1) a m = mapOrFree r a q userPerm (allocLoop r base k (a + pgsize))
      (uvmdealloc r a base >>= fun _ => pure false) (m'.fill q 0) := by
  rw [allocLoop, bind_ok hk, if_neg hq, memset_bind, mapOrFree]

theorem allocLoop_spec {base : ℕ} (k : ℕ) {m : Mem} {l : List ℕ} {T : Tab} {n : ℕ}
    (h : Space m l r T n) (hb : base ≤ n) :
    Yields (allocLoop r (base * pgsize) k (n * pgsize)) m fun ok m' => ∃ l' T',
      (ok = true ∧ Space m' l' r T' (n + k) ∧ Moves n m l T m' l' T' ∧ Zeroed m' T' n (n + k) ∧
        (Built T n → Built T' (n + k))) ∨
      (ok = false ∧ Space m' l' r T' base ∧ Moves base m l T m' l' T' ∧
        (Built T n → l.length + cost n < cost (n + k))) := by
  induction k generalizing m l T n with
  | zero =>
    exact Yields.pure ⟨l, T, .inl ⟨rfl, h, .refl, fun v hv hv' => absurd hv' (Nat.not_lt.2 hv), id⟩⟩
  | succ k ih =>
    rw [Yields]
    cases l with
    | nil =>
      rw [allocLoop_nil h.free]
      refine Yields.bind (h.dealloc hb) ?_
      rintro - m' ⟨l', T', h', hmv⟩
      refine Yields.pure ⟨l', T', .inr ⟨rfl, h', hmv, fun _ => ?_⟩⟩
      simp only [List.length_nil, cost, tables]
      omega
    | cons q l =>
      have hq := h.free.pages q List.mem_cons_self
      obtain ⟨m₁, hk, hmap⟩ := h.mapNew
      rw [allocLoop_cons hk hq.ne_zero]
      rcases hmap with
        ⟨m₂, l₂, T₂, hrun, h₂, hmv₂, hleaf, hpage, hbuilt⟩ | ⟨m₂, T₂, hrun, h₂, hmv₂, hfew⟩
      · rw [hrun]
        have hnext : n * pgsize + pgsize = (n + 1) * pgsize := (Nat.succ_mul n pgsize).symm
        rw [hnext]
        refine Yields.mono (ih h₂ (hb.trans n.le_succ)) ?_
        rintro ok m' ⟨l', T', hres⟩
        have hcount : n + 1 + k = n + (k + 1) := by omega
        rw [hcount] at hres
        refine ⟨l', T', hres.imp ?_ ?_⟩
        · rintro ⟨hok, h', hmv', hz, hbuilt'⟩
          refine ⟨hok, h', hmv₂.trans (hmv'.mono n.le_succ), ?_, fun hT => hbuilt' (hbuilt hT)⟩
          refine Zeroed.cons hleaf ?_ ?_ hmv' hz
          · exact (has_leafEntry (k := 4) (by omega) (by decide)).2 (.inl (by decide))
          · rw [pte2pa_leafEntry (by decide) hq.1, hpage]
        · rintro ⟨hok, h', hmv', hlt⟩
          refine ⟨hok, h', (hmv₂.mono hb).trans hmv', fun hT => ?_⟩
          have hT₂ := hbuilt hT
          have hcard := hmv₂.card
          rw [h.tab.card_built hT h.le, h₂.tab.card_built hT₂ h₂.le, h.card_user, h₂.card_user] at hcard
          have := hlt hT₂
          simp only [cost] at this ⊢
          omega
      · rw [hrun]
        refine Yields.bind (h₂.dealloc hb) ?_
        rintro - m' ⟨l', T', h', hmv'⟩
        refine Yields.pure ⟨l', T', .inr ⟨rfl, h', (hmv₂.mono hb).trans hmv', fun hT => ?_⟩⟩
        have hcard := hmv₂.card
        rw [h.tab.card_built hT h.le, h.card_user, h₂.card_user] at hcard
        have := hfew hT
        have hmono : cost (n + 1) ≤ cost (n + (k + 1)) := cost_le_cost (by omega)
        simp only [cost, List.length_singleton] at hcard hmono ⊢
        omega

omit [Image] in
theorem alloc_pages {oldsz newsz : ℕ} (h : npages oldsz ≤ 2 ^ 15) (hle : oldsz ≤ newsz) :
    pgRoundUp oldsz = npages oldsz * pgsize ∧
      npages oldsz + pagesFrom (npages oldsz * pgsize) newsz = npages newsz := by
  refine ⟨pgRoundUp_eq ((size_lt h).trans (by decide)), ?_⟩
  simp only [npages, pagesFrom, pgsize] at *
  omega

theorem uvmalloc_spec {oldsz newsz : ℕ} (h : Space m l r T (npages oldsz)) :
    Yields (uvmalloc r oldsz newsz) m fun res m' => ∃ l' T', Moves (npages oldsz) m l T m' l' T' ∧
      (res = max oldsz newsz ∧ Space m' l' r T' (npages res) ∧ Zeroed m' T' (npages oldsz) (npages res) ∧
          (Built T (npages oldsz) → Built T' (npages res)) ∨
        res = 0 ∧ oldsz ≤ newsz ∧ Space m' l' r T' (npages oldsz) ∧
          (Built T (npages oldsz) → l.length + cost (npages oldsz) < cost (npages newsz))) := by
  rw [uvmalloc]
  by_cases hlt : newsz < oldsz
  · rw [if_pos hlt]
    refine Yields.pure ⟨l, T, .refl, .inl ⟨(max_eq_left hlt.le).symm, h, ?_, id⟩⟩
    exact fun v hv hv' => absurd hv' (Nat.not_lt.2 hv)
  · have hle := Nat.le_of_not_lt hlt
    obtain ⟨hup, hcount⟩ := alloc_pages h.le hle
    rw [if_neg hlt, hup]
    refine Yields.bind (allocLoop_spec _ h le_rfl) ?_
    rintro ok m' ⟨l', T', hres⟩
    rw [hcount] at hres
    rcases hres with ⟨rfl, h', hmv, hz, hb⟩ | ⟨rfl, h', hmv, hfew⟩
    · exact Yields.pure ⟨l', T', hmv, .inl ⟨(max_eq_right hle).symm, h', hz, hb⟩⟩
    · exact Yields.pure ⟨l', T', hmv, .inr ⟨rfl, hle, h', hfew⟩⟩

theorem unmapLoop_error (h : TabOk m r T) {v : ℕ} (hv : v * pgsize < maxva) (hnone : T.leaf v = none)
    (free : Bool) (k : ℕ) : ∃ e, unmapLoop r free k (v * pgsize) m = .error e := by
  have hpage : ∃ e, unmapPage r (v * pgsize) free m = .error e := by
    have hwalk := walk_read h false nofun hv
    rw [unmapPage, bind_ok hwalk]
    cases hbot : T.node (.bot (v * pgsize / 2 ^ 21)) with
    | none => exact ⟨_, rfl⟩
    | some q =>
      have hword := word_leaf h hbot
      rw [Nat.mul_div_cancel v (by decide), hnone] at hword
      rw [Option.map_some, Option.getD_some, if_neg (slot_ne_zero (h.pages _ _ hbot) _), readWord_bind,
        hword]
      exact ⟨_, rfl⟩
  obtain ⟨e, he⟩ := hpage
  cases k with
  | zero => exact ⟨e, he⟩
  | succ k => exact ⟨e, bind_error he⟩

theorem Space.unmapAll {sz : ℕ} (h : Space m l r T (npages sz)) (hs : 0 < sz) :
    Yields (uvmunmap r 0 sz true) m fun _ m' => ∃ l',
      Space m' l' r (T.clear 0 (npages sz)) 0 ∧ Moves 0 m l T m' l' (T.clear 0 (npages sz)) := by
  have hlt := size_lt h.le
  have hmax : 0 * pgsize + sz ≤ maxva := by
    simp only [pgsize, maxva]
    omega
  have hcount : 0 + ((sz - 1) / pgsize + 1) = npages sz := by
    simp only [npages, pgsize]
    omega
  have hrange := uvmunmap_eq (r := r) hs hmax true
  rw [Nat.zero_mul] at hrange
  rw [hrange]
  have hunmap := h.unmap hcount
  rwa [Nat.zero_mul] at hunmap

section

omit [Image]

theorem LeafPte.perm {w : ℕ} (h : LeafPte w) : Perm (pteFlags w) := by
  refine ⟨Nat.mod_lt _ (by decide), ?_⟩
  have := h.2.1
  simp only [Has, pteFlags, pteR, pteW, pteX] at this ⊢
  omega

theorem flags_or {w : ℕ} (h : Has w pteV) : pteFlags w ||| pteV = pteFlags w := by
  have hodd : w % 2 = 1 := by simpa [Has, pteV] using h
  have hflags : pteFlags w = 2 ^ 1 * (pteFlags w / 2) + 1 := by
    simp only [pteFlags]
    omega
  have hor := Nat.two_pow_add_eq_or_of_lt (show 1 < 2 ^ 1 by decide) (pteFlags w / 2)
  rw [hflags, hor, pteV, Nat.or_assoc, Nat.or_self]

end

end

end Xv6.Vm
