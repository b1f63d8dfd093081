import Xv6.Vm.Pages

/-!
# Page tables as trees

* `Tab`: a page table: the pages of its three levels and the PTEs of the addresses it maps.
* `TabOk`: memory holds the table. `TabOk.link`, `TabOk.setLeaf`: what a store into one of its pages does
  to it.
* `Table`: the table and the free list have no page in common. `Grows`: what `walk` does to both.
* **`walk_read`**, **`walk_alloc`**: the two uses of `walk`. **`mappage_spec`**: `mappages` of one page.
-/

namespace Xv6.Vm

open Function Bytes Fail Bag

/-! ## Entries -/

def dirEntry : Option ℕ → ℕ
  | none => 0
  | some q => pa2pte q ||| pteV

def LeafPte (w : ℕ) : Prop :=
  Has w pteV ∧ (Has w pteR ∨ Has w pteW ∨ Has w pteX) ∧ w < 2 ^ 64

def Perm (perm : ℕ) : Prop := perm < 2 ^ 10 ∧ (Has perm pteR ∨ Has perm pteW ∨ Has perm pteX)

section Entries

variable {q pa perm w : ℕ}

theorem pa2pte_or {b : ℕ} (hb : b < 2 ^ 10) : pa2pte pa ||| b = 2 ^ 10 * (pa / 2 ^ 12) + b := by
  rw [Nat.two_pow_add_eq_or_of_lt hb, pa2pte, Nat.mul_comm]

theorem dirEntry_some (q : ℕ) : dirEntry (some q) = 2 ^ 10 * (q / 2 ^ 12) + 1 :=
  pa2pte_or (by decide)

theorem has_dirEntry (q : ℕ) : Has (dirEntry (some q)) pteV := by
  rw [dirEntry_some, Has, pteV]
  omega

theorem pte2pa_dirEntry (hq : q % pgsize = 0) : pte2pa (dirEntry (some q)) = q := by
  rw [dirEntry_some]
  simp only [pte2pa, pgsize] at *
  omega

theorem not_leaf_dirEntry (q : ℕ) :
    ¬ (Has (dirEntry (some q)) pteR ∨ Has (dirEntry (some q)) pteW ∨ Has (dirEntry (some q)) pteX) := by
  rw [dirEntry_some]
  simp only [Has, pteR, pteW, pteX]
  omega

theorem not_has_zero (flag : ℕ) : ¬ Has 0 flag := by
  simp [Has]

theorem dirEntry_lt (hq : q < 2 ^ 56) : dirEntry (some q) < 2 ^ 64 := by
  rw [dirEntry_some]
  omega

theorem leafEntry_eq (hperm : perm < 2 ^ 10) :
    pa2pte pa ||| perm ||| pteV = 2 ^ 10 * (pa / 2 ^ 12) + (perm ||| pteV) := by
  have h : perm ||| pteV < 2 ^ 10 := Nat.or_lt_two_pow hperm (by decide)
  rw [Nat.or_assoc, pa2pte_or h]

theorem leafEntry_flags (hperm : perm < 2 ^ 10) : pteFlags (pa2pte pa ||| perm ||| pteV) = perm ||| pteV := by
  have h : perm ||| pteV < 2 ^ 10 := Nat.or_lt_two_pow hperm (by decide)
  rw [leafEntry_eq hperm]
  simp only [pteFlags]
  omega

theorem pte2pa_leafEntry (hperm : perm < 2 ^ 10) (hpa : pa % pgsize = 0) :
    pte2pa (pa2pte pa ||| perm ||| pteV) = pa := by
  have h : perm ||| pteV < 2 ^ 10 := Nat.or_lt_two_pow hperm (by decide)
  rw [leafEntry_eq hperm]
  simp only [pte2pa, pgsize] at *
  omega

theorem has_iff_testBit (w k : ℕ) : Has w (2 ^ k) ↔ w.testBit k = true := by
  rw [Has, Nat.testBit_eq_decide_div_mod_eq]
  simp

theorem has_leafEntry {k : ℕ} (hk : k < 10) (hperm : perm < 2 ^ 10) :
    Has (pa2pte pa ||| perm ||| pteV) (2 ^ k) ↔ Has perm (2 ^ k) ∨ k = 0 := by
  rw [has_iff_testBit, has_iff_testBit, leafEntry_eq hperm, Nat.testBit_two_pow_mul_add _
    (Nat.or_lt_two_pow hperm (by decide)), if_pos hk, Nat.testBit_or]
  rw [Bool.or_eq_true]
  refine or_congr_right ?_
  cases k with
  | zero => simp
  | succ k => simp [Nat.testBit_succ, pteV]

theorem leafPte_leafEntry (hperm : Perm perm) (hpa : pa < 2 ^ 56) :
    LeafPte (pa2pte pa ||| perm ||| pteV) := by
  have hbits := hperm.2
  refine ⟨(has_leafEntry (k := 0) (by omega) hperm.1).2 (.inr rfl), ?_, ?_⟩
  · refine hbits.imp (fun h => ?_) (Or.imp (fun h => ?_) fun h => ?_)
    · exact (has_leafEntry (k := 1) (by omega) hperm.1).2 (.inl h)
    · exact (has_leafEntry (k := 2) (by omega) hperm.1).2 (.inl h)
    · exact (has_leafEntry (k := 3) (by omega) hperm.1).2 (.inl h)
  · have h : perm ||| pteV < 2 ^ 10 := Nat.or_lt_two_pow hperm.1 (by decide)
    rw [leafEntry_eq hperm.1]
    omega

theorem LeafPte.flags_ne (h : LeafPte w) : pteFlags w ≠ pteV := by
  have := h.2.1
  simp only [Has, pteR, pteW, pteX] at this
  simp only [pteFlags, pteV]
  omega

end Entries

/-! ## Trees -/

/-- The places of page-table pages: the root, the table for gigabyte `i`, the table for the two megabytes
`x`. -/
inductive Node
  | root
  | mid (i : ℕ)
  | bot (x : ℕ)
  deriving DecidableEq

@[irreducible] def places : Finset Node :=
  insert .root ((Finset.range 512).image .mid ∪ (Finset.range (512 * 512)).image .bot)

theorem root_mem : Node.root ∈ places := by
  rw [places]
  exact Finset.mem_insert_self _ _

theorem mid_mem {i : ℕ} (h : i < 512) : Node.mid i ∈ places := by
  rw [places]
  exact Finset.mem_insert_of_mem
    (Finset.mem_union_left _ (Finset.mem_image_of_mem _ (Finset.mem_range.2 h)))

theorem bot_mem {x : ℕ} (h : x < 512 * 512) : Node.bot x ∈ places := by
  rw [places]
  exact Finset.mem_insert_of_mem
    (Finset.mem_union_right _ (Finset.mem_image_of_mem _ (Finset.mem_range.2 h)))

/-- **A page table**: its pages, and the PTEs of the pages of virtual memory it maps. -/
structure Tab where
  node : Node → Option ℕ
  leaf : ℕ → Option ℕ

namespace Tab

def nodes (T : Tab) : Multiset ℕ := bag places T.node

/-- What stands in entry `i` of the page at a place. -/
def entry (T : Tab) : Node → ℕ → ℕ
  | .root, i => dirEntry (T.node (.mid i))
  | .mid a, i => dirEntry (T.node (.bot (512 * a + i)))
  | .bot x, i => (T.leaf (512 * x + i)).getD 0

def put (T : Tab) (n : Node) (o : Option ℕ) : Tab := { T with node := update T.node n o }

def setLeaf (T : Tab) (v : ℕ) (o : Option ℕ) : Tab := { T with leaf := update T.leaf v o }

@[simp] theorem node_put_same (T : Tab) (n : Node) (o : Option ℕ) : (T.put n o).node n = o :=
  update_self ..

@[simp] theorem leaf_setLeaf_same (T : Tab) (v : ℕ) (o : Option ℕ) : (T.setLeaf v o).leaf v = o :=
  update_self ..

theorem leaf_setLeaf_of_ne {T : Tab} {v v' : ℕ} {o : Option ℕ} (h : v' ≠ v) :
    (T.setLeaf v o).leaf v' = T.leaf v' :=
  update_of_ne h _ _

theorem node_put_of_ne {T : Tab} {n n' : Node} {o : Option ℕ} (h : n' ≠ n) :
    (T.put n o).node n' = T.node n' :=
  update_of_ne h _ _

@[simp] theorem nodes_setLeaf (T : Tab) (v : ℕ) (o : Option ℕ) : (T.setLeaf v o).nodes = T.nodes := rfl

end Tab

def Node.above : Node → Option (Node × ℕ)
  | .root => none
  | .mid i => some (.root, i)
  | .bot x => some (.mid (x / 512), x % 512)

theorem Tab.entry_put {T : Tab} {n n' : Node} {o : Option ℕ} {i : ℕ} (hi : i < 512)
    (h : n.above ≠ some (n', i)) : (T.put n o).entry n' i = T.entry n' i := by
  cases n' with
  | root =>
    refine congrArg dirEntry (node_put_of_ne ?_)
    rintro rfl
    exact h rfl
  | mid a =>
    refine congrArg dirEntry (node_put_of_ne ?_)
    rintro rfl
    refine h ?_
    simp only [Node.above, Option.some.injEq, Prod.mk.injEq, Node.mid.injEq]
    omega
  | bot x => rfl

theorem Tab.entry_above {T : Tab} {n n' : Node} {i : ℕ} (h : n.above = some (n', i)) :
    T.entry n' i = dirEntry (T.node n) := by
  cases n with
  | root => cases h
  | mid a =>
    cases h
    rfl
  | bot x =>
    cases h
    rw [Tab.entry, Nat.div_add_mod]

section

variable [Image]

/-- **Memory holds the page table `T`, with its root at `r`**; its leaf entries are as `W` says. -/
structure TabOk (m : Mem) (r : ℕ) (T : Tab) (W : ℕ → Prop := LeafPte) : Prop where
  root : T.node .root = some r
  entries : ∀ n p, T.node n = some p → ∀ i < 512, pte (m.page p) i = T.entry n i
  mid_lt : ∀ i, T.node (.mid i) ≠ none → i < 512
  bot_up : ∀ x, T.node (.bot x) ≠ none → T.node (.mid (x / 512)) ≠ none
  leaf_up : ∀ v, T.leaf v ≠ none → T.node (.bot (v / 512)) ≠ none
  word : ∀ v w, T.leaf v = some w → W w
  pages : ∀ n p, T.node n = some p → IsPage p

namespace TabOk

variable {m m' : Mem} {r : ℕ} {T : Tab} {W : ℕ → Prop} {n : Node} {p q i : ℕ}

theorem mem_places (h : TabOk m r T W) (hn : T.node n = some p) : n ∈ places := by
  cases n with
  | root => exact root_mem
  | mid i => exact mid_mem (h.mid_lt i (by simp [hn]))
  | bot x =>
    have := h.mid_lt _ (h.bot_up x (by simp [hn]))
    exact bot_mem (by omega)

theorem mem_nodes (h : TabOk m r T W) (hn : T.node n = some p) : p ∈ T.nodes :=
  mem_bag.2 ⟨n, h.mem_places hn, hn⟩

theorem frame (h : TabOk m r T W) (hm : ∀ p ∈ T.nodes, m'.page p = m.page p) : TabOk m' r T W :=
  { h with
    entries := by
      intro n p hn i hi
      rw [hm p (h.mem_nodes hn)]
      exact h.entries n p hn i hi }

theorem mem_places_of_above (h : TabOk m r T W) {n' : Node} (ha : n.above = some (n', i)) (hi : i < 512)
    (hn : T.node n' ≠ none) : n ∈ places := by
  cases n with
  | root => exact root_mem
  | mid a =>
    cases ha
    exact mid_mem hi
  | bot x =>
    cases ha
    have := h.mid_lt _ hn
    exact bot_mem (by omega)

/-- **A new page-table page.** It is all zero, and the entry above points to it. -/
theorem link (h : TabOk m r T W) (hnd : T.nodes.Nodup) {n' : Node} (ha : n.above = some (n', i))
    (hi : i < 512) (hp : T.node n' = some p) (hfree : T.node n = none) (hq : IsPage q) (hnew : q ∉ T.nodes)
    (hlt : ∀ j, n = .mid j → j < 512)
    (hpage : m'.page p = store (m.page p) (8 * i) 8 (dirEntry (some q)))
    (hzero : m'.page q = fun _ => 0) (hm : ∀ a, a ≠ p → a ≠ q → m'.page a = m.page a) :
    TabOk m' r (T.put n (some q)) W := by
  have hne : n' ≠ n := by
    intro he
    rw [he, hfree] at hp
    cases hp
  have hold : ∀ {n₁}, T.node n₁ ≠ none → (T.put n (some q)).node n₁ ≠ none := by
    intro n₁ hn₁
    by_cases he : n₁ = n
    · simp [he]
    · rwa [Tab.node_put_of_ne he]
  constructor
  · rw [Tab.node_put_of_ne, h.root]
    rintro rfl
    rw [h.root] at hfree
    cases hfree
  · intro n₁ p₁ hn₁ j hj
    by_cases he : n₁ = n
    · -- the new page: nothing is below it yet
      subst he
      rw [Tab.node_put_same] at hn₁
      cases hn₁
      rw [hzero, pte_zero]
      have hempty : T.entry n₁ j = 0 := by
        cases n₁ with
        | root => cases ha
        | mid a =>
          have : T.node (.bot (512 * a + j)) = none := by
            by_contra hb
            have hup := h.bot_up _ hb
            rw [show (512 * a + j) / 512 = a by omega] at hup
            exact hup hfree
          rw [Tab.entry, this]
          rfl
        | bot x =>
          have : T.leaf (512 * x + j) = none := by
            by_contra hb
            have hup := h.leaf_up _ hb
            rw [show (512 * x + j) / 512 = x by omega] at hup
            exact hup hfree
          rw [Tab.entry, this]
          rfl
      rw [Tab.entry_put hj, hempty]
      cases n₁ with
      | root => cases ha
      | mid a => simp [Node.above]
      | bot x => simp [Node.above]
    · rw [Tab.node_put_of_ne he] at hn₁
      have hp₁q : p₁ ≠ q := by
        intro hpq
        exact hnew (hpq ▸ h.mem_nodes hn₁)
      by_cases he' : n₁ = n'
      · subst he'
        rw [hp] at hn₁
        cases hn₁
        rw [hpage]
        by_cases hij : j = i
        · subst hij
          rw [pte_store_same hj (dirEntry_lt (by have := hq.lt; omega)), Tab.entry_above ha,
            Tab.node_put_same]
        · rw [pte_store_of_ne hij, h.entries _ _ hp j hj, Tab.entry_put hj]
          rw [ha]
          simpa using Ne.symm hij
      · have hp₁ : p₁ ≠ p := by
          intro hpp
          rw [hpp] at hn₁
          exact he' (inj_of_nodup hnd (h.mem_places hn₁) (h.mem_places hp) hn₁ hp)
        rw [hm p₁ hp₁ hp₁q, h.entries _ _ hn₁ j hj, Tab.entry_put hj]
        rw [ha]
        simpa using fun e => absurd e.symm he'
  · intro j hj
    by_cases he : Node.mid j = n
    · exact hlt j he.symm
    · rw [Tab.node_put_of_ne he] at hj
      exact h.mid_lt j hj
  · intro x hx
    by_cases he : Node.bot x = n
    · subst he
      cases ha
      exact hold (by simp [hp])
    · rw [Tab.node_put_of_ne he] at hx
      exact hold (h.bot_up x hx)
  · intro v hv
    exact hold (h.leaf_up v hv)
  · exact h.word
  · intro n₁ p₁ hn₁
    by_cases he : n₁ = n
    · subst he
      rw [Tab.node_put_same] at hn₁
      cases hn₁
      exact hq
    · rw [Tab.node_put_of_ne he] at hn₁
      exact h.pages n₁ p₁ hn₁

theorem setLeaf (h : TabOk m r T W) (hnd : T.nodes.Nodup) {v : ℕ} {o : Option ℕ}
    (hp : T.node (.bot (v / 512)) = some p) (hlt : o.getD 0 < 2 ^ 64) (ho : ∀ w, o = some w → W w)
    (hpage : m'.page p = store (m.page p) (8 * (v % 512)) 8 (o.getD 0))
    (hm : ∀ a ∈ T.nodes, a ≠ p → m'.page a = m.page a) : TabOk m' r (T.setLeaf v o) W := by
  refine ⟨h.root, ?_, h.mid_lt, h.bot_up, ?_, ?_, h.pages⟩
  · intro n₁ p₁ hn₁ j hj
    change T.node n₁ = some p₁ at hn₁
    by_cases he : n₁ = .bot (v / 512)
    · subst he
      rw [hp] at hn₁
      cases hn₁
      rw [hpage]
      change _ = ((T.setLeaf v o).leaf (512 * (v / 512) + j)).getD 0
      by_cases hjv : j = v % 512
      · subst hjv
        rw [pte_store_same hj hlt, Nat.div_add_mod, Tab.leaf_setLeaf_same]
      · rw [pte_store_of_ne hjv, h.entries _ _ hp j hj, Tab.leaf_setLeaf_of_ne (by omega)]
        rfl
    · have hp₁ : p₁ ≠ p := by
        intro hpp
        rw [hpp] at hn₁
        exact he (inj_of_nodup hnd (h.mem_places hn₁) (h.mem_places hp) hn₁ hp)
      rw [hm p₁ (h.mem_nodes hn₁) hp₁, h.entries _ _ hn₁ j hj]
      cases n₁ with
      | root => rfl
      | mid a => rfl
      | bot x =>
        refine congrArg (fun o => Option.getD o 0) (Tab.leaf_setLeaf_of_ne ?_).symm
        intro hxv
        refine he (congrArg Node.bot ?_)
        omega
  · intro v' hv'
    by_cases hv : v' = v
    · subst hv
      change T.node _ ≠ none
      simp [hp]
    · refine h.leaf_up v' ?_
      rwa [Tab.leaf_setLeaf_of_ne hv] at hv'
  · intro v' w hw
    by_cases hv : v' = v
    · subst hv
      rw [Tab.leaf_setLeaf_same] at hw
      exact ho w hw
    · rw [Tab.leaf_setLeaf_of_ne hv] at hw
      exact h.word v' w hw

end TabOk

/-! ## `walk` -/

section

omit [Image]

theorem px_lt (level va : ℕ) : px level va < 512 := Nat.mod_lt _ (by decide)

theorem px_two {va : ℕ} (h : va < maxva) : px 2 va = va / 2 ^ 30 := by
  simp only [px, maxva] at *
  omega

theorem px_one (va : ℕ) : px 1 va = va / 2 ^ 21 % 512 := rfl

theorem px_zero (va : ℕ) : px 0 va = va / 2 ^ 12 % 512 := rfl

end

/-- **The table, and the free list beside it.** -/
structure Table (m : Mem) (l : List ℕ) (r : ℕ) (T : Tab) (W : ℕ → Prop := LeafPte) : Prop where
  free : FreeOk m l
  tab : TabOk m r T W
  nodup : Distinct ((l : Multiset ℕ) + T.nodes)

/-- The table gets pages from the free list; nothing else is touched. -/
structure Grows (m : Mem) (l : List ℕ) (T : Tab) (m' : Mem) (l' : List ℕ) (T' : Tab) : Prop where
  bal : (l' : Multiset ℕ) + T'.nodes = l + T.nodes
  keep : ∀ n p, T.node n = some p → T'.node n = some p
  frame : ∀ p, p ∉ (l : Multiset ℕ) + T.nodes → m'.page p = m.page p

section Walk

variable {m m' m'' : Mem} {l l' l'' : List ℕ} {r p q va : ℕ} {T T' T'' : Tab} {n n' : Node}
  {W : ℕ → Prop}

section

omit [Image]

theorem Grows.refl : Grows m l T m l T := ⟨rfl, fun _ _ => id, fun _ _ => rfl⟩

theorem Grows.trans (h : Grows m l T m' l' T') (h' : Grows m' l' T' m'' l'' T'') :
    Grows m l T m'' l'' T'' := by
  refine ⟨h'.bal.trans h.bal, fun n p hn => h'.keep n p (h.keep n p hn), fun p hp => ?_⟩
  rw [h'.frame p (h.bal ▸ hp), h.frame p hp]

end

theorem Table.nodes_nodup (h : Table m l r T W) : T.nodes.Nodup := h.nodup.right.nodup

theorem Table.notMem_nodes (h : Table m l r T W) (hp : p ∈ l) : p ∉ T.nodes :=
  h.nodup.notMem (Multiset.mem_coe.2 hp)

section

omit [Image]

theorem readWord_bind {α : Type} (a : ℕ) (f : ℕ → MemM α) (m : Mem) :
    (readWord a >>= f) m = f (m.word a) m := rfl

theorem writeWord_bind {α : Type} (a v : ℕ) (f : Unit → MemM α) (m : Mem) :
    (writeWord a v >>= f) m = f () (m.setWord a v) := rfl

theorem memset_bind {α : Type} (a : ℕ) (c : UInt8) (f : Unit → MemM α) (m : Mem) :
    (memset a c >>= f) m = f () (m.fill a c) := rfl

end

/-- **One turn of `walk`**, at the place `n'`, whose entry leads to `n`. -/
theorem walkFrom_alloc (h : Table m l r T W) {level : ℕ} (ha : n.above = some (n', px (level + 1) va))
    (hp : T.node n' = some p) {Q : ℕ → Mem → Prop} (hnone : l = [] → T.node n = none → Q 0 m)
    (hgo : ∀ m₁ l₁ T₁ q, Table m₁ l₁ r T₁ W → Grows m l T m₁ l₁ T₁ → T₁.leaf = T.leaf →
      T₁.node n = some q → (∀ n₁, n₁ ≠ n → T₁.node n₁ = T.node n₁) →
      Yields (walkFrom va true level q) m₁ Q) :
    Yields (walkFrom va true (level + 1) p) m Q := by
  have hpage := h.tab.pages _ _ hp
  have hi := px_lt (level + 1) va
  have hent : m.word (slot p (px (level + 1) va)) = dirEntry (T.node n) := by
    rw [word_slot hpage.1 hi, h.tab.entries _ _ hp _ hi, Tab.entry_above ha]
  rw [walkFrom, Yields, readWord_bind, hent]
  cases hn : T.node n with
  | some q =>
    rw [if_pos (has_dirEntry q), pte2pa_dirEntry (h.tab.pages _ _ hn).1]
    exact hgo m l T q h .refl rfl hn fun _ _ => rfl
  | none =>
    rw [dirEntry, if_neg (not_has_zero _), if_neg (by simp)]
    cases l with
    | nil =>
      rw [bind_ok (kalloc_nil h.free), if_pos rfl]
      exact ⟨0, m, rfl, hnone rfl hn⟩
    | cons q l =>
      have hq := h.free.pages q List.mem_cons_self
      have hqT := h.notMem_nodes (p := q) List.mem_cons_self
      have hl : (q :: l).Nodup := h.nodup.left.nodup
      obtain ⟨m₁, hk, hfree, hsame⟩ := kalloc_cons h.free hl
      rw [bind_ok hk, if_neg hq.ne_zero, memset_bind, writeWord_bind]
      have hpq : p ≠ q := by
        intro he
        exact hqT (he ▸ h.tab.mem_nodes hp)
      set m₂ := (m₁.fill q 0).setWord (slot p (px (level + 1) va)) (pa2pte q ||| pteV) with hm₂
      rw [setWord_slot hpage.1 hi] at hm₂
      have hm : ∀ a, a ≠ p → a ≠ q → m₂.page a = m.page a := by
        intro a hap haq
        rw [hm₂, page_setPage_of_ne hap, Mem.fill, page_setPage_of_ne haq, hsame a haq]
      have hbal : (l : Multiset ℕ) + (T.put n (some q)).nodes = (q :: l : List ℕ) + T.nodes := by
        rw [Tab.nodes, Tab.put, bag_put (h.tab.mem_places_of_above ha hi (by simp [hp])) hn,
          ← Multiset.cons_coe, Multiset.add_cons, Multiset.cons_add]
        rfl
      have hkeep : ∀ k a, T.node k = some a → (T.put n (some q)).node k = some a := by
        intro k a hk
        rwa [Tab.node_put_of_ne]
        rintro rfl
        rw [hn] at hk
        cases hk
      refine hgo m₂ l (T.put n (some q)) q ⟨?_, ?_, ?_⟩ ⟨hbal, hkeep, ?_⟩ rfl (Tab.node_put_same ..)
        fun _ => Tab.node_put_of_ne
      · refine hfree.frame (by rw [hm₂]; rfl) ?_
        intro a hal
        have hap : a ≠ p := by
          intro he
          exact h.notMem_nodes (List.mem_cons_of_mem _ (he ▸ hal)) (h.tab.mem_nodes hp)
        have haq : a ≠ q := by
          intro he
          exact (List.nodup_cons.1 hl).1 (he ▸ hal)
        rw [hm a hap haq, hsame a haq]
      · refine h.tab.link h.nodes_nodup ha hi hp hn hq hqT ?_ ?_ ?_ hm
        · rintro j rfl
          cases ha
          exact hi
        · rw [hm₂, page_setPage_same, Mem.fill, page_setPage_of_ne hpq, hsame p hpq]
          rfl
        · rw [hm₂, page_setPage_of_ne (Ne.symm hpq), Mem.fill, page_setPage_same]
      · rw [hbal]
        exact h.nodup
      · intro a ha'
        refine hm a ?_ ?_
        · intro he
          exact ha' (Multiset.mem_add.2 (.inr (he ▸ h.tab.mem_nodes hp)))
        · intro he
          exact ha' (Multiset.mem_add.2 (.inl (by simp [he])))

section

omit [Image]

theorem above_mid (hva : va < maxva) : (Node.mid (va / 2 ^ 30)).above = some (.root, px 2 va) := by
  rw [px_two hva]
  rfl

theorem above_bot (va : ℕ) : (Node.bot (va / 2 ^ 21)).above = some (.mid (va / 2 ^ 30), px 1 va) := by
  have h : va / 2 ^ 21 / 512 = va / 2 ^ 30 := by omega
  rw [Node.above, px_one, h]

end

/-- A place that is not on the way to the PTE of `va`. -/
def Node.Off (va : ℕ) (n : Node) : Prop := n ≠ .mid (va / 2 ^ 30) ∧ n ≠ .bot (va / 2 ^ 21)

theorem TabOk.bot_none (h : TabOk m r T W) (hmid : T.node (.mid (va / 2 ^ 30)) = none) :
    T.node (.bot (va / 2 ^ 21)) = none := by
  by_contra hb
  have hup := h.bot_up _ hb
  rw [show va / 2 ^ 21 / 512 = va / 2 ^ 30 by omega] at hup
  exact hup hmid

/-- **`walk` with `alloc`** builds the way to the PTE of `va`, unless memory runs out. -/
theorem walk_alloc (h : Table m l r T W) (hva : va < maxva) :
    Yields (walk r va true) m fun a m' => ∃ l' T', Table m' l' r T' W ∧ Grows m l T m' l' T' ∧
      T'.leaf = T.leaf ∧ (∀ n, n.Off va → T'.node n = T.node n) ∧
      (a = 0 ∧ l' = [] ∧ T'.node (.bot (va / 2 ^ 21)) = none ∧ T.node (.bot (va / 2 ^ 21)) = none ∨
        ∃ q, T'.node (.bot (va / 2 ^ 21)) = some q ∧ a = slot q (px 0 va)) := by
  rw [walk, if_neg (Nat.not_le.2 hva)]
  refine walkFrom_alloc h (above_mid hva) h.tab.root ?_ ?_
  · intro hl hmid
    have hbot := h.tab.bot_none hmid
    exact ⟨l, T, h, .refl, rfl, fun _ _ => rfl, .inl ⟨rfl, hl, hbot, hbot⟩⟩
  · intro m₁ l₁ T₁ p₁ h₁ hg₁ hleaf₁ hn₁ hoff₁
    refine walkFrom_alloc h₁ (above_bot va) hn₁ ?_ ?_
    · intro hl hbot
      refine ⟨l₁, T₁, h₁, hg₁, hleaf₁, fun n hn => hoff₁ n hn.1, .inl ⟨rfl, hl, hbot, ?_⟩⟩
      rwa [hoff₁ (.bot (va / 2 ^ 21)) nofun] at hbot
    · intro m₂ l₂ T₂ p₂ h₂ hg₂ hleaf₂ hn₂ hoff₂
      refine Yields.pure ⟨l₂, T₂, h₂, hg₁.trans hg₂, hleaf₂.trans hleaf₁, ?_, .inr ⟨p₂, hn₂, rfl⟩⟩
      exact fun n hn => (hoff₂ n hn.2).trans (hoff₁ n hn.1)

theorem walkFrom_read (h : TabOk m r T W) {alloc : Bool} (hal : alloc = true → FreeOk m []) {level : ℕ}
    (ha : n.above = some (n', px (level + 1) va)) (hp : T.node n' = some p) :
    walkFrom va alloc (level + 1) p m =
      match T.node n with
      | some q => walkFrom va alloc level q m
      | none => .ok (0, m) := by
  have hi := px_lt (level + 1) va
  rw [walkFrom, readWord_bind, word_slot (h.pages _ _ hp).1 hi, h.entries _ _ hp _ hi,
    Tab.entry_above ha]
  cases hn : T.node n with
  | some q => rw [if_pos (has_dirEntry q), pte2pa_dirEntry (h.pages _ _ hn).1]
  | none =>
    rw [dirEntry, if_neg (not_has_zero _)]
    cases alloc with
    | false =>
      rw [if_pos rfl]
      rfl
    | true =>
      rw [if_neg (by simp), bind_ok (kalloc_nil (hal rfl)), if_pos rfl]
      rfl

theorem walk_read (h : TabOk m r T W) (alloc : Bool) (hal : alloc = true → FreeOk m [])
    (hva : va < maxva) :
    walk r va alloc m = .ok (((T.node (.bot (va / 2 ^ 21))).map (slot · (px 0 va))).getD 0, m) := by
  rw [walk, if_neg (Nat.not_le.2 hva), walkFrom_read h hal (above_mid hva) h.root]
  cases hmid : T.node (.mid (va / 2 ^ 30)) with
  | none =>
    rw [h.bot_none hmid]
    rfl
  | some p =>
    change walkFrom va alloc 1 p m = _
    rw [walkFrom_read h hal (above_bot va) hmid]
    cases T.node (.bot (va / 2 ^ 21)) with
    | none => rfl
    | some q => rfl

theorem word_leaf (h : TabOk m r T W) (hq : T.node (.bot (va / 2 ^ 21)) = some q) :
    m.word (slot q (px 0 va)) = (T.leaf (va / pgsize)).getD 0 := by
  rw [word_slot (h.pages _ _ hq).1 (px_lt 0 va), h.entries _ _ hq _ (px_lt 0 va), Tab.entry, px_zero]
  congr 2
  simp only [pgsize]
  omega

theorem walk_mapped (h : TabOk m r T W) (hva : va < maxva) {w : ℕ} (hw : T.leaf (va / pgsize) = some w) :
    ∃ q, T.node (.bot (va / 2 ^ 21)) = some q ∧ IsPage q ∧ walk r va false m = .ok (slot q (px 0 va), m) ∧
      m.word (slot q (px 0 va)) = w := by
  have hup := h.leaf_up (va / pgsize) (by simp [hw])
  rw [show va / pgsize / 512 = va / 2 ^ 21 by simp only [pgsize]; omega] at hup
  obtain ⟨q, hq⟩ := Option.ne_none_iff_exists'.1 hup
  refine ⟨q, hq, h.pages _ _ hq, ?_, ?_⟩
  · rw [walk_read h false nofun hva, hq]
    rfl
  · rw [word_leaf h hq, hw]
    rfl

theorem slot_ne_zero (hq : IsPage q) (i : ℕ) : slot q i ≠ 0 := by
  have := hq.ne_zero
  simp only [slot]
  omega

theorem Table.setEntry (h : Table m l r T W) (hq : T.node (.bot (va / 2 ^ 21)) = some q) {o : Option ℕ}
    (hlt : o.getD 0 < 2 ^ 64) (ho : ∀ w, o = some w → W w) :
    Table (m.setWord (slot q (px 0 va)) (o.getD 0)) l r (T.setLeaf (va / pgsize) o) W ∧
      ∀ p, p ∉ T.nodes → (m.setWord (slot q (px 0 va)) (o.getD 0)).page p = m.page p := by
  have hpage := h.tab.pages _ _ hq
  have hmem := h.tab.mem_nodes hq
  rw [setWord_slot hpage.1 (px_lt 0 va)]
  have hsame : ∀ p, p ∉ T.nodes →
      (m.setPage q (store (m.page q) (8 * px 0 va) 8 (o.getD 0))).page p = m.page p := by
    intro p hp
    refine page_setPage_of_ne ?_
    rintro rfl
    exact hp hmem
  refine ⟨⟨?_, ?_, h.nodup⟩, hsame⟩
  · exact h.free.frame rfl fun p hp => hsame p (h.notMem_nodes hp)
  · refine h.tab.setLeaf (p := q) h.nodes_nodup ?_ hlt ho ?_ ?_
    · rw [← hq]
      congr 2
      simp only [pgsize]
      omega
    · rw [page_setPage_same]
      rfl
    · intro a _ hne
      exact page_setPage_of_ne hne

theorem Table.setPte (h : Table m l r T) (hq : T.node (.bot (va / 2 ^ 21)) = some q) {o : Option ℕ}
    (ho : ∀ w, o = some w → LeafPte w) :
    Table (m.setWord (slot q (px 0 va)) (o.getD 0)) l r (T.setLeaf (va / pgsize) o) ∧
      ∀ p, p ∉ T.nodes → (m.setWord (slot q (px 0 va)) (o.getD 0)).page p = m.page p := by
  refine h.setEntry hq ?_ ho
  cases o with
  | none => simp
  | some w => exact (ho w rfl).2.2

/-! ## One page -/

section

omit [Image]

theorem pgRoundDown_of_aligned {a : ℕ} (ha : a % pgsize = 0) : pgRoundDown a = a := by
  simp only [pgRoundDown, pgsize] at *
  omega

theorem turns_page (hva : va < maxva) (ha : va % pgsize = 0) :
    turns (pgRoundDown va) (lastPage va pgsize) = 0 := by
  simp only [turns, lastPage, pgRoundDown, pgsize, maxva] at *
  omega

end

/-- **One turn of the loop of `mappages`.** It fails only when memory has run out. -/
theorem mapPage_spec (h : Table m l r T W) (hva : va < maxva) (hfree : T.leaf (va / pgsize) = none)
    {pa perm : ℕ} (hlt : pa2pte pa ||| perm ||| pteV < 2 ^ 64) (hw : W (pa2pte pa ||| perm ||| pteV)) :
    Yields (mapPage r va pa perm) m fun ok m' => ∃ l' T', Table m' l' r T' W ∧
      Grows m l T m' l' T' ∧ (∀ n, n.Off va → T'.node n = T.node n) ∧
      (ok = true ∧ T'.leaf = update T.leaf (va / pgsize) (some (pa2pte pa ||| perm ||| pteV)) ∨
        ok = false ∧ T'.leaf = T.leaf ∧ l' = [] ∧ T'.node (.bot (va / 2 ^ 21)) = none ∧
          T.node (.bot (va / 2 ^ 21)) = none) := by
  rw [mapPage]
  refine Yields.bind (walk_alloc h hva) ?_
  rintro a m₁ ⟨l₁, T₁, h₁, hg, hleaf, hoff, hres⟩
  rcases hres with ⟨rfl, hl, hbot⟩ | ⟨q, hq, rfl⟩
  · rw [if_pos rfl]
    exact Yields.pure ⟨l₁, T₁, h₁, hg, hoff, .inr ⟨rfl, hleaf, hl, hbot⟩⟩
  · rw [if_neg (slot_ne_zero (h₁.tab.pages _ _ hq) _), Yields, readWord_bind, word_leaf h₁.tab hq, hleaf,
      hfree, Option.getD_none, if_neg (not_has_zero _), writeWord_bind]
    have hset := h₁.setEntry hq (o := some (pa2pte pa ||| perm ||| pteV)) hlt fun w he => by
      cases he
      exact hw
    refine Yields.pure ⟨l₁, _, hset.1, ⟨hg.bal, hg.keep, ?_⟩, hoff, .inl ⟨rfl, ?_⟩⟩
    · intro p hp
      have hp' : p ∉ T₁.nodes := fun hmem => hp (hg.bal ▸ Multiset.mem_add.2 (.inr hmem))
      exact (hset.2 p hp').trans (hg.frame p hp)
    · rw [Tab.setLeaf, hleaf]

theorem mappage_spec (h : Table m l r T) (hva : va < maxva) (ha : va % pgsize = 0)
    (hfree : T.leaf (va / pgsize) = none) {pa perm : ℕ} (hperm : Perm perm) (hpa : pa < 2 ^ 56) :
    Yields (mappages r va pgsize pa perm) m fun ok m' => ∃ l' T', Table m' l' r T' ∧
      Grows m l T m' l' T' ∧ (∀ n, n.Off va → T'.node n = T.node n) ∧
      (ok = true ∧ T'.leaf = update T.leaf (va / pgsize) (some (pa2pte pa ||| perm ||| pteV)) ∨
        ok = false ∧ T'.leaf = T.leaf ∧ l' = [] ∧ T'.node (.bot (va / 2 ^ 21)) = none ∧
          T.node (.bot (va / 2 ^ 21)) = none) := by
  have hpte := leafPte_leafEntry hperm hpa
  rw [mappages, turns_page hva ha, pgRoundDown_of_aligned ha, mapLoop]
  exact mapPage_spec h hva hfree hpte.2.2 hpte

end Walk

end

end Xv6.Vm
