import Xv6.Vm.Map

/-!
# `fork` snapshots memory

After `uvmcopy` the child has its own copy of every page of the parent, so stores of one process are not seen by the
other.

* `storeByte`: a process writes a byte through its page table. `runStores`: a run of stores by
  both processes.
* `Apart`: two tables that share nothing. **`Apart.unseen`**: what a process reads depends on its own stores only.
* `copyLoop_run`: the loop of `uvmcopy` copies page by page.
* **`uvmcopy_snapshot`**: the child's memory is a copy in fresh pages, the parent's is unchanged, and the two are apart.
-/

namespace Xv6.Vm

open Function Bytes Fail Bag

/-! ## Loads and stores -/

/-- Store a byte through the table at `r`; nothing happens at an address that is not mapped. -/
def storeByte (m : Mem) (r va : ℕ) (b : UInt8) : Mem :=
  match lookup m r va with
  | some w => m.setPage (pte2pa w) (update (m.page (pte2pa w)) (pageOffset va) b)
  | none => m

inductive Side
  | parent
  | child
  deriving DecidableEq

structure UserStore where
  side : Side
  va : ℕ
  byte : UInt8

def runStores (root : Side → ℕ) (m : Mem) (xs : List UserStore) : Mem :=
  xs.foldl (fun m x => storeByte m (root x.side) x.va x.byte) m

section

variable [Image] {m m' m₀ m₁ m₂ : Mem} {l l' l₀ : List ℕ} {r va n sz old : ℕ} {T T₀ To : Tab} {root : Side → ℕ}
  {tab : Side → Tab} {s : Side}

/-- **Two tables that share nothing** below page `n`: a page that one of them maps is no page of a table, and is not
mapped by the other. -/
structure Apart (root : Side → ℕ) (tab : Side → Tab) (n : ℕ) (m : Mem) : Prop where
  ok : ∀ s, TabOk m (root s) (tab s) ValidPte
  nodes : ∀ s s' v w, v < n → (tab s).leaf v = some w → pte2pa w ∉ (tab s').nodes
  data : ∀ s s', s ≠ s' → ∀ v v' w w', v < n → v' < n → (tab s).leaf v = some w → (tab s').leaf v' = some w' →
    pte2pa w ≠ pte2pa w'

namespace Apart

theorem setPage (h : Apart root tab n m) {v w : ℕ} (hv : v < n) (hw : (tab s).leaf v = some w) (d : Page) :
    Apart root tab n (m.setPage (pte2pa w) d) where
  ok := fun s' => (h.ok s').frame fun _ hp => page_setPage_of_ne fun he => h.nodes s s' v w hv hw (he ▸ hp)
  nodes := h.nodes
  data := h.data

theorem storeByte_cases (h : Apart root tab n m) (va : ℕ) (b : UInt8) :
    storeByte m (root s) va b = m ∧ lookup m (root s) va = none ∨
      ∃ w, (tab s).leaf (va / pgsize) = some w ∧ va < maxva ∧ storeByte m (root s) va b =
        m.setPage (pte2pa w) (update (m.page (pte2pa w)) (pageOffset va) b) := by
  cases hw : lookup m (root s) va with
  | none => exact .inl ⟨by rw [storeByte, hw], rfl⟩
  | some w =>
    have hmax := lt_of_lookup hw
    have hleaf := hw
    rw [lookup_eq (h.ok s) hmax] at hleaf
    exact .inr ⟨w, hleaf, hmax, by rw [storeByte, hw]⟩

theorem store (h : Apart root tab n m) (hva : va / pgsize < n) (b : UInt8) :
    Apart root tab n (storeByte m (root s) va b) := by
  rcases h.storeByte_cases (s := s) va b with ⟨he, -⟩ | ⟨w, hw, -, he⟩
  · rwa [he]
  · rw [he]
    exact h.setPage hva hw _

end Apart

def Agree (tab : Side → Tab) (n : ℕ) (s : Side) (m₁ m₂ : Mem) : Prop :=
  ∀ v w, v < n → (tab s).leaf v = some w → m₁.page (pte2pa w) = m₂.page (pte2pa w)

namespace Apart

theorem loadByte_congr (h₁ : Apart root tab n m₁) (h₂ : Apart root tab n m₂) (hs : Agree tab n s m₁ m₂)
    (hva : va / pgsize < n) : loadByte m₁ (root s) va = loadByte m₂ (root s) va := by
  have hlook := congrFun (lookup_congr (h₁.ok s) (h₂.ok s) rfl) va
  rw [loadByte, loadByte, hlook]
  cases hw : lookup m₁ (root s) va with
  | none => rfl
  | some w =>
    rw [lookup_eq (h₁.ok s) (lt_of_lookup hw)] at hw
    rw [Option.map_some, Option.map_some, hs _ w hva hw]

theorem agree_own (h₁ : Apart root tab n m₁) (h₂ : Apart root tab n m₂) (hs : Agree tab n s m₁ m₂)
    (hva : va / pgsize < n) (b : UInt8) :
    Agree tab n s (storeByte m₁ (root s) va b) (storeByte m₂ (root s) va b) := by
  have hlook := congrFun (lookup_congr (h₁.ok s) (h₂.ok s) rfl) va
  rcases h₁.storeByte_cases (s := s) va b with ⟨he, hnone⟩ | ⟨w, hw, hmax, he⟩
  · rw [he, storeByte, hlook, hnone]
    exact hs
  · have he₂ : storeByte m₂ (root s) va b =
        m₂.setPage (pte2pa w) (update (m₂.page (pte2pa w)) (pageOffset va) b) := by
      rw [storeByte, lookup_eq (h₂.ok s) hmax, hw]
    rw [he, he₂, hs _ w hva hw]
    intro v w' hv hw'
    by_cases hp : pte2pa w' = pte2pa w
    · rw [hp, page_setPage_same, page_setPage_same]
    · rw [page_setPage_of_ne hp, page_setPage_of_ne hp]
      exact hs v w' hv hw'

theorem agree_other (h₁ : Apart root tab n m₁) (hs : Agree tab n s m₁ m₂) {s' : Side} (hne : s ≠ s')
    (hva : va / pgsize < n) (b : UInt8) : Agree tab n s (storeByte m₁ (root s') va b) m₂ := by
  rcases h₁.storeByte_cases (s := s') va b with ⟨he, -⟩ | ⟨w, hw, -, he⟩
  · rwa [he]
  · rw [he]
    intro v w' hv hw'
    rw [page_setPage_of_ne (h₁.data s s' hne v _ w' w hv hva hw' hw)]
    exact hs v w' hv hw'

theorem run (h : Apart root tab n m) (xs : List UserStore) (hxs : ∀ x ∈ xs, x.va / pgsize < n) :
    Apart root tab n (runStores root m xs) := by
  induction xs generalizing m with
  | nil => exact h
  | cons x xs ih =>
    exact ih (h.store (hxs x List.mem_cons_self) x.byte) fun y hy => hxs y (List.mem_cons_of_mem x hy)

theorem agree_run (h₁ : Apart root tab n m₁) (h₂ : Apart root tab n m₂) (hs : Agree tab n s m₁ m₂)
    (xs : List UserStore) (hxs : ∀ x ∈ xs, x.va / pgsize < n) :
    Agree tab n s (runStores root m₁ xs) (runStores root m₂ (xs.filter (·.side = s))) := by
  induction xs generalizing m₁ m₂ with
  | nil => exact hs
  | cons x xs ih =>
    have hx := hxs x List.mem_cons_self
    have hrest : ∀ y ∈ xs, y.va / pgsize < n := fun y hy => hxs y (List.mem_cons_of_mem x hy)
    by_cases hside : x.side = s
    · subst hside
      rw [List.filter_cons_of_pos (by simp)]
      exact ih (h₁.store hx _) (h₂.store hx _) (h₁.agree_own h₂ hs hx _) hrest
    · rw [List.filter_cons_of_neg (by simpa using hside)]
      exact ih (h₁.store hx _) h₂ (h₁.agree_other hs (Ne.symm hside) hx _) hrest

/-- **What a process reads depends on its own stores only.** -/
theorem unseen (h : Apart root tab n m) (xs : List UserStore) (hxs : ∀ x ∈ xs, x.va / pgsize < n)
    (hva : va / pgsize < n) : loadByte (runStores root m xs) (root s) va =
      loadByte (runStores root m (xs.filter (·.side = s))) (root s) va := by
  refine loadByte_congr (h.run xs hxs) (h.run _ fun x hx => hxs x (List.mem_of_mem_filter hx)) ?_ hva
  exact h.agree_run h (fun _ _ _ _ => rfl) xs hxs

end Apart

/-! ## `uvmcopy` -/

/-- Page `v` is a copy of the parent's page: the same flags and the same bytes. -/
def CopyOf (m₀ : Mem) (To : Tab) (v w : ℕ) (d : Page) : Prop :=
  ∃ w₀, To.leaf v = some w₀ ∧ pteFlags w = pteFlags w₀ ∧ d = m₀.page (pte2pa w₀)

/-- **The loop of `uvmcopy`**: when it returns `0`, all pages are copied. -/
theorem copyLoop_run (ho : TabOk m₀ old To ValidPte) (hnodes : ∀ p ∈ To.nodes, p ∉ (l₀ : Multiset ℕ) + T₀.nodes)
    (hdata : ∀ v w, To.leaf v = some w → pte2pa w ∉ (l₀ : Multiset ℕ) + T₀.nodes) (k : ℕ) {m : Mem} {l : List ℕ}
    {T : Tab} {n : ℕ} (h : Added (CopyOf m₀ To) ValidPte m₀ l₀ r T₀ 0 n m l T)
    (hva : (n + k) * pgsize ≤ maxva) (hmap : ∀ v < n + k, To.leaf v ≠ none)
    (hnone : ∀ v < n + k, T₀.leaf v = none) :
    May (copyLoop old r k (n * pgsize)) m fun ok m' => ok = true →
      ∃ l' T', Added (CopyOf m₀ To) ValidPte m₀ l₀ r T₀ 0 (n + k) m' l' T' := by
  induction k generalizing m l T n with
  | zero => exact May.pure fun _ => ⟨l, T, h⟩
  | succ k ih =>
    obtain ⟨w, hw⟩ := Option.ne_none_iff_exists'.1 (hmap n (by omega))
    have hvalid := (ho.word n w hw).1
    have hold : TabOk m old To ValidPte := ho.frame fun p hp => h.frame p (hnodes p hp)
    have hlt : n * pgsize < maxva :=
      (Nat.mul_lt_mul_of_pos_right (show n < n + (k + 1) by omega) (by decide)).trans_le hva
    -- at `err` the result is `-1`
    have herr : ∀ {m'}, May (uvmunmap r 0 (n * pgsize) true >>= fun _ => pure false) m' fun ok m'' => ok = true →
        ∃ l' T', Added (CopyOf m₀ To) ValidPte m₀ l₀ r T₀ 0 (n + (k + 1)) m'' l' T' := by
      intro m'
      refine May.bind (Q := fun _ _ => True) (fun _ _ _ => trivial) fun _ _ _ => ?_
      exact May.pure nofun
    cases l with
    | nil =>
      rw [May, copyLoop_nil hold hlt hw hvalid h.table.free]
      exact herr
    | cons q l =>
      have hq := h.table.free.pages q List.mem_cons_self
      have hl : (q :: l).Nodup := h.table.nodup.left.nodup
      have hflags : pteFlags w < 2 ^ 10 := Nat.mod_lt w (by decide)
      have hentry := valid_leafEntry hflags (hq.lt.trans (by decide))
      obtain ⟨m₁, hk, hfree, hsame⟩ := kalloc_cons h.table.free hl
      have hsame' : ∀ p, p ≠ q → (m₁.setPage q (m₁.page (pte2pa w))).page p = m.page p := by
        intro p hp
        rw [page_setPage_of_ne hp, hsame p hp]
      have hfree' : FreeOk (m₁.setPage q (m₁.page (pte2pa w))) l := by
        refine hfree.frame rfl fun p hp => page_setPage_of_ne ?_
        rintro rfl
        exact (List.nodup_cons.1 hl).1 hp
      have hE : CopyOf m₀ To n (pa2pte q ||| pteFlags w ||| pteV)
          ((m₁.setPage q (m₁.page (pte2pa w))).page q) := by
        have hout := h.outside (hdata n w hw)
        have hpq : pte2pa w ≠ q := by
          rintro he
          exact hout (Multiset.mem_add.2 (.inl (by simp [he])))
        refine ⟨w, hw, ?_, ?_⟩
        · rw [leafEntry_flags hflags, flags_or hvalid]
        · rw [page_setPage_same, hsame _ hpq, h.frame _ (hdata n w hw)]
      rw [May, copyLoop_cons hold hlt hw hvalid hk hq.ne_zero]
      rcases h.turn hfree' hsame' n.zero_le hlt (hnone n (by omega)) hflags hentry.2 hentry hE with
        ⟨-, m₂, l₂, T₂, hrun, h₂⟩ | ⟨-, m₂, T₂, hrun, h₂⟩
      · rw [hrun, show n + (k + 1) = n + 1 + k by omega]
        rw [show n + (k + 1) = n + 1 + k by omega] at hva hmap hnone
        exact ih h₂ hva hmap hnone
      · rw [hrun]
        exact herr

def roots (old r : ℕ) : Side → ℕ
  | .parent => old
  | .child => r

def tabs (To T : Tab) : Side → Tab
  | .parent => To
  | .child => T

/-- **A snapshot of the memory below `sz`**: `m` before and `m'` after `uvmcopy`, with `l` the free pages before. -/
structure Snapshot (old r sz : ℕ) (l : List ℕ) (m m' : Mem) : Prop where
  copy : ∀ va < sz, ∃ w w', lookup m old va = some w ∧ lookup m' r va = some w' ∧ pteFlags w' = pteFlags w ∧
    pte2pa w' ∈ l ∧ m'.page (pte2pa w') = m.page (pte2pa w)
  distinct : ∀ va vb w w', va < sz → vb < sz → lookup m' r va = some w → lookup m' r vb = some w' →
    pte2pa w = pte2pa w' → va / pgsize = vb / pgsize
  parent : lookup m' old = lookup m old ∧
    ∀ va w, lookup m old va = some w → m'.page (pte2pa w) = m.page (pte2pa w)
  unseen : ∀ (xs : List UserStore) (s : Side) (va : ℕ), (∀ x ∈ xs, x.va < sz) → va < sz →
    loadByte (runStores (roots old r) m' xs) (roots old r s) va =
      loadByte (runStores (roots old r) m' (xs.filter (·.side = s))) (roots old r s) va

theorem Added.apart (h : Added (CopyOf m To) ValidPte m l r T₀ 0 n m' l' T) (ho : TabOk m old To ValidPte)
    (hnodes : ∀ p ∈ To.nodes, p ∉ (l : Multiset ℕ) + T₀.nodes)
    (hdata : ∀ v w, To.leaf v = some w → pte2pa w ∉ (l : Multiset ℕ) + T₀.nodes + To.nodes) :
    Apart (roots old r) (tabs To T) n m' := by
  have hparent : ∀ v w, To.leaf v = some w → pte2pa w ∉ (l : Multiset ℕ) + T₀.nodes ∧ pte2pa w ∉ To.nodes := by
    intro v w hw
    exact ⟨fun hin => hdata v w hw (Multiset.mem_add.2 (.inl hin)),
      fun hin => hdata v w hw (Multiset.mem_add.2 (.inr hin))⟩
  have hchild : ∀ v w, v < n → T.leaf v = some w → pte2pa w ∈ (l : Multiset ℕ) + T₀.nodes := fun v w hv hw =>
    Multiset.mem_add.2 (.inl (h.mem_free v.zero_le hv hw))
  have hne : ∀ v v' w w', v' < n → To.leaf v = some w → T.leaf v' = some w' → pte2pa w ≠ pte2pa w' := by
    intro v v' w w' hv' hw hw' he
    refine (hparent v w hw).1 ?_
    rw [he]
    exact hchild v' w' hv' hw'
  constructor
  · rintro (_ | _)
    · exact ho.frame fun p hp => h.frame p (hnodes p hp)
    · exact h.table.tab
  · rintro (_ | _) (_ | _) v w hv hw
    · exact (hparent v w hw).2
    · exact fun hin => h.outside (hparent v w hw).1 (Multiset.mem_add.2 (.inr hin))
    · exact fun hin => hnodes _ hin (hchild v w hv hw)
    · exact fun hin => h.notMem v.zero_le hv hw (Multiset.mem_add.2 (.inr hin))
  · rintro (_ | _) (_ | _) hs v v' w w' hv hv' hw hw'
    · exact absurd rfl hs
    · exact hne v v' w w' hv' hw hw'
    · exact (hne v' v w' w hv hw' hw).symm
    · exact absurd rfl hs

omit [Image] in
theorem div_lt_npages (hva : va < sz) : va / pgsize < npages sz := by
  simp only [npages, pgsize]
  omega

theorem lookup_page (h : TabOk m r T ValidPte) (hsz : sz ≤ maxva) {P : Option ℕ → Prop} :
    (∀ va < sz, P (lookup m r va)) ↔ ∀ v < npages sz, P (T.leaf v) := by
  constructor
  · intro hva v hv
    have hlt : v * pgsize < sz := by
      simp only [npages, pgsize] at *
      omega
    have hP := hva _ hlt
    rwa [lookup_eq h (hlt.trans_le hsz), Nat.mul_div_cancel v (by decide)] at hP
  · intro hv va hva
    rw [lookup_eq h (hva.trans_le hsz)]
    exact hv _ (div_lt_npages hva)

theorem Added.snapshot (h : Added (CopyOf m To) ValidPte m l r T₀ 0 (npages sz) m' l' T)
    (ho : TabOk m old To ValidPte) (hsz : sz ≤ maxva) (hnodes : ∀ p ∈ To.nodes, p ∉ (l : Multiset ℕ) + T₀.nodes)
    (hdata : ∀ v w, To.leaf v = some w → pte2pa w ∉ (l : Multiset ℕ) + T₀.nodes + To.nodes) :
    Snapshot old r sz l m m' where
  copy := by
    intro va hva
    have hv := div_lt_npages hva
    obtain ⟨w', hw', -, w, hw, hflags, hbytes⟩ := h.mapped _ (Nat.zero_le _) hv
    refine ⟨w, w', ?_, ?_, hflags, h.mem_free (Nat.zero_le _) hv hw', hbytes⟩
    · rw [lookup_eq ho (hva.trans_le hsz), hw]
    · rw [lookup_eq h.table.tab (hva.trans_le hsz), hw']
  distinct := by
    intro va vb w w' hva hvb hw hw' he
    rw [lookup_eq h.table.tab (hva.trans_le hsz)] at hw
    rw [lookup_eq h.table.tab (hvb.trans_le hsz)] at hw'
    exact h.inj (Nat.zero_le _) (div_lt_npages hva) (Nat.zero_le _) (div_lt_npages hvb) hw hw' he
  parent := by
    have hold : TabOk m' old To ValidPte := ho.frame fun p hp => h.frame p (hnodes p hp)
    refine ⟨lookup_congr ho hold rfl, fun va w hw => ?_⟩
    rw [lookup_eq ho (lt_of_lookup hw)] at hw
    exact h.frame _ fun hin => hdata _ w hw (Multiset.mem_add.2 (.inl hin))
  unseen := fun xs s va hxs hva =>
    (h.apart ho hnodes hdata).unseen xs (fun x hx => div_lt_npages (hxs x hx)) (div_lt_npages hva)

/-- **`fork` snapshots memory.** -/
theorem uvmcopy_snapshot (h : Table m l r T ValidPte) (ho : TabOk m old To ValidPte)
    (hnodes : ∀ p ∈ To.nodes, p ∉ (l : Multiset ℕ) + T.nodes)
    (hdata : ∀ v w, To.leaf v = some w → pte2pa w ∉ (l : Multiset ℕ) + T.nodes + To.nodes)
    (hmap : ∀ va < sz, lookup m old va ≠ none) (hnone : ∀ va < sz, lookup m r va = none) :
    May (uvmcopy old r sz) m fun ok m' => ok = true → Snapshot old r sz l m m' := by
  have hsz : sz ≤ maxva := by
    by_contra hlt
    exact hmap maxva (Nat.lt_of_not_le hlt) (lookup_of_le le_rfl)
  have hpages : (0 + npages sz) * pgsize ≤ maxva := by
    simp only [npages, pgsize, maxva] at hsz ⊢
    omega
  have hcall : uvmcopy old r sz = copyLoop old r (npages sz) (0 * pgsize) := by
    rw [uvmcopy, Nat.zero_mul]
    rfl
  rw [lookup_page ho hsz (P := (· ≠ none))] at hmap
  rw [lookup_page h.tab hsz (P := (· = none))] at hnone
  rw [hcall]
  rw [← Nat.zero_add (npages sz)] at hmap hnone
  have hrun := copyLoop_run ho hnodes (fun v w hw hin => hdata v w hw (Multiset.mem_add.2 (.inl hin))) (npages sz)
    (Added.refl h 0) hpages hmap hnone
  rw [Nat.zero_add] at hrun
  refine May.mono hrun fun ok m' hadd hok => ?_
  obtain ⟨l', T', h'⟩ := hadd hok
  exact h'.snapshot ho hsz hnodes hdata

end

section

attribute [local instance] Image.least

theorem sample_data (v w : ℕ) (hw : sampleParent.leaf v = some w) :
    pte2pa w ∉ (([samplePage 6, samplePage 7, samplePage 8] : List ℕ) : Multiset ℕ) +
      (Tab.rootOnly (samplePage 5)).nodes + sampleParent.nodes := by
  intro hin
  rcases Multiset.mem_add.1 hin with hin | hin
  · rw [nodes_rootOnly] at hin
    rcases sample_leaf hw with he | he
    · rw [he] at hin
      revert hin
      decide +kernel
    · rw [he] at hin
      revert hin
      decide +kernel
  · exact sample_leaf_notMem hw hin

/-- A parent of one page, with just the pages its child needs. -/
theorem uvmcopy_snapshot_one :
    (∃ m', uvmcopy (samplePage 0) (samplePage 5) pgsize (sampleMem (samplePage 6)) = .ok (true, m')) ∧
      May (uvmcopy (samplePage 0) (samplePage 5) pgsize) (sampleMem (samplePage 6)) fun ok m' => ok = true →
        Snapshot (samplePage 0) (samplePage 5) pgsize [samplePage 6, samplePage 7, samplePage 8]
          (sampleMem (samplePage 6)) m' := by
  refine ⟨?_, ?_⟩
  · have hrun : (match uvmcopy (samplePage 0) (samplePage 5) pgsize (sampleMem (samplePage 6)) with
        | .ok (ok, _) => ok
        | .error _ => false) = true := by decide +kernel
    revert hrun
    cases uvmcopy (samplePage 0) (samplePage 5) pgsize (sampleMem (samplePage 6)) with
    | error e => exact nofun
    | ok x => exact fun hok => ⟨x.2, by rw [← hok]⟩
  · refine uvmcopy_snapshot sample_table.valid ((sampleParent_ok _).mono fun _ => LeafPte.valid)
      (fun _ hp => sample_apart hp (by decide)) sample_data ?_ ?_
    · refine (lookup_page ((sampleParent_ok _).mono fun _ => LeafPte.valid) (by decide) (P := (· ≠ none))).2 ?_
      intro v hv
      obtain rfl : v = 0 := Nat.lt_one_iff.1 hv
      exact nofun
    · exact (lookup_page sample_table.valid.tab (by decide) (P := (· = none))).2 fun _ _ => rfl

end

end Xv6.Vm
