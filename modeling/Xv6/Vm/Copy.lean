import Xv6.Vm.Process
import Xv6.Vm.Extend

/-!
# `uvmcopy` when memory runs out

The child's table has nothing mapped below the size that is copied; what it maps above does not matter.

* `Partway`: the state of the loop when `n` pages are copied. **`Partway.turn`**: the next turn copies a page, or
  goes to `err`.
* **`Partway.undo`**: `uvmunmap` at `err` takes everything back when `n` is not zero; `uvmunmap_none`: it
  panics when `n` is zero.
* **`uvmcopy_undone_iff`**: `uvmcopy` undoes itself just when there is room for the first page.
-/

namespace Xv6.Vm

open Function Bytes Fail Bag

section

variable [Image] {m m' m₀ : Mem} {l l' l₀ : List ℕ} {r va n old : ℕ} {T T' T₀ To : Tab} {W : ℕ → Prop}

/-! ## The loop -/

/-- **The first `n` pages are copied.** -/
abbrev Partway (m₀ : Mem) (l₀ : List ℕ) (r : ℕ) (T₀ : Tab) (n : ℕ) (m : Mem) (l : List ℕ) (T : Tab) : Prop :=
  Added (fun _ w _ => LeafPte w) LeafPte m₀ l₀ r T₀ 0 n m l T

/-- The child is as it was, but for page-table pages that map nothing; all other pages are free again. -/
def Undone (l₀ : List ℕ) (r : ℕ) (T₀ : Tab) (m : Mem) : Prop :=
  ∃ l T, Table m l r T ∧ T.leaf = T₀.leaf ∧ (l : Multiset ℕ) + T.nodes = l₀ + T₀.nodes

theorem copyLoop_nil {w : ℕ} (ho : TabOk m old To W) (hva : n * pgsize < maxva) (hw : To.leaf n = some w)
    (hvalid : Has w pteV) (hfree : FreeOk m []) (k : ℕ) :
    copyLoop old r (k + 1) (n * pgsize) m = (uvmunmap r 0 (n * pgsize) true >>= fun _ => pure false) m := by
  have hdiv : n * pgsize / pgsize = n := Nat.mul_div_cancel n (by decide)
  obtain ⟨q₀, -, hq₀, hwalk, hword⟩ := walk_mapped ho hva (hdiv.symm ▸ hw)
  rw [copyLoop, bind_ok hwalk, if_neg (slot_ne_zero hq₀ _), readWord_bind, hword,
    if_neg (not_not.2 hvalid), bind_ok (kalloc_nil hfree), if_pos rfl]

omit [Image] in
theorem copyPage_bind {α : Type} (dst src : ℕ) (f : Unit → MemM α) (m : Mem) :
    (copyPage dst src >>= f) m = f () (m.setPage dst (m.page src)) := rfl

theorem copyLoop_cons {w q : ℕ} (ho : TabOk m old To W) (hva : n * pgsize < maxva) (hw : To.leaf n = some w)
    (hvalid : Has w pteV) (hk : kalloc m = .ok (q, m')) (hq : q ≠ 0) (k : ℕ) :
    copyLoop old r (k + 1) (n * pgsize) m = mapOrFree r (n * pgsize) q (pteFlags w)
      (copyLoop old r k ((n + 1) * pgsize)) (uvmunmap r 0 (n * pgsize) true >>= fun _ => pure false)
      (m'.setPage q (m'.page (pte2pa w))) := by
  have hdiv : n * pgsize / pgsize = n := Nat.mul_div_cancel n (by decide)
  obtain ⟨q₀, -, hq₀, hwalk, hword⟩ := walk_mapped ho hva (hdiv.symm ▸ hw)
  rw [copyLoop, bind_ok hwalk, if_neg (slot_ne_zero hq₀ _), readWord_bind, hword,
    if_neg (not_not.2 hvalid), bind_ok hk, if_neg hq, copyPage_bind, mapOrFree, Nat.succ_mul]

/-- **One turn**: a page is copied, or the loop ends at `err` with the pages before it mapped. -/
theorem Partway.turn (h : Partway m₀ l₀ r T₀ n m l T) (ho : TabOk m₀ old To)
    (hdisj : ∀ p ∈ To.nodes, p ∉ (l₀ : Multiset ℕ) + T₀.nodes) (hva : n * pgsize < maxva) {w : ℕ}
    (hw : To.leaf n = some w) (hnone : T₀.leaf n = none) (k : ℕ) :
    (T.missing (n * pgsize) < l.length ∧ ∃ m' l' T', Partway m₀ l₀ r T₀ (n + 1) m' l' T' ∧
        copyLoop old r (k + 1) (n * pgsize) m = copyLoop old r k ((n + 1) * pgsize) m') ∨
      (l.length ≤ T.missing (n * pgsize) ∧ ∃ m' l' T', Partway m₀ l₀ r T₀ n m' l' T' ∧
        copyLoop old r (k + 1) (n * pgsize) m = (uvmunmap r 0 (n * pgsize) true >>= fun _ => pure false) m') := by
  have hold : TabOk m old To := ho.frame fun p hp => h.frame p (hdisj p hp)
  have hleaf := hold.word n w hw
  cases l with
  | nil => exact .inr ⟨Nat.zero_le _, m, [], T, h, copyLoop_nil hold hva hw hleaf.1 h.table.free k⟩
  | cons q l =>
    have hq := h.table.free.pages q List.mem_cons_self
    have hl : (q :: l).Nodup := h.table.nodup.left.nodup
    obtain ⟨m₁, hk, hfree₁, hsame₁⟩ := kalloc_cons h.table.free hl
    have hsame₂ : ∀ p, p ≠ q → (m₁.setPage q (m₁.page (pte2pa w))).page p = m.page p := by
      intro p hp
      rw [page_setPage_of_ne hp, hsame₁ p hp]
    have hfree₂ : FreeOk (m₁.setPage q (m₁.page (pte2pa w))) l := by
      refine hfree₁.frame rfl fun p hp => page_setPage_of_ne ?_
      rintro rfl
      exact (List.nodup_cons.1 hl).1 hp
    have hpte := leafPte_leafEntry hleaf.perm (by have := hq.lt; omega : q < 2 ^ 56)
    have hloop := copyLoop_cons (r := r) hold hva hw hleaf.1 hk hq.ne_zero k
    rcases Added.turn h hfree₂ hsame₂ n.zero_le hva hnone hleaf.perm.1 hpte.2.2 hpte hpte with
      ⟨hroom, m₃, l₃, T₃, hrun, h₃⟩ | ⟨hroom, m₃, T₃, hrun, h₃, -⟩
    · exact .inl ⟨Nat.lt_succ_of_le hroom, m₃, l₃, T₃, h₃, hloop.trans (hrun _ _)⟩
    · exact .inr ⟨hroom, m₃, [q], T₃, h₃, hloop.trans (hrun _ _)⟩

/-! ## The end at `err` -/

/-- **At least one page was copied**: `uvmunmap` frees the copies. -/
theorem Partway.undo (h : Partway m₀ l₀ r T₀ (n + 1) m l T) (hva : n * pgsize < maxva)
    (hnone : ∀ v < n + 1, T₀.leaf v = none) :
    Yields (uvmunmap r 0 ((n + 1) * pgsize) true) m fun _ m' => Undone l₀ r T₀ m' := by
  have hrange : uvmunmap r 0 ((n + 1) * pgsize) true = unmapLoop r true n (0 * pgsize) := by
    have hpos : 0 < (n + 1) * pgsize := Nat.mul_pos n.succ_pos (by decide)
    have hle : 0 * pgsize + (n + 1) * pgsize ≤ maxva := by
      simp only [pgsize, maxva] at *
      omega
    have heq := uvmunmap_eq (r := r) hpos hle true
    have hlast : ((n + 1) * pgsize - 1) / pgsize = n := by
      simp only [pgsize]
      omega
    rw [hlast, Nat.zero_mul] at heq
    rw [heq, Nat.zero_mul]
  rw [← Nat.zero_add (n + 1)] at h hnone
  rw [hrange]
  refine Yields.mono (Added.undo h (by rwa [Nat.zero_add]) (fun _ _ _ hw => ⟨hw.1, hw.flags_ne⟩)
    fun v _ hv => hnone v hv) ?_
  rintro - m' ⟨l', h', hbal, -⟩
  exact ⟨l', _, h', rfl, hbal⟩

/-- **No page was copied**: the range of `uvmunmap` is empty, and it takes it for all of memory. -/
theorem uvmunmap_none (h : TabOk m r T) (hnone : T.leaf 0 = none) : ∃ e, uvmunmap r 0 0 true m = .error e := by
  have herr := unmapLoop_error h (show 0 * pgsize < maxva by decide) hnone true (turns 0 (lastPage 0 0))
  rwa [Nat.zero_mul] at herr

omit [Image] in
theorem page_lt {a b : ℕ} (hab : a ≤ b) (h : b * pgsize < maxva) : a * pgsize < maxva :=
  (Nat.mul_le_mul_right _ hab).trans_lt h

/-- **The loop after the first page**: it copies the other pages, or takes everything back. -/
theorem Partway.finish (ho : TabOk m₀ old To)
    (hdisj : ∀ p ∈ To.nodes, p ∉ (l₀ : Multiset ℕ) + T₀.nodes) (k : ℕ)
    {m : Mem} {l : List ℕ} {T : Tab} {n : ℕ} (h : Partway m₀ l₀ r T₀ (n + 1) m l T)
    (hva : (n + k) * pgsize < maxva) (hmap : ∀ v < n + 1 + k, To.leaf v ≠ none)
    (hnone : ∀ v < n + 1 + k, T₀.leaf v = none) :
    Yields (copyLoop old r k ((n + 1) * pgsize)) m fun ok m' =>
      (ok = true ∧ ∃ l' T', Partway m₀ l₀ r T₀ (n + 1 + k) m' l' T') ∨ (ok = false ∧ Undone l₀ r T₀ m') := by
  induction k generalizing m l T n with
  | zero => exact Yields.pure (.inl ⟨rfl, l, T, h⟩)
  | succ k ih =>
    obtain ⟨w, hw⟩ := Option.ne_none_iff_exists'.1 (hmap (n + 1) (by omega))
    have hlt : (n + 1) * pgsize < maxva := page_lt (by omega) hva
    rcases h.turn ho hdisj hlt hw (hnone _ (by omega)) k with
      ⟨-, m₁, l₁, T₁, h₁, hrun⟩ | ⟨-, m₁, l₁, T₁, h₁, hrun⟩
    · have hcount : n + 1 + 1 + k = n + 1 + (k + 1) := by omega
      rw [Yields, hrun, ← hcount]
      rw [← hcount] at hmap hnone
      have hrest : n + 1 + k = n + (k + 1) := by omega
      have hva₁ : (n + 1 + k) * pgsize < maxva := page_lt hrest.le hva
      exact ih h₁ hva₁ hmap hnone
    · rw [Yields, hrun]
      have hn : n * pgsize < maxva := page_lt (by omega) hva
      refine Yields.bind (h₁.undo hn fun v hv => hnone v (by omega)) ?_
      intro _ m' hundone
      exact Yields.pure (.inr ⟨rfl, hundone⟩)

/-! ## The whole call -/

theorem mapsTo_page {sz : ℕ} (h : TabOk m r T) (hsz : sz ≤ maxva) :
    (∀ va < sz, ∃ a, MapsTo m r va a) ↔ ∀ v < npages sz, T.leaf v ≠ none := by
  constructor
  · intro hmap v hv
    have hva : v * pgsize < sz := by
      simp only [npages, pgsize] at *
      omega
    obtain ⟨a, ha⟩ := hmap _ hva
    rw [mapsTo_iff h (hva.trans_le hsz), Nat.mul_div_cancel v (by decide)] at ha
    intro hnone
    rw [Tab.pa, hnone] at ha
    cases ha
  · intro hmap va hva
    have hv : va / pgsize < npages sz := by
      simp only [npages, pgsize]
      omega
    obtain ⟨w, hw⟩ := Option.ne_none_iff_exists'.1 (hmap _ hv)
    exact ⟨pte2pa w, (mapsTo_iff h (hva.trans_le hsz)).2 (Tab.pa_of_leaf hw)⟩

theorem not_mapsTo_page {sz : ℕ} (h : TabOk m r T) (hsz : sz ≤ maxva) :
    (∀ va < sz, ∀ a, ¬ MapsTo m r va a) ↔ ∀ v < npages sz, T.leaf v = none := by
  constructor
  · intro hmap v hv
    have hva : v * pgsize < sz := by
      simp only [npages, pgsize] at *
      omega
    by_contra hne
    obtain ⟨w, hw⟩ := Option.ne_none_iff_exists'.1 hne
    refine hmap _ hva (pte2pa w) ((mapsTo_iff h (hva.trans_le hsz)).2 ?_)
    rw [Nat.mul_div_cancel v (by decide)]
    exact Tab.pa_of_leaf hw
  · intro hmap va hva a ha
    have hv : va / pgsize < npages sz := by
      simp only [npages, pgsize]
      omega
    rw [mapsTo_iff h (hva.trans_le hsz), Tab.pa, hmap _ hv] at ha
    cases ha

omit [Image] in
theorem MapsTo.lt {a : ℕ} (h : MapsTo m r va a) : va < maxva := by
  obtain ⟨pte, hwalk, -⟩ := h
  by_contra hva
  rw [walk, if_pos (Nat.le_of_not_lt hva)] at hwalk
  cases hwalk

/-- **What `uvmcopy` is to do**: it returns with every page copied, or it returns `-1` and the child maps nothing
below `sz`, and every page taken for a copy is free again. -/
def CopiesOrUndoes (old r sz : ℕ) (l : List ℕ) (T : Tab) (m : Mem) : Prop :=
  Yields (uvmcopy old r sz) m fun ok m' =>
    (ok = true ∧ ∀ va < sz, ∃ a, MapsTo m' r va a) ∨
      (ok = false ∧ (∀ va < sz, ∀ a, ¬ MapsTo m' r va a) ∧ Undone l r T m')

/-- **`uvmcopy` copies or undoes itself just when there is room for the first page** and the page-table pages that
the child lacks for it, or nothing to copy. -/
theorem uvmcopy_undone_iff {sz : ℕ} (h : Table m l r T) (ho : TabOk m old To)
    (hdisj : ∀ p ∈ To.nodes, p ∉ (l : Multiset ℕ) + T.nodes) (hmap : ∀ va < sz, ∃ a, MapsTo m old va a)
    (hnone : ∀ va < sz, ∀ a, ¬ MapsTo m r va a) :
    CopiesOrUndoes old r sz l T m ↔ sz = 0 ∨ T.missing 0 < l.length := by
  rcases Nat.eq_zero_or_pos sz with rfl | hpos
  · refine iff_of_true ?_ (.inl rfl)
    exact ⟨true, m, rfl, .inl ⟨rfl, fun va hva => absurd hva va.not_lt_zero⟩⟩
  have hsz : sz ≤ maxva := by
    obtain ⟨a, ha⟩ := hmap (sz - 1) (by omega)
    have hlt := ha.lt
    omega
  rw [mapsTo_page ho hsz] at hmap
  rw [not_mapsTo_page h.tab hsz] at hnone
  obtain ⟨k, hk⟩ : ∃ k, npages sz = k + 1 := by
    refine ⟨(sz - 1) / pgsize, ?_⟩
    simp only [npages, pgsize]
    omega
  have hcall : uvmcopy old r sz m = copyLoop old r (k + 1) (0 * pgsize) m := by
    rw [uvmcopy, Nat.zero_mul, ← hk]
    rfl
  have hkva : (0 + k) * pgsize < maxva := by
    simp only [npages, pgsize, maxva] at *
    omega
  have hcount : 0 + 1 + k = npages sz := by omega
  obtain ⟨w, hw⟩ := Option.ne_none_iff_exists'.1 (hmap 0 (by omega))
  rcases Partway.turn (Added.refl h 0) ho hdisj (by decide) hw (hnone 0 (by omega)) k with
    ⟨hroom, m₁, l₁, T₁, h₁, hrun⟩ | ⟨hroom, m₁, l₁, T₁, h₁, hrun⟩
  · rw [Nat.zero_mul] at hroom
    refine iff_of_true ?_ (.inr hroom)
    rw [CopiesOrUndoes, Yields, hcall, hrun]
    rw [← hcount] at hmap hnone
    refine Yields.mono (h₁.finish ho hdisj k hkva hmap hnone) ?_
    rw [hcount] at hnone
    rintro ok m' (⟨hok, l', T', h'⟩ | ⟨hok, hundone⟩)
    · refine .inl ⟨hok, (mapsTo_page h'.table.tab hsz).2 fun v hv => ?_⟩
      obtain ⟨w', hw', -⟩ := h'.mapped v v.zero_le (by omega)
      rw [hw']
      simp
    · refine .inr ⟨hok, ?_, hundone⟩
      obtain ⟨l', T', h', hleaf, -⟩ := hundone
      rw [not_mapsTo_page h'.tab hsz, hleaf]
      exact hnone
  · rw [Nat.zero_mul] at hroom
    refine iff_of_false ?_ (by omega)
    obtain ⟨e, he⟩ := uvmunmap_none h₁.table.tab ((h₁.rest 0 (by simp)).trans (hnone 0 (by omega)))
    rintro ⟨ok, m', hret, -⟩
    rw [hcall, hrun, Nat.zero_mul, bind_error he] at hret
    cases hret

end

/-! ## A parent of two pages -/

abbrev Image.least : Image where
  trampoline := 0x80000000
  kend := 0x80001000
  trampoline_page := by decide
  trampoline_lt := by decide
  kernbase_le := by decide
  kend_le := by decide

def samplePage (k : ℕ) : ℕ := 0x80001000 + pgsize * k

def sampleLeaf (k : ℕ) : ℕ := pa2pte (samplePage k) ||| userPerm ||| pteV

/-- Page `0` is the root of the parent's table, pages `1` and `2` the tables below it, pages `3` and `4` its
memory. Page `5` is the root of the child's table. Pages `6`, `7` and `8` are linked. -/
def sampleMem (freelist : ℕ) : Mem where
  page p :=
    if p = samplePage 0 then store (fun _ => 0) 0 8 (dirEntry (some (samplePage 1)))
    else if p = samplePage 1 then store (fun _ => 0) 0 8 (dirEntry (some (samplePage 2)))
    else if p = samplePage 2 then store (store (fun _ => 0) 0 8 (sampleLeaf 3)) 8 8 (sampleLeaf 4)
    else if p = samplePage 6 then store (fun _ => 1) 0 8 (samplePage 7)
    else if p = samplePage 7 then store (fun _ => 1) 0 8 (samplePage 8)
    else fun _ => 0
  freelist := freelist

def sampleParent : Tab where
  node
    | .root => some (samplePage 0)
    | .mid i => if i = 0 then some (samplePage 1) else none
    | .bot x => if x = 0 then some (samplePage 2) else none
  leaf v := if v = 0 then some (sampleLeaf 3) else if v = 1 then some (sampleLeaf 4) else none

section

attribute [local instance] Image.least

theorem isPage_sample {k : ℕ} (hk : k < 64) : IsPage (samplePage k) := by
  simp only [IsPage, samplePage, pgsize, phystop, Image.kend]
  omega

theorem leafPte_sample {k : ℕ} (hk : k < 64) : LeafPte (sampleLeaf k) := by
  have := (isPage_sample hk).lt
  exact leafPte_leafEntry perm_userPerm (by omega)

theorem sampleParent_ok (a : ℕ) : TabOk (sampleMem a) (samplePage 0) sampleParent where
  root := rfl
  entries := by
    intro n p hn i hi
    cases n with
    | root =>
      cases hn
      change pte (store (fun _ => 0) (8 * 0) 8 (dirEntry (some (samplePage 1)))) i =
        dirEntry (if i = 0 then some (samplePage 1) else none)
      by_cases h0 : i = 0
      · rw [h0, if_pos rfl, pte_store_same (by decide) (by decide)]
      · rw [if_neg h0, pte_store_of_ne h0, pte_zero]
        rfl
    | mid j =>
      simp only [sampleParent] at hn
      split_ifs at hn with hj
      cases hn
      rw [hj]
      change pte (store (fun _ => 0) (8 * 0) 8 (dirEntry (some (samplePage 2)))) i =
        dirEntry (if 512 * 0 + i = 0 then some (samplePage 2) else none)
      by_cases h0 : i = 0
      · rw [h0, if_pos rfl, pte_store_same (by decide) (by decide)]
      · rw [if_neg (by omega), pte_store_of_ne h0, pte_zero]
        rfl
    | bot x =>
      simp only [sampleParent] at hn
      split_ifs at hn with hx
      cases hn
      rw [hx]
      change pte (store (store (fun _ => 0) (8 * 0) 8 (sampleLeaf 3)) (8 * 1) 8 (sampleLeaf 4)) i =
        (if 512 * 0 + i = 0 then some (sampleLeaf 3)
          else if 512 * 0 + i = 1 then some (sampleLeaf 4) else none).getD 0
      by_cases h1 : i = 1
      · rw [h1, pte_store_same (by decide) (leafPte_sample (by decide)).2.2]
        rfl
      · rw [pte_store_of_ne h1]
        by_cases h0 : i = 0
        · rw [h0, pte_store_same (by decide) (leafPte_sample (by decide)).2.2]
          rfl
        · rw [if_neg (by omega), if_neg (by omega), pte_store_of_ne h0, pte_zero]
          rfl
  mid_lt := by
    intro i hi
    simp only [sampleParent] at hi
    split_ifs at hi with h
    · omega
    · exact absurd rfl hi
  bot_up := by
    intro x hx
    simp only [sampleParent] at hx ⊢
    split_ifs at hx with h
    · simp [h]
    · exact absurd rfl hx
  leaf_up := by
    intro v hv
    simp only [sampleParent] at hv ⊢
    split_ifs at hv with h0 h1
    · simp [h0]
    · simp [h1]
    · exact absurd rfl hv
  word := by
    intro v w hw
    simp only [sampleParent] at hw
    split_ifs at hw with h0 h1
    · cases hw
      exact leafPte_sample (by decide)
    · cases hw
      exact leafPte_sample (by decide)
  pages := by
    intro n p hn
    cases n with
    | root =>
      cases hn
      exact isPage_sample (by decide)
    | mid i =>
      simp only [sampleParent] at hn
      split_ifs at hn
      cases hn
      exact isPage_sample (by decide)
    | bot x =>
      simp only [sampleParent] at hn
      split_ifs at hn
      cases hn
      exact isPage_sample (by decide)

theorem sampleChild_ok (a : ℕ) : TabOk (sampleMem a) (samplePage 5) (Tab.rootOnly (samplePage 5)) := by
  refine tabOk_rootOnly (isPage_sample (by decide)) ?_
  simp [sampleMem, samplePage]

theorem sample_nodes_eq : sampleParent.nodes = {samplePage 2, samplePage 1, samplePage 0} := by
  have hnode : sampleParent.node = update (update (Tab.rootOnly (samplePage 0)).node (.mid 0)
      (some (samplePage 1))) (.bot 0) (some (samplePage 2)) := by
    funext n
    cases n with
    | root => rfl
    | mid i =>
      by_cases hi : i = 0
      · subst hi
        rfl
      · rw [update_of_ne (by simp), update_of_ne (by simpa using hi)]
        exact if_neg hi
    | bot x =>
      by_cases hx : x = 0
      · subst hx
        rfl
      · rw [update_of_ne (by simpa using hx), update_of_ne (by simp)]
        exact if_neg hx
  have hbot : (update (Tab.rootOnly (samplePage 0)).node (.mid 0) (some (samplePage 1))) (.bot 0) = none := by
    rw [update_of_ne (by simp)]
    exact node_rootOnly_of_ne (by simp)
  rw [Tab.nodes, hnode, bag_put (bot_mem (by decide)) hbot, bag_put (mid_mem (by decide)) (node_rootOnly_of_ne (by simp)),
    ← Tab.nodes, nodes_rootOnly]
  rfl

theorem sample_nodes {p : ℕ} (hp : p ∈ sampleParent.nodes) : ∃ k < 3, p = samplePage k := by
  rw [sample_nodes_eq] at hp
  simp only [Multiset.insert_eq_cons, Multiset.mem_cons, Multiset.mem_singleton] at hp
  rcases hp with rfl | rfl | rfl
  exacts [⟨2, by decide, rfl⟩, ⟨1, by decide, rfl⟩, ⟨0, by decide, rfl⟩]

theorem sample_leaf {v w : ℕ} (hw : sampleParent.leaf v = some w) :
    pte2pa w = samplePage 3 ∨ pte2pa w = samplePage 4 := by
  simp only [sampleParent] at hw
  split_ifs at hw
  · cases hw
    exact .inl (by decide)
  · cases hw
    exact .inr (by decide)

theorem sample_leaf_notMem {v w : ℕ} (hw : sampleParent.leaf v = some w) : pte2pa w ∉ sampleParent.nodes := by
  intro hin
  obtain ⟨k, hk, he⟩ := sample_nodes hin
  have hpage := sample_leaf hw
  rw [he] at hpage
  simp only [samplePage, pgsize] at hpage
  omega

theorem sample_apart {p : ℕ} (hp : p ∈ sampleParent.nodes) {l : List ℕ} (hl : ∀ k < 3, samplePage k ∉ l) :
    p ∉ (l : Multiset ℕ) + (Tab.rootOnly (samplePage 5)).nodes := by
  obtain ⟨k, hk, rfl⟩ := sample_nodes hp
  rw [nodes_rootOnly]
  intro hmem
  rcases Multiset.mem_add.1 hmem with hmem | hmem
  · exact hl k hk (Multiset.mem_coe.1 hmem)
  · have he := Multiset.mem_singleton.1 hmem
    simp only [samplePage, pgsize] at he
    omega

theorem sample_mapped (a : ℕ) {sz : ℕ} (hsz : sz ≤ 2 * pgsize) :
    ∀ va < sz, ∃ p, MapsTo (sampleMem a) (samplePage 0) va p := by
  refine (mapsTo_page (sampleParent_ok a) ?_).2 fun v hv => ?_
  · simp only [pgsize, maxva] at *
    omega
  · have hv2 : v = 0 ∨ v = 1 := by
      simp only [npages, pgsize] at *
      omega
    rcases hv2 with rfl | rfl <;> simp [sampleParent]

theorem sample_unmapped (a : ℕ) {sz : ℕ} (hsz : sz ≤ 2 * pgsize) :
    ∀ va < sz, ∀ p, ¬ MapsTo (sampleMem a) (samplePage 5) va p := by
  refine (not_mapsTo_page (sampleChild_ok a) ?_).2 fun _ _ => rfl
  simp only [pgsize, maxva] at *
  omega

theorem sample_free : FreeOk (sampleMem (samplePage 6)) [samplePage 6, samplePage 7, samplePage 8] := by
  refine ⟨⟨rfl, ?_, ?_, ?_⟩, ?_⟩
  · decide +kernel
  · decide +kernel
  · show (sampleMem (samplePage 6)).word (samplePage 8) = 0
    decide +kernel
  · intro p hp
    simp only [List.mem_cons, List.not_mem_nil, or_false] at hp
    rcases hp with rfl | rfl | rfl <;> exact isPage_sample (by decide)

theorem sample_table : Table (sampleMem (samplePage 6)) [samplePage 6, samplePage 7, samplePage 8] (samplePage 5)
    (Tab.rootOnly (samplePage 5)) := by
  refine ⟨sample_free, sampleChild_ok _, ⟨?_⟩⟩
  rw [nodes_rootOnly]
  decide +kernel

theorem sample_table_nil : Table (sampleMem 0) [] (samplePage 5) (Tab.rootOnly (samplePage 5)) := by
  refine ⟨⟨rfl, fun p hp => absurd hp List.not_mem_nil⟩, sampleChild_ok _, ⟨?_⟩⟩
  rw [nodes_rootOnly]
  decide +kernel

/-- The first page is copied, the second is not, and everything is undone. -/
theorem uvmcopy_undone_second :
    CopiesOrUndoes (samplePage 0) (samplePage 5) (2 * pgsize) [samplePage 6, samplePage 7, samplePage 8]
        (Tab.rootOnly (samplePage 5)) (sampleMem (samplePage 6)) ↔
      2 * pgsize = 0 ∨ (Tab.rootOnly (samplePage 5)).missing 0 < 3 :=
  uvmcopy_undone_iff sample_table (sampleParent_ok _)
    (fun _ hp => sample_apart hp (by decide)) (sample_mapped _ le_rfl) (sample_unmapped _ le_rfl)

/-- **No free page at all**: all that is asked of the tables holds, and `uvmcopy` panics. -/
theorem uvmcopy_panics :
    Table (sampleMem 0) [] (samplePage 5) (Tab.rootOnly (samplePage 5)) ∧
      (∀ va < pgsize, ∃ a, MapsTo (sampleMem 0) (samplePage 0) va a) ∧
      (∀ va < pgsize, ∀ a, ¬ MapsTo (sampleMem 0) (samplePage 5) va a) ∧
      ∃ e, uvmcopy (samplePage 0) (samplePage 5) pgsize (sampleMem 0) = .error e := by
  refine ⟨sample_table_nil, sample_mapped _ (by decide), sample_unmapped _ (by decide), ?_⟩
  have hcall : uvmcopy (samplePage 0) (samplePage 5) pgsize (sampleMem 0) =
      copyLoop (samplePage 0) (samplePage 5) (0 + 1) (0 * pgsize) (sampleMem 0) := rfl
  have hva : 0 * pgsize < maxva := by decide
  have hapart : ∀ p ∈ sampleParent.nodes, p ∉ (([] : List ℕ) : Multiset ℕ) + (Tab.rootOnly (samplePage 5)).nodes :=
    fun _ hp => sample_apart hp (by decide)
  have hturn := Partway.turn (Added.refl sample_table_nil 0) (sampleParent_ok 0) hapart hva (w := sampleLeaf 3) rfl rfl 0
  rcases hturn with ⟨hroom, -⟩ | ⟨-, m₁, l₁, T₁, h₁, hrun⟩
  · exact absurd hroom (Nat.not_lt_zero _)
  · obtain ⟨e, he⟩ := uvmunmap_none h₁.table.tab (h₁.rest 0 (by simp))
    refine ⟨e, ?_⟩
    rw [hcall, hrun, Nat.zero_mul, bind_error he]

/-! ## The parent as an address space -/

theorem sample_user_eq : sampleParent.user = {samplePage 4, samplePage 3} := by
  have hpa : sampleParent.pa =
      update (update (fun _ => none) 0 (some (samplePage 3))) 1 (some (samplePage 4)) := by
    funext v
    by_cases hv : v = 1
    · subst hv
      decide +kernel
    · by_cases hv0 : v = 0
      · subst hv0
        decide +kernel
      · rw [update_of_ne hv, update_of_ne hv0, Tab.pa]
        simp [sampleParent, hv, hv0]
  have hmem : ∀ v < 2, v ∈ userPages := fun v hv => mem_userPages.2 (hv.trans (by decide))
  rw [Tab.user, hpa, bag_put (hmem 1 (by decide)) rfl, bag_put (hmem 0 (by decide)) rfl, bag_none fun _ _ => rfl]
  rfl

theorem sample_space :
    Space (sampleMem (samplePage 6)) [samplePage 6, samplePage 7, samplePage 8] (samplePage 0) sampleParent 2 where
  free := sample_free
  tab := sampleParent_ok _
  nodup := by
    rw [sample_nodes_eq, sample_user_eq]
    exact ⟨by decide +kernel⟩
  mapped := by
    intro v _
    simp only [sampleParent]
    split_ifs with h0 h1
    · exact iff_of_true nofun (by omega)
    · exact iff_of_true nofun (by omega)
    · exact iff_of_false (fun hc => hc rfl) (by omega)
  pages := by
    intro v w _ hw
    rcases sample_leaf hw with he | he
    · rw [he]
      exact isPage_sample (by decide)
    · rw [he]
      exact isPage_sample (by decide)
  top := by
    intro v w hv hw
    simp only [sampleParent] at hw
    split_ifs at hw with h0 h1
    · exact absurd (h0 ▸ hv) (by decide)
    · exact absurd (h1 ▸ hv) (by decide)

end

end Xv6.Vm
