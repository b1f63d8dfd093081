import Xv6.Vm.Code
import Xv6.Lib.Fail
import Xv6.Lib.Bag

/-!
# The free list

* `IsPage`: the pages the allocator manages; `page_count`: there are fewer than `2 ^ 15` of them.
* `FreeOk`: the free list, as the list of its pages.
* **`kalloc_cons`**, **`kfree_spec`**: the allocator takes the first page of the list and puts a page in
  front of it, and touches no other page.
-/

namespace Xv6.Vm

open Bytes Fail Bag

/-! ## Words of a page -/

def pte (d : Page) (i : ℕ) : ℕ := load d (8 * i) 8

theorem pte_store_same {d : Page} {i v : ℕ} (hi : i < 512) (hv : v < 2 ^ 64) :
    pte (store d (8 * i) 8 v) i = v := by
  rw [pte, load_store_same (by change _ ≤ 4096; omega)]
  exact Nat.mod_eq_of_lt hv

theorem pte_store_of_ne {d : Page} {i j v : ℕ} (h : j ≠ i) : pte (store d (8 * i) 8 v) j = pte d j :=
  load_store_of_disjoint (by omega)

@[simp] theorem pte_zero (i : ℕ) : pte (fun _ => 0) i = 0 := load_zero _ _

section Slots

variable {m : Mem} {p i : ℕ}

theorem pgRoundDown_slot (hp : p % pgsize = 0) (hi : i < 512) : pgRoundDown (slot p i) = p := by
  change (p + 8 * i) / 4096 * 4096 = p
  change p % 4096 = 0 at hp
  omega

theorem slot_mod (hp : p % pgsize = 0) (hi : i < 512) : slot p i % pgsize = 8 * i := by
  change (p + 8 * i) % 4096 = 8 * i
  change p % 4096 = 0 at hp
  omega

theorem word_slot (hp : p % pgsize = 0) (hi : i < 512) : m.word (slot p i) = pte (m.page p) i := by
  rw [Mem.word, pgRoundDown_slot hp hi, slot_mod hp hi, pte]

theorem setWord_slot (hp : p % pgsize = 0) (hi : i < 512) (v : ℕ) :
    m.setWord (slot p i) v = m.setPage p (store (m.page p) (8 * i) 8 v) := by
  rw [Mem.setWord, pgRoundDown_slot hp hi, slot_mod hp hi]

theorem word_page (hp : p % pgsize = 0) : m.word p = pte (m.page p) 0 :=
  word_slot (i := 0) hp (by omega)

theorem setWord_page (hp : p % pgsize = 0) (v : ℕ) :
    m.setWord p v = m.setPage p (store (m.page p) 0 8 v) :=
  setWord_slot (i := 0) hp (by omega) v

end Slots

@[simp] theorem page_setPage_same (m : Mem) (p : ℕ) (d : Page) : (m.setPage p d).page p = d :=
  Function.update_self ..

theorem page_setPage_of_ne {m : Mem} {p q : ℕ} {d : Page} (h : q ≠ p) :
    (m.setPage p d).page q = m.page q :=
  Function.update_of_ne h _ _

/-! ## Pages of the allocator -/

section

variable [Image]

def IsPage (p : ℕ) : Prop := p % pgsize = 0 ∧ Image.kend ≤ p ∧ p < phystop

theorem kernbase_le_kend : 0x80000000 ≤ Image.kend :=
  Image.kernbase_le.trans (Nat.le_of_lt Image.trampoline_lt)

theorem IsPage.ne_zero {p : ℕ} (h : IsPage p) : p ≠ 0 := by
  have := kernbase_le_kend.trans h.2.1
  omega

theorem IsPage.lt {p : ℕ} (h : IsPage p) : p < 2 ^ 32 := by
  have := h.2.2
  simp only [phystop] at this
  omega

theorem page_count {s : Multiset ℕ} (hn : s.Nodup) (hp : ∀ p ∈ s, IsPage p) : s.card ≤ 2 ^ 15 := by
  have hsub : s.toFinset.image (· / pgsize) ⊆ Finset.Ico 0x80000 0x88000 := by
    intro x hx
    obtain ⟨p, hps, hpx⟩ := Finset.mem_image.1 hx
    have h := hp p (Multiset.mem_toFinset.1 hps)
    have h₁ := kernbase_le_kend.trans h.2.1
    have h₂ := h.2.2
    rw [Finset.mem_Ico, ← hpx]
    simp only [phystop, pgsize] at h₂ ⊢
    omega
  have hinj : Set.InjOn (· / pgsize) (s.toFinset : Set ℕ) := by
    intro p hps q hqs he
    have h₁ := (hp p (Multiset.mem_toFinset.1 hps)).1
    have h₂ := (hp q (Multiset.mem_toFinset.1 hqs)).1
    simp only [pgsize] at he h₁ h₂
    omega
  calc s.card = s.toFinset.card := (Multiset.toFinset_card_of_nodup hn).symm
    _ = (s.toFinset.image (· / pgsize)).card := (Finset.card_image_of_injOn hinj).symm
    _ ≤ (Finset.Ico 0x80000 0x88000).card := Finset.card_le_card hsub
    _ = 2 ^ 15 := by simp

/-! ## The free list -/

/-- The pages `l` are linked from `a` on, and the last one ends the list. -/
def Linked (m : Mem) : ℕ → List ℕ → Prop
  | a, [] => a = 0
  | a, p :: l => a = p ∧ Linked m (m.word p) l

theorem Linked.frame {m m' : Mem} {a : ℕ} {l : List ℕ} (h : Linked m a l) (hp : ∀ p ∈ l, IsPage p)
    (hm : ∀ p ∈ l, m'.page p = m.page p) : Linked m' a l := by
  induction l generalizing a with
  | nil => exact h
  | cons p l ih =>
    have hword : m'.word p = m.word p := by
      rw [word_page (hp p List.mem_cons_self).1, word_page (hp p List.mem_cons_self).1,
        hm p List.mem_cons_self]
    refine ⟨h.1, ?_⟩
    rw [hword]
    exact ih h.2 (fun q hq => hp q (List.mem_cons_of_mem _ hq)) fun q hq => hm q (List.mem_cons_of_mem _ hq)

/-- **`kmem.freelist` is the list `l`.** -/
structure FreeOk (m : Mem) (l : List ℕ) : Prop where
  linked : Linked m m.freelist l
  pages : ∀ p ∈ l, IsPage p

theorem FreeOk.frame {m m' : Mem} {l : List ℕ} (h : FreeOk m l) (hf : m'.freelist = m.freelist)
    (hm : ∀ p ∈ l, m'.page p = m.page p) : FreeOk m' l :=
  ⟨hf ▸ h.linked.frame h.pages hm, h.pages⟩

theorem kalloc_cons {m : Mem} {p : ℕ} {l : List ℕ} (h : FreeOk m (p :: l)) (hn : (p :: l).Nodup) :
    ∃ m', kalloc m = .ok (p, m') ∧ FreeOk m' l ∧ ∀ q, q ≠ p → m'.page q = m.page q := by
  have hp := h.pages p List.mem_cons_self
  have hhead : m.freelist = p := h.linked.1
  refine ⟨{ m.fill p 5 with freelist := m.word p }, ?_, ?_, ?_⟩
  · rw [kalloc, hhead, if_neg hp.ne_zero]
  · refine ⟨?_, fun q hq => h.pages q (List.mem_cons_of_mem _ hq)⟩
    refine h.linked.2.frame (fun q hq => h.pages q (List.mem_cons_of_mem _ hq)) ?_
    intro q hq
    refine page_setPage_of_ne ?_
    intro hqp
    exact (List.nodup_cons.1 hn).1 (hqp ▸ hq)
  · intro q hq
    exact page_setPage_of_ne hq

theorem kalloc_zeros {m : Mem} {p : ℕ} {l : List ℕ} (h : FreeOk m (p :: l)) (hn : (p :: l).Nodup) :
    ∃ m', kalloc m = .ok (p, m') ∧ FreeOk (m'.fill p 0) l ∧ (∀ q, q ≠ p → (m'.fill p 0).page q = m.page q) ∧
      (m'.fill p 0).page p = fun _ => 0 := by
  obtain ⟨m', hk, hfree, hsame⟩ := kalloc_cons h hn
  refine ⟨m', hk, hfree.frame rfl fun q hq => page_setPage_of_ne ?_, fun q hq => ?_, page_setPage_same ..⟩
  · rintro rfl
    exact (List.nodup_cons.1 hn).1 hq
  · rw [Mem.fill, page_setPage_of_ne hq, hsame q hq]

theorem kalloc_nil {m : Mem} (h : FreeOk m []) : kalloc m = .ok (0, m) := by
  have h0 : m.freelist = 0 := h.linked
  rw [kalloc, if_pos h0]

theorem kfree_spec {m : Mem} {p : ℕ} {l : List ℕ} (h : FreeOk m l) (hp : IsPage p) (hn : p ∉ l) :
    ∃ m', kfree p m = .ok ((), m') ∧ FreeOk m' (p :: l) ∧ ∀ q, q ≠ p → m'.page q = m.page q := by
  have hcheck : ¬ (p % pgsize ≠ 0 ∨ p < Image.kend ∨ phystop ≤ p) := by
    have := hp
    simp only [IsPage] at this
    omega
  have hpage : ∀ q, q ≠ p → ((m.fill p 1).setWord p m.freelist).page q = m.page q := by
    intro q hq
    rw [setWord_page hp.1, page_setPage_of_ne hq]
    exact page_setPage_of_ne hq
  refine ⟨{ (m.fill p 1).setWord p m.freelist with freelist := p }, ?_, ⟨⟨rfl, ?_⟩, ?_⟩, hpage⟩
  · rw [kfree, if_neg hcheck]
    rfl
  · have hword : Mem.word { (m.fill p 1).setWord p m.freelist with freelist := p } p = m.freelist := by
      have hlt : m.freelist < 2 ^ 64 := by
        cases l with
        | nil =>
          have h0 : m.freelist = 0 := h.linked
          omega
        | cons q l =>
          have hq : m.freelist = q := h.linked.1
          have := (h.pages q List.mem_cons_self).lt
          omega
      change ((m.fill p 1).setWord p m.freelist).word p = m.freelist
      rw [setWord_page hp.1, word_page hp.1, page_setPage_same]
      exact pte_store_same (i := 0) (by omega) hlt
    rw [hword]
    refine h.linked.frame h.pages ?_
    intro q hq
    refine hpage q ?_
    intro hqp
    exact hn (hqp ▸ hq)
  · intro q hq
    rcases List.mem_cons.1 hq with hq | hq
    · exact hq ▸ hp
    · exact h.pages q hq

end

end Xv6.Vm
