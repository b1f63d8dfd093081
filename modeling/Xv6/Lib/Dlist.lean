import Mathlib

/-!
# Circular lists that share their nodes

Several circular doubly linked lists over one memory of nodes, each through a head of its own. A
node is taken out of its list without naming the list.

* `Links`, `remove`, `push`: the pointers and the usual pointer assignments.
* `Ring r h l`: from the head `h`, `next` passes the nodes of `l` and comes back to `h`, and `prev`
  goes back the same way. **`Ring.remove`**, **`Ring.push`**.
* `Family r K h l`: one ring for each `k ∈ K`, no two with a node in common. **`Family.remove`**,
  **`Family.push`**, **`Family.congr`**: what one assignment does to all of them.
-/

namespace Dlist

open Function

variable {β κ : Type*}

structure Links (β : Type*) where
  next : β → β
  prev : β → β

namespace Links

def remove [DecidableEq β] (r : Links β) (e : β) : Links β :=
  let r := { r with next := update r.next (r.prev e) (r.next e) }
  { r with prev := update r.prev (r.next e) (r.prev e) }

def push [DecidableEq β] (r : Links β) (h p : β) : Links β :=
  let r := { r with next := update r.next p (r.next h) }
  let r := { r with prev := update r.prev p h }
  let r := { r with prev := update r.prev (r.next h) p }
  { r with next := update r.next h p }

def Adj (r : Links β) (x y : β) : Prop := r.next x = y ∧ r.prev y = x

end Links

/-- **The list `l` around the head `h`.** -/
structure Ring (r : Links β) (h : β) (l : List β) : Prop where
  chain : (h :: (l ++ [h])).IsChain r.Adj
  nodup : (h :: l).Nodup

variable {r r' : Links β} {h e p : β} {l : List β}

theorem isChain_congr {c : List β} (hc : c.IsChain r.Adj)
    (hn : ∀ x ∈ c.dropLast, r'.next x = r.next x) (hp : ∀ x ∈ c.tail, r'.prev x = r.prev x) :
    c.IsChain r'.Adj := by
  induction c with
  | nil => exact .nil
  | cons x c ih =>
    cases c with
    | nil => exact .singleton x
    | cons y c =>
      obtain ⟨hxy, hc⟩ := List.isChain_cons_cons.1 hc
      refine List.isChain_cons_cons.2 ⟨⟨?_, ?_⟩, ih hc (fun z hz => ?_) fun z hz => ?_⟩
      · rw [hn x (by simp)]
        exact hxy.1
      · rw [hp y (by simp)]
        exact hxy.2
      · exact hn z (by rw [List.dropLast_cons_cons]; exact List.mem_cons_of_mem x hz)
      · exact hp z (List.mem_cons_of_mem y hz)

/-! ## One ring -/

theorem Ring.congr (hr : Ring r h l) (hn : ∀ x ∈ h :: l, r'.next x = r.next x)
    (hp : ∀ x ∈ h :: l, r'.prev x = r.prev x) : Ring r' h l := by
  refine ⟨isChain_congr hr.chain (fun x hx => hn x ?_) fun x hx => hp x ?_, hr.nodup⟩
  · rwa [← List.cons_append, List.dropLast_concat] at hx
  · rw [List.tail_cons, List.mem_append, List.mem_singleton] at hx
    rw [List.mem_cons]
    exact hx.symm

theorem Ring.next_head (hr : Ring r h (p :: l)) : r.next h = p :=
  (List.isChain_cons_cons.1 hr.chain).1.1

theorem Ring.next_eq_iff (hr : Ring r h l) : r.next h = h ↔ l = [] := by
  cases l with
  | nil =>
    refine iff_of_true ?_ rfl
    exact (List.isChain_pair.1 hr.chain).1
  | cons p l =>
    rw [hr.next_head]
    have hne := (List.nodup_cons.1 hr.nodup).1
    refine iff_of_false (fun heq => hne ?_) (List.cons_ne_nil p l)
    rw [heq]
    exact List.mem_cons_self

theorem Ring.split (hr : Ring r h l) (he : e ∈ l) : ∃ c₁ x y c₂,
    h :: (l ++ [h]) = c₁ ++ x :: e :: y :: c₂ ∧
      ∀ [DecidableEq β], h :: (l.erase e ++ [h]) = c₁ ++ x :: y :: c₂ := by
  obtain ⟨l₁, l₂, rfl⟩ := List.append_of_mem he
  have he₁ : e ∉ l₁ := fun hmem =>
    (List.nodup_append.1 (List.nodup_cons.1 hr.nodup).2).2.2 e hmem e List.mem_cons_self rfl
  obtain ⟨c₁, x, hx⟩ : ∃ c₁ x, h :: l₁ = c₁ ++ [x] :=
    ⟨_, _, (List.dropLast_append_getLast (List.cons_ne_nil h l₁)).symm⟩
  obtain ⟨y, c₂, hy⟩ : ∃ y c₂, l₂ ++ [h] = y :: c₂ := List.exists_cons_of_ne_nil (by simp)
  refine ⟨c₁, x, y, c₂, ?_, ?_⟩
  · rw [List.append_assoc, List.cons_append, hy, ← List.cons_append, hx, List.append_assoc,
      List.singleton_append]
  · intro _
    rw [List.erase_append_right _ he₁, List.erase_cons_head, List.append_assoc, hy,
      ← List.cons_append, hx, List.append_assoc, List.singleton_append]

theorem Ring.nodup_dropLast (hr : Ring r h l) : (h :: (l ++ [h])).dropLast.Nodup := by
  rw [← List.cons_append, List.dropLast_concat]
  exact hr.nodup

theorem Ring.nodup_tail (hr : Ring r h l) : (h :: (l ++ [h])).tail.Nodup := by
  rw [List.tail_cons]
  exact (List.perm_append_singleton h l).nodup_iff.2 hr.nodup

theorem Ring.ne_neighbours (hr : Ring r h l) (he : e ∈ l) : e ≠ r.prev e ∧ e ≠ r.next e := by
  obtain ⟨c₁, x, y, c₂, hc, -⟩ := hr.split he
  have hfst := hr.nodup_dropLast
  have hsnd := hr.nodup_tail
  have hchain := hr.chain
  rw [hc, List.dropLast_append_of_ne_nil (by simp)] at hfst
  rw [hc, List.append_cons, List.tail_append_of_ne_nil (by simp)] at hsnd
  rw [hc] at hchain
  obtain ⟨-, hxe, h₂⟩ := List.isChain_append_cons_cons.1 hchain
  rw [hxe.2, (List.isChain_cons_cons.1 h₂).1.1]
  constructor
  · intro heq
    simp [List.nodup_append, heq] at hfst
  · intro heq
    simp [List.nodup_append, heq] at hsnd

section

variable [DecidableEq β]

theorem Ring.remove_eq (hr : Ring r h l) (he : e ∈ l) : ∃ x ∈ h :: l, ∃ y ∈ h :: l,
    (r.remove e).next = update r.next x y ∧
      (r.remove e).prev = update r.prev y x ∧
        Ring (r.remove e) h (l.erase e) := by
  obtain ⟨c₁, x, y, c₂, hc, hc'⟩ := hr.split he
  have hfst := hr.nodup_dropLast
  have hsnd := hr.nodup_tail
  have hchain := hr.chain
  have hmem : ∀ z ∈ c₁ ++ x :: e :: y :: c₂, z ∈ h :: l := fun z hz => by
    rw [← hc] at hz
    simp only [List.mem_cons, List.mem_append, List.not_mem_nil] at hz ⊢
    tauto
  rw [hc, List.dropLast_append_of_ne_nil (by simp)] at hfst
  rw [hc, List.append_cons, List.tail_append_of_ne_nil (by simp)] at hsnd
  rw [hc] at hchain
  obtain ⟨h₁, hxe, h₂⟩ := List.isChain_append_cons_cons.1 hchain
  obtain ⟨hey, h₂⟩ := List.isChain_cons_cons.1 h₂
  have hxe' : e ≠ x := hxe.2 ▸ (hr.ne_neighbours he).1
  have hnext : (r.remove e).next = update r.next x y := by
    simp [Links.remove, hey.1, hxe.2]
  have hprev : (r.remove e).prev = update r.prev y x := by
    simp [Links.remove, hey.1, hxe.2, update_of_ne hxe']
  refine ⟨x, hmem x (by simp), y, hmem y (by simp), hnext, hprev, ?_,
    hr.nodup.sublist ((List.erase_sublist).cons_cons h)⟩
  rw [hc', List.isChain_append_cons_cons]
  refine ⟨isChain_congr h₁ (fun z hz => ?_) fun z hz => ?_, ⟨?_, ?_⟩,
    isChain_congr h₂ (fun z hz => ?_) fun z hz => ?_⟩
  · rw [List.dropLast_concat] at hz
    rw [hnext, update_of_ne]
    rintro rfl
    exact (List.nodup_append.1 hfst).2.2 z hz z (by simp) rfl
  · rw [hprev, update_of_ne]
    rintro rfl
    exact (List.nodup_append.1 hsnd).2.2 z hz z (by simp) rfl
  · rw [hnext, update_self]
  · rw [hprev, update_self]
  · rw [hnext, update_of_ne]
    rintro rfl
    have := (List.nodup_cons.1 (List.nodup_append.1 hfst).2.1).1
    exact this (List.mem_cons_of_mem _ hz)
  · rw [hprev, update_of_ne]
    rintro rfl
    have := (List.nodup_cons.1 (List.nodup_cons.1 (List.nodup_append.1 hsnd).2.1).2).1
    exact this hz

theorem Ring.remove (hr : Ring r h l) (he : e ∈ l) : Ring (r.remove e) h (l.erase e) := by
  obtain ⟨x, _, y, _, _, _, hring⟩ := hr.remove_eq he
  exact hring

theorem Ring.push_eq (hr : Ring r h l) (hp : p ∉ h :: l) : ∃ y ∈ h :: l,
    (r.push h p).next = update (update r.next p y) h p ∧
      (r.push h p).prev = update (update r.prev p h) y p ∧
        Ring (r.push h p) h (p :: l) := by
  obtain ⟨y, c, hc⟩ : ∃ y c, l ++ [h] = y :: c := List.exists_cons_of_ne_nil (by simp)
  have hmem : ∀ z ∈ y :: c, z ∈ h :: l := fun z hz => by
    rw [← hc] at hz
    simpa [or_comm] using hz
  have hph : h ≠ p := fun heq => hp (heq ▸ List.mem_cons_self)
  have hyp : p ≠ y := fun heq => hp (heq ▸ hmem y List.mem_cons_self)
  have hchain := hr.chain
  have hsnd := hr.nodup_tail
  rw [hc] at hchain hsnd
  obtain ⟨hhy, hchain⟩ := List.isChain_cons_cons.1 hchain
  have hnext : (r.push h p).next = update (update r.next p y) h p := by
    simp [Links.push, hhy.1]
  have hprev : (r.push h p).prev = update (update r.prev p h) y p := by
    simp [Links.push, hhy.1, update_of_ne hph]
  refine ⟨y, hmem y List.mem_cons_self, hnext, hprev, ?_, ?_⟩
  · rw [List.cons_append, hc, List.isChain_cons_cons, List.isChain_cons_cons]
    refine ⟨⟨?_, ?_⟩, ⟨?_, ?_⟩, isChain_congr hchain (fun z hz => ?_) fun z hz => ?_⟩
    · rw [hnext, update_self]
    · rw [hprev, update_of_ne hyp, update_self]
    · rw [hnext, update_of_ne hph.symm, update_self]
    · rw [hprev, update_self]
    · rw [← hc, List.dropLast_concat] at hz
      have hzh : z ≠ h := fun heq => (List.nodup_cons.1 hr.nodup).1 (heq ▸ hz)
      have hzp : z ≠ p := fun heq => hp (heq ▸ List.mem_cons_of_mem h hz)
      rw [hnext, update_of_ne hzh, update_of_ne hzp]
    · have hzy : z ≠ y := fun heq => (List.nodup_cons.1 hsnd).1 (heq ▸ hz)
      have hzp : z ≠ p := fun heq => hp (heq ▸ hmem z (List.mem_cons_of_mem y hz))
      rw [hprev, update_of_ne hzy, update_of_ne hzp]
  · rw [List.mem_cons, not_or] at hp
    have hl := List.nodup_cons.1 hr.nodup
    refine List.nodup_cons.2 ⟨?_, List.nodup_cons.2 ⟨hp.2, hl.2⟩⟩
    rw [List.mem_cons, not_or]
    exact ⟨hph, hl.1⟩

theorem Ring.push (hr : Ring r h l) (hp : p ∉ h :: l) : Ring (r.push h p) h (p :: l) := by
  obtain ⟨y, _, _, _, hring⟩ := hr.push_eq hp
  exact hring

end

/-! ## A family of rings -/

/-- **One ring for each `k ∈ K`**, no two with a node in common. -/
structure Family (r : Links β) (K : Set κ) (head : κ → β) (l : κ → List β) : Prop where
  ring : ∀ k ∈ K, Ring r (head k) (l k)
  apart : ∀ k ∈ K, ∀ j ∈ K, k ≠ j → ∀ x ∈ head k :: l k, x ∉ head j :: l j

variable {K : Set κ} {head : κ → β} {ls : κ → List β} {k : κ}

theorem Family.congr (hf : Family r K head ls)
    (hn : ∀ x, (∃ k ∈ K, x ∈ head k :: ls k) → r'.next x = r.next x)
    (hp : ∀ x, (∃ k ∈ K, x ∈ head k :: ls k) → r'.prev x = r.prev x) : Family r' K head ls :=
  ⟨fun k hk => (hf.ring k hk).congr (fun x hx => hn x ⟨k, hk, hx⟩) fun x hx => hp x ⟨k, hk, hx⟩,
    hf.apart⟩

variable [DecidableEq β] [DecidableEq κ]

theorem Family.remove (hf : Family r K head ls) (hk : k ∈ K) (he : e ∈ ls k) :
    Family (r.remove e) K head (update ls k ((ls k).erase e)) := by
  obtain ⟨x, hx, y, hy, hnext, hprev, hring⟩ := (hf.ring k hk).remove_eq he
  have hsub : ∀ j z, z ∈ head j :: update ls k ((ls k).erase e) j → z ∈ head j :: ls j := by
    intro j z hz
    by_cases hjk : j = k
    · subst hjk
      rw [update_self] at hz
      exact ((List.erase_sublist).cons_cons (head j)).subset hz
    · rwa [update_of_ne hjk] at hz
  refine ⟨fun j hj => ?_, fun j hj i hi hji z hz hz' =>
    hf.apart j hj i hi hji z (hsub j z hz) (hsub i z hz')⟩
  by_cases hjk : j = k
  · subst hjk
    rwa [update_self]
  · rw [update_of_ne hjk]
    apply (hf.ring j hj).congr
    · intro z hz
      rw [hnext, update_of_ne]
      rintro rfl
      exact hf.apart j hj k hk hjk z hz hx
    · intro z hz
      rw [hprev, update_of_ne]
      rintro rfl
      exact hf.apart j hj k hk hjk z hz hy

theorem Family.push (hf : Family r K head ls) (hk : k ∈ K) (hp : ∀ j ∈ K, p ∉ head j :: ls j) :
    Family (r.push (head k) p) K head (update ls k (p :: ls k)) := by
  obtain ⟨y, hy, hnext, hprev, hring⟩ := (hf.ring k hk).push_eq (hp k hk)
  have hsub : ∀ j z, z ∈ head j :: update ls k (p :: ls k) j →
      z ∈ head j :: ls j ∨ (j = k ∧ z = p) := by
    intro j z hz
    by_cases hjk : j = k
    · subst hjk
      rw [update_self] at hz
      simp only [List.mem_cons] at hz ⊢
      tauto
    · rw [update_of_ne hjk] at hz
      exact Or.inl hz
  refine ⟨fun j hj => ?_, fun j hj i hi hji z hz hz' => ?_⟩
  · by_cases hjk : j = k
    · subst hjk
      rwa [update_self]
    · rw [update_of_ne hjk]
      have hne : ∀ z ∈ head j :: ls j, z ≠ p := fun z hz heq => hp j hj (heq ▸ hz)
      apply (hf.ring j hj).congr
      · intro z hz
        rw [hnext, update_of_ne, update_of_ne (hne z hz)]
        rintro rfl
        exact hf.apart j hj k hk hjk _ hz List.mem_cons_self
      · intro z hz
        rw [hprev, update_of_ne, update_of_ne (hne z hz)]
        rintro rfl
        exact hf.apart j hj k hk hjk z hz hy
  · rcases hsub j z hz with hz | ⟨hjk, hzp⟩
    · rcases hsub i z hz' with hz' | ⟨_, hzp⟩
      · exact hf.apart j hj i hi hji z hz hz'
      · exact hp j hj (hzp ▸ hz)
    · rcases hsub i z hz' with hz' | ⟨hik, _⟩
      · exact hp i hi (hzp ▸ hz')
      · exact hji (hjk.trans hik.symm)

end Dlist
