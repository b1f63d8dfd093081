import Mathlib

/-!
# Bags of owned items

Places `i` hold at most one item each. The items in a finite set of places form a multiset, and when
it has no duplicates every item is in one place only. An operation that moves items between places
keeps the sum of the bags, so it keeps this without further proof.

* `bag`: the items held in the places of a finite set; `Distinct`: a multiset without duplicates.
* `bag_put`: one place gets an item.
* **`inj_of_nodup`**: without duplicates, an item is in one place only.
-/

namespace Bag

open Function

variable {ι β : Type*}

/-- **The items in the places `s`.** -/
def bag (s : Finset ι) (f : ι → Option β) : Multiset β := ∑ i ∈ s, ((f i).toList : Multiset β)

theorem mem_bag {s : Finset ι} {f : ι → Option β} {b : β} : b ∈ bag s f ↔ ∃ i ∈ s, f i = some b := by
  rw [bag, Multiset.mem_sum]
  simp [Option.mem_toList]

theorem bag_congr {s : Finset ι} {f g : ι → Option β} (h : ∀ i ∈ s, f i = g i) : bag s f = bag s g :=
  Finset.sum_congr rfl fun i hi => by rw [h i hi]

@[simp] theorem bag_empty (f : ι → Option β) : bag ∅ f = 0 := rfl

theorem bag_none {s : Finset ι} {f : ι → Option β} (h : ∀ i ∈ s, f i = none) : bag s f = 0 :=
  Finset.sum_eq_zero fun i hi => by rw [h i hi]; rfl

theorem bag_le_of_subset {s t : Finset ι} (h : s ⊆ t) (f : ι → Option β) : bag s f ≤ bag t f :=
  Finset.sum_le_sum_of_subset h

theorem card_bag {s : Finset ι} {f : ι → Option β} (h : ∀ i ∈ s, f i ≠ none) :
    (bag s f).card = s.card := by
  rw [bag, Multiset.card_sum, Finset.card_eq_sum_ones]
  refine Finset.sum_congr rfl fun i hi => ?_
  obtain ⟨b, hb⟩ := Option.ne_none_iff_exists'.1 (h i hi)
  simp [hb]

theorem bag_split (s : Finset ι) (f : ι → Option β) (P : ι → Prop) [DecidablePred P] :
    bag s f = bag (s.filter P) f + bag s fun i => if P i then none else f i := by
  rw [bag, bag, bag, Finset.sum_filter, ← Finset.sum_add_distrib]
  refine Finset.sum_congr rfl fun i _ => ?_
  split_ifs <;> simp

variable [DecidableEq ι] {s : Finset ι} {f : ι → Option β} {i : ι} {b : β}

theorem bag_erase (hi : i ∈ s) : bag s f = ((f i).toList : Multiset β) + bag (s.erase i) f :=
  (Finset.add_sum_erase s (fun i => ((f i).toList : Multiset β)) hi).symm

theorem bag_update_of_notMem {o : Option β} (hi : i ∉ s) : bag s (update f i o) = bag s f := by
  refine bag_congr fun j hj => update_of_ne ?_ _ _
  intro hji
  exact hi (hji ▸ hj)

theorem bag_update {o : Option β} (hi : i ∈ s) :
    bag s (update f i o) = (o.toList : Multiset β) + bag (s.erase i) f := by
  rw [bag_erase hi, update_self, bag_update_of_notMem (Finset.notMem_erase i s)]

theorem bag_put (hi : i ∈ s) (hf : f i = none) :
    bag s (update f i (some b)) = b ::ₘ bag s f := by
  rw [bag_update hi, bag_erase (f := f) hi, hf]
  simp

/-- **Without duplicates, an item is in one place only.** -/
theorem inj_of_nodup (h : (bag s f).Nodup) {j : ι} (hi : i ∈ s) (hj : j ∈ s) (hfi : f i = some b)
    (hfj : f j = some b) : i = j := by
  by_contra hne
  rw [bag_erase hi, hfi] at h
  have hmem : b ∈ bag (s.erase i) f := mem_bag.2 ⟨j, Finset.mem_erase.2 ⟨Ne.symm hne, hj⟩, hfj⟩
  have := (Multiset.nodup_cons.1 (by simpa using h)).1
  exact this hmem

structure Distinct (s : Multiset β) : Prop where
  nodup : s.Nodup

namespace Distinct

variable {s t u : Multiset β}

theorem left (h : Distinct (s + t)) : Distinct s := ⟨(Multiset.nodup_add.1 h.nodup).1⟩

theorem right (h : Distinct (s + t)) : Distinct t := ⟨(Multiset.nodup_add.1 h.nodup).2.1⟩

theorem notMem (h : Distinct (s + t)) (hb : b ∈ s) : b ∉ t :=
  Multiset.disjoint_left.1 (Multiset.nodup_add.1 h.nodup).2.2 hb

theorem mono (h : Distinct s) (hle : t ≤ s) : Distinct t := ⟨Multiset.nodup_of_le hle h.nodup⟩

end Distinct

end Bag
