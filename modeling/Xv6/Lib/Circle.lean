import Mathlib

/-!
# Singly linked circular lists

Nodes of any type, with one pointer each, given by a function.

* `Linked next a l z`: the pointers lead from `a` through the nodes `l` to `z`. A circular list with the nodes
  `a :: l` is `Linked next a l a`.
* `linked_append`, `Linked.congr`: how lists are put together, and what they depend on.
* **`Linked.rotate`**: a circular list can be entered at each of its nodes.
* `search`, **`Linked.search_eq`**: a search along the pointers finds a node, if there is one.
-/

namespace Circle

variable {α : Type*}

/-- The pointers lead from `a` through `l` to `z`. -/
def Linked (next : α → α) : α → List α → α → Prop
  | a, [], z => next a = z
  | a, b :: l, z => next a = b ∧ Linked next b l z

variable {next next' : α → α} {a b x z : α} {l r : List α}

theorem linked_append : Linked next a (l ++ b :: r) z ↔ Linked next a l b ∧ Linked next b r z := by
  induction l generalizing a with
  | nil => exact Iff.rfl
  | cons c l ih =>
    simp only [List.cons_append, Linked, ih, and_assoc]

theorem Linked.congr (h : Linked next a l z) (hsame : ∀ x ∈ a :: l, next' x = next x) : Linked next' a l z := by
  induction l generalizing a with
  | nil => exact (hsame a List.mem_cons_self).trans h
  | cons b l ih =>
    exact ⟨(hsame a List.mem_cons_self).trans h.1, ih h.2 fun x hx => hsame x (List.mem_cons_of_mem _ hx)⟩

theorem Linked.enter (h : Linked next a l z) (hb : next' b = next a) (hsame : ∀ x ∈ l, next' x = next x) :
    Linked next' b l z := by
  cases l with
  | nil => exact hb.trans h
  | cons c l => exact ⟨hb.trans h.1, h.2.congr hsame⟩

/-- **A circular list can be entered at each of its nodes.** -/
theorem Linked.rotate (h : Linked next a l a) (hx : x ∈ a :: l) :
    ∃ r, Linked next x r x ∧ (x :: r).Perm (a :: l) := by
  rcases List.mem_cons.1 hx with rfl | hx
  · exact ⟨l, h, List.Perm.refl _⟩
  · obtain ⟨l₁, l₂, rfl⟩ := List.append_of_mem hx
    obtain ⟨h₁, h₂⟩ := linked_append.1 h
    refine ⟨l₂ ++ a :: l₁, linked_append.2 ⟨h₂, h₁⟩, ?_⟩
    have hperm : (x :: l₂ ++ a :: l₁).Perm (a :: l₁ ++ x :: l₂) := List.perm_append_comm
    exact hperm

def last (a : α) : List α → α
  | [] => a
  | b :: l => last b l

theorem last_mem : last a l ∈ a :: l := by
  induction l generalizing a with
  | nil => exact List.mem_singleton_self a
  | cons b l ih => exact List.mem_cons_of_mem _ ih

@[simp] theorem last_append (r : List α) : last a (l ++ b :: r) = last b r := by
  induction l generalizing a with
  | nil => rfl
  | cons c l ih => exact ih

theorem Linked.next_last (h : Linked next a l z) : next (last a l) = z := by
  induction l generalizing a with
  | nil => exact h
  | cons b l ih => exact ih h.2

theorem Linked.redirect {y : α} (h : Linked next a l z) (hnodup : (a :: l).Nodup) (hlast : next' (last a l) = y)
    (hsame : ∀ x ∈ a :: l, x ≠ last a l → next' x = next x) : Linked next' a l y := by
  induction l generalizing a with
  | nil => exact hlast
  | cons b l ih =>
    obtain ⟨ha, hl⟩ := List.nodup_cons.1 hnodup
    have hne : a ≠ last b l := by
      intro he
      exact ha (he ▸ last_mem)
    refine ⟨(hsame a List.mem_cons_self hne).trans h.1, ih h.2 hl hlast fun x hx => ?_⟩
    exact hsame x (List.mem_cons_of_mem _ hx)

theorem Linked.skip (h : Linked next a l (next b)) (hr : Linked next b r z) : Linked next a (l ++ r) z := by
  cases r with
  | nil =>
    rw [List.append_nil]
    have hb : next b = z := hr
    rwa [hb] at h
  | cons c r =>
    rw [linked_append]
    rw [hr.1] at h
    exact ⟨h, hr.2⟩

theorem exists_last_eq (hx : x ∈ a :: l) : ∃ l₁ l₂, l = l₁ ++ l₂ ∧ last a l₁ = x := by
  rcases List.mem_cons.1 hx with rfl | hx
  · exact ⟨[], l, rfl, rfl⟩
  · obtain ⟨l₁, l₂, rfl⟩ := List.append_of_mem hx
    exact ⟨l₁ ++ [x], l₂, by simp, last_append []⟩

/-- Follow the pointers to the first node that passes the test, `k` nodes at most. -/
def search (next : α → α) (stop : α → Prop) [DecidablePred stop] : ℕ → α → Option α
  | 0, _ => none
  | k + 1, x => if stop x then some x else search next stop k (next x)

theorem search_mono {stop : α → Prop} [DecidablePred stop] {k j : ℕ} (h : search next stop k a = some x)
    (hkj : k ≤ j) : search next stop j a = some x := by
  induction k generalizing a j with
  | zero => cases h
  | succ k ih =>
    obtain ⟨j, rfl⟩ : ∃ i, j = i + 1 := ⟨j - 1, by omega⟩
    rw [search] at h ⊢
    split_ifs at h ⊢ with hstop
    · exact h
    · exact ih h (Nat.le_of_succ_le_succ hkj)

theorem Linked.search_eq {stop : α → Prop} [DecidablePred stop] (h : Linked next a l z)
    (hex : ∃ x ∈ a :: l, stop x) :
    ∃ x ∈ a :: l, stop x ∧ ∀ k, l.length < k → search next stop k a = some x := by
  induction l generalizing a with
  | nil =>
    obtain ⟨x, hx, hstop⟩ := hex
    rw [List.mem_singleton] at hx
    subst hx
    refine ⟨x, List.mem_singleton_self x, hstop, fun k hk => ?_⟩
    cases k with
    | zero => cases hk
    | succ k => rw [search, if_pos hstop]
  | cons b l ih =>
    by_cases ha : stop a
    · refine ⟨a, List.mem_cons_self, ha, fun k hk => ?_⟩
      cases k with
      | zero => cases hk
      | succ k => rw [search, if_pos ha]
    · have hex' : ∃ x ∈ b :: l, stop x := by
        obtain ⟨x, hx, hstop⟩ := hex
        rcases List.mem_cons.1 hx with rfl | hx
        · exact absurd hstop ha
        · exact ⟨x, hx, hstop⟩
      obtain ⟨x, hx, hstop, hsearch⟩ := ih h.2 hex'
      refine ⟨x, List.mem_cons_of_mem _ hx, hstop, fun k hk => ?_⟩
      cases k with
      | zero => cases hk
      | succ k =>
        rw [search, if_neg ha, h.1]
        exact hsearch k (Nat.lt_of_succ_lt_succ hk)

end Circle
