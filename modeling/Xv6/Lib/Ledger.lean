import Mathlib

/-!
# Ownership of items

Items of a set `D` are marked as used or free, and places `s` each own at most one item.

* `Owned`: a used item has exactly one owner and a free item has none.
* **`Owned.take`**, **`Owned.drop`**, **`Owned.move`**: a free item is given to an empty place, an owner
  gives its item back, an item changes hands.
-/

namespace Ledger

open Function

variable {σ β : Type*} [DecidableEq σ] {D : Set β} {used used' : β → Prop} {own : σ → Option β}

/-- **Every used item has exactly one owner**, and a free item has none. -/
structure Owned (D : Set β) (used : β → Prop) (own : σ → Option β) : Prop where
  mem : ∀ {s b}, own s = some b → b ∈ D
  inj : ∀ {s t b}, own s = some b → own t = some b → s = t
  used_iff : ∀ b ∈ D, used b ↔ ∃ s, own s = some b

omit [DecidableEq σ] in
theorem Owned.congr (h : Owned D used own) (hused : ∀ x ∈ D, used' x ↔ used x) : Owned D used' own :=
  ⟨h.mem, h.inj, fun x hx => (hused x hx).trans (h.used_iff x hx)⟩

theorem update_eq_some {f : σ → Option β} {s t : σ} {o : Option β} {b : β} :
    update f s o t = some b ↔ t = s ∧ o = some b ∨ t ≠ s ∧ f t = some b := by
  by_cases h : t = s
  · subst h
    simp
  · simp [h]

theorem Owned.take (h : Owned D used own) {s : σ} {b : β} (hb : b ∈ D) (hfree : ¬ used b)
    (hused : ∀ x ∈ D, used' x ↔ used x ∨ x = b) (hs : own s = none) :
    Owned D used' (update own s (some b)) := by
  have hnew : ∀ t, own t ≠ some b := fun t ht => hfree ((h.used_iff b hb).2 ⟨t, ht⟩)
  refine ⟨fun {t x} ht => ?_, fun {t u x} ht hu => ?_, fun x hx => ?_⟩
  · rcases update_eq_some.1 ht with ⟨-, ⟨⟩⟩ | ⟨-, ht⟩
    · exact hb
    · exact h.mem ht
  · rcases update_eq_some.1 ht with ⟨hts, hxb⟩ | ⟨-, ht'⟩ <;>
      rcases update_eq_some.1 hu with ⟨hus, hxb'⟩ | ⟨-, hu'⟩
    · rw [hts, hus]
    · cases hxb
      exact absurd hu' (hnew u)
    · cases hxb'
      exact absurd ht' (hnew t)
    · exact h.inj ht' hu'
  · rw [hused x hx, h.used_iff x hx]
    constructor
    · rintro (⟨t, ht⟩ | rfl)
      · exact ⟨t, update_eq_some.2 (.inr ⟨fun e => by simp [e, hs] at ht, ht⟩)⟩
      · exact ⟨s, update_self ..⟩
    · rintro ⟨t, ht⟩
      rcases update_eq_some.1 ht with ⟨-, ⟨⟩⟩ | ⟨-, ht⟩
      · exact .inr rfl
      · exact .inl ⟨t, ht⟩

theorem Owned.drop (h : Owned D used own) {s : σ} {b : β} (hs : own s = some b)
    (hused : ∀ x ∈ D, used' x ↔ used x ∧ x ≠ b) : Owned D used' (update own s none) := by
  have hold : ∀ {t x}, update own s none t = some x → own t = some x := fun ht => by
    rcases update_eq_some.1 ht with ⟨-, ⟨⟩⟩ | ⟨-, ht⟩
    exact ht
  refine ⟨fun ht => h.mem (hold ht), fun ht hu => h.inj (hold ht) (hold hu), fun x hx => ?_⟩
  rw [hused x hx, h.used_iff x hx]
  constructor
  · rintro ⟨⟨t, ht⟩, hne⟩
    refine ⟨t, update_eq_some.2 (.inr ⟨fun e => hne ?_, ht⟩)⟩
    rw [e, hs] at ht
    exact (Option.some.inj ht).symm
  · rintro ⟨t, ht⟩
    refine ⟨⟨t, hold ht⟩, ?_⟩
    rintro rfl
    rcases update_eq_some.1 ht with ⟨-, ⟨⟩⟩ | ⟨hne, ht⟩
    exact hne (h.inj ht hs)

theorem Owned.move (h : Owned D used own) {s t : σ} {b : β} (hs : own s = some b) (ht : own t = none) :
    Owned D used (update (update own s none) t (some b)) := by
  have hb := h.mem hs
  have hdrop : Owned D (fun x => used x ∧ x ≠ b) (update own s none) :=
    h.drop hs fun _ _ => Iff.rfl
  refine hdrop.take hb (fun hu => hu.2 rfl) (fun x hx => ?_) ?_
  · constructor
    · intro hx
      by_cases hxb : x = b
      · exact .inr hxb
      · exact .inl ⟨hx, hxb⟩
    · rintro (hx | rfl)
      · exact hx.1
      · exact (h.used_iff x hx).2 ⟨s, hs⟩
  · by_cases hts : t = s
    · rw [hts, update_self]
    · rw [update_of_ne hts, ht]

end Ledger
