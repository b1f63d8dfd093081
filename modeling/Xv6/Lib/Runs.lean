import Mathlib

/-!
# Runs of a transition system

A system is a partial step function `step : S → A → Option S`; `none` means that the action is
not enabled. Runs may be restricted to the steps a predicate `ok` on the state before the step
allows.

* `Reach`: the states reached from `s₀`; **`Reach.inv`**: the invariant rule.
* `exec`: the same as a function on a list of actions, so that a concrete run can be evaluated;
  `Reach.of_exec`, `Reach.of_exec_any` turn an evaluated run into a reached state.
* `execIf`, `Reach.of_execIf`: the same where the restriction depends on the state.
* `sum_update`: a sum over all processes after one of them has moved.
-/

namespace Runs

open Function

-- for systems of one or two processes, with which runs are evaluated
instance neZeroOne : NeZero 1 := ⟨by decide⟩

instance neZeroTwo : NeZero 2 := ⟨by decide⟩

variable {S A : Type*}

/-- **The states reached from `s₀`** by enabled steps that `ok` allows. -/
inductive Reach (step : S → A → Option S) (ok : S → A → Prop) (s₀ : S) : S → Prop
  | refl : Reach step ok s₀ s₀
  | tail {s s' : S} {a : A} :
      Reach step ok s₀ s → ok s a → step s a = some s' → Reach step ok s₀ s'

def any (_ : S) (_ : A) : Prop := True

variable {step : S → A → Option S} {ok : S → A → Prop} {s₀ s s' : S}

/-- **The invariant rule.** -/
theorem Reach.inv {I : S → Prop} (h₀ : I s₀)
    (hstep : ∀ s a s', I s → ok s a → step s a = some s' → I s') (h : Reach step ok s₀ s) :
    I s := by
  induction h with
  | refl => exact h₀
  | tail _ hok hs ih => exact hstep _ _ _ ih hok hs

/-- An invariant may be used as a restriction. -/
theorem Reach.strengthen {I : S → Prop} (h₀ : I s₀)
    (hstep : ∀ s a s', I s → ok s a → step s a = some s' → I s') (h : Reach step ok s₀ s) :
    Reach step (fun s a => ok s a ∧ I s) s₀ s := by
  induction h with
  | refl => exact .refl
  | tail h hok hs ih => exact ih.tail ⟨hok, h.inv h₀ hstep⟩ hs

theorem Reach.trans (h : Reach step ok s₀ s) (h' : Reach step ok s s') : Reach step ok s₀ s' := by
  induction h' with
  | refl => exact h
  | tail _ hok hs ih => exact ih.tail hok hs

theorem Reach.mono {ok' : S → A → Prop} (himp : ∀ s a, ok s a → ok' s a)
    (h : Reach step ok s₀ s) : Reach step ok' s₀ s := by
  induction h with
  | refl => exact .refl
  | tail _ hok hs ih => exact ih.tail (himp _ _ hok) hs

def exec (step : S → A → Option S) : S → List A → Option S
  | s, [] => some s
  | s, a :: as => (step s a).bind fun s' => exec step s' as

theorem Reach.of_exec {as : List A} (hok : ∀ s, ∀ a ∈ as, ok s a) (h : exec step s as = some s') :
    Reach step ok s s' := by
  induction as generalizing s with
  | nil =>
    cases h
    exact .refl
  | cons a as ih =>
    rw [exec, Option.bind_eq_some_iff] at h
    obtain ⟨t, ht, h⟩ := h
    exact (Reach.refl.tail (hok s a List.mem_cons_self) ht).trans
      (ih (fun s a ha => hok s a (List.mem_cons_of_mem _ ha)) h)

/-- A run evaluated together with a test of its last state. -/
theorem Reach.of_exec_any {as : List A} (hok : ∀ s, ∀ a ∈ as, ok s a) {P : S → Bool}
    (h : (exec step s as).any P = true) : ∃ t, Reach step ok s t ∧ P t = true := by
  obtain ⟨t, ht, hP⟩ := (Option.any_eq_true _ _).1 h
  exact ⟨t, .of_exec hok ht, hP⟩

def execIf (step : S → A → Option S) (ok : S → A → Prop) [∀ s a, Decidable (ok s a)] : S → List A → Option S
  | s, [] => some s
  | s, a :: as => if ok s a then (step s a).bind fun s' => execIf step ok s' as else none

theorem Reach.of_execIf [∀ s a, Decidable (ok s a)] {as : List A} (h : execIf step ok s as = some s') :
    Reach step ok s s' := by
  induction as generalizing s with
  | nil =>
    cases h
    exact .refl
  | cons a as ih =>
    rw [execIf] at h
    split_ifs at h with hok
    obtain ⟨t, ht, h⟩ := Option.bind_eq_some_iff.1 h
    exact (Reach.refl.tail hok ht).trans (ih h)

/-- **A sum over all processes after `p` has moved to `v`.** -/
theorem sum_update {P V M : Type*} [Fintype P] [DecidableEq P] [AddCommMonoid M] (w : V → M)
    (f : P → V) (p : P) (v : V) :
    ∑ q, w (update f p v q) + w (f p) = ∑ q, w (f q) + w v := by
  rw [← Finset.add_sum_erase _ _ (Finset.mem_univ p),
    ← Finset.add_sum_erase _ (fun q => w (f q)) (Finset.mem_univ p), update_self]
  have h : ∑ q ∈ Finset.univ.erase p, w (update f p v q) =
      ∑ q ∈ Finset.univ.erase p, w (f q) :=
    Finset.sum_congr rfl fun q hq => by rw [update_of_ne (Finset.ne_of_mem_erase hq)]
  rw [h]
  abel

end Runs
