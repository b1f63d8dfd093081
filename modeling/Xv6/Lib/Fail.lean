import Mathlib

/-!
# Stateful programs that can fail

A program over a state `σ` is a `StateT σ (Except ε)`: it returns a result and a new state, or it fails
for good.

* `Yields`: from a state the program returns, and the result and the new state are as a condition says.
* `May`: if it returns, they are.
* `Ends E`: if it returns, they are, and under the condition `E` it does return.
* **`Yields.bind`**, **`May.bind`**, **`Ends.bind`**: the rules for sequences.
-/

namespace Fail

variable {σ ε α β : Type}

/-- **The program returns from `s`**, in a way that satisfies `Q`. -/
def Yields (x : StateT σ (Except ε) α) (s : σ) (Q : α → σ → Prop) : Prop :=
  ∃ a s', x s = .ok (a, s') ∧ Q a s'

/-- Whenever the program returns from `s`, this satisfies `Q`. -/
def May (x : StateT σ (Except ε) α) (s : σ) (Q : α → σ → Prop) : Prop :=
  ∀ a s', x s = .ok (a, s') → Q a s'

theorem bind_ok {x : StateT σ (Except ε) α} {f : α → StateT σ (Except ε) β} {s s' : σ} {a : α}
    (h : x s = .ok (a, s')) : (x >>= f) s = f a s' := by
  change (x s >>= fun r => f r.1 r.2) = f a s'
  rw [h]
  rfl

theorem bind_error {x : StateT σ (Except ε) α} {f : α → StateT σ (Except ε) β} {s : σ} {e : ε}
    (h : x s = .error e) : (x >>= f) s = .error e := by
  change (x s >>= fun r => f r.1 r.2) = _
  rw [h]
  rfl

theorem bind_eq_ok {x : StateT σ (Except ε) α} {f : α → StateT σ (Except ε) β} {s t : σ} {b : β}
    (h : (x >>= f) s = .ok (b, t)) : ∃ a s', x s = .ok (a, s') ∧ f a s' = .ok (b, t) := by
  cases hx : x s with
  | error e =>
    rw [bind_error hx] at h
    cases h
  | ok r =>
    rw [bind_ok hx] at h
    exact ⟨r.1, r.2, rfl, h⟩

section Rules

variable {s : σ} {Q Q' : α → σ → Prop}

theorem Yields.pure {a : α} (h : Q a s) : Yields (Pure.pure a : StateT σ (Except ε) α) s Q :=
  ⟨a, s, rfl, h⟩

theorem Yields.modify {f : σ → σ} {Q : Unit → σ → Prop} (h : Q () (f s)) :
    Yields (modify f : StateT σ (Except ε) Unit) s Q :=
  ⟨(), f s, rfl, h⟩

theorem Yields.bind {x : StateT σ (Except ε) α} {f : α → StateT σ (Except ε) β} {P : β → σ → Prop}
    (hx : Yields x s Q) (hf : ∀ a s', Q a s' → Yields (f a) s' P) : Yields (x >>= f) s P := by
  obtain ⟨a, s', h, hq⟩ := hx
  obtain ⟨b, t, hb, hp⟩ := hf a s' hq
  exact ⟨b, t, (bind_ok h).trans hb, hp⟩

theorem Yields.mono {x : StateT σ (Except ε) α} (hx : Yields x s Q) (h : ∀ a s', Q a s' → Q' a s') :
    Yields x s Q' := by
  obtain ⟨a, s', hr, hq⟩ := hx
  exact ⟨a, s', hr, h a s' hq⟩

theorem Yields.may {x : StateT σ (Except ε) α} (hx : Yields x s Q) : May x s Q := by
  obtain ⟨a, s', hr, hq⟩ := hx
  intro b t hb
  rw [hr] at hb
  cases hb
  exact hq

theorem May.pure {a : α} (h : Q a s) : May (Pure.pure a : StateT σ (Except ε) α) s Q :=
  (Yields.pure h).may

theorem May.throw {e : ε} : May (throw e : StateT σ (Except ε) α) s Q := by
  intro a s' h
  cases h

theorem May.bind {x : StateT σ (Except ε) α} {f : α → StateT σ (Except ε) β} {P : β → σ → Prop}
    (hx : May x s Q) (hf : ∀ a s', Q a s' → May (f a) s' P) : May (x >>= f) s P := by
  intro b t h
  obtain ⟨a, s', ha, hb⟩ := bind_eq_ok h
  exact hf a s' (hx a s' ha) b t hb

theorem May.mono {x : StateT σ (Except ε) α} (hx : May x s Q) (h : ∀ a s', Q a s' → Q' a s') :
    May x s Q' :=
  fun a s' hr => h a s' (hx a s' hr)

/-- Whenever the program returns from `s`, this satisfies `Q`; and if `E` holds, it returns. -/
structure Ends (E : Prop) (x : StateT σ (Except ε) α) (s : σ) (Q : α → σ → Prop) : Prop where
  may : May x s Q
  yields : E → Yields x s Q

variable {E : Prop}

theorem Yields.ends {x : StateT σ (Except ε) α} (h : Yields x s Q) : Ends E x s Q := ⟨h.may, fun _ => h⟩

theorem Ends.pure {a : α} (h : Q a s) : Ends E (Pure.pure a : StateT σ (Except ε) α) s Q :=
  (Yields.pure h).ends

theorem Ends.bind {x : StateT σ (Except ε) α} {f : α → StateT σ (Except ε) β} {P : β → σ → Prop}
    (hx : Ends E x s Q) (hf : ∀ a s', Q a s' → Ends E (f a) s' P) : Ends E (x >>= f) s P where
  may := hx.may.bind fun a s' hq => (hf a s' hq).may
  yields := fun he => (hx.yields he).bind fun a s' hq => (hf a s' hq).yields he

theorem Ends.of_eq {x y : StateT σ (Except ε) α} {t : σ} (h : x s = y t) (hy : Ends E y t Q) : Ends E x s Q where
  may := fun a s' hx => hy.may a s' (h.symm.trans hx)
  yields := by
    intro he
    obtain ⟨a, s', hr, hq⟩ := hy.yields he
    exact ⟨a, s', h.trans hr, hq⟩

theorem Ends.of_error {x : StateT σ (Except ε) α} {e : ε} (h : x s = .error e) (hE : ¬ E) : Ends E x s Q where
  may := fun a s' hx => by
    rw [h] at hx
    cases hx
  yields := fun he => absurd he hE

theorem Ends.mono {x : StateT σ (Except ε) α} (hx : Ends E x s Q) (h : ∀ a s', Q a s' → Q' a s') :
    Ends E x s Q' :=
  ⟨hx.may.mono h, fun he => (hx.yields he).mono h⟩

end Rules

end Fail
