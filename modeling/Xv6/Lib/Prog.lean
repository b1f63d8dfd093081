import Mathlib

/-!
# Programs over commands

A program performs commands of a type `C`, each answered by a value of type `R c`, and computes
with the answers. What a command does is given separately, by a handler, so that one program can
be run against several machines.

* `Prog`, its monad structure and `forEnum`, the loop over an enumerated list.
* `run`: the program run alone. A handler answers `none` when the machine stops there.
* `Spec`: what holds when the program returns, and what holds when the machine stops inside it;
  **`Spec.bind`**, **`Spec.forEnum`**: the rules for sequences and loops.
* `Among`: what holds when the program returns or the machine stops while others are at work between its
  commands, as long as these keep to a relation `rely`; **`Among.perform`**: what is known must be
  `Stable`. With nobody at work it is a `Spec` (**`Among.spec`**), and if the machine never stops the program
  returns (**`Among.does`**). **`Among.frame`**: what only other commands change.
-/

/-- Programs with commands `C`, answers `R` and result `α`. -/
inductive Prog (C : Type) (R : C → Type) (α : Type) : Type
  | ret (a : α)
  | cmd (c : C) (k : R c → Prog C R α)

namespace Prog

variable {C : Type} {R : C → Type} {α β : Type}

protected def bind : Prog C R α → (α → Prog C R β) → Prog C R β
  | ret a, f => f a
  | cmd c k, f => cmd c fun r => (k r).bind f

instance : Monad (Prog C R) where
  pure := ret
  bind := Prog.bind

theorem assoc {γ : Type} (p : Prog C R α) (f : α → Prog C R β) (k : β → Prog C R γ) :
    p >>= f >>= k = p >>= fun a => f a >>= k := by
  induction p with
  | ret a => rfl
  | cmd c p ih => exact congrArg (cmd c) (funext ih)

instance (p : Prog C R Unit) : Decidable (p = ret ()) :=
  match p with
  | ret () => .isTrue rfl
  | cmd _ _ => .isFalse nofun

def perform (c : C) : Prog C R (R c) := cmd c ret

/-- `body i a₀; body (i + 1) a₁; …` over the entries of a list. -/
def forEnum (body : ℕ → β → Prog C R Unit) : ℕ → List β → Prog C R Unit
  | _, [] => pure ()
  | i, a :: l => do
    body i a
    forEnum body (i + 1) l

/-! ## Running a program alone -/

section Run

variable {S : Type} (h : (c : C) → S → Option (S × R c))

/-- Run a program: the last state, and the result if the program returned. -/
def run : Prog C R α → S → S × Option α
  | ret a, s => (s, some a)
  | cmd c k, s =>
    match h c s with
    | some (s', r) => run (k r) s'
    | none => (s, none)

theorem run_bind (p : Prog C R α) (f : α → Prog C R β) (s : S) :
    run h (p >>= f) s = match run h p s with
      | (s', some a) => run h (f a) s'
      | (s', none) => (s', none) := by
  induction p generalizing s with
  | ret a => rfl
  | cmd c k ih =>
    change run h (cmd c fun r => (k r).bind f) s = _
    rw [run, run]
    cases hc : h c s with
    | none => rfl
    | some sr =>
      obtain ⟨s', r⟩ := sr
      exact ih r s'

/-- From `P` the program returns in `Q`, or the machine stops inside it in `X`. -/
def Spec (P : S → Prop) (p : Prog C R α) (Q : α → S → Prop) (X : S → Prop) : Prop :=
  ∀ s, P s → match run h p s with
    | (s', some a) => Q a s'
    | (s', none) => X s'

variable {h} {P P' : S → Prop} {X X' : S → Prop}

theorem Spec.returns {p : Prog C R α} {Q : α → S → Prop} (hp : Spec h P p Q X) {s s' : S} {a : α}
    (hs : P s) (hrun : run h p s = (s', some a)) : Q a s' := by
  have := hp s hs
  rwa [hrun] at this

theorem Spec.stops {p : Prog C R α} {Q : α → S → Prop} (hp : Spec h P p Q X) {s s' : S}
    (hs : P s) (hrun : run h p s = (s', none)) : X s' := by
  have := hp s hs
  rwa [hrun] at this

theorem Spec.ret {a : α} {Q : α → S → Prop} (hP : ∀ s, P s → Q a s) :
    Spec h P (Prog.ret a) Q X := hP

theorem Spec.perform {c : C} {Q : R c → S → Prop} (hstop : ∀ s, P s → h c s = none → X s)
    (hgo : ∀ s s' r, P s → h c s = some (s', r) → Q r s') : Spec h P (Prog.perform c) Q X := by
  intro s hs
  rw [Prog.perform, run]
  cases hc : h c s with
  | none => exact hstop s hs hc
  | some sr => exact hgo s sr.1 sr.2 hs hc

theorem Spec.bind {p : Prog C R α} {f : α → Prog C R β} {Q : α → S → Prop} {Q' : β → S → Prop}
    (hp : Spec h P p Q X) (hf : ∀ a, Spec h (Q a) (f a) Q' X) : Spec h P (p >>= f) Q' X := by
  intro s hs
  have h₁ := hp s hs
  rw [run_bind]
  generalize run h p s = o at h₁ ⊢
  obtain ⟨s', _ | a⟩ := o
  · exact h₁
  · exact hf a s' h₁

theorem Spec.bind_eq {p : Prog C R α} {f : α → Prog C R β} {a : α} {P' : S → Prop}
    {Q : β → S → Prop} (hp : Spec h P p (fun x s => x = a ∧ P' s) X) (hf : Spec h P' (f a) Q X) :
    Spec h P (p >>= f) Q X :=
  hp.bind fun x => fun s ⟨hx, hs⟩ => by subst hx; exact hf s hs

theorem Spec.mono {p : Prog C R α} {Q Q' : α → S → Prop} (hp : Spec h P p Q X)
    (hP : ∀ s, P' s → P s) (hQ : ∀ a s, Q a s → Q' a s) (hX : ∀ s, X s → X' s) :
    Spec h P' p Q' X' := by
  intro s hs
  have h₁ := hp s (hP s hs)
  generalize run h p s = o at h₁ ⊢
  obtain ⟨s', _ | a⟩ := o
  · exact hX s' h₁
  · exact hQ a s' h₁

/-- A specification may be proved for each initial state on its own. -/
theorem Spec.each {p : Prog C R α} {Q : α → S → Prop}
    (hp : ∀ s, P s → Spec h (fun t => t = s) p Q X) : Spec h P p Q X :=
  fun s hs => hp s hs s rfl

/-- **The rule for loops**: `I i l` holds before the turns `i, i + 1, …` over the entries `l`. -/
theorem Spec.forEnum {body : ℕ → β → Prog C R Unit} {I : ℕ → List β → S → Prop}
    (hbody : ∀ i a l, Spec h (I i (a :: l)) (body i a) (fun _ => I (i + 1) l) X) (i : ℕ)
    (l : List β) : Spec h (I i l) (Prog.forEnum body i l) (fun _ => I (i + l.length) []) X := by
  induction l generalizing i with
  | nil => exact Spec.ret fun s hs => hs
  | cons a l ih =>
    have := ih (i + 1)
    rw [Nat.add_assoc, Nat.add_comm 1] at this
    exact Spec.bind (hbody i a l) fun _ => this

/-! ## Returning -/

variable (h) in
def Does (p : Prog C R α) (s : S) (a : α) (s' : S) : Prop := run h p s = (s', some a)

end Run

/-! ## Among others -/

section Among

variable {S : Type} (rely : S → S → Prop) (h : (c : C) → S → Option (S × R c)) (X : S → Prop)

/-- Whatever others do between its commands within `rely`: if the program returns, then in `Q`, and if
the machine stops inside it, then in `X`. -/
def Among : Prog C R α → (α → S → Prop) → S → Prop
  | ret a, Q, s => Q a s
  | cmd c k, Q, s => ∀ t, rely s t →
    (h c t = none → X t) ∧ ∀ s' r, h c t = some (s', r) → Among (k r) Q s'

/-- Others leave `P` alone. -/
def Stable (P : S → Prop) : Prop := ∀ s t, rely s t → P s → P t

variable {rely h X} {P : S → Prop} {Q Q₁ : α → S → Prop} {Q' : β → S → Prop} {s : S}
  {p : Prog C R α} {f : α → Prog C R β}

theorem Among.ret {a : α} (hQ : Q a s) : Among rely h X (pure a) Q s := hQ

/-- **One command**, in a state of which something stable is known. -/
theorem Among.perform {c : C} {Q : R c → S → Prop} (hP : Stable rely P) (hs : P s)
    (hX : ∀ t, P t → X t) (hc : ∀ t s' r, P t → h c t = some (s', r) → Q r s') :
    Among rely h X (Prog.perform c) Q s :=
  fun t ht => ⟨fun _ => hX t (hP s t ht hs), fun s' r => hc t s' r (hP s t ht hs)⟩

theorem Among.go {c : C} {Q : R c → S → Prop} (hP : Stable rely P) (hs : P s)
    (hc : ∀ t, P t → ∃ s' r, h c t = some (s', r) ∧ Q r s') : Among rely h X (Prog.perform c) Q s := by
  intro t ht
  obtain ⟨s', r, hr, hQ⟩ := hc t (hP s t ht hs)
  rw [hr]
  refine ⟨nofun, fun s'' r' heq => ?_⟩
  cases heq
  exact hQ

theorem Among.stop {c : C} {k : R c → Prog C R α} (hP : Stable rely P) (hs : P s)
    (hX : ∀ t, P t → X t) (hc : ∀ t, h c t = none) : Among rely h X (cmd c k) Q s :=
  fun t ht => ⟨fun _ => hX t (hP s t ht hs), fun _ _ hr => by rw [hc t] at hr; cases hr⟩

theorem Among.mono (hp : Among rely h X p Q₁ s) (hQ : ∀ a s', Q₁ a s' → Q a s') :
    Among rely h X p Q s := by
  induction p generalizing s with
  | ret a => exact hQ a s hp
  | cmd c k ih => exact fun t ht => ⟨(hp t ht).1, fun s' r hr => ih r ((hp t ht).2 s' r hr)⟩

theorem Among.weaken {rely' : S → S → Prop} {X' : S → Prop} (hp : Among rely h X p Q s)
    (hrely : ∀ s t, rely' s t → rely s t) (hX : ∀ s, X s → X' s) : Among rely' h X' p Q s := by
  induction p generalizing s with
  | ret a => exact hp
  | cmd c k ih =>
    intro t ht
    obtain ⟨hstop, hgo⟩ := hp t (hrely s t ht)
    exact ⟨fun hc => hX t (hstop hc), fun s' r hr => ih r (hgo s' r hr)⟩

theorem Among.bind (hp : Among rely h X p (fun a s' => Among rely h X (f a) Q' s') s) :
    Among rely h X (p >>= f) Q' s := by
  induction p generalizing s with
  | ret a => exact hp
  | cmd c k ih => exact fun t ht => ⟨(hp t ht).1, fun s' r hr => ih r ((hp t ht).2 s' r hr)⟩

theorem Among.then (hp : Among rely h X p Q s) (hf : ∀ a s', Q a s' → Among rely h X (f a) Q' s') :
    Among rely h X (p >>= f) Q' s := Among.bind (hp.mono hf)

theorem Among.spec (hrefl : ∀ s, rely s s) (p : Prog C R α) :
    Spec h (Among rely h X p Q) p Q X := by
  induction p with
  | ret a => exact Spec.ret fun s hs => hs
  | cmd c k ih =>
    intro s hs
    obtain ⟨hstop, hgo⟩ := hs s (hrefl s)
    rw [run]
    cases hc : h c s with
    | none => exact hstop hc
    | some sr => exact ih sr.2 sr.1 (hgo sr.1 sr.2 hc)

/-- **A program in which the machine never stops** returns. -/
theorem Among.does (hrefl : ∀ s, rely s s) (hp : Among rely h (fun _ => False) p Q s) :
    ∃ a s', Does h p s a s' ∧ Q a s' := by
  have hspec := Among.spec hrefl p s hp
  rcases hrun : run h p s with ⟨s', _ | a⟩
  · rw [hrun] at hspec
    exact hspec.elim
  · rw [hrun] at hspec
    exact ⟨a, s', hrun, hspec⟩

def Only (ok : C → Prop) : Prog C R α → Prop
  | ret _ => True
  | cmd c k => ok c ∧ ∀ r, (k r).Only ok

variable {ok : C → Prop}

theorem Only.bind (hp : p.Only ok) (hf : ∀ a, (f a).Only ok) : (p >>= f).Only ok := by
  induction p with
  | ret a => exact hf a
  | cmd c k ih => exact ⟨hp.1, fun r => ih r (hp.2 r)⟩

/-- **The frame rule**: what others leave alone and no command of the program changes. -/
theorem Among.frame (hP : Stable rely P) (hok : ∀ c, ok c → ∀ t s' r, P t → h c t = some (s', r) → P s')
    (ho : p.Only ok) (hs : P s) (hp : Among rely h X p Q s) :
    Among rely h X p (fun a s' => Q a s' ∧ P s') s := by
  induction p generalizing s with
  | ret a => exact ⟨hp, hs⟩
  | cmd c k ih =>
    intro t ht
    have ht' := hP s t ht hs
    exact ⟨(hp t ht).1, fun s' r hr => ih r (ho.2 r) (hok c ho.1 t s' r ht' hr) ((hp t ht).2 s' r hr)⟩

end Among

end Prog
