import Xv6.Lib.Prog
import Xv6.Lib.Runs

/-!
# Pools of programs

Several processes run programs on one shared state, one command at a time, in any order. A process
that has finished may start another program.

* `Pool`, `Pool.step`: the system, for a handler of the commands and a table of calls.
* `Safe`: a proof outline for one program. `γ` is what the process knows about the shared state; the
  invariant `I s g` says what the knowledge `g` of all processes has to do with the state, so what
  one process knows is not disturbed by the others. `pre` is a condition to be met before a command.
* `Safe.bind`, `Safe.perform`, `Safe.forEnum`, `Safe.use`: the rules; **`Pool.safe_of_reach`**: in every run every
  process stands at a point of a proof outline and the invariant holds.
-/

open Function Runs

namespace Prog

section Safe

variable {P C S Γ O : Type} {R : C → Type} {α β : Type} [DecidableEq P]

/-- What the proofs of a system share: the handler of the commands, the condition before a command,
and the invariant. `O` resolves the choices a command leaves open. -/
structure Logic (P C S Γ O : Type) (R : C → Type) where
  handle : P → (c : C) → O → S → Option (S × R c)
  pre : P → C → S → Prop
  inv : S → (P → Γ) → Prop

variable (L : Logic P C S Γ O R) (p : P)

/-- **A proof outline for process `p`**, which knows `γ`: every command meets its condition, keeps the
invariant, and leaves the other processes' knowledge alone; a result satisfies `Q`. -/
def Safe (γ : Γ) : Prog C R α → (α → Γ → Prop) → Prop
  | ret a, Q => Q a γ
  | cmd c k, Q => ∀ s g, L.inv s g → g p = γ → L.pre p c s ∧
      ∀ o s' r, L.handle p c o s = some (s', r) →
        ∃ γ', L.inv s' (update g p γ') ∧ Safe γ' (k r) Q

variable {L p} {γ : Γ}

theorem Safe.ret {a : α} {Q : α → Γ → Prop} (h : Q a γ) : Safe L p γ (Prog.ret a) Q := h

theorem Safe.perform {c : C} {Q : R c → Γ → Prop}
    (h : ∀ s g, L.inv s g → g p = γ → L.pre p c s ∧
      ∀ o s' r, L.handle p c o s = some (s', r) →
        ∃ γ', L.inv s' (update g p γ') ∧ Q r γ') :
    Safe L p γ (Prog.perform c) Q := h

/-- A fact that follows from what the process knows. -/
theorem Safe.use {c : C} {k : R c → Prog C R α} {Q : α → Γ → Prop} {Φ : Prop}
    (h : ∀ s g, L.inv s g → g p = γ → Φ) (hk : Φ → Safe L p γ (Prog.cmd c k) Q) :
    Safe L p γ (Prog.cmd c k) Q :=
  fun s g hi hg => hk (h s g hi hg) s g hi hg

theorem Safe.mono {m : Prog C R α} {Q Q' : α → Γ → Prop} (h : Safe L p γ m Q)
    (hQ : ∀ a γ, Q a γ → Q' a γ) : Safe L p γ m Q' := by
  induction m generalizing γ with
  | ret a => exact hQ a γ h
  | cmd c k ih =>
    intro s g hi hg
    obtain ⟨hpre, hs⟩ := h s g hi hg
    refine ⟨hpre, fun o s' r hr => ?_⟩
    obtain ⟨γ', hi', hk⟩ := hs o s' r hr
    exact ⟨γ', hi', ih r hk⟩

theorem Safe.bind {m : Prog C R α} {f : α → Prog C R β} {Q : α → Γ → Prop} {Q' : β → Γ → Prop}
    (h : Safe L p γ m Q) (hf : ∀ a γ, Q a γ → Safe L p γ (f a) Q') :
    Safe L p γ (m >>= f) Q' := by
  induction m generalizing γ with
  | ret a => exact hf a γ h
  | cmd c k ih =>
    intro s g hi hg
    obtain ⟨hpre, hs⟩ := h s g hi hg
    refine ⟨hpre, fun o s' r hr => ?_⟩
    obtain ⟨γ', hi', hk⟩ := hs o s' r hr
    exact ⟨γ', hi', ih r hk⟩

/-- **The rule for loops**: `J i l` holds of the knowledge before the turns `i, i + 1, …` over `l`. -/
theorem Safe.forEnum {body : ℕ → β → Prog C R Unit} {J : ℕ → List β → Γ → Prop}
    (hbody : ∀ i a l γ, J i (a :: l) γ → Safe L p γ (body i a) fun _ => J (i + 1) l) (i : ℕ)
    (l : List β) (h : J i l γ) :
    Safe L p γ (Prog.forEnum body i l) fun _ => J (i + l.length) [] := by
  induction l generalizing i γ with
  | nil => exact h
  | cons a l ih =>
    refine Safe.bind (hbody i a l γ h) fun _ γ' h' => ?_
    have := ih (i + 1) h'
    rwa [Nat.add_assoc, Nat.add_comm 1] at this

end Safe

end Prog

/-- A shared state and a program for each process; `ret ()` when it is between two calls. -/
structure Pool (P C S : Type) (R : C → Type) where
  shared : S
  thread : P → Prog C R Unit

namespace Pool

variable {P C S Γ O K X : Type} {R : C → Type} [DecidableEq P]

/-- A process makes a call, or performs the next command of its program; or the environment acts. -/
inductive Act (P O K X : Type)
  | call (p : P) (k : K)
  | run (p : P) (o : O)
  | env (x : X)

/-- The calls and their programs, when a process may make them, and what the environment does. -/
structure Calls (P C S K X : Type) (R : C → Type) where
  code : K → Prog C R Unit
  may : P → K → S → Bool
  env : X → S → Option S

/-- **One step of a pool.** -/
def step (handle : P → (c : C) → O → S → Option (S × R c)) (T : Calls P C S K X R)
    (s : Pool P C S R) : Act P O K X → Option (Pool P C S R)
  | .call p k =>
    match s.thread p with
    | .ret _ =>
      if T.may p k s.shared then some ⟨s.shared, update s.thread p (T.code k)⟩ else none
    | .cmd _ _ => none
  | .run p o =>
    match s.thread p with
    | .ret _ => none
    | .cmd c k => (handle p c o s.shared).map fun r => ⟨r.1, update s.thread p (k r.2)⟩
  | .env x => (T.env x s.shared).map fun t => ⟨t, s.thread⟩

/-- The processes stand at points of proof outlines that end in `Q`, and the invariant holds. -/
def Outlined (L : Prog.Logic P C S Γ O R) (Q : P → Γ → Prop) (s : Pool P C S R) : Prop :=
  ∃ g, L.inv s.shared g ∧ ∀ p, (s.thread p).Safe L p (g p) fun _ => Q p

variable {L : Prog.Logic P C S Γ O R} {T : Calls P C S K X R} {Q : P → Γ → Prop}

theorem Outlined.step {s s' : Pool P C S R} {a : Act P O K X} (h : Outlined L Q s)
    (hcall : ∀ s g p k, L.inv s g → Q p (g p) → T.may p k s = true →
      ∃ γ, L.inv s (update g p γ) ∧ (T.code k).Safe L p γ fun _ => Q p)
    (henv : ∀ x s s' g, L.inv s g → T.env x s = some s' → L.inv s' g)
    (hstep : Pool.step L.handle T s a = some s') : Outlined L Q s' := by
  obtain ⟨g, hi, hg⟩ := h
  -- the thread of `p` goes on as `m`, knowing `γ`; the others stay where they are
  have hupd : ∀ p γ (m : Prog C R Unit), (m.Safe L p γ fun _ => Q p) → ∀ q,
      (update s.thread p m q).Safe L q (update g p γ q) fun _ => Q q := by
    intro p γ m hm q
    by_cases hq : q = p
    · subst hq
      rw [update_self, update_self]
      exact hm
    · rw [update_of_ne hq, update_of_ne hq]
      exact hg q
  cases a with
  | call p k =>
    simp only [Pool.step] at hstep
    split at hstep
    · next x hx =>
      split_ifs at hstep with hmay
      cases hstep
      have hq := hg p
      rw [hx] at hq
      obtain ⟨γ, hi', hs⟩ := hcall _ g p k hi hq hmay
      exact ⟨_, hi', hupd p γ _ hs⟩
    · cases hstep
  | run p o =>
    simp only [Pool.step] at hstep
    split at hstep
    · cases hstep
    · next c k hc =>
      obtain ⟨⟨t, r⟩, hr, ⟨⟩⟩ := Option.map_eq_some_iff.1 hstep
      have hs := hg p
      rw [hc] at hs
      obtain ⟨γ, hi', hk⟩ := (hs _ g hi rfl).2 o t r hr
      exact ⟨_, hi', hupd p γ _ hk⟩
  | env x =>
    obtain ⟨t, ht, ⟨⟩⟩ := Option.map_eq_some_iff.1 hstep
    exact ⟨g, henv x _ t g hi ht, hg⟩

theorem safe_of_reach {s₀ s : Pool P C S R} {ok : Pool P C S R → Act P O K X → Prop}
    (h₀ : Outlined L Q s₀)
    (hcall : ∀ s g p k, L.inv s g → Q p (g p) → T.may p k s = true →
      ∃ γ, L.inv s (update g p γ) ∧ (T.code k).Safe L p γ fun _ => Q p)
    (henv : ∀ x s s' g, L.inv s g → T.env x s = some s' → L.inv s' g)
    (h : Reach (step L.handle T) ok s₀ s) : Outlined L Q s :=
  h.inv h₀ fun _ _ _ hi _ hstep => hi.step hcall henv hstep

end Pool
