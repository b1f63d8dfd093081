import Xv6.Lib.Runs

/-!
# Data behind one lock, with sleep and wakeup

Some data is used by several agents, each of which takes the lock, works, and may sleep on a channel until another
agent calls `wakeup` for it. `sleep` releases the lock; a process holds a lock of its own from before that until it
is asleep, and `wakeup` and `kill` wait for that lock, one process after the other.

* `Code`: what the holder of the lock does next. `State`, `step`: the machine. `Moves`, **`moves_of_step`**: all
  that a step can do.
* `Turns`, `Rests`: the same for the calls that are under way, and for those who sleep.
* `Outline`: an invariant of the data while the lock is free, and assertions for the holder and for those that come
  back from `sleep`. **`Outline.good_of_reach`**: they hold in every run.
* `Joint`, **`Joint.of_reach`**: the rule for an assertion about the data and where all agents stand. `Shared`,
  **`Shared.of_reach`**: the same where only the calls matter.
* `Telling`: whoever makes a channel worth waking owes a `wakeup` until it has been made.
  **`Telling.quiet_of_reach`**: while the lock is free, nobody sleeps on such a channel.
-/

namespace Monitor

open Function Runs

/-- What the holder of the lock does next. With `leave`, its call returns a result. -/
inductive Act (D L C R : Type)
  | go (d : D) (l : L)
  | wakeup (c : C) (l : L)
  | sleep (c : C) (l : L)
  | leave (d : D) (r : R)

namespace Act

variable {D L C R : Type}

def next : Act D L C R → Option L
  | go _ l | wakeup _ l | sleep _ l => some l
  | leave _ _ => none

def data : Act D L C R → Option D
  | go d _ | leave d _ => some d
  | _ => none

end Act

/-- **The code behind the lock**: the table that `wakeup` goes through, whether the lock exists, and the next
action of an agent that holds it, killed or not. A device may change the data without the lock; `env` says in which
ways. -/
structure Code (P D L C R : Type) where
  procs : List P
  live : D → Bool
  act : P → Bool → L → D → Act D L C R
  env : ℕ → D → Option D

/-- Where an agent is: outside, with the result of its last call; before `acquire`; holding the lock; inside
`wakeup`, with the processes it has not seen; inside `sleep`, before it is asleep; asleep. -/
inductive At (P L C R : Type)
  | out (res : Option R)
  | spin (l : L)
  | hold (l : L)
  | waking (c : C) (todo : List P) (l : L)
  | doze (c : C) (l : L)
  | asleep (c : C) (l : L)

namespace At

variable {P L C R : Type}

/-- What an agent that holds the lock does next. -/
def inside : At P L C R → Option L
  | hold l | waking _ _ l => some l
  | _ => none

/-- What an agent that waits for the lock, or sleeps, will do. -/
def away : At P L C R → Option L
  | spin l | doze _ l | asleep _ l => some l
  | _ => none

def busy : At P L C R → Option L
  | out _ => none
  | spin l | hold l | waking _ _ l | doze _ l | asleep _ l => some l

/-- The channel of an agent that sleeps or is about to. -/
def waits : At P L C R → Option C
  | doze c _ | asleep c _ => some c
  | _ => none

/-- The agent holds its own lock. -/
def dozing : At P L C R → Bool
  | doze _ _ => true
  | _ => false

/-- `p->state = RUNNABLE` where `p` is asleep on a channel that `b` picks. -/
def rouse (b : C → Bool) : At P L C R → At P L C R
  | asleep c l => if b c then spin l else asleep c l
  | a => a

end At

/-- The data, the lock, where the agents are, and who is killed. -/
structure State (P D L C R : Type) where
  data : D
  lock : Option P
  pos : P → At P L C R
  killed : P → Bool

inductive Ev (P L : Type)
  | call (p : P) (l : L)
  | acquire (p : P)
  | run (p : P)
  | kill (p : P)
  | env (k : ℕ)

section

variable {P D L C R : Type} [DecidableEq P]

namespace State

def put (s : State P D L C R) (p : P) (a : At P L C R) : State P D L C R := { s with pos := update s.pos p a }

def setLock (s : State P D L C R) (o : Option P) : State P D L C R := { s with lock := o }

def setData (s : State P D L C R) (d : D) : State P D L C R := { s with data := d }

def setKilled (s : State P D L C R) (p : P) : State P D L C R := { s with killed := update s.killed p true }

def start (d : D) : State P D L C R := ⟨d, none, fun _ => .out none, fun _ => false⟩

def Nobody (s : State P D L C R) (c : C) : Prop := ∀ p, (s.pos p).waits ≠ some c

end State

variable {code : Code P D L C R} {s s' : State P D L C R} {e : Ev P L}

section

variable [DecidableEq C]

def step (code : Code P D L C R) (s : State P D L C R) : Ev P L → Option (State P D L C R)
  | .call p l =>
    match s.pos p with
    | .out _ => some (s.put p (.spin l))
    | _ => none
  | .acquire p =>
    match s.pos p, s.lock with
    | .spin l, none => if code.live s.data then some ((s.setLock (some p)).put p (.hold l)) else none
    | _, _ => none
  | .run p =>
    match s.pos p with
    | .hold l =>
      match code.act p (s.killed p) l s.data with
      | .go d l' => some ((s.setData d).put p (.hold l'))
      | .wakeup c l' => some (s.put p (.waking c code.procs l'))
      | .sleep c l' => some ((s.setLock none).put p (.doze c l'))
      | .leave d r => some (((s.setData d).setLock none).put p (.out (some r)))
    | .waking _ [] l => some (s.put p (.hold l))
    | .waking c (q :: todo) l =>
      if (s.pos q).dozing then none
      else some ((s.put q ((s.pos q).rouse (· = c))).put p (.waking c todo l))
    | .doze c l => some (s.put p (.asleep c l))
    | _ => none
  | .kill q =>
    if (s.pos q).dozing then none
    else some ((s.setKilled q).put q ((s.pos q).rouse fun _ => true))
  | .env k => (code.env k s.data).map s.setData

/-! ## What a step can do -/

/-- **All that a step can do.** -/
inductive Moves (code : Code P D L C R) (s : State P D L C R) : Ev P L → State P D L C R → Prop
  | call {p : P} {l : L} {r : Option R} (h : s.pos p = .out r) : Moves code s (.call p l) (s.put p (.spin l))
  | acquire {p : P} {l : L} (h : s.pos p = .spin l) (hlock : s.lock = none) (hlive : code.live s.data = true) :
      Moves code s (.acquire p) ((s.setLock (some p)).put p (.hold l))
  | go {p : P} {l l' : L} {d : D} (h : s.pos p = .hold l) (ha : code.act p (s.killed p) l s.data = .go d l') :
      Moves code s (.run p) ((s.setData d).put p (.hold l'))
  | wakeup {p : P} {l l' : L} {c : C} (h : s.pos p = .hold l)
      (ha : code.act p (s.killed p) l s.data = .wakeup c l') :
      Moves code s (.run p) (s.put p (.waking c code.procs l'))
  | sleep {p : P} {l l' : L} {c : C} (h : s.pos p = .hold l)
      (ha : code.act p (s.killed p) l s.data = .sleep c l') :
      Moves code s (.run p) ((s.setLock none).put p (.doze c l'))
  | leave {p : P} {l : L} {d : D} {r : R} (h : s.pos p = .hold l)
      (ha : code.act p (s.killed p) l s.data = .leave d r) :
      Moves code s (.run p) (((s.setData d).setLock none).put p (.out (some r)))
  | woken {p : P} {l : L} {c : C} (h : s.pos p = .waking c [] l) : Moves code s (.run p) (s.put p (.hold l))
  | visit {p q : P} {l : L} {c : C} {todo : List P} (h : s.pos p = .waking c (q :: todo) l)
      (hq : (s.pos q).dozing = false) :
      Moves code s (.run p) ((s.put q ((s.pos q).rouse (· = c))).put p (.waking c todo l))
  | fall {p : P} {l : L} {c : C} (h : s.pos p = .doze c l) : Moves code s (.run p) (s.put p (.asleep c l))
  | kill {q : P} (hq : (s.pos q).dozing = false) :
      Moves code s (.kill q) ((s.setKilled q).put q ((s.pos q).rouse fun _ => true))
  | env {k : ℕ} {d : D} (h : code.env k s.data = some d) : Moves code s (.env k) (s.setData d)

theorem moves_of_step (h : step code s e = some s') : Moves code s e s' := by
  cases e with
  | call p l =>
    simp only [step] at h
    split at h
    · next r hp =>
      cases h
      exact .call hp
    · cases h
  | acquire p =>
    simp only [step] at h
    split at h
    · next l hp hlock =>
      split_ifs at h with hlive
      cases h
      exact .acquire hp hlock hlive
    · cases h
  | run p =>
    simp only [step] at h
    split at h
    · next l hp =>
      split at h
      · next ha =>
        cases h
        exact .go hp ha
      · next ha =>
        cases h
        exact .wakeup hp ha
      · next ha =>
        cases h
        exact .sleep hp ha
      · next ha =>
        cases h
        exact .leave hp ha
    · next hp =>
      cases h
      exact .woken hp
    · next hp =>
      split_ifs at h with hq
      cases h
      exact .visit hp (Bool.eq_false_iff.2 hq)
    · next hp =>
      cases h
      exact .fall hp
    · cases h
  | kill q =>
    simp only [step] at h
    split_ifs at h with hq
    cases h
    exact .kill (Bool.eq_false_iff.2 hq)
  | env k =>
    obtain ⟨d, hd, rfl⟩ := Option.map_eq_some_iff.1 h
    exact .env hd

end

section Pos

variable {p q : P} {a : At P L C R}

@[simp] theorem pos_put_same : (s.put p a).pos p = a := update_self ..

theorem pos_put_of_ne (h : q ≠ p) : (s.put p a).pos q = s.pos q := update_of_ne h _ _

@[simp] theorem data_put : (s.put p a).data = s.data := rfl

@[simp] theorem lock_put : (s.put p a).lock = s.lock := rfl

section

omit [DecidableEq P]

@[simp] theorem lock_setLock (o : Option P) : (s.setLock o).lock = o := rfl

@[simp] theorem pos_setLock (o : Option P) : (s.setLock o).pos = s.pos := rfl

@[simp] theorem lock_setData (d : D) : (s.setData d).lock = s.lock := rfl

@[simp] theorem pos_setData (d : D) : (s.setData d).pos = s.pos := rfl

end

variable {b : C → Bool}

section

omit [DecidableEq P]

@[simp] theorem inside_rouse : (a.rouse b).inside = a.inside := by
  cases a with
  | asleep c l =>
    simp only [At.rouse]
    split <;> rfl
  | _ => rfl

@[simp] theorem away_rouse : (a.rouse b).away = a.away := by
  cases a with
  | asleep c l =>
    simp only [At.rouse]
    split <;> rfl
  | _ => rfl

@[simp] theorem busy_rouse : (a.rouse b).busy = a.busy := by
  cases a with
  | asleep c l =>
    simp only [At.rouse]
    split <;> rfl
  | _ => rfl

theorem waits_rouse {c : C} (ha : a.dozing = false) (h : (a.rouse b).waits = some c) :
    a.waits = some c ∧ b c = false := by
  cases a with
  | asleep c' l =>
    simp only [At.rouse] at h
    split at h
    · cases h
    · next hb =>
      cases h
      exact ⟨rfl, Bool.eq_false_iff.2 hb⟩
  | doze c' l => cases ha
  | out r => cases h
  | spin l => cases h
  | hold l => cases h
  | waking c' t l => cases h

end

end Pos

/-! ## Calls -/

/-- **What a step does to the call of an agent.** -/
inductive Turns (code : Code P D L C R) (s : State P D L C R) (e : Ev P L) (s' : State P D L C R) (q : P) : Prop
  | same (h : (s'.pos q).busy = (s.pos q).busy)
  | call {l : L} (he : e = .call q l) (h : (s'.pos q).busy = some l)
  | next {l l' : L} (he : e = .run q) (hq : s.pos q = .hold l)
      (ha : (code.act q (s.killed q) l s.data).next = some l') (h : (s'.pos q).busy = some l')
  | left (h : (s'.pos q).busy = none)

theorem busy_put {q p : P} {a : At P L C R} {t : State P D L C R} (hpos : t.pos = s.pos)
    (h : q = p → Turns code s e (t.put p a) q) : Turns code s e (t.put p a) q := by
  by_cases hq : q = p
  · exact h hq
  · refine .same ?_
    rw [pos_put_of_ne hq, hpos]

def Rests (code : Code P D L C R) (s : State P D L C R) : Prop :=
  ∀ p c l, s.pos p = .doze c l ∨ s.pos p = .asleep c l → ∃ b k d, code.act p b k d = .sleep c l

theorem Rests.put {p : P} {a : At P L C R} {t : State P D L C R} (h : Rests code s) (hpos : t.pos = s.pos)
    (ha : ∀ c l, a = .doze c l ∨ a = .asleep c l → ∃ b k d, code.act p b k d = .sleep c l) :
    Rests code (t.put p a) := by
  intro q c l hq
  by_cases hqp : q = p
  · subst hqp
    rw [pos_put_same] at hq
    exact ha c l hq
  · rw [pos_put_of_ne hqp, hpos] at hq
    exact h q c l hq

theorem Rests.rouse {b : C → Bool} {p : P} {t : State P D L C R} (h : Rests code s) (hpos : t.pos = s.pos) :
    Rests code (t.put p ((s.pos p).rouse b)) := by
  refine h.put hpos fun c l hq => ?_
  cases hp : s.pos p with
  | asleep c' l' =>
    rw [hp] at hq
    simp only [At.rouse] at hq
    split at hq
    · rcases hq with hq | hq <;> cases hq
    · rcases hq with hq | hq
      · cases hq
      · cases hq
        exact h p c l (.inr hp)
  | doze c' l' =>
    rw [hp] at hq
    rcases hq with hq | hq
    · cases hq
      exact h p c l (.inl hp)
    · cases hq
  | _ =>
    rw [hp] at hq
    rcases hq with hq | hq <;> cases hq

section

variable [DecidableEq C]

/-- **Every step does one of these to every call.** -/
theorem Moves.turns (hm : Moves code s e s') (q : P) : Turns code s e s' q := by
  cases hm with
  | call hp =>
    refine busy_put rfl ?_
    rintro rfl
    exact .call rfl (by rw [pos_put_same]; rfl)
  | acquire hp _ _ =>
    refine busy_put rfl ?_
    rintro rfl
    exact .same (by rw [pos_put_same, hp]; rfl)
  | go hp ha =>
    refine busy_put rfl ?_
    rintro rfl
    exact .next rfl hp (by rw [ha]; rfl) (by rw [pos_put_same]; rfl)
  | wakeup hp ha =>
    refine busy_put rfl ?_
    rintro rfl
    exact .next rfl hp (by rw [ha]; rfl) (by rw [pos_put_same]; rfl)
  | sleep hp ha =>
    refine busy_put rfl ?_
    rintro rfl
    exact .next rfl hp (by rw [ha]; rfl) (by rw [pos_put_same]; rfl)
  | leave hp ha =>
    refine busy_put rfl ?_
    rintro rfl
    exact .left (by rw [pos_put_same]; rfl)
  | woken hp =>
    refine busy_put rfl ?_
    rintro rfl
    exact .same (by rw [pos_put_same, hp]; rfl)
  | @visit p q₀ l c todo hp hq =>
    refine .same ?_
    by_cases hqp : q = p
    · rw [hqp, pos_put_same, hp]
      rfl
    · rw [pos_put_of_ne hqp]
      by_cases hqq : q = q₀
      · rw [hqq, pos_put_same, busy_rouse]
      · rw [pos_put_of_ne hqq]
  | fall hp =>
    refine busy_put rfl ?_
    rintro rfl
    exact .same (by rw [pos_put_same, hp]; rfl)
  | kill hq =>
    refine busy_put rfl ?_
    rintro rfl
    exact .same (by rw [pos_put_same, busy_rouse])
  | env hd => exact .same rfl

theorem Moves.data (hm : Moves code s e s') : s'.data = s.data ∨
    (∃ p l, e = .run p ∧ s.pos p = .hold l ∧ (code.act p (s.killed p) l s.data).data = some s'.data) ∨
      ∃ k, code.env k s.data = some s'.data := by
  cases hm with
  | go hp ha => exact .inr (.inl ⟨_, _, rfl, hp, by rw [ha]; rfl⟩)
  | leave hp ha => exact .inr (.inl ⟨_, _, rfl, hp, by rw [ha]; rfl⟩)
  | env hd => exact .inr (.inr ⟨_, hd⟩)
  | _ => exact .inl rfl

theorem Moves.rests (hm : Moves code s e s') (h : Rests code s) : Rests code s' := by
  cases hm with
  | @sleep p l l' c hp ha =>
    refine h.put rfl fun c' k hk => ?_
    rcases hk with hk | hk
    · cases hk
      exact ⟨_, _, _, ha⟩
    · cases hk
  | @fall p l c hp =>
    refine h.put rfl fun c' k hk => ?_
    rcases hk with hk | hk
    · cases hk
    · cases hk
      exact h p c l (.inl hp)
  | @visit p q l c todo hp hq =>
    have h₁ : Rests code (s.put q ((s.pos q).rouse (· = c))) := h.rouse rfl
    exact h₁.put rfl fun c' k hk => by rcases hk with hk | hk <;> cases hk
  | kill hq => exact h.rouse rfl
  | env hd => exact h
  | _ => exact h.put rfl fun c' k hk => by rcases hk with hk | hk <;> cases hk

end

/-! ## Assertions -/

/-- What an action has to keep: the assertion `J` for the holder of the lock, or, when it gives the lock away, the
invariant `I` of the data and the assertion `K` for the time away. -/
def Keeps (I : D → Prop) (K : P → L → Prop) (J : P → L → D → Prop) (p : P) (d₀ : D) : Act D L C R → Prop
  | .go d l => J p l d
  | .wakeup _ l => J p l d₀
  | .sleep _ l => I d₀ ∧ K p l
  | .leave d _ => I d

/-- **A proof outline of the code**, for runs whose steps `ok` allows. -/
structure Outline (code : Code P D L C R) (ok : State P D L C R → Ev P L → Prop) (I : D → Prop) (K : P → L → Prop)
    (J : P → L → D → Prop) : Prop where
  call : ∀ s p l, ok s (.call p l) → K p l
  enter : ∀ p l d, code.live d = true → I d → K p l → J p l d
  act : ∀ s p l, ok s (.run p) → s.pos p = .hold l → J p l s.data →
    Keeps I K J p s.data (code.act p (s.killed p) l s.data)
  env : ∀ k d d', code.env k d = some d' → (I d → I d') ∧ ∀ p l, J p l d → J p l d'

structure Good (I : D → Prop) (K : P → L → Prop) (J : P → L → D → Prop) (s : State P D L C R) : Prop where
  mutex : ∀ p, s.lock = some p ↔ (s.pos p).inside ≠ none
  free : s.lock = none → I s.data
  held : ∀ p l, (s.pos p).inside = some l → J p l s.data
  away : ∀ p l, (s.pos p).away = some l → K p l

section Rule

variable {ok : State P D L C R → Ev P L → Prop} {I : D → Prop} {K : P → L → Prop} {J : P → L → D → Prop}

section

omit [DecidableEq P]

theorem good_start {d : D} (h : I d) : Good I K J (State.start d : State P D L C R) where
  mutex := fun p => by simp [State.start, At.inside]
  free := fun _ => h
  held := fun p l hl => by cases hl
  away := fun p l hl => by cases hl

theorem Good.data (h : Good I K J s) (hJ : ∀ p l d, J p l d → I d) : I s.data := by
  cases hlock : s.lock with
  | none => exact h.free hlock
  | some p =>
    obtain ⟨l, hl⟩ := Option.ne_none_iff_exists'.1 ((h.mutex p).1 hlock)
    exact hJ p l _ (h.held p l hl)

end

variable {p : P}

theorem Good.keep (h : Good I K J s) {l l' : L} {d : D} {a : At P L C R} (hp : (s.pos p).inside = some l)
    (ha : a.inside = some l') (haway : a.away = none) (hj : J p l' d) : Good I K J ((s.setData d).put p a) := by
  have hlock : s.lock = some p := (h.mutex p).2 (by simp [hp])
  have hother : ∀ q, q ≠ p → (s.pos q).inside = none := by
    intro q hq
    by_contra hin
    have := (h.mutex q).2 hin
    rw [hlock] at this
    exact hq (Option.some.inj this).symm
  refine ⟨fun q => ?_, fun hnone => ?_, fun q k hk => ?_, fun q k hk => ?_⟩
  · by_cases hq : q = p
    · subst hq
      simp [hlock, ha]
    · rw [pos_put_of_ne hq]
      exact h.mutex q
  · rw [lock_put, lock_setData, hlock] at hnone
    cases hnone
  · by_cases hq : q = p
    · subst hq
      rw [pos_put_same, ha] at hk
      cases hk
      exact hj
    · rw [pos_put_of_ne hq, pos_setData, hother q hq] at hk
      cases hk
  · by_cases hq : q = p
    · subst hq
      rw [pos_put_same, haway] at hk
      cases hk
    · rw [pos_put_of_ne hq] at hk
      exact h.away q k hk

theorem Good.release (h : Good I K J s) {l : L} {d : D} {a : At P L C R} (hp : (s.pos p).inside = some l)
    (ha : a.inside = none) (haway : ∀ l', a.away = some l' → K p l') (hi : I d) :
    Good I K J (((s.setData d).setLock none).put p a) := by
  have hlock : s.lock = some p := (h.mutex p).2 (by simp [hp])
  have hnone : ∀ q, (update s.pos p a q).inside = none := by
    intro q
    by_cases hq : q = p
    · rw [hq, update_self, ha]
    · rw [update_of_ne hq]
      by_contra hin
      have := (h.mutex q).2 hin
      rw [hlock] at this
      exact hq (Option.some.inj this).symm
  refine ⟨fun q => ?_, fun _ => hi, fun q k hk => ?_, fun q k hk => ?_⟩
  · exact iff_of_false (by simp) fun hne => hne (hnone q)
  · exact absurd ((hnone q).symm.trans hk) (by simp)
  · by_cases hq : q = p
    · subst hq
      rw [pos_put_same] at hk
      exact haway k hk
    · rw [pos_put_of_ne hq] at hk
      exact h.away q k hk

theorem Good.outside (h : Good I K J s) {a : At P L C R} (ha : a.inside = (s.pos p).inside)
    (haway : ∀ l, a.away = some l → K p l) : Good I K J (s.put p a) := by
  refine ⟨fun q => ?_, h.free, fun q k hk => ?_, fun q k hk => ?_⟩
  · by_cases hq : q = p
    · subst hq
      rw [pos_put_same, ha]
      exact h.mutex q
    · rw [pos_put_of_ne hq]
      exact h.mutex q
  · by_cases hq : q = p
    · subst hq
      rw [pos_put_same, ha] at hk
      exact h.held q k hk
    · rw [pos_put_of_ne hq] at hk
      exact h.held q k hk
  · by_cases hq : q = p
    · subst hq
      rw [pos_put_same] at hk
      exact haway k hk
    · rw [pos_put_of_ne hq] at hk
      exact h.away q k hk

theorem Good.acquire (h : Good I K J s) {l : L} (hp : (s.pos p).inside = none) (hlock : s.lock = none)
    (hj : J p l s.data) : Good I K J ((s.setLock (some p)).put p (.hold l)) := by
  have hnone : ∀ q, (s.pos q).inside = none := by
    intro q
    by_contra hin
    rw [← ne_eq, ← h.mutex q, hlock] at hin
    cases hin
  refine ⟨fun q => ?_, nofun, fun q k hk => ?_, fun q k hk => ?_⟩
  · by_cases hq : q = p
    · subst hq
      simp [At.inside]
    · rw [pos_put_of_ne hq, pos_setLock, hnone q]
      simpa using Ne.symm hq
  · by_cases hq : q = p
    · subst hq
      rw [pos_put_same] at hk
      cases hk
      exact hj
    · rw [pos_put_of_ne hq, pos_setLock, hnone q] at hk
      cases hk
  · by_cases hq : q = p
    · subst hq
      rw [pos_put_same] at hk
      cases hk
    · rw [pos_put_of_ne hq] at hk
      exact h.away q k hk

variable [DecidableEq C]

omit [DecidableEq P] [DecidableEq C] in
theorem Outline.acts (ho : Outline code ok I K J) (h : Good I K J s) {l : L} (hok : ok s (.run p))
    (hp : s.pos p = .hold l) {a : Act D L C R} (ha : code.act p (s.killed p) l s.data = a) :
    Keeps I K J p s.data a :=
  ha ▸ ho.act s p l hok hp (h.held _ _ (by rw [hp]; rfl))

theorem Outline.keeps (ho : Outline code ok I K J) (h : Good I K J s) (hok : ok s e) (hm : Moves code s e s') :
    Good I K J s' := by
  cases hm with
  | call hp =>
    refine h.outside (by rw [hp]; rfl) fun l' hl' => ?_
    cases hl'
    exact ho.call s _ _ hok
  | acquire hp hlock hlive =>
    refine h.acquire (by rw [hp]; rfl) hlock ?_
    exact ho.enter _ _ _ hlive (h.free hlock) (h.away _ _ (by rw [hp]; rfl))
  | go hp ha => exact h.keep (by rw [hp]; rfl) rfl rfl (ho.acts h hok hp ha)
  | wakeup hp ha => exact h.keep (by rw [hp]; rfl) rfl rfl (ho.acts h hok hp ha)
  | sleep hp ha =>
    have hact := ho.acts h hok hp ha
    refine h.release (by rw [hp]; rfl) rfl (fun l' hl' => ?_) hact.1
    cases hl'
    exact hact.2
  | leave hp ha => exact h.release (by rw [hp]; rfl) rfl nofun (ho.acts h hok hp ha)
  | woken hp => exact h.keep (by rw [hp]; rfl) rfl rfl (h.held _ _ (by rw [hp]; rfl))
  | @visit p q l c todo hp hq =>
    have h₁ : Good I K J (s.put q ((s.pos q).rouse (· = c))) :=
      h.outside inside_rouse fun l' hl' => h.away q l' (by rwa [away_rouse] at hl')
    have hp₁ : ((s.put q ((s.pos q).rouse (· = c))).pos p).inside = some l := by
      by_cases hpq : p = q
      · subst hpq
        rw [pos_put_same, inside_rouse, hp]
        rfl
      · rw [pos_put_of_ne hpq, hp]
        rfl
    exact h₁.keep hp₁ rfl rfl (h₁.held p l hp₁)
  | fall hp =>
    refine h.outside (by rw [hp]; rfl) fun l' hl' => ?_
    cases hl'
    exact h.away _ _ (by rw [hp]; rfl)
  | @kill q hq =>
    have h₁ : Good I K J (s.setKilled q) := ⟨h.mutex, h.free, h.held, h.away⟩
    exact h₁.outside inside_rouse fun l' hl' => h.away q l' (by rwa [away_rouse] at hl')
  | env hd =>
    obtain ⟨hi, hj⟩ := ho.env _ _ _ hd
    exact ⟨h.mutex, fun hnone => hi (h.free hnone), fun q l hl => hj q l (h.held q l hl), h.away⟩

theorem Outline.good_of_reach (ho : Outline code ok I K J) {d : D} (hd : I d)
    (h : Reach (step code) ok (.start d) s) : Good I K J s :=
  h.inv (good_start hd) fun _ _ _ hs hok hstep => ho.keeps hs hok (moves_of_step hstep)

end Rule

/-! ## Nobody sleeps for nothing -/

/-- What an action has to do about sleepers: where it makes channel `c` worth waking, so that `quiet c` does not
hold any more, it owes a `wakeup` from then on. It sleeps, or leaves, when it owes nothing to anybody. -/
def Tells (code : Code P D L C R) (quiet : C → D → Prop) (owes : L → C → Prop) (s : State P D L C R) (p : P) (l : L) :
    Act D L C R → Prop
  | .go d l' => ∀ c, quiet c s.data ∨ owes l c → quiet c d ∨ owes l' c
  | .wakeup c l' => ∀ c', c' ≠ c → owes l c' → quiet c' s.data ∨ owes l' c'
  | .sleep c _ => p ∈ code.procs ∧ quiet c s.data ∧ ∀ c', owes l c' → quiet c' s.data ∨ s.Nobody c'
  | .leave d _ => ∀ c, quiet c s.data ∨ owes l c → quiet c d ∨ s.Nobody c

/-- **Every action of the code tells those who sleep.** -/
structure Telling (code : Code P D L C R) (ok : State P D L C R → Ev P L → Prop) (J : P → L → D → Prop)
    (quiet : C → D → Prop) (owes : L → C → Prop) : Prop where
  act : ∀ s p l, ok s (.run p) → s.pos p = .hold l → J p l s.data →
    Tells code quiet owes s p l (code.act p (s.killed p) l s.data)
  env : ∀ k d d', code.env k d = some d' → ∀ c, quiet c d → quiet c d'

/-- Agent `q` will be woken from channel `c` by the agent at this place. -/
def Pending (owes : L → C → Prop) (c : C) (q : P) : At P L C R → Prop
  | .hold l => owes l c
  | .waking c' todo l => (c' = c ∧ q ∈ todo) ∨ owes l c
  | _ => False

/-- Whoever sleeps on a channel that is worth waking will be woken by the holder of the lock. -/
structure Heard (code : Code P D L C R) (quiet : C → D → Prop) (owes : L → C → Prop) (s : State P D L C R) : Prop where
  listed : ∀ q c, (s.pos q).waits = some c → q ∈ code.procs
  heard : ∀ q c, (s.pos q).waits = some c →
    quiet c s.data ∨ ∃ p, s.lock = some p ∧ Pending owes c q (s.pos p)

section Rule

variable {ok : State P D L C R → Ev P L → Prop} {I : D → Prop} {K : P → L → Prop} {J : P → L → D → Prop}
  {quiet : C → D → Prop} {owes : L → C → Prop}

section

omit [DecidableEq P]

theorem heard_start {d : D} : Heard code quiet owes (State.start d : State P D L C R) where
  listed := fun q c hq => by cases hq
  heard := fun q c hq => by cases hq

theorem Heard.fine (h : Heard code quiet owes s) (hlock : s.lock = none) {q : P} {c : C}
    (hq : (s.pos q).waits = some c) : quiet c s.data := by
  rcases h.heard q c hq with hquiet | ⟨p, hp, -⟩
  · exact hquiet
  · rw [hlock] at hp
    cases hp

theorem Heard.owed (h : Heard code quiet owes s) {p : P} (hlock : s.lock = some p) {q : P} {c : C}
    (hq : (s.pos q).waits = some c) : quiet c s.data ∨ Pending owes c q (s.pos p) := by
  refine (h.heard q c hq).imp_right ?_
  rintro ⟨p', hp', hpend⟩
  rw [hlock] at hp'
  cases hp'
  exact hpend

end

theorem Heard.move (h : Heard code quiet owes s) {p : P} {a : At P L C R} {t : State P D L C R} (ha : a.waits = none)
    (hpos : t.pos = s.pos)
    (hheard : ∀ q c, q ≠ p → (s.pos q).waits = some c →
      quiet c t.data ∨ ∃ p', t.lock = some p' ∧ Pending owes c q ((t.put p a).pos p')) :
    Heard code quiet owes (t.put p a) := by
  have hne : ∀ q c, ((t.put p a).pos q).waits = some c → q ≠ p ∧ (s.pos q).waits = some c := by
    intro q c hq
    by_cases hqp : q = p
    · subst hqp
      rw [pos_put_same, ha] at hq
      cases hq
    · rw [pos_put_of_ne hqp, hpos] at hq
      exact ⟨hqp, hq⟩
  refine ⟨fun q c hq => h.listed q c (hne q c hq).2, fun q c hq => ?_⟩
  exact hheard q c (hne q c hq).1 (hne q c hq).2

variable [DecidableEq C]

omit [DecidableEq P] [DecidableEq C] in
theorem Telling.acts (ht : Telling code ok J quiet owes) (hg : Good I K J s) {p : P} {l : L} (hok : ok s (.run p))
    (hp : s.pos p = .hold l) {a : Act D L C R} (ha : code.act p (s.killed p) l s.data = a) :
    Tells code quiet owes s p l a :=
  ha ▸ ht.act s p l hok hp (hg.held _ _ (by rw [hp]; rfl))

theorem Telling.keeps (ht : Telling code ok J quiet owes) (hg : Good I K J s) (h : Heard code quiet owes s)
    (hok : ok s e) (hm : Moves code s e s') : Heard code quiet owes s' := by
  have hlock : ∀ {p l}, s.pos p = .hold l → s.lock = some p := fun hp => (hg.mutex _).2 (by simp [hp, At.inside])
  have hout : ∀ {p : P} {a : At P L C R}, s.pos p = a → a.inside = none → s.lock ≠ some p := by
    intro p a hp ha hl
    exact (hg.mutex p).1 hl (by rw [hp, ha])
  cases hm with
  | @call p l r hp =>
    refine h.move rfl rfl fun q c _ hq => (h.heard q c hq).imp_right ?_
    rintro ⟨p', hp', hpend⟩
    have hne : p' ≠ p := fun he => hout hp rfl (he ▸ hp')
    exact ⟨p', hp', by rwa [pos_put_of_ne hne]⟩
  | acquire hp hnone hlive => exact h.move rfl rfl fun q c _ hq => .inl (h.fine hnone hq)
  | @go p l l' d hp ha =>
    have hact := ht.acts hg hok hp ha
    refine h.move rfl rfl fun q c _ hq => ?_
    have howed := h.owed (hlock hp) hq
    rw [hp] at howed
    refine (hact c howed).imp_right fun ho => ⟨p, hlock hp, ?_⟩
    rw [pos_put_same]
    exact ho
  | @wakeup p l l' c₀ hp ha =>
    have hact := ht.acts hg hok hp ha
    refine h.move rfl rfl fun q c _ hq => ?_
    have howed := h.owed (hlock hp) hq
    rw [hp] at howed
    by_cases hc : c = c₀
    · refine .inr ⟨p, hlock hp, ?_⟩
      rw [pos_put_same]
      exact .inl ⟨hc.symm, h.listed q c hq⟩
    · rcases howed with hquiet | ho
      · exact .inl hquiet
      · refine (hact c hc ho).imp_right fun ho' => ⟨p, hlock hp, ?_⟩
        rw [pos_put_same]
        exact .inr ho'
  | @sleep p l l' c₀ hp ha =>
    have hact := ht.acts hg hok hp ha
    obtain ⟨hmem, hquiet₀, howe⟩ := hact
    refine ⟨fun q c hq => ?_, fun q c hq => .inl ?_⟩
    · by_cases hqp : q = p
      · rw [hqp]
        exact hmem
      · rw [pos_put_of_ne hqp] at hq
        exact h.listed q c hq
    · by_cases hqp : q = p
      · subst hqp
        rw [pos_put_same] at hq
        cases hq
        exact hquiet₀
      · rw [pos_put_of_ne hqp] at hq
        have howed := h.owed (hlock hp) hq
        rw [hp] at howed
        rcases howed with hquiet | ho
        · exact hquiet
        · rcases howe c ho with hquiet | hno
          · exact hquiet
          · exact absurd hq (hno q)
  | @leave p l d r hp ha =>
    have hact := ht.acts hg hok hp ha
    refine h.move rfl rfl fun q c _ hq => .inl ?_
    have howed := h.owed (hlock hp) hq
    rw [hp] at howed
    rcases hact c howed with hquiet | hno
    · exact hquiet
    · exact absurd hq (hno q)
  | @woken p l c₀ hp =>
    have hl : s.lock = some p := (hg.mutex _).2 (by simp [hp, At.inside])
    refine h.move rfl rfl fun q c _ hq => ?_
    have howed := h.owed hl hq
    rw [hp] at howed
    refine howed.imp_right fun ho => ⟨p, hl, ?_⟩
    rw [pos_put_same]
    rcases ho with ⟨-, hnil⟩ | ho
    · cases hnil
    · exact ho
  | @visit p q₀ l c₀ todo hp hq₀ =>
    have hl : s.lock = some p := (hg.mutex _).2 (by simp [hp, At.inside])
    -- `q₀` waits on no channel but others
    have hwaits : ∀ q c, q ≠ p →
        (((s.put q₀ ((s.pos q₀).rouse (· = c₀))).put p (.waking c₀ todo l)).pos q).waits = some c →
        (s.pos q).waits = some c ∧ (q = q₀ → c ≠ c₀) := by
      intro q c hqp hq
      rw [pos_put_of_ne hqp] at hq
      by_cases hqq : q = q₀
      · subst hqq
        rw [pos_put_same] at hq
        obtain ⟨hw, hc⟩ := waits_rouse hq₀ hq
        exact ⟨hw, fun _ => by simpa using hc⟩
      · rw [pos_put_of_ne hqq] at hq
        exact ⟨hq, fun he => absurd he hqq⟩
    have hself : ∀ q c, (((s.put q₀ ((s.pos q₀).rouse (· = c₀))).put p (.waking c₀ todo l)).pos q).waits = some c →
        q ≠ p := by
      rintro q c hq rfl
      rw [pos_put_same] at hq
      cases hq
    refine ⟨fun q c hq => h.listed q c (hwaits q c (hself q c hq) hq).1, fun q c hq => ?_⟩
    obtain ⟨hw, hne⟩ := hwaits q c (hself q c hq) hq
    have howed := h.owed hl hw
    rw [hp] at howed
    refine howed.imp_right fun ho => ⟨p, hl, ?_⟩
    rw [pos_put_same]
    refine ho.imp_left ?_
    rintro ⟨hc, hmem⟩
    refine ⟨hc, (List.mem_cons.1 hmem).resolve_left fun he => hne he hc.symm⟩
  | @fall p l c₀ hp =>
    have hsame : ∀ q, ((s.put p (.asleep c₀ l)).pos q).waits = (s.pos q).waits := by
      intro q
      by_cases hqp : q = p
      · rw [hqp, pos_put_same, hp]
        rfl
      · rw [pos_put_of_ne hqp]
    refine ⟨fun q c hq => h.listed q c (hsame q ▸ hq), fun q c hq => ?_⟩
    refine (h.heard q c (hsame q ▸ hq)).imp_right ?_
    rintro ⟨p', hp', hpend⟩
    have hne : p' ≠ p := fun he => hout hp rfl (he ▸ hp')
    exact ⟨p', hp', by rwa [pos_put_of_ne hne]⟩
  | @kill q₀ hq₀ =>
    have hwaits : ∀ q c, (((s.setKilled q₀).put q₀ ((s.pos q₀).rouse fun _ => true)).pos q).waits = some c →
        (s.pos q).waits = some c := by
      intro q c hq
      by_cases hqq : q = q₀
      · subst hqq
        rw [pos_put_same] at hq
        exact (waits_rouse hq₀ hq).1
      · rwa [pos_put_of_ne hqq] at hq
    refine ⟨fun q c hq => h.listed q c (hwaits q c hq), fun q c hq => ?_⟩
    refine (h.heard q c (hwaits q c hq)).imp_right ?_
    rintro ⟨p', hp', hpend⟩
    refine ⟨p', hp', ?_⟩
    by_cases hpq : p' = q₀
    · have hin := (hg.mutex p').1 hp'
      subst hpq
      rw [pos_put_same]
      cases hpos : s.pos p' with
      | asleep c l =>
        rw [hpos] at hin
        exact absurd rfl hin
      | _ => rwa [hpos] at hpend
    · rwa [pos_put_of_ne hpq]
  | env hd => exact ⟨h.listed, fun q c hq => (h.heard q c hq).imp_left (ht.env _ _ _ hd c)⟩

/-- **While the lock is free, nobody sleeps on a channel that is worth waking**, in every run. -/
theorem Telling.quiet_of_reach (ht : Telling code ok J quiet owes) (ho : Outline code ok I K J) {d : D} (hd : I d)
    (h : Reach (step code) ok (.start d) s) (hlock : s.lock = none) {q : P} {c : C}
    (hq : (s.pos q).waits = some c) : quiet c s.data := by
  have hboth : Good I K J s ∧ Heard code quiet owes s := by
    refine Reach.inv (I := fun s => Good I K J s ∧ Heard code quiet owes s) ⟨good_start hd, heard_start⟩ ?_ h
    rintro s e s' ⟨hg, hh⟩ hok hstep
    have hm := moves_of_step hstep
    exact ⟨ho.keeps hg hok hm, ht.keeps hg hh hok hm⟩
  exact hboth.2.fine hlock hq

end Rule

/-! ## Assertions about all agents together -/

/-- Where an agent stands: outside, with the result of its last call, or in a call. -/
def At.phase : At P L C R → Option R ⊕ L
  | .out r => .inl r
  | .spin l | .hold l | .waking _ _ l | .doze _ l | .asleep _ l => .inr l

def State.phases (s : State P D L C R) (p : P) : Option R ⊕ L := (s.pos p).phase

def Act.phase : Act D L C R → Option R ⊕ L
  | .go _ l | .wakeup _ l | .sleep _ l => .inr l
  | .leave _ r => .inl (some r)

/-- **An assertion about the data and where all agents stand**, where `J` holds for the one with the lock and `K`
for the others. -/
structure Joint (code : Code P D L C R) (ok : State P D L C R → Ev P L → Prop) (K : P → L → Prop)
    (J : P → L → D → Prop) (G : D → (P → Option R ⊕ L) → Prop) : Prop where
  call : ∀ s p l r, ok s (.call p l) → s.pos p = .out r → G s.data s.phases →
    G s.data (update s.phases p (.inr l))
  act : ∀ s p l, ok s (.run p) → s.pos p = .hold l → (∀ q k, q ≠ p → s.phases q = .inr k → K q k) →
    J p l s.data → G s.data s.phases → G ((code.act p (s.killed p) l s.data).data.getD s.data)
      (update s.phases p (code.act p (s.killed p) l s.data).phase)
  env : ∀ s k d, ok s (.env k) → code.env k s.data = some d → G s.data s.phases → G d s.phases

section Rule

variable {ok : State P D L C R → Ev P L → Prop} {I : D → Prop} {K : P → L → Prop} {J : P → L → D → Prop}
  {G : D → (P → Option R ⊕ L) → Prop}

omit [DecidableEq P] in
theorem phase_rouse {b : C → Bool} {a : At P L C R} : (a.rouse b).phase = a.phase := by
  cases a with
  | asleep c l =>
    simp only [At.rouse]
    split_ifs <;> rfl
  | _ => rfl

theorem phases_put {t : State P D L C R} {p : P} {a : At P L C R} (hpos : t.pos = s.pos) :
    (t.put p a).phases = update s.phases p a.phase := by
  funext q
  by_cases hq : q = p
  · subst hq
    rw [State.phases, pos_put_same, update_self]
  · rw [State.phases, pos_put_of_ne hq, update_of_ne hq, hpos]
    rfl

omit [DecidableEq P] in
theorem Good.away_of_ne (hg : Good I K J s) {p : P} {l : L} (hlock : s.lock ≠ some p)
    (hp : s.phases p = .inr l) : K p l := by
  have hin : (s.pos p).inside = none := by
    by_contra hne
    exact hlock ((hg.mutex p).2 hne)
  rw [State.phases] at hp
  refine hg.away p l ?_
  cases hpos : s.pos p with
  | out r =>
    rw [hpos] at hp
    cases hp
  | hold l' =>
    rw [hpos] at hin
    cases hin
  | waking c todo l' =>
    rw [hpos] at hin
    cases hin
  | _ =>
    rw [hpos] at hp
    cases hp
    rfl

omit [DecidableEq P] in
theorem Good.others (hg : Good I K J s) {p q : P} {l k : L} (hp : s.pos p = .hold l) (hq : q ≠ p)
    (hk : s.phases q = .inr k) : K q k :=
  hg.away_of_ne (fun hlock => hq (Option.some.inj (hlock.symm.trans
    ((hg.mutex p).2 (by simp [hp, At.inside]))))) hk

theorem keeps_phases {t : State P D L C R} {p : P} {a : At P L C R} (hs : G s.data s.phases) (hpos : t.pos = s.pos)
    (hdata : t.data = s.data) (ha : a.phase = (s.pos p).phase) : G (t.put p a).data (t.put p a).phases := by
  rw [phases_put hpos, ha, data_put, hdata]
  exact (update_eq_self p s.phases).symm ▸ hs

theorem Joint.keeps_act (h : Joint code ok K J G) (hg : Good I K J s) (hs : G s.data s.phases) {p : P} {l : L}
    (hok : ok s (.run p)) (hp : s.pos p = .hold l) {a : Act D L C R} (ha : code.act p (s.killed p) l s.data = a) :
    G (a.data.getD s.data) (update s.phases p a.phase) := by
  subst ha
  exact h.act s p l hok hp (fun q k => hg.others hp) (hg.held p l (by rw [hp]; rfl)) hs

variable [DecidableEq C]

theorem Joint.keeps (h : Joint code ok K J G) (hg : Good I K J s) (hs : G s.data s.phases) (hok : ok s e)
    (hm : Moves code s e s') : G s'.data s'.phases := by
  cases hm with
  | @call p l r hp =>
    rw [phases_put rfl]
    exact h.call s p l r hok hp hs
  | acquire hp _ _ => exact keeps_phases hs rfl rfl (by rw [hp]; rfl)
  | @go p l l' d hp ha =>
    rw [phases_put rfl]
    exact h.keeps_act hg hs hok hp ha
  | @wakeup p l l' c hp ha =>
    rw [phases_put rfl]
    exact h.keeps_act hg hs hok hp ha
  | @sleep p l l' c hp ha =>
    rw [phases_put rfl]
    exact h.keeps_act hg hs hok hp ha
  | @leave p l d r hp ha =>
    rw [phases_put rfl]
    exact h.keeps_act hg hs hok hp ha
  | woken hp => exact keeps_phases hs rfl rfl (by rw [hp]; rfl)
  | @visit p q l c todo hp hq =>
    have h₁ := keeps_phases (p := q) (a := (s.pos q).rouse (· = c)) hs rfl rfl phase_rouse
    refine keeps_phases h₁ rfl rfl ?_
    by_cases hpq : p = q
    · subst hpq
      rw [pos_put_same, phase_rouse, hp]
      rfl
    · rw [pos_put_of_ne hpq, hp]
      rfl
  | fall hp => exact keeps_phases hs rfl rfl (by rw [hp]; rfl)
  | kill hq => exact keeps_phases hs rfl rfl phase_rouse
  | env hd => exact h.env s _ _ hok hd hs

theorem Joint.of_reach (h : Joint code ok K J G) (ho : Outline code ok I K J) {d : D} (hi : I d)
    (hd : G d fun _ => .inl none) (hr : Reach (step code) ok (.start d) s) : G s.data s.phases := by
  have hboth : Good I K J s ∧ G s.data s.phases := by
    refine Reach.inv (I := fun s => Good I K J s ∧ G s.data s.phases) ⟨good_start hi, hd⟩ ?_ hr
    intro s e s' hs hok hstep
    have hm := moves_of_step hstep
    exact ⟨ho.keeps hs.1 hok hm, h.keeps hs.1 hs.2 hok hm⟩
  exact hboth.2

end Rule

/-! ## Assertions about all calls together -/

def State.calls (s : State P D L C R) (p : P) : Option L := (s.pos p).busy

/-- What an action of `p` has to keep of an assertion about the data and all calls. -/
def Joins (G : D → (P → Option L) → Prop) (p : P) (d₀ : D) (c : P → Option L) : Act D L C R → Prop
  | .go d l => G d (update c p (some l))
  | .wakeup _ l | .sleep _ l => G d₀ (update c p (some l))
  | .leave d _ => G d (update c p none)

/-- **An assertion about the data and all calls**, where those that do not have the lock are as `K` says. -/
structure Shared (code : Code P D L C R) (ok : State P D L C R → Ev P L → Prop) (K : P → L → Prop)
    (G : D → (P → Option L) → Prop) : Prop where
  begin : ∀ s p l, ok s (.call p l) → K p l
  rest : ∀ p b l d c l', code.act p b l d = .sleep c l' → K p l'
  call : ∀ s p l, ok s (.call p l) → s.calls p = none → G s.data s.calls →
    G s.data (update s.calls p (some l))
  act : ∀ s p l, ok s (.run p) → s.pos p = .hold l → (∀ q k, q ≠ p → s.calls q = some k → K q k) →
    G s.data s.calls → Joins G p s.data s.calls (code.act p (s.killed p) l s.data)
  env : ∀ k d d' c, code.env k d = some d' → G d c → G d' c

section Rule

variable {ok : State P D L C R → Ev P L → Prop} {K : P → L → Prop} {G : D → (P → Option L) → Prop}

theorem Shared.outline (h : Shared code ok K G) : Outline code ok (fun _ => True) K (fun _ _ _ => True) where
  call := h.begin
  enter := fun _ _ _ _ _ _ => trivial
  act := by
    intro s p l _ _ _
    cases ha : code.act p (s.killed p) l s.data with
    | sleep c l' => exact ⟨trivial, h.rest _ _ _ _ _ _ ha⟩
    | _ => trivial
  env := fun _ _ _ _ => ⟨fun _ => trivial, fun _ _ _ => trivial⟩

section

omit [DecidableEq P]

theorem calls_eq (s : State P D L C R) : s.calls = Sum.getRight? ∘ s.phases := by
  funext q
  rw [State.calls, Function.comp_apply, State.phases]
  cases s.pos q <;> rfl

theorem calls_eq_some {q : P} {k : L} : s.calls q = some k ↔ s.phases q = .inr k := by
  rw [calls_eq, Function.comp_apply, Sum.getRight?_eq_some_iff]

end

theorem Shared.joint (h : Shared code ok K G) :
    Joint code ok K (fun _ _ _ => True) fun d ph => G d (Sum.getRight? ∘ ph) where
  call := by
    intro s p l r hok hp hs
    rw [Function.comp_update, ← calls_eq] at *
    exact h.call s p l hok (by rw [State.calls, hp]; rfl) hs
  act := by
    intro s p l hok hp hrest _ hs
    rw [← calls_eq] at hs
    have hact := h.act s p l hok hp (fun q k hq hk => hrest q k hq (calls_eq_some.1 hk)) hs
    rw [Function.comp_update, ← calls_eq]
    cases ha : code.act p (s.killed p) l s.data <;> rw [ha] at hact <;> exact hact
  env := fun s k d _ hd hs => h.env k _ _ _ hd hs

variable [DecidableEq C]

theorem Shared.of_reach (h : Shared code ok K G) {d : D} (hd : G d fun _ => none)
    (hr : Reach (step code) ok (.start d) s) : G s.data s.calls :=
  calls_eq s ▸ h.joint.of_reach h.outline trivial hd hr

theorem Shared.others (h : Shared code ok K G) {d : D} (hr : Reach (step code) ok (.start d) s) {p q : P} {l k : L}
    (hp : s.pos p = .hold l) (hq : q ≠ p) (hk : s.calls q = some k) : K q k :=
  (h.outline.good_of_reach trivial hr).others hp hq (calls_eq_some.1 hk)

theorem Shared.away_of_free (h : Shared code ok K G) {d : D} (hr : Reach (step code) ok (.start d) s)
    (hlock : s.lock = none) {p : P} {l : L} (hp : s.calls p = some l) : K p l :=
  (h.outline.good_of_reach trivial hr).away_of_ne (by rw [hlock]; nofun) (calls_eq_some.1 hp)

end Rule

end

end Monitor
