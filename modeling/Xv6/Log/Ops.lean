import Xv6.Param
import Xv6.Lib.Runs

/-!
# Operations and commits

The locking protocol of `kernel/log.c`: any number of processes run `begin_op`, `log_write`,
`end_op` and, through `end_op`, `commit`. A critical section of `log.lock` is one step; what the
code does without the lock (the panics of `log_write`, the phases of `commit`) is separate steps.
Block contents play no part here; `Xv6.Log.Crash` has them.

* `State`, `step`: the protocol. `State.ops` is a history of all operations, with the blocks each
  has logged; no transition reads it.
* `Inv`, `Inv.step`: what every step preserves.
* **`whole_operation_commits`**: a commit writes exactly the blocks of the operations that began
  since the previous one, all of which have ended.
-/

namespace Xv6.Log

open Function Runs

inductive Phase
  | start
  | writeLog (tail : ℕ)
  | writeHead
  | installTrans (tail : ℕ)
  | clear
  | eraseHead
  | finish
  deriving DecidableEq, Repr

inductive Pc
  | idle
  | beginOp
  | asleep
  | inOp
  | logging (b : ℕ)
  | commit (c : Phase)
  deriving DecidableEq, Repr

/-- What the other processes can tell about a process: it is outside any operation, between
`begin_op`'s return and `end_op`, or in `commit`, before or after `lh.n` is cleared. -/
inductive Kind
  | out
  | op
  | commit (cleared : Bool)
  deriving DecidableEq

def Pc.kind : Pc → Kind
  | .idle | .beginOp | .asleep => .out
  | .inOp | .logging _ => .op
  | .commit .eraseHead | .commit .finish => .commit true
  | .commit _ => .commit false

/-- Why the machine has stopped. `overrun` is a store past the end of `lh.block`, after which the
program has no defined meaning. -/
inductive Halt
  | tooBig
  | outsideOfTrans
  | committing
  | overrun
  deriving DecidableEq, Repr

/-- A file-system operation in the history: the number of commits completed when it began, and
for each of its `log_write`s the number of commits completed then and the block. -/
structure Op (P : Type) where
  proc : P
  epoch : ℕ
  logged : List (ℕ × ℕ)
  ended : Bool

/-- `struct log`, the processes, and the history (`epoch`, `ops`). -/
structure State (P : Type) where
  outstanding : ℤ
  committing : Bool
  lh : LogHeader
  pc : P → Pc
  halt : Option Halt
  epoch : ℕ
  ops : List (Op P)

inductive Act (P : Type)
  | beginOp (p : P)
  | logWrite (p : P) (b : ℕ)
  | endOp (p : P)
  | run (p : P)
  | kill (p : P)

variable {P : Type} [DecidableEq P]

namespace State

variable (P) in
def init : State P := ⟨0, false, .empty, fun _ => .idle, none, 0, []⟩

def goto (s : State P) (p : P) (c : Pc) : State P := { s with pc := update s.pc p c }

/-- `wakeup(&log)`: every sleeper becomes runnable and tests again. -/
def wakeup (s : State P) : State P :=
  { s with pc := fun q => if s.pc q = .asleep then .beginOp else s.pc q }

def isCurrent (p : P) (o : Op P) : Bool := decide (o.proc = p) && !o.ended

def beginOp (s : State P) (p : P) : State P :=
  if s.committing then s.goto p .asleep
  else if (s.lh.n : ℤ) + (s.outstanding + 1) * maxOpBlocks > logSize then s.goto p .asleep
  else
    { s.goto p .inOp with
      outstanding := s.outstanding + 1
      ops := ⟨p, s.epoch, [], false⟩ :: s.ops }

/-- The panics of `log_write`, tested before `log.lock` is taken. -/
def logWrite (g : Geometry) (s : State P) (p : P) (b : ℕ) : State P :=
  if s.lh.n ≥ logSize ∨ (s.lh.n : ℤ) ≥ g.size - 1 then { s with halt := some .tooBig }
  else if s.outstanding < 1 then { s with halt := some .outsideOfTrans }
  else s.goto p (.logging b)

/-- Record `b` in the history of the current operation of `p`. -/
def note (s : State P) (p : P) (b : ℕ) : List (Op P) :=
  s.ops.map fun o => if isCurrent p o then { o with logged := (s.epoch, b) :: o.logged } else o

/-- The locked part of `log_write`: log absorption, or a new entry. -/
def logAppend (s : State P) (p : P) (b : ℕ) : State P :=
  if b ∈ s.lh.block then { s.goto p .inOp with ops := s.note p b }
  else match s.lh.push b with
    | some lh => { s.goto p .inOp with lh := lh, ops := s.note p b }
    | none => { s with halt := some .overrun }

def endOp (s : State P) (p : P) : State P :=
  let s := { s with
    outstanding := s.outstanding - 1
    ops := s.ops.map fun o => if isCurrent p o then { o with ended := true } else o }
  if s.committing then { s with halt := some .committing }
  else if s.outstanding = 0 then { s.goto p (.commit .start) with committing := true }
  else (s.goto p .idle).wakeup

/-- `commit()` and the end of `end_op`. -/
def commit (s : State P) (p : P) : Phase → State P
  | .start => if s.lh.n > 0 then s.goto p (.commit (.writeLog 0)) else s.goto p (.commit .finish)
  | .writeLog tail =>
    if tail < s.lh.n then s.goto p (.commit (.writeLog (tail + 1)))
    else s.goto p (.commit .writeHead)
  | .writeHead => s.goto p (.commit (.installTrans 0))
  | .installTrans tail =>
    if tail < s.lh.n then s.goto p (.commit (.installTrans (tail + 1)))
    else s.goto p (.commit .clear)
  | .clear => { s.goto p (.commit .eraseHead) with lh := .empty }
  | .eraseHead => s.goto p (.commit .finish)
  | .finish => { (s.goto p .idle).wakeup with committing := false, epoch := s.epoch + 1 }

end State

open State in
/-- **One step.** `log_write` and `end_op` are only called inside an operation. A kill makes a
sleeper runnable. -/
def step (g : Geometry) (s : State P) : Act P → Option (State P)
  | .beginOp p => if s.halt = none ∧ s.pc p = .idle then some (s.goto p .beginOp) else none
  | .logWrite p b =>
    if s.halt = none ∧ s.pc p = .inOp ∧ b < 2 ^ 32 then some (logWrite g s p b) else none
  | .endOp p => if s.halt = none ∧ s.pc p = .inOp then some (endOp s p) else none
  | .kill p => if s.halt = none ∧ s.pc p = .asleep then some (s.goto p .beginOp) else none
  | .run p =>
    if s.halt = none then
      match s.pc p with
      | .beginOp => some (beginOp s p)
      | .logging b => some (logAppend s p b)
      | .commit c => some (s.commit p c)
      | _ => none
    else none

/-! ## The invariant -/

namespace State

def kind (s : State P) (q : P) : Kind := (s.pc q).kind

theorem kind_goto (s : State P) (p : P) (c : Pc) :
    (s.goto p c).kind = update s.kind p c.kind := by
  funext q
  by_cases h : q = p
  · subst h; simp [kind, goto]
  · simp [kind, goto, update_of_ne h]

theorem kind_goto_self {s : State P} {p : P} {c : Pc} (h : c.kind = s.kind p) :
    (s.goto p c).kind = s.kind := by
  rw [kind_goto, h, update_eq_self]

omit [DecidableEq P] in
theorem kind_wakeup (s : State P) : s.wakeup.kind = s.kind := by
  funext q
  by_cases h : s.pc q = .asleep <;> simp [kind, wakeup, h, Pc.kind]

/-- The blocks logged by the operations that began since the previous commit. -/
def logged (s : State P) : List ℕ :=
  (s.ops.filter fun o => o.epoch = s.epoch).flatMap fun o => o.logged.map Prod.snd

omit [DecidableEq P] in
theorem mem_logged {s : State P} {b : ℕ} :
    b ∈ s.logged ↔ ∃ o ∈ s.ops, o.epoch = s.epoch ∧ ∃ e, (e, b) ∈ o.logged := by
  simp [logged, and_assoc]

end State

def Kind.weight : Kind → ℤ
  | .op => 1
  | _ => 0

variable [Fintype P]

structure Inv (s : State P) : Prop where
  busy : s.committing = true ↔ ∃ p c, s.kind p = .commit c
  single : ∀ p q c c', s.kind p = .commit c → s.kind q = .commit c' → p = q
  count : s.outstanding = ∑ p, (s.kind p).weight
  quiet : s.committing = true → s.outstanding = 0
  nodup : s.lh.block.Nodup
  current : ∀ p, s.kind p = .op → ∃ o ∈ s.ops, State.isCurrent p o = true
  running : ∀ o ∈ s.ops, o.ended = false → s.kind o.proc = .op ∧ o.epoch = s.epoch
  past : ∀ o ∈ s.ops, o.epoch ≤ s.epoch
  stamp : ∀ o ∈ s.ops, ∀ x ∈ o.logged, x.1 = o.epoch
  cleared : ∀ p, s.kind p = .commit true → s.lh.block = []
  lists : (∀ p, s.kind p ≠ .commit true) → ∀ b, b ∈ s.lh.block ↔ b ∈ s.logged
  idle : s.committing = false → s.outstanding = 0 → s.lh.block = []

namespace Inv

variable {s s' : State P} {p : P}

theorem init : Inv (State.init P) where
  busy := by simp [State.init, State.kind, Pc.kind]
  single p q c c' h := by cases h
  count := by simp [State.init, State.kind, Pc.kind, Kind.weight]
  quiet := by simp [State.init]
  nodup := List.nodup_nil
  current p h := by cases h
  running := by simp [State.init]
  past := by simp [State.init]
  stamp := by simp [State.init]
  cleared p h := by cases h
  lists _ b := by simp [State.init, State.logged]
  idle _ _ := rfl

theorem congr (h : Inv s) (hk : s'.kind = s.kind) (ho : s'.outstanding = s.outstanding)
    (hc : s'.committing = s.committing) (hl : s'.lh = s.lh) (he : s'.epoch = s.epoch)
    (hops : s'.ops = s.ops) : Inv s' := by
  have hlog : s'.logged = s.logged := by rw [State.logged, State.logged, he, hops]
  constructor
  · rw [hc, hk]; exact h.busy
  · rw [hk]; exact h.single
  · rw [ho, hk]; exact h.count
  · rw [hc, ho]; exact h.quiet
  · rw [hl]; exact h.nodup
  · rw [hk, hops]; exact h.current
  · rw [hk, hops, he]; exact h.running
  · rw [hops, he]; exact h.past
  · rw [hops]; exact h.stamp
  · rw [hk, hl]; exact h.cleared
  · rw [hk, hl, hlog]; exact h.lists
  · rw [hc, ho, hl]; exact h.idle

theorem goto (h : Inv s) {c : Pc} (hc : c.kind = s.kind p) : Inv (s.goto p c) :=
  h.congr (State.kind_goto_self hc) rfl rfl rfl rfl rfl

theorem weight_le (h : Inv s) (p : P) : (s.kind p).weight ≤ s.outstanding := by
  rw [h.count]
  refine Finset.single_le_sum (f := fun p => (s.kind p).weight) (fun q _ => ?_) (Finset.mem_univ p)
  cases s.kind q <;> simp [Kind.weight]

theorem one_le (h : Inv s) (hp : s.kind p = .op) : 1 ≤ s.outstanding := by
  have := h.weight_le p
  rwa [hp] at this

theorem not_committing (h : Inv s) (hp : s.kind p = .op) : s.committing = false := by
  by_contra hc
  have := h.one_le hp
  rw [h.quiet (by simpa using hc)] at this
  exact absurd this (by decide)

theorem not_commit (h : Inv s) (hc : s.committing = false) (q : P) (c : Bool) :
    s.kind q ≠ .commit c := fun hq => by
  have := h.busy.2 ⟨q, c, hq⟩
  rw [hc] at this
  cases this

omit [DecidableEq P] [Fintype P] in
theorem kind_commit {f : Phase} (hp : s.pc p = .commit f) : ∃ b, s.kind p = .commit b := by
  rw [State.kind, hp]
  cases f <;> exact ⟨_, rfl⟩

theorem no_commit (h : Inv s) (hc : s.committing = false) (q : P) (f : Phase) : s.pc q ≠ .commit f := fun hq =>
  (kind_commit hq).elim (h.not_commit hc q)

theorem one_commit (h : Inv s) {f f' : Phase} (hp : s.pc p = .commit f) {q : P} (hq : q ≠ p) :
    s.pc q ≠ .commit f' := by
  intro hqf
  obtain ⟨b, hb⟩ := kind_commit hp
  obtain ⟨b', hb'⟩ := kind_commit hqf
  exact hq (h.single q p b' b hb' hb)

theorem committer (h : Inv s) (hc : s.committing = true) : ∃ p f, s.pc p = .commit f := by
  obtain ⟨p, b, hb⟩ := h.busy.1 hc
  refine ⟨p, ?_⟩
  rw [State.kind] at hb
  cases hp : s.pc p with
  | commit f => exact ⟨f, rfl⟩
  | _ =>
    rw [hp] at hb
    cases hb

theorem enter (h : Inv s) (hp : s.kind p = .out) (hc : s.committing = false)
    (hk : s'.kind = update s.kind p .op) (ho : s'.outstanding = s.outstanding + 1)
    (hc' : s'.committing = s.committing) (hl : s'.lh = s.lh) (he : s'.epoch = s.epoch)
    (hops : s'.ops = ⟨p, s.epoch, [], false⟩ :: s.ops) : Inv s' := by
  have hno : ∀ q c, s'.kind q ≠ .commit c := fun q c hq => by
    rw [hk] at hq
    by_cases hqp : q = p
    · subst hqp; rw [update_self] at hq; cases hq
    · rw [update_of_ne hqp] at hq; exact h.not_commit hc q c hq
  have hop : ∀ q, s.kind q = .op → s'.kind q = .op := fun q hq => by
    rw [hk]
    by_cases hqp : q = p
    · subst hqp; exact update_self _ _ _
    · rw [update_of_ne hqp]; exact hq
  constructor
  case busy =>
    rw [hc', hc]
    exact ⟨nofun, fun ⟨q, c, hq⟩ => absurd hq (hno q c)⟩
  case single => exact fun q _ c _ hq => absurd hq (hno q c)
  case count =>
    have := sum_update Kind.weight s.kind p .op
    rw [hp] at this
    rw [ho, hk, h.count]
    simpa [Kind.weight] using this.symm
  case quiet => rw [hc', hc]; exact nofun
  case nodup => rw [hl]; exact h.nodup
  case current =>
    intro q hq
    rw [hops]
    by_cases hqp : q = p
    · exact ⟨_, List.mem_cons_self, by simp [State.isCurrent, hqp]⟩
    · rw [hk, update_of_ne hqp] at hq
      obtain ⟨o, ho, hcur⟩ := h.current q hq
      exact ⟨o, List.mem_cons_of_mem _ ho, hcur⟩
  case running =>
    rw [hops, he]
    rintro o (_ | ⟨_, ho⟩) hend
    · exact ⟨by rw [hk]; exact update_self _ _ _, rfl⟩
    · exact ⟨hop _ (h.running o ho hend).1, (h.running o ho hend).2⟩
  case past =>
    rw [hops, he]
    rintro o (_ | ⟨_, ho⟩)
    · exact le_rfl
    · exact h.past o ho
  case stamp =>
    rw [hops]
    rintro o (_ | ⟨_, ho⟩) x hx
    · cases hx
    · exact h.stamp o ho x hx
  case cleared => exact fun q hq => absurd hq (hno q _)
  case lists =>
    intro _ b
    rw [hl, h.lists (fun q => h.not_commit hc q _), State.mem_logged, State.mem_logged, hops, he]
    simp
  case idle =>
    intro _ h0
    have := h.weight_le p
    rw [hp] at this
    change 0 ≤ _ at this
    omega

theorem beginOp (h : Inv s) (hp : s.pc p = .beginOp) : Inv (s.beginOp p) := by
  have hk : s.kind p = .out := by rw [State.kind, hp]; rfl
  unfold State.beginOp
  split_ifs with hcom hfull
  · exact h.goto hk.symm
  · exact h.goto hk.symm
  · exact h.enter hk (by simpa using hcom) (State.kind_goto s p .inOp) rfl rfl rfl rfl rfl

theorem logWrite (g : Geometry) (h : Inv s) (hp : s.pc p = .inOp) (b : ℕ) :
    Inv (s.logWrite g p b) := by
  unfold State.logWrite
  split_ifs
  · exact h.congr rfl rfl rfl rfl rfl rfl
  · exact h.congr rfl rfl rfl rfl rfl rfl
  · exact h.goto (by rw [State.kind, hp]; rfl)

theorem logged_note (h : Inv s) (hp : s.kind p = .op) (b : ℕ) (he : s'.epoch = s.epoch)
    (hops : s'.ops = s.note p b) (x : ℕ) : x ∈ s'.logged ↔ x = b ∨ x ∈ s.logged := by
  rw [State.mem_logged, State.mem_logged, hops, he, State.note]
  constructor
  · rintro ⟨o, ho, hoe, e, hx⟩
    obtain ⟨o', ho', rfl⟩ := List.mem_map.1 ho
    split_ifs at hx hoe with hcur
    · rcases List.mem_cons.1 hx with hx | hx
      · exact .inl (Prod.ext_iff.1 hx).2
      · exact .inr ⟨o', ho', hoe, e, hx⟩
    · exact .inr ⟨o', ho', hoe, e, hx⟩
  · rintro (rfl | ⟨o, ho, hoe, e, hx⟩)
    · obtain ⟨o, ho, hcur⟩ := h.current p hp
      have hend : o.ended = false := by
        rw [State.isCurrent, Bool.and_eq_true] at hcur
        simpa using hcur.2
      refine ⟨_, List.mem_map_of_mem ho, ?_⟩
      rw [if_pos hcur]
      exact ⟨(h.running o ho hend).2, s.epoch, List.mem_cons_self⟩
    · refine ⟨_, List.mem_map_of_mem ho, ?_⟩
      split_ifs
      · exact ⟨hoe, e, List.mem_cons_of_mem _ hx⟩
      · exact ⟨hoe, e, hx⟩

theorem note (h : Inv s) (hp : s.kind p = .op) (b : ℕ) (hk : s'.kind = s.kind)
    (ho : s'.outstanding = s.outstanding) (hc : s'.committing = s.committing)
    (he : s'.epoch = s.epoch) (hops : s'.ops = s.note p b) (hnd : s'.lh.block.Nodup)
    (hl : ∀ x, x ∈ s'.lh.block ↔ x = b ∨ x ∈ s.lh.block) : Inv s' := by
  have hno := h.not_commit (h.not_committing hp)
  have hops' : ∀ o ∈ s'.ops, ∃ o' ∈ s.ops, o.proc = o'.proc ∧ o.epoch = o'.epoch ∧
      o.ended = o'.ended ∧ ∀ x ∈ o.logged, x ∈ o'.logged ∨ (x.1 = s.epoch ∧ o'.ended = false) := by
    intro o ho
    rw [hops, State.note] at ho
    obtain ⟨o', ho', rfl⟩ := List.mem_map.1 ho
    refine ⟨o', ho', ?_⟩
    split_ifs with hcur
    · refine ⟨rfl, rfl, rfl, fun x hx => ?_⟩
      rcases List.mem_cons.1 hx with rfl | hx
      · rw [State.isCurrent, Bool.and_eq_true] at hcur
        exact .inr ⟨rfl, by simpa using hcur.2⟩
      · exact .inl hx
    · exact ⟨rfl, rfl, rfl, fun x hx => .inl hx⟩
  constructor
  case busy => rw [hc, hk]; exact h.busy
  case single => rw [hk]; exact h.single
  case count => rw [ho, hk]; exact h.count
  case quiet => rw [hc, ho]; exact h.quiet
  case nodup => exact hnd
  case current =>
    intro q hq
    rw [hk] at hq
    obtain ⟨o, ho, hcur⟩ := h.current q hq
    rw [hops, State.note]
    refine ⟨_, List.mem_map_of_mem ho, ?_⟩
    split_ifs
    · exact hcur
    · exact hcur
  case running =>
    intro o ho hend
    obtain ⟨o', ho', hpr, hep, hen, -⟩ := hops' o ho
    rw [hpr, hep, hk, he]
    exact h.running o' ho' (hen ▸ hend)
  case past =>
    intro o ho
    obtain ⟨o', ho', -, hep, -⟩ := hops' o ho
    rw [hep, he]
    exact h.past o' ho'
  case stamp =>
    intro o ho x hx
    obtain ⟨o', ho', -, hep, -, hlog⟩ := hops' o ho
    rw [hep]
    rcases hlog x hx with hx | ⟨hx, hend⟩
    · exact h.stamp o' ho' x hx
    · rw [hx, (h.running o' ho' hend).2]
  case cleared => rw [hk]; exact fun q hq => absurd hq (hno q _)
  case lists =>
    intro _ x
    rw [hl, h.logged_note hp b he hops, h.lists fun q => hno q _]
  case idle =>
    intro _ h0
    have := h.one_le hp
    omega

theorem logAppend (h : Inv s) {b : ℕ} (hp : s.pc p = .logging b) : Inv (s.logAppend p b) := by
  have hk : s.kind p = .op := by rw [State.kind, hp]; rfl
  have hk' : (s.goto p .inOp).kind = s.kind := State.kind_goto_self hk.symm
  unfold State.logAppend
  split_ifs with hb
  · exact h.note hk b hk' rfl rfl rfl rfl h.nodup fun x =>
      ⟨.inr, fun hx => hx.elim (fun hx => hx ▸ hb) id⟩
  · cases hpush : s.lh.push b with
    | none => exact h.congr rfl rfl rfl rfl rfl rfl
    | some lh =>
      obtain ⟨-, hlh⟩ := LogHeader.push_eq_some hpush
      refine h.note hk b hk' rfl rfl rfl rfl ?_ fun x => ?_
      · change lh.block.Nodup
        rw [hlh]
        exact h.nodup.append (List.nodup_singleton b) (by simpa using hb)
      · change x ∈ lh.block ↔ _
        rw [hlh, List.mem_append, List.mem_singleton, or_comm]

omit [Fintype P] in
theorem mem_end {o : Op P} (ho : o ∈ s.ops.map fun o =>
    if State.isCurrent p o then { o with ended := true } else o) :
    ∃ o' ∈ s.ops, o.proc = o'.proc ∧ o.epoch = o'.epoch ∧ o.logged = o'.logged ∧
      (o.ended = false → o'.ended = false ∧ o'.proc ≠ p) := by
  obtain ⟨o', ho', rfl⟩ := List.mem_map.1 ho
  refine ⟨o', ho', ?_⟩
  split_ifs with hcur
  · exact ⟨rfl, rfl, rfl, nofun⟩
  · refine ⟨rfl, rfl, rfl, fun hend => ⟨hend, fun hpr => hcur ?_⟩⟩
    simp [State.isCurrent, hpr, hend]

/-- The locked part of `end_op`: `p` leaves its operation, to `v`. -/
theorem leave (h : Inv s) (hp : s.kind p = .op) {v : Kind} (hv : v = .out ∨ v = .commit false)
    (hk : s'.kind = update s.kind p v) (ho : s'.outstanding = s.outstanding - 1)
    (hc : s'.committing = true ↔ v = .commit false) (hq : s'.committing = true ↔ s'.outstanding = 0)
    (hl : s'.lh = s.lh) (he : s'.epoch = s.epoch) (hops : s'.ops = s.ops.map fun o =>
      if State.isCurrent p o then { o with ended := true } else o) : Inv s' := by
  have hno := h.not_commit (h.not_committing hp)
  have hkind : ∀ q, q ≠ p → s'.kind q = s.kind q := fun q hqp => by
    rw [hk, update_of_ne hqp]
  have hself : s'.kind p = v := by rw [hk]; exact update_self _ _ _
  have hcommit : ∀ q c, s'.kind q = .commit c → q = p ∧ c = false ∧ v = .commit false := by
    intro q c hqc
    by_cases hqp : q = p
    · subst hqp
      rw [hself] at hqc
      rcases hv with rfl | rfl <;> cases hqc
      exact ⟨rfl, rfl, rfl⟩
    · rw [hkind q hqp] at hqc
      exact absurd hqc (hno q c)
  constructor
  case busy =>
    rw [hc]
    exact ⟨fun h => ⟨p, false, hself.trans h⟩, fun ⟨q, c, hqc⟩ => (hcommit q c hqc).2.2⟩
  case single => exact fun q r c c' hqc hrc => (hcommit q c hqc).1.trans (hcommit r c' hrc).1.symm
  case count =>
    have := sum_update Kind.weight s.kind p v
    have hw : v.weight = 0 := by rcases hv with rfl | rfl <;> rfl
    rw [hp, hw, add_zero] at this
    rw [ho, hk, h.count, ← this]
    simp [Kind.weight]
  case quiet => exact hq.1
  case nodup => rw [hl]; exact h.nodup
  case current =>
    intro q hqo
    have hqp : q ≠ p := fun hqp => by
      rw [hqp, hself] at hqo
      rcases hv with rfl | rfl <;> cases hqo
    rw [hkind q hqp] at hqo
    obtain ⟨o, ho, hcur⟩ := h.current q hqo
    have hcur' := hcur
    rw [State.isCurrent, Bool.and_eq_true, decide_eq_true_eq] at hcur'
    refine ⟨o, ?_, hcur⟩
    rw [hops]
    refine List.mem_map.2 ⟨o, ho, if_neg fun hcp => hqp ?_⟩
    rw [State.isCurrent, Bool.and_eq_true, decide_eq_true_eq] at hcp
    exact hcur'.1.symm.trans hcp.1
  case running =>
    intro o ho hend
    obtain ⟨o', ho', hpr, hep, -, hen⟩ := mem_end (hops ▸ ho)
    obtain ⟨hen, hne⟩ := hen hend
    rw [hpr, hep, he, hkind _ hne]
    exact h.running o' ho' hen
  case past =>
    intro o ho
    obtain ⟨o', ho', -, hep, -⟩ := mem_end (hops ▸ ho)
    rw [hep, he]
    exact h.past o' ho'
  case stamp =>
    intro o ho x hx
    obtain ⟨o', ho', -, hep, hlog, -⟩ := mem_end (hops ▸ ho)
    rw [hep]
    exact h.stamp o' ho' x (hlog ▸ hx)
  case cleared => exact fun q hqc => absurd (hcommit q _ hqc).2.1 (by decide)
  case lists =>
    intro _ b
    rw [hl, h.lists fun q => hno q _, State.mem_logged, State.mem_logged, he]
    constructor
    · rintro ⟨o, ho, hoe, e, hx⟩
      refine ⟨_, hops ▸ List.mem_map_of_mem ho, ?_⟩
      split_ifs
      · exact ⟨hoe, e, hx⟩
      · exact ⟨hoe, e, hx⟩
    · rintro ⟨o, ho, hoe, e, hx⟩
      obtain ⟨o', ho', -, hep, hlog, -⟩ := mem_end (hops ▸ ho)
      exact ⟨o', ho', hep ▸ hoe, e, hlog ▸ hx⟩
  case idle => exact fun hc' h0 => by simp [hq.2 h0] at hc'

theorem endOp (h : Inv s) (hp : s.pc p = .inOp) : Inv (s.endOp p) := by
  have hk : s.kind p = .op := by rw [State.kind, hp]; rfl
  have hcom := h.not_committing hk
  unfold State.endOp
  simp only [hcom, Bool.false_eq_true, if_false]
  split_ifs with h0
  · exact h.leave hk (.inr rfl) (State.kind_goto s p (.commit .start)) rfl (by simp)
      ⟨fun _ => h0, fun _ => rfl⟩ rfl rfl rfl
  · refine h.leave hk (.inl rfl) ?_ rfl (by simp [State.wakeup, State.goto]) ?_ rfl rfl rfl
    · rw [State.kind_wakeup]; exact State.kind_goto s p .idle
    · exact ⟨fun hc => by simp [State.wakeup, State.goto] at hc, fun hz => absurd hz h0⟩

theorem clear (h : Inv s) (hp : s.kind p = .commit false)
    (hk : s'.kind = update s.kind p (.commit true)) (ho : s'.outstanding = s.outstanding)
    (hc : s'.committing = s.committing) (hl : s'.lh.block = []) (he : s'.epoch = s.epoch)
    (hops : s'.ops = s.ops) : Inv s' := by
  have hself : s'.kind p = .commit true := by rw [hk]; exact update_self _ _ _
  have hkind : ∀ q, q ≠ p → s'.kind q = s.kind q := fun q hqp => by
    rw [hk, update_of_ne hqp]
  have hcommit : ∀ q c, s'.kind q = .commit c → q = p := fun q c hqc => by
    by_contra hqp
    rw [hkind q hqp] at hqc
    exact hqp (h.single q p c false hqc hp)
  have hop : ∀ q, s'.kind q = .op ↔ s.kind q = .op := fun q => by
    by_cases hqp : q = p
    · rw [hqp, hself, hp]; simp
    · rw [hkind q hqp]
  constructor
  case busy => exact ⟨fun _ => ⟨p, true, hself⟩, fun _ => hc.trans (h.busy.2 ⟨p, false, hp⟩)⟩
  case single => exact fun q r c c' hqc hrc => (hcommit q c hqc).trans (hcommit r c' hrc).symm
  case count =>
    have := sum_update Kind.weight s.kind p (.commit true)
    rw [hp] at this
    rw [ho, hk, h.count]
    simpa [Kind.weight] using this.symm
  case quiet => rw [hc, ho]; exact h.quiet
  case nodup => rw [hl]; exact List.nodup_nil
  case current => intro q hq; rw [hops]; exact h.current q ((hop q).1 hq)
  case running => rw [hops, he]; exact fun o ho hend => ⟨(hop _).2 (h.running o ho hend).1,
      (h.running o ho hend).2⟩
  case past => rw [hops, he]; exact h.past
  case stamp => rw [hops]; exact h.stamp
  case cleared => exact fun _ _ => hl
  case lists => exact fun hno => absurd hself (hno p)
  case idle => exact fun _ _ => hl

theorem finish (h : Inv s) (hp : s.kind p = .commit true)
    (hk : s'.kind = update s.kind p .out) (ho : s'.outstanding = s.outstanding)
    (hc : s'.committing = false) (hl : s'.lh = s.lh) (he : s'.epoch = s.epoch + 1)
    (hops : s'.ops = s.ops) : Inv s' := by
  have hno : ∀ q c, s'.kind q ≠ .commit c := fun q c hqc => by
    rw [hk] at hqc
    by_cases hqp : q = p
    · subst hqp; rw [update_self] at hqc; cases hqc
    · rw [update_of_ne hqp] at hqc; exact hqp (h.single q p c true hqc hp)
  have hcom : s.committing = true := h.busy.2 ⟨p, true, hp⟩
  have hidle : ∀ q, s.kind q ≠ .op := fun q hq => by
    rw [h.not_committing hq] at hcom; cases hcom
  have hidle' : ∀ q, s'.kind q ≠ .op := fun q hq => by
    rw [hk] at hq
    by_cases hqp : q = p
    · subst hqp; rw [update_self] at hq; cases hq
    · rw [update_of_ne hqp] at hq; exact hidle q hq
  constructor
  case busy => rw [hc]; exact ⟨nofun, fun ⟨q, c, hqc⟩ => absurd hqc (hno q c)⟩
  case single => exact fun q _ c _ hqc => absurd hqc (hno q c)
  case count =>
    have := sum_update Kind.weight s.kind p .out
    rw [hp] at this
    rw [ho, hk, h.count]
    simpa [Kind.weight] using this.symm
  case quiet => rw [hc]; exact nofun
  case nodup => rw [hl]; exact h.nodup
  case current => exact fun q hq => absurd hq (hidle' q)
  case running =>
    rw [hops]
    exact fun o ho hend => absurd (h.running o ho hend).1 (hidle _)
  case past => rw [hops, he]; exact fun o ho => (h.past o ho).trans (Nat.le_succ _)
  case stamp => rw [hops]; exact h.stamp
  case cleared => exact fun q hq => absurd hq (hno q _)
  case lists =>
    intro _ b
    rw [hl, h.cleared p hp, State.mem_logged, hops, he]
    refine ⟨nofun, fun ⟨o, ho, hoe, _⟩ => ?_⟩
    have := h.past o ho
    omega
  case idle => exact fun _ _ => hl ▸ h.cleared p hp

theorem commit (h : Inv s) {c : Phase} (hp : s.pc p = .commit c) : Inv (s.commit p c) := by
  have hk : s.kind p = (Pc.commit c).kind := by rw [State.kind, hp]
  cases c with
  | start =>
    rw [State.commit]
    split_ifs with hn
    · exact h.goto hk.symm
    · exact h.clear hk (State.kind_goto s p _) rfl rfl
        (List.length_eq_zero_iff.1 (Nat.le_zero.1 (not_lt.1 hn))) rfl rfl
  | writeLog tail =>
    rw [State.commit]
    split_ifs
    · exact h.goto hk.symm
    · exact h.goto hk.symm
  | writeHead => exact h.goto hk.symm
  | installTrans tail =>
    rw [State.commit]
    split_ifs
    · exact h.goto hk.symm
    · exact h.goto hk.symm
  | clear => exact h.clear hk (State.kind_goto s p _) rfl rfl rfl rfl rfl
  | eraseHead => exact h.goto hk.symm
  | finish =>
    refine h.finish hk ?_ rfl rfl rfl rfl rfl
    change (s.goto p .idle).wakeup.kind = _
    rw [State.kind_wakeup, State.kind_goto]
    rfl

theorem step {g : Geometry} (h : Inv s) {a : Act P} (hs : Log.step g s a = some s') : Inv s' := by
  cases a with
  | beginOp p =>
    rw [Log.step, Option.ite_none_right_eq_some] at hs
    obtain ⟨⟨-, hp⟩, hs⟩ := hs
    cases hs
    exact h.goto (by rw [State.kind, hp]; rfl)
  | logWrite p b =>
    rw [Log.step, Option.ite_none_right_eq_some] at hs
    obtain ⟨⟨-, hp, -⟩, hs⟩ := hs
    cases hs
    exact h.logWrite g hp b
  | endOp p =>
    rw [Log.step, Option.ite_none_right_eq_some] at hs
    obtain ⟨⟨-, hp⟩, hs⟩ := hs
    cases hs
    exact h.endOp hp
  | kill p =>
    rw [Log.step, Option.ite_none_right_eq_some] at hs
    obtain ⟨⟨-, hp⟩, hs⟩ := hs
    cases hs
    exact h.goto (by rw [State.kind, hp]; rfl)
  | run p =>
    rw [Log.step, Option.ite_none_right_eq_some] at hs
    obtain ⟨-, hs⟩ := hs
    split at hs
    · cases hs; exact h.beginOp ‹_›
    · cases hs; exact h.logAppend ‹_›
    · cases hs; exact h.commit ‹_›
    · cases hs

end Inv

theorem inv_of_reach {g : Geometry} {ok : State P → Act P → Prop} {s : State P}
    (h : Reach (step g) ok (State.init P) s) : Inv s :=
  h.inv Inv.init fun _ _ _ hi _ hs => hi.step hs

/-- **Whole-operation commits.** In every reachable state `committing` excludes outstanding
operations, `outstanding` counts the operations between `begin_op`'s return and `end_op`, and the
header lists no block twice. A header with `n > 0` that `commit` is about to write lists exactly
the blocks logged by the operations that began since the previous commit, all of them ended. No
operation's updates are split: each was logged in the transaction the operation began in. -/
theorem whole_operation_commits (g : Geometry) (s : State P)
    (h : Reach (step g) any (State.init P) s) :
    (s.committing = true → s.outstanding = 0) ∧
    s.outstanding = (Finset.univ.filter fun p => s.kind p = .op).card ∧
    s.lh.block.Nodup ∧
    (∀ p, s.pc p = .commit .writeHead → s.lh.n > 0 →
      (∀ b, b ∈ s.lh.block ↔ ∃ o ∈ s.ops, o.epoch = s.epoch ∧ ∃ e, (e, b) ∈ o.logged) ∧
      ∀ o ∈ s.ops, o.epoch = s.epoch → o.ended = true) ∧
    ∀ o ∈ s.ops, ∀ x ∈ o.logged, x.1 = o.epoch := by
  have hi := inv_of_reach h
  refine ⟨hi.quiet, ?_, hi.nodup, fun p hp _ => ⟨fun b => ?_, fun o ho _ => ?_⟩, hi.stamp⟩
  · rw [hi.count, Finset.card_filter, Nat.cast_sum]
    refine Finset.sum_congr rfl fun p _ => ?_
    cases s.kind p <;> simp [Kind.weight]
  · have hk : s.kind p = .commit false := by rw [State.kind, hp]; rfl
    refine (hi.lists (fun q hq => ?_) b).trans State.mem_logged
    rw [hi.single q p _ _ hq hk, hk] at hq
    cases hq
  · -- an operation still running would be outstanding
    by_contra hend
    have hop := (hi.running o ho (by simpa using hend)).1
    have hcom := hi.busy.2 ⟨p, false, by rw [State.kind, hp]; rfl⟩
    rw [hi.not_committing hop] at hcom
    cases hcom

/-- Two overlapping operations log blocks `7` and `9`; process `1` ends last and commits both. -/
def overlap : List (Act (Fin 2)) :=
  [.beginOp 0, .run 0, .beginOp 1, .run 1, .logWrite 0 7, .run 0, .logWrite 1 9, .run 1, .endOp 0,
    .endOp 1, .run 1, .run 1, .run 1, .run 1]

theorem whole_operation_commits_overlap : ∃ s, exec (step mkfsGeometry) (State.init (Fin 2))
    overlap = some s ∧ s.pc 1 = .commit .writeHead ∧ s.lh.n > 0 ∧ s.lh.block.Nodup ∧
    (∀ b, b ∈ s.lh.block ↔ ∃ o ∈ s.ops, o.epoch = s.epoch ∧ ∃ e, (e, b) ∈ o.logged) := by
  have h : (exec (step mkfsGeometry) (State.init (Fin 2)) overlap).map
      (fun s => (s.pc 1, s.lh.block)) = some (.commit .writeHead, [7, 9]) := by decide
  obtain ⟨s, hs, he⟩ := Option.map_eq_some_iff.1 h
  obtain ⟨hpc, hlh⟩ := Prod.ext_iff.1 he
  have hn : s.lh.n > 0 := by rw [LogHeader.n, show s.lh.block = _ from hlh]; decide
  obtain ⟨-, -, hnd, hhead, -⟩ :=
    whole_operation_commits mkfsGeometry s (.of_exec (fun _ _ _ => trivial) hs)
  exact ⟨s, hs, hpc, hn, hnd, (hhead 1 hpc hn).1⟩

end Xv6.Log
