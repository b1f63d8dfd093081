import Xv6.Log.Ops
import Xv6.Lib.Monitor

/-!
# Waiting for log space

`begin_op`, `log_write` and `end_op` of `kernel/log.c` as a monitor whose lock is `log.lock` and whose only channel
is `&log`. `commit` runs between the two critical sections of `end_op`, without the lock: it is the device of the
monitor.

* `LogData`, `Pc`, `act`, `logCode`: the code. `commitStep`: the statements of `commit`.
* `Proper`: the calls of processes. `log_write` and `end_op` belong to an operation, and the second critical section
  of `end_op` follows the end of `commit`.
* `Rel`: the log as the protocol of `Xv6.Log.Ops` sees it, where a critical section is one step and `wakeup` reaches
  all sleepers at once. **`log_refines`**: every run of the monitor is one of the protocol.
* **`begin_op_waits`**: whoever sleeps in `begin_op` has a reason, and there is none when the log is idle.
-/

namespace Xv6.LogWait

open Function Monitor Runs
open Log (Phase)

/-! ## The code -/

/-- The fields that `log.lock` protects. While `log.committing` is set, `committing` is where the process that
commits is in `commit`. -/
structure LogData where
  outstanding : ℤ
  committing : Option Phase
  lh : LogHeader

def initlog : LogData := ⟨0, none, .empty⟩

/-- What a process does next while it holds the lock. A process that has panicked keeps it; `op` says whether its
operation is still counted. -/
inductive Pc
  | begin
  | append (b : ℕ)
  | endDec
  | endTest
  | endWake
  | endLeave
  | done
  | doneWake
  | doneLeave
  | panicked (op : Bool)
  deriving DecidableEq

/-- What a process has to do next: nothing, to go on with its operation, or to `commit`. -/
inductive Ret
  | idle
  | inOp
  | commit
  deriving DecidableEq

def LogData.Admits (d : LogData) : Prop := (d.lh.n : ℤ) + (d.outstanding + 1) * maxOpBlocks ≤ logSize

instance (d : LogData) : Decidable d.Admits := inferInstanceAs (Decidable (_ ≤ _))

/-- **The critical sections** of `begin_op`, `log_write` and `end_op`. -/
def act : Pc → LogData → Act LogData Pc Unit Ret
  | .begin, d =>
    if d.committing.isSome then .sleep () .begin
    else if ¬ d.Admits then .sleep () .begin
    else .leave { d with outstanding := d.outstanding + 1 } .inOp
  | .append b, d =>
    -- log absorption
    if b ∈ d.lh.block then .leave d .inOp
    else
      match d.lh.push b with
      | some lh => .leave { d with lh := lh } .inOp
      | none => .go d (.panicked true)
  | .endDec, d => .go { d with outstanding := d.outstanding - 1 } .endTest
  | .endTest, d =>
    if d.committing.isSome then .go d (.panicked false)
    else if d.outstanding = 0 then .leave { d with committing := some .start } .commit
    else .go d .endWake
  | .endWake, _ => .wakeup () .endLeave
  | .endLeave, d => .leave d .idle
  | .done, d => .go { d with committing := none } .doneWake
  | .doneWake, _ => .wakeup () .doneLeave
  | .doneLeave, d => .leave d .idle
  | .panicked op, d => .go d (.panicked op)

/-- **The statements of `commit`.** -/
def commitStep (d : LogData) : Phase → Option LogData
  | .start => some { d with committing := some (if d.lh.n > 0 then .writeLog 0 else .finish) }
  | .writeLog tail =>
    some { d with committing := some (if tail < d.lh.n then .writeLog (tail + 1) else .writeHead) }
  | .writeHead => some { d with committing := some (.installTrans 0) }
  | .installTrans tail =>
    some { d with committing := some (if tail < d.lh.n then .installTrans (tail + 1) else .clear) }
  | .clear => some { d with committing := some .eraseHead, lh := .empty }
  | .eraseHead => some { d with committing := some .finish }
  | .finish => none

variable {P : Type}

/-- **The log of the processes `procs`.** -/
def logCode (procs : List P) : Code P LogData Pc Unit Ret where
  procs := procs
  live _ := true
  act _ _ := act
  env _ d := d.committing.bind (commitStep d)

section

variable [DecidableEq P] {procs : List P} {g : Geometry} {s : State P LogData Pc Unit Ret}

/-- **The calls of processes.** `log_write` looks at the log before it takes the lock. -/
def Proper (g : Geometry) (s : State P LogData Pc Unit Ret) : Ev P Pc → Prop
  | .call p l =>
    match s.pos p, l with
    | .out none, .begin | .out (some .idle), .begin => True
    | .out (some .inOp), .append b =>
      b < 2 ^ 32 ∧ ¬ (s.data.lh.n ≥ logSize ∨ (s.data.lh.n : ℤ) ≥ g.size - 1) ∧ ¬ s.data.outstanding < 1
    | .out (some .inOp), .endDec => True
    | .out (some .commit), .done => s.data.committing = some .finish
    | _, _ => False
  | _ => True

/-- Where a process may be without the lock. -/
def Pc.Away (l : Pc) : Prop := l ≠ .endTest ∧ ∀ op, l ≠ .panicked op

/-! ## The protocol -/

/-- Where the protocol of `Xv6.Log.Ops` has a process that stands at `a` here; `c` is where the process that commits
is. That protocol takes `end_op` up to its `wakeup` as one step, here at the test. -/
def Stands (c : Option Phase) (a : Option Ret ⊕ Pc) (pc : Log.Pc) : Prop :=
  match a with
  | .inl none | .inl (some .idle) | .inr .endWake | .inr .endLeave | .inr .doneWake | .inr .doneLeave => pc = .idle
  | .inl (some .inOp) | .inr .endDec | .inr .endTest => pc = .inOp
  | .inl (some .commit) => ∃ f, c = some f ∧ pc = .commit f
  | .inr .done => c = some .finish ∧ pc = .commit .finish
  | .inr .begin => pc = .beginOp ∨ pc = .asleep
  | .inr (.append b) => pc = .logging b
  | .inr (.panicked _) => False

/-- Between the decrement and the test of `end_op`. -/
def ended : Option Ret ⊕ Pc → ℤ
  | .inr .endTest => 1
  | _ => 0

variable [Fintype P]

/-- **The log as the protocol sees it.** -/
structure Rel (d : LogData) (ph : P → Option Ret ⊕ Pc) (t : Log.State P) : Prop where
  halt : t.halt = none
  lh : t.lh = d.lh
  committing : t.committing = d.committing.isSome
  outstanding : t.outstanding = d.outstanding + ∑ p, ended (ph p)
  stands : ∀ p, Stands d.committing (ph p) (t.pc p)

/-- A store past the end of `lh.block` in `log_write`: that process keeps the lock, and its operation stays. -/
structure Stuck (d : LogData) (ph : P → Option Ret ⊕ Pc) (t : Log.State P) : Prop where
  halt : t.halt = some .overrun
  committing : d.committing = none
  outstanding : 0 < d.outstanding
  who : ∃ p, ph p = .inr (.panicked true)

/-- **A run of the protocol leads to what the monitor shows.** -/
def Refines (g : Geometry) (d : LogData) (ph : P → Option Ret ⊕ Pc) : Prop :=
  ∃ t, Reach (Log.step g) any (Log.State.init P) t ∧ (Rel d ph t ∨ Stuck d ph t)

section

variable {c c' : Option Phase} {a : Option Ret ⊕ Pc} {pc x : Log.Pc} {d d' : LogData} {ph : P → Option Ret ⊕ Pc}
  {t t' : Log.State P} {p : P}

omit [DecidableEq P] [Fintype P] in
theorem Stands.of_ne (h : Stands c a pc) (hne : ∀ f, pc ≠ .commit f) : Stands c' a pc := by
  unfold Stands at h ⊢
  split at h
  all_goals first
    | exact h
    | exact absurd h.2 (hne _)
    | exact absurd h.choose_spec.2 (hne _)

omit [DecidableEq P] [Fintype P] in
theorem Stands.of_commit {f : Phase} (h : Stands c a (.commit f)) :
    c = some f ∧ (a = .inl (some .commit) ∨ a = .inr .done ∧ f = .finish) := by
  unfold Stands at h
  split at h <;> simp_all

omit [DecidableEq P] [Fintype P] in
theorem Stands.wakeup (h : Stands c a pc) : Stands c a (if pc = .asleep then .beginOp else pc) := by
  split_ifs with hs
  · subst hs
    unfold Stands at h ⊢
    split at h <;> simp_all
  · exact h

omit [Fintype P] in
theorem Stuck.keep (h : Stuck d ph t) (hp : ph p ≠ .inr (.panicked true)) : Stuck d (update ph p a) t := by
  obtain ⟨q, hq⟩ := h.who
  refine { h with who := ⟨q, ?_⟩ }
  rwa [update_of_ne]
  rintro rfl
  exact hp hq

namespace Rel

theorem move (h : Rel d ph t) (hhalt : t'.halt = none) (hlh : t'.lh = d'.lh)
    (hcom : t'.committing = d'.committing.isSome)
    (hout : t'.outstanding - d'.outstanding + ended (ph p) = t.outstanding - d.outstanding + ended a)
    (hself : Stands d'.committing a (t'.pc p)) (hrest : ∀ q ≠ p, Stands d'.committing (ph q) (t'.pc q)) :
    Rel d' (update ph p a) t' := by
  refine ⟨hhalt, hlh, hcom, ?_, fun q => ?_⟩
  · have hsum := sum_update ended ph p a
    have := h.outstanding
    omega
  · by_cases hq : q = p
    · subst hq
      rwa [update_self]
    · rw [update_of_ne hq]
      exact hrest q hq

/-- A step that the protocol does not see. -/
theorem stay (h : Rel d ph t) (hend : ended a = ended (ph p)) (hself : Stands d.committing a (t.pc p)) :
    Rel d (update ph p a) t :=
  h.move h.halt h.lh h.committing (by rw [hend]) hself fun q _ => h.stands q

/-- A step in which `p` goes to `x`, and nothing is committed. -/
theorem goto (h : Rel d ph t) (hhalt : t'.halt = none) (hlh : t'.lh = d'.lh) (hcom : t'.committing = t.committing)
    (hcom' : d'.committing = d.committing)
    (hout : t'.outstanding - d'.outstanding + ended (ph p) = t.outstanding - d.outstanding + ended a)
    (hpc : t'.pc = update t.pc p x) (hself : Stands d.committing a x) : Rel d' (update ph p a) t' := by
  refine h.move hhalt hlh (by rw [hcom, hcom', h.committing]) hout ?_ fun q hq => ?_
  · rwa [hcom', hpc, update_self]
  · rw [hcom', hpc, update_of_ne hq]
    exact h.stands q

omit [DecidableEq P] in
theorem not_committing (h : Rel d ph t) (hfalse : t.committing = false) : d.committing = none := by
  rw [h.committing] at hfalse
  exact Option.isNone_iff_eq_none.1 (Option.isSome_eq_false_iff.1 hfalse)

omit [DecidableEq P] in
theorem outstanding_eq (h : Rel d ph t) (hrest : ∀ q k, q ≠ p → ph q = .inr k → k.Away) :
    t.outstanding = d.outstanding + ended (ph p) := by
  rw [h.outstanding, Finset.sum_eq_single p (fun q _ hq => ?_) (by simp)]
  cases hk : ph q with
  | inl r => rfl
  | inr k =>
    have := (hrest q k hq hk).1
    cases k <;> first | rfl | exact absurd rfl this

end Rel

variable {g : Geometry} (hr : Reach (Log.step g) any (Log.State.init P) t) (h : Rel d ph t)

include hr h

namespace Refines

theorem begin (hp : t.pc p = .idle) (hend : ended (ph p) = 0) : Refines g d (update ph p (.inr .begin)) :=
  ⟨t.goto p .beginOp, hr.tail (a := .beginOp p) trivial (if_pos ⟨h.halt, hp⟩),
    .inl (h.goto h.halt h.lh rfl rfl (by rw [hend]; rfl) rfl (.inl rfl))⟩

theorem logWrite {b : ℕ} (hp : t.pc p = .inOp) (hend : ended (ph p) = 0) (hb : b < 2 ^ 32)
    (hbig : ¬ (d.lh.n ≥ logSize ∨ (d.lh.n : ℤ) ≥ g.size - 1)) (hout : ¬ d.outstanding < 1) :
    Refines g d (update ph p (.inr (.append b))) := by
  have hsum : 0 ≤ ∑ p, ended (ph p) := Finset.sum_nonneg fun q _ => by unfold ended; split <;> decide
  have := h.outstanding
  have hstep : Log.step g t (.logWrite p b) = some (t.goto p (.logging b)) := by
    rw [Log.step, if_pos ⟨h.halt, hp, hb⟩, Log.State.logWrite, h.lh, if_neg hbig, if_neg (by omega)]
  exact ⟨_, hr.tail trivial hstep, .inl (h.goto h.halt h.lh rfl rfl (by rw [hend]; rfl) rfl rfl)⟩

/-- A process that the protocol has asleep in `begin_op` is woken up. -/
theorem awake (hp : t.pc p = .beginOp ∨ t.pc p = .asleep) (hph : ph p = .inr .begin) :
    ∃ t', Reach (Log.step g) any (Log.State.init P) t' ∧ Rel d ph t' ∧ t'.pc p = .beginOp := by
  rcases hp with hp | hp
  · exact ⟨t, hr, h, hp⟩
  · have hrel : Rel d (update ph p (.inr .begin)) (t.goto p .beginOp) :=
      h.goto h.halt h.lh rfl rfl (by rw [hph]; rfl) rfl (.inl rfl)
    rw [← hph, update_eq_self] at hrel
    exact ⟨_, hr.tail (a := .kill p) trivial (if_pos ⟨h.halt, hp⟩), hrel, update_self ..⟩

/-- `begin_op` returns. -/
theorem granted (hp : t.pc p = .beginOp) (hph : ph p = .inr .begin) (hcom : d.committing = none)
    (hout : t.outstanding = d.outstanding) (hadmits : d.Admits) :
    Refines g { d with outstanding := d.outstanding + 1 } (update ph p (.inl (some .inOp))) := by
  have hstep : Log.step g t (.run p) = some (t.beginOp p) := by rw [Log.step, if_pos h.halt, hp]
  have hr' := hr.tail trivial hstep
  rw [Log.State.beginOp, h.committing, hcom, if_neg (by decide), h.lh, hout, if_neg (not_lt.2 hadmits)] at hr'
  refine ⟨_, hr', .inl (h.goto h.halt h.lh rfl rfl ?_ rfl rfl)⟩
  rw [hph, hout]
  change d.outstanding + 1 - (d.outstanding + 1) + 0 = _ + 0
  omega

/-- The locked part of `log_write`. -/
theorem append {b : ℕ} (hp : t.pc p = .logging b) (hph : ph p = .inr (.append b))
    (hout : t.outstanding = d.outstanding) :
    Refines g ((act (.append b) d).data.getD d) (update ph p (act (.append b) d).phase) := by
  have hstep : Log.step g t (.run p) = some (t.logAppend p b) := by rw [Log.step, if_pos h.halt, hp]
  have hr' := hr.tail trivial hstep
  simp only [act]
  rw [Log.State.logAppend, h.lh] at hr'
  split_ifs at hr' ⊢ with hb
  · exact ⟨_, hr', .inl (h.goto h.halt h.lh rfl rfl (by rw [hph]; rfl) rfl rfl)⟩
  · cases hpush : d.lh.push b with
    | some lh =>
      rw [hpush] at hr'
      exact ⟨_, hr', .inl (h.goto h.halt rfl rfl rfl (by rw [hph]; rfl) rfl rfl)⟩
    | none =>
      rw [hpush] at hr'
      have hi := Log.inv_of_reach hr
      have hk : t.kind p = .op := by rw [Log.State.kind, hp]; rfl
      refine ⟨_, hr', .inr ⟨rfl, h.not_committing (hi.not_committing hk), ?_, p, update_self ..⟩⟩
      have := hi.one_le hk
      change 0 < d.outstanding
      omega

/-- The test of `end_op`, and its `wakeup`. -/
theorem endOp (hp : t.pc p = .inOp) (hph : ph p = .inr .endTest) (hout : t.outstanding = d.outstanding + 1) :
    Refines g ((act .endTest d).data.getD d) (update ph p (act .endTest d).phase) := by
  have hstep : Log.step g t (.endOp p) = some (t.endOp p) := if_pos ⟨h.halt, hp⟩
  have hr' := hr.tail trivial hstep
  have hi := Log.inv_of_reach hr
  have hfalse := hi.not_committing (p := p) (by rw [Log.State.kind, hp]; rfl)
  have hnone := h.not_committing hfalse
  simp only [act, hnone, Option.isSome_none, Bool.false_eq_true, if_false]
  simp only [Log.State.endOp, hfalse, Bool.false_eq_true, if_false, hout, add_sub_cancel_right] at hr'
  split_ifs at hr' ⊢ with hz
  · refine ⟨_, hr', .inl (h.move h.halt h.lh rfl ?_ ⟨.start, rfl, update_self ..⟩ fun q hq => ?_)⟩
    · rw [hph, hout]
      change d.outstanding - d.outstanding + 1 = d.outstanding + 1 - d.outstanding + 0
      omega
    · change Stands _ _ (update t.pc p _ q)
      rw [update_of_ne hq]
      exact (h.stands q).of_ne (hi.no_commit hfalse q)
  · refine ⟨_, hr', .inl (h.move h.halt h.lh ?_ ?_ ?_ fun q hq => ?_)⟩
    · change false = d.committing.isSome
      rw [hnone]
      rfl
    · rw [hph, hout]
      change d.outstanding - d.outstanding + 1 = d.outstanding + 1 - d.outstanding + 0
      omega
    · change Stands _ _ (if update t.pc p _ p = _ then _ else update t.pc p _ p)
      rw [update_self]
      rfl
    · change Stands _ _ (if update t.pc p _ q = _ then _ else update t.pc p _ q)
      rw [update_of_ne hq]
      exact (h.stands q).wakeup

/-- The end of `end_op` after `commit`. -/
theorem finish (hp : t.pc p = .commit .finish) (hph : ph p = .inr .done) :
    Refines g { d with committing := none } (update ph p (.inr .doneWake)) := by
  have hstep : Log.step g t (.run p) = some (t.commit p .finish) := by rw [Log.step, if_pos h.halt, hp]
  have hi := Log.inv_of_reach hr
  refine ⟨_, hr.tail trivial hstep, .inl (h.move h.halt h.lh rfl (by rw [hph]; rfl) ?_ fun q hq => ?_)⟩
  · change Stands _ _ (if update t.pc p _ p = _ then _ else update t.pc p _ p)
    rw [update_self]
    rfl
  · change Stands _ _ (if update t.pc p _ q = _ then _ else update t.pc p _ q)
    rw [update_of_ne hq]
    exact ((h.stands q).of_ne fun _ => hi.one_commit hp hq).wakeup

/-- A statement of `commit`. -/
theorem commit {f : Phase} (hc : d.committing = some f) (hd : commitStep d f = some d') : Refines g d' ph := by
  have hi := Log.inv_of_reach hr
  have htrue : t.committing = true := by rw [h.committing, hc]; rfl
  obtain ⟨p, f', hp⟩ := hi.committer htrue
  have hst := h.stands p
  rw [hp] at hst
  obtain ⟨hf, hph⟩ := hst.of_commit
  obtain rfl : f = f' := Option.some.inj (hc.symm.trans hf)
  have hstep : Log.step g t (.run p) = some (t.commit p f) := by rw [Log.step, if_pos h.halt, hp]
  -- the same statement on both sides
  have hnext : ∃ f', d'.committing = some f' ∧ t.commit p f = { t.goto p (.commit f') with lh := d'.lh } ∧
      d'.outstanding = d.outstanding := by
    cases f with
    | finish => cases hd
    | start | writeLog | installTrans =>
      cases hd
      refine ⟨_, rfl, ?_, rfl⟩
      rw [Log.State.commit, h.lh]
      split_ifs <;> rw [← h.lh] <;> rfl
    | clear =>
      cases hd
      exact ⟨_, rfl, rfl, rfl⟩
    | writeHead | eraseHead =>
      cases hd
      refine ⟨_, rfl, ?_, rfl⟩
      rw [← h.lh]
      rfl
  obtain ⟨f', hc', ht', hout⟩ := hnext
  have hne : f ≠ .finish := by
    rintro rfl
    cases hd
  refine ⟨_, hr.tail trivial hstep, .inl ?_⟩
  rw [ht', ← update_eq_self p ph]
  refine h.move h.halt rfl (by rw [hc']; exact htrue) (by rw [hout]; rfl) ?_ fun q hq => ?_
  · rw [hph.resolve_right fun h => hne h.2]
    exact ⟨f', hc', update_self ..⟩
  · change Stands _ _ (update t.pc p _ q)
    rw [update_of_ne hq]
    exact (h.stands q).of_ne fun _ => hi.one_commit hp hq

end Refines

end

omit [DecidableEq P] [Fintype P] in
theorem log_outline : Outline (logCode procs) (Proper g) (fun _ => True) (fun _ l => l.Away) (fun _ _ _ => True) where
  call := by
    intro s p l hok
    simp only [Proper] at hok
    split at hok <;> first | exact hok.elim | simp [Pc.Away]
  enter := fun _ _ _ _ _ _ => trivial
  act := by
    intro s p l _ _ _
    cases ha : (logCode procs).act p (s.killed p) l s.data with
    | sleep c l' =>
      refine ⟨trivial, ?_⟩
      change act l s.data = _ at ha
      cases l with
      | begin =>
        simp only [act] at ha
        split_ifs at ha <;> cases ha <;> simp [Pc.Away]
      | append b =>
        simp only [act] at ha
        split_ifs at ha
        split at ha <;> cases ha
      | endTest =>
        simp only [act] at ha
        split_ifs at ha
      | _ => cases ha
    | _ => trivial
  env := fun _ _ _ _ => ⟨fun _ => trivial, fun _ _ _ => trivial⟩

/-- **The monitor refines the protocol.** -/
theorem log_refines : Joint (logCode procs) (Proper g) (fun _ l => l.Away) (fun _ _ _ => True)
    (Refines (P := P) g) where
  call := by
    rintro s p l r hok hp ⟨t, hr, h | h⟩
    · have hph : s.phases p = .inl r := by rw [State.phases, hp]; rfl
      have hst := h.stands p
      have hend : ended (s.phases p) = 0 := by rw [hph]; rfl
      rw [hph] at hst
      simp only [Proper, hp] at hok
      split at hok <;> first | exact hok.elim | (rename_i heq; cases heq)
      · exact .begin hr h hst hend
      · exact .begin hr h hst hend
      · exact .logWrite hr h hst hend hok.1 hok.2.1 hok.2.2
      · exact ⟨t, hr, .inl (h.stay hend.symm hst)⟩
      · obtain ⟨f, hf, hpc⟩ := hst
        cases hok.symm.trans hf
        exact ⟨t, hr, .inl (h.stay hend.symm ⟨hok, hpc⟩)⟩
    · refine ⟨t, hr, .inr (h.keep ?_)⟩
      simp [State.phases, hp, At.phase]
  act := by
    rintro s p l _ hp hrest - ⟨t, hr, h | h⟩
    · have hph : s.phases p = .inr l := by rw [State.phases, hp]; rfl
      have hst := h.stands p
      have hout := h.outstanding_eq hrest
      change Refines g ((act l s.data).data.getD s.data) (update s.phases p (act l s.data).phase)
      rw [hph] at hst hout
      cases l with
      | begin =>
        simp only [act]
        split_ifs with hc hroom
        · exact ⟨t, hr, .inl (h.stay (by rw [hph]; rfl) hst)⟩
        · obtain ⟨t', hr', h', hp'⟩ := Refines.awake hr h hst hph
          have hout' := h'.outstanding_eq hrest
          rw [hph] at hout'
          exact .granted hr' h' hp' hph (by simpa using hc) (hout'.trans (add_zero _)) hroom
        · exact ⟨t, hr, .inl (h.stay (by rw [hph]; rfl) hst)⟩
      | append b => exact .append hr h hst hph (hout.trans (add_zero _))
      | endDec =>
        refine ⟨t, hr, .inl (h.move h.halt h.lh h.committing ?_ hst fun q _ => h.stands q)⟩
        rw [hph]
        change t.outstanding - (s.data.outstanding - 1) + 0 = t.outstanding - s.data.outstanding + 1
        omega
      | endTest => exact .endOp hr h hst hph hout
      | done => exact .finish hr h hst.2 hph
      | panicked op => exact hst.elim
      | _ => exact ⟨t, hr, .inl (h.stay (by rw [hph]; rfl) hst)⟩
    · -- the process that has panicked has the lock
      obtain ⟨q, hq⟩ := h.who
      obtain rfl : q = p := by
        by_contra hne
        exact (hrest q _ hne hq).2 _ rfl
      have hl : l = .panicked true := by
        rw [State.phases, hp] at hq
        exact Sum.inr.inj hq
      rw [hl]
      change Refines g s.data (update s.phases q (.inr (.panicked true)))
      rw [← hq, update_eq_self]
      exact ⟨t, hr, .inr h⟩
  env := by
    rintro s k d _ hd ⟨t, hr, h | h⟩
    · obtain ⟨f, hc, hstep⟩ := Option.bind_eq_some_iff.1 hd
      exact .commit hr h hc hstep
    · change s.data.committing.bind _ = _ at hd
      rw [h.committing] at hd
      cases hd

theorem refines_of_reach (h : Reach (step (logCode procs)) (Proper g) (.start initlog) s) :
    Refines g s.data s.phases := by
  refine log_refines.of_reach log_outline trivial ⟨_, .refl, .inl ⟨rfl, rfl, rfl, ?_, fun _ => rfl⟩⟩ h
  simp [initlog, Log.State.init, ended]

/-! ## Sleepers -/

/-- It is right to sleep in `begin_op`. -/
def LogData.Busy (d : LogData) : Prop := d.committing.isSome ∨ ¬ d.Admits

/-- Who owes a `wakeup`. -/
def owes : Pc → Unit → Prop
  | .endTest, _ => True
  | .endWake, _ => True
  | .doneWake, _ => True
  | _, _ => False

omit [DecidableEq P] [Fintype P] in
theorem log_telling (hprocs : ∀ p : P, p ∈ procs) :
    Telling (logCode procs) (Proper g) (fun _ _ _ => True) (fun _ d => d.Busy) owes where
  act := by
    intro s p l _ _ _
    change Tells _ _ _ _ _ _ (act l s.data)
    cases l with
    | begin =>
      simp only [act]
      split_ifs with hc hroom
      · exact ⟨hprocs p, .inl hc, nofun⟩
      · rintro c (hbusy | howes)
        · exact (hbusy.elim hc fun hfull => hfull hroom).elim
        · exact howes.elim
      · exact ⟨hprocs p, .inr hroom, nofun⟩
    | append b =>
      simp only [act]
      split_ifs with hb
      · exact fun c hc => .inl (hc.resolve_right id)
      · cases hpush : s.data.lh.push b with
        | none => exact fun c hc => .inl (hc.resolve_right id)
        | some lh =>
          refine fun c hc => .inl ((hc.resolve_right id).imp_right fun hfull hadmits => hfull ?_)
          -- the log has only become fuller
          have hn : lh.n = s.data.lh.n + 1 := by
            rw [LogHeader.n, (LogHeader.push_eq_some hpush).2, List.length_append]
            rfl
          change (lh.n : ℤ) + (s.data.outstanding + 1) * maxOpBlocks ≤ logSize at hadmits
          change (s.data.lh.n : ℤ) + (s.data.outstanding + 1) * maxOpBlocks ≤ logSize
          omega
    | endDec => exact fun c _ => .inr trivial
    | endTest =>
      simp only [act]
      split_ifs with hc hz
      · exact fun c _ => .inl (.inl hc)
      · exact fun c _ => .inl (.inl rfl)
      · exact fun c _ => .inr trivial
    | endWake => exact fun c hne => absurd rfl hne
    | done => exact fun c _ => .inr trivial
    | doneWake => exact fun c hne => absurd rfl hne
    | panicked op => exact fun c hc => .inl (hc.resolve_right id)
    | endLeave => exact fun c hc => .inl (hc.resolve_right id)
    | doneLeave => exact fun c hc => .inl (hc.resolve_right id)
  env := by
    intro k d d' hd c _
    obtain ⟨ph, _, hstep⟩ := Option.bind_eq_some_iff.1 hd
    refine .inl ?_
    cases ph with
    | finish => cases hstep
    | _ =>
      cases hstep
      rfl

/-- **No operation waits for log space that is available.** If a process sleeps in `begin_op` while `log.lock` is free
then somebody commits or its operation might exhaust the log. If no operation is under way and nobody commits then the
log is empty, so that an operation is admitted, unless a process that holds the lock stands between the decrement and
the test of `end_op`. -/
theorem begin_op_waits (hprocs : ∀ p : P, p ∈ procs)
    (h : Reach (step (logCode procs)) (Proper g) (.start initlog) s) :
    (s.lock = none → ∀ p l, s.pos p = .asleep () l → s.data.committing.isSome ∨
      (s.data.lh.n : ℤ) + (s.data.outstanding + 1) * maxOpBlocks > logSize) ∧
    ((∀ p, s.lock = some p → s.phases p ≠ .inr .endTest) → s.data.outstanding = 0 → s.data.committing = none →
      s.data.lh.n = 0 ∧ s.data.Admits) := by
  constructor
  · intro hlock p l hp
    have hbusy : s.data.Busy :=
      (log_telling hprocs).quiet_of_reach log_outline trivial h hlock (by rw [hp]; rfl)
    exact hbusy.imp_right not_le.1
  · intro hno hzero hnone
    have hended : ∀ p, ended (s.phases p) = 0 := by
      intro p
      by_cases hp : s.phases p = .inr .endTest
      · exact absurd rfl ((log_outline.good_of_reach trivial h).away_of_ne (fun hlock => hno p hlock hp) hp).1
      · unfold ended
        split
        · exact absurd ‹_› hp
        · rfl
    have hn : s.data.lh.n = 0 := by
      obtain ⟨t, hr, hrel | hstuck⟩ := refines_of_reach h
      · rw [← hrel.lh]
        refine List.length_eq_zero_iff.2 ((Log.inv_of_reach hr).idle (by rw [hrel.committing, hnone]; rfl) ?_)
        rw [hrel.outstanding, hzero, Finset.sum_eq_zero fun p _ => hended p]
        rfl
      · exact absurd hzero hstuck.outstanding.ne'
    refine ⟨hn, ?_⟩
    rw [LogData.Admits, hn, hzero]
    decide

end

/-! ## A run of four processes -/

instance (s : State (Fin 4) LogData Pc Unit Ret) (e : Ev (Fin 4) Pc) : Decidable (Proper mkfsGeometry s e) := by
  cases e with
  | call p l =>
    simp only [Proper]
    split <;> infer_instance
  | _ => exact inferInstanceAs (Decidable True)

/-- Three operations fill the log; a fourth process has to wait. -/
def crowd : List (Ev (Fin 4) Pc) :=
  [0, 1, 2].flatMap (fun p => [.call p .begin, .acquire p, .run p]) ++ [.call 3 .begin, .acquire 3, .run 3, .run 3]

def sleeps (s : State (Fin 4) LogData Pc Unit Ret) (p : Fin 4) : Bool :=
  match s.pos p with
  | .asleep _ _ => true
  | _ => false

theorem begin_op_waits_crowd : ∃ s : State (Fin 4) LogData Pc Unit Ret,
    Reach (step (logCode [0, 1, 2, 3])) (Proper mkfsGeometry) (.start initlog) s ∧ s.lock = none ∧
      (∃ l, s.pos 3 = .asleep () l) ∧ s.data.committing = none ∧
      (s.data.lh.n : ℤ) + (s.data.outstanding + 1) * maxOpBlocks > logSize := by
  have hrun : (execIf (step (logCode [0, 1, 2, 3])) (Proper mkfsGeometry) (.start initlog) crowd).any
      (fun s => s.lock = none && (s.data.committing = none && sleeps s 3)) = true := by decide +kernel
  obtain ⟨s, hs, htest⟩ := (Option.any_eq_true _ _).1 hrun
  rw [Bool.and_eq_true, Bool.and_eq_true, decide_eq_true_eq, decide_eq_true_eq] at htest
  obtain ⟨l, hl⟩ : ∃ l, s.pos 3 = .asleep () l := by
    have := htest.2.2
    unfold sleeps at this
    split at this
    · next c l hp => exact ⟨l, hp⟩
    · cases this
  have hwait := (begin_op_waits (by decide) (.of_execIf hs)).1 htest.1 3 l hl
  rw [htest.2.1] at hwait
  exact ⟨s, .of_execIf hs, htest.1, ⟨l, hl⟩, htest.2.1, hwait.resolve_left Bool.false_ne_true⟩

end Xv6.LogWait
