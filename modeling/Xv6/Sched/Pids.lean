import Xv6.Sched.Kill

/-!
# Pids

`allocpid` hands out `nextpid`, an `int` that wraps around: after `2147483647` come the negative
numbers, `0`, and the pids that processes still have.

* `Core.numbered`: a step other than that of `allocpid` gives no entry a pid, and leaves alone those somebody else is
  about to fill.
* **`pids_identify`**: while `nextpid` has not wrapped, the pids of all processes are positive and different.
* `pids_wrap`: `initproc` forks until its child gets a negative pid.
-/

namespace Xv6.Sched

open Runs
open Function (update update_of_ne update_self)

variable {C A : Type} [DecidableEq C] [DecidableEq A]

/-- Entry `i` has a pid: that of its process, or of the process that `fork` is about to make there. -/
def State.Numbered (s : State C A) (i : Slot) : Prop :=
  (s.proc i).state ≠ .unused ∨ ∃ c p, (s.cpu c).on = some p ∧ (s.thread p).pc = .forkMake i

/-- **Pids are positive and different**, and below `nextpid` as long as that is positive. -/
structure Pids (s : State C A) : Prop where
  pos : ∀ i, s.Numbered i → 0 < (s.proc i).pid
  lt : 0 < s.nextpid → ∀ i, s.Numbered i → (s.proc i).pid < s.nextpid
  inj : ∀ i j, s.Numbered i → s.Numbered j → (s.proc i).pid = (s.proc j).pid → i = j

section Steps

variable {s s' : State C A} {c : C} {p : Slot}

theorem schedStep_nextpid {pc : SchedPc A} (hs : s.schedStep c pc = some s') : s'.nextpid = s.nextpid := by
  cases pc <;> simp only [State.schedStep] at hs
  case lock | wakeLock =>
    obtain ⟨-, rfl⟩ := State.of_acquire hs
    rfl
  case test =>
    split_ifs at hs
    · cases hs
      rfl
    · obtain ⟨-, rfl⟩ := State.of_release hs
      rfl
  case swtch =>
    cases hs
    rfl
  case back | wakeTest =>
    obtain ⟨-, rfl⟩ := State.of_release hs
    rfl

omit [DecidableEq C] [DecidableEq A] in
theorem Keeps.pid_eq {m : Option Slot} (h : Keeps s s' m) {i : Slot} (hu : (s'.proc i).state ≠ .unused) :
    (s'.proc i).pid = (s.proc i).pid :=
  h.pid i fun hs => hu ((h.unused i).2 hs)

omit [DecidableEq C] in
theorem Effect.pid_eq (h : Effect s s' c p) {i : Slot} (hu : (s'.proc i).state ≠ .unused) :
    (s'.proc i).pid = (s.proc i).pid := by
  cases h with
  | keep hk => exact hk.pid_eq hu
  | adopt j _ hp | born j _ _ hp =>
    by_cases hij : i = j
    · subst hij
      simp [hp]
    · simp [hp, hij]
  | free j _ _ hp =>
    by_cases hij : i = j
    · subst hij
      simp [hp, Proc.zero] at hu
    · simp [hp, hij]
  | die st op _ _ _ _ _ hp =>
    have hw : ((s.proc op).wakeup (.proc op)).pid = (s.proc op).pid := by
      unfold Proc.wakeup
      split_ifs <;> rfl
    by_cases hip : i = p
    · subst hip
      simp [hp]
    · by_cases hio : i = op
      · subst hio
        simp [hp, hip, hw]
      · simp [hp, hip, hio]

/-! ## The invariant is kept -/

omit [DecidableEq A] in
/-- **A step that hands out no pid numbers no entry.** What another CPU is about to fill is locked by it. -/
theorem Core.numbered (hc : Core s) (ha : After c s s')
    (hpid : ∀ i, (s'.proc i).state ≠ .unused → (s'.proc i).pid = (s.proc i).pid)
    (hun : ∀ i, (s.proc i).state = .unused →
      (∀ p, (s.cpu c).on = some p → (s.thread p).pc ≠ .forkMake i) →
      (s'.proc i).state = .unused ∧ (s'.proc i).pid = (s.proc i).pid)
    (hpast : ∀ p, (s.cpu c).on = some p → (s'.thread p).Past) {i : Slot} (hn : s'.Numbered i) :
    s.Numbered i ∧ (s'.proc i).pid = (s.proc i).pid := by
  rcases hn with hs | ⟨c', q, hon', hpc'⟩
  · refine ⟨?_, hpid i hs⟩
    by_contra hno
    obtain ⟨hu, hmake⟩ := not_or.1 hno
    exact hs (hun i (not_not.1 hu) fun p hon hpc => hmake ⟨c, p, hon, hpc⟩).1
  · by_cases hcc : c' = c
    · subst hcc
      rcases ha.on c' q hon' with hon | ⟨-, hsw⟩
      · exact absurd hpc' (hpast q hon i)
      · -- a process that is switched to goes on where it was switched from
        have hpark := hc.parked_of_swtch hsw
        have hrun : (s'.proc q).state = .running := by
          rw [ha.core.status c' q hon', hpc']
          rfl
        have := (ha.touched q (hpark c')).resumes hc hpark (by simp [hrun]) (by simp [hrun])
        rw [hpc'] at this
        exact this.elim
    · have hon : (s.cpu c').on = some q := (ha.on c' q hon').resolve_right fun h => hcc h.1
      have hq : (s.cpu c).on ≠ some q := fun h => hcc (hc.on_inj hon h)
      have ht := ((ha.touched q hq).executing hc hcc hon).1
      rw [ht] at hpc'
      have hmem : i ∈ (s.thread q).pc.locks q := by
        rw [hpc']
        exact List.mem_singleton_self i
      refine ⟨.inr ⟨c', q, hon, hpc'⟩, (hun i (hc.spare c' q i hon (by rw [hpc']; rfl)) ?_).2⟩
      intro p honp hpcp
      have hl := hc.lock_eq honp (l := i) (by rw [hpcp]; exact List.mem_singleton_self i)
      rw [hc.lock_eq hon hmem] at hl
      exact hcc (Option.some.inj hl)

end Steps

theorem lt_succ_of_pos {n : Int32} (h : 0 < n) (h' : 0 < n + 1) : n < n + 1 := by
  rw [Int32.lt_iff_toInt_lt] at h h' ⊢
  rw [Int32.toInt_add] at h' ⊢
  have := n.toInt_lt
  simp only [Int32.toInt_zero, Int32.toInt_one, Int.bmod_def] at h h' ⊢
  omega

/-- **What must not happen**: `allocpid` runs with a `nextpid` that has wrapped around. -/
def PidsLeft (s : State C A) : Act C A → Prop
  | .run c _ => ∀ p i, (s.cpu c).on = some p → (s.thread p).pc = .forkPid i → 0 < s.nextpid
  | _ => True

namespace Pids

variable {s s' : State C A} {c : C} {p : Slot}

omit [DecidableEq C] [DecidableEq A] in
theorem keep (h : Pids s) (hn : s'.nextpid = s.nextpid)
    (hnum : ∀ i, s'.Numbered i → s.Numbered i ∧ (s'.proc i).pid = (s.proc i).pid) : Pids s' where
  pos := by
    intro i hi
    rw [(hnum i hi).2]
    exact h.pos i (hnum i hi).1
  lt := by
    intro h0 i hi
    rw [hn] at h0 ⊢
    rw [(hnum i hi).2]
    exact h.lt h0 i (hnum i hi).1
  inj := by
    intro i j hi hj hij
    rw [(hnum i hi).2, (hnum j hj).2] at hij
    exact h.inj i j (hnum i hi).1 (hnum j hj).1 hij

omit [DecidableEq A] in
theorem plain (h : Pids s) (hc : Core s) (ha : After c s s') (hon : (s.cpu c).on = some p)
    (hp : Plain s s' p)
    (hpid : ∀ i, (s'.proc i).state ≠ .unused → (s'.proc i).pid = (s.proc i).pid) : Pids s' := by
  refine h.keep hp.nextpid fun i => hc.numbered ha hpid
    (fun i hu hne => ⟨(hp.unused i hu (hne p hon)).1, (hp.unused i hu (hne p hon)).2.1⟩) ?_
  intro q hq
  rw [hon] at hq
  cases hq
  exact hp.past

omit [DecidableEq C] [DecidableEq A] in
/-- **The step of `allocpid`** numbers one entry, with a pid above all others. -/
theorem alloc (h : Pids s) (h0 : 0 < s.nextpid) (i : Slot) :
    Pids ((s.allocpid i).move p (.goto (.forkMake i))) := by
  have hnum : ∀ j, ((s.allocpid i).move p (.goto (.forkMake i))).Numbered j → j ≠ i →
      s.Numbered j ∧ (((s.allocpid i).move p (.goto (.forkMake i))).proc j).pid = (s.proc j).pid := by
    intro j hj hji
    have hproc : ((s.allocpid i).move p (.goto (.forkMake i))).proc j = s.proc j :=
      update_of_ne hji _ _
    refine ⟨?_, by rw [hproc]⟩
    rcases hj with hj | ⟨c, q, hon, hpc⟩
    · exact .inl (hproc ▸ hj)
    · by_cases hqp : q = p
      · subst hqp
        rw [State.move_thread] at hpc
        exact absurd (Pc.forkMake.inj hpc).symm hji
      · exact .inr ⟨c, q, hon, (congrArg Thread.pc (update_of_ne hqp _ _)).symm.trans hpc⟩
  have hi : (((s.allocpid i).move p (.goto (.forkMake i))).proc i).pid = s.nextpid := by
    simp [State.move, State.setThread, State.allocpid, State.setProc]
  have hlt : ∀ j, ((s.allocpid i).move p (.goto (.forkMake i))).Numbered j → j ≠ i →
      (((s.allocpid i).move p (.goto (.forkMake i))).proc j).pid < s.nextpid := by
    intro j hj hji
    rw [(hnum j hj hji).2]
    exact h.lt h0 j (hnum j hj hji).1
  refine ⟨?_, ?_, ?_⟩
  · intro j hj
    by_cases hji : j = i
    · rw [hji, hi]
      exact h0
    · rw [(hnum j hj hji).2]
      exact h.pos j (hnum j hj hji).1
  · intro h1 j hj
    have hn : s.nextpid < s.nextpid + 1 := lt_succ_of_pos h0 h1
    by_cases hji : j = i
    · rw [hji, hi]
      exact hn
    · exact Int32.lt_trans (hlt j hj hji) hn
  · intro j k hj hk hjk
    by_cases hji : j = i <;> by_cases hki : k = i
    · rw [hji, hki]
    · have := hlt k hk hki
      rw [← hjk, hji, hi] at this
      exact (Int32.lt_irrefl this).elim
    · have := hlt j hj hji
      rw [hjk, hki, hi] at this
      exact (Int32.lt_irrefl this).elim
    · rw [(hnum j hj hji).2, (hnum k hk hki).2] at hjk
      exact h.inj j k (hnum j hj hji).1 (hnum k hk hki).1 hjk

theorem step (h : Pids s) (hc : Core s) (ht : Tree s) {a : Act C A} (hok : PidsLeft s a)
    (hs : Sched.step s a = some s') : Pids s' := by
  have ha := hc.step hs
  have hpid : ∀ i, (s'.proc i).state ≠ .unused → (s'.proc i).pid = (s.proc i).pid := by
    intro i hu
    rcases ht.effects hc hs with hk | ⟨p, -, heff⟩
    · exact hk.pid_eq hu
    · exact heff.pid_eq hu
  cases stepped hs with
  | @proc c e p _ hon hs =>
    by_cases hforks : ∃ i, (s.thread p).pc = .forkPid i
    · obtain ⟨i, hpc⟩ := hforks
      have h0 := hok p i hon hpc
      simp only [hpc, State.procStep] at hs
      cases hs
      exact h.alloc h0 i
    · exact h.plain hc ha hon (.of_procStep hc hon hs (not_exists.1 hforks)) hpid
  | sched hon hs =>
    have hk : Keeps s s' none := schedStep_keeps hs
    refine h.keep (schedStep_nextpid hs) fun i => hc.numbered ha hpid ?_ fun q hq => ?_
    · intro i hu _
      have hu' := (hk.unused i).2 hu
      exact ⟨hu', (unused_of_schedStep hs hu').2.2⟩
    · cases hon.symm.trans hq
  | call hon hpc hs => exact h.plain hc ha hon (.of_call (hc.status _ _ hon) hpc hs) hpid
  | interrupt hon hf hpc =>
    refine h.plain hc ha hon (.of_move rfl rfl rfl fun i => ?_) hpid
    rcases hpc with rfl | ⟨d, rfl⟩ <;> simp [Thread.interrupt]
  | device hon hpc =>
    refine h.keep rfl fun i => hc.numbered ha hpid (fun i hu _ => ⟨hu, rfl⟩) fun q hq => ?_
    cases hon.symm.trans hq

omit [DecidableEq C] [DecidableEq A] in
theorem initial : Pids (State.init : State C A) := by
  have hnum : ∀ i, (State.init : State C A).Numbered i → i = initproc := by
    intro i hi
    by_contra hne
    rcases hi with hi | ⟨c, p, hon, -⟩
    · simp [State.init, hne, Proc.zero] at hi
    · cases hon
  refine ⟨?_, ?_, ?_⟩
  · intro i hi
    rw [hnum i hi]
    simp [State.init]
  · intro _ i hi
    rw [hnum i hi]
    simp only [State.init, update_self]
    decide
  · intro i j hi hj _
    rw [hnum i hi, hnum j hj]

theorem of_reach (h : Reach Sched.step PidsLeft (State.init : State C A) s) : Pids s := by
  have hall : (Core s ∧ Tree s) ∧ Pids s := by
    refine h.inv (I := fun s => (Core s ∧ Tree s) ∧ Pids s) ⟨⟨Core.init, Tree.initial⟩, initial⟩ ?_
    intro s a s' ⟨⟨hc, ht⟩, hp⟩ hok hs
    exact ⟨⟨(hc.step hs).core, ht.step hc hs⟩, hp.step hc ht hok hs⟩
  exact hall.2

end Pids

/-- **Pids identify processes.** In every run in which `nextpid` has not wrapped around when `allocpid` uses
it, all processes have positive and different pids, and so has the process that `fork` is about to make
and to return the pid of. -/
theorem pids_identify {s : State C A} (h : Reach step PidsLeft (State.init : State C A) s) :
    (∀ i, (s.proc i).state ≠ .unused → 0 < (s.proc i).pid) ∧
    (∀ i j, (s.proc i).state ≠ .unused → (s.proc j).state ≠ .unused → (s.proc i).pid = (s.proc j).pid →
      i = j) ∧
    ∀ c p i, (s.cpu c).on = some p → (s.thread p).pc = .forkMake i → 0 < (s.proc i).pid ∧
      ∀ j, (s.proc j).state ≠ .unused → (s.proc j).pid ≠ (s.proc i).pid := by
  have hp := Pids.of_reach h
  have hc := Core.of_reach h
  refine ⟨fun i hi => hp.pos i (.inl hi), fun i j hi hj => hp.inj i j (.inl hi) (.inl hj), ?_⟩
  intro c p i hon hpc
  refine ⟨hp.pos i (.inr ⟨c, p, hon, hpc⟩), fun j hj hji => hj ?_⟩
  rw [hp.inj j i (.inl hj) (.inr ⟨c, p, hon, hpc⟩) hji]
  exact hc.spare c p i hon (by rw [hpc]; rfl)

theorem pids_identify_fork :
    ∃ s : State (Fin 2) Unit, Reach step PidsLeft State.init s ∧ (s.proc 0).state ≠ .unused ∧
      (s.proc 1).state ≠ .unused ∧ 0 < (s.proc 1).pid ∧ (s.proc 0).pid ≠ (s.proc 1).pid := by
  have hrun : (execIf step (fun s _ => 0 < s.nextpid) (State.init : State (Fin 2) Unit)
      (steps 0 4 ++ .call 0 .fork :: steps 0 6)).any
      (fun s => decide ((s.proc 0).state ≠ .unused ∧ (s.proc 1).state ≠ .unused)) = true := by
    decide +kernel
  obtain ⟨s, hs, hd⟩ := (Option.any_eq_true _ _).1 hrun
  obtain ⟨h0, h1⟩ := of_decide_eq_true hd
  have hr : Reach step PidsLeft State.init s := by
    refine (Reach.of_execIf hs).mono ?_
    intro s a hn
    cases a with
    | run c e => exact fun _ _ _ _ => hn
    | _ => trivial
  have := pids_identify hr
  exact ⟨s, hr, h0, h1, this.1 1 h1, fun h => absurd (this.2.1 0 1 h0 h1 h) (by decide)⟩

/-- `initproc` executes `pc` on CPU `0`, `l` is who holds the lock of entry `1`, which is unused, and
`nextpid` is `n`. -/
structure Alone (pc : Pc Unit) (l : Option (Fin 2)) (n : Int32) (s : State (Fin 2) Unit) : Prop where
  reach : Reach step any State.init s
  on : (s.cpu 0).on = some 0
  pc : (s.thread 0).pc = pc
  frames : (s.thread 0).frames = []
  lock : s.lock 0 = none ∧ s.lock 1 = l
  init : (s.proc 0).state ≠ .unused
  spare : (s.proc 1).state = .unused
  nextpid : s.nextpid = n

namespace Alone

variable {n : Int32} {s : State (Fin 2) Unit}

theorem forks (h : Alone .run none n s) : ∃ s', Alone (.forkMake 1) (some 0) (n + 1) s' ∧ (s'.proc 1).pid = n := by
  obtain ⟨hr, hon, hpc, hfr, ⟨hl0, hl1⟩, hi, hu, rfl⟩ := h
  have hex : exec step s (.call 0 .fork :: steps 0 5) = some { s with
      proc := update s.proc 1 { s.proc 1 with pid := s.nextpid }
      lock := update (update s.lock 0 none) 1 (some 0)
      nextpid := s.nextpid + 1
      thread := update s.thread 0 { s.thread 0 with pc := .forkMake 1 } } := by
    simp [steps, exec, step, State.call, State.procStep, State.acquire, State.release, State.move,
      State.setThread, State.setLock, State.allocpid, State.setProc, Thread.goto, Thread.turn, forward, next,
      nproc, hon, hpc, hl0, hl1, hi, hu]
  refine ⟨_, ⟨hr.trans (.of_exec (fun _ _ _ => trivial) hex), hon, ?_, ?_, ?_, ?_, ?_, rfl⟩, ?_⟩
  all_goals simp [hfr, hi, hu]

theorem fails (h : Alone (.forkMake 1) (some 0) n s) : ∃ s', Alone .run none n s' := by
  obtain ⟨hr, hon, hpc, hfr, ⟨hl0, hl1⟩, hi, hu, rfl⟩ := h
  have hst : step s (.run 0 ⟨false, true⟩) = some ((s.setLock 1 none).move 0 (.answer (-1))) := by
    simp [step, State.procStep, State.release, hon, hpc, hl1]
  refine ⟨_, hr.tail trivial hst, hon, ?_, ?_, ⟨?_, ?_⟩, hi, hu, rfl⟩
  all_goals
    simp [State.move, State.setThread, State.setLock, Thread.answer, Thread.leave, hfr, hl0]

theorem after (k : ℕ) : ∃ s, Alone .run none (Int32.ofNat (2 + k)) s := by
  induction k with
  | zero =>
    have hrun : (exec step (State.init : State (Fin 2) Unit) (steps 0 4)).any (fun s => decide
        (((s.cpu 0).on = some 0 ∧ (s.thread 0).pc = .run ∧ (s.thread 0).frames = []) ∧
        (s.lock 0 = none ∧ s.lock 1 = none) ∧ (s.proc 0).state ≠ .unused ∧ (s.proc 1).state = .unused ∧
        s.nextpid = 2)) = true := by
      decide +kernel
    obtain ⟨s, hs, hd⟩ := Reach.of_exec_any (fun _ _ _ => trivial) hrun
    obtain ⟨⟨hon, hpc, hfr⟩, hl, hi, hu, hn⟩ := of_decide_eq_true hd
    exact ⟨s, hs, hon, hpc, hfr, hl, hi, hu, hn⟩
  | succ k ih =>
    obtain ⟨s, hs⟩ := ih
    obtain ⟨s₁, hs₁, -⟩ := hs.forks
    obtain ⟨s₂, hs₂⟩ := hs₁.fails
    refine ⟨s₂, ?_⟩
    rwa [← Nat.add_assoc, Int32.ofNat_add]

end Alone

/-- **A process with a negative pid.** When `fork` of `initproc` has failed often enough, `nextpid` has
wrapped around, and the child of the next one gets pid `-2147483648`. -/
theorem pids_wrap :
    ∃ s : State (Fin 2) Unit, Reach step any State.init s ∧ (s.proc 1).state = .runnable ∧
      (s.proc 1).pid = -2147483648 := by
  obtain ⟨s, hs⟩ := Alone.after (2 ^ 31 - 2)
  obtain ⟨s₁, hs₁, hpid⟩ := hs.forks
  obtain ⟨hr, hon, hpc, hfr, ⟨hl0, hl1⟩, hi, hu, -⟩ := hs₁
  have hst : step s₁ (.run 0 ⟨true, true⟩) = some (((s₁.forkMake 0 1).setLock 1 none).move 0
      (.answer (s₁.proc 1).pid)) := by
    simp [step, State.procStep, State.release, State.forkMake, State.setThread, State.setProc, hon, hpc, hl1]
  refine ⟨_, hr.tail trivial hst, ?_, ?_⟩
  · simp [State.move, State.setThread, State.setLock, State.forkMake, State.setProc]
  · simp [State.move, State.setThread, State.setLock, State.forkMake, State.setProc, hpid]

end Xv6.Sched
