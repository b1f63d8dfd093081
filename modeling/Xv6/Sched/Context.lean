import Xv6.Sched.Invariant

/-!
# The steps of processes and schedulers

* `Core.procStep`, `Core.schedStep`, **`Core.step`**: every step keeps the invariant.
* **`one_cpu_per_context`**: a process is `c->proc` of one CPU at most, and no CPU switches to a process,
  and no process is freed, while some CPU executes on its kernel stack.
-/

namespace Xv6.Sched

open Runs
open Function (update_eq_self update_of_ne update_self)

variable {C A : Type} [DecidableEq C] [DecidableEq A]

namespace Core

variable {s s' : State C A} {c : C} {p : Slot}

theorem schedStep (h : Core s) (hon : (s.cpu c).on = none)
    (hs : s.schedStep c (s.cpu c).pc = some s') : After c s s' := by
  have hproc := h.proc c
  have hheld : ∀ l, s.lock l = some c ↔ l ∈ (s.cpu c).pc.locks := by
    intro l
    rw [h.held, State.held_of_sched hon]
  have hfwd : ∀ i, ∃ j, forward SchedPc.lock (.lock 0) i = (.lock j : SchedPc A) := by
    intro i
    unfold forward
    cases next i with
    | none => exact ⟨0, rfl⟩
    | some j => exact ⟨j, rfl⟩
  cases hpc : (s.cpu c).pc with
  | lock i =>
    rw [hpc] at hs hproc
    obtain ⟨hfree, rfl⟩ := State.of_acquire hs
    exact h.schedTaking hon (v := { s.cpu c with pc := .test i }) hon hproc hfree
      (by rw [hpc]; rfl) rfl hproc
  | test i =>
    rw [hpc] at hs hproc hheld
    have hmine := (hheld i).2 (List.mem_singleton.2 rfl)
    simp only [State.schedStep] at hs
    split_ifs at hs with hrun
    · cases hs
      have hne : (s.proc i).state ≠ .running := by simp [hrun]
      refine h.scheduler hon rfl hon rfl (fun l => hheld l) (fun _ _ _ => Iff.rfl) rfl ?_ ?_ ?_
      · intro q c' hq hc' hcp
        cases hq
        rcases h.busy c' i hcp with hb | hb
        · exact hne hb
        · exact hc' (Option.some.inj (hb.symm.trans hmine))
      · intro q hq
        cases hq
        simp [State.setCpu, State.setProc]
      · intro q
        by_cases hq : q = i
        · subst hq
          exact .pick rfl hmine hrun (by simp [State.setCpu, State.setProc])
        · exact .same rfl (by simp [State.setCpu, State.setProc, hq])
    · obtain ⟨-, rfl⟩ := State.of_release hs
      obtain ⟨j, hj⟩ := hfwd i
      have := h.schedDropping hon (v := { s.cpu c with pc := .lock j }) hon hproc (w := s.proc i)
        hmine (by rw [hpc]; rfl) rfl hproc
        (.same rfl (by simp [State.setCpu, State.setLock, State.setProc]))
      rw [hj]
      simpa [State.setProc, update_eq_self] using this
  | swtch i =>
    rw [hpc] at hs
    cases hs
    exact h.switch hon hpc
  | back i =>
    rw [hpc] at hs hheld
    obtain ⟨hmine, rfl⟩ := State.of_release hs
    obtain ⟨j, hj⟩ := hfwd i
    have := h.schedDropping hon (v := { s.cpu c with proc := none, pc := .lock j }) hon rfl
      (w := s.proc i) hmine (by rw [hpc]; rfl) rfl rfl
      (.same rfl (by simp [State.setCpu, State.setLock, State.setProc]))
    rw [hj]
    simpa [State.setProc, update_eq_self] using this
  | wakeLock a i =>
    rw [hpc] at hs hproc
    obtain ⟨hfree, rfl⟩ := State.of_acquire hs
    exact h.schedTaking hon (v := { s.cpu c with pc := .wakeTest a i }) hon hproc hfree
      (by rw [hpc]; rfl) rfl hproc
  | wakeTest a i =>
    rw [hpc] at hs hproc hheld
    obtain ⟨hmine, rfl⟩ := State.of_release hs
    have hj : ∃ pc : SchedPc A, forward (SchedPc.wakeLock a) (.lock 0) i = pc ∧ pc.locks = [] ∧
        pc.proc = none := by
      unfold forward
      cases next i with
      | none => exact ⟨.lock 0, rfl, rfl, rfl⟩
      | some j => exact ⟨.wakeLock a j, rfl, rfl, rfl⟩
    obtain ⟨pc, hpc', hl, hp⟩ := hj
    rw [hpc']
    refine h.schedDropping hon (v := { s.cpu c with pc := pc }) hon (hproc.trans hp.symm) hmine
      (by rw [hpc]; rfl) hl hproc ?_
    exact .of_wakeup (.other a) rfl hmine (update_self _ _ _)

theorem forkTest (h : Core s) (hon : (s.cpu c).on = some p) {e : Env} {i : Slot}
    (hpc : (s.thread p).pc = .forkTest i)
    (hs : s.procStep c p e (.forkTest i) = some s') : After c s s' := by
  have hi := h.idle p
  have hst := h.status c p hon
  rw [hpc] at hst
  simp only [State.procStep] at hs
  split_ifs at hs with hu
  · cases hs
    refine h.plain hon rfl ?_ ?_ ?_ ?_ rfl ?_
    · simpa [State.move, State.setThread, Thread.goto] using hi
    · simpa [State.move, State.setThread, Thread.goto, Pc.status] using hst
    · intro j hj
      have hij : i = j := by simpa [State.move, State.setThread, Thread.goto, Pc.spare] using hj
      exact hij ▸ hu
    · intro q hq
      exact .same (update_of_ne hq _ _) rfl
    · simp [State.move, State.setThread, Thread.goto, hpc, Pc.locks]
  · exact h.release' hon hs
      (.turn hi (fun _ => rfl) (fun _ => rfl) (fun _ => rfl) (.answer hi (-1)))
      (by rw [hpc]; exact .refl _) (by rw [hpc]; rfl)

theorem forkPid (h : Core s) (hon : (s.cpu c).on = some p) {e : Env} {i : Slot}
    (hpc : (s.thread p).pc = .forkPid i)
    (hs : s.procStep c p e (.forkPid i) = some s') : After c s s' := by
  have hi := h.idle p
  have hst := h.status c p hon
  rw [hpc] at hst
  simp only [State.procStep] at hs
  cases hs
  have hsame : ∀ q, ((s.allocpid i).proc q).state = (s.proc q).state := by
    intro q
    by_cases hq : q = i
    · subst hq
      simp [State.allocpid, State.setProc]
    · simp [State.allocpid, State.setProc, hq]
  refine h.plain hon rfl ?_ ?_ ?_ ?_ rfl ?_
  · simpa [State.move, State.setThread, Thread.goto, State.allocpid, State.setProc] using hi
  · refine (hsame p).trans (hst.trans ?_)
    simp [State.move, State.setThread, Thread.goto, Pc.status]
  · intro j hj
    have hij : i = j := by simpa [State.move, State.setThread, Thread.goto, Pc.spare] using hj
    subst hij
    exact (hsame i).trans (h.spare c p i hon (by rw [hpc]; rfl))
  · intro q hq
    exact .same (update_of_ne hq _ _) (hsame q)
  · simp [State.move, State.setThread, Thread.goto, hpc, Pc.locks]

theorem forkMake (h : Core s) (hon : (s.cpu c).on = some p) {e : Env} {i : Slot}
    (hpc : (s.thread p).pc = .forkMake i)
    (hs : s.procStep c p e (.forkMake i) = some s') : After c s s' := by
  have hi := h.idle p
  have hst := h.status c p hon
  rw [hpc] at hst
  simp only [State.procStep] at hs
  have hu : (s.proc i).state = .unused := h.spare c p i hon (by rw [hpc]; rfl)
  have hl : s.lock i = some c := h.lock_eq hon (by simp [hpc, Pc.locks])
  have hip : p ≠ i := by
    intro hip
    rw [hip, hu] at hst
    cases hst
  split_ifs at hs
  · exact h.release' hon hs (.answer hi (-1)) (by rw [hpc]; exact .refl _) (by rw [hpc]; rfl)
  · refine h.releaseEntry hon hs (.answer hi (-1)) (by rw [hpc]; exact .refl _) (by rw [hpc]; rfl)
      ?_ ?_
    · intro h
      exact absurd h.symm hip
    · exact .same rfl (by simp [State.setProc, Proc.zero, hu])
  · refine h.release hon hs rfl rfl (update_of_ne hip _ _) (.answer hi _)
      (by rw [hpc]; exact .refl _) ?_ ?_
    · simpa [State.forkMake, State.setThread, State.setProc, hip, Pc.status] using hst
    · intro q hq
      by_cases hqi : q = i
      · subst hqi
        refine .make ?_ hl hu ?_
        · simp [State.forkMake, State.setThread]
        · simp [State.forkMake, State.setThread, State.setProc]
      · refine .same ?_ ?_
        · simp [State.forkMake, State.setThread, State.setProc, hqi]
        · simp [State.forkMake, State.setThread, State.setProc, hqi]

theorem exitZombie (h : Core s) (hon : (s.cpu c).on = some p) {e : Env} {st : Int32} {op : Slot}
    (hpc : (s.thread p).pc = .exitZombie st op)
    (hs : s.procStep c p e (.exitZombie st op) = some s') : After c s s' := by
  have hi := h.idle p
  simp only [State.procStep] at hs
  obtain ⟨hmine, rfl⟩ := State.of_release hs
  have hne : p ≠ op := by
    have := h.nodup c
    rw [State.held_of_on hon, hpc] at this
    simpa [Pc.locks] using this
  have hth : ((s.exitZombie p op st).setLock op none |>.move p (.goto .exitSwtch)).thread p =
      (s.thread p).goto .exitSwtch := by
    simp [State.move, State.setThread, State.exitZombie, State.setProc, State.setLock]
  refine h.dropping hon rfl ?_ ?_ ?_ ?_ hmine rfl ?_
  · rw [hth]
    exact hi
  · rw [hth]
    simp [State.move, State.setThread, State.exitZombie, State.setProc, State.setLock, Thread.goto,
      Pc.status]
  · simp [hth, Thread.goto, Pc.spare]
  · intro q hq
    have hthq : ((s.exitZombie p op st).setLock op none |>.move p (.goto .exitSwtch)).thread q =
        s.thread q := update_of_ne hq _ _
    by_cases hqo : q = op
    · subst hqo
      refine .of_wakeup (.proc q) hthq hmine ?_
      simp [State.move, State.setThread, State.exitZombie, State.setProc, State.setLock, hq]
    · refine .same hthq ?_
      simp [State.move, State.setThread, State.exitZombie, State.setProc, State.setLock, hq, hqo]
  · rw [hth, hpc]
    exact .swap _ _ _

theorem waitTest (h : Core s) (hon : (s.cpu c).on = some p) {e : Env} {i : Slot}
    (hpc : (s.thread p).pc = .waitTest i)
    (hs : s.procStep c p e (.waitTest i) = some s') : After c s s' := by
  have hi := h.idle p
  have hst := h.status c p hon
  rw [hpc] at hst
  simp only [State.procStep] at hs
  split_ifs at hs with hz
  · exact h.release' hon hs (.goto hi rfl rfl rfl) (by rw [hpc]; exact .refl _) (by rw [hpc]; rfl)
  · have hip : p ≠ i := by
      intro hip
      rw [hip, hz] at hst
      cases hst
    refine h.release hon hs rfl rfl rfl (.goto hi rfl rfl rfl) (by rw [hpc]; exact .refl _) ?_ ?_
    · simpa [State.reap, State.setProc, hip, Pc.status] using hst
    · intro q hq
      by_cases hqi : q = i
      · subst hqi
        exact .free rfl (h.lock_eq hon (by simp [hpc, Pc.locks])) hz
          (by simp [State.reap, State.setProc, Proc.zero])
      · exact .same rfl (by simp [State.reap, State.setProc, hqi])
  · exact h.release' hon hs
      (.turn hi (fun _ => rfl) (fun _ => rfl) (fun _ => rfl) (.goto hi rfl rfl rfl))
      (by rw [hpc]; exact .refl _) (by rw [hpc]; rfl)

theorem procStep (h : Core s) (hon : (s.cpu c).on = some p) {e : Env}
    (hs : s.procStep c p e (s.thread p).pc = some s') : After c s s' := by
  have hi := h.idle p
  have hst := h.status c p hon
  have hlock : ∀ l, l ∈ (s.thread p).pc.locks p → s.lock l = some c := fun l => h.lock_eq hon
  cases hpc : (s.thread p).pc <;> rw [hpc] at hs hst <;> simp only [State.procStep] at hs
  case run | exitDead => cases hs
  case forkret | yieldBack =>
    exact h.release' hon hs (.leave hi) (by rw [hpc]; exact .refl _) (by rw [hpc]; rfl)
  case yieldLock | sleepLock | wakeLock | killLock | forkLock | exitInitLock | exitSelfLock |
      exitParentLock | exitLock | exitChildLock | waitLock | waitChildLock =>
    exact h.acquire hon hs (by rw [hpc]; rfl) (by rw [hpc]; rfl) rfl
  case yieldSwtch | sleepSwtch | waitSwtch => exact h.sched hon hs (.inr trivial)
  case exitSwtch => exact h.sched hon hs (.inl (by rw [hpc]; rfl))
  case yieldSet | sleepSet | waitBack =>
    cases hs
    exact h.setSelf hon (by rw [hpc]; rfl) (by first | rfl | exact hst) rfl
  case sleepBack =>
    refine h.releaseEntry hon hs (.leave hi) (by rw [hpc]; exact .refl _) (by rw [hpc]; rfl) ?_ ?_
    · intro _ hr
      exact hr
    · exact .same rfl (by simp [State.setProc])
  case wakeTest a i =>
    refine h.releaseEntry hon hs (.turn hi (fun _ => rfl) (fun _ => rfl) (fun _ => rfl) (.leave hi))
      (by rw [hpc]; exact .refl _) (by rw [hpc]; rfl) ?_ ?_
    · intro hip
      rw [hip]
      exact Proc.wakeup_running
    · exact .of_wakeup (.other a) rfl (hlock i (by simp [hpc, Pc.locks])) (update_self _ _ _)
  case exitInitWake st =>
    refine h.releaseEntry hon hs (.goto hi rfl rfl rfl) (by rw [hpc]; exact .refl _)
      (by rw [hpc]; rfl) ?_ ?_
    · intro hip
      rw [hip]
      exact Proc.wakeup_running
    · exact .of_wakeup (.proc initproc) rfl (hlock initproc (by simp [hpc, Pc.locks]))
        (by simp [State.setProc])
  case killTest pid i =>
    split_ifs at hs
    · refine h.releaseEntry hon hs (.answer hi 0) (by rw [hpc]; exact .refl _) (by rw [hpc]; rfl) ?_ ?_
      · intro hip
        rw [hip]
        exact Proc.kill_running
      · exact .of_kill rfl (hlock i (by simp [hpc, Pc.locks])) (update_self _ _ _)
    · exact h.release' hon hs
        (.turn hi (fun _ => rfl) (fun _ => rfl) (fun _ => rfl) (.answer hi (-1)))
        (by rw [hpc]; exact .refl _) (by rw [hpc]; rfl)
  case forkTest => exact h.forkTest (e := e) hon hpc hs
  case forkPid => exact h.forkPid (e := e) hon hpc hs
  case forkMake => exact h.forkMake (e := e) hon hpc hs
  case exitParent st =>
    split at hs
    · exact h.release' hon hs (.goto hi rfl rfl rfl) (by rw [hpc]; exact .refl _) (by rw [hpc]; rfl)
    · cases hs
  case exitReparent | waitScan =>
    split_ifs at hs
    · cases hs
      exact h.goto hon (.goto hi rfl rfl rfl) (by rw [hpc]; rfl) (by rw [hpc]; rfl)
    · cases hs
      exact h.goto hon
        (.turn hi (fun _ => rfl) (fun _ => rfl) (fun _ => rfl) (.goto hi rfl rfl rfl))
        (by rw [hpc]; rfl) (by rw [hpc]; rfl)
  case exitChildSet st op i =>
    refine h.releaseEntry hon hs
      (.turn hi (fun _ => rfl) (fun _ => rfl) (fun _ => rfl) (.goto hi rfl rfl rfl))
      (by rw [hpc]; exact .refl _) (by rw [hpc]; rfl) ?_ ?_
    · intro hip
      rw [hip]
      exact fun hr => hr
    · exact .same rfl (by simp [State.setProc])
  case exitZombie => exact h.exitZombie (e := e) hon hpc hs
  case waitTest => exact h.waitTest (e := e) hon hpc hs
  case waitReturn v =>
    exact h.release' hon hs (.answer hi v) (by rw [hpc]; exact .refl _) (by rw [hpc]; rfl)
  case waitEnd hk =>
    split_ifs at hs
    · exact h.release' hon hs (.answer hi (-1)) (by rw [hpc]; exact .refl _) (by rw [hpc]; rfl)
    · cases hs
      exact h.setSelf hon (by rw [hpc]; rfl) rfl rfl

omit [DecidableEq A] in
theorem call (h : Core s) (hon : (s.cpu c).on = some p) (hpc : (s.thread p).pc = .run) {k : Call A}
    (hs : s.call p k = some s') : After c s s' := by
  have hl : (s.thread p).pc.locks p = [] := by rw [hpc]; rfl
  have hr : (s.thread p).pc.status = .running := by rw [hpc]; rfl
  cases k with
  | fork | wait | kill | sleep | wakeup | yield =>
    cases hs
    exact h.goto hon (.goto (h.idle p) rfl rfl rfl) hl hr
  | exit st =>
    simp only [State.call] at hs
    split_ifs at hs
    cases hs
    exact h.goto hon (.goto (h.idle p) rfl rfl rfl) hl hr
  | fault =>
    cases hs
    refine h.plain hon rfl (h.idle p) ?_ ?_ ?_ rfl rfl
    · simpa [State.setProc] using h.status c p hon
    · intro i hi
      change (s.thread p).pc.spare = some i at hi
      simp [hpc, Pc.spare] at hi
    · intro q hq
      exact .same rfl (by simp [State.setProc, hq])

omit [DecidableEq A] in
theorem interrupt (h : Core s) (hon : (s.cpu c).on = some p) (hfree : Free s c) {pc : Pc A}
    (hl : pc.locks p = []) : After c s (s.move p (.interrupt pc)) := by
  have hno : (s.thread p).pc.locks p = [] := by
    rw [List.eq_nil_iff_forall_not_mem]
    intro l hl
    exact hfree l (h.lock_eq hon hl)
  refine h.goto hon ⟨hl, Pc.status_of_locks hl, Pc.spare_of_locks hl, ?_⟩ hno
    (Pc.status_of_locks hno)
  intro f hf
  rcases List.mem_cons.1 hf with hf | hf
  · rw [hf]
    exact hno
  · exact h.idle p f hf

end Core

def Act.cpu : Act C A → C
  | .run c _ | .call c _ | .tick c | .device c _ => c

/-- **What a step is**: a step of the process or of the scheduler on the CPU, a call, or an interrupt, which
finds a
process there or the scheduler at the top of its loop. -/
inductive Stepped (s : State C A) : Act C A → State C A → Prop
  | proc {c : C} {e : Env} {p : Slot} {s' : State C A} (hon : (s.cpu c).on = some p)
      (hs : s.procStep c p e (s.thread p).pc = some s') : Stepped s (.run c e) s'
  | sched {c : C} {e : Env} {s' : State C A} (hon : (s.cpu c).on = none)
      (hs : s.schedStep c (s.cpu c).pc = some s') : Stepped s (.run c e) s'
  | call {c : C} {k : Call A} {p : Slot} {s' : State C A} (hon : (s.cpu c).on = some p)
      (hpc : (s.thread p).pc = .run) (hs : s.call p k = some s') : Stepped s (.call c k) s'
  | interrupt {a : Act C A} {p : Slot} {pc : Pc A} (hon : (s.cpu a.cpu).on = some p) (hf : Free s a.cpu)
      (hpc : pc = .yieldLock ∨ ∃ d, pc = .wakeLock d 0) : Stepped s a (s.move p (.interrupt pc))
  | device {c : C} {d : A} (hon : (s.cpu c).on = none) (hpc : (s.cpu c).pc = .lock 0) :
      Stepped s (.device c d) (s.setCpu c { s.cpu c with pc := .wakeLock d 0 })

theorem stepped {s s' : State C A} {a : Act C A} (hs : Sched.step s a = some s') : Stepped s a s' := by
  cases a with
  | run c e =>
    simp only [Sched.step] at hs
    cases hon : (s.cpu c).on with
    | some p => exact .proc hon (by rwa [hon] at hs)
    | none => exact .sched hon (by rwa [hon] at hs)
  | call c k =>
    simp only [Sched.step] at hs
    cases hon : (s.cpu c).on with
    | some p =>
      simp only [hon] at hs
      split_ifs at hs with hpc
      exact .call hon hpc hs
    | none =>
      rw [hon] at hs
      cases hs
  | tick c =>
    simp only [Sched.step] at hs
    cases hon : (s.cpu c).on with
    | some p =>
      simp only [hon] at hs
      split_ifs at hs with hf
      cases hs
      exact .interrupt hon hf.1 (.inl rfl)
    | none =>
      rw [hon] at hs
      cases hs
  | device c d =>
    simp only [Sched.step] at hs
    cases hon : (s.cpu c).on with
    | some p =>
      simp only [hon] at hs
      split_ifs at hs with hf
      cases hs
      exact .interrupt hon hf (.inr ⟨d, rfl⟩)
    | none =>
      rw [hon] at hs
      simp only at hs
      split_ifs at hs with hpc
      cases hs
      rw [← hon]
      exact .device hon hpc

theorem Core.step {s s' : State C A} {a : Act C A} (h : Core s) (hs : Sched.step s a = some s') :
    After a.cpu s s' := by
  cases stepped hs with
  | proc hon hs => exact h.procStep hon hs
  | sched hon hs => exact h.schedStep hon hs
  | call hon hpc hs => exact h.call hon hpc hs
  | interrupt hon hf hpc =>
    refine h.interrupt hon hf ?_
    rcases hpc with rfl | ⟨d, rfl⟩ <;> rfl
  | @device c d hon hpc =>
    have hno := h.proc c
    rw [hpc] at hno
    refine h.scheduler hon rfl hon rfl ?_ (fun _ _ _ => Iff.rfl) hno ?_ (by simp) fun q => .same rfl rfl
    · intro l
      have := h.held c l
      rwa [State.held_of_sched hon, hpc] at this
    · intro q c' hq
      cases hno.symm.trans hq

omit [DecidableEq C] [DecidableEq A] in
theorem Core.init : Core (State.init : State C A) where
  held := by intro c l; simp [State.init, State.held, SchedPc.locks]
  nodup := by intro c; simp [State.init, State.held, SchedPc.locks]
  back := by intro c p h; simp [State.init] at h
  proc := by intro c; rfl
  busy := by intro c p h; simp [State.init] at h
  uniq := by intro c c' p h; simp [State.init] at h
  status := by intro c p h; simp [State.init] at h
  swtch := by intro c p h; simp [State.init] at h
  parked := by intro p _ _ _; exact trivial
  idle := by intro p; simp [State.init, Thread.fresh]
  spare := by intro c p i h; simp [State.init] at h

theorem Core.of_reach {s : State C A} {ok : State C A → Act C A → Prop}
    (h : Reach Sched.step ok (State.init : State C A) s) : Core s :=
  h.inv Core.init fun _ _ _ hc _ hs => (hc.step hs).core

/-! ## One CPU for each context -/

def Switches (s s' : State C A) (c : C) (p : Slot) : Prop :=
  (s.cpu c).on ≠ some p ∧ (s'.cpu c).on = some p

def Frees (s s' : State C A) (p : Slot) : Prop :=
  (s.proc p).state = .zombie ∧ (s'.proc p).state = .unused

/-- **`myproc()`**: in every reachable state the process on whose kernel stack a CPU executes is its
`c->proc`. -/
theorem myproc_eq {s : State C A} {ok : State C A → Act C A → Prop}
    (h : Reach step ok (State.init : State C A) s) {c : C} {p : Slot} (hon : (s.cpu c).on = some p) :
    (s.cpu c).proc = some p :=
  (Core.of_reach h).myproc hon

/-- **One CPU for each process context.** A process is `c->proc` of at most one CPU; a CPU switches to
a process only when no CPU executes on its kernel stack; a zombie is freed only then, too. -/
theorem one_cpu_per_context {s : State C A} (h : Reach step any (State.init : State C A) s) :
    (∀ c c' p, (s.cpu c).proc = some p → (s.cpu c').proc = some p → c = c') ∧
    ∀ a s', step s a = some s' →
      (∀ c p, Switches s s' c p → ∀ c', (s.cpu c').on ≠ some p) ∧
      ∀ p, Frees s s' p → ∀ c, (s.cpu c).on ≠ some p := by
  have hc := Core.of_reach h
  refine ⟨hc.uniq, fun a s' hs => ⟨?_, ?_⟩⟩
  · intro c p hsw
    rcases (hc.step hs).on c p hsw.2 with hon | hon
    · exact absurd hon hsw.1
    · exact hc.parked_of_swtch hon.2
  · intro p hfr c hon
    have ha := hc.step hs
    by_cases hself : (s.cpu a.cpu).on = some p
    · exact ha.self p hself hfr.2
    · cases ha.touched p hself with
      | same _ hst => simp [hfr.1, hfr.2] at hst
      | pick _ _ hst => simp [hfr.1] at hst
      | wake _ _ hst => simp [hfr.1] at hst
      | make _ _ hst => simp [hfr.1] at hst
      | free _ hl hst => exact hc.parked_of_lock hl hself (by simp [hst]) c hon

/-- `n` steps of CPU `c`, in which no copy and no allocation fails. -/
def steps {A : Type} (c : Fin 2) (n : ℕ) : List (Act (Fin 2) A) := List.replicate n (.run c ⟨true, true⟩)

/-- `initproc` runs on CPU `0` and forks; the child runs on CPU `1` and exits with status `7`; then
`initproc` waits. -/
def forkExitWait : List (Act (Fin 2) Unit) :=
  steps 0 4 ++ [.call 0 .fork] ++ steps 0 6 ++ steps 1 6 ++ [.call 1 (.exit 7)] ++ steps 1 19 ++
    [.call 0 .wait] ++ steps 0 6

theorem one_cpu_per_context_wait :
    ∃ s s' : State (Fin 2) Unit, Reach step any State.init s ∧
      step s (.run 0 ⟨true, true⟩) = some s' ∧ Frees s s' 1 ∧ ∀ c, (s.cpu c).on ≠ some 1 := by
  have hrun : (exec step (State.init : State (Fin 2) Unit) (forkExitWait.take 42)).any
      (fun s => (step s (.run 0 ⟨true, true⟩)).any fun s' => decide
        ((s.proc 1).state = .zombie ∧ (s'.proc 1).state = .unused)) = true := by
    decide +kernel
  obtain ⟨s, hs, h⟩ := Reach.of_exec_any (fun _ _ _ => trivial) hrun
  obtain ⟨s', hs', h⟩ := (Option.any_eq_true _ _).1 h
  have hfrees : Frees s s' 1 := by simpa [Frees] using h
  exact ⟨s, s', hs, hs', hfrees, ((one_cpu_per_context hs).2 _ s' hs').2 1 hfrees⟩

end Xv6.Sched
