import Xv6.Sched.Machine

/-!
# One CPU for each process

* `Pc.locks`, `SchedPc.locks`: the process locks a thread holds at each point; `Pc.status`: the state
  of the process that executes there.
* `Core`: locks are held by the CPU whose thread has taken them, a process is `c->proc` of one CPU at
  most, and a process that is not executing would go on right after its `swtch`.
* `Touched`, `After`: what a step may do to the processes that do not execute it.
* `Core.process`, `Core.sched`, `Core.scheduler`, `Core.switch`: the invariant after a step of a process,
  after its `swtch`, after a step of a scheduler and after its `swtch`.
-/

namespace Xv6.Sched

open Runs
open Function (update update_of_ne update_self)

variable {C A : Type} [DecidableEq C]

/-! ## What a thread holds -/

/-- The locks the thread of `p` holds when it executes at a point. -/
def Pc.locks (p : Slot) : Pc A → List Slot
  | .run | .yieldLock | .sleepLock _ | .wakeLock _ _ | .killLock _ _ | .forkLock _ => []
  | .exitInitLock _ | .exitSelfLock _ | .exitParentLock _ _ | .waitLock => []
  | .forkret | .yieldSet | .yieldSwtch | .yieldBack | .sleepSet _ | .sleepSwtch | .sleepBack => [p]
  | .wakeTest _ i | .killTest _ i | .forkTest i | .forkPid i | .forkMake i => [i]
  | .exitInitWake _ => [initproc]
  | .exitParent _ | .exitSwtch | .exitDead => [p]
  | .exitLock _ op => [op]
  | .exitReparent _ op _ | .exitChildLock _ op _ | .exitZombie _ op => [p, op]
  | .exitChildSet _ op i => [i, p, op]
  | .waitScan _ _ | .waitChildLock _ _ | .waitReturn _ | .waitEnd _ | .waitSwtch | .waitBack => [p]
  | .waitTest i => [i, p]

/-- The state of a process that executes at a point: it changes before the stack is left. -/
def Pc.status : Pc A → PState
  | .yieldSwtch => .runnable
  | .sleepSwtch | .waitSwtch => .sleeping
  | .exitSwtch | .exitDead => .zombie
  | _ => .running

def Pc.spare : Pc A → Option Slot
  | .forkPid i | .forkMake i => some i
  | _ => none

/-- The points right after a `swtch`, where a process goes on. -/
def Pc.Resumes : Pc A → Prop
  | .forkret | .yieldBack | .sleepBack | .waitBack => True
  | _ => False

def SchedPc.locks : SchedPc A → List Slot
  | .lock _ | .wakeLock _ _ => []
  | .test i | .swtch i | .back i | .wakeTest _ i => [i]

/-- What `c->proc` is at a point of the scheduler. -/
def SchedPc.proc : SchedPc A → Option Slot
  | .swtch i | .back i => some i
  | _ => none

theorem SchedPc.locks_nodup (pc : SchedPc A) : pc.locks.Nodup := by
  cases pc <;> simp [SchedPc.locks]

theorem SchedPc.mem_locks_of_proc {pc : SchedPc A} {p : Slot} (h : pc.proc = some p) :
    p ∈ pc.locks := by
  cases pc <;> simp_all [SchedPc.proc, SchedPc.locks]

theorem Pc.status_running_or_mem (p : Slot) (pc : Pc A) : pc.status = .running ∨ p ∈ pc.locks p := by
  cases pc <;> simp [status, locks]

theorem Pc.status_of_locks {p : Slot} {pc : Pc A} (h : pc.locks p = []) : pc.status = .running :=
  (pc.status_running_or_mem p).resolve_right (by simp [h])

theorem Pc.spare_mem {p i : Slot} {pc : Pc A} (h : pc.spare = some i) : i ∈ pc.locks p := by
  cases pc <;> simp_all [spare, locks]

theorem Pc.spare_of_locks {p : Slot} {pc : Pc A} (h : pc.locks p = []) : pc.spare = none := by
  cases pc <;> simp_all [spare, locks]

theorem Pc.Resumes.spare {pc : Pc A} (h : pc.Resumes) : pc.spare = none := by
  cases pc <;> simp_all [Pc.Resumes, Pc.spare]

theorem Pc.status_ne_unused (pc : Pc A) : pc.status ≠ .unused := by
  cases pc <;> simp [status]

theorem Pc.Resumes.locks {p : Slot} {pc : Pc A} (h : pc.Resumes) : pc.locks p = [p] := by
  cases pc <;> simp_all [Pc.Resumes, Pc.locks]

theorem Pc.Resumes.status {pc : Pc A} (h : pc.Resumes) : pc.status = .running := by
  cases pc <;> simp_all [Pc.Resumes, Pc.status]

def State.held (s : State C A) (c : C) : List Slot :=
  match (s.cpu c).on with
  | some p => (s.thread p).pc.locks p
  | none => (s.cpu c).pc.locks

section

omit [DecidableEq C]

theorem State.held_of_on {s : State C A} {c : C} {p : Slot} (h : (s.cpu c).on = some p) :
    s.held c = (s.thread p).pc.locks p := by
  rw [held, h]

theorem State.held_of_sched {s : State C A} {c : C} (h : (s.cpu c).on = none) :
    s.held c = (s.cpu c).pc.locks := by
  rw [held, h]

end

theorem Proc.wakeup_running [DecidableEq A] {v : Proc A} {ch : Chan A} (h : v.state = .running) :
    (v.wakeup ch).state = .running := by
  simp [wakeup, h]

theorem Proc.kill_running {v : Proc A} (h : v.state = .running) : v.kill.state = .running := by
  simp [kill, h]

omit [DecidableEq C] in
theorem State.of_acquire {s s' : State C A} {c : C} {l : Slot} {f : State C A → State C A}
    (h : (s.acquire c l).map f = some s') : s.lock l = none ∧ s' = f (s.setLock l (some c)) := by
  unfold acquire at h
  split_ifs at h with hl
  · exact ⟨hl, (Option.some.inj h).symm⟩
  · cases h

theorem State.of_release {s s' : State C A} {c : C} {l : Slot} {f : State C A → State C A}
    (h : (s.release c l).map f = some s') : s.lock l = some c ∧ s' = f (s.setLock l none) := by
  unfold release at h
  split_ifs at h with hl
  · exact ⟨hl, (Option.some.inj h).symm⟩
  · cases h

theorem State.of_sched {s s' : State C A} {c : C} {p : Slot} {pc : Pc A}
    (h : s.sched c p pc = some s') : s.lock p = some c ∧ (∀ l, s.lock l = some c → l = p) ∧
      s' = (s.move p (.goto pc)).setCpu c { s.cpu c with on := none } := by
  unfold sched at h
  split_ifs at h with hl
  exact ⟨hl.1, hl.2.1, (Option.some.inj h).symm⟩

def State.Parked (s : State C A) (p : Slot) : Prop := ∀ c, (s.cpu c).on ≠ some p

/-! ## The invariant -/

/-- **Locks, states and CPUs fit together.** -/
structure Core (s : State C A) : Prop where
  held : ∀ c l, s.lock l = some c ↔ l ∈ s.held c
  nodup : ∀ c, (s.held c).Nodup
  back : ∀ c p, (s.cpu c).on = some p → (s.cpu c).pc = .back p
  proc : ∀ c, (s.cpu c).proc = (s.cpu c).pc.proc
  busy : ∀ c p, (s.cpu c).proc = some p → (s.proc p).state = .running ∨ s.lock p = some c
  uniq : ∀ c c' p, (s.cpu c).proc = some p → (s.cpu c').proc = some p → c = c'
  status : ∀ c p, (s.cpu c).on = some p → (s.proc p).state = (s.thread p).pc.status
  swtch : ∀ c p, (s.cpu c).pc = .swtch p → (s.proc p).state = .running
  parked : ∀ p, s.Parked p → (s.proc p).state ≠ .unused → (s.proc p).state ≠ .zombie →
    (s.thread p).pc.Resumes
  idle : ∀ p, ∀ f ∈ (s.thread p).frames, f.locks p = []
  spare : ∀ c p i, (s.cpu c).on = some p → (s.thread p).pc.spare = some i →
    (s.proc i).state = .unused

namespace Core

variable {s s' : State C A} {c : C} {p : Slot}

section

omit [DecidableEq C]

/-- **`myproc()`**: the process on whose stack a CPU executes is its `c->proc`. -/
theorem myproc (h : Core s) (hon : (s.cpu c).on = some p) : (s.cpu c).proc = some p := by
  rw [h.proc, h.back c p hon]
  rfl

theorem on_inj (h : Core s) {c' : C} (hon : (s.cpu c).on = some p) (hon' : (s.cpu c').on = some p) :
    c = c' :=
  h.uniq c c' p (h.myproc hon) (h.myproc hon')

theorem lock_eq (h : Core s) (hon : (s.cpu c).on = some p) {l : Slot}
    (hl : l ∈ (s.thread p).pc.locks p) : s.lock l = some c := by
  rw [h.held, State.held_of_on hon]
  exact hl

end

omit [DecidableEq C] in
/-- **A process whose state is neither `RUNNING` nor set by itself under its lock does not execute.** -/
theorem parked_of_lock (h : Core s) (hl : s.lock p = some c) (hon : (s.cpu c).on ≠ some p)
    (hs : (s.proc p).state ≠ .running) : s.Parked p := by
  intro c' hc'
  have hst := h.status c' p hc'
  rcases (s.thread p).pc.status_running_or_mem p with hr | hm
  · exact hs (hst.trans hr)
  · have := h.lock_eq hc' hm
    rw [hl] at this
    cases this
    exact hon hc'

end Core

/-! ## Steps of a process -/

/-- What a step on CPU `c` that is not one of `q` itself may do to process `q`. -/
inductive Touched (s s' : State C A) (c : C) (q : Slot) : Prop
  | same (ht : s'.thread q = s.thread q) (hs : (s'.proc q).state = (s.proc q).state)
  | pick (ht : s'.thread q = s.thread q) (hl : s.lock q = some c)
      (hs : (s.proc q).state = .runnable) (hs' : (s'.proc q).state = .running)
  | wake (ht : s'.thread q = s.thread q) (hl : s.lock q = some c)
      (hs : (s.proc q).state = .sleeping) (hs' : (s'.proc q).state = .runnable)
  | free (ht : s'.thread q = s.thread q) (hl : s.lock q = some c)
      (hs : (s.proc q).state = .zombie) (hs' : (s'.proc q).state = .unused)
  | make (ht : s'.thread q = .fresh) (hl : s.lock q = some c)
      (hs : (s.proc q).state = .unused) (hs' : (s'.proc q).state = .runnable)

namespace Touched

variable {s s' : State C A} {c : C} {q : Slot}

section

omit [DecidableEq C]

theorem running (h : Touched s s' c q) (hs : (s.proc q).state = .running) :
    (s'.proc q).state = .running := by
  cases h with
  | same ht h => exact h.trans hs
  | pick _ _ _ h => exact h
  | wake _ _ h => simp [hs] at h
  | free _ _ h => simp [hs] at h
  | make _ _ h => simp [hs] at h

theorem of_wakeup [DecidableEq A] (ch : Chan A) (ht : s'.thread q = s.thread q) (hl : s.lock q = some c)
    (hp : s'.proc q = (s.proc q).wakeup ch) : Touched s s' c q := by
  unfold Proc.wakeup at hp
  split_ifs at hp with hw
  · exact .wake ht hl hw.1 (by rw [hp])
  · exact .same ht (by rw [hp])

theorem of_kill (ht : s'.thread q = s.thread q) (hl : s.lock q = some c)
    (hp : s'.proc q = (s.proc q).kill) : Touched s s' c q := by
  by_cases hs : (s.proc q).state = .sleeping
  · exact .wake ht hl hs (by simp [hp, Proc.kill, hs])
  · exact .same ht (by simp [hp, Proc.kill, hs])

theorem executing (h : Touched s s' c q) (hc : Core s) {c' : C} (hne : c' ≠ c)
    (hon : (s.cpu c').on = some q) :
    s'.thread q = s.thread q ∧ (s'.proc q).state = (s.proc q).state := by
  -- a change needs the lock of `q` in the hands of `c` and a state other than `RUNNING`
  have habs : s.lock q = some c → (s.proc q).state ≠ .running → False := by
    intro hl hs
    refine hc.parked_of_lock hl ?_ hs c' hon
    intro hon'
    exact hne (hc.on_inj hon hon')
  cases h with
  | same ht hs => exact ⟨ht, hs⟩
  | pick _ hl hs => exact (habs hl (by simp [hs])).elim
  | wake _ hl hs => exact (habs hl (by simp [hs])).elim
  | free _ hl hs => exact (habs hl (by simp [hs])).elim
  | make _ hl hs => exact (habs hl (by simp [hs])).elim

end

section

omit [DecidableEq C]

theorem unused (h : Touched s s' c q) (hs : (s.proc q).state = .unused) {c' : C} (hne : c' ≠ c)
    (hl' : s.lock q = some c') : (s'.proc q).state = .unused := by
  cases h with
  | same ht h => exact h.trans hs
  | pick _ _ h => simp [hs] at h
  | wake _ _ h => simp [hs] at h
  | free _ _ h => simp [hs] at h
  | make _ hl => exact absurd (Option.some.inj (hl'.symm.trans hl)) hne

theorem resumes (h : Touched s s' c q) (hc : Core s) (hpark : s.Parked q)
    (hu : (s'.proc q).state ≠ .unused) (hz : (s'.proc q).state ≠ .zombie) :
    (s'.thread q).pc.Resumes := by
  cases h with
  | same ht hs =>
    rw [ht]
    exact hc.parked q hpark (hs ▸ hu) (hs ▸ hz)
  | pick ht hl hs hs' | wake ht hl hs hs' =>
    rw [ht]
    exact hc.parked q hpark (by simp [hs]) (by simp [hs])
  | free ht hl hs hs' => exact absurd hs' hu
  | make ht hl hs hs' =>
    rw [ht]
    exact trivial

theorem idle (h : Touched s s' c q) (hc : Core s) : ∀ f ∈ (s'.thread q).frames, f.locks q = [] := by
  cases h with
  | same ht | pick ht | wake ht | free ht => exact ht ▸ hc.idle q
  | make ht =>
    rw [ht]
    simp [Thread.fresh]

end

end Touched

/-- **State `s'` follows `s` by a step on CPU `c`.** A CPU gets onto a stack only by the `swtch` of its
scheduler. -/
structure After (c : C) (s s' : State C A) : Prop where
  core : Core s'
  on : ∀ c' q, (s'.cpu c').on = some q →
    (s.cpu c').on = some q ∨ (c' = c ∧ (s.cpu c).pc = .swtch q)
  touched : ∀ q, (s.cpu c).on ≠ some q → Touched s s' c q
  self : ∀ q, (s.cpu c).on = some q → (s'.proc q).state ≠ .unused

namespace Core

variable {s s' : State C A} {c : C} {p : Slot}

theorem process (h : Core s) (hon : (s.cpu c).on = some p) (hcpu : s'.cpu = s.cpu)
    (hheld : ∀ l, s'.lock l = some c ↔ l ∈ (s'.thread p).pc.locks p)
    (hlock : ∀ l c', c' ≠ c → (s'.lock l = some c' ↔ s.lock l = some c'))
    (hnodup : ((s'.thread p).pc.locks p).Nodup)
    (hidle : ∀ f ∈ (s'.thread p).frames, f.locks p = [])
    (hstatus : (s'.proc p).state = (s'.thread p).pc.status)
    (hspare : ∀ i, (s'.thread p).pc.spare = some i → (s'.proc i).state = .unused)
    (htouch : ∀ q, q ≠ p → Touched s s' c q) : After c s s' := by
  have hne : ∀ c' q, c' ≠ c → (s.cpu c').on = some q → q ≠ p := by
    intro c' q hc' hq hqp
    subst hqp
    exact hc' (h.on_inj hq hon)
  have hproc : ∀ c', (s.cpu c').proc = some p → c' = c := fun c' hc' =>
    h.uniq c' c p hc' (h.myproc hon)
  have hheld' : ∀ c', c' ≠ c → s'.held c' = s.held c' := by
    intro c' hc'
    simp only [State.held, hcpu]
    cases hq : (s.cpu c').on with
    | none => rfl
    | some q => simp only [((htouch q (hne c' q hc' hq)).executing h hc' hq).1]
  have hon' : (s'.cpu c).on = some p := by rw [hcpu, hon]
  refine ⟨?_, fun c' q hq => .inl (hcpu ▸ hq), fun q hq => htouch q ?_, fun q hq => ?_⟩
  rotate_left
  · intro hqp
    exact hq (hqp ▸ hon)
  · rw [hon] at hq
    cases hq
    rw [hstatus]
    exact Pc.status_ne_unused _
  constructor
  · intro c' l
    by_cases hc' : c' = c
    · subst hc'
      rw [hheld, State.held_of_on hon']
    · rw [hlock l c' hc', hheld' c' hc', h.held]
  · intro c'
    by_cases hc' : c' = c
    · subst hc'
      rwa [State.held_of_on hon']
    · rw [hheld' c' hc']
      exact h.nodup c'
  · rw [hcpu]
    exact h.back
  · rw [hcpu]
    exact h.proc
  · intro c' q hq
    rw [hcpu] at hq
    by_cases hqp : q = p
    · subst hqp
      rw [hproc c' hq, hheld, hstatus]
      exact Pc.status_running_or_mem q _
    · have hc' : c' ≠ c := by
        intro hc
        subst hc
        rw [h.myproc hon] at hq
        exact hqp (Option.some.inj hq).symm
      rw [hlock q c' hc']
      exact (h.busy c' q hq).imp_left (htouch q hqp).running
  · rw [hcpu]
    exact h.uniq
  · intro c' q hq
    rw [hcpu] at hq
    by_cases hc' : c' = c
    · subst hc'
      rw [hon] at hq
      cases hq
      exact hstatus
    · have ht := (htouch q (hne c' q hc' hq)).executing h hc' hq
      rw [ht.1, ht.2]
      exact h.status c' q hq
  · intro c' q hq
    rw [hcpu] at hq
    refine (htouch q ?_).running (h.swtch c' q hq)
    intro hqp
    subst hqp
    have hc' := hproc c' (by rw [h.proc, hq]; rfl)
    subst hc'
    rw [h.back c' q hon] at hq
    cases hq
  · intro q hq hu hz
    have hqp : q ≠ p := by
      intro hqp
      subst hqp
      exact hq c hon'
    have hpark : s.Parked q := by
      intro c' hc'
      exact hq c' (by rw [hcpu, hc'])
    exact (htouch q hqp).resumes h hpark hu hz
  · intro q
    by_cases hqp : q = p
    · subst hqp
      exact hidle
    · exact (htouch q hqp).idle h
  · intro c' q i hq hi
    rw [hcpu] at hq
    by_cases hc' : c' = c
    · subst hc'
      rw [hon] at hq
      cases hq
      exact hspare i hi
    · rw [((htouch q (hne c' q hc' hq)).executing h hc' hq).1] at hi
      have hu := h.spare c' q i hq hi
      have hip : i ≠ p := by
        intro hip
        subst hip
        rw [h.status c i hon] at hu
        exact Pc.status_ne_unused _ hu
      exact (htouch i hip).unused hu hc' (h.lock_eq hq (Pc.spare_mem hi))

section Locks

variable (h : Core s) (hon : (s.cpu c).on = some p) (hcpu : s'.cpu = s.cpu)
  (hidle : ∀ f ∈ (s'.thread p).frames, f.locks p = [])
  (hstatus : (s'.proc p).state = (s'.thread p).pc.status)
  (hspare : ∀ i, (s'.thread p).pc.spare = some i → (s'.proc i).state = .unused)
  (htouch : ∀ q, q ≠ p → Touched s s' c q)

include h hon hcpu hidle hstatus hspare htouch

theorem plain (hlock : s'.lock = s.lock)
    (hl : (s'.thread p).pc.locks p = (s.thread p).pc.locks p) : After c s s' := by
  refine h.process hon hcpu ?_ ?_ ?_ hidle hstatus hspare htouch
  · intro l
    rw [hlock, hl, h.held, State.held_of_on hon]
  · intro l c' _
    rw [hlock]
  · rw [hl, ← State.held_of_on hon]
    exact h.nodup c

theorem taking {l : Slot} (hfree : s.lock l = none) (hlock : s'.lock = update s.lock l (some c))
    (hl : (s'.thread p).pc.locks p = l :: (s.thread p).pc.locks p) : After c s s' := by
  have hmem : ∀ x, s.lock x = some c ↔ x ∈ (s.thread p).pc.locks p := by
    intro x
    rw [h.held, State.held_of_on hon]
  refine h.process hon hcpu ?_ ?_ ?_ hidle hstatus hspare htouch
  · intro x
    rw [hlock, hl, List.mem_cons, ← hmem]
    by_cases hx : x = l
    · simp [hx]
    · simp [hx]
  · intro x c' hc'
    rw [hlock]
    by_cases hx : x = l
    · subst hx
      simp [hfree, Ne.symm hc']
    · simp [hx]
  · rw [hl, List.nodup_cons, ← hmem, ← State.held_of_on hon]
    exact ⟨by simp [hfree], h.nodup c⟩

theorem dropping {l : Slot} (hmine : s.lock l = some c)
    (hlock : s'.lock = update s.lock l none)
    (hl : ((s.thread p).pc.locks p).Perm (l :: (s'.thread p).pc.locks p)) : After c s s' := by
  have hnodup : (l :: (s'.thread p).pc.locks p).Nodup := by
    rw [← hl.nodup_iff, ← State.held_of_on hon]
    exact h.nodup c
  have hmem : ∀ x, s.lock x = some c ↔ x = l ∨ x ∈ (s'.thread p).pc.locks p := by
    intro x
    rw [h.held, State.held_of_on hon, hl.mem_iff, List.mem_cons]
  rw [List.nodup_cons] at hnodup
  refine h.process hon hcpu ?_ ?_ hnodup.2 hidle hstatus hspare htouch
  · intro x
    rw [hlock]
    by_cases hx : x = l
    · subst hx
      simp [hnodup.1]
    · simp [hx, hmem]
  · intro x c' hc'
    rw [hlock]
    by_cases hx : x = l
    · subst hx
      simp [hmine, Ne.symm hc']
    · simp [hx]

end Locks

end Core

structure Lands (p : Slot) (L : List Slot) (t : Thread A) : Prop where
  locks : t.pc.locks p = L
  status : t.pc.status = .running
  spare : t.pc.spare = none
  idle : ∀ f ∈ t.frames, f.locks p = []

namespace Lands

variable {p : Slot} {L : List Slot} {t : Thread A} (hi : ∀ f ∈ t.frames, f.locks p = [])

include hi

theorem goto {pc : Pc A} (hl : pc.locks p = L) (hs : pc.status = .running) (hn : pc.spare = none) :
    Lands p L (t.goto pc) := ⟨hl, hs, hn, hi⟩

theorem leave : Lands p [] t.leave := by
  unfold Thread.leave
  cases hf : t.frames with
  | nil => exact ⟨rfl, rfl, rfl, by simp⟩
  | cons f fs =>
    rw [hf] at hi
    have hl := hi f (by simp)
    exact ⟨hl, Pc.status_of_locks hl, Pc.spare_of_locks hl, fun x hx => hi x (by simp [hx])⟩

theorem answer (v : Int32) : Lands p [] (t.answer v) := by
  have h := leave hi
  exact ⟨h.locks, h.status, h.spare, h.idle⟩

theorem turn {loop : Slot → Pc A} {done : Thread A → Thread A} {i : Slot}
    (hl : ∀ j, (loop j).locks p = L) (hs : ∀ j, (loop j).status = .running)
    (hn : ∀ j, (loop j).spare = none) (hd : Lands p L (done t)) : Lands p L (t.turn loop done i) := by
  unfold Thread.turn forward
  cases next i with
  | none => exact hd
  | some j => exact goto hi (hl j) (hs j) (hn j)

end Lands

namespace Core

variable {s s₁ s' : State C A} {c : C} {p : Slot}

theorem acquire (h : Core s) (hon : (s.cpu c).on = some p) {l : Slot} {pc' : Pc A}
    (hs : (s.acquire c l).map (·.move p (.goto pc')) = some s')
    (hl : pc'.locks p = l :: (s.thread p).pc.locks p)
    (hst : pc'.status = (s.thread p).pc.status) (hn : pc'.spare = none) : After c s s' := by
  obtain ⟨hfree, rfl⟩ := State.of_acquire hs
  refine h.taking hon rfl ?_ ?_ ?_ ?_ hfree rfl ?_
  · simpa [State.move, State.setThread, Thread.goto, State.setLock] using h.idle p
  · simpa [State.move, State.setThread, Thread.goto, State.setLock, hst] using h.status c p hon
  · simp [State.move, State.setThread, Thread.goto, hn]
  · intro q hq
    exact .same (update_of_ne hq _ _) rfl
  · simpa [State.move, State.setThread, Thread.goto, State.setLock] using hl

theorem release (h : Core s) (hon : (s.cpu c).on = some p) {l : Slot} {L : List Slot}
    {f : Thread A → Thread A} (hs : (s₁.release c l).map (·.move p f) = some s')
    (hcpu : s₁.cpu = s.cpu) (hlock : s₁.lock = s.lock) (ht : s₁.thread p = s.thread p)
    (hland : Lands p L (f (s.thread p))) (hperm : ((s.thread p).pc.locks p).Perm (l :: L))
    (hrun : (s₁.proc p).state = .running) (htouch : ∀ q, q ≠ p → Touched s s₁ c q) : After c s s' := by
  obtain ⟨hmine, rfl⟩ := State.of_release hs
  have hth : (s₁.setLock l none |>.move p f).thread p = f (s.thread p) := by
    simp [State.move, State.setThread, State.setLock, ht]
  rw [hlock] at hmine
  refine h.dropping hon hcpu ?_ ?_ ?_ ?_ hmine ?_ ?_
  · rw [hth]
    exact hland.idle
  · rw [hth, hland.status]
    exact hrun
  · simp [hth, hland.spare]
  · intro q hq
    have hq' : (s₁.setLock l none |>.move p f).thread q = s₁.thread q := update_of_ne hq _ _
    cases htouch q hq with
    | same ht hs => exact .same (hq'.trans ht) hs
    | pick ht hl hs hs' => exact .pick (hq'.trans ht) hl hs hs'
    | wake ht hl hs hs' => exact .wake (hq'.trans ht) hl hs hs'
    | free ht hl hs hs' => exact .free (hq'.trans ht) hl hs hs'
    | make ht hl hs hs' => exact .make (hq'.trans ht) hl hs hs'
  · rw [← hlock]
    rfl
  · rw [hth, hland.locks]
    exact hperm

theorem release' (h : Core s) (hon : (s.cpu c).on = some p) {l : Slot} {L : List Slot}
    {f : Thread A → Thread A} (hs : (s.release c l).map (·.move p f) = some s')
    (hland : Lands p L (f (s.thread p))) (hperm : ((s.thread p).pc.locks p).Perm (l :: L))
    (hrun : (s.thread p).pc.status = .running) : After c s s' :=
  h.release hon hs rfl rfl rfl hland hperm ((h.status c p hon).trans hrun) fun _ _ => .same rfl rfl

theorem releaseEntry (h : Core s) (hon : (s.cpu c).on = some p) {i : Slot} {w : Proc A}
    {L : List Slot} {f : Thread A → Thread A}
    (hs : ((s.setProc i w).release c i).map (·.move p f) = some s')
    (hland : Lands p L (f (s.thread p))) (hperm : ((s.thread p).pc.locks p).Perm (i :: L))
    (hrun : (s.thread p).pc.status = .running)
    (hw : i = p → (s.proc p).state = .running → w.state = .running)
    (htouch : Touched s (s.setProc i w) c i) : After c s s' := by
  refine h.release hon hs rfl rfl rfl hland hperm ?_ ?_
  · have hp := (h.status c p hon).trans hrun
    by_cases hi : i = p
    · subst hi
      simpa [State.setProc] using hw rfl hp
    · simpa [State.setProc, Ne.symm hi] using hp
  · intro q hq
    by_cases hi : q = i
    · exact hi ▸ htouch
    · exact .same rfl (by simp [State.setProc, hi])

theorem goto (h : Core s) (hon : (s.cpu c).on = some p) {f : Thread A → Thread A} {L : List Slot}
    (hland : Lands p L (f (s.thread p))) (hl : (s.thread p).pc.locks p = L)
    (hrun : (s.thread p).pc.status = .running) : After c s (s.move p f) := by
  have hth : (s.move p f).thread p = f (s.thread p) := by simp [State.move, State.setThread]
  refine h.plain hon rfl ?_ ?_ ?_ ?_ rfl ?_
  · rw [hth]
    exact hland.idle
  · rw [hth, hland.status, ← hrun]
    exact h.status c p hon
  · simp [hth, hland.spare]
  · intro q hq
    exact .same (update_of_ne hq _ _) rfl
  · rw [hth, hland.locks, hl]

theorem setSelf (h : Core s) (hon : (s.cpu c).on = some p) {v : Proc A} {pc' : Pc A}
    (hl : pc'.locks p = (s.thread p).pc.locks p) (hst : v.state = pc'.status)
    (hn : pc'.spare = none) : After c s ((s.setProc p v).move p (.goto pc')) := by
  have hth : ((s.setProc p v).move p (.goto pc')).thread p = (s.thread p).goto pc' := by
    simp [State.move, State.setThread, State.setProc]
  refine h.plain hon rfl ?_ ?_ ?_ ?_ rfl ?_
  · rw [hth]
    exact h.idle p
  · rw [hth]
    simpa [State.move, State.setThread, State.setProc, Thread.goto] using hst
  · simp [hth, Thread.goto, hn]
  · intro q hq
    refine .same (update_of_ne hq _ _) ?_
    simp [State.move, State.setThread, State.setProc, hq]
  · rw [hth]
    exact hl

theorem sched (h : Core s) (hon : (s.cpu c).on = some p) {pc' : Pc A}
    (hs : s.sched c p pc' = some s') (hst : (s.thread p).pc.status = .zombie ∨ pc'.Resumes) :
    After c s s' := by
  obtain ⟨hmine, honly, rfl⟩ := State.of_sched hs
  set s' := (s.move p (.goto pc')).setCpu c { s.cpu c with on := none }
  have hback := h.back c p hon
  have hc : s'.cpu c = { s.cpu c with on := none } := update_self _ _ _
  have hcpu : ∀ c', c' ≠ c → s'.cpu c' = s.cpu c' := fun c' hc' => update_of_ne hc' _ _
  have hpc : ∀ c', (s'.cpu c').pc = (s.cpu c').pc := by
    intro c'
    by_cases hc' : c' = c
    · rw [hc', hc]
    · rw [hcpu c' hc']
  have hproc : ∀ c', (s'.cpu c').proc = (s.cpu c').proc := by
    intro c'
    by_cases hc' : c' = c
    · rw [hc', hc]
    · rw [hcpu c' hc']
  have hth : ∀ q, q ≠ p → s'.thread q = s.thread q := fun q hq => update_of_ne hq _ _
  have hthp : s'.thread p = (s.thread p).goto pc' := update_self _ _ _
  have honc : ∀ c' q, (s'.cpu c').on = some q → c' ≠ c ∧ q ≠ p ∧ (s.cpu c').on = some q := by
    intro c' q hq
    have hc' : c' ≠ c := by
      intro hc'
      rw [hc', hc] at hq
      cases hq
    rw [hcpu c' hc'] at hq
    refine ⟨hc', ?_, hq⟩
    intro hqp
    subst hqp
    exact hc' (h.on_inj hq hon)
  have hheld : ∀ c', c' ≠ c → s'.held c' = s.held c' := by
    intro c' hc'
    cases hq : (s'.cpu c').on with
    | none => rw [State.held_of_sched hq, State.held_of_sched (hcpu c' hc' ▸ hq), hpc]
    | some q =>
      have hq' := honc c' q hq
      rw [State.held_of_on hq, State.held_of_on hq'.2.2, hth q hq'.2.1]
  have hheldc : s'.held c = [p] := by
    rw [State.held_of_sched (by rw [hc]), hpc, hback]
    rfl
  refine ⟨?_, fun c' q hq => .inl (honc c' q hq).2.2, fun q hq => .same (hth q ?_) rfl,
    fun q hq => ?_⟩
  rotate_left
  · intro hqp
    exact hq (hqp ▸ hon)
  · change (s.proc q).state ≠ .unused
    rw [h.status c q hq]
    exact Pc.status_ne_unused _
  constructor
  · intro c' l
    by_cases hc' : c' = c
    · subst hc'
      rw [hheldc, List.mem_singleton]
      exact ⟨honly l, fun hl => hl ▸ hmine⟩
    · rw [hheld c' hc']
      exact h.held c' l
  · intro c'
    by_cases hc' : c' = c
    · subst hc'
      rw [hheldc]
      exact List.nodup_singleton p
    · rw [hheld c' hc']
      exact h.nodup c'
  · intro c' q hq
    rw [hpc]
    exact h.back c' q (honc c' q hq).2.2
  · intro c'
    rw [hpc, hproc]
    exact h.proc c'
  · intro c' q hq
    rw [hproc] at hq
    exact h.busy c' q hq
  · intro c₁ c₂ q h₁ h₂
    rw [hproc] at h₁ h₂
    exact h.uniq c₁ c₂ q h₁ h₂
  · intro c' q hq
    have hq' := honc c' q hq
    rw [hth q hq'.2.1]
    exact h.status c' q hq'.2.2
  · intro c' q hq
    rw [hpc] at hq
    exact h.swtch c' q hq
  · intro q hq hu hz
    by_cases hqp : q = p
    · subst hqp
      rw [hthp]
      refine hst.resolve_left ?_
      intro hzom
      exact hz ((h.status c q hon).trans hzom)
    · rw [hth q hqp]
      refine h.parked q ?_ hu hz
      intro c' hc'
      have hne : c' ≠ c := by
        intro hcc
        subst hcc
        rw [hon] at hc'
        exact hqp (Option.some.inj hc').symm
      exact hq c' (by rw [hcpu c' hne, hc'])
  · intro q
    by_cases hqp : q = p
    · subst hqp
      rw [hthp]
      exact h.idle q
    · rw [hth q hqp]
      exact h.idle q
  · intro c' q i hq hi
    have hq' := honc c' q hq
    rw [hth q hq'.2.1] at hi
    exact h.spare c' q i hq'.2.2 hi

theorem scheduler (h : Core s) (hon : (s.cpu c).on = none) {v : Cpu A}
    (hcpu : s'.cpu = update s.cpu c v) (hv : v.on = none) (hth : s'.thread = s.thread)
    (hheld : ∀ l, s'.lock l = some c ↔ l ∈ v.pc.locks)
    (hlock : ∀ l c', c' ≠ c → (s'.lock l = some c' ↔ s.lock l = some c'))
    (hproc : v.proc = v.pc.proc)
    (huniq : ∀ q c', v.proc = some q → c' ≠ c → (s.cpu c').proc ≠ some q)
    (hswtch : ∀ q, v.pc = .swtch q → (s'.proc q).state = .running)
    (htouch : ∀ q, Touched s s' c q) : After c s s' := by
  have hc : s'.cpu c = v := by rw [hcpu, update_self]
  have hcpu' : ∀ c', c' ≠ c → s'.cpu c' = s.cpu c' := by
    intro c' hc'
    rw [hcpu, update_of_ne hc']
  have honc : ∀ c' q, (s'.cpu c').on = some q → c' ≠ c ∧ (s.cpu c').on = some q := by
    intro c' q hq
    have hc' : c' ≠ c := by
      intro hc'
      rw [hc', hc, hv] at hq
      cases hq
    exact ⟨hc', hcpu' c' hc' ▸ hq⟩
  have hheld' : ∀ c', c' ≠ c → s'.held c' = s.held c' := by
    intro c' hc'
    simp only [State.held, hcpu' c' hc', hth]
  have hheldc : s'.held c = v.pc.locks := by rw [State.held_of_sched (by rw [hc, hv]), hc]
  refine ⟨?_, fun c' q hq => .inl (honc c' q hq).2, fun q _ => htouch q, fun q hq => ?_⟩
  rotate_left
  · rw [hon] at hq
    cases hq
  constructor
  · intro c' l
    by_cases hc' : c' = c
    · subst hc'
      rw [hheldc, hheld]
    · rw [hheld' c' hc', hlock l c' hc', h.held]
  · intro c'
    by_cases hc' : c' = c
    · subst hc'
      rw [hheldc]
      exact v.pc.locks_nodup
    · rw [hheld' c' hc']
      exact h.nodup c'
  · intro c' q hq
    have hq' := honc c' q hq
    rw [hcpu' c' hq'.1]
    exact h.back c' q hq'.2
  · intro c'
    by_cases hc' : c' = c
    · rw [hc', hc, hproc]
    · rw [hcpu' c' hc']
      exact h.proc c'
  · intro c' q hq
    by_cases hc' : c' = c
    · subst hc'
      rw [hc, hproc] at hq
      exact .inr ((hheld q).2 (SchedPc.mem_locks_of_proc hq))
    · rw [hcpu' c' hc'] at hq
      rw [hlock q c' hc']
      exact (h.busy c' q hq).imp_left (htouch q).running
  · intro c₁ c₂ q h₁ h₂
    by_cases hc₁ : c₁ = c
    · by_cases hc₂ : c₂ = c
      · rw [hc₁, hc₂]
      · rw [hc₁, hc] at h₁
        rw [hcpu' c₂ hc₂] at h₂
        exact absurd h₂ (huniq q c₂ h₁ hc₂)
    · rw [hcpu' c₁ hc₁] at h₁
      by_cases hc₂ : c₂ = c
      · rw [hc₂, hc] at h₂
        exact absurd h₁ (huniq q c₁ h₂ hc₁)
      · rw [hcpu' c₂ hc₂] at h₂
        exact h.uniq c₁ c₂ q h₁ h₂
  · intro c' q hq
    have hq' := honc c' q hq
    have ht := (htouch q).executing h hq'.1 hq'.2
    rw [ht.1, ht.2]
    exact h.status c' q hq'.2
  · intro c' q hq
    by_cases hc' : c' = c
    · rw [hc', hc] at hq
      exact hswtch q hq
    · rw [hcpu' c' hc'] at hq
      exact (htouch q).running (h.swtch c' q hq)
  · intro q hq
    refine (htouch q).resumes h ?_
    intro c' hc'
    have hne : c' ≠ c := by
      intro hcc
      rw [hcc, hon] at hc'
      cases hc'
    exact hq c' (by rw [hcpu' c' hne, hc'])
  · intro q
    exact (htouch q).idle h
  · intro c' q i hq hi
    have hq' := honc c' q hq
    rw [hth] at hi
    exact (htouch i).unused (h.spare c' q i hq'.2 hi) hq'.1 (h.lock_eq hq'.2 (Pc.spare_mem hi))

section SchedLocks

variable (h : Core s) (hon : (s.cpu c).on = none) {v : Cpu A} (hv : v.on = none)
  (hproc : v.proc = v.pc.proc)

include h hon hv hproc

theorem schedTaking {l : Slot} (hfree : s.lock l = none) (hno : (s.cpu c).pc.locks = [])
    (hl : v.pc.locks = [l]) (hnone : v.proc = none) :
    After c s ((s.setLock l (some c)).setCpu c v) := by
  refine h.scheduler hon rfl hv rfl ?_ ?_ hproc ?_ ?_ fun q => .same rfl rfl
  · intro x
    rw [hl, List.mem_singleton]
    by_cases hx : x = l
    · simp [State.setCpu, State.setLock, hx]
    · have := h.held c x
      rw [State.held_of_sched hon, hno] at this
      simpa [State.setCpu, State.setLock, hx] using this
  · intro x c' hc'
    by_cases hx : x = l
    · subst hx
      simp [State.setCpu, State.setLock, hfree, Ne.symm hc']
    · simp [State.setCpu, State.setLock, hx]
  · intro q c' hq
    rw [hnone] at hq
    cases hq
  · intro q hq
    rw [hproc, hq] at hnone
    cases hnone

theorem schedDropping {l : Slot} {w : Proc A} (hmine : s.lock l = some c)
    (hl : (s.cpu c).pc.locks = [l]) (hno : v.pc.locks = []) (hnone : v.proc = none)
    (hw : Touched s ((s.setProc l w).setLock l none |>.setCpu c v) c l) :
    After c s (((s.setProc l w).setLock l none).setCpu c v) := by
  refine h.scheduler hon rfl hv rfl ?_ ?_ hproc ?_ ?_ fun q => ?_
  · intro x
    rw [hno]
    by_cases hx : x = l
    · simp [State.setCpu, State.setLock, hx]
    · have := h.held c x
      rw [State.held_of_sched hon, hl] at this
      simpa [State.setCpu, State.setLock, State.setProc, hx] using this
  · intro x c' hc'
    by_cases hx : x = l
    · subst hx
      simp [State.setCpu, State.setLock, hmine, Ne.symm hc']
    · simp [State.setCpu, State.setLock, State.setProc, hx]
  · intro q c' hq
    rw [hnone] at hq
    cases hq
  · intro q hq
    rw [hproc, hq] at hnone
    cases hnone
  · by_cases hq : q = l
    · exact hq ▸ hw
    · exact .same rfl (by simp [State.setCpu, State.setLock, State.setProc, hq])

end SchedLocks

omit [DecidableEq C] in
theorem parked_of_swtch (h : Core s) {i : Slot} (hpc : (s.cpu c).pc = .swtch i) : s.Parked i := by
  intro c' hc'
  have hcc : c' = c := h.uniq c' c i (h.myproc hc') (by rw [h.proc, hpc]; rfl)
  rw [← hcc, h.back c' i hc'] at hpc
  cases hpc

theorem switch (h : Core s) (hon : (s.cpu c).on = none) {i : Slot} (hpc : (s.cpu c).pc = .swtch i) :
    After c s (s.setCpu c { s.cpu c with on := some i, pc := .back i }) := by
  set s' := s.setCpu c { s.cpu c with on := some i, pc := .back i }
  have hpark := h.parked_of_swtch hpc
  have hrun := h.swtch c i hpc
  have hres := h.parked i hpark (by simp [hrun]) (by simp [hrun])
  have hc : s'.cpu c = { s.cpu c with on := some i, pc := .back i } := update_self _ _ _
  have hcpu : ∀ c', c' ≠ c → s'.cpu c' = s.cpu c' := fun c' hc' => update_of_ne hc' _ _
  have hproc : ∀ c', (s'.cpu c').proc = (s.cpu c').proc := by
    intro c'
    by_cases hc' : c' = c
    · rw [hc', hc]
    · rw [hcpu c' hc']
  have hheld : ∀ c', s'.held c' = s.held c' := by
    intro c'
    by_cases hc' : c' = c
    · rw [hc', State.held_of_on (p := i) (by rw [hc]), State.held_of_sched hon, hpc]
      exact hres.locks
    · simp only [State.held, hcpu c' hc']
      rfl
  refine ⟨?_, fun c' q hq => ?_, fun q _ => .same rfl rfl, fun q hq => ?_⟩
  rotate_left
  · by_cases hc' : c' = c
    · rw [hc', hc] at hq
      cases hq
      exact .inr ⟨hc', hpc⟩
    · exact .inl (hcpu c' hc' ▸ hq)
  · rw [hon] at hq
    cases hq
  constructor
  · intro c' l
    rw [hheld]
    exact h.held c' l
  · intro c'
    rw [hheld]
    exact h.nodup c'
  · intro c' q hq
    by_cases hc' : c' = c
    · rw [hc', hc] at hq ⊢
      cases hq
      rfl
    · rw [hcpu c' hc'] at hq ⊢
      exact h.back c' q hq
  · intro c'
    rw [hproc, h.proc]
    by_cases hc' : c' = c
    · rw [hc', hc, hpc]
      rfl
    · rw [hcpu c' hc']
  · intro c' q hq
    rw [hproc] at hq
    exact h.busy c' q hq
  · intro c₁ c₂ q h₁ h₂
    rw [hproc] at h₁ h₂
    exact h.uniq c₁ c₂ q h₁ h₂
  · intro c' q hq
    by_cases hc' : c' = c
    · rw [hc', hc] at hq
      cases hq
      exact hrun.trans hres.status.symm
    · rw [hcpu c' hc'] at hq
      exact h.status c' q hq
  · intro c' q hq
    by_cases hc' : c' = c
    · rw [hc', hc] at hq
      cases hq
    · rw [hcpu c' hc'] at hq
      exact h.swtch c' q hq
  · intro q hq
    refine h.parked q ?_
    intro c' hc'
    have hne : c' ≠ c := by
      intro hcc
      rw [hcc, hon] at hc'
      cases hc'
    exact hq c' (by rw [hcpu c' hne, hc'])
  · exact h.idle
  · intro c' q x hq hx
    by_cases hc' : c' = c
    · rw [hc', hc] at hq
      cases hq
      exact absurd (hres.spare.symm.trans hx) (by simp)
    · rw [hcpu c' hc'] at hq
      exact h.spare c' q x hq hx

end Core

end Xv6.Sched
