import Xv6.Lib.Runs

/-!
# Spinlocks, interrupts and context switches

`acquire`, `release`, `push_off` and `pop_off` of `kernel/spinlock.c` with `scheduler`, `sched` and `forkret` of
`kernel/proc.c`, for any number of CPUs and processes. The steps are split at every access to a lock that another CPU
may see, at every `swtch`, and where `intena` is patched. A panic stops the kernel: there is no step.

* `Lk`: the locks, `p->lock` among them. `Cpu`: the fields of `struct cpu`, the interrupt flag of the hart, and which
  thread executes where.
* `pushOff`, `popOff`, `holding`: the functions. `State.pushOff`, `State.popOff`: with the history `own`, the state
  of the interrupts before the outermost `push_off` of each thread.
* `Op`, `step`: the system.
-/

namespace Xv6.Spin

open Function (update)

inductive PState
  | unused
  | sleeping
  | runnable
  | running
  | zombie
  deriving DecidableEq

/-- A lock: `p->lock` or another one. -/
inductive Lk (P K : Type)
  | proc (p : P)
  | other (k : K)
  deriving DecidableEq

structure Spinlock (C : Type) where
  locked : Bool
  cpu : Option C

/-- Where a thread is in `acquire` (before `test_and_set`, before `lk->cpu` is set), in `release` (before `lk->locked`
is cleared, before `pop_off`) or in `sched` (before `intena` is restored). -/
inductive Pc (P K : Type)
  | idle
  | spin (lk : Lk P K)
  | took (lk : Lk P K)
  | drop (lk : Lk P K)
  | pop
  | restore (intena : Bool)

/-- Where the scheduler of a CPU is: at `intr_on`, at `intr_off`, between two processes, at the test of `p->state`, in
`swtch`, back from it, and after it has cleared `intena`. -/
inductive Stage (P : Type)
  | top
  | on
  | loop
  | test (p : P)
  | away (p : P)
  | back (p : P)
  | patched (p : P)

/-- A CPU. `intr` is whether it takes interrupts, `cur` the process on whose stack it executes, if it is not its
scheduler, and `pc` where that thread is. `pushes` counts the calls of `push_off` that have not been undone; the code
does not keep it. -/
structure Cpu (P K : Type) where
  noff : Int32
  intena : Bool
  intr : Bool
  cur : Option P
  stage : Stage P
  pc : Pc P K
  pushes : ℕ

/-- A process. `saved` is the variable `intena` of `sched`; a new process has not called it. `fresh` says that the
process has not left `forkret`; the code does not keep it. -/
structure Proc where
  state : PState
  saved : Option Bool
  fresh : Bool

variable {C P K : Type}

/-- A thread of the kernel: a process, or the scheduler of a CPU. -/
abbrev Thread (C P : Type) : Type := P ⊕ C

/-- The system. `own` is the state of the interrupts before the outermost `push_off` of a thread; no step reads it. -/
structure State (C P K : Type) where
  cpu : C → Cpu P K
  lock : Lk P K → Spinlock C
  proc : P → Proc
  own : Thread C P → Bool

def Cpu.pushOff (v : Cpu P K) : Cpu P K :=
  { v with intr := false, intena := if v.noff = 0 then v.intr else v.intena, noff := v.noff + 1 }

def Cpu.popOff (v : Cpu P K) : Option (Cpu P K) :=
  if v.intr then none
  else if v.noff < 1 then none
  else some { v with noff := v.noff - 1, intr := decide (v.noff - 1 = 0) && v.intena }

namespace State

variable [DecidableEq C] [DecidableEq P] [DecidableEq K] (s : State C P K) (c : C)

def setCpu (v : Cpu P K) : State C P K := { s with cpu := update s.cpu c v }

def setLock (lk : Lk P K) (v : Spinlock C) : State C P K := { s with lock := update s.lock lk v }

def setProc (p : P) (v : Proc) : State C P K := { s with proc := update s.proc p v }

def setOwn (t : Thread C P) (b : Bool) : State C P K := { s with own := update s.own t b }

def thread : Thread C P :=
  match (s.cpu c).cur with
  | some p => .inl p
  | none => .inr c

def goto (pc : Pc P K) : State C P K := s.setCpu c { s.cpu c with pc := pc }

def holding (lk : Lk P K) : Prop := (s.lock lk).locked = true ∧ (s.lock lk).cpu = some c

instance (lk : Lk P K) : Decidable (s.holding c lk) := inferInstanceAs (Decidable (_ ∧ _))

def pushOff : State C P K :=
  { s.setCpu c (s.cpu c).pushOff with
    own := if (s.cpu c).noff = 0 then update s.own (s.thread c) (s.cpu c).intr else s.own }

/-- The process on a CPU has left `forkret` when its nesting is 0. -/
def settle : State C P K :=
  match (s.cpu c).cur with
  | some p => if (s.cpu c).noff = 0 then s.setProc p { s.proc p with fresh := false } else s
  | none => s

def popOff : Option (State C P K) := (s.cpu c).popOff.map fun v => (s.setCpu c v).settle c

/-- The first part of `acquire`. -/
def acquire (lk : Lk P K) : Option (State C P K) :=
  let s := s.pushOff c
  if s.holding c lk then none else some (s.goto c (.spin lk))

/-- The first part of `release`. -/
def release (lk : Lk P K) : Option (State C P K) :=
  if s.holding c lk then some ((s.setLock lk { s.lock lk with cpu := none }).goto c (.drop lk)) else none

end State

/-- What a CPU may do next: a process calls a function, or the thread goes on. -/
inductive Op (P K : Type)
  | pushOff
  | popOff
  | acquire (lk : Lk P K)
  | release (lk : Lk P K)
  | intr (on : Bool)
  | setState (st : PState)
  | spawn (p : P)
  | wake (p : P)
  | free (p : P)
  | sched
  | swap
  | record
  | clear
  | pop
  | restore
  | intrOn
  | intrOff
  | pick (p : P)
  | swtch
  | skip
  | patch
  | unlock
  | again

section Step

variable [DecidableEq C] [DecidableEq P] [DecidableEq K]

/-- **What a thread may call** on CPU `c`. `pop_off` undoes a `push_off`, and interrupts are switched on and off outside
of critical sections. -/
def callStep (s : State C P K) (c : C) : Op P K → Option (State C P K)
  | .pushOff =>
    let s := s.pushOff c
    some (s.setCpu c { s.cpu c with pushes := (s.cpu c).pushes + 1 })
  | .popOff =>
    if (s.cpu c).pushes = 0 then none
    else (s.setCpu c { s.cpu c with pushes := (s.cpu c).pushes - 1 }).popOff c
  | .acquire lk => s.acquire c lk
  | .release lk => s.release c lk
  | .intr on => if (s.cpu c).noff = 0 then some (s.setCpu c { s.cpu c with intr := on }) else none
  | .wake q =>
    if s.holding c (.proc q) ∧ (s.proc q).state = .sleeping then
      some (s.setProc q { s.proc q with state := .runnable })
    else none
  | _ => none

/-- **What process `p` may do** on CPU `c`. A process that has changed its state goes on to `sched` without giving
`p->lock` back. -/
def procStep (s : State C P K) (c : C) (p : P) : Op P K → Option (State C P K)
  | .release lk => if lk = .proc p ∧ (s.proc p).state ≠ .running then none else callStep s c (.release lk)
  | .setState st =>
    if st ≠ .running ∧ s.holding c (.proc p) then some (s.setProc p { s.proc p with state := st }) else none
  | .spawn q =>
    if q ≠ p ∧ s.holding c (.proc q) ∧ (s.proc q).state = .unused then
      some ((s.setProc q ⟨.runnable, none, true⟩).setOwn (.inl q) false)
    else none
  | .free q =>
    if q ≠ p ∧ s.holding c (.proc q) ∧ (s.proc q).state = .zombie then
      some (s.setProc q { s.proc q with state := .unused })
    else none
  | .sched =>
    if s.holding c (.proc p) ∧ (s.cpu c).noff = 1 ∧ (s.proc p).state ≠ .running ∧ (s.cpu c).intr = false then
      some ((s.setProc p { s.proc p with saved := some (s.cpu c).intena }).setCpu c
        { s.cpu c with cur := none, stage := .back p })
    else none
  | op => callStep s c op

/-- **What the scheduler** of CPU `c` does. Between `intr_on` and `intr_off` the interrupt handlers may execute on its
stack, and they return before it goes on. -/
def schedStep (s : State C P K) (c : C) : Stage P → Op P K → Option (State C P K)
  | .top, .intrOn => some (s.setCpu c { s.cpu c with intr := true, stage := .on })
  | .on, .intrOff =>
    if (s.cpu c).noff = 0 then some (s.setCpu c { s.cpu c with intr := false, stage := .loop }) else none
  | .on, op => callStep s c op
  | .loop, .pick p => (s.setCpu c { s.cpu c with stage := .test p }).acquire c (.proc p)
  | .loop, .again => some (s.setCpu c { s.cpu c with stage := .top })
  | .test p, .swtch =>
    if (s.proc p).state = .runnable then
      some ((s.setProc p { s.proc p with state := .running }).setCpu c
        { s.cpu c with
          cur := some p
          stage := .away p
          pc := ((s.proc p).saved.map Pc.restore).getD .idle })
    else none
  | .test p, .skip =>
    if (s.proc p).state = .runnable then none else some (s.setCpu c { s.cpu c with stage := .back p })
  | .back p, .patch => some (s.setCpu c { s.cpu c with intena := false, stage := .patched p })
  | .patched p, .unlock => (s.setCpu c { s.cpu c with stage := .loop }).release c (.proc p)
  | _, _ => none

/-- **One step** of the thread that executes on CPU `c`. -/
def step (s : State C P K) : C × Op P K → Option (State C P K)
  | (c, op) =>
    match (s.cpu c).pc with
    | .idle =>
      match (s.cpu c).cur with
      | some p => procStep s c p op
      | none => schedStep s c (s.cpu c).stage op
    | .spin lk =>
      match op with
      | .swap =>
        if (s.lock lk).locked then none
        else some ((s.setLock lk { s.lock lk with locked := true }).goto c (.took lk))
      | _ => none
    | .took lk =>
      match op with
      | .record => some ((s.setLock lk { s.lock lk with cpu := some c }).goto c .idle)
      | _ => none
    | .drop lk =>
      match op with
      | .clear => some ((s.setLock lk { s.lock lk with locked := false }).goto c .pop)
      | _ => none
    | .pop =>
      match op with
      | .pop => (s.goto c .idle).popOff c
      | _ => none
    | .restore intena =>
      match op with
      | .restore => some (s.setCpu c { s.cpu c with intena := intena, pc := .idle })
      | _ => none

/-- All CPUs enter `scheduler`, and the processes in `ready` have been made. -/
def init (ready : P → Bool) : State C P K where
  cpu _ := ⟨0, false, false, none, .top, .idle, 0⟩
  lock _ := ⟨false, none⟩
  proc p := ⟨if ready p then .runnable else .unused, none, ready p⟩
  own _ := false

end Step

end Xv6.Spin
