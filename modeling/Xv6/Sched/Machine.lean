import Xv6.Param
import Xv6.Lib.Runs

/-!
# Processes and CPUs

The process table of `kernel/proc.c` under any number of CPUs: `scheduler`, `sched`, `yield`, `sleep`,
`wakeup`, `kill`, `fork`, `exit` and `wait`, split at every `acquire` and `release` of a process lock, at
every `swtch`, and where a field is read without its lock. A timer interrupt may call `yield` and a
device interrupt `wakeup` wherever the CPU holds no process lock.

* `Pc`, `SchedPc`: where a kernel thread stands; `Thread`: with the frames below an interrupt.
* `State`, `step`: the system. `hist` is a history that no transition reads.

`myproc()` is the process on whose kernel stack the CPU executes; `Xv6.Sched.myproc_eq` shows that this
is what `c->proc` says.
-/

namespace Xv6.Sched

open Function (update)

/-- A pointer into `proc[NPROC]`. -/
abbrev Slot : Type := Fin nproc

def initproc : Slot := 0

inductive PState
  | unused
  | sleeping
  | runnable
  | running
  | zombie
  deriving DecidableEq

/-- What a process may sleep on: `wait` uses the address of its process, other code other
addresses. -/
inductive Chan (A : Type)
  | proc (p : Slot)
  | other (a : A)
  deriving DecidableEq

/-- The fields of `struct proc` that `p->lock` protects. -/
structure Proc (A : Type) where
  state : PState
  parent : Option Slot
  chan : Option (Chan A)
  killed : Bool
  xstate : Int32
  pid : Int32

/-- An entry as memory starts out and as `freeproc` leaves it. -/
def Proc.zero {A : Type} : Proc A := ⟨.unused, none, none, false, 0, 0⟩

/-- Where the kernel thread of a process stands. A name ending in `Lock` is a call of `acquire`, one
ending in `Swtch` the `swtch` in `sched`; `run` is any code outside the functions modelled here. -/
inductive Pc (A : Type)
  | run
  | forkret
  | yieldLock
  | yieldSet
  | yieldSwtch
  | yieldBack
  | sleepLock (a : A)
  | sleepSet (a : A)
  | sleepSwtch
  | sleepBack
  | wakeLock (a : A) (i : Slot)
  | wakeTest (a : A) (i : Slot)
  | killLock (pid : Int32) (i : Slot)
  | killTest (pid : Int32) (i : Slot)
  | forkLock (i : Slot)
  | forkTest (i : Slot)
  | forkPid (i : Slot)
  | forkMake (i : Slot)
  | exitInitLock (status : Int32)
  | exitInitWake (status : Int32)
  | exitSelfLock (status : Int32)
  | exitParent (status : Int32)
  | exitParentLock (status : Int32) (op : Slot)
  | exitLock (status : Int32) (op : Slot)
  | exitReparent (status : Int32) (op i : Slot)
  | exitChildLock (status : Int32) (op i : Slot)
  | exitChildSet (status : Int32) (op i : Slot)
  | exitZombie (status : Int32) (op : Slot)
  | exitSwtch
  | exitDead
  | waitLock
  | waitScan (havekids : Bool) (i : Slot)
  | waitChildLock (havekids : Bool) (i : Slot)
  | waitTest (i : Slot)
  | waitReturn (v : Int32)
  | waitEnd (havekids : Bool)
  | waitSwtch
  | waitBack
  deriving DecidableEq

/-- Where the scheduler of a CPU stands. Interrupts are on at the top of its loop, so a device
interrupt may call `wakeup` there. -/
inductive SchedPc (A : Type)
  | lock (i : Slot)
  | test (i : Slot)
  | swtch (i : Slot)
  | back (i : Slot)
  | wakeLock (a : A) (i : Slot)
  | wakeTest (a : A) (i : Slot)
  deriving DecidableEq

/-- The kernel thread of a process: where it stands, the frames that interrupts have put aside, and
what its last call returned. -/
structure Thread (A : Type) where
  pc : Pc A
  frames : List (Pc A)
  ret : Int32
  deriving DecidableEq

def next (i : Slot) : Option Slot := if h : i.1 + 1 < nproc then some ⟨i.1 + 1, h⟩ else none

/-- A loop over the process table goes on with the entry after `i`, or is left. -/
def forward {α : Type} (loop : Slot → α) (done : α) (i : Slot) : α :=
  match next i with
  | some j => loop j
  | none => done

namespace Thread

variable {A : Type}

/-- A new process starts at `forkret`. -/
def fresh : Thread A := ⟨.forkret, [], 0⟩

def goto (pc : Pc A) (t : Thread A) : Thread A := { t with pc := pc }

/-- Return from a function without a result. -/
def leave (t : Thread A) : Thread A :=
  match t.frames with
  | [] => { t with pc := .run }
  | f :: fs => { t with pc := f, frames := fs }

def answer (v : Int32) (t : Thread A) : Thread A := { t.leave with ret := v }

/-- The next turn of a loop over the process table, or what follows the loop. -/
def turn (loop : Slot → Pc A) (done : Thread A → Thread A) (i : Slot) (t : Thread A) : Thread A :=
  forward (fun j => t.goto (loop j)) (done t) i

/-- An interrupt puts the frame aside and goes on at `pc`. -/
def interrupt (pc : Pc A) (t : Thread A) : Thread A := { t with pc := pc, frames := t.pc :: t.frames }

end Thread

/-- `struct cpu`: `c->proc`, and its scheduler thread. The CPU executes on the kernel stack of process
`on`, or on that of its scheduler. -/
structure Cpu (A : Type) where
  proc : Option Slot
  on : Option Slot
  pc : SchedPc A

/-- A process that `wait` returned: the caller, the process (its slot and the how many-th process in
that slot), the result and the status handed to `copyout`. -/
structure Reap where
  parent : Slot
  slot : Slot
  gen : ℕ
  pid : Int32
  status : Int32
  deriving DecidableEq

/-- What has happened: how many processes each slot has held; the pids they were given; the
statuses they exited with; what `wait` returned. -/
structure History where
  gen : Slot → ℕ
  born : List (Slot × ℕ × Int32)
  exited : List (Slot × ℕ × Int32)
  reaped : List Reap

structure State (C A : Type) where
  proc : Slot → Proc A
  lock : Slot → Option C
  nextpid : Int32
  cpu : C → Cpu A
  thread : Slot → Thread A
  hist : History

/-- System calls, the calls of `sleep` and `wakeup` in other kernel code, and the fault that makes
`usertrap` set `p->killed`. -/
inductive Call (A : Type)
  | fork
  | exit (status : Int32)
  | wait
  | kill (pid : Int32)
  | sleep (a : A)
  | wakeup (a : A)
  | yield
  | fault

/-- What the rest of the kernel answers: whether `kalloc` finds a page for the trapframe, and whether
the copy of user memory (`uvmcopy` in `fork`, `copyout` in `wait`) succeeds. -/
structure Env where
  tf : Bool
  copy : Bool

/-- A CPU goes on with what it executes; its process makes a call; a timer or a device interrupt. -/
inductive Act (C A : Type)
  | run (c : C) (e : Env)
  | call (c : C) (k : Call A)
  | tick (c : C)
  | device (c : C) (a : A)

/-! ## Steps -/

section Table

variable {A : Type} [DecidableEq A]

/-- `wakeup` on one entry; `wakeup1` is the case `ch = p`. -/
def Proc.wakeup (v : Proc A) (ch : Chan A) : Proc A :=
  if v.state = .sleeping ∧ v.chan = some ch then { v with state := .runnable } else v

/-- `kill` on the entry it looks for. -/
def Proc.kill (v : Proc A) : Proc A :=
  { v with killed := true, state := if v.state = .sleeping then .runnable else v.state }

/-- `p->chan = chan; p->state = SLEEPING`. -/
def Proc.sleep (v : Proc A) (ch : Chan A) : Proc A := { v with chan := some ch, state := .sleeping }

end Table

variable {C A : Type} [DecidableEq C] [DecidableEq A]

namespace State

def setProc (s : State C A) (i : Slot) (v : Proc A) : State C A :=
  { s with proc := update s.proc i v }

def setLock (s : State C A) (l : Slot) (o : Option C) : State C A :=
  { s with lock := update s.lock l o }

def setCpu (s : State C A) (c : C) (v : Cpu A) : State C A :=
  { s with cpu := update s.cpu c v }

def setThread (s : State C A) (p : Slot) (t : Thread A) : State C A :=
  { s with thread := update s.thread p t }

def move (s : State C A) (p : Slot) (f : Thread A → Thread A) : State C A :=
  s.setThread p (f (s.thread p))

def acquire (s : State C A) (c : C) (l : Slot) : Option (State C A) :=
  if s.lock l = none then some (s.setLock l (some c)) else none

/-- `release`, which panics unless the CPU holds the lock. -/
def release (s : State C A) (c : C) (l : Slot) : Option (State C A) :=
  if s.lock l = some c then some (s.setLock l none) else none

/-- `sched`, which panics unless `p->lock` is the only lock the CPU holds and `p->state` has changed;
the thread will go on at `pc`. -/
def sched (s : State C A) (c : C) (p : Slot) (pc : Pc A) : Option (State C A) :=
  if s.lock p = some c ∧ (∀ l, s.lock l = some c → l = p) ∧ (s.proc p).state ≠ .running then
    some ((s.move p (.goto pc)).setCpu c { s.cpu c with on := none })
  else none

def allocpid (s : State C A) (i : Slot) : State C A :=
  { s.setProc i { s.proc i with pid := s.nextpid } with nextpid := s.nextpid + 1 }

/-- The end of `allocproc` and the rest of `fork`, up to the `release`. -/
def forkMake (s : State C A) (p i : Slot) : State C A :=
  let n := s.hist.gen i + 1
  { (s.setProc i { s.proc i with parent := some p, state := .runnable }).setThread i .fresh with
    hist := { s.hist with
      gen := update s.hist.gen i n
      born := (i, n, (s.proc i).pid) :: s.hist.born } }

/-- The end of `exit`: wake up the parent, and become a zombie. -/
def exitZombie (s : State C A) (p op : Slot) (status : Int32) : State C A :=
  let s := s.setProc op ((s.proc op).wakeup (.proc op))
  { s.setProc p { s.proc p with xstate := status, state := .zombie } with
    hist := { s.hist with exited := (p, s.hist.gen p, status) :: s.hist.exited } }

/-- `freeproc` of a child `wait` has found. -/
def reap (s : State C A) (p i : Slot) : State C A :=
  { s.setProc i .zero with
    hist := { s.hist with
      reaped := ⟨p, i, s.hist.gen i, (s.proc i).pid, (s.proc i).xstate⟩ :: s.hist.reaped } }

def procStep (s : State C A) (c : C) (p : Slot) (e : Env) : Pc A → Option (State C A)
  | .run => none
  | .forkret => (s.release c p).map (·.move p .leave)
  -- yield
  | .yieldLock => (s.acquire c p).map (·.move p (.goto .yieldSet))
  | .yieldSet =>
    some ((s.setProc p { s.proc p with state := .runnable }).move p (.goto .yieldSwtch))
  | .yieldSwtch => s.sched c p .yieldBack
  | .yieldBack => (s.release c p).map (·.move p .leave)
  -- sleep
  | .sleepLock a => (s.acquire c p).map (·.move p (.goto (.sleepSet a)))
  | .sleepSet a => some ((s.setProc p ((s.proc p).sleep (.other a))).move p (.goto .sleepSwtch))
  | .sleepSwtch => s.sched c p .sleepBack
  | .sleepBack => ((s.setProc p { s.proc p with chan := none }).release c p).map (·.move p .leave)
  -- wakeup
  | .wakeLock a i => (s.acquire c i).map (·.move p (.goto (.wakeTest a i)))
  | .wakeTest a i =>
    ((s.setProc i ((s.proc i).wakeup (.other a))).release c i).map
      (·.move p (.turn (.wakeLock a) .leave i))
  -- kill
  | .killLock pid i => (s.acquire c i).map (·.move p (.goto (.killTest pid i)))
  | .killTest pid i =>
    if (s.proc i).pid = pid then
      ((s.setProc i (s.proc i).kill).release c i).map (·.move p (.answer 0))
    else (s.release c i).map (·.move p (.turn (.killLock pid) (.answer (-1)) i))
  -- fork
  | .forkLock i => (s.acquire c i).map (·.move p (.goto (.forkTest i)))
  | .forkTest i =>
    if (s.proc i).state = .unused then some (s.move p (.goto (.forkPid i)))
    else (s.release c i).map (·.move p (.turn .forkLock (.answer (-1)) i))
  | .forkPid i => some ((s.allocpid i).move p (.goto (.forkMake i)))
  | .forkMake i =>
    if e.tf = false then (s.release c i).map (·.move p (.answer (-1)))
    else if e.copy = false then ((s.setProc i .zero).release c i).map (·.move p (.answer (-1)))
    else ((s.forkMake p i).release c i).map (·.move p (.answer (s.proc i).pid))
  -- exit
  | .exitInitLock st => (s.acquire c initproc).map (·.move p (.goto (.exitInitWake st)))
  | .exitInitWake st =>
    ((s.setProc initproc ((s.proc initproc).wakeup (.proc initproc))).release c initproc).map
      (·.move p (.goto (.exitSelfLock st)))
  | .exitSelfLock st => (s.acquire c p).map (·.move p (.goto (.exitParent st)))
  | .exitParent st =>
    match (s.proc p).parent with
    | some op => (s.release c p).map (·.move p (.goto (.exitParentLock st op)))
    | none => none
  | .exitParentLock st op => (s.acquire c op).map (·.move p (.goto (.exitLock st op)))
  | .exitLock st op => (s.acquire c p).map (·.move p (.goto (.exitReparent st op 0)))
  | .exitReparent st op i =>
    if (s.proc i).parent = some p then some (s.move p (.goto (.exitChildLock st op i)))
    else some (s.move p (.turn (.exitReparent st op) (.goto (.exitZombie st op)) i))
  | .exitChildLock st op i => (s.acquire c i).map (·.move p (.goto (.exitChildSet st op i)))
  | .exitChildSet st op i =>
    ((s.setProc i { s.proc i with parent := some initproc }).release c i).map
      (·.move p (.turn (.exitReparent st op) (.goto (.exitZombie st op)) i))
  | .exitZombie st op => ((s.exitZombie p op st).release c op).map (·.move p (.goto .exitSwtch))
  | .exitSwtch => s.sched c p .exitDead
  | .exitDead => none
  -- wait
  | .waitLock => (s.acquire c p).map (·.move p (.goto (.waitScan false 0)))
  | .waitScan hk i =>
    if (s.proc i).parent = some p then some (s.move p (.goto (.waitChildLock hk i)))
    else some (s.move p (.turn (.waitScan hk) (.goto (.waitEnd hk)) i))
  | .waitChildLock _ i => (s.acquire c i).map (·.move p (.goto (.waitTest i)))
  | .waitTest i =>
    if (s.proc i).state = .zombie then
      if e.copy = false then (s.release c i).map (·.move p (.goto (.waitReturn (-1))))
      else ((s.reap p i).release c i).map (·.move p (.goto (.waitReturn (s.proc i).pid)))
    else (s.release c i).map (·.move p (.turn (.waitScan true) (.goto (.waitEnd true)) i))
  | .waitReturn v => (s.release c p).map (·.move p (.answer v))
  | .waitEnd hk =>
    if hk = false ∨ (s.proc p).killed then (s.release c p).map (·.move p (.answer (-1)))
    else some ((s.setProc p ((s.proc p).sleep (.proc p))).move p (.goto .waitSwtch))
  | .waitSwtch => s.sched c p .waitBack
  | .waitBack =>
    some ((s.setProc p { s.proc p with chan := none }).move p (.goto (.waitScan false 0)))

def schedStep (s : State C A) (c : C) : SchedPc A → Option (State C A)
  | .lock i => (s.acquire c i).map (·.setCpu c { s.cpu c with pc := .test i })
  | .test i =>
    if (s.proc i).state = .runnable then
      some ((s.setProc i { s.proc i with state := .running }).setCpu c
        { s.cpu c with proc := some i, pc := .swtch i })
    else (s.release c i).map (·.setCpu c { s.cpu c with pc := forward .lock (.lock 0) i })
  | .swtch i => some (s.setCpu c { s.cpu c with on := some i, pc := .back i })
  | .back i =>
    (s.release c i).map (·.setCpu c { s.cpu c with proc := none, pc := forward .lock (.lock 0) i })
  | .wakeLock a i => (s.acquire c i).map (·.setCpu c { s.cpu c with pc := .wakeTest a i })
  | .wakeTest a i =>
    ((s.setProc i ((s.proc i).wakeup (.other a))).release c i).map
      (·.setCpu c { s.cpu c with pc := forward (.wakeLock a) (.lock 0) i })

/-- The first step of a call. `exit` panics in `initproc`. -/
def call (s : State C A) (p : Slot) : Call A → Option (State C A)
  | .fork => some (s.move p (.goto (.forkLock 0)))
  | .exit st => if p = initproc then none else some (s.move p (.goto (.exitInitLock st)))
  | .wait => some (s.move p (.goto .waitLock))
  | .kill pid => some (s.move p (.goto (.killLock pid 0)))
  | .sleep a => some (s.move p (.goto (.sleepLock a)))
  | .wakeup a => some (s.move p (.goto (.wakeLock a 0)))
  | .yield => some (s.move p (.goto .yieldLock))
  | .fault => some (s.setProc p { s.proc p with killed := true })

end State

/-- The CPU holds no process lock, so interrupts may be on. -/
def Free (s : State C A) (c : C) : Prop := ∀ l, s.lock l ≠ some c

instance (s : State C A) (c : C) : Decidable (Free s c) := inferInstanceAs (Decidable (∀ _, _))

/-- **One step.** `none`: the CPU waits for a lock, or has stopped in a panic. -/
def step (s : State C A) : Act C A → Option (State C A)
  | .run c e =>
    match (s.cpu c).on with
    | some p => s.procStep c p e (s.thread p).pc
    | none => s.schedStep c (s.cpu c).pc
  | .call c k =>
    match (s.cpu c).on with
    | some p => if (s.thread p).pc = .run then s.call p k else none
    | none => none
  | .tick c =>
    match (s.cpu c).on with
    | some p =>
      if Free s c ∧ (s.proc p).state = .running then some (s.move p (.interrupt .yieldLock)) else none
    | none => none
  | .device c a =>
    match (s.cpu c).on with
    | some p => if Free s c then some (s.move p (.interrupt (.wakeLock a 0))) else none
    | none =>
      if (s.cpu c).pc = .lock 0 then some (s.setCpu c { s.cpu c with pc := .wakeLock a 0 }) else none

/-- The state in which the schedulers start: `userinit` has made `initproc`, with pid `1`. -/
def State.init : State C A where
  proc := update (fun _ => .zero) initproc { Proc.zero with state := .runnable, pid := 1 }
  lock := fun _ => none
  nextpid := 2
  cpu := fun _ => ⟨none, none, .lock 0⟩
  thread := fun _ => .fresh
  hist := ⟨fun _ => 0, [(initproc, 0, 1)], [], []⟩

end Xv6.Sched
