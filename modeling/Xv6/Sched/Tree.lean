import Xv6.Sched.Context

/-!
# The process tree

* `Fact`: what a process that stands in `exit` or `wait` knows about its parent and its children.
* `Tree`: the invariant. Every process has a living parent, and a process that sleeps in `wait` has no
  zombie among its children.
* `Effect`: all a step can do to the tree. `Effect.rely`: what this leaves alone of another process.
* **`Tree.step`**: every step keeps the invariant.
* **`parents_lead_to_init`**: every process descends from `initproc`.
-/

namespace Xv6.Sched

open Runs
open Function (update update_apply update_of_ne update_self)

variable {C A : Type} [DecidableEq C] [DecidableEq A]

def Proc.Live (v : Proc A) : Prop := v.state ≠ .unused ∧ v.state ≠ .zombie

/-- The points of `wait` at which a process is asleep. -/
def Pc.InWait : Pc A → Prop
  | .waitSwtch | .waitBack => True
  | _ => False

/-- The points of `wait` at which it looks for a zombie, with its lock held. -/
def Pc.Scans : Pc A → Prop
  | .waitScan _ _ | .waitChildLock _ _ | .waitTest _ | .waitEnd _ => True
  | _ => False

section

omit [DecidableEq A]

theorem Pc.Scans.mem {p : Slot} {f : Pc A} (h : f.Scans) : p ∈ f.locks p := by
  cases f <;> simp_all [Pc.Scans, Pc.locks]

theorem Pc.Resumes.not_scans {f : Pc A} (h : f.Resumes) : ¬ f.Scans := by
  cases f <;> simp_all [Pc.Resumes, Pc.Scans]

end

/-! ## What a process knows -/

/-- `original_parent` is the parent of `p`, unless `p` has been given to `initproc`. -/
def Given (s : State C A) (p op : Slot) : Prop :=
  p ≠ initproc ∧ ((s.proc p).parent = some op ∨ (s.proc p).parent = some initproc)

/-- No child of `p` among those in `P` is a zombie. `initproc` gets new children at any time. -/
def NoZombie (s : State C A) (p : Slot) (P : Slot → Prop) : Prop :=
  p = initproc ∨ ∀ j, P j → (s.proc j).parent = some p → (s.proc j).state ≠ .zombie

/-- **What the thread of `p` knows at a point.** -/
def Fact (s : State C A) (p : Slot) : Pc A → Prop
  | .exitInitLock _ | .exitInitWake _ | .exitSelfLock _ | .exitParent _ => p ≠ initproc
  | .exitParentLock _ op | .exitLock _ op => Given s p op
  | .exitReparent _ op i => Given s p op ∧ ∀ j < i, (s.proc j).parent ≠ some p
  | .exitChildLock _ op i | .exitChildSet _ op i =>
    (Given s p op ∧ ∀ j < i, (s.proc j).parent ≠ some p) ∧ (s.proc i).parent = some p
  | .exitZombie _ op => Given s p op ∧ ∀ j, (s.proc j).parent ≠ some p
  | .waitScan _ i => NoZombie s p (· < i)
  | .waitChildLock _ i | .waitTest i => NoZombie s p (· < i) ∧ (s.proc i).parent = some p
  | .waitEnd _ => NoZombie s p fun _ => True
  | .waitSwtch | .waitBack => (s.proc p).chan = some (.proc p) ∧
    ((s.proc p).state = .sleeping → NoZombie s p fun _ => True)
  | _ => True

/-- **The invariant of the process tree.** -/
structure Tree (s : State C A) : Prop where
  orphan : ∀ i, (s.proc i).state = .unused → (s.proc i).parent = none
  init : (s.proc initproc).Live
  alive : ∀ p, p ≠ initproc → (s.proc p).state ≠ .unused →
    ∃ q, (s.proc p).parent = some q ∧ (s.proc q).Live
  top : ∀ p, (s.proc p).Live → Fact s p (s.thread p).pc
  frames : ∀ p, (s.proc p).Live → ∀ f ∈ (s.thread p).frames, Fact s p f

/-! ## What a step does to the tree -/

/-- A step that leaves the tree alone; `mover` is the process that makes it, if any. -/
structure Keeps (s s' : State C A) (mover : Option Slot) : Prop where
  parent : ∀ i, (s'.proc i).parent = (s.proc i).parent
  unused : ∀ i, (s'.proc i).state = .unused ↔ (s.proc i).state = .unused
  zombie : ∀ i, (s'.proc i).state = .zombie ↔ (s.proc i).state = .zombie
  chan : ∀ i, some i ≠ mover → (s.proc i).state ≠ .unused → (s'.proc i).chan = (s.proc i).chan
  pid : ∀ i, (s.proc i).state ≠ .unused → (s'.proc i).pid = (s.proc i).pid
  xstate : ∀ i, (s.proc i).state = .zombie → (s'.proc i).xstate = (s.proc i).xstate
  hist : s'.hist = s.hist

namespace Keeps

variable {s s' : State C A} {mover : Option Slot}

section

omit [DecidableEq C] [DecidableEq A]

theorem of_proc (hp : s'.proc = s.proc) (hh : s'.hist = s.hist) : Keeps s s' mover := by
  constructor <;> simp [hp, hh]

theorem of_update {i : Slot} {w : Proc A} (hp : s'.proc = update s.proc i w)
    (hh : s'.hist = s.hist) (hpar : w.parent = (s.proc i).parent)
    (hu : w.state = .unused ↔ (s.proc i).state = .unused)
    (hz : w.state = .zombie ↔ (s.proc i).state = .zombie)
    (hc : some i ≠ mover → (s.proc i).state ≠ .unused → w.chan = (s.proc i).chan)
    (hpid : (s.proc i).state ≠ .unused → w.pid = (s.proc i).pid)
    (hx : (s.proc i).state = .zombie → w.xstate = (s.proc i).xstate) : Keeps s s' mover := by
  constructor
  all_goals first
    | exact hh
    | intro j
      by_cases hj : j = i
      · subst hj
        simpa [hp] using ‹_›
      · simp [hp, hj]

end

omit [DecidableEq C] in
theorem of_wakeup {i : Slot} {ch : Chan A} (hp : s'.proc = update s.proc i ((s.proc i).wakeup ch))
    (hh : s'.hist = s.hist) : Keeps s s' mover := by
  refine of_update hp hh ?_ ?_ ?_ ?_ ?_ ?_
  all_goals
    unfold Proc.wakeup
    split_ifs with hw
    · simp [hw.1]
    · simp

section

omit [DecidableEq C] [DecidableEq A]

theorem of_kill {i : Slot} (hp : s'.proc = update s.proc i (s.proc i).kill)
    (hh : s'.hist = s.hist) : Keeps s s' mover := by
  refine of_update hp hh rfl ?_ ?_ (fun _ _ => rfl) (fun _ => rfl) (fun _ => rfl)
  all_goals
    unfold Proc.kill
    by_cases hs : (s.proc i).state = .sleeping <;> simp [hs]

theorem live (h : Keeps s s' mover) (i : Slot) : (s'.proc i).Live ↔ (s.proc i).Live := by
  simp [Proc.Live, h.unused, h.zombie]

end

end Keeps

/-- **All a step of process `p` on CPU `c` can do to the tree.** -/
inductive Effect (s s' : State C A) (c : C) (p : Slot) : Prop
  | keep (h : Keeps s s' (some p))
  | adopt (i : Slot) (hi : (s.proc i).parent = some p)
      (hp : s'.proc = update s.proc i { s.proc i with parent := some initproc })
      (hh : s'.hist = s.hist)
  | die (st : Int32) (op : Slot) (hlp : (s.proc p).Live) (hg : Given s p op) (hno : ∀ j, (s.proc j).parent ≠ some p)
      (hne : p ≠ op) (hl : s.lock op = some c)
      (hp : s'.proc = update (update s.proc op ((s.proc op).wakeup (.proc op))) p
        { s.proc p with xstate := st, state := .zombie })
      (hh : s'.hist = { s.hist with exited := (p, s.hist.gen p, st) :: s.hist.exited })
  | born (i : Slot) (hl : (s.proc p).Live) (hu : (s.proc i).state = .unused)
      (hp : s'.proc = update s.proc i { s.proc i with parent := some p, state := .runnable })
      (ht : s'.thread i = .fresh)
      (hh : s'.hist = { s.hist with
        gen := update s.hist.gen i (s.hist.gen i + 1)
        born := (i, s.hist.gen i + 1, (s.proc i).pid) :: s.hist.born })
  | free (i : Slot) (hi : (s.proc i).parent = some p) (hz : (s.proc i).state = .zombie)
      (hp : s'.proc = update s.proc i .zero)
      (ht : (s'.thread p).pc = .waitReturn (s.proc i).pid)
      (hh : s'.hist = { s.hist with
        reaped := ⟨p, i, s.hist.gen i, (s.proc i).pid, (s.proc i).xstate⟩ :: s.hist.reaped })

/-- **Every step of a process has one of these effects.** -/
theorem Tree.effect {s s' : State C A} {c : C} {p : Slot} (h : Tree s) (hc : Core s)
    (hon : (s.cpu c).on = some p) {e : Env} (hs : s.procStep c p e (s.thread p).pc = some s') :
    Effect s s' c p := by
  have hst := hc.status c p hon
  have hlive : (s.proc p).state = .running → (s.proc p).Live := by
    intro hr
    simp [Proc.Live, hr]
  have htop := fun hr => h.top p (hlive hr)
  cases hpc : (s.thread p).pc <;> rw [hpc] at hs hst htop <;> simp only [State.procStep] at hs
  case run | exitDead => cases hs
  case forkret | yieldBack | waitReturn =>
    obtain ⟨-, rfl⟩ := State.of_release hs
    exact .keep (.of_proc rfl rfl)
  case yieldLock | sleepLock | wakeLock | killLock | forkLock | exitInitLock | exitSelfLock |
      exitParentLock | exitLock | exitChildLock | waitLock | waitChildLock =>
    obtain ⟨-, rfl⟩ := State.of_acquire hs
    exact .keep (.of_proc rfl rfl)
  case yieldSwtch | sleepSwtch | waitSwtch | exitSwtch =>
    obtain ⟨-, -, rfl⟩ := State.of_sched hs
    exact .keep (.of_proc rfl rfl)
  case yieldSet | sleepSet | waitBack =>
    cases hs
    refine .keep (.of_update rfl rfl rfl ?_ ?_ (fun h => absurd rfl h) (fun _ => rfl) (fun _ => rfl))
    all_goals simp [hst, Proc.sleep, Pc.status]
  case sleepBack =>
    obtain ⟨-, rfl⟩ := State.of_release hs
    exact .keep (.of_update rfl rfl rfl Iff.rfl Iff.rfl (fun h => absurd rfl h) (fun _ => rfl)
      (fun _ => rfl))
  case wakeTest | exitInitWake =>
    obtain ⟨-, rfl⟩ := State.of_release hs
    exact .keep (.of_wakeup rfl rfl)
  case killTest pid i =>
    split_ifs at hs
    · obtain ⟨-, rfl⟩ := State.of_release hs
      exact .keep (.of_kill rfl rfl)
    · obtain ⟨-, rfl⟩ := State.of_release hs
      exact .keep (.of_proc rfl rfl)
  case forkTest i =>
    split_ifs at hs
    · cases hs
      exact .keep (.of_proc rfl rfl)
    · obtain ⟨-, rfl⟩ := State.of_release hs
      exact .keep (.of_proc rfl rfl)
  case forkPid i =>
    have hu := hc.spare c p i hon (by rw [hpc]; rfl)
    cases hs
    exact .keep (.of_update rfl rfl rfl Iff.rfl Iff.rfl (fun _ _ => rfl) (fun h => absurd hu h)
      (fun _ => rfl))
  case forkMake i =>
    have hu := hc.spare c p i hon (by rw [hpc]; rfl)
    split_ifs at hs
    · obtain ⟨-, rfl⟩ := State.of_release hs
      exact .keep (.of_proc rfl rfl)
    · obtain ⟨-, rfl⟩ := State.of_release hs
      refine .keep (.of_update rfl rfl (h.orphan i hu).symm ?_ ?_ (fun _ h => absurd hu h)
        (fun h => absurd hu h) ?_)
      all_goals simp [hu, Proc.zero]
    · obtain ⟨-, rfl⟩ := State.of_release hs
      have hip : i ≠ p := by
        intro hip
        rw [← hip, hu] at hst
        cases hst
      refine .born i (hlive hst) hu rfl ?_ rfl
      simp [State.move, State.setThread, State.setLock, State.forkMake, hip]
  case exitParent st =>
    split at hs
    · obtain ⟨-, rfl⟩ := State.of_release hs
      exact .keep (.of_proc rfl rfl)
    · cases hs
  case exitReparent | waitScan =>
    split_ifs at hs
    all_goals
      cases hs
      exact .keep (.of_proc rfl rfl)
  case exitChildSet st op i =>
    obtain ⟨-, rfl⟩ := State.of_release hs
    exact .adopt i (htop hst).2 rfl rfl
  case exitZombie st op =>
    have hne : p ≠ op := by
      have := hc.nodup c
      rw [State.held_of_on hon, hpc] at this
      simpa [Pc.locks] using this
    obtain ⟨hl, rfl⟩ := State.of_release hs
    refine .die st op (hlive hst) (htop hst).1 (htop hst).2 hne hl ?_ rfl
    simp [State.move, State.setThread, State.setLock, State.exitZombie, State.setProc, hne]
  case waitTest i =>
    split_ifs at hs with hz
    · obtain ⟨-, rfl⟩ := State.of_release hs
      exact .keep (.of_proc rfl rfl)
    · obtain ⟨-, rfl⟩ := State.of_release hs
      refine .free i (htop hst).2 hz rfl ?_ rfl
      simp [State.move, State.setThread, Thread.goto]
    · obtain ⟨-, rfl⟩ := State.of_release hs
      exact .keep (.of_proc rfl rfl)
  case waitEnd hk =>
    split_ifs at hs
    · obtain ⟨-, rfl⟩ := State.of_release hs
      exact .keep (.of_proc rfl rfl)
    · cases hs
      refine .keep (.of_update rfl rfl rfl ?_ ?_ (fun h => absurd rfl h) (fun _ => rfl) (fun _ => rfl))
      all_goals simp [hst, Proc.sleep, Pc.status]

/-! ## What other processes rely on -/

/-- What a step on CPU `c` leaves alone of a process `q` that does not make it. -/
structure Rely (s s' : State C A) (c : C) (q : Slot) : Prop where
  parent : (s'.proc q).parent = (s.proc q).parent ∨ (s'.proc q).parent = some initproc
  gain : q ≠ initproc → ∀ j, (s'.proc j).parent = some q → (s.proc j).parent = some q
  lose : ∀ j, (s.proc j).parent = some q → (s'.proc j).parent = some q
  chan : (s'.proc q).chan = (s.proc q).chan
  die : q ≠ initproc →
    (s.lock q = some c → (s.proc q).chan = some (.proc q) ∧ (s'.proc q).state = .sleeping) →
    ∀ j, (s.proc j).parent = some q → (s.proc j).state ≠ .zombie → (s'.proc j).state ≠ .zombie

omit [DecidableEq C] [DecidableEq A] in
theorem Keeps.rely {s s' : State C A} {mover : Option Slot} (h : Keeps s s' mover) (c : C) {q : Slot}
    (hq : some q ≠ mover) (hl : (s.proc q).Live) : Rely s s' c q where
  parent := .inl (h.parent q)
  gain := fun _ j hj => (h.parent j).symm.trans hj
  lose := fun j hj => (h.parent j).trans hj
  chan := h.chan q hq hl.1
  die := fun _ _ j _ hz => mt (h.zombie j).1 hz

omit [DecidableEq C] in
/-- **What a step of `p` leaves alone of another process.** -/
theorem Effect.rely {s s' : State C A} {c : C} {p q : Slot} (h : Effect s s' c p) (ht : Tree s)
    (hq : q ≠ p) (hl : (s.proc q).Live) : Rely s s' c q := by
  cases h with
  | keep hk => exact hk.rely c (by simpa using hq) hl
  | adopt i hi hp =>
    have hpar : ∀ j, j ≠ i → (s'.proc j).parent = (s.proc j).parent := by
      intro j hj
      simp [hp, hj]
    have hst : ∀ j, (s'.proc j).state = (s.proc j).state ∧ (s'.proc j).chan = (s.proc j).chan := by
      intro j
      by_cases hj : j = i
      · subst hj
        simp [hp]
      · simp [hp, hj]
    constructor
    · by_cases hqi : q = i
      · right
        simp [hp, hqi]
      · exact .inl (hpar q hqi)
    · intro hqi j hj
      by_cases hji : j = i
      · subst hji
        have hin : initproc = q := by simpa [hp] using hj
        exact absurd hin.symm hqi
      · rwa [hpar j hji] at hj
    · intro j hj
      rwa [hpar j ?_]
      intro hji
      rw [hji, hi] at hj
      exact hq (Option.some.inj hj).symm
    · exact (hst q).2
    · intro _ _ j _ hz
      rwa [(hst j).1]
  | die st op _ hg hno hne hlk hp =>
    have hpar : ∀ j, (s'.proc j).parent = (s.proc j).parent ∧ (s'.proc j).chan = (s.proc j).chan := by
      intro j
      by_cases hj : j = p
      · subst hj
        simp [hp]
      · by_cases hjo : j = op
        · subst hjo
          simp only [hp, update_of_ne hj, update_self, Proc.wakeup]
          split_ifs <;> simp
        · simp [hp, hj, hjo]
    refine ⟨.inl (hpar q).1, fun _ j hj => (hpar j).1.symm.trans hj, fun j hj => (hpar j).1.trans hj,
      (hpar q).2, ?_⟩
    intro hqi hlock j hj hz
    by_cases hjp : j = p
    · -- the parent of `p` is locked by this CPU, and has just been woken up
      subst hjp
      have hqo : q = op := by
        rcases hg.2 with hg | hg
        · exact Option.some.inj (hj.symm.trans hg)
        · exact absurd (Option.some.inj (hj.symm.trans hg)) hqi
      subst hqo
      obtain ⟨hch, hsl⟩ := hlock hlk
      rw [hp, update_of_ne hq, update_self] at hsl
      unfold Proc.wakeup at hsl
      split_ifs at hsl with hw
      exact absurd ⟨hsl, hch⟩ hw
    · by_cases hjo : j = op
      · subst hjo
        simp only [hp, update_of_ne hjp, update_self, Proc.wakeup]
        split_ifs
        · simp
        · exact hz
      · simpa [hp, hjp, hjo] using hz
  | born i _ hu hp =>
    have hpar : ∀ j, j ≠ i → s'.proc j = s.proc j := by
      intro j hj
      simp [hp, hj]
    have hqi : q ≠ i := by
      intro hqi
      exact hl.1 (hqi ▸ hu)
    constructor
    · rw [hpar q hqi]
      exact .inl rfl
    · intro _ j hj
      by_cases hji : j = i
      · subst hji
        have hpq : p = q := by simpa [hp] using hj
        exact absurd hpq.symm hq
      · rwa [hpar j hji] at hj
    · intro j hj
      rwa [hpar j ?_]
      intro hji
      rw [hji, ht.orphan i hu] at hj
      cases hj
    · rw [hpar q hqi]
    · intro _ _ j _ hz
      by_cases hji : j = i
      · subst hji
        simp [hp]
      · rwa [hpar j hji]
  | free i hi hz hp =>
    have hpar : ∀ j, j ≠ i → s'.proc j = s.proc j := by
      intro j hj
      simp [hp, hj]
    have hqi : q ≠ i := by
      intro hqi
      exact hl.2 (hqi ▸ hz)
    constructor
    · rw [hpar q hqi]
      exact .inl rfl
    · intro _ j hj
      by_cases hji : j = i
      · subst hji
        simp [hp, Proc.zero] at hj
      · rwa [hpar j hji] at hj
    · intro j hj
      rwa [hpar j ?_]
      intro hji
      rw [hji, hi] at hj
      exact hq (Option.some.inj hj).symm
    · rw [hpar q hqi]
    · intro _ _ j _ hz
      by_cases hji : j = i
      · subst hji
        simp [hp, Proc.zero]
      · rwa [hpar j hji]

namespace Rely

variable {s s' : State C A} {c : C} {q : Slot}

section

omit [DecidableEq C] [DecidableEq A]

theorem given (h : Rely s s' c q) {op : Slot} (hg : Given s q op) : Given s' q op := by
  refine ⟨hg.1, ?_⟩
  rcases h.parent with hp | hp
  · rw [hp]
    exact hg.2
  · exact .inr hp

theorem childless (h : Rely s s' c q) (hq : q ≠ initproc) {j : Slot}
    (hj : (s.proc j).parent ≠ some q) : (s'.proc j).parent ≠ some q :=
  mt (h.gain hq j) hj

theorem noZombie (h : Rely s s' c q) {P : Slot → Prop}
    (hlock : s.lock q = some c → (s.proc q).chan = some (.proc q) ∧ (s'.proc q).state = .sleeping)
    (hz : NoZombie s q P) : NoZombie s' q P := by
  by_cases hq : q = initproc
  · exact .inl hq
  · refine .inr fun j hP hj => ?_
    have hj' := h.gain hq j hj
    exact h.die hq hlock j hj' (hz.resolve_left hq j hP hj')

end

omit [DecidableEq C] [DecidableEq A] in
/-- **What a process knows stays true while others move.** -/
theorem fact (h : Rely s s' c q) {f : Pc A} (hlock : f.Scans → s.lock q ≠ some c)
    (hsleep : (s'.proc q).state = .sleeping → (s.proc q).state = .sleeping) (hf : Fact s q f) :
    Fact s' q f := by
  cases f
  case exitParentLock | exitLock => exact h.given hf
  case exitReparent => exact ⟨h.given hf.1, fun j hj => h.childless hf.1.1 (hf.2 j hj)⟩
  case exitChildLock | exitChildSet =>
    exact ⟨⟨h.given hf.1.1, fun j hj => h.childless hf.1.1.1 (hf.1.2 j hj)⟩, h.lose _ hf.2⟩
  case exitZombie => exact ⟨h.given hf.1, fun j => h.childless hf.1.1 (hf.2 j)⟩
  case waitScan | waitEnd =>
    exact h.noZombie (fun hl => absurd hl (hlock trivial)) hf
  case waitChildLock | waitTest =>
    exact ⟨h.noZombie (fun hl => absurd hl (hlock trivial)) hf.1, h.lose _ hf.2⟩
  case waitSwtch | waitBack =>
    refine ⟨h.chan.trans hf.1, fun hs => ?_⟩
    exact h.noZombie (fun _ => ⟨hf.1, hs⟩) (hf.2 (hsleep hs))
  all_goals exact hf

end Rely

/-! ## What a process learns by its own step -/

structure Knows (s : State C A) (p : Slot) (t : Thread A) : Prop where
  top : Fact s p t.pc
  frames : ∀ f ∈ t.frames, Fact s p f

namespace Knows

variable {s s' : State C A} {p : Slot} {t : Thread A} (hf : ∀ f ∈ t.frames, Fact s p f)

include hf

section

omit [DecidableEq C] [DecidableEq A]

theorem goto {pc : Pc A} (h : Fact s p pc) : Knows s p (t.goto pc) := ⟨h, hf⟩

theorem leave : Knows s p t.leave := by
  unfold Thread.leave
  cases ht : t.frames with
  | nil => exact ⟨trivial, by simp⟩
  | cons f fs =>
    rw [ht] at hf
    exact ⟨hf f (by simp), fun x hx => hf x (by simp [hx])⟩

end

section

omit [DecidableEq C] [DecidableEq A]

theorem answer (v : Int32) : Knows s p (t.answer v) := by
  have h := leave hf
  exact ⟨h.top, h.frames⟩

theorem turn {loop : Slot → Pc A} {done : Thread A → Thread A} {i : Slot}
    (hl : ∀ j, (∀ k, k < j ↔ k < i ∨ k = i) → Fact s p (loop j))
    (hd : (∀ k, k < i ∨ k = i) → Knows s p (done t)) : Knows s p (t.turn loop done i) := by
  unfold Thread.turn forward next
  split_ifs with hi
  · refine goto hf (hl _ fun k => ?_)
    rw [Fin.lt_def, Fin.lt_def, Fin.ext_iff]
    exact Nat.lt_succ_iff_lt_or_eq
  · refine hd fun k => ?_
    rw [Fin.lt_def, Fin.ext_iff]
    have := k.2
    omega

/-- A turn of the loop over the children in `exit`: it goes on, or no child is left. -/
theorem reparent {st : Int32} {op i : Slot} (hg : Given s p op)
    (hno : ∀ k, k < i ∨ k = i → (s.proc k).parent ≠ some p) :
    Knows s p (t.turn (.exitReparent st op) (.goto (.exitZombie st op)) i) :=
  .turn hf (fun _ hj => ⟨hg, fun k hk => hno k ((hj k).1 hk)⟩) fun hall =>
    .goto hf ⟨hg, fun k => hno k (hall k)⟩

/-- A turn of the loop over the children in `wait`. -/
theorem scan {i : Slot} {loop : Slot → Pc A} {pc : Pc A} (h : NoZombie s p (· < i))
    (hi : (s.proc i).parent = some p → (s.proc i).state ≠ .zombie)
    (hl : ∀ j, NoZombie s p (· < j) → Fact s p (loop j))
    (hd : NoZombie s p (fun _ => True) → Fact s p pc) : Knows s p (t.turn loop (.goto pc) i) := by
  have hno : ∀ {P : Slot → Prop}, (∀ k, P k → k < i ∨ k = i) → NoZombie s p P := by
    intro P hP
    refine h.imp_right fun h k hk hkp => ?_
    rcases hP k hk with hk | hk
    · exact h k hk hkp
    · exact hk ▸ hi (hk ▸ hkp)
  exact .turn hf (fun j hj => hl j (hno fun k => (hj k).1)) fun hall => .goto hf (hd (hno fun k _ => hall k))

end

end Knows

omit [DecidableEq C] in
theorem Effect.own_parent {s s' : State C A} {c : C} {p : Slot} (h : Effect s s' c p)
    (hl : (s.proc p).Live) :
    (s'.proc p).parent = (s.proc p).parent ∨ (s'.proc p).parent = some initproc := by
  cases h with
  | keep hk => exact .inl (hk.parent p)
  | adopt i hi hp =>
    by_cases hpi : p = i
    · right
      simp [hp, hpi]
    · left
      simp [hp, hpi]
  | die st op _ hg hno hne hlk hp =>
    left
    simp [hp]
  | born i _ hu hp =>
    have hpi : p ≠ i := by
      intro hpi
      exact hl.1 (hpi ▸ hu)
    left
    simp [hp, hpi]
  | free i hi hz hp =>
    have hpi : p ≠ i := by
      intro hpi
      exact hl.2 (hpi ▸ hz)
    left
    simp [hp, hpi]

section

omit [DecidableEq C] [DecidableEq A]

theorem Fact.of_idle {s s' : State C A} {p : Slot} {f : Pc A} (hf : Fact s p f) (hl : f.locks p = [])
    (hp : (s'.proc p).parent = (s.proc p).parent ∨ (s'.proc p).parent = some initproc) :
    Fact s' p f := by
  cases f
  case exitParentLock =>
    refine ⟨hf.1, ?_⟩
    rcases hp with hp | hp
    · rw [hp]
      exact hf.2
    · exact .inr hp
  all_goals first | exact hf | simp [Pc.locks] at hl

theorem State.move_thread (s : State C A) (p : Slot) (f : Thread A → Thread A) :
    (s.move p f).thread p = f (s.thread p) := update_self _ _ _

end

section

variable {s s' : State C A} {c : C} {p i : Slot} {e : Env}

theorem Knows.forkMake (hip : p ≠ i) (hf : ∀ f ∈ (s.thread p).frames, Fact s' p f)
    (hs : s.procStep c p e (.forkMake i) = some s') : Knows s' p (s'.thread p) := by
  simp only [State.procStep] at hs
  split_ifs at hs
  all_goals
    obtain ⟨-, rfl⟩ := State.of_release hs
    rw [State.move_thread]
  · exact .answer hf (-1)
  · exact .answer hf (-1)
  · have hth : ((s.forkMake p i).setLock i none).thread p = s.thread p := update_of_ne hip _ _
    rw [hth]
    exact .answer hf _

theorem Knows.exitReparent {st : Int32} {op : Slot} (htop : Fact s p (.exitReparent st op i))
    (hf : ∀ f ∈ (s.thread p).frames, Fact s' p f)
    (hs : s.procStep c p e (.exitReparent st op i) = some s') : Knows s' p (s'.thread p) := by
  simp only [State.procStep] at hs
  split_ifs at hs with hi
  all_goals
    cases hs
    rw [State.move_thread]
  · exact .goto hf ⟨htop, hi⟩
  · refine .reparent hf htop.1 fun k hk => ?_
    rcases hk with hk | hk
    · exact htop.2 k hk
    · exact hk ▸ hi

/-- The child that `exit` gives away is a child of `initproc`, and `p` is another process. -/
theorem Knows.exitChildSet {st : Int32} {op : Slot} (htop : Fact s p (.exitChildSet st op i))
    (hp : (s'.proc p).parent = (s.proc p).parent ∨ (s'.proc p).parent = some initproc)
    (hf : ∀ f ∈ (s.thread p).frames, Fact s' p f)
    (hs : s.procStep c p e (.exitChildSet st op i) = some s') : Knows s' p (s'.thread p) := by
  obtain ⟨⟨hg, hno⟩, -⟩ := htop
  have hg' : Given s' p op := ⟨hg.1, hp.elim (fun hp => hp ▸ hg.2) .inr⟩
  obtain ⟨-, rfl⟩ := State.of_release hs
  rw [State.move_thread]
  refine .reparent hf hg' fun k hk => ?_
  change (update s.proc i { s.proc i with parent := some initproc } k).parent ≠ some p
  by_cases hki : k = i
  · rw [hki, update_self]
    intro hp
    exact hg.1 (Option.some.inj hp).symm
  · rw [update_of_ne hki]
    exact hno k (hk.resolve_right hki)

theorem Knows.waitScan {hk : Bool} (htop : Fact s p (.waitScan hk i))
    (hf : ∀ f ∈ (s.thread p).frames, Fact s' p f)
    (hs : s.procStep c p e (.waitScan hk i) = some s') : Knows s' p (s'.thread p) := by
  simp only [State.procStep] at hs
  split_ifs at hs with hi
  all_goals
    cases hs
    rw [State.move_thread]
  · exact .goto hf ⟨htop, hi⟩
  · exact .scan hf htop (fun hp => absurd hp hi) (fun _ h => h) fun h => h

theorem Knows.waitTest (htop : Fact s p (.waitTest i)) (hf : ∀ f ∈ (s.thread p).frames, Fact s' p f)
    (hs : s.procStep c p e (.waitTest i) = some s') : Knows s' p (s'.thread p) := by
  simp only [State.procStep] at hs
  split_ifs at hs with hz
  all_goals
    obtain ⟨-, rfl⟩ := State.of_release hs
    rw [State.move_thread]
  · exact .goto hf trivial
  · exact .goto hf trivial
  · exact .scan hf htop.1 (fun _ => hz) (fun _ h => h) fun h => h

/-- `wait` sleeps on its own entry, and that changes no child of it into a zombie. -/
theorem Knows.waitEnd {hk : Bool} (htop : Fact s p (.waitEnd hk))
    (hf : ∀ f ∈ (s.thread p).frames, Fact s' p f)
    (hs : s.procStep c p e (.waitEnd hk) = some s') : Knows s' p (s'.thread p) := by
  simp only [State.procStep] at hs
  split_ifs at hs
  · obtain ⟨-, rfl⟩ := State.of_release hs
    rw [State.move_thread]
    exact .answer hf (-1)
  · cases hs
    rw [State.move_thread]
    refine .goto hf ⟨by simp [State.move, State.setThread, State.setProc, Proc.sleep], fun _ => ?_⟩
    refine htop.imp_right fun htop j hj hjp => ?_
    by_cases hjp' : j = p
    · subst hjp'
      simp [State.move, State.setThread, State.setProc, Proc.sleep]
    · simp only [State.move, State.setThread, State.setProc, update_of_ne hjp'] at hjp ⊢
      exact htop j hj hjp

end

/-- **What the process that makes a step knows afterwards.** -/
theorem Tree.knows {s s' : State C A} {c : C} {p : Slot} (h : Tree s) (hc : Core s)
    (hon : (s.cpu c).on = some p) {e : Env} (hs : s.procStep c p e (s.thread p).pc = some s')
    (hl' : (s'.proc p).Live) : Knows s' p (s'.thread p) := by
  have hst := hc.status c p hon
  have hown := (h.effect hc hon hs).own_parent
  have hf : (s.proc p).Live → ∀ f ∈ (s.thread p).frames, Fact s' p f := fun hl f hfr =>
    (h.frames p hl f hfr).of_idle (hc.idle p f hfr) (hown hl)
  have htop := h.top p
  cases hpc : (s.thread p).pc <;> rw [hpc] at hs hst htop <;> simp only [State.procStep] at hs
  case run | exitDead => cases hs
  case exitSwtch =>
    obtain ⟨-, -, rfl⟩ := State.of_sched hs
    exact absurd hst hl'.2
  all_goals
    have hlive : (s.proc p).Live := by simp [Proc.Live, hst, Pc.status]
    replace hf := hf hlive
    replace htop := htop hlive
  case forkret | yieldBack | sleepBack =>
    obtain ⟨-, rfl⟩ := State.of_release hs
    rw [State.move_thread]
    exact .leave hf
  case yieldLock | sleepLock | wakeLock | killLock | forkLock =>
    obtain ⟨-, rfl⟩ := State.of_acquire hs
    rw [State.move_thread]
    exact .goto hf trivial
  case exitInitLock | exitSelfLock | exitParentLock | exitChildLock | waitChildLock =>
    obtain ⟨-, rfl⟩ := State.of_acquire hs
    rw [State.move_thread]
    exact .goto hf htop
  case exitLock =>
    obtain ⟨-, rfl⟩ := State.of_acquire hs
    rw [State.move_thread]
    exact .goto hf ⟨htop, fun j hj => absurd hj (Nat.not_lt_zero j)⟩
  case waitLock =>
    obtain ⟨-, rfl⟩ := State.of_acquire hs
    rw [State.move_thread]
    exact .goto hf (.inr fun j hj => absurd hj (Nat.not_lt_zero j))
  case yieldSwtch | sleepSwtch =>
    obtain ⟨-, -, rfl⟩ := State.of_sched hs
    refine ⟨?_, ?_⟩
    · change Fact _ p (((s.move p _).thread p).pc)
      rw [State.move_thread]
      exact trivial
    · change ∀ f ∈ ((s.move p _).thread p).frames, _
      rw [State.move_thread]
      exact hf
  case waitSwtch =>
    obtain ⟨-, -, rfl⟩ := State.of_sched hs
    refine ⟨?_, ?_⟩
    · change Fact _ p (((s.move p _).thread p).pc)
      rw [State.move_thread]
      exact htop
    · change ∀ f ∈ ((s.move p _).thread p).frames, _
      rw [State.move_thread]
      exact hf
  case yieldSet | sleepSet | forkPid =>
    cases hs
    rw [State.move_thread]
    exact .goto hf trivial
  case waitBack =>
    cases hs
    rw [State.move_thread]
    exact .goto hf (.inr fun j hj => absurd hj (Nat.not_lt_zero j))
  case wakeTest =>
    obtain ⟨-, rfl⟩ := State.of_release hs
    rw [State.move_thread]
    exact .turn hf (fun _ _ => trivial) fun _ => .leave hf
  case killTest =>
    split_ifs at hs
    · obtain ⟨-, rfl⟩ := State.of_release hs
      rw [State.move_thread]
      exact .answer hf 0
    · obtain ⟨-, rfl⟩ := State.of_release hs
      rw [State.move_thread]
      exact .turn hf (fun _ _ => trivial) fun _ => .answer hf (-1)
  case forkTest =>
    split_ifs at hs
    · cases hs
      rw [State.move_thread]
      exact .goto hf trivial
    · obtain ⟨-, rfl⟩ := State.of_release hs
      rw [State.move_thread]
      exact .turn hf (fun _ _ => trivial) fun _ => .answer hf (-1)
  case forkMake i =>
    refine .forkMake (c := c) (e := e) (i := i) ?_ hf hs
    intro hip
    rw [hip, hc.spare c p i hon (by rw [hpc]; rfl)] at hst
    cases hst
  case exitInitWake =>
    obtain ⟨-, rfl⟩ := State.of_release hs
    rw [State.move_thread]
    exact .goto hf htop
  case exitParent st =>
    split at hs
    · next op hop =>
      obtain ⟨-, rfl⟩ := State.of_release hs
      rw [State.move_thread]
      exact .goto hf ⟨htop, .inl hop⟩
    · cases hs
  case exitReparent => exact .exitReparent (c := c) (e := e) htop hf hs
  case exitChildSet => exact .exitChildSet (c := c) (e := e) htop (hown hlive) hf hs
  case exitZombie st op =>
    obtain ⟨-, rfl⟩ := State.of_release hs
    refine absurd ?_ hl'.2
    simp [State.move, State.setThread, State.setLock, State.exitZombie, State.setProc]
  case waitScan => exact .waitScan (c := c) (e := e) htop hf hs
  case waitTest => exact .waitTest (c := c) (e := e) htop hf hs
  case waitReturn v =>
    obtain ⟨-, rfl⟩ := State.of_release hs
    rw [State.move_thread]
    exact .answer hf v
  case waitEnd => exact .waitEnd (c := c) (e := e) htop hf hs

/-! ## The invariant is kept -/

section

omit [DecidableEq C] [DecidableEq A]

theorem Touched.sleeping {s s' : State C A} {c : C} {q : Slot} (h : Touched s s' c q)
    (hs : (s'.proc q).state = .sleeping) : (s.proc q).state = .sleeping := by
  cases h with
  | same _ h => exact h.symm.trans hs
  | pick _ _ _ h => simp [hs] at h
  | wake _ _ _ h => simp [hs] at h
  | free _ _ _ h => simp [hs] at h
  | make _ _ _ h => simp [hs] at h

theorem Tree.assemble {s s' : State C A} {c : C} (h : Tree s) (hc : Core s) (ha : After c s s')
    (horphan : ∀ i, (s'.proc i).state = .unused → (s'.proc i).parent = none)
    (hinit : (s'.proc initproc).Live)
    (halive : ∀ p, p ≠ initproc → (s'.proc p).state ≠ .unused →
      ∃ q, (s'.proc p).parent = some q ∧ (s'.proc q).Live)
    (hself : ∀ p, (s.cpu c).on = some p → (s'.proc p).Live → Knows s' p (s'.thread p))
    (hrely : ∀ q, (s.cpu c).on ≠ some q → (s'.proc q).Live →
      (s.proc q).Live ∧ Rely s s' c q ∨ s'.thread q = .fresh) : Tree s' := by
  have hknows : ∀ q, (s'.proc q).Live → Knows s' q (s'.thread q) := by
    intro q hl
    by_cases hon : (s.cpu c).on = some q
    · exact hself q hon hl
    have hfresh : s'.thread q = .fresh → Knows s' q (s'.thread q) := by
      intro hf
      rw [hf]
      exact ⟨trivial, by simp [Thread.fresh]⟩
    rcases hrely q hon hl with hr | hf
    · have htouch := ha.touched q hon
      have hsame : s'.thread q = s.thread q → Knows s' q (s'.thread q) := by
        intro ht
        rw [ht]
        refine ⟨hr.2.fact ?_ htouch.sleeping (h.top q hr.1), fun f hf => ?_⟩
        · -- a process that scans its children executes, with its lock held, on another CPU
          intro hsc hlk
          by_cases hpark : s.Parked q
          · exact (hc.parked q hpark hr.1.1 hr.1.2).not_scans hsc
          · simp only [State.Parked, not_forall, not_not] at hpark
            obtain ⟨c', hc'⟩ := hpark
            have := hc.lock_eq hc' hsc.mem
            rw [hlk] at this
            cases this
            exact hon hc'
        · refine hr.2.fact ?_ htouch.sleeping (h.frames q hr.1 f hf)
          intro hsc
          have := hsc.mem (p := q)
          rw [hc.idle q f hf] at this
          cases this
      cases htouch with
      | same ht | pick ht | wake ht | free ht => exact hsame ht
      | make ht => exact hfresh ht
    · exact hfresh hf
  exact ⟨horphan, hinit, halive, fun q hl => (hknows q hl).top, fun q hl => (hknows q hl).frames⟩

end

omit [DecidableEq C] [DecidableEq A] in
theorem Tree.of_keeps {s s' : State C A} {c : C} (h : Tree s) (hc : Core s) (ha : After c s s')
    (hk : Keeps s s' (s.cpu c).on)
    (hself : ∀ p, (s.cpu c).on = some p → (s'.proc p).Live → Knows s' p (s'.thread p)) : Tree s' := by
  refine h.assemble hc ha ?_ ((hk.live _).2 h.init) ?_ hself ?_
  · intro i hi
    rw [hk.parent]
    exact h.orphan i ((hk.unused i).1 hi)
  · intro p hp hu
    obtain ⟨q, hq, hl⟩ := h.alive p hp (mt (hk.unused p).2 hu)
    exact ⟨q, (hk.parent p).trans hq, (hk.live q).2 hl⟩
  · intro q hq hl
    have hl' := (hk.live q).1 hl
    exact .inl ⟨hl', hk.rely c (Ne.symm hq) hl'⟩

theorem Tree.procStep {s s' : State C A} {c : C} {p : Slot} (h : Tree s) (hc : Core s)
    (hon : (s.cpu c).on = some p) {e : Env} (hs : s.procStep c p e (s.thread p).pc = some s') :
    Tree s' := by
  have ha := hc.procStep hon hs
  have heff := h.effect hc hon hs
  have hself : ∀ q, (s.cpu c).on = some q → (s'.proc q).Live → Knows s' q (s'.thread q) := by
    intro q hq hl
    rw [hon] at hq
    cases hq
    exact h.knows hc hon hs hl
  have hrely : ∀ q, (s.cpu c).on ≠ some q → (s.proc q).Live → Rely s s' c q := by
    intro q hq
    refine heff.rely h ?_
    intro hqp
    exact hq (hqp ▸ hon)
  cases heff with
  | keep hk => exact h.of_keeps hc ha (hon ▸ hk) hself
  | adopt i hi hp =>
    have hst : ∀ j, (s'.proc j).state = (s.proc j).state := by
      intro j
      by_cases hj : j = i
      · subst hj
        simp [hp]
      · simp [hp, hj]
    have hlive : ∀ j, (s'.proc j).Live ↔ (s.proc j).Live := by
      intro j
      simp only [Proc.Live, hst]
    refine h.assemble hc ha ?_ ((hlive _).2 h.init) ?_ hself ?_
    · intro j hj
      rw [hst] at hj
      by_cases hji : j = i
      · subst hji
        rw [h.orphan j hj] at hi
        cases hi
      · simpa [hp, hji] using h.orphan j hj
    · intro j hj hu
      rw [hst] at hu
      by_cases hji : j = i
      · subst hji
        exact ⟨initproc, by simp [hp], (hlive _).2 h.init⟩
      · obtain ⟨q, hq, hl⟩ := h.alive j hj hu
        exact ⟨q, by simpa [hp, hji] using hq, (hlive q).2 hl⟩
    · intro q hq hl
      have hl' := (hlive q).1 hl
      exact .inl ⟨hl', hrely q hq hl'⟩
  | die st op _ hg hno hne hlk hp =>
    have hother : ∀ j, j ≠ p → ((s'.proc j).Live ↔ (s.proc j).Live) ∧
        ((s'.proc j).state = .unused ↔ (s.proc j).state = .unused) ∧
        (s'.proc j).parent = (s.proc j).parent := by
      intro j hj
      by_cases hjo : j = op
      · subst hjo
        simp only [hp, update_of_ne hj, update_self, Proc.wakeup, Proc.Live]
        split_ifs with hw
        · simp [hw.1]
        · simp
      · simp [hp, hj, hjo]
    have hself' : (s'.proc p).state = .zombie ∧ (s'.proc p).parent = (s.proc p).parent := by
      simp [hp]
    refine h.assemble hc ha ?_ ((hother _ (Ne.symm hg.1)).1.2 h.init) ?_ hself ?_
    · intro j hj
      have hjp : j ≠ p := by
        intro hjp
        rw [hjp, hself'.1] at hj
        cases hj
      rw [(hother j hjp).2.2]
      exact h.orphan j ((hother j hjp).2.1.1 hj)
    · intro j hj hu
      have hold : (s.proc j).state ≠ .unused := by
        by_cases hjp : j = p
        · subst hjp
          intro hju
          rw [hc.status c j hon] at hju
          exact Pc.status_ne_unused _ hju
        · exact mt (hother j hjp).2.1.2 hu
      have hpar : (s'.proc j).parent = (s.proc j).parent := by
        by_cases hjp : j = p
        · exact hjp ▸ hself'.2
        · exact (hother j hjp).2.2
      obtain ⟨q, hq, hl⟩ := h.alive j hj hold
      have hqp : q ≠ p := by
        intro hqp
        exact hno j (hqp ▸ hq)
      exact ⟨q, hpar.trans hq, (hother q hqp).1.2 hl⟩
    · intro q hq hl
      have hqp : q ≠ p := by
        intro hqp
        exact hq (hqp ▸ hon)
      have hl' := (hother q hqp).1.1 hl
      exact .inl ⟨hl', hrely q hq hl'⟩
  | born i hlp hu hp ht =>
    have hother : ∀ j, j ≠ i → s'.proc j = s.proc j := by
      intro j hj
      simp [hp, hj]
    have hne : ∀ j, (s.proc j).Live → j ≠ i := by
      intro j hj hji
      exact hj.1 (hji ▸ hu)
    refine h.assemble hc ha ?_ ((hother _ (hne _ h.init)) ▸ h.init) ?_ hself ?_
    · intro j hj
      by_cases hji : j = i
      · subst hji
        simp [hp] at hj
      · rw [hother j hji] at hj ⊢
        exact h.orphan j hj
    · intro j hj hu
      by_cases hji : j = i
      · subst hji
        exact ⟨p, by simp [hp], (hother p (hne p hlp)) ▸ hlp⟩
      · rw [hother j hji] at hu ⊢
        obtain ⟨q, hq, hl⟩ := h.alive j hj hu
        exact ⟨q, hq, (hother q (hne q hl)) ▸ hl⟩
    · intro q hq hl
      by_cases hqi : q = i
      · exact .inr (hqi ▸ ht)
      · rw [hother q hqi] at hl
        exact .inl ⟨hl, hrely q hq hl⟩
  | free i hi hz hp =>
    have hother : ∀ j, j ≠ i → s'.proc j = s.proc j := by
      intro j hj
      simp [hp, hj]
    have hne : ∀ j, (s.proc j).Live → j ≠ i := by
      intro j hj hji
      exact hj.2 (hji ▸ hz)
    refine h.assemble hc ha ?_ ((hother _ (hne _ h.init)) ▸ h.init) ?_ hself ?_
    · intro j hj
      by_cases hji : j = i
      · subst hji
        simp [hp, Proc.zero]
      · rw [hother j hji] at hj ⊢
        exact h.orphan j hj
    · intro j hj hu
      have hji : j ≠ i := by
        intro hji
        subst hji
        simp [hp, Proc.zero] at hu
      rw [hother j hji] at hu ⊢
      obtain ⟨q, hq, hl⟩ := h.alive j hj hu
      exact ⟨q, hq, (hother q (hne q hl)) ▸ hl⟩
    · intro q hq hl
      have hqi : q ≠ i := by
        intro hqi
        subst hqi
        simp [hp, Proc.zero, Proc.Live] at hl
      rw [hother q hqi] at hl
      exact .inl ⟨hl, hrely q hq hl⟩

theorem schedStep_keeps {s s' : State C A} {c : C} {pc : SchedPc A} {mover : Option Slot}
    (hs : s.schedStep c pc = some s') : Keeps s s' mover := by
  cases pc <;> simp only [State.schedStep] at hs
  case lock | wakeLock =>
    obtain ⟨-, rfl⟩ := State.of_acquire hs
    exact .of_proc rfl rfl
  case test i =>
    split_ifs at hs with hr
    · cases hs
      refine .of_update rfl rfl rfl ?_ ?_ (fun _ _ => rfl) (fun _ => rfl) (fun _ => rfl)
      all_goals simp [hr]
    · obtain ⟨-, rfl⟩ := State.of_release hs
      exact .of_proc rfl rfl
  case swtch i =>
    cases hs
    exact .of_proc rfl rfl
  case back i =>
    obtain ⟨-, rfl⟩ := State.of_release hs
    exact .of_proc rfl rfl
  case wakeTest a i =>
    obtain ⟨-, rfl⟩ := State.of_release hs
    exact .of_wakeup rfl rfl

section

omit [DecidableEq C] [DecidableEq A]

theorem call_keeps {s s' : State C A} {p : Slot} {k : Call A} (hs : s.call p k = some s') :
    Keeps s s' (some p) := by
  cases k <;> simp only [State.call] at hs
  case exit =>
    split_ifs at hs
    cases hs
    exact .of_proc rfl rfl
  case fault =>
    cases hs
    exact .of_update rfl rfl rfl Iff.rfl Iff.rfl (fun _ _ => rfl) (fun _ => rfl) (fun _ => rfl)
  all_goals
    cases hs
    exact .of_proc rfl rfl

theorem Tree.call {s s' : State C A} {p : Slot} (h : Tree s) (hc : Core s) (hl : (s.proc p).Live)
    (hpc : (s.thread p).pc = .run) {k : Call A} (hs : s.call p k = some s') :
    Knows s' p (s'.thread p) := by
  have hf : ∀ f ∈ (s.thread p).frames, Fact s' p f := fun f hfr =>
    (h.frames p hl f hfr).of_idle (hc.idle p f hfr) (.inl ((call_keeps hs).parent p))
  cases k <;> simp only [State.call] at hs
  case exit st =>
    split_ifs at hs with hp
    cases hs
    rw [State.move_thread]
    exact .goto hf hp
  case fault =>
    cases hs
    refine ⟨?_, hf⟩
    change Fact _ p (s.thread p).pc
    rw [hpc]
    exact trivial
  all_goals
    cases hs
    rw [State.move_thread]
    exact .goto hf trivial

end

theorem Tree.step {s s' : State C A} {a : Act C A} (h : Tree s) (hc : Core s)
    (hs : Sched.step s a = some s') : Tree s' := by
  have ha := hc.step hs
  -- an interrupt puts a frame aside and leaves the table as it is
  have hintr : ∀ {c : C} {p : Slot} {pc : Pc A}, (s.cpu c).on = some p → Free s c →
      (∀ t : State C A, Fact t p pc) → After c s (s.move p (.interrupt pc)) → Tree (s.move p (.interrupt pc)) := by
    intro c p pc hon hfree hpc ha
    refine h.of_keeps hc ha (.of_proc rfl rfl) ?_
    intro q hq hl
    rw [hon] at hq
    cases hq
    refine ⟨?_, ?_⟩
    · rw [State.move_thread]
      exact hpc _
    · rw [State.move_thread]
      intro f hf
      rcases List.mem_cons.1 hf with hf | hf
      · rw [hf]
        exact h.top p hl
      · exact h.frames p hl f hf
  cases stepped hs with
  | proc hon hs => exact h.procStep hc hon hs
  | sched hon hs =>
    refine h.of_keeps hc ha (schedStep_keeps hs) ?_
    intro p hp
    cases hon.symm.trans hp
  | @call c k p _ hon hpc hs =>
    have hk := call_keeps hs
    refine h.of_keeps hc ha (c := c) (hon ▸ hk) ?_
    intro q hq hl
    have hqp : q = p := Option.some.inj (hq.symm.trans hon)
    subst hqp
    exact h.call hc ((hk.live q).1 hl) hpc hs
  | interrupt hon hf hpc =>
    refine hintr hon hf ?_ ha
    rcases hpc with rfl | ⟨d, rfl⟩ <;> exact fun _ => trivial
  | device hon hpc =>
    refine h.of_keeps hc ha (.of_proc rfl rfl) ?_
    intro p hp
    cases hon.symm.trans hp

/-- **Every step leaves the tree alone or has one of the effects.** -/
theorem Tree.effects {s s' : State C A} {a : Act C A} (h : Tree s) (hc : Core s) (hs : Sched.step s a = some s') :
    Keeps s s' none ∨ ∃ p, (s.cpu a.cpu).on = some p ∧ Effect s s' a.cpu p := by
  cases stepped hs with
  | proc hon hs => exact .inr ⟨_, hon, h.effect hc hon hs⟩
  | sched hon hs => exact .inl (schedStep_keeps hs)
  | call hon hpc hs => exact .inr ⟨_, hon, .keep (call_keeps hs)⟩
  | interrupt hon hf hpc => exact .inl (.of_proc rfl rfl)
  | device hon hpc => exact .inl (.of_proc rfl rfl)

omit [DecidableEq C] [DecidableEq A] in
theorem Tree.initial : Tree (State.init : State C A) := by
  have hinit : (State.init : State C A).proc initproc =
      { Proc.zero with state := .runnable, pid := 1 } := by simp [State.init]
  have hother : ∀ p, p ≠ initproc → (State.init : State C A).proc p = .zero := by
    intro p hp
    simp [State.init, hp]
  constructor
  · intro i hi
    by_cases h : i = initproc
    · rw [h, hinit]
      rfl
    · rw [hother i h]
      rfl
  · rw [hinit]
    simp [Proc.Live]
  · intro p hp hu
    rw [hother p hp] at hu
    exact absurd rfl hu
  · intro p _
    exact trivial
  · intro p _ f hf
    cases hf

theorem Tree.of_reach {s : State C A} {ok : State C A → Act C A → Prop}
    (h : Reach Sched.step ok (State.init : State C A) s) : Core s ∧ Tree s :=
  h.inv (I := fun s => Core s ∧ Tree s) ⟨Core.init, Tree.initial⟩
    fun _ _ _ hi _ hs => ⟨(hi.1.step hs).core, hi.2.step hi.1 hs⟩

/-! ## The root of the tree -/

/-- The parents descend to `initproc` in some order. -/
def Ranked (s : State C A) : Prop :=
  ∃ rank : Slot → ℕ, rank initproc = 0 ∧ ∀ i q, (s.proc i).parent = some q → rank q < rank i

section

omit [DecidableEq C] [DecidableEq A]

theorem Ranked.of_parent {s s' : State C A} (h : Ranked s)
    (hp : ∀ i q, (s'.proc i).parent = some q → (s.proc i).parent = some q) : Ranked s' := by
  obtain ⟨rank, hinit, hrank⟩ := h
  exact ⟨rank, hinit, fun i q hq => hrank i q (hp i q hq)⟩

theorem Tree.childless {s : State C A} (h : Tree s) (hr : Ranked s) {i : Slot} (hi : (s.proc i).state = .unused)
    (j : Slot) : (s.proc j).parent ≠ some i := by
  intro hj
  obtain ⟨rank, hinit, hrank⟩ := hr
  have hne : j ≠ initproc := by
    rintro rfl
    have := hrank _ _ hj
    omega
  have hu : (s.proc j).state ≠ .unused := by
    intro hu
    rw [h.orphan j hu] at hj
    cases hj
  obtain ⟨q, hq, hlive⟩ := h.alive j hne hu
  rw [hj] at hq
  cases hq
  exact hlive.1 hi

end

omit [DecidableEq C] in
theorem Ranked.effect {s s' : State C A} {c : C} {p : Slot} (h : Ranked s) (ht : Tree s) (he : Effect s s' c p) :
    Ranked s' := by
  cases he with
  | keep hk => exact h.of_parent fun i q hq => hk.parent i ▸ hq
  | adopt i hi hp hh =>
    obtain ⟨rank, hinit, hrank⟩ := h
    refine ⟨rank, hinit, fun j q hq => ?_⟩
    simp only [hp, update_apply] at hq
    split_ifs at hq with hj
    · cases hq
      have := hrank i p hi
      rw [hj]
      omega
    · exact hrank j q hq
  | die st op hlp hg hno hne hl hp hh =>
    refine h.of_parent fun j q hq => ?_
    simp only [hp, update_apply, Proc.wakeup] at hq
    split_ifs at hq with hj hj
    · rwa [hj]
    · rwa [hj]
    · rwa [hj]
    · exact hq
  | born i hl hu hp htr hh =>
    -- the new process is above its parent, and nobody is above it
    have hchild := ht.childless h hu
    obtain ⟨rank, hinit, hrank⟩ := h
    have hne : initproc ≠ i := fun he => ht.init.1 (he ▸ hu)
    have hpi : p ≠ i := fun he => hl.1 (he ▸ hu)
    refine ⟨update rank i (rank p + 1), by rwa [update_of_ne hne], fun j q hq => ?_⟩
    simp only [hp, update_apply] at hq
    split_ifs at hq with hj
    · cases hq
      rw [hj, update_self, update_of_ne hpi]
      exact Nat.lt_succ_self _
    · have hqi : q ≠ i := fun he => hchild j (he ▸ hq)
      rw [update_of_ne hj, update_of_ne hqi]
      exact hrank j q hq
  | free i hi hz hp htr hh =>
    refine h.of_parent fun j q hq => ?_
    simp only [hp, update_apply] at hq
    split_ifs at hq with hj
    · cases hq
    · exact hq

theorem ranked_of_reach {s : State C A} (h : Reach Sched.step any (State.init : State C A) s) : Tree s ∧ Ranked s := by
  have hall := h.inv (I := fun s => (Core s ∧ Tree s) ∧ Ranked s) ⟨⟨Core.init, Tree.initial⟩, fun _ => 0, rfl, ?_⟩ ?_
  · exact ⟨hall.1.2, hall.2⟩
  · intro i q hq
    by_cases hi : i = initproc <;> simp [State.init, hi, Proc.zero] at hq
  · rintro s a s' ⟨⟨hc, ht⟩, hr⟩ - hs
    refine ⟨⟨(hc.step hs).core, ht.step hc hs⟩, ?_⟩
    rcases ht.effects hc hs with hk | ⟨p, -, he⟩
    · exact hr.of_parent fun i q hq => hk.parent i ▸ hq
    · exact hr.effect ht he

/-- **The family of `initproc`.** In every run the parents lead from each process to `initproc`, which has none, over
processes that have not exited. -/
theorem parents_lead_to_init {s : State C A} (h : Reach Sched.step any (State.init : State C A) s) :
    (s.proc initproc).parent = none ∧ ∀ p, (s.proc p).state ≠ .unused →
      Relation.ReflTransGen (fun i q => (s.proc i).parent = some q ∧ (s.proc q).Live) p initproc := by
  obtain ⟨ht, rank, hinit, hrank⟩ := ranked_of_reach h
  refine ⟨?_, fun p hp => ?_⟩
  · refine Option.eq_none_iff_forall_ne_some.2 fun q hq => ?_
    have := hrank _ _ hq
    omega
  · -- by induction on the rank, which is lower for the parent
    induction hn : rank p using Nat.strong_induction_on generalizing p with
    | _ n ih =>
      by_cases hi : p = initproc
      · rw [hi]
      · obtain ⟨q, hq, hlive⟩ := ht.alive p hi hp
        exact .head ⟨hq, hlive⟩ (ih (rank q) (hn ▸ hrank p q hq) q hlive.1 rfl)

theorem parents_lead_to_init_fork : ∃ s : State (Fin 2) Unit, Reach Sched.step any State.init s ∧
    (s.proc 1).state ≠ .unused ∧
    Relation.ReflTransGen (fun i q => (s.proc i).parent = some q ∧ (s.proc q).Live) 1 initproc := by
  have hrun : (exec Sched.step (State.init : State (Fin 2) Unit) (forkExitWait.take 42)).any
      (fun s => decide ((s.proc 1).state ≠ .unused)) = true := by decide +kernel
  obtain ⟨s, hs, h⟩ := Reach.of_exec_any (fun _ _ _ => trivial) hrun
  exact ⟨s, hs, of_decide_eq_true h, (parents_lead_to_init hs).2 1 (of_decide_eq_true h)⟩

end Xv6.Sched
