import Xv6.Sched.Tree

/-!
# Exactly-once reaping

* `Books`: the history. A process is known by its slot and by how many processes that slot had held
  before; its pid is the one it was born with, its status the one it exited with.
* **`process_tree`**: the process tree stays connected, `wait` returns each exited process at most once,
  and nobody but `initproc` sleeps in `wait` while a child is a zombie.
-/

namespace Xv6.Sched

open Runs
open Function (update update_of_ne update_self)

variable {C A : Type} [DecidableEq C] [DecidableEq A]

def Reap.proc (r : Reap) : Slot × ℕ := (r.slot, r.gen)

def recProc (x : Slot × ℕ × Int32) : Slot × ℕ := (x.1, x.2.1)

/-- **The history fits the table.** -/
structure Books (s : State C A) : Prop where
  born : ∀ i, (s.proc i).state ≠ .unused → (i, s.hist.gen i, (s.proc i).pid) ∈ s.hist.born
  bornOld : ∀ x ∈ s.hist.born, x.2.1 ≤ s.hist.gen x.1
  bornOnce : (s.hist.born.map recProc).Nodup
  exited : ∀ i, (s.proc i).state = .zombie → (i, s.hist.gen i, (s.proc i).xstate) ∈ s.hist.exited
  exitedOld : ∀ x ∈ s.hist.exited,
    x.2.1 ≤ s.hist.gen x.1 ∧ ((s.proc x.1).Live → x.2.1 < s.hist.gen x.1)
  exitedOnce : (s.hist.exited.map recProc).Nodup
  reaped : ∀ r ∈ s.hist.reaped,
    (r.slot, r.gen, r.pid) ∈ s.hist.born ∧ (r.slot, r.gen, r.status) ∈ s.hist.exited
  reapedOld : ∀ r ∈ s.hist.reaped,
    r.gen ≤ s.hist.gen r.slot ∧ ((s.proc r.slot).state ≠ .unused → r.gen < s.hist.gen r.slot)
  reapedOnce : (s.hist.reaped.map Reap.proc).Nodup

namespace Books

variable {s s' : State C A}

section

omit [DecidableEq C] [DecidableEq A]

theorem fits (h : Books s) (hu : ∀ i, (s'.proc i).state = .unused ↔ (s.proc i).state = .unused)
    (hz : ∀ i, (s'.proc i).state = .zombie ↔ (s.proc i).state = .zombie)
    (hpid : ∀ i, (s.proc i).state ≠ .unused → (s'.proc i).pid = (s.proc i).pid)
    (hx : ∀ i, (s.proc i).state = .zombie → (s'.proc i).xstate = (s.proc i).xstate)
    (hh : s'.hist = s.hist) : Books s' := by
  constructor <;> rw [hh]
  · intro i hi
    have hi' := mt (hu i).2 hi
    rw [hpid i hi']
    exact h.born i hi'
  · exact h.bornOld
  · exact h.bornOnce
  · intro i hi
    have hi' := (hz i).1 hi
    rw [hx i hi']
    exact h.exited i hi'
  · intro x hx
    have := h.exitedOld x hx
    exact ⟨this.1, fun hl => this.2 ⟨mt (hu x.1).2 hl.1, mt (hz x.1).2 hl.2⟩⟩
  · exact h.exitedOnce
  · exact h.reaped
  · intro r hr
    have := h.reapedOld r hr
    exact ⟨this.1, fun hl => this.2 (mt (hu r.slot).2 hl)⟩
  · exact h.reapedOnce

theorem keep (h : Books s) {m : Option Slot} (hk : Keeps s s' m) : Books s' :=
  h.fits hk.unused hk.zombie hk.pid hk.xstate hk.hist

theorem adopt (h : Books s) {i : Slot}
    (hp : s'.proc = update s.proc i { s.proc i with parent := some initproc })
    (hh : s'.hist = s.hist) : Books s' := by
  refine h.fits (fun j => ?_) (fun j => ?_) (fun j _ => ?_) (fun j _ => ?_) hh
  all_goals
    by_cases hj : j = i
    · subst hj
      simp [hp]
    · simp [hp, hj]

theorem fork (h : Books s) {p i : Slot}
    (hp : s'.proc = update s.proc i { s.proc i with parent := some p, state := .runnable })
    (hh : s'.hist = { s.hist with
      gen := update s.hist.gen i (s.hist.gen i + 1)
      born := (i, s.hist.gen i + 1, (s.proc i).pid) :: s.hist.born }) : Books s' := by
  have hother : ∀ j, j ≠ i → s'.proc j = s.proc j := by
    intro j hj
    simp [hp, hj]
  have hgen : ∀ j, j ≠ i → update s.hist.gen i (s.hist.gen i + 1) j = s.hist.gen j :=
    fun j hj => update_of_ne hj _ _
  have hle : ∀ j, s.hist.gen j ≤ update s.hist.gen i (s.hist.gen i + 1) j := by
    intro j
    by_cases hj : j = i
    · simp [hj]
    · rw [hgen j hj]
  have hlt : s.hist.gen i < update s.hist.gen i (s.hist.gen i + 1) i := by simp
  constructor <;> simp only [hh]
  · intro j hj
    by_cases hji : j = i
    · subst hji
      simp [hp]
    · rw [hother j hji] at hj ⊢
      rw [hgen j hji]
      exact List.mem_cons_of_mem _ (h.born j hj)
  · intro x hx
    rcases List.mem_cons.1 hx with hx | hx
    · subst hx
      simp
    · exact (h.bornOld x hx).trans (hle x.1)
  · rw [List.map_cons, List.nodup_cons]
    refine ⟨?_, h.bornOnce⟩
    intro hm
    obtain ⟨x, hx, he⟩ := List.mem_map.1 hm
    have hold := h.bornOld x hx
    simp only [recProc, Prod.mk.injEq] at he
    rw [he.1, he.2] at hold
    omega
  · intro j hj
    have hji : j ≠ i := by
      intro hji
      subst hji
      simp [hp] at hj
    rw [hother j hji] at hj ⊢
    rw [hgen j hji]
    exact h.exited j hj
  · intro x hx
    have := h.exitedOld x hx
    refine ⟨this.1.trans (hle _), fun hl => ?_⟩
    by_cases hxi : x.1 = i
    · rw [hxi] at this ⊢
      exact lt_of_le_of_lt this.1 hlt
    · rw [hgen _ hxi]
      rw [hother _ hxi] at hl
      exact this.2 hl
  · exact h.exitedOnce
  · intro r hr
    have := h.reaped r hr
    exact ⟨List.mem_cons_of_mem _ this.1, this.2⟩
  · intro r hr
    have := h.reapedOld r hr
    refine ⟨this.1.trans (hle _), fun hl => ?_⟩
    by_cases hxi : r.slot = i
    · rw [hxi] at this ⊢
      exact lt_of_le_of_lt this.1 hlt
    · rw [hgen _ hxi]
      rw [hother _ hxi] at hl
      exact this.2 hl
  · exact h.reapedOnce

theorem reap (h : Books s) {p i : Slot} (hz : (s.proc i).state = .zombie)
    (hp : s'.proc = update s.proc i .zero)
    (hh : s'.hist = { s.hist with
      reaped := ⟨p, i, s.hist.gen i, (s.proc i).pid, (s.proc i).xstate⟩ :: s.hist.reaped }) :
    Books s' := by
  have hother : ∀ j, j ≠ i → s'.proc j = s.proc j := by
    intro j hj
    simp [hp, hj]
  have hne : ∀ j, (s'.proc j).state ≠ .unused → j ≠ i ∧ (s.proc j).state ≠ .unused := by
    intro j hj
    have hji : j ≠ i := by
      intro hji
      subst hji
      simp [hp, Proc.zero] at hj
    exact ⟨hji, hother j hji ▸ hj⟩
  constructor <;> simp only [hh]
  · intro j hj
    rw [hother j (hne j hj).1]
    exact h.born j (hne j hj).2
  · exact h.bornOld
  · exact h.bornOnce
  · intro j hj
    have hji := (hne j (by simp [hj])).1
    rw [hother j hji] at hj ⊢
    exact h.exited j hj
  · intro x hx
    have := h.exitedOld x hx
    refine ⟨this.1, fun hl => this.2 ?_⟩
    rwa [hother _ (hne _ hl.1).1] at hl
  · exact h.exitedOnce
  · intro r hr
    rcases List.mem_cons.1 hr with hr | hr
    · subst hr
      exact ⟨h.born i (by simp [hz]), h.exited i hz⟩
    · exact h.reaped r hr
  · intro r hr
    rcases List.mem_cons.1 hr with hr | hr
    · subst hr
      exact ⟨le_rfl, fun hu => absurd rfl (hne i hu).1⟩
    · have := h.reapedOld r hr
      exact ⟨this.1, fun hu => this.2 (hne _ hu).2⟩
  · rw [List.map_cons, List.nodup_cons]
    refine ⟨?_, h.reapedOnce⟩
    intro hm
    obtain ⟨r, hr, he⟩ := List.mem_map.1 hm
    have hold := (h.reapedOld r hr).2
    simp only [Reap.proc, Prod.mk.injEq] at he
    rw [he.1, he.2] at hold
    exact absurd (hold (by simp [hz])) (lt_irrefl _)

end

section

omit [DecidableEq C]

theorem exit (h : Books s) {p op : Slot} {st : Int32} (hlp : (s.proc p).Live)
    (hp : s'.proc = update (update s.proc op ((s.proc op).wakeup (.proc op))) p
      { s.proc p with xstate := st, state := .zombie })
    (hh : s'.hist = { s.hist with exited := (p, s.hist.gen p, st) :: s.hist.exited }) :
    Books s' := by
  have hother : ∀ j, j ≠ p → ((s'.proc j).state = .unused ↔ (s.proc j).state = .unused) ∧
      ((s'.proc j).state = .zombie ↔ (s.proc j).state = .zombie) ∧
      (s'.proc j).pid = (s.proc j).pid ∧ (s'.proc j).xstate = (s.proc j).xstate := by
    intro j hj
    by_cases hjo : j = op
    · subst hjo
      simp only [hp, update_of_ne hj, update_self, Proc.wakeup]
      split_ifs with hw
      · simp [hw.1]
      · simp
    · simp [hp, hj, hjo]
  have hself : s'.proc p = { s.proc p with xstate := st, state := .zombie } := by simp [hp]
  constructor <;> simp only [hh]
  · intro j hj
    by_cases hjp : j = p
    · subst hjp
      rw [hself]
      exact h.born j hlp.1
    · rw [(hother j hjp).2.2.1]
      exact h.born j (mt (hother j hjp).1.2 hj)
  · exact h.bornOld
  · exact h.bornOnce
  · intro j hj
    by_cases hjp : j = p
    · subst hjp
      rw [hself]
      exact List.mem_cons_self
    · rw [(hother j hjp).2.2.2]
      exact List.mem_cons_of_mem _ (h.exited j ((hother j hjp).2.1.1 hj))
  · intro x hx
    have hlive : (s'.proc x.1).Live → x.1 ≠ p ∧ (s.proc x.1).Live := by
      intro hl
      have hxp : x.1 ≠ p := by
        intro hxp
        rw [hxp, hself] at hl
        exact hl.2 rfl
      exact ⟨hxp, mt (hother _ hxp).1.2 hl.1, mt (hother _ hxp).2.1.2 hl.2⟩
    rcases List.mem_cons.1 hx with hx | hx
    · subst hx
      exact ⟨le_rfl, fun hl => absurd rfl (hlive hl).1⟩
    · have := h.exitedOld x hx
      exact ⟨this.1, fun hl => this.2 (hlive hl).2⟩
  · rw [List.map_cons, List.nodup_cons]
    refine ⟨?_, h.exitedOnce⟩
    intro hm
    obtain ⟨x, hx, he⟩ := List.mem_map.1 hm
    have hold := (h.exitedOld x hx).2
    simp only [recProc, Prod.mk.injEq] at he
    rw [he.1, he.2] at hold
    exact absurd (hold hlp) (lt_irrefl _)
  · intro r hr
    have := h.reaped r hr
    exact ⟨this.1, List.mem_cons_of_mem _ this.2⟩
  · intro r hr
    have := h.reapedOld r hr
    refine ⟨this.1, fun hu => this.2 ?_⟩
    by_cases hrp : r.slot = p
    · rw [hrp]
      exact hlp.1
    · exact mt (hother _ hrp).1.2 hu
  · exact h.reapedOnce

theorem effect (h : Books s) {c : C} {p : Slot} (he : Effect s s' c p) : Books s' := by
  cases he with
  | keep hk => exact h.keep hk
  | adopt _ _ hp hh => exact h.adopt hp hh
  | die _ _ hl _ _ _ _ hp hh => exact h.exit hl hp hh
  | born _ _ _ hp _ hh => exact h.fork hp hh
  | free _ _ hz hp _ hh => exact h.reap hz hp hh

end

theorem step (h : Books s) (hc : Core s) (ht : Tree s) {a : Act C A}
    (hs : Sched.step s a = some s') : Books s' := by
  rcases ht.effects hc hs with hk | ⟨p, hon, heff⟩
  · exact h.keep hk
  · exact h.effect heff

omit [DecidableEq C] [DecidableEq A] in
theorem initial : Books (State.init : State C A) := by
  constructor
  · intro i hi
    by_cases h : i = initproc
    · subst h
      simp [State.init]
    · simp [State.init, h, Proc.zero] at hi
  all_goals simp [State.init, recProc]
  · intro i hi
    by_cases h : i = initproc
    · subst h
      simp at hi
    · simp [h, Proc.zero] at hi

theorem of_reach {s : State C A} {ok : State C A → Act C A → Prop}
    (h : Reach Sched.step ok (State.init : State C A) s) : Books s := by
  have hall : (Core s ∧ Tree s) ∧ Books s := by
    refine h.inv (I := fun s => (Core s ∧ Tree s) ∧ Books s) ⟨⟨Core.init, Tree.initial⟩, initial⟩ ?_
    intro s a s' ⟨⟨hc, ht⟩, hb⟩ _ hs
    exact ⟨⟨(hc.step hs).core, ht.step hc hs⟩, hb.step hc ht hs⟩
  exact hall.2

end Books

/-! ## Where a thread goes -/

def Pc.kills : Pc A → Option Int32
  | .killLock pid _ | .killTest pid _ => some pid
  | _ => none

/-- `wait` of process `p` has reaped a process and is about to return its pid, `v`, or `-1`. -/
def Reaps (s s' : State C A) (p : Slot) (v : Int32) : Prop :=
  v = -1 ∨ ∃ i, (s.proc i).pid = v ∧ s'.hist.reaped =
    ⟨p, i, s.hist.gen i, (s.proc i).pid, (s.proc i).xstate⟩ :: s.hist.reaped

/-- **Where the thread of `p` goes by a step of its own**: it returns, or moves on in the same
function. -/
inductive Goes (s s' : State C A) (p : Slot) : Prop
  | leave (v : Int32) (h : s'.thread p = { (s.thread p).leave with ret := v })
  | goto (pc : Pc A) (h : s'.thread p = (s.thread p).goto pc)
      (hk : pc.kills = none ∨ pc.kills = (s.thread p).pc.kills)
      (hw : ∀ v, pc = .waitReturn v → Reaps s s' p v)

section Goes

variable {s s₁ s' : State C A} {c : C} {p : Slot}

section

omit [DecidableEq C] [DecidableEq A]

theorem Goes.to {pc : Pc A} (h : s₁.thread p = s.thread p) (hk : pc.kills = none)
    (hw : ∀ v, pc ≠ .waitReturn v) : Goes s (s₁.move p (.goto pc)) p :=
  .goto pc (by rw [State.move_thread, h]) (.inl hk) fun v he => absurd he (hw v)

theorem Goes.back (h : s₁.thread p = s.thread p) : Goes s (s₁.move p .leave) p :=
  .leave (s.thread p).leave.ret (by rw [State.move_thread, h])

theorem Goes.answer {v : Int32} (h : s₁.thread p = s.thread p) : Goes s (s₁.move p (.answer v)) p :=
  .leave v (by rw [State.move_thread, h]; rfl)

theorem Goes.turn {loop : Slot → Pc A} {done : Thread A → Thread A} {i : Slot}
    (h : s₁.thread p = s.thread p)
    (hk : ∀ j, (loop j).kills = none ∨ (loop j).kills = (s.thread p).pc.kills)
    (hw : ∀ j v, loop j ≠ .waitReturn v) (hd : Goes s (s₁.move p done) p) :
    Goes s (s₁.move p (.turn loop done i)) p := by
  cases hn : next i with
  | none =>
    have hturn : (s₁.thread p).turn loop done i = done (s₁.thread p) := by
      simp [Thread.turn, forward, hn]
    rwa [State.move, hturn]
  | some j =>
    refine .goto (loop j) ?_ (hk j) fun v he => absurd he (hw j v)
    rw [State.move_thread, h]
    simp [Thread.turn, forward, hn]

end

theorem goes_of_procStep (hc : Core s) (hon : (s.cpu c).on = some p) {e : Env}
    (hs : s.procStep c p e (s.thread p).pc = some s') : Goes s s' p := by
  have hst := hc.status c p hon
  cases hpc : (s.thread p).pc <;> rw [hpc] at hs hst <;> simp only [State.procStep] at hs
  case run | exitDead => cases hs
  case forkret | yieldBack | sleepBack =>
    obtain ⟨-, rfl⟩ := State.of_release hs
    exact .back rfl
  case yieldLock | sleepLock | wakeLock | forkLock | exitInitLock | exitSelfLock |
      exitParentLock | exitLock | exitChildLock | waitLock | waitChildLock =>
    obtain ⟨-, rfl⟩ := State.of_acquire hs
    exact .to rfl rfl (by simp)
  case killLock =>
    obtain ⟨-, rfl⟩ := State.of_acquire hs
    exact .goto _ (State.move_thread _ _ _) (.inr (by rw [hpc]; rfl)) (by simp)
  case yieldSwtch | sleepSwtch | waitSwtch | exitSwtch =>
    obtain ⟨-, -, rfl⟩ := State.of_sched hs
    exact .goto _ (State.move_thread s p _) (.inl rfl) (by simp)
  case yieldSet | sleepSet | waitBack | forkPid =>
    cases hs
    exact .to rfl rfl (by simp)
  case wakeTest =>
    obtain ⟨-, rfl⟩ := State.of_release hs
    exact .turn rfl (fun _ => .inl rfl) (by simp) (.back rfl)
  case killTest =>
    split_ifs at hs
    · obtain ⟨-, rfl⟩ := State.of_release hs
      exact .answer rfl
    · obtain ⟨-, rfl⟩ := State.of_release hs
      exact .turn rfl (fun _ => .inr (by rw [hpc]; rfl)) (by simp) (.answer rfl)
  case forkTest =>
    split_ifs at hs
    · cases hs
      exact .to rfl rfl (by simp)
    · obtain ⟨-, rfl⟩ := State.of_release hs
      exact .turn rfl (fun _ => .inl rfl) (by simp) (.answer rfl)
  case forkMake i =>
    split_ifs at hs
    · obtain ⟨-, rfl⟩ := State.of_release hs
      exact .answer rfl
    · obtain ⟨-, rfl⟩ := State.of_release hs
      exact .answer rfl
    · obtain ⟨-, rfl⟩ := State.of_release hs
      -- the entry of the child is not that of the parent, which is running
      have hpi : p ≠ i := by
        intro hpi
        have hu := hc.spare c p i hon (by rw [hpc]; rfl)
        rw [hpi, hu] at hst
        cases hst
      exact .answer (update_of_ne hpi _ _)
  case exitInitWake | exitZombie =>
    obtain ⟨-, rfl⟩ := State.of_release hs
    exact .to rfl rfl (by simp)
  case exitParent =>
    split at hs
    · obtain ⟨-, rfl⟩ := State.of_release hs
      exact .to rfl rfl (by simp)
    · cases hs
  case exitReparent | waitScan =>
    split_ifs at hs
    · cases hs
      exact .to rfl rfl (by simp)
    · cases hs
      exact .turn rfl (fun _ => .inl rfl) (by simp) (.to rfl rfl (by simp))
  case exitChildSet =>
    obtain ⟨-, rfl⟩ := State.of_release hs
    exact .turn rfl (fun _ => .inl rfl) (by simp) (.to rfl rfl (by simp))
  case waitTest i =>
    split_ifs at hs
    · obtain ⟨-, rfl⟩ := State.of_release hs
      refine .goto _ (State.move_thread _ _ _) (.inl rfl) fun v hv => ?_
      cases hv
      exact .inl rfl
    · obtain ⟨-, rfl⟩ := State.of_release hs
      refine .goto _ (State.move_thread _ _ _) (.inl rfl) fun v hv => ?_
      cases hv
      exact .inr ⟨i, rfl, rfl⟩
    · obtain ⟨-, rfl⟩ := State.of_release hs
      exact .turn rfl (fun _ => .inl rfl) (by simp) (.to rfl rfl (by simp))
  case waitReturn =>
    obtain ⟨-, rfl⟩ := State.of_release hs
    exact .answer rfl
  case waitEnd =>
    split_ifs at hs
    · obtain ⟨-, rfl⟩ := State.of_release hs
      exact .answer rfl
    · cases hs
      exact .to rfl rfl (by simp)

end Goes

/-! ## What `wait` returns -/

/-- `wait` of process `p` has got as far as returning `v`. -/
def Returns (s s' : State C A) (p : Slot) (v : Int32) : Prop :=
  (s.thread p).pc ≠ .waitReturn v ∧ (s'.thread p).pc = .waitReturn v

/-- This step is one of `wait` in the parent of the process that `r` is about, and returns its pid. -/
structure ReapedBy (s s' : State C A) (c : C) (r : Reap) : Prop where
  on : (s.cpu c).on = some r.parent
  parent : (s.proc r.slot).parent = some r.parent
  zombie : (s.proc r.slot).state = .zombie
  pid : (s.proc r.slot).pid = r.pid
  status : (s.proc r.slot).xstate = r.status
  returns : (s'.thread r.parent).pc = .waitReturn r.pid

section Returns

variable {s s' : State C A} {c : C} {p : Slot}

section

omit [DecidableEq C] [DecidableEq A]

theorem Goes.reaps (h : Goes s s' p) (hc : Core s) {v : Int32} (hr : (s'.thread p).pc = .waitReturn v) :
    Reaps s s' p v := by
  cases h with
  | leave w h =>
    -- a thread in `wait` holds its lock, so it has not been interrupted there
    have hl := (Lands.leave (hc.idle p)).locks
    rw [h] at hr
    rw [show (s.thread p).leave.pc = .waitReturn v from hr] at hl
    cases hl
  | goto pc h _ hw =>
    rw [h] at hr
    exact hw v hr

theorem Touched.not_returns {q : Slot} {v : Int32} (h : Touched s s' c q) : ¬ Returns s s' q v := by
  intro hr
  cases h with
  | same ht | pick ht | wake ht | free ht =>
    rw [Returns, ht] at hr
    exact hr.1 hr.2
  | make ht =>
    rw [Returns, ht] at hr
    cases hr.2

end

/-- **Every `wait` that returns something has reaped a process.** -/
theorem returns_of_step (hc : Core s) {a : Act C A} (hs : step s a = some s') {v : Int32}
    (hr : Returns s s' p v) :
    v = -1 ∨ ∃ r, s'.hist.reaped = r :: s.hist.reaped ∧ r.parent = p ∧ r.pid = v := by
  by_cases hon : (s.cpu a.cpu).on = some p
  · cases a with
    | run c e =>
      simp only [step, show (s.cpu c).on = some p from hon] at hs
      rcases (goes_of_procStep hc hon hs).reaps hc hr.2 with h | ⟨i, hi, hre⟩
      · exact .inl h
      · exact .inr ⟨_, hre, rfl, hi⟩
    | call c k =>
      simp only [step, show (s.cpu c).on = some p from hon] at hs
      split_ifs at hs with hpc
      have hr' := hr.2
      cases k <;> simp only [State.call] at hs
      case exit =>
        split_ifs at hs
        cases hs
        rw [State.move_thread] at hr'
        cases hr'
      case fault =>
        cases hs
        exact absurd hr' hr.1
      all_goals
        cases hs
        rw [State.move_thread] at hr'
        cases hr'
    | tick c | device c d =>
      simp only [step, show (s.cpu c).on = some p from hon] at hs
      split_ifs at hs
      cases hs
      have hr' := hr.2
      rw [State.move_thread] at hr'
      cases hr'
  · exact absurd hr ((hc.step hs).touched p hon).not_returns

theorem reapedBy_of_step (hc : Core s) (ht : Tree s) {a : Act C A} (hs : step s a = some s') {r : Reap}
    (hr : s'.hist.reaped = r :: s.hist.reaped) : ReapedBy s s' a.cpu r := by
  have hne : s'.hist.reaped ≠ s.hist.reaped := by
    intro he
    rw [he] at hr
    exact List.cons_ne_self _ _ hr.symm
  have hkeep : ∀ {m}, ¬ Keeps s s' m := fun hk => hne (by rw [hk.hist])
  rcases ht.effects hc hs with hk | ⟨p, hon, heff⟩
  · exact absurd hk hkeep
  cases heff with
  | keep hk => exact absurd hk hkeep
  | adopt _ _ _ hh | die _ _ _ _ _ _ _ _ hh | born _ _ _ _ _ hh => exact absurd (by rw [hh]) hne
  | free i hi hz hp htr hh =>
    rw [hh] at hr
    obtain ⟨rfl, -⟩ := List.cons_eq_cons.1 hr
    exact ⟨hon, hi, hz, rfl, rfl, htr⟩

end Returns

/-- **The process tree, and exactly-once reaping.** -/
theorem process_tree {s : State C A} (h : Reach step any (State.init : State C A) s) :
    (∀ p, p ≠ initproc → (s.proc p).state ≠ .unused →
      ∃ q, (s.proc p).parent = some q ∧ (s.proc q).Live) ∧
    ((s.hist.reaped.map Reap.proc).Nodup ∧
      (s.hist.born.map recProc).Nodup ∧ (s.hist.exited.map recProc).Nodup ∧
      (∀ r ∈ s.hist.reaped,
        (r.slot, r.gen, r.pid) ∈ s.hist.born ∧ (r.slot, r.gen, r.status) ∈ s.hist.exited) ∧
      ∀ a s', step s a = some s' →
        (∀ r, s'.hist.reaped = r :: s.hist.reaped → ReapedBy s s' a.cpu r) ∧
        ∀ p v, Returns s s' p v →
          v = -1 ∨ ∃ r, s'.hist.reaped = r :: s.hist.reaped ∧ r.parent = p ∧ r.pid = v) ∧
    ∀ q, q ≠ initproc → (s.proc q).state = .sleeping → (s.thread q).pc.InWait → s.lock q = none →
      ∀ j, (s.proc j).parent = some q → (s.proc j).state ≠ .zombie := by
  obtain ⟨hc, ht⟩ := Tree.of_reach h
  have hb := Books.of_reach h
  refine ⟨ht.alive, ⟨hb.reapedOnce, hb.bornOnce, hb.exitedOnce, hb.reaped, ?_⟩, ?_⟩
  · intro a s' hs
    exact ⟨fun r hr => reapedBy_of_step hc ht hs hr, fun p v hr => returns_of_step hc hs hr⟩
  · intro q hq hsl hin _ j hj
    have hlive : (s.proc q).Live := by simp [Proc.Live, hsl]
    have hf := ht.top q hlive
    have hno : NoZombie s q fun _ => True := by
      cases hpc : (s.thread q).pc <;> rw [hpc] at hf hin <;> first | exact hf.2 hsl | exact hin.elim
    rcases hno with hi | hno
    · exact absurd hi hq
    · exact hno j trivial hj

theorem process_tree_wait :
    ∃ s s' : State (Fin 2) Unit, Reach step any State.init s ∧
      step s (.run 0 ⟨true, true⟩) = some s' ∧ ReapedBy s s' 0 ⟨0, 1, 1, 2, 7⟩ := by
  have hrun : (exec step (State.init : State (Fin 2) Unit) (forkExitWait.take 42)).any
      (fun s => (step s (.run 0 ⟨true, true⟩)).any fun s' => decide
        (s'.hist.reaped = ⟨0, 1, 1, 2, 7⟩ :: s.hist.reaped)) = true := by
    decide +kernel
  obtain ⟨s, hs, h⟩ := Reach.of_exec_any (fun _ _ _ => trivial) hrun
  obtain ⟨s', hs', h⟩ := (Option.any_eq_true _ _).1 h
  exact ⟨s, s', hs, hs', ((process_tree hs).2.1.2.2.2.2 _ s' hs').1 _ (of_decide_eq_true h)⟩

end Xv6.Sched
