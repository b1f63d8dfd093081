import Xv6.Sched.Reap

/-!
# Kill and new processes

`allocproc` does not set `p->killed`: a new process has what the entry was left with. `kill` looks at
the pids of all entries, also of the unused ones, whose pid is `0` or, after an `allocproc` that found
no page for the trapframe, a pid nobody has.

* `Plain`: what a step other than that of `allocpid` leaves alone of entries that nobody uses.
* `Clean`: unused entries are not marked as killed, and none has a pid somebody may kill.
* **`starts_unkilled`**: so it is when nobody kills pid `0` and `allocproc` always gets its page.
* `starts_killed`: otherwise a process can be killed before it is born.
-/

namespace Xv6.Sched

open Runs
open Function (update update_of_ne update_self)

variable {C A : Type} [DecidableEq C] [DecidableEq A]

/-- The calls of `kill` of a thread, interrupted or not, are of a pid other than `0`. -/
def Thread.Aims (t : Thread A) : Prop := ∀ f ∈ t.pc :: t.frames, f.kills ≠ some 0

namespace Thread.Aims

variable {t : Thread A}

section

omit [DecidableEq A]

theorem goto (h : t.Aims) {pc : Pc A} (hpc : pc.kills ≠ some 0) : (t.goto pc).Aims := by
  intro f hf
  rcases List.mem_cons.1 hf with hf | hf
  · exact hf ▸ hpc
  · exact h f (List.mem_cons_of_mem _ hf)

theorem leave (h : t.Aims) : t.leave.Aims := by
  unfold Thread.leave
  cases hfr : t.frames with
  | nil => simp [Aims, Pc.kills]
  | cons g gs =>
    intro f hf
    exact h f (List.mem_cons_of_mem _ (hfr ▸ hf))

theorem interrupt (h : t.Aims) {pc : Pc A} (hpc : pc.kills = none) : (t.interrupt pc).Aims := by
  intro f hf
  rcases List.mem_cons.1 hf with hf | hf
  · rw [hf, show (Thread.interrupt pc t).pc = pc from rfl, hpc]
    nofun
  · exact h f hf

theorem fresh : (Thread.fresh : Thread A).Aims := by
  simp [Aims, Thread.fresh, Pc.kills]

end

end Thread.Aims

/-- **Unused entries are clean.** One that `fork` is about to fill has a pid already. -/
structure Clean (s : State C A) : Prop where
  killed : ∀ i, (s.proc i).state = .unused → (s.proc i).killed = false
  pid : ∀ i, (s.proc i).state = .unused →
    (s.proc i).pid = 0 ∨ ∃ p, (s.proc p).Live ∧ (s.thread p).pc = .forkMake i
  aims : ∀ p, (s.thread p).Aims

/-! ## Steps that hand out no pid -/

def Thread.Past (t : Thread A) : Prop := ∀ i, t.pc ≠ .forkMake i

namespace Thread.Past

variable {p : Slot} {t : Thread A} (hi : ∀ f ∈ t.frames, f.locks p = [])

section

omit [DecidableEq A]

theorem of_idle {pc : Pc A} (h : pc.locks p = []) (i : Slot) : pc ≠ .forkMake i := by
  rintro rfl
  cases h

theorem goto {pc : Pc A} (h : ∀ i, pc ≠ .forkMake i) : (t.goto pc).Past := h

end

omit [DecidableEq A] in
include hi in
theorem leave : t.leave.Past := of_idle (Lands.leave hi).locks

omit [DecidableEq A] in
include hi in
theorem answer (v : Int32) : (t.answer v).Past := of_idle (Lands.answer hi v).locks

omit [DecidableEq A] in
theorem turn {loop : Slot → Pc A} {done : Thread A → Thread A} {i : Slot}
    (hl : ∀ j i, loop j ≠ .forkMake i) (hd : (done t).Past) : (t.turn loop done i).Past := by
  unfold Thread.turn forward
  cases next i with
  | none => exact hd
  | some j => exact hl j

end Thread.Past

/-- **A step of process `p` that hands out no pid.** Entries nobody uses stay as they are, up to the one
that `fork` fills and one that `kill` finds. -/
structure Plain (s s' : State C A) (p : Slot) : Prop where
  nextpid : s'.nextpid = s.nextpid
  unused : ∀ i, (s.proc i).state = .unused → (s.thread p).pc ≠ .forkMake i →
    (s'.proc i).state = .unused ∧ (s'.proc i).pid = (s.proc i).pid ∧
      ((s'.proc i).killed = (s.proc i).killed ∨ (s.thread p).pc = .killTest (s.proc i).pid i)
  past : (s'.thread p).Past

namespace Plain

variable {s s₁ s' : State C A} {c : C} {p : Slot} {f : Thread A → Thread A}

section

omit [DecidableEq C] [DecidableEq A]

theorem of_move (hp : s₁.proc = s.proc) (hn : s₁.nextpid = s.nextpid) (ht : s₁.thread p = s.thread p)
    (hf : (f (s.thread p)).Past) : Plain s (s₁.move p f) p where
  nextpid := hn
  unused := by
    intro i hi _
    change (s₁.proc i).state = _ ∧ (s₁.proc i).pid = _ ∧ ((s₁.proc i).killed = _ ∨ _)
    rw [hp]
    exact ⟨hi, rfl, .inl rfl⟩
  past := by
    rw [State.move_thread, ht]
    exact hf

theorem of_update {j : Slot} {w : Proc A} (hp : s₁.proc = update s.proc j w)
    (hn : s₁.nextpid = s.nextpid) (ht : s₁.thread p = s.thread p) (hf : (f (s.thread p)).Past)
    (hw : (s.proc j).state = .unused → (s.thread p).pc ≠ .forkMake j →
      w.state = .unused ∧ w.pid = (s.proc j).pid ∧
        (w.killed = (s.proc j).killed ∨ (s.thread p).pc = .killTest (s.proc j).pid j)) : Plain s (s₁.move p f) p where
  nextpid := hn
  unused := by
    intro i hi hpc
    change (s₁.proc i).state = _ ∧ (s₁.proc i).pid = _ ∧ ((s₁.proc i).killed = _ ∨ _)
    rw [hp]
    by_cases hij : i = j
    · subst hij
      rw [update_self]
      exact hw hi hpc
    · rw [update_of_ne hij]
      exact ⟨hi, rfl, .inl rfl⟩
  past := by
    rw [State.move_thread, ht]
    exact hf

end

theorem wakeup_eq_self {v : Proc A} {ch : Chan A} (h : v.state = .unused) : v.wakeup ch = v := by
  simp [Proc.wakeup, h]

theorem of_procStep (hc : Core s) (hon : (s.cpu c).on = some p) {e : Env}
    (hs : s.procStep c p e (s.thread p).pc = some s') (hne : ∀ i, (s.thread p).pc ≠ .forkPid i) :
    Plain s s' p := by
  have hst := hc.status c p hon
  have hi := hc.idle p
  -- its own entry is not an unused one
  have hself : ∀ {w : Proc A}, (s.proc p).state = .unused → (s.thread p).pc ≠ .forkMake p →
      w.state = .unused ∧ w.pid = (s.proc p).pid ∧
        (w.killed = (s.proc p).killed ∨ (s.thread p).pc = .killTest (s.proc p).pid p) :=
    fun hu => absurd (hst.symm.trans hu) (Pc.status_ne_unused _)
  cases hpc : (s.thread p).pc <;> rw [hpc] at hs <;> simp only [State.procStep] at hs
  case run | exitDead => cases hs
  case forkPid i => exact absurd hpc (hne i)
  case forkret | yieldBack =>
    obtain ⟨-, rfl⟩ := State.of_release hs
    exact .of_move rfl rfl rfl (.leave hi)
  case sleepBack =>
    obtain ⟨-, rfl⟩ := State.of_release hs
    exact .of_update rfl rfl rfl (.leave hi) hself
  case yieldLock | sleepLock | wakeLock | killLock | forkLock | exitInitLock | exitSelfLock |
      exitParentLock | exitLock | exitChildLock | waitLock | waitChildLock =>
    obtain ⟨-, rfl⟩ := State.of_acquire hs
    exact .of_move rfl rfl rfl (.goto (by simp))
  case yieldSwtch | sleepSwtch | waitSwtch | exitSwtch =>
    obtain ⟨-, -, rfl⟩ := State.of_sched hs
    refine ⟨rfl, fun i hu _ => ⟨hu, rfl, .inl rfl⟩, ?_⟩
    change ((s.move p _).thread p).Past
    rw [State.move_thread]
    exact .goto (by simp)
  case yieldSet | sleepSet | waitBack =>
    cases hs
    exact .of_update rfl rfl rfl (.goto (by simp)) hself
  case wakeTest =>
    obtain ⟨-, rfl⟩ := State.of_release hs
    refine .of_update rfl rfl rfl (.turn (by simp) (.leave hi)) fun hu _ => ?_
    rw [wakeup_eq_self hu]
    exact ⟨hu, rfl, .inl rfl⟩
  case killTest pid j =>
    split_ifs at hs with hpid
    · obtain ⟨-, rfl⟩ := State.of_release hs
      exact .of_update rfl rfl rfl (.answer hi 0) fun hu _ => ⟨by simp [Proc.kill, hu], rfl, .inr (hpid ▸ hpc)⟩
    · obtain ⟨-, rfl⟩ := State.of_release hs
      exact .of_move rfl rfl rfl (.turn (by simp) (.answer hi _))
  case forkTest =>
    split_ifs at hs
    · cases hs
      exact .of_move rfl rfl rfl (.goto (by simp))
    · obtain ⟨-, rfl⟩ := State.of_release hs
      exact .of_move rfl rfl rfl (.turn (by simp) (.answer hi _))
  case forkMake i =>
    split_ifs at hs
    · obtain ⟨-, rfl⟩ := State.of_release hs
      exact .of_move rfl rfl rfl (.answer hi _)
    · obtain ⟨-, rfl⟩ := State.of_release hs
      exact .of_update rfl rfl rfl (.answer hi _) fun _ hn => absurd hpc hn
    · obtain ⟨-, rfl⟩ := State.of_release hs
      have hpi : p ≠ i := by
        intro hpi
        have hu := hc.spare c p i hon (by rw [hpc]; rfl)
        exact absurd (hst.symm.trans (hpi ▸ hu)) (Pc.status_ne_unused _)
      exact .of_update rfl rfl (update_of_ne hpi _ _) (.answer hi _) fun _ hn => absurd hpc hn
  case exitInitWake =>
    obtain ⟨-, rfl⟩ := State.of_release hs
    refine .of_update rfl rfl rfl (.goto (by simp)) fun hu _ => ?_
    rw [wakeup_eq_self hu]
    exact ⟨hu, rfl, .inl rfl⟩
  case exitParent =>
    split at hs
    · obtain ⟨-, rfl⟩ := State.of_release hs
      exact .of_move rfl rfl rfl (.goto (by simp))
    · cases hs
  case exitReparent | waitScan =>
    split_ifs at hs
    · cases hs
      exact .of_move rfl rfl rfl (.goto (by simp))
    · cases hs
      exact .of_move rfl rfl rfl (.turn (by simp) (.goto (by simp)))
  case exitChildSet =>
    obtain ⟨-, rfl⟩ := State.of_release hs
    exact .of_update rfl rfl rfl (.turn (by simp) (.goto (by simp))) fun hu _ => ⟨hu, rfl, .inl rfl⟩
  case exitZombie st op =>
    obtain ⟨-, rfl⟩ := State.of_release hs
    refine ⟨rfl, ?_, ?_⟩
    · intro i hu hn
      have hip : i ≠ p := fun h => absurd (hst.symm.trans (h ▸ hu)) (Pc.status_ne_unused _)
      by_cases hio : i = op
      · subst hio
        simp [State.move, State.setThread, State.setLock, State.exitZombie, State.setProc, hip,
          wakeup_eq_self hu, hu]
      · simp [State.move, State.setThread, State.setLock, State.exitZombie, State.setProc, hip, hio, hu]
    · rw [State.move_thread]
      exact .goto (by simp)
  case waitTest i =>
    split_ifs at hs with hz
    · obtain ⟨-, rfl⟩ := State.of_release hs
      exact .of_move rfl rfl rfl (.goto (by simp))
    · obtain ⟨-, rfl⟩ := State.of_release hs
      exact .of_update rfl rfl rfl (.goto (by simp)) fun hu _ => by simp [hu] at hz
    · obtain ⟨-, rfl⟩ := State.of_release hs
      exact .of_move rfl rfl rfl (.turn (by simp) (.goto (by simp)))
  case waitReturn =>
    obtain ⟨-, rfl⟩ := State.of_release hs
    exact .of_move rfl rfl rfl (.answer hi _)
  case waitEnd =>
    split_ifs at hs
    · obtain ⟨-, rfl⟩ := State.of_release hs
      exact .of_move rfl rfl rfl (.answer hi _)
    · cases hs
      exact .of_update rfl rfl rfl (.goto (by simp)) hself

omit [DecidableEq C] [DecidableEq A] in
theorem of_call (hst : (s.proc p).state = (s.thread p).pc.status) (hpc : (s.thread p).pc = .run) {k : Call A}
    (hs : s.call p k = some s') : Plain s s' p := by
  cases k <;> simp only [State.call] at hs
  case exit =>
    split_ifs at hs
    cases hs
    exact .of_move rfl rfl rfl (.goto (by simp))
  case fault =>
    cases hs
    refine ⟨rfl, ?_, fun i => by simp [State.setProc, hpc]⟩
    intro i hu _
    have hip : i ≠ p := fun h => absurd (hst.symm.trans (h ▸ hu)) (Pc.status_ne_unused _)
    simpa [State.setProc, hip] using hu
  all_goals
    cases hs
    exact .of_move rfl rfl rfl (.goto (by simp))

end Plain

/-! ## Unused entries -/

/-- **All a step of process `p` can do to an entry that is unused afterwards.** -/
inductive Spares (s s' : State C A) (p : Slot) (e : Env) (i : Slot) : Prop
  | zero (h : s'.proc i = .zero)
  | same (hu : (s.proc i).state = .unused) (hk : (s'.proc i).killed = (s.proc i).killed)
      (h : (s'.proc i).pid = (s.proc i).pid) (hpc : (s.thread p).pc ≠ .forkMake i)
  | kill (hu : (s.proc i).state = .unused) (hpc : (s.thread p).pc = .killTest (s.proc i).pid i)
  | give (hu : (s.proc i).state = .unused) (hk : (s'.proc i).killed = (s.proc i).killed)
      (hl : (s'.proc p).Live) (hpc : (s'.thread p).pc = .forkMake i)
  | fail (hpc : (s.thread p).pc = .forkMake i) (he : e.tf = false)

section Steps

variable {s s' : State C A} {c : C} {p : Slot} {e : Env}

omit [DecidableEq C] [DecidableEq A] in
theorem Spares.other {i : Slot} (hp : s'.proc i = s.proc i) (hpc : (s.thread p).pc ≠ .forkMake i)
    (hu : (s'.proc i).state = .unused) : Spares s s' p e i := by
  rw [hp] at hu
  exact .same hu (by rw [hp]) (by rw [hp]) hpc

theorem Proc.unused_of_wakeup {v : Proc A} {ch : Chan A} (h : (v.wakeup ch).state = .unused) :
    v.state = .unused ∧ (v.wakeup ch).killed = v.killed ∧ (v.wakeup ch).pid = v.pid := by
  unfold Proc.wakeup at h ⊢
  split_ifs at h ⊢ with hw
  exact ⟨h, rfl, rfl⟩

omit [DecidableEq C] in
theorem Effect.freed (h : Effect s s' c p) {i : Slot} (hold : (s.proc i).state ≠ .unused)
    (hu : (s'.proc i).state = .unused) : s'.proc i = .zero := by
  cases h with
  | keep hk => exact absurd ((hk.unused i).1 hu) hold
  | adopt j _ hp | born j _ _ hp =>
    by_cases hij : i = j
    · subst hij
      simp [hp, hold] at hu
    · simp [hp, hij, hold] at hu
  | free j _ _ hp =>
    by_cases hij : i = j
    · rw [hp, hij, update_self]
    · simp [hp, hij, hold] at hu
  | die st op _ _ _ _ _ hp =>
    by_cases hip : i = p
    · subst hip
      simp [hp] at hu
    · by_cases hio : i = op
      · subst hio
        rw [hp, update_of_ne hip, update_self] at hu
        exact absurd (Proc.unused_of_wakeup hu).1 hold
      · simp [hp, hip, hio, hold] at hu

theorem spares_of_procStep (hc : Core s) (ht : Tree s) (hon : (s.cpu c).on = some p)
    (hs : s.procStep c p e (s.thread p).pc = some s') {i : Slot}
    (hu : (s'.proc i).state = .unused) : Spares s s' p e i := by
  by_cases hold : (s.proc i).state = .unused
  · by_cases hforks : ∃ j, (s.thread p).pc = .forkPid j
    · obtain ⟨j, hpc⟩ := hforks
      have hst := hc.status c p hon
      simp only [hpc, State.procStep] at hs hst
      cases hs
      by_cases hij : i = j
      · subst hij
        have hne : p ≠ i := fun hpi => absurd (hst.symm.trans (hpi ▸ hold)) (Pc.status_ne_unused _)
        refine .give hold ?_ ?_ ?_
        · simp [State.move, State.setThread, State.allocpid, State.setProc]
        · simp [State.move, State.setThread, State.allocpid, State.setProc, hne, Proc.Live, hst, Pc.status]
        · rw [State.move_thread]
          rfl
      · exact .other (update_of_ne hij _ _) (by simp [hpc]) hu
    · by_cases hmake : (s.thread p).pc = .forkMake i
      · simp only [hmake, State.procStep] at hs
        split_ifs at hs with htf hcp
        · exact .fail hmake htf
        · obtain ⟨-, rfl⟩ := State.of_release hs
          exact .zero (update_self _ _ _)
        · obtain ⟨-, rfl⟩ := State.of_release hs
          simp [State.move, State.setThread, State.setLock, State.forkMake, State.setProc] at hu
      · obtain ⟨-, hpid, hk⟩ := (Plain.of_procStep hc hon hs (not_exists.1 hforks)).unused i hold hmake
        rcases hk with hk | hk
        · exact .same hold hk hpid hmake
        · exact .kill hold hk
  · exact .zero ((ht.effect hc hon hs).freed hold hu)

theorem unused_of_schedStep {pc : SchedPc A} (hs : s.schedStep c pc = some s') {i : Slot}
    (hu : (s'.proc i).state = .unused) : (s.proc i).state = .unused ∧
      (s'.proc i).killed = (s.proc i).killed ∧ (s'.proc i).pid = (s.proc i).pid := by
  have hupd : ∀ {j w}, s'.proc = update s.proc j w → (w.state = .unused →
      (s.proc j).state = .unused ∧ w.killed = (s.proc j).killed ∧ w.pid = (s.proc j).pid) →
      (s.proc i).state = .unused ∧
        (s'.proc i).killed = (s.proc i).killed ∧ (s'.proc i).pid = (s.proc i).pid := by
    intro j w hp hw
    rw [hp] at hu ⊢
    by_cases hij : i = j
    · subst hij
      rw [update_self] at hu ⊢
      exact hw hu
    · rw [update_of_ne hij] at hu ⊢
      exact ⟨hu, rfl, rfl⟩
  cases pc <;> simp only [State.schedStep] at hs
  case lock | wakeLock =>
    obtain ⟨-, rfl⟩ := State.of_acquire hs
    exact ⟨hu, rfl, rfl⟩
  case test j =>
    split_ifs at hs
    · cases hs
      exact hupd rfl (by simp)
    · obtain ⟨-, rfl⟩ := State.of_release hs
      exact ⟨hu, rfl, rfl⟩
  case swtch =>
    cases hs
    exact ⟨hu, rfl, rfl⟩
  case back =>
    obtain ⟨-, rfl⟩ := State.of_release hs
    exact ⟨hu, rfl, rfl⟩
  case wakeTest =>
    obtain ⟨-, rfl⟩ := State.of_release hs
    exact hupd rfl Proc.unused_of_wakeup

section

omit [DecidableEq C] [DecidableEq A]

/-- **The thread that makes a step goes on with the `kill` it is in.** -/
theorem Goes.aims (h : Goes s s' p) (ha : (s.thread p).Aims) : (s'.thread p).Aims := by
  cases h with
  | leave v h => exact h ▸ ha.leave
  | goto pc h hk =>
    rw [h]
    refine ha.goto ?_
    rcases hk with hk | hk
    · simp [hk]
    · exact hk ▸ ha _ List.mem_cons_self

theorem Touched.live {q : Slot} (h : Touched s s' c q) (hl : (s.proc q).Live) :
    (s'.proc q).Live ∧ s'.thread q = s.thread q := by
  cases h with
  | same ht hs => exact ⟨by rwa [Proc.Live, hs], ht⟩
  | pick ht _ _ hs => exact ⟨by simp [Proc.Live, hs], ht⟩
  | wake ht _ _ hs => exact ⟨by simp [Proc.Live, hs], ht⟩
  | free _ _ hs => exact absurd hs hl.2
  | make _ _ hs => exact absurd hs hl.1

theorem Touched.aims {q : Slot} (h : Touched s s' c q) (ha : (s.thread q).Aims) :
    (s'.thread q).Aims := by
  cases h with
  | same ht | pick ht | wake ht | free ht => exact ht ▸ ha
  | make ht => exact ht ▸ Thread.Aims.fresh

end

end Steps

/-! ## Clean entries -/

/-- **What must not happen**: somebody kills pid `0`, or `allocproc` finds no page for the trapframe. -/
def Careful (s : State C A) : Act C A → Prop
  | .call _ (.kill pid) => pid ≠ 0
  | .run c e => ∀ p i, (s.cpu c).on = some p → (s.thread p).pc = .forkMake i → e.tf = true
  | _ => True

namespace Clean

variable {s s' : State C A} {c : C} {p : Slot}

section

omit [DecidableEq C] [DecidableEq A]

theorem kill_ne (h : Clean s) (hc : Core s) (hon : (s.cpu c).on = some p) {pid : Int32} {i : Slot}
    (hpc : (s.thread p).pc = .killTest pid i) (hu : (s.proc i).state = .unused) :
    (s.proc i).pid ≠ pid := by
  intro hpid
  rcases h.pid i hu with h0 | ⟨q, hq, hqpc⟩
  · have := h.aims p _ List.mem_cons_self
    rw [hpc, ← hpid, h0] at this
    exact this rfl
  · have hpark : ¬ s.Parked q := by
      intro hpark
      have := hc.parked q hpark hq.1 hq.2
      rw [hqpc] at this
      exact this
    obtain ⟨c', hon'⟩ := not_forall_not.1 hpark
    have h₁ := hc.lock_eq hon (l := i) (by rw [hpc]; exact List.mem_singleton_self i)
    have h₂ := hc.lock_eq hon' (l := i) (by rw [hqpc]; exact List.mem_singleton_self i)
    rw [h₁] at h₂
    cases h₂
    rw [hon] at hon'
    cases hon'
    rw [hpc] at hqpc
    cases hqpc

theorem not_forkMake (hc : Core s) (hon : (s.cpu c).on = some p) (hf : Free s c) (i : Slot) :
    (s.thread p).pc ≠ .forkMake i := by
  intro hpc
  refine hf i (hc.lock_eq hon ?_)
  rw [hpc]
  exact List.mem_singleton_self i

theorem keep (h : Clean s) (ht : ∀ q, (s'.thread q).Aims)
    (hu : ∀ i, (s'.proc i).state = .unused → (s.proc i).state = .unused ∧
      (s'.proc i).killed = (s.proc i).killed ∧ (s'.proc i).pid = (s.proc i).pid)
    (hq : ∀ q i, (s.proc q).Live → (s.thread q).pc = .forkMake i →
      (s'.proc q).Live ∧ s'.thread q = s.thread q) : Clean s' where
  killed := by
    intro i hi
    rw [(hu i hi).2.1]
    exact h.killed i (hu i hi).1
  pid := by
    intro i hi
    rw [(hu i hi).2.2]
    refine (h.pid i (hu i hi).1).imp_right ?_
    rintro ⟨q, hl, hpc⟩
    have := hq q i hl hpc
    exact ⟨q, this.1, this.2 ▸ hpc⟩
  aims := ht

end

theorem procStep (h : Clean s) (hc : Core s) (ht : Tree s) (ha : After c s s') (hon : (s.cpu c).on = some p) {e : Env}
    (hok : ∀ i, (s.thread p).pc = .forkMake i → e.tf = true)
    (hs : s.procStep c p e (s.thread p).pc = some s') : Clean s' where
  killed := by
    intro i hi
    cases spares_of_procStep hc ht hon hs hi with
    | zero h => simp [h, Proc.zero]
    | same hu hk => exact hk.trans (h.killed i hu)
    | kill hu hpc => exact absurd rfl (h.kill_ne hc hon hpc hu)
    | give hu hk => exact hk.trans (h.killed i hu)
    | fail hpc he => exact absurd (hok i hpc) (by simp [he])
  pid := by
    intro i hi
    cases spares_of_procStep hc ht hon hs hi with
    | zero h => exact .inl (by simp [h, Proc.zero])
    | same hu _ hpid hpc =>
      rw [hpid]
      refine (h.pid i hu).imp_right ?_
      rintro ⟨q, hl, hq⟩
      have hqp : (s.cpu c).on ≠ some q := by
        intro hcq
        rw [hon] at hcq
        cases hcq
        exact hpc hq
      have := (ha.touched q hqp).live hl
      exact ⟨q, this.1, this.2 ▸ hq⟩
    | kill hu hpc => exact absurd rfl (h.kill_ne hc hon hpc hu)
    | give _ _ hl hpc => exact .inr ⟨p, hl, hpc⟩
    | fail hpc he => exact absurd (hok i hpc) (by simp [he])
  aims := by
    intro q
    by_cases hq : (s.cpu c).on = some q
    · rw [hon] at hq
      cases hq
      exact (goes_of_procStep hc hon hs).aims (h.aims p)
    · exact (ha.touched q hq).aims (h.aims q)

omit [DecidableEq C] [DecidableEq A] in
theorem of_thread (h : Clean s) (hproc : s'.proc = s.proc) {t : Thread A}
    (hthr : s'.thread = update s.thread p t) (ht : t.Aims)
    (hpc : ∀ i, (s.thread p).pc ≠ .forkMake i) : Clean s' := by
  refine h.keep ?_ ?_ ?_
  · intro q
    by_cases hq : q = p
    · rw [hthr, hq, update_self]
      exact ht
    · rw [hthr, update_of_ne hq]
      exact h.aims q
  · intro i hi
    rw [hproc] at hi ⊢
    exact ⟨hi, rfl, rfl⟩
  · intro q i hl hq
    have hqp : q ≠ p := by
      intro hqp
      exact hpc i (hqp ▸ hq)
    rw [hproc, hthr, update_of_ne hqp]
    exact ⟨hl, rfl⟩

theorem step (h : Clean s) (hc : Core s) (ht : Tree s) {a : Act C A} (hok : Careful s a)
    (hs : Sched.step s a = some s') : Clean s' := by
  have ha := hc.step hs
  cases stepped hs with
  | proc hon hs => exact h.procStep hc ht ha hon (fun i hi => hok _ i hon hi) hs
  | sched hon hs =>
    have hne : ∀ q, (s.cpu _).on ≠ some q := fun q hq => Option.some_ne_none q (hq.symm.trans hon)
    exact h.keep (fun q => (ha.touched q (hne q)).aims (h.aims q)) (fun i hi => unused_of_schedStep hs hi)
      fun q i hl _ => (ha.touched q (hne q)).live hl
  | @call c k p _ hon hpc hs =>
    have hne : ∀ i, (s.thread p).pc ≠ .forkMake i := by simp [hpc]
    cases k <;> simp only [State.call] at hs
    case exit =>
      split_ifs at hs
      cases hs
      exact h.of_thread rfl rfl ((h.aims p).goto (by intro hk; cases hk)) hne
    case kill pid =>
      cases hs
      refine h.of_thread rfl rfl ((h.aims p).goto ?_) hne
      intro h0
      exact hok (Option.some.inj h0)
    case fault =>
      have hst := hc.status c p hon
      rw [hpc] at hst
      cases hs
      refine h.keep h.aims ?_ ?_
      · intro i hi
        have hip : i ≠ p := by
          intro hip
          subst hip
          simp [State.setProc, hst, Pc.status] at hi
        simpa [State.setProc, hip] using hi
      · intro q i hl hq
        have hqp : q ≠ p := fun hqp => hne i (hqp ▸ hq)
        simpa [State.setProc, hqp] using hl
    all_goals
      cases hs
      exact h.of_thread rfl rfl ((h.aims p).goto (by intro hk; cases hk)) hne
  | interrupt hon hf hpc =>
    refine h.of_thread rfl rfl ((h.aims _).interrupt ?_) (not_forkMake hc hon hf)
    rcases hpc with rfl | ⟨d, rfl⟩ <;> rfl
  | device => exact h.keep h.aims (fun i hi => ⟨hi, rfl, rfl⟩) fun q i hl _ => ⟨hl, rfl⟩

omit [DecidableEq C] [DecidableEq A] in
theorem initial : Clean (State.init : State C A) where
  killed := by
    intro i
    by_cases hi : i = initproc
    · simp [State.init, hi]
    · simp [State.init, hi, Proc.zero]
  pid := by
    intro i hu
    by_cases hi : i = initproc
    · simp [State.init, hi] at hu
    · simp [State.init, hi, Proc.zero]
  aims := fun _ => Thread.Aims.fresh

theorem of_reach (h : Reach Sched.step Careful (State.init : State C A) s) : Clean s := by
  have hall : (Core s ∧ Tree s) ∧ Clean s := by
    refine h.inv (I := fun s => (Core s ∧ Tree s) ∧ Clean s) ⟨⟨Core.init, Tree.initial⟩, initial⟩ ?_
    intro s a s' ⟨⟨hc, ht⟩, hcl⟩ hok hs
    exact ⟨⟨(hc.step hs).core, ht.step hc hs⟩, hcl.step hc ht hok hs⟩
  exact hall.2

end Clean

/-! ## What `fork` makes and what `kill` answers -/

def Makes (s s' : State C A) (i : Slot) : Prop :=
  (s.proc i).state = .unused ∧ (s'.proc i).state = .runnable

instance (s s' : State C A) (i : Slot) : Decidable (Makes s s' i) :=
  inferInstanceAs (Decidable (_ ∧ _))

/-- `kill(pid)` of process `p`, which executes on `c`, returns `0`. -/
def KillsOk (s s' : State C A) (c : C) (p : Slot) (pid : Int32) : Prop :=
  (s.cpu c).on = some p ∧ (∃ i, (s.thread p).pc = .killTest pid i) ∧
    s'.thread p = (s.thread p).answer 0

section Answers

variable {s s' : State C A} {c : C} {p : Slot}

theorem killed_of_makes (hc : Core s) (ht : Tree s) {a : Act C A} (hs : step s a = some s') {i : Slot}
    (hm : Makes s s' i) : (s'.proc i).killed = (s.proc i).killed := by
  obtain ⟨hu, hr⟩ := hm
  have hkeep : ∀ {m}, ¬ Keeps s s' m := by
    intro m hk
    have := (hk.unused i).2 hu
    rw [hr] at this
    cases this
  rcases ht.effects hc hs with hk | ⟨p, -, heff⟩
  · exact absurd hk hkeep
  cases heff with
  | keep hk => exact absurd hk hkeep
  | adopt j _ hp | born j _ _ hp | free j _ _ hp =>
    by_cases hij : i = j
    · subst hij
      simp [hp, Proc.zero, hu] at hr ⊢
    · rw [hp, update_of_ne hij]
  | die st op _ _ _ _ _ hp =>
    by_cases hip : i = p
    · subst hip
      simp [hp] at hr
    · by_cases hio : i = op
      · subst hio
        simp [hp, hip, Proc.wakeup, hu] at hr
      · rw [hp, update_of_ne hip, update_of_ne hio]

omit [DecidableEq A] in
theorem Thread.goto_ne_answer (t : Thread A) {w : Pc A} (hw : w ≠ .run) (v : Int32) :
    t.goto w ≠ t.answer v := by
  intro he
  cases hf : t.frames with
  | nil =>
    have := congrArg Thread.pc he
    simp [Thread.goto, Thread.answer, Thread.leave, hf] at this
    exact hw this
  | cons f fs =>
    have := congrArg Thread.frames he
    simp [Thread.goto, Thread.answer, Thread.leave, hf] at this

/-- **`kill` returns `0` when it has found an entry with the pid.** -/
theorem found_of_killsOk (hc : Core s) {a : Act C A} (hs : step s a = some s') {pid : Int32}
    (hk : KillsOk s s' a.cpu p pid) : ∃ i, (s.thread p).pc = .killTest pid i ∧ (s.proc i).pid = pid := by
  obtain ⟨hon, ⟨i, hpc⟩, hans⟩ := hk
  refine ⟨i, hpc, ?_⟩
  have hlock : s.lock i = some a.cpu := hc.lock_eq hon (by rw [hpc]; exact List.mem_singleton_self i)
  cases stepped hs with
  | @proc c e q _ hon' hs =>
    cases hon.symm.trans hon'
    simp only [hpc, State.procStep] at hs
    by_contra hne
    rw [if_neg hne] at hs
    obtain ⟨-, rfl⟩ := State.of_release hs
    rw [State.move_thread] at hans
    change (s.thread p).turn (.killLock pid) (.answer (-1)) i = _ at hans
    unfold Thread.turn forward at hans
    cases hn : next i with
    | some j =>
      rw [hn] at hans
      exact (s.thread p).goto_ne_answer (w := .killLock pid j) (by simp) 0 hans
    | none =>
      rw [hn] at hans
      exact absurd (show (-1 : Int32) = 0 from congrArg Thread.ret hans) (by decide)
  | sched hon' | device hon' => cases hon.symm.trans hon'
  | call hon' hpc' =>
    cases hon.symm.trans hon'
    cases hpc.symm.trans hpc'
  | interrupt _ hf => exact absurd hlock (hf i)

end Answers

/-- **A new process starts unkilled.** In every careful run, a process that `fork` makes runnable is not
marked as killed, and `kill` returns `0` only when it has found a process. -/
theorem starts_unkilled {s s' : State C A} {a : Act C A}
    (h : Reach step Careful (State.init : State C A) s) (hs : step s a = some s') :
    (∀ i, Makes s s' i → (s'.proc i).killed = false) ∧
    ∀ p pid, KillsOk s s' a.cpu p pid → ∃ i, (s.proc i).state ≠ .unused ∧ (s.proc i).pid = pid := by
  obtain ⟨hc, ht⟩ := Tree.of_reach h
  have hcl := Clean.of_reach h
  constructor
  · intro i hm
    rw [killed_of_makes hc ht hs hm]
    exact hcl.killed i hm.1
  · intro p pid hk
    obtain ⟨i, hpc, hpid⟩ := found_of_killsOk hc hs hk
    exact ⟨i, fun hu => hcl.kill_ne hc hk.1 hpc hu hpid, hpid⟩

/-- `initproc` calls `kill(pid)`, which takes `n` steps, and then `fork`, up to its last step. -/
def killThenFork (pid : Int32) (n : ℕ) : List (Act (Fin 2) Unit) :=
  steps 0 4 ++ [.call 0 (.kill pid)] ++ steps 0 n ++ [.call 0 .fork] ++ steps 0 5

theorem careful_killThenFork {pid : Int32} (h : pid ≠ 0) (n : ℕ) (s : State (Fin 2) Unit) :
    ∀ a ∈ killThenFork pid n, Careful s a := by
  have hsteps : ∀ n, ∀ a ∈ steps 0 n, Careful s a := by
    intro n a ha
    rw [List.eq_of_mem_replicate ha]
    exact fun _ _ _ _ => rfl
  intro a ha
  simp only [killThenFork, List.mem_append, List.mem_singleton] at ha
  rcases ha with (((ha | ha) | ha) | ha) | ha
  · exact hsteps 4 a ha
  · exact ha ▸ h
  · exact hsteps n a ha
  · exact ha ▸ trivial
  · exact hsteps 5 a ha

theorem starts_unkilled_fork :
    ∃ s s' : State (Fin 2) Unit, Reach step Careful State.init s ∧
      step s (.run 0 ⟨true, true⟩) = some s' ∧ Makes s s' 1 ∧ (s'.proc 1).killed = false := by
  have hrun : (exec step (State.init : State (Fin 2) Unit) (killThenFork 1 2)).any
      (fun s => (step s (.run 0 ⟨true, true⟩)).any fun s' => decide (Makes s s' 1)) = true := by
    decide +kernel
  obtain ⟨s, hs, h⟩ := Reach.of_exec_any (careful_killThenFork (by decide) 2) hrun
  obtain ⟨s', hs', h⟩ := (Option.any_eq_true _ _).1 h
  have hmakes : Makes s s' 1 := of_decide_eq_true h
  exact ⟨s, s', hs, hs', hmakes, (starts_unkilled hs hs').1 1 hmakes⟩

/-- **A process that is killed before it is born.** `kill(0)` of `initproc` returns `0` although no process
has pid `0`, and the child it forks afterwards is marked as killed. -/
theorem starts_killed :
    (∃ s s' : State (Fin 2) Unit, Reach step any State.init s ∧
      step s (.run 0 ⟨true, true⟩) = some s' ∧ KillsOk s s' 0 0 0 ∧
      ∀ i, (s.proc i).state ≠ .unused → (s.proc i).pid ≠ 0) ∧
    ∃ s s' : State (Fin 2) Unit, Reach step any State.init s ∧
      step s (.run 0 ⟨true, true⟩) = some s' ∧ Makes s s' 1 ∧ (s'.proc 1).killed = true := by
  constructor
  · have hrun : (exec step (State.init : State (Fin 2) Unit) ((killThenFork 0 4).take 8)).any
        (fun s => (step s (.run 0 ⟨true, true⟩)).any fun s' => decide
          (((s.cpu 0).on = some 0 ∧ (s.thread 0).pc = .killTest 0 1 ∧
            s'.thread 0 = (s.thread 0).answer 0) ∧
          ∀ i, (s.proc i).state ≠ .unused → (s.proc i).pid ≠ 0)) = true := by
      decide +kernel
    obtain ⟨s, hs, h⟩ := Reach.of_exec_any (fun _ _ _ => trivial) hrun
    obtain ⟨s', hs', h⟩ := (Option.any_eq_true _ _).1 h
    obtain ⟨⟨hon, hpc, hans⟩, hno⟩ := of_decide_eq_true h
    exact ⟨s, s', hs, hs', ⟨hon, ⟨1, hpc⟩, hans⟩, hno⟩
  · have hrun : (exec step (State.init : State (Fin 2) Unit) (killThenFork 0 4)).any
        (fun s => (step s (.run 0 ⟨true, true⟩)).any fun s' => decide
          (Makes s s' 1 ∧ (s'.proc 1).killed = true)) = true := by
      decide +kernel
    obtain ⟨s, hs, h⟩ := Reach.of_exec_any (fun _ _ _ => trivial) hrun
    obtain ⟨s', hs', h⟩ := (Option.any_eq_true _ _).1 h
    obtain ⟨hmakes, hkilled⟩ := of_decide_eq_true h
    exact ⟨s, s', hs, hs', hmakes, hkilled⟩

end Xv6.Sched
