import Xv6.Locks.Spinlock
import Xv6.Lib.Count

/-!
# Interrupt nesting

* `held`, `Cpu.unmatched`: the locks recorded as held by a CPU, and the calls of `push_off` that are not undone. An
  `acquire` counts among them until it has recorded its lock, and a `release` from when it has not.
* `CpuOk`: what holds of one CPU; `Inv`: of the system. `Frame`: a step leaves the other CPUs alone.
* **`Inv.step`**: one step keeps the invariant.
* **`nesting_exact`**: `noff` is the number of locks and unmatched calls, interrupts are off while it is not 0, and
  when it returns to 0 they are as the thread had them. **`noff_overflows`**: `2 ^ 31` calls are too many.
-/

namespace Xv6.Spin

open Runs Count
open Function (update update_idem update_of_ne update_self)

variable {C P K : Type}

/-! ## What is counted -/

/-- `push_off` was called for a lock that is not recorded. -/
def Pc.pending : Pc P K → ℕ
  | .spin _ | .took _ | .drop _ | .pop => 1
  | _ => 0

def Pc.moving : Pc P K → Option (Lk P K)
  | .took lk | .drop lk => some lk
  | _ => none

/-- The calls of `push_off` that are not undone. -/
def Cpu.unmatched (v : Cpu P K) : ℕ := v.pushes + v.pc.pending

/-- What `intena` will be when the thread on the CPU needs it. -/
def Cpu.promised (v : Cpu P K) : Bool :=
  match v.pc with
  | .restore b => b
  | _ =>
    match v.cur, v.stage with
    | none, .back _ => false
    | _, _ => v.intena

/-! ## CPUs and threads -/

/-- Where a scheduler may be: it holds `p->lock` from when it has taken it until it gives it back, and nothing else;
while interrupts are on, the handlers hold what they like. `mine p` says that the CPU is recorded in `p->lock`. -/
def Cpu.At (v : Cpu P K) (mine : P → Prop) : Stage P → Prop
  | .top => v.pc = .idle ∧ v.noff = 0
  | .on => ∀ b, v.pc ≠ .restore b
  | .loop => v.intr = false ∧ (v.pc = .idle ∧ v.noff = 0 ∨ (v.pc = .pop ∨ ∃ lk, v.pc = .drop lk) ∧ v.noff = 1)
  | .test p => v.noff = 1 ∧ (v.pc = .spin (.proc p) ∨ v.pc = .took (.proc p) ∨ v.pc = .idle ∧ mine p)
  | .back p | .patched p => v.pc = .idle ∧ v.noff = 1 ∧ mine p
  | .away _ => False

abbrev SchedAt (s : State C P K) (c : C) : Stage P → Prop :=
  (s.cpu c).At fun p => (s.lock (.proc p)).cpu = some c

/-- The scheduler is in its critical section, or has left the CPU to a process in the middle of it. -/
def Cpu.Inside (v : Cpu P K) : Prop :=
  match v.stage with
  | .top | .on => False
  | .loop => v.noff ≠ 0
  | _ => True

/-- A process executes, or has changed its state and still holds its lock. -/
def ProcAt (s : State C P K) (c : C) (p : P) : Prop :=
  (s.cpu c).stage = .away p ∧ ((s.proc p).state = .running ∨ (s.lock (.proc p)).cpu = some c) ∧
    ((s.proc p).fresh = true → (s.cpu c).noff ≠ 0)

/-- A step of CPU `c` leaves the other CPUs alone. -/
structure Frame (s s' : State C P K) (c : C) : Prop where
  cpu : ∀ c', c' ≠ c → s'.cpu c' = s.cpu c'
  lock : ∀ c', c' ≠ c → ∀ lk, (s'.lock lk).cpu = some c' ↔ (s.lock lk).cpu = some c'
  move : ∀ c', c' ≠ c → ∀ lk, (s.cpu c').pc.moving = some lk → s'.lock lk = s.lock lk
  proc : ∀ c', c' ≠ c → ∀ p, (s.cpu c').cur = some p → s'.proc p = s.proc p
  own : ∀ c', c' ≠ c → s'.own (s.thread c') = s.own (s.thread c')
  sown : ∀ c', c' ≠ c → s'.own (.inr c') = s.own (.inr c')

/-- The lock operations leave the rest of the CPU alone. -/
structure Cpu.SameBut (v w : Cpu P K) : Prop where
  noff : w.noff = v.noff
  intr : w.intr = v.intr
  promised : w.promised = v.promised
  cur : w.cur = v.cur

variable {s s' : State C P K} {c : C}

theorem thread_congr {c' : C} (h : (s'.cpu c').cur = (s.cpu c').cur) : s'.thread c' = s.thread c' := by
  unfold State.thread
  rw [h]

theorem thread_of_some {p : P} (h : (s.cpu c).cur = some p) : s.thread c = .inl p := by
  unfold State.thread
  rw [h]

theorem thread_of_none (h : (s.cpu c).cur = none) : s.thread c = .inr c := by
  unfold State.thread
  rw [h]

theorem inr_ne_thread {c' : C} (hne : c' ≠ c) : .inr c' ≠ s.thread c := by
  cases hc : (s.cpu c).cur with
  | none =>
    rw [thread_of_none hc]
    exact fun heq => hne (Sum.inr.inj heq)
  | some p =>
    rw [thread_of_some hc]
    nofun

theorem Cpu.At.mono {v : Cpu P K} {mine mine' : P → Prop} {st : Stage P} (h : v.At mine st)
    (hm : ∀ p, mine p → mine' p) : v.At mine' st := by
  cases st with
  | test p => exact ⟨h.1, h.2.imp_right fun h => h.imp_right fun h => ⟨h.1, hm p h.2⟩⟩
  | back p => exact ⟨h.1, h.2.1, hm p h.2.2⟩
  | patched p => exact ⟨h.1, h.2.1, hm p h.2.2⟩
  | _ => exact h

theorem Cpu.At.of_pc {v : Cpu P K} {mine : P → Prop} {st : Stage P} (h : v.At mine st) :
    match v.pc with
    | .idle => True
    | .spin lk | .took lk => st = .on ∨ ∃ p, lk = .proc p ∧ st = .test p ∧ v.noff = 1
    | .drop _ | .pop => st = .on ∨ st = .loop ∧ v.noff = 1 ∧ v.intr = false
    | .restore _ => False := by
  cases hpc : v.pc <;> cases st <;> simp_all [Cpu.At]

theorem promised_eq {v : Cpu P K} (hpc : ∀ b, v.pc ≠ .restore b) (hback : v.cur = none → ∀ p, v.stage ≠ .back p) :
    v.promised = v.intena := by
  unfold Cpu.promised
  split
  · next b heq => exact absurd heq (hpc b)
  · split
    · next hcur heq => exact absurd heq (hback hcur _)
    · rfl

theorem promised_of_idle {v : Cpu P K} {p : P} (hpc : v.pc = .idle) (hcur : v.cur = some p) : v.promised = v.intena :=
  promised_eq (by rw [hpc]; nofun) (by rw [hcur]; nofun)

theorem Cpu.sameBut_pc (v : Cpu P K) {pc : Pc P K} (hold : ∀ b, v.pc ≠ .restore b) (hnew : ∀ b, pc ≠ .restore b) :
    v.SameBut { v with pc := pc } := by
  refine ⟨rfl, rfl, ?_, rfl⟩
  obtain ⟨noff, intena, intr, cur, stage, pc', pushes⟩ := v
  cases pc' with
  | restore b => exact absurd rfl (hold b)
  | _ =>
    cases pc with
    | restore b => exact absurd rfl (hnew b)
    | _ => rfl

section

variable [DecidableEq P]

theorem settle_cpu (c' : C) : (s.settle c).cpu c' = s.cpu c' := by
  unfold State.settle
  split
  · split_ifs <;> rfl
  · rfl

theorem settle_lock : (s.settle c).lock = s.lock := by
  unfold State.settle
  split
  · split_ifs <;> rfl
  · rfl

theorem settle_own : (s.settle c).own = s.own := by
  unfold State.settle
  split
  · split_ifs <;> rfl
  · rfl

theorem settle_proc (q : P) : (s.settle c).proc q = s.proc q ∨
    (s.cpu c).cur = some q ∧ (s.settle c).proc q = { s.proc q with fresh := false } := by
  unfold State.settle
  split
  · next p hp =>
    split_ifs
    · by_cases hqp : q = p
      · subst hqp
        exact .inr ⟨hp, update_self ..⟩
      · exact .inl (update_of_ne hqp ..)
    · exact .inl rfl
  · exact .inl rfl

theorem settle_fresh {p : P} (hp : (s.cpu c).cur = some p) (hfresh : ((s.settle c).proc p).fresh = true) :
    (s.cpu c).noff ≠ 0 := by
  intro h0
  unfold State.settle at hfresh
  rw [hp] at hfresh
  simp only [if_pos h0, State.setProc, update_self] at hfresh
  cases hfresh

end

variable [DecidableEq C]

theorem frame_setCpu (v : Cpu P K) : Frame s (s.setCpu c v) c where
  cpu := fun _ hne => update_of_ne hne ..
  lock := fun _ _ _ => Iff.rfl
  move := fun _ _ _ _ => rfl
  proc := fun _ _ _ _ => rfl
  own := fun _ _ => rfl
  sown := fun _ _ => rfl

theorem cpu_setCpu (v : Cpu P K) : (s.setCpu c v).cpu c = v := update_self ..

theorem cur_setCpu {v : Cpu P K} (hcur : v.cur = (s.cpu c).cur) (c' : C) :
    ((s.setCpu c v).cpu c').cur = (s.cpu c').cur := by
  by_cases hne : c' = c
  · rw [hne, cpu_setCpu, hcur]
  · exact congrArg Cpu.cur (update_of_ne hne ..)

theorem setCpu_setCpu (v v' : Cpu P K) : (s.setCpu c v).setCpu c v' = s.setCpu c v' := by
  unfold State.setCpu
  rw [update_idem]

theorem thread_setCpu {v : Cpu P K} (hcur : v.cur = (s.cpu c).cur) : (s.setCpu c v).thread c = s.thread c :=
  thread_congr (by rw [cpu_setCpu, hcur])

section

variable [DecidableEq P]

theorem pushOff_setCpu (v : Cpu P K) : (s.pushOff c).setCpu c v =
    { s.setCpu c v with
      own := if (s.cpu c).noff = 0 then update s.own (s.thread c) (s.cpu c).intr else s.own } := by
  unfold State.pushOff State.setCpu
  simp only [update_idem]

theorem cpu_pushOff : (s.pushOff c).cpu c = (s.cpu c).pushOff := update_self ..

theorem acquire_eq {lk : Lk P K} (h : s.acquire c lk = some s') :
    s' = (s.pushOff c).setCpu c { (s.cpu c).pushOff with pc := .spin lk } := by
  unfold State.acquire at h
  simp only [Option.ite_none_left_eq_some, Option.some.injEq] at h
  rw [← h.2]
  unfold State.goto
  rw [cpu_pushOff]

theorem popOff_eq (h : s.popOff c = some s') :
    s' = (s.setCpu c { s.cpu c with
      noff := (s.cpu c).noff - 1
      intr := decide ((s.cpu c).noff - 1 = 0) && (s.cpu c).intena }).settle c := by
  unfold State.popOff Cpu.popOff at h
  split_ifs at h with hintr hnoff
  · cases h
  · cases h
  · exact (Option.some.inj h).symm

end

/-! ## The invariant -/

variable [Fintype P] [Fintype K]

instance : Fintype (Lk P K) :=
  Fintype.ofEquiv (P ⊕ K)
    { toFun := fun x => x.elim .proc .other
      invFun := fun
        | .proc p => .inl p
        | .other k => .inr k
      left_inv := fun x => by cases x <;> rfl
      right_inv := fun x => by cases x <;> rfl }

def weight (c : C) (l : Spinlock C) : ℕ := if l.cpu = some c then 1 else 0

/-- **The locks recorded as held by a CPU.** -/
def held (s : State C P K) (c : C) : ℕ := ∑ lk, weight c (s.lock lk)

/-- The nesting is below the largest `int`. -/
def State.Small (s : State C P K) : Prop := ∀ c, held s c + (s.cpu c).unmatched + 1 < 2 ^ 31

instance [Fintype C] (s : State C P K) : Decidable s.Small := inferInstanceAs (Decidable (∀ _, _))

structure CpuOk (s : State C P K) (c : C) : Prop where
  count : Counts (s.cpu c).noff (held s c + (s.cpu c).unmatched)
  off : (s.cpu c).noff ≠ 0 → (s.cpu c).intr = false
  ena : (s.cpu c).noff ≠ 0 → (s.cpu c).promised = s.own (s.thread c)
  proc : ∀ p, (s.cpu c).cur = some p → ProcAt s c p
  sched : (s.cpu c).cur = none → SchedAt s c (s.cpu c).stage
  moving : ∀ lk, (s.cpu c).pc.moving = some lk → (s.lock lk).locked = true ∧ (s.lock lk).cpu = none

structure Inv (s : State C P K) : Prop where
  cpu : ∀ c, CpuOk s c
  uniq : ∀ c c' p, (s.cpu c).cur = some p → (s.cpu c').cur = some p → c = c'
  single : ∀ c c' lk, (s.cpu c).pc.moving = some lk → (s.cpu c').pc.moving = some lk → c = c'
  free : ∀ lk, (s.lock lk).locked = false → (s.lock lk).cpu = none
  saved : ∀ p, (∀ c, (s.cpu c).cur ≠ some p) → (s.proc p).saved.getD false = s.own (.inl p)
  sown : ∀ c, (s.cpu c).Inside → s.own (.inr c) = false
  fresh : ∀ p, (s.proc p).fresh = true → s.own (.inl p) = false

/-- **A step is fine** if it keeps the invariant, and gives a thread whose nesting it takes to 0 its own state of the
interrupts back. -/
structure Fine (s s' : State C P K) : Prop where
  inv : Inv s'
  restored : ∀ c, (s.cpu c).noff ≠ 0 → (s'.cpu c).noff = 0 → (s'.cpu c).intr = s.own (s.thread c)

theorem weight_none {l : Spinlock C} (h : l.cpu = none) : weight c l = 0 := if_neg (by rw [h]; nofun)

theorem weight_self {l : Spinlock C} (h : l.cpu = some c) : weight c l = 1 := if_pos h

theorem held_congr {c' : C} (h : ∀ lk, (s'.lock lk).cpu = some c' ↔ (s.lock lk).cpu = some c') :
    held s' c' = held s c' := Finset.sum_congr rfl fun lk _ => if_congr (h lk) rfl rfl

theorem Frame.cpuOk (hf : Frame s s' c) {c' : C} (hne : c' ≠ c) (h : CpuOk s c') : CpuOk s' c' := by
  have hcpu := hf.cpu c' hne
  have hthread : s'.thread c' = s.thread c' := thread_congr (by rw [hcpu])
  refine ⟨?_, ?_, ?_, fun p hp => ?_, fun hnone => ?_, fun lk hlk => ?_⟩
  · rw [hcpu, held_congr (hf.lock c' hne)]
    exact h.count
  · rw [hcpu]
    exact h.off
  · rw [hcpu, hthread, hf.own c' hne]
    exact h.ena
  · rw [hcpu] at hp
    obtain ⟨hstage, hstate, hfresh⟩ := h.proc p hp
    unfold ProcAt
    rw [hcpu, hf.proc c' hne p hp]
    exact ⟨hstage, hstate.imp_right (hf.lock c' hne _).2, hfresh⟩
  · rw [hcpu] at hnone ⊢
    unfold SchedAt
    rw [hcpu]
    exact (h.sched hnone).mono fun p => (hf.lock c' hne _).2
  · rw [hcpu] at hlk
    rw [hf.move c' hne lk hlk]
    exact h.moving lk hlk

theorem uniq_of_frame {α : Type*} {f g : C → Option α} (h : ∀ c₁ c₂ a, f c₁ = some a → f c₂ = some a → c₁ = c₂)
    (hrest : ∀ c', c' ≠ c → g c' = f c') (hc : ∀ a, g c = some a → f c = some a ∨ ∀ c', f c' ≠ some a)
    (c₁ c₂ : C) (a : α) (h₁ : g c₁ = some a) (h₂ : g c₂ = some a) : c₁ = c₂ := by
  have hother : ∀ c', c' ≠ c → g c = some a → g c' ≠ some a := by
    intro c' hne ha ha'
    rw [hrest c' hne] at ha'
    rcases hc a ha with hold | hnone
    · exact hne (h c' c a ha' hold)
    · exact hnone c' ha'
  by_cases hc₁ : c₁ = c
  · subst hc₁
    by_contra hne
    exact hother c₂ (Ne.symm hne) h₁ h₂
  · by_cases hc₂ : c₂ = c
    · subst hc₂
      exact absurd h₁ (hother c₁ hc₁ h₂)
    · rw [hrest c₁ hc₁] at h₁
      rw [hrest c₂ hc₂] at h₂
      exact h c₁ c₂ a h₁ h₂

theorem Inv.of_frame (h : Inv s) (hf : Frame s s' c) (hc : CpuOk s' c)
    (hcur : ∀ p, (s'.cpu c).cur = some p → (s.cpu c).cur = some p ∨ ∀ c', (s.cpu c').cur ≠ some p)
    (hmove : ∀ lk, (s'.cpu c).pc.moving = some lk → (s.cpu c).pc.moving = some lk ∨
      ∀ c', (s.cpu c').pc.moving ≠ some lk)
    (hfree : ∀ lk, (s'.lock lk).locked = false → (s'.lock lk).cpu = none)
    (hsaved : ∀ p, (∀ c', (s'.cpu c').cur ≠ some p) → (s'.proc p).saved.getD false = s'.own (.inl p))
    (hsown : (s'.cpu c).Inside → s'.own (.inr c) = false)
    (hfresh : ∀ p, (s'.proc p).fresh = true → s'.own (.inl p) = false)
    (hrest : (s.cpu c).noff ≠ 0 → (s'.cpu c).noff = 0 → (s'.cpu c).intr = s.own (s.thread c)) : Fine s s' := by
  refine ⟨⟨fun c' => ?_, uniq_of_frame h.uniq (fun c' hne => by rw [hf.cpu c' hne]) hcur,
    uniq_of_frame h.single (fun c' hne => by rw [hf.cpu c' hne]) hmove, hfree, hsaved, fun c' hc' => ?_, hfresh⟩,
    fun c' hpos h0 => ?_⟩
  · by_cases hne : c' = c
    · exact hne ▸ hc
    · exact hf.cpuOk hne (h.cpu c')
  · by_cases hne : c' = c
    · rw [hne] at hc' ⊢
      exact hsown hc'
    · rw [hf.cpu c' hne] at hc'
      rw [hf.sown c' hne]
      exact h.sown c' hc'
  · by_cases hne : c' = c
    · rw [hne] at hpos h0 ⊢
      exact hrest hpos h0
    · rw [hf.cpu c' hne] at h0
      exact absurd h0 hpos

theorem Inv.setCpu (h : Inv s) {v : Cpu P K} (hnoff : v.noff = (s.cpu c).noff)
    (hun : v.unmatched = (s.cpu c).unmatched) (hcur : v.cur = (s.cpu c).cur) (hoff : v.noff ≠ 0 → v.intr = false)
    (hprom : v.noff ≠ 0 → v.promised = (s.cpu c).promised) (hproc : ∀ p, v.cur = some p → v.stage = (s.cpu c).stage)
    (hsched : v.cur = none → v.At (fun p => (s.lock (.proc p)).cpu = some c) v.stage)
    (hsown : v.Inside → (s.cpu c).Inside) (hmove : v.pc.moving = none) : Fine s (s.setCpu c v) := by
  have hok := h.cpu c
  have hcpu : (s.setCpu c v).cpu c = v := cpu_setCpu v
  refine h.of_frame (frame_setCpu v) ?_ (fun p hp => ?_) (fun lk hlk => ?_) h.free (fun p hp => ?_)
    (fun hin => h.sown c (hsown (hcpu ▸ hin))) h.fresh fun hpos h0 => ?_
  · refine ⟨?_, ?_, ?_, fun p hp => ?_, ?_, fun lk hlk => ?_⟩
    · rw [hcpu, hnoff, hun]
      exact hok.count
    · rw [hcpu]
      exact hoff
    · rw [hcpu, thread_setCpu hcur]
      intro hpos
      rw [hprom hpos]
      exact hok.ena (hnoff ▸ hpos)
    · rw [hcpu] at hp
      obtain ⟨hstage, hstate, hfresh⟩ := hok.proc p (hcur ▸ hp)
      unfold ProcAt
      rw [hcpu, hproc p hp, hnoff]
      exact ⟨hstage, hstate, hfresh⟩
    · unfold SchedAt
      rw [hcpu]
      exact hsched
    · rw [hcpu, hmove] at hlk
      cases hlk
  · rw [hcpu, hcur] at hp
    exact .inl hp
  · rw [hcpu, hmove] at hlk
    cases hlk
  · exact h.saved p fun c' hc' => hp c' ((cur_setCpu hcur c').trans hc')
  · rw [hcpu, hnoff] at h0
    exact absurd h0 hpos

theorem Inv.thread_ne (h : Inv s) {c' : C} (hne : c' ≠ c) : s.thread c' ≠ s.thread c := by
  unfold State.thread
  cases hc : (s.cpu c).cur with
  | none =>
    cases hc' : (s.cpu c').cur with
    | none => exact fun heq => hne (Sum.inr.inj heq)
    | some p => nofun
  | some p =>
    cases hc' : (s.cpu c').cur with
    | none => nofun
    | some q =>
      intro heq
      have hqp : q = p := Sum.inl.inj heq
      exact hne (h.uniq c' c p (hqp ▸ hc') hc)

theorem Inv.on_of_held (h : Inv s) {q : P} {c' : C} (hheld : (s.lock (.proc q)).cpu = some c)
    (hstate : (s.proc q).state ≠ .running) (hq : (s.cpu c').cur = some q) : c' = c := by
  rcases ((h.cpu c').proc q hq).2.1 with hrun | hlock
  · exact absurd hrun hstate
  · exact Option.some.inj (hlock.symm.trans hheld)

theorem inv_init (ready : P → Bool) : Inv (init (C := C) (K := K) ready) where
  cpu c := by
    have hheld : held (init (C := C) (K := K) ready) c = 0 := Finset.sum_eq_zero fun lk _ => if_neg nofun
    refine ⟨?_, fun h0 => absurd rfl h0, fun h0 => absurd rfl h0, nofun, fun _ => ⟨rfl, rfl⟩, nofun⟩
    rw [hheld]
    exact ⟨rfl, show 0 + 0 < 2 ^ 31 by decide⟩
  uniq := nofun
  single := nofun
  free _ _ := rfl
  saved _ _ := rfl
  sown _ _ := rfl
  fresh _ _ := rfl

/-! ## `push_off` and `pop_off` -/

variable [DecidableEq P]

/-- **`push_off`** of the thread on CPU `c`, which is at `v` then. -/
theorem Inv.push (h : Inv s) (hs : s.Small) {v : Cpu P K} (hidle : (s.cpu c).pc = .idle)
    (hnoff : v.noff = (s.cpu c).noff + 1) (hintr : v.intr = false)
    (hena : v.intena = if (s.cpu c).noff = 0 then (s.cpu c).intr else (s.cpu c).intena)
    (hcur : v.cur = (s.cpu c).cur) (hpc : v.pc = .idle ∨ ∃ lk, v.pc = .spin lk)
    (hun : v.unmatched = (s.cpu c).unmatched + 1)
    (hproc : ∀ p, v.cur = some p → v.stage = (s.cpu c).stage)
    (hsched : v.cur = none → v.stage = .on ∧ (s.cpu c).stage = .on ∨
      (s.cpu c).noff = 0 ∧ (s.cpu c).intr = false ∧ ∃ p, v.stage = .test p ∧ v.pc = .spin (.proc p)) :
    Fine s { s.setCpu c v with
      own := if (s.cpu c).noff = 0 then update s.own (s.thread c) (s.cpu c).intr else s.own } := by
  set own' := if (s.cpu c).noff = 0 then update s.own (s.thread c) (s.cpu c).intr else s.own with hown'
  have hok := h.cpu c
  have hother : ∀ t, t ≠ s.thread c → own' t = s.own t := by
    intro t ht
    rw [hown']
    split_ifs
    · exact update_of_ne ht ..
    · rfl
  have hcpu : ({ s.setCpu c v with own := own' } : State C P K).cpu c = v := cpu_setCpu v
  have hthread : ({ s.setCpu c v with own := own' } : State C P K).thread c = s.thread c := thread_setCpu hcur
  have hcount : Counts v.noff (held s c + v.unmatched) := by
    rw [hnoff, hun]
    exact hok.count.succ (hs c)
  have hne : v.noff ≠ 0 := hcount.ne_zero (by omega)
  have hmoving : v.pc.moving = none := by
    rcases hpc with hpc | ⟨lk, hpc⟩ <;> rw [hpc] <;> rfl
  have hprom : v.promised = v.intena := by
    refine promised_eq (fun b hb => ?_) fun hnone p hp => ?_
    · rcases hpc with hpc | ⟨lk, hpc⟩ <;> rw [hpc] at hb <;> cases hb
    · rcases hsched hnone with ⟨hstage, _⟩ | ⟨_, _, q, hstage, _⟩ <;> rw [hp] at hstage <;> cases hstage
  refine h.of_frame (c := c) ⟨fun _ hne => update_of_ne hne .., fun _ _ _ => Iff.rfl, fun _ _ _ _ => rfl,
    fun _ _ _ _ => rfl, fun c' hne => hother _ (h.thread_ne hne), fun c' hne => hother _ (inr_ne_thread hne)⟩ ?_
    (fun p hp => ?_) (fun lk hlk => ?_) h.free (fun p hp => ?_) (fun hin => ?_) (fun p hp => ?_) fun _ h0 => ?_
  · refine ⟨?_, ?_, ?_, fun p hp => ?_, fun hnone => ?_, fun lk hlk => ?_⟩
    · rw [hcpu]
      exact hcount
    · rw [hcpu]
      exact fun _ => hintr
    · rw [hcpu, hthread]
      intro _
      rw [hprom, hena]
      change _ = own' _
      rw [hown']
      by_cases h0 : (s.cpu c).noff = 0
      · rw [if_pos h0, if_pos h0, update_self]
      · rw [if_neg h0, if_neg h0, ← hok.ena h0]
        refine (promised_eq (by rw [hidle]; nofun) fun hnone => ?_).symm
        rcases hsched (hcur.trans hnone) with ⟨_, hon⟩ | ⟨h0', _⟩
        · rw [hon]
          nofun
        · exact absurd h0' h0
    · rw [hcpu] at hp
      obtain ⟨hstage, hstate, _⟩ := hok.proc p (hcur ▸ hp)
      unfold ProcAt
      rw [hcpu]
      exact ⟨(hproc p hp).trans hstage, hstate, fun _ => hne⟩
    · unfold SchedAt
      rw [hcpu] at hnone ⊢
      rcases hsched hnone with ⟨hon, _⟩ | ⟨h0, _, p, hstage, hspin⟩
      · rw [hon]
        intro b hb
        rcases hpc with hpc | ⟨lk, hpc⟩ <;> rw [hpc] at hb <;> cases hb
      · rw [hstage]
        exact ⟨by rw [hnoff, h0]; rfl, .inl hspin⟩
    · rw [hcpu, hmoving] at hlk
      cases hlk
  · rw [hcpu, hcur] at hp
    exact .inl hp
  · rw [hcpu, hmoving] at hlk
    cases hlk
  · have hoff : ∀ c', (s.cpu c').cur ≠ some p := fun c' hc' => hp c' ((cur_setCpu hcur c').trans hc')
    change _ = own' _
    rw [hother _ fun heq => ?_]
    · exact h.saved p hoff
    · cases hcur' : (s.cpu c).cur with
      | none =>
        rw [thread_of_none hcur'] at heq
        cases heq
      | some q =>
        rw [thread_of_some hcur'] at heq
        cases heq
        exact hoff c hcur'
  · change own' _ = _
    rw [hcpu] at hin
    cases hcur' : (s.cpu c).cur with
    | some q =>
      rw [hother _ (by rw [thread_of_some hcur']; nofun)]
      refine h.sown c ?_
      have hstage := hproc q (hcur.trans hcur')
      unfold Cpu.Inside at hin ⊢
      rw [hstage, (hok.proc q hcur').1] at hin
      rw [(hok.proc q hcur').1]
      exact hin
    | none =>
      rcases hsched (hcur.trans hcur') with ⟨hon, _⟩ | ⟨h0, hoff, _⟩
      · unfold Cpu.Inside at hin
        rw [hon] at hin
        exact hin.elim
      · rw [hown', if_pos h0, thread_of_none hcur', update_self, hoff]
  · change own' _ = _
    by_cases heq : (.inl p : Thread C P) = s.thread c
    · cases hcur' : (s.cpu c).cur with
      | none =>
        rw [thread_of_none hcur'] at heq
        cases heq
      | some q =>
        rw [thread_of_some hcur'] at heq
        cases heq
        -- a process that has not left `forkret` holds its lock
        have hpos := (hok.proc p hcur').2.2 hp
        rw [hown', if_neg hpos]
        exact h.fresh p hp
    · rw [hother _ heq]
      exact h.fresh p hp
  · rw [hcpu] at h0
    exact absurd h0 hne

/-- **`pop_off`** of the thread on CPU `c`, which is at `v` then. -/
theorem Inv.pop (h : Inv s) {v : Cpu P K} (hnoff : v.noff + 1 = (s.cpu c).noff)
    (hintr : v.intr = (decide (v.noff = 0) && (s.cpu c).intena)) (hena : v.intena = (s.cpu c).intena)
    (hcur : v.cur = (s.cpu c).cur) (hstage : v.stage = (s.cpu c).stage) (hpc : v.pc = .idle)
    (hold : ∀ b, (s.cpu c).pc ≠ .restore b) (hun : v.unmatched + 1 = (s.cpu c).unmatched)
    (hsched : v.cur = none → v.stage = .on ∨ v.stage = .loop ∧ v.noff = 0) :
    Fine s ((s.setCpu c v).settle c) := by
  have hok := h.cpu c
  have hpos : (s.cpu c).noff ≠ 0 := hok.count.ne_zero (by omega)
  have hcpu : ((s.setCpu c v).settle c).cpu c = v := by rw [settle_cpu, cpu_setCpu]
  have hthread : ((s.setCpu c v).settle c).thread c = s.thread c := thread_congr (by rw [hcpu, hcur])
  have hback : v.cur = none → ∀ p, v.stage ≠ .back p := by
    intro hnone p hp
    rcases hsched hnone with hon | ⟨hloop, _⟩
    · rw [hon] at hp
      cases hp
    · rw [hloop] at hp
      cases hp
  have hprom : (s.cpu c).promised = (s.cpu c).intena :=
    promised_eq hold fun hnone => hstage ▸ hback (hcur.trans hnone)
  have hcurs : ∀ c', (((s.setCpu c v).settle c).cpu c').cur = (s.cpu c').cur := fun c' => by
    rw [settle_cpu]
    exact cur_setCpu hcur c'
  have hprocs : ∀ q, ((s.setCpu c v).settle c).proc q = s.proc q ∨
      (s.cpu c).cur = some q ∧ ((s.setCpu c v).settle c).proc q = { s.proc q with fresh := false } := by
    intro q
    refine (settle_proc q).imp_right fun hq => ⟨?_, hq.2⟩
    rw [← hcur, ← cpu_setCpu (s := s) (c := c) v]
    exact hq.1
  refine h.of_frame (c := c) ⟨fun c' hne => ?_, fun _ _ _ => by rw [settle_lock]; rfl,
    fun _ _ _ _ => by rw [settle_lock]; rfl, fun c' hne p hp => ?_, fun _ _ => by rw [settle_own]; rfl,
    fun _ _ => by rw [settle_own]; rfl⟩ ?_ (fun p hp => ?_) (fun lk hlk => ?_) (by rw [settle_lock]; exact h.free)
    (fun p hp => ?_) (fun hin => ?_) (fun p hp => ?_) fun _ h0 => ?_
  · rw [settle_cpu]
    exact update_of_ne hne ..
  · rcases hprocs p with hsame | ⟨hon, _⟩
    · exact hsame
    · exact absurd (h.uniq c' c p hp hon) hne
  · refine ⟨?_, ?_, ?_, fun p hp => ?_, fun hnone => ?_, fun lk hlk => ?_⟩
    · rw [hcpu, show held ((s.setCpu c v).settle c) c = held s c from held_congr fun lk => by rw [settle_lock]; rfl]
      have hcount := hok.count
      rw [← hnoff, ← hun] at hcount
      exact hcount.pred
    · rw [hcpu, hintr]
      intro hpos
      rw [decide_eq_false hpos]
      rfl
    · rw [hcpu, hthread, settle_own]
      intro _
      rw [promised_eq (by rw [hpc]; nofun) hback, hena, ← hprom]
      exact hok.ena hpos
    · have hp' : (s.cpu c).cur = some p := (hcurs c).symm.trans hp
      obtain ⟨hst, hstate, _⟩ := hok.proc p hp'
      refine ⟨by rw [hcpu, hstage]; exact hst, ?_, fun hfresh => ?_⟩
      · rw [settle_lock]
        rcases hprocs p with hsame | ⟨_, hsame⟩
        · rw [hsame]
          exact hstate
        · rw [hsame]
          exact hstate
      · rw [hcpu]
        have hpos := settle_fresh (s := s.setCpu c v) (by rw [cpu_setCpu, hcur]; exact hp') hfresh
        rwa [cpu_setCpu] at hpos
    · have hnone' : (s.cpu c).cur = none := (hcurs c).symm.trans hnone
      unfold SchedAt
      rw [hcpu]
      rcases hsched (hcur.trans hnone') with hon | ⟨hloop, h0⟩
      · rw [hon, Cpu.At, hpc]
        nofun
      · have hin : (s.cpu c).Inside := by
          unfold Cpu.Inside
          rw [← hstage, hloop]
          exact hpos
        rw [hloop]
        refine ⟨?_, .inl ⟨hpc, h0⟩⟩
        rw [hintr, ← hprom, hok.ena hpos, thread_of_none hnone', h.sown c hin]
        exact Bool.and_false _
    · rw [hcpu, hpc] at hlk
      cases hlk
  · exact .inl ((hcurs c).symm.trans hp)
  · rw [hcpu, hpc] at hlk
    cases hlk
  · have hsaved := h.saved p fun c' hc' => hp c' ((hcurs c').trans hc')
    rw [settle_own]
    rcases hprocs p with hsame | ⟨_, hsame⟩
    · rw [hsame]
      exact hsaved
    · rw [hsame]
      exact hsaved
  · rw [settle_own]
    rw [hcpu] at hin
    refine h.sown c ?_
    unfold Cpu.Inside at hin ⊢
    rw [hstage] at hin
    cases hst : (s.cpu c).stage <;> rw [hst] at hin
    case loop => exact hpos
    all_goals exact hin
  · rw [settle_own]
    rcases hprocs p with hsame | ⟨_, hsame⟩
    · rw [hsame] at hp
      exact h.fresh p hp
    · rw [hsame] at hp
      cases hp
  · rw [hcpu] at h0 ⊢
    rw [hintr, decide_eq_true h0, Bool.true_and, ← hprom]
    exact hok.ena hpos

/-! ## The processes -/

/-- **A step that changes a process's state**: the process is on no CPU, or the CPU it is on has its lock. -/
theorem Inv.setProc (h : Inv s) {q : P} {w : Proc}
    (hon : ∀ c', (s.cpu c').cur = some q → w.state = .running ∨ (s.lock (.proc q)).cpu = some c')
    (hsaved : w.saved = (s.proc q).saved) (hfresh : w.fresh = (s.proc q).fresh) : Fine s (s.setProc q w) := by
  have hsame : ∀ p, ((s.setProc q w).proc p).saved = (s.proc p).saved ∧
      ((s.setProc q w).proc p).fresh = (s.proc p).fresh := by
    intro p
    by_cases heq : p = q
    · rw [heq, show (s.setProc q w).proc q = w from update_self ..]
      exact ⟨hsaved, hfresh⟩
    · rw [show (s.setProc q w).proc p = s.proc p from update_of_ne heq ..]
      exact ⟨rfl, rfl⟩
  refine ⟨⟨fun c' => ?_, h.uniq, h.single, h.free, fun p hp => ?_, h.sown, fun p hp => ?_⟩,
    fun _ hpos h0 => absurd h0 hpos⟩
  · have hok := h.cpu c'
    refine ⟨hok.count, hok.off, hok.ena, fun p hp => ?_, hok.sched, hok.moving⟩
    obtain ⟨hstage, hstate, hpos⟩ := hok.proc p hp
    refine ⟨hstage, ?_, fun hf => hpos ((hsame p).2.symm.trans hf)⟩
    by_cases heq : p = q
    · subst heq
      rw [show (s.setProc p w).proc p = w from update_self ..]
      exact hon c' hp
    · rw [show (s.setProc q w).proc p = s.proc p from update_of_ne heq ..]
      exact hstate
  · rw [(hsame p).1]
    exact h.saved p hp
  · rw [(hsame p).2] at hp
    exact h.fresh p hp

/-- **A process that does not execute** changes its state at the hands of the CPU that has its lock. -/
theorem Inv.setState (h : Inv s) {q : P} {w : Proc} {st : PState} (hhold : s.holding c (.proc q))
    (hstate : (s.proc q).state = st) (hst : st ≠ .running) (hsaved : w.saved = (s.proc q).saved)
    (hfresh : w.fresh = (s.proc q).fresh) : Fine s (s.setProc q w) := by
  refine h.setProc (fun c' hc' => .inr ?_) hsaved hfresh
  rw [h.on_of_held hhold.2 (by rw [hstate]; exact hst) hc']
  exact hhold.2

/-- **A new process** is on no CPU, and is to execute with interrupts off. -/
theorem Inv.spawn (h : Inv s) {q : P} {w : Proc} (hoff : ∀ c', (s.cpu c').cur ≠ some q) (hsaved : w.saved = none) :
    Fine s ((s.setProc q w).setOwn (.inl q) false) := by
  have hproc : ∀ p, p ≠ q → ((s.setProc q w).setOwn (.inl q) false).proc p = s.proc p := fun p hne =>
    update_of_ne hne ..
  have hown : ∀ t, t ≠ .inl q → ((s.setProc q w).setOwn (.inl q) false).own t = s.own t := fun t hne =>
    update_of_ne hne ..
  have hself : ((s.setProc q w).setOwn (.inl q) false).own (.inl q) = false := update_self ..
  refine ⟨⟨fun c' => ?_, h.uniq, h.single, h.free, fun p hp => ?_, fun c' hin => ?_, fun p hp => ?_⟩,
    fun _ hpos h0 => absurd h0 hpos⟩
  · have hok := h.cpu c'
    have hthread : s.thread c' ≠ .inl q := by
      cases hcur : (s.cpu c').cur with
      | none =>
        rw [thread_of_none hcur]
        nofun
      | some p =>
        rw [thread_of_some hcur]
        exact fun heq => hoff c' (hcur.trans (congrArg some (Sum.inl.inj heq)))
    refine ⟨hok.count, hok.off, fun hpos => ?_, fun p hp => ?_, hok.sched, hok.moving⟩
    · exact (hok.ena hpos).trans (hown _ hthread).symm
    · have hne : p ≠ q := fun heq => hoff c' (heq ▸ hp)
      unfold ProcAt
      rw [hproc p hne]
      exact hok.proc p hp
  · by_cases heq : p = q
    · rw [heq, hself, show ((s.setProc q w).setOwn (.inl q) false).proc q = w from update_self .., hsaved]
      rfl
    · rw [hproc p heq, hown _ fun hinl => heq (Sum.inl.inj hinl)]
      exact h.saved p hp
  · exact (hown (.inr c') nofun).trans (h.sown c' hin)
  · by_cases heq : p = q
    · rw [heq]
      exact hself
    · rw [hproc p heq] at hp
      rw [hown _ fun hinl => heq (Sum.inl.inj hinl)]
      exact h.fresh p hp

/-- **`sched`** puts what the process needs in its own variable and leaves the CPU to the scheduler. -/
theorem Inv.sched (h : Inv s) {p : P} (hidle : (s.cpu c).pc = .idle) (hcur : (s.cpu c).cur = some p)
    (hheld : (s.lock (.proc p)).cpu = some c) (h1 : (s.cpu c).noff = 1) :
    Fine s ((s.setProc p { s.proc p with saved := some (s.cpu c).intena }).setCpu c
      { s.cpu c with cur := none, stage := .back p }) := by
  set s' := (s.setProc p { s.proc p with saved := some (s.cpu c).intena }).setCpu c
    { s.cpu c with cur := none, stage := .back p } with hs'
  have hok := h.cpu c
  have hcpu : s'.cpu c = { s.cpu c with cur := none, stage := .back p } := update_self ..
  have hself : s'.proc p = { s.proc p with saved := some (s.cpu c).intena } := update_self ..
  have hproc : ∀ q, q ≠ p → s'.proc q = s.proc q := fun q hne => update_of_ne hne ..
  have hin : (s.cpu c).Inside := by
    unfold Cpu.Inside
    rw [(hok.proc p hcur).1]
    trivial
  have hena : (s.cpu c).intena = s.own (.inl p) := by
    rw [← promised_of_idle hidle hcur, hok.ena (by rw [h1]; decide), thread_of_some hcur]
  refine h.of_frame (c := c) ⟨fun _ hne => update_of_ne hne .., fun _ _ _ => Iff.rfl, fun _ _ _ _ => rfl,
    fun c' hne q hq => ?_, fun _ _ => rfl, fun _ _ => rfl⟩ ?_ (fun q hq => ?_) (fun lk hlk => ?_) h.free (fun q hq => ?_)
    (fun _ => h.sown c hin) (fun q hq => ?_) fun hpos h0 => absurd h0 (by rw [hcpu]; exact hpos)
  · exact hproc q fun heq => hne (h.uniq c' c p (heq ▸ hq) hcur)
  · refine ⟨?_, ?_, fun _ => ?_, fun q hq => ?_, fun _ => ?_, fun lk hlk => ?_⟩
    · rw [hcpu]
      exact hok.count
    · rw [hcpu]
      exact hok.off
    · rw [thread_of_none (by rw [hcpu]), hcpu]
      unfold Cpu.promised
      rw [hidle]
      exact (h.sown c hin).symm
    · rw [hcpu] at hq
      cases hq
    · unfold SchedAt
      rw [hcpu]
      exact ⟨hidle, h1, hheld⟩
    · rw [hcpu] at hlk
      exact hok.moving lk hlk
  · rw [hcpu] at hq
    cases hq
  · rw [hcpu] at hlk
    exact .inl hlk
  · by_cases heq : q = p
    · rw [heq, hself]
      exact hena
    · rw [hproc q heq]
      refine h.saved q fun c' hc' => ?_
      by_cases hne : c' = c
      · rw [hne, hcur] at hc'
        exact heq (Option.some.inj hc').symm
      · exact hq c' ((congrArg Cpu.cur (update_of_ne hne ..)).trans hc')
  · by_cases heq : q = p
    · rw [heq, hself] at hq
      rw [heq]
      exact h.fresh p hq
    · rw [hproc q heq] at hq
      exact h.fresh q hq

/-- **The scheduler switches to a process**, which goes on after `swtch` in `sched`, or starts in `forkret`. -/
theorem Inv.swtch (h : Inv s) {p : P} (hidle : (s.cpu c).pc = .idle) (hcur : (s.cpu c).cur = none)
    (hstage : (s.cpu c).stage = .test p) (hrun : (s.proc p).state = .runnable) :
    Fine s ((s.setProc p { s.proc p with state := .running }).setCpu c
      { s.cpu c with
        cur := some p
        stage := .away p
        pc := ((s.proc p).saved.map Pc.restore).getD .idle }) := by
  set v : Cpu P K :=
    { s.cpu c with cur := some p, stage := .away p, pc := ((s.proc p).saved.map Pc.restore).getD .idle } with hv
  set s' := (s.setProc p { s.proc p with state := .running }).setCpu c v with hs'
  have hok := h.cpu c
  have hat := hok.sched hcur
  rw [hstage] at hat
  obtain ⟨h1, hat⟩ := hat
  have hheld : (s.lock (.proc p)).cpu = some c := by
    rw [hidle] at hat
    rcases hat with hat | hat | hat
    · cases hat
    · cases hat
    · exact hat.2
  have hoff : ∀ c', (s.cpu c').cur ≠ some p := by
    intro c' hc'
    rw [h.on_of_held hheld (by rw [hrun]; nofun) hc', hcur] at hc'
    cases hc'
  have hcpu : s'.cpu c = v := update_self ..
  have hself : s'.proc p = { s.proc p with state := .running } := update_self ..
  have hproc : ∀ q, q ≠ p → s'.proc q = s.proc q := fun q hne => update_of_ne hne ..
  have hin : (s.cpu c).Inside := by
    unfold Cpu.Inside
    rw [hstage]
    trivial
  have hpc : v.pc.moving = none ∧ v.pc.pending = 0 := by
    rw [hv]
    cases (s.proc p).saved <;> exact ⟨rfl, rfl⟩
  -- the scheduler runs with `intena` clear, which is what a new process needs
  have hena : v.promised = s.own (.inl p) := by
    rw [← h.saved p hoff]
    cases hsaved : (s.proc p).saved with
    | some b =>
      unfold Cpu.promised
      rw [hv, hsaved]
      rfl
    | none =>
      have hidle' : v.pc = .idle := by
        rw [hv, hsaved]
        rfl
      rw [promised_of_idle hidle' rfl]
      have hsched := hok.ena (by rw [h1]; decide)
      rw [promised_eq (by rw [hidle]; nofun) (by rw [hstage]; nofun), thread_of_none hcur, h.sown c hin] at hsched
      exact hsched
  refine h.of_frame (c := c) ⟨fun _ hne => update_of_ne hne .., fun _ _ _ => Iff.rfl, fun _ _ _ _ => rfl,
    fun c' hne q hq => ?_, fun _ _ => rfl, fun _ _ => rfl⟩ ?_ (fun q hq => ?_) (fun lk hlk => ?_) h.free (fun q hq => ?_)
    (fun _ => h.sown c hin) (fun q hq => ?_) fun hpos h0 => absurd h0 (by rw [hcpu]; exact hpos)
  · exact hproc q fun heq => hoff c' (heq ▸ hq)
  · refine ⟨?_, ?_, fun _ => ?_, fun q hq => ?_, fun hnone => ?_, fun lk hlk => ?_⟩
    · rw [hcpu]
      have := hok.count
      unfold Cpu.unmatched at this ⊢
      rw [hpc.2]
      rw [hidle] at this
      exact this
    · rw [hcpu]
      exact hok.off
    · rw [thread_of_some (p := p) (by rw [hcpu]), hcpu]
      exact hena
    · rw [hcpu] at hq
      cases hq
      refine ⟨by rw [hcpu], .inl (by rw [hself]), fun _ => ?_⟩
      rw [hcpu]
      exact fun h0 => absurd (h1.symm.trans h0) (by decide)
    · rw [hcpu] at hnone
      cases hnone
    · rw [hcpu, hpc.1] at hlk
      cases hlk
  · rw [hcpu] at hq
    cases hq
    exact .inr hoff
  · rw [hcpu, hpc.1] at hlk
    cases hlk
  · have hne : q ≠ p := by
      intro heq
      refine hq c ?_
      rw [hcpu, heq]
    rw [hproc q hne]
    refine h.saved q fun c' hc' => ?_
    by_cases hcc : c' = c
    · rw [hcc, hcur] at hc'
      cases hc'
    · exact hq c' ((congrArg Cpu.cur (update_of_ne hcc ..)).trans hc')
  · by_cases heq : q = p
    · rw [heq, hself] at hq
      rw [heq]
      exact h.fresh p hq
    · rw [hproc q heq] at hq
      exact h.fresh q hq

/-! ## The locks -/

variable [DecidableEq K]

theorem held_setLock (lk : Lk P K) (l : Spinlock C) :
    held (s.setLock lk l) c + weight c (s.lock lk) = held s c + weight c l :=
  Runs.sum_update (weight c) s.lock lk l

/-- **A step on a lock** by the thread on CPU `c`, which is at `v` then: the lock is in the hands of no other CPU. -/
theorem Inv.lockStep (h : Inv s) {v : Cpu P K} {lk : Lk P K} {l : Spinlock C} (hv : (s.cpu c).SameBut v)
    (hcount : weight c l + v.unmatched = weight c (s.lock lk) + (s.cpu c).unmatched)
    (hmove : v.pc.moving = none ∨ v.pc.moving = some lk ∧ l.locked = true ∧ l.cpu = none)
    (hold : ∀ c', c' ≠ c → (s.lock lk).cpu ≠ some c') (hnew : ∀ c', c' ≠ c → l.cpu ≠ some c')
    (hfree : l.locked = false → l.cpu = none) (hother : ∀ c', c' ≠ c → (s.cpu c').pc.moving ≠ some lk)
    (hproc : ∀ p, v.cur = some p → v.stage = (s.cpu c).stage ∧
      (lk = .proc p → (s.proc p).state = .running ∨ (s.lock lk).cpu = none ∨ l.cpu = some c))
    (hsched : v.cur = none → v.At (fun p => ((update s.lock lk l) (.proc p)).cpu = some c) v.stage)
    (hsown : v.Inside → (s.cpu c).Inside) : Fine s ((s.setLock lk l).setCpu c v) := by
  set s' := (s.setLock lk l).setCpu c v with hs'
  have hok := h.cpu c
  have hlock : ∀ lk', lk' ≠ lk → s'.lock lk' = s.lock lk' := fun lk' hne => update_of_ne hne ..
  have hself : s'.lock lk = l := update_self ..
  have hcpu : s'.cpu c = v := update_self ..
  have hthread : s'.thread c = s.thread c := thread_congr (by rw [hcpu, hv.cur])
  have hc : CpuOk s' c := by
    refine ⟨?_, ?_, ?_, fun p hp => ?_, ?_, fun lk' hlk' => ?_⟩
    · have hheld : held s' c + weight c (s.lock lk) = held s c + weight c l := held_setLock lk l
      have hsame : held s' c + v.unmatched = held s c + (s.cpu c).unmatched := by omega
      rw [hcpu, hv.noff, hsame]
      exact hok.count
    · rw [hcpu, hv.noff, hv.intr]
      exact hok.off
    · rw [hcpu, hv.noff, hv.promised, hthread]
      exact hok.ena
    · rw [hcpu] at hp
      obtain ⟨hst, hstate, hfresh⟩ := hok.proc p (hv.cur ▸ hp)
      obtain ⟨hstage, hkeep⟩ := hproc p hp
      unfold ProcAt
      rw [hcpu, hstage, hv.noff]
      refine ⟨hst, ?_, hfresh⟩
      rcases hstate with hrun | hheld
      · exact .inl hrun
      · by_cases heq : lk = .proc p
        · rcases hkeep heq with hrun | hnone | hl
          · exact .inl hrun
          · rw [heq, hheld] at hnone
            cases hnone
          · rw [← heq, hself]
            exact .inr hl
        · rw [hlock _ (Ne.symm heq)]
          exact .inr hheld
    · unfold SchedAt
      rw [hcpu]
      exact hsched
    · rw [hcpu] at hlk'
      rcases hmove with hnone | ⟨hsome, hl⟩
      · rw [hnone] at hlk'
        cases hlk'
      · rw [hsome] at hlk'
        cases hlk'
        rw [hself]
        exact hl
  refine h.of_frame (c := c) ⟨fun _ hne => update_of_ne hne .., fun c' hne lk' => ?_, fun c' hne lk' hlk' => ?_,
    fun _ _ _ _ => rfl, fun _ _ => rfl, fun _ _ => rfl⟩ hc (fun p hp => ?_) (fun lk' hlk' => ?_) (fun lk' hlk' => ?_)
    (fun p hp => ?_) (fun hin => h.sown c (hsown (hcpu ▸ hin))) h.fresh fun hpos h0 => ?_
  · by_cases heq : lk' = lk
    · rw [heq, hself]
      exact iff_of_false (hnew c' hne) (hold c' hne)
    · rw [hlock lk' heq]
  · refine hlock lk' fun heq => hother c' hne ?_
    rw [← heq]
    exact hlk'
  · rw [hcpu, hv.cur] at hp
    exact .inl hp
  · rw [hcpu] at hlk'
    rcases hmove with hnone | ⟨hsome, _⟩
    · rw [hnone] at hlk'
      cases hlk'
    · rw [hsome] at hlk'
      cases hlk'
      by_cases hmine : (s.cpu c).pc.moving = some lk
      · exact .inl hmine
      · refine .inr fun c' => ?_
        by_cases hne : c' = c
        · exact hne ▸ hmine
        · exact hother c' hne
  · by_cases heq : lk' = lk
    · rw [heq, hself] at hlk' ⊢
      exact hfree hlk'
    · rw [hlock lk' heq] at hlk' ⊢
      exact h.free lk' hlk'
  · exact h.saved p fun c' hc' => hp c' ((cur_setCpu (s := s) hv.cur c').trans hc')
  · rw [hcpu, hv.noff] at h0
    exact absurd h0 hpos

theorem Inv.swap (h : Inv s) {lk : Lk P K} (hpc : (s.cpu c).pc = .spin lk) (hfree : (s.lock lk).locked = false) :
    Fine s ((s.setLock lk { s.lock lk with locked := true }).setCpu c { s.cpu c with pc := .took lk }) := by
  have hnone := h.free lk hfree
  have hother : ∀ c', (s.cpu c').pc.moving ≠ some lk := by
    intro c' hc'
    rw [((h.cpu c').moving lk hc').1] at hfree
    cases hfree
  refine h.lockStep (Cpu.sameBut_pc _ (by rw [hpc]; nofun) nofun) ?_ (.inr ⟨rfl, rfl, hnone⟩)
    (fun _ _ => by rw [hnone]; nofun) (fun _ _ => by rw [hnone]; nofun) nofun (fun c' _ => hother c')
    (fun p _ => ⟨rfl, fun _ => .inr (.inl hnone)⟩) (fun hcur => ?_) id
  · change weight c (s.lock lk) + _ = _
    unfold Cpu.unmatched
    rw [hpc]
    rfl
  · have hat := ((h.cpu c).sched hcur).of_pc
    rw [hpc] at hat
    change Cpu.At _ _ (s.cpu c).stage
    rcases hat with hstage | ⟨p, hlk, hstage, h1⟩
    · rw [hstage]
      nofun
    · rw [hstage]
      exact ⟨h1, .inr (.inl (congrArg Pc.took hlk))⟩

theorem Inv.record (h : Inv s) {lk : Lk P K} (hpc : (s.cpu c).pc = .took lk) :
    Fine s ((s.setLock lk { s.lock lk with cpu := some c }).setCpu c { s.cpu c with pc := .idle }) := by
  have hmoving : (s.cpu c).pc.moving = some lk := by rw [hpc]; rfl
  obtain ⟨hlocked, hnone⟩ := (h.cpu c).moving lk hmoving
  refine h.lockStep (Cpu.sameBut_pc _ (by rw [hpc]; nofun) nofun) ?_ (.inl rfl)
    (fun _ _ => by rw [hnone]; nofun) (fun c' hne heq => hne (Option.some.inj heq).symm) (fun hf => ?_)
    (fun c' hne hc' => hne (h.single c' c lk hc' hmoving)) (fun p _ => ⟨rfl, fun _ => .inr (.inl hnone)⟩)
    (fun hcur => ?_) id
  · rw [weight_none hnone, weight_self rfl]
    unfold Cpu.unmatched
    rw [hpc]
    exact (Nat.add_comm ..).trans (by simp [Pc.pending])
  · rw [show (s.lock lk).locked = false from hf] at hlocked
    cases hlocked
  · have hat := ((h.cpu c).sched hcur).of_pc
    rw [hpc] at hat
    change Cpu.At _ _ (s.cpu c).stage
    rcases hat with hstage | ⟨p, hlk, hstage, h1⟩
    · rw [hstage]
      nofun
    · rw [hstage]
      refine ⟨h1, .inr (.inr ⟨rfl, ?_⟩)⟩
      change (update s.lock lk _ (.proc p)).cpu = _
      rw [hlk, update_self]

/-- **`release` forgets the CPU**, which is at `v` then. -/
theorem Inv.release (h : Inv s) {lk : Lk P K} {v : Cpu P K} (hidle : (s.cpu c).pc = .idle) (hhold : s.holding c lk)
    (hv : (s.cpu c).SameBut v) (hpc : v.pc = .drop lk) (hpushes : v.pushes = (s.cpu c).pushes)
    (hproc : ∀ p, v.cur = some p → v.stage = (s.cpu c).stage ∧ (lk = .proc p → (s.proc p).state = .running))
    (hsched : v.cur = none → v.stage = .on ∨ v.stage = .loop ∧ v.noff = 1) (hsown : v.Inside → (s.cpu c).Inside) :
    Fine s ((s.setLock lk { s.lock lk with cpu := none }).setCpu c v) := by
  obtain ⟨hlocked, hcpu⟩ := hhold
  refine h.lockStep hv ?_ (.inr ⟨by rw [hpc]; rfl, hlocked, rfl⟩)
    (fun c' hne heq => hne (Option.some.inj (hcpu.symm.trans heq)).symm) nofun (fun _ => rfl) (fun c' _ hc' => ?_)
    (fun p hp => ⟨(hproc p hp).1, fun hlk => .inl ((hproc p hp).2 hlk)⟩) (fun hcur => ?_) hsown
  · rw [weight_self hcpu, weight_none rfl]
    unfold Cpu.unmatched
    rw [hpc, hpushes, hidle]
    simp only [Pc.pending]
    omega
  · have hnone := ((h.cpu c').moving lk hc').2
    rw [hcpu] at hnone
    cases hnone
  · rcases hsched hcur with hstage | ⟨hstage, h1⟩
    · rw [hstage, Cpu.At, hpc]
      nofun
    · rw [hstage]
      refine ⟨?_, .inr ⟨.inr ⟨lk, hpc⟩, h1⟩⟩
      rw [hv.intr]
      exact (h.cpu c).off (by rw [← hv.noff, h1]; decide)

theorem Inv.clear (h : Inv s) {lk : Lk P K} (hpc : (s.cpu c).pc = .drop lk) :
    Fine s ((s.setLock lk { s.lock lk with locked := false }).setCpu c { s.cpu c with pc := .pop }) := by
  have hmoving : (s.cpu c).pc.moving = some lk := by rw [hpc]; rfl
  obtain ⟨_, hnone⟩ := (h.cpu c).moving lk hmoving
  refine h.lockStep (Cpu.sameBut_pc _ (by rw [hpc]; nofun) nofun) ?_ (.inl rfl)
    (fun _ _ => by rw [hnone]; nofun) (fun _ _ => by rw [hnone]; nofun) (fun _ => hnone)
    (fun c' hne hc' => hne (h.single c' c lk hc' hmoving)) (fun p _ => ⟨rfl, fun _ => .inr (.inl hnone)⟩)
    (fun hcur => ?_) id
  · change weight c (s.lock lk) + _ = _
    unfold Cpu.unmatched
    rw [hpc]
    rfl
  · have hat := ((h.cpu c).sched hcur).of_pc
    rw [hpc] at hat
    change Cpu.At _ _ (s.cpu c).stage
    rcases hat with hstage | ⟨hstage, h1, hintr⟩
    · rw [hstage]
      nofun
    · rw [hstage]
      exact ⟨hintr, .inr ⟨.inl rfl, h1⟩⟩

/-! ## Every step -/

theorem Inv.callStep (h : Inv s) (hs : s.Small) {op : Op P K} (hidle : (s.cpu c).pc = .idle)
    (hcur : (s.cpu c).cur = none → (s.cpu c).stage = .on)
    (hrel : ∀ p, (s.cpu c).cur = some p → op = .release (.proc p) → (s.proc p).state = .running)
    (hstep : callStep s c op = some s') : Fine s s' := by
  cases op with
  | pushOff =>
    rw [Spin.callStep] at hstep
    rw [← Option.some.inj hstep, cpu_pushOff, pushOff_setCpu]
    refine h.push hs hidle rfl rfl rfl rfl (.inl hidle) ?_ (fun _ _ => rfl) fun hnone => .inl ⟨hcur hnone, hcur hnone⟩
    unfold Cpu.unmatched
    exact Nat.add_right_comm ..
  | popOff =>
    rw [Spin.callStep] at hstep
    split_ifs at hstep with hpushes
    have hs' := popOff_eq hstep
    rw [setCpu_setCpu, cpu_setCpu] at hs'
    rw [hs']
    refine h.pop (Int32.sub_add_cancel _ _) rfl rfl rfl rfl hidle (by rw [hidle]; nofun) ?_ fun hnone => .inl (hcur hnone)
    unfold Cpu.unmatched
    simp only
    omega
  | acquire lk =>
    rw [Spin.callStep] at hstep
    rw [acquire_eq hstep, pushOff_setCpu]
    refine h.push hs hidle rfl rfl rfl rfl (.inr ⟨lk, rfl⟩) ?_ (fun _ _ => rfl) fun hnone => .inl ⟨hcur hnone, hcur hnone⟩
    unfold Cpu.unmatched
    rw [hidle]
    rfl
  | release lk =>
    rw [Spin.callStep, State.release] at hstep
    split_ifs at hstep with hhold
    rw [← Option.some.inj hstep]
    exact h.release hidle hhold (Cpu.sameBut_pc _ (by rw [hidle]; nofun) nofun) rfl rfl
      (fun q hq => ⟨rfl, fun hlk => hrel q hq (congrArg Op.release hlk)⟩) (fun hnone => .inl (hcur hnone)) id
  | intr on =>
    rw [Spin.callStep] at hstep
    split_ifs at hstep with h0
    rw [← Option.some.inj hstep]
    refine h.setCpu rfl rfl rfl (fun hpos => ?_) (fun _ => rfl) (fun _ _ => rfl) (fun hnone => ?_) id ?_
    · exact absurd h0 hpos
    · change Cpu.At _ _ (s.cpu c).stage
      rw [hcur hnone]
      change ∀ b, (s.cpu c).pc ≠ .restore b
      rw [hidle]
      nofun
    · change (s.cpu c).pc.moving = none
      rw [hidle]
      rfl
  | wake q =>
    rw [Spin.callStep] at hstep
    split_ifs at hstep with hguard
    rw [← Option.some.inj hstep]
    exact h.setState hguard.1 hguard.2 nofun rfl rfl
  | _ => cases hstep

theorem Inv.procStep (h : Inv s) (hs : s.Small) {p : P} {op : Op P K} (hidle : (s.cpu c).pc = .idle)
    (hcur : (s.cpu c).cur = some p) (hstep : procStep s c p op = some s') : Fine s s' := by
  have hnone : (s.cpu c).cur = none → (s.cpu c).stage = .on := by
    rw [hcur]
    nofun
  unfold Spin.procStep at hstep
  split at hstep
  · next lk =>
    split_ifs at hstep with hguard
    refine h.callStep hs hidle hnone (fun q hq heq => ?_) hstep
    have hqp : q = p := Option.some.inj (hq.symm.trans hcur)
    by_contra hstate
    exact hguard ⟨hqp ▸ Op.release.inj heq, hqp ▸ hstate⟩
  · split_ifs at hstep with hguard
    rw [← Option.some.inj hstep]
    refine h.setProc (fun c' hc' => .inr ?_) rfl rfl
    rw [h.uniq c' c p hc' hcur]
    exact hguard.2.2
  · split_ifs at hstep with hguard
    obtain ⟨hne, hhold, hstate⟩ := hguard
    rw [← Option.some.inj hstep]
    refine h.spawn (fun c' hc' => ?_) rfl
    rw [h.on_of_held hhold.2 (by rw [hstate]; nofun) hc', hcur] at hc'
    exact hne (Option.some.inj hc').symm
  · split_ifs at hstep with hguard
    rw [← Option.some.inj hstep]
    exact h.setState hguard.2.1 hguard.2.2 nofun rfl rfl
  · split_ifs at hstep with hguard
    rw [← Option.some.inj hstep]
    exact h.sched hidle hcur hguard.1.2 hguard.2.1
  · next hrel _ _ _ _ => exact h.callStep hs hidle hnone (fun q _ heq => absurd heq (hrel _)) hstep

theorem Inv.schedStep (h : Inv s) (hs : s.Small) {op : Op P K} (hidle : (s.cpu c).pc = .idle)
    (hcur : (s.cpu c).cur = none) (hstep : schedStep s c (s.cpu c).stage op = some s') : Fine s s' := by
  have hat := (h.cpu c).sched hcur
  have hmoving : (s.cpu c).pc.moving = none := by rw [hidle]; rfl
  have hsome : ∀ {p : P} {α : Prop}, (s.cpu c).cur = some p → α := by
    intro p α hp
    rw [hcur] at hp
    cases hp
  have hbusy : ¬((s.cpu c).pc = .pop ∨ ∃ lk, (s.cpu c).pc = .drop lk) := by
    rw [hidle]
    rintro (hpc | ⟨lk, hpc⟩) <;> cases hpc
  unfold Spin.schedStep at hstep
  split at hstep
  · next hstage =>
    rw [hstage] at hat
    rw [← Option.some.inj hstep]
    refine h.setCpu rfl rfl rfl (fun hpos => absurd hat.2 hpos)
      (fun hpos => absurd hat.2 hpos) (fun _ hp => hsome hp) (fun _ => ?_) False.elim hmoving
    change ∀ b, (s.cpu c).pc ≠ .restore b
    rw [hidle]
    nofun
  · next hstage =>
    split_ifs at hstep with h0
    rw [← Option.some.inj hstep]
    exact h.setCpu rfl rfl rfl (fun _ => rfl) (fun hpos => absurd h0 hpos)
      (fun _ hp => hsome hp) (fun _ => ⟨rfl, .inl ⟨hidle, h0⟩⟩) (fun hpos => absurd h0 hpos) hmoving
  · next hstage _ => exact h.callStep hs hidle (fun _ => hstage) (fun _ hp => hsome hp) hstep
  · next p hstage =>
    rw [hstage] at hat
    obtain ⟨hintr, ⟨_, h0⟩ | ⟨hnot, _⟩⟩ := hat
    · have hthread : (s.setCpu c { s.cpu c with stage := .test p }).thread c = s.thread c := thread_setCpu rfl
      rw [acquire_eq hstep, pushOff_setCpu, setCpu_setCpu, cpu_setCpu, hthread]
      refine h.push hs hidle rfl rfl rfl rfl (.inr ⟨.proc p, rfl⟩) ?_ (fun _ hp => hsome hp) fun _ =>
        .inr ⟨h0, hintr, p, rfl, rfl⟩
      unfold Cpu.unmatched
      rw [hidle]
      rfl
    · exact absurd hnot hbusy
  · next hstage =>
    rw [hstage] at hat
    obtain ⟨hintr, ⟨_, h0⟩ | ⟨hnot, _⟩⟩ := hat
    · rw [← Option.some.inj hstep]
      exact h.setCpu rfl rfl rfl (h.cpu c).off (fun hpos => absurd h0 hpos) (fun _ hp => hsome hp)
        (fun _ => ⟨hidle, h0⟩) False.elim hmoving
    · exact absurd hnot hbusy
  · next p hstage =>
    split_ifs at hstep with hrun
    rw [← Option.some.inj hstep]
    exact h.swtch hidle hcur hstage hrun
  · next p hstage =>
    rw [hstage] at hat
    have hin : (s.cpu c).Inside := by
      unfold Cpu.Inside
      rw [hstage]
      trivial
    split_ifs at hstep with hrun
    rw [← Option.some.inj hstep]
    obtain ⟨h1, hnot | hnot | ⟨_, hheld⟩⟩ := hat
    · rw [hidle] at hnot
      cases hnot
    · rw [hidle] at hnot
      cases hnot
    · refine h.setCpu rfl rfl rfl (h.cpu c).off (fun hpos => ?_) (fun _ hp => hsome hp) (fun _ => ⟨hidle, h1, hheld⟩)
        (fun _ => hin) hmoving
      rw [(h.cpu c).ena hpos, thread_of_none hcur, h.sown c hin]
      unfold Cpu.promised
      rw [hidle, hcur]
  · next p hstage =>
    rw [hstage] at hat
    have hin : (s.cpu c).Inside := by
      unfold Cpu.Inside
      rw [hstage]
      trivial
    rw [← Option.some.inj hstep]
    refine h.setCpu rfl rfl rfl (h.cpu c).off (fun hpos => ?_) (fun _ hp => hsome hp) (fun _ => hat) (fun _ => hin) hmoving
    rw [(h.cpu c).ena hpos, thread_of_none hcur, h.sown c hin]
    exact promised_eq (fun b => by rw [hidle]; nofun) nofun
  · next p hstage =>
    rw [hstage] at hat
    rw [State.release] at hstep
    split_ifs at hstep with hhold
    rw [← Option.some.inj hstep]
    have hs' : ((s.setCpu c { s.cpu c with stage := .loop }).setLock (.proc p)
        { s.lock (.proc p) with cpu := none }).goto c (.drop (.proc p)) =
        (s.setLock (.proc p) { s.lock (.proc p) with cpu := none }).setCpu c
          { s.cpu c with stage := .loop, pc := .drop (.proc p) } := by
      unfold State.goto State.setLock State.setCpu
      simp only [update_idem, update_self]
    refine hs' ▸ h.release hidle hhold ⟨rfl, rfl, ?_, rfl⟩ rfl rfl (fun _ hp => hsome hp) (fun _ => .inr ⟨rfl, hat.2.1⟩)
      fun _ => ?_
    · refine (promised_eq (fun b hb => ?_) nofun).trans (promised_eq (by rw [hidle]; nofun) (by rw [hstage]; nofun)).symm
      cases hb
    · unfold Cpu.Inside
      rw [hstage]
      trivial
  · cases hstep

theorem Inv.step (h : Inv s) (hs : s.Small) {a : C × Op P K} (hstep : step s a = some s') : Fine s s' := by
  obtain ⟨c, op⟩ := a
  dsimp only [Spin.step] at hstep
  split at hstep
  · next hidle =>
    split at hstep
    · next p hcur => exact h.procStep hs hidle hcur hstep
    · next hcur => exact h.schedStep hs hidle hcur hstep
  · next lk hpc =>
    split at hstep
    · split_ifs at hstep with hlocked
      rw [← Option.some.inj hstep]
      exact h.swap hpc (Bool.eq_false_iff.2 hlocked)
    · cases hstep
  · next lk hpc =>
    split at hstep
    · rw [← Option.some.inj hstep]
      exact h.record hpc
    · cases hstep
  · next lk hpc =>
    split at hstep
    · rw [← Option.some.inj hstep]
      exact h.clear hpc
    · cases hstep
  · next hpc =>
    split at hstep
    · have hs' := popOff_eq hstep
      unfold State.goto at hs'
      rw [setCpu_setCpu, cpu_setCpu] at hs'
      rw [hs']
      refine h.pop (Int32.sub_add_cancel _ _) rfl rfl rfl rfl rfl (by rw [hpc]; nofun) ?_ fun hnone => ?_
      · unfold Cpu.unmatched
        rw [hpc]
        rfl
      · have hat := ((h.cpu c).sched hnone).of_pc
        rw [hpc] at hat
        exact hat.imp_right fun hat => ⟨hat.1, by rw [hat.2.1]; rfl⟩
    · cases hstep
  · next b hpc =>
    have hnot : (s.cpu c).cur ≠ none := by
      intro hnone
      have hat := ((h.cpu c).sched hnone).of_pc
      rw [hpc] at hat
      exact hat
    split at hstep
    · rw [← Option.some.inj hstep]
      refine h.setCpu rfl ?_ rfl (h.cpu c).off (fun _ => ?_) (fun _ _ => rfl) (fun hnone => absurd hnone hnot) id rfl
      · unfold Cpu.unmatched
        rw [hpc]
        rfl
      · obtain ⟨p, hp⟩ := Option.ne_none_iff_exists'.1 hnot
        have hold : (s.cpu c).promised = b := by
          unfold Cpu.promised
          rw [hpc]
        rw [hold]
        exact promised_of_idle rfl hp
    · cases hstep

/-! ## Runs -/

/-- **Interrupt nesting is exact.** In every state that any number of CPUs reach without nesting too deep for an `int`:
`noff` is the number of locks that record the CPU and of the `push_off`s that are not undone; while it is not 0,
interrupts are off; the step that takes it to 0 gives the thread the state of the interrupts from before its outermost
`push_off`, on whatever CPU that was; and that state is "off" for a process that has not left `forkret`. -/
theorem nesting_exact (ready : P → Bool) (h : Reach step (fun s _ => s.Small) (init (C := C) (K := K) ready) s) :
    (∀ c, (s.cpu c).noff.toInt = (held s c + (s.cpu c).unmatched : ℕ) ∧
      ((s.cpu c).noff ≠ 0 → (s.cpu c).intr = false)) ∧
    (s.Small → ∀ a s', step s a = some s' → ∀ c, (s.cpu c).noff ≠ 0 → (s'.cpu c).noff = 0 →
      (s'.cpu c).intr = s.own (s.thread c)) ∧
    ∀ p, (s.proc p).fresh = true → s.own (.inl p) = false := by
  have hinv : Inv s := h.inv (inv_init ready) fun _ _ _ hs hsmall hstep => (hs.step hsmall hstep).inv
  exact ⟨fun c => ⟨(hinv.cpu c).count.toInt, (hinv.cpu c).off⟩,
    fun hs _ _ hstep => (hinv.step hs hstep).restored, hinv.fresh⟩

/-- Process 0 starts on CPU 0, takes its lock with interrupts on to yield, and is about to give it back on CPU 1. -/
def migration : List (Fin 2 × Op (Fin 2) Unit) :=
  [(0, .intrOn), (0, .intrOff), (0, .pick 0), (0, .swap), (0, .record), (0, .swtch), (0, .release (.proc 0)), (0, .clear),
    (0, .pop), (0, .intr true), (0, .acquire (.proc 0)), (0, .swap), (0, .record), (0, .setState .runnable), (0, .sched),
    (0, .patch), (0, .unlock), (0, .clear), (1, .intrOn), (1, .intrOff), (1, .pick 0), (1, .swap), (1, .record),
    (1, .swtch), (1, .restore), (1, .release (.proc 0)), (1, .clear)]

/-- The yield ends with interrupts on, on a CPU whose scheduler executes with interrupts off. -/
theorem nesting_exact_migration : ∃ s s' : State (Fin 2) (Fin 2) Unit,
    Reach step (fun s _ => s.Small) (init fun _ => true) s ∧ step s (1, .pop) = some s' ∧ s.thread 1 = .inl 0 ∧
    (s'.cpu 1).intr = true := by
  have hrun : (execIf step (fun s _ => s.Small) (init fun _ => true) migration).any (fun s => decide s.Small &&
      (step s (1, .pop)).any fun s' =>
        decide (s.thread 1 = .inl 0 ∧ (s.cpu 1).noff ≠ 0 ∧ (s'.cpu 1).noff = 0 ∧ s.own (.inl 0) = true)) = true := by
    decide +kernel
  obtain ⟨s, hreach, hlast⟩ := (Option.any_eq_true _ _).1 hrun
  have hreach := Reach.of_execIf hreach
  obtain ⟨hsmall, hlast⟩ := Bool.and_eq_true_iff.1 hlast
  obtain ⟨s', hstep, hat⟩ := (Option.any_eq_true _ _).1 hlast
  obtain ⟨hthread, hpos, h0, hown⟩ := of_decide_eq_true hat
  refine ⟨s, s', hreach, hstep, hthread, ?_⟩
  rw [(nesting_exact _ hreach).2.1 (of_decide_eq_true hsmall) _ s' hstep 1 hpos h0, hthread, hown]

omit [Fintype P] [Fintype K] in
theorem reach_pushOff (hpc : (s.cpu c).pc = .idle) (hcur : (s.cpu c).cur = none) (hstage : (s.cpu c).stage = .on)
    (n : ℕ) : ∃ s', Reach step any s s' ∧ s'.lock = s.lock ∧
      ((s'.cpu c).pc = .idle ∧ (s'.cpu c).cur = none ∧ (s'.cpu c).stage = .on) ∧
      (s'.cpu c).noff = (s.cpu c).noff + Int32.ofNat n ∧ (s'.cpu c).pushes = (s.cpu c).pushes + n := by
  induction n with
  | zero => exact ⟨s, .refl, rfl, ⟨hpc, hcur, hstage⟩, (Int32.add_zero _).symm, rfl⟩
  | succ n ih =>
    obtain ⟨t, ht, hlock, ⟨hpc, hcur, hstage⟩, hnoff, hpushes⟩ := ih
    have hstep : step t (c, .pushOff) = callStep t c .pushOff := by
      simp only [step, hpc, hcur, hstage, schedStep]
    refine ⟨_, ht.tail trivial hstep, hlock, ?_, ?_, ?_⟩
    · simp [State.pushOff, State.setCpu, Cpu.pushOff, hpc, hcur, hstage]
    · rw [ofNat_succ, ← Int32.add_assoc, ← hnoff]
      simp [State.pushOff, State.setCpu, Cpu.pushOff]
    · simp [State.pushOff, State.setCpu, Cpu.pushOff, hpushes, Nat.add_assoc]

/-- **The nesting overflows**: after `2 ^ 31` calls of `push_off` `noff` is negative. -/
theorem noff_overflows : ¬ ∀ s : State (Fin 1) (Fin 1) Unit, Reach step any (init fun _ => true) s →
    ∀ c, (s.cpu c).noff.toInt = (held s c + (s.cpu c).unmatched : ℕ) := by
  intro hall
  obtain ⟨s, hs, hlock, ⟨hpc, -⟩, hnoff, hpushes⟩ := reach_pushOff (C := Fin 1) (P := Fin 1) (K := Unit) (c := 0)
    (s := (init fun _ => true).setCpu 0 ⟨0, false, true, none, .on, .idle, 0⟩) rfl rfl rfl (2 ^ 31)
  have := hall s (.trans (.tail (a := (0, .intrOn)) .refl trivial rfl) hs) 0
  rw [held, hlock, hnoff, Cpu.unmatched, hpc, hpushes] at this
  exact absurd this (by decide)

end Xv6.Spin
